import Naul.Scheduler.Entries

/-!
# What a step does

The part of the state that says where the threads are and who has the lock, and the changes a step
makes in it. Each kind of step that takes a thread somewhere else is one constructor of `Turn`; all
the others only move the current thread, and are the constructor `go`. What holds of this part in
every state of a run follows from `turn_step`, without another look at the machine.
-/

namespace Naul

/-- The thread that has been taken out at this place, and of which at least the record is still to be
given back. -/
def Pc.taken : Pc → Option ℕ
  | .freeStack t | .freeRecord t => some t
  | .cleaner (.freeStack t) | .cleaner (.freeRecord t) => some t
  | _ => none

/-- The thread of which the record alone is still to be given back. -/
def Pc.stackless : Pc → Option ℕ
  | .freeRecord t | .cleaner (.freeRecord t) => some t
  | _ => none

/-- The id of the thread that `destroyThread` is going to search for. -/
def Pc.destroying : Pc → Option ℕ
  | .remove _ .destroyThread id => some id
  | _ => none

theorem Pc.taken_of_stackless {p : Pc} {t : ℕ} (h : p.stackless = some t) : p.taken = some t := by
  unfold Pc.stackless at h
  split at h <;> first | exact h | cases h

theorem Pc.stackless_eq_none {p : Pc} (h : p.taken = none) : p.stackless = none := by
  by_contra hne
  obtain ⟨t, ht⟩ := Option.ne_none_iff_exists'.1 hne
  rw [Pc.taken_of_stackless ht] at h
  cases h

namespace Scheduler

/-- The part of the state that says where the threads are, and the lock. -/
structure Core where
  ring : List ℕ
  deadThreads : List ℕ
  created : ℕ
  id : ℕ → ℕ
  pc : ℕ → Pc
  waitingLock : Bool
  freedStacks : List ℕ
  freedRecords : List ℕ

def core (s : Scheduler) : Core where
  ring := s.ring
  deadThreads := s.deadThreads
  created := s.created
  id := s.id
  pc := s.pc
  waitingLock := s.waitingLock
  freedStacks := s.freedStacks
  freedRecords := s.freedRecords

/-- The current thread may go to `q` and leave the lock `b`: it keeps the lock it has, or takes it, or
does not touch the lock of another. -/
def Guards (s : Scheduler) (q : Pc) (b : Bool) : Prop :=
  b = true → q.holdsLock = true ∨ s.waitingLock = true ∧ (s.pc s.currentThread).holdsLock = false

/-- The changes a step can make in the core. -/
inductive Turn (s : Scheduler) (e : Event) : Core → Prop
  | go (q : Pc) (b : Bool) (guards : s.Guards q b) (taken : q.taken = (s.pc s.currentThread).taken)
      (stackless : q.stackless = (s.pc s.currentThread).stackless)
      (destroying : ∀ id, q.destroying = some id → (s.pc s.currentThread).destroying = some id ∨
        e = .call (.destroyThread id)) :
      Turn s e { s.core with pc := Function.update s.pc s.currentThread q, waitingLock := b }
  | create (event : e = .call .createThread) :
      Turn s e { s.core with
        ring := s.ring ++ [s.created]
        created := s.created + 1
        id := Function.update s.id s.created (freeId (s.ring.map s.id) 0 s.ring.length)
        pc := Function.update s.pc s.created .running }
  | exit (id : ℕ) (event : e = .advance)
      (at_end : s.pc s.currentThread = .remove .unlocked .exitThread id) :
      Turn s e { s.core with
        ring := s.ring.erase s.currentThread
        deadThreads := s.deadThreads ++ [s.currentThread] }
  | destroy (id t : ℕ) (at_end : s.pc s.currentThread = .remove .unlocked .destroyThread id)
      (found : s.threadWithId id = some t) (victim : s.victim e = some t) :
      Turn s e { s.core with
        ring := s.ring.erase t
        pc := Function.update s.pc s.currentThread (.freeStack t) }
  | take (t : ℕ) (ts : List ℕ) (q : Pc) (dead : s.deadThreads = t :: ts)
      (at_take : s.pc s.currentThread = .cleaner .take) (taken : q.taken = some t)
      (stackless : q.stackless = none) (destroying : q.destroying = none) :
      Turn s e { s.core with
        deadThreads := ts
        pc := Function.update s.pc s.currentThread q }
  | freeStack (t : ℕ) (q : Pc) (outside : (s.pc s.currentThread).holdsLock = false)
      (before : (s.pc s.currentThread).taken = some t)
      (whole : (s.pc s.currentThread).stackless = none) (taken : q.taken = some t)
      (stackless : q.stackless = some t) (destroying : q.destroying = none) :
      Turn s e { s.core with
        freedStacks := t :: s.freedStacks
        pc := Function.update s.pc s.currentThread q }
  | freeRecord (t : ℕ) (q : Pc) (outside : (s.pc s.currentThread).holdsLock = false)
      (before : (s.pc s.currentThread).stackless = some t)
      (taken : q.taken = none) (destroying : q.destroying = none) :
      Turn s e { s.core with
        freedRecords := t :: s.freedRecords
        pc := Function.update s.pc s.currentThread q }

variable {s s' u : Scheduler} {e : Event} {t : ℕ} {q : Pc} {b : Bool}

/-- It leaves the lock as it is, and has not had it. -/
theorem guards_outside (h : (s.pc s.currentThread).holdsLock = false) (q : Pc) :
    s.Guards q s.waitingLock :=
  fun hb => Or.inr ⟨hb, h⟩

/-- The current thread goes to a place that is none of a remover's. -/
theorem Turn.idle
    (hcore : s'.core =
      { s.core with pc := Function.update s.pc s.currentThread q, waitingLock := b })
    (hguards : s.Guards q b) (hbefore : (s.pc s.currentThread).taken = none) (htaken : q.taken = none)
    (hq : ∀ id, q.destroying = some id → (s.pc s.currentThread).destroying = some id ∨
      e = .call (.destroyThread id)) : Turn s e s'.core := by
  rw [hcore]
  refine .go q b hguards (htaken.trans hbefore.symm) ?_ hq
  rw [Pc.stackless_eq_none htaken, Pc.stackless_eq_none hbefore]

/-- Nothing changes in the core. -/
theorem Turn.still (hcore : s'.core = s.core) : Turn s e s'.core := by
  have hguards : s.Guards (s.pc s.currentThread) s.waitingLock := by
    intro hb
    cases hholds : (s.pc s.currentThread).holdsLock with
    | true => exact Or.inl rfl
    | false => exact Or.inr ⟨hb, rfl⟩
  have hgo : Turn s e
      { s.core with
        pc := Function.update s.pc s.currentThread (s.pc s.currentThread)
        waitingLock := s.waitingLock } := .go _ _ hguards rfl rfl fun _ => Or.inl
  rw [Function.update_eq_self] at hgo
  rw [hcore]
  exact hgo

theorem core_switch (hstep : s.switch t = some s') : s'.core = s.core := by
  rw [switch_eq hstep]
  rfl

theorem turn_lock (hlock : s.lock q = some s') (hbefore : (s.pc s.currentThread).taken = none)
    (hholds : q.holdsLock = true) (htaken : q.taken = none)
    (hq : ∀ id, q.destroying = some id → (s.pc s.currentThread).destroying = some id) :
    Turn s e s'.core := by
  unfold lock at hlock
  split_ifs at hlock
  · exact .still (core_switch hlock)
  · obtain rfl := Option.some.inj hlock
    exact .idle rfl (fun _ => Or.inl hholds) hbefore htaken fun id h => Or.inl (hq id h)

theorem turn_wake {p : SleepEntry → Bool} (hwake : s.wake p = some s') : Turn s e s'.core := by
  simp only [wake, bind, Option.bind_eq_some_iff, pure, Option.some.injEq] at hwake
  obtain ⟨x, -, rfl⟩ := hwake
  exact .still rfl

theorem turn_remove {stage : RemoveStage} {remover : Remover} {id : ℕ}
    (hpc : s.pc s.currentThread = .remove stage remover id)
    (hstep : Removed s id remover stage s') : Turn s .advance s'.core := by
  have hbefore : (s.pc s.currentThread).taken = none := by rw [hpc]; rfl
  -- it searches for the same id as long as it is in the loop
  have hkeeps : ∀ stage' i, (Pc.remove stage' remover id).destroying = some i →
      (s.pc s.currentThread).destroying = some i := by
    intro stage' i hi
    rw [hpc]
    cases remover <;> exact hi
  -- and has the lock there
  have hloop : ∀ stage', (Pc.remove stage' remover id).holdsLock = true → Turn s .advance
      { s.core with pc := Function.update s.pc s.currentThread (.remove stage' remover id) } :=
    fun stage' hholds => .idle (show (s.goto (.remove stage' remover id)).core = _ from rfl)
      (fun _ => Or.inl hholds) hbefore rfl fun i hi => Or.inl (hkeeps stage' i hi)
  cases hstep with
  | called hlock => exact turn_lock hlock hbefore rfl rfl (hkeeps _)
  | passedAll | woken | passed | cleared => exact hloop _ rfl
  | scanned =>
    exact .idle (show core (s.unlock (.remove .unlocked remover id)) = _ from rfl)
      (fun hb => by cases hb) hbefore rfl fun i hi => Or.inl (hkeeps _ i hi)
  | exited prev hprev hswitch =>
    rw [core_switch hswitch]
    exact .exit id rfl hpc
  | destroyed t hfind =>
    refine .destroy id t hpc hfind ?_
    simp only [victim, hpc]
    exact hfind

theorem turn_wait {stage : WaitStage} {id target : ℕ}
    (hpc : s.pc s.currentThread = .wait stage id target) (hstep : Waited s id target stage s') :
    Turn s .advance s'.core := by
  have hbefore : (s.pc s.currentThread).taken = none := by rw [hpc]; rfl
  -- no stage of `waitForThread` touches the ring or what is freed
  have hidle : ∀ stage' b, s.Guards (.wait stage' id target) b → Turn s .advance
      { s.core with
        pc := Function.update s.pc s.currentThread (.wait stage' id target), waitingLock := b } :=
    fun stage' b hguards => .idle
      (show core { s.goto (.wait stage' id target) with waitingLock := b } = _ from rfl)
      hguards hbefore rfl fun i hi => by cases hi
  cases hstep with
  | found hlock => exact turn_lock hlock hbefore rfl rfl fun i hi => by cases hi
  | locked => exact hidle .linked _ fun _ => Or.inl rfl
  | linked => exact hidle .unlocked false fun hb => by cases hb
  | unlocked => exact hidle .flagged _ (guards_outside (by rw [hpc]; rfl) _)
  | flagged hswitch =>
    rw [core_switch hswitch]
    exact hidle .yielded _ (guards_outside (by rw [hpc]; rfl) _)
  | yielded =>
    exact .idle (show core (s.goto .running) = _ from rfl) (guards_outside (by rw [hpc]; rfl) _) hbefore
      rfl fun i hi => by cases hi

theorem turn_clean {stage : CleanerStage} (hpc : s.pc s.currentThread = .cleaner stage)
    (hstep : Cleaned s stage s') : Turn s .advance s'.core := by
  have houtside : ∀ q, s.Guards q s.waitingLock := guards_outside (by rw [hpc]; rfl)
  cases hstep with
  | test =>
    refine .idle (show core (s.goto (.cleaner (if s.deadThreads ≠ [] then .take else .rest))) = _ from rfl)
      (houtside _) (by rw [hpc]; rfl) ?_ fun i hi => by cases hi
    split_ifs <;> rfl
  | take t ts hdead => exact .take t ts (.cleaner (.freeStack t)) hdead hpc rfl rfl rfl
  | freeStack t =>
    exact .freeStack t (.cleaner (.freeRecord t)) (by rw [hpc]; rfl) (by rw [hpc]; rfl)
      (by rw [hpc]; rfl) rfl rfl rfl
  | freeRecord t =>
    exact .freeRecord t (.cleaner .test) (by rw [hpc]; rfl) (by rw [hpc]; rfl) rfl rfl
  | rest =>
    exact .idle (show core ((s.goto (.cleaner .yield)).setWaiting s.currentThread true) = _ from rfl)
      (houtside _) (by rw [hpc]; rfl) rfl fun i hi => by cases hi
  | yield hswitch =>
    rw [core_switch hswitch]
    exact .idle (show core (s.goto (.cleaner .test)) = _ from rfl) (houtside _) (by rw [hpc]; rfl) rfl
      fun i hi => by cases hi

theorem turn_advance (hstep : Advanced s s') : Turn s .advance s'.core := by
  cases hstep with
  | wait stage id target hpc hwait => exact turn_wait hpc hwait
  | sleep hpc hswitch =>
    rw [core_switch hswitch]
    exact .idle (show core (s.goto (.sleep true)) = _ from rfl) (guards_outside (by rw [hpc]; rfl) _)
      (by rw [hpc]; rfl) rfl fun i hi => by cases hi
  | resume hpc =>
    exact .idle (show core (s.goto .running) = _ from rfl) (guards_outside (by rw [hpc]; rfl) _)
      (by rw [hpc]; rfl) rfl fun i hi => by cases hi
  | remove stage remover id hpc hremove => exact turn_remove hpc hremove
  | freeStack t hpc =>
    exact .freeStack t (.freeRecord t) (by rw [hpc]; rfl) (by rw [hpc]; rfl) (by rw [hpc]; rfl) rfl rfl
      rfl
  | freeRecord t hpc =>
    exact .freeRecord t .running (by rw [hpc]; rfl) (by rw [hpc]; rfl) rfl rfl
  | cleaner stage hpc hclean => exact turn_clean hpc hclean

theorem turn_call {c : Call} (hpc : s.pc s.currentThread = .running) (hstep : Called s c s') :
    Turn s (.call c) s'.core := by
  have hbefore : (s.pc s.currentThread).taken = none := by rw [hpc]; rfl
  have houtside : ∀ q, s.Guards q s.waitingLock := guards_outside (by rw [hpc]; rfl)
  cases hstep with
  | createThread => exact .create rfl
  | waitForNone id hfind => exact .still rfl
  | waitForThread id target hfind =>
    exact .idle (show core (s.goto (.wait .found id target)) = _ from rfl) (houtside _) hbefore rfl
      fun i hi => by cases hi
  | waitFemtoseconds time =>
    exact .idle (show core ((s.goto (.sleep false)).setWaiting s.currentThread true) = _ from rfl)
      (houtside _) hbefore rfl fun i hi => by cases hi
  | cancelWait id hwake => exact turn_wake hwake
  | exitThread hne =>
    exact .idle (show core (s.goto (.remove .called .exitThread (s.id s.currentThread))) = _ from rfl)
      (houtside _) hbefore rfl fun i hi => by cases hi
  | destroyThread id hne =>
    refine .idle (show core (s.goto (.remove .called .destroyThread id)) = _ from rfl) (houtside _)
      hbefore rfl fun i hi => ?_
    obtain rfl := Option.some.inj hi
    exact Or.inr rfl

/-- **Every step is one of these turns.** -/
theorem turn_step (hstep : s.step e = some s') : Turn s e s'.core := by
  cases step_stepped hstep with
  | preempt hswitch => exact .still (core_switch hswitch)
  | hpetNone value => exact .still rfl
  | hpet value hwake => exact turn_wake hwake
  | call c hpc hcall => exact turn_call hpc hcall
  | advance hadvance => exact turn_advance hadvance

/-- A thread leaves the ring at the end of `exitThread` or `destroyThread`. -/
theorem Turn.stays {c : Core} (hturn : Turn s e c) (ht : t ∈ s.ring) :
    t ∈ c.ring ∨ s.victim e = some t ∨
      t = s.currentThread ∧ e = .advance ∧ ∃ id, s.pc t = .remove .unlocked .exitThread id := by
  cases hturn with
  | exit id event at_end =>
    by_cases htc : t = s.currentThread
    · subst htc
      exact Or.inr (Or.inr ⟨rfl, event, id, at_end⟩)
    · exact Or.inl ((List.mem_erase_of_ne htc).2 ht)
  | destroy id u at_end found victim =>
    by_cases htu : t = u
    · exact Or.inr (Or.inl (htu ▸ victim))
    · exact Or.inl ((List.mem_erase_of_ne htu).2 ht)
  | create => exact Or.inl (List.mem_append_left _ ht)
  | go | take | freeStack | freeRecord => exact Or.inl ht

/-- A thread comes into the ring at the end of `createThread`. -/
theorem Turn.comes {c : Core} (hturn : Turn s e c) (ht : t ∈ c.ring) :
    t ∈ s.ring ∨ e = .call .createThread ∧ t = s.created := by
  cases hturn with
  | create event =>
    exact (List.mem_append.1 ht).imp_right fun ht => ⟨event, List.mem_singleton.1 ht⟩
  | exit | destroy => exact Or.inl (List.mem_of_mem_erase ht)
  | go | take | freeStack | freeRecord => exact Or.inl ht

/-- What has been given back stays so. -/
theorem Turn.freed {c : Core} (hturn : Turn s e c) :
    s.freedStacks ⊆ c.freedStacks ∧ s.freedRecords ⊆ c.freedRecords := by
  cases hturn with
  | freeStack => exact ⟨List.subset_cons_self _ _, List.Subset.refl _⟩
  | freeRecord => exact ⟨List.Subset.refl _, List.subset_cons_self _ _⟩
  | go | create | exit | destroy | take => exact ⟨List.Subset.refl _, List.Subset.refl _⟩

theorem Turn.born {c : Core} (hturn : Turn s e c) (ht : t < c.created) :
    t < s.created ∨ e = .call .createThread ∧ t = s.created := by
  cases hturn with
  | create event => exact (Nat.lt_succ_iff_lt_or_eq.1 ht).imp_right fun ht => ⟨event, ht⟩
  | go | exit | destroy | take | freeStack | freeRecord => exact Or.inl ht

/-! ### The kernel's thread -/

/-- The kernel's thread is at the head of the ring, with id 0, and nobody is going to take it out. -/
structure Rooted (c : Core) : Prop where
  head : c.ring.head? = some 0
  id : c.id 0 = 0
  spared : ∀ t, (c.pc t).destroying ≠ some 0

theorem Rooted.mem {c : Core} (h : Rooted c) : 0 ∈ c.ring := List.mem_of_mem_head? h.head

theorem head?_erase {ring : List ℕ} (h : ring.head? = some 0) (ht : t ≠ 0) :
    (ring.erase t).head? = some 0 := by
  cases ring with
  | nil => cases h
  | cons x xs =>
    obtain rfl : x = 0 := Option.some.inj h
    rw [List.erase_cons_tail (by simpa using Ne.symm ht)]
    rfl

/-- A thread that has another before it is not the kernel's. -/
theorem ne_zero_of_prevThread {ring : List ℕ} {p : ℕ} (h : ring.head? = some 0)
    (hprev : prevThread ring t = some p) : t ≠ 0 := by
  rintro rfl
  cases ring with
  | nil => cases h
  | cons x xs =>
    obtain rfl : x = 0 := Option.some.inj h
    simp [prevThread] at hprev

theorem Rooted.update {c : Core} (h : Rooted c) {r : ℕ} (hq : q.destroying ≠ some 0) (x : ℕ) :
    (Function.update c.pc r q x).destroying ≠ some 0 := by
  by_cases hx : x = r
  · rwa [hx, Function.update_self]
  · rw [Function.update_of_ne hx]
    exact h.spared x

theorem rooted_step (h : Rooted s.core) (hr : Runs s) (hstep : s.step e = some s') : Rooted s'.core := by
  have hturn := turn_step hstep
  have hcall : e ≠ .call (.destroyThread 0) := by
    rintro rfl
    simp [step, call] at hstep
  have hleaves : ∀ id, e = .advance → s.pc s.currentThread = .remove .unlocked .exitThread id →
      s.currentThread ≠ 0 := by
    rintro id rfl hpc
    simp only [step, advance, hpc, remove, leave, bind, Option.bind_eq_some_iff] at hstep
    obtain ⟨p, hprev, -⟩ := hstep
    exact ne_zero_of_prevThread h.head hprev
  generalize s'.core = c at hturn
  cases hturn with
  | go q b guards taken stackless destroying =>
    refine ⟨h.head, h.id, h.update fun hq => ?_⟩
    rcases destroying 0 hq with hold | hnew
    · exact h.spared _ hold
    · exact hcall hnew
  | create event =>
    have hne : 0 ≠ s.created := (hr.created 0 h.mem).ne
    refine ⟨?_, ?_, h.update (by simp [Pc.destroying])⟩
    · have hhead : s.ring.head? = some 0 := h.head
      rw [List.head?_append, hhead]
      rfl
    · exact (Function.update_of_ne hne ..).trans h.id
  | exit id event at_end => exact ⟨head?_erase h.head (hleaves id event at_end), h.id, h.spared⟩
  | destroy id t at_end found victim =>
    refine ⟨head?_erase h.head ?_, h.id, h.update (by simp [Pc.destroying])⟩
    rintro rfl
    have hid : s.id 0 = id := by simpa using List.find?_some found
    have hspared := h.spared s.currentThread
    rw [show s.core.pc s.currentThread = _ from at_end] at hspared
    exact hspared (congrArg some (hid.symm.trans h.id))
  | take t ts q dead at_take taken stackless destroying =>
    exact ⟨h.head, h.id, h.update (by simp [destroying])⟩
  | freeStack t q outside before whole taken stackless destroying =>
    exact ⟨h.head, h.id, h.update (by simp [destroying])⟩
  | freeRecord t q outside before taken destroying =>
    exact ⟨h.head, h.id, h.update (by simp [destroying])⟩

end Scheduler

end Naul
