import Naul.Scheduler.Locks

/-!
# One thread in each section

The flags of the locks are set by the `lock` of the thread that gets in and cleared by its `unlock`. As
long as every thread frees only what it has taken, no two threads of the ring are in sections of the same
lock, and the flag of a lock is set while one is. `Nested` says of the code of a function what is needed
for this, and in which order it takes the locks.

A thread with its flag `waiting` set is in no section, nor at a `lock`: it has set the flag itself, and
gone to sleep, outside of all functions with locks.
-/

namespace Naul

/-- Between the store of `waiting` and the yield. -/
def Pc.resting : Pc → Bool
  | .wait .flagged _ _ | .sleep false | .cleaner .yield => true
  | _ => false

/-- After that yield. -/
def Pc.rested : Pc → Bool
  | .wait .yielded _ _ | .sleep true | .cleaner .test => true
  | _ => false

/-- A place from which a function of the kernel is called, or to which it returns. -/
def Pc.between : Pc → Bool
  | .running | .freeStack _ | .freeRecord _ => true
  | .cleaner (.freeStack _) | .cleaner (.freeRecord _) | .cleaner .test => true
  | _ => false

/-- A section of `waitingLock` is elsewhere. -/
theorem Pc.awake_of_holdsLock {p : Pc} (h : p.holdsLock = true) : p.resting = false ∧ p.rested = false := by
  unfold Pc.holdsLock at h
  split at h
  · exact ⟨rfl, rfl⟩
  · exact ⟨rfl, rfl⟩
  · exact ⟨rfl, rfl⟩
  · exact ⟨rfl, rfl⟩
  · exact ⟨rfl, rfl⟩
  · cases h

/-- Memory is given back between two functions. -/
theorem Pc.between_of_taken {p : Pc} {t : ℕ} (h : p.taken = some t) :
    p.between = true ∧ p.resting = false := by
  unfold Pc.taken at h
  split at h
  · exact ⟨rfl, rfl⟩
  · exact ⟨rfl, rfl⟩
  · exact ⟨rfl, rfl⟩
  · exact ⟨rfl, rfl⟩
  · cases h

namespace Scheduler

variable {s s' : Scheduler} {t : ℕ}

/-! ### Threads that wait -/

/-- A thread waits where it has set its flag, or further on until it runs again. -/
def Rests (s : Scheduler) : Prop :=
  ∀ t, s.waiting t = true → (s.pc t).resting = true ∨ (s.pc t).rested = true ∧ t ≠ s.currentThread

theorem rests_goto (h : Rests s) {q : Pc} (hq : (s.pc s.currentThread).resting = false) :
    Rests (s.goto q) := by
  intro t ht
  rcases h t ht with hrest | ⟨hrested, hne⟩
  · have hne : t ≠ s.currentThread := by
      rintro rfl
      rw [hq] at hrest
      cases hrest
    exact Or.inl (by simpa [goto, hne] using hrest)
  · exact Or.inr ⟨by simpa [goto, hne] using hrested, hne⟩

theorem rests_setWaiting (h : Rests s) {b : Bool} (hb : b = true → (s.pc t).resting = true) :
    Rests (s.setWaiting t b) := by
  intro u hu
  simp only [setWaiting, Function.update_apply] at hu
  split_ifs at hu with hut
  · exact Or.inl (by rw [hut]; exact hb hu)
  · exact h u hu

/-- The thread that is switched to does not wait. -/
theorem rests_switch (h : ∀ t, s.waiting t = true → (s.pc t).resting = true ∨ (s.pc t).rested = true)
    (hswitch : s.switch t = some s') : Rests s' := by
  simp only [switch, bind, Option.bind_eq_some_iff, pure, Option.some.injEq] at hswitch
  obtain ⟨next, hnext, rfl⟩ := hswitch
  intro u hu
  refine (h u hu).imp_right fun hrested => ⟨hrested, ?_⟩
  rintro rfl
  have hclear := List.find?_some hnext
  change s.waiting u = true at hu
  simp [hu] at hclear

theorem Rests.weaken (h : Rests s) (t : ℕ) (ht : s.waiting t = true) :
    (s.pc t).resting = true ∨ (s.pc t).rested = true := (h t ht).imp_right And.left

/-- The current thread goes from its place before the yield to the one after it. -/
theorem rests_yield (h : Rests s) {q : Pc} (hq : q.rested = true)
    (hswitch : (s.goto q).switch s.currentThread = some s') : Rests s' := by
  refine rests_switch (fun u hu => ?_) hswitch
  by_cases hne : u = s.currentThread
  · exact Or.inr (by simpa [goto, hne] using hq)
  · simpa [goto, hne] using h.weaken u hu

theorem rests_lock (h : Rests s) {q : Pc} (hq : (s.pc s.currentThread).resting = false)
    (hlock : s.lock q = some s') : Rests s' := by
  unfold lock at hlock
  split_ifs at hlock
  · exact rests_switch h.weaken hlock
  · obtain rfl := Option.some.inj hlock
    exact rests_goto h hq

theorem rests_wake (h : Rests s) {p : SleepEntry → Bool} (hwake : s.wake p = some s') : Rests s' := by
  simp only [wake, bind, Option.bind_eq_some_iff, pure, Option.some.injEq] at hwake
  obtain ⟨entry, -, rfl⟩ := hwake
  exact rests_setWaiting h fun hb => by cases hb

/-- **Every step** keeps this. -/
theorem rests_step {e : Event} (h : Rests s) (hstep : s.step e = some s') : Rests s' := by
  cases step_stepped hstep with
  | preempt hswitch => exact rests_switch h.weaken hswitch
  | hpetNone value => exact h
  | hpet value hwake => exact rests_wake h hwake
  | call c hpc hcall =>
    have hrest : (s.pc s.currentThread).resting = false := by rw [hpc]; rfl
    cases hcall with
    | createThread =>
      intro t ht
      simp only [Function.update_apply] at ht ⊢
      split_ifs at ht with hnew
      rw [if_neg hnew]
      exact h t ht
    | waitForNone => exact h
    | waitForThread id target => exact rests_goto h hrest
    | waitFemtoseconds time =>
      have hgoto := @rests_goto s h (.sleep false) hrest
      refine rests_setWaiting (s := s.goto (.sleep false)) hgoto fun _ => ?_
      simp [goto, Pc.resting]
    | cancelWait id hwake => exact rests_wake h hwake
    | exitThread hne => exact rests_goto h hrest
    | destroyThread id hne => exact rests_goto h hrest
  | advance hadvance =>
    cases hadvance with
    | wait stage id target hpc hwait =>
      cases hwait with
      | found hlock => exact rests_lock h (by rw [hpc]; rfl) hlock
      | locked => exact rests_goto h (by rw [hpc]; rfl)
      | linked => exact rests_goto h (by rw [hpc]; rfl)
      | unlocked =>
        have hgoto := @rests_goto s h (.wait .flagged id target) (by rw [hpc]; rfl)
        exact rests_setWaiting hgoto fun _ => by simp [goto, Pc.resting]
      | flagged hswitch => exact rests_yield h rfl hswitch
      | yielded => exact rests_goto h (by rw [hpc]; rfl)
    | sleep hpc hswitch => exact rests_yield h rfl hswitch
    | resume hpc => exact rests_goto h (by rw [hpc]; rfl)
    | remove stage remover id hpc hremove =>
      have hrest : (s.pc s.currentThread).resting = false := by rw [hpc]; rfl
      cases hremove with
      | called hlock => exact rests_lock h hrest hlock
      | passedAll | passed | cleared | scanned | destroyed => exact rests_goto h hrest
      | woken pos entry hentry hid => exact rests_setWaiting (rests_goto h hrest) fun hb => by cases hb
      | exited prev hprev hswitch =>
        refine rests_switch (fun t ht => ?_) hswitch
        exact (rests_setWaiting (s := s) h (fun hb => by cases hb)).weaken t ht
    | freeStack t hpc | freeRecord t hpc => exact rests_goto h (by rw [hpc]; rfl)
    | cleaner stage hpc hclean =>
      cases hclean with
      | test | take | freeStack | freeRecord => exact rests_goto h (by rw [hpc]; rfl)
      | rest =>
        have hgoto := @rests_goto s h (.cleaner .yield) (by rw [hpc]; rfl)
        exact rests_setWaiting hgoto fun _ => by simp [goto, Pc.resting]
      | yield hswitch => exact rests_yield h rfl hswitch

/-- The steps in which the current thread may set its flag. -/
def Dozes (s : Scheduler) : Event → Prop
  | .call (.waitFemtoseconds _) => True
  | .advance => (s.pc s.currentThread).taken = none
  | _ => False

theorem waiting_switch (hswitch : s.switch t = some s') : s'.waiting = s.waiting := by
  rw [switch_eq hswitch]

theorem waiting_lock {q : Pc} (hlock : s.lock q = some s') : s'.waiting = s.waiting := by
  unfold lock at hlock
  split_ifs at hlock
  · exact waiting_switch hlock
  · obtain rfl := Option.some.inj hlock
    rfl

theorem waiting_setWaiting {u : ℕ} (ht : (s.setWaiting u false).waiting t = true) : s.waiting t = true := by
  simp only [setWaiting, Function.update_apply] at ht
  split_ifs at ht
  exact ht

theorem waiting_wake {p : SleepEntry → Bool} (hwake : s.wake p = some s') (ht : s'.waiting t = true) :
    s.waiting t = true := by
  simp only [wake, bind, Option.bind_eq_some_iff, pure, Option.some.injEq] at hwake
  obtain ⟨entry, -, rfl⟩ := hwake
  exact waiting_setWaiting (s := s) ht

/-- A flag that a step sets is that of the current thread. -/
theorem waiting_step {e : Event} (hstep : s.step e = some s') (ht : s'.waiting t = true) :
    s.waiting t = true ∨ t = s.currentThread ∧ s.Dozes e := by
  have hset : ∀ u : Scheduler, u.waiting = s.waiting →
      (u.setWaiting s.currentThread true).waiting t = true → s.waiting t = true ∨ t = s.currentThread := by
    intro u hu hnew
    simp only [setWaiting, Function.update_apply] at hnew
    split_ifs at hnew with hcur
    · exact Or.inr hcur
    · exact Or.inl (hu ▸ hnew)
  cases step_stepped hstep with
  | preempt hswitch => exact Or.inl (waiting_switch hswitch ▸ ht)
  | hpetNone value => exact Or.inl ht
  | hpet value hwake => exact Or.inl (waiting_wake hwake ht)
  | call c hpc hcall =>
    cases hcall with
    | createThread =>
      simp only [Function.update_apply] at ht
      split_ifs at ht
      exact Or.inl ht
    | waitFemtoseconds time => exact (hset (s.goto (.sleep false)) rfl ht).imp_right fun h => ⟨h, trivial⟩
    | cancelWait id hwake => exact Or.inl (waiting_wake hwake ht)
    | waitForNone | waitForThread | exitThread | destroyThread => exact Or.inl ht
  | advance hadvance =>
    cases hadvance with
    | wait stage id target hpc hwait =>
      cases hwait with
      | found hlock => exact Or.inl (waiting_lock hlock ▸ ht)
      | unlocked =>
        refine (hset (s.goto (.wait .flagged id target)) rfl ht).imp_right fun h => ⟨h, ?_⟩
        exact congrArg Pc.taken hpc
      | flagged hswitch => exact Or.inl (waiting_switch hswitch ▸ ht)
      | locked | linked | yielded => exact Or.inl ht
    | sleep hpc hswitch => exact Or.inl (waiting_switch hswitch ▸ ht)
    | remove stage remover id hpc hremove =>
      cases hremove with
      | called hlock => exact Or.inl (waiting_lock hlock ▸ ht)
      | woken pos entry hentry hid => exact Or.inl (waiting_setWaiting ht)
      | exited prev hprev hswitch =>
        rw [waiting_switch hswitch] at ht
        exact Or.inl (waiting_setWaiting (s := s) ht)
      | passedAll | passed | cleared | scanned | destroyed => exact Or.inl ht
    | resume | freeStack | freeRecord => exact Or.inl ht
    | cleaner stage hpc hclean =>
      cases hclean with
      | rest =>
        refine (hset (s.goto (.cleaner .yield)) rfl ht).imp_right fun h => ⟨h, ?_⟩
        exact congrArg Pc.taken hpc
      | yield hswitch => exact Or.inl (waiting_switch hswitch ▸ ht)
      | test | take | freeStack | freeRecord => exact Or.inl ht

/-- A step moves no thread but the current one, and a new one. -/
theorem pc_step {e : Event} (hstep : s.step e = some s') (ht : t ≠ s.currentThread) (hnew : t ≠ s.created) :
    s'.pc t = s.pc t := by
  have hturn := turn_step hstep
  change s'.core.pc t = s.pc t
  generalize s'.core = c at hturn ⊢
  cases hturn <;> simp [core, ht, hnew]

end Scheduler

namespace Kernel

open Scheduler (Conserved)

variable {k k' : Kernel} {t u : ℕ} {l : Lock} {rest : List Instr}

/-! ### Sections in sections -/

/-- No lock is taken in a section of this one; in a section of `filesystemLock` the lock of the
allocator is. -/
def Lock.inner : Lock → Bool
  | .filesystemLock => false
  | .allocatorLock | .ipcLock | .ttyLock => true

/-- The sections of a function are in one another in order: a `lock` in a section is of a lock further
in, an `unlock` is the end of the section, and a thread is linked in none; and memory is given back
once. -/
def Nested : List Instr → Bool
  | [] => true
  | .lock l :: rest =>
    decide (∀ m, inside m (.lock l :: rest) = true → m.inner < l.inner) && Nested rest
  | .unlock l :: rest => !inside l rest && Nested rest
  | .link :: rest => decide (∀ m, inside m rest = false) && Nested rest
  | .free :: rest => decide (.free ∉ rest) && Nested rest

theorem nested_code (r : Routine) : Nested r.code = true ∧ .free ∉ r.code := by
  cases r <;> decide

theorem Nested.tail {i : Instr} (h : Nested (i :: rest) = true) : Nested rest = true := by
  cases i <;> simp only [Nested, Bool.and_eq_true] at h <;> exact h.2

/-! ### The invariant -/

/-- What is left of the function thread `t` is in. -/
structure Shaped (k : Kernel) (t : ℕ) : Prop where
  bracketed : Bracketed (k.code t) = true
  nested : Nested (k.code t) = true
  between : k.code t ≠ [] → (k.scheduler.pc t).between = true
  frees : .free ∈ k.code t → (k.scheduler.pc t).taken ≠ none

/-- Every thread has taken the locks whose sections it is in, and no other has. -/
structure Exclusive (k : Kernel) : Prop where
  conserved : ∃ place, Conserved k.scheduler place
  rests : Scheduler.Rests k.scheduler
  awake : ∀ t, k.scheduler.waiting t = true → k.code t = []
  unborn : ∀ t, k.scheduler.created ≤ t → k.code t = []
  shaped : ∀ t, k.Shaped t
  owner : ∀ l, ∀ t ∈ k.scheduler.ring, inside l (k.code t) = true →
    k.flag l = true ∧ ∀ u ∈ k.scheduler.ring, inside l (k.code u) = true → u = t

theorem Exclusive.mem (h : k.Exclusive) : k.current ∈ k.scheduler.ring := by
  obtain ⟨place, hc⟩ := h.conserved
  exact hc.runs.mem

theorem Exclusive.created (h : k.Exclusive) (ht : t ∈ k.scheduler.ring) : t < k.scheduler.created := by
  obtain ⟨place, hc⟩ := h.conserved
  exact hc.runs.created t ht

/-- The current thread does not wait where it can call something. -/
theorem Exclusive.not_waiting (h : k.Exclusive) (hpc : (k.scheduler.pc k.current).resting = false) :
    k.scheduler.waiting k.current = false := by
  by_contra hwait
  rcases h.rests k.current (by simpa using hwait) with hrest | ⟨-, hne⟩
  · rw [hpc] at hrest
    cases hrest
  · exact hne rfl

/-- Where a thread does not wait. -/
theorem Exclusive.awake_of_pc (h : k.Exclusive) (hresting : (k.scheduler.pc t).resting = false)
    (hrested : (k.scheduler.pc t).rested = false) : k.scheduler.waiting t = false := by
  by_contra hwait
  rcases h.rests t (by simpa using hwait) with hrest | ⟨hrest, -⟩
  · rw [hresting] at hrest
    cases hrest
  · rw [hrested] at hrest
    cases hrest

theorem Exclusive.awake_of_code (h : k.Exclusive) (hcode : k.code t ≠ []) : k.scheduler.waiting t = false := by
  by_contra hwait
  exact hcode (h.awake t (by simpa using hwait))

theorem shaped_nil (h : k.code t = []) : k.Shaped t := by
  refine ⟨?_, ?_, fun hne => absurd h hne, fun hfree => ?_⟩
  · rw [h]
    rfl
  · rw [h]
    rfl
  · rw [h] at hfree
    cases hfree

@[simp] theorem goto_code_self (code : List Instr) : (k.goto code).code k.current = code :=
  Function.update_self ..

theorem goto_code_of_ne (code : List Instr) (ht : t ≠ k.current) : (k.goto code).code t = k.code t :=
  Function.update_of_ne ht ..

/-- The current thread goes on, in the sections it is in and those it has just taken. -/
theorem Exclusive.goto (h : k.Exclusive) {code : List Instr} (flag : Lock → Bool)
    (hshaped : (k.goto code).Shaped k.current)
    (hwait : code ≠ [] → k.scheduler.waiting k.current = false)
    (hcurrent : ∀ l, inside l code = true →
      flag l = true ∧ ∀ t ∈ k.scheduler.ring, inside l (k.code t) = true → t = k.current)
    (hother : ∀ l, k.flag l = true → inside l (k.code k.current) = false → flag l = true) :
    Exclusive { k.goto code with flag } := by
  have hmem := h.mem
  refine ⟨h.conserved, h.rests, fun t ht => ?_, fun t ht => ?_, fun t => ?_, fun l t ht hin => ?_⟩
  · by_cases htc : t = k.current
    · subst htc
      by_contra hne
      have hfalse := hwait (by simpa using hne)
      change k.scheduler.waiting k.current = true at ht
      rw [hfalse] at ht
      cases ht
    · exact (goto_code_of_ne code htc).trans (h.awake t ht)
  · have htc : t ≠ k.current := by
      rintro rfl
      exact absurd ht (not_le.2 (h.created hmem))
    exact (goto_code_of_ne code htc).trans (h.unborn t ht)
  · by_cases htc : t = k.current
    · exact htc ▸ ⟨hshaped.bracketed, hshaped.nested, hshaped.between, hshaped.frees⟩
    · have hsame := goto_code_of_ne code htc
      obtain ⟨hb, hn, hbetween, hfrees⟩ := h.shaped t
      exact ⟨hsame ▸ hb, hsame ▸ hn, hsame ▸ hbetween, hsame ▸ hfrees⟩
  · have hsame := fun u (hu : u ≠ k.current) => goto_code_of_ne (k := k) code hu
    change inside l ((k.goto code).code t) = true at hin
    by_cases htc : t = k.current
    · subst htc
      rw [goto_code_self] at hin
      obtain ⟨hflag, hothers⟩ := hcurrent l hin
      refine ⟨hflag, fun u hu hin' => ?_⟩
      by_contra huc
      change inside l ((k.goto code).code u) = true at hin'
      rw [hsame u huc] at hin'
      exact huc (hothers u hu hin')
    · rw [hsame t htc] at hin
      obtain ⟨hflag, hothers⟩ := h.owner l t ht hin
      have hout : inside l (k.code k.current) = false := by
        by_contra hcur
        exact htc (hothers k.current hmem (by simpa using hcur)).symm
      refine ⟨hother l hflag hout, fun u hu hin' => ?_⟩
      change inside l ((k.goto code).code u) = true at hin'
      by_cases huc : u = k.current
      · subst huc
        rw [goto_code_self] at hin'
        exact absurd ((hcurrent l hin').2 t ht hin) htc
      · rw [hsame u huc] at hin'
        exact hothers u hu hin'

theorem Exclusive.shaped_of (h : k.Exclusive) {code : List Instr} (hcode : k.code k.current = code) :
    Bracketed code = true ∧ Nested code = true ∧ (code ≠ [] → (k.scheduler.pc k.current).between = true) ∧
      (.free ∈ code → (k.scheduler.pc k.current).taken ≠ none) := by
  obtain ⟨hb, hn, hbetween, hfrees⟩ := h.shaped k.current
  rw [hcode] at hb hn hbetween hfrees
  exact ⟨hb, hn, hbetween, hfrees⟩

theorem shaped_goto {code : List Instr} (hb : Bracketed code = true) (hn : Nested code = true)
    (hbetween : code ≠ [] → (k.scheduler.pc k.current).between = true)
    (hfrees : .free ∈ code → (k.scheduler.pc k.current).taken ≠ none) :
    (k.goto code).Shaped k.current := by
  refine ⟨?_, ?_, ?_, ?_⟩ <;> rw [goto_code_self]
  · exact hb
  · exact hn
  · exact hbetween
  · exact hfrees

/-- The current thread enters a function. -/
theorem Exclusive.enter (h : k.Exclusive) {code : List Instr} (hb : Bracketed code = true)
    (hn : Nested code = true) (hout : ∀ l, inside l code = false)
    (hbetween : (k.scheduler.pc k.current).between = true)
    (hresting : (k.scheduler.pc k.current).resting = false)
    (hfrees : .free ∈ code → (k.scheduler.pc k.current).taken ≠ none) : (k.goto code).Exclusive := by
  refine h.goto k.flag (shaped_goto hb hn (fun _ => hbetween) hfrees)
    (fun _ => h.not_waiting hresting) (fun l hin => ?_) fun _ hflag _ => hflag
  rw [hout l] at hin
  cases hin

/-- It takes a lock that is free. -/
theorem Exclusive.lock (h : k.Exclusive) (hcode : k.code k.current = .lock l :: rest)
    (hfree : k.flag l = false) : ((k.goto rest).setFlag l true).Exclusive := by
  obtain ⟨hb, hn, hbetween, hfrees⟩ := h.shaped_of hcode
  have hne : .lock l :: rest ≠ [] := List.cons_ne_nil _ _
  have hwait := h.awake_of_code (t := k.current) (hcode ▸ hne)
  have hshaped := shaped_goto (Bracketed.tail hb) (Nested.tail hn) (fun _ => hbetween hne)
    fun hin => hfrees (List.mem_cons_of_mem _ hin)
  refine h.goto (Function.update k.flag l true) hshaped (fun _ => hwait) (fun m hin => ?_)
    fun m hflag _ => ?_
  · by_cases hm : m = l
    · subst hm
      refine ⟨Function.update_self .., fun t ht hin' => ?_⟩
      have htaken := (h.owner m t ht hin').1
      rw [hfree] at htaken
      cases htaken
    · rw [Function.update_of_ne hm]
      have hold : inside m (k.code k.current) = true := by
        rw [hcode]
        simpa [inside, Ne.symm hm] using hin
      obtain ⟨hflag, hothers⟩ := h.owner m k.current h.mem hold
      exact ⟨hflag, hothers⟩
  · by_cases hm : m = l
    · exact hm ▸ Function.update_self ..
    · rwa [Function.update_of_ne hm]

/-- It frees the lock of the section it is in. -/
theorem Exclusive.unlock (h : k.Exclusive) (hcode : k.code k.current = .unlock l :: rest) :
    ((k.goto rest).setFlag l false).Exclusive := by
  obtain ⟨hb, hn, hbetween, hfrees⟩ := h.shaped_of hcode
  have hne : .unlock l :: rest ≠ [] := List.cons_ne_nil _ _
  have hwait := h.awake_of_code (t := k.current) (hcode ▸ hne)
  have hrest : inside l rest = false := by
    simp only [Nested, Bool.and_eq_true, Bool.not_eq_true'] at hn
    exact hn.1
  have hshaped := shaped_goto (Bracketed.tail hb) (Nested.tail hn) (fun _ => hbetween hne)
    fun hin => hfrees (List.mem_cons_of_mem _ hin)
  refine h.goto (Function.update k.flag l false) hshaped (fun _ => hwait) (fun m hin => ?_)
    fun m hflag hout => ?_
  · have hm : m ≠ l := by
      rintro rfl
      rw [hrest] at hin
      cases hin
    rw [Function.update_of_ne hm]
    have hold : inside m (k.code k.current) = true := by
      rw [hcode]
      simp [inside, hin]
    obtain ⟨hflag, hothers⟩ := h.owner m k.current h.mem hold
    exact ⟨hflag, hothers⟩
  · have hm : m ≠ l := by
      rintro rfl
      rw [hcode] at hout
      simp [inside] at hout
    rwa [Function.update_of_ne hm]

/-- A step of the scheduler. The current thread is in no function, or goes on in it afterwards. -/
theorem Exclusive.schedule (h : k.Exclusive) {e : Scheduler.Event} (hC : Scheduler.Targets k.scheduler e)
    (hdoze : k.scheduler.Dozes e → k.code k.current = [])
    (hcurrent : ∀ s, k.scheduler.step e = some s → k.code k.current ≠ [] →
      (s.pc k.current).between = true ∧ (.free ∈ k.code k.current → (s.pc k.current).taken ≠ none))
    (hstep : k.schedule e = some k') : k'.Exclusive := by
  obtain ⟨s, hs, rfl⟩ := schedule_eq_some hstep
  obtain ⟨place, hc⟩ := h.conserved
  obtain ⟨place', hc', -⟩ := Scheduler.conserved_step hc hC hs
  have hturn := Scheduler.turn_step hs
  have hcreated : k.scheduler.created ≤ s.core.created := by
    generalize s.core = c at hturn ⊢
    cases hturn <;> simp [Scheduler.core]
  -- a thread that has code was in the ring before
  have hold : ∀ l, ∀ t ∈ s.ring, inside l (k.code t) = true → t ∈ k.scheduler.ring := by
    intro l t ht hin
    rcases hturn.comes ht with hmem | ⟨-, rfl⟩
    · exact hmem
    · rw [h.unborn _ le_rfl] at hin
      cases hin
  refine ⟨⟨place', hc'⟩, Scheduler.rests_step h.rests hs, fun t ht => ?_, fun t ht => ?_, fun t => ?_,
    fun l t ht hin => ?_⟩
  · rcases Scheduler.waiting_step hs ht with hwait | ⟨rfl, hdozes⟩
    · exact h.awake t hwait
    · exact hdoze hdozes
  · exact h.unborn t (hcreated.trans ht)
  · obtain ⟨hb, hn, hbetween, hfrees⟩ := h.shaped t
    by_cases hidle : k.code t = []
    · exact shaped_nil hidle
    · by_cases htc : t = k.current
      · subst htc
        obtain ⟨hbetween', hfrees'⟩ := hcurrent s hs hidle
        exact ⟨hb, hn, fun _ => hbetween', hfrees'⟩
      · have hnew : t ≠ k.scheduler.created := by
          rintro rfl
          exact hidle (h.unborn _ le_rfl)
        have hpc := Scheduler.pc_step hs htc hnew
        exact ⟨hb, hn, hpc ▸ hbetween, hpc ▸ hfrees⟩
  · obtain ⟨hflag, hothers⟩ := h.owner l t (hold l t ht hin) hin
    exact ⟨hflag, fun u hu hin' => hothers u (hold l u hu hin') hin'⟩

/-- A step of the scheduler at which the current thread stays where it is. -/
theorem Exclusive.schedule_still (h : k.Exclusive) {e : Scheduler.Event}
    (hC : Scheduler.Targets k.scheduler e) (hdoze : ¬ k.scheduler.Dozes e)
    (hpc : ∀ s, k.scheduler.step e = some s → s.pc k.current = k.scheduler.pc k.current)
    (hstep : k.schedule e = some k') : k'.Exclusive := by
  obtain ⟨-, -, hbetween, hfrees⟩ := h.shaped k.current
  refine h.schedule hC (fun hdozes => absurd hdozes hdoze) (fun s hs hne => ?_) hstep
  rw [hpc s hs]
  exact ⟨hbetween hne, hfrees⟩

theorem Exclusive.preempt (h : k.Exclusive) (hstep : k.schedule .preempt = some k') : k'.Exclusive := by
  refine h.schedule_still (e := .preempt) trivial (fun hdoze => hdoze) (fun s hs => ?_) hstep
  rw [Scheduler.switch_eq hs]

/-- The end of `createThread`. -/
theorem Exclusive.link (h : k.Exclusive)
    (hstep : k.schedule (.call .createThread) = some k') : k'.Exclusive := by
  have hne : k.current ≠ k.scheduler.created := (h.created h.mem).ne
  refine h.schedule_still (e := .call .createThread) trivial (fun hdoze => hdoze) (fun s hs => ?_) hstep
  simp only [Scheduler.step] at hs
  split_ifs at hs
  obtain rfl := Option.some.inj hs
  exact Function.update_of_ne hne ..

/-- The place after a stack or a record has been given back. -/
theorem between_free {s s' : Scheduler} (htaken : (s.pc s.currentThread).taken ≠ none)
    (hstep : s.step .advance = some s') : (s'.pc s.currentThread).between = true := by
  cases Scheduler.step_stepped hstep with
  | advance hadvance =>
    cases hadvance with
    | freeStack t hpc => simp [Scheduler.goto, Pc.between]
    | freeRecord t hpc => simp [Scheduler.goto, Pc.between]
    | cleaner stage hpc hclean =>
      cases hclean with
      | freeStack t => simp [Scheduler.goto, Pc.between]
      | freeRecord t => simp [Scheduler.goto, Pc.between]
      | test | take | rest | yield =>
        rw [hpc] at htaken
        exact absurd rfl htaken
    | wait stage id target hpc | remove stage remover id hpc | sleep hpc | resume hpc =>
      rw [hpc] at htaken
      exact absurd rfl htaken

/-- The current thread goes past an instruction that is neither `lock` nor `unlock`. -/
theorem Exclusive.pass (h : k.Exclusive) {i : Instr} (hcode : k.code k.current = i :: rest)
    (hinside : ∀ l, inside l (i :: rest) = inside l rest) : (k.goto rest).Exclusive := by
  obtain ⟨hb, hn, hbetween, hfrees⟩ := h.shaped_of hcode
  have hne : i :: rest ≠ [] := List.cons_ne_nil _ _
  have hwait := h.awake_of_code (t := k.current) (hcode ▸ hne)
  refine h.goto k.flag (shaped_goto (Bracketed.tail hb) (Nested.tail hn) (fun _ => hbetween hne)
    fun hin => hfrees (List.mem_cons_of_mem _ hin)) (fun _ => hwait) (fun l hin => ?_)
    fun _ hflag _ => hflag
  rw [← hinside l, ← hcode] at hin
  exact h.owner l k.current h.mem hin

theorem exclusive_advance (h : k.Exclusive) (hstep : k.advance = some k') : k'.Exclusive := by
  unfold advance at hstep
  split at hstep <;> rename_i hcode
  · split at hstep
    · rename_i t htaken
      obtain rfl := Option.some.inj hstep
      obtain ⟨hbetween, hresting⟩ := Pc.between_of_taken htaken
      refine h.enter (by decide) (by decide) (by decide) hbetween hresting fun _ hnone => ?_
      rw [hnone] at htaken
      cases htaken
    · exact h.schedule (e := .advance) trivial (fun _ => hcode) (fun _ _ hne => absurd hcode hne) hstep
  · rename_i l rest
    split_ifs at hstep with hflag
    · exact h.preempt hstep
    · obtain rfl := Option.some.inj hstep
      exact h.lock hcode (by simpa using hflag)
  · obtain rfl := Option.some.inj hstep
    exact h.unlock hcode
  · exact (h.pass hcode fun _ => rfl).link hstep
  · rename_i rest
    split at hstep
    · rename_i t htaken
      have hnested := (h.shaped_of hcode).2.1
      simp only [Nested, Bool.and_eq_true, decide_eq_true_eq] at hnested
      refine (h.pass hcode fun _ => rfl).schedule (e := .advance) trivial (fun hdoze => ?_)
        (fun s hs _ => ⟨between_free (fun hnone => ?_) hs, fun hin => ?_⟩) hstep
      · change (k.scheduler.pc k.current).taken = none at hdoze
        rw [hdoze] at htaken
        cases htaken
      · change (k.scheduler.pc k.current).taken = none at hnone
        rw [hnone] at htaken
        cases htaken
      · rw [show (k.goto rest).code (k.goto rest).current = rest from goto_code_self rest] at hin
        exact absurd hin hnested.1
    · cases hstep

theorem exclusive_step {e : Event} (h : k.Exclusive) (hC : k.Targets e) (hstep : k.step e = some k') :
    k'.Exclusive := by
  cases e with
  | preempt => exact h.preempt hstep
  | hpet value =>
    refine h.schedule_still (e := .hpet value) trivial (fun hdoze => hdoze) (fun s hs => ?_) hstep
    simp only [Scheduler.step, Option.some.injEq] at hs
    subst hs
    cases hwake : k.scheduler.wake fun e => e.time = value with
    | none => rfl
    | some s =>
      simp only [Scheduler.wake, bind, Option.bind_eq_some_iff, pure, Option.some.injEq] at hwake
      obtain ⟨entry, -, rfl⟩ := hwake
      rfl
  | thread c =>
    simp only [step] at hstep
    split_ifs at hstep with hidle
    rw [not_or, not_not] at hidle
    exact h.schedule hC (fun _ => hidle.2) (fun _ _ hne => absurd hidle.2 hne) hstep
  | enter r =>
    simp only [step] at hstep
    split_ifs at hstep with hidle
    obtain rfl := Option.some.inj hstep
    obtain ⟨hnested, hfree⟩ := nested_code r
    refine h.enter (bracketed_code r) hnested ?_ (by rw [hidle.1]; rfl) (by rw [hidle.1]; rfl)
      fun hin => absurd hin hfree
    cases r <;> decide
  | advance => exact exclusive_advance h hstep

theorem exclusive_booted (h : k.Booted) (hwait : ∀ t, k.scheduler.waiting t = false) : k.Exclusive := by
  refine ⟨⟨_, h.scheduler.conserved⟩, fun t ht => ?_, fun t _ => h.code t, fun t _ => h.code t,
    fun t => shaped_nil (h.code t), fun l t _ hin => ?_⟩
  · rw [hwait t] at ht
    cases ht
  · rw [h.code t] at hin
    cases hin

/-! ### The guarantee -/

/-- The five locks. -/
inductive Mutex
  | waitingLock
  | of (l : Lock)
  deriving DecidableEq

/-- The flag of a lock. -/
def isSet (k : Kernel) : Mutex → Bool
  | .waitingLock => k.scheduler.waitingLock
  | .of l => k.flag l

/-- Thread `t` is in a section of the lock. -/
def holds (k : Kernel) (t : ℕ) : Mutex → Bool
  | .waitingLock => (k.scheduler.pc t).holdsLock
  | .of l => inside l (k.code t)

theorem Exclusive.isSet (h : k.Exclusive) {m : Mutex} (ht : t ∈ k.scheduler.ring)
    (hin : k.holds t m = true) :
    k.isSet m = true ∧ ∀ u ∈ k.scheduler.ring, k.holds u m = true → u = t := by
  cases m with
  | waitingLock =>
    obtain ⟨place, hc⟩ := h.conserved
    obtain ⟨hlock, hothers⟩ := hc.inv.mutex t hin
    exact ⟨hlock, fun u _ => hothers u⟩
  | of l => exact h.owner l t ht hin

theorem Exclusive.awake_of_holds (h : k.Exclusive) {m : Mutex} (hin : k.holds t m = true) :
    k.scheduler.waiting t = false := by
  cases m with
  | waitingLock =>
    obtain ⟨hresting, hrested⟩ := Pc.awake_of_holdsLock hin
    exact h.awake_of_pc hresting hrested
  | of l =>
    refine h.awake_of_code fun hcode => ?_
    simp only [holds, hcode] at hin
    cases hin

/-- **Mutual exclusion.** In every run in which `destroyThread` is called for other threads of the ring,
in whatever state those are, at most one thread of the ring is in a section of each of the five locks, and
then the lock is set and the thread does not wait. -/
theorem mutual_exclusion {events : List Event} (hboot : k.Booted)
    (hwait : ∀ t, k.scheduler.waiting t = false) (hC : Trace.Along step Targets k events)
    (hrun : Trace.run step k events = some k') {m : Mutex} (ht : t ∈ k'.scheduler.ring)
    (hin : k'.holds t m = true) :
    k'.isSet m = true ∧ k'.scheduler.waiting t = false ∧
      ∀ u ∈ k'.scheduler.ring, k'.holds u m = true → u = t := by
  have h := Trace.run_invariant_along (fun k e k' h hC hstep => exclusive_step h hC hstep)
    (exclusive_booted hboot hwait) hC hrun
  obtain ⟨hset, hothers⟩ := h.isSet ht hin
  exact ⟨hset, h.awake_of_holds hin, hothers⟩

/-- The kernel's thread is interrupted in `allocate`, and another thread waits for the lock. -/
def contended : List Event :=
  [.enter .createThread, .advance, .advance, .advance, .advance, .advance, .enter .allocate, .advance,
    .preempt, .preempt, .enter .allocate, .advance]

theorem mutual_exclusion_contended :
    ∃ k, Trace.run step boot contended = some k ∧ k.isSet (.of .allocatorLock) = true ∧
      k.scheduler.waiting 0 = false ∧
      ∀ u ∈ k.scheduler.ring, k.holds u (.of .allocatorLock) = true → u = 0 := by
  have hC : Trace.Along step Targets boot contended := by decide
  obtain ⟨k, hrun, ht, hin⟩ :
      ∃ k, Trace.run step boot contended = some k ∧ 0 ∈ k.scheduler.ring ∧
        k.holds 0 (.of .allocatorLock) = true := ⟨_, rfl, by decide, rfl⟩
  exact ⟨k, hrun, mutual_exclusion booted_boot (fun _ => rfl) hC hrun ht hin⟩

end Kernel

end Naul
