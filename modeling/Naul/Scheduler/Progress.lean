import Naul.Scheduler.Fairness
import Naul.Scheduler.Mutex
import Naul.Lib.LockOrder

/-!
# No deadlock

In a section of `filesystemLock` a function may call `allocate`; no other section has a `lock` in it. So
whoever is in a section gets to its `unlock`, once the lock of the allocator is free, and that one is
freed by steps of its holder alone. A thread that stands at a lock can therefore always get in, whatever
the state: `no_deadlock` gives a continuation of the run, of interrupts and of steps of the threads that
are in the way. What a section does besides is not in the model, and is taken to end.
-/

namespace Naul

namespace Scheduler

variable {s : Scheduler} {t : ℕ}

/-- The steps to the `unlock` of `waitingLock`, with `n` entries in the list. -/
def stepsLeft (n : ℕ) : Pc → ℕ
  | .wait .locked _ _ => 2
  | .wait .linked _ _ => 1
  | .remove (.scanning pos) _ _ => 2 * (n - pos) + 2
  | .remove (.cleared pos) _ _ => max 3 (2 * (n - pos) + 1)
  | .remove .scanned _ _ => 1
  | _ => 0

/-- The holder of `waitingLock` takes a step. -/
theorem locked_step (hpc : (s.pc s.currentThread).holdsLock = true) :
    ∃ s', s.advance = some s' ∧ s'.ring = s.ring ∧ (∀ t, t ≠ s.currentThread → s'.pc t = s.pc t) ∧
      (s'.waitingLock = false ∨ (s'.pc s.currentThread).holdsLock = true ∧
        stepsLeft s'.waitingList.length (s'.pc s.currentThread) <
          stepsLeft s.waitingList.length (s.pc s.currentThread)) := by
  have hgoto : ∀ q t, t ≠ s.currentThread → (s.goto q).pc t = s.pc t := fun q t ht =>
    Function.update_of_ne ht ..
  unfold advance
  cases hcur : s.pc s.currentThread with
  | wait stage id target =>
    cases stage with
    | locked => exact ⟨_, rfl, rfl, hgoto _, Or.inr ⟨by simp [goto, Pc.holdsLock], by simp [goto, stepsLeft]⟩⟩
    | linked => exact ⟨_, rfl, rfl, hgoto _, Or.inl rfl⟩
    | found | unlocked | flagged | yielded =>
      rw [hcur] at hpc
      cases hpc
  | remove stage remover id =>
    cases stage with
    | scanning pos =>
      simp only [remove]
      cases hentry : s.waitingList[pos]? with
      | none =>
        exact ⟨_, rfl, rfl, hgoto _, Or.inr ⟨by simp [goto, Pc.holdsLock], by simp [goto, stepsLeft]⟩⟩
      | some entry =>
        obtain ⟨hlt, -⟩ := List.getElem?_eq_some_iff.1 hentry
        dsimp only
        by_cases hid : entry.id = id
        · rw [if_pos hid]
          refine ⟨_, rfl, rfl, hgoto _, Or.inr ⟨by simp [goto, setWaiting, Pc.holdsLock], ?_⟩⟩
          simp only [goto, setWaiting, Function.update_self, stepsLeft]
          omega
        · rw [if_neg hid]
          refine ⟨_, rfl, rfl, hgoto _, Or.inr ⟨by simp [goto, Pc.holdsLock], ?_⟩⟩
          simp only [goto, Function.update_self, stepsLeft]
          omega
    | cleared pos =>
      refine ⟨_, rfl, rfl, hgoto _, Or.inr ⟨by simp [goto, Pc.holdsLock], ?_⟩⟩
      simp only [goto, Function.update_self, stepsLeft, List.length_eraseIdx]
      split_ifs <;> omega
    | scanned => exact ⟨_, rfl, rfl, hgoto _, Or.inl rfl⟩
    | called | unlocked =>
      rw [hcur] at hpc
      cases hpc
  | running | sleep _ | freeStack _ | freeRecord _ | cleaner _ =>
    rw [hcur] at hpc
    cases hpc

/-- So does a thread that gives memory back. -/
theorem taken_step (hpc : (s.pc s.currentThread).taken ≠ none) :
    ∃ s', s.advance = some s' ∧ s'.ring = s.ring ∧ ∀ t, t ≠ s.currentThread → s'.pc t = s.pc t := by
  have hgoto : ∀ q t, t ≠ s.currentThread → (s.goto q).pc t = s.pc t := fun q t ht =>
    Function.update_of_ne ht ..
  unfold advance
  cases hcur : s.pc s.currentThread with
  | freeStack t => exact ⟨_, rfl, rfl, hgoto _⟩
  | freeRecord t => exact ⟨_, rfl, rfl, hgoto _⟩
  | cleaner stage =>
    cases stage with
    | freeStack t => exact ⟨_, rfl, rfl, hgoto _⟩
    | freeRecord t => exact ⟨_, rfl, rfl, hgoto _⟩
    | test | take | rest | yield =>
      rw [hcur] at hpc
      exact absurd rfl hpc
  | running | wait _ _ _ | sleep _ | remove _ _ _ =>
    rw [hcur] at hpc
    exact absurd rfl hpc

end Scheduler

namespace Kernel

variable {k k' k'' : Kernel} {t u n : ℕ} {l : Lock} {m m' : Mutex} {rest : List Instr}

/-- The locks with no `lock` in their sections. -/
def Mutex.inner : Mutex → Bool
  | .waitingLock => true
  | .of l => l.inner

/-- The lock that the next step of thread `t` takes, if it is free. -/
def atLock (k : Kernel) (t : ℕ) : Option Mutex :=
  match k.code t with
  | .lock l :: _ => some (.of l)
  | [] =>
    match k.scheduler.pc t with
    | .wait .found _ _ | .remove .called _ _ => some .waitingLock
    | _ => none
  | _ => none

/-- What holds in runs in which `destroyThread` takes out no thread that is in a section. -/
structure Sound (k : Kernel) : Prop where
  exclusive : k.Exclusive
  held : k.Held

/-- An event of such a run. -/
def Spared (k : Kernel) (e : Event) : Prop := k.Targets e ∧ k.Spares e

theorem sound_step {e : Event} (h : k.Sound) (hC : k.Spared e) (hstep : k.step e = some k') : k'.Sound := by
  have hinv : k.Inv := ⟨h.exclusive.conserved, fun t => (h.exclusive.shaped t).bracketed, h.held⟩
  exact ⟨exclusive_step h.exclusive hC.1 hstep, (inv_step hinv hC.1 hC.2 hstep).held⟩

/-! ### What holders can do -/

/-- A state that is reached by interrupts and steps of threads that hold locks of the rank of `m` or
higher. -/
structure Reach (m : Mutex) (k k' : Kernel) : Prop where
  run : ∃ es, (∀ e ∈ es, e = .preempt ∨ e = .advance) ∧ Trace.Along step Spared k es ∧
    Trace.run step k es = some k'
  ring : k'.scheduler.ring = k.scheduler.ring
  stays : ∀ t, (∀ m', m.inner ≤ m'.inner → k.holds t m' = false) →
    k'.code t = k.code t ∧ k'.scheduler.pc t = k.scheduler.pc t

theorem Reach.refl (m : Mutex) (k : Kernel) : Reach m k k :=
  ⟨⟨[], by simp, trivial, rfl⟩, rfl, fun _ _ => ⟨rfl, rfl⟩⟩

theorem holds_congr (hcode : k'.code t = k.code t) (hpc : k'.scheduler.pc t = k.scheduler.pc t) (m : Mutex) :
    k'.holds t m = k.holds t m := by
  cases m with
  | waitingLock => rw [holds, holds, hpc]
  | of l => rw [holds, holds, hcode]

theorem Reach.trans (h : Reach m k k') (h' : Reach m k' k'') : Reach m k k'' := by
  obtain ⟨es, hes, hC, hrun⟩ := h.run
  obtain ⟨fs, hfs, hC', hrun'⟩ := h'.run
  refine ⟨⟨es ++ fs, fun e he => ?_, ?_, ?_⟩, h'.ring.trans h.ring, fun t ht => ?_⟩
  · exact (List.mem_append.1 he).elim (hes e) (hfs e)
  · refine (Trace.along_append es fs k).2 ⟨hC, fun v hv => ?_⟩
    obtain rfl := Option.some.inj (hrun.symm.trans hv)
    exact hC'
  · rw [Trace.run_append, hrun, Option.bind_some, hrun']
  · obtain ⟨hcode, hpc⟩ := h.stays t ht
    obtain ⟨hcode', hpc'⟩ := h'.stays t fun m' hm => by rw [holds_congr hcode hpc, ht m' hm]
    exact ⟨hcode'.trans hcode, hpc'.trans hpc⟩

theorem Reach.mono (hm : m.inner ≤ m'.inner) (h : Reach m' k k') : Reach m k k' :=
  ⟨h.run, h.ring, fun t ht => h.stays t fun m'' hm' => ht m'' (hm.trans hm')⟩

/-- The processor is given to thread `t`. -/
def focus (t : ℕ) (k : Kernel) : Kernel := { k with scheduler := { k.scheduler with currentThread := t } }

theorem run_preempts {s : Scheduler}
    (hrun : Trace.run Scheduler.step k.scheduler (.replicate n .preempt) = some s) :
    Trace.run step k (.replicate n .preempt) = some { k with scheduler := s } := by
  induction n generalizing k with
  | zero =>
    obtain rfl := Option.some.inj hrun
    rfl
  | succ n ih =>
    rw [List.replicate_succ, Trace.run_cons] at hrun ⊢
    obtain ⟨s', hs', hrest⟩ := Option.bind_eq_some_iff.1 hrun
    have hstep : k.step .preempt = some { k with scheduler := s' } := by
      simp only [step, schedule, hs', bind, Option.bind_some, pure]
    rw [hstep, Option.bind_some]
    exact ih (k := { k with scheduler := s' }) hrest

/-- Interrupts give the processor to any thread of the ring that does not wait. -/
theorem Sound.focus (h : k.Sound) (ht : t ∈ k.scheduler.ring) (hwait : k.scheduler.waiting t = false)
    (m : Mutex) : Reach m k (k.focus t) ∧ (k.focus t).Sound := by
  obtain ⟨place, hc⟩ := h.exclusive.conserved
  obtain ⟨n, -, hrun⟩ := Scheduler.preempt_reaches hc.runs.mem hc.placed.ringNodup ht hwait
  have hrun := run_preempts hrun
  have hC : ∀ n k, Trace.Along step Spared k (.replicate n .preempt) := by
    intro n
    induction n with
    | zero => exact fun _ => trivial
    | succ n ih => exact fun k => ⟨⟨trivial, trivial⟩, fun k' _ => ih k'⟩
  refine ⟨⟨⟨_, fun e he => Or.inl (List.eq_of_mem_replicate he), hC n k, hrun⟩, rfl, fun _ _ => ⟨rfl, rfl⟩⟩, ?_⟩
  exact Trace.run_invariant_along (fun k e k' h hC hs => sound_step h hC hs) h (hC n k) hrun

/-- A step of the current thread, which holds the lock. -/
theorem Sound.reach_advance (h : k.Sound) (hin : k.holds k.current m = true)
    (hspares : k.scheduler.victim .advance = none) (hstep : k.advance = some k')
    (hring : k'.scheduler.ring = k.scheduler.ring)
    (hpc : ∀ t, t ≠ k.current → k'.code t = k.code t ∧ k'.scheduler.pc t = k.scheduler.pc t) :
    Reach m k k' ∧ k'.Sound := by
  have hC : k.Spared .advance := by
    refine ⟨trivial, fun t ht => ?_⟩
    rw [hspares] at ht
    cases ht
  refine ⟨⟨⟨[.advance], by simp, ⟨hC, fun _ _ => trivial⟩, ?_⟩, hring, fun t ht => hpc t ?_⟩,
    sound_step h hC hstep⟩
  · rw [Trace.run_cons, show k.step .advance = some k' from hstep, Option.bind_some, Trace.run_nil]
  · rintro rfl
    rw [ht m le_rfl] at hin
    cases hin

/-- A thread that is in a section of the lock and has at most `n` steps to its `unlock`. -/
def Left (k : Kernel) : Mutex → ℕ → Prop
  | .waitingLock, n => ∃ t ∈ k.scheduler.ring, (k.scheduler.pc t).holdsLock = true ∧
      Scheduler.stepsLeft k.scheduler.waitingList.length (k.scheduler.pc t) = n
  | .of l, n => ∃ t ∈ k.scheduler.ring, inside l (k.code t) = true ∧ (k.code t).length = n

/-- The lock is set. -/
def Taken (k : Kernel) (m : Mutex) : Prop := k.isSet m = true

theorem victim_of_between {s : Scheduler} (h : (s.pc s.currentThread).between = true) :
    s.victim .advance = none := by
  simp only [Scheduler.victim]
  split
  · rename_i id hpc
    rw [hpc] at h
    cases h
  · rfl

/-- The current thread is in a section of the lock, and takes a step, or stands at a lock further in that
is set. -/
theorem Sound.section_step (h : k.Sound) (hin : inside l (k.code k.current) = true) :
    (∃ k', Reach (.of l) k k' ∧ k'.Sound ∧
        LockOrder.Closer Taken Left (.of l) (k.code k.current).length k') ∨
      ∃ l' rest, k.code k.current = .lock l' :: rest ∧ l.inner < l'.inner ∧ k.flag l' = true := by
  have hmem := h.exclusive.mem
  cases hcode : k.code k.current with
  | nil =>
    rw [hcode] at hin
    cases hin
  | cons i rest =>
    obtain ⟨-, hnested, hbetween, hfrees⟩ := h.exclusive.shaped_of hcode
    have hvictim := victim_of_between (hbetween (List.cons_ne_nil _ _))
    have hother : ∀ t, t ≠ k.current → ∀ flag : Lock → Bool,
        ({ k.goto rest with flag } : Kernel).code t = k.code t := fun t ht _ => goto_code_of_ne rest ht
    have hshorter : ∀ flag : Lock → Bool, inside l rest = true →
        Left { k.goto rest with flag } (.of l) rest.length := by
      intro flag hin'
      refine ⟨k.current, hmem, ?_⟩
      rw [show ({ k.goto rest with flag } : Kernel).code k.current = rest from goto_code_self rest]
      exact ⟨hin', rfl⟩
    have hcloser : ∀ flag : Lock → Bool, inside l rest = true →
        LockOrder.Closer Taken Left (.of l) (i :: rest).length { k.goto rest with flag } :=
      fun flag hin' => Or.inr ⟨rest.length, Nat.lt_succ_self _, hshorter flag hin'⟩
    have hholds : k.holds k.current (.of l) = true := hin
    rw [hcode] at hin
    cases i with
    | lock l' =>
      simp only [Nested, Bool.and_eq_true, decide_eq_true_eq] at hnested
      by_cases hflag : k.flag l' = true
      · exact Or.inr ⟨l', rest, rfl, hnested.1 l hin, hflag⟩
      · have hstep : k.advance = some ((k.goto rest).setFlag l' true) := by
          simp only [advance, hcode, hflag, Bool.false_eq_true, if_false]
        obtain ⟨hreach, hsound⟩ := h.reach_advance hholds hvictim hstep rfl fun t ht => ⟨hother t ht _, rfl⟩
        simp only [inside, Bool.and_eq_true] at hin
        exact Or.inl ⟨_, hreach, hsound, hcloser _ hin.2⟩
    | unlock l' =>
      have hstep : k.advance = some ((k.goto rest).setFlag l' false) := by simp only [advance, hcode]
      obtain ⟨hreach, hsound⟩ := h.reach_advance hholds hvictim hstep rfl fun t ht => ⟨hother t ht _, rfl⟩
      refine Or.inl ⟨_, hreach, hsound, ?_⟩
      by_cases hl : l' = l
      · subst hl
        refine Or.inl fun htaken => ?_
        simp [Taken, isSet, setFlag] at htaken
      · exact hcloser _ (by simpa [inside, hl] using hin)
    | link =>
      simp only [Nested, Bool.and_eq_true, decide_eq_true_eq] at hnested
      simp only [inside, hnested.1 l] at hin
      cases hin
    | free =>
      obtain ⟨s, hs, hring, hpc⟩ := Scheduler.taken_step (hfrees List.mem_cons_self)
      have hstep : k.advance = some { k.goto rest with scheduler := s } := by
        have htaken := hfrees List.mem_cons_self
        cases htake : (k.scheduler.pc k.current).taken with
        | none => exact absurd htake htaken
        | some t =>
          have hs' : (k.goto rest).scheduler.step .advance = some s := hs
          simp only [advance, hcode, htake, schedule, hs', bind, Option.bind_some, pure]
      obtain ⟨hreach, hsound⟩ := h.reach_advance hholds hvictim hstep hring
        fun t ht => ⟨goto_code_of_ne rest ht, hpc t ht⟩
      refine Or.inl ⟨_, hreach, hsound, Or.inr ⟨rest.length, Nat.lt_succ_self _, k.current, ?_, ?_⟩⟩
      · exact hring ▸ hmem
      · rw [show ({ k.goto rest with scheduler := s } : Kernel).code k.current = rest from goto_code_self rest]
        exact ⟨hin, rfl⟩

/-- The holder of `waitingLock` is in no other function. -/
theorem Exclusive.code_nil (h : k.Exclusive) (hpc : (k.scheduler.pc t).holdsLock = true) : k.code t = [] := by
  by_contra hne
  have hbetween := (h.shaped t).between hne
  generalize k.scheduler.pc t = p at hpc hbetween
  unfold Pc.holdsLock at hpc
  split at hpc <;> first | cases hbetween | cases hpc

/-- The current thread is in a section of `waitingLock`, and takes a step. -/
theorem Sound.waiting_step (h : k.Sound) (hin : (k.scheduler.pc k.current).holdsLock = true) :
    ∃ k', Reach .waitingLock k k' ∧ k'.Sound ∧ LockOrder.Closer Taken Left .waitingLock
      (Scheduler.stepsLeft k.scheduler.waitingList.length (k.scheduler.pc k.current)) k' := by
  have hcode := h.exclusive.code_nil hin
  obtain ⟨s, hs, hring, hpc, hcloser⟩ := Scheduler.locked_step hin
  have hvictim : k.scheduler.victim .advance = none := by
    simp only [Scheduler.victim]
    split
    · rename_i id hpc
      rw [current, hpc] at hin
      cases hin
    · rfl
  have htaken : (k.scheduler.pc k.current).taken = none := by
    generalize k.scheduler.pc k.current = p at hin
    unfold Pc.holdsLock at hin
    split at hin <;> first | rfl | cases hin
  have hstep : k.advance = some { k with scheduler := s } := by
    have hs' : k.scheduler.step .advance = some s := hs
    simp only [advance, hcode, htaken, schedule, hs', bind, Option.bind_some, pure]
  obtain ⟨hreach, hsound⟩ := h.reach_advance (m := .waitingLock) hin hvictim hstep hring
    fun t ht => ⟨rfl, hpc t ht⟩
  refine ⟨_, hreach, hsound, ?_⟩
  rcases hcloser with hfree | ⟨hholds, hlt⟩
  · refine Or.inl fun htaken => ?_
    change s.waitingLock = true at htaken
    rw [hfree] at htaken
    cases htaken
  · exact Or.inr ⟨_, hlt, k.current, hring ▸ h.exclusive.mem, hholds, rfl⟩

/-- A thread at a lock holds only locks further out. -/
theorem Sound.not_holds (h : k.Sound) (hcode : k.code t = .lock l :: rest) (hm : l.inner ≤ m.inner) :
    k.holds t m = false := by
  by_contra hin
  rw [Bool.not_eq_false] at hin
  cases m with
  | waitingLock =>
    rw [h.exclusive.code_nil hin] at hcode
    cases hcode
  | of l' =>
    have hnested := (h.exclusive.shaped t).nested
    rw [holds, hcode] at hin
    rw [hcode] at hnested
    simp only [Nested, Bool.and_eq_true, decide_eq_true_eq] at hnested
    exact absurd (hnested.1 l' hin) (not_lt.2 hm)

/-- The holder of a lock comes closer to its `unlock`, at once or when the lock it stands at is free. -/
theorem Sound.holder_step (h : k.Sound) (hleft : Left k m n) :
    (∃ k', Reach m k k' ∧ k'.Sound ∧ LockOrder.Closer Taken Left m n k') ∨
      ∃ m', m.inner < m'.inner ∧ ∀ k', Reach m' k k' → k'.Sound → ¬ Taken k' m' →
        ∃ k'', Reach m k' k'' ∧ k''.Sound ∧ LockOrder.Closer Taken Left m n k'' := by
  cases m with
  | waitingLock =>
    obtain ⟨t, ht, hin, rfl⟩ := hleft
    obtain ⟨hreach, hsound⟩ := h.focus ht (h.exclusive.awake_of_holds (m := .waitingLock) hin) .waitingLock
    obtain ⟨k', hreach', hsound', hcloser⟩ := hsound.waiting_step hin
    exact Or.inl ⟨k', hreach.trans hreach', hsound', hcloser⟩
  | of l =>
    obtain ⟨t, ht, hin, rfl⟩ := hleft
    obtain ⟨hreach, hsound⟩ := h.focus ht (h.exclusive.awake_of_holds (m := .of l) hin) (.of l)
    rcases hsound.section_step hin with ⟨k', hreach', hsound', hcloser⟩ | ⟨l', rest, hcode, hlt, -⟩
    · exact Or.inl ⟨k', hreach.trans hreach', hsound', hcloser⟩
    · change k.code t = .lock l' :: rest at hcode
      refine Or.inr ⟨.of l', hlt, fun k' hk' hsound' hfree => ?_⟩
      obtain ⟨hcode', -⟩ := hk'.stays t fun m hm => h.not_holds hcode hm
      have hin' : inside l (k'.code t) = true := by rwa [hcode']
      have ht' : t ∈ k'.scheduler.ring := hk'.ring ▸ ht
      obtain ⟨hreach', hsound''⟩ := hsound'.focus ht'
        (hsound'.exclusive.awake_of_holds (m := .of l) hin') (.of l)
      rcases hsound''.section_step hin' with ⟨k'', hk'', hs'', hcloser⟩ | ⟨l'', rest', hcode'', -, hflag⟩
      · refine ⟨k'', hreach'.trans hk'', hs'', ?_⟩
        rw [← hcode']
        exact hcloser
      · change k'.code t = .lock l'' :: rest' at hcode''
        rw [hcode', hcode, List.cons.injEq, Instr.lock.injEq] at hcode''
        obtain ⟨rfl, -⟩ := hcode''
        exact absurd hflag hfree

/-- **Every lock can be freed** by interrupts and steps of holders of locks of its rank or higher. -/
theorem Sound.frees (h : k.Sound) (m : Mutex) : ∃ k', Reach m k k' ∧ k'.Sound ∧ ¬ Taken k' m := by
  refine LockOrder.exists_free Mutex.inner Left Reach.refl
    (fun m s t u h h' => h.trans h') (fun m m' s t hm h => h.mono hm) (fun k m hk hm => ?_)
    (fun k m n hk hleft => hk.holder_step hleft) m h
  cases m with
  | waitingLock =>
    obtain ⟨t, ht, hin⟩ := hk.held.waiting hm
    exact ⟨_, t, ht, hin, rfl⟩
  | of l =>
    obtain ⟨t, ht, hin⟩ := hk.held.others l hm
    exact ⟨_, t, ht, hin, rfl⟩

/-! ### The guarantee -/

/-- Where a thread stands at a lock. -/
theorem atLock_cases (hat : k.atLock t = some m) :
    (∃ l rest, m = .of l ∧ k.code t = .lock l :: rest) ∨
      m = .waitingLock ∧ k.code t = [] ∧
        ((∃ id target, k.scheduler.pc t = .wait .found id target) ∨
          ∃ remover id, k.scheduler.pc t = .remove .called remover id) := by
  unfold atLock at hat
  split at hat <;> rename_i hcode
  · obtain rfl := Option.some.inj hat
    exact Or.inl ⟨_, _, rfl, hcode⟩
  · split at hat <;> rename_i hpc
    · obtain rfl := Option.some.inj hat
      exact Or.inr ⟨rfl, hcode, Or.inl ⟨_, _, hpc⟩⟩
    · obtain rfl := Option.some.inj hat
      exact Or.inr ⟨rfl, hcode, Or.inr ⟨_, _, hpc⟩⟩
    · cases hat
  · cases hat

theorem atLock_congr (hcode : k'.code t = k.code t) (hpc : k'.scheduler.pc t = k.scheduler.pc t) :
    k'.atLock t = k.atLock t := by
  rw [atLock, atLock, hcode, hpc]

/-- It is in no section of this lock, nor of one further in, and does not wait. -/
theorem Sound.at_lock (h : k.Sound) (hat : k.atLock t = some m) :
    (∀ m', m.inner ≤ m'.inner → k.holds t m' = false) ∧ k.scheduler.waiting t = false := by
  rcases atLock_cases hat with ⟨l, rest, rfl, hcode⟩ | ⟨rfl, hcode, hpc⟩
  · refine ⟨fun m' hm => h.not_holds hcode hm, h.exclusive.awake_of_code ?_⟩
    rw [hcode]
    exact List.cons_ne_nil _ _
  · have hplace : (k.scheduler.pc t).holdsLock = false ∧ (k.scheduler.pc t).resting = false ∧
        (k.scheduler.pc t).rested = false := by
      rcases hpc with ⟨id, target, hpc⟩ | ⟨remover, id, hpc⟩ <;> rw [hpc] <;> exact ⟨rfl, rfl, rfl⟩
    refine ⟨fun m' _ => ?_, h.exclusive.awake_of_pc hplace.2.1 hplace.2.2⟩
    cases m' with
    | waitingLock => exact hplace.1
    | of l => rw [holds, hcode, inside]

/-- The current thread stands at a lock that is free, and takes it. -/
theorem Sound.take (h : k.Sound) (hat : k.atLock k.current = some m) (hfree : ¬ Taken k m) :
    k.scheduler.victim .advance = none ∧
      ∃ k', k.advance = some k' ∧ k'.current = k.current ∧ k'.holds k.current m = true := by
  rcases atLock_cases hat with ⟨l, rest, rfl, hcode⟩ | ⟨rfl, hcode, hpc⟩
  · obtain ⟨hbracketed, -, hbetween, -⟩ := h.exclusive.shaped_of hcode
    refine ⟨victim_of_between (hbetween (List.cons_ne_nil _ _)), (k.goto rest).setFlag l true, ?_, rfl, ?_⟩
    · have hflag : k.flag l = false := by simpa [Taken, isSet] using hfree
      simp only [advance, hcode, hflag, Bool.false_eq_true, if_false]
    · change inside l ((k.goto rest).code k.current) = true
      rw [goto_code_self]
      simp only [Bracketed, Bool.and_eq_true] at hbracketed
      exact hbracketed.1
  · have hlock : k.scheduler.waitingLock = false := by simpa [Taken, isSet] using hfree
    have hgoto : ∀ q : Pc, k.scheduler.lock q =
        some { k.scheduler.goto q with waitingLock := true } := fun q => by
      simp only [Scheduler.lock, hlock, Bool.false_eq_true, if_false]
    have hself : ∀ q : Pc, (k.scheduler.goto q).pc k.current = q := fun q => Function.update_self ..
    rw [current] at hcode
    rcases hpc with ⟨id, target, hpc⟩ | ⟨remover, id, hpc⟩ <;> rw [current] at hpc
    · refine ⟨by simp only [Scheduler.victim, hpc],
        { k with scheduler := { k.scheduler.goto (.wait .locked id target) with waitingLock := true } },
        ?_, rfl, congrArg Pc.holdsLock (hself (.wait .locked id target))⟩
      simp only [advance, current, hcode, hpc, Pc.taken, schedule, Scheduler.step, Scheduler.advance,
        Scheduler.wait, hgoto, bind, Option.bind_some, pure]
    · refine ⟨by simp only [Scheduler.victim, hpc],
        { k with scheduler := { k.scheduler.goto (.remove (.scanning 0) remover id) with waitingLock := true } },
        ?_, rfl, congrArg Pc.holdsLock (hself (.remove (.scanning 0) remover id))⟩
      simp only [advance, current, hcode, hpc, Pc.taken, schedule, Scheduler.step, Scheduler.advance,
        Scheduler.remove, hgoto, bind, Option.bind_some, pure]

theorem sound_booted (hboot : k.Booted) (hwait : ∀ t, k.scheduler.waiting t = false) : k.Sound :=
  ⟨exclusive_booted hboot hwait, (inv_booted hboot).held⟩

/-- **No deadlock.** After every run in which `destroyThread` takes out no thread that is in a section,
each thread of the ring that stands at a lock, taken or free, gets in in a continuation of the run, which
consists of interrupts of the timer and steps of the threads alone. -/
theorem no_deadlock {events : List Event} (hboot : k.Booted)
    (hwait : ∀ t, k.scheduler.waiting t = false) (hC : Trace.Along step Spared k events)
    (hrun : Trace.run step k events = some k') (ht : t ∈ k'.scheduler.ring)
    (hat : k'.atLock t = some m) :
    ∃ es k'', (∀ e ∈ es, e = .preempt ∨ e = .advance) ∧ Trace.Along step Spared k (events ++ es) ∧
      Trace.run step k (events ++ es) = some k'' ∧ k''.current = t ∧ k''.holds t m = true := by
  have h : k'.Sound :=
    Trace.run_invariant_along (fun k e k' h hC hs => sound_step h hC hs) (sound_booted hboot hwait) hC hrun
  -- the lock is freed, and `t` is still before it
  obtain ⟨k₁, hreach, h₁, hfree⟩ := h.frees m
  obtain ⟨hcode, hpc⟩ := hreach.stays t (h.at_lock hat).1
  have hat₁ : k₁.atLock t = some m := (atLock_congr hcode hpc).trans hat
  -- the processor comes to `t`
  obtain ⟨hfocus, h₂⟩ := h₁.focus (hreach.ring ▸ ht) (h₁.at_lock hat₁).2 m
  obtain ⟨hvictim, k₃, hstep, hcurrent, hholds⟩ := h₂.take (m := m) hat₁ hfree
  obtain ⟨es, hes, hCes, hrunes⟩ := (hreach.trans hfocus).run
  have hadvance : (k₁.focus t).Spared .advance := by
    refine ⟨trivial, fun u hu => ?_⟩
    rw [hvictim] at hu
    cases hu
  have hstep' : (k₁.focus t).step .advance = some k₃ := hstep
  refine ⟨es ++ [.advance], k₃, fun e he => ?_, ?_, ?_, hcurrent, hholds⟩
  · rcases List.mem_append.1 he with he | he
    · exact hes e he
    · exact Or.inr (List.mem_singleton.1 he)
  · refine (Trace.along_append _ _ _).2 ⟨hC, fun v hv => (Trace.along_append _ _ _).2 ⟨?_, fun w hw => ?_⟩⟩
    · obtain rfl := Option.some.inj (hrun.symm.trans hv)
      exact hCes
    · obtain rfl := Option.some.inj (hrun.symm.trans hv)
      obtain rfl := Option.some.inj (hrunes.symm.trans hw)
      exact ⟨hadvance, fun _ _ => trivial⟩
  · rw [Trace.run_append, hrun, Option.bind_some, Trace.run_append, hrunes, Option.bind_some,
      Trace.run_cons, hstep', Option.bind_some, Trace.run_nil]

instance decidableSpared (k : Kernel) (e : Event) : Decidable (k.Spared e) :=
  inferInstanceAs (Decidable (_ ∧ _))

theorem no_deadlock_contended :
    ∃ es k, (∀ e ∈ es, e = .preempt ∨ e = .advance) ∧ Trace.Along step Spared boot (contended ++ es) ∧
      Trace.run step boot (contended ++ es) = some k ∧ k.current = 2 ∧
      k.holds 2 (.of .allocatorLock) = true := by
  have hC : Trace.Along step Spared boot contended := by decide
  obtain ⟨k, hrun, ht, hat⟩ :
      ∃ k, Trace.run step boot contended = some k ∧ 2 ∈ k.scheduler.ring ∧
        k.atLock 2 = some (.of .allocatorLock) := ⟨_, rfl, by decide, rfl⟩
  exact no_deadlock booted_boot (fun _ => rfl) hC hrun ht hat

end Kernel

end Naul
