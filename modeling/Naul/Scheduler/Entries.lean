import Naul.Scheduler.Invariant

/-!
# Whose entries are listed

An entry of the waiting list or the sleeping list is on the stack of its thread, so it must be gone
when the thread leaves the ring. A thread that exits has no entry: it has run since it was last woken,
and it has had the lock. `destroyThread` takes out any thread, wherever it is, and unlinks only the
entries of those that wait for it.
-/

namespace Naul

namespace Scheduler

variable {s s' : Scheduler} {t : ℕ} {q : Pc}

/-- A switch changes the current thread alone. -/
theorem switch_eq (hstep : s.switch t = some s') : s' = { s with currentThread := s'.currentThread } := by
  simp only [switch, bind, Option.bind_eq_some_iff, pure, Option.some.injEq] at hstep
  obtain ⟨next, -, rfl⟩ := hstep
  rfl

/-- No call is in progress, and nobody waits or sleeps. -/
structure Booted (s : Scheduler) : Prop where
  current : s.currentThread ∈ s.ring
  created : ∀ t ∈ s.ring, t < s.created
  cleaner : s.cleanerThread < s.created ∧ ∃ stage, s.pc s.cleanerThread = .cleaner stage
  others : ∀ t, t ≠ s.cleanerThread → s.pc t = .running
  waitingList : s.waitingList = []
  waitingLock : s.waitingLock = false
  sleepingList : s.sleepingList = []

theorem Booted.place (h : s.Booted) (t : ℕ) : s.pc t = .running ∨ ∃ stage, s.pc t = .cleaner stage := by
  by_cases ht : t = s.cleanerThread
  · exact Or.inr (ht ▸ h.cleaner.2)
  · exact Or.inl (h.others t ht)

theorem runs_booted (h : s.Booted) : Runs s := by
  refine ⟨h.current, h.created, fun hy => ?_⟩
  rcases h.place s.currentThread with hpc | ⟨stage, hpc⟩ <;> rw [hpc] at hy <;> cases hy

theorem inv_booted (h : s.Booted) : Inv s := by
  refine ⟨fun t ht => h.others t ?_, fun t hholds => ?_, fun t stage id hpc' => ?_, h.cleaner.2, ?_, ?_,
    ?_, ?_⟩
  · rintro rfl
    exact absurd h.cleaner.1 (not_lt.2 ht)
  · rcases h.place t with hpc | ⟨stage, hpc⟩ <;> rw [hpc] at hholds <;> cases hholds
  · rcases h.place t with hpc | ⟨stage, hpc⟩ <;> rw [hpc] at hpc' <;> cases hpc'
  · simp [h.waitingList]
  · simp [h.waitingList]
  · simp [h.sleepingList]
  · simp [h.sleepingList]

/-! ### The guarantee -/

/-- If the step is the end of `destroyThread`, the thread is another one and has no entry. -/
def Spares (s : Scheduler) (e : Event) : Prop :=
  ∀ t ∈ s.victim e, t ≠ s.currentThread ∧ (∀ x ∈ s.waitingList, x.thread ≠ t) ∧
    ∀ x ∈ s.sleepingList, x.thread ≠ t

instance decidableSpares (s : Scheduler) (e : Event) : Decidable (Spares s e) :=
  inferInstanceAs (Decidable (∀ t ∈ s.victim e, _))

/-- The kernel's thread and the cleaner, before any other thread is created. -/
def boot : Scheduler where
  ring := [0, 1]
  currentThread := 0
  deadThreads := []
  cleanerThread := 1
  waitingList := []
  waitingLock := false
  sleepingList := []
  created := 2
  id := fun t => t
  waiting := fun _ => false
  pc := fun t => if t = 1 then .cleaner .test else .running
  freedStacks := []
  freedRecords := []

theorem booted_boot : boot.Booted :=
  ⟨by decide, by decide, ⟨by decide, .test, rfl⟩, fun _ ht => if_neg ht, rfl, rfl, rfl⟩

/-- A thread that has destroyed itself links an entry when it goes to sleep. -/
theorem destroyed_self_dangles :
    ∃ s, Trace.run step boot
        [.call .createThread, .preempt, .preempt, .call (.destroyThread 2), .advance, .advance,
          .advance, .advance, .advance, .advance, .call (.waitFemtoseconds 7)] = some s ∧
      ∃ e ∈ s.sleepingList, e.thread ∉ s.ring :=
  ⟨_, rfl, ⟨7, 2⟩, by decide, by decide⟩

end Scheduler

end Naul
