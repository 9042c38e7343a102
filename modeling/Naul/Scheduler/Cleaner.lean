import Naul.Scheduler.Turn

/-!
# When the cleaner sleeps

The cleaner empties `deadThreads`, sets its own flag and yields; a thread that exits appends itself and
clears the cleaner's flag. The test that finds the list empty and the store of the flag are two steps, with
interrupts enabled in between. A thread that exits there clears a flag that is not set yet, and the cleaner
goes to sleep on it (`cleaner_sleeps_on_dead`). Where no thread exits there, the cleaner's flag is never set
while the list has an element: `cleaner_attentive`.
-/

namespace Naul

namespace Scheduler

variable {s s' u : Scheduler} {e : Event} {t : ℕ} {q : Pc} {stage : CleanerStage}

/-- What a step of another thread leaves of what the cleaner looks at. -/
structure Aside (s s' : Scheduler) : Prop where
  cleaner : s'.cleanerThread = s.cleanerThread
  place : s'.pc s.cleanerThread = s.pc s.cleanerThread
  dead : s.deadThreads = [] → s'.deadThreads = []
  flag : s'.waiting s.cleanerThread = true → s.waiting s.cleanerThread = true

/-- A step is aside of the cleaner, or the end of an exit, or a step of the cleaner's own loop. -/
inductive Sees (s : Scheduler) (e : Event) (s' : Scheduler) : Prop
  | aside (h : Aside s s')
  | exit (id : ℕ) (event : e = .advance) (at_end : s.pc s.currentThread = .remove .unlocked .exitThread id)
      (cleaner : s'.cleanerThread = s.cleanerThread)
      (place : s'.pc s.cleanerThread = s.pc s.cleanerThread)
      (flag : s'.waiting s.cleanerThread = false)
  | own (stage : CleanerStage) (current : s.currentThread = s.cleanerThread)
      (at_stage : s.pc s.cleanerThread = .cleaner stage) (turn : s.clean stage = some s')

theorem Aside.refl (s : Scheduler) : Aside s s := ⟨rfl, rfl, fun h => h, fun h => h⟩

theorem aside_goto (hne : s.currentThread ≠ s.cleanerThread) (q : Pc) : Aside s (s.goto q) :=
  ⟨rfl, Function.update_of_ne hne.symm .., fun h => h, fun h => h⟩

/-- A flag is cleared, or another one than the cleaner's is set. -/
theorem Aside.setWaiting {b : Bool} (h : Aside s u) (hb : b = true → t ≠ s.cleanerThread) :
    Aside s (u.setWaiting t b) := by
  refine ⟨h.cleaner, h.place, h.dead, fun hflag => h.flag ?_⟩
  have hflag' : Function.update u.waiting t b s.cleanerThread = true := hflag
  by_cases ht : s.cleanerThread = t
  · subst ht
    rw [Function.update_self] at hflag'
    exact absurd rfl (hb hflag')
  · rwa [Function.update_of_ne ht] at hflag'

theorem Aside.switch (h : Aside s u) (hswitch : u.switch t = some s') : Aside s s' := by
  rw [switch_eq hswitch]
  exact ⟨h.cleaner, h.place, h.dead, h.flag⟩

theorem aside_wake {p : SleepEntry → Bool} (hwake : s.wake p = some s') : Aside s s' := by
  simp only [wake, bind, Option.bind_eq_some_iff, pure, Option.some.injEq] at hwake
  obtain ⟨x, -, rfl⟩ := hwake
  have h := @Aside.setWaiting s s x.thread false (Aside.refl s) fun hflag => absurd hflag Bool.false_ne_true
  exact ⟨h.cleaner, h.place, h.dead, h.flag⟩

theorem aside_lock (hne : s.currentThread ≠ s.cleanerThread) (hlock : s.lock q = some s') :
    Aside s s' := by
  unfold lock at hlock
  split_ifs at hlock
  · exact (Aside.refl s).switch hlock
  · obtain rfl := Option.some.inj hlock
    have h := aside_goto hne q
    exact ⟨h.cleaner, h.place, h.dead, h.flag⟩

theorem sees_remove (hne : s.currentThread ≠ s.cleanerThread) {stage : RemoveStage} {remover : Remover}
    {id : ℕ} (hpc : s.pc s.currentThread = .remove stage remover id)
    (hstep : Removed s id remover stage s') : Sees s .advance s' := by
  have hgoto := fun q => aside_goto hne q
  cases hstep with
  | called hlock => exact .aside (aside_lock hne hlock)
  | passedAll | passed => exact .aside (hgoto _)
  | woken =>
    -- a flag is cleared here, and never set
    exact .aside ((hgoto _).setWaiting fun hflag => absurd hflag Bool.false_ne_true)
  | cleared | scanned | destroyed => exact .aside ⟨rfl, (hgoto _).place, fun h => h, fun h => h⟩
  | exited prev hprev hswitch =>
    rw [switch_eq hswitch]
    exact .exit id rfl hpc rfl rfl (Function.update_self ..)

/-- A thread in the loop of `cleaner` that is not the cleaner. -/
theorem aside_clean (hne : s.currentThread ≠ s.cleanerThread) {stage : CleanerStage}
    (hstep : Cleaned s stage s') : Aside s s' := by
  have hgoto := fun q => aside_goto hne q
  cases hstep with
  | test => exact hgoto _
  | take t ts hdead =>
    refine ⟨rfl, (hgoto _).place, fun hnil => ?_, fun h => h⟩
    rw [hdead] at hnil
    cases hnil
  | freeStack | freeRecord => exact ⟨rfl, (hgoto _).place, fun h => h, fun h => h⟩
  | rest => exact (hgoto _).setWaiting fun _ => hne
  | yield hswitch => exact (hgoto _).switch hswitch

theorem sees_advance (hpc : s.pc s.cleanerThread = .cleaner stage) (hstep : s.advance = some s') :
    Sees s .advance s' := by
  by_cases hcur : s.currentThread = s.cleanerThread
  · have hclean : s.clean stage = some s' := by
      unfold advance at hstep
      rwa [hcur, hpc] at hstep
    exact .own stage hcur hpc hclean
  -- another thread runs, and of its steps only the end of an exit touches the cleaner
  have hgoto := fun q => aside_goto hcur q
  cases advance_advanced hstep with
  | wait stage' id target hwaits hwait =>
    cases hwait with
    | found hlock => exact .aside (aside_lock hcur hlock)
    | locked | linked | yielded => exact .aside ⟨rfl, (hgoto _).place, fun h => h, fun h => h⟩
    | unlocked => exact .aside ((hgoto _).setWaiting fun _ => hcur)
    | flagged hswitch => exact .aside ((hgoto _).switch hswitch)
  | sleep hsleeps hswitch => exact .aside ((hgoto _).switch hswitch)
  | resume => exact .aside (hgoto _)
  | remove stage' remover id hremoves hremove => exact sees_remove hcur hremoves hremove
  | freeStack | freeRecord => exact .aside ⟨rfl, (hgoto _).place, fun h => h, fun h => h⟩
  | cleaner stage' hcleans hclean => exact .aside (aside_clean hcur hclean)

theorem sees_step (hpc : s.pc s.cleanerThread = .cleaner stage) (hcreated : s.cleanerThread < s.created)
    (hstep : s.step e = some s') : Sees s e s' := by
  cases step_stepped hstep with
  | preempt hswitch => exact .aside ((Aside.refl s).switch hswitch)
  | hpetNone value => exact .aside (Aside.refl s)
  | hpet value hwake => exact .aside (aside_wake hwake)
  | advance => exact sees_advance hpc hstep
  | call c hrunning hcall =>
    have hcur : s.currentThread ≠ s.cleanerThread := by
      intro heq
      rw [heq, hpc] at hrunning
      cases hrunning
    have hgoto := fun q => aside_goto hcur q
    cases hcall with
    | createThread =>
      -- the flag of the new thread is not the cleaner's
      have hne : s.cleanerThread ≠ s.created := hcreated.ne
      have hflag : Function.update s.waiting s.created false s.cleanerThread = s.waiting s.cleanerThread :=
        Function.update_of_ne hne ..
      exact .aside ⟨rfl, Function.update_of_ne hne .., fun h => h, fun h => hflag.symm.trans h⟩
    | waitForNone => exact .aside (Aside.refl s)
    | waitFemtoseconds time =>
      have h := (hgoto (.sleep false)).setWaiting (t := s.currentThread) (b := true) fun _ => hcur
      exact .aside ⟨h.cleaner, h.place, h.dead, h.flag⟩
    | cancelWait id hwake => exact .aside (aside_wake hwake)
    | waitForThread | exitThread | destroyThread => exact .aside (hgoto _)

/-! ### The invariant -/

/-- The cleaner's flag is not set, and the cleaner is not about to set it, while a thread is dead. -/
structure Attentive (s : Scheduler) : Prop where
  place : ∃ stage, s.pc s.cleanerThread = .cleaner stage
  created : s.cleanerThread < s.created
  awake : s.waiting s.cleanerThread = true → s.deadThreads = []
  tested : s.pc s.cleanerThread = .cleaner .rest → s.deadThreads = []

/-- The step is the end of an exit. -/
def exiting (s : Scheduler) (e : Event) : Bool :=
  match e, s.pc s.currentThread with
  | .advance, .remove .unlocked .exitThread _ => true
  | _, _ => false

/-- A thread does not exit while the cleaner is between its test and the store of its flag. -/
def Timely (s : Scheduler) (e : Event) : Prop :=
  s.exiting e = true → s.pc s.cleanerThread ≠ .cleaner .rest

instance decidableTimely (s : Scheduler) (e : Event) : Decidable (Timely s e) :=
  inferInstanceAs (Decidable (_ → _))

theorem attentive_clean (h : Attentive s) (hcur : s.currentThread = s.cleanerThread)
    (hpc : s.pc s.cleanerThread = .cleaner stage) (hturn : s.clean stage = some s') :
    s'.cleanerThread = s.cleanerThread ∧ (∃ stage, s'.pc s.cleanerThread = .cleaner stage) ∧
      (s'.waiting s.cleanerThread = true → s'.deadThreads = []) ∧
      (s'.pc s.cleanerThread = .cleaner .rest → s'.deadThreads = []) := by
  have hself : ∀ q, (s.goto q).pc s.cleanerThread = q := fun q => hcur ▸ Function.update_self ..
  cases clean_cleaned hturn with
  | test =>
    refine ⟨rfl, ⟨_, hself _⟩, h.awake, fun hrest => ?_⟩
    -- it goes on to set its flag only when it has found nobody
    rw [hself] at hrest
    by_contra hdead
    rw [if_pos (show s.deadThreads ≠ [] from hdead)] at hrest
    cases hrest
  | take t ts hdead =>
    refine ⟨rfl, ⟨_, hself _⟩, fun hflag => ?_, fun hrest => ?_⟩
    · rw [h.awake hflag] at hdead
      cases hdead
    · cases (hself _).symm.trans hrest
  | freeStack | freeRecord =>
    exact ⟨rfl, ⟨_, hself _⟩, h.awake, fun hrest => by cases (hself _).symm.trans hrest⟩
  | rest =>
    -- the flag is set, and what the test has found is still so
    exact ⟨rfl, ⟨_, hself _⟩, fun _ => h.tested hpc, fun hrest => by cases (hself _).symm.trans hrest⟩
  | yield hswitch =>
    rw [switch_eq hswitch]
    exact ⟨rfl, ⟨_, hself _⟩, h.awake, fun hrest => by cases (hself _).symm.trans hrest⟩

/-- No thread is forgotten. -/
theorem Turn.created_le {c : Core} (hturn : Turn s e c) : s.created ≤ c.created := by
  cases hturn with
  | create => exact Nat.le_succ _
  | go | exit | destroy | take | freeStack | freeRecord => exact le_rfl

theorem attentive_step (h : Attentive s) (he : Timely s e) (hstep : s.step e = some s') :
    Attentive s' := by
  obtain ⟨stage, hpc⟩ := h.place
  have hcreated : s.cleanerThread < s'.created := h.created.trans_le (turn_step hstep).created_le
  cases sees_step hpc h.created hstep with
  | aside ha =>
    refine ⟨⟨stage, ?_⟩, ?_, ?_, ?_⟩
    · rw [ha.cleaner, ha.place, hpc]
    · rwa [ha.cleaner]
    · rw [ha.cleaner]
      exact fun hflag => ha.dead (h.awake (ha.flag hflag))
    · rw [ha.cleaner, ha.place]
      exact fun hrest => ha.dead (h.tested hrest)
  | exit id event at_end cleaner place flag =>
    refine ⟨⟨stage, ?_⟩, ?_, ?_, ?_⟩
    · rw [cleaner, place, hpc]
    · rwa [cleaner]
    · rw [cleaner, flag]
      exact nofun
    · rw [cleaner, place]
      -- here a thread becomes dead, which the condition keeps from happening after the test
      have hexit : s.exiting e = true := by
        subst event
        unfold exiting
        rw [at_end]
      exact fun hrest => absurd hrest (he hexit)
  | own stage current at_stage turn =>
    obtain ⟨cleaner, place, awake, tested⟩ := attentive_clean h current at_stage turn
    rw [← cleaner] at hcreated place awake tested
    exact ⟨place, hcreated, awake, tested⟩

/-- **The cleaner never sleeps on pending work** in a run in which no thread exits while the cleaner is
between the test that finds nothing and the store of its flag. -/
theorem cleaner_attentive {events : List Event} (hboot : s.Booted)
    (htest : s.pc s.cleanerThread = .cleaner .test) (hawake : s.waiting s.cleanerThread = false)
    (hes : Trace.Along step Timely s events) (hrun : Trace.run step s events = some s') :
    s'.waiting s'.cleanerThread = true → s'.deadThreads = [] := by
  have hstart : Attentive s := by
    refine ⟨⟨_, htest⟩, hboot.cleaner.1, ?_, ?_⟩
    · rw [hawake]
      exact nofun
    · rw [htest]
      exact nofun
  exact (Trace.run_invariant_along (fun s e s' h he hstep => attentive_step h he hstep) hstart hes
    hrun).awake

/-- Thread 2 is created, and exits before the cleaner looks at the list. -/
def exitBeforeTest : List Event :=
  [.call .createThread, .preempt, .preempt, .call .exitThread, .advance, .advance, .advance, .advance,
    .preempt, .advance, .advance, .advance, .advance, .advance, .advance]

/-- The cleaner gives it back, finds nothing more and sets its flag. -/
theorem cleaner_attentive_exitBeforeTest :
    ∃ s, Trace.run step boot exitBeforeTest = some s ∧ s.waiting 1 = true ∧ s.freedRecords = [2] ∧
      s.deadThreads = [] := by
  have hes : Trace.Along step Timely boot exitBeforeTest := by decide
  exact ⟨_, rfl, rfl, rfl, cleaner_attentive booted_boot rfl rfl hes rfl rfl⟩

/-- Thread 2 exits when the cleaner has found the list empty and not set its flag: it sets it, with thread
2 in the list. -/
theorem cleaner_sleeps_on_dead :
    ∃ s, Trace.run step boot
        [.call .createThread, .preempt, .advance, .preempt, .call .exitThread, .advance, .advance,
          .advance, .advance, .preempt, .advance] = some s ∧
      s.waiting s.cleanerThread = true ∧ s.deadThreads = [2] :=
  ⟨_, rfl, rfl, rfl⟩

end Scheduler

end Naul
