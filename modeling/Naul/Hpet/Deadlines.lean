import Naul.Hpet.Timer
import Naul.Lib.Trace

/-!
# Sleepers, ticks and interrupts

The counter ticks by itself, also while interrupts are off. The interrupt is pending from the tick at
which the counter equals the comparator, and it is delivered when interrupts are enabled. A critical
section is therefore not one step: the change of the list, the read of the counter in `updateTimer`
and the store of the comparator are three, with ticks in between.

The counter wraps; `now` is the number of ticks, of which the counter is the remainder, and a sleeper
carries its deadline in ticks. Both are ghosts: the source has only `UInt64.ofNat now` and
`Sleeper.entry`. `hpet_refines`, `cancelWait_refines` and `waitFemtoseconds_refines` say that the
functions over the ring take the steps of this machine.

`no_missed_deadline` is the guarantee. It needs `Timely`: the machine has three ways to miss a
deadline, and each is a condition on one kind of step.
-/

namespace Naul

open LinkRing

/-- A thread that sleeps, and the tick it waits for. -/
structure Sleeper where
  deadline : ℕ
  thread : UInt64
  deriving DecidableEq

/-- The entry in memory. -/
def Sleeper.entry (e : Sleeper) : SleepingEntry := ⟨UInt64.ofNat e.deadline, e.thread⟩

namespace Sleepers

/-- What the processor is at: outside the critical sections with interrupts enabled, or in one of
them before the read of the counter, before the store of the comparator (with the tick at which the
counter was read), or before the end. -/
inductive Phase
  | enabled
  | updating
  | writing (readAt : ℕ)
  | leaving
  deriving DecidableEq

/-- `computed` are the threads in `waitFemtoseconds` between the computation of the deadline and
`cli`. -/
structure State where
  now : ℕ
  comparator : UInt64
  pending : Bool
  phase : Phase
  computed : List Sleeper
  sleeping : List Sleeper
  deriving DecidableEq

inductive Event
  | tick
  /-- A thread calls `waitFemtoseconds` and computes its deadline. -/
  | compute (thread femtoseconds : UInt64)
  /-- The thread disables interrupts and links its entry. -/
  | link (thread : UInt64)
  /-- `cancelWait(id)` disables interrupts and unlinks the entry of a sleeping thread. -/
  | cancel (id : UInt64)
  /-- The timer interrupt is delivered; `hpet` unlinks the first entry equal to the comparator. -/
  | deliver
  /-- `updateTimer` reads the counter. -/
  | read
  /-- `updateTimer` stores the comparator. -/
  | write
  /-- `sti` or `iretq`. -/
  | leave
  deriving DecidableEq

/-- Nobody sleeps yet. -/
def State.Booted (s : State) : Prop := s.phase = .enabled ∧ s.computed = [] ∧ s.sleeping = []

section

variable (femtosecondsPerTick : UInt64) (idOf : UInt64 → UInt64)

/-- The entries `cancelWait(id)` looks for. -/
def hasId (id : UInt64) (e : Sleeper) : Bool := idOf e.thread = id

/-- The entries `hpet` looks for. -/
def due (comparator : UInt64) (e : Sleeper) : Bool := e.entry.time = comparator

/-- One step; `idOf` is `thread->id`. -/
def step (s : State) : Event → Option State
  | .tick =>
    some { s with
      now := s.now + 1
      pending := s.pending || s.comparator = UInt64.ofNat (s.now + 1) }
  | .compute thread femtoseconds =>
    if s.phase = .enabled ∧ ∀ e ∈ s.computed ++ s.sleeping, e.thread ≠ thread then
      some { s with
        computed := s.computed ++
          [⟨s.now + (femtoseconds / femtosecondsPerTick).toNat, thread⟩] }
    else none
  | .link thread =>
    match s.computed.find? (·.thread = thread) with
    | none => none
    | some e =>
      if s.phase = .enabled then
        some { s with
          phase := .updating
          computed := s.computed.eraseP (·.thread = thread)
          sleeping := s.sleeping ++ [e] }
      else none
  | .cancel id =>
    if s.phase = .enabled ∧ s.sleeping.any (hasId idOf id) then
      some { s with phase := .updating, sleeping := s.sleeping.eraseP (hasId idOf id) }
    else none
  | .deliver =>
    if s.phase = .enabled ∧ s.pending then
      if s.sleeping.any (due s.comparator) then
        some { s with
          pending := false
          phase := .updating
          sleeping := s.sleeping.eraseP (due s.comparator) }
      else some { s with pending := false, phase := .leaving }
    else none
  | .read => if s.phase = .updating then some { s with phase := .writing s.now } else none
  | .write =>
    match s.phase with
    | .writing readAt =>
      some { s with
        phase := .leaving
        comparator := Hpet.comparatorFor (UInt64.ofNat readAt) (s.sleeping.map Sleeper.entry)
          s.comparator }
    | _ => none
  | .leave => if s.phase = .leaving then some { s with phase := .enabled } else none

/-- The step does not miss a deadline.

* A thread links its entry before its deadline, unless the interrupt is pending anyway.
* A tick during a critical section, before the comparator is stored, reaches no listed deadline,
  unless the interrupt is or becomes pending.
* The interrupt finds no second entry whose deadline has been reached. -/
def Timely (s : State) : Event → Prop
  | .link thread => s.pending = true ∨ ∀ e ∈ s.computed, e.thread = thread → s.now < e.deadline
  | .tick =>
    s.phase = .enabled ∨ s.phase = .leaving ∨ s.pending = true ∨
      s.comparator = UInt64.ofNat (s.now + 1) ∨ ∀ e ∈ s.sleeping, e.deadline ≠ s.now + 1
  | .deliver => ∀ e ∈ s.sleeping.eraseP (due s.comparator), s.now < e.deadline
  | _ => True

end

instance decidableTimely : ∀ s e, Decidable (Timely s e)
  | s, .link thread => inferInstanceAs (Decidable
      (s.pending = true ∨ ∀ e ∈ s.computed, e.thread = thread → s.now < e.deadline))
  | s, .tick => inferInstanceAs (Decidable
      (s.phase = .enabled ∨ s.phase = .leaving ∨ s.pending = true ∨
        s.comparator = UInt64.ofNat (s.now + 1) ∨ ∀ e ∈ s.sleeping, e.deadline ≠ s.now + 1))
  | s, .deliver => inferInstanceAs (Decidable
      (∀ e ∈ s.sleeping.eraseP (due s.comparator), s.now < e.deadline))
  | _, .compute .. | _, .cancel _ | _, .read | _, .write | _, .leave => isTrue trivial

variable {femtosecondsPerTick : UInt64} {idOf : UInt64 → UInt64} {s t : State}

/-- The branches of `step`, each with its guard. -/
inductive Stepped (femtosecondsPerTick : UInt64) (idOf : UInt64 → UInt64) (s : State) :
    Event → State → Prop
  | tick : Stepped femtosecondsPerTick idOf s .tick
      { s with
        now := s.now + 1
        pending := s.pending || s.comparator = UInt64.ofNat (s.now + 1) }
  | compute {thread femtoseconds : UInt64} (hphase : s.phase = .enabled)
      (hfree : ∀ e ∈ s.computed ++ s.sleeping, e.thread ≠ thread) :
      Stepped femtosecondsPerTick idOf s (.compute thread femtoseconds)
        { s with
          computed := s.computed ++
            [⟨s.now + (femtoseconds / femtosecondsPerTick).toNat, thread⟩] }
  | link {thread : UInt64} {e : Sleeper} (hphase : s.phase = .enabled)
      (hfind : s.computed.find? (·.thread = thread) = some e) :
      Stepped femtosecondsPerTick idOf s (.link thread)
        { s with
          phase := .updating
          computed := s.computed.eraseP (·.thread = thread)
          sleeping := s.sleeping ++ [e] }
  | cancel {id : UInt64} (hphase : s.phase = .enabled) (hany : s.sleeping.any (hasId idOf id)) :
      Stepped femtosecondsPerTick idOf s (.cancel id)
        { s with phase := .updating, sleeping := s.sleeping.eraseP (hasId idOf id) }
  | deliver (hphase : s.phase = .enabled) (hpending : s.pending)
      (hdue : s.sleeping.any (due s.comparator)) :
      Stepped femtosecondsPerTick idOf s .deliver
        { s with
          pending := false
          phase := .updating
          sleeping := s.sleeping.eraseP (due s.comparator) }
  | absent (hphase : s.phase = .enabled) (hpending : s.pending)
      (hdue : ¬ s.sleeping.any (due s.comparator)) :
      Stepped femtosecondsPerTick idOf s .deliver { s with pending := false, phase := .leaving }
  | read (hphase : s.phase = .updating) :
      Stepped femtosecondsPerTick idOf s .read { s with phase := .writing s.now }
  | write {readAt : ℕ} (hphase : s.phase = .writing readAt) :
      Stepped femtosecondsPerTick idOf s .write
        { s with
          phase := .leaving
          comparator := Hpet.comparatorFor (UInt64.ofNat readAt) (s.sleeping.map Sleeper.entry)
            s.comparator }
  | leave (hphase : s.phase = .leaving) :
      Stepped femtosecondsPerTick idOf s .leave { s with phase := .enabled }

theorem step_stepped {e : Event} (h : step femtosecondsPerTick idOf s e = some t) :
    Stepped femtosecondsPerTick idOf s e t := by
  cases e with
  | tick =>
    simp only [step, Option.some.injEq] at h
    exact h ▸ .tick
  | compute thread femtoseconds =>
    simp only [step] at h
    split_ifs at h with hguard
    exact Option.some.inj h ▸ .compute hguard.1 hguard.2
  | link thread =>
    simp only [step] at h
    split at h
    · cases h
    rename_i e hfind
    split_ifs at h with hphase
    exact Option.some.inj h ▸ .link hphase hfind
  | cancel id =>
    simp only [step] at h
    split_ifs at h with hguard
    exact Option.some.inj h ▸ .cancel hguard.1 hguard.2
  | deliver =>
    simp only [step] at h
    split_ifs at h with hguard hdue
    · exact Option.some.inj h ▸ .deliver hguard.1 hguard.2 hdue
    · exact Option.some.inj h ▸ .absent hguard.1 hguard.2 hdue
  | read =>
    simp only [step] at h
    split_ifs at h with hphase
    exact Option.some.inj h ▸ .read hphase
  | write =>
    simp only [step] at h
    split at h
    · rename_i readAt hphase
      exact Option.some.inj h ▸ .write hphase
    · cases h
  | leave =>
    simp only [step] at h
    split_ifs at h with hphase
    exact Option.some.inj h ▸ .leave hphase

/-! ### The functions over the ring -/

/-- The ring, the entries and the comparator in memory are those of the machine. -/
structure Represents (h : Hpet) (s : State) : Prop where
  entries : ∃ xs, IsRing h.links h.sleepingList xs ∧ xs.map h.entry = s.sleeping.map Sleeper.entry
  comparator : h.comparator = s.comparator

/-- What follows the change of the list in a critical section: `i` ticks until the counter is read,
`j` ticks until the comparator is stored. -/
def update (i j : ℕ) : List Event :=
  List.replicate i .tick ++ .read :: List.replicate j .tick ++ [.write]

theorem run_ticks (femtosecondsPerTick : UInt64) (idOf : UInt64 → UInt64) (n : ℕ) (s : State) :
    ∃ pending, Trace.run (step femtosecondsPerTick idOf) s (List.replicate n .tick) =
      some { s with now := s.now + n, pending := pending } := by
  induction n generalizing s with
  | zero => exact ⟨s.pending, rfl⟩
  | succ n ih =>
    obtain ⟨pending, h⟩ := ih { s with
      now := s.now + 1, pending := s.pending || s.comparator = UInt64.ofNat (s.now + 1) }
    refine ⟨pending, ?_⟩
    rw [List.replicate_succ, Trace.run_cons, step, Option.bind_some, h]
    simp only [Nat.add_assoc, Nat.add_comm 1 n]

/-- The rest of a critical section sets the comparator, for the counter as it was read. -/
theorem run_update {u : State} {i j : ℕ} (hphase : u.phase = .updating)
    (hrun : Trace.run (step femtosecondsPerTick idOf) u (update i j) = some t) :
    t.sleeping = u.sleeping ∧
      t.comparator = Hpet.comparatorFor (UInt64.ofNat (u.now + i)) (u.sleeping.map Sleeper.entry)
        u.comparator := by
  obtain ⟨p, hi⟩ := run_ticks femtosecondsPerTick idOf i u
  obtain ⟨q, hj⟩ := run_ticks femtosecondsPerTick idOf j
    { u with now := u.now + i, pending := p, phase := .writing (u.now + i) }
  rw [update, List.append_assoc, Trace.run_append, hi, Option.bind_some, List.cons_append,
    Trace.run_cons, step, if_pos hphase, Option.bind_some, Trace.run_append, hj, Option.bind_some,
    Trace.run_cons, step, Option.bind_some, Trace.run_nil, Option.some.injEq] at hrun
  subst hrun
  exact ⟨rfl, rfl⟩

/-- Where some sleeper has a property of its entry, the ring has a first element with it. -/
theorem exists_split {h : Hpet} {xs : List UInt64} {sleeping : List Sleeper}
    {q : SleepingEntry → Bool} (hmap : xs.map h.entry = sleeping.map Sleeper.entry)
    (hany : sleeping.any (fun e => q e.entry) = true) :
    ∃ ys a zs, xs = ys ++ a :: zs ∧ (∀ y ∈ ys, q (h.entry y) = false) ∧ q (h.entry a) = true ∧
      (ys ++ zs).map h.entry = (sleeping.eraseP fun e => q e.entry).map Sleeper.entry := by
  obtain ⟨e, he, hq⟩ := List.any_eq_true.1 hany
  obtain ⟨b, l₁, l₂, hl₁, hb, rfl, herase⟩ :=
    List.exists_of_eraseP (p := fun e : Sleeper => q e.entry) he hq
  rw [List.map_append, List.map_cons, List.map_eq_append_iff] at hmap
  obtain ⟨ys, as, rfl, hys, has⟩ := hmap
  obtain ⟨a, zs, rfl, ha, hzs⟩ := List.map_eq_cons_iff.1 has
  refine ⟨ys, a, zs, rfl, fun y hy => ?_, ha ▸ hb, ?_⟩
  · obtain ⟨x, hx, hxy⟩ := List.mem_map.1 (hys ▸ List.mem_map_of_mem hy)
    rw [← hxy]
    exact Bool.eq_false_iff.2 (hl₁ x hx)
  · rw [herase, List.map_append, List.map_append, hys, hzs]

/-- `hpet()` takes the steps of a delivered interrupt. -/
theorem hpet_refines {h : Hpet} {i j : ℕ} (hrep : Represents h s)
    (hrun : Trace.run (step femtosecondsPerTick idOf) s (.deliver :: update i j) = some t) :
    ∃ fuel h', h.hpet fuel (UInt64.ofNat (s.now + i)) = some h' ∧ Represents h' t := by
  obtain ⟨⟨xs, hring, hmap⟩, hcomp⟩ := hrep
  rw [Trace.run_cons, step] at hrun
  split_ifs at hrun with hphase hdue
  · rw [Option.bind_some] at hrun
    obtain ⟨hsleeping, hcomp'⟩ := run_update rfl hrun
    obtain ⟨ys, a, zs, rfl, hys, ha, hrest⟩ := exists_split (q := fun e => e.time = s.comparator)
      hmap hdue
    simp only [decide_eq_false_iff_not, decide_eq_true_eq, ← hcomp] at hys ha
    refine ⟨_, _, Hpet.hpet_eq hring hys ha _, ⟨_, Hpet.isRing_wake hring, ?_⟩, ?_⟩
    · rw [hsleeping]
      exact hrest
    · rw [hcomp', hrest, hcomp]
      rfl
  · -- an interrupt that finds nothing does not read the counter
    exfalso
    obtain ⟨p, hi⟩ := run_ticks femtosecondsPerTick idOf i { s with pending := false, phase := .leaving }
    rw [Option.bind_some, update, List.append_assoc, Trace.run_append, hi, Option.bind_some,
      List.cons_append, Trace.run_cons, step, if_neg (by simp), Option.bind_none] at hrun
    cases hrun
  · rw [Option.bind_none] at hrun
    cases hrun

/-- An interrupt that finds no entry leaves the ring and the comparator alone. -/
theorem hpet_absent_refines {h : Hpet} (hrep : Represents h s) (value : UInt64)
    (hstep : step femtosecondsPerTick idOf s .deliver = some t) (hphase : t.phase = .leaving) :
    ∃ fuel, h.hpet fuel value = some h ∧ Represents h t := by
  obtain ⟨⟨xs, hring, hmap⟩, hcomp⟩ := hrep
  rw [step] at hstep
  split_ifs at hstep with henabled hdue
  · obtain rfl := Option.some.inj hstep
    cases hphase
  · obtain rfl := Option.some.inj hstep
    refine ⟨_, Hpet.hpet_absent hring (fun x hx hx' => hdue ?_) value, ⟨xs, hring, hmap⟩, hcomp⟩
    obtain ⟨e, he, heq⟩ := List.mem_map.1 (hmap ▸ List.mem_map_of_mem hx)
    refine List.any_eq_true.2 ⟨e, he, ?_⟩
    rw [due, heq, hx', hcomp, decide_eq_true rfl]

/-- `cancelWait(id)` takes the steps of a cancellation. -/
theorem cancelWait_refines {h : Hpet} {i j : ℕ} {id : UInt64} (hrep : Represents h s)
    (hid : h.id = idOf)
    (hrun : Trace.run (step femtosecondsPerTick idOf) s (.cancel id :: update i j) = some t) :
    ∃ fuel h', h.cancelWait fuel id (UInt64.ofNat (s.now + i)) = some h' ∧ Represents h' t := by
  obtain ⟨⟨xs, hring, hmap⟩, hcomp⟩ := hrep
  subst hid
  rw [Trace.run_cons, step] at hrun
  split_ifs at hrun with hphase
  · rw [Option.bind_some] at hrun
    obtain ⟨hsleeping, hcomp'⟩ := run_update rfl hrun
    obtain ⟨ys, a, zs, rfl, hys, ha, hrest⟩ := exists_split (q := fun e => h.id e.thread = id)
      hmap hphase.2
    simp only [decide_eq_false_iff_not, decide_eq_true_eq] at hys ha
    refine ⟨_, _, Hpet.cancelWait_eq hring hys ha _, ⟨_, Hpet.isRing_wake hring, ?_⟩, ?_⟩
    · rw [hsleeping]
      exact hrest
    · rw [hcomp', hrest, hcomp]
      rfl
  · rw [Option.bind_none] at hrun
    cases hrun

/-- The `time` of the entry `waitFemtoseconds` makes is its deadline. -/
theorem sleepTime_eq (femtoseconds femtosecondsPerTick : UInt64) (now : ℕ) :
    sleepTime femtoseconds femtosecondsPerTick (UInt64.ofNat now) =
      UInt64.ofNat (now + (femtoseconds / femtosecondsPerTick).toNat) := by
  rw [sleepTime, UInt64.ofNat_add, UInt64.ofNat_toNat, UInt64.add_comm]

/-- `waitFemtoseconds` takes the steps of a link, with its entry at an address `a` not in the ring. -/
theorem waitFemtoseconds_refines {h : Hpet} {i j : ℕ} {thread a : UInt64} (hrep : Represents h s)
    (ha : a ≠ h.sleepingList ∧ ∀ xs, IsRing h.links h.sleepingList xs → a ∉ xs)
    (hrun : Trace.run (step femtosecondsPerTick idOf) s (.link thread :: update i j) = some t) :
    ∃ fuel, ∃ e ∈ s.computed, ∃ h', e.thread = thread ∧
      h.waitFemtoseconds fuel a e.entry (UInt64.ofNat (s.now + i)) = some h' ∧ Represents h' t := by
  obtain ⟨⟨xs, hring, hmap⟩, hcomp⟩ := hrep
  have hxs : a ∉ h.sleepingList :: xs := by
    rw [List.mem_cons, not_or]
    exact ⟨ha.1, ha.2 xs hring⟩
  rw [Trace.run_cons, step] at hrun
  cases hfind : s.computed.find? fun e => e.thread = thread with
  | none => rw [hfind, Option.bind_none] at hrun; cases hrun
  | some e =>
    rw [hfind] at hrun
    simp only at hrun
    split_ifs at hrun with hphase
    · rw [Option.bind_some] at hrun
      obtain ⟨hsleeping, hcomp'⟩ := run_update rfl hrun
      have hmap' : xs.map h.entry ++ [e.entry] = (s.sleeping ++ [e]).map Sleeper.entry := by
        rw [List.map_append, hmap, List.map_singleton]
      refine ⟨_, e, List.mem_of_find?_eq_some hfind, _, by simpa using List.find?_some hfind,
        Hpet.waitFemtoseconds_eq hring hxs e.entry _, ⟨_, Hpet.isRing_sleep hring hxs e.entry, ?_⟩, ?_⟩
      · rw [hsleeping, ← hmap']
        exact Hpet.map_sleep_entry (fun hx => hxs (List.mem_cons_of_mem _ hx)) e.entry
      · rw [hcomp', hmap', hcomp]
    · rw [Option.bind_none] at hrun
      cases hrun

/-! ### The invariant -/

/-- No step puts a deadline a whole turn of the counter ahead. -/
theorem near_step (h : ∀ e ∈ s.computed ++ s.sleeping, e.deadline < s.now + 2 ^ 64) {e : Event}
    (hstep : step femtosecondsPerTick idOf s e = some t) :
    ∀ e ∈ t.computed ++ t.sleeping, e.deadline < t.now + 2 ^ 64 := by
  have herase : ∀ p : Sleeper → Bool, ∀ e ∈ s.computed ++ s.sleeping.eraseP p,
      e.deadline < s.now + 2 ^ 64 := by
    intro p e he
    rcases List.mem_append.1 he with he | he
    · exact h e (List.mem_append_left _ he)
    · exact h e (List.mem_append_right _ (List.mem_of_mem_eraseP he))
  cases step_stepped hstep with
  | tick => exact fun e he => (h e he).trans_le (by simp only; omega)
  | @compute thread femtoseconds hphase hfree =>
    intro e he
    simp only [List.mem_append, List.mem_singleton] at he
    rcases he with (he | rfl) | he
    · exact h e (List.mem_append_left _ he)
    · -- a new deadline is a 64-bit number of ticks after the counter
      have hlt := (femtoseconds / femtosecondsPerTick).toNat_lt
      simp only
      omega
    · exact h e (List.mem_append_right _ he)
  | link hphase hfind =>
    intro x hx
    refine h x ?_
    simp only [List.mem_append, List.mem_singleton] at hx ⊢
    rcases hx with hx | hx | rfl
    · exact Or.inl (List.mem_of_mem_eraseP hx)
    · exact Or.inr hx
    · exact Or.inl (List.mem_of_find?_eq_some hfind)
  | cancel => exact herase _
  | deliver => exact herase _
  | absent => exact h
  | read => exact h
  | write => exact h
  | leave => exact h

/-- What holds between the steps of a run that misses no deadline. -/
structure Inv (s : State) : Prop where
  /-- No entry's deadline is a whole turn of the counter ahead. -/
  near : ∀ e ∈ s.computed ++ s.sleeping, e.deadline < s.now + 2 ^ 64
  readAt : ∀ v, s.phase = .writing v → v ≤ s.now ∧ ∀ e ∈ s.sleeping, e.deadline < v + 2 ^ 64
  /-- A deadline that has been reached has a pending interrupt. -/
  caught : s.pending = true ∨ ∀ e ∈ s.sleeping, s.now < e.deadline
  /-- Outside the critical sections the comparator is set for an entry, and for the earliest one
  unless the interrupt is pending. -/
  armed : s.phase = .enabled ∨ s.phase = .leaving → s.sleeping ≠ [] →
    ∃ e ∈ s.sleeping, s.comparator = UInt64.ofNat e.deadline ∧
      (s.pending = true ∨ ∀ e' ∈ s.sleeping, e.deadline ≤ e'.deadline)

theorem inv_booted (h : s.Booted) : Inv s := by
  obtain ⟨hphase, hcomputed, hsleeping⟩ := h
  constructor
  · simp [hcomputed, hsleeping]
  · intro v hv
    rw [hphase] at hv
    cases hv
  · simp [hsleeping]
  · exact fun _ hne => absurd hsleeping hne

/-- The distance of a deadline that lies ahead of the counter. -/
theorem distance_eq {deadline v : ℕ} (hle : v ≤ deadline) (hlt : deadline < v + 2 ^ 64) :
    (UInt64.ofNat deadline - UInt64.ofNat v).toNat = deadline - v := by
  rw [UInt64.toNat_sub, UInt64.toNat_ofNat', UInt64.toNat_ofNat']
  omega

/-- The comparator is set for one of the entries. -/
theorem exists_comparatorFor (value comparator : UInt64) {entries : List SleepingEntry}
    (hne : entries ≠ []) :
    ∃ e ∈ entries, Hpet.comparatorFor value entries comparator = e.time ∧
      ∀ e' ∈ entries, (e.time - value).toNat ≤ (e'.time - value).toNat := by
  rw [Hpet.comparatorFor]
  cases hsoonest : Hpet.soonest value entries with
  | none => exact absurd (List.argmin_eq_none.1 hsoonest) hne
  | some e =>
    exact ⟨e, List.argmin_mem hsoonest, rfl, fun e' he' =>
      List.le_of_mem_argmin (f := fun e : SleepingEntry => (e.time - value).toNat) he' hsoonest⟩

/-- Storing the comparator arms the timer for an entry, and for the earliest one if all deadlines lie
ahead. -/
theorem armed_write {readAt now : ℕ} (hread : readAt ≤ now) {sleeping : List Sleeper}
    (hnear : ∀ e ∈ sleeping, e.deadline < readAt + 2 ^ 64) (hne : sleeping ≠ [])
    (comparator : UInt64) :
    ∃ e ∈ sleeping, Hpet.comparatorFor (UInt64.ofNat readAt) (sleeping.map Sleeper.entry) comparator =
        UInt64.ofNat e.deadline ∧
      ((∀ e' ∈ sleeping, now < e'.deadline) → ∀ e' ∈ sleeping, e.deadline ≤ e'.deadline) := by
  obtain ⟨x, hx, htime, hleast⟩ := exists_comparatorFor (UInt64.ofNat readAt) comparator
    (by simpa using hne : sleeping.map Sleeper.entry ≠ [])
  obtain ⟨e, he, rfl⟩ := List.mem_map.1 hx
  refine ⟨e, he, htime, fun hahead e' he' => ?_⟩
  have hle := hleast _ (List.mem_map_of_mem he')
  have h1 := hahead e he
  have h2 := hahead e' he'
  simp only [Sleeper.entry] at hle
  rw [distance_eq (by omega) (hnear e he), distance_eq (by omega) (hnear e' he')] at hle
  omega

theorem inv_tick (h : Inv s) (hC : Timely s .tick)
    (hstep : step femtosecondsPerTick idOf s .tick = some t) : Inv t := by
  have hnear := near_step h.near hstep
  cases step_stepped hstep
  refine ⟨hnear, ?_, ?_, ?_⟩
  · intro v hv
    obtain ⟨hle, hlt⟩ := h.readAt v hv
    exact ⟨Nat.le_succ_of_le hle, hlt⟩
  · -- a deadline reached by this tick is the comparator's
    by_cases hmatch : s.pending = true ∨ s.comparator = UInt64.ofNat (s.now + 1)
    · exact Or.inl (by simpa using hmatch)
    rw [not_or] at hmatch
    have hahead := h.caught.resolve_left hmatch.1
    -- while the comparator is set for the earliest entry, a deadline cannot be passed over
    have hopen : s.phase = .enabled ∨ s.phase = .leaving → ∀ e ∈ s.sleeping,
        e.deadline ≠ s.now + 1 := by
      intro hphase e he heq
      obtain ⟨e₀, he₀, hcomp, hearliest⟩ := h.armed hphase (List.ne_nil_of_mem he)
      have hle := hearliest.resolve_left hmatch.1 e he
      have hlt := hahead e₀ he₀
      exact hmatch.2 (by rw [hcomp]; congr 1; omega)
    have hnone : ∀ e ∈ s.sleeping, e.deadline ≠ s.now + 1 := by
      rcases hC with hphase | hphase | hpending | hcomp | hnone
      · exact hopen (Or.inl hphase)
      · exact hopen (Or.inr hphase)
      · exact absurd hpending hmatch.1
      · exact absurd hcomp hmatch.2
      · exact hnone
    refine Or.inr fun e he => ?_
    have hlt := hahead e he
    have hne := hnone e he
    simp only
    omega
  · intro hphase hne
    obtain ⟨e, he, hcomp, hearliest⟩ := h.armed hphase hne
    refine ⟨e, he, hcomp, hearliest.imp_left fun hp => by simp [hp]⟩

theorem inv_link (h : Inv s) {thread : UInt64} (hC : Timely s (.link thread))
    (hstep : step femtosecondsPerTick idOf s (.link thread) = some t) : Inv t := by
  have hnear := near_step h.near hstep
  cases step_stepped hstep with | @link _ e hphase hfind =>
  have he := List.mem_of_find?_eq_some hfind
  have hthread : e.thread = thread := by simpa using List.find?_some hfind
  refine ⟨hnear, ?_, ?_, ?_⟩
  · intro v hv
    cases hv
  · rcases h.caught with hpending | hahead
    · exact Or.inl hpending
    refine hC.imp_right fun hlt x hx => ?_
    rcases List.mem_append.1 hx with hx | hx
    · exact hahead x hx
    · rw [List.mem_singleton.1 hx]
      exact hlt e he hthread
  · rintro (hp | hp) <;> cases hp

/-- An entry is unlinked in a critical section, for `cancelWait` or for the interrupt. -/
theorem inv_erase {p : Sleeper → Bool} {pending : Bool}
    (hnear : ∀ e ∈ s.computed ++ s.sleeping.eraseP p, e.deadline < s.now + 2 ^ 64)
    (hcaught : pending = true ∨ ∀ e ∈ s.sleeping.eraseP p, s.now < e.deadline) :
    Inv { s with phase := .updating, pending := pending, sleeping := s.sleeping.eraseP p } := by
  refine ⟨hnear, ?_, ?_, ?_⟩
  · intro v hv
    cases hv
  · exact hcaught
  · rintro (hp | hp) <;> cases hp

theorem inv_deliver (h : Inv s) (hC : Timely s .deliver)
    (hstep : step femtosecondsPerTick idOf s .deliver = some t) : Inv t := by
  have hnear := near_step h.near hstep
  cases step_stepped hstep with
  | deliver => exact inv_erase hnear (Or.inr hC)
  | absent hphase hpending hdue =>
    -- outside the critical sections the comparator is set for an entry, so there is none
    have hnil : s.sleeping = [] := by
      by_contra hne
      obtain ⟨e, he, hcomp, -⟩ := h.armed (Or.inl hphase) hne
      refine hdue (List.any_eq_true.2 ⟨e, he, ?_⟩)
      simp [due, Sleeper.entry, hcomp]
    constructor
    · exact h.near
    · intro v hv
      cases hv
    · exact Or.inr (by simp [hnil])
    · exact fun _ hne => absurd hnil hne

theorem inv_step (h : Inv s) {e : Event} (hC : Timely s e)
    (hstep : step femtosecondsPerTick idOf s e = some t) : Inv t := by
  have hnear := near_step h.near hstep
  cases step_stepped hstep with
  | tick => exact inv_tick h hC hstep
  | link => exact inv_link h hC hstep
  | deliver | absent => exact inv_deliver h hC hstep
  | compute => exact ⟨hnear, h.readAt, h.caught, h.armed⟩
  | cancel =>
    exact inv_erase hnear (h.caught.imp_right fun hahead e he => hahead e (List.mem_of_mem_eraseP he))
  | read =>
    refine ⟨h.near, fun v hv => ?_, h.caught, ?_⟩
    · cases hv
      exact ⟨le_rfl, fun e he => h.near e (List.mem_append_right _ he)⟩
    · rintro (hp | hp) <;> cases hp
  | @write readAt hphase =>
    obtain ⟨hle, hlt⟩ := h.readAt readAt hphase
    refine ⟨h.near, fun v hv => ?_, h.caught, fun _ hne => ?_⟩
    · cases hv
    -- the distances were taken from the counter as it was read, which is behind by now
    obtain ⟨e, he, hcomp, hearliest⟩ := armed_write hle hlt hne s.comparator
    exact ⟨e, he, hcomp, h.caught.imp_right hearliest⟩
  | leave hphase =>
    refine ⟨h.near, fun v hv => ?_, h.caught, fun _ => h.armed (Or.inr hphase)⟩
    cases hv

/-- **No missed deadline.** In a run whose steps are timely, whenever no interrupt is pending every
listed deadline lies ahead of the counter; interrupts need not be enabled. -/
theorem no_missed_deadline {events : List Event} (hboot : s.Booted)
    (hC : Trace.Along (step femtosecondsPerTick idOf) Timely s events)
    (hrun : Trace.run (step femtosecondsPerTick idOf) s events = some t)
    (hpending : t.pending = false) :
    ∀ e ∈ t.sleeping, t.now < e.deadline := by
  have hinv : Inv t := Trace.run_invariant_along (fun s e s' hs hC hstep => inv_step hs hC hstep)
    (inv_booted hboot) hC hrun
  exact hinv.caught.resolve_left (by simp [hpending])

/-- Nobody sleeps and the counter is at 5. -/
def atFive : State := ⟨5, 0, false, .enabled, [], []⟩

/-- Two threads go to sleep, for two and for five ticks, and the first is woken. -/
def twoSleeps : List Event :=
  [.compute 1 200, .link 1, .read, .write, .leave, .compute 2 500, .link 2, .read, .write, .leave,
    .tick, .tick, .deliver, .read, .write, .leave]

theorem no_missed_deadline_twoSleeps :
    ∃ t, Trace.run (step 100 id) atFive twoSleeps = some t ∧
      t.sleeping = [⟨10, 2⟩] ∧ ∀ e ∈ t.sleeping, t.now < e.deadline := by
  have hC : Trace.Along (step 100 id) Timely atFive twoSleeps := by decide
  have hrun : Trace.run (step 100 id) atFive twoSleeps =
      some ⟨7, 10, false, .enabled, [], [⟨10, 2⟩]⟩ := by decide
  exact ⟨_, hrun, rfl, no_missed_deadline ⟨rfl, rfl, rfl⟩ hC hrun rfl⟩

/-- A thread that is to sleep for one tick is preempted for two ticks before it disables interrupts.
Its deadline is never noticed: the comparator is stored behind the counter. -/
theorem preempted_sleeper_missed :
    ∃ t, Trace.run (step 100 id) atFive
        [.compute 1 100, .tick, .tick, .link 1, .read, .write, .leave] = some t ∧
      t.phase = .enabled ∧ t.pending = false ∧ ∃ e ∈ t.sleeping, e.deadline < t.now :=
  ⟨⟨7, 6, false, .enabled, [], [⟨6, 1⟩]⟩, by decide, rfl, rfl, ⟨6, 1⟩, by simp, by decide⟩

end Sleepers

end Naul
