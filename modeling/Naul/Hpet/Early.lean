import Naul.Hpet.Deadlines
import Mathlib.Data.List.Find

/-!
# Interrupts that come early

The handler does not know which deadline raised the interrupt: it wakes the first entry equal to the
comparator as it reads it. Between the match and the delivery a thread with interrupts disabled may
have stored another comparator, and then the entry found is not the one that was due.

`Settled` is the condition that excludes this: while an interrupt is pending, the comparator is only
pointed at a deadline that has been reached. Under it no wake is early
(`interrupt_never_early`), and a store that breaks it is followed by an early wake as soon as
interrupts are enabled (`unsettled_wakes_early`).
-/

namespace Naul
namespace Sleepers

variable {femtosecondsPerTick : UInt64} {idOf : UInt64 → UInt64} {s t u : State}

/-- The entry `hpet` wakes. -/
def State.woken (s : State) : Option Sleeper := s.sleeping.find? (due s.comparator)

/-- No listed deadline comes sooner after the counter value `value`. -/
def soonest (value : UInt64) (sleeping : List Sleeper) (e : Sleeper) : Bool :=
  sleeping.all fun e' => e.entry.time - value ≤ e'.entry.time - value

/-- The first entry that is soonest after the counter value that was read has been reached. -/
def Reached (s : State) : Prop :=
  match s.phase with
  | .writing readAt =>
    ∀ e ∈ s.sleeping.find? (soonest (UInt64.ofNat readAt) s.sleeping), e.deadline ≤ s.now
  | _ => True

/-- While an interrupt is pending, the comparator is stored only for a deadline that has been
reached. -/
def Settled (s : State) : Event → Prop
  | .write => s.pending = true → Reached s
  | _ => True

instance decidableReached (s : State) : Decidable (Reached s) :=
  match h : s.phase with
  | .writing readAt => decidable_of_iff (∀ e ∈ s.sleeping.find?
      (soonest (UInt64.ofNat readAt) s.sleeping), e.deadline ≤ s.now) (by rw [Reached, h])
  | .enabled | .updating | .leaving => isTrue (by rw [Reached, h]; trivial)

instance decidableSettled : ∀ s e, Decidable (Settled s e)
  | s, .write => inferInstanceAs (Decidable (s.pending = true → Reached s))
  | _, .tick | _, .compute .. | _, .link _ | _, .cancel _ | _, .deliver | _, .read | _, .leave =>
    isTrue trivial

/-! ### The comparator -/

/-- The comparator `updateTimer` stores equals exactly the entries that are soonest. -/
theorem due_comparatorFor (value comparator : UInt64) {sleeping : List Sleeper} {e : Sleeper}
    (he : e ∈ sleeping) :
    due (Hpet.comparatorFor value (sleeping.map Sleeper.entry) comparator) e =
      soonest value sleeping e := by
  have hne : sleeping.map Sleeper.entry ≠ [] :=
    fun hnil => List.ne_nil_of_mem he (List.map_eq_nil_iff.1 hnil)
  obtain ⟨x, hx, htime, hleast⟩ := exists_comparatorFor value comparator hne
  obtain ⟨e₀, he₀, rfl⟩ := List.mem_map.1 hx
  rw [due, htime, soonest, Bool.eq_iff_iff, decide_eq_true_iff, List.all_eq_true]
  constructor
  · intro heq e' he'
    rw [decide_eq_true_iff, heq, UInt64.le_iff_toNat_le]
    exact hleast _ (List.mem_map_of_mem he')
  · intro hall
    have h1 := UInt64.le_iff_toNat_le.1 (of_decide_eq_true (hall e₀ he₀))
    have h2 := hleast _ (List.mem_map_of_mem he)
    have heq : e.entry.time - value = e₀.entry.time - value :=
      UInt64.toNat_inj.1 (le_antisymm h1 h2)
    exact (UInt64.sub_left_inj value).1 heq

/-- After the store the interrupt would wake the first entry that is soonest. -/
theorem find?_comparatorFor (value comparator : UInt64) (sleeping : List Sleeper) :
    sleeping.find? (due (Hpet.comparatorFor value (sleeping.map Sleeper.entry) comparator)) =
      sleeping.find? (soonest value sleeping) :=
  List.find?_congr fun _ he => due_comparatorFor value comparator he

/-! ### The invariant -/

/-- What holds between the steps of a run in which no wake is early. -/
structure Punctual (s : State) : Prop where
  /-- No entry's deadline is a whole turn of the counter ahead. -/
  near : ∀ e ∈ s.computed ++ s.sleeping, e.deadline < s.now + 2 ^ 64
  /-- Outside the critical sections, the entry a pending interrupt would wake has been reached. -/
  reached : s.phase = .enabled ∨ s.phase = .leaving → s.pending = true →
    ∀ e, s.woken = some e → e.deadline ≤ s.now

theorem punctual_booted (h : s.Booted) : Punctual s where
  near := (inv_booted h).near
  reached := by
    intro _ _ e he
    simp [State.woken, h.2.2] at he

/-- An entry equal to the counter has been reached. -/
theorem reached_of_match {now : ℕ} {e : Sleeper} (hnear : e.deadline < now + 2 ^ 64)
    (heq : e.entry.time = UInt64.ofNat now) : e.deadline ≤ now := by
  have h := congrArg UInt64.toNat heq
  rw [Sleeper.entry, UInt64.toNat_ofNat', UInt64.toNat_ofNat'] at h
  omega

theorem woken_spec {e : Sleeper} (h : s.woken = some e) :
    e ∈ s.sleeping ∧ e.entry.time = s.comparator :=
  ⟨List.mem_of_find?_eq_some h, by simpa [due] using List.find?_some h⟩

theorem punctual_step (h : Punctual s) {e : Event} (hC : Settled s e)
    (hstep : step femtosecondsPerTick idOf s e = some t) : Punctual t := by
  refine ⟨near_step h.near hstep, ?_⟩
  have hnear := near_step h.near hstep
  cases step_stepped hstep with
  | tick =>
    intro hphase hpending e he
    simp only [Bool.or_eq_true, decide_eq_true_eq] at hpending
    rcases hpending with hpending | hmatch
    · exact Nat.le_succ_of_le (h.reached hphase hpending e he)
    · -- the interrupt was raised by this tick
      obtain ⟨hmem, htime⟩ := woken_spec he
      exact reached_of_match (hnear e (List.mem_append_right _ hmem)) (htime.trans hmatch)
  | compute => exact h.reached
  | link | cancel | deliver | read => rintro (hp | hp) <;> cases hp
  | absent =>
    intro _ hpending
    cases hpending
  | write hphase =>
    intro _ hpending e he
    -- an interrupt is pending while the comparator is set anew: the entry it will wake has to be due
    have hreached := hC hpending
    rw [Reached, hphase] at hreached
    rw [State.woken, find?_comparatorFor] at he
    exact hreached e he
  | leave hphase => exact fun _ => h.reached (Or.inr hphase)

/-! ### Results -/

/-- What a delivered interrupt does to the list. -/
theorem deliver_unlinks (hstep : step femtosecondsPerTick idOf s .deliver = some t) :
    (s.woken = none ∧ t.sleeping = s.sleeping) ∨
      ∃ e, s.woken = some e ∧ t.sleeping = s.sleeping.eraseP (due s.comparator) := by
  cases step_stepped hstep with
  | deliver hphase hpending hdue =>
    obtain ⟨e, he⟩ := Option.isSome_iff_exists.1 (List.find?_isSome.2 (List.any_eq_true.1 hdue))
    exact .inr ⟨e, he, rfl⟩
  | absent hphase hpending hdue =>
    refine .inl ⟨List.find?_eq_none.2 fun e he hp => hdue ?_, rfl⟩
    exact List.any_eq_true.2 ⟨e, he, hp⟩

/-- **No early wake.** In a run whose steps are settled, a timer interrupt that unlinks an entry and
wakes its thread finds the counter at or past the entry's deadline. -/
theorem interrupt_never_early {events : List Event} (hboot : s.Booted)
    (hC : Trace.Along (step femtosecondsPerTick idOf) Settled s events)
    (hrun : Trace.run (step femtosecondsPerTick idOf) s events = some t)
    (hdeliver : step femtosecondsPerTick idOf t .deliver = some u) :
    (t.woken = none ∧ u.sleeping = t.sleeping) ∨
      ∃ e, t.woken = some e ∧ u.sleeping = t.sleeping.eraseP (due t.comparator) ∧
        e.deadline ≤ t.now := by
  have hinv : Punctual t :=
    Trace.run_invariant_along (fun s e s' hs hC hstep => punctual_step hs hC hstep)
      (punctual_booted hboot) hC hrun
  have hphase : t.phase = .enabled ∧ t.pending = true := by
    cases step_stepped hdeliver with
    | deliver hphase hpending => exact ⟨hphase, hpending⟩
    | absent hphase hpending => exact ⟨hphase, hpending⟩
  refine (deliver_unlinks hdeliver).imp_right ?_
  rintro ⟨e, he, herase⟩
  exact ⟨e, he, herase, hinv.reached (.inl hphase.1) hphase.2 e he⟩

/-- The condition is exact: a store that is not settled is followed by an early wake. -/
theorem unsettled_wakes_early {readAt : ℕ} (hphase : s.phase = .writing readAt)
    (hC : ¬ Settled s .write) :
    ∃ t u e, Trace.run (step femtosecondsPerTick idOf) s [.write, .leave] = some t ∧
      step femtosecondsPerTick idOf t .deliver = some u ∧ t.woken = some e ∧
      t.now < e.deadline := by
  rw [Settled, Classical.not_imp, Reached, hphase] at hC
  obtain ⟨hpending, hC⟩ := hC
  push Not at hC
  obtain ⟨e, he, hlt⟩ := hC
  let comparator := Hpet.comparatorFor (UInt64.ofNat readAt) (s.sleeping.map Sleeper.entry)
    s.comparator
  have hwoken : s.sleeping.find? (due comparator) = some e :=
    (find?_comparatorFor _ _ _).trans he
  have hany : s.sleeping.any (due comparator) = true :=
    List.any_eq_true.2 (List.find?_isSome.1 (Option.isSome_of_eq_some hwoken))
  refine ⟨{ s with phase := .enabled, comparator := comparator },
    { s with
      phase := .updating
      pending := false
      comparator := comparator
      sleeping := s.sleeping.eraseP (due comparator) }, e, ?_, ?_, hwoken, hlt⟩
  · rw [Trace.run_cons, step, hphase]
    rfl
  · rw [step, if_pos ⟨rfl, hpending⟩, if_pos hany]

/-- The run of `twoSleeps` is settled, and the interrupt in it wakes the thread whose deadline it
is. -/
theorem interrupt_never_early_twoSleeps :
    ∃ t e, Trace.run (step 100 id) atFive (twoSleeps.take 12) = some t ∧ t.woken = some e ∧
      e.deadline ≤ t.now := by
  have hC : Trace.Along (step 100 id) Settled atFive (twoSleeps.take 12) := by decide
  have hrun : Trace.run (step 100 id) atFive (twoSleeps.take 12) =
      some ⟨7, 7, true, .enabled, [], [⟨7, 1⟩, ⟨10, 2⟩]⟩ := by decide
  have h := interrupt_never_early (u := ⟨7, 7, false, .updating, [], [⟨10, 2⟩]⟩) ⟨rfl, rfl, rfl⟩ hC
    hrun (by decide)
  obtain ⟨hnone, -⟩ | ⟨e, he, -, hle⟩ := h
  · cases hnone
  · exact ⟨_, e, hrun, he, hle⟩

/-- Thread 1 is to sleep until 7. The interrupt for it is raised while thread 2 goes to sleep until
10, and before the comparator is stored the counter is past 7. So the comparator is stored for thread
2, and the interrupt wakes it at 8. -/
theorem reprogrammed_wakes_early :
    ∃ t u, Trace.run (step 100 id) atFive
        [.compute 1 200, .link 1, .read, .write, .leave, .compute 2 500, .link 2, .tick, .tick, .tick,
          .read, .write, .leave] = some t ∧
      step 100 id t .deliver = some u ∧ t.woken = some ⟨10, 2⟩ ∧ u.sleeping = [⟨7, 1⟩] ∧
      t.now = 8 :=
  ⟨⟨8, 10, true, .enabled, [], [⟨7, 1⟩, ⟨10, 2⟩]⟩, ⟨8, 10, false, .updating, [], [⟨7, 1⟩]⟩, by decide,
    by decide, by decide, rfl, rfl⟩

end Sleepers
end Naul
