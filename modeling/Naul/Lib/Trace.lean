import Mathlib.Tactic

/-!
# Runs of labelled transition systems

A system is a partial function `step : σ → ε → Option σ`: an event that is not enabled in a state
has no successor. `run step s es` performs the events of `es` in order. Runs compute, so a concrete
interleaving can be evaluated; what holds of all of them comes from `run_invariant`.

`Along step C s es` says that every event of the run satisfies `C` in the state it is performed in;
`run_invariant_along` is the invariant rule for such runs, and `forall_prefix_iff_along` the rule for a
condition that is exact. `total` adds up what the steps of a run weigh, and `run_potential` bounds it.

Where one step is itself a computation with fuel, `run_total` gives a fuel with which a whole run
is performed, and `run_simulates` carries a run over to an abstract state.
-/

namespace Trace

variable {σ ε : Type*} {step : σ → ε → Option σ}

/-- Perform a list of events; `none` when one of them is not enabled. -/
def run (step : σ → ε → Option σ) (s : σ) (es : List ε) : Option σ := es.foldlM step s

/-- Every event of the run satisfies `C` in the state in which it is performed. -/
def Along (step : σ → ε → Option σ) (C : σ → ε → Prop) : σ → List ε → Prop
  | _, [] => True
  | s, e :: es => C s e ∧ ∀ s', step s e = some s' → Along step C s' es

@[simp] theorem run_nil (s : σ) : run step s [] = some s := rfl

@[simp] theorem run_cons (s : σ) (e : ε) (es : List ε) :
    run step s (e :: es) = (step s e).bind fun s' => run step s' es := by
  simp [run, List.foldlM_cons]

theorem run_append (s : σ) (es fs : List ε) :
    run step s (es ++ fs) = (run step s es).bind fun s' => run step s' fs := by
  simp [run, List.foldlM_append]

theorem along_append {C : σ → ε → Prop} (es fs : List ε) (s : σ) :
    Along step C s (es ++ fs) ↔
      Along step C s es ∧ ∀ t, run step s es = some t → Along step C t fs := by
  induction es generalizing s with
  | nil => simp [Along]
  | cons e es ih =>
    simp only [List.cons_append, Along, ih, run_cons, Option.bind_eq_some_iff]
    constructor
    · rintro ⟨hC, hrest⟩
      exact ⟨⟨hC, fun s' hs' => (hrest s' hs').1⟩, fun t ⟨s', hs', ht⟩ => (hrest s' hs').2 t ht⟩
    · rintro ⟨⟨hC, hes⟩, hfs⟩
      exact ⟨hC, fun s' hs' => ⟨hes s' hs', fun t ht => hfs t ⟨s', hs', ht⟩⟩⟩

theorem Along.and {C D : σ → ε → Prop} {es : List ε} {s : σ} (hC : Along step C s es)
    (hD : Along step D s es) : Along step (fun s e => C s e ∧ D s e) s es := by
  induction es generalizing s with
  | nil => trivial
  | cons e es ih => exact ⟨⟨hC.1, hD.1⟩, fun s' hs' => ih (hC.2 s' hs') (hD.2 s' hs')⟩

theorem Along.imp {C D : σ → ε → Prop} (hCD : ∀ s e, C s e → D s e) {es : List ε} {s : σ}
    (hC : Along step C s es) : Along step D s es := by
  induction es generalizing s with
  | nil => trivial
  | cons e es ih => exact ⟨hCD s e hC.1, fun s' hs' => ih (hC.2 s' hs')⟩

/-- The conditions along a concrete run can be evaluated. -/
instance decidableAlong {C : σ → ε → Prop} [∀ s e, Decidable (C s e)] :
    ∀ s es, Decidable (Along step C s es)
  | _, [] => isTrue trivial
  | s, e :: es =>
    match h : step s e with
    | none => decidable_of_iff (C s e) ⟨fun hC => ⟨hC, fun s' hs' => by rw [h] at hs'; cases hs'⟩,
        fun hC => hC.1⟩
    | some t =>
      have := decidableAlong (C := C) t es
      decidable_of_iff (C s e ∧ Along step C t es)
        ⟨fun hC => ⟨hC.1, fun s' hs' => by rw [h] at hs'; cases hs'; exact hC.2⟩,
          fun hC => ⟨hC.1, hC.2 t h⟩⟩

/-- **The invariant rule for runs under a condition.** -/
theorem run_invariant_along {I : σ → Prop} {C : σ → ε → Prop}
    (hI : ∀ s e s', I s → C s e → step s e = some s' → I s') {es : List ε} {s t : σ}
    (hs : I s) (hC : Along step C s es) (h : run step s es = some t) : I t := by
  induction es generalizing s with
  | nil =>
    rw [run_nil, Option.some.injEq] at h
    exact h ▸ hs
  | cons e es ih =>
    rw [run_cons] at h
    obtain ⟨s', hstep, hrest⟩ := Option.bind_eq_some_iff.1 h
    exact ih (hI s e s' hs hC.1 hstep) (hC.2 s' hstep) hrest

/-- **The invariant rule.** -/
theorem run_invariant {I : σ → Prop} (hI : ∀ s e s', I s → step s e = some s' → I s')
    {es : List ε} {s t : σ} (hs : I s) (h : run step s es = some t) : I t := by
  refine run_invariant_along (C := fun _ _ => True) (fun s e s' hs _ => hI s e s' hs) hs ?_ h
  clear h hs
  induction es generalizing s with
  | nil => trivial
  | cons e es ih => exact ⟨trivial, fun s' _ => ih⟩

/-- **The rule for a record of a run.** Where every step appends to a list what its event says, a run
appends what its events say. -/
theorem run_appends {β : Type*} {I : σ → Prop} {f : σ → List β} {g : ε → List β}
    (hI : ∀ s e s', I s → step s e = some s' → I s' ∧ f s' = f s ++ g e) {es : List ε} {s t : σ} (hs : I s)
    (h : run step s es = some t) : f t = f s ++ es.flatMap g := by
  induction es generalizing s with
  | nil =>
    obtain rfl := Option.some.inj h
    rw [List.flatMap_nil, List.append_nil]
  | cons e es ih =>
    rw [run_cons] at h
    obtain ⟨s', hstep, hrest⟩ := Option.bind_eq_some_iff.1 h
    obtain ⟨hs', hf⟩ := hI s e s' hs hstep
    rw [ih hs' hrest, hf, List.append_assoc, List.flatMap_cons]

/-- **The rule for an exact condition.** Where an invariant with the property `P` is kept by the steps
that meet `D`, and every other step leads to a state without the property, the property holds in every
state of a run if and only if all its steps meet `D`. -/
theorem forall_prefix_iff_along {I P : σ → Prop} {C D : σ → ε → Prop} (hP : ∀ s, I s → P s)
    (hI : ∀ s e s', I s → C s e → D s e → step s e = some s' → I s')
    (hbad : ∀ s e s', I s → C s e → ¬ D s e → step s e = some s' → ¬ P s') {es : List ε} {s t : σ}
    (hs : I s) (hC : Along step C s es) (h : run step s es = some t) :
    (∀ fs u, fs <+: es → run step s fs = some u → P u) ↔ Along step D s es := by
  induction es generalizing s with
  | nil =>
    refine ⟨fun _ => trivial, fun _ fs u hfs hu => ?_⟩
    rw [List.prefix_nil.1 hfs, run_nil, Option.some.injEq] at hu
    exact hu ▸ hP s hs
  | cons e es ih =>
    rw [run_cons] at h
    obtain ⟨s', hstep, hrest⟩ := Option.bind_eq_some_iff.1 h
    have hnext : ∀ fs, run step s (e :: fs) = run step s' fs := fun fs => by
      rw [run_cons, hstep, Option.bind_some]
    constructor
    · intro hall
      have hD : D s e := by
        by_contra hD
        refine hbad s e s' hs hC.1 hD hstep (hall [e] s' ⟨es, rfl⟩ ?_)
        rw [hnext, run_nil]
      refine ⟨hD, fun u hu => ?_⟩
      obtain rfl := Option.some.inj (hstep.symm.trans hu)
      refine (ih (hI s e s' hs hC.1 hD hstep) (hC.2 s' hstep) hrest).1 fun fs u hfs hu => ?_
      exact hall (e :: fs) u ((List.prefix_cons_inj e).2 hfs) ((hnext fs).trans hu)
    · rintro ⟨hD, hDrest⟩ fs u hfs hu
      have hs' := hI s e s' hs hC.1 hD hstep
      cases fs with
      | nil =>
        rw [run_nil, Option.some.injEq] at hu
        exact hu ▸ hP s hs
      | cons f fs =>
        obtain ⟨rfl, hfs'⟩ := List.cons_prefix_cons.1 hfs
        exact (ih hs' (hC.2 s' hstep) hrest).2 (hDrest s' hstep) fs u hfs' ((hnext fs).symm.trans hu)

/-! ### Counting -/

/-- The sum of the weights of the steps of a run. -/
def total (step : σ → ε → Option σ) (w : σ → ε → σ → ℕ) : σ → List ε → ℕ
  | _, [] => 0
  | s, e :: es =>
    match step s e with
    | none => 0
    | some s' => w s e s' + total step w s' es

theorem total_cons {w : σ → ε → σ → ℕ} {s s' : σ} {e : ε} (h : step s e = some s') (es : List ε) :
    total step w s (e :: es) = w s e s' + total step w s' es := by
  simp only [total, h]

/-- **The potential rule.** Where what a step gains comes from the potential or from what it is given, a
run gains no more than the potential at its beginning and all that it is given. -/
theorem run_potential (gain cost : σ → ε → σ → ℕ) (potential : σ → ℕ) {I : σ → Prop} {C : σ → ε → Prop}
    (hI : ∀ s e s', I s → C s e → step s e = some s' → I s')
    (hstep : ∀ s e s', I s → C s e → step s e = some s' →
      gain s e s' + potential s' ≤ potential s + cost s e s') {es : List ε} {s t : σ} (hs : I s)
    (hC : Along step C s es) (h : run step s es = some t) :
    total step gain s es + potential t ≤ potential s + total step cost s es := by
  induction es generalizing s with
  | nil =>
    obtain rfl := Option.some.inj ((run_nil s).symm.trans h)
    simp only [total, Nat.zero_add, Nat.add_zero, le_refl]
  | cons e es ih =>
    rw [run_cons] at h
    obtain ⟨s', hs', hrest⟩ := Option.bind_eq_some_iff.1 h
    have hone := hstep s e s' hs hC.1 hs'
    have hmany := ih (hI s e s' hs hC.1 hs') (hC.2 s' hs') hrest
    rw [total_cons hs', total_cons hs']
    omega

/-! ### Steps with fuel -/

section Fuel

variable {fstep : ℕ → σ → ε → Option σ} {C : σ → ε → Prop}

/-- More fuel never loses a step. -/
def FuelMono (fstep : ℕ → σ → ε → Option σ) : Prop :=
  ∀ m n s e s', m ≤ n → fstep m s e = some s' → fstep n s e = some s'

/-- More fuel never loses a run. -/
theorem run_mono (hmono : FuelMono fstep) {m n : ℕ} (hmn : m ≤ n) {es : List ε} {s t : σ}
    (h : run (fstep m) s es = some t) : run (fstep n) s es = some t := by
  induction es generalizing s with
  | nil => exact h
  | cons e es ih =>
    rw [run_cons] at h ⊢
    obtain ⟨s', hstep, hrest⟩ := Option.bind_eq_some_iff.1 h
    rw [hmono m n s e s' hmn hstep, Option.bind_some]
    exact ih hrest

/-- A run that ends does not depend on the fuel. -/
theorem run_unique (hmono : FuelMono fstep) {m n : ℕ} {es : List ε} {s t u : σ}
    (h : run (fstep m) s es = some t) (h' : run (fstep n) s es = some u) : t = u :=
  Option.some.inj ((run_mono hmono (le_max_left m n) h).symm.trans
    (run_mono hmono (le_max_right m n) h'))

/-- A run that ends meets its condition with any fuel when it does with the fuel it ended with. -/
theorem along_of_run (hmono : FuelMono fstep) {n : ℕ} {es : List ε} {s t : σ}
    (h : run (fstep n) s es = some t) (hC : Along (fstep n) C s es) (m : ℕ) :
    Along (fstep m) C s es := by
  induction es generalizing s with
  | nil => trivial
  | cons e es ih =>
    rw [run_cons] at h
    obtain ⟨s', hstep, hrest⟩ := Option.bind_eq_some_iff.1 h
    refine ⟨hC.1, fun s'' hstep' => ?_⟩
    have h1 := hmono n (max m n) s e s' (le_max_right m n) hstep
    have h2 := hmono m (max m n) s e s'' (le_max_left m n) hstep'
    obtain rfl := Option.some.inj (h1.symm.trans h2)
    exact ih hrest (hC.2 s' hstep)

/-- **The progress rule.** Where every event that meets its condition can be performed with enough
fuel, so can every run whose events meet theirs. -/
theorem run_total (hmono : FuelMono fstep) {I : σ → Prop}
    (hprog : ∀ s e, I s → C s e → ∃ n s', fstep n s e = some s')
    (hI : ∀ n s e s', I s → C s e → fstep n s e = some s' → I s') {es : List ε} {s : σ} (hs : I s)
    {m : ℕ} (hC : ∀ n, m ≤ n → Along (fstep n) C s es) : ∃ n t, run (fstep n) s es = some t := by
  induction es generalizing s m with
  | nil => exact ⟨0, s, rfl⟩
  | cons e es ih =>
    have hCe := (hC m le_rfl).1
    obtain ⟨k, s', hstep⟩ := hprog s e hs hCe
    have hs' := hI k s e s' hs hCe hstep
    have hrest : ∀ n, max m k ≤ n → Along (fstep n) C s' es := fun n hn =>
      (hC n (le_of_max_le_left hn)).2 s' (hmono k n s e s' (le_of_max_le_right hn) hstep)
    obtain ⟨n, t, hrun⟩ := ih hs' hrest
    refine ⟨max k n, t, ?_⟩
    rw [run_cons, hmono k _ s e s' (le_max_left k n) hstep, Option.bind_some]
    exact run_mono hmono (le_max_right k n) hrun

/-- **The simulation rule.** Where every event that meets its condition in an abstract state can be
performed, with enough fuel, and leads to what `astep` says, a run is performed and leads to what the
events make of the abstract state. -/
theorem run_simulates {τ : Type*} {astep : τ → ε → τ} {R : σ → τ → Prop} {C : τ → ε → Prop}
    (hmono : FuelMono fstep)
    (hstep : ∀ s a e, R s a → C a e → ∃ n s', fstep n s e = some s' ∧ R s' (astep a e)) {es : List ε}
    {s : σ} {a : τ} (hs : R s a) (hC : Along (fun a e => some (astep a e)) C a es) :
    ∃ n t, run (fstep n) s es = some t ∧ R t (es.foldl astep a) := by
  induction es generalizing s a with
  | nil => exact ⟨0, s, rfl, hs⟩
  | cons e es ih =>
    obtain ⟨k, s', hk, hs'⟩ := hstep s a e hs hC.1
    obtain ⟨n, t, hrun, ht⟩ := ih hs' (hC.2 (astep a e) rfl)
    refine ⟨max k n, t, ?_, ht⟩
    rw [run_cons, hmono k _ s e s' (le_max_left k n) hk, Option.bind_some]
    exact run_mono hmono (le_max_right k n) hrun

end Fuel

end Trace
