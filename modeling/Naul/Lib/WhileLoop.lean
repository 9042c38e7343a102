import Mathlib.Logic.Relation
import Mathlib.Order.WellFounded
import Mathlib.Tactic

/-!
# While loops with fuel

A loop body sends the loop's variables either to their next values (`Sum.inl`) or to the result
with which the loop is left (`Sum.inr`). `run body n s` gives the body at most `n` turns, so that a
loop which never ends is a `run` that is `none` for every `n`.

The rules are the usual two: `run_invariant` (what every turn preserves holds when the loop is left)
and `run_total` (a measure that every turn decreases in a well-founded order ends the loop). Where the
measure is a number, it bounds the turns: `run_within`.
-/

namespace WhileLoop

variable {σ ρ : Type*} {body : σ → σ ⊕ ρ}

/-- At most `n` turns of `body` from `s`; `none` when the loop has not been left by then. -/
def run (body : σ → σ ⊕ ρ) : ℕ → σ → Option ρ
  | 0, _ => none
  | n + 1, s =>
    match body s with
    | .inl s' => run body n s'
    | .inr r => some r

/-- `s'` is reached from `s` by turns that stay in the loop. -/
def Visits (body : σ → σ ⊕ ρ) : σ → σ → Prop := Relation.ReflTransGen fun s s' => body s = .inl s'

@[simp] theorem run_zero (s : σ) : run body 0 s = none := rfl

theorem run_succ_inl {s s' : σ} (h : body s = .inl s') (n : ℕ) :
    run body (n + 1) s = run body n s' := by
  simp [run, h]

theorem run_succ_inr {s : σ} {r : ρ} (h : body s = .inr r) (n : ℕ) :
    run body (n + 1) s = some r := by
  simp [run, h]

/-- More fuel never loses a result. -/
theorem run_mono {m n : ℕ} (hmn : m ≤ n) {s : σ} {r : ρ} (h : run body m s = some r) :
    run body n s = some r := by
  induction m generalizing n s with
  | zero => simp at h
  | succ m ih =>
    obtain ⟨n, rfl⟩ : ∃ k, n = k + 1 := ⟨n - 1, by omega⟩
    cases hb : body s with
    | inl s' =>
      rw [run_succ_inl hb] at h ⊢
      exact ih (by omega) h
    | inr r' =>
      rw [run_succ_inr hb] at h ⊢
      exact h

/-- The result does not depend on the fuel. -/
theorem run_unique {m n : ℕ} {s : σ} {r r' : ρ} (h : run body m s = some r)
    (h' : run body n s = some r') : r = r' := by
  have h1 := run_mono (le_max_left m n) h
  have h2 := run_mono (le_max_right m n) h'
  exact Option.some.inj (h1.symm.trans h2)

/-- What every turn preserves holds of every visited state. -/
theorem Visits.invariant {I : σ → Prop} (hI : ∀ s s', I s → body s = .inl s' → I s') {s s' : σ}
    (h : Visits body s s') (hs : I s) : I s' := by
  induction h with
  | refl => exact hs
  | tail _ hstep ih => exact hI _ _ ih hstep

/-- A loop is left from a visited state. -/
theorem run_exit {n : ℕ} {s : σ} {r : ρ} (h : run body n s = some r) :
    ∃ s', Visits body s s' ∧ body s' = .inr r := by
  induction n generalizing s with
  | zero => simp at h
  | succ n ih =>
    cases hb : body s with
    | inl s' =>
      rw [run_succ_inl hb] at h
      obtain ⟨t, hv, ht⟩ := ih h
      exact ⟨t, Relation.ReflTransGen.head hb hv, ht⟩
    | inr r' =>
      rw [run_succ_inr hb, Option.some.injEq] at h
      exact ⟨s, Relation.ReflTransGen.refl, by rw [hb, h]⟩

/-- The loop has the same result from every state it visits. -/
theorem run_of_visits {n : ℕ} {s s' : σ} {r : ρ} (h : run body n s = some r)
    (hv : Visits body s s') : ∃ m, run body m s' = some r := by
  induction hv using Relation.ReflTransGen.head_induction_on generalizing n with
  | refl => exact ⟨n, h⟩
  | head hstep _ ih =>
    cases n with
    | zero => simp at h
    | succ n =>
      rw [run_succ_inl hstep] at h
      exact ih h

/-- The states before each of the first `n` turns. -/
def trail (body : σ → σ ⊕ ρ) : ℕ → σ → List σ
  | 0, _ => []
  | n + 1, s =>
    s :: match body s with
      | .inl s' => trail body n s'
      | .inr _ => []

/-- When the loop is left within `n` turns, those are all the states it visits. -/
theorem mem_trail_of_visits {n : ℕ} {s s' : σ} {r : ρ} (h : run body n s = some r)
    (hv : Visits body s s') : s' ∈ trail body n s := by
  induction n generalizing s with
  | zero => simp at h
  | succ n ih =>
    rcases hv.cases_head with rfl | ⟨t, ht, hv'⟩
    · exact List.mem_cons_self
    · rw [run_succ_inl ht] at h
      simp only [trail, ht]
      exact List.mem_cons_of_mem _ (ih h hv')

/-- **The invariant rule.** -/
theorem run_invariant {I : σ → Prop} {Q : ρ → Prop} (hI : ∀ s s', I s → body s = .inl s' → I s')
    (hQ : ∀ s r, I s → body s = .inr r → Q r) {n : ℕ} {s : σ} {r : ρ} (hs : I s)
    (h : run body n s = some r) : Q r := by
  obtain ⟨t, hv, ht⟩ := run_exit h
  exact hQ t r (hv.invariant hI hs) ht

/-- **What is recorded stays recorded**: the list of a state that each turn only adds to. -/
theorem run_subset {β : Type*} {body : σ → σ ⊕ σ} (recorded : σ → List β)
    (hbody : ∀ s s', body s = .inl s' ∨ body s = .inr s' → recorded s ⊆ recorded s') {n : ℕ} {s r : σ}
    (h : run body n s = some r) : recorded s ⊆ recorded r := by
  refine run_invariant (I := fun t => recorded s ⊆ recorded t) (Q := fun t => recorded s ⊆ recorded t)
    (fun t t' ht hb => ?_) (fun t t' ht hb => ?_) (List.Subset.refl _) h
  · exact List.Subset.trans ht (hbody t t' (.inl hb))
  · exact List.Subset.trans ht (hbody t t' (.inr hb))

/-- **The termination rule.** -/
theorem run_total {α : Type*} [Preorder α] [WellFoundedLT α] {I : σ → Prop} (μ : σ → α)
    (hI : ∀ s s', I s → body s = .inl s' → I s' ∧ μ s' < μ s) {s : σ} (hs : I s) :
    ∃ n r, run body n s = some r := by
  induction hm : μ s using WellFoundedLT.induction generalizing s with
  | ind m ih =>
    cases hb : body s with
    | inl s' =>
      obtain ⟨hs', hlt⟩ := hI s s' hs hb
      obtain ⟨n, r, hr⟩ := ih (μ s') (hm ▸ hlt) hs' rfl
      exact ⟨n + 1, r, by rw [run_succ_inl hb, hr]⟩
    | inr r => exact ⟨1, r, run_succ_inr hb 0⟩

/-- A number that every turn decreases bounds the turns. -/
theorem run_within {I : σ → Prop} (μ : σ → ℕ)
    (hI : ∀ s s', I s → body s = .inl s' → I s' ∧ μ s' < μ s) {s : σ} (hs : I s) {n : ℕ}
    (hn : μ s < n) : ∃ r, run body n s = some r := by
  induction n generalizing s with
  | zero => exact absurd hn (Nat.not_lt_zero _)
  | succ n ih =>
    cases hb : body s with
    | inl s' =>
      obtain ⟨hs', hlt⟩ := hI s s' hs hb
      obtain ⟨r, hr⟩ := ih hs' (Nat.lt_of_lt_of_le hlt (Nat.le_of_lt_succ hn))
      exact ⟨r, by rw [run_succ_inl hb, hr]⟩
    | inr r => exact ⟨r, run_succ_inr hb n⟩

/-- Two bodies that do the same in every state of an invariant give the same loop. -/
theorem run_congr {I : σ → Prop} {body' : σ → σ ⊕ ρ} (hI : ∀ s s', I s → body s = .inl s' → I s')
    (heq : ∀ s, I s → body s = body' s) {s : σ} (hs : I s) (n : ℕ) :
    run body n s = run body' n s := by
  induction n generalizing s with
  | zero => rfl
  | succ n ih =>
    have hb' := heq s hs
    cases hb : body s with
    | inl s' =>
      rw [run_succ_inl hb, run_succ_inl (hb' ▸ hb)]
      exact ih (hI s s' hs hb)
    | inr r => rw [run_succ_inr hb, run_succ_inr (hb' ▸ hb)]

/-- A loop whose turns are known. -/
theorem run_of_turns (f : ℕ → σ) {n : ℕ} {r : ρ} (hturn : ∀ i < n, body (f i) = .inl (f (i + 1)))
    (hexit : body (f n) = .inr r) : run body (n + 1) (f 0) = some r := by
  induction n generalizing f with
  | zero => exact run_succ_inr hexit 0
  | succ n ih =>
    rw [run_succ_inl (hturn 0 (by omega))]
    exact ih (fun i => f (i + 1)) (fun i hi => hturn (i + 1) (by omega)) hexit

/-- A loop that can always go on is never left. -/
theorem run_eq_none {I : σ → Prop} (hI : ∀ s, I s → ∃ s', body s = .inl s' ∧ I s') {s : σ}
    (hs : I s) (n : ℕ) : run body n s = none := by
  induction n generalizing s with
  | zero => rfl
  | succ n ih =>
    obtain ⟨s', hb, hs'⟩ := hI s hs
    rw [run_succ_inl hb, ih hs']

/-- A loop that comes back to a state is never left. -/
theorem run_cycle {s t t' : σ} (hv : Visits body s t) (hb : body t = .inl t')
    (hback : Visits body t' t) (n : ℕ) : run body n s = none := by
  refine run_eq_none (I := fun s => Visits body s t) (fun s hs => ?_) hv n
  rcases hs.cases_head with rfl | ⟨u, hu, hrest⟩
  · exact ⟨t', hb, hback⟩
  · exact ⟨u, hu, hrest⟩

end WhileLoop
