import Naul.Lib.WhileLoop

/-!
# Computations with fuel

A computation that need not end is a function of its fuel, and `none` says that the fuel did not
suffice. `Steady f` says that more fuel changes no result, and `Returns f a` that some fuel gives `a`.
For steady computations `Returns` has at most one result (`Returns.unique`), it goes through loops
(`returns_loop_inl`, `returns_loop_inr`), and the result is that of any greater fuel (`Settles`), which
goes through binds (`Settles.bind`). So nothing need be said about how much fuel is enough.

`loop` is a `while` loop whose body may have loops of its own.
-/

namespace Fuel

variable {α β σ ρ : Type*}

/-- More fuel changes no result. -/
def Steady (f : ℕ → Option α) : Prop := ∀ ⦃m n a⦄, m ≤ n → f m = some a → f n = some a

/-- Enough fuel gives the result `a`. -/
def Returns (f : ℕ → Option α) (a : α) : Prop := ∃ n, f n = some a

/-- `while` with a body that needs fuel. -/
def loop (body : ℕ → σ → Option (σ ⊕ ρ)) : ℕ → σ → Option ρ
  | 0, _ => none
  | n + 1, s => (body n s).bind fun
    | .inl s' => loop body n s'
    | .inr r => some r

variable {f : ℕ → Option α} {g : α → ℕ → Option β} {a a' : α} {b : β}

theorem Returns.unique (hf : Steady f) (h : Returns f a) (h' : Returns f a') : a = a' := by
  obtain ⟨m, hm⟩ := h
  obtain ⟨n, hn⟩ := h'
  have h1 := hf (le_max_left m n) hm
  have h2 := hf (le_max_right m n) hn
  exact Option.some.inj (h1.symm.trans h2)

theorem returns_unique_iff (hf : Steady f) (h : Returns f a) : Returns f a' ↔ a = a' :=
  ⟨fun h' => h.unique hf h', fun he => he ▸ h⟩

/-! ### Binds -/

theorem steady_some (a : α) : Steady fun _ => some a := fun _ _ _ _ h => h

theorem steady_const (o : Option α) : Steady fun _ => o := fun _ _ _ _ h => h

theorem steady_ite {f' : ℕ → Option α} {c : Prop} [Decidable c] (hf : Steady f) (hf' : Steady f') :
    Steady fun n => if c then f n else f' n := by
  split_ifs
  · exact hf
  · exact hf'

theorem steady_bind (hf : Steady f) (hg : ∀ a, Steady (g a)) :
    Steady fun n => (f n).bind fun a => g a n := by
  intro m n b hmn h
  obtain ⟨a, ha, hb⟩ := Option.bind_eq_some_iff.1 h
  exact Option.bind_eq_some_iff.2 ⟨a, hf hmn ha, hg a hmn hb⟩

theorem steady_map (hf : Steady f) (h : α → β) : Steady fun n => (f n).map h := by
  intro m n b hmn hb
  obtain ⟨a, ha, rfl⟩ := Option.map_eq_some_iff.1 hb
  exact Option.map_eq_some_iff.2 ⟨a, hf hmn ha, rfl⟩

/-! ### All fuel from some point on -/

/-- With enough fuel or more, the result is `a`. -/
def Settles (f : ℕ → Option α) (a : α) : Prop := ∃ m, ∀ n, m ≤ n → f n = some a

theorem Returns.settles (hf : Steady f) (h : Returns f a) : Settles f a :=
  h.imp fun _ hm _ hmn => hf hmn hm

theorem Settles.returns (h : Settles f a) : Returns f a := h.imp fun m hm => hm m le_rfl

theorem settles_some (a : α) : Settles (fun _ => some a) a := ⟨0, fun _ _ => rfl⟩

theorem Settles.bind (hf : Settles f a) (hg : Settles (g a) b) :
    Settles (fun n => (f n).bind fun a => g a n) b := by
  obtain ⟨m, hm⟩ := hf
  obtain ⟨k, hk⟩ := hg
  refine ⟨max m k, fun n hn => Option.bind_eq_some_iff.2 ⟨a, ?_, ?_⟩⟩
  · exact hm n (le_of_max_le_left hn)
  · exact hk n (le_of_max_le_right hn)

theorem Settles.map (hf : Settles f a) (h : α → β) : Settles (fun n => (f n).map h) (h a) := by
  obtain ⟨m, hm⟩ := hf
  exact ⟨m, fun n hn => congrArg (Option.map h) (hm n hn)⟩

/-! ### Loops -/

section Loop

variable {body : ℕ → σ → Option (σ ⊕ ρ)} {s s' : σ} {r : ρ}

theorem steady_run (body : σ → σ ⊕ ρ) (s : σ) : Steady fun n => WhileLoop.run body n s :=
  fun _ _ _ hmn h => WhileLoop.run_mono hmn h

theorem steady_loop (hbody : ∀ s, Steady fun n => body n s) (s : σ) :
    Steady fun n => loop body n s := by
  intro m n r hmn h
  induction m generalizing n s with
  | zero => cases h
  | succ m ih =>
    obtain ⟨n, rfl⟩ : ∃ k, n = k + 1 := ⟨n - 1, by omega⟩
    obtain ⟨x, hx, hr⟩ := Option.bind_eq_some_iff.1 h
    refine Option.bind_eq_some_iff.2 ⟨x, hbody s (by omega) hx, ?_⟩
    cases x with
    | inl s' => exact ih s' (by omega) hr
    | inr r' => exact hr

theorem steady_loop_const (body : σ → Option (σ ⊕ ρ)) (s : σ) :
    Steady fun n => loop (fun _ => body) n s :=
  steady_loop (fun s => steady_const (body s)) s

/-- A turn that stays in the loop. -/
theorem returns_loop_inl (hbody : ∀ s, Steady fun n => body n s)
    (h : Returns (fun n => body n s) (.inl s')) :
    Returns (fun n => loop body n s) r ↔ Returns (fun n => loop body n s') r := by
  constructor
  · rintro ⟨n, hn⟩
    cases n with
    | zero => cases hn
    | succ n =>
      obtain ⟨x, hx, hr⟩ := Option.bind_eq_some_iff.1 hn
      obtain rfl := h.unique (hbody s) ⟨n, hx⟩
      exact ⟨n, hr⟩
  · rintro ⟨n, hn⟩
    obtain ⟨m, hm⟩ := h
    refine ⟨max m n + 1, Option.bind_eq_some_iff.2 ⟨.inl s', ?_, ?_⟩⟩
    · exact hbody s (le_max_left m n) hm
    · exact steady_loop hbody s' (le_max_right m n) hn

/-- A turn that leaves the loop. -/
theorem returns_loop_inr (h : Returns (fun n => body n s) (.inr r)) :
    Returns (fun n => loop body n s) r := by
  obtain ⟨n, hn⟩ := h
  exact ⟨n + 1, Option.bind_eq_some_iff.2 ⟨.inr r, hn, rfl⟩⟩

/-- A body without loops of its own, whose turns are known. -/
theorem loop_of_turns {body : σ → Option (σ ⊕ ρ)} (f : ℕ → σ) {n : ℕ}
    (hturn : ∀ i < n, body (f i) = some (.inl (f (i + 1)))) (hexit : body (f n) = some (.inr r)) :
    loop (fun _ => body) (n + 1) (f 0) = some r := by
  induction n generalizing f with
  | zero => rw [loop, hexit, Option.bind_some]
  | succ n ih =>
    rw [loop, hturn 0 (Nat.succ_pos n), Option.bind_some]
    exact ih (fun i => f (i + 1)) (fun i hi => hturn (i + 1) (Nat.succ_lt_succ hi)) hexit

/-- **Simulation of loops.** Where each turn of `body` is one of `body'` in related states, the results
are related. -/
theorem loop_simulates {σ' ρ' : Type*} {body' : ℕ → σ' → Option (σ' ⊕ ρ')} {R : σ → σ' → Prop}
    {Q : ρ → ρ' → Prop} (hbody : ∀ n s t x, R s t → body n s = some x →
      ∃ y, body' n t = some y ∧ Sum.LiftRel R Q x y) {n : ℕ} {t : σ'} (hs : R s t)
    (h : loop body n s = some r) : ∃ q, loop body' n t = some q ∧ Q r q := by
  induction n generalizing s t with
  | zero => cases h
  | succ n ih =>
    obtain ⟨x, hx, hr⟩ := Option.bind_eq_some_iff.1 h
    obtain ⟨y, hy, hrel⟩ := hbody n s t x hs hx
    rw [loop, hy, Option.bind_some]
    cases hrel with
    | inl hnext => exact ih hnext hr
    | inr hresult =>
      obtain rfl := Option.some.inj hr
      exact ⟨_, rfl, hresult⟩

/-- A body that always gives the same as one without failures makes the same loop. -/
theorem run_of_loop {body : σ → Option (σ ⊕ ρ)} {body' : σ → σ ⊕ ρ}
    (hbody : ∀ s x, body s = some x → body' s = x) {n : ℕ} (h : loop (fun _ => body) n s = some r) :
    WhileLoop.run body' n s = some r := by
  induction n generalizing s with
  | zero => cases h
  | succ n ih =>
    obtain ⟨x, hx, hr⟩ := Option.bind_eq_some_iff.1 h
    cases x with
    | inl t =>
      rw [WhileLoop.run_succ_inl (hbody s _ hx)]
      exact ih hr
    | inr q =>
      rw [WhileLoop.run_succ_inr (hbody s _ hx)]
      exact hr

/-- A turn that does not end. -/
theorem not_returns_loop (h : ∀ x, ¬ Returns (fun n => body n s) x) :
    ¬ Returns (fun n => loop body n s) r := by
  rintro ⟨n, hn⟩
  cases n with
  | zero => cases hn
  | succ n =>
    obtain ⟨x, hx, -⟩ := Option.bind_eq_some_iff.1 hn
    exact h x ⟨n, hx⟩

end Loop

end Fuel
