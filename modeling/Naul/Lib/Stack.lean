import Mathlib.Tactic
import Mathlib.Order.CompletePartialOrder

/-!
# Words on a stack

A memory of 8-byte words, read and written at byte addresses that are multiples of 8 apart. Addresses
are machine words and wrap. `Holds m sp ws` says that the words `ws` lie at `sp` and upward, and
`block sp n` are the addresses of `n` words there. A block of fewer than `2 ^ 61` words meets itself
nowhere, so what is stored below it leaves it as it is (`Holds.storeWords`).
-/

namespace Stack

variable {α : Type*}

/-- The addresses of `n` words from `a` upward. -/
def block (a : UInt64) (n : ℕ) : Set UInt64 := {b | ∃ k < n, b = a + 8 * .ofNat k}

/-- The words `ws` lie at `a` and upward. -/
def Holds (m : UInt64 → α) (a : UInt64) (ws : List α) : Prop :=
  ∀ i w, ws[i]? = some w → m (a + 8 * .ofNat i) = w

/-- Store the words from `a` upward. -/
def storeWords (m : UInt64 → α) : UInt64 → List α → UInt64 → α
  | _, [] => m
  | a, w :: ws => storeWords (Function.update m a w) (a + 8) ws

variable {m m' : UInt64 → α} {a b : UInt64} {n i j : ℕ} {w : α} {ws vs : List α}

/-! ### Blocks -/

theorem offset_zero (a : UInt64) : a + 8 * .ofNat 0 = a := by grind

theorem offset_succ (a : UInt64) (n : ℕ) : a + 8 * .ofNat (n + 1) = a + 8 + 8 * .ofNat n := by
  rw [UInt64.ofNat_add, show UInt64.ofNat 1 = 1 from rfl]
  grind

theorem offset_add (a : UInt64) (i j : ℕ) :
    a + 8 * .ofNat (i + j) = a + 8 * .ofNat i + 8 * .ofNat j := by
  rw [UInt64.ofNat_add]
  grind

/-- Offsets of fewer than `2 ^ 61` words are distinct. -/
theorem offset_injective (hi : i < 2 ^ 61) (hj : j < 2 ^ 61)
    (h : a + 8 * .ofNat i = a + 8 * .ofNat j) : i = j := by
  have heq : (8 : UInt64) * .ofNat i = 8 * .ofNat j := by grind
  have hsize : UInt64.size = 2 ^ 64 := rfl
  have hnat := congrArg UInt64.toNat heq
  rw [UInt64.toNat_mul, UInt64.toNat_mul, UInt64.toNat_ofNat_of_lt' (by omega),
    UInt64.toNat_ofNat_of_lt' (by omega), show (8 : UInt64).toNat = 8 from rfl] at hnat
  omega

theorem mem_block_self (hn : 0 < n) : a ∈ block a n := ⟨0, hn, (offset_zero a).symm⟩

theorem block_succ : block a (n + 1) = insert a (block (a + 8) n) := by
  ext b
  constructor
  · rintro ⟨k, hk, rfl⟩
    cases k with
    | zero => exact Or.inl (offset_zero a)
    | succ k => exact Or.inr ⟨k, by omega, offset_succ a k⟩
  · rintro (rfl | ⟨k, hk, rfl⟩)
    · exact mem_block_self (Nat.succ_pos n)
    · exact ⟨k + 1, by omega, (offset_succ a k).symm⟩

theorem block_mono {n' : ℕ} (h : n ≤ n') : block a n ⊆ block a n' := fun _ ⟨k, hk, hb⟩ => ⟨k, by omega, hb⟩

/-- The rest of a block. -/
theorem block_offset_subset (h : i + j ≤ n) : block (a + 8 * .ofNat i) j ⊆ block a n := by
  rintro b ⟨k, hk, rfl⟩
  exact ⟨i + k, by omega, (offset_add a i k).symm⟩

/-- The address of a block is not that of its rest. -/
theorem notMem_block_succ (hn : n < 2 ^ 61) : a ∉ block (a + 8) n := by
  rintro ⟨k, hk, heq⟩
  rw [← offset_succ] at heq
  have h0 : a + 8 * .ofNat 0 = a + 8 * .ofNat (k + 1) := by
    rw [← heq, offset_zero]
  exact absurd (offset_injective (by omega) (by omega) h0) (by omega)

/-- A block that does not wrap. -/
theorem le_of_mem_block (hend : a.toNat + 8 * n ≤ 2 ^ 64) (hb : b ∈ block a n) :
    a.toNat ≤ b.toNat ∧ b.toNat < a.toNat + 8 * n := by
  obtain ⟨k, hk, rfl⟩ := hb
  have hsize : UInt64.size = 2 ^ 64 := rfl
  rw [UInt64.toNat_add, UInt64.toNat_mul, UInt64.toNat_ofNat_of_lt' (by omega),
    show (8 : UInt64).toNat = 8 from rfl]
  omega

/-- A block that ends where another starts, or below. -/
theorem disjoint_block (h : a.toNat + 8 * i ≤ b.toNat) (hend : b.toNat + 8 * j ≤ 2 ^ 64) :
    Disjoint (block a i) (block b j) := by
  refine Set.disjoint_left.2 fun c hc hc' => ?_
  have hlow := le_of_mem_block (by omega) hc
  have hhigh := le_of_mem_block hend hc'
  omega

/-- A block that starts behind another, or where it ends. -/
theorem disjoint_block_offset {k : ℕ} (hjk : j ≤ k) (hlt : k + i ≤ 2 ^ 61) :
    Disjoint (block a j) (block (a + 8 * .ofNat k) i) := by
  refine Set.disjoint_left.2 ?_
  rintro b ⟨x, hx, rfl⟩ ⟨y, hy, heq⟩
  rw [← offset_add] at heq
  have hxy := offset_injective (by omega) (by omega) heq
  omega

/-! ### Words -/

theorem holds_nil : Holds m a [] := fun _ _ h => by cases h

theorem holds_cons : Holds m a (w :: ws) ↔ m a = w ∧ Holds m (a + 8) ws := by
  constructor
  · intro h
    refine ⟨?_, fun i v hv => ?_⟩
    · rw [← offset_zero a]
      exact h 0 w rfl
    · rw [← offset_succ]
      exact h (i + 1) v hv
  · rintro ⟨hw, hws⟩ i v hv
    cases i with
    | zero =>
      rw [offset_zero, hw]
      exact Option.some.inj hv
    | succ i =>
      rw [offset_succ]
      exact hws i v hv

theorem holds_append : Holds m a (vs ++ ws) ↔ Holds m a vs ∧ Holds m (a + 8 * .ofNat vs.length) ws := by
  induction vs generalizing a with
  | nil =>
    rw [List.length_nil, offset_zero]
    exact (and_iff_right holds_nil).symm
  | cons v vs ih =>
    rw [List.length_cons, offset_succ, List.cons_append, holds_cons, holds_cons, ih, and_assoc]

/-- Only the words in the block matter. -/
theorem Holds.congr (h : Holds m a ws) (hsame : ∀ b ∈ block a ws.length, m' b = m b) : Holds m' a ws := by
  intro i w hw
  obtain ⟨hi, -⟩ := List.getElem?_eq_some_iff.1 hw
  rw [hsame _ ⟨i, hi, rfl⟩]
  exact h i w hw

/-! ### Stores of several words -/

theorem storeWords_of_notMem (hb : b ∉ block a ws.length) : storeWords m a ws b = m b := by
  induction ws generalizing m a with
  | nil => rfl
  | cons w ws ih =>
    rw [List.length_cons, block_succ, Set.mem_insert_iff, not_or] at hb
    rw [storeWords, ih hb.2, Function.update_of_ne hb.1]

theorem holds_storeWords (hlen : ws.length ≤ 2 ^ 61) : Holds (storeWords m a ws) a ws := by
  induction ws generalizing m a with
  | nil => exact holds_nil
  | cons w ws ih =>
    rw [List.length_cons] at hlen
    refine holds_cons.2 ⟨?_, ih (by omega)⟩
    rw [storeWords, storeWords_of_notMem (notMem_block_succ (by omega)), Function.update_self]

/-- The stores are determined by what they leave where. -/
theorem eq_storeWords (h : Holds m' a ws) (hlen : ws.length ≤ 2 ^ 61)
    (hout : ∀ b ∉ block a ws.length, m' b = m b) : m' = storeWords m a ws := by
  funext b
  by_cases hb : b ∈ block a ws.length
  · obtain ⟨i, hi, rfl⟩ := hb
    have hget := List.getElem?_eq_getElem hi
    rw [h i _ hget, holds_storeWords hlen i _ hget]
  · rw [hout b hb, storeWords_of_notMem hb]

/-- A block that is stored below others leaves them as they are. -/
theorem Holds.storeWords (h : Holds m (a + 8 * .ofNat vs.length) ws)
    (hlen : vs.length + ws.length ≤ 2 ^ 61) : Holds (Stack.storeWords m a vs) a (vs ++ ws) := by
  refine holds_append.2 ⟨holds_storeWords (by omega), h.congr fun b hb => storeWords_of_notMem ?_⟩
  rintro ⟨k, hk, rfl⟩
  obtain ⟨j, hj, heq⟩ := hb
  rw [← offset_add] at heq
  have := offset_injective (by omega) (by omega) heq
  omega

/-- A block that is stored below another makes one with it. -/
theorem storeWords_storeWords (hlen : vs.length + ws.length ≤ 2 ^ 61) :
    storeWords (storeWords m (a + 8 * .ofNat vs.length) ws) a vs = storeWords m a (vs ++ ws) := by
  refine eq_storeWords ((holds_storeWords (by omega)).storeWords hlen) (by simpa using hlen) ?_
  intro b hb
  rw [List.length_append] at hb
  rw [storeWords_of_notMem fun h => hb (block_mono (Nat.le_add_right _ _) h),
    storeWords_of_notMem fun h => hb (block_offset_subset le_rfl h)]

end Stack
