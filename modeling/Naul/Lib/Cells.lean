import Mathlib.Data.Set.Basic
import Mathlib.Tactic

/-!
# Memory as numbered cells

`Cells α` is a memory whose cells are numbered by naturals. It keeps, as a ghost, the list of the
cells stored to, so that "no store lies outside `S`" (`StoresIn S m m'`) can be said of a function
that stores; a cell outside `S` then also keeps its contents.

`fill`, `copy` and `storeList` are the three upward loops of C code: each stores one cell a turn, and
`copy` reads each cell after the stores of the turns before it. `copy_cell` says that copying
downward is nevertheless a move, also when source and destination overlap.
-/

/-- A memory with the ghost list of the cells stored to, the latest first. -/
structure Cells (α : Type*) where
  cell : ℕ → α
  stores : List ℕ

namespace Cells

variable {α : Type*}

def store (m : Cells α) (i : ℕ) (v : α) : Cells α := ⟨Function.update m.cell i v, i :: m.stores⟩

/-- Store `v` to `n` cells from `dst` upward. -/
def fill (m : Cells α) (dst : ℕ) (v : α) : ℕ → Cells α
  | 0 => m
  | n + 1 => fill (m.store dst v) (dst + 1) v n

/-- Copy `n` cells from `src` to `dst`, one at a time and upward. -/
def copy (m : Cells α) (src dst : ℕ) : ℕ → Cells α
  | 0 => m
  | n + 1 => copy (m.store dst (m.cell src)) (src + 1) (dst + 1) n

/-- Store the values of a list from `dst` upward. -/
def storeList (m : Cells α) (dst : ℕ) : List α → Cells α
  | [] => m
  | v :: vs => storeList (m.store dst v) (dst + 1) vs

/-- Every store made from `m` to `m'` is to a cell of `S`, and the other cells are as they were. -/
structure StoresIn (S : Set ℕ) (m m' : Cells α) : Prop where
  stores : ∃ new, m'.stores = new ++ m.stores ∧ ∀ i ∈ new, i ∈ S
  frame : ∀ i, i ∉ S → m'.cell i = m.cell i

/-- From `a` upward the memory has the values of a list. -/
def Has (m : Cells α) (a : ℕ) (vs : List α) : Prop := ∀ i v, vs[i]? = some v → m.cell (a + i) = v

/-- From `m` to `m'` the cells of `S` become `v`, and the others stay as they were. -/
structure Painted (S : Set ℕ) (v : α) (m m' : Cells α) : Prop where
  inside : ∀ i ∈ S, m'.cell i = v
  outside : ∀ i, i ∉ S → m'.cell i = m.cell i

variable {S T : Set ℕ} {m m' m'' : Cells α} {i j src dst n a : ℕ} {v : α} {us vs : List α}

/-! ### Contents -/

@[simp] theorem store_cell (m : Cells α) (i : ℕ) (v : α) (j : ℕ) :
    (m.store i v).cell j = if j = i then v else m.cell j := Function.update_apply ..

theorem fill_cell (m : Cells α) (dst : ℕ) (v : α) (n j : ℕ) :
    (m.fill dst v n).cell j = if dst ≤ j ∧ j < dst + n then v else m.cell j := by
  induction n generalizing m dst with
  | zero => rw [fill, if_neg (by omega)]
  | succ n ih =>
    rw [fill, ih, store_cell]
    by_cases hj : j = dst
    · rw [if_pos hj, ite_self, if_pos (by omega)]
    · rw [if_neg hj]
      exact if_congr (by omega) rfl rfl

/-- **An upward copy to lower cells is a move.** No cell is read after it has been stored to. -/
theorem copy_cell (m : Cells α) (h : dst ≤ src) (n j : ℕ) :
    (m.copy src dst n).cell j =
      if dst ≤ j ∧ j < dst + n then m.cell (src + (j - dst)) else m.cell j := by
  induction n generalizing m src dst with
  | zero => rw [copy, if_neg (by omega)]
  | succ n ih =>
    rw [copy, ih _ (by omega), store_cell, store_cell]
    by_cases hj : j = dst
    · rw [if_neg (by omega), if_pos hj, if_pos (by omega), hj, Nat.sub_self, Nat.add_zero]
    · rw [if_neg hj, if_neg (by omega : src + 1 + (j - (dst + 1)) ≠ dst)]
      by_cases hin : dst ≤ j ∧ j < dst + (n + 1)
      · rw [if_pos hin, if_pos (by omega)]
        congr 1
        omega
      · rw [if_neg hin, if_neg (by omega)]

theorem painted_of_empty (hS : ∀ i, i ∉ S) (v : α) (m : Cells α) : Painted S v m m :=
  ⟨fun i hi => absurd hi (hS i), fun _ _ => rfl⟩

theorem Painted.trans (h : Painted S v m m') (h' : Painted T v m' m'') :
    Painted (S ∪ T) v m m'' := by
  constructor
  · intro i hi
    by_cases hT : i ∈ T
    · exact h'.inside i hT
    · rw [h'.outside i hT]
      exact h.inside i (hi.resolve_right hT)
  · intro i hi
    rw [Set.mem_union, not_or] at hi
    rw [h'.outside i hi.2, h.outside i hi.1]

theorem Painted.congr (h : Painted S v m m') (hST : ∀ i, i ∈ S ↔ i ∈ T) : Painted T v m m' :=
  Set.ext hST ▸ h

theorem painted_store (m : Cells α) (i : ℕ) (v : α) : Painted {i} v m (m.store i v) := by
  constructor
  · rintro j rfl
    rw [store_cell, if_pos rfl]
  · intro j hj
    rw [store_cell, if_neg (fun h => hj (Set.mem_singleton_iff.2 h))]

/-! ### Stores -/

@[simp] theorem store_stores (m : Cells α) (i : ℕ) (v : α) : (m.store i v).stores = i :: m.stores :=
  rfl

theorem StoresIn.refl (S : Set ℕ) (m : Cells α) : StoresIn S m m := ⟨⟨[], rfl, by simp⟩, fun _ _ => rfl⟩

theorem StoresIn.trans (h : StoresIn S m m') (h' : StoresIn S m' m'') : StoresIn S m m'' := by
  obtain ⟨⟨new, hnew, hS⟩, hframe⟩ := h
  obtain ⟨⟨new', hnew', hS'⟩, hframe'⟩ := h'
  refine ⟨⟨new' ++ new, by rw [hnew', hnew, List.append_assoc], fun i hi => ?_⟩,
    fun i hi => (hframe' i hi).trans (hframe i hi)⟩
  rcases List.mem_append.1 hi with hi | hi
  · exact hS' i hi
  · exact hS i hi

theorem StoresIn.mono (h : StoresIn S m m') (hST : S ⊆ T) : StoresIn T m m' := by
  obtain ⟨⟨new, hnew, hS⟩, hframe⟩ := h
  exact ⟨⟨new, hnew, fun i hi => hST (hS i hi)⟩, fun i hi => hframe i fun hiS => hi (hST hiS)⟩

theorem storesIn_store (m : Cells α) (hi : i ∈ S) (v : α) : StoresIn S m (m.store i v) := by
  refine ⟨⟨[i], rfl, by simpa using hi⟩, fun j hj => ?_⟩
  rw [store_cell, if_neg]
  rintro rfl
  exact hj hi

theorem storesIn_fill (m : Cells α) (dst : ℕ) (v : α) (n : ℕ) :
    StoresIn (Set.Ico dst (dst + n)) m (m.fill dst v n) := by
  induction n generalizing m dst with
  | zero => exact .refl _ m
  | succ n ih =>
    refine (storesIn_store m ?_ v).trans ((ih (m.store dst v) (dst + 1)).mono ?_)
    · exact ⟨le_rfl, by omega⟩
    · exact Set.Ico_subset_Ico (by omega) (by omega)

theorem storesIn_copy (m : Cells α) (src dst n : ℕ) :
    StoresIn (Set.Ico dst (dst + n)) m (m.copy src dst n) := by
  induction n generalizing m src dst with
  | zero => exact .refl _ m
  | succ n ih =>
    refine (storesIn_store m ?_ _).trans ((ih (m.store dst _) (src + 1) (dst + 1)).mono ?_)
    · exact ⟨le_rfl, by omega⟩
    · exact Set.Ico_subset_Ico (by omega) (by omega)

/-- The cells `storeList` stores to. -/
theorem storeList_stores (m : Cells α) (dst : ℕ) (vs : List α) :
    (m.storeList dst vs).stores = (List.range' dst vs.length).reverse ++ m.stores := by
  induction vs generalizing m dst with
  | nil => rfl
  | cons v vs ih =>
    rw [storeList, ih, store_stores, List.length_cons, List.range'_succ, List.reverse_cons,
      List.append_assoc, List.singleton_append]

theorem storeList_cell (m : Cells α) (dst : ℕ) (vs : List α) (i : ℕ) :
    (m.storeList dst vs).cell (dst + i) = vs[i]?.getD (m.cell (dst + i)) := by
  induction vs generalizing m dst i with
  | nil => rfl
  | cons v vs ih =>
    cases i with
    | zero =>
      -- the later stores are above this cell
      have hbelow : ∀ (n : Cells α) (d : ℕ) (us : List α), dst < d →
          (n.storeList d us).cell dst = n.cell dst := by
        intro n d us hd
        induction us generalizing n d with
        | nil => rfl
        | cons u us ihus =>
          rw [storeList, ihus _ _ (by omega), store_cell, if_neg (by omega)]
      rw [Nat.add_zero, storeList, hbelow _ _ _ (Nat.lt_succ_self dst), store_cell, if_pos rfl]
      rfl
    | succ i =>
      rw [storeList, ← Nat.add_assoc, Nat.add_right_comm, ih, List.getElem?_cons_succ, store_cell,
        if_neg (by omega)]

theorem has_storeList (m : Cells α) (dst : ℕ) (vs : List α) : (m.storeList dst vs).Has dst vs := by
  intro i v hv
  rw [storeList_cell, hv, Option.getD_some]

/-- One more value is stored after those that are there. -/
theorem Has.append (h : m.Has a vs) (v : α) : (m.store (a + vs.length) v).Has a (vs ++ [v]) := by
  intro i w hw
  rw [store_cell]
  rcases Nat.lt_trichotomy i vs.length with hi | rfl | hi
  · rw [List.getElem?_append_left hi] at hw
    rw [if_neg (by omega)]
    exact h i w hw
  · rw [List.getElem?_concat_length, Option.some.injEq] at hw
    rw [if_pos rfl, hw]
  · rw [List.getElem?_eq_none (by simpa using hi)] at hw
    cases hw

theorem Has.initial (h : m.Has a vs) (hus : us <+: vs) : m.Has a us := by
  obtain ⟨ws, rfl⟩ := hus
  intro i v hv
  have hi := (List.getElem?_eq_some_iff.1 hv).1
  apply h i v
  rw [List.getElem?_append_left hi, hv]

theorem has_append : m.Has a (us ++ vs) ↔ m.Has a us ∧ m.Has (a + us.length) vs := by
  constructor
  · intro h
    refine ⟨h.initial (List.prefix_append us vs), fun i v hv => ?_⟩
    rw [Nat.add_assoc]
    apply h (us.length + i) v
    rw [List.getElem?_append_right (Nat.le_add_right _ _), Nat.add_sub_cancel_left, hv]
  · rintro ⟨hus, hvs⟩ i v hv
    by_cases hi : i < us.length
    · rw [List.getElem?_append_left hi] at hv
      exact hus i v hv
    · rw [List.getElem?_append_right (by omega)] at hv
      have hcell := hvs (i - us.length) v hv
      rwa [Nat.add_assoc, Nat.add_sub_cancel' (by omega)] at hcell

/-- Where a list has been stored the memory has its prefixes, and nothing else of their length. -/
theorem has_storeList_iff (hlength : us.length ≤ vs.length) :
    (m.storeList dst vs).Has dst us ↔ us <+: vs := by
  constructor
  · intro h
    rw [List.prefix_iff_getElem?]
    intro i hi
    have hcell := h i us[i] (List.getElem?_eq_getElem hi)
    rw [storeList_cell, List.getElem?_eq_getElem (hi.trans_le hlength), Option.getD_some] at hcell
    rw [List.getElem?_eq_getElem (hi.trans_le hlength), hcell]
  · exact (has_storeList m dst vs).initial

/-- What lies outside the cells stored to is still there, and nothing new. -/
theorem StoresIn.has_iff (h : StoresIn S m m') (hdisjoint : ∀ i, i < vs.length → a + i ∉ S) :
    m'.Has a vs ↔ m.Has a vs := by
  have hcell : ∀ i v, vs[i]? = some v → m'.cell (a + i) = m.cell (a + i) := by
    intro i v hv
    exact h.frame _ (hdisjoint i (List.getElem?_eq_some_iff.1 hv).1)
  constructor
  · intro hhas i v hv
    rw [← hcell i v hv, hhas i v hv]
  · intro hhas i v hv
    rw [hcell i v hv, hhas i v hv]

theorem storeList_append (m : Cells α) (dst : ℕ) (us vs : List α) :
    m.storeList dst (us ++ vs) = (m.storeList dst us).storeList (dst + us.length) vs := by
  induction us generalizing m dst with
  | nil => rfl
  | cons u us ih =>
    rw [List.cons_append, storeList, ih, storeList, List.length_cons, Nat.add_assoc, Nat.add_comm 1]

theorem storesIn_storeList (m : Cells α) (dst : ℕ) (vs : List α) :
    StoresIn (Set.Ico dst (dst + vs.length)) m (m.storeList dst vs) := by
  induction vs generalizing m dst with
  | nil => exact .refl _ m
  | cons v vs ih =>
    rw [List.length_cons]
    refine (storesIn_store m ?_ v).trans ((ih (m.store dst v) (dst + 1)).mono ?_)
    · exact ⟨le_rfl, by omega⟩
    · exact Set.Ico_subset_Ico (by omega) (by omega)

/-- A block of stores within `S` is a block within `S`. -/
theorem storeList_subset {vs : List α} (h : StoresIn S m (m.storeList dst vs)) :
    Set.Ico dst (dst + vs.length) ⊆ S := by
  obtain ⟨⟨new, hnew, hS⟩, -⟩ := h
  rw [storeList_stores, List.append_cancel_right_eq] at hnew
  intro i hi
  refine hS i ?_
  rw [← hnew, List.mem_reverse, List.mem_range'_1]
  exact hi

end Cells
