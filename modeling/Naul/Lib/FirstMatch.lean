import Mathlib.Data.Finset.Card
import Mathlib.Data.Finset.Sort
import Mathlib.Order.Bounds.Basic

/-!
# Removing the first match

Positions in a well-founded order carry keys. `Removes key P ks Q` says that `Q` is left of the set `P`
when for each of the keys `ks` in turn the first position with that key is taken out.

Who wants to take out the set `own` in this way needs one call for each of its positions, and no other
position of `P` may come before one of `own` with the same key (`Foremost`): `removes_sdiff_iff`.
-/

namespace FirstMatch

variable {ι κ : Type*} [LinearOrder ι] {key : ι → κ} {P Q Q' : Set ι} {k : κ} {ks : List κ}
  {own : Finset ι} {i : ι}

/-- The first position of `P` with the key `k`. -/
def IsFirst (key : ι → κ) (P : Set ι) (k : κ) (i : ι) : Prop := IsLeast {j | j ∈ P ∧ key j = k} i

/-- Take out the first position with each of the keys, one after the other. -/
inductive Removes (key : ι → κ) : Set ι → List κ → Set ι → Prop
  | nil (P : Set ι) : Removes key P [] P
  | cons {P Q : Set ι} {k : κ} {ks : List κ} {i : ι} (h : IsFirst key P k i)
      (hrest : Removes key (P \ {i}) ks Q) : Removes key P (k :: ks) Q

/-- No other position of `P` comes before one of `own` with the same key. -/
def Foremost (key : ι → κ) (P : Set ι) (own : Finset ι) : Prop :=
  ∀ i ∈ own, ∀ j ∈ P, key j = key i → j < i → j ∈ own

theorem removes_nil_iff : Removes key P [] Q ↔ Q = P := by
  constructor
  · rintro ⟨⟩
    rfl
  · rintro rfl
    exact .nil Q

theorem removes_cons_iff :
    Removes key P (k :: ks) Q ↔ ∃ i, IsFirst key P k i ∧ Removes key (P \ {i}) ks Q := by
  constructor
  · rintro (_ | ⟨hi, hrest⟩)
    exact ⟨_, hi, hrest⟩
  · rintro ⟨i, hi, hrest⟩
    exact .cons hi hrest

theorem Removes.subset (h : Removes key P ks Q) : Q ⊆ P := by
  induction h with
  | nil P => exact subset_rfl
  | cons _ _ ih => exact ih.trans Set.sdiff_subset

theorem sdiff_sdiff_erase (hi : i ∈ own) : (P \ {i}) \ ↑(own.erase i) = P \ (own : Set ι) := by
  ext j
  simp only [Set.mem_sdiff, Set.mem_singleton_iff, Finset.mem_coe, Finset.mem_erase]
  grind

/-- What has been taken out is one position for each key, and they come first. -/
theorem Removes.foremost (h : Removes key P ks Q) (hsub : ↑own ⊆ P) (hQ : Q = P \ own) :
    own.card = ks.length ∧ Foremost key P own := by
  induction h generalizing own with
  | nil P =>
    have hempty : own = ∅ := by
      rw [Finset.eq_empty_iff_forall_notMem]
      intro i hi
      have hP : i ∈ P \ (own : Set ι) := hQ ▸ hsub hi
      exact hP.2 hi
    subst hempty
    exact ⟨rfl, fun i hi => absurd hi (Finset.notMem_empty i)⟩
  | @cons P Q k ks i hfirst hrest ih =>
    have hi : i ∈ own := by
      by_contra hi
      have hQi : i ∈ Q := hQ ▸ ⟨hfirst.1.1, hi⟩
      exact (hrest.subset hQi).2 rfl
    have hsub' : ↑(own.erase i) ⊆ P \ {i} := fun j hj =>
      ⟨hsub (Finset.mem_of_mem_erase hj), Finset.ne_of_mem_erase hj⟩
    obtain ⟨hcard, hforemost⟩ := ih hsub' (hQ.trans (sdiff_sdiff_erase hi).symm)
    refine ⟨by rw [List.length_cons, ← hcard, Finset.card_erase_add_one hi], fun a ha j hj hkey hlt => ?_⟩
    by_cases hji : j = i
    · exact hji ▸ hi
    · have hai : a ≠ i := by
        rintro rfl
        exact absurd (hfirst.2 ⟨hj, hkey.trans hfirst.1.2⟩) (not_le.2 hlt)
      exact Finset.mem_of_mem_erase
        (hforemost a (Finset.mem_erase.2 ⟨hai, ha⟩) j ⟨hj, hji⟩ hkey hlt)

/-- A set whose positions come first is taken out by its keys. -/
theorem Foremost.removes [WellFoundedLT ι] (h : Foremost key P own) (hsub : ↑own ⊆ P)
    (hkeys : own.val.map key = ks) : Removes key P ks (P \ own) := by
  induction ks generalizing P own with
  | nil =>
    have hempty : own = ∅ := Finset.val_eq_zero.1 (Multiset.map_eq_zero.1 hkeys)
    rw [hempty, Finset.coe_empty, Set.sdiff_empty]
    exact .nil P
  | cons k ks ih =>
    obtain ⟨a, ha, hkey⟩ : ∃ a ∈ own.val, key a = k := by
      rw [← Multiset.mem_map, hkeys]
      exact Multiset.mem_cons_self k ↑ks
    obtain ⟨m, hm, hmin⟩ := WellFounded.has_min (wellFounded_lt (α := ι)) {j | j ∈ P ∧ key j = k}
      ⟨a, hsub ha, hkey⟩
    have hle : ∀ j, j ∈ P ∧ key j = k → m ≤ j := fun j hj => not_lt.1 (hmin j hj)
    -- the first match is at the latest the position of `own` itself
    have hown : m ∈ own := by
      rcases (hle a ⟨hsub ha, hkey⟩).lt_or_eq with hlt | rfl
      · exact h a ha m hm.1 (hm.2.trans hkey.symm) hlt
      · exact ha
    refine .cons (i := m) ⟨hm, fun j hj => hle j hj⟩ ?_
    rw [← sdiff_sdiff_erase hown]
    refine ih (fun b hb j hj hjb hlt => ?_) (fun j hj => ?_) ?_
    · exact Finset.mem_erase.2 ⟨hj.2, h b (Finset.mem_of_mem_erase hb) j hj.1 hjb hlt⟩
    · exact ⟨hsub (Finset.mem_of_mem_erase hj), Finset.ne_of_mem_erase hj⟩
    · have hval : m ::ₘ (own.erase m).val = own.val := Multiset.cons_erase hown
      rw [← hval, Multiset.map_cons, hm.2, ← Multiset.cons_coe] at hkeys
      exact (Multiset.cons_inj_right k).1 hkeys

/-- **When exactly `own` is taken out.** -/
theorem removes_sdiff_iff [WellFoundedLT ι] (hsub : ↑own ⊆ P) (hkeys : own.val.map key ≤ ks) :
    Removes key P ks (P \ own) ↔ own.card = ks.length ∧ Foremost key P own := by
  constructor
  · exact fun h => h.foremost hsub rfl
  · rintro ⟨hcard, h⟩
    refine h.removes hsub (Multiset.eq_of_le_of_card_le hkeys ?_)
    rw [Multiset.card_map, Multiset.coe_card, ← hcard]
    rfl

end FirstMatch
