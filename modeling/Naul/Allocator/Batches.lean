import Naul.Allocator.Update
import Naul.Lib.FirstMatch

/-!
# Several calls together

What an object is made of is allocated by several calls, and given back by several calls of
`unallocate`, each with the start of a record only. `Adds` says which records allocations have added;
`unallocateAll_iff` reads a list of calls of `unallocate` as the removal of first matches.
-/

namespace Naul
namespace Allocator

open FirstMatch

/-- The slots that are marked present, whether they have been written or not. -/
def present (t : Allocator) : Set ℕ := {i | (t.allocated i).present = true}

/-- The key that `unallocate` compares. -/
def startOf (t : Allocator) (i : ℕ) : UInt64 := (t.allocated i).start

/-- The record of `amount` bytes at `p`. -/
def block (p amount : UInt64) : Allocation := ⟨true, p, p + amount⟩

/-- `unallocate` of each address in turn. -/
def unallocateAll (fuel : ℕ) (t : Allocator) (pointers : List UInt64) : Option Allocator :=
  Trace.run (fun t p => t.unallocate fuel p) t pointers

/-- `t'` is `t` with new records, which are the multiset `rs`. -/
structure Adds (t t' : Allocator) (rs : Multiset Allocation) : Prop where
  counted : Counted t'
  subset : t.live ⊆ t'.live
  allocated_eq : ∀ i ∈ t.live, t'.allocated i = t.allocated i
  records : (t'.live \ t.live).val.map t'.allocated = rs

section Adding

variable {t t' t'' : Allocator} {rs rs' : Multiset Allocation} {fuel slot : ℕ} {amount value : UInt64}

theorem live_subset_present (t : Allocator) : (t.live : Set ℕ) ⊆ t.present :=
  fun _ hi => (mem_live.1 hi).2

theorem Recorded.adds {r : Allocation} (h : Recorded t slot r t') (ht : Counted t) :
    Adds t t' {r} where
  counted := h.counted ht
  subset := by rw [h.live_eq]; exact Finset.subset_insert slot t.live
  allocated_eq := fun i hi => h.allocated_of_live hi
  records := by
    have hnew : t'.live \ t.live = {slot} := by
      rw [h.live_eq, Finset.insert_sdiff_of_notMem _ h.fresh, Finset.sdiff_self]
      rfl
    rw [hnew, Finset.singleton_val, Multiset.map_singleton, h.allocated_slot]

theorem Adds.trans (h : Adds t t' rs) (h' : Adds t' t'' rs') : Adds t t'' (rs' + rs) where
  counted := h'.counted
  subset := h.subset.trans h'.subset
  allocated_eq := fun i hi => (h'.allocated_eq i (h.subset hi)).trans (h.allocated_eq i hi)
  records := by
    have hsplit : t''.live \ t.live =
        (t''.live \ t'.live).disjUnion (t'.live \ t.live)
          (Finset.disjoint_of_subset_right Finset.sdiff_subset Finset.sdiff_disjoint) := by
      rw [Finset.disjUnion_eq_union]
      exact (Finset.sdiff_union_sdiff_cancel h'.subset h.subset).symm
    have hsame : (t'.live \ t.live).val.map t''.allocated = (t'.live \ t.live).val.map t'.allocated :=
      Multiset.map_congr rfl fun i hi =>
        h'.allocated_eq i (Finset.sdiff_subset (Finset.mem_def.2 hi))
    rw [hsplit, Finset.disjUnion_val, Multiset.map_add, h'.records, hsame, h.records]

/-- `allocate` adds its block, at an address where no record is in the way. -/
theorem allocate_adds (ht : Counted t) (h : t.allocate fuel amount = some (value, t')) :
    Adds t t' {block value amount} ∧ ∀ i ∈ t.live, Clear value amount (t.allocated i) := by
  obtain ⟨slot, hfind, -, hrec⟩ := reserve_recorded ht h
  exact ⟨hrec.adds ht, findAddress_clear ht hfind⟩

/-- Where a block begins, no other can begin, unless one of the two is empty or goes beyond the last
address. -/
theorem not_clear_block {p a b : UInt64} (ha : 1 ≤ a.toNat) (hb : 1 ≤ b.toNat)
    (hpa : p.toNat + a.toNat < 2 ^ 64) (hpb : p.toNat + b.toNat < 2 ^ 64) :
    ¬ Clear p a (block p b) := by
  rw [Clear, block, UInt64.le_iff_toNat_le, UInt64.le_iff_toNat_le, UInt64.toNat_add, UInt64.toNat_add,
    Nat.mod_eq_of_lt hpa, Nat.mod_eq_of_lt hpb]
  dsimp only
  omega

end Adding

/-! ### Giving back -/

section Removing

variable {t t' : Allocator} {fuel i : ℕ} {pointer : UInt64} {pointers : List UInt64} {own : Finset ℕ}

theorem present_release (t : Allocator) (i : ℕ) : (t.release i).present = t.present \ {i} := by
  ext j
  rw [Set.mem_sdiff, Set.mem_singleton_iff]
  by_cases hj : j = i
  · simp [present, release, store, hj]
  · simp [present, release, store, hj]

theorem startOf_release (t : Allocator) (i : ℕ) : (t.release i).startOf = t.startOf := by
  funext j
  by_cases hj : j = i
  · simp [startOf, release, store, hj]
  · simp [startOf, release, store, hj]

/-- `unallocate` returns when a record that is marked present has the start, and it clears the first
one. -/
theorem unallocate_iff :
    (∃ n, t.unallocate n pointer = some t') ↔
      ∃ i, IsFirst t.startOf t.present pointer i ∧ t' = t.release i := by
  have hfirst : ∀ {n i}, t.matchSlot n pointer = some i → IsFirst t.startOf t.present pointer i := by
    intro n i h
    obtain ⟨hi, hbefore⟩ := matchSlot_spec h
    refine ⟨hi, fun j hj => ?_⟩
    by_contra hlt
    exact hbefore j (not_le.1 hlt) hj.1 hj.2
  constructor
  · rintro ⟨n, h⟩
    simp only [unallocate, bind, Option.bind_eq_some_iff, pure, Option.some.injEq] at h
    obtain ⟨i, hi, rfl⟩ := h
    exact ⟨i, hfirst hi, rfl⟩
  · rintro ⟨i, hi, rfl⟩
    obtain ⟨n, j, hj⟩ := matchSlot_total (t := t) (i := i) hi.1.1
    obtain rfl : (t.allocated i).start = pointer := hi.1.2
    obtain rfl := (hfirst hj).unique hi
    exact ⟨n, by simp [unallocate, hj]⟩

theorem unallocateAll_mono {m n : ℕ} (hmn : m ≤ n) (h : t.unallocateAll m pointers = some t') :
    t.unallocateAll n pointers = some t' :=
  have hmono : Trace.FuelMono fun n (t : Allocator) p => t.unallocate n p :=
    fun _ _ _ _ _ hmn h => unallocate_mono hmn h
  Trace.run_mono hmono hmn h

/-- **The calls take out the first matches**, one after the other. -/
theorem unallocateAll_iff {Q : Set ℕ} :
    (∃ n t', t.unallocateAll n pointers = some t' ∧ t'.present = Q) ↔
      Removes t.startOf t.present pointers Q := by
  induction pointers generalizing t with
  | nil =>
    rw [removes_nil_iff]
    constructor
    · rintro ⟨n, t', h, rfl⟩
      rw [← Option.some.inj h]
    · rintro rfl
      exact ⟨0, t, rfl, rfl⟩
  | cons pointer pointers ih =>
    rw [removes_cons_iff]
    constructor
    · rintro ⟨n, t', h, hQ⟩
      rw [unallocateAll, Trace.run_cons] at h
      obtain ⟨t₁, hstep, hrest⟩ := Option.bind_eq_some_iff.1 h
      obtain ⟨i, hi, rfl⟩ := unallocate_iff.1 ⟨n, hstep⟩
      refine ⟨i, hi, ?_⟩
      rw [← present_release, ← startOf_release t i, ← ih]
      exact ⟨n, t', hrest, hQ⟩
    · rintro ⟨i, hi, hrest⟩
      rw [← present_release, ← startOf_release t i, ← ih] at hrest
      obtain ⟨n, t', hrest, hQ⟩ := hrest
      obtain ⟨m, hstep⟩ := unallocate_iff.2 ⟨i, hi, rfl⟩
      refine ⟨max m n, t', ?_, hQ⟩
      rw [unallocateAll, Trace.run_cons, unallocate_mono (le_max_left m n) hstep, Option.bind_some]
      exact unallocateAll_mono (le_max_right m n) hrest

/-- Calls that take out records of `own` only leave the others as they are. -/
theorem unallocateAll_frame (ht : Counted t) (hsub : own ⊆ t.live)
    (h : t.unallocateAll fuel pointers = some t') (hpresent : t'.present = t.present \ own) :
    Counted t' ∧ t'.live = t.live \ own ∧ ∀ i ∉ own, t'.allocated i = t.allocated i := by
  induction pointers generalizing t own with
  | nil =>
    obtain rfl := Option.some.inj h
    have hempty : own = ∅ := by
      rw [Finset.eq_empty_iff_forall_notMem]
      intro i hi
      have hsurvives : i ∈ t.present \ (own : Set ℕ) := hpresent ▸ live_subset_present t (hsub hi)
      exact hsurvives.2 hi
    subst hempty
    exact ⟨ht, (Finset.sdiff_empty).symm, fun i _ => rfl⟩
  | cons pointer pointers ih =>
    rw [unallocateAll, Trace.run_cons] at h
    obtain ⟨t₁, hstep, hrest⟩ := Option.bind_eq_some_iff.1 h
    obtain ⟨i, hi, rfl⟩ := unallocate_iff.1 ⟨fuel, hstep⟩
    have hown : i ∈ own := by
      by_contra hi'
      have hgone := (unallocateAll_iff.1 ⟨fuel, t', hrest, rfl⟩).subset
      rw [hpresent, present_release] at hgone
      exact (hgone ⟨hi.1.1, hi'⟩).2 rfl
    have hrel := released_release (hsub hown)
    have hsub' : own.erase i ⊆ (t.release i).live := by
      rw [hrel.live_eq]
      exact Finset.erase_subset_erase i hsub
    have hpresent' : t'.present = (t.release i).present \ (own.erase i : Finset ℕ) := by
      rw [hpresent, present_release, sdiff_sdiff_erase hown]
    obtain ⟨hcounted, hlive, hsame⟩ := ih (hrel.counted ht) hsub' hrest hpresent'
    refine ⟨hcounted, ?_, fun j hj => ?_⟩
    · ext j
      rw [hlive, hrel.live_eq, Finset.mem_sdiff, Finset.mem_sdiff, Finset.mem_erase, Finset.mem_erase]
      grind
    · have hji : j ≠ i := fun hji => hj (hji ▸ hown)
      rw [hsame j fun hj' => hj (Finset.mem_of_mem_erase hj'), hrel.allocated_of_ne j hji]

end Removing

end Allocator
end Naul
