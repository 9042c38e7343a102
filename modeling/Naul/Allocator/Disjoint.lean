import Naul.Allocator.Update
import Mathlib

/-!
# Present records never overlap

The boot code marks the unusable regions, and from then on threads allocate and free. `Disjointed`
is the invariant of the table over such a run: the counter is right, no two present records
overlap, and every record is a marked region or lies at or above `memoryStart`. It is preserved by
recording a block that is clear of the table (`Disjointed.recorded`) and by clearing any record
(`Disjointed.released`), so `run_disjoint` needs nothing else about the loops.
-/

namespace Naul
namespace Allocator

/-- A call of the allocator. -/
inductive Call
  | allocate (amount : UInt64)
  | allocateAligned (amount alignment : UInt64)
  | unallocate (pointer : UInt64)

/-- The table after a call. -/
def Call.step (fuel : ℕ) (t : Allocator) : Call → Option Allocator
  | .allocate amount => (t.allocate fuel amount).map Prod.snd
  | .allocateAligned amount alignment => (t.allocateAligned fuel amount alignment).map Prod.snd
  | .unallocate pointer => t.unallocate fuel pointer

/-- The calls considered: no address computed on the way exceeds `2 ^ 64 - 1`, an alignment is
positive, and what is freed is the start of a present record. -/
def Call.Permitted (t : Allocator) : Call → Prop
  | .allocate amount => SumsFit t amount plain ∧ NextFits t amount plain
  | .allocateAligned amount alignment =>
    1 ≤ alignment ∧ SumsFit t amount (aligned alignment) ∧ NextFits t amount (aligned alignment)
  | .unallocate pointer => ∃ i ∈ t.live, (t.allocated i).start = pointer

/-- `markUnusable` on each region in turn. -/
def markAll (fuel : ℕ) (t : Allocator) (regions : List (UInt64 × UInt64)) : Option Allocator :=
  Trace.run (fun t r => t.markUnusable fuel r.1 r.2) t regions

/-- Two records do not overlap. -/
def Apart (r s : Allocation) : Prop := r.end' ≤ s.start ∨ s.end' ≤ r.start

instance decidableApart (r s : Allocation) : Decidable (Apart r s) := inferInstanceAs (Decidable (_ ∨ _))

theorem Apart.symm {r s : Allocation} (h : Apart r s) : Apart s r := Or.symm h

theorem Apart.disjoint {r s : Allocation} (h : Apart r s) : Disjoint r.range s.range := by
  rw [Set.disjoint_left]
  rintro a ⟨h1, h2⟩ ⟨h3, h4⟩
  rcases h with h | h <;> rw [UInt64.le_iff_toNat_le] at h <;> omega

/-- Two non-empty disjoint ranges are apart. -/
theorem apart_of_disjoint {r s : Allocation} (hr : r.start < r.end') (hs : s.start < s.end')
    (h : Disjoint r.range s.range) : Apart r s := by
  rw [UInt64.lt_iff_toNat_lt] at hr hs
  rw [Allocation.range, Allocation.range, Set.Ico_disjoint_Ico] at h
  simp only [Apart, UInt64.le_iff_toNat_le]
  omega

/-- The invariant of the table after the regions in `marked` have been marked. -/
structure Disjointed (marked : List (UInt64 × UInt64)) (t : Allocator) : Prop where
  counted : Counted t
  apart : ∀ i ∈ t.live, ∀ j ∈ t.live, i ≠ j → Apart (t.allocated i) (t.allocated j)
  origin : ∀ i ∈ t.live, ((t.allocated i).start, (t.allocated i).end') ∈ marked ∨
    memoryStart ≤ (t.allocated i).start

section Steps

variable {marked : List (UInt64 × UInt64)} {t t' : Allocator} {slot fuel : ℕ}

theorem disjointed_init (memory : ℕ → Allocation) : Disjointed [] (initAllocator memory) where
  counted := counted_initAllocator memory
  apart := by simp
  origin := by simp

theorem Disjointed.mono {marked' : List (UInt64 × UInt64)} (h : Disjointed marked t)
    (hsub : marked ⊆ marked') : Disjointed marked' t :=
  { h with origin := fun i hi => (h.origin i hi).imp_left fun hm => hsub hm }

/-- Recording a block that is apart from every present record keeps the records apart. -/
theorem Disjointed.recorded {r : Allocation} (h : Disjointed marked t) (hrec : Recorded t slot r t')
    (hapart : ∀ i ∈ t.live, Apart r (t.allocated i))
    (horigin : (r.start, r.end') ∈ marked ∨ memoryStart ≤ r.start) : Disjointed marked t' where
  counted := hrec.counted h.counted
  apart := by
    intro i hi j hj hij
    rw [hrec.live_eq, Finset.mem_insert] at hi hj
    rcases hi with rfl | hi <;> rcases hj with rfl | hj
    · exact absurd rfl hij
    · rw [hrec.allocated_slot, hrec.allocated_of_live hj]
      exact hapart j hj
    · rw [hrec.allocated_slot, hrec.allocated_of_live hi]
      exact (hapart i hi).symm
    · rw [hrec.allocated_of_live hi, hrec.allocated_of_live hj]
      exact h.apart i hi j hj hij
  origin := by
    intro i hi
    rw [hrec.live_eq, Finset.mem_insert] at hi
    rcases hi with rfl | hi
    · rw [hrec.allocated_slot]
      exact horigin
    · rw [hrec.allocated_of_live hi]
      exact h.origin i hi

theorem Disjointed.released (h : Disjointed marked t) (hrel : Released t slot t') :
    Disjointed marked t' := by
  have hmem : ∀ i ∈ t'.live, i ∈ t.live ∧ t'.allocated i = t.allocated i := by
    intro i hi
    rw [hrel.live_eq, Finset.mem_erase] at hi
    exact ⟨hi.2, hrel.allocated_of_ne i hi.1⟩
  refine ⟨hrel.counted h.counted, fun i hi j hj hij => ?_, fun i hi => ?_⟩
  · rw [(hmem i hi).2, (hmem j hj).2]
    exact h.apart i (hmem i hi).1 j (hmem j hj).1 hij
  · rw [(hmem i hi).2]
    exact h.origin i (hmem i hi).1

theorem Disjointed.markUnusable {r : UInt64 × UInt64} (h : Disjointed marked t)
    (hapart : ∀ i ∈ t.live, Apart ⟨true, r.1, r.2⟩ (t.allocated i))
    (hstep : t.markUnusable fuel r.1 r.2 = some t') : Disjointed (marked ++ [r]) t' := by
  obtain ⟨slot, hrec⟩ := markUnusable_recorded h.counted hstep
  exact (h.mono (by simp)).recorded hrec hapart (.inl (by simp))

theorem Disjointed.reserve {amount value : UInt64} {p : Placement} (h : Disjointed marked t)
    (hvalue : memoryStart ≤ value) (hstep : t.reserve fuel amount p = some (value, t')) :
    Disjointed marked t' := by
  obtain ⟨slot, hfind, -, hrec⟩ := reserve_recorded h.counted hstep
  exact h.recorded hrec (findAddress_clear h.counted hfind) (.inr hvalue)

end Steps

/-! ### Results -/

section Results

variable {t t' : Allocator} {fuel : ℕ} {amount alignment value : UInt64}

theorem memoryStart_le_allocate (h : t.allocate fuel amount = some (value, t')) (ht : Counted t) :
    memoryStart ≤ value := by
  obtain ⟨slot, hfind, -, -⟩ := reserve_recorded ht h
  refine findAddress_of_next (Q := fun v => memoryStart ≤ v) (nextFits_plain t amount)
    (UInt64.le_refl _) (fun v e hv hlt _ => ?_) hfind
  exact UInt64.le_of_lt (UInt64.lt_of_le_of_lt hv hlt)

theorem allocateAligned_value (ha : 1 ≤ alignment) (hfits : NextFits t amount (aligned alignment))
    (h : t.allocateAligned fuel amount alignment = some (value, t')) (ht : Counted t) :
    memoryStart ≤ value ∧ alignment.toNat ∣ value.toNat := by
  obtain ⟨slot, hfind, -, -⟩ := reserve_recorded ht h
  refine findAddress_of_next (Q := fun v => memoryStart ≤ v ∧ alignment.toNat ∣ v.toNat) hfits
    ⟨memoryStart_le_first ha, dvd_alignUp (first_fits ha) ha⟩ (fun v e hv hlt hsafe => ⟨?_, ?_⟩) hfind
  · exact UInt64.le_trans (UInt64.le_of_lt (UInt64.lt_of_le_of_lt hv.1 hlt))
      (aligned_advances alignment e hsafe)
  · exact dvd_alignUp hsafe ha

end Results

/-! ### Runs -/

section Runs

variable {t t₀ : Allocator} {fuel : ℕ}

theorem Disjointed.step {marked : List (UInt64 × UInt64)} {t' : Allocator} {c : Call}
    (h : Disjointed marked t) (hc : c.Permitted t) (hstep : c.step fuel t = some t') :
    Disjointed marked t' := by
  cases c with
  | allocate amount =>
    obtain ⟨⟨value, t''⟩, hres, rfl⟩ := Option.map_eq_some_iff.1 hstep
    exact h.reserve (memoryStart_le_allocate hres h.counted) hres
  | allocateAligned amount alignment =>
    obtain ⟨⟨value, t''⟩, hres, rfl⟩ := Option.map_eq_some_iff.1 hstep
    exact h.reserve (allocateAligned_value hc.1 hc.2.2 hres h.counted).1 hres
  | unallocate pointer =>
    obtain ⟨i, hi, hstart⟩ := hc
    obtain ⟨slot, hrel, -, -⟩ := unallocate_released hi hstart hstep
    exact h.released hrel

/-- Marking pairwise disjoint non-empty regions. The regions marked so far are exactly the present
records. -/
theorem disjointed_markAll (marked : List (UInt64 × UInt64)) {regions : List (UInt64 × UInt64)}
    (hne : ∀ r ∈ marked ++ regions, r.1 < r.2)
    (hdis : (marked ++ regions).Pairwise fun r s =>
      Disjoint (Set.Ico r.1.toNat r.2.toNat) (Set.Ico s.1.toNat s.2.toNat))
    (h : Disjointed marked t) (hmarked : ∀ i ∈ t.live, ((t.allocated i).start, (t.allocated i).end') ∈ marked)
    (hrun : t.markAll fuel regions = some t₀) : Disjointed (marked ++ regions) t₀ := by
  induction regions generalizing marked t with
  | nil =>
    rw [markAll, Trace.run_nil, Option.some.injEq] at hrun
    rw [List.append_nil]
    exact hrun ▸ h
  | cons r rest ih =>
    rw [markAll, Trace.run_cons] at hrun
    obtain ⟨t', hstep, hrest⟩ := Option.bind_eq_some_iff.1 hrun
    have hr : r.1 < r.2 := hne r (by simp)
    have hapart : ∀ i ∈ t.live, Apart ⟨true, r.1, r.2⟩ (t.allocated i) := by
      intro i hi
      have hm := hmarked i hi
      have hd := (List.pairwise_append.1 hdis).2.2 _ hm r List.mem_cons_self
      exact (apart_of_disjoint (r := t.allocated i) (s := ⟨true, r.1, r.2⟩)
        (hne _ (List.mem_append_left _ hm)) hr hd).symm
    rw [List.append_cons] at hne hdis ⊢
    obtain ⟨slot, hrec⟩ := markUnusable_recorded h.counted hstep
    refine ih (marked ++ [r]) hne hdis (h.markUnusable hapart hstep) (fun i hi => ?_) hrest
    rw [hrec.live_eq, Finset.mem_insert] at hi
    rcases hi with rfl | hi
    · rw [hrec.allocated_slot]
      simp
    · rw [hrec.allocated_of_live hi]
      exact List.mem_append_left _ (hmarked i hi)

/-- **Allocator disjointness.** Over any memory, after marking pairwise disjoint non-empty regions
and any permitted calls: the counter is the number of present records, their ranges are pairwise
disjoint, every record that is not a marked region starts at or above `memoryStart`, as every result
does, and every result of `allocateAligned` is a multiple of its alignment. -/
theorem run_disjoint {memory : ℕ → Allocation} {regions : List (UInt64 × UInt64)}
    {calls : List Call} (hne : ∀ r ∈ regions, r.1 < r.2)
    (hdis : regions.Pairwise fun r s =>
      Disjoint (Set.Ico r.1.toNat r.2.toNat) (Set.Ico s.1.toNat s.2.toNat))
    (hmark : (initAllocator memory).markAll fuel regions = some t₀)
    (hcalls : Trace.Along (Call.step fuel) Call.Permitted t₀ calls)
    (hrun : Trace.run (Call.step fuel) t₀ calls = some t) :
    t.allocations = t.live.card ∧
    (t.live : Set ℕ).Pairwise (fun i j => Disjoint (t.allocated i).range (t.allocated j).range) ∧
    (∀ i ∈ t.live, ((t.allocated i).start, (t.allocated i).end') ∈ regions ∨
      memoryStart ≤ (t.allocated i).start) ∧
    (∀ amount value t', (Call.allocate amount).Permitted t →
      t.allocate fuel amount = some (value, t') → memoryStart ≤ value) ∧
    (∀ amount alignment value t', (Call.allocateAligned amount alignment).Permitted t →
      t.allocateAligned fuel amount alignment = some (value, t') →
      memoryStart ≤ value ∧ alignment.toNat ∣ value.toNat) := by
  have h₀ : Disjointed regions t₀ :=
    disjointed_markAll [] hne hdis (disjointed_init memory) (by simp) hmark
  have h : Disjointed regions t :=
    Trace.run_invariant_along (fun t c t' ht hc hstep => ht.step hc hstep) h₀ hcalls hrun
  refine ⟨h.counted, fun i hi j hj hij => ?_, h.origin, fun amount value t' _ hres => ?_,
    fun amount alignment value t' hc hres => ?_⟩
  · exact (h.apart i hi j hj hij).disjoint
  · exact memoryStart_le_allocate hres h.counted
  · exact allocateAligned_value hc.1 hc.2.2 hres h.counted

/-- A boot with one unusable region, over memory that reads as present records, then one allocation
and the freeing of its block. -/
theorem run_disjoint_boot :
    ∃ t₀ t, (initAllocator fun _ => ⟨true, 7, 9⟩).markAll 9 [(0x1000000, 0x1002000)] = some t₀ ∧
      Trace.run (Call.step 9) t₀ [.allocate 16, .unallocate 0x1002000] = some t ∧
      t.allocations = t.live.card ∧
      (t.live : Set ℕ).Pairwise fun i j =>
        Disjoint (t.allocated i).range (t.allocated j).range := by
  refine ⟨_, _, rfl, rfl, ?_⟩
  have hne : (0x1000000 : UInt64) < 0x1002000 := by decide
  have h := @run_disjoint _ _ 9 (fun _ => ⟨true, 7, 9⟩) [(0x1000000, 0x1002000)]
    [.allocate 16, .unallocate 0x1002000] (List.forall_mem_singleton.2 hne) (List.pairwise_singleton _ _) rfl ?_
    rfl
  · exact ⟨h.1, h.2.1⟩
  · refine ⟨⟨@sumsFit_of_trail _ 9 _ _ _ rfl (by decide), nextFits_plain _ _⟩, fun t ht => ?_⟩
    cases ht
    exact ⟨⟨1, by decide, rfl⟩, fun t ht => trivial⟩

/-- A permitted call returns. -/
theorem permitted_returns {c : Call} (ht : Counted t) (hc : c.Permitted t) :
    ∃ fuel t', c.step fuel t = some t' := by
  cases c with
  | allocate amount =>
    obtain ⟨fuel, value, t', h⟩ := reserve_total ht plain_advances hc.2
    exact ⟨fuel, t', by simp [Call.step, allocate, h]⟩
  | allocateAligned amount alignment =>
    obtain ⟨fuel, value, t', h⟩ := reserve_total ht (aligned_advances alignment) hc.2.2
    exact ⟨fuel, t', by simp [Call.step, allocateAligned, h]⟩
  | unallocate pointer =>
    obtain ⟨i, hi, rfl⟩ := hc
    exact unallocate_total hi

end Runs

end Allocator
end Naul
