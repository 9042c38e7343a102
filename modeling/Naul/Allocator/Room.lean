import Naul.Allocator.Accounts
import Naul.Allocator.FirstFit

/-!
# Room above the records

A search goes no further than from the end of a record to the next multiple of the alignment. So where
the highest end and all that is asked for sum up to less than `2 ^ 64`, no address that is computed exceeds
`2 ^ 64 - 1`: `fitsAlong_of_room`.
-/

namespace Naul
namespace Allocator

/-- No record ends above `bound`. -/
def EndsBy (t : Allocator) (bound : ℕ) : Prop :=
  memoryStart.toNat ≤ bound ∧ ∀ i ∈ t.live, (t.allocated i).end'.toNat ≤ bound

/-- The search moves `gap` bytes at most beyond an end. -/
structure Placement.Within (p : Placement) (gap : ℕ) : Prop where
  first : memoryStart.toNat + gap < 2 ^ 64 → p.first.toNat ≤ memoryStart.toNat + gap
  next : ∀ e, e.toNat + gap < 2 ^ 64 → p.Safe e ∧ (p.next e).toNat ≤ e.toNat + gap

/-- How much higher a request may lead. -/
def Request.cost : Request → ℕ
  | .allocate amount => amount.toNat
  | .allocateAligned amount alignment => alignment.toNat + amount.toNat
  | .free _ => 0

/-- At least one byte is asked for, and an alignment is positive. -/
def Request.Regular : Request → Prop
  | .allocate amount => 1 ≤ amount
  | .allocateAligned amount alignment => 1 ≤ amount ∧ 1 ≤ alignment
  | .free _ => True

instance decidableRegular : (r : Request) → Decidable r.Regular
  | .allocate _ => inferInstanceAs (Decidable (_ ≤ _))
  | .allocateAligned _ _ => inferInstanceAs (Decidable (_ ∧ _))
  | .free _ => isTrue trivial

section Search

variable {t t' t₀ : Allocator} {amount value alignment : UInt64} {p : Placement} {bound gap fuel : ℕ} {s : Search}

theorem within_plain : plain.Within 0 where
  first := fun _ => le_rfl
  next := fun _ _ => ⟨trivial, le_rfl⟩

theorem alignUp_near (halignment : 1 ≤ alignment) {e : UInt64} (h : e.toNat + alignment.toNat < 2 ^ 64) :
    e.toNat + (alignment - e % alignment).toNat < 2 ^ 64 ∧
      (alignUp alignment e).toNat ≤ e.toNat + alignment.toNat := by
  have hpos := UInt64.le_iff_toNat_le.1 halignment
  rw [UInt64.toNat_one] at hpos
  have hmod : (e % alignment).toNat < alignment.toNat := by
    rw [UInt64.toNat_mod]
    exact Nat.mod_lt _ hpos
  have hsub : (alignment - e % alignment).toNat = alignment.toNat - (e % alignment).toNat :=
    UInt64.toNat_sub_of_le _ _ (UInt64.le_iff_toNat_le.2 hmod.le)
  rw [alignUp, UInt64.toNat_add, hsub, Nat.mod_eq_of_lt (by omega)]
  omega

theorem within_aligned (halignment : 1 ≤ alignment) : (aligned alignment).Within alignment.toNat where
  first := fun h => (alignUp_near halignment h).2
  next := fun _ h => alignUp_near halignment h

/-- Every candidate is near an end. -/
theorem Candidate.toNat_le (hends : t.EndsBy bound) (hp : p.Within gap) (hroom : bound + gap < 2 ^ 64)
    (h : Candidate t p amount value) : value.toNat ≤ bound + gap := by
  have hstart := hends.1
  cases h with
  | first =>
    have hfirst := hp.first (by omega)
    omega
  | @next _ i _ hi =>
    have hend := hends.2 i hi.live
    have hnext := (hp.next (t.allocated i).end' (by omega)).2
    omega

theorem fits_of_room (ht : Counted t) (hends : t.EndsBy bound) (hp : p.Within gap)
    (hroom : bound + gap + amount.toNat < 2 ^ 64) : SumsFit t amount p ∧ NextFits t amount p := by
  refine ⟨fun s hs => ?_, fun s hs hblocked => ?_⟩
  · have hvalue := (candidate_of_searching ht hs).toNat_le hends hp (by omega)
    omega
  · have hend := hends.2 _ (live_of_blocked ht hs hblocked)
    exact (hp.next _ (by omega)).1

/-- The new block ends near the highest end. -/
theorem EndsBy.reserve (hends : t.EndsBy bound) (ht : Counted t) (hp : p.Within gap)
    (hroom : bound + gap + amount.toNat < 2 ^ 64) (h : t.reserve fuel amount p = some (value, t')) :
    t'.EndsBy (bound + gap + amount.toNat) := by
  obtain ⟨slot, hfind, -, hrec⟩ := reserve_recorded ht h
  obtain ⟨s, hs, rfl⟩ := findAddress_visited hfind
  have hvalue := (candidate_of_searching ht hs).toNat_le hends hp (by omega)
  have hstart := hends.1
  refine ⟨by omega, fun i hi => ?_⟩
  rw [hrec.live_eq, Finset.mem_insert] at hi
  rcases hi with rfl | hi
  · rw [hrec.allocated_slot, UInt64.toNat_add, Nat.mod_eq_of_lt (by omega)]
    omega
  · rw [hrec.allocated_of_live hi]
    have hend := hends.2 i hi
    omega

theorem EndsBy.allocate (hends : t.EndsBy bound) (ht : Counted t) (hroom : bound + amount.toNat < 2 ^ 64)
    (h : t.allocate fuel amount = some (value, t')) :
    value.toNat ≤ bound ∧ t'.EndsBy (bound + amount.toNat) := by
  obtain ⟨slot, hfind, -, -⟩ := reserve_recorded ht h
  obtain ⟨s, hs, rfl⟩ := findAddress_visited hfind
  exact ⟨(candidate_of_searching ht hs).toNat_le hends within_plain (by omega),
    hends.reserve ht within_plain hroom h⟩

theorem EndsBy.hold {s s' : Session} (hends : s.table.EndsBy bound) (hs : Sound t₀ s) (hp : p.Within gap)
    (hroom : bound + gap + amount.toNat < 2 ^ 64)
    (hstep : (s.table.reserve fuel amount p).bind (s.hold fuel amount) = some s') :
    s'.table.EndsBy (bound + gap + amount.toNat) := by
  obtain ⟨⟨value, t'⟩, hres, hhold⟩ := Option.bind_eq_some_iff.1 hstep
  obtain ⟨slot, -, rfl⟩ := Option.map_eq_some_iff.1 hhold
  exact hends.reserve hs.counted hp hroom hres

/-- What a request keeps. -/
theorem EndsBy.step {s s' : Session} {r : Request} (hends : s.table.EndsBy bound) (hs : Sound t₀ s)
    (hr : r.Regular) (hroom : bound + r.cost < 2 ^ 64) (hstep : r.step fuel s = some s') :
    s'.table.EndsBy (bound + r.cost) := by
  cases r with
  | allocate amount => exact hends.hold hs within_plain hroom hstep
  | allocateAligned amount alignment =>
    rw [Request.cost, ← Nat.add_assoc] at hroom ⊢
    exact hends.hold hs (within_aligned hr.2) hroom hstep
  | free k =>
    simp only [Request.step, bind, Option.bind_eq_some_iff, pure, Option.some.injEq] at hstep
    obtain ⟨b, hb, t', hfree, rfl⟩ := hstep
    have hmem : b ∈ s.held := List.mem_of_getElem? hb
    have hrel := released_release (hs.owned b hmem).1
    rw [hs.unallocate_eq hmem hfree]
    refine ⟨hends.1, fun i hi => ?_⟩
    dsimp only at hi
    rw [hrel.live_eq, Finset.mem_erase] at hi
    rw [hrel.allocated_of_ne i hi.1]
    exact hends.2 i hi.2

theorem Request.Regular.legal {s : Session} {r : Request} (hr : r.Regular) (hs : Sound t₀ s)
    (hends : s.table.EndsBy bound) (hroom : bound + r.cost < 2 ^ 64) : r.Legal s ∧ r.Positive := by
  cases r with
  | allocate amount => exact ⟨fits_of_room hs.counted hends within_plain hroom, hr⟩
  | allocateAligned amount alignment =>
    rw [Request.cost, ← Nat.add_assoc] at hroom
    exact ⟨⟨hr.2, fits_of_room hs.counted hends (within_aligned hr.2) hroom⟩, hr.1⟩
  | free k => exact ⟨trivial, trivial⟩

/-- **Enough room makes requests legal**, one after the other. -/
theorem fitsAlong_of_room {s : Session} {rs : List Request} (hs : Sound t₀ s) (hends : s.table.EndsBy bound)
    (hrs : ∀ r ∈ rs, r.Regular) (hroom : bound + (rs.map Request.cost).sum < 2 ^ 64) : FitsAlong s rs := by
  refine ⟨0, fun n _ => ?_⟩
  induction rs generalizing s bound with
  | nil => trivial
  | cons r rs ih =>
    rw [List.map_cons, List.sum_cons] at hroom
    have hr := hrs r List.mem_cons_self
    have hlegal := hr.legal hs hends (by omega)
    refine ⟨hlegal.1, fun s' hstep => ?_⟩
    refine ih (hs.step hlegal hstep) (hends.step hs hr (by omega) hstep) (fun r' hr' => ?_) (by omega)
    exact hrs r' (List.mem_cons_of_mem r hr')

end Search

end Allocator
end Naul
