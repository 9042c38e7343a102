import Naul.Allocator.Scan
import Naul.Lib.Trace

/-!
# What the allocator's operations do to its records

An operation either writes one new record (`Recorded`: `markUnusable`, `allocate`,
`allocateAligned`) or clears one (`Released`: `unallocate`). All invariants of the allocator are
derived from these two facts, never from the loops again.
-/

namespace Naul
namespace Allocator

variable {t t' : Allocator} {slot fuel : ℕ}

/-- `t'` is `t` with a new present record `r` in `slot`. -/
structure Recorded (t : Allocator) (slot : ℕ) (r : Allocation) (t' : Allocator) : Prop where
  fresh : slot ∉ t.live
  live_eq : t'.live = insert slot t.live
  allocated_slot : t'.allocated slot = r
  allocated_of_ne : ∀ i, i ≠ slot → t'.allocated i = t.allocated i
  allocations_eq : t'.allocations = t.allocations + 1

/-- `t'` is `t` without the record in `slot`. -/
structure Released (t : Allocator) (slot : ℕ) (t' : Allocator) : Prop where
  mem : slot ∈ t.live
  live_eq : t'.live = t.live.erase slot
  allocated_of_ne : ∀ i, i ≠ slot → t'.allocated i = t.allocated i
  allocations_eq : t'.allocations = t.allocations - 1

theorem mem_live_store {r : Allocation} (hslot : slot ≤ t.written) (hr : r.present = true) {i : ℕ} :
    i ∈ (t.store slot r).live ↔ i = slot ∨ i ∈ t.live := by
  simp only [mem_live, store]
  by_cases hi : i = slot
  · subst hi
    simp [hr]
  · simp only [Function.update_of_ne hi, hi, false_or, and_congr_left_iff]
    intro _
    omega

theorem recorded_store {r : Allocation} (hslot : slot ≤ t.written) (hfresh : slot ∉ t.live)
    (hr : r.present = true) (u : UInt64) :
    Recorded t slot r { t.store slot r with allocations := t.allocations + 1, unusable := u } where
  fresh := hfresh
  live_eq := by
    ext i
    rw [Finset.mem_insert]
    exact mem_live_store hslot hr
  allocated_slot := Function.update_self ..
  allocated_of_ne := fun _ hi => Function.update_of_ne hi ..
  allocations_eq := rfl

theorem Recorded.counted {r : Allocation} (h : Recorded t slot r t') (ht : Counted t) :
    Counted t' := by
  unfold Counted
  rw [h.live_eq, Finset.card_insert_of_notMem h.fresh, h.allocations_eq, ht]

theorem Recorded.allocated_of_live {r : Allocation} (h : Recorded t slot r t') {i : ℕ}
    (hi : i ∈ t.live) : t'.allocated i = t.allocated i :=
  h.allocated_of_ne i fun he => h.fresh (he ▸ hi)

theorem Released.counted (h : Released t slot t') (ht : Counted t) : Counted t' := by
  unfold Counted
  rw [h.live_eq, Finset.card_erase_of_mem h.mem, h.allocations_eq, ht]

theorem released_release (h : slot ∈ t.live) : Released t slot (t.release slot) where
  mem := h
  live_eq := by
    ext i
    have hlt := (mem_live.1 h).1
    rw [Finset.mem_erase]
    simp only [mem_live, release, store]
    by_cases hi : i = slot
    · simp [hi]
    · simp only [Function.update_of_ne hi, ne_eq, hi, not_false_eq_true, true_and]
      rw [max_eq_left (by omega)]
  allocated_of_ne := fun _ hi => Function.update_of_ne hi ..
  allocations_eq := rfl

/-! ### The operations -/

theorem markUnusable_recorded (ht : Counted t) {start end' : UInt64}
    (h : t.markUnusable fuel start end' = some t') :
    ∃ slot, Recorded t slot ⟨true, start, end'⟩ t' := by
  simp only [markUnusable, bind, Option.bind_eq_some_iff, pure, Option.some.injEq] at h
  obtain ⟨slot, hslot, rfl⟩ := h
  obtain ⟨hle, hfresh⟩ := emptySlot_spec ht hslot
  exact ⟨slot, recorded_store hle hfresh rfl _⟩

/-- The common part of `allocate` and `allocateAligned`: the block found meets no present record,
and it is recorded in an empty slot. -/
theorem reserve_recorded (ht : Counted t) {amount value : UInt64} {p : Placement}
    (h : t.reserve fuel amount p = some (value, t')) :
    ∃ slot, t.findAddress fuel amount p = some value ∧ t.emptySlot fuel = some slot ∧
      Recorded t slot ⟨true, value, value + amount⟩ t' := by
  simp only [reserve, bind, Option.bind_eq_some_iff, pure, Option.some.injEq, Prod.mk.injEq] at h
  obtain ⟨v, hv, slot, hslot, rfl, rfl⟩ := h
  obtain ⟨hle, hfresh⟩ := emptySlot_spec ht hslot
  exact ⟨slot, hv, hslot, recorded_store hle hfresh rfl _⟩

theorem reserve_total (ht : Counted t) {amount : UInt64} {p : Placement} (hp : p.Advances)
    (hfits : NextFits t amount p) : ∃ fuel value t', t.reserve fuel amount p = some (value, t') := by
  obtain ⟨m, value, hv⟩ := findAddress_total ht hp hfits
  obtain ⟨n, slot, hslot⟩ := emptySlot_total ht
  have hv' := WhileLoop.run_mono (le_max_left m n) hv
  have hslot' := WhileLoop.run_mono (le_max_right m n) hslot
  exact ⟨max m n, value,
    { t.store slot ⟨true, value, value + amount⟩ with allocations := t.allocations + 1 },
    by simp [reserve, findAddress, emptySlot, hv', hslot']⟩

theorem reserve_mono {m n : ℕ} (hmn : m ≤ n) {amount : UInt64} {p : Placement}
    {res : UInt64 × Allocator} (h : t.reserve m amount p = some res) :
    t.reserve n amount p = some res := by
  simp only [reserve, bind, Option.bind_eq_some_iff] at h ⊢
  obtain ⟨v, hv, slot, hslot, hres⟩ := h
  exact ⟨v, WhileLoop.run_mono hmn hv, slot, WhileLoop.run_mono hmn hslot, hres⟩

theorem markUnusable_total (ht : Counted t) (start end' : UInt64) :
    ∃ fuel t', t.markUnusable fuel start end' = some t' := by
  obtain ⟨fuel, slot, h⟩ := emptySlot_total ht
  simp only [markUnusable, bind, Option.bind_eq_some_iff]
  exact ⟨fuel, _, slot, h, rfl⟩

theorem markUnusable_mono {m n : ℕ} (hmn : m ≤ n) {start end' : UInt64}
    (h : t.markUnusable m start end' = some t') : t.markUnusable n start end' = some t' := by
  simp only [markUnusable, bind, Option.bind_eq_some_iff] at h ⊢
  obtain ⟨slot, hslot, hres⟩ := h
  exact ⟨slot, WhileLoop.run_mono hmn hslot, hres⟩

theorem unallocate_mono {m n : ℕ} (hmn : m ≤ n) {pointer : UInt64}
    (h : t.unallocate m pointer = some t') : t.unallocate n pointer = some t' := by
  simp only [unallocate, bind, Option.bind_eq_some_iff] at h ⊢
  obtain ⟨slot, hslot, hres⟩ := h
  exact ⟨slot, WhileLoop.run_mono hmn hslot, hres⟩

/-- The record found for the start of a present record is present. -/
theorem matchSlot_live {pointer : UInt64} {i : ℕ} (hi : i ∈ t.live)
    (hstart : (t.allocated i).start = pointer) (h : t.matchSlot fuel pointer = some slot) :
    slot ∈ t.live ∧ (t.allocated slot).start = pointer := by
  obtain ⟨⟨hpresent, hpointer⟩, -⟩ := matchSlot_spec h
  have hle : slot ≤ i := matchSlot_le (mem_live.1 hi).2 (hstart ▸ h)
  exact ⟨mem_live.2 ⟨hle.trans_lt (mem_live.1 hi).1, hpresent⟩, hpointer⟩

/-- `unallocate` clears the first present record with the given start. -/
theorem unallocate_released {pointer : UInt64} {i : ℕ} (hi : i ∈ t.live)
    (hstart : (t.allocated i).start = pointer) (h : t.unallocate fuel pointer = some t') :
    ∃ slot, Released t slot t' ∧ t' = t.release slot ∧ (t.allocated slot).start = pointer := by
  simp only [unallocate, bind, Option.bind_eq_some_iff, pure, Option.some.injEq] at h
  obtain ⟨slot, hslot, rfl⟩ := h
  obtain ⟨hlive, hpointer⟩ := matchSlot_live hi hstart hslot
  exact ⟨slot, released_release hlive, rfl, hpointer⟩

theorem unallocate_total {i : ℕ} (hi : i ∈ t.live) :
    ∃ fuel t', t.unallocate fuel (t.allocated i).start = some t' := by
  obtain ⟨fuel, slot, h⟩ := matchSlot_total (mem_live.1 hi).2
  exact ⟨fuel, t.release slot, by simp [unallocate, h]⟩

/-! ### Candidates -/

theorem plain_advances : plain.Advances := fun e _ => UInt64.le_refl e

theorem nextFits_plain (t : Allocator) (amount : UInt64) : NextFits t amount plain :=
  fun _ _ _ => trivial

theorem toNat_alignUp {alignment x : UInt64}
    (h : x.toNat + (alignment - x % alignment).toNat < 2 ^ 64) (ha : 1 ≤ alignment) :
    (alignUp alignment x).toNat = x.toNat - x.toNat % alignment.toNat + alignment.toNat := by
  have hpos : 0 < alignment.toNat := UInt64.le_iff_toNat_le.1 ha
  have hmod : x.toNat % alignment.toNat < alignment.toNat := Nat.mod_lt _ hpos
  have hle : x % alignment ≤ alignment := by
    rw [UInt64.le_iff_toNat_le, UInt64.toNat_mod]
    exact hmod.le
  have hxle := Nat.mod_le x.toNat alignment.toNat
  rw [alignUp, UInt64.toNat_add, Nat.mod_eq_of_lt h, UInt64.toNat_sub_of_le _ _ hle,
    UInt64.toNat_mod]
  omega

theorem aligned_advances (alignment : UInt64) : (aligned alignment).Advances := by
  intro e (he : e.toNat + (alignment - e % alignment).toNat < 2 ^ 64)
  rw [UInt64.le_iff_toNat_le]
  show e.toNat ≤ (e + (alignment - e % alignment)).toNat
  rw [UInt64.toNat_add, Nat.mod_eq_of_lt he]
  omega

theorem dvd_alignUp {alignment x : UInt64}
    (h : x.toNat + (alignment - x % alignment).toNat < 2 ^ 64) (ha : 1 ≤ alignment) :
    alignment.toNat ∣ (alignUp alignment x).toNat := by
  rw [toNat_alignUp h ha]
  exact Nat.dvd_add (Nat.dvd_sub_mod x.toNat) (dvd_refl _)

theorem first_fits {alignment : UInt64} (ha : 1 ≤ alignment) :
    memoryStart.toNat + (alignment - memoryStart % alignment).toNat < 2 ^ 64 := by
  have hpos : 0 < alignment.toNat := UInt64.le_iff_toNat_le.1 ha
  have hlt := alignment.toNat_lt
  have hmod : memoryStart.toNat % alignment.toNat < alignment.toNat := Nat.mod_lt _ hpos
  have hms : memoryStart.toNat = 0x1000000 := rfl
  have hle : memoryStart % alignment ≤ alignment := by
    rw [UInt64.le_iff_toNat_le, UInt64.toNat_mod]
    exact hmod.le
  rw [UInt64.toNat_sub_of_le _ _ hle, UInt64.toNat_mod]
  rcases Nat.lt_or_ge memoryStart.toNat alignment.toNat with hsmall | hlarge
  · rw [Nat.mod_eq_of_lt hsmall]
    omega
  · omega

theorem memoryStart_le_first {alignment : UInt64} (ha : 1 ≤ alignment) :
    memoryStart ≤ (aligned alignment).first := by
  rw [UInt64.le_iff_toNat_le]
  show memoryStart.toNat ≤ (memoryStart + (alignment - memoryStart % alignment)).toNat
  rw [UInt64.toNat_add, Nat.mod_eq_of_lt (first_fits ha)]
  omega

end Allocator
end Naul
