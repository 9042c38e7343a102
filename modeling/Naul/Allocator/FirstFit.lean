import Naul.Allocator.Ownership

/-!
# Which address the allocator returns

A search tries addresses upward, and a candidate is passed over only for a record in its way. An address
at which the block would meet no record (`Usable`) is not jumped over by the end of a record
(`Usable.end_le`), so `allocate` returns the least usable address whatever the order of the slots:
`allocate_least`.

`allocateAligned` rounds up to the multiple of the alignment that comes strictly after an address.
It jumps over an address that it rounds up although it is a usable multiple itself, and over no
other: `allocateAligned_least_iff`.
-/

namespace Naul
namespace Allocator

/-- The tables of the system: `unallocate` is called with the address of a present record. -/
inductive Reachable : Allocator → Prop
  | initAllocator (memory : ℕ → Allocation) : Reachable (initAllocator memory)
  | markUnusable {t t' : Allocator} {fuel : ℕ} {start end' : UInt64} (h : Reachable t)
      (hstep : t.markUnusable fuel start end' = some t') : Reachable t'
  | allocate {t t' : Allocator} {fuel : ℕ} {amount value : UInt64} (h : Reachable t)
      (hstep : t.allocate fuel amount = some (value, t')) : Reachable t'
  | allocateAligned {t t' : Allocator} {fuel : ℕ} {amount alignment value : UInt64} (h : Reachable t)
      (hstep : t.allocateAligned fuel amount alignment = some (value, t')) : Reachable t'
  | unallocate {t t' : Allocator} {fuel i : ℕ} (h : Reachable t) (hi : i ∈ t.live)
      (hstep : t.unallocate fuel (t.allocated i).start = some t') : Reachable t'

theorem Reachable.counted {t : Allocator} (h : Reachable t) : Counted t := by
  induction h with
  | initAllocator memory => exact counted_initAllocator memory
  | markUnusable _ hstep ih =>
    obtain ⟨slot, hrec⟩ := markUnusable_recorded ih hstep
    exact hrec.counted ih
  | allocate _ hstep ih =>
    obtain ⟨slot, -, -, hrec⟩ := reserve_recorded ih hstep
    exact hrec.counted ih
  | allocateAligned _ hstep ih =>
    obtain ⟨slot, -, -, hrec⟩ := reserve_recorded ih hstep
    exact hrec.counted ih
  | unallocate _ hi hstep ih =>
    obtain ⟨slot, hrel, -, -⟩ := unallocate_released hi rfl hstep
    exact hrel.counted ih

/-- From `v` on, `amount` bytes meet no present record. -/
def Usable (t : Allocator) (amount : UInt64) (v : ℕ) : Prop :=
  memoryStart.toNat ≤ v ∧ ∀ i ∈ t.live,
    v + amount.toNat ≤ (t.allocated i).start.toNat ∨ (t.allocated i).end'.toNat ≤ v

instance decidableUsable (t : Allocator) (amount : UInt64) (v : ℕ) : Decidable (t.Usable amount v) :=
  inferInstanceAs (Decidable (_ ∧ _))

/-- A usable multiple of the alignment. -/
def AlignedUsable (t : Allocator) (amount alignment : UInt64) (v : ℕ) : Prop :=
  alignment.toNat ∣ v ∧ t.Usable amount v

instance decidableAlignedUsable (t : Allocator) (amount alignment : UInt64) (v : ℕ) :
    Decidable (t.AlignedUsable amount alignment v) := inferInstanceAs (Decidable (_ ∧ _))

/-- `allocateAligned` rounds up no address that it could return as it is: neither `memoryStart` nor the end of
a record in the way of a candidate is a usable multiple. -/
def RoundsUnusable (t : Allocator) (amount alignment : UInt64) : Prop :=
  ¬ t.AlignedUsable amount alignment memoryStart.toNat ∧
    ∀ v i, Candidate t (aligned alignment) amount v → InWay t amount v i →
      ¬ t.AlignedUsable amount alignment (t.allocated i).end'.toNat

section Search

variable {t : Allocator} {amount value : UInt64} {p : Placement} {fuel v i : ℕ} {s : Search}

/-- A record in the way of a candidate ends below every usable address that is not below the
candidate. -/
theorem Usable.end_le (h : t.Usable amount v) (hi : i ∈ t.live) (hle : value.toNat ≤ v)
    (hsum : value.toNat + amount.toNat < 2 ^ 64) (hblocked : ¬ Clear value amount (t.allocated i)) :
    (t.allocated i).end'.toNat ≤ v := by
  rw [Clear, not_or, UInt64.le_iff_toNat_le, UInt64.toNat_add, Nat.mod_eq_of_lt hsum] at hblocked
  rcases h.2 i hi with hbelow | habove
  · exact absurd (le_trans (by omega) hbelow) hblocked.1
  · exact habove

/-- **No usable address is passed** by a search that starts at or below it and whose moves past a record
do not lead over it. -/
theorem searching_le (ht : Counted t) (husable : t.Usable amount v)
    (hsum : v + amount.toNat < 2 ^ 64) (hfirst : p.first.toNat ≤ v)
    (hnext : ∀ s, Searching t amount p s → Blocked t amount s →
      (t.allocated s.allocation).end'.toNat ≤ v → (p.next (t.allocated s.allocation).end').toNat ≤ v)
    (h : Searching t amount p s) : s.value.toNat ≤ v := by
  refine (WhileLoop.Visits.invariant (I := fun s => Searching t amount p s ∧ s.value.toNat ≤ v)
    (fun s s' hs hb => ⟨hs.1.tail hb, ?_⟩) h ⟨Relation.ReflTransGen.refl, hfirst⟩).2
  obtain ⟨-, ⟨-, -, rfl⟩ | ⟨hblocked, rfl⟩ | ⟨-, rfl⟩⟩ := searchBody_cases hb
  · exact hs.2
  · refine hnext s hs.1 hblocked (husable.end_le (live_of_blocked ht hs.1 hblocked) hs.2 ?_ hblocked.2.2)
    exact lt_of_le_of_lt (Nat.add_le_add_right hs.2 _) hsum
  · exact hs.2

/-- The candidates of a search never exceed the address found. -/
theorem searching_le_value (hadvances : p.Advances) (hfits : NextFits t amount p)
    (hfind : t.findAddress fuel amount p = some value) (h : Searching t amount p s) :
    s.value ≤ value := by
  obtain ⟨n, hn⟩ := WhileLoop.run_of_visits hfind h
  refine WhileLoop.run_invariant
    (I := fun s' => Searching t amount p s' ∧ s.value ≤ s'.value) (Q := fun v => s.value ≤ v)
    (fun s₁ s₂ hs hb => ⟨hs.1.tail hb, ?_⟩) (fun s₁ r hs hb => ?_) ⟨h, UInt64.le_refl _⟩ hn
  · obtain ⟨-, ⟨-, -, rfl⟩ | ⟨hblocked, rfl⟩ | ⟨-, rfl⟩⟩ := searchBody_cases hb
    · exact hs.2
    · exact UInt64.le_trans (UInt64.le_trans hs.2 (UInt64.le_of_lt (value_lt_end hblocked.2.2)))
        (hadvances _ (hfits s₁ hs.1 hblocked))
    · exact hs.2
  · obtain ⟨-, rfl⟩ := searchBody_exit hb
    exact hs.2

/-- The address found is usable. -/
theorem usable_of_findAddress (ht : Counted t) (hstart : memoryStart ≤ value)
    (hsum : value.toNat + amount.toNat < 2 ^ 64)
    (hfind : t.findAddress fuel amount p = some value) : t.Usable amount value.toNat := by
  refine ⟨UInt64.le_iff_toNat_le.1 hstart, fun i hi => ?_⟩
  have hclear := findAddress_clear ht hfind i hi
  rwa [Clear, UInt64.le_iff_toNat_le, UInt64.le_iff_toNat_le, UInt64.toNat_add,
    Nat.mod_eq_of_lt hsum] at hclear

end Search

/-! ### `allocate` -/

section Allocate

variable {t t' u : Allocator} {amount value : UInt64} {fuel v : ℕ}

theorem allocate_usable (ht : Counted t) (h : t.allocate fuel amount = some (value, t'))
    (hsum : value.toNat + amount.toNat < 2 ^ 64) : t.Usable amount value.toNat := by
  obtain ⟨slot, hfind, -, -⟩ := reserve_recorded ht h
  exact usable_of_findAddress ht (memoryStart_le_allocate h ht) hsum hfind

theorem allocate_le (ht : Counted t) (h : t.allocate fuel amount = some (value, t'))
    (husable : t.Usable amount v) (hsum : v + amount.toNat < 2 ^ 64) : value.toNat ≤ v := by
  obtain ⟨slot, hfind, -, -⟩ := reserve_recorded ht h
  obtain ⟨s, hs, rfl⟩ := findAddress_visited hfind
  exact searching_le ht husable hsum husable.1 (fun _ _ _ hend => hend) hs

theorem Recorded.usable_of_usable {slot : ℕ} {r : Allocation} (h : Recorded t slot r t')
    (hv : t'.Usable amount v) : t.Usable amount v := by
  refine ⟨hv.1, fun i hi => ?_⟩
  have hclear := hv.2 i (h.live_eq ▸ Finset.mem_insert_of_mem hi)
  rwa [h.allocated_of_live hi] at hclear

/-- A block that has been allocated does not change where the next one of no bytes goes. -/
theorem isLeast_usable_zero (ht : Counted t) (h : t.allocate fuel amount = some (value, t'))
    (hsum : value.toNat + amount.toNat < 2 ^ 64) (hv : IsLeast {v | t'.Usable 0 v} v) :
    IsLeast {v | t.Usable 0 v} v := by
  obtain ⟨slot, -, -, hrec⟩ := reserve_recorded ht h
  have hvalue := allocate_usable ht h hsum
  -- up to the new block the two tables agree
  have hbelow : ∀ w, w ≤ value.toNat → t.Usable 0 w → t'.Usable 0 w := by
    refine fun w hw hwt => ⟨hwt.1, fun i hi => ?_⟩
    rw [hrec.live_eq, Finset.mem_insert] at hi
    rcases hi with rfl | hi
    · rw [hrec.allocated_slot]
      exact .inl hw
    · rw [hrec.allocated_of_live hi]
      exact hwt.2 i hi
  have hzero : t.Usable 0 value.toNat :=
    ⟨hvalue.1, fun i hi => (hvalue.2 i hi).imp (le_trans (Nat.le_add_right _ _)) id⟩
  refine ⟨hrec.usable_of_usable hv.1, fun w hw => ?_⟩
  by_cases hle : w ≤ value.toNat
  · exact hv.2 (hbelow w hle hw)
  · exact (hv.2 (hbelow _ le_rfl hzero)).trans (by omega)

/-- A block of no bytes goes to the least address inside no record. -/
theorem allocate_zero_least (ht : Counted t) (h : t.allocate fuel 0 = some (value, t')) :
    IsLeast {v | t.Usable 0 v} value.toNat := by
  have hsum : value.toNat + (0 : UInt64).toNat < 2 ^ 64 := UInt64.toNat_lt value
  refine ⟨allocate_usable ht h hsum, fun v hv => ?_⟩
  by_cases hv' : v + (0 : UInt64).toNat < 2 ^ 64
  · exact allocate_le ht h hv hv'
  · exact hsum.le.trans (not_lt.1 hv')

/-- What is usable depends on the records only. -/
theorem usable_iff_records (t : Allocator) (amount : UInt64) (v : ℕ) :
    t.Usable amount v ↔ memoryStart.toNat ≤ v ∧
      ∀ r ∈ t.records, v + amount.toNat ≤ r.start.toNat ∨ r.end'.toNat ≤ v := by
  simp only [Usable, records, Multiset.mem_map, Finset.mem_val, forall_exists_index, and_imp,
    forall_apply_eq_imp_iff₂]

/-- **First fit by address.** `allocate` returns, and where the block ends within the address space, the
address is the least usable one; every table with the same records gives the same address. -/
theorem allocate_least (ht : Reachable t) (amount : UInt64) :
    (∃ fuel value t', t.allocate fuel amount = some (value, t')) ∧
    ∀ fuel value t', t.allocate fuel amount = some (value, t') →
      value.toNat + amount.toNat < 2 ^ 64 →
        IsLeast {v | t.Usable amount v} value.toNat ∧
        ∀ u, Reachable u → (∀ r, r ∈ u.records ↔ r ∈ t.records) →
          ∀ n w u', u.allocate n amount = some (w, u') → w = value := by
  refine ⟨reserve_total ht.counted plain_advances (nextFits_plain t amount),
    fun fuel value t' h hsum => ?_⟩
  have husable := allocate_usable ht.counted h hsum
  refine ⟨⟨husable, fun v hv => ?_⟩, fun u hu hrecords n w u' hw => ?_⟩
  · by_cases hv' : v + amount.toNat < 2 ^ 64
    · exact allocate_le ht.counted h hv hv'
    · omega
  · -- each of the two addresses is usable in the other table
    have husable' : u.Usable amount value.toNat := by
      rw [usable_iff_records] at husable ⊢
      exact ⟨husable.1, fun r hr => husable.2 r ((hrecords r).1 hr)⟩
    have hle := allocate_le hu.counted hw husable' hsum
    have hw' : t.Usable amount w.toNat := by
      have hw' := allocate_usable hu.counted hw (by omega)
      rw [usable_iff_records] at hw' ⊢
      exact ⟨hw'.1, fun r hr => hw'.2 r ((hrecords r).2 hr)⟩
    have hge := allocate_le ht.counted h hw' (by omega)
    exact UInt64.toNat_inj.1 (le_antisymm hle hge)

/-- The second of two blocks. -/
theorem allocate_least_second :
    ∃ t t', (initAllocator fun _ => ⟨true, 7, 9⟩).allocate 9 16 = some (0x1000000, t) ∧
      t.allocate 9 32 = some (0x1000010, t') ∧ IsLeast {v | t.Usable 32 v} 0x1000010 := by
  refine ⟨_, _, rfl, rfl, ?_⟩
  have ht : Reachable _ := .allocate (.initAllocator fun _ => ⟨true, 7, 9⟩)
    (rfl : allocate 9 16 _ = some (0x1000000, _))
  exact ((allocate_least ht 32).2 9 0x1000010 _ rfl (by decide)).1

end Allocate

/-! ### `allocateAligned` -/

section AllocateAligned

variable {t : Allocator} {amount alignment x : UInt64} {fuel v : ℕ} {s : Search}

theorem lt_alignUp (h : x.toNat + (alignment - x % alignment).toNat < 2 ^ 64) (ha : 1 ≤ alignment) :
    x.toNat < (alignUp alignment x).toNat := by
  have hpos : 0 < alignment.toNat := UInt64.le_iff_toNat_le.1 ha
  have hmod := Nat.mod_lt x.toNat hpos
  rw [toNat_alignUp h ha]
  omega

/-- Rounding up goes to the next multiple. -/
theorem alignUp_le (h : x.toNat + (alignment - x % alignment).toNat < 2 ^ 64) (ha : 1 ≤ alignment)
    (hdvd : alignment.toNat ∣ v) (hlt : x.toNat < v) : (alignUp alignment x).toNat ≤ v := by
  have hpos : 0 < alignment.toNat := UInt64.le_iff_toNat_le.1 ha
  obtain ⟨q, rfl⟩ := hdvd
  have hq : x.toNat / alignment.toNat < q := by
    rwa [Nat.div_lt_iff_lt_mul hpos, Nat.mul_comm]
  calc (alignUp alignment x).toNat
      = x.toNat - x.toNat % alignment.toNat + alignment.toNat := toNat_alignUp h ha
    _ = alignment.toNat * (x.toNat / alignment.toNat + 1) := by
        have hdiv := Nat.div_add_mod x.toNat alignment.toNat
        rw [Nat.mul_add_one]
        omega
    _ ≤ alignment.toNat * q := Nat.mul_le_mul_left _ hq

theorem searchBody_blocked {next : UInt64 → UInt64} (hb : Blocked t amount s) :
    t.searchBody amount next s = .inl ⟨next (t.allocated s.allocation).end', 0, 0⟩ := by
  obtain ⟨hcount, hpresent, hclear⟩ := hb
  rw [searchBody, if_neg hcount, if_pos hpresent, if_neg hclear]

/-- **When `allocateAligned` skips no usable space.** It returns, and the address is the least usable
multiple of the alignment if and only if it has rounded up no usable multiple. -/
theorem allocateAligned_least_iff (ht : Reachable t) (ha : 1 ≤ alignment)
    (hsums : SumsFit t amount (aligned alignment)) (hnexts : NextFits t amount (aligned alignment)) :
    ∃ fuel value t', t.allocateAligned fuel amount alignment = some (value, t') ∧
      (IsLeast {v | t.AlignedUsable amount alignment v} value.toNat ↔
        t.RoundsUnusable amount alignment) := by
  obtain ⟨fuel, value, t', hres⟩ := reserve_total ht.counted (aligned_advances alignment) hnexts
  obtain ⟨slot, hfind, -, -⟩ := reserve_recorded ht.counted hres
  have hvalue := allocateAligned_value ha hnexts hres ht.counted
  have hle : ∀ s, Searching t amount (aligned alignment) s → s.value ≤ value := fun s hs =>
    searching_le_value (aligned_advances alignment) hnexts hfind hs
  obtain ⟨last, hlast, rfl⟩ := findAddress_visited hfind
  have hsum := hsums last hlast
  refine ⟨fuel, last.value, t', hres, fun hleast => ⟨fun hstart => ?_, fun v i hv hi hend => ?_⟩,
    fun hrounds => ⟨⟨hvalue.2, usable_of_findAddress ht.counted hvalue.1 hsum hfind⟩, fun v hv => ?_⟩⟩
  · have hfirst := UInt64.le_iff_toNat_le.1 (hle _ Relation.ReflTransGen.refl)
    exact absurd (hleast.2 hstart) (not_le.2 ((lt_alignUp (first_fits ha) ha).trans_le hfirst))
  · obtain ⟨s, hs, hb, rfl⟩ := exists_blocked ht.counted hv hi
    have hnext : Searching t amount (aligned alignment) _ := hs.tail (searchBody_blocked hb)
    have hmove := UInt64.le_iff_toNat_le.1 (hle _ hnext)
    exact absurd (hleast.2 hend) (not_le.2 ((lt_alignUp (hnexts s hs hb) ha).trans_le hmove))
  · by_cases hv' : v + amount.toNat < 2 ^ 64
    · refine searching_le ht.counted hv.2 hv' ?_ (fun s hs hb hend => ?_) hlast
      · refine alignUp_le (first_fits ha) ha hv.1 (lt_of_le_of_ne hv.2.1 ?_)
        rintro rfl
        exact hrounds.1 hv
      · refine alignUp_le (hnexts s hs hb) ha hv.1 (lt_of_le_of_ne hend ?_)
        rintro rfl
        exact hrounds.2 s.value s.allocation (candidate_of_searching ht.counted hs)
          ((searchInv_of_searching ht.counted hs).inWay ht.counted hb) hv
    · omega

/-- Where no record is in the way of the first candidate, there is no other. -/
theorem candidate_of_clear (hclear : ∀ i ∈ t.live, Clear (aligned alignment).first amount (t.allocated i))
    {w : UInt64} (h : Candidate t (aligned alignment) amount w) : w = (aligned alignment).first := by
  induction h with
  | first => rfl
  | next _ hi ih =>
    rw [ih] at hi
    exact absurd (hclear _ hi.live) hi.blocked

theorem not_inWay_of_clear (hclear : ∀ i ∈ t.live, Clear (aligned alignment).first amount (t.allocated i))
    {w : UInt64} {i : ℕ} (h : Candidate t (aligned alignment) amount w) : ¬ InWay t amount w i := by
  rw [candidate_of_clear hclear h]
  exact fun hi => hi.blocked (hclear i hi.live)

theorem roundsUnusable_of_clear (ht : Counted t)
    (hstart : ¬ t.AlignedUsable amount alignment memoryStart.toNat)
    (hclear : ∀ i ∈ t.live, Clear (aligned alignment).first amount (t.allocated i)) :
    (∀ s, Searching t amount (aligned alignment) s →
      s.value = (aligned alignment).first ∧ ¬ Blocked t amount s) ∧
      t.RoundsUnusable amount alignment := by
  refine ⟨fun s hs => ?_, hstart, fun w i hw hi => absurd hi (not_inWay_of_clear hclear hw)⟩
  have hvalue := candidate_of_searching ht hs
  exact ⟨candidate_of_clear hclear hvalue,
    fun hb => not_inWay_of_clear hclear hvalue ((searchInv_of_searching ht hs).inWay ht hb)⟩

/-- A block of 16 bytes with alignment 16 next to one of 16 bytes. -/
theorem allocateAligned_least_second :
    ∃ t, (initAllocator fun _ => ⟨false, 0, 0⟩).allocate 9 16 = some (0x1000000, t) ∧
      ∃ fuel value t', t.allocateAligned fuel 16 16 = some (value, t') ∧
        IsLeast {v | t.AlignedUsable 16 16 v} value.toNat := by
  refine ⟨_, rfl, ?_⟩
  have ht : Reachable _ := .allocate (.initAllocator fun _ => ⟨false, 0, 0⟩)
    (rfl : allocate 9 16 _ = some (0x1000000, _))
  obtain ⟨hfirst, hrounds⟩ := @roundsUnusable_of_clear _ 16 16 ht.counted (by decide) (by decide)
  obtain ⟨fuel, value, t', hres, hiff⟩ := @allocateAligned_least_iff _ 16 16 ht (by decide)
    (fun s hs => by rw [(hfirst s hs).1]; decide) (fun s hs hb => absurd hb (hfirst s hs).2)
  exact ⟨fuel, value, t', hres, hiff.2 hrounds⟩

/-- With no record at all, a page is not allocated at `memoryStart`, which is a multiple of its size. -/
theorem allocateAligned_skips_start :
    Reachable (initAllocator fun _ => ⟨false, 0, 0⟩) ∧
      (Call.allocateAligned 0x1000 0x1000).Permitted (initAllocator fun _ => ⟨false, 0, 0⟩) ∧
      ((initAllocator fun _ => ⟨false, 0, 0⟩).allocateAligned 9 0x1000 0x1000).map Prod.fst =
        some 0x1001000 ∧
      ¬ IsLeast {v | (initAllocator fun _ => ⟨false, 0, 0⟩).AlignedUsable 0x1000 0x1000 v} 0x1001000 := by
  refine ⟨.initAllocator _, ⟨by decide, @sumsFit_of_trail _ 9 _ _ _ rfl (by decide), fun s hs hb => ?_⟩,
    rfl, fun hleast => ?_⟩
  · exact absurd (live_of_blocked (counted_initAllocator _) hs hb) (by simp)
  · have hle : 0x1001000 ≤ 0x1000000 := hleast.2 (by decide :
      (initAllocator fun _ => ⟨false, 0, 0⟩).AlignedUsable 0x1000 0x1000 0x1000000)
    exact absurd hle (by decide)

end AllocateAligned

end Allocator
end Naul
