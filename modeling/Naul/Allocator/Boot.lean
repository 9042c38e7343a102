import Naul.Allocator.Ownership
import Naul.Allocator.Stale

/-!
# The memory map and the memory handed out (`os/src/bootloader.c`)

The boot code puts the allocator's table at the end of the largest usable region of the memory map
and marks every descriptor of another type. So the allocator knows which described memory it must
not hand out, but not where described memory ends, and not where its own table is.

A block it returns is clear of every marked region, so it lies in usable memory as soon as it lies
in memory that some descriptor describes (`Described.usable`). `Room` is what a call needs for that:
some block of the size fits, and every address the search tries up to there is blocked, or starts a
block of described memory off the table. `run_backed` is the result for runs all of whose calls
find room; `allocations_not_backed` shows the two ways to fail.
-/

namespace Naul

/-- `EFI_PAGE_SIZE`. -/
def efiPageSize : UInt64 := 4096

def efiBootServicesCode : UInt32 := 3

def efiBootServicesData : UInt32 := 4

def efiConventionalMemory : UInt32 := 7

/-- `EFI_MEMORY_DESCRIPTOR`, as far as the boot code reads it. What it describes lies below
`2 ^ 64`. -/
structure Descriptor where
  type : UInt32
  physicalStart : UInt64
  numberOfPages : UInt64
  fits : physicalStart.toNat + numberOfPages.toNat * 4096 < 2 ^ 64

namespace Descriptor

def usable (d : Descriptor) : Bool :=
  d.type == efiConventionalMemory || d.type == efiBootServicesCode || d.type == efiBootServicesData

def keySize (d : Descriptor) : UInt64 := d.numberOfPages * efiPageSize

/-- The first address after the descriptor's pages. -/
def finish (d : Descriptor) : UInt64 := d.physicalStart + d.keySize

/-- The addresses described. -/
def range (d : Descriptor) : Set ℕ :=
  Set.Ico d.physicalStart.toNat (d.physicalStart.toNat + d.numberOfPages.toNat * 4096)

theorem toNat_finish (d : Descriptor) :
    d.finish.toNat = d.physicalStart.toNat + d.numberOfPages.toNat * 4096 := by
  have hfits := d.fits
  have hpage : efiPageSize.toNat = 4096 := rfl
  rw [finish, keySize, UInt64.toNat_add, UInt64.toNat_mul, hpage, Nat.add_mod_mod,
    Nat.mod_eq_of_lt hfits]

end Descriptor

/-- `memory` and `memorySize` after the first loop over the map: the largest usable descriptor. -/
def largestUsable (map : List Descriptor) : UInt64 × UInt64 :=
  map.foldl (fun best d =>
    if d.usable ∧ best.2 < d.keySize then (d.physicalStart, d.keySize) else best) (0, 0)

/-- The address passed to `initAllocator`. -/
def tableEnd (map : List Descriptor) : UInt64 := (largestUsable map).1 + (largestUsable map).2

/-- The regions the second loop passes to `markUnusable`. -/
def unusableRegions (map : List Descriptor) : List (UInt64 × UInt64) :=
  (map.filter fun d => !d.usable).map fun d => (d.physicalStart, d.finish)

/-- The address of slot `i`: `allocated` is `end - sizeof(Allocation)`, and the table grows down. -/
def slotAddress (map : List Descriptor) (i : ℕ) : UInt64 := tableEnd map - 24 * UInt64.ofNat (i + 1)

/-- The bytes of slot `i`. -/
def slotRange (map : List Descriptor) (i : ℕ) : Set ℕ :=
  Set.Ico (slotAddress map i).toNat ((slotAddress map i).toNat + 24)

/-- The addresses some descriptor describes. -/
def describedMemory (map : List Descriptor) : Set ℕ := {a | ∃ d ∈ map, a ∈ d.range}

/-- The addresses inside descriptors of conventional or boot-services memory. -/
def usableMemory (map : List Descriptor) : Set ℕ := {a | ∃ d ∈ map, d.usable = true ∧ a ∈ d.range}

theorem mem_usableMemory_singleton {d : Descriptor} {a : ℕ} :
    a ∈ usableMemory [d] ↔ d.usable = true ∧ a ∈ d.range := by
  simp [usableMemory]

namespace Allocator

/-- The allocator when the kernel is entered. -/
def boot (fuel : ℕ) (map : List Descriptor) (memory : ℕ → Allocation) : Option Allocator :=
  (initAllocator memory).markAll fuel (unusableRegions map)

/-- The bytes of a block. -/
def bytes (value amount : UInt64) : Set ℕ := Set.Ico value.toNat (value.toNat + amount.toNat)

/-! ### How far a search goes -/

section Search

variable {t : Allocator} {fuel : ℕ} {amount v value : UInt64} {p : Placement}

/-- A block of `amount` bytes at `v` is below the record, or the candidate after the record is not
above `v`. -/
def Passes (p : Placement) (v amount : UInt64) (r : Allocation) : Prop :=
  v + amount ≤ r.start ∨ (p.Safe r.end' ∧ p.next r.end' ≤ v)

/-- A block of `amount` bytes fits at `v`. -/
structure Fits (t : Allocator) (p : Placement) (v amount : UInt64) : Prop where
  sum_fits : v.toNat + amount.toNat < 2 ^ 64
  first_le : p.first ≤ v
  passes : ∀ i ∈ t.live, Passes p v amount (t.allocated i)

/-- A record in the way of a lower candidate is not in the way of the search for `v`. -/
theorem Passes.of_blocked {r : Allocation} {w : UInt64} (h : Passes p v amount r)
    (hsum : v.toNat + amount.toNat < 2 ^ 64) (hw : w ≤ v) (hblocked : ¬ Clear w amount r) :
    p.Safe r.end' ∧ p.next r.end' ≤ v := by
  refine h.resolve_left fun hle => hblocked (.inl ?_)
  rw [UInt64.le_iff_toNat_le] at hw hle ⊢
  rw [UInt64.toNat_add, Nat.mod_eq_of_lt hsum] at hle
  rw [UInt64.toNat_add, Nat.mod_eq_of_lt (by omega)]
  omega

/-- While a block fits at `v`, the search tries candidates up to `v` only. -/
theorem Fits.step (h : Fits t p v amount) (ht : Counted t) {s s' : Search}
    (hs : SearchInv t amount p s ∧ s.value ≤ v) (hb : t.searchBody amount p.next s = .inl s') :
    SearchInv t amount p s' ∧ s'.value ≤ v := by
  obtain ⟨hinv, hle⟩ := hs
  refine ⟨searchInv_step ht hinv hb, ?_⟩
  obtain ⟨-, ⟨-, -, rfl⟩ | ⟨hblocked, rfl⟩ | ⟨-, rfl⟩⟩ := searchBody_cases hb
  · exact hle
  · have hlive := live_of_blocked ht hinv.visited hblocked
    exact ((h.passes _ hlive).of_blocked h.sum_fits hle hblocked.2.2).2
  · exact hle

theorem Fits.start (h : Fits t p v amount) :
    SearchInv t amount p ⟨p.first, 0, 0⟩ ∧ p.first ≤ v := ⟨searchInv_start amount p, h.first_le⟩

theorem Fits.findAddress (h : Fits t p v amount) (ht : Counted t)
    (hfind : t.findAddress fuel amount p = some value) : Candidate t p amount value ∧ value ≤ v := by
  refine WhileLoop.run_invariant (Q := fun value => Candidate t p amount value ∧ value ≤ v)
    (fun s s' hs hb => h.step ht hs hb) (fun s r hs hb => ?_) h.start hfind
  obtain ⟨-, rfl⟩ := searchBody_exit hb
  exact ⟨candidate_of_searching ht hs.1.visited, hs.2⟩

/-- Where a block fits, no candidate exceeds `2 ^ 64 - 1`. -/
theorem Fits.nextFits (h : Fits t p v amount) (ht : Counted t) : NextFits t amount p := by
  intro s hs hblocked
  obtain ⟨-, hle⟩ := hs.invariant (fun s s' hs hb => h.step ht hs hb) h.start
  have hlive := live_of_blocked ht hs hblocked
  exact ((h.passes _ hlive).of_blocked h.sum_fits hle hblocked.2.2).1

end Search

/-! ### The condition of a call -/

/-- The number of slots that will be written after one more record is. -/
def slotsAfter (t : Allocator) : ℕ := max t.written (t.live.card + 1)

/-- The block lies in described memory and off the first `n` slots of the table. -/
def Described (map : List Descriptor) (n : ℕ) (value amount : UInt64) : Prop :=
  bytes value amount ⊆ describedMemory map ∧
    ∀ j < n, Disjoint (bytes value amount) (slotRange map j)

/-- Some block of `amount` bytes fits, and every address the search tries up to there that is clear of the
records starts a block of described memory off the table. -/
def Room (map : List Descriptor) (t : Allocator) (amount : UInt64) (p : Placement) : Prop :=
  ∃ v, Fits t p v amount ∧ ∀ w, Candidate t p amount w → w ≤ v →
    (∀ i ∈ t.live, Clear w amount (t.allocated i)) → Described map t.slotsAfter w amount

/-- The bytes of a block in use. -/
def Block.range (b : Block) : Set ℕ := bytes b.pointer b.amount

/-- When every written slot holds a present record, the next slot is not inside a block in use. -/
def SlotFree (map : List Descriptor) (s : Session) : Prop :=
  s.table.live.card = s.table.written →
    ∀ b ∈ s.held, Disjoint b.range (slotRange map s.table.written)

/-- The condition of a request: an allocation finds room for its block and for its record, and the
address freed is not where a region the boot code marked begins. -/
def Request.Served (map : List Descriptor) (s : Session) : Request → Prop
  | .allocate amount => Room map s.table amount plain ∧ SlotFree map s
  | .allocateAligned amount alignment =>
    1 ≤ alignment ∧ Room map s.table amount (aligned alignment) ∧ SlotFree map s
  | .free k => ∀ b, s.held[k]? = some b → ∀ r ∈ unusableRegions map, r.1 < r.2 → b.pointer ≠ r.1

/-! ### The invariant -/

/-- What the boot leaves and every request that meets its condition keeps. -/
structure Backed (map : List Descriptor) (s : Session) : Prop where
  counted : Counted s.table
  regions : ∀ r ∈ unusableRegions map, r.1 < r.2 →
    ∃ i ∈ s.table.live, s.table.allocated i = ⟨true, r.1, r.2⟩
  starts : Multiset.map Block.pointer s.held ≤ s.table.records.map Allocation.start
  inside : ∀ b ∈ s.held, b.range ⊆ usableMemory map
  apart : ∀ b ∈ s.held, ∀ j < s.table.written, Disjoint b.range (slotRange map j)

section Steps

variable {map : List Descriptor} {t t' : Allocator} {s s' : Session} {fuel : ℕ}
  {amount value : UInt64} {p : Placement}

/-- Described memory that is clear of every marked region is usable. -/
theorem Described.usable {n : ℕ} (h : Described map n value amount)
    (hregions : ∀ r ∈ unusableRegions map, r.1 < r.2 →
      ∃ i ∈ t.live, t.allocated i = ⟨true, r.1, r.2⟩)
    (hclear : ∀ i ∈ t.live, Clear value amount (t.allocated i))
    (hsum : value.toNat + amount.toNat < 2 ^ 64) : bytes value amount ⊆ usableMemory map := by
  intro a ha
  obtain ⟨d, hd, hda⟩ := h.1 ha
  cases husable : d.usable with
  | true => exact ⟨d, hd, husable, hda⟩
  | false =>
    exfalso
    have hmem : (d.physicalStart, d.finish) ∈ unusableRegions map :=
      List.mem_map_of_mem (List.mem_filter.2 ⟨hd, by simp [husable]⟩)
    obtain ⟨hlow, hhigh⟩ := hda
    have hlt : d.physicalStart < d.finish := by
      rw [UInt64.lt_iff_toNat_lt, d.toNat_finish]
      omega
    obtain ⟨i, hi, hrecord⟩ := hregions _ hmem hlt
    have hc := hclear i hi
    obtain ⟨hva, hav⟩ := ha
    rw [hrecord, Clear, UInt64.le_iff_toNat_le, UInt64.le_iff_toNat_le, UInt64.toNat_add,
      Nat.mod_eq_of_lt hsum, d.toNat_finish] at hc
    dsimp only at hc
    omega

/-- Where there is room, a call returns a block of usable memory off the table. -/
theorem Room.found (h : Room map t amount p) (ht : Counted t)
    (hregions : ∀ r ∈ unusableRegions map, r.1 < r.2 →
      ∃ i ∈ t.live, t.allocated i = ⟨true, r.1, r.2⟩)
    (hfind : t.findAddress fuel amount p = some value) :
    bytes value amount ⊆ usableMemory map ∧
      ∀ j < t.slotsAfter, Disjoint (bytes value amount) (slotRange map j) := by
  obtain ⟨v, hfits, hoffered⟩ := h
  obtain ⟨hcand, hle⟩ := hfits.findAddress ht hfind
  have hclear := findAddress_clear ht hfind
  have hdescribed := hoffered value hcand hle hclear
  have hsum : value.toNat + amount.toNat < 2 ^ 64 := by
    have h1 := hfits.sum_fits
    have h2 := UInt64.le_iff_toNat_le.1 hle
    omega
  exact ⟨hdescribed.usable hregions hclear hsum, hdescribed.2⟩

/-- There is room when the first candidate is below every record and starts a block of described
memory off the table. -/
theorem room_at_first (hsum : p.first.toNat + amount.toNat < 2 ^ 64)
    (hbelow : ∀ i ∈ t.live, p.first + amount ≤ (t.allocated i).start)
    (hdescribed : Described map t.slotsAfter p.first amount) : Room map t amount p := by
  have honly : ∀ w, Candidate t p amount w → w = p.first := by
    intro w hw
    induction hw with
    | first => rfl
    | next _ hi ih => exact absurd (.inl (ih ▸ hbelow _ hi.live)) hi.blocked
  refine ⟨p.first, ⟨hsum, UInt64.le_refl _, fun i hi => .inl (hbelow i hi)⟩, fun w hw _ _ => ?_⟩
  exact honly w hw ▸ hdescribed

theorem Backed.hold (h : Backed map s) (hroom : Room map s.table amount p) (hslot : SlotFree map s)
    (hstep : (s.table.reserve fuel amount p).bind (s.hold fuel amount) = some s') :
    Backed map s' := by
  obtain ⟨⟨value, t'⟩, hres, hhold⟩ := Option.bind_eq_some_iff.1 hstep
  obtain ⟨slot, -, rfl⟩ := Option.map_eq_some_iff.1 hhold
  obtain ⟨hcounted, hwritten⟩ := reserve_written h.counted hres
  obtain ⟨slot', hfind, -, hrec⟩ := reserve_recorded h.counted hres
  have hslots : t'.written = s.table.slotsAfter := by
    rw [hwritten, hrec.live_eq, Finset.card_insert_of_notMem hrec.fresh, slotsAfter]
  obtain ⟨hinside, hoff⟩ := hroom.found h.counted h.regions hfind
  refine ⟨hcounted, fun r hr hlt => ?_, ?_, fun b hb => ?_, fun b hb j hj => ?_⟩
  · obtain ⟨i, hi, hrecord⟩ := h.regions r hr hlt
    refine ⟨i, ?_, (hrec.allocated_of_live hi).trans hrecord⟩
    show i ∈ t'.live
    rw [hrec.live_eq]
    exact Finset.mem_insert_of_mem hi
  · show Multiset.map Block.pointer (⟨value, slot, amount⟩ :: s.held) ≤
      t'.records.map Allocation.start
    rw [hrec.records, Multiset.map_cons, ← Multiset.cons_coe, Multiset.map_cons]
    exact Multiset.cons_le_cons value h.starts
  · rcases List.mem_cons.1 hb with rfl | hb
    · exact hinside
    · exact h.inside b hb
  · replace hj : j < s.table.slotsAfter := hslots ▸ hj
    rcases List.mem_cons.1 hb with rfl | hb
    · exact hoff j hj
    · by_cases hjw : j < s.table.written
      · exact h.apart b hb j hjw
      · -- the slot is the one after the written slots, which are all in use
        have hcard := card_live_le s.table
        rw [slotsAfter] at hj
        obtain rfl : j = s.table.written := by omega
        exact hslot (by omega) b hb

/-- The address of a block in use is the start of a present record. -/
theorem Backed.held_start (h : Backed map s) {b : Block} (hb : b ∈ s.held) :
    ∃ i ∈ s.table.live, (s.table.allocated i).start = b.pointer := by
  have hmem : b.pointer ∈ Multiset.map Block.pointer s.held := Multiset.mem_map_of_mem _ hb
  obtain ⟨r, hr, hstart⟩ := Multiset.mem_map.1 (Multiset.mem_of_le h.starts hmem)
  obtain ⟨i, hi, rfl⟩ := Multiset.mem_map.1 hr
  exact ⟨i, hi, hstart⟩

theorem Backed.free (h : Backed map s) {k : ℕ} {b : Block} (hb : s.held[k]? = some b)
    (hregion : ∀ r ∈ unusableRegions map, r.1 < r.2 → b.pointer ≠ r.1)
    (hfree : s.table.unallocate fuel b.pointer = some t') : Backed map ⟨t', s.held.eraseIdx k⟩ := by
  obtain ⟨i, hi, hstart⟩ := h.held_start (List.mem_of_getElem? hb)
  obtain ⟨slot, hrel, rfl, hslot⟩ := unallocate_released hi hstart hfree
  obtain ⟨hk, rfl⟩ := List.getElem?_eq_some_iff.1 hb
  have hheld : (s.held : Multiset Block) = s.held[k] ::ₘ (s.held.eraseIdx k : Multiset Block) :=
    (Multiset.coe_eq_coe.2 (List.getElem_cons_eraseIdx_perm hk)).symm
  have hstarts := h.starts
  rw [hheld, Multiset.map_cons] at hstarts
  refine ⟨hrel.counted h.counted, fun r hr hlt => ?_, ?_, fun b hb => ?_, fun b hb j hj => ?_⟩
  · obtain ⟨i, hi, hrecord⟩ := h.regions r hr hlt
    have hne : i ≠ slot := by
      rintro rfl
      rw [hrecord] at hslot
      exact hregion r hr hlt hslot.symm
    refine ⟨i, ?_, (hrel.allocated_of_ne i hne).trans hrecord⟩
    show i ∈ (s.table.release slot).live
    rw [hrel.live_eq]
    exact Finset.mem_erase.2 ⟨hne, hi⟩
  · rw [hrel.records, Multiset.map_cons, hslot] at hstarts
    exact (Multiset.cons_le_cons_iff _).1 hstarts
  · exact h.inside b (List.mem_of_mem_eraseIdx hb)
  · have hle : slot + 1 ≤ s.table.written := (mem_live.1 hrel.mem).1
    have hj' : j < max s.table.written (slot + 1) := hj
    exact h.apart b (List.mem_of_mem_eraseIdx hb) j (by omega)

theorem Backed.step (h : Backed map s) {r : Request} (hr : r.Served map s)
    (hstep : r.step fuel s = some s') : Backed map s' := by
  cases r with
  | allocate amount => exact h.hold hr.1 hr.2 hstep
  | allocateAligned amount alignment => exact h.hold hr.2.1 hr.2.2 hstep
  | free k =>
    simp only [Request.step, bind, Option.bind_eq_some_iff, pure, Option.some.injEq] at hstep
    obtain ⟨b, hb, t', hfree, rfl⟩ := hstep
    exact h.free hb (hr b hb) hfree

end Steps

/-! ### Runs -/

section Runs

variable {map : List Descriptor} {t t₀ : Allocator} {s : Session} {fuel : ℕ}

/-- Every marked region is recorded. -/
theorem recorded_markAll (marked : List (UInt64 × UInt64)) {regions : List (UInt64 × UInt64)}
    (ht : Counted t) (hmarked : ∀ r ∈ marked, ∃ i ∈ t.live, t.allocated i = ⟨true, r.1, r.2⟩)
    (hrun : t.markAll fuel regions = some t₀) :
    Counted t₀ ∧ ∀ r ∈ marked ++ regions, ∃ i ∈ t₀.live, t₀.allocated i = ⟨true, r.1, r.2⟩ := by
  induction regions generalizing marked t with
  | nil =>
    rw [markAll, Trace.run_nil, Option.some.injEq] at hrun
    rw [List.append_nil]
    exact hrun ▸ ⟨ht, hmarked⟩
  | cons r rest ih =>
    rw [markAll, Trace.run_cons] at hrun
    obtain ⟨t', hstep, hrest⟩ := Option.bind_eq_some_iff.1 hrun
    obtain ⟨slot, hrec⟩ := markUnusable_recorded ht hstep
    rw [List.append_cons]
    refine ih (marked ++ [r]) (hrec.counted ht) (fun q hq => ?_) hrest
    rw [hrec.live_eq]
    rcases List.mem_append.1 hq with hq | hq
    · obtain ⟨i, hi, hrecord⟩ := hmarked q hq
      exact ⟨i, Finset.mem_insert_of_mem hi, (hrec.allocated_of_live hi).trans hrecord⟩
    · obtain rfl := List.mem_singleton.1 hq
      exact ⟨slot, Finset.mem_insert_self _ _, hrec.allocated_slot⟩

theorem backed_boot {memory : ℕ → Allocation} (hboot : boot fuel map memory = some t₀) :
    Backed map ⟨t₀, []⟩ := by
  obtain ⟨hcounted, hregions⟩ :=
    recorded_markAll [] (counted_initAllocator memory) (by simp) hboot
  exact ⟨hcounted, fun r hr _ => hregions r hr, Multiset.zero_le _, by simp, by simp⟩

/-- **Allocations stay in usable memory while there is room.** For every memory map and every run of
requests that meet their condition, every block in use lies inside descriptors of conventional or
boot-services memory and overlaps no slot of the table. -/
theorem run_backed {memory : ℕ → Allocation} {requests : List Request}
    (hboot : boot fuel map memory = some t₀)
    (hrequests : Trace.Along (Request.step fuel) (fun s r => r.Served map s) ⟨t₀, []⟩ requests)
    (hrun : Trace.run (Request.step fuel) ⟨t₀, []⟩ requests = some s) :
    ∀ b ∈ s.held, b.range ⊆ usableMemory map ∧
      ∀ j < s.table.written, Disjoint b.range (slotRange map j) := by
  have h : Backed map s :=
    Trace.run_invariant_along (fun s r s' hs hr hstep => hs.step hr hstep) (backed_boot hboot)
      hrequests hrun
  exact fun b hb => ⟨h.inside b hb, h.apart b hb⟩

/-- A request that meets its condition returns. -/
theorem Backed.returns (h : Backed map s) {r : Request} (hr : r.Served map s)
    (hfree : ∀ k, r = .free k → k < s.held.length) : ∃ fuel s', r.step fuel s = some s' := by
  have hreserve : ∀ amount p, p.Advances → Room map s.table amount p →
      ∃ fuel s', (s.table.reserve fuel amount p).bind (s.hold fuel amount) = some s' := by
    intro amount p hp hroom
    obtain ⟨v, hfits, -⟩ := hroom
    obtain ⟨fuel, value, t', hres⟩ := reserve_total h.counted hp (hfits.nextFits h.counted)
    obtain ⟨slot, -, hslot, -⟩ := reserve_recorded h.counted hres
    exact ⟨fuel, ⟨t', ⟨value, slot, amount⟩ :: s.held⟩, by simp [hres, Session.hold, hslot]⟩
  cases r with
  | allocate amount => exact hreserve amount plain plain_advances hr.1
  | allocateAligned amount alignment =>
    exact hreserve amount (aligned alignment) (aligned_advances alignment) hr.2.1
  | free k =>
    have hk := hfree k rfl
    obtain ⟨i, hi, hstart⟩ := h.held_start (List.getElem_mem hk)
    obtain ⟨fuel, t', hun⟩ := unallocate_total hi
    rw [hstart] at hun
    exact ⟨fuel, ⟨t', s.held.eraseIdx k⟩, by simp [Request.step, hk, hun]⟩

/-- Two usable regions around a reserved page. -/
def splitMap : List Descriptor :=
  [⟨7, 0x1000000, 2, by decide⟩, ⟨0, 0x1002000, 1, by decide⟩, ⟨7, 0x1003000, 16, by decide⟩]

/-- A page is allocated in the first region of `splitMap`. -/
theorem run_backed_splitMap :
    ∃ t₀ s, boot 9 splitMap (fun _ => ⟨true, 7, 9⟩) = some t₀ ∧
      Trace.run (Request.step 9) ⟨t₀, []⟩ [.allocate 0x1000] = some s ∧
      s.held = [⟨0x1000000, 1, 0x1000⟩] ∧ ∀ b ∈ s.held, b.range ⊆ usableMemory splitMap ∧
        ∀ j < s.table.written, Disjoint b.range (slotRange splitMap j) := by
  refine ⟨_, _, rfl, rfl, rfl, ?_⟩
  refine @run_backed splitMap _ _ 9 (fun _ => ⟨true, 7, 9⟩) [.allocate 0x1000] rfl
    ⟨⟨?_, fun _ b hb => by simp at hb⟩, fun _ _ => trivial⟩ rfl
  refine room_at_first (by decide) (fun i hi => ?_) ⟨fun a ha => ?_, fun j hj => ?_⟩
  · obtain rfl : i = 0 := Nat.lt_one_iff.1 (mem_live.1 hi).1
    decide
  · exact ⟨⟨7, 0x1000000, 2, by decide⟩, List.mem_cons_self, ha.1, lt_of_lt_of_le ha.2 (by decide)⟩
  · have hj : j < 2 := hj
    obtain rfl | rfl : j = 0 ∨ j = 1 := by omega
    · exact Set.Ico_disjoint_Ico.2 (by decide)
    · exact Set.Ico_disjoint_Ico.2 (by decide)

/-- **No room**: a block may lie over the slot that its own call writes, when usable memory is one
page, and outside all described memory, when usable memory ends below `memoryStart`. -/
theorem allocations_not_backed :
    (∃ t₀ s, boot 9 [⟨7, 0x1000000, 1, by decide⟩] (fun _ => ⟨false, 0, 0⟩) = some t₀ ∧
      Trace.run (Request.step 9) ⟨t₀, []⟩ [.allocate 0x1000] = some s ∧ s.table.written = 1 ∧
      ∃ b ∈ s.held, ¬ Disjoint b.range (slotRange [⟨7, 0x1000000, 1, by decide⟩] 0)) ∧
    ∃ t₀ s, boot 9 [⟨7, 0, 256, by decide⟩] (fun _ => ⟨false, 0, 0⟩) = some t₀ ∧
      Trace.run (Request.step 9) ⟨t₀, []⟩ [.allocate 16] = some s ∧
      ∃ b ∈ s.held, ¬ b.range ⊆ usableMemory [⟨7, 0, 256, by decide⟩] := by
  refine ⟨⟨_, _, rfl, rfl, rfl, ⟨0x1000000, 0, 0x1000⟩, List.mem_singleton_self _, ?_⟩,
    ⟨_, _, rfl, rfl, ⟨0x1000000, 0, 16⟩, List.mem_singleton_self _, ?_⟩⟩
  · rw [Set.not_disjoint_iff]
    exact ⟨0x1000FF0, Set.mem_Ico.2 ⟨by decide, by decide⟩, Set.mem_Ico.2 ⟨by decide, by decide⟩⟩
  · intro h
    have hmem : 0x1000000 ∈ Block.range ⟨0x1000000, 0, 16⟩ := Set.mem_Ico.2 ⟨by decide, by decide⟩
    have hrange := (mem_usableMemory_singleton.1 (h hmem)).2
    exact absurd (Set.mem_Ico.1 hrange).2 (by decide)

end Runs

end Allocator
end Naul
