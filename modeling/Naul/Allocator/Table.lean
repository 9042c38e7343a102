import Naul.Lib.WhileLoop
import Mathlib.Data.Finset.Card
import Mathlib.Data.Nat.Count

/-!
# The physical memory allocator (`os/src/allocator.c`)

The allocator keeps one table of records, which grows downward from the address `allocated`. A
record excludes the half-open range `[start, end)`; a freed record stays in its slot with
`present = false` and the slot is used again.

`allocate` and `allocateAligned` are one search: a candidate address is compared with the records
from the top of the table, and the first record in its way sends the candidate past its end and the
comparison back to the top. The two differ in the first candidate and in how a candidate is moved
(`Placement`). Every scan stops by counting present records, never by the end of the table.

Addresses and sizes are `UInt64`, as in the source. The counters are natural numbers: a table of
`2 ^ 64` records does not fit below a 64-bit address. The lock around each operation is not modelled
here: an operation is one step.
-/

namespace Naul

/-- `#define MEMORY_START 0x1000000`. -/
def memoryStart : UInt64 := 0x1000000

/-- `typedef struct { bool present; uint64_t start; uint64_t end; } Allocation`. -/
structure Allocation where
  present : Bool
  (start end' : UInt64)
  deriving DecidableEq, Repr

/-- The addresses `[start, end)` a record excludes. -/
def Allocation.range (r : Allocation) : Set ℕ := Set.Ico r.start.toNat r.end'.toNat

/-- The allocator's variables. `allocated i` is the record `i` places below the pointer `allocated`.
The ghost field `written` is one more than the last slot ever written: slots from there on hold
whatever the memory held before. No function reads it. -/
structure Allocator where
  allocated : ℕ → Allocation
  allocations : ℕ
  unusable : UInt64
  written : ℕ

namespace Allocator

/-- The allocator after `initAllocator`, over memory with contents `memory`. -/
def initAllocator (memory : ℕ → Allocation) : Allocator := ⟨memory, 0, 0, 0⟩

/-- Write the record in slot `i`. -/
def store (t : Allocator) (i : ℕ) (r : Allocation) : Allocator :=
  { t with allocated := Function.update t.allocated i r, written := max t.written (i + 1) }

/-- The variables of the loop that looks for a slot to write. -/
structure Scan where
  allocation : ℕ
  count : ℕ

/-- `while (allocation->present && count != allocations) { count++; allocation--; }`. -/
def slotBody (t : Allocator) (s : Scan) : Scan ⊕ ℕ :=
  if (t.allocated s.allocation).present ∧ s.count ≠ t.allocations then
    .inl ⟨s.allocation + 1, s.count + 1⟩
  else .inr s.allocation

/-- The slot the next record is written to. -/
def emptySlot (fuel : ℕ) (t : Allocator) : Option ℕ := WhileLoop.run t.slotBody fuel ⟨0, 0⟩

def markUnusable (fuel : ℕ) (start end' : UInt64) (t : Allocator) : Option Allocator := do
  let slot ← t.emptySlot fuel
  return { t.store slot ⟨true, start, end'⟩ with
    allocations := t.allocations + 1
    unusable := t.unusable + (end' - start) }

/-- The variables of the search for an address. -/
structure Search where
  value : UInt64
  allocation : ℕ
  count : ℕ

/-- What distinguishes the two searches: the first candidate, the candidate tried after a record
that is in the way, and the ends for which computing that candidate does not exceed `2 ^ 64 - 1`. -/
structure Placement where
  first : UInt64
  next : UInt64 → UInt64
  Safe : UInt64 → Prop

/-- The candidate `value` does not meet the record: `value + amount <= allocation->start ||
value >= allocation->end`. -/
def Clear (value amount : UInt64) (r : Allocation) : Prop :=
  value + amount ≤ r.start ∨ r.end' ≤ value

instance (value amount : UInt64) (r : Allocation) : Decidable (Clear value amount r) :=
  inferInstanceAs (Decidable (_ ∨ _))

/-- One turn of `while (count != allocations)` in `allocate` and `allocateAligned`. -/
def searchBody (t : Allocator) (amount : UInt64) (next : UInt64 → UInt64) (s : Search) :
    Search ⊕ UInt64 :=
  if s.count = t.allocations then .inr s.value
  else if (t.allocated s.allocation).present then
    if Clear s.value amount (t.allocated s.allocation) then
      .inl ⟨s.value, s.allocation + 1, s.count + 1⟩
    else .inl ⟨next (t.allocated s.allocation).end', 0, 0⟩
  else .inl { s with allocation := s.allocation + 1 }

/-- The address the search finds. -/
def findAddress (fuel : ℕ) (t : Allocator) (amount : UInt64) (p : Placement) : Option UInt64 :=
  WhileLoop.run (t.searchBody amount p.next) fuel ⟨p.first, 0, 0⟩

/-- The common body of `allocate` and `allocateAligned`. -/
def reserve (fuel : ℕ) (amount : UInt64) (p : Placement) (t : Allocator) :
    Option (UInt64 × Allocator) := do
  let value ← t.findAddress fuel amount p
  let slot ← t.emptySlot fuel
  return (value, { t.store slot ⟨true, value, value + amount⟩ with
    allocations := t.allocations + 1 })

/-- `x + (alignment - (x % alignment))`. -/
def alignUp (alignment x : UInt64) : UInt64 := x + (alignment - x % alignment)

/-- The search of `allocate`. -/
def plain : Placement := ⟨memoryStart, fun e => e, fun _ => True⟩

/-- The search of `allocateAligned`. -/
def aligned (alignment : UInt64) : Placement :=
  ⟨alignUp alignment memoryStart, alignUp alignment,
    fun e => e.toNat + (alignment - e % alignment).toNat < 2 ^ 64⟩

def allocate (fuel : ℕ) (amount : UInt64) (t : Allocator) : Option (UInt64 × Allocator) :=
  t.reserve fuel amount plain

def allocateAligned (fuel : ℕ) (amount alignment : UInt64) (t : Allocator) :
    Option (UInt64 × Allocator) :=
  t.reserve fuel amount (aligned alignment)

/-- `while (!test->present || test->start != (uint64_t)pointer) { test--; }`. -/
def matchBody (t : Allocator) (pointer : UInt64) (test : ℕ) : ℕ ⊕ ℕ :=
  if (t.allocated test).present = false ∨ (t.allocated test).start ≠ pointer then .inl (test + 1)
  else .inr test

/-- The slot `unallocate` frees. -/
def matchSlot (fuel : ℕ) (t : Allocator) (pointer : UInt64) : Option ℕ :=
  WhileLoop.run (t.matchBody pointer) fuel 0

/-- Clear the record in slot `i`. -/
def release (t : Allocator) (i : ℕ) : Allocator :=
  { t.store i { t.allocated i with present := false } with allocations := t.allocations - 1 }

def unallocate (fuel : ℕ) (pointer : UInt64) (t : Allocator) : Option Allocator := do
  let test ← t.matchSlot fuel pointer
  return t.release test

/-- The variables of the loop that adds up the sizes of the records. -/
structure Tally where
  size : UInt64
  allocation : ℕ
  count : ℕ

/-- One turn of `while (count != allocations)` in `getUsage`. `allocations` is no volatile variable, and
the optimised loop compares with the value that has been read at the entry. -/
def usageBody (allocations : ℕ) (t : Allocator) (s : Tally) : Tally ⊕ UInt64 :=
  if s.count = allocations then .inr (s.size - t.unusable)
  else if (t.allocated s.allocation).present then
    .inl ⟨s.size + ((t.allocated s.allocation).end' - (t.allocated s.allocation).start),
      s.allocation + 1, s.count + 1⟩
  else .inl { s with allocation := s.allocation + 1 }

def getUsage (fuel : ℕ) (t : Allocator) : Option UInt64 :=
  WhileLoop.run (t.usageBody t.allocations) fuel ⟨0, 0, 0⟩

/-! ### Present records -/

/-- The slots that hold a present record. -/
def live (t : Allocator) : Finset ℕ :=
  (Finset.range t.written).filter fun i => (t.allocated i).present

@[simp] theorem mem_live {t : Allocator} {i : ℕ} :
    i ∈ t.live ↔ i < t.written ∧ (t.allocated i).present = true := by
  simp [live]

/-- The number of present records in the first `n` slots. -/
def presentBelow (t : Allocator) (n : ℕ) : ℕ := Nat.count (fun i => (t.allocated i).present) n

theorem card_live (t : Allocator) : t.live.card = t.presentBelow t.written := by
  rw [live, presentBelow, Nat.count_eq_card_filter_range]

@[simp] theorem live_initAllocator (memory : ℕ → Allocation) :
    (initAllocator memory).live = ∅ := by
  ext i
  simp [initAllocator]

end Allocator
end Naul
