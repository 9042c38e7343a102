import Naul.Lib.WhileLoop
import Naul.Allocator.Table
import Naul.Mem

/-!
# Page tables (`os/src/paging.c`)

`createTable` builds the tables of a process in one block: the PML4, one directory of directories,
and as many page directories of 2 MiB pages as `pages` needs. The memory is the physical memory as
64-bit words; a `uint64_t*` is the number of its word, and `toAddress` is the cast to `uint64_t`.

`walk` is the translation the processor makes with the tables.
-/

namespace Naul

def pageEntrySize : UInt64 := 0x1000

def pageAlignment : UInt64 := 0x1000

def pageEntryCount : ℕ := 512

def pagePresent : UInt64 := 0x3

def pageSized : UInt64 := 0x80

def pageSize : UInt64 := 0x200000

/-- `(uint64_t)p`. -/
def toAddress (p : ℕ) : UInt64 := UInt64.ofNat (8 * p)

/-- The size of the block: `((pages - 1) / PAGE_ENTRY_COUNT + 3) * PAGE_ENTRY_SIZE`. -/
def tableSize (pages : UInt64) : UInt64 :=
  ((pages - 1) / UInt64.ofNat pageEntryCount + 3) * pageEntrySize

/-- The variables of the two loops of `createTable`. -/
structure Filling where
  pages : UInt64
  address : UInt64
  table : UInt16
  memory : Cells UInt64

/-- The `for` loop: from `i`, for `n` more turns. -/
def fillDirectory (pdt i : ℕ) : ℕ → Filling → Filling
  | 0, s => s
  | n + 1, s =>
    fillDirectory pdt (i + 1) n { s with
      memory := s.memory.store (pdt + i) (s.address ||| pagePresent ||| pageSized)
      address := s.address + pageSize
      pages := s.pages - 1 }

/-- `count = min(pages, PAGE_ENTRY_COUNT)`. -/
def directoryPages (pages : UInt64) : UInt16 :=
  (if pages < UInt64.ofNat pageEntryCount then pages else UInt64.ofNat pageEntryCount).toUInt16

/-- One turn of `while (pages != 0)`. -/
def directoryBody (pdpt : ℕ) (s : Filling) : Filling ⊕ Cells UInt64 :=
  if s.pages ≠ 0 then
    let pdt := pdpt + pageEntryCount + s.table.toNat * pageEntryCount
    let s := { s with memory := setMemory pdt 0 pageEntryCount s.memory }
    let count := directoryPages s.pages
    let s := fillDirectory pdt 0 count.toNat s
    .inl { s with
      memory := s.memory.store (pdpt + s.table.toNat) (toAddress pdt ||| pagePresent)
      table := s.table + 1 }
  else .inr s.memory

/-- `createTable(start, pages)` after the allocation, in the block `pml4t`. -/
def buildTable (fuel : ℕ) (mainPdpt start pages : UInt64) (pml4t : ℕ) (memory : Cells UInt64) :
    Option (Cells UInt64) := do
  let memory := setMemory pml4t 0 pageEntryCount memory
  let memory := memory.store pml4t mainPdpt
  let pdpt := pml4t + pageEntryCount
  let memory := setMemory pdpt 0 pageEntryCount memory
  let memory ← WhileLoop.run (directoryBody pdpt) fuel ⟨pages, start, 0, memory⟩
  return memory.store (pml4t + 1) (toAddress pdpt ||| pagePresent)

/-- `createTable(start, pages)`: the value for `cr3`, the memory and the allocator afterwards. -/
def createTable (fuel : ℕ) (mainPdpt start pages : UInt64) (memory : Cells UInt64) (t : Allocator) :
    Option (UInt64 × Cells UInt64 × Allocator) := do
  let (block, t) ← t.allocateAligned fuel (tableSize pages) pageAlignment
  let pml4t := block.toNat / 8
  let memory ← buildTable fuel mainPdpt start pages pml4t memory
  return (toAddress pml4t, memory, t)

/-! ### The translation of the processor -/

/-- The entry maps something. -/
def isPresent (entry : UInt64) : Bool := entry.toNat % 2 = 1

/-- The entry maps a page itself instead of pointing to a table. -/
def isSized (entry : UInt64) : Bool := entry.toNat / 128 % 2 = 1

/-- The address in an entry or in `cr3`, bits 51 to 12. -/
def entryAddress (entry : UInt64) : ℕ := entry.toNat / 2 ^ 12 % 2 ^ 40 * 2 ^ 12

/-- The upper 17 bits of a virtual address are equal. -/
def Canonical (v : UInt64) : Prop := v.toNat < 2 ^ 47 ∨ 2 ^ 64 - 2 ^ 47 ≤ v.toNat

instance (v : UInt64) : Decidable (Canonical v) := inferInstanceAs (Decidable (_ ∨ _))

/-- The index of 9 bits from bit `shift` upward. -/
def tableIndex (v : UInt64) (shift : ℕ) : ℕ := v.toNat / 2 ^ shift % 2 ^ 9

/-- The entry of the table at physical address `table` for an index. -/
def tableEntry (m : Cells UInt64) (table index : ℕ) : UInt64 := m.cell (table / 8 + index)

/-- The four-level walk: the physical address of a virtual one, `none` when it is not mapped. The
address is split into four indices of 9 bits and an offset; a sized entry ends the walk, and the
offset is then what is below its page size. Reserved bits are not checked. -/
def walk (m : Cells UInt64) (cr3 v : UInt64) : Option ℕ := do
  guard (Canonical v)
  let pml4e := tableEntry m (entryAddress cr3) (tableIndex v 39)
  guard (isPresent pml4e)
  let pdpte := tableEntry m (entryAddress pml4e) (tableIndex v 30)
  guard (isPresent pdpte)
  if isSized pdpte then return entryAddress pdpte / 2 ^ 30 * 2 ^ 30 + v.toNat % 2 ^ 30
  let pde := tableEntry m (entryAddress pdpte) (tableIndex v 21)
  guard (isPresent pde)
  if isSized pde then return entryAddress pde / 2 ^ 21 * 2 ^ 21 + v.toNat % 2 ^ 21
  let pte := tableEntry m (entryAddress pde) (tableIndex v 12)
  guard (isPresent pte)
  return entryAddress pte + v.toNat % 2 ^ 12

end Naul
