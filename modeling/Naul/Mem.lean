import Naul.Lib.Cells

/-!
# Blocks of memory (`include/mem.h`)

`setMemory8`, `16`, `32`, `64` and `copyMemory8`, `16`, `32`, `64` are two loops at four widths. A
pointer is the number of a cell of its width.

`getAddress` turns an address of the running process into a physical one. It reads the page tables
under `cr3`, but only the first entry of each directory: a process is one contiguous block. The
memory it reads is the physical memory as 64-bit words, where word `i` is at address `8 * i`.
-/

namespace Naul

variable {α : Type*}

def setMemory (destination : ℕ) (value : α) (count : ℕ) (m : Cells α) : Cells α :=
  m.fill destination value count

def copyMemory (source destination count : ℕ) (m : Cells α) : Cells α :=
  m.copy source destination count

/-- `copyMemory` from a block outside the memory it copies to, with contents `source`. -/
def copyMemoryFrom (source : List α) (destination : ℕ) (m : Cells α) : Cells α :=
  m.storeList destination source

def processAddress : UInt64 := 0x8000000000

/-- `#define PAGE_ADDRESS_MASK ~0xFFFUL`. -/
def pageAddressMask : UInt64 := ~~~0xFFF

/-- `*(uint64_t*)address`. -/
def load64 (m : Cells UInt64) (address : UInt64) : UInt64 := m.cell (address.toNat / 8)

def getAddress (m : Cells UInt64) (cr3 address : UInt64) : UInt64 :=
  if processAddress ≤ address then
    (load64 m (load64 m (load64 m (cr3 + 8) &&& pageAddressMask) &&& pageAddressMask) &&&
      pageAddressMask) + address - processAddress
  else address

end Naul
