import Naul.Lib.LittleEndian

/-!
# Tables of the firmware

A table of the firmware begins with a header whose second word is the table's length in bytes, the header
included. Here it is the memory from the table's address on, which does not end with the table: a byte is
given by its offset, and it lies in the table when that is below the length.
-/

namespace Naul

/-- The memory from an address on. -/
def tableAt (memory : UInt64 → UInt8) (a : UInt64) (n : ℕ) : UInt8 := memory (a + .ofNat n)

/-- The offsets of the bytes of a word. -/
def wordAt (p : ℕ) : List ℕ := [p, p + 1, p + 2, p + 3]

/-- `*(uint32_t*)(table + p)`. -/
def load32 (table : ℕ → UInt8) (p : ℕ) : UInt32 := .ofNat (LittleEndian.value ((wordAt p).map table))

/-- `header.length`. -/
def tableLength (table : ℕ → UInt8) : UInt32 := load32 table 4

/-- The bytes that have been read lie in the table. -/
def InTable (table : ℕ → UInt8) (reads : List ℕ) : Prop := ∀ p ∈ reads, p < (tableLength table).toNat

section InTable

variable {table : ℕ → UInt8} {us vs : List ℕ} {p : ℕ}

theorem inTable_append : InTable table (us ++ vs) ↔ InTable table us ∧ InTable table vs :=
  List.forall_mem_append

theorem inTable_cons : InTable table (p :: us) ↔ p < (tableLength table).toNat ∧ InTable table us :=
  List.forall_mem_cons

theorem inTable_wordAt : InTable table (wordAt p) ↔ p + 3 < (tableLength table).toNat := by
  simp only [InTable, wordAt, List.forall_mem_cons, List.not_mem_nil, false_implies, implies_true, and_true]
  omega

end InTable

end Naul
