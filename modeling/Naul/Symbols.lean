import Naul.Lib.Fuel
import Naul.Filesystem

/-!
# Symbols (`os/src/symbols.c`)

`parseSymbols` goes over a symbol file twice. The first pass counts the lines of type `T` or `t`; the
second reads the address and the name of each into a table allocated in between. A line is sixteen
characters, the type between two spaces, the name, and a newline (`SymbolLine`). The bytes of a file
are a function of their place, which also has what lies after the file.

The second pass measures a name in a `uint8_t`. `returns_readSymbols_iff` says when it ends: each name
that it reads has at most 255 characters.
-/

namespace Naul

namespace Symbols

open Fuel

/-- `'\n'`. -/
def newline : UInt8 := 10

/-- `' '`. -/
def space : UInt8 := 32

/-- `'T'` or `'t'`. -/
def isText (type : UInt8) : Bool := type = 84 || type = 116

/-- `typedef struct { uint64_t address; char name[256]; } Symbol`; the name up to its terminator. -/
structure Symbol where
  address : UInt64
  name : List UInt8
  deriving DecidableEq

/-- `sizeof(Symbol)`. -/
def sizeofSymbol : UInt64 := 264

/-- The `n` bytes that `copyMemory8` copies from the place `p`. -/
def readBytes (data : ℕ → UInt8) (p n : ℕ) : List UInt8 := (List.range n).map fun i => data (p + i)

/-! ### The two passes -/

/-- The variables of the first pass. -/
structure Counting where
  amount : UInt64
  current : ℕ

/-- `while (data[current - 1] != '\n') { current++; }`. -/
def lineBody (data : ℕ → UInt8) (current : ℕ) : ℕ ⊕ ℕ :=
  if data (current - 1) ≠ newline then .inl (current + 1) else .inr current

/-- One turn of `while (current < symbolsSize)`. -/
def countBody (data : ℕ → UInt8) (symbolsSize : ℕ) (fuel : ℕ) (s : Counting) :
    Option (Counting ⊕ UInt64) :=
  if s.current < symbolsSize then
    (WhileLoop.run (lineBody data) fuel (s.current + 17 + 2)).bind fun current =>
      some (.inl ⟨if isText (data (s.current + 17)) then s.amount + 1 else s.amount, current⟩)
  else some (.inr s.amount)

def countSymbols (data : ℕ → UInt8) (symbolsSize fuel : ℕ) : Option UInt64 :=
  loop (countBody data symbolsSize) fuel ⟨0, 0⟩

/-- The variables of the second pass: how far `data` has been moved, `i`, and the entries written. -/
structure Parsing where
  data : ℕ
  i : UInt64
  symbols : List Symbol

/-- `while (data[length] != '\n') { length++; }` with `uint8_t length`. -/
def nameBody (data : ℕ → UInt8) (p : ℕ) (length : UInt8) : UInt8 ⊕ UInt8 :=
  if data (p + length.toNat) ≠ newline then .inl (length + 1) else .inr length

/-- `while (*data != '\n') { data++; }`. -/
def skipBody (data : ℕ → UInt8) (p : ℕ) : ℕ ⊕ ℕ :=
  if data p ≠ newline then .inl (p + 1) else .inr p

/-- One turn of `for (uint64_t i = 0; i < amount; i++)`. -/
def parseBody (data : ℕ → UInt8) (amount : UInt64) (fuel : ℕ) (s : Parsing) :
    Option (Parsing ⊕ List Symbol) :=
  if s.i < amount then
    if isText (data (s.data + 17)) then
      (WhileLoop.run (nameBody data (s.data + 19)) fuel 0).bind fun length =>
        some (.inl ⟨s.data + 19 + (length.toNat + 1), s.i + 1, s.symbols ++
          [⟨fromHex ((readBytes data s.data 16).takeWhile fun c => c ≠ 0),
            readBytes data (s.data + 19) length.toNat⟩]⟩)
    else
      (WhileLoop.run (skipBody data) fuel s.data).bind fun p =>
        some (.inl ⟨p + 1, s.i - 1 + 1, s.symbols⟩)
  else some (.inr s.symbols)

def readSymbols (data : ℕ → UInt8) (amount : UInt64) (fuel : ℕ) : Option (List Symbol) :=
  loop (parseBody data amount) fuel ⟨0, 0, []⟩

/-- What `parseSymbols` returns, with the entries in the block and `*count`. -/
structure SymbolTable where
  address : UInt64
  symbols : List Symbol
  count : UInt64

/-- `parseSymbols(file, &count)`, where `contents` has the bytes of the files at their addresses. -/
def parseSymbols (fuel : ℕ) (file : CString) (files : Filesystem) (contents : UInt64 → ℕ → UInt8)
    (t : Allocator) : Option (SymbolTable × Allocator) := do
  let (data, symbolsSize) ← files.getFile fuel file
  let amount ← countSymbols (contents data) symbolsSize.toNat fuel
  let (address, t) ← t.allocate fuel (amount * sizeofSymbol)
  let symbols ← readSymbols (contents data) amount fuel
  return (⟨address, symbols, amount⟩, t)

/-! ### The lines of a file -/

/-- A line of a symbol file. -/
structure SymbolLine where
  address : List UInt8
  type : UInt8
  name : List UInt8
  length_address : address.length = 16
  newline_address : newline ∉ address
  newline_type : type ≠ newline
  newline_name : newline ∉ name

namespace SymbolLine

/-- The line without its newline. -/
def text (l : SymbolLine) : List UInt8 := l.address ++ (space :: l.type :: space :: l.name)

def bytes (l : SymbolLine) : List UInt8 := l.text ++ [newline]

def IsText (l : SymbolLine) : Prop := isText l.type = true

instance decidableIsText (l : SymbolLine) : Decidable l.IsText := inferInstanceAs (Decidable (_ = _))

/-- The entry of the table for a line. -/
def symbol (l : SymbolLine) : Symbol := ⟨fromHex (l.address.takeWhile fun c => c ≠ 0), l.name⟩

/-- The name has a length that a `uint8_t` can hold. -/
def Short (l : SymbolLine) : Prop := l.name.length ≤ 255

instance decidableShort (l : SymbolLine) : Decidable l.Short := inferInstanceAs (Decidable (_ ≤ _))

theorem length_text (l : SymbolLine) : l.text.length = 19 + l.name.length := by
  simp only [text, List.length_append, List.length_cons, l.length_address]
  omega

theorem length_bytes (l : SymbolLine) : l.bytes.length = 20 + l.name.length := by
  rw [bytes, List.length_append, length_text, List.length_singleton]
  omega

theorem newline_text (l : SymbolLine) : newline ∉ l.text := by
  have hspace : newline ≠ space := by decide
  simp only [text, List.mem_append, List.mem_cons, not_or]
  exact ⟨l.newline_address, hspace, fun h => l.newline_type h.symm, hspace, l.newline_name⟩

end SymbolLine

/-- The number of lines of type `T` or `t`. -/
def textCount (lines : List SymbolLine) : ℕ := lines.countP fun l => l.IsText

/-- The bytes at a place are those of a list. -/
def Reads (data : ℕ → UInt8) (p : ℕ) (bs : List UInt8) : Prop :=
  ∀ i (h : i < bs.length), data (p + i) = bs[i]

/-- A symbol file with these lines. -/
structure IsSymbolFile (data : ℕ → UInt8) (size : UInt64) (lines : List SymbolLine) : Prop where
  size : size.toNat = (lines.flatMap SymbolLine.bytes).length
  reads : Reads data 0 (lines.flatMap SymbolLine.bytes)

/-! ### What the passes read -/

section Reads

variable {data : ℕ → UInt8} {p : ℕ} {bs cs : List UInt8} {l : SymbolLine}

theorem reads_append :
    Reads data p (bs ++ cs) ↔ Reads data p bs ∧ Reads data (p + bs.length) cs := by
  constructor
  · intro h
    constructor
    · intro i hi
      rw [h i (by rw [List.length_append]; omega), List.getElem_append_left hi]
    · intro i hi
      rw [Nat.add_assoc, h (bs.length + i) (by rw [List.length_append]; omega),
        List.getElem_append_right (Nat.le_add_right _ _)]
      simp only [Nat.add_sub_cancel_left]
  · rintro ⟨hbs, hcs⟩ i hi
    rw [List.getElem_append]
    split_ifs with hlt
    · exact hbs i hlt
    · rw [← hcs (i - bs.length) (by rw [List.length_append] at hi; omega)]
      exact congrArg data (by omega)

theorem reads_cons {c : UInt8} : Reads data p (c :: cs) ↔ data p = c ∧ Reads data (p + 1) cs := by
  rw [← List.singleton_append, reads_append]
  exact and_congr_left fun _ => ⟨fun h => h 0 Nat.one_pos, fun h i hi => by
    obtain rfl : i = 0 := by simpa using hi
    exact h⟩

theorem readBytes_eq (h : Reads data p bs) : readBytes data p bs.length = bs := by
  refine List.ext_getElem (by simp [readBytes]) fun i hi hi' => ?_
  simp only [readBytes, List.getElem_map, List.getElem_range]
  exact h i hi'

theorem Reads.ne_of_notMem {c : UInt8} (h : Reads data p bs) (hc : c ∉ bs) {i : ℕ}
    (hi : i < bs.length) : data (p + i) ≠ c := by
  rw [h i hi]
  rintro rfl
  exact hc (List.getElem_mem hi)

/-- The places of a line. -/
structure LineAt (data : ℕ → UInt8) (p : ℕ) (l : SymbolLine) : Prop where
  address : readBytes data p 16 = l.address
  type : data (p + 17) = l.type
  name : Reads data (p + 19) l.name
  ne_newline : ∀ i < 19 + l.name.length, data (p + i) ≠ newline
  newline : data (p + (19 + l.name.length)) = newline

theorem lineAt_of_reads (h : Reads data p l.bytes) : LineAt data p l := by
  obtain ⟨htext, hnewline⟩ := reads_append.1 h
  have hplaces := htext
  simp only [SymbolLine.text, reads_append, reads_cons, l.length_address] at hplaces
  obtain ⟨haddress, -, htype, -, hname⟩ := hplaces
  refine ⟨?_, htype, hname, fun i hi => ?_, ?_⟩
  · rw [← l.length_address]
    exact readBytes_eq haddress
  · exact htext.ne_of_notMem l.newline_text (by rwa [l.length_text])
  · rw [← l.length_text]
    exact (reads_cons.1 hnewline).1

end Reads

/-! ### The first pass -/

section Count

variable {data : ℕ → UInt8} {p : ℕ} {l : SymbolLine} {lines : List SymbolLine}

theorem steady_countBody (data : ℕ → UInt8) (size : ℕ) (s : Counting) :
    Steady fun n => countBody data size n s :=
  steady_ite (steady_bind (steady_run _ _) fun _ => steady_some _) (steady_some _)

/-- The loop over the name of a line ends after its newline. -/
theorem LineAt.run_lineBody (h : LineAt data p l) :
    WhileLoop.run (lineBody data) (1 + l.name.length + 1) (p + 17 + 2) =
      some (p + (20 + l.name.length)) := by
  refine WhileLoop.run_of_turns (fun i => p + 17 + 2 + i) (fun i hi => ?_) ?_
  · have hne := h.ne_newline (18 + i) (by omega)
    rw [lineBody, show p + 17 + 2 + i - 1 = p + (18 + i) by omega, if_pos hne]
    rfl
  · rw [lineBody, show p + 17 + 2 + (1 + l.name.length) - 1 = p + (19 + l.name.length) by omega,
      if_neg (not_not.2 h.newline), show p + 17 + 2 + (1 + l.name.length) = p + (20 + l.name.length) by omega]

theorem textCount_cons (l : SymbolLine) (lines : List SymbolLine) :
    textCount (l :: lines) = textCount lines + if l.IsText then 1 else 0 := by
  by_cases h : l.IsText <;> simp [textCount, h]

theorem returns_count {size : ℕ} {amount : UInt64}
    (hreads : Reads data p (lines.flatMap SymbolLine.bytes))
    (hsize : p + (lines.flatMap SymbolLine.bytes).length = size) :
    Returns (fun n => loop (countBody data size) n ⟨amount, p⟩)
      (amount + UInt64.ofNat (textCount lines)) := by
  induction lines generalizing p amount with
  | nil =>
    refine returns_loop_inr ⟨0, ?_⟩
    have hexit : ¬ p < size := by simp only [List.flatMap_nil, List.length_nil] at hsize; omega
    simp only [countBody, if_neg hexit]
    simp [textCount]
  | cons l lines ih =>
    rw [List.flatMap_cons, List.length_append, l.length_bytes] at hsize
    rw [List.flatMap_cons, reads_append, l.length_bytes] at hreads
    have hline := lineAt_of_reads hreads.1
    have hturn : Returns (fun n => countBody data size n ⟨amount, p⟩)
        (.inl ⟨if l.IsText then amount + 1 else amount, p + (20 + l.name.length)⟩) := by
      refine ⟨1 + l.name.length + 1, ?_⟩
      simp only [countBody, if_pos (by omega : p < size), hline.run_lineBody, hline.type,
        Option.bind_some]
      rfl
    rw [returns_loop_inl (steady_countBody data size) hturn]
    -- the rest of the file, counted from what this line makes of `amount`
    have hrest := @ih _ (if l.IsText then amount + 1 else amount) hreads.2 (by omega)
    rw [textCount_cons]
    split_ifs at hrest ⊢ with htext
    · rwa [UInt64.ofNat_add, UInt64.add_comm (UInt64.ofNat _), ← UInt64.add_assoc]
    · exact hrest

theorem IsSymbolFile.returns_countSymbols {size : UInt64} (h : IsSymbolFile data size lines) :
    Returns (countSymbols data size.toNat) (UInt64.ofNat (textCount lines)) := by
  have hcount := @returns_count _ _ _ _ 0 h.reads ((Nat.zero_add _).trans h.size.symm)
  rwa [UInt64.zero_add] at hcount

theorem length_le_flatMap (lines : List SymbolLine) :
    20 * textCount lines ≤ (lines.flatMap SymbolLine.bytes).length := by
  induction lines with
  | nil => exact Nat.zero_le _
  | cons l lines ih =>
    rw [textCount_cons, List.flatMap_cons, List.length_append, l.length_bytes]
    split_ifs <;> omega

/-- The count fits. -/
theorem IsSymbolFile.toNat_textCount {size : UInt64} (h : IsSymbolFile data size lines) :
    20 * textCount lines < 2 ^ 64 :=
  (length_le_flatMap lines).trans_lt (h.size ▸ size.toNat_lt)

end Count

/-! ### The second pass -/

section Parse

variable {data : ℕ → UInt8} {p : ℕ} {l : SymbolLine} {lines : List SymbolLine} {amount : UInt64}

/-- The entries of the table for a file. -/
def symbolsOf (lines : List SymbolLine) : List Symbol :=
  (lines.filter fun l => l.IsText).map SymbolLine.symbol

theorem steady_parseBody (data : ℕ → UInt8) (amount : UInt64) (s : Parsing) :
    Steady fun n => parseBody data amount n s :=
  steady_ite (steady_ite (steady_bind (steady_run _ _) fun _ => steady_some _)
    (steady_bind (steady_run _ _) fun _ => steady_some _)) (steady_some _)

theorem LineAt.run_skipBody (h : LineAt data p l) :
    WhileLoop.run (skipBody data) (19 + l.name.length + 1) p = some (p + (19 + l.name.length)) := by
  refine WhileLoop.run_of_turns (fun i => p + i) (fun i hi => ?_) ?_
  · rw [skipBody, if_pos (h.ne_newline i hi)]
    rfl
  · rw [skipBody, if_neg (not_not.2 h.newline)]

/-- A name of at most 255 characters is measured. -/
theorem LineAt.run_nameBody (h : LineAt data p l) (hshort : l.Short) :
    WhileLoop.run (nameBody data (p + 19)) (l.name.length + 1) 0 =
      some (UInt8.ofNat l.name.length) := by
  have htoNat : ∀ i ≤ l.name.length, (UInt8.ofNat i).toNat = i := fun i hi => by
    have hle : l.name.length ≤ 255 := hshort
    rw [UInt8.toNat_ofNat', Nat.mod_eq_of_lt (by omega)]
  refine WhileLoop.run_of_turns (fun i => UInt8.ofNat i) (fun i hi => ?_) ?_
  · rw [nameBody, htoNat i hi.le, if_pos]
    · rw [UInt8.ofNat_add]
      rfl
    · rw [Nat.add_assoc]
      exact h.ne_newline (19 + i) (by omega)
  · rw [nameBody, htoNat _ le_rfl, if_neg]
    rw [not_not, Nat.add_assoc]
    exact h.newline

/-- A longer one is not: the loop comes back to the beginning of the name. -/
theorem LineAt.run_nameBody_none (h : LineAt data p l) (hlong : ¬ l.Short) (n : ℕ) :
    WhileLoop.run (nameBody data (p + 19)) n 0 = none := by
  -- any value of the 8-bit `length` is the place of a character that is no newline
  refine WhileLoop.run_eq_none (I := fun _ => True) (fun length _ => ?_) trivial n
  have hlt := length.toNat_lt
  have hlong' : 255 < l.name.length := not_le.1 hlong
  refine ⟨length + 1, ?_, trivial⟩
  rw [nameBody, if_pos]
  rw [Nat.add_assoc]
  exact h.ne_newline (19 + length.toNat) (by omega)

theorem LineAt.returns_parse_text {i : UInt64} {symbols : List Symbol} (h : LineAt data p l)
    (hi : i < amount) (htext : l.IsText) (hshort : l.Short) :
    Returns (fun n => parseBody data amount n ⟨p, i, symbols⟩)
      (.inl ⟨p + (20 + l.name.length), i + 1, symbols ++ [l.symbol]⟩) := by
  have hle : l.name.length ≤ 255 := hshort
  have hlength : (UInt8.ofNat l.name.length).toNat = l.name.length := by
    rw [UInt8.toNat_ofNat', Nat.mod_eq_of_lt (by omega)]
  have hisText : isText (data (p + 17)) = true := h.type ▸ htext
  refine ⟨l.name.length + 1, ?_⟩
  simp only [parseBody, if_pos hi, if_pos hisText, h.run_nameBody hshort, Option.bind_some, hlength,
    h.address, readBytes_eq h.name, SymbolLine.symbol]
  rw [show p + 19 + (l.name.length + 1) = p + (20 + l.name.length) by omega]

theorem LineAt.returns_parse_other {i : UInt64} {symbols : List Symbol} (h : LineAt data p l)
    (hi : i < amount) (htext : ¬ l.IsText) :
    Returns (fun n => parseBody data amount n ⟨p, i, symbols⟩)
      (.inl ⟨p + (20 + l.name.length), i, symbols⟩) := by
  have hisText : ¬ isText (data (p + 17)) = true := h.type ▸ htext
  refine ⟨19 + l.name.length + 1, ?_⟩
  simp only [parseBody, if_pos hi, if_neg hisText, h.run_skipBody, Option.bind_some,
    UInt64.sub_add_cancel]
  rw [show p + (19 + l.name.length) + 1 = p + (20 + l.name.length) by omega]

/-- The second pass from a line on: it ends if and only if it can measure each name it reads. -/
theorem returns_parse_iff {i : UInt64} {symbols result : List Symbol}
    (hreads : Reads data p (lines.flatMap SymbolLine.bytes))
    (hamount : i.toNat + textCount lines = amount.toNat) :
    Returns (fun n => loop (parseBody data amount) n ⟨p, i, symbols⟩) result ↔
      (∀ l ∈ lines, l.IsText → l.Short) ∧ result = symbols ++ symbolsOf lines := by
  induction lines generalizing p i symbols with
  | nil =>
    have hexit : ¬ i < amount := by
      rw [UInt64.lt_iff_toNat_lt, ← hamount]
      exact Nat.lt_irrefl _
    have hturn : Returns (fun n => parseBody data amount n ⟨p, i, symbols⟩) (.inr symbols) :=
      ⟨0, by simp only [parseBody, if_neg hexit]⟩
    rw [returns_unique_iff (steady_loop (steady_parseBody data amount) _) (returns_loop_inr hturn)]
    simp [symbolsOf, eq_comm]
  | cons l lines ih =>
    rw [List.flatMap_cons, reads_append, l.length_bytes] at hreads
    have hline := lineAt_of_reads hreads.1
    rw [textCount_cons] at hamount
    by_cases hi : i < amount
    · by_cases htext : l.IsText
      · rw [if_pos htext] at hamount
        by_cases hshort : l.Short
        · rw [returns_loop_inl (steady_parseBody data amount)
            (hline.returns_parse_text hi htext hshort), ih hreads.2 ?_]
          · simp [symbolsOf, htext, hshort]
          · have hlt := amount.toNat_lt
            rw [UInt64.toNat_add, UInt64.toNat_one, Nat.mod_eq_of_lt (by omega)]
            omega
        · -- this name is not measured, so no turn comes back from it
          refine iff_of_false (not_returns_loop fun x hx => ?_) fun h =>
            hshort (h.1 l List.mem_cons_self htext)
          obtain ⟨n, hn⟩ := hx
          have hisText : isText (data (p + 17)) = true := hline.type ▸ htext
          simp [parseBody, hi, hisText, hline.run_nameBody_none hshort] at hn
      · rw [if_neg htext, Nat.add_zero] at hamount
        rw [returns_loop_inl (steady_parseBody data amount) (hline.returns_parse_other hi htext),
          ih hreads.2 hamount]
        simp [symbolsOf, htext]
    · -- all entries are written, and no line that is left is counted
      have hturn : Returns (fun n => parseBody data amount n ⟨p, i, symbols⟩) (.inr symbols) :=
        ⟨0, by simp only [parseBody, if_neg hi]⟩
      have hnone : textCount (l :: lines) = 0 := by
        rw [textCount_cons]
        rw [UInt64.lt_iff_toNat_lt] at hi
        omega
      have hother : ∀ m ∈ l :: lines, ¬ m.IsText := by
        simpa [textCount, List.countP_eq_zero] using hnone
      rw [returns_unique_iff (steady_loop (steady_parseBody data amount) _) (returns_loop_inr hturn)]
      have hnil : symbolsOf (l :: lines) = [] := by
        rw [symbolsOf, List.filter_eq_nil_iff.2 fun m hm => by simpa using hother m hm, List.map_nil]
      rw [hnil, List.append_nil]
      exact ⟨fun h => ⟨fun m hm ht => absurd ht (hother m hm), h.symm⟩, fun h => h.2.symm⟩

/-- **When the second pass ends.** -/
theorem IsSymbolFile.returns_readSymbols_iff {size : UInt64} {result : List Symbol}
    (h : IsSymbolFile data size lines) :
    Returns (readSymbols data (UInt64.ofNat (textCount lines))) result ↔
      (∀ l ∈ lines, l.IsText → l.Short) ∧ result = symbolsOf lines := by
  refine (@returns_parse_iff _ _ _ _ _ [] _ h.reads ?_).trans (by rw [List.nil_append])
  have hlt := h.toNat_textCount
  rw [UInt64.toNat_ofNat', Nat.mod_eq_of_lt (by omega), UInt64.toNat_zero, Nat.zero_add]

end Parse

end Symbols

end Naul
