import Mathlib.Data.List.TakeWhile
import Naul.Lib.Cells
import Naul.Str.Numerals
import Naul.Symbols

/-!
# What `parseSymbols` reads and writes

The two passes once more, at the memory they work on. Reading is partial here: a read of what is no part
of the file has no result, and then neither has the pass, so that a pass that returns has read nothing
but the file. An entry of the table has its field `name` as a memory of its own, of which the first 256
cells are the field. `Agrees.countSymbols` and `Agrees.readSymbols` connect the passes to those of `Symbols`.

`returns_parse` goes over the lines of a file in nm's format with both passes in step.
-/

namespace Naul

namespace Symbols

open Fuel

/-- An element of the table: `name` continues into what comes after the field. -/
structure Entry where
  address : UInt64
  name : Cells UInt8

namespace Parse

/-- What can be read, at each place. -/
abbrev Source := ℕ → Option UInt8

/-- `while (data[current - 1] != '\n') { current++; }`. -/
def lineBody (read : Source) (current : ℕ) : Option (ℕ ⊕ ℕ) :=
  (read (current - 1)).map fun c => if c ≠ newline then .inl (current + 1) else .inr current

/-- One turn of `while (current < symbolsSize)`. -/
def countBody (read : Source) (symbolsSize fuel : ℕ) (s : Counting) : Option (Counting ⊕ UInt64) :=
  if s.current < symbolsSize then
    (read (s.current + 17)).bind fun type =>
      (loop (fun _ => lineBody read) fuel (s.current + 17 + 2)).bind fun current =>
        some (.inl ⟨if isText type then s.amount + 1 else s.amount, current⟩)
  else some (.inr s.amount)

/-- The variables of the second pass, with the table. -/
structure Filling where
  data : ℕ
  i : UInt64
  symbols : UInt64 → Entry

/-- What `copyMemory8` reads. -/
def readBlock (read : Source) (p : ℕ) : ℕ → Option (List UInt8)
  | 0 => some []
  | n + 1 => (read p).bind fun c => (readBlock read (p + 1) n).map (c :: ·)

/-- `while (data[length] != '\n') { length++; }` with `uint8_t length`. -/
def nameBody (read : Source) (p : ℕ) (length : UInt8) : Option (UInt8 ⊕ UInt8) :=
  (read (p + length.toNat)).map fun c => if c ≠ newline then .inl (length + 1) else .inr length

/-- `while (*data != '\n') { data++; }`. -/
def skipBody (read : Source) (p : ℕ) : Option (ℕ ⊕ ℕ) :=
  (read p).map fun c => if c ≠ newline then .inl (p + 1) else .inr p

/-- `symbols[i].address = fromHex(name)`, the copy of the name, and `symbols[i].name[length] = '\0'`. -/
def fillEntry (address name : List UInt8) (length : UInt8) (e : Entry) : Entry where
  address := fromHex (address.takeWhile fun c => c ≠ 0)
  name := (e.name.storeList 0 name).store length.toNat 0

/-- One turn of `for (uint64_t i = 0; i < amount; i++)`. -/
def parseBody (read : Source) (amount : UInt64) (fuel : ℕ) (s : Filling) :
    Option (Filling ⊕ (UInt64 → Entry)) :=
  if s.i < amount then
    (read (s.data + 17)).bind fun type =>
      if isText type then
        (readBlock read s.data 16).bind fun address =>
          (loop (fun _ => nameBody read (s.data + 19)) fuel 0).bind fun length =>
            (readBlock read (s.data + 19) length.toNat).bind fun name =>
              some (.inl ⟨s.data + 19 + (length.toNat + 1), s.i + 1,
                Function.update s.symbols s.i (fillEntry address name length (s.symbols s.i))⟩)
      else
        (loop (fun _ => skipBody read) fuel s.data).bind fun p =>
          some (.inl ⟨p + 1, s.i - 1 + 1, s.symbols⟩)
  else some (.inr s.symbols)

/-- `parseSymbols` for a file of `symbolsSize` bytes, where the block that `allocate` returns holds
`symbols`: the table, and `*count`. -/
def parseSymbols (read : Source) (symbolsSize : ℕ) (symbols : UInt64 → Entry) (fuel : ℕ) :
    Option ((UInt64 → Entry) × UInt64) :=
  (loop (countBody read symbolsSize) fuel ⟨0, 0⟩).bind fun amount =>
    (loop (parseBody read amount) fuel ⟨0, 0, symbols⟩).bind fun symbols => some (symbols, amount)

/-! ### The bytes of a line -/

/-- From `p` on the bytes of a list can be read. -/
def HasBytes (read : Source) (p : ℕ) (bs : List UInt8) : Prop :=
  ∀ i c, bs[i]? = some c → read (p + i) = some c

section Bytes

variable {read : Source} {p : ℕ} {bs cs : List UInt8} {l : SymbolLine}

theorem hasBytes_append :
    HasBytes read p (bs ++ cs) ↔ HasBytes read p bs ∧ HasBytes read (p + bs.length) cs := by
  constructor
  · intro h
    constructor
    · intro i c hc
      apply h
      rw [List.getElem?_append_left (List.getElem?_eq_some_iff.1 hc).1, hc]
    · intro i c hc
      rw [Nat.add_assoc]
      apply h
      rw [List.getElem?_append_right (Nat.le_add_right _ _), Nat.add_sub_cancel_left, hc]
  · rintro ⟨hbs, hcs⟩ i c hc
    rcases Nat.lt_or_ge i bs.length with hi | hi
    · rw [List.getElem?_append_left hi] at hc
      exact hbs i c hc
    · rw [List.getElem?_append_right hi] at hc
      have hread := hcs _ c hc
      rwa [Nat.add_assoc, Nat.add_sub_cancel' hi] at hread

theorem hasBytes_cons {c : UInt8} :
    HasBytes read p (c :: cs) ↔ read p = some c ∧ HasBytes read (p + 1) cs := by
  rw [← List.singleton_append, hasBytes_append]
  apply and_congr_left
  intro _
  constructor
  · intro h
    exact h 0 c rfl
  · intro h i d hd
    obtain ⟨rfl, rfl⟩ : i = 0 ∧ c = d := by
      cases i with
      | zero => simpa using hd
      | succ i => simp at hd
    exact h

theorem HasBytes.readBlock (h : HasBytes read p bs) : readBlock read p bs.length = some bs := by
  induction bs generalizing p with
  | nil => rfl
  | cons c bs ih =>
    obtain ⟨hc, hbs⟩ := hasBytes_cons.1 h
    rw [List.length_cons, Parse.readBlock, hc, Option.bind_some, ih hbs]
    rfl

/-- What the passes read of a line. -/
structure LineIn (read : Source) (p : ℕ) (l : SymbolLine) : Prop where
  address : readBlock read p 16 = some l.address
  type : read (p + 17) = some l.type
  name : readBlock read (p + 19) l.name.length = some l.name
  text : ∀ i < 19 + l.name.length, ∃ c ≠ newline, read (p + i) = some c
  newline : read (p + (19 + l.name.length)) = some newline

theorem HasBytes.lineIn (h : HasBytes read p l.bytes) : LineIn read p l := by
  obtain ⟨htext, hnewline⟩ := hasBytes_append.1 h
  have hplaces := htext
  simp only [SymbolLine.text, hasBytes_append, hasBytes_cons, l.length_address] at hplaces
  obtain ⟨haddress, -, htype, -, hname⟩ := hplaces
  constructor
  · rw [← l.length_address]
    exact haddress.readBlock
  · exact htype
  · exact hname.readBlock
  · intro i hi
    rw [← l.length_text] at hi
    refine ⟨l.text[i], ?_, htext i _ (List.getElem?_eq_getElem hi)⟩
    intro heq
    exact l.newline_text (heq ▸ List.getElem_mem hi)
  · rw [← l.length_text]
    exact (hasBytes_cons.1 hnewline).1

/-! ### The inner loops -/

theorem LineIn.lineBody (h : LineIn read p l) :
    loop (fun _ => lineBody read) (1 + l.name.length + 1) (p + 17 + 2) =
      some (p + (20 + l.name.length)) := by
  refine loop_of_turns (fun i => p + 17 + 2 + i) (fun i hi => ?_) ?_
  · obtain ⟨c, hc, hread⟩ := h.text (18 + i) (by omega)
    rw [Parse.lineBody, show p + 17 + 2 + i - 1 = p + (18 + i) by omega, hread, Option.map_some, if_pos hc]
    rfl
  · rw [Parse.lineBody,
      show p + 17 + 2 + (1 + l.name.length) - 1 = p + (19 + l.name.length) by omega, h.newline,
      Option.map_some, if_neg (not_not.2 rfl),
      show p + 17 + 2 + (1 + l.name.length) = p + (20 + l.name.length) by omega]

theorem LineIn.skipBody (h : LineIn read p l) :
    loop (fun _ => skipBody read) (19 + l.name.length + 1) p = some (p + (19 + l.name.length)) := by
  refine loop_of_turns (fun i => p + i) (fun i hi => ?_) ?_
  · obtain ⟨c, hc, hread⟩ := h.text i hi
    rw [Parse.skipBody, hread, Option.map_some, if_pos hc]
    rfl
  · rw [Parse.skipBody, h.newline, Option.map_some, if_neg (not_not.2 rfl)]

theorem toNat_shortLength (hshort : l.Short) {i : ℕ} (hi : i ≤ l.name.length) :
    (UInt8.ofNat i).toNat = i := by
  have hle : l.name.length ≤ 255 := hshort
  rw [UInt8.toNat_ofNat', Nat.mod_eq_of_lt (by omega)]

theorem LineIn.nameBody (h : LineIn read p l) (hshort : l.Short) :
    loop (fun _ => nameBody read (p + 19)) (l.name.length + 1) 0 =
      some (UInt8.ofNat l.name.length) := by
  refine loop_of_turns (fun i => UInt8.ofNat i) (fun i hi => ?_) ?_
  · obtain ⟨c, hc, hread⟩ := h.text (19 + i) (by omega)
    rw [Parse.nameBody, toNat_shortLength hshort hi.le, Nat.add_assoc, hread, Option.map_some, if_pos hc,
      UInt8.ofNat_add]
    rfl
  · rw [Parse.nameBody, toNat_shortLength hshort le_rfl, Nat.add_assoc, h.newline, Option.map_some,
      if_neg (not_not.2 rfl)]

end Bytes

/-! ### The first pass -/

section Count

variable {read : Source} {p : ℕ} {l : SymbolLine} {lines : List SymbolLine} {amount : UInt64}

theorem steady_countBody (read : Source) (size : ℕ) (s : Counting) :
    Steady fun n => countBody read size n s :=
  steady_ite (steady_bind (steady_const _) fun _ =>
    steady_bind (steady_loop_const _ _) fun _ => steady_some _) (steady_some _)

theorem LineIn.returns_countBody (h : LineIn read p l) {size : ℕ} (hp : p < size) :
    Returns (fun n => countBody read size n ⟨amount, p⟩)
      (.inl ⟨if l.IsText then amount + 1 else amount, p + (20 + l.name.length)⟩) := by
  refine ⟨1 + l.name.length + 1, ?_⟩
  simp only [countBody, if_pos hp, h.type, h.lineBody, Option.bind_some]
  rfl

theorem returns_count {size : ℕ} (hread : HasBytes read p (lines.flatMap SymbolLine.bytes))
    (hsize : p + (lines.flatMap SymbolLine.bytes).length = size) :
    Returns (fun n => loop (countBody read size) n ⟨amount, p⟩)
      (amount + UInt64.ofNat (textCount lines)) := by
  induction lines generalizing p amount with
  | nil =>
    have hexit : ¬ p < size := by
      simp only [List.flatMap_nil, List.length_nil] at hsize
      omega
    refine returns_loop_inr ⟨0, ?_⟩
    simp only [countBody, if_neg hexit]
    simp [textCount]
  | cons l lines ih =>
    rw [List.flatMap_cons, List.length_append, l.length_bytes] at hsize
    rw [List.flatMap_cons, hasBytes_append, l.length_bytes] at hread
    rw [returns_loop_inl (steady_countBody read size) (hread.1.lineIn.returns_countBody (by omega))]
    have hrest := @ih _ (if l.IsText then amount + 1 else amount) hread.2 (by omega)
    rw [textCount_cons]
    split_ifs at hrest ⊢ with htext
    · rwa [UInt64.ofNat_add, UInt64.add_comm (UInt64.ofNat _), ← UInt64.add_assoc]
    · exact hrest

end Count

/-! ### The second pass -/

/-- The entry has become that of a line: its address, its name with the terminator, and no store
outside the field. -/
structure Filled (before after : Entry) (l : SymbolLine) : Prop where
  address : after.address = fromHex (l.address.takeWhile fun c => c ≠ 0)
  name : after.name.Has 0 (l.name ++ [0])
  stores : Cells.StoresIn (Set.Iio 256) before.name after.name

theorem filled_fillEntry {l : SymbolLine} (hshort : l.Short) (e : Entry) :
    Filled e (fillEntry l.address l.name (.ofNat l.name.length) e) l := by
  have hlength := toNat_shortLength hshort le_rfl
  have hle : l.name.length ≤ 255 := hshort
  constructor
  · rfl
  · rw [fillEntry, hlength]
    simpa using (e.name.has_storeList 0 l.name).append 0
  · rw [fillEntry, hlength]
    have hname := e.name.storesIn_storeList 0 l.name
    refine (hname.mono fun i hi => ?_).trans (Cells.storesIn_store _ ?_ 0)
    · have hi' := hi.2
      rw [Set.mem_Iio]
      omega
    · rw [Set.mem_Iio]
      omega

section Fill

variable {read : Source} {p : ℕ} {l : SymbolLine} {lines : List SymbolLine} {amount i : UInt64}
  {symbols : UInt64 → Entry}

theorem steady_parseBody (read : Source) (amount : UInt64) (s : Filling) :
    Steady fun n => parseBody read amount n s :=
  steady_ite (steady_bind (steady_const _) fun _ => steady_ite
    (steady_bind (steady_const _) fun _ => steady_bind (steady_loop_const _ _) fun _ =>
      steady_bind (steady_const _) fun _ => steady_some _)
    (steady_bind (steady_loop_const _ _) fun _ => steady_some _)) (steady_some _)

theorem LineIn.returns_parse_text (h : LineIn read p l) (hi : i < amount) (htext : l.IsText)
    (hshort : l.Short) :
    Returns (fun n => parseBody read amount n ⟨p, i, symbols⟩)
      (.inl ⟨p + (20 + l.name.length), i + 1, Function.update symbols i
        (fillEntry l.address l.name (.ofNat l.name.length) (symbols i))⟩) := by
  have htext' : isText l.type = true := htext
  refine ⟨l.name.length + 1, ?_⟩
  simp only [parseBody, if_pos hi, h.type, Option.bind_some, if_pos htext', h.address, h.nameBody hshort,
    toNat_shortLength hshort le_rfl, h.name]
  rw [show p + 19 + (l.name.length + 1) = p + (20 + l.name.length) by omega]

theorem LineIn.returns_parse_other (h : LineIn read p l) (hi : i < amount) (htext : ¬ l.IsText) :
    Returns (fun n => parseBody read amount n ⟨p, i, symbols⟩)
      (.inl ⟨p + (20 + l.name.length), i, symbols⟩) := by
  have htext' : ¬ isText l.type = true := htext
  refine ⟨19 + l.name.length + 1, ?_⟩
  simp only [parseBody, if_pos hi, h.type, Option.bind_some, if_neg htext', h.skipBody,
    UInt64.sub_add_cancel]
  rw [show p + (19 + l.name.length) + 1 = p + (20 + l.name.length) by omega]

theorem returns_parse_exit (hi : ¬ i < amount) :
    Returns (fun n => loop (parseBody read amount) n ⟨p, i, symbols⟩) symbols :=
  returns_loop_inr ⟨0, by simp only [parseBody, if_neg hi]⟩

theorem lt_textCount {k : ℕ} (hk : (lines.filter fun l => l.IsText)[k]? = some l) :
    k < textCount lines := by
  rw [textCount, List.countP_eq_length_filter]
  exact (List.getElem?_eq_some_iff.1 hk).1

/-- Where the entry at `i` is that of a line and the next lines have the entries from `i + 1` on, all of
them have the entries from `i` on. -/
theorem filled_cons {table : UInt64 → Entry} {e : Entry} {rest : List SymbolLine}
    (hroom : i.toNat + 1 + rest.length < 2 ^ 64) (hhere : Filled (symbols i) (table i) l)
    (hrest : ∀ k m, rest[k]? = some m →
      Filled (Function.update symbols i e (i + 1 + .ofNat k)) (table (i + 1 + .ofNat k)) m) :
    ∀ k m, (l :: rest)[k]? = some m → Filled (symbols (i + .ofNat k)) (table (i + .ofNat k)) m := by
  intro k m hk
  cases k with
  | zero =>
    obtain rfl : l = m := by simpa using hk
    have hzero : i + UInt64.ofNat 0 = i := UInt64.add_zero i
    rwa [hzero]
  | succ k =>
    rw [List.getElem?_cons_succ] at hk
    have hlt : k < rest.length := (List.getElem?_eq_some_iff.1 hk).1
    have hplace : i + UInt64.ofNat (k + 1) = i + 1 + UInt64.ofNat k := by
      rw [UInt64.ofNat_add, UInt64.add_comm (UInt64.ofNat k), ← UInt64.add_assoc]
      rfl
    have hne : i + UInt64.ofNat (k + 1) ≠ i := by
      intro heq
      have hnat := congrArg UInt64.toNat heq
      rw [UInt64.toNat_add, UInt64.toNat_ofNat', Nat.mod_eq_of_lt (a := k + 1) (by omega),
        Nat.mod_eq_of_lt (by omega)] at hnat
      omega
    have hfilled := hrest k m hk
    rwa [← hplace, Function.update_of_ne hne] at hfilled

/-- **The second pass fills the table in the order of the lines.** The entries before `i` are not
touched. -/
theorem returns_parse (hread : HasBytes read p (lines.flatMap SymbolLine.bytes))
    (hshort : ∀ l ∈ lines, l.IsText → l.Short) (hamount : i.toNat + textCount lines = amount.toNat) :
    ∃ table, Returns (fun n => loop (parseBody read amount) n ⟨p, i, symbols⟩) table ∧
      (∀ j < i, table j = symbols j) ∧
      ∀ k l, (lines.filter fun l => l.IsText)[k]? = some l →
        Filled (symbols (i + .ofNat k)) (table (i + .ofNat k)) l := by
  induction lines generalizing p i symbols with
  | nil =>
    have hexit : ¬ i < amount := by
      rw [UInt64.lt_iff_toNat_lt, ← hamount]
      exact Nat.lt_irrefl _
    exact ⟨symbols, returns_parse_exit hexit, fun _ _ => rfl, fun k l hk => by simp at hk⟩
  | cons l lines ih =>
    rw [List.flatMap_cons, hasBytes_append, l.length_bytes] at hread
    have hline := hread.1.lineIn
    have hshort' : ∀ m ∈ lines, m.IsText → m.Short := fun m hm => hshort m (List.mem_cons_of_mem _ hm)
    rw [textCount_cons] at hamount
    have hlt := amount.toNat_lt
    by_cases htext : l.IsText
    · rw [if_pos htext] at hamount
      have hi : i < amount := UInt64.lt_iff_toNat_lt.2 (by omega)
      have hnext : (i + 1).toNat = i.toNat + 1 := by
        rw [UInt64.toNat_add, UInt64.toNat_one, Nat.mod_eq_of_lt (by omega)]
      have hl := hshort l List.mem_cons_self htext
      obtain ⟨table, hreturns, hbefore, hfilled⟩ := @ih _ (i + 1) (Function.update symbols i
        (fillEntry l.address l.name (.ofNat l.name.length) (symbols i))) hread.2 hshort' (by omega)
      rw [List.filter_cons_of_pos (by simpa using htext)]
      refine ⟨table, ?_, fun j hj => ?_, filled_cons ?_ ?_ hfilled⟩
      · rwa [returns_loop_inl (steady_parseBody read amount) (hline.returns_parse_text hi htext hl)]
      · have hj' : j < i + 1 := by
          rw [UInt64.lt_iff_toNat_lt] at hj ⊢
          omega
        rw [hbefore j hj', Function.update_of_ne]
        rintro rfl
        exact UInt64.lt_irrefl _ hj
      · rw [← List.countP_eq_length_filter, ← textCount]
        omega
      · rw [hbefore i (UInt64.lt_iff_toNat_lt.2 (by omega)), Function.update_self]
        exact filled_fillEntry hl _
    · rw [if_neg htext, Nat.add_zero] at hamount
      rw [List.filter_cons_of_neg (by simpa using htext)]
      by_cases hi : i < amount
      · obtain ⟨table, hreturns, hrest⟩ := @ih _ i symbols hread.2 hshort' hamount
        refine ⟨table, ?_, hrest⟩
        rwa [returns_loop_inl (steady_parseBody read amount) (hline.returns_parse_other hi htext)]
      · -- all entries are filled, and no line that is left is counted
        refine ⟨symbols, returns_parse_exit hi, fun _ _ => rfl, fun k m hk => ?_⟩
        have hk' := lt_textCount hk
        rw [UInt64.lt_iff_toNat_lt] at hi
        omega

end Fill

/-! ### The same passes -/

section Refines

variable {read : Source} {data : ℕ → UInt8} {n p : ℕ} {amount : UInt64}

/-- What is read is what the memory has. -/
def Agrees (read : Source) (data : ℕ → UInt8) : Prop := ∀ p c, read p = some c → data p = c

/-- The table has the entries of the list. -/
def Matches (table : UInt64 → Entry) (symbols : List Symbol) : Prop :=
  ∀ k symbol, symbols[k]? = some symbol →
    (table (.ofNat k)).address = symbol.address ∧ (table (.ofNat k)).name.Has 0 (symbol.name ++ [0])

/-- A turn that reads one byte is the turn on the memory. -/
theorem Agrees.turn (h : Agrees read data) {σ : Type*} {next : UInt8 → σ} {x : σ}
    (hx : (read p).map next = some x) : next (data p) = x := by
  obtain ⟨c, hc, rfl⟩ := Option.map_eq_some_iff.1 hx
  rw [h p c hc]

theorem Agrees.readBytes (h : Agrees read data) {bs : List UInt8} (hbs : readBlock read p n = some bs) :
    readBytes data p n = bs := by
  induction n generalizing p bs with
  | zero => exact Option.some.inj hbs
  | succ n ih =>
    obtain ⟨c, hc, hrest⟩ := Option.bind_eq_some_iff.1 hbs
    obtain ⟨cs, hcs, rfl⟩ := Option.map_eq_some_iff.1 hrest
    rw [← ih hcs, ← h p c hc, Symbols.readBytes, List.range_succ_eq_map, List.map_cons, List.map_map]
    congr 1
    apply List.map_congr_left
    intro i _
    show data (p + (i + 1)) = data (p + 1 + i)
    congr 1
    omega

theorem Agrees.countSymbols (h : Agrees read data) {size : ℕ}
    (hcount : loop (countBody read size) n ⟨0, 0⟩ = some amount) :
    Symbols.countSymbols data size n = some amount := by
  have hbody : ∀ n s t x, s = t → countBody read size n s = some x →
      ∃ y, Symbols.countBody data size n t = some y ∧ Sum.LiftRel Eq Eq x y := by
    rintro n s _ x rfl hx
    refine ⟨x, ?_, ?_⟩
    · unfold Parse.countBody at hx
      unfold Symbols.countBody
      by_cases hlt : s.current < size
      · rw [if_pos hlt] at hx ⊢
        obtain ⟨type, htype, hx⟩ := Option.bind_eq_some_iff.1 hx
        obtain ⟨current, hcurrent, hx⟩ := Option.bind_eq_some_iff.1 hx
        have hrun : WhileLoop.run (Symbols.lineBody data) n (s.current + 17 + 2) = some current :=
          run_of_loop (fun s x hx => h.turn hx) hcurrent
        rw [hrun, Option.bind_some, h _ type htype]
        exact hx
      · rw [if_neg hlt] at hx ⊢
        exact hx
    · cases x
      · exact .inl rfl
      · exact .inr rfl
  obtain ⟨_, hloop, rfl⟩ := loop_simulates hbody rfl hcount
  exact hloop

/-- The variables are those of the other model, and the table has the entries written so far. -/
structure Follows (s : Filling) (t : Parsing) : Prop where
  data : s.data = t.data
  i : s.i = t.i
  length : t.symbols.length = s.i.toNat
  entries : Matches s.symbols t.symbols

/-- Both write the same entry. -/
theorem Follows.write {s : Filling} {t : Parsing} (h : Follows s t) (hi : s.i < amount) (q : ℕ)
    (address : List UInt8) {name : List UInt8} {length : UInt8} (hname : name.length = length.toNat) :
    Follows ⟨q, s.i + 1, Function.update s.symbols s.i (fillEntry address name length (s.symbols s.i))⟩
      ⟨q, t.i + 1, t.symbols ++ [⟨fromHex (address.takeWhile fun c => c ≠ 0), name⟩]⟩ := by
  have hlt := amount.toNat_lt
  have hi' := UInt64.lt_iff_toNat_lt.1 hi
  refine ⟨rfl, by rw [h.i], ?_, fun k symbol hk => ?_⟩
  · show (t.symbols ++ [_]).length = (s.i + 1).toNat
    rw [List.length_append, h.length, UInt64.toNat_add, UInt64.toNat_one, Nat.mod_eq_of_lt (by omega),
      List.length_singleton]
  · rcases Nat.lt_trichotomy k t.symbols.length with hk' | rfl | hk'
    · rw [List.getElem?_append_left hk'] at hk
      have hne : UInt64.ofNat k ≠ s.i := by
        intro heq
        have hlength := h.length
        have hnat := congrArg UInt64.toNat heq
        rw [UInt64.toNat_ofNat', Nat.mod_eq_of_lt (by omega)] at hnat
        omega
      simp only [Function.update_of_ne hne]
      exact h.entries k symbol hk
    · rw [List.getElem?_concat_length, Option.some.injEq] at hk
      subst hk
      have hplace : UInt64.ofNat t.symbols.length = s.i := by
        rw [h.length, UInt64.ofNat_toNat]
      simp only [hplace, Function.update_self]
      refine ⟨rfl, ?_⟩
      rw [fillEntry, ← hname]
      simpa using ((s.symbols s.i).name.has_storeList 0 name).append 0
    · rw [List.getElem?_eq_none (by simpa using hk')] at hk
      cases hk

/-- A turn of the second pass. -/
theorem Agrees.parseTurn (h : Agrees read data) {s : Filling} {t : Parsing}
    {x : Filling ⊕ (UInt64 → Entry)} (hst : Follows s t) (hx : parseBody read amount n s = some x) :
    ∃ y, Symbols.parseBody data amount n t = some y ∧ Sum.LiftRel Follows Matches x y := by
  unfold Parse.parseBody at hx
  unfold Symbols.parseBody
  rw [← hst.i, ← hst.data]
  split_ifs at hx with hi
  · obtain ⟨type, htype, hx⟩ := Option.bind_eq_some_iff.1 hx
    rw [if_pos hi, h _ type htype]
    split_ifs at hx with htext
    · obtain ⟨address, haddress, hx⟩ := Option.bind_eq_some_iff.1 hx
      obtain ⟨length, hlength, hx⟩ := Option.bind_eq_some_iff.1 hx
      obtain ⟨name, hname, hx⟩ := Option.bind_eq_some_iff.1 hx
      have hrun : WhileLoop.run (Symbols.nameBody data (s.data + 19)) n 0 = some length :=
        run_of_loop (fun s x hx => h.turn hx) hlength
      have hbytes := h.readBytes hname
      rw [if_pos htext, hrun, Option.bind_some, h.readBytes haddress, hbytes]
      obtain rfl := Option.some.inj hx
      refine ⟨_, rfl, .inl ?_⟩
      have hlength' : name.length = length.toNat := by
        rw [← hbytes, Symbols.readBytes, List.length_map, List.length_range]
      have hfollows := hst.write hi (s.data + 19 + (length.toNat + 1)) address hlength'
      rwa [← hst.i] at hfollows
    · obtain ⟨p, hp, hx⟩ := Option.bind_eq_some_iff.1 hx
      have hrun : WhileLoop.run (Symbols.skipBody data) n s.data = some p :=
        run_of_loop (fun s x hx => h.turn hx) hp
      rw [if_neg htext, hrun, Option.bind_some]
      obtain rfl := Option.some.inj hx
      refine ⟨_, rfl, .inl ⟨rfl, rfl, ?_, hst.entries⟩⟩
      rw [UInt64.sub_add_cancel]
      exact hst.length
  · rw [if_neg hi]
    obtain rfl := Option.some.inj hx
    exact ⟨_, rfl, .inr hst.entries⟩

theorem Agrees.readSymbols (h : Agrees read data) {symbols table : UInt64 → Entry}
    (hparse : loop (parseBody read amount) n ⟨0, 0, symbols⟩ = some table) :
    ∃ entries, Symbols.readSymbols data amount n = some entries ∧ Matches table entries := by
  refine loop_simulates (fun _ _ _ _ => h.parseTurn) ⟨rfl, rfl, rfl, fun k symbol hk => ?_⟩ hparse
  simp at hk

end Refines

/-! ### Files in nm's format -/

end Parse

namespace SymbolLine

/-- The line is one of nm's: sixteen hexadecimal digits or spaces, a letter for the type, and a name
without a NUL. -/
structure IsNm (l : SymbolLine) : Prop where
  address : ∀ c ∈ l.address, IsHexDigit c ∨ c = space
  type : 65 ≤ l.type ∧ l.type ≤ 90 ∨ 97 ≤ l.type ∧ l.type ≤ 122
  name : 0 ∉ l.name

/-- The address of a line; a space counts as 0. -/
def value (l : SymbolLine) : ℕ := Numeral.value 16 (l.address.map fun c => (hexDigit c).toNat)

theorem IsNm.toNat_fromHex {l : SymbolLine} (h : l.IsNm) :
    (fromHex (l.address.takeWhile fun c => c ≠ 0)).toNat = l.value := by
  have hall : l.address.takeWhile (fun c => c ≠ 0) = l.address := by
    rw [List.takeWhile_eq_self_iff]
    intro c hc
    rcases h.address c hc with hdigit | rfl
    · simp only [ne_eq, decide_not, Bool.not_eq_true', decide_eq_false_iff_not]
      rintro rfl
      exact absurd hdigit (by decide)
    · rfl
  rw [hall, fromHex_toNat l.length_address.le, value]

end SymbolLine

namespace Parse

/-- The bytes of a file, and nothing else. -/
def ofFile (bytes : List UInt8) : Source := fun p => bytes[p]?

theorem hasBytes_ofFile (bytes : List UInt8) : HasBytes (ofFile bytes) 0 bytes := by
  intro i c hc
  rw [Nat.zero_add]
  exact hc

section Files

variable {read : Source} {lines : List SymbolLine} {size : ℕ} {symbols : UInt64 → Entry}

theorem toNat_textCount (hsize : (lines.flatMap SymbolLine.bytes).length < 2 ^ 64) :
    (UInt64.ofNat (textCount lines)).toNat = textCount lines := by
  have hle := length_le_flatMap lines
  rw [UInt64.toNat_ofNat', Nat.mod_eq_of_lt (by omega)]

/-- **Both passes**, where the names that are read are short enough. -/
theorem returns_parseSymbols (symbols : UInt64 → Entry)
    (hread : HasBytes read 0 (lines.flatMap SymbolLine.bytes))
    (hlength : (lines.flatMap SymbolLine.bytes).length = size) (hsize : size < 2 ^ 64)
    (hshort : ∀ l ∈ lines, l.IsText → l.Short) :
    ∃ table, Returns (parseSymbols read size symbols) (table, .ofNat (textCount lines)) ∧
      ∀ k l, (lines.filter fun l => l.IsText)[k]? = some l →
        Filled (symbols (.ofNat k)) (table (.ofNat k)) l := by
  have hcount := @returns_count read 0 lines 0 size hread ((Nat.zero_add _).trans hlength)
  rw [UInt64.zero_add] at hcount
  obtain ⟨table, hparse, -, hfilled⟩ := @returns_parse read 0 lines _ 0 symbols hread hshort
    ((Nat.zero_add _).trans (toNat_textCount (hlength ▸ hsize)).symm)
  refine ⟨table, ?_, fun k l hk => ?_⟩
  · have hcount' := hcount.settles (steady_loop (steady_countBody read size) _)
    have hparse' := hparse.settles (steady_loop (steady_parseBody read _) _)
    exact (hcount'.bind (hparse'.bind (settles_some _))).returns
  · have hk' := hfilled k l hk
    rwa [UInt64.zero_add] at hk'

/-- A pass over all of the memory does not end when a name that it reads is too long. -/
theorem short_of_returns {data : ℕ → UInt8} {size : UInt64} {r : (UInt64 → Entry) × UInt64}
    (hfile : IsSymbolFile data size lines)
    (h : Returns (parseSymbols (fun p => some (data p)) size.toNat symbols) r) :
    ∀ l ∈ lines, l.IsText → l.Short := by
  have hagrees : Agrees (fun p => some (data p)) data := fun p c hc => Option.some.inj hc
  obtain ⟨n, hn⟩ := h
  obtain ⟨amount, hcount, hrest⟩ := Option.bind_eq_some_iff.1 hn
  obtain ⟨table, hparse, -⟩ := Option.bind_eq_some_iff.1 hrest
  obtain rfl := hfile.returns_countSymbols.unique (steady_loop (Symbols.steady_countBody data size.toNat) _)
    ⟨n, hagrees.countSymbols hcount⟩
  obtain ⟨entries, hentries, -⟩ := hagrees.readSymbols hparse
  exact (hfile.returns_readSymbols_iff.1 ⟨n, hentries⟩).1

end Files

/-- **Parsing is exact.** Of a file of nm's lines whose names have at most 255 characters the table gets
one entry for each line of type `T` or `t`, in the order of the file, with the line's address and its
name with a NUL, and `*count` is their number; and no byte but those of the file is read. -/
theorem parseSymbols_exact {lines : List SymbolLine} (symbols : UInt64 → Entry)
    (hnm : ∀ l ∈ lines, l.IsNm) (hshort : ∀ l ∈ lines, l.name.length ≤ 255)
    (hsize : (lines.flatMap SymbolLine.bytes).length < 2 ^ 64) :
    ∃ table count,
      Returns (parseSymbols (ofFile (lines.flatMap SymbolLine.bytes))
        (lines.flatMap SymbolLine.bytes).length symbols) (table, count) ∧
      count.toNat = (lines.filter fun l => l.IsText).length ∧
      ∀ k l, (lines.filter fun l => l.IsText)[k]? = some l →
        (table (.ofNat k)).address.toNat = l.value ∧ HasString (table (.ofNat k)).name 0 l.name ∧
          Cells.StoresIn (Set.Iio 256) (symbols (.ofNat k)).name (table (.ofNat k)).name := by
  obtain ⟨table, hreturns, hfilled⟩ := returns_parseSymbols symbols
    (hasBytes_ofFile (lines.flatMap SymbolLine.bytes)) rfl hsize fun l hl _ => hshort l hl
  refine ⟨table, _, hreturns, ?_, fun k l hk => ?_⟩
  · rw [toNat_textCount hsize, textCount, List.countP_eq_length_filter]
  · have hl := hnm l (List.mem_of_mem_filter (List.mem_of_getElem? hk))
    have hentry := hfilled k l hk
    exact ⟨hentry.address ▸ hl.toNat_fromHex, ⟨hentry.name, hl.name⟩, hentry.stores⟩

/-- "0000000000100000 t a". -/
def textLine : SymbolLine where
  address := List.replicate 10 48 ++ 49 :: List.replicate 5 48
  type := 116
  name := [97]
  length_address := rfl
  newline_address := by decide
  newline_type := by decide
  newline_name := by decide

/-- "                 U bc". -/
def undefinedLine : SymbolLine where
  address := List.replicate 16 space
  type := 85
  name := [98, 99]
  length_address := rfl
  newline_address := by decide
  newline_type := by decide
  newline_name := by decide

/-- A table of zeros. -/
def blank (_ : UInt64) : Entry := ⟨0, ⟨fun _ => 0, []⟩⟩

/-- Of the two lines the first is skipped. -/
theorem parseSymbols_exact_twoLines :
    ∃ table count,
      Returns (parseSymbols (ofFile ([undefinedLine, textLine].flatMap SymbolLine.bytes))
        ([undefinedLine, textLine].flatMap SymbolLine.bytes).length blank) (table, count) ∧
      count.toNat = 1 ∧ (table 0).address.toNat = textLine.value ∧ HasString (table 0).name 0 [97] := by
  have hnm : ∀ l ∈ [undefinedLine, textLine], l.IsNm := by
    intro l hl
    rcases List.mem_pair.1 hl with rfl | rfl
    · exact ⟨by simp [undefinedLine, IsHexDigit], by decide, by decide⟩
    · exact ⟨by simp [textLine, IsHexDigit], by decide, by decide⟩
  obtain ⟨table, count, hreturns, hcount, hentries⟩ :=
    parseSymbols_exact blank hnm (by decide) (by decide)
  obtain ⟨haddress, hname, -⟩ := hentries 0 textLine rfl
  exact ⟨table, count, hreturns, hcount, haddress, hname⟩

/-- **When parsing is safe.** Both passes end, without a store outside the field of an entry's name,
exactly when the name of every line of type `T` or `t` has at most 255 characters. -/
theorem parseSymbols_safe_iff {data : ℕ → UInt8} {size : UInt64} {lines : List SymbolLine}
    (symbols : UInt64 → Entry) (hfile : IsSymbolFile data size lines) :
    (∃ table count, Returns (parseSymbols (fun p => some (data p)) size.toNat symbols) (table, count) ∧
      ∀ k < count, Cells.StoresIn (Set.Iio 256) (symbols k).name (table k).name) ↔
      ∀ l ∈ lines, l.IsText → l.name.length ≤ 255 := by
  constructor
  · rintro ⟨table, count, hreturns, -⟩
    exact short_of_returns hfile hreturns
  · intro hshort
    have hread : HasBytes (fun p => some (data p)) 0 (lines.flatMap SymbolLine.bytes) := by
      intro i c hc
      obtain ⟨hi, rfl⟩ := List.getElem?_eq_some_iff.1 hc
      exact congrArg some (hfile.reads i hi)
    obtain ⟨table, hreturns, hfilled⟩ := returns_parseSymbols symbols hread
      hfile.size.symm size.toNat_lt hshort
    refine ⟨table, _, hreturns, fun k hk => ?_⟩
    have hk' : k.toNat < (lines.filter fun l => l.IsText).length := by
      rw [UInt64.lt_iff_toNat_lt, toNat_textCount (hfile.size ▸ size.toNat_lt), textCount,
        List.countP_eq_length_filter] at hk
      exact hk
    have hentry := hfilled k.toNat _ (List.getElem?_eq_getElem hk')
    rw [UInt64.ofNat_toNat] at hentry
    exact hentry.stores

/-- A line whose name has `n` characters. -/
def longLine (n : ℕ) : SymbolLine where
  address := List.replicate 16 49
  type := 116
  name := List.replicate n 98
  length_address := List.length_replicate
  newline_address := by decide
  newline_type := by decide
  newline_name := by simp [newline]

theorem length_longLine (n : ℕ) : (longLine n).name.length = n := List.length_replicate

/-- A memory with the line at its start. -/
def longFile (n p : ℕ) : UInt8 := (longLine n).bytes.getD p 0

theorem isSymbolFile_longFile {n : ℕ} (hn : 20 + n < 2 ^ 64) :
    IsSymbolFile (longFile n) (.ofNat (20 + n)) [longLine n] := by
  constructor
  · rw [UInt64.toNat_ofNat', Nat.mod_eq_of_lt hn, List.flatMap_singleton, SymbolLine.length_bytes]
    simp [longLine]
  · intro i hi
    have hi' : i < (longLine n).bytes.length := by simpa using hi
    simp [longFile, List.getElem?_eq_getElem hi']

/-- A name of 255 characters is read. -/
theorem parseSymbols_safe_longest :
    ∃ table count, Returns (parseSymbols (fun p => some (longFile 255 p)) 275 blank) (table, count) ∧
      ∀ k < count, Cells.StoresIn (Set.Iio 256) (blank k).name (table k).name := by
  refine (parseSymbols_safe_iff blank (isSymbolFile_longFile (by decide))).2 fun l hl _ => ?_
  rw [List.mem_singleton.1 hl, length_longLine]

/-- A name of 256 characters: the first pass counts its line, and the second does not end. -/
theorem parseSymbols_hangs :
    IsSymbolFile (longFile 256) 276 [longLine 256] ∧
      Returns (Symbols.countSymbols (longFile 256) 276) 1 ∧
      (∀ n, Symbols.readSymbols (longFile 256) 1 n = none) ∧
      ∀ symbols n, parseSymbols (fun p => some (longFile 256 p)) 276 symbols n = none := by
  have hfile := isSymbolFile_longFile (n := 256) (by decide)
  have hlong : ¬ ∀ l ∈ [longLine 256], l.IsText → l.Short := by
    intro h
    have hshort : (longLine 256).name.length ≤ 255 := h _ List.mem_cons_self rfl
    rw [length_longLine] at hshort
    omega
  refine ⟨hfile, hfile.returns_countSymbols, fun n => ?_, fun symbols n => ?_⟩
  · by_contra hne
    obtain ⟨entries, hentries⟩ := Option.ne_none_iff_exists'.1 hne
    exact hlong (hfile.returns_readSymbols_iff.1 ⟨n, hentries⟩).1
  · by_contra hne
    obtain ⟨r, hr⟩ := Option.ne_none_iff_exists'.1 hne
    exact hlong (short_of_returns hfile ⟨n, hr⟩)

end Parse

end Symbols

end Naul
