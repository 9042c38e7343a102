import Naul.Compatibility.Numbers

/-!
# What is printed

`npfVpprintf` goes from item to item. `returns_printBody` is one item, and `npfVpprintf_items` a whole format.
-/

namespace Naul

open FormatString Fuel

/-! ### Whole formats -/

section Formats

variable (float : FormatSpec → List UInt64 → Converted) {memory : UInt64 → UInt8} {d : Directive}
  {a : ItemArguments} {fs : FormatSpec} {cur : List UInt8} {args : List UInt64} {s : Printing} {n : ℕ}

/-- The arguments behind those of the stars. -/
def valueWords (d : Directive) (a : ItemArguments) : List UInt64 :=
  if d.conversion = .percent then [] else [a.value]

/-- **A conversion puts its text and takes its argument.** -/
theorem returns_convert (h : Reads d a fs) (hd : Item.Defined memory d a) (args : List UInt64) :
    ∃ v, Returns (convert float memory fs (valueWords d a ++ args)) v ∧ v.args = args ∧
      v.emit = (Item.directive d a).text := by
  have hspec := h.convSpec
  have hprec := h.prec
  have hcases := hd.conversion
  unfold convert valueWords
  cases hconv : d.conversion with
  | percent =>
    simp only [hconv] at hcases hspec hprec
    refine ⟨_, ⟨0, by simp only [hspec, convSpec]; rfl⟩, rfl, ?_⟩
    rw [h.emit_plain (by rw [hspec]; decide) (by simp [hcases]) (by simpa [hcases, layout] using hprec)]
    simp [Item.text, hcases, layout, FieldLayout.plain, field]
  | c =>
    simp only [hconv] at hcases hspec hprec
    obtain ⟨hzero, hnone, -⟩ := hcases
    refine ⟨_, ⟨0, by simp only [hspec, convSpec]; rfl⟩, rfl, ?_⟩
    rw [h.emit_plain (by rw [hspec]; decide) hzero (by simpa [hnone, layout] using hprec)]
    simp [Item.text, hconv, vaArg]
  | s =>
    simp only [hconv] at hcases hspec
    obtain ⟨v, hv, hrest⟩ := returns_string h hconv hcases.1 hcases.2.2 args
    simp only [hspec, convSpec]
    exact ⟨v, hv, hrest⟩
  | d | i =>
    simp only [hconv] at hcases hspec
    obtain ⟨v, hv, hargs, hemit⟩ := returns_convertSigned h (by simp [hconv]) hcases args
    simp only [hspec, convSpec]
    exact ⟨v, hv, hargs, by simp only [hemit, Item.text, hconv]⟩
  | o | u | x | X =>
    simp only [hconv] at hcases hspec
    obtain ⟨v, hv, hrest⟩ := returns_unsigned h (by simp [hconv]) hcases (by simp [hconv]) args
    simp only [hspec, convSpec]
    exact ⟨v, hv, hrest⟩
  | b | B =>
    simp only [hconv] at hcases hspec
    obtain ⟨v, hv, hrest⟩ := returns_unsigned h (by simp [hconv]) hcases.1 (fun _ => hcases.2) args
    simp only [hspec, convSpec]
    exact ⟨v, hv, hrest⟩
  | p =>
    simp only [hconv] at hcases hspec
    obtain ⟨v, hv, hrest⟩ := returns_pointer h hconv hcases.1 args
    simp only [hspec, convSpec]
    exact ⟨v, hv, hrest⟩
  | n =>
    simp only [hconv] at hcases hspec hprec
    obtain ⟨hflags, hwidth, hnone, hm⟩ := hcases
    have hlength : fs.lengthModifier ≠ .longDouble := by
      rw [h.lengthModifier]
      revert hm
      cases d.length <;> decide
    refine ⟨⟨fs, args, [], 0, 0, false⟩, ⟨0, by simp only [hspec, convSpec, if_neg hlength]; rfl⟩, rfl, ?_⟩
    rw [h.emit_plain (by rw [hspec]; decide) (by simp [hflags]) (by simpa [hnone, layout] using hprec)]
    simp [Item.text, hconv, layout, hwidth, FieldLayout.plain, field]
  | f | F | e | E | g | G | a | A => simp only [hconv] at hcases

theorem writebackSize_eq {m : LengthModifier} (hm : m ≠ .L) : writebackSize (lenMod m) = typeBits m / 8 := by
  revert hm
  cases m <;> decide

/-- What `n` stores of a count that is not negative. -/
theorem intBytes_natCast (size n : ℕ) : intBytes size n = LittleEndian.bytes size n := by
  have hmod : ((n : ℤ) % 2 ^ (8 * size)).toNat = n % 256 ^ size := by
    rw [show (256 : ℕ) = 2 ^ 8 from rfl, ← pow_mul]
    norm_cast
  rw [intBytes, hmod, LittleEndian.bytes_mod]

/-- The count stays a number while it is less than `2 ^ 31`. -/
theorem put_eq (s : Printing) (cs : List UInt8) (hn : s.n = n) (hlt : n + cs.length < 2 ^ 31) :
    s.put cs = { s with out := s.out ++ cs, n := (n + cs.length : ℕ) } := by
  rw [Printing.put, hn, ← Nat.cast_add, wrapInt_of_lt hlt]

theorem returns_printDirective (cur : List UInt8) (hd : Item.Defined s.memory d a)
    (hargs : s.args = (Item.directive d a).words ++ args) (hn : s.n = n)
    (hlt : n + (Item.directive d a).text.length < 2 ^ 31) :
    Returns (printDirective float s (formatSpec d) cur)
      { cur := cur
        args := args
        memory := (Item.directive d a).after n s.memory
        out := s.out ++ (Item.directive d a).text
        n := (n + (Item.directive d a).text.length : ℕ) } := by
  have hfloat : convSpec d.conversion ∉ Converted.unpadded ∨ convSpec d.conversion = .string := by
    have hcases := hd.conversion
    cases hconv : d.conversion <;> simp only [hconv] at hcases <;> first | exact .inr rfl | exact .inl (by decide)
  obtain ⟨fs, hread, hreads⟩ := exists_reads hd hfloat (valueWords d a ++ args)
  obtain ⟨v, ⟨fuel, hconvert⟩, hrest, hemit⟩ := returns_convert float hreads hd args
  have hwords : s.args = widthWords d.width a.width ++
      (precisionWords d.precision a.precision ++ (valueWords d a ++ args)) := by
    rw [hargs, Item.words, valueWords]
    simp only [List.append_assoc]
  have hmemory : (if fs.convSpec = ConvSpec.writeback then
      storeBytes s.memory (vaArg (valueWords d a ++ args)).1
        (intBytes (writebackSize fs.lengthModifier) s.n) else s.memory) =
      (Item.directive d a).after n s.memory := by
    have hiff : fs.convSpec = .writeback ↔ d.conversion = .n := by
      rw [hreads.convSpec]
      cases d.conversion <;> decide
    simp only [Item.after, hiff]
    split_ifs with hconv
    · have hcases := hd.conversion
      simp only [hconv] at hcases
      rw [hn, intBytes_natCast, hreads.lengthModifier, writebackSize_eq hcases.2.2.2, valueWords, hconv]
      rfl
    · rfl
  refine ⟨fuel, ?_⟩
  rw [printDirective, hwords, hread]
  dsimp only
  rw [hconvert, Option.map_some, hmemory, hrest, hemit]
  exact congrArg some (put_eq _ _ hn hlt)

/-! ### More fuel -/

theorem steady_convertUnsigned (fs : FormatSpec) (args : List UInt64) : Steady (convertUnsigned fs args) :=
  steady_map (steady_ite (steady_some _) (steady_ite (steady_some _) (steady_map (steady_run _ _) _))) _

theorem steady_convert (float : FormatSpec → List UInt64 → Converted) (memory : UInt64 → UInt8)
    (fs : FormatSpec) (args : List UInt64) : Steady (convert float memory fs args) := by
  unfold convert
  cases fs.convSpec with
  | string => exact steady_map (steady_run _ _) _
  | signedInt => exact steady_ite (steady_some _) (steady_map (steady_run _ _) _)
  | binary | octal | hexInt | unsignedInt | pointer => exact steady_convertUnsigned fs args
  | percent | char | writeback | floatDec | floatSci | floatShortest | floatHex | none => exact steady_some _

theorem steady_printBody (float : FormatSpec → List UInt64 → Converted) (s : Printing) :
    Steady fun n => printBody float n s := by
  refine steady_ite ?_ (steady_some _)
  cases if peek s.cur ≠ '%'.toUInt8 then none else npfParseFormatSpec s.cur with
  | none => exact steady_some _
  | some x => exact steady_map (steady_map (steady_convert ..) _) _

/-- **One item.** -/
theorem returns_printBody {item : Item} (h : item.Valid s.memory) (hcur : s.cur = item.source ++ cur)
    (hargs : s.args = item.words ++ args) (hn : s.n = n) (hlt : n + item.text.length < 2 ^ 31) :
    Returns (fun fuel => printBody float fuel s) (.inl
      { cur := cur
        args := args
        memory := item.after n s.memory
        out := s.out ++ item.text
        n := (n + item.text.length : ℕ) }) := by
  cases item with
  | literal character =>
    have hpeek : peek s.cur = character := by rw [hcur]; rfl
    refine ⟨0, ?_⟩
    simp only [printBody, hpeek]
    rw [if_pos h.1, if_pos h.2]
    have htail : s.cur.tail = cur := by rw [hcur]; rfl
    rw [put_eq { s with cur := s.cur.tail } [character] hn hlt, htail, hargs]
    rfl
  | directive d a =>
    have hpeek : peek s.cur = '%'.toUInt8 := by rw [hcur]; rfl
    have hparse : npfParseFormatSpec s.cur = some (formatSpec d, cur) := by
      rw [hcur]
      exact npfParseFormatSpec_source h.proper cur
    obtain ⟨fuel, hfuel⟩ := returns_printDirective float cur h hargs hn hlt
    refine ⟨fuel, ?_⟩
    have hnonzero : '%'.toUInt8 ≠ 0 := by decide
    simp only [printBody, hpeek]
    rw [if_pos hnonzero, if_neg (not_not.2 rfl), hparse]
    simp only [hfuel, Option.map_some]

/-- **The loop over the items.** -/
theorem returns_printItems {items : List Item} (h : Item.Printable items n s.memory)
    (hcur : s.cur = items.flatMap Item.source) (hargs : s.args = items.flatMap Item.words ++ args)
    (hn : s.n = n) (hlt : n + (items.flatMap Item.text).length < 2 ^ 31) :
    Returns (fun fuel => loop (printBody float) fuel s)
      { cur := []
        args := args
        memory := Item.afterAll items n s.memory
        out := s.out ++ items.flatMap Item.text
        n := (n + (items.flatMap Item.text).length : ℕ) } := by
  induction items generalizing s n with
  | nil =>
    have hpeek : peek s.cur = 0 := by rw [hcur]; rfl
    have hbody : printBody float 0 s = some (.inr s) := by simp only [printBody, hpeek]; rfl
    obtain ⟨cur', args', memory', out', n'⟩ := s
    obtain rfl : cur' = [] := hcur
    obtain rfl : args' = args := hargs
    obtain rfl : n' = n := hn
    simp only [List.flatMap_nil, List.append_nil, List.length_nil, Nat.add_zero, Item.afterAll]
    exact returns_loop_inr ⟨0, hbody⟩
  | cons item items ih =>
    rw [List.flatMap_cons] at hcur hargs
    rw [List.append_assoc] at hargs
    rw [List.flatMap_cons, List.length_append] at hlt
    have hturn := returns_printBody float h.1 hcur hargs hn (by omega)
    rw [returns_loop_inl (steady_printBody float) hturn]
    have hrest := ih (s := { cur := items.flatMap Item.source
                             args := items.flatMap Item.words ++ args
                             memory := item.after n s.memory
                             out := s.out ++ item.text
                             n := (n + item.text.length : ℕ) }) h.2 rfl rfl rfl (by omega)
    simpa only [List.flatMap_cons, List.append_assoc, List.length_append, Nat.add_assoc, Item.afterAll] using hrest

/-- **What `printf` prints.** For a format of characters and directives with a meaning, whose text has fewer
than `2 ^ 31` characters, the standard's text is put, as many characters are counted, each directive takes
its arguments, and only `n` stores, whatever the conversions of floating numbers do. -/
theorem npfVpprintf_items (float : FormatSpec → List UInt64 → Converted) (items : List Item)
    (memory : UInt64 → UInt8) (args : List UInt64) (h : Item.Printable items 0 memory)
    (hlt : (items.flatMap Item.text).length < 2 ^ 31) :
    Returns (npfVpprintf float (items.flatMap Item.source) (items.flatMap Item.words ++ args) memory)
      { cur := []
        args := args
        memory := Item.afterAll items 0 memory
        out := items.flatMap Item.text
        n := (items.flatMap Item.text).length } := by
  have hitems := @returns_printItems float args
    ⟨items.flatMap Item.source, items.flatMap Item.words ++ args, memory, [], 0⟩ 0 items h rfl rfl rfl
    (by rwa [Nat.zero_add])
  rw [List.nil_append, Nat.zero_add] at hitems
  exact hitems

/-- No text for floating numbers. -/
def noFloat (fs : FormatSpec) (args : List UInt64) : Converted := ⟨fs, args, [], 0, 0, false⟩

/-- `"=%+5d"` and 42. -/
def plusItems : List Item :=
  [.literal '='.toUInt8, .directive ⟨[.plus], some (.literal [⟨5, by decide⟩]), none, .none, .d⟩ ⟨0, 0, 42, []⟩]

/-- `"=%+5d"` puts `"=  +42"`. -/
theorem npfVpprintf_items_plus :
    Returns (npfVpprintf noFloat [61, 37, 43, 53, 100] [42] fun _ => 0)
      { cur := [], args := [], memory := fun _ => 0, out := [61, 32, 32, 43, 52, 50], n := 6 } := by
  have hprintable : Item.Printable plusItems 0 fun _ => 0 := by
    refine ⟨⟨by decide, by decide⟩, ⟨?_, ?_, ?_, ?_, ?_, ?_⟩, trivial⟩
    · exact fun w hw => Option.some.inj hw ▸ ⟨5, [], rfl, by decide⟩
    · exact fun ds hds => Width.literal.inj (Option.some.inj hds) ▸ by decide
    · simp
    · simp
    · simp
    · decide
  have htext : plusItems.flatMap Item.text = [61, 32, 32, 43, 52, 50] := by
    have hvalue : signedOf .none 42 = 42 := by decide
    have hnumeral : Numeral.numeral 10 42 = [4, 2] := by norm_num [Numeral.numeral]
    have habs : (42 : ℤ).natAbs = 42 := rfl
    have hwidth : number [⟨5, by decide⟩] = 5 := by decide
    simp only [plusItems, List.flatMap_cons, List.flatMap_nil, Item.text, layout, FieldLayout.signed, hvalue, hwidth,
      FieldLayout.digits, numeral, habs, hnumeral]
    decide
  have hreturns := npfVpprintf_items noFloat plusItems (fun _ => 0) [] hprintable (by rw [htext]; decide)
  rw [htext] at hreturns
  exact hreturns

end Formats

end Naul
