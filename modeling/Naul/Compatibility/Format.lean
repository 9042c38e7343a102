import Naul.Lib.FormatString
import Naul.Str

/-!
# The directives of a format (`programs/compatibility/include/nanoprintf.h`)

`npfParseFormatSpec` reads a directive from its `%` on. `npfParseFormatSpec_iff` says exactly what it accepts: the
directives of the standard, and those with a minus in the precision. A width and a precision are `int`s, so
that they are the numbers that are written only below `2 ^ 31` (`wrapInt_of_lt`).
-/

namespace Naul

open FormatString

/-- The value of an `int` expression. Signed overflow is undefined; the compiled code wraps around. -/
def wrapInt (v : ℤ) : ℤ := v.bmod (2 ^ 32)

theorem wrapInt_of_bounds {v : ℤ} (hlow : -2 ^ 31 ≤ v) (hhigh : v < 2 ^ 31) : wrapInt v = v :=
  Int.bmod_eq_of_le (by omega) (by omega)

theorem wrapInt_of_lt {n : ℕ} (hn : n < 2 ^ 31) : wrapInt n = n := wrapInt_of_bounds (by omega) (by omega)

/-- `NPF_FMT_SPEC_OPT`. -/
inductive SpecOpt
  | none
  | literal
  | star
  deriving DecidableEq

/-- `NPF_FMT_SPEC_LEN_MOD`. -/
inductive LenMod
  | none
  | short
  | char
  | long
  | longDouble
  | largeLongLong
  | largeIntmax
  | largeSizet
  | largePtrdifft
  deriving DecidableEq

/-- `NPF_FMT_SPEC_CONV`. -/
inductive ConvSpec
  | none
  | percent
  | char
  | string
  | signedInt
  | binary
  | octal
  | hexInt
  | unsignedInt
  | pointer
  | writeback
  | floatDec
  | floatSci
  | floatShortest
  | floatHex
  deriving DecidableEq

/-- `npf_format_spec_t`; `fieldWidth` and `prec` are values of `int`s. -/
@[ext] structure FormatSpec where
  fieldWidth : ℤ
  prec : ℤ
  (precOpt fieldWidthOpt : SpecOpt)
  (leftJustified leadingZeroPad : Bool)
  prepend : UInt8
  altForm : Bool
  caseAdjust : UInt8
  lengthModifier : LenMod
  convSpec : ConvSpec

/-- What is set before the flags, the rest being set later. -/
def FormatSpec.initial : FormatSpec where
  fieldWidth := 0
  prec := 0
  precOpt := .none
  fieldWidthOpt := .none
  leftJustified := false
  leadingZeroPad := false
  prepend := 0
  altForm := false
  caseAdjust := 'a'.toUInt8 - 'A'.toUInt8
  lengthModifier := .none
  convSpec := .none

/-- The loop over the flags. -/
def takeFlags : List UInt8 → FormatSpec → FormatSpec × List UInt8
  | [], s => (s, [])
  | c :: cur, s =>
    if c = '-'.toUInt8 then takeFlags cur { s with leftJustified := true }
    else if c = '0'.toUInt8 then takeFlags cur { s with leadingZeroPad := true }
    else if c = '+'.toUInt8 then takeFlags cur { s with prepend := '+'.toUInt8 }
    else if c = ' '.toUInt8 then
      takeFlags cur (if s.prepend = 0 then { s with prepend := ' '.toUInt8 } else s)
    else if c = '#'.toUInt8 then takeFlags cur { s with altForm := true }
    else (s, c :: cur)

/-- `(*cur >= '0') && (*cur <= '9')`. -/
def IsDigit (c : UInt8) : Prop := '0'.toUInt8 ≤ c ∧ c ≤ '9'.toUInt8

instance (c : UInt8) : Decidable (IsDigit c) := inferInstanceAs (Decidable (_ ∧ _))

/-- `while ((*cur >= '0') && (*cur <= '9'))`. -/
def takeDigits : List UInt8 → ℤ → ℤ × List UInt8
  | [], value => (value, [])
  | c :: cur, value =>
    if IsDigit c then takeDigits cur (wrapInt (value * 10 + (c.toNat - 48)))
    else (value, c :: cur)

def takeWidth (s : FormatSpec) (cur : List UInt8) : FormatSpec × List UInt8 :=
  if peek cur = '*'.toUInt8 then ({ s with fieldWidth := 0, fieldWidthOpt := .star }, cur.tail)
  else if IsDigit (peek cur) then
    let (fieldWidth, cur) := takeDigits cur 0
    ({ s with fieldWidth := fieldWidth, fieldWidthOpt := .literal }, cur)
  else ({ s with fieldWidth := 0, fieldWidthOpt := .none }, cur)

def takePrec (s : FormatSpec) (cur : List UInt8) : FormatSpec × List UInt8 :=
  if peek cur = '.'.toUInt8 then
    let cur := cur.tail
    if peek cur = '*'.toUInt8 then ({ s with prec := 0, precOpt := .star }, cur.tail)
    else if peek cur = '-'.toUInt8 then
      let (prec, cur) := takeDigits cur.tail 0
      ({ s with prec := prec, precOpt := .none }, cur)
    else
      let (prec, cur) := takeDigits cur 0
      ({ s with prec := prec, precOpt := .literal }, cur)
  else ({ s with prec := 0, precOpt := .none }, cur)

/-- The `switch` over the length modifier. -/
def takeLength (s : FormatSpec) (cur : List UInt8) : FormatSpec × List UInt8 :=
  if peek cur = 'h'.toUInt8 then
    if peek cur.tail = 'h'.toUInt8 then ({ s with lengthModifier := .char }, cur.tail.tail)
    else ({ s with lengthModifier := .short }, cur.tail)
  else if peek cur = 'l'.toUInt8 then
    if peek cur.tail = 'l'.toUInt8 then ({ s with lengthModifier := .largeLongLong }, cur.tail.tail)
    else ({ s with lengthModifier := .long }, cur.tail)
  else if peek cur = 'L'.toUInt8 then ({ s with lengthModifier := .longDouble }, cur.tail)
  else if peek cur = 'j'.toUInt8 then ({ s with lengthModifier := .largeIntmax }, cur.tail)
  else if peek cur = 'z'.toUInt8 then ({ s with lengthModifier := .largeSizet }, cur.tail)
  else if peek cur = 't'.toUInt8 then ({ s with lengthModifier := .largePtrdifft }, cur.tail)
  else ({ s with lengthModifier := .none }, cur)

/-- The cases of the `switch` over the conversion, and which of them clear `case_adjust`. -/
def conversions : List (UInt8 × ConvSpec × Bool) :=
  [('%'.toUInt8, .percent, false), ('c'.toUInt8, .char, false), ('s'.toUInt8, .string, false),
    ('i'.toUInt8, .signedInt, false), ('d'.toUInt8, .signedInt, false), ('o'.toUInt8, .octal, false),
    ('u'.toUInt8, .unsignedInt, false), ('X'.toUInt8, .hexInt, true), ('x'.toUInt8, .hexInt, false),
    ('F'.toUInt8, .floatDec, true), ('f'.toUInt8, .floatDec, false), ('E'.toUInt8, .floatSci, true),
    ('e'.toUInt8, .floatSci, false), ('G'.toUInt8, .floatShortest, true),
    ('g'.toUInt8, .floatShortest, false), ('A'.toUInt8, .floatHex, true),
    ('a'.toUInt8, .floatHex, false), ('n'.toUInt8, .writeback, false), ('p'.toUInt8, .pointer, false),
    ('B'.toUInt8, .binary, true), ('b'.toUInt8, .binary, false)]

def takeConversion (s : FormatSpec) (cur : List UInt8) : Option (FormatSpec × List UInt8) :=
  (conversions.lookup (peek cur)).map fun (conv, capital) =>
    ({ s with convSpec := conv, caseAdjust := if capital then 0 else s.caseAdjust }, cur.tail)

/-- `npf_parse_format_spec`, which returns what is behind the directive, or `none` for 0. -/
def npfParseFormatSpec (format : List UInt8) : Option (FormatSpec × List UInt8) :=
  let (s, cur) := takeFlags format.tail .initial
  let (s, cur) := takeWidth s cur
  let (s, cur) := takePrec s cur
  let (s, cur) := takeLength s cur
  takeConversion s cur

/-! ### What a directive is read as -/

def lenMod : LengthModifier → LenMod
  | .none => .none
  | .h => .short
  | .hh => .char
  | .l => .long
  | .ll => .largeLongLong
  | .j => .largeIntmax
  | .z => .largeSizet
  | .t => .largePtrdifft
  | .L => .longDouble

def convSpec : Conversion → ConvSpec
  | .percent => .percent
  | .c => .char
  | .s => .string
  | .d | .i => .signedInt
  | .o => .octal
  | .u => .unsignedInt
  | .x | .X => .hexInt
  | .b | .B => .binary
  | .p => .pointer
  | .n => .writeback
  | .f | .F => .floatDec
  | .e | .E => .floatSci
  | .g | .G => .floatShortest
  | .a | .A => .floatHex

/-- The conversions that write capitals. -/
def capital : Conversion → Bool
  | .X | .B | .F | .E | .G | .A => true
  | _ => false

/-- The character before a number that is not negative. -/
def signFlag (flags : List Flag) (before : UInt8) : UInt8 :=
  if .plus ∈ flags then '+'.toUInt8
  else if before ≠ 0 then before
  else if .space ∈ flags then ' '.toUInt8
  else 0

def widthSpec : Option Width → ℤ × SpecOpt
  | none => (0, .none)
  | some (.literal ds) => (wrapInt (number ds), .literal)
  | some .star => (0, .star)

def precSpec : Option Precision → ℤ × SpecOpt
  | none => (0, .none)
  | some (.literal ds) => (wrapInt (number ds), .literal)
  | some (.negative ds) => (wrapInt (number ds), .none)
  | some .star => (0, .star)

/-- What a directive is read as; the numbers in it are read as `int`s. -/
def formatSpec (d : Directive) : FormatSpec where
  fieldWidth := (widthSpec d.width).1
  prec := (precSpec d.precision).1
  precOpt := (precSpec d.precision).2
  fieldWidthOpt := (widthSpec d.width).2
  leftJustified := .minus ∈ d.flags
  leadingZeroPad := .zero ∈ d.flags
  prepend := signFlag d.flags 0
  altForm := .alternate ∈ d.flags
  caseAdjust := if capital d.conversion then 0 else 'a'.toUInt8 - 'A'.toUInt8
  lengthModifier := lenMod d.length
  convSpec := convSpec d.conversion

/-- A directive whose width is one. -/
def Proper (d : Directive) : Prop := ∀ w ∈ d.width, w.Proper

section Parse

variable {s : FormatSpec} {cur rest : List UInt8} {c : UInt8}

/-! ### Flags -/

/-- The flag that a character is. -/
def flagOf (c : UInt8) : Option Flag :=
  if c = '-'.toUInt8 then some .minus
  else if c = '0'.toUInt8 then some .zero
  else if c = '+'.toUInt8 then some .plus
  else if c = ' '.toUInt8 then some .space
  else if c = '#'.toUInt8 then some .alternate
  else none

/-- What a flag sets. -/
def FormatSpec.flag (s : FormatSpec) : Flag → FormatSpec
  | .minus => { s with leftJustified := true }
  | .zero => { s with leadingZeroPad := true }
  | .plus => { s with prepend := '+'.toUInt8 }
  | .space => if s.prepend = 0 then { s with prepend := ' '.toUInt8 } else s
  | .alternate => { s with altForm := true }

theorem flagOf_byte (f : Flag) : flagOf f.byte = some f := by
  cases f <;> decide

theorem flagOf_eq_some {f : Flag} (h : flagOf c = some f) : c = f.byte := by
  unfold flagOf at h
  split_ifs at h with h1 h2 h3 h4 h5 <;> cases h <;> assumption

theorem takeFlags_cons (c : UInt8) (cur : List UInt8) (s : FormatSpec) :
    takeFlags (c :: cur) s =
      match flagOf c with
      | some f => takeFlags cur (s.flag f)
      | none => (s, c :: cur) := by
  rw [takeFlags, flagOf]
  split_ifs <;> simp only [FormatSpec.flag, *, if_true, if_false]

/-- Flags, and then something else. -/
theorem takeFlags_append (flags : List Flag) (hrest : flagOf (peek rest) = none) (s : FormatSpec) :
    takeFlags (flags.map Flag.byte ++ rest) s = (flags.foldl FormatSpec.flag s, rest) := by
  induction flags generalizing s with
  | nil =>
    cases rest with
    | nil => rfl
    | cons c rest => rw [List.map_nil, List.nil_append, takeFlags_cons, show flagOf c = none from hrest]; rfl
  | cons f flags ih =>
    rw [List.map_cons, List.cons_append, takeFlags_cons, flagOf_byte]
    exact ih (s.flag f)

theorem exists_flags (cur : List UInt8) :
    ∃ (flags : List Flag) (rest : List UInt8), cur = flags.map Flag.byte ++ rest ∧ flagOf (peek rest) = none := by
  induction cur with
  | nil => exact ⟨[], [], rfl, by decide⟩
  | cons c cur ih =>
    cases hc : flagOf c with
    | none => exact ⟨[], c :: cur, rfl, hc⟩
    | some f =>
      obtain ⟨flags, rest, rfl, hrest⟩ := ih
      exact ⟨f :: flags, rest, by rw [flagOf_eq_some hc]; rfl, hrest⟩

theorem signFlag_nil (before : UInt8) : signFlag [] before = before := by
  unfold signFlag
  by_cases h : before = 0 <;> simp [h]

theorem signFlag_cons (f : Flag) (flags : List Flag) (before : UInt8) :
    signFlag (f :: flags) before =
      signFlag flags (if f = .plus then '+'.toUInt8 else if f = .space ∧ before = 0 then ' '.toUInt8
        else before) := by
  have hspace : ' '.toUInt8 ≠ 0 := by decide
  have hplus : '+'.toUInt8 ≠ 0 := by decide
  unfold signFlag
  cases f <;> by_cases hbefore : before = 0 <;> simp [hbefore, hspace, hplus]

theorem foldl_flag (flags : List Flag) (s : FormatSpec) :
    flags.foldl FormatSpec.flag s =
      { s with
        leftJustified := s.leftJustified || .minus ∈ flags
        leadingZeroPad := s.leadingZeroPad || .zero ∈ flags
        prepend := signFlag flags s.prepend
        altForm := s.altForm || .alternate ∈ flags } := by
  induction flags generalizing s with
  | nil => simp [signFlag_nil]
  | cons f flags ih =>
    rw [List.foldl_cons, ih, signFlag_cons]
    cases f with
    | space => by_cases hprepend : s.prepend = 0 <;> simp [FormatSpec.flag, hprepend]
    | minus | zero | plus | alternate => simp [FormatSpec.flag]

/-! ### Digits -/

theorem isDigit_digitByte (d : Fin 10) : IsDigit (digitByte d) := by
  fin_cases d <;> decide

theorem digitByte_toNat (d : Fin 10) : (digitByte d).toNat = 48 + d := by
  fin_cases d <;> decide

theorem exists_digit (h : IsDigit c) : ∃ d : Fin 10, c = digitByte d := by
  have hlow : 48 ≤ c.toNat := UInt8.le_iff_toNat_le.1 h.1
  have hhigh : c.toNat ≤ 57 := UInt8.le_iff_toNat_le.1 h.2
  refine ⟨⟨c.toNat - 48, by omega⟩, UInt8.toNat_inj.1 ?_⟩
  rw [digitByte_toNat]
  exact (Nat.add_sub_cancel' hlow).symm

/-- One more digit, of a number that may have wrapped around. -/
theorem wrapInt_digit (v d : ℤ) : wrapInt (wrapInt v * 10 + d) = wrapInt (v * 10 + d) := by
  unfold wrapInt
  rw [← Int.bmod_add_bmod, Int.bmod_mul_bmod, Int.bmod_add_bmod]

/-- Digits, and then something else. -/
theorem takeDigits_append (ds : List (Fin 10)) (hrest : ¬ IsDigit (peek rest)) (v : ℤ) :
    takeDigits (ds.map digitByte ++ rest) (wrapInt v) =
      (wrapInt (v * 10 ^ ds.length + number ds), rest) := by
  induction ds generalizing v with
  | nil =>
    have hzero : number [] = 0 := rfl
    cases rest with
    | nil => simp [takeDigits, hzero]
    | cons c rest =>
      rw [List.map_nil, List.nil_append, takeDigits, if_neg (show ¬ IsDigit c from hrest)]
      simp [hzero]
  | cons d ds ih =>
    have hdigit : ((digitByte d).toNat : ℤ) - 48 = d.val := by
      rw [digitByte_toNat]
      push_cast
      ring
    have hnumber : number (d :: ds) = number ds + 10 ^ ds.length * d := by
      rw [number, List.map_cons, Numeral.value_cons, List.length_map, number]
    rw [List.map_cons, List.cons_append, takeDigits, if_pos (isDigit_digitByte d), hdigit, wrapInt_digit,
      ih, hnumber, List.length_cons]
    congr 2
    push_cast
    ring

theorem exists_digits (cur : List UInt8) :
    ∃ (ds : List (Fin 10)) (rest : List UInt8), cur = ds.map digitByte ++ rest ∧ ¬ IsDigit (peek rest) := by
  induction cur with
  | nil => exact ⟨[], [], rfl, by decide⟩
  | cons c cur ih =>
    by_cases hc : IsDigit c
    · obtain ⟨d, rfl⟩ := exists_digit hc
      obtain ⟨ds, rest, rfl, hrest⟩ := ih
      exact ⟨d :: ds, rest, rfl, hrest⟩
    · exact ⟨[], c :: cur, rfl, hc⟩

theorem takeDigits_zero (ds : List (Fin 10)) (hrest : ¬ IsDigit (peek rest)) :
    takeDigits (ds.map digitByte ++ rest) 0 = (wrapInt (number ds), rest) := by
  have h := takeDigits_append ds hrest 0
  rwa [zero_mul, zero_add, show wrapInt 0 = 0 by decide] at h

/-! ### The other parts -/

/-- What may come behind a width, for it to be the whole width. -/
def WidthEnds : Option Width → List UInt8 → Prop
  | none, rest => peek rest ≠ '*'.toUInt8 ∧ ¬ IsDigit (peek rest)
  | some (.literal ds), rest => ds ≠ [] ∧ ¬ IsDigit (peek rest)
  | some .star, _ => True

theorem eq_cons_of_peek {d : UInt8} (h : peek cur = d) (hd : d ≠ 0) : cur = d :: cur.tail := by
  cases cur with
  | nil => exact absurd h.symm hd
  | cons c cur => rw [show c = d from h, List.tail_cons]

theorem takeWidth_append {w : Option Width} (h : WidthEnds w rest) (s : FormatSpec) :
    takeWidth s (w.elim [] Width.source ++ rest) =
      ({ s with fieldWidth := (widthSpec w).1, fieldWidthOpt := (widthSpec w).2 }, rest) := by
  rcases w with _ | ds | _
  · simp only [Option.elim_none, List.nil_append]
    rw [takeWidth, if_neg h.1, if_neg h.2]
    rfl
  · obtain ⟨d, ds, rfl⟩ := List.exists_cons_of_ne_nil h.1
    have hpeek : peek ((d :: ds).map digitByte ++ rest) = digitByte d := rfl
    have hstar : digitByte d ≠ '*'.toUInt8 := by fin_cases d <;> decide
    rw [Option.elim_some, Width.source, takeWidth, hpeek, if_neg hstar, if_pos (isDigit_digitByte d),
      takeDigits_zero _ h.2]
    dsimp only [widthSpec]
  · rfl

theorem exists_width (cur : List UInt8) :
    ∃ w rest, cur = Option.elim w [] Width.source ++ rest ∧ WidthEnds w rest := by
  by_cases hstar : peek cur = '*'.toUInt8
  · exact ⟨some .star, cur.tail, eq_cons_of_peek hstar (by decide), trivial⟩
  · obtain ⟨ds, rest, rfl, hrest⟩ := exists_digits cur
    cases ds with
    | nil => exact ⟨none, rest, rfl, hstar, hrest⟩
    | cons d ds => exact ⟨some (.literal (d :: ds)), rest, rfl, List.cons_ne_nil _ _, hrest⟩

/-- What may come behind a precision. -/
def PrecEnds : Option Precision → List UInt8 → Prop
  | none, rest => peek rest ≠ '.'.toUInt8
  | some (.literal ds), rest =>
    ¬ IsDigit (peek rest) ∧ (ds = [] → peek rest ≠ '*'.toUInt8 ∧ peek rest ≠ '-'.toUInt8)
  | some (.negative _), rest => ¬ IsDigit (peek rest)
  | some .star, _ => True

theorem takePrec_append {o : Option Precision} (h : PrecEnds o rest) (s : FormatSpec) :
    takePrec s (o.elim [] Precision.source ++ rest) =
      ({ s with prec := (precSpec o).1, precOpt := (precSpec o).2 }, rest) := by
  rcases o with _ | ds | ds | _
  · simp only [Option.elim_none, List.nil_append]
    rw [takePrec, if_neg h]
    rfl
  · have hpeek : peek (ds.map digitByte ++ rest) ≠ '*'.toUInt8 ∧
        peek (ds.map digitByte ++ rest) ≠ '-'.toUInt8 := by
      cases ds with
      | nil => exact h.2 rfl
      | cons d ds =>
        have hd : digitByte d ≠ '*'.toUInt8 ∧ digitByte d ≠ '-'.toUInt8 := by fin_cases d <;> decide
        exact hd
    have hdot : peek ('.'.toUInt8 :: ds.map digitByte ++ rest) = '.'.toUInt8 := rfl
    rw [Option.elim_some, Precision.source, takePrec, if_pos hdot, List.cons_append, List.tail_cons]
    dsimp only
    rw [if_neg hpeek.1, if_neg hpeek.2, takeDigits_zero ds h.1]
    dsimp only [precSpec]
  · have hdot : peek ('.'.toUInt8 :: '-'.toUInt8 :: ds.map digitByte ++ rest) = '.'.toUInt8 := rfl
    have hminus : peek ('-'.toUInt8 :: ds.map digitByte ++ rest) = '-'.toUInt8 := rfl
    have hstar : '-'.toUInt8 ≠ '*'.toUInt8 := by decide
    rw [Option.elim_some, Precision.source, takePrec, if_pos hdot, List.cons_append, List.tail_cons]
    dsimp only
    rw [hminus, if_neg hstar, if_pos rfl, List.cons_append, List.tail_cons, takeDigits_zero ds h]
    dsimp only [precSpec]
  · rfl

theorem exists_prec (cur : List UInt8) :
    ∃ o rest, cur = Option.elim o [] Precision.source ++ rest ∧ PrecEnds o rest := by
  by_cases hdot : peek cur = '.'.toUInt8
  · rw [eq_cons_of_peek hdot (by decide)]
    by_cases hstar : peek cur.tail = '*'.toUInt8
    · rw [eq_cons_of_peek hstar (by decide)]
      exact ⟨some .star, cur.tail.tail, rfl, trivial⟩
    · by_cases hminus : peek cur.tail = '-'.toUInt8
      · obtain ⟨ds, rest, hrest, hends⟩ := exists_digits cur.tail.tail
        rw [eq_cons_of_peek hminus (by decide), hrest]
        exact ⟨some (.negative ds), rest, rfl, hends⟩
      · obtain ⟨ds, rest, hrest, hends⟩ := exists_digits cur.tail
        rw [hrest] at hstar hminus ⊢
        refine ⟨some (.literal ds), rest, rfl, hends, ?_⟩
        rintro rfl
        exact ⟨hstar, hminus⟩
  · exact ⟨none, cur, rfl, hdot⟩

/-- The first characters of the length modifiers. -/
def lengthBytes : List UInt8 :=
  ['h'.toUInt8, 'l'.toUInt8, 'L'.toUInt8, 'j'.toUInt8, 'z'.toUInt8, 't'.toUInt8]

/-- What may come behind a length modifier. -/
def LengthEnds : LengthModifier → List UInt8 → Prop
  | .none, rest => peek rest ∉ lengthBytes
  | .h, rest => peek rest ≠ 'h'.toUInt8
  | .l, rest => peek rest ≠ 'l'.toUInt8
  | _, _ => True

theorem takeLength_append {m : LengthModifier} (h : LengthEnds m rest) (s : FormatSpec) :
    takeLength s (m.source ++ rest) = ({ s with lengthModifier := lenMod m }, rest) := by
  cases m with
  | none =>
    simp only [LengthEnds, lengthBytes, List.mem_cons, List.not_mem_nil, or_false, not_or] at h
    obtain ⟨h1, h2, h3, h4, h5, h6⟩ := h
    rw [LengthModifier.source, List.nil_append, takeLength, if_neg h1, if_neg h2, if_neg h3, if_neg h4,
      if_neg h5, if_neg h6]
    rfl
  | h =>
    have hh : peek (['h'.toUInt8] ++ rest) = 'h'.toUInt8 := rfl
    have htail : peek (['h'.toUInt8] ++ rest).tail ≠ 'h'.toUInt8 := h
    rw [LengthModifier.source, takeLength, if_pos hh, if_neg htail]
    rfl
  | l =>
    have hl : peek (['l'.toUInt8] ++ rest) = 'l'.toUInt8 := rfl
    have hh : 'l'.toUInt8 ≠ 'h'.toUInt8 := by decide
    have htail : peek (['l'.toUInt8] ++ rest).tail ≠ 'l'.toUInt8 := h
    rw [LengthModifier.source, takeLength, hl, if_neg hh, if_pos rfl, if_neg htail]
    rfl
  | hh | ll | j | z | t | L => rfl

theorem exists_length (cur : List UInt8) :
    ∃ (m : LengthModifier) (rest : List UInt8), cur = m.source ++ rest ∧ LengthEnds m rest := by
  by_cases hnone : peek cur ∈ lengthBytes
  · simp only [lengthBytes, List.mem_cons, List.not_mem_nil, or_false] at hnone
    rcases hnone with h | h | h | h | h | h
    · rw [eq_cons_of_peek h (by decide)]
      by_cases hh : peek cur.tail = 'h'.toUInt8
      · rw [eq_cons_of_peek hh (by decide)]
        exact ⟨.hh, _, rfl, trivial⟩
      · exact ⟨.h, _, rfl, hh⟩
    · rw [eq_cons_of_peek h (by decide)]
      by_cases hl : peek cur.tail = 'l'.toUInt8
      · rw [eq_cons_of_peek hl (by decide)]
        exact ⟨.ll, _, rfl, trivial⟩
      · exact ⟨.l, _, rfl, hl⟩
    · exact ⟨.L, cur.tail, eq_cons_of_peek h (by decide), trivial⟩
    · exact ⟨.j, cur.tail, eq_cons_of_peek h (by decide), trivial⟩
    · exact ⟨.z, cur.tail, eq_cons_of_peek h (by decide), trivial⟩
    · exact ⟨.t, cur.tail, eq_cons_of_peek h (by decide), trivial⟩
  · exact ⟨.none, cur, rfl, hnone⟩

theorem lookup_conversion (conv : Conversion) :
    conversions.lookup conv.byte = some (convSpec conv, capital conv) := by
  cases conv <;> decide

theorem conversion_byte_ne (conv : Conversion) : conv.byte ≠ 0 := by
  cases conv <;> decide

theorem exists_conversion {x : ConvSpec × Bool} (h : conversions.lookup (peek cur) = some x) :
    ∃ conv : Conversion, cur = conv.byte :: cur.tail := by
  have hmem : peek cur ∈ conversions.map Prod.fst := by
    by_contra hnot
    have hnone : conversions.lookup (peek cur) = none := by
      refine List.lookup_eq_none_iff.2 fun y hy => bne_iff_ne.2 fun heq => ?_
      exact hnot (List.mem_map.2 ⟨y, hy, heq.symm⟩)
    rw [hnone] at h
    cases h
  have hbytes : conversions.map Prod.fst = [.percent, .c, .s, .i, .d, .o, .u, .X, .x, .F, .f, .E, .e, .G, .g,
      .A, .a, .n, .p, .B, .b].map Conversion.byte := rfl
  rw [hbytes] at hmem
  obtain ⟨conv, -, hconv⟩ := List.mem_map.1 hmem
  exact ⟨conv, eq_cons_of_peek hconv.symm (conversion_byte_ne conv)⟩

theorem takeConversion_cons (conv : Conversion) (rest : List UInt8) (s : FormatSpec) :
    takeConversion s (conv.byte :: rest) =
      some ({ s with
        convSpec := convSpec conv
        caseAdjust := if capital conv then 0 else s.caseAdjust }, rest) := by
  rw [takeConversion, show peek (conv.byte :: rest) = conv.byte from rfl, lookup_conversion]
  rfl

/-! ### The whole directive -/

/-- The parts, each read where it ends. -/
theorem npfParseFormatSpec_append {d : Directive} {rest : List UInt8}
    (hflags : flagOf (peek (d.width.elim [] Width.source ++ (d.precision.elim [] Precision.source ++
      (d.length.source ++ d.conversion.byte :: rest)))) = none)
    (hwidth : WidthEnds d.width (d.precision.elim [] Precision.source ++
      (d.length.source ++ d.conversion.byte :: rest)))
    (hprec : PrecEnds d.precision (d.length.source ++ d.conversion.byte :: rest))
    (hlength : LengthEnds d.length (d.conversion.byte :: rest)) :
    npfParseFormatSpec (d.source ++ rest) = some (formatSpec d, rest) := by
  have hsource : (d.source ++ rest).tail = d.flags.map Flag.byte ++ (d.width.elim [] Width.source ++
      (d.precision.elim [] Precision.source ++ (d.length.source ++ d.conversion.byte :: rest))) := by
    simp [Directive.source, Directive.body]
  rw [npfParseFormatSpec, hsource, takeFlags_append d.flags hflags]
  dsimp only
  rw [takeWidth_append hwidth]
  dsimp only
  rw [takePrec_append hprec]
  dsimp only
  rw [takeLength_append hlength]
  dsimp only
  rw [takeConversion_cons, foldl_flag]
  simp [formatSpec, FormatSpec.initial]

/-- A character with which a length modifier or a conversion begins is not one of the other parts. -/
def IsLetter (c : UInt8) : Prop := c = '%'.toUInt8 ∨ 'A'.toUInt8 ≤ c

theorem isLetter_peek (m : LengthModifier) (conv : Conversion) (rest : List UInt8) :
    IsLetter (peek (m.source ++ conv.byte :: rest)) := by
  cases m with
  | none =>
    have hpeek : peek (LengthModifier.none.source ++ conv.byte :: rest) = conv.byte := rfl
    rw [hpeek, IsLetter]
    cases conv <;> decide
  | h | hh | l | ll | j | z | t | L =>
    simp only [LengthModifier.source, List.cons_append, peek, IsLetter]
    decide

theorem IsLetter.ne {d : UInt8} (h : IsLetter c) (hd : ¬ IsLetter d) : c ≠ d := by
  rintro rfl
  exact hd h

instance (c : UInt8) : Decidable (IsLetter c) := inferInstanceAs (Decidable (_ ∨ _))

theorem IsLetter.not_isDigit (h : IsLetter c) : ¬ IsDigit c := by
  rcases h with rfl | h
  · decide
  · exact fun hdigit => absurd (UInt8.le_trans h hdigit.2) (by decide)

theorem IsLetter.flagOf (h : IsLetter c) : flagOf c = none := by
  cases hf : Naul.flagOf c with
  | none => rfl
  | some f =>
    rw [flagOf_eq_some hf] at h
    cases f <;> exact absurd h (by decide)

theorem lengthEnds_conversion (m : LengthModifier) (conv : Conversion) (rest : List UInt8) :
    LengthEnds m (conv.byte :: rest) := by
  have hpeek : peek (conv.byte :: rest) = conv.byte := rfl
  cases m <;> simp only [LengthEnds, hpeek] <;> cases conv <;> decide

theorem precEnds_letter (o : Option Precision) (h : IsLetter (peek rest)) : PrecEnds o rest := by
  rcases o with _ | ds | ds | _
  · exact h.ne (by decide)
  · exact ⟨h.not_isDigit, fun _ => ⟨h.ne (by decide), h.ne (by decide)⟩⟩
  · exact h.not_isDigit
  · trivial

/-- A precision begins with a point. -/
theorem peek_precision (o : Option Precision) (rest : List UInt8) :
    peek (o.elim [] Precision.source ++ rest) = '.'.toUInt8 ∨
      peek (o.elim [] Precision.source ++ rest) = peek rest := by
  rcases o with _ | ds | ds | _
  · exact .inr rfl
  all_goals exact .inl rfl

theorem widthEnds_point {w : Option Width} (hw : ∀ v ∈ w, v.Proper)
    (h : peek rest = '.'.toUInt8 ∨ IsLetter (peek rest)) : WidthEnds w rest := by
  have hstar : peek rest ≠ '*'.toUInt8 := by
    rcases h with h | h
    · rw [h]
      decide
    · exact h.ne (by decide)
  have hdigit : ¬ IsDigit (peek rest) := by
    rcases h with h | h
    · rw [h]
      decide
    · exact h.not_isDigit
  rcases w with _ | ds | _
  · exact ⟨hstar, hdigit⟩
  · obtain ⟨d, tail, rfl, -⟩ := hw _ rfl
    exact ⟨List.cons_ne_nil _ _, hdigit⟩
  · trivial

theorem flagOf_width {w : Option Width} (hw : ∀ v ∈ w, v.Proper)
    (h : peek rest = '.'.toUInt8 ∨ IsLetter (peek rest)) :
    flagOf (peek (w.elim [] Width.source ++ rest)) = none := by
  rcases w with _ | ds | _
  · rw [Option.elim_none, List.nil_append]
    rcases h with h | h
    · rw [h]
      decide
    · exact h.flagOf
  · obtain ⟨d, tail, rfl, hd⟩ := hw _ rfl
    have hpeek : peek ((some (Width.literal (d :: tail))).elim [] Width.source ++ rest) = digitByte d := rfl
    rw [hpeek]
    revert hd
    fin_cases d <;> decide
  · have hpeek : peek ((some Width.star).elim [] Width.source ++ rest) = '*'.toUInt8 := rfl
    rw [hpeek]
    decide

/-- A width that flags end at is proper. -/
theorem proper_of_flagOf {w : Option Width} (hends : WidthEnds w rest)
    (h : flagOf (peek (w.elim [] Width.source ++ rest)) = none) : ∀ v ∈ w, v.Proper := by
  rintro v hv
  obtain rfl := Option.mem_def.1 hv
  cases v with
  | star => trivial
  | literal ds =>
    obtain ⟨d, tail, rfl⟩ := List.exists_cons_of_ne_nil hends.1
    refine ⟨d, tail, rfl, ?_⟩
    rintro rfl
    have hzero : flagOf '0'.toUInt8 = none := h
    exact absurd hzero (by decide)

/-- **A directive is read as what it says**, whatever follows. -/
theorem npfParseFormatSpec_source {d : Directive} (hd : Proper d) (rest : List UInt8) :
    npfParseFormatSpec (d.source ++ rest) = some (formatSpec d, rest) := by
  have hletter := isLetter_peek d.length d.conversion rest
  have hpoint := peek_precision d.precision (d.length.source ++ d.conversion.byte :: rest)
  generalize hcur : d.precision.elim [] Precision.source ++ (d.length.source ++ d.conversion.byte :: rest) =
    cur at hpoint
  have hpoint : peek cur = '.'.toUInt8 ∨ IsLetter (peek cur) := by
    rcases hpoint with h | h
    · exact .inl h
    · rw [h]
      exact .inr hletter
  rw [← hcur] at hpoint
  exact npfParseFormatSpec_append (flagOf_width hd hpoint) (widthEnds_point hd hpoint)
    (precEnds_letter _ hletter) (lengthEnds_conversion _ _ _)

/-- **What is accepted.** At a `%`, exactly the directives are read, each to its end and as what it says,
whatever follows. -/
theorem npfParseFormatSpec_iff (format rest : List UInt8) (s : FormatSpec) :
    npfParseFormatSpec ('%'.toUInt8 :: format) = some (s, rest) ↔
      ∃ d : Directive, Proper d ∧ '%'.toUInt8 :: format = d.source ++ rest ∧ s = formatSpec d := by
  constructor
  · intro h
    obtain ⟨flags, cur₁, rfl, hflags⟩ := exists_flags format
    obtain ⟨w, cur₂, rfl, hwidth⟩ := exists_width cur₁
    obtain ⟨o, cur₃, rfl, hprec⟩ := exists_prec cur₂
    obtain ⟨m, cur₄, rfl, hlength⟩ := exists_length cur₃
    have hconversion : ∃ conv : Conversion, cur₄ = conv.byte :: cur₄.tail := by
      rw [npfParseFormatSpec, List.tail_cons, takeFlags_append flags hflags] at h
      dsimp only at h
      rw [takeWidth_append hwidth] at h
      dsimp only at h
      rw [takePrec_append hprec] at h
      dsimp only at h
      rw [takeLength_append hlength, takeConversion] at h
      obtain ⟨x, hx, -⟩ := Option.map_eq_some_iff.1 h
      exact exists_conversion hx
    obtain ⟨conv, hcur⟩ := hconversion
    rw [hcur] at h hflags hwidth hprec hlength ⊢
    have hsource : '%'.toUInt8 :: (flags.map Flag.byte ++ (w.elim [] Width.source ++
        (o.elim [] Precision.source ++ (m.source ++ conv.byte :: cur₄.tail)))) =
        (Directive.mk flags w o m conv).source ++ cur₄.tail := by
      simp [Directive.source, Directive.body]
    rw [hsource] at h ⊢
    rw [npfParseFormatSpec_append hflags hwidth hprec hlength, Option.some.injEq, Prod.mk.injEq] at h
    obtain ⟨rfl, rfl⟩ := h
    exact ⟨_, proper_of_flagOf hwidth hflags, rfl, rfl⟩
  · rintro ⟨d, hd, hsource, rfl⟩
    rw [hsource]
    exact npfParseFormatSpec_source hd rest

end Parse

end Naul
