import Naul.Compatibility.Format
import Naul.Lib.Fuel
import Naul.Lib.LittleEndian

/-!
# Formatted output (`programs/compatibility/include/nanoprintf.h`)

`npfVpprintf` goes over a format and puts the characters one after another; `printf` of `stdio.h` puts them
to the terminal. `npfVpprintf_items` says that for a format of literal characters and directives what is put
is what the C standard says, and that as many characters are counted.

The arguments are words: on the machine an integer or a pointer takes one, whatever its type. The conversions
of floating numbers are a parameter.
-/

namespace Naul

open FormatString Fuel

/-- `va_arg`. To take more arguments than there are is undefined. -/
def vaArg : List UInt64 → UInt64 × List UInt64
  | [] => (0, [])
  | word :: args => (word, args)

/-- A word as an `int`. -/
def intOf (word : UInt64) : ℤ := word.toUInt32.toInt32.toInt

/-! ### The directive's arguments -/

/-- `if (fs.field_width_opt == NPF_FMT_SPEC_OPT_STAR)`. -/
def starWidth (fs : FormatSpec) (args : List UInt64) : FormatSpec × List UInt64 :=
  if fs.fieldWidthOpt = .star then
    let (word, args) := vaArg args
    (if intOf word < 0 then { fs with fieldWidth := wrapInt (-intOf word), leftJustified := true }
      else { fs with fieldWidth := intOf word }, args)
  else (fs, args)

/-- `if (fs.prec_opt == NPF_FMT_SPEC_OPT_STAR)`. -/
def starPrec (fs : FormatSpec) (args : List UInt64) : FormatSpec × List UInt64 :=
  if fs.precOpt = .star then
    let (word, args) := vaArg args
    (if intOf word < 0 then { fs with prec := 0, precOpt := .none } else { fs with prec := intOf word }, args)
  else (fs, args)

/-- The default precision. -/
def defaultPrec (fs : FormatSpec) : FormatSpec :=
  if fs.precOpt = .none then
    match fs.convSpec with
    | .floatDec | .floatSci | .floatShortest => { fs with prec := 6 }
    | .floatHex => { fs with prec := 13 }
    | .pointer => { fs with prec := 16 }
    | _ => fs
  else fs

/-- For d i o u x X, the '0' flag must be ignored if a precision is provided. -/
def clearZeroPad (fs : FormatSpec) : FormatSpec :=
  if fs.precOpt ≠ .none then
    match fs.convSpec with
    | .signedInt | .octal | .hexInt | .unsignedInt => { fs with leadingZeroPad := false }
    | _ => fs
  else fs

/-- A directive with its arguments before the one that is converted. -/
def readArgs (fs : FormatSpec) (args : List UInt64) : FormatSpec × List UInt64 :=
  let (fs, args) := starWidth fs args
  let (fs, args) := starPrec fs args
  (clearZeroPad (defaultPrec fs), args)

/-! ### Conversions -/

/-- What a conversion leaves for the output: the text in `cbuf`, which for numbers is reversed. -/
structure Converted where
  fs : FormatSpec
  args : List UInt64
  cbuf : List UInt8
  (signC need0x : UInt8)
  zero : Bool

def utoaDigit (caseAdj : UInt8) (d : UInt64) : UInt8 :=
  (if d < 10 then '0'.toUInt8 else 'A'.toUInt8 - 10 + caseAdj) + d.toUInt8

def utoaBody (base : UInt64) (caseAdj : UInt8) (s : UInt64 × List UInt8) :
    (UInt64 × List UInt8) ⊕ List UInt8 :=
  let buf := s.2 ++ [utoaDigit caseAdj (s.1 % base)]
  let val := s.1 / base
  if val ≠ 0 then .inl (val, buf) else .inr buf

def npfUtoaRev (val base : UInt64) (caseAdj : UInt8) (fuel : ℕ) : Option (List UInt8) :=
  WhileLoop.run (utoaBody base caseAdj) fuel (val, [])

/-- `npf_bin_len`, where the count of leading zeros is a builtin. -/
def npfBinLen (u : UInt64) : ℕ := if u = 0 then 1 else Nat.log2 u.toNat + 1

/-- `NPF_EXTRACT` for signed numbers. -/
def signedArg (m : LenMod) (args : List UInt64) : ℤ × List UInt64 :=
  let (word, rest) := vaArg args
  match m with
  | .none => (word.toUInt32.toInt32.toInt, rest)
  | .short => (word.toUInt16.toInt16.toInt, rest)
  | .char => (word.toUInt8.toInt8.toInt, rest)
  | .longDouble => (0, args)
  | _ => (word.toInt64.toInt, rest)

/-- `NPF_EXTRACT` for unsigned numbers. -/
def unsignedArg (m : LenMod) (args : List UInt64) : UInt64 × List UInt64 :=
  let (word, rest) := vaArg args
  match m with
  | .none => (word.toUInt32.toUInt64, rest)
  | .short => (word.toUInt16.toUInt64, rest)
  | .char => (word.toUInt8.toUInt64, rest)
  | .longDouble => (0, args)
  | _ => (word, rest)

def convertSigned (fs : FormatSpec) (args : List UInt64) (fuel : ℕ) : Option Converted :=
  let (val, args) := signedArg fs.lengthModifier args
  let signC := if val < 0 then '-'.toUInt8 else fs.prepend
  if val = 0 ∧ fs.precOpt ≠ .none ∧ fs.prec = 0 then some ⟨fs, args, [], signC, 0, true⟩
  else
    let uval := if val < 0 then 0 - UInt64.ofInt val else UInt64.ofInt val
    (npfUtoaRev uval 10 fs.caseAdjust fuel).map fun cbuf => ⟨fs, args, cbuf, signC, 0, val = 0⟩

/-- The digits of `NPF_FMT_SPEC_CONV_BINARY` are taken from `u.binval` when they are put, the highest
first. -/
def binaryDigits (u : UInt64) : List UInt8 :=
  (List.range (npfBinLen u)).map fun i => '0'.toUInt8 + ((u >>> .ofNat i) &&& 1).toUInt8

def convertUnsigned (fs : FormatSpec) (args : List UInt64) (fuel : ℕ) : Option Converted :=
  let (val, args) := if fs.convSpec = .pointer then vaArg args else unsignedArg fs.lengthModifier args
  let converted : Option (FormatSpec × List UInt8) :=
    if val = 0 ∧ fs.precOpt ≠ .none ∧ fs.prec = 0 then
      some (if fs.convSpec = .octal ∧ fs.altForm then { fs with prec := 1 } else fs, [])
    else if fs.convSpec = .binary then some (fs, binaryDigits val)
    else
      let base := if fs.convSpec = .octal then 8 else if fs.convSpec = .unsignedInt then 10 else 16
      (npfUtoaRev val base fs.caseAdjust fuel).map fun cbuf => (fs, cbuf)
  converted.map fun (fs, cbuf) =>
    { fs := fs
      args := args
      cbuf := if val ≠ 0 ∧ fs.altForm ∧ fs.convSpec = .octal then cbuf ++ ['0'.toUInt8] else cbuf
      signC := 0
      need0x :=
        if val ≠ 0 ∧ fs.altForm then
          if fs.convSpec = .hexInt ∨ fs.convSpec = .pointer then 'X'.toUInt8 + fs.caseAdjust
          else if fs.convSpec = .binary then 'B'.toUInt8 + fs.caseAdjust
          else 0
        else 0
      zero := val = 0 }

/-- The loop that counts the characters of a string. Like the count, it is meant for fewer than `2 ^ 31`. -/
def stringBody (memory : UInt64 → UInt8) (fs : FormatSpec) (cbuf : UInt64) (len : ℕ) : ℕ ⊕ ℕ :=
  if (fs.precOpt = .none ∨ (len : ℤ) < fs.prec) ∧ cbuf ≠ 0 ∧ memory (cbuf + .ofNat len) ≠ 0 then .inl (len + 1)
  else .inr len

def convertString (memory : UInt64 → UInt8) (fs : FormatSpec) (args : List UInt64) (fuel : ℕ) :
    Option Converted :=
  let (cbuf, args) := vaArg args
  (WhileLoop.run (stringBody memory fs cbuf) fuel 0).map fun len =>
    ⟨fs, args, (List.range len).map fun i => memory (cbuf + .ofNat i), 0, 0, false⟩

/-- The `switch` over the conversion, where `float` is what it does for floating numbers. -/
def convert (float : FormatSpec → List UInt64 → Converted) (memory : UInt64 → UInt8) (fs : FormatSpec)
    (args : List UInt64) (fuel : ℕ) : Option Converted :=
  match fs.convSpec with
  | .percent => some ⟨fs, args, ['%'.toUInt8], 0, 0, false⟩
  | .char => some ⟨fs, (vaArg args).2, [(vaArg args).1.toUInt8], 0, 0, false⟩
  | .string => convertString memory fs args fuel
  | .signedInt => convertSigned fs args fuel
  | .binary | .octal | .hexInt | .unsignedInt | .pointer => convertUnsigned fs args fuel
  | .writeback =>
    some ⟨fs, if fs.lengthModifier = .longDouble then args else (vaArg args).2, [], 0, 0, false⟩
  | .floatDec | .floatSci | .floatShortest | .floatHex => some (float fs args)
  | .none => some ⟨fs, args, [], 0, 0, false⟩

/-- `(TYPE)n` in memory, where `TYPE` has `size` bytes. -/
def intBytes (size : ℕ) (n : ℤ) : List UInt8 := LittleEndian.bytes size (n % 2 ^ (8 * size)).toNat

/-- Bytes are stored from an address on. -/
def storeBytes (memory : UInt64 → UInt8) (a : UInt64) (bs : List UInt8) (b : UInt64) : UInt8 :=
  if (b - a).toNat < bs.length then bs.getD (b - a).toNat 0 else memory b

/-- The size of the number that `NPF_WRITEBACK` stores. -/
def writebackSize : LenMod → ℕ
  | .none => 4
  | .short => 2
  | .char => 1
  | .longDouble => 0
  | _ => 8

/-! ### Output -/

namespace Converted

variable (v : Converted)

/-- `pad_c`. -/
def padC : UInt8 :=
  if v.fs.fieldWidthOpt ≠ .none then
    if v.fs.leadingZeroPad ∧ ¬ v.fs.leftJustified then
      if v.fs.precOpt ≠ .none ∧ v.fs.prec = 0 ∧ v.zero then ' '.toUInt8 else '0'.toUInt8
    else ' '.toUInt8
  else 0

/-- The conversions for which `prec_pad` stays 0. -/
def unpadded : List ConvSpec := [.string, .floatDec, .floatSci, .floatShortest, .floatHex]

/-- `prec_pad`. -/
def precPad : ℤ := if v.fs.convSpec ∉ unpadded then max 0 (v.fs.prec - v.cbuf.length) else 0

/-- `field_pad`. -/
def fieldPad : ℤ :=
  max 0 (v.fs.fieldWidth - v.cbuf.length - (if v.signC ≠ 0 then 1 else 0) -
    (if v.need0x ≠ 0 then 2 else 0) - v.precPad)

/-- The pad characters. -/
def pads : List UInt8 := List.replicate v.fieldPad.toNat v.padC

/-- `if (sign_c) { NPF_PUTC(sign_c); }`. -/
def sign : List UInt8 := if v.signC ≠ 0 then [v.signC] else []

/-- `if (need_0x) { NPF_PUTC('0'); NPF_PUTC(need_0x); }`. -/
def base : List UInt8 := if v.need0x ≠ 0 then ['0'.toUInt8, v.need0x] else []

/-- What is put before the payload, and the sign where it has not been put with that. -/
def before : List UInt8 × List UInt8 :=
  if ¬ v.fs.leftJustified ∧ v.padC ≠ 0 then
    if v.padC = '0'.toUInt8 then (v.sign ++ v.base ++ v.pads, [])
    else if v.need0x ≠ 0 then (v.pads ++ (v.sign ++ v.base), [])
    else (v.pads, v.sign)
  else if v.need0x ≠ 0 then (v.sign ++ v.base, [])
  else ([], v.sign)

/-- The characters that are put for a conversion. -/
def emit : List UInt8 :=
  v.before.1 ++
    (if v.fs.convSpec = .string then v.cbuf
      else v.before.2 ++ List.replicate v.precPad.toNat '0'.toUInt8 ++ v.cbuf.reverse) ++
    if v.fs.leftJustified ∧ v.padC ≠ 0 then v.pads else []

end Converted

/-- The variables of `npf_vpprintf`, the memory, and the characters that have been put; `n` is the value of
an `int`. -/
structure Printing where
  cur : List UInt8
  args : List UInt64
  memory : UInt64 → UInt8
  out : List UInt8
  n : ℤ

/-- `NPF_PUTC`, for each of the characters. -/
def Printing.put (s : Printing) (cs : List UInt8) : Printing :=
  { s with out := s.out ++ cs, n := wrapInt (s.n + cs.length) }

/-- A directive of the format. -/
def printDirective (float : FormatSpec → List UInt64 → Converted) (s : Printing) (fs : FormatSpec)
    (cur : List UInt8) (fuel : ℕ) : Option Printing :=
  let (fs, args) := readArgs fs s.args
  (convert float s.memory fs args fuel).map fun v =>
    let s := { s with
      cur := cur
      args := v.args
      memory :=
        if fs.convSpec = ConvSpec.writeback then
          storeBytes s.memory (vaArg args).1 (intBytes (writebackSize fs.lengthModifier) s.n)
        else s.memory }
    s.put v.emit

/-- `while (*cur)`. -/
def printBody (float : FormatSpec → List UInt64 → Converted) (fuel : ℕ) (s : Printing) :
    Option (Printing ⊕ Printing) :=
  if peek s.cur ≠ 0 then
    match if peek s.cur ≠ '%'.toUInt8 then none else npfParseFormatSpec s.cur with
    | none => some (.inl ({ s with cur := s.cur.tail }.put [peek s.cur]))
    | some (fs, cur) => (printDirective float s fs cur fuel).map .inl
  else some (.inr s)

/-- `npf_vpprintf`, which returns `n`. -/
def npfVpprintf (float : FormatSpec → List UInt64 → Converted) (format : List UInt8) (args : List UInt64)
    (memory : UInt64 → UInt8) (fuel : ℕ) : Option Printing :=
  loop (printBody float) fuel ⟨format, args, memory, [], 0⟩

end Naul
