import Naul.Lib.Numeral
import Mathlib.Data.List.GetD

/-!
# Format strings

A format string has literal characters and directives: a `%`, flags in any order, a width, a precision, a
length modifier and a conversion, as in the C standard, with the conversions `b` and `B` of its newest
edition. `Directive.source` is how a directive is written.

A `FieldLayout` is what the flags, the width and the precision come to once the arguments behind the stars are
known. Its functions say what is written for a value: `field` puts a text into its width, and `signed`,
`octal`, `decimal` and `prefixed` are the integer conversions.
-/

namespace FormatString

inductive Flag
  | minus
  | zero
  | plus
  | space
  | alternate
  deriving DecidableEq

inductive Width
  | literal (digits : List (Fin 10))
  | star

/-- `negative` is a minus before the digits, which the standard does not have. -/
inductive Precision
  | literal (digits : List (Fin 10))
  | negative (digits : List (Fin 10))
  | star

inductive LengthModifier
  | none
  | h
  | hh
  | l
  | ll
  | j
  | z
  | t
  | L
  deriving DecidableEq

inductive Conversion
  | percent
  | c
  | s
  | d
  | i
  | o
  | u
  | x
  | X
  | b
  | B
  | p
  | n
  | f
  | F
  | e
  | E
  | g
  | G
  | a
  | A
  deriving DecidableEq

structure Directive where
  flags : List Flag
  width : Option Width
  precision : Option Precision
  length : LengthModifier
  conversion : Conversion

/-! ### How directives are written -/

def Flag.byte : Flag → UInt8
  | .minus => '-'.toUInt8
  | .zero => '0'.toUInt8
  | .plus => '+'.toUInt8
  | .space => ' '.toUInt8
  | .alternate => '#'.toUInt8

/-- The character of a digit. -/
def digitByte (d : Fin 10) : UInt8 := '0'.toUInt8 + .ofNat d

/-- The number that the digits stand for. -/
def number (ds : List (Fin 10)) : ℕ := Numeral.value 10 (ds.map Fin.val)

def Width.source : Width → List UInt8
  | .literal ds => ds.map digitByte
  | .star => ['*'.toUInt8]

def Precision.source : Precision → List UInt8
  | .literal ds => '.'.toUInt8 :: ds.map digitByte
  | .negative ds => '.'.toUInt8 :: '-'.toUInt8 :: ds.map digitByte
  | .star => ['.'.toUInt8, '*'.toUInt8]

def LengthModifier.source : LengthModifier → List UInt8
  | .none => []
  | .h => ['h'.toUInt8]
  | .hh => ['h'.toUInt8, 'h'.toUInt8]
  | .l => ['l'.toUInt8]
  | .ll => ['l'.toUInt8, 'l'.toUInt8]
  | .j => ['j'.toUInt8]
  | .z => ['z'.toUInt8]
  | .t => ['t'.toUInt8]
  | .L => ['L'.toUInt8]

def Conversion.byte : Conversion → UInt8
  | .percent => '%'.toUInt8
  | .c => 'c'.toUInt8
  | .s => 's'.toUInt8
  | .d => 'd'.toUInt8
  | .i => 'i'.toUInt8
  | .o => 'o'.toUInt8
  | .u => 'u'.toUInt8
  | .x => 'x'.toUInt8
  | .X => 'X'.toUInt8
  | .b => 'b'.toUInt8
  | .B => 'B'.toUInt8
  | .p => 'p'.toUInt8
  | .n => 'n'.toUInt8
  | .f => 'f'.toUInt8
  | .F => 'F'.toUInt8
  | .e => 'e'.toUInt8
  | .E => 'E'.toUInt8
  | .g => 'g'.toUInt8
  | .G => 'G'.toUInt8
  | .a => 'a'.toUInt8
  | .A => 'A'.toUInt8

/-- A directive without its `%`. -/
def Directive.body (d : Directive) : List UInt8 :=
  d.flags.map Flag.byte ++ (d.width.elim [] Width.source ++ (d.precision.elim [] Precision.source ++
    (d.length.source ++ [d.conversion.byte])))

def Directive.source (d : Directive) : List UInt8 := '%'.toUInt8 :: d.body

/-- A width has a digit, and begins with one that is no flag. -/
def Width.Proper : Width → Prop
  | .literal ds => ∃ d rest, ds = d :: rest ∧ d ≠ 0
  | .star => True

/-! ### What is written -/

/-- What the flags, the width and the precision come to. -/
structure FieldLayout where
  (left zero plus space alternate : Bool)
  width : ℕ
  precision : Option ℕ

/-- The character of a digit in a base up to 16. -/
def baseDigit (upper : Bool) (d : ℕ) : UInt8 :=
  if d < 10 then '0'.toUInt8 + .ofNat d else (if upper then 'A'.toUInt8 else 'a'.toUInt8) + .ofNat (d - 10)

/-- The numeral of a number. -/
def numeral (base : ℕ) (upper : Bool) (n : ℕ) : List UInt8 := (Numeral.numeral base n).map (baseDigit upper)

/-- The binary digits of a number are its bits. -/
theorem digits_two {n : ℕ} (hn : n ≠ 0) :
    Nat.digits 2 n = (List.range (Nat.log 2 n + 1)).map fun i => n / 2 ^ i % 2 := by
  apply List.ext_getElem
  · rw [Nat.length_digits 2 n (by decide) hn, List.length_map, List.length_range]
  · intro i hi hi'
    rw [List.getElem_map, List.getElem_range, ← Nat.getD_digits n i le_rfl, List.getD_eq_getElem]

/-- A text behind its sign or prefix, padded to a width: on the right, with zeros between the two, or on the
left. -/
def field (left zeros : Bool) (width : ℕ) (lead body : List UInt8) : List UInt8 :=
  let pad := width - (lead.length + body.length)
  if left then lead ++ body ++ List.replicate pad ' '.toUInt8
  else if zeros then lead ++ List.replicate pad '0'.toUInt8 ++ body
  else List.replicate pad ' '.toUInt8 ++ lead ++ body

namespace FieldLayout

variable (l : FieldLayout)

/-- The digits of a number, with zeros up to the precision; none for zero in precision zero. -/
def digits (base : ℕ) (upper : Bool) (n : ℕ) : List UInt8 :=
  if n = 0 ∧ l.precision = some 0 then []
  else (numeral base upper n).leftpad (l.precision.getD 1) '0'.toUInt8

/-- The flag for zeros is ignored where there is a precision. -/
def number (lead body : List UInt8) : List UInt8 :=
  field l.left (l.zero && l.precision.isNone) l.width lead body

def sign (v : ℤ) : List UInt8 :=
  if v < 0 then ['-'.toUInt8] else if l.plus then ['+'.toUInt8] else if l.space then [' '.toUInt8] else []

def signed (v : ℤ) : List UInt8 := l.number (l.sign v) (l.digits 10 false v.natAbs)

def decimal (n : ℕ) : List UInt8 := l.number [] (l.digits 10 false n)

/-- In the alternative form the first digit is a zero. -/
def octal (n : ℕ) : List UInt8 :=
  let ds := l.digits 8 false n
  l.number [] (if l.alternate ∧ ds.head? ≠ some '0'.toUInt8 then '0'.toUInt8 :: ds else ds)

/-- In the alternative form a number other than zero has a prefix. -/
def prefixed (base : ℕ) (upper : Bool) (letter : UInt8) (n : ℕ) : List UInt8 :=
  l.number (if l.alternate ∧ n ≠ 0 then ['0'.toUInt8, letter] else []) (l.digits base upper n)

/-- A text without digits. -/
def plain (s : List UInt8) : List UInt8 := field l.left false l.width [] s

/-- A numeral has a digit, so zeros are added only up to a precision that is given. -/
theorem digits_eq (base : ℕ) (hbase : 1 < base) (upper : Bool) (n : ℕ) :
    l.digits base upper n =
      if n = 0 ∧ l.precision = some 0 then []
      else List.replicate (l.precision.getD 0 - (numeral base upper n).length) '0'.toUInt8 ++
        numeral base upper n := by
  have hlength : 0 < (numeral base upper n).length := by
    rw [numeral, List.length_map]
    exact List.length_pos_of_ne_nil (Numeral.canonical_numeral hbase n).ne_nil
  rw [digits, List.leftpad]
  cases l.precision with
  | none => rw [Option.getD_none, Option.getD_none, Nat.sub_eq_zero_of_le hlength, Nat.zero_sub]
  | some k => rfl

end FieldLayout

end FormatString
