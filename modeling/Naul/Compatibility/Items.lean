import Naul.Compatibility.Printf

/-!
# The meaning of formats

A format is a list of `Item`s, each a character or a directive with its arguments. `Item.text` is what the C
standard says of an item, over the `FieldLayout` that its flags and arguments come to, and `Item.after` is the
memory behind it, which only `n` changes. `Item.Defined` leaves out what the standard leaves undefined.

It also leaves out `b` with zeros and a precision, where `npf_vpprintf` does not ignore the zeros; the length
`l` with `c` and `s`; and numbers that are no `int`.
-/

namespace Naul

open FormatString

/-! ### The meaning of an item -/

/-- The bits of an integer type. -/
def typeBits : LengthModifier → ℕ
  | .none => 32
  | .h => 16
  | .hh => 8
  | _ => 64

/-- The word as a number of the type. -/
def signedOf (m : LengthModifier) (word : UInt64) : ℤ := Int.bmod word.toNat (2 ^ typeBits m)

def unsignedOf (m : LengthModifier) (word : UInt64) : ℕ := word.toNat % 2 ^ typeBits m

/-- The arguments of a directive: those behind the stars, and its own; for a string, what it is to show of the
memory. -/
structure ItemArguments where
  (width precision value : UInt64)
  shown : List UInt8

/-- What a directive comes to. -/
def layout (d : Directive) (a : ItemArguments) : FieldLayout where
  left := match d.width with
    | some .star => .minus ∈ d.flags ∨ intOf a.width < 0
    | _ => .minus ∈ d.flags
  zero := .zero ∈ d.flags
  plus := .plus ∈ d.flags
  space := .space ∈ d.flags
  alternate := .alternate ∈ d.flags
  width := match d.width with
    | none => 0
    | some (.literal ds) => number ds
    | some .star => (intOf a.width).natAbs
  precision := match d.precision with
    | some (.literal ds) => some (number ds)
    | some .star => if intOf a.precision < 0 then none else some (intOf a.precision).toNat
    | _ => none

/-- The arguments behind the stars. -/
def widthWords (w : Option Width) (word : UInt64) : List UInt64 :=
  match w with
  | some .star => [word]
  | _ => []

def precisionWords (o : Option Precision) (word : UInt64) : List UInt64 :=
  match o with
  | some .star => [word]
  | _ => []

inductive Item
  | literal (character : UInt8)
  | directive (d : Directive) (a : ItemArguments)

namespace Item

def source : Item → List UInt8
  | .literal character => [character]
  | .directive d _ => d.source

/-- The arguments that an item takes. -/
def words : Item → List UInt64
  | .literal _ => []
  | .directive d a =>
    widthWords d.width a.width ++ (precisionWords d.precision a.precision ++
      if d.conversion = .percent then [] else [a.value])

def text : Item → List UInt8
  | .literal character => [character]
  | .directive d a =>
    let l := layout d a
    match d.conversion with
    | .percent => ['%'.toUInt8]
    | .c => l.plain [a.value.toUInt8]
    | .s => l.plain a.shown
    | .d | .i => l.signed (signedOf d.length a.value)
    | .o => l.octal (unsignedOf d.length a.value)
    | .u => l.decimal (unsignedOf d.length a.value)
    | .x => l.prefixed 16 false 'x'.toUInt8 (unsignedOf d.length a.value)
    | .X => l.prefixed 16 true 'X'.toUInt8 (unsignedOf d.length a.value)
    | .b => l.prefixed 2 false 'b'.toUInt8 (unsignedOf d.length a.value)
    | .B => l.prefixed 2 true 'B'.toUInt8 (unsignedOf d.length a.value)
    | .p =>
      { l with precision := some (l.precision.getD 16) }.prefixed 16 false 'x'.toUInt8 a.value.toNat
    | _ => []

/-- The memory behind an item that is reached after `n` characters. -/
def after (n : ℕ) (memory : UInt64 → UInt8) : Item → UInt64 → UInt8
  | .literal _ => memory
  | .directive d a =>
    if d.conversion = .n then storeBytes memory a.value (LittleEndian.bytes (typeBits d.length / 8) n)
    else memory

/-- These bytes are the string at an address, up to a precision. -/
structure Shown (memory : UInt64 → UInt8) (p : UInt64) (precision : Option ℕ) (bytes : List UInt8) : Prop where
  address : p ≠ 0
  at_ : ∀ i b, bytes[i]? = some b → memory (p + .ofNat i) = b ∧ b ≠ 0
  within : ∀ k ∈ precision, bytes.length ≤ k
  terminated : precision ≠ some bytes.length → memory (p + .ofNat bytes.length) = 0

/-- A directive with a meaning that is not among those left out. -/
structure Defined (memory : UInt64 → UInt8) (d : Directive) (a : ItemArguments) : Prop where
  proper : Proper d
  width : ∀ ds, d.width = some (.literal ds) → number ds < 2 ^ 31
  star : d.width = some .star → intOf a.width ≠ -2 ^ 31
  precision : ∀ ds, d.precision = some (.literal ds) → number ds < 2 ^ 31
  standard : ∀ ds, d.precision ≠ some (.negative ds)
  conversion : match d.conversion with
    | .percent => d = ⟨[], none, none, .none, .percent⟩
    | .c => .zero ∉ d.flags ∧ d.precision = none ∧ d.length = .none
    | .s => .zero ∉ d.flags ∧ d.length = .none ∧ Shown memory a.value (layout d a).precision a.shown
    | .d | .i | .o | .u | .x | .X => d.length ≠ .L
    | .b | .B => d.length ≠ .L ∧ (.zero ∈ d.flags → d.precision = none)
    | .p => .zero ∉ d.flags ∧ d.length = .none
    | .n => d.flags = [] ∧ d.width = none ∧ d.precision = none ∧ d.length ≠ .L
    | _ => False

def Valid (memory : UInt64 → UInt8) : Item → Prop
  | .literal character => character ≠ 0 ∧ character ≠ '%'.toUInt8
  | .directive d a => Defined memory d a

/-- The items can be printed from `n` characters on: each is valid in the memory at which it is reached. -/
def Printable : List Item → ℕ → (UInt64 → UInt8) → Prop
  | [], _, _ => True
  | item :: items, n, memory =>
    item.Valid memory ∧ Printable items (n + item.text.length) (item.after n memory)

/-- The memory behind all of the items. -/
def afterAll : List Item → ℕ → (UInt64 → UInt8) → UInt64 → UInt8
  | [], _, memory => memory
  | item :: items, n, memory => afterAll items (n + item.text.length) (item.after n memory)

end Item

end Naul
