import Mathlib.Tactic

/-!
# C strings (`include/str.h`)

A C string is the list of the bytes before its terminator; a pointer into it is a suffix of that
list, and the pointer at the end of the list reads the terminator. `compareStart` is also called with
buffers, which may have a NUL anywhere. The comparisons return the difference of the first bytes that
differ, computed on (signed) `char`s and converted to `uint64_t`; `compareStrings_eq_zero` and
`compareStart_eq_zero` say when that is zero.
-/

namespace Naul

/-- A NUL-terminated string: the bytes before the terminator. -/
@[ext] structure CString where
  bytes : List UInt8
  nul_free : 0 ∉ bytes
  deriving DecidableEq

/-- `*string`. -/
def peek : List UInt8 → UInt8
  | [] => 0
  | c :: _ => c

/-- `*a - *b`, as `uint64_t`. -/
def charDiff (a b : UInt8) : UInt64 := UInt64.ofInt (a.toInt8.toInt - b.toInt8.toInt)

def stringLength : List UInt8 → ℕ
  | [] => 0
  | _ :: s => stringLength s + 1

def compareStrings : List UInt8 → List UInt8 → UInt64
  | [], b => charDiff 0 (peek b)
  | c :: a, b => if c ≠ peek b then charDiff c (peek b) else compareStrings a b.tail

def compareStart : List UInt8 → List UInt8 → ℕ → UInt64
  | [], b, length => if length ≠ 0 then charDiff 0 (peek b) else 0
  | _ :: _, _, 0 => 0
  | c :: a, b, length + 1 =>
    if c = 0 ∨ c ≠ peek b then charDiff c (peek b) else compareStart a b.tail length

def stringContains : List UInt8 → UInt8 → Bool
  | [], _ => false
  | c :: s, character => if c = character then true else stringContains s character

/-- The `switch` of `fromHex`, where every other character counts as zero. -/
def hexDigit (c : UInt8) : UInt64 :=
  if 49 ≤ c ∧ c ≤ 57 then (c - 48).toUInt64
  else if 97 ≤ c ∧ c ≤ 102 then (c - 87).toUInt64
  else 0

/-- The loop of `fromHex` over the characters from the last one backward. -/
def fromHexLoop : List UInt8 → UInt64 → UInt64 → UInt64
  | [], _, result => result
  | c :: s, value, result => fromHexLoop s (value * 16) (result + hexDigit c * value)

def fromHex (s : List UInt8) : UInt64 := fromHexLoop s.reverse 1 0

theorem stringLength_eq (s : List UInt8) : stringLength s = s.length := by
  induction s with
  | nil => rfl
  | cons c s ih => rw [stringLength, ih, List.length_cons]

theorem stringContains_iff {s : List UInt8} {c : UInt8} : stringContains s c = true ↔ c ∈ s := by
  induction s with
  | nil => simp [stringContains]
  | cons d s ih => by_cases hd : d = c <;> simp [stringContains, hd, ih, eq_comm (a := c)]

/-- Two `char`s differ by less than `2 ^ 64`, so their difference is zero only when they are equal. -/
theorem charDiff_eq_zero {a b : UInt8} : charDiff a b = 0 ↔ a = b := by
  constructor
  · intro h
    have h1 := congrArg UInt64.toNat h
    have ha := a.toInt8.le_toInt
    have ha' := a.toInt8.toInt_lt
    have hb := b.toInt8.le_toInt
    have hb' := b.toInt8.toInt_lt
    rw [charDiff, UInt64.ofInt, UInt64.toNat_ofNat', UInt64.toNat_zero] at h1
    have heq : a.toInt8.toInt = b.toInt8.toInt := by omega
    have h2 := congrArg Int8.toUInt8 (Int8.toInt_inj.1 heq)
    simpa using h2
  · rintro rfl
    rw [charDiff, sub_self]
    rfl

theorem peek_eq_zero {s : List UInt8} (hs : 0 ∉ s) : peek s = 0 ↔ s = [] := by
  cases s with
  | nil => simp [peek]
  | cons c s =>
    rw [List.mem_cons, not_or] at hs
    simp [peek, Ne.symm hs.1]

theorem tail_of_peek {s : List UInt8} {c : UInt8} (hc : c ≠ 0) (h : c = peek s) :
    s = c :: s.tail := by
  cases s with
  | nil => exact absurd h hc
  | cons d s => rw [h, peek, List.tail_cons]

/-- `compareStrings` is zero exactly on equal strings. -/
theorem compareStrings_eq_zero {a b : List UInt8} (ha : 0 ∉ a) (hb : 0 ∉ b) :
    compareStrings a b = 0 ↔ a = b := by
  induction a generalizing b with
  | nil =>
    rw [compareStrings, charDiff_eq_zero, eq_comm, peek_eq_zero hb, eq_comm]
  | cons c a ih =>
    rw [List.mem_cons, not_or] at ha
    rw [compareStrings]
    split_ifs with hc
    · rw [charDiff_eq_zero]
      refine iff_of_false hc ?_
      rintro rfl
      exact hc rfl
    · rw [not_not] at hc
      have hb' := tail_of_peek (Ne.symm ha.1) hc
      rw [ih ha.2 (fun h => hb (List.mem_of_mem_tail h))]
      constructor
      · rintro rfl
        exact hb'.symm
      · rintro rfl
        rfl

theorem compareStrings_eq_zero_iff (a b : CString) : compareStrings a.bytes b.bytes = 0 ↔ b = a := by
  rw [compareStrings_eq_zero a.nul_free b.nul_free, CString.ext_iff, eq_comm]

/-- `compareStart` with the length of `b` is zero exactly when `a` begins with `b`. -/
theorem compareStart_eq_zero {a b : List UInt8} (ha : 0 ∉ a) (hb : 0 ∉ b) :
    compareStart a b b.length = 0 ↔ b <+: a := by
  induction a generalizing b with
  | nil =>
    rw [compareStart, List.prefix_nil]
    split_ifs with hlen
    · rw [charDiff_eq_zero, eq_comm, peek_eq_zero hb]
    · rw [not_not, List.length_eq_zero_iff] at hlen
      exact iff_of_true rfl hlen
  | cons c a ih =>
    rw [List.mem_cons, not_or] at ha
    cases b with
    | nil => exact iff_of_true rfl List.nil_prefix
    | cons d b =>
      rw [List.length_cons, compareStart, peek, List.tail_cons, List.cons_prefix_cons]
      split_ifs with hc
      · have hne := hc.resolve_left (Ne.symm ha.1)
        rw [charDiff_eq_zero]
        exact iff_of_false hne fun h => hne h.1.symm
      · rw [not_or, not_not] at hc
        rw [ih ha.2 (fun h => hb (List.mem_cons_of_mem _ h))]
        exact ⟨fun h => ⟨hc.2.symm, h⟩, fun h => h.2⟩

end Naul
