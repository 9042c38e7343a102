import Naul.Str.Numerals

/-!
# Canonical decimal numerals (`include/str.h`)

`IsDecimalNumeral n s` says, without reference to how it is computed, that `s` is the decimal numeral of
`n` as it is written. There is exactly one (`isDecimalNumeral_iff`), and it is what `toString` leaves in
the buffer.
-/

namespace Naul

open Fuel

/-- Digits that stand for `n`, at least one, and the first is not 0 unless it is the only one. -/
structure IsDecimalNumeral (n : ℕ) (s : List UInt8) : Prop where
  digits : ∀ c ∈ s, IsDecimalDigit c
  value : decimalValue s = n
  ne_nil : s ≠ []
  no_zeros : ∀ rest, s = 48 :: rest → rest = []

variable {s : List UInt8}

theorem decimalDigit_inverse : ∀ c, IsDecimalDigit c → decimalDigit c < 10 ∧
    decimalCharacter (.ofNat (decimalDigit c)) = c ∧ (decimalDigit c = 0 ↔ c = 48) := by
  apply forall_uint8
  decide +kernel

/-- Characters from 0-9 are a canonical numeral exactly when the digits they stand for are. -/
theorem canonical_map_decimalDigit (hs : ∀ c ∈ s, IsDecimalDigit c) :
    Numeral.Canonical 10 (s.map decimalDigit) ↔ s ≠ [] ∧ ∀ rest, s = 48 :: rest → rest = [] := by
  constructor
  · intro h
    refine ⟨fun hnil => h.ne_nil (hnil ▸ rfl), fun rest hrest => ?_⟩
    have hnil := h.no_zeros (rest.map decimalDigit) (hrest ▸ rfl)
    exact List.map_eq_nil_iff.1 hnil
  · rintro ⟨hne, hzeros⟩
    refine ⟨fun d hd => ?_, fun hnil => hne (List.map_eq_nil_iff.1 hnil), fun rest hrest => ?_⟩
    · obtain ⟨c, hc, rfl⟩ := List.mem_map.1 hd
      exact (decimalDigit_inverse c (hs c hc)).1
    · obtain ⟨c, s', rfl, hc, rfl⟩ := List.map_eq_cons_iff.1 hrest
      have hzero : c = 48 := (decimalDigit_inverse c (hs c List.mem_cons_self)).2.2.1 hc
      rw [hzeros s' (hzero ▸ rfl), List.map_nil]

/-- The characters of the digits. -/
theorem map_decimalCharacter (hs : ∀ c ∈ s, IsDecimalDigit c) :
    (s.map decimalDigit).map (fun d => decimalCharacter (.ofNat d)) = s :=
  map_map_inverse fun c hc => (decimalDigit_inverse c (hs c hc)).2.1

/-- **A number has exactly one decimal numeral.** -/
theorem isDecimalNumeral_iff (n : UInt64) (s : List UInt8) :
    IsDecimalNumeral n.toNat s ↔ s = decimalText n := by
  constructor
  · intro h
    have hcanonical := (canonical_map_decimalDigit h.digits).2 ⟨h.ne_nil, h.no_zeros⟩
    have hnumeral := hcanonical.eq_numeral (by decide)
    have hvalue : Numeral.value 10 (s.map decimalDigit) = n.toNat := h.value
    rw [hvalue] at hnumeral
    rw [decimalText, numeralText, ← hnumeral, map_decimalCharacter h.digits]
  · rintro rfl
    have hdigits := decimalText_decimalDigit n
    have hcanonical := Numeral.canonical_numeral (b := 10) (by decide) n.toNat
    rw [← map_decimalDigit_decimalText, canonical_map_decimalDigit hdigits] at hcanonical
    exact ⟨hdigits, decimalValue_decimalText n, hcanonical.1, hcanonical.2⟩

theorem isDecimalNumeral_zero : IsDecimalNumeral 0 s ↔ s = [48] := isDecimalNumeral_iff 0 s

/-- A number below `2 ^ 64` has at most 20 digits. -/
theorem length_decimalText (n : UInt64) : (decimalText n).length ≤ 20 := by
  rw [decimalText, numeralText, List.length_map,
    Numeral.length_numeral_le_iff (by decide) (by decide)]
  exact n.toNat_lt.trans (by decide)

/-- **Numerals are canonical.** `toString` ends with the one decimal numeral of the number in the
buffer, in at most 21 bytes with its terminator and with no store to any other; and `reverseString`
reverses a string of any length and stores to nothing but its characters. -/
theorem toString_canonical :
    (∀ (string : ℕ) (n : UInt64) (m : Cells UInt8), ∃ m' text,
      Returns (toString string n m) m' ∧ HasString m' string text ∧
      (∀ s, IsDecimalNumeral n.toNat s ↔ s = text) ∧ text.length + 1 ≤ 21 ∧
      Cells.StoresIn (Set.Icc string (string + text.length)) m m') ∧
    ∀ (string : ℕ) (m : Cells UInt8) (s : List UInt8), HasString m string s →
      ∃ m', Returns (reverseString string m) m' ∧ HasString m' string s.reverse ∧
        Cells.StoresIn (Set.Ico string (string + s.length)) m m' := by
  constructor
  · intro string n m
    obtain ⟨m', hreturns, hstring, hstores⟩ := returns_toString string n m
    refine ⟨m', decimalText n, hreturns, hstring, isDecimalNumeral_iff n, ?_, hstores⟩
    exact Nat.succ_le_succ (length_decimalText n)
  · intro string m s hstring
    exact hstring.returns_reverseString

/-- The string "abc" becomes "cba". -/
theorem toString_canonical_abc :
    ∃ m', Returns (reverseString 0 (Cells.storeList ⟨fun _ => 0, []⟩ 0 [97, 98, 99, 0])) m' ∧
      HasString m' 0 [99, 98, 97] := by
  have hstring : HasString (Cells.storeList ⟨fun _ => 0, []⟩ 0 [97, 98, 99, 0]) 0 [97, 98, 99] :=
    ⟨Cells.has_storeList _ 0 [97, 98, 99, 0], by decide⟩
  obtain ⟨m', hreturns, hreverse, -⟩ := toString_canonical.2 0 _ [97, 98, 99] hstring
  exact ⟨m', hreturns, hreverse⟩

end Naul
