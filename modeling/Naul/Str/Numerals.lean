import Naul.Lib.Cells
import Naul.Lib.Fuel
import Naul.Lib.Numeral
import Naul.Str

/-!
# Numerals as strings (`include/str.h`)

`toString` and `toHex` write the digits of a number into a buffer from the last one on and then reverse
the string in place. They are alike but for the base and the characters, so that both are
`writeNumeral`; `returns_writeNumeral` says what is in the buffer afterwards and that nothing else has
been stored to. `fromHex` and `fromString` go over a string from its last character with a place value
that wraps (`modEq_positional`).

`toHex` and `fromHex` are inverse to each other. `fromString` subtracts each character from `'0'`, and so
returns the negative of what the digits stand for.
-/

namespace Naul

open Fuel

/-! ### Strings in memory -/

/-- From `a` upward the memory has the string. -/
structure HasString (m : Cells UInt8) (a : ℕ) (s : List UInt8) : Prop where
  has : m.Has a (s ++ [0])
  nul_free : 0 ∉ s

/-- `while (*string++) { value++; }`. -/
def lengthBody (m : Cells UInt8) (string value : ℕ) : ℕ ⊕ ℕ :=
  if m.cell (string + value) ≠ 0 then .inl (value + 1) else .inr value

/-- `stringLength(string)`, for a string in memory. -/
def stringLengthAt (m : Cells UInt8) (string fuel : ℕ) : Option ℕ :=
  WhileLoop.run (lengthBody m string) fuel 0

/-- A turn of the loop of `reverseString`. -/
def swapCharacters (string length i : ℕ) (m : Cells UInt8) : Cells UInt8 :=
  let backup := m.cell (string + i)
  let m := m.store (string + i) (m.cell (string + (length - i - 1)))
  m.store (string + (length - i - 1)) backup

/-- The loop of `reverseString` from `i` on, of which `n` turns are left. -/
def reverseLoop (string length i : ℕ) : ℕ → Cells UInt8 → Cells UInt8
  | 0, m => m
  | n + 1, m => reverseLoop string length (i + 1) n (swapCharacters string length i m)

def reverseString (string : ℕ) (m : Cells UInt8) (fuel : ℕ) : Option (Cells UInt8) :=
  (stringLengthAt m string fuel).bind fun length =>
    some (reverseLoop string length 0 (length / 2) m)

/-! ### To a numeral -/

/-- The variables of the loops of `toString` and `toHex`. -/
structure Digits where
  newString : ℕ
  value : UInt64
  memory : Cells UInt8

/-- A turn of `while (string == newString || value > 0)`. -/
def digitBody (base : UInt64) (character : UInt64 → UInt8) (string : ℕ) (s : Digits) :
    Digits ⊕ Digits :=
  if s.newString = string ∨ 0 < s.value then
    .inl ⟨s.newString + 1, s.value / base,
      s.memory.store s.newString (character (s.value % base))⟩
  else .inr s

def writeNumeral (base : UInt64) (character : UInt64 → UInt8) (string : ℕ) (value : UInt64)
    (m : Cells UInt8) (fuel : ℕ) : Option (Cells UInt8) :=
  (WhileLoop.run (digitBody base character string) fuel ⟨string, value, m⟩).bind fun s =>
    reverseString string (s.memory.store s.newString 0) fuel

/-- `'0' + digit`. -/
def decimalCharacter (digit : UInt64) : UInt8 := 48 + digit.toUInt8

/-- The `switch` of `toHex`. -/
def hexCharacter (digit : UInt64) : UInt8 :=
  let number := digit.toUInt8
  if number < 10 then 48 + number else 87 + number

def toString (string : ℕ) (value : UInt64) (m : Cells UInt8) (fuel : ℕ) : Option (Cells UInt8) :=
  writeNumeral 10 decimalCharacter string value m fuel

def toHex (string : ℕ) (value : UInt64) (m : Cells UInt8) (fuel : ℕ) : Option (Cells UInt8) :=
  writeNumeral 16 hexCharacter string value m fuel

/-! ### From a numeral -/

/-- The loop of `fromString` over the characters from the last one backward. -/
def fromStringLoop : List UInt8 → UInt64 → UInt64 → UInt64
  | [], _, result => result
  | c :: s, value, result => fromStringLoop s (value * 10) (result + charDiff 48 c * value)

def fromString (s : List UInt8) : UInt64 := fromStringLoop s.reverse 1 0

/-! ### Reversal in place -/

section Reverse

variable {m : Cells UInt8} {string length i n a : ℕ} {s : List UInt8}

theorem swapCharacters_cell (m : Cells UInt8) (hi : 2 * i < length) (j : ℕ) :
    (swapCharacters string length i m).cell (string + j) =
      if j = i ∨ j = length - i - 1 then m.cell (string + (length - j - 1))
      else m.cell (string + j) := by
  simp only [swapCharacters, Cells.store_cell]
  by_cases hlast : j = length - i - 1
  · rw [if_pos (by omega), if_pos (.inr hlast)]
    congr 1
    omega
  by_cases hfirst : j = i
  · rw [if_neg (by omega), if_pos (by omega), if_pos (.inl hfirst), hfirst]
  · rw [if_neg (by omega), if_neg (by omega), if_neg (by omega)]

/-- The loop exchanges the characters at both ends, `n` from `i` on. -/
theorem reverseLoop_cell (m : Cells UInt8) (hn : 2 * (i + n) ≤ length) (j : ℕ) :
    (reverseLoop string length i n m).cell (string + j) =
      if i ≤ j ∧ j < i + n ∨ length - (i + n) ≤ j ∧ j < length - i then
        m.cell (string + (length - j - 1))
      else m.cell (string + j) := by
  induction n generalizing i m with
  | zero => rw [reverseLoop, if_neg (by omega)]
  | succ n ih =>
    rw [reverseLoop, ih _ (by omega)]
    by_cases hrest : i + 1 ≤ j ∧ j < i + 1 + n ∨ length - (i + 1 + n) ≤ j ∧ j < length - (i + 1)
    · rw [if_pos hrest, swapCharacters_cell m (by omega), if_neg (by omega), if_pos (by omega)]
    · rw [if_neg hrest, swapCharacters_cell m (by omega)]
      exact if_congr (by omega) rfl rfl

theorem storesIn_reverseLoop (m : Cells UInt8) (hn : 2 * (i + n) ≤ length) :
    Cells.StoresIn (Set.Ico string (string + length)) m (reverseLoop string length i n m) := by
  induction n generalizing i m with
  | zero => exact .refl _ m
  | succ n ih =>
    have hfirst : string + i ∈ Set.Ico string (string + length) :=
      ⟨Nat.le_add_right _ _, by omega⟩
    have hlast : string + (length - i - 1) ∈ Set.Ico string (string + length) :=
      ⟨Nat.le_add_right _ _, by omega⟩
    rw [reverseLoop]
    refine Cells.StoresIn.trans ?_ (ih (swapCharacters string length i m) (by omega))
    exact (Cells.storesIn_store m hfirst _).trans (Cells.storesIn_store _ hlast _)

theorem HasString.cell (h : HasString m a s) {i : ℕ} (hi : i < s.length) : m.cell (a + i) = s[i] := by
  apply h.has
  rw [List.getElem?_append_left hi, List.getElem?_eq_getElem hi]

theorem HasString.terminator (h : HasString m a s) : m.cell (a + s.length) = 0 := by
  apply h.has
  rw [List.getElem?_concat_length]

theorem HasString.returns_stringLengthAt (h : HasString m a s) :
    Returns (stringLengthAt m a) s.length := by
  refine ⟨s.length + 1, WhileLoop.run_of_turns (fun i => i) (fun i hi => ?_) ?_⟩
  · rw [lengthBody, if_pos]
    rw [h.cell hi]
    intro hzero
    exact h.nul_free (hzero ▸ List.getElem_mem hi)
  · rw [lengthBody, if_neg (not_not.2 h.terminator)]

theorem steady_stringLengthAt (m : Cells UInt8) (a : ℕ) : Steady (stringLengthAt m a) :=
  steady_run _ _

theorem steady_reverseString (a : ℕ) (m : Cells UInt8) : Steady (reverseString a m) :=
  steady_bind (steady_stringLengthAt m a) fun _ => steady_some _

/-- **The string comes to be reversed.** Its terminator stays where it is. -/
theorem HasString.returns_reverseString (h : HasString m a s) :
    ∃ m', Returns (reverseString a m) m' ∧ HasString m' a s.reverse ∧
      Cells.StoresIn (Set.Ico a (a + s.length)) m m' := by
  refine ⟨reverseLoop a s.length 0 (s.length / 2) m, ?_, ⟨fun i v hv => ?_, ?_⟩, ?_⟩
  · obtain ⟨n, hn⟩ := h.returns_stringLengthAt
    exact ⟨n, by rw [reverseString, hn, Option.bind_some]⟩
  · rw [reverseLoop_cell m (by omega)]
    rcases Nat.lt_trichotomy i s.length with hi | rfl | hi
    · rw [List.getElem?_append_left (by simpa using hi), List.getElem?_reverse hi] at hv
      have hcell : m.cell (a + (s.length - i - 1)) = v := by
        apply h.has
        rw [Nat.sub_right_comm, List.getElem?_append_left (by omega), hv]
      split_ifs with hswap
      · exact hcell
      · -- the character in the middle
        rwa [show s.length - i - 1 = i by omega] at hcell
    · rw [if_neg (by omega), h.terminator]
      rw [← List.length_reverse, List.getElem?_concat_length, Option.some.injEq] at hv
      exact hv
    · rw [List.getElem?_eq_none (by simpa using hi)] at hv
      cases hv
  · rw [List.mem_reverse]
    exact h.nul_free
  · exact storesIn_reverseLoop m (by omega)

end Reverse

/-! ### Writing a numeral -/

section Write

variable {base value : UInt64} {character : UInt64 → UInt8} {string p : ℕ} {m : Cells UInt8}

/-- The numeral of `n` in characters. -/
def numeralText (base : ℕ) (character : UInt64 → UInt8) (n : ℕ) : List UInt8 :=
  (Numeral.numeral base n).map fun d => character (.ofNat d)

/-- What is read back element by element is the list. -/
theorem map_map_inverse {α β : Type*} {xs : List α} {write : α → β} {read : β → α}
    (hread : ∀ x ∈ xs, read (write x) = x) : (xs.map write).map read = xs := by
  rw [List.map_map]
  conv_rhs => rw [← List.map_id xs]
  exact List.map_congr_left hread

/-- What holds of the characters of all digits holds of those of a numeral. -/
theorem forall_numeralText {b : ℕ} (hb : 1 < b) {P : UInt8 → Prop}
    (hP : ∀ d < b, P (character (.ofNat d))) (n : ℕ) : ∀ c ∈ numeralText b character n, P c := by
  intro c hc
  obtain ⟨d, hd, rfl⟩ := List.mem_map.1 hc
  exact hP d (Numeral.lt_of_mem_numeral hb hd)

/-- Where each character can be read again, so can a numeral. -/
theorem map_numeralText {b : ℕ} (hb : 1 < b) {digit : UInt8 → ℕ}
    (hdigit : ∀ d < b, digit (character (.ofNat d)) = d) (n : ℕ) :
    (numeralText b character n).map digit = Numeral.numeral b n := by
  apply map_map_inverse
  intro d hd
  exact hdigit d (Numeral.lt_of_mem_numeral hb hd)

theorem digitBody_digit (h : p = string ∨ 0 < value) :
    digitBody base character string ⟨p, value, m⟩ = .inl ⟨p + 1, value / base,
      m.store p (character (.ofNat (value.toNat % base.toNat)))⟩ := by
  have hdigit : UInt64.ofNat (value.toNat % base.toNat) = value % base := by
    rw [← UInt64.toNat_mod, UInt64.ofNat_toNat]
  rw [hdigit]
  exact if_pos h

/-- After the first digit the loop goes on as long as something is left. -/
theorem returns_digits (hb : 1 < base.toNat) (character : UInt64 → UInt8) (value : UInt64)
    (hp : string < p) (m : Cells UInt8) :
    Returns (fun n => WhileLoop.run (digitBody base character string) n ⟨p, value, m⟩)
      ⟨p + (Nat.digits base.toNat value.toNat).length, 0,
        m.storeList p ((Nat.digits base.toNat value.toNat).map fun d => character (.ofNat d))⟩ := by
  induction hvalue : value.toNat using Nat.strong_induction_on generalizing value p m with
  | _ v ih =>
    subst hvalue
    by_cases hzero : value = 0
    · subst hzero
      refine ⟨1, WhileLoop.run_succ_inr ?_ 0⟩
      simp only [UInt64.toNat_zero, Nat.digits_zero]
      exact if_neg (by simpa using hp.ne')
    · have hpos : 0 < value := UInt64.pos_iff_ne_zero.2 hzero
      have hpos' : 0 < value.toNat := UInt64.lt_iff_toNat_lt.1 hpos
      obtain ⟨n, hn⟩ := ih _ (Nat.div_lt_self hpos' hb) (value / base) (Nat.lt_succ_of_lt hp)
        (m.store p (character (.ofNat (value.toNat % base.toNat)))) (UInt64.toNat_div ..)
      refine ⟨n + 1, ?_⟩
      show WhileLoop.run _ (n + 1) _ = _
      rw [WhileLoop.run_succ_inl (digitBody_digit (.inr hpos)), Nat.digits_def' hb hpos',
        List.length_cons, List.map_cons, Cells.storeList, Nat.add_comm (List.length _), ← Nat.add_assoc]
      exact hn

/-- The digits are written from the last one on. -/
theorem returns_writeDigits (hb : 1 < base.toNat) (character : UInt64 → UInt8) (string : ℕ)
    (value : UInt64) (m : Cells UInt8) :
    Returns (fun n => WhileLoop.run (digitBody base character string) n ⟨string, value, m⟩)
      ⟨string + (numeralText base.toNat character value.toNat).length, 0,
        m.storeList string (numeralText base.toNat character value.toNat).reverse⟩ := by
  obtain ⟨n, hn⟩ := returns_digits hb character (value / base) (Nat.lt_succ_self string)
    (m.store string (character (.ofNat (value.toNat % base.toNat))))
  refine ⟨n + 1, ?_⟩
  have hreverse := Numeral.reverse_numeral hb value.toNat
  have hlength := congrArg List.length hreverse
  rw [List.length_reverse, List.length_cons] at hlength
  show WhileLoop.run _ (n + 1) _ = _
  rw [WhileLoop.run_succ_inl (digitBody_digit (.inl rfl)), numeralText, ← List.map_reverse, hreverse,
    List.length_map, hlength, List.map_cons, Cells.storeList, Nat.add_comm (List.length _),
    ← Nat.add_assoc, ← UInt64.toNat_div]
  exact hn

/-- **The buffer comes to hold the numeral**, and nothing is stored but the numeral and its
terminator. -/
theorem returns_writeNumeral (hb : 1 < base.toNat)
    (hcharacter : ∀ d < base.toNat, character (.ofNat d) ≠ 0) (string : ℕ) (value : UInt64)
    (m : Cells UInt8) :
    ∃ m', Returns (writeNumeral base character string value m) m' ∧
      HasString m' string (numeralText base.toNat character value.toNat) ∧
      Cells.StoresIn (Set.Icc string (string + (numeralText base.toNat character value.toNat).length))
        m m' := by
  have hwrite := returns_writeDigits hb character string value m
  generalize htext : numeralText base.toNat character value.toNat = text at hwrite ⊢
  have hnul : 0 ∉ text := by
    intro hmem
    rw [← htext] at hmem
    exact forall_numeralText (P := fun c => c ≠ 0) hb hcharacter value.toNat 0 hmem rfl
  have hbackward : HasString ((m.storeList string text.reverse).store (string + text.length) 0) string
      text.reverse := by
    constructor
    · rw [← List.length_reverse]
      exact (Cells.has_storeList m string text.reverse).append 0
    · rwa [List.mem_reverse]
  obtain ⟨m', hreturns, hstring, hstores⟩ := hbackward.returns_reverseString
  rw [List.length_reverse] at hstores
  refine ⟨m', ?_, List.reverse_reverse text ▸ hstring, ?_⟩
  · exact ((hwrite.settles (steady_run _ _)).bind
      (hreturns.settles (steady_reverseString _ _))).returns
  · refine Cells.StoresIn.trans ?_ (hstores.mono Set.Ico_subset_Icc_self)
    have hdigits := m.storesIn_storeList string text.reverse
    rw [List.length_reverse] at hdigits
    refine (hdigits.mono Set.Ico_subset_Icc_self).trans (Cells.storesIn_store _ ?_ 0)
    exact ⟨Nat.le_add_right _ _, le_rfl⟩

end Write

/-! ### Reading a numeral -/

/-- The loop of `fromHex` and of `fromString`, for what a character counts. -/
def positional (base : UInt64) (count : UInt8 → UInt64) : List UInt8 → UInt64 → UInt64 → UInt64
  | [], _, result => result
  | c :: s, value, result => positional base count s (value * base) (result + count c * value)

theorem fromHexLoop_eq (s : List UInt8) (value result : UInt64) :
    fromHexLoop s value result = positional 16 hexDigit s value result := by
  induction s generalizing value result with
  | nil => rfl
  | cons c s ih => exact ih _ _

theorem fromStringLoop_eq (s : List UInt8) (value result : UInt64) :
    fromStringLoop s value result = positional 10 (charDiff 48) s value result := by
  induction s generalizing value result with
  | nil => rfl
  | cons c s ih => exact ih _ _

section Read

variable {base : UInt64} {count : UInt8 → UInt64} {digit : UInt8 → ℕ} {sign : ℤ} {s : List UInt8}

theorem modEq_add (a b : UInt64) : ((a + b).toNat : ℤ) ≡ a.toNat + b.toNat [ZMOD 2 ^ 64] := by
  rw [UInt64.toNat_add]
  push_cast
  exact Int.mod_modEq _ _

theorem modEq_mul (a b : UInt64) : ((a * b).toNat : ℤ) ≡ a.toNat * b.toNat [ZMOD 2 ^ 64] := by
  rw [UInt64.toNat_mul]
  push_cast
  exact Int.mod_modEq _ _

/-- The loop adds what the characters count, each as often as its place says; all of it wraps. -/
theorem modEq_positional (hs : ∀ c ∈ s, ((count c).toNat : ℤ) ≡ sign * digit c [ZMOD 2 ^ 64])
    (value result : UInt64) :
    ((positional base count s value result).toNat : ℤ) ≡
      result.toNat + value.toNat * (sign * Nat.ofDigits base.toNat (s.map digit)) [ZMOD 2 ^ 64] := by
  induction s generalizing value result with
  | nil => simp [positional]
  | cons c s ih =>
    have hrest := ih (fun d hd => hs d (List.mem_cons_of_mem _ hd)) (value * base)
      (result + count c * value)
    have hcount : ((result + count c * value).toNat : ℤ) ≡
        result.toNat + sign * digit c * value.toNat [ZMOD 2 ^ 64] :=
      (modEq_add _ _).trans (((modEq_mul _ _).trans ((hs c List.mem_cons_self).mul_right _)).add_left _)
    refine hrest.trans ((hcount.add ((modEq_mul value base).mul_right _)).trans ?_)
    rw [List.map_cons, Nat.ofDigits_cons]
    push_cast
    unfold Int.ModEq
    congr 1
    ring

/-- What a whole string counts. -/
theorem modEq_positional_reverse
    (hs : ∀ c ∈ s, ((count c).toNat : ℤ) ≡ sign * digit c [ZMOD 2 ^ 64]) :
    ((positional base count s.reverse 1 0).toNat : ℤ) ≡
      sign * Numeral.value base.toNat (s.map digit) [ZMOD 2 ^ 64] := by
  have hall := @modEq_positional base count digit sign s.reverse
    (fun c hc => hs c (List.mem_reverse.1 hc)) 1 0
  rw [List.map_reverse] at hall
  simpa [Numeral.value] using hall

end Read

/-! ### Hexadecimal -/

/-- A character from 0-9a-f. -/
def IsHexDigit (c : UInt8) : Prop := 48 ≤ c ∧ c ≤ 57 ∨ 97 ≤ c ∧ c ≤ 102

instance decidableIsHexDigit (c : UInt8) : Decidable (IsHexDigit c) :=
  inferInstanceAs (Decidable (_ ∨ _))

/-- The lower-case numeral of `n`. -/
def hexText (n : UInt64) : List UInt8 := numeralText 16 hexCharacter n.toNat

/-- A string without leading zeros; "0" if there is nothing else. -/
def stripZeros (s : List UInt8) : List UInt8 :=
  if s.dropWhile (· = 48) = [] then [48] else s.dropWhile (· = 48)

section Hex

variable {s : List UInt8} {c : UInt8} {n : UInt64}

/-- A property of all characters can be checked. -/
theorem forall_uint8 {P : UInt8 → Prop} (h : ∀ n < 256, P (.ofNat n)) (c : UInt8) : P c := by
  have hc := h c.toNat c.toNat_lt
  rwa [UInt8.ofNat_toNat] at hc

theorem hexDigit_hexCharacter :
    ∀ d < 16, IsHexDigit (hexCharacter (.ofNat d)) ∧ (hexDigit (hexCharacter (.ofNat d))).toNat = d := by
  decide

theorem hexDigit_inverse : ∀ c, IsHexDigit c →
    hexCharacter (.ofNat (hexDigit c).toNat) = c ∧ ((hexDigit c).toNat = 0 ↔ c = 48) := by
  apply forall_uint8
  decide +kernel

theorem hexDigit_lt : ∀ c, (hexDigit c).toNat < 16 := by
  apply forall_uint8
  decide +kernel

theorem hexDigits_lt (s : List UInt8) : ∀ d ∈ s.map (fun c => (hexDigit c).toNat), d < 16 := by
  intro d hd
  obtain ⟨c, -, rfl⟩ := List.mem_map.1 hd
  exact hexDigit_lt c

theorem value_hexDigit_lt (s : List UInt8) :
    Numeral.value 16 (s.map fun c => (hexDigit c).toNat) < 16 ^ s.length := by
  have hlt := @Numeral.value_lt 16 (s.map fun c => (hexDigit c).toNat) (by decide) (hexDigits_lt s)
  rwa [List.length_map] at hlt

/-- Up to 16 characters `fromHex` returns the number they stand for. -/
theorem fromHex_toNat (hlength : s.length ≤ 16) :
    (fromHex s).toNat = Numeral.value 16 (s.map fun c => (hexDigit c).toNat) := by
  have hvalue := @modEq_positional_reverse 16 hexDigit (fun c => (hexDigit c).toNat) 1 s fun c _ => by
    rw [one_mul]
  have hlt : Numeral.value 16 (s.map fun c => (hexDigit c).toNat) < 2 ^ 64 :=
    (value_hexDigit_lt s).trans_le (Nat.pow_le_pow_right (by decide) hlength)
  have hnat : (fromHex s).toNat ≡ Numeral.value 16 (s.map fun c => (hexDigit c).toNat) [MOD 2 ^ 64] := by
    rw [one_mul, ← fromHexLoop_eq] at hvalue
    exact (Int.natCast_modEq_iff).1 (by exact_mod_cast hvalue)
  exact hnat.eq_of_lt_of_lt (fromHex s).toNat_lt hlt

theorem hexText_hexDigit (n : UInt64) : ∀ c ∈ hexText n, IsHexDigit c :=
  forall_numeralText (by decide) (fun d hd => (hexDigit_hexCharacter d hd).1) n.toNat

theorem map_hexDigit_hexText (n : UInt64) :
    (hexText n).map (fun c => (hexDigit c).toNat) = Numeral.numeral 16 n.toNat :=
  map_numeralText (by decide) (fun d hd => (hexDigit_hexCharacter d hd).2) n.toNat

theorem length_hexText_le_iff {k : ℕ} (hk : 0 < k) : (hexText n).length ≤ k ↔ n.toNat < 16 ^ k := by
  rw [hexText, numeralText, List.length_map, Numeral.length_numeral_le_iff (by decide) hk]

theorem length_hexText (n : UInt64) : (hexText n).length ≤ 16 :=
  (length_hexText_le_iff (by decide)).2 n.toNat_lt

/-- `fromHex` undoes `toHex`. -/
theorem fromHex_hexText (n : UInt64) : fromHex (hexText n) = n := by
  rw [← UInt64.toNat_inj, fromHex_toNat (length_hexText n), map_hexDigit_hexText,
    Numeral.value_numeral]

theorem map_hexCharacter (hs : ∀ c ∈ s, IsHexDigit c) :
    (s.map fun c => (hexDigit c).toNat).map (fun d => hexCharacter (.ofNat d)) = s :=
  map_map_inverse fun c hc => (hexDigit_inverse c (hs c hc)).1

theorem map_dropWhile_zero (hs : ∀ c ∈ s, IsHexDigit c) :
    ((s.map fun c => (hexDigit c).toNat).dropWhile (· = 0)).map (fun d => hexCharacter (.ofNat d)) =
      s.dropWhile (· = 48) := by
  induction s with
  | nil => rfl
  | cons c s ih =>
    have hzero := (hexDigit_inverse c (hs c List.mem_cons_self)).2
    by_cases hc : c = 48
    · rw [List.map_cons, List.dropWhile_cons_of_pos (by simpa using hzero.2 hc),
        List.dropWhile_cons_of_pos (by simpa using hc)]
      exact ih fun d hd => hs d (List.mem_cons_of_mem _ hd)
    · have hall := map_hexCharacter hs
      rw [List.map_cons] at hall ⊢
      rw [List.dropWhile_cons_of_neg (by simpa using fun h => hc (hzero.1 h)),
        List.dropWhile_cons_of_neg (by simpa using hc), hall]

/-- `toHex` undoes `fromHex`, but for leading zeros. -/
theorem hexText_fromHex (hs : ∀ c ∈ s, IsHexDigit c) (hlength : s.length ≤ 16) :
    hexText (fromHex s) = stripZeros s := by
  have hdigits := hexDigits_lt s
  have hdrop := map_dropWhile_zero hs
  rw [hexText, numeralText, fromHex_toNat hlength, Numeral.numeral_value (by decide) hdigits,
    Numeral.strip, stripZeros, ← hdrop]
  by_cases hnil : (s.map fun c => (hexDigit c).toNat).dropWhile (· = 0) = []
  · rw [if_pos hnil, if_pos (by rw [hnil, List.map_nil])]
    rfl
  · rw [if_neg hnil, if_neg (by rwa [List.map_eq_nil_iff])]

/-- `toHex` ends with the numeral in the buffer. -/
theorem returns_toHex (string : ℕ) (n : UInt64) (m : Cells UInt8) :
    ∃ m', Returns (toHex string n m) m' ∧ HasString m' string (hexText n) ∧
      Cells.StoresIn (Set.Icc string (string + (hexText n).length)) m m' := by
  apply returns_writeNumeral (by decide)
  decide

end Hex

/-- **`toHex` and `fromHex` are inverse.** The numeral of `n` comes into the buffer, in at most 16
characters and at most 8 for a number below `2 ^ 32`, with its terminator and nothing else, and `fromHex`
of it is `n`; and a string of 1 to 16 digits comes back without its leading zeros. -/
theorem hex_roundTrip (string : ℕ) (m : Cells UInt8) :
    (∀ n : UInt64,
      (∃ m', Returns (toHex string n m) m' ∧ HasString m' string (hexText n) ∧
        Cells.StoresIn (Set.Icc string (string + (hexText n).length)) m m') ∧
      (hexText n).length ≤ 16 ∧ (n.toNat < 2 ^ 32 → (hexText n).length ≤ 8) ∧
      fromHex (hexText n) = n) ∧
    ∀ s, (∀ c ∈ s, IsHexDigit c) → 1 ≤ s.length → s.length ≤ 16 →
      ∃ m', Returns (toHex string (fromHex s) m) m' ∧ HasString m' string (stripZeros s) := by
  constructor
  · intro n
    refine ⟨returns_toHex string n m, length_hexText n, fun hn => ?_, fromHex_hexText n⟩
    exact (length_hexText_le_iff (by decide)).2 hn
  · intro s hs _ hlength
    obtain ⟨m', hreturns, hstring, -⟩ := returns_toHex string (fromHex s) m
    rw [hexText_fromHex hs hlength] at hstring
    exact ⟨m', hreturns, hstring⟩

/-- The string "00ff" comes back as "ff". -/
theorem hex_roundTrip_ff :
    ∃ m', Returns (toHex 0 (fromHex [48, 48, 102, 102]) ⟨fun _ => 0, []⟩) m' ∧
      HasString m' 0 [102, 102] :=
  (hex_roundTrip 0 _).2 [48, 48, 102, 102] (by simp [IsHexDigit]) (by decide) (by decide)

/-! ### Decimal -/

/-- A character from 0-9. -/
def IsDecimalDigit (c : UInt8) : Prop := 48 ≤ c ∧ c ≤ 57

instance decidableIsDecimalDigit (c : UInt8) : Decidable (IsDecimalDigit c) :=
  inferInstanceAs (Decidable (_ ∧ _))

/-- What a decimal digit stands for. -/
def decimalDigit (c : UInt8) : ℕ := c.toNat - 48

/-- The numeric value of a string of decimal digits. -/
def decimalValue (s : List UInt8) : ℕ := Numeral.value 10 (s.map decimalDigit)

/-- The decimal numeral of `n`. -/
def decimalText (n : UInt64) : List UInt8 := numeralText 10 decimalCharacter n.toNat

section Decimal

variable {s : List UInt8} {c : UInt8}

theorem decimalDigit_decimalCharacter :
    ∀ d < 10, IsDecimalDigit (decimalCharacter (.ofNat d)) ∧
      decimalDigit (decimalCharacter (.ofNat d)) = d := by
  decide

/-- `'0' - c` is the negative of the digit. -/
theorem modEq_charDiff : ∀ c, IsDecimalDigit c →
    ((charDiff 48 c).toNat : ℤ) ≡ -1 * decimalDigit c [ZMOD 2 ^ 64] := by
  apply forall_uint8
  decide +kernel

/-- **`fromString` returns the negative** of what the digits stand for. -/
theorem modEq_fromString (hs : ∀ c ∈ s, IsDecimalDigit c) :
    ((fromString s).toNat : ℤ) ≡ -1 * decimalValue s [ZMOD 2 ^ 64] := by
  rw [fromString, fromStringLoop_eq]
  exact modEq_positional_reverse fun c hc => modEq_charDiff c (hs c hc)

/-- Only 0 and `2 ^ 63` are their own negatives. -/
theorem fromString_toNat_iff (hs : ∀ c ∈ s, IsDecimalDigit c) (hlt : decimalValue s < 2 ^ 64) :
    (fromString s).toNat = decimalValue s ↔ decimalValue s = 0 ∨ decimalValue s = 2 ^ 63 := by
  have hmod := (modEq_fromString hs).add_right (decimalValue s : ℤ)
  have hlt' := (fromString s).toNat_lt
  have hdvd : (2 ^ 64 : ℤ) ∣ (fromString s).toNat + decimalValue s := by
    rw [neg_one_mul, neg_add_cancel] at hmod
    exact Int.modEq_zero_iff_dvd.1 hmod
  omega

theorem decimalText_decimalDigit (n : UInt64) : ∀ c ∈ decimalText n, IsDecimalDigit c :=
  forall_numeralText (by decide) (fun d hd => (decimalDigit_decimalCharacter d hd).1) n.toNat

theorem map_decimalDigit_decimalText (n : UInt64) :
    (decimalText n).map decimalDigit = Numeral.numeral 10 n.toNat :=
  map_numeralText (by decide) (fun d hd => (decimalDigit_decimalCharacter d hd).2) n.toNat

theorem decimalValue_decimalText (n : UInt64) : decimalValue (decimalText n) = n.toNat := by
  rw [decimalValue, map_decimalDigit_decimalText, Numeral.value_numeral]

/-- `toString` ends with the numeral in the buffer. -/
theorem returns_toString (string : ℕ) (n : UInt64) (m : Cells UInt8) :
    ∃ m', Returns (toString string n m) m' ∧ HasString m' string (decimalText n) ∧
      Cells.StoresIn (Set.Icc string (string + (decimalText n).length)) m m' := by
  apply returns_writeNumeral (by decide)
  decide

end Decimal

/-- **When `fromString` undoes `toString`.** Of the text that `toString` writes for `n`, and of any
string of digits with a value below `2 ^ 64`, it returns the number exactly when that is 0 or
`2 ^ 63`. -/
theorem decimal_roundTrip_iff (string : ℕ) (m : Cells UInt8) :
    (∀ n : UInt64, ∃ m' text, Returns (toString string n m) m' ∧ HasString m' string text ∧
      (fromString text = n ↔ n = 0 ∨ n.toNat = 2 ^ 63)) ∧
    ∀ s, (∀ c ∈ s, IsDecimalDigit c) → decimalValue s < 2 ^ 64 →
      ((fromString s).toNat = decimalValue s ↔ decimalValue s = 0 ∨ decimalValue s = 2 ^ 63) := by
  refine ⟨fun n => ?_, fun s => fromString_toNat_iff⟩
  obtain ⟨m', hreturns, hstring, -⟩ := returns_toString string n m
  refine ⟨m', decimalText n, hreturns, hstring, ?_⟩
  have hvalue := decimalValue_decimalText n
  have hiff := fromString_toNat_iff (decimalText_decimalDigit n) (hvalue ▸ n.toNat_lt)
  rw [hvalue] at hiff
  rw [← UInt64.toNat_inj, hiff, ← UInt64.toNat_inj, UInt64.toNat_zero]

/-- The string "0" is read as 0. -/
theorem decimal_roundTrip_zero : (fromString [48]).toNat = decimalValue [48] :=
  ((decimal_roundTrip_iff 0 ⟨fun _ => 0, []⟩).2 [48] (by simp [IsDecimalDigit]) (by decide)).2
    (.inl (by decide))

/-- For 5 `toString` writes "5", and `fromString` makes `2 ^ 64 - 5` of that. -/
theorem fromString_five :
    (∃ m', Returns (toString 0 5 ⟨fun _ => 0, []⟩) m' ∧ HasString m' 0 [53]) ∧
      decimalValue [53] = 5 ∧ fromString [53] = 18446744073709551611 ∧ fromString [53] ≠ 5 := by
  obtain ⟨m', hreturns, hstring, -⟩ := returns_toString 0 5 ⟨fun _ => 0, []⟩
  have htext : decimalText 5 = [53] := by
    show numeralText 10 decimalCharacter 5 = _
    rw [numeralText, Numeral.numeral_of_ne_zero 10 (by decide), Nat.digits_of_lt 10 5 (by decide)
      (by decide)]
    decide
  exact ⟨⟨m', hreturns, htext ▸ hstring⟩, by decide, by decide, by decide⟩

end Naul
