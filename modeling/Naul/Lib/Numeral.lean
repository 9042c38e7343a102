import Mathlib.Data.Nat.Digits.Lemmas
import Mathlib.Tactic

/-!
# Numerals

The digits of a number with the most significant one first, as they are written: `numeral b n` has no
leading zeros, except that zero is the single digit 0. `value b ds` is the number that digits stand for.
The two are inverse up to leading zeros (`value_numeral`, `numeral_value`), and each number has exactly
one numeral that is `Canonical`.

A program that writes a numeral usually begins with the last digit; `reverse_numeral` is the step of
such a loop.
-/

namespace Numeral

/-- The number that the digits stand for in base `b`. -/
def value (b : ℕ) (ds : List ℕ) : ℕ := Nat.ofDigits b ds.reverse

/-- The digits of `n` in base `b`. -/
def numeral (b n : ℕ) : List ℕ := if n = 0 then [0] else (Nat.digits b n).reverse

/-- The digits without leading zeros; a single 0 if all of them are zero. -/
def strip (ds : List ℕ) : List ℕ :=
  if ds.dropWhile (· = 0) = [] then [0] else ds.dropWhile (· = 0)

variable {b n k d : ℕ} {ds : List ℕ}

theorem numeral_zero (b : ℕ) : numeral b 0 = [0] := if_pos rfl

theorem numeral_of_ne_zero (b : ℕ) (hn : n ≠ 0) : numeral b n = (Nat.digits b n).reverse := if_neg hn

theorem value_numeral (b n : ℕ) : value b (numeral b n) = n := by
  by_cases hn : n = 0
  · subst hn
    rw [numeral_zero, value, List.reverse_singleton, Nat.ofDigits_singleton]
  · rw [numeral_of_ne_zero b hn, value, List.reverse_reverse, Nat.ofDigits_digits]

theorem lt_of_mem_numeral (hb : 1 < b) (hd : d ∈ numeral b n) : d < b := by
  by_cases hn : n = 0
  · subst hn
    rw [numeral_zero, List.mem_singleton] at hd
    omega
  · rw [numeral_of_ne_zero b hn, List.mem_reverse] at hd
    exact Nat.digits_lt_base hb hd

/-- A numeral has at most `k` digits exactly when the number is below `b ^ k`. -/
theorem length_numeral_le_iff (hb : 1 < b) (hk : 0 < k) : (numeral b n).length ≤ k ↔ n < b ^ k := by
  by_cases hn : n = 0
  · subst hn
    rw [numeral_zero, List.length_singleton]
    exact iff_of_true hk (Nat.pow_pos (by omega))
  · rw [numeral_of_ne_zero b hn, List.length_reverse, Nat.digits_length_le_iff hb]

/-- The last digit, and then those of the quotient unless that is zero. -/
theorem reverse_numeral (hb : 1 < b) (n : ℕ) :
    (numeral b n).reverse = n % b :: Nat.digits b (n / b) := by
  by_cases hn : n = 0
  · subst hn
    rw [numeral_zero, List.reverse_singleton, Nat.zero_mod, Nat.zero_div, Nat.digits_zero]
  · rw [numeral_of_ne_zero b hn, List.reverse_reverse, Nat.digits_def' hb (Nat.pos_of_ne_zero hn)]

theorem value_cons (b d : ℕ) (ds : List ℕ) : value b (d :: ds) = value b ds + b ^ ds.length * d := by
  rw [value, List.reverse_cons, Nat.ofDigits_append, List.length_reverse, Nat.ofDigits_singleton, value]

theorem value_lt (hb : 1 < b) (hds : ∀ d ∈ ds, d < b) : value b ds < b ^ ds.length := by
  have hlt := Nat.ofDigits_lt_base_pow_length hb (l := ds.reverse) fun d hd =>
    hds d (List.mem_reverse.1 hd)
  rwa [List.length_reverse] at hlt

/-- **The numeral of what digits stand for are the digits without leading zeros.** -/
theorem numeral_value (hb : 1 < b) (hds : ∀ d ∈ ds, d < b) : numeral b (value b ds) = strip ds := by
  induction ds with
  | nil => rfl
  | cons d ds ih =>
    by_cases hd : d = 0
    · subst hd
      rw [value_cons, Nat.mul_zero, Nat.add_zero, ih fun d hd => hds d (List.mem_cons_of_mem _ hd)]
      simp only [strip, List.dropWhile_cons, decide_true, if_true]
    · have hpos : value b (d :: ds) ≠ 0 := by
        rw [value_cons]
        have hpow : 0 < b ^ ds.length * d := Nat.mul_pos (Nat.pow_pos (by omega)) (Nat.pos_of_ne_zero hd)
        omega
      have hdigits : Nat.digits b (value b (d :: ds)) = (d :: ds).reverse := by
        apply Nat.digits_ofDigits b hb
        · intro l hl
          exact hds l (List.mem_reverse.1 hl)
        · intro hne
          rw [List.getLast_reverse]
          exact hd
      rw [numeral_of_ne_zero b hpos, hdigits, List.reverse_reverse]
      simp [strip, hd]

/-! ### Canonical numerals -/

/-- Digits as a number is written: at least one, and the first is not 0 unless it is the only one. -/
structure Canonical (b : ℕ) (ds : List ℕ) : Prop where
  lt : ∀ d ∈ ds, d < b
  ne_nil : ds ≠ []
  no_zeros : ∀ rest, ds = 0 :: rest → rest = []

theorem Canonical.strip_eq (h : Canonical b ds) : strip ds = ds := by
  cases ds with
  | nil => exact absurd rfl h.ne_nil
  | cons d rest =>
    by_cases hd : d = 0
    · subst hd
      obtain rfl := h.no_zeros rest rfl
      rfl
    · simp [strip, hd]

/-- **A number has no other numeral.** -/
theorem Canonical.eq_numeral (hb : 1 < b) (h : Canonical b ds) : ds = numeral b (value b ds) := by
  rw [numeral_value hb h.lt, h.strip_eq]

theorem canonical_numeral (hb : 1 < b) (n : ℕ) : Canonical b (numeral b n) := by
  by_cases hn : n = 0
  · subst hn
    rw [numeral_zero]
    refine ⟨fun d hd => ?_, List.cons_ne_nil _ _, fun rest hrest => ?_⟩
    · rw [List.mem_singleton] at hd
      omega
    · rw [List.cons.injEq] at hrest
      exact hrest.2.symm
  · have hne : Nat.digits b n ≠ [] := Nat.digits_ne_nil_iff_ne_zero.2 hn
    refine ⟨fun d hd => lt_of_mem_numeral hb hd, ?_, fun rest hrest => ?_⟩
    · rwa [numeral_of_ne_zero b hn, Ne, List.reverse_eq_nil_iff]
    · -- the first digit written is the last of `Nat.digits`
      rw [numeral_of_ne_zero b hn, List.reverse_eq_cons_iff] at hrest
      have hlast := Nat.getLast_digit_ne_zero b hn
      simp [hrest] at hlast

end Numeral
