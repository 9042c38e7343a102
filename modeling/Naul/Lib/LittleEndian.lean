import Mathlib.Data.Nat.Digits.Defs
import Mathlib.Tactic

/-!
# Little-endian numbers

`bytes w n` are the lowest `w` bytes of `n`, the lowest first, and `value` is the number that a list of
bytes stands for: `value (bytes w n) = n % 256 ^ w`.
-/

namespace LittleEndian

/-- The number that the bytes stand for. -/
def value (bs : List UInt8) : ℕ := Nat.ofDigits 256 (bs.map UInt8.toNat)

/-- The lowest `w` bytes of a number. -/
def bytes (w n : ℕ) : List UInt8 := (List.range w).map fun i => .ofNat (n / 256 ^ i)

@[simp] theorem length_bytes (w n : ℕ) : (bytes w n).length = w := by simp [bytes]

theorem bytes_succ (w n : ℕ) : bytes (w + 1) n = bytes w n ++ [.ofNat (n / 256 ^ w)] := by
  rw [bytes, List.range_succ, List.map_append, List.map_singleton, ← bytes]

theorem bytes_cons (w n : ℕ) : bytes (w + 1) n = .ofNat n :: bytes w (n / 256) := by
  rw [bytes, List.range_succ_eq_map, List.map_cons, pow_zero, Nat.div_one, List.map_map, bytes]
  congr 1
  apply List.map_congr_left
  intro i _
  rw [Function.comp_apply, Nat.succ_eq_add_one, pow_succ', Nat.div_div_eq_div_mul]

/-- Only what fits into the bytes is stored. -/
theorem bytes_mod (w n : ℕ) : bytes w (n % 256 ^ w) = bytes w n := by
  induction w generalizing n with
  | zero => rfl
  | succ w ih =>
    have hlow : UInt8.ofNat (n % 256 ^ (w + 1)) = .ofNat n := by
      rw [← UInt8.toNat_inj, UInt8.toNat_ofNat', UInt8.toNat_ofNat']
      exact Nat.mod_mod_of_dvd n (Dvd.intro_left (256 ^ w) rfl)
    have hrest : n % 256 ^ (w + 1) / 256 = n / 256 % 256 ^ w := by
      rw [Nat.pow_succ', Nat.mod_mul_right_div_self]
    rw [bytes_cons, bytes_cons, hlow, hrest, ih]

theorem value_append (bs cs : List UInt8) :
    value (bs ++ cs) = value bs + 256 ^ bs.length * value cs := by
  rw [value, List.map_append, Nat.ofDigits_append, List.length_map, ← value, ← value]

theorem value_singleton (b : UInt8) : value [b] = b.toNat := by simp [value]

theorem value_bytes (w n : ℕ) : value (bytes w n) = n % 256 ^ w := by
  induction w with
  | zero => simp [bytes, value, Nat.mod_one]
  | succ w ih =>
    have hb : (UInt8.ofNat (n / 256 ^ w)).toNat = n / 256 ^ w % 256 := UInt8.toNat_ofNat'
    rw [bytes_succ, value_append, ih, value_singleton, length_bytes, hb, Nat.mod_pow_succ]

theorem value_lt (bs : List UInt8) : value bs < 256 ^ bs.length := by
  have hlength : (bs.map UInt8.toNat).length = bs.length := List.length_map _
  rw [← hlength]
  apply Nat.ofDigits_lt_base_pow_length (by decide)
  intro d hd
  obtain ⟨b, -, rfl⟩ := List.mem_map.1 hd
  exact b.toNat_lt

end LittleEndian
