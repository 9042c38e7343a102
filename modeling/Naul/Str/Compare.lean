import Naul.Str

/-!
# `strcmp` and `memcmp` (`programs/compatibility/include/string.h`)

Both are the comparisons of `str.h` with the result converted to `int`. C says that they return zero
for what is equal and otherwise have the sign of the first difference, of bytes taken as
`unsigned char`; for strings the terminators belong to them.

The comparisons subtract signed `char`s, so that the sign is right when the bytes are both below 128 or
both not, and `compareStart` ends at a NUL, so that `memcmp` sees no difference after one.
-/

namespace Naul

/-- `(int)x`. -/
def narrow (x : UInt64) : Int32 := x.toUInt32.toInt32

def strcmp (a b : List UInt8) : Int32 := narrow (compareStrings a b)

def memcmp (a b : List UInt8) (length : ℕ) : Int32 := narrow (compareStart a b length)

/-- After what they have in common, `a` has `c` where `b` has another byte `d`. -/
structure FirstDifference (a b common : List UInt8) (c d : UInt8) : Prop where
  left : common ++ [c] <+: a
  right : common ++ [d] <+: b
  ne : c ≠ d

/-- The result of a comparison has the sign that C says. -/
def SignOf (result : Int32) (c d : UInt8) : Prop :=
  result.toInt.sign = ((c.toNat : ℤ) - d.toNat).sign

/-- `strcmp(a, b)` is what C says. -/
structure StrcmpCorrect (a b : List UInt8) : Prop where
  zero : strcmp a b = 0 ↔ a = b
  sign : ∀ common c d, FirstDifference (a ++ [0]) (b ++ [0]) common c d → SignOf (strcmp a b) c d

/-- `memcmp(a, b, n)` is what C says. -/
structure MemcmpCorrect (a b : List UInt8) (n : ℕ) : Prop where
  zero : memcmp a b n = 0 ↔ a.take n = b.take n
  sign : ∀ common c d, FirstDifference (a.take n) (b.take n) common c d → SignOf (memcmp a b n) c d

/-! ### The result as an `int` -/

section Narrow

variable {c d : UInt8}

theorem toInt8_toInt (c : UInt8) :
    c.toInt8.toInt = if c.toNat < 128 then (c.toNat : ℤ) else c.toNat - 256 := by
  show c.toBitVec.toInt = _
  rw [BitVec.toInt_eq_toNat_cond]
  show (if 2 * c.toNat < 256 then (c.toNat : ℤ) else c.toNat - 256) = _
  exact if_congr (by omega) rfl rfl

/-- An `int` can hold what the conversion to `uint64_t` made of a small number. -/
theorem narrow_ofInt {x : ℤ} (hlt : -256 < x) (hgt : x < 256) : (narrow (.ofInt x)).toInt = x := by
  show (UInt64.ofInt x).toUInt32.toBitVec.toInt = x
  rw [BitVec.toInt_eq_toNat_cond]
  show (if 2 * (UInt64.ofInt x).toUInt32.toNat < 2 ^ 32 then ((UInt64.ofInt x).toUInt32.toNat : ℤ)
    else (UInt64.ofInt x).toUInt32.toNat - (2 ^ 32 : ℕ)) = x
  rw [UInt64.toNat_toUInt32, UInt64.ofInt, UInt64.toNat_ofNat']
  split_ifs <;> omega

theorem narrow_toInt (x : UInt64) : (narrow x).toInt = (x.toNat : ℤ).bmod (2 ^ 32) := by
  show x.toUInt32.toBitVec.toInt = _
  rw [BitVec.toInt_eq_toNat_bmod]
  show (x.toUInt32.toNat : ℤ).bmod (2 ^ 32) = _
  rw [UInt64.toNat_toUInt32, Int.natCast_mod]
  exact Int.emod_bmod _ _

/-- An `int` can hold a number below `2 ^ 31`. -/
theorem narrow_of_lt {x : UInt64} (hlt : x.toNat < 2 ^ 31) : (narrow x).toInt = x.toNat := by
  show x.toUInt32.toBitVec.toInt = x.toNat
  rw [BitVec.toInt_eq_toNat_cond]
  show (if 2 * x.toUInt32.toNat < 2 ^ 32 then (x.toUInt32.toNat : ℤ)
    else x.toUInt32.toNat - (2 ^ 32 : ℕ)) = x.toNat
  rw [UInt64.toNat_toUInt32, Nat.mod_eq_of_lt (by omega), if_pos (by omega)]

theorem narrow_charDiff (c d : UInt8) :
    (narrow (charDiff c d)).toInt = c.toInt8.toInt - d.toInt8.toInt := by
  have hc := c.toInt8.le_toInt
  have hc' := c.toInt8.toInt_lt
  have hd := d.toInt8.le_toInt
  have hd' := d.toInt8.toInt_lt
  exact narrow_ofInt (by omega) (by omega)

theorem narrow_charDiff_eq_zero : narrow (charDiff c d) = 0 ↔ c = d := by
  rw [← Int32.toInt_inj, narrow_charDiff, Int32.toInt_zero, sub_eq_zero, Int8.toInt_inj]
  constructor
  · intro h
    simpa using congrArg Int8.toUInt8 h
  · rintro rfl
    rfl

/-- The difference has the sign that C says when both bytes are below 128, or neither. -/
theorem signOf_charDiff_iff (hne : c ≠ d) : SignOf (narrow (charDiff c d)) c d ↔ (c < 128 ↔ d < 128) := by
  have hne' : c.toNat ≠ d.toNat := fun h => hne (UInt8.toNat_inj.1 h)
  have hc : c < 128 ↔ c.toNat < 128 := UInt8.lt_iff_toNat_lt
  have hd : d < 128 ↔ d.toNat < 128 := UInt8.lt_iff_toNat_lt
  have hc' := c.toNat_lt
  have hd' := d.toNat_lt
  rw [SignOf, narrow_charDiff, toInt8_toInt, toInt8_toInt, hc, hd]
  rcases Nat.lt_or_gt_of_ne hne' with hlt | hlt
  · rw [Int.sign_eq_neg_one_of_neg (a := (c.toNat : ℤ) - d.toNat) (by omega), Int.sign_eq_neg_one_iff_neg]
    split_ifs <;> omega
  · rw [Int.sign_eq_one_of_pos (a := (c.toNat : ℤ) - d.toNat) (by omega), Int.sign_eq_one_iff_pos]
    split_ifs <;> omega

end Narrow

/-! ### The first difference -/

section Difference

variable {a b common : List UInt8} {c d e : UInt8} {n : ℕ}

theorem firstDifference_cons :
    FirstDifference (e :: a) (e :: b) (e :: common) c d ↔ FirstDifference a b common c d := by
  constructor
  · rintro ⟨hleft, hright, hne⟩
    rw [List.cons_append, List.cons_prefix_cons] at hleft hright
    exact ⟨hleft.2, hright.2, hne⟩
  · rintro ⟨hleft, hright, hne⟩
    refine ⟨?_, ?_, hne⟩
    · exact List.cons_prefix_cons.2 ⟨rfl, hleft⟩
    · exact List.cons_prefix_cons.2 ⟨rfl, hright⟩

/-- Different lists of the same length have one. -/
theorem exists_firstDifference (hlength : a.length = b.length) (hne : a ≠ b) :
    ∃ common c d, FirstDifference a b common c d := by
  induction a generalizing b with
  | nil => exact absurd (List.eq_nil_of_length_eq_zero hlength.symm).symm hne
  | cons e a ih =>
    cases b with
    | nil => cases hlength
    | cons f b =>
      by_cases hef : e = f
      · subst hef
        obtain ⟨common, c, d, h⟩ := ih (by simpa using hlength) (by simpa using hne)
        exact ⟨e :: common, c, d, firstDifference_cons.2 h⟩
      · exact ⟨[], e, f, by simp, by simp, hef⟩

/-- Different strings have one, of which one byte may be a terminator. -/
theorem exists_firstDifference_string (ha : 0 ∉ a) (hb : 0 ∉ b) (hne : a ≠ b) :
    ∃ common c d, FirstDifference (a ++ [0]) (b ++ [0]) common c d := by
  induction a generalizing b with
  | nil =>
    cases b with
    | nil => exact absurd rfl hne
    | cons f b =>
      rw [List.mem_cons, not_or] at hb
      exact ⟨[], 0, f, by simp, by simp, hb.1⟩
  | cons e a ih =>
    rw [List.mem_cons, not_or] at ha
    cases b with
    | nil => exact ⟨[], e, 0, by simp, by simp, Ne.symm ha.1⟩
    | cons f b =>
      rw [List.mem_cons, not_or] at hb
      by_cases hef : e = f
      · subst hef
        obtain ⟨common, c, d, h⟩ := ih ha.2 hb.2 (by simpa using hne)
        exact ⟨e :: common, c, d, firstDifference_cons.2 h⟩
      · exact ⟨[], e, f, by simp, by simp, hef⟩

/-- `compareStrings` subtracts the bytes of the first difference. -/
theorem compareStrings_firstDifference (ha : 0 ∉ a) (hb : 0 ∉ b)
    (h : FirstDifference (a ++ [0]) (b ++ [0]) common c d) : compareStrings a b = charDiff c d := by
  induction common generalizing a b with
  | nil =>
    have hc : peek a = c := by
      cases a <;> simpa [peek, eq_comm] using h.left
    have hd : peek b = d := by
      cases b <;> simpa [peek, eq_comm] using h.right
    cases a with
    | nil =>
      rw [compareStrings, hd, ← hc]
      rfl
    | cons e a =>
      obtain rfl : e = c := hc
      rw [compareStrings, if_pos (hd ▸ h.ne), hd]
  | cons e common ih =>
    cases a with
    | nil =>
      -- nothing comes after a terminator
      have hlength := h.left.length_le
      simp at hlength
    | cons f a =>
      cases b with
      | nil =>
        have hlength := h.right.length_le
        simp at hlength
      | cons g b =>
        rw [List.mem_cons, not_or] at ha hb
        obtain rfl : e = f := (List.cons_prefix_cons.1 h.left).1
        obtain rfl : e = g := (List.cons_prefix_cons.1 h.right).1
        rw [compareStrings, peek, if_neg (not_not.2 rfl), List.tail_cons]
        exact ih ha.2 hb.2 (firstDifference_cons.1 h)

theorem exists_of_cons_prefix_take {s : List UInt8} (h : e :: s <+: a.take n) :
    ∃ a' m, a = e :: a' ∧ n = m + 1 ∧ s <+: a'.take m := by
  cases n with
  | zero => simp at h
  | succ m =>
    cases a with
    | nil => simp at h
    | cons f a' =>
      rw [List.take_succ_cons, List.cons_prefix_cons] at h
      exact ⟨a', m, by rw [h.1], rfl, h.2⟩

/-- So does `compareStart`, unless it has come to a NUL before. -/
theorem compareStart_firstDifference (h : FirstDifference (a.take n) (b.take n) common c d) :
    compareStart a b n = if 0 ∈ common then 0 else charDiff c d := by
  induction common generalizing a b n with
  | nil =>
    obtain ⟨a, m, rfl, rfl, -⟩ := exists_of_cons_prefix_take h.left
    obtain ⟨b, -, rfl, -, -⟩ := exists_of_cons_prefix_take h.right
    rw [compareStart, peek, if_pos (.inr h.ne), if_neg List.not_mem_nil]
  | cons e common ih =>
    obtain ⟨a, m, rfl, rfl, hleft⟩ := exists_of_cons_prefix_take h.left
    obtain ⟨b, k, rfl, hk, hright⟩ := exists_of_cons_prefix_take h.right
    obtain rfl : m = k := Nat.succ.inj hk
    rw [compareStart, peek, List.tail_cons, ih ⟨hleft, hright, h.ne⟩]
    by_cases hzero : e = 0
    · subst hzero
      rw [if_pos (.inl rfl), if_pos List.mem_cons_self, charDiff_eq_zero]
    · rw [if_neg (by simpa using hzero)]
      simp [Ne.symm hzero]

theorem compareStart_self (hb : n ≤ b.length) (h : a.take n = b.take n) : compareStart a b n = 0 := by
  induction n generalizing a b with
  | zero => cases a <;> rfl
  | succ n ih =>
    cases b with
    | nil => cases hb
    | cons f b =>
      cases a with
      | nil => cases h
      | cons e a =>
        rw [List.take_succ_cons, List.take_succ_cons, List.cons.injEq] at h
        obtain ⟨rfl, hrest⟩ := h
        rw [compareStart, peek, List.tail_cons, ih (by simpa using hb) hrest, charDiff_eq_zero.2 rfl,
          ite_self]

/-- A difference excludes equality. -/
theorem FirstDifference.lists_ne (h : FirstDifference a b common c d) : a ≠ b := by
  rintro rfl
  obtain ⟨ra, hra⟩ := h.left
  obtain ⟨rb, hrb⟩ := h.right
  rw [← hrb, List.append_assoc, List.append_assoc, List.append_cancel_left_eq] at hra
  exact h.ne (List.cons.inj hra).1

end Difference

/-! ### Against C -/

section Correct

variable {a b : List UInt8} {n : ℕ}

theorem strcmpCorrect_iff (ha : 0 ∉ a) (hb : 0 ∉ b) :
    StrcmpCorrect a b ↔
      ∀ common c d, FirstDifference (a ++ [0]) (b ++ [0]) common c d → (c < 128 ↔ d < 128) := by
  constructor
  · intro h common c d hdifference
    have hsign := h.sign common c d hdifference
    rwa [strcmp, compareStrings_firstDifference ha hb hdifference, signOf_charDiff_iff hdifference.ne]
      at hsign
  · intro h
    constructor
    · constructor
      · intro hzero
        by_contra hne
        obtain ⟨common, c, d, hdifference⟩ := exists_firstDifference_string ha hb hne
        rw [strcmp, compareStrings_firstDifference ha hb hdifference, narrow_charDiff_eq_zero] at hzero
        exact hdifference.ne hzero
      · rintro rfl
        rw [strcmp, (compareStrings_eq_zero ha ha).2 rfl]
        rfl
    · intro common c d hdifference
      rw [strcmp, compareStrings_firstDifference ha hb hdifference, signOf_charDiff_iff hdifference.ne]
      exact h common c d hdifference

theorem memcmpCorrect_iff (ha : n ≤ a.length) (hb : n ≤ b.length) :
    MemcmpCorrect a b n ↔
      ∀ common c d, FirstDifference (a.take n) (b.take n) common c d →
        0 ∉ common ∧ (c < 128 ↔ d < 128) := by
  constructor
  · intro h common c d hdifference
    have hresult := compareStart_firstDifference hdifference
    have hnul : 0 ∉ common := by
      intro hmem
      rw [if_pos hmem] at hresult
      exact hdifference.lists_ne (h.zero.1 (by rw [memcmp, hresult]; rfl))
    have hsign := h.sign common c d hdifference
    rw [memcmp, hresult, if_neg hnul, signOf_charDiff_iff hdifference.ne] at hsign
    exact ⟨hnul, hsign⟩
  · intro h
    constructor
    · constructor
      · intro hzero
        by_contra hne
        have hlength : (a.take n).length = (b.take n).length := by
          rw [List.length_take, List.length_take, min_eq_left ha, min_eq_left hb]
        obtain ⟨common, c, d, hdifference⟩ := exists_firstDifference hlength hne
        rw [memcmp, compareStart_firstDifference hdifference, if_neg (h _ _ _ hdifference).1,
          narrow_charDiff_eq_zero] at hzero
        exact hdifference.ne hzero
      · intro heq
        rw [memcmp, compareStart_self hb heq]
        rfl
    · intro common c d hdifference
      obtain ⟨hnul, hsame⟩ := h common c d hdifference
      rw [memcmp, compareStart_firstDifference hdifference, if_neg hnul,
        signOf_charDiff_iff hdifference.ne]
      exact hsame

end Correct

/-- **When the comparisons are those of C.** `strcmp` is, exactly when at the first difference both bytes
are below 128 or neither is; and `memcmp` exactly when this is so and no NUL comes before. -/
theorem comparisons_correct_iff (a b : CString) {x y : List UInt8} {n : ℕ} (hx : n ≤ x.length)
    (hy : n ≤ y.length) :
    (StrcmpCorrect a.bytes b.bytes ↔
      ∀ common c d, FirstDifference (a.bytes ++ [0]) (b.bytes ++ [0]) common c d →
        (c < 128 ↔ d < 128)) ∧
    (MemcmpCorrect x y n ↔
      ∀ common c d, FirstDifference (x.take n) (y.take n) common c d →
        0 ∉ common ∧ (c < 128 ↔ d < 128)) :=
  ⟨strcmpCorrect_iff a.nul_free b.nul_free, memcmpCorrect_iff hx hy⟩

/-- The buffers "ab" and "ac" have no byte from 128 on and no NUL. -/
theorem comparisons_correct_ascii : MemcmpCorrect [97, 98] [97, 99] 2 := by
  have hiff := comparisons_correct_iff ⟨[], by decide⟩ ⟨[], by decide⟩ (x := [97, 98]) (y := [97, 99])
    (n := 2) le_rfl le_rfl
  refine hiff.2.2 fun common c d h => ?_
  rcases common with _ | ⟨e, _ | ⟨f, common⟩⟩
  · obtain rfl : c = 97 := by simpa using h.left
    obtain rfl : d = 97 := by simpa using h.right
    exact absurd rfl h.ne
  · obtain ⟨rfl, rfl⟩ : e = 97 ∧ c = 98 := by simpa using h.left
    obtain ⟨-, rfl⟩ : 97 = 97 ∧ d = 99 := by simpa using h.right
    decide
  · have hlength := h.left.length_le
    simp at hlength

/-- For a string of the byte 128 and the string "a" `strcmp` is negative, though 128 is the greater byte,
and for buffers with a NUL before "a" and before "b" `memcmp` is zero. -/
theorem comparisons_differ : ¬ StrcmpCorrect [128] [97] ∧ ¬ MemcmpCorrect [0, 97] [0, 98] 2 := by
  constructor
  · intro h
    have hsign := h.sign [] 128 97 ⟨by decide, by decide, by decide⟩
    revert hsign
    unfold SignOf
    decide
  · intro h
    have hzero := h.zero.1 (by decide)
    revert hzero
    decide

end Naul
