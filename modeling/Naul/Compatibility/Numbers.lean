import Naul.Compatibility.Conversions

/-!
# Numbers and texts

Each conversion puts the text of its directive: signed numbers (`returns_convertSigned`), unsigned numbers
(`returns_unsigned`), pointers and strings.
-/

namespace Naul

open FormatString Fuel

/-! ### Numbers in their layout -/

/-- The fields of a layout that the output of a number reads. -/
structure Lays (fs : FormatSpec) (l : FieldLayout) : Prop where
  left : fs.leftJustified = l.left
  width : fs.fieldWidth = l.width
  widthOpt : fs.fieldWidthOpt = .none → fs.fieldWidth = 0
  zero : fs.leadingZeroPad = (l.zero && l.precision.isNone)
  precOpt : fs.leadingZeroPad = true → fs.precOpt = .none

section Numbers

variable {d : Directive} {a : ItemArguments} {fs : FormatSpec} {l : FieldLayout} {v : Converted}
  {args : List UInt64}

theorem Lays.emit (h : Lays v.fs l) (hconv : v.fs.convSpec ∉ Converted.unpadded) :
    v.emit = l.number v.lead
      (List.replicate (v.fs.prec - v.cbuf.length).toNat '0'.toUInt8 ++ v.cbuf.reverse) := by
  rw [Converted.emit_number hconv h.widthOpt h.precOpt, FieldLayout.number, h.left, h.zero, h.width, Int.toNat_natCast]

theorem Reads.lays (h : Reads d a fs)
    (hzero : d.conversion ∈ [.d, .i, .o, .u, .x, .X] ∨
      ((layout d a).zero = true → (layout d a).precision = none)) :
    Lays fs (layout d a) := by
  have hiff : fs.leadingZeroPad = true ↔ (layout d a).zero = true ∧ (layout d a).precision = none := by
    rw [h.zero]
    constructor
    · rintro ⟨hz, hnone | hconv⟩
      · exact ⟨hz, hnone⟩
      · exact ⟨hz, hzero.resolve_left hconv hz⟩
    · rintro ⟨hz, hnone⟩
      exact ⟨hz, .inl hnone⟩
  refine ⟨h.left, h.width, h.widthOpt, ?_, fun hz => h.precOpt.2 (hiff.1 hz).2⟩
  rw [Bool.eq_iff_iff, hiff, Bool.and_eq_true, Option.isNone_iff_eq_none]

/-- Zeros up to the precision and the digits that have been converted are the digits of the number. -/
theorem replicate_digits {base : ℕ} (hbase : 1 < base) (upper : Bool) {n : ℕ} {k : ℤ}
    (hk : k = (l.precision.getD 0 : ℕ)) (hn : ¬ (n = 0 ∧ l.precision = some 0)) :
    List.replicate (k - (numeral base upper n).reverse.length).toNat '0'.toUInt8 ++
      (numeral base upper n).reverse.reverse = l.digits base upper n := by
  rw [l.digits_eq base hbase upper n, if_neg hn, List.reverse_reverse, List.length_reverse, hk, Int.toNat_sub]

theorem digits_nil {base : ℕ} {upper : Bool} {n : ℕ} (hn : n = 0 ∧ l.precision = some 0) :
    l.digits base upper n = [] := if_pos hn

/-- No digits are converted for zero in precision zero. -/
theorem Reads.skip_iff (h : Reads d a fs) (hp : d.conversion ≠ .p) :
    fs.precOpt ≠ .none ∧ fs.prec = 0 ↔ (layout d a).precision = some 0 := by
  have hprec := h.prec
  rw [if_neg hp] at hprec
  rw [Ne, h.precOpt, hprec]
  cases (layout d a).precision with
  | none => simp
  | some k => simp

/-- The sign of a signed number. -/
theorem Reads.sign (h : Reads d a fs) (val : ℤ) (hsign : v.signC = if val < 0 then '-'.toUInt8 else fs.prepend)
    (hneed : v.need0x = 0) : v.lead = (layout d a).sign val := by
  have hbase : v.base = [] := by rw [Converted.base, hneed]; rfl
  have hminus : '-'.toUInt8 ≠ 0 := by decide
  have hplus : '+'.toUInt8 ≠ 0 := by decide
  have hspace : ' '.toUInt8 ≠ 0 := by decide
  rw [Converted.lead, hbase, List.append_nil, Converted.sign, hsign, h.prepend, FieldLayout.sign, signFlag, layout]
  by_cases hval : val < 0
  · simp [hval, hminus]
  · by_cases hp : Flag.plus ∈ d.flags <;> by_cases hs : Flag.space ∈ d.flags <;>
      simp [hval, hp, hs, hplus, hspace]

/-- **Signed numbers.** -/
theorem returns_convertSigned (h : Reads d a fs) (hconv : d.conversion = .d ∨ d.conversion = .i)
    (hm : d.length ≠ .L) (args : List UInt64) :
    ∃ v, Returns (convertSigned fs (a.value :: args)) v ∧ v.args = args ∧
      v.emit = (layout d a).signed (signedOf d.length a.value) := by
  have hmem : d.conversion ∈ [.d, .i, .o, .u, .x, .X] := by
    rcases hconv with hc | hc <;> simp [hc]
  have hp : d.conversion ≠ .p := by
    rcases hconv with hc | hc <;> simp [hc]
  have hnumber : fs.convSpec ∉ Converted.unpadded := by
    rw [h.convSpec]
    rcases hconv with hc | hc <;> rw [hc] <;> decide
  have hcase : fs.caseAdjust = if false then 0 else 'a'.toUInt8 - 'A'.toUInt8 := by
    rw [h.caseAdjust]
    rcases hconv with hc | hc <;> rw [hc] <;> rfl
  have hlays := h.lays (.inl hmem)
  have hprec := h.prec
  rw [if_neg hp] at hprec
  have harg := signedArg_eq hm a.value args
  rw [← h.lengthModifier] at harg
  obtain ⟨val, hval⟩ : ∃ val, val = signedOf d.length a.value := ⟨_, rfl⟩
  rw [← hval] at harg ⊢
  by_cases hskip : val = 0 ∧ fs.precOpt ≠ .none ∧ fs.prec = 0
  · have hzero := (h.skip_iff hp).1 hskip.2
    refine ⟨⟨fs, args, [], if val < 0 then '-'.toUInt8 else fs.prepend, 0, true⟩, ⟨0, ?_⟩, rfl, ?_⟩
    · simp only [convertSigned, harg]
      rw [if_pos hskip]
    · rw [Lays.emit hlays hnumber, h.sign val rfl rfl, FieldLayout.signed, digits_nil ⟨by rw [hskip.1]; rfl, hzero⟩]
      simp [hskip.2.2]
  · obtain ⟨hlow, hhigh⟩ := signedOf_bounds d.length a.value
    rw [← hval] at hlow hhigh
    have hbase : (10 : UInt64).toNat = 10 := rfl
    obtain ⟨n, hrun⟩ := run_utoaBody (show 1 < (10 : UInt64).toNat by decide) (by decide) false
      (if val < 0 then 0 - UInt64.ofInt val else UInt64.ofInt val) []
    rw [natAbs_ofInt hlow hhigh, List.nil_append, hbase, ← hcase] at hrun
    refine ⟨⟨fs, args, (numeral 10 false val.natAbs).reverse, if val < 0 then '-'.toUInt8 else fs.prepend, 0,
      val = 0⟩, ⟨n, ?_⟩, rfl, ?_⟩
    · simp only [convertSigned, harg]
      rw [if_neg hskip, npfUtoaRev, hrun]
      rfl
    · have hn : ¬ (val.natAbs = 0 ∧ (layout d a).precision = some 0) := fun hboth =>
        hskip ⟨Int.natAbs_eq_zero.1 hboth.1, (h.skip_iff hp).2 hboth.2⟩
      rw [Lays.emit hlays hnumber, h.sign val rfl rfl, FieldLayout.signed, ← replicate_digits (by decide) false hprec hn]

/-! ### Unsigned numbers -/

/-- The base in which a conversion writes. -/
def convBase : ConvSpec → ℕ
  | .octal => 8
  | .unsignedInt => 10
  | .binary => 2
  | _ => 16

theorem one_lt_convBase (conv : ConvSpec) : 1 < convBase conv := by
  cases conv <;> decide

/-- The prefix of the alternative form. -/
def convPrefix (conv : ConvSpec) (upper : Bool) : UInt8 :=
  match conv with
  | .hexInt | .pointer => if upper then 'X'.toUInt8 else 'x'.toUInt8
  | .binary => if upper then 'B'.toUInt8 else 'b'.toUInt8
  | _ => 0

/-- The digits in the buffer, the last one first. -/
theorem returns_unsignedDigits {upper : Bool}
    (hcase : fs.caseAdjust = if upper then 0 else 'a'.toUInt8 - 'A'.toUInt8) (val : UInt64) :
    Returns (fun fuel =>
      if fs.convSpec = .binary then some (fs, binaryDigits val)
      else
        (npfUtoaRev val (if fs.convSpec = .octal then 8 else if fs.convSpec = .unsignedInt then 10 else 16)
          fs.caseAdjust fuel).map fun cbuf => (fs, cbuf))
      (fs, (numeral (convBase fs.convSpec) upper val.toNat).reverse) := by
  by_cases hbinary : fs.convSpec = .binary
  · refine ⟨0, ?_⟩
    dsimp only
    rw [if_pos hbinary, hbinary, binaryDigits_eq upper]
    rfl
  · obtain ⟨base, hbase⟩ : ∃ base : UInt64, base =
      if fs.convSpec = .octal then 8 else if fs.convSpec = .unsignedInt then 10 else 16 := ⟨_, rfl⟩
    have hnat : base.toNat = convBase fs.convSpec := by
      rw [hbase]
      cases hconv : fs.convSpec <;> first | rfl | exact absurd hconv hbinary
    have hle : base.toNat ≤ 16 := by
      rw [hnat]
      cases fs.convSpec <;> decide
    obtain ⟨n, hrun⟩ := run_utoaBody (hnat ▸ one_lt_convBase fs.convSpec) hle upper val []
    refine ⟨n, ?_⟩
    dsimp only
    rw [if_neg hbinary, ← hbase, npfUtoaRev, hcase, hrun, hnat]
    rfl

/-- What is converted, where anything is. -/
theorem returns_convertUnsigned {upper : Bool} {val : UInt64}
    (hcase : fs.caseAdjust = if upper then 0 else 'a'.toUInt8 - 'A'.toUInt8)
    (harg : (if fs.convSpec = .pointer then vaArg args else unsignedArg fs.lengthModifier args).1 = val)
    (hskip : ¬ (val = 0 ∧ fs.precOpt ≠ .none ∧ fs.prec = 0)) :
    Returns (convertUnsigned fs args)
      { fs := fs
        args := (if fs.convSpec = .pointer then vaArg args else unsignedArg fs.lengthModifier args).2
        cbuf := (numeral (convBase fs.convSpec) upper val.toNat).reverse ++
          if val ≠ 0 ∧ fs.altForm ∧ fs.convSpec = .octal then ['0'.toUInt8] else []
        signC := 0
        need0x := if val ≠ 0 ∧ fs.altForm then convPrefix fs.convSpec upper else 0
        zero := val = 0 } := by
  obtain ⟨n, hdigits⟩ := returns_unsignedDigits hcase val
  refine ⟨n, ?_⟩
  have hletter : (if fs.convSpec = .hexInt ∨ fs.convSpec = .pointer then 'X'.toUInt8 + fs.caseAdjust
      else if fs.convSpec = .binary then 'B'.toUInt8 + fs.caseAdjust else 0) = convPrefix fs.convSpec upper := by
    rw [hcase]
    cases fs.convSpec <;> cases upper <;> decide
  dsimp only at hdigits
  simp only [convertUnsigned, harg]
  rw [if_neg hskip, hdigits, Option.map_some]
  simp only [hletter]
  congr 2
  split_ifs
  · rfl
  · rw [List.append_nil]

/-- Nothing is converted for zero in precision zero. -/
theorem convertUnsigned_skip {val : UInt64}
    (harg : (if fs.convSpec = .pointer then vaArg args else unsignedArg fs.lengthModifier args).1 = val)
    (hskip : val = 0 ∧ fs.precOpt ≠ .none ∧ fs.prec = 0) :
    convertUnsigned fs args 0 =
      some { fs := if fs.convSpec = .octal ∧ fs.altForm then { fs with prec := 1 } else fs
             args := (if fs.convSpec = .pointer then vaArg args else unsignedArg fs.lengthModifier args).2
             cbuf := []
             signC := 0
             need0x := 0
             zero := true } := by
  simp only [convertUnsigned, harg]
  rw [if_pos hskip]
  simp [hskip.1]

theorem lead_unsigned (hsign : v.signC = 0) :
    v.lead = if v.need0x ≠ 0 then ['0'.toUInt8, v.need0x] else [] := by
  rw [Converted.lead, Converted.sign, hsign]
  rfl

/-- A numeral of a number that is not zero does not begin with a zero. -/
theorem head_numeral {n : ℕ} (hn : n ≠ 0) : (numeral 8 false n).head? ≠ some '0'.toUInt8 := by
  have hcanonical := Numeral.canonical_numeral (b := 8) (by decide) n
  have hvalue := Numeral.value_numeral 8 n
  unfold numeral
  cases hds : Numeral.numeral 8 n with
  | nil => exact absurd hds hcanonical.ne_nil
  | cons digit rest =>
    rw [List.map_cons, List.head?_cons, Ne, Option.some.injEq]
    intro hzero
    have hlt : digit < 8 := Numeral.lt_of_mem_numeral (by decide) (hds ▸ List.mem_cons_self)
    have hdigit : digit = 0 := by
      revert hzero
      interval_cases digit <;> decide
    subst hdigit
    obtain rfl := hcanonical.no_zeros rest hds
    rw [hds] at hvalue
    exact hn hvalue.symm

/-- In the octal form the zero in front is one of the zeros up to the precision, where there are any. -/
theorem octal_digits {n : ℕ} {k : ℤ} (hk : k = (l.precision.getD 0 : ℕ)) (hn : n ≠ 0) :
    List.replicate (k - ((numeral 8 false n).reverse ++ ['0'.toUInt8]).length).toNat '0'.toUInt8 ++
        ((numeral 8 false n).reverse ++ ['0'.toUInt8]).reverse =
      if (l.digits 8 false n).head? ≠ some '0'.toUInt8 then '0'.toUInt8 :: l.digits 8 false n
      else l.digits 8 false n := by
  have hskip : ¬ (n = 0 ∧ l.precision = some 0) := fun h => hn h.1
  have hcount : (k - ((numeral 8 false n).reverse ++ ['0'.toUInt8]).length).toNat =
      l.precision.getD 0 - (numeral 8 false n).length - 1 := by
    rw [List.length_append, List.length_reverse, List.length_singleton, hk]
    omega
  rw [l.digits_eq 8 (by decide) false n, if_neg hskip, hcount, List.reverse_append, List.reverse_reverse,
    List.reverse_singleton]
  cases l.precision.getD 0 - (numeral 8 false n).length with
  | zero =>
    simp only [List.replicate_zero, List.nil_append]
    rw [if_pos (head_numeral hn)]
    rfl
  | succ j =>
    have hhead : (List.replicate (j + 1) '0'.toUInt8 ++ numeral 8 false n).head? = some '0'.toUInt8 := rfl
    rw [hhead, if_neg (not_not.2 rfl), Nat.add_sub_cancel, List.replicate_succ', List.append_assoc]

/-- The digits of zero begin with a zero. -/
theorem head_digits_zero (hprecision : l.precision ≠ some 0) :
    (l.digits 8 false 0).head? = some '0'.toUInt8 := by
  have hnumeral : numeral 8 false 0 = ['0'.toUInt8] := by decide
  rw [l.digits_eq 8 (by decide) false 0, if_neg fun h => hprecision h.2, hnumeral]
  cases l.precision.getD 0 - 1 with
  | zero => rfl
  | succ j => rfl

/-- Where nothing has been converted, only zeros up to the precision are put. -/
theorem emit_none (hlays : Lays v.fs l) (hnumber : v.fs.convSpec ∉ Converted.unpadded) (hlead : v.lead = [])
    (hcbuf : v.cbuf = []) : v.emit = l.number [] (List.replicate v.fs.prec.toNat '0'.toUInt8) := by
  rw [hlays.emit hnumber, hlead, hcbuf]
  simp

/-- The octal form. -/
theorem emit_octal (hlays : Lays v.fs l) (hnumber : v.fs.convSpec ∉ Converted.unpadded) (hlead : v.lead = [])
    (hprec : v.fs.prec = (l.precision.getD 0 : ℕ)) {n : ℕ} (hn : ¬ (n = 0 ∧ l.precision = some 0))
    (hcbuf : v.cbuf = (numeral 8 false n).reverse ++
      if n ≠ 0 ∧ l.alternate = true then ['0'.toUInt8] else []) : v.emit = l.octal n := by
  rw [hlays.emit hnumber, hlead, hcbuf, FieldLayout.octal]
  by_cases hplain : n ≠ 0 ∧ l.alternate = true
  · rw [if_pos hplain, octal_digits hprec hplain.1]
    simp [hplain.2]
  · rw [if_neg hplain, List.append_nil, replicate_digits (by decide) false hprec hn]
    by_cases halternate : l.alternate = true
    · obtain rfl : n = 0 := by_contra fun h => hplain ⟨h, halternate⟩
      rw [head_digits_zero fun h => hn ⟨rfl, h⟩]
      simp
    · simp [halternate]

/-- **Unsigned numbers.** -/
theorem exists_unsigned (args : List UInt64) {upper : Bool} {val : UInt64} (hlays : Lays fs l)
    (hprec : fs.prec = (l.precision.getD 0 : ℕ)) (halt : fs.altForm = l.alternate)
    (hskip : fs.precOpt ≠ .none ∧ fs.prec = 0 ↔ l.precision = some 0)
    (hnumber : fs.convSpec ∉ Converted.unpadded)
    (hcase : fs.caseAdjust = if upper then 0 else 'a'.toUInt8 - 'A'.toUInt8)
    (hoctal : fs.convSpec = .octal → upper = false)
    (harg : (if fs.convSpec = .pointer then vaArg args else unsignedArg fs.lengthModifier args).1 = val) :
    ∃ v, Returns (convertUnsigned fs args) v ∧
      v.args = (if fs.convSpec = .pointer then vaArg args else unsignedArg fs.lengthModifier args).2 ∧
      v.emit = if fs.convSpec = .octal then l.octal val.toNat
        else l.number (if l.alternate ∧ val.toNat ≠ 0 ∧ convPrefix fs.convSpec upper ≠ 0 then
            ['0'.toUInt8, convPrefix fs.convSpec upper] else [])
          (l.digits (convBase fs.convSpec) upper val.toNat) := by
  have hzero : val = 0 ↔ val.toNat = 0 := UInt64.toNat_inj.symm
  by_cases hnone : val = 0 ∧ fs.precOpt ≠ .none ∧ fs.prec = 0
  · have hn : val.toNat = 0 ∧ l.precision = some 0 := ⟨hzero.1 hnone.1, hskip.1 hnone.2⟩
    refine ⟨_, ⟨0, convertUnsigned_skip harg hnone⟩, rfl, ?_⟩
    by_cases hoct : fs.convSpec = .octal ∧ fs.altForm = true
    · have hlays' : Lays { fs with prec := 1 } l := ⟨hlays.1, hlays.2, hlays.3, hlays.4, hlays.5⟩
      simp only [if_pos hoct]
      rw [emit_none hlays' hnumber (lead_unsigned rfl) rfl, if_pos hoct.1, FieldLayout.octal, digits_nil hn, ← halt]
      simp [hoct.2]
    · have halt' : fs.convSpec = .octal → l.alternate = false := by
        rw [← halt]
        simpa using hoct
      simp only [if_neg hoct]
      rw [emit_none hlays hnumber (lead_unsigned rfl) rfl, hnone.2.2]
      by_cases hconv : fs.convSpec = .octal
      · rw [if_pos hconv]
        simp [FieldLayout.octal, digits_nil hn, halt' hconv]
      · rw [if_neg hconv, digits_nil hn]
        simp [hn.1]
  · have hn : ¬ (val.toNat = 0 ∧ l.precision = some 0) := fun h => hnone ⟨hzero.2 h.1, hskip.2 h.2⟩
    refine ⟨_, returns_convertUnsigned hcase harg hnone, rfl, ?_⟩
    by_cases hoct : fs.convSpec = .octal
    · obtain rfl := hoctal hoct
      rw [if_pos hoct]
      refine emit_octal hlays hnumber ?_ hprec hn ?_
      · rw [lead_unsigned rfl]
        simp [hoct, convPrefix]
      · simp [hoct, convBase, hzero, ← halt]
    · have hdigits := replicate_digits (one_lt_convBase fs.convSpec) upper hprec hn
      rw [Lays.emit hlays hnumber, lead_unsigned rfl, if_neg hoct]
      simp only [hoct, and_false, if_false, List.append_nil]
      rw [hdigits, ← halt]
      congr 1
      by_cases hval : val = 0
      · simp [hval]
      · have hval' : val.toNat ≠ 0 := fun h => hval (hzero.2 h)
        by_cases halternate : fs.altForm = true <;> simp [hval, hval', halternate]

/-- The unsigned conversions of numbers. -/
theorem returns_unsigned (h : Reads d a fs) (hconv : d.conversion ∈ [.o, .u, .x, .X, .b, .B])
    (hm : d.length ≠ .L)
    (hbinary : d.conversion = .b ∨ d.conversion = .B → .zero ∈ d.flags → d.precision = none)
    (args : List UInt64) :
    ∃ v, Returns (convertUnsigned fs (a.value :: args)) v ∧ v.args = args ∧
      v.emit = (Item.directive d a).text := by
  have hp : d.conversion ≠ .p := by
    rintro hp
    simp [hp] at hconv
  have hlays : Lays fs (layout d a) := by
    apply h.lays
    by_cases hb : d.conversion = .b ∨ d.conversion = .B
    · refine .inr fun hz => ?_
      have hnone := hbinary hb (by simpa [layout] using hz)
      simp [layout, hnone]
    · rw [not_or] at hb
      left
      simp only [List.mem_cons, List.not_mem_nil, or_false] at hconv ⊢
      tauto
  have hprec := h.prec
  rw [if_neg hp] at hprec
  have hnumber : fs.convSpec ∉ Converted.unpadded := by
    rw [h.convSpec]
    simp only [List.mem_cons, List.not_mem_nil, or_false] at hconv
    rcases hconv with hc | hc | hc | hc | hc | hc <;> rw [hc] <;> decide
  have hpointer : fs.convSpec ≠ .pointer := by
    rw [h.convSpec]
    exact fun hc => hp ((convSpec_eq_pointer _).1 hc)
  have hoctal : fs.convSpec = .octal → capital d.conversion = false := by
    rw [h.convSpec]
    cases d.conversion <;> simp [Naul.convSpec, capital]
  obtain ⟨hvalue, hrest⟩ := unsignedArg_eq hm a.value args
  rw [← h.lengthModifier] at hvalue hrest
  obtain ⟨v, hreturns, hargs, hemit⟩ := exists_unsigned (a.value :: args) hlays hprec h.altForm
    (h.skip_iff hp) hnumber h.caseAdjust hoctal (congrArg Prod.fst (if_neg hpointer))
  rw [if_neg hpointer, hrest] at hargs
  refine ⟨v, hreturns, hargs, ?_⟩
  rw [hemit, hvalue, h.convSpec]
  simp only [List.mem_cons, List.not_mem_nil, or_false] at hconv
  have hletters : 'x'.toUInt8 ≠ 0 ∧ 'X'.toUInt8 ≠ 0 ∧ 'b'.toUInt8 ≠ 0 ∧ 'B'.toUInt8 ≠ 0 := by decide
  rcases hconv with hc | hc | hc | hc | hc | hc <;>
    simp [Item.text, hc, hletters, Naul.convSpec, convPrefix, convBase, capital, FieldLayout.decimal, FieldLayout.prefixed]

/-- A pointer has sixteen digits where no precision is given. -/
theorem returns_pointer (h : Reads d a fs) (hconv : d.conversion = .p) (hzero : .zero ∉ d.flags)
    (args : List UInt64) :
    ∃ v, Returns (convertUnsigned fs (a.value :: args)) v ∧ v.args = args ∧
      v.emit = (Item.directive d a).text := by
  obtain ⟨l, hl⟩ : ∃ l, l = { layout d a with precision := some ((layout d a).precision.getD 16) } := ⟨_, rfl⟩
  have hspec : fs.convSpec = .pointer := by rw [h.convSpec, hconv]; rfl
  have hpad : fs.leadingZeroPad = false := by
    rw [← Bool.not_eq_true, h.zero]
    exact fun hz => hzero (of_decide_eq_true hz.1)
  have hlays : Lays fs l := by
    subst hl
    refine ⟨h.left, h.width, h.widthOpt, by simp [hpad], fun hz => ?_⟩
    simp [hpad] at hz
  have hprec : fs.prec = (l.precision.getD 0 : ℕ) := by
    subst hl
    rw [h.prec, if_pos hconv]
    rfl
  have hskip : fs.precOpt ≠ .none ∧ fs.prec = 0 ↔ l.precision = some 0 := by
    subst hl
    rw [Ne, h.precOpt, hprec]
    cases (layout d a).precision <;> simp
  have halt : l.alternate = (layout d a).alternate := by rw [hl]
  have hcase : fs.caseAdjust = if false then 0 else 'a'.toUInt8 - 'A'.toUInt8 := by
    rw [h.caseAdjust, hconv]
    rfl
  obtain ⟨v, hreturns, hargs, hemit⟩ := exists_unsigned (a.value :: args) hlays hprec
    (h.altForm.trans halt.symm) hskip (by rw [hspec]; decide) hcase (fun _ => rfl) rfl
  rw [if_pos hspec] at hargs
  refine ⟨v, hreturns, hargs, ?_⟩
  have hletter : 'x'.toUInt8 ≠ 0 := by decide
  rw [hemit]
  simp [hspec, convPrefix, convBase, Item.text, hconv, vaArg, FieldLayout.prefixed, hletter, ← hl, halt]

/-! ### Texts -/

/-- The loop that counts finds the end of the string. -/
theorem run_stringBody {memory : UInt64 → UInt8} {p : UInt64} {bytes : List UInt8}
    (h : Item.Shown memory p l.precision bytes) (hopt : fs.precOpt = .none ↔ l.precision = none)
    (hprec : fs.prec = (l.precision.getD 0 : ℕ)) :
    WhileLoop.run (stringBody memory fs p) (bytes.length + 1) 0 = some bytes.length := by
  refine WhileLoop.run_of_turns (fun i => i) (fun i hi => ?_) ?_
  · have hmemory := h.at_ i bytes[i] (List.getElem?_eq_getElem hi)
    refine if_pos ⟨?_, h.address, hmemory.1 ▸ hmemory.2⟩
    cases hk : l.precision with
    | none => exact .inl (hopt.2 hk)
    | some k =>
      have hle := h.within k hk
      rw [hprec, hk, Option.getD_some]
      exact .inr (by omega)
  · refine if_neg ?_
    rintro ⟨hlimit, -, hnonzero⟩
    by_cases hk : l.precision = some bytes.length
    · rw [hopt, hprec, hk] at hlimit
      simp at hlimit
    · exact hnonzero (h.terminated hk)

theorem Item.Shown.map_range {memory : UInt64 → UInt8} {p : UInt64} {precision : Option ℕ} {bytes : List UInt8}
    (h : Item.Shown memory p precision bytes) :
    ((List.range bytes.length).map fun i => memory (p + .ofNat i)) = bytes := by
  apply List.ext_getElem
  · rw [List.length_map, List.length_range]
  · intro i hi hi'
    rw [List.getElem_map, List.getElem_range]
    exact (h.at_ i bytes[i] (List.getElem?_eq_getElem hi')).1

/-- Where no zeros are asked for, a text is put into its width as it is. -/
theorem Reads.no_zeros (h : Reads d a fs) (hzero : .zero ∉ d.flags) :
    fs.leadingZeroPad = false ∧ (layout d a).zero = false := by
  have hlayout : (layout d a).zero = false := decide_eq_false hzero
  refine ⟨?_, hlayout⟩
  rw [← Bool.not_eq_true, h.zero, hlayout]
  exact fun hz => absurd hz.1 (by decide)

theorem returns_string (h : Reads d a fs) (hconv : d.conversion = .s) (hzero : .zero ∉ d.flags)
    {memory : UInt64 → UInt8} (hshown : Item.Shown memory a.value (layout d a).precision a.shown)
    (args : List UInt64) :
    ∃ v, Returns (convertString memory fs (a.value :: args)) v ∧ v.args = args ∧
      v.emit = (Item.directive d a).text := by
  have hspec : fs.convSpec = .string := by rw [h.convSpec, hconv]; rfl
  have hprec := h.prec
  rw [hconv, if_neg (by decide)] at hprec
  have hrun := run_stringBody hshown h.precOpt hprec
  refine ⟨⟨fs, args, a.shown, 0, 0, false⟩, ⟨a.shown.length + 1, ?_⟩, rfl, ?_⟩
  · simp only [convertString, vaArg, hrun, Option.map_some, hshown.map_range]
  · rw [Converted.emit_string hspec rfl rfl h.widthOpt (h.no_zeros hzero).1]
    simp only [Item.text, hconv, FieldLayout.plain]
    rw [h.left, h.width, Int.toNat_natCast]

/-- The output of a few characters that are no number. -/
theorem Reads.emit_plain (h : Reads d a fs) (hspec : fs.convSpec ∉ Converted.unpadded) (hzero : .zero ∉ d.flags)
    (hprec : fs.prec = 0) (args cbuf : List _) :
    (Converted.mk fs args cbuf 0 0 false).emit = (layout d a).plain cbuf.reverse := by
  obtain ⟨hpad, hlayout⟩ := h.no_zeros hzero
  rw [Converted.emit_number hspec h.widthOpt fun hz => absurd hz (by simp [hpad])]
  dsimp only
  rw [hprec, hpad, h.left, h.width, Int.toNat_natCast, FieldLayout.plain, lead_unsigned rfl]
  simp

end Numbers

end Naul
