import Naul.Compatibility.Items

/-!
# Conversions

What the parts of `npf_vpprintf` do that all conversions share: the digits in the buffer (`run_utoaBody`,
`binaryDigits_eq`), the output of what has been converted (`Converted.emit_number`, `Converted.emit_string`),
and the arguments behind the stars (`exists_reads`).
-/

namespace Naul

open FormatString Fuel

section Values

variable {m : LengthModifier} {base : UInt64}

/-! ### Numbers -/

theorem bmod_mod (n k : ℕ) : Int.bmod ((n % 2 ^ k : ℕ) : ℤ) (2 ^ k) = Int.bmod n (2 ^ k) := by
  rw [Int.natCast_emod, Int.emod_bmod]

theorem signedArg_eq (hm : m ≠ .L) (word : UInt64) (args : List UInt64) :
    signedArg (lenMod m) (word :: args) = (signedOf m word, args) := by
  have h32 : word.toUInt32.toInt32.toInt = Int.bmod word.toNat (2 ^ 32) := by
    rw [← bmod_mod, ← UInt64.toNat_toUInt32]
    exact BitVec.toInt_eq_toNat_bmod _
  have h16 : word.toUInt16.toInt16.toInt = Int.bmod word.toNat (2 ^ 16) := by
    rw [← bmod_mod, ← UInt64.toNat_toUInt16]
    exact BitVec.toInt_eq_toNat_bmod _
  have h8 : word.toUInt8.toInt8.toInt = Int.bmod word.toNat (2 ^ 8) := by
    rw [← bmod_mod, ← UInt64.toNat_toUInt8]
    exact BitVec.toInt_eq_toNat_bmod _
  have h64 : word.toInt64.toInt = Int.bmod word.toNat (2 ^ 64) := BitVec.toInt_eq_toNat_bmod _
  cases m with
  | none => simp only [signedArg, vaArg, lenMod, signedOf, typeBits, h32]
  | h => simp only [signedArg, vaArg, lenMod, signedOf, typeBits, h16]
  | hh => simp only [signedArg, vaArg, lenMod, signedOf, typeBits, h8]
  | l | ll | j | z | t => simp only [signedArg, vaArg, lenMod, signedOf, typeBits, h64]
  | L => exact absurd rfl hm

theorem unsignedArg_eq (hm : m ≠ .L) (word : UInt64) (args : List UInt64) :
    (unsignedArg (lenMod m) (word :: args)).1.toNat = unsignedOf m word ∧
      (unsignedArg (lenMod m) (word :: args)).2 = args := by
  have h64 : word.toNat = word.toNat % 2 ^ 64 := (Nat.mod_eq_of_lt word.toNat_lt).symm
  cases m with
  | none => exact ⟨by simp [unsignedArg, lenMod, unsignedOf, typeBits, vaArg], rfl⟩
  | h => exact ⟨by simp [unsignedArg, lenMod, unsignedOf, typeBits, vaArg], rfl⟩
  | hh => exact ⟨by simp [unsignedArg, lenMod, unsignedOf, typeBits, vaArg], rfl⟩
  | l | ll | j | z | t => exact ⟨h64, rfl⟩
  | L => exact absurd rfl hm

/-- The value that `npf_utoa_rev` is given for a signed number. -/
theorem natAbs_ofInt {v : ℤ} (hv : -2 ^ 63 ≤ v) (hv' : v < 2 ^ 63) :
    (if v < 0 then 0 - UInt64.ofInt v else UInt64.ofInt v).toNat = v.natAbs := by
  have hof : (UInt64.ofInt v).toNat = (v % 2 ^ 64).toNat := by
    rw [UInt64.ofInt, UInt64.toNat_ofNat']
    exact Nat.mod_eq_of_lt (by omega)
  split_ifs with hneg
  · rw [UInt64.toNat_sub, hof, UInt64.toNat_zero]
    omega
  · rw [hof]
    omega

theorem signedOf_bounds (m : LengthModifier) (word : UInt64) :
    -2 ^ 63 ≤ signedOf m word ∧ signedOf m word < 2 ^ 63 := by
  have hpos : 0 < 2 ^ typeBits m := Nat.pow_pos (by decide)
  have hlow := Int.le_bmod (x := word.toNat) hpos
  have hhigh := Int.bmod_lt (x := word.toNat) hpos
  have hbits : (2 : ℕ) ^ typeBits m ≤ 2 ^ 64 := Nat.pow_le_pow_right (by decide) (by cases m <;> decide)
  rw [signedOf]
  omega

/-- A digit in the case of the conversion. -/
theorem utoaDigit_eq {upper : Bool} {n : ℕ} (hn : n < 16) :
    utoaDigit (if upper then 0 else 'a'.toUInt8 - 'A'.toUInt8) (.ofNat n) = baseDigit upper n := by
  interval_cases n <;> cases upper <;> decide

/-- **The loop over the digits.** -/
theorem run_utoaBody (hbase : 1 < base.toNat) (hbase' : base.toNat ≤ 16) (upper : Bool) (val : UInt64)
    (buf : List UInt8) :
    ∃ n, WhileLoop.run (utoaBody base (if upper then 0 else 'a'.toUInt8 - 'A'.toUInt8)) n (val, buf) =
      some (buf ++ (numeral base.toNat upper val.toNat).reverse) := by
  induction hn : val.toNat using Nat.strong_induction_on generalizing val buf with
  | _ n ih =>
    have hdigit : utoaDigit (if upper then 0 else 'a'.toUInt8 - 'A'.toUInt8) (val % base) =
        baseDigit upper (n % base.toNat) := by
      have hmod : val % base = .ofNat (n % base.toNat) := by
        rw [← hn, ← UInt64.toNat_mod, UInt64.ofNat_toNat]
      rw [hmod]
      exact utoaDigit_eq ((Nat.mod_lt _ (by omega)).trans_le hbase')
    have hquotient : (val / base).toNat = n / base.toNat := by rw [UInt64.toNat_div, hn]
    have hreverse := Numeral.reverse_numeral hbase n
    have hnumeral : (numeral base.toNat upper n).reverse =
        baseDigit upper (n % base.toNat) :: (Nat.digits base.toNat (n / base.toNat)).map (baseDigit upper) := by
      rw [numeral, ← List.map_reverse, hreverse, List.map_cons]
    by_cases hzero : val / base = 0
    · have hbody : utoaBody base (if upper then 0 else 'a'.toUInt8 - 'A'.toUInt8) (val, buf) =
          .inr (buf ++ [baseDigit upper (n % base.toNat)]) := by
        simp only [utoaBody, hdigit, hzero, ne_eq, not_true, if_false]
      have hend : n / base.toNat = 0 := by rw [← hquotient, hzero, UInt64.toNat_zero]
      refine ⟨1, ?_⟩
      rw [WhileLoop.run_succ_inr hbody, hnumeral, hend, Nat.digits_zero, List.map_nil]
    · have hbody : utoaBody base (if upper then 0 else 'a'.toUInt8 - 'A'.toUInt8) (val, buf) =
          .inl (val / base, buf ++ [baseDigit upper (n % base.toNat)]) := by
        simp only [utoaBody, hdigit, hzero, ne_eq, not_false_eq_true, if_true]
      have hpos : n / base.toNat ≠ 0 := fun h => hzero (UInt64.toNat_inj.1 (by rw [hquotient, h, UInt64.toNat_zero]))
      have hlt : n / base.toNat < n := Nat.div_lt_self (Nat.pos_of_ne_zero fun h => hpos (by rw [h, Nat.zero_div])) hbase
      obtain ⟨k, hk⟩ := ih _ hlt (val / base) (buf ++ [baseDigit upper (n % base.toNat)]) hquotient
      refine ⟨k + 1, ?_⟩
      rw [WhileLoop.run_succ_inl hbody, hk, hnumeral, numeral, Numeral.numeral_of_ne_zero _ hpos,
        ← List.map_reverse, List.reverse_reverse, List.append_assoc]
      rfl

theorem binaryDigits_eq (upper : Bool) (u : UInt64) :
    binaryDigits u = (numeral 2 upper u.toNat).reverse := by
  by_cases hu : u = 0
  · subst hu
    cases upper <;> decide
  · have hn : u.toNat ≠ 0 := fun h => hu (UInt64.toNat_inj.1 h)
    have hlog : Nat.log 2 u.toNat < 64 := Nat.log_lt_of_lt_pow hn u.toNat_lt
    rw [numeral, Numeral.numeral_of_ne_zero 2 hn, ← List.map_reverse, List.reverse_reverse, digits_two hn,
      List.map_map, binaryDigits, npfBinLen, if_neg hu, Nat.log2_eq_log_two]
    apply List.map_congr_left
    intro i hi
    have hi : i < 64 := (List.mem_range.1 hi).trans_le hlog
    have hbit : (u >>> .ofNat i) &&& 1 = .ofNat (u.toNat / 2 ^ i % 2) := by
      apply UInt64.toNat_inj.1
      rw [UInt64.toNat_and, UInt64.toNat_shiftRight, UInt64.toNat_ofNat', UInt64.toNat_ofNat',
        Nat.shiftRight_eq_div_pow, UInt64.toNat_one, Nat.and_one_is_mod]
      have hshift : i % 2 ^ 64 % 64 = i := by omega
      rw [hshift]
      exact (Nat.mod_eq_of_lt (by omega)).symm
    rw [hbit, Function.comp_apply]
    rcases Nat.mod_two_eq_zero_or_one (u.toNat / 2 ^ i) with h | h <;> rw [h] <;> cases upper <;> decide

end Values

/-! ### The output of a conversion -/

namespace Converted

variable {v : Converted}

/-- The sign and the prefix. -/
def lead (v : Converted) : List UInt8 := v.sign ++ v.base

theorem length_lead (v : Converted) :
    (v.lead.length : ℤ) = (if v.signC ≠ 0 then 1 else 0) + if v.need0x ≠ 0 then 2 else 0 := by
  unfold lead sign base
  split_ifs <;> rfl

theorem before_append (v : Converted) :
    v.before.1 ++ v.before.2 =
      if v.fs.leftJustified ∨ v.padC = 0 then v.lead
      else if v.padC = '0'.toUInt8 then v.lead ++ v.pads
      else v.pads ++ v.lead := by
  have hbase : v.need0x = 0 → v.base = [] := fun h => by rw [base, h]; rfl
  have hdigit : '0'.toUInt8 ≠ 0 := by decide
  unfold before lead
  by_cases hleft : v.fs.leftJustified <;> by_cases hpad : v.padC = 0 <;> by_cases hneed : v.need0x = 0 <;>
    by_cases hzero : v.padC = '0'.toUInt8 <;> simp [hleft, hpad, hneed, hzero, hbase, hdigit]

/-- The pad character, where the zeros are not cleared for a precision. -/
theorem padC_eq (hzero : v.fs.leadingZeroPad = true → v.fs.precOpt = .none) :
    v.padC = if v.fs.fieldWidthOpt = .none then 0
      else if v.fs.leadingZeroPad ∧ ¬ v.fs.leftJustified then '0'.toUInt8 else ' '.toUInt8 := by
  unfold padC
  by_cases hopt : v.fs.fieldWidthOpt = .none <;> by_cases hlead : v.fs.leadingZeroPad = true <;>
    simp [hopt, hlead, hzero]

/-- **The output of a number.** -/
theorem emit_number (hconv : v.fs.convSpec ∉ unpadded)
    (hwidth : v.fs.fieldWidthOpt = .none → v.fs.fieldWidth = 0)
    (hzero : v.fs.leadingZeroPad = true → v.fs.precOpt = .none) :
    v.emit = field v.fs.leftJustified v.fs.leadingZeroPad v.fs.fieldWidth.toNat v.lead
      (List.replicate (v.fs.prec - v.cbuf.length).toNat '0'.toUInt8 ++ v.cbuf.reverse) := by
  have hstring : v.fs.convSpec ≠ .string := fun h => hconv (h ▸ List.mem_cons_self)
  have hprec : v.precPad = max 0 (v.fs.prec - v.cbuf.length) := if_pos hconv
  obtain ⟨body, hbody⟩ : ∃ body, body =
    List.replicate (v.fs.prec - v.cbuf.length).toNat '0'.toUInt8 ++ v.cbuf.reverse := ⟨_, rfl⟩
  have hpayload : List.replicate v.precPad.toNat '0'.toUInt8 ++ v.cbuf.reverse = body := by
    have hmax : (max 0 (v.fs.prec - v.cbuf.length)).toNat = (v.fs.prec - v.cbuf.length).toNat := by omega
    rw [hbody, hprec, hmax]
  have hpad : v.fieldPad.toNat = v.fs.fieldWidth.toNat - (v.lead.length + body.length) := by
    have hlead := v.length_lead
    rw [fieldPad, hprec, hbody, List.length_append, List.length_replicate, List.length_reverse]
    omega
  have hemit : v.emit = v.before.1 ++ v.before.2 ++ body ++
      if v.fs.leftJustified ∧ v.padC ≠ 0 then v.pads else [] := by
    rw [emit, if_neg hstring, ← hpayload]
    simp only [List.append_assoc]
  rw [hemit, before_append, ← hbody, field, pads, hpad, padC_eq hzero]
  have hspace : ' '.toUInt8 ≠ 0 ∧ ' '.toUInt8 ≠ '0'.toUInt8 := by decide
  have hdigit : '0'.toUInt8 ≠ 0 := by decide
  by_cases hopt : v.fs.fieldWidthOpt = .none
  · simp [hopt, hwidth hopt]
  · by_cases hleft : v.fs.leftJustified = true <;> by_cases hlead : v.fs.leadingZeroPad = true <;>
      simp [hopt, hleft, hlead, hspace, hdigit]

/-- **The output of a string.** -/
theorem emit_string (hconv : v.fs.convSpec = .string) (hsign : v.signC = 0) (hneed : v.need0x = 0)
    (hwidth : v.fs.fieldWidthOpt = .none → v.fs.fieldWidth = 0) (hzero : v.fs.leadingZeroPad = false) :
    v.emit = field v.fs.leftJustified false v.fs.fieldWidth.toNat [] v.cbuf := by
  have hmem : v.fs.convSpec ∈ unpadded := by rw [hconv]; exact List.mem_cons_self
  have hsign' : v.sign = [] := by rw [sign, hsign]; rfl
  have hspace : ' '.toUInt8 ≠ 0 ∧ ' '.toUInt8 ≠ '0'.toUInt8 := by decide
  have hpad : v.fieldPad.toNat = v.fs.fieldWidth.toNat - v.cbuf.length := by
    rw [fieldPad, precPad, if_neg (not_not.2 hmem), hsign, hneed]
    simp
    omega
  have hpadC := padC_eq (v := v) (fun h => by simp [hzero] at h)
  simp only [emit, before, hconv, if_true, hneed, ne_eq, not_true, if_false, field, pads, hpad]
  by_cases hopt : v.fs.fieldWidthOpt = .none
  · simp [hpadC, hopt, hwidth hopt, hsign']
  · by_cases hleft : v.fs.leftJustified = true <;> simp [hpadC, hopt, hleft, hzero, hspace, hsign']

end Converted

section Spec

variable {memory : UInt64 → UInt8} {d : Directive} {a : ItemArguments} {fs : FormatSpec}

/-! ### The arguments of a directive -/

/-- `fs` is the directive with its arguments. -/
structure Reads (d : Directive) (a : ItemArguments) (fs : FormatSpec) : Prop where
  left : fs.leftJustified = (layout d a).left
  width : fs.fieldWidth = (layout d a).width
  widthOpt : fs.fieldWidthOpt = .none → fs.fieldWidth = 0
  precOpt : fs.precOpt = .none ↔ (layout d a).precision = none
  prec : fs.prec = ((layout d a).precision.getD (if d.conversion = .p then 16 else 0) : ℕ)
  zero : fs.leadingZeroPad = true ↔ (layout d a).zero = true ∧
    ((layout d a).precision = none ∨ d.conversion ∉ [.d, .i, .o, .u, .x, .X])
  prepend : fs.prepend = signFlag d.flags 0
  altForm : fs.altForm = (layout d a).alternate
  caseAdjust : fs.caseAdjust = if capital d.conversion then 0 else 'a'.toUInt8 - 'A'.toUInt8
  lengthModifier : fs.lengthModifier = lenMod d.length
  convSpec : fs.convSpec = Naul.convSpec d.conversion

theorem intOf_bounds (word : UInt64) : -2 ^ 31 ≤ intOf word ∧ intOf word < 2 ^ 31 :=
  ⟨Int32.le_toInt _, Int32.toInt_lt _⟩

theorem starWidth_eq (hd : Item.Defined memory d a) (args : List UInt64) :
    starWidth (formatSpec d) (widthWords d.width a.width ++ args) =
      ({ formatSpec d with
        fieldWidth := (layout d a).width
        leftJustified := (layout d a).left }, args) := by
  have hliteral := hd.width
  have hstar := hd.star
  have hbounds := intOf_bounds a.width
  obtain ⟨flags, w, o, m, conv⟩ := d
  rcases w with _ | ds | _
  · rfl
  · have hwrap : wrapInt (number ds) = number ds := wrapInt_of_lt (hliteral ds rfl)
    simp [starWidth, formatSpec, widthSpec, widthWords, layout, hwrap]
  · have hmin := hstar rfl
    by_cases hneg : intOf a.width < 0
    · have habs : |intOf a.width| = -intOf a.width := abs_of_neg hneg
      have hwrap : wrapInt (-intOf a.width) = -intOf a.width := wrapInt_of_bounds (by omega) (by omega)
      simp [starWidth, formatSpec, widthSpec, widthWords, vaArg, layout, hneg, habs, hwrap]
    · have habs : |intOf a.width| = intOf a.width := abs_of_nonneg (not_lt.1 hneg)
      simp [starWidth, formatSpec, widthSpec, widthWords, vaArg, layout, hneg, habs]

theorem starPrec_eq (hd : Item.Defined memory d a)
    (hprec : fs.prec = (precSpec d.precision).1) (hopt : fs.precOpt = (precSpec d.precision).2)
    (args : List UInt64) :
    starPrec fs (precisionWords d.precision a.precision ++ args) =
      ({ fs with
        prec := ((layout d a).precision.getD 0 : ℕ)
        precOpt := if (layout d a).precision = none then .none else (precSpec d.precision).2 }, args) := by
  have hliteral := hd.precision
  have hstandard := hd.standard
  obtain ⟨flags, w, o, m, conv⟩ := d
  rcases o with _ | ds | ds | _
  · have hstar : fs.precOpt ≠ .star := by simp [hopt, precSpec]
    rw [starPrec, if_neg hstar]
    refine Prod.ext ?_ rfl
    apply FormatSpec.ext <;> simp [layout, precSpec, hprec, hopt]
  · have hstar : fs.precOpt ≠ .star := by simp [hopt, precSpec]
    have hwrap : wrapInt (number ds) = number ds := wrapInt_of_lt (hliteral ds rfl)
    rw [starPrec, if_neg hstar]
    refine Prod.ext ?_ rfl
    apply FormatSpec.ext <;> simp [layout, precSpec, hprec, hopt, hwrap]
  · exact absurd rfl (hstandard ds)
  · simp only [precSpec] at hprec hopt
    by_cases hneg : intOf a.precision < 0
    · simp [starPrec, hopt, precisionWords, vaArg, layout, hneg]
    · have hpos : ((intOf a.precision).toNat : ℤ) = intOf a.precision := Int.toNat_of_nonneg (not_lt.1 hneg)
      simp [starPrec, hopt, precisionWords, vaArg, layout, hneg, precSpec, hpos]

theorem defaultPrec_eq (hfloat : fs.convSpec ∉ Converted.unpadded ∨ fs.convSpec = .string) :
    defaultPrec fs =
      { fs with prec := if fs.precOpt = .none ∧ fs.convSpec = .pointer then 16 else fs.prec } := by
  obtain ⟨fieldWidth, prec, precOpt, fieldWidthOpt, left, zero, prepend, alt, case, m, conv⟩ := fs
  unfold defaultPrec
  by_cases hopt : precOpt = .none
  · cases conv <;> simp [hopt, Converted.unpadded] at hfloat ⊢
  · simp [hopt]

theorem clearZeroPad_eq (fs : FormatSpec) :
    clearZeroPad fs =
      { fs with
        leadingZeroPad := fs.leadingZeroPad &&
          (fs.precOpt = .none || fs.convSpec ∉ [.signedInt, .octal, .hexInt, .unsignedInt]) } := by
  obtain ⟨fieldWidth, prec, precOpt, fieldWidthOpt, left, zero, prepend, alt, case, m, conv⟩ := fs
  unfold clearZeroPad
  by_cases hopt : precOpt = .none
  · simp [hopt]
  · cases conv <;> simp [hopt]

/-- A precision that is there is noted. -/
theorem precSpec_ne_none (hstandard : ∀ ds, d.precision ≠ some (.negative ds))
    (h : (layout d a).precision ≠ none) : (precSpec d.precision).2 ≠ .none := by
  obtain ⟨flags, w, o, m, conv⟩ := d
  rcases o with _ | ds | ds | _
  · exact absurd rfl h
  · simp [precSpec]
  · exact absurd rfl (hstandard ds)
  · simp [precSpec]

theorem convSpec_eq_pointer (conv : Conversion) : convSpec conv = .pointer ↔ conv = .p := by
  cases conv <;> decide

theorem convSpec_mem_integers (conv : Conversion) :
    convSpec conv ∈ [.signedInt, .octal, .hexInt, .unsignedInt] ↔ conv ∈ [.d, .i, .o, .u, .x, .X] := by
  cases conv <;> decide

/-- **What `readArgs` gives.** -/
theorem exists_reads (hd : Item.Defined memory d a)
    (hfloat : convSpec d.conversion ∉ Converted.unpadded ∨ convSpec d.conversion = .string)
    (args : List UInt64) :
    ∃ fs, readArgs (formatSpec d) (widthWords d.width a.width ++
      (precisionWords d.precision a.precision ++ args)) = (fs, args) ∧ Reads d a fs := by
  rw [readArgs, starWidth_eq hd]
  dsimp only
  rw [starPrec_eq hd rfl rfl]
  dsimp only
  rw [defaultPrec_eq hfloat, clearZeroPad_eq]
  refine ⟨_, rfl, ?_⟩
  have hopt : (if (layout d a).precision = none then SpecOpt.none else (precSpec d.precision).2) = .none ↔
      (layout d a).precision = none := by
    split_ifs with hnone
    · exact iff_of_true rfl hnone
    · exact iff_of_false (precSpec_ne_none hd.standard hnone) hnone
  constructor
  case left | width | prepend | caseAdjust | lengthModifier | convSpec => rfl
  case altForm => rfl
  case precOpt => exact hopt
  case widthOpt =>
    obtain ⟨flags, w, o, m, conv⟩ := d
    rcases w with _ | ds | _ <;> simp [formatSpec, widthSpec, layout]
  case prec =>
    have hconv : (formatSpec d).convSpec = .pointer ↔ d.conversion = .p := convSpec_eq_pointer _
    simp only [hopt, hconv]
    cases (layout d a).precision with
    | none => by_cases hp : d.conversion = .p <;> simp [hp]
    | some k => simp
  case zero =>
    have hconv : (formatSpec d).convSpec ∈ [.signedInt, .octal, .hexInt, .unsignedInt] ↔
      d.conversion ∈ [.d, .i, .o, .u, .x, .X] := convSpec_mem_integers _
    simp only [Bool.and_eq_true, Bool.or_eq_true, decide_eq_true_eq, hopt, hconv]
    rfl

end Spec

end Naul
