import Naul.Acpi
import Naul.Lib.WhileLoop
import Naul.Str

/-!
# Switching off (`os/src/power.c`)

`initPower` looks through the table DSDT for the package `_S5_` and takes two values from it. It takes for
the DSDT what is at the address in the second word of the FADT (`dsdtAt`), and for its end the table's length
behind the first byte after the header, which is 36 bytes behind the end. So a scan that finds no package
reads these bytes too.

`Finds` is what a scan has to come to: a package whose values lie in the table. It is exactly then that
nothing outside the table is read (`scan_inside_iff`).

`SleepTypes` says which values a scan takes, whatever it reads. `PowerChip` is the other side of the ports:
`switches_off` follows the values from the table to the chip, over any run of the power thread.
-/

namespace Naul

/-- `#define POWER_HEADER_SIZE 36`. -/
def powerHeaderSize : ℕ := 36

/-- `"_S5_"`. -/
def s5Name : List UInt8 := [95, 83, 53, 95]

/-- How many bytes of `a` are read by `compareStart(a, b, length)`, which reads a byte before it tests
`length`. -/
def compareStartReads : List UInt8 → List UInt8 → ℕ → ℕ
  | [], _, _ => 1
  | _ :: _, _, 0 => 1
  | c :: a, b, length + 1 => if c = 0 ∨ c ≠ peek b then 1 else compareStartReads a b.tail length + 1

/-- What `initPower` takes for the DSDT: the memory from `*(uint32_t*)(fadtAddress + POWER_FADT_DSDT)` on. This
word of a FADT is the length of the FADT; the address of the DSDT is another one. -/
def dsdtAt (memory : UInt64 → UInt8) (fadtAddress : UInt64) : ℕ → UInt8 :=
  tableAt memory (load32 (tableAt memory fadtAddress) 0x4).toUInt64

/-- The variables of the scan; `current` is an offset in the table, and `reads` are the offsets of the
bytes that have been read, the latest first. -/
structure SleepScan where
  current : ℕ
  guess : Bool
  shutdownA : UInt16
  shutdownB : UInt16
  reads : List ℕ

namespace SleepScan

/-- The first bytes at an offset; no more are read of a name. -/
def bytesAt (table : ℕ → UInt8) (p : ℕ) : List UInt8 := (List.range 5).map fun i => table (p + i)

/-- `if (*current == 0xA) { current++; }`. -/
def skipPrefix (table : ℕ → UInt8) (current : ℕ) : ℕ := if table current = 0xA then current + 1 else current

/-- The part of the loop's body behind `*current == 0x12`. -/
def takeValues (table : ℕ → UInt8) (s : SleepScan) : SleepScan :=
  let current := s.current + 3
  let a := skipPrefix table current
  let b := skipPrefix table (a + 1)
  { current := b
    guess := false
    shutdownA := (table a).toUInt16 <<< 10
    shutdownB := (table b).toUInt16 <<< 10
    reads := b :: (a + 1) :: a :: current :: s.reads }

/-- The bytes that `compareStart(current, "_S5_", 4)` reads have been read. -/
def readName (table : ℕ → UInt8) (s : SleepScan) : SleepScan :=
  { s with reads := List.range' s.current (compareStartReads (bytesAt table s.current) s5Name 4) ++ s.reads }

/-- `current += 4`, and the byte that is tested there. -/
def readPackage (s : SleepScan) : SleepScan :=
  { s with current := s.current + 4, reads := (s.current + 4) :: s.reads }

/-- `current++`. -/
def step (s : SleepScan) : SleepScan := { s with current := s.current + 1 }

/-- `while (current < end)`. -/
def scanBody (table : ℕ → UInt8) (s : SleepScan) : SleepScan ⊕ SleepScan :=
  if s.current < powerHeaderSize + (tableLength table).toNat then
    if compareStart (bytesAt table s.current) s5Name 4 = 0 then
      let s := readPackage (readName table s)
      if table s.current = 0x12 then .inr (takeValues table s) else .inl (step s)
    else .inl (step (readName table s))
  else .inr s

/-- The part of `initPower` about the sleep state, with `shutdownA` and `shutdownB` before it; `table` is the
`dsdtAt` of the FADT. -/
def initPower (fuel : ℕ) (table : ℕ → UInt8) (shutdownA shutdownB : UInt16) : Option SleepScan :=
  (WhileLoop.run (scanBody table) fuel ⟨powerHeaderSize, true, shutdownA, shutdownB, []⟩).map fun s =>
    if s.guess then { s with shutdownA := 0x1400 } else s

/-! ### Packages -/

/-- The name is at the offset. -/
def Named (table : ℕ → UInt8) (p : ℕ) : Prop := s5Name <+: bytesAt table p

instance (table : ℕ → UInt8) (p : ℕ) : Decidable (Named table p) :=
  inferInstanceAs (Decidable (s5Name <+: bytesAt table p))

/-- The last byte that is read of a package whose name is at the offset. -/
def lastValue (table : ℕ → UInt8) (p : ℕ) : ℕ := skipPrefix table (skipPrefix table (p + 7) + 1)

/-- A package of the name is at the offset, with its values in the table. -/
structure Package (table : ℕ → UInt8) (p : ℕ) : Prop where
  named : Named table p
  package : table (p + 4) = 0x12
  values : lastValue table p < (tableLength table).toNat

/-- A scan from the offset comes to a package in the table. It goes on with the next byte, but behind a
name that is no package's five bytes further. -/
inductive Finds (table : ℕ → UInt8) : ℕ → Prop
  | package {p : ℕ} (h : Package table p) : Finds table p
  | next {p : ℕ} (hname : ¬ Named table p) (h : Finds table (p + 1)) : Finds table p
  | behind {p : ℕ} (hname : Named table p) (hpackage : table (p + 4) ≠ 0x12) (h : Finds table (p + 5)) :
    Finds table p

section Scan

variable {table : ℕ → UInt8} {a b : List UInt8} {length p fuel : ℕ} {s s' : SleepScan}

theorem one_le_compareStartReads (a b : List UInt8) (length : ℕ) : 1 ≤ compareStartReads a b length := by
  unfold compareStartReads
  split <;> try exact le_rfl
  split_ifs
  · exact le_rfl
  · exact Nat.le_add_left 1 _

theorem compareStartReads_le (a b : List UInt8) (length : ℕ) :
    compareStartReads a b length ≤ length + 1 := by
  induction a generalizing b length with
  | nil => exact Nat.le_add_left 1 _
  | cons c a ih =>
    cases length with
    | zero => exact le_rfl
    | succ length =>
      rw [compareStartReads]
      split_ifs
      · exact Nat.le_add_left 1 _
      · exact Nat.succ_le_succ (ih b.tail length)

/-- `compareStart` compares with the beginning of memory that is longer. -/
theorem compareStart_prefix_iff (hb : 0 ∉ b) (hlength : b.length < a.length) :
    compareStart a b b.length = 0 ↔ b <+: a := by
  induction b generalizing a with
  | nil =>
    cases a with
    | nil => cases hlength
    | cons c a => simp [compareStart]
  | cons d b ih =>
    rw [List.mem_cons, not_or] at hb
    cases a with
    | nil => cases hlength
    | cons c a =>
      rw [List.length_cons, compareStart, List.cons_prefix_cons, peek, List.tail_cons]
      split_ifs with hc
      · rw [charDiff_eq_zero]
        refine iff_of_false ?_ ?_
        · rintro rfl
          rcases hc with hzero | hne
          · exact hb.1 hzero.symm
          · exact hne rfl
        · rintro ⟨rfl, -⟩
          rcases hc with hzero | hne
          · exact hb.1 hzero.symm
          · exact hne rfl
      · rw [not_or, not_not] at hc
        rw [ih hb.2 (Nat.lt_of_succ_lt_succ hlength), and_iff_right hc.2.symm]

theorem compareStart_s5 (table : ℕ → UInt8) (p : ℕ) :
    compareStart (bytesAt table p) s5Name 4 = 0 ↔ Named table p :=
  compareStart_prefix_iff (by decide) (Nat.lt_succ_self 4)

/-- What is read of a name that is at the offset or not. -/
theorem inTable_name (table : ℕ → UInt8) (p : ℕ) :
    (InTable table (List.range' p (compareStartReads (bytesAt table p) s5Name 4)) →
        p < (tableLength table).toNat) ∧
      (p + 4 < (tableLength table).toNat →
        InTable table (List.range' p (compareStartReads (bytesAt table p) s5Name 4))) := by
  have hone := one_le_compareStartReads (bytesAt table p) s5Name 4
  have hfive := compareStartReads_le (bytesAt table p) s5Name 4
  refine ⟨fun h => h p (List.mem_range'_1.2 ⟨le_rfl, by omega⟩), fun h q hq => ?_⟩
  have hq := List.mem_range'_1.1 hq
  omega

theorem skipPrefix_cases (table : ℕ → UInt8) (p : ℕ) :
    skipPrefix table p = p ∨ skipPrefix table p = p + 1 := by
  unfold skipPrefix
  split_ifs
  · exact .inr rfl
  · exact .inl rfl

theorem lt_lastValue (table : ℕ → UInt8) (p : ℕ) : p + 7 < lastValue table p := by
  have h1 := skipPrefix_cases table (p + 7)
  have h2 := skipPrefix_cases table (skipPrefix table (p + 7) + 1)
  rw [lastValue]
  omega

/-- **A turn at a package.** -/
theorem scanBody_package (hlt : s.current < powerHeaderSize + (tableLength table).toNat)
    (hname : Named table s.current) (hpackage : table (s.current + 4) = 0x12) :
    ∃ s', scanBody table s = .inr s' ∧ s'.guess = false ∧
      (InTable table s'.reads ↔
        InTable table s.reads ∧ lastValue table s.current < (tableLength table).toNat) := by
  refine ⟨takeValues table (readPackage (readName table s)), ?_, rfl, ?_⟩
  · rw [scanBody, if_pos hlt, if_pos ((compareStart_s5 table s.current).2 hname)]
    exact if_pos hpackage
  · have h1 := skipPrefix_cases table (s.current + 7)
    have h2 := skipPrefix_cases table (skipPrefix table (s.current + 7) + 1)
    simp only [takeValues, readPackage, readName, lastValue, Nat.add_assoc, Nat.reduceAdd, inTable_cons,
      inTable_append]
    constructor
    · rintro ⟨hlast, -, -, -, -, -, hs⟩
      exact ⟨hs, hlast⟩
    · rintro ⟨hs, hlast⟩
      refine ⟨hlast, ?_, ?_, ?_, ?_, (inTable_name table s.current).2 ?_, hs⟩
      all_goals omega

/-- **A turn elsewhere.** -/
theorem scanBody_next (hlt : s.current < powerHeaderSize + (tableLength table).toNat)
    (h : ¬ (Named table s.current ∧ table (s.current + 4) = 0x12)) :
    ∃ s', scanBody table s = .inl s' ∧ s'.guess = s.guess ∧
      (¬ Named table s.current ∧ s'.current = s.current + 1 ∨
        Named table s.current ∧ table (s.current + 4) ≠ 0x12 ∧ s'.current = s.current + 5) ∧
      (InTable table s'.reads → s.current < (tableLength table).toNat) ∧
      (InTable table s.reads → s.current + 4 < (tableLength table).toNat → InTable table s'.reads) := by
  obtain ⟨hin, hout⟩ := inTable_name table s.current
  by_cases hname : Named table s.current
  · have hpackage : table (s.current + 4) ≠ 0x12 := fun heq => h ⟨hname, heq⟩
    refine ⟨step (readPackage (readName table s)), ?_, rfl, .inr ⟨hname, hpackage, rfl⟩, ?_, ?_⟩
    · rw [scanBody, if_pos hlt, if_pos ((compareStart_s5 table s.current).2 hname)]
      exact if_neg hpackage
    · simp only [step, readPackage, readName, inTable_cons, inTable_append]
      exact fun h => hin h.2.1
    · simp only [step, readPackage, readName, inTable_cons, inTable_append]
      exact fun hs h4 => ⟨h4, hout h4, hs⟩
  · refine ⟨step (readName table s), ?_, rfl, .inl ⟨hname, rfl⟩, ?_, ?_⟩
    · rw [scanBody, if_pos hlt, if_neg (mt (compareStart_s5 table s.current).1 hname)]
    · simp only [step, readName, inTable_append]
      exact fun h => hin h.1
    · simp only [step, readName, inTable_append]
      exact fun hs h4 => ⟨hout h4, hs⟩

/-- What has been read once has been read in the end. -/
theorem reads_subset (h : WhileLoop.run (scanBody table) fuel s = some s') : s.reads ⊆ s'.reads := by
  refine WhileLoop.run_subset SleepScan.reads (fun t t' hb p hp => ?_) h
  rw [scanBody] at hb
  dsimp only at hb
  split_ifs at hb <;> rcases hb with hb | hb <;> cases hb
  · simp [takeValues, readPackage, readName, hp]
  · simp [step, readPackage, readName, hp]
  · simp [step, readName, hp]
  · exact hp

/-! ### Scans -/

theorem Finds.exists_package (h : Finds table p) : ∃ q, p ≤ q ∧ Package table q := by
  induction h with
  | package h => exact ⟨_, le_rfl, h⟩
  | next _ _ ih | behind _ _ _ ih =>
    obtain ⟨q, hq, h⟩ := ih
    exact ⟨q, by omega, h⟩

theorem Finds.lt (h : Finds table p) : p + 7 < (tableLength table).toNat := by
  obtain ⟨q, hq, -, -, hvalues⟩ := h.exists_package
  have hlast := lt_lastValue table q
  omega

/-- A scan that comes to a package in the table has read nothing else. -/
theorem run_of_finds (h : Finds table p) (hp : s.current = p) (hs : InTable table s.reads) :
    ∃ fuel s', WhileLoop.run (scanBody table) fuel s = some s' ∧ s'.guess = false ∧ InTable table s'.reads := by
  induction h generalizing s with
  | package h =>
    subst hp
    have hlast := lt_lastValue table s.current
    have hvalues := h.values
    obtain ⟨s', hbody, hguess, hin⟩ := scanBody_package (by omega) h.named h.package
    exact ⟨1, s', WhileLoop.run_succ_inr hbody 0, hguess, hin.2 ⟨hs, h.values⟩⟩
  | next hname h ih =>
    subst hp
    have hlt := h.lt
    obtain ⟨s₁, hbody, -, hcurrent, -, hin⟩ := scanBody_next (by omega) fun hpackage => hname hpackage.1
    obtain ⟨-, hcurrent⟩ := hcurrent.resolve_right fun hnamed => hname hnamed.1
    obtain ⟨n, s', hrun, hs'⟩ := ih hcurrent (hin hs (by omega))
    exact ⟨n + 1, s', by rw [WhileLoop.run_succ_inl hbody, hrun], hs'⟩
  | behind hname hpackage h ih =>
    subst hp
    have hlt := h.lt
    obtain ⟨s₁, hbody, -, hcurrent, -, hin⟩ := scanBody_next (by omega) fun hboth => hpackage hboth.2
    obtain ⟨-, -, hcurrent⟩ := hcurrent.resolve_left fun hnot => hnot.1 hname
    obtain ⟨n, s', hrun, hs'⟩ := ih hcurrent (hin hs (by omega))
    exact ⟨n + 1, s', by rw [WhileLoop.run_succ_inl hbody, hrun], hs'⟩

/-- A scan that has read nothing outside the table has come to a package: it cannot get from the end of the
table to where it ends without reading what is in between. -/
theorem finds_of_run (hs : s.current < powerHeaderSize + (tableLength table).toNat)
    (h : WhileLoop.run (scanBody table) fuel s = some s') (hin : InTable table s'.reads) :
    Finds table s.current := by
  induction fuel generalizing s with
  | zero => cases h
  | succ n ih =>
    by_cases hpackage : Named table s.current ∧ table (s.current + 4) = 0x12
    · obtain ⟨s₁, hbody, -, hiff⟩ := scanBody_package hs hpackage.1 hpackage.2
      rw [WhileLoop.run_succ_inr hbody, Option.some.injEq] at h
      subst h
      exact .package ⟨hpackage.1, hpackage.2, (hiff.1 hin).2⟩
    · obtain ⟨s₁, hbody, -, hcurrent, hlt, -⟩ := scanBody_next hs hpackage
      rw [WhileLoop.run_succ_inl hbody] at h
      have hlt := hlt fun p hp => hin p (reads_subset h hp)
      have hheader : powerHeaderSize = 36 := rfl
      rcases hcurrent with ⟨hname, hcurrent⟩ | ⟨hname, hbehind, hcurrent⟩
      · have hfinds := ih (by omega) h
        rw [hcurrent] at hfinds
        exact .next hname hfinds
      · have hfinds := ih (by omega) h
        rw [hcurrent] at hfinds
        exact .behind hname hbehind hfinds

/-- **When the scan stays in the table.** For a table with a header, the scan ends, has read no byte outside
the table, and leaves the default where it does not find a package: exactly when it comes to a package
whose values lie in the table. -/
theorem scan_inside_iff (hheader : powerHeaderSize ≤ (tableLength table).toNat)
    (shutdownA shutdownB : UInt16) :
    (∃ fuel s, initPower fuel table shutdownA shutdownB = some s ∧ InTable table s.reads ∧
        (¬ Finds table powerHeaderSize → s.shutdownA = 0x1400)) ↔
      Finds table powerHeaderSize := by
  constructor
  · rintro ⟨fuel, s, hinit, hin, -⟩
    obtain ⟨s', hrun, rfl⟩ := Option.map_eq_some_iff.1 hinit
    have hin' : InTable table s'.reads := by
      split_ifs at hin <;> exact hin
    have hpositive : powerHeaderSize < powerHeaderSize + (tableLength table).toNat :=
      Nat.lt_add_of_pos_right (lt_of_lt_of_le (by decide) hheader)
    exact finds_of_run (s := ⟨powerHeaderSize, true, shutdownA, shutdownB, []⟩) hpositive hrun hin'
  · intro h
    obtain ⟨fuel, s, hrun, hguess, hin⟩ :=
      run_of_finds (s := ⟨powerHeaderSize, true, shutdownA, shutdownB, []⟩) h rfl (List.forall_mem_nil _)
    refine ⟨fuel, s, ?_, hin, fun hnot => absurd h hnot⟩
    rw [initPower, hrun, Option.map_some, hguess]
    rfl

/-- A table of this many bytes, with the memory from the end of its header on. -/
def sleepTable (length : UInt8) (body : List UInt8) (p : ℕ) : UInt8 :=
  if p = 4 then length else if p < powerHeaderSize then 0 else body.getD (p - powerHeaderSize) 0

/-- `_S5_` and a package of two values. -/
def sleepPackage : List UInt8 := s5Name ++ [0x12, 4, 2, 7, 7]

theorem scan_inside_package :
    ∃ fuel s, initPower fuel (sleepTable 45 sleepPackage) 0 0 = some s ∧
      InTable (sleepTable 45 sleepPackage) s.reads := by
  have hfinds : Finds (sleepTable 45 sleepPackage) powerHeaderSize :=
    .package ⟨by decide, by decide, by decide⟩
  obtain ⟨fuel, s, hinit, hin, -⟩ := (scan_inside_iff (by decide) 0 0).2 hfinds
  exact ⟨fuel, s, hinit, hin⟩

/-- With nothing behind the header, bytes behind the table are read, and a package that is there is
taken for the table's. -/
theorem scan_leaves_table :
    (∀ fuel s, initPower fuel (sleepTable 36 []) 0 0 = some s → ¬ InTable (sleepTable 36 []) s.reads) ∧
      ∃ s, initPower 1 (sleepTable 36 sleepPackage) 0 0 = some s ∧ s.shutdownA = 0x1C00 ∧
        ¬ InTable (sleepTable 36 sleepPackage) s.reads := by
  have hlength : ∀ body, (tableLength (sleepTable 36 body)).toNat = 36 := fun body => by
    rfl
  have hnot : ∀ body, ¬ Finds (sleepTable 36 body) powerHeaderSize := by
    intro body h
    have hlt := h.lt
    rw [hlength] at hlt
    exact absurd hlt (by decide)
  have hleaves : ∀ fuel body s, initPower fuel (sleepTable 36 body) 0 0 = some s →
      ¬ InTable (sleepTable 36 body) s.reads := by
    intro fuel body s hinit hin
    obtain ⟨s', hrun, rfl⟩ := Option.map_eq_some_iff.1 hinit
    have hin' : InTable (sleepTable 36 body) s'.reads := by
      split_ifs at hin <;> exact hin
    refine hnot body (finds_of_run (s := ⟨powerHeaderSize, true, 0, 0, []⟩) ?_ hrun hin')
    rw [hlength]
    decide
  exact ⟨fun fuel s => hleaves fuel [] s, _, rfl, by decide, hleaves 1 sleepPackage _ rfl⟩

end Scan

/-! ### The values that are found -/

/-- A constant is at the offset, in AML's encoding: `ZeroOp`, `OneOp` or a byte behind `BytePrefix`. The
last offset is the one behind it. -/
inductive AmlConstant (table : ℕ → UInt8) : ℕ → UInt8 → ℕ → Prop
  | zero {p : ℕ} (h : table p = 0) : AmlConstant table p 0 (p + 1)
  | one {p : ℕ} (h : table p = 1) : AmlConstant table p 1 (p + 1)
  | byte {p : ℕ} (h : table p = 0xA) : AmlConstant table p (table (p + 1)) (p + 2)

/-- `Name(_S5_, Package() {a, b, ...})`: the name, `PackageOp`, a length, a number of elements, and the
elements. -/
structure SleepPackage (table : ℕ → UInt8) (p : ℕ) (a b : UInt8) : Prop where
  named : Named table p
  package : table (p + 4) = 0x12
  elements : ∃ q r, AmlConstant table (p + 7) a q ∧ AmlConstant table q b r

/-- The sleep types of a table: those of a package that no earlier name runs into, or the default where
nothing that is scanned is a package. -/
inductive SleepTypes (table : ℕ → UInt8) : UInt8 → UInt8 → Prop
  | found {p : ℕ} {a b : UInt8} (hp : powerHeaderSize ≤ p)
    (hlt : p < powerHeaderSize + (tableLength table).toNat) (h : SleepPackage table p a b)
    (hbefore : ∀ q, powerHeaderSize ≤ q → q < p → Named table q → table (q + 4) ≠ 0x12 ∧ q + 5 ≤ p) :
    SleepTypes table a b
  | missing (h : ∀ q, powerHeaderSize ≤ q → q < powerHeaderSize + (tableLength table).toNat →
      Named table q → table (q + 4) ≠ 0x12) : SleepTypes table 5 0

section Values

variable {table : ℕ → UInt8} {p : ℕ} {a b : UInt8} {s : SleepScan}

theorem AmlConstant.skipPrefix {q : ℕ} (h : AmlConstant table p a q) :
    table (skipPrefix table p) = a ∧ SleepScan.skipPrefix table p + 1 = q := by
  unfold SleepScan.skipPrefix
  cases h with
  | zero h | one h => simp [h]
  | byte h => simp [h]

/-- The values of a package are taken. -/
theorem scanBody_sleepPackage (h : SleepPackage table s.current a b)
    (hlt : s.current < powerHeaderSize + (tableLength table).toNat) :
    ∃ s', scanBody table s = .inr s' ∧ s'.guess = false ∧ s'.shutdownA = a.toUInt16 <<< 10 ∧
      s'.shutdownB = b.toUInt16 <<< 10 := by
  obtain ⟨q, r, ha, hb⟩ := h.elements
  obtain ⟨hvalueA, hnext⟩ := ha.skipPrefix
  obtain ⟨hvalueB, -⟩ := hb.skipPrefix
  refine ⟨takeValues table (readPackage (readName table s)), ?_, rfl, ?_, ?_⟩
  · rw [scanBody, if_pos hlt, if_pos ((compareStart_s5 table s.current).2 h.named)]
    exact if_pos h.package
  · simp only [takeValues, readPackage, readName, Nat.add_assoc, Nat.reduceAdd, hvalueA]
  · simp only [takeValues, readPackage, readName, Nat.add_assoc, Nat.reduceAdd, hnext, hvalueB]

/-- A turn elsewhere keeps the values. -/
theorem scanBody_keeps (hlt : s.current < powerHeaderSize + (tableLength table).toNat)
    (h : Named table s.current → table (s.current + 4) ≠ 0x12) :
    ∃ s', scanBody table s = .inl s' ∧ s'.guess = s.guess ∧ s'.shutdownB = s.shutdownB ∧
      s.current < s'.current ∧
      (s'.current = s.current + 1 ∨ Named table s.current ∧ s'.current = s.current + 5) := by
  by_cases hname : Named table s.current
  · refine ⟨step (readPackage (readName table s)), ?_, rfl, rfl, ?_, .inr ⟨hname, rfl⟩⟩
    · rw [scanBody, if_pos hlt, if_pos ((compareStart_s5 table s.current).2 hname)]
      exact if_neg (h hname)
    · exact Nat.lt_of_lt_of_le (Nat.lt_add_of_pos_right (by decide)) (Nat.le_succ (s.current + 4))
  · refine ⟨step (readName table s), ?_, rfl, rfl, Nat.lt_succ_self _, .inl rfl⟩
    rw [scanBody, if_pos hlt, if_neg (mt (compareStart_s5 table s.current).1 hname)]

/-- The scan comes to the package that no earlier name runs into. -/
theorem run_of_sleepPackage (h : SleepPackage table p a b)
    (hlt : p < powerHeaderSize + (tableLength table).toNat) (hs : s.current ≤ p)
    (hbefore : ∀ q, s.current ≤ q → q < p → Named table q → table (q + 4) ≠ 0x12 ∧ q + 5 ≤ p) :
    ∃ fuel s', WhileLoop.run (scanBody table) fuel s = some s' ∧ s'.guess = false ∧
      s'.shutdownA = a.toUInt16 <<< 10 ∧ s'.shutdownB = b.toUInt16 <<< 10 := by
  induction hn : p - s.current using Nat.strong_induction_on generalizing s with
  | _ n ih =>
    rcases hs.eq_or_lt with rfl | hs
    · obtain ⟨s', hbody, hvalues⟩ := scanBody_sleepPackage h hlt
      exact ⟨1, s', WhileLoop.run_succ_inr hbody 0, hvalues⟩
    · obtain ⟨s₁, hbody, -, -, hmore, hcurrent⟩ :=
        scanBody_keeps (s := s) (by omega) fun hname => (hbefore s.current le_rfl hs hname).1
      have hle : s₁.current ≤ p := by
        rcases hcurrent with hone | ⟨hname, hfive⟩
        · omega
        · have hend := (hbefore s.current le_rfl hs hname).2
          omega
      obtain ⟨fuel, s', hrun, hvalues⟩ :=
        ih (p - s₁.current) (by omega) hle (fun q hq => hbefore q (by omega)) rfl
      exact ⟨fuel + 1, s', by rw [WhileLoop.run_succ_inl hbody, hrun], hvalues⟩

/-- The scan goes to its end where there is no package. -/
theorem run_of_missing
    (h : ∀ q, s.current ≤ q → q < powerHeaderSize + (tableLength table).toNat → Named table q →
      table (q + 4) ≠ 0x12) :
    ∃ fuel s', WhileLoop.run (scanBody table) fuel s = some s' ∧ s'.guess = s.guess ∧
      s'.shutdownB = s.shutdownB := by
  induction hn : powerHeaderSize + (tableLength table).toNat - s.current using Nat.strong_induction_on
    generalizing s with
  | _ n ih =>
    by_cases hlt : s.current < powerHeaderSize + (tableLength table).toNat
    · obtain ⟨s₁, hbody, hguess, hvalue, hmore, -⟩ := scanBody_keeps hlt (h s.current le_rfl hlt)
      obtain ⟨fuel, s', hrun, hguess', hvalue'⟩ :=
        ih (powerHeaderSize + (tableLength table).toNat - s₁.current) (by omega)
          (fun q hq => h q (by omega)) rfl
      exact ⟨fuel + 1, s', by rw [WhileLoop.run_succ_inl hbody, hrun], hguess'.trans hguess,
        hvalue'.trans hvalue⟩
    · have hbody : scanBody table s = .inr s := by rw [scanBody, if_neg hlt]
      exact ⟨1, s, WhileLoop.run_succ_inr hbody 0, rfl, rfl⟩

/-- **What a scan finds.** -/
theorem initPower_eq (h : SleepTypes table a b) (shutdownA : UInt16) :
    ∃ fuel s, initPower fuel table shutdownA 0 = some s ∧ s.shutdownA = a.toUInt16 <<< 10 ∧
      s.shutdownB = b.toUInt16 <<< 10 := by
  cases h with
  | found hp hlt h hbefore =>
    obtain ⟨fuel, s, hrun, hguess, hA, hB⟩ :=
      run_of_sleepPackage (s := ⟨powerHeaderSize, true, shutdownA, 0, []⟩) h hlt hp hbefore
    refine ⟨fuel, s, ?_, hA, hB⟩
    rw [initPower, hrun, Option.map_some, hguess]
    rfl
  | missing h =>
    obtain ⟨fuel, s, hrun, hguess, hB⟩ := run_of_missing (s := ⟨powerHeaderSize, true, shutdownA, 0, []⟩) h
    have hdefault : (0x1400 : UInt16) = (5 : UInt8).toUInt16 <<< 10 := by decide
    have hzero : (0 : UInt16) = (0 : UInt8).toUInt16 <<< 10 := by decide
    refine ⟨fuel, { s with shutdownA := 0x1400 }, ?_, hdefault, hB.trans hzero⟩
    rw [initPower, hrun, Option.map_some, hguess]
    rfl

end Values

end SleepScan

/-! ### Switching off -/

/-- A write with `outw`. -/
structure PortWrite where
  (port value : UInt16)

/-- `shutdown`, with the table FADT. -/
def shutdown (fadt : ℕ → UInt8) (shutdownA shutdownB : UInt16) : List PortWrite :=
  let value := load32 fadt 0x44
  ⟨(load32 fadt 0x40).toUInt16, shutdownA ||| 0x2000⟩ ::
    ((if value ≠ 0 then [⟨value.toUInt16, shutdownB ||| 0x2000⟩] else []) ++
      [⟨0xB004, 0x2000⟩, ⟨0x604, 0x2000⟩, ⟨0x4004, 0x3400⟩, ⟨0x600, 0x34⟩])

/-- A turn of `powerThread`, where `status` is what the event register shows. -/
def powerTurn (fadt : ℕ → UInt8) (status shutdownA shutdownB : UInt16) : List PortWrite :=
  if status &&& 0x100 ≠ 0 then
    ⟨(load32 fadt 0x38).toUInt16, 0x100⟩ :: shutdown fadt shutdownA shutdownB
  else []

/-- The chip behind the registers: what the event register shows, and the sleep type with which each
control register has first been enabled. -/
structure PowerChip where
  status : UInt16
  (sleepA sleepB : Option ℕ)

/-- The sleep type in a control value that enables it. -/
def enabledType (value : UInt16) : Option ℕ :=
  if value.toNat.testBit 13 then some (value.toNat / 2 ^ 10 % 8) else none

namespace PowerChip

variable (fadt : ℕ → UInt8)

/-- What a write does. A one clears its bit of the event register. -/
def outw (c : PowerChip) (w : PortWrite) : PowerChip where
  status := if w.port = (load32 fadt 0x38).toUInt16 then c.status &&& ~~~w.value else c.status
  sleepA := if w.port = (load32 fadt 0x40).toUInt16 then c.sleepA <|> enabledType w.value else c.sleepA
  sleepB :=
    if load32 fadt 0x44 ≠ 0 ∧ w.port = (load32 fadt 0x44).toUInt16 then c.sleepB <|> enabledType w.value
    else c.sleepB

/-- What happens at the chip: bits of the event register are raised, the thread takes a turn, or a program
calls `shutdown`. -/
inductive Event
  | raise (bits : UInt16)
  | turn
  | call
  deriving DecidableEq

def step (shutdownA shutdownB : UInt16) (c : PowerChip) : Event → PowerChip
  | .raise bits => { c with status := c.status ||| bits }
  | .turn => (powerTurn fadt c.status shutdownA shutdownB).foldl (outw fadt) c
  | .call => (shutdown fadt shutdownA shutdownB).foldl (outw fadt) c

/-- The chip after the events, from the start of the machine on. -/
def run (shutdownA shutdownB : UInt16) (events : List Event) : PowerChip :=
  events.foldl (step fadt shutdownA shutdownB) ⟨0, none, none⟩

end PowerChip

/-- The bit of the power button. -/
def powerButton (status : UInt16) : Bool := status.toBitVec.getLsbD 8

open PowerChip (Event)

/-- The button has been pressed and no turn has come since. -/
def Pressed (events : List Event) : Prop :=
  ∃ before bits after, events = before ++ .raise bits :: after ∧ powerButton bits ∧ .turn ∉ after

/-- The machine has to be off: a program has called for it, or a turn has come after the button. -/
def SwitchedOff (events : List Event) : Prop :=
  .call ∈ events ∨ ∃ before after, events = before ++ .turn :: after ∧ Pressed before

section Chip

variable {fadt : ℕ → UInt8} {c : PowerChip} {w : PortWrite} {ws : List PortWrite} {e : Event}
  {events : List Event} {a b : UInt8} {t : ℕ}

theorem button_iff (status : UInt16) : status &&& 0x100 ≠ 0 ↔ powerButton status := by
  have hbit : (0x100 : UInt16).toBitVec = BitVec.twoPow 16 8 := by decide
  rw [powerButton, Ne, ← UInt16.toBitVec_inj, UInt16.toBitVec_and, hbit, BitVec.and_twoPow]
  cases status.toBitVec.getLsbD 8 <;> decide

@[simp] theorem powerButton_or (u v : UInt16) : powerButton (u ||| v) = (powerButton u || powerButton v) := by
  simp [powerButton]

@[simp] theorem powerButton_and (u v : UInt16) :
    powerButton (u &&& ~~~v) = (powerButton u && !powerButton v) := by
  simp [powerButton]

/-! ### What the writes do -/

/-- A control value enables its type and leaves the button's bit alone. -/
theorem control_value (ha : a < 8) :
    enabledType (a.toUInt16 <<< 10 ||| 0x2000) = some a.toNat ∧
      powerButton (a.toUInt16 <<< 10 ||| 0x2000) = false := by
  obtain ⟨n, hn, rfl⟩ : ∃ n < 8, a = UInt8.ofNat n := ⟨a.toNat, UInt8.lt_iff_toNat_lt.1 ha, by simp⟩
  interval_cases n <;> decide

theorem shutdown_button (ha : a < 8) (hb : b < 8) (hw : w ∈ shutdown fadt (a.toUInt16 <<< 10) (b.toUInt16 <<< 10)) :
    powerButton w.value = false := by
  simp only [shutdown, List.mem_cons, List.mem_append] at hw
  rcases hw with rfl | hw | rfl | rfl | rfl | rfl | hw
  · exact (control_value ha).2
  · split_ifs at hw
    · rw [List.mem_singleton.1 hw]
      exact (control_value hb).2
    · cases hw
  all_goals first | decide | cases hw

/-- Writes without the button's bit leave it alone. -/
theorem button_foldl (hws : ∀ w ∈ ws, powerButton w.value = false) (c : PowerChip) :
    powerButton (ws.foldl (PowerChip.outw fadt) c).status = powerButton c.status := by
  induction ws generalizing c with
  | nil => rfl
  | cons w ws ih =>
    rw [List.foldl_cons, ih fun w hw => hws w (List.mem_cons_of_mem _ hw)]
    have hw := hws w List.mem_cons_self
    simp only [PowerChip.outw]
    split_ifs
    · simp [hw]
    · rfl

/-- A register that has been enabled stays so. -/
theorem sleepA_foldl (h : c.sleepA = some t) : (ws.foldl (PowerChip.outw fadt) c).sleepA = some t := by
  induction ws generalizing c with
  | nil => exact h
  | cons w ws ih =>
    apply ih
    simp [PowerChip.outw, h]

theorem sleepB_foldl (h : c.sleepB = some t) : (ws.foldl (PowerChip.outw fadt) c).sleepB = some t := by
  induction ws generalizing c with
  | nil => exact h
  | cons w ws ih =>
    apply ih
    simp [PowerChip.outw, h]

theorem sleepB_absent (h : load32 fadt 0x44 = 0) : (ws.foldl (PowerChip.outw fadt) c).sleepB = c.sleepB := by
  induction ws generalizing c with
  | nil => rfl
  | cons w ws ih =>
    rw [List.foldl_cons, ih]
    simp [PowerChip.outw, h]

/-- The two control registers are not one. -/
def Apart (fadt : ℕ → UInt8) : Prop :=
  load32 fadt 0x44 ≠ 0 → (load32 fadt 0x44).toUInt16 ≠ (load32 fadt 0x40).toUInt16

/-- The type of the second register, where there is one. -/
def typeB (fadt : ℕ → UInt8) (b : UInt8) : Option ℕ := if load32 fadt 0x44 = 0 then none else some b.toNat

/-- The chip is in the sleep state. -/
def PowerChip.Asleep (fadt : ℕ → UInt8) (a b : UInt8) (c : PowerChip) : Prop :=
  c.sleepA = some a.toNat ∧ c.sleepB = typeB fadt b

theorem PowerChip.Asleep.foldl (h : c.Asleep fadt a b) (ws : List PortWrite) :
    (ws.foldl (PowerChip.outw fadt) c).Asleep fadt a b := by
  refine ⟨sleepA_foldl h.1, ?_⟩
  have hb := h.2
  unfold typeB at hb ⊢
  split_ifs at hb ⊢ with habsent
  · rw [sleepB_absent habsent, hb]
  · exact sleepB_foldl hb

/-- `shutdown` puts a chip to sleep. -/
theorem shutdown_asleep (ha : a < 8) (hb : b < 8) (hports : Apart fadt) (hA : c.sleepA = none)
    (hB : c.sleepB = none) :
    ((shutdown fadt (a.toUInt16 <<< 10) (b.toUInt16 <<< 10)).foldl (PowerChip.outw fadt) c).Asleep fadt a b := by
  rw [shutdown, List.foldl_cons, List.foldl_append]
  refine PowerChip.Asleep.foldl ?_ _
  have hfirst : (c.outw fadt ⟨(load32 fadt 0x40).toUInt16, a.toUInt16 <<< 10 ||| 0x2000⟩).sleepA =
      some a.toNat := by
    simp [PowerChip.outw, hA, (control_value ha).1]
  refine ⟨sleepA_foldl hfirst, ?_⟩
  unfold typeB
  by_cases habsent : load32 fadt 0x44 = 0
  · rw [if_pos habsent, sleepB_absent habsent]
    simp [PowerChip.outw, habsent, hB]
  · have hapart := hports habsent
    simp [PowerChip.outw, habsent, hapart.symm, hB, (control_value hb).1]

/-- Acknowledging the button enables nothing. -/
theorem acknowledge (fadt : ℕ → UInt8) (c : PowerChip) :
    let c' := c.outw fadt ⟨(load32 fadt 0x38).toUInt16, 0x100⟩
    powerButton c'.status = false ∧ c'.sleepA = c.sleepA ∧ c'.sleepB = c.sleepB := by
  have hnone : enabledType 0x100 = none := by decide
  have hbutton : powerButton 0x100 = true := by decide
  refine ⟨by simp [PowerChip.outw, hbutton], ?_, ?_⟩
  · simp only [PowerChip.outw, hnone, Option.orElse_eq_orElse, Option.orElse_eq_or, Option.or_none, ite_self]
  · simp only [PowerChip.outw, hnone, Option.orElse_eq_orElse, Option.orElse_eq_or, Option.or_none, ite_self]

/-! ### Runs -/

theorem append_singleton_eq_iff {α : Type*} {es before after : List α} {e x : α} :
    es ++ [e] = before ++ x :: after ↔
      after = [] ∧ es = before ∧ e = x ∨ ∃ rest, after = rest ++ [e] ∧ es = before ++ x :: rest := by
  rcases after.eq_nil_or_concat with rfl | ⟨rest, y, rfl⟩
  · simp
  · rw [List.concat_eq_append, ← List.cons_append, ← List.append_assoc, List.append_singleton_inj]
    constructor
    · rintro ⟨rfl, rfl⟩
      exact .inr ⟨rest, rfl, rfl⟩
    · rintro (⟨hnil, -⟩ | ⟨rest', hrest, rfl⟩)
      · simp at hnil
      · rw [List.append_singleton_inj] at hrest
        obtain ⟨rfl, rfl⟩ := hrest
        exact ⟨rfl, rfl⟩

theorem pressed_append (events : List Event) (e : Event) :
    Pressed (events ++ [e]) ↔
      (∃ bits, e = .raise bits ∧ powerButton bits) ∨ e ≠ .turn ∧ Pressed events := by
  constructor
  · rintro ⟨before, bits, after, heq, hbits, hafter⟩
    rcases append_singleton_eq_iff.1 heq with ⟨-, -, he⟩ | ⟨rest, rfl, hes⟩
    · exact .inl ⟨bits, he, hbits⟩
    · rw [List.mem_append, List.mem_singleton, not_or] at hafter
      exact .inr ⟨Ne.symm hafter.2, before, bits, rest, hes, hbits, hafter.1⟩
  · rintro (⟨bits, rfl, hbits⟩ | ⟨he, before, bits, after, rfl, hbits, hafter⟩)
    · exact ⟨events, bits, [], rfl, hbits, List.not_mem_nil⟩
    · refine ⟨before, bits, after ++ [e], by simp, hbits, ?_⟩
      rw [List.mem_append, List.mem_singleton, not_or]
      exact ⟨hafter, Ne.symm he⟩

theorem switchedOff_append (events : List Event) (e : Event) :
    SwitchedOff (events ++ [e]) ↔ SwitchedOff events ∨ e = .call ∨ e = .turn ∧ Pressed events := by
  constructor
  · rintro (hcall | ⟨before, after, heq, hpressed⟩)
    · rcases List.mem_append.1 hcall with hcall | hcall
      · exact .inl (.inl hcall)
      · exact .inr (.inl (List.mem_singleton.1 hcall).symm)
    · rcases append_singleton_eq_iff.1 heq with ⟨-, rfl, he⟩ | ⟨rest, -, hes⟩
      · exact .inr (.inr ⟨he, hpressed⟩)
      · exact .inl (.inr ⟨before, rest, hes, hpressed⟩)
  · rintro ((hcall | ⟨before, after, rfl, hpressed⟩) | rfl | ⟨rfl, hpressed⟩)
    · exact .inl (List.mem_append_left _ hcall)
    · exact .inr ⟨before, after ++ [e], by simp, hpressed⟩
    · exact .inl (List.mem_append_right _ List.mem_cons_self)
    · exact .inr ⟨events, [], rfl, hpressed⟩

/-- The chip has seen the events. -/
structure PowerChip.Agrees (fadt : ℕ → UInt8) (a b : UInt8) (c : PowerChip) (events : List Event) : Prop where
  button : powerButton c.status = true ↔ Pressed events
  off : SwitchedOff events → c.Asleep fadt a b
  on : ¬ SwitchedOff events → c.sleepA = none ∧ c.sleepB = none

/-- `shutdown`, on a chip that shows the same as this one but for its status. -/
theorem PowerChip.Agrees.asleep_shutdown (h : c.Agrees fadt a b events) (ha : a < 8) (hb : b < 8)
    (hports : Apart fadt) {c' : PowerChip} (hA : c'.sleepA = c.sleepA) (hB : c'.sleepB = c.sleepB) :
    let c'' := (shutdown fadt (a.toUInt16 <<< 10) (b.toUInt16 <<< 10)).foldl (PowerChip.outw fadt) c'
    powerButton c''.status = powerButton c'.status ∧ c''.Asleep fadt a b := by
  refine ⟨button_foldl (fun w => shutdown_button ha hb) c', ?_⟩
  by_cases hoff : SwitchedOff events
  · have hasleep := h.off hoff
    exact PowerChip.Asleep.foldl ⟨hA.trans hasleep.1, hB.trans hasleep.2⟩ _
  · obtain ⟨hnoneA, hnoneB⟩ := h.on hoff
    exact shutdown_asleep ha hb hports (hA.trans hnoneA) (hB.trans hnoneB)

/-- An event that turns nothing off. -/
theorem PowerChip.Agrees.keep {c' : PowerChip} {e : Event} (h : c.Agrees fadt a b events)
    (hA : c'.sleepA = c.sleepA) (hB : c'.sleepB = c.sleepB)
    (hbutton : powerButton c'.status = true ↔ Pressed (events ++ [e]))
    (hsame : SwitchedOff (events ++ [e]) ↔ SwitchedOff events) : c'.Agrees fadt a b (events ++ [e]) := by
  refine ⟨hbutton, fun hoff => ?_, fun hon => ?_⟩
  · have hasleep := h.off (hsame.1 hoff)
    exact ⟨hA.trans hasleep.1, hB.trans hasleep.2⟩
  · obtain ⟨hnoneA, hnoneB⟩ := h.on fun hoff => hon (hsame.2 hoff)
    exact ⟨hA.trans hnoneA, hB.trans hnoneB⟩

/-- **What an event does.** -/
theorem PowerChip.Agrees.step (h : c.Agrees fadt a b events) (ha : a < 8) (hb : b < 8)
    (hports : Apart fadt) (e : Event) :
    (c.step fadt (a.toUInt16 <<< 10) (b.toUInt16 <<< 10) e).Agrees fadt a b (events ++ [e]) := by
  cases e with
  | raise bits =>
    refine h.keep rfl rfl ?_ (by simp [switchedOff_append])
    simp only [PowerChip.step, powerButton_or, Bool.or_eq_true, h.button, pressed_append]
    simp [or_comm]
  | turn =>
    by_cases hpressed : Pressed events
    · have htest := (button_iff c.status).2 (h.button.2 hpressed)
      obtain ⟨hack, hA, hB⟩ := acknowledge fadt c
      obtain ⟨hbutton, hasleep⟩ := h.asleep_shutdown ha hb hports hA hB
      have hstep : c.step fadt (a.toUInt16 <<< 10) (b.toUInt16 <<< 10) .turn =
          (shutdown fadt (a.toUInt16 <<< 10) (b.toUInt16 <<< 10)).foldl (PowerChip.outw fadt)
            (c.outw fadt ⟨(load32 fadt 0x38).toUInt16, 0x100⟩) := by
        rw [PowerChip.step, powerTurn, if_pos htest, List.foldl_cons]
      rw [hstep]
      refine ⟨?_, fun _ => hasleep, fun hon => ?_⟩
      · rw [hbutton, hack, pressed_append]
        simp
      · exact absurd ((switchedOff_append events .turn).2 (.inr (.inr ⟨rfl, hpressed⟩))) hon
    · have htest : ¬ c.status &&& 0x100 ≠ 0 := fun hne => hpressed (h.button.1 ((button_iff c.status).1 hne))
      have hstep : c.step fadt (a.toUInt16 <<< 10) (b.toUInt16 <<< 10) .turn = c := by
        rw [PowerChip.step, powerTurn, if_neg htest, List.foldl_nil]
      rw [hstep]
      refine h.keep rfl rfl ?_ (by simp [switchedOff_append, hpressed])
      rw [h.button, pressed_append]
      simp [hpressed]
  | call =>
    obtain ⟨hbutton, hasleep⟩ := h.asleep_shutdown ha hb hports rfl rfl
    refine ⟨?_, fun _ => hasleep, fun hon => ?_⟩
    · rw [PowerChip.step, hbutton, h.button, pressed_append]
      simp
    · exact absurd ((switchedOff_append events .call).2 (.inr (.inl rfl))) hon

theorem PowerChip.agrees_run (ha : a < 8) (hb : b < 8) (hports : Apart fadt) (events : List Event) :
    (PowerChip.run fadt (a.toUInt16 <<< 10) (b.toUInt16 <<< 10) events).Agrees fadt a b events := by
  induction events using List.reverseRecOn with
  | nil =>
    refine ⟨?_, ?_, fun _ => ⟨rfl, rfl⟩⟩
    · simp [PowerChip.run, Pressed, powerButton]
    · rintro (hcall | ⟨before, after, heq, -⟩)
      · cases hcall
      · simp at heq
  | append_singleton events e ih =>
    rw [PowerChip.run, List.foldl_append]
    exact ih.step ha hb hports e

/-- **When the machine goes off.** Where the scan takes the sleep types `a` and `b`, after `initPower` and any
events the chip is asleep, with these types, exactly when a program has called `shutdown` or a turn of the
thread has come after the power button; and the button is seen no more once a turn has come. -/
theorem switches_off {memory : UInt64 → UInt8} {fadtAddress : UInt64}
    (h : SleepScan.SleepTypes (dsdtAt memory fadtAddress) a b) (ha : a < 8) (hb : b < 8)
    (hports : Apart (tableAt memory fadtAddress)) :
    ∃ fuel s, SleepScan.initPower fuel (dsdtAt memory fadtAddress) 0 0 = some s ∧ ∀ events : List Event,
      let c := PowerChip.run (tableAt memory fadtAddress) s.shutdownA s.shutdownB events
      (SwitchedOff events → c.sleepA = some a.toNat ∧ c.sleepB = typeB (tableAt memory fadtAddress) b) ∧
        (¬ SwitchedOff events → c.sleepA = none ∧ c.sleepB = none) ∧
        (c.status &&& 0x100 ≠ 0 ↔ Pressed events) := by
  obtain ⟨fuel, s, hinit, hA, hB⟩ := SleepScan.initPower_eq h 0
  refine ⟨fuel, s, hinit, fun events => ?_⟩
  rw [hA, hB]
  have hagrees := PowerChip.agrees_run ha hb hports events
  exact ⟨hagrees.off, hagrees.on, (button_iff _).trans hagrees.button⟩

/-- A package with the types 7 and 1. -/
def twoTypes : List UInt8 := s5Name ++ [0x12, 6, 2, 0xA, 7, 1]

/-- A FADT at 0 with both control registers, whose second word is 244, and the package behind it. -/
def twoRegisters (a : UInt64) : UInt8 :=
  if a = 0x4 then 244
  else if a = 0x40 then 4
  else if a = 0x44 then 8
  else if a < 244 then 0
  else SleepScan.sleepTable 46 twoTypes (a - 244).toNat

theorem switches_off_button :
    ∃ fuel s, SleepScan.initPower fuel (dsdtAt twoRegisters 0) 0 0 = some s ∧
      let c := PowerChip.run (tableAt twoRegisters 0) s.shutdownA s.shutdownB [.turn, .raise 0x101, .turn]
      c.sleepA = some 7 ∧ c.sleepB = some 1 := by
  have hA : SleepScan.AmlConstant (dsdtAt twoRegisters 0) 43 7 45 := .byte (by decide)
  have hB : SleepScan.AmlConstant (dsdtAt twoRegisters 0) 45 1 46 := .one (by decide)
  have htypes : SleepScan.SleepTypes (dsdtAt twoRegisters 0) 7 1 :=
    .found le_rfl (by decide) ⟨by decide, by decide, 45, 46, hA, hB⟩ fun q hle hlt => absurd hlt hle.not_gt
  have hpressed : Pressed [.turn, .raise 0x101] := ⟨[.turn], 0x101, [], rfl, by decide, List.not_mem_nil⟩
  have hports : Apart (tableAt twoRegisters 0) := fun _ => by decide
  obtain ⟨fuel, s, hinit, hruns⟩ := switches_off htypes (by decide) (by decide) hports
  exact ⟨fuel, s, hinit, (hruns _).1 (.inr ⟨_, [], rfl, hpressed⟩)⟩

end Chip

end Naul
