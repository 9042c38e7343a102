import Naul.Acpi
import Naul.Lib.WhileLoop

/-!
# The interrupt controllers (`os/src/bootloader.c`)

The table with the signature "APIC" has records from its byte 44 on. Each begins with its type and its
length. `efi_main` steps from record to record by the length, until the step ends at the end of the table;
there is no other exit. Of the records it uses two types: the address of the controller, and the line that
a source is redirected to.

`Fills` says that the lengths lead to the end of the table. The walk ends and keeps within the table
exactly when they do and each record that is looked at lies in the table (`madt_walk_iff`).
-/

namespace Naul

/-- The variables of the loop. `record` is an offset from the table's address; `reads` are the offsets of
the bytes that have been read, the latest first. -/
structure MadtWalk where
  record : UInt64
  ioapicAddress : UInt64
  ioapicRedirects : UInt8 → UInt32
  reads : List ℕ

namespace MadtWalk

/-- `for (uint16_t i = 0; i < 256; i++) { information.ioapicRedirects[i] = i; }`. -/
def mapLinear (ioapicRedirects : UInt8 → UInt32) : UInt8 → UInt32 :=
  (List.range 256).foldl (fun r i => Function.update r (.ofNat i) (.ofNat i)) ioapicRedirects

/-- `if (*record == 1) { … } else if (*record == 2) { … }`. -/
def takeRecord (table : ℕ → UInt8) (s : MadtWalk) : MadtWalk :=
  let word := (s.record + 4).toNat
  if table s.record.toNat = 1 then
    { s with
      ioapicAddress := (load32 table word).toUInt64
      reads := wordAt word ++ s.reads }
  else if table s.record.toNat = 2 then
    { s with
      ioapicRedirects :=
        Function.update s.ioapicRedirects (table (s.record + 3).toNat) (load32 table word)
      reads := (s.record + 3).toNat :: wordAt word ++ s.reads }
  else s

/-- The body of the loop. -/
def turn (table : ℕ → UInt8) (s : MadtWalk) : MadtWalk :=
  let t := takeRecord table { s with reads := s.record.toNat :: s.reads }
  { t with
    record := t.record + (table (t.record + 1).toNat).toUInt64
    reads := (t.record + 1).toNat :: t.reads }

/-- `while (record - table != table->length)`. -/
def walkBody (table : ℕ → UInt8) (s : MadtWalk) : MadtWalk ⊕ MadtWalk :=
  let s := { s with reads := wordAt 4 ++ s.reads }
  if s.record = (tableLength table).toUInt64 then .inr s else .inl (turn table s)

/-- The part of `efi_main` about this table; `information` is what there is in the two variables. -/
def walk (fuel : ℕ) (table : ℕ → UInt8) (ioapicAddress : UInt64) (ioapicRedirects : UInt8 → UInt32) :
    Option MadtWalk :=
  WhileLoop.run (walkBody table) fuel ⟨44, ioapicAddress, mapLinear ioapicRedirects, []⟩

/-! ### Records -/

/-- From an offset the lengths of the records lead to the end of the table; the list has their offsets. -/
inductive Fills (table : ℕ → UInt8) : ℕ → List ℕ → Prop
  | done : Fills table (tableLength table).toNat []
  | record {o : ℕ} {os : List ℕ} (hlt : o < (tableLength table).toNat)
      (h : Fills table (o + (table (o + 1)).toNat) os) : Fills table o (o :: os)

/-- How many bytes of a record of a type are looked at. -/
def extent (type : UInt8) : ℕ := if type = 1 ∨ type = 2 then 8 else 2

/-- The target of the last record of type 2 for a source; without one, the source itself. -/
def redirect (table : ℕ → UInt8) (os : List ℕ) (source : UInt8) : UInt32 :=
  match os.reverse.find? fun o => table o = 2 ∧ table (o + 3) = source with
  | some o => load32 table (o + 4)
  | none => source.toUInt32

/-- The address in the last record of type 1; without one, what there was. -/
def address (table : ℕ → UInt8) (os : List ℕ) (ioapicAddress : UInt64) : UInt64 :=
  match os.reverse.find? fun o => table o = 1 with
  | some o => (load32 table (o + 4)).toUInt64
  | none => ioapicAddress

/-- What a record does to the two variables. -/
def apply (table : ℕ → UInt8) (x : UInt64 × (UInt8 → UInt32)) (o : ℕ) : UInt64 × (UInt8 → UInt32) :=
  if table o = 1 then ((load32 table (o + 4)).toUInt64, x.2)
  else if table o = 2 then (x.1, Function.update x.2 (table (o + 3)) (load32 table (o + 4)))
  else x

section Records

variable {table : ℕ → UInt8} {os : List ℕ} {o fuel : ℕ} {s s' : MadtWalk} {ioapicAddress : UInt64}
  {ioapicRedirects : UInt8 → UInt32}

theorem mapLinear_eq (ioapicRedirects : UInt8 → UInt32) : mapLinear ioapicRedirects = UInt8.toUInt32 := by
  -- after `n` turns the entries below `n` are set
  have hset : ∀ n ≤ 256, ∀ source : UInt8, source.toNat < n →
      (List.range n).foldl (fun r i => Function.update r (.ofNat i) (.ofNat i)) ioapicRedirects source =
        source.toUInt32 := by
    intro n hn source hsource
    induction n with
    | zero => omega
    | succ n ih =>
      rw [List.range_succ, List.foldl_append, List.foldl_cons, List.foldl_nil]
      by_cases hlast : source = .ofNat n
      · have hnat : source.toNat = n := by
          rw [hlast, UInt8.toNat_ofNat']
          omega
        rw [← hlast, Function.update_self, ← hnat]
        apply UInt32.toNat_inj.1
        rw [UInt32.toNat_ofNat', UInt8.toNat_toUInt32]
        exact Nat.mod_eq_of_lt (source.toNat_lt.trans (by decide))
      · rw [Function.update_of_ne hlast]
        refine ih (by omega) (Nat.lt_of_le_of_ne (Nat.le_of_lt_succ hsource) fun heq => hlast ?_)
        rw [← heq, UInt8.ofNat_toNat]
  funext source
  exact hset 256 le_rfl source source.toNat_lt

theorem address_append (table : ℕ → UInt8) (os : List ℕ) (o : ℕ) (ioapicAddress : UInt64) :
    address table (os ++ [o]) ioapicAddress =
      if table o = 1 then (load32 table (o + 4)).toUInt64 else address table os ioapicAddress := by
  rw [address, List.reverse_append, List.reverse_singleton, List.singleton_append]
  by_cases ho : table o = 1
  · rw [List.find?_cons_of_pos (by simpa using ho), if_pos ho]
  · rw [List.find?_cons_of_neg (by simpa using ho), if_neg ho, ← address]

theorem redirect_append (table : ℕ → UInt8) (os : List ℕ) (o : ℕ) :
    redirect table (os ++ [o]) =
      if table o = 2 then Function.update (redirect table os) (table (o + 3)) (load32 table (o + 4))
      else redirect table os := by
  funext source
  rw [redirect, List.reverse_append, List.reverse_singleton, List.singleton_append]
  by_cases ho : table o = 2
  · rw [if_pos ho]
    by_cases hsource : table (o + 3) = source
    · rw [List.find?_cons_of_pos (by simp [ho, hsource]), ← hsource, Function.update_self]
    · rw [List.find?_cons_of_neg (by simp [hsource]), Function.update_of_ne (Ne.symm hsource), ← redirect]
  · rw [if_neg ho, List.find?_cons_of_neg (by simp [ho]), ← redirect]

/-- The last record counts. -/
theorem foldl_apply (table : ℕ → UInt8) (os : List ℕ) (ioapicAddress : UInt64) :
    os.foldl (apply table) (ioapicAddress, UInt8.toUInt32) =
      (address table os ioapicAddress, redirect table os) := by
  induction os using List.reverseRecOn with
  | nil => rfl
  | append_singleton os o ih =>
    rw [List.foldl_append, ih, List.foldl_cons, List.foldl_nil, address_append, redirect_append, apply]
    by_cases h1 : table o = 1
    · have h2 : table o ≠ 2 := by
        rw [h1]
        decide
      rw [if_pos h1, if_pos h1, if_neg h2]
    · rw [if_neg h1, if_neg h1]
      split_ifs <;> rfl

/-! ### The walk -/

theorem toNat_record_add (hlt : s.record.toNat < 2 ^ 32) {k : UInt64} (hk : k.toNat < 2 ^ 32) :
    (s.record + k).toNat = s.record.toNat + k.toNat := by
  rw [UInt64.toNat_add, Nat.mod_eq_of_lt (by omega)]

@[simp] theorem takeRecord_record (table : ℕ → UInt8) (s : MadtWalk) :
    (takeRecord table s).record = s.record := by
  unfold takeRecord
  split_ifs <;> rfl

theorem subset_takeRecord_reads (table : ℕ → UInt8) (s : MadtWalk) :
    s.reads ⊆ (takeRecord table s).reads := by
  unfold takeRecord
  split_ifs <;> intro p hp <;> simp [hp]

/-- What is done with a record. -/
theorem takeRecord_variables (hlt : s.record.toNat < 2 ^ 32) :
    ((takeRecord table s).ioapicAddress, (takeRecord table s).ioapicRedirects) =
      apply table (s.ioapicAddress, s.ioapicRedirects) s.record.toNat := by
  have h3 : (s.record + 3).toNat = s.record.toNat + 3 := toNat_record_add hlt (by decide)
  have h4 : (s.record + 4).toNat = s.record.toNat + 4 := toNat_record_add hlt (by decide)
  unfold takeRecord apply
  rw [h3, h4]
  split_ifs <;> rfl

theorem inTable_takeRecord (hlt : s.record.toNat < 2 ^ 32) :
    InTable table (takeRecord table s).reads ↔ InTable table s.reads ∧
      (table s.record.toNat = 1 ∨ table s.record.toNat = 2 →
        s.record.toNat + 8 ≤ (tableLength table).toNat) := by
  have h3 : (s.record + 3).toNat = s.record.toNat + 3 := toNat_record_add hlt (by decide)
  have h4 : (s.record + 4).toNat = s.record.toNat + 4 := toNat_record_add hlt (by decide)
  simp only [takeRecord, h3, h4]
  split_ifs with h1 h2
  · rw [inTable_append, inTable_wordAt]
    simp only [h1, true_or, true_implies]
    exact ⟨fun ⟨hword, hs⟩ => ⟨hs, by omega⟩, fun ⟨hs, hroom⟩ => ⟨by omega, hs⟩⟩
  · rw [List.cons_append, inTable_cons, inTable_append, inTable_wordAt]
    simp only [h2, or_true, true_implies]
    exact ⟨fun ⟨_, hword, hs⟩ => ⟨hs, by omega⟩, fun ⟨hs, hroom⟩ => ⟨by omega, by omega, hs⟩⟩
  · simp [h1, h2]

/-- **A turn.** -/
theorem turn_spec (hlt : s.record.toNat < (tableLength table).toNat) :
    (turn table s).record.toNat = s.record.toNat + (table (s.record.toNat + 1)).toNat ∧
      ((turn table s).ioapicAddress, (turn table s).ioapicRedirects) =
        apply table (s.ioapicAddress, s.ioapicRedirects) s.record.toNat ∧
      (InTable table (turn table s).reads ↔ InTable table s.reads ∧
        s.record.toNat + extent (table s.record.toNat) ≤ (tableLength table).toNat) := by
  have hlt32 : s.record.toNat < 2 ^ 32 := hlt.trans (tableLength table).toNat_lt
  have h1 : (s.record + 1).toNat = s.record.toNat + 1 := toNat_record_add hlt32 (by decide)
  have hlength : (table (s.record.toNat + 1)).toUInt64.toNat = (table (s.record.toNat + 1)).toNat :=
    UInt8.toNat_toUInt64 _
  have hsmall : (table (s.record.toNat + 1)).toUInt64.toNat < 2 ^ 32 := by
    rw [hlength]
    exact (UInt8.toNat_lt _).trans (by decide)
  refine ⟨?_, takeRecord_variables hlt32, ?_⟩
  · simp only [turn, takeRecord_record]
    rw [h1, toNat_record_add hlt32 hsmall, hlength]
  · have htake : InTable table (takeRecord table { s with reads := s.record.toNat :: s.reads }).reads ↔ _ :=
      inTable_takeRecord hlt32
    simp only [turn, takeRecord_record]
    rw [inTable_cons, htake, inTable_cons, h1, extent]
    dsimp only
    split_ifs with htype
    · simp only [htype, true_implies]
      exact ⟨fun ⟨_, ⟨_, hs⟩, hroom⟩ => ⟨hs, hroom⟩, fun ⟨hs, hroom⟩ => ⟨by omega, ⟨hlt, hs⟩, hroom⟩⟩
    · simp only [htype, false_implies, and_true]
      exact ⟨fun ⟨hroom, _, hs⟩ => ⟨hs, by omega⟩, fun ⟨hs, hroom⟩ => ⟨by omega, hlt, hs⟩⟩

theorem walkBody_end (h : s.record = (tableLength table).toUInt64) :
    walkBody table s = .inr { s with reads := wordAt 4 ++ s.reads } := if_pos h

theorem walkBody_turn (h : s.record ≠ (tableLength table).toUInt64) :
    walkBody table s = .inl (turn table { s with reads := wordAt 4 ++ s.reads }) := if_neg h

/-- **The walk along the records.** -/
theorem run_of_fills (h : Fills table o os) (hs : s.record.toNat = o) :
    ∃ s', WhileLoop.run (walkBody table) (os.length + 1) s = some s' ∧
      (s'.ioapicAddress, s'.ioapicRedirects) = os.foldl (apply table) (s.ioapicAddress, s.ioapicRedirects) ∧
      (InTable table s.reads → 8 ≤ (tableLength table).toNat →
        (∀ o ∈ os, o + extent (table o) ≤ (tableLength table).toNat) → InTable table s'.reads) := by
  induction h generalizing s with
  | done =>
    have hend : s.record = (tableLength table).toUInt64 := by
      rw [← UInt64.toNat_inj, hs]
      exact (UInt32.toNat_toUInt64 _).symm
    refine ⟨_, WhileLoop.run_succ_inr (walkBody_end hend) 0, rfl, fun hreads h8 _ => ?_⟩
    exact inTable_append.2 ⟨inTable_wordAt.2 (by omega), hreads⟩
  | @record o os hlt _ ih =>
    subst hs
    have hne : s.record ≠ (tableLength table).toUInt64 := by
      intro heq
      rw [heq, UInt32.toNat_toUInt64] at hlt
      exact absurd hlt (lt_irrefl _)
    let t : MadtWalk := { s with reads := wordAt 4 ++ s.reads }
    obtain ⟨hrecord, hvariables, hreads⟩ := turn_spec (s := t) hlt
    obtain ⟨s', hrun, hfold, hin⟩ := ih hrecord
    refine ⟨s', ?_, ?_, fun hs h8 hos => ?_⟩
    · rw [List.length_cons, WhileLoop.run_succ_inl (walkBody_turn hne)]
      exact hrun
    · rw [hfold, hvariables, List.foldl_cons]
    · rw [List.forall_mem_cons] at hos
      refine hin (hreads.2 ⟨?_, hos.1⟩) h8 hos.2
      exact inTable_append.2 ⟨inTable_wordAt.2 (by omega), hs⟩

/-- What has been read once has been read in the end. -/
theorem reads_subset (h : WhileLoop.run (walkBody table) fuel s = some s') : s.reads ⊆ s'.reads := by
  refine WhileLoop.run_subset MadtWalk.reads (fun t t' hb p hp => ?_) h
  have hword : p ∈ wordAt 4 ++ t.reads := List.mem_append_right _ hp
  by_cases hend : t.record = (tableLength table).toUInt64
  · rw [walkBody_end hend] at hb
    obtain rfl := Sum.inr.inj (hb.resolve_left Sum.inr_ne_inl)
    exact hword
  · rw [walkBody_turn hend] at hb
    obtain rfl := Sum.inl.inj (hb.resolve_right Sum.inl_ne_inr)
    exact List.mem_cons_of_mem _ (subset_takeRecord_reads table _ (List.mem_cons_of_mem _ hword))

/-- A walk that ends and has kept within the table has gone along records that fill it. -/
theorem fills_of_run (h : WhileLoop.run (walkBody table) fuel s = some s') (hin : InTable table s'.reads) :
    ∃ os, Fills table s.record.toNat os ∧ ∀ o ∈ os, o + extent (table o) ≤ (tableLength table).toNat := by
  induction fuel generalizing s with
  | zero => cases h
  | succ n ih =>
    by_cases hend : s.record = (tableLength table).toUInt64
    · refine ⟨[], ?_, fun o ho => absurd ho List.not_mem_nil⟩
      rw [hend, UInt32.toNat_toUInt64]
      exact .done
    · rw [WhileLoop.run_succ_inl (walkBody_turn hend)] at h
      have hreads := fun p hp => hin p (reads_subset h hp)
      obtain ⟨os, hfills, hos⟩ := ih h
      -- the type of the record has been read
      have hlt : s.record.toNat < (tableLength table).toNat := by
        apply hreads
        refine List.mem_cons_of_mem _ (subset_takeRecord_reads table _ List.mem_cons_self)
      obtain ⟨hrecord, -, hiff⟩ := turn_spec (s := { s with reads := wordAt 4 ++ s.reads }) hlt
      rw [hrecord] at hfills
      exact ⟨_, .record hlt hfills, List.forall_mem_cons.2 ⟨(hiff.1 hreads).2, hos⟩⟩

theorem Fills.le (h : Fills table o os) : o ≤ (tableLength table).toNat := by
  cases h with
  | done => exact le_rfl
  | record hlt _ => exact hlt.le

/-- **When the walk over the interrupt controllers is right.** It ends, has read no byte outside the table,
and leaves the last targets and the last address where the records fill the table: exactly when the
records do fill it, and each has the bytes that are looked at within the table. -/
theorem madt_walk_iff (table : ℕ → UInt8) (ioapicAddress : UInt64) (ioapicRedirects : UInt8 → UInt32) :
    (∃ fuel s, walk fuel table ioapicAddress ioapicRedirects = some s ∧ InTable table s.reads ∧
        ∀ os, Fills table 44 os →
          s.ioapicRedirects = redirect table os ∧ s.ioapicAddress = address table os ioapicAddress) ↔
      ∃ os, Fills table 44 os ∧ ∀ o ∈ os, o + extent (table o) ≤ (tableLength table).toNat := by
  constructor
  · rintro ⟨fuel, s, hrun, hin, -⟩
    exact fills_of_run hrun hin
  · rintro ⟨os, hfills, hos⟩
    have hwalk : ∀ {os}, Fills table 44 os → ∃ s,
        walk (os.length + 1) table ioapicAddress ioapicRedirects = some s ∧
        (s.ioapicAddress, s.ioapicRedirects) = (address table os ioapicAddress, redirect table os) ∧
        (InTable table [] → 8 ≤ (tableLength table).toNat →
          (∀ o ∈ os, o + extent (table o) ≤ (tableLength table).toNat) → InTable table s.reads) := by
      intro os hfills
      rw [walk, mapLinear_eq, ← foldl_apply]
      exact run_of_fills hfills rfl
    obtain ⟨s, hrun, -, hin⟩ := hwalk hfills
    have h8 : 8 ≤ (tableLength table).toNat := le_trans (by decide) hfills.le
    refine ⟨_, s, hrun, hin (List.forall_mem_nil _) h8 hos, fun os' hfills' => ?_⟩
    obtain ⟨s', hrun', hvariables, -⟩ := hwalk hfills'
    obtain rfl := WhileLoop.run_unique hrun hrun'
    exact ⟨congrArg Prod.snd hvariables, congrArg Prod.fst hvariables⟩

/-- A table of 46 bytes, all zero but for its length and the type and the length of its record. -/
def oneRecord (type length : UInt8) (p : ℕ) : UInt8 :=
  if p = 4 then 46 else if p = 44 then type else if p = 45 then length else 0

/-- With a record of length zero the walk never ends. And of a record of two bytes with type 1, at the end
of the table, the word is read that would begin two bytes behind the table. -/
theorem madt_walk_leaves_table :
    (∀ fuel, walk fuel (oneRecord 0 0) 0 (fun _ => 0) = none) ∧
      ∃ s, walk 2 (oneRecord 1 2) 0 (fun _ => 0) = some s ∧ 48 ∈ s.reads ∧
        (tableLength (oneRecord 1 2)).toNat = 46 := by
  constructor
  · intro fuel
    refine WhileLoop.run_eq_none (I := fun s => s.record = 44) (fun s hs => ⟨_, walkBody_turn ?_, ?_⟩) rfl fuel
    · rw [hs]
      decide
    · simp only [turn, takeRecord_record, hs]
      rfl
  · rw [walk, mapLinear_eq]
    let s : MadtWalk := ⟨44, 0, UInt8.toUInt32, wordAt 4⟩
    have hrun : WhileLoop.run (walkBody (oneRecord 1 2)) 2 ⟨44, 0, UInt8.toUInt32, []⟩ =
        some { turn (oneRecord 1 2) s with reads := wordAt 4 ++ (turn (oneRecord 1 2) s).reads } := by
      rw [WhileLoop.run_succ_inl (walkBody_turn (by decide))]
      exact WhileLoop.run_succ_inr (walkBody_end (by decide)) 0
    refine ⟨_, hrun, ?_, by decide⟩
    have hword : 48 ∈ (takeRecord (oneRecord 1 2) { s with reads := 44 :: s.reads }).reads := by
      rw [takeRecord, if_pos (by decide)]
      exact List.mem_append_left _ List.mem_cons_self
    exact List.mem_append_right _ (List.mem_cons_of_mem _ hword)

end Records

end MadtWalk

end Naul
