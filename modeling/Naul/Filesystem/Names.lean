import Naul.Allocator.Room
import Naul.Filesystem

/-!
# Are names keys?

Abstractly the filesystem is a list of entries. A creation puts an entry at the end, whatever the list
has under its name; `getFile` takes the first entry with a name, and `deleteFile` takes it out;
`checkFile` and `checkFolder` ask whether there is any. So the last entry of a name is not the one that
is found unless it is the first as well, and a name outlives its deletion when two entries have it.

* `entries` is the list, and the lemmas after it say what each function does to it;
* `names_are_keys_iff` says in which of the states that can be reached, and for which names, creation
  and deletion are what one expects of a key.

A run has the allocator answer each creation with blocks for the record and for the name that no entry
of the list has (`Proper`), and deletes names that are there; what comes of the deletion of another
name is a theorem about all registries (`ring_kept_iff`).
-/

namespace Naul

open LinkRing

/-- An entry without its addresses. -/
structure Entry where
  name : CString
  size : UInt64
  data : UInt64
  deriving DecidableEq

namespace Filesystem

/-- The entry at an address. -/
def entryAt (fs : Filesystem) (x : UInt64) : Entry := ⟨fs.nameOf x, (fs.file x).size, (fs.file x).data⟩

/-- The entries at the nodes of the ring, in order. -/
def entries (fs : Filesystem) (xs : List UInt64) : List Entry := xs.map fs.entryAt

/-- The first entry with the name. -/
def firstNamed (es : List Entry) (name : CString) : Option Entry := es.find? fun e => e.name = name

/-- The entries with the name. -/
def allNamed (es : List Entry) (name : CString) : List Entry := es.filter fun e => e.name = name

/-- The addresses are those of no node of the ring, and of none of their names. -/
def Fresh (fs : Filesystem) (xs : List UInt64) (file text : UInt64) : Prop :=
  file ∉ fs.files :: xs ∧ ∀ x ∈ xs, (fs.file x).name ≠ text

section Entries

variable {fs fs' : Filesystem} {xs : List UInt64} {t t' : Allocator} {name : CString}
  {file text size data p : UInt64} {fuel : ℕ}

theorem checkEntry_eq (h : IsRing fs.links fs.files xs) (test : UInt64 → Bool) (name : CString) :
    fs.checkEntry (xs.length + 1) test name =
      some ((fs.entries xs).any fun e => e.name = name && test e.data) := by
  rw [checkEntry, run_iterate h]
  simp only [compareStrings_eq_zero_iff]
  rw [foldUntil_any, entries, List.any_map]
  rfl

/-- What it returns, with any fuel. -/
theorem checkEntry_iff (h : IsRing fs.links fs.files xs) {test : UInt64 → Bool} {b : Bool} :
    (∃ k, fs.checkEntry k test name = some b) ↔
      ((fs.entries xs).any fun e => e.name = name && test e.data) = b := by
  constructor
  · rintro ⟨k, hk⟩
    exact (WhileLoop.run_unique hk (checkEntry_eq h test name)).symm
  · rintro rfl
    exact ⟨_, checkEntry_eq h test name⟩

theorem find_entries (fs : Filesystem) (xs : List UInt64) (name : CString) :
    (xs.find? fun x => decide (fs.nameOf x = name)).map fs.entryAt =
      firstNamed (fs.entries xs) name := by
  rw [firstNamed, entries, List.find?_map]
  rfl

/-- `getFile` finds the first entry with the name. -/
theorem getFile_eq (h : IsRing fs.links fs.files xs) {e : Entry}
    (he : firstNamed (fs.entries xs) name = some e) :
    fs.getFile (xs.length + 1) name = some (e.data, e.size) := by
  rw [← find_entries, Option.map_eq_some_iff] at he
  obtain ⟨x, hx, rfl⟩ := he
  simp only [getFile, compareStrings_eq_zero_iff]
  rw [findElement_eq h, hx]
  rfl

/-- A creation puts the entry at the end. -/
theorem entries_insert (h : IsRing fs.links fs.files xs) (hfresh : fs.Fresh xs file text) (name : CString)
    (size data : UInt64) :
    IsRing (fs.insert file text name size data).links (fs.insert file text name size data).files
        (xs ++ [file]) ∧
      (fs.insert file text name size data).entries (xs ++ [file]) =
        fs.entries xs ++ [⟨name, size, data⟩] := by
  refine ⟨isRing_linkList h hfresh.1, ?_⟩
  simp only [entries, List.map_append, List.map_cons, List.map_nil]
  congr 1
  · refine List.map_congr_left fun x hx => ?_
    have hxf : x ≠ file := fun heq => hfresh.1 (heq ▸ List.mem_cons_of_mem _ hx)
    simp [entryAt, nameOf, insert, hxf, hfresh.2 x hx]
  · simp [entryAt, nameOf, insert]

/-- `deleteFile` takes out the first entry with the name. -/
theorem entries_unlinkFile (h : IsRing fs.links fs.files xs) (hmem : ∃ x ∈ xs, fs.nameOf x = name) :
    ∃ x fs' xs', fs.unlinkFile (xs.length + 1) name = some (x, fs') ∧ IsRing fs'.links fs'.files xs' ∧
      fs'.entries xs' = (fs.entries xs).eraseP fun e => e.name = name := by
  obtain ⟨w, hw, hwname⟩ := hmem
  obtain ⟨x, ys, zs, hys, hx, hxs, -⟩ := List.exists_of_eraseP hw
    (p := fun x => decide (fs.nameOf x = name)) (decide_eq_true hwname)
  subst hxs
  have hfind : findElement ((ys ++ x :: zs).length + 1) fs.links fs.files
      (fun x => decide (fs.nameOf x = name)) = some x :=
    findElement_first h (by simpa using hys) hx
  refine ⟨x, { fs with links := unlinkList fs.links x }, ys ++ zs, ?_, isRing_unlinkList h, ?_⟩
  · simp only [unlinkFile, unlinkFound, compareStrings_eq_zero_iff, hfind, bind, Option.bind_some, pure]
  · have hnone : ∀ e ∈ fs.entries ys, ¬ (decide (e.name = name) = true) := by
      intro e he
      obtain ⟨y, hy, rfl⟩ := List.mem_map.1 he
      exact hys y hy
    simp only [entries, List.map_append, List.map_cons] at hnone ⊢
    rw [List.eraseP_append_right _ hnone,
      List.eraseP_cons_of_pos (p := fun e : Entry => decide (e.name = name)) hx]
    rfl

/-- With no entries it does nothing to the list. -/
theorem unlinkFile_nil (h : IsRing fs.links fs.files []) (name : CString) :
    fs.unlinkFile 1 name = some (fs.files, fs) := by
  have hfind := findElement_absent h (p := fun x => decide (compareStrings name.bytes
    (fs.nameOf x).bytes = 0)) fun x hx => absurd hx List.not_mem_nil
  rw [List.length_nil] at hfind
  simp only [unlinkFile, unlinkFound, hfind, bind, Option.bind_some, pure, unlinkList_head_nil h]

/-- What `createFile` returns has been put at the end. -/
theorem createFile_eq_some (h : fs.createFile fuel name size t = some (p, fs', t')) :
    ∃ file t₁ text t₂, t.allocate fuel sizeofFile = some (file, t₁) ∧
      allocateName fuel name t₁ = some (text, t₂) ∧ t₂.allocate fuel size = some (p, t') ∧
      fs' = fs.insert file text name size p := by
  simp only [createFile, bind, Option.bind_eq_some_iff, pure, Option.some.injEq, Prod.mk.injEq] at h
  obtain ⟨⟨file, t₁⟩, hfile, ⟨text, t₂⟩, htext, ⟨data, t₃⟩, hdata, rfl, rfl, rfl⟩ := h
  exact ⟨file, t₁, text, t₂, hfile, htext, hdata, rfl⟩

theorem createFolder_eq_some (h : fs.createFolder fuel name t = some (fs', t')) :
    ∃ file t₁ text, t.allocate fuel sizeofFile = some (file, t₁) ∧
      allocateName fuel name t₁ = some (text, t') ∧ fs' = fs.insert file text name 0 0 := by
  simp only [createFolder, bind, Option.bind_eq_some_iff, pure, Option.some.injEq, Prod.mk.injEq] at h
  obtain ⟨⟨file, t₁⟩, hfile, ⟨text, t₂⟩, htext, rfl, rfl⟩ := h
  exact ⟨file, t₁, text, hfile, htext, rfl⟩

/-- The section of `deleteFile` under the lock is all it does to the list. -/
theorem deleteFile_eq_some (h : fs.deleteFile fuel name t = some (fs', t')) :
    ∃ x, fs.unlinkFile fuel name = some (x, fs') := by
  simp only [deleteFile, bind, Option.bind_eq_some_iff, pure, Option.some.injEq, Prod.mk.injEq] at h
  obtain ⟨⟨x, fs₁⟩, hunlink, t₁, -, t₂, -, t₃, -, rfl, rfl⟩ := h
  exact ⟨x, hunlink⟩

theorem unlinkFile_unique {n : ℕ} {r r' : UInt64 × Filesystem} (h : fs.unlinkFile fuel name = some r)
    (h' : fs.unlinkFile n name = some r') : r = r' := by
  simp only [unlinkFile, unlinkFound, bind, Option.bind_eq_some_iff, pure, Option.some.injEq] at h h'
  obtain ⟨-, ⟨x, hx, rfl⟩, rfl⟩ := h
  obtain ⟨-, ⟨y, hy, rfl⟩, rfl⟩ := h'
  rw [WhileLoop.run_unique hx hy]

theorem getFile_unique {n : ℕ} {r r' : UInt64 × UInt64} (h : fs.getFile fuel name = some r)
    (h' : fs.getFile n name = some r') : r = r' := by
  simp only [getFile, bind, Option.bind_eq_some_iff, pure, Option.some.injEq] at h h'
  obtain ⟨x, hx, rfl⟩ := h
  obtain ⟨y, hy, rfl⟩ := h'
  rw [WhileLoop.run_unique hx hy]

/-- With a table that counts its records, `createFile` returns. -/
theorem createFile_total (ht : t.Counted) (fs : Filesystem) (name : CString) (size : UInt64) :
    ∃ fuel r, fs.createFile fuel name size t = some r := by
  have htotal : ∀ {u : Allocator} (_ : u.Counted) (amount : UInt64),
      ∃ n value u', u.allocate n amount = some (value, u') ∧ u'.Counted := by
    intro u hu amount
    obtain ⟨n, value, u', h⟩ := Allocator.reserve_total hu Allocator.plain_advances
      (Allocator.nextFits_plain u amount)
    obtain ⟨slot, -, -, hrec⟩ := Allocator.reserve_recorded hu h
    exact ⟨n, value, u', h, hrec.counted hu⟩
  obtain ⟨k, file, t₁, hfile, h₁⟩ := htotal ht sizeofFile
  obtain ⟨m, text, t₂, htext, h₂⟩ := htotal h₁ (UInt64.ofNat (stringLength name.bytes + 1))
  obtain ⟨n, data, t₃, hdata, -⟩ := htotal h₂ size
  have hfile' := Allocator.reserve_mono (show k ≤ max k (max m n) by omega) hfile
  have htext' := Allocator.reserve_mono (show m ≤ max k (max m n) by omega) htext
  have hdata' := Allocator.reserve_mono (show n ≤ max k (max m n) by omega) hdata
  refine ⟨max k (max m n), (data, fs.insert file text name size data, t₃), ?_⟩
  simp only [createFile, allocateName, Allocator.allocate, hfile', htext', hdata', bind,
    Option.bind_some, pure]

/-- The tables between the three allocations of `createFile`. -/
theorem createFile_tables (ht : t.Counted) (h : fs.createFile fuel name size t = some (p, fs', t')) :
    ∃ file t₁ text t₂, t.allocate fuel sizeofFile = some (file, t₁) ∧
      allocateName fuel name t₁ = some (text, t₂) ∧ t₂.allocate fuel size = some (p, t') ∧
      t₁.Counted ∧ t₂.Counted ∧ t.live ⊆ t₂.live ∧
      ∀ i ∈ t.live, t₂.allocated i = t.allocated i := by
  obtain ⟨file, t₁, text, t₂, hfile, htext, hdata, -⟩ := createFile_eq_some h
  obtain ⟨slot₁, -, -, hrec₁⟩ := Allocator.reserve_recorded ht hfile
  have ht₁ := hrec₁.counted ht
  obtain ⟨slot₂, -, -, hrec₂⟩ := Allocator.reserve_recorded ht₁ htext
  have hsub₁ : t.live ⊆ t₁.live := hrec₁.live_eq ▸ Finset.subset_insert _ _
  have hsub₂ : t₁.live ⊆ t₂.live := hrec₂.live_eq ▸ Finset.subset_insert _ _
  exact ⟨file, t₁, text, t₂, hfile, htext, hdata, ht₁, hrec₂.counted ht₁, hsub₁.trans hsub₂,
    fun i hi => (hrec₂.allocated_of_live (hsub₁ hi)).trans (hrec₁.allocated_of_live hi)⟩

/-- A file gets an address at which a record begins already only where one of the two blocks has no
bytes, or goes beyond the last address. -/
theorem createFile_shares (ht : t.Counted) (h : fs.createFile fuel name size t = some (p, fs', t'))
    {i : ℕ} (hi : i ∈ t.live) (hstart : (t.allocated i).start = p) :
    p + size ≤ p ∨ (t.allocated i).end' ≤ (t.allocated i).start := by
  obtain ⟨file, t₁, text, t₂, -, -, hdata, -, ht₂, hsub, hsame⟩ := createFile_tables ht h
  obtain ⟨slot, hfind, -, -⟩ := Allocator.reserve_recorded ht₂ hdata
  have hclear := Allocator.findAddress_clear ht₂ hfind i (hsub hi)
  rw [hsame i hi] at hclear
  unfold Allocator.Clear at hclear
  rw [hstart] at hclear ⊢
  exact hclear

theorem createFile_le {bound : ℕ} (ht : t.Counted) (hends : t.EndsBy bound)
    (hroom : bound + sizeofFile.toNat + (UInt64.ofNat (stringLength name.bytes + 1)).toNat + size.toNat <
      2 ^ 64) (h : fs.createFile fuel name size t = some (p, fs', t')) :
    p.toNat ≤ bound + sizeofFile.toNat + (UInt64.ofNat (stringLength name.bytes + 1)).toNat := by
  obtain ⟨file, t₁, text, t₂, hfile, htext, hdata, ht₁, ht₂, -, -⟩ := createFile_tables ht h
  have hends₁ := hends.allocate ht (by omega) hfile
  have hends₂ := hends₁.2.allocate ht₁ (by omega) htext
  exact (hends₂.2.allocate ht₂ hroom hdata).1

/-- A file of no bytes gets the least address inside no record. -/
theorem createFile_zero_least {bound : ℕ} (ht : t.Counted) (hends : t.EndsBy bound)
    (hroom : bound + sizeofFile.toNat + (UInt64.ofNat (stringLength name.bytes + 1)).toNat < 2 ^ 64)
    (h : fs.createFile fuel name 0 t = some (p, fs', t')) : IsLeast {v | t.Usable 0 v} p.toNat := by
  obtain ⟨file, t₁, text, t₂, hfile, htext, hdata, ht₁, ht₂, -, -⟩ := createFile_tables ht h
  have hends₁ := hends.allocate ht (by omega) hfile
  have hends₂ := hends₁.2.allocate ht₁ hroom htext
  have hdata' := Allocator.allocate_zero_least ht₂ hdata
  have htext' := Allocator.isLeast_usable_zero ht₁ htext (by omega) hdata'
  exact Allocator.isLeast_usable_zero ht hfile (by omega) htext'

end Entries

/-! ### Creation and deletion, abstractly -/

section Keys

variable {es : List Entry} {name : CString} {size p : UInt64}

/-- The last entry is the one that is found, or one like it, exactly when no other comes first. -/
theorem firstNamed_append_iff :
    (∃ e, firstNamed (es ++ [⟨name, size, p⟩]) name = some e ∧ e.data = p ∧ e.size = size) ↔
      ∀ e ∈ firstNamed es name, e.data = p ∧ e.size = size := by
  unfold firstNamed
  rw [List.find?_append]
  cases es.find? fun e => e.name = name with
  | none => simp
  | some e => simp

/-- The name is gone exactly when one entry had it. -/
theorem eraseP_any_iff (hmem : ∃ e ∈ es, e.name = name) :
    ((es.eraseP fun e => e.name = name).any fun e => e.name = name) = false ↔
      (allNamed es name).length = 1 := by
  obtain ⟨e, he, hname⟩ := hmem
  obtain ⟨x, ys, zs, hys, hx, hes, herase⟩ := List.exists_of_eraseP he (p := fun e => e.name = name)
    (decide_eq_true hname)
  unfold allNamed
  rw [herase, hes]
  have hfilter : ys.filter (fun e => e.name = name) = [] := by
    rw [List.filter_eq_nil_iff]
    exact hys
  rw [List.filter_append, hfilter,
    List.filter_cons_of_pos (p := fun e : Entry => decide (e.name = name)) hx, List.nil_append,
    List.length_cons]
  simp only [Nat.add_eq_right, List.length_eq_zero_iff, List.filter_eq_nil_iff, List.any_eq_false,
    List.mem_append]
  constructor
  · exact fun h e he => h e (Or.inr he)
  · rintro h e (he | he)
    · exact hys e he
    · exact h e he

/-- `checkFile` and `checkFolder` are both false exactly when no entry has the name. -/
theorem checks_false_iff :
    ((es.any fun e => e.name = name && decide (e.data ≠ 0)) = false ∧
        (es.any fun e => e.name = name && decide (e.data = 0)) = false) ↔
      (es.any fun e => e.name = name) = false := by
  simp only [List.any_eq_false, Bool.and_eq_true, decide_eq_true_eq, not_and]
  constructor
  · rintro ⟨hfile, hfolder⟩ e he hname
    by_cases hdata : e.data = 0
    · exact hfolder e he hname hdata
    · exact hfile e he hname hdata
  · intro h
    exact ⟨fun e he hname => absurd hname (h e he), fun e he hname => absurd hname (h e he)⟩

end Keys

/-! ### Runs -/

/-- The filesystem and the allocator's table. -/
structure Session where
  fs : Filesystem
  table : Allocator

inductive Op
  | createFile (name : CString) (size : UInt64)
  | createFolder (name : CString)
  | deleteFile (name : CString)
  /-- Others have called the allocator. -/
  | others (table : Allocator)

def Op.step (fuel : ℕ) (s : Session) : Op → Option Session
  | .createFile name size => do
    let (_, fs, table) ← s.fs.createFile fuel name size s.table
    return ⟨fs, table⟩
  | .createFolder name => do
    let (fs, table) ← s.fs.createFolder fuel name s.table
    return ⟨fs, table⟩
  | .deleteFile name => do
    let (fs, table) ← s.fs.deleteFile fuel name s.table
    return ⟨fs, table⟩
  | .others table => some { s with table := table }

/-- The blocks the allocator gives a creation for the record and for the name are no entry's. -/
def AnswersFresh (s : Session) (fuel : ℕ) (name : CString) (xs : List UInt64) : Prop :=
  ∀ file t text t', s.table.allocate fuel sizeofFile = some (file, t) →
    allocateName fuel name t = some (text, t') → s.fs.Fresh xs file text

/-- A creation gets fresh blocks, and a deletion is one of a name that is there, or nothing is. -/
def Op.Proper (fuel : ℕ) (s : Session) (op : Op) : Prop :=
  ∀ xs, IsRing s.fs.links s.fs.files xs →
    match op with
    | .createFile name _ | .createFolder name => AnswersFresh s fuel name xs
    | .deleteFile name => xs = [] ∨ ∃ x ∈ xs, s.fs.nameOf x = name
    | .others _ => True

theorem ring_step {fuel : ℕ} {s s' : Session} {op : Op} {xs : List UInt64}
    (h : IsRing s.fs.links s.fs.files xs) (hop : op.Proper fuel s) (hstep : op.step fuel s = some s') :
    ∃ xs', IsRing s'.fs.links s'.fs.files xs' := by
  have hproper := hop xs h
  cases op with
  | createFile name size =>
    simp only [Op.step, bind, Option.bind_eq_some_iff, pure, Option.some.injEq] at hstep
    obtain ⟨⟨p, fs, table⟩, hcreate, rfl⟩ := hstep
    obtain ⟨file, t, text, t', hfile, htext, -, rfl⟩ := createFile_eq_some hcreate
    exact ⟨_, (entries_insert h (hproper file t text t' hfile htext) name size p).1⟩
  | createFolder name =>
    simp only [Op.step, bind, Option.bind_eq_some_iff, pure, Option.some.injEq] at hstep
    obtain ⟨⟨fs, table⟩, hcreate, rfl⟩ := hstep
    obtain ⟨file, t, text, hfile, htext, rfl⟩ := createFolder_eq_some hcreate
    exact ⟨_, (entries_insert h (hproper file t text table hfile htext) name 0 0).1⟩
  | deleteFile name =>
    simp only [Op.step, bind, Option.bind_eq_some_iff, pure, Option.some.injEq] at hstep
    obtain ⟨⟨fs, table⟩, hdelete, rfl⟩ := hstep
    obtain ⟨x, hunlink⟩ := deleteFile_eq_some hdelete
    rcases hproper with rfl | hmem
    · cases unlinkFile_unique hunlink (unlinkFile_nil h name)
      exact ⟨[], h⟩
    · obtain ⟨y, fs', xs', hunlink', hring, -⟩ := entries_unlinkFile h hmem
      cases unlinkFile_unique hunlink hunlink'
      exact ⟨xs', hring⟩
  | others table =>
    obtain rfl := Option.some.inj hstep
    exact ⟨xs, h⟩

/-- The allocator's table counts its records, the block of an entry that has bytes is one of them, and above
them there is room for another file. -/
structure Session.Backed (s : Session) (xs : List UInt64) (name : CString) (size : UInt64) : Prop where
  counted : s.table.Counted
  block : ∀ e ∈ s.fs.entries xs, e.size ≠ 0 →
    ∃ i ∈ s.table.live, (s.table.allocated i).start = e.data ∧ e.data < (s.table.allocated i).end'
  room : ∃ bound, s.table.EndsBy bound ∧
    bound + sizeofFile.toNat + (UInt64.ofNat (stringLength name.bytes + 1)).toNat + size.toNat < 2 ^ 64

/-- The second entry of a name is like the first only where both are empty, at the least address inside no
record. -/
theorem Session.Backed.same_iff {s : Session} {xs : List UInt64} {name : CString} {size p : UInt64} {fuel : ℕ}
    {fs : Filesystem} {t : Allocator} (h : s.Backed xs name size)
    (hcreate : s.fs.createFile fuel name size s.table = some (p, fs, t)) {e : Entry}
    (he : e ∈ s.fs.entries xs) :
    (e.data = p ∧ e.size = size) ↔
      size = 0 ∧ e.size = 0 ∧ IsLeast {v | s.table.Usable 0 v} e.data.toNat := by
  obtain ⟨bound, hends, hroom⟩ := h.room
  constructor
  · rintro ⟨rfl, rfl⟩
    have hzero : e.size = 0 := by
      by_contra hsize
      obtain ⟨i, hi, hstart, hlt⟩ := h.block e he hsize
      have hpos := UInt64.toNat_inj.not.2 hsize
      have hdata := createFile_le h.counted hends hroom hcreate
      rw [UInt64.lt_iff_toNat_lt] at hlt
      rcases createFile_shares h.counted hcreate hi hstart with hwrap | hempty
      · rw [UInt64.le_iff_toNat_le, UInt64.toNat_add, Nat.mod_eq_of_lt (by omega)] at hwrap
        rw [UInt64.toNat_zero] at hpos
        omega
      · rw [hstart, UInt64.le_iff_toNat_le] at hempty
        omega
    rw [hzero] at hcreate hroom
    exact ⟨hzero, hzero, createFile_zero_least h.counted hends (by omega) hcreate⟩
  · rintro ⟨rfl, hzero, hleast⟩
    have hp := createFile_zero_least h.counted hends (by omega) hcreate
    exact ⟨UInt64.toNat_inj.1 (hleast.unique hp), hzero⟩

/-- What a created file has given to its name, in one state. -/
theorem getFile_created_iff {s : Session} {xs : List UInt64} (h : IsRing s.fs.links s.fs.files xs) {n : ℕ}
    {fs : Filesystem} {t : Allocator} (hfresh : AnswersFresh s n name xs)
    (hcreate : s.fs.createFile n name size s.table = some (p, fs, t)) :
    (∃ k, fs.getFile k name = some (p, size)) ↔
      ∀ e ∈ firstNamed (s.fs.entries xs) name, e.data = p ∧ e.size = size := by
  obtain ⟨file, t₁, text, t₂, hfile, htext, -, rfl⟩ := createFile_eq_some hcreate
  obtain ⟨hring, hentries⟩ := entries_insert h (hfresh file t₁ text t₂ hfile htext) name size p
  rw [← firstNamed_append_iff, ← hentries]
  constructor
  · rintro ⟨k, hk⟩
    have hmem : ∃ e ∈ s.fs.entries xs ++ [⟨name, size, p⟩], decide (e.name = name) = true :=
      ⟨_, List.mem_append_right _ List.mem_cons_self, decide_eq_true rfl⟩
    obtain ⟨e, he⟩ := Option.isSome_iff_exists.1 (List.find?_isSome.2 hmem)
    rw [← hentries] at he
    have hres := getFile_unique hk (getFile_eq hring he)
    rw [Prod.mk.injEq] at hres
    exact ⟨e, he, hres.1.symm, hres.2.symm⟩
  · rintro ⟨e, he, rfl, rfl⟩
    exact ⟨_, getFile_eq hring he⟩

/-- What a deletion leaves of a name, in one state. -/
theorem unlinkFile_absent_iff {fs : Filesystem} {xs : List UInt64} (h : IsRing fs.links fs.files xs)
    (hfile : ∃ k, fs.checkFile k name = some true) :
    ∃ n x fs', fs.unlinkFile n name = some (x, fs') ∧
      (((∃ k, fs'.checkFile k name = some false) ∧ ∃ k, fs'.checkFolder k name = some false) ↔
        (allNamed (fs.entries xs) name).length = 1) := by
  simp only [checkFile, checkEntry_iff h, List.any_eq_true] at hfile
  obtain ⟨e, he, hname⟩ := hfile
  rw [Bool.and_eq_true, decide_eq_true_eq] at hname
  have hmem : ∃ x ∈ xs, fs.nameOf x = name := by
    obtain ⟨x, hx, rfl⟩ := List.mem_map.1 he
    exact ⟨x, hx, hname.1⟩
  obtain ⟨x, fs', xs', hunlink, hring, hentries⟩ := entries_unlinkFile h hmem
  refine ⟨_, x, fs', hunlink, ?_⟩
  rw [← eraseP_any_iff ⟨e, he, hname.1⟩, ← hentries, ← checks_false_iff]
  simp only [checkFile, checkFolder, checkEntry_iff hring]

/-- **When names are keys.** In every state of a run that starts with no entries, whatever has been
created and deleted: `createFile` makes an entry that `getFile` finds exactly when the first entry
that has the name already, if there is one, has the same address and size; where blocks that are in use
are not handed out again, exactly when there is none, or both files are empty and the first one is where
empty files are put; and the deletion of a name that `checkFile` finds leaves it neither to `checkFile`
nor to `checkFolder` exactly when one entry has it. -/
theorem names_are_keys_iff {fuel : ℕ} {s s' : Session} {ops : List Op}
    (h0 : IsRing s.fs.links s.fs.files []) (hC : Trace.Along (Op.step fuel) (Op.Proper fuel) s ops)
    (hrun : Trace.run (Op.step fuel) s ops = some s') :
    ∃ xs, IsRing s'.fs.links s'.fs.files xs ∧
      (∀ n name size p fs t, AnswersFresh s' n name xs →
        s'.fs.createFile n name size s'.table = some (p, fs, t) →
          ((∃ k, fs.getFile k name = some (p, size)) ↔
            ∀ e ∈ firstNamed (s'.fs.entries xs) name, e.data = p ∧ e.size = size)) ∧
      (∀ n name size p fs t, AnswersFresh s' n name xs → s'.Backed xs name size →
        s'.fs.createFile n name size s'.table = some (p, fs, t) →
          ((∃ k, fs.getFile k name = some (p, size)) ↔
            ∀ e ∈ firstNamed (s'.fs.entries xs) name,
              size = 0 ∧ e.size = 0 ∧ IsLeast {v | s'.table.Usable 0 v} e.data.toNat)) ∧
      ∀ name, (∃ k, s'.fs.checkFile k name = some true) →
        ∃ n x fs, s'.fs.unlinkFile n name = some (x, fs) ∧
          (((∃ k, fs.checkFile k name = some false) ∧ ∃ k, fs.checkFolder k name = some false) ↔
            (allNamed (s'.fs.entries xs) name).length = 1) := by
  obtain ⟨xs, h⟩ := Trace.run_invariant_along (I := fun s => ∃ xs, IsRing s.fs.links s.fs.files xs)
    (fun s op s' ⟨xs, h⟩ hop hstep => ring_step h hop hstep) ⟨[], h0⟩ hC hrun
  refine ⟨xs, h, fun n name size p fs t hfresh hcreate => getFile_created_iff h hfresh hcreate,
    fun n name size p fs t hfresh hbacked hcreate => ?_, fun name hfile => unlinkFile_absent_iff h hfile⟩
  rw [getFile_created_iff h hfresh hcreate]
  exact forall₂_congr fun e he => hbacked.same_iff hcreate (List.mem_of_find?_eq_some he)

/-- No entries, and no records. -/
def noFiles : Session where
  fs := ⟨0, ⟨fun _ => 0, fun _ => 0⟩, fun _ => ⟨0, 0, 0⟩, fun _ => folderName⟩
  table := Allocator.initAllocator fun _ => ⟨false, 0, 0⟩

theorem isRing_noFiles : IsRing noFiles.fs.links noFiles.fs.files [] :=
  ⟨List.nodup_singleton _, by simp [noFiles, Linked]⟩

/-- One file is created: its name is a key. -/
theorem names_are_keys_oneFile :
    ∃ s, Trace.run (Op.step 40) noFiles [.createFile childName 1] = some s ∧
      ∃ xs, IsRing s.fs.links s.fs.files xs ∧ (allNamed (s.fs.entries xs) childName).length = 1 := by
  have hC : Trace.Along (Op.step 40) (Op.Proper 40) noFiles [.createFile childName 1] := by
    refine ⟨fun xs h file t text t' hfile htext => ?_, fun _ _ => trivial⟩
    obtain rfl := isRing_unique h isRing_noFiles
    have hanswer : (noFiles.table.allocate 40 sizeofFile).map Prod.fst = some 0x1000000 := by decide
    rw [hfile, Option.map_some, Option.some.injEq] at hanswer
    subst hanswer
    exact ⟨by decide, fun x hx => absurd hx List.not_mem_nil⟩
  have hdeleted : ((Trace.run (Op.step 40) noFiles [.createFile childName 1]).bind fun s =>
      (s.fs.checkFile 40 childName).bind fun b => (s.fs.unlinkFile 40 childName).bind fun r =>
        (r.2.checkFile 40 childName).bind fun b' =>
          (r.2.checkFolder 40 childName).map fun b'' => (b, b', b'')) =
        some (true, false, false) := by decide
  simp only [Option.bind_eq_some_iff, Option.map_eq_some_iff, Prod.mk.injEq] at hdeleted
  obtain ⟨s, hrun, b, hfile, ⟨x, fs⟩, hunlink, b', hfile', b'', hfolder', rfl, rfl, rfl⟩ := hdeleted
  obtain ⟨xs, hring, -, -, hkeys⟩ := names_are_keys_iff isRing_noFiles hC hrun
  obtain ⟨n, y, fs', hunlink', hiff⟩ := hkeys childName ⟨40, hfile⟩
  cases unlinkFile_unique hunlink hunlink'
  exact ⟨s, hrun, xs, hring, hiff.1 ⟨⟨40, hfile'⟩, 40, hfolder'⟩⟩

/-- Of two files of one name the second is not found: `getFile` has the address and the size of the
first. After the deletion of one of them the name is still that of a file. -/
theorem second_file_shadowed :
    ((Trace.run (Op.step 40) noFiles [.createFile childName 1]).bind fun s =>
        (s.fs.createFile 40 childName 2 s.table).bind fun r =>
          (r.2.1.getFile 40 childName).map fun q => (r.1, q)) = some (0x100005b, 0x100002d, 1) ∧
      ((Trace.run (Op.step 40) noFiles
          [.createFile childName 1, .createFile childName 2, .deleteFile childName]).bind fun s =>
        s.fs.checkFile 40 childName) = some true := by
  decide

end Filesystem

end Naul
