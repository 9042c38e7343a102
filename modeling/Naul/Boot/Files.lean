import Naul.Allocator.Room
import Naul.Boot.Import
import Naul.Filesystem.Deletion
import Naul.Mem

/-!
# The filesystem at boot (`os/src/filesystem.c`)

`initFilesystem` creates the root folder, whose name is empty, and then an entry for each element of the
array that the boot code has filled. The names and the contents in the array lie in the boot code's
memory, which is not the allocator's.

`Installed` is what holds of the filesystem after some elements: an entry for each, in their order, and
for a file its contents in the block for its data. A record ends at most as far behind those there were
as the bytes asked for since (`EndsBy`), so the blocks stay within the address space as long as
all of them together fit (`fileSpace`).
-/

namespace Naul

open LinkRing

/-- `information.fileData[i].name`. -/
def InitFile.cstring (f : InitFile) : CString :=
  ⟨f.text, fun h => by simpa using List.mem_takeWhile_imp h⟩

namespace Filesystem

/-- The filesystem, the allocator's table, and the memory that contents are in. -/
structure Loaded extends Session where
  memory : Cells UInt8

/-- The name of the root folder. -/
def rootName : CString := ⟨[], List.not_mem_nil⟩

/-- The body of the loop of `initFilesystem`. -/
def addFile (fuel : ℕ) (s : Loaded) (f : InitFile) : Option Loaded :=
  match f.data with
  | none => (s.fs.createFolder fuel f.cstring s.table).map fun r => ⟨⟨r.1, r.2⟩, s.memory⟩
  | some data => (s.fs.createFile fuel f.cstring f.size s.table).map fun r =>
      ⟨⟨r.2.1, r.2.2⟩, copyMemoryFrom (data.take f.size.toNat) r.1.toNat s.memory⟩

/-- `initFilesystem()`. -/
def initFilesystem (fuel : ℕ) (information : FileTable) (s : Loaded) : Option Loaded := do
  let (fs, table) ← s.fs.createFolder fuel rootName s.table
  Trace.run (addFile fuel) ⟨⟨fs, table⟩, s.memory⟩
    ((List.range information.fileCount).map information.fileData.cell)

/-- The bytes that are allocated for an entry of a name, without the data. -/
def nameSpace (name : CString) : ℕ := sizeofFile.toNat + (name.bytes.length + 1)

/-- The entry is a file with these contents, or a folder, of this name. -/
def Shows (m : Cells UInt8) (e : Entry) : CString × Option (List UInt8) → Prop
  | (name, none) => e.name = name ∧ e.data = 0
  | (name, some data) => e.name = name ∧ e.data ≠ 0 ∧ e.size.toNat = data.length ∧
      e.data.toNat + data.length < 2 ^ 64 ∧ m.Has e.data.toNat data

/-- The filesystem has these entries, and no record ends above `E`. -/
structure Installed (s : Loaded) (listed : List (CString × Option (List UInt8))) (E : ℕ) : Prop where
  kept : ∃ made xs, Kept ⟨s.toSession, made⟩ xs ∧ List.Forall₂ (Shows s.memory) (s.fs.entries xs) listed
  ends : s.table.EndsBy E
  /-- The variable `files` lies in memory that is not handed out. -/
  head : ∃ i ∈ s.table.live, s.fs.files.toNat ∈ (s.table.allocated i).range

section Creation

variable {s : Store} {xs : List UInt64} {name : CString} {size data : UInt64} {E fuel : ℕ}
  {fs : Filesystem} {t t₁ t₂ : Allocator} {file text : UInt64}

/-- The blocks for an entry and for its name. -/
theorem allocate_entry (hends : t.EndsBy E) (ht : t.Counted) (hroom : E + nameSpace name < 2 ^ 64)
    (hfile : t.allocate fuel sizeofFile = some (file, t₁))
    (htext : allocateName fuel name t₁ = some (text, t₂)) :
    file.toNat ≤ E ∧ text.toNat ≤ E + sizeofFile.toNat ∧ t₂.EndsBy (E + nameSpace name) := by
  rw [nameSpace] at hroom ⊢
  obtain ⟨hadds, -⟩ := Allocator.allocate_adds ht hfile
  obtain ⟨hfileE, hends₁⟩ := hends.allocate ht (by omega) hfile
  have hamount : (UInt64.ofNat (stringLength name.bytes + 1)).toNat = name.bytes.length + 1 := by
    rw [stringLength_eq, UInt64.toNat_ofNat', Nat.mod_eq_of_lt (by omega)]
  obtain ⟨htextE, hends₂⟩ := hends₁.allocate hadds.counted (by rw [hamount]; omega) htext
  rw [hamount, Nat.add_assoc] at hends₂
  exact ⟨hfileE, htextE, hends₂⟩

/-- They are where an entry can be, when there is room. -/
theorem placed_of_ends (hends : s.table.EndsBy E) (ht : s.table.Counted)
    (hhead : ∃ i ∈ s.table.live, s.fs.files.toNat ∈ (s.table.allocated i).range)
    (hroom : E + nameSpace name < 2 ^ 64) : Placed s fuel name := by
  intro file t₁ text t₂ hfile htext
  obtain ⟨hfileE, htextE, -⟩ := allocate_entry hends ht hroom hfile htext
  rw [nameSpace] at hroom
  rw [stringLength_eq]
  refine ⟨?_, by omega, by omega⟩
  -- the new block is clear of the record that the variable lies in
  rintro rfl
  obtain ⟨i, hi, hstart, hend⟩ := hhead
  obtain ⟨-, hclear⟩ := Allocator.allocate_adds ht hfile
  have hi := hclear i hi
  rw [Allocator.Clear, UInt64.le_iff_toNat_le, UInt64.le_iff_toNat_le, UInt64.toNat_add,
    Nat.mod_eq_of_lt (by omega)] at hi
  have hsize : sizeofFile.toNat = 40 := rfl
  omega

/-- The new entry comes after the others. -/
theorem entries_created (hkept : Kept s xs) (hplaced : Placed s fuel name)
    (hfile : s.table.allocate fuel sizeofFile = some (file, t₁))
    (htext : allocateName fuel name t₁ = some (text, t)) {made : UInt64 → Finset ℕ} {table : Allocator}
    {ys : List UInt64} (hys : Kept ⟨⟨s.fs.insert file text name size data, table⟩, made⟩ ys) :
    (s.fs.insert file text name size data).entries ys = s.fs.entries xs ++ [⟨name, size, data⟩] := by
  obtain ⟨hring, hentries⟩ := entries_insert hkept.ring (hkept.fresh hplaced hfile htext) name size data
  rw [isRing_unique hys.ring hring]
  exact hentries

end Creation

section Loop

variable {s s' : Loaded} {listed : List (CString × Option (List UInt8))} {E fuel : ℕ} {name : CString}
  {size data : UInt64} {contents : List UInt8} {fs : Filesystem} {t : Allocator} {f : InitFile}

/-- Records that are there stay. -/
theorem head_adds {t t' : Allocator} {rs : Multiset Allocation} {a : UInt64} (h : Allocator.Adds t t' rs)
    (hhead : ∃ i ∈ t.live, a.toNat ∈ (t.allocated i).range) :
    ∃ i ∈ t'.live, a.toNat ∈ (t'.allocated i).range := by
  obtain ⟨i, hi, ha⟩ := hhead
  exact ⟨i, h.subset hi, by rwa [h.allocated_eq i hi]⟩

theorem Installed.createFolder (h : Installed s listed E) (hroom : E + nameSpace name < 2 ^ 64) :
    ∃ fuel fs t, s.fs.createFolder fuel name s.table = some (fs, t) ∧
      Installed ⟨⟨fs, t⟩, s.memory⟩ (listed ++ [(name, none)]) (E + nameSpace name) := by
  obtain ⟨made, xs, hkept, hshows⟩ := h.kept
  have hplaced : ∀ fuel, Placed ⟨s.toSession, made⟩ fuel name := fun fuel =>
    placed_of_ends h.ends hkept.counted h.head hroom
  obtain ⟨fuel, ⟨p, fs, u⟩, hcreateFile⟩ := createFile_total hkept.counted s.fs name 0
  obtain ⟨file, t₁, text, t, hfile, htext, -, -⟩ := createFile_eq_some hcreateFile
  have hcreate : s.fs.createFolder fuel name s.table = some (s.fs.insert file text name 0 0, t) := by
    simp only [Filesystem.createFolder, hfile, htext, bind, Option.bind_some, pure]
  have hstep : (Event.createFolder name).step fuel ⟨s.toSession, made⟩ =
      some (Store.create ⟨s.toSession, made⟩ (s.fs.insert file text name 0 0) t) := by
    rw [Event.step, hcreate]
    rfl
  obtain ⟨ys, hys⟩ := hkept.step (fun _ _ => hplaced fuel) hstep
  obtain ⟨hadds₁, -⟩ := Allocator.allocate_adds hkept.counted hfile
  obtain ⟨hadds₂, -⟩ := Allocator.allocate_adds hadds₁.counted htext
  obtain ⟨-, -, hends⟩ := allocate_entry h.ends hkept.counted hroom hfile htext
  refine ⟨fuel, _, t, hcreate, ⟨_, ys, hys, ?_⟩, hends, head_adds (hadds₁.trans hadds₂) h.head⟩
  have hentries := entries_created hkept (hplaced fuel) hfile htext hys
  rw [show (s.fs.insert file text name 0 0).entries ys = _ from hentries]
  exact List.rel_append hshows (.cons ⟨rfl, rfl⟩ .nil)

/-- A file's contents stay where they are when another block is filled. -/
theorem Kept.has_store {made : UInt64 → Finset ℕ} {xs : List UInt64} (h : Kept ⟨s.toSession, made⟩ xs)
    {x : UInt64} (hx : x ∈ xs) {e : CString × Option (List UInt8)} (he : Shows s.memory (s.fs.entryAt x) e)
    {value amount : UInt64} (hclear : ∀ i ∈ s.table.live, Allocator.Clear value amount (s.table.allocated i))
    (hvalue : value.toNat + amount.toNat < 2 ^ 64) (hcontents : contents.length ≤ amount.toNat) :
    Shows (copyMemoryFrom contents value.toNat s.memory) (s.fs.entryAt x) e := by
  obtain ⟨name, data⟩ := e
  cases data with
  | none => exact he
  | some data =>
    obtain ⟨hname, hne, hsize, hfits, hhas⟩ := he
    refine ⟨hname, hne, hsize, hfits, ?_⟩
    dsimp only [entryAt] at hne hsize hfits hhas ⊢
    have hrecord : Allocator.block (s.fs.file x).data (s.fs.file x).size ∈ s.fs.madeFor x := by
      rw [madeFor, if_neg hne]
      simp
    obtain ⟨i, hi, hrec⟩ := h.mem_live hx hrecord
    have hi := hclear i hi
    have hend : ((s.fs.file x).data + (s.fs.file x).size).toNat =
        (s.fs.file x).data.toNat + data.length := by
      rw [UInt64.toNat_add, hsize, Nat.mod_eq_of_lt hfits]
    have hvalue' : (value + amount).toNat = value.toNat + amount.toNat := by
      rw [UInt64.toNat_add, Nat.mod_eq_of_lt hvalue]
    rw [hrec, Allocator.Clear, Allocator.block, UInt64.le_iff_toNat_le, UInt64.le_iff_toNat_le, hend,
      hvalue'] at hi
    dsimp only at hi
    refine ((Cells.storesIn_storeList s.memory value.toNat contents).has_iff fun j hj hmem => ?_).2 hhas
    rw [Set.mem_Ico] at hmem
    omega

theorem Installed.createFile (h : Installed s listed E) (hsize : size.toNat = contents.length)
    (hroom : E + nameSpace name + contents.length < 2 ^ 64) :
    ∃ fuel data fs t, s.fs.createFile fuel name size s.table = some (data, fs, t) ∧
      Installed ⟨⟨fs, t⟩, copyMemoryFrom contents data.toNat s.memory⟩ (listed ++ [(name, some contents)])
        (E + nameSpace name + contents.length) := by
  obtain ⟨made, xs, hkept, hshows⟩ := h.kept
  have hplaced : ∀ fuel, Placed ⟨s.toSession, made⟩ fuel name := fun fuel =>
    placed_of_ends h.ends hkept.counted h.head (by omega)
  obtain ⟨fuel, ⟨data, fs, t⟩, hcreate⟩ := createFile_total hkept.counted s.fs name size
  obtain ⟨file, t₁, text, t₂, hfile, htext, hdata, rfl⟩ := createFile_eq_some hcreate
  have hstep : (Event.createFile name size).step fuel ⟨s.toSession, made⟩ =
      some (Store.create ⟨s.toSession, made⟩ (s.fs.insert file text name size data) t) := by
    rw [Event.step, hcreate]
    rfl
  obtain ⟨ys, hys⟩ := hkept.step (fun _ _ => hplaced fuel) hstep
  obtain ⟨hadds₁, -⟩ := Allocator.allocate_adds hkept.counted hfile
  obtain ⟨hadds₂, -⟩ := Allocator.allocate_adds hadds₁.counted htext
  obtain ⟨hadds₃, hclear⟩ := Allocator.allocate_adds hadds₂.counted hdata
  obtain ⟨-, -, hends₂⟩ := allocate_entry h.ends hkept.counted (by omega) hfile htext
  obtain ⟨hvalue, hends⟩ := hends₂.allocate hadds₂.counted (by omega) hdata
  rw [hsize] at hends
  refine ⟨fuel, data, _, t, hcreate, ⟨_, ys, hys, ?_⟩, hends,
    head_adds ((hadds₁.trans hadds₂).trans hadds₃) h.head⟩
  have hentries := entries_created hkept (hplaced fuel) hfile htext hys
  rw [show (s.fs.insert file text name size data).entries ys = _ from hentries]
  have hne : data ≠ 0 := by
    rintro rfl
    exact absurd (Allocator.memoryStart_le_allocate hdata hadds₂.counted) (by decide)
  refine List.rel_append ?_ (.cons ⟨rfl, hne, hsize, ?_, Cells.has_storeList _ _ _⟩ .nil)
  · -- the entries that were there have records, and the new block is clear of these
    have hadds := hadds₁.trans hadds₂
    rw [entries, List.forall₂_map_left_iff, List.forall₂_iff_get] at hshows ⊢
    refine ⟨hshows.1, fun i hi hi' => ?_⟩
    refine hkept.has_store (List.get_mem ..) (hshows.2 i hi hi') (fun k hk => ?_) (by omega) hsize.ge
    rw [← hadds.allocated_eq k hk]
    exact hclear k (hadds.subset hk)
  · show data.toNat + contents.length < 2 ^ 64
    omega

theorem createFolder_mono {m n : ℕ} (hmn : m ≤ n) {r : Filesystem × Allocator}
    (h : s.fs.createFolder m name s.table = some r) : s.fs.createFolder n name s.table = some r := by
  obtain ⟨fs', t'⟩ := r
  obtain ⟨file, t₁, text, hfile, htext, hfs⟩ := createFolder_eq_some h
  have hfile' : s.table.allocate n sizeofFile = _ := Allocator.reserve_mono hmn hfile
  have htext' : allocateName n name t₁ = _ := Allocator.reserve_mono hmn htext
  simp only [Filesystem.createFolder, hfile', htext', bind, Option.bind_some, pure, ← hfs]

theorem createFile_mono {m n : ℕ} (hmn : m ≤ n) {r : UInt64 × Filesystem × Allocator}
    (h : s.fs.createFile m name size s.table = some r) : s.fs.createFile n name size s.table = some r := by
  obtain ⟨p, fs', t'⟩ := r
  obtain ⟨file, t₁, text, t₂, hfile, htext, hdata, hfs⟩ := createFile_eq_some h
  have hfile' : s.table.allocate n sizeofFile = _ := Allocator.reserve_mono hmn hfile
  have htext' : allocateName n name t₁ = _ := Allocator.reserve_mono hmn htext
  have hdata' : t₂.allocate n size = _ := Allocator.reserve_mono hmn hdata
  simp only [Filesystem.createFile, hfile', htext', hdata', bind, Option.bind_some, pure, ← hfs]

theorem addFile_mono : Trace.FuelMono addFile := by
  intro m n s f s' hmn h
  unfold addFile at h ⊢
  cases hdata : f.data with
  | none =>
    rw [hdata] at h
    obtain ⟨r, hcreate, rfl⟩ := Option.map_eq_some_iff.1 h
    exact Option.map_eq_some_iff.2 ⟨r, createFolder_mono hmn hcreate, rfl⟩
  | some data =>
    rw [hdata] at h
    obtain ⟨r, hcreate, rfl⟩ := Option.map_eq_some_iff.1 h
    exact Option.map_eq_some_iff.2 ⟨r, createFile_mono hmn hcreate, rfl⟩

/-- The bytes that are allocated for an element. -/
def space (f : InitFile) : ℕ := nameSpace f.cstring + (f.data.getD []).length

/-- A turn of the loop. -/
theorem Installed.addFile (h : Installed s listed E) (hsize : f.size.toNat = (f.data.getD []).length)
    (hroom : E + space f < 2 ^ 64) :
    ∃ fuel s', addFile fuel s f = some s' ∧ Installed s' (listed ++ [(f.cstring, f.data)]) (E + space f) := by
  unfold space at hroom ⊢
  unfold Filesystem.addFile
  cases hdata : f.data with
  | none =>
    rw [hdata] at hroom
    obtain ⟨fuel, fs, t, hcreate, hinst⟩ := h.createFolder hroom
    refine ⟨fuel, ⟨⟨fs, t⟩, s.memory⟩, ?_, hinst⟩
    rw [hcreate, Option.map_some]
  | some data =>
    rw [hdata, Option.getD_some] at hroom hsize
    rw [← Nat.add_assoc] at hroom
    obtain ⟨fuel, p, fs, t, hcreate, hinst⟩ := h.createFile hsize hroom
    refine ⟨fuel, ⟨⟨fs, t⟩, copyMemoryFrom data p.toNat s.memory⟩, ?_, Nat.add_assoc E _ _ ▸ hinst⟩
    dsimp only
    rw [hcreate, Option.map_some, hsize, List.take_length]

/-- **The loop.** -/
theorem Installed.run {files : List InitFile} (h : Installed s listed E)
    (hsize : ∀ f ∈ files, f.size.toNat = (f.data.getD []).length)
    (hroom : E + (files.map space).sum < 2 ^ 64) :
    ∃ fuel s', Trace.run (Filesystem.addFile fuel) s files = some s' ∧
      Installed s' (listed ++ files.map fun f => (f.cstring, f.data)) (E + (files.map space).sum) := by
  induction files generalizing s listed E with
  | nil => exact ⟨0, s, rfl, by simpa using h⟩
  | cons f files ih =>
    rw [List.map_cons, List.sum_cons] at hroom
    obtain ⟨m, s₁, hstep, h₁⟩ := h.addFile (hsize f List.mem_cons_self) (by omega)
    obtain ⟨n, s₂, hrun, h₂⟩ := ih h₁ (fun g hg => hsize g (List.mem_cons_of_mem _ hg)) (by omega)
    refine ⟨max m n, s₂, ?_, ?_⟩
    · rw [Trace.run_cons, addFile_mono _ _ _ _ _ (le_max_left m n) hstep, Option.bind_some]
      exact Trace.run_mono addFile_mono (le_max_right m n) hrun
    · rw [List.map_cons, List.map_cons, List.sum_cons, ← Nat.add_assoc]
      rw [List.append_assoc, List.singleton_append] at h₂
      exact h₂

/-- What the lookups say of entries that show a list. -/
theorem any_shows {m : Cells UInt8} {es : List Entry} (h : List.Forall₂ (Shows m) es listed)
    (name : CString) :
    ((es.any fun e => e.name = name && decide (e.data ≠ 0)) = true ↔ ∃ data, (name, some data) ∈ listed) ∧
      ((es.any fun e => e.name = name && decide (e.data = 0)) = true ↔ (name, none) ∈ listed) := by
  induction h with
  | nil => simp
  | @cons e x es listed hshows _ ih =>
    obtain ⟨name', data⟩ := x
    rw [List.any_cons, List.any_cons, Bool.or_eq_true, Bool.or_eq_true, ih.1, ih.2]
    cases data with
    | none =>
      obtain ⟨rfl, hdata⟩ := hshows
      simp [hdata, eq_comm]
    | some data =>
      obtain ⟨rfl, hdata, -⟩ := hshows
      simp [hdata, exists_or, eq_comm]

/-- The lookups after the loop. -/
theorem Installed.checks (h : Installed s listed E) (name : CString) :
    (∃ k b, s.fs.checkFile k name = some b ∧ (b = true ↔ ∃ data, (name, some data) ∈ listed)) ∧
      ∃ k b, s.fs.checkFolder k name = some b ∧ (b = true ↔ (name, none) ∈ listed) := by
  obtain ⟨made, xs, hkept, hshows⟩ := h.kept
  obtain ⟨hfile, hfolder⟩ := any_shows hshows name
  exact ⟨⟨_, _, checkEntry_eq hkept.ring (fun data => data ≠ 0) name, hfile⟩, _, _,
    checkEntry_eq hkept.ring (fun data => data = 0) name, hfolder⟩

end Loop

/-! ### A volume -/

section Boot

variable {fw : Firmware} {t : Volume} {E : ℕ} {memory : Cells InitFile} {s : Loaded}

/-- The bytes that are allocated for the entries of a volume. -/
def fileSpace (t : Volume) : ℕ :=
  nameSpace rootName +
    (t.nodes.map fun x => 40 + ((filePath x.1).length + 1) + (x.2.getD []).length).sum

/-- The elements of the array, after the import. -/
theorem map_cell_importFiles (memory : Cells InitFile) (files : List InitFile) :
    (List.range files.length).map (memory.storeList 0 files).cell = files := by
  apply List.ext_getElem (by simp)
  intro i hi hi'
  have hcell := Cells.has_storeList memory 0 files i _ (List.getElem?_eq_getElem hi')
  rw [Nat.zero_add] at hcell
  rw [List.getElem_map, List.getElem_range, hcell]

/-- The element for a node has its path and its data, and asks for the bytes for these. -/
theorem initFile_node (h : fw.Holds t) (ht : t.AllNames ProperName)
    {x : List (List UInt8) × Option (List UInt8)} (hx : x ∈ t.nodes) :
    (initFile fw (firmwarePath x.1)).cstring.bytes = filePath x.1 ∧
      (initFile fw (firmwarePath x.1)).data = x.2 ∧
      (initFile fw (firmwarePath x.1)).size.toNat = (x.2.getD []).length := by
  have hhas := FileTree.mem_nodes.1 hx
  have hdesc := describes_initFile (serves_of_has h.below hhas) (hhas.allNames ht)
  exact ⟨hdesc.text_eq (hhas.allNames ht), hdesc.data, hdesc.size⟩

/-- `initFilesystem` enters the root folder and the elements of the array. -/
theorem initFilesystem_installed {files : List InitFile} (h : Installed s [] E)
    (hsize : ∀ f ∈ files, f.size.toNat = (f.data.getD []).length)
    (hroom : E + (nameSpace rootName + (files.map space).sum) < 2 ^ 64) (memory : Cells InitFile) :
    ∃ n s', initFilesystem n ⟨files.length, memory.storeList 0 files⟩ s = some s' ∧
      Installed s' ((rootName, none) :: files.map fun f => (f.cstring, f.data))
        (E + nameSpace rootName + (files.map space).sum) := by
  rw [← Nat.add_assoc] at hroom
  have hrootRoom : E + nameSpace rootName < 2 ^ 64 := by omega
  obtain ⟨m, fs, table, hroot, hinst⟩ := h.createFolder hrootRoom
  obtain ⟨n, s', hrun, hinst'⟩ := hinst.run hsize hroom
  refine ⟨max m n, s', ?_, hinst'⟩
  have hroot' : s.fs.createFolder (max m n) rootName s.table = some (fs, table) :=
    createFolder_mono (le_max_left m n) hroot
  simp only [initFilesystem, hroot', bind, Option.bind_some, map_cell_importFiles]
  exact Trace.run_mono addFile_mono (le_max_right m n) hrun

/-- The names that are entered are the root's and the paths. -/
theorem mem_entered (h : fw.Holds t) (ht : t.AllNames ProperName) (name : CString)
    (c : Option (List UInt8)) :
    (name, c) ∈ (rootName, none) ::
        (t.nodes.map fun x => initFile fw (firmwarePath x.1)).map (fun f => (f.cstring, f.data)) ↔
      (name.bytes = [] ∧ c = none) ∨ ∃ p, t.Has p c ∧ filePath p = name.bytes := by
  rw [List.mem_cons, Prod.mk.injEq, CString.ext_iff, List.map_map, List.mem_map]
  refine or_congr Iff.rfl ⟨?_, ?_⟩
  · rintro ⟨x, hx, heq⟩
    obtain ⟨hname, hdata, -⟩ := initFile_node h ht hx
    obtain ⟨rfl, rfl⟩ := Prod.mk.inj heq
    refine ⟨x.1, ?_, hname.symm⟩
    rw [hdata]
    exact FileTree.mem_nodes.1 hx
  · rintro ⟨p, hp, hname⟩
    have hmem := FileTree.mem_nodes.2 hp
    obtain ⟨hname', hdata, -⟩ := initFile_node h ht hmem
    exact ⟨(p, c), hmem, Prod.ext (CString.ext (hname'.trans hname)) hdata⟩

/-- **Boot import.** Where the firmware has the files of a tree, the number of entries that are counted is
the number of those that are stored, each node of the tree is in the array once and nothing else is; and
after `initFilesystem`, where there is room for the entries behind the records there are, the lookups
find exactly the files and the folders of the tree. -/
theorem boot_import (h : fw.Holds t) (ht : t.AllNames ProperName) (hdistinct : t.Distinct)
    (hring : IsRing s.fs.links s.fs.files [])
    (htable : Allocator.Reachable s.table)
    (hhead : ∃ i ∈ s.table.live, s.fs.files.toNat ∈ (s.table.allocated i).range)
    (hends : s.table.EndsBy E) (hroom : E + fileSpace t < 2 ^ 64) :
    ∃ enough counted information,
      (∀ fuel, enough ≤ fuel → importFiles fw fuel memory = some (counted, information)) ∧
      Imported fw t memory counted information ∧
      ∃ n s', initFilesystem n information s = some s' ∧ ∀ name : CString,
        (∃ k b, s'.fs.checkFile k name = some b ∧
          (b = true ↔ ∃ p data, t.Has p (some data) ∧ filePath p = name.bytes)) ∧
        ∃ k b, s'.fs.checkFolder k name = some b ∧
          (b = true ↔ name.bytes = [] ∨ ∃ p, t.Has p none ∧ filePath p = name.bytes) := by
  obtain ⟨enough, himport⟩ := importFiles_eq h ht memory
  refine ⟨enough, _, _, himport, imported h ht hdistinct memory, ?_⟩
  have hspace : ((t.nodes.map fun x => initFile fw (firmwarePath x.1)).map space) =
      t.nodes.map fun x => 40 + ((filePath x.1).length + 1) + (x.2.getD []).length := by
    rw [List.map_map]
    refine List.map_congr_left fun x hx => ?_
    obtain ⟨hname, hdata, -⟩ := initFile_node h ht hx
    rw [Function.comp_apply, space, nameSpace, hname, hdata]
    rfl
  have hsize : ∀ f ∈ t.nodes.map (fun x => initFile fw (firmwarePath x.1)),
      f.size.toNat = (f.data.getD []).length := by
    intro f hf
    obtain ⟨x, hx, rfl⟩ := List.mem_map.1 hf
    obtain ⟨-, hdata, hsize⟩ := initFile_node h ht hx
    rw [hsize, hdata]
  have hempty : Installed s [] E :=
    ⟨⟨fun _ => ∅, [], ⟨hring, htable.counted, by simp, by simp, List.Pairwise.nil, by simp⟩, .nil⟩,
      hends, hhead⟩
  rw [fileSpace, ← hspace] at hroom
  obtain ⟨n, s', hrun, hinst⟩ := initFilesystem_installed hempty hsize hroom memory
  rw [List.length_map] at hrun
  refine ⟨n, s', hrun, fun name => ?_⟩
  obtain ⟨⟨k, b, hfile, hfileIff⟩, j, d, hfolder, hfolderIff⟩ := hinst.checks name
  refine ⟨⟨k, b, hfile, ?_⟩, j, d, hfolder, ?_⟩
  · simp only [hfileIff, mem_entered h ht, reduceCtorEq, and_false, false_or]
    exact exists_comm
  · rw [hfolderIff, mem_entered h ht, and_iff_left rfl]

/-- A folder with a file of one byte, and an empty file. -/
def smallVolume : Volume := .folder [97] (.file [98] [7] .empty) (.file [99] [] .empty)

/-- The calls of a firmware whose folders have these entries. An entry takes 80 bytes and its name. -/
def folderCalls (folders : List UInt16 → List FileInfo) : FolderCalls where
  growBuffer
    | _, none, _ => (true, some ⟨[], false, 0⟩)
    | .bufferTooSmall, some _, _ => (true, some ⟨[], false, 0⟩)
    | .success, some buffer, _ => (false, some buffer)
    | .failure, some _, _ => (false, none)
  read folder position size :=
    match (folders folder)[position]? with
    | none => ⟨.success, 0, none, position⟩
    | some info =>
      let needed := 80 + 2 * UInt64.ofNat (info.fileName.length + 1)
      if needed ≤ size then ⟨.success, needed, some info, position + 1⟩
      else ⟨.bufferTooSmall, needed, none, position⟩

theorem grows_folderCalls (folders : List UInt16 → List FileInfo) : (folderCalls folders).Grows :=
  ⟨fun _ _ _ => ⟨_, rfl⟩, fun _ _ _ => ⟨_, rfl⟩, fun _ _ => rfl⟩

theorem enumerates_folderCalls {folders : List UInt16 → List FileInfo} {folder : List UInt16}
    (h : ∀ info ∈ folders folder, 80 + 2 * UInt64.ofNat (info.fileName.length + 1) ≠ 0) :
    (folderCalls folders).Enumerates folder (folders folder) := by
  refine ⟨fun k info hk => ⟨_, h info (List.mem_of_getElem? hk), fun size => ?_⟩, fun size => ?_⟩
  · simp only [folderCalls, hk]
  · simp only [folderCalls, List.getElem?_eq_none (le_refl (folders folder).length)]

def smallFolders (path : List UInt16) : List FileInfo :=
  if path = [46] then [⟨wide [97], true, 0⟩, ⟨wide [99], false, 0⟩]
  else [⟨wide [46], true, 0⟩, ⟨wide [46, 46], true, 0⟩, ⟨wide [98], false, 1⟩]

def smallFirmware : Firmware where
  folders := folderCalls smallFolders
  fileInfo path :=
    if path = [46, 92, 97] then ⟨wide [97], true, 0⟩
    else if path = [46, 92, 99] then ⟨wide [99], false, 0⟩
    else ⟨wide [98], false, 1⟩
  read _ size := List.replicate size.toNat 7
  wideMemory := ⟨fun _ => 1, []⟩
  narrowMemory := ⟨fun _ => 1, []⟩

/-- The filesystem before there are entries, with one region marked, which the variable `files` is in. -/
def smallSystem : Loaded where
  fs := noFiles.fs
  table := { (Allocator.initAllocator fun _ => ⟨false, 0, 0⟩).store 0 ⟨true, 0, 4096⟩ with
    allocations := 1, unusable := 4096 }
  memory := ⟨fun _ => 0, []⟩

theorem boot_import_small :
    ∃ fuel information n s, importFiles smallFirmware fuel ⟨fun _ => ⟨⟨0, ⟨fun _ => 0, []⟩⟩, 0, none⟩, []⟩ =
        some (information.fileCount, information) ∧ initFilesystem n information smallSystem = some s ∧
      (∃ k, s.fs.checkFile k childName = some true) ∧ (∃ k, s.fs.checkFolder k folderName = some true) ∧
      ∃ k, s.fs.checkFile k siblingName = some false := by
  have hroot : smallFirmware.Lists [] smallVolume := ⟨_, enumerates_folderCalls (by decide), rfl⟩
  have hinside : smallFirmware.Lists [[97]] (.file [98] [7] .empty) :=
    ⟨_, enumerates_folderCalls (by decide), rfl⟩
  have hholds : smallFirmware.Holds smallVolume :=
    ⟨grows_folderCalls smallFolders, hroot, rfl, hinside, ⟨⟨rfl, rfl, rfl⟩, trivial⟩, ⟨rfl, rfl, rfl⟩,
      trivial⟩
  have hnames : smallVolume.AllNames ProperName :=
    ⟨⟨by decide, by decide, by decide, by decide, by decide⟩,
      ⟨⟨by decide, by decide, by decide, by decide, by decide⟩, trivial⟩,
      ⟨by decide, by decide, by decide, by decide, by decide⟩, trivial⟩
  have hdistinct : smallVolume.Distinct :=
    ⟨by decide, ⟨by decide, trivial⟩, by decide, trivial⟩
  have htable : Allocator.Reachable smallSystem.table :=
    .markUnusable (.initAllocator fun _ => ⟨false, 0, 0⟩)
      (rfl : Allocator.markUnusable 1 0 4096 _ = some smallSystem.table)
  obtain ⟨fuel, counted, information, himport, himported, n, s, hinit, hchecks⟩ :=
    boot_import hholds hnames hdistinct isRing_noFiles htable
      ⟨0, by decide, Nat.zero_le 0, by decide⟩ ⟨le_refl memoryStart.toNat, by decide⟩ (by decide)
  rw [himported.agree] at himport
  refine ⟨fuel, information, n, s, himport fuel le_rfl, hinit, ?_, ?_, ?_⟩
  · obtain ⟨⟨k, b, hk, hb⟩, -⟩ := hchecks childName
    rw [hb.2 ⟨[[97], [98]], [7], .inside .file, rfl⟩] at hk
    exact ⟨k, hk⟩
  · obtain ⟨-, k, b, hk, hb⟩ := hchecks folderName
    rw [hb.2 (.inr ⟨[[97]], .folder, rfl⟩)] at hk
    exact ⟨k, hk⟩
  · obtain ⟨⟨k, b, hk, hb⟩, -⟩ := hchecks siblingName
    have habsent : ∀ x ∈ smallVolume.nodes, filePath x.1 ≠ siblingName.bytes := by decide
    have hfalse : b ≠ true := fun htrue => by
      obtain ⟨p, data, hp, hname⟩ := hb.1 htrue
      exact habsent _ (FileTree.mem_nodes.2 hp) hname
    rw [eq_false_of_ne_true hfalse] at hk
    exact ⟨k, hk⟩

end Boot

end Filesystem

end Naul
