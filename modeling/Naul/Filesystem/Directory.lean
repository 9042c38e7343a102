import Naul.Filesystem.Names

/-!
# The filesystem as a map

Where no name is created that is there already, and no name is deleted that is not a file's, the ring
is a map from names to entries: `Directory` has the map that the calls make, and the list of what has
been created and not deleted, with the blocks that `allocate` has returned for it.

`filesystem_is_map` says that the calls return, that the ring has exactly the entries of the list in
their order, and that `checkFile`, `checkFolder` and `getFile` answer as the map does.
-/

namespace Naul

open LinkRing

namespace Filesystem

/-- A call, with the blocks that `allocate` has returned to it. -/
inductive Change
  | createFolder (file text : UInt64) (name : CString)
  | createFile (file text data : UInt64) (name : CString) (size : UInt64)
  | deleteFile (name : CString)

/-- What it does to the ring. -/
def Change.step (fuel : ℕ) (fs : Filesystem) : Change → Option Filesystem
  | .createFolder file text name => some (fs.insert file text name 0 0)
  | .createFile file text data name size => some (fs.insert file text name size data)
  | .deleteFile name => (fs.unlinkFile fuel name).map Prod.snd

section Calls

variable {fs fs' : Filesystem} {t t' : Allocator} {name : CString} {size data : UInt64} {fuel : ℕ}

/-- With an allocator the functions make these changes, with its answers. -/
theorem createFolder_change (h : fs.createFolder fuel name t = some (fs', t')) :
    ∃ file t₁ text, t.allocate fuel sizeofFile = some (file, t₁) ∧
      allocateName fuel name t₁ = some (text, t') ∧
      Change.step fuel fs (.createFolder file text name) = some fs' := by
  obtain ⟨file, t₁, text, hfile, htext, rfl⟩ := createFolder_eq_some h
  exact ⟨file, t₁, text, hfile, htext, rfl⟩

theorem createFile_change (h : fs.createFile fuel name size t = some (data, fs', t')) :
    ∃ file t₁ text t₂, t.allocate fuel sizeofFile = some (file, t₁) ∧
      allocateName fuel name t₁ = some (text, t₂) ∧ t₂.allocate fuel size = some (data, t') ∧
      Change.step fuel fs (.createFile file text data name size) = some fs' := by
  obtain ⟨file, t₁, text, t₂, hfile, htext, hdata, rfl⟩ := createFile_eq_some h
  exact ⟨file, t₁, text, t₂, hfile, htext, hdata, rfl⟩

theorem deleteFile_change (h : fs.deleteFile fuel name t = some (fs', t')) :
    Change.step fuel fs (.deleteFile name) = some fs' := by
  obtain ⟨x, hunlink⟩ := deleteFile_eq_some h
  rw [Change.step, hunlink]
  rfl

/-- The change that a call makes, with the answers of the allocator's table. -/
def Op.change (fuel : ℕ) (s : Session) : Op → Option Change
  | .createFolder name => do
    let (file, t) ← s.table.allocate fuel sizeofFile
    let (text, _) ← allocateName fuel name t
    return .createFolder file text name
  | .createFile name size => do
    let (file, t) ← s.table.allocate fuel sizeofFile
    let (text, t) ← allocateName fuel name t
    let (data, _) ← t.allocate fuel size
    return .createFile file text data name size
  | .deleteFile name => some (.deleteFile name)
  | .others _ => none

/-- The changes that a run of calls makes. -/
def history (fuel : ℕ) : Session → List Op → List Change
  | _, [] => []
  | s, op :: ops =>
    (op.change fuel s).toList ++ match op.step fuel s with
      | none => []
      | some s' => history fuel s' ops

theorem run_change {s s' : Session} {op : Op} (h : op.step fuel s = some s') :
    Trace.run (Change.step fuel) s.fs (op.change fuel s).toList = some s'.fs := by
  cases op with
  | createFile name size =>
    simp only [Op.step, bind, Option.bind_eq_some_iff, pure, Option.some.injEq] at h
    obtain ⟨⟨data, fs, table⟩, hcreate, rfl⟩ := h
    obtain ⟨file, t₁, text, t₂, hfile, htext, hdata, hchange⟩ := createFile_change hcreate
    simp [Op.change, hfile, htext, hdata, hchange]
  | createFolder name =>
    simp only [Op.step, bind, Option.bind_eq_some_iff, pure, Option.some.injEq] at h
    obtain ⟨⟨fs, table⟩, hcreate, rfl⟩ := h
    obtain ⟨file, t₁, text, hfile, htext, hchange⟩ := createFolder_change hcreate
    simp [Op.change, hfile, htext, hchange]
  | deleteFile name =>
    simp only [Op.step, bind, Option.bind_eq_some_iff, pure, Option.some.injEq] at h
    obtain ⟨⟨fs, table⟩, hdelete, rfl⟩ := h
    simp [Op.change, deleteFile_change hdelete]
  | others table =>
    obtain rfl := Option.some.inj h
    rfl

theorem run_history {s s' : Session} {ops : List Op} (h : Trace.run (Op.step fuel) s ops = some s') :
    Trace.run (Change.step fuel) s.fs (history fuel s ops) = some s'.fs := by
  induction ops generalizing s with
  | nil =>
    obtain rfl := Option.some.inj h
    rfl
  | cons op ops ih =>
    rw [Trace.run_cons] at h
    obtain ⟨s₁, hstep, hrest⟩ := Option.bind_eq_some_iff.1 h
    rw [history, hstep, Trace.run_append, run_change hstep, Option.bind_some]
    exact ih hrest

end Calls

/-- An entry with the addresses of its record and of its name. -/
structure Stored where
  file : UInt64
  text : UInt64
  entry : Entry

/-- What has been created and not deleted, in the order of creation; and the map. -/
structure Directory where
  stored : List Stored
  map : CString → Option Entry

namespace Directory

def empty : Directory := ⟨[], fun _ => none⟩

/-- Enter a name. -/
def create (d : Directory) (file text : UInt64) (e : Entry) : Directory :=
  ⟨d.stored ++ [⟨file, text, e⟩], Function.update d.map e.name (some e)⟩

def delete (d : Directory) (name : CString) : Directory :=
  ⟨d.stored.filter fun x => x.entry.name ≠ name, Function.update d.map name none⟩

def step (d : Directory) : Change → Directory
  | .createFolder file text name => d.create file text ⟨name, 0, 0⟩
  | .createFile file text data name size => d.create file text ⟨name, size, data⟩
  | .deleteFile name => d.delete name

/-- The blocks for the record and for the name are none of an entry's, and the record is not the
sentinel. -/
def Clear (files : UInt64) (d : Directory) (file text : UInt64) : Prop :=
  file ∉ files :: d.stored.map Stored.file ∧ text ∉ d.stored.map Stored.text

instance decidableClear (files : UInt64) (d : Directory) (file text : UInt64) :
    Decidable (d.Clear files file text) := inferInstanceAs (Decidable (_ ∧ _))

/-- A name that is created is not there, and gets blocks that are clear and not at the null address; a
name that is deleted is a file's. -/
def Proper (files : UInt64) (d : Directory) : Change → Prop
  | .createFolder file text name => d.map name = none ∧ d.Clear files file text
  | .createFile file text data name _ => d.map name = none ∧ d.Clear files file text ∧ data ≠ 0
  | .deleteFile name => ∃ e ∈ d.map name, e.data ≠ 0

instance decidableProper (files : UInt64) (d : Directory) : ∀ c, Decidable (d.Proper files c)
  | .createFolder _ _ _ => inferInstanceAs (Decidable (_ ∧ _))
  | .createFile _ _ _ _ _ => inferInstanceAs (Decidable (_ ∧ _ ∧ _))
  | .deleteFile name =>
    match h : d.map name with
    | none => isFalse (by simp [Proper, h])
    | some e => decidable_of_iff (e.data ≠ 0) (by simp [Proper, h])

/-- The filesystem whose sentinel is at `files` has the entries of the list in its ring, and the list
has those of the map. -/
structure Represents (files : UInt64) (fs : Filesystem) (d : Directory) : Prop where
  head : fs.files = files
  ring : IsRing fs.links files (d.stored.map Stored.file)
  file : ∀ x ∈ d.stored, fs.file x.file = ⟨x.text, x.entry.size, x.entry.data⟩
  text : ∀ x ∈ d.stored, fs.text x.text = x.entry.name
  names : (d.stored.map fun x => x.entry.name).Nodup
  map : ∀ name, d.map name = firstNamed (d.stored.map Stored.entry) name

variable {fs : Filesystem} {d : Directory} {files file text : UInt64} {name : CString} {e : Entry}

theorem Represents.entryAt (h : Represents files fs d) {x : Stored} (hx : x ∈ d.stored) :
    fs.entryAt x.file = x.entry := by
  rw [Filesystem.entryAt, nameOf, h.file x hx, h.text x hx]

/-- The ring lists the entries. -/
theorem Represents.entries (h : Represents files fs d) :
    fs.entries (d.stored.map Stored.file) = d.stored.map Stored.entry := by
  rw [Filesystem.entries, List.map_map]
  exact List.map_congr_left fun x hx => h.entryAt hx

theorem Represents.notMem (h : Represents files fs d) (hname : d.map name = none) :
    name ∉ d.stored.map fun x => x.entry.name := by
  rw [h.map, firstNamed, List.find?_eq_none] at hname
  intro hmem
  obtain ⟨x, hx, rfl⟩ := List.mem_map.1 hmem
  exact hname x.entry (List.mem_map_of_mem hx) (decide_eq_true rfl)

theorem Represents.create (h : Represents files fs d) (hclear : d.Clear files file text)
    (hname : d.map e.name = none) :
    Represents files (fs.insert file text e.name e.size e.data) (d.create file text e) := by
  have hfile : ∀ x ∈ d.stored, x.file ≠ file := by
    rintro x hx rfl
    exact hclear.1 (List.mem_cons_of_mem _ (List.mem_map_of_mem hx))
  have htext : ∀ x ∈ d.stored, x.text ≠ text := by
    rintro x hx rfl
    exact hclear.2 (List.mem_map_of_mem hx)
  refine ⟨h.head, ?_, fun x hx => ?_, fun x hx => ?_, ?_, fun name => ?_⟩
  · rw [Directory.create, List.map_append]
    dsimp only [insert]
    rw [h.head]
    exact isRing_linkList h.ring hclear.1
  · rcases List.mem_append.1 hx with hx | hx
    · exact (Function.update_of_ne (hfile x hx) ..).trans (h.file x hx)
    · rw [List.mem_singleton.1 hx]
      exact Function.update_self ..
  · rcases List.mem_append.1 hx with hx | hx
    · exact (Function.update_of_ne (htext x hx) ..).trans (h.text x hx)
    · rw [List.mem_singleton.1 hx]
      exact Function.update_self ..
  · rw [Directory.create, List.map_append, List.map_singleton, ← List.concat_eq_append]
    exact h.names.concat (h.notMem hname)
  · show Function.update d.map e.name (some e) name = _
    rw [Directory.create, List.map_append, firstNamed, List.find?_append, ← firstNamed, ← h.map,
      Function.update_apply]
    split_ifs with heq
    · rw [heq, hname]
      simp
    · rw [List.map_singleton, List.find?_singleton, if_neg (by simpa using Ne.symm heq), Option.or_none]

/-- Without one of the names, the others are where they were. -/
theorem firstNamed_filter_ne (es : List Entry) (name name' : CString) :
    firstNamed (es.filter fun e => e.name ≠ name) name' =
      if name' = name then none else firstNamed es name' := by
  rw [firstNamed, List.find?_filter]
  split_ifs with heq
  · rw [List.find?_eq_none]
    intro e _
    simp [heq]
  · rw [firstNamed]
    congr 1
    funext e
    by_cases he : e.name = name' <;> simp [he, heq]

/-- With distinct names the first of a name is all there is of it. -/
theorem eraseP_eq_filter {xs : List Stored} (h : (xs.map fun x => x.entry.name).Nodup) :
    (xs.eraseP fun x => x.entry.name = name) = xs.filter fun x => x.entry.name ≠ name := by
  induction xs with
  | nil => rfl
  | cons x xs ih =>
    rw [List.map_cons, List.nodup_cons] at h
    by_cases hx : x.entry.name = name
    · have hrest : ∀ y ∈ xs, y.entry.name ≠ name := fun y hy heq =>
        h.1 (hx ▸ heq ▸ List.mem_map_of_mem hy)
      rw [List.eraseP_cons_of_pos (by simpa using hx), List.filter_cons_of_neg (by simpa using hx),
        List.filter_eq_self.2 fun y hy => by simpa using hrest y hy]
    · rw [List.eraseP_cons_of_neg (by simpa using hx), List.filter_cons_of_pos (by simpa using hx),
        ih h.2]

theorem Represents.delete (h : Represents files fs d) (hname : ∃ e ∈ d.map name, e.data ≠ 0) :
    ∃ n r, fs.unlinkFile n name = some r ∧ Represents files r.2 (d.delete name) := by
  let p (x : UInt64) : Bool := compareStrings name.bytes (fs.nameOf x).bytes = 0
  have hpq : ∀ x ∈ d.stored, p x.file = decide (x.entry.name = name) := by
    intro x hx
    simp only [p, compareStrings_eq_zero_iff, ← h.entryAt hx]
    rfl
  have hmem : ∃ x ∈ d.stored, decide (x.entry.name = name) = true := by
    obtain ⟨e, he, -⟩ := hname
    rw [h.map, Option.mem_def, firstNamed] at he
    obtain ⟨x, hx, rfl⟩ := List.mem_map.1 (List.mem_of_find?_eq_some he)
    exact ⟨x, hx, by simpa using List.find?_some he⟩
  obtain ⟨x, links, hunlink, -, hring⟩ := unlinkFound_map h.ring hpq hmem
  have hsub : ∀ y ∈ d.stored.filter fun x => x.entry.name ≠ name, y ∈ d.stored := fun y hy =>
    List.mem_of_mem_filter hy
  refine ⟨(d.stored.map Stored.file).length + 1, (x.file, { fs with links := links }), ?_, h.head, ?_,
    fun y hy => h.file y (hsub y hy), fun y hy => h.text y (hsub y hy), ?_, fun name' => ?_⟩
  · rw [unlinkFile, h.head]
    change Option.bind (unlinkFound _ _ _ p) _ = _
    rw [hunlink]
    rfl
  · rw [eraseP_eq_filter h.names] at hring
    exact hring
  · exact h.names.sublist (List.filter_sublist.map _)
  · have hmap : (d.stored.filter fun x => x.entry.name ≠ name).map Stored.entry =
        (d.stored.map Stored.entry).filter fun e => e.name ≠ name := by
      rw [List.filter_map]
      rfl
    rw [Directory.delete, hmap, firstNamed_filter_ne, ← h.map]
    exact Function.update_apply ..

theorem represents_step (h : Represents files fs d) {c : Change} (hproper : d.Proper files c) :
    ∃ n fs', c.step n fs = some fs' ∧ Represents files fs' (d.step c) := by
  cases c with
  | createFolder file text name =>
    exact ⟨0, _, rfl, h.create (e := ⟨name, 0, 0⟩) hproper.2 hproper.1⟩
  | createFile file text data name size =>
    exact ⟨0, _, rfl, h.create (e := ⟨name, size, data⟩) hproper.2.1 hproper.1⟩
  | deleteFile name =>
    obtain ⟨n, r, hunlink, hr⟩ := h.delete hproper
    exact ⟨n, r.2, by rw [Change.step, hunlink]; rfl, hr⟩

theorem step_mono : Trace.FuelMono Change.step := by
  intro m n fs c fs' hmn hstep
  cases c with
  | createFolder | createFile => exact hstep
  | deleteFile name =>
    simp only [Change.step, unlinkFile, unlinkFound, bind, Option.map_eq_some_iff,
      Option.bind_eq_some_iff] at hstep ⊢
    obtain ⟨r, ⟨q, ⟨x, hx, hq⟩, hr⟩, hs'⟩ := hstep
    exact ⟨r, ⟨q, ⟨x, WhileLoop.run_mono hmn hx, hq⟩, hr⟩, hs'⟩

/-! ### Lookups -/

/-- With distinct names a search for a name and a test asks for the test of the first of the name. -/
theorem any_eq_firstNamed {es : List Entry} (h : (es.map Entry.name).Nodup) (test : UInt64 → Bool) :
    (es.any fun e => e.name = name && test e.data) = (firstNamed es name).any fun e => test e.data := by
  induction es with
  | nil => rfl
  | cons e es ih =>
    rw [List.map_cons, List.nodup_cons] at h
    rw [List.any_cons, firstNamed]
    by_cases he : e.name = name
    · have hrest : (es.any fun e => e.name = name && test e.data) = false := by
        rw [List.any_eq_false]
        intro f hf heq
        rw [Bool.and_eq_true, decide_eq_true_eq] at heq
        exact h.1 (he ▸ heq.1 ▸ List.mem_map_of_mem hf)
      rw [hrest, List.find?_cons_of_pos (by simpa using he)]
      simp [he]
    · rw [ih h.2, List.find?_cons_of_neg (by simpa using he)]
      simp [he, firstNamed]

theorem Represents.checkEntry (h : Represents files fs d) (test : UInt64 → Bool) (name : CString) :
    ∃ k, fs.checkEntry k test name = some ((d.map name).any fun e => test e.data) := by
  have hring : IsRing fs.links fs.files (d.stored.map Stored.file) := h.head ▸ h.ring
  have hnames : ((d.stored.map Stored.entry).map Entry.name).Nodup := by
    rw [List.map_map]
    exact h.names
  refine ⟨_, (checkEntry_eq hring test name).trans ?_⟩
  rw [h.entries, any_eq_firstNamed hnames, h.map]

theorem Represents.getFile (h : Represents files fs d) (he : d.map name = some e) :
    ∃ k, fs.getFile k name = some (e.data, e.size) := by
  have hring : IsRing fs.links fs.files (d.stored.map Stored.file) := h.head ▸ h.ring
  exact ⟨_, getFile_eq hring (by rw [h.entries, ← h.map, he])⟩

/-- **The filesystem is a map.** A run of creations of new names and deletions of files returns, and so ends
every run of the functions in which the allocator gives these answers. The ring then has what has been
created and not deleted, in the order of creation and as it was created, and the lookups answer as the
map that the calls make. -/
theorem filesystem_is_map {changes : List Change} (h0 : IsRing fs.links fs.files [])
    (hC : Trace.Along (fun d c => some (Directory.step d c)) (Directory.Proper fs.files) empty changes) :
    ∃ n fs', Trace.run (Change.step n) fs changes = some fs' ∧
      (∀ k table ops s', Trace.run (Op.step k) ⟨fs, table⟩ ops = some s' →
        history k ⟨fs, table⟩ ops = changes → s'.fs = fs') ∧
      (∃ xs, IsRing fs'.links fs'.files xs ∧
        fs'.entries xs = (changes.foldl Directory.step empty).stored.map Stored.entry) ∧
      (∀ name, (changes.foldl Directory.step empty).map name =
        firstNamed ((changes.foldl Directory.step empty).stored.map Stored.entry) name) ∧
      ∀ name,
        (∃ k, fs'.checkFile k name =
          some (((changes.foldl Directory.step empty).map name).any fun e => e.data ≠ 0)) ∧
        (∃ k, fs'.checkFolder k name =
          some (((changes.foldl Directory.step empty).map name).any fun e => e.data = 0)) ∧
        ∀ e, (changes.foldl Directory.step empty).map name = some e →
          ∃ k, fs'.getFile k name = some (e.data, e.size) := by
  have hstart : Represents fs.files fs empty :=
    ⟨rfl, h0, fun x hx => absurd hx List.not_mem_nil, fun x hx => absurd hx List.not_mem_nil,
      List.nodup_nil, fun _ => rfl⟩
  obtain ⟨n, fs', hrun, h⟩ :=
    Trace.run_simulates (R := Represents fs.files) (C := Proper fs.files) step_mono
      (fun _ _ _ h hproper => represents_step h hproper) hstart hC
  refine ⟨n, fs', hrun, fun k table ops s' hops hhistory => ?_, ⟨_, h.head ▸ h.ring, h.entries⟩, h.map,
    fun name => ⟨h.checkEntry _ name, h.checkEntry _ name, fun e => h.getFile⟩⟩
  have hchanges := run_history hops
  rw [hhistory] at hchanges
  exact Trace.run_unique step_mono hchanges hrun

/-- A folder and a file in it, which is deleted. -/
def someChanges : List Change :=
  [.createFolder 8 9 folderName, .createFile 10 11 12 childName 5, .deleteFile childName]

theorem filesystem_is_map_someChanges :
    ∃ n fs, Trace.run (Change.step n) noFiles.fs someChanges = some fs ∧
      (∃ k, fs.checkFile k childName = some false) ∧ ∃ k, fs.checkFolder k folderName = some true := by
  have hC : Trace.Along (fun d c => some (Directory.step d c)) (Directory.Proper noFiles.fs.files) empty
      someChanges := by decide
  obtain ⟨n, fs, hrun, -, -, -, hlookup⟩ := filesystem_is_map isRing_noFiles hC
  exact ⟨n, fs, hrun, (hlookup childName).1, (hlookup folderName).2.1⟩

end Directory

end Filesystem

end Naul
