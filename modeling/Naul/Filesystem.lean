import Naul.List
import Naul.Str
import Naul.Allocator.Update

/-!
# Files (`os/src/filesystem.c`)

The filesystem is one ring of entries. The name of an entry is its whole path; a folder is an entry
without data. Entries and names live at addresses: `file` is the record at an address, and `text` the
string at an address.

`getFiles` lists a folder in two passes over the ring, one that counts and one that collects the
name pointers into a block allocated in between. Both make the same test on a name (`listed`).
`listed_iff` says what the test decides, and `getFiles_exact_iff` when that is membership in the
folder.
-/

namespace Naul

open LinkRing

/-- `'/'`. -/
def slash : UInt8 := 47

/-- The fields of a `File` after its header; `name` points to a string, `data` to the contents. -/
structure File where
  name : UInt64
  size : UInt64
  data : UInt64

/-- The variable `files` (its address, and the links of the nodes), and the memory its entries and
their names are in. -/
structure Filesystem where
  files : UInt64
  links : Links UInt64
  file : UInt64 → File
  text : UInt64 → CString

namespace Filesystem

/-- The name of the entry at an address. -/
def nameOf (fs : Filesystem) (file : UInt64) : CString := fs.text (fs.file file).name

/-- `compareStrings(file->name, root) != 0 && compareStart(file->name, root, length) == 0 &&
!stringContains(file->name + length + 1, '/')`, where `length` is the length of `root`. -/
def listed (name root : CString) : Bool :=
  let length := stringLength root.bytes
  compareStrings name.bytes root.bytes ≠ 0 && compareStart name.bytes root.bytes length = 0 &&
    !stringContains (name.bytes.drop (length + 1)) slash

/-- The first pass of `getFiles`: `*count`. -/
def countFiles (fuel : ℕ) (root : CString) (fs : Filesystem) : Option ℕ :=
  WhileLoop.run (iterate fs.links fs.files
    (fun count file => .inl (if listed (fs.nameOf file) root then count + 1 else count))
    fun count => count) fuel (0, fs.files)

/-- The second pass of `getFiles`: the pointers stored to `items[0]`, `items[1]` and so on. -/
def collectFiles (fuel : ℕ) (root : CString) (fs : Filesystem) : Option (List UInt64) :=
  WhileLoop.run (iterate fs.links fs.files
    (fun items file =>
      .inl (if listed (fs.nameOf file) root then items ++ [(fs.file file).name] else items))
    fun items => items) fuel ([], fs.files)

/-- What `getFiles` returns: the block `items`, the pointers stored in it, and `*count`. -/
structure Listing where
  address : UInt64
  items : List UInt64
  count : ℕ

/-- `getFiles(root, &count)`. -/
def getFiles (fuel : ℕ) (root : CString) (fs : Filesystem) (t : Allocator) :
    Option (Listing × Allocator) := do
  let count ← fs.countFiles fuel root
  let (address, t) ← t.allocate fuel (UInt64.ofNat (count * 8))
  let items ← fs.collectFiles fuel root
  return (⟨address, items, count⟩, t)

/-- The part of `deleteFile(name)` under the lock: the entry found, and the filesystem without it. -/
def unlinkFile (fuel : ℕ) (name : CString) (fs : Filesystem) : Option (UInt64 × Filesystem) := do
  let (file, links) ← unlinkFound fuel fs.links fs.files
    fun file => compareStrings name.bytes (fs.nameOf file).bytes = 0
  return (file, { fs with links := links })

/-- `deleteFile(name)`. -/
def deleteFile (fuel : ℕ) (name : CString) (fs : Filesystem) (t : Allocator) :
    Option (Filesystem × Allocator) := do
  let (file, fs) ← fs.unlinkFile fuel name
  let t ← t.unallocate fuel (fs.file file).name
  let t ← t.unallocate fuel (fs.file file).data
  let t ← t.unallocate fuel file
  return (fs, t)

/-- The loops of `checkFolder` and `checkFile`: whether an entry has the name and the test on its
data. -/
def checkEntry (fuel : ℕ) (test : UInt64 → Bool) (name : CString) (fs : Filesystem) : Option Bool :=
  WhileLoop.run (iterate fs.links fs.files
    (fun (_ : Unit) file =>
      if compareStrings name.bytes (fs.nameOf file).bytes = 0 && test (fs.file file).data then .inr true
      else .inl ())
    fun _ => false) fuel ((), fs.files)

def checkFolder (fuel : ℕ) (name : CString) (fs : Filesystem) : Option Bool :=
  fs.checkEntry fuel (fun data => data = 0) name

def checkFile (fuel : ℕ) (name : CString) (fs : Filesystem) : Option Bool :=
  fs.checkEntry fuel (fun data => data ≠ 0) name

/-- The common part of `createFolder` and `createFile`: the entry at the address `file` is filled, with
its name at the address `text`, and linked. -/
def insert (file text : UInt64) (name : CString) (size data : UInt64) (fs : Filesystem) : Filesystem where
  files := fs.files
  links := linkList fs.links fs.files file
  file := Function.update fs.file file ⟨text, size, data⟩
  text := Function.update fs.text text name

/-- `sizeof(File)`. -/
def sizeofFile : UInt64 := 40

/-- `allocate(length)`, where `length` is `stringLength(name) + 1`. -/
def allocateName (fuel : ℕ) (name : CString) (t : Allocator) : Option (UInt64 × Allocator) :=
  t.allocate fuel (UInt64.ofNat (stringLength name.bytes + 1))

/-- `createFolder(name)`. -/
def createFolder (fuel : ℕ) (name : CString) (fs : Filesystem) (t : Allocator) :
    Option (Filesystem × Allocator) := do
  let (file, t) ← t.allocate fuel sizeofFile
  let (text, t) ← allocateName fuel name t
  return (fs.insert file text name 0 0, t)

/-- `createFile(name, size)`, and the address it returns. -/
def createFile (fuel : ℕ) (name : CString) (size : UInt64) (fs : Filesystem) (t : Allocator) :
    Option (UInt64 × Filesystem × Allocator) := do
  let (file, t) ← t.allocate fuel sizeofFile
  let (text, t) ← allocateName fuel name t
  let (data, t) ← t.allocate fuel size
  return (data, fs.insert file text name size data, t)

/-- `getFile(name, &size)`: the address it returns, and `size`. -/
def getFile (fuel : ℕ) (name : CString) (fs : Filesystem) : Option (UInt64 × UInt64) := do
  let file ← findElement fuel fs.links fs.files
    fun file => compareStrings name.bytes (fs.nameOf file).bytes = 0
  return ((fs.file file).data, (fs.file file).size)

/-! ### The test on a name -/

/-- The test of `getFiles` looks at the first character after the root without naming it. -/
theorem listed_iff (name root : CString) :
    listed name root = true ↔ ∃ c rest, name.bytes = root.bytes ++ c :: rest ∧ slash ∉ rest := by
  simp only [listed, stringLength_eq, Bool.and_eq_true, decide_eq_true_eq, Bool.not_eq_true',
    ← Bool.not_eq_true, stringContains_iff, compareStart_eq_zero name.nul_free root.nul_free,
    Ne, compareStrings_eq_zero name.nul_free root.nul_free]
  constructor
  · rintro ⟨⟨hne, rest, hrest⟩, hslash⟩
    cases rest with
    | nil => exact absurd (by rw [← hrest, List.append_nil]) hne
    | cons c rest =>
      refine ⟨c, rest, hrest.symm, ?_⟩
      rw [← hrest, List.drop_append, List.drop_eq_nil_of_le (by omega), Nat.add_sub_cancel_left] at hslash
      exact hslash
  · rintro ⟨c, rest, hname, hslash⟩
    refine ⟨⟨?_, c :: rest, hname.symm⟩, ?_⟩
    · rw [hname]
      exact fun h => by simpa using congrArg List.length h
    · rw [hname, List.drop_append, List.drop_eq_nil_of_le (by omega), Nat.add_sub_cancel_left]
      exact hslash

/-- The name is a direct child of the folder `root`: the root, a slash and one component. -/
def InFolder (root name : CString) : Prop :=
  ∃ component, component ≠ [] ∧ slash ∉ component ∧ name.bytes = root.bytes ++ slash :: component

instance (root name : CString) : Decidable (InFolder root name) :=
  decidable_of_iff (root.bytes ++ [slash] <+: name.bytes ∧
      name.bytes.drop (root.bytes.length + 1) ≠ [] ∧
      slash ∉ name.bytes.drop (root.bytes.length + 1)) (by
    constructor
    · rintro ⟨⟨component, hname⟩, hne, hslash⟩
      have hdrop : name.bytes.drop (root.bytes.length + 1) = component := by
        rw [← hname, List.drop_append_of_le_length (by simp), List.drop_eq_nil_of_le (by simp),
          List.nil_append]
      rw [hdrop] at hne hslash
      exact ⟨component, hne, hslash, by rw [← hname, List.append_assoc, List.singleton_append]⟩
    · rintro ⟨component, hne, hslash, hname⟩
      have hdrop : name.bytes.drop (root.bytes.length + 1) = component := by
        rw [hname, List.drop_append, List.drop_eq_nil_of_le (by omega), Nat.add_sub_cancel_left]
        rfl
      rw [hdrop]
      refine ⟨⟨component, ?_⟩, hne, hslash⟩
      rw [hname, List.append_assoc, List.singleton_append])

/-- What may follow the characters of `root` in a name without another slash for the listing of
`root` to be right about it: a slash and a component. -/
def Separated (root name : CString) : Prop :=
  ∀ c rest, name.bytes = root.bytes ++ c :: rest → slash ∉ rest → c = slash ∧ rest ≠ []

theorem listed_eq_inFolder_iff (root name : CString) :
    listed name root = decide (InFolder root name) ↔ Separated root name := by
  rw [Bool.eq_iff_iff, decide_eq_true_iff, listed_iff]
  constructor
  · intro h c rest hname hslash
    obtain ⟨component, hne, -, hname'⟩ := h.1 ⟨c, rest, hname, hslash⟩
    rw [hname, List.append_cancel_left_eq, List.cons.injEq] at hname'
    exact ⟨hname'.1, hname'.2 ▸ hne⟩
  · intro h
    constructor
    · rintro ⟨c, rest, hname, hslash⟩
      obtain ⟨rfl, hne⟩ := h c rest hname hslash
      exact ⟨rest, hne, hslash, hname⟩
    · rintro ⟨component, -, hslash, hname⟩
      exact ⟨slash, component, hname, hslash⟩

/-! ### The listing -/

section Listing

variable {fs : Filesystem} {xs : List UInt64} {t : Allocator}

/-- The names of the entries, in list order. -/
def names (fs : Filesystem) (xs : List UInt64) : List CString := xs.map fs.nameOf

theorem countFiles_eq (h : IsRing fs.links fs.files xs) (root : CString) :
    fs.countFiles (xs.length + 1) root =
      some ((fs.names xs).filter fun name => listed name root).length := by
  rw [countFiles, run_iterate h, foldUntil_foldl]
  have hfold : ∀ (ys : List UInt64) (n : ℕ),
      ys.foldl (fun count file => if listed (fs.nameOf file) root then count + 1 else count) n =
        n + ((fs.names ys).filter fun name => listed name root).length := by
    intro ys
    induction ys with
    | nil => intro n; rfl
    | cons y ys ih =>
      intro n
      rw [List.foldl_cons, ih]
      by_cases hy : listed (fs.nameOf y) root <;> simp [names, hy]
      omega
  rw [hfold, zero_add]

theorem collectFiles_eq (h : IsRing fs.links fs.files xs) (root : CString) :
    fs.collectFiles (xs.length + 1) root =
      some ((xs.filter fun file => listed (fs.nameOf file) root).map fun file => (fs.file file).name) := by
  rw [collectFiles, run_iterate h, foldUntil_foldl]
  have hfold : ∀ (ys : List UInt64) (items : List UInt64),
      ys.foldl (fun items file =>
          if listed (fs.nameOf file) root then items ++ [(fs.file file).name] else items) items =
        items ++ (ys.filter fun file => listed (fs.nameOf file) root).map
          fun file => (fs.file file).name := by
    intro ys
    induction ys with
    | nil => intro items; simp
    | cons y ys ih =>
      intro items
      rw [List.foldl_cons, ih]
      by_cases hy : listed (fs.nameOf y) root <;> simp [hy]
  rw [hfold, List.nil_append]

/-- Reading the collected pointers gives the names that pass the test. -/
theorem map_text_collected (fs : Filesystem) (xs : List UInt64) (root : CString) :
    ((xs.filter fun file => listed (fs.nameOf file) root).map
        fun file => (fs.file file).name).map fs.text =
      (fs.names xs).filter fun name => listed name root := by
  rw [List.map_map, names, List.filter_map]
  rfl

theorem getFiles_total (h : IsRing fs.links fs.files xs) (ht : t.Counted) (root : CString) :
    ∃ fuel r, fs.getFiles fuel root t = some r := by
  obtain ⟨n, address, t', halloc⟩ := Allocator.reserve_total ht Allocator.plain_advances
    (Allocator.nextFits_plain t (UInt64.ofNat
      (((fs.names xs).filter fun name => listed name root).length * 8)))
  have hcount : fs.countFiles (max (xs.length + 1) n) root = _ :=
    WhileLoop.run_mono (le_max_left _ n) (countFiles_eq h root)
  have hcollect : fs.collectFiles (max (xs.length + 1) n) root = _ :=
    WhileLoop.run_mono (le_max_left _ n) (collectFiles_eq h root)
  have halloc' : t.allocate (max (xs.length + 1) n) _ = _ :=
    Allocator.reserve_mono (le_max_right (xs.length + 1) n) halloc
  refine ⟨max (xs.length + 1) n, (⟨address, ((xs.filter fun file =>
    listed (fs.nameOf file) root).map fun file => (fs.file file).name),
    ((fs.names xs).filter fun name => listed name root).length⟩, t'), ?_⟩
  simp only [getFiles, hcount, hcollect, halloc', bind, Option.bind_some, pure]

/-- Both passes see the names that pass the test, in list order. -/
theorem getFiles_spec (h : IsRing fs.links fs.files xs) {root : CString} {fuel : ℕ}
    {r : Listing × Allocator} (hr : fs.getFiles fuel root t = some r) :
    r.1.items.map fs.text = ((fs.names xs).filter fun name => listed name root) ∧
      r.1.count = ((fs.names xs).filter fun name => listed name root).length := by
  simp only [getFiles, bind, Option.bind_eq_some_iff, pure, Option.some.injEq] at hr
  obtain ⟨count, hcount, ⟨address, t'⟩, -, items, hitems, rfl⟩ := hr
  rw [WhileLoop.run_unique hitems (collectFiles_eq h root),
    WhileLoop.run_unique hcount (countFiles_eq h root)]
  exact ⟨map_text_collected fs xs root, rfl⟩

/-- **When the listing of a folder is exact.** `getFiles` returns, and it lists exactly the children
of `root` in list order, with their number, exactly when every name that continues the characters of
`root` without another slash does so by a slash and a component. -/
theorem getFiles_exact_iff (h : IsRing fs.links fs.files xs) (ht : t.Counted) (root : CString) :
    (∃ fuel r, fs.getFiles fuel root t = some r) ∧
      ∀ fuel r, fs.getFiles fuel root t = some r →
        ((r.1.items.map fs.text = ((fs.names xs).filter fun name => InFolder root name) ∧
            r.1.count = ((fs.names xs).filter fun name => InFolder root name).length) ↔
          ∀ name ∈ fs.names xs, Separated root name) := by
  refine ⟨getFiles_total h ht root, fun fuel r hr => ?_⟩
  obtain ⟨hitems, hcount⟩ := getFiles_spec h hr
  rw [hitems, hcount]
  constructor
  · rintro ⟨hfilter, -⟩ name hname
    rw [← listed_eq_inFolder_iff, Bool.eq_iff_iff]
    have hmem : name ∈ ((fs.names xs).filter fun name => listed name root) ↔
        name ∈ ((fs.names xs).filter fun name => decide (InFolder root name)) := by rw [hfilter]
    rwa [List.mem_filter, List.mem_filter, and_iff_right hname, and_iff_right hname] at hmem
  · intro hsep
    have hfilter := List.filter_congr fun name hname =>
      (listed_eq_inFolder_iff root name).2 (hsep name hname)
    rw [hfilter]
    exact ⟨rfl, rfl⟩

end Listing

/-- A filesystem with one entry, at address 1, of a given name. -/
def oneFile (name : CString) : Filesystem :=
  ⟨0, ⟨fun a => if a = 0 then 1 else 0, fun a => if a = 0 then 1 else 0⟩, fun _ => ⟨2, 0, 0⟩,
    fun _ => name⟩

theorem oneFile_isRing (name : CString) :
    IsRing (oneFile name).links (oneFile name).files [1] := by
  constructor
  · simp [oneFile]
  · simp [oneFile, Linked]

/-- The name of a folder. -/
def folderName : CString := ⟨[slash, 97], by decide⟩

/-- A name that begins with the characters of the folder's name. -/
def siblingName : CString := ⟨[slash, 97, 98], by decide⟩

/-- A name in the folder. -/
def childName : CString := ⟨[slash, 97, slash, 98], by decide⟩

/-- The listing of "/a" when "/a/b" is the only entry. -/
theorem getFiles_exact_child :
    ∃ fuel r, (oneFile childName).getFiles fuel folderName
        (Allocator.initAllocator fun _ => ⟨false, 0, 0⟩) = some r ∧
      r.1.items.map (oneFile childName).text = [childName] ∧ r.1.count = 1 := by
  obtain ⟨⟨fuel, r, hr⟩, hexact⟩ := getFiles_exact_iff (oneFile_isRing childName)
    (Allocator.counted_initAllocator fun _ => ⟨false, 0, 0⟩) folderName
  refine ⟨fuel, r, hr, (hexact fuel r hr).2 fun name hname => ?_⟩
  rw [List.mem_singleton.1 hname, ← listed_eq_inFolder_iff]
  decide

/-- The listing of "/a" contains its sibling "/ab". -/
theorem getFiles_lists_sibling :
    ((oneFile siblingName).getFiles 3 folderName
        (Allocator.initAllocator fun _ => ⟨false, 0, 0⟩)).map
        (fun r => (r.1.items.map (oneFile siblingName).text, r.1.count)) = some ([siblingName], 1) ∧
      ((oneFile siblingName).names [1]).filter (fun name => InFolder folderName name) = [] := by
  decide

end Filesystem

end Naul
