import Naul.Boot.Folder
import Naul.Lib.Cells
import Naul.Lib.FileTree
import Naul.Str

/-!
# The files at boot (`os/src/bootloader.c`)

`efi_main` walks through the folders of the boot volume twice, by the same function `parseFolder`: the
first time to count what there is, the second to fill an array of that length. The walk calls `found` for
every entry with its path, `.\folder\name`, and for a folder after it has been in it. `addFiles` writes
the path without the dot and with `/` for `\`.

The firmware and its file protocol are a parameter (`Firmware`); that it holds the files of a tree is
`Firmware.Holds`. `parseFolder_eq` is about the walk with any `found`, and `importFiles_eq` is what the
array has afterwards.
-/

namespace Naul

/-- `u'\\'`. -/
def backslash : UInt16 := 92

/-- A string of `CHAR16`. -/
def wide (s : List UInt8) : List UInt16 := s.map UInt8.toUInt16

/-- What the boot volume answers. A handle is the path for which `Open` has given it. -/
structure Firmware where
  folders : FolderCalls
  /-- `LibFileInfo(file)`. -/
  fileInfo : List UInt16 → FileInfo
  /-- What `file->Read` stores into a buffer of this size. -/
  read : List UInt16 → UInt64 → List UInt8
  /-- What is in the memory that `AllocatePool` returns. -/
  (wideMemory : Cells UInt16)
  (narrowMemory : Cells UInt8)

/-- A block that `AllocatePool` has returned. -/
structure Pool (α : Type*) where
  size : ℕ
  memory : Cells α

/-- The string at the start of the first `count` characters of a block; `zero` is the terminator. -/
def stringIn {α : Type*} [DecidableEq α] (zero : α) (count : ℕ) (m : Cells α) : List α :=
  ((List.range count).map m.cell).takeWhile fun c => c ≠ zero

/-- `typedef struct { char* name; uint64_t size; uint8_t* data; } InitFile`; a null `data` is `none`. -/
structure InitFile where
  name : Pool UInt8
  size : UInt64
  data : Option (List UInt8)

/-- The variables `information.fileCount` and `information.fileData`. -/
structure FileTable where
  fileCount : ℕ
  fileData : Cells InitFile

/-- `RtCopyMem(destination, source, length)` with arrays of `CHAR16`; `length` is in bytes. -/
def rtCopyMem (destination : ℕ) (source : List UInt16) (length : ℕ) (m : Cells UInt16) : Cells UInt16 :=
  m.storeList destination (source.take (length / 2))

/-- `(pathLength + nameLength + 2) * sizeof(CHAR16)`. -/
def fullNameSize (name fileName : List UInt16) : ℕ := (name.length + fileName.length + 2) * 2

/-- The stores of `parseFolder` to `fullName`. -/
def fillFullName (name fileName : List UInt16) (m : Cells UInt16) : Cells UInt16 :=
  let pathLength := name.length
  let nameLength := fileName.length
  let m := rtCopyMem 0 name (pathLength * 2) m
  let m := m.store pathLength backslash
  let m := rtCopyMem (pathLength + 1) fileName (nameLength * 2) m
  m.store (pathLength + nameLength + 1) 0

/-- `fullName`. -/
def fullName (fw : Firmware) (name fileName : List UInt16) : List UInt16 :=
  stringIn 0 (fullNameSize name fileName / 2) (fillFullName name fileName fw.wideMemory)

/-- `StrCmp(info->FileName, u".") != 0 && StrCmp(info->FileName, u"..") != 0`. -/
def notDots (info : FileInfo) : Bool := info.fileName ≠ [46] && info.fileName ≠ [46, 46]

section Walk

variable {σ : Type*}

/-- The body of the loop of `parseFolder` for an entry that is not `.` or `..`; `parse` is the recursive
call. -/
def visit (fw : Firmware) (found : List UInt16 → σ → σ) (parse : List UInt16 → σ → Option σ)
    (name : List UInt16) (s : σ) (info : FileInfo) : Option σ :=
  let full := fullName fw name info.fileName
  if info.directory then (parse full s).map (found full) else some (found full s)

/-- The body of the loop for an entry. -/
def parseEntry (fw : Firmware) (found : List UInt16 → σ → σ) (parse : List UInt16 → σ → Option σ)
    (name : List UInt16) (s : σ) (info : FileInfo) : Option σ :=
  if notDots info then visit fw found parse name s info else some s

/-- The loop of `parseFolder`, with a handle that has given `position` entries. -/
def parseEntries (fw : Firmware) (found : List UInt16 → σ → σ) (parse : List UInt16 → σ → Option σ)
    (name : List UInt16) : ℕ → ℕ → σ → Option σ
  | 0, _, _ => none
  | fuel + 1, position, s =>
    (openFolder fw.folders fuel name position).bind fun
      | (none, _) => some s
      | (some info, position) =>
        (parseEntry fw found parse name s info).bind (parseEntries fw found parse name fuel position)

/-- `parseFolder(fs, name, found)`, with loops of at most `fuel` turns, and nested at most `fuel` deep. -/
def parseFolder (fw : Firmware) (found : List UInt16 → σ → σ) : ℕ → List UInt16 → σ → Option σ
  | 0, _, _ => none
  | fuel + 1, name, s => parseEntries fw found (parseFolder fw found fuel) name fuel 0 s

end Walk

def countFiles (_name : List UInt16) (information : FileTable) : FileTable :=
  { information with fileCount := information.fileCount + 1 }

/-- `name[i + 1] == u'\\' ? u'/' : name[i + 1]`, as a `char`. -/
def toSlash (c : UInt16) : UInt8 := if c = backslash then 47 else c.toUInt8

/-- The loop of `addFiles` over the characters of the name, which starts at character `i` and has `n`
more turns. The character behind the last one of `name` is its terminator. -/
def fillName (name : List UInt16) (i : ℕ) : ℕ → Cells UInt8 → Cells UInt8
  | 0, m => m
  | n + 1, m => fillName name (i + 1) n (m.store i (toSlash (name.getD (i + 1) 0)))

/-- What `addFiles` stores to `information.fileData[information.fileCount]`. -/
def initFile (fw : Firmware) (name : List UInt16) : InitFile where
  name := ⟨name.length, fillName name 0 name.length fw.narrowMemory⟩
  size := if (fw.fileInfo name).directory then 0 else (fw.fileInfo name).fileSize
  data := if (fw.fileInfo name).directory then none else some (fw.read name (fw.fileInfo name).fileSize)

def addFiles (fw : Firmware) (name : List UInt16) (information : FileTable) : FileTable where
  fileData := information.fileData.store information.fileCount (initFile fw name)
  fileCount := information.fileCount + 1

/-- The part of `efi_main` that reads the files: the array's length, and the variables after it. `fileData`
is the memory that `AllocatePool` returns for the array. -/
def importFiles (fw : Firmware) (fuel : ℕ) (fileData : Cells InitFile) : Option (ℕ × FileTable) := do
  let counted ← parseFolder fw countFiles fuel [46] ⟨0, fileData⟩
  let information ← parseFolder fw (addFiles fw) fuel [46] ⟨0, fileData⟩
  return (counted.fileCount, information)

/-! ### The boot volume -/

/-- The files of a boot volume, with their contents. -/
abbrev Volume := FileTree (List UInt8) (List UInt8)

/-- A name that a file or a folder can have: without a terminator or a separator, and not one of the two
names of folders. -/
structure ProperName (n : List UInt8) : Prop where
  nul_free : 0 ∉ n
  slash : 47 ∉ n
  backslash : 92 ∉ n
  dot : n ≠ [46]
  dotDot : n ≠ [46, 46]

/-- The path of a node as the firmware takes it, and as the filesystem does. -/
def firmwarePath (p : List (List UInt8)) : List UInt16 := 46 :: p.flatMap fun n => backslash :: wide n

def filePath (p : List (List UInt8)) : List UInt8 := p.flatMap fun n => 47 :: n

/-- What there is to be enumerated in a folder, in order. -/
def listing : Volume → List (List UInt16 × Bool)
  | .empty => []
  | .file n _ rest => (wide n, false) :: listing rest
  | .folder n _ rest => (wide n, true) :: listing rest

namespace Firmware

/-- The folder at a path is enumerated, with or without the entries `.` and `..`. -/
def Lists (fw : Firmware) (p : List (List UInt8)) (t : Volume) : Prop :=
  ∃ infos, fw.folders.Enumerates (firmwarePath p) infos ∧
    (infos.filter notDots).map (fun info => (info.fileName, info.directory)) = listing t

/-- The node at a path is a file with these contents, or a folder. -/
def Serves (fw : Firmware) (p : List (List UInt8)) : Option (List UInt8) → Prop
  | some contents =>
    (fw.fileInfo (firmwarePath p)).directory = false ∧
      (fw.fileInfo (firmwarePath p)).fileSize.toNat = contents.length ∧
      fw.read (firmwarePath p) (fw.fileInfo (firmwarePath p)).fileSize = contents
  | none => (fw.fileInfo (firmwarePath p)).directory = true

/-- Everything below the folder at a path is as in the tree. -/
def ServesBelow (fw : Firmware) (p : List (List UInt8)) : Volume → Prop
  | .empty => True
  | .file n contents rest => fw.Serves (p ++ [n]) (some contents) ∧ fw.ServesBelow p rest
  | .folder n entries rest =>
    fw.Serves (p ++ [n]) none ∧ fw.Lists (p ++ [n]) entries ∧ fw.ServesBelow (p ++ [n]) entries ∧
      fw.ServesBelow p rest

/-- The volume is the tree. -/
structure Holds (fw : Firmware) (t : Volume) : Prop where
  grows : fw.folders.Grows
  root : fw.Lists [] t
  below : fw.ServesBelow [] t

end Firmware

/-- The element of the array is that of a node: its path, with the terminator, lies in the block for it,
and no store for it lies outside; a file has its size and its contents, and a folder has null data. -/
structure InitFile.Describes (f : InitFile) (before : Cells UInt8) (p : List (List UInt8))
    (contents : Option (List UInt8)) : Prop where
  name : f.name.memory.Has 0 (filePath p ++ [0])
  room : (filePath p).length + 1 ≤ f.name.size
  stores : Cells.StoresIn (Set.Iio f.name.size) before f.name.memory
  size : f.size.toNat = (contents.getD []).length
  data : f.data = contents

/-! ### Paths -/

section Paths

variable {p : List (List UInt8)} {n : List UInt8}

theorem firmwarePath_append (p : List (List UInt8)) (n : List UInt8) :
    firmwarePath (p ++ [n]) = firmwarePath p ++ backslash :: wide n := by
  simp [firmwarePath]

theorem zero_notMem_wide (hn : 0 ∉ n) : 0 ∉ wide n := by
  intro hmem
  obtain ⟨c, hc, hzero⟩ := List.mem_map.1 hmem
  have hc0 : c = 0 := by
    rw [← UInt8.toNat_inj]
    exact congrArg UInt16.toNat hzero
  exact hn (hc0 ▸ hc)

theorem zero_notMem_firmwarePath (hp : ∀ n ∈ p, ProperName n) : 0 ∉ firmwarePath p := by
  intro hmem
  rcases List.mem_cons.1 hmem with hdot | hmem
  · cases hdot
  · obtain ⟨n, hn, hzero⟩ := List.mem_flatMap.1 hmem
    rcases List.mem_cons.1 hzero with hslash | hzero
    · cases hslash
    · exact zero_notMem_wide (hp n hn).nul_free hzero

theorem zero_notMem_filePath (hp : ∀ n ∈ p, ProperName n) : 0 ∉ filePath p := by
  intro hmem
  obtain ⟨n, hn, hzero⟩ := List.mem_flatMap.1 hmem
  rcases List.mem_cons.1 hzero with hslash | hzero
  · cases hslash
  · exact (hp n hn).nul_free hzero

/-- Without its dot, and with slashes, the firmware's path is the filesystem's. -/
theorem map_toSlash_firmwarePath (hp : ∀ n ∈ p, ProperName n) :
    (firmwarePath p).tail.map toSlash = filePath p := by
  have hname : ∀ n ∈ p, (wide n).map toSlash = n := by
    intro n hn
    rw [wide, List.map_map]
    refine (List.map_congr_left fun c hc => ?_).trans (List.map_id n)
    have hne : c.toUInt16 ≠ backslash := by
      intro heq
      have hc92 : c = 92 := by
        rw [← UInt8.toNat_inj]
        exact congrArg UInt16.toNat heq
      exact (hp n hn).backslash (hc92 ▸ hc)
    rw [Function.comp_apply, toSlash, if_neg hne]
    exact UInt8.toUInt8_toUInt16 c
  rw [firmwarePath, List.tail_cons, List.map_flatMap, filePath]
  refine List.flatMap_congr fun n hn => ?_
  rw [List.map_cons, hname n hn]
  rfl

/-- Different paths are different strings. -/
theorem filePath_inj {p q : List (List UInt8)} (hp : ∀ n ∈ p, ProperName n) (hq : ∀ n ∈ q, ProperName n)
    (h : filePath p = filePath q) : p = q := by
  -- a name ends where the next slash is
  have hcut : ∀ (n : List UInt8) (r : List (List UInt8)), 47 ∉ n →
      (n ++ filePath r).takeWhile (fun c => c ≠ 47) = n := by
    intro n r hn
    have hrest : (filePath r).takeWhile (fun c => c ≠ 47) = [] := by
      cases r with
      | nil => rfl
      | cons m r => simp [filePath]
    rw [List.takeWhile_append_of_pos (fun c hc => ?_), hrest, List.append_nil]
    rw [decide_eq_true_eq]
    rintro rfl
    exact hn hc
  induction p generalizing q with
  | nil =>
    cases q with
    | nil => rfl
    | cons m q => cases h
  | cons n p ih =>
    cases q with
    | nil => cases h
    | cons m q =>
      have htail : n ++ filePath p = m ++ filePath q := (List.cons.inj h).2
      have hname : n = m := by
        rw [← hcut n p (hp n List.mem_cons_self).slash, htail, hcut m q (hq m List.mem_cons_self).slash]
      subst hname
      rw [ih (fun k hk => hp k (List.mem_cons_of_mem _ hk)) (fun k hk => hq k (List.mem_cons_of_mem _ hk))
        (List.append_cancel_left htail)]

end Paths

/-! ### Strings in blocks -/

theorem stringIn_eq {α : Type*} [DecidableEq α] {zero : α} {count : ℕ} {m : Cells α} {s : List α}
    (h : m.Has 0 (s ++ [zero])) (hzero : zero ∉ s) (hcount : s.length < count) :
    stringIn zero count m = s := by
  obtain ⟨k, rfl⟩ : ∃ k, count = s.length + 1 + k := ⟨count - s.length - 1, by omega⟩
  have hstart : (List.range (s.length + 1)).map m.cell = s ++ [zero] := by
    apply List.ext_getElem (by simp)
    intro i hi hi'
    have hcell := h i _ (List.getElem?_eq_getElem hi')
    rw [Nat.zero_add] at hcell
    rw [List.getElem_map, List.getElem_range, hcell]
  rw [stringIn, List.range_add, List.map_append, hstart, List.append_assoc, List.singleton_append,
    List.takeWhile_append_of_pos fun c hc => ?_]
  · simp
  · rw [decide_eq_true_eq]
    rintro rfl
    exact hzero hc

theorem fillFullName_eq (name fileName : List UInt16) (m : Cells UInt16) :
    fillFullName name fileName m = m.storeList 0 (name ++ backslash :: fileName ++ [0]) := by
  have hfull : ∀ s : List UInt16, s.take (s.length * 2 / 2) = s := fun s => by
    rw [Nat.mul_div_cancel _ (by decide), List.take_length]
  have hsplit : name ++ backslash :: fileName ++ [0] = name ++ ([backslash] ++ (fileName ++ [0])) := by simp
  rw [hsplit, Cells.storeList_append, Cells.storeList_append, Cells.storeList_append, fillFullName,
    rtCopyMem, rtCopyMem, hfull, hfull]
  rw [Nat.zero_add, List.length_singleton, Nat.add_right_comm]
  rfl

/-- **The path that is built.** All stores for it lie in the block. -/
theorem fullName_eq (fw : Firmware) {name fileName : List UInt16} (hname : 0 ∉ name) (hfile : 0 ∉ fileName) :
    fullName fw name fileName = name ++ backslash :: fileName ∧
      Cells.StoresIn (Set.Iio (fullNameSize name fileName / 2)) fw.wideMemory
        (fillFullName name fileName fw.wideMemory) := by
  have hcount : fullNameSize name fileName / 2 = name.length + fileName.length + 2 := by
    rw [fullNameSize]
    omega
  constructor
  · rw [fullName, fillFullName_eq]
    refine stringIn_eq (Cells.has_storeList _ _ _) ?_ ?_
    · simp only [List.mem_append, List.mem_cons, not_or]
      exact ⟨hname, by decide, hfile⟩
    · simp only [List.length_append, List.length_cons]
      omega
  · rw [fillFullName_eq]
    refine (Cells.storesIn_storeList _ _ _).mono fun i hi => ?_
    have hlt := hi.2
    simp only [List.length_append, List.length_cons, List.length_nil] at hlt
    rw [Set.mem_Iio]
    omega

theorem fillName_eq (name : List UInt16) (i n : ℕ) (m : Cells UInt8) :
    fillName name i n m = m.storeList i ((List.range n).map fun k => toSlash (name.getD (i + k + 1) 0)) := by
  induction n generalizing i m with
  | zero => rfl
  | succ n ih =>
    rw [fillName, ih, List.range_succ_eq_map, List.map_cons, List.map_map, Cells.storeList]
    congr 1
    refine List.map_congr_left fun k _ => ?_
    rw [Function.comp_apply, Nat.succ_eq_add_one, Nat.add_right_comm i 1]
    rfl

/-- The name of an element is the path without its first character, with the terminator. -/
theorem fillName_tail (c : UInt16) (s : List UInt16) (m : Cells UInt8) :
    fillName (c :: s) 0 (c :: s).length m = m.storeList 0 (s.map toSlash ++ [0]) := by
  rw [fillName_eq]
  congr 1
  rw [List.length_cons, List.range_succ, List.map_append]
  congr 1
  · apply List.ext_getElem (by simp)
    intro i hi hi'
    rw [List.length_map, List.length_range] at hi
    simp [List.getD, hi]
  · simp [List.getD, toSlash, backslash]

/-! ### The walk -/

section Walk

variable {fw : Firmware} {t : Volume} {p : List (List UInt8)} {n : List UInt8} {fuel : ℕ} {σ : Type*}

theorem fullName_firmwarePath (hp : ∀ m ∈ p, ProperName m) (hn : ProperName n) :
    fullName fw (firmwarePath p) (wide n) = firmwarePath (p ++ [n]) := by
  rw [firmwarePath_append]
  exact (fullName_eq fw (zero_notMem_firmwarePath hp) (zero_notMem_wide hn.nul_free)).1

theorem properNames_append (hp : ∀ m ∈ p, ProperName m) (hn : ProperName n) :
    ∀ m ∈ p ++ [n], ProperName m := by
  intro m hm
  rcases List.mem_append.1 hm with hm | hm
  · exact hp m hm
  · exact List.mem_singleton.1 hm ▸ hn

/-- The loop goes through what the firmware enumerates. -/
theorem parseEntries_eq (hgrows : fw.folders.Grows) {infos : List FileInfo} {name : List UInt16}
    (h : fw.folders.Enumerates name infos) (found : List UInt16 → σ → σ)
    (parse : List UInt16 → σ → Option σ) {k : ℕ} (hk : k ≤ infos.length)
    (hfuel : infos.length + 4 ≤ fuel + k) (s : σ) :
    parseEntries fw found parse name fuel k s =
      (infos.drop k).foldlM (parseEntry fw found parse name) s := by
  induction fuel generalizing k s with
  | zero => omega
  | succ fuel ih =>
    rw [parseEntries]
    rcases hk.lt_or_eq with hlt | rfl
    · have hopen := openFolder_next hgrows h (List.getElem?_eq_getElem hlt) (show 3 ≤ fuel by omega)
      rw [List.drop_eq_getElem_cons hlt, List.foldlM_cons, hopen]
      exact bind_congr fun s' => ih hlt (by omega) s'
    · obtain ⟨position, hopen⟩ := openFolder_end hgrows h (show 1 ≤ fuel by omega)
      rw [List.drop_length, hopen]
      rfl

/-- A call reads the folder, and goes through it without the dots. -/
theorem parseFolder_succ (hgrows : fw.folders.Grows) {infos : List FileInfo} {name : List UInt16}
    (h : fw.folders.Enumerates name infos) (found : List UInt16 → σ → σ) (hfuel : infos.length + 4 ≤ fuel)
    (s : σ) :
    parseFolder fw found (fuel + 1) name s =
      (infos.filter notDots).foldlM (visit fw found (parseFolder fw found fuel) name) s := by
  rw [parseFolder, parseEntries_eq hgrows h found _ (Nat.zero_le _) (by omega), List.drop_zero]
  exact List.foldlM_filter.symm

/-- What the loop over the entries of a folder does, with enough fuel: `found` for each node in it, those in
a folder before the folder. -/
theorem foldlM_visit (hgrows : fw.folders.Grows) (found : List UInt16 → σ → σ)
    (hp : ∀ m ∈ p, ProperName m) (ht : t.AllNames ProperName) (hbelow : fw.ServesBelow p t) :
    ∃ enough, ∀ fuel, enough ≤ fuel → ∀ infos : List FileInfo,
      infos.map (fun info => (info.fileName, info.directory)) = listing t → ∀ s,
        infos.foldlM (visit fw found (parseFolder fw found fuel) (firmwarePath p)) s =
          some ((t.nodes.map Prod.fst).foldl (fun s q => found (firmwarePath (p ++ q)) s) s) := by
  induction t generalizing p with
  | empty =>
    refine ⟨0, fun fuel _ infos hinfos s => ?_⟩
    obtain rfl := List.map_eq_nil_iff.1 hinfos
    rfl
  | file n c rest ih =>
    obtain ⟨enough, hrest⟩ := ih hp ht.2 hbelow.2
    refine ⟨enough, fun fuel hfuel infos hinfos s => ?_⟩
    obtain ⟨info, infos, rfl, hinfo, hinfos⟩ := List.map_eq_cons_iff.1 hinfos
    obtain ⟨hname, hdir⟩ := Prod.mk.inj hinfo
    have hvisit : visit fw found (parseFolder fw found fuel) (firmwarePath p) s info =
        some (found (firmwarePath (p ++ [n])) s) := by
      rw [visit, hname, hdir, fullName_firmwarePath hp ht.1]
      rfl
    rw [List.foldlM_cons, hvisit]
    exact hrest fuel hfuel infos hinfos _
  | folder n es rest ihes ihrest =>
    obtain ⟨-, ⟨inside, henumerates, hlists⟩, hinside, hbelowRest⟩ := hbelow
    obtain ⟨hn, hes, hrestNames⟩ := ht
    have hpn := properNames_append hp hn
    obtain ⟨enoughInside, hentries⟩ := ihes hpn hes hinside
    obtain ⟨enoughRest, hrest⟩ := ihrest hp hrestNames hbelowRest
    refine ⟨max enoughRest (max enoughInside (inside.length + 4) + 1), fun fuel hfuel infos hinfos s => ?_⟩
    obtain ⟨hfuelRest, hfuel⟩ := max_le_iff.1 hfuel
    obtain ⟨info, infos, rfl, hinfo, hinfos⟩ := List.map_eq_cons_iff.1 hinfos
    obtain ⟨hname, hdir⟩ := Prod.mk.inj hinfo
    have hparse : parseFolder fw found fuel (firmwarePath (p ++ [n])) s =
        some ((es.nodes.map Prod.fst).foldl (fun s q => found (firmwarePath (p ++ [n] ++ q)) s) s) := by
      obtain ⟨k, rfl⟩ : ∃ k, fuel = k + 1 := ⟨fuel - 1, by omega⟩
      obtain ⟨hfuelInside, hfuelLength⟩ := max_le_iff.1 (Nat.le_of_succ_le_succ hfuel)
      rw [parseFolder_succ hgrows henumerates found hfuelLength]
      exact hentries k hfuelInside _ hlists s
    have hvisit : visit fw found (parseFolder fw found fuel) (firmwarePath p) s info =
        some (found (firmwarePath (p ++ [n]))
          ((es.nodes.map Prod.fst).foldl (fun s q => found (firmwarePath (p ++ [n] ++ q)) s) s)) := by
      rw [visit, hname, hdir, fullName_firmwarePath hp hn, if_pos rfl, hparse, Option.map_some]
    rw [List.foldlM_cons, hvisit]
    refine (hrest fuel hfuelRest infos hinfos _).trans ?_
    have hnodes : (FileTree.folder n es rest).nodes.map Prod.fst =
        (es.nodes.map Prod.fst).map (List.cons n) ++ [n] :: rest.nodes.map Prod.fst := by
      rw [FileTree.nodes, List.map_append, List.map_cons, List.map_map, List.map_map]
      rfl
    simp only [hnodes, List.foldl_append, List.foldl_cons, List.foldl_map, List.append_assoc,
      List.singleton_append]

/-- **The walk.** With enough fuel it calls `found` for the nodes of the tree, in their order. -/
theorem parseFolder_eq (h : fw.Holds t) (ht : t.AllNames ProperName) (found : List UInt16 → σ → σ) :
    ∃ enough, ∀ fuel, enough ≤ fuel → ∀ s, parseFolder fw found fuel [46] s =
      some ((t.nodes.map Prod.fst).foldl (fun s q => found (firmwarePath q) s) s) := by
  obtain ⟨infos, henumerates, hlists⟩ := h.root
  obtain ⟨enough, hentries⟩ := foldlM_visit h.grows found (List.forall_mem_nil _) ht h.below
  refine ⟨max enough (infos.length + 4) + 1, fun fuel hfuel s => ?_⟩
  obtain ⟨k, rfl⟩ : ∃ k, fuel = k + 1 := ⟨fuel - 1, by omega⟩
  obtain ⟨hfuelEntries, hfuelLength⟩ := max_le_iff.1 (Nat.le_of_succ_le_succ hfuel)
  exact (parseFolder_succ h.grows henumerates found hfuelLength s).trans
    (hentries k hfuelEntries _ hlists s)

/-- The nodes of the tree are served as they are. -/
theorem serves_of_has (hbelow : fw.ServesBelow p t) {q : List (List UInt8)} {c : Option (List UInt8)}
    (hq : t.Has q c) : fw.Serves (p ++ q) c := by
  induction hq generalizing p with
  | file | folder => exact hbelow.1
  | inside _ ih =>
    rw [← List.singleton_append, ← List.append_assoc]
    exact ih hbelow.2.2.1
  | afterFile _ ih => exact ih hbelow.2
  | afterFolder _ ih => exact ih hbelow.2.2.2

end Walk

/-! ### The array -/

section Array

variable {fw : Firmware} {t : Volume} {fuel : ℕ} {memory : Cells InitFile} {p q : List (List UInt8)}
  {c d : Option (List UInt8)} {before : Cells UInt8}

theorem foldl_countFiles (paths : List (List (List UInt8))) (information : FileTable) :
    (paths.foldl (fun s q => countFiles (firmwarePath q) s) information).fileCount =
      information.fileCount + paths.length := by
  induction paths generalizing information with
  | nil => rfl
  | cons q paths ih =>
    rw [List.foldl_cons, ih, List.length_cons]
    show information.fileCount + 1 + paths.length = _
    omega

theorem foldl_addFiles (paths : List (List (List UInt8))) (information : FileTable) :
    paths.foldl (fun s q => addFiles fw (firmwarePath q) s) information =
      ⟨information.fileCount + paths.length,
        information.fileData.storeList information.fileCount
          (paths.map fun q => initFile fw (firmwarePath q))⟩ := by
  induction paths generalizing information with
  | nil => rfl
  | cons q paths ih =>
    rw [List.foldl_cons, ih, List.map_cons, Cells.storeList, List.length_cons, Nat.add_comm paths.length,
      ← Nat.add_assoc]
    rfl

/-- **The import.** What has been counted is what is stored, and the array has an element for each node
of the tree. -/
theorem importFiles_eq (h : fw.Holds t) (ht : t.AllNames ProperName) (memory : Cells InitFile) :
    ∃ enough, ∀ fuel, enough ≤ fuel → importFiles fw fuel memory =
      some (t.nodes.length,
        ⟨t.nodes.length, memory.storeList 0 (t.nodes.map fun x => initFile fw (firmwarePath x.1))⟩) := by
  obtain ⟨enoughCount, hcount⟩ := parseFolder_eq h ht countFiles
  obtain ⟨enoughAdd, hadd⟩ := parseFolder_eq h ht (addFiles fw)
  refine ⟨max enoughCount enoughAdd, fun fuel hfuel => ?_⟩
  obtain ⟨hfuelCount, hfuelAdd⟩ := max_le_iff.1 hfuel
  simp only [importFiles, hcount fuel hfuelCount, hadd fuel hfuelAdd, bind, Option.bind_some, pure,
    foldl_countFiles, foldl_addFiles, Nat.zero_add, List.length_map, List.map_map]
  rfl

/-- What `addFiles` stores for a node is that node's. -/
theorem describes_initFile (hserves : fw.Serves p c) (hp : ∀ n ∈ p, ProperName n) :
    (initFile fw (firmwarePath p)).Describes fw.narrowMemory p c := by
  have hfill : (initFile fw (firmwarePath p)).name.memory =
      fw.narrowMemory.storeList 0 (filePath p ++ [0]) := by
    rw [← map_toSlash_firmwarePath hp]
    exact fillName_tail 46 _ fw.narrowMemory
  have hsize : (initFile fw (firmwarePath p)).name.size = (filePath p).length + 1 := by
    rw [← map_toSlash_firmwarePath hp, List.length_map]
    rfl
  have hdata : (initFile fw (firmwarePath p)).size.toNat = (c.getD []).length ∧
      (initFile fw (firmwarePath p)).data = c := by
    cases c with
    | none =>
      have hfolder : (fw.fileInfo (firmwarePath p)).directory = true := hserves
      simp [initFile, hfolder]
    | some contents =>
      obtain ⟨hfile, hlength, hread⟩ := hserves
      simp [initFile, hfile, hlength, hread]
  refine ⟨?_, hsize.ge, ?_, hdata.1, hdata.2⟩
  · rw [hfill]
    exact Cells.has_storeList _ _ _
  · rw [hfill, hsize]
    refine (Cells.storesIn_storeList _ _ _).mono fun i hi => ?_
    rw [List.length_append, List.length_singleton, Nat.zero_add] at hi
    exact hi.2

/-- The string that an element's name points to. -/
def InitFile.text (f : InitFile) : List UInt8 := stringIn 0 f.name.size f.name.memory

theorem InitFile.Describes.text_eq {f : InitFile} (h : f.Describes before p c)
    (hp : ∀ n ∈ p, ProperName n) : f.text = filePath p :=
  stringIn_eq h.name (zero_notMem_filePath hp) h.room

/-- The paths of the nodes are different strings. -/
theorem nodup_filePaths (ht : t.AllNames ProperName) (hdistinct : t.Distinct) :
    (t.nodes.map fun x => filePath x.1).Nodup := by
  show (t.nodes.map (filePath ∘ Prod.fst)).Nodup
  rw [← List.map_map]
  refine (FileTree.nodup_paths hdistinct).map_on fun p hp q hq heq => ?_
  obtain ⟨x, hx, rfl⟩ := List.mem_map.1 hp
  obtain ⟨y, hy, rfl⟩ := List.mem_map.1 hq
  exact filePath_inj ((FileTree.mem_nodes.1 hx).allNames ht) ((FileTree.mem_nodes.1 hy).allNames ht) heq

/-- What the array is to be for a tree: as many elements as have been counted, an element for each node,
and nothing else; and no store for it lies outside the memory for that many. -/
structure Imported (fw : Firmware) (t : Volume) (memory : Cells InitFile) (counted : ℕ)
    (information : FileTable) : Prop where
  agree : counted = information.fileCount
  stores : Cells.StoresIn (Set.Iio counted) memory information.fileData
  once : ∀ p c, t.Has p c →
    ∃! i, i < information.fileCount ∧ (information.fileData.cell i).Describes fw.narrowMemory p c
  only : ∀ i < information.fileCount,
    ∃ p c, t.Has p c ∧ (information.fileData.cell i).Describes fw.narrowMemory p c

theorem imported (h : fw.Holds t) (ht : t.AllNames ProperName) (hdistinct : t.Distinct)
    (memory : Cells InitFile) :
    Imported fw t memory t.nodes.length
      ⟨t.nodes.length, memory.storeList 0 (t.nodes.map fun x => initFile fw (firmwarePath x.1))⟩ := by
  have hcell : ∀ i (hi : i < t.nodes.length),
      (memory.storeList 0 (t.nodes.map fun x => initFile fw (firmwarePath x.1))).cell i =
        initFile fw (firmwarePath t.nodes[i].1) := by
    intro i hi
    have hstored := Cells.storeList_cell memory 0 (t.nodes.map fun x => initFile fw (firmwarePath x.1)) i
    rw [Nat.zero_add, List.getElem?_map, List.getElem?_eq_getElem hi] at hstored
    exact hstored
  have hhas : ∀ i (hi : i < t.nodes.length), t.Has t.nodes[i].1 t.nodes[i].2 := fun i hi =>
    FileTree.mem_nodes.1 (List.getElem_mem hi)
  have hdescribes : ∀ i (hi : i < t.nodes.length),
      ((memory.storeList 0 (t.nodes.map fun x => initFile fw (firmwarePath x.1))).cell i).Describes
        fw.narrowMemory t.nodes[i].1 t.nodes[i].2 := by
    intro i hi
    rw [hcell i hi]
    exact describes_initFile (serves_of_has h.below (hhas i hi)) ((hhas i hi).allNames ht)
  refine ⟨rfl, ?_, fun p c hp => ?_, fun i hi => ⟨_, _, hhas i hi, hdescribes i hi⟩⟩
  · refine (Cells.storesIn_storeList _ _ _).mono fun i hi => ?_
    rw [List.length_map, Nat.zero_add] at hi
    exact hi.2
  · obtain ⟨i, hi, hnode⟩ := List.getElem_of_mem (FileTree.mem_nodes.2 hp)
    have hdesc := hdescribes i hi
    rw [hnode] at hdesc
    refine ⟨i, ⟨hi, hdesc⟩, fun j hj => ?_⟩
    -- another element has the path of another node
    obtain ⟨hj, hdesc'⟩ := hj
    have hpath : filePath t.nodes[j].1 = filePath t.nodes[i].1 := by
      rw [← (hdescribes j hj).text_eq ((hhas j hj).allNames ht), hdesc'.text_eq (hp.allNames ht), hnode]
    have hnodes := nodup_filePaths ht hdistinct
    have hsame : t.nodes[j] = t.nodes[i] :=
      List.inj_on_of_nodup_map hnodes (List.getElem_mem hj) (List.getElem_mem hi) hpath
    exact (List.Nodup.of_map _ hnodes).getElem_inj_iff.1 hsame

end Array

end Naul
