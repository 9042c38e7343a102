import Naul.Processes.Neutral

/-!
# The image of a program (`os/src/processes.c`)

The file of a program begins with the word of its entry point; the rest is the image. `execute` takes the
size of the word from the size of the file and one from that for the number of pages, in unsigned
arithmetic and without a test. `image_right_iff`: the results are those of the integers exactly for files
that have something behind the word.
-/

namespace Naul

open LinkRing

namespace Execution

open Symbols Filesystem

/-- The image: its size and its address, the number of pages for `createTable`, and the memory it is in. -/
structure Image where
  size : UInt64
  program : UInt64
  pages : UInt64
  memory : Cells UInt8

/-- The part of `execute` up to the copy, and the number of pages that is computed later. -/
def loadImage (fuel : ℕ) (filename : CString) (m : Cells UInt8) (k : Execution) : Option Image := do
  let (data, size) ← k.files.getFile fuel filename
  let size := size - Processes.sizeofEntry
  let (program, _) ← k.allocator.allocateAligned fuel size pageSize
  return ⟨size, program, programPages size,
    copyMemoryFrom (readBytes (k.contents data) 8 size.toNat) program.toNat m⟩

/-- The bytes of a file. -/
def fileBytes (k : Execution) (file : Entry) : List UInt8 := readBytes (k.contents file.data) 0 file.size.toNat

/-- For a file of `n` bytes the size and the number of pages are those of the integers. -/
structure Unwrapped (n : UInt64) : Prop where
  size : (n - Processes.sizeofEntry).toNat + 8 = n.toNat
  last : (n - Processes.sizeofEntry - 1).toNat + 1 = (n - Processes.sizeofEntry).toNat
  pages : (programPages (n - Processes.sizeofEntry)).toNat =
    (n - Processes.sizeofEntry - 1).toNat / pageSize.toNat + 1

/-- What an image is to be: it covers its pages, or no thread is created for it; and its bytes are those of
the file behind the word, with no store beside them. -/
structure ImageRight (k : Execution) (filename : CString) (file : Entry) (m : Cells UInt8) : Prop where
  unwrapped : Unwrapped file.size
  covers : ∀ n image, k.loadImage n filename m = some image →
    ((image.pages.toNat - 1) * pageSize.toNat < image.size.toNat ∧
      image.size.toNat ≤ image.pages.toNat * pageSize.toNat) ∨ ∀ n, k.execute n filename = none
  copied : ∀ n image, k.loadImage n filename m = some image →
    image.memory.Has image.program.toNat ((k.fileBytes file).drop 8) ∧
      Cells.StoresIn (Set.Ico image.program.toNat (image.program.toNat + (file.size.toNat - 8))) m
        image.memory

section Image

variable {k k' : Execution} {xs : List UInt64} {filename : CString} {file : Entry} {m : Cells UInt8}
  {thread : ThreadRecord} {image : Image} {n : UInt64} {fuel : ℕ}

theorem unwrapped_iff : Unwrapped n ↔ 9 ≤ n.toNat := by
  have hentry : Processes.sizeofEntry.toNat = 8 := rfl
  have hone : (1 : UInt64).toNat = 1 := rfl
  constructor
  · intro h
    have hsize := h.size
    have hlast := h.last
    omega
  · intro h
    have hsize : (n - Processes.sizeofEntry).toNat = n.toNat - 8 :=
      UInt64.toNat_sub_of_le _ _ (UInt64.le_iff_toNat_le.2 (by omega))
    have hlast : (n - Processes.sizeofEntry - 1).toNat = n.toNat - 8 - 1 := by
      rw [UInt64.toNat_sub_of_le _ _ (UInt64.le_iff_toNat_le.2 (by omega)), hsize, hone]
    refine ⟨by omega, by omega, ?_⟩
    rw [programPages, UInt64.toNat_add, UInt64.toNat_div, hone]
    refine Nat.mod_eq_of_lt ?_
    have hdiv := Nat.div_le_self (n - Processes.sizeofEntry - 1).toNat pageSize.toNat
    have hn := n.toNat_lt
    omega

/-- The pages of an image that has a byte. -/
theorem programPages_covers (h : Unwrapped n) :
    ((programPages (n - Processes.sizeofEntry)).toNat - 1) * pageSize.toNat <
        (n - Processes.sizeofEntry).toNat ∧
      (n - Processes.sizeofEntry).toNat ≤
        (programPages (n - Processes.sizeofEntry)).toNat * pageSize.toNat := by
  have hpage : 0 < pageSize.toNat := by decide
  rw [h.pages, Nat.add_sub_cancel, ← h.last, Nat.add_one_mul]
  have hmod := Nat.mod_add_div' (n - Processes.sizeofEntry - 1).toNat pageSize.toNat
  have hlt := Nat.mod_lt (n - Processes.sizeofEntry - 1).toNat hpage
  constructor <;> omega

/-- The image is loaded from the file that is found. -/
theorem loadImage_eq_some (hring : IsRing k.files.links k.files.files xs)
    (hfile : firstNamed (k.files.entries xs) filename = some file)
    (h : k.loadImage fuel filename m = some image) :
    image.size = file.size - Processes.sizeofEntry ∧ image.pages = programPages image.size ∧
      image.memory = copyMemoryFrom (readBytes (k.contents file.data) 8 image.size.toNat)
        image.program.toNat m := by
  simp only [loadImage, bind, Option.bind_eq_some_iff, pure, Option.some.injEq] at h
  obtain ⟨found, hfound, ⟨program, t⟩, -, rfl⟩ := h
  cases getFile_unique hfound (getFile_eq hring hfile)
  exact ⟨rfl, rfl, rfl⟩

/-- When `execute` has created a thread, this is the image that it has entered in the tables, with this
number of pages. -/
theorem execute_loadImage (m : Cells UInt8) (h : k.execute fuel filename = some (thread, k')) :
    ∃ (image : Image) (data : UInt64) (k₁ : Execution), k.loadImage fuel filename m = some image ∧
      image.pages = programPages image.size ∧
      (k₁.launch fuel data image.program image.size).map Prod.fst = some thread := by
  simp only [execute, bind, Option.bind_eq_some_iff, pure, Option.some.injEq, Prod.mk.injEq] at h
  obtain ⟨⟨data, size⟩, hfound, ⟨program, t⟩, halloc, k₁, -, ⟨thread', k₂⟩, hlaunch, rfl, -⟩ := h
  let image : Image := ⟨size - Processes.sizeofEntry, program, programPages (size - Processes.sizeofEntry),
    copyMemoryFrom (readBytes (k.contents data) 8 (size - Processes.sizeofEntry).toNat) program.toNat m⟩
  have himage : k.loadImage fuel filename m = some image := by
    simp only [loadImage, hfound, halloc, bind, Option.bind_some, pure]
    rfl
  refine ⟨image, data, k₁, himage, rfl, ?_⟩
  exact Option.map_eq_some_iff.2 ⟨_, hlaunch, rfl⟩

theorem drop_readBytes (data : ℕ → UInt8) (n : ℕ) :
    (readBytes data 0 n).drop 8 = readBytes data 8 (n - 8) := by
  apply List.ext_getElem
  · simp [readBytes]
  · intro i hi hi'
    simp [readBytes]

/-- **When the arithmetic of an image is right.** For a file in the filesystem: exactly when it has at least
nine bytes. -/
theorem image_right_iff (hring : IsRing k.files.links k.files.files xs)
    (hfile : firstNamed (k.files.entries xs) filename = some file) (m : Cells UInt8) :
    ImageRight k filename file m ↔ 9 ≤ file.size.toNat := by
  refine ⟨fun h => unwrapped_iff.1 h.unwrapped, fun h => ?_⟩
  have hunwrapped := unwrapped_iff.2 h
  refine ⟨hunwrapped, fun n image himage => ?_, fun n image himage => ?_⟩
  · obtain ⟨hsize, hpages, -⟩ := loadImage_eq_some hring hfile himage
    rw [hpages, hsize]
    exact .inl (programPages_covers hunwrapped)
  · obtain ⟨hsize, -, hmemory⟩ := loadImage_eq_some hring hfile himage
    have hlength : image.size.toNat = file.size.toNat - 8 := by
      have hexact := hunwrapped.size
      rw [hsize]
      omega
    rw [hmemory, fileBytes, drop_readBytes, hlength]
    refine ⟨Cells.has_storeList _ _ _, ?_⟩
    have hstores := Cells.storesIn_storeList m image.program.toNat
      (readBytes (k.contents file.data) 8 (file.size.toNat - 8))
    rw [readBytes, List.length_map, List.length_range] at hstores
    exact hstores

/-- A filesystem with one file, of `n` bytes. -/
def oneProgram (n : UInt64) : Execution where
  files := ⟨0, ⟨fun a => if a = 0 then 1 else 0, fun a => if a = 0 then 1 else 0⟩, fun _ => ⟨3, n, 5⟩,
    fun _ => elfName⟩
  contents := fun _ _ => 0
  mainPdpt := 7
  allocator := Allocator.initAllocator fun _ => ⟨false, 0, 0⟩
  memory := ⟨fun _ => 0, []⟩
  currentThread := ⟨0, 0, 0, 0, 0, 0⟩
  deadThreads := []

theorem isRing_oneProgram (n : UInt64) : IsRing (oneProgram n).files.links (oneProgram n).files.files [1] := by
  constructor
  · simp [oneProgram]
  · simp [oneProgram, Linked]

theorem firstNamed_oneProgram (n : UInt64) :
    firstNamed ((oneProgram n).files.entries [1]) elfName = some ⟨elfName, n, 5⟩ := rfl

/-- Memory that holds nothing yet. -/
def noBytes : Cells UInt8 := ⟨fun _ => 0, []⟩

theorem image_right_nine : ImageRight (oneProgram 9) elfName ⟨elfName, 9, 5⟩ noBytes :=
  (image_right_iff (isRing_oneProgram 9) (firstNamed_oneProgram 9) noBytes).2 (by decide)

/-- With nothing behind the word there are `2 ^ 43` pages for an image of no bytes, and from a file that is
shorter than the word nearly `2 ^ 64` bytes are to be copied. -/
theorem image_wraps :
    ¬ ImageRight (oneProgram 8) elfName ⟨elfName, 8, 5⟩ noBytes ∧
      (∃ image, (oneProgram 8).loadImage 3 elfName noBytes = some image ∧ image.size = 0 ∧
        image.pages.toNat = 2 ^ 43) ∧
      ¬ ImageRight (oneProgram 7) elfName ⟨elfName, 7, 5⟩ noBytes ∧
      (7 - Processes.sizeofEntry).toNat = 2 ^ 64 - 1 := by
  refine ⟨fun h => ?_, ⟨_, rfl, by decide, by decide⟩, fun h => ?_, by decide⟩
  · exact absurd (unwrapped_iff.1 h.unwrapped) (by decide)
  · exact absurd (unwrapped_iff.1 h.unwrapped) (by decide)

end Image

end Execution

end Naul
