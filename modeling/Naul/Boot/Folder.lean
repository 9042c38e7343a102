import Mathlib.Data.UInt
import Naul.Lib.WhileLoop

/-!
# Enumerating a folder (`openFolder` of `os/src/bootloader.c`)

The handle of a folder gives one entry in each `Read` if the buffer is large enough for it; if not, it says
how large the buffer has to be, and stays where it is. `openFolder` leaves the allocation of the buffer to
`GrowBuffer`, and returns the entry, or null when the handle has given them all.

The firmware and `GrowBuffer` are a parameter (`FolderCalls`). Where they do this, `openFolder` returns what
comes next after three turns at most: `openFolder_next`, `openFolder_end`.
-/

namespace Naul

/-- The fields of `EFI_FILE_INFO` that are used; `directory` is `Attribute & EFI_FILE_DIRECTORY`. -/
structure FileInfo where
  fileName : List UInt16
  directory : Bool
  fileSize : UInt64

/-- `EFI_STATUS`, as far as `openFolder` and `GrowBuffer` tell one from another. -/
inductive EfiStatus
  | success
  | bufferTooSmall
  | failure

/-- What a call of `folder->Read` has done: what it returns and stores to `bufferSize`, the entry it stores
into the buffer if any, and how many entries the handle has given. -/
structure FolderRead where
  status : EfiStatus
  bufferSize : UInt64
  stored : Option FileInfo
  position : ℕ

/-- What `openFolder` calls. A handle is the path for which `Open` has given it; a null buffer is `none`. -/
structure FolderCalls where
  /-- `GrowBuffer(&status, &buffer, bufferSize)`: what it returns, and `buffer`. The status it stores is not
  looked at: the next one is that of `Read`. -/
  growBuffer : EfiStatus → Option FileInfo → UInt64 → Bool × Option FileInfo
  /-- `folder->Read(folder, &bufferSize, buffer)`. -/
  read : List UInt16 → ℕ → UInt64 → FolderRead

/-- The variables `status`, `buffer` and `bufferSize` of `openFolder`, and where the handle is. -/
structure Opening where
  status : EfiStatus
  buffer : Option FileInfo
  bufferSize : UInt64
  position : ℕ

/-- A turn of the loop of `openFolder`, which is left with `end`, or with the buffer. -/
def openBody (calls : FolderCalls) (folder : List UInt16) (s : Opening) :
    Opening ⊕ (Option FileInfo × ℕ) :=
  match calls.growBuffer s.status s.buffer s.bufferSize with
  | (false, buffer) => .inr (buffer, s.position)
  | (true, buffer) =>
    let r := calls.read folder s.position s.bufferSize
    if r.bufferSize = 0 then .inr (none, r.position)
    else .inl ⟨r.status, r.stored.or buffer, r.bufferSize, r.position⟩

/-- `SIZE_OF_EFI_FILE_INFO + 200`. -/
def openSize : UInt64 := 80 + 200

/-- `openFolder(folder)`, with a handle that has given `position` entries: what it returns, and how many the
handle has given then. -/
def openFolder (calls : FolderCalls) (fuel : ℕ) (folder : List UInt16) (position : ℕ) :
    Option (Option FileInfo × ℕ) :=
  WhileLoop.run (openBody calls folder) fuel ⟨.success, none, openSize, position⟩

namespace FolderCalls

/-- Without a buffer, or with one that was too small, `GrowBuffer` allocates one and wants another try; with
one that was large enough it does not. -/
structure Grows (calls : FolderCalls) : Prop where
  first : ∀ status size, size ≠ 0 → ∃ buffer, calls.growBuffer status none size = (true, some buffer)
  again : ∀ buffer size, size ≠ 0 →
    ∃ buffer', calls.growBuffer .bufferTooSmall (some buffer) size = (true, some buffer')
  enough : ∀ buffer size, calls.growBuffer .success (some buffer) size = (false, some buffer)

/-- The folder has these entries, in this order, each in a buffer of some size. -/
structure Enumerates (calls : FolderCalls) (folder : List UInt16) (infos : List FileInfo) : Prop where
  entry : ∀ k info, infos[k]? = some info → ∃ needed, needed ≠ 0 ∧ ∀ size,
    calls.read folder k size =
      if needed ≤ size then ⟨.success, needed, some info, k + 1⟩ else ⟨.bufferTooSmall, needed, none, k⟩
  rest : ∀ size, (calls.read folder infos.length size).bufferSize = 0

end FolderCalls

variable {calls : FolderCalls} {folder : List UInt16} {infos : List FileInfo} {info buffer : FileInfo}
  {size needed : UInt64} {s : Opening} {k fuel : ℕ}

/-- With a buffer that is large enough the entry is read, and nothing more is wanted. -/
theorem run_read (hgrows : calls.Grows) (hfuel : 2 ≤ fuel) (hneeded : needed ≠ 0)
    (hgrow : calls.growBuffer s.status s.buffer s.bufferSize = (true, some buffer))
    (hread : calls.read folder s.position s.bufferSize = ⟨.success, needed, some info, k⟩) :
    WhileLoop.run (openBody calls folder) fuel s = some (some info, k) := by
  obtain ⟨n, rfl⟩ : ∃ n, fuel = n + 1 + 1 := ⟨fuel - 2, by omega⟩
  have hfirst : openBody calls folder s = .inl ⟨.success, some info, needed, k⟩ := by
    simp only [openBody, hgrow, hread, if_neg hneeded, Option.some_or]
  have hsecond : openBody calls folder ⟨.success, some info, needed, k⟩ = .inr (some info, k) := by
    simp only [openBody, hgrows.enough]
  rw [WhileLoop.run_succ_inl hfirst, WhileLoop.run_succ_inr hsecond]

/-- **The next entry.** -/
theorem openFolder_next (hgrows : calls.Grows) (h : calls.Enumerates folder infos)
    (hk : infos[k]? = some info) (hfuel : 3 ≤ fuel) :
    openFolder calls fuel folder k = some (some info, k + 1) := by
  obtain ⟨needed, hneeded, hread⟩ := h.entry k info hk
  obtain ⟨buffer, hgrow⟩ := hgrows.first .success openSize (by decide)
  by_cases hle : needed ≤ openSize
  · have hfits := hread openSize
    rw [if_pos hle] at hfits
    exact run_read hgrows (by omega) hneeded hgrow hfits
  · -- the first buffer is too small, and the second one has the size that the firmware asks for
    have hsmall := hread openSize
    rw [if_neg hle] at hsmall
    have hfits := hread needed
    rw [if_pos (UInt64.le_refl needed)] at hfits
    obtain ⟨n, rfl⟩ : ∃ n, fuel = n + 1 := ⟨fuel - 1, by omega⟩
    have hfirst : openBody calls folder ⟨.success, none, openSize, k⟩ =
        .inl ⟨.bufferTooSmall, some buffer, needed, k⟩ := by
      simp only [openBody, hgrow, hsmall, if_neg hneeded, Option.none_or]
    obtain ⟨buffer', hgrow'⟩ := hgrows.again buffer needed hneeded
    rw [openFolder, WhileLoop.run_succ_inl hfirst]
    exact run_read hgrows (by omega) hneeded hgrow' hfits

/-- **The end.** -/
theorem openFolder_end (hgrows : calls.Grows) (h : calls.Enumerates folder infos) (hfuel : 1 ≤ fuel) :
    ∃ position, openFolder calls fuel folder infos.length = some (none, position) := by
  obtain ⟨buffer, hgrow⟩ := hgrows.first .success openSize (by decide)
  obtain ⟨n, rfl⟩ : ∃ n, fuel = n + 1 := ⟨fuel - 1, by omega⟩
  have hfirst : openBody calls folder ⟨.success, none, openSize, infos.length⟩ =
      .inr (none, (calls.read folder infos.length openSize).position) := by
    simp only [openBody, hgrow, if_pos (h.rest openSize)]
  exact ⟨_, WhileLoop.run_succ_inr hfirst n⟩

end Naul
