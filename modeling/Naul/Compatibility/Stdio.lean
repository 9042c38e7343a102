import Naul.Filesystem
import Naul.Lib.Cells
import Naul.Lib.Trace
import Naul.Str.Compare

/-!
# Files of the compatibility layer (`programs/compatibility/include/stdio.h`)

`fopen` takes the first entry of `openFiles` whose `memory` is null and returns its index plus one;
`fread` copies from the offset on and advances it, and `fclose` sets `memory` to null. An entry behind
the end of `openFiles` is what is in memory there.

`fread` computes the end of what it delivers as a minimum and narrows the distance to an `int`, which it
returns: a number of bytes, and of items only where these have one byte (`fread_countsItems_iff`). As long
as the file has less than `2 ^ 31` bytes the offset is the number of bytes asked for so far, cut at the
size (`Reads`), so that it does not matter how the reading is split up (`fread_chunks`).
-/

namespace Naul

/-- An element of `openFiles`; `memory` is the address of the file's first byte. -/
structure OpenFile where
  memory : UInt64
  size : UInt64
  offset : UInt64
  deriving DecidableEq

/-- The array `openFiles`, the memory that the files are in, and the buffers of those who read. `reads`
is a ghost: the places each handle's bytes have been read from, since the beginning. -/
structure Stdio where
  openFiles : UInt64 → OpenFile
  memory : UInt64 → UInt8
  buffers : Cells UInt8
  reads : UInt64 → List UInt64

namespace OpenFile

/-- The variable `bytes` of `fread(buf, size, count, handle)`. -/
def bytes (f : OpenFile) (size count : UInt64) : Int32 :=
  narrow ((if f.offset + size * count < f.size then f.offset + size * count else f.size) - f.offset)

/-- The values of `source` in the turns of the loop. -/
def sources (f : OpenFile) (bytes : Int32) : List UInt64 :=
  (List.range bytes.toInt.toNat).map fun i => f.memory + f.offset + .ofNat i

end OpenFile

namespace Stdio

/-- `while (openFiles[id].memory) { id++; }`. -/
def scanBody (openFiles : UInt64 → OpenFile) (id : UInt64) : UInt64 ⊕ UInt64 :=
  if (openFiles id).memory ≠ 0 then .inl (id + 1) else .inr id

/-- `fopen(filename, mode)`, which does not look at the mode: the handle. -/
def fopen (fuel : ℕ) (files : Filesystem) (filename : CString) (s : Stdio) : Option (UInt64 × Stdio) := do
  if ← files.checkFile fuel filename then
    let id ← WhileLoop.run (scanBody s.openFiles) fuel 0
    let (memory, size) ← files.getFile fuel filename
    return (id + 1, { s with openFiles := Function.update s.openFiles id ⟨memory, size, 0⟩ })
  else return (0, s)

def fclose (handle : UInt64) (s : Stdio) : Stdio :=
  { s with
    openFiles := Function.update s.openFiles (handle - 1) { s.openFiles (handle - 1) with memory := 0 } }

/-- `fread(buf, size, count, handle)`: what it returns. -/
def fread (buf size count handle : UInt64) (s : Stdio) : Int32 × Stdio :=
  let f := s.openFiles (handle - 1)
  let bytes := f.bytes size count
  let source := f.sources bytes
  (bytes, { s with
    buffers := s.buffers.storeList buf.toNat (source.map s.memory)
    openFiles := Function.update s.openFiles (handle - 1)
      { f with offset := f.offset + .ofInt bytes.toInt }
    reads := Function.update s.reads handle (s.reads handle ++ source) })

inductive Event
  | fopen (fuel : ℕ) (files : Filesystem) (filename : CString)
  | fclose (handle : UInt64)
  | fread (buf size count handle : UInt64)

def step (s : Stdio) : Event → Option Stdio
  | .fopen fuel files filename => (s.fopen fuel files filename).map Prod.snd
  | .fclose handle => some (s.fclose handle)
  | .fread buf size count handle => some (s.fread buf size count handle).2

/-- The bytes that have been delivered through a handle, since the beginning. -/
def delivered (s : Stdio) (handle : UInt64) : List UInt8 := (s.reads handle).map s.memory

/-- What the handle is for stays open, and no request on it overflows. -/
def Proper (handle : UInt64) (s : Stdio) : Event → Prop
  | .fopen _ _ _ => True
  | .fclose h => h ≠ handle
  | .fread _ size count h => h = handle → size.toNat * count.toNat < 2 ^ 64 ∧
    (s.openFiles (handle - 1)).offset.toNat + size.toNat * count.toNat < 2 ^ 64

instance decidableProper (handle : UInt64) (s : Stdio) : ∀ e, Decidable (s.Proper handle e)
  | .fopen _ _ _ => isTrue trivial
  | .fclose h => inferInstanceAs (Decidable (h ≠ handle))
  | .fread _ _ _ h => inferInstanceAs (Decidable (h = handle → _ ∧ _))

/-- What the caller of `fread` finds in its buffer: as many bytes from `buf` on as it has been returned. -/
def chunk (buf size count handle : UInt64) (s : Stdio) : List UInt8 :=
  let r := s.fread buf size count handle
  (List.range r.1.toInt.toNat).map fun i => r.2.buffers.cell (buf.toNat + i)

/-- What an event brings to those who read through the handle. -/
def Event.brings (handle : UInt64) (s : Stdio) : Event → List UInt8
  | .fopen _ _ _ | .fclose _ => []
  | .fread buf size count h => if h = handle then s.chunk buf size count h else []

/-- What those who read through the handle find in their buffers in a run, one chunk after the other. -/
def received (handle : UInt64) : Stdio → List Event → List UInt8
  | _, [] => []
  | s, e :: events =>
    match s.step e with
    | none => []
    | some s' => e.brings handle s ++ received handle s' events

/-- The number of bytes that an event asks for on the handle. -/
def Event.requested (handle : UInt64) : Event → ℕ
  | .fopen _ _ _ | .fclose _ => 0
  | .fread _ size count h => if h = handle then size.toNat * count.toNat else 0

/-! ### What one request delivers -/

/-- What a request delivers is in the buffer, and its length is what is returned. -/
theorem fread_delivers (s : Stdio) (buf size count handle : UInt64) :
    ∃ chunk, (s.fread buf size count handle).2.delivered handle = s.delivered handle ++ chunk ∧
      (s.fread buf size count handle).2.buffers.Has buf.toNat chunk ∧
      chunk.length = (s.fread buf size count handle).1.toInt.toNat := by
  refine ⟨_, ?_, Cells.has_storeList _ _ _, ?_⟩
  · simp [delivered, fread]
  · simp [fread, OpenFile.sources]

end Stdio

namespace OpenFile

variable {f : OpenFile} {size count : UInt64}

/-- The end of what is delivered. -/
theorem toNat_end (hproduct : size.toNat * count.toNat < 2 ^ 64)
    (hsum : f.offset.toNat + size.toNat * count.toNat < 2 ^ 64) :
    (if f.offset + size * count < f.size then f.offset + size * count else f.size).toNat =
      min (f.offset.toNat + size.toNat * count.toNat) f.size.toNat := by
  have hend : (f.offset + size * count).toNat = f.offset.toNat + size.toNat * count.toNat := by
    rw [UInt64.toNat_add, UInt64.toNat_mul, Nat.mod_eq_of_lt hproduct, Nat.mod_eq_of_lt hsum]
  split_ifs with hlt
  · rw [UInt64.lt_iff_toNat_lt, hend] at hlt
    rw [hend, min_eq_left hlt.le]
  · rw [UInt64.lt_iff_toNat_lt, hend, not_lt] at hlt
    rw [min_eq_right hlt]

/-- The end is the offset advanced by what is asked for, cut at the size. -/
theorem toInt_bytes (hoffset : f.offset.toNat ≤ f.size.toNat) (hsize : f.size.toNat < 2 ^ 31)
    (hproduct : size.toNat * count.toNat < 2 ^ 64)
    (hsum : f.offset.toNat + size.toNat * count.toNat < 2 ^ 64) :
    (f.bytes size count).toInt =
      (min (f.offset.toNat + size.toNat * count.toNat) f.size.toNat - f.offset.toNat : ℕ) := by
  have hmin := toNat_end hproduct hsum
  have hle : f.offset ≤ if f.offset + size * count < f.size then f.offset + size * count else f.size := by
    rw [UInt64.le_iff_toNat_le, hmin]
    exact le_min (Nat.le_add_right _ _) hoffset
  have hdistance := UInt64.toNat_sub_of_le _ _ hle
  rw [hmin] at hdistance
  rw [bytes, narrow_of_lt, hdistance]
  rw [hdistance]
  omega

/-- What is asked for and left of the file, negative when the offset is behind the end. -/
def rest (f : OpenFile) (size count : UInt64) : ℤ :=
  min (f.offset.toNat + size.toNat * count.toNat : ℤ) f.size.toNat - f.offset.toNat

/-- In general an `int` gets what is left of that modulo `2 ^ 32`. -/
theorem toInt_bytes_eq_bmod (hproduct : size.toNat * count.toNat < 2 ^ 64)
    (hsum : f.offset.toNat + size.toNat * count.toNat < 2 ^ 64) :
    (f.bytes size count).toInt = (f.rest size count).bmod (2 ^ 32) := by
  have hend := toNat_end hproduct hsum
  have hsize := f.size.toNat_lt
  have hoffset := f.offset.toNat_lt
  rw [bytes, narrow_toInt, UInt64.toNat_sub, hend, rest]
  simp only [Int.bmod]
  omega

end OpenFile

namespace Stdio

/-- What the request returns is the number of complete items among the bytes that it delivers, and at
most `count`. -/
structure CountsItems (s : Stdio) (buf size count handle : UInt64) : Prop where
  complete : ∃ chunk, (s.fread buf size count handle).2.delivered handle = s.delivered handle ++ chunk ∧
    (s.fread buf size count handle).1.toInt = (chunk.length / size.toNat : ℕ)
  le_count : (s.fread buf size count handle).1.toInt ≤ count.toNat

variable {s : Stdio} {buf size count handle : UInt64}

/-- A number in an `int` is a count of items of `size` bytes, of which there are at most `count`. -/
theorem items_iff {rest : ℤ} {size count : ℕ} (hsize : 1 ≤ size) :
    rest.bmod (2 ^ 32) = ((rest.bmod (2 ^ 32)).toNat / size : ℕ) ∧ rest.bmod (2 ^ 32) ≤ count ↔
      rest % 2 ^ 32 = 0 ∨ size = 1 ∧ rest % 2 ^ 32 < 2 ^ 31 ∧ rest % 2 ^ 32 ≤ count := by
  have hbmod : rest.bmod (2 ^ 32) =
      if rest % 2 ^ 32 < 2 ^ 31 then rest % 2 ^ 32 else rest % 2 ^ 32 - 2 ^ 32 := by
    simp only [Int.bmod]
    norm_num
  have hnonneg : 0 ≤ rest % 2 ^ 32 := Int.emod_nonneg _ (by norm_num)
  have hlt : rest % 2 ^ 32 < 2 ^ 32 := Int.emod_lt_of_pos _ (by norm_num)
  rw [hbmod]
  generalize rest % 2 ^ 32 = m at hnonneg hlt ⊢
  lift m to ℕ using hnonneg
  split_ifs with hint
  · rw [Int.toNat_natCast, Int.natCast_inj]
    rcases Nat.eq_zero_or_pos m with rfl | hpos
    · simp
    · have hdiv : m = m / size ↔ size = 1 := by
        constructor
        · intro heq
          by_contra hne
          exact absurd heq (Nat.div_lt_self hpos (by omega)).ne'
        · rintro rfl
          rw [Nat.div_one]
      rw [hdiv]
      omega
  · refine iff_of_false (fun h => ?_) (by omega)
    have hneg : (m : ℤ) - 2 ^ 32 < 0 := by omega
    exact absurd (h.1 ▸ Int.natCast_nonneg _) (not_le.2 hneg)

theorem complete_iff : (∃ chunk,
      (s.fread buf size count handle).2.delivered handle = s.delivered handle ++ chunk ∧
      (s.fread buf size count handle).1.toInt = (chunk.length / size.toNat : ℕ)) ↔
    (s.fread buf size count handle).1.toInt =
      ((s.fread buf size count handle).1.toInt.toNat / size.toNat : ℕ) := by
  obtain ⟨chunk, hchunk, -, hlength⟩ := fread_delivers s buf size count handle
  rw [← hlength]
  constructor
  · rintro ⟨chunk', hchunk', hcount⟩
    rw [hchunk, List.append_cancel_left_eq] at hchunk'
    rwa [hchunk']
  · exact fun hcount => ⟨chunk, hchunk, hcount⟩

/-- **`fread` returns bytes.** It returns the number of complete items exactly when their size is 1 and
the bytes that are asked for and left, modulo `2 ^ 32`, are less than `2 ^ 31` and at most `count`, or
when they are none, modulo `2 ^ 32`. -/
theorem fread_countsItems_iff (hsize : 1 ≤ size.toNat) (hproduct : size.toNat * count.toNat < 2 ^ 64)
    (hsum : (s.openFiles (handle - 1)).offset.toNat + size.toNat * count.toNat < 2 ^ 64) :
    s.CountsItems buf size count handle ↔
      (s.openFiles (handle - 1)).rest size count % 2 ^ 32 = 0 ∨
        size = 1 ∧ (s.openFiles (handle - 1)).rest size count % 2 ^ 32 < 2 ^ 31 ∧
          (s.openFiles (handle - 1)).rest size count % 2 ^ 32 ≤ count.toNat := by
  have hbytes : (s.fread buf size count handle).1.toInt =
      ((s.openFiles (handle - 1)).rest size count).bmod (2 ^ 32) :=
    OpenFile.toInt_bytes_eq_bmod hproduct hsum
  generalize (s.openFiles (handle - 1)).rest size count = rest at hbytes ⊢
  have hiff : s.CountsItems buf size count handle ↔
      rest.bmod (2 ^ 32) = ((rest.bmod (2 ^ 32)).toNat / size.toNat : ℕ) ∧
        rest.bmod (2 ^ 32) ≤ count.toNat := by
    rw [← hbytes, ← complete_iff]
    exact ⟨fun h => ⟨h.complete, h.le_count⟩, fun h => ⟨h.1, h.2⟩⟩
  have hone : size = 1 ↔ size.toNat = 1 := UInt64.toNat_inj.symm
  rw [hiff, hone, items_iff hsize]

/-- Every entry is of a file of five bytes at the address 16, of which nothing has been read. -/
def unread : Stdio := ⟨fun _ => ⟨16, 5, 0⟩, fun _ => 0, ⟨fun _ => 0, []⟩, fun _ => []⟩

/-- Three items of one byte. -/
theorem fread_countsItems_bytes : unread.CountsItems 64 1 3 1 :=
  (fread_countsItems_iff (by decide) (by decide) (by decide)).2 (.inr ⟨rfl, by decide, by decide⟩)

/-- Of two items of two bytes 4 is returned. -/
theorem fread_returns_bytes : ¬ unread.CountsItems 64 2 2 1 := by
  intro h
  have hle := h.le_count
  revert hle
  decide

end Stdio

/-! ### The requests of a run -/

namespace Stdio

variable {s s' t : Stdio} {e : Event} {events : List Event} {handle h buf data size count fileSize : UInt64}
  {before : List UInt64} {asked : ℕ}

/-- So far `asked` bytes have been asked for on the handle of a file at `data`, and what there is of them
has been delivered, after `before`. -/
structure Reads (handle data fileSize : UInt64) (before : List UInt64) (asked : ℕ) (s : Stdio) :
    Prop where
  memory : (s.openFiles (handle - 1)).memory = data
  size : (s.openFiles (handle - 1)).size = fileSize
  offset : (s.openFiles (handle - 1)).offset.toNat = min asked fileSize.toNat
  reads : s.reads handle =
    before ++ (List.range (min asked fileSize.toNat)).map fun i => data + .ofNat i

/-- An event that leaves the entry of the handle and what was read through it alone. -/
theorem Reads.frame (hs : Reads handle data fileSize before asked s)
    (hentry : s'.openFiles (handle - 1) = s.openFiles (handle - 1))
    (hreads : s'.reads handle = s.reads handle) : Reads handle data fileSize before asked s' where
  memory := by rw [hentry, hs.memory]
  size := by rw [hentry, hs.size]
  offset := by rw [hentry, hs.offset]
  reads := by rw [hreads, hs.reads]

theorem index_ne (hne : h ≠ handle) : handle - 1 ≠ h - 1 := by
  intro heq
  exact hne ((UInt64.sub_left_inj 1).1 heq).symm

/-- The loop of `fopen` ends at an entry without memory. -/
theorem scan_memory {fuel : ℕ} {openFiles : UInt64 → OpenFile} {id id' : UInt64}
    (hscan : WhileLoop.run (scanBody openFiles) fuel id = some id') : (openFiles id').memory = 0 := by
  obtain ⟨i, -, hexit⟩ := WhileLoop.run_exit hscan
  unfold scanBody at hexit
  split_ifs at hexit with hmemory
  cases hexit
  exact not_not.1 hmemory

/-- `fopen` takes the entry at which the loop ends, or none. -/
theorem fopen_spec {fuel : ℕ} {files : Filesystem} {filename : CString}
    (hopen : s.fopen fuel files filename = some (handle, s')) :
    handle = 0 ∧ s' = s ∨
      files.checkFile fuel filename = some true ∧
        WhileLoop.run (scanBody s.openFiles) fuel 0 = some (handle - 1) ∧
        ∃ memory size, files.getFile fuel filename = some (memory, size) ∧
          s' = { s with openFiles := Function.update s.openFiles (handle - 1) ⟨memory, size, 0⟩ } := by
  simp only [fopen, bind, Option.bind_eq_some_iff] at hopen
  obtain ⟨found, hcheck, hopen⟩ := hopen
  cases found with
  | false =>
    obtain ⟨rfl, rfl⟩ : 0 = handle ∧ s = s' := by simpa using hopen
    exact .inl ⟨rfl, rfl⟩
  | true =>
    simp only [if_true, Option.bind_eq_some_iff] at hopen
    obtain ⟨id, hid, ⟨memory, size⟩, hfile, hopen⟩ := hopen
    obtain ⟨rfl, rfl⟩ : id + 1 = handle ∧ _ = s' := by simpa using hopen
    rw [UInt64.add_sub_cancel]
    exact .inr ⟨hcheck, hid, memory, size, hfile, rfl⟩

theorem ofInt_natCast (n : ℕ) : UInt64.ofInt n = UInt64.ofNat n := by
  rw [UInt64.ofInt]
  apply UInt64.toNat_inj.1
  rw [UInt64.toNat_ofNat', UInt64.toNat_ofNat']
  omega

/-- A request on the handle. -/
theorem Reads.fread (hs : Reads handle data fileSize before asked s) (hsize : fileSize.toNat < 2 ^ 31)
    (hproduct : size.toNat * count.toNat < 2 ^ 64)
    (hsum : (s.openFiles (handle - 1)).offset.toNat + size.toNat * count.toNat < 2 ^ 64) :
    Reads handle data fileSize before (asked + size.toNat * count.toNat)
      (s.fread buf size count handle).2 := by
  obtain ⟨hmemory, hfileSize, hoffset, hreads⟩ := hs
  have hbytes := OpenFile.toInt_bytes (by rw [hoffset, hfileSize]; exact min_le_right _ _)
    (by rwa [hfileSize]) hproduct hsum
  rw [hoffset, hfileSize] at hbytes
  have hnext : min asked fileSize.toNat + (min (min asked fileSize.toNat + size.toNat * count.toNat)
      fileSize.toNat - min asked fileSize.toNat) =
      min (asked + size.toNat * count.toNat) fileSize.toNat := by omega
  have hstart : (s.openFiles (handle - 1)).offset = .ofNat (min asked fileSize.toNat) := by
    rw [← hoffset, UInt64.ofNat_toNat]
  constructor
  · simp [Stdio.fread, hmemory]
  · simp [Stdio.fread, hfileSize]
  · simp only [Stdio.fread, Function.update_self, hbytes]
    rw [ofInt_natCast, UInt64.toNat_add, hoffset, UInt64.toNat_ofNat']
    omega
  · simp only [Stdio.fread, Function.update_self, OpenFile.sources, hbytes, Int.toNat_natCast, hreads,
      hmemory]
    rw [← hnext, List.range_add, List.map_append, List.map_map, List.append_assoc, hstart]
    congr 2
    apply List.map_congr_left
    intro i _
    show data + _ + _ = data + _
    rw [UInt64.ofNat_add, UInt64.add_assoc]

/-- Any other event. -/
theorem Reads.step (hs : Reads handle data fileSize before asked s) (hdata : data ≠ 0)
    (hsize : fileSize.toNat < 2 ^ 31) (he : s.Proper handle e) (hstep : s.step e = some s') :
    Reads handle data fileSize before (asked + e.requested handle) s' := by
  cases e with
  | fopen fuel files filename =>
    obtain ⟨⟨h, s''⟩, hopen, rfl⟩ := Option.map_eq_some_iff.1 hstep
    obtain ⟨-, rfl⟩ | ⟨-, hscan, memory, size, -, rfl⟩ := fopen_spec hopen
    · exact hs
    · refine hs.frame (Function.update_of_ne ?_ _ _) rfl
      intro heq
      have hfree := scan_memory hscan
      rw [← heq, hs.memory] at hfree
      exact hdata hfree
  | fclose h =>
    obtain rfl := Option.some.inj hstep
    exact hs.frame (Function.update_of_ne (index_ne he) _ _) rfl
  | fread buf size count h =>
    obtain rfl := Option.some.inj hstep
    by_cases hh : h = handle
    · obtain ⟨hproduct, hsum⟩ := he hh
      rw [Event.requested, if_pos hh, hh]
      exact hs.fread hsize hproduct hsum
    · rw [Event.requested, if_neg hh]
      exact hs.frame (Function.update_of_ne (index_ne hh) _ _) (Function.update_of_ne (Ne.symm hh) _ _)

/-- Nothing is ever stored to a file. -/
theorem memory_step (hstep : s.step e = some s') : s'.memory = s.memory := by
  cases e with
  | fopen fuel files filename =>
    obtain ⟨⟨h, s''⟩, hopen, rfl⟩ := Option.map_eq_some_iff.1 hstep
    obtain ⟨-, rfl⟩ | ⟨-, -, memory, size, -, rfl⟩ := fopen_spec hopen
    · rfl
    · rfl
  | fclose h =>
    obtain rfl := Option.some.inj hstep
    rfl
  | fread buf size count h =>
    obtain rfl := Option.some.inj hstep
    rfl

theorem memory_run (hrun : Trace.run step s events = some t) : t.memory = s.memory :=
  Trace.run_invariant (I := fun s' => s'.memory = s.memory)
    (fun _ _ _ hs hstep => (memory_step hstep).trans hs) rfl hrun

/-- The requests of a run add up. -/
theorem Reads.run (hs : Reads handle data fileSize before asked s) (hdata : data ≠ 0)
    (hsize : fileSize.toNat < 2 ^ 31) (hproper : Trace.Along Stdio.step (Proper handle) s events)
    (hrun : Trace.run Stdio.step s events = some t) :
    Reads handle data fileSize before (asked + (events.map (Event.requested handle)).sum) t := by
  induction events generalizing s asked with
  | nil =>
    rw [Trace.run_nil, Option.some.injEq] at hrun
    exact hrun ▸ hs
  | cons e events ih =>
    rw [Trace.run_cons] at hrun
    obtain ⟨s', hstep, hrest⟩ := Option.bind_eq_some_iff.1 hrun
    rw [List.map_cons, List.sum_cons, ← Nat.add_assoc]
    exact ih (hs.step hdata hsize hproper.1 hstep) (hproper.2 s' hstep) hrest

/-- What is read for the handle is what its buffers get. -/
theorem fread_chunk (s : Stdio) (buf size count handle : UInt64) :
    (s.fread buf size count handle).2.delivered handle =
      s.delivered handle ++ s.chunk buf size count handle := by
  obtain ⟨bytes, hdelivered, hbuffer, hlength⟩ := fread_delivers s buf size count handle
  rw [hdelivered, List.append_cancel_left_eq, chunk, ← hlength]
  refine List.ext_getElem (by simp) fun i hi _ => ?_
  rw [List.getElem_map, List.getElem_range]
  exact (hbuffer i _ (List.getElem?_eq_getElem hi)).symm

theorem delivered_step (hstep : s.step e = some s') :
    s'.delivered handle = s.delivered handle ++ e.brings handle s := by
  have hmemory := memory_step hstep
  cases e with
  | fopen fuel files filename =>
    obtain ⟨⟨h, s''⟩, hopen, rfl⟩ := Option.map_eq_some_iff.1 hstep
    obtain ⟨-, rfl⟩ | ⟨-, -, memory, size, -, rfl⟩ := fopen_spec hopen
    · exact (List.append_nil _).symm
    · exact (List.append_nil _).symm
  | fclose h =>
    obtain rfl := Option.some.inj hstep
    exact (List.append_nil _).symm
  | fread buf size count h =>
    obtain rfl := Option.some.inj hstep
    by_cases hh : h = handle
    · rw [Event.brings, if_pos hh, hh]
      exact fread_chunk s buf size count handle
    · rw [Event.brings, if_neg hh, List.append_nil, delivered, hmemory]
      exact congrArg _ (Function.update_of_ne (Ne.symm hh) _ _)

theorem delivered_run (hrun : Trace.run step s events = some t) :
    t.delivered handle = s.delivered handle ++ received handle s events := by
  induction events generalizing s with
  | nil =>
    rw [Trace.run_nil, Option.some.injEq] at hrun
    rw [← hrun, received, List.append_nil]
  | cons e events ih =>
    rw [Trace.run_cons] at hrun
    obtain ⟨s', hstep, hrest⟩ := Option.bind_eq_some_iff.1 hrun
    rw [ih hrest, delivered_step hstep, received, hstep, List.append_assoc]

/-- The contents of a file of `size` bytes at `data`. -/
def contents (s : Stdio) (data size : UInt64) : List UInt8 :=
  (List.range size.toNat).map fun i => s.memory (data + .ofNat i)

/-- **However a file is read, it is read in order.** After `fopen` has returned a handle, those who read
through it find in their buffers, in as many bytes as `fread` has returned to them, as much of the file as
they ask for altogether, and every byte comes from the file. -/
theorem fread_chunks {fuel : ℕ} {files : Filesystem} {filename : CString}
    (hopen : s.fopen fuel files filename = some (handle, s')) (hhandle : handle ≠ 0)
    (hfile : files.getFile fuel filename = some (data, fileSize)) (hdata : data ≠ 0)
    (hsize : fileSize.toNat < 2 ^ 31) (hproper : Trace.Along step (Proper handle) s' events)
    (hrun : Trace.run step s' events = some t) :
    received handle s' events =
        (s'.contents data fileSize).take (min (events.map (Event.requested handle)).sum fileSize.toNat) ∧
      (t.openFiles (handle - 1)).offset.toNat ≤ fileSize.toNat ∧
      ∃ sources, t.reads handle = s'.reads handle ++ sources ∧
        ∀ source ∈ sources, ∃ i < fileSize.toNat, source = data + .ofNat i := by
  have hstart : Reads handle data fileSize (s'.reads handle) 0 s' := by
    obtain ⟨rfl, -⟩ | ⟨-, -, memory, size, hfile', rfl⟩ := fopen_spec hopen
    · exact absurd rfl hhandle
    · obtain ⟨rfl, rfl⟩ := Prod.mk.inj (Option.some.inj (hfile.symm.trans hfile'))
      constructor <;> simp
  have hend := hstart.run hdata hsize hproper hrun
  rw [Nat.zero_add] at hend
  refine ⟨?_, ?_, _, hend.reads, ?_⟩
  · have hreceived : t.delivered handle = s'.delivered handle ++ received handle s' events :=
      delivered_run hrun
    rw [delivered, hend.reads, memory_run hrun, List.map_append, List.map_map, delivered,
      List.append_cancel_left_eq] at hreceived
    rw [← hreceived, contents, ← List.map_take, List.take_range, min_assoc, min_self]
    rfl
  · rw [hend.offset]
    exact min_le_right _ _
  · intro source hsource
    obtain ⟨i, hi, rfl⟩ := List.mem_map.1 hsource
    exact ⟨i, (List.mem_range.1 hi).trans_le (min_le_right _ _), rfl⟩

/-- The file "/a", of five bytes at the address 16. -/
def fiveBytes : Filesystem :=
  { Filesystem.oneFile Filesystem.folderName with file := fun _ => ⟨2, 5, 16⟩ }

/-- No file is open, and the byte at every address is its lowest. -/
def unopened : Stdio := ⟨fun _ => ⟨0, 0, 0⟩, UInt64.toUInt8, ⟨fun _ => 0, []⟩, fun _ => []⟩

/-- The state after the file has been opened. -/
def opened : Stdio :=
  { unopened with openFiles := Function.update unopened.openFiles 0 ⟨16, 5, 0⟩ }

/-- Three bytes are asked for and then four, where there are five. -/
theorem fread_chunks_twice :
    unopened.fopen 3 fiveBytes Filesystem.folderName = some (1, opened) ∧
      received 1 opened [.fread 64 1 3 1, .fread 80 2 2 1] = [16, 17, 18, 19, 20] := by
  have hopen : unopened.fopen 3 fiveBytes Filesystem.folderName = some (1, opened) := rfl
  have hfile : fiveBytes.getFile 3 Filesystem.folderName = some (16, 5) := rfl
  have hproper : Trace.Along step (Proper 1) opened [.fread 64 1 3 1, .fread 80 2 2 1] := by decide
  obtain ⟨t, hrun⟩ : ∃ t, Trace.run step opened [.fread 64 1 3 1, .fread 80 2 2 1] = some t :=
    ⟨_, rfl⟩
  refine ⟨hopen, ?_⟩
  rw [(fread_chunks hopen (by decide) hfile (by decide) (by decide) hproper hrun).1]
  decide

end Stdio

end Naul
