import Naul.Compatibility.Stdio

/-!
# The handles of open files (`programs/compatibility/include/stdio.h`)

A handle is the index of an entry of `openFiles`, plus one. `fopen` looks for the first entry without
memory, and does not stop at the end of the array.

As long as files are opened only while one of the five entries is free, the handles that are open are
those of different entries (`handles_distinct`). When none is, `fopen` goes on behind the array
(`notMem_entries_of_full`).
-/

namespace Naul

/-- The files of a program, and as a ghost the handles that `fopen` has returned and that have not been
closed. -/
structure Handles where
  stdio : Stdio
  handles : List UInt64

/-- The number of elements of `openFiles`. -/
def entryCount : ℕ := 5

/-- The handle of which a call is. -/
def Stdio.Event.operand : Stdio.Event → Option UInt64
  | .fopen _ _ _ => none
  | .fclose handle => some handle
  | .fread _ _ _ handle => some handle

namespace Handles

open Stdio

def step (s : Handles) : Event → Option Handles
  | .fopen fuel files filename => do
    let (handle, stdio) ← s.stdio.fopen fuel files filename
    return ⟨stdio, if handle = 0 then s.handles else handle :: s.handles⟩
  | .fclose handle => some ⟨s.stdio.fclose handle, s.handles.filter fun h => h ≠ handle⟩
  | .fread buf size count handle => some ⟨(s.stdio.fread buf size count handle).2, s.handles⟩

/-- No file has been opened. -/
structure Started (s : Handles) : Prop where
  handles : s.handles = []
  memory : ∀ i < entryCount, (s.stdio.openFiles (.ofNat i)).memory = 0

/-- An entry is free. -/
def Free (s : Handles) : Prop := ∃ i < entryCount, (s.stdio.openFiles (.ofNat i)).memory = 0

instance decidableFree (s : Handles) : Decidable s.Free :=
  inferInstanceAs (Decidable (∃ i < entryCount, (s.stdio.openFiles (.ofNat i)).memory = 0))

/-- A file that exists is opened only while an entry is free, and its name is not also that of a folder
that comes before it. -/
def Roomy (s : Handles) : Event → Prop
  | .fopen fuel files filename => files.checkFile fuel filename = some true →
    s.Free ∧ (files.getFile fuel filename).map Prod.fst ≠ some 0
  | .fclose _ | .fread _ _ _ _ => True

instance decidableRoomy (s : Handles) : ∀ e, Decidable (s.Roomy e)
  | .fopen _ _ _ => inferInstanceAs (Decidable (_ = some true → s.Free ∧ _ ≠ some 0))
  | .fclose _ | .fread _ _ _ _ => isTrue trivial

/-- The open handles are those of different entries. -/
structure Distinct (s : Handles) : Prop where
  inRange : ∀ h ∈ s.handles, ∃ i < entryCount, h = .ofNat i + 1
  nodup : s.handles.Nodup

/-- The entries of the open handles but that of the call are as they were. -/
def Spares (s : Handles) (e : Event) (s' : Handles) : Prop :=
  ∀ h ∈ s.handles, e.operand ≠ some h → s'.stdio.openFiles (h - 1) = s.stdio.openFiles (h - 1)

/-! ### The invariant -/

/-- The entries of the open handles are in use. -/
structure Inv (s : Handles) : Prop extends s.Distinct where
  used : ∀ h ∈ s.handles, (s.stdio.openFiles (h - 1)).memory ≠ 0

variable {s s' t : Handles} {e : Event} {events : List Event} {handle : UInt64}

theorem Started.inv (h : s.Started) : s.Inv := by
  refine ⟨⟨?_, ?_⟩, ?_⟩ <;> simp [h.handles]

/-- The loop of `fopen` ends at the first entry that is free. -/
theorem scan_le {openFiles : UInt64 → OpenFile} {fuel i : ℕ} {id : UInt64} (hi : i < entryCount)
    (hfree : (openFiles (.ofNat i)).memory = 0)
    (hscan : WhileLoop.run (scanBody openFiles) fuel 0 = some id) : id.toNat ≤ i := by
  refine WhileLoop.run_invariant (I := fun id => id.toNat ≤ i) (Q := fun id => id.toNat ≤ i)
    (fun id id' hle hturn => ?_) (fun id id' hle hturn => ?_) (Nat.zero_le i) hscan
  · unfold scanBody at hturn
    split_ifs at hturn with hmemory
    cases hturn
    have hne : id.toNat ≠ i := by
      rintro rfl
      rw [UInt64.ofNat_toNat] at hfree
      exact hmemory hfree
    have hi' : i < 5 := hi
    rw [UInt64.toNat_add, UInt64.toNat_one]
    omega
  · unfold scanBody at hturn
    split_ifs at hturn
    cases hturn
    exact hle

/-- Where an entry is free, a handle that is new is that of a free entry. -/
theorem scan_handle {fuel : ℕ} (hfree : s.Free)
    (hscan : WhileLoop.run (scanBody s.stdio.openFiles) fuel 0 = some (handle - 1)) :
    ∃ i < entryCount, handle = .ofNat i + 1 := by
  obtain ⟨i, hi, hmemory⟩ := hfree
  refine ⟨(handle - 1).toNat, (scan_le hi hmemory hscan).trans_lt hi, ?_⟩
  rw [UInt64.ofNat_toNat, UInt64.sub_add_cancel]

theorem ne_zero_of_inRange (hrange : ∃ i < entryCount, handle = .ofNat i + 1) : handle ≠ 0 := by
  obtain ⟨i, hi, rfl⟩ := hrange
  have hi' : i < 5 := hi
  intro hzero
  have hnat := congrArg UInt64.toNat hzero
  rw [UInt64.toNat_add, UInt64.toNat_ofNat', UInt64.toNat_one, UInt64.toNat_zero] at hnat
  omega

/-- A file is opened. -/
theorem Inv.open (h : s.Inv) {memory size : UInt64} (hrange : ∃ i < entryCount, handle = .ofNat i + 1)
    (hfree : (s.stdio.openFiles (handle - 1)).memory = 0) (hmemory : memory ≠ 0) :
    Inv ⟨{ s.stdio with
      openFiles := Function.update s.stdio.openFiles (handle - 1) ⟨memory, size, 0⟩ },
      handle :: s.handles⟩ := by
  have hnew : ∀ k ∈ s.handles, k ≠ handle := by
    rintro k hk rfl
    exact h.used k hk hfree
  refine ⟨⟨?_, ?_⟩, ?_⟩
  · intro k hk
    rcases List.mem_cons.1 hk with rfl | hk
    · exact hrange
    · exact h.inRange k hk
  · exact List.nodup_cons.2 ⟨fun hmem => hnew handle hmem rfl, h.nodup⟩
  · intro k hk
    dsimp only
    rcases List.mem_cons.1 hk with rfl | hk
    · rwa [Function.update_self]
    · rw [Function.update_of_ne (index_ne (hnew k hk).symm)]
      exact h.used k hk

/-- A handle is closed. -/
theorem Inv.close (h : s.Inv) (handle : UInt64) :
    Inv ⟨s.stdio.fclose handle, s.handles.filter fun k => k ≠ handle⟩ := by
  have hrest : ∀ {k}, k ∈ (s.handles.filter fun k => k ≠ handle) ↔ k ∈ s.handles ∧ k ≠ handle := by
    simp [List.mem_filter]
  refine ⟨⟨?_, ?_⟩, ?_⟩
  · intro k hk
    exact h.inRange k (hrest.1 hk).1
  · exact h.nodup.filter _
  · intro k hk
    obtain ⟨hk, hne⟩ := hrest.1 hk
    show (Function.update s.stdio.openFiles (handle - 1) _ (k - 1)).memory ≠ 0
    rw [Function.update_of_ne (index_ne hne.symm)]
    exact h.used k hk

/-- Reading does not touch the memory of an entry. -/
theorem memory_fread (s : Stdio) (buf size count handle id : UInt64) :
    ((s.fread buf size count handle).2.openFiles id).memory = (s.openFiles id).memory := by
  show (Function.update s.openFiles (handle - 1) _ id).memory = _
  by_cases hid : id = handle - 1
  · rw [hid, Function.update_self]
  · rw [Function.update_of_ne hid]

theorem inv_step (h : s.Inv) (hC : s.Roomy e) (hstep : s.step e = some s') : s'.Inv := by
  cases e with
  | fopen fuel files filename =>
    obtain ⟨⟨handle, stdio⟩, hopen, hs'⟩ := Option.bind_eq_some_iff.1 hstep
    obtain rfl := Option.some.inj hs'
    obtain ⟨rfl, rfl⟩ | ⟨hcheck, hscan, memory, size, hfile, rfl⟩ := fopen_spec hopen
    · rw [if_pos rfl]
      exact h
    · obtain ⟨hfree, hmemory⟩ := hC hcheck
      rw [hfile] at hmemory
      have hrange := scan_handle hfree hscan
      rw [if_neg (ne_zero_of_inRange hrange)]
      exact h.open hrange (scan_memory hscan) fun hzero => hmemory (congrArg some hzero)
  | fclose handle =>
    obtain rfl := Option.some.inj hstep
    exact h.close handle
  | fread buf size count handle =>
    obtain rfl := Option.some.inj hstep
    refine ⟨⟨h.inRange, h.nodup⟩, fun k hk => ?_⟩
    dsimp only
    rw [memory_fread]
    exact h.used k hk

/-- The other entries are spared. -/
theorem Inv.spares (h : s.Inv) (hstep : s.step e = some s') : s.Spares e s' := by
  intro k hk hne
  cases e with
  | fopen fuel files filename =>
    obtain ⟨⟨handle, stdio⟩, hopen, hs'⟩ := Option.bind_eq_some_iff.1 hstep
    obtain rfl := Option.some.inj hs'
    dsimp only
    obtain ⟨rfl, rfl⟩ | ⟨-, hscan, memory, size, -, rfl⟩ := fopen_spec hopen
    · rfl
    · apply Function.update_of_ne
      intro heq
      exact h.used k hk (heq ▸ scan_memory hscan)
  | fclose handle =>
    obtain rfl := Option.some.inj hstep
    exact Function.update_of_ne (index_ne fun heq => hne (congrArg some heq)) _ _
  | fread buf size count handle =>
    obtain rfl := Option.some.inj hstep
    exact Function.update_of_ne (index_ne fun heq => hne (congrArg some heq)) _ _

/-- Where no entry is free, `fopen` returns the handle of none: it takes what is behind the array for
an entry. -/
theorem notMem_entries_of_full {stdio : Stdio} {fuel : ℕ} {files : Filesystem} {filename : CString}
    (hfull : ¬ s.Free) (hopen : s.stdio.fopen fuel files filename = some (handle, stdio)) :
    ∀ i < entryCount, handle ≠ .ofNat i + 1 := by
  intro i hi heq
  obtain ⟨hzero, -⟩ | ⟨-, hscan, -⟩ := fopen_spec hopen
  · exact ne_zero_of_inRange ⟨i, hi, heq⟩ hzero
  · have hmemory := scan_memory hscan
    rw [heq, UInt64.add_sub_cancel] at hmemory
    exact hfull ⟨i, hi, hmemory⟩

/-- **The handles are distinct.** In every state of a run in which a file is opened only while an entry is
free, the open handles are those of different entries of `openFiles`, whatever is called next leaves the
entries of the others as they are, and `fopen` returns 0 when no entry is free. -/
theorem handles_distinct (hs : s.Started) (hC : Trace.Along step Roomy s events)
    (hrun : Trace.run step s events = some t) :
    t.Distinct ∧ ∀ e t', t.Roomy e → t.step e = some t' →
      t.Spares e t' ∧ (¬ t.Free → ∀ fuel files filename, e = .fopen fuel files filename →
        t.stdio.fopen fuel files filename = some (0, t.stdio)) := by
  have hinv := Trace.run_invariant_along (fun _ _ _ => inv_step) hs.inv hC hrun
  refine ⟨hinv.toDistinct, fun e t' hroomy hstep => ⟨hinv.spares hstep, ?_⟩⟩
  rintro hfull fuel files filename rfl
  obtain ⟨⟨handle, stdio⟩, hopen, -⟩ := Option.bind_eq_some_iff.1 hstep
  obtain ⟨rfl, rfl⟩ | ⟨hcheck, -⟩ := fopen_spec hopen
  · exact hopen
  · exact absurd (hroomy hcheck).1 hfull

/-- Nothing is open. -/
def closed : Handles := ⟨unopened, []⟩

/-- Two files are opened, the first is closed, and another is opened. -/
def reopened : List Event :=
  [.fopen 9 fiveBytes Filesystem.folderName, .fopen 9 fiveBytes Filesystem.folderName, .fclose 1,
    .fopen 9 fiveBytes Filesystem.folderName]

/-- The entry of the first is used again. -/
theorem handles_distinct_reopened :
    ∃ t, Trace.run step closed reopened = some t ∧ t.handles = [1, 2] ∧ t.Distinct := by
  have hstart : closed.Started := ⟨rfl, fun _ _ => rfl⟩
  have hC : Trace.Along step Roomy closed reopened := by decide
  obtain ⟨t, hrun, hhandles⟩ : ∃ t, Trace.run step closed reopened = some t ∧ t.handles = [1, 2] :=
    ⟨_, rfl, rfl⟩
  exact ⟨t, hrun, hhandles, (handles_distinct hstart hC hrun).1⟩

/-- Where the memory behind the array has a null pointer, the sixth handle is 6. -/
theorem sixth_handle_behind_entries :
    ∃ t, Trace.run step closed (List.replicate 6 (.fopen 9 fiveBytes Filesystem.folderName)) = some t ∧
      6 ∈ t.handles ∧ ¬ t.Distinct := by
  refine ⟨_, rfl, List.mem_cons_self, fun h => ?_⟩
  obtain ⟨i, hi, heq⟩ := h.inRange 6 List.mem_cons_self
  revert i
  decide

end Handles

end Naul
