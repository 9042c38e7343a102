import Naul.Filesystem.Names
import Naul.Allocator.Batches
import Naul.Allocator.FirstFit

/-!
# What `deleteFile` gives back

`createFile` allocates three blocks (the entry, its name, its data) and `createFolder` two; the size of
a file may be 0. `deleteFile` always calls `unallocate` three times: with the address of the name, of the
data, which is 0 for a folder, and of the entry. A call clears the first record with that start.

`made` keeps the slots of the records that the creation of an entry has made. `Kept` is what holds of
them in every state of a run (`Kept.step`), and `deleteFile_exact_iff` says when a deletion gives back
these records and no other.
-/

namespace Naul

open LinkRing FirstMatch

namespace Filesystem

/-- The filesystem and the table, and for each entry the slots of the records made for it. -/
structure Store extends Session where
  made : UInt64 → Finset ℕ

inductive Event
  | createFile (name : CString) (size : UInt64)
  | createFolder (name : CString)
  | deleteFile (name : CString)
  /-- A call of another thread. -/
  | call (c : Allocator.Call)

/-- After a creation. The new entry is the last one, and its records are those that were not there
before. -/
def Store.create (s : Store) (fs : Filesystem) (table : Allocator) : Store :=
  ⟨⟨fs, table⟩, Function.update s.made (fs.links.prev fs.files) (table.live \ s.table.live)⟩

def Event.step (fuel : ℕ) (s : Store) : Event → Option Store
  | .createFile name size => (s.fs.createFile fuel name size s.table).map fun r => s.create r.2.1 r.2.2
  | .createFolder name => (s.fs.createFolder fuel name s.table).map fun r => s.create r.1 r.2
  | .deleteFile name => (s.fs.deleteFile fuel name s.table).map fun r => ⟨⟨r.1, r.2⟩, s.made⟩
  | .call c => (c.step fuel s.table).map fun table => ⟨⟨s.fs, table⟩, s.made⟩

/-- The first entry with the name. -/
def named (fs : Filesystem) (xs : List UInt64) (name : CString) : Option UInt64 :=
  xs.find? fun x => fs.nameOf x = name

/-- The blocks for an entry and its name end within the address space, and the entry is not put where
the variable `files` is. -/
def Placed (s : Store) (fuel : ℕ) (name : CString) : Prop :=
  ∀ file t text t', s.table.allocate fuel sizeofFile = some (file, t) →
    allocateName fuel name t = some (text, t') →
      file ≠ s.fs.files ∧ file.toNat + sizeofFile.toNat < 2 ^ 64 ∧
        text.toNat + (stringLength name.bytes + 1) < 2 ^ 64

/-- The entry is a file, and no other record with the start of one of its own comes before it. -/
def Releasable (s : Store) (x : UInt64) : Prop :=
  (s.fs.file x).data ≠ 0 ∧ Foremost s.table.startOf s.table.present (s.made x)

instance (s : Store) (x : UInt64) : Decidable (Releasable s x) :=
  decidable_of_iff ((s.fs.file x).data ≠ 0 ∧ ∀ i ∈ s.made x, ∀ j < i,
      (s.table.allocated j).present = true → s.table.startOf j = s.table.startOf i → j ∈ s.made x)
    (and_congr_right fun _ =>
      ⟨fun h i hi j hj hkey hlt => h i hi j hlt hj hkey, fun h i hi j hlt hj hkey => h i hi j hj hkey hlt⟩)

/-- The runs considered: a creation gets blocks that end within the address space, a deletion is one
of a releasable entry, and another thread frees no record of an entry. -/
def Event.Legal (fuel : ℕ) (s : Store) (e : Event) : Prop :=
  ∀ xs, IsRing s.fs.links s.fs.files xs →
    match e with
    | .createFile name _ | .createFolder name => Placed s fuel name
    | .deleteFile name => ∃ x, s.fs.named xs name = some x ∧ Releasable s x
    | .call (.unallocate pointer) =>
      (∃ i ∈ s.table.live, s.table.startOf i = pointer) ∧
        ∀ i, IsFirst s.table.startOf s.table.present pointer i → ∀ x ∈ xs, i ∉ s.made x
    | .call _ => True

/-- `deleteFile(name)` takes the entry `x` out of the list, and the records made for it out of the
table, and nothing else. -/
def Deletes (s : Store) (xs : List UInt64) (name : CString) (x : UInt64) : Prop :=
  ∃ fuel fs table, s.fs.deleteFile fuel name s.table = some (fs, table) ∧
    IsRing fs.links fs.files (xs.erase x) ∧ fs.entries (xs.erase x) = s.fs.entries (xs.erase x) ∧
    table.present = s.table.present \ s.made x

/-- The records made for an entry. -/
def madeFor (fs : Filesystem) (x : UInt64) : Multiset Allocation :=
  Allocator.block x sizeofFile ::ₘ
    Allocator.block (fs.file x).name (UInt64.ofNat (stringLength (fs.nameOf x).bytes + 1)) ::ₘ
      if (fs.file x).data = 0 then 0 else {Allocator.block (fs.file x).data (fs.file x).size}

/-- What holds of the records made for the entries. -/
structure Kept (s : Store) (xs : List UInt64) : Prop where
  ring : IsRing s.fs.links s.fs.files xs
  counted : s.table.Counted
  live : ∀ x ∈ xs, s.made x ⊆ s.table.live
  records : ∀ x ∈ xs, (s.made x).val.map s.table.allocated = s.fs.madeFor x
  apart : xs.Pairwise fun x y => Disjoint (s.made x) (s.made y)
  fits : ∀ x ∈ xs, x.toNat + sizeofFile.toNat < 2 ^ 64 ∧
    (s.fs.file x).name.toNat + (stringLength (s.fs.nameOf x).bytes + 1) < 2 ^ 64

section Creation

variable {s s' : Store} {xs : List UInt64} {fuel : ℕ} {name : CString} {file text size data : UInt64}
  {t t₁ t₂ : Allocator}

/-- The record of a block of the entry is present. -/
theorem Kept.mem_live {x : UInt64} {r : Allocation} (h : Kept s xs) (hx : x ∈ xs)
    (hr : r ∈ s.fs.madeFor x) : ∃ i ∈ s.table.live, s.table.allocated i = r := by
  rw [← h.records x hx] at hr
  obtain ⟨i, hi, rfl⟩ := Multiset.mem_map.1 hr
  exact ⟨i, h.live x hx hi, rfl⟩

theorem toNat_name_amount {n : ℕ} {p : UInt64} (h : p.toNat + (n + 1) < 2 ^ 64) :
    (UInt64.ofNat (n + 1)).toNat = n + 1 := by
  rw [UInt64.toNat_ofNat', Nat.mod_eq_of_lt (by omega)]

/-- The blocks for an entry and for its name are those of no other entry. -/
theorem Kept.fresh (h : Kept s xs) (hplaced : Placed s fuel name)
    (hfile : s.table.allocate fuel sizeofFile = some (file, t₁))
    (htext : allocateName fuel name t₁ = some (text, t₂)) : s.fs.Fresh xs file text := by
  obtain ⟨hhead, hfits, htextfits⟩ := hplaced file t₁ text t₂ hfile htext
  obtain ⟨hadds₁, hclear₁⟩ := Allocator.allocate_adds h.counted hfile
  obtain ⟨-, hclear₂⟩ := Allocator.allocate_adds hadds₁.counted htext
  have hsize : 1 ≤ sizeofFile.toNat := by decide
  refine ⟨fun hmem => ?_, fun x hx hname => ?_⟩
  · -- the new block is clear of the record of each entry
    rcases List.mem_cons.1 hmem with rfl | hx
    · exact hhead rfl
    · obtain ⟨i, hi, hrec⟩ := h.mem_live hx (Multiset.mem_cons_self ..)
      exact Allocator.not_clear_block hsize hsize hfits hfits (hrec ▸ hclear₁ i hi)
  · obtain ⟨-, hxfits⟩ := h.fits x hx
    obtain ⟨i, hi, hrec⟩ := h.mem_live hx
      (Multiset.mem_cons_of_mem (Multiset.mem_cons_self _ _))
    -- and the new name is clear of the record of each name
    have hclear := hclear₂ i (hadds₁.subset hi)
    rw [hadds₁.allocated_eq i hi, hrec, hname] at hclear
    rw [hname] at hxfits
    refine Allocator.not_clear_block ?_ ?_ ?_ ?_ hclear
    all_goals rw [toNat_name_amount (by assumption)]
    all_goals omega

/-- The entries that are there already keep their fields and their names. -/
theorem insert_old {fs : Filesystem} {x : UInt64} (hfresh : fs.Fresh xs file text) (name : CString)
    (size data : UInt64) (hx : x ∈ xs) :
    (fs.insert file text name size data).file x = fs.file x ∧
      (fs.insert file text name size data).nameOf x = fs.nameOf x := by
  have hne : x ≠ file := fun hxf => hfresh.1 (hxf ▸ List.mem_cons_of_mem _ hx)
  have hfile : (fs.insert file text name size data).file x = fs.file x := Function.update_of_ne hne ..
  refine ⟨hfile, ?_⟩
  rw [nameOf, hfile]
  exact Function.update_of_ne (hfresh.2 x hx) ..

theorem insert_new (fs : Filesystem) (file text : UInt64) (name : CString) (size data : UInt64) :
    (fs.insert file text name size data).file file = ⟨text, size, data⟩ ∧
      (fs.insert file text name size data).nameOf file = name := by
  have hfile : (fs.insert file text name size data).file file = ⟨text, size, data⟩ :=
    Function.update_self ..
  refine ⟨hfile, ?_⟩
  rw [nameOf, hfile]
  exact Function.update_self ..

/-- The new entry has the new records, and the others have theirs. -/
theorem made_create (hring : IsRing s.fs.links s.fs.files xs) (hfresh : s.fs.Fresh xs file text)
    (name : CString) (size data : UInt64) (table : Allocator) :
    (s.create (s.fs.insert file text name size data) table).made file = table.live \ s.table.live ∧
      ∀ x ∈ xs, (s.create (s.fs.insert file text name size data) table).made x = s.made x := by
  obtain ⟨hring', -⟩ := entries_insert hring hfresh name size data
  have hlast : (s.fs.insert file text name size data).links.prev
      (s.fs.insert file text name size data).files = file := (hring'.linked_last List.cons_append.symm).2
  rw [Store.create, hlast]
  refine ⟨Function.update_self .., fun x hx => Function.update_of_ne ?_ ..⟩
  exact fun hxf => hfresh.1 (hxf ▸ List.mem_cons_of_mem _ hx)

/-- A new entry, with the records that have been added for it. -/
theorem Kept.create {table : Allocator} (h : Kept s xs) (hfresh : s.fs.Fresh xs file text)
    (hfits : file.toNat + sizeofFile.toNat < 2 ^ 64)
    (htextfits : text.toNat + (stringLength name.bytes + 1) < 2 ^ 64)
    (hadds : Allocator.Adds s.table table ((s.fs.insert file text name size data).madeFor file)) :
    Kept (s.create (s.fs.insert file text name size data) table) (xs ++ [file]) := by
  obtain ⟨hring, -⟩ := entries_insert h.ring hfresh name size data
  obtain ⟨hnew, hmade⟩ := made_create h.ring hfresh name size data table
  have hold := fun x (hx : x ∈ xs) => insert_old hfresh name size data hx
  have hfor : ∀ x ∈ xs, (s.fs.insert file text name size data).madeFor x = s.fs.madeFor x := by
    intro x hx
    rw [madeFor, (hold x hx).1, (hold x hx).2]
    rfl
  refine ⟨hring, hadds.counted, ?_, ?_, ?_, ?_⟩
  · intro x hx
    rcases List.mem_append.1 hx with hx | hx
    · rw [hmade x hx]
      exact (h.live x hx).trans hadds.subset
    · rw [List.mem_singleton.1 hx, hnew]
      exact Finset.sdiff_subset
  · intro x hx
    rcases List.mem_append.1 hx with hx | hx
    · rw [hmade x hx]
      exact (Multiset.map_congr rfl fun i hi => hadds.allocated_eq i (h.live x hx hi)).trans
        ((h.records x hx).trans (hfor x hx).symm)
    · rw [List.mem_singleton.1 hx, hnew]
      exact hadds.records
  · -- the records for the new entry are new slots, and those of the others were there before
    rw [List.pairwise_append]
    refine ⟨h.apart.imp_of_mem fun {x y} hx hy hxy => ?_, List.pairwise_singleton _ _, ?_⟩
    · rw [hmade x hx, hmade y hy]
      exact hxy
    · intro x hx y hy
      rw [List.mem_singleton.1 hy, hmade x hx, hnew]
      exact Finset.disjoint_of_subset_left (h.live x hx) Finset.disjoint_sdiff
  · intro x hx
    rcases List.mem_append.1 hx with hx | hx
    · show x.toNat + sizeofFile.toNat < 2 ^ 64 ∧ _
      have hxfits := h.fits x hx
      rw [← (hold x hx).2, ← (hold x hx).1] at hxfits
      exact hxfits
    · rw [List.mem_singleton.1 hx]
      refine ⟨hfits, ?_⟩
      show ((s.fs.insert file text name size data).file file).name.toNat +
        (stringLength ((s.fs.insert file text name size data).nameOf file).bytes + 1) < 2 ^ 64
      obtain ⟨hfile, hname⟩ := insert_new s.fs file text name size data
      rw [hfile, hname]
      exact htextfits

end Creation

/-! ### Deletion -/

section Deletion

variable {s s' : Store} {xs : List UInt64} {name : CString} {x : UInt64} {fs fs' : Filesystem}
  {t t' : Allocator} {fuel : ℕ}

/-- The addresses that `deleteFile` gives to `unallocate`. -/
def addresses (fs : Filesystem) (x : UInt64) : List UInt64 := [(fs.file x).name, (fs.file x).data, x]

theorem named_split (hx : fs.named xs name = some x) :
    ∃ ys zs, xs = ys ++ x :: zs ∧ xs.erase x = ys ++ zs ∧ fs.nameOf x = name ∧
      ∀ y ∈ ys, fs.nameOf y ≠ name := by
  obtain ⟨hname, ys, zs, hxs, hys⟩ := List.find?_eq_some_iff_append.1 hx
  have hys' : ∀ y ∈ ys, fs.nameOf y ≠ name := fun y hy => by simpa using hys y hy
  have hname' : fs.nameOf x = name := by simpa using hname
  refine ⟨ys, zs, hxs, ?_, hname', hys'⟩
  rw [hxs, List.erase_append_right _ fun hmem => hys' x hmem hname', List.erase_cons_head]

/-- The list without the entry. -/
theorem isRing_named (h : IsRing fs.links fs.files xs) (hx : fs.named xs name = some x) :
    IsRing (unlinkList fs.links x) fs.files (xs.erase x) := by
  obtain ⟨ys, zs, rfl, herase, -, -⟩ := named_split hx
  rw [herase]
  exact isRing_unlinkList h

/-- `deleteFile` takes the entry out of the list and frees the three addresses. -/
theorem deleteFile_iff (h : IsRing fs.links fs.files xs) (hx : fs.named xs name = some x) :
    (∃ n, fs.deleteFile n name t = some (fs', t')) ↔
      fs' = { fs with links := unlinkList fs.links x } ∧
        ∃ n, t.unallocateAll n (fs.addresses x) = some t' := by
  have hfind : findElement (xs.length + 1) fs.links fs.files
      (fun file => decide (compareStrings name.bytes (fs.nameOf file).bytes = 0)) = some x := by
    simp only [compareStrings_eq_zero_iff]
    rw [findElement_eq h, show xs.find? (fun file => decide (fs.nameOf file = name)) = some x from hx]
    rfl
  have hunlink : ∀ n, xs.length + 1 ≤ n →
      fs.unlinkFile n name = some (x, { fs with links := unlinkList fs.links x }) := by
    intro n hn
    have hfind' : findElement n _ _ _ = _ := WhileLoop.run_mono hn hfind
    simp only [unlinkFile, unlinkFound, hfind', bind, Option.bind_some, pure]
  constructor
  · rintro ⟨n, hdelete⟩
    simp only [deleteFile, bind, Option.bind_eq_some_iff, pure, Option.some.injEq,
      Prod.mk.injEq] at hdelete
    obtain ⟨⟨y, fs₁⟩, hunlink', t₁, hname, t₂, hdata, t₃, hfile, rfl, rfl⟩ := hdelete
    cases unlinkFile_unique hunlink' (hunlink _ le_rfl)
    refine ⟨rfl, n, ?_⟩
    simp only [Allocator.unallocateAll, addresses, Trace.run_cons, Trace.run_nil, hname, hdata, hfile,
      Option.bind_some]
  · rintro ⟨rfl, n, hall⟩
    have hall' := Allocator.unallocateAll_mono (le_max_right (xs.length + 1) n) hall
    simp only [Allocator.unallocateAll, addresses, Trace.run_cons, Trace.run_nil,
      Option.bind_eq_some_iff] at hall'
    obtain ⟨t₁, hname, t₂, hdata, t₃, hfile, ht⟩ := hall'
    refine ⟨max (xs.length + 1) n, ?_⟩
    simp only [deleteFile, hunlink _ (le_max_left _ n), hname, hdata, hfile, bind, Option.bind_some,
      pure, Option.some.inj ht]

/-- The records of an entry begin at the three addresses, a folder's at two of them. -/
theorem madeFor_starts (fs : Filesystem) (x : UInt64) :
    (fs.madeFor x).map Allocation.start ≤ (fs.addresses x : Multiset UInt64) := by
  have hperm : (fs.addresses x : Multiset UInt64) = x ::ₘ (fs.file x).name ::ₘ {(fs.file x).data} :=
    Multiset.coe_eq_coe.2 (@List.perm_append_comm _ [(fs.file x).name, (fs.file x).data] [x])
  rw [hperm, madeFor, Multiset.map_cons, Multiset.map_cons]
  refine Multiset.cons_le_cons _ (Multiset.cons_le_cons _ ?_)
  split_ifs
  · exact Multiset.zero_le _
  · rw [Multiset.map_singleton]
    exact le_refl _

theorem card_madeFor (fs : Filesystem) (x : UInt64) :
    (fs.madeFor x).card = 3 ↔ (fs.file x).data ≠ 0 := by
  rw [madeFor, Multiset.card_cons, Multiset.card_cons]
  split_ifs with hdata
  · simp [hdata]
  · simp [hdata]

/-- The three calls take out exactly the records made for an entry when it is releasable. -/
theorem Kept.removes_iff (h : Kept s xs) (hx : x ∈ xs) :
    Removes s.table.startOf s.table.present (s.fs.addresses x) (s.table.present \ s.made x) ↔
      Releasable s x := by
  have hsub : (s.made x : Set ℕ) ⊆ s.table.present := fun i hi =>
    Allocator.live_subset_present s.table (h.live x hx hi)
  have hstarts : (s.made x).val.map s.table.startOf = (s.fs.madeFor x).map Allocation.start := by
    rw [← h.records x hx, Multiset.map_map]
    rfl
  have hcard : (s.made x).card = (s.fs.madeFor x).card := by
    rw [← h.records x hx, Multiset.card_map]
    rfl
  rw [removes_sdiff_iff hsub (hstarts ▸ madeFor_starts s.fs x), hcard, Releasable, ← card_madeFor]
  rfl

/-- **When a deletion is exact.** -/
theorem Kept.deletes_iff (h : Kept s xs) (hx : s.fs.named xs name = some x) :
    Deletes s xs name x ↔ Releasable s x := by
  rw [← h.removes_iff (List.mem_of_find?_eq_some hx), ← Allocator.unallocateAll_iff]
  constructor
  · rintro ⟨fuel, fs, t, hdelete, -, -, hpresent⟩
    obtain ⟨-, n, hall⟩ := (deleteFile_iff h.ring hx).1 ⟨fuel, hdelete⟩
    exact ⟨n, t, hall, hpresent⟩
  · rintro ⟨n, t, hall, hpresent⟩
    obtain ⟨fuel, hdelete⟩ := (deleteFile_iff h.ring hx).2 ⟨rfl, n, hall⟩
    exact ⟨fuel, _, t, hdelete, isRing_named h.ring hx, rfl, hpresent⟩

end Deletion

/-! ### Runs -/

section Runs

variable {s s' : Store} {xs : List UInt64} {name : CString} {x : UInt64} {e : Event}
  {t : Allocator} {fuel : ℕ} {rs : Multiset Allocation}

/-- Where the records made for the entries stay, everything is kept. -/
theorem Kept.frame {ys : List UInt64} (h : Kept s xs) (hsub : ys.Sublist xs) {fs : Filesystem}
    (hring : IsRing fs.links fs.files ys) (hfile : fs.file = s.fs.file) (htext : fs.text = s.fs.text)
    (ht : t.Counted)
    (hkeep : ∀ y ∈ ys, ∀ i ∈ s.made y, i ∈ t.live ∧ t.allocated i = s.table.allocated i) :
    Kept ⟨⟨fs, t⟩, s.made⟩ ys where
  ring := hring
  counted := ht
  live := fun y hy i hi => (hkeep y hy i hi).1
  records := fun y hy => by
    have hfor : fs.madeFor y = s.fs.madeFor y := by rw [madeFor, madeFor, nameOf, nameOf, hfile, htext]
    rw [hfor, ← h.records y (hsub.subset hy)]
    exact Multiset.map_congr rfl fun i hi => (hkeep y hy i hi).2
  apart := h.apart.sublist hsub
  fits := fun y hy => by
    have hfits := h.fits y (hsub.subset hy)
    rw [nameOf, ← hfile, ← htext] at hfits
    exact hfits

theorem Kept.call {c : Allocator.Call} (h : Kept s xs) (he : (Event.call c).Legal fuel s)
    (hcall : c.step fuel s.table = some t) : Kept ⟨⟨s.fs, t⟩, s.made⟩ xs := by
  have hreserve : ∀ {amount p}, (s.table.reserve fuel amount p).map Prod.snd = some t →
      Kept ⟨⟨s.fs, t⟩, s.made⟩ xs := by
    intro amount p hmap
    obtain ⟨⟨value, t'⟩, hres, rfl⟩ := Option.map_eq_some_iff.1 hmap
    obtain ⟨slot, -, -, hrec⟩ := Allocator.reserve_recorded h.counted hres
    have hadds := hrec.adds h.counted
    exact h.frame (List.Sublist.refl xs) h.ring rfl rfl hadds.counted fun y hy i hi =>
      ⟨hadds.subset (h.live y hy hi), hadds.allocated_eq i (h.live y hy hi)⟩
  cases c with
  | allocate amount => exact hreserve hcall
  | allocateAligned amount alignment => exact hreserve hcall
  | unallocate pointer =>
    obtain ⟨⟨j, hj, hstart⟩, hothers⟩ := he xs h.ring
    obtain ⟨i, hi, hrelease⟩ := Allocator.unallocate_iff.1 ⟨fuel, hcall⟩
    have hlive : i ∈ s.table.live := by
      refine Allocator.mem_live.2 ⟨?_, hi.1.1⟩
      exact (hi.2 ⟨(Allocator.mem_live.1 hj).2, hstart⟩).trans_lt (Allocator.mem_live.1 hj).1
    have hreleased := Allocator.released_release hlive
    rw [← hrelease] at hreleased
    refine h.frame (List.Sublist.refl xs) h.ring rfl rfl (hreleased.counted h.counted)
      fun y hy k hk => ?_
    -- the record that is cleared belongs to no entry
    have hki : k ≠ i := fun hki => hothers i hi y hy (hki ▸ hk)
    rw [hreleased.live_eq]
    exact ⟨Finset.mem_erase.2 ⟨hki, h.live y hy hk⟩, hreleased.allocated_of_ne k hki⟩

theorem Kept.delete {fs : Filesystem} (h : Kept s xs) (hx : s.fs.named xs name = some x)
    (hrel : Releasable s x) (hdelete : s.fs.deleteFile fuel name s.table = some (fs, t)) :
    Kept ⟨⟨fs, t⟩, s.made⟩ (xs.erase x) := by
  have hmem : x ∈ xs := List.mem_of_find?_eq_some hx
  obtain ⟨rfl, n, hall⟩ := (deleteFile_iff h.ring hx).1 ⟨fuel, hdelete⟩
  obtain ⟨m, t', hall', hpresent⟩ := Allocator.unallocateAll_iff.2 ((h.removes_iff hmem).2 hrel)
  have hsame : some t = some t' :=
    (Allocator.unallocateAll_mono (le_max_left n m) hall).symm.trans
      (Allocator.unallocateAll_mono (le_max_right n m) hall')
  obtain rfl := Option.some.inj hsame
  obtain ⟨hcounted, hlive, hothers⟩ :=
    Allocator.unallocateAll_frame h.counted (h.live x hmem) hall hpresent
  refine h.frame List.erase_sublist (isRing_named h.ring hx) rfl rfl hcounted fun y hy i hi => ?_
  obtain ⟨hyx, hy⟩ := (List.Nodup.mem_erase_iff (List.nodup_cons.1 h.ring.nodup).2).1 hy
  have : Std.Symm fun x y => Disjoint (s.made x) (s.made y) := ⟨fun _ _ hd => hd.symm⟩
  -- another entry loses nothing, since the records made for two entries are apart
  have hdisjoint : Disjoint (s.made y) (s.made x) := h.apart.forall hy hmem hyx
  have hi' : i ∉ s.made x := Finset.disjoint_left.1 hdisjoint hi
  rw [hlive]
  exact ⟨Finset.mem_sdiff.2 ⟨h.live y hy hi, hi'⟩, hothers i hi'⟩

theorem madeFor_insert (fs : Filesystem) (file text : UInt64) (name : CString) (size data : UInt64) :
    (fs.insert file text name size data).madeFor file =
      Allocator.block file sizeofFile ::ₘ
        Allocator.block text (UInt64.ofNat (stringLength name.bytes + 1)) ::ₘ
          if data = 0 then 0 else {Allocator.block data size} := by
  simp [madeFor, nameOf, insert]

/-- Every step keeps it. -/
theorem Kept.step (h : Kept s xs) (he : e.Legal fuel s) (hstep : e.step fuel s = some s') :
    ∃ ys, Kept s' ys := by
  cases e with
  | createFile name size =>
    obtain ⟨⟨data, fs, t⟩, hcreate, rfl⟩ := Option.map_eq_some_iff.1 hstep
    obtain ⟨file, t₁, text, t₂, hfile, htext, hdata, rfl⟩ := createFile_eq_some hcreate
    obtain ⟨-, hfits, htextfits⟩ := he xs h.ring file t₁ text t₂ hfile htext
    obtain ⟨hadds₁, -⟩ := Allocator.allocate_adds h.counted hfile
    obtain ⟨hadds₂, -⟩ := Allocator.allocate_adds hadds₁.counted htext
    obtain ⟨hadds₃, -⟩ := Allocator.allocate_adds hadds₂.counted hdata
    have hne : data ≠ 0 := by
      rintro rfl
      exact absurd (Allocator.memoryStart_le_allocate hdata hadds₂.counted) (by decide)
    refine ⟨_, h.create (h.fresh (he xs h.ring) hfile htext) hfits htextfits ?_⟩
    have hadds := (hadds₁.trans hadds₂).trans hadds₃
    rw [madeFor_insert, if_neg hne]
    rw [Multiset.add_comm, Multiset.add_comm _ {Allocator.block file sizeofFile}] at hadds
    exact hadds
  | createFolder name =>
    obtain ⟨⟨fs, t⟩, hcreate, rfl⟩ := Option.map_eq_some_iff.1 hstep
    obtain ⟨file, t₁, text, hfile, htext, rfl⟩ := createFolder_eq_some hcreate
    obtain ⟨-, hfits, htextfits⟩ := he xs h.ring file t₁ text t hfile htext
    obtain ⟨hadds₁, -⟩ := Allocator.allocate_adds h.counted hfile
    obtain ⟨hadds₂, -⟩ := Allocator.allocate_adds hadds₁.counted htext
    refine ⟨_, h.create (h.fresh (he xs h.ring) hfile htext) hfits htextfits ?_⟩
    have hadds := hadds₁.trans hadds₂
    rw [madeFor_insert, if_pos rfl]
    rw [Multiset.add_comm] at hadds
    exact hadds
  | deleteFile name =>
    obtain ⟨⟨fs, t⟩, hdelete, rfl⟩ := Option.map_eq_some_iff.1 hstep
    obtain ⟨x, hx, hrel⟩ := he xs h.ring
    exact ⟨_, h.delete hx hrel hdelete⟩
  | call c =>
    obtain ⟨t, hcall, rfl⟩ := Option.map_eq_some_iff.1 hstep
    exact ⟨xs, h.call he hcall⟩

/-- **What `deleteFile` gives back.** In every state of a run that starts with no entries, for every name
that has an entry: `deleteFile` returns, takes the first such entry out of the list, and takes out of the
table exactly the records made for it, if and only if the entry is a file and no other record with the
start of one of its own comes before it in the table. -/
theorem deleteFile_exact_iff {s₀ : Store} {es : List Event}
    (h₀ : IsRing s₀.fs.links s₀.fs.files []) (ht : Allocator.Reachable s₀.table)
    (hes : Trace.Along (Event.step fuel) (Event.Legal fuel) s₀ es)
    (hrun : Trace.run (Event.step fuel) s₀ es = some s) :
    ∃ xs, IsRing s.fs.links s.fs.files xs ∧
      ∀ name x, s.fs.named xs name = some x → (Deletes s xs name x ↔ Releasable s x) := by
  have hstart : Kept s₀ [] := ⟨h₀, ht.counted, by simp, by simp, List.Pairwise.nil, by simp⟩
  obtain ⟨xs, h⟩ := Trace.run_invariant_along (I := fun s => ∃ xs, Kept s xs)
    (fun s e s' ⟨xs, h⟩ he hstep => h.step he hstep) ⟨[], hstart⟩ hes hrun
  exact ⟨xs, h.ring, fun name x hx => h.deletes_iff hx⟩

/-- No entries, and no records. -/
def noEntries : Store := ⟨noFiles, fun _ => ∅⟩

/-- A file of one byte can be deleted. -/
theorem deleteFile_exact_oneFile :
    ∃ s xs, Trace.run (Event.step 40) noEntries [.createFile childName 1] = some s ∧
      Deletes s xs childName 0x1000000 := by
  have hes : Trace.Along (Event.step 40) (Event.Legal 40) noEntries [.createFile childName 1] := by
    refine ⟨fun xs _ file t text t' hfile htext => ?_, fun _ _ => trivial⟩
    have hanswers : (noEntries.table.allocate 40 sizeofFile).bind (fun r =>
        (allocateName 40 childName r.2).map fun q => (r.1, q.1)) = some (0x1000000, 0x1000028) := by
      decide
    rw [hfile, Option.bind_some, htext, Option.map_some, Option.some.injEq, Prod.mk.injEq] at hanswers
    obtain ⟨rfl, rfl⟩ := hanswers
    decide
  obtain ⟨s, hrun⟩ : ∃ s, Trace.run (Event.step 40) noEntries [.createFile childName 1] = some s :=
    ⟨_, rfl⟩
  obtain ⟨xs, hring, hiff⟩ := deleteFile_exact_iff isRing_noFiles (.initAllocator _) hes hrun
  cases hrun
  obtain rfl := isRing_unique hring
    (isRing_linkList isRing_noFiles (by decide : (0x1000000 : UInt64) ∉ noFiles.fs.files :: []))
  exact ⟨_, _, rfl, (hiff childName 0x1000000 (by decide)).2 (by decide)⟩

/-- `deleteFile` of a folder never returns: no record begins at 0. And a file of no bytes has its data
at the address of an older block, whose record is cleared in place of its own. -/
theorem deleteFile_of_folder :
    (∃ s, Trace.run (Event.step 40) noEntries [.createFolder folderName] = some s ∧
        ∀ n, s.fs.deleteFile n folderName s.table = none) ∧
      ((Trace.run (Event.step 40) noEntries [.call (.allocate 16), .createFile childName 0]).bind fun s =>
        (s.fs.deleteFile 40 childName s.table).map fun r => (s.table.live, s.made 0x1000010, r.2.live)) =
          some ({0, 1, 2, 3}, {1, 2, 3}, {3}) := by
  refine ⟨⟨_, rfl, fun n => ?_⟩, by decide⟩
  rw [Option.eq_none_iff_forall_ne_some]
  rintro ⟨fs, t⟩ hdelete
  have hring := isRing_linkList isRing_noFiles (by decide : (0x1000000 : UInt64) ∉ noFiles.fs.files :: [])
  obtain ⟨-, m, hall⟩ := (deleteFile_iff (x := 0x1000000) hring (by decide)).1 ⟨n, hdelete⟩
  have hremoves := Allocator.unallocateAll_iff.1 ⟨m, t, hall, rfl⟩
  obtain ⟨i, -, hrest⟩ := removes_cons_iff.1 hremoves
  obtain ⟨j, hj, -⟩ := removes_cons_iff.1 hrest
  -- the slot of a record that begins at 0: neither of the two that are present
  obtain ⟨⟨⟨hpresent, -⟩, hstart⟩, -⟩ := hj
  match j with
  | 0 => exact absurd hstart (by decide)
  | 1 => exact absurd hstart (by decide)
  | k + 2 => exact absurd hpresent (by rintro ⟨⟩)

end Runs

end Filesystem
end Naul
