import Naul.Allocator.Update
import Naul.Paging.Build

/-!
# The walk of the tables `createTable` builds

`createTable_translates` puts the two translations side by side: in the finished tables the
processor's walk sends the pages of the process to consecutive physical pages, maps nothing else
outside the kernel's slot, and `getAddress`, which follows the first entries only, computes the same
addresses.
-/

namespace Naul

/-! ### Entries -/

/-- A table that a present entry can point to: aligned and below `2 ^ 52`. -/
structure IsTable (p : ℕ) : Prop where
  aligned : 512 ∣ p
  low : 8 * p < 2 ^ 52

section Entries

variable {p i : ℕ} {start : UInt64}

theorem toNat_toAddress (hp : IsTable p) : (toAddress p).toNat = 8 * p := by
  have := hp.low
  rw [toAddress, UInt64.toNat_ofNat', Nat.mod_eq_of_lt (by omega)]

theorem dvd_toAddress (hp : IsTable p) : 2 ^ 12 ∣ (toAddress p).toNat := by
  obtain ⟨q, hq⟩ := hp.aligned
  rw [toNat_toAddress hp, hq]
  exact ⟨q, by ring⟩

theorem toNat_pointer (hp : IsTable p) : (toAddress p ||| pagePresent).toNat = 8 * p + 3 := by
  rw [Bits.toNat_or_of_dvd (dvd_toAddress hp) (by decide), toNat_toAddress hp]
  rfl

theorem toNat_pageEntry (hstart : 2 ^ 21 ∣ start.toNat)
    (hi : start.toNat + (i + 1) * 2 ^ 21 ≤ 2 ^ 52) :
    (pageEntry start i).toNat = start.toNat + i * 2 ^ 21 + 0x83 := by
  have hsum : (start + UInt64.ofNat i * pageSize).toNat = start.toNat + i * 2 ^ 21 := by
    have hsize : pageSize.toNat = 2 ^ 21 := rfl
    rw [UInt64.toNat_add, UInt64.toNat_mul, UInt64.toNat_ofNat', hsize]
    omega
  obtain ⟨q, hq⟩ := hstart
  rw [pageEntry, UInt64.or_assoc, Bits.toNat_or_of_dvd (k := 12) ?_ (by decide), hsum]
  · rfl
  · rw [hsum, hq]
    exact ⟨2 ^ 9 * q + i * 2 ^ 9, by ring⟩

theorem toNat_and_mask (x : UInt64) : (x &&& pageAddressMask).toNat = x.toNat / 2 ^ 12 * 2 ^ 12 := by
  rw [UInt64.toNat_and, ← Bits.and_two_pow_sub (by decide : 12 ≤ 64) x.toNat_lt]
  rfl

/-- Masking takes off the flags of an aligned address. -/
theorem or_and_mask {x y : UInt64} (hx : 2 ^ 12 ∣ x.toNat) (hy : y.toNat < 2 ^ 12) :
    (x ||| y) &&& pageAddressMask = x := by
  obtain ⟨q, hq⟩ := hx
  rw [← UInt64.toNat_inj, toNat_and_mask, Bits.toNat_or_of_dvd ⟨q, hq⟩ hy, hq]
  omega

theorem pointer_and_mask (hp : IsTable p) :
    (toAddress p ||| pagePresent) &&& pageAddressMask = toAddress p :=
  or_and_mask (dvd_toAddress hp) (by decide)

theorem pageEntry_and_mask (hstart : 2 ^ 21 ∣ start.toNat) (h : start.toNat + 2 ^ 21 ≤ 2 ^ 52) :
    pageEntry start 0 &&& pageAddressMask = start := by
  obtain ⟨q, hq⟩ := hstart
  rw [← UInt64.toNat_inj, toNat_and_mask, toNat_pageEntry ⟨q, hq⟩ (by omega), hq]
  omega

/-- What the processor reads from an entry that points to a table. -/
theorem pointer_read (hp : IsTable p) :
    isPresent (toAddress p ||| pagePresent) = true ∧ isSized (toAddress p ||| pagePresent) = false ∧
      entryAddress (toAddress p ||| pagePresent) = 8 * p := by
  obtain ⟨q, hq⟩ := hp.aligned
  have hlow := hp.low
  rw [isPresent, isSized, entryAddress, toNat_pointer hp]
  refine ⟨decide_eq_true ?_, decide_eq_false ?_, ?_⟩ <;> omega

/-- What the processor reads from the entry of a page. -/
theorem pageEntry_read (hstart : 2 ^ 21 ∣ start.toNat)
    (hi : start.toNat + (i + 1) * 2 ^ 21 ≤ 2 ^ 52) :
    isPresent (pageEntry start i) = true ∧ isSized (pageEntry start i) = true ∧
      entryAddress (pageEntry start i) / 2 ^ 21 * 2 ^ 21 = start.toNat + i * 2 ^ 21 := by
  rw [isPresent, isSized, entryAddress, toNat_pageEntry hstart hi]
  obtain ⟨q, hq⟩ := hstart
  refine ⟨decide_eq_true ?_, decide_eq_true ?_, ?_⟩ <;> omega

end Entries

/-! ### The walk -/

section Walk

variable {mainPdpt start : UInt64} {pages pml4t : ℕ} {m : Cells UInt64} {v : UInt64}

/-- The block is aligned, and below `2 ^ 52` with all its directories. -/
structure Placed (pages pml4t : ℕ) : Prop where
  aligned : 512 ∣ pml4t
  low : 8 * (pml4t + (directoryCount pages + 2) * pageEntryCount) ≤ 2 ^ 52

theorem Placed.pml4 (h : Placed pages pml4t) : IsTable pml4t :=
  ⟨h.aligned, by have := h.low; simp only [pageEntryCount] at this; omega⟩

theorem Placed.pdpt (h : Placed pages pml4t) : IsTable (pml4t + pageEntryCount) :=
  ⟨(Nat.dvd_add_right h.aligned).2 (dvd_refl 512),
    by have := h.low; simp only [pageEntryCount] at this ⊢; omega⟩

theorem Placed.directory (h : Placed pages pml4t) {j : ℕ} (hj : j < directoryCount pages) :
    IsTable (directoryAt (pml4t + pageEntryCount) j) := by
  obtain ⟨q, hq⟩ := h.aligned
  have hlow := h.low
  constructor
  · rw [directoryAt, hq]
    exact ⟨q + 2 + j, by simp only [pageEntryCount]; ring⟩
  · simp only [directoryAt, pageEntryCount] at hlow ⊢
    omega

/-- The PML4 entry of an address outside the slots 0 and 1. -/
theorem tableEntry_pml4 (h : Built mainPdpt start pages pml4t m) (hp : Placed pages pml4t) {j : ℕ}
    (hj : j < pageEntryCount) :
    tableEntry m (entryAddress (toAddress pml4t)) j =
      if j = 0 then mainPdpt
      else if j = 1 then toAddress (pml4t + pageEntryCount) ||| pagePresent else 0 := by
  have hbase : entryAddress (toAddress pml4t) / 8 = pml4t := by
    obtain ⟨q, hq⟩ := hp.aligned
    have hlow := hp.pml4.low
    rw [entryAddress, toNat_toAddress hp.pml4]
    omega
  rw [tableEntry, hbase, h.pml4 j hj]

theorem tableEntry_pdpt (h : Built mainPdpt start pages pml4t m) (hp : Placed pages pml4t) {j : ℕ}
    (hj : j < pageEntryCount) :
    tableEntry m (entryAddress (toAddress (pml4t + pageEntryCount) ||| pagePresent)) j =
      if j < directoryCount pages then
        toAddress (directoryAt (pml4t + pageEntryCount) j) ||| pagePresent
      else 0 := by
  rw [tableEntry, (pointer_read hp.pdpt).2.2, Nat.mul_div_cancel_left _ (by decide),
    h.directory j hj]

theorem tableEntry_directory (h : Built mainPdpt start pages pml4t m) (hp : Placed pages pml4t)
    {j i : ℕ} (hj : j < directoryCount pages) (hi : i < pageEntryCount) :
    tableEntry m (entryAddress (toAddress (directoryAt (pml4t + pageEntryCount) j) ||| pagePresent)) i =
      if j * pageEntryCount + i < pages then pageEntry start (j * pageEntryCount + i) else 0 := by
  have hword : directoryAt (pml4t + pageEntryCount) j + i =
      directoryAt (pml4t + pageEntryCount) 0 + (j * pageEntryCount + i) := by
    simp only [directoryAt]
    omega
  have hlt : j * pageEntryCount + i < directoryCount pages * pageEntryCount := by
    have := Nat.mul_le_mul_right pageEntryCount (Nat.succ_le_of_lt hj)
    rw [Nat.succ_mul] at this
    omega
  rw [tableEntry, (pointer_read (hp.directory hj)).2.2, Nat.mul_div_cancel_left _ (by decide), hword,
    h.entries _ hlt]

/-- An entry of zeros maps nothing. -/
@[simp] theorem isPresent_zero : isPresent 0 = false := rfl

/-- The walk of an address mapped by a page directory. -/
theorem walk_eq_page {cr3 pml4e pdpte pde : UInt64} (hv : Canonical v)
    (h4 : tableEntry m (entryAddress cr3) (tableIndex v 39) = pml4e) (hp4 : isPresent pml4e = true)
    (h3 : tableEntry m (entryAddress pml4e) (tableIndex v 30) = pdpte)
    (hp3 : isPresent pdpte = true) (hs3 : isSized pdpte = false)
    (h2 : tableEntry m (entryAddress pdpte) (tableIndex v 21) = pde)
    (hp2 : isPresent pde = true) (hs2 : isSized pde = true) :
    walk m cr3 v = some (entryAddress pde / 2 ^ 21 * 2 ^ 21 + v.toNat % 2 ^ 21) := by
  simp [walk, guard, hv, h4, hp4, h3, hp3, hs3, h2, hp2, hs2]

/-- The pages of the process are mapped to consecutive physical pages. -/
theorem walk_process (h : Built mainPdpt start pages pml4t m) (hp : Placed pages pml4t)
    (hlimit : pages ≤ pageEntryCount * pageEntryCount) (hstart : 2 ^ 21 ∣ start.toNat)
    (hrange : start.toNat + pages * 2 ^ 21 ≤ 2 ^ 52) {off : ℕ} (hoff : off < pages * 2 ^ 21)
    (hv : v.toNat = 2 ^ 39 + off) : walk m (toAddress pml4t) v = some (start.toNat + off) := by
  have hfits : start.toNat + (off / 2 ^ 21 + 1) * 2 ^ 21 ≤ 2 ^ 52 := by
    have hle : off / 2 ^ 21 + 1 ≤ pages := by omega
    calc start.toNat + (off / 2 ^ 21 + 1) * 2 ^ 21 ≤ start.toNat + pages * 2 ^ 21 := by gcongr
      _ ≤ 2 ^ 52 := hrange
  simp only [pageEntryCount] at hlimit
  -- the three indices of the address, and where the page stands among all pages
  have hslot : tableIndex v 39 = 1 := by rw [tableIndex]; omega
  have hj : tableIndex v 30 = off / 2 ^ 30 := by rw [tableIndex]; omega
  have hi : tableIndex v 21 = off / 2 ^ 21 % 2 ^ 9 := by rw [tableIndex]; omega
  have hjlt : off / 2 ^ 30 < directoryCount pages := by
    simp only [directoryCount, pageEntryCount]
    omega
  have hjlt' : off / 2 ^ 30 < pageEntryCount := by
    simp only [pageEntryCount]
    omega
  have hpage : off / 2 ^ 30 * pageEntryCount + off / 2 ^ 21 % 2 ^ 9 = off / 2 ^ 21 := by
    simp only [pageEntryCount]
    omega
  have hilt : off / 2 ^ 21 % 2 ^ 9 < pageEntryCount := by
    simp only [pageEntryCount]
    omega
  have hpml4e := tableEntry_pml4 h hp (by decide : 1 < pageEntryCount)
  have hpdpte := tableEntry_pdpt h hp hjlt'
  have hpde := tableEntry_directory h hp hjlt hilt
  -- each entry in turn: a pointer, a pointer and a page
  rw [if_neg (by decide), if_pos rfl, ← hslot] at hpml4e
  rw [if_pos hjlt, ← hj] at hpdpte
  rw [hpage, if_pos (by omega), ← hi, ← hj] at hpde
  rw [← hj] at hjlt
  obtain ⟨hpresent4, -, -⟩ := pointer_read hp.pdpt
  obtain ⟨hpresent3, hsized3, -⟩ := pointer_read (hp.directory hjlt)
  obtain ⟨hpresent2, hsized2, haddress⟩ := pageEntry_read hstart hfits
  rw [walk_eq_page (Or.inl (by omega)) hpml4e hpresent4 hpdpte hpresent3 hsized3 hpde hpresent2
    hsized2, haddress, Option.some.injEq]
  omega

/-- Outside the kernel's slot nothing but the pages of the process is mapped. -/
theorem walk_unmapped (h : Built mainPdpt start pages pml4t m) (hp : Placed pages pml4t)
    (hslot : tableIndex v 39 ≠ 0) (hv : v.toNat < 2 ^ 39 ∨ 2 ^ 39 + pages * 2 ^ 21 ≤ v.toNat) :
    walk m (toAddress pml4t) v = none := by
  by_cases hcanonical : Canonical v
  · have hindex : ∀ shift, tableIndex v shift < pageEntryCount := fun shift =>
      Nat.mod_lt _ (by decide)
    have hpml4e := tableEntry_pml4 h hp (hindex 39)
    rw [if_neg hslot] at hpml4e
    by_cases hone : tableIndex v 39 = 1
    · -- the slot of the process: past the last page, in the last directory or after it
      have hpdpte := tableEntry_pdpt h hp (hindex 30)
      rw [if_pos hone] at hpml4e
      obtain ⟨off, hoff, hlt⟩ : ∃ off, v.toNat = 2 ^ 39 + off ∧ off < 2 ^ 39 := by
        refine ⟨v.toNat - 2 ^ 39, ?_⟩
        have hlt := v.toNat_lt
        rw [tableIndex] at hone
        rcases hcanonical with hlow | hhigh <;> omega
      obtain ⟨hpresent4, -, -⟩ := pointer_read hp.pdpt
      by_cases hj : tableIndex v 30 < directoryCount pages
      · rw [if_pos hj] at hpdpte
        have hpde := tableEntry_directory h hp hj (hindex 21)
        rw [if_neg] at hpde
        · obtain ⟨hpresent3, hsized3, -⟩ := pointer_read (hp.directory hj)
          simp [walk, guard, hcanonical, hpml4e, hpresent4, hpdpte, hpresent3, hsized3, hpde]
        · simp only [tableIndex, pageEntryCount] at hj hone ⊢
          omega
      · rw [if_neg hj] at hpdpte
        simp [walk, guard, hcanonical, hpml4e, hpresent4, hpdpte]
    · rw [if_neg hone] at hpml4e
      simp [walk, guard, hcanonical, hpml4e]
  · simp [walk, guard, hcanonical]

/-- `getAddress` reads the first entry of each table. -/
theorem getAddress_process (h : Built mainPdpt start pages pml4t m) (hp : Placed pages pml4t)
    (hpages : 1 ≤ pages) (hstart : 2 ^ 21 ∣ start.toNat) (hrange : start.toNat + 2 ^ 21 ≤ 2 ^ 52)
    (hv : processAddress ≤ v) :
    getAddress m (toAddress pml4t) v = start + v - processAddress := by
  have hcount : 0 < directoryCount pages := Nat.succ_pos _
  have hload : ∀ p, IsTable p → load64 m (toAddress p) = m.cell p := fun p hp => by
    rw [load64, toNat_toAddress hp, Nat.mul_div_cancel_left _ (by decide)]
  have hone : load64 m (toAddress pml4t + 8) = toAddress (pml4t + pageEntryCount) ||| pagePresent := by
    have hsum : (toAddress pml4t + 8).toNat = 8 * (pml4t + 1) := by
      have hlow := hp.pml4.low
      have hnext : (8 : UInt64).toNat = 8 := rfl
      rw [UInt64.toNat_add, toNat_toAddress hp.pml4, hnext]
      omega
    rw [load64, hsum, Nat.mul_div_cancel_left _ (by decide), h.pml4 1 (by decide)]
    rfl
  have hpdpte := h.directory 0 (by decide)
  rw [if_pos hcount, Nat.add_zero] at hpdpte
  have hpde := h.entries 0 (Nat.mul_pos hcount (by decide))
  rw [if_pos (Nat.pos_of_ne_zero (Nat.one_le_iff_ne_zero.1 hpages)), Nat.add_zero] at hpde
  rw [getAddress, if_pos hv, hone, pointer_and_mask hp.pdpt, hload _ hp.pdpt, hpdpte,
    pointer_and_mask (hp.directory hcount), hload _ (hp.directory hcount), hpde,
    pageEntry_and_mask hstart hrange]

end Walk

/-! ### `createTable` -/

section CreateTable

variable {mainPdpt start pages block : UInt64} {m : Cells UInt64} {t t' : Allocator}

theorem toNat_tableSize (hpages : 1 ≤ pages.toNat) (hlimit : pages.toNat ≤ 2 ^ 50) :
    (tableSize pages).toNat = (directoryCount pages.toNat + 2) * 4096 := by
  have hone : (pages - 1).toNat = pages.toNat - 1 := by
    rw [UInt64.toNat_sub_of_le, UInt64.toNat_one]
    rwa [UInt64.le_iff_toNat_le]
  have hdiv : ((pages - 1) / UInt64.ofNat pageEntryCount).toNat = (pages.toNat - 1) / 512 := by
    rw [UInt64.toNat_div, hone]
    rfl
  have hthree : (3 : UInt64).toNat = 3 := rfl
  have hsize : pageEntrySize.toNat = 4096 := rfl
  rw [tableSize, UInt64.toNat_mul, UInt64.toNat_add, hdiv, hthree, hsize, directoryCount,
    pageEntryCount]
  omega

theorem buildTable_mono {n k pml4t : ℕ} (hnk : n ≤ k) {m' : Cells UInt64}
    (h : buildTable n mainPdpt start pages pml4t m = some m') :
    buildTable k mainPdpt start pages pml4t m = some m' := by
  simp only [buildTable, bind, Option.bind_eq_some_iff] at h ⊢
  obtain ⟨m₁, hrun, hm'⟩ := h
  exact ⟨m₁, WhileLoop.run_mono hnk hrun, hm'⟩

/-- An address of the process as a number. -/
theorem toNat_processAddress_add {off : ℕ} (hoff : off < 2 ^ 40) :
    (processAddress + UInt64.ofNat off).toNat = 2 ^ 39 + off := by
  have hbase : processAddress.toNat = 2 ^ 39 := rfl
  rw [UInt64.toNat_add, UInt64.toNat_ofNat', hbase]
  omega

/-- **The page tables and the software translation agree.** For a block as `allocateAligned` returns
it, `createTable` returns the block, with tables in it under which the `pages` pages from
`0x8000000000` are the physical pages from `start` and nothing else outside slot 0 is mapped;
`getAddress` computes the same addresses, and no store lies outside the block. -/
theorem createTable_translates {n : ℕ}
    (hblock : t.allocateAligned n (tableSize pages) pageAlignment = some (block, t'))
    (haligned : pageAlignment.toNat ∣ block.toNat)
    (hlow : block.toNat + (tableSize pages).toNat ≤ 2 ^ 52)
    (hstart : pageSize.toNat ∣ start.toNat) (hpages : 1 ≤ pages.toNat)
    (hlimit : pages.toNat ≤ 512 * 512)
    (hrange : start.toNat + pages.toNat * pageSize.toNat ≤ 2 ^ 52) :
    ∃ m', (∃ fuel, ∀ k ≥ fuel, createTable k mainPdpt start pages m t = some (block, m', t')) ∧
      (∀ off < pages.toNat * pageSize.toNat,
        walk m' block (processAddress + UInt64.ofNat off) = some (start.toNat + off) ∧
          getAddress m' block (processAddress + UInt64.ofNat off) = start + UInt64.ofNat off) ∧
      (∀ v, tableIndex v 39 ≠ 0 →
        (∀ off < pages.toNat * pageSize.toNat, v ≠ processAddress + UInt64.ofNat off) →
          walk m' block v = none) ∧
      tableEntry m' (entryAddress block) 0 = mainPdpt ∧
      Cells.StoresIn
        {i | block.toNat ≤ 8 * i ∧ 8 * i + 8 ≤ block.toNat + (tableSize pages).toNat} m m' := by
  have hsize : pageSize.toNat = 2 ^ 21 := rfl
  have htable := toNat_tableSize hpages (hlimit.trans (by decide))
  rw [hsize] at hstart hrange ⊢
  -- addresses of bytes become numbers of words, of which a table has 512
  obtain ⟨q, hq⟩ : ∃ q, block.toNat = 4096 * q := haligned
  have hpml4t : block.toNat / 8 = 512 * q := by omega
  have hplaced : Placed pages.toNat (512 * q) := by
    refine ⟨⟨q, rfl⟩, ?_⟩
    rw [htable, hq] at hlow
    simp only [pageEntryCount]
    omega
  have haddress : toAddress (512 * q) = block := by
    rw [← UInt64.toNat_inj, toNat_toAddress hplaced.pml4, hq]
    omega
  obtain ⟨fuel, m', hbuild, hbuilt, hstores⟩ :=
    @buildTable_built mainPdpt start pages (512 * q) m hlimit hpages
  refine ⟨m', ⟨max n fuel, fun k hk => ?_⟩, fun off hoff => ?_, fun v hslot hv => ?_, ?_, ?_⟩
  · have hblock' := Allocator.reserve_mono (le_of_max_le_left hk) hblock
    have hbuild' := buildTable_mono (le_of_max_le_right hk) hbuild
    simp only [createTable, Allocator.allocateAligned, hblock', hpml4t, hbuild', haddress, bind,
      Option.bind_some, pure]
  · have hv := toNat_processAddress_add (by omega : off < 2 ^ 40)
    constructor
    · rw [← haddress]
      exact walk_process hbuilt hplaced hlimit hstart hrange hoff hv
    · rw [← haddress, getAddress_process hbuilt hplaced hpages hstart (by omega) ?_,
        UInt64.add_comm processAddress, ← UInt64.add_assoc, UInt64.add_sub_cancel]
      rw [UInt64.le_iff_toNat_le, hv]
      exact Nat.le_add_right _ _
  · rw [← haddress]
    refine walk_unmapped hbuilt hplaced hslot ?_
    by_contra hin
    rw [not_or, not_lt, not_le] at hin
    refine hv (v.toNat - 2 ^ 39) (by omega) ?_
    rw [← UInt64.toNat_inj, toNat_processAddress_add (by omega)]
    omega
  · rw [← haddress, tableEntry_pml4 hbuilt hplaced (by decide), if_pos rfl]
  · refine hstores.mono fun i hi => ?_
    obtain ⟨hlo, hhi⟩ := hi
    simp only [directoryAt, pageEntryCount] at hhi
    rw [Set.mem_ofPred_eq, htable]
    omega

end CreateTable

/-- A process of one page, at 2 MiB. -/
theorem createTable_translates_onePage :
    ∃ m' t' fuel, createTable fuel 7 0x200000 1 ⟨fun _ => 0, []⟩
        (Allocator.initAllocator fun _ => ⟨false, 0, 0⟩) = some (0x1001000, m', t') ∧
      walk m' 0x1001000 (processAddress + UInt64.ofNat 5) = some (0x200000 + 5) := by
  obtain ⟨m', ⟨fuel, hfuel⟩, hwalk, -⟩ := @createTable_translates 7 0x200000 1 0x1001000
    ⟨fun _ => 0, []⟩ (Allocator.initAllocator fun _ => ⟨false, 0, 0⟩) _ 1 rfl (by decide) (by decide)
    (by decide) (by decide) (by decide) (by decide)
  exact ⟨m', _, fuel, hfuel fuel le_rfl, (hwalk 5 (by decide)).1⟩

end Naul
