import Naul.Paging.Walk

/-!
# What `quit` reads in the tables

`getAddress` finds the program through the first entry of each table. The directory of directories has
room for 512 entries, and `createTable` does not stop there: entry 512 is the first entry of the first
page directory, and after 65536 directories the counter, a `uint16_t`, is back at the first one.
`Heads` is the invariant of the outer loop for any number of pages, and `getAddress_first_iff` says when
the program is found.
-/

namespace Naul

/-- The first entry of the first page directory after turn `k` of the outer loop. -/
def firstEntry (pdpt : ℕ) (start : UInt64) (k : ℕ) : UInt64 :=
  if k % 65536 < pageEntryCount then pageEntry start ((k - k % 65536) * pageEntryCount)
  else toAddress (directoryAt pdpt pageEntryCount) ||| pagePresent

/-- After `k` turns of the outer loop. -/
structure Heads (pdpt : ℕ) (start pages : UInt64) (k : ℕ) (s : Filling) : Prop where
  le_count : k ≤ directoryCount pages.toNat
  table : s.table.toNat = k % 65536
  left : s.pages.toNat = pages.toNat - k * pageEntryCount
  address : s.pages ≠ 0 → s.address = start + UInt64.ofNat (k * pageEntryCount) * pageSize
  directory : k ≠ 0 → s.memory.cell pdpt = toAddress (directoryAt pdpt 0) ||| pagePresent
  first : ∀ j, k = j + 1 → s.memory.cell (directoryAt pdpt 0) = firstEntry pdpt start j

section Loop

variable {pdpt k : ℕ} {start pages : UInt64} {s s' : Filling}

theorem heads_start (m : Cells UInt64) : Heads pdpt start pages 0 ⟨pages, start, 0, m⟩ where
  le_count := Nat.zero_le _
  table := rfl
  left := by simp
  address := by simp
  directory := fun h => absurd rfl h
  first := fun j hj => absurd hj (Nat.succ_ne_zero j).symm

/-- The first entry in the next turn: it is written when the counter is 0 and when it is 512. -/
theorem firstEntry_next :
    firstEntry pdpt start k =
      if k % 65536 = 0 then pageEntry start (k * pageEntryCount)
      else if k % 65536 = pageEntryCount then toAddress (directoryAt pdpt pageEntryCount) ||| pagePresent
      else firstEntry pdpt start (k - 1) := by
  have hcount : pageEntryCount = 512 := rfl
  simp only [firstEntry]
  by_cases h0 : k % 65536 = 0
  · rw [if_pos h0, if_pos (by omega), h0, Nat.sub_zero]
  · rw [if_neg h0]
    by_cases h512 : k % 65536 = pageEntryCount
    · rw [if_pos h512, if_neg (by omega)]
    · rw [if_neg h512, show k - 1 - (k - 1) % 65536 = k - k % 65536 by omega]
      exact if_congr (by omega) rfl rfl

theorem heads_step (h : Heads pdpt start pages k s) (hbody : directoryBody pdpt s = .inl s') :
    Heads pdpt start pages (k + 1) s' := by
  obtain ⟨n, hturn⟩ := turn_of_directoryBody hbody h.table
  have hleft := h.left
  have hn := hturn.count
  have hne : s.pages.toNat ≠ 0 := fun h0 => hturn.more (UInt64.toNat_inj.1 h0)
  have hofNat : (UInt64.ofNat n).toNat = n := by
    rw [UInt64.toNat_ofNat', Nat.mod_eq_of_lt]
    simp only [pageEntryCount] at hn
    omega
  have hleft' : s'.pages.toNat = s.pages.toNat - n := by
    rw [hturn.pages, UInt64.toNat_sub_of_le, hofNat]
    rw [UInt64.le_iff_toNat_le, hofNat]
    omega
  refine ⟨?_, ?_, ?_, fun hmore => ?_, fun _ => ?_, fun j hj => ?_⟩
  · simp only [directoryCount, pageEntryCount] at hleft ⊢
    omega
  · rw [hturn.table, UInt16.toNat_add, h.table, UInt16.toNat_one]
    omega
  · rw [hleft', Nat.add_one_mul]
    omega
  · -- more pages are left after a full directory only
    have hmore' : s'.pages.toNat ≠ 0 := fun h0 => hmore (UInt64.toNat_inj.1 h0)
    have hfull : n = pageEntryCount := by omega
    rw [hturn.address, h.address hturn.more, hfull, Nat.add_one_mul, UInt64.ofNat_add, UInt64.add_mul,
      UInt64.add_assoc]
  · rw [hturn.cell]
    by_cases h0 : k % 65536 = 0
    · rw [if_pos (by omega), h0]
    · rw [if_neg (by omega), if_neg (by simp only [directoryAt, pageEntryCount]; omega),
        if_neg (by simp only [directoryAt, pageEntryCount]; omega), h.directory (by omega)]
  · -- the first entry after this turn: a page, a pointer, or as it was
    obtain rfl : j = k := by omega
    have hpos : 0 < n := by
      simp only [pageEntryCount] at hn
      omega
    have haddress := h.address hturn.more
    rw [hturn.cell, directoryAt, directoryAt, Nat.zero_mul, Nat.add_zero]
    by_cases h0 : j % 65536 = 0
    · rw [h0, Nat.zero_mul, Nat.add_zero, Nat.add_zero, if_neg (by simp only [pageEntryCount]; omega),
        if_pos (by omega), Nat.sub_self, haddress, pageEntry_add, Nat.add_zero, firstEntry, h0,
        if_pos (by decide), Nat.sub_zero]
    · rw [firstEntry_next, if_neg h0]
      by_cases h512 : j % 65536 = pageEntryCount
      · rw [if_pos (by omega), if_pos h512, h512, directoryAt]
      · rw [if_neg (by omega), if_neg h512, if_neg (by simp only [pageEntryCount]; omega),
          if_neg (by simp only [pageEntryCount]; omega), ← h.first (j - 1) (by omega), directoryAt,
          Nat.zero_mul, Nat.add_zero]

end Loop

/-! ### The three entries -/

/-- The entries that `getAddress` reads for the first page of a process. -/
structure First (m : Cells UInt64) (pml4t : ℕ) (entry : UInt64) : Prop where
  pml4 : m.cell (pml4t + 1) = toAddress (pml4t + pageEntryCount) ||| pagePresent
  directory : m.cell (pml4t + pageEntryCount) =
    toAddress (directoryAt (pml4t + pageEntryCount) 0) ||| pagePresent
  page : m.cell (directoryAt (pml4t + pageEntryCount) 0) = entry

section Tables

variable {mainPdpt start pages entry : UInt64} {fuel pml4t p : ℕ} {m m' : Cells UInt64}

theorem buildTable_first (hpages : 1 ≤ pages.toNat)
    (h : buildTable fuel mainPdpt start pages pml4t m = some m') :
    First m' pml4t (firstEntry (pml4t + pageEntryCount) start ((pages.toNat - 1) / pageEntryCount)) := by
  simp only [buildTable, bind, Option.bind_eq_some_iff, pure, Option.some.injEq] at h
  obtain ⟨m₁, hrun, rfl⟩ := h
  obtain ⟨s, ⟨k, hk⟩, hzero, rfl⟩ := WhileLoop.run_invariant
    (I := fun s => ∃ k, Heads (pml4t + pageEntryCount) start pages k s)
    (Q := fun m => ∃ s, (∃ k, Heads (pml4t + pageEntryCount) start pages k s) ∧ s.pages = 0 ∧ m = s.memory)
    (fun s s' hs hbody => hs.elim fun k hk => ⟨k + 1, heads_step hk hbody⟩)
    (fun s m hs hbody => by
      by_cases hzero : s.pages = 0
      · refine ⟨s, hs, hzero, ?_⟩
        simpa [directoryBody, hzero, eq_comm] using hbody
      · simp [directoryBody, hzero] at hbody) ⟨0, heads_start _⟩ hrun
  have hle := hk.le_count
  have hleft := hk.left
  rw [hzero, UInt64.toNat_zero] at hleft
  simp only [directoryCount, pageEntryCount] at hle hleft
  refine ⟨?_, ?_, ?_⟩
  · rw [Cells.store_cell, if_pos rfl]
  · rw [Cells.store_cell, if_neg (by simp only [pageEntryCount]; omega), hk.directory (by omega)]
  · rw [Cells.store_cell, if_neg (by simp only [directoryAt, pageEntryCount]; omega)]
    exact hk.first _ (by simp only [pageEntryCount]; omega)

/-- `createTable` returns, for any number of pages. -/
theorem buildTable_total (mainPdpt start pages : UInt64) (pml4t : ℕ) (m : Cells UInt64) :
    ∃ fuel m', buildTable fuel mainPdpt start pages pml4t m = some m' := by
  have hless : ∀ s s', (∃ k, Heads (pml4t + pageEntryCount) start pages k s) →
      directoryBody (pml4t + pageEntryCount) s = .inl s' →
      (∃ k, Heads (pml4t + pageEntryCount) start pages k s') ∧ s'.pages.toNat < s.pages.toNat := by
    rintro s s' ⟨k, hk⟩ hbody
    obtain ⟨n, hturn⟩ := turn_of_directoryBody hbody hk.table
    have hne : s.pages.toNat ≠ 0 := fun h0 => hturn.more (UInt64.toNat_inj.1 h0)
    have hleft := hk.left
    have hleft' := (heads_step hk hbody).left
    rw [Nat.add_one_mul] at hleft'
    refine ⟨⟨k + 1, heads_step hk hbody⟩, ?_⟩
    simp only [pageEntryCount] at hleft hleft'
    omega
  have hstart := @heads_start (pml4t + pageEntryCount) start pages (setMemory (pml4t + pageEntryCount) 0
    pageEntryCount ((setMemory pml4t 0 pageEntryCount m).store pml4t mainPdpt))
  obtain ⟨fuel, m₁, hrun⟩ := WhileLoop.run_total (fun s : Filling => s.pages.toNat) hless ⟨0, hstart⟩
  exact ⟨fuel, _, Option.bind_eq_some_iff.2 ⟨m₁, hrun, rfl⟩⟩

/-- Nothing else of the tables is read. -/
theorem First.congr (h : First m pml4t entry)
    (hsame : ∀ i, pml4t ≤ i → i < pml4t + 3 * pageEntryCount → m'.cell i = m.cell i) :
    First m' pml4t entry := by
  have hcount : pageEntryCount = 512 := rfl
  refine ⟨?_, ?_, ?_⟩
  · rw [hsame _ (by omega) (by omega)]
    exact h.pml4
  · rw [hsame _ (by omega) (by omega)]
    exact h.directory
  · rw [hsame _ (by simp only [directoryAt]; omega) (by simp only [directoryAt]; omega)]
    exact h.page

/-- A page table at word `p`. -/
theorem toNat_toAddress_of_lt (hp : 8 * p < 2 ^ 64) : (toAddress p).toNat = 8 * p := by
  rw [toAddress, UInt64.toNat_ofNat', Nat.mod_eq_of_lt hp]

theorem dvd_toAddress_of_lt (hp : 512 ∣ p) (hlow : 8 * p < 2 ^ 64) : 2 ^ 12 ∣ (toAddress p).toNat := by
  obtain ⟨q, rfl⟩ := hp
  rw [toNat_toAddress_of_lt hlow]
  exact ⟨q, by ring⟩

theorem dvd_page (hstart : 2 ^ 21 ∣ start.toNat) (i : ℕ) :
    2 ^ 12 ∣ (start + UInt64.ofNat i * pageSize).toNat := by
  obtain ⟨q, hq⟩ := hstart
  have hsize : pageSize.toNat = 2 ^ 21 := rfl
  rw [UInt64.toNat_add, UInt64.toNat_mul, UInt64.toNat_ofNat', hq, hsize]
  omega

theorem load64_toAddress (hp : 8 * p < 2 ^ 64) : load64 m (toAddress p) = m.cell p := by
  rw [load64, toNat_toAddress_of_lt hp, Nat.mul_div_cancel_left _ (by decide)]

/-- `getAddress` of the first address of a process. -/
theorem First.getAddress (h : First m pml4t entry) (haligned : 512 ∣ pml4t)
    (hlow : 8 * (pml4t + 3 * pageEntryCount) ≤ 2 ^ 64) :
    getAddress m (toAddress pml4t) processAddress = entry &&& pageAddressMask := by
  simp only [pageEntryCount] at hlow
  have hpdpt : 512 ∣ pml4t + pageEntryCount := (Nat.dvd_add_right haligned).2 (dvd_refl 512)
  have hpdt : 512 ∣ directoryAt (pml4t + pageEntryCount) 0 := by
    rw [directoryAt, Nat.zero_mul, Nat.add_zero]
    exact (Nat.dvd_add_right hpdpt).2 (dvd_refl 512)
  have hone : load64 m (toAddress pml4t + 8) = m.cell (pml4t + 1) := by
    have hadd : toAddress pml4t + 8 = toAddress (pml4t + 1) := by
      rw [toAddress, toAddress, Nat.mul_add, UInt64.ofNat_add]
      rfl
    rw [hadd, load64_toAddress (by omega)]
  have hthree : pagePresent.toNat < 2 ^ 12 := by decide
  rw [Naul.getAddress, if_pos (UInt64.le_refl _), hone, h.pml4,
    or_and_mask (dvd_toAddress_of_lt hpdpt (by simp only [pageEntryCount]; omega)) hthree,
    load64_toAddress (by simp only [pageEntryCount]; omega), h.directory,
    or_and_mask (dvd_toAddress_of_lt hpdt (by simp only [directoryAt, pageEntryCount]; omega)) hthree,
    load64_toAddress (by simp only [directoryAt, pageEntryCount]; omega), h.page, UInt64.add_sub_cancel]

/-- **When `quit` finds the program.** For a block that does not contain the start of the program, it is
where the directory of directories has room for all page directories. -/
theorem getAddress_first_iff (hpages : 1 ≤ pages.toNat) (hstart : 2 ^ 21 ∣ start.toNat)
    (hrange : start.toNat + (pages.toNat - 1) * 2 ^ 21 < 2 ^ 64) (haligned : 512 ∣ pml4t)
    (hlow : 8 * (pml4t + (directoryCount pages.toNat + 2) * pageEntryCount) ≤ 2 ^ 64)
    (hout : start.toNat < 8 * pml4t ∨
      8 * (pml4t + (directoryCount pages.toNat + 2) * pageEntryCount) ≤ start.toNat)
    (h : First m pml4t (firstEntry (pml4t + pageEntryCount) start ((pages.toNat - 1) / pageEntryCount))) :
    getAddress m (toAddress pml4t) processAddress = start ↔
      pages.toNat ≤ pageEntryCount * pageEntryCount := by
  have hcount : pageEntryCount = 512 := rfl
  have hsize : pageSize.toNat = 2 ^ 21 := rfl
  simp only [directoryCount] at hlow hout
  have hthree : 8 * (pml4t + 3 * pageEntryCount) ≤ 2 ^ 64 := by
    have hmul : 3 * pageEntryCount ≤ ((pages.toNat - 1) / pageEntryCount + 1 + 2) * pageEntryCount :=
      Nat.mul_le_mul_right _ (Nat.le_add_left 3 _)
    omega
  rw [h.getAddress haligned hthree, firstEntry]
  -- which of the two was stored last into the first entry depends on the 16 bits of the counter
  by_cases hlast : (pages.toNat - 1) / pageEntryCount % 65536 < pageEntryCount
  · -- the entry of a page, the first one unless the counter has wrapped
    have hflags : (pagePresent ||| pageSized).toNat < 2 ^ 12 := by decide
    rw [if_pos hlast, pageEntry, UInt64.or_assoc, or_and_mask (dvd_page hstart _) hflags]
    rw [hcount] at hlast ⊢
    rw [← UInt64.toNat_inj, UInt64.toNat_add, UInt64.toNat_mul, UInt64.toNat_ofNat', hsize]
    omega
  · -- the entry that points to directory 512
    have hdirectory : 512 ∣ directoryAt (pml4t + pageEntryCount) pageEntryCount := by
      obtain ⟨q, rfl⟩ := haligned
      exact ⟨q + 514, by simp only [directoryAt, pageEntryCount]; ring⟩
    have hlt : 8 * directoryAt (pml4t + pageEntryCount) pageEntryCount < 2 ^ 64 := by
      rw [hcount] at hlow hlast
      rw [directoryAt, hcount]
      omega
    rw [if_neg hlast, or_and_mask (dvd_toAddress_of_lt hdirectory hlt) (by decide), ← UInt64.toNat_inj,
      toNat_toAddress_of_lt hlt, directoryAt]
    rw [hcount] at hlast hout ⊢
    omega

end Tables

end Naul
