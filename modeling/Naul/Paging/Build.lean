import Naul.Lib.Bits
import Naul.Paging.Table

/-!
# What `createTable` builds

`Filled` is the invariant of the outer loop: after `k` turns, `k` directories are written and point
to `512 * k` pages of the process, of which those past the last one are not present. `Built` is what
it comes to when the loop is left and the PML4 is complete; `buildTable_total` and `buildTable_built`
say that the loop is left, and with `Built`.
-/

namespace Naul

/-- The entry of a page directory for the `i`th page of the process. -/
def pageEntry (start : UInt64) (i : ℕ) : UInt64 :=
  (start + UInt64.ofNat i * pageSize) ||| pagePresent ||| pageSized

/-- The word a page directory is at. -/
def directoryAt (pdpt k : ℕ) : ℕ := pdpt + pageEntryCount + k * pageEntryCount

/-- The number of page directories. -/
def directoryCount (pages : ℕ) : ℕ := (pages - 1) / pageEntryCount + 1

/-! ### One directory -/

section Fill

variable (pdt i n : ℕ) (s : Filling)

theorem fillDirectory_address :
    (fillDirectory pdt i n s).address = s.address + UInt64.ofNat n * pageSize := by
  induction n generalizing i s with
  | zero => simp [fillDirectory]
  | succ n ih =>
    rw [fillDirectory, ih, UInt64.ofNat_add]
    simp only [UInt64.add_mul]
    rw [UInt64.add_assoc, UInt64.add_comm pageSize]
    rfl

theorem fillDirectory_pages :
    (fillDirectory pdt i n s).pages = s.pages - UInt64.ofNat n := by
  induction n generalizing i s with
  | zero => simp [fillDirectory]
  | succ n ih =>
    rw [fillDirectory, ih, UInt64.ofNat_add]
    simp only [UInt64.sub_eq_add_neg, UInt64.neg_add]
    rw [UInt64.add_assoc, UInt64.add_comm (-1)]
    rfl

theorem fillDirectory_table : (fillDirectory pdt i n s).table = s.table := by
  induction n generalizing i s with
  | zero => rfl
  | succ n ih => rw [fillDirectory, ih]

theorem storesIn_fillDirectory :
    Cells.StoresIn (Set.Ico (pdt + i) (pdt + i + n)) s.memory (fillDirectory pdt i n s).memory := by
  induction n generalizing i s with
  | zero => exact .refl _ _
  | succ n ih =>
    have hrest := ih (i + 1) { s with
      memory := s.memory.store (pdt + i) (s.address ||| pagePresent ||| pageSized)
      address := s.address + pageSize
      pages := s.pages - 1 }
    refine (Cells.storesIn_store s.memory ?_ _).trans (hrest.mono ?_)
    · exact ⟨le_rfl, by omega⟩
    · exact Set.Ico_subset_Ico (by omega) (by omega)

/-- The pages entered into a directory follow each other. -/
theorem fillDirectory_cell (j : ℕ) :
    (fillDirectory pdt i n s).memory.cell j =
      if pdt + i ≤ j ∧ j < pdt + i + n then pageEntry s.address (j - (pdt + i))
      else s.memory.cell j := by
  induction n generalizing i s with
  | zero => rw [fillDirectory, if_neg (by omega)]
  | succ n ih =>
    rw [fillDirectory, ih, Cells.store_cell]
    by_cases hj : j = pdt + i
    · rw [if_neg (by omega), if_pos hj, if_pos (by omega), hj, Nat.sub_self]
      simp [pageEntry]
    · rw [if_neg hj]
      by_cases hin : pdt + i ≤ j ∧ j < pdt + i + (n + 1)
      · obtain ⟨d, hd⟩ : ∃ d, j - (pdt + i) = d + 1 := ⟨j - (pdt + i) - 1, by omega⟩
        rw [if_pos hin, if_pos (by omega), hd, show j - (pdt + (i + 1)) = d by omega]
        simp only [pageEntry, UInt64.ofNat_add, UInt64.add_mul]
        rw [UInt64.add_assoc, UInt64.add_comm pageSize]
        rfl
      · rw [if_neg hin, if_neg (by omega)]

end Fill

/-! ### All directories -/

section Loop

variable {pdpt k : ℕ} {start pages : UInt64} {m₀ : Cells UInt64} {s s' : Filling}

/-- After `k` turns of the outer loop over a memory `m₀` in which the directory of directories is
empty. -/
structure Filled (pdpt : ℕ) (start pages : UInt64) (m₀ : Cells UInt64) (k : ℕ) (s : Filling) :
    Prop where
  le_count : k ≤ directoryCount pages.toNat
  table : s.table.toNat = k
  left : s.pages.toNat = pages.toNat - k * pageEntryCount
  address : s.address = start + UInt64.ofNat (min (k * pageEntryCount) pages.toNat) * pageSize
  directory : ∀ j < pageEntryCount, s.memory.cell (pdpt + j) =
    if j < k then toAddress (directoryAt pdpt j) ||| pagePresent else 0
  entries : ∀ i < k * pageEntryCount, s.memory.cell (directoryAt pdpt 0 + i) =
    if i < pages.toNat then pageEntry start i else 0
  stores : Cells.StoresIn (Set.Ico pdpt (directoryAt pdpt (directoryCount pages.toNat))) m₀ s.memory

theorem filled_start (hempty : ∀ j < pageEntryCount, m₀.cell (pdpt + j) = 0) :
    Filled pdpt start pages m₀ 0 ⟨pages, start, 0, m₀⟩ where
  le_count := Nat.zero_le _
  table := rfl
  left := by simp
  address := by simp
  directory := fun j hj => by simp [hempty j hj]
  entries := fun i hi => absurd hi (by simp)
  stores := .refl _ m₀

/-- The number of pages entered in the next turn. -/
theorem toNat_directoryPages (pages : UInt64) :
    (directoryPages pages).toNat = min pages.toNat pageEntryCount := by
  rw [directoryPages]
  split_ifs with hlt
  · rw [UInt64.lt_iff_toNat_lt] at hlt
    have hlt' : pages.toNat < pageEntryCount := hlt
    rw [UInt64.toNat_toUInt16, min_eq_left hlt'.le, Nat.mod_eq_of_lt]
    simp only [pageEntryCount] at hlt'
    omega
  · rw [UInt64.lt_iff_toNat_lt, not_lt] at hlt
    have hle : pageEntryCount ≤ pages.toNat := hlt
    rw [min_eq_right hle]
    rfl

/-- The page entered at place `i` of directory `k`, as a page of the process. -/
theorem pageEntry_add (start : UInt64) (k i : ℕ) :
    pageEntry (start + UInt64.ofNat k * pageSize) i = pageEntry start (k + i) := by
  rw [pageEntry, pageEntry, UInt64.ofNat_add, UInt64.add_mul, UInt64.add_assoc]

/-- What one turn of the outer loop does, with the `k`th directory and `n` pages. -/
structure Turn (pdpt k n : ℕ) (s s' : Filling) : Prop where
  more : s.pages ≠ 0
  count : n = min s.pages.toNat pageEntryCount
  pages : s'.pages = s.pages - UInt64.ofNat n
  address : s'.address = s.address + UInt64.ofNat n * pageSize
  table : s'.table = s.table + 1
  cell : ∀ j, s'.memory.cell j =
    if j = pdpt + k then toAddress (directoryAt pdpt k) ||| pagePresent
    else if directoryAt pdpt k ≤ j ∧ j < directoryAt pdpt k + n then
      pageEntry s.address (j - directoryAt pdpt k)
    else if directoryAt pdpt k ≤ j ∧ j < directoryAt pdpt k + pageEntryCount then 0
    else s.memory.cell j
  stores : Cells.StoresIn
    (insert (pdpt + k) (Set.Ico (directoryAt pdpt k) (directoryAt pdpt k + pageEntryCount)))
    s.memory s'.memory

theorem turn_of_directoryBody (hbody : directoryBody pdpt s = .inl s') (hk : s.table.toNat = k) :
    ∃ n, Turn pdpt k n s s' := by
  have hne : s.pages ≠ 0 := fun h0 => by simp [directoryBody, h0] at hbody
  have hpdt : pdpt + pageEntryCount + k * pageEntryCount = directoryAt pdpt k := rfl
  simp only [directoryBody, hne, ne_eq, not_false_eq_true, if_true, Sum.inl.injEq,
    setMemory, fillDirectory_table, hk, hpdt] at hbody
  subst hbody
  have hcount := toNat_directoryPages s.pages
  generalize (directoryPages s.pages).toNat = n at hcount ⊢
  refine ⟨n, hne, hcount, fillDirectory_pages _ _ _ _, fillDirectory_address _ _ _ _, rfl,
    fun j => ?_, ?_⟩
  · rw [Cells.store_cell, fillDirectory_cell, Cells.fill_cell, Nat.add_zero]
  · -- the turn clears a directory, fills it and points to it
    have hfill := Cells.storesIn_fill s.memory (directoryAt pdpt k) 0 pageEntryCount
    generalize s.memory.fill (directoryAt pdpt k) 0 pageEntryCount = m at hfill ⊢
    have hpages := storesIn_fillDirectory (directoryAt pdpt k) 0 n { s with memory := m }
    refine ((hfill.mono (Set.subset_insert _ _)).trans (hpages.mono ?_)).trans
      (Cells.storesIn_store _ (Set.mem_insert _ _) _)
    exact (Set.Ico_subset_Ico le_rfl (by omega)).trans (Set.subset_insert _ _)

theorem filled_step (hlimit : pages.toNat ≤ pageEntryCount * pageEntryCount)
    (h : Filled pdpt start pages m₀ k s) (hbody : directoryBody pdpt s = .inl s') :
    Filled pdpt start pages m₀ (k + 1) s' := by
  obtain ⟨n, hturn⟩ := turn_of_directoryBody hbody h.table
  have hleft := h.left
  have hn := hturn.count
  have hpos : k * pageEntryCount < pages.toNat := by
    by_contra hle
    exact hturn.more (UInt64.toNat_inj.1 (by rw [hleft, UInt64.toNat_zero]; omega))
  have hcount : k + 1 ≤ directoryCount pages.toNat := by
    simp only [directoryCount, pageEntryCount] at hpos ⊢
    omega
  have hlt : k < pageEntryCount := by
    by_contra hge
    have := Nat.mul_le_mul_right pageEntryCount (not_lt.1 hge)
    omega
  refine ⟨hcount, ?_, ?_, ?_, fun j hj => ?_, fun i hi => ?_, h.stores.trans (hturn.stores.mono ?_)⟩
  · rw [hturn.table, UInt16.toNat_add, h.table, UInt16.toNat_one, Nat.mod_eq_of_lt]
    simp only [pageEntryCount] at hlt
    omega
  · have hofNat : (UInt64.ofNat n).toNat = n := by
      rw [UInt64.toNat_ofNat', Nat.mod_eq_of_lt]
      simp only [pageEntryCount] at hn
      omega
    rw [hturn.pages, UInt64.toNat_sub_of_le, hofNat, hleft, Nat.add_one_mul]
    · omega
    · rw [UInt64.le_iff_toNat_le, hofNat]
      omega
  · rw [hturn.address, h.address, min_eq_left hpos.le, Nat.add_one_mul,
      show min (k * pageEntryCount + pageEntryCount) pages.toNat = k * pageEntryCount + n by omega,
      UInt64.ofNat_add, UInt64.add_mul, UInt64.add_assoc]
  · -- the directory of directories lies below the directories
    rw [hturn.cell, directoryAt]
    by_cases hjk : j = k
    · rw [if_pos (by omega), if_pos (by omega), hjk, directoryAt]
    · rw [if_neg (by omega), if_neg (by omega), if_neg (by omega), h.directory j hj]
      exact if_congr (by omega) rfl rfl
  · rw [Nat.add_one_mul] at hi
    -- an entry of an earlier directory, or of the one just filled
    by_cases hik : i < k * pageEntryCount
    · rw [hturn.cell, if_neg (by simp only [directoryAt]; omega),
        if_neg (by simp only [directoryAt]; omega), if_neg (by simp only [directoryAt]; omega),
        h.entries i hik]
    · have hi' : directoryAt pdpt 0 + i - directoryAt pdpt k = i - k * pageEntryCount := by
        simp only [directoryAt]
        omega
      rw [hturn.cell, if_neg (by simp only [directoryAt]; omega), hi', h.address,
        min_eq_left hpos.le, pageEntry_add, Nat.add_sub_cancel' (not_lt.1 hik)]
      by_cases hip : i < pages.toNat
      · rw [if_pos (by simp only [directoryAt]; omega), if_pos hip]
      · rw [if_neg (by simp only [directoryAt]; omega), if_pos (by simp only [directoryAt]; omega),
          if_neg hip]
  · have hle := Nat.mul_le_mul_right pageEntryCount hcount
    rw [Nat.add_one_mul] at hle
    refine Set.insert_subset ⟨by omega, by rw [directoryAt]; omega⟩ ?_
    exact Set.Ico_subset_Ico (by rw [directoryAt]; omega) (by simp only [directoryAt]; omega)

/-- The outer loop is left, after as many turns as there are directories. -/
theorem run_directoryBody (hlimit : pages.toNat ≤ pageEntryCount * pageEntryCount)
    (hpages : 1 ≤ pages.toNat) (hempty : ∀ j < pageEntryCount, m₀.cell (pdpt + j) = 0) :
    ∃ fuel s, WhileLoop.run (directoryBody pdpt) fuel ⟨pages, start, 0, m₀⟩ = some s.memory ∧
      Filled pdpt start pages m₀ (directoryCount pages.toNat) s := by
  have hstart : ∃ k, Filled pdpt start pages m₀ k ⟨pages, start, 0, m₀⟩ := ⟨0, filled_start hempty⟩
  have hstep : ∀ s s', (∃ k, Filled pdpt start pages m₀ k s) → directoryBody pdpt s = .inl s' →
      ∃ k, Filled pdpt start pages m₀ k s' := fun s s' hs hbody =>
    hs.elim fun k hk => ⟨k + 1, filled_step hlimit hk hbody⟩
  have hless : ∀ s s', (∃ k, Filled pdpt start pages m₀ k s) → directoryBody pdpt s = .inl s' →
      s'.pages.toNat < s.pages.toNat := by
    rintro s s' ⟨k, hk⟩ hbody
    obtain ⟨n, hturn⟩ := turn_of_directoryBody hbody hk.table
    have hne : s.pages.toNat ≠ 0 := fun h0 => hturn.more (UInt64.toNat_inj.1 h0)
    have hleft := hk.left
    have hleft' := (filled_step hlimit hk hbody).left
    rw [Nat.add_one_mul] at hleft'
    simp only [pageEntryCount] at hleft hleft'
    omega
  obtain ⟨fuel, m, hrun⟩ := WhileLoop.run_total (fun s : Filling => s.pages.toNat)
    (fun s s' hs hbody => ⟨hstep s s' hs hbody, hless s s' hs hbody⟩) hstart
  obtain ⟨s, ⟨k, hk⟩, hzero, rfl⟩ := WhileLoop.run_invariant
    (Q := fun m => ∃ s, (∃ k, Filled pdpt start pages m₀ k s) ∧ s.pages = 0 ∧ m = s.memory) hstep
    (fun s m hs hbody => by
      by_cases hzero : s.pages = 0
      · refine ⟨s, hs, hzero, ?_⟩
        simpa [directoryBody, hzero, eq_comm] using hbody
      · simp [directoryBody, hzero] at hbody) hstart hrun
  refine ⟨fuel, s, hrun, ?_⟩
  -- no page is left, so all directories are filled
  have hcount : k = directoryCount pages.toNat := by
    have hleft := hk.left
    have hle := hk.le_count
    rw [hzero, UInt64.toNat_zero] at hleft
    simp only [directoryCount, pageEntryCount] at hleft hle ⊢
    omega
  exact hcount ▸ hk

end Loop

/-! ### The finished tables -/

/-- The tables of a process, in the block that starts at word `pml4t`. -/
structure Built (mainPdpt start : UInt64) (pages pml4t : ℕ) (m : Cells UInt64) : Prop where
  pml4 : ∀ j < pageEntryCount, m.cell (pml4t + j) =
    if j = 0 then mainPdpt
    else if j = 1 then toAddress (pml4t + pageEntryCount) ||| pagePresent else 0
  directory : ∀ j < pageEntryCount, m.cell (pml4t + pageEntryCount + j) =
    if j < directoryCount pages then
      toAddress (directoryAt (pml4t + pageEntryCount) j) ||| pagePresent
    else 0
  entries : ∀ i < directoryCount pages * pageEntryCount,
    m.cell (directoryAt (pml4t + pageEntryCount) 0 + i) = if i < pages then pageEntry start i else 0

/-- The words of the block. -/
def tableBlock (pages pml4t : ℕ) : Set ℕ :=
  Set.Ico pml4t (directoryAt (pml4t + pageEntryCount) (directoryCount pages))

theorem buildTable_built {mainPdpt start pages : UInt64} {pml4t : ℕ} (m : Cells UInt64)
    (hlimit : pages.toNat ≤ pageEntryCount * pageEntryCount) (hpages : 1 ≤ pages.toNat) :
    ∃ fuel m', buildTable fuel mainPdpt start pages pml4t m = some m' ∧
      Built mainPdpt start pages.toNat pml4t m' ∧
      Cells.StoresIn (tableBlock pages.toNat pml4t) m m' := by
  have hstores₀ : Cells.StoresIn (tableBlock pages.toNat pml4t) m
      (((m.fill pml4t 0 pageEntryCount).store pml4t mainPdpt).fill (pml4t + pageEntryCount) 0
        pageEntryCount) := by
    refine (((Cells.storesIn_fill m pml4t 0 _).mono ?_).trans
      (Cells.storesIn_store _ ?_ _)).trans ((Cells.storesIn_fill _ _ 0 _).mono ?_)
    · exact Set.Ico_subset_Ico le_rfl (by simp only [directoryAt]; omega)
    · exact ⟨le_rfl, by simp only [directoryAt, pageEntryCount]; omega⟩
    · exact Set.Ico_subset_Ico (by omega) (by simp only [directoryAt]; omega)
  have hcell₀ : ∀ j, (((m.fill pml4t 0 pageEntryCount).store pml4t mainPdpt).fill
      (pml4t + pageEntryCount) 0 pageEntryCount).cell j =
        if pml4t + pageEntryCount ≤ j ∧ j < pml4t + pageEntryCount + pageEntryCount then 0
        else if j = pml4t then mainPdpt
        else if pml4t ≤ j ∧ j < pml4t + pageEntryCount then 0
        else m.cell j := fun j => by
    rw [Cells.fill_cell, Cells.store_cell, Cells.fill_cell]
  generalize hm₀ : ((m.fill pml4t 0 pageEntryCount).store pml4t mainPdpt).fill
    (pml4t + pageEntryCount) 0 pageEntryCount = m₀ at hstores₀ hcell₀
  obtain ⟨fuel, s, hrun, hfilled⟩ := @run_directoryBody (pml4t + pageEntryCount) start
    pages m₀ hlimit hpages fun j hj => by rw [hcell₀, if_pos (by omega)]
  refine ⟨fuel, s.memory.store (pml4t + 1) (toAddress (pml4t + pageEntryCount) ||| pagePresent),
    ?_, ⟨fun j hj => ?_, fun j hj => ?_, fun i hi => ?_⟩, ?_⟩
  · simp only [buildTable, setMemory, hm₀, hrun, bind, Option.bind_some, pure]
  · rw [Cells.store_cell]
    by_cases hj1 : j = 1
    · rw [if_pos (by omega), if_neg (by omega), if_pos hj1]
    · rw [if_neg (by omega), if_neg hj1, hfilled.stores.frame _ (fun hmem => by
        have := hmem.1
        omega), hcell₀, if_neg (by omega)]
      by_cases hj0 : j = 0
      · rw [if_pos (by omega), if_pos hj0]
      · rw [if_neg (by omega), if_pos (by omega), if_neg hj0]
  · have hone : 1 < pageEntryCount := by decide
    rw [Cells.store_cell, if_neg (by omega), hfilled.directory j hj]
  · have hone : 1 < pageEntryCount := by decide
    rw [Cells.store_cell, if_neg (by rw [directoryAt]; omega), hfilled.entries i hi]
  · refine (hstores₀.trans (hfilled.stores.mono ?_)).trans (Cells.storesIn_store _ ?_ _)
    · exact Set.Ico_subset_Ico (by omega) le_rfl
    · exact ⟨by omega, by simp only [directoryAt, pageEntryCount]; omega⟩

end Naul
