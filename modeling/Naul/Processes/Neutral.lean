import Naul.Allocator.Room
import Naul.Processes.Execute

/-!
# What a program leaves behind

`loadSymbols_settles`, `launch_settles`, `quit_settles` and `cleaner_settles` follow the accounts of the
calls (`Balanced`), and `neutral_iff` puts them together: a program that runs to its end leaves the live
allocations and the calling thread as they were, if and only if its tables have room for its pages and
each name that is read from its symbol file fits in a `uint8_t`.
-/

namespace Naul

open Fuel LinkRing

namespace Execution

open Symbols Filesystem Allocator

/-- What there is of a symbol file: no file of the name, or one with these lines. -/
def HasSymbols (k : Execution) (xs : List UInt64) (name : CString) : Option (List SymbolLine) → Prop
  | none => ∀ e ∈ k.files.entries xs, e.name = name → e.data = 0
  | some lines => ∃ e, firstNamed (k.files.entries xs) name = some e ∧ e.data ≠ 0 ∧
    IsSymbolFile (k.contents e.data) e.size lines ∧ 1 ≤ textCount lines ∧ textCount lines * 264 < 2 ^ 64

/-- `stringLength(filename)`. -/
def nameLength (filename : CString) : UInt64 := UInt64.ofNat (stringLength filename.bytes)

/-- The requests of `loadSymbols`: the name goes back after the symbols have been allocated. -/
def symbolRequests (filename : CString) : Option (List SymbolLine) → List Request
  | none => [.allocate (nameLength filename + 1), .free 0]
  | some lines => [.allocate (nameLength filename + 1),
    .allocate (UInt64.ofNat (textCount lines) * sizeofSymbol), .free 1]

/-- The requests of `launch`. -/
def launchRequests (size : UInt64) : List Request :=
  [.allocateAligned (tableSize (programPages size)) pageAlignment, .allocate Processes.sizeofThread,
    .allocateAligned Processes.stackSize 16]

/-- The requests of `execute`. -/
def requests (filename : CString) (size : UInt64) (lines : Option (List SymbolLine)) : List Request :=
  .allocateAligned size pageSize :: (symbolRequests filename lines ++ launchRequests size)

/-- Every name that is read fits. -/
def ShortNames (lines : Option (List SymbolLine)) : Prop := ∀ ls ∈ lines, ∀ l ∈ ls, l.IsText → l.Short

/-- The block of the symbols, when there is one. -/
def SymbolBlocks (address : UInt64) (bs : List Block) : Prop :=
  address = 0 ∧ bs = [] ∨ ∃ b, bs = [b] ∧ b.pointer = address ∧ address ≠ 0

section Steady

theorem steady_getFile (fs : Filesystem) (name : CString) : Steady fun n => fs.getFile n name :=
  steady_bind (steady_run _ _) fun _ => steady_some _

theorem steady_checkFile (fs : Filesystem) (name : CString) : Steady fun n => fs.checkFile n name :=
  steady_run _ _

theorem steady_countSymbols (data : ℕ → UInt8) (size : ℕ) : Steady (countSymbols data size) :=
  steady_loop (steady_countBody data size) _

theorem steady_readSymbols (data : ℕ → UInt8) (amount : UInt64) : Steady (readSymbols data amount) :=
  steady_loop (steady_parseBody data amount) _

theorem steady_parseSymbols (name : CString) (fs : Filesystem) (contents : UInt64 → ℕ → UInt8)
    (t : Allocator) : Steady fun n => parseSymbols n name fs contents t :=
  steady_bind (steady_getFile _ _) fun _ => steady_bind (steady_countSymbols _ _) fun _ =>
    steady_bind (steady_reserve _ _ _) fun _ => steady_bind (steady_readSymbols _ _) fun _ => steady_some _

theorem steady_readTable (k : Execution) (name : CString) (hasSymbols : Bool) (t : Allocator) :
    Steady fun n => k.readTable n name hasSymbols t :=
  steady_ite (steady_parseSymbols _ _ _ _) (steady_some _)

theorem steady_loadSymbols (k : Execution) (filename : CString) :
    Steady fun n => k.loadSymbols n filename :=
  steady_bind (steady_reserve _ _ _) fun _ => steady_bind (steady_checkFile _ _) fun _ =>
    steady_bind (steady_readTable _ _ _ _) fun _ => steady_bind (steady_unallocate _ _) fun _ =>
      steady_some _

theorem steady_createThread (k : Execution) (function : UInt64) :
    Steady fun n => k.createThread n function :=
  steady_bind (steady_reserve _ _ _) fun _ => steady_bind (steady_reserve _ _ _) fun _ => steady_some _

theorem steady_createTable (mainPdpt start pages : UInt64) (m : Cells UInt64) (t : Allocator) :
    Steady fun n => createTable n mainPdpt start pages m t :=
  steady_bind (steady_reserve _ _ _) fun _ =>
    steady_bind (fun _ _ _ hmn h => buildTable_mono hmn h) fun _ => steady_some _

theorem steady_launch (k : Execution) (data program size : UInt64) :
    Steady fun n => k.launch n data program size :=
  steady_bind (steady_createTable _ _ _ _ _) fun _ => steady_bind (steady_createThread _ _) fun _ =>
    steady_some _

theorem steady_execute (k : Execution) (filename : CString) : Steady fun n => k.execute n filename :=
  steady_bind (steady_getFile _ _) fun _ => steady_bind (steady_reserve _ _ _) fun _ =>
    steady_bind (steady_loadSymbols _ _) fun _ => steady_bind (steady_launch _ _ _ _) fun _ => steady_some _

end Steady

/-! ### The symbols -/

section Symbols

variable {k : Execution} {filename name : CString} {xs : List UInt64} {lines : List SymbolLine}
  {t₀ t : Allocator} {held : List Block} {rs : List Request}

theorem checkFile_settles (hring : IsRing k.files.links k.files.files xs)
    {lines : Option (List SymbolLine)} (h : k.HasSymbols xs name lines) :
    Settles (fun n => k.files.checkFile n name) lines.isSome := by
  refine Returns.settles (steady_checkFile _ _) ⟨_, (checkEntry_eq hring _ name).trans ?_⟩
  cases lines with
  | none =>
    rw [Option.isSome_none, Option.some.injEq, List.any_eq_false]
    intro e he
    have hdata := h e he
    by_cases hname : e.name = name <;> simp [hname]
    exact hdata hname
  | some lines =>
    obtain ⟨e, he, hdata, -⟩ := h
    rw [Option.isSome_some, Option.some.injEq, List.any_eq_true]
    exact ⟨e, List.mem_of_find?_eq_some he, by simpa [hdata] using List.find?_some he⟩

theorem toNat_symbolsSize (hlt : textCount lines * 264 < 2 ^ 64) :
    (UInt64.ofNat (textCount lines) * sizeofSymbol).toNat = textCount lines * 264 := by
  have hsize : sizeofSymbol.toNat = 264 := rfl
  rw [UInt64.toNat_mul, UInt64.toNat_ofNat', hsize]
  omega

/-- The symbols are read into a block of their own. -/
theorem readTable_settles (hring : IsRing k.files.links k.files.files xs)
    (h : k.HasSymbols xs name (some lines)) (hshort : ∀ l ∈ lines, l.IsText → l.Short)
    (hb : Balanced t₀ ⟨t, held⟩)
    (hfits : FitsAlong ⟨t, held⟩ (.allocate (UInt64.ofNat (textCount lines) * sizeofSymbol) :: rs)) :
    ∃ b t' table, Settles (fun n => k.readTable n name true t) (table, t') ∧ table.address = b.pointer ∧
      b.pointer ≠ 0 ∧ Taken t₀ ⟨t, held⟩ (UInt64.ofNat (textCount lines) * sizeofSymbol) rs b t' := by
  obtain ⟨e, he, -, hfile, hsome, hlt⟩ := h
  have hamount : 1 ≤ UInt64.ofNat (textCount lines) * sizeofSymbol := by
    rw [UInt64.le_iff_toNat_le, toNat_symbolsSize hlt, UInt64.toNat_one]
    omega
  obtain ⟨b, t', hallocate, htaken, hlow⟩ := hb.allocate hamount hfits
  have hgetFile : Returns (fun n => k.files.getFile n name) (e.data, e.size) := ⟨_, getFile_eq hring he⟩
  refine ⟨b, t', ⟨b.pointer, symbolsOf lines, UInt64.ofNat (textCount lines)⟩, ?_, rfl, ?_, htaken⟩
  · refine Settles.bind (hgetFile.settles (steady_getFile _ _)) ?_
    refine Settles.bind (hfile.returns_countSymbols.settles (steady_countSymbols _ _)) ?_
    refine Settles.bind (hallocate.settles (steady_reserve _ _ _)) ?_
    have hread := hfile.returns_readSymbols_iff.2 ⟨hshort, rfl⟩
    exact Settles.bind (hread.settles (steady_readSymbols _ _)) (settles_some _)
  · rintro hzero
    rw [hzero] at hlow
    exact absurd hlow (by decide)

/-- A name that is too long: the second pass does not end. -/
theorem not_returns_readTable (hring : IsRing k.files.links k.files.files xs)
    (h : k.HasSymbols xs name (some lines)) (hlong : ¬ ∀ l ∈ lines, l.IsText → l.Short) {n : ℕ} :
    k.readTable n name true t = none := by
  obtain ⟨e, he, -, hfile, -, -⟩ := h
  have hgetFile : Returns (fun n => k.files.getFile n name) (e.data, e.size) := ⟨_, getFile_eq hring he⟩
  by_contra hne
  obtain ⟨r, hr⟩ := Option.ne_none_iff_exists'.1 hne
  simp only [readTable, if_true, parseSymbols, bind, Option.bind_eq_some_iff] at hr
  obtain ⟨file, hfile', amount, hcount, -, -, symbols, hread, -⟩ := hr
  obtain rfl := hgetFile.unique (steady_getFile _ _) ⟨n, hfile'⟩
  obtain rfl := hfile.returns_countSymbols.unique (steady_countSymbols _ _) ⟨n, hcount⟩
  exact hlong (hfile.returns_readSymbols_iff.1 ⟨n, hread⟩).1

/-- **The symbols of the new thread**: what is left is the block of the symbols, when there is one. -/
theorem loadSymbols_settles (hring : IsRing k.files.links k.files.files xs)
    {lines : Option (List SymbolLine)} (h : k.HasSymbols xs (symbolsName filename) lines)
    (hshort : ShortNames lines) (hlength : filename.bytes.length + 1 < 2 ^ 64)
    (hb : Balanced t₀ ⟨k.allocator, held⟩)
    (hfits : FitsAlong ⟨k.allocator, held⟩ (symbolRequests filename lines ++ rs)) :
    ∃ bs t' address count, SymbolBlocks address bs ∧
      Settles (fun n => k.loadSymbols n filename) ({ k with allocator := t' }.setSymbols address count) ∧
      Balanced t₀ ⟨t', bs ++ held⟩ ∧ FitsAlong ⟨t', bs ++ held⟩ rs := by
  have hamount : 1 ≤ nameLength filename + 1 := by
    rw [nameLength, stringLength_eq, UInt64.le_iff_toNat_le, UInt64.toNat_add, UInt64.toNat_ofNat',
      UInt64.toNat_one]
    omega
  have hcheck := checkFile_settles hring h
  cases lines with
  | none =>
    -- the name is allocated and given back, and nothing else is asked for
    obtain ⟨b, t₁, hallocate, htaken, -⟩ := hb.allocate hamount hfits
    obtain ⟨t₂, hfree, hb₂⟩ := htaken.balanced.release (List.Perm.refl _)
    have hstep : Returns (fun n => (Request.free 0).step n ⟨t₁, b :: held⟩) ⟨t₂, held⟩ :=
      hfree.imp fun n hn => by simp only [Request.step, List.getElem?_cons_zero, bind, Option.bind_some,
        hn, pure, List.eraseIdx_zero, List.tail_cons]
    refine ⟨[], t₂, 0, 0, Or.inl ⟨rfl, rfl⟩, ?_, hb₂, htaken.fits.next hstep⟩
    refine Settles.bind (hallocate.settles (steady_reserve _ _ _)) ?_
    refine Settles.bind hcheck ?_
    exact Settles.bind (settles_some _) (Settles.bind (hfree.settles (steady_unallocate _ _)) (settles_some _))
  | some lines =>
    obtain ⟨b, t₁, hallocate, htaken, -⟩ := hb.allocate hamount hfits
    obtain ⟨c, t₂, table, htable, haddress, hne, htaken'⟩ :=
      readTable_settles hring h (hshort lines rfl) htaken.balanced htaken.fits
    -- the name was allocated before the table and is freed after it
    obtain ⟨t₃, hfree, hb₃⟩ := htaken'.balanced.release (List.Perm.swap b c held)
    have hstep : Returns (fun n => (Request.free 1).step n ⟨t₂, c :: b :: held⟩) ⟨t₃, c :: held⟩ :=
      hfree.imp fun n hn => by simp only [Request.step, List.getElem?_cons_succ, List.getElem?_cons_zero,
        bind, Option.bind_some, hn, pure, List.eraseIdx_cons_succ, List.eraseIdx_zero, List.tail_cons]
    refine ⟨[c], t₃, table.address, table.count, Or.inr ⟨c, rfl, haddress.symm, haddress ▸ hne⟩, ?_, hb₃,
      htaken'.fits.next hstep⟩
    refine Settles.bind (hallocate.settles (steady_reserve _ _ _)) ?_
    refine Settles.bind hcheck ?_
    exact Settles.bind htable (Settles.bind (hfree.settles (steady_unallocate _ _)) (settles_some _))

end Symbols

/-! ### The tables and the thread -/

section Launch

variable {k : Execution} {data program size : UInt64} {t₀ : Allocator} {held : List Block}

theorem toNat_programPages (hsize : 1 ≤ size.toNat) :
    (programPages size).toNat = (size.toNat - 1) / 2 ^ 21 + 1 := by
  have hlt := size.toNat_lt
  have hpage : pageSize.toNat = 2 ^ 21 := rfl
  have hone : (size - 1).toNat = size.toNat - 1 := by
    rw [UInt64.toNat_sub_of_le, UInt64.toNat_one]
    rwa [UInt64.le_iff_toNat_le]
  rw [programPages, UInt64.toNat_add, UInt64.toNat_div, hone, hpage, UInt64.toNat_one]
  omega

/-- The size of the tables of a program. -/
theorem toNat_tableSize_program (hsize : 1 ≤ size.toNat) :
    (tableSize (programPages size)).toNat = (directoryCount (programPages size).toNat + 2) * 4096 := by
  have hlt := size.toNat_lt
  have hpages := toNat_programPages hsize
  exact toNat_tableSize (by omega) (by omega)

/-- The tables as `quit` reads them. -/
structure Mapped (m : Cells UInt64) (tables : Block) (program size : UInt64) : Prop where
  amount : tables.amount = tableSize (programPages size)
  aligned : 4096 ∣ tables.pointer.toNat
  sum : tables.pointer.toNat + (tableSize (programPages size)).toNat < 2 ^ 64
  first : First m (tables.pointer.toNat / 8) (firstEntry (tables.pointer.toNat / 8 + pageEntryCount) program
    (((programPages size).toNat - 1) / pageEntryCount))

/-- **The new thread**: it has the symbols of the current one, and the tables. -/
theorem launch_settles (hb : Balanced t₀ ⟨k.allocator, held⟩) (hsize : 1 ≤ size.toNat)
    (hfits : FitsAlong ⟨k.allocator, held⟩ (launchRequests size)) :
    ∃ tables record stack t' m', Mapped m' tables program size ∧
      (∀ c ∈ held, Clear tables.pointer (tableSize (programPages size)) c.record) ∧
      Settles (fun n => k.launch n data program size)
        (⟨record.pointer, stack.pointer, k.currentThread.symbols, k.currentThread.symbolCount,
          tables.pointer, entryPoint (k.contents data)⟩, { k with memory := m', allocator := t' }) ∧
      Balanced t₀ ⟨t', stack :: record :: tables :: held⟩ := by
  have hpages := toNat_programPages hsize
  have hamount : 1 ≤ tableSize (programPages size) := by
    rw [UInt64.le_iff_toNat_le, toNat_tableSize_program hsize, UInt64.toNat_one]
    omega
  obtain ⟨tables, t₁, hblock, htaken, haligned⟩ := hb.allocateAligned hamount hfits
  have haligned' : 4096 ∣ tables.pointer.toNat := haligned
  have haddress : toAddress (tables.pointer.toNat / 8) = tables.pointer := by
    rw [← UInt64.toNat_inj, toNat_toAddress_of_lt]
    · omega
    · have hlt := tables.pointer.toNat_lt
      omega
  obtain ⟨fuel, m', hbuild⟩ :=
    buildTable_total k.mainPdpt program (programPages size) (tables.pointer.toNat / 8) k.memory
  have htable : Settles (fun n => createTable n k.mainPdpt program (programPages size) k.memory k.allocator)
      (tables.pointer, m', t₁) := by
    refine Settles.bind (hblock.settles (steady_reserve _ _ _)) ?_
    have hreturns : Returns (fun n => buildTable n k.mainPdpt program (programPages size)
        (tables.pointer.toNat / 8) k.memory) m' := ⟨fuel, hbuild⟩
    have hsettles := hreturns.settles fun _ _ _ hmn h => buildTable_mono hmn h
    refine Settles.bind hsettles ?_
    rw [haddress]
    exact settles_some _
  obtain ⟨record, t₂, hrecord, htaken₂, -⟩ := htaken.balanced.allocate (by decide) htaken.fits
  obtain ⟨stack, t₃, hstack, htaken₃, -⟩ := htaken₂.balanced.allocateAligned (by decide) htaken₂.fits
  refine ⟨tables, record, stack, t₃, m', ⟨htaken.size, haligned', htaken.sum, ?_⟩, htaken.clear, ?_,
    htaken₃.balanced⟩
  · exact buildTable_first (by omega) hbuild
  · -- the new thread is created under the new tables, and its record takes them from CR3
    have hthread : Settles (fun n => ({ k with memory := m', allocator := t₁ }.setCr3
        tables.pointer).createThread n (entryPoint (k.contents data)))
        (⟨record.pointer, stack.pointer, k.currentThread.symbols, k.currentThread.symbolCount,
          tables.pointer, entryPoint (k.contents data)⟩,
          { k with memory := m', allocator := t₃ }.setCr3 tables.pointer) := by
      refine Settles.bind (hrecord.settles (steady_reserve _ _ _)) ?_
      exact Settles.bind (hstack.settles (steady_reserve _ _ _)) (settles_some _)
    exact Settles.bind htable (Settles.bind hthread (settles_some _))

end Launch

/-- The program stores nothing into the block of its tables. -/
def KeepsTables (size table : UInt64) (m m' : Cells UInt64) : Prop :=
  ∀ i, table.toNat ≤ 8 * i → 8 * i < table.toNat + (tableSize (programPages size)).toNat →
    m'.cell i = m.cell i

/-- What `execute` leaves: the blocks that the thread has to give back. -/
structure Started (t₀ : Allocator) (size : UInt64) (program tables record stack : Block) (bs : List Block)
    (thread : ThreadRecord) (k : Execution) : Prop where
  size_pos : 1 ≤ size.toNat
  mapped : Mapped k.memory tables program.pointer size
  dvd_program : 2 ^ 21 ∣ program.pointer.toNat
  sum : program.pointer.toNat + size.toNat < 2 ^ 64
  clear : Clear tables.pointer (tableSize (programPages size)) ⟨true, program.pointer, program.pointer + size⟩
  address : thread.address = record.pointer
  stackAt : thread.stack = stack.pointer
  symbols : SymbolBlocks thread.symbols bs
  cr3 : thread.cr3 = tables.pointer
  balanced : Balanced t₀ ⟨k.allocator, stack :: record :: tables :: (bs ++ [program])⟩
  noDead : k.deadThreads = []

/-! ### The end of the program -/

section Finish

variable {t₀ : Allocator} {size : UInt64} {program tables record stack : Block} {bs rest : List Block}
  {thread : ThreadRecord} {k k' : Execution} {m : Cells UInt64}

/-- **When `quit` finds the program.** -/
theorem Started.getAddress_iff (h : Started t₀ size program tables record stack bs thread k)
    (hkeeps : KeepsTables size thread.cr3 k.memory m) :
    getAddress m thread.cr3 processAddress = program.pointer ↔
      (programPages size).toNat ≤ pageEntryCount * pageEntryCount := by
  have hpages := toNat_programPages h.size_pos
  have htable := toNat_tableSize_program h.size_pos
  have hsum := h.mapped.sum
  have hsum' := h.sum
  have hsize := h.size_pos
  obtain ⟨q, hq⟩ := h.mapped.aligned
  have hpml4t : tables.pointer.toNat / 8 = 512 * q := by omega
  have hlow : 8 * (512 * q + (directoryCount (programPages size).toNat + 2) * pageEntryCount) ≤ 2 ^ 64 := by
    simp only [pageEntryCount]
    omega
  have haddress : toAddress (512 * q) = tables.pointer := by
    rw [← UInt64.toNat_inj, toNat_toAddress_of_lt (by omega)]
    omega
  have hfirst : First m (512 * q) (firstEntry (512 * q + pageEntryCount) program.pointer
      (((programPages size).toNat - 1) / pageEntryCount)) := by
    refine First.congr (hpml4t ▸ h.mapped.first) fun i hi hi' => hkeeps i ?_ ?_
    · rw [h.cr3]
      omega
    · rw [h.cr3, htable]
      simp only [pageEntryCount, directoryCount] at hi' ⊢
      omega
  -- the program has been allocated before the tables, so it does not begin inside them
  have hout : program.pointer.toNat < 8 * (512 * q) ∨
      8 * (512 * q + (directoryCount (programPages size).toNat + 2) * pageEntryCount) ≤
        program.pointer.toNat := by
    simp only [pageEntryCount]
    rcases h.clear with hbelow | habove
    · right
      rw [UInt64.le_iff_toNat_le, UInt64.toNat_add, Nat.mod_eq_of_lt hsum] at hbelow
      dsimp only at hbelow
      omega
    · left
      rw [UInt64.le_iff_toNat_le, UInt64.toNat_add, Nat.mod_eq_of_lt hsum'] at habove
      omega
  rw [h.cr3, ← haddress]
  exact getAddress_first_iff (by omega) h.dvd_program (by omega) ⟨q, rfl⟩ hlow hout hfirst

theorem freeSymbols_settles {t : Allocator} {address : UInt64} (hbs : SymbolBlocks address bs)
    (hb : Balanced t₀ ⟨t, bs ++ rest⟩) :
    ∃ t', Settles (fun n => freeSymbols n address t) t' ∧ Balanced t₀ ⟨t', rest⟩ := by
  rcases hbs with ⟨rfl, rfl⟩ | ⟨b, rfl, rfl, hne⟩
  · exact ⟨t, settles_some t, hb⟩
  · obtain ⟨t', hfree, hb'⟩ := hb.release (List.Perm.refl _)
    refine ⟨t', ?_, hb'⟩
    simp only [freeSymbols, if_pos hne]
    exact hfree.settles (steady_unallocate _ _)

/-- **Everything goes back** where `quit` finds the program. -/
theorem Started.finish_settles (h : Started t₀ size program tables record stack bs thread k)
    (hfound : getAddress m thread.cr3 processAddress = program.pointer) :
    ∃ k', Settles (fun n => k.finish n thread m) k' ∧ k'.allocator.records = t₀.records := by
  have hperm : (stack :: record :: tables :: (bs ++ [program])).Perm
      (program :: tables :: (bs ++ [record, stack])) := by
    rw [List.perm_iff_count]
    intro b
    simp only [List.count_cons, List.count_append, List.count_nil]
    omega
  -- `quit` frees the program, the tables and the symbols, and `cleaner` the stack and the record
  obtain ⟨t₁, hprogram, hb₁⟩ := h.balanced.release hperm
  obtain ⟨t₂, htables, hb₂⟩ := hb₁.release (List.Perm.refl _)
  obtain ⟨t₃, hsymbols, hb₃⟩ := freeSymbols_settles h.symbols hb₂
  obtain ⟨t₄, hstack, hb₄⟩ := hb₃.release (List.Perm.swap _ _ _)
  obtain ⟨t₅, hrecord, hb₅⟩ := hb₄.release (List.Perm.refl _)
  rw [← hfound] at hprogram
  rw [← h.cr3] at htables
  rw [← h.stackAt] at hstack
  rw [← h.address] at hrecord
  have hquit : Settles (fun n => ({ k with currentThread := thread, memory := m } : Execution).quit n)
      (exitThread { k with currentThread := thread, memory := m, allocator := t₃ }) := by
    refine Settles.bind (hprogram.settles (steady_unallocate _ _)) ?_
    refine Settles.bind (htables.settles (steady_unallocate _ _)) ?_
    exact Settles.bind hsymbols (settles_some _)
  have hdead : (exitThread { k with currentThread := thread, memory := m, allocator := t₃ }).deadThreads =
      [thread] := by
    rw [exitThread, h.noDead, List.nil_append]
  have hfree : Settles (fun n => freeDead n [thread] t₃) t₅ := by
    refine Settles.bind (hstack.settles (steady_unallocate _ _)) ?_
    exact Settles.bind (hrecord.settles (steady_unallocate _ _)) (settles_some _)
  rw [← hdead] at hfree
  exact ⟨_, Settles.bind hquit (Settles.bind hfree (settles_some _)), hb₅.settled⟩

/-- A record of another start stays. -/
theorem freeSymbols_keeps {t t' : Allocator} {address : UInt64} {a : Allocation} {i n : ℕ} (hi : i ∈ t.live)
    (ha : t.allocated i = a) (hne : address ≠ 0 → a.start ≠ address)
    (h : freeSymbols n address t = some t') : i ∈ t'.live ∧ t'.allocated i = a := by
  unfold freeSymbols at h
  split_ifs at h with hzero
  · exact unallocate_keeps hi ha (hne hzero) h
  · obtain rfl := Option.some.inj h
    exact ⟨hi, ha⟩

/-- **The program stays** where `quit` finds another address. -/
theorem Started.finish_keeps (h : Started t₀ size program tables record stack bs thread k) {n : ℕ}
    (hlost : getAddress m thread.cr3 processAddress ≠ program.pointer)
    (hfinish : k.finish n thread m = some k') : k'.allocator.records ≠ t₀.records := by
  have hperm : (stack :: record :: tables :: (bs ++ [program])).Perm
      (program :: stack :: record :: tables :: bs) := by
    rw [List.perm_iff_count]
    intro b
    simp only [List.count_cons, List.count_append, List.count_nil]
    omega
  have hother : ∀ c ∈ stack :: record :: tables :: bs, program.record.start ≠ c.pointer := fun c hc =>
    (h.balanced.pointer_ne hperm c hc).symm
  have hsymbols : thread.symbols ≠ 0 → program.record.start ≠ thread.symbols := by
    intro hne
    rcases h.symbols with ⟨hzero, -⟩ | ⟨b, rfl, hb, -⟩
    · exact absurd hzero hne
    · exact hb ▸ hother b (by simp)
  obtain ⟨hlive, hrecord⟩ := h.balanced.owned program (hperm.mem_iff.2 List.mem_cons_self)
  simp only [finish, quit, cleaner, exitThread, bind, pure, Option.bind_eq_some_iff, Option.some.injEq]
    at hfinish
  obtain ⟨-, ⟨t₁, hprogram, t₂, htables, t₃, hfree, rfl⟩, t₆, hdead, rfl⟩ := hfinish
  simp only [h.noDead, List.nil_append, freeDead, bind, Option.bind_eq_some_iff, Option.some.injEq] at hdead
  obtain ⟨t₄, hstack, t₅, hthread, rfl⟩ := hdead
  -- each of the five calls passes another address
  obtain ⟨hlive₁, hrecord₁⟩ := unallocate_keeps hlive hrecord hlost.symm hprogram
  obtain ⟨hlive₂, hrecord₂⟩ := unallocate_keeps hlive₁ hrecord₁ (h.cr3 ▸ hother tables (by simp)) htables
  obtain ⟨hlive₃, hrecord₃⟩ := freeSymbols_keeps hlive₂ hrecord₂ hsymbols hfree
  obtain ⟨hlive₄, hrecord₄⟩ :=
    unallocate_keeps hlive₃ hrecord₃ (h.stackAt ▸ hother stack (by simp)) hstack
  obtain ⟨hlive₅, hrecord₅⟩ :=
    unallocate_keeps hlive₄ hrecord₄ (h.address ▸ hother record (by simp)) hthread
  -- the record of the program is still there, and there was none like it before
  intro hrecords
  have hmem : t₅.allocated program.slot ∈ t₀.records := hrecords ▸ Multiset.mem_map_of_mem _ hlive₅
  rw [hrecord₅] at hmem
  exact h.balanced.start_ne (hperm.mem_iff.2 List.mem_cons_self) _ hmem rfl

end Finish

/-! ### The whole life of a program -/

/-- The size of the program in a file: all but the word in front of it. -/
def programSize (file : Entry) : UInt64 := file.size - Processes.sizeofEntry

/-- A file that can be executed, and a state in which no address that is computed on the way exceeds
`2 ^ 64 - 1`. The name ends in a dot and three characters. -/
structure Runnable (k : Execution) (xs : List UInt64) (filename : CString) (file : Entry)
    (lines : Option (List SymbolLine)) : Prop where
  counted : k.allocator.Counted
  nonEmpty : NonEmpty k.allocator
  ring : IsRing k.files.links k.files.files xs
  program : firstNamed (k.files.entries xs) filename = some file
  size : Processes.sizeofEntry < file.size
  extension : ∃ stem a b c, filename.bytes = stem ++ [46, a, b, c]
  length : filename.bytes.length + 1 < 2 ^ 64
  symbols : k.HasSymbols xs (symbolsName filename) lines
  noDead : k.deadThreads = []
  fits : FitsAlong ⟨k.allocator, []⟩ (requests filename (programSize file) lines)

/-- **Running a program is neutral.** `execute` returns with the calling thread as it was, and whatever
the program makes of the memory beside its tables, after `quit` and a pass of `cleaner` the live
allocations are the same. -/
def Neutral (k : Execution) (filename : CString) (size : UInt64) : Prop :=
  ∃ thread k', Returns (fun n => k.execute n filename) (thread, k') ∧ k'.currentThread = k.currentThread ∧
    ∀ m, KeepsTables size thread.cr3 k'.memory m →
      ∃ k'', Returns (fun n => k'.finish n thread m) k'' ∧ k''.allocator.records = k.allocator.records

section Neutral

variable {k : Execution} {xs : List UInt64} {filename : CString} {file : Entry}
  {lines : Option (List SymbolLine)}

theorem Runnable.size_pos (h : Runnable k xs filename file lines) : 1 ≤ (programSize file).toNat := by
  have hlt : (8 : UInt64).toNat < file.size.toNat := UInt64.lt_iff_toNat_lt.1 h.size
  have height : (8 : UInt64).toNat = 8 := rfl
  have hsub : (programSize file).toNat = file.size.toNat - (8 : UInt64).toNat :=
    UInt64.toNat_sub_of_le _ _ (UInt64.le_of_lt h.size)
  omega

theorem Runnable.getFile (h : Runnable k xs filename file lines) :
    Settles (fun n => k.files.getFile n filename) (file.data, file.size) :=
  Returns.settles (steady_getFile _ _) ⟨_, getFile_eq h.ring h.program⟩

/-- `execute` returns when the names fit. -/
theorem Runnable.execute_settles (h : Runnable k xs filename file lines) (hshort : ShortNames lines) :
    ∃ program tables record stack bs thread t' m',
      Settles (fun n => k.execute n filename) (thread, { k with memory := m', allocator := t' }) ∧
      Started k.allocator (programSize file) program tables record stack bs thread
        { k with memory := m', allocator := t' } := by
  have hsize := h.size_pos
  have hamount : 1 ≤ programSize file := UInt64.le_iff_toNat_le.2 hsize
  obtain ⟨program, t₁, hprogram, htaken, hdvd⟩ :=
    (balanced_start h.counted h.nonEmpty).allocateAligned hamount h.fits
  obtain ⟨bs, t₂, address, count, hbs, hload, hb₂, hfits₂⟩ :=
    @loadSymbols_settles { k with allocator := t₁ } _ _ _ _ _ h.ring _ h.symbols hshort h.length
      htaken.balanced htaken.fits
  obtain ⟨tables, record, stack, t₃, m', hmapped, hclear, hlaunch, hb₃⟩ :=
    @launch_settles (({ k with allocator := t₂ } : Execution).setSymbols address count) file.data
      program.pointer _ _ _ hb₂ hsize hfits₂
  refine ⟨program, tables, record, stack, bs, ⟨record.pointer, stack.pointer, address, count, tables.pointer,
    entryPoint (k.contents file.data)⟩, t₃, m', ?_, hsize, hmapped, hdvd, htaken.sum, ?_, rfl, rfl, hbs, rfl,
    hb₃, h.noDead⟩
  · refine Settles.bind h.getFile ?_
    refine Settles.bind (hprogram.settles (steady_reserve _ _ _)) ?_
    refine Settles.bind hload ?_
    exact Settles.bind hlaunch (settles_some _)
  · have hprogramClear := hclear program (List.mem_append_right _ (List.mem_singleton_self _))
    rwa [Block.record, htaken.size] at hprogramClear

/-- `execute` does not return when a name does not fit. -/
theorem Runnable.execute_none (h : Runnable k xs filename file lines) (hlong : ¬ ShortNames lines) (n : ℕ) :
    k.execute n filename = none := by
  obtain ⟨ls, hls, hlong'⟩ : ∃ ls ∈ lines, ¬ ∀ l ∈ ls, l.IsText → l.Short := by
    simpa [ShortNames] using hlong
  obtain rfl : lines = some ls := hls
  by_contra hne
  obtain ⟨r, hr⟩ := Option.ne_none_iff_exists'.1 hne
  simp only [execute, loadSymbols, bind, Option.bind_eq_some_iff] at hr
  obtain ⟨-, -, ⟨program, t₁⟩, -, k', ⟨⟨symbolsFile, t₂⟩, -, hasSymbols, hcheck, ⟨table, t₃⟩, hread, -⟩, -⟩ :=
    hr
  have hsettles := checkFile_settles h.ring h.symbols
  obtain rfl := hsettles.returns.unique (steady_checkFile _ _) ⟨n, hcheck⟩
  have hnone := @not_returns_readTable { k with allocator := t₁ } _ _ _ t₂ h.ring h.symbols hlong' n
  cases hnone.symm.trans hread

/-- **When running a program is neutral.** -/
theorem neutral_iff (h : Runnable k xs filename file lines) :
    Neutral k filename (programSize file) ↔
      (programPages (programSize file)).toNat ≤ pageEntryCount * pageEntryCount ∧ ShortNames lines := by
  constructor
  · rintro ⟨thread, k', hexecute, -, hfinish⟩
    have hshort : ShortNames lines := by
      by_contra hlong
      obtain ⟨n, hn⟩ := hexecute
      cases (h.execute_none hlong n).symm.trans hn
    refine ⟨?_, hshort⟩
    obtain ⟨program, tables, record, stack, bs, thread', t', m', hsettles, hstarted⟩ :=
      h.execute_settles hshort
    have heq := hsettles.returns.unique (steady_execute _ _) hexecute
    obtain ⟨rfl, rfl⟩ := Prod.mk.inj heq
    -- a program that stores nothing keeps its tables
    have hkeeps : KeepsTables (programSize file) thread'.cr3 m' m' := fun _ _ _ => rfl
    obtain ⟨k'', ⟨n, hn⟩, hrecords⟩ := hfinish m' hkeeps
    rw [← hstarted.getAddress_iff hkeeps]
    by_contra hlost
    exact hstarted.finish_keeps hlost hn hrecords
  · rintro ⟨hpages, hshort⟩
    obtain ⟨program, tables, record, stack, bs, thread, t', m', hsettles, hstarted⟩ :=
      h.execute_settles hshort
    refine ⟨thread, _, hsettles.returns, rfl, fun m hkeeps => ?_⟩
    obtain ⟨k'', hk'', hrecords⟩ := hstarted.finish_settles ((hstarted.getAddress_iff hkeeps).2 hpages)
    exact ⟨k'', hk''.returns, hrecords⟩

/-- `"/a.elf"`. -/
def elfName : CString := ⟨[slash, 97, 46, 101, 108, 102], by decide⟩

/-- A symbol with a name of `n` characters. -/
def symbolLine (n : ℕ) : SymbolLine where
  address := List.replicate 16 48
  type := 84
  name := List.replicate n 97
  length_address := List.length_replicate
  newline_address := by decide
  newline_type := by decide
  newline_name := by simp [newline]

/-- A program of 8 bytes, and a symbol file with one symbol of `n` characters. -/
def oneSymbol (n : ℕ) : Execution where
  files := ⟨0, ⟨fun a => if a = 0 then 1 else if a = 1 then 2 else 0,
    fun a => if a = 0 then 2 else if a = 1 then 0 else 1⟩,
    fun a => if a = 1 then ⟨3, 16, 5⟩ else ⟨4, UInt64.ofNat (20 + n), 6⟩,
    fun a => if a = 3 then elfName else symbolsName elfName⟩
  contents := fun data => if data = 5 then fun _ => 0 else fun i => (symbolLine n).bytes.getD i 0
  mainPdpt := 7
  allocator := initAllocator fun _ => ⟨false, 0, 0⟩
  memory := ⟨fun _ => 0, []⟩
  currentThread := ⟨0, 0, 0, 0, 0, 0⟩
  deadThreads := []

theorem runnable_oneSymbol {n : ℕ} (hn : 20 + n < 2 ^ 64) :
    Runnable (oneSymbol n) [1, 2] elfName ⟨elfName, 16, 5⟩ (some [symbolLine n]) where
  counted := counted_initAllocator _
  nonEmpty := fun i hi => absurd hi (Finset.notMem_empty i)
  ring := by
    constructor
    · simp [oneSymbol]
    · simp [oneSymbol, LinkRing.Linked]
  program := rfl
  size := by decide
  extension := ⟨[slash, 97], 101, 108, 102, rfl⟩
  length := by decide
  symbols := by
    have hdata : (6 : UInt64) ≠ 0 := by decide
    have hcount : textCount [symbolLine n] = 1 := rfl
    refine ⟨⟨symbolsName elfName, UInt64.ofNat (20 + n), 6⟩, rfl, hdata, ⟨?_, fun i hi => ?_⟩, hcount.ge, ?_⟩
    · rw [UInt64.toNat_ofNat', Nat.mod_eq_of_lt hn, List.flatMap_singleton, SymbolLine.length_bytes]
      simp [symbolLine]
    · have hi' : i < (symbolLine n).bytes.length := by simpa using hi
      simp [oneSymbol, List.getElem?_eq_getElem hi']
    · rw [hcount]
      decide
  noDead := rfl
  fits := by
    have hs := sound_start (counted_initAllocator fun _ => ⟨false, 0, 0⟩)
      fun i hi => absurd hi (Finset.notMem_empty i)
    have hends : (initAllocator fun _ => ⟨false, 0, 0⟩).EndsBy memoryStart.toNat :=
      ⟨le_rfl, fun i hi => absurd hi (Finset.notMem_empty i)⟩
    have hrequests : requests elfName (programSize ⟨elfName, 16, 5⟩) (some [symbolLine n]) =
        [.allocateAligned 8 pageSize, .allocate 7, .allocate 264, .free 1,
          .allocateAligned 0x3000 pageAlignment, .allocate 72, .allocateAligned 0x100000 16] := by
      have hsize : programSize ⟨elfName, 16, 5⟩ = 8 := by decide
      have hname : nameLength elfName + 1 = 7 := by decide
      have hcount : textCount [symbolLine n] = 1 := rfl
      have hsymbols : UInt64.ofNat 1 * sizeofSymbol = 264 := by decide
      have htables : tableSize (programPages 8) = 0x3000 := by decide
      simp only [requests, symbolRequests, launchRequests, hsize, hname, hcount, hsymbols, htables]
      rfl
    rw [hrequests]
    exact fitsAlong_of_room hs hends (by decide) (by decide)

/-- A name of one character. -/
theorem neutral_oneSymbol : Neutral (oneSymbol 1) elfName 8 :=
  (neutral_iff (runnable_oneSymbol (by decide))).2 ⟨by decide, by simp [ShortNames, SymbolLine.Short, symbolLine]⟩

/-- A name of 256 characters: `execute` does not return. -/
theorem execute_long_name :
    Runnable (oneSymbol 256) [1, 2] elfName ⟨elfName, 16, 5⟩ (some [symbolLine 256]) ∧
      (∀ n, (oneSymbol 256).execute n elfName = none) ∧ ¬ Neutral (oneSymbol 256) elfName 8 := by
  have h : Runnable (oneSymbol 256) [1, 2] elfName ⟨elfName, 16, 5⟩ (some [symbolLine 256]) :=
    runnable_oneSymbol (by decide)
  have hlong : ¬ ShortNames (some [symbolLine 256]) := fun hshort => by
    have hle : (symbolLine 256).name.length ≤ 255 :=
      hshort _ rfl _ (List.mem_singleton_self _) rfl
    have hlength : (symbolLine 256).name.length = 256 := List.length_replicate
    omega
  refine ⟨h, h.execute_none hlong, ?_⟩
  rintro ⟨thread, k', ⟨n, hn⟩, -⟩
  cases (h.execute_none hlong n).symm.trans hn

end Neutral

end Execution

end Naul
