import Naul.Boot.Madt
import Naul.Interrupts
import Naul.Lib.Fuel

/-!
# From the tables of the firmware to the handlers (`os/src/bootloader.c`)

`efi_main` goes over the tables that the XSDT lists and keeps what it needs of them in `information`; the
drivers then install and unmask with the redirections that were found. `returns_findTables` says what is
kept, and `devices_routed` at which pins the devices of the kernel arrive.
-/

namespace Naul

open Fuel

/-! ### The search -/

/-- The parts of `information` that come from tables. -/
structure Information where
  hpetAddress : UInt64
  fadtAddress : UInt64
  ioapicAddress : UInt64
  ioapicRedirects : UInt8 → UInt32

/-- `*(uint64_t*)(table + p)`. -/
def loadQuad (table : ℕ → UInt8) (p : ℕ) : UInt64 :=
  .ofNat (LittleEndian.value ((List.range' p 8).map table))

/-- The signature of a table. -/
def signature (table : ℕ → UInt8) : List UInt8 := (List.range 4).map table

/-- `"HPET"`. -/
def hpetSignature : List UInt8 := [72, 80, 69, 84]

/-- `"BGRT"`. -/
def bgrtSignature : List UInt8 := [66, 71, 82, 84]

/-- `"FACP"`. -/
def facpSignature : List UInt8 := [70, 65, 67, 80]

/-- `"APIC"`. -/
def apicSignature : List UInt8 := [65, 80, 73, 67]

/-- What is done with a table; the boot logo of "BGRT" is `drawSplash`. -/
def takeTable (memory : UInt64 → UInt8) (a : UInt64) (i : Information) (fuel : ℕ) : Option Information :=
  let table := tableAt memory a
  if signature table = hpetSignature then some { i with hpetAddress := loadQuad table 44 }
  else if signature table = bgrtSignature then some i
  else if signature table = facpSignature then some { i with fadtAddress := a }
  else if signature table = apicSignature then
    (MadtWalk.walk fuel table i.ioapicAddress i.ioapicRedirects).map fun s =>
      { i with ioapicAddress := s.ioapicAddress, ioapicRedirects := s.ioapicRedirects }
  else some i

/-- The variables of the loop over the entries. -/
structure TableSearch where
  table : UInt32
  information : Information

/-- `(xsdt->header.length - sizeof(AcpiSdtHeader)) / sizeof(AcpiSdtHeader*)`. -/
def xsdtEntryCount (memory : UInt64 → UInt8) (xsdt : UInt64) : UInt64 :=
  ((tableLength (tableAt memory xsdt)).toUInt64 - 36) / 8

/-- `xsdt->entries[table]`. -/
def xsdtEntry (memory : UInt64 → UInt8) (xsdt : UInt64) (table : UInt32) : UInt64 :=
  loadQuad (tableAt memory xsdt) (36 + 8 * table.toNat)

def searchBody (memory : UInt64 → UInt8) (xsdt : UInt64) (fuel : ℕ) (s : TableSearch) :
    Option (TableSearch ⊕ Information) :=
  if s.table.toUInt64 < xsdtEntryCount memory xsdt then
    (takeTable memory (xsdtEntry memory xsdt s.table) s.information fuel).map fun i => .inl ⟨s.table + 1, i⟩
  else some (.inr s.information)

/-- The search of `efi_main`, over the configuration tables of the firmware: identifiers and addresses. -/
def findTables (acpi20 : List UInt8) (configuration : List (List UInt8 × UInt64))
    (memory : UInt64 → UInt8) (fuel : ℕ) : Option Information :=
  match configuration.find? fun c => c.1 = acpi20 with
  | some c => loop (searchBody memory (loadQuad (tableAt memory c.2) 24)) fuel ⟨0, ⟨0, 0, 0, fun _ => 0⟩⟩
  | none => some ⟨0, 0, 0, fun _ => 0⟩

/-! ### What is found -/

/-- The last table with a signature. -/
def lastTable (memory : UInt64 → UInt8) (name : List UInt8) (es : List UInt64) : Option UInt64 :=
  es.reverse.find? fun a => signature (tableAt memory a) = name

/-- An XSDT with these entries is at the address. -/
structure XsdtAt (memory : UInt64 → UInt8) (xsdt : UInt64) (es : List UInt64) : Prop where
  length : (tableLength (tableAt memory xsdt)).toNat = 36 + 8 * es.length
  entries : ∀ n a, es[n]? = some a → loadQuad (tableAt memory xsdt) (36 + 8 * n) = a

/-- `records` has the records of the tables of interrupt controllers. -/
def Recorded (memory : UInt64 → UInt8) (es : List UInt64) (records : UInt64 → List ℕ) : Prop :=
  ∀ a ∈ es, signature (tableAt memory a) = apicSignature →
    MadtWalk.Fills (tableAt memory a) 44 (records a)

/-- What a table adds. -/
def addTable (memory : UInt64 → UInt8) (records : UInt64 → List ℕ) (i : Information) (a : UInt64) :
    Information :=
  let table := tableAt memory a
  if signature table = hpetSignature then { i with hpetAddress := loadQuad table 44 }
  else if signature table = bgrtSignature then i
  else if signature table = facpSignature then { i with fadtAddress := a }
  else if signature table = apicSignature then
    { i with
      ioapicAddress := MadtWalk.address table (records a) i.ioapicAddress
      ioapicRedirects := MadtWalk.redirect table (records a) }
  else i

section Search

variable {memory : UInt64 → UInt8} {xsdt a : UInt64} {es : List UInt64} {records : UInt64 → List ℕ}

theorem steady_takeTable (memory : UInt64 → UInt8) (a : UInt64) (i : Information) :
    Steady (takeTable memory a i) :=
  steady_ite (steady_some _) (steady_ite (steady_some _) (steady_ite (steady_some _)
    (steady_ite (steady_map (steady_run _ _) _) (steady_some _))))

theorem steady_searchBody (memory : UInt64 → UInt8) (xsdt : UInt64) (s : TableSearch) :
    Steady fun n => searchBody memory xsdt n s :=
  steady_ite (steady_map (steady_takeTable ..) _) (steady_some _)

theorem returns_walk {table : ℕ → UInt8} {os : List ℕ} (h : MadtWalk.Fills table 44 os)
    (ioapicAddress : UInt64) (ioapicRedirects : UInt8 → UInt32) :
    ∃ s, Returns (fun n => MadtWalk.walk n table ioapicAddress ioapicRedirects) s ∧
      s.ioapicAddress = MadtWalk.address table os ioapicAddress ∧
      s.ioapicRedirects = MadtWalk.redirect table os := by
  obtain ⟨s, hrun, hvariables, -⟩ :=
    MadtWalk.run_of_fills (s := ⟨44, ioapicAddress, MadtWalk.mapLinear ioapicRedirects, []⟩) h rfl
  rw [MadtWalk.mapLinear_eq, MadtWalk.foldl_apply] at hvariables
  exact ⟨s, ⟨_, hrun⟩, congrArg Prod.fst hvariables, congrArg Prod.snd hvariables⟩

theorem returns_takeTable
    (h : signature (tableAt memory a) = apicSignature → MadtWalk.Fills (tableAt memory a) 44 (records a))
    (i : Information) : Returns (takeTable memory a i) (addTable memory records i a) := by
  unfold takeTable addTable
  dsimp only
  split_ifs with h1 h2 h3 h4
  · exact ⟨0, rfl⟩
  · exact ⟨0, rfl⟩
  · exact ⟨0, rfl⟩
  · obtain ⟨s, ⟨n, hn⟩, haddress, hredirects⟩ := returns_walk (h h4) i.ioapicAddress i.ioapicRedirects
    refine ⟨n, (congrArg (Option.map _) hn).trans ?_⟩
    rw [Option.map_some, haddress, hredirects]
  · exact ⟨0, rfl⟩

theorem XsdtAt.toNat_entryCount (h : XsdtAt memory xsdt es) : (xsdtEntryCount memory xsdt).toNat = es.length := by
  have hlength : ((tableLength (tableAt memory xsdt)).toUInt64 - 36).toNat = 8 * es.length := by
    rw [UInt64.toNat_sub_of_le _ _ (by
      rw [UInt64.le_iff_toNat_le, UInt32.toNat_toUInt64, h.length, show (36 : UInt64).toNat = 36 from rfl]
      omega), UInt32.toNat_toUInt64, h.length, show (36 : UInt64).toNat = 36 from rfl]
    omega
  rw [xsdtEntryCount, UInt64.toNat_div, hlength, show (8 : UInt64).toNat = 8 from rfl]
  omega

theorem XsdtAt.toNat_index {pre post : List UInt64} (h : XsdtAt memory xsdt (pre ++ post)) :
    (UInt32.ofNat pre.length).toNat = pre.length := by
  have hlt := (tableLength (tableAt memory xsdt)).toNat_lt
  rw [h.length, List.length_append] at hlt
  rw [UInt32.toNat_ofNat']
  omega

theorem XsdtAt.index_lt_iff {pre post : List UInt64} (h : XsdtAt memory xsdt (pre ++ post)) :
    (UInt32.ofNat pre.length).toUInt64 < xsdtEntryCount memory xsdt ↔ post ≠ [] := by
  rw [UInt64.lt_iff_toNat_lt, UInt32.toNat_toUInt64, h.toNat_index, h.toNat_entryCount, List.length_append,
    ← List.length_pos_iff]
  omega

/-- The loop from an entry on. -/
theorem returns_search {pre post : List UInt64} (h : XsdtAt memory xsdt (pre ++ post))
    (hrecorded : Recorded memory post records) (i : Information) :
    Returns (fun n => loop (searchBody memory xsdt) n ⟨.ofNat pre.length, i⟩)
      (post.foldl (addTable memory records) i) := by
  induction post generalizing pre i with
  | nil => exact returns_loop_inr ⟨0, if_neg (h.index_lt_iff.not.2 (not_not.2 rfl))⟩
  | cons a post ih =>
    have hentry : xsdtEntry memory xsdt (.ofNat pre.length) = a := by
      rw [xsdtEntry, h.toNat_index]
      exact h.entries pre.length a (by rw [List.getElem?_append_right le_rfl, Nat.sub_self]; rfl)
    have hturn : Returns (fun n => searchBody memory xsdt n ⟨.ofNat pre.length, i⟩)
        (.inl ⟨.ofNat (pre ++ [a]).length, addTable memory records i a⟩) := by
      obtain ⟨n, hn⟩ := returns_takeTable (hrecorded a List.mem_cons_self) i
      refine ⟨n, (if_pos (h.index_lt_iff.2 (List.cons_ne_nil a post))).trans ?_⟩
      dsimp only
      rw [hentry, hn, List.length_append, UInt32.ofNat_add]
      rfl
    rw [returns_loop_inl (steady_searchBody memory xsdt) hturn, List.foldl_cons]
    rw [List.append_cons] at h
    exact ih h (fun b hb => hrecorded b (List.mem_cons_of_mem _ hb)) _

theorem lastTable_append (memory : UInt64 → UInt8) (name : List UInt8) (es : List UInt64) (a : UInt64) :
    lastTable memory name (es ++ [a]) =
      if signature (tableAt memory a) = name then some a else lastTable memory name es := by
  rw [lastTable, List.reverse_append, List.reverse_singleton, List.singleton_append]
  by_cases h : signature (tableAt memory a) = name
  · rw [List.find?_cons_of_pos (by simpa using h), if_pos h]
  · rw [List.find?_cons_of_neg (by simpa using h), if_neg h, ← lastTable]

/-- A table changes the variables of its own signature. -/
theorem addTable_eq (memory : UInt64 → UInt8) (records : UInt64 → List ℕ) (i : Information) (a : UInt64) :
    (addTable memory records i a).hpetAddress =
        (if signature (tableAt memory a) = hpetSignature then loadQuad (tableAt memory a) 44 else i.hpetAddress) ∧
      (addTable memory records i a).fadtAddress =
        (if signature (tableAt memory a) = facpSignature then a else i.fadtAddress) ∧
      (addTable memory records i a).ioapicRedirects =
        (if signature (tableAt memory a) = apicSignature then
          MadtWalk.redirect (tableAt memory a) (records a) else i.ioapicRedirects) := by
  unfold addTable
  dsimp only
  generalize signature (tableAt memory a) = name
  have hne : hpetSignature ≠ facpSignature ∧ hpetSignature ≠ apicSignature ∧ bgrtSignature ≠ hpetSignature ∧
      bgrtSignature ≠ facpSignature ∧ bgrtSignature ≠ apicSignature ∧ facpSignature ≠ apicSignature := by decide
  obtain ⟨hhf, hha, hbh, hbf, hba, hfa⟩ := hne
  by_cases h1 : name = hpetSignature
  · simp [h1, hhf, hha]
  by_cases h2 : name = bgrtSignature
  · simp [h2, hbh, hbf, hba]
  by_cases h3 : name = facpSignature
  · simp [h3, hhf.symm, hbf.symm, hfa]
  by_cases h4 : name = apicSignature
  · simp [h4, hha.symm, hba.symm, hfa.symm]
  · simp [h1, h2, h3, h4]

/-- What is kept is that of the last table of each kind. -/
theorem foldl_addTable (memory : UInt64 → UInt8) (records : UInt64 → List ℕ) (i : Information)
    (es : List UInt64) :
    (es.foldl (addTable memory records) i).hpetAddress =
        ((lastTable memory hpetSignature es).map fun a => loadQuad (tableAt memory a) 44).getD i.hpetAddress ∧
      (es.foldl (addTable memory records) i).fadtAddress =
        (lastTable memory facpSignature es).getD i.fadtAddress ∧
      (es.foldl (addTable memory records) i).ioapicRedirects =
        ((lastTable memory apicSignature es).map fun a =>
          MadtWalk.redirect (tableAt memory a) (records a)).getD i.ioapicRedirects := by
  induction es using List.reverseRecOn with
  | nil => exact ⟨rfl, rfl, rfl⟩
  | append_singleton es a ih =>
    obtain ⟨hhpet, hfadt, hredirects⟩ := addTable_eq memory records (es.foldl (addTable memory records) i) a
    rw [List.foldl_append, List.foldl_cons, List.foldl_nil, hhpet, hfadt, hredirects, ih.1, ih.2.1, ih.2.2,
      lastTable_append, lastTable_append, lastTable_append]
    refine ⟨?_, ?_, ?_⟩
    all_goals split_ifs <;> rfl

/-- **What `efi_main` keeps of the tables.** -/
theorem returns_findTables {acpi20 : List UInt8} {configuration : List (List UInt8 × UInt64)}
    {c : List UInt8 × UInt64} (hc : configuration.find? (fun c => c.1 = acpi20) = some c)
    (h : XsdtAt memory (loadQuad (tableAt memory c.2) 24) es) (hrecorded : Recorded memory es records) :
    Returns (findTables acpi20 configuration memory)
      (es.foldl (addTable memory records) ⟨0, 0, 0, fun _ => 0⟩) := by
  unfold findTables
  rw [hc]
  exact @returns_search memory _ records [] es h hrecorded _

end Search

/-! ### The devices -/

/-- An interrupt of a device, at its handler. -/
def deviceArrival (w : Wiring) (interrupt : UInt8) (handler : UInt64) : Arrival :=
  ⟨w.idRegister.toNat / 2 ^ 24, deviceRedirection w interrupt, some (kernelGate idtInterruptGate handler)⟩

/-- The pins of the timer, the keyboard and the mouse. -/
structure Wiring.Distinct (w : Wiring) : Prop where
  hpet : (w.ioapicRedirects 2).toNat < 120
  keyboard : (w.ioapicRedirects 1).toNat < 120
  mouse : (w.ioapicRedirects 12).toNat < 120
  hpet_keyboard : w.ioapicRedirects 2 ≠ w.ioapicRedirects 1
  hpet_mouse : w.ioapicRedirects 2 ≠ w.ioapicRedirects 12
  keyboard_mouse : w.ioapicRedirects 1 ≠ w.ioapicRedirects 12

/-- Where the interrupts of the kernel arrive; those of the mouse only where there is a second port. -/
def Handlers.arrival (h : Handlers) (w : Wiring) (config : UInt8) (pin : ℕ) : Option Arrival :=
  if secondPort config ∧ pin = (w.ioapicRedirects 12).toNat then some (deviceArrival w 12 h.mouseInterrupt)
  else if pin = (w.ioapicRedirects 1).toNat then some (deviceArrival w 1 h.keyboardInterrupt)
  else if pin = (w.ioapicRedirects 2).toNat then some (deviceArrival w 2 h.hpetInterrupt)
  else none

theorem Handlers.setup_proper (h : Handlers) (config : UInt8) {w : Wiring} (hw : w.Distinct) :
    ∀ c ∈ h.setup config, c.Proper w := by
  have h2 : (2 : UInt8) < 224 ∧ (1 : UInt8) < 224 ∧ (12 : UInt8) < 224 := by decide
  have hmouse : ∀ c ∈ h.initMouse config, c.Proper w := by
    unfold Handlers.initMouse
    split_ifs
    · simp only [List.forall_mem_cons, Setup.Proper]
      exact ⟨h2.2.2, ⟨h2.2.2, hw.mouse⟩, List.forall_mem_nil _⟩
    · exact List.forall_mem_nil _
  simp only [Handlers.setup, List.cons_append, List.nil_append, List.forall_mem_cons, Setup.Proper]
  exact ⟨trivial, h2.1, ⟨h2.1, hw.hpet⟩, trivial, trivial, h2.2.1, ⟨h2.2.1, hw.keyboard⟩, hmouse⟩

/-- A device is installed and unmasked whose interrupt is unmasked nowhere else. -/
theorem Routes.signal_device (w : Wiring) (r : Routes) (interrupt : UInt8) (handler : UInt64) {pin : ℕ}
    (hr : r.unmasked pin ≠ some interrupt) :
    (r.run w [.installIrq interrupt handler, .unmaskIoapic interrupt]).signal w pin =
      if pin = (w.ioapicRedirects interrupt).toNat then some (deviceArrival w interrupt handler)
      else r.signal w pin := by
  have hunmasked : (r.run w [.installIrq interrupt handler, .unmaskIoapic interrupt]).unmasked pin =
      if pin = (w.ioapicRedirects interrupt).toNat then some interrupt else r.unmasked pin :=
    Function.update_apply ..
  have hinstalled : (r.run w [.installIrq interrupt handler, .unmaskIoapic interrupt]).installed =
      Function.update r.installed (interrupt + ioapicOffset) (some (idtInterruptGate, handler)) := rfl
  rw [Routes.signal, hunmasked]
  split_ifs with hpin
  · rw [Option.map_some, Routes.gate, hinstalled, Function.update_self, deviceArrival]
  · -- the interrupt of the pin is another one, and so is its gate
    rw [Routes.signal]
    refine Option.map_congr fun other hother => ?_
    have hne : other + ioapicOffset ≠ interrupt + ioapicOffset := fun heq =>
      hr ((UInt8.add_left_inj _).1 heq ▸ hother)
    rw [Routes.gate, hinstalled, Function.update_of_ne hne, Routes.gate]

/-- The routes after the calls of the kernel. -/
theorem signal_setup (h : Handlers) (config : UInt8) (w : Wiring) {r : Routes}
    (hr : r.unmasked = fun _ => none) (pin : ℕ) :
    (r.run w (h.setup config)).signal w pin = h.arrival w config pin := by
  rw [Handlers.setup, Routes.run, List.foldl_append]
  change (Routes.run w (r.run w _) (h.initMouse config)).signal w pin = _
  generalize hkeyboard : r.run w _ = r'
  have hunmasked : r'.unmasked pin = if pin = (w.ioapicRedirects 1).toNat then some 1
      else if pin = (w.ioapicRedirects 2).toNat then some 2 else none := by
    subst hkeyboard
    change Function.update (Function.update r.unmasked _ (some 2)) _ (some 1) pin = _
    rw [hr]
    simp only [Function.update_apply]
  have hgate : r'.gate (2 + ioapicOffset) = kernelGate idtInterruptGate h.hpetInterrupt ∧
      r'.gate (1 + ioapicOffset) = kernelGate idtInterruptGate h.keyboardInterrupt := by
    subst hkeyboard
    exact ⟨rfl, rfl⟩
  have hsignal : r'.signal w pin =
      if pin = (w.ioapicRedirects 1).toNat then some (deviceArrival w 1 h.keyboardInterrupt)
      else if pin = (w.ioapicRedirects 2).toNat then some (deviceArrival w 2 h.hpetInterrupt) else none := by
    rw [Routes.signal, hunmasked]
    split_ifs
    · rw [Option.map_some, hgate.2, deviceArrival]
    · rw [Option.map_some, hgate.1, deviceArrival]
    · rfl
  have hmouse : r'.unmasked pin ≠ some 12 := by
    rw [hunmasked]
    split_ifs <;> decide
  rw [Handlers.initMouse, Handlers.arrival]
  cases secondPort config with
  | true =>
    rw [if_pos rfl, Routes.signal_device w r' 12 h.mouseInterrupt hmouse, hsignal]
    simp only [true_and]
  | false =>
    rw [if_neg Bool.false_ne_true, if_neg fun hand => Bool.false_ne_true hand.1]
    exact hsignal

/-- **The devices of the kernel arrive at its handlers**, at the pins that the firmware has named for
them, the mouse where there is a second port, and no other pin is heard. -/
theorem devices_routed {memory : UInt64 → UInt8} {acpi20 : List UInt8}
    {configuration : List (List UInt8 × UInt64)} {c : List UInt8 × UInt64} {es : List UInt64} {a : UInt64}
    {records : UInt64 → List ℕ} (hc : configuration.find? (fun c => c.1 = acpi20) = some c)
    (hxsdt : XsdtAt memory (loadQuad (tableAt memory c.2) 24) es) (hrecorded : Recorded memory es records)
    (ha : lastTable memory apicSignature es = some a) {idRegister : UInt32}
    (hdistinct : Wiring.Distinct ⟨MadtWalk.redirect (tableAt memory a) (records a), idRegister⟩)
    {t : Tables} (ht : t.Fresh) (exception : UInt64) (decSize : UInt8) (h : Handlers) (config : UInt8) :
    ∃ i, Returns (findTables acpi20 configuration memory) i ∧ ∀ pin < 120,
      (t.run ⟨i.ioapicRedirects, idRegister⟩ (initIdt exception decSize ++ h.setup config)).signal pin =
        h.arrival ⟨MadtWalk.redirect (tableAt memory a) (records a), idRegister⟩ config pin := by
  refine ⟨_, returns_findTables hc hxsdt hrecorded, fun pin hpin => ?_⟩
  rw [(foldl_addTable memory records _ es).2.2, ha, Option.map_some, Option.getD_some]
  generalize Wiring.mk _ idRegister = w at hdistinct ⊢
  rw [(ht.encodes_run exception decSize (h.setup_proper config hdistinct)).signal hpin, Routes.run,
    List.foldl_append]
  exact signal_setup h config w (Routes.unmasked_initIdt w exception decSize) pin

/-- An XSDT at 0x200 with one table at 0x300, which redirects source 1 to line 21. -/
def oneOverride (a : UInt64) : UInt8 :=
  if a = 0x119 then 2
  else if a = 0x204 then 44
  else if a = 0x225 then 3
  else if a = 0x300 then 65
  else if a = 0x301 then 80
  else if a = 0x302 then 73
  else if a = 0x303 then 67
  else if a = 0x304 then 54
  else if a = 0x32C then 2
  else if a = 0x32D then 10
  else if a = 0x32F then 1
  else if a = 0x330 then 21
  else 0

/-- The keyboard arrives at pin 21. -/
theorem devices_routed_override :
    ∃ i, Returns (findTables [1] [([1], 0x100)] oneOverride) i ∧
      (Tables.reset.run ⟨i.ioapicRedirects, 0⟩
        (initIdt 0x1000 6 ++ Handlers.setup ⟨1, 2, 3, 4, 5, 6⟩ 0x47)).signal 21 =
        some (deviceArrival ⟨MadtWalk.redirect (tableAt oneOverride 0x300) [44], 0⟩ 1 5) := by
  have hlength : (tableLength (tableAt oneOverride 0x300)).toNat = 44 + 10 := by decide
  have hfills : MadtWalk.Fills (tableAt oneOverride 0x300) 44 [44] := by
    refine .record (by decide) ?_
    rw [show 44 + (tableAt oneOverride 0x300 (44 + 1)).toNat =
      (tableLength (tableAt oneOverride 0x300)).toNat by decide]
    exact .done
  have hxsdt : XsdtAt oneOverride (loadQuad (tableAt oneOverride 0x100) 24) [0x300] := by
    refine ⟨by decide, fun n a hn => ?_⟩
    cases n with
    | zero =>
      cases hn
      decide
    | succ n => cases hn
  obtain ⟨i, hi, hsignal⟩ := @devices_routed oneOverride [1] [([1], 0x100)] ([1], 0x100) [0x300] 0x300
    (fun _ => [44]) (by decide) hxsdt (fun a ha _ => by rwa [List.mem_singleton.1 ha]) (by decide) 0
    ⟨by decide, by decide, by decide, by decide, by decide, by decide⟩ Tables.reset Tables.fresh_reset 0x1000 6
    ⟨1, 2, 3, 4, 5, 6⟩ 0x47
  exact ⟨i, hi, (hsignal 21 (by decide)).trans (by rfl)⟩

end Naul
