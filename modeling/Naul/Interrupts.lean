import Naul.Lib.Bits
import Naul.Lib.LittleEndian

/-!
# Gates and redirections (`os/src/idt.c`, `os/src/ioapic.c`)

`installIsr` writes an entry of `idt`, which the processor reads as 16 bytes; `unmaskIoapic` writes the two
registers of a pin of the interrupt controller through its window. `IdtEntry.gate` and `Ioapic.redirection`
are what the processor and the controller make of these numbers.

`Routes` forgets how the tables are encoded: it has the last gate that was installed for a vector, and the
interrupt that was last unmasked on a pin. `Tables.Encodes` relates the two, and `interrupts_routed` says
of any sequence of calls where a signal at a pin arrives.
-/

namespace Naul

/-! ### Gates -/

/-- An element of `idt`. -/
structure IdtEntry where
  lower : UInt16
  selector : UInt16
  ist : UInt8
  attributes : UInt8
  middle : UInt16
  higher : UInt32
  zero : UInt32

/-- `#define KERNEL_CODE_SEGMENT 0x8`. -/
def kernelCodeSegment : UInt16 := 0x8

/-- `#define IDT_PRESENT 0x80`. -/
def idtPresent : UInt8 := 0x80

/-- `#define IDT_INTERRUPT_GATE 0xE`. -/
def idtInterruptGate : UInt8 := 0xE

/-- `#define IDT_TRAP_GATE 0xF`. -/
def idtTrapGate : UInt8 := 0xF

/-- `#define IOAPIC_OFFSET 0x20`. -/
def ioapicOffset : UInt8 := 0x20

/-- `installIsr(interrupt, attributes, handler)`. -/
def installIsr (interrupt attributes : UInt8) (handler : UInt64) (idt : UInt8 → IdtEntry) :
    UInt8 → IdtEntry :=
  Function.update idt interrupt
    { lower := handler.toUInt16
      selector := kernelCodeSegment
      ist := 0
      attributes := attributes ||| idtPresent
      middle := (handler >>> 16).toUInt16
      higher := (handler >>> 32).toUInt32
      zero := 0 }

/-- `installIrq(interrupt, handler)`. -/
def installIrq (interrupt : UInt8) (handler : UInt64) (idt : UInt8 → IdtEntry) : UInt8 → IdtEntry :=
  installIsr (interrupt + ioapicOffset) idtInterruptGate handler idt

/-- The bytes of an element, which is packed. -/
def IdtEntry.bytes (e : IdtEntry) : List UInt8 :=
  LittleEndian.bytes 2 e.lower.toNat ++ (LittleEndian.bytes 2 e.selector.toNat ++
    ([e.ist] ++ ([e.attributes] ++ (LittleEndian.bytes 2 e.middle.toNat ++
      (LittleEndian.bytes 4 e.higher.toNat ++ LittleEndian.bytes 4 e.zero.toNat)))))

/-- A gate as the processor reads it. -/
@[ext] structure Gate where
  offset : UInt64
  selector : ℕ
  stack : ℕ
  type : ℕ
  privilege : ℕ
  present : Bool

/-- The fields of the 128-bit number that the processor reads. -/
def decodeGate (d : ℕ) : Gate where
  offset := .ofNat (d % 2 ^ 16 + d / 2 ^ 48 % 2 ^ 16 * 2 ^ 16 + d / 2 ^ 64 % 2 ^ 32 * 2 ^ 32)
  selector := d / 2 ^ 16 % 2 ^ 16
  stack := d / 2 ^ 32 % 8
  type := d / 2 ^ 40 % 16
  privilege := d / 2 ^ 45 % 4
  present := d / 2 ^ 47 % 2 = 1

def IdtEntry.gate (e : IdtEntry) : Gate := decodeGate (LittleEndian.value e.bytes)

/-- The byte of the table at `idtr.base + n`. -/
def idtByte (idt : UInt8 → IdtEntry) (n : ℕ) : UInt8 := (idt (.ofNat (n / 16))).bytes.getD (n % 16) 0

/-- `idtr.length`. -/
def idtLength : ℕ := 16 * 256 - 1

/-- The gate for a vector, unless it is beyond the limit of the table. -/
def gateOf (idt : UInt8 → IdtEntry) (vector : UInt8) : Option Gate :=
  if 16 * vector.toNat + 15 ≤ idtLength then
    some (decodeGate (LittleEndian.value ((List.range 16).map fun k => idtByte idt (16 * vector.toNat + k))))
  else none

/-! ### The controller -/

/-- The interrupt controller: the register that is selected, and the registers. -/
structure Ioapic where
  selected : UInt8
  registers : UInt8 → UInt32

/-- A 32-bit store at `information.ioapicAddress + offset`; the index is the low byte. -/
def Ioapic.store (c : Ioapic) (offset : UInt64) (value : UInt32) : Ioapic :=
  if offset = 0 then { c with selected := value.toUInt8 }
  else if offset = 0x10 then { c with registers := Function.update c.registers c.selected value }
  else c

/-- `writeIoapic(index, value)`. -/
def Ioapic.writeIoapic (c : Ioapic) (index value : UInt32) : Ioapic := (c.store 0 index).store 0x10 value

/-- What the boot code and the hardware provide: `information.ioapicRedirects`, and the register of the
local controller with its number in the high byte. -/
structure Wiring where
  ioapicRedirects : UInt8 → UInt32
  idRegister : UInt32

/-- `unmaskIoapic(interrupt)`. -/
def unmaskIoapic (w : Wiring) (interrupt : UInt8) (c : Ioapic) : Ioapic :=
  let index := 0x10 + w.ioapicRedirects interrupt * 2
  (c.writeIoapic (index + 1) (w.idRegister &&& 0xFF000000)).writeIoapic index (0x20 + interrupt.toUInt32)

/-- What the controller does with a signal at a pin. -/
@[ext] structure Redirection where
  vector : ℕ
  /-- 0 where the vector is delivered as it is. -/
  mode : ℕ
  logical : Bool
  activeLow : Bool
  level : Bool
  masked : Bool
  destination : ℕ

/-- The fields of the two registers of a pin. -/
def decodeRedirection (low high : ℕ) : Redirection where
  vector := low % 256
  mode := low / 2 ^ 8 % 8
  logical := low / 2 ^ 11 % 2 = 1
  activeLow := low / 2 ^ 13 % 2 = 1
  level := low / 2 ^ 15 % 2 = 1
  masked := low / 2 ^ 16 % 2 = 1
  destination := high / 2 ^ 24

def Ioapic.redirection (c : Ioapic) (pin : ℕ) : Redirection :=
  decodeRedirection (c.registers (.ofNat (0x10 + 2 * pin))).toNat
    (c.registers (.ofNat (0x10 + 2 * pin + 1))).toNat

/-! ### The calls of the drivers -/

/-- A call of a driver. -/
inductive Setup
  | installIsr (interrupt attributes : UInt8) (handler : UInt64)
  | installIrq (interrupt : UInt8) (handler : UInt64)
  | unmaskIoapic (interrupt : UInt8)

/-- Both tables. -/
structure Tables where
  idt : UInt8 → IdtEntry
  ioapic : Ioapic

def Tables.step (w : Wiring) (t : Tables) : Setup → Tables
  | .installIsr interrupt attributes handler =>
    { t with idt := Naul.installIsr interrupt attributes handler t.idt }
  | .installIrq interrupt handler => { t with idt := Naul.installIrq interrupt handler t.idt }
  | .unmaskIoapic interrupt => { t with ioapic := Naul.unmaskIoapic w interrupt t.ioapic }

/-- The tables after some calls. -/
def Tables.run (w : Wiring) (t : Tables) (calls : List Setup) : Tables := calls.foldl (Tables.step w) t

/-- The calls of `initIdt`; the entries of `exception` are `decSize` bytes apart. -/
def initIdt (exception : UInt64) (decSize : UInt8) : List Setup :=
  (List.range 32).map fun i =>
    .installIsr (.ofNat i) idtInterruptGate (exception + .ofNat i * decSize.toUInt64)

/-- The handlers of the kernel. -/
structure Handlers where
  skipThread : UInt64
  updateScheduler : UInt64
  syscallTrampoline : UInt64
  hpetInterrupt : UInt64
  keyboardInterrupt : UInt64
  mouseInterrupt : UInt64

/-- `#define PS2_SECOND_CLOCK 0x20`. -/
def ps2SecondClock : UInt8 := 0x20

/-- There is a second PS/2 port: its clock runs after `PS2_ENABLE_SECOND`. -/
def secondPort (config : UInt8) : Bool := config &&& ps2SecondClock = 0

/-- The calls of `initMouse`, where the PS/2 controller answers `config` to `PS2_GET_CONFIG`. -/
def Handlers.initMouse (h : Handlers) (config : UInt8) : List Setup :=
  if secondPort config then [.installIrq 12 h.mouseInterrupt, .unmaskIoapic 12] else []

/-- The calls of `initSyscalls`, `initHpet`, `initScheduler`, `initKeyboard` and `initMouse`. -/
def Handlers.setup (h : Handlers) (config : UInt8) : List Setup :=
  [.installIsr 0x69 idtTrapGate h.syscallTrampoline,
    .installIrq 2 h.hpetInterrupt, .unmaskIoapic 2,
    .installIsr 0x67 idtInterruptGate h.skipThread,
    .installIsr 32 idtInterruptGate h.updateScheduler,
    .installIrq 1 h.keyboardInterrupt, .unmaskIoapic 1] ++ h.initMouse config

/-- An interrupt that has arrived at a processor. -/
structure Arrival where
  processor : ℕ
  redirection : Redirection
  gate : Option Gate

/-- A signal at a pin. -/
def Tables.signal (t : Tables) (pin : ℕ) : Option Arrival :=
  let r := t.ioapic.redirection pin
  if r.masked then none else some ⟨r.destination, r, gateOf t.idt (.ofNat r.vector)⟩

/-- The table that nothing has been written to, and a controller after its reset: all pins are masked. -/
structure Tables.Fresh (t : Tables) : Prop where
  idt : ∀ v, t.idt v = ⟨0, 0, 0, 0, 0, 0, 0⟩
  masked : ∀ pin < 120, (t.ioapic.redirection pin).masked = true

/-! ### What the calls are for -/

/-- The last gate installed for each vector, and the interrupt last unmasked on each pin. -/
structure Routes where
  installed : UInt8 → Option (UInt8 × UInt64)
  unmasked : ℕ → Option UInt8

def Routes.step (w : Wiring) (r : Routes) : Setup → Routes
  | .installIsr interrupt attributes handler =>
    { r with installed := Function.update r.installed interrupt (some (attributes, handler)) }
  | .installIrq interrupt handler =>
    { r with
      installed := Function.update r.installed (interrupt + ioapicOffset) (some (idtInterruptGate, handler)) }
  | .unmaskIoapic interrupt =>
    { r with unmasked := Function.update r.unmasked (w.ioapicRedirects interrupt).toNat (some interrupt) }

def Routes.run (w : Wiring) (r : Routes) (calls : List Setup) : Routes := calls.foldl (Routes.step w) r

/-- Nothing is installed or unmasked. -/
def Routes.empty : Routes := ⟨fun _ => .none, fun _ => .none⟩

/-- A gate of the kernel. -/
def kernelGate (attributes : UInt8) (handler : UInt64) : Gate where
  offset := handler
  selector := 8
  stack := 0
  type := attributes.toNat % 16
  privilege := attributes.toNat / 32 % 4
  present := true

/-- No gate. -/
def missing : Gate := ⟨0, 0, 0, 0, 0, false⟩

def Routes.gate (r : Routes) (vector : UInt8) : Gate :=
  match r.installed vector with
  | .none => missing
  | some (attributes, handler) => kernelGate attributes handler

/-- An edge to high, delivered as it is to the processor with the number in the register. -/
def deviceRedirection (w : Wiring) (interrupt : UInt8) : Redirection where
  vector := 0x20 + interrupt.toNat
  mode := 0
  logical := false
  activeLow := false
  level := false
  masked := false
  destination := w.idRegister.toNat / 2 ^ 24

def Routes.signal (w : Wiring) (r : Routes) (pin : ℕ) : Option Arrival :=
  (r.unmasked pin).map fun interrupt =>
    ⟨w.idRegister.toNat / 2 ^ 24, deviceRedirection w interrupt, some (r.gate (interrupt + ioapicOffset))⟩

/-! ### Gates, encoded and decoded -/

theorem IdtEntry.length_bytes (e : IdtEntry) : e.bytes.length = 16 := by simp [IdtEntry.bytes]

theorem IdtEntry.value_bytes (e : IdtEntry) :
    LittleEndian.value e.bytes = e.lower.toNat + 2 ^ 16 * (e.selector.toNat + 2 ^ 16 * (e.ist.toNat +
      2 ^ 8 * (e.attributes.toNat + 2 ^ 8 * (e.middle.toNat + 2 ^ 16 * (e.higher.toNat +
        2 ^ 32 * e.zero.toNat))))) := by
  have hlower := e.lower.toNat_lt
  have hselector := e.selector.toNat_lt
  have hmiddle := e.middle.toNat_lt
  have hhigher := e.higher.toNat_lt
  have hzero := e.zero.toNat_lt
  simp only [IdtEntry.bytes, LittleEndian.value_append, LittleEndian.value_bytes,
    LittleEndian.value_singleton, LittleEndian.length_bytes, List.length_singleton]
  rw [Nat.mod_eq_of_lt (by omega), Nat.mod_eq_of_lt (by omega), Nat.mod_eq_of_lt (by omega),
    Nat.mod_eq_of_lt (by omega), Nat.mod_eq_of_lt (by omega)]
  norm_num

/-- The processor reads the entry of the vector. -/
theorem gateOf_eq (idt : UInt8 → IdtEntry) (vector : UInt8) : gateOf idt vector = some (idt vector).gate := by
  have hv := vector.toNat_lt
  have hread : (List.range 16).map (fun k => idtByte idt (16 * vector.toNat + k)) = (idt vector).bytes := by
    apply List.ext_getElem
    · rw [List.length_map, List.length_range, IdtEntry.length_bytes]
    · intro k hk hk'
      rw [List.length_map, List.length_range] at hk
      rw [List.getElem_map, List.getElem_range, idtByte, show (16 * vector.toNat + k) / 16 = vector.toNat by omega,
        show (16 * vector.toNat + k) % 16 = k by omega, UInt8.ofNat_toNat, ← List.getElem_eq_getD]
  rw [gateOf, if_pos (by rw [idtLength]; omega), hread]
  rfl

/-- An entry that nothing was written to. -/
theorem gate_zero : (⟨0, 0, 0, 0, 0, 0, 0⟩ : IdtEntry).gate = missing := by
  rw [IdtEntry.gate, IdtEntry.value_bytes]
  rfl

/-- The fields of a gate, by the fields of the entry. -/
theorem decodeGate_fields {low a m hi : ℕ} (hlow : low < 2 ^ 16) (ha : a < 2 ^ 8) (hm : m < 2 ^ 16)
    (hhi : hi < 2 ^ 32) :
    decodeGate (low + 2 ^ 16 * (8 + 2 ^ 16 * (0 + 2 ^ 8 * (a + 2 ^ 8 * (m + 2 ^ 16 * hi))))) =
      { offset := .ofNat (low + m * 2 ^ 16 + hi * 2 ^ 32)
        selector := 8
        stack := 0
        type := a % 16
        privilege := a / 32 % 4
        present := a / 128 % 2 = 1 } := by
  generalize hd : low + 2 ^ 16 * (8 + 2 ^ 16 * (0 + 2 ^ 8 * (a + 2 ^ 8 * (m + 2 ^ 16 * hi)))) = d
  have h40 : d / 2 ^ 40 = a + 2 ^ 8 * (m + 2 ^ 16 * hi) := by omega
  have h45 : d / 2 ^ 45 = (a + 2 ^ 8 * (m + 2 ^ 16 * hi)) / 2 ^ 5 := by
    rw [← h40, Nat.div_div_eq_div_mul, ← pow_add]
  have h47 : d / 2 ^ 47 = (a + 2 ^ 8 * (m + 2 ^ 16 * hi)) / 2 ^ 7 := by
    rw [← h40, Nat.div_div_eq_div_mul, ← pow_add]
  have h48 : d / 2 ^ 48 = m + 2 ^ 16 * hi := by
    rw [show 2 ^ 48 = 2 ^ 40 * 2 ^ 8 from rfl, ← Nat.div_div_eq_div_mul, h40]
    omega
  have h64 : d / 2 ^ 64 = hi := by
    rw [show 2 ^ 64 = 2 ^ 48 * 2 ^ 16 from rfl, ← Nat.div_div_eq_div_mul, h48]
    omega
  ext
  · have hoffset : d % 2 ^ 16 = low := by omega
    have hmiddle : (m + 2 ^ 16 * hi) % 2 ^ 16 = m := by omega
    simp only [decodeGate, hoffset, h48, hmiddle, h64, Nat.mod_eq_of_lt hhi]
  · simp only [decodeGate]
    omega
  · simp only [decodeGate]
    omega
  · simp only [decodeGate, h40]
    omega
  · simp only [decodeGate, h45]
    omega
  · simp only [decodeGate, h47]
    congr 2
    omega

/-- **A gate is decoded to what was installed.** -/
theorem gate_installIsr (idt : UInt8 → IdtEntry) (interrupt attributes : UInt8) (handler : UInt64) :
    (installIsr interrupt attributes handler idt interrupt).gate = kernelGate attributes handler := by
  have hhandler := handler.toNat_lt
  have hlow : handler.toUInt16.toNat = handler.toNat % 2 ^ 16 := by simp
  have hmiddle : (handler >>> 16).toUInt16.toNat = handler.toNat / 2 ^ 16 % 2 ^ 16 := by
    simp [Nat.shiftRight_eq_div_pow]
  have hhigher : (handler >>> 32).toUInt32.toNat = handler.toNat / 2 ^ 32 := by
    simp [Nat.shiftRight_eq_div_pow]
    omega
  -- the present bit is set, and no other bit changes
  have hattributes : (attributes ||| idtPresent).toNat % 128 = attributes.toNat % 128 ∧
      128 ≤ (attributes ||| idtPresent).toNat ∧ (attributes ||| idtPresent).toNat < 256 := by
    obtain ⟨b⟩ := attributes
    revert b
    decide
  obtain ⟨hfields, hpresent, hlt⟩ := hattributes
  rw [installIsr, Function.update_self, IdtEntry.gate, IdtEntry.value_bytes]
  dsimp only
  rw [hlow, hmiddle, hhigher, show (0 : UInt32).toNat = 0 from rfl, Nat.mul_zero, Nat.add_zero]
  refine (decodeGate_fields (by omega) hlt (by omega) (by omega)).trans (Gate.ext ?_ rfl rfl ?_ ?_ ?_)
  · dsimp only [kernelGate]
    rw [show handler.toNat % 2 ^ 16 + handler.toNat / 2 ^ 16 % 2 ^ 16 * 2 ^ 16 +
      handler.toNat / 2 ^ 32 * 2 ^ 32 = handler.toNat by omega, UInt64.ofNat_toNat]
  · dsimp only [kernelGate]
    omega
  · dsimp only [kernelGate]
    omega
  · exact decide_eq_true (by omega : (attributes ||| idtPresent).toNat / 128 % 2 = 1)

/-! ### Redirections, encoded and decoded -/

theorem Ioapic.writeIoapic_eq (c : Ioapic) (index value : UInt32) :
    c.writeIoapic index value = ⟨index.toUInt8, Function.update c.registers index.toUInt8 value⟩ := rfl

/-- The number of the local controller. -/
theorem destination_eq (idRegister : UInt32) :
    (idRegister &&& 0xFF000000).toNat / 2 ^ 24 = idRegister.toNat / 2 ^ 24 := by
  rw [UInt32.toNat_and, show (0xFF000000 : UInt32).toNat = 2 ^ 32 - 2 ^ 24 from rfl,
    Bits.and_two_pow_sub (by decide) idRegister.toNat_lt, Nat.mul_div_cancel _ (by decide)]

theorem ofNat_inj_of_lt {n m : ℕ} (hn : n < 256) (hm : m < 256) : UInt8.ofNat n = UInt8.ofNat m ↔ n = m := by
  rw [← UInt8.toNat_inj, UInt8.toNat_ofNat', UInt8.toNat_ofNat', Nat.mod_eq_of_lt hn, Nat.mod_eq_of_lt hm]

/-- **A pin is redirected as it was unmasked**, and the other pins are left alone. -/
theorem redirection_unmaskIoapic {w : Wiring} {interrupt : UInt8} (hvector : interrupt < 224)
    (hredirect : (w.ioapicRedirects interrupt).toNat < 120) (c : Ioapic) {pin : ℕ} (hpin : pin < 120) :
    (unmaskIoapic w interrupt c).redirection pin =
      if pin = (w.ioapicRedirects interrupt).toNat then deviceRedirection w interrupt
      else c.redirection pin := by
  have hlow : (0x10 + w.ioapicRedirects interrupt * 2).toUInt8 =
      UInt8.ofNat (0x10 + 2 * (w.ioapicRedirects interrupt).toNat) := by
    rw [← UInt8.toNat_inj]
    simp
    omega
  have hhigh : (0x10 + w.ioapicRedirects interrupt * 2 + 1).toUInt8 =
      UInt8.ofNat (0x10 + 2 * (w.ioapicRedirects interrupt).toNat + 1) := by
    rw [← UInt8.toNat_inj]
    simp
    omega
  have hvalue : (0x20 + interrupt.toUInt32).toNat = 0x20 + interrupt.toNat := by
    have hlt := interrupt.toNat_lt
    rw [UInt32.toNat_add, show (0x20 : UInt32).toNat = 0x20 from rfl, UInt8.toNat_toUInt32]
    omega
  rw [unmaskIoapic, Ioapic.writeIoapic_eq, Ioapic.writeIoapic_eq, hlow, hhigh, Ioapic.redirection]
  dsimp only
  generalize (w.ioapicRedirects interrupt).toNat = redirect at hredirect ⊢
  rw [UInt8.lt_iff_toNat_lt, show (224 : UInt8).toNat = 224 from rfl] at hvector
  split_ifs with h
  · subst h
    rw [Function.update_self, Function.update_of_ne, Function.update_self, hvalue]
    · -- the vector is less than 256, so that all other fields are 0
      refine Redirection.ext ?_ ?_ ?_ ?_ ?_ ?_ (destination_eq w.idRegister)
      · exact Nat.mod_eq_of_lt (by omega)
      · dsimp only [decodeRedirection, deviceRedirection]
        omega
      · exact decide_eq_false (by omega)
      · exact decide_eq_false (by omega)
      · exact decide_eq_false (by omega)
      · exact decide_eq_false (by omega)
    · rw [Ne, ofNat_inj_of_lt (by omega) (by omega)]
      omega
  · have hne : ∀ {n m : ℕ}, n < 256 → m < 256 → n ≠ m → UInt8.ofNat n ≠ UInt8.ofNat m := fun hn hm hnm he =>
      hnm ((ofNat_inj_of_lt hn hm).1 he)
    rw [Function.update_of_ne, Function.update_of_ne, Function.update_of_ne, Function.update_of_ne]
    · rfl
    all_goals exact hne (by omega) (by omega) (by omega)

/-! ### Runs -/

variable {w : Wiring} {t : Tables} {r : Routes}

/-- A device whose vector and pin there are. -/
def Setup.Proper (w : Wiring) : Setup → Prop
  | .installIsr .. => True
  | .installIrq interrupt _ => interrupt < 224
  | .unmaskIoapic interrupt => interrupt < 224 ∧ (w.ioapicRedirects interrupt).toNat < 120

/-- The tables stand for the routes. -/
structure Tables.Encodes (w : Wiring) (t : Tables) (r : Routes) : Prop where
  gate : ∀ vector, (t.idt vector).gate = r.gate vector
  masked : ∀ pin < 120, r.unmasked pin = none → (t.ioapic.redirection pin).masked = true
  unmasked : ∀ pin < 120, ∀ interrupt, r.unmasked pin = some interrupt →
    interrupt < 224 ∧ t.ioapic.redirection pin = deviceRedirection w interrupt

theorem Tables.Fresh.encodes (h : t.Fresh) : t.Encodes w .empty where
  gate vector := by
    rw [h.idt, gate_zero]
    rfl
  masked pin hpin _ := h.masked pin hpin
  unmasked pin _ interrupt hnone := by cases hnone

theorem Tables.Encodes.installIsr (h : t.Encodes w r) (interrupt attributes : UInt8) (handler : UInt64) :
    (t.step w (.installIsr interrupt attributes handler)).Encodes w
      (r.step w (.installIsr interrupt attributes handler)) where
  gate vector := by
    dsimp only [Tables.step, Routes.step, Routes.gate]
    by_cases hv : vector = interrupt
    · rw [hv, gate_installIsr, Function.update_self]
    · rw [Naul.installIsr, Function.update_of_ne hv, Function.update_of_ne hv]
      exact h.gate vector
  masked := h.masked
  unmasked := h.unmasked

theorem Tables.Encodes.step (h : t.Encodes w r) {call : Setup} (hcall : call.Proper w) :
    (t.step w call).Encodes w (r.step w call) := by
  cases call with
  | installIsr interrupt attributes handler => exact h.installIsr interrupt attributes handler
  | installIrq interrupt handler =>
    exact h.installIsr (interrupt + ioapicOffset) idtInterruptGate handler
  | unmaskIoapic interrupt =>
    obtain ⟨hvector, hredirect⟩ := hcall
    refine ⟨h.gate, fun pin hpin hnone => ?_, fun pin hpin irq hsome => ?_⟩
    · dsimp only [Routes.step] at hnone
      have hne : pin ≠ (w.ioapicRedirects interrupt).toNat := by
        rintro rfl
        rw [Function.update_self] at hnone
        cases hnone
      rw [Function.update_of_ne hne] at hnone
      rw [Tables.step, redirection_unmaskIoapic hvector hredirect _ hpin, if_neg hne]
      exact h.masked pin hpin hnone
    · dsimp only [Routes.step] at hsome
      rw [Tables.step, redirection_unmaskIoapic hvector hredirect _ hpin]
      by_cases hpins : pin = (w.ioapicRedirects interrupt).toNat
      · rw [hpins, Function.update_self, Option.some.injEq] at hsome
        subst hsome
        exact ⟨hvector, if_pos hpins⟩
      · rw [Function.update_of_ne hpins] at hsome
        rw [if_neg hpins]
        exact h.unmasked pin hpin irq hsome

/-- **The tables stand for the routes after any calls.** -/
theorem Tables.Encodes.run (h : t.Encodes w r) {calls : List Setup} (hcalls : ∀ c ∈ calls, c.Proper w) :
    (t.run w calls).Encodes w (r.run w calls) := by
  induction calls generalizing t r with
  | nil => exact h
  | cons call calls ih =>
    rw [List.forall_mem_cons] at hcalls
    exact ih (h.step hcalls.1) hcalls.2

/-- A signal arrives where the routes say. -/
theorem Tables.Encodes.signal (h : t.Encodes w r) {pin : ℕ} (hpin : pin < 120) :
    t.signal pin = r.signal w pin := by
  rw [Tables.signal, Routes.signal]
  cases hirq : r.unmasked pin with
  | none => exact if_pos (h.masked pin hpin hirq)
  | some interrupt =>
    obtain ⟨hvector, hredirection⟩ := h.unmasked pin hpin interrupt hirq
    rw [UInt8.lt_iff_toNat_lt, show (224 : UInt8).toNat = 224 from rfl] at hvector
    have hoffset : UInt8.ofNat (0x20 + interrupt.toNat) = interrupt + ioapicOffset := by
      rw [← UInt8.toNat_inj, UInt8.toNat_ofNat', UInt8.toNat_add, Nat.add_comm]
      rfl
    rw [hredirection]
    dsimp only [deviceRedirection, Option.map_some]
    simp only [Bool.false_eq_true, if_false]
    rw [hoffset, gateOf_eq, h.gate]

/-- Every driver installs its handler before it unmasks its interrupt. -/
def InstalledFirst (calls : List Setup) : Prop :=
  ∀ (n : ℕ) (interrupt : UInt8), calls[n]? = some (.unmaskIoapic interrupt) →
    ∃ handler, .installIrq interrupt handler ∈ calls.take n

theorem Routes.run_append (r : Routes) (calls : List Setup) (call : Setup) :
    r.run w (calls ++ [call]) = (r.run w calls).step w call := List.foldl_concat ..

theorem Routes.installed_step {v : UInt8} (h : r.installed v ≠ .none) (call : Setup) :
    (r.step w call).installed v ≠ .none := by
  have hupdate : ∀ u x, Function.update r.installed u (some x) v ≠ .none := by
    intro u x
    by_cases hv : v = u
    · rw [hv, Function.update_self]
      exact Option.some_ne_none _
    · rwa [Function.update_of_ne hv]
  cases call with
  | installIsr interrupt attributes handler => exact hupdate _ _
  | installIrq interrupt handler => exact hupdate _ _
  | unmaskIoapic interrupt => exact h

theorem Routes.installed_of_mem {interrupt : UInt8} {handler : UInt64} {calls : List Setup}
    (h : .installIrq interrupt handler ∈ calls) :
    (r.run w calls).installed (interrupt + ioapicOffset) ≠ .none := by
  induction calls using List.reverseRecOn with
  | nil => exact absurd h List.not_mem_nil
  | append_singleton calls call ih =>
    rw [Routes.run_append]
    rcases List.mem_append.1 h with h | h
    · exact Routes.installed_step (ih h) call
    · rw [← List.mem_singleton.1 h]
      dsimp only [Routes.step]
      rw [Function.update_self]
      exact Option.some_ne_none _

/-- Behind an unmasked pin there is a gate. -/
theorem InstalledFirst.installed {calls : List Setup} (h : InstalledFirst calls)
    (hr : ∀ pin, r.unmasked pin = none) {pin : ℕ} {interrupt : UInt8}
    (hpin : (r.run w calls).unmasked pin = some interrupt) :
    (r.run w calls).installed (interrupt + ioapicOffset) ≠ .none := by
  induction calls using List.reverseRecOn with
  | nil =>
    rw [show r.run w [] = r from rfl, hr] at hpin
    cases hpin
  | append_singleton calls call ih =>
    have hcalls : InstalledFirst calls := by
      intro n irq hn
      obtain ⟨hlt, -⟩ := List.getElem?_eq_some_iff.1 hn
      have hmem := h n irq (by rw [List.getElem?_append_left hlt, hn])
      rwa [List.take_append_of_le_length hlt.le] at hmem
    rw [Routes.run_append] at hpin ⊢
    cases call with
    | installIsr irq attributes handler => exact Routes.installed_step (ih hcalls hpin) _
    | installIrq irq handler => exact Routes.installed_step (ih hcalls hpin) _
    | unmaskIoapic irq =>
      dsimp only [Routes.step] at hpin ⊢
      by_cases heq : pin = (w.ioapicRedirects irq).toNat
      · rw [heq, Function.update_self, Option.some.injEq] at hpin
        obtain ⟨handler, hmem⟩ := h calls.length irq List.getElem?_concat_length
        rw [List.take_left] at hmem
        exact hpin ▸ Routes.installed_of_mem hmem
      · rw [Function.update_of_ne heq] at hpin
        exact ih hcalls hpin

/-- The gate of an exception is that of `initIdt` until another is installed for it. -/
theorem Routes.installed_run {v : UInt8} (hv : v < 32) {calls : List Setup}
    (hcalls : ∀ c ∈ calls, c.Proper w) (hother : ∀ attributes handler, .installIsr v attributes handler ∉ calls) :
    (r.run w calls).installed v = r.installed v := by
  induction calls generalizing r with
  | nil => rfl
  | cons call calls ih =>
    rw [List.forall_mem_cons] at hcalls
    have hrest := ih (r := r.step w call) hcalls.2 fun attributes handler hmem =>
      hother attributes handler (List.mem_cons_of_mem _ hmem)
    refine hrest.trans ?_
    cases call with
    | installIsr interrupt attributes handler =>
      refine Function.update_of_ne ?_ ..
      rintro rfl
      exact hother attributes handler List.mem_cons_self
    | installIrq interrupt handler =>
      have hlt : interrupt.toNat < 224 := UInt8.lt_iff_toNat_lt.1 hcalls.1
      refine Function.update_of_ne ?_ ..
      rintro rfl
      rw [UInt8.lt_iff_toNat_lt, UInt8.toNat_add, show ioapicOffset.toNat = 32 from rfl,
        show (32 : UInt8).toNat = 32 from rfl] at hv
      omega
    | unmaskIoapic interrupt => rfl

theorem toNat_ofNat_of_lt {n : ℕ} (h : n < 256) : (UInt8.ofNat n).toNat = n :=
  UInt8.toNat_ofNat'.trans (Nat.mod_eq_of_lt h)

theorem initIdt_proper (w : Wiring) (exception : UInt64) (decSize : UInt8) :
    ∀ c ∈ initIdt exception decSize, c.Proper w := by
  intro c hc
  obtain ⟨i, -, rfl⟩ := List.mem_map.1 hc
  trivial

theorem Routes.unmasked_initIdt (w : Wiring) (exception : UInt64) (decSize : UInt8) :
    (Routes.empty.run w (initIdt exception decSize)).unmasked = fun _ => none := by
  rw [initIdt, Routes.run, List.foldl_map]
  exact List.foldlRecOn (motive := fun r : Routes => r.unmasked = fun _ => none) _ _ rfl fun r hr i _ => hr

/-- `initIdt` installs the gates of the exceptions. -/
theorem Routes.installed_initIdt (w : Wiring) (exception : UInt64) (decSize : UInt8) {v : UInt8} (hv : v < 32) :
    (Routes.empty.run w (initIdt exception decSize)).installed v =
      some (idtInterruptGate, exception + .ofNat v.toNat * decSize.toUInt64) := by
  have hloop : ∀ n, n ≤ 32 → v.toNat < n → (Routes.empty.run w ((List.range n).map fun i =>
      .installIsr (.ofNat i) idtInterruptGate (exception + .ofNat i * decSize.toUInt64))).installed v =
      some (idtInterruptGate, exception + .ofNat v.toNat * decSize.toUInt64) := by
    intro n hn hlt
    induction n with
    | zero => exact absurd hlt (Nat.not_lt_zero _)
    | succ n ih =>
      rw [List.range_succ, List.map_append, List.map_singleton, Routes.run_append]
      dsimp only [Routes.step]
      by_cases heq : v = UInt8.ofNat n
      · have htoNat : v.toNat = n := by rw [heq, toNat_ofNat_of_lt (by omega)]
        rw [heq, Function.update_self, toNat_ofNat_of_lt (by omega)]
      · rw [Function.update_of_ne heq]
        refine ih (by omega) (lt_of_le_of_ne (Nat.lt_succ_iff.1 hlt) fun htoNat => heq ?_)
        rw [← htoNat, UInt8.ofNat_toNat]
  exact hloop 32 le_rfl (UInt8.lt_iff_toNat_lt.1 hv)

/-- The tables stand for the routes after `initIdt` and the calls of the drivers. -/
theorem Tables.Fresh.encodes_run (ht : t.Fresh) (exception : UInt64) (decSize : UInt8) {calls : List Setup}
    (hcalls : ∀ c ∈ calls, c.Proper w) :
    (t.run w (initIdt exception decSize ++ calls)).Encodes w
      (Routes.empty.run w (initIdt exception decSize ++ calls)) :=
  ht.encodes.run fun c hc => (List.mem_append.1 hc).elim (initIdt_proper w exception decSize c) (hcalls c)

/-- **Where interrupts arrive.** After `initIdt` and any calls of drivers that install their handlers before
they unmask their interrupts, a signal at a pin is either masked, or arrives at the gate that was installed
last for the interrupt that was last unmasked on the pin; and the exceptions still have their gates. -/
theorem interrupts_routed (ht : t.Fresh) (exception : UInt64) (decSize : UInt8) {calls : List Setup}
    (hcalls : ∀ c ∈ calls, c.Proper w) (hfirst : InstalledFirst calls) :
    (∀ pin < 120, (t.run w (initIdt exception decSize ++ calls)).signal pin =
        (Routes.empty.run w (initIdt exception decSize ++ calls)).signal w pin) ∧
      (∀ pin < 120, ∀ a, (t.run w (initIdt exception decSize ++ calls)).signal pin = some a →
        ∃ attributes handler, a.gate = some (kernelGate attributes handler)) ∧
      ∀ v < 32, (∀ attributes handler, .installIsr v attributes handler ∉ calls) →
        gateOf (t.run w (initIdt exception decSize ++ calls)).idt v =
          some (kernelGate idtInterruptGate (exception + .ofNat v.toNat * decSize.toUInt64)) := by
  have happend : Routes.empty.run w (initIdt exception decSize ++ calls) =
      (Routes.empty.run w (initIdt exception decSize)).run w calls := List.foldl_append
  have hencodes := ht.encodes_run exception decSize hcalls
  refine ⟨fun pin hpin => hencodes.signal hpin, fun pin hpin a ha => ?_, fun v hv hother => ?_⟩
  · rw [hencodes.signal hpin, Routes.signal, Option.map_eq_some_iff] at ha
    obtain ⟨interrupt, hirq, rfl⟩ := ha
    rw [happend] at hirq
    have hinstalled := hfirst.installed
      (fun pin => congrFun (Routes.unmasked_initIdt w exception decSize) pin) hirq
    obtain ⟨⟨attributes, handler⟩, hsome⟩ := Option.ne_none_iff_exists'.1 hinstalled
    exact ⟨attributes, handler, by rw [Routes.gate, happend, hsome]⟩
  · rw [gateOf_eq, hencodes.gate, Routes.gate, happend, Routes.installed_run hv hcalls hother,
      Routes.installed_initIdt w exception decSize hv]

/-- A table and a controller of a machine that has just started. -/
def Tables.reset : Tables := ⟨fun _ => ⟨0, 0, 0, 0, 0, 0, 0⟩, 0, fun _ => 0x10000⟩

theorem Tables.fresh_reset : Tables.reset.Fresh where
  idt _ := rfl
  masked _ _ := decide_eq_true (by decide : (0x10000 : UInt32).toNat / 2 ^ 16 % 2 = 1)

theorem Handlers.setup_installedFirst (h : Handlers) (config : UInt8) : InstalledFirst (h.setup config) := by
  intro n interrupt hn
  obtain ⟨hlt, -⟩ := List.getElem?_eq_some_iff.1 hn
  unfold Handlers.setup Handlers.initMouse at hn hlt ⊢
  split_ifs at hn hlt ⊢
  · change n < 9 at hlt
    interval_cases n <;> cases hn <;> simp
  · change n < 7 at hlt
    interval_cases n <;> cases hn <;> simp

/-- The calls of the kernel, where interrupt 0 is redirected to pin 2 and there is a mouse. -/
theorem interrupts_routed_kernel :
    (Tables.reset.run ⟨fun i => if i = 0 then 2 else i.toUInt32, 0⟩
        (initIdt 0x1000 6 ++ Handlers.setup ⟨1, 2, 3, 4, 5, 6⟩ 0x47)).signal 12 =
      some ⟨0, deviceRedirection ⟨fun i => if i = 0 then 2 else i.toUInt32, 0⟩ 12,
        some (kernelGate idtInterruptGate 6)⟩ := by
  have hproper : ∀ c ∈ Handlers.setup ⟨1, 2, 3, 4, 5, 6⟩ 0x47,
      c.Proper ⟨fun i => if i = 0 then 2 else i.toUInt32, 0⟩ := by
    have hport : secondPort 0x47 = true := by decide
    simp only [Handlers.setup, Handlers.initMouse, hport, if_true, List.cons_append, List.nil_append,
      List.forall_mem_cons, Setup.Proper]
    refine ⟨trivial, ?_, ?_, trivial, trivial, ?_, ?_, ?_, ?_, List.forall_mem_nil _⟩ <;> decide
  have hrouted := interrupts_routed (w := ⟨fun i => if i = 0 then 2 else i.toUInt32, 0⟩)
    Tables.fresh_reset 0x1000 6 hproper (Handlers.setup_installedFirst _ _)
  exact (hrouted.1 12 (by decide)).trans rfl

end Naul
