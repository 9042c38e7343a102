import Naul.Mem
import Naul.Scheduler.Frame
import Naul.Str.Numerals
import Naul.Symbols.Lookup
import Naul.Terminal.Panic

/-!
# Exceptions (`os/src/idt.c`, `os/src/panic.c`, `os/src/symbols.c`)

The gate of an exception leads into a row of `decb` instructions, so that `exceptionNumber` counts those
that are left. `isr` finds the address of the instruction where the processor has pushed it, with or
without an error code, and jumps to `panic` as if it had been called from there. `panic` then follows the
frame pointers.

`enterPanic_eq` says which frame that makes, `panic_report` what is reported of a chain of frames, and
`exception_reported` puts them together.
-/

namespace Naul

open Fuel Stack Symbols

/-- The characters of a string. -/
@[irreducible] def ascii (s : String) : List UInt8 := s.toList.map fun c => .ofNat c.toNat

/-! ### The exceptions -/

structure Exception where
  name : String
  /-- Whether the processor pushes an error code. -/
  code : Bool

def exceptions : List Exception :=
  [⟨"Division error", false⟩,
    ⟨"Debug", false⟩,
    ⟨"Non-maskable interrupt", false⟩,
    ⟨"Breakpoint", false⟩,
    ⟨"Overflow", false⟩,
    ⟨"Bound range exceeded", false⟩,
    ⟨"Invalid opcode", false⟩,
    ⟨"Device not available", false⟩,
    ⟨"Double fault", true⟩,
    ⟨"Coprocessor segment overrun", false⟩,
    ⟨"Invalid tss", true⟩,
    ⟨"Segment not present", true⟩,
    ⟨"Stack-segment fault", true⟩,
    ⟨"General protection fault", true⟩,
    ⟨"Page fault", true⟩,
    ⟨"", false⟩,
    ⟨"x87 floating-point exception", false⟩,
    ⟨"Alignment check", true⟩,
    ⟨"Machine check", false⟩,
    ⟨"SIMD floating-point exception", false⟩,
    ⟨"Virtualization exception", false⟩,
    ⟨"Control protection exception", true⟩,
    ⟨"", false⟩,
    ⟨"", false⟩,
    ⟨"", false⟩,
    ⟨"", false⟩,
    ⟨"", false⟩,
    ⟨"", false⟩,
    ⟨"Hypervisor injection exception", false⟩,
    ⟨"VMM communication exception", true⟩,
    ⟨"Security exception", true⟩,
    ⟨"", false⟩]

/-- `exceptions[exception]`. -/
def exceptionAt (exception : UInt8) : Exception := exceptions.getD exception.toNat ⟨"", false⟩

/-- `#define CALL_SIZE 5`. -/
def callSize : UInt64 := 5

/-! ### From the gate to `panic` -/

/-- A processor, and the variables of `idt.c`. -/
structure ExceptionEntry (l : Layout) where
  processor : Processor l
  exceptionNumber : UInt8
  codeA : UInt64
  codeB : UInt64

/-- An instruction of `exception`; the operand `%0` is `rax`. -/
inductive EntryInstr
  /-- `decb exceptionNumber(%rip)`. -/
  | decb
  /-- `movq (%rsp), %0`, for `codeA`. -/
  | saveA
  /-- `movq 8(%rsp), %0`, for `codeB`. -/
  | saveB

variable {l : Layout}

def EntryInstr.step (s : ExceptionEntry l) : EntryInstr → ExceptionEntry l
  | .decb => { s with exceptionNumber := s.exceptionNumber - 1 }
  | .saveA =>
    let v := s.processor.memory (s.processor.cpu.reg .rsp)
    { s with processor := { s.processor with cpu := s.processor.cpu.setReg .rax v }, codeA := v }
  | .saveB =>
    let v := s.processor.memory (s.processor.cpu.reg .rsp + 8)
    { s with processor := { s.processor with cpu := s.processor.cpu.setReg .rax v }, codeB := v }

/-- `exception`, up to the jump. -/
def exceptionBody : List EntryInstr := List.replicate 31 .decb ++ [.saveA, .saveB]

/-- The instructions from `n` bytes after the first on, where `size` says how long each of them is. -/
def codeFrom (size : EntryInstr → ℕ) : List EntryInstr → ℕ → Option (List EntryInstr)
  | is, 0 => some is
  | [], _ + 1 => none
  | i :: is, n + 1 => if size i ≤ n + 1 then codeFrom size is (n + 1 - size i) else none

/-- `isr`, and the first instructions of `panic`: the frame pointer is `rbp` in the end. -/
def isr (s : ExceptionEntry l) : Processor l :=
  let c := s.processor.cpu.setReg .rdi s.exceptionNumber.toUInt64
  let p := if (exceptionAt s.exceptionNumber).code then
      ({ s.processor with cpu := c.setReg .rsi s.codeA } : Processor l).push (s.codeB + callSize)
    else ({ s.processor with cpu := c } : Processor l).push (s.codeA + callSize)
  let p := p.push (p.cpu.reg .rbp)
  { p with cpu := p.cpu.setReg .rbp (p.cpu.reg .rsp) }

/-- The exceptions for which the processor pushes an error code. -/
def pushesCode (vector : UInt8) : Bool := vector ∈ [8, 10, 11, 12, 13, 14, 17, 21, 29, 30]

/-- The processor takes an exception. -/
def raise (handler : UInt64) (vector : UInt8) (code : UInt64) (p : Processor l) : Processor l :=
  if pushesCode vector then (interrupt handler p).push code else interrupt handler p

/-- An exception, from the gate that `initIdt` has installed for it to the frame of `panic`. -/
def enterPanic (size : EntryInstr → ℕ) (exception : UInt64) (vector : UInt8) (code : UInt64)
    (s : ExceptionEntry l) : Option (Processor l) :=
  (codeFrom size exceptionBody (vector.toNat * size .decb)).map fun is =>
    isr (is.foldl EntryInstr.step
      { s with
        processor := raise (exception + .ofNat (vector.toNat * size .decb)) vector code s.processor })

/-! ### Where the kernel is -/

/-- A turn of the loop of `initSymbols`; in the end `kernelOffset`. -/
def offsetTurn (symbols : UInt64 → Symbol) (offset offsetId : UInt64) : UInt64 ⊕ UInt64 :=
  if compareStrings (symbols offsetId).name (ascii "initSymbols") = 0 then
    .inr (offset - (symbols offsetId).address)
  else .inl (offsetId + 1)

/-- `initSymbols`, where `symbols` is the table of the kernel and `offset` is the address at which the
function is. -/
def initSymbols (symbols : UInt64 → Symbol) (offset : UInt64) (fuel : ℕ) : Option UInt64 :=
  WhileLoop.run (offsetTurn symbols offset) fuel 0

/-! ### The report -/

/-- The screen, what has been sent to the serial port, and the writes to other ports. -/
structure Report where
  screen : PanicScreen
  serial : List UInt8
  ports : List (UInt16 × UInt8)

/-- What `panic` reads, apart from the frames. -/
structure PanicKernel where
  (pitch height : UInt32)
  panicFont : PsfFile
  kernelSymbols : UInt64 → Symbol
  symbolCount : UInt64
  kernelOffset : UInt64
  /-- `currentThread->symbols` and `currentThread->symbolCount`. -/
  threadSymbols : Option ((UInt64 → Symbol) × UInt64)
  /-- The words of the FADT at `PANIC_ACPI_COMMAND` and `PANIC_ACPI_DISABLE`. -/
  acpiCommand : UInt32
  acpiDisable : UInt8

namespace PanicKernel

variable (k : PanicKernel) (memory : UInt64 → UInt64)

/-- `panicWrite(string)`. -/
def panicWrite (string : List UInt8) (r : Report) : Report :=
  { r with
    screen := PanicScreen.panicWrite k.pitch k.panicFont string r.screen
    serial := r.serial ++ string }

/-- `serialWrite(string)`. -/
def serialWrite (string : List UInt8) (r : Report) : Report := { r with serial := r.serial ++ string }

/-- The string that `toHex` writes. -/
def hexString (value : UInt64) (fuel : ℕ) : Option (List UInt8) :=
  (toHex 0 value ⟨fun _ => 0, []⟩ fuel).bind fun m =>
    (stringLengthAt m 0 fuel).map fun length => (List.range length).map m.cell

/-- A symbol and an offset. -/
def writeSymbol (symbols : UInt64 → Symbol) (count address : UInt64) (r : Report) (fuel : ℕ) : Option Report :=
  (getSymbol fuel symbols count address).bind fun s =>
    (hexString s.2 fuel).map fun offset =>
      k.panicWrite offset (k.panicWrite (ascii "+0x") (k.panicWrite s.1 r))

/-- The variables of the loop over the frames. -/
structure Frames where
  frame : UInt64
  report : Report

/-- The end of a turn: the address, and the step to the next frame. -/
def endFrame (frame address : UInt64) (r : Report) (fuel : ℕ) : Option (Frames ⊕ Report) :=
  (hexString address fuel).map fun text =>
    let r := k.panicWrite (ascii ")\n") (k.panicWrite text (k.panicWrite (ascii " (0x") r))
    let frame := memory frame
    if memory frame = 0 then .inr r else .inl ⟨frame, r⟩

/-- A turn of `while (frame)`. -/
def frameBody (fuel : ℕ) (s : Frames) : Option (Frames ⊕ Report) :=
  if s.frame = 0 then some (.inr s.report)
  else
    let address := memory (s.frame + 8) - callSize
    if processAddress ≤ address then
      (match k.threadSymbols with
        | some (symbols, count) => k.writeSymbol symbols count (address - processAddress) s.report fuel
        | none => some (k.panicWrite (ascii "Within a process") s.report)).bind fun r =>
        k.endFrame memory s.frame (address - processAddress) r fuel
    else if k.kernelOffset ≤ address then
      (k.writeSymbol k.kernelSymbols k.symbolCount (address - k.kernelOffset) s.report fuel).bind fun r =>
        k.endFrame memory s.frame (address - k.kernelOffset) r fuel
    else some (.inr (k.panicWrite (ascii "An error occured parsing the stack trace\n") s.report))

/-- The first text. -/
def announcement : List UInt8 :=
  ascii "KERNEL PANIC RUH ROH!!\n\nAs a wise man once said: \"So... what happend is:\"\n\n"

/-- The last text. -/
def closing : List UInt8 := ascii "\nAnyways have fun debugging this one NERRDD\n"

/-- The end of `panic`, after the frames. -/
def finish (r : Report) : Report :=
  let r := serialWrite (ascii "\x1b[0m") (k.panicWrite closing r)
  { r with ports := r.ports ++ [(k.acpiCommand.toUInt16, k.acpiDisable)] }

/-- `panic(exception, code)`, with the frame pointer in `rbp`, up to the instruction that halts. -/
def panic (exception : UInt8) (code : UInt32) (frame : UInt64) (r : Report) (fuel : ℕ) : Option Report :=
  let r := { r with
    screen := { r.screen with framebuffer := r.screen.framebuffer.fill 0 0 (k.pitch * k.height).toNat } }
  let r := serialWrite (ascii "\x1b[91m\n") r
  let r := k.panicWrite announcement r
  let r := k.panicWrite (ascii (exceptionAt exception).name) r
  let r := k.panicWrite (ascii " occured") r
  (if (exceptionAt exception).code then
    (hexString code.toUInt64 fuel).map fun text =>
      k.panicWrite text (k.panicWrite (ascii " with error code 0x") r)
    else some r).bind fun r =>
    (loop (k.frameBody memory) fuel ⟨frame, k.panicWrite (ascii " in:\n") r⟩).map k.finish

end PanicKernel

/-! ### The frame of `panic` -/

section Enter

variable {size : EntryInstr → ℕ} {vector : UInt8} {s : ExceptionEntry l}

theorem codeFrom_replicate (hsize : 0 < size .decb) (is : List EntryInstr) (i n : ℕ) :
    codeFrom size (List.replicate (i + n) .decb ++ is) (i * size .decb) =
      some (List.replicate n .decb ++ is) := by
  induction i with
  | zero => rw [Nat.zero_mul, Nat.zero_add, codeFrom]
  | succ i ih =>
    have hpos : (i + 1) * size .decb = ((i + 1) * size .decb - 1) + 1 := by
      have hmul : 1 ≤ (i + 1) * size .decb := Nat.mul_pos (Nat.succ_pos i) hsize
      omega
    rw [show i + 1 + n = i + n + 1 by omega, List.replicate_succ, List.cons_append, hpos, codeFrom, ← hpos,
      Nat.succ_mul, if_pos (Nat.le_add_left _ _), Nat.add_sub_cancel, ih]

theorem foldl_decb (n : ℕ) (s : ExceptionEntry l) :
    (List.replicate n .decb).foldl EntryInstr.step s =
      { s with exceptionNumber := s.exceptionNumber - .ofNat n } := by
  induction n generalizing s with
  | zero =>
    rw [List.replicate_zero, List.foldl_nil, show UInt8.ofNat 0 = 0 from rfl, UInt8.sub_zero]
  | succ n ih =>
    rw [List.replicate_succ, List.foldl_cons, ih, EntryInstr.step]
    have hsub : s.exceptionNumber - 1 - .ofNat n = s.exceptionNumber - .ofNat (n + 1) := by
      rw [UInt8.ofNat_add, show UInt8.ofNat 1 = 1 from rfl]
      grind
    rw [hsub]

/-- The table is that of the processor. -/
theorem exceptionAt_code : ∀ v < 32, (exceptionAt (.ofNat v)).code = pushesCode (.ofNat v) := by decide

/-- The words `ws` have been pushed below `top`. -/
structure Pushed (m : UInt64 → UInt64) (top : UInt64) (ws : List UInt64) (p : Processor l) : Prop where
  rsp : p.cpu.reg .rsp = top - 8 * .ofNat ws.length
  memory : p.memory = storeWords m (top - 8 * .ofNat ws.length) ws

theorem Pushed.push {m : UInt64 → UInt64} {top : UInt64} {ws : List UInt64} {p : Processor l}
    (h : Pushed m top ws p) (hlen : ws.length < 2 ^ 60) (v : UInt64) : Pushed m top (v :: ws) (p.push v) := by
  have hsub : p.cpu.reg .rsp - 8 = top - 8 * .ofNat (v :: ws).length := by
    rw [h.rsp, List.length_cons, UInt64.ofNat_add, show UInt64.ofNat 1 = 1 from rfl]
    grind
  refine ⟨(setReg_self ..).trans hsub, ?_⟩
  have hnext : top - 8 * .ofNat ws.length = top - 8 * .ofNat (v :: ws).length + 8 * .ofNat [v].length := by
    rw [← hsub, h.rsp, List.length_singleton, show UInt64.ofNat 1 = 1 from rfl]
    grind
  change Function.update p.memory (p.cpu.reg .rsp - 8) v = _
  rw [hsub, h.memory, hnext]
  have hfits : [v].length + ws.length ≤ 2 ^ 61 := by
    rw [List.length_singleton]
    omega
  exact storeWords_storeWords hfits

/-- The words are on the stack. -/
theorem Pushed.holds {m : UInt64 → UInt64} {top : UInt64} {ws : List UInt64} {p : Processor l}
    (h : Pushed m top ws p) (hlen : ws.length < 2 ^ 60) : Holds p.memory (p.cpu.reg .rsp) ws := by
  rw [h.memory, h.rsp]
  exact holds_storeWords (by omega)

theorem Pushed.toNat_rsp {m : UInt64 → UInt64} {top : UInt64} {ws : List UInt64} {p : Processor l}
    (h : Pushed m top ws p) (hroom : 8 * ws.length ≤ top.toNat) :
    (p.cpu.reg .rsp).toNat = top.toNat - 8 * ws.length := by
  have hlt := top.toNat_lt
  have hwords : (8 * UInt64.ofNat ws.length).toNat = 8 * ws.length := by
    rw [UInt64.toNat_mul, UInt64.toNat_ofNat', show (8 : UInt64).toNat = 8 from rfl]
    omega
  rw [h.rsp, UInt64.toNat_sub_of_le _ _ (by rw [UInt64.le_iff_toNat_le, hwords]; exact hroom), hwords]

/-- What is above the words is as it was. -/
theorem Pushed.above {m : UInt64 → UInt64} {top b : UInt64} {ws : List UInt64} {p : Processor l}
    (h : Pushed m top ws p) (hroom : 8 * ws.length ≤ top.toNat) (hb : top.toNat ≤ b.toNat) :
    p.memory b = m b := by
  have hrsp := h.toNat_rsp hroom
  have hlt := top.toNat_lt
  rw [h.memory, ← h.rsp]
  refine storeWords_of_notMem fun hmem => ?_
  have hrange := le_of_mem_block (by omega) hmem
  omega

theorem Pushed.congr {m : UInt64 → UInt64} {top : UInt64} {ws : List UInt64} {p q : Processor l}
    (h : Pushed m top ws p) (hrsp : q.cpu.reg .rsp = p.cpu.reg .rsp) (hmemory : q.memory = p.memory) :
    Pushed m top ws q := ⟨hrsp.trans h.rsp, hmemory.trans h.memory⟩

theorem pushed_interrupt (handler : UInt64) (p : Processor l) :
    Pushed p.memory (p.cpu.reg .rsp &&& ~~~0xF) (interruptFrame p.cpu) (interrupt handler p) :=
  ⟨(interrupt_frame handler rfl).1, (interrupt_frame handler rfl).2⟩

/-- The words that the processor pushes. -/
def raised (vector : UInt8) (code : UInt64) (c : Cpu l) : List UInt64 :=
  (if pushesCode vector then [code] else []) ++ interruptFrame c

theorem length_raised (vector : UInt8) (code : UInt64) (c : Cpu l) : (raised vector code c).length ≤ 6 := by
  rw [raised]
  split_ifs <;> simp [interruptFrame]

theorem pushed_raise (handler : UInt64) (vector : UInt8) (code : UInt64) (p : Processor l) :
    Pushed p.memory (p.cpu.reg .rsp &&& ~~~0xF) (raised vector code p.cpu) (raise handler vector code p) := by
  have hframe := pushed_interrupt handler p
  rw [raise, raised]
  split_ifs
  · exact hframe.push (by simp [interruptFrame]) code
  · exact hframe

theorem raise_reg (handler : UInt64) (vector : UInt8) (code : UInt64) (p : Processor l) {r : Reg} (hr : r ≠ .rsp) :
    (raise handler vector code p).cpu.reg r = p.cpu.reg r := by
  rw [raise]
  split_ifs
  · rw [Processor.push, setReg_of_ne _ hr, interrupt_reg _ _ hr]
  · exact interrupt_reg _ _ hr

/-- `codeA` and `codeB` are the words on top of the stack. -/
theorem foldl_save (s : ExceptionEntry l) :
    [EntryInstr.saveA, .saveB].foldl EntryInstr.step s =
      { s with
        processor := { s.processor with
          cpu := (s.processor.cpu.setReg .rax (s.processor.memory (s.processor.cpu.reg .rsp))).setReg .rax
            (s.processor.memory (s.processor.cpu.reg .rsp + 8)) }
        codeA := s.processor.memory (s.processor.cpu.reg .rsp)
        codeB := s.processor.memory (s.processor.cpu.reg .rsp + 8) } := rfl

/-- What has been pushed when `panic` begins: the second word is where a call would push its return
address. -/
def panicFrame (vector : UInt8) (code : UInt64) (c : Cpu l) : List UInt64 :=
  c.reg .rbp :: (c.rip + callSize) :: raised vector code c

theorem isr_eq {m : UInt64 → UInt64} {top : UInt64} {ws : List UInt64} (hlen : ws.length ≤ 6)
    (h : Pushed m top ws s.processor) :
    (isr s).cpu.reg .rdi = s.exceptionNumber.toUInt64 ∧
      ((exceptionAt s.exceptionNumber).code = true → (isr s).cpu.reg .rsi = s.codeA) ∧
      (isr s).cpu.reg .rbp = (isr s).cpu.reg .rsp ∧
      Pushed m top (s.processor.cpu.reg .rbp ::
        ((if (exceptionAt s.exceptionNumber).code then s.codeB else s.codeA) + callSize) :: ws) (isr s) := by
  by_cases hcode : (exceptionAt s.exceptionNumber).code = true
  · have hargs : Pushed m top ws { s.processor with
        cpu := (s.processor.cpu.setReg .rdi s.exceptionNumber.toUInt64).setReg .rsi s.codeA } :=
      h.congr rfl rfl
    have hpushed := (hargs.push (by omega) (s.codeB + callSize)).push
      (by rw [List.length_cons]; omega) (s.processor.cpu.reg .rbp)
    rw [isr]
    simp only [hcode, if_true]
    exact ⟨rfl, fun _ => rfl, rfl, hpushed.congr rfl rfl⟩
  · have hargs : Pushed m top ws { s.processor with
        cpu := s.processor.cpu.setReg .rdi s.exceptionNumber.toUInt64 } := h.congr rfl rfl
    have hpushed := (hargs.push (by omega) (s.codeA + callSize)).push
      (by rw [List.length_cons]; omega) (s.processor.cpu.reg .rbp)
    rw [isr]
    rw [Bool.not_eq_true] at hcode
    simp only [hcode, Bool.false_eq_true, if_false]
    exact ⟨rfl, fun h => h.elim, rfl, hpushed.congr rfl rfl⟩

/-- **The frame of `panic`.** -/
theorem enterPanic_eq (hsize : 0 < size .decb) (exception code : UInt64) (hv : vector < 32)
    (hnumber : s.exceptionNumber = 31) :
    ∃ p, enterPanic size exception vector code s = some p ∧
      p.cpu.reg .rdi = vector.toUInt64 ∧ (pushesCode vector = true → p.cpu.reg .rsi = code) ∧
      p.cpu.reg .rbp = p.cpu.reg .rsp ∧
      Pushed s.processor.memory (s.processor.cpu.reg .rsp &&& ~~~0xF)
        (panicFrame vector code s.processor.cpu) p := by
  have hlt : vector.toNat < 32 := UInt8.lt_iff_toNat_lt.1 hv
  have hcode : (exceptionAt vector).code = pushesCode vector := by
    have htable := exceptionAt_code vector.toNat hlt
    rwa [UInt8.ofNat_toNat] at htable
  have hleft : (31 : UInt8) - .ofNat (31 - vector.toNat) = vector := by
    rw [← UInt8.toNat_inj, UInt8.toNat_sub_of_le _ _ (by
      rw [UInt8.le_iff_toNat_le, UInt8.toNat_ofNat', show (31 : UInt8).toNat = 31 from rfl]
      omega), UInt8.toNat_ofNat', show (31 : UInt8).toNat = 31 from rfl]
    omega
  have hfrom : codeFrom size exceptionBody (vector.toNat * size .decb) =
      some (List.replicate (31 - vector.toNat) .decb ++ [.saveA, .saveB]) := by
    have h := codeFrom_replicate hsize [.saveA, .saveB] vector.toNat (31 - vector.toNat)
    rwa [show vector.toNat + (31 - vector.toNat) = 31 by omega] at h
  refine ⟨_, by rw [enterPanic, hfrom, Option.map_some], ?_⟩
  rw [List.foldl_append, foldl_decb]
  dsimp only
  rw [hnumber, hleft]
  have hpushed := pushed_raise (exception + .ofNat (vector.toNat * size .decb)) vector code s.processor
  have hrbp := raise_reg (exception + .ofNat (vector.toNat * size .decb)) vector code s.processor
    (r := .rbp) (by decide)
  generalize raise (exception + .ofNat (vector.toNat * size .decb)) vector code s.processor = p at hpushed hrbp
  have hholds := hpushed.holds (by have hlen := length_raised vector code s.processor.cpu; omega)
  rw [foldl_save]
  dsimp only
  obtain ⟨hrdi, hrsi, hframe, hwords⟩ := isr_eq (s := ⟨{ p with
    cpu := (p.cpu.setReg .rax (p.memory (p.cpu.reg .rsp))).setReg .rax (p.memory (p.cpu.reg .rsp + 8)) },
    vector, p.memory (p.cpu.reg .rsp), p.memory (p.cpu.reg .rsp + 8)⟩)
    (length_raised vector code s.processor.cpu) (hpushed.congr rfl rfl)
  refine ⟨hrdi, fun hpushes => ?_, hframe, ?_⟩
  · rw [hrsi (hcode.trans hpushes)]
    rw [raised, if_pos hpushes] at hholds
    exact (holds_cons.1 hholds).1
  · have hrip : (if (exceptionAt vector).code then p.memory (p.cpu.reg .rsp + 8)
        else p.memory (p.cpu.reg .rsp)) = s.processor.cpu.rip := by
      rw [hcode]
      rw [raised] at hholds
      split_ifs at hholds ⊢ with hpushes
      · exact (holds_cons.1 (holds_cons.1 hholds).2).1
      · exact (holds_cons.1 hholds).1
    have hbase : ((p.cpu.setReg .rax (p.memory (p.cpu.reg .rsp))).setReg .rax
        (p.memory (p.cpu.reg .rsp + 8))).reg .rbp = s.processor.cpu.reg .rbp := hrbp
    dsimp only at hwords
    rw [hrip, hbase] at hwords
    exact hwords

end Enter

/-! ### Strings and symbols -/

theorem PanicScreen.panicWrite_append (pitch : UInt32) (panicFont : PsfFile) (a b : List UInt8)
    (s : PanicScreen) :
    panicWrite pitch panicFont (a ++ b) s = panicWrite pitch panicFont b (panicWrite pitch panicFont a s) := by
  induction a generalizing s with
  | nil => rfl
  | cons c a ih => rw [List.cons_append, panicWrite, panicWrite, ih]

/-- The first entry with the least distance below the address, modulo `2 ^ 64`. -/
structure Nearest (symbols : UInt64 → Symbol) (count address i : UInt64) : Prop where
  lt_count : i < count
  le : ∀ j < count, address - (symbols i).address ≤ address - (symbols j).address
  first : ∀ j < i, address - (symbols i).address < address - (symbols j).address

/-- If there is a symbol at or below the address, it is the greatest of those. -/
theorem Nearest.floor {symbols : UInt64 → Symbol} {count address i j : UInt64}
    (h : Nearest symbols count address i) (hj : j < count) (hle : (symbols j).address ≤ address) :
    (symbols i).address ≤ address ∧ (symbols j).address ≤ (symbols i).address := by
  have hbest := UInt64.le_iff_toNat_le.1 (h.le j hj)
  rw [toNat_difference hle] at hbest
  have hbelow : (symbols i).address ≤ address := by
    by_contra habove
    have hwraps := lt_difference (UInt64.not_le.1 habove)
    omega
  refine ⟨hbelow, ?_⟩
  rw [toNat_difference hbelow] at hbest
  rw [UInt64.le_iff_toNat_le] at hle hbelow ⊢
  omega

theorem settles_getSymbol {symbols : UInt64 → Symbol} {count : UInt64} (hpos : 0 < count) (address : UInt64) :
    ∃ i, Nearest symbols count address i ∧
      Settles (fun n => getSymbol n symbols count address)
        ((symbols i).name, address - (symbols i).address) := by
  obtain ⟨fuel, r, hrun⟩ := WhileLoop.run_total (fun s : Closest => count.toNat - s.i.toNat)
    (fun s s' hs hturn => Smallest.turn hs hturn) (smallest_start symbols count address)
  obtain ⟨i, hi, rfl, hle, hfirst⟩ := WhileLoop.run_invariant
    (fun s s' hs hturn => (Smallest.turn hs hturn).1) (fun s r hs hturn => hs.exit hpos hturn)
    (smallest_start symbols count address) hrun
  exact ⟨i, ⟨hi, hle, hfirst⟩, Returns.settles (steady_run _ _) ⟨fuel, hrun⟩⟩

/-- **The offset is where the kernel has been loaded.** -/
theorem returns_initSymbols {symbols : UInt64 → Symbol} {n base : UInt64}
    (hname : (symbols n).name = ascii "initSymbols")
    (hfirst : ∀ j < n, 0 ∉ (symbols j).name ∧ (symbols j).name ≠ ascii "initSymbols") :
    Returns (initSymbols symbols (base + (symbols n).address)) base := by
  have hnul : 0 ∉ ascii "initSymbols" := by
    rw [ascii]
    decide
  refine ⟨n.toNat + 1, WhileLoop.run_of_turns (fun i => UInt64.ofNat i) (fun i hi => ?_) ?_⟩
  · have hlt : UInt64.ofNat i < n := by
      have hn := n.toNat_lt
      rw [UInt64.lt_iff_toNat_lt, UInt64.toNat_ofNat']
      omega
    obtain ⟨hfree, hother⟩ := hfirst _ hlt
    rw [offsetTurn, if_neg ((compareStrings_eq_zero hfree hnul).not.2 hother), UInt64.ofNat_add]
    rfl
  · rw [UInt64.ofNat_toNat, offsetTurn, if_pos ((compareStrings_eq_zero (hname ▸ hnul) hnul).2 hname),
      UInt64.add_sub_cancel]

theorem steady_writeNumeral (base : UInt64) (character : UInt64 → UInt8) (string : ℕ) (value : UInt64)
    (m : Cells UInt8) : Steady (writeNumeral base character string value m) :=
  steady_bind (steady_run _ _) fun _ => steady_reverseString _ _

namespace PanicKernel

variable {k : PanicKernel} {m : UInt64 → UInt64} {as : List UInt64}

theorem steady_hexString (value : UInt64) : Steady (hexString value) :=
  steady_bind (steady_writeNumeral ..) fun m => steady_map (steady_stringLengthAt m 0) _

theorem settles_hexString (value : UInt64) : Settles (hexString value) (hexText value) := by
  obtain ⟨m, hreturns, hstring, -⟩ := returns_toHex 0 value ⟨fun _ => 0, []⟩
  have htext : (List.range (hexText value).length).map m.cell = hexText value := by
    apply List.ext_getElem
    · rw [List.length_map, List.length_range]
    · intro i hi hi'
      have hcell := hstring.cell hi'
      rw [Nat.zero_add] at hcell
      rw [List.getElem_map, List.getElem_range, hcell]
  have hread := (hstring.returns_stringLengthAt.settles (steady_stringLengthAt m 0)).map
    fun length => (List.range length).map m.cell
  rw [htext] at hread
  exact (hreturns.settles (steady_writeNumeral ..)).bind hread

theorem panicWrite_panicWrite (k : PanicKernel) (a b : List UInt8) (r : Report) :
    k.panicWrite b (k.panicWrite a r) = k.panicWrite (a ++ b) r := by
  rw [panicWrite, panicWrite, panicWrite, PanicScreen.panicWrite_append, List.append_assoc]

/-! ### The report of a chain of frames -/

/-- The frames from `f` on, above `low`, with their return addresses. -/
def Chain (m : UInt64 → UInt64) (low : UInt64) : UInt64 → List UInt64 → Prop
  | f, [] => f = 0
  | f, a :: as => f ≠ 0 ∧ low ≤ f ∧ f.toNat + 16 ≤ 2 ^ 64 ∧ m (f + 8) = a ∧ Chain m low (m f) as

/-- The addresses that are reported: those of the calls, without the outermost. -/
def reported (as : List UInt64) : List UInt64 :=
  (if as.length ≤ 1 then as else as.dropLast).map (· - callSize)

/-- `" (0x"`, an address and the end of the line. -/
def addressText (address : UInt64) : List UInt8 := ascii " (0x" ++ hexText address ++ ascii ")\n"

/-- A symbol with an offset. -/
def symbolText (name : List UInt8) (offset : UInt64) : List UInt8 := name ++ ascii "+0x" ++ hexText offset

/-- The line for an address in a process or in the kernel. -/
inductive Line (k : PanicKernel) : UInt64 → List UInt8 → Prop
  | unnamed {address : UInt64} : processAddress ≤ address → k.threadSymbols = none →
    Line k address (ascii "Within a process" ++ addressText (address - processAddress))
  | process {address i count : UInt64} {symbols : UInt64 → Symbol} : processAddress ≤ address →
    k.threadSymbols = some (symbols, count) → Nearest symbols count (address - processAddress) i →
    Line k address (symbolText (symbols i).name (address - processAddress - (symbols i).address) ++
      addressText (address - processAddress))
  | kernel {address i : UInt64} : address < processAddress → k.kernelOffset ≤ address →
    Nearest k.kernelSymbols k.symbolCount (address - k.kernelOffset) i →
    Line k address (symbolText (k.kernelSymbols i).name
        (address - k.kernelOffset - (k.kernelSymbols i).address) ++
      addressText (address - k.kernelOffset))

/-- The lines for some addresses, up to one that lies below the kernel. -/
inductive Trace (k : PanicKernel) : List UInt64 → List UInt8 → Prop
  | nil : Trace k [] []
  | line {a : UInt64} {as : List UInt64} {text rest : List UInt8} : Line k a text → Trace k as rest →
    Trace k (a :: as) (text ++ rest)
  | stop {a : UInt64} {as : List UInt64} : a < processAddress → a < k.kernelOffset →
    Trace k (a :: as) (ascii "An error occured parsing the stack trace\n")

/-- The tables of symbols are not empty. -/
structure Named (k : PanicKernel) : Prop where
  kernel : 0 < k.symbolCount
  process : ∀ symbols count, k.threadSymbols = some (symbols, count) → 0 < count

theorem steady_writeSymbol (symbols : UInt64 → Symbol) (count address : UInt64) (r : Report) :
    Steady (k.writeSymbol symbols count address r) :=
  steady_bind (steady_run _ _) fun s => steady_map (steady_hexString s.2) _

theorem steady_endFrame (m : UInt64 → UInt64) (frame address : UInt64) (r : Report) : Steady (k.endFrame m frame address r) :=
  steady_map (steady_hexString address) _

theorem steady_frameBody (k : PanicKernel) (m : UInt64 → UInt64) (s : Frames) :
    Steady fun n => k.frameBody m n s := by
  refine steady_ite (steady_some _) (steady_ite (steady_bind ?_ fun r => steady_endFrame ..)
    (steady_ite (steady_bind (steady_writeSymbol ..) fun r => steady_endFrame ..) (steady_some _)))
  cases k.threadSymbols with
  | none => exact steady_some _
  | some t => exact steady_writeSymbol ..

theorem settles_writeSymbol {symbols : UInt64 → Symbol} {count : UInt64} (hpos : 0 < count) (address : UInt64)
    (r : Report) :
    ∃ i, Nearest symbols count address i ∧ Settles (k.writeSymbol symbols count address r)
      (k.panicWrite (symbolText (symbols i).name (address - (symbols i).address)) r) := by
  obtain ⟨i, hi, hsymbol⟩ := settles_getSymbol hpos address
  refine ⟨i, hi, ?_⟩
  have htext : k.panicWrite (hexText (address - (symbols i).address))
      (k.panicWrite (ascii "+0x") (k.panicWrite (symbols i).name r)) =
      k.panicWrite (symbolText (symbols i).name (address - (symbols i).address)) r := by
    rw [panicWrite_panicWrite, panicWrite_panicWrite, symbolText, List.append_assoc]
  have hoffset := (settles_hexString (address - (symbols i).address)).map fun offset =>
    k.panicWrite offset (k.panicWrite (ascii "+0x") (k.panicWrite (symbols i).name r))
  rw [← htext]
  exact Settles.bind (g := fun s n => (hexString s.2 n).map fun offset =>
    k.panicWrite offset (k.panicWrite (ascii "+0x") (k.panicWrite s.1 r))) hsymbol hoffset

/-- What a turn leads to after the line for its frame. -/
def nextFrame (m : UInt64 → UInt64) (frame : UInt64) (r : Report) : Frames ⊕ Report :=
  if m (m frame) = 0 then .inr r else .inl ⟨m frame, r⟩

theorem settles_endFrame (m : UInt64 → UInt64) (frame address : UInt64) (r : Report) :
    Settles (k.endFrame m frame address r) (nextFrame m frame (k.panicWrite (addressText address) r)) := by
  have h := (settles_hexString address).map fun text =>
    nextFrame m frame (k.panicWrite (ascii ")\n") (k.panicWrite text (k.panicWrite (ascii " (0x") r)))
  rw [panicWrite_panicWrite, panicWrite_panicWrite, ← List.append_assoc] at h
  exact h

/-- **A turn of the loop**: it writes the line for the address, or it leaves the loop. -/
theorem settles_frameBody (hk : k.Named) {f a : UInt64} (hf : f ≠ 0) (ha : m (f + 8) = a) (r : Report) :
    (∃ text, k.Line (a - callSize) text ∧
        Settles (fun n => k.frameBody m n ⟨f, r⟩) (nextFrame m f (k.panicWrite text r))) ∨
      a - callSize < processAddress ∧ a - callSize < k.kernelOffset ∧
        Settles (fun n => k.frameBody m n ⟨f, r⟩)
          (.inr (k.panicWrite (ascii "An error occured parsing the stack trace\n") r)) := by
  subst ha
  have hbody : ∀ {g : ℕ → Option Report} {text : List UInt8} {address : UInt64},
      Settles g (k.panicWrite text r) →
      (∀ n, k.frameBody m n ⟨f, r⟩ = (g n).bind fun r => k.endFrame m f address r n) →
      Settles (fun n => k.frameBody m n ⟨f, r⟩)
        (nextFrame m f (k.panicWrite (text ++ addressText address) r)) := by
    intro g text address hg heq
    have h := Settles.bind (g := fun r n => k.endFrame m f address r n) hg (settles_endFrame m f address _)
    rw [panicWrite_panicWrite] at h
    simpa only [heq] using h
  by_cases hprocess : processAddress ≤ m (f + 8) - callSize
  · left
    cases hsymbols : k.threadSymbols with
    | none =>
      refine ⟨_, .unnamed hprocess hsymbols, hbody (settles_some _) fun n => ?_⟩
      simp only [frameBody, if_neg hf, if_pos hprocess, hsymbols]
    | some t =>
      obtain ⟨symbols, count⟩ := t
      obtain ⟨i, hi, hwrite⟩ := settles_writeSymbol (hk.process symbols count hsymbols)
        (m (f + 8) - callSize - processAddress) r
      refine ⟨_, .process hprocess hsymbols hi, hbody hwrite fun n => ?_⟩
      simp only [frameBody, if_neg hf, if_pos hprocess, hsymbols]
  · rw [UInt64.not_le] at hprocess
    by_cases hkernel : k.kernelOffset ≤ m (f + 8) - callSize
    · left
      obtain ⟨i, hi, hwrite⟩ := settles_writeSymbol (k := k) hk.kernel
        (m (f + 8) - callSize - k.kernelOffset) r
      refine ⟨_, .kernel hprocess hkernel hi, hbody hwrite fun n => ?_⟩
      simp only [frameBody, if_neg hf, if_neg (UInt64.not_le.2 hprocess), if_pos hkernel]
    · refine Or.inr ⟨hprocess, UInt64.not_le.1 hkernel, 0, fun n _ => ?_⟩
      simp only [frameBody, if_neg hf, if_neg (UInt64.not_le.2 hprocess), if_neg hkernel]

theorem reported_cons {a b c : UInt64} : reported (a :: b :: c :: as) = (a - callSize) :: reported (b :: c :: as) := by
  simp [reported]

/-- **The lines of a chain of frames.** -/
theorem returns_frames (hk : k.Named) {low f : UInt64} (hchain : Chain m low f as) (r : Report) :
    ∃ text, k.Trace (reported as) text ∧
      Returns (fun n => loop (k.frameBody m) n ⟨f, r⟩) (k.panicWrite text r) := by
  have hnil : ∀ r, Returns (fun n => loop (k.frameBody m) n ⟨0, r⟩) r := fun r =>
    returns_loop_inr ⟨0, if_pos rfl⟩
  induction as generalizing f r with
  | nil =>
    obtain rfl : f = 0 := hchain
    refine ⟨[], .nil, ?_⟩
    rw [show k.panicWrite [] r = r by rw [panicWrite, List.append_nil]; rfl]
    exact hnil r
  | cons a as ih =>
    obtain ⟨hf, -, -, ha, hrest⟩ := hchain
    obtain ⟨text, hline, hbody⟩ | ⟨hprocess, hkernel, hbody⟩ := settles_frameBody hk hf ha r
    · cases as with
      | nil =>
        -- the only frame is the outermost: `frame->next` is read at address 0, and either way the loop ends
        have hzero : m f = 0 := hrest
        rw [nextFrame, hzero] at hbody
        refine ⟨text ++ [], .line hline .nil, ?_⟩
        rw [List.append_nil]
        split_ifs at hbody
        · exact returns_loop_inr hbody.returns
        · exact (returns_loop_inl (steady_frameBody k m) hbody.returns).2 (hnil _)
      | cons b as =>
        have hnext := hrest.2.2.2.2
        cases as with
        | nil =>
          have hzero : m (m f) = 0 := hnext
          rw [nextFrame, if_pos hzero] at hbody
          refine ⟨text ++ [], .line hline .nil, ?_⟩
          rw [List.append_nil]
          exact returns_loop_inr hbody.returns
        | cons c as =>
          rw [nextFrame, if_neg hnext.1] at hbody
          obtain ⟨rest, htrace, hreturns⟩ := ih hrest (k.panicWrite text r)
          rw [panicWrite_panicWrite] at hreturns
          refine ⟨text ++ rest, reported_cons ▸ .line hline htrace, ?_⟩
          exact (returns_loop_inl (steady_frameBody k m) hbody.returns).2 hreturns
    · refine ⟨_, ?_, returns_loop_inr hbody.returns⟩
      obtain ⟨rest, hrest⟩ : ∃ rest, reported (a :: as) = (a - callSize) :: rest := by
        rcases as with - | ⟨b, - | ⟨c, as⟩⟩
        · exact ⟨_, rfl⟩
        · exact ⟨_, rfl⟩
        · exact ⟨_, reported_cons⟩
      rw [hrest]
      exact .stop hprocess hkernel

/-- What `panic` writes before the frames. -/
def heading (exception : UInt8) (code : UInt32) : List UInt8 :=
  announcement ++ ascii (exceptionAt exception).name ++ ascii " occured" ++
    (if (exceptionAt exception).code then ascii " with error code 0x" ++ hexText code.toUInt64 else []) ++
    ascii " in:\n"

/-- A report with the given text, on the screen and between escape sequences on the serial port. -/
def complete (k : PanicKernel) (text : List UInt8) (r : Report) : Report where
  screen := PanicScreen.panicWrite k.pitch k.panicFont text
    { r.screen with framebuffer := r.screen.framebuffer.fill 0 0 (k.pitch * k.height).toNat }
  serial := r.serial ++ ascii "\x1b[91m\n" ++ text ++ ascii "\x1b[0m"
  ports := r.ports ++ [(k.acpiCommand.toUInt16, k.acpiDisable)]

/-- Only the memory from `low` on matters. -/
theorem Chain.congr {m' : UInt64 → UInt64} {low low' f : UInt64} (hlow : low' ≤ low)
    (hsame : ∀ b, low ≤ b → m' b = m b) (h : Chain m low f as) : Chain m' low' f as := by
  induction as generalizing f with
  | nil => exact h
  | cons a as ih =>
    obtain ⟨hf, hle, hfits, ha, hrest⟩ := h
    have hnext : low ≤ f + 8 := by
      rw [UInt64.le_iff_toNat_le] at hle ⊢
      rw [UInt64.toNat_add, show (8 : UInt64).toNat = 8 from rfl]
      omega
    refine ⟨hf, UInt64.le_trans hlow hle, hfits, (hsame _ hnext).trans ha, ?_⟩
    rw [hsame f hle]
    exact ih hrest

theorem reported_call (rip : UInt64) (as : List UInt64) :
    reported ((rip + callSize) :: as) = rip :: as.dropLast.map (· - callSize) := by
  have hsub : rip + callSize - callSize = rip := UInt64.add_sub_cancel _ _
  cases as with
  | nil => simp [reported, hsub]
  | cons a as => simp [reported, hsub]

/-- The heading has a code only where there is one. -/
theorem heading_congr {exception : UInt8} {code code' : UInt32}
    (h : (exceptionAt exception).code = true → code = code') : heading exception code = heading exception code' := by
  rw [heading, heading]
  split_ifs with hcode
  · rw [h hcode]
  · rfl

/-- **The report of a chain of frames.** -/
theorem returns_panic (hk : k.Named) {low frame : UInt64} (hchain : Chain m low frame as) (exception : UInt8)
    (code : UInt32) (r : Report) :
    ∃ text, k.Trace (reported as) text ∧
      Returns (k.panic m exception code frame r) (k.complete (heading exception code ++ text ++ closing) r) := by
  -- the code is written with the words before it, or nothing is
  have hcode : ∀ r, Settles (fun n => if (exceptionAt exception).code then
      (hexString code.toUInt64 n).map fun text =>
        k.panicWrite text (k.panicWrite (ascii " with error code 0x") r) else some r)
      (k.panicWrite (if (exceptionAt exception).code then
        ascii " with error code 0x" ++ hexText code.toUInt64 else []) r) := by
    intro r
    by_cases h : (exceptionAt exception).code = true
    · have hhex := (settles_hexString code.toUInt64).map fun text =>
        k.panicWrite text (k.panicWrite (ascii " with error code 0x") r)
      simp only [h, if_true]
      rwa [← panicWrite_panicWrite]
    · rw [Bool.not_eq_true] at h
      simp only [h, Bool.false_eq_true, if_false]
      rw [show k.panicWrite [] r = r by rw [panicWrite, List.append_nil]; rfl]
      exact settles_some r
  obtain ⟨text, htrace, hframes⟩ := returns_frames hk hchain (k.panicWrite (heading exception code)
    (serialWrite (ascii "\x1b[91m\n") { r with
      screen := { r.screen with framebuffer := r.screen.framebuffer.fill 0 0 (k.pitch * k.height).toNat } }))
  have hcomplete : k.complete (heading exception code ++ text ++ closing) r = k.finish (k.panicWrite text
      (k.panicWrite (heading exception code) (serialWrite (ascii "\x1b[91m\n") { r with
        screen := { r.screen with
          framebuffer := r.screen.framebuffer.fill 0 0 (k.pitch * k.height).toNat } }))) := by
    rw [finish, panicWrite_panicWrite, panicWrite_panicWrite, ← List.append_assoc]
    rfl
  have hheading : ∀ r, k.panicWrite (heading exception code) r =
      k.panicWrite (ascii " in:\n") (k.panicWrite (if (exceptionAt exception).code then
        ascii " with error code 0x" ++ hexText code.toUInt64 else []) (k.panicWrite (ascii " occured")
          (k.panicWrite (ascii (exceptionAt exception).name) (k.panicWrite announcement r)))) := by
    intro r
    rw [panicWrite_panicWrite, panicWrite_panicWrite, panicWrite_panicWrite, panicWrite_panicWrite, heading]
    simp only [List.append_assoc]
  have hloop := (hframes.settles (steady_loop (steady_frameBody k m) _)).map k.finish
  rw [← hcomplete, hheading] at hloop
  have hall := (hcode _).bind
    (g := fun r n => (loop (k.frameBody m) n ⟨frame, k.panicWrite (ascii " in:\n") r⟩).map k.finish) hloop
  exact ⟨text, htrace, hall.returns⟩

/-- The frame of `panic` comes before those of the interrupted code. -/
theorem chain_panicFrame {m : UInt64 → UInt64} {c : Cpu l} {p : Processor l} {vector : UInt8} {code : UInt64}
    {as : List UInt64} (h : Pushed m (c.reg .rsp &&& ~~~0xF) (panicFrame vector code c) p)
    (hstack : 64 < (c.reg .rsp &&& ~~~0xF)) (hchain : Chain m (c.reg .rsp) (c.reg .rbp) as) :
    Chain p.memory (p.cpu.reg .rsp) (p.cpu.reg .rsp) ((c.rip + callSize) :: as) := by
  have hlen : (panicFrame vector code c).length ≤ 8 :=
    Nat.succ_le_succ (Nat.succ_le_succ (length_raised vector code c))
  have hpos : 2 ≤ (panicFrame vector code c).length := Nat.succ_le_succ (Nat.succ_le_succ (Nat.zero_le _))
  have htop : (c.reg .rsp &&& ~~~0xF).toNat ≤ (c.reg .rsp).toNat := by
    rw [UInt64.toNat_and]
    exact Nat.and_le_left
  have hroom : 64 < (c.reg .rsp &&& ~~~0xF).toNat := UInt64.lt_iff_toNat_lt.1 hstack
  have hlt := (c.reg .rsp).toNat_lt
  have hrsp := h.toNat_rsp (by omega)
  obtain ⟨hnext, hrest⟩ := holds_cons.1 (h.holds (by omega))
  refine ⟨fun hzero => ?_, UInt64.le_refl _, by omega, (holds_cons.1 hrest).1, ?_⟩
  · rw [hzero, show (0 : UInt64).toNat = 0 from rfl] at hrsp
    omega
  · rw [hnext]
    refine hchain.congr (UInt64.le_iff_toNat_le.2 (by omega)) fun b hb => ?_
    rw [UInt64.le_iff_toNat_le] at hb
    exact h.above (by omega) (by omega)

end PanicKernel

/-- **An exception is reported.** The instruction at which it happened is the first address of the trace,
before the calls that led there. -/
theorem exception_reported {size : EntryInstr → ℕ} (hsize : 0 < size .decb) (exception code : UInt64)
    {vector : UInt8} (hv : vector < 32) {s : ExceptionEntry l} (hnumber : s.exceptionNumber = 31)
    (hstack : 64 < (s.processor.cpu.reg .rsp &&& ~~~0xF)) {as : List UInt64}
    (hchain : PanicKernel.Chain s.processor.memory (s.processor.cpu.reg .rsp) (s.processor.cpu.reg .rbp) as)
    {k : PanicKernel} (hk : k.Named) (r : Report) :
    ∃ p text, enterPanic size exception vector code s = some p ∧
      k.Trace (s.processor.cpu.rip :: as.dropLast.map (· - callSize)) text ∧
      Returns (k.panic p.memory (p.cpu.reg .rdi).toUInt8 (p.cpu.reg .rsi).toUInt32 (p.cpu.reg .rbp) r)
        (k.complete (PanicKernel.heading vector code.toUInt32 ++ text ++ PanicKernel.closing) r) := by
  obtain ⟨p, hp, hrdi, hrsi, hrbp, hpushed⟩ := enterPanic_eq hsize exception code hv hnumber
  have hall := PanicKernel.chain_panicFrame hpushed hstack hchain
  rw [← hrbp] at hall
  obtain ⟨text, htrace, hreturns⟩ := PanicKernel.returns_panic hk hall (p.cpu.reg .rdi).toUInt8
    (p.cpu.reg .rsi).toUInt32 r
  rw [PanicKernel.reported_call] at htrace
  refine ⟨p, text, hp, htrace, ?_⟩
  have hvector : (p.cpu.reg .rdi).toUInt8 = vector := by
    rw [hrdi]
    exact UInt8.toUInt8_toUInt64 vector
  have hcode : (exceptionAt vector).code = true → (p.cpu.reg .rsi).toUInt32 = code.toUInt32 := by
    intro hcode
    have htable := exceptionAt_code vector.toNat (UInt8.lt_iff_toNat_lt.1 hv)
    rw [UInt8.ofNat_toNat, hcode] at htable
    rw [hrsi htable.symm]
  rw [hvector] at hreturns ⊢
  rwa [PanicKernel.heading_congr hcode] at hreturns

/-- A frame at 0x1000, called from the frame at 0x1020. -/
def twoFrames (b : UInt64) : UInt64 :=
  if b = 0x1000 then 0x1020 else if b = 0x1008 then 0x305 else 0

/-- A kernel at 0x200 with one symbol. -/
def oneSymbol : PanicKernel where
  pitch := 0
  height := 0
  panicFont := ⟨0, 0, 0, fun _ => 0⟩
  kernelSymbols _ := ⟨0x10, [102]⟩
  symbolCount := 1
  kernelOffset := 0x200
  threadSymbols := none
  acpiCommand := 0xB2
  acpiDisable := 0xF1

/-- A processor in a function that was called from 0x300. -/
def faulting : ExceptionEntry .noAvx2 where
  processor :=
    { cpu :=
        { reg := fun r => if r = .rbp then 0x1000 else 0xF00
          rip := 0x250
          rflags := 0
          cs := 0
          ss := 0
          cr3 := 0
          vector := fun _ _ => 0 }
      memory := twoFrames }
  exceptionNumber := 31
  codeA := 0
  codeB := 0

/-- A page fault. -/
theorem exception_reported_pageFault :
    ∃ p text, enterPanic (fun _ => 6) 0x400 14 2 faulting = some p ∧
      oneSymbol.Trace [0x250, 0x300] text ∧
      Returns (oneSymbol.panic p.memory (p.cpu.reg .rdi).toUInt8 (p.cpu.reg .rsi).toUInt32 (p.cpu.reg .rbp)
          ⟨⟨⟨fun _ => 0, []⟩, 0, 0, []⟩, [], []⟩)
        (oneSymbol.complete (PanicKernel.heading 14 2 ++ text ++ PanicKernel.closing)
          ⟨⟨⟨fun _ => 0, []⟩, 0, 0, []⟩, [], []⟩) := by
  have hchain : PanicKernel.Chain twoFrames 0xF00 0x1000 [0x305, 0] :=
    ⟨by decide, by decide, by decide, rfl, by decide, by decide, by decide, rfl, rfl⟩
  have hnamed : oneSymbol.Named := ⟨by decide, fun _ _ h => by cases h⟩
  exact @exception_reported .noAvx2 (fun _ => 6) (by decide) 0x400 2 14 (by decide) faulting rfl (by decide)
    _ hchain oneSymbol hnamed _

end Naul
