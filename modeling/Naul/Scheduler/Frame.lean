import Naul.Lib.Stack

/-!
# The frame of a suspended thread (`include/scheduler.h`)

The macros of `scheduler.h` as instruction lists, and a processor that executes them. An interrupt
aligns `rsp` and pushes five words; `skipThread` and `updateScheduler` push the registers, with `rsp` in
the middle of them, store the vector registers below and push CR3; `nextThread` loads all of it again.
Vector registers have four words, or two where `NO_AVX2` is defined.

`frame` is what lies on the stack afterwards, from the lowest address. `saved_skipThread` says that the
handlers leave the frame of the interrupted processor, and `exec_nextThread` that `nextThread` loads the
processor whose frame it finds, whatever its own registers are.
-/

namespace Naul

open Stack

/-- A general register. -/
inductive Reg
  | rax | rbx | rcx | rdx | rsi | rdi | rbp | rsp
  | r8 | r9 | r10 | r11 | r12 | r13 | r14 | r15
  deriving DecidableEq

/-- Whether `NO_AVX2` is defined. -/
inductive Layout
  | avx2
  | noAvx2

/-- The words of a vector register. -/
def Layout.words : Layout → ℕ
  | .avx2 => 4
  | .noAvx2 => 2

/-- The bytes of a vector register. -/
def Layout.bytes : Layout → UInt64
  | .avx2 => 32
  | .noAvx2 => 16

/-- The registers of a processor that a switch of threads is about. -/
@[ext] structure Cpu (l : Layout) where
  reg : Reg → UInt64
  rip : UInt64
  rflags : UInt64
  cs : UInt64
  ss : UInt64
  cr3 : UInt64
  vector : Fin 16 → Fin l.words → UInt64

/-- A processor and the words of its memory. -/
@[ext] structure Processor (l : Layout) where
  cpu : Cpu l
  memory : UInt64 → UInt64

variable {l : Layout}

def Cpu.setReg (c : Cpu l) (r : Reg) (v : UInt64) : Cpu l := { c with reg := Function.update c.reg r v }

inductive Instr
  | push (r : Reg)
  /-- `pushq $0`. -/
  | pushZero
  | pop (r : Reg)
  /-- `subq $n, %rsp`. -/
  | sub (n : UInt64)
  /-- `addq $n, %rsp`. -/
  | add (n : UInt64)
  /-- `vmovdqu %ymmi, offset(%rsp)`, or `movdqu` with `%xmmi`. -/
  | storeVector (i : Fin 16) (offset : UInt64)
  /-- `vmovdqu offset(%rsp), %ymmi`. -/
  | loadVector (i : Fin 16) (offset : UInt64)
  /-- `movq %cr3, %rax`. -/
  | readCr3
  /-- `movq %rax, %cr3`. -/
  | writeCr3
  /-- The store to `LAPIC_EOI_REGISTER`, which is not memory. -/
  | acknowledge
  | iretq

/-- Push a word. -/
def Processor.push (p : Processor l) (v : UInt64) : Processor l where
  cpu := p.cpu.setReg .rsp (p.cpu.reg .rsp - 8)
  memory := Function.update p.memory (p.cpu.reg .rsp - 8) v

def Instr.step (p : Processor l) : Instr → Processor l
  | .push r => p.push (p.cpu.reg r)
  | .pushZero => p.push 0
  | .pop r =>
    { p with
      cpu := (p.cpu.setReg .rsp (p.cpu.reg .rsp + 8)).setReg r (p.memory (p.cpu.reg .rsp)) }
  | .sub n => { p with cpu := p.cpu.setReg .rsp (p.cpu.reg .rsp - n) }
  | .add n => { p with cpu := p.cpu.setReg .rsp (p.cpu.reg .rsp + n) }
  | .storeVector i offset =>
    { p with memory := storeWords p.memory (p.cpu.reg .rsp + offset) (List.ofFn (p.cpu.vector i)) }
  | .loadVector i offset =>
    { p with
      cpu := { p.cpu with
        vector := Function.update p.cpu.vector i
          fun j => p.memory (p.cpu.reg .rsp + offset + 8 * .ofNat j) } }
  | .readCr3 => { p with cpu := p.cpu.setReg .rax p.cpu.cr3 }
  | .writeCr3 => { p with cpu := { p.cpu with cr3 := p.cpu.reg .rax } }
  | .acknowledge => p
  | .iretq =>
    let sp := p.cpu.reg .rsp
    { p with
      cpu := { p.cpu.setReg .rsp (p.memory (sp + 24)) with
        rip := p.memory sp
        cs := p.memory (sp + 8)
        rflags := p.memory (sp + 16)
        ss := p.memory (sp + 32) } }

def exec (is : List Instr) (p : Processor l) : Processor l := is.foldl Instr.step p

/-! ### The macros -/

def pushCr3 : List Instr := [.readCr3, .push .rax]

def popCr3 : List Instr := [.pop .rax, .writeCr3]

def pushRegisters : List Instr :=
  [.push .rax, .push .rbx, .push .rcx, .push .rdx, .push .rsi, .push .rdi, .push .rbp, .push .rsp,
    .push .r8, .push .r9, .push .r10, .push .r11, .push .r12, .push .r13, .push .r14, .push .r15]

def popRegisters : List Instr :=
  [.pop .r15, .pop .r14, .pop .r13, .pop .r12, .pop .r11, .pop .r10, .pop .r9, .pop .r8, .pop .rsp,
    .pop .rbp, .pop .rdi, .pop .rsi, .pop .rdx, .pop .rcx, .pop .rbx, .pop .rax]

/-- The stores of `pushSimdRegisters` of the registers `is`, the first of them at the top. -/
def storeVectors (l : Layout) : List (Fin 16) → List Instr
  | [] => []
  | i :: is => .storeVector i (.ofNat is.length * l.bytes) :: storeVectors l is

/-- The loads of `popSimdRegisters`, the last of them from the top. -/
def loadVectors (l : Layout) : List (Fin 16) → List Instr
  | [] => []
  | i :: is => loadVectors l is ++ [.loadVector i (.ofNat is.length * l.bytes)]

def vectors : List (Fin 16) := [0, 1, 2, 3, 4, 5, 6, 7, 8, 9, 10, 11, 12, 13, 14, 15]

def pushSimdRegisters (l : Layout) : List Instr := .sub (16 * l.bytes) :: storeVectors l vectors

def popSimdRegisters (l : Layout) : List Instr := loadVectors l vectors ++ [.add (16 * l.bytes)]

example : pushSimdRegisters .avx2 =
    [.sub 512, .storeVector 0 480, .storeVector 1 448, .storeVector 2 416, .storeVector 3 384,
      .storeVector 4 352, .storeVector 5 320, .storeVector 6 288, .storeVector 7 256, .storeVector 8 224,
      .storeVector 9 192, .storeVector 10 160, .storeVector 11 128, .storeVector 12 96,
      .storeVector 13 64, .storeVector 14 32, .storeVector 15 0] := rfl

/-- `skipThread`, up to the store to `currentThread->sp`. -/
def skipThread (l : Layout) : List Instr := pushRegisters ++ pushSimdRegisters l ++ pushCr3

/-- `updateScheduler`; the store to `currentThread->sp` comes before the last instruction. -/
def updateScheduler (l : Layout) : List Instr := skipThread l ++ [.acknowledge]

/-- The pushes of `createThread`, which are those of `pushRegisters` with 0 for `rbp`. -/
def pushInitialRegisters : List Instr :=
  [.push .rax, .push .rbx, .push .rcx, .push .rdx, .push .rsi, .push .rdi, .pushZero, .push .rsp,
    .push .r8, .push .r9, .push .r10, .push .r11, .push .r12, .push .r13, .push .r14, .push .r15]

def pushInitial (l : Layout) : List Instr := pushInitialRegisters ++ pushSimdRegisters l ++ pushCr3

/-- `nextThread`, from `popCr3` on. -/
def nextThread (l : Layout) : List Instr := popCr3 ++ popSimdRegisters l ++ popRegisters ++ [.iretq]

/-- The five words that an interrupt pushes, from the lowest. -/
def interruptFrame (c : Cpu l) : List UInt64 := [c.rip, c.cs, c.rflags, c.reg .rsp, c.ss]

/-- The processor takes an interrupt through an interrupt gate of the same privilege: it aligns `rsp`,
pushes the frame and disables interrupts. -/
def interrupt (handler : UInt64) (p : Processor l) : Processor l :=
  let sp := p.cpu.reg .rsp &&& ~~~0xF
  let c := p.cpu
  let p := { p with cpu := p.cpu.setReg .rsp sp }
  let p := ((((p.push c.ss).push (c.reg .rsp)).push c.rflags).push c.cs).push c.rip
  { p with cpu := { p.cpu with rip := handler, rflags := p.cpu.rflags &&& ~~~0x200 } }

/-! ### The frame -/

/-- The words of the vector registers `is`, those of the last from the lowest address. -/
def vectorWords (c : Cpu l) : List (Fin 16) → List UInt64
  | [] => []
  | i :: is => vectorWords c is ++ List.ofFn (c.vector i)

/-- The registers that are pushed after `rsp`, from the lowest address. -/
def lowRegs : List Reg := [.r15, .r14, .r13, .r12, .r11, .r10, .r9, .r8]

/-- The registers that are pushed before it. -/
def highRegs : List Reg := [.rbp, .rdi, .rsi, .rdx, .rcx, .rbx, .rax]

/-- The number of words below the ones of `highRegs`. -/
def Layout.lowWords (l : Layout) : ℕ := 16 * l.words + 10

/-- The number of words that the handlers push. -/
def Layout.savedWords (l : Layout) : ℕ := l.lowWords + 7

/-- The number of words of a frame. -/
def Layout.frameWords (l : Layout) : ℕ := l.savedWords + 5

/-- What the handlers push, at `sp`; the word for `rsp` is where the word for `rbp` is. -/
def saved (c : Cpu l) (sp : UInt64) : List UInt64 :=
  c.cr3 :: (vectorWords c vectors ++ (lowRegs.map c.reg ++ (sp + 8 * .ofNat l.lowWords) ::
    highRegs.map c.reg))

/-- The frame of a processor at `sp`. -/
def frame (c : Cpu l) (sp : UInt64) : List UInt64 := saved c sp ++ interruptFrame c

theorem exec_append (is js : List Instr) (p : Processor l) : exec (is ++ js) p = exec js (exec is p) :=
  List.foldl_append

@[simp] theorem exec_nil (p : Processor l) : exec [] p = p := rfl

theorem exec_cons (i : Instr) (is : List Instr) (p : Processor l) :
    exec (i :: is) p = exec is (i.step p) := rfl

@[simp] theorem setReg_self (c : Cpu l) (r : Reg) (v : UInt64) : (c.setReg r v).reg r = v :=
  Function.update_self ..

theorem setReg_of_ne (c : Cpu l) {r q : Reg} (h : q ≠ r) (v : UInt64) : (c.setReg r v).reg q = c.reg q :=
  Function.update_of_ne h ..

theorem bytes_eq (l : Layout) : l.bytes = 8 * .ofNat l.words := by cases l <;> rfl

theorem length_vectorWords (c : Cpu l) (is : List (Fin 16)) :
    (vectorWords c is).length = is.length * l.words := by
  induction is with
  | nil => exact (Nat.zero_mul _).symm
  | cons i is ih =>
    rw [vectorWords, List.length_append, ih, List.length_ofFn, List.length_cons, Nat.succ_mul]

theorem mem_vectors (i : Fin 16) : i ∈ vectors := by decide +revert

/-- Only the vector registers matter. -/
theorem vectorWords_congr {c c' : Cpu l} (h : c.vector = c'.vector) (is : List (Fin 16)) :
    vectorWords c is = vectorWords c' is := by
  induction is with
  | nil => rfl
  | cons i is ih => rw [vectorWords, vectorWords, ih, h]

theorem length_saved (c : Cpu l) (sp : UInt64) : (saved c sp).length = l.savedWords := by
  simp [saved, length_vectorWords, vectors, lowRegs, highRegs, Layout.savedWords, Layout.lowWords]

theorem length_frame (c : Cpu l) (sp : UInt64) : (frame c sp).length = l.frameWords := by
  rw [frame, List.length_append, length_saved]
  rfl

theorem frameWords_le (l : Layout) : l.frameWords ≤ 86 := by cases l <;> decide

/-! ### Loading -/

/-- Pops of registers other than `rsp` load what is on the stack. -/
theorem exec_pops {rs : List Reg} (hrsp : Reg.rsp ∉ rs) {p : Processor l} {v : Reg → UInt64}
    {ws : List UInt64} (h : Holds p.memory (p.cpu.reg .rsp) (rs.map v ++ ws)) :
    exec (rs.map .pop) p = { p with
      cpu := { p.cpu with
        reg := fun r => if r = .rsp then p.cpu.reg .rsp + 8 * .ofNat rs.length
          else if r ∈ rs then v r else p.cpu.reg r } } := by
  induction rs generalizing p with
  | nil =>
    refine Processor.ext (Cpu.ext (funext fun r => ?_) rfl rfl rfl rfl rfl rfl) rfl
    by_cases hr : r = .rsp
    · simp only [hr, if_true, List.length_nil]
      exact (offset_zero _).symm
    · simp [hr, exec]
  | cons q rs ih =>
    rw [List.mem_cons, not_or] at hrsp
    obtain ⟨hq, hrest⟩ := holds_cons.1 h
    have hstep : (Instr.pop q).step p = { p with
        cpu := (p.cpu.setReg .rsp (p.cpu.reg .rsp + 8)).setReg q (v q) } := by
      rw [Instr.step, hq]
    have hsp : ((p.cpu.setReg .rsp (p.cpu.reg .rsp + 8)).setReg q (v q)).reg .rsp =
        p.cpu.reg .rsp + 8 := by
      rw [setReg_of_ne _ hrsp.1, setReg_self]
    rw [List.map_cons, exec_cons, hstep, ih hrsp.2 (by rw [hsp]; exact hrest)]
    refine Processor.ext (Cpu.ext (funext fun r => ?_) rfl rfl rfl rfl rfl rfl) rfl
    dsimp only
    by_cases hr : r = .rsp
    · rw [if_pos hr, if_pos hr, hsp, List.length_cons, offset_succ]
    · rw [if_neg hr, if_neg hr]
      by_cases hrs : r ∈ rs
      · rw [if_pos hrs, if_pos (List.mem_cons_of_mem _ hrs)]
      · rw [if_neg hrs]
        by_cases hrq : r = q
        · rw [hrq, setReg_self, if_pos List.mem_cons_self]
        · rw [setReg_of_ne _ hrq, setReg_of_ne _ hr, if_neg (by simp [hrq, hrs])]

/-- The loads of the vector registers load what is on the stack. -/
theorem exec_loadVectors {is : List (Fin 16)} {p : Processor l} {c : Cpu l} {ws : List UInt64}
    (h : Holds p.memory (p.cpu.reg .rsp) (vectorWords c is ++ ws)) :
    exec (loadVectors l is) p = { p with
      cpu := { p.cpu with vector := fun i => if i ∈ is then c.vector i else p.cpu.vector i } } := by
  induction is generalizing ws with
  | nil =>
    refine Processor.ext (Cpu.ext rfl rfl rfl rfl rfl rfl (funext fun i => ?_)) rfl
    simp [loadVectors, exec]
  | cons i is ih =>
    rw [vectorWords, List.append_assoc] at h
    rw [loadVectors, exec_append, ih h]
    have hwords : ∀ j : Fin l.words, p.memory (p.cpu.reg .rsp + .ofNat is.length * l.bytes + 8 * .ofNat j) =
        c.vector i j := by
      intro j
      have hholds := (holds_append.1 (holds_append.1 h).2).1
      have hoffset : (8 : UInt64) * .ofNat (vectorWords c is).length = .ofNat is.length * l.bytes := by
        rw [length_vectorWords, bytes_eq, UInt64.ofNat_mul]
        grind
      rw [hoffset] at hholds
      exact hholds j _ (by simp)
    refine Processor.ext (Cpu.ext rfl rfl rfl rfl rfl rfl (funext fun k => ?_)) rfl
    simp only [exec, List.foldl_cons, List.foldl_nil, Instr.step]
    by_cases hk : k = i
    · rw [hk, Function.update_self, if_pos List.mem_cons_self]
      exact funext hwords
    · rw [Function.update_of_ne hk]
      simp [hk]

theorem exec_popSimdRegisters {p : Processor l} {c : Cpu l} {ws : List UInt64}
    (h : Holds p.memory (p.cpu.reg .rsp) (vectorWords c vectors ++ ws)) :
    exec (popSimdRegisters l) p = { p with
      cpu := { p.cpu.setReg .rsp (p.cpu.reg .rsp + 16 * l.bytes) with vector := c.vector } } := by
  rw [popSimdRegisters, exec_append, exec_loadVectors h]
  simp only [mem_vectors, if_true]
  rfl

/-- The word for `rsp` is the address above it, so popping it changes nothing. -/
theorem exec_popRegisters {p : Processor l} {v : Reg → UInt64} {ws : List UInt64}
    (h : Holds p.memory (p.cpu.reg .rsp)
      (lowRegs.map v ++ (p.cpu.reg .rsp + 8 * .ofNat 9) :: (highRegs.map v ++ ws))) :
    exec popRegisters p = { p with
      cpu := { p.cpu with
        reg := fun r => if r = .rsp then p.cpu.reg .rsp + 8 * .ofNat 16 else v r } } := by
  have hsplit : popRegisters = lowRegs.map .pop ++ (.pop .rsp :: highRegs.map .pop) := rfl
  obtain ⟨hmid, hhigh⟩ := holds_cons.1 (holds_append.1 h).2
  rw [hsplit, exec_append, exec_pops (by decide) h, exec_cons]
  have hsp : p.cpu.reg .rsp + 8 * .ofNat 9 = p.cpu.reg .rsp + 8 * .ofNat (lowRegs.map v).length + 8 := by
    rw [List.length_map, show (9 : ℕ) = lowRegs.length + 1 from rfl, UInt64.ofNat_add,
      show UInt64.ofNat 1 = 1 from rfl]
    grind
  have hpop : (Instr.pop .rsp).step { p with
      cpu := { p.cpu with
        reg := fun r => if r = .rsp then p.cpu.reg .rsp + 8 * .ofNat lowRegs.length
          else if r ∈ lowRegs then v r else p.cpu.reg r } } = { p with
      cpu := { p.cpu with
        reg := fun r => if r = .rsp then p.cpu.reg .rsp + 8 * .ofNat 9
          else if r ∈ lowRegs then v r else p.cpu.reg r } } := by
    refine Processor.ext (Cpu.ext (funext fun r => ?_) rfl rfl rfl rfl rfl rfl) rfl
    by_cases hr : r = .rsp
    · rw [hr]
      exact hmid
    · simp [Instr.step, Cpu.setReg, hr]
  rw [hpop, exec_pops (by decide) (by rw [← hsp] at hhigh; exact hhigh)]
  refine Processor.ext (Cpu.ext (funext fun r => ?_) rfl rfl rfl rfl rfl rfl) rfl
  dsimp only
  by_cases hr : r = .rsp
  · rw [if_pos hr, if_pos hr, if_pos rfl, show (16 : ℕ) = 9 + highRegs.length from rfl, offset_add]
  · rw [if_neg hr, if_neg hr, if_neg hr]
    by_cases hhigh : r ∈ highRegs
    · exact if_pos hhigh
    · rw [if_neg hhigh, if_pos (by cases r <;> simp_all [lowRegs, highRegs])]

/-- **`nextThread` loads the processor whose frame it finds.** -/
theorem exec_nextThread {p : Processor l} {c : Cpu l}
    (h : Holds p.memory (p.cpu.reg .rsp) (frame c (p.cpu.reg .rsp))) :
    exec (nextThread l) p = ⟨c, p.memory⟩ := by
  rw [frame, saved, List.cons_append, List.append_assoc, List.append_assoc, List.cons_append] at h
  obtain ⟨hcr3, h⟩ := holds_cons.1 h
  have hpop : exec popCr3 p = { p with
      cpu := { (p.cpu.setReg .rsp (p.cpu.reg .rsp + 8)).setReg .rax c.cr3 with cr3 := c.cr3 } } := by
    rw [← hcr3]
    rfl
  rw [nextThread, exec_append, exec_append, exec_append, hpop, exec_popSimdRegisters h]
  -- the processor before `popRegisters`
  generalize hp' : Processor.mk _ _ = p'
  have hsp : p'.cpu.reg .rsp = p.cpu.reg .rsp + 8 + 8 * .ofNat (vectorWords c vectors).length := by
    rw [← hp', length_vectorWords, UInt64.ofNat_mul, bytes_eq]
    change p.cpu.reg .rsp + 8 + 16 * (8 * .ofNat l.words) = _
    rw [show UInt64.ofNat vectors.length = 16 from rfl]
    grind
  have hmid : p.cpu.reg .rsp + 8 * .ofNat l.lowWords = p'.cpu.reg .rsp + 8 * .ofNat 9 := by
    rw [hsp, ← offset_succ, ← offset_add, length_vectorWords]
    rfl
  have hregs : Holds p'.memory (p'.cpu.reg .rsp) (lowRegs.map c.reg ++ (p'.cpu.reg .rsp + 8 * .ofNat 9) ::
      (highRegs.map c.reg ++ interruptFrame c)) := by
    rw [← hmid, hsp, ← hp']
    exact (holds_append.1 h).2
  have hiretq : Holds p'.memory (p'.cpu.reg .rsp + 8 * .ofNat 16) (interruptFrame c) := by
    have hrest := (holds_append.1 (holds_cons.1 (holds_append.1 hregs).2).2).2
    rwa [← offset_succ, ← offset_add, List.length_map, List.length_map] at hrest
  rw [exec_popRegisters hregs, exec_cons, exec_nil]
  obtain ⟨hrip, hcs, hrflags, hrsp, hss⟩ : _ ∧ _ ∧ _ ∧ _ ∧ _ :=
    ⟨hiretq 0 _ rfl, hiretq 1 _ rfl, hiretq 2 _ rfl, hiretq 3 _ rfl, hiretq 4 _ rfl⟩
  rw [offset_zero] at hrip
  refine Processor.ext (Cpu.ext (funext fun r => ?_) ?_ ?_ ?_ ?_ ?_ ?_) ?_
  · by_cases hr : r = .rsp
    · rw [hr]
      exact hrsp
    · simp [Instr.step, Cpu.setReg, hr]
  · exact hrip
  · exact hrflags
  · exact hcs
  · exact hss
  · rw [← hp']
    rfl
  · rw [← hp']
    rfl
  · rw [← hp']
    rfl

/-! ### Saving -/

/-- Push a list of words, the last of them first. -/
def Processor.pushWords (p : Processor l) (ws : List UInt64) : Processor l where
  cpu := p.cpu.setReg .rsp (p.cpu.reg .rsp - 8 * .ofNat ws.length)
  memory := storeWords p.memory (p.cpu.reg .rsp - 8 * .ofNat ws.length) ws

theorem push_eq (p : Processor l) (v : UInt64) : p.push v = p.pushWords [v] := rfl

theorem pushWords_nil (p : Processor l) : p.pushWords [] = p := by
  refine Processor.ext (Cpu.ext (funext fun r => ?_) rfl rfl rfl rfl rfl rfl) rfl
  by_cases hr : r = .rsp
  · rw [hr, Processor.pushWords, setReg_self, List.length_nil]
    grind
  · exact setReg_of_ne _ hr _

theorem pushWords_reg (p : Processor l) (ws : List UInt64) {r : Reg} (hr : r ≠ .rsp) :
    (p.pushWords ws).cpu.reg r = p.cpu.reg r := setReg_of_ne _ hr _

theorem pushWords_rsp (p : Processor l) (ws : List UInt64) :
    (p.pushWords ws).cpu.reg .rsp = p.cpu.reg .rsp - 8 * .ofNat ws.length := setReg_self ..

theorem pushWords_pushWords (p : Processor l) {ws vs : List UInt64} (hlen : vs.length + ws.length ≤ 2 ^ 61) :
    (p.pushWords ws).pushWords vs = p.pushWords (vs ++ ws) := by
  have hsp : p.cpu.reg .rsp - 8 * .ofNat ws.length - 8 * .ofNat vs.length =
      p.cpu.reg .rsp - 8 * .ofNat (vs ++ ws).length := by
    rw [List.length_append, UInt64.ofNat_add]
    grind
  refine Processor.ext (Cpu.ext (funext fun r => ?_) rfl rfl rfl rfl rfl rfl) ?_
  · by_cases hr : r = .rsp
    · rw [hr, pushWords_rsp, pushWords_rsp, pushWords_rsp, hsp]
    · rw [pushWords_reg _ _ hr, pushWords_reg _ _ hr, pushWords_reg _ _ hr]
  · have hmid : p.cpu.reg .rsp - 8 * .ofNat ws.length =
        p.cpu.reg .rsp - 8 * .ofNat (vs ++ ws).length + 8 * .ofNat vs.length := by
      rw [← hsp]
      grind
    change storeWords (storeWords p.memory _ ws) ((p.pushWords ws).cpu.reg .rsp - _) vs = _
    rw [pushWords_rsp, hsp, hmid, storeWords_storeWords hlen]
    rfl

/-- Pushes of registers other than `rsp`. -/
theorem exec_pushes {rs : List Reg} (hrsp : Reg.rsp ∉ rs) (hlen : rs.length ≤ 2 ^ 61) (p : Processor l) :
    exec (rs.map .push) p = p.pushWords (rs.reverse.map p.cpu.reg) := by
  induction rs generalizing p with
  | nil => exact (pushWords_nil p).symm
  | cons r rs ih =>
    rw [List.mem_cons, not_or] at hrsp
    rw [List.length_cons] at hlen
    have hsame : rs.reverse.map (p.pushWords [p.cpu.reg r]).cpu.reg = rs.reverse.map p.cpu.reg := by
      refine List.map_congr_left fun q hq => pushWords_reg _ _ ?_
      rintro rfl
      exact hrsp.2 (List.mem_reverse.1 hq)
    rw [List.map_cons, exec_cons, Instr.step, push_eq, ih hrsp.2 (by omega), hsame,
      pushWords_pushWords _ (by simpa using hlen), List.reverse_cons, List.map_append]
    rfl

/-- The stores of the vector registers. -/
theorem exec_storeVectors {is : List (Fin 16)} (hlen : is.length * l.words ≤ 2 ^ 61) (p : Processor l) :
    exec (storeVectors l is) p =
      { p with memory := storeWords p.memory (p.cpu.reg .rsp) (vectorWords p.cpu is) } := by
  induction is generalizing p with
  | nil => rfl
  | cons i is ih =>
    rw [List.length_cons, Nat.succ_mul] at hlen
    have hoffset : .ofNat is.length * l.bytes = (8 : UInt64) * .ofNat (vectorWords p.cpu is).length := by
      rw [length_vectorWords, bytes_eq, UInt64.ofNat_mul]
      grind
    rw [storeVectors, exec_cons, ih (by omega), Instr.step, hoffset]
    dsimp only
    rw [storeWords_storeWords (by rwa [length_vectorWords, List.length_ofFn]), vectorWords]

theorem exec_pushSimdRegisters (p : Processor l) :
    exec (pushSimdRegisters l) p = p.pushWords (vectorWords p.cpu vectors) := by
  have hlen : vectors.length * l.words ≤ 2 ^ 61 := by cases l <;> decide
  have hbytes : (16 : UInt64) * l.bytes = 8 * .ofNat (vectorWords p.cpu vectors).length := by
    rw [length_vectorWords, bytes_eq, UInt64.ofNat_mul, show UInt64.ofNat vectors.length = 16 from rfl]
    grind
  rw [pushSimdRegisters, exec_cons, exec_storeVectors hlen, Instr.step, hbytes]
  have hsame : vectorWords (p.cpu.setReg .rsp (p.cpu.reg .rsp - 8 * .ofNat (vectorWords p.cpu vectors).length))
      vectors = vectorWords p.cpu vectors := rfl
  rw [hsame, setReg_self]
  rfl

/-- The pushes of the general registers, with some instruction for `rbp`. -/
def pushRegistersWith (rbp : Instr) : List Instr :=
  [Reg.rax, .rbx, .rcx, .rdx, .rsi, .rdi].map .push ++ rbp :: .push .rsp :: lowRegs.reverse.map .push

theorem pushRegisters_eq : pushRegisters = pushRegistersWith (.push .rbp) := rfl

theorem pushInitialRegisters_eq : pushInitialRegisters = pushRegistersWith .pushZero := rfl

theorem exec_pushRegistersWith {rbp : Instr} {w : UInt64} {p : Processor l}
    (hrbp : ∀ q : Processor l, q.cpu.reg .rbp = p.cpu.reg .rbp → rbp.step q = q.pushWords [w]) :
    exec (pushRegistersWith rbp) p =
      p.pushWords (lowRegs.map p.cpu.reg ++ (p.cpu.reg .rsp - 8 * .ofNat 7) :: w ::
        [Reg.rdi, .rsi, .rdx, .rcx, .rbx, .rax].map p.cpu.reg) := by
  have hlow : ∀ ws, lowRegs.map (p.pushWords ws).cpu.reg = lowRegs.map p.cpu.reg := fun ws =>
    List.map_congr_left fun r hr => pushWords_reg _ _ (by rintro rfl; exact absurd hr (by decide))
  rw [pushRegistersWith, exec_append, exec_pushes (by decide) (by decide), exec_cons,
    hrbp _ (pushWords_reg _ _ (by decide)), pushWords_pushWords _ (by simp), exec_cons, Instr.step, push_eq,
    pushWords_pushWords _ (by simp), exec_pushes (by decide) (by decide),
    pushWords_pushWords _ (by simp [lowRegs]), pushWords_rsp, List.reverse_reverse, hlow]
  rfl

/-- `pushCr3` overwrites `rax`, and pushes one word. -/
theorem exec_pushCr3 (p : Processor l) {ws : List UInt64} (hlen : ws.length < 2 ^ 61) :
    (exec pushCr3 (p.pushWords ws)).cpu.reg .rsp = (p.pushWords (p.cpu.cr3 :: ws)).cpu.reg .rsp ∧
      (exec pushCr3 (p.pushWords ws)).memory = (p.pushWords (p.cpu.cr3 :: ws)).memory := by
  have h := @pushWords_pushWords l p ws [p.cpu.cr3] (by rw [List.length_singleton]; omega)
  rw [List.singleton_append] at h
  rw [← h]
  exact ⟨rfl, rfl⟩

/-- The handlers and `createThread` push what `saved` says of any processor that has the registers they
push. -/
theorem exec_pushSaved {rbp : Instr} {c : Cpu l} {p : Processor l} {sp : UInt64}
    (hrbp : ∀ q : Processor l, q.cpu.reg .rbp = p.cpu.reg .rbp → rbp.step q = q.pushWords [c.reg .rbp])
    (hreg : ∀ r, r ≠ .rsp → r ≠ .rbp → c.reg r = p.cpu.reg r) (hcr3 : c.cr3 = p.cpu.cr3)
    (hvector : c.vector = p.cpu.vector) (hsp : sp = p.cpu.reg .rsp - 8 * .ofNat l.savedWords) :
    (exec (pushRegistersWith rbp ++ pushSimdRegisters l ++ pushCr3) p).cpu.reg .rsp = sp ∧
      (exec (pushRegistersWith rbp ++ pushSimdRegisters l ++ pushCr3) p).memory =
        storeWords p.memory sp (saved c sp) := by
  have hlow : lowRegs.map p.cpu.reg = lowRegs.map c.reg := List.map_congr_left fun r hr =>
    (hreg r (by rintro rfl; exact absurd hr (by decide)) (by rintro rfl; exact absurd hr (by decide))).symm
  have hhigh : c.reg .rbp :: [Reg.rdi, .rsi, .rdx, .rcx, .rbx, .rax].map p.cpu.reg = highRegs.map c.reg := by
    have hrest : [Reg.rdi, .rsi, .rdx, .rcx, .rbx, .rax].map p.cpu.reg =
        [Reg.rdi, .rsi, .rdx, .rcx, .rbx, .rax].map c.reg := List.map_congr_left fun r hr =>
      (hreg r (by rintro rfl; exact absurd hr (by decide)) (by rintro rfl; exact absurd hr (by decide))).symm
    rw [hrest]
    rfl
  have hvectorWords : ∀ ws, vectorWords (p.pushWords ws).cpu vectors = vectorWords c vectors := fun ws =>
    vectorWords_congr hvector.symm vectors
  have hmid : p.cpu.reg .rsp - 8 * .ofNat 7 = sp + 8 * .ofNat l.lowWords := by
    rw [hsp, Layout.savedWords, UInt64.ofNat_add]
    grind
  have hle : l.savedWords ≤ 2 ^ 61 := by cases l <;> decide
  have hlen := length_saved c sp
  rw [saved, List.length_cons] at hlen
  have hpush : exec (pushRegistersWith rbp ++ pushSimdRegisters l) p = p.pushWords (vectorWords c vectors ++
      (lowRegs.map c.reg ++ (sp + 8 * .ofNat l.lowWords) :: highRegs.map c.reg)) := by
    rw [exec_append, exec_pushRegistersWith hrbp, exec_pushSimdRegisters, hvectorWords, hlow, hhigh, hmid,
      pushWords_pushWords _ (by rw [← List.length_append]; omega)]
  obtain ⟨hrsp, hmemory⟩ := @exec_pushCr3 l p (vectorWords c vectors ++ (lowRegs.map c.reg ++
    (sp + 8 * .ofNat l.lowWords) :: highRegs.map c.reg)) (by omega)
  rw [← hcr3, ← saved] at hrsp hmemory
  rw [exec_append, hpush, hrsp, hmemory, Processor.pushWords, length_saved, setReg_self, ← hsp]
  exact ⟨rfl, by dsimp only⟩

/-- An interrupt leaves its frame on the aligned stack. -/
theorem interrupt_frame (handler : UInt64) {p : Processor l} {sp : UInt64}
    (hsp : sp = (p.cpu.reg .rsp &&& ~~~0xF) - 8 * .ofNat 5) :
    (interrupt handler p).cpu.reg .rsp = sp ∧
      (interrupt handler p).memory = storeWords p.memory sp (interruptFrame p.cpu) := by
  have hpush : ((((({ p with cpu := p.cpu.setReg .rsp (p.cpu.reg .rsp &&& ~~~0xF) } : Processor l).push
      p.cpu.ss).push (p.cpu.reg .rsp)).push p.cpu.rflags).push p.cpu.cs).push p.cpu.rip =
      ({ p with cpu := p.cpu.setReg .rsp (p.cpu.reg .rsp &&& ~~~0xF) } : Processor l).pushWords
        (interruptFrame p.cpu) := by
    rw [push_eq, push_eq, push_eq, push_eq, push_eq, pushWords_pushWords _ (by simp),
      pushWords_pushWords _ (by simp), pushWords_pushWords _ (by simp), pushWords_pushWords _ (by simp)]
    rfl
  rw [interrupt]
  dsimp only
  rw [hpush, Processor.pushWords, setReg_self, setReg_self, hsp]
  exact ⟨rfl, by dsimp only; rfl⟩

theorem interrupt_reg (handler : UInt64) (p : Processor l) {r : Reg} (hr : r ≠ .rsp) :
    (interrupt handler p).cpu.reg r = p.cpu.reg r := by
  simp [interrupt, Processor.push, Cpu.setReg, hr]

/-- **`skipThread` leaves the frame of the interrupted processor.** -/
theorem exec_skipThread (handler : UInt64) {p : Processor l} {sp : UInt64}
    (hsp : sp = (p.cpu.reg .rsp &&& ~~~0xF) - 8 * .ofNat l.frameWords) :
    (exec (skipThread l) (interrupt handler p)).cpu.reg .rsp = sp ∧
      (exec (skipThread l) (interrupt handler p)).memory = storeWords p.memory sp (frame p.cpu sp) := by
  have hmid : sp + 8 * .ofNat (saved p.cpu sp).length = (p.cpu.reg .rsp &&& ~~~0xF) - 8 * .ofNat 5 := by
    rw [hsp, length_saved, Layout.frameWords, UInt64.ofNat_add]
    grind
  have hlen : (saved p.cpu sp).length + (interruptFrame p.cpu).length ≤ 2 ^ 61 := by
    have hle := frameWords_le l
    rw [length_saved]
    exact le_trans hle (by decide)
  obtain ⟨hrsp, hmemory⟩ := interrupt_frame handler hmid
  have hsaved : sp = (interrupt handler p).cpu.reg .rsp - 8 * .ofNat l.savedWords := by
    rw [hrsp, length_saved]
    grind
  have h := @exec_pushSaved l (.push .rbp) p.cpu (interrupt handler p) sp
    (fun q hq => by rw [Instr.step, push_eq, hq, interrupt_reg _ _ (by decide)])
    (fun r hr _ => (interrupt_reg _ _ hr).symm) rfl rfl hsaved
  rw [hmemory, storeWords_storeWords hlen] at h
  rw [skipThread, pushRegisters_eq, frame]
  exact h

/-- The acknowledgement of `updateScheduler` changes nothing. -/
theorem exec_updateScheduler (p : Processor l) : exec (updateScheduler l) p = exec (skipThread l) p := by
  rw [updateScheduler, exec_append, exec_cons, exec_nil, Instr.step]

end Naul
