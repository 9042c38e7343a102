import Naul.Scheduler.Frame

/-!
# Handlers that call C functions

`syscallTrampoline` and the handlers of the keyboard, the mouse and the timer push registers, `rsp` in the
middle of them, store the vector registers, call a C function, and load all of it again. What the function
does is a parameter, `body`; the calling convention is what `Compiled` says of it: it runs on a stack whose
alignment it knows, with the direction flag clear, and returns to the address at `rsp`. It may change every
register that the handler has saved.

`trampoline_restores` says that a handler of this shape leaves the interrupted processor as it was, apart
from the registers that it does not save.
-/

namespace Naul

open Stack

variable {l : Layout} {high low : List Reg} {p q : Processor l} {c : Cpu l} {ws : List UInt64}

/-! ### The handlers -/

/-- `cld`. -/
def Processor.cld (p : Processor l) : Processor l :=
  { p with cpu := { p.cpu with rflags := p.cpu.rflags &&& ~~~0x400 } }

/-- The processor at the first instruction of the function, which returns to `ret`. -/
def entered (pushes : List Instr) (ret : UInt64) (p : Processor l) : Processor l :=
  (exec (pushes ++ pushSimdRegisters l) p).cld.push ret

theorem push_cld (p : Processor l) (v : UInt64) : p.cld.push v = (p.push v).cld := rfl

/-- A handler. -/
def trampoline (pushes pops : List Instr) (ret : UInt64) (body : Processor l → Processor l)
    (p : Processor l) : Processor l :=
  exec (popSimdRegisters l ++ pops ++ [.iretq]) (body (entered pushes ret p))

/-- The processor takes an interrupt through a trap gate, which leaves interrupts as they are. -/
def trap (handler : UInt64) (p : Processor l) : Processor l :=
  { interrupt handler p with
    cpu := { (interrupt handler p).cpu with rflags := p.cpu.rflags } }

/-- `keyboardInterrupt`, `mouseInterrupt` and `hpetInterrupt`. -/
def deviceInterrupt (ret : UInt64) (body : Processor l → Processor l) (p : Processor l) : Processor l :=
  trampoline pushRegisters popRegisters ret body p

/-- The pushes of `syscallTrampoline`: all registers but `rax`. -/
def pushSyscall : List Instr :=
  [.push .rbx, .push .rcx, .push .rdx, .push .rsi, .push .rdi, .push .rbp, .push .rsp, .push .r8, .push .r9,
    .push .r10, .push .r11, .push .r12, .push .r13, .push .r14, .push .r15]

def popSyscall : List Instr :=
  [.pop .r15, .pop .r14, .pop .r13, .pop .r12, .pop .r11, .pop .r10, .pop .r9, .pop .r8, .pop .rsp,
    .pop .rbp, .pop .rdi, .pop .rsi, .pop .rdx, .pop .rcx, .pop .rbx]

def syscallTrampoline (ret : UInt64) (body : Processor l → Processor l) (p : Processor l) : Processor l :=
  trampoline pushSyscall popSyscall ret body p

/-! ### The calling convention -/

/-- A function of C: its arguments and memory, and what it returns, with memory afterwards; nothing is
promised of a call that is not defined. -/
def CFunction := (Fin 6 → UInt64) → (UInt64 → UInt64) → Option (UInt64 × (UInt64 → UInt64))

/-- The registers of the arguments. -/
def argument : Fin 6 → Reg := ![.rdi, .rsi, .rdx, .rcx, .r8, .r9]

/-- The arguments of a call. -/
def Cpu.arguments (c : Cpu l) (i : Fin 6) : UInt64 := c.reg (argument i)

/-- `body` is the function `f`, from its first instruction to its return, with `depth` words of stack;
`rsp` has to be `align` above a multiple of 16 there. -/
def Compiled (f : CFunction) (depth : ℕ) (align : UInt64) (body : Processor l → Processor l) : Prop :=
  ∀ p v m, p.cpu.reg .rsp &&& 0xF = align → p.cpu.rflags &&& 0x400 = 0 →
    f p.cpu.arguments p.memory = some (v, m) →
    (body p).cpu.reg .rax = v ∧ (body p).cpu.reg .rsp = p.cpu.reg .rsp + 8 ∧ (body p).cpu.cr3 = p.cpu.cr3 ∧
      ∀ b ∉ block (p.cpu.reg .rsp - 8 * .ofNat depth) depth, (body p).memory b = m b

/-! ### Registers around `rsp` -/

def pushAround (high low : List Reg) : List Instr := high.map .push ++ .push .rsp :: low.map .push

def popAround (high low : List Reg) : List Instr := low.reverse.map .pop ++ .pop .rsp :: high.reverse.map .pop

/-- What `pushAround` leaves, from the lowest address; `mid` is the word for `rsp`. -/
def around (v : Reg → UInt64) (high low : List Reg) (mid : UInt64) : List UInt64 :=
  low.reverse.map v ++ mid :: high.reverse.map v

theorem length_around (v : Reg → UInt64) (high low : List Reg) (mid : UInt64) :
    (around v high low mid).length = low.length + (high.length + 1) := by
  simp [around]

theorem exec_pushAround (hhigh : Reg.rsp ∉ high) (hlow : Reg.rsp ∉ low)
    (hlen : low.length + (high.length + 1) ≤ 2 ^ 61) (p : Processor l) :
    exec (pushAround high low) p =
      p.pushWords (around p.cpu.reg high low (p.cpu.reg .rsp - 8 * .ofNat high.length)) := by
  have hsame : ∀ ws, low.reverse.map (p.pushWords ws).cpu.reg = low.reverse.map p.cpu.reg := fun ws =>
    List.map_congr_left fun r hr => pushWords_reg _ _ (by
      rintro rfl
      exact hlow (List.mem_reverse.1 hr))
  have hmid : (p.pushWords (high.reverse.map p.cpu.reg)).cpu.reg .rsp =
      p.cpu.reg .rsp - 8 * .ofNat high.length := by
    rw [pushWords_rsp, List.length_map, List.length_reverse]
  rw [pushAround, exec_append, exec_pushes hhigh (by omega), exec_cons, Instr.step, push_eq,
    pushWords_pushWords _ (by simp; omega), exec_pushes hlow (by omega), hsame, hmid,
    pushWords_pushWords _ (by simpa using hlen)]
  rfl

/-- What lies there is loaded again. -/
theorem exec_popAround (hhigh : Reg.rsp ∉ high) (hlow : Reg.rsp ∉ low) {v : Reg → UInt64}
    (h : Holds p.memory (p.cpu.reg .rsp)
      (around v high low (p.cpu.reg .rsp + 8 * .ofNat (low.length + 1)) ++ ws)) :
    exec (popAround high low) p = { p with
      cpu := { p.cpu with
        reg := fun r => if r = .rsp then p.cpu.reg .rsp + 8 * .ofNat (low.length + (high.length + 1))
          else if r ∈ high ∨ r ∈ low then v r else p.cpu.reg r } } := by
  rw [around, List.append_assoc, List.cons_append] at h
  obtain ⟨hmid, hrest⟩ := holds_cons.1 (holds_append.1 h).2
  rw [popAround, exec_append, exec_pops (fun hr => hlow (List.mem_reverse.1 hr)) h, exec_cons]
  have hnext : p.cpu.reg .rsp + 8 * .ofNat (low.length + 1) =
      p.cpu.reg .rsp + 8 * .ofNat (low.reverse.map v).length + 8 := by
    rw [List.length_map, List.length_reverse, UInt64.ofNat_add, show UInt64.ofNat 1 = 1 from rfl]
    grind
  have hpop : (Instr.pop .rsp).step { p with
      cpu := { p.cpu with
        reg := fun r => if r = .rsp then p.cpu.reg .rsp + 8 * .ofNat low.reverse.length
          else if r ∈ low.reverse then v r else p.cpu.reg r } } = { p with
      cpu := { p.cpu with
        reg := fun r => if r = .rsp then p.cpu.reg .rsp + 8 * .ofNat (low.length + 1)
          else if r ∈ low then v r else p.cpu.reg r } } := by
    rw [List.length_map] at hmid
    refine Processor.ext (Cpu.ext (funext fun r => ?_) rfl rfl rfl rfl rfl rfl) rfl
    by_cases hr : r = .rsp
    · rw [hr]
      exact hmid
    · simp [Instr.step, Cpu.setReg, hr]
  rw [hpop, exec_pops (fun hr => hhigh (List.mem_reverse.1 hr)) (by rw [← hnext] at hrest; exact hrest)]
  refine Processor.ext (Cpu.ext (funext fun r => ?_) rfl rfl rfl rfl rfl rfl) rfl
  dsimp only
  by_cases hr : r = .rsp
  · rw [if_pos hr, if_pos hr, if_pos rfl, List.length_reverse, ← offset_add]
    congr 3
    omega
  · rw [if_neg hr, if_neg hr, if_neg hr]
    by_cases hin : r ∈ high
    · simp [hin]
    · simp [hin]

/-- The registers that the handlers push before `rsp` and after it. -/
def deviceHigh : List Reg := [.rax, .rbx, .rcx, .rdx, .rsi, .rdi, .rbp]

def syscallHigh : List Reg := [.rbx, .rcx, .rdx, .rsi, .rdi, .rbp]

def handlerLow : List Reg := [.r8, .r9, .r10, .r11, .r12, .r13, .r14, .r15]

theorem deviceInterrupt_eq (ret : UInt64) (body : Processor l → Processor l) (p : Processor l) :
    deviceInterrupt ret body p =
      trampoline (pushAround deviceHigh handlerLow) (popAround deviceHigh handlerLow) ret body p := rfl

theorem syscallTrampoline_eq (ret : UInt64) (body : Processor l → Processor l) (p : Processor l) :
    syscallTrampoline ret body p =
      trampoline (pushAround syscallHigh handlerLow) (popAround syscallHigh handlerLow) ret body p := rfl

/-! ### A handler of this shape -/

/-- The words between the frame of the interrupt and the return address. -/
def pushedWords (l : Layout) (high low : List Reg) : ℕ := 16 * l.words + (low.length + (high.length + 1))

/-- The processor `p` has just taken an interrupt, when it was `c`. -/
structure Interrupted (c : Cpu l) (p : Processor l) : Prop where
  frame : Holds p.memory (p.cpu.reg .rsp) (interruptFrame c)
  reg : ∀ r, r ≠ .rsp → p.cpu.reg r = c.reg r
  vector : p.cpu.vector = c.vector
  cr3 : p.cpu.cr3 = c.cr3

/-- What lies at and above `sp` when the function is entered. -/
def pushed (c : Cpu l) (high low : List Reg) (sp : UInt64) : List UInt64 :=
  vectorWords c vectors ++ around c.reg high low (sp + 8 * .ofNat (16 * l.words + (low.length + 1)))

theorem length_pushed (c : Cpu l) (high low : List Reg) (sp : UInt64) :
    (pushed c high low sp).length = pushedWords l high low := by
  rw [pushed, List.length_append, length_vectorWords, length_around]
  rfl

theorem words_le (l : Layout) : l.words ≤ 4 := by cases l <;> decide

theorem entered_eq (h : Interrupted c p) (hhigh : Reg.rsp ∉ high) (hlow : Reg.rsp ∉ low)
    (hlen : low.length + (high.length + 1) ≤ 2 ^ 60) (ret sp : UInt64)
    (hsp : sp = p.cpu.reg .rsp - 8 * .ofNat (pushedWords l high low)) :
    (entered (pushAround high low) ret p).cpu.reg .rsp = sp - 8 ∧
      (∀ r, r ≠ .rsp → (entered (pushAround high low) ret p).cpu.reg r = c.reg r) ∧
      (entered (pushAround high low) ret p).cpu.rflags = p.cpu.rflags &&& ~~~0x400 ∧
      (entered (pushAround high low) ret p).cpu.cr3 = c.cr3 ∧
      (entered (pushAround high low) ret p).memory =
        storeWords p.memory (sp - 8) (ret :: pushed c high low sp) := by
  have hwords := words_le l
  have haround : ∀ mid, around p.cpu.reg high low mid = around c.reg high low mid := by
    intro mid
    rw [around, around, List.map_congr_left fun r hr => h.reg r ?_, List.map_congr_left fun r hr => h.reg r ?_]
    · rintro rfl
      exact hhigh (List.mem_reverse.1 hr)
    · rintro rfl
      exact hlow (List.mem_reverse.1 hr)
  have hmid : p.cpu.reg .rsp - 8 * .ofNat high.length =
      sp + 8 * .ofNat (16 * l.words + (low.length + 1)) := by
    rw [hsp, pushedWords, show 16 * l.words + (low.length + (high.length + 1)) =
      16 * l.words + (low.length + 1) + high.length by omega, UInt64.ofNat_add]
    grind
  have hexec : exec (pushAround high low ++ pushSimdRegisters l) p = p.pushWords (pushed c high low sp) := by
    have hvector : ∀ ws, vectorWords (p.pushWords ws).cpu vectors = vectorWords c vectors := fun ws =>
      vectorWords_congr h.vector vectors
    rw [exec_append, exec_pushAround hhigh hlow (by omega), exec_pushSimdRegisters, hvector, hmid, haround,
      pushWords_pushWords _ ?_]
    · rfl
    · rw [length_vectorWords, length_around, show vectors.length = 16 from rfl]
      omega
  have hentered : entered (pushAround high low) ret p =
      (p.pushWords (pushed c high low sp)).cld.push ret := by
    rw [entered, hexec]
  have hrsp : (p.pushWords (pushed c high low sp)).cpu.reg .rsp = sp := by
    rw [pushWords_rsp, length_pushed, hsp]
  have hpush : ((p.pushWords (pushed c high low sp)).push ret).memory =
      storeWords p.memory (sp - 8) (ret :: pushed c high low sp) := by
    have hlength := length_pushed c high low sp
    rw [push_eq, pushWords_pushWords _ ?_, Processor.pushWords, List.singleton_append, List.length_cons, hlength]
    · have hbase : p.cpu.reg .rsp - 8 * .ofNat (pushedWords l high low + 1) = sp - 8 := by
        rw [hsp, UInt64.ofNat_add, show UInt64.ofNat 1 = 1 from rfl]
        grind
      rw [hbase]
    · rw [hlength, pushedWords, List.length_singleton]
      omega
  rw [hentered, push_cld]
  generalize hq : p.pushWords (pushed c high low sp) = q at hrsp hpush ⊢
  have hreg : ∀ r, r ≠ .rsp → q.cpu.reg r = c.reg r := fun r hr => by
    rw [← hq, pushWords_reg _ _ hr, h.reg r hr]
  have hcpu : q.cpu.rflags = p.cpu.rflags ∧ q.cpu.cr3 = c.cr3 := by
    rw [← hq]
    exact ⟨rfl, h.cr3⟩
  refine ⟨?_, fun r hr => ?_, congrArg (· &&& ~~~0x400) hcpu.1, hcpu.2, hpush⟩
  · change (q.push ret).cpu.reg .rsp = sp - 8
    rw [Processor.push, setReg_self, hrsp]
  · change (q.push ret).cpu.reg r = c.reg r
    rw [Processor.push, setReg_of_ne _ hr, hreg r hr]

/-- **A handler leaves the interrupted processor as it was**, apart from the registers that it does not
save, if the function returns and leaves the stack above its own as it is. -/
theorem trampoline_restores (hhigh : Reg.rsp ∉ high) (hlow : Reg.rsp ∉ low) {ret sp : UInt64}
    {body : Processor l → Processor l} (hrsp : (body q).cpu.reg .rsp = sp) (hcr3 : (body q).cpu.cr3 = c.cr3)
    (hmemory : Holds (body q).memory sp (pushed c high low sp ++ interruptFrame c))
    (hq : entered (pushAround high low) ret p = q) :
    trampoline (pushAround high low) (popAround high low) ret body p =
      ⟨{ c with reg := fun r => if r = .rsp ∨ r ∈ high ∨ r ∈ low then c.reg r else (body q).cpu.reg r },
        (body q).memory⟩ := by
  rw [trampoline, hq, exec_append, exec_append]
  generalize body q = q' at hrsp hcr3 hmemory ⊢
  subst hrsp
  rw [pushed, List.append_assoc] at hmemory
  rw [exec_popSimdRegisters hmemory]
  generalize hp' : Processor.mk _ _ = p'
  have hoffset : q'.cpu.reg .rsp + 8 * .ofNat (vectorWords c vectors).length = p'.cpu.reg .rsp := by
    rw [← hp', length_vectorWords, UInt64.ofNat_mul]
    change _ = q'.cpu.reg .rsp + 16 * l.bytes
    rw [bytes_eq, show UInt64.ofNat vectors.length = 16 from rfl]
    grind
  have hmid : q'.cpu.reg .rsp + 8 * .ofNat (16 * l.words + (low.length + 1)) =
      p'.cpu.reg .rsp + 8 * .ofNat (low.length + 1) := by
    rw [← hoffset, length_vectorWords, show vectors.length = 16 from rfl, offset_add]
  have hregs : Holds p'.memory (p'.cpu.reg .rsp) (around c.reg high low
      (p'.cpu.reg .rsp + 8 * .ofNat (low.length + 1)) ++ interruptFrame c) := by
    have hrest := (holds_append.1 hmemory).2
    rw [hoffset, hmid] at hrest
    rw [← hp'] at hrest ⊢
    exact hrest
  have hiretq := (holds_append.1 hregs).2
  rw [length_around] at hiretq
  rw [exec_popAround hhigh hlow hregs, exec_cons, exec_nil]
  obtain ⟨hrip, hcs, hrflags, hsp, hss⟩ : _ ∧ _ ∧ _ ∧ _ ∧ _ :=
    ⟨hiretq 0 _ rfl, hiretq 1 _ rfl, hiretq 2 _ rfl, hiretq 3 _ rfl, hiretq 4 _ rfl⟩
  rw [offset_zero] at hrip
  refine Processor.ext (Cpu.ext (funext fun r => ?_) hrip hrflags hcs hss ?_ ?_) ?_
  · by_cases hr : r = .rsp
    · rw [hr]
      refine hsp.trans ?_
      simp
    · rw [← hp']
      simp [Instr.step, Cpu.setReg, hr]
  · rw [← hp']
    exact hcr3
  · rw [← hp']
    rfl
  · rw [← hp']
    rfl

/-! ### Interrupts -/

theorem interrupted_interrupt (handler : UInt64) (p : Processor l) :
    Interrupted p.cpu (interrupt handler p) := by
  obtain ⟨hrsp, hmemory⟩ := interrupt_frame handler (p := p) rfl
  refine ⟨?_, fun r hr => interrupt_reg handler p hr, rfl, rfl⟩
  rw [hrsp, hmemory]
  exact holds_storeWords (by simp [interruptFrame])

theorem Interrupted.flags (h : Interrupted c p) (flags : UInt64) :
    Interrupted c { p with cpu := { p.cpu with rflags := flags } } := ⟨h.frame, h.reg, h.vector, h.cr3⟩

theorem interrupted_trap (handler : UInt64) (p : Processor l) : Interrupted p.cpu (trap handler p) :=
  (interrupted_interrupt handler p).flags p.cpu.rflags

/-- The stack of the function: where a handler that pushes `n` words has `rsp` when it calls it. -/
def callStack (p : Processor l) (n : ℕ) : UInt64 := (p.cpu.reg .rsp &&& ~~~0xF) - 8 * .ofNat (n + 5)

/-- Memory when the function is entered. -/
def callMemory (p : Processor l) (high low : List Reg) (ret : UInt64) : UInt64 → UInt64 :=
  let sp := callStack p (pushedWords l high low)
  storeWords p.memory (sp - 8) (ret :: (pushed p.cpu high low sp ++ interruptFrame p.cpu))

/-- The addresses of what the handler and the interrupt have pushed. -/
def guarded (p : Processor l) (high low : List Reg) : Set UInt64 :=
  block (callStack p (pushedWords l high low)) (pushedWords l high low + 5)

/-- The addresses of the stack that a function with `depth` words uses. -/
def scratch (p : Processor l) (high low : List Reg) (depth : ℕ) : Set UInt64 :=
  block (callStack p (pushedWords l high low) - 8 - 8 * .ofNat depth) depth

/-- An address that is a multiple of 16, less a number of words. -/
theorem sub_words_and (a : UInt64) {n : ℕ} (hn : n < 2 ^ 61) :
    ((a &&& ~~~0xF) - 8 * .ofNat n) &&& 0xF = if n % 2 = 0 then 0 else 8 := by
  have hsize : UInt64.size = 2 ^ 64 := rfl
  have hmask : ∀ b : UInt64, (b &&& 0xF).toNat = b.toNat % 16 := fun b => by
    rw [UInt64.toNat_and]
    exact Nat.and_two_pow_sub_one_eq_mod b.toNat 4
  have halign : (a &&& ~~~0xF).toNat % 16 = 0 := by
    rw [← hmask, UInt64.and_assoc, show (~~~0xF : UInt64) &&& 0xF = 0 from rfl, UInt64.and_zero]
    rfl
  have hwords : ((8 : UInt64) * .ofNat n).toNat = 8 * n := by
    rw [UInt64.toNat_mul, UInt64.toNat_ofNat_of_lt' (by omega), show (8 : UInt64).toNat = 8 from rfl]
    omega
  have hlt := (a &&& ~~~0xF).toNat_lt
  refine UInt64.toNat_inj.1 ?_
  rw [hmask, UInt64.toNat_sub, hwords]
  split_ifs with hparity
  · change _ = 0
    omega
  · change _ = 8
    omega

theorem length_frame_words (c : Cpu l) (high low : List Reg) (sp : UInt64) :
    (pushed c high low sp ++ interruptFrame c).length = pushedWords l high low + 5 := by
  rw [List.length_append, length_pushed, interruptFrame]
  rfl

theorem callStack_eq {n : ℕ} (hrsp : q.cpu.reg .rsp = (p.cpu.reg .rsp &&& ~~~0xF) - 8 * .ofNat 5) :
    callStack p n = q.cpu.reg .rsp - 8 * .ofNat n := by
  rw [callStack, hrsp, UInt64.ofNat_add]
  grind

theorem callStack_and (p : Processor l) {n : ℕ} (hn : n < 2 ^ 59) :
    (callStack p n - 8) &&& 0xF = if n % 2 = 0 then 0 else 8 := by
  have hwhole : callStack p n - 8 = (p.cpu.reg .rsp &&& ~~~0xF) - 8 * .ofNat (n + 5 + 1) := by
    rw [callStack, UInt64.ofNat_add (n + 5), show UInt64.ofNat 1 = 1 from rfl]
    grind
  rw [hwhole, sub_words_and _ (by omega)]
  split_ifs <;> first | rfl | omega

/-- What the interrupt and the handler have pushed is there when the function is entered. -/
theorem holds_callMemory (ret : UInt64) (hcount : pushedWords l high low < 2 ^ 59) :
    Holds (callMemory p high low ret) (callStack p (pushedWords l high low))
      (pushed p.cpu high low (callStack p (pushedWords l high low)) ++ interruptFrame p.cpu) := by
  rw [callMemory]
  set sp := callStack p (pushedWords l high low)
  have hlength := length_frame_words p.cpu high low sp
  have hall := @holds_storeWords _ p.memory (sp - 8) (ret :: (pushed p.cpu high low sp ++ interruptFrame p.cpu))
    (by rw [List.length_cons, hlength]; omega)
  rw [holds_cons, show sp - 8 + 8 = sp by grind] at hall
  exact hall.2

/-- The function's own stack ends below that. -/
theorem disjoint_scratch (p : Processor l) {depth : ℕ} (hcount : pushedWords l high low < 2 ^ 59)
    (hdepth : depth < 2 ^ 60) : Disjoint (scratch p high low depth) (guarded p high low) := by
  rw [scratch, guarded]
  set sp := callStack p (pushedWords l high low)
  have hbase : sp = sp - 8 - 8 * .ofNat depth + 8 * .ofNat (depth + 1) := by
    rw [UInt64.ofNat_add, show UInt64.ofNat 1 = 1 from rfl]
    grind
  nth_rewrite 2 [hbase]
  exact disjoint_block_offset (Nat.le_succ depth) (by omega)

theorem entered_callMemory (hq : Interrupted p.cpu q) (hhigh : Reg.rsp ∉ high) (hlow : Reg.rsp ∉ low)
    (hlen : low.length + (high.length + 1) ≤ 16)
    (hrsp : q.cpu.reg .rsp = (p.cpu.reg .rsp &&& ~~~0xF) - 8 * .ofNat 5)
    (hmemory : q.memory = storeWords p.memory (q.cpu.reg .rsp) (interruptFrame p.cpu)) (ret : UInt64) :
    (entered (pushAround high low) ret q).memory = callMemory p high low ret := by
  have hwords := words_le l
  have hsp := callStack_eq (n := pushedWords l high low) hrsp
  obtain ⟨-, -, -, -, hentered⟩ := entered_eq hq hhigh hlow (by omega) ret _ hsp
  rw [callMemory]
  set sp := callStack p (pushedWords l high low)
  have hnext : q.cpu.reg .rsp = sp - 8 + 8 * .ofNat (ret :: pushed p.cpu high low sp).length := by
    rw [List.length_cons, length_pushed, offset_succ, hsp]
    grind
  rw [hentered, hmemory, hnext, storeWords_storeWords ?_, List.cons_append]
  rw [← List.length_append, List.cons_append, List.length_cons, length_frame_words, pushedWords]
  omega

/-- **A handler runs its function**, on the memory that it has when it is entered, and returns to the
interrupted processor with what the function returns in the register that is not saved. -/
theorem trampoline_calls {f : CFunction} {depth : ℕ} {align ret v : UInt64} {m : UInt64 → UInt64}
    {body : Processor l → Processor l} (hbody : Compiled f depth align body) (hhigh : Reg.rsp ∉ high)
    (hlow : Reg.rsp ∉ low) (hall : ∀ r, (r = .rsp ∨ r ∈ high ∨ r ∈ low) ∨ r = .rax)
    (hlen : low.length + (high.length + 1) ≤ 16)
    (halign : align = if (pushedWords l high low) % 2 = 0 then 0 else 8)
    (hq : Interrupted p.cpu q) (hrsp : q.cpu.reg .rsp = (p.cpu.reg .rsp &&& ~~~0xF) - 8 * .ofNat 5)
    (hmemory : q.memory = storeWords p.memory (q.cpu.reg .rsp) (interruptFrame p.cpu))
    (hf : f p.cpu.arguments (callMemory p high low ret) = some (v, m))
    (hkeep : ∀ b ∈ guarded p high low, m b = callMemory p high low ret b) (hdepth : depth < 2 ^ 60) :
    (trampoline (pushAround high low) (popAround high low) ret body q).cpu =
        { p.cpu with reg := fun r => if r = .rsp ∨ r ∈ high ∨ r ∈ low then p.cpu.reg r else v } ∧
      ∀ b ∉ scratch p high low depth,
        (trampoline (pushAround high low) (popAround high low) ret body q).memory b = m b := by
  have hwords := words_le l
  have hcount : pushedWords l high low < 2 ^ 59 := by
    rw [pushedWords]
    omega
  -- memory is what the function expects
  have hcall := entered_callMemory hq hhigh hlow hlen hrsp hmemory ret
  obtain ⟨hsp', hreg', hflags', hcr3', -⟩ := entered_eq hq hhigh hlow (by omega) ret _ (callStack_eq hrsp)
  have harguments : (entered (pushAround high low) ret q).cpu.arguments = p.cpu.arguments := by
    funext i
    refine hreg' _ ?_
    fin_cases i <;> decide
  have halign' : (entered (pushAround high low) ret q).cpu.reg .rsp &&& 0xF = align := by
    rw [hsp', callStack_and p hcount, halign]
  have hdirection : (entered (pushAround high low) ret q).cpu.rflags &&& 0x400 = 0 := by
    rw [hflags', UInt64.and_assoc, show (~~~0x400 : UInt64) &&& 0x400 = 0 from rfl, UInt64.and_zero]
  obtain ⟨hrax, hreturn, hcr3, hafter⟩ := hbody _ v m halign' hdirection (by rw [harguments, hcall, hf])
  rw [hsp'] at hreturn hafter
  -- and what the handler has pushed is above its stack
  have hsame : ∀ b ∈ guarded p high low,
      (body (entered (pushAround high low) ret q)).memory b = callMemory p high low ret b := fun b hb => by
    rw [hafter b (Set.disjoint_right.1 (disjoint_scratch p hcount hdepth) hb), hkeep b hb]
  have hholds := (holds_callMemory ret hcount).congr fun b hb =>
    hsame b (by rwa [length_frame_words] at hb)
  rw [trampoline_restores hhigh hlow (by rw [hreturn]; grind) (hcr3.trans hcr3') hholds rfl]
  refine ⟨Cpu.ext (funext fun r => ?_) rfl rfl rfl rfl rfl rfl, hafter⟩
  dsimp only
  split_ifs with hr
  · rfl
  · rw [(hall r).resolve_left hr, hrax]

/-- **The handlers of the devices change nothing** in the processor that they interrupt. Their functions
run on a stack that is a multiple of 16 when they are entered, not 8 more as the calling convention has it. -/
theorem deviceInterrupt_restores {f : CFunction} {depth : ℕ} {handler ret v : UInt64} {m : UInt64 → UInt64}
    {body : Processor l → Processor l} (hbody : Compiled f depth 0 body) (hdepth : depth < 2 ^ 60)
    (hf : f p.cpu.arguments (callMemory p deviceHigh handlerLow ret) = some (v, m))
    (hkeep : ∀ b ∈ guarded p deviceHigh handlerLow, m b = callMemory p deviceHigh handlerLow ret b) :
    (deviceInterrupt ret body (interrupt handler p)).cpu = p.cpu ∧
      ∀ b ∉ scratch p deviceHigh handlerLow depth,
        (deviceInterrupt ret body (interrupt handler p)).memory b = m b := by
  have hall : ∀ r, r = .rsp ∨ r ∈ deviceHigh ∨ r ∈ handlerLow := by
    intro r
    cases r <;> decide
  obtain ⟨hrsp, hmemory⟩ := interrupt_frame handler (p := p) rfl
  rw [deviceInterrupt_eq]
  obtain ⟨hcpu, hm⟩ := trampoline_calls hbody (by decide) (by decide) (fun r => Or.inl (hall r)) (by decide)
    (by cases l <;> rfl) (interrupted_interrupt handler p) hrsp (by rw [hmemory, hrsp]) hf hkeep hdepth
  refine ⟨?_, hm⟩
  rw [hcpu]
  exact Cpu.ext (funext fun r => if_pos (hall r)) rfl rfl rfl rfl rfl rfl

/-- A function that only returns. -/
def returns (p : Processor l) : Processor l :=
  { p with cpu := (p.cpu.setReg .rsp (p.cpu.reg .rsp + 8)).setReg .rax 0 }

theorem compiled_returns {f : CFunction} {align : UInt64}
    (hf : ∀ a m v m', f a m = some (v, m') → v = 0 ∧ m' = m) :
    Compiled f 0 align (returns : Processor l → Processor l) := by
  intro p v m _ _ hcall
  obtain ⟨rfl, rfl⟩ := hf _ _ _ _ hcall
  exact ⟨rfl, rfl, rfl, fun _ _ => rfl⟩

/-- A processor with its stack at `0x20008`. -/
def idle : Processor .avx2 := ⟨⟨fun _ => 0x20008, 0x3000, 0x202, 8, 16, 0x5000, fun _ _ => 7⟩, fun _ => 0⟩

theorem deviceInterrupt_restores_returns :
    (deviceInterrupt 0x1000 returns (interrupt 0x2000 idle)).cpu = idle.cpu ∧
      ∀ b ∉ scratch idle deviceHigh handlerLow 0,
        (deviceInterrupt 0x1000 returns (interrupt 0x2000 idle)).memory b =
          callMemory idle deviceHigh handlerLow 0x1000 b :=
  deviceInterrupt_restores (compiled_returns fun _ _ _ _ h => by
    obtain ⟨rfl, rfl⟩ := Prod.mk.inj (Option.some.inj h)
    exact ⟨rfl, rfl⟩) (by decide) (f := fun _ m => some (0, m)) rfl fun _ _ => rfl

end Naul
