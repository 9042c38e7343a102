import Naul.Lib.Trace
import Naul.Scheduler.Frame

/-!
# Switching threads (`src/scheduler.c`)

A machine of one processor and any number of threads. The running thread does anything to the processor
and to memory; a timer interrupt or a yield suspends it and `nextThread` resumes some thread;
`createThread` builds the stack of a new thread, in the two parts between which it can be interrupted.
Which thread comes next is left open, and so are the registers that the code itself uses before it loads
a frame.

`Status` records how a thread that is not running came to be suspended, and `resumed` what `nextThread`
made of it. `resumed_right` says that an interrupted thread finds all its registers as they were, and that
a new thread starts as it should.
-/

namespace Naul.Switch

open Stack Trace

variable {l : Layout}

/-- The stack of a new thread, and what `createThread` stores in its `InterruptFrame`. -/
structure Initial where
  stack : UInt64
  function : UInt64
  cs : UInt64
  flags : UInt64
  ss : UInt64

/-- The address of the `InterruptFrame`, which is the first `sp` of the thread. -/
def Initial.sp (i : Initial) : UInt64 := i.stack + 0x100000 - 40 - 8

/-- The words of the `InterruptFrame` and the return address above it. -/
def Initial.words (exitThread : UInt64) (i : Initial) : List UInt64 :=
  [i.function, i.cs, i.flags, i.sp + 40, i.ss, exitThread]

/-- How a thread came to be suspended. -/
inductive Origin (l : Layout)
  /-- By an interrupt of the processor `c`. -/
  | interrupted (c : Cpu l)
  /-- By its creation, on the processor `creator`. -/
  | created (creator : Cpu l) (i : Initial)

/-- A thread that is not running. -/
inductive Status (l : Layout)
  /-- Its `InterruptFrame` is stored. -/
  | initial (i : Initial)
  /-- Its registers are on its stack. -/
  | suspended (o : Origin l)

/-- A thread that `nextThread` resumed, and the processor as it left it. -/
structure Resumption (l : Layout) where
  thread : ℕ
  origin : Origin l
  processor : Processor l

structure Machine (l : Layout) where
  processor : Processor l
  currentThread : ℕ
  sp : ℕ → UInt64
  /-- The address of a thread's stack and its number of words. -/
  stack : ℕ → Option (UInt64 × ℕ)
  status : ℕ → Option (Status l)
  resumed : List (Resumption l)

/-- The two handlers that suspend a thread. -/
inductive Handler
  /-- The one of a yield. -/
  | skipThread
  /-- The one of the timer. -/
  | updateScheduler

def Handler.instrs (l : Layout) : Handler → List Instr
  | .skipThread => Naul.skipThread l
  | .updateScheduler => Naul.updateScheduler l

inductive Event (l : Layout)
  /-- The running thread leaves the processor and memory like this. -/
  | execute (p : Processor l)
  | interrupt (h : Handler) (address : UInt64) (next : ℕ) (scratch : Reg → UInt64)
  /-- `createThread`, up to `cli`. -/
  | storeFrame (thread : ℕ) (i : Initial)
  /-- `createThread`, from `cli` on. -/
  | createThread (thread : ℕ)
  | exitThread (next : ℕ) (scratch : Reg → UInt64)
  /-- The thread and its stack are given back. -/
  | destroyThread (thread : ℕ)

/-- The processor when a handler comes to `jmp nextThread`. -/
def handled (m : Machine l) (h : Handler) (address : UInt64) : Processor l :=
  exec (h.instrs l) (Naul.interrupt address m.processor)

def suspend (m : Machine l) (h : Handler) (address : UInt64) : Machine l :=
  { m with
    processor := handled m h address
    sp := Function.update m.sp m.currentThread ((handled m h address).cpu.reg .rsp)
    status := Function.update m.status m.currentThread
      (some (.suspended (.interrupted m.processor.cpu))) }

/-- The processor after `nextThread`, when it has found the thread `next`. -/
def loaded (m : Machine l) (next : ℕ) (scratch : Reg → UInt64) : Processor l :=
  exec (Naul.nextThread l)
    ⟨{ m.processor.cpu with reg := Function.update scratch .rsp (m.sp next) }, m.processor.memory⟩

def nextThread (m : Machine l) (next : ℕ) (scratch : Reg → UInt64) : Option (Machine l) :=
  match m.status next with
  | some (.suspended o) => some { m with
      processor := loaded m next scratch
      currentThread := next
      status := Function.update m.status next none
      resumed := ⟨next, o, loaded m next scratch⟩ :: m.resumed }
  | _ => none

/-- The processor when `createThread` has pushed the registers on the stack of the new thread. -/
def pushed (m : Machine l) (thread : ℕ) : Processor l :=
  exec (pushInitial l) ⟨m.processor.cpu.setReg .rsp (m.sp thread), m.processor.memory⟩

variable (exitThread : UInt64)

def step (m : Machine l) : Event l → Option (Machine l)
  | .execute p => some { m with processor := p }
  | .interrupt h address next scratch => nextThread (suspend m h address) next scratch
  | .storeFrame thread i =>
    some { m with
      processor := ⟨m.processor.cpu, storeWords m.processor.memory i.sp (i.words exitThread)⟩
      sp := Function.update m.sp thread i.sp
      stack := Function.update m.stack thread (some (i.stack, 0x20000))
      status := Function.update m.status thread (some (.initial i)) }
  | .createThread thread =>
    match m.status thread with
    | some (.initial i) => some { m with
        processor := ⟨(pushed m thread).cpu.setReg .rsp (m.processor.cpu.reg .rsp),
          (pushed m thread).memory⟩
        sp := Function.update (Function.update m.sp m.currentThread (m.processor.cpu.reg .rsp)) thread
          ((pushed m thread).cpu.reg .rsp)
        status := Function.update m.status thread (some (.suspended (.created m.processor.cpu i))) }
    | _ => none
  | .exitThread next scratch => nextThread m next scratch
  | .destroyThread thread =>
    if thread = m.currentThread then none
    else some { m with
      stack := Function.update m.stack thread none
      status := Function.update m.status thread none }

/-- One thread runs, on the stack `stack`. -/
def start (p : Processor l) (stack : UInt64 × ℕ) : Machine l where
  processor := p
  currentThread := 0
  sp _ := 0
  stack := Function.update (fun _ => none) 0 (some stack)
  status _ := none
  resumed := []

/-! ### What is promised, and what is claimed -/

/-- The addresses of the stack of a thread. -/
def stackOf (m : Machine l) (t : ℕ) : Set UInt64 :=
  match m.stack t with
  | some (a, n) => block a n
  | none => ∅

/-- The number of words of the thread's that lie on its stack. -/
def Status.size : Status l → ℕ
  | .initial _ => 6
  | .suspended (.interrupted _) => l.frameWords
  | .suspended (.created ..) => l.frameWords + 1

/-- Threads run on disjoint stacks, which are large enough for the frame of an interrupt, and leave what
lies on the stacks of suspended threads. -/
def Fits (m : Machine l) : Event l → Prop
  | .execute p => ∀ t s, m.status t = some s →
      ∀ a ∈ block (m.sp t) s.size, p.memory a = m.processor.memory a
  | .interrupt .. => block ((m.processor.cpu.reg .rsp &&& ~~~0xF) - 8 * .ofNat l.frameWords) l.frameWords ⊆
      stackOf m m.currentThread
  | .storeFrame thread i => thread ≠ m.currentThread ∧ i.stack % 16 = 0 ∧
      ∀ t, Disjoint (block i.stack 0x20000) (stackOf m t)
  | _ => True

/-- What `nextThread` has to make of a thread: the processor it was interrupted with, or the start of its
function. -/
def Origin.Resumes : Origin l → Processor l → Prop
  | .interrupted c, p => p.cpu = c
  | .created creator i, p => p.cpu.rip = i.function ∧ p.cpu.reg .rbp = 0 ∧ p.cpu.cr3 = creator.cr3 ∧
      p.cpu.reg .rsp % 16 = 8 ∧ p.memory (p.cpu.reg .rsp) = exitThread

/-! ### The frames -/

/-- The processor that a new thread starts with. -/
def initialCpu (creator : Cpu l) (i : Initial) : Cpu l where
  reg := Function.update (Function.update creator.reg .rbp 0) .rsp (i.sp + 40)
  rip := i.function
  rflags := i.flags
  cs := i.cs
  ss := i.ss
  cr3 := creator.cr3
  vector := creator.vector

/-- The words of a thread that is not running, from its `sp`. -/
def Status.words (sp : UInt64) : Status l → List UInt64
  | .initial i => i.words exitThread
  | .suspended (.interrupted c) => frame c sp
  | .suspended (.created creator i) => frame (initialCpu creator i) sp ++ [exitThread]

/-- Where the words of a new thread lie on its stack. -/
def Status.Placed (m : Machine l) (t : ℕ) : Status l → Prop
  | .initial i => m.sp t = i.sp ∧ m.stack t = some (i.stack, 0x20000) ∧ i.stack % 16 = 0
  | .suspended (.created _ i) => m.sp t + 8 * .ofNat l.savedWords = i.sp ∧ i.stack % 16 = 0
  | .suspended (.interrupted _) => True

/-- The words of the threads that are not running lie on their stacks, which are disjoint. -/
structure Kept (m : Machine l) : Prop where
  held : ∀ t s, m.status t = some s → Holds m.processor.memory (m.sp t) (s.words exitThread (m.sp t))
  onStack : ∀ t s, m.status t = some s → block (m.sp t) s.size ⊆ stackOf m t
  placed : ∀ t s, m.status t = some s → s.Placed m t
  disjoint : ∀ t u, t ≠ u → Disjoint (stackOf m t) (stackOf m u)
  right : ∀ r ∈ m.resumed, r.origin.Resumes exitThread r.processor

/-- So it is between two events, when the current thread is running. -/
structure Safe (m : Machine l) : Prop extends Kept exitThread m where
  current : m.status m.currentThread = none

variable {exitThread} {m m' : Machine l}

theorem length_words (s : Status l) (sp : UInt64) : (s.words exitThread sp).length = s.size := by
  match s with
  | .initial i => rfl
  | .suspended (.interrupted c) => exact length_frame c sp
  | .suspended (.created creator i) =>
    rw [Status.words, List.length_append, length_frame]
    rfl

theorem Status.Placed.congr {s : Status l} {t : ℕ} (h : s.Placed m t) (hsp : m'.sp t = m.sp t)
    (hstack : m'.stack t = m.stack t) : s.Placed m' t := by
  match s with
  | .initial i => exact ⟨hsp.trans h.1, hstack.trans h.2.1, h.2.2⟩
  | .suspended (.interrupted c) => trivial
  | .suspended (.created creator i) => exact ⟨by rw [hsp]; exact h.1, h.2⟩

/-- A new thread is resumed with the processor that is on its stack. -/
theorem created_resumes {creator : Cpu l} {i : Initial} {sp : UInt64} {memory : UInt64 → UInt64}
    (hplaced : sp + 8 * .ofNat l.savedWords = i.sp) (haligned : i.stack % 16 = 0)
    (hheld : Holds memory sp (frame (initialCpu creator i) sp ++ [exitThread])) :
    (Origin.created creator i).Resumes exitThread ⟨initialCpu creator i, memory⟩ := by
  have hrsp : (initialCpu creator i).reg .rsp = i.sp + 40 := by simp [initialCpu]
  refine ⟨rfl, ?_, rfl, ?_, ?_⟩
  · simp [initialCpu]
  · have hnat : i.stack.toNat % 16 = 0 := congrArg UInt64.toNat haligned
    have hlt := i.stack.toNat_lt
    rw [hrsp, Initial.sp, ← UInt64.toNat_inj, UInt64.toNat_mod, UInt64.toNat_add, UInt64.toNat_sub,
      UInt64.toNat_sub, UInt64.toNat_add]
    simp only [UInt64.reduceToNat]
    omega
  · have hexit := (holds_cons.1 (holds_append.1 hheld).2).1
    rw [length_frame, Layout.frameWords, offset_add, hplaced] at hexit
    rw [hrsp]
    exact hexit

/-- The processor that a suspended thread is resumed with. -/
def Origin.cpu : Origin l → Cpu l
  | .interrupted c => c
  | .created creator i => initialCpu creator i

/-- The processor of a thread that is kept is loaded. -/
theorem loaded_eq {next : ℕ} {o : Origin l} (hm : Kept exitThread m)
    (hstatus : m.status next = some (.suspended o)) (scratch : Reg → UInt64) :
    loaded m next scratch = ⟨o.cpu, m.processor.memory⟩ := by
  have hrsp : Function.update scratch .rsp (m.sp next) .rsp = m.sp next := Function.update_self ..
  have hheld := hm.held next _ hstatus
  refine exec_nextThread ?_
  cases o with
  | interrupted c =>
    dsimp only
    rw [hrsp]
    exact hheld
  | created creator i =>
    dsimp only
    rw [hrsp]
    exact (holds_append.1 hheld).1

/-- **`nextThread` resumes a thread that is kept.** -/
theorem nextThread_safe {next : ℕ} {scratch : Reg → UInt64} (hm : Kept exitThread m)
    (h : nextThread m next scratch = some m') : Safe exitThread m' := by
  rw [nextThread] at h
  split at h
  · rename_i o hstatus
    rw [loaded_eq hm hstatus] at h
    obtain rfl := Option.some.inj h
    have hother : ∀ t s, Function.update m.status next none t = some s → m.status t = some s := by
      intro t s hs
      by_cases ht : t = next
      · rw [ht, Function.update_self] at hs
        cases hs
      · rwa [Function.update_of_ne ht] at hs
    refine ⟨⟨fun t s hs => hm.held t s (hother t s hs), fun t s hs => hm.onStack t s (hother t s hs), ?_,
      hm.disjoint, ?_⟩, Function.update_self ..⟩
    · exact fun t s hs => (hm.placed t s (hother t s hs)).congr rfl rfl
    · intro r hr
      obtain rfl | hr := List.mem_cons.1 hr
      · cases o with
        | interrupted c => rfl
        | created creator i =>
          obtain ⟨hplaced, haligned⟩ := hm.placed next _ hstatus
          exact created_resumes hplaced haligned (hm.held next _ hstatus)
      · exact hm.right r hr
  · cases h

/-! ### The steps -/

/-- The threads are kept when one of them, which had no words on its stack, stores its words there. -/
theorem Kept.store {t : ℕ} {s : Status l} (hm : Kept exitThread m)
    (hmemory : ∀ a ∉ stackOf m' t, m'.processor.memory a = m.processor.memory a)
    (hstack : ∀ u, u ≠ t → m'.stack u = m.stack u) (hsp : ∀ u v, u ≠ t → m.status u = some v → m'.sp u = m.sp u)
    (hstatus : m'.status = Function.update m.status t (some s)) (hresumed : m'.resumed = m.resumed)
    (hdisjoint : ∀ u, u ≠ t → Disjoint (stackOf m' t) (stackOf m' u))
    (hheld : Holds m'.processor.memory (m'.sp t) (s.words exitThread (m'.sp t)))
    (honStack : block (m'.sp t) s.size ⊆ stackOf m' t) (hplaced : s.Placed m' t) : Kept exitThread m' := by
  have hstackOf : ∀ u, u ≠ t → stackOf m' u = stackOf m u := fun u hu => by
    rw [stackOf, hstack u hu, stackOf]
  have hsame : m'.status t = some s := by rw [hstatus, Function.update_self]
  have hother : ∀ u, u ≠ t → m'.status u = m.status u := fun u hu => by
    rw [hstatus, Function.update_of_ne hu]
  refine ⟨fun u v hv => ?_, fun u v hv => ?_, fun u v hv => ?_, fun u w huw => ?_, hresumed ▸ hm.right⟩
  · by_cases hu : u = t
    · rw [hu, hsame, Option.some.injEq] at hv
      rw [hu, ← hv]
      exact hheld
    · rw [hother u hu] at hv
      rw [hsp u v hu hv]
      refine (hm.held u v hv).congr fun a ha => hmemory a ?_
      rw [length_words] at ha
      have hdis := hdisjoint u hu
      rw [hstackOf u hu] at hdis
      exact Set.disjoint_right.1 hdis (hm.onStack u v hv ha)
  · by_cases hu : u = t
    · rw [hu, hsame, Option.some.injEq] at hv
      rw [hu, ← hv]
      exact honStack
    · rw [hother u hu] at hv
      rw [hsp u v hu hv, hstackOf u hu]
      exact hm.onStack u v hv
  · by_cases hu : u = t
    · rw [hu, hsame, Option.some.injEq] at hv
      rw [hu, ← hv]
      exact hplaced
    · rw [hother u hu] at hv
      exact (hm.placed u v hv).congr (hsp u v hu hv) (hstack u hu)
  · by_cases hu : u = t
    · rw [hu]
      exact hdisjoint w (by rwa [ne_comm, ← hu])
    · by_cases hw : w = t
      · rw [hw]
        exact (hdisjoint u hu).symm
      · rw [hstackOf u hu, hstackOf w hw]
        exact hm.disjoint u w huw

/-- The handlers leave the frame of the interrupted processor. -/
theorem handled_frame {h : Handler} {address sp : UInt64}
    (hsp : sp = (m.processor.cpu.reg .rsp &&& ~~~0xF) - 8 * .ofNat l.frameWords) :
    (handled m h address).cpu.reg .rsp = sp ∧
      (handled m h address).memory = storeWords m.processor.memory sp (frame m.processor.cpu sp) := by
  rw [handled]
  cases h with
  | skipThread => exact exec_skipThread address hsp
  | updateScheduler =>
    rw [Handler.instrs, exec_updateScheduler]
    exact exec_skipThread address hsp

/-- An interrupted thread is kept. -/
theorem suspend_kept {h : Handler} {address sp : UInt64} (hm : Safe exitThread m)
    (hsp : sp = (m.processor.cpu.reg .rsp &&& ~~~0xF) - 8 * .ofNat l.frameWords)
    (honStack : block sp l.frameWords ⊆ stackOf m m.currentThread) :
    Kept exitThread (suspend m h address) := by
  obtain ⟨hrsp, hmemory⟩ := @handled_frame _ m h address sp hsp
  have hle := frameWords_le l
  have hlen := length_frame m.processor.cpu sp
  have hspeq : (suspend m h address).sp m.currentThread = sp := by
    rw [suspend, hrsp]
    exact Function.update_self ..
  refine hm.store (t := m.currentThread) (s := .suspended (.interrupted m.processor.cpu)) ?_
    (fun _ _ => rfl) (fun u _ hu _ => Function.update_of_ne hu ..) rfl rfl
    (fun u hu => hm.disjoint _ _ hu.symm) ?_ ?_ trivial
  · intro a ha
    rw [suspend, hmemory]
    refine storeWords_of_notMem fun hblock => ha (honStack ?_)
    rwa [hlen] at hblock
  · rw [hspeq, suspend, hmemory]
    exact holds_storeWords (by omega)
  · rw [hspeq]
    exact honStack

theorem Initial.sp_eq (i : Initial) : i.sp = i.stack + 8 * .ofNat 131066 := by
  rw [Initial.sp, show UInt64.ofNat 131066 = 131066 from rfl]
  grind

/-- The `InterruptFrame` of a new thread is stored on its stack. -/
theorem storeFrame_safe {t : ℕ} {i : Initial} (hm : Safe exitThread m) (hfits : Fits m (.storeFrame t i))
    (h : step exitThread m (.storeFrame t i) = some m') : Safe exitThread m' := by
  obtain ⟨hnew, haligned, hdisjoint⟩ := hfits
  rw [step, Option.some.injEq] at h
  have hmemory : m'.processor.memory = storeWords m.processor.memory i.sp (i.words exitThread) := by
    rw [← h]
  have hsp : m'.sp = Function.update m.sp t i.sp := by rw [← h]
  have hstack : m'.stack = Function.update m.stack t (some (i.stack, 0x20000)) := by rw [← h]
  have hstatus : m'.status = Function.update m.status t (some (.initial i)) := by rw [← h]
  have hblock : block i.sp 6 ⊆ block i.stack 0x20000 := by
    rw [i.sp_eq]
    exact block_offset_subset (by decide)
  have hstackOf : stackOf m' t = block i.stack 0x20000 := by
    rw [stackOf, hstack, Function.update_self]
  have hspt : m'.sp t = i.sp := by rw [hsp, Function.update_self]
  refine ⟨hm.store (t := t) (s := .initial i) ?_ (fun u hu => by rw [hstack, Function.update_of_ne hu])
    (fun u _ hu _ => by rw [hsp, Function.update_of_ne hu]) hstatus (by rw [← h]) ?_ ?_ ?_ ?_, ?_⟩
  · intro a ha
    rw [hmemory]
    refine storeWords_of_notMem fun hmem => ha ?_
    rw [hstackOf]
    exact hblock hmem
  · intro u hu
    rw [hstackOf, stackOf, hstack, Function.update_of_ne hu, ← stackOf]
    exact hdisjoint u
  · rw [hmemory, hspt]
    exact holds_storeWords ((by decide : 6 ≤ 2 ^ 61) : (i.words exitThread).length ≤ 2 ^ 61)
  · rw [hstackOf, hspt]
    exact hblock
  · exact ⟨hspt, by rw [hstack, Function.update_self], haligned⟩
  · rw [hstatus, show m'.currentThread = m.currentThread by rw [← h], Function.update_of_ne hnew.symm]
    exact hm.current

/-- The frame of a new thread and its return address lie on its stack. -/
theorem Initial.frame_onStack (l : Layout) (i : Initial) :
    block (i.sp - 8 * .ofNat l.savedWords) (l.frameWords + 1) ⊆ block i.stack 0x20000 := by
  have hle := frameWords_le l
  have hframe : l.frameWords = l.savedWords + 5 := rfl
  have hsp : i.sp - 8 * .ofNat l.savedWords = i.stack + 8 * .ofNat (131066 - l.savedWords) := by
    have hsplit : 131066 = 131066 - l.savedWords + l.savedWords := by omega
    rw [i.sp_eq, hsplit, offset_add, Nat.add_sub_cancel]
    grind
  rw [hsp]
  exact block_offset_subset (by omega)

/-- The registers of a new thread are pushed on its stack. -/
theorem pushed_saved {t : ℕ} {sp : UInt64} (i : Initial) (hsp : sp = m.sp t - 8 * .ofNat l.savedWords) :
    (pushed m t).cpu.reg .rsp = sp ∧ (pushed m t).memory =
      storeWords m.processor.memory sp (saved (initialCpu m.processor.cpu i) sp) := by
  rw [pushed, pushInitial, pushInitialRegisters_eq]
  refine exec_pushSaved (fun q _ => ?_) (fun r hr hr' => ?_) rfl rfl ?_
  · rw [Instr.step, push_eq]
    simp [initialCpu]
  · simp [initialCpu, Cpu.setReg, hr, hr']
  · rw [hsp]
    dsimp only
    rw [setReg_self]

/-- What the step of `createThread` does. -/
theorem createThread_eq {t : ℕ} (h : step exitThread m (.createThread t) = some m') :
    ∃ i, m.status t = some (.initial i) ∧
      m'.sp = Function.update (Function.update m.sp m.currentThread (m.processor.cpu.reg .rsp)) t
        (m.sp t - 8 * .ofNat l.savedWords) ∧
      m'.processor.memory = storeWords m.processor.memory (m'.sp t)
        (saved (initialCpu m.processor.cpu i) (m'.sp t)) ∧
      m'.status = Function.update m.status t (some (.suspended (.created m.processor.cpu i))) ∧
      m'.stack = m.stack ∧ m'.currentThread = m.currentThread ∧ m'.resumed = m.resumed := by
  rw [step] at h
  split at h
  · rename_i i hinitial
    obtain ⟨hrsp, hmemory⟩ := pushed_saved (m := m) (t := t) i rfl
    obtain rfl := Option.some.inj h
    dsimp only
    rw [hrsp, Function.update_self]
    exact ⟨i, hinitial, rfl, hmemory, rfl, rfl, rfl, rfl⟩
  · cases h

/-- What `createThread` leaves on the new stack is the frame of a processor at the start of the function. -/
theorem createThread_safe {t : ℕ} (hm : Safe exitThread m)
    (h : step exitThread m (.createThread t) = some m') : Safe exitThread m' := by
  obtain ⟨i, hinitial, hsps, hmemory, hstatus, hstacks, hcurrent, hresumed⟩ := createThread_eq h
  obtain ⟨hsp, hstack, haligned⟩ := hm.placed t _ hinitial
  have hrunning : ∀ u v, m.status u = some v → u ≠ m.currentThread := by
    rintro u v hv rfl
    rw [hm.current] at hv
    cases hv
  have hstackOf : ∀ u, stackOf m' u = stackOf m u := fun u => by rw [stackOf, hstacks, stackOf]
  have hself : stackOf m' t = block i.stack 0x20000 := by rw [hstackOf, stackOf, hstack]
  have hspt : m'.sp t = m.sp t - 8 * .ofNat l.savedWords := by rw [hsps, Function.update_self]
  have hblock : block (m'.sp t) (l.frameWords + 1) ⊆ stackOf m' t := by
    rw [hself, hspt, hsp]
    exact i.frame_onStack l
  have hlen := length_saved (initialCpu m.processor.cpu i) (m'.sp t)
  have hmid : m'.sp t + 8 * .ofNat l.savedWords = m.sp t := by
    rw [hspt]
    grind
  have hheld : Holds m'.processor.memory (m'.sp t)
      ((Status.suspended (.created m.processor.cpu i)).words exitThread (m'.sp t)) := by
    rw [hmemory, Status.words, frame, List.append_assoc]
    refine Holds.storeWords ?_ ?_
    · rw [hlen, hmid]
      exact hm.held t _ hinitial
    · have hle := frameWords_le l
      have hrest : (interruptFrame (initialCpu m.processor.cpu i) ++ [exitThread]).length = 6 := rfl
      rw [Layout.frameWords] at hle
      omega
  refine ⟨hm.store (t := t) ?_ (fun u _ => by rw [hstacks]) (fun u v hu hv => ?_) hstatus hresumed
    (fun u hu => ?_) hheld hblock ⟨hmid.trans hsp, haligned⟩, ?_⟩
  · intro a ha
    rw [hmemory]
    refine storeWords_of_notMem fun hmem => ha (hblock ?_)
    rw [hlen] at hmem
    exact block_mono (by rw [Layout.frameWords]; omega) hmem
  · rw [hsps, Function.update_of_ne hu, Function.update_of_ne (hrunning u v hv)]
  · rw [hstackOf, hstackOf]
    exact hm.disjoint t u hu.symm
  · rw [hstatus, hcurrent, Function.update_of_ne (hrunning t _ hinitial).symm]
    exact hm.current

/-- The running thread leaves the words of the others as they are. -/
theorem execute_safe {p : Processor l} (hm : Safe exitThread m) (hfits : Fits m (.execute p)) :
    Safe exitThread { m with processor := p } := by
  refine ⟨⟨fun t s hs => ?_, hm.onStack, fun t s hs => (hm.placed t s hs).congr rfl rfl, hm.disjoint,
    hm.right⟩, hm.current⟩
  refine (hm.held t s hs).congr fun a ha => hfits t s hs a ?_
  rwa [length_words] at ha

/-- A thread is given back. -/
theorem destroyThread_safe {t : ℕ} (hm : Safe exitThread m)
    (h : step exitThread m (.destroyThread t) = some m') : Safe exitThread m' := by
  rw [step] at h
  split_ifs at h with ht
  obtain rfl := Option.some.inj h
  have hother : ∀ u s, Function.update m.status t none u = some s → u ≠ t ∧ m.status u = some s := by
    intro u s hs
    by_cases hu : u = t
    · rw [hu, Function.update_self] at hs
      cases hs
    · exact ⟨hu, by rwa [Function.update_of_ne hu] at hs⟩
  have hgone : stackOf { m with
      stack := Function.update m.stack t none
      status := Function.update m.status t none } t = ∅ := by
    simp [stackOf]
  have hstackOf : ∀ u, u ≠ t → stackOf { m with
      stack := Function.update m.stack t none
      status := Function.update m.status t none } u = stackOf m u := fun u hu => by
    simp [stackOf, Function.update_of_ne hu]
  refine ⟨⟨fun u s hs => hm.held u s (hother u s hs).2, fun u s hs => ?_, fun u s hs => ?_,
    fun u v huv => ?_, hm.right⟩, ?_⟩
  · rw [hstackOf u (hother u s hs).1]
    exact hm.onStack u s (hother u s hs).2
  · exact (hm.placed u s (hother u s hs).2).congr rfl (Function.update_of_ne (hother u s hs).1 ..)
  · by_cases hu : u = t
    · rw [hu, hgone]
      exact Set.empty_disjoint _
    · by_cases hv : v = t
      · rw [hv, hgone]
        exact Set.disjoint_empty _
      · rw [hstackOf u hu, hstackOf v hv]
        exact hm.disjoint u v huv
  · exact (Function.update_of_ne (Ne.symm ht) ..).trans hm.current

/-- **Every event keeps the threads that are not running.** -/
theorem step_safe {e : Event l} (hm : Safe exitThread m) (hfits : Fits m e)
    (h : step exitThread m e = some m') : Safe exitThread m' := by
  cases e with
  | execute p =>
    obtain rfl := Option.some.inj h
    exact execute_safe hm hfits
  | interrupt handler address next scratch => exact nextThread_safe (suspend_kept hm rfl hfits) h
  | storeFrame t i => exact storeFrame_safe hm hfits h
  | createThread t => exact createThread_safe hm h
  | exitThread next scratch => exact nextThread_safe hm.toKept h
  | destroyThread t => exact destroyThread_safe hm h

theorem start_safe (p : Processor l) (stack : UInt64 × ℕ) : Safe exitThread (start p stack) := by
  refine ⟨⟨fun t s hs => (by cases hs), fun t s hs => (by cases hs), fun t s hs => (by cases hs), ?_,
    fun r hr => (by cases hr)⟩, rfl⟩
  intro t u htu
  have hempty : ∀ t, t ≠ 0 → stackOf (start p stack) t = ∅ := fun t ht => by
    simp [stackOf, start, Function.update_of_ne ht]
  by_cases ht : t = 0
  · rw [hempty u (by omega)]
    exact Set.disjoint_empty _
  · rw [hempty t ht]
    exact Set.empty_disjoint _

/-- **Switching threads is transparent.** In every run of threads on disjoint stacks, with timer
interrupts and yields in any order, `nextThread` resumes an interrupted thread with the registers it was
interrupted with, and a new thread at its function, with 0 in `rbp`, the creator's CR3, a stack that is
aligned as after a call and `exitThread` as the return address. -/
theorem resumed_right {p : Processor l} {stack : UInt64 × ℕ} {es : List (Event l)}
    (hfits : Along (step exitThread) Fits (start p stack) es)
    (hrun : run (step exitThread) (start p stack) es = some m) :
    ∀ r ∈ m.resumed, r.origin.Resumes exitThread r.processor :=
  (run_invariant_along (fun _ _ _ => step_safe) (start_safe p stack) hfits hrun).right

/-- A thread creates another, the timer interrupts it, and the other exits. -/
def newThread : List (Event .avx2) :=
  [.storeFrame 1 ⟨0x100000, 0x7000, 8, 0x202, 16⟩, .createThread 1,
    .interrupt .updateScheduler 0x8000 1 fun _ => 1, .exitThread 0 fun _ => 2]

/-- Both are resumed as they should. -/
theorem resumed_right_newThread :
    ∃ (p : Processor .avx2) (m : Machine .avx2),
      run (step 0x5000) (start p (0x10000, 0x2000)) newThread = some m ∧
        m.resumed.map Resumption.thread = [0, 1] ∧
        ∀ r ∈ m.resumed, r.origin.Resumes 0x5000 r.processor := by
  let p : Processor .avx2 := ⟨⟨fun _ => 0x20000, 0x6000, 0x202, 8, 16, 0x1000, fun _ _ => 7⟩, fun _ => 0⟩
  obtain ⟨m, hrun, hthreads⟩ : ∃ m, run (step 0x5000) (start p (0x10000, 0x2000)) newThread = some m ∧
    m.resumed.map Resumption.thread = [0, 1] := ⟨_, rfl, rfl⟩
  have hinterrupt : ∀ m : Machine .avx2, m.processor.cpu.reg .rsp = 0x20000 →
      m.stack m.currentThread = some (0x10000, 0x2000) →
      Fits m (.interrupt .updateScheduler 0x8000 1 fun _ => 1) := by
    intro m hrsp hstack
    have hsp : (0x20000 &&& ~~~0xF : UInt64) - 8 * .ofNat Layout.avx2.frameWords =
        0x10000 + 8 * .ofNat 8106 := by decide
    rw [Fits, hrsp, stackOf, hstack, hsp]
    exact block_offset_subset (by decide)
  have hfits : Along (step 0x5000) Fits (start p (0x10000, 0x2000)) newThread := by
    refine ⟨⟨by decide, by decide, fun t => ?_⟩, fun s hs => ⟨trivial, fun s' hs' => ⟨?_, fun s'' hs'' =>
      ⟨trivial, fun _ _ => trivial⟩⟩⟩⟩
    · by_cases ht : t = 0
      · rw [ht]
        exact (disjoint_block (a := 0x10000) (by decide) (by decide)).symm
      · simp [stackOf, start, Function.update_of_ne ht]
    · obtain rfl := Option.some.inj hs
      obtain rfl := Option.some.inj hs'
      exact hinterrupt _ (setReg_self ..) rfl
  exact ⟨p, m, hrun, hthreads, resumed_right hfits hrun⟩

end Naul.Switch
