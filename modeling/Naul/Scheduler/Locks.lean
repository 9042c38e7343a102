import Naul.Scheduler.Conservation

/-!
# The locks of the kernel (`include/cpu.h`)

The machine of the scheduler has `waitingLock`. Here the threads also call the other functions of the
kernel that have a lock, and what the machine has as one step with memory is a call of the allocator.
Of a function only its `lock`s and `unlock`s matter, in their order: what it does before the next of
them, it does at the same place, and it may be interrupted there.

Nobody writes down who holds a lock. A thread that `destroyThread` takes out of the ring inside a
section never gets to its `unlock`.
-/

namespace Naul

namespace Kernel

inductive Lock
  | allocatorLock
  | filesystemLock
  | ipcLock
  | ttyLock
  deriving DecidableEq

instance decidableForallLock (p : Lock → Prop) [DecidablePred p] : Decidable (∀ l, p l) :=
  decidable_of_iff (p .allocatorLock ∧ p .filesystemLock ∧ p .ipcLock ∧ p .ttyLock)
    ⟨fun ⟨ha, hf, hi, ht⟩ l => by cases l <;> assumption, fun h => ⟨h _, h _, h _, h _⟩⟩

inductive Instr
  | lock (l : Lock)
  | unlock (l : Lock)
  /-- The end of `createThread`, between `cli` and `sti`. -/
  | link
  /-- The store that gives back the stack or the record of a thread that has been taken out. -/
  | free
  deriving DecidableEq

/-! ### The functions -/

def locked (l : Lock) (body : List Instr) : List Instr := .lock l :: (body ++ [.unlock l])

def allocate : List Instr := locked .allocatorLock []
def allocateAligned : List Instr := locked .allocatorLock []
def unallocate : List Instr := locked .allocatorLock []

def createThread : List Instr := allocate ++ allocateAligned ++ [.link]

def checkFolder : List Instr := locked .filesystemLock []
def checkFile : List Instr := locked .filesystemLock []
def createFolder : List Instr := allocate ++ allocate ++ locked .filesystemLock []
def createFile : List Instr := allocate ++ allocate ++ allocate ++ locked .filesystemLock []
def getFiles : List Instr := locked .filesystemLock allocate
def getFile : List Instr := locked .filesystemLock []
def deleteFile : List Instr := locked .filesystemLock [] ++ unallocate ++ unallocate ++ unallocate

def registerListener : List Instr := allocate ++ locked .ipcLock []
def unregisterListener : List Instr := locked .ipcLock [] ++ unallocate
def checkListener : List Instr := locked .ipcLock []

/-- What the handler calls, it calls after this. -/
def sendMessage : List Instr := locked .ipcLock []

def registerTty : List Instr := locked .ttyLock []
def unregisterTty : List Instr := locked .ttyLock []
def put : List Instr := locked .ttyLock []
def write : List Instr := locked .ttyLock []
def read : List Instr := locked .ttyLock []

/-- `unallocate` at the end of `destroyThread` and in `cleaner`. -/
def unallocateThread : List Instr := locked .allocatorLock [.free]

inductive Routine
  | createThread
  | allocate
  | allocateAligned
  | unallocate
  | checkFolder
  | checkFile
  | createFolder
  | createFile
  | getFiles
  | getFile
  | deleteFile
  | registerListener
  | unregisterListener
  | checkListener
  | sendMessage
  | registerTty
  | unregisterTty
  | put
  | write
  | read
  deriving DecidableEq

def Routine.code : Routine → List Instr
  | .createThread => Kernel.createThread
  | .allocate => Kernel.allocate
  | .allocateAligned => Kernel.allocateAligned
  | .unallocate => Kernel.unallocate
  | .checkFolder => Kernel.checkFolder
  | .checkFile => Kernel.checkFile
  | .createFolder => Kernel.createFolder
  | .createFile => Kernel.createFile
  | .getFiles => Kernel.getFiles
  | .getFile => Kernel.getFile
  | .deleteFile => Kernel.deleteFile
  | .registerListener => Kernel.registerListener
  | .unregisterListener => Kernel.unregisterListener
  | .checkListener => Kernel.checkListener
  | .sendMessage => Kernel.sendMessage
  | .registerTty => Kernel.registerTty
  | .unregisterTty => Kernel.unregisterTty
  | .put => Kernel.put
  | .write => Kernel.write
  | .read => Kernel.read

end Kernel

/-! ### The machine -/

/-- The scheduler, the flags of the other locks, and for every thread the rest of the function it is
in, if that is one of those above. -/
structure Kernel where
  scheduler : Scheduler
  flag : Kernel.Lock → Bool
  code : ℕ → List Kernel.Instr

namespace Kernel

open Scheduler (Conserved)

inductive Event
  | preempt
  | hpet (value : UInt64)
  /-- A call of a function of the scheduler other than `createThread`. -/
  | thread (c : Scheduler.Call)
  | enter (r : Routine)
  | advance
  deriving DecidableEq

def current (k : Kernel) : ℕ := k.scheduler.currentThread

/-- The current thread has `code` left. -/
def goto (code : List Instr) (k : Kernel) : Kernel :=
  { k with code := Function.update k.code k.current code }

def setFlag (l : Lock) (b : Bool) (k : Kernel) : Kernel :=
  { k with flag := Function.update k.flag l b }

/-- A step of the scheduler. -/
def schedule (e : Scheduler.Event) (k : Kernel) : Option Kernel := do
  let s ← k.scheduler.step e
  return { k with scheduler := s }

/-- The next step of the current thread. Where a lock is taken, that is a yield, after which `lock`
tries again. -/
def advance (k : Kernel) : Option Kernel :=
  match k.code k.current with
  | [] =>
    match (k.scheduler.pc k.current).taken with
    | some _ => some (k.goto unallocateThread)
    | none => k.schedule .advance
  | .lock l :: rest => if k.flag l then k.schedule .preempt else some ((k.goto rest).setFlag l true)
  | .unlock l :: rest => some ((k.goto rest).setFlag l false)
  | .link :: rest => (k.goto rest).schedule (.call .createThread)
  | .free :: rest =>
    match (k.scheduler.pc k.current).taken with
    | some _ => (k.goto rest).schedule .advance
    | none => none

def step (k : Kernel) : Event → Option Kernel
  | .preempt => k.schedule .preempt
  | .hpet value => k.schedule (.hpet value)
  | .thread c =>
    if c = .createThread ∨ k.code k.current ≠ [] then none else k.schedule (.call c)
  | .enter r =>
    if k.scheduler.pc k.current = .running ∧ k.code k.current = [] then some (k.goto r.code) else none
  | .advance => k.advance

/-! ### Sections -/

/-- The rest of a function leads to the `unlock` of a section it is in. -/
def inside (l : Lock) : List Instr → Bool
  | [] => false
  | .lock m :: rest => m ≠ l && inside l rest
  | .unlock m :: rest => m = l || inside l rest
  | _ :: rest => inside l rest

/-- Every `lock` is the beginning of a section. -/
def Bracketed : List Instr → Bool
  | [] => true
  | .lock l :: rest => inside l rest && Bracketed rest
  | _ :: rest => Bracketed rest

theorem bracketed_code (r : Routine) : Bracketed r.code = true := by
  cases r <;> decide

theorem Bracketed.tail {i : Instr} {rest : List Instr} (h : Bracketed (i :: rest) = true) :
    Bracketed rest = true := by
  cases i with
  | lock l =>
    simp only [Bracketed, Bool.and_eq_true] at h
    exact h.2
  | unlock l | link | free => exact h

variable {k k' : Kernel} {t : ℕ} {l : Lock} {rest : List Instr}

theorem schedule_eq_some {e : Scheduler.Event} (h : k.schedule e = some k') :
    ∃ s, k.scheduler.step e = some s ∧ k' = { k with scheduler := s } := by
  simp only [schedule, bind, Option.bind_eq_some_iff, pure, Option.some.injEq] at h
  obtain ⟨s, hs, rfl⟩ := h
  exact ⟨s, hs, rfl⟩

/-! ### The invariant -/

/-- Thread `t` is in no section. -/
def Outside (k : Kernel) (t : ℕ) : Prop :=
  (k.scheduler.pc t).holdsLock = false ∧ ∀ l, inside l (k.code t) = false

/-- Every flag that is set is that of a section a thread of the ring is in. -/
structure Held (k : Kernel) : Prop where
  waiting : k.scheduler.waitingLock = true →
    ∃ t ∈ k.scheduler.ring, (k.scheduler.pc t).holdsLock = true
  others : ∀ l, k.flag l = true → ∃ t ∈ k.scheduler.ring, inside l (k.code t) = true

structure Inv (k : Kernel) : Prop where
  conserved : ∃ place, Conserved k.scheduler place
  bracketed : ∀ t, Bracketed (k.code t) = true
  held : k.Held

theorem Inv.mem (h : k.Inv) : k.current ∈ k.scheduler.ring := by
  obtain ⟨place, hc⟩ := h.conserved
  exact hc.runs.mem

theorem bracketed_goto (h : ∀ t, Bracketed (k.code t) = true) (hrest : Bracketed rest = true) (t : ℕ) :
    Bracketed ((k.goto rest).code t) = true := by
  unfold goto
  by_cases ht : t = k.current
  · simp [ht, hrest]
  · simp [ht, h t]

/-- The current thread goes on in the sections it is in, and perhaps into others. -/
theorem Inv.goto (h : k.Inv) (hrest : Bracketed rest = true)
    (hsame : ∀ l, k.flag l = true → inside l (k.code k.current) = true → inside l rest = true) :
    (k.goto rest).Inv := by
  refine ⟨h.conserved, bracketed_goto h.bracketed hrest, h.held.waiting, fun l hl => ?_⟩
  obtain ⟨t, ht, hin⟩ := h.held.others l hl
  refine ⟨t, ht, ?_⟩
  unfold Kernel.goto
  by_cases htc : t = k.current
  · subst htc
    simp [hsame l hl hin]
  · simp [htc, hin]

/-- It takes a lock, or frees it. -/
theorem Inv.setFlag (h : k.Inv) {b : Bool} (hb : b = true → inside l (k.code k.current) = true) :
    (k.setFlag l b).Inv := by
  refine ⟨h.conserved, h.bracketed, h.held.waiting, fun m hm => ?_⟩
  by_cases hml : m = l
  · subst hml
    simp only [Kernel.setFlag, Function.update_self] at hm
    exact ⟨k.current, h.mem, hb hm⟩
  · simp only [Kernel.setFlag, Function.update_of_ne hml] at hm
    exact h.held.others m hm

/-- The holder of `waitingLock` stays where it has it. -/
theorem holder_turn {s : Scheduler} {e : Scheduler.Event} {c : Scheduler.Core}
    (hturn : Scheduler.Turn s e c) (hmem : s.currentThread ∈ s.ring)
    (hcreated : ∀ t ∈ s.ring, t < s.created)
    (hvictim : ∀ t ∈ s.victim e, (s.pc t).holdsLock = false)
    (hheld : s.waitingLock = true → ∃ t ∈ s.ring, (s.pc t).holdsLock = true)
    (hlock : c.waitingLock = true) : ∃ t ∈ c.ring, (c.pc t).holdsLock = true := by
  have hstay := fun t ht => hturn.stays (t := t) ht
  -- a holder other than the current thread is at the same place afterwards
  have hother : ∀ t ∈ s.ring, t ≠ s.currentThread → c.pc t = s.pc t := by
    intro t ht hne
    have hnew : t ≠ s.created := (hcreated t ht).ne
    cases hturn <;> simp [Scheduler.core, hne, hnew]
  have hold : s.waitingLock = true → (s.pc s.currentThread).holdsLock = false →
      ∃ t ∈ c.ring, (c.pc t).holdsLock = true := by
    intro hs hcur
    obtain ⟨t, ht, hin⟩ := hheld hs
    have hne : t ≠ s.currentThread := by
      rintro rfl
      rw [hcur] at hin
      cases hin
    rcases hstay t ht with hstays | hv | ⟨hc, -⟩
    · exact ⟨t, hstays, by rw [hother t ht hne, hin]⟩
    · rw [hvictim t hv] at hin
      cases hin
    · exact absurd hc hne
  cases hturn with
  | go q b guards taken stackless destroying =>
    rcases guards hlock with hq | ⟨hs, hcur⟩
    · exact ⟨s.currentThread, hmem, by simp [hq]⟩
    · exact hold hs hcur
  | create event =>
    obtain ⟨t, ht, hin⟩ := hheld hlock
    have hnew : t ≠ s.created := (hcreated t ht).ne
    exact ⟨t, List.mem_append_left _ ht, by simp [hnew, hin]⟩
  | exit id event at_end => exact hold hlock (by rw [at_end]; rfl)
  | destroy id u at_end found victim => exact hold hlock (by rw [at_end]; rfl)
  | take u ts q dead at_take => exact hold hlock (by rw [at_take]; rfl)
  | freeStack u q outside => exact hold hlock outside
  | freeRecord u q outside => exact hold hlock outside

/-- A step of the scheduler. A thread it takes out of the ring is in no section. -/
theorem Inv.schedule (h : k.Inv) {e : Scheduler.Event} (hC : Scheduler.Targets k.scheduler e)
    (hvictim : ∀ t ∈ k.scheduler.victim e, k.Outside t)
    (hexit : e = .advance → (∃ id, k.scheduler.pc k.current = .remove .unlocked .exitThread id) →
      ∀ l, inside l (k.code k.current) = false)
    (hstep : k.schedule e = some k') : k'.Inv := by
  obtain ⟨s, hs, rfl⟩ := schedule_eq_some hstep
  have hturn := Scheduler.turn_step hs
  obtain ⟨place, hc⟩ := h.conserved
  refine ⟨?_, h.bracketed, fun hlock => ?_, fun l hl => ?_⟩
  · obtain ⟨place', hc', -⟩ := Scheduler.conserved_step hc hC hs
    exact ⟨place', hc'⟩
  · exact holder_turn hturn hc.runs.mem hc.runs.created (fun t ht => (hvictim t ht).1) h.held.waiting
      hlock
  · obtain ⟨t, ht, hin⟩ := h.held.others l hl
    refine ⟨t, ?_, hin⟩
    rcases hturn.stays ht with hstays | hv | ⟨rfl, he, hpc⟩
    · exact hstays
    · rw [(hvictim t hv).2 l] at hin
      cases hin
    · have hout := hexit he hpc l
      rw [current, hin] at hout
      cases hout

theorem Inv.schedule_of_ne (h : k.Inv) {e : Scheduler.Event} (he : e ≠ .advance)
    (hC : Scheduler.Targets k.scheduler e) (hstep : k.schedule e = some k') : k'.Inv := by
  refine h.schedule hC (fun t ht => ?_) (fun heq => absurd heq he) hstep
  cases e with
  | advance => exact absurd rfl he
  | preempt | hpet _ | call _ => cases ht

theorem Inv.bracketed_of (h : k.Inv) {code : List Instr} (hcode : k.code k.current = code) :
    Bracketed code = true := by
  have hbracketed := h.bracketed k.current
  rwa [hcode] at hbracketed

/-- It goes past an instruction that is neither `lock` nor `unlock`. -/
theorem Inv.pass (h : k.Inv) {i : Instr} (hcode : k.code k.current = i :: rest)
    (hi : Bracketed (i :: rest) = Bracketed rest) (hinside : ∀ l, inside l (i :: rest) = inside l rest) :
    (k.goto rest).Inv := by
  refine h.goto (hi ▸ h.bracketed_of hcode) fun l _ hin => ?_
  rwa [hcode, hinside] at hin

/-! ### The guarantee -/

/-- `destroyThread` is called for another thread of the ring. -/
def Targets (k : Kernel) : Event → Prop
  | .thread c => Scheduler.Targets k.scheduler (.call c)
  | _ => True

/-- If the step is the end of `destroyThread`, the thread it takes out is in no section. -/
def Spares (k : Kernel) : Event → Prop
  | .advance => ∀ t ∈ k.scheduler.victim .advance, k.Outside t
  | _ => True

instance decidableTargets (k : Kernel) : ∀ e, Decidable (k.Targets e)
  | .thread c => inferInstanceAs (Decidable (Scheduler.Targets k.scheduler (.call c)))
  | .preempt | .hpet _ | .enter _ | .advance => isTrue trivial

instance decidableOutside (k : Kernel) (t : ℕ) : Decidable (k.Outside t) :=
  inferInstanceAs (Decidable (_ ∧ _))

instance decidableSpares (k : Kernel) : ∀ e, Decidable (k.Spares e)
  | .advance => inferInstanceAs (Decidable (∀ t ∈ k.scheduler.victim .advance, k.Outside t))
  | .preempt | .hpet _ | .enter _ | .thread _ => isTrue trivial

theorem inv_advance (h : k.Inv) (hspares : ∀ t ∈ k.scheduler.victim .advance, k.Outside t)
    (hstep : k.advance = some k') : k'.Inv := by
  unfold advance at hstep
  split at hstep <;> rename_i hcode
  · split at hstep
    · obtain rfl := Option.some.inj hstep
      refine h.goto (by decide) fun l _ hin => ?_
      rw [hcode] at hin
      cases hin
    · refine h.schedule (e := .advance) trivial hspares (fun _ _ l => ?_) hstep
      rw [hcode]
      rfl
  · rename_i l rest
    have hbracketed := h.bracketed_of hcode
    simp only [Bracketed, Bool.and_eq_true] at hbracketed
    split_ifs at hstep
    · exact h.schedule_of_ne (e := .preempt) (by simp) trivial hstep
    · obtain rfl := Option.some.inj hstep
      -- it is in the section of `l` now, and in those it was in before
      have hgoto : (k.goto rest).Inv := by
        refine h.goto hbracketed.2 fun m _ hin => ?_
        rw [hcode] at hin
        simp only [inside, Bool.and_eq_true] at hin
        exact hin.2
      refine hgoto.setFlag fun _ => ?_
      show inside l (Function.update k.code k.current rest k.current) = true
      rw [Function.update_self]
      exact hbracketed.1
  · rename_i l rest
    obtain rfl := Option.some.inj hstep
    have hbracketed := h.bracketed_of hcode
    have hfree : (k.setFlag l false).Inv := h.setFlag fun hb => by cases hb
    refine hfree.goto hbracketed fun m hm hin => ?_
    have hml : m ≠ l := by
      rintro rfl
      simp [Kernel.setFlag] at hm
    change inside m (k.code k.current) = true at hin
    rw [hcode] at hin
    simpa [inside, hml.symm] using hin
  · rename_i rest
    have hgoto : (k.goto rest).Inv := h.pass hcode rfl fun _ => rfl
    exact hgoto.schedule_of_ne (e := .call .createThread) (by simp) trivial hstep
  · rename_i rest
    have hgoto : (k.goto rest).Inv := h.pass hcode rfl fun _ => rfl
    split at hstep
    · rename_i t htaken
      -- a thread that gives memory back is at the end of no other function
      refine hgoto.schedule (e := .advance) trivial (fun u hu => ?_) (fun _ ⟨id, hpc⟩ => ?_) hstep
      · change u ∈ k.scheduler.victim .advance at hu
        simp only [Scheduler.victim] at hu
        split at hu
        · rename_i id hpc
          rw [current, hpc] at htaken
          cases htaken
        · cases hu
      · change k.scheduler.pc k.current = _ at hpc
        rw [hpc] at htaken
        cases htaken
    · cases hstep

theorem inv_step {e : Event} (h : k.Inv) (hC : k.Targets e) (hspares : k.Spares e)
    (hstep : k.step e = some k') : k'.Inv := by
  cases e with
  | preempt => exact h.schedule_of_ne (e := .preempt) (by simp) trivial hstep
  | hpet value => exact h.schedule_of_ne (e := .hpet value) (by simp) trivial hstep
  | thread c =>
    simp only [step] at hstep
    split_ifs at hstep
    exact h.schedule_of_ne (by simp) hC hstep
  | enter r =>
    simp only [step] at hstep
    split_ifs at hstep with hidle
    obtain rfl := Option.some.inj hstep
    refine h.goto (bracketed_code r) fun l _ hin => ?_
    rw [hidle.2] at hin
    cases hin
  | advance => exact inv_advance h hspares hstep

/-- No thread is in a function, and no lock is taken. -/
structure Booted (k : Kernel) : Prop where
  scheduler : k.scheduler.Started
  code : ∀ t, k.code t = []
  flag : ∀ l, k.flag l = false

theorem inv_booted (h : k.Booted) : k.Inv := by
  have hstart := h.scheduler
  refine ⟨⟨_, hstart.conserved⟩, fun t => ?_, fun hlock => ?_, fun l hl => ?_⟩
  · rw [h.code t]
    rfl
  · rw [hstart.waitingLock] at hlock
    cases hlock
  · rw [h.flag l] at hl
    cases hl

/-- **A lock that is held has a live holder** in a run in which `destroyThread` takes out no thread
that is in a section. -/
theorem held_of_run {events : List Event} (hboot : k.Booted)
    (hC : Trace.Along step (fun k e => k.Targets e ∧ k.Spares e) k events)
    (hrun : Trace.run step k events = some k') :
    (k'.scheduler.waitingLock = true →
        ∃ t ∈ k'.scheduler.ring, (k'.scheduler.pc t).holdsLock = true) ∧
      ∀ l, k'.flag l = true → ∃ t ∈ k'.scheduler.ring, inside l (k'.code t) = true := by
  have hinv := Trace.run_invariant_along (fun k e k' h hC hstep => inv_step h hC.1 hC.2 hstep)
    (inv_booted hboot) hC hrun
  exact ⟨hinv.held.waiting, hinv.held.others⟩

def boot : Kernel where
  scheduler := Scheduler.boot
  flag := fun _ => false
  code := fun _ => []

theorem booted_boot : boot.Booted := ⟨Scheduler.started_boot, fun _ => rfl, fun _ => rfl⟩

/-- Thread 2 is created, the kernel's thread destroys it, and is in `unallocate` for its stack. -/
def destroyIdle : List Event :=
  [.enter .createThread, .advance, .advance, .advance, .advance, .advance, .thread (.destroyThread 2),
    .advance, .advance, .advance, .advance, .advance, .advance]

theorem held_of_run_destroyIdle :
    ∃ k, Trace.run step boot destroyIdle = some k ∧ k.flag .allocatorLock = true ∧
      (k.scheduler.waitingLock = true →
        ∃ t ∈ k.scheduler.ring, (k.scheduler.pc t).holdsLock = true) ∧
      ∀ l, k.flag l = true → ∃ t ∈ k.scheduler.ring, inside l (k.code t) = true := by
  have hC : Trace.Along step (fun k e => k.Targets e ∧ k.Spares e) boot destroyIdle := by decide
  obtain ⟨k, hrun, hflag⟩ :
      ∃ k, Trace.run step boot destroyIdle = some k ∧ k.flag .allocatorLock = true := ⟨_, rfl, rfl⟩
  exact ⟨k, hrun, hflag, held_of_run booted_boot hC hrun⟩

/-- Thread 2 is created and interrupted in `allocate`, and the kernel's thread destroys it: the flag
of the allocator stays set, and no thread is in a section of its lock. -/
theorem destroyed_holder_keeps_lock :
    ∃ events k, Trace.Along step Targets boot events ∧ Trace.run step boot events = some k ∧
      k.flag .allocatorLock = true ∧
      ∀ t ∈ k.scheduler.ring, inside .allocatorLock (k.code t) = false := by
  refine ⟨[.enter .createThread, .advance, .advance, .advance, .advance, .advance, .preempt, .preempt,
    .enter .allocate, .advance, .preempt, .thread (.destroyThread 2), .advance, .advance, .advance,
    .advance], _, ?_, rfl, rfl, ?_⟩
  · decide
  · decide

end Kernel

end Naul
