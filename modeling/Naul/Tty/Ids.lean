import Naul.Scheduler.Conservation
import Naul.Tty

/-!
# The terminals of the threads

A thread writes to the buffer in the slot of `ttyBuffers` that its `ttyId` designates. `registerTty`
takes a free slot and, after the lock, gives its id to the calling thread; `unregisterTty` gives the
calling thread the id it had when the buffer was registered, and frees the slot; a new thread has the
id that its creator has when the record is filled, and comes into the ring later.

The lock makes each use of the array one step. The scheduler's machine is underneath: a thread in the
middle of `registerTty` or `createThread` can be interrupted, and everything else goes on.

`unregisterTty` looks after the calling thread alone. Every other thread that has the id, or is about
to get it, keeps it after the slot is free.
-/

namespace Naul

namespace Terminals

/-- Where a thread is: before the store to its `ttyId` in `registerTty`, before the end of
`createThread`, for a thread that gets `ttyId`, or in neither. -/
inductive Doing
  | idle
  | registered (id : UInt8)
  | creating (ttyId : UInt8)
  deriving DecidableEq

/-- The id that it is going to give to a thread. -/
def Doing.pending : Doing → Option UInt8
  | .idle => none
  | .registered id | .creating id => some id

end Terminals

/-- The scheduler, the array `ttyBuffers`, and the field `ttyId` of each thread. -/
structure Terminals where
  scheduler : Scheduler
  ttyBuffers : UInt8 → TtySlot
  ttyId : ℕ → UInt8
  doing : ℕ → Terminals.Doing

namespace Terminals

inductive Event
  /-- A step of the scheduler, but not `createThread`. -/
  | schedule (e : Scheduler.Event)
  | registerTty (buffer : UInt64)
  | unregisterTty (buffer : UInt64)
  | createThread
  /-- The current thread goes on with what it is doing. -/
  | advance
  deriving DecidableEq

def current (k : Terminals) : ℕ := k.scheduler.currentThread

def goto (d : Doing) (k : Terminals) : Terminals :=
  { k with doing := Function.update k.doing k.current d }

def setId (t : ℕ) (id : UInt8) (k : Terminals) : Terminals :=
  { k with ttyId := Function.update k.ttyId t id }

/-- A new thread, with its id. -/
def start (t : ℕ) (id : UInt8) (k : Terminals) : Terminals :=
  { k.setId t id with doing := Function.update k.doing t .idle }

def schedule (e : Scheduler.Event) (k : Terminals) : Option Terminals := do
  let s ← k.scheduler.step e
  return { k with scheduler := s }

/-- The current thread is in no function of the kernel. -/
def AtRest (k : Terminals) : Prop :=
  k.scheduler.pc k.current = .running ∧ k.doing k.current = .idle

instance decidableAtRest (k : Terminals) : Decidable k.AtRest := inferInstanceAs (Decidable (_ ∧ _))

def advance (k : Terminals) : Option Terminals :=
  match k.doing k.current with
  | .idle => none
  | .registered id => some ((k.goto .idle).setId k.current id)
  | .creating id => ((k.goto .idle).start k.scheduler.created id).schedule (.call .createThread)

def step (k : Terminals) : Event → Option Terminals
  | .schedule (.call .createThread) => none
  | .schedule .preempt => k.schedule .preempt
  | .schedule (.hpet value) => k.schedule (.hpet value)
  | .schedule e => if k.doing k.current = .idle then k.schedule e else none
  | .registerTty buffer =>
    if k.AtRest then do
      let (id, ttyBuffers) ← Naul.registerTty k.ttyBuffers (k.ttyId k.current) buffer
      return { k.goto (.registered id) with ttyBuffers }
    else none
  | .unregisterTty buffer =>
    if k.AtRest then do
      let (id, ttyBuffers) ← Naul.unregisterTty k.ttyBuffers buffer
      return { k.setId k.current id with ttyBuffers }
    else none
  | .createThread =>
    if k.AtRest then some (k.goto (.creating (k.ttyId k.current))) else none
  | .advance => k.advance

/-! ### The invariant -/

/-- The slot is in use. -/
def Used (k : Terminals) (id : UInt8) : Prop := (k.ttyBuffers id).used = true

instance decidableUsed (k : Terminals) (id : UInt8) : Decidable (k.Used id) :=
  inferInstanceAs (Decidable (_ = true))

structure Inv (k : Terminals) : Prop where
  conserved : ∃ place, Scheduler.Conserved k.scheduler place
  ids : ∀ t ∈ k.scheduler.ring, k.Used (k.ttyId t)
  pending : ∀ t ∈ k.scheduler.ring, ∀ id ∈ (k.doing t).pending, k.Used id

variable {k k' : Terminals}

theorem Inv.mem (h : k.Inv) : k.current ∈ k.scheduler.ring := by
  obtain ⟨place, hc⟩ := h.conserved
  exact hc.runs.mem

theorem schedule_eq_some {e : Scheduler.Event} (h : k.schedule e = some k') :
    ∃ s, k.scheduler.step e = some s ∧ k' = { k with scheduler := s } := by
  simp only [schedule, bind, Option.bind_eq_some_iff, pure, Option.some.injEq] at h
  obtain ⟨s, hs, rfl⟩ := h
  exact ⟨s, hs, rfl⟩

/-- The current thread is going to give an id that is in use. -/
theorem Inv.goto (h : k.Inv) {d : Doing} (hd : ∀ id ∈ d.pending, k.Used id) : (k.goto d).Inv := by
  refine ⟨h.conserved, h.ids, fun t ht id hid => ?_⟩
  by_cases htc : t = k.current
  · subst htc
    simp only [Terminals.goto, Function.update_self] at hid
    exact hd id hid
  · simp only [Terminals.goto, Function.update_of_ne htc] at hid
    exact h.pending t ht id hid

/-- A thread gets an id that is in use. -/
theorem Inv.setId (h : k.Inv) {t : ℕ} {id : UInt8} (hid : k.Used id) : (k.setId t id).Inv := by
  refine ⟨h.conserved, fun u hu => ?_, h.pending⟩
  by_cases hut : u = t
  · subst hut
    simpa [Terminals.setId, Used] using hid
  · simpa [Terminals.setId, Used, hut] using h.ids u hu

theorem Inv.start (h : k.Inv) {t : ℕ} {id : UInt8} (hid : k.Used id) : (k.start t id).Inv := by
  obtain ⟨hconserved, hids, hpending⟩ := h.setId (t := t) hid
  refine ⟨hconserved, hids, fun u hu i hi => ?_⟩
  by_cases hut : u = t
  · subst hut
    simp [Terminals.start, Doing.pending] at hi
  · simp only [Terminals.start, Function.update_of_ne hut] at hi
    exact hpending u hu i hi

/-- The slots in use stay in use. -/
theorem Inv.mono (h : k.Inv) {ttyBuffers : UInt8 → TtySlot}
    (hused : ∀ id, k.Used id → (ttyBuffers id).used = true) : Inv { k with ttyBuffers } :=
  ⟨h.conserved, fun t ht => hused _ (h.ids t ht), fun t ht id hid => hused id (h.pending t ht id hid)⟩

/-- A slot that no thread of the ring has, or is about to give, is freed. -/
theorem Inv.free (h : k.Inv) {id : UInt8} (hids : ∀ t ∈ k.scheduler.ring, k.ttyId t ≠ id)
    (hpending : ∀ t ∈ k.scheduler.ring, id ∉ (k.doing t).pending) (slot : TtySlot) :
    Inv { k with ttyBuffers := Function.update k.ttyBuffers id slot } := by
  refine ⟨h.conserved, fun t ht => ?_, fun t ht i hi => ?_⟩
  · simpa [Used, Function.update_of_ne (hids t ht)] using h.ids t ht
  · have hne : i ≠ id := by
      rintro rfl
      exact hpending t ht hi
    simpa [Used, Function.update_of_ne hne] using h.pending t ht i hi

/-- A step of the scheduler. A thread that comes into the ring has an id in use. -/
theorem Inv.schedule (h : k.Inv) {e : Scheduler.Event} (hC : Scheduler.Targets k.scheduler e)
    (hnew : e = .call .createThread → k.Used (k.ttyId k.scheduler.created) ∧
      (k.doing k.scheduler.created).pending = none)
    (hstep : k.schedule e = some k') : k'.Inv := by
  obtain ⟨s, hs, rfl⟩ := schedule_eq_some hstep
  obtain ⟨place, hc⟩ := h.conserved
  have hturn := Scheduler.turn_step hs
  refine ⟨?_, fun t ht => ?_, fun t ht id hid => ?_⟩
  · obtain ⟨place', hc', -⟩ := Scheduler.conserved_step hc hC hs
    exact ⟨place', hc'⟩
  · rcases hturn.comes ht with ht | ⟨he, rfl⟩
    · exact h.ids t ht
    · exact (hnew he).1
  · rcases hturn.comes ht with ht | ⟨he, rfl⟩
    · exact h.pending t ht id hid
    · rw [(hnew he).2] at hid
      cases hid

/-! ### The guarantee -/

/-- Where a thread unregisters a buffer, the id it gets back is that of another slot, in use, and the
id of the slot that is freed is no other thread's, nor about to be. `destroyThread` is called for
another thread. -/
def Proper (k : Terminals) : Event → Prop
  | .schedule e => Scheduler.Targets k.scheduler e
  | .unregisterTty buffer => ∀ id ∈ findSlot k.ttyBuffers fun slot => slot.buffer = buffer,
    (k.ttyBuffers id).oldId ≠ id ∧ k.Used (k.ttyBuffers id).oldId ∧
      ∀ t ∈ k.scheduler.ring, t ≠ k.current → k.ttyId t ≠ id ∧ id ∉ (k.doing t).pending
  | _ => True

instance decidableProper (k : Terminals) : ∀ e, Decidable (k.Proper e)
  | .schedule e => inferInstanceAs (Decidable (Scheduler.Targets k.scheduler e))
  | .unregisterTty _ => Option.decidableForallMem (findSlot k.ttyBuffers _)
  | .registerTty _ | .createThread | .advance => isTrue trivial

theorem inv_registerTty (h : k.Inv) {ttyId id : UInt8} {buffer : UInt64} {ttyBuffers : UInt8 → TtySlot}
    (hregister : Naul.registerTty k.ttyBuffers ttyId buffer = some (id, ttyBuffers)) :
    Inv { k.goto (.registered id) with ttyBuffers } := by
  simp only [Naul.registerTty, bind, Option.bind_eq_some_iff, pure, Option.some.injEq,
    Prod.mk.injEq] at hregister
  obtain ⟨i, -, rfl, rfl⟩ := hregister
  have hmono : Inv { k with ttyBuffers := Function.update k.ttyBuffers i ⟨true, ttyId, buffer⟩ } := by
    refine h.mono fun j hj => ?_
    by_cases hji : j = i
    · rw [hji, Function.update_self]
    · rwa [Function.update_of_ne hji]
  refine hmono.goto fun j hj => ?_
  obtain rfl : i = j := Option.some.inj hj
  simp [Used]

theorem inv_unregisterTty (h : k.Inv) {id : UInt8} {buffer : UInt64} {ttyBuffers : UInt8 → TtySlot}
    (hidle : k.doing k.current = .idle) (hC : k.Proper (.unregisterTty buffer))
    (hunregister : Naul.unregisterTty k.ttyBuffers buffer = some (id, ttyBuffers)) :
    Inv { k.setId k.current id with ttyBuffers } := by
  simp only [Naul.unregisterTty, bind, Option.bind_eq_some_iff, pure, Option.some.injEq,
    Prod.mk.injEq] at hunregister
  obtain ⟨i, hfind, rfl, rfl⟩ := hunregister
  obtain ⟨hne, hused, hothers⟩ := hC i hfind
  have hset : (k.setId k.current (k.ttyBuffers i).oldId).Inv := h.setId hused
  refine hset.free (fun t ht => ?_) (fun t ht hi => ?_) _
  · by_cases htc : t = k.current
    · rw [htc]
      simpa [Terminals.setId] using hne
    · simpa [Terminals.setId, htc] using (hothers t ht htc).1
  · by_cases htc : t = k.current
    · change i ∈ (k.doing t).pending at hi
      rw [htc, hidle] at hi
      cases hi
    · exact (hothers t ht htc).2 hi

theorem inv_advance (h : k.Inv) (hstep : k.advance = some k') : k'.Inv := by
  have hidle : (k.goto .idle).Inv := h.goto fun id hid => by cases hid
  unfold advance at hstep
  split at hstep <;> rename_i hdoing
  · cases hstep
  · rename_i id
    obtain rfl := Option.some.inj hstep
    exact hidle.setId (h.pending _ h.mem id (by rw [hdoing]; rfl))
  · rename_i id
    have hused : k.Used id := h.pending _ h.mem id (by rw [hdoing]; rfl)
    refine Inv.schedule (e := .call .createThread) (hidle.start hused) trivial (fun _ => ?_) hstep
    constructor
    · change k.Used (Function.update k.ttyId k.scheduler.created id k.scheduler.created)
      rwa [Function.update_self]
    · show (Function.update (k.goto .idle).doing k.scheduler.created .idle
        k.scheduler.created).pending = none
      rw [Function.update_self]
      rfl

theorem inv_step {e : Event} (h : k.Inv) (hC : k.Proper e) (hstep : k.step e = some k') : k'.Inv := by
  cases e with
  | schedule e =>
    have hold : e ≠ .call .createThread → k.schedule e = some k' → k'.Inv := fun hne =>
      h.schedule hC fun he => absurd he hne
    cases e with
    | preempt => exact hold (by simp) hstep
    | hpet value => exact hold (by simp) hstep
    | advance =>
      simp only [step] at hstep
      split_ifs at hstep
      exact hold (by simp) hstep
    | call c =>
      cases c <;> simp only [step] at hstep
      case createThread => cases hstep
      all_goals
        split_ifs at hstep
        exact hold (by simp) hstep
  | registerTty buffer =>
    simp only [step, bind] at hstep
    split_ifs at hstep
    simp only [Option.bind_eq_some_iff, pure, Option.some.injEq] at hstep
    obtain ⟨⟨id, ttyBuffers⟩, hregister, rfl⟩ := hstep
    exact inv_registerTty h hregister
  | unregisterTty buffer =>
    simp only [step, bind] at hstep
    split_ifs at hstep with hrest
    simp only [Option.bind_eq_some_iff, pure, Option.some.injEq] at hstep
    obtain ⟨⟨id, ttyBuffers⟩, hunregister, rfl⟩ := hstep
    exact inv_unregisterTty h hrest.2 hC hunregister
  | createThread =>
    simp only [step] at hstep
    split_ifs at hstep
    obtain rfl := Option.some.inj hstep
    refine h.goto fun id hid => ?_
    obtain rfl := Option.some.inj hid
    exact h.ids _ h.mem
  | advance => exact inv_advance h hstep

/-- The kernel's terminal is registered, and the threads there are have its id. -/
structure Registered (k : Terminals) : Prop where
  scheduler : k.scheduler.Started
  ids : ∀ t ∈ k.scheduler.ring, k.Used (k.ttyId t)
  doing : ∀ t, k.doing t = .idle

/-- **Every thread writes to a registered terminal** in a run in which buffers are unregistered only
when no other thread has their id. -/
theorem ids_used_of_run {events : List Event} (hstart : k.Registered)
    (hC : Trace.Along step Proper k events) (hrun : Trace.run step k events = some k') :
    ∀ t ∈ k'.scheduler.ring, (k'.ttyBuffers (k'.ttyId t)).used = true := by
  have h0 : k.Inv := by
    refine ⟨⟨_, hstart.scheduler.conserved⟩, hstart.ids, fun t _ id hid => ?_⟩
    rw [hstart.doing t] at hid
    cases hid
  exact (Trace.run_invariant_along (fun k e k' h hC hstep => inv_step h hC hstep) h0 hC hrun).ids

/-- After `startTerminal`: the kernel's terminal, whose buffer is at address 1, is in slot 0. -/
def boot : Terminals where
  scheduler := Scheduler.boot
  ttyBuffers := fun id => if id = 0 then ⟨true, 0, 1⟩ else ⟨false, 0, 0⟩
  ttyId := fun _ => 0
  doing := fun _ => .idle

theorem registered_boot : boot.Registered :=
  ⟨Scheduler.started_boot, by decide, fun _ => rfl⟩

/-- The kernel's thread registers a buffer, creates thread 2, which exits, and unregisters the
buffer. -/
def nested : List Event :=
  [.registerTty 2, .advance, .createThread, .advance, .schedule .preempt, .schedule .preempt,
    .schedule (.call .exitThread), .schedule .advance, .schedule .advance, .schedule .advance,
    .schedule .advance, .unregisterTty 2]

theorem ids_used_of_run_nested :
    ∃ k, Trace.run step boot nested = some k ∧ k.ttyId 0 = 0 ∧
      ∀ t ∈ k.scheduler.ring, (k.ttyBuffers (k.ttyId t)).used = true := by
  have hC : Trace.Along step Proper boot nested := by decide
  obtain ⟨k, hrun, hid⟩ : ∃ k, Trace.run step boot nested = some k ∧ k.ttyId 0 = 0 := ⟨_, rfl, rfl⟩
  exact ⟨k, hrun, hid, ids_used_of_run registered_boot hC hrun⟩

/-- The kernel's thread registers a buffer, creates thread 2, and unregisters the buffer: thread 2 has
the id of a slot that is not in use. -/
theorem child_keeps_id :
    ∃ k, Trace.run step boot [.registerTty 2, .advance, .createThread, .advance, .unregisterTty 2] =
        some k ∧
      ∃ t ∈ k.scheduler.ring, (k.ttyBuffers (k.ttyId t)).used = false := by
  refine ⟨_, rfl, 2, ?_, ?_⟩
  · decide
  · decide

end Terminals

end Naul
