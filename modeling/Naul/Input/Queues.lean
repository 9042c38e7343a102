import Naul.Input
import Naul.Lib.Trace
import Naul.Tty

/-!
# First in, first out

The three kinds of buffers together: those of the keyboard, those of the mouse, and those of the
terminals, into which `put` writes under `ttyLock`. Each store, each advance of an index and each read of
an element is a step, and the steps of the handlers, of the thread that has the lock and of the owners
of all buffers interleave as they like.

`inputs_fifo` says that nothing is lost, repeated or out of order, however often the indices come
round, as long as no head is advanced in a buffer without a cell to spare.
-/

namespace Naul

open LinkRing RingBuffer

namespace TtyBuffer

/-- The array `writeBuffer` with its two indices. -/
def ring (tty : TtyBuffer) : RingBuffer UInt16 UInt8 :=
  ⟨fun i => tty.writeBuffer.cell i.toNat, tty.writeHead, tty.writeTail⟩

/-- The two statements of `put` that write. -/
def putCharacter (tty : TtyBuffer) (character : UInt8) : TtyBuffer :=
  { tty with writeBuffer := tty.writeBuffer.store tty.writeHead.toNat character }

def advanceHead (tty : TtyBuffer) : TtyBuffer := { tty with writeHead := tty.writeHead + 1 }

/-- `ttyBuffer.writeTail++` of `terminalThread`. -/
def advanceTail (tty : TtyBuffer) : TtyBuffer := { tty with writeTail := tty.writeTail + 1 }

theorem put_eq (tty : TtyBuffer) (character : UInt8) :
    tty.put character = (tty.putCharacter character).advanceHead := rfl

theorem ring_putCharacter (tty : TtyBuffer) (character : UInt8) :
    (tty.putCharacter character).ring = tty.ring.store character := by
  simp only [ring, putCharacter, RingBuffer.store, RingBuffer.mk.injEq, and_true]
  funext i
  rw [Function.update_apply, Cells.store_cell]
  exact if_congr UInt16.toNat_inj rfl rfl

end TtyBuffer

/-- Where the thread is that has `ttyLock`; `tty` is its variable. -/
inductive Putting
  | idle
  | store (tty : UInt64) (character : UInt8)
  | publish (tty : UInt64) (character : UInt8)

/-- The terminals, and as a ghost what has gone through each buffer. -/
structure Puts where
  ttys : Ttys
  putting : Putting
  log : UInt64 → Log UInt8

namespace Puts

def modify (s : Puts) (a : UInt64) (tty : TtyBuffer) (l : Log UInt8) : Puts :=
  { s with
    ttys := { s.ttys with bufferAt := Function.update s.ttys.bufferAt a tty }
    log := Function.update s.log a l }

/-- `put(character)` in a thread of terminal `ttyId`, up to the first store. -/
def put (ttyId character : UInt8) (s : Puts) : Option Puts :=
  match s.putting with
  | .idle => some { s with putting := .store (s.ttys.ttyBuffers ttyId).buffer character }
  | .store _ _ | .publish _ _ => none

/-- It goes on; with the second step it releases the lock. -/
def handle (s : Puts) : Option Puts :=
  match s.putting with
  | .idle => none
  | .store tty character =>
    some { s.modify tty ((s.ttys.bufferAt tty).putCharacter character) (s.log tty) with
      putting := .publish tty character }
  | .publish tty character =>
    some { s.modify tty (s.ttys.bufferAt tty).advanceHead ((s.log tty).send character) with
      putting := .idle }

/-- The owner of the buffer at `a` reads the character at the tail. -/
def take (a : UInt64) (s : Puts) : Option Puts :=
  let tty := s.ttys.bufferAt a
  if tty.writeTail = tty.writeHead then none
  else some (s.modify a tty ((s.log a).take (tty.writeBuffer.cell tty.writeTail.toNat)))

/-- It is done with the character, and advances the tail. -/
def release (a : UInt64) (s : Puts) : Option Puts :=
  match (s.log a).taken with
  | none => none
  | some character =>
    some (s.modify a (s.ttys.bufferAt a).advanceTail ((s.log a).receive character))

structure Inv (s : Puts) : Prop where
  fifo : ∀ a, (s.ttys.bufferAt a).ring.Fifo (s.log a)
  stored : ∀ tty character, s.putting = .publish tty character →
    (s.ttys.bufferAt tty).ring.cell (s.ttys.bufferAt tty).writeHead = character

/-- Where a head is about to be advanced, the buffer has a cell to spare. -/
def Spare (s : Puts) : Prop :=
  ∀ tty character, s.putting = .publish tty character → ¬ (s.ttys.bufferAt tty).ring.Full

instance decidableSpare (s : Puts) : Decidable s.Spare :=
  match h : s.putting with
  | .publish tty character => decidable_of_iff (¬ (s.ttys.bufferAt tty).ring.Full)
      ⟨fun hfull t c heq => by cases h.symm.trans heq; exact hfull, fun hspare => hspare tty character h⟩
  | .idle | .store _ _ => isTrue fun t c heq => by cases h.symm.trans heq

variable {s s' : Puts} {a : UInt64} {ttyId character : UInt8} {tty : TtyBuffer} {l : Log UInt8}

theorem Inv.fifo_modify (h : s.Inv) (htty : tty.ring.Fifo l) (c : UInt64) :
    ((s.modify a tty l).ttys.bufferAt c).ring.Fifo ((s.modify a tty l).log c) := by
  simp only [modify, Function.update_apply]
  split_ifs
  · exact htty
  · exact h.fifo c

theorem Inv.owner (h : s.Inv) (htty : tty.ring.Fifo l)
    (hcell : tty.writeBuffer = (s.ttys.bufferAt a).writeBuffer)
    (hhead : tty.writeHead = (s.ttys.bufferAt a).writeHead) : (s.modify a tty l).Inv := by
  refine ⟨h.fifo_modify htty, fun c character hc => ?_⟩
  rw [← h.stored c character hc]
  simp only [modify, Function.update_apply]
  split_ifs with heq
  · rw [TtyBuffer.ring, TtyBuffer.ring, hcell, hhead, heq]
  · rfl

theorem inv_take (h : s.Inv) (hstep : s.take a = some s') : s'.Inv := by
  unfold take at hstep
  simp only at hstep
  split_ifs at hstep with hempty
  obtain rfl := Option.some.inj hstep
  exact h.owner ((h.fifo a).take hempty) rfl rfl

theorem inv_release (h : s.Inv) (hstep : s.release a = some s') : s'.Inv := by
  unfold release at hstep
  split at hstep
  · cases hstep
  · rename_i character htaken
    obtain rfl := Option.some.inj hstep
    have hfifo := (h.fifo a).advance htaken
    exact @Inv.owner _ a (s.ttys.bufferAt a).advanceTail _ h hfifo rfl rfl

/-- What `put` has been called with for the buffer at `a`, the current call included. -/
def begun (a : UInt64) (s : Puts) : List UInt8 :=
  match s.putting with
  | .idle => (s.log a).sent
  | .store tty character | .publish tty character =>
    if tty = a then (s.log a).sent ++ [character] else (s.log a).sent

/-- A step that is not a call of `put`. -/
structure Continues (s s' : Puts) : Prop where
  begun : ∀ a, s'.begun a = s.begun a
  ttyBuffers : s'.ttys.ttyBuffers = s.ttys.ttyBuffers

theorem inv_put (h : s.Inv) (hstep : s.put ttyId character = some s') : s'.Inv := by
  unfold put at hstep
  split at hstep
  · obtain rfl := Option.some.inj hstep
    exact ⟨h.fifo, fun _ _ hpublish => by cases hpublish⟩
  all_goals cases hstep

theorem inv_handle (h : s.Inv) (hspare : s.Spare) (hstep : s.handle = some s') : s'.Inv := by
  unfold handle at hstep
  split at hstep <;> rename_i hputting
  · cases hstep
  · rename_i tty character
    obtain rfl := Option.some.inj hstep
    refine ⟨h.fifo_modify ?_, fun _ _ hpublish => ?_⟩
    · rw [TtyBuffer.ring_putCharacter]
      exact (h.fifo tty).store character
    · cases hpublish
      simp [modify, TtyBuffer.ring, TtyBuffer.putCharacter]
  · rename_i tty character
    obtain rfl := Option.some.inj hstep
    refine ⟨@Inv.fifo_modify _ tty (s.ttys.bufferAt tty).advanceHead _ h ?_, fun _ _ hpublish => ?_⟩
    · exact (h.fifo tty).publish (h.stored tty character hputting) (hspare tty character hputting)
    · cases hpublish

theorem begun_put (h : s.put ttyId character = some s') (a : UInt64) :
    s'.begun a = s.begun a ++ (if (s.ttys.ttyBuffers ttyId).buffer = a then [character] else []) ∧
      s'.ttys.ttyBuffers = s.ttys.ttyBuffers := by
  unfold put at h
  split at h <;> rename_i hputting
  · obtain rfl := Option.some.inj h
    refine ⟨?_, rfl⟩
    simp only [begun, hputting]
    split_ifs
    · rfl
    · rw [List.append_nil]
  all_goals cases h

/-- What the owners do changes nothing that has been sent. -/
theorem continues_modify (hl : l.sent = (s.log a).sent) : s.Continues (s.modify a tty l) := by
  refine ⟨fun c => ?_, rfl⟩
  have hlog : ((s.modify a tty l).log c).sent = (s.log c).sent := by
    simp only [modify, Function.update_apply]
    split_ifs with hc
    · rw [hl, hc]
    · rfl
  simp only [begun, hlog]
  rfl

theorem continues_take (h : s.take a = some s') : s.Continues s' := by
  unfold take at h
  dsimp only at h
  split_ifs at h
  obtain rfl := Option.some.inj h
  exact continues_modify rfl

theorem continues_release (h : s.release a = some s') : s.Continues s' := by
  unfold release at h
  split at h
  · cases h
  · obtain rfl := Option.some.inj h
    exact continues_modify rfl

theorem continues_handle (h : s.handle = some s') : s.Continues s' := by
  unfold handle at h
  split at h <;> rename_i hputting
  · cases h
  · rename_i tty character
    obtain rfl := Option.some.inj h
    refine ⟨fun c => ?_, rfl⟩
    by_cases hc : c = tty
    · subst hc
      simp only [begun, hputting, modify, Function.update_self]
    · simp only [begun, hputting, modify, Function.update_of_ne hc]
  · rename_i tty character
    obtain rfl := Option.some.inj h
    refine ⟨fun c => ?_, rfl⟩
    by_cases hc : c = tty
    · subst hc
      simp only [begun, hputting, modify, Function.update_self, if_true, Log.send]
    · simp only [begun, hputting, modify, Function.update_of_ne hc, if_neg (Ne.symm hc)]

end Puts

/-! ### All buffers -/

structure Queues where
  keyboard : Feed Scan
  mouse : Mouse
  mice : Feed Packet
  terminals : Puts

namespace Queues

inductive Event
  /-- The keyboard's interrupt, when its data register has `data`. -/
  | keyboard (data : UInt8)
  | handleKey
  | takeKey (a : UInt64)
  | releaseKey (a : UInt64)
  /-- The mouse's interrupt. -/
  | mouse (data : UInt8)
  | handlePacket
  | takePacket (a : UInt64)
  | releasePacket (a : UInt64)
  | put (ttyId character : UInt8)
  | handlePut
  | takeCharacter (a : UInt64)
  | releaseCharacter (a : UInt64)

/-- `mouse()`: with a completed packet it goes to the loop. -/
def receive (data : UInt8) (s : Queues) : Option Queues :=
  match s.mice.handler, s.mouse.receive data with
  | .idle, (mouse, none) => some { s with mouse }
  | _, (mouse, some packet) => (s.mice.interrupt packet).map fun mice => { s with mouse, mice }
  | .iterate _ _, (_, none) | .body _ _ _, (_, none) => none

def step (s : Queues) : Event → Option Queues
  | .keyboard data => (s.keyboard.interrupt (decodeScan data)).map fun keyboard => { s with keyboard }
  | .handleKey => (s.keyboard.handle scanFields).map fun keyboard => { s with keyboard }
  | .takeKey a => (s.keyboard.take a).map fun keyboard => { s with keyboard }
  | .releaseKey a => (s.keyboard.release a).map fun keyboard => { s with keyboard }
  | .mouse data => s.receive data
  | .handlePacket => (s.mice.handle packetFields).map fun mice => { s with mice }
  | .takePacket a => (s.mice.take a).map fun mice => { s with mice }
  | .releasePacket a => (s.mice.release a).map fun mice => { s with mice }
  | .put ttyId character => (s.terminals.put ttyId character).map fun terminals => { s with terminals }
  | .handlePut => s.terminals.handle.map fun terminals => { s with terminals }
  | .takeCharacter a => (s.terminals.take a).map fun terminals => { s with terminals }
  | .releaseCharacter a => (s.terminals.release a).map fun terminals => { s with terminals }

/-- No producer advances the head of a buffer that has no cell to spare. -/
def Spare (s : Queues) : Event → Prop
  | .handleKey => s.keyboard.Spare scanFields
  | .handlePacket => s.mice.Spare packetFields
  | .handlePut => s.terminals.Spare
  | .keyboard _ | .takeKey _ | .releaseKey _ | .mouse _ | .takePacket _ | .releasePacket _ | .put _ _
  | .takeCharacter _ | .releaseCharacter _ => True

instance decidableSpare (s : Queues) : ∀ e, Decidable (s.Spare e)
  | .handleKey => inferInstanceAs (Decidable (s.keyboard.Spare scanFields))
  | .handlePacket => inferInstanceAs (Decidable (s.mice.Spare packetFields))
  | .handlePut => inferInstanceAs (Decidable s.terminals.Spare)
  | .keyboard _ | .takeKey _ | .releaseKey _ | .mouse _ | .takePacket _ | .releasePacket _ | .put _ _
  | .takeCharacter _ | .releaseCharacter _ => isTrue trivial

structure Inv (keyboards mouses : List UInt64) (s : Queues) : Prop where
  keyboard : s.keyboard.Inv scanFields keyboards
  mice : s.mice.Inv packetFields mouses
  terminals : s.terminals.Inv

variable {s s' : Queues} {keyboards mouses : List UInt64} {event : Event}

theorem inv_receive (h : s.Inv keyboards mouses) {data : UInt8} (hstep : s.receive data = some s') :
    s'.Inv keyboards mouses := by
  unfold receive at hstep
  split at hstep
  · obtain rfl := Option.some.inj hstep
    exact ⟨h.keyboard, h.mice, h.terminals⟩
  · obtain ⟨mice, hmice, rfl⟩ := Option.map_eq_some_iff.1 hstep
    exact ⟨h.keyboard, Feed.inv_interrupt h.mice hmice, h.terminals⟩
  all_goals cases hstep

theorem inv_step (h : s.Inv keyboards mouses) (hspare : s.Spare event) (hstep : s.step event = some s') :
    s'.Inv keyboards mouses := by
  have hkeyboard : ∀ {r : Option (Feed Scan)}, (∀ k, r = some k → k.Inv scanFields keyboards) →
      (r.map fun keyboard => { s with keyboard }) = some s' → s'.Inv keyboards mouses := by
    intro r hr hmap
    obtain ⟨k, hk, rfl⟩ := Option.map_eq_some_iff.1 hmap
    exact ⟨hr k hk, h.mice, h.terminals⟩
  have hmice : ∀ {r : Option (Feed Packet)}, (∀ m, r = some m → m.Inv packetFields mouses) →
      (r.map fun mice => { s with mice }) = some s' → s'.Inv keyboards mouses := by
    intro r hr hmap
    obtain ⟨m, hm, rfl⟩ := Option.map_eq_some_iff.1 hmap
    exact ⟨h.keyboard, hr m hm, h.terminals⟩
  have hterminals : ∀ {r : Option Puts}, (∀ t, r = some t → t.Inv) →
      (r.map fun terminals => { s with terminals }) = some s' → s'.Inv keyboards mouses := by
    intro r hr hmap
    obtain ⟨t, ht, rfl⟩ := Option.map_eq_some_iff.1 hmap
    exact ⟨h.keyboard, h.mice, hr t ht⟩
  cases event with
  | keyboard data => exact hkeyboard (fun k => Feed.inv_interrupt h.keyboard) hstep
  | handleKey => exact hkeyboard (fun k => Feed.inv_handle h.keyboard fills_scanFields hspare) hstep
  | takeKey a => exact hkeyboard (fun k => Feed.inv_take h.keyboard) hstep
  | releaseKey a => exact hkeyboard (fun k => Feed.inv_release h.keyboard) hstep
  | mouse data => exact inv_receive h hstep
  | handlePacket => exact hmice (fun m => Feed.inv_handle h.mice fills_packetFields hspare) hstep
  | takePacket a => exact hmice (fun m => Feed.inv_take h.mice) hstep
  | releasePacket a => exact hmice (fun m => Feed.inv_release h.mice) hstep
  | put ttyId character => exact hterminals (fun t => Puts.inv_put h.terminals) hstep
  | handlePut => exact hterminals (fun t => Puts.inv_handle h.terminals hspare) hstep
  | takeCharacter a => exact hterminals (fun t => Puts.inv_take h.terminals) hstep
  | releaseCharacter a => exact hterminals (fun t => Puts.inv_release h.terminals) hstep

/-! ### What the events bring -/

/-- What the interrupt of the keyboard brings. -/
def Event.key : Event → List Scan
  | .keyboard data => [decodeScan data]
  | _ => []

/-- The byte of an interrupt of the mouse. -/
def Event.data : Event → Option UInt8
  | .mouse data => some data
  | _ => none

/-- The character that is put into the buffer at `a`. -/
def Event.character (ttyBuffers : UInt8 → TtySlot) (a : UInt64) : Event → List UInt8
  | .put ttyId character => if (ttyBuffers ttyId).buffer = a then [character] else []
  | _ => []

theorem receive_mouse {data : UInt8} (h : s.receive data = some s') :
    s'.mouse = (s.mouse.receive data).1 ∧
      s'.mice.begun = s.mice.begun ++ (s.mouse.receive data).2.toList ∧
      s'.mice.registry = s.mice.registry := by
  unfold receive at h
  split at h
  · rename_i hreceive
    obtain rfl := Option.some.inj h
    rw [hreceive]
    exact ⟨rfl, (List.append_nil _).symm, rfl⟩
  · rename_i hreceive
    obtain ⟨mice, hmice, rfl⟩ := Option.map_eq_some_iff.1 h
    rw [hreceive]
    exact ⟨rfl, Feed.begun_interrupt hmice⟩
  all_goals cases h

/-- The mouse's interrupt is nothing to the others. -/
theorem receive_frame {data : UInt8} (h : s.receive data = some s') :
    s'.keyboard = s.keyboard ∧ s'.terminals = s.terminals := by
  unfold receive at h
  split at h
  · obtain rfl := Option.some.inj h
    exact ⟨rfl, rfl⟩
  · obtain ⟨mice, -, rfl⟩ := Option.map_eq_some_iff.1 h
    exact ⟨rfl, rfl⟩
  all_goals cases h

theorem step_keyboard (h : s.step event = some s') :
    s'.keyboard.begun = s.keyboard.begun ++ event.key := by
  have hkeyboard : ∀ {r : Option (Feed Scan)}, (∀ k, r = some k → s.keyboard.Continues k) →
      (r.map fun keyboard => { s with keyboard }) = some s' →
      s'.keyboard.begun = s.keyboard.begun ++ [] := by
    intro r hr hmap
    obtain ⟨k, hk, rfl⟩ := Option.map_eq_some_iff.1 hmap
    rw [List.append_nil]
    exact (hr k hk).begun
  cases event with
  | keyboard data =>
    obtain ⟨k, hk, rfl⟩ := Option.map_eq_some_iff.1 h
    exact (Feed.begun_interrupt hk).1
  | handleKey => exact hkeyboard (fun _ => Feed.continues_handle) h
  | takeKey a => exact hkeyboard (fun _ => Feed.continues_take) h
  | releaseKey a => exact hkeyboard (fun _ => Feed.continues_release) h
  | mouse data =>
    rw [(receive_frame h).1]
    exact (List.append_nil _).symm
  | handlePacket | takePacket _ | releasePacket _ | put _ _ | handlePut | takeCharacter _
  | releaseCharacter _ =>
    obtain ⟨_, _, rfl⟩ := Option.map_eq_some_iff.1 h
    exact (List.append_nil _).symm

/-- Between the interrupts of the mouse nothing happens to its variables, and no call begins. -/
theorem step_mouse (h : s.step event = some s') :
    s'.mouse = (s.mouse.decode event.data.toList).1 ∧
      s'.mice.begun = s.mice.begun ++ (s.mouse.decode event.data.toList).2 ∧
      s'.mice.registry = s.mice.registry := by
  have hmice : ∀ {r : Option (Feed Packet)}, (∀ m, r = some m → s.mice.Continues m) →
      (r.map fun mice => { s with mice }) = some s' →
      s'.mouse = s.mouse ∧ s'.mice.begun = s.mice.begun ++ [] ∧ s'.mice.registry = s.mice.registry := by
    intro r hr hmap
    obtain ⟨m, hm, rfl⟩ := Option.map_eq_some_iff.1 hmap
    rw [List.append_nil]
    exact ⟨rfl, (hr m hm).begun, (hr m hm).registry⟩
  cases event with
  | mouse data =>
    have hreceive := receive_mouse h
    simpa [Event.data, Mouse.decode] using hreceive
  | handlePacket => exact hmice (fun _ => Feed.continues_handle) h
  | takePacket a => exact hmice (fun _ => Feed.continues_take) h
  | releasePacket a => exact hmice (fun _ => Feed.continues_release) h
  | keyboard _ | handleKey | takeKey _ | releaseKey _ | put _ _ | handlePut | takeCharacter _
  | releaseCharacter _ =>
    obtain ⟨_, _, rfl⟩ := Option.map_eq_some_iff.1 h
    exact ⟨rfl, (List.append_nil _).symm, rfl⟩

/-- Which terminal has which buffer does not change. -/
theorem step_terminals (h : s.step event = some s') :
    s'.terminals.ttys.ttyBuffers = s.terminals.ttys.ttyBuffers ∧
      ∀ a, s'.terminals.begun a = s.terminals.begun a ++ event.character s.terminals.ttys.ttyBuffers a := by
  have hterminals : ∀ {r : Option Puts}, (∀ t, r = some t → s.terminals.Continues t) →
      (r.map fun terminals => { s with terminals }) = some s' →
      s'.terminals.ttys.ttyBuffers = s.terminals.ttys.ttyBuffers ∧
        ∀ a, s'.terminals.begun a = s.terminals.begun a ++ [] := by
    intro r hr hmap
    obtain ⟨t, ht, rfl⟩ := Option.map_eq_some_iff.1 hmap
    refine ⟨(hr t ht).ttyBuffers, fun a => ?_⟩
    rw [List.append_nil]
    exact (hr t ht).begun a
  cases event with
  | put ttyId character =>
    obtain ⟨t, ht, rfl⟩ := Option.map_eq_some_iff.1 h
    exact ⟨(Puts.begun_put ht 0).2, fun a => (Puts.begun_put ht a).1⟩
  | handlePut => exact hterminals (fun _ => Puts.continues_handle) h
  | takeCharacter a => exact hterminals (fun _ => Puts.continues_take) h
  | releaseCharacter a => exact hterminals (fun _ => Puts.continues_release) h
  | mouse data =>
    rw [(receive_frame h).2]
    exact ⟨rfl, fun a => (List.append_nil _).symm⟩
  | keyboard _ | handleKey | takeKey _ | releaseKey _ | handlePacket | takePacket _ | releasePacket _ =>
    obtain ⟨_, _, rfl⟩ := Option.map_eq_some_iff.1 h
    exact ⟨rfl, fun a => (List.append_nil _).symm⟩

end Queues

/-! ### Runs -/

/-- The device's handler has not been called yet, and the buffers are empty, wherever their indices
are. -/
structure Feed.Started {α : Type*} (elements : List UInt64) (s : Feed α) : Prop where
  ring : IsRing s.registry.links s.registry.head elements
  handler : s.handler = .idle
  empty : ∀ a, (s.bufferAt a).head = (s.bufferAt a).tail
  log : ∀ a, s.log a = ⟨[], [], none⟩
  handled : s.handled = []

structure Puts.Started (s : Puts) : Prop where
  putting : s.putting = .idle
  empty : ∀ a, (s.ttys.bufferAt a).writeHead = (s.ttys.bufferAt a).writeTail
  log : ∀ a, s.log a = ⟨[], [], none⟩

/-- Every buffer is first in, first out; and when the handler has returned, what has been sent to a
buffer are the events it has handled, in their order. -/
structure Feed.Delivers {α : Type*} (elements : List UInt64) (s : Feed α) : Prop where
  fifo : ∀ a, (s.bufferAt a).Fifo (s.log a)
  sent : s.handler = .idle → ∀ a, (s.log a).sent = s.total elements a

theorem Feed.Started.inv {α : Type*} {elements : List UInt64} {s : Feed α} (h : s.Started elements)
    (fields : α → List (α → α)) : s.Inv fields elements := by
  refine ⟨h.ring, fun a => ?_, ?_⟩
  · rw [h.log a]
    exact fifo_nil (h.empty a)
  · simp only [Feed.Place, h.handler]
    intro a
    rw [h.log a, Feed.total, h.handled, List.flatMap_nil]

theorem Feed.Inv.delivers {α : Type*} {elements : List UInt64} {s : Feed α} {fields : α → List (α → α)}
    (h : s.Inv fields elements) : s.Delivers elements := by
  refine ⟨h.fifo, fun hidle => ?_⟩
  have hplace := h.place
  simp only [Feed.Place, hidle] at hplace
  exact hplace

theorem Feed.Started.begun {α : Type*} {elements : List UInt64} {s : Feed α} (h : s.Started elements) :
    s.begun = [] := by
  simp only [Feed.begun, h.handler, h.handled]

theorem Puts.Started.begun {s : Puts} (h : s.Started) (a : UInt64) : s.begun a = [] := by
  simp only [Puts.begun, h.putting, h.log]

theorem Puts.Started.inv {s : Puts} (h : s.Started) : s.Inv := by
  refine ⟨fun a => ?_, fun tty character hpublish => ?_⟩
  · rw [h.log a]
    exact fifo_nil (h.empty a)
  · rw [h.putting] at hpublish
    cases hpublish

namespace Queues

structure Started (keyboards mouses : List UInt64) (s : Queues) : Prop where
  keyboard : s.keyboard.Started keyboards
  mice : s.mice.Started mouses
  terminals : s.terminals.Started

variable {s s' : Queues} {keyboards mouses : List UInt64} {events : List Event}

theorem Started.run (hstart : s.Started keyboards mouses)
    (hspare : Trace.Along step Spare s events) (hrun : Trace.run step s events = some s') :
    s'.Inv keyboards mouses :=
  Trace.run_invariant_along (fun _ _ _ h hC => inv_step h hC)
    ⟨hstart.keyboard.inv _, hstart.mice.inv _, hstart.terminals.inv⟩ hspare hrun

theorem run_keyboard (h : Trace.run step s events = some s') :
    s'.keyboard.begun = s.keyboard.begun ++ events.flatMap Event.key :=
  Trace.run_appends (I := fun _ => True) (fun _ _ _ _ hstep => ⟨trivial, step_keyboard hstep⟩) trivial h

/-- A run decodes the bytes that come in it, whatever comes between them. -/
theorem run_mouse (h : Trace.run step s events = some s') :
    s'.mouse = (s.mouse.decode (events.filterMap Event.data)).1 ∧
      s'.mice.begun = s.mice.begun ++ (s.mouse.decode (events.filterMap Event.data)).2 ∧
      s'.mice.registry = s.mice.registry := by
  induction events generalizing s with
  | nil =>
    rw [Trace.run_nil, Option.some.injEq] at h
    subst h
    exact ⟨rfl, (List.append_nil _).symm, rfl⟩
  | cons e events ih =>
    rw [Trace.run_cons] at h
    obtain ⟨u, hstep, hrest⟩ := Option.bind_eq_some_iff.1 h
    obtain ⟨hmouse, hbegun, hregistry⟩ := step_mouse hstep
    obtain ⟨hmouse', hbegun', hregistry'⟩ := ih hrest
    have hdata : (e :: events).filterMap Event.data = e.data.toList ++ events.filterMap Event.data := by
      rw [List.filterMap_cons]
      cases e.data <;> rfl
    rw [hdata, Mouse.decode_append, ← hmouse]
    refine ⟨hmouse', ?_, hregistry'.trans hregistry⟩
    rw [hbegun', hbegun, List.append_assoc]

theorem run_terminals (h : Trace.run step s events = some s') (a : UInt64) :
    s'.terminals.begun a =
      s.terminals.begun a ++ events.flatMap (Event.character s.terminals.ttys.ttyBuffers a) := by
  have hone : ∀ (u : Queues) e u', u.terminals.ttys.ttyBuffers = s.terminals.ttys.ttyBuffers →
      u.step e = some u' → u'.terminals.ttys.ttyBuffers = s.terminals.ttys.ttyBuffers ∧
        u'.terminals.begun a = u.terminals.begun a ++ e.character s.terminals.ttys.ttyBuffers a := by
    intro u e u' hu hstep
    obtain ⟨hbuffers, hbegun⟩ := step_terminals hstep
    exact ⟨hbuffers.trans hu, hu ▸ hbegun a⟩
  exact Trace.run_appends (f := fun u : Queues => u.terminals.begun a) hone rfl h

/-- **Input is delivered in order.** In every run in which no producer advances the head of a buffer
that has no cell to spare, what has been sent to a buffer is what its owner has received, and then what
the buffer holds; to the buffers of the keyboard and the mouse goes what the handlers have been
called with, and to those of the terminals what `put` has. The handlers have been called with the keys and
the packets that came in the run, and `put` with its characters. -/
theorem inputs_fifo (hstart : s.Started keyboards mouses)
    (hspare : Trace.Along step Spare s events) (hrun : Trace.run step s events = some s') :
    s'.keyboard.Delivers keyboards ∧ s'.mice.Delivers mouses ∧
      (∀ a, (s'.terminals.ttys.bufferAt a).ring.Fifo (s'.terminals.log a)) ∧
      s'.keyboard.begun = events.flatMap Event.key ∧
      s'.mice.begun = (s.mouse.decode (events.filterMap Event.data)).2 ∧
      ∀ a, s'.terminals.begun a =
        events.flatMap (Event.character s.terminals.ttys.ttyBuffers a) := by
  have hinv := hstart.run hspare hrun
  refine ⟨hinv.keyboard.delivers, hinv.mice.delivers, hinv.terminals.fifo, ?_, ?_, fun a => ?_⟩
  · rw [run_keyboard hrun, hstart.keyboard.begun, List.nil_append]
  · rw [(run_mouse hrun).2.1, hstart.mice.begun, List.nil_append]
  · rw [run_terminals hrun, hstart.terminals.begun, List.nil_append]

/-- One keyboard buffer, one mouse buffer and the kernel's terminal. -/
def connected : Queues where
  keyboard := ⟨⟨0, linkList (emptyRing UInt64) 0 8, fun _ => 100⟩, fun _ => ⟨fun _ => ⟨0, false⟩, 255, 255⟩,
    .idle, fun _ => ⟨[], [], none⟩, []⟩
  mouse := ⟨true, 2, fun _ => 9⟩
  mice := ⟨⟨0, linkList (emptyRing UInt64) 0 8, fun _ => 200⟩,
    fun _ => ⟨fun _ => ⟨0, 0, false, false⟩, 0, 0⟩, .idle, fun _ => ⟨[], [], none⟩, []⟩
  terminals := ⟨⟨fun _ => ⟨true, 0, 300⟩, fun _ => ⟨0, 0, 0, 0, 0, ⟨fun _ => 0, []⟩⟩⟩, .idle,
    fun _ => ⟨[], [], none⟩⟩

theorem connected_started : connected.Started [8] [8] := by
  have hring : IsRing (linkList (emptyRing UInt64) 0 8) 0 [8] :=
    isRing_linkList (isRing_emptyRing 0) (by decide)
  exact ⟨⟨hring, rfl, fun _ => rfl, fun _ => rfl, rfl⟩, ⟨hring, rfl, fun _ => rfl, fun _ => rfl, rfl⟩,
    ⟨rfl, fun _ => rfl, fun _ => rfl⟩⟩

/-- A key, whose owner's head comes round from 255 to 0; the last byte of a packet; and a character. -/
def oneOfEach : List Event :=
  .keyboard 0x1e :: List.replicate 5 .handleKey ++ [.takeKey 100, .releaseKey 100] ++
    .mouse 7 :: List.replicate 7 .handlePacket ++
    [.put 0 65, .handlePut, .handlePut, .takeCharacter 300, .releaseCharacter 300]

theorem inputs_fifo_oneOfEach : ∃ s, Trace.run step connected oneOfEach = some s ∧
    (s.keyboard.log 100).received = [⟨0x1e, true⟩] ∧
      s.keyboard.Delivers [8] ∧ s.mice.Delivers [8] ∧ s.mice.begun.length = 1 ∧
        s.terminals.begun 300 = [65] := by
  have hspare : Trace.Along step Spare connected oneOfEach := by decide
  obtain ⟨hkeyboard, hmice, -, -, hpackets, hput⟩ := inputs_fifo connected_started hspare rfl
  exact ⟨_, rfl, by decide, hkeyboard, hmice, congrArg List.length hpackets, hput 300⟩

end Queues

end Naul
