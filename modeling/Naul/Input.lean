import Mathlib.Data.UInt
import Naul.Lib.RingBuffer
import Naul.Registries

/-!
# Input from the keyboard and the mouse (`os/src/keyboard.c`, `mouse.c`)

A process registers a buffer, and the interrupt handler puts what the device says into every registered
buffer: it walks the ring of `KeyboardBufferElement`s or `MouseBufferElement`s and in each turn stores
the fields of one event at the buffer's head and then advances the head. Each owner takes events at the
tail of its own buffer.

The handlers are alike but for the type of an event and the order in which its fields are stored, so
that both are a `Feed`. Every store of the handler is a step of its own here, between any two of which
the owners may go on; `Feed.inv_handle`, `Feed.inv_take` and `Feed.inv_release` say what a step keeps.
-/

namespace Naul

open LinkRing RingBuffer

instance wrappingUInt8 : WrappingIndex UInt8 where
  size := 256
  size_pos := by decide
  index := UInt8.ofNat
  index_succ n := UInt8.ofNat_add n 1
  index_eq_iff m n := by rw [← UInt8.toNat_inj, UInt8.toNat_ofNat', UInt8.toNat_ofNat']
  index_surjective i := ⟨i.toNat, UInt8.ofNat_toNat⟩

instance wrappingUInt16 : WrappingIndex UInt16 where
  size := 65536
  size_pos := by decide
  index := UInt16.ofNat
  index_succ n := UInt16.ofNat_add n 1
  index_eq_iff m n := by rw [← UInt16.toNat_inj, UInt16.toNat_ofNat', UInt16.toNat_ofNat']
  index_surjective i := ⟨i.toNat, UInt16.ofNat_toNat⟩

/-- An element of the array `buffer` of a `KeyboardBuffer`. -/
structure Scan where
  scancode : UInt8
  pressed : Bool
  deriving DecidableEq

/-- `typedef struct { … } KeyboardBuffer`, with the array `buffer` as the cells. -/
abbrev KeyboardBuffer := RingBuffer UInt8 Scan

/-- An element of the array `buffer` of a `MouseBuffer`. -/
structure Packet where
  x : Int16
  y : Int16
  left : Bool
  right : Bool
  deriving DecidableEq

/-- `typedef struct { … } MouseBuffer`. -/
abbrev MouseBuffer := RingBuffer UInt8 Packet

/-! ### What the devices say -/

/-- The variables `scancode` and `!unpressed` of `keyboard()` after it has read `data`. -/
def decodeScan (data : UInt8) : Scan :=
  let unpressed : Bool := data &&& 0x80 ≠ 0
  ⟨if unpressed then data &&& ~~~0x80 else data, !unpressed⟩

/-- The variables of `mouse.c`. -/
structure Mouse where
  setup : Bool
  mouseCycle : UInt8
  mouseBytes : UInt8 → UInt8

/-- The variables `x`, `y`, `left` and `right` of `mouse()`. -/
def decodePacket (mouseBytes : UInt8 → UInt8) : Packet where
  x := .ofInt ((mouseBytes 1).toNat - ((mouseBytes 0).toNat <<< 4 &&& 0x100 : ℕ))
  y := .ofInt ((mouseBytes 2).toNat - ((mouseBytes 0).toNat <<< 3 &&& 0x100 : ℕ))
  left := mouseBytes 0 &&& 0b1 ≠ 0
  right := mouseBytes 0 &&& 0b10 ≠ 0

/-- `mouse()`, where it has read `data`, up to the loop; the packet if it is completed. -/
def Mouse.receive (s : Mouse) (data : UInt8) : Mouse × Option Packet :=
  if s.setup ∧ (s.mouseCycle ≠ 0 ∨ data &&& 0x08 ≠ 0) then
    let mouseBytes := Function.update s.mouseBytes s.mouseCycle data
    if s.mouseCycle + 1 = 3 then ({ s with mouseBytes, mouseCycle := 0 }, some (decodePacket mouseBytes))
    else ({ s with mouseBytes, mouseCycle := s.mouseCycle + 1 }, none)
  else (s, none)

/-- `mouse()` for one byte after the other: the variables, and the packets completed. -/
def Mouse.decode (s : Mouse) : List UInt8 → Mouse × List Packet
  | [] => (s, [])
  | data :: bytes =>
    let (s', packet) := s.receive data
    let (t, packets) := s'.decode bytes
    (t, packet.toList ++ packets)

theorem Mouse.decode_append (s : Mouse) (bytes rest : List UInt8) :
    s.decode (bytes ++ rest) =
      (((s.decode bytes).1.decode rest).1, (s.decode bytes).2 ++ ((s.decode bytes).1.decode rest).2) := by
  induction bytes generalizing s with
  | nil => rfl
  | cons data bytes ih => simp only [List.cons_append, decode, ih, List.append_assoc]

/-- The stores of the loop body of `keyboard()` to an element of the array. -/
def scanFields (k : Scan) : List (Scan → Scan) :=
  [fun c => { c with scancode := k.scancode }, fun c => { c with pressed := k.pressed }]

/-- The stores of the loop body of `mouse()`. -/
def packetFields (p : Packet) : List (Packet → Packet) :=
  [fun c => { c with x := p.x }, fun c => { c with y := p.y }, fun c => { c with left := p.left },
    fun c => { c with right := p.right }]

/-- The stores write every field, whatever was there before. -/
def Fills {α : Type*} (fields : α → List (α → α)) : Prop :=
  ∀ v c, (fields v).foldl (fun c f => f c) c = v

theorem fills_scanFields : Fills scanFields := fun _ _ => rfl

theorem fills_packetFields : Fills packetFields := fun _ _ => rfl

/-! ### The handlers -/

/-- Where the handler is: before the loop's condition, or before the statement `n` of its body, the last
of which advances the head. -/
inductive Handler (α : Type*)
  | idle
  | iterate (value : α) (element : UInt64)
  | body (value : α) (element : UInt64) (n : ℕ)

/-- The registry and the buffers of a device. `log` and `handled` are ghosts: what has gone through each
buffer, and what the handler has been through with. -/
structure Feed (α : Type*) where
  registry : Buffers
  bufferAt : UInt64 → RingBuffer UInt8 α
  handler : Handler α
  log : UInt64 → Log α
  handled : List α

namespace Feed

variable {α : Type*}

/-- The handler starts with `value`. -/
def interrupt (value : α) (s : Feed α) : Option (Feed α) :=
  match s.handler with
  | .idle => some { s with handler := .iterate value s.registry.head }
  | .iterate _ _ | .body _ _ _ => none

/-- The buffer at `a` changes. -/
def modify (s : Feed α) (a : UInt64) (b : RingBuffer UInt8 α) (l : Log α) : Feed α :=
  { s with bufferAt := Function.update s.bufferAt a b, log := Function.update s.log a l }

/-- The handler goes on. -/
def handle (fields : α → List (α → α)) (s : Feed α) : Option (Feed α) :=
  match s.handler with
  | .idle => none
  | .iterate value element =>
    let element := s.registry.links.next element
    if element = s.registry.head then
      some { s with handler := .idle, handled := s.handled ++ [value] }
    else some { s with handler := .body value element 0 }
  | .body value element n =>
    let a := s.registry.buffer element
    let b := s.bufferAt a
    match (fields value)[n]? with
    | some f => some { s.modify a (b.store (f (b.cell b.head))) (s.log a) with
        handler := .body value element (n + 1) }
    | none => some { s.modify a b.publish ((s.log a).send value) with handler := .iterate value element }

/-- The owner of the buffer at `a` reads the element at the tail; it may do so again. -/
def take (a : UInt64) (s : Feed α) : Option (Feed α) :=
  let b := s.bufferAt a
  if b.tail = b.head then none else some (s.modify a b ((s.log a).take (b.cell b.tail)))

/-- It is done with what it has read, and advances the tail. -/
def release (a : UInt64) (s : Feed α) : Option (Feed α) :=
  match (s.log a).taken with
  | none => none
  | some value => some (s.modify a (s.bufferAt a).advance ((s.log a).receive value))

/-! ### The invariant -/

/-- How often the buffer at `a` is registered by the elements. -/
def registrations (s : Feed α) (elements : List UInt64) (a : UInt64) : ℕ :=
  elements.countP fun e => s.registry.buffer e = a

/-- What the handler has put into the buffer at `a` when it has been through with all it has handled: each
event once for every registration. -/
def total (s : Feed α) (elements : List UInt64) (a : UInt64) : List α :=
  s.handled.flatMap fun value => List.replicate (s.registrations elements a) value

/-- The handler has been to the elements `visited` with `value`. -/
def Visited (s : Feed α) (elements visited : List UInt64) (value : α) : Prop :=
  ∀ a, (s.log a).sent = s.total elements a ++ List.replicate (s.registrations visited a) value

/-- What has been put into the buffers where the handler is. -/
def Place (fields : α → List (α → α)) (elements : List UInt64) (s : Feed α) : Prop :=
  match s.handler with
  | .idle => ∀ a, (s.log a).sent = s.total elements a
  | .iterate value element => ∃ ys zs, elements = ys ++ zs ∧
    (s.registry.head :: ys).getLast? = some element ∧ s.Visited elements ys value
  | .body value element n => ∃ ys zs, elements = ys ++ element :: zs ∧ s.Visited elements ys value ∧
    ((fields value).drop n).foldl (fun c f => f c)
      ((s.bufferAt (s.registry.buffer element)).cell
        (s.bufferAt (s.registry.buffer element)).head) = value

structure Inv (fields : α → List (α → α)) (elements : List UInt64) (s : Feed α) : Prop where
  ring : IsRing s.registry.links s.registry.head elements
  fifo : ∀ a, (s.bufferAt a).Fifo (s.log a)
  place : s.Place fields elements

/-- Where the handler is about to advance a head, the buffer has a cell to spare. -/
def Spare (fields : α → List (α → α)) (s : Feed α) : Prop :=
  ∀ value element n, s.handler = .body value element n → (fields value)[n]? = none →
    ¬ (s.bufferAt (s.registry.buffer element)).Full

instance decidableSpare (fields : α → List (α → α)) (s : Feed α) : Decidable (s.Spare fields) :=
  match h : s.handler with
  | .body value element n => decidable_of_iff
      ((fields value)[n]? = none → ¬ (s.bufferAt (s.registry.buffer element)).Full)
      ⟨fun hroom v e m heq => by cases h.symm.trans heq; exact hroom, fun hspare => hspare value element n h⟩
  | .idle | .iterate _ _ => isTrue fun v e m heq => by cases h.symm.trans heq

variable {fields : α → List (α → α)} {elements ys zs : List UInt64} {s s' : Feed α} {a e : UInt64}
  {value : α} {n : ℕ}

@[simp] theorem modify_bufferAt (s : Feed α) (a c : UInt64) (b : RingBuffer UInt8 α) (l : Log α) :
    (s.modify a b l).bufferAt c = if c = a then b else s.bufferAt c := Function.update_apply ..

@[simp] theorem modify_log (s : Feed α) (a c : UInt64) (b : RingBuffer UInt8 α) (l : Log α) :
    (s.modify a b l).log c = if c = a then l else s.log c := Function.update_apply ..

@[simp] theorem modify_handler (s : Feed α) (a : UInt64) (b : RingBuffer UInt8 α) (l : Log α) :
    (s.modify a b l).handler = s.handler := rfl

/-- A change of one buffer that keeps it first in, first out. -/
theorem Inv.fifo_modify (h : s.Inv fields elements) {b : RingBuffer UInt8 α} {l : Log α} (hb : b.Fifo l)
    (c : UInt64) : ((s.modify a b l).bufferAt c).Fifo ((s.modify a b l).log c) := by
  rw [modify_bufferAt, modify_log]
  split_ifs
  · exact hb
  · exact h.fifo c

/-- What an owner does is nothing to the handler. -/
theorem Inv.owner (h : s.Inv fields elements) {b : RingBuffer UInt8 α} {l : Log α} (hb : b.Fifo l)
    (hcell : b.cell = (s.bufferAt a).cell) (hhead : b.head = (s.bufferAt a).head)
    (hsent : l.sent = (s.log a).sent) : (s.modify a b l).Inv fields elements := by
  have hlog : ∀ c, ((s.modify a b l).log c).sent = (s.log c).sent := by
    intro c
    rw [modify_log]
    split_ifs with hc
    · rw [hsent, hc]
    · rfl
  have hbuffer : ∀ c, ((s.modify a b l).bufferAt c).cell ((s.modify a b l).bufferAt c).head =
      (s.bufferAt c).cell (s.bufferAt c).head := by
    intro c
    rw [modify_bufferAt]
    split_ifs with hc
    · rw [hcell, hhead, hc]
    · rfl
  refine ⟨h.ring, h.fifo_modify hb, ?_⟩
  have hplace := h.place
  cases hhandler : s.handler with
  | idle =>
    simp only [Place, modify_handler, hhandler] at hplace ⊢
    exact fun c => (hlog c).trans (hplace c)
  | iterate value element =>
    simp only [Place, modify_handler, hhandler] at hplace ⊢
    obtain ⟨ys, zs, hs, hlast, hvisited⟩ := hplace
    exact ⟨ys, zs, hs, hlast, fun c => (hlog c).trans (hvisited c)⟩
  | body value element n =>
    simp only [Place, modify_handler, hhandler] at hplace ⊢
    obtain ⟨ys, zs, hs, hvisited, hfields⟩ := hplace
    refine ⟨ys, zs, hs, fun c => (hlog c).trans (hvisited c), ?_⟩
    rw [hbuffer]
    exact hfields

theorem inv_take (h : s.Inv fields elements) (hstep : s.take a = some s') : s'.Inv fields elements := by
  unfold take at hstep
  simp only at hstep
  split_ifs at hstep with hempty
  obtain rfl := Option.some.inj hstep
  exact h.owner ((h.fifo a).take hempty) rfl rfl rfl

theorem inv_release (h : s.Inv fields elements) (hstep : s.release a = some s') :
    s'.Inv fields elements := by
  unfold release at hstep
  split at hstep
  · cases hstep
  · rename_i value htaken
    obtain rfl := Option.some.inj hstep
    exact h.owner ((h.fifo a).advance htaken) rfl rfl rfl

theorem inv_interrupt (h : s.Inv fields elements) (hstep : s.interrupt value = some s') :
    s'.Inv fields elements := by
  unfold interrupt at hstep
  split at hstep
  · rename_i hidle
    obtain rfl := Option.some.inj hstep
    have hplace := h.place
    simp only [Place, hidle] at hplace
    exact ⟨h.ring, h.fifo, [], elements, rfl, rfl, fun a => by
      rw [registrations, List.countP_nil, List.replicate_zero, List.append_nil]
      exact hplace a⟩
  all_goals cases hstep

/-- Where the loop's condition is tested: the handler is through, or goes to the next element. -/
theorem inv_iterate (h : s.Inv fields elements) (hfills : Fills fields)
    (hhandler : s.handler = .iterate value e) (hstep : s.handle fields = some s') :
    s'.Inv fields elements := by
  have hplace := h.place
  simp only [Place, hhandler] at hplace
  obtain ⟨ys, zs, rfl, hlast, hvisited⟩ := hplace
  obtain ⟨ps, hps⟩ := List.getLast?_eq_some_iff.1 hlast
  simp only [handle, hhandler] at hstep
  cases zs with
  | nil =>
    have hnext : s.registry.links.next e = s.registry.head :=
      (h.ring.linked_last (by rw [List.append_nil]; exact hps)).1
    rw [if_pos hnext] at hstep
    obtain rfl := Option.some.inj hstep
    refine ⟨h.ring, h.fifo, fun a => (hvisited a).trans ?_⟩
    rw [List.append_nil]
    simp only [total, List.flatMap_append, List.flatMap_singleton]
    rfl
  | cons z zs =>
    have hsplit : s.registry.head :: (ys ++ z :: zs) = ps ++ e :: z :: zs := by
      rw [← List.cons_append, hps, List.append_assoc, List.singleton_append]
    have hnext : s.registry.links.next e = z := (h.ring.linked hsplit).1
    have hne : z ≠ s.registry.head := h.ring.ne_head (by simp)
    simp only [hnext, if_neg hne, Option.some.injEq] at hstep
    subst hstep
    exact ⟨h.ring, h.fifo, ys, zs, rfl, hvisited, hfills value _⟩

/-- In the body: a store to the cell at the head, or the end of the turn. -/
theorem inv_body (h : s.Inv fields elements) (hspare : s.Spare fields)
    (hhandler : s.handler = .body value e n) (hstep : s.handle fields = some s') :
    s'.Inv fields elements := by
  have hplace := h.place
  simp only [Place, hhandler] at hplace
  obtain ⟨ys, zs, hs, hvisited, hfields⟩ := hplace
  simp only [handle, hhandler] at hstep
  cases hn : (fields value)[n]? with
  | some f =>
    simp only [hn, Option.some.injEq] at hstep
    subst hstep
    refine ⟨h.ring, h.fifo_modify ((h.fifo _).store _), ys, zs, hs, fun a => ?_, ?_⟩
    · simp only [modify_log]
      split_ifs with ha
      · rw [← ha]
        exact hvisited a
      · exact hvisited a
    · rw [List.drop_eq_getElem_cons (List.getElem?_eq_some_iff.1 hn).1, List.foldl_cons,
        (List.getElem?_eq_some_iff.1 hn).2] at hfields
      simp only [modify, Function.update_self, RingBuffer.store]
      exact hfields
  | none =>
    simp only [hn, Option.some.injEq] at hstep
    subst hstep
    rw [List.drop_eq_nil_of_le (List.getElem?_eq_none_iff.1 hn), List.foldl_nil] at hfields
    have hroom := hspare value e n hhandler hn
    refine ⟨h.ring, h.fifo_modify ((h.fifo _).publish hfields hroom), ys ++ [e], zs, ?_, ?_, fun a => ?_⟩
    · rw [hs, List.append_assoc, List.singleton_append]
    · rw [← List.cons_append, List.getLast?_concat]
    · show (Function.update s.log _ _ a).sent =
        s.total elements a ++ List.replicate (s.registrations (ys ++ [e]) a) value
      rw [registrations, List.countP_append, List.countP_singleton, Function.update_apply]
      by_cases ha : a = s.registry.buffer e
      · rw [if_pos ha, if_pos (decide_eq_true ha.symm), List.replicate_succ', ← List.append_assoc]
        exact congrArg (· ++ [value]) (ha ▸ hvisited a)
      · rw [if_neg ha, if_neg (by simpa using Ne.symm ha), Nat.add_zero]
        exact hvisited a

theorem inv_handle (h : s.Inv fields elements) (hfills : Fills fields) (hspare : s.Spare fields)
    (hstep : s.handle fields = some s') : s'.Inv fields elements := by
  cases hhandler : s.handler with
  | idle => simp only [handle, hhandler] at hstep; cases hstep
  | iterate value element => exact inv_iterate h hfills hhandler hstep
  | body value element n => exact inv_body h hspare hhandler hstep

/-! ### What has begun -/

/-- What the handler has been called with, the current call included. -/
def begun (s : Feed α) : List α :=
  match s.handler with
  | .idle => s.handled
  | .iterate value _ | .body value _ _ => s.handled ++ [value]

/-- A step that is neither a call of the handler nor a registration. -/
structure Continues (s s' : Feed α) : Prop where
  begun : s'.begun = s.begun
  registry : s'.registry = s.registry

theorem continues_handle (h : s.handle fields = some s') : s.Continues s' := by
  unfold handle at h
  split at h <;> rename_i hhandler
  · cases h
  · dsimp only at h
    split_ifs at h <;> obtain rfl := Option.some.inj h <;>
      exact ⟨by simp only [Feed.begun, hhandler], rfl⟩
  · dsimp only at h
    split at h <;> obtain rfl := Option.some.inj h <;>
      exact ⟨by simp only [Feed.begun, hhandler, modify], rfl⟩

theorem continues_take (h : s.take a = some s') : s.Continues s' := by
  unfold take at h
  dsimp only at h
  split_ifs at h
  obtain rfl := Option.some.inj h
  exact ⟨rfl, rfl⟩

theorem continues_release (h : s.release a = some s') : s.Continues s' := by
  unfold release at h
  split at h
  · cases h
  · obtain rfl := Option.some.inj h
    exact ⟨rfl, rfl⟩

theorem begun_interrupt (h : s.interrupt value = some s') :
    s'.begun = s.begun ++ [value] ∧ s'.registry = s.registry := by
  unfold interrupt at h
  split at h <;> rename_i hhandler
  · obtain rfl := Option.some.inj h
    exact ⟨by simp only [begun, hhandler], rfl⟩
  all_goals cases h

end Feed

end Naul
