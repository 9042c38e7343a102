import Naul.Lib.WhileLoop
import Naul.Mem
import Naul.Str

/-!
# Terminals (`os/src/tty.c`)

A TTY buffer is a ring of 65536 characters with 16-bit positions. `put` stores one character and
advances the head, which wraps. `write` stores a whole message with one block copy from the head
upward and advances the head once: the head wraps, the copy does not.

The cells of `writeBuffer` are the first 65536 cells of the modelled block; the cells from there on
are the memory after the buffer. The lock around each operation makes it one step.
-/

namespace Naul

/-- `typedef struct { … } TtyBuffer`; `writeBuffer` continues into the memory after the buffer. -/
structure TtyBuffer where
  readCursor : UInt64
  readBuffer : UInt64
  readLength : UInt64
  writeHead : UInt16
  writeTail : UInt16
  writeBuffer : Cells UInt8

/-- An element of the array `ttyBuffers`; `buffer` is the address of a `TtyBuffer`. -/
structure TtySlot where
  used : Bool
  oldId : UInt8
  buffer : UInt64

/-- The terminals: the array `ttyBuffers`, and the buffer at each address. -/
structure Ttys where
  ttyBuffers : UInt8 → TtySlot
  bufferAt : UInt64 → TtyBuffer

namespace TtyBuffer

/-- The number of characters of `writeBuffer`. -/
def size : ℕ := 65536

def put (tty : TtyBuffer) (character : UInt8) : TtyBuffer :=
  { tty with
    writeBuffer := tty.writeBuffer.store tty.writeHead.toNat character
    writeHead := tty.writeHead + 1 }

def write (tty : TtyBuffer) (message : CString) : TtyBuffer :=
  let length := stringLength message.bytes
  { tty with
    writeBuffer := copyMemoryFrom (message.bytes.take length) tty.writeHead.toNat tty.writeBuffer
    writeHead := tty.writeHead + UInt16.ofNat length }

/-- The two buffers agree: in every field, and in every character of `writeBuffer`. -/
structure Same (a b : TtyBuffer) : Prop where
  readCursor : a.readCursor = b.readCursor
  readBuffer : a.readBuffer = b.readBuffer
  readLength : a.readLength = b.readLength
  writeHead : a.writeHead = b.writeHead
  writeTail : a.writeTail = b.writeTail
  writeBuffer : ∀ i < size, a.writeBuffer.cell i = b.writeBuffer.cell i

theorem Same.refl (a : TtyBuffer) : Same a a := ⟨rfl, rfl, rfl, rfl, rfl, fun _ _ => rfl⟩

end TtyBuffer

/-- The buffer the running thread writes to, for a thread with `currentThread->ttyId = ttyId`. -/
def Ttys.current (s : Ttys) (ttyId : UInt8) : TtyBuffer := s.bufferAt (s.ttyBuffers ttyId).buffer

/-- Change the buffer the running thread writes to. -/
def Ttys.modify (s : Ttys) (ttyId : UInt8) (f : TtyBuffer → TtyBuffer) : Ttys :=
  { s with bufferAt := Function.update s.bufferAt (s.ttyBuffers ttyId).buffer (f (s.current ttyId)) }

/-- `put(character)`, by a thread of terminal `ttyId`. -/
def put (ttyId : UInt8) (s : Ttys) (character : UInt8) : Ttys := s.modify ttyId (·.put character)

/-- `write(message)`, by a thread of terminal `ttyId`. -/
def write (ttyId : UInt8) (s : Ttys) (message : CString) : Ttys := s.modify ttyId (·.write message)

/-- A turn of the loops `while (…) { id++; }` over `ttyBuffers`, which stop at a slot with `p`. -/
def slotTurn (ttyBuffers : UInt8 → TtySlot) (p : TtySlot → Bool) (id : UInt8) : UInt8 ⊕ UInt8 :=
  if p (ttyBuffers id) then .inr id else .inl (id + 1)

/-- The slot at which such a loop ends; as many turns as there are slots are enough (`run_slotTurn`). -/
def findSlot (ttyBuffers : UInt8 → TtySlot) (p : TtySlot → Bool) : Option UInt8 :=
  WhileLoop.run (slotTurn ttyBuffers p) 256 0

/-- The part of `registerTty` under the lock, for a buffer at a physical address: the id it will give
the thread, whose id is `ttyId`, and the array. -/
def registerTty (ttyBuffers : UInt8 → TtySlot) (ttyId : UInt8) (buffer : UInt64) :
    Option (UInt8 × (UInt8 → TtySlot)) := do
  let id ← findSlot ttyBuffers fun slot => !slot.used
  return (id, Function.update ttyBuffers id ⟨true, ttyId, buffer⟩)

/-- `unregisterTty`: the id it gives the thread, and the array. -/
def unregisterTty (ttyBuffers : UInt8 → TtySlot) (buffer : UInt64) :
    Option (UInt8 × (UInt8 → TtySlot)) := do
  let id ← findSlot ttyBuffers fun slot => slot.buffer = buffer
  return ((ttyBuffers id).oldId, Function.update ttyBuffers id { ttyBuffers id with used := false })

@[simp] theorem Ttys.modify_current (s : Ttys) (ttyId : UInt8) (f : TtyBuffer → TtyBuffer) :
    (s.modify ttyId f).current ttyId = f (s.current ttyId) := by
  simp [Ttys.modify, Ttys.current]

/-- A sequence of `put`s acts on the thread's buffer alone. -/
theorem foldl_put_current (ttyId : UInt8) (s : Ttys) (cs : List UInt8) :
    (cs.foldl (put ttyId) s).current ttyId = cs.foldl TtyBuffer.put (s.current ttyId) := by
  induction cs generalizing s with
  | nil => rfl
  | cons c cs ih => rw [List.foldl_cons, ih, put, Ttys.modify_current, List.foldl_cons]

/-! ### The search for a slot -/

section Slots

variable {ttyBuffers : UInt8 → TtySlot} {p : TtySlot → Bool} {id : UInt8}

theorem slotTurn_exit {fuel : ℕ} (h : WhileLoop.run (slotTurn ttyBuffers p) fuel 0 = some id) :
    p (ttyBuffers id) = true := by
  obtain ⟨i, -, hexit⟩ := WhileLoop.run_exit h
  unfold slotTurn at hexit
  split_ifs at hexit with hp
  cases hexit
  exact hp

/-- The loop goes up to the next slot with `p`. -/
theorem run_slotTurn_from {i d : ℕ} (hlt : i + d < 256) (hp : p (ttyBuffers (.ofNat (i + d))) = true)
    (hfirst : ∀ j < i + d, p (ttyBuffers (.ofNat j)) = false) :
    WhileLoop.run (slotTurn ttyBuffers p) (d + 1) (.ofNat i) = some (.ofNat (i + d)) := by
  induction d generalizing i with
  | zero =>
    have hturn : slotTurn ttyBuffers p (.ofNat i) = .inr (.ofNat i) := if_pos hp
    exact WhileLoop.run_succ_inr hturn 0
  | succ d ih =>
    have hturn : slotTurn ttyBuffers p (.ofNat i) = .inl (.ofNat (i + 1)) := by
      unfold slotTurn
      rw [if_neg (by simp [hfirst i (by omega)]), UInt8.ofNat_add]
      rfl
    rw [WhileLoop.run_succ_inl hturn]
    rw [← Nat.add_assoc, Nat.add_right_comm] at hp hfirst hlt ⊢
    exact ih hlt hp hfirst

/-- The search ends at the first slot with `p`. -/
theorem findSlot_of_first (hp : p (ttyBuffers id) = true)
    (hfirst : ∀ j < id, p (ttyBuffers j) = false) : findSlot ttyBuffers p = some id := by
  have hrun := run_slotTurn_from (i := 0) (d := id.toNat) (by rw [Nat.zero_add]; exact id.toNat_lt)
    (by rwa [Nat.zero_add, UInt8.ofNat_toNat]) fun j hj => by
      rw [Nat.zero_add] at hj
      refine hfirst _ (UInt8.lt_iff_toNat_lt.2 ?_)
      rwa [UInt8.toNat_ofNat', Nat.mod_eq_of_lt (hj.trans id.toNat_lt)]
  rw [Nat.zero_add, UInt8.ofNat_toNat] at hrun
  exact WhileLoop.run_mono id.toNat_lt hrun

/-- It ends when there is such a slot. -/
theorem findSlot_total (hex : ∃ id, p (ttyBuffers id) = true) :
    ∃ id, findSlot ttyBuffers p = some id ∧ p (ttyBuffers id) = true ∧
      ∀ j < id, p (ttyBuffers j) = false := by
  obtain ⟨id, hp, hmin⟩ := WellFounded.has_min (measure UInt8.toNat).wf {id | p (ttyBuffers id) = true} hex
  have hfirst : ∀ j < id, p (ttyBuffers j) = false := by
    intro j hj
    by_contra hpj
    exact hmin j (eq_true_of_ne_false hpj) (UInt8.lt_iff_toNat_lt.1 hj)
  exact ⟨id, findSlot_of_first hp hfirst, hp, hfirst⟩

/-- **The search is complete**: more turns find no other slot. -/
theorem run_slotTurn {fuel : ℕ} (h : WhileLoop.run (slotTurn ttyBuffers p) fuel 0 = some id) :
    findSlot ttyBuffers p = some id := by
  obtain ⟨i, hfind, -⟩ := findSlot_total ⟨id, slotTurn_exit h⟩
  rw [hfind, WhileLoop.run_unique h hfind]

end Slots

namespace TtyBuffer

theorem write_eq (tty : TtyBuffer) (message : CString) :
    tty.write message =
      { tty with
        writeBuffer := tty.writeBuffer.storeList tty.writeHead.toNat message.bytes
        writeHead := tty.writeHead + UInt16.ofNat message.bytes.length } := by
  simp only [write, copyMemoryFrom, stringLength_eq, List.take_length]

/-- Where the head does not wrap before the last character, `put` stores to consecutive cells. -/
theorem foldl_put (tty : TtyBuffer) (cs : List UInt8) (h : tty.writeHead.toNat + cs.length ≤ size) :
    cs.foldl put tty =
      { tty with
        writeBuffer := tty.writeBuffer.storeList tty.writeHead.toNat cs
        writeHead := tty.writeHead + UInt16.ofNat cs.length } := by
  induction cs generalizing tty with
  | nil => simp [Cells.storeList]
  | cons c cs ih =>
    rw [List.foldl_cons]
    rw [List.length_cons] at h ⊢
    have hlen : tty.writeHead + UInt16.ofNat (cs.length + 1) =
        tty.writeHead + 1 + UInt16.ofNat cs.length := by
      rw [UInt16.ofNat_add, UInt16.add_comm (UInt16.ofNat cs.length), ← UInt16.add_assoc]
      rfl
    cases cs with
    | nil => simp [put, Cells.storeList]
    | cons d cs =>
      -- a character follows, so this step does not wrap the head
      have hhead : (tty.writeHead + 1).toNat = tty.writeHead.toNat + 1 := by
        rw [UInt16.toNat_add, UInt16.toNat_one, Nat.mod_eq_of_lt]
        simp [size] at h
        omega
      rw [ih (tty.put c) (by simp only [put, hhead, size, List.length_cons] at h ⊢; omega), hlen]
      simp only [put, hhead, Cells.storeList]

end TtyBuffer

/-- **When `write` is repeated `put`.** It leaves the thread's buffer as the characters put one by
one do, and stores nothing outside `writeBuffer`, exactly when the message ends before the end of
the ring. -/
theorem write_eq_puts_iff (s : Ttys) (ttyId : UInt8) (message : CString) :
    (((write ttyId s message).current ttyId).Same
        ((message.bytes.foldl (put ttyId) s).current ttyId) ∧
      Cells.StoresIn (Set.Iio TtyBuffer.size) (s.current ttyId).writeBuffer
        ((write ttyId s message).current ttyId).writeBuffer) ↔
      (s.current ttyId).writeHead.toNat + message.bytes.length ≤ TtyBuffer.size := by
  rw [foldl_put_current, write, Ttys.modify_current]
  constructor
  · rintro ⟨-, hstores⟩
    rw [TtyBuffer.write_eq] at hstores
    by_contra hlt
    rw [not_le] at hlt
    -- the head is inside the ring, so the cell after the ring is among those stored to
    have hhead := (s.current ttyId).writeHead.toNat_lt
    have hmem : TtyBuffer.size < TtyBuffer.size :=
      Cells.storeList_subset hstores ⟨by simp only [TtyBuffer.size]; omega, hlt⟩
    exact lt_irrefl _ hmem
  · intro hle
    rw [TtyBuffer.foldl_put _ _ hle, TtyBuffer.write_eq]
    refine ⟨TtyBuffer.Same.refl _, (Cells.storesIn_storeList _ _ _).mono fun i hi => ?_⟩
    exact lt_of_lt_of_le hi.2 hle

/-- A thread of terminal 0 whose buffer has its head on the last character of the ring. -/
def fullTty : Ttys :=
  ⟨fun _ => ⟨true, 0, 0⟩, fun _ => ⟨0, 0, 0, 65535, 65535, ⟨fun _ => 0, []⟩⟩⟩

/-- The message "ab". -/
def twoCharacters : CString := ⟨[97, 98], by decide⟩

/-- With the head on the last character of the ring, writing "ab" leaves the first character of the
ring as it was, where `put` stores "b", and stores "b" after the end of the ring. -/
theorem write_past_ring :
    ¬ ((write 0 fullTty twoCharacters).current 0).Same
        ((twoCharacters.bytes.foldl (put 0) fullTty).current 0) ∧
      ¬ Cells.StoresIn (Set.Iio TtyBuffer.size) (fullTty.current 0).writeBuffer
        ((write 0 fullTty twoCharacters).current 0).writeBuffer := by
  constructor
  · intro hsame
    have hfirst := hsame.writeBuffer 0 (by decide)
    revert hfirst
    decide
  · rintro ⟨⟨new, hnew, hS⟩, -⟩
    have hlast : TtyBuffer.size ∈ new := by
      have hstores : ((write 0 fullTty twoCharacters).current 0).writeBuffer.stores =
          [65536, 65535] := by decide
      rw [hstores] at hnew
      have hnil : (fullTty.current 0).writeBuffer.stores = [] := rfl
      rw [hnil, List.append_nil] at hnew
      rw [← hnew]
      exact List.mem_cons_self
    exact absurd (hS _ hlast) (by decide)

end Naul
