import Naul.Input.Queues

/-!
# Movements of the mouse (`mouse()` of `os/src/mouse.c`)

The mouse sends a movement as three bytes: a first one with the buttons, the signs and bit 3, which is
always set, and then the low bytes of the two distances. A byte without bit 3 that comes where a packet
should begin is skipped.

`Movement` and `Chunk` say what the mouse sends. `decode_stream` says that `Mouse.receive` is its inverse
over streams of any length, and `mouse_stream` that every registered buffer gets the movements, whatever
else happens between the bytes.
-/

namespace Naul

open RingBuffer

/-! ### What the mouse sends -/

/-- A movement that a packet can say: the distances have nine bits. -/
structure Movement extends Packet where
  x_le : x ≤ 255
  le_x : -256 ≤ x
  y_le : y ≤ 255
  le_y : -256 ≤ y
  deriving DecidableEq

/-- The first byte of a packet. -/
def firstByte (left right middle xSign ySign xOverflow yOverflow : Bool) : UInt8 :=
  .ofNat (left.toNat + 2 * right.toNat + 4 * middle.toNat + 8 + 16 * xSign.toNat + 32 * ySign.toNat +
    64 * xOverflow.toNat + 128 * yOverflow.toNat)

/-- A movement as a packet, or a byte outside a packet. -/
inductive Chunk
  | packet (m : Movement) (middle xOverflow yOverflow : Bool)
  | stray (data : UInt8) (h : data &&& 0x08 = 0)

namespace Chunk

def bytes : Chunk → List UInt8
  | .packet m middle xOverflow yOverflow =>
    [firstByte m.left m.right middle (m.x < 0) (m.y < 0) xOverflow yOverflow,
      .ofInt m.x.toInt, .ofInt m.y.toInt]
  | .stray data _ => [data]

def movement : Chunk → Option Packet
  | .packet m _ _ _ => some m.toPacket
  | .stray _ _ => none

end Chunk

/-! ### A packet -/

/-- Between two packets, when `initMouse` is through. -/
structure Mouse.Ready (s : Mouse) : Prop where
  setup : s.setup = true
  mouseCycle : s.mouseCycle = 0

section Bytes

variable (left right middle xSign ySign xOverflow yOverflow : Bool)

theorem firstByte_always :
    firstByte left right middle xSign ySign xOverflow yOverflow &&& 0x08 ≠ 0 := by
  revert left right middle xSign ySign xOverflow yOverflow
  decide

theorem firstByte_left :
    decide (firstByte left right middle xSign ySign xOverflow yOverflow &&& 0b1 ≠ 0) = left := by
  revert left right middle xSign ySign xOverflow yOverflow
  decide

theorem firstByte_right :
    decide (firstByte left right middle xSign ySign xOverflow yOverflow &&& 0b10 ≠ 0) = right := by
  revert left right middle xSign ySign xOverflow yOverflow
  decide

theorem firstByte_xSign :
    (firstByte left right middle xSign ySign xOverflow yOverflow).toNat <<< 4 &&& 0x100 =
      if xSign then 256 else 0 := by
  revert left right middle xSign ySign xOverflow yOverflow
  decide

theorem firstByte_ySign :
    (firstByte left right middle xSign ySign xOverflow yOverflow).toNat <<< 3 &&& 0x100 =
      if ySign then 256 else 0 := by
  revert left right middle xSign ySign xOverflow yOverflow
  decide

end Bytes

/-- The low byte and the sign make the distance again. -/
theorem ofInt_lowByte {x : Int16} (hle : x ≤ 255) (hge : -256 ≤ x) :
    Int16.ofInt ((UInt8.ofInt x.toInt).toNat - ((if decide (x < 0) then 256 else 0 : ℕ) : ℤ)) = x := by
  have hle' : x.toInt ≤ 255 := Int16.le_iff_toInt_le.1 hle
  have hge' : -256 ≤ x.toInt := Int16.le_iff_toInt_le.1 hge
  have hlow : ((UInt8.ofInt x.toInt).toNat : ℤ) = x.toInt % 256 := by
    rw [UInt8.ofInt, UInt8.toNat_ofNat']
    omega
  have hvalue : ((UInt8.ofInt x.toInt).toNat - ((if decide (x < 0) then 256 else 0 : ℕ) : ℤ)) =
      x.toInt := by
    rw [hlow]
    by_cases hneg : x < 0
    · have hneg' : x.toInt < 0 := Int16.lt_iff_toInt_lt.1 hneg
      rw [decide_eq_true hneg, if_pos rfl]
      omega
    · have hneg' : ¬ x.toInt < 0 := fun h => hneg (Int16.lt_iff_toInt_lt.2 h)
      rw [decide_eq_false hneg, if_neg (by decide)]
      omega
  rw [hvalue, Int16.ofInt_toInt]

/-- The three bytes of a packet are decoded to its movement. -/
theorem decodePacket_bytes (m : Movement) (middle xOverflow yOverflow : Bool) (mouseBytes : UInt8 → UInt8)
    (h0 : mouseBytes 0 = firstByte m.left m.right middle (m.x < 0) (m.y < 0) xOverflow yOverflow)
    (h1 : mouseBytes 1 = .ofInt m.x.toInt) (h2 : mouseBytes 2 = .ofInt m.y.toInt) :
    decodePacket mouseBytes = m.toPacket := by
  rw [decodePacket, h0, h1, h2, firstByte_xSign, firstByte_ySign, firstByte_left, firstByte_right,
    ofInt_lowByte m.x_le m.le_x, ofInt_lowByte m.y_le m.le_y]

namespace Mouse

variable {s t : Mouse} {data : UInt8} {bytes : List UInt8}

theorem receive_first (hs : s.Ready) (hdata : data &&& 0x08 ≠ 0) :
    s.receive data = ({ s with mouseBytes := Function.update s.mouseBytes 0 data, mouseCycle := 1 }, none) := by
  unfold receive
  rw [if_pos ⟨hs.setup, .inr hdata⟩, hs.mouseCycle]
  rfl

/-- A byte without bit 3 does not begin a packet. -/
theorem receive_stray (hs : s.Ready) (hdata : data &&& 0x08 = 0) : s.receive data = (s, none) := by
  unfold receive
  rw [if_neg]
  rintro ⟨-, hcycle | hbit⟩
  · exact hcycle hs.mouseCycle
  · exact hbit hdata

/-- What comes within a packet is not looked at. -/
theorem receive_next (hsetup : s.setup = true) (hcycle : s.mouseCycle = 1) :
    s.receive data = ({ s with mouseBytes := Function.update s.mouseBytes 1 data, mouseCycle := 2 }, none) := by
  unfold receive
  rw [if_pos ⟨hsetup, .inl (by rw [hcycle]; decide)⟩, hcycle]
  rfl

theorem receive_last (hsetup : s.setup = true) (hcycle : s.mouseCycle = 2) :
    s.receive data = ({ s with mouseBytes := Function.update s.mouseBytes 2 data, mouseCycle := 0 },
      some (decodePacket (Function.update s.mouseBytes 2 data))) := by
  unfold receive
  rw [if_pos ⟨hsetup, .inl (by rw [hcycle]; decide)⟩, hcycle]
  rfl

/-- Three bytes, of which the first has bit 3, are a packet. -/
theorem decode_three (hs : s.Ready) (first low low' : UInt8) (hfirst : first &&& 0x08 ≠ 0) :
    (s.decode [first, low, low']).1.Ready ∧ ∃ mouseBytes : UInt8 → UInt8,
      (s.decode [first, low, low']).2 = [decodePacket mouseBytes] ∧
        mouseBytes 0 = first ∧ mouseBytes 1 = low ∧ mouseBytes 2 = low' := by
  simp only [decode, receive_first hs hfirst, receive_next, receive_last, hs.setup]
  exact ⟨⟨rfl, rfl⟩, _, rfl, rfl, rfl, rfl⟩

/-- A chunk gives its movement, and the next packet may begin. -/
theorem decode_chunk (hs : s.Ready) (c : Chunk) :
    (s.decode c.bytes).1.Ready ∧ (s.decode c.bytes).2 = c.movement.toList := by
  cases c with
  | stray data h =>
    rw [Chunk.bytes, decode, receive_stray hs h]
    exact ⟨hs, rfl⟩
  | packet m middle xOverflow yOverflow =>
    obtain ⟨hready, mouseBytes, hpackets, h0, h1, h2⟩ := decode_three hs _ (.ofInt m.x.toInt)
      (.ofInt m.y.toInt)
      (firstByte_always m.left m.right middle (m.x < 0) (m.y < 0) xOverflow yOverflow)
    refine ⟨hready, ?_⟩
    rw [Chunk.bytes, hpackets, decodePacket_bytes m middle xOverflow yOverflow mouseBytes h0 h1 h2]
    rfl

/-- **Decoding inverts encoding.** -/
theorem decode_stream (hs : s.Ready) (stream : List Chunk) :
    (s.decode (stream.flatMap Chunk.bytes)).1.Ready ∧
      (s.decode (stream.flatMap Chunk.bytes)).2 = stream.filterMap Chunk.movement := by
  induction stream generalizing s with
  | nil => exact ⟨hs, rfl⟩
  | cons c stream ih =>
    obtain ⟨hready, hpackets⟩ := decode_chunk hs c
    obtain ⟨hready', hpackets'⟩ := ih hready
    rw [List.flatMap_cons, decode_append]
    refine ⟨hready', ?_⟩
    rw [hpackets, hpackets', List.filterMap_cons]
    cases c.movement <;> rfl

end Mouse

/-! ### Among everything else that happens -/

namespace Queues

variable {s t : Queues} {events : List Event} {keyboards mouses : List UInt64}

/-- **The movements arrive.** The bytes of a stream come one in each interrupt, after any run and among
any other events. Then every buffer that is registered gets the movements of the stream, in their order
and once for each registration; its owner finds them after what was there before; and the next packet may
begin. -/
theorem mouse_stream {start : Queues} {before : List Event} {stream : List Chunk}
    (hstart : start.Started keyboards mouses)
    (hspare : Trace.Along step Spare start (before ++ events))
    (hbefore : Trace.run step start before = some s) (hready : s.mouse.Ready)
    (hidle : s.mice.handler = .idle) (hrun : Trace.run step s events = some t)
    (hstream : events.filterMap Event.data = stream.flatMap Chunk.bytes)
    (hdone : t.mice.handler = .idle) :
    t.mouse.Ready ∧ ∀ a,
      (t.mice.log a).sent = (s.mice.log a).sent ++
        (stream.filterMap Chunk.movement).flatMap (List.replicate (s.mice.registrations mouses a)) ∧
      (t.mice.bufferAt a).Fifo (t.mice.log a) := by
  have hspares := (Trace.along_append before events start).1 hspare
  have hall : Trace.run step start (before ++ events) = some t := by
    rw [Trace.run_append, hbefore, Option.bind_some, hrun]
  have hsent := (hstart.run hspares.1 hbefore).mice.delivers
  have hsent' := (hstart.run hspare hall).mice.delivers
  obtain ⟨hmouse, hbegun, hregistry⟩ := run_mouse hrun
  rw [hstream] at hmouse hbegun
  obtain ⟨hready', hpackets⟩ := Mouse.decode_stream hready stream
  simp only [Feed.begun, hidle, hdone, hpackets] at hbegun
  refine ⟨hmouse ▸ hready', fun a => ⟨?_, hsent'.fifo a⟩⟩
  have hregistrations : t.mice.registrations mouses a = s.mice.registrations mouses a := by
    unfold Feed.registrations
    rw [hregistry]
  rw [hsent'.sent hdone a, hsent.sent hidle a, Feed.total, Feed.total, hbegun, hregistrations,
    List.flatMap_append]

/-- A movement to the left and up, the left button being held. -/
def leftward : Movement := ⟨⟨-256, 255, true, false⟩, by decide, by decide, by decide, by decide⟩

/-- A stray byte, the movement, and another stray byte. -/
def leftwardStream : List Chunk := [.stray 0xf7 (by decide), .packet leftward true false true, .stray 0 rfl]

/-- Its bytes, among other events. -/
def leftwardEvents : List Event :=
  [.mouse 0xf7, .mouse 0x9d, .keyboard 0x1e, .mouse 0, .mouse 0xff] ++ List.replicate 7 .handlePacket ++
    [.mouse 0]

/-- The last byte of a packet is before the stream. -/
theorem mouse_stream_leftward :
    ∃ s t, Trace.run step connected (.mouse 7 :: List.replicate 7 .handlePacket) = some s ∧
      Trace.run step s leftwardEvents = some t ∧ t.mouse.Ready ∧
      (t.mice.log 200).sent = (s.mice.log 200).sent ++ [leftward.toPacket] := by
  have hspare : Trace.Along step Spare connected
      ((.mouse 7 :: List.replicate 7 .handlePacket) ++ leftwardEvents) := by decide
  have hstream : leftwardEvents.filterMap Event.data = leftwardStream.flatMap Chunk.bytes := by decide
  have hresult := mouse_stream connected_started hspare rfl ⟨rfl, rfl⟩ rfl rfl hstream rfl
  exact ⟨_, _, rfl, rfl, hresult.1, (hresult.2 200).1⟩

end Queues

end Naul
