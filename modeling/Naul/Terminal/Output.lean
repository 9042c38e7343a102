import Naul.Input.Queues
import Naul.Terminal.Refine

/-!
# From `put` and `write` to the screen (`os/src/tty.c`, `terminalThread` of `os/src/terminal.c`)

Any number of threads put characters and write messages into the terminal's buffer. They take `ttyLock`,
store their characters one by one from the head upward, advance the head, and give the lock back. The
terminal thread does not take it: whenever the tail is not the head, it passes the character at the tail
to `terminalPut` and then advances the tail; between two such turns it shows the keys of a line that is
typed. Every store and every test is a step, and the steps interleave as they like.

`output_shown` says that the screen gets all messages, whole and one after the other, in the order in which
the threads had the lock, and that it is the picture of a grid to which just these characters have been
put, with those that were typed.
-/

namespace Naul

open RingBuffer Terminal

/-- The place in `put` and `write`: before `lock`, before the store of the character at `pos` or, after the
last of them, of the head, and before `unlock`. -/
inductive WriteStage
  | lock
  | copy (pos : ℕ)
  | unlock
  deriving DecidableEq

/-- Between `lock` and `unlock`. -/
def WriteStage.inSection : WriteStage → Bool
  | .lock => false
  | .copy _ | .unlock => true

/-- A call of `write`, or of `put` for a message of one character. -/
structure Writer where
  stage : WriteStage
  message : List UInt8
  deriving DecidableEq

/-- A character that has been passed to `terminalPut`: from the buffer, or as the echo of a key. -/
inductive Shown
  | output (character : UInt8)
  | echo (character : UInt8)
  deriving DecidableEq

def Shown.character : Shown → UInt8
  | .output c | .echo c => c

def Shown.output? : Shown → Option UInt8
  | .output c => some c
  | .echo _ => none

/-- The buffer of the terminal, its lock, the calls, the character whose tail is still to be advanced, and
the screen. As ghosts, the messages in the order in which the head went past them, each with its thread,
and what has been shown. -/
structure Output where
  tty : TtyBuffer
  ttyLock : Bool
  writer : ℕ → Option Writer
  taken : Option UInt8
  terminal : Terminal
  sent : List (ℕ × List UInt8)
  shown : List Shown

namespace Output

inductive Event
  | call (thread : ℕ) (message : List UInt8)
  /-- A thread takes its next step in `put` or `write`. -/
  | thread (thread : ℕ)
  /-- `terminalPut(ttyBuffer.writeBuffer[ttyBuffer.writeTail])`. -/
  | show
  /-- `ttyBuffer.writeTail++`. -/
  | advance
  /-- `terminalPut` for a key. -/
  | echo (character : UInt8)
  deriving DecidableEq

def setWriter (t : ℕ) (w : Option Writer) (s : Output) : Output :=
  { s with writer := Function.update s.writer t w }

/-- The next step of thread `t` in the call `w`. -/
def writeStep (t : ℕ) (w : Writer) (s : Output) : Output :=
  match w.stage with
  | .lock =>
    if s.ttyLock then s else { s.setWriter t (some { w with stage := .copy 0 }) with ttyLock := true }
  | .copy pos =>
    match w.message[pos]? with
    | some c =>
      { s.setWriter t (some { w with stage := .copy (pos + 1) }) with
        tty.writeBuffer := s.tty.writeBuffer.store (s.tty.writeHead.toNat + pos) c }
    | none =>
      { s.setWriter t (some { w with stage := .unlock }) with
        tty.writeHead := s.tty.writeHead + UInt16.ofNat w.message.length
        sent := s.sent ++ [(t, w.message)] }
  | .unlock => { s.setWriter t none with ttyLock := false }

def display (v : Video) (x : Shown) (s : Output) : Output :=
  { s with terminal := terminalPut v s.terminal x.character, shown := s.shown ++ [x] }

def step (v : Video) (s : Output) : Event → Option Output
  | .call t message =>
    match s.writer t with
    | none => some (s.setWriter t (some ⟨.lock, message⟩))
    | some _ => none
  | .thread t => (s.writer t).map fun w => s.writeStep t w
  | .show =>
    if s.taken = none ∧ s.tty.writeTail ≠ s.tty.writeHead then
      let c := s.tty.writeBuffer.cell s.tty.writeTail.toNat
      some { s.display v (.output c) with taken := some c }
    else none
  | .advance =>
    match s.taken with
    | some _ => some { s with tty := s.tty.advanceTail, taken := none }
    | none => none
  | .echo c => if s.taken = none then some (s.display v (.echo c)) else none

/-- A thread in the section writes a message that ends before the end of the array, and there is room for
it. -/
def Roomy (s : Output) : Event → Prop
  | .thread t => ∀ w ∈ s.writer t, w.stage.inSection = true → w.stage ≠ .unlock →
    s.tty.writeHead.toNat + w.message.length ≤ TtyBuffer.size ∧
      (s.tty.writeHead - s.tty.writeTail).toNat + w.message.length < TtyBuffer.size
  | _ => True

instance decidableRoomy (s : Output) : ∀ e, Decidable (s.Roomy e)
  | .thread t => inferInstanceAs (Decidable (∀ w ∈ s.writer t, _ → _ → _ ∧ _))
  | .call _ _ | .show | .advance | .echo _ => isTrue trivial

/-- The characters of the messages. -/
def text (s : Output) : List UInt8 := (s.sent.map Prod.snd).flatten

/-- Those that have been shown. -/
def output (s : Output) : List UInt8 := s.shown.filterMap Shown.output?

/-- All that has been shown. -/
def characters (s : Output) : List UInt8 := s.shown.map Shown.character

variable {v : Video} {s s' : Output} {t u : ℕ} {w w' : Writer} {rest : List UInt8} {first : Terminal}

/-! ### The invariant -/

/-- The buffer holds the character that has been taken and `rest`; what a thread has stored is behind
them. -/
structure Buffered (s : Output) (rest : List UInt8) (n : ℕ) : Prop where
  holds : s.tty.ring.HoldsFrom n (s.taken.toList ++ rest)
  stored : ∀ t w pos, s.writer t = some w → w.stage = .copy pos →
    pos ≤ w.message.length ∧ ∀ i < pos, ∀ c, w.message[i]? = some c →
      s.tty.writeBuffer.cell (s.tty.writeHead.toNat + i) = c

structure Inv (v : Video) (first : Terminal) (s : Output) : Prop where
  locked : ∀ t w, s.writer t = some w → w.stage.inSection = true → s.ttyLock = true
  unique : ∀ t w u w', s.writer t = some w → w.stage.inSection = true → s.writer u = some w' →
    w'.stage.inSection = true → u = t
  buffered : ∃ rest n, s.Buffered rest n ∧ s.text = s.output ++ rest
  screen : s.terminal = s.characters.foldl (terminalPut v) first

theorem writer_setWriter {w : Option Writer} {x : Writer} :
    (s.setWriter t w).writer u = some x ↔ u = t ∧ w = some x ∨ u ≠ t ∧ s.writer u = some x := by
  unfold setWriter
  by_cases hut : u = t
  · simp [hut]
  · simp [hut]

/-- A thread goes on outside of the section. -/
theorem Inv.outside (h : s.Inv v first) {x : Option Writer} (hx : ∀ w ∈ x, w.stage.inSection = false) :
    (s.setWriter t x).Inv v first := by
  have hold : ∀ {u w}, (s.setWriter t x).writer u = some w → w.stage.inSection = true →
      s.writer u = some w := by
    intro u w hw hin
    rcases writer_setWriter.1 hw with ⟨-, rfl⟩ | ⟨-, hw⟩
    · rw [hx w rfl] at hin
      cases hin
    · exact hw
  obtain ⟨rest, n, ⟨hholds, hstored⟩, htext⟩ := h.buffered
  refine ⟨fun u w hw hin => h.locked u w (hold hw hin) hin,
    fun u w u' w' hw hin hw' hin' => h.unique u w u' w' (hold hw hin) hin (hold hw' hin') hin',
    ⟨rest, n, ⟨hholds, fun u w pos hw hstage => ?_⟩, htext⟩, h.screen⟩
  exact hstored u w pos (hold hw (by rw [hstage]; rfl)) hstage

/-- The place of a cell behind the head. -/
theorem index_head {b : RingBuffer UInt16 UInt8} {n : ℕ} (h : b.HoldsFrom n rest) {i : ℕ}
    (hi : b.head.toNat + i < TtyBuffer.size) :
    (WrappingIndex.index (n + rest.length + i) : UInt16).toNat = b.head.toNat + i := by
  have hhead : b.head = UInt16.ofNat (n + rest.length) := h.2.1
  change (UInt16.ofNat (n + rest.length + i)).toNat = _
  rw [UInt16.ofNat_add, UInt16.toNat_add, ← hhead, UInt16.toNat_ofNat']
  unfold TtyBuffer.size at hi
  omega

theorem length_eq_sub {b : RingBuffer UInt16 UInt8} {n : ℕ} (h : b.HoldsFrom n rest) :
    (b.head - b.tail).toNat = rest.length := by
  have hhead : b.head = UInt16.ofNat (n + rest.length) := h.2.1
  have htail : b.tail = UInt16.ofNat n := h.1
  have hlt : rest.length < 65536 := h.2.2.1
  have hsub : UInt16.ofNat (n + rest.length) - UInt16.ofNat n = UInt16.ofNat rest.length := by
    rw [UInt16.ofNat_add]
    grind
  rw [hhead, htail, hsub, UInt16.toNat_ofNat', Nat.mod_eq_of_lt hlt]

/-- A store into the array. -/
theorem ring_store (tty : TtyBuffer) {a : ℕ} {i : UInt16} (hi : i.toNat = a) (c : UInt8) :
    ({ tty with writeBuffer := tty.writeBuffer.store a c } : TtyBuffer).ring =
      { tty.ring with cell := Function.update tty.ring.cell i c } := by
  simp only [TtyBuffer.ring, RingBuffer.mk.injEq, and_true]
  funext j
  rw [Function.update_apply, Cells.store_cell, ← hi]
  exact if_congr UInt16.toNat_inj rfl rfl

/-- While one thread is in the section, the others are not. -/
theorem Inv.others (h : s.Inv v first) (hw : s.writer t = some w) (hin : w.stage.inSection = true) :
    ∀ u w', u ≠ t → s.writer u = some w' → w'.stage.inSection = false := by
  intro u w' hut hw'
  by_contra hin'
  exact hut (h.unique t w u w' hw hin hw' (by simpa using hin'))

/-- The only thread in the section goes on; `x` is its call afterwards. -/
theorem Inv.inside (h : s.Inv v first) (hout : ∀ u w', u ≠ t → s.writer u = some w' → w'.stage.inSection = false)
    {x : Option Writer} (hlock : s'.ttyLock = true ∨ ∀ w ∈ x, w.stage.inSection = false)
    (hwriter : s'.writer = (s.setWriter t x).writer) {n : ℕ}
    (hholds : s'.tty.ring.HoldsFrom n (s'.taken.toList ++ rest))
    (hstored : ∀ w pos, x = some w → w.stage = .copy pos → pos ≤ w.message.length ∧
      ∀ i < pos, ∀ c, w.message[i]? = some c → s'.tty.writeBuffer.cell (s'.tty.writeHead.toNat + i) = c)
    (htext : s'.text = s'.output ++ rest) (hterminal : s'.terminal = s.terminal)
    (hshown : s'.shown = s.shown) : s'.Inv v first := by
  have honly : ∀ {u w'}, s'.writer u = some w' → w'.stage.inSection = true → u = t ∧ x = some w' := by
    intro u w' hw' hin
    rw [hwriter] at hw'
    rcases writer_setWriter.1 hw' with heq | ⟨hut, hw'⟩
    · exact heq
    · rw [hout u w' hut hw'] at hin
      cases hin
  refine ⟨fun u w' hw' hin => ?_, fun u w' u' w'' hw' hin hw'' hin' => ?_,
    ⟨rest, n, ⟨hholds, fun u w' pos hw' hpos => ?_⟩, htext⟩, ?_⟩
  · refine hlock.resolve_right fun hoff => ?_
    rw [hoff w' (honly hw' hin).2] at hin
    cases hin
  · exact (honly hw'' hin').1.trans (honly hw' hin).1.symm
  · exact hstored w' pos (honly hw' (by rw [hpos]; rfl)).2 hpos
  · rw [hterminal, h.screen, characters, characters, hshown]

/-- A thread gets the lock. -/
theorem Inv.take (h : s.Inv v first) (hlock : ¬ s.ttyLock = true) :
    Inv v first { s.setWriter t (some { w with stage := .copy 0 }) with ttyLock := true } := by
  have hout : ∀ u w', u ≠ t → s.writer u = some w' → w'.stage.inSection = false := by
    intro u w' _ hw'
    by_contra hin
    exact hlock (h.locked u w' hw' (by simpa using hin))
  obtain ⟨rest, n, ⟨hholds, -⟩, htext⟩ := h.buffered
  refine h.inside hout (Or.inl rfl) rfl hholds (fun w' pos heq hpos => ?_) htext rfl rfl
  obtain rfl := Option.some.inj heq
  cases hpos
  exact ⟨Nat.zero_le _, fun i hi => absurd hi (Nat.not_lt_zero i)⟩

/-- It stores a character behind the head. -/
theorem Inv.copy (h : s.Inv v first) (hw : s.writer t = some w) (hC : s.Roomy (.thread t)) {pos : ℕ}
    (hstage : w.stage = .copy pos) {c : UInt8} (hc : w.message[pos]? = some c) :
    Inv v first { s.setWriter t (some { w with stage := .copy (pos + 1) }) with
      tty.writeBuffer := s.tty.writeBuffer.store (s.tty.writeHead.toNat + pos) c } := by
  have hin : w.stage.inSection = true := by rw [hstage]; rfl
  obtain ⟨rest, n, ⟨hholds, hstored⟩, htext⟩ := h.buffered
  obtain ⟨hend, hroom⟩ := hC w hw hin (by rw [hstage]; exact fun h => by cases h)
  have hused : (s.tty.writeHead - s.tty.writeTail).toNat = (s.taken.toList ++ rest).length := length_eq_sub hholds
  rw [hused] at hroom
  have hlt : pos < w.message.length := (List.getElem?_eq_some_iff.1 hc).1
  have hplace := index_head hholds (i := pos) (by change s.tty.writeHead.toNat + pos < _; omega)
  have hupdate := hholds.update (j := (s.taken.toList ++ rest).length + pos) (Nat.le_add_right _ _)
    (lt_trans (Nat.add_lt_add_left hlt _) hroom) c
  rw [← Nat.add_assoc, ← ring_store s.tty hplace] at hupdate
  refine h.inside (h.others hw hin) (Or.inl (h.locked t w hw hin)) rfl hupdate (fun w' pos' heq hpos' => ?_)
    htext rfl rfl
  obtain rfl := Option.some.inj heq
  cases hpos'
  refine ⟨hlt, fun i hi d hd => ?_⟩
  change (s.tty.writeBuffer.store (s.tty.writeHead.toNat + pos) c).cell (s.tty.writeHead.toNat + i) = d
  rw [Cells.store_cell]
  rcases Nat.lt_succ_iff_lt_or_eq.1 hi with hi | rfl
  · rw [if_neg (by omega), (hstored t w pos hw hstage).2 i hi d hd]
  · rw [if_pos rfl]
    exact Option.some.inj (hc.symm.trans hd)

/-- The head goes past the message, which is all there. -/
theorem Inv.publish (h : s.Inv v first) (hw : s.writer t = some w) (hC : s.Roomy (.thread t)) {pos : ℕ}
    (hstage : w.stage = .copy pos) (hc : w.message[pos]? = none) :
    Inv v first { s.setWriter t (some { w with stage := .unlock }) with
      tty.writeHead := s.tty.writeHead + UInt16.ofNat w.message.length
      sent := s.sent ++ [(t, w.message)] } := by
  have hin : w.stage.inSection = true := by rw [hstage]; rfl
  obtain ⟨rest, n, ⟨hholds, hstored⟩, htext⟩ := h.buffered
  obtain ⟨hend, hroom⟩ := hC w hw hin (by rw [hstage]; exact fun h => by cases h)
  have hused : (s.tty.writeHead - s.tty.writeTail).toNat = (s.taken.toList ++ rest).length := length_eq_sub hholds
  rw [hused] at hroom
  obtain ⟨hpos, hcells⟩ := hstored t w pos hw hstage
  have hlast : pos = w.message.length := le_antisymm hpos (List.getElem?_eq_none_iff.1 hc)
  have hmany : HoldsFrom { s.tty.ring with
      head := WrappingIndex.index (n + (s.taken.toList ++ rest).length + w.message.length) } n
      ((s.taken.toList ++ rest) ++ w.message) := by
    refine hholds.publish_many w.message (fun i c hi => ?_) hroom
    have hi' : i < w.message.length := (List.getElem?_eq_some_iff.1 hi).1
    change s.tty.writeBuffer.cell _ = c
    rw [index_head hholds (by change s.tty.writeHead.toNat + i < _; omega)]
    exact hcells i (hlast ▸ hi') c hi
  have hnext : s.tty.writeHead + UInt16.ofNat w.message.length =
      WrappingIndex.index (n + (s.taken.toList ++ rest).length + w.message.length) := by
    have hhead : s.tty.writeHead = UInt16.ofNat (n + (s.taken.toList ++ rest).length) := hholds.2.1
    rw [hhead]
    exact (UInt16.ofNat_add ..).symm
  rw [List.append_assoc, ← hnext] at hmany
  refine h.inside (h.others hw hin) (Or.inl (h.locked t w hw hin)) rfl hmany (fun w' pos' heq hpos' => ?_) ?_ rfl rfl
  · obtain rfl := Option.some.inj heq
    cases hpos'
  · have hsent : ((s.sent ++ [(t, w.message)]).map Prod.snd).flatten = s.text ++ w.message := by
      simp [text]
    exact hsent.trans (by rw [htext, List.append_assoc]; rfl)

/-- It frees the lock. -/
theorem Inv.leave (h : s.Inv v first) (hw : s.writer t = some w) (hstage : w.stage = .unlock) :
    Inv v first { s.setWriter t none with ttyLock := false } := by
  have hin : w.stage.inSection = true := by rw [hstage]; rfl
  obtain ⟨rest, n, ⟨hholds, -⟩, htext⟩ := h.buffered
  exact h.inside (h.others hw hin) (Or.inr fun w hnone => by cases hnone) rfl hholds
    (fun w' pos hnone => by cases hnone) htext rfl rfl

theorem inv_write (h : s.Inv v first) (hw : s.writer t = some w) (hC : s.Roomy (.thread t)) :
    (s.writeStep t w).Inv v first := by
  unfold writeStep
  cases hstage : w.stage with
  | lock =>
    dsimp only
    split_ifs with hlock
    · exact h
    · exact h.take hlock
  | copy pos =>
    dsimp only
    cases hc : w.message[pos]? with
    | some c => exact h.copy hw hC hstage hc
    | none => exact h.publish hw hC hstage hc
  | unlock => exact h.leave hw hstage

/-- A character is shown. -/
theorem Inv.display (h : s.Inv v first) (x : Shown) {taken : Option UInt8} {rest : List UInt8} {n : ℕ}
    (hbuffered : s.tty.ring.HoldsFrom n (taken.toList ++ rest))
    (htext : s.text = s.output ++ (x.output?.toList ++ rest)) :
    Inv v first { s.display v x with taken } := by
  obtain ⟨-, -, ⟨-, hstored⟩, -⟩ := h.buffered
  refine ⟨h.locked, h.unique, ⟨rest, n, ⟨hbuffered, hstored⟩, ?_⟩, ?_⟩
  · change s.text = (s.shown ++ [x]).filterMap Shown.output? ++ rest
    rw [htext, List.filterMap_append, List.append_assoc]
    cases x <;> rfl
  · change terminalPut v s.terminal x.character = ((s.shown ++ [x]).map Shown.character).foldl _ first
    rw [h.screen, List.map_append, List.foldl_append]
    rfl

theorem inv_step {e : Event} (h : s.Inv v first) (hC : s.Roomy e) (hstep : s.step v e = some s') :
    s'.Inv v first := by
  cases e with
  | call t message =>
    simp only [step] at hstep
    split at hstep
    · obtain rfl := Option.some.inj hstep
      exact h.outside fun w hw => by cases hw; rfl
    · cases hstep
  | thread t =>
    obtain ⟨w, hw, rfl⟩ := Option.map_eq_some_iff.1 hstep
    exact inv_write h hw hC
  | «show» =>
    simp only [step] at hstep
    split_ifs at hstep with hready
    obtain rfl := Option.some.inj hstep
    obtain ⟨rest, n, ⟨hholds, -⟩, htext⟩ := h.buffered
    rw [hready.1, Option.toList_none, List.nil_append] at hholds
    have hhead := Holds.take ⟨n, hholds⟩ hready.2
    obtain ⟨rest, rfl⟩ := List.head?_eq_some_iff.1 hhead
    exact h.display (.output _) hholds htext
  | advance =>
    simp only [step] at hstep
    split at hstep
    · rename_i c htaken
      obtain rfl := Option.some.inj hstep
      obtain ⟨rest, n, ⟨hholds, hstored⟩, htext⟩ := h.buffered
      rw [htaken] at hholds
      obtain ⟨n', hadvance⟩ := Holds.advance ⟨n, hholds⟩
      exact ⟨h.locked, h.unique, ⟨rest, n', ⟨hadvance, hstored⟩, htext⟩, h.screen⟩
    · cases hstep
  | echo c =>
    simp only [step] at hstep
    split_ifs at hstep with hready
    obtain rfl := Option.some.inj hstep
    obtain ⟨rest, n, ⟨hholds, -⟩, htext⟩ := h.buffered
    exact h.display (.echo c) hholds htext

/-! ### The guarantee -/

/-- No thread is in a call, and the buffer is empty. -/
structure Started (s : Output) : Prop where
  empty : s.tty.writeHead = s.tty.writeTail
  writer : ∀ t, s.writer t = none
  taken : s.taken = none
  sent : s.sent = []
  shown : s.shown = []

theorem Started.inv (h : s.Started) : s.Inv v s.terminal := by
  have hwriter : ∀ {t w}, s.writer t ≠ some w := fun {t w} heq => by
    rw [h.writer t] at heq
    cases heq
  obtain ⟨n, hholds⟩ : s.tty.ring.Holds [] := holds_nil h.empty
  refine ⟨fun t w hw => absurd hw hwriter, fun t w u w' hw => absurd hw hwriter,
    ⟨[], n, ⟨?_, fun t w pos hw => absurd hw hwriter⟩, ?_⟩, ?_⟩
  · rw [h.taken]
    exact hholds
  · rw [text, output, h.sent, h.shown]
    rfl
  · rw [characters, h.shown]
    rfl

end Output

end Naul
