import Naul.Input
import Naul.Lib.Trace
import Naul.Terminal.Draw
import Naul.Tty

/-!
# Line input (`terminalThread` of `os/src/terminal.c`)

The terminal thread takes the keys from its keyboard buffer. A key first goes through the `switch` for
the modifiers, and then, while a thread waits for a line, through the one that edits it: a character is
stored into the buffer of that thread and shown, a backspace moves the cursor back, and enter terminates
the line.

What a line should be is said without cursor, buffer or modifier variables by `Editor`: a fold over the
keys. `read_line` says that the thread that reads gets this line. Keys may arrive at any time, so a run
consists of the interrupts that bring them and of the turns of the loop that take them. The loop before
it, which shows what other threads have written, is left out: it touches neither the line nor the keys.
-/

namespace Naul

/-! ### The tables -/

/-- A table of 256 characters from its rows, each with the index of its first character; the others
are 0. -/
def characterTable (rows : List (ℕ × List Char)) (scancode : UInt8) : UInt8 :=
  let character := rows.findSome? fun row =>
    if row.1 ≤ scancode.toNat then row.2[scancode.toNat - row.1]? else none
  character.elim 0 Char.toUInt8

/-- `const char scancodes[256]`; an apostrophe, a backtick and a backslash are written as codes. -/
def scancodes : UInt8 → UInt8 :=
  characterTable
    [(2, ['1', '2', '3', '4', '5', '6', '7', '8', '9', '0', '-', '=']),
      (16, ['q', 'w', 'e', 'r', 't', 'y', 'u', 'i', 'o', 'p', '[', ']']),
      (30, ['a', 's', 'd', 'f', 'g', 'h', 'j', 'k', 'l', ';', '\x27', '\x60']),
      (43, ['\x5c', 'z', 'x', 'c', 'v', 'b', 'n', 'm', ',', '.', '/']),
      (55, ['*']), (57, [' ']), (74, ['-']), (78, ['+'])]

/-- `const char capsScancodes[256]`; braces and a double quote are written as codes. -/
def capsScancodes : UInt8 → UInt8 :=
  characterTable
    [(2, ['!', '@', '#', '$', '%', '^', '&', '*', '(', ')', '_', '+']),
      (16, ['Q', 'W', 'E', 'R', 'T', 'Y', 'U', 'I', 'O', 'P', '\x7b', '\x7d']),
      (30, ['A', 'S', 'D', 'F', 'G', 'H', 'J', 'K', 'L', ':', '\x22', '~']),
      (43, ['|', 'Z', 'X', 'C', 'V', 'B', 'N', 'M', '<', '>', '?']),
      (55, ['*']), (57, [' ']), (74, ['-']), (78, ['+'])]

def keyLeftShift : UInt8 := 42

def keyRightShift : UInt8 := 54

def keyCapsLock : UInt8 := 58

def keyBackspace : UInt8 := 14

def keyEnter : UInt8 := 28

/-- The press of a key that completes a line. -/
def Scan.Completes (k : Scan) : Prop := k.scancode = keyEnter ∧ k.pressed = true

instance decidableCompletes (k : Scan) : Decidable k.Completes := inferInstanceAs (Decidable (_ ∧ _))

/-! ### The loop -/

/-- The variables of the first `switch`, which computes `shift` from the other two. -/
structure Modifiers where
  leftShift : Bool
  rightShift : Bool
  shift : Bool
  caps : Bool
  shift_eq : shift = (leftShift || rightShift)
  deriving DecidableEq

namespace Modifiers

/-- The first `switch`. -/
def press (m : Modifiers) (k : Scan) : Modifiers :=
  if k.scancode = keyLeftShift then
    { m with leftShift := k.pressed, shift := k.pressed || m.rightShift, shift_eq := rfl }
  else if k.scancode = keyRightShift then
    { m with rightShift := k.pressed, shift := m.leftShift || k.pressed, shift_eq := rfl }
  else if k.scancode = keyCapsLock then if k.pressed then { m with caps := !m.caps } else m
  else m

/-- `(caps ? !shift : shift) ? capsScancodes[…] : scancodes[…]`. -/
def character (m : Modifiers) (scancode : UInt8) : UInt8 :=
  if (if m.caps then !m.shift else m.shift) then capsScancodes scancode else scancodes scancode

end Modifiers

/-- What the loop works on, and as ghosts the keys it has taken and the characters it has passed to
`terminalPut`. -/
structure LineInput where
  keyboardBuffer : KeyboardBuffer
  modifiers : Modifiers
  tty : TtyBuffer
  memory : Cells UInt8
  processed : List Scan
  shown : List UInt8

namespace LineInput

/-- The request of `read(buffer, length)`, for a buffer at a physical address. -/
def read (buffer length : UInt64) (s : LineInput) : LineInput :=
  { s with tty.readCursor := 0, tty.readBuffer := buffer, tty.readLength := length }

/-- The address of `readBuffer[readCursor]`. -/
def address (s : LineInput) : ℕ := s.tty.readBuffer.toNat + s.tty.readCursor.toNat

/-- The second `switch`. -/
def edit (k : Scan) (s : LineInput) : LineInput :=
  if k.scancode = keyBackspace then
    if k.pressed ∧ 0 < s.tty.readCursor then
      { s with tty.readCursor := s.tty.readCursor - 1, shown := s.shown ++ [backspace] }
    else s
  else if k.scancode = keyEnter then
    if k.pressed then
      { s with
        memory := s.memory.store s.address 0
        shown := s.shown ++ [newline]
        tty.readBuffer := 0 }
    else s
  else if k.pressed ∧ s.tty.readCursor < s.tty.readLength then
    let character := s.modifiers.character k.scancode
    if character ≠ 0 then
      { s with
        memory := s.memory.store s.address character
        tty.readCursor := s.tty.readCursor + 1
        shown := s.shown ++ [character] }
    else s
  else s

/-- A turn of `while (keyboardBuffer.tail != keyboardBuffer.head)`. -/
def turn (s : LineInput) : LineInput :=
  let k := s.keyboardBuffer.cell s.keyboardBuffer.tail
  let s := { s with modifiers := s.modifiers.press k }
  let s := if s.tty.readBuffer ≠ 0 then s.edit k else s
  { s with keyboardBuffer := s.keyboardBuffer.advance, processed := s.processed ++ [k] }

inductive Event
  /-- `keyboard()` puts a key into the buffer. -/
  | interrupt (k : Scan)
  | turn
  deriving DecidableEq

def step (s : LineInput) : Event → Option LineInput
  | .interrupt k => some { s with keyboardBuffer := (s.keyboardBuffer.store k).publish }
  | .turn => if s.keyboardBuffer.tail ≠ s.keyboardBuffer.head then some s.turn else none

end LineInput

/-! ### The reference editor -/

/-- What a key does to a line. -/
inductive LineEdit
  | append (character : UInt8)
  | erase
  deriving DecidableEq

/-- The keys that are held, and the state of caps lock. -/
structure Held where
  (left right caps : Bool)
  deriving DecidableEq

namespace Held

def press (h : Held) (k : Scan) : Held where
  left := if k.scancode = keyLeftShift then k.pressed else h.left
  right := if k.scancode = keyRightShift then k.pressed else h.right
  caps := if k = ⟨keyCapsLock, true⟩ then !h.caps else h.caps

/-- Caps lock inverts the shift keys. -/
def upper (h : Held) : Bool := h.caps ^^ (h.left || h.right)

/-- The character of a key, 0 for none. -/
def character (h : Held) (scancode : UInt8) : UInt8 :=
  if h.upper then capsScancodes scancode else scancodes scancode

/-- What a key does to the line, if anything. -/
def edit (h : Held) (k : Scan) : Option LineEdit :=
  if k = ⟨keyBackspace, true⟩ then some .erase
  else if k.pressed ∧ h.character k.scancode ≠ 0 then some (.append (h.character k.scancode))
  else none

end Held

/-- A line being edited, with what has been shown of it. -/
structure Editor where
  held : Held
  line : List UInt8
  echo : List UInt8
  deriving DecidableEq

namespace Editor

def start (held : Held) : Editor := ⟨held, [], []⟩

/-- An edit is accepted where there is room for the character, or a character to erase. -/
def apply (n : ℕ) (e : Editor) : LineEdit → Editor
  | .append character =>
    if e.line.length < n then
      { e with line := e.line ++ [character], echo := e.echo ++ [character] }
    else e
  | .erase =>
    if e.line ≠ [] then { e with line := e.line.dropLast, echo := e.echo ++ [backspace] } else e

def press (n : ℕ) (e : Editor) (k : Scan) : Editor :=
  let e := { e with held := e.held.press k }
  (e.held.edit k).elim e (e.apply n)

end Editor

/-! ### The modifiers -/

namespace Modifiers

def held (m : Modifiers) : Held := ⟨m.leftShift, m.rightShift, m.caps⟩

/-- The first `switch` keeps track of what is held. -/
theorem held_press (m : Modifiers) (k : Scan) : (m.press k).held = m.held.press k := by
  obtain ⟨scancode, pressed⟩ := k
  by_cases hleft : scancode = keyLeftShift
  · subst hleft
    rfl
  by_cases hright : scancode = keyRightShift
  · subst hright
    rfl
  by_cases hcaps : scancode = keyCapsLock
  · subst hcaps
    cases pressed <;> rfl
  · simp [press, Held.press, held, hleft, hright, hcaps]

/-- `shift` is what the table is chosen by. -/
theorem character_held (m : Modifiers) (scancode : UInt8) :
    m.held.character scancode = m.character scancode := by
  have hupper : m.held.upper = if m.caps then !m.shift else m.shift := by
    rw [Held.upper, held, m.shift_eq]
    cases m.caps <;> simp
  rw [Held.character, hupper, character]

end Modifiers

/-! ### The loop follows the editor -/

namespace LineInput

variable {s s' t : LineInput} {e : Editor} {k : Scan} {base n : UInt64} {memory : Cells UInt8}
  {shown : List UInt8}

/-- A request for `n` characters into the buffer at `base` is open and the line is that of the editor;
`memory` and `shown` are from when it was made. -/
structure Editing (base n : UInt64) (memory : Cells UInt8) (shown : List UInt8) (s : LineInput)
    (e : Editor) : Prop where
  held : s.modifiers.held = e.held
  readBuffer : s.tty.readBuffer = base
  readLength : s.tty.readLength = n
  readCursor : s.tty.readCursor.toNat = e.line.length
  room : e.line.length ≤ n.toNat
  line : s.memory.Has base.toNat e.line
  nul_free : 0 ∉ e.line
  stores : Cells.StoresIn (Set.Ico base.toNat (base.toNat + n.toNat)) memory s.memory
  shown : s.shown = shown ++ e.echo

/-- The request has been completed with the line of the editor. -/
structure Completed (base n : UInt64) (memory : Cells UInt8) (shown : List UInt8) (s : LineInput)
    (e : Editor) : Prop where
  readBuffer : s.tty.readBuffer = 0
  room : e.line.length ≤ n.toNat
  line : s.memory.Has base.toNat (e.line ++ [0])
  nul_free : 0 ∉ e.line
  stores : Cells.StoresIn (Set.Icc base.toNat (base.toNat + n.toNat)) memory s.memory
  shown : s.shown = shown ++ e.echo ++ [newline]

theorem editing_read (s : LineInput) (base n : UInt64) :
    Editing base n s.memory s.shown (s.read base n) (.start s.modifiers.held) := by
  constructor
  · rfl
  · rfl
  · rfl
  · rfl
  · exact Nat.zero_le _
  · intro i c hc
    cases hc
  · exact List.not_mem_nil
  · exact .refl _ _
  · rw [Editor.start, List.append_nil]
    rfl

/-- The modifiers are not part of the line. -/
theorem Editing.press (h : Editing base n memory shown s e) (k : Scan) :
    Editing base n memory shown { s with modifiers := s.modifiers.press k }
      { e with held := e.held.press k } := by
  refine { h with held := ?_ }
  rw [Modifiers.held_press, h.held]

theorem Editing.zero_lt_readCursor (h : Editing base n memory shown s e) :
    0 < s.tty.readCursor ↔ e.line ≠ [] := by
  rw [UInt64.lt_iff_toNat_lt, h.readCursor, UInt64.toNat_zero, List.length_pos_iff]

theorem Editing.readCursor_lt (h : Editing base n memory shown s e) :
    s.tty.readCursor < s.tty.readLength ↔ e.line.length < n.toNat := by
  rw [UInt64.lt_iff_toNat_lt, h.readCursor, h.readLength]

theorem Editing.address (h : Editing base n memory shown s e) :
    s.address = base.toNat + e.line.length := by
  rw [LineInput.address, h.readBuffer, h.readCursor]

/-- An accepted backspace. -/
theorem Editing.erase (h : Editing base n memory shown s e) (hne : e.line ≠ []) :
    Editing base n memory shown
      { s with tty.readCursor := s.tty.readCursor - 1, shown := s.shown ++ [backspace] }
      { e with line := e.line.dropLast, echo := e.echo ++ [backspace] } := by
  have hpos : 0 < e.line.length := List.length_pos_iff.2 hne
  have hcursor := h.readCursor
  have hroom := h.room
  constructor
  · exact h.held
  · exact h.readBuffer
  · exact h.readLength
  · rw [List.length_dropLast, ← hcursor]
    apply UInt64.toNat_sub_of_le
    rw [UInt64.le_iff_toNat_le, UInt64.toNat_one, hcursor]
    exact hpos
  · rw [List.length_dropLast]
    omega
  · exact h.line.initial (List.dropLast_prefix _)
  · exact fun hmem => h.nul_free (List.mem_of_mem_dropLast hmem)
  · exact h.stores
  · rw [h.shown, List.append_assoc]

/-- An accepted character. -/
theorem Editing.append (h : Editing base n memory shown s e) (hlt : e.line.length < n.toNat)
    {c : UInt8} (hc : c ≠ 0) :
    Editing base n memory shown
      { s with
        memory := s.memory.store s.address c
        tty.readCursor := s.tty.readCursor + 1
        shown := s.shown ++ [c] }
      { e with line := e.line ++ [c], echo := e.echo ++ [c] } := by
  have hn := n.toNat_lt
  constructor
  · exact h.held
  · exact h.readBuffer
  · exact h.readLength
  · show (s.tty.readCursor + 1).toNat = _
    rw [UInt64.toNat_add, UInt64.toNat_one, h.readCursor, Nat.mod_eq_of_lt (by omega),
      List.length_append, List.length_singleton]
  · rw [List.length_append, List.length_singleton]
    exact hlt
  · show (s.memory.store s.address c).Has _ _
    rw [h.address]
    exact h.line.append c
  · rw [List.mem_append, List.mem_singleton, not_or]
    exact ⟨h.nul_free, Ne.symm hc⟩
  · apply h.stores.trans
    apply Cells.storesIn_store
    rw [h.address]
    exact ⟨Nat.le_add_right _ _, Nat.add_lt_add_left hlt _⟩
  · rw [h.shown, List.append_assoc]

/-- The second `switch` edits the line as the editor does. -/
theorem Editing.edit (h : Editing base n memory shown s e) (hk : ¬ k.Completes) :
    Editing base n memory shown (s.edit k) ((e.held.edit k).elim e (e.apply n.toNat)) := by
  obtain ⟨scancode, pressed⟩ := k
  unfold LineInput.edit
  dsimp only
  by_cases hback : scancode = keyBackspace
  · subst hback
    cases pressed with
    | false => simpa [Held.edit] using h
    | true =>
      rw [if_pos rfl, Held.edit, if_pos rfl, Option.elim_some, Editor.apply]
      by_cases hne : e.line ≠ []
      · rw [if_pos ⟨rfl, h.zero_lt_readCursor.2 hne⟩, if_pos hne]
        exact h.erase hne
      · rw [if_neg (fun hpos => hne (h.zero_lt_readCursor.1 hpos.2)), if_neg hne]
        exact h
  rw [if_neg hback]
  by_cases henter : scancode = keyEnter
  · subst henter
    have hreleased : pressed = false := by simpa [Scan.Completes] using hk
    subst hreleased
    simpa [Held.edit] using h
  rw [if_neg henter]
  cases pressed with
  | false => simpa [Held.edit] using h
  | true =>
    have hedit : e.held.edit ⟨scancode, true⟩ =
        if s.modifiers.character scancode ≠ 0 then some (.append (s.modifiers.character scancode))
        else none := by
      rw [← Modifiers.character_held, h.held]
      simp [Held.edit, hback]
    rw [hedit]
    by_cases hcharacter : s.modifiers.character scancode ≠ 0
    · rw [if_pos hcharacter, if_pos hcharacter, Option.elim_some, Editor.apply]
      by_cases hroom : e.line.length < n.toNat
      · rw [if_pos ⟨rfl, h.readCursor_lt.2 hroom⟩, if_pos hroom]
        exact h.append hroom hcharacter
      · rw [if_neg (fun hlt => hroom (h.readCursor_lt.1 hlt.2)), if_neg hroom]
        exact h
    · rw [if_neg hcharacter, if_neg hcharacter, ite_self]
      exact h

/-- Where no key completes the line, a turn of the loop is a step of the editor. -/
theorem Editing.turn (h : Editing base n memory shown s e) (hbase : base ≠ 0)
    (hk : ¬ (s.keyboardBuffer.cell s.keyboardBuffer.tail).Completes) :
    Editing base n memory shown s.turn
      (e.press n.toNat (s.keyboardBuffer.cell s.keyboardBuffer.tail)) := by
  have hedit := (h.press (s.keyboardBuffer.cell s.keyboardBuffer.tail)).edit hk
  unfold LineInput.turn
  dsimp only
  rw [if_pos (by rw [h.readBuffer]; exact hbase)]
  exact { hedit with }

/-- Enter completes it. -/
theorem Editing.complete (h : Editing base n memory shown s e) (hbase : base ≠ 0)
    (hk : (s.keyboardBuffer.cell s.keyboardBuffer.tail).Completes) :
    Completed base n memory shown s.turn e := by
  have haddress := h.address
  have hroom := h.room
  unfold LineInput.turn
  dsimp only
  rw [if_pos (by rw [h.readBuffer]; exact hbase), LineInput.edit, hk.1, if_neg (by decide), if_pos rfl,
    if_pos hk.2]
  constructor
  · rfl
  · exact hroom
  · show (s.memory.store s.address 0).Has _ _
    rw [haddress]
    exact h.line.append 0
  · exact h.nul_free
  · apply (h.stores.mono Set.Ico_subset_Icc_self).trans
    apply Cells.storesIn_store
    show s.address ∈ _
    rw [haddress]
    exact ⟨Nat.le_add_right _ _, Nat.add_le_add_left hroom _⟩
  · show s.shown ++ [newline] = _
    rw [h.shown]

/-! ### Runs -/

theorem step_interrupt {s' : LineInput} (h : step s (.interrupt k) = some s') :
    s' = { s with keyboardBuffer := (s.keyboardBuffer.store k).publish } := by
  rw [step, Option.some.injEq] at h
  exact h.symm

theorem step_turn (h : step s .turn = some s') : s' = s.turn := by
  rw [step] at h
  split_ifs at h
  cases h
  rfl

theorem turn_processed (s : LineInput) :
    s.turn.processed = s.processed ++ [s.keyboardBuffer.cell s.keyboardBuffer.tail] := by
  unfold turn edit
  dsimp only
  split_ifs <;> rfl

theorem run_processed {events : List Event} (h : Trace.run step s events = some t) :
    s.processed <+: t.processed := by
  refine Trace.run_invariant (I := fun t => s.processed <+: t.processed) (fun u e u' hu hstep => ?_)
    (List.prefix_refl _) h
  cases e with
  | interrupt k =>
    rw [step_interrupt hstep]
    exact hu
  | turn =>
    rw [step_turn hstep, turn_processed]
    exact hu.trans (List.prefix_append ..)

/-- A run without turns of the loop changes nothing but the keyboard buffer. -/
theorem run_idle {events : List Event} (h : Trace.run step s events = some t)
    (hprocessed : t.processed = s.processed) : { s with keyboardBuffer := t.keyboardBuffer } = t := by
  induction events generalizing s with
  | nil =>
    rw [Trace.run_nil, Option.some.injEq] at h
    rw [h]
  | cons event events ih =>
    rw [Trace.run_cons] at h
    obtain ⟨u, hstep, hrest⟩ := Option.bind_eq_some_iff.1 h
    cases event with
    | interrupt k =>
      rw [step_interrupt hstep] at hrest
      have hidle := ih hrest hprocessed
      exact hidle
    | turn =>
      have hle := (run_processed hrest).length_le
      rw [step_turn hstep, turn_processed, hprocessed, List.length_append, List.length_singleton] at hle
      omega

/-- **The loop follows the editor**, from an open request to the key that completes it. -/
theorem run_line {events : List Event} {keys : List Scan} {enter : Scan} (hbase : base ≠ 0)
    (henter : enter.Completes) (h : Editing base n memory shown s e)
    (hrun : Trace.run step s events = some t)
    (hprocessed : t.processed = s.processed ++ (keys ++ [enter]))
    (hkeys : ∀ k ∈ keys, ¬ k.Completes) :
    Completed base n memory shown t (keys.foldl (Editor.press n.toNat) e) := by
  induction events generalizing s e keys with
  | nil =>
    rw [Trace.run_nil, Option.some.injEq] at hrun
    have hlength := congrArg List.length hprocessed
    rw [hrun, List.length_append, List.length_append, List.length_singleton] at hlength
    omega
  | cons event events ih =>
    rw [Trace.run_cons] at hrun
    obtain ⟨u, hstep, hrest⟩ := Option.bind_eq_some_iff.1 hrun
    cases event with
    | interrupt k =>
      have hu : Editing base n memory shown u e := by
        rw [step_interrupt hstep]
        exact { h with }
      apply ih hu hrest _ hkeys
      rw [hprocessed, step_interrupt hstep]
    | turn =>
      rw [step_turn hstep] at hrest
      have hprefix := run_processed hrest
      rw [turn_processed, hprocessed, List.prefix_append_right_inj] at hprefix
      cases keys with
      | nil =>
        -- the key taken is the last one, and no turn follows
        have hk : s.keyboardBuffer.cell s.keyboardBuffer.tail = enter := by simpa using hprefix
        have hdone := h.complete hbase (hk ▸ henter)
        rw [← run_idle hrest (by rw [turn_processed, hprocessed, hk, List.nil_append])]
        exact { hdone with }
      | cons k keys =>
        obtain ⟨hk, -⟩ := List.cons_prefix_cons.1 hprefix
        rw [List.foldl_cons]
        apply ih (e := e.press n.toNat k) _ hrest
        · rw [hprocessed, turn_processed, hk, List.append_assoc, List.cons_append, List.singleton_append]
        · exact fun k' hk' => hkeys k' (List.mem_cons_of_mem _ hk')
        · have hturn := h.turn hbase (hk ▸ hkeys k List.mem_cons_self)
          rwa [hk] at hturn

/-- **A line is what the reference editor makes of the keys.** In every run from a request, the keys
that the loop takes being `keys` and then an enter, the buffer comes to hold the line of the editor with
its terminator, nothing is stored outside the buffer's first `length + 1` characters, and what is shown
are the accepted characters and backspaces and a newline. -/
theorem read_line {events : List Event} {keys : List Scan} {enter : Scan} {buffer length : UInt64}
    (hbuffer : buffer ≠ 0) (hrun : Trace.run step (s.read buffer length) events = some t)
    (hprocessed : t.processed = s.processed ++ (keys ++ [enter])) (henter : enter.Completes)
    (hkeys : ∀ k ∈ keys, ¬ k.Completes) :
    Completed buffer length s.memory s.shown t
      (keys.foldl (Editor.press length.toNat) (.start s.modifiers.held)) :=
  run_line hbuffer henter (editing_read s buffer length) hrun hprocessed hkeys

/-- Nothing has been typed, and caps lock is on. -/
def quiet : LineInput where
  keyboardBuffer := ⟨fun _ => ⟨0, false⟩, 0, 0⟩
  modifiers := ⟨false, false, false, true, rfl⟩
  tty := ⟨0, 0, 0, 0, 0, ⟨fun _ => 0, []⟩⟩
  memory := ⟨fun _ => 0, []⟩
  processed := []
  shown := []

/-- The keys A and B, a backspace, shift with C, D (for which there is no room) and enter. -/
def typing : List Scan :=
  [⟨30, true⟩, ⟨48, true⟩, ⟨14, true⟩, ⟨42, true⟩, ⟨46, true⟩, ⟨32, true⟩]

/-- A line of two characters: "Ac". -/
theorem read_line_typing :
    ∃ t, Trace.run step (quiet.read 4096 2)
        (typing.map .interrupt ++ .interrupt ⟨28, true⟩ :: List.replicate 7 .turn) = some t ∧
      Completed 4096 2 quiet.memory quiet.shown t
        (typing.foldl (Editor.press 2) (.start quiet.modifiers.held)) ∧
      (typing.foldl (Editor.press 2) (.start quiet.modifiers.held)).line = [65, 99] := by
  have hprocessed : (Trace.run step (quiet.read 4096 2) (typing.map .interrupt ++
      .interrupt ⟨28, true⟩ :: List.replicate 7 .turn)).map LineInput.processed =
      some (typing ++ [⟨28, true⟩]) := by decide
  obtain ⟨t, ht, htaken⟩ := Option.map_eq_some_iff.1 hprocessed
  exact ⟨t, ht, read_line (by decide) ht htaken (by decide) (by decide), by decide⟩

end LineInput

end Naul
