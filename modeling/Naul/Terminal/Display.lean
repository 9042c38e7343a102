import Naul.Terminal.Cursor
import Naul.Lib.Trace

/-!
# The two buffers (`os/src/display.c`)

A process that has obtained the display draws into the framebuffer, and the terminal, which is told so by
`displayObtained`, then paints its back buffer only. `releaseDisplay` copies the back buffer to the
framebuffer and then unlocks the display, whoever calls it.

`terminalPut` keeps the two buffers equal where it sees the display free (`Mirrors`). Between the copy
and the unlock it still sees it obtained: `buffers_agree` excludes that a character is put or a pixel drawn
there, and `put_before_unlock` is what comes of it.
-/

namespace Naul

namespace Terminal

variable {v : Video} {s s' s'' : Terminal}

/-- The buffers are equal in the pixels that the terminal has memory for. -/
def Agree (v : Video) (s : Terminal) : Prop :=
  ∀ i < (v.pitch * v.height).toNat, s.framebuffer.cell i = s.backBuffer.cell i

/-- Equal buffers stay equal where the display is free, which is not changed. -/
structure Mirrors (v : Video) (s s' : Terminal) : Prop where
  obtained : s'.displayObtained = s.displayObtained
  agree : s.displayObtained = false → Agree v s → Agree v s'

theorem Mirrors.refl (v : Video) (s : Terminal) : Mirrors v s s := ⟨rfl, fun _ h => h⟩

theorem Mirrors.trans (h : Mirrors v s s') (h' : Mirrors v s' s'') : Mirrors v s s'' :=
  ⟨h'.obtained.trans h.obtained, fun hfree hagree =>
    h'.agree (h.obtained.trans hfree) (h.agree hfree hagree)⟩

/-- A change of the other variables. -/
theorem mirrors_of_same (hframebuffer : s'.framebuffer = s.framebuffer)
    (hbackBuffer : s'.backBuffer = s.backBuffer) (hobtained : s'.displayObtained = s.displayObtained) :
    Mirrors v s s' := by
  refine ⟨hobtained, fun _ hagree i hi => ?_⟩
  rw [hframebuffer, hbackBuffer]
  exact hagree i hi

/-! ### Drawing -/

theorem mirrors_paint (address : ℕ) (c : UInt32) (s : Terminal) : Mirrors v s (s.paint address c) := by
  refine ⟨rfl, fun hfree hagree i hi => ?_⟩
  simp only [paint, hfree, Bool.false_eq_true, if_false, Cells.store_cell]
  rw [hagree i hi]

theorem mirrors_drawBits (font : PsfFile) (colour : UInt32) (x n : ℕ) (p : Pen) :
    Mirrors v p.screen (drawBits font colour x n p).screen := by
  induction n generalizing x p with
  | zero => exact .refl v _
  | succ n ih =>
    rw [drawBits]
    refine Mirrors.trans ?_ (ih _ _)
    dsimp only
    split_ifs
    · exact mirrors_paint ..
    · exact .refl v _

theorem mirrors_drawRow (font : PsfFile) (colour : UInt32) (width : ℕ) (p : Pen) :
    Mirrors v p.screen (drawRow font colour width p).screen := by
  induction width, p using drawRow.induct font colour with
  | case1 p =>
    rw [drawRow, if_pos rfl]
    exact .refl v _
  | case2 width p hne amount q ih =>
    rw [drawRow, if_neg hne]
    exact (mirrors_drawBits font colour 0 amount p).trans ih

theorem mirrors_drawRows (colour : UInt32) (n : ℕ) (p : Pen) :
    Mirrors v p.screen (drawRows v colour n p).screen := by
  induction n generalizing p with
  | zero => exact .refl v _
  | succ n ih =>
    rw [drawRows]
    refine Mirrors.trans ?_ (ih _)
    exact mirrors_drawRow v.font colour v.font.width.toNat p

theorem mirrors_drawCharacter (character : UInt8) (x y colour : UInt32) (s : Terminal) :
    Mirrors v s (drawCharacter v character x y colour s) := by
  let p : Pen := ⟨(v.font.glyphSize * charToUInt32 character).toNat, (y * v.pitch).toNat + x.toNat, s⟩
  exact mirrors_drawRows colour v.font.height.toNat p

theorem mirrors_drawCursor (c : UInt32) (s : Terminal) : Mirrors v s (drawCursor v c s) :=
  mirrors_drawCharacter ..

theorem mirrors_clearRow (address n : ℕ) (s : Terminal) : Mirrors v s (clearRow address n s) := by
  induction n generalizing address s with
  | zero => exact .refl v s
  | succ n ih => exact (mirrors_paint address 0 s).trans (ih ..)

theorem mirrors_clearRows (address n : ℕ) (s : Terminal) : Mirrors v s (clearRows v address n s) := by
  induction n generalizing address s with
  | zero => exact .refl v s
  | succ n ih => exact (mirrors_clearRow ..).trans (ih ..)

/-- After the copy the buffers are equal, whatever they were. -/
theorem agree_redrawTerminal (v : Video) (s : Terminal) : Agree v (redrawTerminal v s) := by
  intro i hi
  have hcell := s.framebuffer.storeList_cell 0
    ((List.range (v.pitch * v.height).toNat).map s.backBuffer.cell) i
  rw [Nat.zero_add, List.getElem?_map, List.getElem?_range hi] at hcell
  exact hcell

theorem mirrors_drop (s : Terminal) : Mirrors v s (drop v s) := by
  unfold drop
  dsimp only
  split_ifs with hobtained
  · refine ⟨rfl, fun hfree => ?_⟩
    rw [hfree] at hobtained
    cases hobtained
  · exact ⟨rfl, fun _ _ => agree_redrawTerminal v _⟩

theorem mirrors_nextLine (s : Terminal) : Mirrors v s (nextLine v s) := by
  unfold nextLine
  split_ifs
  · exact mirrors_of_same rfl rfl rfl
  · exact mirrors_drop s

/-! ### The branches of `terminalPut` -/

theorem mirrors_putBackspace (s : Terminal) : Mirrors v s (putBackspace v s) := by
  unfold putBackspace
  refine Mirrors.trans ?_ (mirrors_clearRows ..)
  split_ifs <;> exact mirrors_of_same rfl rfl rfl

theorem mirrors_putNewline (s : Terminal) : Mirrors v s (putNewline v s) := by
  unfold putNewline
  refine Mirrors.trans ?_ (mirrors_nextLine _)
  exact mirrors_of_same rfl rfl rfl

theorem mirrors_putClear (s : Terminal) : Mirrors v s (putClear v s) := by
  refine ⟨rfl, fun hfree _ i hi => ?_⟩
  simp only [putClear, hfree, Bool.false_eq_true, if_false, setMemory, Cells.fill_cell, Nat.zero_le,
    Nat.zero_add, hi, and_self, if_true]

theorem mirrors_putGlyph (character : UInt8) (s : Terminal) : Mirrors v s (putGlyph v character s) := by
  have hdraw := mirrors_drawCharacter (v := v) character (s.cursorX * v.fontWidth)
    (s.cursorY * v.fontHeight) (colours s.colour) s
  unfold putGlyph
  dsimp only
  split_ifs
  · refine Mirrors.trans (hdraw.trans ?_) (mirrors_nextLine _)
    exact mirrors_of_same rfl rfl rfl
  · exact hdraw.trans (mirrors_of_same rfl rfl rfl)

/-- **Every branch paints both buffers alike.** -/
theorem mirrors_terminalPut (v : Video) (s : Terminal) (character : UInt8) :
    Mirrors v s (terminalPut v s character) := by
  unfold terminalPut
  refine ((mirrors_drawCursor 0 s).trans ?_).trans (mirrors_drawCursor _ _)
  split_ifs
  · exact mirrors_of_same rfl rfl rfl
  · exact mirrors_putBackspace _
  · exact mirrors_putNewline _
  · exact mirrors_putClear _
  · exact mirrors_of_same rfl rfl rfl
  · exact mirrors_putGlyph _ _

theorem agree_initTerminal (v : Video) (framebuffer backBuffer : Cells UInt32) (displayObtained : Bool) :
    Agree v (initTerminal v framebuffer backBuffer displayObtained) := by
  intro i hi
  simp only [initTerminal, setMemory, Cells.fill_cell, Nat.zero_le, Nat.zero_add, hi, and_self, if_true]

end Terminal

/-- The terminal, and whether a character has been put or a pixel drawn since the display was obtained or
`redrawTerminal` made its last copy. -/
structure Display where
  terminal : Terminal
  stored : Bool

namespace Display

open Terminal

inductive Event
  | put (character : UInt8)
  /-- The cursor of `terminalThread` blinks, in the colour `c`. -/
  | blink (c : UInt32)
  /-- `obtainDisplay`. -/
  | obtain
  /-- A process stores a pixel in the framebuffer. -/
  | draw (i : ℕ) (c : UInt32)
  /-- `redrawTerminal()` of `releaseDisplay`. -/
  | copy
  /-- `unlock(&displayObtained)` of `releaseDisplay`. -/
  | unlock

/-- `obtainDisplay` waits in `lock(&displayObtained)`. Nothing else waits or asks who has the display. -/
def step (v : Video) (s : Display) : Event → Option Display
  | .put character =>
    some ⟨terminalPut v s.terminal character, s.stored || s.terminal.displayObtained⟩
  | .blink c =>
    some { s with terminal := if s.terminal.displayObtained then s.terminal else drawCursor v c s.terminal }
  | .obtain =>
    if s.terminal.displayObtained then none
    else some ⟨{ s.terminal with displayObtained := true }, false⟩
  | .draw i c =>
    some ⟨{ s.terminal with framebuffer := s.terminal.framebuffer.store i c }, true⟩
  | .copy => some ⟨redrawTerminal v s.terminal, false⟩
  | .unlock => some { s with terminal := { s.terminal with displayObtained := false } }

/-- Pixels are drawn only while the display is obtained, and it is not unlocked after a character has
been put or a pixel drawn that has not been copied over. -/
def Apart (s : Display) : Event → Prop
  | .draw _ _ => s.terminal.displayObtained = true
  | .unlock => s.stored = false
  | .put _ | .blink _ | .obtain | .copy => True

/-- The buffers are equal, unless the display is obtained and something has been stored in one alone. -/
def Inv (v : Video) (s : Display) : Prop :=
  (s.terminal.displayObtained = true → s.stored = false) → Agree v s.terminal

variable {v : Video} {s s' : Display} {event : Event}

theorem Inv.of_free (h : s.Inv v) (hfree : s.terminal.displayObtained = false) : Agree v s.terminal :=
  h fun hobtained => absurd (hfree.symm.trans hobtained) (by decide)

theorem inv_step (h : s.Inv v) (hapart : s.Apart event) (hstep : s.step v event = some s') : s'.Inv v := by
  cases event with
  | put character =>
    obtain rfl := Option.some.inj hstep
    have hmirrors := mirrors_terminalPut v s.terminal character
    intro hclean
    cases hobtained : s.terminal.displayObtained with
    | false => exact hmirrors.agree hobtained (h.of_free hobtained)
    | true =>
      -- the character is in the back buffer alone, and `stored` says so
      have hstored := hclean (hmirrors.obtained.trans hobtained)
      simp [hobtained] at hstored
  | blink c =>
    obtain rfl := Option.some.inj hstep
    cases hobtained : s.terminal.displayObtained with
    | true => simpa only [Inv, hobtained, if_true] using h
    | false =>
      intro _
      simp only [Bool.false_eq_true, if_false]
      exact (mirrors_drawCursor c s.terminal).agree hobtained (h.of_free hobtained)
  | obtain =>
    simp only [step] at hstep
    split_ifs at hstep with hobtained
    obtain rfl := Option.some.inj hstep
    exact fun _ => h.of_free (by simpa using hobtained)
  | draw i c =>
    obtain rfl := Option.some.inj hstep
    intro hclean
    have hstored := hclean hapart
    cases hstored
  | copy =>
    obtain rfl := Option.some.inj hstep
    exact fun _ => agree_redrawTerminal v s.terminal
  | unlock =>
    obtain rfl := Option.some.inj hstep
    exact fun _ => h fun _ => hapart

/-- The display when the terminal is ready and nobody has obtained it. -/
def start (v : Video) (framebuffer backBuffer : Cells UInt32) : Display :=
  ⟨initTerminal v framebuffer backBuffer false, false⟩

/-- **The screen shows the back buffer.** In a run in which pixels are drawn only while the display is
obtained, and in which no character is put and no pixel drawn between the copy of `releaseDisplay` and the
unlock that gives the display back, the buffers are equal whenever the display is free. -/
theorem buffers_agree {framebuffer backBuffer : Cells UInt32} {events : List Event}
    (hapart : Trace.Along (step v) Apart (start v framebuffer backBuffer) events)
    (hrun : Trace.run (step v) (start v framebuffer backBuffer) events = some s')
    (hfree : s'.terminal.displayObtained = false) : Agree v s'.terminal := by
  have hstart : (start v framebuffer backBuffer).Inv v :=
    fun _ => agree_initTerminal v framebuffer backBuffer false
  exact (Trace.run_invariant_along (fun _ _ _ h => inv_step h) hstart hapart hrun).of_free hfree

/-- A display of four by two pixels, two cells by two. -/
def small : Video := initVideo 4 2 4 dotFont

def blank : Display := start small ⟨fun _ => 0, []⟩ ⟨fun _ => 0, []⟩

/-- A process draws a pixel; a character is put when the display is free again. -/
def handedBack : List Event := [.obtain, .draw 3 7, .copy, .unlock, .put 65]

theorem buffers_agree_handedBack :
    ∃ s, Trace.run (step small) blank handedBack = some s ∧ Agree small s.terminal := by
  have hapart : Trace.Along (step small) Apart blank handedBack := by
    refine ⟨trivial, fun s₁ h₁ => ⟨?_, fun s₂ h₂ => ⟨trivial, fun s₃ h₃ => ⟨?_, fun _ _ =>
      ⟨trivial, fun _ _ => trivial⟩⟩⟩⟩⟩
    · obtain rfl := Option.some.inj h₁
      rfl
    · obtain rfl := Option.some.inj h₃
      rfl
  exact ⟨_, rfl, buffers_agree hapart rfl (mirrors_terminalPut ..).obtained⟩

/-- With this font every character is one dot. -/
theorem drawCharacter_dot (character : UInt8) (x y colour : UInt32) (s : Terminal) :
    drawCharacter small character x y colour s = s.paint ((y * 4).toNat + x.toNat) colour := by
  have hrow : ∀ p : Pen, (drawRow dotFont colour 1 p).screen = p.screen.paint p.address colour := by
    intro p
    have hbit : bitSet (dotFont.data p.glyph) 0 = true := show bitSet 0x80 0 = true by decide
    rw [drawRow, if_neg (by decide), drawRow, if_pos (by decide)]
    exact if_pos hbit
  exact hrow ⟨_, _, s⟩

/-- A character is put between the copy and the unlock. -/
def crossed : List Event := [.obtain, .copy, .put 65, .unlock]

/-- The display is free, the back buffer has the character, and the framebuffer has not. -/
theorem put_before_unlock : ∃ s, Trace.run (step small) blank crossed = some s ∧
    s.terminal.displayObtained = false ∧ s.terminal.framebuffer.cell 0 = 0 ∧
      s.terminal.backBuffer.cell 0 = 0x989898 := by
  refine ⟨_, rfl, ?_, ?_, ?_⟩
  · rfl
  · simp only [terminalPut, drawCursor, putGlyph, drawCharacter_dot]
    decide
  · simp only [terminalPut, drawCursor, putGlyph, drawCharacter_dot]
    decide

end Display

end Naul
