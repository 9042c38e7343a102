import Naul.Terminal.Glyphs

/-!
# The panic screen (`os/src/panic.c`)

`panicWrite` has its own copy of the loops of `drawCharacter`, over its own font: it paints the
framebuffer only, and every byte of the string but a newline is drawn. What `serialWrite` sends is not
modelled.

`glyph_reads_inside_iff` is about both copies. They read beyond the font for the bytes from 128 on,
which a `char` makes negative.
-/

namespace Naul

open Terminal GlyphWalk

/-- The screen of `panicWrite`, and the bytes of the font that have been read, the latest first. -/
structure PanicScreen where
  framebuffer : Cells UInt32
  panicX : UInt32
  panicY : UInt32
  reads : List ℕ

namespace PanicScreen

/-- `#define PANIC_COLOUR 0xFF5050`. -/
def panicColour : UInt32 := 0xFF5050

/-- What a turn of the loop over the bits draws; the drawing is the address and the framebuffer. -/
def pixel (set : Bool) (drawing : ℕ × Cells UInt32) : ℕ × Cells UInt32 :=
  (drawing.1 + 1, if set then drawing.2.store drawing.1 panicColour else drawing.2)

/-- The address at the end of a row. -/
def endRow (pitch : UInt32) (panicFont : PsfFile) (drawing : ℕ × Cells UInt32) : ℕ × Cells UInt32 :=
  (drawing.1 + (pitch - panicFont.width).toNat, drawing.2)

/-- `panicWrite(string)`, where `pitch` is `information.pitch`. -/
def panicWrite (pitch : UInt32) (panicFont : PsfFile) : List UInt8 → PanicScreen → PanicScreen
  | [], s => s
  | c :: string, s =>
    panicWrite pitch panicFont string
      (if c ≠ newline then
        let w := walkGlyph panicFont pixel (endRow pitch panicFont) c
          ((s.panicY * pitch).toNat + s.panicX.toNat, s.framebuffer)
        { s with
          framebuffer := w.drawing.2
          panicX := s.panicX + (panicFont.width + 1)
          reads := w.reads ++ s.reads }
      else { s with panicX := 0, panicY := s.panicY + panicFont.height })

/-- All bytes that `panicWrite` reads lie in its font exactly when every character it draws is in it. -/
theorem panicWrite_inside_iff {panicFont : PsfFile} (hfont : panicFont.WellFormed) (pitch : UInt32)
    (string : List UInt8) (s : PanicScreen) :
    Recorded.Inside panicFont (panicWrite pitch panicFont string s).reads ↔
      (∀ c ∈ string, c ≠ newline → InFont panicFont c) ∧ Recorded.Inside panicFont s.reads := by
  induction string generalizing s with
  | nil => simp [panicWrite]
  | cons c string ih =>
    rw [panicWrite, ih, List.forall_mem_cons]
    by_cases hnewline : c = newline
    · rw [if_neg (not_not.2 hnewline), and_iff_right fun h => absurd hnewline h]
    · have hglyph : (∀ i ∈ (walkGlyph panicFont pixel (endRow pitch panicFont) c
          ((s.panicY * pitch).toNat + s.panicX.toNat, s.framebuffer)).reads, i < panicFont.dataSize) ↔
          InFont panicFont c := walkGlyph_inside_iff hfont c _
      rw [if_pos hnewline, Recorded.inside_append, Recorded.Inside, hglyph, and_left_comm, and_assoc]
      simp only [ne_eq, hnewline, not_false_eq_true, forall_const]

end PanicScreen

/-- **When what is read of a font lies in it.** For a stream to the terminal and for a string on the panic
screen: exactly when each character that is drawn is in the font. -/
theorem glyph_reads_inside_iff {v : Video} {panicFont : PsfFile} (hfont : v.font.WellFormed)
    (hpanic : panicFont.WellFormed) (stream : List UInt8) (s : Terminal) (string : CString)
    (framebuffer : Cells UInt32) (pitch panicX panicY : UInt32) :
    (Recorded.Inside v.font (stream.foldl (Recorded.terminalPut v) ⟨s, []⟩).reads ↔
        ∀ c ∈ drawnBytes s.waitingColour stream, InFont v.font c) ∧
      (Recorded.Inside panicFont
          (PanicScreen.panicWrite pitch panicFont string.bytes ⟨framebuffer, panicX, panicY, []⟩).reads ↔
        ∀ c ∈ string.bytes, c ≠ newline → InFont panicFont c) := by
  rw [reads_inside_iff hfont, PanicScreen.panicWrite_inside_iff hpanic]
  exact ⟨and_iff_left (List.forall_mem_nil _), and_iff_left (List.forall_mem_nil _)⟩

/-- Characters of 8 by 16 pixels. -/
def smallFont : PsfFile := ⟨16, 16, 8, fun _ => 0⟩

/-- A stream with two colours, the first of which is the byte 200, and a newline between two letters. -/
theorem glyph_reads_inside_colours :
    Recorded.Inside smallFont ([254, 200, 97, 10, 254, 2, 98].foldl
      (Recorded.terminalPut (initVideo 640 480 640 smallFont))
      ⟨initTerminal (initVideo 640 480 640 smallFont) ⟨fun _ => 0, []⟩ ⟨fun _ => 0, []⟩ false, []⟩).reads := by
  have hreads := glyph_reads_inside_iff (v := initVideo 640 480 640 smallFont) (by decide)
    (show smallFont.WellFormed by decide) [254, 200, 97, 10, 254, 2, 98]
    (initTerminal (initVideo 640 480 640 smallFont) ⟨fun _ => 0, []⟩ ⟨fun _ => 0, []⟩ false)
    ⟨[], List.not_mem_nil⟩ ⟨fun _ => 0, []⟩ 640 0 0
  refine hreads.1.2 fun c hc => ?_
  have hdrawn : c = 97 ∨ c = 98 := by simpa using (show c ∈ [(97 : UInt8), 98] from hc)
  rcases hdrawn with rfl | rfl
  · exact .inl (by decide)
  · exact .inl (by decide)

/-- For the byte 128 the glyph of the terminal and that of the panic screen are not in the font. -/
theorem glyph_reads_outside :
    ¬ Recorded.Inside smallFont ([128].foldl (Recorded.terminalPut (initVideo 640 480 640 smallFont))
      ⟨initTerminal (initVideo 640 480 640 smallFont) ⟨fun _ => 0, []⟩ ⟨fun _ => 0, []⟩ false, []⟩).reads ∧
    ¬ Recorded.Inside smallFont
      (PanicScreen.panicWrite 640 smallFont [128] ⟨⟨fun _ => 0, []⟩, 0, 0, []⟩).reads := by
  have hout : ¬ InFont smallFont 128 := by
    rw [inFont_iff_of_small (by decide) (by decide)]
    decide
  constructor
  · intro h
    have hdrawn := (reads_inside_iff (v := initVideo 640 480 640 smallFont) (by decide) [128]
      ⟨initTerminal (initVideo 640 480 640 smallFont) ⟨fun _ => 0, []⟩ ⟨fun _ => 0, []⟩ false, []⟩).1 h
    exact hout (hdrawn.1 128 (by decide))
  · intro h
    have hdrawn := (PanicScreen.panicWrite_inside_iff (by decide) 640 [128]
      ⟨⟨fun _ => 0, []⟩, 0, 0, []⟩).1 h
    exact hout (hdrawn.1 128 (by decide) (by decide))

end Naul
