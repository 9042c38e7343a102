import Naul.Str.Compare
import Naul.Terminal.Cursor

/-!
# What is read of a font (`os/src/terminal.c`, `include/psf.h`)

Drawing a character walks through the bytes of its glyph, which begins at
`font->data + font->glyphSize * character`. The character is a (signed) `char` and the size is a
`uint32_t`, so that the product for a byte from 128 on is that of a negative number modulo `2 ^ 32`.

`GlyphWalk` is the walk, whatever is drawn, with the ghost list of the bytes read; `Recorded` is the
terminal with that list. Its operations draw what those of `Terminal` draw (`terminalPut_terminal`).
`reads_inside_iff` says for which streams all reads lie in the font.
-/

namespace Naul

open Terminal

/-- Every glyph has the bytes of its rows. -/
def PsfFile.WellFormed (font : PsfFile) : Prop :=
  font.glyphSize.toNat = font.height.toNat * rowBytes font.width.toNat

instance decidableWellFormed (font : PsfFile) : Decidable font.WellFormed :=
  inferInstanceAs (Decidable (_ = _))

/-- The bytes of the 256 glyphs. -/
def PsfFile.dataSize (font : PsfFile) : ℕ := 256 * font.glyphSize.toNat

/-- The pointer `glyph`, the bytes that have been read through it, the latest first, and the drawing. -/
structure GlyphWalk (σ : Type*) where
  glyph : ℕ
  reads : List ℕ
  drawing : σ

namespace GlyphWalk

section Walk

variable {σ : Type*} (font : PsfFile) (pixel : Bool → σ → σ) (endRow : σ → σ)

/-- The loop over the bits of one byte: from bit `x`, for `n` more turns. -/
def walkBits (x : ℕ) : ℕ → GlyphWalk σ → GlyphWalk σ
  | 0, w => w
  | n + 1, w =>
    walkBits (x + 1) n { w with
      reads := w.glyph :: w.reads
      drawing := pixel (bitSet (font.data w.glyph) x) w.drawing }

/-- `while (width)`. -/
def walkRow (width : ℕ) (w : GlyphWalk σ) : GlyphWalk σ :=
  if width = 0 then w
  else
    let amount := min 8 width
    let w := walkBits font pixel 0 amount w
    walkRow (width - amount) { w with glyph := w.glyph + 1 }
termination_by width

/-- The loop over the rows, `n` of which are left. -/
def walkRows : ℕ → GlyphWalk σ → GlyphWalk σ
  | 0, w => w
  | n + 1, w =>
    let w := walkRow font pixel font.width.toNat w
    walkRows n { w with drawing := endRow w.drawing }

/-- The walk through the glyph of a character. -/
def walkGlyph (character : UInt8) (drawing : σ) : GlyphWalk σ :=
  walkRows font pixel endRow font.height.toNat
    ⟨(font.glyphSize * charToUInt32 character).toNat, [], drawing⟩

variable {font pixel endRow}

theorem walkBits_reads (font : PsfFile) (pixel : Bool → σ → σ) (x n : ℕ) (w : GlyphWalk σ) :
    (walkBits font pixel x n w).glyph = w.glyph ∧
      (walkBits font pixel x n w).reads = List.replicate n w.glyph ++ w.reads := by
  induction n generalizing x w with
  | zero => exact ⟨rfl, rfl⟩
  | succ n ih =>
    obtain ⟨hglyph, hreads⟩ := ih (x + 1) { w with
      reads := w.glyph :: w.reads
      drawing := pixel (bitSet (font.data w.glyph) x) w.drawing }
    refine ⟨hglyph, ?_⟩
    rw [walkBits, hreads, List.replicate_succ', List.append_assoc, List.singleton_append]

/-- A row reads its bytes. -/
theorem walkRow_reads (font : PsfFile) (pixel : Bool → σ → σ) (width : ℕ) (w : GlyphWalk σ) :
    (walkRow font pixel width w).glyph = w.glyph + rowBytes width ∧
      ∀ i, i ∈ (walkRow font pixel width w).reads ↔
        i ∈ w.reads ∨ w.glyph ≤ i ∧ i < w.glyph + rowBytes width := by
  induction width, w using walkRow.induct font pixel with
  | case1 w =>
    rw [walkRow, if_pos rfl]
    refine ⟨rfl, fun i => (or_iff_left ?_).symm⟩
    simp only [rowBytes]
    omega
  | case2 width w hne amount u ih =>
    obtain ⟨hglyph, hreads⟩ := walkBits_reads font pixel 0 amount w
    obtain ⟨ihglyph, ihreads⟩ := ih
    have hamount : amount = min 8 width := rfl
    have hbytes : rowBytes width = rowBytes (width - amount) + 1 := by
      simp only [rowBytes]
      omega
    rw [walkRow, if_neg hne]
    refine ⟨ihglyph.trans ?_, fun i => (ihreads i).trans ?_⟩
    · simp only [u, hglyph]
      omega
    have hpos : amount ≠ 0 := by omega
    simp only [u, hglyph]
    rw [hreads, List.mem_append, List.mem_replicate, and_iff_right hpos, or_comm (a := i = _),
      or_assoc]
    refine or_congr_right ?_
    omega

theorem walkRows_reads (n : ℕ) (w : GlyphWalk σ) (i : ℕ) :
    i ∈ (walkRows font pixel endRow n w).reads ↔
      i ∈ w.reads ∨ w.glyph ≤ i ∧ i < w.glyph + n * rowBytes font.width.toNat := by
  induction n generalizing w with
  | zero =>
    rw [walkRows, Nat.zero_mul]
    refine (or_iff_left ?_).symm
    omega
  | succ n ih =>
    obtain ⟨hglyph, hreads⟩ := walkRow_reads font pixel font.width.toNat w
    rw [walkRows, ih]
    dsimp only
    rw [hreads, hglyph, or_assoc, Nat.succ_mul]
    refine or_congr_right ?_
    generalize n * rowBytes font.width.toNat = rest
    omega

/-- **A glyph is read from its start over the bytes of its rows.** -/
theorem mem_walkGlyph_reads (character : UInt8) (drawing : σ) (i : ℕ) :
    i ∈ (walkGlyph font pixel endRow character drawing).reads ↔
      (font.glyphSize * charToUInt32 character).toNat ≤ i ∧
        i < (font.glyphSize * charToUInt32 character).toNat +
          font.height.toNat * rowBytes font.width.toNat := by
  rw [walkGlyph, walkRows_reads]
  exact or_iff_right List.not_mem_nil

end Walk

end GlyphWalk

/-! ### Which glyphs lie in the font -/

/-- The offset of the glyph for a byte from 128 on is `2 ^ 32 - size * (256 - c)` modulo `2 ^ 32`. That
is in the font only where the glyphs are so large that the product wraps back into it. -/
def InFont (font : PsfFile) (c : UInt8) : Prop :=
  c.toNat < 128 ∨ font.glyphSize.toNat * (256 - c.toNat) % 2 ^ 32 = 0 ∨
    2 ^ 32 ≤ 255 * font.glyphSize.toNat + font.glyphSize.toNat * (256 - c.toNat) % 2 ^ 32

section Offset

variable {font : PsfFile} {c : UInt8}

theorem charToUInt32_toNat (c : UInt8) :
    (charToUInt32 c).toNat = if c.toNat < 128 then c.toNat else 2 ^ 32 - (256 - c.toNat) := by
  have hc := c.toNat_lt
  rw [charToUInt32, UInt32.ofInt, UInt32.toNat_ofNat', toInt8_toInt]
  split_ifs <;> omega

/-- A product with a negative number. -/
theorem mul_sub_mod {M k : ℕ} (hk : k ≤ M) (size : ℕ) :
    size * (M - k) % M = if size * k % M = 0 then 0 else M - size * k % M := by
  have hsum : size * (M - k) + size * k = size * M := by
    rw [← Nat.mul_add, Nat.sub_add_cancel hk]
  have hmod : (size * (M - k) % M + size * k % M) % M = 0 := by
    rw [← Nat.add_mod, hsum, Nat.mul_mod_left]
  rcases Nat.eq_zero_or_pos M with rfl | hM
  · simp at hk
    simp [hk]
  have hlt := Nat.mod_lt (size * (M - k)) hM
  have hlt' := Nat.mod_lt (size * k) hM
  obtain ⟨q, hq⟩ := Nat.dvd_of_mod_eq_zero hmod
  have hq2 : q < 2 := by
    by_contra hge
    have hmul := Nat.mul_le_mul_left M (not_lt.1 hge)
    omega
  split_ifs with hzero
  · interval_cases q <;> omega
  · interval_cases q <;> omega

/-- The glyph of a byte lies in the font exactly when the byte is in it. -/
theorem glyph_inside_iff (font : PsfFile) (c : UInt8) :
    (font.glyphSize.toNat = 0 ∨
      (font.glyphSize * charToUInt32 c).toNat + font.glyphSize.toNat ≤ font.dataSize) ↔ InFont font c := by
  have hc := c.toNat_lt
  rw [UInt32.toNat_mul, charToUInt32_toNat, PsfFile.dataSize, InFont]
  generalize font.glyphSize.toNat = size
  by_cases hlow : c.toNat < 128
  · rw [if_pos hlow]
    refine iff_of_true (.inr ?_) (.inl hlow)
    have hle := Nat.mod_le (size * c.toNat) (2 ^ 32)
    have hmul := Nat.mul_le_mul_left size hlow.le
    omega
  · rw [if_neg hlow, mul_sub_mod (by omega), or_iff_right hlow]
    split_ifs with hzero
    · refine iff_of_true (.inr ?_) (.inl hzero)
      omega
    · have hmod := Nat.mod_lt (size * (256 - c.toNat)) (show 0 < 2 ^ 32 by decide)
      rw [or_iff_right hzero]
      constructor
      · rintro (rfl | hle)
        · rw [Nat.zero_mul] at hzero
          exact absurd rfl hzero
        · omega
      · intro hle
        exact .inr (by omega)

/-- Where a glyph has at most eleven million bytes these are the bytes below 128. -/
theorem inFont_iff_of_small (hpos : 0 < font.glyphSize.toNat)
    (hsmall : 383 * font.glyphSize.toNat < 2 ^ 32) : InFont font c ↔ c < 128 := by
  have hc := c.toNat_lt
  have h128 : c < 128 ↔ c.toNat < 128 := UInt8.lt_iff_toNat_lt
  rw [InFont, h128]
  refine or_iff_left_of_imp fun h => ?_
  by_contra hhigh
  have hmul := Nat.mul_le_mul_left font.glyphSize.toNat (show 256 - c.toNat ≤ 128 by omega)
  have hone := Nat.mul_le_mul_left font.glyphSize.toNat (show 1 ≤ 256 - c.toNat by omega)
  rw [Nat.mod_eq_of_lt (by omega)] at h
  omega

/-- The bytes read for a character lie in the font exactly when its byte is in it. -/
theorem walkGlyph_inside_iff {σ : Type*} {pixel : Bool → σ → σ} {endRow : σ → σ}
    (hfont : font.WellFormed) (c : UInt8) (drawing : σ) :
    (∀ i ∈ (GlyphWalk.walkGlyph font pixel endRow c drawing).reads, i < font.dataSize) ↔
      InFont font c := by
  simp only [GlyphWalk.mem_walkGlyph_reads]
  rw [← glyph_inside_iff, ← hfont]
  constructor
  · intro h
    by_contra hout
    rw [not_or] at hout
    have hlast := h ((font.glyphSize * charToUInt32 c).toNat + font.glyphSize.toNat - 1)
      ⟨by omega, by omega⟩
    omega
  · rintro (hzero | hle) i ⟨hlo, hhi⟩ <;> omega

theorem inFont_underscore (font : PsfFile) : InFont font underscore := .inl (by decide)

end Offset

namespace Terminal

/-! ### The terminal with its reads -/

/-- The terminal, and the bytes of the font that have been read, the latest first. -/
structure Recorded where
  terminal : Terminal
  reads : List ℕ

/-- What a turn of the loop over the bits draws; the drawing is the address and the screen. -/
def penPixel (colour : UInt32) (set : Bool) (drawing : ℕ × Terminal) : ℕ × Terminal :=
  (drawing.1 + 1, if set then drawing.2.paint drawing.1 colour else drawing.2)

/-- The address at the end of a row. -/
def penEndRow (v : Video) (drawing : ℕ × Terminal) : ℕ × Terminal :=
  (drawing.1 + (v.pitch - v.font.width).toNat, drawing.2)

namespace Recorded

def drawCharacter (v : Video) (character : UInt8) (x y colour : UInt32) (r : Recorded) : Recorded :=
  let w := GlyphWalk.walkGlyph v.font (penPixel colour) (penEndRow v) character
    ((y * v.pitch).toNat + x.toNat, r.terminal)
  ⟨w.drawing.2, w.reads ++ r.reads⟩

/-- What draws no character reads nothing of the font. -/
def modify (f : Terminal → Terminal) (r : Recorded) : Recorded := ⟨f r.terminal, r.reads⟩

def putGlyph (v : Video) (character : UInt8) (r : Recorded) : Recorded :=
  let r := r.drawCharacter v character (r.terminal.cursorX * v.fontWidth)
    (r.terminal.cursorY * v.fontHeight) (colours r.terminal.colour)
  let r := r.modify fun s => { s with cursorX := s.cursorX + 1 }
  if r.terminal.cursorX = v.terminalWidth then r.modify fun s => nextLine v { s with cursorX := 0 } else r

def drawCursor (v : Video) (c : UInt32) (r : Recorded) : Recorded :=
  r.drawCharacter v underscore (r.terminal.cursorX * v.fontWidth) (r.terminal.cursorY * v.fontHeight) c

def terminalPut (v : Video) (r : Recorded) (character : UInt8) : Recorded :=
  let r := r.drawCursor v 0
  let r :=
    if r.terminal.waitingColour then
      r.modify fun s => { s with waitingColour := false, colour := character }
    else if character = backspace then r.modify (putBackspace v)
    else if character = newline then r.modify (putNewline v)
    else if character = ttyClear then r.modify (putClear v)
    else if character = terminalColour then r.modify fun s => { s with waitingColour := true }
    else r.putGlyph v character
  r.drawCursor v (colours r.terminal.colour)

end Recorded

/-- The characters of a stream that are drawn, when the next byte is a colour or is not. -/
def drawnBytes : Bool → List UInt8 → List UInt8
  | _, [] => []
  | true, _ :: cs => drawnBytes false cs
  | false, c :: cs =>
    if c = backspace ∨ c = newline ∨ c = ttyClear then drawnBytes false cs
    else if c = terminalColour then drawnBytes true cs
    else c :: drawnBytes false cs

/-! ### The same drawing -/

section Drawing

open GlyphWalk

variable {v : Video}

theorem walkBits_drawBits (font : PsfFile) (colour : UInt32) (x n : ℕ) (p : Pen) (reads : List ℕ) :
    (walkBits font (penPixel colour) x n ⟨p.glyph, reads, p.address, p.screen⟩).drawing =
      ((drawBits font colour x n p).address, (drawBits font colour x n p).screen) := by
  induction n generalizing x p reads with
  | zero => rfl
  | succ n ih => exact ih (x + 1) { p with
      screen := if bitSet (font.data p.glyph) x then p.screen.paint p.address colour else p.screen
      address := p.address + 1 } _

theorem walkRow_drawRow (font : PsfFile) (colour : UInt32) (width : ℕ) (p : Pen) (reads : List ℕ) :
    (walkRow font (penPixel colour) width ⟨p.glyph, reads, p.address, p.screen⟩).drawing =
      ((drawRow font colour width p).address, (drawRow font colour width p).screen) := by
  induction width, p using drawRow.induct font colour generalizing reads with
  | case1 p => rw [walkRow, drawRow, if_pos rfl, if_pos rfl]
  | case2 width p hne amount q ih =>
    have hbits := walkBits_drawBits font colour 0 amount p reads
    have hreads := walkBits_reads font (penPixel colour) 0 amount
      ⟨p.glyph, reads, p.address, p.screen⟩
    rw [walkRow, drawRow, if_neg hne, if_neg hne]
    dsimp only
    rw [hbits, hreads.1, ← (drawBits_pen font colour 0 amount p).1]
    exact ih _

theorem walkRows_drawRows (colour : UInt32) (n : ℕ) (p : Pen) (reads : List ℕ) :
    (walkRows v.font (penPixel colour) (penEndRow v) n ⟨p.glyph, reads, p.address, p.screen⟩).drawing =
      ((drawRows v colour n p).address, (drawRows v colour n p).screen) := by
  induction n generalizing p reads with
  | zero => rfl
  | succ n ih =>
    have hrow := walkRow_drawRow v.font colour v.font.width.toNat p reads
    have hreads := walkRow_reads v.font (penPixel colour) v.font.width.toNat
      ⟨p.glyph, reads, p.address, p.screen⟩
    rw [walkRows, drawRows, hrow, hreads.1, ← (drawRow_pen v.font colour v.font.width.toNat p).1]
    generalize drawRow v.font colour v.font.width.toNat p = q
    exact ih { q with address := q.address + (v.pitch - v.font.width).toNat } _

end Drawing

namespace Recorded

variable {v : Video} {r : Recorded} {c : UInt8}

theorem drawCharacter_terminal (v : Video) (character : UInt8) (x y colour : UInt32) (r : Recorded) :
    (r.drawCharacter v character x y colour).terminal =
      Terminal.drawCharacter v character x y colour r.terminal :=
  congrArg Prod.snd (walkRows_drawRows colour v.font.height.toNat
    ⟨(v.font.glyphSize * charToUInt32 character).toNat, (y * v.pitch).toNat + x.toNat, r.terminal⟩ [])

theorem putGlyph_terminal (v : Video) (character : UInt8) (r : Recorded) :
    (r.putGlyph v character).terminal = Terminal.putGlyph v character r.terminal := by
  unfold putGlyph Terminal.putGlyph modify
  rw [apply_ite terminal, drawCharacter_terminal]

/-- **The recorded terminal is the terminal.** -/
theorem terminalPut_terminal (v : Video) (r : Recorded) (c : UInt8) :
    (r.terminalPut v c).terminal = Terminal.terminalPut v r.terminal c := by
  unfold terminalPut Terminal.terminalPut drawCursor Terminal.drawCursor
  dsimp only
  simp only [drawCharacter_terminal, apply_ite terminal, modify, putGlyph_terminal]

/-! ### The reads of a stream -/

/-- All bytes read so far lie in the font. -/
def Inside (font : PsfFile) (reads : List ℕ) : Prop := ∀ i ∈ reads, i < font.dataSize

theorem inside_append {font : PsfFile} {us vs : List ℕ} :
    Inside font (us ++ vs) ↔ Inside font us ∧ Inside font vs := by
  simp only [Inside, List.mem_append, or_imp, forall_and]

theorem inside_drawCharacter (hfont : v.font.WellFormed) (c : UInt8) (x y colour : UInt32) (r : Recorded) :
    Inside v.font (r.drawCharacter v c x y colour).reads ↔ InFont v.font c ∧ Inside v.font r.reads := by
  rw [drawCharacter, inside_append]
  exact and_congr_left fun _ => walkGlyph_inside_iff hfont c _

theorem inside_drawCursor (hfont : v.font.WellFormed) (c : UInt32) (r : Recorded) :
    Inside v.font (r.drawCursor v c).reads ↔ Inside v.font r.reads := by
  rw [drawCursor, inside_drawCharacter hfont]
  exact and_iff_right (inFont_underscore v.font)

theorem inside_putGlyph (hfont : v.font.WellFormed) (c : UInt8) (r : Recorded) :
    Inside v.font (r.putGlyph v c).reads ↔ InFont v.font c ∧ Inside v.font r.reads := by
  rw [← inside_drawCharacter hfont c (r.terminal.cursorX * v.fontWidth)
    (r.terminal.cursorY * v.fontHeight) (colours r.terminal.colour), putGlyph]
  split_ifs <;> rfl

theorem waitingColour_drawCursor (v : Video) (c : UInt32) (r : Recorded) :
    (r.drawCursor v c).terminal.waitingColour = r.terminal.waitingColour := by
  rw [drawCursor, drawCharacter_terminal, drawn_drawCharacter]

/-- What a byte draws lies in the font exactly when all that is drawn of it is in it. -/
theorem inside_terminalPut (hfont : v.font.WellFormed) (c : UInt8) (r : Recorded) :
    Inside v.font (r.terminalPut v c).reads ↔
      (∀ d ∈ drawnBytes r.terminal.waitingColour [c], InFont v.font d) ∧ Inside v.font r.reads := by
  rw [terminalPut, inside_drawCursor hfont, waitingColour_drawCursor,
    ← inside_drawCursor hfont 0 r]
  -- the first cursor has been drawn
  generalize r.drawCursor v 0 = u
  cases r.terminal.waitingColour with
  | true => simp [drawnBytes, modify]
  | false =>
    rw [if_neg Bool.false_ne_true, drawnBytes]
    by_cases hback : c = backspace
    · rw [if_pos hback, if_pos (.inl hback)]
      simp [drawnBytes, modify]
    rw [if_neg hback]
    by_cases hnewline : c = newline
    · rw [if_pos hnewline, if_pos (.inr (.inl hnewline))]
      simp [drawnBytes, modify]
    rw [if_neg hnewline]
    by_cases hclear : c = ttyClear
    · rw [if_pos hclear, if_pos (.inr (.inr hclear))]
      simp [drawnBytes, modify]
    rw [if_neg hclear, if_neg (not_or.2 ⟨hback, not_or.2 ⟨hnewline, hclear⟩⟩)]
    by_cases hcolour : c = terminalColour
    · rw [if_pos hcolour, if_pos hcolour]
      simp [drawnBytes, modify]
    · rw [if_neg hcolour, if_neg hcolour, inside_putGlyph hfont]
      simp [drawnBytes]

end Recorded

/-! ### The escape state -/

section Escape

variable {v : Video} {s : Terminal}

theorem waitingColour_clearRow (address n : ℕ) (s : Terminal) :
    (clearRow address n s).waitingColour = s.waitingColour := by
  induction n generalizing address s with
  | zero => rfl
  | succ n ih => exact ih _ _

theorem waitingColour_clearRows (v : Video) (address n : ℕ) (s : Terminal) :
    (clearRows v address n s).waitingColour = s.waitingColour := by
  induction n generalizing address s with
  | zero => rfl
  | succ n ih => exact (ih _ _).trans (waitingColour_clearRow _ _ s)

theorem waitingColour_drop (v : Video) (s : Terminal) :
    (Terminal.drop v s).waitingColour = s.waitingColour := by
  unfold Terminal.drop redrawTerminal
  dsimp only
  split_ifs <;> rfl

theorem waitingColour_nextLine (v : Video) (s : Terminal) :
    (nextLine v s).waitingColour = s.waitingColour := by
  unfold nextLine
  split_ifs
  · rfl
  · exact waitingColour_drop v s

theorem waitingColour_putBackspace (v : Video) (s : Terminal) :
    (putBackspace v s).waitingColour = s.waitingColour := by
  unfold putBackspace
  rw [waitingColour_clearRows]
  split_ifs <;> rfl

theorem waitingColour_drawCharacter (v : Video) (c : UInt8) (x y colour : UInt32) (s : Terminal) :
    (drawCharacter v c x y colour s).waitingColour = s.waitingColour := by
  rw [drawn_drawCharacter]

theorem waitingColour_putGlyph (v : Video) (c : UInt8) (s : Terminal) :
    (putGlyph v c s).waitingColour = s.waitingColour := by
  unfold putGlyph
  dsimp only
  split_ifs
  · rw [waitingColour_nextLine]
    exact waitingColour_drawCharacter ..
  · exact waitingColour_drawCharacter ..

/-- The next byte is a colour when this one says so and is not a colour itself. -/
theorem waitingColour_terminalPut (v : Video) (s : Terminal) (c : UInt8) :
    (terminalPut v s c).waitingColour = (!s.waitingColour && c = terminalColour) := by
  unfold terminalPut drawCursor
  dsimp only
  have hcursor := waitingColour_drawCharacter v underscore (s.cursorX * v.fontWidth)
    (s.cursorY * v.fontHeight) 0 s
  rw [waitingColour_drawCharacter, ← hcursor]
  generalize drawCharacter v underscore (s.cursorX * v.fontWidth) (s.cursorY * v.fontHeight) 0 s = u
  by_cases hwaiting : u.waitingColour = true
  · rw [if_pos hwaiting, hwaiting]
    rfl
  rw [if_neg hwaiting, eq_false_of_ne_true hwaiting]
  split_ifs with hback hnewline hclear hcolour
  · rw [waitingColour_putBackspace, eq_false_of_ne_true hwaiting, hback]
    rfl
  · rw [putNewline, waitingColour_nextLine, hnewline]
    exact eq_false_of_ne_true hwaiting
  · rw [hclear]
    exact eq_false_of_ne_true hwaiting
  · rw [hcolour]
    rfl
  · rw [waitingColour_putGlyph, eq_false_of_ne_true hwaiting]
    simp [hcolour]

theorem drawnBytes_cons (waiting : Bool) (c : UInt8) (cs : List UInt8) :
    drawnBytes waiting (c :: cs) =
      drawnBytes waiting [c] ++ drawnBytes (!waiting && c = terminalColour) cs := by
  cases waiting with
  | true => simp [drawnBytes]
  | false =>
    rw [drawnBytes, drawnBytes]
    split_ifs with hplain hcolour
    · have hne : c ≠ terminalColour := by
        rcases hplain with rfl | rfl | rfl <;> decide
      simp [drawnBytes, hne]
    · simp [drawnBytes, hcolour]
    · simp [drawnBytes, hcolour]

/-- **Which streams are drawn from the font.** All bytes of the font that `terminalPut` reads for a stream
lie in it exactly when every character that is drawn is in it. -/
theorem reads_inside_iff (hfont : v.font.WellFormed) (cs : List UInt8) (r : Recorded) :
    Recorded.Inside v.font (cs.foldl (Recorded.terminalPut v) r).reads ↔
      (∀ c ∈ drawnBytes r.terminal.waitingColour cs, InFont v.font c) ∧ Recorded.Inside v.font r.reads := by
  induction cs generalizing r with
  | nil => simp [drawnBytes]
  | cons c cs ih =>
    rw [List.foldl_cons, ih, Recorded.inside_terminalPut hfont, Recorded.terminalPut_terminal,
      waitingColour_terminalPut, drawnBytes_cons r.terminal.waitingColour c cs, List.forall_mem_append,
      and_left_comm, and_assoc]

end Escape

end Terminal

end Naul
