import Naul.Terminal.Cursor
import Naul.Terminal.Grid

/-!
# The back buffer shows the grid

`Shows v m cells` says that the pixels of the screen in `m` are the picture of `cells`. Each thing the
terminal paints keeps such a picture: a character drawn in a blank cell, the cursor erased from one,
a cell cleared, a scroll. `terminalPut_refines` puts them together, and `terminal_refines_grid` is
the result for a stream of bytes.

The cursor is erased by drawing it in black, which leaves the cell black only because the cell held
nothing else; that is what `Grid.Wf` is for.
-/

namespace Naul

open Terminal

/-- The sizes fit: what `initVideo` computes for a screen with at least one cell, whose buffer has
fewer than `2 ^ 32` pixels. -/
structure Video.Fits (v : Video) : Prop where
  fontWidth : v.fontWidth.toNat = v.font.width.toNat + 1
  fontHeight : v.fontHeight = v.font.height
  height_pos : 0 < v.font.height.toNat
  columns_pos : 0 < v.terminalWidth.toNat
  rows_pos : 0 < v.terminalHeight.toNat
  columns : v.terminalWidth.toNat * v.fontWidth.toNat ≤ v.pitch.toNat
  rows : v.terminalHeight.toNat * v.fontHeight.toNat ≤ v.height.toNat
  last_row : v.height.toNat < (v.terminalHeight.toNat + 1) * v.fontHeight.toNat
  small : v.pitch.toNat * v.height.toNat < 2 ^ 32

/-- The screen in `m` is the picture of `cells`. -/
def Shows (v : Video) (m : Cells UInt32) (cells : Cellmap) : Prop :=
  ∀ i < v.pitch.toNat * v.height.toNat, m.cell i = pixel v cells i

theorem fits_initVideo {width height pitch : UInt32} {font : PsfFile}
    (hcolumn : font.width.toNat + 1 ≤ width.toNat) (hrow : font.height.toNat ≤ height.toNat)
    (hheight : 0 < font.height.toNat) (hpitch : width.toNat ≤ pitch.toNat)
    (hsmall : pitch.toNat * height.toNat < 2 ^ 32) :
    (initVideo width height pitch font).Fits := by
  have hwidth : (font.width + 1).toNat = font.width.toNat + 1 := by
    have hlt := width.toNat_lt
    have hone : (1 : UInt32).toNat = 1 := rfl
    rw [UInt32.toNat_add, hone]
    omega
  refine ⟨hwidth, rfl, hheight, ?_, ?_, ?_, ?_, ?_, hsmall⟩
  · rw [initVideo, UInt32.toNat_div, hwidth]
    exact Nat.div_pos hcolumn (Nat.succ_pos _)
  · rw [initVideo, UInt32.toNat_div]
    exact Nat.div_pos hrow hheight
  · rw [initVideo, UInt32.toNat_div]
    exact (Nat.div_mul_le_self _ _).trans hpitch
  · rw [initVideo, UInt32.toNat_div]
    exact Nat.div_mul_le_self _ _
  · rw [initVideo, UInt32.toNat_div]
    exact Nat.lt_mul_of_div_lt (Nat.lt_succ_self _) hheight

section Geometry

variable {v : Video} {x y : ℕ}

theorem Video.Fits.celled (h : v.Fits) : v.Celled :=
  ⟨h.fontWidth, h.fontHeight, h.columns_pos, h.rows_pos, h.columns, h.rows⟩

/-- The first pixel of a cell, computed in 32 bits. -/
theorem Video.Fits.toNat_origin (h : v.Fits) {cx cy : UInt32} (hx : cx.toNat < v.terminalWidth.toNat)
    (hy : cy.toNat < v.terminalHeight.toNat) :
    (cy * v.fontHeight * v.pitch).toNat + (cx * v.fontWidth).toNat =
      cy.toNat * v.fontHeight.toNat * v.pitch.toNat + cx.toNat * v.fontWidth.toNat := by
  have hcolumn := h.celled.column_end hx
  have hrow := h.celled.row_end hy
  have hsmall := h.small
  have hfont : 0 < v.fontHeight.toNat := h.fontHeight ▸ h.height_pos
  have hlast : (cy.toNat * v.fontHeight.toNat + 1) * v.pitch.toNat ≤ v.pitch.toNat * v.height.toNat := by
    rw [Nat.mul_comm v.pitch.toNat]
    exact Nat.mul_le_mul_right _ (by omega)
  have hpitch := h.celled.pitch_pos
  have hheight : v.height.toNat < 2 ^ 32 := v.height.toNat_lt
  have hwidth : v.pitch.toNat < 2 ^ 32 := v.pitch.toNat_lt
  rw [Nat.add_mul, Nat.one_mul] at hlast
  rw [UInt32.toNat_mul, UInt32.toNat_mul, UInt32.toNat_mul,
    Nat.mod_eq_of_lt (by omega : cy.toNat * v.fontHeight.toNat < 2 ^ 32),
    Nat.mod_eq_of_lt (by omega : cx.toNat * v.fontWidth.toNat < 2 ^ 32),
    Nat.mod_eq_of_lt (by omega : cy.toNat * v.fontHeight.toNat * v.pitch.toNat < 2 ^ 32)]

/-- The pixels of a drawing in a cell are those of its columns and rows within the cell. -/
theorem mem_drawing_cell (h : v.Fits) (hx : x < v.terminalWidth.toNat) {width : ℕ}
    (hwidth : width ≤ v.fontWidth.toNat) (bit : ℕ → ℕ → Bool) (i : ℕ) :
    i ∈ drawing v.pitch.toNat (y * v.fontHeight.toNat * v.pitch.toNat + x * v.fontWidth.toNat) width
        v.fontHeight.toNat bit ↔
      i % v.pitch.toNat / v.fontWidth.toNat = x ∧ i / v.pitch.toNat / v.fontHeight.toNat = y ∧
        i % v.pitch.toNat % v.fontWidth.toNat < width ∧
        bit (i % v.pitch.toNat % v.fontWidth.toNat) (i / v.pitch.toNat % v.fontHeight.toNat) = true := by
  have hcolumn := h.celled.column_end hx
  have hfont : 0 < v.fontHeight.toNat := h.fontHeight ▸ h.height_pos
  have hfw : 0 < v.fontWidth.toNat := h.fontWidth ▸ Nat.succ_pos _
  have hpitch := h.celled.pitch_pos
  generalize v.pitch.toNat = P at *
  generalize v.fontWidth.toNat = W at *
  generalize v.fontHeight.toNat = H at *
  -- both sides say that `i` is the pixel at a column `dx` and a row `dy` of the cell
  have hpixel : ∀ dx dy, dx < W → dy < H → i = (y * H + dy) * P + (x * W + dx) →
      i % P / W = x ∧ i / P / H = y ∧ i % P % W = dx ∧ i / P % H = dy := by
    rintro dx dy hdx hdy rfl
    have hmod : ((y * H + dy) * P + (x * W + dx)) % P = x * W + dx := by
      rw [Nat.mul_comm, Nat.mul_add_mod, Nat.mod_eq_of_lt (by omega)]
    have hdiv : ((y * H + dy) * P + (x * W + dx)) / P = y * H + dy := by
      rw [Nat.mul_comm, Nat.mul_add_div hpitch, Nat.div_eq_of_lt (by omega), Nat.add_zero]
    rw [hmod, hdiv, Nat.mul_comm x, Nat.mul_comm y, Nat.mul_add_div hfw, Nat.mul_add_div hfont,
      Nat.mul_add_mod, Nat.mul_add_mod, Nat.div_eq_of_lt hdx, Nat.div_eq_of_lt hdy,
      Nat.mod_eq_of_lt hdx, Nat.mod_eq_of_lt hdy]
    exact ⟨Nat.add_zero x, Nat.add_zero y, rfl, rfl⟩
  constructor
  · rintro ⟨hlo, hdy, hdx, hset⟩
    have hi := Nat.div_add_mod (i - (y * H * P + x * W)) P
    obtain ⟨h1, h2, h3, h4⟩ := hpixel ((i - (y * H * P + x * W)) % P)
      ((i - (y * H * P + x * W)) / P) (by omega) hdy (by
        rw [Nat.add_mul, Nat.mul_comm (_ / P)]
        omega)
    rw [h3, h4]
    exact ⟨h1, h2, hdx, hset⟩
  · rintro ⟨rfl, rfl, hdx, hset⟩
    have hi : i = i / P / H * H * P + i % P / W * W + (i / P % H * P + i % P % W) := by
      calc i = P * (i / P) + i % P := (Nat.div_add_mod i P).symm
        _ = P * (H * (i / P / H) + i / P % H) + (W * (i % P / W) + i % P % W) := by
          rw [Nat.div_add_mod (i / P), Nat.div_add_mod (i % P), Nat.div_add_mod]
        _ = i / P / H * H * P + i % P / W * W + (i / P % H * P + i % P % W) := by ring
    have hoffset : i - (i / P / H * H * P + i % P / W * W) = i / P % H * P + i % P % W :=
      Nat.sub_eq_of_eq_add' hi
    have hlt : i % P % W < P := by
      have := Nat.mod_lt (i % P) hfw
      omega
    refine ⟨?_, ?_, ?_, ?_⟩
    · exact Nat.le.intro hi.symm
    · rw [hoffset, Nat.mul_comm, Nat.mul_add_div hpitch, Nat.div_eq_of_lt hlt, Nat.add_zero]
      exact Nat.mod_lt _ hfont
    · rw [hoffset, Nat.mul_comm, Nat.mul_add_mod, Nat.mod_eq_of_lt hlt]
      exact hdx
    · rw [hoffset, Nat.mul_comm, Nat.mul_add_div hpitch, Nat.mul_add_mod, Nat.div_eq_of_lt hlt,
        Nat.mod_eq_of_lt hlt, Nat.add_zero]
      exact hset

end Geometry

section Pictures

variable {v : Video} {m m' : Cells UInt32} {cells : Cellmap} {x y : ℕ} {b : UInt8} {c : UInt32}

/-- The pixels of a glyph in a cell. -/
def glyphAt (v : Video) (b : UInt8) (x y : ℕ) : Set ℕ :=
  drawing v.pitch.toNat (y * v.fontHeight.toNat * v.pitch.toNat + x * v.fontWidth.toNat)
    v.font.width.toNat v.fontHeight.toNat (v.font.glyphPixel b)

theorem mem_glyphAt (h : v.Fits) (hx : x < v.terminalWidth.toNat) (i : ℕ) :
    i ∈ glyphAt v b x y ↔
      i % v.pitch.toNat / v.fontWidth.toNat = x ∧ i / v.pitch.toNat / v.fontHeight.toNat = y ∧
        i % v.pitch.toNat % v.fontWidth.toNat < v.font.width.toNat ∧
        v.font.glyphPixel b (i % v.pitch.toNat % v.fontWidth.toNat)
          (i / v.pitch.toNat % v.fontHeight.toNat) = true :=
  mem_drawing_cell h hx (by rw [h.fontWidth]; exact Nat.le_succ _) _ i

/-- The picture of a character in a cell that is otherwise blank. -/
theorem pixel_set (h : v.Fits) (hx : x < v.terminalWidth.toNat) (hy : y < v.terminalHeight.toNat)
    (hblank : cells x y = none) (b : UInt8) (c : UInt32) :
    (∀ i ∈ glyphAt v b x y, pixel v (cells.set x y (some (b, c))) i = c ∧ pixel v cells i = 0) ∧
      ∀ i, i ∉ glyphAt v b x y → pixel v (cells.set x y (some (b, c))) i = pixel v cells i := by
  constructor
  · intro i hi
    obtain ⟨hcol, hrow, hdx, hset⟩ := (mem_glyphAt h hx i).1 hi
    simp only [pixel, hcol, hrow, hx, hy, and_self, if_true, Cellmap.set_self, hblank, hdx, hset]
  · intro i hi
    rw [mem_glyphAt h hx] at hi
    simp only [pixel]
    by_cases hcell : i % v.pitch.toNat / v.fontWidth.toNat = x ∧
        i / v.pitch.toNat / v.fontHeight.toNat = y
    · obtain ⟨hcol, hrow⟩ := hcell
      have hoff : ¬ (i % v.pitch.toNat % v.fontWidth.toNat < v.font.width.toNat ∧
          v.font.glyphPixel b (i % v.pitch.toNat % v.fontWidth.toNat)
            (i / v.pitch.toNat % v.fontHeight.toNat) = true) :=
        fun hset => hi ⟨hcol, hrow, hset.1, hset.2⟩
      simp only [hcol, hrow, hx, hy, and_self, if_true, Cellmap.set_self, hblank, hoff, if_false]
    · rw [Cellmap.set_other _ hcell]

/-- Drawing a character in a blank cell. -/
theorem Shows.draw (hm : Shows v m cells) (h : v.Fits) (hx : x < v.terminalWidth.toNat)
    (hy : y < v.terminalHeight.toNat) (hblank : cells x y = none)
    (hpaint : Cells.Painted (glyphAt v b x y) c m m') :
    Shows v m' (cells.set x y (some (b, c))) := by
  obtain ⟨hin, hout⟩ := pixel_set h hx hy hblank b c
  intro i hi
  by_cases hmem : i ∈ glyphAt v b x y
  · rw [hpaint.inside i hmem, (hin i hmem).1]
  · rw [hpaint.outside i hmem, hm i hi, hout i hmem]

/-- Drawing in black what a blank cell holds besides. -/
theorem Shows.erase (hm : Shows v m cells ∨ Shows v m (cells.set x y (some (b, c)))) (h : v.Fits)
    (hx : x < v.terminalWidth.toNat) (hy : y < v.terminalHeight.toNat) (hblank : cells x y = none)
    (hpaint : Cells.Painted (glyphAt v b x y) 0 m m') : Shows v m' cells := by
  obtain ⟨hin, hout⟩ := pixel_set h hx hy hblank b c
  intro i hi
  by_cases hmem : i ∈ glyphAt v b x y
  · rw [hpaint.inside i hmem, (hin i hmem).2]
  · rw [hpaint.outside i hmem]
    rcases hm with hm | hm
    · exact hm i hi
    · rw [hm i hi, hout i hmem]

/-- Clearing a cell. -/
theorem Shows.clear (hm : Shows v m cells) (h : v.Fits) (hx : x < v.terminalWidth.toNat)
    (hpaint : Cells.Painted (drawing v.pitch.toNat
      (y * v.fontHeight.toNat * v.pitch.toNat + x * v.fontWidth.toNat) v.fontWidth.toNat
      v.fontHeight.toNat fun _ _ => true) 0 m m') : Shows v m' (cells.set x y none) := by
  have hfw : 0 < v.fontWidth.toNat := h.fontWidth ▸ Nat.succ_pos _
  have hmem := mem_drawing_cell (y := y) h hx le_rfl fun _ _ => true
  intro i hi
  by_cases hcell : i % v.pitch.toNat / v.fontWidth.toNat = x ∧
      i / v.pitch.toNat / v.fontHeight.toNat = y
  · rw [hpaint.inside i ((hmem i).2 ⟨hcell.1, hcell.2, Nat.mod_lt _ hfw, rfl⟩)]
    simp only [pixel, hcell.1, hcell.2, Cellmap.set_self, ite_self]
  · rw [hpaint.outside i fun hi' => hcell ⟨((hmem i).1 hi').1, ((hmem i).1 hi').2.1⟩, hm i hi]
    simp only [pixel]
    rw [Cellmap.set_other _ hcell]

theorem pixel_blank (v : Video) (i : ℕ) : pixel v .blank i = 0 := by
  simp [pixel, Cellmap.blank]

/-- The picture of the scrolled grid is the picture one line further down, and black in the lines
that come up from below the screen. -/
theorem pixel_scroll (h : v.Fits) (cells : Cellmap) (i : ℕ) :
    pixel v (cells.scroll v.terminalHeight.toNat) i =
      if i / v.pitch.toNat + v.fontHeight.toNat < v.height.toNat then
        pixel v cells (i + v.pitch.toNat * v.fontHeight.toNat)
      else 0 := by
  have hfont : 0 < v.fontHeight.toNat := h.fontHeight ▸ h.height_pos
  have hcol : (i + v.pitch.toNat * v.fontHeight.toNat) % v.pitch.toNat = i % v.pitch.toNat :=
    Nat.add_mul_mod_self_left _ _ _
  have hrow : (i + v.pitch.toNat * v.fontHeight.toNat) / v.pitch.toNat =
      i / v.pitch.toNat + v.fontHeight.toNat := Nat.add_mul_div_left _ _ h.celled.pitch_pos
  have hline : (i / v.pitch.toNat + v.fontHeight.toNat) / v.fontHeight.toNat =
      i / v.pitch.toNat / v.fontHeight.toNat + 1 := Nat.add_div_right _ hfont
  have hdy : (i / v.pitch.toNat + v.fontHeight.toNat) % v.fontHeight.toNat =
      i / v.pitch.toNat % v.fontHeight.toNat := Nat.add_mod_right _ _
  simp only [pixel, hcol, hrow, hline, hdy, Cellmap.scroll]
  by_cases hy : i / v.pitch.toNat / v.fontHeight.toNat + 1 < v.terminalHeight.toNat
  · -- the line further down is in the grid, and so on the screen
    have hend := h.celled.row_end hy
    have hlt := Nat.lt_mul_of_div_lt (Nat.lt_succ_self (i / v.pitch.toNat / v.fontHeight.toNat)) hfont
    rw [Nat.succ_eq_add_one] at hlt
    have hy' : i / v.pitch.toNat / v.fontHeight.toNat < v.terminalHeight.toNat := by omega
    rw [if_pos (by omega : i / v.pitch.toNat + v.fontHeight.toNat < v.height.toNat)]
    simp only [hy, hy', and_true, if_true]
  · simp only [hy, and_false, if_false, ite_self]

/-- Scrolling. -/
theorem Shows.scroll (hm : Shows v m cells) (h : v.Fits)
    (hlow : ∀ i < v.pitch.toNat * (v.height.toNat - v.fontHeight.toNat),
      m'.cell i = m.cell (i + v.pitch.toNat * v.fontHeight.toNat))
    (hhigh : ∀ i, v.pitch.toNat * (v.height.toNat - v.fontHeight.toNat) ≤ i →
      i < v.pitch.toNat * v.height.toNat → m'.cell i = 0) :
    Shows v m' (cells.scroll v.terminalHeight.toNat) := by
  have hpitch := h.celled.pitch_pos
  have hle : v.fontHeight.toNat ≤ v.height.toNat := by
    have := h.celled.row_end h.rows_pos
    omega
  intro i hi
  have hiff : i / v.pitch.toNat < v.height.toNat - v.fontHeight.toNat ↔
      i < v.pitch.toNat * (v.height.toNat - v.fontHeight.toNat) := by
    rw [Nat.mul_comm]
    exact Nat.div_lt_iff_lt_mul hpitch
  rw [pixel_scroll h]
  by_cases hrow : i / v.pitch.toNat < v.height.toNat - v.fontHeight.toNat
  · rw [if_pos (by omega), hlow i (hiff.1 hrow)]
    refine hm _ ?_
    calc i + v.pitch.toNat * v.fontHeight.toNat
        < v.pitch.toNat * (v.height.toNat - v.fontHeight.toNat) + v.pitch.toNat * v.fontHeight.toNat :=
          Nat.add_lt_add_right (hiff.1 hrow) _
      _ = v.pitch.toNat * v.height.toNat := by rw [← Nat.mul_add, Nat.sub_add_cancel hle]
  · rw [if_neg (by omega), hhigh i (not_lt.1 fun hlt => hrow (hiff.2 hlt)) hi]

end Pictures

/-! ### The steps of `terminalPut` -/

section Put

variable {v : Video} {s s' : Terminal} {g : Grid} {b : UInt8}

/-- The variables of the terminal are those of the grid. -/
structure Agrees (s : Terminal) (g : Grid) : Prop where
  cursorX : s.cursorX.toNat = g.cursorX
  cursorY : s.cursorY.toNat = g.cursorY
  colour : s.colour = g.colour
  waitingColour : s.waitingColour = g.waitingColour

theorem Agrees.drawn (h : Agrees s g) (hdrawn : Drawn s s') : Agrees s' g := by
  rw [Drawn] at hdrawn
  rw [hdrawn]
  exact ⟨h.cursorX, h.cursorY, h.colour, h.waitingColour⟩

/-- A glyph number that `drawCharacter` finds: `font->glyphSize * character` is a `uint32_t`. -/
def PsfFile.Finds (font : PsfFile) (b : UInt8) : Prop :=
  b.toNat < 128 ∧ font.glyphSize.toNat * b.toNat < 2 ^ 32

theorem toNat_charToUInt32 (hb : b.toNat < 128) : (charToUInt32 b).toNat = b.toNat := by
  have hint : b.toInt8.toInt = b.toNat := by
    rw [← Int8.toInt_toBitVec, UInt8.toBitVec_toInt8, BitVec.toInt_eq_toNat_of_lt]
    · rfl
    · rw [UInt8.toNat_toBitVec]
      omega
  rw [charToUInt32, hint, UInt32.ofInt, UInt32.toNat_ofNat']
  omega

/-- `drawCharacter` at a cell. -/
theorem painted_glyphAt (h : v.Fits) (hb : v.font.Finds b) {cx cy : UInt32}
    (hx : cx.toNat < v.terminalWidth.toNat) (hy : cy.toNat < v.terminalHeight.toNat) (c : UInt32)
    (s : Terminal) :
    Cells.Painted (glyphAt v b cx.toNat cy.toNat) c s.backBuffer
      (drawCharacter v b (cx * v.fontWidth) (cy * v.fontHeight) c s).backBuffer := by
  have hpaint := painted_drawCharacter h.celled.width_le h.celled.pitch_pos b (cx * v.fontWidth)
    (cy * v.fontHeight) c s
  have hbase : (v.font.glyphSize * charToUInt32 b).toNat = v.font.glyphSize.toNat * b.toNat := by
    rw [UInt32.toNat_mul, toNat_charToUInt32 hb.1, Nat.mod_eq_of_lt hb.2]
  rw [h.toNat_origin hx hy, hbase, ← h.fontHeight] at hpaint
  exact hpaint

/-- `drawCharacter` for the cursor. -/
theorem painted_drawCursor (h : v.Fits) (hcursor : v.font.Finds underscore) (hag : Agrees s g)
    (hwf : g.Wf v.terminalWidth.toNat v.terminalHeight.toNat) (c : UInt32) :
    Cells.Painted (glyphAt v underscore g.cursorX g.cursorY) c s.backBuffer
        (drawCursor v c s).backBuffer ∧ Drawn s (drawCursor v c s) := by
  have hpaint := painted_glyphAt h hcursor (hag.cursorX ▸ hwf.column) (hag.cursorY ▸ hwf.row) c s
  rw [hag.cursorX, hag.cursorY] at hpaint
  exact ⟨hpaint, drawn_drawCharacter _ _ _ _ _ _⟩

theorem drop_refines (h : v.Fits) {cells : Cellmap} (hm : Shows v s.backBuffer cells) :
    Drawn s (drop v s) ∧ Shows v (drop v s).backBuffer (cells.scroll v.terminalHeight.toNat) := by
  have hle : v.fontHeight.toNat ≤ v.height.toNat := by
    have := h.celled.row_end h.rows_pos
    omega
  have hsmall := h.small
  have hsub : (v.height - v.font.height).toNat = v.height.toNat - v.fontHeight.toNat := by
    rw [← h.fontHeight, UInt32.toNat_sub_of_le _ _ (UInt32.le_iff_toNat_le.2 hle)]
  have hshift : (v.pitch * v.font.height).toNat = v.pitch.toNat * v.fontHeight.toNat := by
    rw [← h.fontHeight, UInt32.toNat_mul, Nat.mod_eq_of_lt]
    exact (Nat.mul_le_mul_left _ hle).trans_lt hsmall
  have hcount : (v.pitch * (v.height - v.font.height)).toNat =
      v.pitch.toNat * (v.height.toNat - v.fontHeight.toNat) := by
    rw [UInt32.toNat_mul, hsub, Nat.mod_eq_of_lt]
    exact (Nat.mul_le_mul_left _ (Nat.sub_le _ _)).trans_lt hsmall
  have hback : (drop v s).backBuffer =
      (s.backBuffer.copy (v.pitch.toNat * v.fontHeight.toNat) 0
        (v.pitch.toNat * (v.height.toNat - v.fontHeight.toNat))).fill
          (v.pitch.toNat * (v.height.toNat - v.fontHeight.toNat)) 0
          (v.pitch.toNat * v.fontHeight.toNat) := by
    rw [← hshift, ← hcount]
    unfold drop
    dsimp only
    split_ifs <;> rfl
  refine ⟨?_, hm.scroll h (fun i hi => ?_) fun i hlo hhi => ?_⟩
  · unfold drop
    dsimp only
    split_ifs <;> rfl
  · rw [hback, Cells.fill_cell, if_neg (by omega), Cells.copy_cell _ (Nat.zero_le _),
      if_pos ⟨Nat.zero_le i, by omega⟩, Nat.sub_zero, Nat.add_comm]
  · have hend : i < v.pitch.toNat * (v.height.toNat - v.fontHeight.toNat) +
        v.pitch.toNat * v.fontHeight.toNat := by
      rwa [← Nat.mul_add, Nat.sub_add_cancel hle]
    rw [hback, Cells.fill_cell, if_pos ⟨hlo, hend⟩]

theorem nextLine_refines (h : v.Fits) (hag : Agrees s g) (hrow : g.cursorY < v.terminalHeight.toNat)
    (hm : Shows v s.backBuffer g.cells) :
    Agrees (nextLine v s) (g.nextLine v.terminalHeight.toNat) ∧
      Shows v (nextLine v s).backBuffer (g.nextLine v.terminalHeight.toNat).cells := by
  have hcursor := hag.cursorY
  have hlt := v.terminalHeight.toNat_lt
  have hone : (1 : UInt32).toNat = 1 := rfl
  have hnext : (s.cursorY + 1).toNat = g.cursorY + 1 := by
    rw [UInt32.toNat_add, hone, hcursor]
    omega
  have hiff : s.cursorY + 1 ≠ v.terminalHeight ↔ g.cursorY + 1 < v.terminalHeight.toNat := by
    rw [Ne, ← UInt32.toNat_inj, hnext]
    omega
  unfold Terminal.nextLine Grid.nextLine
  by_cases hlast : g.cursorY + 1 < v.terminalHeight.toNat
  · rw [if_pos (hiff.2 hlast), if_pos hlast]
    exact ⟨⟨hag.cursorX, hnext, hag.colour, hag.waitingColour⟩, hm⟩
  · rw [if_neg fun hne => hlast (hiff.1 hne), if_neg hlast]
    obtain ⟨hdrawn, hshows⟩ := drop_refines h hm
    have hag' : Agrees (drop v s) g := hag.drawn hdrawn
    exact ⟨⟨hag'.cursorX, hag'.cursorY, hag'.colour, hag'.waitingColour⟩, hshows⟩

/-- The cursor at the start of the line. -/
theorem Agrees.home (h : Agrees s g) : Agrees { s with cursorX := 0 } { g with cursorX := 0 } :=
  ⟨rfl, h.cursorY, h.colour, h.waitingColour⟩

theorem putBackspace_refines (h : v.Fits) (hag : Agrees s g)
    (hwf : g.Wf v.terminalWidth.toNat v.terminalHeight.toNat)
    (hstart : g.cursorX ≠ 0 ∨ g.cursorY ≠ 0) (hm : Shows v s.backBuffer g.cells) :
    Agrees (putBackspace v s) ((g.back v.terminalWidth.toNat).write none) ∧
      Shows v (putBackspace v s).backBuffer ((g.back v.terminalWidth.toNat).write none).cells := by
  have hcx := hag.cursorX
  have hcy := hag.cursorY
  have hone : (1 : UInt32).toNat = 1 := rfl
  have hzero : (0 : UInt32).toNat = 0 := rfl
  -- the cursor first
  obtain ⟨u, hu, hagu, hbuffer⟩ : ∃ u, u = (if s.cursorX > 0 then { s with cursorX := s.cursorX - 1 }
      else { s with cursorY := s.cursorY - 1, cursorX := v.terminalWidth - 1 }) ∧
      Agrees u (g.back v.terminalWidth.toNat) ∧ u.backBuffer = s.backBuffer := by
    refine ⟨_, rfl, ?_, by split_ifs <;> rfl⟩
    unfold Grid.back
    by_cases hx : 0 < g.cursorX
    · have hx' : s.cursorX > 0 := UInt32.lt_iff_toNat_lt.2 (by rw [hcx, hzero]; exact hx)
      rw [if_pos hx', if_pos hx]
      refine ⟨?_, hcy, hag.colour, hag.waitingColour⟩
      rw [UInt32.toNat_sub_of_le _ _ (UInt32.le_iff_toNat_le.2 (by rw [hcx, hone]; exact hx)), hcx,
        hone]
    · have hx' : ¬ s.cursorX > 0 := fun hlt => hx (by
        have hlt' := UInt32.lt_iff_toNat_lt.1 hlt
        rwa [hcx, hzero] at hlt')
      have hy : 1 ≤ g.cursorY := by omega
      rw [if_neg hx', if_neg hx]
      refine ⟨?_, ?_, hag.colour, hag.waitingColour⟩
      · rw [UInt32.toNat_sub_of_le _ _ (UInt32.le_iff_toNat_le.2 (by rw [hone]; exact h.columns_pos)),
          hone]
      · rw [UInt32.toNat_sub_of_le _ _ (UInt32.le_iff_toNat_le.2 (by rw [hcy, hone]; exact hy)), hcy,
          hone]
  have hwfu := g.wf_back hwf
  have hcolumn : u.cursorX.toNat < v.terminalWidth.toNat := hagu.cursorX ▸ hwfu.column
  have hrow : u.cursorY.toNat < v.terminalHeight.toNat := hagu.cursorY ▸ hwfu.row
  obtain ⟨address, haddress⟩ : ∃ address,
      (u.cursorY * v.fontHeight * v.pitch).toNat + (u.cursorX * v.fontWidth).toNat = address :=
    ⟨_, rfl⟩
  have hput : putBackspace v s = clearRows v address v.fontHeight.toNat u := by
    rw [← haddress, hu]
    rfl
  obtain ⟨hpaint, hdrawn⟩ := painted_clearRows h.celled.fontWidth_le h.celled.pitch_pos address
    v.fontHeight.toNat u
  rw [h.toNat_origin hcolumn hrow, hagu.cursorX, hagu.cursorY] at haddress
  rw [hput]
  have hag' := hagu.drawn hdrawn
  refine ⟨⟨hag'.cursorX, hag'.cursorY, hag'.colour, hag'.waitingColour⟩, ?_⟩
  have hcells : (g.back v.terminalWidth.toNat).cells = g.cells := by
    unfold Grid.back
    split_ifs <;> rfl
  rw [← hcells, ← hbuffer] at hm
  subst haddress
  exact hm.clear h hwfu.column hpaint

theorem putNewline_refines (h : v.Fits) (hag : Agrees s g)
    (hwf : g.Wf v.terminalWidth.toNat v.terminalHeight.toNat) (hm : Shows v s.backBuffer g.cells) :
    Agrees (putNewline v s) (Grid.nextLine v.terminalHeight.toNat { g with cursorX := 0 }) ∧
      Shows v (putNewline v s).backBuffer
        (Grid.nextLine v.terminalHeight.toNat { g with cursorX := 0 }).cells :=
  nextLine_refines h hag.home hwf.row hm

theorem putClear_refines (h : v.Fits) (hag : Agrees s g) :
    Agrees (putClear v s) { g with cells := .blank, cursorX := 0, cursorY := 0 } ∧
      Shows v (putClear v s).backBuffer .blank := by
  refine ⟨⟨rfl, rfl, hag.colour, hag.waitingColour⟩, fun i hi => ?_⟩
  have hcount : (v.pitch * v.height).toNat = v.pitch.toNat * v.height.toNat := by
    rw [UInt32.toNat_mul, Nat.mod_eq_of_lt h.small]
  rw [pixel_blank]
  unfold putClear setMemory
  dsimp only
  rw [Cells.fill_cell, hcount, if_pos ⟨Nat.zero_le i, by omega⟩]

theorem putGlyph_refines (h : v.Fits) (hag : Agrees s g)
    (hwf : g.Wf v.terminalWidth.toNat v.terminalHeight.toNat) (hb : v.font.Finds b)
    (hm : Shows v s.backBuffer g.cells) :
    Agrees (putGlyph v b s) ((g.write (some (b, colours g.colour))).advance v.terminalWidth.toNat
        v.terminalHeight.toNat) ∧
      Shows v (putGlyph v b s).backBuffer ((g.write (some (b, colours g.colour))).advance
        v.terminalWidth.toNat v.terminalHeight.toNat).cells := by
  have hpaint := painted_glyphAt h hb (hag.cursorX ▸ hwf.column) (hag.cursorY ▸ hwf.row)
    (colours s.colour) s
  have hdrawn := drawn_drawCharacter v b (s.cursorX * v.fontWidth) (s.cursorY * v.fontHeight)
    (colours s.colour) s
  obtain ⟨u, hu⟩ : ∃ u, drawCharacter v b (s.cursorX * v.fontWidth) (s.cursorY * v.fontHeight)
    (colours s.colour) s = u := ⟨_, rfl⟩
  rw [hu, hag.cursorX, hag.cursorY, hag.colour] at hpaint
  rw [hu] at hdrawn
  -- the glyph is in the cell, and the cursor has not moved yet
  obtain ⟨w, hw⟩ : ∃ w, g.write (some (b, colours g.colour)) = w := ⟨_, rfl⟩
  have hagw : Agrees u w := by
    have hagu := hag.drawn hdrawn
    subst hw
    exact ⟨hagu.cursorX, hagu.cursorY, hagu.colour, hagu.waitingColour⟩
  have hmw : Shows v u.backBuffer w.cells := by
    subst hw
    exact hm.draw h hwf.column hwf.row hwf.cursor_blank hpaint
  have hcolumn : w.cursorX < v.terminalWidth.toNat := by
    subst hw
    exact hwf.column
  have hrow : w.cursorY < v.terminalHeight.toNat := by
    subst hw
    exact hwf.row
  have hlt := v.terminalWidth.toNat_lt
  have hone : (1 : UInt32).toNat = 1 := rfl
  have hnext : (u.cursorX + 1).toNat = w.cursorX + 1 := by
    rw [UInt32.toNat_add, hone, hagw.cursorX]
    omega
  have hiff : u.cursorX + 1 = v.terminalWidth ↔ ¬ w.cursorX + 1 < v.terminalWidth.toNat := by
    rw [← UInt32.toNat_inj, hnext]
    omega
  unfold putGlyph Grid.advance
  dsimp only
  rw [hu, hw]
  by_cases hlast : w.cursorX + 1 < v.terminalWidth.toNat
  · rw [if_neg fun heq => hiff.1 heq hlast, if_pos hlast]
    exact ⟨⟨hnext, hagw.cursorY, hagw.colour, hagw.waitingColour⟩, hmw⟩
  · rw [if_pos (hiff.2 hlast), if_neg hlast]
    exact nextLine_refines h hagw.home hrow hmw

/-- The cursor drawn at the end of `terminalPut`. -/
theorem drawCursor_refines (h : v.Fits) (hcursor : v.font.Finds underscore) (hag : Agrees s g)
    (hwf : g.Wf v.terminalWidth.toNat v.terminalHeight.toNat) (hm : Shows v s.backBuffer g.cells) :
    Agrees (drawCursor v (colours s.colour) s) g ∧
      Shows v (drawCursor v (colours s.colour) s).backBuffer g.withCursor.cells := by
  obtain ⟨hpaint, hdrawn⟩ := painted_drawCursor h hcursor hag hwf (colours s.colour)
  refine ⟨hag.drawn hdrawn, ?_⟩
  rw [hag.colour] at hpaint ⊢
  exact hm.draw h hwf.column hwf.row hwf.cursor_blank hpaint

/-- What `terminalPut` starts from: the cursor may be on the screen or not. -/
structure Ready (v : Video) (s : Terminal) (g : Grid) : Prop where
  agrees : Agrees s g
  wf : g.Wf v.terminalWidth.toNat v.terminalHeight.toNat
  shown : Shows v s.backBuffer g.cells ∨ Shows v s.backBuffer g.withCursor.cells

/-- The bytes a terminal may be sent: a byte that is drawn has a glyph, and a backspace is not for
the start of the screen. -/
structure Legal (v : Video) (g : Grid) (b : UInt8) : Prop where
  finds : g.Draws b → v.font.Finds b
  room : g.waitingColour = false → b = backspace → g.cursorX ≠ 0 ∨ g.cursorY ≠ 0

/-- **One byte.** Afterwards the screen is the picture of the grid with its cursor. -/
theorem terminalPut_refines (h : v.Fits) (hcursor : v.font.Finds underscore) (hr : Ready v s g)
    (hb : Legal v g b) :
    Agrees (terminalPut v s b) (g.put v.terminalWidth.toNat v.terminalHeight.toNat b) ∧
      Shows v (terminalPut v s b).backBuffer
        (g.put v.terminalWidth.toNat v.terminalHeight.toNat b).withCursor.cells := by
  obtain ⟨hag, hwf, hshown⟩ := hr
  -- the cursor is erased, which leaves its cell blank
  obtain ⟨hpaint, hdrawn⟩ := painted_drawCursor h hcursor hag hwf 0
  have hagu := hag.drawn hdrawn
  have hmu := Shows.erase hshown h hwf.column hwf.row hwf.cursor_blank hpaint
  unfold terminalPut
  dsimp only
  generalize drawCursor v 0 s = u at *
  -- and the cursor is drawn after the byte, whatever it was
  suffices hbyte : ∀ w, w = (if u.waitingColour then { u with waitingColour := false, colour := b }
      else if b = backspace then putBackspace v u
      else if b = newline then putNewline v u
      else if b = ttyClear then putClear v u
      else if b = terminalColour then { u with waitingColour := true }
      else putGlyph v b u) →
      Agrees w (g.put v.terminalWidth.toNat v.terminalHeight.toNat b) ∧
        Shows v w.backBuffer (g.put v.terminalWidth.toNat v.terminalHeight.toNat b).cells by
    obtain ⟨hagw, hmw⟩ := hbyte _ rfl
    exact drawCursor_refines h hcursor hagw (Grid.wf_put hwf b) hmw
  rintro _ rfl
  have hdraws := hb.finds
  have hroom := hb.room
  unfold Grid.put
  rw [hagu.waitingColour]
  unfold Grid.Draws at hdraws
  split_ifs with hwaiting hback hnewline hclear hcolour
  · exact ⟨⟨hagu.cursorX, hagu.cursorY, rfl, rfl⟩, hmu⟩
  · exact putBackspace_refines h hagu hwf (hroom (by simpa using hwaiting) hback) hmu
  · exact putNewline_refines h hagu hwf hmu
  · exact putClear_refines h hagu
  · exact ⟨⟨hagu.cursorX, hagu.cursorY, hagu.colour, rfl⟩, hmu⟩
  · exact putGlyph_refines h hagu hwf
      (hdraws ⟨by simpa using hwaiting, hback, hnewline, hclear, hcolour⟩) hmu

end Put

/-! ### Streams of bytes -/

section Stream

variable {v : Video}

theorem ready_initTerminal (h : v.Fits) (framebuffer backBuffer : Cells UInt32)
    (displayObtained : Bool) :
    Ready v (initTerminal v framebuffer backBuffer displayObtained) .init := by
  refine ⟨⟨rfl, rfl, rfl, rfl⟩, Grid.wf_init h.columns_pos h.rows_pos, Or.inl fun i hi => ?_⟩
  have hcount : (v.pitch * v.height).toNat = v.pitch.toNat * v.height.toNat := by
    rw [UInt32.toNat_mul, Nat.mod_eq_of_lt h.small]
  unfold initTerminal setMemory Grid.init
  dsimp only
  rw [pixel_blank, Cells.fill_cell, hcount, if_pos ⟨Nat.zero_le i, by omega⟩]

/-- The grid after a stream of bytes. -/
def Grid.putAll (columns rows : ℕ) (g : Grid) (bytes : List UInt8) : Grid :=
  bytes.foldl (Grid.put columns rows) g

/-- Every byte of the stream is legal when it is put. -/
def LegalStream (v : Video) : Grid → List UInt8 → Prop
  | _, [] => True
  | g, b :: bytes =>
    Legal v g b ∧ LegalStream v (g.put v.terminalWidth.toNat v.terminalHeight.toNat b) bytes

/-- From one byte to a stream. -/
theorem foldl_terminalPut_refines (h : v.Fits) (hcursor : v.font.Finds underscore)
    (bytes : List UInt8) {s : Terminal} {g : Grid} (hr : Ready v s g)
    (hlegal : LegalStream v g bytes) (hne : bytes ≠ []) :
    Shows v (bytes.foldl (terminalPut v) s).backBuffer
      (g.putAll v.terminalWidth.toNat v.terminalHeight.toNat bytes).withCursor.cells := by
  induction bytes generalizing s g with
  | nil => exact absurd rfl hne
  | cons b bytes ih =>
    obtain ⟨hag, hm⟩ := terminalPut_refines h hcursor hr hlegal.1
    cases bytes with
    | nil => exact hm
    | cons b' bytes =>
      exact ih ⟨hag, Grid.wf_put hr.wf b, Or.inr hm⟩ hlegal.2 (List.cons_ne_nil _ _)

end Stream

/-- **The terminal is a grid of characters.** After a stream of bytes the back buffer is, pixel for
pixel, the picture of the grid with the cursor in its cell. The glyphs drawn, and that of the cursor,
start less than `2 ^ 32` bytes into the data of the font. -/
theorem terminal_refines_grid (width height pitch : UInt32) (font : PsfFile)
    (framebuffer backBuffer : Cells UInt32) (displayObtained : Bool) (bytes : List UInt8)
    (hcolumn : font.width.toNat + 1 ≤ width.toNat) (hrow : font.height.toNat ≤ height.toNat)
    (hheight : 0 < font.height.toNat) (hpitch : width.toNat ≤ pitch.toNat)
    (hsmall : pitch.toNat * height.toNat < 2 ^ 32) (hcursor : font.Finds underscore)
    (hne : bytes ≠ []) (hlegal : LegalStream (initVideo width height pitch font) .init bytes) :
    let v := initVideo width height pitch font
    let s := bytes.foldl (terminalPut v) (initTerminal v framebuffer backBuffer displayObtained)
    let g := Grid.init.putAll v.terminalWidth.toNat v.terminalHeight.toNat bytes
    ∀ i < pitch.toNat * height.toNat, s.backBuffer.cell i = pixel v g.withCursor.cells i :=
  have hfits := fits_initVideo hcolumn hrow hheight hpitch hsmall
  foldl_terminalPut_refines hfits hcursor bytes
    (ready_initTerminal hfits framebuffer backBuffer displayObtained) hlegal hne

/-- A dot is drawn and taken back. -/
theorem terminal_refines_grid_dot :
    let v := initVideo 4 2 4 dotFont
    let s := [65, 8].foldl (terminalPut v) (initTerminal v ⟨fun _ => 0, []⟩ ⟨fun _ => 0, []⟩ false)
    let g := Grid.init.putAll v.terminalWidth.toNat v.terminalHeight.toNat [65, 8]
    ∀ i < 4 * 2, s.backBuffer.cell i = pixel v g.withCursor.cells i :=
  terminal_refines_grid 4 2 4 dotFont ⟨fun _ => 0, []⟩ ⟨fun _ => 0, []⟩ false [65, 8] (by decide) (by decide)
    (by decide) (by decide) (by decide) ⟨by decide, by decide⟩ (by decide)
    ⟨⟨fun _ => ⟨by decide, by decide⟩, fun _ h => absurd h (by decide)⟩,
      ⟨fun h => absurd rfl h.2.1, fun _ _ => Or.inl (by decide)⟩, trivial⟩

/-- A font of 128 glyphs of `2 ^ 26` bytes, of which glyph 31 alone is not empty. -/
def longFont : PsfFile :=
  ⟨0x4000000, 0x4000000, 8, fun k => if k = 31 * 0x4000000 then 0x80 else 0⟩

/-- The cursor of this font is drawn with glyph 31: in 32 bits `2 ^ 26 * 95` is `2 ^ 26 * 31`. -/
theorem longFont_cursor :
    let v := initVideo 9 0x4000000 9 longFont
    let s := [terminalColour].foldl (terminalPut v) (initTerminal v ⟨fun _ => 0, []⟩ ⟨fun _ => 0, []⟩ false)
    let g := Grid.init.putAll v.terminalWidth.toNat v.terminalHeight.toNat [terminalColour]
    longFont.glyphSize.toNat = longFont.height.toNat * rowBytes longFont.width.toNat ∧
      v.terminalWidth.toNat = 1 ∧ v.terminalHeight.toNat = 1 ∧ 9 * 0x4000000 < 2 ^ 32 ∧
      ¬ Grid.init.Draws terminalColour ∧ terminalColour ≠ backspace ∧
      s.backBuffer.cell 0 = 0x989898 ∧ pixel v g.withCursor.cells 0 = 0 := by
  refine ⟨by decide, by decide, by decide, by decide, fun h => h.2.2.2.2 rfl, by decide, ?_, ?_⟩
  · -- the byte leaves the cursor and the colour as they are
    obtain ⟨v, hv⟩ : ∃ v, initVideo 9 0x4000000 9 longFont = v := ⟨_, rfl⟩
    obtain ⟨t, ht⟩ : ∃ t, drawCursor v 0 (initTerminal v ⟨fun _ => 0, []⟩ ⟨fun _ => 0, []⟩ false) = t := ⟨_, rfl⟩
    have hdrawn : Drawn (initTerminal v ⟨fun _ => 0, []⟩ ⟨fun _ => 0, []⟩ false) t :=
      ht ▸ drawn_drawCharacter _ _ _ _ _ _
    rw [Drawn] at hdrawn
    have hput : [terminalColour].foldl (terminalPut v) (initTerminal v ⟨fun _ => 0, []⟩ ⟨fun _ => 0, []⟩ false) =
        drawCharacter v underscore (0 * v.fontWidth) (0 * v.fontHeight) (colours 1)
          { t with waitingColour := true } := by
      rw [List.foldl_cons, List.foldl_nil]
      unfold terminalPut
      dsimp only
      rw [ht, hdrawn]
      rfl
    have hpaint := @painted_drawCharacter v (by subst hv; decide) (by subst hv; decide)
      underscore (0 * v.fontWidth) (0 * v.fontHeight) (colours 1) { t with waitingColour := true }
    have hmem : 0 ∈ drawing v.pitch.toNat ((0 * v.fontHeight * v.pitch).toNat + (0 * v.fontWidth).toNat)
        v.font.width.toNat v.font.height.toNat
        (glyphBit v.font (v.font.glyphSize * charToUInt32 underscore).toNat) := by
      subst hv
      exact ⟨by decide, by decide, by decide, by decide⟩
    rw [hv, hput, hpaint.inside 0 hmem]
    rfl
  · decide

end Naul
