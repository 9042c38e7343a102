import Naul.Terminal.Pixels

/-!
# The terminal as a grid of characters

This is what the terminal is for, without pixels: a grid of cells, each blank or a character in a
colour, a cursor, and the effect of each byte. `pixel` is the picture of a grid, and `withCursor` the
grid with the cursor in its cell.

Nothing here is translated from the source, except that a byte means the same.
-/

namespace Naul

/-- The contents of the cells, by column and row. -/
abbrev Cellmap := ℕ → ℕ → Option (UInt8 × UInt32)

namespace Cellmap

def blank : Cellmap := fun _ _ => none

def set (cells : Cellmap) (x y : ℕ) (c : Option (UInt8 × UInt32)) : Cellmap :=
  fun x' y' => if x' = x ∧ y' = y then c else cells x' y'

/-- Every row moves up by one. -/
def scroll (rows : ℕ) (cells : Cellmap) : Cellmap :=
  fun x y => if y + 1 < rows then cells x (y + 1) else none

theorem set_self (cells : Cellmap) (x y : ℕ) (c : Option (UInt8 × UInt32)) :
    cells.set x y c x y = c := if_pos ⟨rfl, rfl⟩

theorem set_other (cells : Cellmap) {x y x' y' : ℕ} (h : ¬ (x' = x ∧ y' = y))
    (c : Option (UInt8 × UInt32)) : cells.set x y c x' y' = cells x' y' := if_neg h

end Cellmap

structure Grid where
  cells : Cellmap
  cursorX : ℕ
  cursorY : ℕ
  colour : UInt8
  waitingColour : Bool

namespace Grid

/-- The empty grid, with the first colour. -/
def init : Grid := ⟨.blank, 0, 0, 1, false⟩

variable (columns rows : ℕ)

/-- The cursor moves down, or everything else moves up. -/
def nextLine (g : Grid) : Grid :=
  if g.cursorY + 1 < rows then { g with cursorY := g.cursorY + 1 }
  else { g with cells := g.cells.scroll rows }

/-- The cursor moves back, at the start of a line to the end of the line before. -/
def back (g : Grid) : Grid :=
  if 0 < g.cursorX then { g with cursorX := g.cursorX - 1 }
  else { g with cursorX := columns - 1, cursorY := g.cursorY - 1 }

/-- The cursor moves on. -/
def advance (g : Grid) : Grid :=
  if g.cursorX + 1 < columns then { g with cursorX := g.cursorX + 1 }
  else nextLine rows { g with cursorX := 0 }

/-- Change the cell at the cursor. -/
def write (g : Grid) (c : Option (UInt8 × UInt32)) : Grid :=
  { g with cells := g.cells.set g.cursorX g.cursorY c }

/-- One byte. -/
def put (g : Grid) (b : UInt8) : Grid :=
  if g.waitingColour then { g with waitingColour := false, colour := b }
  else if b = backspace then (g.back columns).write none
  else if b = newline then nextLine rows { g with cursorX := 0 }
  else if b = ttyClear then { g with cells := .blank, cursorX := 0, cursorY := 0 }
  else if b = terminalColour then { g with waitingColour := true }
  else (g.write (some (b, colours g.colour))).advance columns rows

/-- The byte is drawn. -/
def Draws (g : Grid) (b : UInt8) : Prop :=
  g.waitingColour = false ∧ b ≠ backspace ∧ b ≠ newline ∧ b ≠ ttyClear ∧ b ≠ terminalColour

/-- The grid with the cursor in its cell. -/
def withCursor (g : Grid) : Grid := g.write (some (underscore, colours g.colour))

/-- The cells from the cursor on are blank, and the cursor is in the grid. -/
structure Wf (g : Grid) : Prop where
  column : g.cursorX < columns
  row : g.cursorY < rows
  blank : ∀ x < columns, ∀ y, g.cursorY < y ∨ g.cursorY = y ∧ g.cursorX ≤ x → g.cells x y = none

variable {columns rows} {g : Grid}

theorem Wf.cursor_blank (h : g.Wf columns rows) : g.cells g.cursorX g.cursorY = none :=
  h.blank _ h.column _ (Or.inr ⟨rfl, le_rfl⟩)

theorem wf_init (hcolumns : 0 < columns) (hrows : 0 < rows) : init.Wf columns rows :=
  ⟨hcolumns, hrows, fun _ _ _ _ => rfl⟩

/-- The cells after a line are blank, so that the next one may start there. -/
theorem wf_nextLine (h : g.Wf columns rows) :
    (nextLine rows { g with cursorX := 0 }).Wf columns rows := by
  have hcolumn : 0 < columns := Nat.zero_lt_of_lt h.column
  unfold nextLine
  split_ifs with hrow
  · refine ⟨hcolumn, hrow, fun x hx y hxy => h.blank x hx y ?_⟩
    simp only at hxy
    omega
  · refine ⟨hcolumn, h.row, fun x hx y hxy => ?_⟩
    have hy : ¬ y + 1 < rows := by
      simp only at hxy hrow
      omega
    exact if_neg hy

/-- The cell before the cursor becomes the cursor's cell; the others after it were after the old
cursor. -/
theorem wf_back (h : g.Wf columns rows) :
    ((g.back columns).write none).Wf columns rows := by
  have hcolumn := h.column
  have hrow := h.row
  unfold back
  split_ifs with hx
  · refine ⟨?_, hrow, fun x hx y hxy => ?_⟩
    · simp only [write]
      omega
    · simp only [write, Cellmap.set] at hxy ⊢
      split_ifs with hcursor
      · rfl
      · exact h.blank x hx y (by omega)
  · refine ⟨?_, ?_, fun x hx y hxy => ?_⟩
    · simp only [write]
      omega
    · simp only [write]
      omega
    · simp only [write, Cellmap.set] at hxy ⊢
      split_ifs with hcursor
      · rfl
      · exact h.blank x hx y (by omega)

theorem wf_advance (h : g.Wf columns rows) (c : Option (UInt8 × UInt32)) :
    ((g.write c).advance columns rows).Wf columns rows := by
  unfold advance
  split_ifs with hx
  · refine ⟨hx, h.row, fun x hx y hxy => ?_⟩
    simp only [write, Cellmap.set] at hxy ⊢
    rw [if_neg (by omega)]
    exact h.blank x hx y (by omega)
  · -- the line is full, so the cells of the next line are after the cursor
    have hfull : columns ≤ g.cursorX + 1 := not_lt.1 hx
    have hcolumn : 0 < columns := Nat.zero_lt_of_lt h.column
    unfold nextLine
    split_ifs with hrow
    · refine ⟨hcolumn, hrow, fun x hx y hxy => ?_⟩
      simp only [write, Cellmap.set] at hxy ⊢
      rw [if_neg (by omega)]
      exact h.blank x hx y (by omega)
    · refine ⟨hcolumn, h.row, fun x hx y hxy => ?_⟩
      have hy : ¬ y + 1 < rows := by
        simp only [write] at hxy hrow
        omega
      exact if_neg hy

/-- **The cells from the cursor on stay blank.** -/
theorem wf_put (h : g.Wf columns rows) (b : UInt8) : (g.put columns rows b).Wf columns rows := by
  unfold put
  split_ifs with hwaiting hback hnewline hclear hcolour
  · exact ⟨h.column, h.row, h.blank⟩
  · exact wf_back h
  · exact wf_nextLine h
  · exact ⟨Nat.zero_lt_of_lt h.column, Nat.zero_lt_of_lt h.row, fun _ _ _ _ => rfl⟩
  · exact ⟨h.column, h.row, h.blank⟩
  · exact wf_advance h _

/-! ### The picture -/

end Grid

/-- The pixel of glyph `b` at column `dx` and row `dy`. -/
def PsfFile.glyphPixel (font : PsfFile) (b : UInt8) (dx dy : ℕ) : Bool :=
  Terminal.glyphBit font (font.glyphSize.toNat * b.toNat) dx dy

/-- The colour of pixel `i` of the screen, where the cells are as given: within the grid that of the
character's glyph, and black outside the glyphs. -/
def pixel (v : Video) (cells : Cellmap) (i : ℕ) : UInt32 :=
  let px := i % v.pitch.toNat
  let py := i / v.pitch.toNat
  let x := px / v.fontWidth.toNat
  let y := py / v.fontHeight.toNat
  if x < v.terminalWidth.toNat ∧ y < v.terminalHeight.toNat then
    match cells x y with
    | none => 0
    | some (b, c) =>
      if px % v.fontWidth.toNat < v.font.width.toNat ∧
          v.font.glyphPixel b (px % v.fontWidth.toNat) (py % v.fontHeight.toNat) then
        c
      else 0
  else 0

end Naul
