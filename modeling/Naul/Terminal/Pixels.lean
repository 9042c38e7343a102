import Naul.Terminal.Draw

/-!
# What drawing stores in the back buffer

A glyph is painted without touching the pixels its bits leave out. `painted_drawCharacter` says which
cells of the back buffer `drawCharacter` makes its colour, `painted_clearRows` which ones the loop of
a backspace makes black; the others keep what they held. The rows of a drawing lie `pitch` apart.
-/

namespace Naul

namespace Terminal

variable {v : Video} {font : PsfFile} {colour : UInt32} {s s' : Terminal} {p : Pen}

/-- Only the two buffers have changed. -/
def Drawn (s s' : Terminal) : Prop :=
  s' = { s with framebuffer := s'.framebuffer, backBuffer := s'.backBuffer }

theorem Drawn.refl (s : Terminal) : Drawn s s := rfl

theorem Drawn.trans {s'' : Terminal} (h : Drawn s s') (h' : Drawn s' s'') : Drawn s s'' := by
  rw [Drawn] at *
  rw [h'] at *
  rw [h]

theorem drawn_paint (address : ℕ) (c : UInt32) (s : Terminal) : Drawn s (s.paint address c) := rfl

@[simp] theorem paint_backBuffer (address : ℕ) (c : UInt32) (s : Terminal) :
    (s.paint address c).backBuffer = s.backBuffer.store address c := rfl

/-! ### One row of a glyph -/

/-- The number of bytes of a row of pixels. -/
def rowBytes (width : ℕ) : ℕ := (width + 7) / 8

/-- The bit for column `dx` in the row of a glyph that starts at `row`. -/
def rowBit (font : PsfFile) (row dx : ℕ) : Bool := bitSet (font.data (row + dx / 8)) (dx % 8)

theorem drawBits_pen (font : PsfFile) (colour : UInt32) (x n : ℕ) (p : Pen) :
    (drawBits font colour x n p).glyph = p.glyph ∧
      (drawBits font colour x n p).address = p.address + n ∧
      Drawn p.screen (drawBits font colour x n p).screen := by
  induction n generalizing x p with
  | zero => exact ⟨rfl, rfl, .refl _⟩
  | succ n ih =>
    obtain ⟨hglyph, haddress, hdrawn⟩ := ih (x + 1) { p with
      screen := if bitSet (font.data p.glyph) x then p.screen.paint p.address colour else p.screen
      address := p.address + 1 }
    refine ⟨hglyph, ?_, Drawn.trans ?_ hdrawn⟩
    · rw [drawBits, haddress, Nat.add_assoc, Nat.add_comm 1]
    · split_ifs
      · exact drawn_paint _ _ _
      · exact .refl _

/-- The bits of one byte. -/
theorem painted_drawBits (font : PsfFile) (colour : UInt32) (x n : ℕ) (p : Pen) :
    Cells.Painted {j | p.address ≤ j ∧ j < p.address + n ∧
        bitSet (font.data p.glyph) (x + (j - p.address)) = true} colour
      p.screen.backBuffer (drawBits font colour x n p).screen.backBuffer := by
  induction n generalizing x p with
  | zero =>
    refine Cells.painted_of_empty ?_ colour _
    rintro j ⟨hlo, hhi, -⟩
    omega
  | succ n ih =>
    have hbit : Cells.Painted {j | j = p.address ∧ bitSet (font.data p.glyph) x = true} colour
        p.screen.backBuffer (if bitSet (font.data p.glyph) x then p.screen.paint p.address colour
          else p.screen).backBuffer := by
      split_ifs with hset
      · exact (Cells.painted_store _ p.address colour).congr fun j => ⟨fun h => ⟨h, hset⟩, And.left⟩
      · exact Cells.painted_of_empty (fun j h => hset h.2) colour _
    have hrest := ih (x + 1) { p with
      screen := if bitSet (font.data p.glyph) x then p.screen.paint p.address colour else p.screen
      address := p.address + 1 }
    dsimp only at hrest
    refine (hbit.trans hrest).congr fun j => ?_
    constructor
    · rintro (⟨rfl, hset⟩ | ⟨hlo, hhi, hset⟩)
      · exact ⟨le_rfl, by omega, by rwa [Nat.sub_self]⟩
      · refine ⟨by omega, by omega, ?_⟩
        rwa [show x + (j - p.address) = x + 1 + (j - (p.address + 1)) by omega]
    · rintro ⟨hlo, hhi, hset⟩
      by_cases hj : j = p.address
      · exact Or.inl ⟨hj, by rwa [hj, Nat.sub_self] at hset⟩
      · refine Or.inr ⟨by omega, by omega, ?_⟩
        rwa [show x + (j - p.address) = x + 1 + (j - (p.address + 1)) by omega] at hset

theorem drawRow_pen (font : PsfFile) (colour : UInt32) (width : ℕ) (p : Pen) :
    (drawRow font colour width p).glyph = p.glyph + rowBytes width ∧
      (drawRow font colour width p).address = p.address + width ∧
      Drawn p.screen (drawRow font colour width p).screen := by
  induction width, p using drawRow.induct font colour with
  | case1 p =>
    rw [drawRow, if_pos rfl]
    exact ⟨rfl, rfl, .refl _⟩
  | case2 width p hne amount q ih =>
    obtain ⟨hglyph, haddress, hdrawn⟩ := drawBits_pen font colour 0 amount p
    obtain ⟨ihglyph, ihaddress, ihdrawn⟩ := ih
    have hamount : amount = min 8 width := rfl
    rw [drawRow, if_neg hne]
    refine ⟨ihglyph.trans ?_, ihaddress.trans ?_, hdrawn.trans ihdrawn⟩
    · simp only [q, hglyph, rowBytes]
      omega
    · simp only [q, haddress]
      omega

/-- A row of a glyph. -/
theorem painted_drawRow (font : PsfFile) (colour : UInt32) (width : ℕ) (p : Pen) :
    Cells.Painted {j | p.address ≤ j ∧ j < p.address + width ∧
        rowBit font p.glyph (j - p.address) = true} colour
      p.screen.backBuffer (drawRow font colour width p).screen.backBuffer := by
  induction width, p using drawRow.induct font colour with
  | case1 p =>
    rw [drawRow, if_pos rfl]
    refine Cells.painted_of_empty ?_ colour _
    rintro j ⟨hlo, hhi, -⟩
    omega
  | case2 width p hne amount q ih =>
    obtain ⟨hglyph, haddress, -⟩ := drawBits_pen font colour 0 amount p
    have hbits := painted_drawBits font colour 0 amount p
    have hamount : amount = min 8 width := rfl
    rw [drawRow, if_neg hne]
    refine (hbits.trans ih).congr fun j => ?_
    simp only [Set.mem_union, Set.mem_ofPred_eq, q, hglyph, haddress, rowBit, zero_add]
    -- in this byte the column is the bit, and later columns are in later bytes
    constructor
    · rintro (⟨hlo, hhi, hset⟩ | ⟨hlo, hhi, hset⟩)
      · refine ⟨hlo, by omega, ?_⟩
        rwa [Nat.div_eq_of_lt (by omega), Nat.mod_eq_of_lt (by omega), Nat.add_zero]
      · refine ⟨by omega, by omega, ?_⟩
        rwa [show p.glyph + (j - p.address) / 8 = p.glyph + 1 + (j - (p.address + amount)) / 8 by omega,
          show (j - p.address) % 8 = (j - (p.address + amount)) % 8 by omega]
    · rintro ⟨hlo, hhi, hset⟩
      rcases Nat.lt_or_ge j (p.address + amount) with hlt | hge
      · refine Or.inl ⟨hlo, hlt, ?_⟩
        rwa [Nat.div_eq_of_lt (by omega), Nat.mod_eq_of_lt (by omega), Nat.add_zero] at hset
      · refine Or.inr ⟨hge, by omega, ?_⟩
        rwa [show p.glyph + (j - p.address) / 8 = p.glyph + 1 + (j - (p.address + amount)) / 8 by omega,
          show (j - p.address) % 8 = (j - (p.address + amount)) % 8 by omega] at hset

/-! ### All rows -/

theorem drawRows_drawn (v : Video) (colour : UInt32) (n : ℕ) (p : Pen) :
    Drawn p.screen (drawRows v colour n p).screen := by
  induction n generalizing p with
  | zero => exact .refl _
  | succ n ih => exact (drawRow_pen _ _ _ _).2.2.trans (ih _)

/-- The bit for column `dx` and row `dy` of the glyph that starts at `base`. -/
def glyphBit (font : PsfFile) (base dx dy : ℕ) : Bool :=
  rowBit font (base + dy * rowBytes font.width.toNat) dx

/-- The pixels of a drawing of `width` columns and `height` rows at `address`, where `bit` says
which are set. -/
def drawing (pitch address width height : ℕ) (bit : ℕ → ℕ → Bool) : Set ℕ :=
  {j | address ≤ j ∧ (j - address) / pitch < height ∧ (j - address) % pitch < width ∧
    bit ((j - address) % pitch) ((j - address) / pitch) = true}

/-- The pointer after the `width` pixels of a row and the rest of the screen's row. -/
theorem address_next_row {width : UInt32} (hwidth : width.toNat ≤ v.pitch.toNat) (address : ℕ) :
    address + width.toNat + (v.pitch - width).toNat = address + v.pitch.toNat := by
  rw [UInt32.toNat_sub_of_le _ _ (UInt32.le_iff_toNat_le.2 hwidth)]
  omega

/-- A drawing is its first row and the drawing of its other rows. -/
theorem mem_drawing_succ {pitch address width height j : ℕ} {bit : ℕ → ℕ → Bool}
    (hwidth : width ≤ pitch) (hpos : 0 < pitch) :
    j ∈ drawing pitch address width (height + 1) bit ↔
      (address ≤ j ∧ j < address + width ∧ bit (j - address) 0 = true) ∨
        j ∈ drawing pitch (address + pitch) width height fun dx dy => bit dx (dy + 1) := by
  simp only [drawing, Set.mem_ofPred_eq]
  by_cases hfirst : j < address + pitch
  · constructor
    · rintro ⟨hlo, -, hcol, hset⟩
      rw [Nat.mod_eq_of_lt (by omega)] at hcol hset
      rw [Nat.div_eq_of_lt (by omega)] at hset
      exact Or.inl ⟨hlo, by omega, hset⟩
    · rintro (⟨hlo, hhi, hset⟩ | ⟨hlo, -⟩)
      · rw [Nat.mod_eq_of_lt (by omega), Nat.div_eq_of_lt (by omega)]
        exact ⟨hlo, Nat.succ_pos _, by omega, hset⟩
      · omega
  · obtain ⟨d, rfl⟩ : ∃ d, j = address + pitch + d := ⟨j - (address + pitch), by omega⟩
    rw [show address + pitch + d - address = d + pitch by omega, Nat.add_sub_cancel_left,
      Nat.add_div_right _ hpos, Nat.add_mod_right]
    constructor
    · rintro ⟨-, hrow, hcol, hset⟩
      exact Or.inr ⟨Nat.le_add_right _ _, by omega, hcol, hset⟩
    · rintro (⟨-, hhi, -⟩ | ⟨-, hrow, hcol, hset⟩)
      · omega
      · exact ⟨by omega, by omega, hcol, hset⟩

theorem drawing_zero (pitch address width : ℕ) (bit : ℕ → ℕ → Bool) (j : ℕ) :
    j ∉ drawing pitch address width 0 bit := fun h => Nat.not_lt_zero _ h.2.1

/-- The rows of a glyph, `pitch` pixels apart. -/
theorem painted_drawRows (hwidth : v.font.width.toNat ≤ v.pitch.toNat) (hpos : 0 < v.pitch.toNat)
    (colour : UInt32) (n : ℕ) (p : Pen) :
    Cells.Painted
      (drawing v.pitch.toNat p.address v.font.width.toNat n (glyphBit v.font p.glyph)) colour
      p.screen.backBuffer (drawRows v colour n p).screen.backBuffer := by
  induction n generalizing p with
  | zero => exact Cells.painted_of_empty (drawing_zero _ _ _ _) colour _
  | succ n ih =>
    obtain ⟨hglyph, haddress, -⟩ := drawRow_pen v.font colour v.font.width.toNat p
    have hrow := painted_drawRow v.font colour v.font.width.toNat p
    have hnext := address_next_row hwidth p.address
    have hpen : ({ drawRow v.font colour v.font.width.toNat p with
        address := (drawRow v.font colour v.font.width.toNat p).address +
          (v.pitch - v.font.width).toNat } : Pen) =
        ⟨p.glyph + rowBytes v.font.width.toNat, p.address + v.pitch.toNat,
          (drawRow v.font colour v.font.width.toNat p).screen⟩ := by
      simp only [haddress, hglyph, hnext]
    have hrest := ih ⟨p.glyph + rowBytes v.font.width.toNat, p.address + v.pitch.toNat,
      (drawRow v.font colour v.font.width.toNat p).screen⟩
    rw [drawRows, hpen]
    refine (hrow.trans hrest).congr fun j => ?_
    have hbit : glyphBit v.font (p.glyph + rowBytes v.font.width.toNat) =
        fun dx dy => glyphBit v.font p.glyph dx (dy + 1) := by
      funext dx dy
      rw [glyphBit, glyphBit, Nat.add_assoc, Nat.succ_mul, Nat.add_comm (dy * _)]
    rw [mem_drawing_succ hwidth hpos, Set.mem_union, hbit, glyphBit, Nat.zero_mul, Nat.add_zero]
    rfl

/-- The pixels `drawCharacter` paints. -/
theorem painted_drawCharacter (hwidth : v.font.width.toNat ≤ v.pitch.toNat)
    (hpos : 0 < v.pitch.toNat) (character : UInt8) (x y colour : UInt32) (s : Terminal) :
    Cells.Painted
      (drawing v.pitch.toNat ((y * v.pitch).toNat + x.toNat) v.font.width.toNat v.font.height.toNat
        (glyphBit v.font (v.font.glyphSize * charToUInt32 character).toNat)) colour
      s.backBuffer (drawCharacter v character x y colour s).backBuffer :=
  painted_drawRows hwidth hpos colour v.font.height.toNat
    ⟨(v.font.glyphSize * charToUInt32 character).toNat, (y * v.pitch).toNat + x.toNat, s⟩

theorem drawn_drawCharacter (v : Video) (character : UInt8) (x y colour : UInt32) (s : Terminal) :
    Drawn s (drawCharacter v character x y colour s) :=
  drawRows_drawn v colour v.font.height.toNat
    ⟨(v.font.glyphSize * charToUInt32 character).toNat, (y * v.pitch).toNat + x.toNat, s⟩

/-! ### Clearing a cell -/

theorem painted_clearRow (address n : ℕ) (s : Terminal) :
    Cells.Painted (Set.Ico address (address + n)) 0 s.backBuffer (clearRow address n s).backBuffer ∧
      Drawn s (clearRow address n s) := by
  induction n generalizing address s with
  | zero => exact ⟨Cells.painted_of_empty (fun j hj => by simp at hj) 0 _, .refl _⟩
  | succ n ih =>
    obtain ⟨hpainted, hdrawn⟩ := ih (address + 1) (s.paint address 0)
    refine ⟨((Cells.painted_store _ address 0).trans hpainted).congr fun j => ?_,
      (drawn_paint address 0 s).trans hdrawn⟩
    simp only [Set.mem_union, Set.mem_singleton_iff, Set.mem_Ico]
    omega

/-- A cell that a backspace clears is a drawing with all its pixels set. -/
theorem painted_clearRows (hwidth : v.fontWidth.toNat ≤ v.pitch.toNat) (hpos : 0 < v.pitch.toNat)
    (address n : ℕ) (s : Terminal) :
    Cells.Painted (drawing v.pitch.toNat address v.fontWidth.toNat n fun _ _ => true) 0
        s.backBuffer (clearRows v address n s).backBuffer ∧
      Drawn s (clearRows v address n s) := by
  induction n generalizing address s with
  | zero => exact ⟨Cells.painted_of_empty (drawing_zero _ _ _ _) 0 _, .refl _⟩
  | succ n ih =>
    obtain ⟨hrow, hrowdrawn⟩ := painted_clearRow address v.fontWidth.toNat s
    obtain ⟨hrest, hrestdrawn⟩ := ih (address + v.pitch.toNat) (clearRow address v.fontWidth.toNat s)
    rw [clearRows, address_next_row hwidth]
    refine ⟨(hrow.trans hrest).congr fun j => ?_, hrowdrawn.trans hrestdrawn⟩
    rw [mem_drawing_succ hwidth hpos, Set.mem_union, Set.mem_Ico]
    simp

end Terminal

end Naul
