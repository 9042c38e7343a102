import Naul.Terminal.Pixels

/-!
# The cursor and the bounds of the screen

A cell whose column and row are in the terminal lies within the screen, so what `drawCharacter` and a
backspace store lies within its `pitch * height` pixels: `stays_drawCharacter`, `stays_clearRows`.
Nothing here needs the product to fit in 32 bits: a product that wraps only moves a drawing towards
the start of the buffer.

The cursor leaves the terminal by one byte only, a backspace at the start of the screen, which sends
`cursorY` to `2 ^ 32 - 1` (`cursor_on_screen_iff`).
-/

namespace Naul

open Terminal

/-- What `initVideo` computes for a screen with at least one cell. -/
structure Video.Celled (v : Video) : Prop where
  fontWidth : v.fontWidth.toNat = v.font.width.toNat + 1
  fontHeight : v.fontHeight = v.font.height
  columns_pos : 0 < v.terminalWidth.toNat
  rows_pos : 0 < v.terminalHeight.toNat
  columns : v.terminalWidth.toNat * v.fontWidth.toNat ≤ v.pitch.toNat
  rows : v.terminalHeight.toNat * v.fontHeight.toNat ≤ v.height.toNat

theorem celled_initVideo {width height pitch : UInt32} {font : PsfFile} (hpitch : width ≤ pitch)
    (hcolumns : 0 < (initVideo width height pitch font).terminalWidth)
    (hrows : 0 < (initVideo width height pitch font).terminalHeight) :
    (initVideo width height pitch font).Celled := by
  have hcolumns' := UInt32.lt_iff_toNat_lt.1 hcolumns
  have hrows' := UInt32.lt_iff_toNat_lt.1 hrows
  refine ⟨?_, rfl, hcolumns', hrows', ?_, ?_⟩
  · -- a font of `2 ^ 32 - 1` columns would leave no column of cells
    have hlt := font.width.toNat_lt
    have hne : font.width.toNat ≠ 2 ^ 32 - 1 := by
      intro heq
      have hwrap : font.width + 1 = 0 := by
        rw [← UInt32.toNat_inj, UInt32.toNat_add, heq]
        rfl
      rw [initVideo, hwrap, UInt32.toNat_div, UInt32.toNat_zero, Nat.div_zero] at hcolumns'
      exact absurd hcolumns' (lt_irrefl _)
    have hone : (1 : UInt32).toNat = 1 := rfl
    rw [initVideo, UInt32.toNat_add, hone]
    dsimp only
    omega
  · rw [initVideo, UInt32.toNat_div]
    exact (Nat.div_mul_le_self _ _).trans (UInt32.le_iff_toNat_le.1 hpitch)
  · rw [initVideo, UInt32.toNat_div]
    exact Nat.div_mul_le_self _ _

section Geometry

variable {v : Video} {x y : ℕ}

theorem Video.Celled.fontWidth_le (h : v.Celled) : v.fontWidth.toNat ≤ v.pitch.toNat :=
  (Nat.le_mul_of_pos_left _ h.columns_pos).trans h.columns

theorem Video.Celled.width_le (h : v.Celled) : v.font.width.toNat ≤ v.pitch.toNat := by
  have := h.fontWidth_le
  have := h.fontWidth
  omega

theorem Video.Celled.pitch_pos (h : v.Celled) : 0 < v.pitch.toNat := by
  have := h.fontWidth_le
  have := h.fontWidth
  omega

/-- A cell lies within the rows of the screen. -/
theorem Video.Celled.column_end (h : v.Celled) (hx : x < v.terminalWidth.toNat) :
    x * v.fontWidth.toNat + v.fontWidth.toNat ≤ v.pitch.toNat := by
  have := Nat.mul_le_mul_right v.fontWidth.toNat (Nat.succ_le_of_lt hx)
  rw [Nat.succ_mul] at this
  exact this.trans h.columns

theorem Video.Celled.row_end (h : v.Celled) (hy : y < v.terminalHeight.toNat) :
    y * v.fontHeight.toNat + v.fontHeight.toNat ≤ v.height.toNat := by
  have := Nat.mul_le_mul_right v.fontHeight.toNat (Nat.succ_le_of_lt hy)
  rw [Nat.succ_mul] at this
  exact this.trans h.rows

end Geometry

namespace Terminal

variable {v : Video} {S T : Set ℕ} {s s' s'' : Terminal}

/-- Every store into the two buffers from `s` to `s'` is to a pixel of `S`. -/
structure Stays (S : Set ℕ) (s s' : Terminal) : Prop where
  framebuffer : Cells.StoresIn S s.framebuffer s'.framebuffer
  backBuffer : Cells.StoresIn S s.backBuffer s'.backBuffer

theorem Stays.refl (S : Set ℕ) (s : Terminal) : Stays S s s := ⟨.refl _ _, .refl _ _⟩

theorem Stays.trans (h : Stays S s s') (h' : Stays S s' s'') : Stays S s s'' :=
  ⟨h.framebuffer.trans h'.framebuffer, h.backBuffer.trans h'.backBuffer⟩

theorem Stays.mono (h : Stays S s s') (hST : S ⊆ T) : Stays T s s' :=
  ⟨h.framebuffer.mono hST, h.backBuffer.mono hST⟩

theorem stays_paint {address : ℕ} (h : address ∈ S) (c : UInt32) (s : Terminal) :
    Stays S s (s.paint address c) := by
  refine ⟨?_, Cells.storesIn_store _ h c⟩
  unfold paint
  dsimp only
  split_ifs
  · exact .refl _ _
  · exact Cells.storesIn_store _ h c

/-! ### Drawing a character -/

theorem stays_drawBits (font : PsfFile) (colour : UInt32) (x n : ℕ) (p : Pen)
    (hS : ∀ d < n, p.address + d ∈ S) : Stays S p.screen (drawBits font colour x n p).screen := by
  induction n generalizing x p with
  | zero => exact .refl _ _
  | succ n ih =>
    have hrest := ih (x + 1) { p with
      screen := if bitSet (font.data p.glyph) x then p.screen.paint p.address colour else p.screen
      address := p.address + 1 } fun d hd => by
        have hmem := hS (d + 1) (by omega)
        rwa [Nat.add_comm d, ← Nat.add_assoc] at hmem
    refine Stays.trans ?_ hrest
    dsimp only
    split_ifs
    · exact stays_paint (hS 0 (Nat.succ_pos n)) _ _
    · exact .refl _ _

theorem stays_drawRow (font : PsfFile) (colour : UInt32) (width : ℕ) (p : Pen)
    (hS : ∀ d < width, p.address + d ∈ S) : Stays S p.screen (drawRow font colour width p).screen := by
  induction width, p using drawRow.induct font colour with
  | case1 p =>
    rw [drawRow, if_pos rfl]
    exact .refl _ _
  | case2 width p hne amount q ih =>
    have hamount : amount = min 8 width := rfl
    obtain ⟨-, haddress, -⟩ := drawBits_pen font colour 0 amount p
    have hbits := stays_drawBits font colour 0 amount p fun d hd => hS d (by omega)
    rw [drawRow, if_neg hne]
    refine hbits.trans (ih fun d hd => ?_)
    have hmem := hS (amount + d) (by omega)
    rw [← Nat.add_assoc] at hmem
    simpa only [q, haddress] using hmem

/-- The pixels of the rows lie `pitch` apart. -/
theorem stays_drawRows (hwidth : v.font.width.toNat ≤ v.pitch.toNat) (colour : UInt32) (n : ℕ)
    (p : Pen) (hS : ∀ r < n, ∀ d < v.font.width.toNat, p.address + r * v.pitch.toNat + d ∈ S) :
    Stays S p.screen (drawRows v colour n p).screen := by
  induction n generalizing p with
  | zero => exact .refl _ _
  | succ n ih =>
    obtain ⟨-, haddress, -⟩ := drawRow_pen v.font colour v.font.width.toNat p
    have hrow := stays_drawRow v.font colour v.font.width.toNat p fun d hd => by
      have hmem := hS 0 (Nat.succ_pos n) d hd
      rwa [Nat.zero_mul, Nat.add_zero] at hmem
    have hrest := ih { drawRow v.font colour v.font.width.toNat p with
      address := (drawRow v.font colour v.font.width.toNat p).address +
        (v.pitch - v.font.width).toNat }
    rw [haddress, address_next_row hwidth] at hrest
    rw [drawRows, haddress, address_next_row hwidth]
    refine hrow.trans (hrest fun r hr d hd => ?_)
    have hmem := hS (r + 1) (by omega) d hd
    rwa [Nat.succ_mul, Nat.add_comm (r * _), ← Nat.add_assoc] at hmem

/-! ### Clearing a cell -/

theorem stays_clearRow (address n : ℕ) (s : Terminal) (hS : ∀ d < n, address + d ∈ S) :
    Stays S s (clearRow address n s) := by
  induction n generalizing address s with
  | zero => exact .refl _ _
  | succ n ih =>
    refine (stays_paint (hS 0 (Nat.succ_pos n)) 0 s).trans (ih _ _ fun d hd => ?_)
    have hmem := hS (d + 1) (by omega)
    rwa [Nat.add_comm d, ← Nat.add_assoc] at hmem

theorem stays_clearRows (hwidth : v.fontWidth.toNat ≤ v.pitch.toNat) (address n : ℕ) (s : Terminal)
    (hS : ∀ r < n, ∀ d < v.fontWidth.toNat, address + r * v.pitch.toNat + d ∈ S) :
    Stays S s (clearRows v address n s) := by
  induction n generalizing address s with
  | zero => exact .refl _ _
  | succ n ih =>
    have hrow := stays_clearRow address v.fontWidth.toNat s fun d hd => by
      have hmem := hS 0 (Nat.succ_pos n) d hd
      rwa [Nat.zero_mul, Nat.add_zero] at hmem
    rw [clearRows, address_next_row hwidth]
    refine hrow.trans (ih _ _ fun r hr d hd => ?_)
    have hmem := hS (r + 1) (by omega) d hd
    rwa [Nat.succ_mul, Nat.add_comm (r * _), ← Nat.add_assoc] at hmem

/-! ### The screen -/

/-- The pixels of the screen. -/
def screen (v : Video) : Set ℕ := Set.Iio (v.pitch.toNat * v.height.toNat)

/-- The cursor is in the terminal. -/
def OnScreen (v : Video) (s : Terminal) : Prop :=
  s.cursorX < v.terminalWidth ∧ s.cursorY < v.terminalHeight

/-- A pixel of a cell of the terminal is a pixel of the screen, also when its index wraps. -/
theorem cell_subset_screen (h : v.Celled) {cx cy : UInt32} (hx : cx < v.terminalWidth)
    (hy : cy < v.terminalHeight) {r d : ℕ} (hr : r < v.fontHeight.toNat)
    (hd : d < v.fontWidth.toNat) :
    (cy * v.fontHeight * v.pitch).toNat + (cx * v.fontWidth).toNat + r * v.pitch.toNat + d ∈
      screen v := by
  have hcolumn := h.column_end (UInt32.lt_iff_toNat_lt.1 hx)
  have hrow := h.row_end (UInt32.lt_iff_toNat_lt.1 hy)
  have hx' : (cx * v.fontWidth).toNat ≤ cx.toNat * v.fontWidth.toNat := by
    rw [UInt32.toNat_mul]
    exact Nat.mod_le _ _
  have hy' : (cy * v.fontHeight * v.pitch).toNat ≤
      cy.toNat * v.fontHeight.toNat * v.pitch.toNat := by
    rw [UInt32.toNat_mul, UInt32.toNat_mul]
    exact (Nat.mod_le _ _).trans (Nat.mul_le_mul_right _ (Nat.mod_le _ _))
  have hlast : (cy.toNat * v.fontHeight.toNat + r + 1) * v.pitch.toNat ≤
      v.pitch.toNat * v.height.toNat := by
    rw [Nat.mul_comm v.pitch.toNat]
    exact Nat.mul_le_mul_right _ (by omega)
  rw [Nat.add_mul, Nat.add_mul, Nat.one_mul] at hlast
  rw [screen, Set.mem_Iio]
  omega

/-- A character drawn at the cursor stays on the screen. -/
theorem stays_drawCharacter (h : v.Celled) (hs : OnScreen v s) (character : UInt8)
    (colour : UInt32) :
    Stays (screen v) s
      (drawCharacter v character (s.cursorX * v.fontWidth) (s.cursorY * v.fontHeight) colour s) := by
  have hwidth : v.font.width.toNat < v.fontWidth.toNat := by
    rw [h.fontWidth]
    exact Nat.lt_succ_self _
  refine stays_drawRows h.width_le colour v.font.height.toNat
    ⟨(v.font.glyphSize * charToUInt32 character).toNat,
      (s.cursorY * v.fontHeight * v.pitch).toNat + (s.cursorX * v.fontWidth).toNat, s⟩
    fun r hr d hd => ?_
  exact cell_subset_screen h hs.1 hs.2 (h.fontHeight ▸ hr) (hd.trans hwidth)

/-- The cell a backspace clears stays on the screen. -/
theorem stays_clearCell (h : v.Celled) (hs : OnScreen v s) :
    Stays (screen v) s (clearRows v ((s.cursorY * v.fontHeight * v.pitch).toNat +
      (s.cursorX * v.fontWidth).toNat) v.fontHeight.toNat s) :=
  stays_clearRows h.fontWidth_le _ _ s fun _ hr _ hd => cell_subset_screen h hs.1 hs.2 hr hd

theorem stays_setMemory {dst n : ℕ} (hS : ∀ d < n, dst + d ∈ S) (c : UInt32) (m : Cells UInt32) :
    Cells.StoresIn S m (setMemory dst c n m) := by
  refine (Cells.storesIn_fill m dst c n).mono fun i hi => ?_
  have hmem := hS (i - dst) (by have := hi.2; have := hi.1; omega)
  rwa [Nat.add_sub_cancel' hi.1] at hmem

/-- The number of pixels of the screen, computed in 32 bits, is not larger. -/
theorem toNat_pixels_le (v : Video) : (v.pitch * v.height).toNat ≤ v.pitch.toNat * v.height.toNat := by
  rw [UInt32.toNat_mul]
  exact Nat.mod_le _ _

theorem stays_redrawTerminal (v : Video) (s : Terminal) : Stays (screen v) s (redrawTerminal v s) := by
  refine ⟨(Cells.storesIn_storeList _ 0 _).mono fun i hi => ?_, .refl _ _⟩
  rw [List.length_map, List.length_range, Nat.zero_add] at hi
  exact lt_of_lt_of_le hi.2 (toNat_pixels_le v)

/-- Scrolling stays on the screen. -/
theorem stays_drop (h : v.Celled) (s : Terminal) : Stays (screen v) s (drop v s) := by
  have hle : v.font.height.toNat ≤ v.height.toNat := by
    rw [← h.fontHeight]
    exact (Nat.le_mul_of_pos_left _ h.rows_pos).trans h.rows
  have hlow : (v.pitch * (v.height - v.font.height)).toNat ≤
      v.pitch.toNat * (v.height.toNat - v.font.height.toNat) := by
    rw [UInt32.toNat_mul, UInt32.toNat_sub_of_le _ _ (UInt32.le_iff_toNat_le.2 hle)]
    exact Nat.mod_le _ _
  have hhigh : (v.pitch * v.font.height).toNat ≤ v.pitch.toNat * v.font.height.toNat := by
    rw [UInt32.toNat_mul]
    exact Nat.mod_le _ _
  have hsum : v.pitch.toNat * (v.height.toNat - v.font.height.toNat) +
      v.pitch.toNat * v.font.height.toNat = v.pitch.toNat * v.height.toNat := by
    rw [← Nat.mul_add, Nat.sub_add_cancel hle]
  have hscroll : Stays (screen v) s { s with
      backBuffer := setMemory (v.pitch * (v.height - v.font.height)).toNat 0
        (v.pitch * v.font.height).toNat (copyMemory (v.pitch * v.font.height).toNat 0
          (v.pitch * (v.height - v.font.height)).toNat s.backBuffer) } := by
    refine ⟨.refl _ _, Cells.StoresIn.trans ?_ (stays_setMemory (fun d hd => ?_) 0 _)⟩
    · refine (Cells.storesIn_copy _ _ _ _).mono fun i hi => ?_
      have := hi.2
      rw [screen, Set.mem_Iio]
      omega
    · rw [screen, Set.mem_Iio]
      omega
  unfold drop
  dsimp only
  split_ifs
  · exact hscroll
  · exact hscroll.trans (stays_redrawTerminal v _)

/-! ### The bytes -/

/-- The byte is a backspace at the start of the screen, and not a colour. -/
def Leaves (s : Terminal) (b : UInt8) : Prop :=
  s.waitingColour = false ∧ b = backspace ∧ s.cursorX = 0 ∧ s.cursorY = 0

instance (s : Terminal) (b : UInt8) : Decidable (Leaves s b) := inferInstanceAs (Decidable (_ ∧ _))

/-- The cursor is on the screen after every byte but one, and everything stored is. -/
structure Kept (v : Video) (s s' : Terminal) : Prop where
  onScreen : OnScreen v s'
  stays : Stays (screen v) s s'

theorem kept_nextLine (h : v.Celled) (hs : OnScreen v s) : Kept v s (nextLine v s) := by
  unfold nextLine
  split_ifs with hrow
  · refine ⟨⟨hs.1, ?_⟩, ⟨.refl _ _, .refl _ _⟩⟩
    have hlt := UInt32.lt_iff_toNat_lt.1 hs.2
    have hth := v.terminalHeight.toNat_lt
    have hone : (1 : UInt32).toNat = 1 := rfl
    have hnext : (s.cursorY + 1).toNat = s.cursorY.toNat + 1 := by
      rw [UInt32.toNat_add, hone]
      omega
    have hne : s.cursorY.toNat + 1 ≠ v.terminalHeight.toNat :=
      fun heq => hrow (UInt32.toNat_inj.1 (hnext.trans heq))
    rw [UInt32.lt_iff_toNat_lt]
    dsimp only
    omega
  · refine ⟨?_, stays_drop h s⟩
    unfold drop redrawTerminal
    dsimp only
    split_ifs <;> exact hs

theorem Drawn.cursorY (h : Drawn s s') : s'.cursorY = s.cursorY := by
  rw [Drawn] at h
  rw [h]

theorem drawn_onScreen (hs : OnScreen v s) (hdrawn : Drawn s s') : OnScreen v s' := by
  rw [Drawn] at hdrawn
  rw [hdrawn]
  exact hs

/-- The cell before the cursor is in the terminal, unless the cursor is at the start. -/
theorem onScreen_back (h : v.Celled) (hs : OnScreen v s) (hb : ¬ (s.cursorX = 0 ∧ s.cursorY = 0)) :
    OnScreen v (if s.cursorX > 0 then { s with cursorX := s.cursorX - 1 }
      else { s with cursorY := s.cursorY - 1, cursorX := v.terminalWidth - 1 }) := by
  have hone : (1 : UInt32).toNat = 1 := rfl
  have hcolumn := UInt32.lt_iff_toNat_lt.1 hs.1
  have hrow := UInt32.lt_iff_toNat_lt.1 hs.2
  have hpred : ∀ {n : UInt32}, 0 < n → (n - 1).toNat = n.toNat - 1 := by
    intro n hn
    have hn' := UInt32.lt_iff_toNat_lt.1 hn
    rw [UInt32.toNat_zero] at hn'
    rw [UInt32.toNat_sub_of_le _ _ (UInt32.le_iff_toNat_le.2 (by rw [hone]; omega)), hone]
  split_ifs with hx
  · refine ⟨?_, hs.2⟩
    rw [UInt32.lt_iff_toNat_lt]
    dsimp only
    rw [hpred hx]
    omega
  · have hx0 : s.cursorX = 0 := UInt32.le_antisymm (UInt32.not_lt.1 hx) (UInt32.zero_le)
    have hy : 0 < s.cursorY := UInt32.pos_iff_ne_zero.2 fun hy => hb ⟨hx0, hy⟩
    constructor
    · rw [UInt32.lt_iff_toNat_lt]
      dsimp only
      rw [hpred (UInt32.lt_iff_toNat_lt.2 h.columns_pos)]
      have := h.columns_pos
      omega
    · rw [UInt32.lt_iff_toNat_lt]
      dsimp only
      rw [hpred hy]
      omega

theorem kept_putBackspace (h : v.Celled) (hs : OnScreen v s)
    (hb : ¬ (s.cursorX = 0 ∧ s.cursorY = 0)) : Kept v s (putBackspace v s) := by
  have hback := onScreen_back h hs hb
  unfold putBackspace
  dsimp only
  obtain ⟨u, hu⟩ : ∃ u, (if s.cursorX > 0 then { s with cursorX := s.cursorX - 1 }
      else { s with cursorY := s.cursorY - 1, cursorX := v.terminalWidth - 1 }) = u := ⟨_, rfl⟩
  have hmove : Stays (screen v) s u := by
    rw [← hu]
    split_ifs <;> exact ⟨.refl _ _, .refl _ _⟩
  rw [hu] at hback ⊢
  exact ⟨drawn_onScreen hback (painted_clearRows h.fontWidth_le h.pitch_pos _ _ u).2,
    hmove.trans (stays_clearCell h hback)⟩

theorem kept_putGlyph (h : v.Celled) (hs : OnScreen v s) (b : UInt8) : Kept v s (putGlyph v b s) := by
  have hdraw := stays_drawCharacter h hs b (colours s.colour)
  have hdrawn := drawn_onScreen hs (drawn_drawCharacter v b (s.cursorX * v.fontWidth)
    (s.cursorY * v.fontHeight) (colours s.colour) s)
  unfold putGlyph
  dsimp only
  generalize drawCharacter v b (s.cursorX * v.fontWidth) (s.cursorY * v.fontHeight)
    (colours s.colour) s = u at *
  have hcolumn := UInt32.lt_iff_toNat_lt.1 hdrawn.1
  have htw := v.terminalWidth.toNat_lt
  have hone : (1 : UInt32).toNat = 1 := rfl
  split_ifs with hlast
  · have hnext := kept_nextLine (s := { u with cursorX := 0 }) h
      ⟨UInt32.lt_iff_toNat_lt.2 h.columns_pos, hdrawn.2⟩
    exact ⟨hnext.onScreen, hdraw.trans ⟨hnext.stays.framebuffer, hnext.stays.backBuffer⟩⟩
  · refine ⟨⟨?_, hdrawn.2⟩, ⟨hdraw.framebuffer, hdraw.backBuffer⟩⟩
    have hnext : (u.cursorX + 1).toNat = u.cursorX.toNat + 1 := by
      rw [UInt32.toNat_add, hone]
      omega
    have hne : u.cursorX.toNat + 1 ≠ v.terminalWidth.toNat :=
      fun heq => hlast (UInt32.toNat_inj.1 (hnext.trans heq))
    rw [UInt32.lt_iff_toNat_lt]
    dsimp only
    omega

theorem kept_putClear (h : v.Celled) (s : Terminal) : Kept v s (putClear v s) := by
  have hset : ∀ m : Cells UInt32, Cells.StoresIn (screen v) m
      (setMemory 0 0 (v.pitch * v.height).toNat m) := fun m => by
    refine stays_setMemory (fun d hd => ?_) 0 m
    rw [Nat.zero_add]
    exact lt_of_lt_of_le hd (toNat_pixels_le v)
  refine ⟨⟨UInt32.lt_iff_toNat_lt.2 h.columns_pos, UInt32.lt_iff_toNat_lt.2 h.rows_pos⟩, ?_,
    hset s.backBuffer⟩
  unfold putClear
  dsimp only
  split_ifs
  · exact .refl _ _
  · exact hset s.framebuffer

theorem Drawn.leaves_iff (h : Drawn s s') {b : UInt8} : Leaves s' b ↔ Leaves s b := by
  rw [Drawn] at h
  rw [h]
  rfl

/-- **One byte** other than a backspace at the start keeps the cursor on the screen. -/
theorem kept_terminalPut (h : v.Celled) (hs : OnScreen v s) {b : UInt8} (hb : ¬ Leaves s b) :
    Kept v s (terminalPut v s b) := by
  have herase := stays_drawCharacter h hs underscore 0
  have hdrawn := drawn_drawCharacter v underscore (s.cursorX * v.fontWidth)
    (s.cursorY * v.fontHeight) 0 s
  unfold terminalPut drawCursor
  dsimp only
  generalize drawCharacter v underscore (s.cursorX * v.fontWidth) (s.cursorY * v.fontHeight) 0 s = u
    at *
  have hu := drawn_onScreen hs hdrawn
  have hb' : ¬ Leaves u b := hdrawn.leaves_iff.not.2 hb
  -- the byte itself, and then the cursor is drawn wherever it is
  suffices hbyte : ∀ w, (if u.waitingColour then { u with waitingColour := false, colour := b }
      else if b = backspace then putBackspace v u
      else if b = newline then putNewline v u
      else if b = ttyClear then putClear v u
      else if b = terminalColour then { u with waitingColour := true }
      else putGlyph v b u) = w → Kept v u w by
    have hw := hbyte _ rfl
    exact ⟨drawn_onScreen hw.onScreen (drawn_drawCharacter _ _ _ _ _ _),
      herase.trans (hw.stays.trans (stays_drawCharacter h hw.onScreen _ _))⟩
  rintro _ rfl
  split_ifs with hwaiting hback hnewline hclear hcolour
  · exact ⟨hu, .refl _ _, .refl _ _⟩
  · exact kept_putBackspace h hu fun hstart => hb' ⟨by simpa using hwaiting, hback, hstart⟩
  · have hnext := kept_nextLine (s := { u with cursorX := 0 }) h
      ⟨UInt32.lt_iff_toNat_lt.2 h.columns_pos, hu.2⟩
    exact ⟨hnext.onScreen, hnext.stays.framebuffer, hnext.stays.backBuffer⟩
  · exact kept_putClear h u
  · exact ⟨hu, .refl _ _, .refl _ _⟩
  · exact kept_putGlyph h hu b

/-- The row before row 0 is row `2 ^ 32 - 1`. -/
theorem cursorY_of_leaves (h : v.Celled) {b : UInt8} (hb : Leaves s b) :
    (terminalPut v s b).cursorY = 0 - 1 := by
  have hdrawn := drawn_drawCharacter v underscore (s.cursorX * v.fontWidth)
    (s.cursorY * v.fontHeight) 0 s
  unfold terminalPut drawCursor
  dsimp only
  generalize drawCharacter v underscore (s.cursorX * v.fontWidth) (s.cursorY * v.fontHeight) 0 s = u
    at *
  obtain ⟨hwaiting, rfl, hx, hy⟩ := hdrawn.leaves_iff.2 hb
  rw [hwaiting, if_neg Bool.false_ne_true, if_pos rfl,
    Drawn.cursorY (drawn_drawCharacter _ _ _ _ _ _)]
  unfold putBackspace
  dsimp only
  rw [hx, if_neg (by decide), hy]
  exact Drawn.cursorY (painted_clearRows h.fontWidth_le h.pitch_pos _ _ _).2

/-- A backspace at the start of the screen takes the cursor off it. -/
theorem not_onScreen_of_leaves (h : v.Celled) {b : UInt8} (hb : Leaves s b) :
    ¬ OnScreen v (terminalPut v s b) := by
  intro hon
  have hlt := UInt32.lt_iff_toNat_lt.1 hon.2
  have hmax : ((0 : UInt32) - 1).toNat = 2 ^ 32 - 1 := by decide
  have hth := v.terminalHeight.toNat_lt
  rw [cursorY_of_leaves h hb] at hlt
  omega

end Terminal

/-! ### Streams of bytes -/

section Stream

variable {v : Video} {s : Terminal}

/-- From one byte to a stream. -/
theorem kept_foldl (h : v.Celled) (hs : OnScreen v s) (bytes : List UInt8)
    (hbytes : ∀ p b q, bytes = p ++ b :: q → ¬ Leaves (p.foldl (terminalPut v) s) b) :
    Kept v s (bytes.foldl (terminalPut v) s) := by
  induction bytes generalizing s with
  | nil => exact ⟨hs, .refl _ _⟩
  | cons b bytes ih =>
    have hput := kept_terminalPut h hs (hbytes [] b bytes rfl)
    have hrest := ih hput.onScreen fun p b' q hq => hbytes (b :: p) b' q (by rw [hq]; rfl)
    exact ⟨hrest.onScreen, hput.stays.trans hrest.stays⟩

end Stream

/-- **The cursor stays on the screen** after every byte of a stream, and every pixel stored lies within
`pitch * height`, if and only if no byte is a backspace while the cursor is at the start. -/
theorem cursor_on_screen_iff {width height pitch : UInt32} {font : PsfFile}
    (framebuffer backBuffer : Cells UInt32) (displayObtained : Bool) (bytes : List UInt8)
    (hpitch : width ≤ pitch) (hcolumns : 0 < (initVideo width height pitch font).terminalWidth)
    (hrows : 0 < (initVideo width height pitch font).terminalHeight) :
    let v := initVideo width height pitch font
    let s := initTerminal v framebuffer backBuffer displayObtained
    (∀ p q, bytes = p ++ q → OnScreen v (p.foldl (terminalPut v) s) ∧
        Stays (screen v) s (p.foldl (terminalPut v) s)) ↔
      ∀ p b q, bytes = p ++ b :: q → ¬ Leaves (p.foldl (terminalPut v) s) b := by
  intro v s
  have h : v.Celled := celled_initVideo hpitch hcolumns hrows
  have hs : OnScreen v s := ⟨hcolumns, hrows⟩
  constructor
  · intro hkept p b q hq hleaves
    obtain ⟨hon, -⟩ := hkept (p ++ [b]) q (by rw [hq, List.append_assoc, List.singleton_append])
    rw [List.foldl_append, List.foldl_cons, List.foldl_nil] at hon
    exact not_onScreen_of_leaves h hleaves hon
  · intro hbytes p q hq
    have hkept := kept_foldl h hs p fun p' b q' hp =>
      hbytes p' b (q' ++ q) (by rw [hq, hp, List.append_assoc, List.cons_append])
    exact ⟨hkept.onScreen, hkept.stays⟩

/-- A font of dots. -/
def dotFont : PsfFile := ⟨1, 1, 1, fun _ => 0x80⟩

/-- A character and a new line on a screen of two cells by two. -/
theorem cursor_on_screen_dot :
    let v := initVideo 4 2 4 dotFont
    let s := initTerminal v ⟨fun _ => 0, []⟩ ⟨fun _ => 0, []⟩ false
    OnScreen v ([65, 10].foldl (terminalPut v) s) ∧
      Stays (screen v) s ([65, 10].foldl (terminalPut v) s) := by
  intro v s
  refine (cursor_on_screen_iff ⟨fun _ => 0, []⟩ ⟨fun _ => 0, []⟩ false [65, 10] (by decide)
    (by decide) (by decide)).2 (fun p b q hq hleaves => ?_) [65, 10] [] rfl
  have hmem : b ∈ ([65, 10] : List UInt8) := hq ▸ by simp
  rw [hleaves.2.1] at hmem
  exact absurd hmem (by decide)

/-- A backspace as the first byte sends the cursor to row `2 ^ 32 - 1`. -/
theorem backspace_leaves_screen :
    let v := initVideo 4 2 4 dotFont
    let s := initTerminal v ⟨fun _ => 0, []⟩ ⟨fun _ => 0, []⟩ false
    (terminalPut v s backspace).cursorY = 0xFFFFFFFF ∧ ¬ OnScreen v (terminalPut v s backspace) := by
  intro v s
  have h : v.Celled := celled_initVideo (by decide) (by decide) (by decide)
  have hleaves : Leaves s backspace := by decide
  exact ⟨cursorY_of_leaves h hleaves, not_onScreen_of_leaves h hleaves⟩

end Naul
