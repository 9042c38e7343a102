import Naul.Lib.Cells

/-!
# Bitmaps (`include/bmp.h`, `os/src/bootloader.c`)

Two loops decode an uncompressed 24-bit bitmap, whose rows come from the bottom up and are padded to a
multiple of four bytes: `readBmp`, into a buffer, and the one in `efi_main` that draws the boot logo.
They differ in what they do at the end of a row. The logo's loop steps over the padding
(`drawSplash_eq`), `readBmp` goes on with the byte after the last pixel.

`readBmp_decodes_iff` says for which bitmaps that is right.
-/

namespace Naul

/-- The fields of a `BmpHeader` that are used. `size` is that of the file; a byte of the file is numbered
from the start of the header. -/
structure BmpHeader where
  (size offset : UInt32)
  (width height : Int32)

/-- `(image[2] << 16) | (image[1] << 8) | image[0]`. -/
def readPixel (file : ℕ → UInt8) (image : ℕ) : UInt32 :=
  (file (image + 2)).toUInt32 <<< 16 ||| (file (image + 1)).toUInt32 <<< 8 ||| (file image).toUInt32

/-- The pointer `image` or `splashData`, the bytes that have been read, the latest first, and what the
pixels are stored to. -/
structure BmpWalk (σ : Type*) where
  image : ℕ
  reads : List ℕ
  target : σ

namespace BmpWalk

section Walk

variable {σ : Type*} (file : ℕ → UInt8)

/-- The loop over the pixels of a row: from column `x`, for `n` more turns. -/
def columns (store : ℕ → UInt32 → σ → σ) (x : ℕ) : ℕ → BmpWalk σ → BmpWalk σ
  | 0, w => w
  | n + 1, w =>
    columns store (x + 1) n {
      image := w.image + 3
      reads := [w.image, w.image + 1, w.image + 2] ++ w.reads
      target := store x (readPixel file w.image) w.target }

/-- The loop over the rows: from row `y` of the file, for `n` more turns. At the end of a row `padding`
bytes are stepped over. -/
def rows (store : ℕ → ℕ → UInt32 → σ → σ) (width padding y : ℕ) : ℕ → BmpWalk σ → BmpWalk σ
  | 0, w => w
  | n + 1, w =>
    let w := columns file (store y) 0 width w
    rows store width padding (y + 1) n { w with image := w.image + padding }

end Walk

end BmpWalk

namespace BmpHeader

/-- The number of turns of `for (int32_t x = 0; x < data->width; x++)`. -/
def columnCount (data : BmpHeader) : ℕ := data.width.toInt.toNat

/-- The number of turns of `for (int32_t y = 0; y < data->height; y++)`. -/
def rowCount (data : BmpHeader) : ℕ := data.height.toInt.toNat

/-- `(data->height - y - 1) * data->width + x`. -/
def bufferIndex (data : BmpHeader) (y x : ℕ) : Int32 :=
  (data.height - .ofNat y - 1) * data.width + .ofNat x

/-- What the logo's loop adds to `splashData` at the end of a row. -/
def padding (splash : BmpHeader) : ℕ :=
  let pitch := (splash.width * 3 % 4).toUInt32
  if pitch ≠ 0 then (4 - pitch).toNat else 0

/-- The index into the framebuffer, where `pixelsPerScanLine` is that of the mode. -/
def splashIndex (splash : BmpHeader) (startX startY pixelsPerScanLine : UInt32) (y x : ℕ) : UInt32 :=
  (startY + (splash.height - .ofNat y - 1).toUInt32) * pixelsPerScanLine + (startX + .ofNat x)

end BmpHeader

/-- `readBmp(data, buffer)`; the cells are those of `buffer`. -/
def readBmp (data : BmpHeader) (file : ℕ → UInt8) (buffer : Cells UInt32) : BmpWalk (Cells UInt32) :=
  BmpWalk.rows file (fun y x colour m => m.store (data.bufferIndex y x).toInt.toNat colour)
    data.columnCount 0 0 data.rowCount ⟨data.offset.toNat, [], buffer⟩

/-- The loop in `efi_main` that draws the logo; the cells are those of the framebuffer. -/
def drawSplash (splash : BmpHeader) (startX startY pixelsPerScanLine : UInt32) (file : ℕ → UInt8)
    (framebuffer : Cells UInt32) : BmpWalk (Cells UInt32) :=
  BmpWalk.rows file
    (fun y x colour m => m.store (splash.splashIndex startX startY pixelsPerScanLine y x).toNat colour)
    splash.columnCount splash.padding 0 splash.rowCount ⟨splash.offset.toNat, [], framebuffer⟩

namespace BmpHeader

/-! ### The format -/

/-- The number of bytes of a row, with its padding. -/
def stride (data : BmpHeader) : ℕ := (3 * data.columnCount + 3) / 4 * 4

/-- A bottom-up bitmap with at least one pixel, whose file has the rows from `offset` on. -/
structure WellFormed (data : BmpHeader) : Prop where
  width : 0 < data.width.toInt
  height : 0 < data.height.toInt
  size : data.size.toNat = data.offset.toNat + data.stride * data.rowCount

/-- The colour at a row, from the top, and a column. -/
def pixelAt (data : BmpHeader) (file : ℕ → UInt8) (row column : ℕ) : UInt32 :=
  readPixel file (data.offset.toNat + (data.rowCount - 1 - row) * data.stride + 3 * column)

/-- The buffer has got the colour of every pixel, and only bytes of the image have been read. -/
structure Decodes (data : BmpHeader) (file : ℕ → UInt8) (w : BmpWalk (Cells UInt32)) : Prop where
  pixels : ∀ row < data.rowCount, ∀ column < data.columnCount,
    w.target.cell (row * data.columnCount + column) = data.pixelAt file row column
  reads : ∀ i ∈ w.reads,
    data.offset.toNat ≤ i ∧ i < data.offset.toNat + data.stride * data.rowCount

/-- The bytes of every row are also where a decoder finds them that knows nothing of the padding. -/
def RowsAgree (data : BmpHeader) (file : ℕ → UInt8) : Prop :=
  ∀ y < data.rowCount, ∀ i < 3 * data.columnCount,
    file (data.offset.toNat + y * (3 * data.columnCount) + i) =
      file (data.offset.toNat + y * data.stride + i)

end BmpHeader

/-! ### Colours -/

section Colours

variable {file : ℕ → UInt8} {i j : ℕ}

theorem readPixel_toNat (file : ℕ → UInt8) (image : ℕ) :
    (readPixel file image).toNat =
      (file (image + 2)).toNat * 2 ^ 16 + (file (image + 1)).toNat * 2 ^ 8 + (file image).toNat := by
  have h0 := (file image).toNat_lt
  have h1 := (file (image + 1)).toNat_lt
  have h2 := (file (image + 2)).toNat_lt
  have hhigh : ((file (image + 2)).toUInt32 <<< 16).toNat = (file (image + 2)).toNat <<< 16 := by
    rw [UInt32.toNat_shiftLeft, UInt8.toNat_toUInt32]
    show (file (image + 2)).toNat <<< 16 % 2 ^ 32 = _
    rw [Nat.shiftLeft_eq, Nat.mod_eq_of_lt (by omega)]
  have hmiddle : ((file (image + 1)).toUInt32 <<< 8).toNat = (file (image + 1)).toNat <<< 8 := by
    rw [UInt32.toNat_shiftLeft, UInt8.toNat_toUInt32]
    show (file (image + 1)).toNat <<< 8 % 2 ^ 32 = _
    rw [Nat.shiftLeft_eq, Nat.mod_eq_of_lt (by omega)]
  have hlow : (file (image + 1)).toNat <<< 8 ||| (file image).toNat =
      (file (image + 1)).toNat <<< 8 + (file image).toNat :=
    (Nat.shiftLeft_add_eq_or_of_lt h0 _).symm
  have hlt : (file (image + 1)).toNat <<< 8 + (file image).toNat < 2 ^ 16 := by
    rw [Nat.shiftLeft_eq]
    omega
  rw [readPixel, UInt32.toNat_or, UInt32.toNat_or, hhigh, hmiddle, UInt8.toNat_toUInt32, Nat.or_assoc,
    hlow, ← Nat.shiftLeft_add_eq_or_of_lt hlt, Nat.shiftLeft_eq, Nat.shiftLeft_eq, Nat.add_assoc]

/-- A colour determines its three bytes. -/
theorem readPixel_inj :
    readPixel file i = readPixel file j ↔
      file i = file j ∧ file (i + 1) = file (j + 1) ∧ file (i + 2) = file (j + 2) := by
  constructor
  · intro h
    have hnat := congrArg UInt32.toNat h
    rw [readPixel_toNat, readPixel_toNat] at hnat
    have hi0 := (file i).toNat_lt
    have hi1 := (file (i + 1)).toNat_lt
    have hj0 := (file j).toNat_lt
    have hj1 := (file (j + 1)).toNat_lt
    refine ⟨UInt8.toNat_inj.1 ?_, UInt8.toNat_inj.1 ?_, UInt8.toNat_inj.1 ?_⟩ <;> omega
  · rintro ⟨h0, h1, h2⟩
    rw [readPixel, readPixel, h0, h1, h2]

end Colours

/-! ### The two loops -/

namespace BmpWalk

variable {σ : Type*} {file : ℕ → UInt8}

theorem columns_walk (file : ℕ → UInt8) (store : ℕ → UInt32 → σ → σ) (x n : ℕ) (w : BmpWalk σ) :
    (columns file store x n w).image = w.image + 3 * n ∧
      (columns file store x n w).target =
        (List.range n).foldl (fun t k => store (x + k) (readPixel file (w.image + 3 * k)) t) w.target ∧
      ∀ i ∈ (columns file store x n w).reads, i ∈ w.reads ∨ w.image ≤ i ∧ i < w.image + 3 * n := by
  induction n generalizing x w with
  | zero => exact ⟨rfl, rfl, fun i hi => .inl hi⟩
  | succ n ih =>
    obtain ⟨himage, htarget, hreads⟩ := ih (x + 1) {
      image := w.image + 3
      reads := [w.image, w.image + 1, w.image + 2] ++ w.reads
      target := store x (readPixel file w.image) w.target }
    refine ⟨?_, ?_, fun i hi => ?_⟩
    · rw [columns, himage]
      dsimp only
      omega
    · rw [columns, htarget, List.range_succ_eq_map, List.foldl_cons, List.foldl_map]
      dsimp only
      congr 1
      funext t k
      rw [Nat.succ_eq_add_one, Nat.add_assoc x 1, Nat.add_comm 1, Nat.add_assoc w.image, Nat.mul_succ,
        Nat.add_comm 3]
    · have hmem := hreads i hi
      simp only [List.mem_append, List.mem_cons, List.not_mem_nil, or_false] at hmem
      rcases hmem with ((rfl | rfl | rfl) | hmem) | hrange
      · exact .inr ⟨by omega, by omega⟩
      · exact .inr ⟨by omega, by omega⟩
      · exact .inr ⟨by omega, by omega⟩
      · exact .inl hmem
      · exact .inr ⟨by omega, by omega⟩

theorem rows_walk (file : ℕ → UInt8) (store : ℕ → ℕ → UInt32 → σ → σ) (width padding y n : ℕ)
    (w : BmpWalk σ) :
    (rows file store width padding y n w).target =
        (List.range n).foldl (fun t j => (List.range width).foldl (fun t k => store (y + j) k
          (readPixel file (w.image + j * (3 * width + padding) + 3 * k)) t) t) w.target ∧
      ∀ i ∈ (rows file store width padding y n w).reads,
        i ∈ w.reads ∨ w.image ≤ i ∧ i < w.image + n * (3 * width + padding) := by
  induction n generalizing y w with
  | zero => exact ⟨rfl, fun i hi => .inl hi⟩
  | succ n ih =>
    obtain ⟨himage, htarget, hreads⟩ := columns_walk file (store y) 0 width w
    obtain ⟨ihtarget, ihreads⟩ := ih (y + 1) { columns file (store y) 0 width w with
      image := (columns file (store y) 0 width w).image + padding }
    constructor
    · rw [rows, ihtarget, List.range_succ_eq_map, List.foldl_cons, List.foldl_map]
      dsimp only
      rw [htarget, himage]
      have hnext : ∀ j k, w.image + 3 * width + padding + j * (3 * width + padding) + 3 * k =
          w.image + (j + 1) * (3 * width + padding) + 3 * k := fun j k => by ring
      simp only [Nat.zero_mul, Nat.zero_add, Nat.add_zero, Nat.succ_eq_add_one, hnext, Nat.add_assoc y 1,
        Nat.add_comm 1]
    · intro i hi
      rw [Nat.succ_mul]
      generalize n * (3 * width + padding) = rest at ihreads
      rcases ihreads i hi with hmem | hrange
      · rcases hreads i hmem with hmem | hrange
        · exact .inl hmem
        · exact .inr ⟨by omega, by omega⟩
      · dsimp only at hrange
        rw [himage] at hrange
        exact .inr ⟨by omega, by omega⟩

end BmpWalk

/-- A row stored to consecutive cells. -/
theorem foldl_row_cell (colour : ℕ → UInt32) (base width : ℕ) (m : Cells UInt32) (i : ℕ) :
    ((List.range width).foldl (fun t k => t.store (base + k) (colour k)) m).cell i =
      if base ≤ i ∧ i < base + width then colour (i - base) else m.cell i := by
  induction width with
  | zero => rw [if_neg (by omega)]; rfl
  | succ n ih =>
    rw [List.range_succ, List.foldl_append, List.foldl_cons, List.foldl_nil, Cells.store_cell, ih]
    by_cases hlast : i = base + n
    · rw [if_pos hlast, if_pos (by omega), hlast, Nat.add_sub_cancel_left]
    · rw [if_neg hlast]
      exact if_congr (by omega) rfl rfl

/-- Rows stored from the last one upward. -/
theorem foldl_rows_cell (colour : ℕ → ℕ → UInt32) (width n : ℕ) (m : Cells UInt32) (row : ℕ)
    {column : ℕ} (hcolumn : column < width) :
    ((List.range n).foldl (fun t j => (List.range width).foldl
        (fun t k => t.store ((n - 1 - j) * width + k) (colour j k)) t) m).cell (row * width + column) =
      if row < n then colour (n - 1 - row) column else m.cell (row * width + column) := by
  induction n generalizing colour m with
  | zero => rfl
  | succ n ih =>
    rw [List.range_succ_eq_map, List.foldl_cons, List.foldl_map]
    have hrest := ih (fun j => colour (j + 1)) ((List.range width).foldl
      (fun t k => t.store (n * width + k) (colour 0 k)) m)
    have hindex : ∀ j, n - 1 - j = n - (j + 1) := fun j => by omega
    simp only [hindex] at hrest
    simp only [Nat.succ_eq_add_one, Nat.add_sub_cancel, Nat.sub_zero]
    rw [hrest, foldl_row_cell]
    rcases Nat.lt_trichotomy row n with hlt | rfl | hgt
    · rw [if_pos hlt, if_pos (by omega)]
      congr 1
      omega
    · rw [if_neg (lt_irrefl _), if_pos ⟨by omega, by omega⟩, if_pos (by omega), Nat.add_sub_cancel_left,
        Nat.sub_self]
    · have hmul := Nat.mul_le_mul_right width (Nat.succ_le_of_lt hgt)
      rw [Nat.succ_mul] at hmul
      rw [if_neg (by omega), if_neg (by omega), if_neg (by omega)]

/-! ### What is decoded -/

namespace BmpHeader

variable {data : BmpHeader} {file : ℕ → UInt8}

/-- The number of pixels fits in an `int`, since that of the bytes fits in the field `size`. -/
theorem WellFormed.pixels_lt (h : data.WellFormed) : data.columnCount * data.rowCount < 2 ^ 31 := by
  have hsize := data.size.toNat_lt
  have hrow : data.columnCount * 2 ≤ data.stride := by
    rw [stride]
    omega
  have hmul := Nat.mul_le_mul_right data.rowCount hrow
  rw [h.size] at hsize
  rw [Nat.mul_right_comm] at hmul
  omega

theorem bufferIndex_toInt (h : data.WellFormed) {y x : ℕ} (hy : y < data.rowCount)
    (hx : x < data.columnCount) :
    (data.bufferIndex y x).toInt.toNat = (data.rowCount - 1 - y) * data.columnCount + x := by
  have hwidth : data.width.toInt = data.columnCount := (Int.toNat_of_nonneg h.width.le).symm
  have hheight : data.height.toInt = data.rowCount := (Int.toNat_of_nonneg h.height.le).symm
  have hcolumns := data.width.toInt_lt
  have hrows := data.height.toInt_lt
  have hpixels := h.pixels_lt
  -- the index is that of one of the pixels
  have hindex : (data.rowCount - 1 - y) * data.columnCount + x < data.columnCount * data.rowCount := by
    have hle := Nat.mul_le_mul_right data.columnCount (show data.rowCount - 1 - y + 1 ≤ data.rowCount by omega)
    rw [Nat.succ_mul, Nat.mul_comm data.rowCount] at hle
    omega
  have hfactor : (data.rowCount : ℤ) - y - 1 = (data.rowCount - 1 - y : ℕ) := by omega
  rw [bufferIndex, Int32.toInt_add, Int32.toInt_mul, Int32.toInt_sub, Int32.toInt_sub,
    Int32.toInt_ofNat_of_lt (by omega), Int32.toInt_ofNat_of_lt (by omega), hwidth, hheight, Int32.toInt_one]
  generalize hproduct : (data.rowCount - 1 - y) * data.columnCount = product at *
  rw [Int.bmod_eq_of_le_mul_two (x := (data.rowCount : ℤ) - y) (by omega) (by omega),
    Int.bmod_eq_of_le_mul_two (x := (data.rowCount : ℤ) - y - 1) (by omega) (by omega), hfactor,
    ← Nat.cast_mul, hproduct, Int.bmod_eq_of_le_mul_two (x := (product : ℤ)) (by omega) (by omega),
    Int.bmod_eq_of_le_mul_two (by omega) (by omega)]
  omega

/-- What `readBmp` stores: rows of the file that follow each other without padding. -/
theorem readBmp_cell (h : data.WellFormed) (file : ℕ → UInt8) (buffer : Cells UInt32) {row column : ℕ}
    (hrow : row < data.rowCount) (hcolumn : column < data.columnCount) :
    (readBmp data file buffer).target.cell (row * data.columnCount + column) =
      readPixel file
        (data.offset.toNat + (data.rowCount - 1 - row) * (3 * data.columnCount) + 3 * column) := by
  have hcell := foldl_rows_cell (fun j k => readPixel file
    (data.offset.toNat + j * (3 * data.columnCount) + 3 * k)) data.columnCount data.rowCount buffer row hcolumn
  rw [if_pos hrow] at hcell
  rw [readBmp, (BmpWalk.rows_walk _ _ _ _ _ _ _).1, ← hcell]
  congr 1
  refine List.foldl_ext _ _ _ fun t j hj => List.foldl_ext _ _ _ fun t k hk => ?_
  rw [List.mem_range] at hj hk
  rw [Nat.zero_add, bufferIndex_toInt h hj hk, Nat.add_zero]

/-- `readBmp` reads bytes of the image only. -/
theorem readBmp_reads (data : BmpHeader) (file : ℕ → UInt8) (buffer : Cells UInt32) :
    ∀ i ∈ (readBmp data file buffer).reads,
      data.offset.toNat ≤ i ∧ i < data.offset.toNat + data.stride * data.rowCount := by
  intro i hi
  have hrow : 3 * data.columnCount ≤ data.stride := by
    rw [stride]
    omega
  have hmul := Nat.mul_le_mul_right data.rowCount hrow
  rcases (BmpWalk.rows_walk _ _ _ _ _ _ _).2 i hi with hmem | ⟨hlo, hhi⟩
  · cases hmem
  · rw [Nat.add_zero, Nat.mul_comm data.rowCount] at hhi
    exact ⟨hlo, by dsimp only at hhi; omega⟩

/-- The rows agree for every image exactly when there is no padding, or no second row. -/
theorem rowsAgree_all_iff (h : data.WellFormed) :
    (∀ file, data.RowsAgree file) ↔ data.columnCount % 4 = 0 ∨ data.rowCount = 1 := by
  have hcolumns : 0 < data.columnCount := by
    have hwidth := h.width
    rw [columnCount]
    omega
  constructor
  · intro hall
    by_contra hne
    rw [not_or] at hne
    have hrows : 1 < data.rowCount := by
      have hheight := h.height
      have hne' := hne.2
      rw [rowCount] at hne' ⊢
      omega
    -- a file in which the first byte of the second row is the only one that is not zero
    have hfirst := hall (fun i => if i = data.offset.toNat + data.stride then 1 else 0) 1 hrows 0 (by omega)
    have hpadded : data.stride ≠ 3 * data.columnCount := by
      rw [stride]
      omega
    rw [Nat.one_mul, Nat.one_mul, Nat.add_zero, Nat.add_zero] at hfirst
    dsimp only at hfirst
    rw [if_neg (by omega), if_pos rfl] at hfirst
    cases hfirst
  · rintro (hfour | hone) file y hy i _
    · have hstride : data.stride = 3 * data.columnCount := by
        rw [stride]
        omega
      rw [hstride]
    · obtain rfl : y = 0 := by omega
      rw [Nat.zero_mul, Nat.zero_mul]

/-- `readBmp` decodes an image exactly when its rows agree. -/
theorem decodes_iff_rowsAgree (h : data.WellFormed) (file : ℕ → UInt8) (buffer : Cells UInt32) :
    data.Decodes file (readBmp data file buffer) ↔ data.RowsAgree file := by
  constructor
  · intro hdecodes y hy i hi
    have hpixel := hdecodes.pixels (data.rowCount - 1 - y) (by omega) (i / 3) (by omega)
    rw [readBmp_cell h file buffer (by omega) (by omega), pixelAt, readPixel_inj,
      show data.rowCount - 1 - (data.rowCount - 1 - y) = y by omega] at hpixel
    have hsplit : i = 3 * (i / 3) ∨ i = 3 * (i / 3) + 1 ∨ i = 3 * (i / 3) + 2 := by omega
    rcases hsplit with hi | hi | hi
    · rw [hi]
      exact hpixel.1
    · rw [hi]
      exact hpixel.2.1
    · rw [hi]
      exact hpixel.2.2
  · intro hagree
    refine ⟨fun row hrow column hcolumn => ?_, readBmp_reads data file buffer⟩
    have hbyte : ∀ b < 3, _ := fun b hb =>
      hagree (data.rowCount - 1 - row) (by omega) (3 * column + b) (by omega)
    rw [readBmp_cell h file buffer hrow hcolumn, pixelAt, readPixel_inj]
    exact ⟨hbyte 0 (by decide), hbyte 1 (by decide), hbyte 2 (by decide)⟩

/-! ### The boot logo -/

/-- The padding that the logo's loop computes, wherever there is a next row. -/
theorem padding_eq (h : data.WellFormed) (hrows : 1 < data.rowCount) :
    3 * data.columnCount + data.padding = data.stride := by
  have hwidth : data.width.toInt = data.columnCount := (Int.toNat_of_nonneg h.width.le).symm
  have hsize := data.size.toNat_lt
  have hmul := Nat.mul_le_mul_left data.stride (show 2 ≤ data.rowCount from hrows)
  have hrow : 3 * data.columnCount ≤ data.stride := by
    rw [stride]
    omega
  rw [h.size] at hsize
  -- with two rows in the file, three times the width fits in an `int`
  have hpitch : (data.width * 3 % 4).toInt = (3 * data.columnCount % 4 : ℕ) := by
    rw [Int32.toInt_mod, Int32.toInt_mul, hwidth, show (3 : Int32).toInt = 3 from rfl,
      show (4 : Int32).toInt = 4 from rfl, Int.bmod_eq_of_le_mul_two (by omega) (by omega),
      Int.tmod_eq_emod_of_nonneg (by omega)]
    omega
  have hnonneg : 0 ≤ data.width * 3 % 4 := by
    rw [Int32.le_iff_toInt_le, hpitch]
    exact Int.natCast_nonneg _
  have hnat : (data.width * 3 % 4).toUInt32.toNat = 3 * data.columnCount % 4 := by
    rw [Int32.toNat_toUInt32_of_le hnonneg, Int32.toNatClampNeg, hpitch, Int.toNat_natCast]
  have hzero : (data.width * 3 % 4).toUInt32 = 0 ↔ 3 * data.columnCount % 4 = 0 := by
    rw [← UInt32.toNat_inj, hnat, UInt32.toNat_zero]
  rw [padding, stride]
  split_ifs with hpad
  · rw [ne_eq, hzero] at hpad
    have hfour : (4 : UInt32).toNat = 4 := rfl
    rw [UInt32.toNat_sub_of_le _ _ (UInt32.le_iff_toNat_le.2 (by omega)), hnat, hfour]
    omega
  · rw [ne_eq, not_not, hzero] at hpad
    omega

/-- **The logo's loop draws the image.** Each pixel is stored where its row and column belong. -/
theorem drawSplash_eq (h : data.WellFormed) (startX startY pixelsPerScanLine : UInt32)
    (file : ℕ → UInt8) (framebuffer : Cells UInt32) :
    (drawSplash data startX startY pixelsPerScanLine file framebuffer).target =
      (List.range data.rowCount).foldl (fun t y => (List.range data.columnCount).foldl (fun t x =>
        t.store (data.splashIndex startX startY pixelsPerScanLine y x).toNat
          (data.pixelAt file (data.rowCount - 1 - y) x)) t) framebuffer := by
  rw [drawSplash, (BmpWalk.rows_walk _ _ _ _ _ _ _).1]
  refine List.foldl_ext _ _ _ fun t y hy => List.foldl_ext _ _ _ fun t x _ => ?_
  rw [List.mem_range] at hy
  have hstart : y * (3 * data.columnCount + data.padding) = y * data.stride := by
    rcases Nat.eq_zero_or_pos y with rfl | hpos
    · rw [Nat.zero_mul, Nat.zero_mul]
    · rw [padding_eq h (by omega)]
  rw [Nat.zero_add, pixelAt, show data.rowCount - 1 - (data.rowCount - 1 - y) = y by omega, hstart]

/-- **Which bitmaps `readBmp` decodes.** An image exactly when its rows agree; and all images of a size
exactly when the width is a multiple of four, or there is one row. -/
theorem readBmp_decodes_iff (h : data.WellFormed) (buffer : Cells UInt32) :
    (∀ file, data.Decodes file (readBmp data file buffer) ↔ data.RowsAgree file) ∧
      ((∀ file, data.Decodes file (readBmp data file buffer)) ↔
        data.columnCount % 4 = 0 ∨ data.rowCount = 1) := by
  refine ⟨fun file => decodes_iff_rowsAgree h file buffer, ?_⟩
  rw [← rowsAgree_all_iff h]
  exact forall_congr' fun file => decodes_iff_rowsAgree h file buffer

/-- A bitmap of 4 by 2 pixels. -/
theorem readBmp_decodes_four :
    (⟨78, 54, 4, 2⟩ : BmpHeader).Decodes (fun i => .ofNat i)
      (readBmp ⟨78, 54, 4, 2⟩ (fun i => .ofNat i) ⟨fun _ => 0, []⟩) :=
  (readBmp_decodes_iff ⟨by decide, by decide, by decide⟩ _).2.2 (.inl (by decide)) _

/-- Of a bitmap of 1 by 2 pixels the upper one is read from the byte of padding and two of its own. -/
theorem readBmp_shifted :
    ¬ (⟨62, 54, 1, 2⟩ : BmpHeader).Decodes (fun i => .ofNat i)
      (readBmp ⟨62, 54, 1, 2⟩ (fun i => .ofNat i) ⟨fun _ => 0, []⟩) := by
  intro h
  have hupper := h.pixels 0 (by decide) 0 (by decide)
  rw [readBmp_cell ⟨by decide, by decide, by decide⟩ _ _ (by decide) (by decide)] at hupper
  revert hupper
  decide

end BmpHeader

end Naul
