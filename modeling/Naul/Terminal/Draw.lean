import Naul.Mem

/-!
# Drawing (`os/src/terminal.c`)

The terminal paints a character bit by bit, into the framebuffer when no process has obtained the
display, and always into a back buffer. Sizes and positions on the screen are `uint32_t`, as in the
source; a pointer into a buffer or into the font's data is the number of the element, and `address`
stands for `address` and `backAddress`, which move together.

The variables that `initTerminal` sets once are in `Video`, the others in `Terminal`.
-/

namespace Naul

/-- A font: `data` holds the glyphs one after the other, a bit for each pixel and every row of a
glyph starting at a new byte. -/
structure PsfFile where
  (glyphSize height width : UInt32)
  data : ℕ → UInt8

/-- The screen from `information`, the font and the sizes computed from them. -/
structure Video where
  (width height pitch : UInt32)
  font : PsfFile
  (fontWidth fontHeight : UInt32)
  (terminalWidth terminalHeight : UInt32)

structure Terminal where
  framebuffer : Cells UInt32
  backBuffer : Cells UInt32
  displayObtained : Bool
  cursorX : UInt32
  cursorY : UInt32
  colour : UInt8
  waitingColour : Bool

/-- `const uint32_t colours[256]`. -/
def colours (colour : UInt8) : UInt32 :=
  match colour with
  | 1 => 0x989898
  | 2 => 0xFFFFFF
  | 3 => 0x0080FF
  | 4 => 0x008000
  | 5 => 0xFF5050
  | _ => 0

def ttyClear : UInt8 := 0xff

def terminalColour : UInt8 := 0xfe

def backspace : UInt8 := 8

def newline : UInt8 := 10

def underscore : UInt8 := 95

/-- A `char` converted to `uint32_t`. -/
def charToUInt32 (character : UInt8) : UInt32 := UInt32.ofInt character.toInt8.toInt

namespace Terminal

/-- `if (!displayObtained) { *address = c; } *backAddress = c`. -/
def paint (address : ℕ) (c : UInt32) (s : Terminal) : Terminal :=
  { s with
    framebuffer := if s.displayObtained then s.framebuffer else s.framebuffer.store address c
    backBuffer := s.backBuffer.store address c }

/-- The pointers of `drawCharacter`, with the screen it draws on. -/
structure Pen where
  glyph : ℕ
  address : ℕ
  screen : Terminal

/-- `*glyph & (0b10000000 >> x)`. -/
def bitSet (byte : UInt8) (x : ℕ) : Bool := byte &&& (0x80 >>> UInt8.ofNat x) ≠ 0

/-- The loop over the bits of one byte: from bit `x`, for `n` more turns. -/
def drawBits (font : PsfFile) (colour : UInt32) (x : ℕ) : ℕ → Pen → Pen
  | 0, p => p
  | n + 1, p =>
    drawBits font colour (x + 1) n { p with
      screen := if bitSet (font.data p.glyph) x then p.screen.paint p.address colour else p.screen
      address := p.address + 1 }

/-- `while (width)`: one row of the glyph, `width` pixels of which are left. -/
def drawRow (font : PsfFile) (colour : UInt32) (width : ℕ) (p : Pen) : Pen :=
  if width = 0 then p
  else
    let amount := min 8 width
    let p := drawBits font colour 0 amount p
    drawRow font colour (width - amount) { p with glyph := p.glyph + 1 }
termination_by width

/-- The loop over the rows, `n` of which are left. -/
def drawRows (v : Video) (colour : UInt32) : ℕ → Pen → Pen
  | 0, p => p
  | n + 1, p =>
    let p := drawRow v.font colour v.font.width.toNat p
    drawRows v colour n { p with address := p.address + (v.pitch - v.font.width).toNat }

def drawCharacter (v : Video) (character : UInt8) (x y colour : UInt32) (s : Terminal) : Terminal :=
  (drawRows v colour v.font.height.toNat
    ⟨(v.font.glyphSize * charToUInt32 character).toNat, (y * v.pitch).toNat + x.toNat, s⟩).screen

/-- One row of a cell that a backspace clears, `n` pixels of which are left. -/
def clearRow (address : ℕ) : ℕ → Terminal → Terminal
  | 0, s => s
  | n + 1, s => clearRow (address + 1) n (s.paint address 0)

/-- The rows of a cell that a backspace clears, `n` of which are left. -/
def clearRows (v : Video) (address : ℕ) : ℕ → Terminal → Terminal
  | 0, s => s
  | n + 1, s =>
    clearRows v (address + v.fontWidth.toNat + (v.pitch - v.fontWidth).toNat) n
      (clearRow address v.fontWidth.toNat s)

/-- `copyMemory32(backBuffer, information.framebuffer, information.pitch * information.height)`. -/
def redrawTerminal (v : Video) (s : Terminal) : Terminal :=
  { s with
    framebuffer := copyMemoryFrom
      ((List.range (v.pitch * v.height).toNat).map s.backBuffer.cell) 0 s.framebuffer }

def drop (v : Video) (s : Terminal) : Terminal :=
  let s := { s with
    backBuffer := copyMemory (v.pitch * v.font.height).toNat 0
      (v.pitch * (v.height - v.font.height)).toNat s.backBuffer }
  let s := { s with
    backBuffer := setMemory (v.pitch * (v.height - v.font.height)).toNat 0
      (v.pitch * v.font.height).toNat s.backBuffer }
  if s.displayObtained then s else redrawTerminal v s

/-- The branch of `terminalPut` for `'\b'`. -/
def putBackspace (v : Video) (s : Terminal) : Terminal :=
  let s :=
    if s.cursorX > 0 then { s with cursorX := s.cursorX - 1 }
    else { s with cursorY := s.cursorY - 1, cursorX := v.terminalWidth - 1 }
  clearRows v ((s.cursorY * v.fontHeight * v.pitch).toNat + (s.cursorX * v.fontWidth).toNat)
    v.fontHeight.toNat s

/-- `if (cursorY + 1 != terminalHeight) { cursorY++; } else { drop(); }`. -/
def nextLine (v : Video) (s : Terminal) : Terminal :=
  if s.cursorY + 1 ≠ v.terminalHeight then { s with cursorY := s.cursorY + 1 } else drop v s

/-- The branch of `terminalPut` for `'\n'`. -/
def putNewline (v : Video) (s : Terminal) : Terminal := nextLine v { s with cursorX := 0 }

/-- The branch of `terminalPut` for `TTY_CLEAR`. -/
def putClear (v : Video) (s : Terminal) : Terminal :=
  { s with
    framebuffer :=
      if s.displayObtained then s.framebuffer
      else setMemory 0 0 (v.pitch * v.height).toNat s.framebuffer
    backBuffer := setMemory 0 0 (v.pitch * v.height).toNat s.backBuffer
    cursorX := 0
    cursorY := 0 }

/-- The last branch of `terminalPut`. -/
def putGlyph (v : Video) (character : UInt8) (s : Terminal) : Terminal :=
  let s := drawCharacter v character (s.cursorX * v.fontWidth) (s.cursorY * v.fontHeight)
    (colours s.colour) s
  let s := { s with cursorX := s.cursorX + 1 }
  if s.cursorX = v.terminalWidth then nextLine v { s with cursorX := 0 } else s

/-- `drawCharacter('_', cursorX * fontWidth, cursorY * fontHeight, c)`. -/
def drawCursor (v : Video) (c : UInt32) (s : Terminal) : Terminal :=
  drawCharacter v underscore (s.cursorX * v.fontWidth) (s.cursorY * v.fontHeight) c s

/-- `terminalPut(character)` once the terminal is ready. -/
def terminalPut (v : Video) (s : Terminal) (character : UInt8) : Terminal :=
  let s := drawCursor v 0 s
  let s :=
    if s.waitingColour then { s with waitingColour := false, colour := character }
    else if character = backspace then putBackspace v s
    else if character = newline then putNewline v s
    else if character = ttyClear then putClear v s
    else if character = terminalColour then { s with waitingColour := true }
    else putGlyph v character s
  drawCursor v (colours s.colour) s

end Terminal

/-- The sizes `initTerminal` computes. -/
def initVideo (width height pitch : UInt32) (font : PsfFile) : Video :=
  { width, height, pitch, font
    fontWidth := font.width + 1
    fontHeight := font.height
    terminalWidth := width / (font.width + 1)
    terminalHeight := height / font.height }

/-- The terminal when `initTerminal` has marked it as ready; `framebuffer` and `backBuffer` are the
memory before that. -/
def initTerminal (v : Video) (framebuffer backBuffer : Cells UInt32) (displayObtained : Bool) :
    Terminal :=
  { framebuffer := setMemory 0 0 (v.pitch * v.height).toNat framebuffer
    backBuffer := setMemory 0 0 (v.pitch * v.height).toNat backBuffer
    displayObtained
    cursorX := 0
    cursorY := 0
    colour := 1
    waitingColour := false }

end Naul
