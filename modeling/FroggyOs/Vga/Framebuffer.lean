import FroggyOs.Klibc.MemOps
import FroggyOs.Library.PixelGrid
import FroggyOs.Library.Word

/-!
# The framebuffer terminal (`drivers/vga/framebuffer.c`)

`tty_print` draws a string character by character. A character cell is 9 pixels wide,
8 of them glyph, and `charsize` pixels high; the cursor is the pixel position of the
next cell. After each character the cursor goes to the next line if another cell would
not fit, and `move_tty_cursor_down` scrolls the screen instead of moving the cursor when
it is near the bottom.

Fields of type `unsigned int` are numbers, and their sums, differences and products are
reduced modulo `2 ^ 32` as in the source. Reading a glyph is reading the byte at an
offset, possibly negative, from `glyph_buffer`; the font lies outside the framebuffer.
-/

namespace FroggyOs

open ByteMemory Word64 Word32

structure FrameBuffer where
  baseAddress : Nat
  bufferSize : Nat
  width : Nat
  height : Nat
  pixelsPerScanLine : Nat

structure Psf1Font where
  charsize : Nat
  /-- the byte at an offset from `glyph_buffer` -/
  glyphBuffer : Int → UInt8

structure Point where
  x : Nat
  y : Nat

/-- A renderer, and the memory that holds its framebuffer. -/
structure TTYRenderer where
  cursorPosition : Point
  framebuffer : FrameBuffer
  psf1Font : Psf1Font
  color : UInt32
  mem : Mem

namespace TTYRenderer

/-! ## Scrolling -/

/-- `copyRegionStart` -/
def copyRegionStart (r : TTYRenderer) : Nat :=
  add64 r.framebuffer.baseAddress
    (mul32 r.framebuffer.pixelsPerScanLine (mul32 r.psf1Font.charsize 4))

/-- `copySize` -/
def copySize (r : TTYRenderer) : Nat :=
  let firstRegionSize := mul64 (mul64 r.framebuffer.pixelsPerScanLine r.psf1Font.charsize) 4
  sub64 r.framebuffer.bufferSize firstRegionSize

/-- The scrolling branch moves neither coordinate of the cursor. The message that it sends on the
serial line is left out here: it leaves the renderer alone (see `Terminal.moveTtyCursorDown`). -/
def moveTtyCursorDown (r : TTYRenderer) : TTYRenderer :=
  if add32 r.cursorPosition.y r.psf1Font.charsize ≥
      sub32 r.framebuffer.height r.psf1Font.charsize then
    { r with mem := memmove r.mem r.framebuffer.baseAddress r.copyRegionStart r.copySize }
  else
    { r with cursorPosition := ⟨0, add32 r.cursorPosition.y r.psf1Font.charsize⟩ }

/-! ## Characters -/

/-- The bit of a glyph row that `put_char` tests for column `x`. -/
def glyphBit (font : Psf1Font) (symbol : Int) (row x : Nat) : Bool :=
  (font.glyphBuffer (symbol * font.charsize + row)).toNat &&& (1 <<< 7 >>> x) > 0

/-- The positions `put_char` writes, in the order of its loops. -/
def putCharPixels (r : TTYRenderer) (symbol : Int) (xOffset yOffset : Nat) : List (Nat × Nat) :=
  (counts yOffset r.psf1Font.charsize).flatMap fun y =>
    ((counts xOffset 8).filter fun x =>
      glyphBit r.psf1Font symbol (y - yOffset) (x - xOffset)).map fun x => (x, y)

/-- `framebufPtr + x + (y * pixels_per_scan_line)` -/
def pixelPtr (r : TTYRenderer) (x y : Nat) : Nat :=
  add64 (add64 r.framebuffer.baseAddress (4 * x))
    (4 * mul32 y r.framebuffer.pixelsPerScanLine)

def putChar (r : TTYRenderer) (symbol : Int) (xOffset yOffset : Nat) : TTYRenderer :=
  { r with
    mem := (r.putCharPixels symbol xOffset yOffset).foldl
      (fun m p => m.store (r.pixelPtr p.1 p.2) 4 r.color.toNat) r.mem }

/-- A `char` is signed. -/
def charValue (chr : UInt8) : Int := chr.toInt8.toInt

/-- The branch of `tty_print` for one character. -/
def putNext (r : TTYRenderer) (chr : UInt8) : TTYRenderer :=
  if chr = '\n'.toUInt8 then
    moveTtyCursorDown { r with cursorPosition.x := 0 }
  else if chr = '\t'.toUInt8 then
    { r with cursorPosition.x := add32 r.cursorPosition.x 9 }
  else
    let r := r.putChar (charValue chr) r.cursorPosition.x r.cursorPosition.y
    { r with cursorPosition.x := add32 r.cursorPosition.x 9 }

/-- The test for the end of the line behind each character. -/
def wrapLine (r : TTYRenderer) : TTYRenderer :=
  if add32 r.cursorPosition.x 9 > r.framebuffer.width then
    moveTtyCursorDown { r with cursorPosition.x := 0 }
  else r

/-- The body of the loop of `tty_print`. -/
def printChar (r : TTYRenderer) (chr : UInt8) : TTYRenderer := (r.putNext chr).wrapLine

/-- The string ends before its first 0. -/
def ttyPrint (r : TTYRenderer) : List UInt8 → TTYRenderer
  | [] => r
  | chr :: str => if chr = 0 then r else (r.printChar chr).ttyPrint str

def ttyClear (r : TTYRenderer) (color : UInt32) (resetCursor : Bool) : TTYRenderer :=
  let mem := (List.range r.framebuffer.height).foldl (fun m y =>
    (List.range r.framebuffer.width).foldl (fun m x =>
      m.store (add64 r.framebuffer.baseAddress
        (mul64 4 (add64 x (mul64 r.framebuffer.pixelsPerScanLine y)))) 4 color.toNat) m) r.mem
  if resetCursor then { r with mem, cursorPosition := ⟨0, 0⟩ } else { r with mem }

/-- The address scales the row three times: `line` by the bytes of a scan line, `y` by the
pixels of one and the whole by 4, in front of a pointer to 32-bit words. -/
def clearTtyLine (r : TTYRenderer) (color : UInt32) (line : Nat) : TTYRenderer :=
  let scanline := r.framebuffer.pixelsPerScanLine
  let line := mul32 line (mul32 scanline 4)
  let mem := (counts line r.psf1Font.charsize).foldl (fun m y =>
    (List.range r.framebuffer.width).foldl (fun m x =>
      m.store (add64 r.framebuffer.baseAddress (4 * mul32 4 (add32 x (mul32 scanline y)))) 4
        color.toNat) m) r.mem
  { r with mem }

end TTYRenderer

end FroggyOs
