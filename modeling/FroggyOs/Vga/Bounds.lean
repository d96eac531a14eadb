import Mathlib.Data.List.TakeWhile
import Mathlib.Data.Set.Basic
import FroggyOs.Vga.Framebuffer

/-!
# The terminal stays inside its framebuffer

Between characters the cursor leaves room for one more cell. Each of the four places that
advance it is followed by a test that restores this, and the invariant bounds every address
that `put_char` and `move_tty_cursor_down` compute.
-/

namespace FroggyOs

open ByteMemory Word64 Word32

/-- A framebuffer of whole scan lines, with room for one cell in a line. -/
structure FrameBuffer.Fits (fb : FrameBuffer) : Prop where
  wide : 9 ≤ fb.width
  scanLine : fb.width ≤ fb.pixelsPerScanLine
  size : fb.bufferSize = fb.height * fb.pixelsPerScanLine * 4
  small : fb.bufferSize < 2 ^ 32
  /-- The framebuffer is an object: its addresses do not wrap around. -/
  mapped : fb.baseAddress + fb.bufferSize ≤ 2 ^ 64

/-- The bytes of the framebuffer. -/
def FrameBuffer.bytes (fb : FrameBuffer) : Set Nat := Mem.range fb.baseAddress fb.bufferSize

namespace FrameBuffer.Fits

variable {fb : FrameBuffer} {k : Nat}

theorem size_eq (h : fb.Fits) : fb.bufferSize = 4 * (fb.pixelsPerScanLine * fb.height) := by
  rw [h.size, Nat.mul_comm fb.height, Nat.mul_comm _ 4]

/-- The first `k` rows are part of the framebuffer. -/
theorem rows_le (h : fb.Fits) (hk : k ≤ fb.height) :
    4 * (fb.pixelsPerScanLine * k) ≤ fb.bufferSize := by
  rw [h.size_eq]
  exact Nat.mul_le_mul_left 4 (Nat.mul_le_mul_left _ hk)

theorem height_lt (h : fb.Fits) : 36 * fb.height < 2 ^ 32 := by
  have hstride : 9 ≤ fb.pixelsPerScanLine := le_trans h.wide h.scanLine
  have hrows : 9 * fb.height ≤ fb.pixelsPerScanLine * fb.height := Nat.mul_le_mul_right _ hstride
  have hsize := h.size_eq
  have hsmall := h.small
  omega

theorem scanLine_lt (h : fb.Fits) (hk : 0 < fb.height) : fb.pixelsPerScanLine < 2 ^ 30 := by
  have hline := Nat.le_mul_of_pos_right fb.pixelsPerScanLine hk
  have hsize := h.size_eq
  have hsmall := h.small
  omega

end FrameBuffer.Fits

namespace TTYRenderer

variable {r : TTYRenderer} {chr : UInt8}

/-! ## What a character leaves alone -/

@[simp] theorem moveTtyCursorDown_framebuffer :
    r.moveTtyCursorDown.framebuffer = r.framebuffer := by
  rw [moveTtyCursorDown]
  split <;> rfl

@[simp] theorem moveTtyCursorDown_psf1Font : r.moveTtyCursorDown.psf1Font = r.psf1Font := by
  rw [moveTtyCursorDown]
  split <;> rfl

@[simp] theorem moveTtyCursorDown_color : r.moveTtyCursorDown.color = r.color := by
  rw [moveTtyCursorDown]
  split <;> rfl

@[simp] theorem putNext_framebuffer : (r.putNext chr).framebuffer = r.framebuffer := by
  rw [putNext]
  split
  · exact moveTtyCursorDown_framebuffer
  · split <;> rfl

@[simp] theorem putNext_psf1Font : (r.putNext chr).psf1Font = r.psf1Font := by
  rw [putNext]
  split
  · exact moveTtyCursorDown_psf1Font
  · split <;> rfl

@[simp] theorem putNext_color : (r.putNext chr).color = r.color := by
  rw [putNext]
  split
  · exact moveTtyCursorDown_color
  · split <;> rfl

@[simp] theorem printChar_framebuffer : (r.printChar chr).framebuffer = r.framebuffer := by
  rw [printChar, wrapLine]
  split
  · exact moveTtyCursorDown_framebuffer.trans putNext_framebuffer
  · exact putNext_framebuffer

@[simp] theorem printChar_psf1Font : (r.printChar chr).psf1Font = r.psf1Font := by
  rw [printChar, wrapLine]
  split
  · exact moveTtyCursorDown_psf1Font.trans putNext_psf1Font
  · exact putNext_psf1Font

@[simp] theorem printChar_color : (r.printChar chr).color = r.color := by
  rw [printChar, wrapLine]
  split
  · exact moveTtyCursorDown_color.trans putNext_color
  · exact putNext_color

/-! ## The cursor -/

/-- `cursor_position.x = 0` -/
def lineStart (r : TTYRenderer) : TTYRenderer := { r with cursorPosition.x := 0 }

@[simp] theorem lineStart_framebuffer : r.lineStart.framebuffer = r.framebuffer := rfl

@[simp] theorem lineStart_psf1Font : r.lineStart.psf1Font = r.psf1Font := rfl

@[simp] theorem lineStart_color : r.lineStart.color = r.color := rfl

/-- A cell at the cursor lies inside the framebuffer. -/
structure CellFits (r : TTYRenderer) : Prop where
  fits : r.framebuffer.Fits
  charsize_pos : 1 ≤ r.psf1Font.charsize
  right : r.cursorPosition.x + 9 ≤ r.framebuffer.width
  bottom : r.cursorPosition.y + r.psf1Font.charsize ≤ r.framebuffer.height

theorem putNext_newline : r.putNext '\n'.toUInt8 = r.lineStart.moveTtyCursorDown := if_pos rfl

/-- Every other character moves the cursor by one cell. -/
theorem putNext_cursor (hchr : chr ≠ '\n'.toUInt8) :
    (r.putNext chr).cursorPosition =
      ⟨add32 r.cursorPosition.x 9, r.cursorPosition.y⟩ := by
  rw [putNext, if_neg hchr]
  split <;> rfl

namespace CellFits

theorem width_lt (h : r.CellFits) : r.framebuffer.width < 2 ^ 30 := by
  have hpos := h.charsize_pos
  have hbottom := h.bottom
  exact Nat.lt_of_le_of_lt h.fits.scanLine (h.fits.scanLine_lt (by omega))

theorem height_lt (h : r.CellFits) : r.framebuffer.height < 2 ^ 30 := by
  have hheight := h.fits.height_lt
  omega

/-- The test of `move_tty_cursor_down`, in exact arithmetic. -/
theorem scrolls_iff (h : r.CellFits) :
    add32 r.cursorPosition.y r.psf1Font.charsize ≥
        sub32 r.framebuffer.height r.psf1Font.charsize ↔
      r.framebuffer.height ≤ r.cursorPosition.y + 2 * r.psf1Font.charsize := by
  have hheight := h.height_lt
  have hbottom := h.bottom
  rw [add32_eq (by omega), sub32_eq (by omega) (by omega)]
  omega

theorem lineStart (h : r.CellFits) : r.lineStart.CellFits where
  fits := h.fits
  charsize_pos := h.charsize_pos
  right := (Nat.zero_add 9).trans_le h.fits.wide
  bottom := h.bottom

/-- A line feed scrolls near the bottom and moves the cursor elsewhere. -/
theorem moveTtyCursorDown_cursor (h : r.CellFits) :
    r.lineStart.moveTtyCursorDown.cursorPosition =
      ⟨0, if r.framebuffer.height ≤ r.cursorPosition.y + 2 * r.psf1Font.charsize
        then r.cursorPosition.y else r.cursorPosition.y + r.psf1Font.charsize⟩ := by
  have hheight := h.height_lt
  have hbottom := h.bottom
  have hscrolls := h.scrolls_iff
  rw [moveTtyCursorDown]
  split
  case isTrue hscroll => rw [if_pos (hscrolls.mp hscroll)]; rfl
  case isFalse hstay =>
    rw [if_neg fun hfull => hstay (hscrolls.mpr hfull)]
    have hdown : add32 r.cursorPosition.y r.psf1Font.charsize =
        r.cursorPosition.y + r.psf1Font.charsize := add32_eq (by omega)
    exact congrArg (Point.mk 0) hdown

theorem moveTtyCursorDown (h : r.CellFits) : r.lineStart.moveTtyCursorDown.CellFits := by
  have hwide := h.fits.wide
  have hbottom := h.bottom
  refine ⟨by simpa using h.lineStart.fits, by simpa using h.lineStart.charsize_pos, ?_, ?_⟩
  · rw [h.moveTtyCursorDown_cursor, moveTtyCursorDown_framebuffer]
    exact h.lineStart.right
  · rw [h.moveTtyCursorDown_cursor, moveTtyCursorDown_framebuffer, moveTtyCursorDown_psf1Font]
    simp only [TTYRenderer.lineStart]
    split <;> omega

/-- A line feed leaves room for a cell, so the test behind it does not wrap the line. -/
theorem wrapLine_eq_self (h : r.CellFits) : r.wrapLine = r := by
  have hwidth := h.width_lt
  have hright := h.right
  rw [wrapLine, if_neg]
  rw [add32_eq (by omega)]
  omega

theorem printChar_newline (h : r.CellFits) :
    r.printChar '\n'.toUInt8 = r.lineStart.moveTtyCursorDown := by
  rw [printChar, putNext_newline, h.moveTtyCursorDown.wrapLine_eq_self]

/-- The other characters wrap the line if a cell behind the next one does not fit. -/
theorem printChar_other (h : r.CellFits) (hchr : chr ≠ '\n'.toUInt8) :
    r.printChar chr =
      if r.framebuffer.width < r.cursorPosition.x + 18
      then (r.putNext chr).lineStart.moveTtyCursorDown else r.putNext chr := by
  have hwidth := h.width_lt
  have hright := h.right
  have hx : (r.putNext chr).cursorPosition.x = r.cursorPosition.x + 9 := by
    rw [putNext_cursor hchr]
    exact add32_eq (by omega)
  show (if add32 (r.putNext chr).cursorPosition.x 9 > (r.putNext chr).framebuffer.width
    then (r.putNext chr).lineStart.moveTtyCursorDown else r.putNext chr) = _
  rw [hx, putNext_framebuffer, add32_eq (by omega)]

/-- Behind a character the cursor may leave the line, but never the screen. -/
theorem putNext_lineStart (h : r.CellFits) (hchr : chr ≠ '\n'.toUInt8) :
    (r.putNext chr).lineStart.CellFits where
  fits := putNext_framebuffer (r := r) ▸ h.fits
  charsize_pos := putNext_psf1Font (r := r) ▸ h.charsize_pos
  right := putNext_framebuffer (r := r) ▸ h.lineStart.right
  bottom := by
    have hy : (r.putNext chr).cursorPosition.y = r.cursorPosition.y := by
      rw [putNext_cursor hchr]
    show (r.putNext chr).cursorPosition.y + (r.putNext chr).psf1Font.charsize ≤
      (r.putNext chr).framebuffer.height
    rw [hy, putNext_psf1Font, putNext_framebuffer]
    exact h.bottom

theorem printChar (h : r.CellFits) (chr : UInt8) : (r.printChar chr).CellFits := by
  by_cases hchr : chr = '\n'.toUInt8
  · rw [hchr, h.printChar_newline]
    exact h.moveTtyCursorDown
  · rw [h.printChar_other hchr]
    have hstart := h.putNext_lineStart hchr
    split
    case isTrue => exact hstart.moveTtyCursorDown
    case isFalse hroom =>
      have hwidth := h.width_lt
      have hright := h.right
      have hx : (r.putNext chr).cursorPosition.x = r.cursorPosition.x + 9 := by
        rw [putNext_cursor hchr]
        exact add32_eq (by omega)
      refine ⟨hstart.fits, hstart.charsize_pos, ?_, hstart.bottom⟩
      rw [hx, putNext_framebuffer]
      omega

/-! ## Addresses -/

theorem mem_putCharPixels (h : r.CellFits) {symbol : Int} {p : Nat × Nat} :
    p ∈ r.putCharPixels symbol r.cursorPosition.x r.cursorPosition.y ↔
      (r.cursorPosition.x ≤ p.1 ∧ p.1 < r.cursorPosition.x + 8) ∧
      (r.cursorPosition.y ≤ p.2 ∧ p.2 < r.cursorPosition.y + r.psf1Font.charsize) ∧
      glyphBit r.psf1Font symbol (p.2 - r.cursorPosition.y) (p.1 - r.cursorPosition.x) := by
  have hwidth := h.width_lt
  have hheight := h.height_lt
  have hright := h.right
  have hbottom := h.bottom
  obtain ⟨x, y⟩ := p
  have hx (i : Nat) := @mem_counts r.cursorPosition.x 8 i (by omega)
  have hy (i : Nat) := @mem_counts r.cursorPosition.y r.psf1Font.charsize i (by omega)
  simp only [putCharPixels, List.mem_flatMap, List.mem_map, List.mem_filter, hx, hy,
    Prod.mk.injEq]
  constructor
  · rintro ⟨_, hrow, _, ⟨hcol, hbit⟩, rfl, rfl⟩
    exact ⟨hcol, hrow, hbit⟩
  · rintro ⟨hcol, hrow, hbit⟩
    exact ⟨y, hrow, x, ⟨hcol, hbit⟩, rfl, rfl⟩

end CellFits

/-- `firstRegionSize`, in exact arithmetic. -/
def firstRegionSize (r : TTYRenderer) : Nat :=
  4 * (r.framebuffer.pixelsPerScanLine * r.psf1Font.charsize)

/-- `move_tty_cursor_down` copies the framebuffer behind its first text line. -/
theorem copySize_eq (hfits : r.framebuffer.Fits)
    (hfont : r.psf1Font.charsize ≤ r.framebuffer.height) :
    r.copySize = r.framebuffer.bufferSize - r.firstRegionSize := by
  have hregion := hfits.rows_le hfont
  have hsmall := hfits.small
  have hexact : mul64 (mul64 r.framebuffer.pixelsPerScanLine r.psf1Font.charsize) 4 =
      r.firstRegionSize := by
    rw [@mul64_eq r.framebuffer.pixelsPerScanLine _ (by omega), mul64_eq (by omega),
      Nat.mul_comm]
    rfl
  rw [copySize, hexact]
  exact sub64_eq hregion (by omega)

theorem copyRegionStart_eq (hfits : r.framebuffer.Fits)
    (hfont : r.psf1Font.charsize < r.framebuffer.height) :
    r.copyRegionStart = r.framebuffer.baseAddress + r.firstRegionSize := by
  have hnext := hfits.rows_le (Nat.succ_le_of_lt hfont)
  have hline := hfits.scanLine
  have hwide := hfits.wide
  have hheight := hfits.height_lt
  have hsmall := hfits.small
  have hmapped := hfits.mapped
  rw [Nat.mul_succ] at hnext
  have hexact : mul32 r.framebuffer.pixelsPerScanLine (mul32 r.psf1Font.charsize 4) =
      r.firstRegionSize := by
    have hcells : r.framebuffer.pixelsPerScanLine * (r.psf1Font.charsize * 4) =
        r.firstRegionSize := by
      rw [firstRegionSize, ← Nat.mul_assoc, Nat.mul_comm]
    have hregion : r.firstRegionSize < 2 ^ 32 := by
      rw [firstRegionSize]
      omega
    rw [@mul32_eq r.psf1Font.charsize 4 (by omega), mul32_eq (by omega), hcells]
  rw [copyRegionStart, hexact]
  apply add64_eq
  rw [firstRegionSize]
  omega

/-- The pointer `put_char` writes through is the address of the pixel. -/
theorem pixelPtr_eq (hfits : r.framebuffer.Fits) {x y : Nat}
    (hx : x < r.framebuffer.pixelsPerScanLine) (hy : y < r.framebuffer.height) :
    r.pixelPtr x y =
      PixelGrid.address r.framebuffer.baseAddress r.framebuffer.pixelsPerScanLine x y := by
  have hbounds := @PixelGrid.address_bounds r.framebuffer.baseAddress _ _ _ _ hx hy
  have hsize := hfits.size_eq
  have hsmall := hfits.small
  have hmapped := hfits.mapped
  simp only [PixelGrid.address] at hbounds ⊢
  have hrow : mul32 y r.framebuffer.pixelsPerScanLine = r.framebuffer.pixelsPerScanLine * y := by
    rw [mul32_eq (by rw [Nat.mul_comm]; omega), Nat.mul_comm]
  rw [pixelPtr, hrow, @add64_eq r.framebuffer.baseAddress (4 * x) (by omega),
    add64_eq (by omega)]
  omega

/-- The bytes `memmove` reads or writes when `move_tty_cursor_down` scrolls. -/
def scrollBytes (r : TTYRenderer) : Set Nat :=
  Mem.range r.copyRegionStart r.copySize ∪ Mem.range r.framebuffer.baseAddress r.copySize

/-- Printing `chr` touches the framebuffer only: the pixels of `put_char`, and the bytes moved
for the character itself or for the end of the line behind it. -/
structure StaysInside (r : TTYRenderer) (chr : UInt8) : Prop where
  pixels : ∀ p ∈ r.putCharPixels (charValue chr) r.cursorPosition.x r.cursorPosition.y,
    p.1 < r.framebuffer.width ∧ p.2 < r.framebuffer.height
  newline : r.lineStart.scrollBytes ⊆ r.framebuffer.bytes
  wrap : (r.putNext chr).lineStart.scrollBytes ⊆ r.framebuffer.bytes

/-- The characters of a string before its terminating 0. -/
def printed (str : List UInt8) : List UInt8 := str.takeWhile (· ≠ 0)

theorem printed_eq_self {str : List UInt8} (h : ∀ chr ∈ str, chr ≠ 0) : printed str = str := by
  rw [printed, List.takeWhile_eq_self_iff]
  simpa using h

def printChars (r : TTYRenderer) (chars : List UInt8) : TTYRenderer := chars.foldl printChar r

theorem ttyPrint_eq_printChars (r : TTYRenderer) (str : List UInt8) :
    r.ttyPrint str = r.printChars (printed str) := by
  induction str generalizing r with
  | nil => rfl
  | cons chr str ih =>
      rw [ttyPrint, printed, List.takeWhile_cons]
      by_cases hend : chr = 0
      · simp [hend, printChars]
      · simp only [ne_eq, hend, not_false_eq_true, decide_true, if_true]
        exact ih (r.printChar chr)

/-- Printing strings one after the other prints all their characters. -/
theorem foldl_ttyPrint (r : TTYRenderer) (strs : List (List UInt8)) :
    strs.foldl ttyPrint r = r.printChars (strs.flatMap printed) := by
  induction strs generalizing r with
  | nil => rfl
  | cons str strs ih =>
      rw [List.foldl_cons, ih, ttyPrint_eq_printChars, List.flatMap_cons, printChars,
        printChars, printChars, List.foldl_append]

/-- `r'` is reached between two characters while `strs` are printed from `r`, or before the
first or behind the last one. -/
def Printing (r : TTYRenderer) (strs : List (List UInt8)) (r' : TTYRenderer) : Prop :=
  ∃ chars, chars <+: strs.flatMap printed ∧ r' = r.printChars chars

/-- The strings are printed when their last character is. -/
theorem printing_foldl (r : TTYRenderer) (strs : List (List UInt8)) :
    r.Printing strs (strs.foldl ttyPrint r) :=
  ⟨_, List.prefix_rfl, foldl_ttyPrint r strs⟩

theorem CellFits.printChars (h : r.CellFits) (chars : List UInt8) :
    (r.printChars chars).CellFits := by
  induction chars generalizing r with
  | nil => exact h
  | cons chr chars ih => exact ih (h.printChar chr)

@[simp] theorem printChars_framebuffer (chars : List UInt8) :
    (r.printChars chars).framebuffer = r.framebuffer := by
  induction chars generalizing r with
  | nil => rfl
  | cons chr chars ih => exact ih.trans printChar_framebuffer

@[simp] theorem printChars_psf1Font (chars : List UInt8) :
    (r.printChars chars).psf1Font = r.psf1Font := by
  induction chars generalizing r with
  | nil => rfl
  | cons chr chars ih => exact ih.trans printChar_psf1Font

@[simp] theorem printChars_color (chars : List UInt8) :
    (r.printChars chars).color = r.color := by
  induction chars generalizing r with
  | nil => rfl
  | cons chr chars ih => exact ih.trans printChar_color

end TTYRenderer

open TTYRenderer

variable {framebuffer : FrameBuffer} {psf1Font : Psf1Font}

/-- A renderer with its cursor at the origin. -/
def rendererAt (framebuffer : FrameBuffer) (psf1Font : Psf1Font) (color : UInt32) (mem : Mem) :
    TTYRenderer := ⟨⟨0, 0⟩, framebuffer, psf1Font, color, mem⟩

theorem rendererAt_cellFits (hfits : framebuffer.Fits) (hpos : 1 ≤ psf1Font.charsize)
    (hfont : psf1Font.charsize ≤ framebuffer.height) (color : UInt32) (mem : Mem) :
    (rendererAt framebuffer psf1Font color mem).CellFits :=
  ⟨hfits, hpos, (Nat.zero_add 9).trans_le hfits.wide, (Nat.zero_add _).trans_le hfont⟩

/-- A screen of two lines with two cells each. -/
def twoByTwo : FrameBuffer := ⟨0x1000, 1152, 18, 16, 18⟩

theorem twoByTwo_fits : twoByTwo.Fits := by
  constructor <;> decide

/-- A font whose glyphs are solid blocks. -/
def blockFont (charsize : Nat) : Psf1Font := ⟨charsize, fun _ => 0xff⟩

end FroggyOs
