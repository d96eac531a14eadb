import FroggyOs.Vga.Bounds

/-!
# What the terminal's operations do to the pixels

The framebuffer is a grid with a row for each scan line. `put_char` changes the lit pixels
of one glyph, `move_tty_cursor_down` moves the rows up by one text line when it scrolls, and
`tty_clear` gives all visible pixels one colour.
-/

namespace FroggyOs.TTYRenderer

open ByteMemory Word64 Word32

variable {r : TTYRenderer} {x y : Nat}

/-- The pixel in column `x` of scan line `y`. -/
def pixel (r : TTYRenderer) (x y : Nat) : Nat :=
  PixelGrid.read r.mem r.framebuffer.baseAddress r.framebuffer.pixelsPerScanLine x y

@[simp] theorem lineStart_pixel : r.lineStart.pixel x y = r.pixel x y := rfl

/-! ## Glyphs -/

theorem CellFits.putChar_mem (h : r.CellFits) (symbol : Int) :
    (r.putChar symbol r.cursorPosition.x r.cursorPosition.y).mem =
      PixelGrid.paint r.mem r.framebuffer.baseAddress r.framebuffer.pixelsPerScanLine
        r.color.toNat (r.putCharPixels symbol r.cursorPosition.x r.cursorPosition.y) := by
  rw [putChar, PixelGrid.paint]
  apply List.foldl_ext
  intro m p hp
  obtain ⟨hcol, hrow, -⟩ := h.mem_putCharPixels.mp hp
  have hright := h.right
  have hbottom := h.bottom
  have hline := h.fits.scanLine
  rw [pixelPtr_eq h.fits (by omega) (by omega)]

/-- `put_char` sets the lit pixels of the glyph and no others. -/
theorem CellFits.putChar_pixel (h : r.CellFits) (symbol : Int)
    (hx : x < r.framebuffer.pixelsPerScanLine) :
    (r.putChar symbol r.cursorPosition.x r.cursorPosition.y).pixel x y =
      if (x, y) ∈ r.putCharPixels symbol r.cursorPosition.x r.cursorPosition.y
      then r.color.toNat else r.pixel x y := by
  rw [pixel, h.putChar_mem]
  apply PixelGrid.read_paint r.color.toNat_lt hx
  intro p hp
  obtain ⟨hcol, -, -⟩ := h.mem_putCharPixels.mp hp
  have hright := h.right
  have hline := h.fits.scanLine
  show p.1 < r.framebuffer.pixelsPerScanLine
  omega

/-! ## Scrolling -/

/-- The rows behind the first text line are moved to the start of the framebuffer. -/
theorem memmove_scrolled (hfits : r.framebuffer.Fits) (hpos : 1 ≤ r.psf1Font.charsize)
    (hfont : r.psf1Font.charsize < r.framebuffer.height) :
    PixelGrid.Scrolled r.mem
      (memmove r.mem r.framebuffer.baseAddress r.copyRegionStart r.copySize)
      r.framebuffer.baseAddress r.framebuffer.pixelsPerScanLine r.framebuffer.height
      r.psf1Font.charsize := by
  have hline := Nat.le_trans hfits.wide hfits.scanLine
  have hcells : 0 < r.framebuffer.pixelsPerScanLine * r.psf1Font.charsize :=
    Nat.mul_pos (by omega) hpos
  have hsize := hfits.size_eq
  have hregion := hfits.rows_le (Nat.le_of_lt hfont)
  have hlt : r.framebuffer.baseAddress < r.copyRegionStart := by
    rw [copyRegionStart_eq hfits hfont, firstRegionSize]
    omega
  rw [memmove_of_lt _ _ hlt, copyRegionStart_eq hfits hfont,
    copySize_eq hfits (Nat.le_of_lt hfont), firstRegionSize]
  constructor
  · intro i hi
    exact memcpy_byte_down (by omega) (by omega)
  · intro i hi
    exact memcpy_byte_outside (by omega)

/-- Near the bottom a line feed moves the pixels up by one text line, and leaves the rows that
no row moves to as they are. Elsewhere it changes no pixel. -/
theorem CellFits.moveTtyCursorDown_pixel (h : r.CellFits)
    (htwo : 2 * r.psf1Font.charsize ≤ r.framebuffer.height)
    (hx : x < r.framebuffer.pixelsPerScanLine) :
    r.lineStart.moveTtyCursorDown.pixel x y =
      if r.framebuffer.height ≤ r.cursorPosition.y + 2 * r.psf1Font.charsize ∧
          y + r.psf1Font.charsize < r.framebuffer.height
      then r.pixel x (y + r.psf1Font.charsize) else r.pixel x y := by
  have hscrolls := h.scrolls_iff
  have hpos := h.charsize_pos
  rw [TTYRenderer.moveTtyCursorDown]
  split
  case isTrue hscroll =>
    have hfont : r.lineStart.psf1Font.charsize < r.lineStart.framebuffer.height :=
      show r.psf1Font.charsize < r.framebuffer.height by omega
    have hmoved := PixelGrid.read_scrolled (memmove_scrolled h.lineStart.fits hpos hfont)
      (x := x) (y := y) hx
    exact hmoved.trans (if_congr (and_iff_right (hscrolls.mp hscroll)).symm rfl rfl)
  case isFalse hstay =>
    rw [if_neg fun hfull => hstay (hscrolls.mpr hfull.1)]
    rfl

/-! ## Clearing -/

@[simp] theorem ttyClear_framebuffer (c : UInt32) (resetCursor : Bool) :
    (r.ttyClear c resetCursor).framebuffer = r.framebuffer := by
  cases resetCursor <;> rfl

@[simp] theorem ttyClear_psf1Font (c : UInt32) (resetCursor : Bool) :
    (r.ttyClear c resetCursor).psf1Font = r.psf1Font := by
  cases resetCursor <;> rfl

@[simp] theorem ttyClear_color (c : UInt32) (resetCursor : Bool) :
    (r.ttyClear c resetCursor).color = r.color := by
  cases resetCursor <;> rfl

/-- The positions `tty_clear` writes, in the order of its loops. -/
def clearedPixels (framebuffer : FrameBuffer) : List (Nat × Nat) :=
  (List.range framebuffer.height).flatMap fun y =>
    (List.range framebuffer.width).map fun x => (x, y)

theorem mem_clearedPixels {framebuffer : FrameBuffer} {p : Nat × Nat} :
    p ∈ clearedPixels framebuffer ↔ p.1 < framebuffer.width ∧ p.2 < framebuffer.height := by
  obtain ⟨x, y⟩ := p
  simp [clearedPixels, and_comm]

theorem ttyClear_mem (hfits : r.framebuffer.Fits) (c : UInt32) (resetCursor : Bool) :
    (r.ttyClear c resetCursor).mem =
      PixelGrid.paint r.mem r.framebuffer.baseAddress r.framebuffer.pixelsPerScanLine c.toNat
        (clearedPixels r.framebuffer) := by
  have hmem : (r.ttyClear c resetCursor).mem = (clearedPixels r.framebuffer).foldl (fun m p =>
      m.store (add64 r.framebuffer.baseAddress
        (mul64 4 (add64 p.1 (mul64 r.framebuffer.pixelsPerScanLine p.2)))) 4 c.toNat) r.mem := by
    simp only [ttyClear, clearedPixels, List.foldl_flatMap, List.foldl_map]
    split <;> rfl
  rw [hmem, PixelGrid.paint]
  apply List.foldl_ext
  intro m p hp
  obtain ⟨hcol, hrow⟩ := mem_clearedPixels.mp hp
  have hline := hfits.scanLine
  have hbounds := @PixelGrid.address_bounds r.framebuffer.baseAddress
    r.framebuffer.pixelsPerScanLine _ p.1 p.2 (by omega) hrow
  have hsize := hfits.size_eq
  have hsmall := hfits.small
  have hmapped := hfits.mapped
  rw [PixelGrid.address] at hbounds ⊢
  rw [@mul64_eq r.framebuffer.pixelsPerScanLine p.2 (by omega), @add64_eq p.1 _ (by omega),
    mul64_eq (by omega), add64_eq (by omega)]

/-- All visible pixels get the colour. -/
theorem ttyClear_pixel (hfits : r.framebuffer.Fits) (c : UInt32) (resetCursor : Bool)
    (hx : x < r.framebuffer.width) (hy : y < r.framebuffer.height) :
    (r.ttyClear c resetCursor).pixel x y = c.toNat := by
  have hline := hfits.scanLine
  rw [pixel, ttyClear_mem hfits, ttyClear_framebuffer, PixelGrid.read_paint c.toNat_lt (by omega)]
  · exact if_pos (mem_clearedPixels.mpr ⟨hx, hy⟩)
  · intro p hp
    have hcol := (mem_clearedPixels.mp hp).1
    omega

end FroggyOs.TTYRenderer
