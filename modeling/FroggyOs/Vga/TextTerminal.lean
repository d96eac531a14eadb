import FroggyOs.Vga.Screen
import FroggyOs.Vga.Text

/-!
# The terminal shows a text

After `tty_clear` the screen and the cursor follow the text that has been printed. On a
screen of whole text lines the pixels are the picture of its last lines; on other screens the
rows that scrolling does not overwrite keep what earlier lines left there.
-/

namespace FroggyOs

open ByteMemory Word64 Word32 TTYRenderer Text

variable {r : TTYRenderer} {c : UInt32} {t : Text} {chr : UInt8} {x y : Nat}

namespace TTYRenderer

/-- The screen, cleared to `c` before, shows the text `t`, and the cursor stands behind it. The
cursor may have left the line, before the test that wraps it. -/
structure Shows (r : TTYRenderer) (c : UInt32) (t : Text) : Prop where
  start : r.lineStart.CellFits
  rows : TwoLines r.framebuffer.height r.psf1Font.charsize
  cursor : r.cursorPosition = ⟨9 * t.current.length,
    r.psf1Font.charsize *
      min t.complete.length (lastRow r.framebuffer.height r.psf1Font.charsize)⟩
  pixel : ∀ x < r.framebuffer.width, ∀ y < r.framebuffer.height,
    r.pixel x y =
      if t.Lit r.psf1Font r.framebuffer.height
        (t.complete.length - lastRow r.framebuffer.height r.psf1Font.charsize +
          y / r.psf1Font.charsize) x (y % r.psf1Font.charsize)
      then r.color.toNat else c.toNat

namespace Shows

theorem cursor_x (h : r.Shows c t) : r.cursorPosition.x = 9 * t.current.length := by
  rw [h.cursor]

theorem cursor_y (h : r.Shows c t) :
    r.cursorPosition.y = r.psf1Font.charsize *
      min t.complete.length (lastRow r.framebuffer.height r.psf1Font.charsize) := by
  rw [h.cursor]

theorem cellFits (h : r.Shows c t)
    (hroom : 9 * (t.current.length + 1) ≤ r.framebuffer.width) : r.CellFits where
  fits := h.start.fits
  charsize_pos := h.start.charsize_pos
  right := by
    rw [h.cursor_x]
    omega
  bottom := h.start.bottom

/-- The test of `move_tty_cursor_down` holds in the last text row. -/
theorem scrolls_iff (h : r.Shows c t) :
    r.framebuffer.height ≤ r.cursorPosition.y + 2 * r.psf1Font.charsize ↔
      lastRow r.framebuffer.height r.psf1Font.charsize ≤ t.complete.length := by
  rw [h.cursor_y]
  exact h.rows.scrolls_iff _

theorem newLine_cursor (h : r.Shows c t) :
    r.lineStart.moveTtyCursorDown.cursorPosition =
      ⟨0, r.psf1Font.charsize * min (t.complete.length + 1)
        (lastRow r.framebuffer.height r.psf1Font.charsize)⟩ := by
  have hmoved : r.lineStart.moveTtyCursorDown.cursorPosition =
      ⟨0, if r.framebuffer.height ≤ r.cursorPosition.y + 2 * r.psf1Font.charsize
        then r.cursorPosition.y else r.cursorPosition.y + r.psf1Font.charsize⟩ :=
    h.start.moveTtyCursorDown_cursor
  have hy := h.cursor_y
  rw [hmoved]
  congr 1
  split
  case isTrue hscroll =>
    have hlast := h.scrolls_iff.mp hscroll
    rw [hy, Nat.min_eq_right hlast, Nat.min_eq_right (by omega)]
  case isFalse hstay =>
    have hlast := mt h.scrolls_iff.mpr hstay
    rw [hy, Nat.min_eq_left (by omega), Nat.min_eq_left (by omega), Nat.mul_succ]

theorem newLine_pixel (h : r.Shows c t) (hx : x < r.framebuffer.width)
    (hy : y < r.framebuffer.height) :
    r.lineStart.moveTtyCursorDown.pixel x y =
      if t.Lit r.psf1Font r.framebuffer.height
        (t.complete.length + 1 - lastRow r.framebuffer.height r.psf1Font.charsize +
          y / r.psf1Font.charsize) x (y % r.psf1Font.charsize)
      then r.color.toNat else c.toNat := by
  have hmoved : r.lineStart.moveTtyCursorDown.pixel x y =
      if r.framebuffer.height ≤ r.cursorPosition.y + 2 * r.psf1Font.charsize ∧
          y + r.psf1Font.charsize < r.framebuffer.height
      then r.pixel x (y + r.psf1Font.charsize) else r.pixel x y :=
    h.start.moveTtyCursorDown_pixel h.rows.two (Nat.lt_of_lt_of_le hx h.start.fits.scanLine)
  have hscrolls := h.scrolls_iff
  rw [hmoved]
  by_cases hlast : lastRow r.framebuffer.height r.psf1Font.charsize ≤ t.complete.length
  · by_cases hin : y + r.psf1Font.charsize < r.framebuffer.height
    · -- a row that another row moves to shows the line of that row
      have hindex : t.complete.length - lastRow r.framebuffer.height r.psf1Font.charsize +
          (y / r.psf1Font.charsize + 1) =
          t.complete.length + 1 - lastRow r.framebuffer.height r.psf1Font.charsize +
            y / r.psf1Font.charsize := by omega
      rw [if_pos ⟨hscrolls.mpr hlast, hin⟩, h.pixel x hx _ hin, Nat.add_mod_right,
        Nat.add_div_right _ h.rows.pos, hindex]
    · -- the others keep what they show, which counts as the next line
      have hindex : t.complete.length + 1 - lastRow r.framebuffer.height r.psf1Font.charsize +
          y / r.psf1Font.charsize =
          t.complete.length - lastRow r.framebuffer.height r.psf1Font.charsize +
            y / r.psf1Font.charsize + 1 := by omega
      have hbottom := h.rows.bottom hy (Nat.le_of_not_lt hin)
      rw [if_neg fun hscroll => hin hscroll.2, h.pixel x hx y hy, hindex]
      exact if_congr (lit_succ hlast (by omega)).symm rfl rfl
  · have hindex : t.complete.length + 1 - lastRow r.framebuffer.height r.psf1Font.charsize =
        t.complete.length - lastRow r.framebuffer.height r.psf1Font.charsize := by omega
    rw [if_neg fun hscroll => hlast (hscrolls.mp hscroll.1), h.pixel x hx y hy, hindex]

/-- A line feed keeps the screen and the text together. -/
theorem newLine (h : r.Shows c t) : r.lineStart.moveTtyCursorDown.Shows c t.newLine := by
  have hlength : t.newLine.complete.length = t.complete.length + 1 := by simp [Text.newLine]
  refine ⟨h.start.moveTtyCursorDown.lineStart, by simpa using h.rows, ?_, ?_⟩
  · rw [h.newLine_cursor, hlength, moveTtyCursorDown_framebuffer, moveTtyCursorDown_psf1Font]
    rfl
  · intro x hx y hy
    rw [moveTtyCursorDown_framebuffer] at hx hy
    simp only [moveTtyCursorDown_framebuffer, moveTtyCursorDown_psf1Font,
      moveTtyCursorDown_color, hlength, lit_newLine]
    exact h.newLine_pixel hx hy

/-! ## Characters -/

/-- The pixels of a glyph, in terms of the cell that is typed. -/
theorem mem_putCharPixels (h : r.Shows c t)
    (hroom : 9 * (t.current.length + 1) ≤ r.framebuffer.width) {symbol : Int} :
    (x, y) ∈ r.putCharPixels symbol r.cursorPosition.x r.cursorPosition.y ↔
      t.complete.length - lastRow r.framebuffer.height r.psf1Font.charsize +
          y / r.psf1Font.charsize = t.complete.length ∧
        x / 9 = t.current.length ∧ x % 9 < 8 ∧
          glyphBit r.psf1Font symbol (y % r.psf1Font.charsize) (x % 9) = true := by
  have hdiv := Nat.div_add_mod y r.psf1Font.charsize
  have hmod : y % r.psf1Font.charsize < r.psf1Font.charsize := Nat.mod_lt _ h.rows.pos
  rw [(h.cellFits hroom).mem_putCharPixels, h.cursor_x, h.cursor_y]
  have hcell (hrow : y / r.psf1Font.charsize =
      min t.complete.length (lastRow r.framebuffer.height r.psf1Font.charsize)) :
      y = r.psf1Font.charsize *
        min t.complete.length (lastRow r.framebuffer.height r.psf1Font.charsize) +
        y % r.psf1Font.charsize := by
    rw [hrow] at hdiv
    exact hdiv.symm
  constructor
  · rintro ⟨hcol, hrow, hbit⟩
    have hline : y / r.psf1Font.charsize =
        min t.complete.length (lastRow r.framebuffer.height r.psf1Font.charsize) :=
      Nat.div_eq_of_lt_le (by rw [Nat.mul_comm]; exact hrow.1)
        (by rw [Nat.succ_mul, Nat.mul_comm]; exact hrow.2)
    have hoffset := hcell hline
    rw [show x - 9 * t.current.length = x % 9 by omega,
      Nat.sub_eq_of_eq_add' hoffset] at hbit
    exact ⟨by omega, by omega, by omega, hbit⟩
  · rintro ⟨hrow, hcol, hwide, hbit⟩
    have hoffset := hcell (by omega)
    rw [show x - 9 * t.current.length = x % 9 by omega, Nat.sub_eq_of_eq_add' hoffset]
    exact ⟨by omega, by omega, hbit⟩

theorem putNext_pixel (h : r.Shows c t)
    (hroom : 9 * (t.current.length + 1) ≤ r.framebuffer.width) (hchr : chr ≠ '\n'.toUInt8)
    (hx : x < r.framebuffer.width) (hy : y < r.framebuffer.height) :
    (r.putNext chr).pixel x y =
      if (t.append chr).Lit r.psf1Font r.framebuffer.height
        (t.complete.length - lastRow r.framebuffer.height r.psf1Font.charsize +
          y / r.psf1Font.charsize) x (y % r.psf1Font.charsize)
      then r.color.toNat else c.toNat := by
  have hvisible := h.rows.row_le hy
  have hshown := h.pixel x hx y hy
  rw [if_congr (lit_append fun hspare hlast => by have := hvisible hspare; omega) rfl rfl]
  rw [putNext, if_neg hchr]
  split
  case isTrue htab =>
    simp only [htab, ne_eq, not_true_eq_false, false_and, and_false, or_false]
    exact hshown
  case isFalse htab =>
    have hdrawn := (h.cellFits hroom).putChar_pixel (x := x) (y := y) (charValue chr)
      (Nat.lt_of_lt_of_le hx h.start.fits.scanLine)
    refine Eq.trans hdrawn ?_
    rw [if_congr (h.mem_putCharPixels hroom) rfl rfl, hshown]
    simp only [htab, ne_eq, not_false_eq_true, true_and, or_comm (a := t.Lit _ _ _ _ _), ite_or]

theorem putNext (h : r.Shows c t)
    (hroom : 9 * (t.current.length + 1) ≤ r.framebuffer.width) (hchr : chr ≠ '\n'.toUInt8) :
    (r.putNext chr).Shows c (t.append chr) := by
  have hcell := h.cellFits hroom
  have hwidth := hcell.width_lt
  have hlength : (t.append chr).current.length = t.current.length + 1 := by simp [Text.append]
  refine ⟨hcell.putNext_lineStart hchr, by simpa using h.rows, ?_, ?_⟩
  · rw [putNext_cursor hchr, putNext_framebuffer, putNext_psf1Font, hlength, h.cursor_x,
      h.cursor_y, add32_eq (by omega)]
    rfl
  · intro x hx y hy
    rw [putNext_framebuffer] at hx hy
    rw [putNext_framebuffer, putNext_psf1Font, putNext_color]
    exact h.putNext_pixel hroom hchr hx hy

/-- Printing a character is typing it. -/
theorem printChar (h : r.Shows c t)
    (hroom : 9 * (t.current.length + 1) ≤ r.framebuffer.width) (chr : UInt8) :
    (r.printChar chr).Shows c (t.typeChar r.framebuffer.width chr) ∧
      9 * ((t.typeChar r.framebuffer.width chr).current.length + 1) ≤ r.framebuffer.width := by
  have hcell := h.cellFits hroom
  have hempty : 9 * (([] : List UInt8).length + 1) ≤ r.framebuffer.width := hcell.fits.wide
  by_cases hchr : chr = '\n'.toUInt8
  · rw [Text.typeChar, if_pos hchr, hchr, hcell.printChar_newline]
    exact ⟨h.newLine, hempty⟩
  · have hlength : (t.append chr).current.length = t.current.length + 1 := by simp [Text.append]
    have htyped := h.putNext hroom hchr
    rw [Text.typeChar, if_neg hchr, hcell.printChar_other hchr, hlength, h.cursor_x]
    by_cases hwrap : r.framebuffer.width < 9 * (t.current.length + 1 + 1)
    · rw [if_pos (by omega), if_pos hwrap]
      exact ⟨htyped.newLine, hempty⟩
    · rw [if_neg (by omega), if_neg hwrap]
      exact ⟨htyped, by omega⟩

theorem printChars (h : r.Shows c t)
    (hroom : 9 * (t.current.length + 1) ≤ r.framebuffer.width) (chars : List UInt8) :
    (r.printChars chars).Shows c (chars.foldl (Text.typeChar r.framebuffer.width) t) ∧
      9 * ((chars.foldl (Text.typeChar r.framebuffer.width) t).current.length + 1) ≤
        r.framebuffer.width := by
  induction chars generalizing r t with
  | nil => exact ⟨h, hroom⟩
  | cons chr chars ih =>
      obtain ⟨hnext, hroom'⟩ := h.printChar hroom chr
      have hrest := ih hnext (by rw [printChar_framebuffer]; exact hroom')
      rw [printChar_framebuffer] at hrest
      exact hrest

end Shows

/-- A cleared screen shows the empty text. -/
theorem shows_ttyClear (hfits : r.framebuffer.Fits)
    (hrows : TwoLines r.framebuffer.height r.psf1Font.charsize) (c : UInt32) :
    (r.ttyClear c true).Shows c ⟨[], []⟩ := by
  have htwo := hrows.two
  refine ⟨⟨hfits, hrows.pos, (Nat.zero_add 9).trans_le hfits.wide, ?_⟩, hrows, ?_, ?_⟩
  · show 0 + r.psf1Font.charsize ≤ r.framebuffer.height
    omega
  · show Point.mk 0 0 = _
    simp
  · intro x hx y hy
    have hline (i : Nat) : Text.line ⟨[], []⟩ i = [] := by
      cases i <;> rfl
    rw [if_neg (by simp [Text.Lit, hline])]
    exact ttyClear_pixel hfits c true hx hy

/-- What is printed on a cleared screen is shown as it was typed. -/
theorem shows_printed (hfits : r.framebuffer.Fits)
    (hrows : TwoLines r.framebuffer.height r.psf1Font.charsize) (c : UInt32)
    (chars : List UInt8) :
    ((r.ttyClear c true).printChars chars).Shows c (Text.layout r.framebuffer.width chars) ∧
      9 * ((Text.layout r.framebuffer.width chars).current.length + 1) ≤ r.framebuffer.width :=
  (shows_ttyClear hfits hrows c).printChars hfits.wide chars

/-! ## Old text -/

/-- Every pixel of the cell at the cursor has the colour `c`. -/
def CellClear (r : TTYRenderer) (c : UInt32) : Prop :=
  ∀ x y, r.cursorPosition.x ≤ x → x < r.cursorPosition.x + 8 → r.cursorPosition.y ≤ y →
    y < r.cursorPosition.y + r.psf1Font.charsize → r.pixel x y = c.toNat

/-- Whenever `put_char` is called while `strs` are printed, its cell has the colour `c`. -/
def DrawsOnClear (r : TTYRenderer) (c : UInt32) (strs : List (List UInt8)) : Prop :=
  ∀ chars chr, chars ++ [chr] <+: strs.flatMap printed → chr ≠ '\n'.toUInt8 →
    chr ≠ '\t'.toUInt8 → (r.printChars chars).CellClear c

end TTYRenderer

/-- An earlier line that stood in the last text row has a lit pixel where the next character
comes, in a row that scrolling does not overwrite. -/
def Text.Overprints (font : Psf1Font) (height : Nat) (t : Text) : Prop :=
  ∃ m < t.complete.length, lastRow height font.charsize ≤ m ∧
    ∃ col < 8, ∃ row < font.charsize, spareRows height font.charsize ≤ row ∧
      inked font (t.line m) (9 * t.current.length + col) row = true

instance (font : Psf1Font) (height : Nat) (t : Text) : Decidable (t.Overprints font height) :=
  inferInstanceAs (Decidable (∃ m < _, _ ∧ ∃ col < 8, ∃ row < _, _ ∧ _))

/-- Where the next character comes only earlier lines can have left something. -/
theorem Text.lit_next {font : Psf1Font} {height col row : Nat} (hcol : col < 8) :
    t.Lit font height t.complete.length (9 * t.current.length + col) row ↔
      spareRows height font.charsize ≤ row ∧
        ∃ m < t.complete.length, lastRow height font.charsize ≤ m ∧
          inked font (t.line m) (9 * t.current.length + col) row = true := by
  have hnext : inked font t.current (9 * t.current.length + col) row = false := by
    have hcell : (9 * t.current.length + col) / 9 = t.current.length := by omega
    simp [inked, hcell]
  simp [Text.Lit, line_current, hnext]

/-- The next cell is clear unless an earlier line shows through in a colour of its own. -/
theorem TTYRenderer.Shows.cellClear_iff (h : r.Shows c t)
    (hroom : 9 * (t.current.length + 1) ≤ r.framebuffer.width) :
    r.CellClear c ↔ r.color = c ∨ ¬ t.Overprints r.psf1Font r.framebuffer.height := by
  have hcell := h.cellFits hroom
  have hright := hcell.right
  have hbottom := hcell.bottom
  have hx := h.cursor_x
  have hpixel (col row : Nat) (hcol : col < 8) (hrow : row < r.psf1Font.charsize) :
      r.pixel (r.cursorPosition.x + col) (r.cursorPosition.y + row) =
        if t.Lit r.psf1Font r.framebuffer.height t.complete.length
          (9 * t.current.length + col) row then r.color.toNat else c.toNat := by
    have hline : t.complete.length - lastRow r.framebuffer.height r.psf1Font.charsize +
        (r.cursorPosition.y + row) / r.psf1Font.charsize = t.complete.length := by
      rw [h.cursor_y, Nat.mul_add_div h.rows.pos, Nat.div_eq_of_lt hrow]
      omega
    have hmod : (r.cursorPosition.y + row) % r.psf1Font.charsize = row := by
      rw [h.cursor_y, Nat.mul_add_mod, Nat.mod_eq_of_lt hrow]
    rw [h.pixel _ (by omega) _ (by omega), hline, hmod, hx]
  constructor
  · intro hclear
    by_contra hnot
    obtain ⟨hcolor, m, hm, hlast, col, hcol, row, hrow, hspare, hink⟩ :=
      (not_or.mp hnot).imp_right not_not.mp
    have hseen := hclear (r.cursorPosition.x + col) (r.cursorPosition.y + row)
      (by omega) (by omega) (by omega) (by omega)
    rw [hpixel col row hcol hrow,
      if_pos ((lit_next hcol).mpr ⟨hspare, m, hm, hlast, hink⟩)] at hseen
    exact hcolor (UInt32.toNat_inj.mp hseen)
  · rintro hcond x y hxlow hxhigh hylow hyhigh
    have hseen := hpixel (x - r.cursorPosition.x) (y - r.cursorPosition.y) (by omega) (by omega)
    rw [Nat.add_sub_cancel' hxlow, Nat.add_sub_cancel' hylow] at hseen
    rw [hseen]
    split
    case isTrue hlit =>
      obtain ⟨hspare, m, hm, hlast, hink⟩ := (lit_next (by omega)).mp hlit
      obtain rfl | hclear := hcond
      · rfl
      · exact absurd ⟨m, hm, hlast, _, by omega, _, by omega, hspare, hink⟩ hclear
    case isFalse => rfl

/-- On a screen of whole text lines scrolling overwrites every row. -/
theorem Text.not_overprints_whole {font : Psf1Font} {N : Nat} (hpos : 1 ≤ font.charsize)
    (hN : 2 ≤ N) : ¬ t.Overprints font (N * font.charsize) := by
  rintro ⟨m, -, -, col, -, row, hrow, hspare, -⟩
  rw [(TwoLines.whole hpos hN).2] at hspare
  omega

/-! ## The picture -/

/-- On a screen of `N` whole text lines a shown text is the picture of its last `N - 1` lines. -/
theorem TTYRenderer.Shows.picture (h : r.Shows c t) {N : Nat} (hN : 2 ≤ N)
    (hheight : r.framebuffer.height = N * r.psf1Font.charsize)
    (hx : x < r.framebuffer.width) (hy : y < r.framebuffer.height) :
    r.pixel x y =
      (FroggyOs.picture r.psf1Font (t.lines.drop (t.lines.length - (N - 1))) r.color c
        x y).toNat := by
  obtain ⟨hlast, hspare⟩ := TwoLines.whole h.rows.pos hN
  have hrow : y % r.psf1Font.charsize < r.psf1Font.charsize := Nat.mod_lt _ h.rows.pos
  have hlength : t.lines.length = t.complete.length + 1 := by simp [Text.lines]
  have hindex : t.lines.length - (N - 1) + y / r.psf1Font.charsize =
      t.complete.length - lastRow r.framebuffer.height r.psf1Font.charsize +
        y / r.psf1Font.charsize := by
    rw [hheight]
    omega
  have hnot : ¬ spareRows r.framebuffer.height r.psf1Font.charsize ≤ y % r.psf1Font.charsize := by
    rw [hheight, hspare]
    omega
  rw [h.pixel x hx y hy, FroggyOs.picture, apply_ite UInt32.toNat, List.getElem?_drop, hindex]
  refine if_congr ?_ rfl rfl
  rw [Text.Lit, or_iff_left fun hspared => hnot hspared.1]
  rfl

/-- On a screen of `N` whole text lines, the pixels are the picture of the last `N - 1` lines of
the printed string. -/
theorem ttyPrint_picture (hfits : r.framebuffer.Fits) {N : Nat}
    (hheight : r.framebuffer.height = N * r.psf1Font.charsize) (hN : 2 ≤ N) (c : UInt32)
    {str : List UInt8} (hstr : ∀ chr ∈ str, chr ≠ 0)
    (hx : x < r.framebuffer.width) (hy : y < r.framebuffer.height) :
    let lines := (Text.layout r.framebuffer.width str).lines
    ((r.ttyClear c true).ttyPrint str).pixel x y =
      (picture r.psf1Font (lines.drop (lines.length - (N - 1))) r.color c x y).toNat := by
  intro lines
  have hpos : 1 ≤ r.psf1Font.charsize := by
    by_contra hzero
    have hnone : r.psf1Font.charsize = 0 := by omega
    rw [hheight, hnone] at hy
    omega
  have hrows : TwoLines r.framebuffer.height r.psf1Font.charsize := by
    refine ⟨hpos, ?_⟩
    rw [hheight]
    exact Nat.mul_le_mul_right _ hN
  obtain ⟨hshows, -⟩ := shows_printed hfits hrows c str
  have hpixel := hshows.picture (x := x) (y := y) hN (by simpa using hheight) (by simpa using hx)
    (by simpa using hy)
  rw [ttyPrint_eq_printChars, printed_eq_self hstr, hpixel]
  simp only [printChars_psf1Font, printChars_color, ttyClear_psf1Font, ttyClear_color]
  rfl

theorem twoByTwo_picture :
    let r := rendererAt twoByTwo (blockFont 8) 1 ⟨fun _ => 0⟩
    ((r.ttyClear 0 true).ttyPrint [10, 65]).pixel 3 5 =
      (picture (blockFont 8) [[65]] 1 0 3 5).toNat :=
  @ttyPrint_picture (rendererAt twoByTwo (blockFont 8) 1 ⟨fun _ => 0⟩) 3 5 twoByTwo_fits 2 rfl
    (by decide) 0 [10, 65] (by simp) (by decide) (by decide)

/-! ## Text over text -/

/-- Each cell is clear when its character is drawn if and only if the text has the clear colour,
or no character comes where an earlier line still shows through. -/
theorem drawsOnClear_iff (hfits : r.framebuffer.Fits)
    (hrows : TwoLines r.framebuffer.height r.psf1Font.charsize) (c : UInt32)
    (strs : List (List UInt8)) :
    (r.ttyClear c true).DrawsOnClear c strs ↔
      r.color = c ∨ ∀ chars chr, chars ++ [chr] <+: strs.flatMap printed →
        chr ≠ '\n'.toUInt8 → chr ≠ '\t'.toUInt8 →
        ¬ (Text.layout r.framebuffer.width chars).Overprints r.psf1Font r.framebuffer.height := by
  have hcell (chars : List UInt8) : ((r.ttyClear c true).printChars chars).CellClear c ↔
      r.color = c ∨
        ¬ (Text.layout r.framebuffer.width chars).Overprints r.psf1Font r.framebuffer.height := by
    obtain ⟨hshows, hroom⟩ := shows_printed hfits hrows c chars
    have hclear := hshows.cellClear_iff (by simpa using hroom)
    simpa using hclear
  constructor
  · intro hdraws
    by_cases hcolor : r.color = c
    · exact Or.inl hcolor
    · right
      intro chars chr hprefix hnewline htab
      exact ((hcell chars).mp (hdraws chars chr hprefix hnewline htab)).resolve_left hcolor
  · rintro hcond chars chr hprefix hnewline htab
    exact (hcell chars).mpr (hcond.imp_right fun h => h chars chr hprefix hnewline htab)

theorem twoByTwo_drawsOnClear :
    ((rendererAt twoByTwo (blockFont 8) 1 ⟨fun _ => 0⟩).ttyClear 0 true).DrawsOnClear 0
      [[10, 65, 65, 65]] :=
  (@drawsOnClear_iff (rendererAt twoByTwo (blockFont 8) 1 ⟨fun _ => 0⟩) twoByTwo_fits
    ⟨by decide, by decide⟩ 0 [[10, 65, 65, 65]]).mpr
      (Or.inr fun _ _ _ _ _ => Text.not_overprints_whole (N := 2) (by decide) (by decide))

/-- A screen of one cell to a line, two text lines and one more scan line. -/
def fiveRows : FrameBuffer := ⟨0x1000, 180, 9, 5, 9⟩

theorem fiveRows_fits : fiveRows.Fits := by
  constructor <;> decide

/-- In the second text row the second character comes over the lower half of the first. -/
theorem not_drawsOnClear_fiveRows :
    ¬ ((rendererAt fiveRows (blockFont 2) 1 ⟨fun _ => 0⟩).ttyClear 0 true).DrawsOnClear 0
      [[10, 65, 65]] := by
  intro hdraws
  have hrows : TwoLines 5 2 := ⟨by decide, by decide⟩
  obtain ⟨hshows, hroom⟩ := @shows_printed (rendererAt fiveRows (blockFont 2) 1 ⟨fun _ => 0⟩)
    fiveRows_fits hrows 0 [10, 65]
  have hclear := (hshows.cellClear_iff (by simpa using hroom)).mp
    (hdraws [10, 65] 65 (by decide) (by decide) (by decide))
  simp only [printChars_framebuffer, printChars_psf1Font, printChars_color, ttyClear_framebuffer,
    ttyClear_psf1Font, ttyClear_color] at hclear
  revert hclear
  decide

end FroggyOs
