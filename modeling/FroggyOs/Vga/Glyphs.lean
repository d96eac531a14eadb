import FroggyOs.Library.CString
import FroggyOs.Vga.Bounds

/-!
# The glyphs that `tty_print` looks up

`put_char` moves a pointer through the rows of a glyph. `printReads` lists the bytes that it
reads while a string is printed, by their offsets from `glyph_buffer`; the screen depends on
no other byte of the font (`ttyPrint_congr`).

The symbol is a signed `char`, so a byte from 128 on is a negative number, and its glyph is
looked up in front of the table.
-/

namespace FroggyOs

open ByteMemory Word32

/-- A byte of the font, read for row `row` of the glyph of `chr`. -/
structure GlyphRead where
  chr : UInt8
  row : Nat
  offset : Int
deriving DecidableEq

namespace TTYRenderer

/-- `*glyphPtr` in the loops of `put_char`, which test it for each column. -/
def putCharReads (r : TTYRenderer) (chr : UInt8) (xOffset yOffset : Nat) : List GlyphRead :=
  (counts yOffset r.psf1Font.charsize).flatMap fun y =>
    (counts xOffset 8).map fun _ =>
      ⟨chr, y - yOffset, charValue chr * r.psf1Font.charsize + (y - yOffset : Nat)⟩

def putNextReads (r : TTYRenderer) (chr : UInt8) : List GlyphRead :=
  if chr = '\n'.toUInt8 then []
  else if chr = '\t'.toUInt8 then []
  else r.putCharReads chr r.cursorPosition.x r.cursorPosition.y

def printReads (r : TTYRenderer) : List UInt8 → List GlyphRead
  | [] => []
  | chr :: str => if chr = 0 then [] else r.putNextReads chr ++ (r.printChar chr).printReads str

/-! ## The screen depends on these bytes only -/

section Congr

variable {r : TTYRenderer} {chr : UInt8} {font : Psf1Font}

/-- The same renderer with another font. -/
def withFont (r : TTYRenderer) (font : Psf1Font) : TTYRenderer := { r with psf1Font := font }

/-- The other font has the same rows and agrees where it is read. -/
structure Agrees (r : TTYRenderer) (font : Psf1Font) (reads : List GlyphRead) : Prop where
  charsize : font.charsize = r.psf1Font.charsize
  byte : ∀ g ∈ reads, font.glyphBuffer g.offset = r.psf1Font.glyphBuffer g.offset

theorem putChar_withFont {xOffset yOffset : Nat}
    (h : r.Agrees font (r.putCharReads chr xOffset yOffset)) :
    (r.withFont font).putChar (charValue chr) xOffset yOffset =
      (r.putChar (charValue chr) xOffset yOffset).withFont font := by
  have hpixels : (r.withFont font).putCharPixels (charValue chr) xOffset yOffset =
      r.putCharPixels (charValue chr) xOffset yOffset := by
    rw [putCharPixels, putCharPixels, withFont, h.charsize]
    refine List.flatMap_congr fun y hy => congrArg _ (List.filter_congr fun x hx => ?_)
    have hread := h.byte
      ⟨chr, y - yOffset, charValue chr * r.psf1Font.charsize + (y - yOffset : Nat)⟩
      (List.mem_flatMap.mpr ⟨y, hy, List.mem_map.mpr ⟨x, hx, rfl⟩⟩)
    rw [glyphBit, glyphBit, h.charsize, hread]
  rw [putChar, hpixels]
  rfl

theorem moveTtyCursorDown_withFont (hsize : font.charsize = r.psf1Font.charsize) :
    (r.withFont font).moveTtyCursorDown = r.moveTtyCursorDown.withFont font := by
  simp only [moveTtyCursorDown, withFont, copyRegionStart, copySize, hsize]
  split
  case isTrue => rfl
  case isFalse => rfl

theorem putNext_withFont (h : r.Agrees font (r.putNextReads chr)) :
    (r.withFont font).putNext chr = (r.putNext chr).withFont font := by
  rw [putNextReads] at h
  rw [putNext, putNext]
  by_cases hnewline : chr = '\n'.toUInt8
  · rw [if_pos hnewline, if_pos hnewline]
    exact @moveTtyCursorDown_withFont r.lineStart font h.charsize
  rw [if_neg hnewline] at h
  rw [if_neg hnewline, if_neg hnewline]
  by_cases htab : chr = '\t'.toUInt8
  · rw [if_pos htab, if_pos htab]
    rfl
  · rw [if_neg htab] at h
    rw [if_neg htab, if_neg htab]
    have hdrawn := putChar_withFont h
    exact congrArg
      (fun r : TTYRenderer => { r with cursorPosition.x := add32 r.cursorPosition.x 9 }) hdrawn

theorem wrapLine_withFont (hsize : font.charsize = r.psf1Font.charsize) :
    (r.withFont font).wrapLine = r.wrapLine.withFont font := by
  rw [wrapLine, wrapLine]
  by_cases hwrap : add32 r.cursorPosition.x 9 > r.framebuffer.width
  · rw [if_pos hwrap]
    exact (if_pos hwrap).trans (@moveTtyCursorDown_withFont r.lineStart font hsize)
  · rw [if_neg hwrap]
    exact if_neg hwrap

theorem printChar_withFont (h : r.Agrees font (r.putNextReads chr)) :
    (r.withFont font).printChar chr = (r.printChar chr).withFont font := by
  rw [printChar, putNext_withFont h]
  apply wrapLine_withFont
  rw [putNext_psf1Font]
  exact h.charsize

/-- Two fonts that agree on what is read print the same screen. -/
theorem ttyPrint_congr {str : List UInt8} (h : r.Agrees font (r.printReads str)) :
    (r.withFont font).ttyPrint str = (r.ttyPrint str).withFont font := by
  induction str generalizing r with
  | nil => rfl
  | cons chr str ih =>
      rw [ttyPrint, ttyPrint]
      split
      case isTrue => rfl
      case isFalse hne =>
        have hreads := h.byte
        rw [printReads, if_neg hne] at hreads
        rw [printChar_withFont ⟨h.charsize, fun g hg => hreads g (List.mem_append_left _ hg)⟩]
        refine ih ⟨?_, fun g hg => ?_⟩
        · rw [printChar_psf1Font]
          exact h.charsize
        · rw [printChar_psf1Font]
          exact hreads g (List.mem_append_right _ hg)

end Congr

end TTYRenderer

open TTYRenderer

/-! ## Which glyphs are read -/

/-- Row `row` of glyph number `chr`, in a table of 256 glyphs. -/
structure GlyphRead.InFont (charsize : Nat) (g : GlyphRead) : Prop where
  start : 0 ≤ g.offset
  stop : g.offset < 256 * charsize
  glyph : g.offset = g.chr.toNat * charsize + g.row

/-- Whatever the renderer, printing the string reads the glyphs of its bytes. -/
def LooksUp (font : Psf1Font) (str : CString) : Prop :=
  ∀ r : TTYRenderer, r.psf1Font = font → ∀ g ∈ r.printReads str.bytes, g.InFont font.charsize

section LooksUp

variable {r : TTYRenderer} {font : Psf1Font} {chr : UInt8} {str : List UInt8} {g : GlyphRead}

theorem charValue_eq (chr : UInt8) : charValue chr = Int.bmod chr.toNat (2 ^ 8) :=
  BitVec.toInt_eq_toNat_bmod chr.toBitVec

theorem charValue_of_lt (h : chr.toNat < 128) : charValue chr = chr.toNat := by
  rw [charValue_eq, Int.bmod_eq_of_le (by omega) (by omega)]

theorem charValue_of_le (h : 128 ≤ chr.toNat) : charValue chr < 0 := by
  have hlt := chr.toNat_lt
  rw [charValue_eq, Int.bmod_def]
  omega

theorem mem_putCharReads {xOffset yOffset : Nat} (hg : g ∈ r.putCharReads chr xOffset yOffset) :
    g.chr = chr ∧ g.row < r.psf1Font.charsize ∧
      g.offset = charValue chr * r.psf1Font.charsize + g.row := by
  obtain ⟨y, hy, hrow⟩ := List.mem_flatMap.mp hg
  obtain ⟨x, -, rfl⟩ := List.mem_map.mp hrow
  refine ⟨rfl, ?_, rfl⟩
  have hle : add32 yOffset r.psf1Font.charsize ≤ yOffset + r.psf1Font.charsize := Nat.mod_le _ _
  rw [counts, List.mem_range'_1] at hy
  show y - yOffset < _
  omega

/-- A byte below 128 is a positive `char`. -/
theorem putNextReads_inFont (hchr : r.psf1Font.charsize = 0 ∨ chr.toNat < 128)
    (hg : g ∈ r.putNextReads chr) : g.InFont r.psf1Font.charsize := by
  rw [putNextReads] at hg
  split at hg
  case isTrue => cases hg
  case isFalse =>
    split at hg
    case isTrue => cases hg
    case isFalse =>
      obtain ⟨rfl, hrow, hoffset⟩ := mem_putCharReads hg
      obtain hzero | hlt := hchr
      · omega
      · rw [charValue_of_lt hlt] at hoffset
        have hrows : g.chr.toNat * r.psf1Font.charsize ≤ 127 * r.psf1Font.charsize :=
          Nat.mul_le_mul_right _ (Nat.le_of_lt_succ hlt)
        have hnat : g.offset = (g.chr.toNat * r.psf1Font.charsize + g.row : Nat) := by
          rw [hoffset]
          push_cast
          rfl
        exact ⟨by omega, by omega, hoffset⟩

theorem printReads_inFont (hstr : r.psf1Font.charsize = 0 ∨ ∀ c ∈ str, c.toNat < 128)
    (hg : g ∈ r.printReads str) : g.InFont r.psf1Font.charsize := by
  induction str generalizing r with
  | nil => cases hg
  | cons chr str ih =>
      rw [printReads] at hg
      split at hg
      case isTrue => cases hg
      case isFalse =>
        obtain hnow | hlater := List.mem_append.mp hg
        · exact putNextReads_inFont (hstr.imp_right fun h => h chr List.mem_cons_self) hnow
        · have hrest := @ih (r.printChar chr)
          rw [printChar_psf1Font] at hrest
          exact hrest (hstr.imp_right fun h c hc => h c (List.mem_cons_of_mem _ hc)) hlater

/-- Where a cell fits, a glyph is read from its first row on. -/
theorem mem_putNextReads (h : r.CellFits) (hchr : 128 ≤ chr.toNat) :
    ⟨chr, 0, charValue chr * r.psf1Font.charsize⟩ ∈ r.putNextReads chr := by
  have hnewline : chr ≠ '\n'.toUInt8 := by
    rintro rfl
    exact absurd hchr (by decide)
  have htab : chr ≠ '\t'.toUInt8 := by
    rintro rfl
    exact absurd hchr (by decide)
  have hwidth := h.width_lt
  have hheight := h.height_lt
  have hright := h.right
  have hbottom := h.bottom
  have hpos := h.charsize_pos
  rw [putNextReads, if_neg hnewline, if_neg htab, putCharReads, List.mem_flatMap]
  refine ⟨r.cursorPosition.y, (mem_counts (by omega)).mpr (by omega),
    List.mem_map.mpr ⟨r.cursorPosition.x, (mem_counts (by omega)).mpr (by omega), ?_⟩⟩
  simp

/-- Each byte of the string is read for, since a cell fits in front of each. -/
theorem mem_printReads (h : r.CellFits) (hnoNul : 0 ∉ str) (hmem : chr ∈ str)
    (hchr : 128 ≤ chr.toNat) :
    ⟨chr, 0, charValue chr * r.psf1Font.charsize⟩ ∈ r.printReads str := by
  induction str generalizing r with
  | nil => cases hmem
  | cons c str ih =>
      obtain ⟨hc, hrest⟩ := not_or.mp (mt List.mem_cons.mpr hnoNul)
      rw [printReads, if_neg (Ne.symm hc), List.mem_append]
      obtain rfl | hlater := List.mem_cons.mp hmem
      · exact .inl (mem_putNextReads h hchr)
      · have hread := ih (h.printChar c) hrest hlater
        rw [printChar_psf1Font] at hread
        exact .inr hread

/-- A framebuffer of two lines of one cell. -/
def oneColumn (charsize : Nat) : FrameBuffer := ⟨0x1000, 2 * charsize * 9 * 4, 9, 2 * charsize, 9⟩

theorem oneColumn_fits {charsize : Nat} (hsize : charsize < 256) : (oneColumn charsize).Fits where
  wide := Nat.le_refl 9
  scanLine := Nat.le_refl 9
  size := rfl
  small := by
    simp only [oneColumn]
    omega
  mapped := by
    simp only [oneColumn]
    omega

theorem LooksUp.below {str : CString} (h : LooksUp font str) (hsize : font.charsize < 256)
    (hpos : 1 ≤ font.charsize) : ∀ c ∈ str.bytes, c.toNat < 128 := by
  intro c hc
  by_contra hhigh
  have hfits := rendererAt_cellFits (oneColumn_fits hsize) hpos
    (Nat.le_mul_of_pos_left _ (by decide)) 0 ⟨fun _ => 0⟩
  have hread := mem_printReads hfits str.noNul hc (Nat.le_of_not_lt hhigh)
  have hstart := (h _ rfl _ hread).start
  have hneg := charValue_of_le (Nat.le_of_not_lt hhigh)
  have hmul : charValue c * font.charsize < 0 := Int.mul_neg_of_neg_of_pos hneg (by omega)
  exact absurd hstart (Int.not_le.mpr hmul)

/-- The lookups stay in the font exactly for the strings without a byte from 128 on. -/
theorem looksUp_iff {str : CString} (hsize : font.charsize < 256) :
    LooksUp font str ↔ font.charsize = 0 ∨ ∀ c ∈ str.bytes, c.toNat < 128 := by
  constructor
  · intro h
    obtain hzero | hpos := Nat.eq_zero_or_pos font.charsize
    · exact .inl hzero
    · exact .inr (h.below hsize hpos)
  · rintro hstr r rfl g hg
    exact printReads_inFont hstr hg

theorem looksUp_ascii : LooksUp ⟨16, fun _ => 0⟩ ⟨[0x66, 0x72, 0x6f, 0x67], by decide⟩ :=
  (looksUp_iff (by decide)).mpr (.inr (by simp))

/-- The byte 0x80 in a font of 16 rows. -/
theorem not_looksUp_high : ¬ LooksUp ⟨16, fun _ => 0⟩ ⟨[0x80], by decide⟩ := by
  intro h
  have hbelow := h.below (by decide) (by decide) 0x80 List.mem_cons_self
  exact absurd hbelow (by decide)

end LooksUp

end FroggyOs
