import FroggyOs.Vga.Framebuffer

/-!
# Text on a grid of cells

What the terminal is for: a text is broken into lines at each newline and where another cell
would not fit, and a line is drawn as a row of glyphs. The second half says which pixels of a
screen are lit when the text has scrolled through it, also when the height of the screen is
not a whole number of lines.
-/

namespace FroggyOs

open TTYRenderer

/-- The finished lines, and the one that is being typed. -/
structure Text where
  complete : List (List UInt8)
  current : List UInt8

namespace Text

variable {t : Text} {chr : UInt8} {i : Nat}

def lines (t : Text) : List (List UInt8) := t.complete ++ [t.current]

/-- Line `i`, or the empty line behind the text. -/
def line (t : Text) (i : Nat) : List UInt8 := t.lines[i]?.getD []

def newLine (t : Text) : Text := ⟨t.complete ++ [t.current], []⟩

def append (t : Text) (chr : UInt8) : Text := { t with current := t.current ++ [chr] }

/-- A line ends at a newline, and when the next cell of 9 pixels would not fit. -/
def typeChar (width : Nat) (t : Text) (chr : UInt8) : Text :=
  if chr = '\n'.toUInt8 then t.newLine
  else if width < 9 * ((t.append chr).current.length + 1) then (t.append chr).newLine
  else t.append chr

def layout (width : Nat) (chars : List UInt8) : Text := chars.foldl (typeChar width) ⟨[], []⟩

theorem line_newLine : t.newLine.line i = t.line i := by
  simp only [line, lines, newLine]
  generalize t.complete ++ [t.current] = xs
  rw [List.getElem?_append]
  split
  case isTrue => rfl
  case isFalse hout =>
    rw [List.getElem?_eq_none (Nat.le_of_not_lt hout)]
    cases i - xs.length <;> rfl

theorem line_current : t.line t.complete.length = t.current := by
  simp [line, lines]

/-- Behind the line that is being typed there is nothing. -/
theorem line_behind (hi : t.complete.length < i) : t.line i = [] := by
  have hlength : t.lines.length ≤ i := by
    rw [lines, List.length_append]
    exact hi
  rw [line, List.getElem?_eq_none hlength]
  rfl

theorem line_append_of_ne (hi : i ≠ t.complete.length) : (t.append chr).line i = t.line i := by
  obtain hbefore | hbehind := Nat.lt_or_gt_of_ne hi
  · simp only [line, lines, append, List.getElem?_append_left hbefore]
  · rw [line_behind hbehind, line_behind (t := t.append chr) hbehind]

end Text

/-! ## Glyphs -/

/-- Row `row` of the line `chars` is lit in column `x`: a tab leaves its cell empty, and the
ninth column of a cell stays free. -/
def inked (font : Psf1Font) (chars : List UInt8) (x row : Nat) : Bool :=
  match chars[x / 9]? with
  | some chr =>
      decide (chr ≠ '\t'.toUInt8) && decide (x % 9 < 8) &&
        glyphBit font (charValue chr) row (x % 9)
  | none => false

variable {font : Psf1Font} {line : List UInt8} {chr : UInt8} {x row : Nat}

@[simp] theorem inked_nil : inked font [] x row = false := rfl

/-- Typing a character adds the pixels of its glyph. -/
theorem inked_append :
    inked font (line ++ [chr]) x row = true ↔
      inked font line x row = true ∨
        x / 9 = line.length ∧ chr ≠ '\t'.toUInt8 ∧ x % 9 < 8 ∧
          glyphBit font (charValue chr) row (x % 9) = true := by
  obtain hlt | heq | hgt := Nat.lt_trichotomy (x / 9) line.length
  · have hne : x / 9 ≠ line.length := Nat.ne_of_lt hlt
    simp [inked, List.getElem?_append_left hlt, hne]
  · simp [inked, heq, and_assoc]
  · have hne : x / 9 ≠ line.length := Nat.ne_of_gt hgt
    have hbehind : (line ++ [chr])[x / 9]? = none := by
      rw [List.getElem?_eq_none]
      rw [List.length_append]
      exact hgt
    simp [inked, hbehind, List.getElem?_eq_none (Nat.le_of_lt hgt), hne]

/-! ## Screens -/

/-- The picture of some lines, one below the other. -/
def picture (font : Psf1Font) (visible : List (List UInt8)) (color c : UInt32) (x y : Nat) :
    UInt32 :=
  if inked font (visible[y / font.charsize]?.getD []) x (y % font.charsize) then color else c

/-- The last text row the cursor reaches on a screen of this height. -/
def lastRow (height charsize : Nat) : Nat := (height - 1) / charsize - 1

/-- The scan lines below the last text row. -/
def spareRows (height charsize : Nat) : Nat := height - charsize * (lastRow height charsize + 1)

/-- Row `row` of line `i` is lit in column `x`: by its own glyphs, or, in the rows that
scrolling does not overwrite, by an earlier line that stood in the last text row. -/
def Text.Lit (font : Psf1Font) (height : Nat) (t : Text) (i x row : Nat) : Prop :=
  inked font (t.line i) x row = true ∨
    spareRows height font.charsize ≤ row ∧
      ∃ m < i, lastRow height font.charsize ≤ m ∧ inked font (t.line m) x row = true

instance (font : Psf1Font) (height : Nat) (t : Text) (i x row : Nat) :
    Decidable (t.Lit font height i x row) :=
  inferInstanceAs (Decidable (_ ∨ _ ∧ _))

/-- At least two text lines fit on a screen of this height. -/
structure TwoLines (height charsize : Nat) : Prop where
  pos : 1 ≤ charsize
  two : 2 * charsize ≤ height

namespace TwoLines

variable {height charsize y : Nat}

/-- Below the last text row there is at most one more. -/
theorem height_eq (h : TwoLines height charsize) :
    height = charsize * (lastRow height charsize + 1) + spareRows height charsize ∧
      1 ≤ spareRows height charsize ∧ spareRows height charsize ≤ charsize := by
  have hpos := h.pos
  have htwo := h.two
  have hdiv : charsize * ((height - 1) / charsize) + (height - 1) % charsize = height - 1 :=
    Nat.div_add_mod _ _
  have hmod : (height - 1) % charsize < charsize := Nat.mod_lt _ hpos
  have hone : 1 ≤ (height - 1) / charsize := (Nat.le_div_iff_mul_le hpos).mpr (by omega)
  have hrow : lastRow height charsize + 1 = (height - 1) / charsize := by
    rw [lastRow]
    omega
  rw [spareRows, hrow]
  omega

/-- The rows a scroll leaves alone in the last text row are not above its spare rows. -/
theorem row_le (h : TwoLines height charsize) (hy : y < height)
    (hspare : spareRows height charsize ≤ y % charsize) :
    y / charsize ≤ lastRow height charsize := by
  obtain ⟨heq, -, -⟩ := h.height_eq
  have hdiv := Nat.div_add_mod y charsize
  by_contra hbelow
  have hrows : charsize * (lastRow height charsize + 1) ≤ charsize * (y / charsize) :=
    Nat.mul_le_mul_left _ (by omega)
  omega

/-- The scan lines to which a scroll moves nothing: the end of the last text row, and the
spare rows below it. -/
theorem bottom (h : TwoLines height charsize) (hy : y < height) (hlast : height ≤ y + charsize) :
    y / charsize = lastRow height charsize ∧ spareRows height charsize ≤ y % charsize ∨
      y / charsize = lastRow height charsize + 1 ∧ y % charsize < spareRows height charsize := by
  obtain ⟨heq, hspare, hle⟩ := h.height_eq
  have hdiv := Nat.div_add_mod y charsize
  have hmod : y % charsize < charsize := Nat.mod_lt _ h.pos
  have hmul (a b : Nat) (hab : a ≤ b) : charsize * a ≤ charsize * b := Nat.mul_le_mul_left _ hab
  obtain habove | hat | hbelow := Nat.lt_trichotomy (y / charsize) (lastRow height charsize)
  · have hrows := hmul (y / charsize + 2) (lastRow height charsize + 1) (by omega)
    rw [Nat.mul_add] at hrows
    omega
  · left
    rw [hat] at hdiv
    rw [Nat.mul_succ] at heq
    omega
  · right
    have hnext := hmul (lastRow height charsize + 1) (y / charsize) hbelow
    have hlow : y / charsize ≤ lastRow height charsize + 1 := by
      by_contra hfar
      have hrows := hmul (lastRow height charsize + 2) (y / charsize) (by omega)
      rw [Nat.mul_succ] at hrows
      omega
    have hrow : y / charsize = lastRow height charsize + 1 := by omega
    rw [hrow] at hdiv
    omega

/-- The cursor is near the bottom exactly in the last text row. -/
theorem scrolls_iff (h : TwoLines height charsize) (n : Nat) :
    height ≤ charsize * min n (lastRow height charsize) + 2 * charsize ↔
      lastRow height charsize ≤ n := by
  obtain ⟨heq, hspare, hle⟩ := h.height_eq
  constructor
  · intro hscroll
    by_contra habove
    have hrows : charsize * (n + 1) ≤ charsize * lastRow height charsize :=
      Nat.mul_le_mul_left _ (by omega)
    rw [Nat.min_eq_left (by omega)] at hscroll
    rw [Nat.mul_succ] at heq hrows
    omega
  · intro hn
    rw [Nat.min_eq_right hn]
    rw [Nat.mul_succ] at heq
    omega

/-- A screen of whole text lines: the last one stays free. -/
theorem whole {N : Nat} (hpos : 1 ≤ charsize) (hN : 2 ≤ N) :
    lastRow (N * charsize) charsize + 2 = N ∧ spareRows (N * charsize) charsize = charsize := by
  have hsplit : N * charsize = charsize * (N - 1) + charsize := by
    rw [← Nat.mul_succ, Nat.mul_comm]
    congr 1
    omega
  have hrow : (N * charsize - 1) / charsize = N - 1 := by
    rw [hsplit, Nat.add_sub_assoc hpos, Nat.mul_add_div hpos, Nat.div_eq_of_lt (by omega)]
    rfl
  have hlast : lastRow (N * charsize) charsize + 2 = N := by
    rw [lastRow, hrow]
    omega
  have hrows : lastRow (N * charsize) charsize + 1 = N - 1 := by omega
  refine ⟨hlast, ?_⟩
  rw [spareRows, hrows, hsplit, Nat.add_sub_cancel_left]

end TwoLines

/-! ## What typing changes -/

namespace Text

variable {height i : Nat} {t : Text}

theorem lit_newLine : t.newLine.Lit font height i x row ↔ t.Lit font height i x row := by
  simp only [Lit, line_newLine]

/-- Typing a character adds its glyph to the current line. The spare rows of lines further
down are not on the screen. -/
theorem lit_append (hvisible : spareRows height font.charsize ≤ row →
      lastRow height font.charsize ≤ t.complete.length → i ≤ t.complete.length) :
    (t.append chr).Lit font height i x row ↔
      t.Lit font height i x row ∨
        i = t.complete.length ∧ x / 9 = t.current.length ∧ chr ≠ '\t'.toUInt8 ∧ x % 9 < 8 ∧
          glyphBit font (charValue chr) row (x % 9) = true := by
  have hline : (t.append chr).line t.complete.length = t.current ++ [chr] :=
    line_current (t := t.append chr)
  have hearlier (hspare : spareRows height font.charsize ≤ row) :
      (∃ m < i, lastRow height font.charsize ≤ m ∧
        inked font ((t.append chr).line m) x row = true) ↔
      ∃ m < i, lastRow height font.charsize ≤ m ∧ inked font (t.line m) x row = true := by
    refine exists_congr fun m => and_congr_right fun hm => and_congr_right fun hlast => ?_
    have hne : m ≠ t.complete.length := by
      rintro rfl
      have hi := hvisible hspare hlast
      omega
    rw [line_append_of_ne hne]
  simp only [Lit]
  rw [and_congr_right hearlier]
  by_cases hi : i = t.complete.length
  · rw [hi, hline, inked_append, line_current]
    simp only [true_and]
    exact or_right_comm
  · rw [line_append_of_ne hi]
    simp only [hi, false_and, or_false]

/-- Where a scroll moves nothing, the rows hold what the last text row held before it. -/
theorem lit_succ (hlast : lastRow height font.charsize ≤ t.complete.length)
    (hi : i = t.complete.length ∧ spareRows height font.charsize ≤ row ∨
      i = t.complete.length + 1 ∧ row < spareRows height font.charsize) :
    t.Lit font height (i + 1) x row ↔ t.Lit font height i x row := by
  have hbehind : t.line (t.complete.length + 1) = [] := line_behind (Nat.lt_succ_self _)
  obtain ⟨rfl, hspare⟩ | ⟨rfl, hrow⟩ := hi
  · simp only [Lit, hbehind, inked_nil, Bool.false_eq_true, false_or, hspare, true_and,
      Nat.lt_succ_iff_lt_or_eq]
    constructor
    · rintro ⟨m, hm | rfl, hmem⟩
      · exact Or.inr ⟨m, hm, hmem⟩
      · exact Or.inl hmem.2
    · rintro (hink | ⟨m, hm, hmem⟩)
      · exact ⟨_, Or.inr rfl, hlast, hink⟩
      · exact ⟨m, Or.inl hm, hmem⟩
  · have hbehind' : t.line (t.complete.length + 1 + 1) = [] := line_behind (by omega)
    have hnot : ¬ spareRows height font.charsize ≤ row := Nat.not_le_of_lt hrow
    simp only [Lit, hbehind, hbehind', hnot, false_and]

end Text

end FroggyOs
