import Mathlib.Data.Nat.ModEq
import Mathlib.RingTheory.Int.Basic
import Mathlib.Tactic.Ring
import FroggyOs.Vga.Screen

/-!
# `clear_tty_line`

The function is to give the rows of one text line one colour. Row and pitch are scaled once
too often on the way to the address, so the pixels it writes are all a multiple of four words
away from the start of the framebuffer, and the rows it counts are not rows of the band.
-/

namespace FroggyOs

open ByteMemory Word64 Word32

/-- A framebuffer of whole scan lines, of any width. -/
structure FrameBuffer.WholeLines (fb : FrameBuffer) : Prop where
  scanLine : fb.width ≤ fb.pixelsPerScanLine
  small : fb.height * fb.pixelsPerScanLine * 4 < 2 ^ 32
  /-- The framebuffer is an object: its addresses do not wrap around. -/
  mapped : fb.baseAddress + fb.height * fb.pixelsPerScanLine * 4 ≤ 2 ^ 64

theorem FrameBuffer.bytes_eq (fb : FrameBuffer) :
    fb.height * fb.pixelsPerScanLine * 4 = 4 * (fb.pixelsPerScanLine * fb.height) := by
  rw [Nat.mul_comm fb.height, Nat.mul_comm]

namespace TTYRenderer

/-- The band of `charsize` rows from `line` on gets the colour, and no other byte changes. -/
structure ClearsBand (r : TTYRenderer) (color : UInt32) (line : Nat) : Prop where
  inside : ∀ x, x < r.framebuffer.baseAddress ∨ r.framebuffer.baseAddress +
      r.framebuffer.height * r.framebuffer.pixelsPerScanLine * 4 ≤ x →
    (r.clearTtyLine color line).mem.byte x = r.mem.byte x
  cleared : ∀ x y, x < r.framebuffer.width → line ≤ y → y < line + r.psf1Font.charsize →
    (r.clearTtyLine color line).pixel x y = color.toNat
  kept : ∀ x y, x < r.framebuffer.pixelsPerScanLine → y < r.framebuffer.height →
    ¬ (x < r.framebuffer.width ∧ line ≤ y ∧ y < line + r.psf1Font.charsize) →
      (r.clearTtyLine color line).pixel x y = r.pixel x y

/-- The words `clear_tty_line` writes, counted from the start of the framebuffer. -/
def clearedWords (r : TTYRenderer) (line : Nat) : List Nat :=
  (counts (mul32 line (mul32 r.framebuffer.pixelsPerScanLine 4)) r.psf1Font.charsize).flatMap
    fun y => (List.range r.framebuffer.width).map
      fun x => 4 * (x + r.framebuffer.pixelsPerScanLine * y) % 2 ^ 32

variable {r : TTYRenderer} {color : UInt32} {line x y k : Nat} {m : Mem}

theorem clearTtyLine_mem : (r.clearTtyLine color line).mem = (r.clearedWords line).foldl
    (fun m k => m.store (add64 r.framebuffer.baseAddress (4 * k)) 4 color.toNat) r.mem := by
  have hword : ∀ x y, mul32 4 (add32 x (mul32 r.framebuffer.pixelsPerScanLine y)) =
      4 * (x + r.framebuffer.pixelsPerScanLine * y) % 2 ^ 32 := by
    intro x y
    simp only [mul32, add32, Nat.add_mod_mod, Nat.mul_mod_mod]
  simp only [clearTtyLine, clearedWords, List.foldl_flatMap, List.foldl_map, hword]

theorem mem_clearedWords : k ∈ r.clearedWords line ↔
    ∃ y ∈ counts (mul32 line (mul32 r.framebuffer.pixelsPerScanLine 4)) r.psf1Font.charsize,
      ∃ x < r.framebuffer.width, 4 * (x + r.framebuffer.pixelsPerScanLine * y) % 2 ^ 32 = k := by
  simp [clearedWords]

/-! ## Bands it does not clear -/

/-- A write beyond the end of the address space lands in front of the framebuffer. -/
theorem load_store_word {base g v : Nat} (hbase : base + 4 * g + 4 ≤ 2 ^ 64) (hk : k < 2 ^ 32)
    (hne : k ≠ g) :
    (m.store (add64 base (4 * k)) 4 v).load (base + 4 * g) 4 = m.load (base + 4 * g) 4 := by
  apply Mem.load_store_disjoint
  simp only [add64]
  omega

/-- Words outside the list keep their value. -/
theorem load_foldl_word {base g v : Nat} {ks : List Nat} (hbase : base + 4 * g + 4 ≤ 2 ^ 64)
    (hks : ∀ k ∈ ks, k < 2 ^ 32) (hg : g ∉ ks) :
    (ks.foldl (fun m k => m.store (add64 base (4 * k)) 4 v) m).load (base + 4 * g) 4 =
      m.load (base + 4 * g) 4 := by
  induction ks generalizing m with
  | nil => rfl
  | cons k rest ih =>
      obtain ⟨hk, hrest⟩ := List.forall_mem_cons.mp hks
      obtain ⟨hne, hnot⟩ := not_or.mp (List.mem_cons.not.mp hg)
      rw [List.foldl_cons, ih hrest hnot, load_store_word hbase hk (Ne.symm hne)]

/-- A memory in which no word has the colour. -/
def offColor (color : UInt32) : Mem := ⟨fun _ => UInt8.ofNat (color.toNat + 1)⟩

theorem offColor_load_ne (color : UInt32) (a : Nat) :
    (offColor color).load a 4 ≠ color.toNat := by
  have hbyte : ((offColor color).byte a).toNat = (color.toNat + 1) % 256 := UInt8.toNat_ofNat'
  rw [Mem.load, hbyte]
  omega

/-- To clear a band the function has to write all its words. -/
theorem ClearsBand.mem_clearedWords (hfb : r.framebuffer.WholeLines)
    (h : ClearsBand { r with mem := offColor color } color line)
    (hroom : line + r.psf1Font.charsize ≤ r.framebuffer.height) (hx : x < r.framebuffer.width)
    (hlow : line ≤ y) (hhigh : y < line + r.psf1Font.charsize) :
    x + r.framebuffer.pixelsPerScanLine * y ∈ r.clearedWords line := by
  by_contra hnot
  have hline := hfb.scanLine
  have hmapped := hfb.mapped
  have hbounds := @PixelGrid.address_bounds r.framebuffer.baseAddress
    r.framebuffer.pixelsPerScanLine r.framebuffer.height x y (by omega) (by omega)
  have hcolor := h.cleared x y hx hlow hhigh
  have hword : ∀ k ∈ r.clearedWords line, k < 2 ^ 32 := by
    intro k hk
    obtain ⟨y, -, x, -, rfl⟩ := TTYRenderer.mem_clearedWords.mp hk
    exact Nat.mod_lt _ (by decide)
  rw [PixelGrid.address] at hbounds
  have hbytes := r.framebuffer.bytes_eq
  have hin : r.framebuffer.baseAddress + 4 * (x + r.framebuffer.pixelsPerScanLine * y) + 4 ≤
      2 ^ 64 := by omega
  have hsame : ((r.clearedWords line).foldl (fun m k => m.store
      (add64 r.framebuffer.baseAddress (4 * k)) 4 color.toNat) (offColor color)).load
      (r.framebuffer.baseAddress + 4 * (x + r.framebuffer.pixelsPerScanLine * y)) 4 =
      (offColor color).load _ 4 := load_foldl_word hin hword hnot
  rw [pixel, clearTtyLine_mem] at hcolor
  exact offColor_load_ne color _ (hsame.symm.trans hcolor)

/-- An odd multiple of a word that is not zero is not zero either. -/
theorem not_dvd_mul_odd {t : Nat} {q : ℤ} (ht : 0 < t) (hlt : t < 2 ^ 32) (hq : Odd q) :
    ¬ (2 : ℤ) ^ 32 ∣ t * q := by
  intro hdvd
  have hcoprime : IsCoprime ((2 : ℤ) ^ 32) q := (Int.isCoprime_two_left.mpr hq).pow_left
  have hle := Int.le_of_dvd (by omega) (hcoprime.dvd_of_dvd_mul_right hdvd)
  omega

section

variable (hfb : r.framebuffer.WholeLines)
  (hroom : line + r.psf1Font.charsize ≤ r.framebuffer.height)
include hfb hroom

/-- The first row counted is `4 * pixels_per_scan_line` times too far down. -/
theorem mem_clearedWords_of_room (hscan : 0 < r.framebuffer.pixelsPerScanLine)
    (hchar : 0 < r.psf1Font.charsize) :
    k ∈ r.clearedWords line ↔ ∃ d < r.psf1Font.charsize, ∃ x < r.framebuffer.width,
      4 * (x + r.framebuffer.pixelsPerScanLine *
        (4 * r.framebuffer.pixelsPerScanLine * line + d)) % 2 ^ 32 = k := by
  have hsmall := hfb.small
  rw [Nat.mul_assoc] at hsmall
  have hrows := Nat.mul_le_mul_right (r.framebuffer.pixelsPerScanLine * 4) hroom
  have hchars : r.psf1Font.charsize ≤
      r.psf1Font.charsize * (r.framebuffer.pixelsPerScanLine * 4) :=
    Nat.le_mul_of_pos_right _ (by omega)
  have hscale : r.framebuffer.pixelsPerScanLine * 4 ≤
      r.framebuffer.height * (r.framebuffer.pixelsPerScanLine * 4) :=
    Nat.le_mul_of_pos_left _ (by omega)
  have hstart : line * (r.framebuffer.pixelsPerScanLine * 4) =
      4 * r.framebuffer.pixelsPerScanLine * line := by ring
  rw [Nat.add_mul, hstart] at hrows
  rw [mem_clearedWords, mul32_eq (by omega : r.framebuffer.pixelsPerScanLine * 4 < 2 ^ 32),
    mul32_eq (by omega), hstart]
  constructor
  · rintro ⟨y, hy, x, hx, hk⟩
    obtain ⟨hle, hlt⟩ := (mem_counts (by omega)).mp hy
    exact ⟨y - 4 * r.framebuffer.pixelsPerScanLine * line, by omega, x, hx,
      by rw [Nat.add_sub_cancel' hle, hk]⟩
  · rintro ⟨d, hd, x, hx, hk⟩
    exact ⟨_, (mem_counts (by omega)).mpr ⟨Nat.le_add_right _ _, by omega⟩, x, hx, hk⟩

/-- Of a framebuffer one pixel wide, a row is cleared only if four times a row further down
is the same word. -/
theorem row_dvd (hwidth : r.framebuffer.width = 1) (hchar : 0 < r.psf1Font.charsize)
    (hmem : 0 + r.framebuffer.pixelsPerScanLine * y ∈ r.clearedWords line) :
    ∃ d < r.psf1Font.charsize, (2 : ℤ) ^ 32 ∣ r.framebuffer.pixelsPerScanLine *
      (y - 4 * (4 * r.framebuffer.pixelsPerScanLine * line + d)) := by
  have hscan : 0 < r.framebuffer.pixelsPerScanLine := by
    have hline := hfb.scanLine
    omega
  obtain ⟨d, hd, x, hx, hk⟩ := (mem_clearedWords_of_room hfb hroom hscan hchar).mp hmem
  obtain rfl : x = 0 := by omega
  refine ⟨d, hd, ?_⟩
  have hmod : Nat.ModEq (2 ^ 32) (4 * (0 + r.framebuffer.pixelsPerScanLine *
      (4 * r.framebuffer.pixelsPerScanLine * line + d)))
      (0 + r.framebuffer.pixelsPerScanLine * y) := by
    rw [Nat.ModEq, ← hk, Nat.mod_mod]
  have hdvd := Nat.modEq_iff_dvd.mp hmod
  rw [Nat.cast_pow, Nat.cast_ofNat] at hdvd
  convert hdvd using 1
  push_cast
  ring

/-- Apart from the first row of a column of pixels, no band is cleared in every memory. -/
theorem ClearsBand.only (h : ∀ m, ClearsBand { r with mem := m } color line) :
    r.psf1Font.charsize = 0 ∨ r.framebuffer.width = 0 ∨
      (r.framebuffer.width = 1 ∧ r.psf1Font.charsize = 1 ∧ line = 0) := by
  by_contra hcond
  have hline := hfb.scanLine
  have hsmall := hfb.small
  rw [Nat.mul_assoc] at hsmall
  have hrows := Nat.mul_le_mul_right (r.framebuffer.pixelsPerScanLine * 4) hroom
  have hwords := fun x y hx hlow hhigh =>
    (h (offColor color)).mem_clearedWords (x := x) (y := y) hfb hroom hx hlow hhigh
  by_cases hwidth : r.framebuffer.width = 1
  · by_cases hchar : r.psf1Font.charsize = 1
    · -- the row is `16 * pixels_per_scan_line` times the row asked for
      obtain ⟨d, hd, hdvd⟩ := row_dvd hfb hroom hwidth (by omega)
        (hwords 0 line (by omega) (by omega) (by omega))
      obtain rfl : d = 0 := by omega
      have hpos : 0 < r.framebuffer.pixelsPerScanLine * line :=
        Nat.mul_pos (by omega) (by omega)
      have hlt : r.framebuffer.pixelsPerScanLine * line < 2 ^ 32 := by
        rw [Nat.add_mul, show line * (r.framebuffer.pixelsPerScanLine * 4) =
          4 * (r.framebuffer.pixelsPerScanLine * line) by ring] at hrows
        omega
      have hodd : Odd (1 - 2 * (8 * r.framebuffer.pixelsPerScanLine : ℤ)) :=
        odd_one.sub_even (even_two_mul _)
      apply not_dvd_mul_odd hpos hlt hodd
      convert hdvd using 1
      push_cast
      ring
    · -- two rows one apart, but all words are four rows apart
      obtain ⟨d, hd, hdvd⟩ := row_dvd hfb hroom hwidth (by omega)
        (hwords 0 line (by omega) (by omega) (by omega))
      obtain ⟨d', hd', hdvd'⟩ := row_dvd hfb hroom hwidth (by omega)
        (hwords 0 (line + 1) (by omega) (by omega) (by omega))
      have hlt : r.framebuffer.pixelsPerScanLine < 2 ^ 32 := by
        have hscale : r.framebuffer.pixelsPerScanLine * 4 ≤
            r.framebuffer.height * (r.framebuffer.pixelsPerScanLine * 4) :=
          Nat.le_mul_of_pos_left _ (by omega)
        omega
      have hodd : Odd (1 - 2 * (2 * ((d' : ℤ) - d))) := odd_one.sub_even (even_two_mul _)
      have hdiff : (r.framebuffer.pixelsPerScanLine : ℤ) * (1 - 2 * (2 * ((d' : ℤ) - d))) =
          r.framebuffer.pixelsPerScanLine *
              (((line + 1 : ℕ) : ℤ) - 4 * (4 * r.framebuffer.pixelsPerScanLine * line + d')) -
            r.framebuffer.pixelsPerScanLine *
              (line - 4 * (4 * r.framebuffer.pixelsPerScanLine * line + d)) := by
        push_cast
        ring
      apply not_dvd_mul_odd (by omega) hlt hodd
      rw [hdiff]
      exact dvd_sub hdvd' hdvd
  · -- neighbours in a row are not both multiples of four
    obtain ⟨y, -, x, -, hk⟩ := TTYRenderer.mem_clearedWords.mp
      (hwords 0 line (by omega) (by omega) (by omega))
    obtain ⟨y', -, x', -, hk'⟩ := TTYRenderer.mem_clearedWords.mp
      (hwords 1 line (by omega) (by omega) (by omega))
    omega

end

/-! ## Bands it does clear -/

theorem clearedWords_of_empty (hempty : r.psf1Font.charsize = 0 ∨ r.framebuffer.width = 0) :
    r.clearedWords line = [] := by
  obtain hchar | hwidth := hempty
  · have hcounts : ∀ start, counts (mul32 line start) 0 = [] := by
      intro start
      rw [counts, add32_eq (Nat.mod_lt _ (by decide)), Nat.add_zero, Nat.sub_self]
      rfl
    rw [clearedWords, hchar, hcounts, List.flatMap_nil]
  · simp [clearedWords, hwidth]

theorem ClearsBand.of_empty (hempty : r.psf1Font.charsize = 0 ∨ r.framebuffer.width = 0) :
    ClearsBand r color line := by
  have hmem : (r.clearTtyLine color line).mem = r.mem := by
    rw [clearTtyLine_mem, clearedWords_of_empty hempty, List.foldl_nil]
  constructor
  case inside =>
    intro x hx
    rw [hmem]
  case cleared =>
    intro x y hx hlow hhigh
    omega
  case kept =>
    intro x y hx hy hout
    have hsame : (r.clearTtyLine color line).framebuffer = r.framebuffer := rfl
    rw [pixel, pixel, hsame, hmem]

/-- The first row of a column of pixels starts at the base address. -/
theorem clearTtyLine_first_row (hbase : r.framebuffer.baseAddress < 2 ^ 64)
    (hwidth : r.framebuffer.width = 1) (hchar : r.psf1Font.charsize = 1) :
    (r.clearTtyLine color 0).mem = r.mem.store (PixelGrid.address r.framebuffer.baseAddress
      r.framebuffer.pixelsPerScanLine 0 0) 4 color.toNat := by
  have hcounts : counts (mul32 0 (mul32 r.framebuffer.pixelsPerScanLine 4)) 1 = [0] := by
    rw [mul32, Nat.zero_mul]
    rfl
  have hwords : r.clearedWords 0 = [0] := by
    rw [clearedWords, hwidth, hchar, hcounts]
    simp
  have haddress : add64 r.framebuffer.baseAddress (4 * 0) =
      PixelGrid.address r.framebuffer.baseAddress r.framebuffer.pixelsPerScanLine 0 0 := by
    simpa [add64, PixelGrid.address] using Nat.mod_eq_of_lt hbase
  rw [clearTtyLine_mem, hwords, List.foldl_cons, List.foldl_nil, haddress]

theorem ClearsBand.of_first_row (hfb : r.framebuffer.WholeLines)
    (hheight : 0 < r.framebuffer.height) (hwidth : r.framebuffer.width = 1)
    (hchar : r.psf1Font.charsize = 1) : ClearsBand r color 0 := by
  have hline := hfb.scanLine
  have hmapped := hfb.mapped
  have hbytes := r.framebuffer.bytes_eq
  have hbounds := @PixelGrid.address_bounds r.framebuffer.baseAddress
    r.framebuffer.pixelsPerScanLine r.framebuffer.height 0 0 (by omega) hheight
  have hmem := @clearTtyLine_first_row r color (by omega) hwidth hchar
  have hpixel : ∀ x y, x < r.framebuffer.pixelsPerScanLine →
      (r.clearTtyLine color 0).pixel x y =
        if x = 0 ∧ y = 0 then color.toNat else r.pixel x y := by
    intro x y hx
    have hsame : (r.clearTtyLine color 0).framebuffer = r.framebuffer := rfl
    rw [pixel, pixel, hsame, hmem, PixelGrid.read_store color.toNat_lt hx (by omega)]
  constructor
  case inside =>
    intro x hx
    rw [hmem]
    apply Mem.store_byte_outside
    omega
  case cleared =>
    intro x y hx hlow hhigh
    rw [hpixel x y (by omega), if_pos ⟨by omega, by omega⟩]
  case kept =>
    intro x y hx hy hout
    rw [hpixel x y hx, if_neg (by omega)]

/-- What `clear_tty_line` does to the framebuffer is what it is for exactly when there is
nothing to clear, or a single pixel at the start of the framebuffer. -/
theorem clearTtyLine_clearsBand_iff (hfb : r.framebuffer.WholeLines)
    (hroom : line + r.psf1Font.charsize ≤ r.framebuffer.height) :
    (∀ m, ClearsBand { r with mem := m } color line) ↔
      r.psf1Font.charsize = 0 ∨ r.framebuffer.width = 0 ∨
        (r.framebuffer.width = 1 ∧ r.psf1Font.charsize = 1 ∧ line = 0) := by
  constructor
  · exact ClearsBand.only hfb hroom
  · intro hcond m
    obtain hchar | hwidth | ⟨hwidth, hchar, rfl⟩ := hcond
    · exact ClearsBand.of_empty (.inl hchar)
    · exact ClearsBand.of_empty (.inr hwidth)
    · have hheight : 0 < r.framebuffer.height := by omega
      exact ClearsBand.of_first_row hfb hheight hwidth hchar

/-- A framebuffer of `width` by 768 pixels without spare words, and a font. -/
def plainScreen (width charsize : Nat) (m : Mem) : TTYRenderer where
  cursorPosition := ⟨0, 0⟩
  framebuffer := ⟨0xfd000000, 4 * (width * 768), width, 768, width⟩
  psf1Font := ⟨charsize, fun _ => 0⟩
  color := 0
  mem := m

theorem plainScreen_wholeLines {width charsize : Nat} {m : Mem} (h : width ≤ 1024) :
    (plainScreen width charsize m).framebuffer.WholeLines where
  scanLine := Nat.le_refl width
  small := by
    change 768 * width * 4 < 2 ^ 32
    omega
  mapped := by
    change 0xfd000000 + 768 * width * 4 ≤ 2 ^ 64
    omega

theorem plainScreen_clearsBand : ClearsBand (plainScreen 1 1 (offColor 0)) 0 0 :=
  (clearTtyLine_clearsBand_iff (r := plainScreen 1 1 (offColor 0))
    (plainScreen_wholeLines (by decide)) (by decide)).mpr (.inr (.inr ⟨rfl, rfl, rfl⟩)) (offColor 0)

/-- The second pixel of the first line keeps its colour. -/
theorem not_clearsBand : ¬ ClearsBand (plainScreen 1024 16 (offColor 0)) 0 0 := by
  intro h
  have hfb : (plainScreen 1024 16 (offColor 0)).framebuffer.WholeLines :=
    plainScreen_wholeLines (Nat.le_refl 1024)
  have hword : 1 + 1024 * 0 ∈ (plainScreen 1024 16 (offColor 0)).clearedWords 0 :=
    ClearsBand.mem_clearedWords (r := plainScreen 1024 16 (offColor 0)) hfb h
      (by decide) (by decide) (by decide) (by decide)
  obtain ⟨y, -, x, -, hk⟩ := TTYRenderer.mem_clearedWords.mp hword
  omega

end TTYRenderer

end FroggyOs
