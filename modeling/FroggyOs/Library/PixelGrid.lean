import Mathlib.Data.List.Basic
import FroggyOs.Library.Memory

/-!
# Grids of 32-bit words

A grid is a row-major array of 32-bit words from `base` on, `stride` words to a row.
Different positions occupy disjoint bytes, so a list of stores of one value is a
change of the grid at the positions of the list, and moving the bytes of the whole grid
down by some rows moves its contents up by as many.
-/

namespace PixelGrid

open ByteMemory

/-- The address of the word in column `x` of row `y`. -/
def address (base stride x y : Nat) : Nat := base + 4 * (x + stride * y)

def read (m : Mem) (base stride x y : Nat) : Nat := m.load (address base stride x y) 4

variable {m m' : Mem} {base stride rows x y x' y' v : Nat}

/-- Rows do not overlap. -/
theorem row_lt (hx : x < stride) (hy : y < y') : x + stride * y < stride * y' := by
  have hnext : stride * (y + 1) ≤ stride * y' := Nat.mul_le_mul_left stride hy
  rw [Nat.mul_succ] at hnext
  omega

theorem address_inj (hx : x < stride) (hx' : x' < stride)
    (h : x + stride * y = x' + stride * y') : x = x' ∧ y = y' := by
  obtain hlt | rfl | hgt := Nat.lt_trichotomy y y'
  · have := row_lt hx hlt
    omega
  · exact ⟨by omega, rfl⟩
  · have := row_lt hx' hgt
    omega

/-- A position of the grid lies inside its bytes. -/
theorem address_bounds (hx : x < stride) (hy : y < rows) :
    base ≤ address base stride x y ∧ address base stride x y + 4 ≤ base + 4 * (stride * rows) := by
  have hrow := row_lt hx hy
  simp only [address]
  omega

theorem address_disjoint (hx : x < stride) (hx' : x' < stride) (hne : ¬ (x = x' ∧ y = y')) :
    address base stride x y + 4 ≤ address base stride x' y' ∨
      address base stride x' y' + 4 ≤ address base stride x y := by
  have hcells : x + stride * y ≠ x' + stride * y' := fun h => hne (address_inj hx hx' h)
  simp only [address]
  omega

theorem read_store (hv : v < 2 ^ 32) (hx : x < stride) (hx' : x' < stride) :
    read (m.store (address base stride x' y') 4 v) base stride x y =
      if x = x' ∧ y = y' then v else read m base stride x y := by
  split
  case isTrue hsame =>
    rw [hsame.1, hsame.2, read, Mem.load_store_same]
    exact Nat.mod_eq_of_lt hv
  case isFalse hne =>
    exact Mem.load_store_disjoint (address_disjoint hx' hx fun h => hne ⟨h.1.symm, h.2.symm⟩)

/-- Stores of one value at the positions of a list. -/
def paint (m : Mem) (base stride v : Nat) (positions : List (Nat × Nat)) : Mem :=
  positions.foldl (fun m p => m.store (address base stride p.1 p.2) 4 v) m

theorem read_paint (hv : v < 2 ^ 32) (hx : x < stride) {positions : List (Nat × Nat)}
    (hinside : ∀ p ∈ positions, p.1 < stride) :
    read (paint m base stride v positions) base stride x y =
      if (x, y) ∈ positions then v else read m base stride x y := by
  induction positions generalizing m with
  | nil => simp [paint]
  | cons p rest ih =>
      obtain ⟨hp, hrest⟩ := List.forall_mem_cons.mp hinside
      have hpaint : paint m base stride v (p :: rest) =
          paint (m.store (address base stride p.1 p.2) 4 v) base stride v rest := rfl
      rw [hpaint, ih hrest, read_store hv hx hp]
      by_cases hmem : (x, y) ∈ rest
      · rw [if_pos hmem, if_pos (List.mem_cons_of_mem _ hmem)]
      · have hcons : (x, y) ∈ p :: rest ↔ x = p.1 ∧ y = p.2 := by
          rw [List.mem_cons, or_iff_left hmem, Prod.ext_iff]
        rw [if_neg hmem]
        exact if_congr hcons.symm rfl rfl

/-- The bytes of the grid behind its first `k` rows are copied to its start. -/
structure Scrolled (m m' : Mem) (base stride rows k : Nat) : Prop where
  moved : ∀ i, i + 4 * (stride * k) < 4 * (stride * rows) →
    m'.byte (base + i) = m.byte (base + 4 * (stride * k) + i)
  kept : ∀ i, 4 * (stride * rows) ≤ i + 4 * (stride * k) → m'.byte (base + i) = m.byte (base + i)

/-- Scrolling moves the contents up by `k` rows and leaves the last `k` rows alone. -/
theorem read_scrolled {k : Nat} (h : Scrolled m m' base stride rows k) (hx : x < stride) :
    read m' base stride x y =
      if y + k < rows then read m base stride x (y + k) else read m base stride x y := by
  have hsum : stride * (y + k) = stride * y + stride * k := Nat.mul_add stride y k
  split
  case isTrue hin =>
    have hrow := row_lt hx hin
    apply Mem.load_eq_of_bytes
    intro i hi
    have hmoved := h.moved (4 * (x + stride * y) + i) (by omega)
    simp only [address, hsum]
    rw [Nat.add_assoc, hmoved]
    congr 1
    omega
  case isFalse hout =>
    have hrows : stride * rows ≤ stride * (y + k) := Nat.mul_le_mul_left stride (by omega)
    apply Mem.load_eq_of_bytes
    intro i hi
    have hkept := h.kept (4 * (x + stride * y) + i) (by omega)
    simp only [address]
    rw [Nat.add_assoc, hkept]

end PixelGrid
