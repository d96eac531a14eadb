import Mathlib.Data.Nat.Bitwise

/-!
# 64-bit and 32-bit machine words

A word is a natural number below `2 ^ 64`. The operations are those of unsigned
64-bit C arithmetic: sums, differences and products are reduced modulo `2 ^ 64`
and `not64` is the bitwise complement. Conjunction and disjunction are those of
`Nat`, which keep the range.

The lemmas say when an operation agrees with exact integer arithmetic, and what
the common alignment masks do: `x & ~(2 ^ k - 1)` rounds down to a multiple of
`2 ^ k`, whereas `x & ~(2 ^ k)` clears a single bit.
-/

namespace Word64

def add64 (a b : Nat) : Nat := (a + b) % 2 ^ 64

def sub64 (a b : Nat) : Nat := (a + 2 ^ 64 - b) % 2 ^ 64

def mul64 (a b : Nat) : Nat := (a * b) % 2 ^ 64

def not64 (a : Nat) : Nat := 2 ^ 64 - (a + 1)

theorem add64_lt (a b : Nat) : add64 a b < 2 ^ 64 := Nat.mod_lt _ (by decide)

theorem sub64_lt (a b : Nat) : sub64 a b < 2 ^ 64 := Nat.mod_lt _ (by decide)

/-- A sum in range is the exact sum. -/
theorem add64_eq {a b : Nat} (h : a + b < 2 ^ 64) : add64 a b = a + b := Nat.mod_eq_of_lt h

theorem add64_zero {a : Nat} (h : a < 2 ^ 64) : add64 a 0 = a := Nat.mod_eq_of_lt h

/-- A difference that does not go below zero is the exact difference. -/
theorem sub64_eq {a b : Nat} (h : b ≤ a) (ha : a < 2 ^ 64) : sub64 a b = a - b := by
  unfold sub64
  have hsum : a + 2 ^ 64 - b = (a - b) + 2 ^ 64 := by omega
  rw [hsum, Nat.add_mod_right, Nat.mod_eq_of_lt (by omega)]

theorem mul64_eq {a b : Nat} (h : a * b < 2 ^ 64) : mul64 a b = a * b := Nat.mod_eq_of_lt h

/-! ## Masks -/

theorem testBit_not64 {x : Nat} (hx : x < 2 ^ 64) (i : Nat) :
    (not64 x).testBit i = (decide (i < 64) && !x.testBit i) :=
  Nat.testBit_two_pow_sub_succ hx i

/-- Only the low 64 bits of a word can be set. -/
theorem lt_of_testBit {x i : Nat} (hx : x < 2 ^ 64) (h : x.testBit i = true) : i < 64 := by
  by_contra hi
  have hpow : x < 2 ^ i :=
    Nat.lt_of_lt_of_le hx (Nat.pow_le_pow_right (by decide) (Nat.le_of_not_lt hi))
  rw [Nat.testBit_lt_two_pow hpow] at h
  contradiction

theorem testBit_and_not64 {x y : Nat} (hx : x < 2 ^ 64) (hy : y < 2 ^ 64) (i : Nat) :
    (x &&& not64 y).testBit i = (x.testBit i && !y.testBit i) := by
  rw [Nat.testBit_and, testBit_not64 hy]
  by_cases hxi : x.testBit i = true
  · simp [hxi, lt_of_testBit hx hxi]
  · simp [hxi]

/-- Clearing the low `k` bits rounds down to a multiple of `2 ^ k`. -/
theorem and_not64_low {x k : Nat} (hx : x < 2 ^ 64) (hk : k ≤ 64) :
    x &&& not64 (2 ^ k - 1) = 2 ^ k * (x / 2 ^ k) := by
  have hmask : 2 ^ k - 1 < 2 ^ 64 := by
    have hle := Nat.pow_le_pow_right (n := 2) (by decide) hk
    have hpos := Nat.two_pow_pos k
    omega
  apply Nat.eq_of_testBit_eq
  intro i
  rw [testBit_and_not64 hx hmask, Nat.testBit_two_pow_sub_one, Nat.testBit_two_pow_mul,
    Nat.testBit_div_two_pow]
  by_cases hik : i < k
  · simp [hik]
  · have hi : i - k + k = i := by omega
    simp [hik, hi, Nat.le_of_not_lt hik]

/-- Clearing the single bit `k` keeps the bits above and below it. -/
theorem and_not64_bit {x k : Nat} (hx : x < 2 ^ 64) (hk : k < 64) :
    x &&& not64 (2 ^ k) = 2 ^ (k + 1) * (x / 2 ^ (k + 1)) + x % 2 ^ k := by
  have hlow : x % 2 ^ k < 2 ^ (k + 1) :=
    Nat.lt_of_lt_of_le (Nat.mod_lt _ (Nat.two_pow_pos k))
      (Nat.pow_le_pow_right (by decide) (Nat.le_succ k))
  apply Nat.eq_of_testBit_eq
  intro i
  rw [testBit_and_not64 hx (Nat.pow_lt_pow_right (by decide) hk), Nat.testBit_two_pow,
    Nat.testBit_two_pow_mul_add _ hlow, Nat.testBit_mod_two_pow, Nat.testBit_div_two_pow]
  by_cases hi : i < k + 1
  · by_cases hik : i = k
    · simp [hik]
    · have hlt : i < k := by omega
      simp [hi, hlt, Ne.symm hik]
  · have hne : ¬ k = i := by omega
    have hsum : i - (k + 1) + (k + 1) = i := by omega
    simp [hi, hne, hsum]

end Word64

/-! ## 32-bit words -/

namespace Word32

def add32 (a b : Nat) : Nat := (a + b) % 2 ^ 32

def sub32 (a b : Nat) : Nat := (a + 2 ^ 32 - b) % 2 ^ 32

def mul32 (a b : Nat) : Nat := (a * b) % 2 ^ 32

theorem add32_eq {a b : Nat} (h : a + b < 2 ^ 32) : add32 a b = a + b := Nat.mod_eq_of_lt h

theorem sub32_eq {a b : Nat} (h : b ≤ a) (ha : a < 2 ^ 32) : sub32 a b = a - b := by
  have hsum : a + 2 ^ 32 - b = (a - b) + 2 ^ 32 := by omega
  rw [sub32, hsum, Nat.add_mod_right, Nat.mod_eq_of_lt (by omega)]

theorem mul32_eq {a b : Nat} (h : a * b < 2 ^ 32) : mul32 a b = a * b := Nat.mod_eq_of_lt h

/-- The values of `i` in the loop `for (i = start; i < start + n; i++)`: none if the bound
wraps around. -/
def counts (start n : Nat) : List Nat := List.range' start (add32 start n - start)

theorem counts_eq {start n : Nat} (h : start + n < 2 ^ 32) :
    counts start n = List.range' start n := by
  rw [counts, add32_eq h, Nat.add_sub_cancel_left]

theorem mem_counts {start n i : Nat} (h : start + n < 2 ^ 32) :
    i ∈ counts start n ↔ start ≤ i ∧ i < start + n := by
  rw [counts_eq h, List.mem_range'_1]

end Word32
