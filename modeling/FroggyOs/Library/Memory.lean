import Mathlib.Data.Set.Function
import Mathlib.Order.Interval.Set.Basic
import Mathlib.Tactic.Ring

/-!
# Byte-addressed memory with little-endian words

A memory gives every address one byte. `load` and `store` access `n` consecutive
bytes as a little-endian number, so words of different widths, and words that
overlap, see each other's bytes exactly as on the machine. `fill` and `copy` set a
range of bytes at once.

What an operation leaves alone is said with Mathlib's `Set.EqOn`: two memories
agree on a set of addresses. A load depends on the bytes of its range only, which
gives every frame rule below.

The second half describes records in memory: a `Field` is an offset and a width,
and two fields of one record, or of two records that lie apart, do not interfere.
-/

namespace ByteMemory

/-- The contents of memory: one byte for each address. -/
@[ext] structure Mem where
  byte : Nat → UInt8

namespace Mem

/-- The little-endian number in the `n` bytes from address `a`. -/
def load (m : Mem) (a : Nat) : Nat → Nat
  | 0 => 0
  | n + 1 => (m.byte a).toNat + 256 * load m (a + 1) n

/-- Write the low `n` bytes of `v` from address `a`. -/
def store (m : Mem) (a n v : Nat) : Mem :=
  ⟨fun x => if a ≤ x ∧ x < a + n then UInt8.ofNat (v / 256 ^ (x - a)) else m.byte x⟩

/-- Set the `n` bytes from address `a` to `b`. -/
def fill (m : Mem) (a n : Nat) (b : UInt8) : Mem :=
  ⟨fun x => if a ≤ x ∧ x < a + n then b else m.byte x⟩

/-- The addresses of the `n` bytes from `a`. -/
abbrev range (a n : Nat) : Set Nat := Set.Ico a (a + n)

theorem load_lt (m : Mem) (a n : Nat) : m.load a n < 256 ^ n := by
  induction n generalizing a with
  | zero => simp [load]
  | succ n ih =>
      have hbyte := (m.byte a).toNat_lt
      have hrest := ih (a + 1)
      rw [load, Nat.pow_succ]
      omega

/-- A wide load reads the bytes of two narrow ones. -/
theorem load_add (m : Mem) (a i j : Nat) :
    m.load a (i + j) = m.load a i + 256 ^ i * m.load (a + i) j := by
  induction i generalizing a with
  | zero => simp [load]
  | succ i ih =>
      have hassoc : a + 1 + i = a + (i + 1) := by omega
      rw [Nat.succ_add, load, load, ih, hassoc, Nat.pow_succ]
      ring

/-- A load depends on the bytes of its range only. -/
theorem load_congr {m m' : Mem} {a n : Nat} (h : Set.EqOn m'.byte m.byte (range a n)) :
    m'.load a n = m.load a n := by
  induction n generalizing a with
  | zero => rfl
  | succ n ih =>
      have hhead : m'.byte a = m.byte a := h ⟨Nat.le_refl _, by omega⟩
      have htail : m'.load (a + 1) n = m.load (a + 1) n :=
        ih (h.mono (Set.Ico_subset_Ico (by omega) (by omega)))
      rw [load, load, hhead, htail]

/-- Equal bytes at two places make equal words. -/
theorem load_eq_of_bytes {m m' : Mem} {a b n : Nat}
    (h : ∀ i < n, m'.byte (b + i) = m.byte (a + i)) : m'.load b n = m.load a n := by
  induction n generalizing a b with
  | zero => rfl
  | succ n ih =>
      have hhead : m'.byte b = m.byte a := h 0 (by omega)
      have htail : m'.load (b + 1) n = m.load (a + 1) n := by
        apply ih
        intro i hi
        rw [Nat.add_assoc, Nat.add_assoc, Nat.add_comm 1]
        exact h (i + 1) (by omega)
      rw [load, load, hhead, htail]

theorem store_byte_outside {m : Mem} {a n v x : Nat} (h : x < a ∨ a + n ≤ x) :
    (m.store a n v).byte x = m.byte x := by
  have hout : ¬ (a ≤ x ∧ x < a + n) := by omega
  simp only [store, if_neg hout]

/-- A store leaves every byte outside its range alone. -/
theorem store_eqOn (m : Mem) (a n v : Nat) :
    Set.EqOn (m.store a n v).byte m.byte (Set.compl (range a n)) := by
  intro x hx
  apply store_byte_outside
  have hnot : ¬ (a ≤ x ∧ x < a + n) := hx
  omega

theorem load_store_disjoint {m : Mem} {a n v b k : Nat} (h : a + n ≤ b ∨ b + k ≤ a) :
    (m.store a n v).load b k = m.load b k := by
  apply load_congr
  rintro x ⟨hlow, hhigh⟩
  apply store_byte_outside
  omega

theorem fill_byte_inside {m : Mem} {a n x : Nat} {b : UInt8} (hlow : a ≤ x) (hhigh : x < a + n) :
    (m.fill a n b).byte x = b := by
  simp only [fill, if_pos (And.intro hlow hhigh)]

theorem fill_byte_outside {m : Mem} {a n x : Nat} {b : UInt8} (h : x < a ∨ a + n ≤ x) :
    (m.fill a n b).byte x = m.byte x := by
  have hout : ¬ (a ≤ x ∧ x < a + n) := by omega
  simp only [fill, if_neg hout]

theorem load_fill_disjoint {m : Mem} {a n b k : Nat} {c : UInt8}
    (h : a + n ≤ b ∨ b + k ≤ a) : (m.fill a n c).load b k = m.load b k := by
  apply load_congr
  rintro x ⟨hlow, hhigh⟩
  apply fill_byte_outside
  omega

theorem load_zero (a n : Nat) : load ⟨fun _ => 0⟩ a n = 0 := by
  induction n generalizing a with
  | zero => rfl
  | succ n ih =>
      rw [load, ih]
      rfl

/-- A word inside a zero-filled range is zero. -/
theorem load_fill_zero {m : Mem} {a n b k : Nat} (hlow : a ≤ b) (hhigh : b + k ≤ a + n) :
    (m.fill a n 0).load b k = 0 := by
  induction k generalizing b with
  | zero => rfl
  | succ k ih =>
      rw [load, fill_byte_inside hlow (by omega), ih (by omega) (by omega)]
      rfl

/-- The word just stored reads back, reduced to its width. -/
theorem load_store_same (m : Mem) (a n v : Nat) : (m.store a n v).load a n = v % 256 ^ n := by
  induction n generalizing a v m with
  | zero => simp [load, Nat.mod_one]
  | succ n ih =>
      have hhead : (m.store a (n + 1) v).byte a = UInt8.ofNat v := by
        simp [store]
      have htail : (m.store a (n + 1) v).load (a + 1) n =
          ((m.store a 1 v).store (a + 1) n (v / 256)).load (a + 1) n := by
        apply load_congr
        rintro x ⟨hlow, hhigh⟩
        have hin : a ≤ x ∧ x < a + (n + 1) := by omega
        have hin' : a + 1 ≤ x ∧ x < a + 1 + n := by omega
        have hexp : x - a = (x - (a + 1)) + 1 := by omega
        simp only [store, if_pos hin, if_pos hin']
        rw [hexp, Nat.pow_succ, Nat.mul_comm, Nat.div_div_eq_div_mul]
      rw [load, hhead, htail, ih, UInt8.toNat_ofNat', Nat.pow_succ' (n := n), Nat.mod_mul]

/-- A store of what the range already holds changes nothing. -/
theorem store_load_self (m : Mem) (a n : Nat) : m.store a n (m.load a n) = m := by
  have hbyte : ∀ n a k, k < n → UInt8.ofNat (m.load a n / 256 ^ k) = m.byte (a + k) := by
    intro n
    induction n with
    | zero => intro a k hk; omega
    | succ n ih =>
        intro a k hk
        have hlt := (m.byte a).toNat_lt
        cases k with
        | zero =>
            apply UInt8.toNat_inj.mp
            rw [load, UInt8.toNat_ofNat']
            simp only [Nat.pow_zero, Nat.div_one, Nat.add_zero]
            omega
        | succ k =>
            have hdiv : m.load a (n + 1) / 256 ^ (k + 1) = m.load (a + 1) n / 256 ^ k := by
              rw [load, Nat.pow_succ', ← Nat.div_div_eq_div_mul]
              congr 1
              omega
            rw [hdiv, ih (a + 1) k (by omega)]
            congr 1
            omega
  apply Mem.ext
  funext x
  by_cases hx : a ≤ x ∧ x < a + n
  · have hsum : a + (x - a) = x := by omega
    have := hbyte n a (x - a) (by omega)
    simp only [store, if_pos hx]
    rw [this, hsum]
  · simp only [store, if_neg hx]

/-- A word determines its bytes. -/
theorem byte_eq_of_load_eq {m m' : Mem} {a n : Nat} (h : m'.load a n = m.load a n) :
    Set.EqOn m'.byte m.byte (range a n) := by
  rintro x ⟨hlow, hhigh⟩
  rw [← store_load_self m' a n, ← store_load_self m a n, h]
  simp only [store, hlow, hhigh, and_self, if_true]

/-- The second of two stores to one range is the one that counts. -/
theorem store_store_same (m : Mem) (a n v w : Nat) :
    (m.store a n v).store a n w = m.store a n w := by
  apply Mem.ext
  funext x
  by_cases hx : a ≤ x ∧ x < a + n
  · simp only [store, if_pos hx]
  · simp only [store, if_neg hx]

end Mem

/-! ## Records -/

/-- A field of a record: its offset from the record's address and its width. -/
structure Field where
  offset : Nat
  width : Nat

namespace Mem

/-- Read the field `f` of the record at `p`. -/
def get (m : Mem) (p : Nat) (f : Field) : Nat := m.load (p + f.offset) f.width

/-- Assign the field `f` of the record at `p`. -/
def put (m : Mem) (p : Nat) (f : Field) (v : Nat) : Mem := m.store (p + f.offset) f.width v

theorem get_lt (m : Mem) (p : Nat) (f : Field) : m.get p f < 256 ^ f.width := load_lt _ _ _

theorem get_put_same {m : Mem} {p v : Nat} {f : Field} (hv : v < 256 ^ f.width) :
    (m.put p f v).get p f = v := by
  rw [get, put, load_store_same, Nat.mod_eq_of_lt hv]

theorem get_put_disjoint {m : Mem} {p q v : Nat} {f g : Field}
    (h : p + f.offset + f.width ≤ q + g.offset ∨ q + g.offset + g.width ≤ p + f.offset) :
    (m.put p f v).get q g = m.get q g := load_store_disjoint h

/-- A field reads the same in memories that agree on the record. -/
theorem get_congr {m m' : Mem} {p n : Nat} {f : Field} (h : Set.EqOn m'.byte m.byte (range p n))
    (hf : f.offset + f.width ≤ n) : m'.get p f = m.get p f :=
  load_congr (h.mono (Set.Ico_subset_Ico (by omega) (by omega)))

theorem put_byte_outside {m : Mem} {p v x : Nat} {f : Field}
    (h : x < p + f.offset ∨ p + f.offset + f.width ≤ x) : (m.put p f v).byte x = m.byte x :=
  store_byte_outside h

/-- The bytes of an assigned field depend on the value alone. -/
theorem put_byte_inside {m m' : Mem} {p v x : Nat} {f : Field} (hlow : p + f.offset ≤ x)
    (hhigh : x < p + f.offset + f.width) : (m.put p f v).byte x = (m'.put p f v).byte x := by
  simp only [put, store, hlow, hhigh, and_self, if_true]

theorem put_put_same (m : Mem) (p : Nat) (f : Field) (v w : Nat) :
    (m.put p f v).put p f w = m.put p f w := store_store_same _ _ _ _ _

/-- Assigning a field the value it has changes nothing. -/
theorem put_get_self {m : Mem} {p v : Nat} {f : Field} (h : m.get p f = v) : m.put p f v = m := by
  rw [← h]
  exact store_load_self _ _ _

end Mem

end ByteMemory
