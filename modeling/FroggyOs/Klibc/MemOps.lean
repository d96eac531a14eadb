import FroggyOs.Library.Memory

/-!
# `memset`, `memcpy` and `memmove` (`main.c`, `libc/string/memmove.c`)

The first two are byte loops from the low address upwards. `memset` is given by the state
its loop ends in; `memset_succ` is the loop's step. `memcpy` keeps the loop, since a
byte it has already written may be read again when the ranges overlap. `memmove` runs the
same loop when it moves bytes down, and one from the top when it moves them up; there are
two of it, which differ where source and destination are the same (`memmove_moves`).

Addresses are numbers, so the ranges of a call are taken not to wrap around.
-/

namespace FroggyOs

open ByteMemory

def memset (m : Mem) (s c n : Nat) : Mem := m.fill s n (UInt8.ofNat c)

/-- `memcpy(dest, src, n)`: the state after the loop body has run for `i < n`. -/
def memcpy (m : Mem) (dest src : Nat) : Nat → Mem
  | 0 => m
  | i + 1 =>
      let m := memcpy m dest src i
      m.store (dest + i) 1 (m.byte (src + i)).toNat

/-- `memcpy` with a log of its loads: of each the address and the value, which is the one that
is stored. -/
def memcpyLogged (m : Mem) (dest src : Nat) : Nat → Mem × List (Nat × UInt8)
  | 0 => (m, [])
  | i + 1 =>
      let (m, loads) := memcpyLogged m dest src i
      let value := m.byte (src + i)
      (m.store (dest + i) 1 value.toNat, loads ++ [(src + i, value)])

theorem memset_zero (m : Mem) (s c : Nat) : memset m s c 0 = m := by
  apply Mem.ext
  funext x
  apply Mem.fill_byte_outside
  omega

/-- One iteration of the loop of `memset`. -/
theorem memset_succ (m : Mem) (s c n : Nat) :
    memset m s c (n + 1) = (memset m s c n).store (s + n) 1 c := by
  apply Mem.ext
  funext x
  by_cases hx : x = s + n
  · subst hx
    rw [memset, Mem.fill_byte_inside (by omega) (by omega)]
    simp [Mem.store]
  · rw [Mem.store_byte_outside (by omega)]
    by_cases hin : s ≤ x ∧ x < s + n
    · rw [memset, memset, Mem.fill_byte_inside hin.1 (by omega),
        Mem.fill_byte_inside hin.1 hin.2]
    · rw [memset, memset, Mem.fill_byte_outside (by omega), Mem.fill_byte_outside (by omega)]

theorem memcpy_byte_outside {m : Mem} {dest src n x : Nat} (h : x < dest ∨ dest + n ≤ x) :
    (memcpy m dest src n).byte x = m.byte x := by
  induction n with
  | zero => rfl
  | succ n ih =>
      rw [memcpy, Mem.store_byte_outside (by omega), ih (by omega)]

/-- Between disjoint ranges `memcpy` copies the source bytes. -/
theorem memcpy_byte_inside {m : Mem} {dest src n i : Nat} (hi : i < n)
    (hdisjoint : src + n ≤ dest ∨ dest + n ≤ src) :
    (memcpy m dest src n).byte (dest + i) = m.byte (src + i) := by
  induction n with
  | zero => omega
  | succ n ih =>
      by_cases hlast : i = n
      · subst hlast
        have hsrc : (memcpy m dest src i).byte (src + i) = m.byte (src + i) :=
          memcpy_byte_outside (by omega)
        simp [memcpy, Mem.store, hsrc]
      · rw [memcpy, Mem.store_byte_outside (by omega), ih (by omega) (by omega)]

/-- Moving bytes down, the loop of `memcpy` reads every byte before it is overwritten. -/
theorem memcpy_byte_down {m : Mem} {dest src n i : Nat} (hi : i < n) (hdown : dest ≤ src) :
    (memcpy m dest src n).byte (dest + i) = m.byte (src + i) := by
  induction n with
  | zero => omega
  | succ n ih =>
      by_cases hlast : i = n
      · subst hlast
        have hsrc : (memcpy m dest src i).byte (src + i) = m.byte (src + i) :=
          memcpy_byte_outside (by omega)
        simp [memcpy, Mem.store, hsrc]
      · rw [memcpy, Mem.store_byte_outside (by omega), ih (by omega)]

@[simp] theorem memcpyLogged_fst (m : Mem) (dest src n : Nat) :
    (memcpyLogged m dest src n).1 = memcpy m dest src n := by
  induction n with
  | zero => rfl
  | succ n ih =>
      rw [memcpy, ← ih]
      rfl

/-- Every byte of the copy is a load, the ranges may overlap or not. -/
theorem mem_memcpyLogged {m : Mem} {dest src n x : Nat} {value : UInt8} :
    (x, value) ∈ (memcpyLogged m dest src n).2 ↔
      ∃ i < n, x = src + i ∧ value = (memcpy m dest src n).byte (dest + i) := by
  induction n with
  | zero => simp [memcpyLogged]
  | succ n ih =>
      have hlast : (memcpy m dest src (n + 1)).byte (dest + n) =
          (memcpy m dest src n).byte (src + n) := by
        simp [memcpy, Mem.store]
      have hearlier : ∀ i < n, (memcpy m dest src (n + 1)).byte (dest + i) =
          (memcpy m dest src n).byte (dest + i) := by
        intro i hi
        rw [memcpy, Mem.store_byte_outside (by omega)]
      have hloads : (memcpyLogged m dest src (n + 1)).2 = (memcpyLogged m dest src n).2 ++
          [(src + n, (memcpyLogged m dest src n).1.byte (src + n))] := rfl
      simp only [hloads, memcpyLogged_fst, List.mem_append, List.mem_singleton, Prod.mk.injEq, ih]
      constructor
      · rintro (⟨i, hi, rfl, rfl⟩ | ⟨rfl, rfl⟩)
        · exact ⟨i, Nat.lt_succ_of_lt hi, rfl, (hearlier i hi).symm⟩
        · exact ⟨n, Nat.lt_succ_self n, rfl, hlast.symm⟩
      · rintro ⟨i, hi, rfl, rfl⟩
        obtain hi | rfl := Nat.lt_succ_iff_lt_or_eq.mp hi
        · exact .inl ⟨i, hi, rfl, hearlier i hi⟩
        · exact .inr ⟨rfl, hlast⟩

/-- The loop of `memmove` from the last byte downwards. -/
def copyDown (m : Mem) (dest src : Nat) : Nat → Mem
  | 0 => m
  | i + 1 => copyDown (m.store (dest + i) 1 (m.byte (src + i)).toNat) dest src i

def memmove (m : Mem) (dest src n : Nat) : Mem :=
  if src > dest then memcpy m dest src n
  else if src < dest then copyDown m dest src n
  else m

theorem memmove_zero (m : Mem) (dest src : Nat) : memmove m dest src 0 = m := by
  rw [memmove]
  split
  · rfl
  · split <;> rfl

theorem memmove_of_lt (m : Mem) {dest src : Nat} (n : Nat) (h : dest < src) :
    memmove m dest src n = memcpy m dest src n := if_pos h

/-- The `memmove` of the C library. -/
def libcMemmove (m : Mem) (dstptr srcptr size : Nat) : Mem :=
  if dstptr < srcptr then memcpy m dstptr srcptr size else copyDown m dstptr srcptr size

theorem copyDown_byte_outside {m : Mem} {dest src n x : Nat} (h : x < dest ∨ dest + n ≤ x) :
    (copyDown m dest src n).byte x = m.byte x := by
  induction n generalizing m with
  | zero => rfl
  | succ n ih => rw [copyDown, ih (by omega), Mem.store_byte_outside (by omega)]

/-- Moving bytes up, the loop from the top reads every byte before it is overwritten: the
first `n` source bytes lie below the bytes written for `n` and above. -/
theorem copyDown_byte_up {m : Mem} {dest src n i : Nat} (hi : i < n) (hup : src ≤ dest) :
    (copyDown m dest src n).byte (dest + i) = m.byte (src + i) := by
  induction n generalizing m with
  | zero => omega
  | succ n ih =>
      rw [copyDown]
      by_cases hlast : i = n
      · subst hlast
        rw [copyDown_byte_outside (by omega)]
        simp [Mem.store]
      · rw [ih (by omega), Mem.store_byte_outside (by omega)]

/-- `m'` is `m` with the `n` bytes at `src` moved to `dest`, all read before any is written. -/
structure Moved (m : Mem) (dest src n : Nat) (m' : Mem) : Prop where
  inside : ∀ i < n, m'.byte (dest + i) = m.byte (src + i)
  outside : ∀ x, x < dest ∨ dest + n ≤ x → m'.byte x = m.byte x

theorem Moved.unique {m m₁ m₂ : Mem} {dest src n : Nat} (h₁ : Moved m dest src n m₁)
    (h₂ : Moved m dest src n m₂) : m₁ = m₂ := by
  apply Mem.ext
  funext x
  by_cases hx : dest ≤ x ∧ x < dest + n
  · obtain ⟨i, rfl⟩ := Nat.exists_eq_add_of_le hx.1
    rw [h₁.inside i (by omega), h₂.inside i (by omega)]
  · rw [h₁.outside x (by omega), h₂.outside x (by omega)]

theorem moved_memcpy (m : Mem) {dest src : Nat} (n : Nat) (hdown : dest ≤ src) :
    Moved m dest src n (memcpy m dest src n) :=
  ⟨fun _ hi => memcpy_byte_down hi hdown, fun _ hx => memcpy_byte_outside hx⟩

theorem moved_copyDown (m : Mem) {dest src : Nat} (n : Nat) (hup : src ≤ dest) :
    Moved m dest src n (copyDown m dest src n) :=
  ⟨fun _ hi => copyDown_byte_up hi hup, fun _ hx => copyDown_byte_outside hx⟩

/-- Both versions of `memmove` move the bytes, however the ranges overlap, so they agree. -/
theorem memmove_moves (m : Mem) (dest src n : Nat) :
    Moved m dest src n (memmove m dest src n) ∧ Moved m dest src n (libcMemmove m dest src n) ∧
      memmove m dest src n = libcMemmove m dest src n := by
  have hkernel : Moved m dest src n (memmove m dest src n) := by
    rw [memmove]
    split
    case isTrue hdown => exact moved_memcpy m n (Nat.le_of_lt hdown)
    case isFalse hnot =>
      split
      case isTrue hup => exact moved_copyDown m n (Nat.le_of_lt hup)
      case isFalse hnot' =>
        obtain rfl : src = dest := by omega
        exact ⟨fun _ _ => rfl, fun _ _ => rfl⟩
  have hlibc : Moved m dest src n (libcMemmove m dest src n) := by
    rw [libcMemmove]
    split
    case isTrue hdown => exact moved_memcpy m n (Nat.le_of_lt hdown)
    case isFalse hnot => exact moved_copyDown m n (Nat.le_of_not_lt hnot)
  exact ⟨hkernel, hlibc, hkernel.unique hlibc⟩

/-- A field of a copied record. -/
theorem memcpy_get {m : Mem} {dest src n : Nat} {f : Field}
    (hdisjoint : src + n ≤ dest ∨ dest + n ≤ src) (hf : f.offset + f.width ≤ n) :
    (memcpy m dest src n).get dest f = m.get src f := by
  apply Mem.load_eq_of_bytes
  intro i hi
  rw [Nat.add_assoc, Nat.add_assoc]
  exact memcpy_byte_inside (by omega) hdisjoint

end FroggyOs
