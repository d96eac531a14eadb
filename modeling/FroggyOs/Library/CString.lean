import FroggyOs.Library.Memory

/-!
# Byte strings in memory

`Mem.storeBytes` writes a list of bytes one behind the other; a loop that stores one byte
in each round, in either direction, ends in such a memory.

## NUL-terminated strings

A `CString` is the bytes in front of a terminator. It is read by index, and `at?` gives
the terminator at the length of the string and nothing past it, so code that reads a
string through `at?` and returns a result has read no byte behind the terminator.

`CString.At` says that a string lies in memory. There is at most one at an address.
-/

namespace ByteMemory

namespace Mem

/-- Write the bytes of a list from address `p` on. -/
def storeBytes (m : Mem) (p : Nat) (bs : List UInt8) : Mem :=
  ⟨fun x => if p ≤ x then (bs[x - p]?).getD (m.byte x) else m.byte x⟩

variable {m : Mem} {p x i : Nat} {bs cs : List UInt8} {c : UInt8}

theorem storeBytes_byte_outside (h : x < p ∨ p + bs.length ≤ x) :
    (m.storeBytes p bs).byte x = m.byte x := by
  simp only [storeBytes]
  split
  case isTrue hle =>
    rw [List.getElem?_eq_none (by omega)]
    rfl
  case isFalse => rfl

theorem storeBytes_byte_inside (hi : i < bs.length) : (m.storeBytes p bs).byte (p + i) = bs[i] := by
  simp only [storeBytes]
  rw [if_pos (Nat.le_add_right p i), Nat.add_sub_cancel_left, List.getElem?_eq_getElem hi]
  rfl

@[simp] theorem storeBytes_nil (m : Mem) (p : Nat) : m.storeBytes p [] = m := by
  apply Mem.ext
  funext x
  exact storeBytes_byte_outside (by simp; omega)

theorem store_one_byte_same (m : Mem) (p : Nat) (c : UInt8) :
    (m.store p 1 c.toNat).byte p = c := by
  simp [store]

/-- A loop from the low end upwards. -/
theorem storeBytes_cons (m : Mem) (p : Nat) (c : UInt8) (bs : List UInt8) :
    m.storeBytes p (c :: bs) = (m.store p 1 c.toNat).storeBytes (p + 1) bs := by
  apply Mem.ext
  funext x
  obtain hlt | rfl | hgt := Nat.lt_trichotomy x p
  · rw [storeBytes_byte_outside (.inl hlt), storeBytes_byte_outside (by omega),
      store_byte_outside (.inl hlt)]
  · rw [storeBytes_byte_outside (.inl (Nat.lt_succ_self x)), store_one_byte_same]
    exact @storeBytes_byte_inside m x 0 (c :: bs) (Nat.succ_pos _)
  · obtain ⟨i, rfl⟩ := Nat.exists_eq_add_of_lt hgt
    by_cases hi : i < bs.length
    · have hinside := @storeBytes_byte_inside (m.store p 1 c.toNat) (p + 1) i bs hi
      rw [Nat.add_right_comm] at hinside
      rw [hinside, Nat.add_assoc, storeBytes_byte_inside (by simpa using hi),
        List.getElem_cons_succ]
    · rw [storeBytes_byte_outside (by simp only [List.length_cons]; omega),
        storeBytes_byte_outside (by omega), store_byte_outside (by omega)]

theorem storeBytes_append (m : Mem) (p : Nat) (bs cs : List UInt8) :
    m.storeBytes p (bs ++ cs) = (m.storeBytes p bs).storeBytes (p + bs.length) cs := by
  induction bs generalizing m p with
  | nil => simp
  | cons b rest ih =>
      rw [List.cons_append, storeBytes_cons, ih, storeBytes_cons, List.length_cons,
        Nat.add_assoc, Nat.add_comm 1]

/-- Writes of different bytes commute. -/
theorem storeBytes_store (h : x < p ∨ p + bs.length ≤ x) :
    (m.store x 1 c.toNat).storeBytes p bs = (m.storeBytes p bs).store x 1 c.toNat := by
  apply Mem.ext
  funext y
  by_cases hy : p ≤ y ∧ y < p + bs.length
  · obtain ⟨i, rfl⟩ := Nat.exists_eq_add_of_le hy.1
    rw [storeBytes_byte_inside (by omega), store_byte_outside (by omega),
      storeBytes_byte_inside (by omega)]
  · rw [storeBytes_byte_outside (by omega)]
    by_cases hx : y = x
    · rw [hx, store_one_byte_same, store_one_byte_same]
    · rw [store_byte_outside (by omega), store_byte_outside (by omega),
        storeBytes_byte_outside (by omega)]

/-- A loop from the high end downwards. -/
theorem storeBytes_concat (m : Mem) (p : Nat) (bs : List UInt8) (c : UInt8) :
    m.storeBytes p (bs ++ [c]) = (m.store (p + bs.length) 1 c.toNat).storeBytes p bs := by
  rw [storeBytes_append, storeBytes_cons, storeBytes_nil, storeBytes_store (.inr (Nat.le_refl _))]

end Mem

/-- The bytes of a string in front of its terminator. -/
structure CString where
  bytes : List UInt8
  noNul : 0 ∉ bytes
deriving DecidableEq

namespace CString

def length (s : CString) : Nat := s.bytes.length

/-- The byte at an index, the terminator included. -/
def at? (s : CString) (i : Nat) : Option UInt8 := (s.bytes ++ [0])[i]?

/-- The second string over the terminator of the first. -/
def append (s t : CString) : CString :=
  ⟨s.bytes ++ t.bytes, fun hmem => (List.mem_append.mp hmem).elim s.noNul t.noNul⟩

variable {s t : CString} {i : Nat} {m m' : Mem} {p : Nat}

@[ext] theorem ext (h : s.bytes = t.bytes) : s = t := by
  cases s
  cases t
  cases h
  rfl

theorem at?_of_lt (h : i < s.bytes.length) : s.at? i = some s.bytes[i] := by
  rw [at?, List.getElem?_append_left h]
  exact List.getElem?_eq_getElem h

@[simp] theorem at?_length (s : CString) : s.at? s.length = some 0 := by
  rw [at?, length, List.getElem?_append_right (Nat.le_refl _), Nat.sub_self]
  rfl

theorem at?_of_length_lt (h : s.length < i) : s.at? i = none := by
  rw [at?, List.getElem?_eq_none]
  rw [List.length_append]
  exact h

/-- A string has no byte 0 in front of its terminator. -/
theorem bytes_ne_zero (h : i < s.bytes.length) : s.bytes[i] ≠ 0 := by
  intro hzero
  have hmem := List.getElem_mem (l := s.bytes) h
  rw [hzero] at hmem
  exact s.noNul hmem

theorem at?_eq_zero_iff : s.at? i = some 0 ↔ i = s.length := by
  constructor
  · intro hzero
    obtain hlt | rfl | hgt := Nat.lt_trichotomy i s.length
    · rw [at?_of_lt hlt] at hzero
      exact absurd (Option.some.inj hzero) (bytes_ne_zero hlt)
    · rfl
    · rw [at?_of_length_lt hgt] at hzero
      cases hzero
  · rintro rfl
    exact s.at?_length

/-- Except for the terminator, reading the string is reading its bytes. -/
theorem at?_eq_some_iff {c : UInt8} (hc : c ≠ 0) : s.at? i = some c ↔ s.bytes[i]? = some c := by
  obtain hlt | rfl | hgt := Nat.lt_trichotomy i s.length
  · rw [at?, List.getElem?_append_left hlt]
  · rw [at?_length, length, List.getElem?_eq_none (Nat.le_refl _)]
    simp [hc.symm]
  · rw [at?_of_length_lt hgt, List.getElem?_eq_none (Nat.le_of_lt hgt)]

/-! ## Strings in memory -/

/-- The string and its terminator lie in memory from `p` on. -/
def At (s : CString) (m : Mem) (p : Nat) : Prop := ∀ i c, s.at? i = some c → m.byte (p + i) = c

namespace At

theorem nul (h : s.At m p) : m.byte (p + s.length) = 0 := h _ _ s.at?_length

theorem byte (h : s.At m p) (hi : i < s.bytes.length) : m.byte (p + i) = s.bytes[i] :=
  h _ _ (at?_of_lt hi)

theorem of_bytes (hbytes : ∀ i (hi : i < s.bytes.length), m.byte (p + i) = s.bytes[i])
    (hnul : m.byte (p + s.length) = 0) : s.At m p := by
  intro i c hc
  obtain hlt | rfl | hgt := Nat.lt_trichotomy i s.length
  · rw [at?_of_lt hlt] at hc
    rw [hbytes i hlt]
    exact Option.some.inj hc
  · rw [at?_length] at hc
    rw [hnul]
    exact Option.some.inj hc
  · rw [at?_of_length_lt hgt] at hc
    cases hc

theorem frame (h : s.At m p) (hsame : ∀ x, p ≤ x → x ≤ p + s.length → m'.byte x = m.byte x) :
    s.At m' p := by
  intro i c hc
  have hi : i ≤ s.length := by
    by_contra hgt
    rw [at?_of_length_lt (Nat.lt_of_not_le hgt)] at hc
    cases hc
  rw [hsame _ (by omega) (by omega), h i c hc]

/-- A string written in front of a byte 0. -/
theorem storeBytes (hnul : m.byte (p + s.length) = 0) : s.At (m.storeBytes p s.bytes) p := by
  apply of_bytes
  · intro i hi
    exact Mem.storeBytes_byte_inside hi
  · rw [length, Mem.storeBytes_byte_outside (.inr (Nat.le_refl _))]
    exact hnul

/-- The first byte 0 ends the string. -/
theorem length_le (h : s.At m p) (ht : t.At m p) : s.length ≤ t.length := by
  by_contra hlt
  have hbyte := h.byte (Nat.lt_of_not_le hlt)
  rw [ht.nul] at hbyte
  exact bytes_ne_zero _ hbyte.symm

/-- Memory holds one string at an address at most. -/
theorem unique (h : s.At m p) (ht : t.At m p) : s = t := by
  have hlength : s.length = t.length := Nat.le_antisymm (h.length_le ht) (ht.length_le h)
  apply CString.ext
  apply List.ext_getElem hlength
  intro i hi hi'
  rw [← h.byte hi, ← ht.byte hi']

end At

end CString

end ByteMemory
