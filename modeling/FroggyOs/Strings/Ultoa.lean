import FroggyOs.Strings.Itoa

/-!
# `ultoa`, `iltoa` and `uitoa` (`klibc/string/ultoa.c`, `iltoa.c`, `uitoa.c`)

The three are one algorithm: the digits are emitted from the last one on, and the string
is then reversed in place by two pointers that move towards each other. It has nothing in
common with the loops of `utoa`, and leaves the same strings (`unsignedPrinters_agree`).

The digits come from a table with `'0'` in the middle; the half in front of it is for
negative remainders. `none` stands for a read outside of the table.
-/

namespace FroggyOs

open ByteMemory Numeral

def centredDigits : List UInt8 :=
  "zyxwvutsrqponmlkjihgfedcba9876543210123456789abcdefghijklmnopqrstuvwxyz".toList.map Char.toUInt8

/-- The `do` loop, with the last `tmp_value`. A 64-bit value has at most 64 digits. -/
def emitDigits (base : Nat) : Nat → Nat → Nat → Mem → Option (Nat × Nat × Mem)
  | 0, _, _, _ => none
  | fuel + 1, value, ptr, m => do
      let tmpValue := value
      let value := value / base
      let character ← centredDigits[35 + (tmpValue - value * base)]?
      let m := m.store ptr 1 character.toNat
      if value = 0 then some (tmpValue, ptr + 1, m) else emitDigits base fuel value (ptr + 1) m

/-- The `while` loop: the bytes at the two pointers are exchanged. -/
def reverseBetween (m : Mem) (ptr1 ptr : Nat) : Mem :=
  if ptr1 < ptr then
    let tmpChar := m.byte ptr
    let m := m.store ptr 1 (m.byte ptr1).toNat
    let m := m.store ptr1 1 tmpChar.toNat
    reverseBetween m (ptr1 + 1) (ptr - 1)
  else m
termination_by ptr - ptr1

/-- The body that `ultoa` and `uitoa` have in common. -/
def printUnsigned (m : Mem) (value result : Nat) (base : Int) : Option (Nat × Mem) :=
  if base < 2 ∨ base > 36 then some (result, m.store result 1 0)
  else do
    let (_, ptr, m) ← emitDigits base.toNat 64 value result m
    let m := m.store ptr 1 0
    some (result, reverseBetween m result (ptr - 1))

def ultoa (m : Mem) (value : UInt64) (result : Nat) (base : Int) : Option (Nat × Mem) :=
  printUnsigned m value.toNat result base

def uitoa (m : Mem) (value : UInt32) (result : Nat) (base : Int) : Option (Nat × Mem) :=
  printUnsigned m value.toNat result base

/-- The test for a sign is made on an unsigned value. -/
def iltoa (m : Mem) (value : UInt64) (result : Nat) (base : Int) : Option (Nat × Mem) :=
  if base < 2 ∨ base > 36 then some (result, m.store result 1 0)
  else do
    let (tmpValue, ptr, m) ← emitDigits base.toNat 64 value.toNat result m
    let (ptr, m) := if tmpValue < 0 then (ptr + 1, m.store ptr 1 ('-').toNat) else (ptr, m)
    let m := m.store ptr 1 0
    some (result, reverseBetween m result (ptr - 1))

section Loops

variable {base v fuel ptr ptr1 x : Nat} {m : Mem} {bs : List UInt8}

theorem centredDigits_of_lt {d : Nat} (hd : d < 36) :
    centredDigits[35 + d]? = some (digitByte d) := by
  have hdigits : ∀ d ∈ List.range 36, centredDigits[35 + d]? = some (digitByte d) := by
    decide +kernel
  exact hdigits d (List.mem_range.mpr hd)

/-- The first loop writes the numeral backwards. -/
theorem emitDigits_eq (hbase : 2 ≤ base) (hmax : base ≤ 36)
    (hfuel : (numeral base v).length ≤ fuel) : ∃ tmpValue, emitDigits base fuel v ptr m =
      some (tmpValue, ptr + (numeral base v).length,
        m.storeBytes ptr (numeral base v).reverse) := by
  induction fuel generalizing v ptr m with
  | zero =>
      have hpos := numeral_length_pos hbase v
      omega
  | succ fuel ih =>
      have hlt : v % base < base := Nat.mod_lt v (by omega)
      have hrest : v - v / base * base = v % base := by
        rw [Nat.mul_comm]
        exact Nat.sub_eq_of_eq_add' (Nat.div_add_mod v base).symm
      rw [emitDigits]
      simp only [hrest, centredDigits_of_lt (by omega : v % base < 36), Option.bind_eq_bind,
        Option.bind_some]
      rw [numeral_eq hbase, List.length_append, List.length_singleton] at hfuel
      rw [numeral_eq hbase v, List.reverse_append, List.reverse_singleton, List.singleton_append,
        Mem.storeBytes_cons, List.length_append, List.length_singleton]
      split
      case isTrue => exact ⟨v, by simp⟩
      case isFalse hne =>
        rw [if_neg hne] at hfuel
        obtain ⟨tmpValue, hcall⟩ :=
          @ih (v / base) (ptr + 1) (m.store ptr 1 (digitByte (v % base)).toNat) (by omega)
        exact ⟨tmpValue, by rw [hcall, Nat.add_assoc, Nat.add_comm 1]⟩

/-- The second loop reverses the bytes between its pointers: the exchanged ones lie outside
of what is still to be reversed. -/
theorem reverseBetween_byte (h : ptr1 ≤ ptr + 1) (x : Nat) : (reverseBetween m ptr1 ptr).byte x =
    if ptr1 ≤ x ∧ x ≤ ptr then m.byte (ptr1 + ptr - x) else m.byte x := by
  induction m, ptr1, ptr using reverseBetween.induct with
  | case1 m ptr1 ptr hlt tmpChar m₁ m₂ ih =>
      have hother : ∀ y, y ≠ ptr1 → y ≠ ptr → m₂.byte y = m.byte y := by
        intro y hy₁ hy
        rw [Mem.store_byte_outside (by omega), Mem.store_byte_outside (by omega)]
      have hlow : m₂.byte ptr1 = m.byte ptr := Mem.store_one_byte_same _ _ _
      have hhigh : m₂.byte ptr = m.byte ptr1 := by
        rw [Mem.store_byte_outside (by omega)]
        exact Mem.store_one_byte_same _ _ _
      rw [reverseBetween, if_pos hlt]
      show (reverseBetween m₂ (ptr1 + 1) (ptr - 1)).byte x = _
      rw [ih (by omega)]
      by_cases hin : ptr1 ≤ x ∧ x ≤ ptr
      · rw [if_pos hin]
        obtain rfl | hx₁ := eq_or_ne x ptr1
        · rw [if_neg (by omega), hlow, Nat.add_sub_cancel_left]
        obtain rfl | hx := eq_or_ne x ptr
        · rw [if_neg (by omega), hhigh, Nat.add_sub_cancel]
        · rw [if_pos (by omega), hother _ (by omega) (by omega)]
          congr 1
          omega
      · rw [if_neg hin, if_neg (by omega), hother x (by omega) (by omega)]
  | case2 m ptr1 ptr hnot =>
      rw [reverseBetween, if_neg hnot]
      split
      case isTrue hin =>
        congr 1
        omega
      case isFalse => rfl

/-- A string written backwards is turned around. -/
theorem reverseBetween_storeBytes (hbs : bs ≠ []) :
    reverseBetween ((m.storeBytes ptr bs.reverse).store (ptr + bs.length) 1 0) ptr
        (ptr + bs.length - 1) = (m.store (ptr + bs.length) 1 0).storeBytes ptr bs := by
  have hpos := List.length_pos_of_ne_nil hbs
  apply Mem.ext
  funext x
  rw [reverseBetween_byte (by omega)]
  split
  case isTrue hin =>
    obtain ⟨i, rfl⟩ := Nat.exists_eq_add_of_le hin.1
    have hi : i < bs.length := by omega
    have hmirror : ptr + (ptr + bs.length - 1) - (ptr + i) = ptr + (bs.length - 1 - i) := by omega
    rw [hmirror, Mem.store_byte_outside (by omega),
      Mem.storeBytes_byte_inside (by rw [List.length_reverse]; omega),
      Mem.storeBytes_byte_inside hi, List.getElem_reverse]
    congr 1
    omega
  case isFalse hout =>
    rw [@Mem.storeBytes_byte_outside _ _ _ bs (by omega)]
    by_cases hx : x = ptr + bs.length
    · subst hx
      simp [Mem.store]
    · rw [Mem.store_byte_outside (by omega), Mem.store_byte_outside (by omega),
        Mem.storeBytes_byte_outside (by rw [List.length_reverse]; omega)]

end Loops

/-- The call returns its buffer with a string in it. -/
def Leaves (call : Option (Nat × Mem)) (result : Nat) (s : CString) : Prop :=
  ∃ m', call = some (result, m') ∧ s.At m' result

section Agree

variable {base v : Nat} (m : Mem) (result : Nat)

theorem printUnsigned_leaves (hbase : 2 ≤ base) (hmax : base ≤ 36) (hv : v < 2 ^ 64) :
    Leaves (printUnsigned m v result base) result (string base v hbase hmax) := by
  have hpow : 2 ^ 64 ≤ base ^ 64 := Nat.pow_le_pow_left hbase 64
  have hlength := numeral_length_le hbase (by decide : 0 < 64) (Nat.lt_of_lt_of_le hv hpow)
  have hne := List.ne_nil_of_length_pos (numeral_length_pos hbase v)
  obtain ⟨tmpValue, hemit⟩ := @emitDigits_eq base v 64 result m hbase hmax hlength
  refine ⟨_, ?_, CString.At.storeBytes (Mem.store_one_byte_same m _ 0)⟩
  rw [printUnsigned, if_neg (by omega), Int.toNat_natCast, hemit]
  exact congrArg (fun m => some (result, m)) (reverseBetween_storeBytes hne)

/-- The sign is never printed. -/
theorem iltoa_eq_ultoa (value : UInt64) (base : Int) :
    iltoa m value result base = ultoa m value result base := by
  rw [iltoa, ultoa, printUnsigned]
  simp only [Nat.not_lt_zero, if_false]

/-- `ultoa` and `iltoa`, `uitoa` on the values of 32 bits and `utoa` in its bases leave one
string, the canonical digits of the value. -/
theorem unsignedPrinters_agree (hbase : 2 ≤ base) (hmax : base ≤ 36) (value : UInt64) :
    ∃ s : CString, s.bytes = numeral base value.toNat ∧
      Leaves (ultoa m value result base) result s ∧ Leaves (iltoa m value result base) result s ∧
      (∀ u : UInt32, u.toNat = value.toNat → Leaves (uitoa m u result base) result s) ∧
      (base ≤ 16 → Leaves (utoa m value result base) result s) := by
  have hultoa := printUnsigned_leaves m result hbase hmax value.toNat_lt
  refine ⟨string base value.toNat hbase hmax, rfl, hultoa, ?_, fun u hu => ?_, fun hhex => ?_⟩
  · rw [iltoa_eq_ultoa]
    exact hultoa
  · rw [uitoa, hu]
    exact hultoa
  · have hle := numeral_length_le_baseMaxDigit hbase hhex value.toNat_lt
    exact ⟨_, utoa_eq m result hbase hhex value,
      CString.At.storeBytes (memset_nul m result (Nat.lt_succ_of_le hle))⟩

theorem unsignedPrinters_agree_largest : ∃ s : CString, s.bytes = numeral 16 (2 ^ 64 - 1) ∧
    Leaves (ultoa ⟨fun _ => 0xff⟩ 0xffffffffffffffff 0x1000 16) 0x1000 s ∧
    Leaves (iltoa ⟨fun _ => 0xff⟩ 0xffffffffffffffff 0x1000 16) 0x1000 s ∧
    (∀ u : UInt32, u.toNat = 2 ^ 64 - 1 → Leaves (uitoa ⟨fun _ => 0xff⟩ u 0x1000 16) 0x1000 s) ∧
    (16 ≤ 16 → Leaves (utoa ⟨fun _ => 0xff⟩ 0xffffffffffffffff 0x1000 16) 0x1000 s) :=
  @unsignedPrinters_agree 16 ⟨fun _ => 0xff⟩ 0x1000 (by decide) (by decide) 0xffffffffffffffff

end Agree

end FroggyOs
