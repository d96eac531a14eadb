import Mathlib.Data.Nat.Digits.Lemmas
import FroggyOs.Library.CString

/-!
# Numerals

The digits of a number in a base up to 36 as bytes, the greatest place first. `numeral`
is Mathlib's list of digits turned around; its last digit comes off by one division
(`numeral_eq`), which is how printing loops produce it. `IsNumeral` says what a numeral
is by reading it back, and a positive number has no other.
-/

namespace Numeral

open ByteMemory

/-- `'0'` to `'9'`, then `'a'` and up. -/
def digitByte (d : Nat) : UInt8 := UInt8.ofNat (if d < 10 then 48 + d else 87 + d)

def digitValue (c : UInt8) : Nat := if c.toNat < 58 then c.toNat - 48 else c.toNat - 87

/-- The value of a numeral. -/
def read (base : Nat) (s : List UInt8) : Nat := s.foldl (fun v c => digitValue c + base * v) 0

def numeral (base v : Nat) : List UInt8 :=
  if v = 0 then [digitByte 0] else (Nat.digits base v).reverse.map digitByte

/-- Digits below the base that read back as `v`, without a leading zero unless `v` is 0. -/
structure IsNumeral (base v : Nat) (s : List UInt8) : Prop where
  nonempty : s ≠ []
  digits : ∀ c ∈ s, ∃ d < base, c = digitByte d
  noLeadingZero : v ≠ 0 → s.head? ≠ some (digitByte 0)
  reads : read base s = v

section Digits

variable {base v d : Nat} {s : List UInt8}

theorem digitByte_toNat (hd : d < 36) :
    (digitByte d).toNat = if d < 10 then 48 + d else 87 + d := by
  rw [digitByte, UInt8.toNat_ofNat']
  split <;> omega

theorem digitValue_digitByte (hd : d < 36) : digitValue (digitByte d) = d := by
  rw [digitValue, digitByte_toNat hd]
  split
  case isTrue hlow => rw [if_pos (by omega), Nat.add_sub_cancel_left]
  case isFalse hhigh => rw [if_neg (by omega), Nat.add_sub_cancel_left]

theorem digitByte_ne_zero (hd : d < 36) : digitByte d ≠ 0 := by
  intro hzero
  have hnat := digitByte_toNat hd
  rw [hzero, UInt8.toNat_zero] at hnat
  split at hnat <;> omega

/-! ## The last digit -/

theorem numeral_of_lt (hv : v < base) : numeral base v = [digitByte v] := by
  rw [numeral]
  split
  case isTrue hzero => rw [hzero]
  case isFalse hne =>
    rw [Nat.digits_of_lt base v hne hv, List.reverse_singleton, List.map_singleton]

theorem numeral_of_le (hbase : 2 ≤ base) (hv : base ≤ v) :
    numeral base v = numeral base (v / base) ++ [digitByte (v % base)] := by
  have hdiv : v / base ≠ 0 := by
    have hpos := Nat.div_pos hv (by omega)
    omega
  rw [numeral, if_neg (by omega), numeral, if_neg hdiv, Nat.digits_def' (by omega) (by omega),
    List.reverse_cons, List.map_append, List.map_singleton]

/-- The last digit is what a division leaves, and the quotient's numeral stands before it. -/
theorem numeral_eq (hbase : 2 ≤ base) (v : Nat) : numeral base v =
    (if v / base = 0 then [] else numeral base (v / base)) ++ [digitByte (v % base)] := by
  obtain hlt | hle := Nat.lt_or_ge v base
  · rw [numeral_of_lt hlt, Nat.div_eq_of_lt hlt, Nat.mod_eq_of_lt hlt, if_pos rfl, List.nil_append]
  · have hpos := Nat.div_pos hle (by omega)
    rw [numeral_of_le hbase hle, if_neg (by omega)]

theorem numeral_length_pos (hbase : 2 ≤ base) (v : Nat) : 0 < (numeral base v).length := by
  rw [numeral_eq hbase, List.length_append]
  exact Nat.lt_add_left _ Nat.one_pos

/-- A numeral has no more digits than the number has places. -/
theorem numeral_length_le {k : Nat} (hbase : 2 ≤ base) (hk : 0 < k) (hv : v < base ^ k) :
    (numeral base v).length ≤ k := by
  rw [numeral]
  split
  case isTrue => exact hk
  case isFalse =>
    rw [List.length_map, List.length_reverse]
    exact (Nat.digits_length_le_iff (by omega) v).mpr hv

theorem exists_of_mem_numeral (hbase : 2 ≤ base) {c : UInt8} (hc : c ∈ numeral base v) :
    ∃ d < base, c = digitByte d := by
  rw [numeral] at hc
  split at hc
  case isTrue => exact ⟨0, by omega, List.mem_singleton.mp hc⟩
  case isFalse =>
    obtain ⟨d, hd, rfl⟩ := List.mem_map.mp hc
    exact ⟨d, Nat.digits_lt_base (by omega) (List.mem_reverse.mp hd), rfl⟩

theorem zero_notMem_numeral (hbase : 2 ≤ base) (hmax : base ≤ 36) : 0 ∉ numeral base v := by
  intro hzero
  obtain ⟨d, hd, hbyte⟩ := exists_of_mem_numeral hbase hzero
  exact digitByte_ne_zero (by omega) hbyte.symm

/-- The numeral as a string. -/
def string (base v : Nat) (hbase : 2 ≤ base) (hmax : base ≤ 36) : CString :=
  ⟨numeral base v, zero_notMem_numeral hbase hmax⟩

/-! ## Reading back -/

theorem read_eq (base : Nat) (s : List UInt8) :
    read base s = Nat.ofDigits base (s.reverse.map digitValue) := by
  rw [read, Nat.ofDigits_eq_foldr, List.foldr_map, List.foldr_reverse]
  rfl

theorem map_digitValue (hmax : base ≤ 36) {ds : List Nat} (hds : ∀ d ∈ ds, d < base) :
    (ds.map digitByte).map digitValue = ds := by
  rw [List.map_map]
  refine (List.map_congr_left fun d hd => ?_).trans (List.map_id ds)
  have hlt := hds d hd
  exact digitValue_digitByte (by omega)

theorem read_numeral (hbase : 2 ≤ base) (hmax : base ≤ 36) (v : Nat) :
    read base (numeral base v) = v := by
  rw [read_eq, numeral]
  split
  case isTrue hzero =>
    rw [hzero]
    rfl
  case isFalse =>
    rw [← List.map_reverse, List.reverse_reverse,
      map_digitValue hmax fun d hd => Nat.digits_lt_base (by omega) hd, Nat.ofDigits_digits]

theorem isNumeral_numeral (hbase : 2 ≤ base) (hmax : base ≤ 36) (v : Nat) :
    IsNumeral base v (numeral base v) where
  nonempty := List.ne_nil_of_length_pos (numeral_length_pos hbase v)
  digits := fun _ hc => exists_of_mem_numeral hbase hc
  reads := read_numeral hbase hmax v
  noLeadingZero := by
    intro hne hhead
    rw [numeral, if_neg hne, List.head?_map, List.head?_reverse] at hhead
    obtain ⟨d, hd, hbyte⟩ := Option.map_eq_some_iff.mp hhead
    obtain ⟨hnil, hlast⟩ := List.mem_getLast?_eq_getLast hd
    have hlt : d < base := by
      rw [hlast]
      exact Nat.digits_lt_base (by omega) (List.getLast_mem _)
    have hvalue := congrArg digitValue hbyte
    rw [digitValue_digitByte (by omega), digitValue_digitByte (by omega), hlast] at hvalue
    exact Nat.getLast_digit_ne_zero base hne hvalue

/-- A positive number has one numeral. -/
theorem IsNumeral.eq_numeral (h : IsNumeral base v s) (hbase : 2 ≤ base) (hmax : base ≤ 36)
    (hv : v ≠ 0) : s = numeral base v := by
  obtain ⟨ds, hds, rfl⟩ : ∃ ds : List Nat, (∀ d ∈ ds, d < base) ∧ s = ds.map digitByte := by
    have hdigits := h.digits
    clear h
    induction s with
    | nil => exact ⟨[], by simp, rfl⟩
    | cons c rest ih =>
        obtain ⟨hc, hrest⟩ := List.forall_mem_cons.mp hdigits
        obtain ⟨d, hd, rfl⟩ := hc
        obtain ⟨ds, hds, rfl⟩ := ih hrest
        exact ⟨d :: ds, List.forall_mem_cons.mpr ⟨hd, hds⟩, rfl⟩
  have hreads := h.reads
  rw [read_eq, ← List.map_reverse, map_digitValue hmax (by simpa using hds)] at hreads
  have hlast : ∀ hnil : ds.reverse ≠ [], ds.reverse.getLast hnil ≠ 0 := by
    intro hnil hzero
    have hhead : ds.head? = some 0 := by
      rw [← List.getLast?_reverse, List.getLast?_eq_some_getLast hnil, hzero]
    apply h.noLeadingZero hv
    rw [List.head?_map, hhead]
    rfl
  have hdigits := Nat.digits_ofDigits base (by omega) ds.reverse (by simpa using hds) hlast
  rw [hreads] at hdigits
  rw [numeral, if_neg hv, hdigits, List.reverse_reverse]

end Digits

end Numeral
