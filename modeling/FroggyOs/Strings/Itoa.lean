import FroggyOs.Klibc.MemOps
import FroggyOs.Library.Numeral

/-!
# `itoa` and `utoa` (`klibc/string/itoa.c`)

Both count the digits by division, from the most a 64-bit value can have in the base
downwards, and then write them from the last one up. The buffer is cleared for that many
digits and the terminator, which a minus sign moves one byte behind the cleared part.

`none` stands for a read outside of the 16 digits of the table, and for an 8-bit index
that would wrap around below 0. Signed 64-bit arithmetic wraps around: the negation of
the least value is that value.
-/

namespace FroggyOs

open ByteMemory Numeral

/-- `BASE_MAX_DIGIT_MAP` -/
def baseMaxDigitMap : List Nat :=
  [0, 0, 64, 41, 32, 28, 25, 23, 22, 21, 20, 19, 18, 18, 17, 17, 16]

def hexDigits : List UInt8 := "0123456789abcdef".toList.map Char.toUInt8

/-- `"0123456789abcdef"[i]` -/
def digitTable (i : Int) : Option UInt8 := if 0 ≤ i ∧ i < 16 then hexDigits[i.toNat]? else none

/-- The first loop: `i` goes down while there are digits left. -/
def countDown (base : Int) : Nat → Int → Nat
  | 0, _ => 0
  | i + 1, tmp =>
      let tmp := tmp.tdiv base
      if tmp = 0 then i + 1 else countDown base i tmp

/-- The second loop, on the unsigned index `i >= 0`. -/
def fillDigits (base : Int) (str : Nat) : Nat → Int → Mem → Option Mem
  | i, tmp, m => do
      let character ← digitTable (tmp.tmod base)
      let tmp := tmp.tdiv base
      let m := m.store (str + i) 1 character.toNat
      if tmp = 0 then some m
      else
        match i with
        | 0 => none
        | i + 1 => fillDigits base str i tmp m

/-- The second loop behind a minus sign, which leaves index 0 alone. -/
def fillNegative (base : Int) (str : Nat) : Nat → Int → Mem → Option Mem
  | 0, _, m => some m
  | i + 1, tmp, m => do
      let character ← digitTable (tmp.tmod base)
      let tmp := tmp.tdiv base
      let m := m.store (str + (i + 1)) 1 character.toNat
      if tmp = 0 then some m else fillNegative base str i tmp m

/-- Returns `str`, or 0 for `NULL`. -/
def itoa (m : Mem) (value : Int64) (str base : Nat) : Option (Nat × Mem) :=
  if base < 2 ∨ base > 16 then some (0, m)
  else
    let baseMaxDigits := baseMaxDigitMap.getD base 0
    let m := memset m str 0 (baseMaxDigits + 1)
    if value = 0 then some (str, m.store str 1 ('0').toNat)
    else
      let i := baseMaxDigits
      let negative := decide (value < 0)
      let value := if negative then -value else value
      let baseMaxDigits := if negative then baseMaxDigits + 1 else baseMaxDigits
      let offset := countDown base i value.toInt
      let i := baseMaxDigits - offset
      if negative then do
        let m ← fillNegative base str i value.toInt m
        some (str, m.store str 1 ('-').toNat)
      else do
        let m ← fillDigits base str i value.toInt m
        some (str, m)

/-- Returns `str`, or 0 for `NULL`. -/
def utoa (m : Mem) (value : UInt64) (str base : Nat) : Option (Nat × Mem) :=
  if base < 2 ∨ base > 16 then some (0, m)
  else
    let baseMaxDigits := baseMaxDigitMap.getD base 0
    let m := memset m str 0 (baseMaxDigits + 1)
    if value = 0 then some (str, m.store str 1 ('0').toNat)
    else
      let offset := countDown base baseMaxDigits value.toNat
      let i := baseMaxDigits - offset
      do
        let m ← fillDigits base str i value.toNat m
        some (str, m)

/-! ## The loops -/

section Loops

variable {base v i n str : Nat} {m : Mem}

/-- The table has the most digits a 64-bit value can have, for every base. -/
theorem lt_pow_baseMaxDigit (hbase : 2 ≤ base) (hmax : base ≤ 16) (hv : v < 2 ^ 64) :
    v < base ^ baseMaxDigitMap.getD base 0 ∧ 0 < baseMaxDigitMap.getD base 0 := by
  have hbound : ∀ b ∈ List.range' 2 15, 2 ^ 64 ≤ b ^ baseMaxDigitMap.getD b 0 ∧
      0 < baseMaxDigitMap.getD b 0 := by
    decide
  have hin := hbound base (by rw [List.mem_range'_1]; omega)
  exact ⟨Nat.lt_of_lt_of_le hv hin.1, hin.2⟩

theorem digitTable_of_lt (hv : v < 16) : digitTable v = some (digitByte v) := by
  have hdigits : ∀ d ∈ List.range 16, hexDigits[d]? = some (digitByte d) := by decide
  rw [digitTable, if_pos (by omega), Int.toNat_natCast, hdigits v (List.mem_range.mpr hv)]

/-- The first loop counts the digits, of negative numbers too. -/
theorem countDown_eq (hbase : 2 ≤ base) (i : Nat) (tmp : Int) :
    countDown base i tmp = i + 1 - (numeral base tmp.natAbs).length := by
  induction i generalizing tmp with
  | zero =>
      have hpos := numeral_length_pos hbase tmp.natAbs
      rw [countDown]
      omega
  | succ i ih =>
      have hquot : (tmp.tdiv base).natAbs = tmp.natAbs / base := by
        rw [Int.natAbs_tdiv, Int.natAbs_natCast]
        rfl
      rw [countDown, numeral_eq hbase tmp.natAbs, ← hquot]
      by_cases hzero : tmp.tdiv base = 0
      · simp [hzero]
      · have habs : (tmp.tdiv base).natAbs ≠ 0 := Int.natAbs_ne_zero.mpr hzero
        simp only [hzero, habs, if_false, ih, List.length_append, List.length_singleton]
        omega

/-- One round of the second loop. -/
theorem fillDigits_round (hbase : 2 ≤ base) (hmax : base ≤ 16) :
    fillDigits base str i v m =
      if v / base = 0 then some (m.store (str + i) 1 (digitByte (v % base)).toNat)
      else
        match i with
        | 0 => none
        | j + 1 => fillDigits base str j ↑(v / base)
            (m.store (str + i) 1 (digitByte (v % base)).toNat) := by
  have hmod : v % base < base := Nat.mod_lt v (by omega)
  rw [fillDigits.eq_def]
  simp only [← Int.ofNat_tmod, ← Int.ofNat_tdiv, digitTable_of_lt (by omega : v % base < 16),
    Option.bind_eq_bind, Option.bind_some, Int.natCast_eq_zero]

/-- With room for exactly its digits, the second loop writes the numeral. -/
theorem fillDigits_eq (hbase : 2 ≤ base) (hmax : base ≤ 16)
    (hi : (numeral base v).length = i + 1) :
    fillDigits base str i v m = some (m.storeBytes str (numeral base v)) := by
  induction i generalizing v m with
  | zero =>
      rw [fillDigits_round hbase hmax]
      rw [numeral_eq hbase] at hi ⊢
      split
      case isTrue => rw [List.nil_append, Mem.storeBytes_cons, Mem.storeBytes_nil, Nat.add_zero]
      case isFalse hne =>
        have hpos := numeral_length_pos hbase (v / base)
        rw [if_neg hne, List.length_append, List.length_singleton] at hi
        omega
  | succ i ih =>
      rw [fillDigits_round hbase hmax]
      rw [numeral_eq hbase, List.length_append, List.length_singleton] at hi
      have hne : v / base ≠ 0 := by
        intro hzero
        rw [if_pos hzero] at hi
        cases hi
      rw [if_neg hne] at hi
      have hlength : (numeral base (v / base)).length = i + 1 := Nat.succ.inj hi
      rw [numeral_eq hbase v, if_neg hne, if_neg hne, Mem.storeBytes_concat, hlength]
      exact ih hlength

/-- The loop behind a minus sign is the same loop one byte later, if that one ends. -/
theorem fillNegative_of_fillDigits {base tmp : Int} {m m' : Mem}
    (h : fillDigits base (str + 1) i tmp m = some m') :
    fillNegative base str (i + 1) tmp m = some m' := by
  induction i generalizing tmp m with
  | zero =>
      rw [fillDigits.eq_def] at h
      rw [fillNegative]
      cases hdigit : digitTable (tmp.tmod base) with
      | none =>
          simp only [hdigit, Option.bind_eq_bind, Option.bind_none] at h
          cases h
      | some character =>
          simp only [hdigit, Option.bind_eq_bind, Option.bind_some] at h ⊢
          split at h
          case isTrue hzero =>
            rw [if_pos hzero]
            exact h
          case isFalse => cases h
  | succ i ih =>
      rw [fillDigits.eq_def] at h
      rw [fillNegative]
      cases hdigit : digitTable (tmp.tmod base) with
      | none =>
          simp only [hdigit, Option.bind_eq_bind, Option.bind_none] at h
          cases h
      | some character =>
          have haddr : str + (i + 1 + 1) = str + 1 + (i + 1) := by omega
          simp only [hdigit, Option.bind_eq_bind, Option.bind_some] at h ⊢
          rw [haddr]
          split at h
          case isTrue hzero =>
            rw [if_pos hzero]
            exact h
          case isFalse hne =>
            rw [if_neg hne]
            exact ih h

/-- On a negative number the remainders are not positive, and the last one is negative. -/
theorem fillNegative_of_neg (hbase : 2 ≤ base) (hv : 0 < v)
    (hi : (numeral base v).length ≤ i) : fillNegative base str i (-v) m = none := by
  induction i generalizing v m with
  | zero =>
      have hpos := numeral_length_pos hbase v
      omega
  | succ i ih =>
      rw [fillNegative, Int.neg_tmod, Int.neg_tdiv, ← Int.ofNat_tmod, ← Int.ofNat_tdiv]
      obtain hzero | hpos := Nat.eq_zero_or_pos (v % base)
      · have hle : base ≤ v := Nat.le_of_dvd hv (Nat.dvd_of_mod_eq_zero hzero)
        have hquot : 0 < v / base := Nat.div_pos hle (by omega)
        rw [numeral_of_le hbase hle, List.length_append, List.length_singleton] at hi
        have hne : -((v / base : Nat) : Int) ≠ 0 := by omega
        have htable : digitTable (-((v % base : Nat) : Int)) = some (digitByte 0) := by
          rw [hzero]
          rfl
        rw [htable]
        simp only [Option.bind_eq_bind, Option.bind_some, hne, if_false]
        exact ih hquot (by omega)
      · have houtside : digitTable (-↑(v % base)) = none := if_neg (by omega)
        rw [houtside]
        rfl

end Loops

/-! ## The calls -/

/-- `'-'` in front of the numeral of a negative number. -/
def signedNumeral (base : Nat) (v : Int) : List UInt8 :=
  if v < 0 then ('-').toUInt8 :: numeral base v.natAbs else numeral base v.natAbs

section Calls

variable {base : Nat} (m : Mem) (str : Nat)

theorem numeral_length_le_baseMaxDigit (hbase : 2 ≤ base) (hmax : base ≤ 16) {v : Nat}
    (hv : v < 2 ^ 64) : (numeral base v).length ≤ baseMaxDigitMap.getD base 0 := by
  obtain ⟨hlt, hpos⟩ := lt_pow_baseMaxDigit hbase hmax hv
  exact numeral_length_le hbase hpos hlt

/-- Both loops agree on the number of digits. -/
theorem fillDigits_counted (hbase : 2 ≤ base) (hmax : base ≤ 16) {v : Nat} (hv : v < 2 ^ 64) :
    fillDigits base str
        (baseMaxDigitMap.getD base 0 - countDown base (baseMaxDigitMap.getD base 0) v) v m =
      some (m.storeBytes str (numeral base v)) := by
  have hpos := numeral_length_pos hbase v
  have hle := numeral_length_le_baseMaxDigit hbase hmax hv
  rw [countDown_eq hbase, Int.natAbs_natCast]
  apply fillDigits_eq hbase hmax
  omega

/-- `utoa` clears the digits' bytes and writes the numeral. -/
theorem utoa_eq (hbase : 2 ≤ base) (hmax : base ≤ 16) (value : UInt64) :
    utoa m value str base = some (str, (memset m str 0 (baseMaxDigitMap.getD base 0 + 1)).storeBytes
      str (numeral base value.toNat)) := by
  rw [utoa, if_neg (by omega)]
  by_cases hzero : value = 0
  · subst hzero
    simp only [if_true]
    rw [UInt64.toNat_zero, numeral_of_lt (by omega), Mem.storeBytes_cons, Mem.storeBytes_nil]
    rfl
  · simp only [hzero, if_false, fillDigits_counted _ str hbase hmax value.toNat_lt,
      Option.bind_eq_bind, Option.bind_some]

/-- The byte behind the digits is cleared. -/
theorem memset_nul {n k : Nat} (hk : k < n) : (memset m str 0 n).byte (str + k) = 0 :=
  Mem.fill_byte_inside (Nat.le_add_right str k) (Nat.add_lt_add_left hk str)

/-- `utoa` returns without its index wrapping around, it writes no more than it clears, and
leaves the numeral of the value. -/
theorem utoa_prints (hbase : 2 ≤ base) (hmax : base ≤ 16) (value : UInt64) :
    ∃ m', utoa m value str base = some (str, m') ∧
      (∃ s : CString, s.At m' str ∧ IsNumeral base value.toNat s.bytes) ∧
      ∀ x, x < str ∨ str + (baseMaxDigitMap.getD base 0 + 1) ≤ x → m'.byte x = m.byte x := by
  have hle := numeral_length_le_baseMaxDigit hbase hmax value.toNat_lt
  refine ⟨_, utoa_eq m str hbase hmax value,
    ⟨string base value.toNat hbase (by omega), CString.At.storeBytes (memset_nul m str ?_),
      isNumeral_numeral hbase (by omega) _⟩, fun x hx => ?_⟩
  · exact Nat.lt_succ_of_le hle
  · rw [Mem.storeBytes_byte_outside (by omega)]
    exact Mem.fill_byte_outside hx

theorem utoa_prints_largest :
    ∃ m', utoa ⟨fun _ => 0xff⟩ 0xffffffffffffffff 0x1000 2 = some (0x1000, m') ∧
    (∃ s : CString, s.At m' 0x1000 ∧ IsNumeral 2 (2 ^ 64 - 1) s.bytes) ∧
    ∀ x, x < 0x1000 ∨ 0x1000 + (64 + 1) ≤ x → m'.byte x = 0xff :=
  utoa_prints _ _ (by decide) (by decide) _

theorem toInt_neg_iff {value : Int64} : value.toInt < 0 ↔ value < 0 := by
  rw [Int64.lt_iff_toInt_lt, Int64.toInt_zero]

/-- Every value but the least can be negated. -/
theorem toInt_neg {value : Int64} (hmin : value ≠ Int64.minValue) :
    (-value).toInt = -value.toInt := by
  have hlow := value.le_toInt
  have hhigh := value.toInt_lt
  have hne : value.toInt ≠ -2 ^ 63 := fun heq => hmin (Int64.toInt_inj.mp heq)
  rw [Int64.toInt_neg, Int.bmod_eq_of_le (by omega) (by omega)]

/-- Within the cleared bytes or one behind them, `itoa` writes the sign and the numeral. -/
theorem itoa_eq (hbase : 2 ≤ base) (hmax : base ≤ 16) {value : Int64}
    (hmin : value ≠ Int64.minValue) :
    itoa m value str base = some (str, (memset m str 0 (baseMaxDigitMap.getD base 0 + 1)).storeBytes
      str (signedNumeral base value.toInt)) := by
  have hlow := value.le_toInt
  have hhigh := value.toInt_lt
  rw [itoa, if_neg (by omega)]
  by_cases hzero : value = 0
  · subst hzero
    simp only [if_true]
    rw [Int64.toInt_zero, signedNumeral, if_neg (by decide), Int.natAbs_zero,
      numeral_of_lt (by omega), Mem.storeBytes_cons, Mem.storeBytes_nil]
    rfl
  by_cases hneg : value < 0
  · have hint : value.toInt < 0 := toInt_neg_iff.mpr hneg
    have habs : -value.toInt = (value.toInt.natAbs : Int) := by omega
    have hpos := numeral_length_pos hbase value.toInt.natAbs
    have hle := numeral_length_le_baseMaxDigit hbase hmax (by omega : value.toInt.natAbs < 2 ^ 64)
    obtain ⟨k, hk⟩ := Nat.exists_eq_succ_of_ne_zero (Nat.ne_of_gt hpos)
    have hcount : baseMaxDigitMap.getD base 0 + 1 -
        countDown base (baseMaxDigitMap.getD base 0) (value.toInt.natAbs : Int) = k + 1 := by
      rw [countDown_eq hbase, Int.natAbs_natCast]
      omega
    simp only [hzero, hneg, if_false, if_true, decide_true, toInt_neg hmin, habs, hcount,
      fillNegative_of_fillDigits (fillDigits_eq hbase hmax hk), Option.bind_eq_bind,
      Option.bind_some]
    rw [signedNumeral, if_pos hint, Mem.storeBytes_cons,
      Mem.storeBytes_store (.inl (Nat.lt_succ_self str))]
    rfl
  · have hint : ¬ value.toInt < 0 := mt toInt_neg_iff.mp hneg
    have habs : value.toInt = (value.toInt.natAbs : Int) := by omega
    rw [signedNumeral, if_neg hint]
    generalize hv : value.toInt.natAbs = v at habs
    simp only [hzero, hneg, if_false, decide_false, Bool.false_eq_true, habs,
      fillDigits_counted _ str hbase hmax (by omega : v < 2 ^ 64), Option.bind_eq_bind,
      Option.bind_some]

/-- The least value is its own negation, and its remainders lie in front of the table. -/
theorem itoa_minValue (hbase : 2 ≤ base) (hmax : base ≤ 16) :
    itoa m Int64.minValue str base = none := by
  have hle := numeral_length_le_baseMaxDigit hbase hmax (by decide : 2 ^ 63 < 2 ^ 64)
  have hneg : -Int64.minValue = Int64.minValue := rfl
  have hint : Int64.minValue.toInt = -((2 ^ 63 : Nat) : Int) := rfl
  have hcount : countDown base (baseMaxDigitMap.getD base 0) (-((2 ^ 63 : Nat) : Int)) =
      baseMaxDigitMap.getD base 0 + 1 - (numeral base (2 ^ 63)).length := by
    rw [countDown_eq hbase, Int.natAbs_neg, Int.natAbs_natCast]
  rw [itoa, if_neg (by omega)]
  have hzero : Int64.minValue ≠ 0 := by decide
  have hlt : Int64.minValue < 0 := by decide
  simp only [hzero, hlt, if_false, if_true, decide_true, hneg, hint, hcount]
  rw [fillNegative_of_neg hbase (by decide) (by omega)]
  rfl

end Calls

/-! ## When `itoa` prints its value -/

/-- `itoa` returns without a read outside of its table and leaves a string, a minus sign in
front of the numeral if the value is negative. -/
def ItoaPrints (m : Mem) (value : Int64) (str base : Nat) : Prop :=
  ∃ m' s ds, itoa m value str base = some (str, m') ∧ CString.At s m' str ∧
    IsNumeral base value.toInt.natAbs ds ∧
    s.bytes = if value < 0 then ('-').toUInt8 :: ds else ds

/-- The string is terminated: the digits leave room in the cleared bytes, or the byte behind
them was 0 before the call. -/
def Terminated (m : Mem) (value : Int64) (str base : Nat) : Prop :=
  (numeral base value.toInt.natAbs).length < baseMaxDigitMap.getD base 0 ∨
    m.byte (str + (numeral base value.toInt.natAbs).length + 1) = 0

section Prints

variable {m : Mem} {value : Int64} {str base : Nat}

theorem ItoaPrints.ne_minValue (h : ItoaPrints m value str base) (hbase : 2 ≤ base)
    (hmax : base ≤ 16) : value ≠ Int64.minValue := by
  rintro rfl
  obtain ⟨m', s, ds, hcall, -⟩ := h
  rw [itoa_minValue m str hbase hmax] at hcall
  cases hcall

theorem ItoaPrints.terminated (h : ItoaPrints m value str base) (hbase : 2 ≤ base)
    (hmax : base ≤ 16) (hneg : value < 0) : Terminated m value str base := by
  have hmin := h.ne_minValue hbase hmax
  obtain ⟨m', s, ds, hcall, hat, hnumeral, hbytes⟩ := h
  have hint : value.toInt < 0 := toInt_neg_iff.mpr hneg
  rw [itoa_eq m str hbase hmax hmin] at hcall
  cases hcall
  rw [if_pos hneg, hnumeral.eq_numeral hbase (by omega) (by omega)] at hbytes
  by_contra hnot
  obtain ⟨hfull, hbyte⟩ := not_or.mp hnot
  apply hbyte
  have hnul := hat.nul
  have hlength : s.length = (numeral base value.toInt.natAbs).length + 1 := by
    rw [CString.length, hbytes, List.length_cons]
  rw [hlength, Mem.storeBytes_byte_outside, memset, Mem.fill_byte_outside, ← Nat.add_assoc] at hnul
  · exact hnul
  · omega
  · rw [signedNumeral, if_pos hint, List.length_cons]
    omega

/-- The string `itoa` leaves. -/
def signedString (base : Nat) (v : Int) (hbase : 2 ≤ base) (hmax : base ≤ 16) : CString where
  bytes := signedNumeral base v
  noNul := by
    have hdigits := @zero_notMem_numeral base v.natAbs hbase (by omega)
    rw [signedNumeral]
    split
    case isTrue =>
      rw [List.mem_cons, not_or]
      exact ⟨by decide, hdigits⟩
    case isFalse => exact hdigits

theorem itoaPrints_of_terminated (hbase : 2 ≤ base) (hmax : base ≤ 16)
    (hmin : value ≠ Int64.minValue) (hterm : 0 ≤ value ∨ Terminated m value str base) :
    ItoaPrints m value str base := by
  have hlow := value.le_toInt
  have hhigh := value.toInt_lt
  have hle := numeral_length_le_baseMaxDigit hbase hmax (by omega : value.toInt.natAbs < 2 ^ 64)
  refine ⟨_, signedString base value.toInt hbase hmax, _, itoa_eq m str hbase hmax hmin,
    CString.At.storeBytes ?_, isNumeral_numeral hbase (by omega) _, ?_⟩
  · show (memset m str 0 (baseMaxDigitMap.getD base 0 + 1)).byte
      (str + (signedNumeral base value.toInt).length) = 0
    rw [signedNumeral]
    split
    case isTrue hneg =>
      rw [List.length_cons]
      obtain hnonneg | hroom | hnul := hterm
      · exact absurd (toInt_neg_iff.mp hneg) (Int64.not_lt.mpr hnonneg)
      · exact memset_nul m str (by omega)
      · obtain hlt | heq := Nat.lt_or_eq_of_le hle
        · exact memset_nul m str (by omega)
        · rw [memset, Mem.fill_byte_outside (by omega)]
          exact hnul
    case isFalse => exact memset_nul m str (by omega)
  · show signedNumeral base value.toInt = _
    rw [signedNumeral]
    split
    case isTrue hneg => rw [if_pos (toInt_neg_iff.mp hneg)]
    case isFalse hneg => rw [if_neg (mt toInt_neg_iff.mpr hneg)]

/-- `itoa` prints exactly the values that are not negative, and of the negative ones all but
the least whose digits leave room for the terminator, or that find it in the buffer. -/
theorem itoa_prints_iff (hbase : 2 ≤ base) (hmax : base ≤ 16) : ItoaPrints m value str base ↔
    value ≠ Int64.minValue ∧ (0 ≤ value ∨ Terminated m value str base) := by
  constructor
  · intro h
    refine ⟨h.ne_minValue hbase hmax, ?_⟩
    by_cases hneg : value < 0
    · exact .inr (h.terminated hbase hmax hneg)
    · exact .inl (Int64.not_lt.mp hneg)
  · rintro ⟨hmin, hterm⟩
    exact itoaPrints_of_terminated hbase hmax hmin hterm

/-- -10 in base 10, in a buffer that held other characters. -/
theorem itoaPrints_small : ItoaPrints ⟨fun _ => 0x31⟩ (-10) 0x1000 10 :=
  (itoa_prints_iff (by decide) (by decide)).mpr ⟨by decide, .inr (.inl (by decide +kernel))⟩

/-- -2 ^ 60 has 16 digits in base 16, as many as the table allows, so that a character of
the earlier content follows them. -/
theorem not_itoaPrints_hex : ¬ ItoaPrints ⟨fun _ => 0x31⟩ (-0x1000000000000000) 0x1000 16 := by
  intro h
  obtain hroom | hnul := h.terminated (by decide) (by decide) (by decide)
  · exact absurd hroom (by decide +kernel)
  · cases hnul

end Prints

end FroggyOs
