import FroggyOs.Strings.Format

/-!
# `_vprintf` and `sprintf` (`klibc/string/printf.c`)

One cursor goes through the format, and both loops move it: the outer one from item to
item, the inner one over the flags of a number. A format is the list of the characters
that the cursor has in front of it; at its end the cursor stands on the terminator.

The digits are made in a local array of 100 bytes. `none` stands for what C leaves
undefined: an argument that is missing or of another type, a read outside of the digit
table of `itoa`, and digits without a terminator in the array. It also stands for a loop
that has used up its fuel, which one round for each character is enough for.
-/

namespace FroggyOs

open ByteMemory Numeral

/-- The locals of the inner loop. -/
structure Specifier where
  base : Nat := 10
  sign : Bool := true
  length : Nat := 32
  isPtr : Bool := false
deriving DecidableEq

/-- The inner loop; `p` ends it, and so does the first character that is no flag. -/
def scanFlags (spec : Specifier) : List UInt8 → Specifier × List UInt8
  | [] => (spec, [])
  | c :: fmt =>
      if c = ('i').toUInt8 then scanFlags { spec with length := 32 } fmt
      else if c = ('p').toUInt8 then
        ({ spec with base := 16, isPtr := true, sign := false, length := 64 }, fmt)
      else if c = ('u').toUInt8 then scanFlags { spec with sign := false } fmt
      else if c = ('h').toUInt8 then scanFlags { spec with base := 16 } fmt
      else if c = ('l').toUInt8 then scanFlags { spec with length := 64 } fmt
      else (spec, c :: fmt)

/-- `res`, cleared twice. -/
def clearedRes : Mem := memset ⟨fun _ => 0⟩ 0 0 100

/-- The argument is taken and its digits are written to `res`. -/
def convert (spec : Specifier) (args : List Arg) : Option (Mem × List Arg) :=
  if spec.isPtr then
    match args with
    | .uint64 val :: args => (utoa clearedRes val 0 16).map fun r => (r.2, args)
    | _ => none
  else if spec.sign = false ∧ spec.length = 32 then
    match args with
    | .uint32 val :: args => (utoa clearedRes val.toUInt64 0 spec.base).map fun r => (r.2, args)
    | _ => none
  else if spec.sign = true ∧ spec.length = 32 then
    match args with
    | .int32 val :: args => (itoa clearedRes val.toInt64 0 spec.base).map fun r => (r.2, args)
    | _ => none
  else if spec.sign = false ∧ spec.length = 64 then
    match args with
    | .uint64 val :: args => (utoa clearedRes val 0 spec.base).map fun r => (r.2, args)
    | _ => none
  else if spec.sign = true ∧ spec.length = 64 then
    match args with
    | .int64 val :: args => (itoa clearedRes val 0 spec.base).map fun r => (r.2, args)
    | _ => none
  else some (clearedRes, args)

/-- The loop over the bytes of a `%s` argument. -/
def putBytes (m : Mem) (buffer : Nat) : List UInt8 → Nat × Mem
  | [] => (buffer, m)
  | c :: cs => putBytes (m.store buffer 1 c.toNat) (buffer + 1) cs

/-- The loop over the digits, up to a byte 0 in the array. -/
def putDigits (res : Mem) : Nat → Nat → Nat → Mem → Option (Nat × Mem)
  | 0, _, _, _ => none
  | room + 1, resPtr, buffer, m =>
      if res.byte resPtr = 0 then some (buffer, m)
      else putDigits res room (resPtr + 1) (buffer + 1) (m.store buffer 1 (res.byte resPtr).toNat)

structure PrintState where
  fmt : List UInt8
  buffer : Nat
  args : List Arg
  mem : Mem

/-- The flags and the number, from the first flag on. -/
def printNumber (fmt : List UInt8) (buffer : Nat) (args : List Arg) (m : Mem) :
    Option PrintState := do
  let (spec, fmt) := scanFlags {} fmt
  let (res, args) ← convert spec args
  let (buffer, m) :=
    if spec.base = 16 then
      (buffer + 2, (m.store buffer 1 ('0').toNat).store (buffer + 1) 1 ('x').toNat)
    else (buffer, m)
  let (buffer, m) ← putDigits res 100 0 buffer m
  some ⟨fmt, buffer, args, m⟩

/-- Behind an `s`. -/
def printString (fmt : List UInt8) (buffer : Nat) (args : List Arg) (m : Mem) :
    Option PrintState :=
  match args with
  | .str s :: args =>
      let (buffer, m) := putBytes m buffer s.bytes
      some ⟨fmt, buffer, args, m⟩
  | _ => none

/-- Behind a `%`. -/
def printItem (fmt : List UInt8) (buffer : Nat) (args : List Arg) (m : Mem) : Option PrintState :=
  match fmt with
  -- `default`, on the terminator
  | [] => some ⟨[], buffer, args, m⟩
  | c :: rest =>
      if c = (' ').toUInt8 ∨ c = ('%').toUInt8 then
        some ⟨rest, buffer + 1, args, m.store buffer 1 ('%').toNat⟩
      else if c = ('s').toUInt8 then printString rest buffer args m
      else if c ∈ flags then printNumber (c :: rest) buffer args m
      -- `default`: the next round finds the character as it is
      else some ⟨c :: rest, buffer, args, m⟩

/-- One round of the outer loop. -/
def printRound : PrintState → Option PrintState
  | ⟨[], buffer, args, m⟩ => some ⟨[], buffer, args, m⟩
  | ⟨c :: fmt, buffer, args, m⟩ =>
      if c = ('%').toUInt8 then printItem fmt buffer args m
      else some ⟨fmt, buffer + 1, args, m.store buffer 1 c.toNat⟩

def printLoop : Nat → PrintState → Option PrintState
  | 0, _ => none
  | fuel + 1, s => if s.fmt = [] then some s else printRound s >>= printLoop fuel

/-- `_vprintf`: the memory that it leaves. -/
def vprintf (m : Mem) (fmt : CString) (buffer : Nat) (args : List Arg) : Option Mem :=
  (printLoop (fmt.length + 1) ⟨fmt.bytes, buffer, args, m⟩).map PrintState.mem

def sprintf (m : Mem) (fmt : CString) (buffer : Nat) (args : List Arg) : Option Mem :=
  vprintf m fmt buffer args

/-! ## One item -/

section Items

variable {base room resPtr buffer : Nat} {m res : Mem} {fmt fs rest : List UInt8} {args : List Arg}
  {spec : Specifier}

theorem putBytes_eq (m : Mem) (buffer : Nat) (bs : List UInt8) :
    putBytes m buffer bs = (buffer + bs.length, m.storeBytes buffer bs) := by
  induction bs generalizing m buffer with
  | nil => rw [putBytes, Mem.storeBytes_nil, List.length_nil, Nat.add_zero]
  | cons c cs ih =>
      rw [putBytes, ih, Mem.storeBytes_cons, List.length_cons, Nat.add_assoc, Nat.add_comm 1]

/-- The digits are copied up to the terminator, if it lies in the array. -/
theorem putDigits_eq {bs : List UInt8} (hnoNul : 0 ∉ bs)
    (hbytes : ∀ i (hi : i < bs.length), res.byte (resPtr + i) = bs[i])
    (hnul : res.byte (resPtr + bs.length) = 0) (hroom : bs.length < room) :
    putDigits res room resPtr buffer m =
      some (buffer + bs.length, m.storeBytes buffer bs) := by
  induction bs generalizing room resPtr buffer m with
  | nil =>
      obtain ⟨room, rfl⟩ := Nat.exists_eq_add_of_lt hroom
      have hend : res.byte resPtr = 0 := hnul
      rw [putDigits, if_pos hend, Mem.storeBytes_nil]
      rfl
  | cons c cs ih =>
      obtain ⟨room, rfl⟩ := Nat.exists_eq_succ_of_ne_zero (Nat.ne_of_gt (Nat.zero_lt_of_lt hroom))
      have hc : res.byte resPtr = c := hbytes 0 (Nat.succ_pos _)
      obtain ⟨hne, hcs⟩ := not_or.mp (mt List.mem_cons.mpr hnoNul)
      rw [putDigits, hc, if_neg (Ne.symm hne), ih hcs, Mem.storeBytes_cons, List.length_cons,
        Nat.add_assoc, Nat.add_comm 1]
      · intro i hi
        rw [Nat.add_assoc, Nat.add_comm 1]
        exact hbytes (i + 1) (Nat.succ_lt_succ hi)
      · rw [Nat.add_assoc, Nat.add_comm 1]
        exact hnul
      · exact Nat.lt_of_succ_lt_succ hroom

theorem fill_zero_byte (hzero : ∀ x, m.byte x = 0) (n x : Nat) : (memset m 0 0 n).byte x = 0 := by
  by_cases hx : x < n
  · exact Mem.fill_byte_inside (Nat.zero_le x) (by omega)
  · rw [memset, Mem.fill_byte_outside (by omega)]
    exact hzero x

theorem clearedRes_byte (n x : Nat) : (memset clearedRes 0 0 n).byte x = 0 :=
  fill_zero_byte (fill_zero_byte (fun _ => rfl) 100) n x

/-- `utoa` in the array. -/
theorem utoa_clearedRes (hbase : 2 ≤ base) (hmax : base ≤ 16) (val : UInt64) :
    ∃ res, utoa clearedRes val 0 base = some (0, res) ∧
      (signedString base val.toNat hbase hmax).At res 0 := by
  have hstring : signedNumeral base val.toNat = numeral base val.toNat := if_neg (by omega)
  refine ⟨_, utoa_eq clearedRes 0 hbase hmax val, ?_⟩
  rw [← hstring]
  exact CString.At.storeBytes (clearedRes_byte _ _)

/-- `itoa` in the array, which is cleared as far as its longest digits reach. -/
theorem itoa_clearedRes (hbase : 2 ≤ base) (hmax : base ≤ 16) {val : Int64}
    (hmin : val ≠ Int64.minValue) :
    ∃ res, itoa clearedRes val 0 base = some (0, res) ∧
      (signedString base val.toInt hbase hmax).At res 0 :=
  ⟨_, itoa_eq clearedRes 0 hbase hmax hmin, CString.At.storeBytes (clearedRes_byte _ _)⟩

/-! ### The flags -/

/-- The locals after flags without `p`. -/
def Specifier.after (spec : Specifier) (fs : List UInt8) : Specifier where
  base := if ('h').toUInt8 ∈ fs then 16 else spec.base
  sign := if ('u').toUInt8 ∈ fs then false else spec.sign
  length :=
    if isLong fs then 64 else if ('i').toUInt8 ∈ fs then 32 else spec.length
  isPtr := spec.isPtr

theorem mem_numberFlags {c : UInt8} : c ∈ numberFlags ↔ c = ('i').toUInt8 ∨ c = ('u').toUInt8 ∨
    c = ('h').toUInt8 ∨ c = ('l').toUInt8 := by
  simp only [numberFlags, List.mem_cons, List.not_mem_nil, or_false]

theorem isLong_cons {c : UInt8} :
    isLong (c :: fs) ↔ isLong fs ∨ c = ('l').toUInt8 ∧ ('i').toUInt8 ∉ fs := by
  simp only [isLong, List.filter_cons]
  generalize hlast : (fs.filter (· ∈ [('i').toUInt8, ('l').toUInt8])).getLast? = last
  have hempty : last = none → ('i').toUInt8 ∉ fs := by
    rintro rfl hi
    have hnil := List.getLast?_eq_none_iff.mp hlast
    exact absurd (List.filter_eq_nil_iff.mp hnil _ hi) (by decide)
  have hfull : ∀ d, last = some d → d = ('i').toUInt8 ∧ ('i').toUInt8 ∈ fs ∨ d = ('l').toUInt8 := by
    rintro d rfl
    obtain ⟨hd, hlength⟩ := List.mem_filter.mp (List.mem_of_getLast? hlast)
    obtain rfl | hd' := List.mem_pair.mp (of_decide_eq_true hlength)
    · exact .inl ⟨rfl, hd⟩
    · exact .inr hd'
  split
  case isTrue hc =>
    rw [List.getLast?_cons, hlast]
    cases last with
    | none => simp [hempty rfl]
    | some d =>
        obtain ⟨rfl, hi⟩ | rfl := hfull d rfl
        · simp [hi]
        · simp
  case isFalse hc =>
    rw [hlast]
    have hne : c ≠ ('l').toUInt8 := by
      rintro rfl
      exact hc (by decide)
    simp [hne]

/-- Flags without `p` are all scanned, and the last one for the length counts. -/
theorem scanFlags_number (hfs : ∀ c ∈ fs, c ∈ numberFlags) (hend : ∀ c ∈ fmt.head?, c ∉ flags) :
    scanFlags spec (fs ++ fmt) = (spec.after fs, fmt) := by
  induction fs generalizing spec with
  | nil =>
      rw [List.nil_append]
      cases fmt with
      | nil => rfl
      | cons c fmt =>
          have hc := hend c rfl
          simp only [flags, numberFlags, List.mem_cons, not_or] at hc
          obtain ⟨hp, hi, hu, hh, hl, -⟩ := hc
          rw [scanFlags, if_neg hi, if_neg hp, if_neg hu, if_neg hh, if_neg hl]
          rfl
  | cons c fs ih =>
      obtain ⟨hc, hrest⟩ := List.forall_mem_cons.mp hfs
      obtain rfl | rfl | rfl | rfl := mem_numberFlags.mp hc
      · refine (ih hrest).trans ?_
        simp +decide [Specifier.after, isLong_cons]
      · refine (ih hrest).trans ?_
        simp +decide [Specifier.after, isLong_cons]
      · refine (ih hrest).trans ?_
        simp +decide [Specifier.after, isLong_cons]
      · refine (ih hrest).trans ?_
        -- an `i` behind the `l` is the last one
        by_cases hi : ('i').toUInt8 ∈ fs
        · simp +decide [Specifier.after, isLong_cons, hi]
        · simp +decide [Specifier.after, isLong_cons, hi]

/-- `p` overrides the other flags and ends them. -/
theorem scanFlags_pointer (hfs : ∀ c ∈ fs, c ∈ numberFlags) :
    scanFlags spec (fs ++ ('p').toUInt8 :: fmt) = (⟨16, false, 64, true⟩, fmt) := by
  induction fs generalizing spec with
  | nil => rfl
  | cons c fs ih =>
      obtain ⟨hc, hrest⟩ := List.forall_mem_cons.mp hfs
      obtain rfl | rfl | rfl | rfl := mem_numberFlags.mp hc
      · exact ih hrest
      · exact ih hrest
      · exact ih hrest
      · exact ih hrest

/-! ### Numbers -/

/-- The argument that `itoa` cannot print. -/
def Arg.least : Arg := .int64 Int64.minValue

/-- The digits of an argument in the array. -/
def Arg.digits (base : Nat) : Arg → Option (Nat × Mem)
  | str _ => none
  | int32 val => itoa clearedRes val.toInt64 0 base
  | uint32 val => utoa clearedRes val.toUInt64 0 base
  | int64 val => itoa clearedRes val 0 base
  | uint64 val => utoa clearedRes val 0 base

/-- The flags lead to the branch of the argument that they announce. -/
theorem convert_after {arg : Arg} (hk : arg.kind = numberKind fs) (args : List Arg) :
    convert (Specifier.after {} fs) (arg :: args) =
      (arg.digits (numberBase fs)).map fun r => (r.2, args) := by
  have hbase : (Specifier.after {} fs).base = numberBase fs := rfl
  by_cases hu : ('u').toUInt8 ∈ fs
  · by_cases hl : isLong fs
    · rw [numberKind, if_pos hu, if_pos hl] at hk
      cases arg <;> cases hk
      simp [convert, Specifier.after, hu, hl, Arg.digits, numberBase]
    · rw [numberKind, if_pos hu, if_neg hl] at hk
      cases arg <;> cases hk
      simp [convert, Specifier.after, hu, hl, Arg.digits, numberBase]
  · by_cases hl : isLong fs
    · rw [numberKind, if_neg hu, if_pos hl] at hk
      cases arg <;> cases hk
      simp [convert, Specifier.after, hu, hl, Arg.digits, numberBase]
    · rw [numberKind, if_neg hu, if_neg hl] at hk
      cases arg <;> cases hk
      simp [convert, Specifier.after, hu, hl, Arg.digits, numberBase]

theorem toInt64_ne_minValue (val : Int32) : val.toInt64 ≠ Int64.minValue := by
  intro hmin
  have hint := congrArg Int64.toInt hmin
  have hlow := val.le_toInt
  rw [Int32.toInt_toInt64] at hint
  have hvalue : Int64.minValue.toInt = -2 ^ 63 := rfl
  omega

/-- The array ends up with the digits of any number but the least. -/
theorem Arg.digits_eq {arg : Arg} (hstr : arg.kind ≠ .str) (hleast : arg ≠ Arg.least)
    (hbase : 2 ≤ base) (hmax : base ≤ 16) : ∃ res, arg.digits base = some (0, res) ∧
      (signedString base arg.value hbase hmax).At res 0 := by
  cases arg with
  | str s => exact absurd rfl hstr
  | int32 val =>
      obtain ⟨res, hcall, hat⟩ := itoa_clearedRes hbase hmax (toInt64_ne_minValue val)
      simp only [Int32.toInt_toInt64] at hat
      exact ⟨res, hcall, hat⟩
  | uint32 val =>
      obtain ⟨res, hcall, hat⟩ := utoa_clearedRes hbase hmax val.toUInt64
      simp only [UInt32.toNat_toUInt64] at hat
      exact ⟨res, hcall, hat⟩
  | int64 val => exact itoa_clearedRes hbase hmax fun hval => hleast (congrArg Arg.int64 hval)
  | uint64 val => exact utoa_clearedRes hbase hmax val

/-- 64 digits and the sign. -/
theorem Arg.length_signedNumeral (arg : Arg) (hbase : 2 ≤ base) :
    (signedNumeral base arg.value).length < 100 := by
  have hvalue : arg.value.natAbs < 2 ^ 64 := by
    cases arg with
    | str s => exact Nat.two_pow_pos 64
    | int32 val =>
        have hlow := val.le_toInt
        have hhigh := val.toInt_lt
        simp only [Arg.value]
        omega
    | uint32 val =>
        have hlt := val.toNat_lt
        simp only [Arg.value]
        omega
    | int64 val =>
        have hlow := val.le_toInt
        have hhigh := val.toInt_lt
        simp only [Arg.value]
        omega
    | uint64 val =>
        have hlt := val.toNat_lt
        simp only [Arg.value]
        omega
  have hpow : 2 ^ 64 ≤ base ^ 64 := Nat.pow_le_pow_left hbase 64
  have hle := numeral_length_le hbase (by decide : 0 < 64) (Nat.lt_of_lt_of_le hvalue hpow)
  rw [signedNumeral]
  split
  · rw [List.length_cons]
    omega
  · omega

/-- A number that is scanned and converted is printed. -/
theorem printNumber_eq {arg : Arg} {res : Mem} (hscan : scanFlags {} fmt = (spec, rest))
    (hconvert : convert spec (arg :: args) = some (res, args)) (hbase : 2 ≤ spec.base)
    (hmax : spec.base ≤ 16) (hat : (signedString spec.base arg.value hbase hmax).At res 0) :
    printNumber fmt buffer (arg :: args) m =
      some ⟨rest, buffer + (numberText spec.base arg.value).length, args,
        m.storeBytes buffer (numberText spec.base arg.value)⟩ := by
  have hdigits : ∀ buffer m, putDigits res 100 0 buffer m =
      some (buffer + (signedNumeral spec.base arg.value).length,
        m.storeBytes buffer (signedNumeral spec.base arg.value)) := by
    intro buffer m
    exact putDigits_eq (signedString spec.base arg.value hbase hmax).noNul (fun i hi => hat.byte hi)
      hat.nul (arg.length_signedNumeral hbase)
  rw [printNumber, hscan]
  simp only [hconvert, Option.bind_eq_bind, Option.bind_some, hdigits, numberText]
  split
  case isTrue =>
    rw [List.cons_append, List.cons_append, List.nil_append, Mem.storeBytes_cons,
      Mem.storeBytes_cons, List.length_cons, List.length_cons, Nat.add_assoc, Nat.add_assoc,
      Nat.add_comm 2]
    rfl
  case isFalse => rw [List.nil_append]

/-- A number of the format, if it is not the least one. -/
theorem printNumber_number {arg : Arg} (hfs : ∀ c ∈ fs, c ∈ numberFlags)
    (hend : ∀ c ∈ rest.head?, c ∉ flags) (hk : arg.kind = numberKind fs) :
    printNumber (fs ++ rest) buffer (arg :: args) m =
      if arg = Arg.least then none
      else some ⟨rest, buffer + (numberText (numberBase fs) arg.value).length, args,
        m.storeBytes buffer (numberText (numberBase fs) arg.value)⟩ := by
  obtain ⟨hbase, hmax⟩ := numberBase_bounds fs
  have hscan := @scanFlags_number rest fs {} hfs hend
  have hconvert := convert_after hk args
  split
  case isTrue hleast =>
    subst hleast
    have hdigits : Arg.least.digits (numberBase fs) = none := itoa_minValue _ _ hbase hmax
    rw [hdigits] at hconvert
    rw [printNumber, hscan]
    simp only [hconvert, Option.bind_eq_bind, Option.map_none, Option.bind_none]
  case isFalse hleast =>
    have hstr : arg.kind ≠ .str := by
      rw [hk, numberKind]
      split
      · split
        · decide
        · decide
      · split
        · decide
        · decide
    obtain ⟨res, hdigits, hat⟩ := arg.digits_eq hstr hleast hbase hmax
    rw [hdigits] at hconvert
    exact printNumber_eq hscan hconvert hbase hmax hat

/-- A pointer of the format. -/
theorem printNumber_pointer {arg : Arg} (hfs : ∀ c ∈ fs, c ∈ numberFlags)
    (hk : arg.kind = .uint64) :
    printNumber (fs ++ ('p').toUInt8 :: rest) buffer (arg :: args) m =
      some ⟨rest, buffer + (numberText 16 arg.value).length, args,
        m.storeBytes buffer (numberText 16 arg.value)⟩ := by
  cases arg with
  | uint64 val =>
      obtain ⟨res, hcall, hat⟩ := @utoa_clearedRes 16 (by decide) (by decide) val
      have hconvert : convert ⟨16, false, 64, true⟩ (.uint64 val :: args) = some (res, args) := by
        rw [convert, if_pos rfl]
        simp only [hcall, Option.map_some]
      exact printNumber_eq (scanFlags_pointer hfs) hconvert _ _ hat
  | str s => cases hk
  | int32 val => cases hk
  | uint32 val => cases hk
  | int64 val => cases hk

end Items

/-! ## The loop -/

/-- What printing the items comes to. -/
def outcome (items : List Item) (buffer : Nat) (args : List Arg) (m : Mem) : Option PrintState :=
  if Arg.least ∈ consumed items args then none
  else some ⟨[], buffer + (text items args).length, remaining items args,
    m.storeBytes buffer (text items args)⟩

section Loop

variable {fuel buffer : Nat} {m : Mem} {fmt : List UInt8} {args : List Arg} {arg : Arg}
  {item : Item} {items : List Item} {k : Kind}

theorem printLoop_succ {s s' : PrintState} (hne : s.fmt ≠ []) (hround : printRound s = some s') :
    printLoop (fuel + 1) s = printLoop fuel s' := by
  rw [printLoop, if_neg hne, hround]
  rfl

theorem printLoop_item {s : PrintState} (hitem : printItem fmt buffer args m = some s) :
    printLoop (fuel + 1) ⟨('%').toUInt8 :: fmt, buffer, args, m⟩ = printLoop fuel s := by
  apply printLoop_succ (List.cons_ne_nil _ _)
  rw [printRound, if_pos rfl]
  exact hitem

theorem printLoop_item_none (hitem : printItem fmt buffer args m = none) :
    printLoop (fuel + 1) ⟨('%').toUInt8 :: fmt, buffer, args, m⟩ = none := by
  rw [printLoop, if_neg (List.cons_ne_nil _ _), printRound, if_pos rfl, hitem]
  rfl

theorem printItem_flags {fs : List UInt8} (hne : fs ≠ []) (hfs : ∀ c ∈ fs, c ∈ flags) :
    printItem (fs ++ fmt) buffer args m = printNumber (fs ++ fmt) buffer args m := by
  obtain ⟨c, fs, rfl⟩ := List.exists_cons_of_ne_nil hne
  have hc := hfs c List.mem_cons_self
  have hother : ∀ d, d ∉ flags → c ≠ d := fun d hd hcd => hd (hcd ▸ hc)
  have hpercent : ¬ (c = (' ').toUInt8 ∨ c = ('%').toUInt8) :=
    not_or.mpr ⟨hother _ (by decide), hother _ (by decide)⟩
  rw [List.cons_append, printItem, if_neg hpercent, if_neg (hother _ (by decide)), if_pos hc]

theorem outcome_nil : outcome [] buffer args m = some ⟨[], buffer, args, m⟩ := by
  rw [outcome, text, Mem.storeBytes_nil]
  exact if_neg List.not_mem_nil

theorem outcome_char (c : UInt8) : outcome (.char c :: items) buffer args m =
    outcome items (buffer + 1) args (m.store buffer 1 c.toNat) := by
  have htext : text (.char c :: items) args = c :: text items args := by rw [text]
  have hconsumed : consumed (.char c :: items) args = consumed items args := rfl
  have hremaining : remaining (.char c :: items) args = remaining items args := rfl
  rw [outcome, outcome, hconsumed, hremaining, htext, List.length_cons, Mem.storeBytes_cons,
    Nat.add_assoc, Nat.add_comm 1]

/-- An item with a type prints its bytes and hands on the other arguments. -/
theorem outcome_cons {bs : List UInt8} (hk : item.kind? = some k) (hleast : arg ≠ Arg.least)
    (htext : text (item :: items) (arg :: args) = bs ++ text items args) :
    outcome (item :: items) buffer (arg :: args) m =
      outcome items (buffer + bs.length) args (m.storeBytes buffer bs) := by
  rw [outcome, outcome, consumed_cons hk, remaining_cons hk, htext, List.length_append,
    Nat.add_assoc, Mem.storeBytes_append]
  simp only [List.mem_cons, Ne.symm hleast, false_or]

/-- The items of a format are printed, whatever its flags; there is no result if the least
64-bit number is to be printed with its sign. -/
theorem printLoop_eq (h : Parses fmt items) (hargs : Matches items args)
    (hfuel : fmt.length < fuel) :
    printLoop fuel ⟨fmt, buffer, args, m⟩ = outcome items buffer args m := by
  induction h generalizing fuel buffer args m with
  | done =>
      obtain ⟨fuel, rfl⟩ := Nat.exists_eq_add_of_lt hfuel
      rw [outcome_nil]
      exact if_pos rfl
  | lone =>
      have hitem : printItem [] buffer args m = some ⟨[], buffer, args, m⟩ := rfl
      obtain ⟨fuel, rfl⟩ := Nat.exists_eq_add_of_lt hfuel
      rw [outcome_nil, List.length_singleton, Nat.add_comm 1, printLoop_item hitem]
      exact if_pos rfl
  | @char c fmt items hc _ ih =>
      obtain ⟨fuel, rfl⟩ := Nat.exists_eq_succ_of_ne_zero (Nat.ne_of_gt (Nat.zero_lt_of_lt hfuel))
      have hround : printRound ⟨c :: fmt, buffer, args, m⟩ =
          some ⟨fmt, buffer + 1, args, m.store buffer 1 c.toNat⟩ := by
        rw [printRound, if_neg hc]
      rw [printLoop_succ (List.cons_ne_nil _ _) hround, outcome_char,
        ih hargs (Nat.lt_of_succ_lt_succ hfuel)]
  | @percent c fmt items hc _ ih =>
      obtain ⟨fuel, rfl⟩ := Nat.exists_eq_succ_of_ne_zero (Nat.ne_of_gt (Nat.zero_lt_of_lt hfuel))
      have hitem : printItem (c :: fmt) buffer args m =
          some ⟨fmt, buffer + 1, args, m.store buffer 1 ('%').toNat⟩ := by
        rw [printItem, if_pos hc.symm]
      rw [printLoop_item hitem, outcome_char]
      exact ih hargs (by simp only [List.length_cons] at hfuel; omega)
  | @string fmt items _ ih =>
      obtain ⟨arg, args, rfl, hk, hrest⟩ := (matches_cons rfl).mp hargs
      obtain ⟨fuel, rfl⟩ := Nat.exists_eq_succ_of_ne_zero (Nat.ne_of_gt (Nat.zero_lt_of_lt hfuel))
      cases arg with
      | str s =>
          have hitem : printItem (('s').toUInt8 :: fmt) buffer (.str s :: args) m =
              some ⟨fmt, buffer + s.bytes.length, args, m.storeBytes buffer s.bytes⟩ := by
            rw [printItem, if_neg (by decide), if_pos rfl, printString, putBytes_eq]
          rw [printLoop_item hitem, outcome_cons rfl (by rintro ⟨⟩) rfl]
          exact ih hrest (by simp only [List.length_cons] at hfuel; omega)
      | int32 val => cases hk
      | uint32 val => cases hk
      | int64 val => cases hk
      | uint64 val => cases hk
  | @pointer fs fmt items hfs _ ih =>
      obtain ⟨arg, args, rfl, hk, hrest⟩ := (matches_cons rfl).mp hargs
      obtain ⟨fuel, rfl⟩ := Nat.exists_eq_succ_of_ne_zero (Nat.ne_of_gt (Nat.zero_lt_of_lt hfuel))
      have hflags : ∀ c ∈ fs ++ [('p').toUInt8], c ∈ flags := by
        intro c hc
        obtain hc | hc := List.mem_append.mp hc
        · exact mem_flags_iff.mpr (.inr (hfs c hc))
        · exact mem_flags_iff.mpr (.inl (List.mem_singleton.mp hc))
      have hitem := @printItem_flags buffer m fmt (arg :: args) _ (by simp) hflags
      rw [List.append_assoc, List.singleton_append, printNumber_pointer hfs hk] at hitem
      have hleast : arg ≠ Arg.least := by
        rintro rfl
        cases hk
      rw [printLoop_item hitem, outcome_cons rfl hleast (by rw [text])]
      exact ih hrest (by simp only [List.length_cons, List.length_append] at hfuel; omega)
  | @number fs fmt items hne hfs hend _ ih =>
      obtain ⟨arg, args, rfl, hk, hrest⟩ := (matches_cons rfl).mp hargs
      obtain ⟨fuel, rfl⟩ := Nat.exists_eq_succ_of_ne_zero (Nat.ne_of_gt (Nat.zero_lt_of_lt hfuel))
      have hflags : ∀ c ∈ fs, c ∈ flags := fun c hc => mem_flags_iff.mpr (.inr (hfs c hc))
      have hitem := @printItem_flags buffer m fmt (arg :: args) _ hne hflags
      rw [printNumber_number hfs hend hk] at hitem
      by_cases hleast : arg = Arg.least
      · rw [if_pos hleast] at hitem
        have hmem : Arg.least ∈ consumed (.number fs :: items) (arg :: args) := by
          rw [consumed_cons rfl, hleast]
          exact List.mem_cons_self
        rw [printLoop_item_none hitem, outcome, if_pos hmem]
      · rw [if_neg hleast] at hitem
        rw [printLoop_item hitem, outcome_cons rfl hleast (by rw [text])]
        exact ih hrest (by simp only [List.length_cons, List.length_append] at hfuel; omega)
  | @skip c fmt items hpercent hspace hstring hflag _ ih =>
      obtain ⟨fuel, rfl⟩ := Nat.exists_eq_succ_of_ne_zero (Nat.ne_of_gt (Nat.zero_lt_of_lt hfuel))
      have hitem : printItem (c :: fmt) buffer args m = some ⟨c :: fmt, buffer, args, m⟩ := by
        rw [printItem, if_neg (not_or.mpr ⟨hspace, hpercent⟩), if_neg hstring, if_neg hflag]
      rw [printLoop_item hitem]
      exact ih hargs (Nat.lt_of_succ_lt_succ hfuel)

/-- `_vprintf` prints the items of its format, and goes back on nothing it has printed. -/
theorem vprintf_eq {fmt : CString} (h : Parses fmt.bytes items) (hargs : Matches items args) :
    vprintf m fmt buffer args =
      if Arg.least ∈ consumed items args then none
      else some (m.storeBytes buffer (text items args)) := by
  have hfuel : fmt.bytes.length < fmt.length + 1 := Nat.lt_succ_self _
  rw [vprintf, printLoop_eq h hargs hfuel, outcome]
  split
  case isTrue => rfl
  case isFalse => rfl

end Loop

/-! ## Two formats -/

/-- Formatting is compositional. Each of the formats `a` and `b` has items, which take its
arguments and print its bytes; `a` followed by `b` prints the bytes of `a` and then the
bytes of `b` with the arguments that `a` leaves. -/
theorem vprintf_append {a b : CString} (hjoins : Joins a.bytes b.bytes) :
    (∃ items, Parses a.bytes items) ∧ (∃ items', Parses b.bytes items') ∧
      ∀ items items', Parses a.bytes items → Parses b.bytes items' →
        ∀ args, Matches (items ++ items') args → Arg.least ∉ consumed (items ++ items') args →
          ∀ m buffer,
            vprintf m (a.append b) buffer args = some (m.storeBytes buffer
              (text items args ++ text items' (remaining items args))) ∧
            vprintf m a buffer args = some (m.storeBytes buffer (text items args)) ∧
            vprintf m b buffer (remaining items args) =
              some (m.storeBytes buffer (text items' (remaining items args))) := by
  refine ⟨exists_parses _, exists_parses _, fun items items' ha hb args hargs hleast m buffer => ?_⟩
  have hparses : Parses (a.append b).bytes (items ++ items') := ha.append hb hjoins
  obtain ⟨hfirst, hsecond⟩ := hargs.of_append
  rw [vprintf_eq hparses hargs, if_neg hleast, text_append hfirst]
  rw [consumed_append, List.mem_append, not_or] at hleast
  rw [vprintf_eq ha hfirst, if_neg hleast.1, vprintf_eq hb hsecond, if_neg hleast.2]
  exact ⟨rfl, rfl, rfl⟩

/-- `"%l"` -/
theorem parses_long : Parses [0x25, 0x6c] [.number [0x6c]] :=
  @Parses.number [0x6c] [] [] (by decide) (List.forall_mem_singleton.mpr (by decide))
    (by simp) .done

/-- `"=%l"` and `" %s"`. -/
theorem vprintf_append_pair :
    vprintf ⟨fun _ => 0⟩ ⟨[0x3d, 0x25, 0x6c, 0x20, 0x25, 0x73], by decide⟩ 0x1000
        [.int64 (-7), .str ⟨[0x78], by decide⟩] =
      some (Mem.storeBytes ⟨fun _ => 0⟩ 0x1000
        (text [.char 0x3d, .number [0x6c]] [.int64 (-7), .str ⟨[0x78], by decide⟩] ++
          text [.char 0x20, .string] [.str ⟨[0x78], by decide⟩])) := by
  have ha : Parses [0x3d, 0x25, 0x6c] [.char 0x3d, .number [0x6c]] :=
    .char (by decide) parses_long
  have hb : Parses [0x20, 0x25, 0x73] [.char 0x20, .string] := .char (by decide) (.string .done)
  have hjoins : Joins [0x3d, 0x25, 0x6c] [0x20, 0x25, 0x73] := by
    refine ⟨by decide, fun _ c hc => ?_⟩
    cases hc
    decide
  have happend := @vprintf_append ⟨[0x3d, 0x25, 0x6c], by decide⟩ ⟨[0x20, 0x25, 0x73], by decide⟩
    hjoins
  exact (happend.2.2 _ _ ha hb [.int64 (-7), .str ⟨[0x78], by decide⟩]
    (List.prefix_refl [Kind.int64, Kind.str]) (by decide) ⟨fun _ => 0⟩ 0x1000).1

/-! ## The terminator -/

/-- The call returns, and the buffer read as a string is the bytes. -/
def MakesString (call : Option Mem) (buffer : Nat) (bs : List UInt8) : Prop :=
  ∃ m' s, call = some m' ∧ CString.At s m' buffer ∧ s.bytes = bs

section Terminator

variable {m : Mem} {fmt : CString} {buffer : Nat} {args : List Arg} {items : List Item}

/-- Nothing is written behind the text. -/
theorem MakesString.behind
    (hmakes : MakesString (sprintf m fmt buffer args) buffer (text items args))
    (h : Parses fmt.bytes items) (hargs : Matches items args) :
    Arg.least ∉ consumed items args ∧ m.byte (buffer + (text items args).length) = 0 := by
  obtain ⟨m', s, hcall, hat, hbytes⟩ := hmakes
  rw [sprintf, vprintf_eq h hargs] at hcall
  split at hcall
  case isTrue => cases hcall
  case isFalse hleast =>
    cases hcall
    have hnul := hat.nul
    rw [CString.length, hbytes, Mem.storeBytes_byte_outside (.inr (Nat.le_refl _))] at hnul
    exact ⟨hleast, hnul⟩

/-- `sprintf` writes no terminator: the buffer holds the text as a string if a byte 0 was
behind it before, and if no least number was to be printed. -/
theorem sprintf_makesString_iff (h : Parses fmt.bytes items) (hargs : Matches items args) :
    MakesString (sprintf m fmt buffer args) buffer (text items args) ↔
      Arg.least ∉ consumed items args ∧ m.byte (buffer + (text items args).length) = 0 := by
  constructor
  · intro hmakes
    exact hmakes.behind h hargs
  · rintro ⟨hleast, hnul⟩
    rw [sprintf, vprintf_eq h hargs, if_neg hleast]
    exact ⟨_, ⟨text items args, zero_notMem_text h hargs fmt.noNul⟩, rfl,
      CString.At.storeBytes hnul, rfl⟩

/-- `"%l"` into a buffer of zeros. -/
theorem sprintf_makesString_cleared :
    MakesString (sprintf ⟨fun _ => 0⟩ ⟨[0x25, 0x6c], by decide⟩ 0x1000 [.int64 (-7)]) 0x1000
      (text [.number [0x6c]] [.int64 (-7)]) := by
  have hargs : Matches [.number [0x6c]] [.int64 (-7)] := List.prefix_refl [Kind.int64]
  exact (@sprintf_makesString_iff _ ⟨[0x25, 0x6c], by decide⟩ _ _ _ parses_long hargs).mpr
    ⟨by decide, rfl⟩

/-- `"a"` into a buffer that held a longer string. -/
theorem not_makesString_reused :
    Parses [('a').toUInt8] [.char ('a').toUInt8] ∧ Matches [.char ('a').toUInt8] [] ∧
      ¬ MakesString (sprintf ⟨fun _ => 0x78⟩ ⟨[('a').toUInt8], by decide⟩ 0x1000 []) 0x1000
        (text [.char ('a').toUInt8] []) := by
  have hparses : Parses [('a').toUInt8] [.char ('a').toUInt8] := .char (by decide) .done
  have hargs : Matches [.char ('a').toUInt8] [] := List.nil_prefix
  refine ⟨hparses, hargs, fun hmakes => ?_⟩
  obtain ⟨-, hnul⟩ := hmakes.behind hparses hargs
  cases hnul

end Terminator

end FroggyOs
