import FroggyOs.Library.CString

/-!
# `checkStringEndsWith` (`main.c`)

Two loops look for the terminators, and a third compares backwards. It stops when a cursor
has been moved to the first byte of its string, in front of the comparison of that byte.

A cursor of the third loop is the number of bytes up to and including the one it points to:
`1` at the first byte and `0` in front of the string, where it cannot be read.
-/

namespace FroggyOs

open ByteMemory

/-- `while (*s != 0) s++;`, from the offset `i`. -/
def seekEnd (s : CString) : Nat → Nat → Option Nat
  | 0, _ => none
  | fuel + 1, i => do
      let c ← s.at? i
      if c = 0 then some i else seekEnd s fuel (i + 1)

/-- `while (true)`. In a round that reads the bytes `i` and `j`, these are also the cursors
after `str--` and `end--`. -/
def endsWithLoop (str ending : CString) : Nat → Nat → Option Bool
  | 0, _ => none
  | _ + 1, 0 => none
  | i + 1, j + 1 => do
      let c ← str.at? i
      let d ← ending.at? j
      if c ≠ d then some false
      else if j = 1 ∨ (i = 1 ∧ j = 1) then some true
      else if i = 1 then some false
      else endsWithLoop str ending i j

/-- `none` stands for a read outside the strings. -/
def checkStringEndsWith (str ending : CString) : Option Bool := do
  let i ← seekEnd str (str.length + 1) 0
  let j ← seekEnd ending (ending.length + 1) 0
  endsWithLoop str ending i j

section Compare

variable {str ending : CString} {i j : Nat}

theorem seekEnd_eq {s : CString} {fuel : Nat} (hi : i ≤ s.length)
    (hfuel : s.length - i < fuel) : seekEnd s fuel i = some s.length := by
  induction fuel generalizing i with
  | zero => omega
  | succ fuel ih =>
      obtain hlt | rfl := Nat.lt_or_eq_of_le hi
      · rw [seekEnd, CString.at?_of_lt hlt]
        simp only [Option.bind_eq_bind, Option.bind_some, CString.bytes_ne_zero hlt, if_false]
        exact ih hlt (by omega)
      · rw [seekEnd, s.at?_length]
        rfl

/-- Both loops find the terminator. -/
theorem checkStringEndsWith_eq :
    checkStringEndsWith str ending = endsWithLoop str ending str.length ending.length := by
  have hstr : seekEnd str (str.length + 1) 0 = some str.length :=
    seekEnd_eq (Nat.zero_le _) (by omega)
  have hending : seekEnd ending (ending.length + 1) 0 = some ending.length :=
    seekEnd_eq (Nat.zero_le _) (by omega)
  rw [checkStringEndsWith, hstr, hending]
  rfl

/-- One round inside the strings. -/
theorem endsWithLoop_succ (hi : i < str.bytes.length) (hj : j < ending.bytes.length) :
    endsWithLoop str ending (i + 1) (j + 1) =
      if str.bytes[i] ≠ ending.bytes[j] then some false
      else if j = 1 then some true
      else if i = 1 then some false
      else endsWithLoop str ending i j := by
  rw [endsWithLoop, CString.at?_of_lt hi, CString.at?_of_lt hj]
  simp only [Option.bind_eq_bind, Option.bind_some, or_iff_left_of_imp And.right]

theorem concat_suffix_concat_iff {α : Type*} {a b : α} {l₁ l₂ : List α} :
    l₁ ++ [a] <:+ l₂ ++ [b] ↔ a = b ∧ l₁ <:+ l₂ := by
  rw [← List.reverse_prefix, List.reverse_concat, List.reverse_concat, List.cons_prefix_cons,
    List.reverse_prefix]

/-- One byte further back, a suffix of `str` is a suffix of the bytes in front of it. -/
theorem tail_take_suffix (hi : i < str.bytes.length) (hj : j + 1 < ending.bytes.length) :
    (ending.bytes.take (j + 2)).tail <:+ str.bytes.take (i + 1) ↔
      str.bytes[i] = ending.bytes[j + 1] ∧
        (ending.bytes.take (j + 1)).tail <:+ str.bytes.take i := by
  have hne : ending.bytes.take (j + 1) ≠ [] := by
    intro hnil
    have hlength := congrArg List.length hnil
    rw [List.length_take, List.length_nil] at hlength
    omega
  rw [← List.take_append_getElem hj, ← List.take_append_getElem hi,
    List.tail_append_of_ne_nil hne, concat_suffix_concat_iff]
  exact and_congr_left fun _ => eq_comm

/-- From two bytes that are not the first ones on, the loop compares all bytes of `ending`
but its first. -/
theorem endsWithLoop_eq (hi : i + 2 ≤ str.length) (hj : j + 2 ≤ ending.length) :
    endsWithLoop str ending (i + 2) (j + 2) = some (decide (j ≤ i ∧
      (ending.bytes.take (j + 2)).tail <:+ str.bytes.take (i + 2))) := by
  simp only [CString.length] at hi hj
  induction j generalizing i with
  | zero =>
      have hone : (ending.bytes.take 1).tail = [] := by
        rw [← List.drop_one, List.drop_take, Nat.sub_self, List.take_zero]
      have hcompare := @tail_take_suffix str ending (i + 1) 0 (by omega) (by omega)
      rw [hone] at hcompare
      rw [endsWithLoop_succ (by omega) (by omega)]
      by_cases hbyte : str.bytes[i + 1] = ending.bytes[0 + 1]
      · simp [hbyte, hcompare]
      · simp [hbyte, hcompare]
  | succ j ih =>
      have hcompare := @tail_take_suffix str ending (i + 1) (j + 1) (by omega) (by omega)
      rw [endsWithLoop_succ (by omega) (by omega)]
      by_cases hbyte : str.bytes[i + 1] = ending.bytes[j + 1 + 1]
      case neg => simp [hbyte, hcompare]
      rw [if_neg (not_not_intro hbyte), if_neg (by omega)]
      cases i with
      | zero => simp
      | succ i =>
          rw [if_neg (by omega), ih (by omega) (by omega)]
          simp [hbyte, hcompare]

/-- All bytes of `ending` but its first stand at the end of `str`, behind another byte. -/
structure SkipsFirst (str ending : CString) : Prop where
  fits : ending.length ≤ str.length
  rest : ending.bytes.tail <:+ str.bytes
  first : str.at? (str.length - ending.length) ≠ ending.at? 0

/-- With the other bytes in place, `ending` is a suffix if its first byte is in place. -/
theorem suffix_iff_of_tail (hpos : 0 < ending.length) (hfits : ending.length ≤ str.length)
    (hrest : ending.bytes.tail <:+ str.bytes) :
    ending.bytes <:+ str.bytes ↔ str.at? (str.length - ending.length) = ending.at? 0 := by
  simp only [CString.length] at hpos hfits ⊢
  rw [CString.at?_of_lt hpos, CString.at?_of_lt (by omega), Option.some_inj]
  have hlength : ending.bytes.tail.length = ending.bytes.length - 1 := List.length_tail
  have hdrop := List.suffix_iff_eq_drop.mp hrest
  have hcons : ending.bytes = ending.bytes[0] :: ending.bytes.tail := by
    obtain ⟨c, cs, hbytes⟩ := List.exists_cons_of_length_pos hpos
    simp [hbytes]
  have hstart : str.bytes.drop (str.bytes.length - ending.bytes.length) =
      str.bytes[str.bytes.length - ending.bytes.length] :: ending.bytes.tail := by
    rw [List.drop_eq_getElem_cons (by omega), hdrop]
    congr 2
    omega
  rw [List.suffix_iff_eq_drop, hstart]
  constructor
  · intro hbytes
    exact (List.cons.inj (hbytes.symm.trans hcons)).1
  · intro hfirst
    rw [hfirst]
    exact hcons

theorem checkStringEndsWith_of_two (hi : 2 ≤ str.length) (hj : 2 ≤ ending.length) :
    checkStringEndsWith str ending =
      some (decide (ending.length ≤ str.length ∧ ending.bytes.tail <:+ str.bytes)) := by
  obtain ⟨i, hi⟩ := Nat.exists_eq_add_of_le' hi
  obtain ⟨j, hj⟩ := Nat.exists_eq_add_of_le' hj
  have hloop := @endsWithLoop_eq str ending i j (by omega) (by omega)
  rw [← hi, ← hj, CString.length, CString.length, List.take_length, List.take_length] at hloop
  rw [checkStringEndsWith_eq, CString.length, CString.length, hloop]
  simp only [CString.length] at hi hj
  simp only [hi, hj, Nat.add_le_add_iff_right]

theorem getLast?_eq_getElem {s : CString} (hi : s.length = i + 1) :
    s.bytes.getLast? = s.at? i := by
  simp only [CString.length] at hi
  rw [List.getLast?_eq_getElem?, hi, Nat.add_sub_cancel, CString.at?_of_lt (by omega),
    List.getElem?_eq_getElem]

theorem getLast?_eq_of_suffix (hpos : 0 < ending.length) (h : ending.bytes <:+ str.bytes) :
    str.bytes.getLast? = ending.bytes.getLast? := by
  have hne : ending.bytes ≠ [] := List.ne_nil_of_length_pos hpos
  rw [List.getLast?_eq_some_getLast hne, h.getLast hne, ← List.getLast?_eq_some_getLast]

/-- The first round compares the last bytes. -/
theorem endsWithLoop_first (hi : str.length = i + 1) (hj : ending.length = j + 1) :
    endsWithLoop str ending (i + 1) (j + 1) =
      if str.bytes.getLast? ≠ ending.bytes.getLast? then some false
      else if j = 1 then some true
      else if i = 1 then some false
      else endsWithLoop str ending i j := by
  rw [getLast?_eq_getElem hi, getLast?_eq_getElem hj]
  simp only [CString.length] at hi hj
  rw [endsWithLoop_succ (by omega) (by omega), CString.at?_of_lt (by omega),
    CString.at?_of_lt (by omega)]
  simp only [ne_eq, Option.some_inj]

theorem checkStringEndsWith_of_last (hi : str.length = i + 1) (hj : ending.length = j + 1)
    (hlast : str.bytes.getLast? ≠ ending.bytes.getLast?) :
    checkStringEndsWith str ending = some (decide (ending.bytes <:+ str.bytes)) := by
  have hnot : ¬ ending.bytes <:+ str.bytes :=
    fun h => hlast (getLast?_eq_of_suffix (by omega) h)
  rw [checkStringEndsWith_eq, hi, hj, endsWithLoop_first hi hj, if_pos hlast,
    decide_eq_false hnot]

/-- With a string of one byte and the last bytes equal, the second round reads in front of
a string, or the answer is wrong. -/
theorem checkStringEndsWith_of_one (hi : str.length = i + 1) (hj : ending.length = j + 1)
    (hlast : str.bytes.getLast? = ending.bytes.getLast?) (hone : i = 0 ∨ j = 0) :
    checkStringEndsWith str ending ≠ some (decide (ending.bytes <:+ str.bytes)) := by
  rw [checkStringEndsWith_eq, hi, hj, endsWithLoop_first hi hj, if_neg (not_not_intro hlast)]
  by_cases hend : j = 0
  · subst hend
    have hrest : ending.bytes.tail <:+ str.bytes := by
      rw [List.eq_nil_of_length_eq_zero (List.length_tail.trans (Nat.sub_eq_of_eq_add hj))]
      exact List.nil_suffix
    have hsuffix : ending.bytes <:+ str.bytes := by
      rw [suffix_iff_of_tail (by omega) (by omega) hrest, hi, hj, Nat.zero_add,
        Nat.add_sub_cancel, ← getLast?_eq_getElem hi, ← getLast?_eq_getElem hj, hlast]
    rw [decide_eq_true hsuffix, if_neg Nat.zero_ne_one]
    cases i with
    | zero => simp [endsWithLoop]
    | succ i => split <;> simp [endsWithLoop]
  · obtain rfl : i = 0 := by omega
    have hnot : ¬ ending.bytes <:+ str.bytes := by
      intro h
      have hle : ending.length ≤ str.length := h.length_le
      omega
    rw [decide_eq_false hnot, if_neg Nat.zero_ne_one]
    split <;> simp [endsWithLoop]

/-- `checkStringEndsWith` decides whether the second string is a suffix of the first, except
for strings of one byte and for those that differ in the first byte of the ending only. -/
theorem checkStringEndsWith_iff (hstr : str.bytes ≠ []) (hending : ending.bytes ≠ []) :
    checkStringEndsWith str ending = some (decide (ending.bytes <:+ str.bytes)) ↔
      str.bytes.getLast? ≠ ending.bytes.getLast? ∨
        (2 ≤ str.length ∧ 2 ≤ ending.length ∧ ¬ SkipsFirst str ending) := by
  obtain ⟨i, hi⟩ : ∃ i, str.length = i + 1 :=
    Nat.exists_eq_add_of_le' (List.length_pos_iff.mpr hstr)
  obtain ⟨j, hj⟩ : ∃ j, ending.length = j + 1 :=
    Nat.exists_eq_add_of_le' (List.length_pos_iff.mpr hending)
  by_cases hlast : str.bytes.getLast? = ending.bytes.getLast?
  case neg => exact iff_of_true (checkStringEndsWith_of_last hi hj hlast) (.inl hlast)
  rw [or_iff_right (not_not_intro hlast)]
  by_cases hone : i = 0 ∨ j = 0
  case pos => exact iff_of_false (checkStringEndsWith_of_one hi hj hlast hone) (by omega)
  rw [checkStringEndsWith_of_two (by omega) (by omega), Option.some_inj, decide_eq_decide]
  constructor
  · intro hsame
    refine ⟨by omega, by omega, fun hskip => hskip.first ?_⟩
    exact (suffix_iff_of_tail (by omega) hskip.fits hskip.rest).mp
      (hsame.mp ⟨hskip.fits, hskip.rest⟩)
  · rintro ⟨-, -, hskip⟩
    constructor
    · rintro ⟨hfits, hrest⟩
      rw [suffix_iff_of_tail (by omega) hfits hrest]
      by_contra hfirst
      exact hskip ⟨hfits, hrest, hfirst⟩
    · intro hsuffix
      exact ⟨hsuffix.length_le, (List.tail_suffix _).trans hsuffix⟩

end Compare

/-- `"kernel"` ends with `"el"`. -/
theorem checkStringEndsWith_kernel :
    checkStringEndsWith ⟨[107, 101, 114, 110, 101, 108], by decide⟩ ⟨[101, 108], by decide⟩ =
      some (decide ([101, 108] <:+ ([107, 101, 114, 110, 101, 108] : List UInt8))) :=
  (checkStringEndsWith_iff (by decide) (by decide)).mpr
    (.inr ⟨by decide, by decide, fun hskip => hskip.first (by decide)⟩)

/-- `"ab"` does not end with `"cb"`. -/
theorem not_checkStringEndsWith :
    checkStringEndsWith ⟨[97, 98], by decide⟩ ⟨[99, 98], by decide⟩ ≠
      some (decide ([99, 98] <:+ ([97, 98] : List UInt8))) := by decide

end FroggyOs
