import Mathlib.Order.Bounds.Basic
import FroggyOs.Library.CString

/-!
# `strstr` (`main.c`)

One loop with three cursors: the start of the attempt, and the next byte of each string.
After a mismatch the attempt starts again one byte later. At the end of the haystack the
search is given up in the middle of an attempt, which is right since a later start leaves
even fewer bytes (`StrstrInv`).

Pointers into the haystack are offsets. Both strings are read through `CString.at?`, so a
result means that nothing behind a terminator has been read.
-/

namespace FroggyOs

open ByteMemory

/-- The loop of `strstr`: `start` is the offset of `haystack`, `h` and `n` are the cursors.
`some none` is `NULL`. -/
def strstrLoop (haystack needle : CString) : Nat → Nat → Nat → Nat → Option (Option Nat)
  | 0, _, _, _ => none
  | fuel + 1, start, h, n => do
      let nc ← needle.at? n
      if nc = 0 then some (some start)
      else
        let hc ← haystack.at? h
        if hc = 0 then some none
        else if hc = nc then strstrLoop haystack needle fuel start (h + 1) (n + 1)
        else strstrLoop haystack needle fuel (start + 1) (start + 1) 0

/-- Every start costs at most one round for each byte of the needle and its terminator. -/
def strstr (haystack needle : CString) : Option (Option Nat) :=
  strstrLoop haystack needle ((haystack.length + 1) * (needle.length + 1) + 1) 0 0 0

/-- The needle occurs in the haystack at an offset. -/
def OccursAt (haystack needle : CString) (k : Nat) : Prop :=
  needle.bytes <+: haystack.bytes.drop k

section Search

variable {haystack needle : CString} {start n k fuel : Nat}

theorem occursAt_iff : OccursAt haystack needle k ↔
    ∀ i < needle.length, haystack.at? (k + i) = needle.at? i := by
  rw [OccursAt, List.prefix_iff_getElem?]
  refine forall₂_congr fun i hi => ?_
  rw [CString.at?_of_lt hi, CString.at?_eq_some_iff (CString.bytes_ne_zero hi), List.getElem?_drop]

theorem isInfix_iff : needle.bytes <:+: haystack.bytes ↔ ∃ k, OccursAt haystack needle k := by
  constructor
  · rintro ⟨before, after, hbytes⟩
    refine ⟨before.length, after, ?_⟩
    rw [← hbytes, List.append_assoc, List.drop_left]
  · rintro ⟨k, hk⟩
    exact hk.isInfix.trans (List.drop_suffix k _).isInfix

/-- An occurrence leaves room for the needle. -/
theorem OccursAt.le (h : OccursAt haystack needle k) (hn : 0 < needle.length) :
    k + needle.length ≤ haystack.length := by
  have hlength := List.IsPrefix.length_le h
  rw [List.length_drop] at hlength
  simp only [CString.length] at hn ⊢
  omega

/-- The attempt at `start` has matched `n` bytes, and no earlier one is an occurrence. -/
structure StrstrInv (haystack needle : CString) (start n : Nat) : Prop where
  fits : n ≤ needle.length
  inside : start + n ≤ haystack.length
  matched : ∀ i < n, haystack.at? (start + i) = needle.at? i
  missed : ∀ k < start, ¬ OccursAt haystack needle k

/-- What `strstr` is to return: the first occurrence, or `NULL` if there is none. -/
def FirstOccurrence (haystack needle : CString) : Option Nat → Prop
  | none => ∀ k, ¬ OccursAt haystack needle k
  | some k => IsLeast {k | OccursAt haystack needle k} k

namespace StrstrInv

theorem next (h : StrstrInv haystack needle start n) (hn : n < needle.length)
    (hroom : start + n < haystack.length) (hbyte : haystack.at? (start + n) = needle.at? n) :
    StrstrInv haystack needle start (n + 1) where
  fits := hn
  inside := hroom
  matched := by
    intro i hi
    obtain hlt | rfl := Nat.lt_or_eq_of_le (Nat.le_of_lt_succ hi)
    · exact h.matched i hlt
    · exact hbyte
  missed := h.missed

theorem restart (h : StrstrInv haystack needle start n) (hn : n < needle.length)
    (hroom : start + n < haystack.length) (hbyte : haystack.at? (start + n) ≠ needle.at? n) :
    StrstrInv haystack needle (start + 1) 0 where
  fits := Nat.zero_le _
  inside := by omega
  matched := by
    intro i hi
    cases hi
  missed := by
    intro k hk
    obtain hlt | rfl := Nat.lt_or_eq_of_le (Nat.le_of_lt_succ hk)
    · exact h.missed k hlt
    · intro hoccurs
      exact hbyte (occursAt_iff.mp hoccurs n hn)

/-- The whole needle has been matched. -/
theorem found (h : StrstrInv haystack needle start n) (hn : n = needle.length) :
    FirstOccurrence haystack needle (some start) := by
  subst hn
  refine ⟨occursAt_iff.mpr h.matched, fun k hk => ?_⟩
  by_contra hlt
  exact h.missed k (Nat.lt_of_not_le hlt) hk

/-- The haystack ends in the middle of the attempt, so no later one has room either. -/
theorem missing (h : StrstrInv haystack needle start n) (hn : n < needle.length)
    (hend : start + n = haystack.length) : FirstOccurrence haystack needle none := by
  intro k hk
  have hroom := hk.le (by omega)
  exact h.missed k (by omega) hk

/-- The loop of `strstr` from any round on. The bound on the rounds left falls with each:
`n` grows, or `start` does and `n` returns to 0. -/
theorem run (h : StrstrInv haystack needle start n)
    (hfuel : (haystack.length - start) * (needle.length + 1) + (needle.length - n) < fuel) :
    ∃ r, strstrLoop haystack needle fuel start (start + n) n = some r ∧
      FirstOccurrence haystack needle r := by
  induction fuel generalizing start n with
  | zero => omega
  | succ fuel ih =>
      obtain hn | hn := Nat.lt_or_eq_of_le h.fits
      case inr =>
        refine ⟨some start, ?_, h.found hn⟩
        rw [strstrLoop, hn, needle.at?_length]
        rfl
      have hnc := CString.at?_of_lt hn
      have hnc_ne := CString.bytes_ne_zero hn
      obtain hroom | hend := Nat.lt_or_eq_of_le h.inside
      case inr =>
        refine ⟨none, ?_, h.missing hn hend⟩
        rw [strstrLoop, hnc, hend, haystack.at?_length]
        simp only [Option.bind_eq_bind, Option.bind_some, hnc_ne, if_false, if_true]
      have hhc := CString.at?_of_lt hroom
      have hhc_ne := CString.bytes_ne_zero hroom
      rw [strstrLoop, hnc, hhc]
      simp only [Option.bind_eq_bind, Option.bind_some, hnc_ne, hhc_ne, if_false]
      split
      case isTrue hbyte =>
        have hinv := h.next hn hroom (by rw [hnc, hhc, hbyte])
        exact ih hinv (by omega)
      case isFalse hbyte =>
        have hinv := h.restart hn hroom (by rw [hnc, hhc]; simpa using hbyte)
        apply ih hinv
        have hrounds : haystack.length - start = haystack.length - (start + 1) + 1 := by omega
        rw [hrounds, Nat.succ_mul] at hfuel
        omega

end StrstrInv

/-- `strstr` returns, without a read behind a terminator, and finds the first occurrence. -/
theorem strstr_firstOccurrence (haystack needle : CString) :
    ∃ r, strstr haystack needle = some r ∧ (r = none ↔ ¬ needle.bytes <:+: haystack.bytes) ∧
      (∀ k, r = some k → IsLeast {k | needle.bytes <+: haystack.bytes.drop k} k) ∧
      (needle.bytes = [] → r = some 0) := by
  have hstart : StrstrInv haystack needle 0 0 :=
    ⟨Nat.zero_le _, Nat.zero_le _, by simp, by simp⟩
  have hfuel : (haystack.length - 0) * (needle.length + 1) + (needle.length - 0) <
      (haystack.length + 1) * (needle.length + 1) + 1 := by
    rw [Nat.succ_mul, Nat.sub_zero]
    omega
  obtain ⟨r, hcall, hr⟩ := hstart.run hfuel
  refine ⟨r, hcall, ?_, ?_, fun hempty => ?_⟩
  · rw [isInfix_iff]
    cases r with
    | none => exact iff_of_true rfl (not_exists.mpr hr)
    | some k => exact iff_of_false (Option.some_ne_none k) (not_not_intro ⟨k, hr.1⟩)
  · rintro k rfl
    exact hr
  · have hzero : OccursAt haystack needle 0 := by
      rw [OccursAt, hempty]
      exact List.nil_prefix
    cases r with
    | none => exact absurd hzero (hr 0)
    | some k => rw [Nat.le_zero.mp (hr.2 hzero)]

end Search

end FroggyOs
