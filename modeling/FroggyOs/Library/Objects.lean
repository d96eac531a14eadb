import Mathlib.Logic.Function.Basic
import FroggyOs.Library.Simulation

/-!
# Stores of objects

What an allocator is for, without any memory: a store maps the pointers that are live to
objects, which are lists of values. A new object is filled with `zero`, a resized one keeps
its front and has anything behind it, and a read returns what the object holds. The null
pointer names no object.
-/

namespace Objects

open Function Simulation

universe u v

/-- What is seen of a call or of an access. -/
inductive Event (P : Type u) (V : Type v)
  | alloc (size : Nat) (ptr : P)
  | free (ptr : P)
  | resize (ptr : P) (size : Nat) (new : P)
  | write (ptr : P) (i : Nat) (x : V)
  | read (ptr : P) (i : Nat) (x : V)

/-- The objects by their pointers. -/
abbrev Store (P : Type u) (V : Type v) := P → Option (List V)

variable {P : Type u} {V : Type v} [DecidableEq P]

/-- What an allocator may do. A call that fails returns `null`. -/
inductive Step (null : P) (zero : V) : Store P V → Event P V → Store P V → Prop
  | alloc {store : Store P V} {size : Nat} {ptr : P} (hne : ptr ≠ null)
      (hfresh : store ptr = none) :
      Step null zero store (.alloc size ptr)
        (update store ptr (some (List.replicate size zero)))
  | fail {store : Store P V} {size : Nat} : Step null zero store (.alloc size null) store
  | free {store : Store P V} {ptr : P} {xs : List V} (hold : store ptr = some xs) :
      Step null zero store (.free ptr) (update store ptr none)
  | resizeZero {store : Store P V} {ptr : P} {xs : List V} (hold : store ptr = some xs) :
      Step null zero store (.resize ptr 0 null) (update store ptr none)
  | resize {store : Store P V} {ptr new : P} {size : Nat} {xs ys : List V}
      (hold : store ptr = some xs) (hsize : size ≠ 0) (hne : new ≠ null)
      (hfresh : update store ptr none new = none) (hlength : ys.length = size)
      (hfront : ys.take xs.length = xs.take size) :
      Step null zero store (.resize ptr size new)
        (update (update store ptr none) new (some ys))
  | write {store : Store P V} {ptr : P} {xs : List V} {i : Nat} {x : V}
      (hold : store ptr = some xs) (hi : i < xs.length) :
      Step null zero store (.write ptr i x) (update store ptr (some (xs.set i x)))
  | read {store : Store P V} {ptr : P} {xs : List V} {i : Nat} {x : V}
      (hold : store ptr = some xs) (hi : xs[i]? = some x) :
      Step null zero store (.read ptr i x) store

/-- The store starts empty, and all of its steps are seen. -/
def objects (null : P) (zero : V) : System (Store P V) (Event P V) where
  start store := store = fun _ => none
  step store label store' := ∃ e, label = some e ∧ Step null zero store e store'

/-- The value at `ptr[i]` as far as the events tell, the last one first: what was written last,
or `zero` since the object is there. -/
def lastValue (null : P) (zero : V) : List (Event P V) → P → Nat → Option V
  | [], _, _ => none
  | .alloc size new :: events, ptr, i =>
      if new ≠ null ∧ ptr = new then if i < size then some zero else none
      else lastValue null zero events ptr i
  | .free old :: events, ptr, i =>
      if ptr = old then none else lastValue null zero events ptr i
  | .resize old size new :: events, ptr, i =>
      if size ≠ 0 ∧ ptr = new then if i < size then lastValue null zero events old i else none
      else if ptr = old then none else lastValue null zero events ptr i
  | .write p j x :: events, ptr, i =>
      if ptr = p ∧ i = j then some x else lastValue null zero events ptr i
  | .read _ _ _ :: events, ptr, i => lastValue null zero events ptr i

section LastValue

variable {null : P} {zero x : V} {store store' : Store P V} {events : List (Event P V)}
  {e : Event P V} {ptr : P} {i : Nat} {xs : List V}

/-- The objects hold what the events tell. -/
def Holds (null : P) (zero : V) (events : List (Event P V)) (store : Store P V) : Prop :=
  ∀ ptr i x, lastValue null zero events ptr i = some x →
    ∃ xs, store ptr = some xs ∧ xs[i]? = some x

theorem Holds.step (h : Holds null zero events store) (hstep : Step null zero store e store') :
    Holds null zero (e :: events) store' := by
  intro ptr i x hlast
  cases hstep with
  | @alloc size new hne hfresh =>
      rw [lastValue] at hlast
      by_cases hptr : ptr = new
      · rw [if_pos ⟨hne, hptr⟩] at hlast
        split at hlast
        case isTrue hi =>
            cases hlast
            exact ⟨_, by rw [hptr, update_self], by simp [hi]⟩
        case isFalse => cases hlast
      · rw [if_neg fun hand => hptr hand.2] at hlast
        rw [update_of_ne hptr]
        exact h ptr i x hlast
  | fail =>
      rw [lastValue, if_neg fun hand => hand.1 rfl] at hlast
      exact h ptr i x hlast
  | @free old ys hold =>
      rw [lastValue] at hlast
      split at hlast
      case isTrue => cases hlast
      case isFalse hne =>
          rw [update_of_ne hne]
          exact h ptr i x hlast
  | @resizeZero old ys hold =>
      rw [lastValue, if_neg fun hand => hand.1 rfl] at hlast
      split at hlast
      case isTrue => cases hlast
      case isFalse hne =>
          rw [update_of_ne hne]
          exact h ptr i x hlast
  | @resize old new size xs ys hold hsize hne hfresh hlength hfront =>
      rw [lastValue] at hlast
      by_cases hptr : ptr = new
      · rw [if_pos ⟨hsize, hptr⟩] at hlast
        split at hlast
        case isTrue hi =>
            obtain ⟨zs, hzs, hvalue⟩ := h old i x hlast
            obtain rfl : xs = zs := Option.some.inj (hold.symm.trans hzs)
            refine ⟨ys, by rw [hptr, update_self], ?_⟩
            have hfrontValue := congrArg (fun l => l[i]?) hfront
            have hlt : i < xs.length := (List.getElem?_eq_some_iff.mp hvalue).1
            simp only [List.getElem?_take, hlt, if_true, hi] at hfrontValue
            rw [hfrontValue, hvalue]
        case isFalse => cases hlast
      · rw [if_neg fun hand => hptr hand.2] at hlast
        rw [update_of_ne hptr]
        split at hlast
        case isTrue => cases hlast
        case isFalse hold' =>
            rw [update_of_ne hold']
            exact h ptr i x hlast
  | @write p xs j y hold hj =>
      rw [lastValue] at hlast
      by_cases hptr : ptr = p
      · subst hptr
        by_cases hij : i = j
        · rw [if_pos ⟨rfl, hij⟩] at hlast
          cases hlast
          exact ⟨_, update_self .., by simp [hij, hj]⟩
        · rw [if_neg fun hand => hij hand.2] at hlast
          obtain ⟨zs, hzs, hvalue⟩ := h ptr i x hlast
          obtain rfl : xs = zs := Option.some.inj (hold.symm.trans hzs)
          exact ⟨_, update_self .., by rw [List.getElem?_set_ne (Ne.symm hij), hvalue]⟩
      · rw [if_neg fun hand => hptr hand.1] at hlast
        rw [update_of_ne hptr]
        exact h ptr i x hlast
  | read hold hi => exact h ptr i x hlast

theorem holds_of_run (hrun : Run (objects null zero) events store) :
    Holds null zero events store := by
  induction hrun with
  | start => exact fun _ _ _ hlast => (nomatch hlast)
  | silent _ hstep ih =>
      obtain ⟨e, hlabel, -⟩ := hstep
      cases hlabel
  | event _ hstep ih =>
      obtain ⟨e, hlabel, hstep⟩ := hstep
      cases hlabel
      exact ih.step hstep

/-- A read returns what the events before it tell. -/
theorem Holds.read (h : Holds null zero events store)
    (hstep : Step null zero store (.read ptr i x) store') {y : V}
    (hlast : lastValue null zero events ptr i = some y) : x = y := by
  obtain ⟨ys, hys, hvalue⟩ := h ptr i y hlast
  cases hstep with
  | @read _ xs _ _ hold hi =>
      obtain rfl : xs = ys := Option.some.inj (hold.symm.trans hys)
      exact Option.some.inj (hi.symm.trans hvalue)

end LastValue

end Objects
