import Mathlib.Data.Set.Basic
import Mathlib.Logic.Function.Basic
import FroggyOs.Library.Simulation

/-!
# Flat memory

What virtual memory is for: an address is mapped or not, and each mapped address has a cell
of its own. Mapping some addresses leaves the cells of all others alone; it says nothing about
what the new cells hold, also where there was a cell before.
-/

namespace FlatMemory

open Function Simulation

universe u v

/-- What is seen of a call or of an access. -/
inductive Event (A : Type u) (V : Type v)
  | map (new : Set A)
  | unmap (old : Set A)
  | write (a : A) (x : V)
  | read (a : A) (x : V)

/-- The cells of the mapped addresses. -/
abbrev Cells (A : Type u) (V : Type v) := A → Option V

variable {A : Type u} {V : Type v} [DecidableEq A]

inductive Step : Cells A V → Event A V → Cells A V → Prop
  | map {cells cells' : Cells A V} {new : Set A} (hnew : ∀ a ∈ new, (cells' a).isSome)
      (hothers : ∀ a ∉ new, cells' a = cells a) : Step cells (.map new) cells'
  | unmap {cells cells' : Cells A V} {old : Set A} (hold : ∀ a ∈ old, cells' a = none)
      (hothers : ∀ a ∉ old, cells' a = cells a) : Step cells (.unmap old) cells'
  | write {cells : Cells A V} {a : A} {x : V} (hmapped : (cells a).isSome) :
      Step cells (.write a x) (update cells a (some x))
  | read {cells : Cells A V} {a : A} {x : V} (hx : cells a = some x) :
      Step cells (.read a x) cells

/-- Nothing is mapped at first, and all steps are seen. -/
def flatMemory : System (Cells A V) (Event A V) where
  start cells := cells = fun _ => none
  step cells label cells' := ∃ e, label = some e ∧ Step cells e cells'

/-- The addresses mapped according to the events, the last one first. -/
def Mapped : List (Event A V) → Set A
  | [] => ∅
  | .map new :: events => Mapped events ∪ new
  | .unmap old :: events => Mapped events \ old
  | .write _ _ :: events | .read _ _ :: events => Mapped events

open Classical in
/-- What was written last to the address since it was mapped. -/
noncomputable def lastWrite : List (Event A V) → A → Option V
  | [], _ => none
  | .map new :: events, a => if a ∈ new then none else lastWrite events a
  | .unmap old :: events, a => if a ∈ old then none else lastWrite events a
  | .write b x :: events, a => if a = b then some x else lastWrite events a
  | .read _ _ :: events, a => lastWrite events a

section Runs

variable {cells cells' : Cells A V} {events : List (Event A V)} {e : Event A V} {a : A} {x y : V}

/-- The cells are what the events tell of them. -/
structure Told (events : List (Event A V)) (cells : Cells A V) : Prop where
  mapped : ∀ a, (cells a).isSome ↔ a ∈ Mapped events
  written : ∀ a x, lastWrite events a = some x → cells a = some x

theorem Told.step (h : Told events cells) (hstep : Step cells e cells') :
    Told (e :: events) cells' := by
  cases hstep with
  | @map _ new hnew hothers =>
      constructor
      case mapped =>
        intro a
        by_cases ha : a ∈ new
        · exact iff_of_true (hnew a ha) (.inr ha)
        · rw [hothers a ha, h.mapped a]
          exact ⟨.inl, fun hor => hor.resolve_right ha⟩
      case written =>
        intro a x hlast
        rw [lastWrite] at hlast
        split at hlast
        case isTrue => cases hlast
        case isFalse ha => rw [hothers a ha, h.written a x hlast]
  | @unmap _ old hold hothers =>
      constructor
      case mapped =>
        intro a
        by_cases ha : a ∈ old
        · rw [hold a ha]
          exact iff_of_false (by simp) fun hand => hand.2 ha
        · rw [hothers a ha, h.mapped a]
          exact ⟨fun hmapped => ⟨hmapped, ha⟩, And.left⟩
      case written =>
        intro a x hlast
        rw [lastWrite] at hlast
        split at hlast
        case isTrue => cases hlast
        case isFalse ha => rw [hothers a ha, h.written a x hlast]
  | @write b y hmapped =>
      constructor
      case mapped =>
        intro a
        rw [Mapped, ← h.mapped a, update_apply]
        split
        case isTrue hab => simp [hab, hmapped]
        case isFalse => rfl
      case written =>
        intro a x hlast
        rw [lastWrite] at hlast
        rw [update_apply]
        split at hlast
        case isTrue hab => rw [if_pos hab, hlast]
        case isFalse hab => rw [if_neg hab, h.written a x hlast]
  | read => exact ⟨h.mapped, h.written⟩

theorem told_of_run (hrun : Run flatMemory events cells) : Told events cells := by
  induction hrun with
  | @start cells hstart =>
      obtain rfl : cells = fun _ => none := hstart
      exact ⟨fun a => by simp [Mapped], fun _ _ hlast => by cases hlast⟩
  | silent _ hstep ih =>
      obtain ⟨e, hlabel, -⟩ := hstep
      cases hlabel
  | event _ hstep ih =>
      obtain ⟨e, hlabel, hstep⟩ := hstep
      cases hlabel
      exact ih.step hstep

/-- A read returns what was written last. -/
theorem Told.read (h : Told events cells) (hstep : Step cells (.read a x) cells')
    (hlast : lastWrite events a = some y) : x = y := by
  cases hstep with
  | read hx => exact Option.some.inj (hx.symm.trans (h.written a y hlast))

end Runs

end FlatMemory
