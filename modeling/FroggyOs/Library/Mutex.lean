import FroggyOs.Library.Simulation

/-!
# Mutual exclusion

What a lock is for: a process enters the section only while nobody is in it, and leaves it
only if it is in there itself. In the events of a run, the last one first, the entries and exits
of the section alternate, and each exit is the one of the process that entered before.
-/

namespace Mutex

open Simulation

universe u

inductive Event (P : Type u)
  | enter (p : P)
  | leave (p : P)

variable {P : Type u}

/-- Who is in the section. -/
inductive Step : Option P → Event P → Option P → Prop
  | enter (p : P) : Step none (.enter p) (some p)
  | leave (p : P) : Step (some p) (.leave p) none

def mutex : System (Option P) (Event P) where
  start holder := holder = none
  step holder label holder' := ∃ e, label = some e ∧ Step holder e holder'

/-- Who is in the section according to the events. -/
def holder : List (Event P) → Option P
  | .enter p :: _ => some p
  | .leave _ :: _ | [] => none

/-- The sections do not overlap. -/
def Alternates : List (Event P) → Prop
  | [] => True
  | .enter _ :: events => holder events = none ∧ Alternates events
  | .leave p :: events => holder events = some p ∧ Alternates events

theorem alternates_of_run {events : List (Event P)} {who : Option P}
    (hrun : Run mutex events who) : holder events = who ∧ Alternates events := by
  induction hrun with
  | start hstart => exact ⟨hstart.symm, trivial⟩
  | silent _ hstep =>
      obtain ⟨e, hlabel, -⟩ := hstep
      cases hlabel
  | event _ hstep ih =>
      obtain ⟨e, hlabel, hstep⟩ := hstep
      cases hlabel
      cases hstep with
      | enter p => exact ⟨rfl, ih⟩
      | leave p => exact ⟨rfl, ih⟩

end Mutex
