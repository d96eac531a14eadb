import Mathlib.Tactic.Common

/-!
# Simulation of transition systems

A system takes steps, some of which show an event to the outside. `Run` collects the events
in the order in which they happen. A simulation relates the states of two systems so that
every step of the first one is answered by the second: a silent step by standing still or by
a silent step, an event by the same event. Then every run of the first system shows the
events of some run of the second, and ends in related states.
-/

namespace Simulation

universe u v w x

/-- A system: its first states and its steps, silent or with an event. -/
structure System (State : Type u) (Event : Type v) where
  start : State → Prop
  step : State → Option Event → State → Prop

variable {State : Type u} {Spec : Type w} {Event : Type v}

/-- The states that a run can end in which has shown the given events, the last one first. -/
inductive Run (S : System State Event) : List Event → State → Prop
  | start {s : State} (hstart : S.start s) : Run S [] s
  | silent {events : List Event} {s s' : State} (hrun : Run S events s)
      (hstep : S.step s none s') : Run S events s'
  | event {events : List Event} {e : Event} {s s' : State} (hrun : Run S events s)
      (hstep : S.step s (some e) s') : Run S (e :: events) s'

/-- The answer of a system to a step of another one. -/
inductive Answers (A : System Spec Event) : Spec → Option Event → Spec → Prop
  | stay (a : Spec) : Answers A a none a
  | step {a a' : Spec} {label : Option Event} (hstep : A.step a label a') : Answers A a label a'

/-- Every step of `C` from related states is answered by `A`, and leads to related states. -/
structure Simulates (C : System State Event) (A : System Spec Event) (R : State → Spec → Prop) :
    Prop where
  start : ∀ s, C.start s → ∃ a, A.start a ∧ R s a
  step : ∀ s a label s', R s a → C.step s label s' → ∃ a', Answers A a label a' ∧ R s' a'

section Runs

variable {C : System State Event} {A : System Spec Event} {R : State → Spec → Prop}
  {events : List Event} {s : State} {a a' : Spec} {e : Event} {P : State → Prop}

theorem Run.answer_silent (hrun : Run A events a) (h : Answers A a none a') : Run A events a' := by
  cases h with
  | stay => exact hrun
  | step hstep => exact hrun.silent hstep

theorem Run.answer_event (hrun : Run A events a) (h : Answers A a (some e) a') :
    Run A (e :: events) a' := by
  cases h with
  | step hstep => exact hrun.event hstep

/-- What holds at first and survives every step holds in every run. -/
theorem Run.induction (hrun : Run C events s) (hstart : ∀ s, C.start s → P s)
    (hstep : ∀ s label s', P s → C.step s label s' → P s') : P s := by
  induction hrun with
  | start h => exact hstart _ h
  | silent _ h ih => exact hstep _ _ _ ih h
  | event _ h ih => exact hstep _ _ _ ih h

/-- Every run of the simulated system shows events that the other one can show. -/
theorem Simulates.run (h : Simulates C A R) (hrun : Run C events s) :
    ∃ a, Run A events a ∧ R s a := by
  induction hrun with
  | start hstart =>
      obtain ⟨a, ha, hrel⟩ := h.start _ hstart
      exact ⟨a, .start ha, hrel⟩
  | silent _ hstep ih =>
      obtain ⟨a, ha, hrel⟩ := ih
      obtain ⟨a', hanswer, hrel'⟩ := h.step _ _ _ _ hrel hstep
      exact ⟨a', ha.answer_silent hanswer, hrel'⟩
  | event _ hstep ih =>
      obtain ⟨a, ha, hrel⟩ := ih
      obtain ⟨a', hanswer, hrel'⟩ := h.step _ _ _ _ hrel hstep
      exact ⟨a', ha.answer_event hanswer, hrel'⟩

end Runs

end Simulation
