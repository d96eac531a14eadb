import FroggyOs.Library.Simulation
import Mathlib.Data.Set.Insert
import Mathlib.Logic.Function.Basic

/-!
# Registries

What a table of handlers is for. Some keys are reserved and keep their values; the others are
handed out to owners, who install values and give their keys back. A lookup finds the value
that the owner of the key has installed last, and nothing for a key that has no owner.
-/

namespace Registry

open Function Simulation

universe u v

/-- What is seen of a call or of a lookup. -/
inductive Event (K : Type u) (V : Type v)
  | acquire (k : K)
  | install (k : K) (x : Option V)
  | release (k : K)
  | lookup (k : K) (x : Option V)

/-- The keys that are handed out, and the values that are found. -/
structure Table (K : Type u) (V : Type v) where
  owned : Set K
  value : K → Option V

variable {K : Type u} {V : Type v} [DecidableEq K]

inductive Step (reserved : K → Option V) : Table K V → Event K V → Table K V → Prop
  | acquire {t : Table K V} {k : K} (hfresh : k ∉ t.owned) (hspare : reserved k = none) :
      Step reserved t (.acquire k) ⟨insert k t.owned, t.value⟩
  | install {t : Table K V} {k : K} {x : Option V} (howned : k ∈ t.owned) :
      Step reserved t (.install k x) ⟨t.owned, update t.value k x⟩
  | release {t : Table K V} {k : K} (howned : k ∈ t.owned) :
      Step reserved t (.release k) ⟨t.owned \ {k}, update t.value k none⟩
  | lookup {t : Table K V} {k : K} : Step reserved t (.lookup k (t.value k)) t

/-- Only the reserved keys have values at first. All steps are seen. -/
def registry (reserved : K → Option V) : System (Table K V) (Event K V) where
  start t := t = ⟨∅, reserved⟩
  step t label t' := ∃ e, label = some e ∧ Step reserved t e t'

/-- The value installed last according to the events, the last one first. -/
def lastInstalled (reserved : K → Option V) : List (Event K V) → K → Option V
  | [], k => reserved k
  | .install j x :: events, k => if k = j then x else lastInstalled reserved events k
  | .release j :: events, k => if k = j then none else lastInstalled reserved events k
  | .acquire _ :: events, k | .lookup _ _ :: events, k => lastInstalled reserved events k

section Runs

variable {reserved : K → Option V} {t t' : Table K V} {events : List (Event K V)}
  {e : Event K V} {k : K} {x : Option V}

/-- The table is what the events tell of it. -/
structure Told (reserved : K → Option V) (events : List (Event K V)) (t : Table K V) : Prop where
  value : ∀ k, t.value k = lastInstalled reserved events k
  idle : ∀ k ∉ t.owned, t.value k = reserved k
  spare : ∀ k ∈ t.owned, reserved k = none

theorem Told.step (h : Told reserved events t) (hstep : Step reserved t e t') :
    Told reserved (e :: events) t' := by
  cases hstep with
  | @acquire k hfresh hspare =>
      refine ⟨h.value, fun j hj => h.idle j fun hin => hj (.inr hin), ?_⟩
      rintro j (rfl | hj)
      · exact hspare
      · exact h.spare j hj
  | @install k x howned =>
      refine ⟨fun j => ?_, fun j hj => ?_, h.spare⟩
      · dsimp only
        rw [update_apply, h.value, lastInstalled]
      · have hne : j ≠ k := fun heq => hj (heq ▸ howned)
        dsimp only
        rw [update_of_ne hne]
        exact h.idle j hj
  | @release k howned =>
      refine ⟨fun j => ?_, fun j hj => ?_, fun j hj => h.spare j hj.1⟩
      · dsimp only
        rw [update_apply, h.value, lastInstalled]
      · dsimp only
        by_cases hjk : j = k
        · rw [hjk, update_self, h.spare k howned]
        · rw [update_of_ne hjk]
          exact h.idle j fun hin => hj ⟨hin, hjk⟩
  | lookup => exact ⟨h.value, h.idle, h.spare⟩

theorem told_of_run (hrun : Run (registry reserved) events t) : Told reserved events t := by
  induction hrun with
  | @start t hstart =>
      obtain rfl : t = ⟨∅, reserved⟩ := hstart
      exact ⟨fun _ => rfl, fun _ _ => rfl, fun _ hk => absurd hk (Set.notMem_empty _)⟩
  | silent _ hstep ih =>
      obtain ⟨e, hlabel, -⟩ := hstep
      cases hlabel
  | event _ hstep ih =>
      obtain ⟨e, hlabel, hstep⟩ := hstep
      cases hlabel
      exact ih.step hstep

/-- A lookup finds the value installed last. -/
theorem Told.lookup (h : Told reserved events t) (hstep : Step reserved t (.lookup k x) t') :
    x = lastInstalled reserved events k := by
  cases hstep with
  | lookup => exact h.value k

end Runs

end Registry
