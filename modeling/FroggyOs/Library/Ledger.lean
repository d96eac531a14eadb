import Mathlib.Data.Set.Insert
import Mathlib.Logic.Function.Basic
import Mathlib.Tactic.Common

/-!
# Handing out resources to slots

A pool of distinct resources is handed out one by one, and each resource is written into
a slot when it leaves the pool. `Balanced` says that nothing got lost on the way: every
resource that left the pool sits in exactly one slot, and what the slots held at the
start is still there. A write to an occupied slot ends this for good (`Lost`), since the
overwritten resource never comes back to the pool.

`Account` decides between the two: the books balance exactly as long as every write has
gone to an empty slot.
-/

namespace Ledger

variable {P F : Type*}

/-- Every resource of `all` outside the pool is in exactly one slot, and no slot that was
filled at the start has changed. -/
structure Balanced (start slots : P → Option F) (all pool : Set F) : Prop where
  kept : ∀ p f, start p = some f → slots p = some f
  once : ∀ f ∈ all, f ∉ pool → ∃! p, slots p = some f
  unused : ∀ f ∈ pool, ∀ p, slots p ≠ some f
  origin : ∀ p f, slots p = some f → start p = some f ∨ f ∈ all
  subset : pool ⊆ all

/-- A resource outside the pool is missing from the slot it had at the start, or from
every slot. -/
def Lost (start slots : P → Option F) (all pool : Set F) : Prop :=
  ∃ f, f ∉ pool ∧ ((∃ p, start p = some f ∧ slots p ≠ some f) ∨
    f ∈ all ∧ ∀ p, slots p ≠ some f)

/-- The books balance if `good` holds, and a resource is lost otherwise. -/
structure Account (good : Prop) (start slots : P → Option F) (all pool : Set F) : Prop where
  balanced : good → Balanced start slots all pool
  lost : ¬ good → Lost start slots all pool
  subset : pool ⊆ all

variable {start slots : P → Option F} {all pool : Set F} {p : P} {f : F} {good : Prop}

theorem Balanced.initial (h : ∀ f ∈ all, ∀ p, slots p ≠ some f) :
    Balanced slots slots all all where
  kept _ _ hslot := hslot
  once _ hf hpool := absurd hf hpool
  unused := h
  origin _ _ hslot := .inl hslot
  subset := Set.Subset.rfl

variable [DecidableEq P]

theorem update_eq_some_of_ne {g : F} (hne : g ≠ f) {q : P} :
    Function.update slots p (some f) q = some g → q ≠ p ∧ slots q = some g := by
  intro h
  have hq : q ≠ p := by
    rintro rfl
    rw [Function.update_self] at h
    exact hne (Option.some.inj h).symm
  rw [Function.update_of_ne hq] at h
  exact ⟨hq, h⟩

/-- A write to an empty slot keeps the balance. -/
theorem Balanced.assign (h : Balanced start slots all pool) (hempty : slots p = none)
    (hf : f ∈ pool) :
    Balanced start (Function.update slots p (some f)) all (pool \ {f}) where
  kept q g hstart := by
    have hslot := h.kept q g hstart
    have hq : q ≠ p := by
      rintro rfl
      rw [hempty] at hslot
      cases hslot
    rw [Function.update_of_ne hq, hslot]
  once g hg hpool := by
    by_cases hgf : g = f
    · subst hgf
      refine ⟨p, Function.update_self .., fun q hq => ?_⟩
      by_contra hne
      have hq' : Function.update slots p (some g) q = some g := hq
      rw [Function.update_of_ne hne] at hq'
      exact h.unused g hf q hq'
    · obtain ⟨q, hq, honly⟩ := h.once g hg fun hmem => hpool ⟨hmem, hgf⟩
      have hqp : q ≠ p := by
        rintro rfl
        rw [hempty] at hq
        cases hq
      refine ⟨q, ?_, fun q' hq' => honly q' (update_eq_some_of_ne hgf hq').2⟩
      change Function.update slots p (some f) q = some g
      rw [Function.update_of_ne hqp]
      exact hq
  unused g hg q hslot :=
    h.unused g hg.1 q (update_eq_some_of_ne hg.2 hslot).2
  origin q g hslot := by
    by_cases hgf : g = f
    · exact .inr (hgf ▸ h.subset hf)
    · exact h.origin q g (update_eq_some_of_ne hgf hslot).2
  subset _ hg := h.subset hg.1

/-- A write to an occupied slot loses what the slot held. -/
theorem Balanced.lost_of_assign (h : Balanced start slots all pool) (hoccupied : slots p ≠ none)
    (hf : f ∈ pool) : Lost start (Function.update slots p (some f)) all (pool \ {f}) := by
  obtain ⟨g, hg⟩ := Option.ne_none_iff_exists'.mp hoccupied
  have hgpool : g ∉ pool := fun hmem => h.unused g hmem p hg
  have hgf : g ≠ f := by
    rintro rfl
    exact hgpool hf
  have hgone : Function.update slots p (some f) p ≠ some g := by
    rw [Function.update_self]
    exact fun he => hgf (Option.some.inj he).symm
  refine ⟨g, fun hmem => hgpool hmem.1, ?_⟩
  obtain hstart | hall := h.origin p g hg
  · exact .inl ⟨p, hstart, hgone⟩
  · refine .inr ⟨hall, fun q hq => ?_⟩
    obtain ⟨hqp, hslot⟩ := update_eq_some_of_ne hgf hq
    exact hqp ((h.once g hall hgpool).unique hslot hg)

/-- What is lost stays lost. -/
theorem Lost.assign (h : Lost start slots all pool) (hf : f ∈ pool) (p : P) :
    Lost start (Function.update slots p (some f)) all (pool \ {f}) := by
  obtain ⟨g, hgpool, hlost⟩ := h
  have hgf : g ≠ f := by
    rintro rfl
    exact hgpool hf
  refine ⟨g, fun hmem => hgpool hmem.1, ?_⟩
  obtain ⟨q, hstart, hgone⟩ | ⟨hall, hnowhere⟩ := hlost
  · exact .inl ⟨q, hstart, fun hq => hgone (update_eq_some_of_ne hgf hq).2⟩
  · exact .inr ⟨hall, fun q hq => hnowhere q (update_eq_some_of_ne hgf hq).2⟩

/-- One write: the account stays good exactly when the slot is empty. -/
theorem Account.assign (h : Account good start slots all pool) (hf : f ∈ pool) :
    Account (good ∧ slots p = none) start (Function.update slots p (some f)) all
      (pool \ {f}) where
  balanced hgood := (h.balanced hgood.1).assign hgood.2 hf
  lost hbad := by
    by_cases hgood : good
    · exact (h.balanced hgood).lost_of_assign (fun hempty => hbad ⟨hgood, hempty⟩) hf
    · exact (h.lost hgood).assign hf p
  subset _ hg := h.subset hg.1

/-- A write to a slot known to be empty does not change the verdict. -/
theorem Account.assign_empty (h : Account good start slots all pool) (hempty : slots p = none)
    (hf : f ∈ pool) :
    Account good start (Function.update slots p (some f)) all (pool \ {f}) := by
  have hassign := h.assign (p := p) hf
  simpa only [hempty, and_true] using hassign

omit [DecidableEq P] in
theorem Account.congr {good' : Prop} {slots' : P → Option F} {pool' : Set F}
    (h : Account good start slots all pool) (hgood : good' ↔ good) (hslots : slots' = slots)
    (hpool : pool' = pool) : Account good' start slots' all pool' := by
  rw [hslots, hpool]
  exact ⟨fun hg => h.balanced (hgood.mp hg), fun hg => h.lost (fun hg' => hg (hgood.mpr hg')),
    h.subset⟩

end Ledger
