import Mathlib.Data.List.Nodup
import Mathlib.Logic.Function.Basic
import Mathlib.Logic.Relation

/-!
# Interleaved processes

A concurrent system has one program counter for each process, a function on the
processes of which every step updates one value. The lemmas here say what such an update
does to the statements that invariants of concurrent systems are made of: that something
holds of every process, or between any two, and that at most one is in a section.

The last part is about tokens that the processes hand to each other through a pool: no
token is ever in two places.
-/

namespace Interleaving

open Function

variable {P C : Type*} {p q : C → Prop} {R : C → C → Prop} {pc : P → C} {i : P} {next : C}

/-- At most one process is in the section. -/
def AtMostOne (p : C → Prop) (pc : P → C) : Prop :=
  ∀ i j, p (pc i) → p (pc j) → i = j

/-- While one process is in the section, no other is. -/
theorem AtMostOne.not_other (h : AtMostOne p pc) (hi : p (pc i)) :
    ∀ j, j ≠ i → ¬ p (pc j) :=
  fun j hj hpj => hj (h j i hpj hi)

section Update

variable [DecidableEq P]

/-- A step that also changes what has to hold. -/
theorem forall_update (h : ∀ j, p (pc j)) (hnext : q next)
    (hrest : ∀ j, j ≠ i → p (pc j) → q (pc j)) : ∀ j, q (update pc i next j) :=
  (forall_update_iff pc fun _ x => q x).mpr ⟨hnext, fun j hj => hrest j hj (h j)⟩

/-- What holds between any two processes after a step of one of them. -/
theorem pairwise_update (hsymm : ∀ x y, R x y → R y x)
    (h : ∀ j k, j ≠ k → R (pc j) (pc k)) (hnext : ∀ j, j ≠ i → R next (pc j)) :
    ∀ j k, j ≠ k → R (update pc i next j) (update pc i next k) := by
  intro j k hjk
  by_cases hj : j = i
  · subst hj
    simpa [hjk.symm] using hnext k hjk.symm
  · by_cases hk : k = i
    · subst hk
      simpa [hj] using hsymm _ _ (hnext j hj)
    · simpa [hj, hk] using h j k hjk

/-- A process may enter a section that is empty. -/
theorem AtMostOne.enter (hempty : ∀ j, ¬ p (pc j)) : AtMostOne p (update pc i next) := by
  have honly : ∀ j, p (update pc i next j) → j = i := by
    intro j hj
    by_contra hne
    rw [update_of_ne hne] at hj
    exact hempty j hj
  intro j k hj hk
  exact (honly j hj).trans (honly k hk).symm

/-- A step within the section, outside of it or out of it. -/
theorem AtMostOne.step (h : AtMostOne p pc) (hstep : p next → p (pc i)) :
    AtMostOne p (update pc i next) := by
  have hbefore : ∀ j, p (update pc i next j) → p (pc j) := by
    intro j hj
    by_cases hji : j = i
    · subst hji
      exact hstep (by simpa using hj)
    · simpa [hji] using hj
  intro j k hj hk
  exact h j k (hbefore j hj) (hbefore k hk)

/-- When the process in the section leaves it, the section is empty. -/
theorem AtMostOne.leave (h : AtMostOne p pc) (hi : p (pc i)) (hnext : ¬ p next) :
    ∀ j, ¬ p (update pc i next j) :=
  (forall_update_iff pc fun _ x => ¬ p x).mpr ⟨hnext, h.not_other hi⟩

end Update

/-! ## Tokens -/

section Tokens

variable {T : Type*} {held : P → Option T} {pool : List T} {x y : T}

/-- Each token is in the pool once, or with one process. -/
structure Tokens (held : P → Option T) (pool : List T) : Prop where
  nodup : pool.Nodup
  not_pooled : ∀ i x, held i = some x → x ∉ pool
  single : ∀ i j x, held i = some x → held j = some x → i = j

/-- The token is in the pool or with some process. -/
def Present (held : P → Option T) (pool : List T) (x : T) : Prop :=
  x ∈ pool ∨ ∃ i, held i = some x

variable [DecidableEq P]

theorem held_update_iff {o : Option T} : (∃ j, update held i o j = some y) ↔
    o = some y ∨ ∃ j, j ≠ i ∧ held j = some y := by
  constructor
  · rintro ⟨j, hj⟩
    by_cases hji : j = i
    · subst hji
      exact .inl (by simpa using hj)
    · exact .inr ⟨j, hji, by simpa [hji] using hj⟩
  · rintro (rfl | ⟨j, hji, hj⟩)
    · exact ⟨i, update_self ..⟩
    · exact ⟨j, by simpa [hji] using hj⟩

/-- A process that holds nothing gets a token that is nowhere else. -/
theorem Tokens.give (h : Tokens held pool) (hx : ¬ Present held pool x) :
    Tokens (update held i (some x)) pool where
  nodup := h.nodup
  not_pooled := by
    intro j y hj
    by_cases hji : j = i
    · subst hji
      obtain rfl : x = y := by simpa using hj
      exact fun hpool => hx (.inl hpool)
    · exact h.not_pooled j y (by simpa [hji] using hj)
  single := by
    have hother : ∀ j, update held i (some x) j = some x → j = i := by
      intro j hj
      by_contra hji
      exact hx (.inr ⟨j, by simpa [hji] using hj⟩)
    intro j k y hj hk
    by_cases hji : j = i
    · subst hji
      obtain rfl : x = y := by simpa using hj
      exact (hother k hk).symm
    · by_cases hki : k = i
      · subst hki
        obtain rfl : x = y := by simpa using hk
        exact hother j hj
      · exact h.single j k y (by simpa [hji] using hj) (by simpa [hki] using hk)

theorem present_give (hi : held i = none) :
    Present (update held i (some x)) pool y ↔ y = x ∨ Present held pool y := by
  have hothers : (∃ j, j ≠ i ∧ held j = some y) ↔ ∃ j, held j = some y := by
    refine exists_congr fun j => and_iff_right_of_imp fun hj hji => ?_
    rw [hji, hi] at hj
    cases hj
  rw [Present, held_update_iff, hothers, Option.some.injEq, Present, or_left_comm]
  exact or_congr_left eq_comm

/-- A process lets its token go. -/
theorem Tokens.drop (h : Tokens held pool) : Tokens (update held i none) pool where
  nodup := h.nodup
  not_pooled := by
    intro j y hj
    by_cases hji : j = i
    · simp [hji] at hj
    · exact h.not_pooled j y (by simpa [hji] using hj)
  single := by
    intro j k y hj hk
    by_cases hji : j = i
    · simp [hji] at hj
    · by_cases hki : k = i
      · simp [hki] at hk
      · exact h.single j k y (by simpa [hji] using hj) (by simpa [hki] using hk)

/-- Nobody else had it. -/
theorem Tokens.present_drop (h : Tokens held pool) (hi : held i = some x) :
    Present (update held i none) pool y ↔ Present held pool y ∧ y ≠ x := by
  rw [Present, held_update_iff]
  constructor
  · rintro (hpool | hnone | ⟨j, hji, hj⟩)
    · exact ⟨.inl hpool, fun hyx => h.not_pooled i x hi (hyx ▸ hpool)⟩
    · cases hnone
    · exact ⟨.inr ⟨j, hj⟩, fun hyx => hji (h.single j i x (hyx ▸ hj) hi)⟩
  · rintro ⟨hpool | ⟨j, hj⟩, hyx⟩
    · exact .inl hpool
    · refine .inr (.inr ⟨j, fun hji => hyx ?_, hj⟩)
      rw [hji, hi] at hj
      exact (Option.some.inj hj).symm

/-- A process puts its token into the pool. -/
theorem Tokens.put (h : Tokens held pool) (hi : held i = some x) :
    Tokens (update held i none) (x :: pool) where
  nodup := List.nodup_cons.mpr ⟨h.not_pooled i x hi, h.nodup⟩
  not_pooled := by
    intro j y hj hmem
    obtain ⟨hpresent, hyx⟩ := (h.present_drop hi).mp (.inr ⟨j, hj⟩)
    obtain hhead | hpool := List.mem_cons.mp hmem
    · exact hyx hhead
    · exact h.drop.not_pooled j y hj hpool
  single := h.drop.single

theorem Tokens.present_put (h : Tokens held pool) (hi : held i = some x) :
    Present (update held i none) (x :: pool) y ↔ Present held pool y := by
  have hdrop := h.present_drop (y := y) hi
  rw [Present, List.mem_cons, or_assoc, ← Present, hdrop]
  constructor
  · rintro (rfl | hrest)
    · exact .inr ⟨i, hi⟩
    · exact hrest.1
  · intro hpresent
    by_cases hyx : y = x
    · exact .inl hyx
    · exact .inr ⟨hpresent, hyx⟩

/-- A process that holds nothing takes a token out of the pool. -/
theorem Tokens.take [DecidableEq T] (h : Tokens held pool) (hx : x ∈ pool) :
    Tokens (update held i (some x)) (pool.erase x) := by
  have hgone : ¬ Present held (pool.erase x) x := by
    rintro (hpool | ⟨j, hj⟩)
    · exact h.nodup.not_mem_erase hpool
    · exact h.not_pooled j x hj hx
  refine Tokens.give ⟨h.nodup.erase x, ?_, h.single⟩ hgone
  exact fun j y hj hpool => h.not_pooled j y hj (List.mem_of_mem_erase hpool)

theorem Tokens.present_take [DecidableEq T] (h : Tokens held pool) (hi : held i = none)
    (hx : x ∈ pool) :
    Present (update held i (some x)) (pool.erase x) y ↔ Present held pool y := by
  rw [present_give hi, Present, h.nodup.mem_erase_iff, Present]
  constructor
  · rintro (rfl | ⟨-, hpool⟩ | hheld)
    · exact .inl hx
    · exact .inl hpool
    · exact .inr hheld
  · rintro (hpool | hheld)
    · by_cases hyx : y = x
      · exact .inl hyx
      · exact .inr (.inl ⟨hyx, hpool⟩)
    · exact .inr (.inr hheld)

end Tokens

end Interleaving
