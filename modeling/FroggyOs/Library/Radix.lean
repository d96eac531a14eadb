import Mathlib.Data.List.Induction
import Mathlib.Data.Option.Basic
import Mathlib.Tactic.Common

/-!
# Radix trees of tables

A table is named by an `F` and has an entry at every index of type `I`; `decode`
reads an entry as a reference to another table (or, at the lowest level, to the
object stored there), or as no reference at all. A path is a list of indices, and
`walk` follows it from a root.

A tree of depth `d` has its tables at the paths shorter than `d` and its leaf
entries in the tables at the paths of length `d - 1`. The memory holding the tables
is arbitrary, so nothing prevents two entries from referring to one table. The
invariant `Unshared` says that this does not happen; under it a write to one entry
changes exactly the paths that go through that entry.
-/

namespace RadixTree

variable {F I E : Type*} (decode : E → Option F)

/-- Follow a path of indices through the tables in memory `M`. -/
def walk (M : F → I → E) : F → List I → Option F
  | t, [] => some t
  | t, i :: is => (decode (M t i)).bind fun t' => walk M t' is

/-- Different paths shorter than `d` lead to different tables. -/
def Unshared (M : F → I → E) (root : F) (d : Nat) : Prop :=
  ∀ p q t, p.length < d → q.length < d →
    walk decode M root p = some t → walk decode M root q = some t → p = q

variable {decode} {M M' : F → I → E} {root t t' : F} {i : I} {d : Nat} {p q : List I}

@[simp] theorem walk_nil : walk decode M root [] = some root := rfl

theorem walk_cons : walk decode M root (i :: p) =
    (decode (M root i)).bind fun t' => walk decode M t' p := rfl

/-- The last step of a walk reads one entry of the table reached before it. -/
theorem walk_append (p q : List I) : walk decode M root (p ++ q) =
    (walk decode M root p).bind fun t => walk decode M t q := by
  induction p generalizing root with
  | nil => rfl
  | cons i p ih =>
      rw [List.cons_append, walk_cons, walk_cons, Option.bind_assoc]
      exact congrArg _ (funext fun t' => ih)

theorem walk_snoc (p : List I) (i : I) : walk decode M root (p ++ [i]) =
    (walk decode M root p).bind fun t => decode (M t i) := by
  rw [walk_append]
  simp [walk]

/-- Every table on a walk that succeeds was reached by the shorter path. -/
theorem walk_isSome_of_append (h : walk decode M root (p ++ q) = some t) :
    ∃ t', walk decode M root p = some t' := by
  rw [walk_append] at h
  cases hp : walk decode M root p with
  | none => simp [hp] at h
  | some t' => exact ⟨t', rfl⟩

/-- Changing one entry of the table at `p` leaves every path that does not go
through that entry alone. -/
theorem walk_eq_of_not_under (hun : Unshared decode M root d) (hp : p.length < d)
    (hwalk : walk decode M root p = some t)
    (hsame : ∀ u j, (u ≠ t ∨ j ≠ i) → (∃ q, q.length < d ∧ walk decode M root q = some u) →
      M' u j = M u j)
    (hq : q.length ≤ d) (hpre : ¬ p ++ [i] <+: q) :
    walk decode M' root q = walk decode M root q := by
  -- induction from the far end: the last step reads an entry of a reached table
  induction q using List.reverseRecOn with
  | nil => rfl
  | append_singleton q j ih =>
      simp only [List.length_append, List.length_singleton] at hq
      have hshort : ¬ p ++ [i] <+: q := fun h => hpre (h.trans (List.prefix_append q [j]))
      rw [walk_snoc, walk_snoc, ih (by omega) hshort]
      cases hu : walk decode M root q with
      | none => rfl
      | some u =>
          have hne : u ≠ t ∨ j ≠ i := by
            by_contra hboth
            push Not at hboth
            obtain ⟨rfl, rfl⟩ := hboth
            exact hpre (hun p q u hp (by omega) hwalk hu ▸ List.prefix_refl _)
          simp only [Option.bind_some, hsame u j hne ⟨q, by omega, hu⟩]

/-- What a change of one entry of the table at `p` does to the path through it. -/
theorem walk_through (hun : Unshared decode M root d) (hp : p.length < d)
    (hwalk : walk decode M root p = some t)
    (hsame : ∀ u j, (u ≠ t ∨ j ≠ i) → (∃ q, q.length < d ∧ walk decode M root q = some u) →
      M' u j = M u j) :
    walk decode M' root (p ++ [i]) = decode (M' t i) := by
  have hnot : ¬ p ++ [i] <+: p := by
    intro h
    have hlen := h.length_le
    simp only [List.length_append, List.length_singleton] at hlen
    omega
  rw [walk_snoc, walk_eq_of_not_under hun hp hwalk hsame (Nat.le_of_lt hp) hnot, hwalk]
  rfl

section LeafWrite

variable (hun : Unshared decode M root d) (hp : p.length + 1 = d)
  (hwalk : walk decode M root p = some t)
  (hsame : ∀ u j, (u ≠ t ∨ j ≠ i) → (∃ q, q.length < d ∧ walk decode M root q = some u) →
    M' u j = M u j)

include hun hp hwalk hsame

/-- A leaf entry lies on no path to a table. -/
theorem walk_leafWrite_table (hq : q.length < d) :
    walk decode M' root q = walk decode M root q := by
  apply walk_eq_of_not_under hun (by omega) hwalk hsame (Nat.le_of_lt hq)
  intro h
  have hlen := h.length_le
  simp only [List.length_append, List.length_singleton] at hlen
  omega

/-- A write to a leaf entry changes the translation of its own path only. -/
theorem walk_leafWrite [DecidableEq I] (hq : q.length = d) :
    walk decode M' root q =
      if q = p ++ [i] then decode (M' t i) else walk decode M root q := by
  split
  case isTrue h =>
    rw [h]
    exact walk_through hun (by omega) hwalk hsame
  case isFalse h =>
    apply walk_eq_of_not_under hun (by omega) hwalk hsame (Nat.le_of_eq hq)
    intro hpre
    exact h (hpre.eq_of_length (by simp [hq, hp])).symm

theorem Unshared.leafWrite : Unshared decode M' root d := by
  intro q₁ q₂ u h₁ h₂ hw₁ hw₂
  rw [walk_leafWrite_table hun hp hwalk hsame h₁] at hw₁
  rw [walk_leafWrite_table hun hp hwalk hsame h₂] at hw₂
  exact hun q₁ q₂ u h₁ h₂ hw₁ hw₂

end LeafWrite

section Link

/- A fresh table `t'`, all of whose entries are empty, is linked into an empty
entry of the table at `p`, above the leaf level. -/
variable [DecidableEq I] (hun : Unshared decode M root d) (hp : p.length + 1 < d)
  (hwalk : walk decode M root p = some t)
  (hsame : ∀ u j, (u ≠ t ∨ j ≠ i) → (∃ q, q.length < d ∧ walk decode M root q = some u) →
    M' u j = M u j)
  (hempty : decode (M t i) = none) (hlink : decode (M' t i) = some t')
  (hzero : ∀ j, decode (M' t' j) = none)

include hun hp hwalk hsame hempty hlink hzero

/-- Linking a fresh table changes no translation, and reaches no new table but
the one linked. -/
theorem walk_link (hq : q.length ≤ d) :
    walk decode M' root q =
      if q = p ++ [i] then some t' else walk decode M root q := by
  by_cases hpre : p ++ [i] <+: q
  · obtain ⟨r, rfl⟩ := hpre
    have hthrough : walk decode M' root (p ++ [i]) = some t' := by
      rw [walk_through hun (by omega) hwalk hsame, hlink]
    have hold : walk decode M root (p ++ [i]) = none := by
      rw [walk_snoc, hwalk]
      exact hempty
    cases r with
    | nil => simp [hthrough]
    | cons j r =>
        rw [walk_append _ (j :: r), hthrough, walk_append _ (j :: r), hold]
        simp [walk_cons, hzero]
  · rw [walk_eq_of_not_under hun (by omega) hwalk hsame hq hpre, if_neg]
    rintro rfl
    exact hpre (List.prefix_refl _)

theorem Unshared.link (hfresh : ∀ q, q.length < d → walk decode M root q ≠ some t') :
    Unshared decode M' root d := by
  intro q₁ q₂ u h₁ h₂ hw₁ hw₂
  rw [walk_link hun hp hwalk hsame hempty hlink hzero (by omega)] at hw₁ hw₂
  split at hw₁ <;> split at hw₂
  case isTrue.isTrue e₁ e₂ => rw [e₁, e₂]
  case isTrue.isFalse e₁ e₂ =>
    cases hw₁
    exact absurd hw₂ (hfresh q₂ h₂)
  case isFalse.isTrue e₁ e₂ =>
    cases hw₂
    exact absurd hw₁ (hfresh q₁ h₁)
  case isFalse.isFalse e₁ e₂ => exact hun q₁ q₂ u h₁ h₂ hw₁ hw₂

end Link

end RadixTree
