import Mathlib.Tactic.Common

/-!
# Computations that hold locks

A computation in `LockM` takes and gives back locks. It fails when it takes a lock it holds
already, since nobody else can release it, and when it releases one that it does not hold.
`Keeps held x y held'` says that neither happens: from the locks `held` the computation `x`
returns what the plain computation `y` does, and it holds `held'` afterwards.
-/

namespace HeldLocks

universe u

variable {L α β : Type u}

/-- Computations that may fail, with the list of the locks that are held. -/
abbrev LockM (L : Type u) := StateT (List L) Option

section Rules

variable {x : LockM L α} {y : Option α} {f : α → LockM L β} {g : α → Option β}
  {held held' held'' : List L}

/-- From the locks `held` the computation returns what `y` does, and `held'` are held then. -/
def Keeps (held : List L) (x : LockM L α) (y : Option α) (held' : List L) : Prop :=
  x.run held = y.map fun a => (a, held')

theorem Keeps.pure (held : List L) (a : α) : Keeps held (Pure.pure a) (some a) held := rfl

/-- A computation that uses no lock. -/
theorem Keeps.plain (held : List L) (y : Option α) : Keeps held (liftM y) y held := by
  cases y <;> rfl

theorem Keeps.bind (hx : Keeps held x y held')
    (hf : ∀ a, y = some a → Keeps held' (f a) (g a) held'') :
    Keeps held (x >>= f) (y >>= g) held'' := by
  rw [Keeps, StateT.run_bind, hx]
  cases y with
  | none => rfl
  | some a => exact hf a rfl

/-- A step that always returns. -/
theorem Keeps.bind_some {a : α} {y : Option β} (hx : Keeps held x (some a) held')
    (hf : Keeps held' (f a) y held'') : Keeps held (x >>= f) y held'' := by
  rw [Keeps, StateT.run_bind, hx]
  exact hf

/-- A step whose result the plain computation has in another form. -/
theorem Keeps.bind_view {γ δ : Type u} {z : Option γ} {view : γ → α} {g : γ → Option δ}
    {view' : δ → β} (hx : Keeps held x (z.map view) held')
    (hf : ∀ a, z = some a → Keeps held' (f (view a)) ((g a).map view') held'') :
    Keeps held (x >>= f) ((z >>= g).map view') held'' := by
  rw [Keeps, StateT.run_bind, hx]
  cases z with
  | none => rfl
  | some a => exact hf a rfl

theorem Keeps.bind_map {γ : Type u} {g : α → Option γ} {view : γ → β}
    (hx : Keeps held x y held')
    (hf : ∀ a, y = some a → Keeps held' (f a) ((g a).map view) held'') :
    Keeps held (x >>= f) ((y >>= g).map view) held'' := by
  rw [← Option.map_id' (x := y)] at hx
  exact hx.bind_view hf

/-- A last step that only rearranges the result. -/
theorem Keeps.returning (c : α → β) (hx : Keeps held x y held') :
    Keeps held (x >>= fun a => Pure.pure (c a)) (y.map c) held' := by
  rw [Keeps, StateT.run_bind, hx]
  cases y <;> rfl

theorem Keeps.ite_map {γ : Type u} {c : Prop} [Decidable c] {x' : LockM L α} {z z' : Option γ}
    {view : γ → α} (hthen : c → Keeps held x (z.map view) held')
    (helse : ¬ c → Keeps held x' (z'.map view) held') :
    Keeps held (if c then x else x') ((if c then z else z').map view) held' := by
  split
  case isTrue hc => exact hthen hc
  case isFalse hc => exact helse hc

theorem Keeps.ite {c : Prop} [Decidable c] {x' : LockM L α} {y' : Option α}
    (hthen : c → Keeps held x y held') (helse : ¬ c → Keeps held x' y' held') :
    Keeps held (if c then x else x') (if c then y else y') held' := by
  split
  case isTrue hc => exact hthen hc
  case isFalse hc => exact helse hc

end Rules

section Locks

variable [DecidableEq L] {l : L} {held held' : List L} {f : PUnit → LockM L β} {y : Option β}

def lock (l : L) : LockM L PUnit :=
  fun held => if l ∈ held then none else some (⟨⟩, l :: held)

def unlock (l : L) : LockM L PUnit :=
  fun held => if l ∈ held then some (⟨⟩, held.erase l) else none

theorem lock_run (hl : l ∉ held) : (lock l).run held = some (⟨⟩, l :: held) := if_neg hl

theorem unlock_run : (unlock l).run (l :: held) = some (⟨⟩, held) := by
  have hrun : (unlock l).run (l :: held) = some (⟨⟩, (l :: held).erase l) :=
    if_pos List.mem_cons_self
  rw [hrun, List.erase_cons_head]

/-- Taking a lock that is not held. -/
theorem Keeps.lock (hl : l ∉ held) (hf : Keeps (l :: held) (f ⟨⟩) y held') :
    Keeps held (HeldLocks.lock l >>= f) y held' := by
  rw [Keeps, StateT.run_bind, lock_run hl]
  exact hf

/-- Giving back the lock taken last. -/
theorem Keeps.unlock (hf : Keeps held (f ⟨⟩) y held') :
    Keeps (l :: held) (HeldLocks.unlock l >>= f) y held' := by
  rw [Keeps, StateT.run_bind, unlock_run]
  exact hf

end Locks

end HeldLocks
