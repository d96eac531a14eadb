import Mathlib.Data.List.Induction
import Mathlib.Tactic.Common

/-!
# Doubly linked chains

Nodes live at addresses, and `node x before after` is any assertion that says the
node `x` is stored with `before` and `after` as its two links. `Chain` threads the
assertion along a list: every node's forward link is the address of the next node
and its backward link the address of the previous one.

Chains compose at every cut, so an operation that edits a few links is verified by
cutting the list around the edited nodes and reassembling it. `Walk` is the set of
addresses met by following forward links; on a chain it is the set of its nodes.
-/

namespace LinkedChain

variable {α : Type*} (addr : α → Nat)

/-- The address of the first node, or `after` for the empty list. -/
def headAddr : List α → Nat → Nat
  | [], after => after
  | x :: _, _ => addr x

/-- The address of the last node, or `before` for the empty list. -/
def lastAddr : Nat → List α → Nat
  | before, [] => before
  | _, x :: xs => lastAddr (addr x) xs

/-- The nodes of a list are stored one after the other, linked in both
directions, between the outer links `before` and `after`. -/
def Chain (node : α → Nat → Nat → Prop) : Nat → List α → Nat → Prop
  | _, [], _ => True
  | before, x :: xs, after =>
      node x before (headAddr addr xs after) ∧ Chain node (addr x) xs after

@[simp] theorem headAddr_nil (after : Nat) : headAddr addr [] after = after := rfl

@[simp] theorem headAddr_cons (x : α) (xs : List α) (after : Nat) :
    headAddr addr (x :: xs) after = addr x := rfl

@[simp] theorem lastAddr_nil (before : Nat) : lastAddr addr before [] = before := rfl

@[simp] theorem lastAddr_cons (before : Nat) (x : α) (xs : List α) :
    lastAddr addr before (x :: xs) = lastAddr addr (addr x) xs := rfl

theorem headAddr_append (xs ys : List α) (after : Nat) :
    headAddr addr (xs ++ ys) after = headAddr addr xs (headAddr addr ys after) := by
  cases xs <;> rfl

theorem lastAddr_append (before : Nat) (xs ys : List α) :
    lastAddr addr before (xs ++ ys) = lastAddr addr (lastAddr addr before xs) ys := by
  induction xs generalizing before with
  | nil => rfl
  | cons x xs ih => exact ih (addr x)

namespace Chain

variable {addr} {node node' : α → Nat → Nat → Prop} {before after : Nat}

/-- Cut a chain anywhere: each part's outer link is the neighbouring node of the
other part. -/
theorem append_iff {xs ys : List α} :
    Chain addr node before (xs ++ ys) after ↔
      Chain addr node before xs (headAddr addr ys after) ∧
        Chain addr node (lastAddr addr before xs) ys after := by
  induction xs generalizing before with
  | nil => simp [Chain]
  | cons x xs ih =>
      simp only [List.cons_append, Chain, headAddr_append, lastAddr_cons, ih, and_assoc]

/-- Cut a chain around one node. -/
theorem middle_iff {xs ys : List α} {x : α} :
    Chain addr node before (xs ++ x :: ys) after ↔
      Chain addr node before xs (addr x) ∧
        node x (lastAddr addr before xs) (headAddr addr ys after) ∧
          Chain addr node (addr x) ys after := by
  rw [append_iff]
  exact Iff.rfl

/-- A chain survives any change that keeps the assertion of each of its nodes. -/
theorem mono {xs : List α}
    (h : ∀ x ∈ xs, ∀ p n, node x p n → node' x p n)
    (hchain : Chain addr node before xs after) : Chain addr node' before xs after := by
  induction xs generalizing before with
  | nil => trivial
  | cons x xs ih =>
      refine ⟨h x List.mem_cons_self _ _ hchain.1, ih ?_ hchain.2⟩
      intro y hy
      exact h y (List.mem_cons_of_mem x hy)

/-- The addresses of the nodes form a chain of their own. -/
theorem map {xs : List α} {link : Nat → Nat → Nat → Prop}
    (h : ∀ x p n, node x p n → link (addr x) p n) (hchain : Chain addr node before xs after) :
    Chain id link before (xs.map addr) after := by
  induction xs generalizing before with
  | nil => trivial
  | cons x xs ih =>
      refine ⟨?_, ih hchain.2⟩
      have hhead : headAddr id (xs.map addr) after = headAddr addr xs after := by
        cases xs <;> rfl
      rw [hhead]
      exact h x _ _ hchain.1

/-- Every node of a chain is stored with some pair of links. -/
theorem exists_links {xs : List α} (hchain : Chain addr node before xs after) {x : α}
    (hx : x ∈ xs) : ∃ p n, node x p n := by
  obtain ⟨pre, post, rfl⟩ := List.append_of_mem hx
  exact ⟨_, _, (middle_iff.mp hchain).2.1⟩

/-- Two chains from one address are the same where a node is determined by its address and
its backward link. -/
theorem unique {xs ys : List α} {stop : Nat} (hxs : Chain addr node before xs stop)
    (hys : Chain addr node before ys stop)
    (hhead : headAddr addr xs stop = headAddr addr ys stop)
    (hxstop : ∀ x ∈ xs, addr x ≠ stop) (hystop : ∀ y ∈ ys, addr y ≠ stop)
    (hnode : ∀ x ∈ xs, ∀ y ∈ ys, ∀ p n n', addr x = addr y → node x p n → node y p n' →
      x = y ∧ n = n') : xs = ys := by
  induction xs generalizing before ys with
  | nil =>
      cases ys with
      | nil => rfl
      | cons y ys => exact absurd hhead.symm (hystop y List.mem_cons_self)
  | cons x xs ih =>
      cases ys with
      | nil => exact absurd hhead (hxstop x List.mem_cons_self)
      | cons y ys =>
          obtain ⟨rfl, hnext⟩ := hnode x List.mem_cons_self y List.mem_cons_self _ _ _ hhead
            hxs.1 hys.1
          have hrest := ih hxs.2 hys.2 hnext (fun z hz => hxstop z (List.mem_cons_of_mem x hz))
            (fun z hz => hystop z (List.mem_cons_of_mem x hz))
            fun z hz z' hz' => hnode z (List.mem_cons_of_mem x hz) z' (List.mem_cons_of_mem x hz')
          rw [hrest]

end Chain

/-! ## Walks along the forward links -/

/-- The addresses met by following `next` from `start` until `stop`. -/
inductive Walk (next : Nat → Nat) (start stop : Nat) : Nat → Prop
  | first : start ≠ stop → Walk next start stop start
  | step {a : Nat} : Walk next start stop a → next a ≠ stop → Walk next start stop (next a)

/-- On a chain whose nodes avoid the terminator, a walk meets exactly the nodes. -/
theorem walk_iff {addr : α → Nat} {node : α → Nat → Nat → Prop} {next : Nat → Nat}
    {before stop : Nat} {xs : List α} (hchain : Chain addr node before xs stop)
    (hnext : ∀ x ∈ xs, ∀ p n, node x p n → next (addr x) = n)
    (hstop : ∀ x ∈ xs, addr x ≠ stop) {a : Nat} :
    Walk next (headAddr addr xs stop) stop a ↔ ∃ x ∈ xs, addr x = a := by
  constructor
  · intro hwalk
    induction hwalk with
    | first hne =>
        cases xs with
        | nil => exact absurd rfl hne
        | cons x xs => exact ⟨x, List.mem_cons_self, rfl⟩
    | step _ hne ih =>
        obtain ⟨x, hx, rfl⟩ := ih
        obtain ⟨pre, post, rfl⟩ := List.append_of_mem hx
        rw [hnext x hx _ _ (Chain.middle_iff.mp hchain).2.1] at hne ⊢
        cases post with
        | nil => exact absurd rfl hne
        | cons y post => exact ⟨y, by simp, rfl⟩
  · rintro ⟨x, hx, rfl⟩
    obtain ⟨pre, post, hsplit⟩ := List.append_of_mem hx
    -- induction on the prefix in front of the node, from its end
    induction pre using List.reverseRecOn generalizing x post with
    | nil =>
        subst hsplit
        exact .first (hstop x hx)
    | append_singleton pre y ih =>
        have hy : y ∈ xs := by simp [hsplit]
        have hwalk := ih y hy (x :: post) (by simp [hsplit])
        have hlink : next (addr y) = addr x := by
          rw [hsplit, List.append_assoc] at hchain
          exact hnext y hy _ _ (Chain.middle_iff.mp hchain).2.1
        rw [← hlink]
        exact .step hwalk (hlink ▸ hstop x hx)

end LinkedChain
