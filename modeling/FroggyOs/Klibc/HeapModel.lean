import Mathlib.Data.List.Chain
import FroggyOs.Klibc.BucketAlloc

/-!
# Buckets as tilings

A `Block` is what a pebble's header says: where the header lies, how long its payload
is and whether it is in use. The blocks of a bucket tile it from the end of the bucket
header to the end of the bucket, header and payload by header and payload. Splitting a
block, placing a request in it and releasing it are operations on lists of blocks; all
of them keep the tiling.
-/

namespace FroggyOs

open Word64

/-- A pebble: the address of its header, the size of its payload, and its state. -/
structure Block where
  addr : Nat
  size : Nat
  inUse : Bool
deriving DecidableEq

namespace Block

/-- The address handed out for the block. -/
def payload (b : Block) : Nat := b.addr + 60

/-- The end of the payload. -/
def stop (b : Block) : Nat := b.addr + 60 + b.size

def free (b : Block) : Block := { b with inUse := false }

def use (b : Block) : Block := { b with inUse := true }

@[simp] theorem free_addr (b : Block) : b.free.addr = b.addr := rfl

@[simp] theorem free_size (b : Block) : b.free.size = b.size := rfl

@[simp] theorem free_inUse (b : Block) : b.free.inUse = false := rfl

@[simp] theorem free_stop (b : Block) : b.free.stop = b.stop := rfl

@[simp] theorem use_addr (b : Block) : b.use.addr = b.addr := rfl

@[simp] theorem use_size (b : Block) : b.use.size = b.size := rfl

@[simp] theorem use_inUse (b : Block) : b.use.inUse = true := rfl

@[simp] theorem use_stop (b : Block) : b.use.stop = b.stop := rfl

end Block

/-! ## Tilings -/

/-- The blocks lie one behind the other from `start` to `stop`. -/
def Tiles : Nat → List Block → Nat → Prop
  | start, [], stop => start = stop
  | start, b :: rest, stop => b.addr = start ∧ Tiles b.stop rest stop

namespace Tiles

variable {start stop : Nat} {xs ys : List Block} {b : Block}

theorem append_iff :
    Tiles start (xs ++ ys) stop ↔ ∃ mid, Tiles start xs mid ∧ Tiles mid ys stop := by
  induction xs generalizing start with
  | nil => simp [Tiles]
  | cons x xs ih => simp [Tiles, ih, and_assoc]

/-- Cut a tiling at one block. -/
theorem middle_iff : Tiles start (xs ++ b :: ys) stop ↔
    Tiles start xs b.addr ∧ Tiles b.stop ys stop := by
  rw [append_iff]
  constructor
  · rintro ⟨mid, hxs, rfl, hys⟩
    exact ⟨hxs, hys⟩
  · rintro ⟨hxs, hys⟩
    exact ⟨_, hxs, rfl, hys⟩

theorem le (h : Tiles start xs stop) : start ≤ stop := by
  induction xs generalizing start with
  | nil => exact Nat.le_of_eq h
  | cons x xs ih =>
      have hrest := ih h.2
      have hstart := h.1
      simp only [Block.stop] at hrest
      omega

/-- Every block lies between the two ends. -/
theorem bounds (h : Tiles start xs stop) (hb : b ∈ xs) : start ≤ b.addr ∧ b.stop ≤ stop := by
  obtain ⟨before, after, rfl⟩ := List.append_of_mem hb
  obtain ⟨hbefore, hafter⟩ := middle_iff.mp h
  exact ⟨hbefore.le, hafter.le⟩

/-- Earlier blocks end before later ones start. -/
theorem pairwise (h : Tiles start xs stop) : xs.Pairwise fun x y => x.stop ≤ y.addr := by
  induction xs generalizing start with
  | nil => exact List.Pairwise.nil
  | cons x xs ih =>
      refine List.Pairwise.cons ?_ (ih h.2)
      intro y hy
      exact (h.2.bounds hy).1

/-- Different blocks do not overlap. -/
theorem disjoint (h : Tiles start xs stop) {x y : Block} (hx : x ∈ xs) (hy : y ∈ xs)
    (hne : x ≠ y) : x.stop ≤ y.addr ∨ y.stop ≤ x.addr := by
  obtain ⟨before, after, rfl⟩ := List.append_of_mem hx
  obtain ⟨hbefore, hafter⟩ := middle_iff.mp h
  simp only [List.mem_append, List.mem_cons] at hy
  obtain hy | rfl | hy := hy
  · exact .inr (hbefore.bounds hy).2
  · exact absurd rfl hne
  · exact .inl (hafter.bounds hy).1

/-- A tiling has at most one block for every 60 bytes. -/
theorem length_le (h : Tiles start xs stop) : start + 60 * xs.length ≤ stop := by
  induction xs generalizing start with
  | nil => exact Nat.le_of_eq h
  | cons x xs ih =>
      have hrest := ih h.2
      have hstart := h.1
      simp only [Block.stop] at hrest
      simp only [List.length_cons]
      omega

end Tiles

/-! ## Splitting -/

/-- The payload size `split_pebble` leaves in the first part. -/
@[irreducible] def splitSize (r : Nat) : Nat :=
  add64 r (pebbleMinAlign - 1) &&& not64 (pebbleMinAlign - 1)

/-- The first part of a block after `split_pebble`. -/
@[irreducible] def splitHead (b : Block) (r : Nat) : Block :=
  if splitPebbleTest b.size r then { b with size := splitSize r } else b

/-- The part split off, if there is one. It keeps the state of the block. -/
@[irreducible] def splitTail (b : Block) (r : Nat) : List Block :=
  if splitPebbleTest b.size r then
    [⟨b.addr + 60 + splitSize r, b.size - splitSize r - 60, b.inUse⟩]
  else []

/-- The two parts and the new header fit into the block. -/
def SplitFits (b : Block) (r : Nat) : Prop :=
  splitPebbleTest b.size r → splitSize r + 60 ≤ b.size

instance (b : Block) (r : Nat) : Decidable (SplitFits b r) := inferInstanceAs (Decidable (_ → _))

@[simp] theorem splitHead_addr (b : Block) (r : Nat) : (splitHead b r).addr = b.addr := by
  rw [splitHead]
  split <;> rfl

@[simp] theorem splitHead_inUse (b : Block) (r : Nat) : (splitHead b r).inUse = b.inUse := by
  rw [splitHead]
  split <;> rfl

theorem Tiles.split {start stop r : Nat} {b : Block} {xs : List Block} (hfits : SplitFits b r)
    (h : Tiles start (b :: xs) stop) : Tiles start (splitHead b r :: splitTail b r ++ xs) stop := by
  obtain ⟨rfl, hxs⟩ := h
  rw [splitHead, splitTail]
  by_cases htest : splitPebbleTest b.size r
  · have hsize := hfits htest
    rw [if_pos htest, if_pos htest]
    refine ⟨rfl, rfl, ?_⟩
    have hstop : b.stop = Block.stop ⟨b.addr + 60 + splitSize r, b.size - splitSize r - 60,
        b.inUse⟩ := by
      simp only [Block.stop]
      omega
    rw [← hstop]
    exact hxs
  · rw [if_neg htest, if_neg htest]
    exact ⟨rfl, hxs⟩

theorem Tiles.split_middle {start stop r : Nat} {b : Block} {before after : List Block}
    (hfits : SplitFits b r) (h : Tiles start (before ++ b :: after) stop) :
    Tiles start (before ++ splitHead b r :: splitTail b r ++ after) stop := by
  obtain ⟨mid, hbefore, hrest⟩ := Tiles.append_iff.mp h
  rw [List.append_assoc]
  exact Tiles.append_iff.mpr ⟨mid, hbefore, hrest.split hfits⟩

/-! ### The arithmetic of the split -/

/-- The test clears bit 6 of one side only, so it says less than it seems to. -/
theorem splitPebbleTest_iff {s r : Nat} (hs : s + 64 < 2 ^ 64) (hr : r + 124 < 2 ^ 64) :
    splitPebbleTest s r = true ↔
      r + 124 < 128 * ((s + 63) / 128) + (s + 63) % 64 := by
  have hsum : add64 s pebbleMinAlign = s + 64 := add64_eq hs
  have hleft : sub64 (add64 s pebbleMinAlign) 1 = s + 63 := by
    rw [hsum, sub64_eq (by omega) hs]
    rfl
  have hmask : (s + 63) &&& not64 pebbleMinSize =
      128 * ((s + 63) / 128) + (s + 63) % 64 :=
    and_not64_bit (k := 6) (by omega) (by decide)
  have hright : add64 (add64 r MemoryPebble.sizeof) pebbleMinSize = r + 124 := by
    have hheader : add64 r MemoryPebble.sizeof = r + 60 := add64_eq (a := r) (b := 60) (by omega)
    rw [hheader]
    exact add64_eq (a := r + 60) (b := 64) hr
  rw [splitPebbleTest, hleft, hmask, hright]
  simp

theorem splitSize_eq {r : Nat} (hr : r + 63 < 2 ^ 64) : splitSize r = 64 * ((r + 63) / 64) := by
  have hsum : add64 r (pebbleMinAlign - 1) = r + 63 := add64_eq hr
  rw [splitSize, hsum]
  exact and_not64_low (k := 6) hr (by decide)

/-- A request that is a multiple of 64 can be split off whenever the test says so. -/
theorem splitFits_of_aligned {b : Block} {r : Nat} (hb : b.size + 64 < 2 ^ 64)
    (hr : r + 124 < 2 ^ 64) (haligned : r % 64 = 0) : SplitFits b r := by
  intro htest
  rw [splitPebbleTest_iff hb hr] at htest
  rw [splitSize_eq (by omega)]
  omega

/-- The first part of a split has the bytes asked for. -/
theorem le_splitHead_size {b : Block} {r : Nat} (hr : r ≤ b.size) (hword : r + 63 < 2 ^ 64) :
    r ≤ (splitHead b r).size := by
  rw [splitHead]
  split
  · have hsize := splitSize_eq hword
    dsimp only
    omega
  · exact hr

/-- The parts of a split fill the block: there is a second one of the same state behind the
first, or the block has been left whole. -/
theorem splitTail_cases {b : Block} {r : Nat} (hfits : SplitFits b r) :
    splitTail b r = [] ∧ splitHead b r = b ∨ ∃ t, splitTail b r = [t] ∧ t.inUse = b.inUse ∧
      t.addr = (splitHead b r).stop ∧ (splitHead b r).size + 60 + t.size = b.size := by
  rw [splitHead, splitTail]
  by_cases htest : splitPebbleTest b.size r
  · have hsize := hfits htest
    rw [if_pos htest, if_pos htest]
    refine .inr ⟨_, rfl, rfl, rfl, ?_⟩
    dsimp only
    omega
  · rw [if_neg htest, if_neg htest]
    exact .inl ⟨rfl, rfl⟩

/-! ## Placing -/

/-- A free block that is large enough. -/
def fits (need : Nat) (b : Block) : Bool := !b.inUse && decide (need ≤ b.size)

/-- The blocks that a block becomes when a request is placed in it. -/
def placeBlock (b : Block) (need : Nat) : List Block := (splitHead b need).use :: splitTail b need

theorem Tiles.place {start stop need : Nat} {b : Block} {before after : List Block}
    (hfits : SplitFits b need) (h : Tiles start (before ++ b :: after) stop) :
    Tiles start (before ++ placeBlock b need ++ after) stop := by
  obtain ⟨mid, hbefore, hrest⟩ := Tiles.append_iff.mp h
  have hsplit := hrest.split hfits
  rw [List.cons_append, Tiles] at hsplit
  rw [List.append_assoc, placeBlock, List.cons_append]
  refine Tiles.append_iff.mpr ⟨mid, hbefore, ?_⟩
  rw [Tiles, Block.use_addr, Block.use_stop]
  exact hsplit

/-- The greatest payload size, of free and used blocks alike. -/
def maxSize (blocks : List Block) (ret : Nat) : Nat :=
  blocks.foldl (fun ret b => if b.size > ret then b.size else ret) ret

/-! ## Releasing -/

/-- Two neighbours as one free block. -/
def mergeBlocks (a b : Block) : Block := ⟨a.addr, a.size + b.size + 60, false⟩

@[simp] theorem mergeBlocks_inUse (a b : Block) : (mergeBlocks a b).inUse = false := rfl

/-- The blocks before `b` and `b` itself after `melt_prev`. -/
def melt (before : List Block) (b : Block) : List Block × Block :=
  match before.getLast? with
  | some a => if !a.inUse && !b.inUse then (before.dropLast, mergeBlocks a b) else (before, b)
  | none => (before, b)

/-- The block `b` and those behind it after `absorb_next`. -/
def absorb (b : Block) (after : List Block) : List Block :=
  match after with
  | c :: rest => if !b.inUse && !c.inUse then mergeBlocks b c :: rest else b :: c :: rest
  | [] => [b]

/-- The blocks of a bucket after `b` has been freed between `before` and `after`. -/
def release (before : List Block) (b : Block) (after : List Block) : List Block :=
  (melt before b.free).1 ++ absorb (melt before b.free).2 after

/-- No two neighbours are free. -/
def Coalesced (blocks : List Block) : Prop :=
  blocks.IsChain fun x y => x.inUse = true ∨ y.inUse = true

section Release

variable {start stop : Nat} {before after : List Block} {a b c : Block}

@[simp] theorem melt_nil (b : Block) : melt [] b = ([], b) := rfl

theorem melt_free (ha : a.inUse = false) (hb : b.inUse = false) :
    melt (before ++ [a]) b = (before, mergeBlocks a b) := by
  simp [melt, ha, hb]

theorem melt_used (ha : a.inUse = true) : melt (before ++ [a]) b = (before ++ [a], b) := by
  simp [melt, ha]

/-- `melt_prev` merges with a free neighbour or does nothing. -/
theorem melt_cases (before : List Block) (b : Block) : melt before b = (before, b) ∨
    ∃ front a, before = front ++ [a] ∧ a.inUse = false ∧ b.inUse = false ∧
      melt before b = (front, mergeBlocks a b) := by
  obtain rfl | ⟨front, a, rfl⟩ := List.eq_nil_or_concat' before
  · exact .inl rfl
  · cases ha : a.inUse with
    | true => exact .inl (melt_used ha)
    | false =>
        cases hb : b.inUse with
        | true => exact .inl (by simp [melt, hb])
        | false => exact .inr ⟨front, a, rfl, ha, rfl, melt_free ha hb⟩

@[simp] theorem absorb_nil (b : Block) : absorb b [] = [b] := rfl

theorem absorb_free (hb : b.inUse = false) (hc : c.inUse = false) :
    absorb b (c :: after) = mergeBlocks b c :: after := by
  simp [absorb, hb, hc]

theorem absorb_used (hc : c.inUse = true) : absorb b (c :: after) = b :: c :: after := by
  simp [absorb, hc]

theorem Tiles.merge (h : Tiles start (a :: b :: after) stop) :
    Tiles start (mergeBlocks a b :: after) stop := by
  obtain ⟨rfl, hb, hafter⟩ := h
  refine ⟨rfl, ?_⟩
  have hstop : (mergeBlocks a b).stop = b.stop := by
    simp only [mergeBlocks, Block.stop] at hb ⊢
    omega
  rw [hstop]
  exact hafter

theorem Tiles.free (h : Tiles start (before ++ b :: after) stop) :
    Tiles start (before ++ b.free :: after) stop := by
  rw [Tiles.middle_iff] at h ⊢
  exact h

theorem Tiles.melt (h : Tiles start (before ++ b :: after) stop) :
    Tiles start ((melt before b).1 ++ (melt before b).2 :: after) stop := by
  obtain hsame | ⟨front, a, rfl, _, _, hmelt⟩ := melt_cases before b
  · rw [hsame]
    exact h
  · rw [List.append_assoc] at h
    obtain ⟨mid, hfront, hrest⟩ := Tiles.append_iff.mp h
    rw [hmelt]
    exact Tiles.append_iff.mpr ⟨mid, hfront, hrest.merge⟩

theorem Tiles.absorb (h : Tiles start (before ++ b :: after) stop) :
    Tiles start (before ++ absorb b after) stop := by
  obtain ⟨mid, hbefore, hrest⟩ := Tiles.append_iff.mp h
  refine Tiles.append_iff.mpr ⟨mid, hbefore, ?_⟩
  cases after with
  | nil => exact hrest
  | cons c rest =>
      rw [FroggyOs.absorb]
      split
      · exact hrest.merge
      · exact hrest

/-- Releasing a block keeps the tiling. -/
theorem Tiles.release (h : Tiles start (before ++ b :: after) stop) :
    Tiles start (release before b after) stop :=
  h.free.melt.absorb

/-- Freeing keeps the other blocks in use, -/
theorem mem_release_of_used {x : Block} (hx : x ∈ before ∨ x ∈ after) (hused : x.inUse = true) :
    x ∈ release before b after := by
  rw [release, List.mem_append]
  obtain hx | hx := hx
  · left
    obtain hsame | ⟨front, a, rfl, ha, -, hmerged⟩ := melt_cases before b.free
    · rw [hsame]
      exact hx
    · rw [hmerged]
      obtain hx | hx := List.mem_append.mp hx
      · exact hx
      · rw [List.mem_singleton.mp hx, ha] at hused
        cases hused
  · right
    cases after with
    | nil => cases hx
    | cons c rest =>
        rw [absorb]
        split
        · next hfree =>
            obtain rfl | hx := List.mem_cons.mp hx
            · simp [hused] at hfree
            · exact List.mem_cons_of_mem _ hx
        · exact List.mem_cons_of_mem _ hx

/-- and adds none. -/
theorem mem_of_mem_release {x : Block} (hx : x ∈ release before b after)
    (hused : x.inUse = true) : x ∈ before ∨ x ∈ after := by
  have hmelted :
      (melt before b.free).2.inUse = false ∧ ∀ y ∈ (melt before b.free).1, y ∈ before := by
    obtain hsame | ⟨front, a, rfl, -, -, hmerged⟩ := melt_cases before b.free
    · rw [hsame]
      exact ⟨rfl, fun y hy => hy⟩
    · rw [hmerged]
      exact ⟨rfl, fun y hy => List.mem_append_left _ hy⟩
  rw [release, List.mem_append] at hx
  obtain hx | hx := hx
  · exact .inl (hmelted.2 x hx)
  · right
    cases after with
    | nil =>
        rw [absorb_nil, List.mem_singleton] at hx
        rw [hx, hmelted.1] at hused
        cases hused
    | cons c rest =>
        rw [absorb] at hx
        split at hx
        · obtain rfl | hx := List.mem_cons.mp hx
          · cases hused
          · exact List.mem_cons_of_mem c hx
        · obtain rfl | hx := List.mem_cons.mp hx
          · rw [hmelted.1] at hused
            cases hused
          · exact hx

theorem append_cons_ne_nil (before : List Block) (b : Block) (more after : List Block) :
    before ++ b :: more ++ after ≠ [] := by
  simp

/-- The absorbing block stays where it is. -/
theorem absorb_cons (b : Block) (after : List Block) :
    ∃ c rest, absorb b after = c :: rest ∧ c.addr = b.addr := by
  cases after with
  | nil => exact ⟨b, [], rfl, rfl⟩
  | cons c rest =>
      rw [absorb]
      split
      · exact ⟨_, _, rfl, rfl⟩
      · exact ⟨_, _, rfl, rfl⟩

theorem release_ne_nil (before : List Block) (b : Block) (after : List Block) :
    release before b after ≠ [] := by
  obtain ⟨c, rest, habsorb, -⟩ := absorb_cons (melt before b.free).2 after
  simp [release, habsorb]

end Release

/-! ## Coalesced lists -/

namespace Coalesced

variable {before after : List Block} {b : Block}

/-- Cut a coalesced list at one block. -/
theorem middle_iff : Coalesced (before ++ b :: after) ↔
    Coalesced before ∧ Coalesced after ∧ (∀ x ∈ before.getLast?, x.inUse = true ∨ b.inUse = true) ∧
      ∀ y ∈ after.head?, b.inUse = true ∨ y.inUse = true := by
  rw [Coalesced, List.isChain_append, List.isChain_cons]
  simp only [List.head?_cons, Option.mem_some_iff, forall_eq']
  constructor
  · rintro ⟨hbefore, ⟨hnext, hafter⟩, hprev⟩
    exact ⟨hbefore, hafter, hprev, hnext⟩
  · rintro ⟨hbefore, hafter, hprev, hnext⟩
    exact ⟨hbefore, ⟨hnext, hafter⟩, hprev⟩

theorem tail {rest : List Block} (h : Coalesced (b :: rest)) :
    Coalesced rest ∧ ∀ y ∈ rest.head?, b.inUse = true ∨ y.inUse = true := by
  have hcons := List.isChain_cons.mp h
  exact ⟨hcons.2, hcons.1⟩

/-- The part split off by a placement is free, and its neighbours are not. -/
theorem place {need : Nat} (hb : b.inUse = false) (h : Coalesced (before ++ b :: after)) :
    Coalesced (before ++ placeBlock b need ++ after) := by
  obtain ⟨hbefore, hafter, -, hnext⟩ := middle_iff.mp h
  have hused : ∀ y ∈ after.head?, y.inUse = true := by
    intro y hy
    have hor := hnext y hy
    rw [hb] at hor
    simpa using hor
  have htail : Coalesced (splitTail b need ++ after) := by
    rw [splitTail]
    split
    · exact List.isChain_cons.mpr ⟨fun y hy => .inr (hused y hy), hafter⟩
    · exact hafter
  rw [List.append_assoc, placeBlock, List.cons_append]
  exact middle_iff.mpr ⟨hbefore, htail, fun x _ => .inr rfl, fun y _ => .inl rfl⟩

/-- After `melt_prev` the block has no free neighbour in front of it. -/
theorem melt (h : Coalesced before) (hb : b.inUse = false) :
    Coalesced (FroggyOs.melt before b).1 ∧ (FroggyOs.melt before b).2.inUse = false ∧
      ∀ x ∈ (FroggyOs.melt before b).1.getLast?, x.inUse = true := by
  obtain rfl | ⟨front, a, rfl⟩ := List.eq_nil_or_concat' before
  · exact ⟨h, hb, by simp⟩
  · cases ha : a.inUse with
    | true =>
        rw [melt_used ha]
        refine ⟨h, hb, ?_⟩
        simp [ha]
    | false =>
        rw [melt_free ha hb]
        obtain ⟨hfront, -, hprev, -⟩ := middle_iff.mp h
        refine ⟨hfront, rfl, fun x hx => ?_⟩
        have hor := hprev x hx
        rw [ha] at hor
        simpa using hor

/-- After `absorb_next` the block has no free neighbour behind it. -/
theorem absorb (h : Coalesced after) (hb : b.inUse = false) :
    ∃ c rest, FroggyOs.absorb b after = c :: rest ∧ Coalesced rest ∧
      ∀ y ∈ rest.head?, y.inUse = true := by
  cases after with
  | nil => exact ⟨b, [], rfl, h, by simp⟩
  | cons c rest =>
      cases hc : c.inUse with
      | true => exact ⟨b, c :: rest, absorb_used hc, h, by simp [hc]⟩
      | false =>
          obtain ⟨hrest, hnext⟩ := h.tail
          refine ⟨_, rest, absorb_free hb hc, hrest, fun y hy => ?_⟩
          have hor := hnext y hy
          rw [hc] at hor
          simpa using hor

/-- Freeing any block leaves no two free neighbours. -/
theorem release (h : Coalesced (before ++ b :: after)) :
    Coalesced (FroggyOs.release before b after) := by
  obtain ⟨hbefore, hafter, -, -⟩ := middle_iff.mp h
  obtain ⟨hmelted, hfree, hprev⟩ := hbefore.melt (Block.free_inUse b)
  obtain ⟨c, rest, habsorb, hrest, hnext⟩ := hafter.absorb hfree
  rw [FroggyOs.release, habsorb]
  exact middle_iff.mpr
    ⟨hmelted, hrest, fun x hx => .inl (hprev x hx), fun y hy => .inr (hnext y hy)⟩

end Coalesced

/-! ## Buckets -/

/-- A bucket: its address, its length in pages, its `largest_free` field and its blocks. -/
structure BucketModel where
  base : Nat
  pages : Nat
  largest : Nat
  blocks : List Block

namespace BucketModel

/-- The end of the region. -/
def stop (B : BucketModel) : Nat := B.base + 4096 * B.pages

/-- The bytes that represent the bucket: its region except the two list links. -/
def Owns (B : BucketModel) (x : Nat) : Prop :=
  B.base ≤ x ∧ x < B.base + 48 ∨ B.base + 64 ≤ x ∧ x < B.stop

/-- The bytes that operations on the pebbles write: `largest_free` and the pebbles. -/
def Writes (B : BucketModel) (x : Nat) : Prop :=
  B.base + 8 ≤ x ∧ x < B.base + 16 ∨ B.base + 64 ≤ x ∧ x < B.stop

/-- The blocks tile a region that does not wrap around. -/
structure WF (B : BucketModel) : Prop where
  base_ne : B.base ≠ 0
  fits : B.stop ≤ 2 ^ 64
  tiles : Tiles (B.base + 64) B.blocks B.stop
  nonempty : B.blocks ≠ []

def withBlocks (B : BucketModel) (blocks : List Block) : BucketModel := { B with blocks }

@[simp] theorem withBlocks_base (B : BucketModel) (blocks : List Block) :
    (B.withBlocks blocks).base = B.base := rfl

@[simp] theorem withBlocks_pages (B : BucketModel) (blocks : List Block) :
    (B.withBlocks blocks).pages = B.pages := rfl

@[simp] theorem withBlocks_largest (B : BucketModel) (blocks : List Block) :
    (B.withBlocks blocks).largest = B.largest := rfl

@[simp] theorem withBlocks_blocks (B : BucketModel) (blocks : List Block) :
    (B.withBlocks blocks).blocks = blocks := rfl

@[simp] theorem withBlocks_stop (B : BucketModel) (blocks : List Block) :
    (B.withBlocks blocks).stop = B.stop := rfl

/-- Every block lies in the region, behind the bucket header. -/
theorem WF.block_bounds {B : BucketModel} (h : B.WF) {b : Block} (hb : b ∈ B.blocks) :
    B.base + 64 ≤ b.addr ∧ b.addr + 60 + b.size ≤ B.stop := h.tiles.bounds hb

theorem WF.withBlocks {B : BucketModel} (h : B.WF) {blocks : List Block}
    (htiles : Tiles (B.base + 64) blocks B.stop) (hne : blocks ≠ []) :
    (B.withBlocks blocks).WF := ⟨h.base_ne, h.fits, htiles, hne⟩

theorem WF.split {B : BucketModel} (h : B.WF) {before after : List Block} {b : Block} {r : Nat}
    (hblocks : B.blocks = before ++ b :: after) (hfits : SplitFits b r) :
    (B.withBlocks (before ++ splitHead b r :: splitTail b r ++ after)).WF := by
  have htiles := h.tiles
  rw [hblocks] at htiles
  exact h.withBlocks (htiles.split_middle hfits) (append_cons_ne_nil _ _ _ _)

theorem WF.place {B : BucketModel} (h : B.WF) {before after : List Block} {b : Block} {need : Nat}
    (hblocks : B.blocks = before ++ b :: after) (hfits : SplitFits b need) :
    (B.withBlocks (before ++ placeBlock b need ++ after)).WF := by
  have htiles := h.tiles
  rw [hblocks] at htiles
  rw [placeBlock] at *
  exact h.withBlocks (htiles.place hfits) (append_cons_ne_nil _ _ _ _)

theorem WF.release {B : BucketModel} (h : B.WF) {before after : List Block} {b : Block}
    (hblocks : B.blocks = before ++ b :: after) :
    (B.withBlocks (release before b after)).WF := by
  have htiles := h.tiles
  rw [hblocks] at htiles
  exact h.withBlocks htiles.release (release_ne_nil before b after)

end BucketModel

end FroggyOs
