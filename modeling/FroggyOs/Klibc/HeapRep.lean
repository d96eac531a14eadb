import FroggyOs.Klibc.HeapModel
import FroggyOs.Library.Chain

/-!
# Buckets in memory

`PebbleAt` says that a block's header lies in memory with the given links, and a bucket
is represented when its header fields and the chain of its pebbles are. A bucket owns
the bytes of its region except its two list links, so an operation inside one bucket
leaves every other bucket, and the list of buckets, alone.
-/

namespace FroggyOs

open ByteMemory Word64 LinkedChain

/-! ## Pebbles -/

def pebbleFlags (inUse : Bool) : Nat := if inUse then pebbleFlagInUse else pebbleFlagFree

/-- The header of `b` lies in memory, linked between `prev` and `next`. -/
structure PebbleAt (m : Mem) (parent : Nat) (b : Block) (prev next : Nat) : Prop where
  magic : m.get b.addr MemoryPebble.magic = kmallocMagicPebble
  lflags : m.get b.addr MemoryPebble.lflags = pebbleFlags b.inUse
  size : m.get b.addr MemoryPebble.size = b.size
  parent : m.get b.addr MemoryPebble.parent = parent
  prev : m.get b.addr MemoryPebble.prev = prev
  next : m.get b.addr MemoryPebble.next = next

/-- The memories agree on the `n` bytes from `a`. -/
abbrev SameBytes (m m' : Mem) (a n : Nat) : Prop := ∀ x, a ≤ x → x < a + n → m'.byte x = m.byte x

theorem SameBytes.get {m m' : Mem} {a n : Nat} (h : SameBytes m m' a n) {f : Field}
    (hf : f.offset + f.width ≤ n) : m'.get a f = m.get a f :=
  Mem.get_congr (n := n) (fun x hx => h x hx.1 hx.2) hf

namespace PebbleAt

variable {m m' : Mem} {parent prev next : Nat} {b : Block}

theorem isPebbleFree_iff (h : PebbleAt m parent b prev next) :
    isPebbleFree m b.addr = !b.inUse := by
  rw [isPebbleFree, h.lflags]
  cases b.inUse <;> rfl

/-- A header survives every change outside its 60 bytes. -/
theorem frame (h : PebbleAt m parent b prev next) (hsame : SameBytes m m' b.addr 60) :
    PebbleAt m' parent b prev next where
  magic := (hsame.get (by decide)).trans h.magic
  lflags := (hsame.get (by decide)).trans h.lflags
  size := (hsame.get (by decide)).trans h.size
  parent := (hsame.get (by decide)).trans h.parent
  prev := (hsame.get (by decide)).trans h.prev
  next := (hsame.get (by decide)).trans h.next

/-- A field written elsewhere does not matter. -/
theorem put_other (h : PebbleAt m parent b prev next) {q v : Nat} {f : Field}
    (hd : q + f.offset + f.width ≤ b.addr ∨ b.addr + 60 ≤ q + f.offset) :
    PebbleAt (m.put q f v) parent b prev next := by
  apply h.frame
  intro x hlow hhigh
  apply Mem.put_byte_outside
  omega

theorem put_lflags (h : PebbleAt m parent b prev next) (inUse : Bool) :
    PebbleAt (m.put b.addr MemoryPebble.lflags (pebbleFlags inUse)) parent
      { b with inUse } prev next where
  magic := (Mem.get_put_disjoint (by simp)).trans h.magic
  lflags := Mem.get_put_same (by cases inUse <;> decide)
  size := (Mem.get_put_disjoint (by simp)).trans h.size
  parent := (Mem.get_put_disjoint (by simp)).trans h.parent
  prev := (Mem.get_put_disjoint (by simp)).trans h.prev
  next := (Mem.get_put_disjoint (by simp)).trans h.next

theorem put_alignment (h : PebbleAt m parent b prev next) (v : Nat) :
    PebbleAt (m.put b.addr MemoryPebble.alignment v) parent b prev next where
  magic := (Mem.get_put_disjoint (by simp)).trans h.magic
  lflags := (Mem.get_put_disjoint (by simp)).trans h.lflags
  size := (Mem.get_put_disjoint (by simp)).trans h.size
  parent := (Mem.get_put_disjoint (by simp)).trans h.parent
  prev := (Mem.get_put_disjoint (by simp)).trans h.prev
  next := (Mem.get_put_disjoint (by simp)).trans h.next

theorem put_size (h : PebbleAt m parent b prev next) {v : Nat} (hv : v < 2 ^ 64) :
    PebbleAt (m.put b.addr MemoryPebble.size v) parent { b with size := v } prev next where
  magic := (Mem.get_put_disjoint (by simp)).trans h.magic
  lflags := (Mem.get_put_disjoint (by simp)).trans h.lflags
  size := Mem.get_put_same hv
  parent := (Mem.get_put_disjoint (by simp)).trans h.parent
  prev := (Mem.get_put_disjoint (by simp)).trans h.prev
  next := (Mem.get_put_disjoint (by simp)).trans h.next

theorem put_prev (h : PebbleAt m parent b prev next) {v : Nat} (hv : v < 2 ^ 64) :
    PebbleAt (m.put b.addr MemoryPebble.prev v) parent b v next where
  magic := (Mem.get_put_disjoint (by simp)).trans h.magic
  lflags := (Mem.get_put_disjoint (by simp)).trans h.lflags
  size := (Mem.get_put_disjoint (by simp)).trans h.size
  parent := (Mem.get_put_disjoint (by simp)).trans h.parent
  prev := Mem.get_put_same hv
  next := (Mem.get_put_disjoint (by simp)).trans h.next

theorem put_next (h : PebbleAt m parent b prev next) {v : Nat} (hv : v < 2 ^ 64) :
    PebbleAt (m.put b.addr MemoryPebble.next v) parent b prev v where
  magic := (Mem.get_put_disjoint (by simp)).trans h.magic
  lflags := (Mem.get_put_disjoint (by simp)).trans h.lflags
  size := (Mem.get_put_disjoint (by simp)).trans h.size
  parent := (Mem.get_put_disjoint (by simp)).trans h.parent
  prev := (Mem.get_put_disjoint (by simp)).trans h.prev
  next := Mem.get_put_same hv

/-- A header copied by `memcpy`. -/
theorem copy (h : PebbleAt m parent b prev next) {dest : Nat}
    (hd : b.addr + 60 ≤ dest ∨ dest + 60 ≤ b.addr) :
    PebbleAt (memcpy m dest b.addr MemoryPebble.sizeof) parent { b with addr := dest } prev
      next := by
  have hget : ∀ f : Field, f.offset + f.width ≤ 60 →
      (memcpy m dest b.addr MemoryPebble.sizeof).get dest f = m.get b.addr f :=
    fun f hf => memcpy_get hd hf
  exact ⟨(hget _ (by decide)).trans h.magic, (hget _ (by decide)).trans h.lflags,
    (hget _ (by decide)).trans h.size, (hget _ (by decide)).trans h.parent,
    (hget _ (by decide)).trans h.prev, (hget _ (by decide)).trans h.next⟩

end PebbleAt

/-! ## Chains of pebbles -/

section PebbleChain

variable {m m' : Mem} {parent prev next start stop : Nat} {xs : List Block}

abbrev PebbleChain (m : Mem) (parent prev : Nat) (xs : List Block) (next : Nat) : Prop :=
  Chain Block.addr (PebbleAt m parent) prev xs next

theorem PebbleChain.frame (h : PebbleChain m parent prev xs next) (htiles : Tiles start xs stop)
    (hsame : ∀ x, start ≤ x → x < stop → m'.byte x = m.byte x) :
    PebbleChain m' parent prev xs next := by
  refine Chain.mono (fun b hb p n hpebble => hpebble.frame fun x hlow hhigh => ?_) h
  have hbounds := htiles.bounds hb
  simp only [Block.stop] at hbounds
  exact hsame x (by omega) (by omega)

theorem PebbleChain.put_other (h : PebbleChain m parent prev xs next)
    (htiles : Tiles start xs stop) {q v : Nat} {f : Field}
    (hd : q + f.offset + f.width ≤ start ∨ stop ≤ q + f.offset) :
    PebbleChain (m.put q f v) parent prev xs next := by
  apply h.frame htiles
  intro x hlow hhigh
  apply Mem.put_byte_outside
  omega

/-- The assignment of the back link of the first pebble behind a changed one, if there
is such a pebble. -/
def relink (m : Mem) (next v : Nat) : Mem :=
  if next ≠ 0 then m.put next MemoryPebble.prev v else m

theorem PebbleChain.relink (h : PebbleChain m parent prev xs 0) (htiles : Tiles start xs stop)
    (hstart : start ≠ 0) {v : Nat} (hv : v < 2 ^ 64) :
    PebbleChain (FroggyOs.relink m (headAddr Block.addr xs 0) v) parent v xs 0 ∧
      ∀ x, x < start ∨ stop ≤ x →
        (FroggyOs.relink m (headAddr Block.addr xs 0) v).byte x = m.byte x := by
  cases xs with
  | nil => exact ⟨trivial, fun _ _ => rfl⟩
  | cons c rest =>
      obtain ⟨rfl, hrest⟩ := htiles
      obtain ⟨hpebble, hchain⟩ := h
      have hstop := hrest.le
      simp only [Block.stop] at hstop
      simp only [FroggyOs.relink, headAddr_cons, ne_eq, hstart, not_false_eq_true, if_true]
      refine ⟨⟨hpebble.put_prev hv, ?_⟩, ?_⟩
      · apply PebbleChain.put_other hchain hrest
        left
        simp [Block.stop]
        omega
      · intro x hx
        apply Mem.put_byte_outside
        simp
        omega

end PebbleChain

/-! ## One bucket -/

/-- The header fields of a bucket, except its lock and its links, and its pebbles. -/
structure BucketBody (m : Mem) (B : BucketModel) : Prop where
  size : m.get B.base MemoryBucket.size = B.pages
  largest : m.get B.base MemoryBucket.largestFree = B.largest
  first : m.get B.base MemoryBucket.first = B.base + 64
  pebbles : PebbleChain m B.base 0 B.blocks 0

/-- Only the cached maximum and the pebbles of the bucket change. -/
def ChangesOnly (B : BucketModel) (m m' : Mem) : Prop := ∀ x, ¬ B.Writes x → m'.byte x = m.byte x

theorem ChangesOnly.refl (B : BucketModel) (m : Mem) : ChangesOnly B m m := fun _ _ => rfl

theorem ChangesOnly.trans {B : BucketModel} {m₁ m₂ m₃ : Mem} (h₁ : ChangesOnly B m₁ m₂)
    (h₂ : ChangesOnly B m₂ m₃) : ChangesOnly B m₁ m₃ :=
  fun x hx => (h₂ x hx).trans (h₁ x hx)

theorem ChangesOnly.put_largest {B : BucketModel} (m : Mem) (v : Nat) :
    ChangesOnly B m (m.put B.base MemoryBucket.largestFree v) := by
  intro x hx
  apply Mem.put_byte_outside
  simp only [BucketModel.Writes, not_or] at hx
  simp only
  omega

/-- Changes between the bucket header and the end of the region. -/
theorem ChangesOnly.of_region {B : BucketModel} {m m' : Mem}
    (h : ∀ x, x < B.base + 64 ∨ B.stop ≤ x → m'.byte x = m.byte x) : ChangesOnly B m m' := by
  intro x hx
  apply h
  simp only [BucketModel.Writes, not_or] at hx
  omega

namespace BucketBody

variable {m m' : Mem} {B : BucketModel} {blocks : List Block}

/-- The header fields survive changes behind the header. -/
theorem of_pebbles (h : BucketBody m B) (hheader : SameBytes m m' B.base 48)
    (hpebbles : PebbleChain m' B.base 0 blocks 0) : BucketBody m' (B.withBlocks blocks) where
  size := (hheader.get (by decide)).trans h.size
  largest := (hheader.get (by decide)).trans h.largest
  first := (hheader.get (by decide)).trans h.first
  pebbles := hpebbles

/-- A bucket survives every change outside it. -/
theorem frame (h : BucketBody m B) (hwf : B.WF) (hsame : ∀ x, B.Owns x → m'.byte x = m.byte x) :
    BucketBody m' B := by
  refine h.of_pebbles (fun x hlow hhigh => hsame x (.inl ⟨hlow, hhigh⟩)) ?_
  exact h.pebbles.frame hwf.tiles fun x hlow hhigh => hsame x (.inr ⟨hlow, hhigh⟩)

end BucketBody

end FroggyOs
