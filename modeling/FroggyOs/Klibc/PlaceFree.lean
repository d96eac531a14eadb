import FroggyOs.Klibc.BucketContracts
import FroggyOs.Klibc.Sections

/-!
# Freeing undoes placing

A request placed in a bucket without free neighbours has pebbles in use on both sides, so
`melt_prev` finds nothing to merge with, and `absorb_next` takes back exactly what
`split_pebble` has split off. The pebbles in use may have more flags than
`PEBBLE_FLAG_IN_USE`; freeing leaves them as they are.

Between the two calls the memory differs from the first one around the block only: in its
own bytes, in the back link of the pebble behind it and in `largest_free`.
-/

namespace FroggyOs

open ByteMemory Word64 LinkedChain

attribute [local irreducible] bucketUpdateLargest

/-! ## Headers -/

/-- The flags, the size and the links in the header of a pebble. -/
structure PebbleHeader where
  lflags : Nat
  size : Nat
  parent : Nat
  prev : Nat
  next : Nat

namespace PebbleHeader

variable (h : PebbleHeader) (v w S q : Nat)

def withFlags (lflags : Nat) : PebbleHeader := { h with lflags }

/-- The header of the first part of a split, when the second one lies at `q`. -/
def cut (S q : Nat) : PebbleHeader := { h with size := S, next := q }

@[simp] theorem withFlags_lflags : (h.withFlags v).lflags = v := rfl

@[simp] theorem withFlags_size : (h.withFlags v).size = h.size := rfl

@[simp] theorem withFlags_parent : (h.withFlags v).parent = h.parent := rfl

@[simp] theorem withFlags_prev : (h.withFlags v).prev = h.prev := rfl

@[simp] theorem withFlags_next : (h.withFlags v).next = h.next := rfl

@[simp] theorem cut_lflags : (h.cut S q).lflags = h.lflags := rfl

@[simp] theorem cut_size : (h.cut S q).size = S := rfl

@[simp] theorem cut_parent : (h.cut S q).parent = h.parent := rfl

@[simp] theorem cut_prev : (h.cut S q).prev = h.prev := rfl

@[simp] theorem cut_next : (h.cut S q).next = q := rfl

@[simp] theorem withFlags_withFlags : (h.withFlags v).withFlags w = h.withFlags w := rfl

theorem withFlags_eq {h : PebbleHeader} {v : Nat} (hv : h.lflags = v) : h.withFlags v = h := by
  rw [← hv]
  rfl

/-- Merging the parts gives the header back. -/
theorem uncut {h : PebbleHeader} {v s n S q : Nat} (hflags : h.lflags = v) (hsize : h.size = s)
    (hnext : h.next = n) : { (h.cut S q).withFlags v with size := s, next := n } = h := by
  rw [← hflags, ← hsize, ← hnext]
  rfl

end PebbleHeader

def pebbleHeader (m : Mem) (p : Nat) : PebbleHeader where
  lflags := m.get p MemoryPebble.lflags
  size := m.get p MemoryPebble.size
  parent := m.get p MemoryPebble.parent
  prev := m.get p MemoryPebble.prev
  next := m.get p MemoryPebble.next

section Header

variable {m m' : Mem} {p q v : Nat} {f : Field} {header : PebbleHeader}

theorem get_lflags (h : pebbleHeader m p = header) :
    m.get p MemoryPebble.lflags = header.lflags := by
  rw [← h, pebbleHeader]

theorem get_size (h : pebbleHeader m p = header) :
    m.get p MemoryPebble.size = header.size := by
  rw [← h, pebbleHeader]

theorem get_prev (h : pebbleHeader m p = header) :
    m.get p MemoryPebble.prev = header.prev := by
  rw [← h, pebbleHeader]

theorem get_next (h : pebbleHeader m p = header) :
    m.get p MemoryPebble.next = header.next := by
  rw [← h, pebbleHeader]

theorem pebbleHeader_frame (hsame : SameBytes m m' p 60) :
    pebbleHeader m' p = pebbleHeader m p := by
  have hget : ∀ f : Field, f.offset + f.width ≤ 60 → m'.get p f = m.get p f :=
    fun f hf => hsame.get hf
  simp (disch := decide) only [pebbleHeader, hget]

theorem pebbleHeader_put_other (hd : q + f.offset + f.width ≤ p ∨ p + 60 ≤ q + f.offset) :
    pebbleHeader (m.put q f v) p = pebbleHeader m p := by
  apply pebbleHeader_frame
  intro x hlow hhigh
  apply Mem.put_byte_outside
  omega

theorem pebbleHeader_put_lflags (hv : v < 2 ^ 32) :
    pebbleHeader (m.put p MemoryPebble.lflags v) p = (pebbleHeader m p).withFlags v := by
  simp (disch := (simp; done)) only [pebbleHeader, PebbleHeader.withFlags, Mem.get_put_disjoint,
    Mem.get_put_same (f := MemoryPebble.lflags) hv]

theorem pebbleHeader_put_size (hv : v < 2 ^ 64) :
    pebbleHeader (m.put p MemoryPebble.size v) p = { pebbleHeader m p with size := v } := by
  simp (disch := (simp; done)) only [pebbleHeader, Mem.get_put_disjoint,
    Mem.get_put_same (f := MemoryPebble.size) hv]

theorem pebbleHeader_put_prev (hv : v < 2 ^ 64) :
    pebbleHeader (m.put p MemoryPebble.prev v) p = { pebbleHeader m p with prev := v } := by
  simp (disch := (simp; done)) only [pebbleHeader, Mem.get_put_disjoint,
    Mem.get_put_same (f := MemoryPebble.prev) hv]

theorem pebbleHeader_put_next (hv : v < 2 ^ 64) :
    pebbleHeader (m.put p MemoryPebble.next v) p = { pebbleHeader m p with next := v } := by
  simp (disch := (simp; done)) only [pebbleHeader, Mem.get_put_disjoint,
    Mem.get_put_same (f := MemoryPebble.next) hv]

theorem pebbleHeader_put_alignment :
    pebbleHeader (m.put p MemoryPebble.alignment v) p = pebbleHeader m p := by
  simp (disch := (simp; done)) only [pebbleHeader, Mem.get_put_disjoint]

/-- A header copied by `memcpy`. -/
theorem pebbleHeader_copy (hd : p + 60 ≤ q ∨ q + 60 ≤ p) :
    pebbleHeader (memcpy m q p MemoryPebble.sizeof) q = pebbleHeader m p := by
  have hget : ∀ f : Field, f.offset + f.width ≤ 60 →
      (memcpy m q p MemoryPebble.sizeof).get q f = m.get p f := fun f hf => memcpy_get hd hf
  simp (disch := decide) only [pebbleHeader, hget]

end Header

/-! ## Buckets -/

/-- The header of `b` lies in memory, linked between `prev` and `next`. A free pebble has no
flags, one in use may have others than `PEBBLE_FLAG_IN_USE`. -/
structure FlaggedAt (m : Mem) (parent : Nat) (b : Block) (prev next : Nat) : Prop where
  header : ∃ lflags, pebbleHeader m b.addr = ⟨lflags, b.size, parent, prev, next⟩
  free : isPebbleFree m b.addr = !b.inUse
  lflags : b.inUse = false → m.get b.addr MemoryPebble.lflags = pebbleFlagFree

/-- The bucket lies in memory, and its pebbles tile it exactly. -/
structure FlaggedBucket (m : Mem) (B : BucketModel) : Prop where
  wf : B.WF
  size : m.get B.base MemoryBucket.size = B.pages
  largest : m.get B.base MemoryBucket.largestFree = B.largest
  first : m.get B.base MemoryBucket.first = B.base + 64
  pebbles : Chain Block.addr (FlaggedAt m B.base) 0 B.blocks 0

/-- The list of the bucket's pebbles and its cached maximum are the same. -/
structure SameList (B : BucketModel) (m m' : Mem) : Prop where
  largest : m'.get B.base MemoryBucket.largestFree = m.get B.base MemoryBucket.largestFree
  first : m'.get B.base MemoryBucket.first = m.get B.base MemoryBucket.first
  pebbles : ∀ b ∈ B.blocks, pebbleHeader m' b.addr = pebbleHeader m b.addr

/-- What `kfree` does to a pebble under the lock. Returns the pebble that `melt_prev` has
returned. -/
def mergeFreed (m : Mem) (pebble : Nat) : Option (Nat × Mem) := do
  let m := m.put pebble MemoryPebble.lflags pebbleFlagFree
  let m := m.put pebble MemoryPebble.alignment 1
  let melted ← meltPrev m pebble
  let m ← absorbNext melted.2 melted.1
  some (melted.1, m)

/-- The steps of `kfree` on a pebble, without the lock and the test for an empty bucket. -/
def freeSteps (m : Mem) (pebble : Nat) : Option Mem := do
  let freed ← mergeFreed m pebble
  bucketUpdateLargest freed.2 (freed.2.get freed.1 MemoryPebble.parent)

/-- The locked section of `kfree` is these steps between taking and releasing the lock. -/
theorem freeSection_eq (m : Mem) (pebble : Nat) : freeSection m pebble =
    (acquireSpinlock m (bucketSpinlock (m.get pebble MemoryPebble.parent))).bind fun m =>
      (mergeFreed m pebble).bind fun freed => some (freed.1,
        releaseSpinlock freed.2 (bucketSpinlock (freed.2.get freed.1 MemoryPebble.parent))) := by
  rw [freeSection]
  simp only [mergeFreed, Option.bind_eq_bind, Option.bind_assoc, Option.bind_some]

/-- The other lemmas know pebbles in use without further flags only. -/
theorem TiledBucket.flagged {m : Mem} {B : BucketModel} (h : TiledBucket m B) :
    FlaggedBucket m B where
  wf := h.wf
  size := h.body.size
  largest := h.body.largest
  first := h.body.first
  pebbles := by
    refine Chain.mono (fun b _ prev next hb => ?_) h.body.pebbles
    refine ⟨⟨pebbleFlags b.inUse, ?_⟩, hb.isPebbleFree_iff, fun hfree => ?_⟩
    · rw [pebbleHeader, hb.lflags, hb.size, hb.parent, hb.prev, hb.next]
    · rw [hb.lflags, hfree]
      rfl

/-! ## Around one block -/

/-- Between placing and freeing `m'` differs from `m` around the block `b` only: `b` has the
header `header`, and the pebble behind it at `next` points back to `back`. -/
structure Around (m m' : Mem) (B : BucketModel) (b : Block) (next : Nat) (header : PebbleHeader)
    (back : Nat) : Prop where
  outside : ∀ x, x < B.base + 8 ∨ B.base + 16 ≤ x → x < b.addr ∨ b.stop ≤ x →
    next = 0 ∨ x < next + 44 ∨ next + 52 ≤ x → m'.byte x = m.byte x
  header : pebbleHeader m' b.addr = header
  back : next ≠ 0 → m'.get next MemoryPebble.prev = back

/-- Where the block and the pebble behind it lie in the bucket. -/
structure Between (B : BucketModel) (b : Block) (next : Nat) : Prop where
  low : B.base + 64 ≤ b.addr
  high : b.stop ≤ 2 ^ 64
  behind : next = 0 ∨ b.stop ≤ next ∧ next + 60 ≤ 2 ^ 64

section Around

variable {m m' : Mem} {B : BucketModel} {b t : Block} {next back v prev after : Nat}
  {header header' : PebbleHeader} {f : Field}

theorem Around.lflags (h : Around m m' B b next header back) :
    m'.get b.addr MemoryPebble.lflags = header.lflags := get_lflags h.header

theorem Around.size (h : Around m m' B b next header back) :
    m'.get b.addr MemoryPebble.size = header.size := get_size h.header

theorem Around.prevLink (h : Around m m' B b next header back) :
    m'.get b.addr MemoryPebble.prev = header.prev := get_prev h.header

theorem Around.nextLink (h : Around m m' B b next header back) :
    m'.get b.addr MemoryPebble.next = header.next := get_next h.header

theorem Around.put_largest (h : Around m m' B b next header back) (hat : Between B b next) :
    Around m (m'.put B.base MemoryBucket.largestFree v) B b next header back := by
  obtain ⟨hlow, -, hbehind⟩ := hat
  simp only [Block.stop] at hbehind
  refine ⟨fun x hx hb hnext => ?_, ?_, fun hne => ?_⟩
  · rw [Mem.put_byte_outside (by simp only; omega), h.outside x hx hb hnext]
  · rw [pebbleHeader_put_other (.inl (by simp only; omega)), h.header]
  · rw [Mem.get_put_disjoint (.inl (by simp only; omega)), h.back hne]

/-- A field of the block itself. -/
theorem Around.put_own (h : Around m m' B b next header back) (hat : Between B b next)
    (hf : f.offset + f.width ≤ 60)
    (hheader : pebbleHeader (m'.put b.addr f v) b.addr = header') :
    Around m (m'.put b.addr f v) B b next header' back := by
  obtain ⟨hlow, -, hbehind⟩ := hat
  simp only [Block.stop] at hbehind
  refine ⟨fun x hx hb hnext => ?_, hheader, fun hne => ?_⟩
  · simp only [Block.stop] at hb
    rw [Mem.put_byte_outside (by omega)]
    exact h.outside x hx hb hnext
  · rw [Mem.get_put_disjoint (.inl (by simp only; omega)), h.back hne]

/-- The back link of the pebble behind the block. -/
theorem Around.relink (h : Around m m' B b next header back) (hat : Between B b next)
    (hv : v < 2 ^ 64) : Around m (FroggyOs.relink m' next v) B b next header v := by
  obtain ⟨hlow, -, hbehind⟩ := hat
  simp only [Block.stop] at hbehind
  rw [FroggyOs.relink]
  split
  case isTrue hne =>
    refine ⟨fun x hx hb hnext => ?_, ?_, fun _ => Mem.get_put_same hv⟩
    · rw [Mem.put_byte_outside (by simp only; omega)]
      exact h.outside x hx hb hnext
    · rw [pebbleHeader_put_other (.inr (by simp only; omega)), h.header]
  case isFalse hzero => exact ⟨h.outside, h.header, fun hne => absurd hne hzero⟩

theorem PebbleWalk.congr (h : PebbleWalk m t prev after)
    (hflags : m'.get t.addr MemoryPebble.lflags = m.get t.addr MemoryPebble.lflags)
    (hsize : m'.get t.addr MemoryPebble.size = m.get t.addr MemoryPebble.size)
    (hnext : m'.get t.addr MemoryPebble.next = m.get t.addr MemoryPebble.next) :
    PebbleWalk m' t prev after where
  free := by
    rw [isPebbleFree, hflags]
    exact h.free
  size := hsize.trans h.size
  next := hnext.trans h.next

theorem PebbleWalk.of_header (h : PebbleWalk m t prev after)
    (hsame : pebbleHeader m' t.addr = pebbleHeader m t.addr) : PebbleWalk m' t prev after := by
  rw [pebbleHeader, pebbleHeader, PebbleHeader.mk.injEq] at hsame
  exact h.congr hsame.1 hsame.2.1 hsame.2.2.2.2

/-- A pebble whose header is not written. -/
theorem PebbleWalk.put_other (h : PebbleWalk m t prev after) {q : Nat}
    (hd : q + f.offset + f.width ≤ t.addr ∨ t.addr + 60 ≤ q + f.offset) :
    PebbleWalk (m.put q f v) t prev after :=
  h.of_header (pebbleHeader_put_other hd)

/-- The header that `split_pebble` writes is the one of the block but for its size and its
back link. -/
theorem newHeader_header {p q t : Nat} (hapart : p + 60 ≤ q) (hq : q + 60 ≤ 2 ^ 64)
    (ht : t < 2 ^ 64) : pebbleHeader (newHeader m p q t) q =
      { pebbleHeader m p with size := t, prev := p } := by
  rw [newHeader, pebbleHeader_put_prev (by omega), pebbleHeader_put_alignment,
    pebbleHeader_put_size ht, pebbleHeader_copy (.inl hapart)]

/-- A split writes the header of the second part into the payload of the block. -/
theorem splitPebble_around {need S q : Nat} (hat : Between B b next)
    (hheader : pebbleHeader m b.addr = header) (hsize : header.size = b.size)
    (hnext : header.next = next) (hback : next ≠ 0 → m.get next MemoryPebble.prev = b.addr)
    (hflags : header.lflags = pebbleFlagFree) (htest : splitPebbleTest b.size need)
    (hS : splitSize need = S) (hq : q = b.addr + 60 + S) (hfits : S + 60 ≤ b.size) :
    Around m (splitPebble m b.addr need) B b next (header.cut S q) q ∧
      PebbleWalk (splitPebble m b.addr need) ⟨q, b.size - S - 60, false⟩ b.addr next := by
  obtain ⟨hlow, hhigh, hbehind⟩ := id hat
  simp only [Block.stop] at hhigh hbehind
  obtain ⟨haddr, hrest⟩ := @splitSums b.addr b.size S hfits hhigh
  rw [← hq] at haddr
  have hsize' := congrArg PebbleHeader.size hheader
  have hnext' := congrArg PebbleHeader.next hheader
  rw [hsize] at hsize'
  rw [hnext] at hnext'
  rw [splitPebble_of_test hsize' htest hS haddr hnext' (by omega), hrest]
  -- the new header
  generalize hm₁ : newHeader m b.addr q (b.size - S - 60) = m₁
  have hbyte : ∀ x, x < q ∨ q + 60 ≤ x → m₁.byte x = m.byte x := by
    intro x hx
    rw [← hm₁]
    exact newHeader_byte_outside hx
  have hnew : pebbleHeader m₁ q = { header with size := b.size - S - 60, prev := b.addr } := by
    rw [← hm₁, newHeader_header (by omega) (by omega) (by omega), hheader]
  have h₁ : Around m m₁ B b next header b.addr := by
    refine ⟨fun x _ hb _ => hbyte x ?_, ?_, fun hne => ?_⟩
    · simp only [Block.stop] at hb
      omega
    · rw [pebbleHeader_frame fun x _ hx => hbyte x (by omega), hheader]
    · rw [← hback hne]
      exact SameBytes.get (n := 60) (fun x hx _ => hbyte x (by omega)) (by decide)
  have htail : PebbleWalk m₁ ⟨q, b.size - S - 60, false⟩ b.addr next := by
    refine ⟨?_, get_size hnew, (get_next hnew).trans hnext⟩
    have hlflags : m₁.get q MemoryPebble.lflags = pebbleFlagFree :=
      (get_lflags hnew).trans hflags
    rw [isPebbleFree, hlflags]
    rfl
  -- the back link behind it, then the size and the forward link of the first part
  have h₂ := h₁.relink hat (by omega : q < 2 ^ 64)
  have htail₂ : PebbleWalk (FroggyOs.relink m₁ next q) ⟨q, b.size - S - 60, false⟩ b.addr next := by
    rw [FroggyOs.relink]
    split
    case isTrue hne => exact htail.put_other (.inr (by simp only; omega))
    case isFalse => exact htail
  have h₃ := h₂.put_own hat (f := MemoryPebble.size) (v := S) (by decide)
    (by rw [pebbleHeader_put_size (by omega), h₂.header])
  have h₄ := h₃.put_own hat (f := MemoryPebble.next) (v := q) (by decide)
    (by rw [pebbleHeader_put_next (by omega), h₃.header])
  refine ⟨h₄, (htail₂.put_other (.inl ?_)).put_other (.inl ?_)⟩
  · simp only
    omega
  · simp only
    omega

/-- `absorb_next` on a free pebble `p` in front of a free pebble `q`. -/
theorem absorbNext_merge {p q s base : Nat} (hp : p ≠ 0) (hapart : p + 60 ≤ q)
    (hheader : pebbleHeader m p = header) (hfree : header.lflags = pebbleFlagFree)
    (hparent : header.parent = base) (hnext : header.next = q) (ht : t.addr = q)
    (htfree : t.inUse = false) (hwalk : PebbleWalk m t prev next)
    (hfirst : m.get base MemoryBucket.first ≠ q) (hbehind : next = 0 ∨ p + 60 ≤ next)
    (hsum : add64 header.size (add64 t.size MemoryPebble.sizeof) = s) :
    absorbNext m p = bucketUpdateLargest
      (FroggyOs.relink ((m.put p MemoryPebble.size s).put p MemoryPebble.next next) next p)
      base := by
  subst hheader ht
  simp only [pebbleHeader] at hfree hparent hnext hsum
  have hpfree : isPebbleFree m p = true := by
    rw [isPebbleFree, hfree]
    rfl
  have hqfree : isPebbleFree m t.addr = true := by
    rw [hwalk.free, htfree]
    rfl
  have hnextlt : next < 2 ^ 64 := by
    rw [← hwalk.next]
    exact Mem.get_lt m _ _
  have hqnext : (m.put p MemoryPebble.size s).get t.addr MemoryPebble.next = next :=
    (Mem.get_put_disjoint (.inl (by simp only; omega))).trans hwalk.next
  have hpnext : ((m.put p MemoryPebble.size s).put p MemoryPebble.next next).get p
      MemoryPebble.next = next := Mem.get_put_same hnextlt
  have hmerged : ((m.put p MemoryPebble.size s).put p MemoryPebble.next next).get p
      MemoryPebble.parent = base := by
    rw [Mem.get_put_disjoint (by simp), Mem.get_put_disjoint (by simp), hparent]
  have hparent' : (FroggyOs.relink ((m.put p MemoryPebble.size s).put p MemoryPebble.next next)
      next p).get p MemoryPebble.parent = base := by
    rw [FroggyOs.relink]
    split
    case isTrue => rw [Mem.get_put_disjoint (.inr (by simp only; omega)), hmerged]
    case isFalse => exact hmerged
  rw [FroggyOs.relink] at hparent'
  rw [absorbNext, hnext, if_pos ⟨⟨hp, by omega⟩, hpfree, hqfree⟩]
  simp only [hparent, hfirst, if_false, hnext, hwalk.size, hsum, hqnext, hpnext, hparent',
    FroggyOs.relink]

end Around

/-! ## The bucket around the block -/

section Bucket

variable {m m' : Mem} {B : BucketModel} {before after parts : List Block} {b c : Block}
  {next back need : Nat} {header : PebbleHeader}

theorem FlaggedAt.walk {parent prev : Nat} (h : FlaggedAt m parent b prev next) :
    PebbleWalk m b prev next := by
  obtain ⟨lflags, hheader⟩ := h.header
  exact ⟨h.free, get_size hheader, get_next hheader⟩

theorem FlaggedBucket.between (h : FlaggedBucket m B) (hblocks : B.blocks = before ++ b :: after) :
    Between B b (headAddr Block.addr after 0) := by
  have htiles := h.wf.tiles
  have hfits := h.wf.fits
  rw [hblocks] at htiles
  obtain ⟨hbefore, hafter⟩ := Tiles.middle_iff.mp htiles
  have hstop := hafter.le
  refine ⟨hbefore.le, by omega, ?_⟩
  cases after with
  | nil => exact .inl rfl
  | cons c rest =>
      have hrest := hafter.2.le
      have hc := hafter.1
      simp only [Block.stop] at hrest
      rw [headAddr_cons]
      omega

/-- The pebble behind points back to the block. -/
theorem FlaggedBucket.backLink (h : FlaggedBucket m B) (hblocks : B.blocks = before ++ b :: after)
    (hne : headAddr Block.addr after 0 ≠ 0) :
    m.get (headAddr Block.addr after 0) MemoryPebble.prev = b.addr := by
  obtain ⟨-, -, hafter⟩ := Chain.middle_iff.mp (hblocks ▸ h.pebbles)
  cases after with
  | nil => exact absurd rfl hne
  | cons c rest =>
      obtain ⟨_, hheader⟩ := hafter.1.header
      exact get_prev hheader

/-- The headers in front of the block are the same. -/
theorem Around.inFront (h : Around m m' B b next header back) (hat : Between B b next)
    (htiles : Tiles (B.base + 64) before b.addr) (hc : c ∈ before) :
    pebbleHeader m' c.addr = pebbleHeader m c.addr := by
  have hbounds := htiles.bounds hc
  have hbehind := hat.behind
  simp only [Block.stop] at hbounds hbehind
  refine pebbleHeader_frame fun x hlow hhigh => h.outside x ?_ ?_ ?_ <;> omega

/-- The fields behind the block are the same, but for one back link. -/
theorem Around.behind {stop : Nat} {f : Field}
    (h : Around m m' B b (headAddr Block.addr after 0) header back)
    (hlow : B.base + 64 ≤ b.addr) (htiles : Tiles b.stop after stop) (hc : c ∈ after)
    (hf : f.offset + f.width ≤ 44 ∨ 52 ≤ f.offset ∧ f.offset + f.width ≤ 60 ∨
      c.addr ≠ headAddr Block.addr after 0 ∧ f.offset + f.width ≤ 60) :
    m'.get c.addr f = m.get c.addr f := by
  have hbounds := htiles.bounds hc
  have hplace : c.addr = headAddr Block.addr after 0 ∨
      headAddr Block.addr after 0 + 60 ≤ c.addr := by
    cases after with
    | nil => cases hc
    | cons a rest =>
        obtain rfl | hc := List.mem_cons.mp hc
        · exact .inl rfl
        · have hrest := (htiles.2.bounds hc).1
          simp only [Block.stop] at hrest
          rw [headAddr_cons]
          omega
  apply Mem.load_eq_of_bytes
  intro i hi
  simp only [Block.stop] at hbounds
  refine h.outside _ ?_ ?_ ?_
  · omega
  · simp only [Block.stop]
    omega
  · omega

/-- The links the walk does not follow do not matter. -/
theorem WalkChain.reprev {prev : Nat} {xs : List Block} (h : WalkChain m prev xs next)
    (prev' : Nat) : WalkChain m prev' xs next := by
  cases xs with
  | nil => trivial
  | cons c rest =>
      obtain ⟨hc, hrest⟩ := h
      exact ⟨⟨hc.free, hc.size, hc.next⟩, hrest⟩

/-- A walk in `m'` meets the parts of the block between the other pebbles. -/
theorem Around.walk (h : FlaggedBucket m B) (hblocks : B.blocks = before ++ b :: after)
    (haround : Around m m' B b (headAddr Block.addr after 0) header back)
    (hparts : WalkChain m' 0 parts (headAddr Block.addr after 0))
    (hhead : headAddr Block.addr parts (headAddr Block.addr after 0) = b.addr) :
    WalkChain m' 0 (before ++ parts ++ after) 0 := by
  have hat := h.between hblocks
  obtain ⟨hbefore, -, hafter⟩ := Chain.middle_iff.mp (hblocks ▸ h.pebbles)
  have htiles := h.wf.tiles
  rw [hblocks] at htiles
  obtain ⟨htilesB, htilesA⟩ := Tiles.middle_iff.mp htiles
  have hfront : WalkChain m' 0 before b.addr := by
    refine Chain.mono (fun c hc p n hflagged => ?_) hbefore
    have hsame := haround.inFront hat htilesB hc
    exact hflagged.walk.of_header hsame
  have hback : WalkChain m' b.addr after 0 := by
    refine Chain.mono (fun c hc p n hflagged => ?_) hafter
    have hsame := fun f hf => haround.behind (f := f) hat.low htilesA hc hf
    exact hflagged.walk.congr (hsame _ (.inl (by decide))) (hsame _ (.inl (by decide)))
      (hsame _ (.inr (.inl (by decide))))
  rw [List.append_assoc]
  refine Chain.append_iff.mpr ⟨?_, Chain.append_iff.mpr ⟨hparts.reprev _, hback.reprev _⟩⟩
  rw [headAddr_append, hhead]
  exact hfront

/-- With the block as it was, so are all headers. -/
theorem Around.restored (h : FlaggedBucket m B) (hblocks : B.blocks = before ++ b :: after)
    (haround : Around m m' B b (headAddr Block.addr after 0) (pebbleHeader m b.addr) b.addr) :
    ∀ c ∈ B.blocks, pebbleHeader m' c.addr = pebbleHeader m c.addr := by
  have hat := h.between hblocks
  have htiles := h.wf.tiles
  rw [hblocks] at htiles ⊢
  obtain ⟨htilesB, htilesA⟩ := Tiles.middle_iff.mp htiles
  intro c hc
  obtain hc | hc := List.mem_append.mp hc
  · exact haround.inFront hat htilesB hc
  · obtain rfl | hc := List.mem_cons.mp hc
    · exact haround.header
    · have hsame := fun f hf => haround.behind (f := f) hat.low htilesA hc hf
      have hprev : m'.get c.addr MemoryPebble.prev = m.get c.addr MemoryPebble.prev := by
        by_cases hhead : c.addr = headAddr Block.addr after 0
        · have hne : headAddr Block.addr after 0 ≠ 0 := by
            have hbounds := htilesA.bounds hc
            simp only [Block.stop] at hbounds
            omega
          rw [hhead, haround.back hne, h.backLink hblocks hne]
        · exact hsame _ (.inr (.inr ⟨hhead, by decide⟩))
      rw [pebbleHeader, pebbleHeader, hsame _ (.inl (by decide)), hsame _ (.inl (by decide)),
        hsame _ (.inl (by decide)), hprev, hsame _ (.inr (.inl (by decide)))]

/-- The bucket header in front of the block is the same, but for the cached maximum. -/
theorem Around.base {f : Field} (haround : Around m m' B b next header back)
    (hat : Between B b next) (hf : 16 ≤ f.offset ∧ f.offset + f.width ≤ 64) :
    m'.get B.base f = m.get B.base f := by
  obtain ⟨hlow, -, hbehind⟩ := hat
  simp only [Block.stop] at hbehind
  apply Mem.load_eq_of_bytes
  intro i hi
  refine haround.outside _ ?_ ?_ ?_ <;> omega

theorem FlaggedBucket.of_same (h : FlaggedBucket m B) (hsame : SameList B m m')
    (hsize : m'.get B.base MemoryBucket.size = m.get B.base MemoryBucket.size) :
    FlaggedBucket m' B where
  wf := h.wf
  size := hsize.trans h.size
  largest := hsame.largest.trans h.largest
  first := hsame.first.trans h.first
  pebbles := by
    refine Chain.mono (fun c hc prev next hflagged => ?_) h.pebbles
    have hheader := hsame.pebbles c hc
    have hlflags : m'.get c.addr MemoryPebble.lflags = m.get c.addr MemoryPebble.lflags :=
      congrArg PebbleHeader.lflags hheader
    refine ⟨?_, (hflagged.walk.of_header hheader).free, fun hfree => ?_⟩
    · rw [hheader]
      exact hflagged.header
    · rw [hlflags, hflagged.lflags hfree]

end Bucket

/-! ## Placing -/

/-- The block `b` holds a request for `need` bytes: whole, or cut in two with a free part `t`
behind it. Its flags are `lflags`. -/
inductive Holds (m m' : Mem) (B : BucketModel) (b : Block) (need next lflags : Nat) : Prop
  | whole : splitTail b need = [] → splitHead b need = b →
      Around m m' B b next ((pebbleHeader m b.addr).withFlags lflags) b.addr →
      Holds m m' B b need next lflags
  | cut (t : Block) : splitTail b need = [t] → t.inUse = false →
      t.addr = (splitHead b need).stop → (splitHead b need).size + 60 + t.size = b.size →
      Around m m' B b next
        (((pebbleHeader m b.addr).cut (splitHead b need).size t.addr).withFlags lflags) t.addr →
      PebbleWalk m' t b.addr next → Holds m m' B b need next lflags

section Place

variable {m m' : Mem} {B : BucketModel} {before after : List Block} {b : Block}
  {next need lflags v : Nat}

/-- A field that lies in front of the free part of a cut block leaves its header alone. -/
theorem PebbleWalk.put_front {t : Block} {prev p : Nat} {f : Field}
    (h : PebbleWalk m' t prev next) (ht : t.addr = (splitHead b need).stop)
    (hp : p + f.offset + f.width ≤ b.addr + 60) : PebbleWalk (m'.put p f v) t prev next := by
  apply h.put_other
  left
  rw [ht, Block.stop, splitHead_addr]
  omega

theorem Holds.put_largest (h : Holds m m' B b need next lflags) (hat : Between B b next) :
    Holds m (m'.put B.base MemoryBucket.largestFree v) B b need next lflags := by
  cases h with
  | whole htail hhead haround => exact .whole htail hhead (haround.put_largest hat)
  | cut t htail hfree ht hsize haround hwalk =>
      have hlow := hat.low
      refine .cut t htail hfree ht hsize (haround.put_largest hat) (hwalk.put_front ht ?_)
      simp only
      omega

theorem Holds.put_lflags (h : Holds m m' B b need next lflags) (hat : Between B b next)
    (hv : v < 2 ^ 32) : Holds m (m'.put b.addr MemoryPebble.lflags v) B b need next v := by
  cases h with
  | whole htail hhead haround =>
      exact .whole htail hhead (haround.put_own hat (by decide)
        (by rw [pebbleHeader_put_lflags hv, haround.header, PebbleHeader.withFlags_withFlags]))
  | cut t htail hfree ht hsize haround hwalk =>
      exact .cut t htail hfree ht hsize (haround.put_own hat (by decide)
        (by rw [pebbleHeader_put_lflags hv, haround.header, PebbleHeader.withFlags_withFlags]))
        (hwalk.put_front ht (by simp))

theorem Holds.put_alignment (h : Holds m m' B b need next lflags) (hat : Between B b next) :
    Holds m (m'.put b.addr MemoryPebble.alignment v) B b need next lflags := by
  cases h with
  | whole htail hhead haround =>
      exact .whole htail hhead (haround.put_own hat (by decide)
        (by rw [pebbleHeader_put_alignment, haround.header]))
  | cut t htail hfree ht hsize haround hwalk =>
      exact .cut t htail hfree ht hsize (haround.put_own hat (by decide)
        (by rw [pebbleHeader_put_alignment, haround.header])) (hwalk.put_front ht (by simp))

/-- What `place_pebble` has done when it returns a pebble. -/
theorem FlaggedBucket.placePebble_cases {p : Nat} {m₁ : Mem} (h : FlaggedBucket m B)
    (hplace : placePebble m B.base need lflags = some (p, m₁)) (hp : p ≠ 0) :
    ∃ before b after, B.blocks = before ++ b :: after ∧ fits need b = true ∧ p = b.addr ∧
      m₁ = (splitPebble m b.addr need).put b.addr MemoryPebble.lflags lflags := by
  have hwalk : WalkChain m 0 B.blocks 0 := Chain.mono (fun _ _ _ _ hc => hc.walk) h.pebbles
  obtain ⟨a, hsearch, hcases⟩ := searchPebbles_walk need h.first hwalk h.wf
  rw [placePebble, hsearch] at hplace
  simp only [Option.bind_eq_bind, Option.bind_some] at hplace
  split at hplace
  case isTrue =>
    cases hplace
    exact absurd rfl hp
  case isFalse hne =>
    obtain ⟨-, rfl⟩ | ⟨before, b, after, hblocks, hfits, rfl, -⟩ := hcases
    · exact absurd rfl hne
    · cases hplace
      exact ⟨before, b, after, hblocks, hfits, rfl, rfl⟩

theorem FlaggedBucket.split (h : FlaggedBucket m B) (hblocks : B.blocks = before ++ b :: after)
    (hfree : b.inUse = false) (hfits : SplitFits b need) :
    Holds m (splitPebble m b.addr need) B b need (headAddr Block.addr after 0)
      pebbleFlagFree := by
  have hat := h.between hblocks
  obtain ⟨-, hflagged, -⟩ := Chain.middle_iff.mp (hblocks ▸ h.pebbles)
  obtain ⟨lflags, hheader⟩ := hflagged.header
  have hflags : (pebbleHeader m b.addr).lflags = pebbleFlagFree := hflagged.lflags hfree
  have hsize : (pebbleHeader m b.addr).size = b.size := congrArg PebbleHeader.size hheader
  have hnext : (pebbleHeader m b.addr).next = _ := congrArg PebbleHeader.next hheader
  by_cases htest : splitPebbleTest b.size need
  · obtain ⟨haround, hwalk⟩ := splitPebble_around hat rfl hsize hnext (h.backLink hblocks) hflags
      htest rfl rfl (hfits htest)
    have hhead : splitHead b need = { b with size := splitSize need } := by
      rw [splitHead, if_pos htest]
    have htail : splitTail b need =
        [⟨b.addr + 60 + splitSize need, b.size - splitSize need - 60, false⟩] := by
      rw [splitTail, if_pos htest, hfree]
    have hroom := hfits htest
    refine .cut _ htail rfl ?_ ?_ ?_ hwalk
    · rw [hhead, Block.stop]
    · rw [hhead]
      simp only
      omega
    · rw [PebbleHeader.withFlags_eq (by exact hflags), hhead]
      exact haround
  · refine .whole (by rw [splitTail, if_neg htest]) (by rw [splitHead, if_neg htest]) ?_
    rw [PebbleHeader.withFlags_eq hflags, splitPebble_of_not hsize htest]
    exact ⟨fun _ _ _ _ => rfl, rfl, h.backLink hblocks⟩

/-- While the request is held, a walk meets the parts of the block. -/
theorem Holds.walk (h : FlaggedBucket m B) (hblocks : B.blocks = before ++ b :: after)
    (hholds : Holds m m' B b need (headAddr Block.addr after 0) pebbleFlagInUse) :
    WalkChain m' 0 (before ++ placeBlock b need ++ after) 0 := by
  obtain ⟨-, hflagged, -⟩ := Chain.middle_iff.mp (hblocks ▸ h.pebbles)
  have hb := hflagged.walk
  have hused : m'.get b.addr MemoryPebble.lflags = pebbleFlagInUse →
      isPebbleFree m' b.addr = false := by
    intro hlflags
    rw [isPebbleFree, hlflags]
    rfl
  cases hholds with
  | whole htail hhead haround =>
      have hfirst := hused haround.lflags
      rw [placeBlock, htail, hhead]
      refine haround.walk h hblocks ⟨⟨hfirst, ?_, ?_⟩, trivial⟩ rfl
      · exact (haround.size.trans (PebbleHeader.withFlags_size _ _)).trans hb.size
      · exact (haround.nextLink.trans (PebbleHeader.withFlags_next _ _)).trans hb.next
  | cut t htail hfree ht hsize haround hwalk =>
      have hfirst := hused haround.lflags
      rw [placeBlock, htail]
      refine haround.walk h hblocks ⟨⟨?_, ?_, ?_⟩, ⟨hwalk.free, hwalk.size, hwalk.next⟩, trivial⟩ ?_
      · rw [Block.use_addr, splitHead_addr, hfirst]
        rfl
      · rw [Block.use_addr, splitHead_addr, Block.use_size, haround.size,
          PebbleHeader.withFlags_size, PebbleHeader.cut_size]
      · rw [Block.use_addr, splitHead_addr, haround.nextLink, PebbleHeader.withFlags_next,
          PebbleHeader.cut_next]
        rfl
      · rw [headAddr_cons, Block.use_addr, splitHead_addr]

end Place

/-! ## Freeing -/

section Free

variable {m m' : Mem} {B : BucketModel} {before after : List Block} {b : Block}
  {next need back v : Nat} {header : PebbleHeader}

/-- `melt_prev` finds no free neighbour. -/
theorem meltPrev_around (h : FlaggedBucket m B) (hblocks : B.blocks = before ++ b :: after)
    (hused : ∀ a ∈ before.getLast?, a.inUse = true)
    (haround : Around m m' B b (headAddr Block.addr after 0) header back)
    (hprev : header.prev = lastAddr Block.addr 0 before) :
    meltPrev m' b.addr = some (b.addr, m') := by
  have hlink := haround.prevLink.trans hprev
  obtain rfl | ⟨front, a, rfl⟩ := List.eq_nil_or_concat' before
  · rw [meltPrev, hlink, if_neg (by simp)]
  · have hat := h.between hblocks
    have htiles := h.wf.tiles
    rw [hblocks] at htiles
    have hsame := haround.inFront hat (Tiles.middle_iff.mp htiles).1 (c := a) (by simp)
    obtain ⟨hbefore, -, -⟩ := Chain.middle_iff.mp (hblocks ▸ h.pebbles)
    have ha := (Chain.middle_iff.mp hbefore).2.1.walk.of_header hsame
    rw [lastAddr_append, lastAddr_cons, lastAddr_nil] at hlink
    rw [meltPrev, hlink, ha.free, hused a (by simp), if_neg (by simp)]

/-- `absorb_next` finds no free neighbour behind a block that is whole. -/
theorem absorbNext_whole (h : FlaggedBucket m B) (hblocks : B.blocks = before ++ b :: after)
    (hused : ∀ c ∈ after.head?, c.inUse = true)
    (haround : Around m m' B b (headAddr Block.addr after 0) header back)
    (hnext : header.next = headAddr Block.addr after 0) : absorbNext m' b.addr = some m' := by
  have hlink := haround.nextLink.trans hnext
  cases after with
  | nil => rw [absorbNext, hlink, if_neg (by simp)]
  | cons c rest =>
      have hat := h.between hblocks
      have htiles := h.wf.tiles
      rw [hblocks] at htiles
      have hsame := fun f hf => haround.behind (f := f) hat.low (Tiles.middle_iff.mp htiles).2
        (c := c) (by simp) hf
      obtain ⟨-, -, hafter⟩ := Chain.middle_iff.mp (hblocks ▸ h.pebbles)
      have hc := hafter.1.walk.congr (hsame _ (.inl (by decide))) (hsame _ (.inl (by decide)))
        (hsame _ (.inr (.inl (by decide))))
      rw [headAddr_cons] at hlink
      rw [absorbNext, hlink, hc.free, hused c (by simp), if_neg (by simp)]

/-- With the block as it was, `bucket_update_largest` computes the old maximum. -/
theorem Around.updateLargest (h : FlaggedBucket m B) (hblocks : B.blocks = before ++ b :: after)
    (haround : Around m m' B b (headAddr Block.addr after 0) (pebbleHeader m b.addr) b.addr) :
    bucketUpdateLargest m' B.base =
      some (m'.put B.base MemoryBucket.largestFree (maxSize B.blocks 0)) := by
  have hat := h.between hblocks
  obtain ⟨-, hflagged, -⟩ := Chain.middle_iff.mp (hblocks ▸ h.pebbles)
  have hb := hflagged.walk.of_header haround.header
  have hwalk : WalkChain m' 0 (before ++ [b] ++ after) 0 :=
    haround.walk h hblocks ⟨⟨hb.free, hb.size, hb.next⟩, trivial⟩ rfl
  rw [List.append_assoc, List.singleton_append, ← hblocks] at hwalk
  exact bucketUpdateLargest_walk ((haround.base hat (by decide)).trans h.first) hwalk h.wf

/-- `absorb_next` takes back what `split_pebble` has split off. -/
theorem Holds.absorb (h : FlaggedBucket m B) (hblocks : B.blocks = before ++ b :: after)
    (hfree : b.inUse = false) (hused : ∀ c ∈ after.head?, c.inUse = true)
    (hholds : Holds m m' B b need (headAddr Block.addr after 0) pebbleFlagFree) :
    ∃ m'', absorbNext m' b.addr = some m'' ∧
      Around m m'' B b (headAddr Block.addr after 0) (pebbleHeader m b.addr) b.addr := by
  have hat := h.between hblocks
  obtain ⟨-, hflagged, -⟩ := Chain.middle_iff.mp (hblocks ▸ h.pebbles)
  obtain ⟨lflags, hheader⟩ := hflagged.header
  have hflags : (pebbleHeader m b.addr).lflags = pebbleFlagFree := hflagged.lflags hfree
  have hsize : (pebbleHeader m b.addr).size = b.size := congrArg PebbleHeader.size hheader
  have hparent : (pebbleHeader m b.addr).parent = B.base := congrArg PebbleHeader.parent hheader
  have hnext : (pebbleHeader m b.addr).next = headAddr Block.addr after 0 :=
    congrArg PebbleHeader.next hheader
  have hbounds := h.wf.block_bounds (b := b) (by simp [hblocks])
  have hword := h.wf.fits
  cases hholds with
  | whole htail hhead haround =>
      rw [PebbleHeader.withFlags_eq hflags] at haround
      exact ⟨m', absorbNext_whole h hblocks hused haround hnext, haround⟩
  | cut t htail htfree ht hsum haround hwalk =>
      have hfirst := (haround.base hat (f := MemoryBucket.first) (by decide)).trans h.first
      have htaddr : t.addr = b.addr + 60 + (splitHead b need).size := by
        rw [ht, Block.stop, splitHead_addr]
      obtain ⟨S, hS⟩ : ∃ S, (splitHead b need).size = S := ⟨_, rfl⟩
      rw [hS] at haround hsum htaddr
      have hmerged : add64 S (add64 t.size MemoryPebble.sizeof) = b.size := by
        have hinner : add64 t.size MemoryPebble.sizeof = t.size + 60 :=
          add64_eq (a := t.size) (b := 60) (by omega)
        rw [hinner, add64_eq (by omega)]
        omega
      have hbehind : headAddr Block.addr after 0 = 0 ∨
          b.addr + 60 ≤ headAddr Block.addr after 0 := by
        have hplace := hat.behind
        simp only [Block.stop] at hplace
        omega
      have hnextlt : headAddr Block.addr after 0 < 2 ^ 64 := by
        rw [← hwalk.next]
        exact Mem.get_lt m' _ _
      obtain ⟨H, hH⟩ : ∃ H, pebbleHeader m b.addr = H := ⟨_, rfl⟩
      rw [hH] at hflags hsize hparent hnext haround ⊢
      have hcall := absorbNext_merge (q := t.addr) (s := b.size) (by omega) (by omega)
        haround.header rfl hparent rfl rfl htfree hwalk (by rw [hfirst]; omega) hbehind hmerged
      have h₁ := haround.put_own hat (f := MemoryPebble.size) (v := b.size) (by decide)
        (by rw [pebbleHeader_put_size (by omega), haround.header])
      have h₂ := h₁.put_own hat (f := MemoryPebble.next) (v := headAddr Block.addr after 0)
        (by decide) (by rw [pebbleHeader_put_next hnextlt, h₁.header,
          PebbleHeader.uncut hflags hsize hnext])
      have h₃ := h₂.relink hat (v := b.addr) (by omega)
      rw [← hH] at h₃ ⊢
      exact ⟨_, hcall.trans (h₃.updateLargest h hblocks), h₃.put_largest hat⟩

theorem Holds.around (hholds : Holds m m' B b need next v) :
    ∃ header back, Around m m' B b next header back ∧
      header.prev = (pebbleHeader m b.addr).prev := by
  cases hholds with
  | whole htail hhead haround => exact ⟨_, _, haround, PebbleHeader.withFlags_prev _ _⟩
  | cut t htail hfree ht hsize haround hwalk =>
      exact ⟨_, _, haround,
        (PebbleHeader.withFlags_prev _ _).trans (PebbleHeader.cut_prev _ _ _)⟩

/-- The first maximum, computed with the request in place. -/
theorem Holds.updateLargest (h : FlaggedBucket m B) (hblocks : B.blocks = before ++ b :: after)
    (hfits : SplitFits b need)
    (hholds : Holds m m' B b need (headAddr Block.addr after 0) pebbleFlagInUse) :
    ∃ largest, bucketUpdateLargest m' B.base =
      some (m'.put B.base MemoryBucket.largestFree largest) := by
  obtain ⟨header, back, haround, -⟩ := hholds.around
  have hfirst := (haround.base (h.between hblocks) (f := MemoryBucket.first) (by decide)).trans
    h.first
  exact ⟨_, bucketUpdateLargest_walk (B := B.withBlocks (before ++ placeBlock b need ++ after))
    hfirst (hholds.walk h hblocks) (h.wf.place hblocks hfits)⟩

/-- The steps of `kfree` on a block that holds a request between pebbles in use. -/
theorem Holds.free (h : FlaggedBucket m B) (hblocks : B.blocks = before ++ b :: after)
    (hfree : b.inUse = false) (hbefore : ∀ a ∈ before.getLast?, a.inUse = true)
    (hafter : ∀ c ∈ after.head?, c.inUse = true)
    (hholds : Holds m m' B b need (headAddr Block.addr after 0) v) :
    ∃ m'', freeSteps m' b.addr = some m'' ∧
      Around m m'' B b (headAddr Block.addr after 0) (pebbleHeader m b.addr) b.addr ∧
      m''.get B.base MemoryBucket.largestFree = maxSize B.blocks 0 := by
  have hat := h.between hblocks
  obtain ⟨-, hflagged, -⟩ := Chain.middle_iff.mp (hblocks ▸ h.pebbles)
  obtain ⟨lflags, hheader⟩ := hflagged.header
  have hfreed := (hholds.put_lflags hat (v := pebbleFlagFree) (by decide)).put_alignment hat
    (v := 1)
  obtain ⟨header, back, hmarked, hprev⟩ := hfreed.around
  have hmelt := meltPrev_around h hblocks hbefore hmarked
    (hprev.trans (congrArg PebbleHeader.prev hheader))
  obtain ⟨m₁, habsorb, haround⟩ := hfreed.absorb h hblocks hfree hafter
  have hparent : m₁.get b.addr MemoryPebble.parent = B.base :=
    (congrArg PebbleHeader.parent haround.header).trans (congrArg PebbleHeader.parent hheader)
  have hupdate := haround.updateLargest h hblocks
  refine ⟨_, ?_, haround.put_largest hat, Mem.get_put_same h.wf.maxSize_lt⟩
  rw [freeSteps, mergeFreed]
  simp only [Option.bind_eq_bind, hmelt, Option.bind_some, habsorb, hparent, hupdate]

end Free

/-- Freeing a pebble that has just been placed restores the list of pebbles and the cached
maximum. -/
theorem free_undoes_place {m m₁ : Mem} {B : BucketModel} {need p : Nat} (h : FlaggedBucket m B)
    (hcoalesced : Coalesced B.blocks) (hexact : B.Exact) (haligned : need % 64 = 0)
    (hplace : placePebble m B.base need (0 ||| pebbleFlagInUse) = some (p, m₁)) (hp : p ≠ 0) :
    ∃ m₂ m₃, bucketUpdateLargest m₁ B.base = some m₂ ∧ freeSteps m₂ p = some m₃ ∧
      FlaggedBucket m₃ B ∧ SameList B m m₃ := by
  obtain ⟨before, b, after, hblocks, hfits, rfl, rfl⟩ := h.placePebble_cases hplace hp
  have hsplit := splitFits_of_fits h.wf haligned (b := b) (by simp [hblocks]) hfits
  have hfree : b.inUse = false := by
    simp only [fits, Bool.and_eq_true, Bool.not_eq_true'] at hfits
    exact hfits.1
  have hat := h.between hblocks
  rw [hblocks] at hcoalesced
  obtain ⟨-, -, hbefore, hafter⟩ := Coalesced.middle_iff.mp hcoalesced
  have hplaced := (h.split hblocks hfree hsplit).put_lflags hat (v := 0 ||| pebbleFlagInUse)
    (by decide)
  obtain ⟨largest, hupdate⟩ := hplaced.updateLargest h hblocks hsplit
  obtain ⟨m₃, hsteps, haround, hlargest⟩ := (hplaced.put_largest hat (v := largest)).free h hblocks
    hfree (fun a ha => (hbefore a ha).resolve_right (by simp [hfree]))
    (fun c hc => (hafter c hc).resolve_left (by simp [hfree]))
  have hsame : SameList B m m₃ := by
    refine ⟨?_, haround.base hat (by decide), haround.restored h hblocks⟩
    rw [hlargest, h.largest, hexact]
  exact ⟨_, m₃, hupdate, hsteps, h.of_same hsame (haround.base hat (by decide)), hsame⟩

/-- 64 bytes split off the free pebble behind one in use, and freed again. -/
theorem free_undoes_place_bootHeap : ∃ (m : Mem) (B : BucketModel) (p : Nat) (m₁ m₂ m₃ : Mem),
    B.blocks = [⟨0x10040, 65536, true⟩, ⟨0x2007c, 3912, false⟩] ∧
      placePebble m B.base 64 (0 ||| pebbleFlagInUse) = some (p, m₁) ∧ p ≠ 0 ∧
      bucketUpdateLargest m₁ B.base = some m₂ ∧ freeSteps m₂ p = some m₃ ∧ SameList B m m₃ := by
  obtain ⟨m, B, htiled, -, hexact, hblocks⟩ := exists_twoPebbles
  have hfree : ⟨0x2007c, 3912, false⟩ ∈ B.blocks := by simp [hblocks]
  have hroom : fits 64 ⟨0x2007c, 3912, false⟩ = true := by decide
  obtain ⟨before, b, after, m₁, hsplit, -, hplace, -⟩ :=
    placePebble_of_fits htiled.body htiled.wf hfree hroom
      fun b hb hfits => splitFits_of_fits htiled.wf (by decide) hb hfits
  have hp := htiled.wf.addr_ne_zero b (by simp [hsplit])
  obtain ⟨m₂, m₃, hupdate, hsteps, -, hsame⟩ := free_undoes_place htiled.flagged
    (by simp [Coalesced, hblocks]) hexact (by decide) hplace hp
  exact ⟨m, B, b.addr, m₁, m₂, m₃, hblocks, hplace, hp, hupdate, hsteps, hsame⟩

end FroggyOs
