import FroggyOs.Klibc.NewBucket

/-!
# The first allocation (`kernel_init`)

`kernel_init` tries the heap out: it allocates 8 bytes, writes a number to them and frees them.
The pebble that `kmalloc` places has room for no byte at all, so its zero fill and the number
overwrite the header of the pebble behind it, which had the rest of the bucket. When the first
pebble is freed it absorbs what is left of that header: of the bucket's space 60 bytes remain.
-/

namespace FroggyOs

open ByteMemory Word64 LinkedChain

attribute [local irreducible] bucketUpdateLargest popFrameList mapToPage splitPebble

/-- The end of `kernel_init`, its output left out. Returns the number that it prints; `none` where
it does not return, or dereferences `NULL`. -/
def kernelInitNumber (heap : Heap) : Option (Nat × Heap) := do
  let (number, heap) ← kmalloc .real heap 8
  if number = 0 then none
  else
    let heap := { heap with mem := heap.mem.store number 8 10023 }
    let shown := heap.mem.load number 8
    let heap ← kfree heap number
    return (shown, heap)

section FirstAlloc

variable {m : Mem} {a x : Nat}

/-- The pebble of a new bucket is split in front of its first byte. -/
theorem splitPebble_first (h : SinglePebble m a 69508) (hfits : a + 69632 ≤ 2 ^ 64) :
    splitPebble m (a + 64) 0 = ((newHeader m (a + 64) (a + 124) 69448).put (a + 64)
      MemoryPebble.size 0).put (a + 64) MemoryPebble.next (a + 124) := by
  have htest : splitPebbleTest 69508 0 = true := by
    unfold splitPebbleTest
    decide
  have hsize : splitSize 0 = 0 := by
    unfold splitSize
    decide
  have haddr : add64 (add64 (a + 64) MemoryPebble.sizeof) 0 = a + 124 := by
    have hheader : add64 (a + 64) MemoryPebble.sizeof = a + 124 := @add64_eq (a + 64) 60 (by omega)
    rw [hheader, add64_zero (by omega)]
  have hrest : sub64 (sub64 69508 0) MemoryPebble.sizeof = 69448 := by decide
  have hsplit := splitPebble_of_test h.pebble.size htest hsize haddr h.pebble.next
    (.inl (by simp only; omega))
  rw [hrest, relink, if_neg (not_not.mpr rfl)] at hsplit
  exact hsplit

/-- The pebbles of a new bucket after a request that is rounded down to nothing. -/
def splitBucket (a : Nat) : BucketModel :=
  (freshBucket a 69632).withBlocks [⟨a + 64, 0, true⟩, ⟨a + 124, 69448, false⟩]

@[simp] theorem splitBucket_base (a : Nat) : (splitBucket a).base = a := rfl

theorem splitBucket_wf (ha : a ≠ 0) (hfits : a + 69632 ≤ 2 ^ 64) : (splitBucket a).WF := by
  have hstop : (splitBucket a).stop = a + 69632 := by
    simp [splitBucket, BucketModel.withBlocks, BucketModel.stop, freshBucket]
  refine ⟨ha, by rw [hstop]; exact hfits, ?_, by simp [splitBucket, BucketModel.withBlocks]⟩
  rw [hstop]
  change a + 64 = a + 64 ∧ a + 124 = a + 64 + 60 + 0 ∧ a + 124 + 60 + 69448 = a + 69632
  omega

/-- What the first `kmalloc` leaves: a pebble of size 0, and zeros where the next header was. -/
structure FirstPebble (m : Mem) (a : Nat) : Prop where
  first : m.get a MemoryBucket.first = a + 64
  spinlock : m.get a MemoryBucket.spinlock = 0
  pebble : PebbleAt m a ⟨a + 64, 0, true⟩ 0 (a + 124)
  zero : ∀ y, a + 124 ≤ y → y < a + 188 → m.byte y = 0

/-- The memory after a split of the first pebble. -/
theorem splitPebble_first_body (h : BucketBody m (freshBucket a 69632))
    (hfits : a + 69632 ≤ 2 ^ 64) :
    BucketBody ((splitPebble m (a + 64) 0).put (a + 64) MemoryPebble.lflags pebbleFlagInUse)
        (splitBucket a) ∧
      ∀ y, y < a + 64 ∨ a + 184 ≤ y →
        ((splitPebble m (a + 64) 0).put (a + 64) MemoryPebble.lflags pebbleFlagInUse).byte y =
          m.byte y := by
  have hsingle : SinglePebble m a 69508 := ⟨h.first, h.pebbles.1⟩
  rw [splitPebble_first hsingle hfits]
  have hbytes : ∀ y, y < a + 64 ∨ a + 184 ≤ y →
      ((((newHeader m (a + 64) (a + 124) 69448).put (a + 64) MemoryPebble.size 0).put (a + 64)
        MemoryPebble.next (a + 124)).put (a + 64) MemoryPebble.lflags pebbleFlagInUse).byte y =
          m.byte y := by
    intro y hy
    rw [Mem.put_byte_outside (by simp only; omega), Mem.put_byte_outside (by simp only; omega),
      Mem.put_byte_outside (by simp only; omega), newHeader_byte_outside (by omega)]
  have hbucket : SameBytes m _ a 48 := fun y _ hhigh => hbytes y (.inl (by omega))
  refine ⟨⟨?_, ?_, ?_, ?_, ?_, trivial⟩, hbytes⟩
  · exact (hbucket.get (by decide)).trans h.size
  · exact (hbucket.get (by decide)).trans h.largest
  · exact (hbucket.get (by decide)).trans h.first
  · have hheader : PebbleAt (newHeader m (a + 64) (a + 124) 69448) a ⟨a + 64, 69508, false⟩ 0 0 :=
      hsingle.pebble.frame fun y hlow hhigh => newHeader_byte_outside (by simp only at hhigh; omega)
    exact ((hheader.put_size (by decide)).put_next (by omega)).put_lflags true
  · have hnew : PebbleAt (newHeader m (a + 64) (a + 124) 69448) a ⟨a + 124, 69448, false⟩ (a + 64)
        0 := hsingle.pebble.newHeader (by simp only; omega) (by omega) (by decide)
    exact ((hnew.put_other (by simp only; omega)).put_other (by simp only; omega)).put_other
      (by simp only; omega)

theorem kmalloc_first {h : Heap} (hbucket : BucketAt 0 h.mem (freshBucket a 69632) 0 0)
    (hstart : h.kHeapStart = a) (ha : a ≠ 0) (hfits : a + 69632 ≤ 2 ^ 64) :
    ∃ m', kmalloc .real h 8 = some (a + 124, { h with mem := m' }) ∧ FirstPebble m' a ∧
      ∀ y, y < a ∨ a + 188 ≤ y → m'.byte y = h.mem.byte y := by
  have hwf := freshBucket_wf ha (by decide) (by decide) hfits
  have hlocked : BucketBody (h.mem.put a MemoryBucket.spinlock 1) (freshBucket a 69632) :=
    hbucket.body.put_spinlock hwf 1
  have hsingle : SinglePebble (h.mem.put a MemoryBucket.spinlock 1) a 69508 :=
    ⟨hlocked.first, hlocked.pebbles.1⟩
  obtain ⟨hbody, hbytes⟩ := splitPebble_first_body hlocked hfits
  have hupdate := bucketUpdateLargest_eq hbody (splitBucket_wf ha hfits)
  rw [splitBucket_base] at hupdate
  generalize hm₁ : (splitPebble (h.mem.put a MemoryBucket.spinlock 1) (a + 64) 0).put (a + 64)
    MemoryPebble.lflags pebbleFlagInUse = m₁ at *
  have hplace : placePebble (h.mem.put a MemoryBucket.spinlock 1) a 0 (0 ||| pebbleFlagInUse) =
      some (a + 64, m₁) := by
    rw [placePebble, hsingle.searchPebbles_eq (by decide), if_pos (Nat.zero_le _), ← hm₁]
    rfl
  have hlargest : (h.mem.put a MemoryBucket.spinlock 1).get a MemoryBucket.largestFree = 69508 :=
    hlocked.largest
  have htry : tryBucket (h.mem.put a MemoryBucket.spinlock 1) a 0 = some (a + 64, m₁) := by
    rw [tryBucket, if_pos (Nat.zero_le _), hplace]
  generalize hm₂ : m₁.put a MemoryBucket.largestFree (maxSize (splitBucket a).blocks 0) = m₂ at *
  have hret : add64 (a + 64) MemoryPebble.sizeof = a + 124 := @add64_eq (a + 64) 60 (by omega)
  have hsearch : searchBuckets 0 walkFuel a h.mem =
      some (a + 124, m₂.put a MemoryBucket.spinlock 0) := by
    obtain ⟨fuel, hfuel⟩ := Nat.exists_eq_succ_of_ne_zero (by decide : walkFuel ≠ 0)
    have hne : (a + 64, m₁).1 ≠ 0 := by simp only; omega
    have hlock : acquireSpinlock h.mem (bucketSpinlock a) = _ := acquireSpinlock_eq hbucket.spinlock
    rw [hfuel, searchBuckets, if_neg ha, hlock]
    simp only [Option.bind_eq_bind, Option.bind_some, htry]
    rw [if_pos hne, hupdate]
    simp only [Option.bind_some, hret, releaseSpinlock_eq]
  have hsize : pebbleSize (requestSize 8) = 0 := by decide
  have hobtain : obtainPebble h (requestSize 8) =
      some (a + 124, { h with mem := m₂.put a MemoryBucket.spinlock 0 }) := by
    rw [obtainPebble_eq (by rw [hsize, hstart, hsearch]), if_neg (by omega)]
  generalize hm₃ : m₂.put a MemoryBucket.spinlock 0 = m₃ at *
  have hsame : ∀ y, y < a + 8 ∨ a + 28 ≤ y → m₃.byte y = m₁.byte y := by
    intro y hy
    rw [← hm₃, Mem.put_byte_outside (by simp only; omega), ← hm₂,
      Mem.put_byte_outside (by simp only; omega)]
  have hfill : ∀ y, y < a + 124 ∨ a + 188 ≤ y → (memset m₃ (a + 124) 0 64).byte y = m₃.byte y :=
    fun y hy => Mem.fill_byte_outside (by omega)
  refine ⟨memset m₃ (a + 124) 0 64, ?_, ⟨?_, ?_, ?_, ?_⟩, fun y hy => ?_⟩
  · rw [kmalloc, hobtain]
    simp only [Option.bind_eq_bind, Option.bind_some]
    rw [if_pos (by omega)]
    rfl
  · refine Eq.trans (Mem.load_congr fun y hy => ?_) hbody.first
    have hlow := hy.1
    have hhigh := hy.2
    simp only at hlow hhigh
    rw [hfill y (by omega), hsame y (by omega)]
  · have hlock : m₃.get a MemoryBucket.spinlock = 0 := by
      rw [← hm₃]
      exact Mem.get_put_same (by decide)
    refine Eq.trans (Mem.load_congr fun y hy => ?_) hlock
    have hhigh := hy.2
    simp only at hhigh
    exact hfill y (by omega)
  · refine hbody.pebbles.1.frame fun y hlow hhigh => ?_
    simp only at hlow hhigh
    rw [hfill y (by omega), hsame y (by omega)]
  · exact fun y hlow hhigh => Mem.fill_byte_inside hlow (by omega)
  · rw [hfill y (by omega), hsame y (by omega), hbytes y (by omega)]
    exact Mem.put_byte_outside (by simp only; omega)

/-- The update sees the one pebble. -/
theorem SinglePebble.bucketUpdateLargest_eq {size : Nat} (h : SinglePebble m a size) :
    bucketUpdateLargest m a = some (m.put a MemoryBucket.largestFree size) := by
  have hstart : a + 64 ≠ 0 := by omega
  have hfuel : [(⟨a + 64, size, false⟩ : Block)].length < walkFuel := by
    rw [List.length_singleton]
    decide
  have hhead : m.get a MemoryBucket.first = headAddr Block.addr [⟨a + 64, size, false⟩] 0 := h.first
  have hmax : maxSize [⟨a + 64, size, false⟩] 0 = size := by
    simp only [maxSize, List.foldl_cons, List.foldl_nil]
    split <;> omega
  unfold bucketUpdateLargest
  rw [hhead, largestFrom_eq (PebbleChain.walk h.chain) tiles hstart hfuel, hmax]
  rfl

/-- The freed pebble absorbs the header that was overwritten. -/
theorem absorbNext_first (h : PebbleAt m a ⟨a + 64, 0, false⟩ 0 (a + 124))
    (hfirst : m.get a MemoryBucket.first = a + 64) (hfits : a + 188 ≤ 2 ^ 64)
    (hlflags : m.get (a + 124) MemoryPebble.lflags = 0)
    (hsize : m.get (a + 124) MemoryPebble.size = 0)
    (hnext : m.get (a + 124) MemoryPebble.next = 0) :
    ∃ m', absorbNext m (a + 64) = some m' ∧ SinglePebble m' a 60 ∧
      m'.get a MemoryBucket.largestFree = 60 ∧
      ∀ y, y < a + 8 ∨ a + 16 ≤ y ∧ y < a + 64 ∨ a + 124 ≤ y → m'.byte y = m.byte y := by
  have hfree : isPebbleFree m (a + 124) = true := by
    rw [isPebbleFree, hlflags]
    rfl
  have hself : isPebbleFree m (a + 64) = true := h.isPebbleFree_iff
  have hpebbleNext : m.get (a + 64) MemoryPebble.next = a + 124 := h.next
  have hpebbleSize : m.get (a + 64) MemoryPebble.size = 0 := h.size
  have hparent : m.get (a + 64) MemoryPebble.parent = a := h.parent
  have hsum : add64 0 (add64 0 MemoryPebble.sizeof) = 60 := by decide
  have hgrown := h.put_size (by decide : 60 < 2 ^ 64)
  have hlast := hgrown.put_next (by decide : 0 < 2 ^ 64)
  simp only at hgrown hlast
  generalize hm₁ : m.put (a + 64) MemoryPebble.size 60 = m₁ at *
  have hnext₁ : m₁.get (a + 124) MemoryPebble.next = 0 := by
    rw [← hm₁, Mem.get_put_disjoint (by simp), hnext]
  generalize hm₂ : m₁.put (a + 64) MemoryPebble.next 0 = m₂ at *
  have hsame : ∀ y, y < a + 64 ∨ a + 124 ≤ y → m₂.byte y = m.byte y := by
    intro y hy
    rw [← hm₂, Mem.put_byte_outside (by simp only; omega), ← hm₁,
      Mem.put_byte_outside (by simp only; omega)]
  have hsingle : SinglePebble m₂ a 60 :=
    ⟨(Mem.load_congr fun y hy =>
      hsame y (.inl (Nat.lt_of_lt_of_le hy.2 (by simp only; omega)))).trans hfirst, hlast⟩
  refine ⟨m₂.put a MemoryBucket.largestFree 60, ?_, ?_, Mem.get_put_same (by decide), ?_⟩
  · rw [absorbNext, hpebbleNext, if_pos ⟨⟨by omega, by omega⟩, hself, hfree⟩, hparent, hfirst,
      if_neg (by omega)]
    simp only [hpebbleNext, hpebbleSize, hsize, hsum, hm₁, hnext₁, hm₂]
    have hlastNext : m₂.get (a + 64) MemoryPebble.next = 0 := hlast.next
    have hlastParent : m₂.get (a + 64) MemoryPebble.parent = a := hlast.parent
    rw [hlastNext, if_neg (not_not.mpr rfl), hlastParent, hsingle.bucketUpdateLargest_eq]
  · refine hsingle.frame (fun y hlow hhigh => ?_) (fun y hlow hhigh => ?_) <;>
      exact Mem.put_byte_outside (by simp only; omega)
  · intro y hy
    rw [Mem.put_byte_outside (by simp only; omega), hsame y (by omega)]

/-- The number is in memory and the header behind the first pebble is gone: the pebble that is
freed takes in 60 bytes, and the rest of the bucket is lost. -/
theorem kfree_first {h : Heap} {number : Nat} (hpebble : FirstPebble m a)
    (hmem : h.mem = m.store (a + 124) 8 number) (hstart : h.kHeapStart = a)
    (hfits : a + 188 ≤ 2 ^ 64) (hnumber : number < 2 ^ 32) :
    ∃ m', kfree h (a + 124) = some { h with mem := m' } ∧ SinglePebble m' a 60 ∧
      m'.get a MemoryBucket.largestFree = 60 ∧ m'.get a MemoryBucket.spinlock = 0 ∧
        ∀ y, y < a ∨ a + 124 ≤ y → m'.byte y = h.mem.byte y := by
  have hstored : ∀ y, y < a + 124 ∨ a + 132 ≤ y → h.mem.byte y = m.byte y :=
    fun y hy => by rw [hmem, Mem.store_byte_outside (by omega)]
  have hzero : ∀ f : Field, 8 ≤ f.offset → f.offset + f.width ≤ 60 →
      h.mem.get (a + 124) f = 0 := by
    intro f hlow hhigh
    refine Eq.trans (Mem.load_congr fun y hy => ?_) (Mem.load_zero (a + 124 + f.offset) f.width)
    have hfrom := hy.1
    have hto := hy.2
    rw [hstored y (by omega), hpebble.zero y (by omega) (by omega)]
  have hlflags : h.mem.get (a + 124) MemoryPebble.lflags = 0 := by
    have hwhole : h.mem.load (a + 124) 8 =
        h.mem.load (a + 124) 4 + 256 ^ 4 * h.mem.get (a + 124) MemoryPebble.lflags :=
      h.mem.load_add (a + 124) 4 4
    rw [hmem, Mem.load_store_same, ← hmem] at hwhole
    omega
  have hfirst : h.mem.get a MemoryBucket.first = a + 64 := by
    refine Eq.trans (Mem.load_congr fun y hy => ?_) hpebble.first
    have hto := hy.2
    simp only at hto
    exact hstored y (.inl (by omega))
  have hspinlock : h.mem.get a MemoryBucket.spinlock = 0 := by
    refine Eq.trans (Mem.load_congr fun y hy => ?_) hpebble.spinlock
    have hto := hy.2
    simp only at hto
    exact hstored y (.inl (by omega))
  have hheader : PebbleAt h.mem a ⟨a + 64, 0, true⟩ 0 (a + 124) :=
    hpebble.pebble.frame fun y hlow hhigh => hstored y (.inl (by simp only at hhigh; omega))
  -- the stores in front of `melt_prev`
  have hlocked : PebbleAt (h.mem.put a MemoryBucket.spinlock 1) a ⟨a + 64, 0, true⟩ 0 (a + 124) :=
    hheader.put_other (.inl (by simp))
  have hmarked := (hlocked.put_lflags false).put_alignment 1
  simp only at hmarked
  generalize hm₁ : ((h.mem.put a MemoryBucket.spinlock 1).put (a + 64) MemoryPebble.lflags
    (pebbleFlags false)).put (a + 64) MemoryPebble.alignment 1 = m₁ at *
  have hsame₁ : ∀ y, y < a + 24 ∨ a + 28 ≤ y ∧ y < a + 64 ∨ a + 124 ≤ y →
      m₁.byte y = h.mem.byte y := by
    intro y hy
    rw [← hm₁, Mem.put_byte_outside (by simp only; omega),
      Mem.put_byte_outside (by simp only; omega), Mem.put_byte_outside (by simp only; omega)]
  have hget₁ : ∀ f : Field, f.offset + f.width ≤ 60 →
      m₁.get (a + 124) f = h.mem.get (a + 124) f := by
    intro f hf
    refine Mem.load_congr fun y hy => hsame₁ y (.inr (.inr ?_))
    exact Nat.le_trans (Nat.le_add_right _ _) hy.1
  have hfirst₁ : m₁.get a MemoryBucket.first = a + 64 := by
    refine Eq.trans (Mem.load_congr fun y hy => ?_) hfirst
    have hfrom := hy.1
    have hto := hy.2
    simp only at hfrom hto
    exact hsame₁ y (by omega)
  have hmelt : meltPrev m₁ (a + 64) = some (a + 64, m₁) := by
    have hprev : m₁.get (a + 64) MemoryPebble.prev = 0 := hmarked.prev
    rw [meltPrev, if_neg (by rw [hprev]; simp)]
  obtain ⟨m₂, habsorb, hsingle, hlargest, hsame₂⟩ := absorbNext_first hmarked hfirst₁ hfits
    (by rw [hget₁ _ (by decide), hlflags])
    (by rw [hget₁ _ (by decide), hzero _ (by decide) (by decide)])
    (by rw [hget₁ _ (by decide), hzero _ (by decide) (by decide)])
  have hsingle' := hsingle.put_spinlock 0
  refine ⟨m₂.put a MemoryBucket.spinlock 0, ?_, hsingle', ?_, Mem.get_put_same (by decide), ?_⟩
  · have hpointer : sub64 (a + 124) MemoryPebble.sizeof = a + 64 :=
      @sub64_eq (a + 124) 60 (by omega) (by omega)
    have hmagic : h.mem.get (a + 64) MemoryPebble.magic = kmallocMagicPebble := hheader.magic
    have hparent : h.mem.get (a + 64) MemoryPebble.parent = a := hheader.parent
    have hparent₂ : m₂.get (a + 64) MemoryPebble.parent = a := hsingle.pebble.parent
    have hparent₃ : (m₂.put a MemoryBucket.spinlock 0).get (a + 64) MemoryPebble.parent = a :=
      hsingle'.pebble.parent
    have hmark : ((h.mem.put a MemoryBucket.spinlock 1).put (a + 64) MemoryPebble.lflags
      pebbleFlagFree).put (a + 64) MemoryPebble.alignment 1 = m₁ := hm₁
    have hempty : isPebbleFree (m₂.put a MemoryBucket.spinlock 0) (a + 64) ∧
        (m₂.put a MemoryBucket.spinlock 0).get (a + 64) MemoryPebble.prev = 0 ∧
          (m₂.put a MemoryBucket.spinlock 0).get (a + 64) MemoryPebble.next = 0 :=
      ⟨hsingle'.pebble.isPebbleFree_iff, hsingle'.pebble.prev, hsingle'.pebble.next⟩
    rw [kfree, if_neg (by omega)]
    simp only [hpointer]
    rw [if_neg (not_not.mpr hmagic), kfreePebble, hparent, acquireSpinlock_eq hspinlock]
    simp only [Option.bind_eq_bind, Option.bind_some, hmark, hmelt, habsorb, hparent₂,
      releaseSpinlock_eq, hparent₃, hsingle'.first]
    rw [if_pos hempty, removeBucket, if_neg fun hand => hand.2 hstart.symm]
  · rw [Mem.get_put_disjoint (by simp), hlargest]
  · intro y hy
    rw [Mem.put_byte_outside (by simp only; omega), hsame₂ y (by omega), hsame₁ y (by omega)]

/-- What is left of the bucket's 69632 bytes when the number has been freed. -/
theorem kernelInitNumber_eq {h : Heap} (hbucket : BucketAt 0 h.mem (freshBucket a 69632) 0 0)
    (hstart : h.kHeapStart = a) (ha : a ≠ 0) (hfits : a + 69632 ≤ 2 ^ 64) :
    ∃ m', kernelInitNumber h = some (10023, { h with mem := m' }) ∧ SinglePebble m' a 60 ∧
      m'.get a MemoryBucket.largestFree = 60 ∧ m'.get a MemoryBucket.spinlock = 0 ∧
        ∀ y, y < a ∨ a + 188 ≤ y → m'.byte y = h.mem.byte y := by
  obtain ⟨m₁, hmalloc, hpebble, hothers₁⟩ := kmalloc_first hbucket hstart ha hfits
  have hload : (m₁.store (a + 124) 8 10023).load (a + 124) 8 = 10023 := by
    rw [Mem.load_store_same]
    exact Nat.mod_eq_of_lt (by decide)
  obtain ⟨m₂, hfree, hsingle, hlargest, hspinlock, hothers₂⟩ :=
    @kfree_first m₁ a { h with mem := m₁.store (a + 124) 8 10023 } 10023 hpebble rfl hstart
      (by omega) (by decide)
  refine ⟨m₂, ?_, hsingle, hlargest, hspinlock, fun y hy => ?_⟩
  · rw [kernelInitNumber, hmalloc, Option.bind_eq_bind, Option.bind_some]
    dsimp only
    rw [if_neg (by omega), hfree, Option.bind_eq_bind, Option.bind_some, hload]
    rfl
  · rw [hothers₂ y (by omega), Mem.store_byte_outside (by omega), hothers₁ y hy]

end FirstAlloc

end FroggyOs
