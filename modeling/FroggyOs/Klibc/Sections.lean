import FroggyOs.Klibc.Search

/-!
# The calls in sections

`kmalloc` and `kfree` run under the spinlock of one bucket at a time. Their locked sections
are named here, together with what each of them does to the bucket, and the sequential calls
are the sections one after the other.
-/

namespace FroggyOs

open ByteMemory Word64 LinkedChain

attribute [local irreducible] bucketUpdateLargest placePebble meltPrev absorbNext

/-- The locked section of `kmalloc` in one round of its loop. Returns the pebble, or 0. -/
def scanSection (m : Mem) (bucket need : Nat) : Option (Nat × Mem) := do
  let m ← acquireSpinlock m (bucketSpinlock bucket)
  let placed ← tryBucket m bucket need
  if placed.1 ≠ 0 then
    let m ← bucketUpdateLargest placed.2 bucket
    some (placed.1, releaseSpinlock m (bucketSpinlock bucket))
  else some (0, releaseSpinlock placed.2 (bucketSpinlock bucket))

/-- The locked section of `kmalloc` in the bucket it has created. Returns the pebble, or 0. -/
def placeSection (m : Mem) (bucket need : Nat) : Option (Nat × Mem) := do
  let m ← acquireSpinlock m (bucketSpinlock bucket)
  let placed ← placePebble m bucket need (0 ||| pebbleFlagInUse)
  let m ← bucketUpdateLargest placed.2 bucket
  some (placed.1, releaseSpinlock m (bucketSpinlock bucket))

/-- The locked section of `kfree`. Returns the pebble that `melt_prev` has returned. -/
def freeSection (m : Mem) (pebble : Nat) : Option (Nat × Mem) := do
  let m ← acquireSpinlock m (bucketSpinlock (m.get pebble MemoryPebble.parent))
  let m := m.put pebble MemoryPebble.lflags pebbleFlagFree
  let m := m.put pebble MemoryPebble.alignment 1
  let melted ← meltPrev m pebble
  let m ← absorbNext melted.2 melted.1
  some (melted.1, releaseSpinlock m (bucketSpinlock (m.get melted.1 MemoryPebble.parent)))

/-- The test of `kfree` for a bucket that is one free pebble. -/
def BucketEmpty (m : Mem) (bucket : Nat) : Prop :=
  isPebbleFree m (m.get bucket MemoryBucket.first) ∧
    m.get (m.get bucket MemoryBucket.first) MemoryPebble.prev = 0 ∧
    m.get (m.get bucket MemoryBucket.first) MemoryPebble.next = 0

instance (m : Mem) (bucket : Nat) : Decidable (BucketEmpty m bucket) :=
  inferInstanceAs (Decidable (_ ∧ _ ∧ _))

/-! ## The sequential calls -/

section Sequential

variable {m : Mem} {h : Heap} {bucket need fuel size pebble : Nat}

/-- One round of the loop of `kmalloc`. -/
theorem searchBuckets_succ (hbucket : bucket ≠ 0) :
    searchBuckets need (fuel + 1) bucket m = (scanSection m bucket need).bind fun scanned =>
      if scanned.1 ≠ 0 then some (add64 scanned.1 MemoryPebble.sizeof, scanned.2)
      else searchBuckets need fuel (scanned.2.get bucket MemoryBucket.next) scanned.2 := by
  rw [searchBuckets, if_neg hbucket, scanSection]
  simp only [Option.bind_eq_bind, Option.bind_assoc]
  refine congrArg _ (funext fun m₁ => congrArg _ (funext fun placed => ?_))
  by_cases hplaced : placed.1 = 0
  · simp only [hplaced, ne_eq, not_true_eq_false, if_false, Option.bind_some]
  · simp only [hplaced, ne_eq, not_false_eq_true, if_true, Option.bind_assoc, Option.bind_some]

theorem allocInNewBucket_eq : allocInNewBucket h size need =
    (createBucket h size 0).bind fun created =>
      if created.1 = 0 then some (0, created.2)
      else (insertBucket created.2.mem created.1 created.2.kHeapStart).bind fun m =>
        (placeSection m created.1 need).bind fun placed =>
          some (if placed.1 ≠ 0 then add64 placed.1 MemoryPebble.sizeof else 0,
            { created.2 with mem := placed.2 }) := by
  rw [allocInNewBucket]
  simp only [placeSection, Option.bind_eq_bind, Option.bind_assoc, Option.bind_some]

theorem kfreePebble_eq : kfreePebble h pebble =
    (freeSection h.mem pebble).bind fun freed =>
      if BucketEmpty freed.2 (freed.2.get freed.1 MemoryPebble.parent) then
        removeBucket { h with mem := freed.2 } (freed.2.get freed.1 MemoryPebble.parent)
      else
        (bucketUpdateLargest freed.2 (freed.2.get freed.1 MemoryPebble.parent)).bind fun m =>
          some { h with mem := m } := by
  rw [kfreePebble]
  simp only [freeSection, Option.bind_eq_bind, Option.bind_assoc, Option.bind_some]
  rfl

end Sequential

/-! ## What the sections do -/

section Specs

variable {m : Mem} {B : BucketModel} {before after : List Block} {b : Block}
  {xs ys : List Block} {need prev next : Nat}

/-- The bucket has a free block that is large enough, and its cached maximum says so. -/
def BucketModel.Admits (B : BucketModel) (need : Nat) : Prop :=
  need ≤ B.largest ∧ ∃ b ∈ B.blocks, fits need b = true

theorem placeSection_spec (h : BucketAt 0 m B prev next) (hwf : B.WF) (haligned : need % 64 = 0) :
    ∃ p m' B', placeSection m B.base need = some (p, m') ∧ BucketStep m B m' B' ∧
      Placed need B.blocks p B'.blocks ∧ B'.Exact := by
  have hlocked := h.body.put_spinlock hwf 1
  obtain ⟨p, m₁, m₂, B', hplace, hupdate, hplaced, hstep, hexact⟩ :=
    place_step hlocked hwf haligned
  refine ⟨p, m₂.put B.base MemoryBucket.spinlock 0, B', ?_, hstep.unlock h.spinlock, hplaced,
    hexact⟩
  rw [placeSection, acquireSpinlock_eq h.spinlock]
  simp only [Option.bind_eq_bind, Option.bind_some, hplace, hupdate, releaseSpinlock_eq]

theorem Placed.ne_zero {p : Nat} (h : Placed need xs p ys)
    (hpos : ∀ b ∈ xs, b.addr ≠ 0) (hfits : ∃ b ∈ xs, fits need b = true) : p ≠ 0 := by
  cases h with
  | missed hnone =>
      obtain ⟨b, hb, hfits⟩ := hfits
      rw [hnone b hb] at hfits
      cases hfits
  | found before after b hblocks => exact hpos b (by simp [hblocks])

/-- Where nothing was found, nothing has changed. -/
theorem Placed.eq_of_missed (h : Placed need xs 0 ys)
    (hpos : ∀ b ∈ xs, b.addr ≠ 0) : ys = xs := by
  generalize hp : 0 = p at h
  cases h with
  | missed => rfl
  | found before after b hblocks => exact absurd hp.symm (hpos b (by simp [hblocks]))

theorem BucketModel.WF.addr_ne_zero (hwf : B.WF) : ∀ b ∈ B.blocks, b.addr ≠ 0 := by
  intro b hb
  have hbounds := hwf.block_bounds hb
  omega

/-- A round of the loop places the request if the bucket admits it, and changes nothing
otherwise. -/
theorem scanSection_spec (h : BucketAt 0 m B prev next) (hwf : B.WF) (haligned : need % 64 = 0) :
    (¬ B.Admits need → scanSection m B.base need = some (0, m)) ∧
      (B.Admits need → ∃ p m' B', scanSection m B.base need = some (p, m') ∧ p ≠ 0 ∧
        BucketStep m B m' B' ∧ Placed need B.blocks p B'.blocks ∧ B'.Exact) := by
  have hlocked := h.body.put_spinlock hwf 1
  constructor
  · intro hrefused
    have htry : tryBucket (m.put B.base MemoryBucket.spinlock 1) B.base need =
        some (0, m.put B.base MemoryBucket.spinlock 1) := by
      rw [tryBucket, hlocked.largest]
      split
      case isTrue hlarge =>
        refine placePebble_of_none hlocked hwf _ fun b hb => ?_
        by_contra hfits
        exact hrefused ⟨hlarge, b, hb, by simpa using hfits⟩
      case isFalse => rfl
    rw [scanSection, acquireSpinlock_eq h.spinlock]
    simp only [Option.bind_eq_bind, Option.bind_some, htry, ne_eq, not_true_eq_false, if_false,
      release_acquire h]
  · rintro ⟨hlarge, hfits⟩
    obtain ⟨p, m₁, m₂, B', hplace, hupdate, hplaced, hstep, hexact⟩ :=
      place_step hlocked hwf haligned
    have hp := hplaced.ne_zero hwf.addr_ne_zero hfits
    have htry : tryBucket (m.put B.base MemoryBucket.spinlock 1) B.base need = some (p, m₁) := by
      rw [tryBucket, hlocked.largest, if_pos hlarge, hplace]
    refine ⟨p, m₂.put B.base MemoryBucket.spinlock 0, B', ?_, hp, hstep.unlock h.spinlock,
      hplaced, hexact⟩
    rw [scanSection, acquireSpinlock_eq h.spinlock]
    simp only [Option.bind_eq_bind, Option.bind_some, htry, ne_eq, hp, not_false_eq_true, if_true,
      hupdate, releaseSpinlock_eq]

theorem freeSection_spec (h : BucketAt 0 m B prev next) (hwf : B.WF)
    (hblocks : B.blocks = before ++ b :: after) :
    ∃ p m' B', freeSection m b.addr = some (p, m') ∧ BucketStep m B m' B' ∧
      B'.blocks = release before b after ∧ (B.Exact → B'.Exact) ∧
      m'.get p MemoryPebble.parent = B.base := by
  have hpb : PebbleAt m B.base b _ _ := (Chain.middle_iff.mp (hblocks ▸ h.body.pebbles)).2.1
  obtain ⟨m₁, m₂, p, B', hmelt, habsorb, hparent, hp, hstep, hnew, hexact, -⟩ :=
    freePebble_spec (h.body.put_spinlock hwf 1) hwf hblocks
  refine ⟨p, m₂.put B.base MemoryBucket.spinlock 0, B', ?_, hstep.unlock h.spinlock, hnew, hexact,
    ?_⟩
  · rw [freeSection, hpb.parent, acquireSpinlock_eq h.spinlock]
    simp only [Option.bind_eq_bind, Option.bind_some, hmelt, habsorb, hparent,
      releaseSpinlock_eq]
  · rw [Mem.get_put_disjoint (by simp; omega), hparent]

end Specs

end FroggyOs
