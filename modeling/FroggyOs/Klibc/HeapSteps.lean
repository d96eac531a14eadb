import FroggyOs.Klibc.BucketList
import FroggyOs.Vmm.Region

/-!
# The steps of the heap

`place_pebble` with the new maximum is one step of one bucket. `kfree` is a step of the
freed pebble's bucket, after which the bucket is taken out of the list if it is one free
pebble and not the first bucket.
-/

namespace FroggyOs

open ByteMemory Word64 LinkedChain

attribute [local irreducible] bucketUpdateLargest meltPrev absorbNext placePebble

/-! ## Creating -/

/-- The size of a bucket is rounded up to whole pages, unless the sum wraps around. -/
theorem bucketBytes_eq {size : Nat} (h : size + 4095 < 2 ^ 64) :
    bucketBytes size = 4096 * ((max size 65660 + 4095) / 4096) := by
  have hmax : (if size < minInitialAlloc then minInitialAlloc else size) = max size 65660 := by
    change (if size < 65660 then 65660 else size) = max size 65660
    split <;> omega
  have hsum : add64 (max size 65660) (pageSize - 1) = max size 65660 + 4095 :=
    add64_eq (a := max size 65660) (b := 4095) (by omega)
  rw [bucketBytes, hmax, hsum]
  exact and_not64_low (k := 12) (by omega) (by decide)

theorem bucketBytes_lt (size : Nat) : bucketBytes size < 2 ^ 64 :=
  Nat.lt_of_le_of_lt Nat.and_le_left (add64_lt _ _)

/-- What `create_bucket` does, by the state of the heap end. -/
theorem createBucket_eq {h : Heap} {size flags : Nat} (hne : h.vmm.kHeapEnd.toNat ≠ 0)
    (hends : PageLoopEnds h.vmm.kHeapEnd.toNat (bucketBytes size / 4096)) :
    ∃ vmm, createBucket h size flags = some (h.vmm.kHeapEnd.toNat,
        { h with mem := initBucket h.mem h.vmm.kHeapEnd.toNat (bucketBytes size) flags, vmm }) ∧
      vmm.kHeapEnd.toNat =
        (h.vmm.kHeapEnd.toNat + 4096 * (bucketBytes size / 4096)) % 2 ^ 64 := by
  have hbytes := bucketBytes_lt size
  have hmmap := (mmap_eq (s := h.vmm) (n := bucketBytes size / 4096) (by omega) hne).1 hends
  refine ⟨_, ?_, (mmap_kHeapEnd (by omega) hmmap hne).2⟩
  rw [createBucket, pageSize, hmmap]
  simp only [Option.bind_eq_bind, Option.bind_some, hne, if_false]

/-- What `create_bucket` returns, and the heap after it. -/
theorem createBucket_cases {h h' : Heap} {size flags region : Nat}
    (hcreate : createBucket h size flags = some (region, h')) :
    ∃ vmm, h.vmm.mmap (bucketBytes size / pageSize) = some (region, vmm) ∧
      (region = 0 ∧ h' = { h with vmm } ∨ region ≠ 0 ∧
        h' = { h with mem := initBucket h.mem region (bucketBytes size) flags, vmm }) := by
  cases hmmap : h.vmm.mmap (bucketBytes size / pageSize) with
  | none =>
      rw [createBucket, hmmap] at hcreate
      cases hcreate
  | some result =>
      obtain ⟨r, vmm⟩ := result
      rw [createBucket, hmmap] at hcreate
      simp only [Option.bind_eq_bind, Option.bind_some] at hcreate
      split at hcreate
      · next hzero =>
          cases hcreate
          exact ⟨vmm, by rw [hzero], .inl ⟨rfl, rfl⟩⟩
      · next hne =>
          cases hcreate
          exact ⟨vmm, rfl, .inr ⟨hne, rfl⟩⟩

/-! ## Placing -/

/-- What `place_pebble` returns, and the blocks after it: a free block that is large enough
is found if there is one. -/
inductive Placed (need : Nat) (blocks : List Block) : Nat → List Block → Prop
  | missed : (∀ b ∈ blocks, fits need b = false) → Placed need blocks 0 blocks
  | found (before after : List Block) (b : Block) : blocks = before ++ b :: after →
      fits need b = true → Placed need blocks b.addr (before ++ placeBlock b need ++ after)

section Place

variable {m : Mem} {B : BucketModel} {need : Nat}

/-- Every split of a free block for a request that is a multiple of 64 fits. -/
theorem splitFits_of_fits (hwf : B.WF) (haligned : need % 64 = 0) {b : Block}
    (hb : b ∈ B.blocks) (hfits : fits need b = true) : SplitFits b need := by
  have hbounds := hwf.block_bounds hb
  have hword := hwf.fits
  have hneed : need ≤ b.size := by
    simp only [fits, Bool.and_eq_true, decide_eq_true_eq] at hfits
    exact hfits.2
  exact splitFits_of_aligned (by omega) (by omega) haligned

theorem placePebble_step (h : BucketBody m B) (hwf : B.WF) (haligned : need % 64 = 0) :
    ∃ p m' blocks, placePebble m B.base need (0 ||| pebbleFlagInUse) = some (p, m') ∧
      Placed need B.blocks p blocks ∧ BucketStep m B m' (B.withBlocks blocks) := by
  by_cases hnone : ∀ b ∈ B.blocks, fits need b = false
  · exact ⟨0, m, B.blocks, placePebble_of_none h hwf _ hnone, .missed hnone, BucketStep.refl h hwf⟩
  · push Not at hnone
    obtain ⟨b₀, hb₀, hfits₀⟩ := hnone
    obtain ⟨before, b, after, m', hblocks, hfits, hplace, hbody, hchanges⟩ :=
      placePebble_of_fits h hwf hb₀ (by simpa using hfits₀)
        fun b hb hfits => splitFits_of_fits hwf haligned hb hfits
    have hsplit := splitFits_of_fits hwf haligned (b := b) (by simp [hblocks]) hfits
    exact ⟨b.addr, m', _, hplace, .found before after b hblocks hfits,
      rfl, rfl, hwf.place hblocks hsplit, hbody, hchanges⟩

/-- Placing and recomputing the maximum. -/
theorem place_step (h : BucketBody m B) (hwf : B.WF) (haligned : need % 64 = 0) :
    ∃ p m₁ m₂ B', placePebble m B.base need (0 ||| pebbleFlagInUse) = some (p, m₁) ∧
      bucketUpdateLargest m₁ B.base = some m₂ ∧ Placed need B.blocks p B'.blocks ∧
      BucketStep m B m₂ B' ∧ B'.Exact := by
  obtain ⟨p, m₁, blocks, hplace, hplaced, hstep⟩ := placePebble_step h hwf haligned
  have hupdate := updateLargest_step hstep.body hstep.wf
  have hcall := bucketUpdateLargest_eq hstep.body hstep.wf
  rw [BucketModel.withBlocks_base] at hupdate hcall
  exact ⟨p, m₁, _, _, hplace, hcall, hplaced, hstep.trans hupdate, rfl⟩

end Place

/-! ## Freeing -/

section Free

variable {hp : Heap} {B : BucketModel} {pre post : List BucketModel} {before after : List Block}
  {b : Block}

/-- `kfree` up to its last test: the lock is free again and the bucket's blocks are
released. -/
theorem kfreePebble_release (h : BucketBody hp.mem B) (hwf : B.WF)
    (hlock : hp.mem.get B.base MemoryBucket.spinlock = 0)
    (hblocks : B.blocks = before ++ b :: after) :
    ∃ m' B', BucketStep hp.mem B m' B' ∧ B'.blocks = release before b after ∧
      (B.Exact → B'.Exact) ∧ m'.get b.addr MemoryPebble.lflags = pebbleFlagFree ∧
      kfreePebble hp b.addr =
        if B'.idle then removeBucket { hp with mem := m' } B.base
        else (bucketUpdateLargest m' B.base).bind fun m => some { hp with mem := m } := by
  have hbounds := hwf.block_bounds (b := b) (by simp [hblocks])
  have hpb : PebbleAt hp.mem B.base b _ _ := (Chain.middle_iff.mp (hblocks ▸ h.pebbles)).2.1
  have hlocked := h.put_spinlock hwf 1
  obtain ⟨m₁, m₂, p, B', hmelt, habsorb, hparent, hp, hstep, hnew, hexact, hflags⟩ :=
    freePebble_spec hlocked hwf hblocks
  have hunlock := hstep.unlock hlock
  have hparent' : (m₂.put B.base MemoryBucket.spinlock 0).get p MemoryPebble.parent = B.base := by
    rw [Mem.get_put_disjoint (by simp; omega), hparent]
  have hflags' : (m₂.put B.base MemoryBucket.spinlock 0).get b.addr MemoryPebble.lflags =
      pebbleFlagFree := by
    rw [Mem.get_put_disjoint (by simp; omega), hflags]
  refine ⟨m₂.put B.base MemoryBucket.spinlock 0, B', hunlock, hnew, hexact, hflags', ?_⟩
  have hidle := idle_iff hunlock.body hunlock.wf
  rw [hunlock.base_eq] at hidle
  rw [kfreePebble, hpb.parent, acquireSpinlock_eq hlock]
  simp only [Option.bind_eq_bind, Option.bind_some, hmelt, habsorb, hparent,
    releaseSpinlock_eq, hparent', hidle]

/-- What `kfree` leaves of a heap: the freed pebble's bucket `B` becomes `B'`, and is taken
out of the list if it is idle and not the first bucket. -/
structure Freed (hp : Heap) (pre : List BucketModel) (B : BucketModel) (post : List BucketModel)
    (pebble : Nat) (m' : Mem) (B' : BucketModel) : Prop where
  base_eq : B'.base = B.base
  pages_eq : B'.pages = B.pages
  wf : B'.WF
  body : BucketBody m' B'
  exact : B.Exact → B'.Exact
  flags : m'.get pebble MemoryPebble.lflags = pebbleFlagFree
  removed : B'.idle = true → pre ≠ [] → HeapRep m' hp.kHeapStart (pre ++ post) ∧
    kfreePebble hp pebble =
      (hp.vmm.munmap B.base B.pages).map fun vmm => { hp with mem := m', vmm }
  kept : ¬ (B'.idle = true ∧ pre ≠ []) → HeapRep m' hp.kHeapStart (pre ++ B' :: post) ∧
    kfreePebble hp pebble = some { hp with mem := m' }

/-- The first bucket of the list is the one at `KHEAPSTART`, and no other. -/
theorem base_eq_start_iff {m : Mem} {start : Nat} (h : HeapRep m start (pre ++ B :: post)) :
    B.base = start ↔ pre = [] := by
  have hhead := h.head
  cases pre with
  | nil => simpa using hhead
  | cons A rest =>
      have hA : A.base = start := hhead
      have hapart := (List.pairwise_cons.mp h.apart).1 B (by simp)
      have hAlt := (h.wf A (by simp)).base_lt_stop
      have hBlt := (h.wf B (by simp)).base_lt_stop
      simp only [reduceCtorEq, iff_false]
      obtain hapart | hapart := hapart <;> omega

/-- `remove_bucket` on a bucket behind the first one. -/
theorem removeBucket_spec (hp : Heap) {front : List BucketModel} {A : BucketModel}
    (h : HeapRep hp.mem hp.kHeapStart (front ++ A :: B :: post)) :
    ∃ m', removeBucket hp B.base =
        (hp.vmm.munmap B.base B.pages).map (fun vmm => { hp with mem := m', vmm }) ∧
      HeapRep m' hp.kHeapStart (front ++ A :: post) ∧ BucketBody m' B ∧
      ∀ x, B.base ≤ x → x < B.stop → m'.byte x = hp.mem.byte x := by
  have hsplit : front ++ A :: B :: post = (front ++ [A]) ++ B :: post := by simp
  have hwf := h.wf B (by simp)
  have hother : B.base ≠ hp.kHeapStart := by
    rw [hsplit] at h
    exact mt (base_eq_start_iff h).mp (by simp)
  have hstop := hwf.base_lt_stop
  obtain ⟨hunlinked, hbytes⟩ := h.unlink
  rw [hsplit] at h
  have hB := (Chain.middle_iff.mp h.chain).2.1.frame hwf hbytes
  refine ⟨unlinkBucket hp.mem B.base, ?_, hunlinked, hB.body, hbytes⟩
  rw [removeBucket, if_pos ⟨hwf.base_ne, hother⟩]
  simp only [hB.body.size, Option.map_eq_bind]
  rfl

theorem kfreePebble_spec (h : HeapRep hp.mem hp.kHeapStart (pre ++ B :: post))
    (hblocks : B.blocks = before ++ b :: after) :
    ∃ m' B', B'.blocks = release before b after ∧ Freed hp pre B post b.addr m' B' := by
  obtain ⟨hpre, hB, hpost⟩ := Chain.middle_iff.mp h.chain
  have hwf := h.wf B (by simp)
  have hbounds := hwf.block_bounds (b := b) (by simp [hblocks])
  obtain ⟨m₁, B', hstep, hnew, hexact, hflags, hcall⟩ :=
    kfreePebble_release hB.body hwf hB.spinlock hblocks
  have hrep := h.step hstep
  by_cases hidle : B'.idle = true
  · rw [if_pos hidle] at hcall
    obtain rfl | ⟨front, A, rfl⟩ := List.eq_nil_or_concat' pre
    · -- the first bucket stays, and its cached maximum is the one `absorb_next` left
      have hstart : B.base = hp.kHeapStart := (base_eq_start_iff h).mpr rfl
      refine ⟨m₁, B', hnew, hstep.base_eq, hstep.pages_eq, hstep.wf, hstep.body, hexact, hflags,
        fun _ hne => absurd rfl hne, fun _ => ⟨hrep, ?_⟩⟩
      rw [hcall, removeBucket, if_neg fun hand => hand.2 hstart]
    · rw [List.append_assoc] at hrep
      obtain ⟨m', hremove, hunlinked, hbody, hbytes⟩ :=
        removeBucket_spec { hp with mem := m₁ } hrep
      rw [hstep.base_eq, hstep.pages_eq] at hremove
      rw [hstep.base_eq, hstep.stop_eq] at hbytes
      have hflags' : m'.get b.addr MemoryPebble.lflags = m₁.get b.addr MemoryPebble.lflags :=
        SameBytes.get (n := 60) (fun x hl hh => hbytes x (by omega) (by omega)) (by decide)
      refine ⟨m', B', hnew, hstep.base_eq, hstep.pages_eq, hstep.wf, hbody, hexact,
        hflags'.trans hflags, fun _ _ => ⟨?_, hcall.trans hremove⟩,
        fun hnot => absurd ⟨hidle, by simp⟩ hnot⟩
      rw [List.append_assoc]
      exact hunlinked
  · rw [if_neg hidle] at hcall
    have hupdate := bucketUpdateLargest_eq hstep.body hstep.wf
    have hlargest := hstep.trans (updateLargest_step hstep.body hstep.wf)
    rw [hstep.base_eq] at hupdate
    have hflags' : (m₁.put B'.base MemoryBucket.largestFree (maxSize B'.blocks 0)).get b.addr
        MemoryPebble.lflags = m₁.get b.addr MemoryPebble.lflags := by
      rw [hstep.base_eq]
      exact Mem.get_put_disjoint (by simp; omega)
    refine ⟨_, { B' with largest := maxSize B'.blocks 0 }, hnew, hlargest.base_eq,
    hlargest.pages_eq, hlargest.wf, hlargest.body,
      fun _ => rfl, hflags'.trans hflags, fun hidle' _ => absurd hidle' hidle,
      fun _ => ⟨h.step hlargest, ?_⟩⟩
    rw [hcall, hupdate, Option.bind_some, hstep.base_eq]

end Free

end FroggyOs
