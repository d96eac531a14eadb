import FroggyOs.Klibc.ThreadInvariant

/-!
# Steps of concurrent calls

Each step that stays in bounds keeps the invariant. It keeps the blocks of every unused
bucket too, unless it is a section of `kmalloc` that places its request there, and a bucket
that is about to be inserted is new.
-/

namespace FroggyOs

open ByteMemory Word64 Function Interleaving

attribute [local irreducible] bucketUpdateLargest placePebble scanSection placeSection freeSection
  pebbleSize bucketBytes createBucket removeBucket insertBucket

/-! ## Room in a bucket -/

section Room

variable {m : Mem} {B : BucketModel} {need : Nat}

theorem hasRoom_iff (h : BucketBody m B) (hwf : B.WF) :
    HasRoom m B.base need ↔ ∃ b ∈ B.blocks, fits need b = true := by
  have hfits : ∀ b ∈ B.blocks, isPebbleFree m b.addr = true ∧
      need ≤ m.get b.addr MemoryPebble.size ↔ fits need b = true := by
    intro b hb
    obtain ⟨prev, next, hpebble⟩ := h.pebble hb
    rw [hpebble.isPebbleFree_iff, hpebble.size, fits, Bool.and_eq_true, decide_eq_true_eq]
  constructor
  · rintro ⟨p, hlisted, hroom⟩
    obtain ⟨b, hb, rfl⟩ := (listedPebble_iff h hwf).mp hlisted
    exact ⟨b, hb, (hfits b hb).mp hroom⟩
  · rintro ⟨b, hb, hroom⟩
    exact ⟨b.addr, (listedPebble_iff h hwf).mpr ⟨b, hb, rfl⟩, (hfits b hb).mpr hroom⟩

end Room

variable {Thread : Type*} [DecidableEq Thread]

/-! ## One step -/

/-- What a step of `t` from `s` to `s'` does to the buckets. -/
structure StepKeeps (s s' : CallState Thread) (t : Thread) (Bs Bs' : List BucketModel) : Prop where
  inv : CallInv s' Bs'
  unused : KeepsUnused (PlacesIn s t) Bs Bs'
  fresh : ∀ size bucket, s'.pc t = .inserting size bucket →
    freshBucket bucket (bucketBytes size) ∈ Bs'

section Steps

variable {calls : Set HeapCall} {s s' : CallState Thread} {t : Thread} {next : CallPc}
  {Bs Bs' pre post : List BucketModel} {B B' : BucketModel} {m : Mem}
  {size bucket p ptr ret need pebble locked : Nat}

theorem StepKeeps.of_goto (hinv : CallInv (s'.goto t next) Bs')
    (hunused : KeepsUnused (PlacesIn s t) Bs Bs')
    (hnext : ∀ size bucket, next ≠ .inserting size bucket) :
    StepKeeps s (s'.goto t next) t Bs Bs' := by
  refine ⟨hinv, hunused, fun size bucket hpc => ?_⟩
  rw [goto_pc] at hpc
  exact absurd hpc (hnext size bucket)

/-- A step of `t` that changes no byte. -/
theorem CallInv.stepGoto (hs : CallInv s Bs) {pc : CallPc} (hpc : s.pc t = pc)
    (hold : pc.payload = next.payload) (hsound : next.Sound Bs)
    (hnext : ∀ size bucket, next ≠ .inserting size bucket) :
    StepKeeps s (s.goto t next) t Bs Bs :=
  .of_goto (hs.goto hpc hold hsound) (.refl _ _) hnext

/-- A section that places the request of `t`. -/
theorem CallInv.stepPlaced (hs : CallInv s (pre ++ B :: post))
    (hstep : BucketStep s.heap.mem B m B') (hplaced : Placed need B.blocks p B'.blocks)
    (hp : p ≠ 0) (hheld : s.held t = none) (htouched : PlacesIn s t B.base) :
    StepKeeps s ((s.withMem m).goto t (.zeroing size (add64 p MemoryPebble.sizeof))) t
      (pre ++ B :: post) (pre ++ B' :: post) :=
  .of_goto (hs.placed hstep hplaced hp hheld)
    (.replace hstep.base_eq fun _ hspared => absurd htouched hspared) (by simp)

theorem CallInv.stepScanHit (hs : CallInv s Bs) (hpc : s.pc t = .scanning size bucket)
    (hne : bucket ≠ 0)
    (hsection : scanSection s.heap.mem bucket (pebbleSize size) = some (p, m)) (hp : p ≠ 0) :
    ∃ Bs', StepKeeps s ((s.withMem m).goto t (.zeroing size (add64 p MemoryPebble.sizeof))) t
      Bs Bs' := by
  have hlink : IsLink Bs bucket := hs.sound_pc hpc
  obtain ⟨pre, B, post, prev, next, rfl, rfl, hwf, hat⟩ :=
    hs.sound.bucket (hlink.resolve_left hne)
  obtain ⟨hrefused, hadmitted⟩ := scanSection_spec hat hwf (pebbleSize_aligned size)
  by_cases hadmits : B.Admits (pebbleSize size)
  · obtain ⟨p', m', B', hcall, -, hstep, hplaced, -⟩ := hadmitted hadmits
    rw [hcall] at hsection
    cases hsection
    refine ⟨_, hs.stepPlaced hstep hplaced hp (held_eq hpc) ?_⟩
    simp only [PlacesIn, hpc, true_and]
    rw [hat.body.largest, hasRoom_iff hat.body hwf]
    exact ⟨hne, hadmits⟩
  · rw [hrefused hadmits] at hsection
    cases hsection
    exact absurd rfl hp

theorem CallInv.stepScanMiss (hs : CallInv s Bs) (hpc : s.pc t = .scanning size bucket)
    (hne : bucket ≠ 0)
    (hsection : scanSection s.heap.mem bucket (pebbleSize size) = some (0, m)) :
    StepKeeps s ((s.withMem m).goto t (.advancing size bucket)) t Bs Bs := by
  have hlink : IsLink Bs bucket := hs.sound_pc hpc
  have hbucket := hlink.resolve_left hne
  have hsame : m = s.heap.mem := by
    obtain ⟨pre, B, post, prev, next, rfl, rfl, hwf, hat⟩ := hs.sound.bucket hbucket
    obtain ⟨hrefused, hadmitted⟩ := scanSection_spec hat hwf (pebbleSize_aligned size)
    by_cases hadmits : B.Admits (pebbleSize size)
    · obtain ⟨p', m', B', hcall, hp', -⟩ := hadmitted hadmits
      rw [hcall] at hsection
      cases hsection
      exact absurd rfl hp'
    · rw [hrefused hadmits] at hsection
      cases hsection
      rfl
  rw [hsame]
  exact hs.stepGoto hpc rfl hbucket (by simp)

theorem CallInv.stepCreate (hs : CallInv s Bs) {h : Heap} (hpc : s.pc t = .creating size)
    (hin : RegionInRange s.heap size) (hcreate : createBucket s.heap size 0 = some (bucket, h)) :
    bucket ≠ 0 ∧ StepKeeps s ({ s with heap := h }.goto t (.inserting size bucket)) t Bs
      (freshBucket bucket (bucketBytes size) :: Bs) := by
  obtain ⟨hne, hsound⟩ := hs.sound.create hin hcreate
  have hinv : CallInv { s with heap := h } (freshBucket bucket (bucketBytes size) :: Bs) := by
    refine hs.setHeap hsound fun b => ?_
    rintro ⟨hused, C, hC, hb⟩
    exact ⟨hused, C, List.mem_cons_of_mem _ hC, hb⟩
  have hfresh : IsBucket (freshBucket bucket (bucketBytes size) :: Bs) bucket :=
    ⟨_, List.mem_cons_self, rfl⟩
  refine ⟨hne, hinv.goto hpc rfl hfresh, .cons _ _ _, fun size' bucket' hpc' => ?_⟩
  rw [goto_pc] at hpc'
  cases hpc'
  exact List.mem_cons_self

theorem CallInv.stepPlace (hs : CallInv s Bs) (hpc : s.pc t = .placing size bucket)
    (hsection : placeSection s.heap.mem bucket (pebbleSize size) = some (p, m)) (hp : p ≠ 0) :
    ∃ Bs', StepKeeps s ((s.withMem m).goto t (.zeroing size (add64 p MemoryPebble.sizeof))) t
      Bs Bs' := by
  obtain ⟨pre, B, post, prev, next, rfl, rfl, hwf, hat⟩ := hs.sound.bucket (hs.sound_pc hpc)
  obtain ⟨p', m', B', hcall, hstep, hplaced, -⟩ :=
    placeSection_spec hat hwf (pebbleSize_aligned size)
  rw [hcall] at hsection
  cases hsection
  refine ⟨_, hs.stepPlaced hstep hplaced hp (held_eq hpc) ?_⟩
  obtain ⟨b, hb, -, hfits⟩ := hplaced.exists_fits hp
  simp only [PlacesIn, hpc, true_and]
  exact (hasRoom_iff hat.body hwf).mpr ⟨b, hb, hfits⟩

theorem CallInv.stepPlaceFailed (hs : CallInv s Bs) (hpc : s.pc t = .placing size bucket)
    (hsection : placeSection s.heap.mem bucket (pebbleSize size) = some (0, m)) :
    ∃ Bs', StepKeeps s ({ s.withMem m with failed := bucket :: s.failed }.goto t .idle) t
      Bs Bs' := by
  obtain ⟨pre, B, post, prev, next, rfl, rfl, hwf, hat⟩ := hs.sound.bucket (hs.sound_pc hpc)
  obtain ⟨p', m', B', hcall, hstep, hplaced, -⟩ :=
    placeSection_spec hat hwf (pebbleSize_aligned size)
  rw [hcall] at hsection
  cases hsection
  have hblocks : B'.blocks = B.blocks := hplaced.eq_of_missed hwf.addr_ne_zero
  have hkept := hs.keepBlocks hstep hblocks
  have hinv : CallInv { s.withMem m with failed := B.base :: s.failed } (pre ++ B' :: post) :=
    ⟨hkept.sound, hkept.tokens, hkept.used⟩
  exact ⟨_, .of_goto (hinv.goto hpc rfl trivial)
    (.replace hstep.base_eq fun _ _ => hblocks) (by simp)⟩

theorem CallInv.stepZero (hs : CallInv s Bs) (hpc : s.pc t = .zeroing size ret)
    (hsize : size ≤ s.heap.mem.get (sub64 ret MemoryPebble.sizeof) MemoryPebble.size) :
    StepKeeps s ({ s.withMem (memset s.heap.mem ret 0 size) with
      live := ret :: s.live }.goto t .idle) t Bs Bs := by
  obtain ⟨b, hused, hpayload, haddr, parent, prev, next, hpebble⟩ := hs.block (held_eq hpc)
  rw [haddr, hpebble.size] at hsize
  exact .of_goto (hs.zeroed hused hpayload hsize (held_eq hpc)) (.refl _ _) (by simp)

theorem CallInv.stepFree (hs : CallInv s Bs) (hpc : s.pc t = .freeing ptr)
    (hsection : freeSection s.heap.mem (sub64 ptr MemoryPebble.sizeof) = some (p, m)) :
    ∃ Bs', StepKeeps s ((s.withMem m).goto t
      (.reading p (s.heap.mem.get (sub64 ptr MemoryPebble.sizeof) MemoryPebble.parent))) t
      Bs Bs' := by
  have hheld : s.held t = some ptr := held_eq hpc
  obtain ⟨b, ⟨hused, C, hC, hb⟩, rfl, haddr, -⟩ := hs.block hheld
  obtain ⟨pre, B, post, prev, next, rfl, hbase, hwf, hat⟩ := hs.sound.bucket ⟨C, hC, rfl⟩
  obtain rfl : B = C := hs.sound.arena.separate.bucket_ext (by simp) hC hbase
  obtain ⟨before, after, hblocks⟩ := List.append_of_mem hb
  obtain ⟨bprev, bnext, hpebble⟩ := hat.body.pebble hb
  obtain ⟨p', m', B', hcall, hstep, hnew, -, -⟩ := freeSection_spec hat hwf hblocks
  rw [haddr, hcall] at hsection
  cases hsection
  rw [haddr, hpebble.parent]
  refine ⟨_, .of_goto (hs.freed hstep hblocks hnew hheld p)
    (.replace hstep.base_eq fun hunused _ => ?_) (by simp)⟩
  rw [hunused b hb] at hused
  cases hused

theorem CallInv.stepUpdate (hs : CallInv s Bs) (hpc : s.pc t = .updating bucket)
    (hupdate : bucketUpdateLargest s.heap.mem bucket = some m) :
    ∃ Bs', StepKeeps s ((s.withMem m).goto t .idle) t Bs Bs' := by
  obtain ⟨pre, B, post, prev, next, rfl, rfl, hwf, hat⟩ := hs.sound.bucket (hs.sound_pc hpc)
  rw [bucketUpdateLargest_eq hat.body hwf] at hupdate
  cases hupdate
  have hstep := updateLargest_step hat.body hwf
  exact ⟨_, .of_goto ((hs.keepBlocks hstep rfl).goto hpc rfl trivial)
    (.replace hstep.base_eq fun _ _ => rfl) (by simp)⟩

/-- Every step that stays in bounds keeps the invariant. -/
theorem CallInv.step (hs : CallInv s Bs) (hbounds : StaysInBounds s t)
    (hstep : CallStep calls t s s') : ∃ Bs', StepKeeps s s' t Bs Bs' := by
  cases hstep with
  | kmalloc hpc =>
      have hlink : IsLink Bs s.heap.kHeapStart := .inr hs.sound.start
      exact ⟨Bs, hs.stepGoto hpc rfl hlink (by simp)⟩
  | scanHit hpc hne hsection hp => exact hs.stepScanHit hpc hne hsection hp
  | scanMiss hpc hne hsection => exact ⟨Bs, hs.stepScanMiss hpc hne hsection⟩
  | advance hpc =>
      obtain ⟨B, hB, rfl⟩ := hs.sound_pc hpc
      have hlink := hs.sound.arena.next_link hB
      exact ⟨Bs, hs.stepGoto hpc rfl hlink (by simp)⟩
  | scanned hpc => exact ⟨Bs, hs.stepGoto hpc rfl trivial (by simp)⟩
  | create hpc hcreate hne =>
      simp only [StaysInBounds, hpc] at hbounds
      exact ⟨_, (hs.stepCreate hpc hbounds hcreate).2⟩
  | createFailed hpc hcreate =>
      simp only [StaysInBounds, hpc] at hbounds
      exact absurd rfl (hs.stepCreate hpc hbounds hcreate).1
  | insert hpc hinsert =>
      have hbucket := hs.sound_pc hpc
      have hinv := hs.setHeap (hs.sound.insert hbucket hinsert) fun _ hb => hb
      exact ⟨Bs, .of_goto (hinv.goto hpc rfl hbucket) (.refl _ _) (by simp)⟩
  | place hpc hsection hp => exact hs.stepPlace hpc hsection hp
  | placeFailed hpc hsection => exact hs.stepPlaceFailed hpc hsection
  | zero hpc =>
      simp only [StaysInBounds, hpc] at hbounds
      exact ⟨Bs, hs.stepZero hpc hbounds⟩
  | kfree hpc hcall hlive =>
      exact ⟨Bs, .of_goto (hs.called (held_eq hpc) hlive) (.refl _ _) (by simp)⟩
  | refuse hpc hmagic =>
      obtain ⟨b, -, -, haddr, parent, prev, next, hpebble⟩ := hs.block (held_eq hpc)
      rw [haddr] at hmagic
      exact absurd hpebble.magic hmagic
  | free hpc hmagic hsection => exact hs.stepFree hpc hsection
  | readParent hpc =>
      have hbucket := hs.sound_pc hpc
      simp only [StaysInBounds, hpc] at hbounds
      rw [hbounds]
      exact ⟨Bs, hs.stepGoto hpc rfl hbucket (by simp)⟩
  | testPassed hpc =>
      have hbucket := hs.sound_pc hpc
      exact ⟨Bs, hs.stepGoto hpc rfl hbucket (by simp)⟩
  | testFailed hpc =>
      have hbucket := hs.sound_pc hpc
      exact ⟨Bs, hs.stepGoto hpc rfl hbucket (by simp)⟩
  | remove hpc hremove =>
      have hinv := hs.setHeap (hs.sound.remove (hs.sound_pc hpc) hremove) fun _ hb => hb
      exact ⟨Bs, .of_goto (hinv.goto hpc rfl trivial) (.refl _ _) (by simp)⟩
  | update hpc hupdate => exact hs.stepUpdate hpc hupdate

end Steps

end FroggyOs
