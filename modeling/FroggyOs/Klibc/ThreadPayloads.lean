import FroggyOs.Klibc.PayloadFrame
import FroggyOs.Klibc.ThreadRuns

/-!
# What a thread leaves in the payloads of the others

A step of one thread may cut, mark and merge blocks, create a bucket and move the links of the
list, while the payloads that the other threads and the callers have stay blocks in use with
all of their bytes. The links are arbitrary here, so the frame of the list operations rests on
what holds in an arena: every link is `NULL` or leads to a header.
-/

namespace FroggyOs

open ByteMemory Word64 Function Interleaving

attribute [local irreducible] bucketUpdateLargest placePebble scanSection placeSection freeSection
  pebbleSize bucketBytes createBucket removeBucket insertBucket memset

/-! ## Links in no order -/

section Links

variable {lock : Nat → Nat} {m m' : Mem} {Bs : List BucketModel} {A B N : BucketModel} {p v x : Nat}

/-- A header that a link leads to is written. -/
theorem IsLink.put_byte (hp : IsLink Bs p) (hne : p ≠ 0) {f : Field}
    (hf : f.offset + f.width ≤ 64) (hx : ∀ C ∈ Bs, x < C.base ∨ C.base + 64 ≤ x) :
    (m.put p f v).byte x = m.byte x := by
  obtain ⟨C, hC, rfl⟩ := hp.resolve_left hne
  have hapart := hx C hC
  exact Mem.put_byte_outside (by omega)

theorem IsLink.put_base (hA : A ∈ Bs) {f : Field} (hf : f.offset + f.width ≤ 64)
    (hx : ∀ C ∈ Bs, x < C.base ∨ C.base + 64 ≤ x) : (m.put A.base f v).byte x = m.byte x := by
  have hapart := hx A hA
  exact Mem.put_byte_outside (by omega)

namespace Arena

theorem updateNode_byte (h : Arena lock m Bs) (hN : N ∈ Bs) (hA : A ∈ Bs)
    (hx : ∀ C ∈ Bs, x < C.base ∨ C.base + 64 ≤ x) :
    (FroggyOs.updateNode m N.base A.base).byte x = m.byte x := by
  have h₁ := h.put_next hN (h.next_link hA)
  have h₂ := h₁.put_next hA (isLink_base hN)
  have h₃ := h₂.put_prev hN (isLink_base hA)
  have hsame : (((m.put N.base MemoryBucket.next (m.get A.base MemoryBucket.next)).put A.base
      MemoryBucket.next N.base).put N.base MemoryBucket.prev A.base).byte x = m.byte x := by
    rw [IsLink.put_base hN (by decide) hx, IsLink.put_base hA (by decide) hx,
      IsLink.put_base hN (by decide) hx]
  rw [FroggyOs.updateNode]
  split
  case isTrue hne => rw [(h₃.next_link hN).put_byte hne (by decide) hx, hsame]
  case isFalse => exact hsame

theorem unlinkBucket_byte (h : Arena lock m Bs) (hB : B ∈ Bs)
    (hx : ∀ C ∈ Bs, x < C.base ∨ C.base + 64 ≤ x) :
    (FroggyOs.unlinkBucket m B.base).byte x = m.byte x := by
  have hfirst : Arena lock
      (if m.get B.base MemoryBucket.prev ≠ 0 then
        m.put (m.get B.base MemoryBucket.prev) MemoryBucket.next (m.get B.base MemoryBucket.next)
      else m) Bs ∧
      (if m.get B.base MemoryBucket.prev ≠ 0 then
        m.put (m.get B.base MemoryBucket.prev) MemoryBucket.next (m.get B.base MemoryBucket.next)
      else m).byte x = m.byte x := by
    split
    case isTrue hne =>
        exact ⟨h.put_next_link (h.prev_link hB) hne (h.next_link hB),
          (h.prev_link hB).put_byte hne (by decide) hx⟩
    case isFalse => exact ⟨h, rfl⟩
  rw [FroggyOs.unlinkBucket]
  generalize (if m.get B.base MemoryBucket.prev ≠ 0 then
      m.put (m.get B.base MemoryBucket.prev) MemoryBucket.next (m.get B.base MemoryBucket.next)
    else m) = m₁ at hfirst ⊢
  obtain ⟨h₁, hsame⟩ := hfirst
  split
  case isTrue hne => rw [(h₁.next_link hB).put_byte hne (by decide) hx, hsame]
  case isFalse => exact hsame

theorem insertBucket_byte (h : Arena (fun _ => 0) m Bs) (hN : N ∈ Bs) (hA : A ∈ Bs)
    (hcall : FroggyOs.insertBucket m N.base A.base = some m')
    (hx : ∀ C ∈ Bs, x < C.base ∨ C.base + 64 ≤ x) : m'.byte x = m.byte x := by
  obtain ⟨prev, next, -, -, hat⟩ := h.bucketAt A hA
  have hlocked := h.put_spinlock hA (by decide : 1 < 2 ^ 32)
  rw [FroggyOs.insertBucket, if_pos ⟨(h.separate.wf N hN).base_ne, (h.separate.wf A hA).base_ne⟩,
    acquireSpinlock_eq hat.spinlock] at hcall
  cases hcall
  rw [releaseSpinlock_eq, IsLink.put_base hA (by decide) hx, hlocked.updateNode_byte hN hA hx,
    IsLink.put_base hA (by decide) hx]

end Arena

end Links

/-! ## One step -/

/-- What a step of `t` from `s` to `s'` leaves to the others: a block in use stays in use unless
`t` frees it, and keeps its bytes unless `t` fills it with zeros. -/
structure StepOwns {Thread : Type*} (s s' : CallState Thread) (t : Thread)
    (Bs Bs' : List BucketModel) : Prop extends StepKeeps s s' t Bs Bs' where
  used : ∀ b, Used Bs b → s.pc t ≠ .freeing b.payload → Used Bs' b
  bytes : ∀ b, Used Bs b → (∀ size, s.pc t ≠ .zeroing size b.payload) →
    ∀ x, b.payload ≤ x → x < b.stop → s'.heap.mem.byte x = s.heap.mem.byte x

/-- The memory `m'` has the bytes of `m` in the blocks in use. -/
def SamePayloads (Bs : List BucketModel) (m m' : Mem) : Prop :=
  ∀ b, Used Bs b → ∀ x, b.payload ≤ x → x < b.stop → m'.byte x = m.byte x

section Steps

variable {Thread : Type*} {calls : Set HeapCall} {s s' : CallState Thread}
  {t : Thread} {Bs Bs' pre post : List BucketModel} {B B' : BucketModel} {m : Mem}
  {size bucket p ptr ret need : Nat}

/-- A step that writes no payload and frees none. -/
theorem StepOwns.of_same (hkeeps : StepKeeps s s' t Bs Bs') (hused : ∀ b, Used Bs b → Used Bs' b)
    (hsame : SamePayloads Bs s.heap.mem s'.heap.mem) : StepOwns s s' t Bs Bs' :=
  ⟨hkeeps, fun b hb _ => hused b hb, fun b hb _ => hsame b hb⟩

/-- A step that changes no byte. -/
theorem StepOwns.still (hkeeps : StepKeeps s s' t Bs Bs) (hmem : s'.heap.mem = s.heap.mem) :
    StepOwns s s' t Bs Bs :=
  .of_same hkeeps (fun _ hb => hb) fun _ _ x _ _ => by rw [hmem]

/-- What writes headers of buckets only. -/
theorem Separate.samePayloads (h : Separate Bs) {m m' : Mem}
    (hheaders : ∀ x, (∀ C ∈ Bs, x < C.base ∨ C.base + 64 ≤ x) → m'.byte x = m.byte x) :
    SamePayloads Bs m m' :=
  fun _ hb x hlow hhigh => hheaders x fun _ hC => (h.clear hb hC hlow hhigh).bucket

/-- A section that places a request, or finds no place for it. -/
theorem StepOwns.placed (hkeeps : StepKeeps s s' t (pre ++ B :: post) (pre ++ B' :: post))
    (hplaced : Placed need B.blocks p B'.blocks)
    (hsame : SamePayloads (pre ++ B :: post) s.heap.mem s'.heap.mem) :
    StepOwns s s' t (pre ++ B :: post) (pre ++ B' :: post) := by
  refine .of_same hkeeps (fun b hb => used_middle.mpr ((used_middle.mp hb).imp_left ?_)) hsame
  rintro ⟨hused, hmem⟩
  exact ⟨hused, hplaced.mem_of_used hmem hused⟩

variable [DecidableEq Thread]

theorem CallInv.ownsScan (hs : CallInv s Bs) (hpc : s.pc t = .scanning size bucket)
    (hne : bucket ≠ 0)
    (hsection : scanSection s.heap.mem bucket (pebbleSize size) = some (p, m)) (hp : p ≠ 0) :
    ∃ Bs', StepOwns s ((s.withMem m).goto t (.zeroing size (add64 p MemoryPebble.sizeof))) t
      Bs Bs' := by
  have hlink : IsLink Bs bucket := hs.sound_pc hpc
  obtain ⟨pre, B, post, prev, next, rfl, rfl, hwf, hat⟩ :=
    hs.sound.bucket (hlink.resolve_left hne)
  have hsame : SamePayloads (pre ++ B :: post) s.heap.mem m := fun b hb x hlow hhigh =>
    scanSection_byte hat hwf (pebbleSize_aligned size) hsection
      (hs.sound.arena.separate.kept hb (by simp) hlow hhigh)
  obtain ⟨hrefused, hadmitted⟩ := scanSection_spec hat hwf (pebbleSize_aligned size)
  by_cases hadmits : B.Admits (pebbleSize size)
  · obtain ⟨p', m', B', hcall, -, hstep, hplaced, -⟩ := hadmitted hadmits
    rw [hcall] at hsection
    cases hsection
    have htouched : PlacesIn s t B.base := by
      simp only [PlacesIn, hpc, true_and]
      rw [hat.body.largest, hasRoom_iff hat.body hwf]
      exact ⟨hne, hadmits⟩
    exact ⟨_, .placed (hs.stepPlaced hstep hplaced hp (held_eq hpc) htouched) hplaced hsame⟩
  · rw [hrefused hadmits] at hsection
    cases hsection
    exact absurd rfl hp

/-- A section that finds no place changes nothing, except that it takes the lock and gives it
back. -/
theorem CallInv.ownsScanMiss (hs : CallInv s Bs) (hpc : s.pc t = .scanning size bucket)
    (hne : bucket ≠ 0)
    (hsection : scanSection s.heap.mem bucket (pebbleSize size) = some (0, m)) :
    StepOwns s ((s.withMem m).goto t (.advancing size bucket)) t Bs Bs := by
  have hkeeps := hs.stepScanMiss hpc hne hsection
  have hlink : IsLink Bs bucket := hs.sound_pc hpc
  obtain ⟨pre, B, post, prev, next, rfl, rfl, hwf, hat⟩ :=
    hs.sound.bucket (hlink.resolve_left hne)
  exact .of_same hkeeps (fun _ hb => hb) fun b hb x hlow hhigh =>
    scanSection_byte hat hwf (pebbleSize_aligned size) hsection
      (hs.sound.arena.separate.kept hb (by simp) hlow hhigh)

theorem CallInv.ownsPlace (hs : CallInv s Bs) (hpc : s.pc t = .placing size bucket)
    (hsection : placeSection s.heap.mem bucket (pebbleSize size) = some (p, m)) (hp : p ≠ 0) :
    ∃ Bs', StepOwns s ((s.withMem m).goto t (.zeroing size (add64 p MemoryPebble.sizeof))) t
      Bs Bs' := by
  obtain ⟨pre, B, post, prev, next, rfl, rfl, hwf, hat⟩ := hs.sound.bucket (hs.sound_pc hpc)
  have hsame : SamePayloads (pre ++ B :: post) s.heap.mem m := fun b hb x hlow hhigh =>
    placeSection_byte hat hwf (pebbleSize_aligned size) hsection
      (hs.sound.arena.separate.kept hb (by simp) hlow hhigh)
  obtain ⟨p', m', B', hcall, hstep, hplaced, -⟩ :=
    placeSection_spec hat hwf (pebbleSize_aligned size)
  rw [hcall] at hsection
  cases hsection
  have htouched : PlacesIn s t B.base := by
    obtain ⟨b, hb, -, hfits⟩ := hplaced.exists_fits hp
    simp only [PlacesIn, hpc, true_and]
    exact (hasRoom_iff hat.body hwf).mpr ⟨b, hb, hfits⟩
  exact ⟨_, .placed (hs.stepPlaced hstep hplaced hp (held_eq hpc) htouched) hplaced hsame⟩

theorem CallInv.ownsPlaceFailed (hs : CallInv s Bs) (hpc : s.pc t = .placing size bucket)
    (hsection : placeSection s.heap.mem bucket (pebbleSize size) = some (0, m)) :
    ∃ Bs', StepOwns s ({ s.withMem m with failed := bucket :: s.failed }.goto t .idle) t
      Bs Bs' := by
  obtain ⟨pre, B, post, prev, next, rfl, rfl, hwf, hat⟩ := hs.sound.bucket (hs.sound_pc hpc)
  have hsame : SamePayloads (pre ++ B :: post) s.heap.mem m := fun b hb x hlow hhigh =>
    placeSection_byte hat hwf (pebbleSize_aligned size) hsection
      (hs.sound.arena.separate.kept hb (by simp) hlow hhigh)
  obtain ⟨p', m', B', hcall, hstep, hplaced, -⟩ :=
    placeSection_spec hat hwf (pebbleSize_aligned size)
  rw [hcall] at hsection
  cases hsection
  have hblocks : B'.blocks = B.blocks := hplaced.eq_of_missed hwf.addr_ne_zero
  have hkept := hs.keepBlocks hstep hblocks
  have hinv : CallInv { s.withMem m with failed := B.base :: s.failed } (pre ++ B' :: post) :=
    ⟨hkept.sound, hkept.tokens, hkept.used⟩
  have hkeeps : StepKeeps s ({ s.withMem m with failed := B.base :: s.failed }.goto t .idle) t
      (pre ++ B :: post) (pre ++ B' :: post) :=
    .of_goto (hinv.goto hpc rfl trivial) (.replace hstep.base_eq fun _ _ => hblocks) (by simp)
  exact ⟨_, .placed hkeeps hplaced hsame⟩

/-- A new bucket lies above all payloads. -/
theorem CallInv.ownsCreate (hs : CallInv s Bs) {h : Heap} (hpc : s.pc t = .creating size)
    (hin : RegionInRange s.heap size) (hcreate : createBucket s.heap size 0 = some (bucket, h)) :
    bucket ≠ 0 ∧ StepOwns s ({ s with heap := h }.goto t (.inserting size bucket)) t Bs
      (freshBucket bucket (bucketBytes size) :: Bs) := by
  obtain ⟨hne, hkeeps⟩ := hs.stepCreate hpc hin hcreate
  refine ⟨hne, .of_same hkeeps ?_ fun b hb x hlow hhigh => ?_⟩
  · rintro b ⟨hused, C, hC, hb⟩
    exact ⟨hused, C, List.mem_cons_of_mem _ hC, hb⟩
  · obtain ⟨-, C, hC, hbC⟩ := hb
    have hbounds := (hs.sound.arena.separate.wf C hC).block_bounds hbC
    have hend := hs.sound.below C hC
    have hbytes := bucketBytes_eq hin.1
    have hfits := hin.2
    obtain ⟨vmm, hmmap, hcases⟩ := createBucket_cases hcreate
    obtain ⟨-, rfl⟩ := hcases.resolve_left fun hand => hne hand.1
    obtain ⟨hregion, -⟩ := mmap_kHeapEnd (by rw [pageSize]; omega) hmmap hne
    simp only [Block.stop] at hhigh
    exact initBucket_byte (by omega) (.inl (by omega))

/-- The zero fill of a block leaves the others alone. -/
theorem CallInv.ownsZero (hs : CallInv s Bs) (hpc : s.pc t = .zeroing size ret)
    (hsize : size ≤ s.heap.mem.get (sub64 ret MemoryPebble.sizeof) MemoryPebble.size) :
    StepOwns s ({ s.withMem (memset s.heap.mem ret 0 size) with
      live := ret :: s.live }.goto t .idle) t Bs Bs := by
  refine ⟨hs.stepZero hpc hsize, fun b hb _ => hb, fun b hb hother x hlow hhigh => ?_⟩
  obtain ⟨c, hc, hpayload, haddr, parent, prev, next, hpebble⟩ := hs.block (held_eq hpc)
  rw [haddr, hpebble.size] at hsize
  have hne : b ≠ c := by
    rintro rfl
    exact hother size (hpayload ▸ hpc)
  have hapart := hs.sound.arena.separate.used_apart hb hc hne
  have houtside : x < ret ∨ ret + size ≤ x := by
    simp only [Block.payload, Block.stop] at hlow hhigh hapart hpayload
    omega
  change (memset s.heap.mem ret 0 size).byte x = s.heap.mem.byte x
  rw [memset, Mem.fill_byte_outside houtside]

/-- The section of `kfree` writes headers, and takes one block out of use. -/
theorem CallInv.ownsFree (hs : CallInv s Bs) (hpc : s.pc t = .freeing ptr)
    (hsection : freeSection s.heap.mem (sub64 ptr MemoryPebble.sizeof) = some (p, m)) :
    ∃ Bs', StepOwns s ((s.withMem m).goto t
      (.reading p (s.heap.mem.get (sub64 ptr MemoryPebble.sizeof) MemoryPebble.parent))) t
      Bs Bs' := by
  have hheld : s.held t = some ptr := held_eq hpc
  obtain ⟨b, ⟨hused, C, hC, hb⟩, rfl, haddr, -⟩ := hs.block hheld
  obtain ⟨pre, B, post, prev, next, rfl, hbase, hwf, hat⟩ := hs.sound.bucket ⟨C, hC, rfl⟩
  obtain rfl : B = C := hs.sound.arena.separate.bucket_ext (by simp) hC hbase
  obtain ⟨before, after, hblocks⟩ := List.append_of_mem hb
  obtain ⟨bprev, bnext, hpebble⟩ := hat.body.pebble hb
  rw [haddr] at hsection ⊢
  have hsame : SamePayloads (pre ++ B :: post) s.heap.mem m := fun c hc x hlow hhigh =>
    freeSection_byte hat hwf hblocks hsection
      (hs.sound.arena.separate.clear hc (by simp) hlow hhigh)
  obtain ⟨p', m', B', hcall, hstep, hnew, -, -⟩ := freeSection_spec hat hwf hblocks
  rw [hcall] at hsection
  cases hsection
  rw [hpebble.parent]
  refine ⟨_, .of_goto (hs.freed hstep hblocks hnew hheld p)
    (.replace hstep.base_eq fun hunused _ => ?_) (by simp), fun c hc hother => ?_,
    fun c hc _ => hsame c hc⟩
  · rw [hunused b hb] at hused
    cases hused
  · refine used_middle.mpr ((used_middle.mp hc).imp_left ?_)
    rintro ⟨hcused, hcB⟩
    have hne : c ≠ b := by
      rintro rfl
      exact hother hpc
    refine ⟨hcused, ?_⟩
    rw [hblocks] at hcB
    rw [hnew]
    apply mem_release_of_used _ hcused
    simpa [hne] using hcB

theorem CallInv.ownsUpdate (hs : CallInv s Bs) (hpc : s.pc t = .updating bucket)
    (hupdate : bucketUpdateLargest s.heap.mem bucket = some m) :
    ∃ Bs', StepOwns s ((s.withMem m).goto t .idle) t Bs Bs' := by
  obtain ⟨pre, B, post, prev, next, rfl, rfl, hwf, hat⟩ := hs.sound.bucket (hs.sound_pc hpc)
  have hsame : SamePayloads (pre ++ B :: post) s.heap.mem m :=
    hs.sound.arena.separate.samePayloads fun x hx =>
      bucketUpdateLargest_byte hupdate (hx B (by simp))
  rw [bucketUpdateLargest_eq hat.body hwf] at hupdate
  cases hupdate
  have hstep := updateLargest_step hat.body hwf
  refine ⟨_, .of_same (.of_goto ((hs.keepBlocks hstep rfl).goto hpc rfl trivial)
    (.replace hstep.base_eq fun _ _ => rfl) (by simp)) (fun b hb => ?_) hsame⟩
  rw [used_middle] at hb ⊢
  exact hb

omit [DecidableEq Thread] in
theorem CallInv.samePayloads_insert (hs : CallInv s Bs) (hpc : s.pc t = .inserting size bucket)
    (hinsert : insertBucket s.heap.mem bucket s.heap.kHeapStart = some m) :
    SamePayloads Bs s.heap.mem m := by
  obtain ⟨N, hN, rfl⟩ : IsBucket Bs bucket := hs.sound_pc hpc
  obtain ⟨A, hA, hstart⟩ := hs.sound.start
  rw [← hstart] at hinsert
  exact hs.sound.arena.separate.samePayloads fun x hx =>
    hs.sound.arena.insertBucket_byte hN hA hinsert hx

omit [DecidableEq Thread] in
theorem CallInv.samePayloads_remove (hs : CallInv s Bs) {h : Heap}
    (hpc : s.pc t = .removing bucket) (hremove : removeBucket s.heap bucket = some h) :
    SamePayloads Bs s.heap.mem h.mem := by
  obtain ⟨B, hB, rfl⟩ : IsBucket Bs bucket := hs.sound_pc hpc
  rw [removeBucket] at hremove
  split at hremove
  case isFalse =>
      cases hremove
      exact fun _ _ _ _ _ => rfl
  case isTrue =>
      obtain ⟨vmm, -, hret⟩ := Option.bind_eq_some_iff.mp hremove
      have hmem : h.mem = FroggyOs.unlinkBucket s.heap.mem B.base := by
        rw [← Option.some.inj hret]
      rw [hmem]
      exact hs.sound.arena.separate.samePayloads fun x hx =>
        hs.sound.arena.unlinkBucket_byte hB hx

/-- Every step that stays in bounds leaves the payloads of the others alone. -/
theorem CallInv.owns (hs : CallInv s Bs) (hbounds : StaysInBounds s t)
    (hstep : CallStep calls t s s') : ∃ Bs', StepOwns s s' t Bs Bs' := by
  cases hstep with
  | kmalloc hpc =>
      have hlink : IsLink Bs s.heap.kHeapStart := .inr hs.sound.start
      exact ⟨Bs, .still (hs.stepGoto hpc rfl hlink (by simp)) rfl⟩
  | scanHit hpc hne hsection hp => exact hs.ownsScan hpc hne hsection hp
  | scanMiss hpc hne hsection => exact ⟨Bs, hs.ownsScanMiss hpc hne hsection⟩
  | advance hpc =>
      obtain ⟨B, hB, rfl⟩ := hs.sound_pc hpc
      exact ⟨Bs, .still (hs.stepGoto hpc rfl (hs.sound.arena.next_link hB) (by simp)) rfl⟩
  | scanned hpc => exact ⟨Bs, .still (hs.stepGoto hpc rfl trivial (by simp)) rfl⟩
  | create hpc hcreate hne =>
      simp only [StaysInBounds, hpc] at hbounds
      exact ⟨_, (hs.ownsCreate hpc hbounds hcreate).2⟩
  | createFailed hpc hcreate =>
      simp only [StaysInBounds, hpc] at hbounds
      exact absurd rfl (hs.ownsCreate hpc hbounds hcreate).1
  | insert hpc hinsert =>
      have hbucket := hs.sound_pc hpc
      have hinv := hs.setHeap (hs.sound.insert hbucket hinsert) fun _ hb => hb
      exact ⟨Bs, .of_same (.of_goto (hinv.goto hpc rfl hbucket) (.refl _ _) (by simp))
        (fun _ hb => hb) (hs.samePayloads_insert hpc hinsert)⟩
  | place hpc hsection hp => exact hs.ownsPlace hpc hsection hp
  | placeFailed hpc hsection => exact hs.ownsPlaceFailed hpc hsection
  | zero hpc =>
      simp only [StaysInBounds, hpc] at hbounds
      exact ⟨Bs, hs.ownsZero hpc hbounds⟩
  | kfree hpc hcall hlive =>
      exact ⟨Bs, .still (.of_goto (hs.called (held_eq hpc) hlive) (.refl _ _) (by simp)) rfl⟩
  | refuse hpc hmagic =>
      obtain ⟨b, -, -, haddr, parent, prev, next, hpebble⟩ := hs.block (held_eq hpc)
      rw [haddr] at hmagic
      exact absurd hpebble.magic hmagic
  | free hpc hmagic hsection => exact hs.ownsFree hpc hsection
  | readParent hpc =>
      have hbucket := hs.sound_pc hpc
      simp only [StaysInBounds, hpc] at hbounds
      rw [hbounds]
      exact ⟨Bs, .still (hs.stepGoto hpc rfl hbucket (by simp)) rfl⟩
  | testPassed hpc =>
      have hbucket := hs.sound_pc hpc
      exact ⟨Bs, .still (hs.stepGoto hpc rfl hbucket (by simp)) rfl⟩
  | testFailed hpc =>
      have hbucket := hs.sound_pc hpc
      exact ⟨Bs, .still (hs.stepGoto hpc rfl hbucket (by simp)) rfl⟩
  | remove hpc hremove =>
      have hinv := hs.setHeap (hs.sound.remove (hs.sound_pc hpc) hremove) fun _ hb => hb
      exact ⟨Bs, .of_same (.of_goto (hinv.goto hpc rfl trivial) (.refl _ _) (by simp))
        (fun _ hb => hb) (hs.samePayloads_remove hpc hremove)⟩
  | update hpc hupdate => exact hs.ownsUpdate hpc hupdate

end Steps

end FroggyOs
