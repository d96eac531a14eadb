import FroggyOs.Klibc.Threads

/-!
# What concurrent calls keep

Along every run whose steps stay in bounds the buckets stay represented, the addresses the
threads hold are buckets, and every payload that a caller or a thread owns is a block in use
that nobody else owns. A bucket without a block in use keeps its blocks until some section of
`kmalloc` places a request in it.
-/

namespace FroggyOs

open ByteMemory Word64 LinkedChain Function Interleaving

attribute [local irreducible] bucketUpdateLargest placePebble scanSection placeSection freeSection
  unlinkBucket

variable {Thread : Type*}

/-! ## The invariant -/

/-- The buckets that the thread goes on to use are buckets of the heap. -/
def CallPc.Sound (Bs : List BucketModel) : CallPc → Prop
  | scanning _ bucket => IsLink Bs bucket
  | advancing _ bucket | inserting _ bucket | placing _ bucket | reading _ bucket
  | testing bucket | removing bucket | updating bucket => IsBucket Bs bucket
  | _ => True

theorem CallPc.Sound.imp {Bs Cs : List BucketModel} {pc : CallPc} (h : pc.Sound Bs)
    (himp : ∀ p, IsBucket Bs p → IsBucket Cs p) : pc.Sound Cs := by
  cases pc with
  | idle | creating | zeroing | freeing => trivial
  | scanning size bucket => exact IsLink.imp h (himp _)
  | _ => exact himp _ h

/-- The buckets `Bs` represent the heap, lie below its end, and are all that the threads use. -/
structure HeapSound (h : Heap) (pc : Thread → CallPc) (Bs : List BucketModel) : Prop where
  arena : Arena (fun _ => 0) h.mem Bs
  below : ∀ B ∈ Bs, B.stop ≤ h.vmm.kHeapEnd.toNat
  start : IsBucket Bs h.kHeapStart
  pcs : ∀ t, (pc t).Sound Bs

/-- The payloads the threads hold. -/
def CallState.held (s : CallState Thread) (t : Thread) : Option Nat := (s.pc t).payload

/-- The heap is sound, and every payload is owned once and is a block in use. -/
structure CallInv (s : CallState Thread) (Bs : List BucketModel) : Prop where
  sound : HeapSound s.heap s.pc Bs
  tokens : Tokens s.held s.live
  used : ∀ x, Present s.held s.live x → ∃ b, Used Bs b ∧ b.payload = x

/-- No block is in use. -/
def BucketModel.Unused (B : BucketModel) : Prop := ∀ b ∈ B.blocks, b.inUse = false

/-- An unused bucket that is not `touched` keeps its blocks. -/
def KeepsUnused (touched : Nat → Prop) (Bs Bs' : List BucketModel) : Prop :=
  ∀ B ∈ Bs, B.Unused → ¬ touched B.base → ∃ B' ∈ Bs', B'.base = B.base ∧ B'.blocks = B.blocks

section Keeps

variable {touched : Nat → Prop} {Bs pre post : List BucketModel} {B B' : BucketModel}

theorem KeepsUnused.refl (touched : Nat → Prop) (Bs : List BucketModel) :
    KeepsUnused touched Bs Bs := fun B hB _ _ => ⟨B, hB, rfl, rfl⟩

theorem KeepsUnused.cons (touched : Nat → Prop) (B : BucketModel) (Bs : List BucketModel) :
    KeepsUnused touched Bs (B :: Bs) := fun C hC _ _ => ⟨C, List.mem_cons_of_mem B hC, rfl, rfl⟩

theorem KeepsUnused.replace (hbase : B'.base = B.base)
    (hkept : B.Unused → ¬ touched B.base → B'.blocks = B.blocks) :
    KeepsUnused touched (pre ++ B :: post) (pre ++ B' :: post) := by
  intro C hC hunused htouched
  have hmem : C = B ∨ C ∈ pre ++ post := by
    simpa [or_left_comm, or_assoc] using hC
  obtain rfl | hother := hmem
  · exact ⟨B', by simp, hbase, hkept hunused htouched⟩
  · exact ⟨C, by simpa using Or.imp_right Or.inr (List.mem_append.mp hother), rfl, rfl⟩

end Keeps

/-! ## Parts of a step -/

section Parts

variable {h : Heap} {pc : Thread → CallPc} {Bs Cs pre post : List BucketModel}
  {B B' : BucketModel} {m : Mem} {t : Thread}

/-- A step inside one bucket. -/
theorem HeapSound.step (hs : HeapSound h pc (pre ++ B :: post))
    (hstep : BucketStep h.mem B m B') : HeapSound { h with mem := m } pc (pre ++ B' :: post) where
  arena := hs.arena.step hstep
  below := by
    refine forall_replace hs.below ?_
    rw [hstep.stop_eq]
    exact hs.below B (by simp)
  start := hs.start.replace hstep.base_eq
  pcs := fun u => (hs.pcs u).imp fun _ hp => hp.replace hstep.base_eq

/-- A step that changes links only. -/
theorem HeapSound.relink (hs : HeapSound h pc Bs) (harena : Arena (fun _ => 0) m Bs) :
    HeapSound { h with mem := m } pc Bs := ⟨harena, hs.below, hs.start, hs.pcs⟩

theorem HeapSound.bucket (hs : HeapSound h pc Bs) {p : Nat} (hp : IsBucket Bs p) :
    ∃ pre B post prev next, Bs = pre ++ B :: post ∧ B.base = p ∧ B.WF ∧
      BucketAt 0 h.mem B prev next := by
  obtain ⟨B, hB, hbase⟩ := hp
  obtain ⟨prev, next, -, -, hat⟩ := hs.arena.bucketAt B hB
  obtain ⟨pre, post, rfl⟩ := List.append_of_mem hB
  exact ⟨pre, B, post, prev, next, rfl, hbase, hs.arena.separate.wf B hB, hat⟩

variable {s : CallState Thread}

/-- A new heap with the same blocks in use. -/
theorem CallInv.setHeap (hs : CallInv s Bs) {h' : Heap} (hsound : HeapSound h' s.pc Cs)
    (hused : ∀ b, Used Bs b → Used Cs b) : CallInv { s with heap := h' } Cs where
  sound := hsound
  tokens := hs.tokens
  used := by
    intro x hx
    obtain ⟨b, hb, hpayload⟩ := hs.used x hx
    exact ⟨b, hused b hb, hpayload⟩

theorem held_eq {pc : CallPc} (hpc : s.pc t = pc) : s.held t = pc.payload := by
  rw [CallState.held, hpc]

theorem CallInv.sound_pc (hs : CallInv s Bs) {pc : CallPc} (hpc : s.pc t = pc) : pc.Sound Bs := by
  rw [← hpc]
  exact hs.sound.pcs t

/-- A section that keeps the blocks of its bucket. -/
theorem CallInv.keepBlocks (hs : CallInv s (pre ++ B :: post))
    (hstep : BucketStep s.heap.mem B m B') (hblocks : B'.blocks = B.blocks) :
    CallInv (s.withMem m) (pre ++ B' :: post) := by
  apply hs.setHeap (hs.sound.step hstep)
  intro b hb
  rw [used_middle, hblocks]
  exact used_middle.mp hb

/-- The payload that `t` holds is a block in use. -/
theorem CallInv.block (hs : CallInv s Bs) {ptr : Nat} (hheld : s.held t = some ptr) :
    ∃ b, Used Bs b ∧ b.payload = ptr ∧ sub64 ptr MemoryPebble.sizeof = b.addr ∧
      ∃ parent prev next, PebbleAt s.heap.mem parent b prev next := by
  obtain ⟨b, hb, rfl⟩ := hs.used ptr (.inr ⟨t, hheld⟩)
  have hused := hb
  obtain ⟨-, B, hB, hb⟩ := hb
  have hbounds := (hs.sound.arena.separate.wf B hB).block_bounds hb
  have hbelow := hs.sound.below B hB
  have hword := s.heap.vmm.kHeapEnd.toNat_lt
  have hlt : b.payload < 2 ^ 64 := by
    simp only [Block.payload]
    omega
  exact ⟨b, hused, rfl, b.sub64_payload hlt, B.base, (hs.sound.arena.body hB).pebble hb⟩

variable [DecidableEq Thread]

theorem HeapSound.goto (hs : HeapSound h pc Bs) {next : CallPc} (hnext : next.Sound Bs) :
    HeapSound h (update pc t next) Bs where
  arena := hs.arena
  below := hs.below
  start := hs.start
  pcs := forall_update (p := CallPc.Sound Bs) hs.pcs hnext fun _ _ h => h

theorem held_goto (s : CallState Thread) (t : Thread) (next : CallPc) :
    (s.goto t next).held = update s.held t next.payload := by
  funext u
  exact apply_update (fun _ => CallPc.payload) s.pc t next u

/-- A step that neither changes the heap nor hands a payload on. -/
theorem CallInv.goto (hs : CallInv s Bs) {pc next : CallPc} (hpc : s.pc t = pc)
    (hold : pc.payload = next.payload) (hnext : next.Sound Bs) : CallInv (s.goto t next) Bs := by
  have hheld : (s.goto t next).held = s.held := by
    rw [held_goto, ← hold, ← held_eq hpc, update_eq_self]
  refine ⟨hs.sound.goto hnext, ?_, ?_⟩
  · rw [hheld]
    exact hs.tokens
  · rw [hheld]
    exact hs.used

/-! ## Placing and freeing -/

/-- A section of `kmalloc` hands a block to its thread that nobody owns. -/
theorem CallInv.placed (hs : CallInv s (pre ++ B :: post)) {need p size : Nat}
    (hstep : BucketStep s.heap.mem B m B') (hplaced : Placed need B.blocks p B'.blocks)
    (hp : p ≠ 0) (hheld : s.held t = none) :
    CallInv ((s.withMem m).goto t (.zeroing size (add64 p MemoryPebble.sizeof)))
      (pre ++ B' :: post) := by
  have hB : B ∈ pre ++ B :: post := by simp
  obtain ⟨b, hb, haddr, hused⟩ := hplaced.exists_used hp
  have hbounds := hstep.wf.block_bounds hb
  have hend := hs.sound.below B hB
  have hword := s.heap.vmm.kHeapEnd.toNat_lt
  rw [← hstep.stop_eq] at hend
  have hret : add64 p MemoryPebble.sizeof = b.payload := by
    rw [← haddr]
    apply b.add64_addr
    simp only [Block.payload]
    omega
  have hfresh : ¬ Present s.held s.live b.payload := by
    intro hpresent
    obtain ⟨c, ⟨hcused, C, hC, hc⟩, hpayload⟩ := hs.used _ hpresent
    have hcaddr : c.addr = b.addr := Nat.add_right_cancel hpayload
    -- the block that was found lay free in `B`
    obtain ⟨d, hd, hdaddr, hfits⟩ := hplaced.exists_fits hp
    have hsame : c = d := by
      apply hs.sound.arena.separate.block_ext hC hB hc hd
      rw [hcaddr, haddr, hdaddr]
    simp [fits, ← hsame, hcused] at hfits
  rw [hret]
  refine ⟨(hs.sound.step hstep).goto trivial, ?_, ?_⟩
  · rw [held_goto]
    exact hs.tokens.give hfresh
  · intro x hx
    rw [held_goto] at hx
    obtain rfl | hx := (present_give hheld).mp hx
    · exact ⟨b, used_middle.mpr (.inl ⟨hused, hb⟩), rfl⟩
    · obtain ⟨c, hc, hpayload⟩ := hs.used x hx
      refine ⟨c, used_middle.mpr ((used_middle.mp hc).imp_left ?_), hpayload⟩
      exact fun hcB => ⟨hcB.1, hplaced.mem_of_used hcB.2 hcB.1⟩

/-- The section of `kfree` takes the freed block from its thread and from nobody else. -/
theorem CallInv.freed (hs : CallInv s (pre ++ B :: post)) {before after : List Block} {b : Block}
    (hstep : BucketStep s.heap.mem B m B') (hblocks : B.blocks = before ++ b :: after)
    (hnew : B'.blocks = release before b after) (hheld : s.held t = some b.payload) (p : Nat) :
    CallInv ((s.withMem m).goto t (.reading p B.base)) (pre ++ B' :: post) := by
  have hbucket : IsBucket (pre ++ B' :: post) B.base := ⟨B', by simp, hstep.base_eq⟩
  refine ⟨(hs.sound.step hstep).goto hbucket, ?_, ?_⟩
  · rw [held_goto]
    exact hs.tokens.drop
  · intro x hx
    rw [held_goto] at hx
    obtain ⟨hpresent, hne⟩ := (hs.tokens.present_drop hheld).mp hx
    obtain ⟨c, hc, hpayload⟩ := hs.used x hpresent
    refine ⟨c, used_middle.mpr ((used_middle.mp hc).imp_left ?_), hpayload⟩
    rintro ⟨hcused, hcB⟩
    refine ⟨hcused, ?_⟩
    have hcb : c ≠ b := by
      rintro rfl
      exact hne hpayload.symm
    rw [hblocks] at hcB
    rw [hnew]
    apply mem_release_of_used _ hcused
    simpa [hcb] using hcB

/-- The zero fill hands the payload to the caller. -/
theorem CallInv.zeroed (hs : CallInv s Bs) {size ret : Nat} {b : Block} (hb : Used Bs b)
    (hret : b.payload = ret) (hsize : size ≤ b.size) (hheld : s.held t = some ret) :
    CallInv ({ s.withMem (memset s.heap.mem ret 0 size) with
      live := ret :: s.live }.goto t .idle) Bs := by
  have hchanges : ChangesPayload b s.heap.mem (memset s.heap.mem ret 0 size) := by
    rw [← hret]
    exact .memset hsize
  obtain ⟨hused, B, hB, hbB⟩ := hb
  have hstep := hchanges.step (hs.sound.arena.body hB) (hs.sound.arena.separate.wf B hB) hbB
  obtain ⟨pre, post, rfl⟩ := List.append_of_mem hB
  refine ⟨(hs.sound.step hstep).goto trivial, ?_, ?_⟩
  · rw [held_goto]
    exact hs.tokens.put hheld
  · intro x hx
    rw [held_goto] at hx
    exact hs.used x ((hs.tokens.present_put hheld).mp hx)

/-- A caller passes a payload to `kfree`. -/
theorem CallInv.called (hs : CallInv s Bs) {ptr : Nat} (hheld : s.held t = none)
    (hlive : ptr ∈ s.live) :
    CallInv ({ s with live := s.live.erase ptr }.goto t (.freeing ptr)) Bs := by
  refine ⟨hs.sound.goto trivial, ?_, ?_⟩
  · rw [held_goto]
    exact hs.tokens.take hlive
  · intro x hx
    rw [held_goto] at hx
    exact hs.used x ((hs.tokens.present_take hheld hlive).mp hx)

end Parts

/-! ## Buckets -/

section Buckets

variable {h h' : Heap} {pc : Thread → CallPc} {Bs : List BucketModel} {bucket size : Nat}

theorem HeapSound.remove (hs : HeapSound h pc Bs) (hbucket : IsBucket Bs bucket)
    (hremove : removeBucket h bucket = some h') : HeapSound h' pc Bs := by
  obtain ⟨B, hB, rfl⟩ := hbucket
  rw [removeBucket] at hremove
  split at hremove
  case isFalse =>
    cases hremove
    exact hs
  case isTrue =>
    simp only [Option.bind_eq_bind, Option.bind_eq_some_iff, Option.some.injEq] at hremove
    obtain ⟨vmm, hmunmap, rfl⟩ := hremove
    have hend : vmm.kHeapEnd = h.vmm.kHeapEnd := munmap_kHeapEnd hmunmap
    have harena := hs.arena.unlinkBucket hB
    refine ⟨harena, fun C hC => ?_, hs.start, hs.pcs⟩
    rw [hend]
    exact hs.below C hC

/-- The heap end is behind the first bucket, so `create_bucket` does not fail. -/
theorem HeapSound.kHeapEnd_ne_zero (hs : HeapSound h pc Bs) : h.vmm.kHeapEnd.toNat ≠ 0 := by
  obtain ⟨A, hA, -⟩ := hs.start
  have hlt := (hs.arena.separate.wf A hA).base_lt_stop
  have hbelow := hs.below A hA
  omega

theorem HeapSound.create (hs : HeapSound h pc Bs) (hin : RegionInRange h size)
    (hcreate : createBucket h size 0 = some (bucket, h')) :
    bucket ≠ 0 ∧ HeapSound h' pc (freshBucket bucket (bucketBytes size) :: Bs) := by
  have hbytes := bucketBytes_eq hin.1
  have hlt := bucketBytes_lt size
  have hne := hs.kHeapEnd_ne_zero
  obtain ⟨vmm, hmmap, hcases⟩ := createBucket_cases hcreate
  have hbucket : bucket ≠ 0 := by
    rintro rfl
    rw [Vmm.mmap] at hmmap
    split at hmmap
    case isTrue hzero => exact hne hzero
    case isFalse hstart =>
      simp only [Option.map_eq_some_iff, Prod.mk.injEq] at hmmap
      obtain ⟨v, -, hzero, -⟩ := hmmap
      exact hstart hzero
  obtain ⟨-, rfl⟩ := hcases.resolve_left fun hand => hbucket hand.1
  obtain ⟨hregion, hend⟩ := mmap_kHeapEnd (by rw [pageSize]; omega) hmmap hbucket
  rw [pageSize] at hend
  have hfits : bucket + bucketBytes size < 2 ^ 64 := by
    rw [hregion]
    exact hin.2
  have hwf := freshBucket_wf hbucket (by omega : 124 ≤ bucketBytes size) (by omega) (by omega)
  have hbelow : ∀ B ∈ Bs, B.stop ≤ bucket := by
    rw [hregion]
    exact hs.below
  refine ⟨hbucket, hs.arena.create 0 hwf (by omega) hlt hbelow, ?_, hs.start.cons,
    fun t => (hs.pcs t).imp fun _ hp => hp.cons⟩
  have hmoved : vmm.kHeapEnd.toNat = bucket + bucketBytes size := by omega
  simp only [List.forall_mem_cons, hmoved]
  refine ⟨?_, fun B hB => Nat.le_add_right_of_le (hbelow B hB)⟩
  simp only [freshBucket, BucketModel.stop]
  omega

theorem HeapSound.insert (hs : HeapSound h pc Bs) (hbucket : IsBucket Bs bucket) {m : Mem}
    (hinsert : insertBucket h.mem bucket h.kHeapStart = some m) :
    HeapSound { h with mem := m } pc Bs := by
  obtain ⟨N, hN, rfl⟩ := hbucket
  obtain ⟨A, hA, hstart⟩ := hs.start
  obtain ⟨m', hcall, harena⟩ := hs.arena.insertBucket hN hA
  rw [← hstart, hcall] at hinsert
  cases hinsert
  exact hs.relink harena

end Buckets

end FroggyOs
