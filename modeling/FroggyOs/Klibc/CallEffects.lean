import FroggyOs.Klibc.Owners

/-!
# What a call does to the buckets

The specifications of the calls say which blocks are in use. Here the buckets themselves are
followed through a call: which of them changes and how its blocks do, and which region the
virtual memory manager is asked for or given back.
-/

namespace FroggyOs

open ByteMemory Word64 LinkedChain

attribute [local irreducible] bucketUpdateLargest placePebble searchBuckets chosenPebble
  bucketBytes popFrameList mapToPage pebbleSize placeSection

/-! ## One representation for each heap -/

section Unique

variable {m : Mem} {start bucket p n n' : Nat} {B B' : BucketModel} {Bs Bs' : List BucketModel}
  {b b' : Block}

theorem PebbleAt.unique (h : PebbleAt m bucket b p n) (h' : PebbleAt m bucket b' p n')
    (haddr : b.addr = b'.addr) : b = b' ∧ n = n' := by
  have hflags := h.lflags
  have hsize := h.size
  have hnext := h.next
  rw [haddr, h'.lflags] at hflags
  rw [haddr, h'.size] at hsize
  rw [haddr, h'.next] at hnext
  have huse : b.inUse = b'.inUse := by
    revert hflags
    cases b.inUse <;> cases b'.inUse <;> decide
  obtain ⟨addr, size, inUse⟩ := b
  cases haddr
  cases hsize
  cases huse
  exact ⟨rfl, hnext.symm⟩

theorem BucketBody.unique (h : BucketBody m B) (hwf : B.WF) (h' : BucketBody m B') (hwf' : B'.WF)
    (hbase : B.base = B'.base) : B = B' := by
  have hsize := h.size
  have hlargest := h.largest
  have hpebbles := h.pebbles
  rw [hbase, h'.size] at hsize
  rw [hbase, h'.largest] at hlargest
  rw [hbase] at hpebbles
  have hhead : headAddr Block.addr B.blocks 0 = headAddr Block.addr B'.blocks 0 := by
    rw [← h.first_eq hwf, ← h'.first_eq hwf', hbase]
  have hblocks := Chain.unique hpebbles h'.pebbles hhead hwf.addr_ne_zero hwf'.addr_ne_zero
    fun x _ y _ p n n' haddr hx hy => hx.unique hy haddr
  obtain ⟨base, pages, largest, blocks⟩ := B
  cases hbase
  cases hsize
  cases hlargest
  cases hblocks
  rfl

/-- Memory determines the buckets. -/
theorem HeapRep.unique (h : HeapRep m start Bs) (h' : HeapRep m start Bs') : Bs = Bs' := by
  refine Chain.unique h.chain h'.chain (h.head.trans h'.head.symm)
    (fun B hB => (h.wf B hB).base_ne) (fun B hB => (h'.wf B hB).base_ne)
    fun B hB B' hB' p n n' hbase hat hat' => ?_
  have hnext := hat.next
  rw [hbase, hat'.next] at hnext
  exact ⟨hat.body.unique (h.wf B hB) hat'.body (h'.wf B' hB') hbase, hnext.symm⟩

end Unique

/-! ## `kmalloc` -/

/-- The block of a new bucket. -/
def freshBlock (region bytes : Nat) : Block := ⟨region + 64, bytes - 124, false⟩

/-- A request of `size` bytes is placed in a bucket of the list, or a bucket is made for it
behind the first one, which may be too small. -/
inductive Obtains (h : Heap) (size : Nat) (h' : Heap) :
    List BucketModel → Nat → List BucketModel → Prop
  | found {pre post : List BucketModel} {B B' : BucketModel} {before after : List Block}
      {b : Block} (hblocks : B.blocks = before ++ b :: after)
      (hfits : fits (pebbleSize size) b = true) (hbase : B'.base = B.base)
      (hpages : B'.pages = B.pages)
      (hnew : B'.blocks = before ++ placeBlock b (pebbleSize size) ++ after)
      (hsize : pebbleSize size ≤ (splitHead b (pebbleSize size)).use.size)
      (hvmm : h'.vmm = h.vmm) :
      Obtains h size h' (pre ++ B :: post) (splitHead b (pebbleSize size)).use.payload
        (pre ++ B' :: post)
  | created {post : List BucketModel} {A N : BucketModel} {b : Block}
      (hin : RegionInRange h size)
      (hb : b = freshBlock h.vmm.kHeapEnd.toNat (bucketBytes size))
      (hfits : fits (pebbleSize size) b = true) (hbase : N.base = h.vmm.kHeapEnd.toNat)
      (hpages : N.pages = bucketBytes size / 4096)
      (hnew : N.blocks = placeBlock b (pebbleSize size))
      (hsize : pebbleSize size ≤ (splitHead b (pebbleSize size)).use.size)
      (hmmap : h.vmm.mmap (bucketBytes size / 4096) = some (h.vmm.kHeapEnd.toNat, h'.vmm)) :
      Obtains h size h' (A :: post) (splitHead b (pebbleSize size)).use.payload (A :: N :: post)
  | refused {post : List BucketModel} {A N : BucketModel} (hin : RegionInRange h size)
      (hbase : N.base = h.vmm.kHeapEnd.toNat) (hpages : N.pages = bucketBytes size / 4096)
      (hmmap : h.vmm.mmap (bucketBytes size / 4096) = some (h.vmm.kHeapEnd.toNat, h'.vmm)) :
      Obtains h size h' (A :: post) 0 (A :: N :: post)

section Obtain

variable {h : Heap} {Bs : List BucketModel} {n size : Nat}

theorem HeapInv.newBucket_effect (hinv : HeapInv h Bs) (hin : RegionInRange h size) :
    ∃ ret h' Bs', allocInNewBucket h size (pebbleSize size) = some (ret, h') ∧ HeapInv h' Bs' ∧
      Obtains h size h' Bs ret Bs' := by
  obtain ⟨A, post, rfl⟩ := List.exists_cons_of_ne_nil hinv.rep.nonempty
  obtain ⟨vmm, m₁, m, hcreate, hinsert, hNinv⟩ := hinv.create hin
  have hwf := hNinv.rep.wf _ List.mem_append_cons_self
  have hbase : h.vmm.kHeapEnd.toNat ≠ 0 := hwf.base_ne
  obtain ⟨vmm', hmmap, hcases⟩ := createBucket_cases hcreate
  have hvmm : vmm = vmm' := by
    obtain ⟨-, heq⟩ | ⟨-, heq⟩ := hcases <;> exact congrArg Heap.vmm heq
  subst hvmm
  obtain ⟨p, m', N, hsection, hstep, hplaced, -⟩ :=
    placeSection_spec (Chain.middle_iff.mp hNinv.rep.chain).2.1 hwf (pebbleSize_aligned size)
  have hinv' := hNinv.step hstep (hplaced.coalesced (hNinv.coalesced _ List.mem_append_cons_self))
  rw [freshBucket_base] at hsection
  have hcall : allocInNewBucket h size (pebbleSize size) =
      some (if p ≠ 0 then add64 p MemoryPebble.sizeof else 0, { h with mem := m', vmm }) := by
    rw [allocInNewBucket_eq, hcreate]
    simp only [Option.bind_some, hbase, if_false, hinsert, hsection]
  by_cases hp : p = 0
  · rw [if_neg (not_not.mpr hp)] at hcall
    exact ⟨_, _, _, hcall, hinv', .refused hin hstep.base_eq hstep.pages_eq hmmap⟩
  · generalize hys : N.blocks = ys at hplaced
    cases hplaced with
    | missed => exact absurd rfl hp
    | found before after b hsplit hfits =>
        obtain ⟨-, hpayload, hsize⟩ := hNinv.grant hsplit hfits hys
        rw [if_pos hp, hpayload] at hcall
        obtain _ | ⟨c, before⟩ := before
        · cases hsplit
          rw [List.nil_append, List.append_nil] at hys
          exact ⟨_, _, _, hcall, hinv',
            .created hin rfl hfits hstep.base_eq hstep.pages_eq hys hsize hmmap⟩
        · simp [freshBucket] at hsplit

/-- `kmalloc` up to its zero fill. -/
theorem HeapInv.obtain_effect (hinv : HeapInv h Bs) (hready : RegionReady h n) :
    ∃ ret h' Bs', obtainPebble h (requestSize n) = some (ret, h') ∧ HeapInv h' Bs' ∧
      Obtains h (requestSize n) h' Bs ret Bs' := by
  have hrep := hinv.rep
  have hspec := searchBuckets_spec hrep.chain hrep.wf (pebbleSize_aligned (requestSize n))
    hrep.length_lt
  rw [hrep.head] at hspec
  obtain ⟨hcall, -, hmissed⟩ |
    ⟨pre, B, post, before, b, after, m', B', rfl, -, hblocks, hfits, -, hcall, hstep, hnew, -⟩ :=
    hspec
  · have hunserved : ¬ Served h (pebbleSize (requestSize n)) := by
      rw [served_iff hrep]
      rintro ⟨B, hB, hlarge, c, hc, hfits⟩
      rw [hmissed B hB hlarge c hc] at hfits
      cases hfits
    rw [obtainPebble_eq hcall]
    exact hinv.newBucket_effect (hready hunserved)
  · have hB : B ∈ pre ++ B :: post := by simp
    obtain ⟨-, hpayload, hsize⟩ := hinv.grant hblocks hfits hnew
    have hcoalesced : Coalesced B'.blocks := by
      have hcoalesced := hinv.coalesced B hB
      rw [hblocks] at hcoalesced
      rw [hnew]
      exact hcoalesced.place (inUse_of_fits hfits)
    rw [hpayload] at hcall
    exact ⟨_, _, _, (obtainPebble_eq hcall).trans (if_neg (Nat.succ_ne_zero _)),
      hinv.step hstep hcoalesced, .found hblocks hfits hstep.base_eq hstep.pages_eq hnew hsize rfl⟩

/-- The block that a request gets. -/
theorem Obtains.used {h' : Heap} {ret : Nat} {Bs' : List BucketModel}
    (heffect : Obtains h size h' Bs ret Bs') (hret : ret ≠ 0) :
    ∃ b, Used Bs' b ∧ b.payload = ret ∧ pebbleSize size ≤ b.size := by
  cases heffect with
  | @found pre post B B' before after b hblocks hfits hbase hpages hnew hsize hvmm =>
      refine ⟨(splitHead b (pebbleSize size)).use, ⟨Block.use_inUse _, B', by simp, ?_⟩, rfl, hsize⟩
      rw [hnew]
      exact List.mem_append_left _ (List.mem_append_right _ List.mem_cons_self)
  | @created post A N b hin hb hfits hbase hpages hnew hsize hmmap =>
      refine ⟨(splitHead b (pebbleSize size)).use, ⟨Block.use_inUse _, N, by simp, ?_⟩, rfl, hsize⟩
      rw [hnew, placeBlock]
      exact List.mem_cons_self
  | refused => exact absurd rfl hret

/-- Only the virtual memory manager of the later heap matters. -/
theorem Obtains.of_vmm {h₁ h' : Heap} {ret : Nat} {Bs' : List BucketModel}
    (heffect : Obtains h size h₁ Bs ret Bs') (hsame : h'.vmm = h₁.vmm) :
    Obtains h size h' Bs ret Bs' := by
  cases heffect with
  | found hblocks hfits hbase hpages hnew hsize hvmm =>
      exact .found hblocks hfits hbase hpages hnew hsize (hsame.trans hvmm)
  | created hin hb hfits hbase hpages hnew hsize hmmap =>
      rw [← hsame] at hmmap
      exact .created hin hb hfits hbase hpages hnew hsize hmmap
  | refused hin hbase hpages hmmap =>
      rw [← hsame] at hmmap
      exact .refused hin hbase hpages hmmap

theorem HeapInv.kmalloc_effect {ret : Nat} {h' : Heap} (hinv : HeapInv h Bs)
    (hcovers : (AllocCall.kmalloc n).Covers h) (hcall : kmalloc .real h n = some (ret, h')) :
    ∃ Bs', HeapInv h' Bs' ∧ Obtains h (requestSize n) h' Bs ret Bs' := by
  obtain ⟨p, h₁, Bs', hobtain, hinv₁, heffect⟩ := hinv.obtain_effect hcovers.1
  by_cases hp : p = 0
  · rw [hp] at hobtain heffect
    rw [kmalloc_null_iff.mpr hobtain] at hcall
    cases hcall
    exact ⟨Bs', hinv₁, heffect⟩
  · obtain ⟨b, hb, rfl, hsize⟩ := heffect.used hp
    have hsucceeds : Succeeds h n := by
      by_contra hfails
      obtain ⟨h₂, Bs₂, hnull, -⟩ := (hinv.obtain_spec hcovers.1).2 hfails
      rw [hobtain, Option.some.injEq, Prod.mk.injEq] at hnull
      exact hp hnull.1
    have hzero := (staysInside_real (hcovers.2 hsucceeds) b hsize h₁.mem).1
    rw [kmalloc_of_obtain hobtain] at hcall
    cases hcall
    exact ⟨Bs', hinv₁.writePayload hb hzero, heffect.of_vmm rfl⟩

end Obtain

/-! ## `kfree` -/

/-- In the bucket `B` behind `pre` a block is released, which leaves `blocks`; the bucket is given
back if it is idle and not the first one. -/
inductive Frees (h h' : Heap) (pre : List BucketModel) (B : BucketModel) (post : List BucketModel)
    (blocks : List Block) : List BucketModel → Prop
  | kept {B' : BucketModel} (hbase : B'.base = B.base) (hpages : B'.pages = B.pages)
      (hnew : B'.blocks = blocks) (hkept : ¬ (B'.idle = true ∧ pre ≠ [])) (hvmm : h'.vmm = h.vmm) :
      Frees h h' pre B post blocks (pre ++ B' :: post)
  | removed {B' : BucketModel} (hnew : B'.blocks = blocks) (hidle : B'.idle = true)
      (hpre : pre ≠ []) (hmunmap : h.vmm.munmap B.base B.pages = some h'.vmm) :
      Frees h h' pre B post blocks (pre ++ post)

section Free

variable {h : Heap} {pre post : List BucketModel} {B : BucketModel} {b : Block}
  {before after : List Block}

theorem HeapInv.kfree_effect (hinv : HeapInv h (pre ++ B :: post))
    (hblocks : B.blocks = before ++ b :: after) (hused : b.inUse = true) :
    ∃ h' Bs', kfree h b.payload = some h' ∧ HeapInv h' Bs' ∧
      Frees h h' pre B post (release before b after) Bs' := by
  have hB : B ∈ pre ++ B :: post := by simp
  have hb : Used (pre ++ B :: post) b := ⟨hused, B, hB, by simp [hblocks]⟩
  have hlt := hinv.payload_lt hb
  have hwf := hinv.rep.wf B hB
  obtain ⟨bprev, bnext, hpebble⟩ := (hinv.rep.body hB).pebble (by simp [hblocks] : b ∈ B.blocks)
  have hkfree : kfree h b.payload = kfreePebble h b.addr := by
    have hne : b.payload ≠ 0 := Nat.succ_ne_zero _
    rw [kfree, if_neg hne, b.sub64_payload hlt]
    exact if_neg fun hmagic => hmagic hpebble.magic
  obtain ⟨m', B', hnew, hfreed⟩ := kfreePebble_spec hinv.rep hblocks
  have hcoalesced : Coalesced B'.blocks := by
    have hB := hinv.coalesced B hB
    rw [hblocks] at hB
    rw [hnew]
    exact hB.release
  by_cases hremove : B'.idle = true ∧ pre ≠ []
  · obtain ⟨hrep, hcall⟩ := hfreed.removed hremove.1 hremove.2
    have hbelow := hinv.below B hB
    have hword := h.vmm.kHeapEnd.toNat_lt
    have hstop := hwf.base_lt_stop
    simp only [BucketModel.stop] at hbelow hstop
    have hends : PageLoopEnds B.base B.pages := by
      intro hsum
      omega
    have hmunmap := munmap_eq h.vmm (by omega : B.base < 2 ^ 64) (by omega : B.pages < 2 ^ 64) hends
    have hend := munmap_kHeapEnd hmunmap
    rw [hmunmap] at hcall
    have hsub : ∀ C ∈ pre ++ post, C ∈ pre ++ B :: post := by
      intro C hC
      simpa using Or.imp_right Or.inr (List.mem_append.mp hC)
    refine ⟨_, pre ++ post, hkfree.trans hcall, ⟨hrep, fun C hC => hinv.coalesced C (hsub C hC),
      fun C hC => ?_⟩, .removed hnew hremove.1 hremove.2 hmunmap⟩
    show C.stop ≤ (UInt64.toNat _)
    rw [hend]
    exact hinv.below C (hsub C hC)
  · obtain ⟨hrep, hcall⟩ := hfreed.kept hremove
    refine ⟨_, _, hkfree.trans hcall, ⟨hrep, forall_replace hinv.coalesced hcoalesced,
      forall_replace hinv.below ?_⟩, .kept hfreed.base_eq hfreed.pages_eq hnew hremove rfl⟩
    have hbelow := hinv.below B hB
    rw [BucketModel.stop, hfreed.base_eq, hfreed.pages_eq]
    exact hbelow

end Free

/-! ## `krealloc` -/

/-- `krealloc` to no more than the block's size splits a block of one bucket. -/
theorem HeapInv.shrink_effect {h : Heap} {pre post : List BucketModel} {B : BucketModel}
    {before after : List Block} {b : Block} {n : Nat} (w : PayloadWrites)
    (hinv : HeapInv h (pre ++ B :: post)) (hblocks : B.blocks = before ++ b :: after)
    (hused : b.inUse = true) (hn : n ≠ 0) (hsize : n ≤ b.size) (hfits : SplitFits b n) :
    ∃ h' B', krealloc w h b.payload n = some (b.payload, h') ∧
      HeapInv h' (pre ++ B' :: post) ∧ h'.vmm = h.vmm ∧ B'.base = B.base ∧ B'.pages = B.pages := by
  have hB : B ∈ pre ++ B :: post := by simp
  have hmem : b ∈ B.blocks := by simp [hblocks]
  have hb : Used (pre ++ B :: post) b := ⟨hused, B, hB, hmem⟩
  have hlt := hinv.payload_lt hb
  obtain ⟨hmagic, hbytes⟩ := hinv.header hb
  have hwf := hinv.rep.wf B hB
  have hat := (Chain.middle_iff.mp hinv.rep.chain).2.1
  obtain ⟨prev, next, hpebble⟩ := hat.body.pebble hmem
  obtain ⟨hbody, hchanges⟩ := splitPebble_body (hat.body.put_spinlock hwf 1) hwf hblocks hfits
  have hstep : BucketStep (h.mem.put B.base MemoryBucket.spinlock 1) B
      (splitPebble (h.mem.put B.base MemoryBucket.spinlock 1) b.addr n)
      (B.withBlocks (before ++ splitHead b n :: splitTail b n ++ after)) :=
    ⟨rfl, rfl, hwf.split hblocks hfits, hbody, hchanges⟩
  have hfirst : splitHead b n ∈ before ++ splitHead b n :: splitTail b n ++ after :=
    List.mem_append_left _ (List.mem_append_right _ List.mem_cons_self)
  obtain ⟨_, _, hhead⟩ := hbody.pebble hfirst
  have hparent := hhead.parent
  rw [splitHead_addr, BucketModel.withBlocks_base] at hparent
  have hcoalesced := hinv.coalesced B hB
  rw [hblocks] at hcoalesced
  rw [pebbleBytes, b.sub64_payload hlt] at hbytes
  rw [b.sub64_payload hlt] at hmagic
  have hcall := krealloc_of_le w hn (Nat.succ_ne_zero _) (b.sub64_payload hlt) hmagic
    (hsize.trans_eq hbytes.symm) hpebble.parent hat.spinlock (shrinkPebble_eq hwf hmem) hparent
  rw [b.add64_addr hlt] at hcall
  exact ⟨_, _, hcall, hinv.step (hstep.unlock hat.spinlock) (hcoalesced.cut hused), rfl, rfl, rfl⟩

end FroggyOs
