import FroggyOs.Klibc.HeapSteps

/-!
# Runs of the header operations

The operations on headers that `kmalloc` and `kfree` are made of, in any order: a bucket
is created and inserted behind the first one, a request is placed in some bucket, a
pebble in use is freed. Along every run the list of buckets stays represented, no two
free pebbles are neighbours and every cached maximum is the maximum of the payload sizes.

The statements speak about memory alone: a bucket or a pebble is listed when a walk along
the `next` links meets it.
-/

namespace FroggyOs

open ByteMemory Word64 LinkedChain

/-! ## Listed buckets and pebbles -/

def nextBucket (m : Mem) (bucket : Nat) : Nat := m.get bucket MemoryBucket.next

def nextPebble (m : Mem) (pebble : Nat) : Nat := m.get pebble MemoryPebble.next

/-- The walk from the first bucket meets `bucket`. -/
def ListedBucket (h : Heap) (bucket : Nat) : Prop :=
  Walk (nextBucket h.mem) h.kHeapStart 0 bucket

/-- The walk from the first pebble of `bucket` meets `pebble`. -/
def ListedPebble (m : Mem) (bucket pebble : Nat) : Prop :=
  Walk (nextPebble m) (m.get bucket MemoryBucket.first) 0 pebble

section Listed

variable {hp : Heap} {m : Mem} {start : Nat} {B : BucketModel} {Bs : List BucketModel}

theorem listedBucket_iff (h : HeapRep hp.mem hp.kHeapStart Bs) {bucket : Nat} :
    ListedBucket hp bucket ↔ ∃ B ∈ Bs, B.base = bucket := by
  have hnext : ∀ B ∈ Bs, ∀ prev next, BucketAt 0 hp.mem B prev next →
      nextBucket hp.mem B.base = next := fun _ _ _ _ hB => hB.next
  rw [ListedBucket, ← h.head]
  exact walk_iff h.chain hnext fun B hB => (h.wf B hB).base_ne

theorem listedPebble_iff (h : BucketBody m B) (hwf : B.WF) {pebble : Nat} :
    ListedPebble m B.base pebble ↔ ∃ b ∈ B.blocks, b.addr = pebble := by
  have hnext : ∀ b ∈ B.blocks, ∀ prev next, PebbleAt m B.base b prev next →
      nextPebble m b.addr = next := fun _ _ _ _ hb => hb.next
  have hne : ∀ b ∈ B.blocks, b.addr ≠ 0 := by
    intro b hb
    have hbounds := hwf.block_bounds hb
    omega
  rw [ListedPebble, h.first_eq hwf]
  exact walk_iff h.pebbles hnext hne

theorem HeapRep.body (h : HeapRep m start Bs) (hB : B ∈ Bs) : BucketBody m B := by
  obtain ⟨pre, post, rfl⟩ := List.append_of_mem hB
  exact (Chain.middle_iff.mp h.chain).2.1.body

/-- A represented block's header fields. -/
theorem BucketBody.pebble (h : BucketBody m B) {b : Block} (hb : b ∈ B.blocks) :
    ∃ prev next, PebbleAt m B.base b prev next :=
  Chain.exists_links h.pebbles hb

end Listed

/-! ## Runs -/

/-- The heap, and the pebbles that have been placed and not freed since, each with its
bucket. -/
structure HeaderState where
  heap : Heap
  placed : List (Nat × Nat)

/-- The region does not wrap around and overlaps no listed bucket. -/
def FreshRegion (h : Heap) (region bytes : Nat) : Prop :=
  region + bytes ≤ 2 ^ 64 ∧ ∀ b, ListedBucket h b →
    region + bytes ≤ b ∨ b + 4096 * h.mem.get b MemoryBucket.size ≤ region

/-- One operation on the headers. -/
inductive HeaderStep : HeaderState → HeaderState → Prop
  | create {s : HeaderState} {size region : Nat} {h' : Heap} {m' : Mem} : size ≤ 2 ^ 47 →
      createBucket s.heap size 0 = some (region, h') → region ≠ 0 →
      FreshRegion s.heap region (bucketBytes size) →
      insertBucket h'.mem region h'.kHeapStart = some m' →
      HeaderStep s ⟨{ h' with mem := m' }, s.placed⟩
  | createFailed {s : HeaderState} {size : Nat} {h' : Heap} :
      createBucket s.heap size 0 = some (0, h') → HeaderStep s ⟨h', s.placed⟩
  | place {s : HeaderState} {bucket need pebble : Nat} {m₁ m₂ : Mem} :
      ListedBucket s.heap bucket → need % 64 = 0 → need < 2 ^ 64 →
      placePebble s.heap.mem bucket need (0 ||| pebbleFlagInUse) = some (pebble, m₁) →
      bucketUpdateLargest m₁ bucket = some m₂ →
      HeaderStep s ⟨{ s.heap with mem := m₂ },
        if pebble = 0 then s.placed else (bucket, pebble) :: s.placed⟩
  | free {s : HeaderState} {bucket pebble : Nat} {h' : Heap} : ListedBucket s.heap bucket →
      ListedPebble s.heap.mem bucket pebble → isPebbleFree s.heap.mem pebble = false →
      kfreePebble s.heap pebble = some h' →
      HeaderStep s ⟨h', s.placed.filter fun q => q.2 ≠ pebble⟩

/-- A run from the heap `kmalloc_init` builds at `KHEAPSTART`. -/
inductive HeaderRun : HeaderState → Prop
  | start {h h' : Heap} {size : Nat} : size ≤ 2 ^ 47 →
      kmallocInit h size = some (h.kHeapStart, h') → h.kHeapStart ≠ 0 →
      h.kHeapStart + bucketBytes size ≤ 2 ^ 64 → HeaderRun ⟨h', []⟩
  | step {s s' : HeaderState} : HeaderRun s → HeaderStep s s' → HeaderRun s'

/-! ## The invariant -/

/-- The placed pebble `q` is a block in use of its bucket. -/
def PlacedBlock (Bs : List BucketModel) (q : Nat × Nat) : Prop :=
  ∃ B ∈ Bs, B.base = q.1 ∧ ∃ b ∈ B.blocks, b.addr = q.2 ∧ b.inUse = true

/-- The buckets `Bs` represent the heap. -/
structure HeaderInv (s : HeaderState) (Bs : List BucketModel) : Prop where
  rep : HeapRep s.heap.mem s.heap.kHeapStart Bs
  coalesced : ∀ B ∈ Bs, Coalesced B.blocks
  exact : ∀ B ∈ Bs, B.Exact
  placed : ∀ q ∈ s.placed, PlacedBlock Bs q

section Inv

variable {s s' : HeaderState} {Bs pre post : List BucketModel} {B B' : BucketModel}
  {q : Nat × Nat}

theorem PlacedBlock.mono {Cs : List BucketModel} (h : PlacedBlock Bs q)
    (hsub : ∀ B ∈ Bs, B ∈ Cs) : PlacedBlock Cs q := by
  obtain ⟨B, hB, hrest⟩ := h
  exact ⟨B, hsub B hB, hrest⟩

/-- A bucket that keeps the placed block may be replaced. -/
theorem PlacedBlock.replace (h : PlacedBlock (pre ++ B :: post) q) (hbase : B'.base = B.base)
    (hkept : ∀ b ∈ B.blocks, b.addr = q.2 → b.inUse = true → b ∈ B'.blocks) :
    PlacedBlock (pre ++ B' :: post) q := by
  obtain ⟨C, hC, hCbase, b, hb, haddr, hused⟩ := h
  obtain hC | hC := List.mem_append.mp hC
  · exact ⟨C, List.mem_append_left _ hC, hCbase, b, hb, haddr, hused⟩
  · obtain rfl | hC := List.mem_cons.mp hC
    · exact ⟨B', by simp, hbase.trans hCbase, b, hkept b hb haddr hused, haddr, hused⟩
    · exact ⟨C, List.mem_append_right _ (List.mem_cons_of_mem _ hC), hCbase, b, hb, haddr, hused⟩

/-- The invariant of all buckets, when one of them is replaced. -/
theorem forall_replace {P : BucketModel → Prop} (h : ∀ C ∈ pre ++ B :: post, P C) (hB' : P B') :
    ∀ C ∈ pre ++ B' :: post, P C := by
  intro C hC
  obtain hC | hC := List.mem_append.mp hC
  · exact h C (List.mem_append_left _ hC)
  · obtain rfl | hC := List.mem_cons.mp hC
    · exact hB'
    · exact h C (List.mem_append_right _ (List.mem_cons_of_mem _ hC))

theorem HeaderInv.start {h h' : Heap} {size : Nat} (hsize : size ≤ 2 ^ 47)
    (hinit : kmallocInit h size = some (h.kHeapStart, h')) (hne : h.kHeapStart ≠ 0)
    (hfits : h.kHeapStart + bucketBytes size ≤ 2 ^ 64) : ∃ Bs, HeaderInv ⟨h', []⟩ Bs := by
  have hbytes : bucketBytes size = 4096 * ((max size 65660 + 4095) / 4096) :=
    bucketBytes_eq (by omega)
  obtain ⟨vmm, -, hcases⟩ := createBucket_cases hinit
  obtain ⟨hzero, -⟩ | ⟨-, rfl⟩ := hcases
  · exact absurd hzero hne
  · have hwf := freshBucket_wf hne (by omega : 124 ≤ bucketBytes size) (by omega) hfits
    have hat : BucketAt 0 (initBucket h.mem h.kHeapStart (bucketBytes size) (0 ||| bucketFlagFirst))
        (freshBucket h.kHeapStart (bucketBytes size)) 0 0 :=
      initBucket_at (by omega) (by omega) (by omega)
    refine ⟨[freshBucket h.kHeapStart (bucketBytes size)],
      ⟨⟨hat, trivial⟩, rfl, ?_, by simp, by simp⟩, ?_, ?_, by simp⟩
    · simpa using hwf
    · simp [Coalesced, freshBucket]
    · simpa using freshBucket_exact _ _

theorem HeaderInv.create (h : HeaderInv s Bs) {size region : Nat} {h' : Heap} {m' : Mem}
    (hsize : size ≤ 2 ^ 47) (hcreate : createBucket s.heap size 0 = some (region, h'))
    (hne : region ≠ 0) (hfresh : FreshRegion s.heap region (bucketBytes size))
    (hinsert : insertBucket h'.mem region h'.kHeapStart = some m') :
    ∃ Bs', HeaderInv ⟨{ h' with mem := m' }, s.placed⟩ Bs' := by
  have hbytes : bucketBytes size = 4096 * ((max size 65660 + 4095) / 4096) :=
    bucketBytes_eq (by omega)
  obtain ⟨vmm, -, hcases⟩ := createBucket_cases hcreate
  obtain ⟨hzero, -⟩ | ⟨-, rfl⟩ := hcases
  · exact absurd hzero hne
  · have hwf := freshBucket_wf hne (by omega : 124 ≤ bucketBytes size) (by omega) hfresh.1
    have hstop : (freshBucket region (bucketBytes size)).stop = region + bucketBytes size := by
      simp only [freshBucket, BucketModel.stop]
      omega
    obtain ⟨A, post, rfl⟩ := List.exists_cons_of_ne_nil h.rep.nonempty
    have hapart : ∀ C ∈ A :: post, Apart (freshBucket region (bucketBytes size)) C := by
      intro C hC
      have hlisted := hfresh.2 C.base ((listedBucket_iff h.rep).mpr ⟨C, hC, rfl⟩)
      rw [(h.rep.body hC).size] at hlisted
      rw [Apart, hstop, freshBucket_base, BucketModel.stop]
      exact hlisted
    obtain ⟨m, hcall, hrep⟩ := h.rep.create 0 hwf (by omega) (by omega) hapart
    rw [hcall] at hinsert
    cases hinsert
    refine ⟨_, hrep, ?_, ?_, fun q hq => (h.placed q hq).mono ?_⟩
    · simp only [List.forall_mem_cons]
      have hcoalesced := List.forall_mem_cons.mp h.coalesced
      exact ⟨hcoalesced.1, by simp [Coalesced, freshBucket], hcoalesced.2⟩
    · simp only [List.forall_mem_cons]
      have hexact := List.forall_mem_cons.mp h.exact
      exact ⟨hexact.1, freshBucket_exact _ _, hexact.2⟩
    · intro C hC
      obtain rfl | hC := List.mem_cons.mp hC <;> simp [*]

theorem Placed.coalesced {need p : Nat} {xs ys : List Block} (h : Placed need xs p ys)
    (hxs : Coalesced xs) : Coalesced ys := by
  cases h with
  | missed => exact hxs
  | found before after b hblocks hfits =>
      rw [hblocks] at hxs
      simp only [fits, Bool.and_eq_true, Bool.not_eq_true'] at hfits
      exact hxs.place hfits.1

/-- Placing keeps the blocks in use. -/
theorem Placed.mem_of_used {need p : Nat} {xs ys : List Block} (h : Placed need xs p ys)
    {b : Block} (hb : b ∈ xs) (hused : b.inUse = true) : b ∈ ys := by
  cases h with
  | missed => exact hb
  | found before after c hblocks hfits =>
      simp only [fits, Bool.and_eq_true, Bool.not_eq_true'] at hfits
      rw [hblocks] at hb
      simp only [List.mem_append, List.mem_cons] at hb ⊢
      obtain hb | rfl | hb := hb
      · exact .inl (.inl hb)
      · rw [hfits.1] at hused
        cases hused
      · exact .inr hb

/-- A pebble that was found is in use afterwards. -/
theorem Placed.exists_used {need p : Nat} {xs ys : List Block} (h : Placed need xs p ys)
    (hp : p ≠ 0) : ∃ b ∈ ys, b.addr = p ∧ b.inUse = true := by
  cases h with
  | missed => exact absurd rfl hp
  | found before after b hblocks hfits =>
      refine ⟨(splitHead b need).use, ?_, ?_, Block.use_inUse _⟩
      · exact List.mem_append_left _ (List.mem_append_right _ List.mem_cons_self)
      · rw [Block.use_addr, splitHead_addr]

/-- The pebble that was found lay free, and large enough. -/
theorem Placed.exists_fits {need p : Nat} {xs ys : List Block} (h : Placed need xs p ys)
    (hp : p ≠ 0) : ∃ b ∈ xs, b.addr = p ∧ fits need b = true := by
  cases h with
  | missed => exact absurd rfl hp
  | found before after b hblocks hfits => exact ⟨b, by simp [hblocks], rfl, hfits⟩

theorem HeaderInv.place (h : HeaderInv s Bs) {bucket need pebble : Nat} {m₁ m₂ : Mem}
    (hlisted : ListedBucket s.heap bucket) (haligned : need % 64 = 0)
    (hplace : placePebble s.heap.mem bucket need (0 ||| pebbleFlagInUse) = some (pebble, m₁))
    (hupdate : bucketUpdateLargest m₁ bucket = some m₂) :
    ∃ Bs', HeaderInv ⟨{ s.heap with mem := m₂ },
      if pebble = 0 then s.placed else (bucket, pebble) :: s.placed⟩ Bs' := by
  obtain ⟨B, hB, rfl⟩ := (listedBucket_iff h.rep).mp hlisted
  have hbody := h.rep.body hB
  have hwf := h.rep.wf B hB
  obtain ⟨p, n₁, n₂, B', hplace', hupdate', hplaced, hstep, hexact⟩ := place_step hbody hwf haligned
  rw [hplace] at hplace'
  cases hplace'
  rw [hupdate] at hupdate'
  cases hupdate'
  have hcoalesced := hplaced.coalesced (h.coalesced B hB)
  obtain ⟨pre, post, rfl⟩ := List.append_of_mem hB
  refine ⟨_, h.rep.step hstep, forall_replace h.coalesced hcoalesced, forall_replace h.exact hexact,
    fun q hq => ?_⟩
  have hold : ∀ q ∈ s.placed, PlacedBlock (pre ++ B' :: post) q := fun q hq =>
    (h.placed q hq).replace hstep.base_eq fun b hb _ hused => hplaced.mem_of_used hb hused
  split at hq
  · exact hold q hq
  · next hp =>
      obtain rfl | hq := List.mem_cons.mp hq
      · exact ⟨B', by simp, hstep.base_eq, hplaced.exists_used hp⟩
      · exact hold q hq

/-- A listed pebble in use is a block in use of a represented bucket. -/
theorem HeaderInv.listed (h : HeaderInv s Bs) {bucket pebble : Nat}
    (hbucket : ListedBucket s.heap bucket)
    (hpebble : ListedPebble s.heap.mem bucket pebble) :
    ∃ pre B post before b after, Bs = pre ++ B :: post ∧ B.base = bucket ∧
      B.blocks = before ++ b :: after ∧ b.addr = pebble ∧
      isPebbleFree s.heap.mem pebble = !b.inUse := by
  obtain ⟨B, hB, rfl⟩ := (listedBucket_iff h.rep).mp hbucket
  have hbody := h.rep.body hB
  obtain ⟨b, hb, rfl⟩ := (listedPebble_iff hbody (h.rep.wf B hB)).mp hpebble
  obtain ⟨prev, next, hpb⟩ := hbody.pebble hb
  obtain ⟨pre, post, rfl⟩ := List.append_of_mem hB
  obtain ⟨before, after, hblocks⟩ := List.append_of_mem hb
  exact ⟨pre, B, post, before, b, after, rfl, rfl, hblocks, rfl, hpb.isPebbleFree_iff⟩

/-- An idle bucket has no block in use. -/
theorem inUse_of_idle (hidle : B.idle = true) {b : Block} (hb : b ∈ B.blocks) :
    b.inUse = false := by
  rw [BucketModel.idle] at hidle
  split at hidle
  · next c hblocks =>
      rw [hblocks, List.mem_singleton] at hb
      rw [hb]
      simpa using hidle
  · cases hidle

theorem HeaderInv.free (h : HeaderInv s Bs) {bucket pebble : Nat} {h' : Heap}
    (hbucket : ListedBucket s.heap bucket) (hpebble : ListedPebble s.heap.mem bucket pebble)
    (hfree : kfreePebble s.heap pebble = some h') :
    ∃ Bs', HeaderInv ⟨h', s.placed.filter fun q => q.2 ≠ pebble⟩ Bs' := by
  obtain ⟨pre, B, post, before, b, after, rfl, rfl, hblocks, rfl, -⟩ := h.listed hbucket hpebble
  obtain ⟨m', B', hnew, hfreed⟩ := kfreePebble_spec h.rep hblocks
  have hcoalesced : Coalesced B'.blocks := by
    have hB := h.coalesced B (by simp)
    rw [hblocks] at hB
    rw [hnew]
    exact hB.release
  have hkept : ∀ q ∈ s.placed.filter fun q => q.2 ≠ b.addr, ∀ c ∈ B.blocks, c.addr = q.2 →
      c.inUse = true → c ∈ B'.blocks := by
    intro q hq c hc haddr hused
    have hne : c ≠ b := by
      rintro rfl
      simp only [List.mem_filter, decide_eq_true_eq] at hq
      exact hq.2 haddr.symm
    rw [hblocks] at hc
    rw [hnew]
    apply mem_release_of_used _ hused
    simpa [hne] using hc
  have hplaced : ∀ q ∈ s.placed.filter fun q => q.2 ≠ b.addr,
      PlacedBlock (pre ++ B' :: post) q := fun q hq =>
    (h.placed q (List.mem_of_mem_filter hq)).replace hfreed.base_eq (hkept q hq)
  by_cases hremove : B'.idle = true ∧ pre ≠ []
  · obtain ⟨hrep, hcall⟩ := hfreed.removed hremove.1 hremove.2
    rw [hcall] at hfree
    obtain ⟨vmm, -, rfl⟩ := Option.map_eq_some_iff.mp hfree
    have hsub : ∀ C ∈ pre ++ post, C ∈ pre ++ B :: post := by
      intro C hC
      obtain hC | hC := List.mem_append.mp hC <;> simp [hC]
    refine ⟨pre ++ post, hrep, fun C hC => h.coalesced C (hsub C hC),
      fun C hC => h.exact C (hsub C hC), fun q hq => ?_⟩
    obtain ⟨C, hC, hbase, c, hc, haddr, hused⟩ := hplaced q hq
    refine ⟨C, ?_, hbase, c, hc, haddr, hused⟩
    obtain hC | hC := List.mem_append.mp hC
    · exact List.mem_append_left _ hC
    · obtain rfl | hC := List.mem_cons.mp hC
      · rw [inUse_of_idle hremove.1 hc] at hused
        cases hused
      · exact List.mem_append_right _ hC
  · obtain ⟨hrep, hcall⟩ := hfreed.kept hremove
    rw [hcall] at hfree
    cases hfree
    exact ⟨_, hrep, forall_replace h.coalesced hcoalesced,
      forall_replace h.exact (hfreed.exact (h.exact B (by simp))), hplaced⟩

theorem HeaderInv.step (h : HeaderInv s Bs) (hstep : HeaderStep s s') :
    ∃ Bs', HeaderInv s' Bs' := by
  cases hstep with
  | create hsize hcreate hne hfresh hinsert => exact h.create hsize hcreate hne hfresh hinsert
  | createFailed hcreate =>
      obtain ⟨vmm, -, hcases⟩ := createBucket_cases hcreate
      obtain ⟨-, rfl⟩ | ⟨hne, -⟩ := hcases
      · exact ⟨Bs, h.rep, h.coalesced, h.exact, h.placed⟩
      · exact absurd rfl hne
  | place hlisted haligned _ hplace hupdate => exact h.place hlisted haligned hplace hupdate
  | free hbucket hpebble _ hfree => exact h.free hbucket hpebble hfree

/-- Every run keeps the invariant. -/
theorem HeaderRun.inv (h : HeaderRun s) : ∃ Bs, HeaderInv s Bs := by
  induction h with
  | start hsize hinit hne hfits => exact HeaderInv.start hsize hinit hne hfits
  | step _ hstep ih =>
      obtain ⟨Bs, hinv⟩ := ih
      exact hinv.step hstep

end Inv

/-! ## A run -/

section Evaluation

/-- The heap before `kmalloc_init`: no memory written, the heap end at 0x10000. -/
def emptyHeap : Heap := ⟨⟨fun _ => 0⟩, freshVmm, 0x10000⟩

/-- The heap after `kmalloc_init(0x1000)`: one bucket of 17 pages. -/
def bootHeap : Heap where
  mem := initBucket emptyHeap.mem 0x10000 69632 0
  vmm := (visitedPages 0x10000 17).foldl Vmm.visitPage (Vmm.growHeap freshVmm 17).2
  kHeapStart := 0x10000

theorem kmallocInit_emptyHeap : kmallocInit emptyHeap 0x1000 = some (0x10000, bootHeap) := by
  have hmmap : emptyHeap.vmm.mmap (bucketBytes 0x1000 / pageSize) = some (0x10000, bootHeap.vmm) :=
    (mmap_eq (by decide) (by decide)).1 (by decide)
  rw [kmallocInit, createBucket, hmmap]
  rfl

theorem headerRun_bootHeap : HeaderRun ⟨bootHeap, []⟩ :=
  .start (by decide) kmallocInit_emptyHeap (by decide) (by decide)

theorem bootHeap_rep :
    HeapRep bootHeap.mem bootHeap.kHeapStart [freshBucket 0x10000 69632] := by
  have hwf : (freshBucket 0x10000 69632).WF := freshBucket_wf (by decide) (by decide) (by decide)
    (by decide)
  have hat : BucketAt 0 bootHeap.mem (freshBucket 0x10000 69632) 0 0 :=
    initBucket_at (by decide) (by decide) (by decide)
  exact ⟨⟨hat, trivial⟩, rfl, by simpa using hwf, by simp, by simp⟩

/-- 64 KiB placed in the bucket of 17 pages. -/
theorem Placed.eq_of_fresh {a p : Nat} {ys : List Block}
    (h : Placed 65536 [⟨a, 69508, false⟩] p ys) :
    p = a ∧ ys = [⟨a, 65536, true⟩, ⟨a + 65596, 3912, false⟩] := by
  have htest : splitPebbleTest 69508 65536 = true := by decide +kernel
  have hsize : splitSize 65536 = 65536 := by decide +kernel
  generalize hblocks : [(⟨a, 69508, false⟩ : Block)] = xs at h
  cases h with
  | missed hnone =>
      have hfits := hnone ⟨a, 69508, false⟩ (by simp [← hblocks])
      simp [fits] at hfits
  | found before after b hsplit hfits =>
      obtain ⟨rfl, rfl, rfl⟩ : before = [] ∧ b = ⟨a, 69508, false⟩ ∧ after = [] := by
        rw [← hblocks] at hsplit
        cases before with
        | nil => exact ⟨rfl, (List.cons.inj hsplit).1.symm, (List.cons.inj hsplit).2.symm⟩
        | cons c before =>
            have hlength := congrArg List.length hsplit
            simp at hlength
      simp only [placeBlock, splitHead, splitTail, htest, if_true, hsize, List.nil_append,
        List.append_nil, Block.use, true_and, Nat.add_assoc, Nat.reduceAdd, Nat.reduceSub]

/-- The first bucket with a pebble of 64 KiB in use in front of a smaller free one. -/
theorem headerRun_full : ∃ s, HeaderRun s ∧ s.heap.kHeapStart = 0x10000 ∧ ∃ B : BucketModel,
    HeapRep s.heap.mem s.heap.kHeapStart [B] ∧ B.base = 0x10000 ∧ B.largest = 65536 ∧
      B.blocks = [⟨0x10040, 65536, true⟩, ⟨0x2007c, 3912, false⟩] ∧
      s.placed = [(0x10000, 0x10040)] ∧ s.heap.vmm = bootHeap.vmm := by
  have hrep : HeapRep bootHeap.mem bootHeap.kHeapStart ([] ++ freshBucket 0x10000 69632 :: []) :=
    bootHeap_rep
  have hbody := hrep.body (B := freshBucket 0x10000 69632) (by simp)
  have hwf := hrep.wf (freshBucket 0x10000 69632) (by simp)
  obtain ⟨p, m₁, m₂, B', hplace, hupdate, hplaced, hstep, hexact⟩ :=
    place_step hbody hwf (by decide : 65536 % 64 = 0)
  have hlisted : ListedBucket bootHeap 0x10000 := .first (by decide)
  have hrun := HeaderRun.step headerRun_bootHeap
    (.place (s := ⟨bootHeap, []⟩) hlisted (by decide) (by decide) hplace hupdate)
  obtain ⟨rfl, hblocks⟩ := Placed.eq_of_fresh (a := 0x10040) hplaced
  have hlargest : B'.largest = 65536 := by
    rw [hexact, hblocks]
    decide
  exact ⟨_, hrun, rfl, B', hrep.step hstep, hstep.base_eq, hlargest, hblocks, rfl, rfl⟩

theorem bootHeap_kHeapEnd : bootHeap.vmm.kHeapEnd.toNat = 0x21000 := by
  have hgrown := growHeap_kHeapEnd freshVmm 17
  rw [bootHeap, foldl_visitPage_kHeapEnd, hgrown]
  decide

/-- A second bucket takes 64 KiB, and those of the first one are freed. -/
theorem headerRun_two : ∃ s, HeaderRun s ∧ s.heap.kHeapStart = 0x10000 ∧ ∃ A B : BucketModel,
    HeapRep s.heap.mem s.heap.kHeapStart [A, B] ∧ A.base = 0x10000 ∧
      A.blocks = [⟨0x10040, 69508, false⟩] ∧ B.base = 0x21000 ∧
      B.blocks = [⟨0x21040, 65536, true⟩, ⟨0x3107c, 3912, false⟩] ∧
      s.placed = [(0x21000, 0x21040)] := by
  obtain ⟨s, hrun, hstart, A, hrep, hbase, -, hblocks, hplaced, hvmm⟩ := headerRun_full
  have hend : s.heap.vmm.kHeapEnd.toNat = 0x21000 := by rw [hvmm, bootHeap_kHeapEnd]
  have hbytes : bucketBytes 0x1000 = 69632 := @bucketBytes_eq 0x1000 (by decide)
  obtain ⟨vmm, hcreate, -⟩ := @createBucket_eq s.heap 0x1000 0 (by rw [hend]; decide)
    (by rw [hend, hbytes]; decide)
  rw [hend, hbytes] at hcreate
  -- the second bucket, behind the first one
  have hpages : A.stop = 0x21000 := by
    have htiles := (hrep.wf A (List.mem_singleton_self A)).tiles
    rw [hblocks] at htiles
    exact htiles.2.2.symm
  have hNwf : (freshBucket 0x21000 69632).WF :=
    freshBucket_wf (by decide) (by decide) (by decide) (by decide)
  have hfresh : FreshRegion s.heap 0x21000 (bucketBytes 0x1000) := by
    rw [hbytes]
    refine ⟨by decide, fun b hb => .inr ?_⟩
    obtain ⟨C, hC, rfl⟩ := (listedBucket_iff hrep).mp hb
    rw [List.mem_singleton.mp hC, (hrep.body (List.mem_singleton_self A)).size]
    exact hpages.le
  obtain ⟨m, hinsert, hrep₂⟩ := hrep.create 0 hNwf (by decide) (by decide) fun C hC =>
    .inr ((congrArg BucketModel.stop (List.mem_singleton.mp hC)).trans hpages).le
  have hrun₂ := hrun.step (.create (by decide) hcreate (by decide) hfresh hinsert)
  -- its 64 KiB
  obtain ⟨p, m₁, m₂, B, hplace, hupdate, hfilled, hstep, -⟩ :=
    place_step (hrep₂.body (List.mem_cons_of_mem _ List.mem_cons_self)) hNwf
      (by decide : 65536 % 64 = 0)
  have hlisted : ListedBucket ⟨m, vmm, s.heap.kHeapStart⟩ 0x21000 :=
    (listedBucket_iff hrep₂).mpr ⟨_, List.mem_cons_of_mem _ List.mem_cons_self, rfl⟩
  have hrun₃ := hrun₂.step (.place hlisted (by decide) (by decide) hplace hupdate)
  obtain ⟨rfl, hBblocks⟩ := Placed.eq_of_fresh (a := 0x21040) hfilled
  have hlist₂ : HeapRep m s.heap.kHeapStart ([A] ++ freshBucket 0x21000 69632 :: []) := hrep₂
  have hrep₃ : HeapRep m₂ s.heap.kHeapStart ([] ++ A :: [B]) := hlist₂.step hstep
  -- the first bucket is one free pebble again
  have hsplit : A.blocks = [] ++ ⟨0x10040, 65536, true⟩ :: [⟨0x2007c, 3912, false⟩] := hblocks
  obtain ⟨m₃, A', hnew, hfreed⟩ := @kfreePebble_spec ⟨m₂, vmm, s.heap.kHeapStart⟩ _ _ _ _ _ _
    hrep₃ hsplit
  obtain ⟨hrep₄, hkfree⟩ := hfreed.kept fun hand => hand.2 rfl
  have hlisted' : ListedBucket ⟨m₂, vmm, s.heap.kHeapStart⟩ 0x10000 :=
    (listedBucket_iff hrep₃).mpr ⟨A, List.mem_cons_self, hbase⟩
  have hbody := hrep₃.body (B := A) List.mem_cons_self
  have hused : (⟨0x10040, 65536, true⟩ : Block) ∈ A.blocks := by simp [hblocks]
  obtain ⟨_, _, hpebble⟩ := hbody.pebble hused
  have hlistedPebble : ListedPebble m₂ 0x10000 0x10040 := by
    rw [← hbase]
    exact (listedPebble_iff hbody (hrep₃.wf A List.mem_cons_self)).mpr ⟨_, hused, rfl⟩
  have hrun₄ := hrun₃.step (.free hlisted' hlistedPebble hpebble.isPebbleFree_iff hkfree)
  refine ⟨_, hrun₄, hstart, A', B, hrep₄, hfreed.base_eq.trans hbase, hnew, hstep.base_eq,
    hBblocks, ?_⟩
  simp [hplaced]

end Evaluation

end FroggyOs
