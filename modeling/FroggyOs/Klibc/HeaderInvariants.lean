import FroggyOs.Klibc.HeaderRun

/-!
# What every run of the header operations keeps

Every listed bucket stays exactly tiled by its pebbles, no two free pebbles are
neighbours, and the list of buckets stays a doubly linked list from the first bucket on
that holds the bucket of every placed pebble. `largest_free` is the size of the largest
pebble, so it is the size of the largest free one only where no pebble in use is larger.
-/

namespace FroggyOs

open ByteMemory Word64 LinkedChain

/-! ## Exact tilings -/

/-- The pebbles of a bucket tile it: each starts where the one before it ends, the first
behind the bucket header, and the last ends with the bucket. All sums are exact. -/
structure ExactlyTiled (m : Mem) (bucket : Nat) : Prop where
  first : m.get bucket MemoryBucket.first = bucket + 64
  fits : bucket + 4096 * m.get bucket MemoryBucket.size ≤ 2 ^ 64
  magic : ∀ p, ListedPebble m bucket p → m.get p MemoryPebble.magic = kmallocMagicPebble
  parent : ∀ p, ListedPebble m bucket p → m.get p MemoryPebble.parent = bucket
  next : ∀ p, ListedPebble m bucket p → m.get p MemoryPebble.next ≠ 0 →
    m.get p MemoryPebble.next = p + 60 + m.get p MemoryPebble.size
  last : ∃ p, ListedPebble m bucket p ∧ m.get p MemoryPebble.next = 0
  stop : ∀ p, ListedPebble m bucket p → m.get p MemoryPebble.next = 0 →
    p + 60 + m.get p MemoryPebble.size = bucket + 4096 * m.get bucket MemoryBucket.size
  prevFirst : m.get (m.get bucket MemoryBucket.first) MemoryPebble.prev = 0
  prevNext : ∀ p, ListedPebble m bucket p → m.get p MemoryPebble.next ≠ 0 →
    m.get (m.get p MemoryPebble.next) MemoryPebble.prev = p
  nextPrev : ∀ p, ListedPebble m bucket p → m.get p MemoryPebble.prev ≠ 0 →
    m.get (m.get p MemoryPebble.prev) MemoryPebble.next = p
  splitFits : ∀ p, ListedPebble m bucket p → ∀ need, need % 64 = 0 →
    need ≤ m.get p MemoryPebble.size → splitPebbleTest (m.get p MemoryPebble.size) need = true →
    splitSize need = need ∧ need + 60 < m.get p MemoryPebble.size
  mergeFits : ∀ p, ListedPebble m bucket p → m.get p MemoryPebble.next ≠ 0 →
    m.get p MemoryPebble.size +
      (m.get (m.get p MemoryPebble.next) MemoryPebble.size + 60) < 2 ^ 64

section Tiled

variable {m : Mem} {B : BucketModel} {s : HeaderState} {bucket : Nat}

/-- A pebble and the one behind it, if there is one. -/
theorem BucketBody.next_cases (h : BucketBody m B) (hwf : B.WF) {b : Block} (hb : b ∈ B.blocks) :
    (m.get b.addr MemoryPebble.next = 0 ∧ b.stop = B.stop) ∨
      ∃ c ∈ B.blocks, m.get b.addr MemoryPebble.next = c.addr ∧ c.addr = b.stop ∧
        m.get c.addr MemoryPebble.prev = b.addr ∧ [b, c] <:+: B.blocks := by
  obtain ⟨before, after, hblocks⟩ := List.append_of_mem hb
  obtain ⟨-, hpb, hafter⟩ := Chain.middle_iff.mp (hblocks ▸ h.pebbles)
  have htiles := hwf.tiles
  rw [hblocks] at htiles
  obtain ⟨-, htail⟩ := Tiles.middle_iff.mp htiles
  cases after with
  | nil => exact .inl ⟨hpb.next, htail⟩
  | cons c rest =>
      refine .inr ⟨c, by simp [hblocks], hpb.next, htail.1, hafter.1.prev, before, rest, ?_⟩
      simp [hblocks]

/-- A pebble and the one in front of it, if there is one. -/
theorem BucketBody.prev_cases (h : BucketBody m B) {b : Block} (hb : b ∈ B.blocks) :
    m.get b.addr MemoryPebble.prev = 0 ∨
      ∃ a ∈ B.blocks, m.get b.addr MemoryPebble.prev = a.addr ∧
        m.get a.addr MemoryPebble.next = b.addr := by
  obtain ⟨before, after, hblocks⟩ := List.append_of_mem hb
  obtain ⟨hbefore, hpb, -⟩ := Chain.middle_iff.mp (hblocks ▸ h.pebbles)
  obtain rfl | ⟨front, a, rfl⟩ := List.eq_nil_or_concat' before
  · exact .inl hpb.prev
  · have ha := (Chain.middle_iff.mp hbefore).2.1
    refine .inr ⟨a, by simp [hblocks], ?_, ha.next⟩
    have hprev := hpb.prev
    rw [lastAddr_append] at hprev
    exact hprev

theorem BucketBody.exactlyTiled (h : BucketBody m B) (hwf : B.WF) : ExactlyTiled m B.base := by
  have hlisted : ∀ p, ListedPebble m B.base p → ∃ b ∈ B.blocks, b.addr = p := fun p hp =>
    (listedPebble_iff h hwf).mp hp
  have hword := hwf.fits
  have hstopEq : B.stop = B.base + 4096 * B.pages := rfl
  have hfirst := h.first_eq hwf
  obtain ⟨b₀, rest, hblocks⟩ := List.exists_cons_of_ne_nil hwf.nonempty
  have hpebbles := h.pebbles
  rw [hblocks] at hpebbles hfirst
  refine ⟨h.first, by rw [h.size, ← hstopEq]; exact hword, ?_, ?_, ?_, ?_, ?_, ?_, ?_, ?_, ?_, ?_⟩
  · intro p hp
    obtain ⟨b, hb, rfl⟩ := hlisted p hp
    obtain ⟨_, _, hpb⟩ := h.pebble hb
    exact hpb.magic
  · intro p hp
    obtain ⟨b, hb, rfl⟩ := hlisted p hp
    obtain ⟨_, _, hpb⟩ := h.pebble hb
    exact hpb.parent
  · intro p hp hne
    obtain ⟨b, hb, rfl⟩ := hlisted p hp
    obtain ⟨_, _, hpb⟩ := h.pebble hb
    obtain ⟨hzero, -⟩ | ⟨c, -, hnext, hc, -⟩ := h.next_cases hwf hb
    · exact absurd hzero hne
    · rw [hnext, hc, hpb.size, Block.stop]
  · have hne := hwf.nonempty
    have hlast := List.getLast_mem hne
    refine ⟨(B.blocks.getLast hne).addr, (listedPebble_iff h hwf).mpr ⟨_, hlast, rfl⟩, ?_⟩
    have hsplit := List.dropLast_append_getLast hne
    have hchain := h.pebbles
    rw [← hsplit] at hchain
    exact (Chain.middle_iff.mp hchain).2.1.next
  · intro p hp hzero
    obtain ⟨b, hb, rfl⟩ := hlisted p hp
    obtain ⟨_, _, hpb⟩ := h.pebble hb
    obtain ⟨-, hstop⟩ | ⟨c, -, hnext, hc, -⟩ := h.next_cases hwf hb
    · rw [hpb.size, h.size, ← hstopEq, ← hstop, Block.stop]
    · rw [hnext, hc, Block.stop] at hzero
      omega
  · rw [hfirst]
    exact hpebbles.1.prev
  · intro p hp hne
    obtain ⟨b, hb, rfl⟩ := hlisted p hp
    obtain ⟨hzero, -⟩ | ⟨c, -, hnext, -, hprev, -⟩ := h.next_cases hwf hb
    · exact absurd hzero hne
    · rw [hnext, hprev]
  · intro p hp hne
    obtain ⟨b, hb, rfl⟩ := hlisted p hp
    obtain hzero | ⟨a, -, hprev, hnext⟩ := h.prev_cases hb
    · exact absurd hzero hne
    · rw [hprev, hnext]
  · intro p hp need haligned hneed htest
    obtain ⟨b, hb, rfl⟩ := hlisted p hp
    obtain ⟨_, _, hpb⟩ := h.pebble hb
    have hbounds := hwf.block_bounds hb
    rw [hpb.size] at hneed htest ⊢
    rw [splitPebbleTest_iff (by omega) (by omega)] at htest
    rw [splitSize_eq (by omega)]
    omega
  · intro p hp hne
    obtain ⟨b, hb, rfl⟩ := hlisted p hp
    obtain ⟨_, _, hpb⟩ := h.pebble hb
    obtain ⟨hzero, -⟩ | ⟨c, hc, hnext, hcaddr, -⟩ := h.next_cases hwf hb
    · exact absurd hzero hne
    · obtain ⟨_, _, hpc⟩ := h.pebble hc
      have hbounds := hwf.block_bounds hb
      have hcbounds := hwf.block_bounds hc
      rw [Block.stop] at hcaddr
      rw [hnext, hpb.size, hpc.size]
      omega

/-- Every listed bucket of every run is exactly tiled. -/
theorem headerRun_exactlyTiled (h : HeaderRun s) (hbucket : ListedBucket s.heap bucket) :
    ExactlyTiled s.heap.mem bucket := by
  obtain ⟨Bs, hinv⟩ := h.inv
  obtain ⟨B, hB, rfl⟩ := (listedBucket_iff hinv.rep).mp hbucket
  exact (hinv.rep.body hB).exactlyTiled (hinv.rep.wf B hB)

/-- The tiling after the run: two pebbles, one behind the other. -/
theorem headerRun_full_exactlyTiled : ∃ s, HeaderRun s ∧ s.placed ≠ [] ∧
    ExactlyTiled s.heap.mem 0x10000 := by
  obtain ⟨s, hrun, hstart, B, hrep, hbase, -, -, hplaced, -⟩ := headerRun_full
  refine ⟨s, hrun, by simp [hplaced], headerRun_exactlyTiled hrun ?_⟩
  exact (listedBucket_iff hrep).mpr ⟨B, by simp, hbase⟩

end Tiled

/-! ## Free neighbours -/

/-- No two neighbours in the bucket's list are free. -/
def NoFreeNeighbours (m : Mem) (bucket : Nat) : Prop :=
  ∀ p, ListedPebble m bucket p → m.get p MemoryPebble.next ≠ 0 →
    ¬ (isPebbleFree m p = true ∧ isPebbleFree m (m.get p MemoryPebble.next) = true)

section Neighbours

variable {m : Mem} {B : BucketModel} {s : HeaderState} {bucket : Nat}

theorem BucketBody.noFreeNeighbours (h : BucketBody m B) (hwf : B.WF)
    (hcoalesced : Coalesced B.blocks) : NoFreeNeighbours m B.base := by
  intro p hp hne hfree
  obtain ⟨b, hb, rfl⟩ := (listedPebble_iff h hwf).mp hp
  obtain ⟨hzero, -⟩ | ⟨c, hc, hnext, -, -, before, after, hblocks⟩ := h.next_cases hwf hb
  · exact absurd hzero hne
  · obtain ⟨_, _, hpb⟩ := h.pebble hb
    obtain ⟨_, _, hpc⟩ := h.pebble hc
    rw [hnext, hpb.isPebbleFree_iff, hpc.isPebbleFree_iff] at hfree
    have hsplit : B.blocks = before ++ b :: c :: after := by
      rw [← hblocks]
      simp
    have hor := List.isChain_iff_forall_rel_of_append_cons_cons.mp hcoalesced hsplit
    obtain hused | hused := hor <;> simp [hused] at hfree

/-- No bucket of any run has two free neighbours. -/
theorem headerRun_noFreeNeighbours (h : HeaderRun s) (hbucket : ListedBucket s.heap bucket) :
    NoFreeNeighbours s.heap.mem bucket := by
  obtain ⟨Bs, hinv⟩ := h.inv
  obtain ⟨B, hB, rfl⟩ := (listedBucket_iff hinv.rep).mp hbucket
  exact (hinv.rep.body hB).noFreeNeighbours (hinv.rep.wf B hB) (hinv.coalesced B hB)

/-- In the first bucket a pebble has been freed, the second one has a pebble in use in front of a
free one. -/
theorem headerRun_full_noFreeNeighbours : ∃ s, HeaderRun s ∧ s.placed = [(0x21000, 0x21040)] ∧
    NoFreeNeighbours s.heap.mem 0x10000 ∧ NoFreeNeighbours s.heap.mem 0x21000 := by
  obtain ⟨s, hrun, -, A, B, hrep, hA, -, hB, -, hplaced⟩ := headerRun_two
  refine ⟨s, hrun, hplaced, headerRun_noFreeNeighbours hrun ?_, headerRun_noFreeNeighbours hrun ?_⟩
  · exact (listedBucket_iff hrep).mpr ⟨A, List.mem_cons_self, hA⟩
  · exact (listedBucket_iff hrep).mpr ⟨B, by simp, hB⟩

end Neighbours

/-! ## The list of buckets -/

/-- `bs` are the buckets from the first one on, linked in both directions. -/
structure BucketListOf (h : Heap) (bs : List Nat) : Prop where
  head : bs.head? = some h.kHeapStart
  nodup : bs.Nodup
  links : Chain id (fun b prev next => h.mem.get b MemoryBucket.prev = prev ∧
    h.mem.get b MemoryBucket.next = next) 0 bs 0
  listed : ∀ b, ListedBucket h b ↔ b ∈ bs

/-- The bucket's only pebble is free. -/
def OneFreePebble (m : Mem) (bucket : Nat) : Prop :=
  ∃ p, isPebbleFree m p = true ∧ ∀ q, ListedPebble m bucket q ↔ q = p

/-- The bucket's other pebbles are free. -/
def OnlyUsedPebble (m : Mem) (bucket pebble : Nat) : Prop :=
  ∀ q, ListedPebble m bucket q → (isPebbleFree m q = false ↔ q = pebble)

/-- The list of buckets is finite and linked in both directions, it holds the bucket of
every placed pebble, and `kfree` takes a bucket out exactly when it is not the first one
and its only remaining pebble is free, that is when no other pebble was in use. -/
structure BucketListInv (s : HeaderState) : Prop where
  list : ∃ bs, BucketListOf s.heap bs
  placed : ∀ q ∈ s.placed, ListedBucket s.heap q.1 ∧ ListedPebble s.heap.mem q.1 q.2 ∧
    isPebbleFree s.heap.mem q.2 = false
  unlinks : ∀ bucket pebble h', ListedBucket s.heap bucket →
    ListedPebble s.heap.mem bucket pebble → isPebbleFree s.heap.mem pebble = false →
    kfreePebble s.heap pebble = some h' →
    (¬ ListedBucket h' bucket ↔ bucket ≠ s.heap.kHeapStart ∧ OneFreePebble h'.mem bucket) ∧
      (OneFreePebble h'.mem bucket ↔ OnlyUsedPebble s.heap.mem bucket pebble) ∧
      ∀ b, b ≠ bucket → (ListedBucket h' b ↔ ListedBucket s.heap b)

section BucketList

variable {m : Mem} {start : Nat} {B : BucketModel} {Bs pre post : List BucketModel}
  {s : HeaderState}

theorem HeapRep.nodup (h : HeapRep m start Bs) : (Bs.map BucketModel.base).Nodup := by
  rw [List.Nodup, List.pairwise_map]
  have hpairs := h.apart
  rw [List.pairwise_iff_forall_sublist] at hpairs ⊢
  intro A C hsub heq
  have hA := (h.wf A (hsub.subset (by simp))).base_lt_stop
  have hC := (h.wf C (hsub.subset (by simp))).base_lt_stop
  obtain hapart | hapart := hpairs hsub <;> omega

theorem HeapRep.bucketList {hp : Heap} (h : HeapRep hp.mem hp.kHeapStart Bs) :
    BucketListOf hp (Bs.map BucketModel.base) := by
  refine ⟨?_, h.nodup, ?_, fun b => ?_⟩
  · obtain ⟨A, rest, rfl⟩ := List.exists_cons_of_ne_nil h.nonempty
    rw [← h.head]
    rfl
  · exact Chain.map (fun B _ _ hB => ⟨hB.prev, hB.next⟩) h.chain
  · rw [listedBucket_iff h, List.mem_map]

theorem oneFreePebble_iff (h : BucketBody m B) (hwf : B.WF) :
    OneFreePebble m B.base ↔ B.idle = true := by
  constructor
  · rintro ⟨p, hfree, honly⟩
    have haddr : ∀ b ∈ B.blocks, b.addr = p := fun b hb =>
      (honly b.addr).mp ((listedPebble_iff h hwf).mpr ⟨b, hb, rfl⟩)
    obtain ⟨b, rest, hblocks⟩ := List.exists_cons_of_ne_nil hwf.nonempty
    have hb := haddr b (by simp [hblocks])
    obtain ⟨_, _, hpb⟩ := h.pebble (b := b) (by simp [hblocks])
    rw [← hb, hpb.isPebbleFree_iff] at hfree
    cases rest with
    | nil =>
        rw [BucketModel.idle, hblocks]
        exact hfree
    | cons c rest =>
        have hc := haddr c (by simp [hblocks])
        have htiles := hwf.tiles
        rw [hblocks] at htiles
        have hnext := htiles.2.1
        rw [hc, ← hb, Block.stop] at hnext
        omega
  · intro hidle
    rw [BucketModel.idle] at hidle
    split at hidle
    · next c hblocks =>
        obtain ⟨_, _, hpc⟩ := h.pebble (b := c) (by simp [hblocks])
        refine ⟨c.addr, by rw [hpc.isPebbleFree_iff]; exact hidle, fun q => ?_⟩
        rw [listedPebble_iff h hwf, hblocks]
        simp [eq_comm]
    · cases hidle

theorem exists_mem_middle {P : BucketModel → Prop} :
    (∃ C ∈ pre ++ B :: post, P C) ↔ P B ∨ ∃ C ∈ pre ++ post, P C := by
  simp only [List.mem_append, List.mem_cons]
  constructor
  · rintro ⟨C, hC | rfl | hC, hP⟩
    · exact .inr ⟨C, .inl hC, hP⟩
    · exact .inl hP
    · exact .inr ⟨C, .inr hC, hP⟩
  · rintro (hP | ⟨C, hC | hC, hP⟩)
    · exact ⟨B, .inr (.inl rfl), hP⟩
    · exact ⟨C, .inl hC, hP⟩
    · exact ⟨C, .inr (.inr hC), hP⟩

/-- A release leaves one free block exactly if all other blocks are free. -/
theorem idle_release_iff {B' : BucketModel} {before after : List Block} {b : Block}
    (hnew : B'.blocks = release before b after) (hcoalesced : Coalesced (before ++ b :: after)) :
    B'.idle = true ↔ ∀ x, x ∈ before ∨ x ∈ after → x.inUse = false := by
  constructor
  · intro hidle x hx
    by_contra hused
    rw [Bool.not_eq_false] at hused
    have hkept : x ∈ B'.blocks := by
      rw [hnew]
      exact mem_release_of_used hx hused
    rw [inUse_of_idle hidle hkept] at hused
    cases hused
  · intro hothers
    have hfree : ∀ x ∈ release before b after, x.inUse = false := by
      intro x hx
      by_contra hused
      rw [Bool.not_eq_false] at hused
      rw [hothers x (mem_of_mem_release hx hused)] at hused
      cases hused
    obtain ⟨c, rest, hlist⟩ := List.exists_cons_of_ne_nil (release_ne_nil before b after)
    have hpairs := hcoalesced.release
    rw [hlist] at hfree hpairs
    cases rest with
    | nil =>
        rw [BucketModel.idle, hnew, hlist]
        simp [hfree c List.mem_cons_self]
    | cons d rest =>
        obtain hused | hused := hpairs.tail.2 d rfl
        · simp [hfree c (by simp)] at hused
        · simp [hfree d (by simp)] at hused

theorem BucketBody.onlyUsed_iff {before after : List Block} {b : Block} (h : BucketBody m B)
    (hwf : B.WF) (hblocks : B.blocks = before ++ b :: after) (hused : b.inUse = true) :
    OnlyUsedPebble m B.base b.addr ↔ ∀ x, x ∈ before ∨ x ∈ after → x.inUse = false := by
  have hfree : ∀ x ∈ B.blocks, isPebbleFree m x.addr = !x.inUse := by
    intro x hx
    obtain ⟨_, _, hpebble⟩ := h.pebble hx
    exact hpebble.isPebbleFree_iff
  have htiles := hwf.tiles
  rw [hblocks] at htiles
  obtain ⟨hbefore, hafter⟩ := Tiles.middle_iff.mp htiles
  constructor
  · intro honly x hx
    have hmem : x ∈ B.blocks := by
      rw [hblocks]
      obtain hx | hx := hx <;> simp [hx]
    have hne : x.addr ≠ b.addr := by
      obtain hx | hx := hx
      · have hbounds := hbefore.bounds hx
        rw [Block.stop] at hbounds
        omega
      · have hbounds := hafter.bounds hx
        rw [Block.stop] at hbounds
        omega
    have hnot := (honly x.addr ((listedPebble_iff h hwf).mpr ⟨x, hmem, rfl⟩)).not.mpr hne
    rw [hfree x hmem] at hnot
    simpa using hnot
  · intro hothers q hq
    obtain ⟨x, hx, rfl⟩ := (listedPebble_iff h hwf).mp hq
    have hstate := hfree x hx
    rw [hblocks, List.mem_append, List.mem_cons] at hx
    obtain hx | rfl | hx := hx
    · have hbounds := hbefore.bounds hx
      rw [Block.stop] at hbounds
      rw [hstate, hothers x (.inl hx)]
      simp
      omega
    · rw [hstate, hused]
      simp
    · have hbounds := hafter.bounds hx
      rw [Block.stop] at hbounds
      rw [hstate, hothers x (.inr hx)]
      simp
      omega

theorem HeaderInv.unlinks (h : HeaderInv s Bs) {bucket pebble : Nat} {h' : Heap}
    (hbucket : ListedBucket s.heap bucket) (hpebble : ListedPebble s.heap.mem bucket pebble)
    (hused : isPebbleFree s.heap.mem pebble = false)
    (hfree : kfreePebble s.heap pebble = some h') :
    (¬ ListedBucket h' bucket ↔ bucket ≠ s.heap.kHeapStart ∧ OneFreePebble h'.mem bucket) ∧
      (OneFreePebble h'.mem bucket ↔ OnlyUsedPebble s.heap.mem bucket pebble) ∧
      ∀ b, b ≠ bucket → (ListedBucket h' b ↔ ListedBucket s.heap b) := by
  obtain ⟨pre, B, post, before, b, after, rfl, rfl, hblocks, rfl, hstate⟩ :=
    h.listed hbucket hpebble
  rw [hstate, Bool.not_eq_false'] at hused
  obtain ⟨m', B', hnew, hfreed⟩ := kfreePebble_spec h.rep hblocks
  have hstart := base_eq_start_iff h.rep
  have hidle := oneFreePebble_iff hfreed.body hfreed.wf
  rw [hfreed.base_eq] at hidle
  have hB : B ∈ pre ++ B :: post := by simp
  have hcoalesced := h.coalesced B hB
  rw [hblocks] at hcoalesced
  have honly : OneFreePebble m' B.base ↔ OnlyUsedPebble s.heap.mem B.base b.addr :=
    hidle.trans ((idle_release_iff hnew hcoalesced).trans
      ((h.rep.body hB).onlyUsed_iff (h.rep.wf B hB) hblocks hused).symm)
  have hbases := h.rep.nodup
  by_cases hremove : B'.idle = true ∧ pre ≠ []
  · obtain ⟨hrep, hcall⟩ := hfreed.removed hremove.1 hremove.2
    rw [hcall] at hfree
    obtain ⟨vmm, -, rfl⟩ := Option.map_eq_some_iff.mp hfree
    have hlisted : ∀ b, ListedBucket { s.heap with mem := m', vmm } b ↔
        ∃ C ∈ pre ++ post, C.base = b := fun b => listedBucket_iff hrep
    refine ⟨⟨fun _ => ⟨mt hstart.mp hremove.2, hidle.mpr hremove.1⟩, fun _ hin => ?_⟩, honly,
      fun b hb => ?_⟩
    · obtain ⟨C, hC, hbase⟩ := (hlisted _).mp hin
      rw [List.map_append, List.map_cons, List.nodup_middle, List.nodup_cons, ← List.map_append,
        ← hbase] at hbases
      exact hbases.1 (List.mem_map_of_mem hC)
    · rw [hlisted, listedBucket_iff h.rep, exists_mem_middle, or_iff_right (Ne.symm hb)]
  · obtain ⟨hrep, hcall⟩ := hfreed.kept hremove
    rw [hcall] at hfree
    cases hfree
    have hlisted : ∀ b, ListedBucket { s.heap with mem := m' } b ↔
        ∃ C ∈ pre ++ B' :: post, C.base = b := fun b => listedBucket_iff hrep
    have hkept : ListedBucket _ B.base := (hlisted _).mpr ⟨B', by simp, hfreed.base_eq⟩
    refine ⟨⟨fun hnot => absurd hkept hnot, fun hand => ?_⟩, honly, fun b hb => ?_⟩
    · exact absurd ⟨hidle.mp hand.2, mt hstart.mpr hand.1⟩ hremove
    · rw [hlisted, listedBucket_iff h.rep, exists_mem_middle, exists_mem_middle, hfreed.base_eq]

/-- The list of buckets of every run. -/
theorem headerRun_bucketList (h : HeaderRun s) : BucketListInv s := by
  obtain ⟨Bs, hinv⟩ := h.inv
  refine ⟨⟨_, hinv.rep.bucketList⟩, fun q hq => ?_,
    fun bucket pebble h' hbucket hpebble hused hfree =>
      hinv.unlinks hbucket hpebble hused hfree⟩
  obtain ⟨B, hB, hbase, b, hb, haddr, hused⟩ := hinv.placed q hq
  have hbody := hinv.rep.body hB
  obtain ⟨_, _, hpb⟩ := hbody.pebble hb
  rw [← hbase, ← haddr, hpb.isPebbleFree_iff, hused]
  exact ⟨(listedBucket_iff hinv.rep).mpr ⟨B, hB, rfl⟩,
    (listedPebble_iff hbody (hinv.rep.wf B hB)).mpr ⟨b, hb, rfl⟩, rfl⟩

/-- After a run that has created a bucket, placed pebbles in two and freed one. -/
theorem headerRun_full_bucketList : ∃ s, HeaderRun s ∧ s.placed = [(0x21000, 0x21040)] ∧
    ListedBucket s.heap 0x10000 ∧ BucketListInv s := by
  obtain ⟨s, hrun, -, A, B, hrep, hbase, -, -, -, hplaced⟩ := headerRun_two
  exact ⟨s, hrun, hplaced, (listedBucket_iff hrep).mpr ⟨A, List.mem_cons_self, hbase⟩,
    headerRun_bucketList hrun⟩

end BucketList

/-! ## `largest_free` -/

/-- `v` is the size of the bucket's largest free pebble, or 0 if none is free. -/
def IsLargestFree (m : Mem) (bucket v : Nat) : Prop :=
  (∀ p, ListedPebble m bucket p → isPebbleFree m p = true → m.get p MemoryPebble.size ≤ v) ∧
    ((∃ p, ListedPebble m bucket p ∧ isPebbleFree m p = true ∧ m.get p MemoryPebble.size = v) ∨
      v = 0 ∧ ∀ p, ListedPebble m bucket p → isPebbleFree m p = false)

/-- Every pebble in use is empty or no larger than some free pebble of the bucket. -/
def FreeDominates (m : Mem) (bucket : Nat) : Prop :=
  ∀ p, ListedPebble m bucket p → isPebbleFree m p = false → m.get p MemoryPebble.size = 0 ∨
    ∃ q, ListedPebble m bucket q ∧ isPebbleFree m q = true ∧
      m.get p MemoryPebble.size ≤ m.get q MemoryPebble.size

section LargestFree

variable {m : Mem} {B : BucketModel} {s : HeaderState} {bucket : Nat}

/-- The maximum is attained, unless there is nothing larger than the start value. -/
theorem maxSize_mem (xs : List Block) (ret : Nat) :
    maxSize xs ret = ret ∨ ∃ b ∈ xs, b.size = maxSize xs ret := by
  induction xs generalizing ret with
  | nil => exact .inl rfl
  | cons b rest ih =>
      rw [maxSize_cons]
      split
      · obtain hmax | ⟨c, hc, hmax⟩ := ih b.size
        · exact .inr ⟨b, List.mem_cons_self, hmax.symm⟩
        · exact .inr ⟨c, List.mem_cons_of_mem b hc, hmax⟩
      · obtain hmax | ⟨c, hc, hmax⟩ := ih ret
        · exact .inl hmax
        · exact .inr ⟨c, List.mem_cons_of_mem b hc, hmax⟩

theorem BucketBody.isLargestFree_iff (h : BucketBody m B) (hwf : B.WF) (hexact : B.Exact) :
    IsLargestFree m B.base (m.get B.base MemoryBucket.largestFree) ↔ FreeDominates m B.base := by
  have hlarge : m.get B.base MemoryBucket.largestFree = maxSize B.blocks 0 := h.largest.trans hexact
  have hlisted : ∀ p, ListedPebble m B.base p ↔ ∃ b ∈ B.blocks, b.addr = p :=
    fun p => listedPebble_iff h hwf
  have hle : ∀ p, ListedPebble m B.base p → m.get p MemoryPebble.size ≤ maxSize B.blocks 0 := by
    intro p hp
    obtain ⟨b, hb, rfl⟩ := (hlisted p).mp hp
    obtain ⟨_, _, hpb⟩ := h.pebble hb
    rw [hpb.size]
    exact le_maxSize hb
  rw [hlarge]
  constructor
  · rintro ⟨-, ⟨q, hq, hfree, hsize⟩ | ⟨hzero, -⟩⟩ p hp -
    · exact .inr ⟨q, hq, hfree, (hle p hp).trans_eq hsize.symm⟩
    · have hp := hle p hp
      omega
  · intro hdominates
    refine ⟨fun p hp _ => hle p hp, ?_⟩
    have hempty (hzero : maxSize B.blocks 0 = 0) :
        (∃ p, ListedPebble m B.base p ∧ isPebbleFree m p = true ∧
          m.get p MemoryPebble.size = maxSize B.blocks 0) ∨
        maxSize B.blocks 0 = 0 ∧ ∀ p, ListedPebble m B.base p → isPebbleFree m p = false := by
      by_cases hfree : ∃ p, ListedPebble m B.base p ∧ isPebbleFree m p = true
      · obtain ⟨p, hp, hfree⟩ := hfree
        have hsize := hle p hp
        exact .inl ⟨p, hp, hfree, by omega⟩
      · exact .inr ⟨hzero, fun p hp => by simpa using fun hf => hfree ⟨p, hp, hf⟩⟩
    -- the maximum is the size of some pebble `b`, or zero
    obtain hzero | ⟨b, hb, hmax⟩ := maxSize_mem B.blocks 0
    · exact hempty hzero
    · obtain ⟨_, _, hpb⟩ := h.pebble hb
      have hp : ListedPebble m B.base b.addr := (hlisted _).mpr ⟨b, hb, rfl⟩
      rw [← hpb.size] at hmax
      cases hfree : isPebbleFree m b.addr with
      | true => exact .inl ⟨b.addr, hp, hfree, hmax⟩
      | false =>
          obtain hzero | ⟨q, hq, hqfree, hqsize⟩ := hdominates b.addr hp hfree
          · exact hempty (hmax.symm.trans hzero)
          · have hsize := hle q hq
            exact .inl ⟨q, hq, hqfree, by omega⟩

/-- In every heap a run reaches, `largest_free` of a listed bucket is exact if and only if
no pebble in use is larger than all free ones. -/
theorem headerRun_isLargestFree_iff (h : HeaderRun s) (hbucket : ListedBucket s.heap bucket) :
    IsLargestFree s.heap.mem bucket (s.heap.mem.get bucket MemoryBucket.largestFree) ↔
      FreeDominates s.heap.mem bucket := by
  obtain ⟨Bs, hinv⟩ := h.inv
  obtain ⟨B, hB, rfl⟩ := (listedBucket_iff hinv.rep).mp hbucket
  exact (hinv.rep.body hB).isLargestFree_iff (hinv.rep.wf B hB) (hinv.exact B hB)

theorem bootHeap_isLargestFree :
    IsLargestFree bootHeap.mem 0x10000 (bootHeap.mem.get 0x10000 MemoryBucket.largestFree) := by
  refine (headerRun_isLargestFree_iff headerRun_bootHeap (.first (by decide))).mpr
    fun p hp hused => ?_
  have hbody := bootHeap_rep.body (B := freshBucket 0x10000 69632) (by simp)
  have hwf := bootHeap_rep.wf (freshBucket 0x10000 69632) (by simp)
  obtain ⟨b, hb, rfl⟩ := (listedPebble_iff hbody hwf).mp hp
  obtain ⟨_, _, hpb⟩ := hbody.pebble hb
  rw [freshBucket, List.mem_singleton] at hb
  rw [hpb.isPebbleFree_iff, hb] at hused
  cases hused

/-- The pebble of 64 KiB is in use, and the cached maximum is its size. -/
theorem not_isLargestFree_full : ∃ s, HeaderRun s ∧ ListedBucket s.heap 0x10000 ∧
    ¬ IsLargestFree s.heap.mem 0x10000 (s.heap.mem.get 0x10000 MemoryBucket.largestFree) := by
  obtain ⟨s, hrun, hstart, B, hrep, hbase, hlargest, hblocks, -⟩ := headerRun_full
  have hbody := hrep.body (B := B) (by simp)
  have hwf := hrep.wf B (by simp)
  refine ⟨s, hrun, (listedBucket_iff hrep).mpr ⟨B, by simp, hbase⟩, ?_⟩
  rw [← hbase, hbody.largest, hlargest]
  rintro ⟨-, ⟨p, hp, hfree, hsize⟩ | ⟨hzero, -⟩⟩
  · obtain ⟨b, hb, rfl⟩ := (listedPebble_iff hbody hwf).mp hp
    obtain ⟨_, _, hpb⟩ := hbody.pebble hb
    rw [hpb.isPebbleFree_iff] at hfree
    rw [hpb.size] at hsize
    rw [hblocks] at hb
    simp only [List.mem_cons, List.not_mem_nil, or_false] at hb
    obtain rfl | rfl := hb
    · simp at hfree
    · simp at hsize
  · simp at hzero

end LargestFree

end FroggyOs
