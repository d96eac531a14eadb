import FroggyOs.Klibc.Owners

/-!
# What the calls leave in the payloads

The allocator writes headers, and the only headers that it writes anew lie in free blocks, in
the block it cuts, or in a bucket it has just created. So the payload of a block in use keeps
its bytes through every call that is not about this block. Section by section, the bytes that
lie in no header and in no free block stay as they are.
-/

namespace FroggyOs

open ByteMemory Word64 LinkedChain

attribute [local irreducible] bucketUpdateLargest

/-! ## Bytes outside of the headers -/

/-- `x` lies in no header of the bucket. -/
structure BucketModel.Clear (B : BucketModel) (x : Nat) : Prop where
  bucket : x < B.base ∨ B.base + 64 ≤ x
  pebbles : ∀ b ∈ B.blocks, x < b.addr ∨ b.payload ≤ x

/-- `x` lies in no header and in no free block of the bucket. -/
structure BucketModel.Kept (B : BucketModel) (x : Nat) : Prop where
  clear : B.Clear x
  free : ∀ b ∈ B.blocks, b.inUse = false → x < b.addr ∨ b.stop ≤ x

section Bytes

variable {m m' : Mem} {B B' : BucketModel} {Bs : List BucketModel} {before after xs : List Block}
  {a b : Block} {x p q r v bucket need fl prev next : Nat}

/-- The bytes of a payload lie in no header. -/
theorem Separate.clear (h : Separate Bs) (hb : Used Bs b) (hB : B ∈ Bs) (hlow : b.payload ≤ x)
    (hhigh : x < b.stop) : B.Clear x := by
  obtain ⟨-, C, hC, hb⟩ := hb
  constructor
  · have hapart := h.payload_apart_bucket hC hB hb
    omega
  · intro c hc
    have hapart := h.payload_apart_pebble hC hB hb hc
    omega

/-- The bytes of a payload in use lie in no free block. -/
theorem Separate.kept (h : Separate Bs) (hb : Used Bs b) (hB : B ∈ Bs) (hlow : b.payload ≤ x)
    (hhigh : x < b.stop) : B.Kept x := by
  refine ⟨h.clear hb hB hlow hhigh, fun c hc hfree => ?_⟩
  obtain ⟨hused, C, hC, hb⟩ := hb
  have hne : b ≠ c := by
    rintro rfl
    rw [hused] at hfree
    cases hfree
  have hapart := h.blocks_apart hC hB hb hc hne
  simp only [Block.payload] at hlow
  omega

/-- Two blocks in use lie apart. -/
theorem Separate.used_apart (h : Separate Bs) {c : Block} (hb : Used Bs b) (hc : Used Bs c)
    (hne : b ≠ c) : b.stop ≤ c.addr ∨ c.stop ≤ b.addr := by
  obtain ⟨-, B, hB, hbB⟩ := hb
  obtain ⟨-, C, hC, hcC⟩ := hc
  exact h.blocks_apart hB hC hbB hcC hne

theorem BucketModel.Clear.put_bucket (hx : B.Clear x) {f : Field} (hf : f.offset + f.width ≤ 64) :
    (m.put B.base f v).byte x = m.byte x := by
  have hbucket := hx.bucket
  exact Mem.put_byte_outside (by omega)

theorem BucketModel.Clear.put_pebble (hx : B.Clear x) (hb : b ∈ B.blocks) {f : Field}
    (hf : f.offset + f.width ≤ 60) : (m.put b.addr f v).byte x = m.byte x := by
  have hpebble := hx.pebbles b hb
  simp only [Block.payload] at hpebble
  exact Mem.put_byte_outside (by omega)

/-- The back link of the next pebble lies in a header. -/
theorem relink_byte (hx : ∀ c ∈ xs, x < c.addr ∨ c.payload ≤ x) :
    (relink m (headAddr Block.addr xs 0) v).byte x = m.byte x := by
  cases xs with
  | nil => rfl
  | cons c rest =>
      have hc := hx c List.mem_cons_self
      simp only [Block.payload] at hc
      rw [headAddr_cons, relink]
      split
      case isTrue => exact Mem.put_byte_outside (by simp only; omega)
      case isFalse => rfl

theorem bucketUpdateLargest_byte (hcall : bucketUpdateLargest m bucket = some m')
    (hx : x < bucket ∨ bucket + 64 ≤ x) : m'.byte x = m.byte x := by
  unfold bucketUpdateLargest at hcall
  obtain ⟨ret, -, hput⟩ := Option.bind_eq_some_iff.mp hcall
  cases hput
  exact Mem.put_byte_outside (by simp only; omega)

/-! ## Splitting and placing -/

/-- A split writes headers, one of them into the part that it cuts off. -/
theorem splitPebble_byte (h : BucketBody m B) (hwf : B.WF)
    (hblocks : B.blocks = before ++ b :: after) (hfits : SplitFits b r) (hx : B.Clear x)
    (hpart : x < (splitHead b r).stop ∨ b.stop ≤ x) :
    (splitPebble m b.addr r).byte x = m.byte x := by
  have hb : b ∈ B.blocks := by simp [hblocks]
  have hpebble : PebbleAt m B.base b _ _ := (Chain.middle_iff.mp (hblocks ▸ h.pebbles)).2.1
  by_cases htest : splitPebbleTest b.size r
  · have hroom := hfits htest
    have hbounds := hwf.block_bounds hb
    have hword := hwf.fits
    rw [splitHead, if_pos htest] at hpart
    simp only [Block.stop] at hpart hbounds
    generalize hS : splitSize r = S at *
    obtain ⟨haddr, -⟩ := @splitSums b.addr b.size S hroom (by omega)
    have hafter : ∀ c ∈ after, x < c.addr ∨ c.payload ≤ x :=
      fun c hc => hx.pebbles c (by simp [hblocks, hc])
    rw [splitPebble_of_test hpebble.size htest hS haddr hpebble.next (by omega),
      hx.put_pebble hb (by decide), hx.put_pebble hb (by decide), relink_byte hafter,
      newHeader_byte_outside (by omega)]
  · rw [splitPebble_of_not hpebble.size htest]

/-- Placing a request writes headers and inside the free block it is placed in. -/
theorem placePebble_byte (h : BucketBody m B) (hwf : B.WF) (haligned : need % 64 = 0)
    (hcall : placePebble m B.base need fl = some (p, m')) (hx : B.Kept x) :
    m'.byte x = m.byte x := by
  obtain ⟨found, hfound, hcases⟩ := searchPebbles_spec need h hwf
  rw [placePebble, hfound] at hcall
  simp only [Option.bind_eq_bind, Option.bind_some] at hcall
  obtain ⟨-, rfl⟩ | ⟨before, b, after, hblocks, hfits, rfl, -⟩ := hcases
  · rw [if_pos rfl] at hcall
    cases hcall
    rfl
  · have hb : b ∈ B.blocks := by simp [hblocks]
    have hbounds := hwf.block_bounds hb
    rw [if_neg (by omega)] at hcall
    cases hcall
    have hfree := hx.free b hb (inUse_of_fits hfits)
    have hpebble := hx.clear.pebbles b hb
    rw [hx.clear.put_pebble hb (by decide)]
    refine splitPebble_byte h hwf hblocks (splitFits_of_fits hwf haligned hb hfits) hx.clear ?_
    obtain hlow | hhigh := hfree
    · left
      rw [Block.stop, splitHead_addr]
      omega
    · exact .inr hhigh

/-! ## Merging -/

theorem mergePebbles_byte (h : BucketBody m B) (hblocks : B.blocks = before ++ a :: b :: after)
    (hwf : B.WF) (hx : B.Clear x) : (mergePebbles m a.addr b.addr).byte x = m.byte x := by
  obtain ⟨-, hpa, hpb, -⟩ := Chain.middle_iff.mp (hblocks ▸ h.pebbles)
  have htiles := hwf.tiles
  rw [hblocks] at htiles
  have hbaddr : b.addr = a.addr + 60 + a.size := (Tiles.middle_iff.mp htiles).2.1
  have ha : a ∈ B.blocks := by simp [hblocks]
  have hpb₁ : ∀ v, PebbleAt (m.put a.addr MemoryPebble.size v) B.base b _ _ :=
    fun v => hpb.put_other (.inl (by simp; omega))
  have hpb₂ : ∀ v w, PebbleAt ((m.put a.addr MemoryPebble.size v).put a.addr MemoryPebble.next w)
      B.base b _ _ := fun v w => (hpb₁ v).put_other (.inl (by simp; omega))
  have hafter : ∀ c ∈ after, x < c.addr ∨ c.payload ≤ x :=
    fun c hc => hx.pebbles c (by simp [hblocks, hc])
  rw [mergePebbles]
  simp only [(hpb₁ _).next, (hpb₂ _ _).next]
  rw [relink_byte hafter, hx.put_pebble ha (by decide), hx.put_pebble ha (by decide)]

theorem meltPrev_byte (h : BucketBody m B) (hwf : B.WF) (hblocks : B.blocks = before ++ b :: after)
    (hb : b.inUse = false) (hcall : meltPrev m b.addr = some (p, m')) (hx : B.Clear x) :
    m'.byte x = m.byte x := by
  obtain rfl | ⟨front, a, rfl⟩ := List.eq_nil_or_concat' before
  · have hpb : PebbleAt m B.base b _ _ := (Chain.middle_iff.mp (hblocks ▸ h.pebbles)).2.1
    rw [meltPrev, if_neg (by rw [hpb.prev]; simp)] at hcall
    cases hcall
    rfl
  · rw [List.append_assoc, List.singleton_append] at hblocks
    obtain ⟨-, hpa, hpb, -⟩ := Chain.middle_iff.mp (hblocks ▸ h.pebbles)
    cases ha : a.inUse with
    | true =>
        rw [meltPrev, hpb.prev, hpa.isPebbleFree_iff, ha, if_neg (by simp)] at hcall
        cases hcall
        rfl
    | false =>
        rw [meltPrev_of_free h hwf hblocks ha hb] at hcall
        obtain ⟨m₁, hupdate, hret⟩ := Option.bind_eq_some_iff.mp hcall
        cases hret
        rw [bucketUpdateLargest_byte hupdate hx.bucket, mergePebbles_byte h hblocks hwf hx]

theorem absorbNext_byte (h : BucketBody m B) (hwf : B.WF)
    (hblocks : B.blocks = before ++ b :: after) (hb : b.inUse = false)
    (hcall : absorbNext m b.addr = some m') (hx : B.Clear x) : m'.byte x = m.byte x := by
  obtain ⟨-, hpb, hafter⟩ := Chain.middle_iff.mp (hblocks ▸ h.pebbles)
  cases after with
  | nil =>
      rw [absorbNext, if_neg (by rw [hpb.next]; simp)] at hcall
      cases hcall
      rfl
  | cons c rest =>
      have hnext : m.get b.addr MemoryPebble.next = c.addr := hpb.next
      cases hc : c.inUse with
      | true =>
          rw [absorbNext, hnext, hafter.1.isPebbleFree_iff, hc, if_neg (by simp)] at hcall
          cases hcall
          rfl
      | false =>
          rw [absorbNext_of_free h hwf hblocks hb hc] at hcall
          rw [bucketUpdateLargest_byte hcall hx.bucket, mergePebbles_byte h hblocks hwf hx]

end Bytes

/-! ## The locked sections -/

section Sections

variable {m m' : Mem} {B : BucketModel} {Bs : List BucketModel} {before after : List Block}
  {b : Block} {x p need fuel prev next : Nat}

theorem tryBucket_byte (h : BucketBody m B) (hwf : B.WF) (haligned : need % 64 = 0)
    (hcall : tryBucket m B.base need = some (p, m')) (hx : B.Kept x) : m'.byte x = m.byte x := by
  rw [tryBucket] at hcall
  split at hcall
  case isTrue => exact placePebble_byte h hwf haligned hcall hx
  case isFalse =>
      cases hcall
      rfl

theorem scanSection_byte (h : BucketAt 0 m B prev next) (hwf : B.WF) (haligned : need % 64 = 0)
    (hcall : scanSection m B.base need = some (p, m')) (hx : B.Kept x) :
    m'.byte x = m.byte x := by
  have hlocked := h.body.put_spinlock hwf 1
  rw [scanSection, acquireSpinlock_eq h.spinlock] at hcall
  simp only [Option.bind_eq_bind, Option.bind_some, releaseSpinlock_eq] at hcall
  obtain ⟨⟨q, m₁⟩, htry, hcall⟩ := Option.bind_eq_some_iff.mp hcall
  have hplaced : m₁.byte x = m.byte x :=
    (tryBucket_byte hlocked hwf haligned htry hx).trans (hx.clear.put_bucket (by decide))
  split at hcall
  case isTrue =>
      obtain ⟨m₂, hupdate, hret⟩ := Option.bind_eq_some_iff.mp hcall
      cases hret
      rw [hx.clear.put_bucket (by decide), bucketUpdateLargest_byte hupdate hx.clear.bucket,
        hplaced]
  case isFalse =>
      cases hcall
      rw [hx.clear.put_bucket (by decide), hplaced]

theorem placeSection_byte (h : BucketAt 0 m B prev next) (hwf : B.WF) (haligned : need % 64 = 0)
    (hcall : placeSection m B.base need = some (p, m')) (hx : B.Kept x) :
    m'.byte x = m.byte x := by
  have hlocked := h.body.put_spinlock hwf 1
  rw [placeSection, acquireSpinlock_eq h.spinlock] at hcall
  simp only [Option.bind_eq_bind, Option.bind_some, releaseSpinlock_eq] at hcall
  obtain ⟨⟨q, m₁⟩, hplace, hcall⟩ := Option.bind_eq_some_iff.mp hcall
  obtain ⟨m₂, hupdate, hret⟩ := Option.bind_eq_some_iff.mp hcall
  cases hret
  rw [hx.clear.put_bucket (by decide), bucketUpdateLargest_byte hupdate hx.clear.bucket,
    placePebble_byte hlocked hwf haligned hplace hx, hx.clear.put_bucket (by decide)]

/-- The headers of a bucket stay where they are when a pebble is marked free and melted. -/
theorem BucketModel.Clear.melt (hx : B.Clear x) (hblocks : B.blocks = before ++ b :: after)
    {B' : BucketModel} (hbase : B'.base = B.base)
    (hnew : B'.blocks = (melt before b.free).1 ++ (melt before b.free).2 :: after) :
    B'.Clear x := by
  refine ⟨hbase ▸ hx.bucket, fun c hc => ?_⟩
  rw [hnew, List.mem_append, List.mem_cons] at hc
  have hold : ∀ d, d ∈ before ++ b :: after → x < d.addr ∨ d.payload ≤ x :=
    fun d hd => hx.pebbles d (hblocks ▸ hd)
  obtain hsame | ⟨front, a, rfl, -, -, hmerged⟩ := melt_cases before b.free
  · rw [hsame] at hc
    obtain hc | rfl | hc := hc
    · exact hold c (by simp [hc])
    · exact hold b (by simp)
    · exact hold c (by simp [hc])
  · rw [hmerged] at hc
    obtain hc | rfl | hc := hc
    · exact hold c (by simp [hc])
    · exact hold a (by simp)
    · exact hold c (by simp [hc])

/-- Freeing writes headers only. -/
theorem freeSection_byte (h : BucketAt 0 m B prev next) (hwf : B.WF)
    (hblocks : B.blocks = before ++ b :: after)
    (hcall : freeSection m b.addr = some (p, m')) (hx : B.Clear x) : m'.byte x = m.byte x := by
  have hb : b ∈ B.blocks := by simp [hblocks]
  have hpb : PebbleAt m B.base b _ _ := (Chain.middle_iff.mp (hblocks ▸ h.body.pebbles)).2.1
  have hmark := markFree_step (h.body.put_spinlock hwf 1) hwf hblocks
  have hmarked : (((m.put B.base MemoryBucket.spinlock 1).put b.addr MemoryPebble.lflags
      pebbleFlagFree).put b.addr MemoryPebble.alignment 1).byte x = m.byte x := by
    rw [hx.put_pebble hb (by decide), hx.put_pebble hb (by decide), hx.put_bucket (by decide)]
  obtain ⟨m₁, m₂, q, -, hmelt, habsorb, hparent, -⟩ :=
    freePebble_spec (h.body.put_spinlock hwf 1) hwf hblocks
  rw [freeSection, hpb.parent, acquireSpinlock_eq h.spinlock] at hcall
  simp only [Option.bind_eq_bind, Option.bind_some, releaseSpinlock_eq, hmelt, habsorb,
    hparent] at hcall
  cases hcall
  generalize ((m.put B.base MemoryBucket.spinlock 1).put b.addr MemoryPebble.lflags
    pebbleFlagFree).put b.addr MemoryPebble.alignment 1 = m₀ at *
  obtain ⟨_, B₁, hmelt', hstep₁, hblocks₁, -⟩ :=
    meltPrev_spec hmark.body hmark.wf rfl (Block.free_inUse b)
  rw [Block.free_addr, hmelt] at hmelt'
  cases hmelt'
  have hmarkClear : (B.withBlocks (before ++ b.free :: after)).Clear x := by
    refine ⟨hx.bucket, fun c hc => ?_⟩
    obtain hc | hc := List.mem_append.mp hc
    · exact hx.pebbles c (by simp [hblocks, hc])
    · obtain rfl | hc := List.mem_cons.mp hc
      · exact hx.pebbles b hb
      · exact hx.pebbles c (by simp [hblocks, hc])
  have hmelted : m₁.byte x = m₀.byte x :=
    meltPrev_byte hmark.body hmark.wf rfl (Block.free_inUse b) hmelt hmarkClear
  have hinUse : (melt before b.free).2.inUse = false := by
    obtain hsame | ⟨front, a, -, -, -, hmerged⟩ := melt_cases before b.free
    · rw [hsame, Block.free_inUse]
    · rw [hmerged, mergeBlocks_inUse]
  have hclear₁ : B₁.Clear x := hx.melt hblocks hstep₁.base_eq hblocks₁
  rw [hx.put_bucket (by decide), absorbNext_byte hstep₁.body hstep₁.wf hblocks₁ hinUse habsorb
    hclear₁, hmelted, hmarked]

end Sections

/-! ## The list of buckets -/

section Buckets

variable {m m' : Mem} {start x p0 p1 bucket dest next v : Nat} {A B : BucketModel}
  {Bs front post : List BucketModel} {h h' : Heap}

theorem relinkBucket_byte (hx : ∀ C ∈ Bs, x < C.base ∨ C.base + 64 ≤ x) :
    (relinkBucket m (headAddr BucketModel.base Bs 0) v).byte x = m.byte x := by
  cases Bs with
  | nil => rfl
  | cons C rest =>
      have hC := hx C List.mem_cons_self
      rw [headAddr_cons, relinkBucket]
      split
      case isTrue => exact Mem.put_byte_outside (by simp only; omega)
      case isFalse => rfl

/-- The links of the two buckets and the back link of the one behind. -/
theorem updateNode_byte (hapart : p0 + 64 ≤ p1 ∨ p1 + 64 ≤ p0)
    (hnext : m.get p1 MemoryBucket.next = headAddr BucketModel.base Bs 0)
    (hp0 : x < p0 ∨ p0 + 64 ≤ x) (hp1 : x < p1 ∨ p1 + 64 ≤ x)
    (hx : ∀ C ∈ Bs, x < C.base ∨ C.base + 64 ≤ x) : (updateNode m p0 p1).byte x = m.byte x := by
  have hlt : headAddr BucketModel.base Bs 0 < 2 ^ 64 := by
    rw [← hnext]
    exact Mem.get_lt m _ _
  generalize hm₁ : ((m.put p0 MemoryBucket.next (headAddr BucketModel.base Bs 0)).put p1
    MemoryBucket.next p0).put p0 MemoryBucket.prev p1 = m₁
  have hlinked : m₁.get p0 MemoryBucket.next = headAddr BucketModel.base Bs 0 := by
    rw [← hm₁, Mem.get_put_disjoint (by simp), Mem.get_put_disjoint (by simp; omega)]
    exact Mem.get_put_same hlt
  have hupdate : updateNode m p0 p1 =
      relinkBucket m₁ (headAddr BucketModel.base Bs 0) p0 := by
    simp only [updateNode, hnext, hm₁, hlinked]
    rfl
  rw [hupdate, relinkBucket_byte hx, ← hm₁]
  iterate 3 rw [Mem.put_byte_outside (by simp only; omega)]

/-- `insert_bucket` writes headers of buckets only. -/
theorem insertBucket_byte (h : HeapRep m start (A :: post))
    (hapart : bucket + 64 ≤ A.base ∨ A.base + 64 ≤ bucket)
    (hcall : insertBucket m bucket start = some m') (hbucket : x < bucket ∨ bucket + 64 ≤ x)
    (hx : ∀ C ∈ A :: post, x < C.base ∨ C.base + 64 ≤ x) : m'.byte x = m.byte x := by
  obtain ⟨hA, -⟩ := h.chain
  have hstart : A.base = start := h.head
  have hAx := hx A List.mem_cons_self
  have hnext : (m.put A.base MemoryBucket.spinlock 1).get A.base MemoryBucket.next =
      headAddr BucketModel.base post 0 := (Mem.get_put_disjoint (by simp)).trans hA.next
  rw [insertBucket] at hcall
  split at hcall
  case isTrue =>
      rw [← hstart, acquireSpinlock_eq hA.spinlock] at hcall
      cases hcall
      rw [releaseSpinlock_eq, Mem.put_byte_outside (by simp only; omega),
        updateNode_byte hapart hnext hbucket hAx fun C hC => hx C (List.mem_cons_of_mem A hC),
        Mem.put_byte_outside (by simp only; omega)]
  case isFalse =>
      cases hcall
      rfl

/-- `remove_bucket` writes the links of the neighbours only. -/
theorem unlinkBucket_byte (h : HeapRep m start (front ++ A :: B :: post))
    (hx : ∀ C ∈ front ++ A :: B :: post, x < C.base ∨ C.base + 64 ≤ x) :
    (unlinkBucket m B.base).byte x = m.byte x := by
  obtain ⟨-, -, hB, -⟩ := Chain.middle_iff.mp h.chain
  have hAwf := h.wf A (by simp)
  have hAB : Apart A B := (apart_middle.mp h.apart).1 B (by simp)
  have hAx := hx A (by simp)
  have hB₁ := hB.put_other (v := headAddr BucketModel.base post 0) (h.wf B (by simp)) hAwf hAB
    (f := MemoryBucket.next) (by decide)
  have hunlink : unlinkBucket m B.base =
      relinkBucket (m.put A.base MemoryBucket.next (headAddr BucketModel.base post 0))
        (headAddr BucketModel.base post 0) A.base := by
    rw [unlinkBucket, hB.prev, if_pos hAwf.base_ne, hB.next]
    simp only [hB₁.prev, hB₁.next]
    rfl
  rw [hunlink, relinkBucket_byte fun C hC => hx C (by simp [hC]),
    Mem.put_byte_outside (by simp only; omega)]

theorem removeBucket_byte {pre : List BucketModel}
    (hrep : HeapRep h.mem h.kHeapStart (pre ++ B :: post))
    (hcall : removeBucket h B.base = some h')
    (hx : ∀ C ∈ pre ++ B :: post, x < C.base ∨ C.base + 64 ≤ x) :
    h'.mem.byte x = h.mem.byte x := by
  obtain rfl | ⟨front, A, rfl⟩ := List.eq_nil_or_concat' pre
  · have hstart : B.base = h.kHeapStart := (base_eq_start_iff hrep).mpr rfl
    rw [removeBucket, if_neg fun hand => hand.2 hstart] at hcall
    cases hcall
    rfl
  · rw [List.append_assoc, List.singleton_append] at hrep hx
    have hunlinked := unlinkBucket_byte hrep hx
    rw [removeBucket] at hcall
    split at hcall
    case isTrue =>
        obtain ⟨vmm, -, hret⟩ := Option.bind_eq_some_iff.mp hcall
        rw [← Option.some.inj hret]
        dsimp only
        exact hunlinked
    case isFalse =>
        cases hcall
        rfl

end Buckets

/-! ## The calls -/

section Calls

variable {h h' : Heap} {m m' : Mem} {Bs : List BucketModel} {b : Block}
  {x n need fuel prev ret size : Nat}

/-- The search of `kmalloc` keeps the bytes that lie in no header and in no free block. -/
theorem searchBuckets_byte (hchain : BucketChain m prev Bs 0) (hwf : ∀ B ∈ Bs, B.WF)
    (haligned : need % 64 = 0)
    (hcall : searchBuckets need fuel (headAddr BucketModel.base Bs 0) m = some (ret, m'))
    (hx : ∀ B ∈ Bs, B.Kept x) : m'.byte x = m.byte x := by
  induction Bs generalizing fuel prev with
  | nil =>
      cases fuel with
      | zero => cases hcall
      | succ fuel =>
          cases hcall
          rfl
  | cons B rest ih =>
      obtain ⟨hB, hrest⟩ := hchain
      have hBwf := hwf B List.mem_cons_self
      have hBx := hx B List.mem_cons_self
      cases fuel with
      | zero => cases hcall
      | succ fuel =>
          rw [headAddr_cons, searchBuckets_succ hBwf.base_ne] at hcall
          obtain ⟨⟨p, m₁⟩, hscan, hcall⟩ := Option.bind_eq_some_iff.mp hcall
          have hscanned := scanSection_byte hB hBwf haligned hscan hBx
          split at hcall
          case isTrue =>
              cases hcall
              exact hscanned
          case isFalse hmissed =>
              -- nothing was placed, so the memory is the one before the round
              obtain ⟨hrefused, hadmitted⟩ := scanSection_spec hB hBwf haligned
              have hsame : ¬ B.Admits need := by
                intro hadmits
                obtain ⟨q, _, _, hscan', hq, -⟩ := hadmitted hadmits
                rw [hscan] at hscan'
                cases hscan'
                exact hmissed hq
              rw [hrefused hsame] at hscan
              cases hscan
              rw [hB.next] at hcall
              exact ih hrest (fun C hC => hwf C (List.mem_cons_of_mem B hC)) hcall
                fun C hC => hx C (List.mem_cons_of_mem B hC)

/-- Where a bucket is created for the request, the payloads of the others are left alone. -/
theorem HeapInv.allocInNewBucket_byte (hinv : HeapInv h Bs) (hin : RegionInRange h size)
    (hcall : allocInNewBucket h size (pebbleSize size) = some (ret, h')) (hb : Used Bs b)
    (hlow : b.payload ≤ x) (hhigh : x < b.stop) : h'.mem.byte x = h.mem.byte x := by
  obtain ⟨A, post, rfl⟩ := List.exists_cons_of_ne_nil hinv.rep.nonempty
  have hsep := hinv.rep.separate
  have hclear : ∀ C ∈ A :: post, x < C.base ∨ C.base + 64 ≤ x :=
    fun C hC => (hsep.clear hb hC hlow hhigh).bucket
  obtain ⟨vmm, m₁, m₂, hcreate, hinsert, hNinv⟩ := hinv.create hin
  have hNwf := hNinv.rep.wf _ List.mem_append_cons_self
  have hNlt := hNwf.base_lt_stop
  have hNfits := hNwf.fits
  rw [freshBucket_base] at hNlt
  -- the payload ends below the new bucket
  have hbelow : x < h.vmm.kHeapEnd.toNat := by
    obtain ⟨-, C, hC, hbC⟩ := hb
    have hbounds := (hinv.rep.wf C hC).block_bounds hbC
    have hend := hinv.below C hC
    simp only [Block.stop] at hhigh
    omega
  obtain ⟨vmm', -, hcases⟩ := createBucket_cases hcreate
  obtain ⟨-, hheap⟩ := hcases.resolve_left fun hand => hNwf.base_ne hand.1
  obtain rfl : m₁ = initBucket h.mem h.vmm.kHeapEnd.toNat (bucketBytes size) 0 :=
    congrArg Heap.mem hheap
  have hrep₁ : HeapRep (initBucket h.mem h.vmm.kHeapEnd.toNat (bucketBytes size) 0) h.kHeapStart
      (A :: post) :=
    hinv.rep.initBucket (by omega) hinv.below
  have hAbelow := hinv.below A (by simp)
  have hAlt := (hinv.rep.wf A (by simp)).base_lt_stop
  have hinserted : m₂.byte x = h.mem.byte x := by
    rw [insertBucket_byte hrep₁ (.inr (by omega)) hinsert (.inl hbelow) hclear,
      initBucket_byte (by omega) (.inl hbelow)]
  have hN := (Chain.middle_iff.mp hNinv.rep.chain).2.1
  have hkept : (freshBucket h.vmm.kHeapEnd.toNat (bucketBytes size)).Kept x := by
    refine ⟨⟨.inl hbelow, fun c hc => .inl ?_⟩, fun c hc _ => .inl ?_⟩ <;>
    · have hbounds := hNwf.block_bounds hc
      rw [freshBucket_base] at hbounds
      omega
  rw [allocInNewBucket_eq, hcreate] at hcall
  simp only [Option.bind_some, (show h.vmm.kHeapEnd.toNat ≠ 0 from hNwf.base_ne), if_false,
    hinsert] at hcall
  obtain ⟨⟨p, m₃⟩, hsection, hret⟩ := Option.bind_eq_some_iff.mp hcall
  cases hret
  exact (placeSection_byte hN hNwf (pebbleSize_aligned size) hsection hkept).trans hinserted

/-- `kmalloc` up to its zero fill leaves the payloads in use alone. -/
theorem HeapInv.obtainPebble_byte (hinv : HeapInv h Bs)
    (hready : ¬ Served h (pebbleSize size) → RegionInRange h size)
    (hcall : obtainPebble h size = some (ret, h')) (hb : Used Bs b) (hlow : b.payload ≤ x)
    (hhigh : x < b.stop) : h'.mem.byte x = h.mem.byte x := by
  have hrep := hinv.rep
  have haligned := pebbleSize_aligned size
  obtain ⟨hsearch, hmissed⟩ | ⟨-, pre, B, post, c, m', B', hBs, hc, hsearch, -⟩ :=
    searchBuckets_cases hrep haligned
  · rw [← served_iff hrep] at hmissed
    rw [obtainPebble_eq hsearch, if_pos rfl] at hcall
    exact hinv.allocInNewBucket_byte (hready hmissed) hcall hb hlow hhigh
  · have hB : B ∈ Bs := by simp [hBs]
    have hbounds := (hrep.wf B hB).block_bounds hc
    have hbelow := hinv.below B hB
    have hword := h.vmm.kHeapEnd.toNat_lt
    have hsum : add64 c.addr MemoryPebble.sizeof = c.addr + 60 := add64_eq (b := 60) (by omega)
    rw [obtainPebble_eq hsearch, if_neg (by omega)] at hcall
    cases hcall
    have hchain := hrep.chain
    rw [← hrep.head] at hsearch
    exact searchBuckets_byte hchain hrep.wf haligned hsearch
      fun C hC => hrep.separate.kept hb hC hlow hhigh

/-- The zero fill stays in the new block. -/
theorem HeapInv.kmalloc_byte (hinv : HeapInv h Bs) (hready : RegionReady h n)
    (hcovers : Succeeds h n → requestSize n ≤ pebbleSize (requestSize n))
    (hcall : kmalloc .real h n = some (ret, h')) (hb : Used Bs b) (hlow : b.payload ≤ x)
    (hhigh : x < b.stop) : h'.mem.byte x = h.mem.byte x := by
  obtain ⟨⟨r, h₁⟩, hobtain, hret⟩ := Option.bind_eq_some_iff.mp hcall
  have hkept := hinv.obtainPebble_byte hready hobtain hb hlow hhigh
  obtain ⟨hsuccess, hfailure⟩ := hinv.obtain_spec hready
  split at hret
  case isTrue hne =>
      by_cases hsucceeds : Succeeds h n
      · obtain ⟨_, Bs', c, hobtain', hinv', hgranted, hsize⟩ := hsuccess hsucceeds
        rw [hobtain] at hobtain'
        cases hobtain'
        cases hret
        have hrequest := hcovers hsucceeds
        have hne : b ≠ c := by
          rintro rfl
          exact hgranted.fresh b hb rfl
        have hapart := hinv'.rep.separate.used_apart ((hgranted.used b).mpr (.inr hb))
          ((hgranted.used c).mpr (.inl rfl)) hne
        refine (Mem.fill_byte_outside ?_).trans hkept
        simp only [Block.payload, Block.stop] at hlow hhigh hapart ⊢
        omega
      · obtain ⟨_, _, hobtain', -⟩ := hfailure hsucceeds
        rw [hobtain] at hobtain'
        cases hobtain'
        exact absurd rfl hne
  case isFalse =>
      cases hret
      exact hkept

/-- The block that `kmalloc` hands out is zero. -/
theorem kmalloc_zero (hcall : kmalloc .real h n = some (ret, h')) (hret : ret ≠ 0)
    (hlow : ret ≤ x) (hhigh : x < ret + n) : h'.mem.byte x = 0 := by
  obtain ⟨⟨r, h₁⟩, -, hcall⟩ := Option.bind_eq_some_iff.mp hcall
  have hn := le_requestSize n
  split at hcall
  case isTrue =>
      cases hcall
      exact Mem.fill_byte_inside hlow (by omega)
  case isFalse =>
      cases hcall
      exact absurd rfl hret

/-- `kfree` writes headers only. -/
theorem HeapInv.kfree_byte {c : Block} (hinv : HeapInv h Bs) (hc : Used Bs c)
    (hcall : kfree h c.payload = some h') (hb : Used Bs b) (hlow : b.payload ≤ x)
    (hhigh : x < b.stop) : h'.mem.byte x = h.mem.byte x := by
  have hclear : ∀ B ∈ Bs, B.Clear x := fun B hB => hinv.rep.separate.clear hb hB hlow hhigh
  have hmagic := (hinv.header hc).1
  rw [c.sub64_payload (hinv.payload_lt hc)] at hmagic
  rw [kfree, if_neg c.payload_ne_zero, c.sub64_payload (hinv.payload_lt hc),
    if_neg fun hne => hne hmagic, kfreePebble_eq] at hcall
  obtain ⟨⟨p, m₁⟩, hsection, hcall⟩ := Option.bind_eq_some_iff.mp hcall
  obtain ⟨pre, B, post, before, after, rfl, hblocks⟩ := HeapRep.used_cases hc
  have hB : B ∈ pre ++ B :: post := by simp
  have hwf := hinv.rep.wf B hB
  have hat := (Chain.middle_iff.mp hinv.rep.chain).2.1
  have hfreed := freeSection_byte hat hwf hblocks hsection (hclear B hB)
  obtain ⟨_, _, B', hsection', hstep, -, -, hparent⟩ := freeSection_spec hat hwf hblocks
  rw [hsection] at hsection'
  cases hsection'
  rw [hparent] at hcall
  split at hcall
  case isTrue =>
      have hrep := hinv.rep.step hstep
      rw [← hstep.base_eq] at hcall
      refine (removeBucket_byte hrep hcall fun C hC => ?_).trans hfreed
      obtain hC | hC := List.mem_append.mp hC
      · exact (hclear C (by simp [hC])).bucket
      · obtain rfl | hC := List.mem_cons.mp hC
        · rw [hstep.base_eq]
          exact (hclear B hB).bucket
        · exact (hclear C (by simp [hC])).bucket
  case isFalse =>
      obtain ⟨m₂, hupdate, hret⟩ := Option.bind_eq_some_iff.mp hcall
      cases hret
      exact (bucketUpdateLargest_byte hupdate (hclear B hB).bucket).trans hfreed

/-! ## `krealloc` -/

/-- A byte that `memcpy` does not overwrite is copied, also where the ranges overlap. -/
theorem memcpy_byte_apart {dest src i : Nat} (hi : i < n)
    (hsrc : src + i < dest ∨ dest + n ≤ src + i) :
    (memcpy m dest src n).byte (dest + i) = m.byte (src + i) := by
  induction n with
  | zero => omega
  | succ n ih =>
      by_cases hlast : i = n
      · subst hlast
        have hread : (memcpy m dest src i).byte (src + i) = m.byte (src + i) :=
          memcpy_byte_outside (by omega)
        simp [memcpy, Mem.store, hread]
      · rw [memcpy, Mem.store_byte_outside (by omega), ih (by omega) (by omega)]

/-- Cutting a block leaves the payloads of the others and the front of its own. -/
theorem HeapInv.shrink_byte {w : PayloadWrites} {c : Block} (hinv : HeapInv h Bs)
    (hc : Used Bs c) (hn : n ≠ 0) (hsize : n ≤ c.size) (hfits : SplitFits c n)
    (hcall : krealloc w h c.payload n = some (ret, h')) (hb : Used Bs b) (hlow : b.payload ≤ x)
    (hhigh : x < b.stop) (hfront : b = c → x < c.payload + n) :
    h'.mem.byte x = h.mem.byte x := by
  have hlt := hinv.payload_lt hc
  obtain ⟨hmagic, hbytes⟩ := hinv.header hc
  have hsep := hinv.rep.separate
  have hclear : ∀ B ∈ Bs, B.Clear x := fun B hB => hsep.clear hb hB hlow hhigh
  obtain ⟨pre, B, post, before, after, rfl, hblocks⟩ := HeapRep.used_cases hc
  have hB : B ∈ pre ++ B :: post := by simp
  have hcB : c ∈ B.blocks := by simp [hblocks]
  have hBx := hclear B hB
  have hwf := hinv.rep.wf B hB
  have hbounds := hwf.block_bounds hcB
  have hword := hwf.fits
  have hat := (Chain.middle_iff.mp hinv.rep.chain).2.1
  have hlocked := hat.body.put_spinlock hwf 1
  obtain ⟨prev, next, hpebble⟩ := hlocked.pebble hcB
  have hpart : x < (splitHead c n).stop ∨ c.stop ≤ x := by
    by_cases hsame : b = c
    · have hle := le_splitHead_size hsize (by omega)
      have hx := hfront hsame
      left
      rw [Block.stop, splitHead_addr]
      simp only [Block.payload] at hx
      omega
    · have hapart := hsep.used_apart hb hc hsame
      have hle : c.addr ≤ (splitHead c n).stop := by
        rw [Block.stop, splitHead_addr]
        omega
      simp only [Block.payload] at hlow
      omega
  have hsplit := splitPebble_byte hlocked hwf hblocks hfits hBx hpart
  rw [pebbleBytes, c.sub64_payload hlt] at hbytes
  rw [c.sub64_payload hlt] at hmagic
  obtain ⟨hbody, -⟩ := splitPebble_body hlocked hwf hblocks hfits
  have hfirst : splitHead c n ∈ before ++ splitHead c n :: splitTail c n ++ after :=
    List.mem_append_left _ (List.mem_append_right _ List.mem_cons_self)
  obtain ⟨_, _, hhead⟩ := hbody.pebble hfirst
  have hparent := hhead.parent
  rw [splitHead_addr, BucketModel.withBlocks_base] at hparent
  obtain ⟨_, _, hold⟩ := hat.body.pebble hcB
  have hresult := FroggyOs.krealloc_of_le w hn c.payload_ne_zero (c.sub64_payload hlt) hmagic
    (hsize.trans_eq hbytes.symm) hold.parent hat.spinlock (shrinkPebble_eq hwf hcB) hparent
  rw [hcall] at hresult
  obtain ⟨rfl, rfl⟩ := Prod.mk.inj (Option.some.inj hresult)
  rw [hBx.put_bucket (by decide), hsplit, hBx.put_bucket (by decide)]

/-- Growing a block leaves the payloads in use alone, and the new block starts with the payload
of the old one. -/
theorem HeapInv.grow_byte {c : Block} (hinv : HeapInv h Bs) (hc : Used Bs c) (hsize : c.size < n)
    (hready : RegionReady h n) (hsucceeds : Succeeds h n)
    (hcovers : requestSize n ≤ pebbleSize (requestSize n))
    (hcall : krealloc .real h c.payload n = some (ret, h')) :
    (∀ b, Used Bs b → b.payload ≠ ret ∧ ∀ x, b.payload ≤ x → x < b.stop →
      h'.mem.byte x = h.mem.byte x) ∧
    ret ≠ 0 ∧ ∀ i < c.size, h'.mem.byte (ret + i) = h.mem.byte (c.payload + i) := by
  obtain ⟨hmagic, hbytes⟩ := hinv.header hc
  have hn := le_requestSize n
  have hinside := staysInside_real hcovers
  obtain ⟨h₁, Bs₁, d, hkmalloc, hinv₁, hgranted, hlarge⟩ :=
    (hinv.kmalloc_spec hready fun _ => hinside).1 hsucceeds
  have hd : Used Bs₁ d := (hgranted.used d).mpr (.inl rfl)
  have hused : ∀ b, Used Bs b → Used Bs₁ b := fun b hb => (hgranted.used b).mpr (.inr hb)
  have hcopy := (hinside d hlarge h₁.mem).2 c.payload
  have hinv₂ := hinv₁.writePayload hd hcopy
  rw [krealloc_of_lt c.payload_ne_zero hmagic (by omega) hkmalloc, if_pos d.payload_ne_zero]
    at hcall
  obtain ⟨h₂, hkfree, hret⟩ := Option.map_eq_some_iff.mp hcall
  cases hret
  -- the payloads in use before the call lie apart from the new block
  have hapart : ∀ b, Used Bs b → b.stop ≤ d.addr ∨ d.stop ≤ b.addr := by
    intro b hb
    have hne : b ≠ d := by
      rintro rfl
      exact hgranted.fresh b hb rfl
    exact hinv₁.rep.separate.used_apart (hused b hb) hd hne
  have hfreed : ∀ b, Used Bs₁ b → ∀ x, b.payload ≤ x → x < b.stop →
      h'.mem.byte x = (memcpy h₁.mem d.payload c.payload n).byte x :=
    fun b hb x hlow hhigh => hinv₂.kfree_byte (hused c hc) hkfree hb hlow hhigh
  have hkept : ∀ b, Used Bs b → ∀ x, b.payload ≤ x → x < b.stop →
      h₁.mem.byte x = h.mem.byte x :=
    fun b hb x hlow hhigh => hinv.kmalloc_byte hready (fun _ => hcovers) hkmalloc hb hlow hhigh
  refine ⟨fun b hb => ⟨hgranted.fresh b hb, fun x hlow hhigh => ?_⟩, d.payload_ne_zero,
    fun i hi => ?_⟩
  · have hbd := hapart b hb
    rw [hfreed b (hused b hb) x hlow hhigh, memcpy_byte_outside, hkept b hb x hlow hhigh]
    simp only [Block.payload, Block.stop] at hlow hhigh hbd ⊢
    omega
  · have hcd := hapart c hc
    have hstop : d.stop = d.payload + d.size := rfl
    have hcstop : c.stop = c.payload + c.size := rfl
    simp only [Block.stop] at hcd
    rw [hfreed d hd _ (by omega) (by omega), memcpy_byte_apart (by omega),
      hkept c hc _ (by omega) (by omega)]
    simp only [Block.payload]
    omega

end Calls

end FroggyOs
