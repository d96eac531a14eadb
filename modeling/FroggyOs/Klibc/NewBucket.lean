import FroggyOs.Klibc.BucketRegions

/-!
# A bucket created for one request

When no bucket of the list serves a request, `kmalloc` creates one. The pebble to be
placed is the request rounded down to whole pages after 63 has been added, the bucket
is the request rounded up to whole pages, and its free pebble is 124 bytes smaller.
A request that ends within 63 bytes of a page boundary, or on it, gets as many pages as
the bucket has: nothing can be placed, and the bucket stays in the list unused.

Only the 124 bytes of the two headers matter here, so the rest of the region may wrap
around the address space.
-/

namespace FroggyOs

open ByteMemory Word64 LinkedChain

attribute [local irreducible] bucketUpdateLargest popFrameList mapToPage

/-! ## The headers of the new bucket -/

/-- The list of the bucket's pebbles is one free pebble right behind the header. -/
structure SinglePebble (m : Mem) (bucket size : Nat) : Prop where
  first : m.get bucket MemoryBucket.first = bucket + 64
  pebble : PebbleAt m bucket ⟨bucket + 64, size, false⟩ 0 0

namespace SinglePebble

variable {m m' : Mem} {bucket size need : Nat}

/-- The links and the lock of the bucket do not matter. -/
theorem frame (h : SinglePebble m bucket size)
    (hfirst : SameBytes m m' (bucket + 40) 8) (hpebble : SameBytes m m' (bucket + 64) 60) :
    SinglePebble m' bucket size where
  first := (Mem.load_congr fun x hx => hfirst x hx.1 hx.2).trans h.first
  pebble := h.pebble.frame hpebble

theorem put_spinlock (h : SinglePebble m bucket size) (v : Nat) :
    SinglePebble (m.put bucket MemoryBucket.spinlock v) bucket size := by
  apply h.frame
  all_goals
    intro x hlow hhigh
    apply Mem.put_byte_outside
    simp only
    omega

theorem chain (h : SinglePebble m bucket size) :
    PebbleChain m bucket 0 [⟨bucket + 64, size, false⟩] 0 :=
  ⟨h.pebble, trivial⟩

theorem tiles : Tiles (bucket + 64) [⟨bucket + 64, size, false⟩] (bucket + 64 + 60 + size) :=
  ⟨rfl, rfl⟩

/-- The search takes the pebble if it is large enough, by either method. -/
theorem searchPebbles_eq (h : SinglePebble m bucket size) (hsize : size < 2 ^ 64 - 1) :
    searchPebbles m bucket need = some (if need ≤ size then bucket + 64 else 0) := by
  have hstart : bucket + 64 ≠ 0 := by omega
  have hfuel : [(⟨bucket + 64, size, false⟩ : Block)].length < walkFuel := by
    rw [List.length_singleton]
    decide
  have hhead : m.get bucket MemoryBucket.first =
      headAddr Block.addr [⟨bucket + 64, size, false⟩] 0 := h.first
  rw [searchPebbles, hhead]
  split
  · obtain ⟨a, ha, hcases⟩ :=
      bestFit_eq 0 (2 ^ 64 - 1) hfuel (PebbleChain.walk h.chain) tiles hstart
    rw [ha]
    simp only [List.mem_singleton, exists_eq_left, forall_eq, fits, Bool.not_false,
      Bool.true_and, decide_eq_true_eq] at hcases
    obtain ⟨hfits, rfl⟩ | ⟨rfl, hnone⟩ := hcases
    · rw [if_pos hfits]
    · rw [if_neg fun hfits => absurd (hnone hfits) (Nat.not_le_of_lt hsize)]
  · rw [firstFit_eq (PebbleChain.walk h.chain) tiles hstart hfuel, List.find?_cons]
    by_cases hfits : need ≤ size <;> simp [fits, hfits]

theorem placePebble_of_lt (h : SinglePebble m bucket size) (hsize : size < 2 ^ 64 - 1)
    (hneed : size < need) (flags : Nat) : placePebble m bucket need flags = some (0, m) := by
  rw [placePebble, h.searchPebbles_eq hsize, if_neg (Nat.not_le_of_lt hneed)]
  rfl

theorem placePebble_of_le (h : SinglePebble m bucket size) (hsize : size < 2 ^ 64 - 1)
    (hneed : need ≤ size) (flags : Nat) :
    ∃ m', placePebble m bucket need flags = some (bucket + 64, m') := by
  rw [placePebble, h.searchPebbles_eq hsize, if_pos hneed]
  exact ⟨_, rfl⟩

theorem bucketUpdateLargest_isSome (h : SinglePebble m bucket size) :
    ∃ m', bucketUpdateLargest m bucket = some m' := by
  have hstart : bucket + 64 ≠ 0 := by omega
  have hfuel : [(⟨bucket + 64, size, false⟩ : Block)].length < walkFuel := by
    rw [List.length_singleton]
    decide
  have hhead : m.get bucket MemoryBucket.first =
      headAddr Block.addr [⟨bucket + 64, size, false⟩] 0 := h.first
  unfold bucketUpdateLargest
  rw [hhead, largestFrom_eq (PebbleChain.walk h.chain) tiles hstart hfuel]
  exact ⟨_, rfl⟩

end SinglePebble

section Insert

variable {m : Mem} {start region size bytes flags : Nat} {Bs : List BucketModel}

theorem initBucket_single (hfits : region + 124 ≤ 2 ^ 64) (hlow : 124 ≤ bytes)
    (hhigh : bytes < 2 ^ 64) :
    SinglePebble (initBucket m region bytes flags) region (bytes - 124) ∧
      (initBucket m region bytes flags).get region MemoryBucket.spinlock = 0 := by
  have hat : BucketAt 0 (initBucket m region bytes flags) (freshBucket region bytes) 0 0 :=
    initBucket_at hfits hlow hhigh
  exact ⟨⟨hat.body.first, hat.body.pebbles.1⟩, hat.spinlock⟩

/-- The listed buckets do not see the new headers. -/
theorem HeapRep.initBucket (h : HeapRep m start Bs) (hfits : region + 124 ≤ 2 ^ 64)
    (hbelow : ∀ B ∈ Bs, B.stop ≤ region) :
    HeapRep (FroggyOs.initBucket m region bytes flags) start Bs := by
  apply h.frame
  intro B hB x _ hx
  have hstop := hbelow B hB
  exact initBucket_byte hfits (.inl (by omega))

/-- `insert_bucket` writes links and the lock of the first bucket only. -/
theorem insertBucket_single (h : HeapRep m start Bs) (hregion : region ≠ 0)
    (hbelow : ∀ B ∈ Bs, B.stop ≤ region) (hsingle : SinglePebble m region size)
    (hlock : m.get region MemoryBucket.spinlock = 0) :
    ∃ m', insertBucket m region start = some m' ∧ SinglePebble m' region size ∧
      m'.get region MemoryBucket.spinlock = 0 := by
  obtain ⟨A, post, rfl⟩ := List.exists_cons_of_ne_nil h.nonempty
  obtain ⟨hA, hpost⟩ := h.chain
  have hAwf := h.wf A List.mem_cons_self
  have hAlt := hAwf.base_lt_stop
  have hAstop := hbelow A List.mem_cons_self
  have hstart : A.base = start := h.head
  have hnextlt : headAddr BucketModel.base post 0 < 2 ^ 64 := by
    rw [← hA.next]
    exact Mem.get_lt m _ _
  -- the four writes before the back link of the second bucket
  have hnext : (m.put A.base MemoryBucket.spinlock 1).get A.base MemoryBucket.next =
      headAddr BucketModel.base post 0 :=
    (Mem.get_put_disjoint (by simp)).trans hA.next
  generalize hm₁ : (((m.put A.base MemoryBucket.spinlock 1).put region MemoryBucket.next
    (headAddr BucketModel.base post 0)).put A.base MemoryBucket.next region).put region
      MemoryBucket.prev A.base = m₁
  have hlinked : m₁.get region MemoryBucket.next = headAddr BucketModel.base post 0 := by
    rw [← hm₁, Mem.get_put_disjoint (by simp), Mem.get_put_disjoint (by simp; omega)]
    exact Mem.get_put_same hnextlt
  have hcall : insertBucket m region start =
      some ((relinkBucket m₁ (headAddr BucketModel.base post 0) region).put A.base
        MemoryBucket.spinlock 0) := by
    rw [insertBucket, if_pos ⟨hregion, hstart ▸ hAwf.base_ne⟩, ← hstart,
      acquireSpinlock_eq hA.spinlock]
    simp only [Option.bind_eq_bind, Option.bind_some, updateNode, hnext, hm₁, hlinked,
      releaseSpinlock_eq]
    rfl
  have hbytes₁ : ∀ x, region ≤ x → x < region + 48 ∨ region + 64 ≤ x →
      m₁.byte x = m.byte x := by
    intro x hlow hx
    rw [← hm₁]
    iterate 4 rw [Mem.put_byte_outside (by simp; omega)]
  have hrelink : ∀ x, region ≤ x →
      (relinkBucket m₁ (headAddr BucketModel.base post 0) region).byte x = m₁.byte x := by
    intro x hlow
    cases post with
    | nil => rfl
    | cons D rest =>
        have hD := hbelow D (by simp)
        have hDlt := (h.wf D (by simp)).base_lt_stop
        rw [headAddr_cons, relinkBucket, if_pos (h.wf D (by simp)).base_ne]
        apply Mem.put_byte_outside
        simp only
        omega
  have hbytes : ∀ x, region ≤ x → x < region + 48 ∨ region + 64 ≤ x →
      ((relinkBucket m₁ (headAddr BucketModel.base post 0) region).put A.base
        MemoryBucket.spinlock 0).byte x = m.byte x := by
    intro x hlow hx
    rw [Mem.put_byte_outside (by simp; omega), hrelink x hlow, hbytes₁ x hlow hx]
  refine ⟨_, hcall, hsingle.frame ?_ ?_, ?_⟩
  · exact fun x hl hh => hbytes x (by omega) (by omega)
  · exact fun x hl hh => hbytes x (by omega) (by omega)
  · have hheader : SameBytes m _ region 48 := fun x hl hh => hbytes x hl (.inl hh)
    exact (hheader.get (by decide)).trans hlock

end Insert

/-! ## `kmalloc` -/

/-- Some bucket of the list serves the request. -/
def ServedByList (Bs : List BucketModel) (need : Nat) : Prop :=
  ∃ B ∈ Bs, need ≤ B.largest ∧ ∃ b ∈ B.blocks, fits need b = true

/-- The request leaves 64 bytes or more of its last page free, or is no larger than a
bucket of the minimal size. -/
def FitsNewBucket (size : Nat) : Prop :=
  size ≤ 65660 ∨ 0 < size % 4096 ∧ size % 4096 < 4033

instance (size : Nat) : Decidable (FitsNewBucket size) := inferInstanceAs (Decidable (_ ∨ _))

/-- A new bucket's headers lie in the address space, behind the buckets of the list. -/
def HeadersFit (h : Heap) (Bs : List BucketModel) : Prop :=
  h.vmm.kHeapEnd.toNat + 124 < 2 ^ 64 ∧ ∀ B ∈ Bs, B.stop ≤ h.vmm.kHeapEnd.toNat

/-- If `kmalloc` returns `NULL` then `create_bucket` has, and the list of buckets is the
one before the call. -/
def FailsOnlyWithCreate (h : Heap) (n : Nat) : Prop :=
  ∀ h', kmalloc .real h n = some (0, h') →
    (∃ m h'', searchBuckets (pebbleSize (requestSize n)) walkFuel h.kHeapStart h.mem =
        some (0, m) ∧
      createBucket { h with mem := m } (requestSize n) 0 = some (0, h'')) ∧
    ∀ bucket, ListedBucket h' bucket ↔ ListedBucket h bucket

theorem pebbleSize_eq {size : Nat} (h : size + 63 < 2 ^ 64) :
    pebbleSize size = 4096 * ((size + 63) / 4096) := by
  have hsum : add64 size (pebbleMinAlign - 1) = size + 63 := add64_eq (a := size) (b := 63) h
  rw [pebbleSize, hsum]
  exact and_not64_low (k := 12) h (by decide)

/-- Exactly the requests outside the window fit into the free pebble of a new bucket. -/
theorem fitsNewBucket_iff {size : Nat} (h : size ≤ 2 ^ 40) :
    FitsNewBucket size ↔ pebbleSize size ≤ bucketBytes size - 124 := by
  rw [pebbleSize_eq (by omega), bucketBytes_eq (by omega), FitsNewBucket]
  obtain hsmall | hlarge := Nat.le_total size 65660
  · rw [Nat.max_eq_right hsmall]
    omega
  · rw [Nat.max_eq_left hlarge]
    omega

theorem fitsNewBucket_requestSize (size : Nat) :
    FitsNewBucket (requestSize size) ↔ FitsNewBucket size := by
  change FitsNewBucket (if size < 64 then 64 else size) ↔ _
  split
  · simp only [FitsNewBucket]
    omega
  · rfl

theorem requestSize_le {n : Nat} (hn : n ≤ 2 ^ 40) : requestSize n ≤ 2 ^ 40 := by
  change (if n < 64 then 64 else n) ≤ 2 ^ 40
  split <;> omega

/-- The pebble size is a whole number of pages, also when the sum wraps around. -/
theorem pebbleSize_aligned (size : Nat) : pebbleSize size % 64 = 0 := by
  have hmask : add64 size (pebbleMinAlign - 1) &&& not64 (pageSize - 1) =
      4096 * (add64 size (pebbleMinAlign - 1) / 4096) :=
    and_not64_low (k := 12) (add64_lt _ _) (by decide)
  rw [pebbleSize, hmask]
  omega

theorem HeadersFit.ne_zero {h : Heap} {Bs : List BucketModel} (hfit : HeadersFit h Bs)
    (hrep : HeapRep h.mem h.kHeapStart Bs) : h.vmm.kHeapEnd.toNat ≠ 0 := by
  obtain ⟨A, post, rfl⟩ := List.exists_cons_of_ne_nil hrep.nonempty
  have hAlt := (hrep.wf A List.mem_cons_self).base_lt_stop
  have hAstop := hfit.2 A List.mem_cons_self
  omega

/-- `kmalloc` returns `NULL` exactly when no pebble is obtained. -/
theorem kmalloc_null_iff {w : PayloadWrites} {h h' : Heap} {n : Nat} :
    kmalloc w h n = some (0, h') ↔ obtainPebble h (requestSize n) = some (0, h') := by
  rw [kmalloc]
  cases obtainPebble h (requestSize n) with
  | none => simp
  | some result =>
      obtain ⟨r, hp⟩ := result
      by_cases hr : r = 0
      · simp [hr]
      · simp [hr]

section Alloc

variable {h : Heap} {Bs : List BucketModel} {size need : Nat}

/-- What happens in the bucket created for the request: nothing is placed if the request
is larger than the bucket's free pebble, and the pebble is handed out otherwise. -/
theorem allocInNewBucket_cases (hrep : HeapRep h.mem h.kHeapStart Bs) (hfit : HeadersFit h Bs)
    (hends : PageLoopEnds h.vmm.kHeapEnd.toNat (bucketBytes size / 4096))
    (hlow : 124 ≤ bucketBytes size) :
    (bucketBytes size - 124 < need → ∃ h', allocInNewBucket h size need = some (0, h')) ∧
      (need ≤ bucketBytes size - 124 → ∀ h', allocInNewBucket h size need ≠ some (0, h')) := by
  have hne := hfit.ne_zero hrep
  obtain ⟨hroom, hbelow⟩ := hfit
  have hbytes := bucketBytes_lt size
  obtain ⟨vmm, hcreate, -⟩ := @createBucket_eq h size 0 hne hends
  obtain ⟨hsingle₀, hlock₀⟩ := @initBucket_single h.mem h.vmm.kHeapEnd.toNat (bucketBytes size) 0
    (by omega) hlow hbytes
  obtain ⟨m₁, hinsert, hsingle₁, hlock₁⟩ := insertBucket_single
    (hrep.initBucket (by omega) hbelow) hne hbelow hsingle₀ hlock₀
  have hsingle₂ := hsingle₁.put_spinlock 1
  have hsize : bucketBytes size - 124 < 2 ^ 64 - 1 := by omega
  refine ⟨fun hneed => ?_, fun hneed h' => ?_⟩
  · obtain ⟨m₃, hupdate⟩ := hsingle₂.bucketUpdateLargest_isSome
    rw [allocInNewBucket, hcreate]
    simp only [Option.bind_eq_bind, Option.bind_some, hne, if_false, hinsert,
      acquireSpinlock_eq hlock₁, hsingle₂.placePebble_of_lt hsize hneed, hupdate]
    exact ⟨_, rfl⟩
  · obtain ⟨m₃, hplace⟩ := hsingle₂.placePebble_of_le hsize hneed (0 ||| pebbleFlagInUse)
    have hpayload : add64 (h.vmm.kHeapEnd.toNat + 64) MemoryPebble.sizeof =
        h.vmm.kHeapEnd.toNat + 124 :=
      add64_eq (a := h.vmm.kHeapEnd.toNat + 64) (b := 60) (by omega)
    rw [allocInNewBucket, hcreate]
    simp only [Option.bind_eq_bind, Option.bind_some, hne, if_false, hinsert,
      acquireSpinlock_eq hlock₁, hplace, hpayload]
    cases bucketUpdateLargest m₃ h.vmm.kHeapEnd.toNat with
    | none => simp
    | some m₄ => simp

/-- With the heap end at 0 `create_bucket` returns `NULL`. -/
theorem createBucket_of_zero (hzero : h.vmm.kHeapEnd.toNat = 0) (m : Mem) :
    ∃ vmm, createBucket { h with mem := m } size 0 = some (0, { h with mem := m, vmm }) := by
  refine ⟨(Vmm.growHeap h.vmm (bucketBytes size / pageSize)).2, ?_⟩
  simp only [createBucket, Vmm.mmap, Vmm.growHeap, hzero, if_true, Option.bind_eq_bind,
    Option.bind_some]

theorem obtainPebble_eq {m : Mem} {r : Nat}
    (hsearch : searchBuckets (pebbleSize size) walkFuel h.kHeapStart h.mem = some (r, m)) :
    obtainPebble h size = if r = 0 then allocInNewBucket { h with mem := m } size (pebbleSize size)
      else some (r, { h with mem := m }) := by
  rw [obtainPebble, hsearch]
  rfl

/-- Serving a request keeps the list of buckets. -/
theorem listedBucket_step {h' : Heap} {pre post : List BucketModel} {B B' : BucketModel}
    (hrep : HeapRep h.mem h.kHeapStart (pre ++ B :: post)) (hstep : BucketStep h.mem B h'.mem B')
    (hstart : h'.kHeapStart = h.kHeapStart) (bucket : Nat) :
    ListedBucket h' bucket ↔ ListedBucket h bucket := by
  have hrep' := hrep.step hstep
  rw [← hstart] at hrep'
  rw [listedBucket_iff hrep', listedBucket_iff hrep]
  simp only [List.mem_append, List.mem_cons, or_and_right, exists_or, exists_eq_left,
    hstep.base_eq]

/-- The search serves the request in some bucket, or there is none that can. -/
theorem searchBuckets_cases (hrep : HeapRep h.mem h.kHeapStart Bs) (haligned : need % 64 = 0) :
    (searchBuckets need walkFuel h.kHeapStart h.mem = some (0, h.mem) ∧ ¬ ServedByList Bs need) ∨
      ServedByList Bs need ∧ ∃ pre B post b m' B', Bs = pre ++ B :: post ∧ b ∈ B.blocks ∧
        searchBuckets need walkFuel h.kHeapStart h.mem =
          some (add64 b.addr MemoryPebble.sizeof, m') ∧ BucketStep h.mem B m' B' := by
  have hspec := searchBuckets_spec hrep.chain hrep.wf haligned hrep.length_lt
  rw [hrep.head] at hspec
  rcases hspec with ⟨hcall, -, hmissed⟩ |
    ⟨pre, B, post, before, b, after, m', B', rfl, hlarge, hblocks, hfits, -, hcall, hstep, -, -⟩
  · refine .inl ⟨hcall, ?_⟩
    rintro ⟨B, hB, hlarge, b, hb, hfits⟩
    rw [hmissed B hB hlarge b hb] at hfits
    cases hfits
  · have hb : b ∈ B.blocks := by simp [hblocks]
    exact .inr ⟨⟨B, by simp, hlarge, b, hb, hfits⟩, pre, B, post, b, m', B', rfl, hb, hcall, hstep⟩

/-- Where `create_bucket` fails, only it can be the reason. -/
theorem failsOnlyWithCreate_of_zero {n : Nat} (hrep : HeapRep h.mem h.kHeapStart Bs)
    (hzero : h.vmm.kHeapEnd.toNat = 0) (haligned : pebbleSize (requestSize n) % 64 = 0) :
    FailsOnlyWithCreate h n := by
  intro h' hnull
  rw [kmalloc_null_iff] at hnull
  -- either way the search leaves a heap with the same buckets
  obtain ⟨r, m, hsearch, hlisted⟩ : ∃ r m, searchBuckets (pebbleSize (requestSize n)) walkFuel
      h.kHeapStart h.mem = some (r, m) ∧ ∀ vmm bucket,
        ListedBucket { h with mem := m, vmm } bucket ↔ ListedBucket h bucket := by
    rcases searchBuckets_cases hrep haligned with ⟨hcall, -⟩ |
      ⟨-, pre, B, post, b, m', B', rfl, -, hcall, hstep⟩
    · exact ⟨_, _, hcall, fun _ _ => Iff.rfl⟩
    · exact ⟨_, _, hcall, fun vmm => listedBucket_step hrep hstep rfl⟩
  obtain ⟨vmm, hcreate⟩ := @createBucket_of_zero h (requestSize n) hzero m
  rw [obtainPebble_eq hsearch] at hnull
  by_cases hr : r = 0
  · subst hr
    rw [if_pos rfl, allocInNewBucket, hcreate] at hnull
    simp only [Option.bind_eq_bind, Option.bind_some, if_true, Option.some.injEq, Prod.mk.injEq,
      true_and] at hnull
    rw [← hnull]
    exact ⟨⟨m, _, hsearch, hcreate⟩, hlisted vmm⟩
  · rw [if_neg hr] at hnull
    cases hnull
    exact absurd rfl hr

/-- A request the list serves does not fail. -/
theorem obtainPebble_ne_null_of_served {h' : Heap} (hrep : HeapRep h.mem h.kHeapStart Bs)
    (hfit : HeadersFit h Bs) (haligned : pebbleSize size % 64 = 0)
    (hserved : ServedByList Bs (pebbleSize size)) : obtainPebble h size ≠ some (0, h') := by
  rcases searchBuckets_cases hrep haligned with ⟨-, hmissed⟩ |
    ⟨-, pre, B, post, b, m', B', rfl, hb, hcall, -⟩
  · exact absurd hserved hmissed
  · have hbounds := (hrep.wf B (by simp)).block_bounds hb
    have hstop := hfit.2 B (by simp)
    have hword := h.vmm.kHeapEnd.toNat_lt
    have hpayload : add64 b.addr MemoryPebble.sizeof = b.addr + 60 :=
      add64_eq (a := b.addr) (b := 60) (by omega)
    rw [obtainPebble_eq hcall, hpayload, if_neg (by omega)]
    intro hnull
    cases hnull

/-- A request the list does not serve is left to the new bucket. -/
theorem obtainPebble_of_missed (hrep : HeapRep h.mem h.kHeapStart Bs)
    (haligned : pebbleSize size % 64 = 0) (hmissed : ¬ ServedByList Bs (pebbleSize size)) :
    searchBuckets (pebbleSize size) walkFuel h.kHeapStart h.mem = some (0, h.mem) ∧
      obtainPebble h size = allocInNewBucket h size (pebbleSize size) := by
  obtain ⟨hcall, -⟩ | ⟨hserved, -⟩ := searchBuckets_cases hrep haligned
  · exact ⟨hcall, obtainPebble_eq hcall⟩
  · exact absurd hserved hmissed

theorem allocInNewBucket_of_endless (hne : h.vmm.kHeapEnd.toNat ≠ 0)
    (hends : ¬ PageLoopEnds h.vmm.kHeapEnd.toNat (bucketBytes size / 4096)) :
    allocInNewBucket h size need = none := by
  have hbytes := bucketBytes_lt size
  have hmmap : h.vmm.mmap (bucketBytes size / pageSize) = none :=
    (mmap_eq (by rw [pageSize]; omega) hne).2 hends
  rw [allocInNewBucket, createBucket, hmmap]
  rfl

/-- For a request left to a new bucket, it comes down to the room in there. -/
theorem failsOnlyWithCreate_iff_fits {n : Nat} (hrep : HeapRep h.mem h.kHeapStart Bs)
    (hfit : HeadersFit h Bs) (hn : n ≤ 2 ^ 40)
    (hmissed : ¬ ServedByList Bs (pebbleSize (requestSize n)))
    (hends : PageLoopEnds h.vmm.kHeapEnd.toNat (bucketBytes (requestSize n) / 4096)) :
    FailsOnlyWithCreate h n ↔ FitsNewBucket n := by
  have hsize := requestSize_le hn
  have hlow : 124 ≤ bucketBytes (requestSize n) := by
    rw [bucketBytes_eq (by omega)]
    omega
  have hzero := hfit.ne_zero hrep
  obtain ⟨hsearch, hobtain⟩ := obtainPebble_of_missed hrep (pebbleSize_aligned _) hmissed
  obtain ⟨hfull, hplaced⟩ := @allocInNewBucket_cases h Bs (requestSize n)
    (pebbleSize (requestSize n)) hrep hfit hends hlow
  rw [← fitsNewBucket_requestSize, fitsNewBucket_iff hsize]
  constructor
  · intro hfails
    by_contra hlarge
    obtain ⟨h', hnull⟩ := hfull (by omega)
    obtain ⟨⟨m, h'', hcall, hcreate⟩, -⟩ :=
      hfails h' (kmalloc_null_iff.mpr (hobtain.trans hnull))
    rw [hsearch] at hcall
    cases hcall
    -- but `create_bucket` returns the old heap end
    obtain ⟨vmm, hregion, -⟩ := @createBucket_eq h (requestSize n) 0 hzero hends
    rw [hregion] at hcreate
    simp [hzero] at hcreate
  · intro hroom h' hnull
    exact absurd (hobtain.symm.trans (kmalloc_null_iff.mp hnull)) (hplaced hroom h')

/-- `kmalloc` fails only when `create_bucket` does if and only if `create_bucket` fails or
does not return, the list serves the request, or the request fits into a new bucket. -/
theorem kmalloc_failsOnlyWithCreate_iff {n : Nat} (hrep : HeapRep h.mem h.kHeapStart Bs)
    (hend : h.vmm.kHeapEnd.toNat = 0 ∨ HeadersFit h Bs) (hn : n ≤ 2 ^ 40) :
    FailsOnlyWithCreate h n ↔
      h.vmm.kHeapEnd.toNat = 0 ∨
      ¬ PageLoopEnds h.vmm.kHeapEnd.toNat (bucketBytes (requestSize n) / 4096) ∨
      ServedByList Bs (pebbleSize (requestSize n)) ∨ FitsNewBucket n := by
  have haligned := pebbleSize_aligned (requestSize n)
  by_cases hzero : h.vmm.kHeapEnd.toNat = 0
  · exact iff_of_true (failsOnlyWithCreate_of_zero hrep hzero haligned) (.inl hzero)
  have hfit := hend.resolve_left hzero
  by_cases hserved : ServedByList Bs (pebbleSize (requestSize n))
  · refine iff_of_true (fun h' hnull => ?_) (.inr (.inr (.inl hserved)))
    exact absurd (kmalloc_null_iff.mp hnull)
      (obtainPebble_ne_null_of_served hrep hfit haligned hserved)
  by_cases hends : PageLoopEnds h.vmm.kHeapEnd.toNat (bucketBytes (requestSize n) / 4096)
  · rw [failsOnlyWithCreate_iff_fits hrep hfit hn hserved hends]
    simp only [hzero, hserved, hends, not_true_eq_false, false_or]
  · refine iff_of_true (fun h' hnull => ?_) (.inr (.inl hends))
    have hobtain := (obtainPebble_of_missed hrep haligned hserved).2
    rw [kmalloc_null_iff, hobtain, allocInNewBucket_of_endless hzero hends] at hnull
    cases hnull

end Alloc

section Evaluation

theorem bootHeap_headersFit : HeadersFit bootHeap [freshBucket 0x10000 69632] := by
  rw [HeadersFit, bootHeap_kHeapEnd]
  exact ⟨by decide, by simp [freshBucket, BucketModel.stop]⟩

theorem bootHeap_failsOnlyWithCreate : FailsOnlyWithCreate bootHeap 4096 :=
  (kmalloc_failsOnlyWithCreate_iff bootHeap_rep (.inr bootHeap_headersFit) (by decide)).mpr
    (.inr (.inr (.inr (by decide))))

/-- A request of 17 pages gets a bucket of 17 pages, in which it does not fit. -/
theorem not_failsOnlyWithCreate_bootHeap : ¬ FailsOnlyWithCreate bootHeap 69632 := by
  have hneed : pebbleSize (requestSize 69632) = 69632 :=
    @pebbleSize_eq 69632 (by decide)
  have hbytes : bucketBytes (requestSize 69632) = 69632 :=
    @bucketBytes_eq 69632 (by decide)
  have hmissed : ¬ ServedByList [freshBucket 0x10000 69632] (pebbleSize (requestSize 69632)) := by
    rw [hneed]
    rintro ⟨B, hB, hlarge, -⟩
    rw [List.mem_singleton.mp hB] at hlarge
    exact absurd hlarge (by decide)
  have hends : PageLoopEnds bootHeap.vmm.kHeapEnd.toNat
      (bucketBytes (requestSize 69632) / 4096) := by
    rw [bootHeap_kHeapEnd, hbytes]
    decide
  rw [failsOnlyWithCreate_iff_fits bootHeap_rep bootHeap_headersFit (by decide) hmissed hends]
  decide

end Evaluation

end FroggyOs
