import FroggyOs.Klibc.Search

/-!
# The regions of buckets

`create_bucket` rounds its size up, asks `mmap` for as many pages and subtracts the two
headers, and `grow_heap` adds the bytes to the heap end. None of the three sums is
checked. The bucket is sound exactly when the first and the last of them stay in range,
and buckets created so never overlap.
-/

namespace FroggyOs

open ByteMemory Word64

attribute [local irreducible] popFrameList mapToPage

/-! ## The heap end -/

section HeapEnd

variable {h h' : Heap} {s s' : Vmm} {size flags region n : Nat}

/-- `munmap` leaves the heap end where it is. -/
theorem munmap_kHeapEnd {ptr : Nat} (h : s.munmap ptr n = some s') :
    s'.kHeapEnd = s.kHeapEnd := by
  refine Loop64.upto_induct (P := fun v => v.kHeapEnd = s.kHeapEnd) (fun v addr hv => ?_) h rfl
  rw [Vmm.freePage]
  split <;> exact hv

end HeapEnd

/-! ## One call -/

/-- A bucket that `create_bucket` returns is large enough, its pebble and the two headers
fill it, its region does not wrap around and `K_HEAP_END` is the region's end. -/
def CreateSound (h : Heap) (size flags : Nat) : Prop :=
  ∀ bucket h', createBucket h size flags = some (bucket, h') → bucket ≠ 0 →
    size ≤ 4096 * h'.mem.get bucket MemoryBucket.size ∧
    4096 * h'.mem.get bucket MemoryBucket.size =
      64 + 60 + h'.mem.get (h'.mem.get bucket MemoryBucket.first) MemoryPebble.size ∧
    bucket + 4096 * h'.mem.get bucket MemoryBucket.size ≤ 2 ^ 64 ∧
    h'.vmm.kHeapEnd.toNat = bucket + 4096 * h'.mem.get bucket MemoryBucket.size

/-- Rounding the size up does not wrap around, and the region's end is an address. -/
def RegionInRange (h : Heap) (size : Nat) : Prop :=
  size + 4095 < 2 ^ 64 ∧ h.vmm.kHeapEnd.toNat + bucketBytes size < 2 ^ 64

instance (h : Heap) (size : Nat) : Decidable (RegionInRange h size) :=
  inferInstanceAs (Decidable (_ ∧ _))

section Create

variable {h h' : Heap} {size flags region bytes : Nat} {m : Mem}

/-- A size so large that rounding it up wraps around. -/
theorem bucketBytes_of_wrap (hsize : size < 2 ^ 64) (hwrap : 2 ^ 64 ≤ size + 4095) :
    bucketBytes size = 0 := by
  have hmax : (if size < minInitialAlloc then minInitialAlloc else size) = size := by
    change (if size < 65660 then 65660 else size) = size
    rw [if_neg (by omega)]
  have hsum : add64 size (pageSize - 1) = size + 4095 - 2 ^ 64 := by
    change (size + 4095) % 2 ^ 64 = _
    omega
  have hmask : (size + 4095 - 2 ^ 64) &&& not64 (pageSize - 1) =
      4096 * ((size + 4095 - 2 ^ 64) / 4096) := and_not64_low (k := 12) (by omega) (by decide)
  rw [bucketBytes, hmax, hsum, hmask]
  omega

/-- The page count in the header, wherever the header lies. -/
theorem initBucket_size (hbytes : bytes < 2 ^ 64) :
    (initBucket m region bytes flags).get region MemoryBucket.size = bytes / 4096 := by
  have hfirst : add64 region MemoryBucket.sizeof = (region + 64) % 2 ^ 64 := rfl
  have hcount : bytes / pageSize < 2 ^ 64 := by
    rw [pageSize]
    omega
  have hapart : ∀ f : Field, f.offset + f.width ≤ 60 →
      (region + 64) % 2 ^ 64 + f.offset + f.width ≤ region + 16 ∨
        region + 24 ≤ (region + 64) % 2 ^ 64 + f.offset := by
    intro f hf
    omega
  simp only [initBucket, hfirst]
  iterate 7 rw [Mem.get_put_disjoint (hapart _ (by decide))]
  iterate 5 rw [Mem.get_put_disjoint (by simp)]
  exact Mem.get_put_same hcount

/-- A call is sound if and only if it returns no bucket or its sums stay in range. -/
theorem createSound_iff (h : Heap) {size : Nat} (flags : Nat) (hsize : size < 2 ^ 64) :
    CreateSound h size flags ↔ h.vmm.kHeapEnd.toNat = 0 ∨
      ¬ PageLoopEnds h.vmm.kHeapEnd.toNat (bucketBytes size / 4096) ∨ RegionInRange h size := by
  have hbytes := bucketBytes_lt size
  have hword := h.vmm.kHeapEnd.toNat_lt
  by_cases hne : h.vmm.kHeapEnd.toNat = 0
  · refine ⟨fun _ => .inl hne, fun _ bucket h' hcreate hbucket => ?_⟩
    obtain ⟨vmm, hmmap, -⟩ := createBucket_cases hcreate
    have hregion := (mmap_eq_some (by rw [pageSize]; omega) hmmap hbucket).2.1
    exact absurd (hregion.trans hne) hbucket
  by_cases hends : PageLoopEnds h.vmm.kHeapEnd.toNat (bucketBytes size / 4096)
  · obtain ⟨vmm, hcall, hend⟩ := @createBucket_eq h size flags hne hends
    have hpages : (initBucket h.mem h.vmm.kHeapEnd.toNat (bucketBytes size) flags).get
        h.vmm.kHeapEnd.toNat MemoryBucket.size = bucketBytes size / 4096 :=
      initBucket_size hbytes
    constructor
    · intro hsound
      obtain ⟨hlarge, -, -, hmoved⟩ := hsound _ _ hcall hne
      dsimp only at hlarge hmoved
      rw [hpages] at hlarge hmoved
      have hendLt := vmm.kHeapEnd.toNat_lt
      refine .inr (.inr ?_)
      by_cases hwrap : size + 4095 < 2 ^ 64
      · have hround := bucketBytes_eq hwrap
        exact ⟨hwrap, by omega⟩
      · rw [bucketBytes_of_wrap hsize (by omega)] at hlarge
        omega
    · rintro (hzero | hloop | ⟨hround, hfits⟩)
      · exact absurd hzero hne
      · exact absurd hends hloop
      · have hbytesEq := bucketBytes_eq hround
        intro bucket h' hcreate hbucket
        rw [hcall] at hcreate
        cases hcreate
        have hat : BucketAt 0 (initBucket h.mem h.vmm.kHeapEnd.toNat (bucketBytes size) flags)
            (freshBucket h.vmm.kHeapEnd.toNat (bucketBytes size)) 0 0 :=
          initBucket_at (by omega) (by omega) hbytes
        have hfirst := hat.body.first
        have hpebble := hat.body.pebbles.1.size
        dsimp only
        rw [freshBucket_base] at hfirst
        rw [hpages, hfirst, hend]
        change _ ∧ _ = 64 + 60 + (initBucket _ _ _ _).get (h.vmm.kHeapEnd.toNat + 64) _ ∧ _ at *
        rw [hpebble]
        change _ ∧ _ = 64 + 60 + (bucketBytes size - 124) ∧ _
        omega
  · refine ⟨fun _ => .inr (.inl hends), fun _ bucket h' hcreate hbucket => ?_⟩
    obtain ⟨vmm, hmmap, -⟩ := createBucket_cases hcreate
    exact absurd (mmap_eq_some (by rw [pageSize]; omega) hmmap hbucket).1 hends

end Create

/-! ## Every sequence of calls -/

/-- The heap end is at or above `KHEAPSTART`. -/
def HeapEndInRange (h : Heap) : Prop :=
  0 < h.kHeapStart ∧ h.kHeapStart ≤ h.vmm.kHeapEnd.toNat

instance (h : Heap) : Decidable (HeapEndInRange h) := inferInstanceAs (Decidable (_ ∧ _))

theorem HeapEndInRange.ne_zero {h : Heap} (hend : HeapEndInRange h) :
    h.vmm.kHeapEnd.toNat ≠ 0 :=
  Nat.ne_of_gt (Nat.lt_of_lt_of_le hend.1 hend.2)

/-- Calls of `create_bucket` whose sums stay in range, with the regions of their buckets.
Between two calls the kernel may write anything to the memory. -/
inductive CreateRun : Heap → List (Nat × Nat) → Prop
  | start {h : Heap} (hend : HeapEndInRange h) : CreateRun h []
  | write {h : Heap} {regions : List (Nat × Nat)} (m : Mem) (hrun : CreateRun h regions) :
      CreateRun { h with mem := m } regions
  | create {h h' : Heap} {regions : List (Nat × Nat)} {size flags bucket : Nat}
      (hrun : CreateRun h regions) (hsize : size < 2 ^ 64) (hin : RegionInRange h size)
      (hcreate : createBucket h size flags = some (bucket, h')) :
      CreateRun h' ((bucket, 4096 * h'.mem.get bucket MemoryBucket.size) :: regions)

/-- What a run keeps: its regions are disjoint and lie below the heap end. -/
structure RegionsBelow (h : Heap) (regions : List (Nat × Nat)) : Prop where
  end_in_range : HeapEndInRange h
  apart : regions.Pairwise RegionsApart
  below : ∀ r ∈ regions, r.1 + r.2 ≤ h.vmm.kHeapEnd.toNat

section Run

variable {h h' : Heap} {size flags bucket : Nat} {regions : List (Nat × Nat)}

/-- A call in range returns the old heap end and moves the heap end past the region. -/
theorem createBucket_region (hend : HeapEndInRange h) (hsize : size < 2 ^ 64)
    (hin : RegionInRange h size) (hcreate : createBucket h size flags = some (bucket, h')) :
    bucket = h.vmm.kHeapEnd.toNat ∧ h'.kHeapStart = h.kHeapStart ∧
      h'.vmm.kHeapEnd.toNat = bucket + 4096 * h'.mem.get bucket MemoryBucket.size := by
  have hends : PageLoopEnds h.vmm.kHeapEnd.toNat (bucketBytes size / 4096) := by
    by_contra hloop
    obtain ⟨vmm, hmmap, -⟩ := createBucket_cases hcreate
    rw [pageSize, (mmap_eq (by have := bucketBytes_lt size; omega) hend.ne_zero).2 hloop] at hmmap
    cases hmmap
  obtain ⟨vmm, hcall, -⟩ := @createBucket_eq h size flags hend.ne_zero hends
  have hsame := hcreate.symm.trans hcall
  obtain ⟨rfl, rfl⟩ := Prod.mk.inj (Option.some.inj hsame)
  have hsound := (createSound_iff h flags hsize).mpr (.inr (.inr hin)) _ _ hcall hend.ne_zero
  exact ⟨rfl, rfl, hsound.2.2.2⟩

/-- One call puts its region above all earlier ones. -/
theorem RegionsBelow.create (hbelow : RegionsBelow h regions) (hsize : size < 2 ^ 64)
    (hin : RegionInRange h size) (hcreate : createBucket h size flags = some (bucket, h')) :
    RegionsBelow h' ((bucket, 4096 * h'.mem.get bucket MemoryBucket.size) :: regions) := by
  obtain ⟨hbucket, hstart, hmoved⟩ :=
    createBucket_region hbelow.end_in_range hsize hin hcreate
  have hends : ∀ r ∈ regions, r.1 + r.2 ≤ bucket := by
    rw [hbucket]
    exact hbelow.below
  obtain ⟨hpos, hle⟩ := hbelow.end_in_range
  constructor
  · refine ⟨by omega, ?_⟩
    rw [hstart, hmoved, hbucket]
    omega
  · exact List.pairwise_cons.mpr ⟨fun r hr => .inr (hends r hr), hbelow.apart⟩
  · intro r hr
    obtain rfl | hr := List.mem_cons.mp hr
    · exact hmoved.ge
    · have := hends r hr
      omega

theorem CreateRun.regionsBelow (hrun : CreateRun h regions) : RegionsBelow h regions := by
  induction hrun with
  | start hend => exact ⟨hend, .nil, by simp⟩
  | write m _ ih => exact ⟨ih.end_in_range, ih.apart, ih.below⟩
  | create _ hsize hin hcreate ih => exact ih.create hsize hin hcreate

end Run

/-- A call of `create_bucket` is sound if and only if its page loop never ends or its sums
stay in range, and buckets created by calls in range do not overlap. -/
theorem createBucket_sound_iff {h : Heap} {size : Nat} (flags : Nat) (hsize : size < 2 ^ 64)
    (hend : HeapEndInRange h) :
    (CreateSound h size flags ↔
      ¬ PageLoopEnds h.vmm.kHeapEnd.toNat (bucketBytes size / 4096) ∨ RegionInRange h size) ∧
    ∀ (h' : Heap) (regions : List (Nat × Nat)), CreateRun h' regions →
      regions.Pairwise RegionsApart := by
  refine ⟨?_, fun h' regions hrun => hrun.regionsBelow.apart⟩
  simp only [createSound_iff h flags hsize, hend.ne_zero, false_or]

theorem createBucket_sound_iff_emptyHeap :
    CreateSound emptyHeap 0x1000 0 ∧
      ∀ bucket h', createBucket emptyHeap 0x1000 0 = some (bucket, h') →
        [(bucket, 4096 * h'.mem.get bucket MemoryBucket.size)].Pairwise RegionsApart := by
  obtain ⟨hsound, happart⟩ := @createBucket_sound_iff emptyHeap 0x1000 0 (by decide) (by decide)
  exact ⟨hsound.mpr (.inr (by decide)), fun _ _ hcreate => happart _ _
    (.create (.start (by decide)) (by decide) (by decide) hcreate)⟩

/-- A heap in the top 2 GiB of the address space. -/
def topHeap : Heap := ⟨⟨fun _ => 0⟩, { freshVmm with kHeapEnd := 0xffffffff80010000 },
  0xffffffff80010000⟩

/-- Rounding `2^64 - 1` up wraps around to 0: the bucket has no pages. -/
theorem not_createSound_topHeap : HeapEndInRange topHeap ∧
    ¬ CreateSound topHeap (2 ^ 64 - 1) 0 := by
  refine ⟨by decide, fun hsound => ?_⟩
  obtain hzero | hloop | hin := (createSound_iff topHeap 0 (by decide)).mp hsound
  · exact absurd hzero (by decide)
  · exact hloop (by decide)
  · exact absurd hin.1 (by decide)

end FroggyOs
