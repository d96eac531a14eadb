import FroggyOs.Klibc.NewBucket

/-!
# Payloads and blocks in use

The blocks in use of all buckets are what the allocator has handed out. Different blocks
do not overlap, headers included, so a block is known by its address, and a write that
stays inside one payload leaves every header of the heap alone.
-/

namespace FroggyOs

open ByteMemory Word64 LinkedChain

/-- `b` is a block in use of one of the buckets. -/
def Used (Bs : List BucketModel) (b : Block) : Prop :=
  b.inUse = true ∧ ∃ B ∈ Bs, b ∈ B.blocks

theorem Block.sub64_payload {b : Block} (h : b.payload < 2 ^ 64) :
    sub64 b.payload MemoryPebble.sizeof = b.addr :=
  (sub64_eq (Nat.le_add_left 60 b.addr) h).trans (Nat.add_sub_cancel b.addr 60)

theorem Block.add64_addr {b : Block} (h : b.payload < 2 ^ 64) :
    add64 b.addr MemoryPebble.sizeof = b.payload := add64_eq h

/-- Only bytes of the block's payload change. -/
def ChangesPayload (b : Block) (m m' : Mem) : Prop :=
  ∀ x, x < b.payload ∨ b.stop ≤ x → m'.byte x = m.byte x

theorem ChangesPayload.refl (b : Block) (m : Mem) : ChangesPayload b m m := fun _ _ => rfl

/-- Filling the front of a payload. -/
theorem ChangesPayload.memset {b : Block} {m : Mem} {v size : Nat} (hsize : size ≤ b.size) :
    ChangesPayload b m (FroggyOs.memset m b.payload v size) := by
  intro x hx
  apply Mem.fill_byte_outside
  simp only [Block.payload, Block.stop] at hx ⊢
  omega

section Blocks

variable {m m' : Mem} {start : Nat} {B C : BucketModel} {Bs pre post : List BucketModel}
  {b c : Block}

theorem used_middle : Used (pre ++ B :: post) b ↔
    b.inUse = true ∧ b ∈ B.blocks ∨ Used (pre ++ post) b := by
  rw [Used, exists_mem_middle, Used, and_or_left]

/-- Buckets in disjoint regions. -/
structure Separate (Bs : List BucketModel) : Prop where
  wf : ∀ B ∈ Bs, B.WF
  apart : Bs.Pairwise Apart

namespace Separate

theorem apart_of_ne (h : Separate Bs) (hB : B ∈ Bs) (hC : C ∈ Bs) (hne : B ≠ C) :
    Apart B C := by
  have : Std.Symm Apart := ⟨fun _ _ => Apart.symm⟩
  exact h.apart.forall hB hC hne

/-- A bucket is known by its address. -/
theorem bucket_ext (h : Separate Bs) (hB : B ∈ Bs) (hC : C ∈ Bs) (hbase : B.base = C.base) :
    B = C := by
  by_contra hne
  have hBlt := (h.wf B hB).base_lt_stop
  have hClt := (h.wf C hC).base_lt_stop
  obtain hapart | hapart := h.apart_of_ne hB hC hne <;> omega

/-- Different blocks of the heap do not overlap. -/
theorem blocks_apart (h : Separate Bs) (hB : B ∈ Bs) (hC : C ∈ Bs) (hb : b ∈ B.blocks)
    (hc : c ∈ C.blocks) (hne : b ≠ c) : b.stop ≤ c.addr ∨ c.stop ≤ b.addr := by
  by_cases hsame : B = C
  · subst hsame
    exact (h.wf B hB).tiles.disjoint hb hc hne
  · have hbounds := (h.wf B hB).tiles.bounds hb
    have hcbounds := (h.wf C hC).tiles.bounds hc
    obtain hapart | hapart := h.apart_of_ne hB hC hsame <;> omega

/-- The payload of a block lies apart from the headers of buckets. -/
theorem payload_apart_bucket (h : Separate Bs) (hB : B ∈ Bs) (hC : C ∈ Bs) (hb : b ∈ B.blocks) :
    C.base + 64 ≤ b.payload ∨ b.stop ≤ C.base := by
  have hbounds := (h.wf B hB).block_bounds hb
  simp only [Block.payload, Block.stop]
  by_cases hsame : B = C
  · subst hsame
    omega
  · have hClt := (h.wf C hC).base_lt_stop
    obtain hapart | hapart := h.apart_of_ne hB hC hsame <;> omega

/-- The payload of a block lies apart from the headers of blocks. -/
theorem payload_apart_pebble (h : Separate Bs) (hB : B ∈ Bs) (hC : C ∈ Bs) (hb : b ∈ B.blocks)
    (hc : c ∈ C.blocks) : c.payload ≤ b.payload ∨ b.stop ≤ c.addr := by
  by_cases hsame : b = c
  · exact .inl (hsame ▸ Nat.le_refl _)
  · have hapart := h.blocks_apart hB hC hb hc hsame
    simp only [Block.payload, Block.stop] at hapart ⊢
    omega

/-- A block is known by its address. -/
theorem block_ext (h : Separate Bs) (hB : B ∈ Bs) (hC : C ∈ Bs) (hb : b ∈ B.blocks)
    (hc : c ∈ C.blocks) (haddr : b.addr = c.addr) : b = c := by
  by_contra hne
  have hapart := h.blocks_apart hB hC hb hc hne
  simp only [Block.stop] at hapart
  omega

theorem used_ext (h : Separate Bs) (hb : Used Bs b) (hc : Used Bs c)
    (hpayload : b.payload = c.payload) : b = c := by
  obtain ⟨-, B, hB, hb⟩ := hb
  obtain ⟨-, C, hC, hc⟩ := hc
  simp only [Block.payload] at hpayload
  exact h.block_ext hB hC hb hc (by omega)

end Separate

namespace HeapRep

theorem separate (h : HeapRep m start Bs) : Separate Bs := ⟨h.wf, h.apart⟩

/-- A block in use and the bucket it lies in, cut out of their lists. -/
theorem used_cases (hb : Used Bs b) : ∃ pre B post before after, Bs = pre ++ B :: post ∧
    B.blocks = before ++ b :: after := by
  obtain ⟨-, B, hB, hb⟩ := hb
  obtain ⟨pre, post, rfl⟩ := List.append_of_mem hB
  obtain ⟨before, after, hblocks⟩ := List.append_of_mem hb
  exact ⟨pre, B, post, before, after, rfl, hblocks⟩

/-- The header fields of a block in use. -/
theorem used_pebble (h : HeapRep m start Bs) (hb : Used Bs b) :
    ∃ B ∈ Bs, ∃ prev next, PebbleAt m B.base b prev next := by
  obtain ⟨-, B, hB, hb⟩ := hb
  exact ⟨B, hB, (h.body hB).pebble hb⟩

end HeapRep

/-- A write inside a payload is a step of its bucket that changes no block. -/
theorem ChangesPayload.step (hchanges : ChangesPayload b m m') (h : BucketBody m B) (hwf : B.WF)
    (hb : b ∈ B.blocks) : BucketStep m B m' B := by
  have hbounds := hwf.block_bounds hb
  have hbytes : ∀ x, x < B.base + 64 ∨ B.stop ≤ x → m'.byte x = m.byte x := by
    intro x hx
    apply hchanges
    simp only [Block.payload, Block.stop]
    omega
  refine ⟨rfl, rfl, hwf, h.of_pebbles (fun x _ hx => hbytes x (by omega)) ?_,
    ChangesOnly.of_region hbytes⟩
  refine Chain.mono (fun c hc prev next hpebble => hpebble.frame fun x hlow hhigh => ?_) h.pebbles
  apply hchanges
  by_cases hsame : b = c
  · subst hsame
    exact .inl hhigh
  · have hapart := hwf.tiles.disjoint hb hc hsame
    simp only [Block.payload, Block.stop] at hapart ⊢
    omega

theorem HeapRep.writePayload (h : HeapRep m start Bs) (hb : Used Bs b)
    (hchanges : ChangesPayload b m m') : HeapRep m' start Bs := by
  obtain ⟨-, B, hB, hb⟩ := hb
  have hstep := hchanges.step (h.body hB) (h.wf B hB) hb
  obtain ⟨pre, post, rfl⟩ := List.append_of_mem hB
  exact h.step hstep

end Blocks

/-! ## The invariant -/

/-- The buckets `Bs` represent the heap, have no two free neighbours, and lie below the
heap end. -/
structure HeapInv (h : Heap) (Bs : List BucketModel) : Prop where
  rep : HeapRep h.mem h.kHeapStart Bs
  coalesced : ∀ B ∈ Bs, Coalesced B.blocks
  below : ∀ B ∈ Bs, B.stop ≤ h.vmm.kHeapEnd.toNat

section Inv

variable {h : Heap} {m' : Mem} {B B' : BucketModel} {Bs pre post : List BucketModel} {b : Block}

theorem HeapInv.writePayload (hinv : HeapInv h Bs) (hb : Used Bs b)
    (hchanges : ChangesPayload b h.mem m') : HeapInv { h with mem := m' } Bs :=
  ⟨hinv.rep.writePayload hb hchanges, hinv.coalesced, hinv.below⟩

/-- A step inside one bucket that leaves no two free neighbours. -/
theorem HeapInv.step (hinv : HeapInv h (pre ++ B :: post)) (hstep : BucketStep h.mem B m' B')
    (hcoalesced : Coalesced B'.blocks) : HeapInv { h with mem := m' } (pre ++ B' :: post) := by
  refine ⟨hinv.rep.step hstep, forall_replace hinv.coalesced hcoalesced,
    forall_replace hinv.below ?_⟩
  rw [hstep.stop_eq]
  exact hinv.below B (by simp)

/-- The heap `kmalloc_init` builds: one bucket, one free pebble. -/
theorem HeapInv.start {h' : Heap} {size : Nat}
    (hinit : kmallocInit h size = some (h.kHeapStart, h')) (hne : h.kHeapStart ≠ 0)
    (hin : RegionInRange h size) :
    HeapInv h' [freshBucket h.kHeapStart (bucketBytes size)] := by
  have hbytes := bucketBytes_eq hin.1
  have hlt := bucketBytes_lt size
  obtain ⟨vmm, hmmap, hcases⟩ := createBucket_cases hinit
  obtain ⟨-, rfl⟩ := hcases.resolve_left fun hand => hne hand.1
  obtain ⟨hregion, hend⟩ := mmap_kHeapEnd (by rw [pageSize]; omega) hmmap hne
  rw [pageSize] at hend
  have hfits : h.kHeapStart + bucketBytes size < 2 ^ 64 := by
    rw [hregion]
    exact hin.2
  have hwf := freshBucket_wf hne (by omega : 124 ≤ bucketBytes size) (by omega) (by omega)
  have hat : BucketAt 0 (initBucket h.mem h.kHeapStart (bucketBytes size) (0 ||| bucketFlagFirst))
      (freshBucket h.kHeapStart (bucketBytes size)) 0 0 :=
    initBucket_at (by omega) (by omega) hlt
  refine ⟨⟨⟨hat, trivial⟩, rfl, ?_, by simp, by simp⟩, ?_, ?_⟩
  · simpa using hwf
  · simp [Coalesced, freshBucket]
  · simp only [List.forall_mem_singleton, freshBucket, BucketModel.stop]
    omega

end Inv

end FroggyOs
