import FroggyOs.Klibc.Payloads
import FroggyOs.Klibc.Sections
import FroggyOs.Vmm.Release

/-!
# The calls of the public interface

Each call is specified by what it does to the set of blocks in use. `kmalloc` adds one
block or none, `kfree` takes the freed one away, and `krealloc` replaces its block or
cuts it in two. The payload writes are a parameter; they only have to stay inside the
block that the call hands out.
-/

namespace FroggyOs

open ByteMemory Word64 LinkedChain

attribute [local irreducible] bucketUpdateLargest placePebble searchBuckets chosenPebble
  bucketBytes popFrameList mapToPage pebbleSize placeSection

/-! ## Handing out and taking back -/

/-- Between the buckets `Bs` and `Bs'` the block `b` is handed out and nothing else. -/
structure Granted (Bs Bs' : List BucketModel) (b : Block) : Prop where
  inUse : b.inUse = true
  fresh : ∀ c, Used Bs c → c.payload ≠ b.payload
  used : ∀ c, Used Bs' c ↔ c = b ∨ Used Bs c

/-- Between the buckets `Bs` and `Bs'` the block `b` is taken back and nothing else. -/
def Returned (Bs Bs' : List BucketModel) (b : Block) : Prop :=
  ∀ c, Used Bs' c ↔ Used Bs c ∧ c ≠ b

/-- The blocks in use are the same. -/
def SameUsed (Bs Bs' : List BucketModel) : Prop := ∀ c, Used Bs' c ↔ Used Bs c

section Place

variable {m : Mem} {B B' : BucketModel} {Bs Bs' Cs pre post : List BucketModel} {start need : Nat}
  {before after : List Block} {b c : Block}

theorem SameUsed.granted (hsame : SameUsed Bs Cs) (h : Granted Cs Bs' b) : Granted Bs Bs' b where
  inUse := h.inUse
  fresh := fun c hc => h.fresh c ((hsame c).mpr hc)
  used := fun c => (h.used c).trans (or_congr_right (hsame c))

theorem inUse_of_mem_splitTail (hc : c ∈ splitTail b need) : c.inUse = b.inUse := by
  rw [splitTail] at hc
  split at hc
  case isTrue => rw [List.mem_singleton.mp hc]
  case isFalse => cases hc

theorem used_placeBlock (hfree : b.inUse = false) :
    c.inUse = true ∧ c ∈ before ++ placeBlock b need ++ after ↔
      c = (splitHead b need).use ∨ c.inUse = true ∧ c ∈ before ++ b :: after := by
  have htail : c.inUse = true → c ∉ splitTail b need := by
    intro hused hc
    rw [inUse_of_mem_splitTail hc, hfree] at hused
    cases hused
  have hb : c.inUse = true → c ≠ b := by
    intro hused hc
    rw [hc, hfree] at hused
    cases hused
  simp only [placeBlock, List.mem_append, List.mem_cons]
  constructor
  · rintro ⟨hused, (hc | hc | hc) | hc⟩
    · exact .inr ⟨hused, .inl hc⟩
    · exact .inl hc
    · exact absurd hc (htail hused)
    · exact .inr ⟨hused, .inr (.inr hc)⟩
  · rintro (hc | ⟨hused, hc | hc | hc⟩)
    · refine ⟨?_, .inl (.inr (.inl hc))⟩
      rw [hc, Block.use_inUse]
    · exact ⟨hused, .inl (.inl hc)⟩
    · exact absurd hc (hb hused)
    · exact ⟨hused, .inr hc⟩

/-- Placing a request hands out the first part of a free block. -/
theorem HeapRep.granted (hrep : HeapRep m start (pre ++ B :: post))
    (hblocks : B.blocks = before ++ b :: after) (hfree : b.inUse = false)
    (hnew : B'.blocks = before ++ placeBlock b need ++ after) :
    Granted (pre ++ B :: post) (pre ++ B' :: post) (splitHead b need).use := by
  refine ⟨Block.use_inUse _, fun c hc hpayload => ?_, fun c => ?_⟩
  · obtain ⟨hused, C, hC, hc⟩ := hc
    have haddr : c.addr = b.addr := by
      have hsum : c.addr + 60 = (splitHead b need).use.addr + 60 := hpayload
      rw [Block.use_addr, splitHead_addr] at hsum
      omega
    have hB : B ∈ pre ++ B :: post := by simp
    have hsame := hrep.separate.block_ext hC hB hc (by simp [hblocks]) haddr
    rw [hsame, hfree] at hused
    cases hused
  · have hplaced := @used_placeBlock need before after b c hfree
    rw [← hnew, ← hblocks] at hplaced
    rw [used_middle, used_middle, hplaced]
    exact or_assoc

end Place

/-! ## `kmalloc` -/

/-- A listed bucket's cached maximum and one of its free pebbles are large enough. -/
def Served (h : Heap) (need : Nat) : Prop :=
  ∃ bucket pebble, ListedBucket h bucket ∧ ListedPebble h.mem bucket pebble ∧
    need ≤ h.mem.get bucket MemoryBucket.largestFree ∧ isPebbleFree h.mem pebble = true ∧
    need ≤ h.mem.get pebble MemoryPebble.size

/-- If a bucket has to be created for the request, its region stays in range. -/
def RegionReady (h : Heap) (n : Nat) : Prop :=
  ¬ Served h (pebbleSize (requestSize n)) → RegionInRange h (requestSize n)

/-- The request is served by a bucket of the list, or fits into a new one. -/
def Succeeds (h : Heap) (n : Nat) : Prop :=
  ¬ Served h (pebbleSize (requestSize n)) →
    pebbleSize (requestSize n) + 124 ≤ bucketBytes (requestSize n)

/-- The writes for a request of `n` bytes stay inside a payload of the rounded size. -/
def StaysInside (w : PayloadWrites) (n : Nat) : Prop :=
  ∀ b : Block, pebbleSize (requestSize n) ≤ b.size → ∀ m,
    ChangesPayload b m (w.zero m b.payload (requestSize n)) ∧
      ∀ src, ChangesPayload b m (w.copy m b.payload src n)

section Obtain

variable {h : Heap} {Bs : List BucketModel} {b : Block} {n : Nat}

theorem served_iff (hrep : HeapRep h.mem h.kHeapStart Bs) {need : Nat} :
    Served h need ↔ ServedByList Bs need := by
  constructor
  · rintro ⟨bucket, pebble, hbucket, hpebble, hlarge, hfree, hsize⟩
    obtain ⟨B, hB, rfl⟩ := (listedBucket_iff hrep).mp hbucket
    obtain ⟨c, hc, rfl⟩ := (listedPebble_iff (hrep.body hB) (hrep.wf B hB)).mp hpebble
    obtain ⟨_, _, hat⟩ := (hrep.body hB).pebble hc
    rw [hat.isPebbleFree_iff] at hfree
    rw [hat.size] at hsize
    rw [(hrep.body hB).largest] at hlarge
    exact ⟨B, hB, hlarge, c, hc, by simp [fits, hfree, hsize]⟩
  · rintro ⟨B, hB, hlarge, c, hc, hfits⟩
    obtain ⟨_, _, hat⟩ := (hrep.body hB).pebble hc
    simp only [fits, Bool.and_eq_true, decide_eq_true_eq] at hfits
    refine ⟨B.base, c.addr, (listedBucket_iff hrep).mpr ⟨B, hB, rfl⟩,
      (listedPebble_iff (hrep.body hB) (hrep.wf B hB)).mpr ⟨c, hc, rfl⟩, ?_, ?_, ?_⟩
    · rw [(hrep.body hB).largest]
      exact hlarge
    · rw [hat.isPebbleFree_iff]
      exact hfits.1
    · rw [hat.size]
      exact hfits.2

theorem inUse_of_fits {need : Nat} (hfits : fits need b = true) : b.inUse = false := by
  simp only [fits, Bool.and_eq_true, Bool.not_eq_true'] at hfits
  exact hfits.1

theorem HeapInv.payload_lt (hinv : HeapInv h Bs) (hb : Used Bs b) : b.payload < 2 ^ 64 := by
  obtain ⟨-, B, hB, hb⟩ := hb
  have hbounds := (hinv.rep.wf B hB).block_bounds hb
  have hbelow := hinv.below B hB
  have hword := h.vmm.kHeapEnd.toNat_lt
  simp only [Block.payload]
  omega

/-- What a section hands out that places a request in `b`. -/
theorem HeapInv.grant {pre post : List BucketModel} {B B' : BucketModel} {need : Nat}
    {before after : List Block} (hinv : HeapInv h (pre ++ B :: post))
    (hblocks : B.blocks = before ++ b :: after) (hfits : fits need b = true)
    (hnew : B'.blocks = before ++ placeBlock b need ++ after) :
    Granted (pre ++ B :: post) (pre ++ B' :: post) (splitHead b need).use ∧
      add64 b.addr MemoryPebble.sizeof = (splitHead b need).use.payload ∧
      need ≤ (splitHead b need).use.size := by
  have hbounds := (hinv.rep.wf B (by simp)).block_bounds (by simp [hblocks] : b ∈ B.blocks)
  have hbelow := hinv.below B (by simp)
  have hword := h.vmm.kHeapEnd.toNat_lt
  have hlt : b.payload < 2 ^ 64 := by
    simp only [Block.payload]
    omega
  refine ⟨hinv.rep.granted hblocks (inUse_of_fits hfits) hnew, ?_, ?_⟩
  · rw [b.add64_addr hlt, Block.payload, Block.payload, Block.use_addr, splitHead_addr]
  · simp only [fits, Bool.and_eq_true, decide_eq_true_eq] at hfits
    rw [Block.use_size]
    exact le_splitHead_size hfits.2 (by omega)

/-- The search finds nothing, or it places the request in a free block of the list. -/
theorem HeapInv.search (hinv : HeapInv h Bs) (size : Nat) :
    (¬ Served h (pebbleSize size) ∧
      obtainPebble h size = allocInNewBucket h size (pebbleSize size)) ∨
    (Served h (pebbleSize size) ∧ ∃ h' Bs' B c, B ∈ Bs ∧ c ∈ B.blocks ∧
      obtainPebble h size = some ((splitHead c (pebbleSize size)).use.payload, h') ∧
      HeapInv h' Bs' ∧ h'.vmm = h.vmm ∧ Granted Bs Bs' (splitHead c (pebbleSize size)).use ∧
      pebbleSize size ≤ (splitHead c (pebbleSize size)).use.size) := by
  have hrep := hinv.rep
  have hspec := searchBuckets_spec hrep.chain hrep.wf (pebbleSize_aligned size) hrep.length_lt
  rw [hrep.head] at hspec
  rw [served_iff hrep]
  obtain ⟨hcall, -, hmissed⟩ |
    ⟨pre, B, post, before, c, after, m', B', rfl, hlarge, hblocks, hfits, -, hcall, hstep, hnew,
      -⟩ := hspec
  · refine .inl ⟨?_, obtainPebble_eq hcall⟩
    rintro ⟨B, hB, hlarge, c, hc, hfits⟩
    rw [hmissed B hB hlarge c hc] at hfits
    cases hfits
  · have hc : c ∈ B.blocks := by simp [hblocks]
    have hB : B ∈ pre ++ B :: post := by simp
    obtain ⟨hgranted, hpayload, hsize⟩ := hinv.grant hblocks hfits hnew
    have hcoalesced : Coalesced B'.blocks := by
      have hcoalesced := hinv.coalesced B hB
      rw [hblocks] at hcoalesced
      rw [hnew]
      exact hcoalesced.place (inUse_of_fits hfits)
    rw [hpayload] at hcall
    exact .inr ⟨⟨B, hB, hlarge, c, hc, hfits⟩, _, _, B, c, hB, hc,
      (obtainPebble_eq hcall).trans (if_neg (Nat.succ_ne_zero _)), hinv.step hstep hcoalesced,
      rfl, hgranted, hsize⟩

/-- A bucket without blocks in use changes nothing for the callers. -/
theorem sameUsed_insert {pre post : List BucketModel} {N : BucketModel}
    (hfree : ∀ c ∈ N.blocks, c.inUse = false) : SameUsed (pre ++ post) (pre ++ N :: post) := by
  refine fun c => used_middle.trans (or_iff_right ?_)
  rintro ⟨hused, hc⟩
  rw [hfree c hc] at hused
  cases hused

/-- The heap with a new bucket in its list. -/
theorem HeapInv.create {A : BucketModel} {post : List BucketModel} (hinv : HeapInv h (A :: post))
    {size : Nat} (hin : RegionInRange h size) : ∃ vmm m₁ m,
      createBucket h size 0 = some (h.vmm.kHeapEnd.toNat, { h with mem := m₁, vmm }) ∧
      insertBucket m₁ h.vmm.kHeapEnd.toNat h.kHeapStart = some m ∧
      HeapInv { h with mem := m, vmm }
        ([A] ++ freshBucket h.vmm.kHeapEnd.toNat (bucketBytes size) :: post) := by
  have hrep := hinv.rep
  have hbytes := bucketBytes_eq hin.1
  have hlt := bucketBytes_lt size
  have hregion := hin.2
  have hAlt := (hrep.wf A (by simp)).base_lt_stop
  have hAbelow := hinv.below A (by simp)
  have hends : PageLoopEnds h.vmm.kHeapEnd.toNat (bucketBytes size / 4096) := by
    intro hsum
    omega
  obtain ⟨vmm, hcreate, hmoved⟩ := @createBucket_eq h size 0 (by omega) hends
  have hwf := freshBucket_wf (by omega : h.vmm.kHeapEnd.toNat ≠ 0)
    (by omega : 124 ≤ bucketBytes size) (by omega) (by omega)
  obtain ⟨m, hinsert, hrep'⟩ := hrep.create 0 hwf (by omega) hlt fun C hC => .inr (hinv.below C hC)
  refine ⟨vmm, _, m, hcreate, hinsert, hrep', ?_, ?_⟩
  · obtain ⟨hA, hpost⟩ := List.forall_mem_cons.mp hinv.coalesced
    exact List.forall_mem_cons.mpr
      ⟨hA, List.forall_mem_cons.mpr ⟨by simp [freshBucket, Coalesced], hpost⟩⟩
  · -- the heap now ends behind the new bucket
    have hend : vmm.kHeapEnd.toNat = h.vmm.kHeapEnd.toNat + bucketBytes size := by
      rw [hmoved]
      omega
    intro C hC
    show C.stop ≤ vmm.kHeapEnd.toNat
    obtain rfl | hC := List.mem_cons.mp (List.perm_middle.mem_iff.mp hC)
    · simp only [freshBucket, BucketModel.stop]
      omega
    · have hbelow := hinv.below C hC
      omega

/-- A bucket created for the request: its free pebble is handed out if the request fits. -/
theorem HeapInv.newBucket (hinv : HeapInv h Bs) {size : Nat} (hin : RegionInRange h size) :
    (pebbleSize size + 124 ≤ bucketBytes size → ∃ h' Bs' b,
      allocInNewBucket h size (pebbleSize size) = some (b.payload, h') ∧ HeapInv h' Bs' ∧
        Granted Bs Bs' b ∧ pebbleSize size ≤ b.size) ∧
    (¬ pebbleSize size + 124 ≤ bucketBytes size → ∃ h' Bs',
      allocInNewBucket h size (pebbleSize size) = some (0, h') ∧ HeapInv h' Bs' ∧
        SameUsed Bs Bs') := by
  have hbytes := bucketBytes_eq hin.1
  obtain ⟨A, post, rfl⟩ := List.exists_cons_of_ne_nil hinv.rep.nonempty
  obtain ⟨vmm, m₁, m, hcreate, hinsert, hNinv⟩ := hinv.create hin
  have hwf := hNinv.rep.wf _ List.mem_append_cons_self
  have hbase : h.vmm.kHeapEnd.toNat ≠ 0 := hwf.base_ne
  have hblocks : (freshBucket h.vmm.kHeapEnd.toNat (bucketBytes size)).blocks =
      [⟨h.vmm.kHeapEnd.toNat + 64, bucketBytes size - 124, false⟩] := rfl
  have hcoalesced := hNinv.coalesced _ List.mem_append_cons_self
  obtain ⟨p, m', N', hsection, hstep, hplaced, -⟩ :=
    placeSection_spec (Chain.middle_iff.mp hNinv.rep.chain).2.1 hwf (pebbleSize_aligned size)
  rw [freshBucket_base] at hsection
  generalize freshBucket h.vmm.kHeapEnd.toNat (bucketBytes size) = N at *
  have hsame : SameUsed (A :: post) ([A] ++ N :: post) :=
    @sameUsed_insert [A] post N (by simp [hblocks])
  have hcall : allocInNewBucket h size (pebbleSize size) =
      some (if p ≠ 0 then add64 p MemoryPebble.sizeof else 0, { h with mem := m', vmm }) := by
    rw [allocInNewBucket_eq, hcreate]
    simp only [Option.bind_some, hbase, if_false, hinsert, hsection]
  have hinv' : HeapInv { h with mem := m', vmm } ([A] ++ N' :: post) :=
    hNinv.step hstep (hplaced.coalesced hcoalesced)
  constructor
  · intro hroom
    have hp : p ≠ 0 := by
      refine hplaced.ne_zero hwf.addr_ne_zero
        ⟨_, by rw [hblocks]; exact List.mem_singleton_self _, ?_⟩
      simp only [fits, Bool.not_false, Bool.true_and, decide_eq_true_eq]
      omega
    generalize hafter : N'.blocks = blocks' at hplaced
    cases hplaced with
    | missed => exact absurd rfl hp
    | found before after b hsplit hfits =>
        obtain ⟨hgranted, hpayload, hsize⟩ := hNinv.grant hsplit hfits hafter
        rw [if_pos hp, hpayload] at hcall
        exact ⟨_, _, _, hcall, hinv', hsame.granted hgranted, hsize⟩
  · intro hfull
    have hp : p = 0 := by
      by_contra hp
      obtain ⟨b, hb, -, hfits⟩ := hplaced.exists_fits hp
      rw [hblocks, List.mem_singleton] at hb
      simp only [hb, fits, Bool.not_false, Bool.true_and, decide_eq_true_eq] at hfits
      omega
    subst hp
    have hkept := hplaced.eq_of_missed hwf.addr_ne_zero
    refine ⟨_, _, hcall, hinv', fun c => ?_⟩
    rw [used_middle, hkept, ← used_middle]
    exact hsame c

/-- `kmalloc` up to its zero fill. -/
theorem HeapInv.obtain_spec (hinv : HeapInv h Bs) (hready : RegionReady h n) :
    (Succeeds h n → ∃ h' Bs' b, obtainPebble h (requestSize n) = some (b.payload, h') ∧
      HeapInv h' Bs' ∧ Granted Bs Bs' b ∧ pebbleSize (requestSize n) ≤ b.size) ∧
    (¬ Succeeds h n → ∃ h' Bs', obtainPebble h (requestSize n) = some (0, h') ∧
      HeapInv h' Bs' ∧ SameUsed Bs Bs') := by
  obtain ⟨hmissed, hcall⟩ | ⟨hserved, h', Bs', B, c, -, -, hcall, hinv', -, hgranted, hsize⟩ :=
    hinv.search (requestSize n)
  · rw [hcall]
    obtain ⟨hfits, hfull⟩ := hinv.newBucket (hready hmissed)
    exact ⟨fun hsucceeds => hfits (hsucceeds hmissed),
      fun hfails => hfull fun hroom => hfails fun _ => hroom⟩
  · exact ⟨fun _ => ⟨h', Bs', _, hcall, hinv', hgranted, hsize⟩,
      fun hfails => absurd (absurd hserved) hfails⟩

/-- `kmalloc` adds a block in use, or returns `NULL` and adds none. -/
theorem HeapInv.kmalloc_spec {w : PayloadWrites} (hinv : HeapInv h Bs) (hready : RegionReady h n)
    (hinside : Succeeds h n → StaysInside w n) :
    (Succeeds h n → ∃ h' Bs' b, kmalloc w h n = some (b.payload, h') ∧ HeapInv h' Bs' ∧
      Granted Bs Bs' b ∧ pebbleSize (requestSize n) ≤ b.size) ∧
    (¬ Succeeds h n → ∃ h' Bs', kmalloc w h n = some (0, h') ∧ HeapInv h' Bs' ∧
      SameUsed Bs Bs') := by
  obtain ⟨hsuccess, hfailure⟩ := hinv.obtain_spec hready
  constructor
  · intro hsucceeds
    obtain ⟨h', Bs', b, hcall, hinv', hgranted, hsize⟩ := hsuccess hsucceeds
    have hused := (hgranted.used b).mpr (.inl rfl)
    have hne : b.payload ≠ 0 := Nat.succ_ne_zero _
    have hzero := (hinside hsucceeds b hsize h'.mem).1
    refine ⟨_, Bs', b, ?_, hinv'.writePayload hused hzero, hgranted, hsize⟩
    rw [kmalloc, hcall]
    simp only [Option.bind_eq_bind, Option.bind_some, hne, ne_eq, not_false_eq_true, if_true]
  · intro hfails
    obtain ⟨h', Bs', hcall, hinv', hsame⟩ := hfailure hfails
    exact ⟨h', Bs', kmalloc_null_iff.mpr hcall, hinv', hsame⟩

end Obtain

/-! ## `kfree` -/

section Free

variable {h : Heap} {Bs pre post : List BucketModel} {B B' : BucketModel} {b c : Block}
  {before after : List Block}

theorem Tiles.nodup {start stop : Nat} {xs : List Block} (h : Tiles start xs stop) : xs.Nodup := by
  refine h.pairwise.imp fun {x y} hxy => ?_
  rintro rfl
  simp only [Block.stop] at hxy
  omega

/-- The blocks of the other buckets are other blocks. -/
theorem used_ne (hsep : Separate (pre ++ B :: post)) (hb : b ∈ B.blocks)
    (hc : Used (pre ++ post) c) : c ≠ b := by
  rintro rfl
  obtain ⟨-, C, hC, hc⟩ := hc
  have hapart := (apart_middle.mp hsep.apart).1 C hC
  have hCwf := hsep.wf C (by simpa using Or.imp_right Or.inr (List.mem_append.mp hC))
  have hbounds := (hsep.wf B (by simp)).block_bounds hb
  have hCbounds := hCwf.block_bounds hc
  obtain hapart | hapart := hapart <;> omega

/-- Of the blocks in use, releasing one takes that one away. -/
theorem used_release (hsep : Separate (pre ++ B :: post))
    (hblocks : B.blocks = before ++ b :: after)
    (hnew : B'.blocks = release before b after) :
    Used (pre ++ B' :: post) c ↔ Used (pre ++ B :: post) c ∧ c ≠ b := by
  have hwf := hsep.wf B (by simp)
  have hb : b ∈ B.blocks := by simp [hblocks]
  have hnodup := hwf.tiles.nodup
  rw [hblocks, List.nodup_middle, List.nodup_cons, List.mem_append] at hnodup
  have hinner : c.inUse = true ∧ c ∈ B'.blocks ↔ (c.inUse = true ∧ c ∈ B.blocks) ∧ c ≠ b := by
    rw [hnew, hblocks]
    constructor
    · rintro ⟨hused, hc⟩
      have hrest := mem_of_mem_release hc hused
      refine ⟨⟨hused, ?_⟩, ?_⟩
      · exact List.mem_append.mpr (hrest.imp_right (List.mem_cons_of_mem b))
      · rintro rfl
        exact hnodup.1 hrest
    · rintro ⟨⟨hused, hc⟩, hne⟩
      refine ⟨hused, mem_release_of_used ?_ hused⟩
      simpa [hne] using hc
  rw [used_middle, used_middle, hinner, or_and_right, and_iff_left_of_imp (used_ne hsep hb)]

/-- `kfree` takes the block back, and its header stays marked free. -/
theorem HeapInv.kfree_spec (hinv : HeapInv h Bs) (hb : Used Bs b) :
    ∃ h' Bs', kfree h b.payload = some h' ∧ HeapInv h' Bs' ∧ Returned Bs Bs' b ∧
      h'.mem.get b.addr MemoryPebble.lflags = pebbleFlagFree := by
  have hlt := hinv.payload_lt hb
  obtain ⟨pre, B, post, before, after, rfl, hblocks⟩ := HeapRep.used_cases hb
  have hwf := hinv.rep.wf B (by simp)
  obtain ⟨bprev, bnext, hpebble⟩ :=
    (hinv.rep.body (by simp : B ∈ pre ++ B :: post)).pebble (by simp [hblocks] : b ∈ B.blocks)
  have hkfree : kfree h b.payload = kfreePebble h b.addr := by
    have hne : b.payload ≠ 0 := Nat.succ_ne_zero _
    rw [kfree, if_neg hne, b.sub64_payload hlt]
    exact if_neg fun hmagic => hmagic hpebble.magic
  obtain ⟨m', B', hnew, hfreed⟩ := kfreePebble_spec hinv.rep hblocks
  have hreturned : Returned (pre ++ B :: post) (pre ++ B' :: post) b := fun c =>
    used_release hinv.rep.separate hblocks hnew
  have hcoalesced : Coalesced B'.blocks := by
    have hB := hinv.coalesced B (by simp)
    rw [hblocks] at hB
    rw [hnew]
    exact hB.release
  by_cases hremove : B'.idle = true ∧ pre ≠ []
  · obtain ⟨hrep, hcall⟩ := hfreed.removed hremove.1 hremove.2
    have hbelow := hinv.below B (by simp)
    have hword := h.vmm.kHeapEnd.toNat_lt
    have hstop := hwf.base_lt_stop
    simp only [BucketModel.stop] at hbelow hstop
    have hends : PageLoopEnds B.base B.pages := by
      intro hsum
      omega
    have hmunmap := munmap_eq h.vmm (by omega : B.base < 2 ^ 64) (by omega : B.pages < 2 ^ 64) hends
    have hend := munmap_kHeapEnd hmunmap
    rw [hmunmap] at hcall
    have hsub : ∀ C ∈ pre ++ post, C ∈ pre ++ B :: post := by
      intro C hC
      simpa using Or.imp_right Or.inr (List.mem_append.mp hC)
    -- an idle bucket has no block in use, so none goes with it
    have hidle : ∀ c, ¬ (c.inUse = true ∧ c ∈ B'.blocks) := by
      rintro c ⟨hused, hc⟩
      rw [inUse_of_idle hremove.1 hc] at hused
      cases hused
    refine ⟨_, pre ++ post, hkfree.trans hcall, ⟨hrep, fun C hC => hinv.coalesced C (hsub C hC),
      fun C hC => ?_⟩, fun c => ?_, hfreed.flags⟩
    · show C.stop ≤ (UInt64.toNat _)
      rw [hend]
      exact hinv.below C (hsub C hC)
    · rw [← hreturned c, used_middle, or_iff_right (hidle c)]
  · obtain ⟨hrep, hcall⟩ := hfreed.kept hremove
    refine ⟨_, _, hkfree.trans hcall, ⟨hrep, forall_replace hinv.coalesced hcoalesced,
      forall_replace hinv.below ?_⟩, hreturned, hfreed.flags⟩
    have hbelow := hinv.below B (by simp)
    rw [BucketModel.stop, hfreed.base_eq, hfreed.pages_eq]
    exact hbelow

end Free

/-! ## `krealloc` -/

/-- The payload size in the header of the pebble behind `ptr`. -/
def pebbleBytes (h : Heap) (ptr : Nat) : Nat :=
  h.mem.get (sub64 ptr MemoryPebble.sizeof) MemoryPebble.size

/-- Between `Bs` and `Bs'` the block `b` in use is replaced by the parts of its split. -/
def Cut (Bs Bs' : List BucketModel) (b : Block) (n : Nat) : Prop :=
  ∀ c, Used Bs' c ↔ Used Bs c ∧ c ≠ b ∨ c ∈ splitHead b n :: splitTail b n

section Realloc

variable {h : Heap} {Bs pre post : List BucketModel} {B B' : BucketModel} {b c : Block} {n : Nat}
  {before after : List Block}

theorem HeapInv.header (hinv : HeapInv h Bs) (hb : Used Bs b) :
    h.mem.get (sub64 b.payload MemoryPebble.sizeof) MemoryPebble.magic = kmallocMagicPebble ∧
      pebbleBytes h b.payload = b.size := by
  obtain ⟨B, -, prev, next, hpebble⟩ := hinv.rep.used_pebble hb
  rw [pebbleBytes, b.sub64_payload (hinv.payload_lt hb)]
  exact ⟨hpebble.magic, hpebble.size⟩

/-- The parts of a block in use are in use, so its neighbours do not matter. -/
theorem Coalesced.cut (hused : b.inUse = true) (h : Coalesced (before ++ b :: after)) :
    Coalesced (before ++ splitHead b n :: splitTail b n ++ after) := by
  obtain ⟨hbefore, hafter, -, -⟩ := Coalesced.middle_iff.mp h
  have hhead : (splitHead b n).inUse = true := by rw [splitHead_inUse, hused]
  have htail : Coalesced (splitTail b n ++ after) := by
    rw [splitTail]
    split
    case isTrue => exact List.isChain_cons.mpr ⟨fun _ _ => .inl hused, hafter⟩
    case isFalse => exact hafter
  rw [List.append_assoc, List.cons_append]
  exact Coalesced.middle_iff.mpr ⟨hbefore, htail, fun _ _ => .inr hhead, fun _ _ => .inl hhead⟩

/-- Of the blocks in use, splitting one replaces it by its parts. -/
theorem used_cut (hsep : Separate (pre ++ B :: post)) (hblocks : B.blocks = before ++ b :: after)
    (hused : b.inUse = true)
    (hnew : B'.blocks = before ++ splitHead b n :: splitTail b n ++ after) :
    Used (pre ++ B' :: post) c ↔
      Used (pre ++ B :: post) c ∧ c ≠ b ∨ c ∈ splitHead b n :: splitTail b n := by
  have hb : b ∈ B.blocks := by simp [hblocks]
  have hnodup := (hsep.wf B (by simp)).tiles.nodup
  rw [hblocks, List.nodup_middle, List.nodup_cons] at hnodup
  have hparts : c ∈ splitHead b n :: splitTail b n → c.inUse = true := by
    intro hc
    obtain rfl | hc := List.mem_cons.mp hc
    · rw [splitHead_inUse, hused]
    · rw [inUse_of_mem_splitTail hc, hused]
  have hinner : c.inUse = true ∧ c ∈ B'.blocks ↔
      (c.inUse = true ∧ c ∈ B.blocks) ∧ c ≠ b ∨ c ∈ splitHead b n :: splitTail b n := by
    have hmem : c ∈ B'.blocks ↔ c ∈ before ++ after ∨ c ∈ splitHead b n :: splitTail b n := by
      rw [hnew, List.mem_append, List.mem_append, List.mem_append, or_right_comm]
    have hrest : c ∈ before ++ after ↔ c ∈ B.blocks ∧ c ≠ b := by
      rw [hblocks, List.mem_append, List.mem_append, List.mem_cons]
      constructor
      · intro hc
        refine ⟨hc.imp_right .inr, ?_⟩
        rintro rfl
        exact hnodup.1 (List.mem_append.mpr hc)
      · rintro ⟨hc, hne⟩
        exact hc.imp_right fun hc => hc.resolve_left hne
    rw [hmem, hrest, and_or_left, and_assoc, and_iff_right_of_imp hparts]
  rw [used_middle, used_middle, hinner, or_and_right, and_iff_left_of_imp (used_ne hsep hb),
    or_right_comm]

/-- `krealloc` on a pebble that is large enough. -/
theorem krealloc_of_le (w : PayloadWrites) {ptr pebble bucket : Nat} {m : Mem} (hn : n ≠ 0)
    (hptr : ptr ≠ 0) (hpebble : sub64 ptr MemoryPebble.sizeof = pebble)
    (hmagic : h.mem.get pebble MemoryPebble.magic = kmallocMagicPebble)
    (hsize : n ≤ h.mem.get pebble MemoryPebble.size)
    (hparent : h.mem.get pebble MemoryPebble.parent = bucket)
    (hlock : h.mem.get bucket MemoryBucket.spinlock = 0)
    (hshrink : shrinkPebble (h.mem.put bucket MemoryBucket.spinlock 1) pebble n = m)
    (hparent' : m.get pebble MemoryPebble.parent = bucket) :
    krealloc w h ptr n = some (add64 pebble MemoryPebble.sizeof,
      { h with mem := m.put bucket MemoryBucket.spinlock 0 }) := by
  rw [krealloc, if_neg hn, if_neg hptr, hpebble]
  simp only [hmagic, hsize, ne_eq, not_true_eq_false, if_false, if_true, hparent,
    acquireSpinlock_eq hlock, Option.bind_eq_bind, Option.bind_some, hshrink, hparent',
    releaseSpinlock_eq]

/-- `krealloc` to no more than the block's size cuts the block, or leaves it whole. -/
theorem HeapInv.shrink_spec (w : PayloadWrites) (hinv : HeapInv h Bs) (hb : Used Bs b)
    (hn : n ≠ 0) (hsize : n ≤ b.size) (hfits : SplitFits b n) :
    ∃ h' Bs', krealloc w h b.payload n = some (b.payload, h') ∧ HeapInv h' Bs' ∧
      Cut Bs Bs' b n := by
  have hlt := hinv.payload_lt hb
  obtain ⟨hmagic, hbytes⟩ := hinv.header hb
  obtain ⟨pre, B, post, before, after, rfl, hblocks⟩ := HeapRep.used_cases hb
  have hB : B ∈ pre ++ B :: post := by simp
  have hmem : b ∈ B.blocks := by simp [hblocks]
  have hwf := hinv.rep.wf B hB
  have hat := (Chain.middle_iff.mp hinv.rep.chain).2.1
  obtain ⟨prev, next, hpebble⟩ := hat.body.pebble hmem
  have hlocked := hat.body.put_spinlock hwf 1
  obtain ⟨hbody, hchanges⟩ := splitPebble_body hlocked hwf hblocks hfits
  have hstep : BucketStep (h.mem.put B.base MemoryBucket.spinlock 1) B
      (splitPebble (h.mem.put B.base MemoryBucket.spinlock 1) b.addr n)
      (B.withBlocks (before ++ splitHead b n :: splitTail b n ++ after)) :=
    ⟨rfl, rfl, hwf.split hblocks hfits, hbody, hchanges⟩
  have hunlock := hstep.unlock hat.spinlock
  -- the split leaves the parent of the pebble
  have hfirst : splitHead b n ∈ before ++ splitHead b n :: splitTail b n ++ after :=
    List.mem_append_left _ (List.mem_append_right _ List.mem_cons_self)
  obtain ⟨_, _, hhead⟩ := hbody.pebble hfirst
  have hparent := hhead.parent
  rw [splitHead_addr, BucketModel.withBlocks_base] at hparent
  have hcoalesced := hinv.coalesced B hB
  rw [hblocks] at hcoalesced
  rw [pebbleBytes, b.sub64_payload hlt] at hbytes
  rw [b.sub64_payload hlt] at hmagic
  have hcall := krealloc_of_le w hn (Nat.succ_ne_zero _) (b.sub64_payload hlt) hmagic
    (hsize.trans_eq hbytes.symm) hpebble.parent hat.spinlock (shrinkPebble_eq hwf hmem) hparent
  rw [b.add64_addr hlt] at hcall
  exact ⟨_, _, hcall, hinv.step hunlock (hcoalesced.cut hb.1), fun c =>
    used_cut hinv.rep.separate hblocks hb.1 rfl⟩

end Realloc

end FroggyOs
