import FroggyOs.Klibc.Payloads
import FroggyOs.Klibc.Sections
import FroggyOs.Library.HeldLocks
import FroggyOs.Vmm.Release

/-!
# Lock discipline

The calls once more, with the locks that they hold: `kmalloc`, `kfree` and `krealloc` take
the spinlocks of buckets, and `grow_heap` below them takes `kheap_spinlock`. A call that takes
a lock it holds, or releases one that it does not hold, fails here. Except for `kfree`, which
looks the lock up again in the pebble that its merges have left, every function keeps the
discipline on any memory; `kfree` does so where that pebble has the parent it began with.
-/

namespace FroggyOs

open ByteMemory Word64 LinkedChain HeldLocks Loop64

attribute [local irreducible] bucketUpdateLargest placePebble meltPrev absorbNext pebbleSize
  bucketBytes

/-- The locks of the allocator: the `spinlock` of a bucket, and `kheap_spinlock`. -/
inductive SpinLock
  | bucket (address : Nat)
  | kheap
deriving DecidableEq

/-- The kernel heap together with the word `kheap_spinlock`. -/
structure KernelHeap where
  heap : Heap
  kheapSpinlock : Nat

/-- The heap with `kheap_spinlock` free. -/
def Heap.unlocked (h : Heap) : KernelHeap := ⟨h, 0⟩

/-- What a call returns, with `kheap_spinlock` free. -/
def unlockedResult (r : Nat × Heap) : Nat × KernelHeap := (r.1, r.2.unlocked)

/-! ## The calls with their locks -/

namespace Locked

/-- `acquire_spinlock(&bucket->spinlock)` -/
def acquireBucket (m : Mem) (bucket : Nat) : LockM SpinLock Mem := do
  lock (.bucket bucket)
  acquireSpinlock m (bucketSpinlock bucket)

/-- `release_spinlock(&bucket->spinlock)` -/
def releaseBucket (m : Mem) (bucket : Nat) : LockM SpinLock Mem := do
  unlock (.bucket bucket)
  return releaseSpinlock m (bucketSpinlock bucket)

/-- `acquire_spinlock(&kheap_spinlock)` -/
def acquireKheap (k : KernelHeap) : LockM SpinLock KernelHeap := do
  lock .kheap
  if k.kheapSpinlock &&& 1 ≠ 0 then failure
  else return { k with kheapSpinlock := k.kheapSpinlock ||| 1 }

/-- `release_spinlock(&kheap_spinlock)` -/
def releaseKheap (k : KernelHeap) : LockM SpinLock KernelHeap := do
  unlock .kheap
  return { k with kheapSpinlock := 0 }

def growHeap (k : KernelHeap) (size : Nat) : LockM SpinLock (Nat × KernelHeap) := do
  let k ← acquireKheap k
  let grown := k.heap.vmm.growHeap size
  let k ← releaseKheap { k with heap.vmm := grown.2 }
  return (grown.1, k)

def mmap (k : KernelHeap) (size : Nat) : LockM SpinLock (Nat × KernelHeap) := do
  let grown ← growHeap k size
  let regionStart := grown.1
  let k := grown.2
  if regionStart = 0 then return (0, k)
  else
    let vmm ← upto Vmm.visitPage (add64 regionStart size) 0x1000 (2 ^ 64) regionStart k.heap.vmm
    return (regionStart, { k with heap.vmm := vmm })

def createBucket (k : KernelHeap) (size flags : Nat) : LockM SpinLock (Nat × KernelHeap) := do
  let region ← mmap k (bucketBytes size / pageSize)
  let k := region.2
  if region.1 = 0 then return (0, k)
  else
    let m := initBucket k.heap.mem region.1 (bucketBytes size) flags
    return (region.1, { k with heap.mem := m })

def insertBucket (m : Mem) (bucket dest : Nat) : LockM SpinLock Mem :=
  if bucket ≠ 0 ∧ dest ≠ 0 then do
    let m ← acquireBucket m dest
    releaseBucket (updateNode m bucket dest) dest
  else return m

/-- The loop of `kmalloc` over the buckets, from `bucket` on. -/
def searchBuckets (need : Nat) : Nat → Nat → Mem → LockM SpinLock (Nat × Mem)
  | 0, _, _ => failure
  | fuel + 1, bucket, m =>
      if bucket = 0 then return (0, m)
      else do
        let m ← acquireBucket m bucket
        let placed ← tryBucket m bucket need
        if placed.1 ≠ 0 then
          let m ← bucketUpdateLargest placed.2 bucket
          let m ← releaseBucket m bucket
          return (add64 placed.1 MemoryPebble.sizeof, m)
        else
          let m ← releaseBucket placed.2 bucket
          searchBuckets need fuel (m.get bucket MemoryBucket.next) m

/-- The second half of `kmalloc`, in a bucket created for the request. -/
def allocInNewBucket (k : KernelHeap) (size need : Nat) : LockM SpinLock (Nat × KernelHeap) := do
  let created ← createBucket k size 0
  let bucket := created.1
  let k := created.2
  if bucket = 0 then return (0, k)
  else
    let m ← insertBucket k.heap.mem bucket k.heap.kHeapStart
    let m ← acquireBucket m bucket
    let placed ← placePebble m bucket need (0 ||| pebbleFlagInUse)
    let m ← bucketUpdateLargest placed.2 bucket
    let m ← releaseBucket m bucket
    return (if placed.1 ≠ 0 then add64 placed.1 MemoryPebble.sizeof else 0,
      { k with heap.mem := m })

/-- `kmalloc` up to its zero fill. -/
def obtainPebble (k : KernelHeap) (size : Nat) : LockM SpinLock (Nat × KernelHeap) := do
  let found ← searchBuckets (pebbleSize size) walkFuel k.heap.kHeapStart k.heap.mem
  let k := { k with heap.mem := found.2 }
  if found.1 = 0 then allocInNewBucket k size (pebbleSize size)
  else return (found.1, k)

def kmalloc (w : PayloadWrites) (k : KernelHeap) (size : Nat) :
    LockM SpinLock (Nat × KernelHeap) := do
  let size := requestSize size
  let result ← obtainPebble k size
  let k := result.2
  if result.1 ≠ 0 then
    return (result.1, { k with heap.mem := w.zero k.heap.mem result.1 size })
  else return (0, k)

/-- `kfree` behind its two tests. -/
def kfreePebble (h : Heap) (pebble : Nat) : LockM SpinLock Heap := do
  let m ← acquireBucket h.mem (h.mem.get pebble MemoryPebble.parent)
  let m := m.put pebble MemoryPebble.lflags pebbleFlagFree
  let m := m.put pebble MemoryPebble.alignment 1
  let melted ← meltPrev m pebble
  let pebble := melted.1
  let m ← absorbNext melted.2 pebble
  let m ← releaseBucket m (m.get pebble MemoryPebble.parent)
  let bucket := m.get pebble MemoryPebble.parent
  let first := m.get bucket MemoryBucket.first
  if isPebbleFree m first ∧ m.get first MemoryPebble.prev = 0 ∧
      m.get first MemoryPebble.next = 0 then
    removeBucket { h with mem := m } bucket
  else
    let m ← bucketUpdateLargest m bucket
    return { h with mem := m }

def kfree (k : KernelHeap) (ptr : Nat) : LockM SpinLock KernelHeap :=
  if ptr = 0 then return k
  else
    let pebble := sub64 ptr MemoryPebble.sizeof
    if k.heap.mem.get pebble MemoryPebble.magic ≠ kmallocMagicPebble then return k
    else do
      let heap ← kfreePebble k.heap pebble
      return { k with heap }

def krealloc (w : PayloadWrites) (k : KernelHeap) (ptr size : Nat) :
    LockM SpinLock (Nat × KernelHeap) :=
  if size = 0 then do
    let k ← kfree k ptr
    return (0, k)
  else if ptr = 0 then kmalloc w k size
  else
    let pebble := sub64 ptr MemoryPebble.sizeof
    if k.heap.mem.get pebble MemoryPebble.magic ≠ kmallocMagicPebble then return (0, k)
    else if size ≤ k.heap.mem.get pebble MemoryPebble.size then do
      let m ← acquireBucket k.heap.mem (k.heap.mem.get pebble MemoryPebble.parent)
      let m := shrinkPebble m pebble size
      let ret := add64 pebble MemoryPebble.sizeof
      let m ← releaseBucket m (m.get pebble MemoryPebble.parent)
      return (ret, { k with heap.mem := m })
    else do
      let result ← kmalloc w k size
      let k := result.2
      let k :=
        if result.1 ≠ 0 then { k with heap.mem := w.copy k.heap.mem result.1 ptr size } else k
      let k ← kfree k ptr
      return (result.1, k)

end Locked

/-! ## The discipline of each function -/

section Keeps

variable {α : Type} {f : Mem → LockM SpinLock α} {y : Option α} {held held' : List SpinLock}
  {m : Mem} {bucket dest need : Nat}

theorem keeps_acquireBucket (hbucket : .bucket bucket ∉ held) :
    Keeps held (Locked.acquireBucket m bucket) (acquireSpinlock m (bucketSpinlock bucket))
      (.bucket bucket :: held) :=
  Keeps.lock hbucket (Keeps.plain _ _)

/-- Releasing the lock taken last, and what comes behind. -/
theorem keeps_releaseBucket
    (hf : Keeps held (f (releaseSpinlock m (bucketSpinlock bucket))) y held') :
    Keeps (.bucket bucket :: held) (Locked.releaseBucket m bucket >>= f) y held' := by
  rw [Locked.releaseBucket, bind_assoc]
  exact Keeps.unlock hf

theorem keeps_insertBucket (hdest : .bucket dest ∉ held) :
    Keeps held (Locked.insertBucket m bucket dest) (insertBucket m bucket dest) held := by
  rw [Locked.insertBucket, insertBucket]
  refine .ite (fun _ => ?_) fun _ => .pure held m
  refine (keeps_acquireBucket hdest).bind fun m₁ _ => ?_
  exact Keeps.unlock (.pure held _)

theorem keeps_searchBuckets (need fuel bucket : Nat) (m : Mem) :
    Keeps [] (Locked.searchBuckets need fuel bucket m) (searchBuckets need fuel bucket m) [] := by
  induction fuel generalizing bucket m with
  | zero => rfl
  | succ fuel ih =>
      rw [Locked.searchBuckets, searchBuckets]
      refine .ite (fun _ => .pure [] _) fun _ => ?_
      refine (keeps_acquireBucket List.not_mem_nil).bind fun m₁ _ => ?_
      refine (Keeps.plain _ _).bind fun placed _ => ?_
      refine .ite (fun _ => ?_) fun _ => ?_
      · refine (Keeps.plain _ _).bind fun m₂ _ => ?_
        exact keeps_releaseBucket (.pure [] _)
      · exact keeps_releaseBucket (ih _ _)

theorem keeps_releaseKheap {k : KernelHeap} {f : KernelHeap → LockM SpinLock α}
    (hf : Keeps held (f { k with kheapSpinlock := 0 }) y held') :
    Keeps (.kheap :: held) (Locked.releaseKheap k >>= f) y held' := by
  rw [Locked.releaseKheap, bind_assoc]
  exact Keeps.unlock hf

/-- `grow_heap` takes and releases its lock whatever the size. -/
theorem keeps_growHeap (h : Heap) (size : Nat) :
    Keeps [] (Locked.growHeap h.unlocked size)
      (some ((h.vmm.growHeap size).1, { h with vmm := (h.vmm.growHeap size).2 }.unlocked)) [] := by
  have hfree : ¬ h.unlocked.kheapSpinlock &&& 1 ≠ 0 := by simp [Heap.unlocked]
  rw [Locked.growHeap, Locked.acquireKheap, if_neg hfree, bind_assoc]
  refine Keeps.lock List.not_mem_nil ?_
  rw [pure_bind]
  exact keeps_releaseKheap (.pure [] _)

theorem keeps_mmap (h : Heap) (size : Nat) :
    Keeps [] (Locked.mmap h.unlocked size)
      ((h.vmm.mmap size).map fun r => (r.1, { h with vmm := r.2 }.unlocked)) [] := by
  rw [Locked.mmap, Vmm.mmap]
  refine (keeps_growHeap h size).bind_some ?_
  refine .ite_map (fun _ => .pure [] _) fun _ => ?_
  rw [Option.map_map]
  exact (Keeps.plain [] _).returning _

theorem keeps_createBucket (h : Heap) (size flags : Nat) :
    Keeps [] (Locked.createBucket h.unlocked size flags)
      ((createBucket h size flags).map unlockedResult) [] := by
  rw [Locked.createBucket, createBucket]
  refine (keeps_mmap h _).bind_view fun region _ => ?_
  exact .ite_map (fun _ => .pure [] _) fun _ => .pure [] _

theorem keeps_allocInNewBucket (h : Heap) (size need : Nat) :
    Keeps [] (Locked.allocInNewBucket h.unlocked size need)
      ((allocInNewBucket h size need).map unlockedResult) [] := by
  rw [Locked.allocInNewBucket, allocInNewBucket]
  refine (keeps_createBucket h size 0).bind_view fun created _ => ?_
  refine .ite_map (fun _ => .pure [] _) fun _ => ?_
  refine (keeps_insertBucket List.not_mem_nil).bind_map fun m₁ _ => ?_
  refine (keeps_acquireBucket List.not_mem_nil).bind_map fun m₂ _ => ?_
  refine (Keeps.plain _ _).bind_map fun placed _ => ?_
  refine (Keeps.plain _ _).bind_map fun m₃ _ => ?_
  exact keeps_releaseBucket (.pure [] _)

theorem keeps_obtainPebble (h : Heap) (size : Nat) :
    Keeps [] (Locked.obtainPebble h.unlocked size)
      ((obtainPebble h size).map unlockedResult) [] := by
  rw [Locked.obtainPebble, obtainPebble]
  refine (keeps_searchBuckets _ _ _ _).bind_map fun found _ => ?_
  exact .ite_map (fun _ => keeps_allocInNewBucket _ _ _) fun _ => .pure [] _

theorem keeps_kmalloc (w : PayloadWrites) (h : Heap) (size : Nat) :
    Keeps [] (Locked.kmalloc w h.unlocked size) ((kmalloc w h size).map unlockedResult) [] := by
  rw [Locked.kmalloc, kmalloc]
  refine (keeps_obtainPebble h _).bind_view fun result _ => ?_
  exact .ite_map (fun _ => .pure [] _) fun _ => .pure [] _

/-- `kfree` looks up in the pebble that its merges have left the lock it has taken. -/
def FindsLockAgain (m : Mem) (pebble : Nat) : Prop :=
  ∀ m₁ melted m₂, acquireSpinlock m (bucketSpinlock (m.get pebble MemoryPebble.parent)) = some m₁ →
    meltPrev ((m₁.put pebble MemoryPebble.lflags pebbleFlagFree).put pebble
      MemoryPebble.alignment 1) pebble = some melted →
    absorbNext melted.2 melted.1 = some m₂ →
    m₂.get melted.1 MemoryPebble.parent = m.get pebble MemoryPebble.parent

theorem keeps_kfreePebble {h : Heap} {pebble : Nat} (hfinds : FindsLockAgain h.mem pebble) :
    Keeps [] (Locked.kfreePebble h pebble) (kfreePebble h pebble) [] := by
  rw [Locked.kfreePebble, kfreePebble]
  refine (keeps_acquireBucket List.not_mem_nil).bind fun m₁ hacquire => ?_
  refine (Keeps.plain _ _).bind fun melted hmelt => ?_
  refine (Keeps.plain _ _).bind fun m₂ habsorb => ?_
  rw [hfinds m₁ melted m₂ hacquire hmelt habsorb]
  refine keeps_releaseBucket ?_
  refine .ite (fun _ => .plain [] _) fun _ => ?_
  exact (Keeps.plain _ _).bind fun m₃ _ => .pure [] _

theorem keeps_kfree {h : Heap} {ptr : Nat}
    (hfinds : ptr ≠ 0 → FindsLockAgain h.mem (sub64 ptr MemoryPebble.sizeof)) :
    Keeps [] (Locked.kfree h.unlocked ptr) ((kfree h ptr).map Heap.unlocked) [] := by
  rw [Locked.kfree, kfree]
  refine .ite_map (fun _ => .pure [] _) fun hptr => ?_
  refine .ite_map (fun _ => .pure [] _) fun _ => ?_
  exact (keeps_kfreePebble (hfinds hptr)).returning _

theorem keeps_krealloc_grow {w : PayloadWrites} {h : Heap} {ptr size : Nat}
    (hsize : h.mem.get (sub64 ptr MemoryPebble.sizeof) MemoryPebble.size < size)
    (hfinds : ∀ r h', kmalloc w h size = some (r, h') →
      FindsLockAgain (if r ≠ 0 then w.copy h'.mem r ptr size else h'.mem)
        (sub64 ptr MemoryPebble.sizeof)) :
    Keeps [] (Locked.krealloc w h.unlocked ptr size)
      ((krealloc w h ptr size).map unlockedResult) [] := by
  have hgrows : ¬ size ≤ h.mem.get (sub64 ptr MemoryPebble.sizeof) MemoryPebble.size := by omega
  have hne : ¬ size = 0 := by omega
  rw [Locked.krealloc, krealloc, if_neg hne, if_neg hne]
  refine .ite_map (fun _ => keeps_kmalloc w h size) fun _ => ?_
  refine .ite_map (fun _ => .pure [] _) fun _ => ?_
  refine .ite_map (fun hle => absurd hle hgrows) fun _ => ?_
  refine (keeps_kmalloc w h size).bind_view fun result hresult => ?_
  obtain ⟨r, h'⟩ := result
  have hfinds := hfinds r h' hresult
  by_cases hr : r = 0
  · simp only [unlockedResult, hr, ne_eq, not_true_eq_false, if_false] at hfinds ⊢
    exact (keeps_kfree fun _ => hfinds).bind_view fun _ _ => .pure [] _
  · simp only [unlockedResult, hr, ne_eq, not_false_eq_true, if_true] at hfinds ⊢
    exact (keeps_kfree fun _ => hfinds).bind_view fun _ _ => .pure [] _

end Keeps

/-! ## Heaps -/

/-- The lists of the heap are well formed with every lock free, and the loop of `munmap` over
a bucket ends. -/
structure QuietHeap (h : Heap) (Bs : List BucketModel) : Prop where
  rep : HeapRep h.mem h.kHeapStart Bs
  ends : ∀ B ∈ Bs, PageLoopEnds B.base B.pages

/-- `mmap` returns a region that does not wrap around and overlaps no bucket, or `NULL`, if
`kmalloc` gets to it. -/
def MmapServes (h : Heap) (n : Nat) : Prop :=
  ∀ m, searchBuckets (pebbleSize (requestSize n)) walkFuel h.kHeapStart h.mem = some (0, m) →
    ∃ region vmm, h.vmm.mmap (bucketBytes (requestSize n) / pageSize) = some (region, vmm) ∧
      (region = 0 ∨ FreshRegion h region (bucketBytes (requestSize n)))

/-- `ptr` is the payload of a pebble in use. -/
def LivePointer (h : Heap) (ptr : Nat) : Prop :=
  ∃ bucket pebble, ListedBucket h bucket ∧ ListedPebble h.mem bucket pebble ∧
    isPebbleFree h.mem pebble = false ∧ ptr = add64 pebble MemoryPebble.sizeof

section Heaps

variable {h : Heap} {Bs pre post : List BucketModel} {B B' : BucketModel} {m : Mem} {n : Nat}
  {b : Block} {before after : List Block}

theorem BucketAt.findsLockAgain {prev next : Nat} (h : BucketAt 0 m B prev next) (hwf : B.WF)
    (hblocks : B.blocks = before ++ b :: after) : FindsLockAgain m b.addr := by
  have hpb : PebbleAt m B.base b _ _ := (Chain.middle_iff.mp (hblocks ▸ h.body.pebbles)).2.1
  obtain ⟨m₁, m₂, p, B', hmelt, habsorb, hparent, -⟩ :=
    freePebble_spec (h.body.put_spinlock hwf 1) hwf hblocks
  rw [FindsLockAgain, hpb.parent, acquireSpinlock_eq h.spinlock]
  rintro _ _ _ ⟨⟩ hmelted habsorbed
  rw [hmelt] at hmelted
  cases hmelted
  rw [habsorb] at habsorbed
  cases habsorbed
  exact hparent

theorem freshRegion_iff (hrep : HeapRep h.mem h.kHeapStart Bs) {region bytes : Nat} :
    FreshRegion h region bytes ↔ region + bytes ≤ 2 ^ 64 ∧
      ∀ C ∈ Bs, region + bytes ≤ C.base ∨ C.stop ≤ region := by
  refine and_congr_right fun _ => ⟨fun hfresh C hC => ?_, fun hfresh bucket hbucket => ?_⟩
  · have hlisted := hfresh C.base ((listedBucket_iff hrep).mpr ⟨C, hC, rfl⟩)
    rw [(hrep.body hC).size] at hlisted
    exact hlisted
  · obtain ⟨C, hC, rfl⟩ := (listedBucket_iff hrep).mp hbucket
    rw [(hrep.body hC).size]
    exact hfresh C hC

/-- A fresh region lies apart from the buckets of the list. -/
theorem FreshRegion.apart {region bytes : Nat} (hfresh : FreshRegion h region bytes)
    (hrep : HeapRep h.mem h.kHeapStart Bs) (hpages : bytes % 4096 = 0) :
    ∀ C ∈ Bs, Apart (freshBucket region bytes) C := by
  intro C hC
  have hlisted := ((freshRegion_iff hrep).mp hfresh).2 C hC
  simp only [Apart, freshBucket, BucketModel.stop] at hlisted ⊢
  omega

theorem FreshRegion.step {region bytes : Nat} (hfresh : FreshRegion h region bytes)
    (hrep : HeapRep h.mem h.kHeapStart (pre ++ B :: post)) (hstep : BucketStep h.mem B m B') :
    FreshRegion { h with mem := m } region bytes := by
  obtain ⟨hfits, hfresh⟩ := (freshRegion_iff hrep).mp hfresh
  refine (freshRegion_iff (h := { h with mem := m }) (hrep.step hstep)).mpr
    ⟨hfits, forall_replace hfresh ?_⟩
  rw [hstep.base_eq, hstep.stop_eq]
  exact hfresh B (by simp)

theorem QuietHeap.step (hquiet : QuietHeap h (pre ++ B :: post)) (hstep : BucketStep h.mem B m B') :
    QuietHeap { h with mem := m } (pre ++ B' :: post) := by
  refine ⟨hquiet.rep.step hstep, forall_replace hquiet.ends ?_⟩
  rw [hstep.base_eq, hstep.pages_eq]
  exact hquiet.ends B (by simp)

/-- Placing a request takes no block from its owner. -/
theorem Used.place {need p : Nat} (hplaced : Placed need B.blocks p B'.blocks)
    (hb : Used (pre ++ B :: post) b) : Used (pre ++ B' :: post) b := by
  rw [used_middle] at hb ⊢
  exact hb.imp_left fun hin => ⟨hin.1, hplaced.mem_of_used hin.2 hin.1⟩

/-- The half of `kmalloc` that creates a bucket. -/
theorem QuietHeap.allocInNewBucket {size region need : Nat} {vmm : Vmm} (hquiet : QuietHeap h Bs)
    (hsize : size < 2 ^ 47) (haligned : need % 64 = 0)
    (hmmap : h.vmm.mmap (bucketBytes size / pageSize) = some (region, vmm))
    (hfresh : region = 0 ∨ FreshRegion h region (bucketBytes size)) :
    ∃ r h' Bs', FroggyOs.allocInNewBucket h size need = some (r, h') ∧ QuietHeap h' Bs' ∧
      ∀ b, Used Bs b → Used Bs' b := by
  have hrep := hquiet.rep
  have hbytes := bucketBytes_eq (by omega : size + 4095 < 2 ^ 64)
  rw [allocInNewBucket_eq, createBucket, hmmap]
  by_cases hzero : region = 0
  · simp only [hzero, Option.bind_eq_bind, Option.bind_some, if_true]
    exact ⟨_, _, Bs, rfl, ⟨hrep, hquiet.ends⟩, fun _ hb => hb⟩
  · obtain ⟨A, post, rfl⟩ := List.exists_cons_of_ne_nil hrep.nonempty
    have hfresh := hfresh.resolve_left hzero
    have hwf := freshBucket_wf hzero (by omega : 124 ≤ bucketBytes size) (by omega) hfresh.1
    obtain ⟨m, hinsert, hrep'⟩ := hrep.create 0 hwf (by omega) (by omega)
      (hfresh.apart hrep (by omega))
    have hquiet' : QuietHeap { h with mem := m, vmm }
        ([A] ++ freshBucket region (bucketBytes size) :: post) := by
      obtain ⟨hA, hpost⟩ := List.forall_mem_cons.mp hquiet.ends
      refine ⟨hrep', List.forall_mem_cons.mpr ⟨hA, List.forall_mem_cons.mpr ⟨?_, hpost⟩⟩⟩
      -- a new bucket has 17 pages or more
      have hstop := hfresh.1
      simp only [PageLoopEnds, freshBucket]
      omega
    obtain ⟨p, m', N', hsection, hstep, hplaced, -⟩ :=
      placeSection_spec (Chain.middle_iff.mp hquiet'.rep.chain).2.1 hwf haligned
    rw [freshBucket_base] at hsection
    simp only [hzero, Option.bind_eq_bind, Option.bind_some, if_false, hinsert, hsection]
    refine ⟨_, _, _, rfl, hquiet'.step hstep, fun b hb => Used.place hplaced ?_⟩
    rw [used_middle]
    exact .inr hb

/-- `kmalloc` up to its zero fill returns, whatever it finds. -/
theorem QuietHeap.obtainPebble (hquiet : QuietHeap h Bs) (hn : n < 2 ^ 47)
    (hserves : MmapServes h n) :
    ∃ r h' Bs', FroggyOs.obtainPebble h (requestSize n) = some (r, h') ∧ QuietHeap h' Bs' ∧
      ∀ b, Used Bs b → Used Bs' b := by
  have hrep := hquiet.rep
  have hsize : requestSize n < 2 ^ 47 := by
    show (if n < 64 then 64 else n) < 2 ^ 47
    split
    case isTrue => decide
    case isFalse => exact hn
  have haligned := pebbleSize_aligned (requestSize n)
  have hspec := searchBuckets_spec hrep.chain hrep.wf haligned hrep.length_lt
  rw [hrep.head] at hspec
  obtain ⟨hcall, -⟩ |
    ⟨pre, B, post, before, b, after, m', B', rfl, -, hblocks, hfits, -, hcall, hstep, hnew,
      -⟩ := hspec
  · obtain ⟨region, vmm, hmmap, hfresh⟩ := hserves _ hcall
    rw [obtainPebble_eq hcall, if_pos rfl]
    exact hquiet.allocInNewBucket hsize haligned hmmap hfresh
  · have hplaced : Placed (pebbleSize (requestSize n)) B.blocks b.addr B'.blocks :=
      hnew ▸ .found before after b hblocks hfits
    have hquiet' := hquiet.step hstep
    rw [obtainPebble_eq hcall]
    split
    case isTrue hzero =>
      -- the payload of an empty pebble at the end of the address space is `NULL`
      rw [hzero] at hcall
      obtain ⟨region, vmm, hmmap, hfresh⟩ := hserves _ hcall
      obtain ⟨r, h', Bs', hcall', hquiet'', hused⟩ := hquiet'.allocInNewBucket hsize haligned hmmap
        (hfresh.imp_right fun hfresh => hfresh.step hrep hstep)
      exact ⟨r, h', Bs', hcall', hquiet'', fun b hb => hused b (Used.place hplaced hb)⟩
    case isFalse => exact ⟨_, _, _, rfl, hquiet', fun b hb => Used.place hplaced hb⟩

theorem QuietHeap.kmalloc (hquiet : QuietHeap h Bs) (hn : n < 2 ^ 47) (hserves : MmapServes h n) :
    ∃ r h' Bs', FroggyOs.kmalloc .none h n = some (r, h') ∧ QuietHeap h' Bs' ∧
      ∀ b, Used Bs b → Used Bs' b := by
  obtain ⟨r, h', Bs', hcall, hquiet', hused⟩ := hquiet.obtainPebble hn hserves
  refine ⟨r, h', Bs', ?_, hquiet', hused⟩
  rw [FroggyOs.kmalloc, hcall]
  by_cases hr : r = 0
  · simp [hr]
  · simp [hr, PayloadWrites.none]

/-- The payload of a block leads back to its header. -/
theorem sub64_add64_addr (hwf : B.WF) (hb : b ∈ B.blocks) :
    sub64 (add64 b.addr MemoryPebble.sizeof) MemoryPebble.sizeof = b.addr := by
  have hbounds := hwf.block_bounds hb
  have hfits := hwf.fits
  show ((b.addr + 60) % 2 ^ 64 + 2 ^ 64 - 60) % 2 ^ 64 = b.addr
  omega

theorem QuietHeap.kfree (hquiet : QuietHeap h Bs) (hb : Used Bs b) :
    FindsLockAgain h.mem b.addr ∧ ∃ h' Bs',
      FroggyOs.kfree h (add64 b.addr MemoryPebble.sizeof) = some h' ∧ QuietHeap h' Bs' := by
  obtain ⟨pre, B, post, before, after, rfl, hblocks⟩ := HeapRep.used_cases hb
  have hwf := hquiet.rep.wf B (by simp)
  have hmem : b ∈ B.blocks := by simp [hblocks]
  have hat := (Chain.middle_iff.mp hquiet.rep.chain).2.1
  refine ⟨hat.findsLockAgain hwf hblocks, ?_⟩
  obtain ⟨prev, next, hpebble⟩ := hat.body.pebble hmem
  by_cases hnull : add64 b.addr MemoryPebble.sizeof = 0
  · rw [hnull]
    exact ⟨h, _, rfl, hquiet⟩
  · have hcall : FroggyOs.kfree h (add64 b.addr MemoryPebble.sizeof) = kfreePebble h b.addr := by
      rw [FroggyOs.kfree, if_neg hnull, sub64_add64_addr hwf hmem]
      exact if_neg fun hmagic => hmagic hpebble.magic
    obtain ⟨m', B', -, hfreed⟩ := kfreePebble_spec hquiet.rep hblocks
    by_cases hremove : B'.idle = true ∧ pre ≠ []
    · obtain ⟨hrep, hremoved⟩ := hfreed.removed hremove.1 hremove.2
      have hends := hquiet.ends B (by simp)
      have hstop := hwf.base_lt_stop
      have hfits := hwf.fits
      simp only [BucketModel.stop] at hstop hfits
      rw [munmap_eq h.vmm (by omega) (by omega) hends] at hremoved
      refine ⟨_, _, hcall.trans hremoved, hrep, fun C hC => hquiet.ends C ?_⟩
      simpa using Or.imp_right Or.inr (List.mem_append.mp hC)
    · obtain ⟨hrep, hkept⟩ := hfreed.kept hremove
      refine ⟨_, _, hcall.trans hkept, hrep, forall_replace hquiet.ends ?_⟩
      rw [hfreed.base_eq, hfreed.pages_eq]
      exact hquiet.ends B (by simp)

theorem QuietHeap.exists_used {ptr : Nat} (hquiet : QuietHeap h Bs) (hlive : LivePointer h ptr) :
    ∃ b, Used Bs b ∧ ptr = add64 b.addr MemoryPebble.sizeof := by
  obtain ⟨bucket, pebble, hbucket, hpebble, hused, rfl⟩ := hlive
  obtain ⟨B, hB, rfl⟩ := (listedBucket_iff hquiet.rep).mp hbucket
  have hbody := hquiet.rep.body hB
  obtain ⟨b, hb, rfl⟩ := (listedPebble_iff hbody (hquiet.rep.wf B hB)).mp hpebble
  obtain ⟨prev, next, hat⟩ := hbody.pebble hb
  rw [hat.isPebbleFree_iff, Bool.not_eq_false'] at hused
  exact ⟨b, ⟨hused, B, hB, hb⟩, rfl⟩

end Heaps

/-! ## The calls -/

inductive AllocCall
  | kmalloc (size : Nat)
  | kfree (ptr : Nat)
  | krealloc (ptr size : Nat)

namespace AllocCall

/-- The call without payload writes. What `kfree` does not return is 0. -/
def run (k : KernelHeap) : AllocCall → LockM SpinLock (Nat × KernelHeap)
  | kmalloc size => Locked.kmalloc .none k size
  | kfree ptr => do
      let k ← Locked.kfree k ptr
      return (0, k)
  | krealloc ptr size => Locked.krealloc .none k ptr size

/-- The same call in the model without ghost locks. -/
def plain (h : Heap) : AllocCall → Option (Nat × Heap)
  | kmalloc size => FroggyOs.kmalloc .none h size
  | kfree ptr => (FroggyOs.kfree h ptr).map fun h => (0, h)
  | krealloc ptr size => FroggyOs.krealloc .none h ptr size

/-- A request below `2^47`, a live pointer or `NULL` to be freed, or a live block to grow. -/
def Allowed (h : Heap) : AllocCall → Prop
  | kmalloc size => size < 2 ^ 47 ∧ MmapServes h size
  | kfree ptr => ptr = 0 ∨ LivePointer h ptr
  | krealloc ptr size => LivePointer h ptr ∧
      h.mem.get (sub64 ptr MemoryPebble.sizeof) MemoryPebble.size < size ∧ size < 2 ^ 47 ∧
      MmapServes h size

variable {h : Heap} {k : KernelHeap} {Bs : List BucketModel} {c : AllocCall} {ptr size : Nat}

/-- The locks of a call and what it returns, by the kind of call. -/
def Disciplined (h : Heap) (c : AllocCall) : Prop :=
  Keeps [] (c.run h.unlocked) ((c.plain h).map unlockedResult) [] ∧
    ∃ r h' Bs', c.plain h = some (r, h') ∧ QuietHeap h' Bs'

theorem disciplined_kmalloc (hquiet : QuietHeap h Bs) (hsize : size < 2 ^ 47)
    (hserves : MmapServes h size) : Disciplined h (kmalloc size) := by
  obtain ⟨r, h', Bs', hcall, hquiet', -⟩ := hquiet.kmalloc hsize hserves
  exact ⟨keeps_kmalloc .none h size, r, h', Bs', hcall, hquiet'⟩

theorem disciplined_kfree {h' : Heap}
    (hfinds : ptr ≠ 0 → FindsLockAgain h.mem (sub64 ptr MemoryPebble.sizeof))
    (hcall : FroggyOs.kfree h ptr = some h') (hquiet : QuietHeap h' Bs) :
    Disciplined h (kfree ptr) := by
  have hkeeps := (keeps_kfree hfinds).returning fun k => (0, k)
  have hplain : plain h (kfree ptr) = some (0, h') := by rw [plain, hcall, Option.map_some]
  refine ⟨?_, 0, h', Bs, hplain, hquiet⟩
  rw [hcall] at hkeeps
  rw [hplain]
  exact hkeeps

theorem disciplined_krealloc (hquiet : QuietHeap h Bs) (hlive : LivePointer h ptr)
    (hgrows : h.mem.get (sub64 ptr MemoryPebble.sizeof) MemoryPebble.size < size)
    (hsize : size < 2 ^ 47) (hserves : MmapServes h size) : Disciplined h (krealloc ptr size) := by
  obtain ⟨b, hb, rfl⟩ := hquiet.exists_used hlive
  obtain ⟨r, h₁, Bs₁, hkmalloc, hquiet₁, hused⟩ := hquiet.kmalloc hsize hserves
  -- the block is still there when it is freed
  obtain ⟨hfinds, h₂, Bs₂, hkfree, hquiet₂⟩ := hquiet₁.kfree (hused b hb)
  obtain ⟨-, B, hB, hmem⟩ := id hb
  have hpebble := sub64_add64_addr (hquiet.rep.wf B hB) hmem
  obtain ⟨prev, next, hat⟩ := (hquiet.rep.body hB).pebble hmem
  refine ⟨keeps_krealloc_grow hgrows ?_, ?_⟩
  · intro r' h' hcall
    rw [hkmalloc] at hcall
    cases hcall
    rw [hpebble]
    split
    case isTrue => exact hfinds
    case isFalse => exact hfinds
  · have hne : ¬ size = 0 := by omega
    rw [hpebble] at hgrows
    rw [plain, FroggyOs.krealloc, if_neg hne, hpebble]
    by_cases hnull : add64 b.addr MemoryPebble.sizeof = 0
    · rw [if_pos hnull]
      exact ⟨r, h₁, Bs₁, hkmalloc, hquiet₁⟩
    · have hle : ¬ size ≤ h.mem.get b.addr MemoryPebble.size := by omega
      refine ⟨r, h₂, Bs₂, ?_, hquiet₂⟩
      simp only [hnull, hat.magic, hle, ne_eq, not_true_eq_false, if_false, hkmalloc,
        Option.bind_eq_bind, Option.bind_some]
      split
      case isTrue =>
        rw [PayloadWrites.none, hkfree]
        rfl
      case isFalse =>
        rw [hkfree]
        rfl

/-- What is allowed keeps the discipline. -/
theorem Allowed.disciplined (hquiet : QuietHeap h Bs) (hc : c.Allowed h) : Disciplined h c := by
  cases c with
  | kmalloc size => exact disciplined_kmalloc hquiet hc.1 hc.2
  | kfree ptr =>
      obtain rfl | hlive := hc
      · exact disciplined_kfree (fun hne => absurd rfl hne) rfl hquiet
      · obtain ⟨b, hb, rfl⟩ := hquiet.exists_used hlive
        obtain ⟨hfinds, h', Bs', hcall, hquiet'⟩ := hquiet.kfree hb
        obtain ⟨-, B, hB, hmem⟩ := hb
        rw [← sub64_add64_addr (hquiet.rep.wf B hB) hmem] at hfinds
        exact disciplined_kfree (fun _ => hfinds) hcall hquiet'
  | krealloc ptr size => exact disciplined_krealloc hquiet hc.1 hc.2.1 hc.2.2.1 hc.2.2.2

end AllocCall

/-- No call takes a lock that it holds or releases one that it does not hold, and every lock is
free when it returns. -/
theorem allocCall_keeps_locks {k : KernelHeap} {Bs : List BucketModel} {c : AllocCall}
    (hquiet : QuietHeap k.heap Bs) (hfree : k.kheapSpinlock = 0) (hc : c.Allowed k.heap) :
    ∃ r k', (c.run k).run [] = some ((r, k'), []) ∧ c.plain k.heap = some (r, k'.heap) ∧
      k'.kheapSpinlock = 0 ∧ (∃ Bs', QuietHeap k'.heap Bs') ∧
      ∀ bucket, ListedBucket k'.heap bucket → k'.heap.mem.get bucket MemoryBucket.spinlock = 0 := by
  obtain ⟨h, word⟩ := k
  subst hfree
  obtain ⟨hkeeps, r, h', Bs', hplain, hquiet'⟩ := hc.disciplined hquiet
  rw [hplain] at hkeeps
  refine ⟨r, h'.unlocked, hkeeps, hplain, rfl, ⟨Bs', hquiet'⟩, fun bucket hbucket => ?_⟩
  obtain ⟨B, hB, rfl⟩ := (listedBucket_iff hquiet'.rep).mp hbucket
  obtain ⟨prev, next, hat⟩ := Chain.exists_links hquiet'.rep.chain hB
  exact hat.spinlock

section Evaluation

theorem bootHeap_quiet : QuietHeap bootHeap [freshBucket 0x10000 69632] :=
  ⟨bootHeap_rep, by simpa [freshBucket] using (by decide : PageLoopEnds 0x10000 17)⟩

/-- A request of 17 pages is served by the pages behind the first bucket. -/
theorem bootHeap_mmapServes : MmapServes bootHeap 69632 := by
  intro m _
  have hbytes : bucketBytes (requestSize 69632) = 69632 := @bucketBytes_eq 69632 (by decide)
  have hmmap := (@mmap_eq bootHeap.vmm 17 (by decide) (by rw [bootHeap_kHeapEnd]; decide)).1
    (by rw [bootHeap_kHeapEnd]; decide)
  rw [hbytes]
  refine ⟨_, _, hmmap, .inr ?_⟩
  rw [freshRegion_iff bootHeap_rep, bootHeap_kHeapEnd]
  exact ⟨by decide, by simp [freshBucket, BucketModel.stop]⟩

theorem allocCall_keeps_locks_bootHeap : ∃ r k',
    ((AllocCall.kmalloc 69632).run bootHeap.unlocked).run [] = some ((r, k'), []) ∧
      k'.kheapSpinlock = 0 ∧ ∀ bucket, ListedBucket k'.heap bucket →
        k'.heap.mem.get bucket MemoryBucket.spinlock = 0 := by
  obtain ⟨r, k', hrun, -, hword, -, hlocks⟩ :=
    allocCall_keeps_locks (k := bootHeap.unlocked) (c := .kmalloc 69632) bootHeap_quiet rfl
      ⟨by decide, bootHeap_mmapServes⟩
  exact ⟨r, k', hrun, hword, hlocks⟩

end Evaluation

end FroggyOs
