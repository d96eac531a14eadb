import FroggyOs.Klibc.MemOps
import FroggyOs.Vmm.Basic

/-!
# The bucket allocator (`klibc/bucketalloc.c`)

The kernel heap is a list of buckets, regions from `mmap` that start with a 64-byte
header. A bucket is filled by pebbles, each a 60-byte header and its payload, linked in
address order. All headers live in the heap's own memory, so the functions here read
and write them byte for byte; a payload write that is too long reaches the next header.

The state is a `Heap`. A function returns `none` when its call does not return: a walk
along a list that does not end, an `mmap` that does not, or a spinlock found locked,
since nobody else runs to release it. `walkFuel` is longer than any list of nodes with
distinct addresses. Pointers are numbers, 0 is `NULL`.
-/

namespace FroggyOs

open ByteMemory Word64

/-! ## Layout and constants -/

namespace MemoryBucket

abbrev magic : Field := ⟨0, 4⟩
abbrev lflags : Field := ⟨4, 4⟩
abbrev largestFree : Field := ⟨8, 8⟩
abbrev size : Field := ⟨16, 8⟩
abbrev spinlock : Field := ⟨24, 4⟩
abbrev first : Field := ⟨40, 8⟩
abbrev prev : Field := ⟨48, 8⟩
abbrev next : Field := ⟨56, 8⟩

/-- `sizeof(memory_bucket_t)`, packed. -/
abbrev sizeof : Nat := 64

end MemoryBucket

namespace MemoryPebble

abbrev magic : Field := ⟨0, 4⟩
abbrev lflags : Field := ⟨4, 4⟩
abbrev alignment : Field := ⟨12, 4⟩
abbrev size : Field := ⟨16, 8⟩
abbrev parent : Field := ⟨36, 8⟩
abbrev prev : Field := ⟨44, 8⟩
abbrev next : Field := ⟨52, 8⟩

/-- `sizeof(memory_pebble_t)`, packed. -/
abbrev sizeof : Nat := 60

end MemoryPebble

def pageSize : Nat := 4096

/-- `MIN_INITIAL_ALLOC` -/
def minInitialAlloc : Nat := 65536 + MemoryBucket.sizeof + MemoryPebble.sizeof

/-- `'BUCK'` -/
def kmallocMagicBucket : Nat := 0x4255434B

/-- `'ROCK'` -/
def kmallocMagicPebble : Nat := 0x524F434B

def bucketFlagFirst : Nat := 0 <<< 0
def bucketFlagBest : Nat := 1 <<< 0

def pebbleFlagFree : Nat := 0 <<< 0
def pebbleFlagInUse : Nat := 1 <<< 0

def pebbleMinAlign : Nat := 64
def pebbleMinSize : Nat := 64

/-- Longer than any list of nodes at distinct addresses. -/
abbrev walkFuel : Nat := 2 ^ 64

/-- The kernel heap: its memory, the virtual memory manager behind it, and `KHEAPSTART`. -/
structure Heap where
  mem : Mem
  vmm : Vmm
  kHeapStart : Nat

/-! ## Spinlocks -/

def acquireSpinlock (m : Mem) (spin : Nat) : Option Mem :=
  if m.load spin 4 &&& 1 ≠ 0 then none else some (m.store spin 4 (m.load spin 4 ||| 1))

def releaseSpinlock (m : Mem) (spin : Nat) : Mem := m.store spin 4 0

/-- `&bucket->spinlock` -/
abbrev bucketSpinlock (bucket : Nat) : Nat := bucket + MemoryBucket.spinlock.offset

/-! ## Pebbles in one bucket -/

/-- `IS_PEBBLE_FREE` -/
def isPebbleFree (m : Mem) (p : Nat) : Bool :=
  m.get p MemoryPebble.lflags &&& pebbleFlagInUse == pebbleFlagFree

/-- `SPLIT_PEBBLE`: the left side clears bit 6 only. -/
@[irreducible] def splitPebbleTest (s0 s1 : Nat) : Bool :=
  sub64 (add64 s0 pebbleMinAlign) 1 &&& not64 pebbleMinSize >
    add64 (add64 s1 MemoryPebble.sizeof) pebbleMinSize

/-- The memory after the call. The pebble returned is `thisPebble` itself. -/
def splitPebble (m : Mem) (thisPebble srcSize : Nat) : Mem :=
  if splitPebbleTest (m.get thisPebble MemoryPebble.size) srcSize then
    let newSize := add64 srcSize (pebbleMinAlign - 1) &&& not64 (pebbleMinAlign - 1)
    let newPebble := add64 (add64 thisPebble MemoryPebble.sizeof) newSize
    let m := memcpy m newPebble thisPebble MemoryPebble.sizeof
    let m := m.put newPebble MemoryPebble.size
      (sub64 (sub64 (m.get thisPebble MemoryPebble.size) newSize) MemoryPebble.sizeof)
    let m := m.put newPebble MemoryPebble.alignment 1
    let m := m.put newPebble MemoryPebble.prev thisPebble
    let m :=
      if m.get thisPebble MemoryPebble.next ≠ 0 then
        m.put (m.get thisPebble MemoryPebble.next) MemoryPebble.prev newPebble
      else m
    let m := m.put thisPebble MemoryPebble.size newSize
    m.put thisPebble MemoryPebble.next newPebble
  else m

/-- The loop of the `BEST_FIT` method, from `start` on. -/
def bestFit (m : Mem) (neededSize : Nat) : Nat → Nat → Nat → Nat → Option Nat
  | 0, _, _, _ => none
  | fuel + 1, start, best, bestSize =>
      if start = 0 then some best
      else if isPebbleFree m start && decide (neededSize ≤ m.get start MemoryPebble.size) &&
          decide (m.get start MemoryPebble.size < bestSize) then
        bestFit m neededSize fuel (m.get start MemoryPebble.next) start
          (m.get start MemoryPebble.size)
      else bestFit m neededSize fuel (m.get start MemoryPebble.next) best bestSize

/-- The search of the `FIRST_FOUND` method, from `start` on. -/
def firstFit (m : Mem) (neededSize : Nat) : Nat → Nat → Option Nat
  | 0, _ => none
  | fuel + 1, start =>
      if start = 0 then some 0
      else if isPebbleFree m start && decide (neededSize ≤ m.get start MemoryPebble.size) then
        some start
      else firstFit m neededSize fuel (m.get start MemoryPebble.next)

/-- The search of `place_pebble`, by the method the bucket's flags ask for. -/
def searchPebbles (m : Mem) (bucket size : Nat) : Option Nat :=
  let start := m.get bucket MemoryBucket.first
  if m.get bucket MemoryBucket.lflags &&& bucketFlagBest ≠ 0 then
    bestFit m size walkFuel start 0 (2 ^ 64 - 1)
  else firstFit m size walkFuel start

/-- Of the pebble to be placed only `size` and `lflags` are read. -/
def placePebble (m : Mem) (bucket size lflags : Nat) : Option (Nat × Mem) := do
  let found ← searchPebbles m bucket size
  if found = 0 then some (0, m)
  else some (found, (splitPebble m found size).put found MemoryPebble.lflags lflags)

/-- The loop of `bucket_update_largest`. -/
def largestFrom (m : Mem) : Nat → Nat → Nat → Option Nat
  | 0, _, _ => none
  | fuel + 1, p, ret =>
      if p = 0 then some ret
      else
        largestFrom m fuel (m.get p MemoryPebble.next)
          (if m.get p MemoryPebble.size > ret then m.get p MemoryPebble.size else ret)

def bucketUpdateLargest (m : Mem) (bucket : Nat) : Option Mem := do
  let ret ← largestFrom m walkFuel (m.get bucket MemoryBucket.first) 0
  some (m.put bucket MemoryBucket.largestFree ret)

/-- The memory after the call. The pebble returned is `pebble` itself. -/
def absorbNext (m : Mem) (pebble : Nat) : Option Mem :=
  if (pebble ≠ 0 ∧ m.get pebble MemoryPebble.next ≠ 0) ∧
      isPebbleFree m pebble ∧ isPebbleFree m (m.get pebble MemoryPebble.next) then
    let m :=
      if m.get (m.get pebble MemoryPebble.parent) MemoryBucket.first =
          m.get pebble MemoryPebble.next then
        m.put (m.get pebble MemoryPebble.parent) MemoryBucket.first pebble
      else m
    let next := m.get pebble MemoryPebble.next
    let m := m.put pebble MemoryPebble.size (add64 (m.get pebble MemoryPebble.size)
      (add64 (m.get next MemoryPebble.size) MemoryPebble.sizeof))
    let m := m.put pebble MemoryPebble.next (m.get next MemoryPebble.next)
    let m :=
      if m.get pebble MemoryPebble.next ≠ 0 then
        m.put (m.get pebble MemoryPebble.next) MemoryPebble.prev pebble
      else m
    bucketUpdateLargest m (m.get pebble MemoryPebble.parent)
  else some m

def meltPrev (m : Mem) (pebble : Nat) : Option (Nat × Mem) :=
  if (pebble ≠ 0 ∧ m.get pebble MemoryPebble.prev ≠ 0) ∧
      isPebbleFree m pebble ∧ isPebbleFree m (m.get pebble MemoryPebble.prev) then do
    let m :=
      if m.get (m.get pebble MemoryPebble.parent) MemoryBucket.first = pebble then
        m.put (m.get pebble MemoryPebble.parent) MemoryBucket.first
          (m.get pebble MemoryPebble.prev)
      else m
    let m := m.put (m.get pebble MemoryPebble.prev) MemoryPebble.size
      (add64 (m.get (m.get pebble MemoryPebble.prev) MemoryPebble.size)
        (add64 (m.get pebble MemoryPebble.size) MemoryPebble.sizeof))
    let m := m.put (m.get pebble MemoryPebble.prev) MemoryPebble.next
      (m.get pebble MemoryPebble.next)
    let m :=
      if m.get pebble MemoryPebble.next ≠ 0 then
        m.put (m.get pebble MemoryPebble.next) MemoryPebble.prev (m.get pebble MemoryPebble.prev)
      else m
    let prev := m.get pebble MemoryPebble.prev
    let m ← bucketUpdateLargest m (m.get prev MemoryPebble.parent)
    some (prev, m)
  else some (pebble, m)

/-- The pebble returned is `pebble` itself, also when it is `NULL`. -/
def shrinkPebble (m : Mem) (pebble size : Nat) : Mem :=
  if pebble ≠ 0 then splitPebble m pebble size else m

/-! ## The list of buckets -/

/-- The headers `create_bucket` writes at `bucket`. -/
def initBucket (m : Mem) (bucket size flags : Nat) : Mem :=
  let m := m.put bucket MemoryBucket.magic kmallocMagicBucket
  let m := m.put bucket MemoryBucket.lflags (flags <<< 8 ||| bucketFlagFirst)
  let m := m.put bucket MemoryBucket.size (size / pageSize)
  let m := m.put bucket MemoryBucket.largestFree
    (sub64 (sub64 size MemoryBucket.sizeof) MemoryPebble.sizeof)
  let m := m.put bucket MemoryBucket.prev 0
  let m := m.put bucket MemoryBucket.next 0
  let m := m.put bucket MemoryBucket.spinlock 0
  let first := add64 bucket MemoryBucket.sizeof
  let m := m.put bucket MemoryBucket.first first
  let m := m.put first MemoryPebble.magic kmallocMagicPebble
  let m := m.put first MemoryPebble.lflags (0 ||| pebbleFlagFree)
  let m := m.put first MemoryPebble.alignment 1
  let m := m.put first MemoryPebble.size (m.get bucket MemoryBucket.largestFree)
  let m := m.put first MemoryPebble.parent bucket
  let m := m.put first MemoryPebble.prev 0
  m.put first MemoryPebble.next 0

/-- The bytes `create_bucket` asks `mmap` for: at least `MIN_INITIAL_ALLOC`, rounded up
to whole pages. -/
def bucketBytes (size : Nat) : Nat :=
  add64 (if size < minInitialAlloc then minInitialAlloc else size) (pageSize - 1) &&&
    not64 (pageSize - 1)

/-- Returns the bucket, or 0 for `NULL`. -/
def createBucket (h : Heap) (size flags : Nat) : Option (Nat × Heap) := do
  let region ← h.vmm.mmap (bucketBytes size / pageSize)
  let h := { h with vmm := region.2 }
  if region.1 = 0 then some (0, h)
  else some (region.1, { h with mem := initBucket h.mem region.1 (bucketBytes size) flags })

/-- `UPDATE_NODE` -/
def updateNode (m : Mem) (p0 p1 : Nat) : Mem :=
  let m := m.put p0 MemoryBucket.next (m.get p1 MemoryBucket.next)
  let m := m.put p1 MemoryBucket.next p0
  let m := m.put p0 MemoryBucket.prev p1
  if m.get p0 MemoryBucket.next ≠ 0 then
    m.put (m.get p0 MemoryBucket.next) MemoryBucket.prev p0
  else m

def insertBucket (m : Mem) (bucket dest : Nat) : Option Mem :=
  if bucket ≠ 0 ∧ dest ≠ 0 then do
    let m ← acquireSpinlock m (bucketSpinlock dest)
    some (releaseSpinlock (updateNode m bucket dest) (bucketSpinlock dest))
  else some m

/-- The links `remove_bucket` writes. -/
def unlinkBucket (m : Mem) (bucket : Nat) : Mem :=
  let m :=
    if m.get bucket MemoryBucket.prev ≠ 0 then
      m.put (m.get bucket MemoryBucket.prev) MemoryBucket.next (m.get bucket MemoryBucket.next)
    else m
  if m.get bucket MemoryBucket.next ≠ 0 then
    m.put (m.get bucket MemoryBucket.next) MemoryBucket.prev (m.get bucket MemoryBucket.prev)
  else m

def removeBucket (h : Heap) (bucket : Nat) : Option Heap :=
  if bucket ≠ 0 ∧ bucket ≠ h.kHeapStart then do
    let h := { h with mem := unlinkBucket h.mem bucket }
    let vmm ← h.vmm.munmap bucket (h.mem.get bucket MemoryBucket.size)
    some { h with vmm }
  else some h

def kmallocInit (h : Heap) (size : Nat) : Option (Nat × Heap) :=
  createBucket h size (0 ||| bucketFlagFirst)

/-! ## The public interface -/

/-- The writes to payloads: the zero fill of `kmalloc` and the copy of `krealloc`. -/
structure PayloadWrites where
  zero : Mem → Nat → Nat → Mem
  copy : Mem → Nat → Nat → Nat → Mem

/-- The writes as the code makes them. -/
def PayloadWrites.real : PayloadWrites where
  zero m ret size := memset m ret 0 size
  copy m ret ptr size := memcpy m ret ptr size

/-- Payload writes left out: only headers change. -/
def PayloadWrites.none : PayloadWrites where
  zero m _ _ := m
  copy m _ _ _ := m

/-- The size `kmalloc` gives the pebble to be placed. -/
def pebbleSize (size : Nat) : Nat := add64 size (pebbleMinAlign - 1) &&& not64 (pageSize - 1)

/-- The call of `place_pebble` in the loop of `kmalloc`, made when the bucket's largest
pebble is large enough. -/
def tryBucket (m : Mem) (bucket need : Nat) : Option (Nat × Mem) :=
  if m.get bucket MemoryBucket.largestFree ≥ need then
    placePebble m bucket need (0 ||| pebbleFlagInUse)
  else some (0, m)

/-- The loop of `kmalloc` over the buckets, from `bucket` on. -/
def searchBuckets (need : Nat) : Nat → Nat → Mem → Option (Nat × Mem)
  | 0, _, _ => none
  | fuel + 1, bucket, m =>
      if bucket = 0 then some (0, m)
      else do
        let m ← acquireSpinlock m (bucketSpinlock bucket)
        let placed ← tryBucket m bucket need
        if placed.1 ≠ 0 then
          let m ← bucketUpdateLargest placed.2 bucket
          some (add64 placed.1 MemoryPebble.sizeof, releaseSpinlock m (bucketSpinlock bucket))
        else
          let m := releaseSpinlock placed.2 (bucketSpinlock bucket)
          searchBuckets need fuel (m.get bucket MemoryBucket.next) m

/-- The second half of `kmalloc`, in a bucket created for the request. -/
def allocInNewBucket (h : Heap) (size need : Nat) : Option (Nat × Heap) := do
  let created ← createBucket h size 0
  let bucket := created.1
  let h := created.2
  if bucket = 0 then some (0, h)
  else
    let m ← insertBucket h.mem bucket h.kHeapStart
    let m ← acquireSpinlock m (bucketSpinlock bucket)
    let placed ← placePebble m bucket need (0 ||| pebbleFlagInUse)
    let m ← bucketUpdateLargest placed.2 bucket
    let h := { h with mem := releaseSpinlock m (bucketSpinlock bucket) }
    some (if placed.1 ≠ 0 then add64 placed.1 MemoryPebble.sizeof else 0, h)

/-- `kmalloc` up to its zero fill. -/
def obtainPebble (h : Heap) (size : Nat) : Option (Nat × Heap) := do
  let found ← searchBuckets (pebbleSize size) walkFuel h.kHeapStart h.mem
  let h := { h with mem := found.2 }
  if found.1 = 0 then allocInNewBucket h size (pebbleSize size)
  else some (found.1, h)

/-- The raise to `PEBBLE_MIN_SIZE` in `kmalloc`. -/
def requestSize (size : Nat) : Nat := if size < pebbleMinSize then pebbleMinSize else size

/-- Returns the payload, or 0 for `NULL`. -/
def kmalloc (w : PayloadWrites) (h : Heap) (size : Nat) : Option (Nat × Heap) := do
  let size := requestSize size
  let result ← obtainPebble h size
  let h := result.2
  if result.1 ≠ 0 then some (result.1, { h with mem := w.zero h.mem result.1 size })
  else some (0, h)

/-- `kfree` behind its two tests. -/
def kfreePebble (h : Heap) (pebble : Nat) : Option Heap := do
  let m ← acquireSpinlock h.mem (bucketSpinlock (h.mem.get pebble MemoryPebble.parent))
  let m := m.put pebble MemoryPebble.lflags pebbleFlagFree
  let m := m.put pebble MemoryPebble.alignment 1
  let melted ← meltPrev m pebble
  let pebble := melted.1
  let m ← absorbNext melted.2 pebble
  let m := releaseSpinlock m (bucketSpinlock (m.get pebble MemoryPebble.parent))
  let bucket := m.get pebble MemoryPebble.parent
  let first := m.get bucket MemoryBucket.first
  if isPebbleFree m first ∧ m.get first MemoryPebble.prev = 0 ∧
      m.get first MemoryPebble.next = 0 then
    removeBucket { h with mem := m } bucket
  else
    let m ← bucketUpdateLargest m bucket
    some { h with mem := m }

def kfree (h : Heap) (ptr : Nat) : Option Heap :=
  if ptr = 0 then some h
  else
    let pebble := sub64 ptr MemoryPebble.sizeof
    if h.mem.get pebble MemoryPebble.magic ≠ kmallocMagicPebble then some h
    else kfreePebble h pebble

/-- Returns the payload, or 0 for `NULL`. -/
def krealloc (w : PayloadWrites) (h : Heap) (ptr size : Nat) : Option (Nat × Heap) :=
  if size = 0 then do
    let h ← kfree h ptr
    some (0, h)
  else if ptr = 0 then kmalloc w h size
  else
    let pebble := sub64 ptr MemoryPebble.sizeof
    if h.mem.get pebble MemoryPebble.magic ≠ kmallocMagicPebble then some (0, h)
    else if size ≤ h.mem.get pebble MemoryPebble.size then do
      let m ← acquireSpinlock h.mem (bucketSpinlock (h.mem.get pebble MemoryPebble.parent))
      let m := shrinkPebble m pebble size
      let ret := add64 pebble MemoryPebble.sizeof
      let m := releaseSpinlock m (bucketSpinlock (m.get pebble MemoryPebble.parent))
      some (ret, { h with mem := m })
    else do
      let result ← kmalloc w h size
      let h := result.2
      let h :=
        if result.1 ≠ 0 then { h with mem := w.copy h.mem result.1 ptr size } else h
      let h ← kfree h ptr
      some (result.1, h)

end FroggyOs
