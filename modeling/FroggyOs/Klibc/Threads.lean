import FroggyOs.Klibc.Arena
import FroggyOs.Klibc.Sections
import FroggyOs.Library.Interleaving

/-!
# Concurrent calls of `kmalloc` and `kfree`

Any number of threads call `kmalloc` and `kfree` on one heap. A section under a bucket's
spinlock is one step, and so are `create_bucket`, `insert_bucket` and each statement that
`kfree` executes behind its section. A thread frees a payload that `kmalloc` has returned
and nobody has freed since; `kfree(NULL)` does nothing and is left out.

The memory of a removed bucket stays readable here. On the machine a thread that still holds
its address runs into a page fault, and the heap never hands the address out again.
-/

namespace FroggyOs

open ByteMemory Word64 LinkedChain Function Interleaving

/-! ## Threads -/

/-- Where a thread is in `kmalloc` or `kfree`, with the values it holds. The size in `kmalloc`
has been raised to `PEBBLE_MIN_SIZE`. -/
inductive CallPc
  | idle
  /-- at the head of the loop of `kmalloc` -/
  | scanning (size bucket : Nat)
  /-- before `bucket = bucket->next` -/
  | advancing (size bucket : Nat)
  /-- before `create_bucket` -/
  | creating (size : Nat)
  /-- before `insert_bucket` -/
  | inserting (size bucket : Nat)
  /-- before the section in the new bucket -/
  | placing (size bucket : Nat)
  /-- before the zero fill -/
  | zeroing (size ret : Nat)
  /-- before the test of the magic number in `kfree` -/
  | freeing (ptr : Nat)
  /-- before `bucket = pebble->parent`; the section was the one of `locked` -/
  | reading (pebble locked : Nat)
  /-- before the emptiness test -/
  | testing (bucket : Nat)
  /-- before `remove_bucket` -/
  | removing (bucket : Nat)
  /-- before `bucket_update_largest` -/
  | updating (bucket : Nat)

/-- The payload that belongs to the thread alone. -/
def CallPc.payload : CallPc → Option Nat
  | zeroing _ ret => some ret
  | freeing ptr => some ptr
  | _ => none

/-- The thread has created the bucket and not yet placed its own request there. -/
def CallPc.Owns (size bucket : Nat) (pc : CallPc) : Prop :=
  pc = .inserting size bucket ∨ pc = .placing size bucket

inductive HeapCall
  | kmalloc (size : Nat)
  | kfree (ptr : Nat)

/-- The heap and its callers. -/
structure CallState (Thread : Type*) where
  heap : Heap
  pc : Thread → CallPc
  /-- the payloads returned by `kmalloc` and not passed to `kfree` -/
  live : List Nat
  /-- for each call of `kmalloc` that returned `NULL`, what its `create_bucket` had returned -/
  failed : List Nat

variable {Thread : Type*} [DecidableEq Thread]

/-- The thread `t` moves on. -/
def CallState.goto (s : CallState Thread) (t : Thread) (pc : CallPc) : CallState Thread :=
  { s with pc := update s.pc t pc }

def CallState.withMem (s : CallState Thread) (m : Mem) : CallState Thread :=
  { s with heap.mem := m }

section Goto

variable (s : CallState Thread) (t : Thread) (pc next : CallPc)

@[simp] theorem CallState.goto_heap : (s.goto t pc).heap = s.heap := rfl

@[simp] theorem CallState.goto_live : (s.goto t pc).live = s.live := rfl

@[simp] theorem CallState.goto_failed : (s.goto t pc).failed = s.failed := rfl

theorem goto_pc : (s.goto t pc).pc t = pc := update_self ..

theorem goto_pc_of_ne {u : Thread} (hu : u ≠ t) : (s.goto t pc).pc u = s.pc u := update_of_ne hu ..

theorem goto_goto : (s.goto t pc).goto t next = s.goto t next := by
  simp only [CallState.goto, update_idem]

end Goto

/-- One step of the thread `t`, which makes calls from `calls`. -/
inductive CallStep (calls : Set HeapCall) (t : Thread) :
    CallState Thread → CallState Thread → Prop
  | kmalloc {s : CallState Thread} {n : Nat} (hpc : s.pc t = .idle)
      (hcall : HeapCall.kmalloc n ∈ calls) (hn : n < 2 ^ 64) :
      CallStep calls t s (s.goto t (.scanning (requestSize n) s.heap.kHeapStart))
  | scanHit {s : CallState Thread} {size bucket p : Nat} {m : Mem}
      (hpc : s.pc t = .scanning size bucket) (hne : bucket ≠ 0)
      (hsection : scanSection s.heap.mem bucket (pebbleSize size) = some (p, m)) (hp : p ≠ 0) :
      CallStep calls t s
        ((s.withMem m).goto t (.zeroing size (add64 p MemoryPebble.sizeof)))
  | scanMiss {s : CallState Thread} {size bucket : Nat} {m : Mem}
      (hpc : s.pc t = .scanning size bucket) (hne : bucket ≠ 0)
      (hsection : scanSection s.heap.mem bucket (pebbleSize size) = some (0, m)) :
      CallStep calls t s ((s.withMem m).goto t (.advancing size bucket))
  | advance {s : CallState Thread} {size bucket : Nat} (hpc : s.pc t = .advancing size bucket) :
      CallStep calls t s
        (s.goto t (.scanning size (s.heap.mem.get bucket MemoryBucket.next)))
  | scanned {s : CallState Thread} {size : Nat} (hpc : s.pc t = .scanning size 0) :
      CallStep calls t s (s.goto t (.creating size))
  | create {s : CallState Thread} {size bucket : Nat} {h : Heap} (hpc : s.pc t = .creating size)
      (hcreate : createBucket s.heap size 0 = some (bucket, h)) (hne : bucket ≠ 0) :
      CallStep calls t s ({ s with heap := h }.goto t (.inserting size bucket))
  | createFailed {s : CallState Thread} {size : Nat} {h : Heap} (hpc : s.pc t = .creating size)
      (hcreate : createBucket s.heap size 0 = some (0, h)) :
      CallStep calls t s ({ s with heap := h, failed := 0 :: s.failed }.goto t .idle)
  | insert {s : CallState Thread} {size bucket : Nat} {m : Mem}
      (hpc : s.pc t = .inserting size bucket)
      (hinsert : insertBucket s.heap.mem bucket s.heap.kHeapStart = some m) :
      CallStep calls t s ((s.withMem m).goto t (.placing size bucket))
  | place {s : CallState Thread} {size bucket p : Nat} {m : Mem}
      (hpc : s.pc t = .placing size bucket)
      (hsection : placeSection s.heap.mem bucket (pebbleSize size) = some (p, m)) (hp : p ≠ 0) :
      CallStep calls t s
        ((s.withMem m).goto t (.zeroing size (add64 p MemoryPebble.sizeof)))
  | placeFailed {s : CallState Thread} {size bucket : Nat} {m : Mem}
      (hpc : s.pc t = .placing size bucket)
      (hsection : placeSection s.heap.mem bucket (pebbleSize size) = some (0, m)) :
      CallStep calls t s ({ s.withMem m with failed := bucket :: s.failed }.goto t .idle)
  | zero {s : CallState Thread} {size ret : Nat} (hpc : s.pc t = .zeroing size ret) :
      CallStep calls t s
        ({ s.withMem (memset s.heap.mem ret 0 size) with live := ret :: s.live }.goto t .idle)
  | kfree {s : CallState Thread} {ptr : Nat} (hpc : s.pc t = .idle)
      (hcall : HeapCall.kfree ptr ∈ calls) (hlive : ptr ∈ s.live) :
      CallStep calls t s ({ s with live := s.live.erase ptr }.goto t (.freeing ptr))
  | refuse {s : CallState Thread} {ptr : Nat} (hpc : s.pc t = .freeing ptr)
      (hmagic : s.heap.mem.get (sub64 ptr MemoryPebble.sizeof) MemoryPebble.magic ≠
        kmallocMagicPebble) :
      CallStep calls t s (s.goto t .idle)
  | free {s : CallState Thread} {ptr p : Nat} {m : Mem} (hpc : s.pc t = .freeing ptr)
      (hmagic : s.heap.mem.get (sub64 ptr MemoryPebble.sizeof) MemoryPebble.magic =
        kmallocMagicPebble)
      (hsection : freeSection s.heap.mem (sub64 ptr MemoryPebble.sizeof) = some (p, m)) :
      CallStep calls t s ((s.withMem m).goto t
        (.reading p (s.heap.mem.get (sub64 ptr MemoryPebble.sizeof) MemoryPebble.parent)))
  | readParent {s : CallState Thread} {pebble locked : Nat}
      (hpc : s.pc t = .reading pebble locked) :
      CallStep calls t s (s.goto t (.testing (s.heap.mem.get pebble MemoryPebble.parent)))
  | testPassed {s : CallState Thread} {bucket : Nat} (hpc : s.pc t = .testing bucket)
      (htest : BucketEmpty s.heap.mem bucket) : CallStep calls t s (s.goto t (.removing bucket))
  | testFailed {s : CallState Thread} {bucket : Nat} (hpc : s.pc t = .testing bucket)
      (htest : ¬ BucketEmpty s.heap.mem bucket) :
      CallStep calls t s (s.goto t (.updating bucket))
  | remove {s : CallState Thread} {bucket : Nat} {h : Heap} (hpc : s.pc t = .removing bucket)
      (hremove : removeBucket s.heap bucket = some h) :
      CallStep calls t s ({ s with heap := h }.goto t .idle)
  | update {s : CallState Thread} {bucket : Nat} {m : Mem} (hpc : s.pc t = .updating bucket)
      (hupdate : bucketUpdateLargest s.heap.mem bucket = some m) :
      CallStep calls t s ((s.withMem m).goto t .idle)

/-! ## Runs -/

/-- The heap `kmalloc_init` leaves, its first bucket at `KHEAPSTART`. -/
def Started (h : Heap) : Prop :=
  ∃ h₀ size, kmallocInit h₀ size = some (h₀.kHeapStart, h) ∧ h₀.kHeapStart ≠ 0 ∧
    RegionInRange h₀ size

theorem emptyHeap_regionInRange : RegionInRange emptyHeap 0x1000 := by
  have hbytes : bucketBytes 0x1000 = 69632 := @bucketBytes_eq 0x1000 (by decide)
  rw [RegionInRange, hbytes]
  decide

theorem bootHeap_started : Started bootHeap :=
  ⟨emptyHeap, 0x1000, kmallocInit_emptyHeap, by decide, emptyHeap_regionInRange⟩

def CallState.initial (h : Heap) : CallState Thread := ⟨h, fun _ => .idle, [], []⟩

/-- The states that the threads can reach by steps that meet `cond`, in any order. -/
def CallRun (calls : Set HeapCall) (cond : CallState Thread → Thread → Prop) (h : Heap)
    (s : CallState Thread) : Prop :=
  Relation.ReflTransGen (fun s s' => ∃ t, cond s t ∧ CallStep calls t s s') (.initial h) s

/-! ## Conditions on the next step of a thread -/

/-- The next step of `t` stays in the memory it is meant for: a new bucket's region is in range,
the zero fill is no longer than the pebble, and the freed pebble's header still names the
bucket that was locked. -/
def StaysInBounds (s : CallState Thread) (t : Thread) : Prop :=
  match s.pc t with
  | .creating size => RegionInRange s.heap size
  | .zeroing size ret =>
      size ≤ s.heap.mem.get (sub64 ret MemoryPebble.sizeof) MemoryPebble.size
  | .reading pebble locked => s.heap.mem.get pebble MemoryPebble.parent = locked
  | _ => True

/-- Some free pebble of the bucket is large enough. -/
def HasRoom (m : Mem) (bucket need : Nat) : Prop :=
  ∃ p, ListedPebble m bucket p ∧ isPebbleFree m p = true ∧ need ≤ m.get p MemoryPebble.size

/-- The next step of `t` is a section of `kmalloc` that places its request in `bucket`. -/
def PlacesIn (s : CallState Thread) (t : Thread) (bucket : Nat) : Prop :=
  match s.pc t with
  | .scanning size b => b = bucket ∧ bucket ≠ 0 ∧
      pebbleSize size ≤ s.heap.mem.get bucket MemoryBucket.largestFree ∧
      HasRoom s.heap.mem bucket (pebbleSize size)
  | .placing size b => b = bucket ∧ HasRoom s.heap.mem bucket (pebbleSize size)
  | _ => False

/-- The next step of `t` places nothing in a bucket that a thread is about to remove. -/
def SparesRemoved (s : CallState Thread) (t : Thread) : Prop :=
  ∀ u bucket, s.pc u = .removing bucket → ¬ PlacesIn s t bucket

/-- The next step of `t` places nothing in a bucket that another thread has created and not yet
placed its own request in. -/
def SparesNew (s : CallState Thread) (t : Thread) : Prop :=
  ∀ u size bucket, u ≠ t → (s.pc u).Owns size bucket → ¬ PlacesIn s t bucket

end FroggyOs
