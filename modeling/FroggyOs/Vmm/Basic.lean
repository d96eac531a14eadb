import FroggyOs.Library.Loop
import FroggyOs.Paging.Basic

/-!
# Heap regions (`memory/vmm.c`, `memory/heap.c`)

`grow_heap` reserves the next part of the heap by moving `K_HEAP_END`, and `mmap` backs
it with frames page by page. Both take their size in pages; the bound of the page loop
of `mmap`, and of the loop of `munmap`, adds it to an address as it is. The loops
advance by a page and ignore whether `alloc_page` succeeded.

The lock of `grow_heap` is taken and released within the call and used nowhere else,
so it is always free when a call takes it and carries no state.
-/

namespace FroggyOs

open ByteMemory Word64 Loop64

/-- The page tables and frame list together with the static data of `vmm.c` and `heap.c`. -/
structure Vmm where
  paging : PageState
  /-- `vmm.frameAlloc` -/
  frameAlloc : Nat
  /-- `K_HEAP_END` -/
  kHeapEnd : UInt64

/-- Two regions, each a base and a length, share no address. -/
def RegionsApart (r t : Nat × Nat) : Prop :=
  r.1 + r.2 ≤ t.1 ∨ t.1 + t.2 ≤ r.1

namespace Vmm

/-- Returns the start of the region. -/
def growHeap (s : Vmm) (size : Nat) : Nat × Vmm :=
  (s.kHeapEnd.toNat, { s with kHeapEnd := s.kHeapEnd + UInt64.ofNat size * 0x1000 })

/-- Returns the frame, or 0 for `NULL`. -/
def getPhysicalFrameAddr (s : Vmm) : Nat × Vmm :=
  ((popFrameList s.paging.frames s.frameAlloc).1,
    { s with paging.frames := (popFrameList s.paging.frames s.frameAlloc).2 })

/-- Returns the mapped address, or 0 for `NULL`. -/
def allocPage (s : Vmm) (addr : Nat) : Nat × Vmm :=
  let frame := (getPhysicalFrameAddr s).1
  let s := (getPhysicalFrameAddr s).2
  if frame = 0 then (0, s)
  else if addr = 0 then (0, s)
  else
    ((mapToPage s.paging addr frame s.frameAlloc 0).1,
      { s with paging := (mapToPage s.paging addr frame s.frameAlloc 0).2 })

/-- The body of the loop of `mmap`. -/
def visitPage (s : Vmm) (addr : Nat) : Vmm := (allocPage s addr).2

/-- Returns the start of the region, or 0 for `NULL`; `none` when the page loop never
ends. -/
def mmap (s : Vmm) (size : Nat) : Option (Nat × Vmm) :=
  let regionStart := (growHeap s size).1
  let s := (growHeap s size).2
  if regionStart = 0 then some (0, s)
  else
    (upto visitPage (add64 regionStart size) 0x1000 (2 ^ 64) regionStart s).map fun s =>
      (regionStart, s)

/-- The body of the loop of `munmap`. -/
def freePage (s : Vmm) (addr : Nat) : Vmm :=
  let frame := (unmapPage s.paging addr).1
  let s := { s with paging := (unmapPage s.paging addr).2 }
  if frame ≠ 0 then
    { s with paging.frames := pushFrameList s.paging.frames s.frameAlloc frame }
  else s

def munmap (s : Vmm) (ptr size : Nat) : Option Vmm :=
  upto freePage (add64 ptr size) 0x1000 (2 ^ 64) ptr s

end Vmm

end FroggyOs
