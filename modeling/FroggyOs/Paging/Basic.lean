import FroggyOs.Klibc.MemOps
import FroggyOs.Memory.FrameAlloc

/-!
# Page tables (`arch/paging`)

The paging code reaches every page table through the direct map: the table in the
physical frame `a` is the 512 words at `physToVirt a`, the sum of `a` and
`PHYSICAL_ADDRESS_OFFSET` modulo `2 ^ 64`. `PageState` holds that memory, the memory
of the free-frame list, and CR3.

`map_to_page` repeats one block for the three upper levels; `nextTable` is that
block. Entries are tested and decoded with the masks of `paging.h`, also where these
differ from the masks used to encode them. A pointer to a table entry is an address
of an existing object, so `fetch_page_table_entry` returning `NULL` is `none`.
-/

namespace FroggyOs

open ByteMemory Word64

/-- The machine state the paging code works on. -/
structure PageState where
  /-- memory behind the direct map, indexed by virtual address -/
  tables : Mem
  /-- memory holding the free-frame list -/
  frames : Mem
  /-- `PHYSICAL_ADDRESS_OFFSET` -/
  offset : UInt64
  cr3 : UInt64
  /-- the frames `create_new_page_table` has reported on the serial line, newest first -/
  created : List Nat

def pageAddrMask : Nat := 0x000FFFFFFFFFF000

def pagePresent : Nat := 1 <<< 0

def pageRw : Nat := 1 <<< 1

/-- One 64-bit table entry. -/
abbrev pageTableEntry : Field := ⟨0, 8⟩

/-- `sizeof(struct PageTable)`. -/
abbrev sizeofPageTable : Nat := 4096

def createBasicPageAttributes : Nat := 0 ||| pagePresent ||| pageRw

def isPageTablePresent (entry : Nat) : Bool := entry &&& 0x1 != 0

def pageTablePhysAddress (entry : Nat) : Nat :=
  entry &&& not64 ((1 <<< 12) - 1) &&& ((1 <<< 51) - 1)

namespace PageState

def physToVirt (s : PageState) (addr : Nat) : Nat := add64 addr s.offset.toNat

def activePml4Table (s : PageState) : Nat :=
  add64 (s.cr3.toNat &&& not64 0xFFF) s.offset.toNat

def readEntry (s : PageState) (ptr : Nat) : Nat := s.tables.get ptr pageTableEntry

def writeEntry (s : PageState) (ptr v : Nat) : PageState :=
  { s with tables := s.tables.put ptr pageTableEntry v }

end PageState

/-! ## Mapping -/

/-- Returns the physical address of the new table, or 0 for `NULL`. -/
def createNewPageTable (s : PageState) (frameAlloc : Nat) : Nat × PageState :=
  let addr := (popFrameList s.frames frameAlloc).1
  let s := { s with frames := (popFrameList s.frames frameAlloc).2 }
  if addr = 0 then (0, s)
  else
    let pt := s.physToVirt addr
    let tables := memset s.tables pt 0 sizeofPageTable
    let tables := tables.put (pt + 8 * 1) pageTableEntry 0
    (addr, { s with tables, created := addr :: s.created })

/-- One upper level of `map_to_page`: the virtual address of the table that the entry
at `entryPtr` refers to, created and linked when the entry is not present. -/
def nextTable (s : PageState) (entryPtr frameAlloc : Nat) : Option Nat × PageState :=
  let entry := s.readEntry entryPtr
  if !isPageTablePresent entry then
    let newPhysAddr := (createNewPageTable s frameAlloc).1
    let s := (createNewPageTable s frameAlloc).2
    if newPhysAddr = 0 then (none, s)
    else
      let s := s.writeEntry entryPtr (newPhysAddr &&& pageAddrMask ||| createBasicPageAttributes)
      (some (s.physToVirt newPhysAddr), s)
  else (some (s.physToVirt (pageTablePhysAddress entry)), s)

def pgdIndex (address : Nat) : Nat := address >>> 39 &&& 0x1ff
def pudIndex (address : Nat) : Nat := address >>> 30 &&& 0x1ff
def pmdIndex (address : Nat) : Nat := address >>> 21 &&& 0x1ff
def ptIndex (address : Nat) : Nat := address >>> 12 &&& 0x1ff

/-- Returns the mapped address, or 0 for `NULL`. -/
def mapToPage (s : PageState) (address frame frameAlloc pml4VirtAddress : Nat) :
    Nat × PageState :=
  -- the `NULL` case passes the raw CR3 value on, its flag bits included
  let virtPgdAddress :=
    if pml4VirtAddress = 0 then s.physToVirt s.cr3.toNat else pml4VirtAddress
  if virtPgdAddress = 0 then (0, s)
  else
    match nextTable s (virtPgdAddress + 8 * pgdIndex address) frameAlloc with
    | (none, s) => (0, s)
    | (some virtPudAddress, s) =>
      match nextTable s (virtPudAddress + 8 * pudIndex address) frameAlloc with
      | (none, s) => (0, s)
      | (some virtPmdAddress, s) =>
        match nextTable s (virtPmdAddress + 8 * pmdIndex address) frameAlloc with
        | (none, s) => (0, s)
        | (some virtPtAddress, s) =>
          (address, s.writeEntry (virtPtAddress + 8 * ptIndex address)
            (frame &&& pageAddrMask ||| createBasicPageAttributes))

/-! ## Lookup -/

/-- The loop of `fetch_page_table_entry` over the remaining indices, at the table at
`table`. Only the last level returns a pointer to its entry. -/
def fetchFrom (s : PageState) : List Nat → Nat → Option Nat
  | [], _ => none
  | index :: rest, table =>
      let entry := table + 8 * index
      if !isPageTablePresent (s.readEntry entry) then none
      else if rest = [] then some entry
      else fetchFrom s rest (s.physToVirt (pageTablePhysAddress (s.readEntry entry)))

def fetchPageTableEntry (s : PageState) (addr : Nat) : Option Nat :=
  fetchFrom s [pgdIndex addr, pudIndex addr, pmdIndex addr, ptIndex addr] s.activePml4Table

/-- Returns `NULL` on every path. -/
def unmapPage (s : PageState) (addr : Nat) : Nat × PageState :=
  match fetchPageTableEntry s addr with
  | none => (0, s)
  | some entry =>
      if pageTablePhysAddress (s.readEntry entry) = 0 then (0, s)
      else (0, s.writeEntry entry 0)

end FroggyOs
