import FroggyOs.Library.Loop
import FroggyOs.Paging.Refinement
import FroggyOs.Paging.Supply
import Mathlib.Data.List.Nodup
import Mathlib.Data.List.Perm.Subperm

/-!
# The kernel's own page tables

`create_kernel_page_tables` pops a root and identity maps the first 2 MiB below it, one
call of `map_to_page` after the other, and looks at the result of none of them. The free
frames are a stack here that yields `NULL` for good once it is empty, which is what
`pop_frame_list` is for. As long as no pop has failed the list in memory is such a stack,
so the two models of the paging code agree on every call up to the first failure
(`mapToPage_same`).

Four tables serve the whole range. With fewer frames than that a root is returned below
which page 1 is missing, and without any the loop maps the range in the active tables
(`createKernelPageTables_mapsAllOrFails_iff`). The serial output is left out.
-/

namespace FroggyOs

open ByteMemory Word64 RadixTree Loop64

/-- The state of the paging code over a stack of free frames. -/
structure StackState where
  /-- memory behind the direct map, indexed by virtual address -/
  tables : Mem
  /-- `PHYSICAL_ADDRESS_OFFSET` -/
  offset : UInt64
  cr3 : UInt64
  /-- the free frames, topmost first -/
  free : List Nat
  /-- address and length of the writes behind the direct map, newest first -/
  written : List (Nat × Nat)

namespace StackState

def physToVirt (s : StackState) (addr : Nat) : Nat := add64 addr s.offset.toNat

def readEntry (s : StackState) (ptr : Nat) : Nat := s.tables.get ptr pageTableEntry

def writeEntry (s : StackState) (ptr v : Nat) : StackState :=
  { s with
    tables := s.tables.put ptr pageTableEntry v
    written := (ptr, pageTableEntry.width) :: s.written }

/-- Returns the popped address, or 0 for `NULL`. -/
def popFrameList (s : StackState) : Nat × StackState :=
  match s.free with
  | [] => (0, s)
  | addr :: rest => (addr, { s with free := rest })

/-- Returns the physical address of the new table, or 0 for `NULL`. -/
def createNewPageTable (s : StackState) : Nat × StackState :=
  let addr := s.popFrameList.1
  let s := s.popFrameList.2
  if addr = 0 then (0, s)
  else
    let pt := s.physToVirt addr
    let s :=
      { s with
        tables := memset s.tables pt 0 sizeofPageTable
        written := (pt, sizeofPageTable) :: s.written }
    (addr, s.writeEntry (pt + 8 * 1) 0)

/-- One upper level of `map_to_page`. -/
def nextTable (s : StackState) (entryPtr : Nat) : Option Nat × StackState :=
  let entry := s.readEntry entryPtr
  if !isPageTablePresent entry then
    let newPhysAddr := s.createNewPageTable.1
    let s := s.createNewPageTable.2
    if newPhysAddr = 0 then (none, s)
    else
      let s := s.writeEntry entryPtr (newPhysAddr &&& pageAddrMask ||| createBasicPageAttributes)
      (some (s.physToVirt newPhysAddr), s)
  else (some (s.physToVirt (pageTablePhysAddress entry)), s)

/-- Returns the mapped address, or 0 for `NULL`. -/
def mapToPage (s : StackState) (address frame pml4VirtAddress : Nat) : Nat × StackState :=
  let virtPgdAddress :=
    if pml4VirtAddress = 0 then s.physToVirt s.cr3.toNat else pml4VirtAddress
  if virtPgdAddress = 0 then (0, s)
  else
    match s.nextTable (virtPgdAddress + 8 * pgdIndex address) with
    | (none, s) => (0, s)
    | (some virtPudAddress, s) =>
      match s.nextTable (virtPudAddress + 8 * pudIndex address) with
      | (none, s) => (0, s)
      | (some virtPmdAddress, s) =>
        match s.nextTable (virtPmdAddress + 8 * pmdIndex address) with
        | (none, s) => (0, s)
        | (some virtPtAddress, s) =>
          (address, s.writeEntry (virtPtAddress + 8 * ptIndex address)
            (frame &&& pageAddrMask ||| createBasicPageAttributes))

def identityMapPage (s : StackState) (frame pml4VirtAddress : Nat) : Nat × StackState :=
  s.mapToPage frame frame pml4VirtAddress

/-- Returns the physical address of the root, 0 for `NULL`. -/
def createKernelPageTables (s : StackState) : Option (Nat × StackState) :=
  let pml4PhysAddr := s.createNewPageTable.1
  let s := s.createNewPageTable.2
  let pml4 := s.physToVirt pml4PhysAddr
  let lowMemoryEnd := 1024 * 1024 * 2
  -- the result of the call is dropped
  (upto (fun s i => (s.identityMapPage i pml4).2) lowMemoryEnd 0x1000 (2 ^ 64) 0x1000 s).map
    fun s => (pml4PhysAddr, s)

/-- The tables as seen with CR3 at `root`. -/
def treeAt (s : StackState) (root : Nat) : PageState where
  tables := s.tables
  frames := ⟨fun _ => 0⟩
  offset := s.offset
  cr3 := UInt64.ofNat root
  created := []

/-- A write that stays inside one of the frames. -/
def WritesIn (s : StackState) (frames : List Nat) (write : Nat × Nat) : Prop :=
  ∃ f ∈ frames, s.physToVirt f ≤ write.1 ∧ write.1 + write.2 ≤ s.physToVirt f + 4096

/-- The pages of `[0x1000, 2 MiB)`, each at its own frame. -/
def identityPages (stop : Nat) : PageMap := fun page =>
  if 1 ≤ page ∧ page < stop then some (4096 * page) else none

/-- What `create_kernel_page_tables` is for: below the root that it returns just the pages
from `0x1000` to 2 MiB are mapped, each to itself. If it returns none it has written to
frames of the list at most. -/
def MapsAllOrFails (s : StackState) : Prop :=
  ∃ root s', s.createKernelPageTables = some (root, s') ∧
    (root ≠ 0 → ∀ addr, ((s'.treeAt root).translate addr).map Frame.addr =
      identityPages 512 (pageNumber addr)) ∧
    (root = 0 → ∃ new popped, s'.written = new ++ s.written ∧ s.free = popped ++ s'.free ∧
      ∀ write ∈ new, s.WritesIn popped write)

end StackState

/-! ## The list in memory as the stack -/

/-- The same tables, and the free frames in a list in memory. -/
structure Mirrors (s : StackState) (t : PageState) (list : Nat) : Prop where
  tables : t.tables = s.tables
  offset : t.offset = s.offset
  rep : FrameListRep t.frames list s.free

/-- Two steps that leave the same tables and have taken the same frames. -/
structure SameStep (s : StackState) (t : PageState) (s' : StackState) (t' : PageState) : Prop where
  tables : t'.tables = s'.tables
  offset : t'.offset = s'.offset
  popped : ∃ new, t'.created = new ++ t.created ∧ s.free = new.reverse ++ s'.free

section Same

variable {s s' s'' : StackState} {t t' t'' : PageState} {list : Nat}

theorem SameStep.refl (h : Mirrors s t list) : SameStep s t s t :=
  ⟨h.tables, h.offset, [], rfl, rfl⟩

theorem SameStep.trans (h : SameStep s t s' t') (h' : SameStep s' t' s'' t'') :
    SameStep s t s'' t'' := by
  obtain ⟨new, hcreated, hfree⟩ := h.popped
  obtain ⟨new', hcreated', hfree'⟩ := h'.popped
  refine ⟨h'.tables, h'.offset, new' ++ new, ?_, ?_⟩
  · rw [hcreated', hcreated, List.append_assoc]
  · rw [hfree, hfree', List.reverse_append, List.append_assoc]

/-- What is left of the stack was in it. -/
theorem SameStep.mem_free (h : SameStep s t s' t') {a : Nat} (ha : a ∈ s'.free) : a ∈ s.free := by
  obtain ⟨new, -, hfree⟩ := h.popped
  rw [hfree]
  exact List.mem_append_right _ ha

theorem Mirrors.physToVirt (h : Mirrors s t list) (addr : Nat) :
    t.physToVirt addr = s.physToVirt addr := by
  rw [PageState.physToVirt, StackState.physToVirt, h.offset]

theorem Mirrors.readEntry (h : Mirrors s t list) (ptr : Nat) :
    t.readEntry ptr = s.readEntry ptr := by
  rw [PageState.readEntry, StackState.readEntry, h.tables]

/-- The same store in both models. -/
theorem Mirrors.writeEntry (h : Mirrors s t list) (ptr v : Nat) :
    Mirrors (s.writeEntry ptr v) (t.writeEntry ptr v) list := by
  refine ⟨?_, h.offset, h.rep⟩
  simp only [PageState.writeEntry, StackState.writeEntry, h.tables]

theorem SameStep.writeEntry (h : Mirrors s t list) (ptr v : Nat) :
    SameStep s t (s.writeEntry ptr v) (t.writeEntry ptr v) :=
  ⟨(h.writeEntry ptr v).tables, h.offset, [], rfl, rfl⟩

/-- A list at its bottom yields `NULL`, whether it was ever used or not. -/
theorem popFrameList_bottom {m : Mem} (h : FrameListRep m list []) :
    (popFrameList m list).1 = 0 := by
  by_cases hused : UsedList m list
  · exact (popFrameList_drained h hused).1
  · rw [popFrameList_null (not_not.mp hused)]

theorem StackState.createNewPageTable_of_empty (h : s.free = []) :
    s.createNewPageTable = (0, s) := by
  simp only [createNewPageTable, popFrameList, h, if_pos]

theorem StackState.createNewPageTable_of_cons {addr : Nat} {rest : List Nat}
    (h : s.free = addr :: rest) (hne : addr ≠ 0) :
    s.createNewPageTable = (addr,
      { s with
        free := rest
        tables := (memset s.tables (s.physToVirt addr) 0 sizeofPageTable).put
          (s.physToVirt addr + 8 * 1) pageTableEntry 0
        written := (s.physToVirt addr + 8 * 1, pageTableEntry.width) ::
          (s.physToVirt addr, sizeofPageTable) :: s.written }) := by
  simp only [createNewPageTable, popFrameList, h, if_neg hne, writeEntry, physToVirt]

/-- Both models take the same frame for a new table and zero it. Only a failed pop leaves
the list in memory in another state. -/
theorem createNewPageTable_same (h : Mirrors s t list) (hne : ∀ a ∈ s.free, a ≠ 0) :
    (createNewPageTable t list).1 = s.createNewPageTable.1 ∧
      SameStep s t s.createNewPageTable.2 (createNewPageTable t list).2 ∧
        (s.createNewPageTable.1 ≠ 0 →
          Mirrors s.createNewPageTable.2 (createNewPageTable t list).2 list) := by
  have hrep := h.rep
  cases hfree : s.free with
  | nil =>
      rw [hfree] at hrep
      rw [createNewPageTable_of_null (popFrameList_bottom hrep),
        StackState.createNewPageTable_of_empty hfree]
      exact ⟨rfl, ⟨h.tables, h.offset, [], rfl, rfl⟩, fun hne => absurd rfl hne⟩
  | cons addr rest =>
      rw [hfree] at hrep
      obtain ⟨hpop, hrest⟩ := popFrameList_rep hrep
      have haddr : addr ≠ 0 := hne addr (by simp [hfree])
      rw [createNewPageTable_of_ne (hpop ▸ haddr), hpop,
        StackState.createNewPageTable_of_cons hfree haddr, h.physToVirt, h.tables]
      generalize (popFrameList t.frames list).2 = m at hrest ⊢
      refine ⟨rfl, ⟨rfl, h.offset, [addr], rfl, ?_⟩, fun _ => ⟨rfl, h.offset, hrest⟩⟩
      rw [hfree]
      rfl

/-- A level fails in both models or leads to the same table in both. -/
theorem nextTable_same (h : Mirrors s t list) (hne : ∀ a ∈ s.free, a ≠ 0) (ptr : Nat) :
    (∃ s' t', s.nextTable ptr = (none, s') ∧ nextTable t ptr list = (none, t') ∧
      SameStep s t s' t') ∨
    ∃ virt s' t', s.nextTable ptr = (some virt, s') ∧ nextTable t ptr list = (some virt, t') ∧
      SameStep s t s' t' ∧ Mirrors s' t' list := by
  obtain ⟨hfst, hstep, hmirrors⟩ := createNewPageTable_same h hne
  rw [StackState.nextTable, nextTable, h.readEntry, hfst]
  simp only []
  split
  case isFalse => exact .inr ⟨_, _, _, rfl, by rw [h.physToVirt], .refl h, h⟩
  case isTrue =>
    split
    case isTrue => exact .inl ⟨_, _, rfl, rfl, hstep⟩
    case isFalse hfound =>
      have hlinked := (hmirrors hfound).writeEntry ptr
        (s.createNewPageTable.1 &&& pageAddrMask ||| createBasicPageAttributes)
      refine .inr ⟨_, _, _, rfl, ?_, hstep.trans (.writeEntry (hmirrors hfound) _ _), hlinked⟩
      rw [hlinked.physToVirt]

/-- A call on tables given by their address does the same in both models. -/
theorem mapToPage_same (h : Mirrors s t list) (hne : ∀ a ∈ s.free, a ≠ 0) {pml4 : Nat}
    (hpml4 : pml4 ≠ 0) (address frame : Nat) :
    (mapToPage t address frame list pml4).1 = (s.mapToPage address frame pml4).1 ∧
      SameStep s t (s.mapToPage address frame pml4).2 (mapToPage t address frame list pml4).2 := by
  simp only [StackState.mapToPage, mapToPage, if_neg hpml4]
  obtain ⟨s₁, t₁, hs₁, ht₁, hstep₁⟩ | ⟨virt₁, s₁, t₁, hs₁, ht₁, hstep₁, hmirrors₁⟩ :=
    nextTable_same h hne (pml4 + 8 * pgdIndex address)
  · rw [hs₁, ht₁]
    exact ⟨rfl, hstep₁⟩
  have hne₁ : ∀ a ∈ s₁.free, a ≠ 0 := fun a ha => hne a (hstep₁.mem_free ha)
  simp only [hs₁, ht₁]
  obtain ⟨s₂, t₂, hs₂, ht₂, hstep₂⟩ | ⟨virt₂, s₂, t₂, hs₂, ht₂, hstep₂, hmirrors₂⟩ :=
    nextTable_same hmirrors₁ hne₁ (virt₁ + 8 * pudIndex address)
  · rw [hs₂, ht₂]
    exact ⟨rfl, hstep₁.trans hstep₂⟩
  have hne₂ : ∀ a ∈ s₂.free, a ≠ 0 := fun a ha => hne₁ a (hstep₂.mem_free ha)
  simp only [hs₂, ht₂]
  obtain ⟨s₃, t₃, hs₃, ht₃, hstep₃⟩ | ⟨virt₃, s₃, t₃, hs₃, ht₃, hstep₃, hmirrors₃⟩ :=
    nextTable_same hmirrors₂ hne₂ (virt₂ + 8 * pmdIndex address)
  · rw [hs₃, ht₃]
    exact ⟨rfl, (hstep₁.trans hstep₂).trans hstep₃⟩
  simp only [hs₃, ht₃]
  exact ⟨trivial, ((hstep₁.trans hstep₂).trans hstep₃).trans (.writeEntry hmirrors₃ _ _)⟩

end Same

/-! ## Calls below one root -/

/-- Only the table memory, the offset and CR3 matter to the pages of a tree. -/
theorem Refines.congr {s s' : PageState} {pages : PageMap} (h : Refines s pages)
    (htables : s'.tables = s.tables) (hoffset : s'.offset = s.offset) (hcr3 : s'.cr3 = s.cr3) :
    Refines s' pages := by
  have hwalk := PageState.walkFrom_congr htables hoffset hcr3
  refine ⟨by rw [hcr3]; exact h.aligned, ?_, h.frames, fun addr => ?_⟩
  · intro p q t hp hq hwp hwq
    have hwp' : s'.walkFrom p = some t := hwp
    have hwq' : s'.walkFrom q = some t := hwq
    rw [hwalk] at hwp' hwq'
    exact h.unshared p q t hp hq hwp' hwq'
  · rw [PageState.translate, hwalk]
    exact h.translate addr

theorem PageState.isTable_congr {s s' : PageState} (htables : s'.tables = s.tables)
    (hoffset : s'.offset = s.offset) (hcr3 : s'.cr3 = s.cr3) {a : Nat} :
    s'.IsTable a ↔ s.IsTable a := by
  rw [IsTable, IsTable, walkFrom_congr htables hoffset hcr3]

/-- There are at most `2 ^ 39` usable frames. -/
theorem length_le_of_usable {frames : List Nat} (hnodup : frames.Nodup)
    (husable : ∀ a ∈ frames, IsFrame a) : frames.length ≤ 2 ^ 39 := by
  have hinj : ∀ a ∈ frames, ∀ b ∈ frames, a / 4096 = b / 4096 → a = b := by
    intro a ha b hb hab
    have := (husable a ha).1
    have := (husable b hb).1
    omega
  have hsub : frames.map (· / 4096) ⊆ List.range (2 ^ 39) := by
    intro page hpage
    obtain ⟨a, ha, rfl⟩ := List.mem_map.mp hpage
    have := (husable a ha).2.2
    rw [List.mem_range]
    omega
  have hle := ((List.Nodup.map_on hinj hnodup).subperm hsub).length_le
  rwa [List.length_map, List.length_range] at hle

/-- The tree at `root` with the free frames laid out as a list at `0x100`. -/
def StackState.withList (s : StackState) (root : Nat) : PageState :=
  { s.treeAt root with
    frames := s.free.reverse.foldl (pushFrameList · 0x100 ·)
      (initFrameListHeader ⟨fun _ => 0⟩ 0x100) }

theorem StackState.mirrors_withList {s : StackState} (hnodup : s.free.Nodup)
    (husable : ∀ a ∈ s.free, IsFrame a) (root : Nat) : Mirrors s (s.withList root) 0x100 := by
  have hlen := length_le_of_usable hnodup husable
  have hrep := foldl_pushFrameList_rep
    (initFrameListHeader_rep ⟨fun _ => 0⟩ (by decide : 0x100 + 24 < 2 ^ 64))
    (fun a ha => (husable a (List.mem_reverse.mp ha)).toFrame.lt)
    (by rw [List.length_reverse, List.length_nil]; omega)
  rw [List.reverse_reverse, List.append_nil] at hrep
  exact ⟨rfl, rfl, hrep⟩

theorem StackState.treeAt_root {s : StackState} {root : Frame} :
    (s.treeAt root.addr).root = root := by
  have hcr3 : (s.treeAt root.addr).cr3.toNat = root.addr := UInt64.toNat_ofNat_of_lt' root.lt
  have haligned : (s.treeAt root.addr).cr3.toNat % 4096 = 0 := by
    rw [hcr3]
    exact root.aligned
  apply Frame.ext
  rw [PageState.root_addr_of_aligned haligned, hcr3]

/-- A tree below `root` that represents `pages`, and a stack of frames outside of it. -/
structure BelowRoot (s : StackState) (root : Frame) (pml4 : Nat) (pages : PageMap) : Prop where
  virt : s.physToVirt root.addr = pml4
  refines : Refines (s.treeAt root.addr) pages
  nodup : s.free.Nodup
  usable : ∀ a ∈ s.free, IsFrame a
  spare : ∀ a ∈ s.free, ¬ (s.treeAt root.addr).IsTable a

namespace BelowRoot

variable {s : StackState} {root : Frame} {pml4 address frame : Nat} {pages : PageMap}

theorem ne_zero (h : BelowRoot s root pml4 pages) : ∀ a ∈ s.free, a ≠ 0 :=
  fun a ha => (h.usable a ha).2.1

theorem mirrors (h : BelowRoot s root pml4 pages) :
    Mirrors s (s.withList root.addr) 0x100 :=
  StackState.mirrors_withList h.nodup h.usable root.addr

theorem stocked (h : BelowRoot s root pml4 pages) :
    Stocked (s.withList root.addr) 0x100 s.free := by
  refine ⟨h.mirrors.rep, h.nodup, h.usable, fun a ha htable => h.spare a ha ?_⟩
  exact (PageState.isTable_congr rfl rfl rfl).mp htable

theorem refines_withList (h : BelowRoot s root pml4 pages) :
    Refines (s.withList root.addr) pages :=
  h.refines.congr rfl rfl rfl

/-- The pointer passed on is that of the root. -/
theorem pml4_eq (h : BelowRoot s root pml4 pages) :
    pml4 = (s.withList root.addr).physToVirt (s.withList root.addr).root.addr := by
  have hroot : (s.treeAt root.addr).root = root := StackState.treeAt_root
  have hroot' : (s.withList root.addr).root = root := (PageState.root_congr rfl).trans hroot
  rw [hroot', h.mirrors.physToVirt, h.virt]

/-- A call of `map_to_page` does to the pages what it reports, and takes its frames from
the stack. -/
theorem map (h : BelowRoot s root pml4 pages) (hpml4 : pml4 ≠ 0) (haddress : address ≠ 0)
    (hframe : IsFrame frame) :
    BelowRoot (s.mapToPage address frame pml4).2 root pml4
      (pages.afterMap address frame (s.mapToPage address frame pml4).1) := by
  obtain ⟨hreturned, hsame⟩ := mapToPage_same h.mirrors h.ne_zero hpml4 address frame
  obtain ⟨new, hcreated, hfree⟩ := hsame.popped
  have hnodup := h.nodup
  rw [hfree] at hnodup
  obtain ⟨hnew, hrest, hapart⟩ := List.nodup_append.mp hnodup
  have hmem : ∀ a ∈ new, a ∈ s.free := by
    intro a ha
    rw [hfree]
    exact List.mem_append_left _ (List.mem_reverse.mpr ha)
  have hfresh : FreshTables (s.withList root.addr)
      (mapToPage (s.withList root.addr) address frame 0x100 pml4).2 := by
    refine ⟨new, hcreated, List.nodup_reverse.mp hnew, fun a ha => ?_⟩
    exact ⟨h.usable a (hmem a ha), h.stocked.spare a (hmem a ha)⟩
  have hroot : StartsAtRoot (s.withList root.addr) pml4 :=
    startsAtRoot_of_aligned h.refines_withList.aligned (.inr h.pml4_eq)
  have hword : frame < 2 ^ 64 := hframe.toFrame.lt
  have hstep := (mapToPage_spec h.refines_withList.unshared hroot haddress hword hfresh).step
  have hmap := h.refines_withList.map haddress hframe (.inr h.pml4_eq) hfresh
  rw [hreturned] at hmap
  clear hfresh hreturned
  generalize s.mapToPage address frame pml4 = r at *
  generalize mapToPage (s.withList root.addr) address frame 0x100 pml4 = r' at *
  have htables : (r.2.treeAt root.addr).tables = r'.2.tables := hsame.tables.symm
  have hoffset : (r.2.treeAt root.addr).offset = r'.2.offset := hsame.offset.symm
  have hcr3 : (r.2.treeAt root.addr).cr3 = r'.2.cr3 := hstep.cr3.symm
  constructor
  case virt =>
    have hkept : r.2.offset = s.offset := hoffset.trans hstep.offset
    rw [← h.virt, StackState.physToVirt, StackState.physToVirt, hkept]
  case refines => exact hmap.congr htables hoffset hcr3
  case nodup => exact hrest
  case usable => exact fun a ha => h.usable a (hsame.mem_free ha)
  case spare =>
    intro a ha htable
    rw [PageState.isTable_congr htables hoffset hcr3] at htable
    obtain ⟨new', hcreated', hold⟩ := hstep.tables
    obtain rfl : new' = new := List.append_cancel_right (hcreated'.symm.trans hcreated)
    obtain hold | hnew := hold a htable
    · exact h.stocked.spare a (hsame.mem_free ha) hold
    · exact hapart a (List.mem_reverse.mpr hnew) a ha rfl

/-- The descent of a call, and what is left of it in the tables. -/
theorem descends (h : BelowRoot s root pml4 pages) (hpml4 : pml4 ≠ 0) (haddress : address ≠ 0)
    (hframe : IsFrame frame)
    (hlevel : LevelStep (s.withList root.addr) [] [pgd address, pud address, pmd address]
      (descendTo (s.withList root.addr) address 0x100)) :
    (s.mapToPage address frame pml4).1 =
        (if (descendTo (s.withList root.addr) address 0x100).1.isSome then address else 0) ∧
      ∀ q, q.length < 4 → ((s.mapToPage address frame pml4).2.treeAt root.addr).walkFrom q =
        (descendTo (s.withList root.addr) address 0x100).2.walkFrom q := by
  obtain ⟨hreturned, hsame⟩ := mapToPage_same h.mirrors h.ne_zero hpml4 address frame
  have hroot : StartsAtRoot (s.withList root.addr) pml4 :=
    startsAtRoot_of_aligned h.refines_withList.aligned (.inr h.pml4_eq)
  have hword : frame < 2 ^ 64 := hframe.toFrame.lt
  obtain ⟨hmap, hleaf⟩ :=
    mapToPage_of_descend hroot (h.pml4_eq ▸ hpml4) haddress hword hlevel
  have hcr3 := hmap.step.cr3
  have hreturned' := hleaf.returned
  have hwalks := hleaf.walks
  rw [hreturned] at hreturned'
  generalize s.mapToPage address frame pml4 = r at *
  generalize mapToPage (s.withList root.addr) address frame 0x100 pml4 = r' at *
  have hwalk : (r.2.treeAt root.addr).walkFrom = r'.2.walkFrom :=
    PageState.walkFrom_congr hsame.tables.symm hsame.offset.symm hcr3.symm
  refine ⟨hreturned', fun q hq => ?_⟩
  rw [hwalk, hwalks q hq]

/-- With a frame for every missing table a call succeeds, and no table is missing then. -/
theorem map_of_enough (h : BelowRoot s root pml4 pages) (hpml4 : pml4 ≠ 0)
    (haddress : address ≠ 0) (hframe : IsFrame frame)
    (henough : tablesMissing (s.treeAt root.addr) [] [pgd address, pud address, pmd address] ≤
      s.free.length) :
    (s.mapToPage address frame pml4).1 = address ∧
      tablesMissing ((s.mapToPage address frame pml4).2.treeAt root.addr) []
        [pgd address, pud address, pmd address] = 0 := by
  have hwalk : (s.withList root.addr).walkFrom [] = some (s.withList root.addr).root := rfl
  have hwalks : (s.withList root.addr).walkFrom = (s.treeAt root.addr).walkFrom :=
    PageState.walkFrom_congr rfl rfl rfl
  rw [← tablesMissing_congr fun q _ => congrFun hwalks q] at henough
  have htakes : DescendTakes _ _ _ _ _ (descendTo (s.withList root.addr) address 0x100) :=
    descend_of_stocked h.refines_withList.unshared (by simp) hwalk h.stocked henough
  obtain ⟨hreturned, htables⟩ := h.descends hpml4 haddress hframe htakes.level
  rw [if_pos htakes.found] at hreturned
  refine ⟨hreturned, List.countP_eq_zero.mpr fun q hq => ?_⟩
  have hlen : q.length ≤ 3 := (length_of_mem_pathsBelow hq).2
  rw [htables q (by omega), Option.isNone_iff_eq_none, htakes.tables q hlen]
  exact fun hmissing => hmissing.2 hq

/-- With too few frames for the missing tables a call fails. -/
theorem map_of_short (h : BelowRoot s root pml4 pages) (hpml4 : pml4 ≠ 0)
    (haddress : address ≠ 0) (hframe : IsFrame frame)
    (hshort : s.free.length <
      tablesMissing (s.treeAt root.addr) [] [pgd address, pud address, pmd address]) :
    (s.mapToPage address frame pml4).1 = 0 := by
  have hwalk : (s.withList root.addr).walkFrom [] = some (s.withList root.addr).root := rfl
  have hwalks : (s.withList root.addr).walkFrom = (s.treeAt root.addr).walkFrom :=
    PageState.walkFrom_congr rfl rfl rfl
  rw [← tablesMissing_congr fun q _ => congrFun hwalks q] at hshort
  have hfails : DescendFails _ _ _ _ (descendTo (s.withList root.addr) address 0x100) :=
    descend_of_short h.refines_withList.unshared (by simp) hwalk h.stocked hshort
  rw [(h.descends hpml4 haddress hframe hfails.level).1, hfails.failed]
  rfl

/-- A new root is empty. -/
theorem of_create {rest : List Nat} (hfree : s.free = root.addr :: rest) (hnodup : s.free.Nodup)
    (husable : ∀ a ∈ s.free, IsFrame a) :
    BelowRoot s.createNewPageTable.2 root (s.physToVirt root.addr) .empty ∧
      s.createNewPageTable.1 = root.addr ∧ s.createNewPageTable.2.free = rest ∧
      ∀ path t, (s.createNewPageTable.2.treeAt root.addr).walkFrom path = some t → path = [] := by
  have hne : root.addr ≠ 0 := (husable _ (by rw [hfree]; exact List.mem_cons_self)).2.1
  obtain ⟨hfst, hsame, -⟩ := createNewPageTable_same
    (StackState.mirrors_withList hnodup husable root.addr) fun a ha => (husable a ha).2.1
  have hcall := StackState.createNewPageTable_of_cons hfree hne
  have haddr : s.createNewPageTable.1 = root.addr := by rw [hcall]
  have hrest : s.createNewPageTable.2.free = rest := by rw [hcall]
  have hoffset : s.createNewPageTable.2.offset = s.offset := by rw [hcall]
  clear hcall
  rw [haddr, createNewPageTable_fst] at hfst
  have hempty := createNewPageTable_entryAt_new hfst hne
  generalize s.createNewPageTable = r at *
  generalize createNewPageTable (s.withList root.addr) 0x100 = r' at *
  have hzero : ∀ i, (r.2.treeAt root.addr).entryAt (r.2.treeAt root.addr).root i = 0 := by
    intro i
    rw [StackState.treeAt_root, ← hempty i]
    simp only [PageState.entryAt, PageState.readEntry, PageState.entryPtr, PageState.physToVirt,
      StackState.treeAt, hsame.tables, hsame.offset]
  have haligned : (r.2.treeAt root.addr).cr3.toNat % 4096 = 0 := by
    rw [StackState.treeAt, UInt64.toNat_ofNat_of_lt' root.lt]
    exact root.aligned
  rw [hfree] at hnodup husable
  refine ⟨?_, haddr, hrest, fun path t => Refines.path_eq_nil_of_zeroed hzero⟩
  constructor
  case virt => rw [StackState.physToVirt, StackState.physToVirt, hoffset]
  case refines => exact .of_zeroed haligned hzero
  case nodup => exact hrest ▸ hnodup.of_cons
  case usable => exact fun a ha => husable a (List.mem_cons_of_mem _ (hrest ▸ ha))
  case spare =>
    intro a ha htable
    have hroot := Refines.isTable_of_zeroed hzero htable
    rw [StackState.treeAt_root] at hroot
    rw [hrest, hroot] at ha
    exact (List.nodup_cons.mp hnodup).1 ha

end BelowRoot

/-! ## The loop -/

/-- The loop over the given addresses. -/
def StackState.identityMapPages (s : StackState) (pml4 : Nat) (addrs : List Nat) : StackState :=
  addrs.foldl (fun s i => (s.identityMapPage i pml4).2) s

theorem StackState.createKernelPageTables_eq (s : StackState) :
    s.createKernelPageTables = some (s.createNewPageTable.1,
      s.createNewPageTable.2.identityMapPages
        (s.createNewPageTable.2.physToVirt s.createNewPageTable.1)
        (List.range' 0x1000 511 0x1000)) := by
  rw [createKernelPageTables,
    @upto_eq_foldl _ _ _ _ 511 _ _ _ (by omega) (by decide) (by decide) (by decide)]
  rfl

/-- The pages of the loop share their three upper tables. -/
theorem upperIndices_low {address : Nat} (h : address < 2 ^ 21) :
    [pgd address, pud address, pmd address] = [0, 0, 0] := by
  simp only [pgd, pud, pmd, pgdIndex_eq, pudIndex_eq, pmdIndex_eq, List.cons.injEq, and_true,
    Fin.ext_iff, Fin.val_zero]
  omega

theorem isFrame_low {k : Nat} (hk : k < 511) : IsFrame (0x1000 + 0x1000 * k) :=
  ⟨by omega, by omega, by omega⟩

theorem pageNumber_low {k : Nat} (hk : k < 511) : pageNumber (0x1000 + 0x1000 * k) = k + 1 := by
  rw [pageNumber]
  omega

theorem identityPages_one : StackState.identityPages 1 = PageMap.empty := by
  funext page
  exact if_neg (by omega)

theorem identityPages_succ {k : Nat} (hk : k < 511) :
    (StackState.identityPages (k + 1)).afterMap (0x1000 + 0x1000 * k) (0x1000 + 0x1000 * k)
      (0x1000 + 0x1000 * k) = StackState.identityPages (k + 2) := by
  funext page
  rw [PageMap.afterMap, if_neg (by omega), PageMap.insert, pageNumber_low hk]
  by_cases hpage : page = k + 1
  · rw [hpage, Function.update_self, StackState.identityPages, if_pos (by omega)]
    congr 1
    omega
  · rw [Function.update_of_ne hpage, StackState.identityPages, StackState.identityPages]
    exact if_congr (by omega) rfl rfl

namespace BelowRoot

variable {s : StackState} {root : Frame} {pml4 : Nat} {pages : PageMap}

/-- With three frames below the root the loop maps one page after the other. -/
theorem identityMapPages (h : BelowRoot s root pml4 .empty) (hpml4 : pml4 ≠ 0)
    (henough : 3 ≤ s.free.length) {k : Nat} (hk : k ≤ 511) :
    BelowRoot (s.identityMapPages pml4 (List.range' 0x1000 k 0x1000)) root pml4
        (StackState.identityPages (k + 1)) ∧
      tablesMissing
        ((s.identityMapPages pml4 (List.range' 0x1000 k 0x1000)).treeAt root.addr) [] [0, 0, 0] ≤
          (s.identityMapPages pml4 (List.range' 0x1000 k 0x1000)).free.length := by
  induction k with
  | zero =>
      rw [identityPages_one]
      exact ⟨h, le_trans List.countP_le_length henough⟩
  | succ k ih =>
      obtain ⟨hbelow, hmissing⟩ := ih (by omega)
      have hrun : s.identityMapPages pml4 (List.range' 0x1000 (k + 1) 0x1000) =
          ((s.identityMapPages pml4 (List.range' 0x1000 k 0x1000)).mapToPage
            (0x1000 + 0x1000 * k) (0x1000 + 0x1000 * k) pml4).2 := by
        rw [StackState.identityMapPages, List.range'_concat, List.foldl_append]
        rfl
      rw [hrun]
      generalize s.identityMapPages pml4 (List.range' 0x1000 k 0x1000) = s₁ at *
      have hframe := isFrame_low (show k < 511 by omega)
      have hupper := @upperIndices_low (0x1000 + 0x1000 * k) (by omega)
      obtain ⟨hreturned, hcomplete⟩ :=
        hbelow.map_of_enough hpml4 hframe.2.1 hframe (hupper ▸ hmissing)
      have hnext := hbelow.map hpml4 hframe.2.1 hframe
      rw [hreturned, identityPages_succ (by omega)] at hnext
      rw [hupper] at hcomplete
      exact ⟨hnext, by omega⟩

/-- Calls for other pages do not map page 1. -/
theorem identityMapPages_unmapped (h : BelowRoot s root pml4 pages) (hpml4 : pml4 ≠ 0)
    (hone : pages 1 = none) {addrs : List Nat}
    (haddrs : ∀ a ∈ addrs, IsFrame a ∧ pageNumber a ≠ 1) :
    ∃ pages', BelowRoot (s.identityMapPages pml4 addrs) root pml4 pages' ∧ pages' 1 = none := by
  induction addrs generalizing s pages with
  | nil => exact ⟨pages, h, hone⟩
  | cons a rest ih =>
      obtain ⟨hframe, hpage⟩ := haddrs a List.mem_cons_self
      have hnext := h.map hpml4 hframe.2.1 hframe
      refine ih hnext ?_ fun b hb => haddrs b (List.mem_cons_of_mem _ hb)
      rw [PageMap.afterMap]
      split
      case isTrue => exact hone
      case isFalse => rw [PageMap.insert, Function.update_of_ne hpage.symm, hone]

end BelowRoot

/-! ## Without a frame -/

namespace StackState

/-- The table `map_to_page` starts at when it is passed the image of `NULL` in the direct
map as the root: the one CR3 refers to if that is `NULL` too. -/
def nullBase (s : StackState) : Nat :=
  if s.physToVirt 0 = 0 then s.physToVirt s.cr3.toNat else s.physToVirt 0

/-- Three present entries lead from there to the table for the low pages. -/
def NullReaches (s : StackState) : Prop :=
  s.nullBase ≠ 0 ∧ (fetchFrom (s.treeAt 0) [0, 0, 0] s.nullBase).isSome

variable {s : StackState}

/-- A level of a call without frames is found or not, and changes nothing. -/
theorem nextTable_of_empty (h : s.free = []) (ptr : Nat) :
    s.nextTable ptr = (if isPageTablePresent (s.readEntry ptr) then
      some (s.physToVirt (pageTablePhysAddress (s.readEntry ptr))) else none, s) := by
  rw [nextTable, createNewPageTable_of_empty h]
  cases isPageTablePresent (s.readEntry ptr) <;> rfl

/-- A call without frames writes one entry below three present ones, or nothing. -/
theorem mapToPage_of_empty (h : s.free = []) {pml4 base : Nat}
    (hbase : (if pml4 = 0 then s.physToVirt s.cr3.toNat else pml4) = base) (address frame : Nat) :
    s.mapToPage address frame pml4 =
      if base = 0 then (0, s)
      else
        match fetchFrom (s.treeAt 0) [pgdIndex address, pudIndex address, pmdIndex address]
          base with
        | none => (0, s)
        | some entry =>
          (address, s.writeEntry
            (s.physToVirt (pageTablePhysAddress (s.readEntry entry)) + 8 * ptIndex address)
            (encodeEntry frame)) := by
  have hread : ∀ ptr, (s.treeAt 0).readEntry ptr = s.readEntry ptr := fun _ => rfl
  have hvirt : ∀ a, (s.treeAt 0).physToVirt a = s.physToVirt a := fun _ => rfl
  simp only [mapToPage, hbase, nextTable_of_empty h, fetchFrom, hread, hvirt]
  split
  case isTrue => rfl
  case isFalse =>
    cases isPageTablePresent (s.readEntry (base + 8 * pgdIndex address)) with
    | false => rfl
    | true =>
        simp only [if_pos, nextTable_of_empty h]
        generalize s.physToVirt _ = virt₁
        cases isPageTablePresent (s.readEntry (virt₁ + 8 * pudIndex address)) with
        | false => rfl
        | true =>
            simp only [if_pos, nextTable_of_empty h]
            generalize s.physToVirt _ = virt₂
            cases isPageTablePresent (s.readEntry (virt₂ + 8 * pmdIndex address)) <;> rfl

/-- The loop has no frame to take and only adds to what is written. -/
theorem identityMapPages_of_empty (h : s.free = []) (pml4 : Nat) (addrs : List Nat) :
    (s.identityMapPages pml4 addrs).free = [] ∧
      ∃ new, (s.identityMapPages pml4 addrs).written = new ++ s.written := by
  induction addrs generalizing s with
  | nil => exact ⟨h, [], rfl⟩
  | cons a rest ih =>
      obtain ⟨base, hbase⟩ : ∃ base, (if pml4 = 0 then s.physToVirt s.cr3.toNat else pml4) = base :=
        ⟨_, rfl⟩
      have hstep : (s.identityMapPage a pml4).2.free = [] ∧
          ∃ new, (s.identityMapPage a pml4).2.written = new ++ s.written := by
        rw [identityMapPage, mapToPage_of_empty h hbase]
        split
        case isTrue => exact ⟨h, [], rfl⟩
        case isFalse =>
          split
          case h_1 => exact ⟨h, [], rfl⟩
          case h_2 => exact ⟨h, [_], rfl⟩
      obtain ⟨hfree, new, hnew⟩ := hstep
      obtain ⟨hfree', new', hnew'⟩ := ih hfree
      refine ⟨hfree', new' ++ new, ?_⟩
      rw [List.append_assoc, ← hnew]
      exact hnew'

/-- A call for a low page below the image of `NULL`. -/
theorem mapToPage_null (h : s.free = []) {address : Nat} (haddress : address < 2 ^ 21)
    (frame : Nat) :
    (¬ s.NullReaches → (s.mapToPage address frame (s.physToVirt 0)).2 = s) ∧
      (s.NullReaches → ∃ ptr v,
        (s.mapToPage address frame (s.physToVirt 0)).2 = s.writeEntry ptr v) := by
  have hindices := upperIndices_low haddress
  simp only [pgd, pud, pmd, List.cons.injEq, Fin.ext_iff, Fin.val_zero, and_true] at hindices
  obtain ⟨hpgd, hpud, hpmd⟩ := hindices
  rw [@mapToPage_of_empty s h _ s.nullBase rfl, hpgd, hpud, hpmd, NullReaches]
  constructor
  · intro hnot
    split
    case isTrue => rfl
    case isFalse hbase =>
      split
      case h_1 => rfl
      case h_2 hfetch => exact absurd ⟨hbase, by rw [hfetch]; rfl⟩ hnot
  · rintro ⟨hbase, hfetch⟩
    obtain ⟨entry, hentry⟩ := Option.isSome_iff_exists.mp hfetch
    rw [if_neg hbase, hentry]
    exact ⟨_, _, rfl⟩

end StackState

/-! ## All or nothing -/

section MapsAllOrFails

variable {s : StackState}

/-- Three frames below the root serve the whole range. -/
theorem mapsAllOrFails_of_enough {r : Nat} {rest : List Nat} (hfree : s.free = r :: rest)
    (hnodup : s.free.Nodup) (husable : ∀ a ∈ s.free, IsFrame a) (hnull : s.physToVirt r ≠ 0)
    (henough : 3 ≤ rest.length) : s.MapsAllOrFails := by
  have hgood := husable r (by rw [hfree]; exact List.mem_cons_self)
  obtain ⟨root, rfl⟩ : ∃ root : Frame, root.addr = r := ⟨hgood.toFrame, hgood.toFrame_addr⟩
  obtain ⟨hbelow, haddr, hrest, -⟩ := BelowRoot.of_create hfree hnodup husable
  have hrun := (hbelow.identityMapPages hnull (hrest ▸ henough) (Nat.le_refl 511)).1
  refine ⟨_, _, s.createKernelPageTables_eq, ?_, ?_⟩
  · intro _ addr
    rw [haddr, hbelow.virt]
    exact hrun.refines.translate addr
  · intro hzero
    exact absurd (haddr.symm.trans hzero) hgood.2.1

/-- With fewer page 1 is missing below the root. -/
theorem not_mapsAllOrFails_of_short {r : Nat} {rest : List Nat} (hfree : s.free = r :: rest)
    (hnodup : s.free.Nodup) (husable : ∀ a ∈ s.free, IsFrame a) (hnull : s.physToVirt r ≠ 0)
    (hshort : rest.length < 3) : ¬ s.MapsAllOrFails := by
  have hgood := husable r (by rw [hfree]; exact List.mem_cons_self)
  obtain ⟨root, rfl⟩ : ∃ root : Frame, root.addr = r := ⟨hgood.toFrame, hgood.toFrame_addr⟩
  obtain ⟨hbelow, haddr, hrest, hempty⟩ := BelowRoot.of_create hfree hnodup husable
  rintro ⟨root', s', hcall, hmaps, -⟩
  rw [s.createKernelPageTables_eq, haddr, hbelow.virt] at hcall
  cases hcall
  generalize s.createNewPageTable.2 = s₁ at *
  -- the call for page 1 fails, three tables below the root being missing
  have hmissing : tablesMissing (s₁.treeAt root.addr) [] [0, 0, 0] = 3 := by
    have hnone : ∀ q ∈ pathsBelow [] [0, 0, 0], (s₁.treeAt root.addr).walkFrom q = none := by
      intro q hq
      by_contra hsome
      obtain ⟨t, ht⟩ := Option.ne_none_iff_exists'.mp hsome
      have hlen := (length_of_mem_pathsBelow hq).1
      rw [hempty q t ht] at hlen
      exact absurd hlen (by decide)
    rw [tablesMissing, List.countP_eq_length.mpr fun q hq => by rw [hnone q hq]; rfl]
    rfl
  have hframe := isFrame_low (show 0 < 511 by decide)
  have hfailed := hbelow.map_of_short hnull hframe.2.1 hframe
    (by rw [upperIndices_low (by decide), hmissing, hrest]; exact hshort)
  have hnext := hbelow.map hnull hframe.2.1 hframe
  rw [hfailed] at hnext
  -- and no later call maps it
  have hothers : ∀ a ∈ List.range' 0x2000 510 0x1000, IsFrame a ∧ pageNumber a ≠ 1 := by
    intro a ha
    obtain ⟨k, hk, rfl⟩ := List.mem_range'.mp ha
    have hpage : 0x2000 + 0x1000 * k = 0x1000 + 0x1000 * (k + 1) := by omega
    rw [hpage, pageNumber_low (by omega)]
    exact ⟨isFrame_low (by omega), by omega⟩
  obtain ⟨pages, hlast, hone⟩ := hnext.identityMapPages_unmapped hnull rfl hothers
  have hunmapped := hlast.refines.translate 0x1000
  have hmapped := hmaps hgood.2.1 0x1000
  have hpage : pageNumber 0x1000 = 1 := by decide
  rw [StackState.identityMapPages, List.range'_succ, List.foldl_cons] at hmapped
  rw [hpage] at hunmapped hmapped
  have hnone : StackState.identityPages 512 1 = none :=
    hmapped.symm.trans (hunmapped.trans hone)
  exact absurd hnone (by decide)

/-- Without a frame nothing is written unless `NULL` leads to tables. -/
theorem mapsAllOrFails_of_empty_iff (hfree : s.free = []) :
    s.MapsAllOrFails ↔ ¬ s.NullReaches := by
  have hnull := StackState.createNewPageTable_of_empty hfree
  have hcall := s.createKernelPageTables_eq
  rw [hnull] at hcall
  dsimp only at hcall
  constructor
  · rintro ⟨root, s', hcall', -, hfails⟩ hreaches
    rw [hcall] at hcall'
    cases hcall'
    obtain ⟨new, popped, hwritten, hpopped, hwithin⟩ := hfails rfl
    obtain rfl : popped = [] := (List.append_eq_nil_iff.mp (hpopped.symm.trans hfree)).1
    -- the first call writes, and no frame was taken
    obtain ⟨ptr, v, hfirst⟩ :=
      (StackState.mapToPage_null hfree (show 0x1000 < 2 ^ 21 by decide) 0x1000).2 hreaches
    obtain ⟨-, new', hnew'⟩ := StackState.identityMapPages_of_empty
      (show (s.writeEntry ptr v).free = [] from hfree) (s.physToVirt 0)
      (List.range' 0x2000 510 0x1000)
    rw [StackState.identityMapPages, List.range'_succ, List.foldl_cons,
      StackState.identityMapPage, hfirst] at hwritten
    have hgrown : new ++ s.written = new' ++ (ptr, 8) :: s.written := hwritten.symm.trans hnew'
    obtain _ | ⟨write, new⟩ := new
    · have hlength := congrArg List.length hgrown
      simp only [List.nil_append, List.length_append, List.length_cons] at hlength
      omega
    · obtain ⟨f, hf, -⟩ := hwithin write List.mem_cons_self
      cases hf
  · intro hnot
    have hrun : ∀ addrs : List Nat, (∀ a ∈ addrs, a < 2 ^ 21) →
        s.identityMapPages (s.physToVirt 0) addrs = s := by
      intro addrs haddrs
      induction addrs with
      | nil => rfl
      | cons a rest ih =>
          have hfirst := (StackState.mapToPage_null hfree (haddrs a List.mem_cons_self) a).1 hnot
          rw [StackState.identityMapPages, List.foldl_cons, StackState.identityMapPage, hfirst]
          exact ih fun b hb => haddrs b (List.mem_cons_of_mem _ hb)
    rw [hrun _ fun a ha => ?_] at hcall
    · refine ⟨0, s, hcall, fun h => absurd rfl h, fun _ => ⟨[], [], rfl, rfl, ?_⟩⟩
      rintro write ⟨⟩
    · obtain ⟨k, hk, rfl⟩ := List.mem_range'.mp ha
      omega

/-- All low pages are mapped or a failure is reported exactly when there are four frames,
or none and nothing behind `NULL`. -/
theorem createKernelPageTables_mapsAllOrFails_iff (hnodup : s.free.Nodup)
    (husable : ∀ a ∈ s.free, IsFrame a) (hnull : ∀ a ∈ s.free.head?, s.physToVirt a ≠ 0) :
    s.MapsAllOrFails ↔ 4 ≤ s.free.length ∨ (s.free = [] ∧ ¬ s.NullReaches) := by
  cases hfree : s.free with
  | nil =>
      rw [mapsAllOrFails_of_empty_iff hfree]
      simp
  | cons r rest =>
      have hroot : s.physToVirt r ≠ 0 := hnull r (by rw [hfree]; rfl)
      have hcond : 4 ≤ (r :: rest).length ∨ (r :: rest = [] ∧ ¬ s.NullReaches) ↔
          3 ≤ rest.length := by
        simp
      rw [hcond]
      constructor
      · intro hmaps
        by_contra hshort
        exact not_mapsAllOrFails_of_short hfree hnodup husable hroot (by omega) hmaps
      · exact mapsAllOrFails_of_enough hfree hnodup husable hroot

/-- Nothing is mapped, and the frames from 2 MiB on are free. -/
def bootStack (n : Nat) : StackState where
  tables := ⟨fun _ => 0⟩
  offset := 0
  cr3 := 0x1000
  free := List.range' 0x200000 n 0x1000
  written := []

theorem bootStack_mapsAllOrFails : (bootStack 4).MapsAllOrFails :=
  (createKernelPageTables_mapsAllOrFails_iff (by decide) (by decide) (by decide)).mpr
    (.inl (by decide))

/-- One frame makes a root with nothing below it. -/
theorem not_mapsAllOrFails : ¬ (bootStack 1).MapsAllOrFails :=
  not_mapsAllOrFails_of_short (r := 0x200000) rfl (by decide) (by decide) (by decide) (by decide)

end MapsAllOrFails

end FroggyOs
