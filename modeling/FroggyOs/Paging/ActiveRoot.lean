import FroggyOs.Memory.FrameStack
import FroggyOs.Paging.Refinement
import FroggyOs.Paging.Writes
import Mathlib.Data.List.Nodup

/-!
# The root of the active tables

`active_pml4_table` masks the flag bits of CR3 away before it adds the direct-map
offset. `map_to_page` computes the masked address too, into `pgdPtr`, but passes the raw
value on. With the flag bits clear a page that has been mapped is found; for every other
value of CR3 there are tables below which a mapping goes to an entry that no lookup reads.
-/

namespace FroggyOs

open ByteMemory Word64 RadixTree

/-- When the call succeeds, the lookup that follows finds an entry that holds the frame. -/
def LookupFinds (s : PageState) (addr frame frameAlloc : Nat) : Prop :=
  (mapToPage s addr frame frameAlloc 0).1 ≠ 0 →
    ∃ ptr, fetchPageTableEntry (mapToPage s addr frame frameAlloc 0).2 addr = some ptr ∧
      pageTablePhysAddress ((mapToPage s addr frame frameAlloc 0).2.readEntry ptr) = frame

/-! ## Flag bits clear -/

theorem lookupFinds_of_aligned {s : PageState} {addr frame frameAlloc : Nat}
    (hcr3 : s.cr3.toNat % 4096 = 0) (haligned : frame % 4096 = 0) (hframe : frame < 2 ^ 51)
    (hfresh : FreshTables s (mapToPage s addr frame frameAlloc 0).2)
    (hleaf : s.LeafApart (pt addr) s.root [pgd addr, pud addr, pmd addr]) :
    LookupFinds s addr frame frameAlloc := by
  intro hfound
  have hroot := startsAtRoot_of_aligned hcr3 (.inl rfl)
  have hnull : s.physToVirt s.root.addr ≠ 0 := by
    intro hnull
    rw [mapToPage_of_null hroot hnull] at hfound
    exact hfound rfl
  have hword : frame < 2 ^ 64 := Nat.lt_trans hframe (by decide)
  obtain ⟨new, -, -, -, hbelow, -⟩ := mapToPage_writes hroot hnull hword hfresh
  have hwalk := hbelow.found hfound hleaf
  rw [← PageState.root_congr hbelow.cr3] at hwalk
  refine (PageState.fetchPageTableEntry_some_iff _ addr frame).mpr
    ⟨⟨frame, haligned, hword⟩, ?_, rfl⟩
  exact hwalk.trans (decodeEntry_encodeEntry ⟨frame, haligned, hword⟩ hframe)

/-! ## Flag bits set -/

section Stocked

variable {s : PageState} {t : Frame} {address v frameAlloc : Nat} {stack : List Nat}

/-- Below a zeroed table a list with a frame for each level serves the call. -/
theorem mapBelow_of_stack (address v : Nat) (rest : List (Fin 512)) (hzero : ∀ j, s.entryAt t j = 0)
    (hrep : FrameListRep s.frames frameAlloc stack) (hlen : rest.length ≤ stack.length)
    (hframes : ∀ a ∈ stack, IsFrame a) (hnodup : (t.addr :: stack).Nodup) :
    (mapBelow address v frameAlloc s (s.physToVirt t.addr) rest).1 = address ∧
      (mapBelow address v frameAlloc s (s.physToVirt t.addr) rest).2.created =
        (stack.take rest.length).reverse ++ s.created := by
  induction rest generalizing s t stack with
  | nil => exact ⟨rfl, rfl⟩
  | cons i rest ih =>
      obtain _ | ⟨f, stack⟩ := stack
      · simp at hlen
      have hgood := hframes f List.mem_cons_self
      obtain ⟨t', rfl⟩ : ∃ t' : Frame, t'.addr = f := ⟨hgood.toFrame, hgood.toFrame_addr⟩
      obtain ⟨hpop, hrest⟩ := popFrameList_rep hrep
      have hempty : decodeEntry (s.entryAt t i) = none := by rw [hzero, decodeEntry_zero]
      have hlinks : Links s t i t' (linkTable s t i t' frameAlloc) :=
        linkTable_links i hpop hgood.2.1
      have hne : t' ≠ t := by
        rintro rfl
        simp at hnodup
      rw [mapBelow_of_frame address v rest hempty hpop hgood.2.1]
      have hlinked : (linkTable s t i t' frameAlloc).frames =
          (popFrameList s.frames frameAlloc).2 := linkTable_frames
      rw [← hlinked] at hrest
      obtain ⟨hfound, hcreated⟩ := ih (hlinks.zeroed hne) hrest (by simpa using hlen)
        (fun a ha => hframes a (List.mem_cons_of_mem _ ha)) hnodup.of_cons
      exact ⟨hfound, by rw [hcreated, hlinks.created]; simp⟩

end Stocked

section Shifted

attribute [local irreducible] popFrameList nextTable

/-- Zeroed table memory, no direct-map offset, and the given CR3 and frame list. -/
def zeroedTables (cr3 : UInt64) (frames : Mem) : PageState where
  tables := ⟨fun _ => 0⟩
  frames := frames
  offset := 0
  cr3 := cr3
  created := []

variable {cr3 : UInt64} {frames : Mem}

theorem zeroedTables_entryAt (t : Frame) (i : Fin 512) :
    (zeroedTables cr3 frames).entryAt t i = 0 :=
  PageState.entryAt_of_zero rfl t i

theorem zeroedTables_physToVirt {a : Nat} (h : a < 2 ^ 64) :
    (zeroedTables cr3 frames).physToVirt a = a :=
  add64_zero h

theorem zeroedTables_isTable {a : Nat} (h : (zeroedTables cr3 frames).IsTable a) :
    a = (zeroedTables cr3 frames).root.addr := by
  obtain ⟨path, t, -, ht, rfl⟩ := h
  obtain rfl := Refines.path_eq_nil_of_zeroed (zeroedTables_entryAt _) ht
  cases ht
  rfl

/-- The present bit of an entry is in its first byte. -/
theorem isPageTablePresent_of_byte {s : PageState} {ptr : Nat} (h : s.tables.byte ptr = 0) :
    isPageTablePresent (s.readEntry ptr) = false := by
  have hload : s.readEntry ptr = (s.tables.byte ptr).toNat + 256 * s.tables.load (ptr + 1) 7 := rfl
  have hbit : s.readEntry ptr &&& 1 = 0 := by
    rw [hload, h, Nat.and_one_is_mod]
    change (0 + 256 * _) % 2 = 0
    omega
  simp [isPageTablePresent, hbit]

/-- A first level at any pointer, where the bytes of the entry lie outside of the new table. -/
theorem mapBelow_of_ptr {s : PageState} {t : Frame} {ptr frameAlloc : Nat} {i : Fin 512}
    (address v : Nat) (rest : List (Fin 512))
    (hempty : isPageTablePresent (s.readEntry (ptr + 8 * i.val)) = false)
    (hpop : (popFrameList s.frames frameAlloc).1 = t.addr) (hne : t.addr ≠ 0)
    (hapart : s.physToVirt t.addr + 4096 ≤ ptr + 8 * i.val ∨
      ptr + 8 * i.val + 8 ≤ s.physToVirt t.addr) :
    ∃ s₁, mapBelow address v frameAlloc s ptr (i :: rest) =
        mapBelow address v frameAlloc s₁ (s₁.physToVirt t.addr) rest ∧
      s₁.offset = s.offset ∧ s₁.cr3 = s.cr3 ∧ s₁.created = t.addr :: s.created ∧
      s₁.frames = (popFrameList s.frames frameAlloc).2 ∧ (∀ j, s₁.entryAt t j = 0) ∧
      WritesWithin s s₁ (Mem.range (ptr + 8 * i.val) 8 ∪ s.page t) := by
  refine ⟨(createNewPageTable s frameAlloc).2.writeEntry (ptr + 8 * i.val) (encodeEntry t.addr),
    ?_, ?_, ?_, ?_, ?_, fun j => ?_, ?_⟩
  · rw [mapBelow, nextTable_of_ne hempty (hpop ▸ hne), hpop]
    simp only [PageState.physToVirt, PageState.writeEntry_offset, createNewPageTable_offset]
  · rw [PageState.writeEntry_offset, createNewPageTable_offset]
  · rw [PageState.writeEntry_cr3, createNewPageTable_cr3]
  · rw [PageState.writeEntry_created, createNewPageTable_created (hpop ▸ hne), hpop]
  · rw [PageState.writeEntry_frames, createNewPageTable_frames]
  · have hj := j.isLt
    rw [← createNewPageTable_entryAt_new hpop hne j]
    apply Mem.get_put_disjoint
    simp only [PageState.entryPtr, PageState.physToVirt, PageState.writeEntry_offset,
      createNewPageTable_offset] at hapart ⊢
    omega
  · exact ((writesWithin_createNewPageTable hpop).mono Set.subset_union_right).trans
      ((writesWithin_writeEntry _ _ _).mono Set.subset_union_left)

theorem zeroedTables_root_addr :
    (zeroedTables cr3 frames).root.addr = cr3.toNat - cr3.toNat % 4096 := by
  have hlow : cr3.toNat &&& not64 0xFFF = 4096 * (cr3.toNat / 4096) :=
    and_not64_low (k := 12) cr3.toNat_lt (by decide)
  change cr3.toNat &&& not64 0xFFF = _
  rw [hlow]
  omega

/-- The frames of a list are usable, distinct and far from the root. -/
structure FarStack (cr3 : UInt64) (stack : List Nat) : Prop where
  usable : ∀ a ∈ stack, IsFrame a
  nodup : stack.Nodup
  far : ∀ a ∈ stack, a + 4096 ≤ cr3.toNat - cr3.toNat % 4096 ∨ cr3.toNat + 4096 ≤ a

theorem FarStack.root_not_mem {stack : List Nat} (h : FarStack cr3 stack) {a : Nat}
    (ha : a ∈ stack) : (zeroedTables cr3 frames).root.addr ∉
      Mem.range ((zeroedTables cr3 frames).physToVirt a) 4096 := by
  rintro ⟨hlow, hhigh⟩
  have hlt : a < 2 ^ 64 := (h.usable a ha).toFrame.lt
  have hfar := h.far a ha
  rw [zeroedTables_physToVirt hlt, zeroedTables_root_addr] at hlow hhigh
  omega

/-- With flag bits set the call succeeds, and the first byte of the root stays zero: the
first table is linked behind it. -/
theorem mapToPage_zeroedTables {stack : List Nat} (hflags : cr3.toNat % 4096 ≠ 0)
    (hrep : FrameListRep frames 0x100 stack) (hlen : 3 ≤ stack.length) (hfar : FarStack cr3 stack) :
    (mapToPage (zeroedTables cr3 frames) 0x1000 0x7000 0x100 0).1 = 0x1000 ∧
      (∃ new, (mapToPage (zeroedTables cr3 frames) 0x1000 0x7000 0x100 0).2.created =
        new ++ (zeroedTables cr3 frames).created ∧ new.Nodup ∧ ∀ a ∈ new, a ∈ stack) ∧
      (mapToPage (zeroedTables cr3 frames) 0x1000 0x7000 0x100 0).2.offset = 0 ∧
      (mapToPage (zeroedTables cr3 frames) 0x1000 0x7000 0x100 0).2.cr3 = cr3 ∧
      (mapToPage (zeroedTables cr3 frames) 0x1000 0x7000 0x100 0).2.tables.byte
        (zeroedTables cr3 frames).root.addr = 0 := by
  obtain _ | ⟨f, stack⟩ := stack
  · simp at hlen
  have hgood := hfar.usable f List.mem_cons_self
  obtain ⟨t, rfl⟩ : ∃ t : Frame, t.addr = f := ⟨hgood.toFrame, hgood.toFrame_addr⟩
  obtain ⟨hpop, hrest⟩ := popFrameList_rep hrep
  have hvirt : (zeroedTables cr3 frames).physToVirt (zeroedTables cr3 frames).cr3.toNat =
      cr3.toNat := zeroedTables_physToVirt cr3.toNat_lt
  have hcall := mapToPage_eq_mapBelow (zeroedTables cr3 frames) 0x1000 0x7000 0x100 0
  rw [if_pos rfl, hvirt, if_neg (by omega)] at hcall
  -- the first level reads and writes the entry at the raw value of CR3
  have hindex : (pgd 0x1000).val = 0 := by decide
  have hempty : isPageTablePresent ((zeroedTables cr3 frames).readEntry
      (cr3.toNat + 8 * (pgd 0x1000).val)) = false := isPageTablePresent_of_byte rfl
  have htable := hfar.far t.addr List.mem_cons_self
  obtain ⟨s₁, hfirst, hoffset, hcr3, hcreated, hframes₁, hzero, hwithin₁⟩ :=
    mapBelow_of_ptr 0x1000 (encodeEntry 0x7000) [pud 0x1000, pmd 0x1000] hempty
      hpop hgood.2.1 (by rw [zeroedTables_physToVirt t.lt, hindex]; omega)
  -- the levels below are served by the rest of the list
  have hrest₁ : FrameListRep s₁.frames 0x100 stack := by
    rw [hframes₁]
    exact hrest
  have hgoods : ∀ a ∈ stack, IsFrame a := fun a ha => hfar.usable a (List.mem_cons_of_mem _ ha)
  obtain ⟨hfound, hcreated₂⟩ := mapBelow_of_stack 0x1000 (encodeEntry 0x7000)
    [pud 0x1000, pmd 0x1000] hzero hrest₁ (by simpa using hlen) hgoods hfar.nodup
  have hnew : ∀ a ∈ (stack.take 2).reverse, a ∈ stack :=
    fun a ha => List.mem_of_mem_take (List.mem_reverse.mp ha)
  have hnodup : ((stack.take 2).reverse ++ [t.addr]).Nodup := by
    rw [← List.reverse_cons, List.nodup_reverse]
    exact hfar.nodup.sublist ((List.take_sublist 2 stack).cons_cons t.addr)
  have hbelow := mapBelow_fresh (encodeEntry_lt (by decide)) hzero hcreated₂
    (fun a ha => hgoods a (hnew a ha)) hnodup
  rw [← hfirst, ← hcall] at hbelow hfound hcreated₂
  refine ⟨hfound, ⟨(stack.take 2).reverse ++ [t.addr], ?_, hnodup, fun a ha => ?_⟩,
    hbelow.offset.trans hoffset, hbelow.cr3.trans hcr3, ?_⟩
  · rw [hcreated₂, hcreated, List.append_assoc]
    rfl
  · obtain ha | ha := List.mem_append.mp ha
    · exact List.mem_cons_of_mem _ (hnew a ha)
    · rw [List.mem_singleton.mp ha]
      exact List.mem_cons_self
  · refine (hbelow.within ?_).trans (hwithin₁ ?_)
    · rw [page_congr hoffset, pages_congr hoffset]
      rintro (hin | ⟨a, ha, hin⟩)
      · exact hfar.root_not_mem List.mem_cons_self hin
      · exact hfar.root_not_mem (List.mem_cons_of_mem _ (hnew a ha)) hin
    · rintro (⟨hlow, -⟩ | hin)
      · rw [zeroedTables_root_addr] at hlow
        omega
      · exact hfar.root_not_mem List.mem_cons_self hin

/-- So the lookup meets an empty root. -/
theorem not_lookupFinds_zeroedTables {stack : List Nat} (hflags : cr3.toNat % 4096 ≠ 0)
    (hrep : FrameListRep frames 0x100 stack) (hlen : 3 ≤ stack.length) (hfar : FarStack cr3 stack) :
    FreshTables (zeroedTables cr3 frames)
        (mapToPage (zeroedTables cr3 frames) 0x1000 0x7000 0x100 0).2 ∧
      ¬ LookupFinds (zeroedTables cr3 frames) 0x1000 0x7000 0x100 := by
  obtain ⟨hfound, ⟨new, hcreated, hnodup, hnew⟩, hoffset, hcr3, hbyte⟩ :=
    mapToPage_zeroedTables hflags hrep hlen hfar
  rw [LookupFinds]
  generalize mapToPage (zeroedTables cr3 frames) 0x1000 0x7000 0x100 0 = result at *
  have hroot : result.2.root = (zeroedTables cr3 frames).root := PageState.root_congr hcr3
  constructor
  · refine ⟨new, hcreated, hnodup, fun a ha => ⟨hfar.usable a (hnew a ha), fun htable => ?_⟩⟩
    have := hfar.far a (hnew a ha)
    rw [zeroedTables_isTable htable, zeroedTables_root_addr] at this
    omega
  · intro hfinds
    obtain ⟨ptr, hptr, -⟩ := hfinds (by rw [hfound]; decide)
    have hptr₀ : result.2.entryPtr result.2.root (pgd 0x1000) =
        (zeroedTables cr3 frames).root.addr := by
      rw [PageState.entryPtr, hroot,
        PageState.physToVirt_congr (s := zeroedTables cr3 frames) hoffset]
      exact zeroedTables_physToVirt (PageState.root _).lt
    have hentry : decodeEntry (result.2.entryAt result.2.root (pgd 0x1000)) = none := by
      rw [decodeEntry, PageState.entryAt, hptr₀, isPageTablePresent_of_byte hbyte]
      rfl
    rw [PageState.fetchPageTableEntry_eq, PageState.walkFrom, walk_cons, hentry] at hptr
    cases hptr

/-- Three frames that stay clear of the root, wherever it is. -/
theorem exists_farStack (cr3 : UInt64) : ∃ frames stack, FrameListRep frames 0x100 stack ∧
    3 ≤ stack.length ∧ FarStack cr3 stack := by
  have hrep : ∀ stack : List Nat, (∀ a ∈ stack, a < 2 ^ 64) → stack.length = 3 →
      FrameListRep (stack.reverse.foldl (pushFrameList · 0x100 ·)
        (initFrameListHeader ⟨fun _ => 0⟩ 0x100)) 0x100 stack := by
    intro stack hlt hlen
    have hreverse : ∀ a ∈ stack.reverse, a < 2 ^ 64 := fun a ha => hlt a (List.mem_reverse.mp ha)
    have hpushed := foldl_pushFrameList_rep
      (initFrameListHeader_rep ⟨fun _ => 0⟩ (by decide : 0x100 + 24 < 2 ^ 64)) hreverse
      (by simp [hlen])
    simpa using hpushed
  by_cases hlow : cr3.toNat < 0x100000
  · refine ⟨_, [0x200000, 0x201000, 0x202000], hrep _ (by decide) rfl, by decide, by decide,
      by decide, fun a ha => .inr ?_⟩
    have hge : 0x200000 ≤ a := by
      revert a
      decide
    omega
  · refine ⟨_, [0x2000, 0x3000, 0x4000], hrep _ (by decide) rfl, by decide, by decide,
      by decide, fun a ha => .inl ?_⟩
    have hle : a ≤ 0x4000 := by
      revert a
      decide
    omega

end Shifted

/-- The lookup finds what has been mapped, below every table memory in which the leaf entry
is not read on the way to it, if and only if the flag bits of CR3 are clear. -/
theorem mapToPage_lookup_iff (cr3 : UInt64) :
    (∀ (s : PageState) (addr frame frameAlloc : Nat), s.cr3 = cr3 → addr ≠ 0 →
      frame % 4096 = 0 → frame < 2 ^ 51 →
      FreshTables s (mapToPage s addr frame frameAlloc 0).2 →
      s.LeafApart (pt addr) s.root [pgd addr, pud addr, pmd addr] →
        LookupFinds s addr frame frameAlloc) ↔ cr3.toNat % 4096 = 0 := by
  constructor
  · intro hfinds
    by_contra hflags
    obtain ⟨frames, stack, hrep, hlen, hfar⟩ := exists_farStack cr3
    obtain ⟨hfresh, hnot⟩ := not_lookupFinds_zeroedTables hflags hrep hlen hfar
    exact hnot (hfinds _ _ _ _ rfl (by decide) (by decide) (by decide) hfresh
      (leafApart_of_zeroed (zeroedTables_entryAt _) _ _))
  · rintro haligned s addr frame frameAlloc rfl - hframe hlt hfresh hleaf
    exact lookupFinds_of_aligned haligned hframe hlt hfresh hleaf

/-- CR3 with the write-through bit set, over an empty root in frame 0x1000. -/
def writeThroughRoot : PageState := { zeroedRoot with cr3 := 0x1008 }

theorem not_lookupFinds_writeThroughRoot :
    ¬ LookupFinds writeThroughRoot 0x400000 0x7000 0x100 := by
  intro hfinds
  obtain ⟨ptr, hptr, -⟩ := hfinds (by decide)
  have hnone : fetchPageTableEntry (mapToPage writeThroughRoot 0x400000 0x7000 0x100 0).2
      0x400000 = none := by decide
  rw [hnone] at hptr
  cases hptr

end FroggyOs
