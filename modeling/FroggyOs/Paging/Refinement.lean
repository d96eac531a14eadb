import FroggyOs.Paging.Mapping

/-!
# The page tables refine a map from pages to frames

`PagingRun` lists the runs of `map_to_page` and `unmap_page` on one root together with
the abstract map from page numbers to frames that they are meant to maintain: a
successful `map_to_page` updates it at one page, a failed one leaves it alone, and
`unmap_page` removes one page. `Represents` relates the table memory to that map
through the lookup of `fetch_page_table_entry`, and it holds after every run.
-/

namespace FroggyOs

open ByteMemory Word64 RadixTree

/-- A partial map from page numbers to the addresses of frames. -/
abbrev PageMap := Nat → Option Nat

namespace PageMap

def empty : PageMap := fun _ => none

def insert (pages : PageMap) (page frame : Nat) : PageMap := Function.update pages page (some frame)

def erase (pages : PageMap) (page : Nat) : PageMap := Function.update pages page none

/-- The abstract counterpart of `map_to_page`, given the result of the call. -/
def afterMap (pages : PageMap) (address frame result : Nat) : PageMap :=
  if result = 0 then pages else pages.insert (pageNumber address) frame

end PageMap

/-- Runs of `map_to_page` and `unmap_page` from `start`, with the abstract map they
maintain. Every table frame handed out on the way is usable and new to the tree. -/
inductive PagingRun (start : PageState) : PageMap → PageState → Prop where
  | start : PagingRun start .empty start
  | map {pages s} {address frame frameAlloc pml4 : Nat} (hrun : PagingRun start pages s)
      (haddress : address ≠ 0) (hframe : IsFrame frame)
      (hpml4 : pml4 = 0 ∨ pml4 = s.physToVirt s.root.addr)
      (hfresh : FreshTables s (mapToPage s address frame frameAlloc pml4).2) :
      PagingRun start
        (pages.afterMap address frame (mapToPage s address frame frameAlloc pml4).1)
        (mapToPage s address frame frameAlloc pml4).2
  | unmap {pages s} {addr : Nat} (hrun : PagingRun start pages s) :
      PagingRun start (pages.erase (pageNumber addr)) (unmapPage s addr).2

/-- The lookup ends in an entry holding the frame the map has for the page, and reports
not-present where the map has none. -/
def Represents (s : PageState) (pages : PageMap) : Prop :=
  ∀ addr, match pages (pageNumber addr) with
    | some frame => ∃ ptr, fetchPageTableEntry s addr = some ptr ∧
        pageTablePhysAddress (s.readEntry ptr) = frame
    | none => fetchPageTableEntry s addr = none

/-- The table at `path` has a non-leaf entry at index `i` that refers to `t`. -/
def PageState.RefersTo (s : PageState) (path : List (Fin 512)) (i : Fin 512) (t : Frame) : Prop :=
  path.length < 3 ∧ ∃ u, s.walkFrom path = some u ∧ decodeEntry (s.entryAt u i) = some t

/-- No table is referenced by two non-leaf entries, and the root by none. -/
structure SingleReferences (s : PageState) : Prop where
  unique : ∀ p q i j t, s.RefersTo p i t → s.RefersTo q j t → p = q ∧ i = j
  root : ∀ p i, ¬ s.RefersTo p i s.root

/-! ## The invariant -/

/-- The invariant of a run: an unshared tree whose translations are those of the map. -/
structure Refines (s : PageState) (pages : PageMap) : Prop where
  aligned : s.cr3.toNat % 4096 = 0
  unshared : s.Unshared
  frames : ∀ page frame, pages page = some frame → IsFrame frame
  translate : ∀ addr, (s.translate addr).map Frame.addr = pages (pageNumber addr)

namespace Refines

variable {s : PageState} {pages : PageMap}

theorem represents (h : Refines s pages) : Represents s pages := by
  intro addr
  have htranslate := h.translate addr
  cases hpage : pages (pageNumber addr) with
  | none =>
      rw [hpage, Option.map_eq_none_iff] at htranslate
      exact (s.fetchPageTableEntry_none_iff addr).mpr htranslate
  | some frame =>
      rw [hpage, Option.map_eq_some_iff] at htranslate
      exact (s.fetchPageTableEntry_some_iff addr frame).mpr htranslate

theorem singleReferences (h : Refines s pages) : SingleReferences s := by
  have hwalk : ∀ p i t, s.RefersTo p i t → s.walkFrom (p ++ [i]) = some t := by
    rintro p i t ⟨_, u, hu, hentry⟩
    rw [PageState.walkFrom_snoc, hu]
    exact hentry
  have hlen : ∀ p i t, s.RefersTo p i t → (p ++ [i]).length < 4 := by
    rintro p i t ⟨hp, _⟩
    simp only [List.length_append, List.length_singleton]
    omega
  constructor
  case unique =>
    intro p q i j t hp hq
    have heq : p ++ [i] = q ++ [j] :=
      h.unshared _ _ t (hlen p i t hp) (hlen q j t hq) (hwalk p i t hp) (hwalk q j t hq)
    exact List.append_inj' heq rfl |>.imp_right List.singleton_inj.mp
  case root =>
    intro p i hp
    have heq : p ++ [i] = [] :=
      h.unshared _ _ s.root (hlen p i _ hp) (by simp) (hwalk p i _ hp) rfl
    simp at heq

/-- Only the empty path leads anywhere below a zeroed root. -/
theorem path_eq_nil_of_zeroed (hzero : ∀ i, s.entryAt s.root i = 0) {path : List (Fin 512)}
    {t : Frame} (h : s.walkFrom path = some t) : path = [] := by
  obtain _ | ⟨i, path⟩ := path
  · rfl
  · rw [PageState.walkFrom, walk_cons, hzero, decodeEntry_zero] at h
    cases h

theorem isTable_of_zeroed (hzero : ∀ i, s.entryAt s.root i = 0) {addr : Nat}
    (h : s.IsTable addr) : addr = s.root.addr := by
  obtain ⟨path, t, _, ht, rfl⟩ := h
  obtain rfl := path_eq_nil_of_zeroed hzero ht
  cases ht
  rfl

/-- A zeroed root is an empty tree. -/
theorem of_zeroed (hcr3 : s.cr3.toNat % 4096 = 0) (hzero : ∀ i, s.entryAt s.root i = 0) :
    Refines s .empty := by
  have hwalk : ∀ p t, s.walkFrom p = some t → p = [] :=
    fun p t h => path_eq_nil_of_zeroed hzero h
  refine ⟨hcr3, ?_, ?_, ?_⟩
  · intro p q t _ _ hp hq
    rw [hwalk p t hp, hwalk q t hq]
  · rintro page frame ⟨⟩
  · intro addr
    cases ht : s.translate addr with
    | none => rfl
    | some t => cases hwalk _ t ht

theorem map (h : Refines s pages) {address frame frameAlloc pml4 : Nat}
    (haddress : address ≠ 0) (hframe : IsFrame frame)
    (hpml4 : pml4 = 0 ∨ pml4 = s.physToVirt s.root.addr)
    (hfresh : FreshTables s (mapToPage s address frame frameAlloc pml4).2) :
    Refines (mapToPage s address frame frameAlloc pml4).2
      (pages.afterMap address frame (mapToPage s address frame frameAlloc pml4).1) := by
  have hword : frame < 2 ^ 64 := hframe.toFrame.lt
  have hroot := startsAtRoot_of_aligned h.aligned hpml4
  have hspec := mapToPage_spec h.unshared hroot haddress hword hfresh
  have haligned : (mapToPage s address frame frameAlloc pml4).2.cr3.toNat % 4096 = 0 := by
    rw [hspec.step.cr3]
    exact h.aligned
  by_cases hresult : (mapToPage s address frame frameAlloc pml4).1 = 0
  · have hsame := hspec.failed hresult
    rw [PageMap.afterMap, if_pos hresult]
    exact ⟨haligned, hspec.step.unshared, h.frames, fun addr => by rw [hsame, h.translate]⟩
  · have hmapped := (hspec.mapped hresult).2
    have hentry : decodeEntry (encodeEntry frame) = some hframe.toFrame :=
      decodeEntry_encodeEntry hframe.toFrame hframe.2.2
    rw [PageMap.afterMap, if_neg hresult]
    refine ⟨haligned, hspec.step.unshared, ?_, fun addr => ?_⟩
    · intro page frame' hpage
      by_cases hp : page = pageNumber address
      · rw [PageMap.insert, hp, Function.update_self] at hpage
        cases hpage
        exact hframe
      · rw [PageMap.insert, Function.update_of_ne hp] at hpage
        exact h.frames page frame' hpage
    · rw [hmapped, hentry, PageMap.insert]
      by_cases hp : pageNumber addr = pageNumber address
      · rw [if_pos hp, hp, Function.update_self]
        rfl
      · rw [if_neg hp, Function.update_of_ne hp, h.translate]

theorem unmap (h : Refines s pages) (addr : Nat) :
    Refines (unmapPage s addr).2 (pages.erase (pageNumber addr)) := by
  have hnonzero : ∀ t, s.translate addr = some t → t.addr ≠ 0 := by
    intro t ht
    have hpage := h.translate addr
    rw [ht] at hpage
    exact (h.frames _ _ hpage.symm).2.1
  obtain ⟨hstep, hunmapped⟩ := unmapPage_spec h.unshared hnonzero
  refine ⟨by rw [hstep.cr3]; exact h.aligned, hstep.unshared, ?_, fun b => ?_⟩
  · intro page frame hpage
    by_cases hp : page = pageNumber addr
    · rw [PageMap.erase, hp, Function.update_self] at hpage
      cases hpage
    · rw [PageMap.erase, Function.update_of_ne hp] at hpage
      exact h.frames page frame hpage
  · rw [hunmapped, PageMap.erase]
    by_cases hp : pageNumber b = pageNumber addr
    · rw [if_pos hp, hp, Function.update_self]
      rfl
    · rw [if_neg hp, Function.update_of_ne hp, h.translate]

/-- Every run keeps the invariant. -/
theorem of_run {start : PageState} (hcr3 : start.cr3.toNat % 4096 = 0)
    (hzero : ∀ i, start.entryAt start.root i = 0) (hrun : PagingRun start pages s) :
    Refines s pages := by
  induction hrun with
  | start => exact of_zeroed hcr3 hzero
  | map _ haddress hframe hpml4 hfresh ih => exact ih.map haddress hframe hpml4 hfresh
  | unmap _ ih => exact ih.unmap _

end Refines

/-- After every run from a zeroed root, the page tables represent the map from pages to
frames that the run describes, and no table has two references. -/
theorem pagingRun_represents {start s : PageState} {pages : PageMap}
    (hcr3 : start.cr3.toNat % 4096 = 0) (hzero : ∀ i, start.entryAt start.root i = 0)
    (hrun : PagingRun start pages s) : Represents s pages ∧ SingleReferences s :=
  have hrefines := Refines.of_run hcr3 hzero hrun
  ⟨hrefines.represents, hrefines.singleReferences⟩

section Evaluation

/-- A zeroed root in frame 0x1000 and five frames on the list at 0x100. -/
def zeroedRoot : PageState where
  tables := ⟨fun _ => 0⟩
  frames := [0x2000, 0x3000, 0x4000, 0x5000, 0x6000].foldl (pushFrameList · 0x100)
    (initFrameListHeader ⟨fun _ => 0⟩ 0x100)
  offset := 0
  cr3 := 0x1000
  created := []

/-- The zeroed root after mapping one page, which takes three frames. -/
def onePageMapped : PageState := (mapToPage zeroedRoot 0x400000 0x7000 0x100 0).2

theorem zeroedRoot_entryAt (i : Fin 512) : zeroedRoot.entryAt zeroedRoot.root i = 0 :=
  PageState.entryAt_of_zero rfl _ i

theorem onePageMapped_fresh : FreshTables zeroedRoot onePageMapped := by
  refine ⟨[0x4000, 0x5000, 0x6000], by decide, by decide, fun a ha => ⟨?_, fun htable => ?_⟩⟩
  · revert a
    decide
  · rw [Refines.isTable_of_zeroed zeroedRoot_entryAt htable] at ha
    revert ha
    decide

theorem onePageMapped_represents :
    Represents onePageMapped (PageMap.empty.insert 0x400 0x7000) ∧
      SingleReferences onePageMapped :=
  have hmapped : PageMap.afterMap .empty 0x400000 0x7000
      (mapToPage zeroedRoot 0x400000 0x7000 0x100 0).1 = PageMap.empty.insert 0x400 0x7000 :=
    if_neg (by decide)
  hmapped ▸ pagingRun_represents (by decide) zeroedRoot_entryAt
    (.map (.start) (by decide) (by decide) (.inl rfl) onePageMapped_fresh)

end Evaluation

end FroggyOs
