import FroggyOs.Paging.LargePages
import FroggyOs.Paging.Refinement
import FroggyOs.Paging.Supply

/-!
# The contracts of `map_to_page` and `unmap_page`

A call of `map_to_page` that runs out of frames has linked empty tables at most: no
translation differs, the tree is as well formed as before, and the same call on a list
with enough frames maps its page (`mapToPage_exhausted`). The comment in `paging.h`
promises that `unmap_page` returns the frame of the page; it does so only where there is
none (`unmapPage_meetsContract_iff`).
-/

namespace FroggyOs

open ByteMemory Word64 RadixTree

/-- A tree of tables of 4 KiB pages. The root is an object and so not at `NULL`, and one
table is at one path only, hence also at one level. -/
structure WellFormedTree (s : PageState) : Prop where
  root : s.physToVirt s.root.addr ≠ 0
  unshared : s.Unshared
  small : ∀ path t i, 0 < path.length → path.length < 3 → s.walkFrom path = some t →
    isPageTablePresent (s.entryAt t i) → isLargePage (s.entryAt t i) = false
  below : ∀ a, s.IsTable a → a < 2 ^ 51

/-- An entry that `map_to_page` stores for a table is no large page. -/
theorem isLargePage_encodeEntry {frame : Nat} (h : frame < 2 ^ 64) :
    isLargePage (encodeEntry frame) = false := by
  have hbit : (encodeEntry frame).testBit 7 = false := by
    rw [Nat.testBit_eq_decide_div_mod_eq, encodeEntry_eq h, decide_eq_false_iff_not]
    omega
  rw [isLargePage, Nat.one_shiftLeft, Nat.and_two_pow, hbit]
  rfl

namespace WellFormedTree

variable {s : PageState}

/-- The frame list has no part in it. -/
theorem of_frames (h : WellFormedTree s) (m : Mem) : WellFormedTree { s with frames := m } := by
  have hwalk : PageState.walkFrom { s with frames := m } = s.walkFrom :=
    PageState.walkFrom_congr rfl rfl rfl
  refine ⟨h.root, (TreeStep.of_frames h.unshared m).1.unshared, ?_, ?_⟩
  · intro path t i hlow hhigh ht hpresent
    rw [hwalk] at ht
    exact h.small path t i hlow hhigh ht hpresent
  · rintro a ⟨path, t, hlen, ht, rfl⟩
    rw [hwalk] at ht
    exact h.below _ ⟨path, t, hlen, ht, rfl⟩

/-- Linking a fresh table keeps the tree well formed. -/
theorem link (h : WellFormedTree s) {path : List (Fin 512)} {t t' : Frame} {i : Fin 512}
    {frameAlloc : Nat} (hlen : path.length < 3) (hwalk : s.walkFrom path = some t)
    (hempty : isPageTablePresent (s.entryAt t i) = false)
    (hpop : (popFrameList s.frames frameAlloc).1 = t'.addr) (hgood : IsFrame t'.addr)
    (hfresh : ¬ s.IsTable t'.addr) : WellFormedTree (linkTable s t i t' frameAlloc) := by
  obtain ⟨hunshared, hwalks⟩ :=
    walkFrom_linkTable h.unshared hlen hwalk hempty hpop hgood hfresh
  have ht : t' ≠ t := by
    rintro rfl
    exact hfresh ⟨path, _, by omega, hwalk, rfl⟩
  constructor
  case root =>
    rw [PageState.physToVirt_congr linkTable_offset, PageState.root_congr linkTable_cr3]
    exact h.root
  case unshared => exact hunshared
  case small =>
    intro q u j hlow hhigh hu hpresent
    rw [hwalks q (by omega)] at hu
    split at hu
    · -- the new table is empty
      cases hu
      rw [linkTable_entryAt_new hpop hgood ht] at hpresent
      cases hpresent
    · by_cases hlinked : u = t ∧ j = i
      · rw [hlinked.1, hlinked.2, linkTable_entryAt_link]
        exact isLargePage_encodeEntry t'.lt
      · have hold : u ≠ t' := by
          rintro rfl
          exact hfresh ⟨q, _, by omega, hu, rfl⟩
        rw [linkTable_entryAt_other hpop hgood (not_and_or.mp hlinked) hold] at hpresent ⊢
        exact h.small q u j hlow hhigh hu hpresent
  case below =>
    rintro a ⟨q, u, hq, hu, rfl⟩
    rw [hwalks q (by omega)] at hu
    split at hu
    · cases hu
      exact hgood.2.2
    · exact h.below _ ⟨q, u, hq, hu, rfl⟩

/-- So does one level of `map_to_page`. -/
theorem nextTable (h : WellFormedTree s) {path : List (Fin 512)} {t : Frame} {i : Fin 512}
    {frameAlloc : Nat} (hlen : path.length < 3) (hwalk : s.walkFrom path = some t)
    (hfresh : FreshTables s (FroggyOs.nextTable s (s.entryPtr t i) frameAlloc).2) :
    WellFormedTree (FroggyOs.nextTable s (s.entryPtr t i) frameAlloc).2 := by
  cases hpresent : isPageTablePresent (s.readEntry (s.entryPtr t i)) with
  | true =>
      rw [nextTable_of_present hpresent]
      exact h
  | false =>
      by_cases hpop : (popFrameList s.frames frameAlloc).1 = 0
      · rw [nextTable_of_null hpresent hpop]
        exact h.of_frames _
      · obtain ⟨t', ht', hgood, hspare⟩ := hfresh.taken hpresent hpop
        rw [nextTable_of_ne hpresent hpop, ← ht']
        exact h.link hlen hwalk hpresent ht'.symm hgood hspare

/-- And so do all three levels. -/
theorem descend (h : WellFormedTree s) {path indices : List (Fin 512)} {t : Frame}
    {frameAlloc : Nat} (hlen : path.length + indices.length ≤ 3)
    (hwalk : s.walkFrom path = some t)
    (hfresh : FreshTables s (FroggyOs.descend s (s.physToVirt t.addr) frameAlloc indices).2) :
    WellFormedTree (FroggyOs.descend s (s.physToVirt t.addr) frameAlloc indices).2 := by
  induction indices generalizing s path t with
  | nil => exact h
  | cons i rest ih =>
      simp only [List.length_cons] at hlen
      have hsuffix := nextTable_created_suffix s (s.entryPtr t i) frameAlloc
      have hspec : FreshTables s (FroggyOs.nextTable s (s.entryPtr t i) frameAlloc).2 →
          LevelStep s path [i] (FroggyOs.nextTable s (s.entryPtr t i) frameAlloc) :=
        nextTable_spec h.unshared (by omega) hwalk
      have htree : FreshTables s (FroggyOs.nextTable s (s.entryPtr t i) frameAlloc).2 →
          WellFormedTree (FroggyOs.nextTable s (s.entryPtr t i) frameAlloc).2 :=
        h.nextTable (by omega) hwalk
      have hptr : s.physToVirt t.addr + 8 * i.val = s.entryPtr t i := rfl
      rw [FroggyOs.descend, hptr] at hfresh ⊢
      rcases hresult : FroggyOs.nextTable s (s.entryPtr t i) frameAlloc with ⟨_ | virt, s₁⟩
      all_goals simp only [hresult] at hfresh hsuffix hspec htree ⊢
      · exact htree hfresh
      · obtain ⟨hfresh₁, hrest⟩ :=
          hfresh.split hsuffix (descend_created_suffix s₁ virt frameAlloc rest)
        obtain ⟨hstep₁, _, htable₁⟩ := hspec hfresh₁
        obtain ⟨t₁, rfl, hwalk₁⟩ := htable₁ virt rfl
        rw [← PageState.physToVirt_congr hstep₁.offset] at hrest ⊢
        exact ih (htree hfresh₁) (by simp; omega) hwalk₁ (hrest hstep₁)

end WellFormedTree

/-! ## `map_to_page` out of frames -/

section Exhausted

variable {s : PageState} {address frame frameAlloc pml4 : Nat}

/-- The same call on a list with enough frames maps the page of `address`, and no other. -/
def RetryMaps (s : PageState) (address frame frameAlloc pml4 : Nat) : Prop :=
  ∀ m stack, Stocked { s with frames := m } frameAlloc stack →
    tablesMissing s [] [pgd address, pud address, pmd address] ≤ stack.length →
      (mapToPage { s with frames := m } address frame frameAlloc pml4).1 = address ∧
        ∃ t, (IsFrame frame → t.addr = frame) ∧
          ∀ b, (mapToPage { s with frames := m } address frame frameAlloc pml4).2.translate b =
            if pageNumber b = pageNumber address then some t else s.translate b

/-- An entry that `map_to_page` stores is present, and names a usable frame itself. -/
theorem decodeEntry_encodeEntry_some (h : frame < 2 ^ 64) :
    ∃ t, decodeEntry (encodeEntry frame) = some t ∧ (IsFrame frame → t.addr = frame) := by
  rw [decodeEntry, if_pos (isPageTablePresent_encodeEntry h)]
  exact ⟨_, rfl, fun hframe => pageTablePhysAddress_encodeEntry hframe.1 hframe.2.2⟩

/-- With enough frames a call succeeds. -/
theorem mapToPage_of_stocked (htree : WellFormedTree s) (hroot : StartsAtRoot s pml4)
    (haddress : address ≠ 0) (hframe : frame < 2 ^ 64) {stack : List Nat}
    (hstock : Stocked s frameAlloc stack)
    (henough : tablesMissing s [] [pgd address, pud address, pmd address] ≤ stack.length) :
    (mapToPage s address frame frameAlloc pml4).1 = address ∧
      MapStep s address frame (mapToPage s address frame frameAlloc pml4) := by
  have hwalk : s.walkFrom [] = some s.root := rfl
  have hdescend : DescendTakes s _ _ _ _ (descendTo s address frameAlloc) :=
    descend_of_stocked htree.unshared (by simp) hwalk hstock henough
  obtain ⟨hmap, hleaf⟩ :=
    mapToPage_of_descend hroot htree.root haddress hframe hdescend.level
  refine ⟨?_, hmap⟩
  rw [hleaf.returned, if_pos hdescend.found]

theorem retryMaps (htree : WellFormedTree s) (hroot : StartsAtRoot s pml4) (haddress : address ≠ 0)
    (hframe : frame < 2 ^ 64) : RetryMaps s address frame frameAlloc pml4 := by
  intro m stack hstock henough
  have hwalk : PageState.walkFrom { s with frames := m } = s.walkFrom :=
    PageState.walkFrom_congr rfl rfl rfl
  have henough' : tablesMissing { s with frames := m } []
      [pgd address, pud address, pmd address] ≤ stack.length := by
    rw [tablesMissing_congr fun q _ => by rw [hwalk]]
    exact henough
  obtain ⟨hreturned, hmap⟩ :=
    mapToPage_of_stocked (htree.of_frames m) hroot haddress hframe hstock henough'
  obtain ⟨t, ht, hnamed⟩ := decodeEntry_encodeEntry_some hframe
  refine ⟨hreturned, t, hnamed, fun b => ?_⟩
  have hne : (mapToPage { s with frames := m } address frame frameAlloc pml4).1 ≠ 0 := by
    rw [hreturned]
    exact haddress
  rw [(hmap.mapped hne).2 b, ht, PageState.translate, PageState.translate, hwalk]

/-- A call that fails leaves the tree of its descent. -/
theorem mapToPage_of_failed (hroot : StartsAtRoot s pml4) (hnull : s.physToVirt s.root.addr ≠ 0)
    (haddress : address ≠ 0) (hfailed : (mapToPage s address frame frameAlloc pml4).1 = 0) :
    (mapToPage s address frame frameAlloc pml4).2 = (descendTo s address frameAlloc).2 := by
  have heq : mapToPage s address frame frameAlloc pml4 = _ := mapToPage_eq hroot
  rw [if_neg hnull] at heq
  rw [heq] at hfailed ⊢
  rw [descendTo]
  rcases hresult : descend s (s.physToVirt s.root.addr) frameAlloc
    [pgd address, pud address, pmd address] with ⟨_ | virt, s'⟩
  all_goals simp only [hresult] at hfailed ⊢
  exact absurd hfailed haddress

/-- Whatever frames a failing call was handed, it changes no translation, leaves a
well-formed tree, and can be made again. -/
theorem mapToPage_exhausted (htree : WellFormedTree s) (hroot : StartsAtRoot s pml4)
    (haddress : address ≠ 0) (hframe : frame < 2 ^ 64)
    (hfresh : FreshTables s (mapToPage s address frame frameAlloc pml4).2)
    (hfailed : (mapToPage s address frame frameAlloc pml4).1 = 0) :
    SameTranslation s (mapToPage s address frame frameAlloc pml4).2 ∧
      WellFormedTree (mapToPage s address frame frameAlloc pml4).2 ∧
        RetryMaps (mapToPage s address frame frameAlloc pml4).2 address frame frameAlloc pml4 := by
  have hmap := mapToPage_spec htree.unshared hroot haddress hframe hfresh
  have hstate := mapToPage_of_failed hroot htree.root haddress hfailed
  have hwalk : s.walkFrom [] = some s.root := rfl
  have htree' : WellFormedTree (mapToPage s address frame frameAlloc pml4).2 := by
    rw [hstate] at hfresh ⊢
    exact htree.descend (by simp) hwalk hfresh
  have hroot' : StartsAtRoot (mapToPage s address frame frameAlloc pml4).2 pml4 := by
    rw [StartsAtRoot, PageState.root_congr hmap.step.cr3, hmap.step.cr3,
      PageState.physToVirt_congr hmap.step.offset, PageState.physToVirt_congr hmap.step.offset]
    exact hroot
  exact ⟨hmap.failed hfailed, htree', retryMaps htree' hroot' haddress hframe⟩

/-- The zeroed root with two frames on the list, one short of what a page needs. -/
def twoFrames : PageState :=
  { zeroedRoot with
    frames := [0x2000, 0x3000].foldl (pushFrameList · 0x100)
      (initFrameListHeader ⟨fun _ => 0⟩ 0x100) }

theorem twoFrames_entryAt (i : Fin 512) : twoFrames.entryAt twoFrames.root i = 0 :=
  PageState.entryAt_of_zero rfl _ i

theorem twoFrames_wellFormedTree : WellFormedTree twoFrames := by
  refine ⟨by decide, (Refines.of_zeroed (by decide) twoFrames_entryAt).unshared, ?_, ?_⟩
  · intro path t i hlow _ ht
    rw [Refines.path_eq_nil_of_zeroed twoFrames_entryAt ht] at hlow
    simp at hlow
  · intro a ha
    rw [Refines.isTable_of_zeroed twoFrames_entryAt ha]
    decide

theorem twoFrames_fresh :
    FreshTables twoFrames (mapToPage twoFrames 0x400000 0x7000 0x100 0).2 := by
  refine ⟨[0x2000, 0x3000], by decide, by decide, fun a ha => ⟨?_, fun htable => ?_⟩⟩
  · revert a
    decide
  · rw [Refines.isTable_of_zeroed twoFrames_entryAt htable] at ha
    revert ha
    decide

theorem twoFrames_exhausted :
    SameTranslation twoFrames (mapToPage twoFrames 0x400000 0x7000 0x100 0).2 ∧
      WellFormedTree (mapToPage twoFrames 0x400000 0x7000 0x100 0).2 ∧
        RetryMaps (mapToPage twoFrames 0x400000 0x7000 0x100 0).2 0x400000 0x7000 0x100 0 :=
  mapToPage_exhausted twoFrames_wellFormedTree (startsAtRoot_of_aligned (by decide) (.inl rfl))
    (by decide) (by decide) twoFrames_fresh (by decide)

end Exhausted

/-! ## What `unmap_page` returns -/

/-- The contract of `unmap_page`: it returns the frame of the page, or `NULL` where there
is none, and removes the translation of this page only. -/
structure UnmapMeetsContract (s : PageState) (addr : Nat) : Prop where
  returned : (unmapPage s addr).1 = ((s.translate addr).map Frame.addr).getD 0
  removed : (unmapPage s addr).2.translate addr = none
  others : ∀ b, pageNumber b ≠ pageNumber addr →
    (unmapPage s addr).2.translate b = s.translate b

/-- Both exits of `unmap_page` after the lookup return `NULL`. -/
theorem unmapPage_fst (s : PageState) (addr : Nat) : (unmapPage s addr).1 = 0 := by
  rw [unmapPage]
  cases fetchPageTableEntry s addr with
  | none => rfl
  | some entry =>
      dsimp only
      split <;> rfl

theorem unmapPage_meetsContract_iff {s : PageState} (hun : s.Unshared)
    (hframes : ∀ b t, s.translate b = some t → t.addr ≠ 0) (addr : Nat) :
    UnmapMeetsContract s addr ↔ s.translate addr = none := by
  obtain ⟨-, hunmapped⟩ := unmapPage_spec hun (hframes addr)
  constructor
  · intro h
    by_contra hsome
    obtain ⟨t, ht⟩ := Option.ne_none_iff_exists'.mp hsome
    have hreturned := h.returned
    rw [unmapPage_fst, ht] at hreturned
    exact hframes addr t ht hreturned.symm
  · intro hnone
    constructor
    case returned => rw [unmapPage_fst, hnone, Option.map_none, Option.getD_none]
    case removed => rw [hunmapped, if_pos rfl]
    case others => exact fun b hb => by rw [hunmapped, if_neg hb]

theorem zeroedRoot_unmapMeetsContract :
    UnmapMeetsContract zeroedRoot 0x400000 ↔ zeroedRoot.translate 0x400000 = none :=
  unmapPage_meetsContract_iff (Refines.of_zeroed (by decide) zeroedRoot_entryAt).unshared
    (fun b t ht => by
      have hpath := Refines.path_eq_nil_of_zeroed zeroedRoot_entryAt ht
      simp [pagePath] at hpath) 0x400000

/-- Mapping one page below the zeroed root gives a tree over frames other than 0. -/
theorem onePageMapped_refines :
    Refines onePageMapped
      (PageMap.afterMap .empty 0x400000 0x7000 (mapToPage zeroedRoot 0x400000 0x7000 0x100 0).1) :=
  (Refines.of_zeroed (by decide) zeroedRoot_entryAt).map (by decide) (by decide) (.inl rfl)
    onePageMapped_fresh

/-- The page is mapped to frame `0x7000`, and unmapping it returns `NULL`. -/
theorem not_unmapMeetsContract_onePage :
    onePageMapped.Unshared ∧ (∀ b t, onePageMapped.translate b = some t → t.addr ≠ 0) ∧
      ¬ UnmapMeetsContract onePageMapped 0x400000 := by
  have htranslate : onePageMapped.translate 0x400000 = some ⟨0x7000, by decide, by decide⟩ := by
    decide
  refine ⟨onePageMapped_refines.unshared, fun b t ht => ?_, fun h => ?_⟩
  · have hpage := onePageMapped_refines.translate b
    rw [ht] at hpage
    exact (onePageMapped_refines.frames _ _ hpage.symm).2.1
  · have hreturned := h.returned
    rw [unmapPage_fst, htranslate] at hreturned
    exact absurd hreturned (by decide)

end FroggyOs
