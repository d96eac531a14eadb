import Mathlib.Data.Finset.Card
import FroggyOs.Vmm.Alloc

/-!
# Which pages of a region `mmap` maps

The page loop of `mmap` runs from the start of the region up to start plus size, with
the size in pages: a region of `n` pages gets `n / 4096` passes, rounded up, and none
at all when that sum wraps around. A pass that finds no frame is ignored. The pages
mapped afterwards are therefore those mapped before and the visited pages that get a
frame, and `mmap_mapsRegion_iff` says when these make up the whole region.

`FrameSupply` is what the frame list still has to give. `GetsFrame` says which of the
visited pages get a frame, in terms of the state before the loop: a page is served as
long as the frames last for it, for the pages before it and for all their missing
tables, and the page after the first unserved one may get the bogus frame of a list
popped below its bottom.
-/

namespace FroggyOs

open ByteMemory Word64 RadixTree Loop64

attribute [local irreducible] popFrameList mapToPage

/-! ## The loop -/

/-- The addresses the page loop passes to its body. -/
def visitedPages (start size : Nat) : List Nat :=
  List.range' start (if start + size < 2 ^ 64 then (size + 4095) / 4096 else 0) 4096

/-- The loop leaves its range before its counter wraps around. -/
def PageLoopEnds (start size : Nat) : Prop :=
  start + size < 2 ^ 64 → start + 4096 * ((size + 4095) / 4096) < 2 ^ 64

instance (start size : Nat) : Decidable (PageLoopEnds start size) :=
  inferInstanceAs (Decidable (_ → _))

/-- The page loops of `mmap` and `munmap` fold their body over the visited pages, or
never end. -/
theorem pageLoop_eq {σ : Type*} (body : σ → Nat → σ) {start size : Nat} (s : σ)
    (hstart : start < 2 ^ 64) (hsize : size < 2 ^ 64) :
    (PageLoopEnds start size → upto body (add64 start size) 0x1000 (2 ^ 64) start s =
      some ((visitedPages start size).foldl body s)) ∧
    (¬ PageLoopEnds start size → upto body (add64 start size) 0x1000 (2 ^ 64) start s = none) := by
  by_cases hwrap : start + size < 2 ^ 64
  · simp only [PageLoopEnds, visitedPages, hwrap, if_true, forall_const]
    rw [add64_eq hwrap]
    refine ⟨fun hends => upto_eq_foldl ?_ ?_ ?_ ?_,
      fun hends => upto_eq_none ⟨2 ^ 52, rfl⟩ ?_ hstart⟩
    · intro i hi
      omega
    · omega
    · exact hends
    · omega
    · -- no address of the residue class of `start` lies above the bound
      intro b hb hmod
      omega
  · have hends : PageLoopEnds start size := fun h => absurd h hwrap
    have hbelow : ¬ start < add64 start size := by
      simp only [add64]
      omega
    refine ⟨fun _ => ?_, fun h => absurd hends h⟩
    rw [visitedPages, if_neg hwrap]
    exact if_neg hbelow

theorem mem_visitedPages {start size page : Nat} (h : page ∈ visitedPages start size) :
    start ≤ page ∧ page < start + size ∧ start + size < 2 ^ 64 := by
  rw [visitedPages, List.mem_range'] at h
  obtain ⟨i, hi, rfl⟩ := h
  split at hi <;> omega

/-! ## The supply of frames -/

/-- What the frame list will yield: the frames of a stack, one bogus frame, or nothing. -/
inductive FrameSupply
  | frames (stack : List Nat)
  | bogus
  | nothing

/-- The state of the frame list behind a supply. -/
def HasSupply (s : Vmm) : FrameSupply → Prop
  | .frames stack => Stocked s.paging s.frameAlloc stack
  | .bogus => s.frameAlloc + 8 < 2 ^ 64 ∧
      s.paging.frames.get s.frameAlloc FreeFrameList.nextFree = s.frameAlloc + 8
  | .nothing => ¬ UsedList s.paging.frames s.frameAlloc

/-- The missing tables on the paths of the given pages, each counted once. -/
def missingTables (p : PageState) (pages : List Nat) : Finset (List (Fin 512)) :=
  (pages.flatMap tablePaths).toFinset.filter fun q => (p.walkFrom q).isNone

/-- The number of frames needed to map the given pages: one for each page and one for
each missing table. -/
def framesNeeded (p : PageState) (pages : List Nat) : Nat :=
  pages.length + (missingTables p pages).card

/-- The path of the lowest-level table on the path of a page. -/
def lowestTable (page : Nat) : List (Fin 512) := [pgd page, pud page, pmd page]

/-- The page after the first unserved one, when its tables exist. -/
def GetsBogus (p : PageState) (count : Nat) (before : List Nat) (page : Nat) : Prop :=
  ∃ earlier last, before = earlier ++ [last] ∧ framesNeeded p earlier ≤ count ∧
    count < framesNeeded p before ∧
      (p.walkFrom (lowestTable page) ≠ none ∨ lowestTable page ∈ earlier.map lowestTable)

/-- The loop gets a frame for `page` after it has visited the pages `before`. -/
def GetsFrame (s : Vmm) (supply : FrameSupply) (before : List Nat) (page : Nat) : Prop :=
  match supply with
  | .frames stack => framesNeeded s.paging (before ++ [page]) ≤ stack.length ∨
      UsedList s.paging.frames s.frameAlloc ∧ GetsBogus s.paging stack.length before page
  | .bogus => before = [] ∧ s.paging.walkFrom (lowestTable page) ≠ none
  | .nothing => False

/-! ## Counting the frames -/

theorem tablePaths_eq (page : Nat) :
    tablePaths page = [[pgd page], [pgd page, pud page], lowestTable page] := rfl

theorem framesNeeded_nil (p : PageState) : framesNeeded p [] = 0 := rfl

theorem missingFor_eq_card (p : PageState) (page : Nat) :
    missingFor p page = (missingTables p [page]).card := by
  have hnodup : (tablePaths page).Nodup := by simp [tablePaths_eq, lowestTable]
  rw [missingTables, List.flatMap_singleton, ← List.toFinset_filter,
    List.toFinset_card_of_nodup (hnodup.filter _), ← List.countP_eq_length_filter]
  rfl

theorem framesNeeded_singleton (p : PageState) (page : Nat) :
    framesNeeded p [page] = missingFor p page + 1 := by
  rw [framesNeeded, missingFor_eq_card, List.length_singleton, Nat.add_comm]

theorem framesNeeded_prefix_le (p : PageState) (pages more : List Nat) :
    framesNeeded p pages ≤ framesNeeded p (pages ++ more) := by
  have hsubset : missingTables p pages ⊆ missingTables p (pages ++ more) := by
    intro q hq
    simp only [missingTables, Finset.mem_filter, List.mem_toFinset, List.flatMap_append,
      List.mem_append] at hq ⊢
    exact ⟨.inl hq.1, hq.2⟩
  have hcard := Finset.card_le_card hsubset
  simp only [framesNeeded, List.length_append]
  omega

/-- Once the first page is served, the rest needs what it would need on its own. -/
theorem framesNeeded_cons {p p' : PageState} {page : Nat}
    (htables : ∀ q, q.length ≤ 3 →
      (p'.walkFrom q = none ↔ p.walkFrom q = none ∧ q ∉ tablePaths page)) (rest : List Nat) :
    framesNeeded p (page :: rest) = framesNeeded p [page] + framesNeeded p' rest := by
  have hlength : ∀ page' q, q ∈ tablePaths page' → q.length ≤ 3 := by
    intro page' q hq
    exact (length_of_mem_pathsBelow hq).2
  have hunion : missingTables p (page :: rest) =
      missingTables p [page] ∪ missingTables p' rest := by
    ext q
    simp only [missingTables, Finset.mem_union, Finset.mem_filter, List.mem_toFinset,
      List.flatMap_cons, List.flatMap_nil, List.append_nil, List.mem_append, List.mem_flatMap,
      Option.isNone_iff_eq_none]
    constructor
    · rintro ⟨hmem, hnone⟩
      by_cases hfirst : q ∈ tablePaths page
      · exact .inl ⟨hfirst, hnone⟩
      · obtain ⟨page', hpage', hq⟩ := hmem.resolve_left hfirst
        exact .inr ⟨⟨page', hpage', hq⟩, (htables q (hlength page' q hq)).mpr ⟨hnone, hfirst⟩⟩
    · rintro (⟨hmem, hnone⟩ | ⟨⟨page', hpage', hq⟩, hnone⟩)
      · exact ⟨.inl hmem, hnone⟩
      · exact ⟨.inr ⟨page', hpage', hq⟩, ((htables q (hlength page' q hq)).mp hnone).1⟩
  have hdisjoint : Disjoint (missingTables p [page]) (missingTables p' rest) := by
    rw [Finset.disjoint_left]
    intro q hfirst hrest
    simp only [missingTables, Finset.mem_filter, List.mem_toFinset, List.flatMap_singleton,
      Option.isNone_iff_eq_none] at hfirst hrest
    exact ((htables q (hlength page q hfirst.1)).mp hrest.2).2 hfirst.1
  rw [framesNeeded, hunion, Finset.card_union_of_disjoint hdisjoint]
  simp only [framesNeeded, List.length_cons, List.length_nil]
  omega

/-- No table is missing exactly when the lowest-level table exists. -/
theorem missingFor_eq_zero_iff (p : PageState) (page : Nat) :
    missingFor p page = 0 ↔ p.walkFrom (lowestTable page) ≠ none := by
  rw [missingFor, tablesMissing, List.countP_eq_zero]
  have hlowest : lowestTable page ∈ tablePaths page := by simp [tablePaths_eq]
  constructor
  · intro h hnone
    exact h _ hlowest (by rw [hnone]; rfl)
  · intro h q hq
    obtain ⟨t, ht⟩ := Option.ne_none_iff_exists'.mp h
    have hpre : q <+: lowestTable page := by
      have hq' : q ∈ tablePaths page := hq
      simp only [tablePaths_eq, List.mem_cons, List.not_mem_nil, or_false] at hq'
      obtain rfl | rfl | rfl := hq'
      · exact ⟨[pud page, pmd page], rfl⟩
      · exact ⟨[pmd page], rfl⟩
      · exact List.prefix_refl _
    obtain ⟨more, hmore⟩ := hpre
    rw [← hmore] at ht
    obtain ⟨t', ht'⟩ := walk_isSome_of_append ht
    rw [PageState.walkFrom, ht']
    simp

/-! ## One pass of the loop -/

/-- What one pass does to the mapped pages and to the frames the later pages get. -/
structure VisitStep (s : Vmm) (supply : FrameSupply) (page : Nat) (s' : Vmm)
    (supply' : FrameSupply) : Prop where
  step : AllocStep s s'
  left : HasSupply s' supply'
  mapped : ∀ a, (s'.paging.translate a).isSome ↔ (s.paging.translate a).isSome ∨
    pageNumber a = pageNumber page ∧ GetsFrame s supply [] page
  later : ∀ before page', GetsFrame s' supply' before page' ↔
    GetsFrame s supply (page :: before) page'

theorem decodeEntry_encodeEntry_isSome {frame : Nat} (h : frame < 2 ^ 64) :
    (decodeEntry (encodeEntry frame)).isSome := by
  rw [decodeEntry, if_pos (isPageTablePresent_encodeEntry h)]
  rfl

theorem Retranslates.isSome_iff {p p' : PageState} {page frame : Nat} (hframe : frame < 2 ^ 64)
    (h : Retranslates p p' page (decodeEntry (encodeEntry frame))) (a : Nat) :
    (p'.translate a).isSome ↔ (p.translate a).isSome ∨ pageNumber a = pageNumber page := by
  rw [h a]
  by_cases hpage : pageNumber a = pageNumber page
  · simp [hpage, decodeEntry_encodeEntry_isSome hframe]
  · simp [hpage]

section VisitPage

variable {s : Vmm} {page : Nat}

/-- A lowest-level table is on the path of a page only as that of the page. -/
theorem lowestTable_mem_tablePaths (page page' : Nat) :
    lowestTable page' ∈ tablePaths page ↔ lowestTable page' = lowestTable page := by
  simp [tablePaths_eq, lowestTable]

theorem visitPage_of_stocked {stack : List Nat} (h : s.paging.Ready) (hpage : page ≠ 0)
    (hstock : Stocked s.paging s.frameAlloc stack)
    (henough : framesNeeded s.paging [page] ≤ stack.length) :
    ∃ supply', VisitStep s (.frames stack) page (s.visitPage page) supply' := by
  obtain _ | ⟨frame, rest⟩ := stack
  · simp [framesNeeded_singleton] at henough
  have hcount : missingFor s.paging page ≤ rest.length := by
    simpa [framesNeeded_singleton] using henough
  have hserved := Vmm.allocPage_of_stocked h hpage hstock hcount
  have hcons := framesNeeded_cons hserved.tables
  refine ⟨.frames (rest.drop (missingFor s.paging page)), hserved.step, hserved.stocked, ?_, ?_⟩
  · intro a
    rw [Vmm.visitPage,
      hserved.mapped.isSome_iff (hstock.usable frame List.mem_cons_self).toFrame.lt]
    simp only [GetsFrame, List.nil_append, henough, true_or, and_true]
  · intro before page'
    have hlength : (rest.drop (missingFor s.paging page)).length =
        (frame :: rest).length - framesNeeded s.paging [page] := by
      simp [framesNeeded_singleton]
    have hused : UsedList s.paging.frames s.frameAlloc := hstock.used
    have hle : ∀ pages, framesNeeded (Vmm.allocPage s page).2.paging pages ≤
        (rest.drop (missingFor s.paging page)).length ↔
          framesNeeded s.paging (page :: pages) ≤ (frame :: rest).length := by
      intro pages
      rw [hcons, hlength]
      omega
    simp only [GetsFrame, Vmm.visitPage, hserved.used, hused, true_and, List.cons_append, hle]
    refine or_congr_right ?_
    have htable : ∀ q, (Vmm.allocPage s page).2.paging.walkFrom (lowestTable q) ≠ none ↔
        s.paging.walkFrom (lowestTable q) ≠ none ∨ lowestTable q = lowestTable page := by
      intro q
      rw [Ne, hserved.tables (lowestTable q) (Nat.le_refl 3), lowestTable_mem_tablePaths,
        not_and_or, not_not]
    constructor
    · rintro ⟨earlier, last, rfl, hlow, hhigh, hexists⟩
      refine ⟨page :: earlier, last, rfl, (hle _).mp hlow, ?_, ?_⟩
      · exact Nat.lt_of_not_le fun hn => absurd ((hle _).mpr hn) (Nat.not_le_of_lt hhigh)
      · rw [htable, or_assoc] at hexists
        rwa [List.map_cons, List.mem_cons]
    · rintro ⟨earlier, last, hbefore, hlow, hhigh, hexists⟩
      obtain _ | ⟨first, earlier⟩ := earlier
      · -- the first unserved page would be the one just served
        cases hbefore
        exact absurd henough (Nat.not_le_of_lt hhigh)
      · cases hbefore
        simp only [List.map_cons, List.mem_cons] at hexists
        refine ⟨earlier, last, rfl, (hle _).mpr hlow, ?_, ?_⟩
        · exact Nat.lt_of_not_le fun hn => absurd ((hle _).mp hn) (Nat.not_le_of_lt hhigh)
        · rw [htable, or_assoc]
          exact hexists

theorem visitPage_of_short {stack : List Nat} (h : s.paging.Ready) (hpage : page ≠ 0)
    (hstock : Stocked s.paging s.frameAlloc stack)
    (hshort : stack.length < framesNeeded s.paging [page]) :
    ∃ supply', VisitStep s (.frames stack) page (s.visitPage page) supply' := by
  have hcount : stack.length ≤ missingFor s.paging page := by
    rw [framesNeeded_singleton] at hshort
    omega
  obtain ⟨hunserved, hdry⟩ := Vmm.allocPage_of_short h hpage hstock hcount
  have hmapped : ∀ a, ((Vmm.allocPage s page).2.paging.translate a).isSome ↔
      (s.paging.translate a).isSome ∨ pageNumber a = pageNumber page ∧
        GetsFrame s (.frames stack) [] page := by
    intro a
    rw [hunserved.same a]
    simp [GetsFrame, GetsBogus, Nat.not_le_of_lt hshort]
  -- only the page right after this one can still get anything
  have hlater : ∀ before page', GetsFrame s (.frames stack) (page :: before) page' ↔
      UsedList s.paging.frames s.frameAlloc ∧ before = [] ∧
        s.paging.walkFrom (lowestTable page') ≠ none := by
    intro before page'
    have hneeds : ∀ more, stack.length < framesNeeded s.paging (page :: more) := by
      intro more
      have := framesNeeded_prefix_le s.paging [page] more
      simp only [List.singleton_append] at this
      omega
    simp only [GetsFrame, List.cons_append, Nat.not_le_of_lt (hneeds _), false_or]
    refine and_congr_right fun _ => ?_
    constructor
    · rintro ⟨earlier, last, hbefore, hlow, _, hexists⟩
      obtain _ | ⟨first, earlier⟩ := earlier
      · cases hbefore
        exact ⟨rfl, by simpa using hexists⟩
      · cases hbefore
        exact absurd hlow (Nat.not_le_of_lt (hneeds _))
    · rintro ⟨rfl, hexists⟩
      exact ⟨[], page, rfl, by simp [framesNeeded_nil], hneeds _, .inl hexists⟩
  by_cases hused : UsedList s.paging.frames s.frameAlloc
  · have hfits := hstock.rep.fits
    refine ⟨.bogus, hunserved.step, ?_, hmapped, ?_⟩
    · rw [HasSupply, Vmm.visitPage, hunserved.step.frameAlloc]
      exact ⟨by omega, hdry.1 hused⟩
    · intro before page'
      rw [hlater]
      have htable := not_congr (hunserved.tables (lowestTable page') rfl)
      simp only [GetsFrame, Vmm.visitPage, hused, true_and]
      exact and_congr_right fun _ => htable
  · refine ⟨.nothing, hunserved.step, ?_, hmapped, ?_⟩
    · rw [HasSupply, Vmm.visitPage, hunserved.step.frameAlloc]
      exact not_not.mpr (hdry.2 hused)
    · intro before page'
      rw [hlater]
      simp [GetsFrame, hused]

/-- One pass of the page loop, whatever the frame list has left. -/
theorem visitPage_step {supply : FrameSupply} (h : s.paging.Ready) (hpage : page ≠ 0)
    (hsupply : HasSupply s supply) :
    ∃ supply', VisitStep s supply page (s.visitPage page) supply' := by
  cases supply with
  | frames stack =>
      by_cases henough : framesNeeded s.paging [page] ≤ stack.length
      · exact visitPage_of_stocked h hpage hsupply henough
      · exact visitPage_of_short h hpage hsupply (Nat.lt_of_not_le henough)
  | bogus =>
      obtain ⟨hfits, hspent⟩ := hsupply
      obtain ⟨hstep, hmapped, hunused⟩ := Vmm.allocPage_of_spent h hpage hfits hspent
      refine ⟨.nothing, hstep, ?_, ?_, ?_⟩
      · rw [HasSupply, Vmm.visitPage, hstep.frameAlloc]
        exact hunused
      · intro a
        simp only [GetsFrame, true_and, ← missingFor_eq_zero_iff, Vmm.visitPage]
        split at hmapped
        case isTrue hmissing =>
          rw [hmapped.isSome_iff hfits]
          simp [hmissing]
        case isFalse hmissing =>
          rw [hmapped a]
          simp [hmissing]
      · simp [GetsFrame]
  | nothing =>
      have hsame : s.visitPage page = s := by
        rw [Vmm.visitPage, Vmm.allocPage_of_unused hsupply]
      rw [hsame]
      refine ⟨.nothing, ⟨h, (TreeStep.refl h.unshared).1, rfl, rfl⟩, hsupply, ?_, ?_⟩ <;>
        simp [GetsFrame]

end VisitPage

/-- The mapped pages after the loop. -/
theorem foldl_visitPage_mapped {s : Vmm} {supply : FrameSupply} {pages : List Nat}
    (h : s.paging.Ready) (hpages : ∀ page ∈ pages, page ≠ 0) (hsupply : HasSupply s supply)
    (a : Nat) :
    ((pages.foldl Vmm.visitPage s).paging.translate a).isSome ↔
      (s.paging.translate a).isSome ∨ ∃ before page after, pages = before ++ page :: after ∧
        pageNumber a = pageNumber page ∧ GetsFrame s supply before page := by
  induction pages generalizing s supply with
  | nil => simp
  | cons page rest ih =>
      obtain ⟨supply', hvisit⟩ := visitPage_step h (hpages page List.mem_cons_self) hsupply
      have hrest := ih hvisit.step.ready (fun p hp => hpages p (List.mem_cons_of_mem _ hp))
        hvisit.left
      rw [List.foldl_cons, hrest, hvisit.mapped]
      constructor
      · rintro ((hold | ⟨hpage, hgets⟩) | ⟨before, page', after, rfl, hpage, hgets⟩)
        · exact .inl hold
        · exact .inr ⟨[], page, rest, rfl, hpage, hgets⟩
        · exact .inr ⟨page :: before, page', after, rfl, hpage, (hvisit.later _ _).mp hgets⟩
      · rintro (hold | ⟨_ | ⟨first, before⟩, page', after, hsplit, hpage, hgets⟩)
        · exact .inl (.inl hold)
        · cases hsplit
          exact .inl (.inr ⟨hpage, hgets⟩)
        · cases hsplit
          exact .inr ⟨before, page', after, rfl, hpage, (hvisit.later _ _).mpr hgets⟩

/-! ## `mmap` -/

/-- `mmap` returns the old end of the heap, after the page loop. -/
theorem mmap_eq {s : Vmm} {n : Nat} (hn : n < 2 ^ 64) (hstart : s.kHeapEnd.toNat ≠ 0) :
    (PageLoopEnds s.kHeapEnd.toNat n → Vmm.mmap s n = some (s.kHeapEnd.toNat,
      (visitedPages s.kHeapEnd.toNat n).foldl Vmm.visitPage (Vmm.growHeap s n).2)) ∧
    (¬ PageLoopEnds s.kHeapEnd.toNat n → Vmm.mmap s n = none) := by
  have hloop := pageLoop_eq Vmm.visitPage (Vmm.growHeap s n).2 s.kHeapEnd.toNat_lt hn
  simp only [Vmm.mmap, Vmm.growHeap, hstart, if_false] at hloop ⊢
  refine ⟨fun h => ?_, fun h => ?_⟩
  · rw [hloop.1 h]
    rfl
  · rw [hloop.2 h]
    rfl

/-- A region `mmap` returns starts at the old end of the heap. -/
theorem mmap_eq_some {s s' : Vmm} {n start : Nat} (hn : n < 2 ^ 64)
    (hmmap : Vmm.mmap s n = some (start, s')) (hne : start ≠ 0) :
    PageLoopEnds s.kHeapEnd.toNat n ∧ start = s.kHeapEnd.toNat ∧
      s' = (visitedPages s.kHeapEnd.toNat n).foldl Vmm.visitPage (Vmm.growHeap s n).2 := by
  by_cases hstart : s.kHeapEnd.toNat = 0
  · simp only [Vmm.mmap, Vmm.growHeap, hstart, if_true, Option.some.injEq, Prod.mk.injEq] at hmmap
    exact absurd hmmap.1.symm hne
  by_cases hends : PageLoopEnds s.kHeapEnd.toNat n
  · rw [(mmap_eq hn hstart).1 hends, Option.some.injEq, Prod.mk.injEq] at hmmap
    exact ⟨hends, hmmap.1.symm, hmmap.2.symm⟩
  · rw [(mmap_eq hn hstart).2 hends] at hmmap
    cases hmmap

theorem foldl_visitPage_kHeapEnd (s : Vmm) (pages : List Nat) :
    (pages.foldl Vmm.visitPage s).kHeapEnd = s.kHeapEnd := by
  induction pages generalizing s with
  | nil => rfl
  | cons page rest ih =>
      rw [List.foldl_cons, ih, Vmm.visitPage, Vmm.allocPage]
      split
      · rfl
      · split <;> rfl

/-- The heap end moves by whole pages, modulo the address space. -/
theorem growHeap_kHeapEnd (s : Vmm) (n : Nat) :
    (Vmm.growHeap s n).2.kHeapEnd.toNat = (s.kHeapEnd.toNat + 4096 * n) % 2 ^ 64 := by
  simp only [Vmm.growHeap, UInt64.toNat_add, UInt64.toNat_mul, UInt64.toNat_ofNat']
  change (s.kHeapEnd.toNat + n % 2 ^ 64 * 4096 % 2 ^ 64) % 2 ^ 64 = _
  omega

/-- `mmap` reserves the region at the old heap end. -/
theorem mmap_kHeapEnd {s s' : Vmm} {n region : Nat} (hn : n < 2 ^ 64)
    (hmmap : Vmm.mmap s n = some (region, s')) (hne : region ≠ 0) : region = s.kHeapEnd.toNat ∧
      s'.kHeapEnd.toNat = (s.kHeapEnd.toNat + 4096 * n) % 2 ^ 64 := by
  obtain ⟨-, hregion, rfl⟩ := mmap_eq_some hn hmmap hne
  rw [foldl_visitPage_kHeapEnd]
  exact ⟨hregion, growHeap_kHeapEnd s n⟩

/-- Reserving the region does not change what the visits get. -/
theorem getsFrame_growHeap (s : Vmm) (n : Nat) (supply : FrameSupply) (before : List Nat)
    (page : Nat) :
    GetsFrame (Vmm.growHeap s n).2 supply before page ↔ GetsFrame s supply before page := by
  cases supply <;> exact Iff.rfl

/-- The mapped pages after the page loop of `mmap`, in terms of the state before the call. -/
theorem foldl_growHeap_mapped {s : Vmm} {supply : FrameSupply} {n : Nat} (h : s.paging.Ready)
    (hsupply : HasSupply s supply) (hstart : s.kHeapEnd.toNat ≠ 0) {a : Nat} :
    (((visitedPages s.kHeapEnd.toNat n).foldl Vmm.visitPage
      (Vmm.growHeap s n).2).paging.translate a).isSome ↔
      (s.paging.translate a).isSome ∨ ∃ before page after,
        visitedPages s.kHeapEnd.toNat n = before ++ page :: after ∧
          pageNumber a = pageNumber page ∧ GetsFrame s supply before page := by
  have hsupply' : HasSupply (Vmm.growHeap s n).2 supply := hsupply
  have hpages : ∀ page ∈ visitedPages s.kHeapEnd.toNat n, page ≠ 0 := by
    intro page hpage
    have := (mem_visitedPages hpage).1
    omega
  have hready : (Vmm.growHeap s n).2.paging.Ready := h
  have hsame : (Vmm.growHeap s n).2.paging = s.paging := rfl
  rw [foldl_visitPage_mapped hready hpages hsupply' a, hsame]
  simp only [getsFrame_growHeap]

/-- When `mmap` returns a region, all of it is mapped. -/
def MmapMapsRegion (s : Vmm) (n : Nat) : Prop :=
  ∀ start s', Vmm.mmap s n = some (start, s') → start ≠ 0 →
    ∀ a, start ≤ a → a < start + 4096 * n → (s'.paging.translate a).isSome

/-- The page of `a` is one of those the page loop visits, and one it gets a frame for. -/
def VisitServes (s : Vmm) (supply : FrameSupply) (n a : Nat) : Prop :=
  ∃ before page after, visitedPages s.kHeapEnd.toNat n = before ++ page :: after ∧
    pageNumber a = pageNumber page ∧ GetsFrame s supply before page

/-- `mmap` maps the region it returns exactly when it returns none, never ends, or finds
every page of the region mapped already or serves it on a visit. -/
theorem mmap_mapsRegion_iff {s : Vmm} {supply : FrameSupply} {n : Nat} (h : s.paging.Ready)
    (hsupply : HasSupply s supply) (hn : n < 2 ^ 64) :
    MmapMapsRegion s n ↔ s.kHeapEnd.toNat = 0 ∨ ¬ PageLoopEnds s.kHeapEnd.toNat n ∨
      ∀ a, s.kHeapEnd.toNat ≤ a → a < s.kHeapEnd.toNat + 4096 * n →
        (s.paging.translate a).isSome ∨ VisitServes s supply n a := by
  constructor
  · intro hmaps
    by_cases hstart : s.kHeapEnd.toNat = 0
    · exact .inl hstart
    by_cases hends : PageLoopEnds s.kHeapEnd.toNat n
    · refine .inr (.inr fun a hlow hhigh => ?_)
      rw [VisitServes, ← foldl_growHeap_mapped h hsupply hstart]
      exact hmaps _ _ ((mmap_eq hn hstart).1 hends) hstart a hlow hhigh
    · exact .inr (.inl hends)
  · intro hcondition start s' hmmap hne a hlow hhigh
    obtain ⟨hends, rfl, rfl⟩ := mmap_eq_some hn hmmap hne
    rw [foldl_growHeap_mapped h hsupply hne]
    obtain hstart | hnever | hserved := hcondition
    · exact absurd hstart hne
    · exact absurd hends hnever
    · exact hserved a hlow hhigh

section Evaluation

/-- A heap end at 0x10000 above an empty tree with five free frames. -/
def freshVmm : Vmm where
  paging := zeroedRoot
  frameAlloc := 0x100
  kHeapEnd := 0x10000

theorem freshVmm_ready : freshVmm.paging.Ready where
  aligned := by decide
  root := by decide
  unshared := (Refines.of_zeroed (by decide) zeroedRoot_entryAt).unshared

theorem freshVmm_stocked :
    HasSupply freshVmm (.frames [0x6000, 0x5000, 0x4000, 0x3000, 0x2000]) where
  rep := by
    have h := initFrameListHeader_rep ⟨fun _ => 0⟩ (by decide : 0x100 + 24 < 2 ^ 64)
    have h := pushFrameList_rep h 0x2000 (by decide +kernel)
    have h := pushFrameList_rep h 0x3000 (by decide +kernel)
    have h := pushFrameList_rep h 0x4000 (by decide +kernel)
    have h := pushFrameList_rep h 0x5000 (by decide +kernel)
    exact pushFrameList_rep h 0x6000 (by decide +kernel)
  nodup := by decide
  usable := by decide
  spare := by
    intro a ha htable
    rw [Refines.isTable_of_zeroed zeroedRoot_entryAt htable] at ha
    revert ha
    decide

theorem freshVmm_framesNeeded (page : Nat) : framesNeeded zeroedRoot [page] ≤ 4 := by
  have hle : missingFor zeroedRoot page ≤ 3 := List.countP_le_length
  rw [framesNeeded_singleton]
  omega

theorem mmapMapsRegion_one_page : MmapMapsRegion freshVmm 1 := by
  refine (mmap_mapsRegion_iff freshVmm_ready freshVmm_stocked (by decide)).mpr
    (.inr (.inr fun a hlow hhigh => .inr ⟨[], 0x10000, [], by decide, ?_, .inl ?_⟩))
  · change 0x10000 ≤ a at hlow
    change a < 0x10000 + 4096 * 1 at hhigh
    simp only [pageNumber]
    omega
  · exact Nat.le_trans (freshVmm_framesNeeded _) (by decide)

/-- The loop visits one page of a region of two. -/
theorem not_mmapMapsRegion_two_pages : ¬ MmapMapsRegion freshVmm 2 := by
  intro h
  have hmapped := h _ _ ((mmap_eq (by decide) (by decide)).1 (by decide)) (by decide)
    0x11000 (by decide) (by decide)
  revert hmapped
  decide +kernel

end Evaluation

end FroggyOs
