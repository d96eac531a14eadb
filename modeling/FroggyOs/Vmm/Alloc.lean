import FroggyOs.Paging.Refinement
import FroggyOs.Paging.Supply
import FroggyOs.Vmm.Basic

/-!
# Allocating one page

`alloc_page` pops a frame for the page and then whatever the missing tables on its path
need. Its effect depends on where the frame list stands: a list with enough frames
(`allocPage_of_stocked`), one that runs dry within the call (`allocPage_of_short`), one
popped below its bottom, which yields one bogus frame (`allocPage_of_spent`), and one
whose `nextFree` is `NULL` (`allocPage_of_unused`).
-/

namespace FroggyOs

open ByteMemory Word64 RadixTree

attribute [local irreducible] popFrameList mapToPage

/-- The page tables are an unshared tree below an aligned root outside page 0. -/
structure PageState.Ready (s : PageState) : Prop where
  aligned : s.cr3.toNat % 4096 = 0
  root : s.physToVirt s.root.addr ≠ 0
  unshared : s.Unshared

theorem PageState.Ready.step {s s' : PageState} (h : s.Ready) (hstep : TreeStep s s') :
    s'.Ready := by
  refine ⟨by rw [hstep.cr3]; exact h.aligned, ?_, hstep.unshared⟩
  rw [PageState.physToVirt_congr hstep.offset, PageState.root_congr hstep.cr3]
  exact h.root

/-- The paths of the three tables below the root on the path of `addr`. -/
def tablePaths (addr : Nat) : List (List (Fin 512)) :=
  pathsBelow [] [pgd addr, pud addr, pmd addr]

/-- The number of these that are missing. -/
def missingFor (s : PageState) (addr : Nat) : Nat :=
  tablesMissing s [] [pgd addr, pud addr, pmd addr]

/-- What every call of `alloc_page` guarantees. -/
structure AllocStep (s s' : Vmm) : Prop where
  ready : s'.paging.Ready
  tree : TreeStep s.paging s'.paging
  frameAlloc : s'.frameAlloc = s.frameAlloc
  kHeapEnd : s'.kHeapEnd = s.kHeapEnd

/-- Only the translation of the page of `addr` changes. -/
def Retranslates (s s' : PageState) (addr : Nat) (entry : Option Frame) : Prop :=
  ∀ b, s'.translate b = if pageNumber b = pageNumber addr then entry else s.translate b

namespace Vmm

/-- The state after the frame of the page has been popped. -/
def popped (s : Vmm) : PageState :=
  { s.paging with frames := (popFrameList s.paging.frames s.frameAlloc).2 }

theorem popped_frames (s : Vmm) :
    s.popped.frames = (popFrameList s.paging.frames s.frameAlloc).2 := rfl

theorem walkFrom_popped (s : Vmm) : s.popped.walkFrom = s.paging.walkFrom :=
  PageState.walkFrom_congr rfl rfl rfl

/-- Popping a frame changes neither the tree nor a translation. -/
theorem popped_step {s : Vmm} (h : s.paging.Ready) :
    TreeStep s.paging s.popped ∧ SameTranslation s.paging s.popped :=
  TreeStep.of_frames h.unshared _

theorem missingFor_popped (s : Vmm) (addr : Nat) :
    missingFor s.popped addr = missingFor s.paging addr :=
  tablesMissing_congr fun q _ => by rw [walkFrom_popped]

variable {s : Vmm} {addr : Nat}

theorem allocPage_of_null (h : (popFrameList s.paging.frames s.frameAlloc).1 = 0) :
    allocPage s addr = (0, { s with paging := s.popped }) := by
  simp only [allocPage, getPhysicalFrameAddr, h, if_true, popped]

theorem allocPage_of_frame {frame : Nat}
    (h : (popFrameList s.paging.frames s.frameAlloc).1 = frame) (hne : frame ≠ 0)
    (haddr : addr ≠ 0) :
    allocPage s addr = ((mapToPage s.popped addr frame s.frameAlloc 0).1,
      { s with paging := (mapToPage s.popped addr frame s.frameAlloc 0).2 }) := by
  simp only [allocPage, getPhysicalFrameAddr, h, if_neg hne, if_neg haddr, popped]

/-- The tree and the translations after a call that popped `frame`, given the descent. -/
theorem allocPage_of_level {frame : Nat} (h : s.paging.Ready) (haddr : addr ≠ 0)
    (hframe : (popFrameList s.paging.frames s.frameAlloc).1 = frame) (hne : frame ≠ 0)
    (hlt : frame < 2 ^ 64)
    (hlevel : LevelStep s.popped [] [pgd addr, pud addr, pmd addr]
      (descendTo s.popped addr s.frameAlloc)) :
    AllocStep s (allocPage s addr).2 ∧
      (if (descendTo s.popped addr s.frameAlloc).1.isSome then
        Retranslates s.paging (allocPage s addr).2.paging addr (decodeEntry (encodeEntry frame))
      else SameTranslation s.paging (allocPage s addr).2.paging) ∧
      (allocPage s addr).2.paging.frames = (descendTo s.popped addr s.frameAlloc).2.frames ∧
      ∀ q, q.length < 4 → (allocPage s addr).2.paging.walkFrom q =
        (descendTo s.popped addr s.frameAlloc).2.walkFrom q := by
  obtain ⟨hstep, hsame⟩ := popped_step h
  have hready := h.step hstep
  rw [allocPage_of_frame hframe hne haddr]
  generalize s.popped = p at *
  obtain ⟨hmap, hleaf⟩ := mapToPage_of_descend
    (startsAtRoot_of_aligned hready.aligned (.inl rfl)) hready.root haddr
    hlt hlevel
  generalize mapToPage p addr frame s.frameAlloc 0 = result at *
  refine ⟨⟨hready.step hmap.step, hstep.trans hmap.step, rfl, rfl⟩, ?_, hleaf.frames, hleaf.walks⟩
  have hreturned := hleaf.returned
  split
  case isTrue hsome =>
    rw [if_pos hsome] at hreturned
    intro b
    rw [(hmap.mapped (hreturned ▸ haddr)).2 b, hsame b]
  case isFalse hnone =>
    rw [if_neg hnone] at hreturned
    intro b
    rw [hmap.failed hreturned b, hsame b]

/-- A list with a frame for the page and for every missing table serves the call. -/
structure Served (s s' : Vmm) (addr frame : Nat) (stack : List Nat) : Prop where
  step : AllocStep s s'
  mapped : Retranslates s.paging s'.paging addr (decodeEntry (encodeEntry frame))
  stocked : Stocked s'.paging s'.frameAlloc stack
  used : UsedList s'.paging.frames s'.frameAlloc
  tables : ∀ q, q.length ≤ 3 → (s'.paging.walkFrom q = none ↔
    s.paging.walkFrom q = none ∧ q ∉ tablePaths addr)

/-- A call that maps nothing and creates no lowest-level table. -/
structure Unserved (s s' : Vmm) : Prop where
  step : AllocStep s s'
  same : SameTranslation s.paging s'.paging
  tables : ∀ q, q.length = 3 → (s'.paging.walkFrom q = none ↔ s.paging.walkFrom q = none)

theorem allocPage_of_stocked {frame : Nat} {rest : List Nat} (h : s.paging.Ready)
    (haddr : addr ≠ 0) (hstock : Stocked s.paging s.frameAlloc (frame :: rest))
    (henough : missingFor s.paging addr ≤ rest.length) :
    Served s (allocPage s addr).2 addr frame (rest.drop (missingFor s.paging addr)) := by
  have hgood := hstock.usable frame List.mem_cons_self
  obtain ⟨hframe, hpop⟩ := hstock.pop_cons
  have hstock' : Stocked s.popped s.frameAlloc rest := hpop
  have hused : UsedList s.popped.frames s.frameAlloc := popFrameList_used hstock.rep
  have hready := h.step (popped_step h).1
  have hwalk : s.popped.walkFrom [] = some s.popped.root := rfl
  rw [← missingFor_popped] at henough ⊢
  have hdescend : DescendTakes s.popped _ _ _ _ (descendTo s.popped addr s.frameAlloc) :=
    descend_of_stocked hready.unshared (by simp) hwalk hstock' henough
  obtain ⟨hstep, hmapped, hframes, hwalks⟩ := allocPage_of_level h haddr hframe hgood.2.1
    hgood.toFrame.lt hdescend.level
  rw [if_pos hdescend.found] at hmapped
  refine ⟨hstep, hmapped, ?_, ?_, fun q hq => ?_⟩
  · rw [hstep.frameAlloc]
    exact hdescend.stocked.congr hframes hwalks
  · rw [hstep.frameAlloc, hframes]
    exact hdescend.used hused
  · rw [hwalks q (by omega), hdescend.tables q hq, walkFrom_popped]
    rfl

/-- A list too short for the call is popped below its bottom. -/
theorem allocPage_of_short {stack : List Nat} (h : s.paging.Ready) (haddr : addr ≠ 0)
    (hstock : Stocked s.paging s.frameAlloc stack)
    (hshort : stack.length ≤ missingFor s.paging addr) :
    Unserved s (allocPage s addr).2 ∧
      RanDry (UsedList s.paging.frames s.frameAlloc) (allocPage s addr).2.paging.frames
        s.frameAlloc := by
  obtain ⟨htree, hsame⟩ := popped_step h
  have hready := h.step htree
  obtain _ | ⟨frame, rest⟩ := stack
  · obtain ⟨hnull, hdry⟩ := hstock.pop_nil
    rw [allocPage_of_null hnull]
    refine ⟨⟨⟨hready, htree, rfl, rfl⟩, hsame, fun q _ => ?_⟩, hdry⟩
    rw [walkFrom_popped]
  · have hgood := hstock.usable frame List.mem_cons_self
    obtain ⟨hframe, hpop⟩ := hstock.pop_cons
    have hstock' : Stocked s.popped s.frameAlloc rest := hpop
    have hused : UsedList s.popped.frames s.frameAlloc := popFrameList_used hstock.rep
    have hwalk : s.popped.walkFrom [] = some s.popped.root := rfl
    have hdescend : DescendFails s.popped _ _ _ (descendTo s.popped addr s.frameAlloc) :=
      descend_of_short hready.unshared (by simp) hwalk hstock'
        (by rw [← missingFor_popped] at hshort; exact hshort)
    obtain ⟨hstep, hmapped, hframes, hwalks⟩ := allocPage_of_level h haddr hframe hgood.2.1
      hgood.toFrame.lt hdescend.level
    rw [hdescend.failed, if_neg (by simp)] at hmapped
    refine ⟨⟨hstep, hmapped, fun q hq => ?_⟩, ?_⟩
    · rw [hwalks q (by omega), hdescend.tables q hq, walkFrom_popped]
    · rw [hframes]
      exact ⟨fun _ => hdescend.dry.1 hused, fun hnot => absurd hstock.used hnot⟩

/-- On a list whose `nextFree` is `NULL` nothing happens. -/
theorem allocPage_of_unused (hunused : ¬ UsedList s.paging.frames s.frameAlloc) :
    allocPage s addr = (0, s) := by
  have hpop := popFrameList_null (not_not.mp hunused)
  rw [allocPage_of_null (by rw [hpop]), popped, hpop]

/-- Without a frame to be had the levels succeed exactly when no table is missing. -/
theorem descendTo_of_unused {p : PageState} {list : Nat} (addr : Nat) (hun : p.Unshared)
    (hunused : ¬ UsedList p.frames list) :
    LevelStep p [] [pgd addr, pud addr, pmd addr] (descendTo p addr list) ∧
      ((descendTo p addr list).1.isSome ↔ missingFor p addr = 0) ∧
      (descendTo p addr list).2 = p := by
  obtain ⟨hstep, hsame⟩ := TreeStep.refl hun
  have hwalk : p.walkFrom [] = some p.root := rfl
  rw [descendTo]
  by_cases hmissing : missingFor p addr = 0
  · obtain ⟨t, hdescend, ht⟩ := descend_of_complete hwalk hmissing
    rw [hdescend]
    refine ⟨⟨hstep, hsame, ?_⟩, by simp [hmissing], rfl⟩
    rintro virt ⟨⟩
    exact ⟨t, rfl, ht⟩
  · rw [descend_of_unused hwalk hunused hmissing]
    exact ⟨⟨hstep, hsame, by simp⟩, by simp [hmissing], rfl⟩

/-- A list popped below its bottom yields its own address as a frame, and nothing
after that. -/
theorem allocPage_of_spent (h : s.paging.Ready) (haddr : addr ≠ 0)
    (hfits : s.frameAlloc + 8 < 2 ^ 64)
    (hspent : s.paging.frames.get s.frameAlloc FreeFrameList.nextFree = s.frameAlloc + 8) :
    AllocStep s (allocPage s addr).2 ∧
      (if missingFor s.paging addr = 0 then
        Retranslates s.paging (allocPage s addr).2.paging addr
          (decodeEntry (encodeEntry (s.frameAlloc + 8)))
      else SameTranslation s.paging (allocPage s addr).2.paging) ∧
      ¬ UsedList (allocPage s addr).2.paging.frames s.frameAlloc := by
  obtain ⟨hframe, hnull⟩ := popFrameList_spent hfits hspent
  have hunused : ¬ UsedList s.popped.frames s.frameAlloc := not_not.mpr hnull
  obtain ⟨hlevel, hfound, hstate⟩ :=
    descendTo_of_unused addr (h.step (popped_step h).1).unshared hunused
  obtain ⟨hstep, hmapped, hframes, _⟩ :=
    allocPage_of_level h haddr hframe (by omega) hfits hlevel
  rw [← missingFor_popped, ← if_congr hfound rfl rfl, hframes, hstate]
  exact ⟨hstep, hmapped, hunused⟩

end Vmm

end FroggyOs
