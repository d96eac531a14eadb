import FroggyOs.Vmm.Region

/-!
# Whether `munmap` undoes `mmap`

`munmap` pushes back the frame that `unmap_page` returns, and `unmap_page` returns
`NULL` on every path. The frame list is therefore the same before and after, and no
frame of a mapped page is on it: `FramesApart` holds in every state `mmap` leads to.
Only a region without a mapped page is released as it should be.
-/

namespace FroggyOs

open ByteMemory Word64 RadixTree Loop64

attribute [local irreducible] popFrameList pushFrameList mapToPage

/-- No frame on the list backs a page. -/
def FramesApart (s : Vmm) : Prop :=
  ∀ stack, FrameListRep s.paging.frames s.frameAlloc stack →
    ∀ a t, s.paging.translate a = some t → t.addr ∉ stack

/-! ## The invariant -/

/-- A list that is not stocked represents the empty stack at most. -/
theorem FramesApart.of_supply {s : Vmm} {supply : FrameSupply} (hsupply : HasSupply s supply)
    (hstack : ∀ stack, supply = .frames stack →
      ∀ a t, s.paging.translate a = some t → t.addr ∉ stack) : FramesApart s := by
  intro stack hrep a t ht
  have hnext := hrep.nextFree
  cases supply with
  | frames stack' =>
      rw [hrep.unique hsupply.rep]
      exact hstack stack' rfl a t ht
  | bogus =>
      rw [hsupply.2] at hnext
      simp only [Nat.add_assoc, Nat.add_left_cancel_iff, Nat.add_eq_zero_iff] at hnext
      omega
  | nothing =>
      rw [not_not.mp hsupply] at hnext
      obtain ⟨_, rfl⟩ := hnext.resolve_left (by omega)
      simp

/-- A list popped below its bottom has no frame to be confused with. -/
theorem FramesApart.of_dry {s : Vmm} {used : Prop} (hfits : s.frameAlloc + 8 < 2 ^ 64)
    (hdry : RanDry used s.paging.frames s.frameAlloc) : FramesApart s := by
  by_cases hused : used
  · have hsupply : HasSupply s .bogus := ⟨hfits, hdry.1 hused⟩
    exact of_supply hsupply (by simp)
  · have hsupply : HasSupply s .nothing := not_not.mpr (hdry.2 hused)
    exact of_supply hsupply (by simp)

/-- A visit keeps the frames on the list apart from those that back pages. -/
theorem FramesApart.visitPage {s : Vmm} {supply : FrameSupply} {page : Nat}
    (h : s.paging.Ready) (hpage : page ≠ 0) (hsupply : HasSupply s supply)
    (hapart : FramesApart s) : FramesApart (s.visitPage page) := by
  cases supply with
  | frames stack =>
      have hstock : Stocked s.paging s.frameAlloc stack := hsupply
      by_cases henough : framesNeeded s.paging [page] ≤ stack.length
      · rw [framesNeeded_singleton] at henough
        obtain _ | ⟨frame, rest⟩ := stack
        · simp at henough
        have hserved := Vmm.allocPage_of_stocked h hpage hstock (by simpa using henough)
        have hgood := hstock.usable frame List.mem_cons_self
        have hdecode : decodeEntry (encodeEntry frame) = some hgood.toFrame :=
          decodeEntry_encodeEntry hgood.toFrame hgood.2.2
        obtain ⟨hnot, _⟩ := List.nodup_cons.mp hstock.nodup
        have hsupply' : HasSupply (s.visitPage page) (.frames (rest.drop _)) := hserved.stocked
        refine of_supply hsupply' ?_
        rintro _ ⟨⟩ a t ht hmem
        have hrest := List.mem_of_mem_drop hmem
        have ht' : (s.allocPage page).2.paging.translate a = some t := ht
        rw [hserved.mapped a, hdecode] at ht'
        split at ht'
        · cases ht'
          exact hnot hrest
        · exact hapart _ hstock.rep a t ht' (List.mem_cons_of_mem _ hrest)
      · rw [framesNeeded_singleton] at henough
        obtain ⟨hunserved, hdry⟩ := Vmm.allocPage_of_short h hpage hstock (by omega)
        have hfits := hstock.rep.fits
        rw [← hunserved.step.frameAlloc] at hfits hdry
        exact of_dry (by rw [Vmm.visitPage]; omega) hdry
  | bogus =>
      obtain ⟨hstep, _, hunused⟩ := Vmm.allocPage_of_spent h hpage hsupply.1 hsupply.2
      rw [← hstep.frameAlloc] at hunused
      have hsupply' : HasSupply (s.visitPage page) .nothing := hunused
      exact of_supply hsupply' (by simp)
  | nothing =>
      rw [Vmm.visitPage, Vmm.allocPage_of_unused hsupply]
      exact hapart

/-- The page loop of `mmap` keeps them apart. -/
theorem FramesApart.foldl_visitPage {s : Vmm} {supply : FrameSupply} {pages : List Nat}
    (h : s.paging.Ready) (hpages : ∀ page ∈ pages, page ≠ 0) (hsupply : HasSupply s supply)
    (hapart : FramesApart s) :
    (pages.foldl Vmm.visitPage s).paging.Ready ∧ FramesApart (pages.foldl Vmm.visitPage s) := by
  induction pages generalizing s supply with
  | nil => exact ⟨h, hapart⟩
  | cons page rest ih =>
      have hpage := hpages page List.mem_cons_self
      obtain ⟨supply', hvisit⟩ := visitPage_step h hpage hsupply
      exact ih hvisit.step.ready (fun p hp => hpages p (List.mem_cons_of_mem _ hp)) hvisit.left
        (hapart.visitPage h hpage hsupply)

/-! ## The loop of `munmap` -/

/-- A pass of `munmap` leaves the frame list as it is. -/
theorem freePage_frames (s : Vmm) (addr : Nat) :
    (s.freePage addr).paging.frames = s.paging.frames ∧
      (s.freePage addr).frameAlloc = s.frameAlloc := by
  have hnull : (unmapPage s.paging addr).1 = 0 := by
    rw [unmapPage]
    split <;> [rfl; split <;> rfl]
  have hframes : (unmapPage s.paging addr).2.frames = s.paging.frames := by
    rw [unmapPage]
    split <;> [rfl; split <;> rfl]
  simp only [Vmm.freePage, hnull]
  exact ⟨hframes, rfl⟩

theorem foldl_freePage_frames (s : Vmm) (pages : List Nat) :
    (pages.foldl Vmm.freePage s).paging.frames = s.paging.frames ∧
      (pages.foldl Vmm.freePage s).frameAlloc = s.frameAlloc := by
  induction pages generalizing s with
  | nil => exact ⟨rfl, rfl⟩
  | cons page rest ih =>
      obtain ⟨hframes, hlist⟩ := freePage_frames s page
      rw [List.foldl_cons, (ih _).1, (ih _).2, hframes, hlist]
      exact ⟨rfl, rfl⟩

/-- A pass over an unmapped page does nothing. -/
theorem freePage_of_unmapped {s : Vmm} {addr : Nat} (h : s.paging.translate addr = none) :
    s.freePage addr = s := by
  have hfetch := (s.paging.fetchPageTableEntry_none_iff addr).mpr h
  simp only [Vmm.freePage, unmapPage, hfetch]
  rfl

theorem foldl_freePage_of_unmapped {s : Vmm} {pages : List Nat}
    (h : ∀ page ∈ pages, s.paging.translate page = none) : pages.foldl Vmm.freePage s = s := by
  induction pages with
  | nil => rfl
  | cons page rest ih =>
      rw [List.foldl_cons, freePage_of_unmapped (h page List.mem_cons_self)]
      exact ih fun p hp => h p (List.mem_cons_of_mem _ hp)

/-! ## `munmap` after `mmap` -/

/-- `munmap` of the region returns, unmaps every page of it, has each frame that backed
one on the list once, and leaves the other translations alone. -/
structure MunmapUndoes (s : Vmm) (start n : Nat) (s' : Vmm) : Prop where
  returns : Vmm.munmap s start n = some s'
  unmapped : ∀ a, start ≤ a → a < start + 4096 * n → s'.paging.translate a = none
  returned : ∀ a t, start ≤ a → a < start + 4096 * n → s.paging.translate a = some t →
    ∃ stack, FrameListRep s'.paging.frames s'.frameAlloc stack ∧ stack.count t.addr = 1
  outside : ∀ b, (∀ a, start ≤ a → a < start + 4096 * n → pageNumber b ≠ pageNumber a) →
    s'.paging.translate b = s.paging.translate b

section MunmapUndoes

variable {s s₁ : Vmm} {supply : FrameSupply} {n start : Nat}

theorem munmap_eq (s₁ : Vmm) (hstart : start < 2 ^ 64) (hn : n < 2 ^ 64)
    (hends : PageLoopEnds start n) :
    Vmm.munmap s₁ start n = some ((visitedPages start n).foldl Vmm.freePage s₁) :=
  (pageLoop_eq Vmm.freePage s₁ hstart hn).1 hends

/-- The frame of a mapped page is not returned. -/
theorem not_munmapUndoes_of_mapped (hapart : FramesApart s₁) (hstart : start < 2 ^ 64)
    (hn : n < 2 ^ 64) (hends : PageLoopEnds start n) {a : Nat} {t : Frame} (hlow : start ≤ a)
    (hhigh : a < start + 4096 * n) (ht : s₁.paging.translate a = some t) (s₂ : Vmm) :
    ¬ MunmapUndoes s₁ start n s₂ := by
  intro hundoes
  obtain ⟨stack, hrep, hcount⟩ := hundoes.returned a t hlow hhigh ht
  have hreturns := hundoes.returns
  rw [munmap_eq s₁ hstart hn hends] at hreturns
  cases hreturns
  -- the list is the one before the call, and the frame is not on it
  obtain ⟨hframes, hlist⟩ := foldl_freePage_frames s₁ (visitedPages start n)
  rw [hframes, hlist] at hrep
  rw [List.count_eq_zero_of_not_mem (hapart stack hrep a t ht)] at hcount
  cases hcount

/-- A region without a mapped page is released without an effect. -/
theorem munmapUndoes_of_unmapped (hstart : start < 2 ^ 64) (hn : n < 2 ^ 64)
    (hends : PageLoopEnds start n)
    (hunmapped : ∀ a, start ≤ a → a < start + 4096 * n → s₁.paging.translate a = none) :
    MunmapUndoes s₁ start n s₁ := by
  have hnothing : (visitedPages start n).foldl Vmm.freePage s₁ = s₁ := by
    apply foldl_freePage_of_unmapped
    intro page hpage
    obtain ⟨hlow, hhigh, _⟩ := mem_visitedPages hpage
    exact hunmapped page hlow (by omega)
  refine ⟨by rw [munmap_eq s₁ hstart hn hends, hnothing], hunmapped, ?_, fun _ _ => rfl⟩
  intro a t hlow hhigh ht
  rw [hunmapped a hlow hhigh] at ht
  cases ht

/-- `mmap` keeps the frames on the list apart from those that back pages. -/
theorem FramesApart.mmap (h : s.paging.Ready) (hsupply : HasSupply s supply)
    (hapart : FramesApart s) (hn : n < 2 ^ 64) (hmmap : Vmm.mmap s n = some (start, s₁))
    (hstart : start ≠ 0) : FramesApart s₁ := by
  obtain ⟨_, rfl, rfl⟩ := mmap_eq_some hn hmmap hstart
  have hpages : ∀ page ∈ visitedPages s.kHeapEnd.toNat n, page ≠ 0 := by
    intro page hpage
    have := (mem_visitedPages hpage).1
    omega
  have hsupply' : HasSupply (Vmm.growHeap s n).2 supply := hsupply
  have hready : (Vmm.growHeap s n).2.paging.Ready := h
  have hapart' : FramesApart (Vmm.growHeap s n).2 := hapart
  exact (FramesApart.foldl_visitPage hready hpages hsupply' hapart').2

/-- After `mmap`, `munmap` undoes it exactly when no page of the region is mapped. -/
theorem munmap_undoes_iff (h : s.paging.Ready) (hsupply : HasSupply s supply)
    (hapart : FramesApart s) (hn : n < 2 ^ 64) (hmmap : Vmm.mmap s n = some (start, s₁))
    (hstart : start ≠ 0) :
    (∃ s₂, MunmapUndoes s₁ start n s₂) ↔
      ∀ a, start ≤ a → a < start + 4096 * n → s₁.paging.translate a = none := by
  have hapart₁ := hapart.mmap h hsupply hn hmmap hstart
  obtain ⟨hends, rfl, _⟩ := mmap_eq_some hn hmmap hstart
  have hword := s.kHeapEnd.toNat_lt
  constructor
  · rintro ⟨s₂, hundoes⟩ a hlow hhigh
    by_contra hmapped
    obtain ⟨t, ht⟩ := Option.ne_none_iff_exists'.mp hmapped
    exact not_munmapUndoes_of_mapped hapart₁ hword hn hends hlow hhigh ht s₂ hundoes
  · intro hunmapped
    exact ⟨s₁, munmapUndoes_of_unmapped hword hn hends hunmapped⟩

end MunmapUndoes

section Evaluation

theorem zeroedRoot_translate (a : Nat) : zeroedRoot.translate a = none := by
  cases ht : zeroedRoot.translate a with
  | none => rfl
  | some t => cases Refines.path_eq_nil_of_zeroed zeroedRoot_entryAt ht

theorem freshVmm_framesApart : FramesApart freshVmm := by
  intro stack _ a t ht
  rw [freshVmm, zeroedRoot_translate] at ht
  cases ht

/-- A frame list no frame has been pushed on. -/
def emptyVmm : Vmm :=
  { freshVmm with paging.frames := initFrameListHeader ⟨fun _ => 0⟩ 0x100 }

theorem emptyVmm_translate (a : Nat) : emptyVmm.paging.translate a = none := by
  have hwalks : emptyVmm.paging.walkFrom = zeroedRoot.walkFrom :=
    PageState.walkFrom_congr rfl rfl rfl
  rw [PageState.translate, hwalks]
  exact zeroedRoot_translate a

theorem mmap_emptyVmm : Vmm.mmap emptyVmm 1 = some (0x10000, (Vmm.growHeap emptyVmm 1).2) := by
  have hunused : ¬ UsedList (Vmm.growHeap emptyVmm 1).2.paging.frames
      (Vmm.growHeap emptyVmm 1).2.frameAlloc := not_not.mpr (by decide)
  have hvisit : [0x10000].foldl Vmm.visitPage (Vmm.growHeap emptyVmm 1).2 =
      (Vmm.growHeap emptyVmm 1).2 := by
    rw [List.foldl_cons, Vmm.visitPage, Vmm.allocPage_of_unused hunused]
    rfl
  have hmmap := (mmap_eq (s := emptyVmm) (n := 1) (by decide) (by decide)).1 (by decide)
  have hpages : visitedPages emptyVmm.kHeapEnd.toNat 1 = [0x10000] := by decide
  rw [hmmap, hpages, hvisit]
  rfl

theorem munmapUndoes_emptyVmm :
    ∃ s₂, MunmapUndoes (Vmm.growHeap emptyVmm 1).2 0x10000 1 s₂ :=
  have hready : emptyVmm.paging.Ready :=
    ⟨by decide, by decide, (TreeStep.of_frames freshVmm_ready.unshared _).1.unshared⟩
  have hsupply : HasSupply emptyVmm .nothing := not_not.mpr (by decide)
  have hapart : FramesApart emptyVmm := FramesApart.of_supply hsupply (by simp)
  (munmap_undoes_iff hready hsupply hapart (by decide) mmap_emptyVmm (by decide)).mpr
    fun a _ _ => emptyVmm_translate a

/-- The state after `mmap` of one page has mapped it. -/
def oneMapped : Vmm := [0x10000].foldl Vmm.visitPage (Vmm.growHeap freshVmm 1).2

theorem mmap_freshVmm : Vmm.mmap freshVmm 1 = some (0x10000, oneMapped) :=
  (mmap_eq (by decide) (by decide)).1 (by decide)

theorem not_munmapUndoes_one_page : ¬ ∃ s₂, MunmapUndoes oneMapped 0x10000 1 s₂ := by
  rintro ⟨s₂, hundoes⟩
  have hmapped : oneMapped.paging.translate 0x10000 = some ⟨0x6000, by decide, by decide⟩ := by
    decide +kernel
  have hapart := freshVmm_framesApart.mmap freshVmm_ready freshVmm_stocked (by decide)
    mmap_freshVmm (by decide)
  exact not_munmapUndoes_of_mapped hapart (by decide) (by decide) (by decide) (by decide)
    (by decide) hmapped s₂ hundoes

end Evaluation

end FroggyOs
