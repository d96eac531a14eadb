import FroggyOs.Paging.Contracts
import FroggyOs.Vmm.Conservation
import Mathlib.Data.Set.Card

/-!
# What a failing call of `alloc_page` loses

`alloc_page` pops the frame of the page first and has two ways to fail after that: the
`NULL` address, and `map_to_page` without a frame for a table. None of them pushes the
frame back. `copies` counts a frame on the free-frame list and in the entries of the
tree; a call that fails keeps all counts exactly when it found the list empty
(`allocPage_atomicOnFailure_iff`).
-/

namespace FroggyOs

open ByteMemory Word64 RadixTree Ledger

attribute [local irreducible] popFrameList mapToPage nextTable

/-! ## The frames on the list -/

/-- The frames in the slots of the list up to the one `nextFree` points at; none when it
points below the first slot. -/
def listFrames (m : Mem) (list : Nat) : List Nat :=
  (List.range ((m.get list FreeFrameList.nextFree - (list + 16)) / 8)).map fun k =>
    m.load (list + 24 + 8 * k) 8

theorem listFrames_eq_nil {m : Mem} {list : Nat}
    (h : m.get list FreeFrameList.nextFree < list + 24) : listFrames m list = [] := by
  have hnone : (m.get list FreeFrameList.nextFree - (list + 16)) / 8 = 0 := by omega
  rw [listFrames, hnone]
  rfl

theorem Slots.range_map {m : Mem} {list : Nat} {stack : List Nat} (h : Slots m list stack) :
    (List.range stack.length).map (fun k => m.load (list + 24 + 8 * k) 8) = stack.reverse := by
  induction stack with
  | nil => rfl
  | cons frame rest ih =>
      obtain ⟨hframe, hrest⟩ := h
      rw [List.length_cons, List.range_succ, List.map_append, List.map_singleton, ih hrest,
        List.reverse_cons, hframe]

/-- On a list that represents a stack these are the frames of the stack. -/
theorem FrameListRep.listFrames {m : Mem} {list : Nat} {stack : List Nat}
    (h : FrameListRep m list stack) : listFrames m list = stack.reverse := by
  obtain hnext | ⟨hnext, rfl⟩ := h.nextFree
  · have hdepth : (m.get list FreeFrameList.nextFree - (list + 16)) / 8 = stack.length := by
      omega
    rw [FroggyOs.listFrames, hdepth]
    exact h.slots.range_map
  · exact listFrames_eq_nil (by omega)

/-! ## Counting a frame -/

/-- How often a frame is on the free-frame list or held by an entry of the tree. -/
noncomputable def copies (s : Vmm) (frame : Nat) : Nat :=
  (listFrames s.paging.frames s.frameAlloc).count frame +
    {entry | Refers s.paging entry frame}.ncard

/-- If the call fails, every frame is where it was or has moved between the list and the
tree. -/
def AtomicOnFailure (s : Vmm) (addr : Nat) : Prop :=
  (s.allocPage addr).1 = 0 → ∀ frame, copies (s.allocPage addr).2 frame = copies s frame

/-- A frame keeps its entries when it keeps its slots. -/
theorem refers_congr {s s' : PageState} {frame : Nat}
    (hkept : ∀ q t, q.length < 4 → s.walkFrom q = some t → s'.walkFrom q = some t)
    (hslots : ∀ slot, slots s' slot = some frame ↔ slots s slot = some frame)
    (entry : TableEntry) : Refers s' entry frame ↔ Refers s entry frame := by
  rw [refers_iff, refers_iff]
  constructor
  · rintro ⟨path, hlen, hwalk, hslot⟩
    rw [hslots] at hslot
    obtain ⟨u, hu, _⟩ := slots_eq_some.mp hslot
    obtain ⟨t, ht⟩ := walk_isSome_of_append hu
    have hsame : some t = some entry.1 := (hkept path t hlen ht).symm.trans hwalk
    exact ⟨path, hlen, ht.trans hsame, hslot⟩
  · rintro ⟨path, hlen, hwalk, hslot⟩
    exact ⟨path, hlen, hkept path _ hlen hwalk, (hslots _).mpr hslot⟩

/-- The levels of `map_to_page` put only frames of the list into slots. -/
theorem slots_descend {s : PageState} (hun : s.Unshared) {path indices : List (Fin 512)}
    {t : Frame} {list frame : Nat} {stack : List Nat}
    (hlen : path.length + indices.length ≤ 3) (hwalk : s.walkFrom path = some t)
    (hstock : Stocked s list stack) (hframe : frame ∉ stack) (slot : Slot) :
    slots (descend s (s.physToVirt t.addr) list indices).2 slot = some frame ↔
      slots s slot = some frame := by
  induction indices generalizing s path t stack with
  | nil => exact Iff.rfl
  | cons i rest ih =>
      simp only [List.length_cons] at hlen
      have hptr : s.physToVirt t.addr + 8 * i.val = s.entryPtr t i := rfl
      cases hnext : s.walkFrom (path ++ [i]) with
      | some t₁ =>
          rw [descend, hptr, nextTable_of_some hwalk hnext]
          exact ih hun (by simp; omega) hnext hstock hframe
      | none =>
          obtain _ | ⟨top, stack⟩ := stack
          · -- the list is at its bottom: only its header changes
            obtain ⟨hnull, _⟩ := hstock.pop_nil
            have hsame : PageState.walkFrom { s with frames := (popFrameList s.frames list).2 } =
              s.walkFrom := PageState.walkFrom_congr rfl rfl rfl
            rw [descend, hptr, nextTable_of_null ((walkFrom_snoc_eq_none hwalk).mp hnext) hnull]
            simp only [slots, hsame]
          have hgood := hstock.usable top List.mem_cons_self
          obtain ⟨t₁, rfl⟩ : ∃ t₁ : Frame, t₁.addr = top := ⟨hgood.toFrame, hgood.toFrame_addr⟩
          obtain ⟨hlevel, hstock₁, _, hwalks⟩ := hstock.link hun (by omega) hwalk hnext
          have hslots := slots_linkTable (i := i) (by omega) hwalks
          have hempty : slots s (slotBelow path i (by omega)) = none := by
            rw [slots, slotBelow, hnext]
            rfl
          rw [descend, hptr, nextTable_of_link hwalk hnext hgood.2.1 hstock.pop_cons.1]
          generalize linkTable s t i t₁ list = s₁ at *
          have hvirt : s.physToVirt t₁.addr = s₁.physToVirt t₁.addr :=
            (PageState.physToVirt_congr hlevel.step.offset _).symm
          have hwalk₁ : s₁.walkFrom (path ++ [i]) = some t₁ := by
            rw [hwalks _ (by simp; omega), if_pos rfl]
          have hrest := ih hlevel.step.unshared (by simp; omega) hwalk₁ hstock₁
            fun h => hframe (List.mem_cons_of_mem _ h)
          rw [← hvirt] at hrest
          refine hrest.trans ?_
          rw [hslots]
          by_cases hslot : slot = slotBelow path i (by omega)
          · have htop : t₁.addr ≠ frame := fun h => hframe (h ▸ List.mem_cons_self)
            simp [hslot, hempty, htop]
          · rw [Function.update_of_ne hslot]

/-! ## The ways to fail -/

section Failure

variable {s : Vmm} {addr : Nat}

/-- A popped frame that no entry has received is lost. -/
theorem not_atomicOnFailure {frame : Nat} {rest : List Nat}
    (hstock : Stocked s.paging s.frameAlloc (frame :: rest)) (hnull : (s.allocPage addr).1 = 0)
    (hlist : frame ∉ listFrames (s.allocPage addr).2.paging.frames (s.allocPage addr).2.frameAlloc)
    (hrefers : ∀ entry, Refers (s.allocPage addr).2.paging entry frame ↔
      Refers s.paging entry frame) : ¬ AtomicOnFailure s addr := by
  intro h
  have hcopies := h hnull frame
  have hbefore : 0 < (listFrames s.paging.frames s.frameAlloc).count frame := by
    rw [hstock.rep.listFrames, List.count_pos_iff, List.mem_reverse]
    exact List.mem_cons_self
  simp only [copies, hrefers, List.count_eq_zero_of_not_mem hlist] at hcopies
  omega

/-- The frames after a pop are those below it. -/
theorem listFrames_popped {frame : Nat} {rest : List Nat}
    (hstock : Stocked s.paging s.frameAlloc (frame :: rest)) :
    frame ∉ listFrames s.popped.frames s.frameAlloc := by
  have hpop : Stocked s.popped s.frameAlloc rest := hstock.pop_cons.2
  rw [hpop.rep.listFrames, List.mem_reverse]
  exact (List.nodup_cons.mp hstock.nodup).1

theorem refers_popped (s : Vmm) (entry : TableEntry) (frame : Nat) :
    Refers s.popped entry frame ↔ Refers s.paging entry frame := by
  have hwalk := s.walkFrom_popped
  refine refers_congr (fun q t _ ht => by rw [hwalk, ht]) (fun slot => ?_) entry
  rw [slots, slots, hwalk]

/-- A call that fails after the pop leaves the tree as it was before the levels of
`map_to_page`, or as they left it. -/
theorem allocPage_failed (haligned : s.paging.cr3.toNat % 4096 = 0)
    (hpop : (popFrameList s.paging.frames s.frameAlloc).1 ≠ 0)
    (hnull : (s.allocPage addr).1 = 0) :
    (s.allocPage addr).2.frameAlloc = s.frameAlloc ∧
      ((s.allocPage addr).2.paging = s.popped ∨
        addr ≠ 0 ∧ s.paging.physToVirt s.paging.root.addr ≠ 0 ∧
          (s.allocPage addr).2.paging = (descendTo s.popped addr s.frameAlloc).2) := by
  by_cases haddr : addr = 0
  · simp only [Vmm.allocPage, Vmm.getPhysicalFrameAddr, if_neg hpop, if_pos haddr]
    exact ⟨trivial, .inl rfl⟩
  · have hroot : StartsAtRoot s.popped 0 := startsAtRoot_of_aligned haligned (.inl rfl)
    rw [Vmm.allocPage_of_frame rfl hpop haddr] at hnull ⊢
    refine ⟨rfl, ?_⟩
    by_cases hvirt : s.paging.physToVirt s.paging.root.addr = 0
    · rw [mapToPage_of_null hroot hvirt]
      exact .inl rfl
    · exact .inr ⟨haddr, hvirt, mapToPage_of_failed hroot hvirt haddr hnull⟩

/-- The slots hold no frame, or one for the page and one for every missing table. -/
def EmptyOrEnough (s : Vmm) (addr : Nat) : FrameSupply → Prop
  | .frames (_ :: rest) => addr ≠ 0 ∧ s.paging.physToVirt s.paging.root.addr ≠ 0 ∧
      missingFor s.paging addr ≤ rest.length
  | _ => True

/-- The levels of `map_to_page` succeed with a frame for every missing table. -/
theorem descendTo_of_stocked (addr : Nat) {p : PageState} {list : Nat} {stack : List Nat}
    (hun : p.Unshared) (hstock : Stocked p list stack) :
    LevelStep p [] [pgd addr, pud addr, pmd addr] (descendTo p addr list) ∧
      ((descendTo p addr list).1.isSome ↔ missingFor p addr ≤ stack.length) := by
  have hwalk : p.walkFrom [] = some p.root := rfl
  by_cases henough : missingFor p addr ≤ stack.length
  · have htakes : DescendTakes p _ _ _ _ (descendTo p addr list) :=
      descend_of_stocked hun (by simp) hwalk hstock henough
    exact ⟨htakes.level, iff_of_true htakes.found henough⟩
  · have hfails : DescendFails p _ _ _ (descendTo p addr list) :=
      descend_of_short hun (by simp) hwalk hstock (Nat.lt_of_not_le henough)
    exact ⟨hfails.level, iff_of_false (by simp [hfails.failed]) henough⟩

/-- A call that gets a frame succeeds when there are frames for the tables as well. -/
theorem allocPage_ne_zero_iff {frame : Nat} {rest : List Nat}
    (haligned : s.paging.cr3.toNat % 4096 = 0) (hun : s.paging.Unshared)
    (hstock : Stocked s.paging s.frameAlloc (frame :: rest)) :
    (s.allocPage addr).1 ≠ 0 ↔ EmptyOrEnough s addr (.frames (frame :: rest)) := by
  obtain ⟨hframe, hpop⟩ := hstock.pop_cons
  have hstock' : Stocked s.popped s.frameAlloc rest := hpop
  have hgood := hstock.usable frame List.mem_cons_self
  by_cases haddr : addr = 0
  · simp [Vmm.allocPage, Vmm.getPhysicalFrameAddr, hframe, haddr, EmptyOrEnough]
  have hstart : StartsAtRoot s.popped 0 := startsAtRoot_of_aligned haligned (.inl rfl)
  rw [Vmm.allocPage_of_frame hframe hgood.2.1 haddr]
  by_cases hroot : s.paging.physToVirt s.paging.root.addr = 0
  · rw [mapToPage_of_null hstart hroot]
    simp [EmptyOrEnough, hroot]
  have hpopped : s.popped.Unshared := (TreeStep.of_frames hun _).1.unshared
  obtain ⟨hlevel, hfound⟩ := descendTo_of_stocked addr hpopped hstock'
  have hleaf := (mapToPage_of_descend hstart hroot haddr hgood.toFrame.lt hlevel).2
  have hreturned : (mapToPage s.popped addr frame s.frameAlloc 0).1 = _ := hleaf.returned
  rw [Vmm.missingFor_popped] at hfound
  rw [hreturned, EmptyOrEnough, ← hfound]
  cases (descendTo s.popped addr s.frameAlloc).1.isSome <;> simp [haddr, hroot]

/-- A frame that is not on the list keeps its entries through the levels. -/
theorem refers_descendTo {p : PageState} {list frame : Nat} {stack : List Nat} (hun : p.Unshared)
    (hstock : Stocked p list stack) (hframe : frame ∉ stack) (entry : TableEntry) :
    Refers (descendTo p addr list).2 entry frame ↔ Refers p entry frame := by
  have hwalk : p.walkFrom [] = some p.root := rfl
  have hlevel := (descendTo_of_stocked addr hun hstock).1
  exact refers_congr hlevel.step.kept (slots_descend hun (by simp) hwalk hstock hframe) entry

/-- A call that pops a frame and fails loses it. -/
theorem not_atomicOnFailure_of_cons {frame : Nat} {rest : List Nat}
    (haligned : s.paging.cr3.toNat % 4096 = 0) (hun : s.paging.Unshared)
    (hstock : Stocked s.paging s.frameAlloc (frame :: rest)) (hnull : (s.allocPage addr).1 = 0) :
    ¬ AtomicOnFailure s addr := by
  have hgood := hstock.usable frame List.mem_cons_self
  have hfresh := (List.nodup_cons.mp hstock.nodup).1
  have hstock' : Stocked s.popped s.frameAlloc rest := hstock.pop_cons.2
  have hpop : (popFrameList s.paging.frames s.frameAlloc).1 ≠ 0 := by
    rw [hstock.pop_cons.1]
    exact hgood.2.1
  obtain ⟨hlist, hpaging⟩ := allocPage_failed haligned hpop hnull
  refine not_atomicOnFailure hstock hnull ?_ fun entry => ?_
  · obtain hpopped | ⟨haddr, hroot, -⟩ := hpaging
    · rw [hlist, hpopped]
      exact listFrames_popped hstock
    · -- the levels have popped the list below its bottom
      have hready : s.paging.Ready := ⟨haligned, hroot, hun⟩
      have hshort : (frame :: rest).length ≤ missingFor s.paging addr := by
        by_contra henough
        exact (allocPage_ne_zero_iff haligned hun hstock).mpr
          ⟨haddr, hroot, Nat.le_of_lt_succ (Nat.lt_of_not_le henough)⟩ hnull
      have hdry := (Vmm.allocPage_of_short hready haddr hstock hshort).2
      rw [hlist, listFrames_eq_nil (by rw [hdry.1 hstock.used]; omega)]
      exact List.not_mem_nil
  · rw [← refers_popped s]
    obtain hpopped | ⟨-, -, hdescent⟩ := hpaging
    · rw [hpopped]
    · have hpopped : s.popped.Unshared := (TreeStep.of_frames hun _).1.unshared
      rw [hdescent]
      exact refers_descendTo hpopped hstock' hfresh entry

/-- A call that finds no frame in the slots of the list keeps all counts. -/
theorem atomicOnFailure_of_popped (hlist : listFrames s.paging.frames s.frameAlloc = [])
    (hlist' : listFrames s.popped.frames s.frameAlloc = [])
    (hframeAlloc : (s.allocPage addr).2.frameAlloc = s.frameAlloc)
    (hpaging : (s.allocPage addr).2.paging = s.popped) (frame : Nat) :
    copies (s.allocPage addr).2 frame = copies s frame := by
  simp only [copies, hframeAlloc, hpaging, hlist, hlist', refers_popped]

/-- `alloc_page` is atomic on failure exactly when there is no frame it could lose, or
it does not fail. -/
theorem allocPage_atomicOnFailure_iff {supply : FrameSupply}
    (haligned : s.paging.cr3.toNat % 4096 = 0) (hun : s.paging.Unshared)
    (hsupply : HasSupply s supply) : AtomicOnFailure s addr ↔ EmptyOrEnough s addr supply := by
  match supply with
  | .frames (frame :: rest) =>
      rw [← allocPage_ne_zero_iff haligned hun hsupply]
      refine ⟨fun hatomic hnull => ?_, fun hne hnull => absurd hnull hne⟩
      exact not_atomicOnFailure_of_cons haligned hun hsupply hnull hatomic
  | .frames [] =>
      have hstock : Stocked s.paging s.frameAlloc [] := hsupply
      obtain ⟨hnull, hdry⟩ := hstock.pop_nil
      have hlist' : listFrames s.popped.frames s.frameAlloc = [] := by
        apply listFrames_eq_nil
        by_cases hused : UsedList s.paging.frames s.frameAlloc
        · rw [Vmm.popped_frames, hdry.1 hused]
          omega
        · rw [Vmm.popped_frames, hdry.2 hused]
          omega
      have hcall : s.allocPage addr = (0, { s with paging := s.popped }) :=
        Vmm.allocPage_of_null hnull
      exact iff_of_true (fun _ => atomicOnFailure_of_popped hstock.rep.listFrames hlist'
        (by rw [hcall]) (by rw [hcall])) trivial
  | .bogus =>
      obtain ⟨hfits, hspent⟩ := hsupply
      obtain ⟨hframe, hnone⟩ := popFrameList_spent hfits hspent
      have hlist := listFrames_eq_nil (m := s.paging.frames) (by rw [hspent]; omega)
      have hlist' : listFrames s.popped.frames s.frameAlloc = [] :=
        listFrames_eq_nil (by rw [Vmm.popped_frames, hnone]; omega)
      refine iff_of_true (fun hnull => ?_) trivial
      obtain ⟨hframeAlloc, hpaging⟩ := allocPage_failed haligned (by rw [hframe]; omega) hnull
      refine atomicOnFailure_of_popped hlist hlist' hframeAlloc ?_
      obtain hpopped | ⟨-, -, hdescent⟩ := hpaging
      · exact hpopped
      · have hpopped : s.popped.Unshared := (TreeStep.of_frames hun _).1.unshared
        rw [hdescent, (Vmm.descendTo_of_unused addr hpopped (not_not.mpr hnone)).2.2]
  | .nothing =>
      refine iff_of_true (fun _ frame => ?_) trivial
      rw [Vmm.allocPage_of_unused hsupply]

end Failure

section Evaluation

theorem freshVmm_atomicOnFailure : AtomicOnFailure freshVmm 0x10000 :=
  (allocPage_atomicOnFailure_iff (by decide) freshVmm_ready.unshared freshVmm_stocked).mpr
    ⟨by decide, by decide,
      Nat.le_trans (List.countP_le_length : missingFor zeroedRoot 0x10000 ≤ 3) (by decide)⟩

/-- An empty tree over a list of two frames. -/
def shortVmm : Vmm := { freshVmm with paging := twoFrames }

theorem shortVmm_stocked : Stocked twoFrames 0x100 [0x3000, 0x2000] where
  rep := by
    have h := initFrameListHeader_rep ⟨fun _ => 0⟩ (by decide : 0x100 + 24 < 2 ^ 64)
    have h := pushFrameList_rep h 0x2000 (by decide +kernel)
    exact pushFrameList_rep h 0x3000 (by decide +kernel)
  nodup := by decide
  usable := by decide
  spare := by
    intro a ha htable
    rw [Refines.isTable_of_zeroed twoFrames_entryAt htable] at ha
    revert ha
    decide

/-- The call takes 0x3000 for the page and 0x2000 for a table, fails, and loses 0x3000. -/
theorem not_atomicOnFailure_shortVmm : ¬ AtomicOnFailure shortVmm 0x400000 :=
  have hun : shortVmm.paging.Unshared := twoFrames_wellFormedTree.unshared
  have hfails : ¬ EmptyOrEnough shortVmm 0x400000 (.frames [0x3000, 0x2000]) :=
    fun h => absurd h.2.2 (by decide)
  not_atomicOnFailure_of_cons (by decide) hun shortVmm_stocked
    (not_not.mp (mt (allocPage_ne_zero_iff (by decide) hun shortVmm_stocked).mp hfails))

end Evaluation

end FroggyOs
