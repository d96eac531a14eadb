import FroggyOs.Klibc.FirstAlloc
import FroggyOs.Memory.BootMap
import FroggyOs.Vmm.PagedMemory

/-!
# Bringing up the memory (`kernel.c`)

`kernel_init` builds the frame list, maps a page to try it out, sets up the heap and its first
bucket, and allocates and frees a number. The loop that fills the list stops at nine frames;
these are enough, whatever tables the boot loader has left: three pages with at most three new
tables for each of two addresses. The page at `KHEAPSTART` is mapped twice, and the first of its
two frames is lost.

`kEnd` is not aligned by the linker script, so the page at `KHEAPSTART` may hold the end of the
kernel's own image, and the page of `virtAddr` may be one of the direct map. What the kernel had
there is lost. The model takes the addresses that the kernel goes on to use as an argument (its
code and globals, its stack, the tables and the list in the direct map), and follows
`kernel_init` only as far as these stay where they are. They do if and only if none of them lies
in one of the two pages (`kernelInit_boots`).
-/

namespace FroggyOs

open ByteMemory Word64

/-- Where the linker script places the kernel. -/
def imageStart : Nat := 0xffffffff80000000

/-- `virtAddr` -/
def tryPage : Nat := 0xffff80000008c990

/-- The processor finds the addresses `used` in the frames where it found them before. -/
def SameFrames (s s' : PageState) (used : List Nat) : Prop :=
  ∀ b ∈ used, s'.processorFrame b = s.processorFrame b

instance (s s' : PageState) (used : List Nat) : Decidable (SameFrames s s' used) :=
  inferInstanceAs (Decidable (∀ b ∈ used, s'.processorFrame b = s.processorFrame b))

/-- `kernel_init` from `read_memory_map` to `kfree`, its output left out. `m` has the bytes of all
addresses, those of the two pages as their new frames have them. Returns the number that is
printed and the heap; `none` where it does not return, or where a pointer that is dereferenced is
`NULL` or, in the case of `virtAddr`, in no page that is mapped. It is `none` too where one of the
addresses `used` has come to another frame: what the kernel does with other code or other globals
is left open. Which of the heap's bytes are used, and that they are in a page that is mapped, is
for `Booted` to say. -/
def kernelInitMemory (s : PageState) (m : Mem) (entries : List MemmapEntry) (kEnd : UInt64)
    (used : List Nat) : Option (Nat × Heap) := do
  let second ← entries[1]?
  let frameAllocAddress := add64 second.base.toNat s.offset.toNat
  let (_, frames) ← kernelInitFrameList s.frames s.offset.toNat entries
  let (frame, frames) := popFrameList frames frameAllocAddress
  let (_, tried) := mapToPage { s with frames } tryPage frame frameAllocAddress 0
  guard (SameFrames s tried used)
  let _ ← tried.processorFrame tryPage
  let m := m.store tryPage 8 69420
  -- `init_heap` and `init_vmm`
  let (_, vmm) := Vmm.allocPage ⟨tried, frameAllocAddress, kEnd⟩ kEnd.toNat
  guard (SameFrames s vmm.paging used)
  let (_, heap) ← kmallocInit ⟨m, vmm, kEnd.toNat⟩ 0x1000
  guard (SameFrames s heap.vmm.paging used)
  kernelInitNumber heap

/-! ## The frame list -/

section Frames

variable {s : PageState} {entries : List MemmapEntry} {region second : MemmapEntry}

/-- The first nine pages of the region are frames that no table lies in. -/
structure FramesUsable (s : PageState) (region : MemmapEntry) : Prop where
  aligned : region.base.toNat % 4096 = 0
  ne_zero : region.base.toNat ≠ 0
  below : region.base.toNat + 0x9000 ≤ 2 ^ 51
  spare : ∀ f ∈ regionFrames region, ¬ s.IsTable f

theorem FramesUsable.isFrame (h : FramesUsable s region) :
    ∀ f ∈ regionFrames region, IsFrame f := by
  have haligned := h.aligned
  have hne := h.ne_zero
  have hbelow := h.below
  intro f hf
  simp only [regionFrames, List.mem_map, List.mem_range] at hf
  obtain ⟨i, hi, rfl⟩ := hf
  rw [add64_eq (by omega)]
  exact ⟨by omega, by omega, by omega⟩

theorem regionFrames_nodup (h : FramesUsable s region) : (regionFrames region).Nodup := by
  have hbelow := h.below
  refine List.Nodup.map_on (fun i hi j hj heq => ?_) List.nodup_range
  simp only [List.mem_range] at hi hj
  rw [add64_eq (by omega), add64_eq (by omega)] at heq
  omega

/-- The list that `init_frame_list` builds. -/
theorem kernelInitFrameList_stocked (hregion : readMemoryMap entries = some region)
    (hsecond : entries[1]? = some second)
    (hfits : add64 second.base.toNat s.offset.toNat + 96 < 2 ^ 64) (h : FramesUsable s region) :
    ∃ frames, kernelInitFrameList s.frames s.offset.toNat entries =
        some (regionFrames region, frames) ∧
      Stocked { s with frames } (add64 second.base.toNat s.offset.toNat)
        (regionFrames region).reverse := by
  have hlarge := (largeRegion_spec (readMemoryMap_eq entries ▸ hregion)).2.2
  have hpushed := (addFrameRegion_eq (add64 second.base.toNat s.offset.toNat) hlarge s.frames).1
  refine ⟨_, ?_, ⟨initFrameList_rep hlarge hfits s.frames, ?_, ?_, ?_⟩⟩
  · rw [kernelInitFrameList, hsecond, hregion, ← hpushed]
    rfl
  · exact List.nodup_reverse.mpr (regionFrames_nodup h)
  · exact fun f hf => h.isFrame f (List.mem_reverse.mp hf)
  · intro f hf htable
    refine h.spare f (List.mem_reverse.mp hf) ?_
    obtain ⟨q, t, hq, ht, rfl⟩ := htable
    exact ⟨q, t, hq, ht, rfl⟩

end Frames

/-! ## The pages -/

section Pages

variable {v v' v₁ v₂ v₃ : Vmm} {stack stack' : List Nat} {p a b : Nat} {t : Frame}

/-- `alloc_page` has taken the frame `t` from the top of the list, and the tables that it lacked
from below. -/
structure PageTaken (v v' : Vmm) (a : Nat) (t : Frame) (stack stack' : List Nat) : Prop where
  top : stack[0]? = some t.addr
  mapped : Retranslates v.paging v'.paging a (some t)
  served : Vmm.Served v v' a t.addr stack'
  rest : stack' = stack.drop (missingFor v.paging a + 1)
  entries : EntriesFrom v.paging v'.paging
  within : WritesWithin v.paging v'.paging (v.paging.pagingBytes stack)
  tables : TablesFrom v.paging v'.paging stack
  backs : Backs v'.paging stack' t

theorem missingFor_le_three (s : PageState) (page : Nat) : missingFor s page ≤ 3 :=
  List.countP_le_length

/-- A call on a list that lasts. -/
theorem allocPage_taken (h : v.paging.Ready) (ha : a ≠ 0)
    (hstock : Stocked v.paging v.frameAlloc stack) (hlasts : missingFor v.paging a < stack.length) :
    ∃ t, PageTaken v (v.allocPage a).2 a t stack (stack.drop (missingFor v.paging a + 1)) := by
  obtain _ | ⟨f, rest⟩ := stack
  · simp at hlasts
  rw [List.length_cons] at hlasts
  have henough : missingFor v.paging a ≤ rest.length := by omega
  have hserved := Vmm.allocPage_of_stocked h ha hstock henough
  obtain ⟨hbytes, htables⟩ := allocPage_bytes h ha hstock henough
  have hframe := hstock.usable f List.mem_cons_self
  obtain ⟨hnot, -⟩ := List.nodup_cons.mp hstock.nodup
  have hdecode : decodeEntry (encodeEntry f) = some hframe.toFrame :=
    decodeEntry_encodeEntry hframe.toFrame hframe.2.2
  have hmapped := hserved.mapped
  rw [hdecode] at hmapped
  refine ⟨hframe.toFrame, ⟨rfl, hmapped, hserved, rfl, allocPage_entries h ha hstock henough,
    hbytes.mono (pagingBytes_subset rfl (fun _ => .inl) (List.subset_cons_self _ _)),
    fun x hx => (htables x hx).imp_right (List.mem_cons_of_mem _), ⟨hframe.2.1, ?_, ?_⟩⟩⟩
  · exact fun htable => (htables f htable).elim (hstock.spare f List.mem_cons_self) hnot
  · exact fun hmem => hnot (List.drop_subset _ _ hmem)

namespace PageTaken

theorem mem (h : PageTaken v v' a t stack stack') : t.addr ∈ stack := List.mem_of_getElem? h.top

theorem subset (h : PageTaken v v' a t stack stack') : stack' ⊆ stack :=
  h.rest ▸ List.drop_subset _ _

theorem offset (h : PageTaken v v' a t stack stack') : v'.paging.offset = v.paging.offset :=
  h.served.step.tree.offset

/-- A page that has just been mapped lacks no table. -/
theorem missingFor_eq_zero (h : PageTaken v v' a t stack stack') :
    missingFor v'.paging a = 0 := by
  rw [missingFor_eq_zero_iff]
  intro hnone
  have hlength : (lowestTable a).length ≤ 3 := by simp [lowestTable]
  exact ((h.served.tables _ hlength).mp hnone).2 ((lowestTable_mem_tablePaths a a).mpr rfl)

/-- Frames behind pages stay apart from the tables and the list. -/
theorem keeps_backs (h : PageTaken v v' a t stack stack') {u : Frame}
    (hu : Backs v.paging stack u) : Backs v'.paging stack' u := hu.mono h.tables h.subset

theorem pagingBytes (h : PageTaken v v' a t stack stack') :
    v'.paging.pagingBytes stack' ⊆ v.paging.pagingBytes stack :=
  pagingBytes_subset h.offset h.tables h.subset

end PageTaken

/-- Nine frames are enough to map two pages, the second of them twice. -/
theorem allocPage_thrice (h : v.paging.Ready) (hp : p ≠ 0) (ha : a ≠ 0)
    (hstock : Stocked v.paging v.frameAlloc stack) (hlength : 9 ≤ stack.length)
    (kHeapEnd : UInt64) : ∃ t u₁ u stack₁ stack₂ stack₃,
      PageTaken v (v.allocPage p).2 p t stack stack₁ ∧
      PageTaken (v.allocPage p).2 ((v.allocPage p).2.allocPage a).2 a u₁ stack₁ stack₂ ∧
      PageTaken { ((v.allocPage p).2.allocPage a).2 with kHeapEnd }
        (Vmm.allocPage { ((v.allocPage p).2.allocPage a).2 with kHeapEnd } a).2 a u
        stack₂ stack₃ := by
  have hp₁ := missingFor_le_three v.paging p
  obtain ⟨t, h₁⟩ := allocPage_taken h hp hstock (by omega)
  generalize (v.allocPage p).2 = v₁ at *
  have hp₂ := missingFor_le_three v₁.paging a
  obtain ⟨u₁, h₂⟩ := allocPage_taken h₁.served.step.ready ha h₁.served.stocked
    (by rw [List.length_drop]; omega)
  generalize (v₁.allocPage a).2 = v₂ at *
  have hmissing := h₂.missingFor_eq_zero
  obtain ⟨u, h₃⟩ := allocPage_taken (v := { v₂ with kHeapEnd }) h₂.served.step.ready ha
    h₂.served.stocked (by rw [hmissing, List.length_drop, List.length_drop]; omega)
  exact ⟨t, u₁, u, _, _, _, h₁, h₂, h₃⟩

/-- What is mapped once `p` has been mapped once and `a` twice, and which frames are left. -/
structure PagesUp (s s' : PageState) (list : Nat) (stack : List Nat) (p a : Nat) : Prop where
  ready : s'.Ready
  plain : s'.Plain
  offset : s'.offset = s.offset
  enough : framesNeeded s [p, a] + 1 ≤ stack.length
  stocked : Stocked s' list (stack.drop (framesNeeded s [p, a] + 1))
  within : WritesWithin s s' (s.pagingBytes stack)
  mapped : ∃ t u : Frame, t.addr ∈ stack ∧ u.addr ∈ stack ∧ t ≠ u ∧
    Backs s' (stack.drop (framesNeeded s [p, a] + 1)) t ∧
    Backs s' (stack.drop (framesNeeded s [p, a] + 1)) u ∧ ∀ b, s'.processorFrame b =
      if pageNumber b = pageNumber a then some u
      else if pageNumber b = pageNumber p then some t else s.processorFrame b

/-- The frame list does not matter for what is mapped. -/
theorem PagesUp.of_frames {s s' : PageState} {list : Nat} {frames : Mem}
    (h : PagesUp { s with frames } s' list stack p a) : PagesUp s s' list stack p a := by
  have hwalk : PageState.walkFrom { s with frames } = s.walkFrom :=
    PageState.walkFrom_congr rfl rfl rfl
  have hneeded : framesNeeded { s with frames } [p, a] = framesNeeded s [p, a] := by
    rw [framesNeeded, framesNeeded, missingTables, missingTables, hwalk]
  have hbytes : PageState.pagingBytes { s with frames } stack ⊆ s.pagingBytes stack := by
    refine pagingBytes_subset rfl ?_ (List.Subset.refl _)
    rintro x ⟨q, u, hq, hu, rfl⟩
    exact .inl ⟨q, u, hq, by rwa [hwalk] at hu, rfl⟩
  obtain ⟨hready, hplain, hoffset, henough, hstocked, hwithin, t, u, ht, hu, hne, hbt, hbu,
    hmapped⟩ := h
  rw [hneeded] at henough hstocked hbt hbu
  exact ⟨hready, hplain, hoffset, henough, hstocked, fun x hx => hwithin fun hin => hx (hbytes hin),
    t, u, ht, hu, hne, hbt, hbu, hmapped⟩

/-- Three calls one after another. -/
theorem PagesUp.of_taken {t u₁ u : Frame} {stack₁ stack₂ stack₃ : List Nat} {kHeapEnd : UInt64}
    (hplain : v.paging.Plain) (hnodup : stack.Nodup) (h₁ : PageTaken v v₁ p t stack stack₁)
    (h₂ : PageTaken v₁ v₂ a u₁ stack₁ stack₂)
    (h₃ : PageTaken { v₂ with kHeapEnd } v₃ a u stack₂ stack₃) :
    PagesUp v.paging v₃.paging v.frameAlloc stack p a := by
  have hneeded : framesNeeded v.paging [p, a] =
      missingFor v.paging p + 1 + (missingFor v₁.paging a + 1) := by
    rw [framesNeeded_cons h₁.served.tables [a], framesNeeded_singleton, framesNeeded_singleton]
  have hmissing : missingFor v₂.paging a = 0 := h₂.missingFor_eq_zero
  have hstack₂ : stack₂ = stack.drop (framesNeeded v.paging [p, a]) := by
    rw [h₂.rest, h₁.rest, List.drop_drop, hneeded]
  have hstack₃ : stack₃ = stack.drop (framesNeeded v.paging [p, a] + 1) := by
    rw [h₃.rest, hstack₂, hmissing, List.drop_drop]
  have hindex : stack[framesNeeded v.paging [p, a]]? = some u.addr := by
    rw [← h₃.top, hstack₂, List.getElem?_drop, Nat.add_zero]
  obtain ⟨hlast, -⟩ := List.getElem?_eq_some_iff.mp hindex
  have hlist : v₃.frameAlloc = v.frameAlloc :=
    (h₃.served.step.frameAlloc.trans h₂.served.step.frameAlloc).trans h₁.served.step.frameAlloc
  have hstocked := h₃.served.stocked
  rw [hstack₃, hlist] at hstocked
  have hsub₁ := h₁.pagingBytes
  have hsub₂ := h₂.pagingBytes.trans hsub₁
  have hplain₁ := hplain.step h₁.served.step.tree.cr3 h₁.entries
  have hplain₂ := hplain₁.step h₂.served.step.tree.cr3 h₂.entries
  have hplain₃ := hplain₂.step h₃.served.step.tree.cr3 h₃.entries
  constructor
  case ready => exact h₃.served.step.ready
  case plain => exact hplain₃
  case offset => exact (h₃.offset.trans h₂.offset).trans h₁.offset
  case enough => exact hlast
  case stocked => exact hstocked
  case within => exact (h₁.within.trans (h₂.within.mono hsub₁)).trans (h₃.within.mono hsub₂)
  case mapped =>
    rw [← hstack₃]
    refine ⟨t, u, h₁.mem, List.mem_of_getElem? hindex, ?_,
      h₃.keeps_backs (h₂.keeps_backs h₁.backs), h₃.backs, fun b => ?_⟩
    · rintro rfl
      have hsame := (List.getElem?_inj (Nat.zero_lt_of_lt hlast) hnodup).mp
        (h₁.top.trans hindex.symm)
      omega
    · rw [hplain₃.processorFrame_eq, h₃.mapped, hplain.processorFrame_eq]
      split
      case isTrue => rfl
      case isFalse hb =>
        dsimp only
        rw [h₂.mapped, if_neg hb, h₁.mapped]

section PagesUp

variable {s s' : PageState} {list : Nat}

/-- An address stays in its frame exactly if it is in neither page. -/
theorem PagesUp.same_iff (h : PagesUp s s' list stack p a)
    (hbacked : pageNumber b = pageNumber p ∨ pageNumber b = pageNumber a →
      ∀ f, s.processorFrame b = some f → f.addr ∉ stack) :
    s'.processorFrame b = s.processorFrame b ↔
      pageNumber b ≠ pageNumber p ∧ pageNumber b ≠ pageNumber a := by
  obtain ⟨t, u, ht, hu, -, -, -, hmapped⟩ := h.mapped
  rw [hmapped]
  by_cases ha : pageNumber b = pageNumber a
  · rw [if_pos ha]
    exact iff_of_false (fun hsame => hbacked (.inr ha) u hsame.symm hu) fun hout => hout.2 ha
  by_cases hp : pageNumber b = pageNumber p
  · rw [if_neg ha, if_pos hp]
    exact iff_of_false (fun hsame => hbacked (.inl hp) t hsame.symm ht) fun hout => hout.1 hp
  · rw [if_neg ha, if_neg hp]
    exact iff_of_true rfl ⟨hp, ha⟩

/-- What is stored in neither page, nor in tables or frames of the list, stays. -/
theorem PagesUp.sameCell (h : PagesUp s s' list stack p a) (hplain : s.Plain)
    (hsame : s'.processorFrame b = s.processorFrame b)
    (hout : ∀ f, s.processorFrame b = some f → s.bytePtr f b ∉ s.pagingBytes stack) :
    SameCell s s' b := by
  rw [h.plain.processorFrame_eq, hplain.processorFrame_eq] at hsame
  rw [hplain.processorFrame_eq] at hout
  exact sameCell_of_within h.within h.offset hsame hout

end PagesUp

end Pages

/-! ## The heap -/

section Heap

variable {h : Heap} {a : Nat}

/-- `mmap` visits the first of the 17 pages of the bucket only. -/
theorem kmallocInit_first (hend : h.vmm.kHeapEnd.toNat = a) (ha : a ≠ 0)
    (hfits : a + 69632 ≤ 2 ^ 64) : kmallocInit h 0x1000 = some (a,
      { h with
        mem := initBucket h.mem a 69632 0
        vmm := (Vmm.allocPage { h.vmm with
          kHeapEnd := h.vmm.kHeapEnd + UInt64.ofNat 17 * 0x1000 } a).2 }) := by
  have hbytes : bucketBytes 0x1000 = 69632 := @bucketBytes_eq 0x1000 (by decide)
  have hpages : visitedPages a 17 = [a] := by
    rw [visitedPages, if_pos (by omega)]
    rfl
  have hends : PageLoopEnds h.vmm.kHeapEnd.toNat 17 := by
    intro _
    omega
  have hmmap := (@mmap_eq h.vmm 17 (by decide) (by omega)).1 hends
  have hcount : 69632 / pageSize = 17 := by decide
  rw [hend, hpages] at hmmap
  rw [kmallocInit, createBucket, hbytes, hcount, hmmap]
  simp only [Option.bind_eq_bind, Option.bind_some, if_neg ha]
  rfl

end Heap

/-! ## The whole of it -/

/-- The heap that `kernel_init` leaves: one bucket of 69632 bytes of which a pebble of 60 is all
that can still be found, and one page of it that is mapped, which holds the bytes used so far. -/
structure Booted (s : PageState) (m : Mem) (list : Nat) (stack : List Nat) (kEnd : UInt64)
    (h : Heap) : Prop where
  pages : PagesUp s h.vmm.paging list stack tryPage kEnd.toNat
  kHeapStart : h.kHeapStart = kEnd.toNat
  kHeapEnd : h.vmm.kHeapEnd = kEnd + UInt64.ofNat 17 * 0x1000
  pebble : SinglePebble h.mem kEnd.toNat 60
  largest : h.mem.get kEnd.toNat MemoryBucket.largestFree = 60
  spinlock : h.mem.get kEnd.toNat MemoryBucket.spinlock = 0
  mapped : ∀ y, kEnd.toNat ≤ y → y < kEnd.toNat + 188 → (h.vmm.paging.processorFrame y).isSome
  others : ∀ y ∉ Mem.range tryPage 8, y < kEnd.toNat ∨ kEnd.toNat + 188 ≤ y →
    h.mem.byte y = m.byte y

theorem eq_mk_of_snd {α β : Type} {p : α × β} {b : β} (h : p.2 = b) : p = (p.1, b) :=
  Prod.ext rfl h

section Boot

variable {s : PageState} {entries : List MemmapEntry} {region second : MemmapEntry}
  {kEnd : UInt64} {used : List Nat}

/-- The calls in turn, and what is used after each of them. -/
theorem kernelInitMemory_of_calls {m frames : Mem} {regions : List Nat} {frame list a n : Nat}
    {tried : PageState} {vmm : Vmm} {heap h : Heap} {t : Frame}
    (hsecond : entries[1]? = some second)
    (hlist : add64 second.base.toNat s.offset.toNat = list)
    (hframes : kernelInitFrameList s.frames s.offset.toNat entries = some (regions, frames))
    (hpop : (popFrameList frames list).1 = frame)
    (hmap : (mapToPage { s with frames := (popFrameList frames list).2 } tryPage frame list 0).2 =
      tried)
    (ht : tried.processorFrame tryPage = some t)
    (halloc : (Vmm.allocPage ⟨tried, list, kEnd⟩ kEnd.toNat).2 = vmm)
    (hinit : kmallocInit ⟨m.store tryPage 8 69420, vmm, kEnd.toNat⟩ 0x1000 = some (a, heap))
    (hnumber : kernelInitNumber heap = some (n, h)) :
    kernelInitMemory s m entries kEnd used =
      if SameFrames s tried used ∧ SameFrames s vmm.paging used ∧
        SameFrames s heap.vmm.paging used then some (n, h) else none := by
  have hpopped : popFrameList frames list = (frame, (popFrameList frames list).2) := by rw [← hpop]
  rw [kernelInitMemory, hsecond, Option.bind_eq_bind, Option.bind_some, hlist, hframes,
    Option.bind_eq_bind, Option.bind_some]
  dsimp only
  rw [hpopped]
  dsimp only
  rw [eq_mk_of_snd hmap]
  dsimp only
  rw [halloc, hinit, ht]
  by_cases h₁ : SameFrames s tried used
  case neg => simp [guard, h₁]
  by_cases h₂ : SameFrames s vmm.paging used
  case neg => simp [guard, h₁, h₂]
  by_cases h₃ : SameFrames s heap.vmm.paging used
  case neg => simp [guard, h₁, h₂, h₃]
  case pos => simp [guard, h₁, h₂, h₃, hnumber]

/-- What the calls make of the page tables in turn: `tried` is the state after `virtAddr` has been
mapped, `inited` the one after `init_vmm`, and `v` the one with the first bucket. -/
structure PagesInTurn (s : PageState) (frames : Mem) (list : Nat) (stack : List Nat)
    (kEnd kHeapEnd : UInt64) (t : Frame) (tried : PageState) (inited v : Vmm) : Prop where
  popped : (popFrameList frames list).1 = t.addr
  map : (mapToPage { s with frames := (popFrameList frames list).2 } tryPage t.addr list 0).2 =
    tried
  found : tried.processorFrame tryPage = some t
  init : (Vmm.allocPage ⟨tried, list, kEnd⟩ kEnd.toNat).2 = inited
  initEnd : inited.kHeapEnd = kEnd
  bucket : (Vmm.allocPage { inited with kHeapEnd } kEnd.toNat).2 = v
  bucketEnd : v.kHeapEnd = kHeapEnd
  others : ∀ b, pageNumber b ≠ pageNumber tryPage ∧ pageNumber b ≠ pageNumber kEnd.toNat →
    tried.processorFrame b = s.processorFrame b ∧
      inited.paging.processorFrame b = s.processorFrame b
  pages : PagesUp s v.paging list stack tryPage kEnd.toNat

theorem pagesInTurn {frames : Mem} {list : Nat} {stack : List Nat} (hready : s.Ready)
    (hplain : s.Plain) (hstock : Stocked { s with frames } list stack) (hlength : 9 ≤ stack.length)
    (hend : kEnd.toNat ≠ 0) (kHeapEnd : UInt64) : ∃ t tried inited v,
      PagesInTurn s frames list stack kEnd kHeapEnd t tried inited v := by
  have hready₀ : PageState.Ready { s with frames } :=
    hready.step (TreeStep.of_frames hready.unshared frames).1
  have hplain₀ : PageState.Plain { s with frames } := hplain.step rfl (.of_tables rfl rfl rfl)
  have hsame₀ := (TreeStep.of_frames hready.unshared frames).2
  have hstock₀ : Stocked (Vmm.mk { s with frames } list kEnd).paging list stack := hstock
  obtain ⟨t, u₁, u, stack₁, stack₂, stack₃, h₁, h₂, h₃⟩ := allocPage_thrice hready₀
    (by decide : tryPage ≠ 0) hend hstock₀ hlength kHeapEnd
  have hplain₁ := hplain₀.step h₁.served.step.tree.cr3 h₁.entries
  have hplain₂ := hplain₁.step h₂.served.step.tree.cr3 h₂.entries
  have hpop : (popFrameList frames list).1 = t.addr := by
    obtain _ | ⟨frame, rest⟩ := stack
    · simp at hlength
    · rw [hstock₀.pop_cons.1]
      exact Option.some.inj h₁.top
  have hcall := Vmm.allocPage_of_frame (s := ⟨{ s with frames }, list, kEnd⟩) hpop
    (hstock₀.usable t.addr h₁.mem).2.1 (by decide : tryPage ≠ 0)
  have hpages := (PagesUp.of_taken hplain₀ hstock.nodup h₁ h₂ h₃).of_frames
  generalize hv₁ : (Vmm.allocPage ⟨{ s with frames }, list, kEnd⟩ tryPage).2 = v₁ at *
  have hlist : v₁.frameAlloc = list := h₁.served.step.frameAlloc
  have hkEnd : v₁.kHeapEnd = kEnd := h₁.served.step.kHeapEnd
  have hvmm : (⟨v₁.paging, list, kEnd⟩ : Vmm) = v₁ := by rw [← hlist, ← hkEnd]
  have hinit : (Vmm.allocPage ⟨v₁.paging, list, kEnd⟩ kEnd.toNat).2 =
      (v₁.allocPage kEnd.toNat).2 := by rw [hvmm]
  generalize (v₁.allocPage kEnd.toNat).2 = v₂ at *
  generalize hv₃ : (Vmm.allocPage { v₂ with kHeapEnd } kEnd.toNat).2 = v₃ at *
  refine ⟨t, v₁.paging, v₂, v₃, ?_⟩
  constructor
  case popped => exact hpop
  case map =>
    rw [← hv₁, hcall]
    rfl
  case found => rw [hplain₁.processorFrame_eq, h₁.mapped, if_pos rfl]
  case init => exact hinit
  case initEnd => exact h₂.served.step.kHeapEnd.trans hkEnd
  case bucket => exact hv₃
  case bucketEnd => exact h₃.served.step.kHeapEnd
  case others =>
    intro b hb
    have htried : v₁.paging.translate b = s.translate b := by
      rw [h₁.mapped, if_neg hb.1]
      exact hsame₀ b
    rw [hplain₁.processorFrame_eq, hplain₂.processorFrame_eq, hplain.processorFrame_eq, h₂.mapped,
      if_neg hb.2]
    exact ⟨htried, htried⟩
  case pages => exact hpages

/-- The whole run, with what is used compared after each of the three pages. -/
theorem kernelInitMemory_eq (m : Mem) (used : List Nat)
    (hregion : readMemoryMap entries = some region) (hsecond : entries[1]? = some second)
    (hlist : add64 second.base.toNat s.offset.toNat + 96 < 2 ^ 64) (husable : FramesUsable s region)
    (hready : s.Ready) (hplain : s.Plain) (hend : kEnd.toNat ≠ 0)
    (hroom : kEnd.toNat + 69632 ≤ 2 ^ 64) (hpage : kEnd.toNat % 4096 + 188 ≤ 4096) :
    ∃ tried inited h, kernelInitMemory s m entries kEnd used =
        (if SameFrames s tried used ∧ SameFrames s inited used ∧
          SameFrames s h.vmm.paging used then some (10023, h) else none) ∧
      (∀ b, pageNumber b ≠ pageNumber tryPage ∧ pageNumber b ≠ pageNumber kEnd.toNat →
        tried.processorFrame b = s.processorFrame b ∧
          inited.processorFrame b = s.processorFrame b) ∧
      Booted s m (add64 second.base.toNat s.offset.toNat) (regionFrames region).reverse kEnd h := by
  obtain ⟨frames, hframes, hstock⟩ := kernelInitFrameList_stocked hregion hsecond hlist husable
  have hlength : (regionFrames region).reverse.length = 9 := by simp [regionFrames]
  obtain ⟨t, tried, inited, v, hturn⟩ := pagesInTurn hready hplain hstock hlength.ge hend
    (kEnd + UInt64.ofNat 17 * 0x1000)
  have hpages := hturn.pages
  -- the heap and its first bucket
  have hinit := @kmallocInit_first ⟨m.store tryPage 8 69420, inited, kEnd.toNat⟩ kEnd.toNat
    (by rw [hturn.initEnd]) hend hroom
  dsimp only at hinit
  rw [hturn.initEnd, hturn.bucket] at hinit
  have hbucket : BucketAt 0 (initBucket (m.store tryPage 8 69420) kEnd.toNat 69632 0)
      (freshBucket kEnd.toNat 69632) 0 0 := initBucket_at (by omega) (by decide) (by decide)
  have hothers₁ : ∀ y, y < kEnd.toNat ∨ kEnd.toNat + 188 ≤ y →
      (initBucket (m.store tryPage 8 69420) kEnd.toNat 69632 0).byte y =
        (m.store tryPage 8 69420).byte y := fun y hy => initBucket_byte (by omega) (by omega)
  generalize initBucket (m.store tryPage 8 69420) kEnd.toNat 69632 0 = m₁ at *
  -- the number
  obtain ⟨m₂, hnumber, hsingle, hlargest, hspinlock, hothers₂⟩ := @kernelInitNumber_eq kEnd.toNat
    ⟨m₁, v, kEnd.toNat⟩ hbucket rfl hend hroom
  refine ⟨tried, inited.paging, ⟨m₂, v, kEnd.toNat⟩, ?_, hturn.others, hpages, rfl,
    hturn.bucketEnd, hsingle, hlargest, hspinlock, fun y hlow hhigh => ?_, fun y hout hy => ?_⟩
  · exact (kernelInitMemory_of_calls hsecond rfl hframes hturn.popped hturn.map hturn.found
      hturn.init hinit hnumber).trans rfl
  · obtain ⟨t, u, -, -, -, -, -, hmapped⟩ := hpages.mapped
    have hsame : pageNumber y = pageNumber kEnd.toNat := by
      unfold pageNumber
      omega
    rw [hmapped, if_pos hsame]
    rfl
  · have houtside : y < tryPage ∨ tryPage + 8 ≤ y := by
      by_contra hin
      exact hout ⟨by omega, by omega⟩
    calc m₂.byte y = m₁.byte y := hothers₂ y hy
      _ = (m.store tryPage 8 69420).byte y := hothers₁ y hy
      _ = m.byte y := Mem.store_byte_outside houtside

/-- With nine frames `kernel_init` comes to its end exactly if nothing that it uses lies in one of
the two pages that it maps. The heap then has one page of memory, and what is used keeps its frame,
and its value too where that is neither in a table nor in a frame of the list. -/
theorem kernelInit_boots (m : Mem) (hregion : readMemoryMap entries = some region)
    (hsecond : entries[1]? = some second)
    (hlist : add64 second.base.toNat s.offset.toNat + 96 < 2 ^ 64) (husable : FramesUsable s region)
    (hready : s.Ready) (hplain : s.Plain) (hend : kEnd.toNat ≠ 0)
    (hroom : kEnd.toNat + 69632 ≤ 2 ^ 64) (hpage : kEnd.toNat % 4096 + 188 ≤ 4096)
    (hbacked : ∀ b ∈ used, pageNumber b = pageNumber tryPage ∨
      pageNumber b = pageNumber kEnd.toNat →
        ∀ f, s.processorFrame b = some f → f.addr ∉ regionFrames region) :
    ((kernelInitMemory s m entries kEnd used).isSome ↔ ∀ b ∈ used,
      pageNumber b ≠ pageNumber tryPage ∧ pageNumber b ≠ pageNumber kEnd.toNat) ∧
    ∀ n h, kernelInitMemory s m entries kEnd used = some (n, h) → n = 10023 ∧
      Booted s m (add64 second.base.toNat s.offset.toNat) (regionFrames region).reverse kEnd h ∧
      ∀ b ∈ used, h.vmm.paging.processorFrame b = s.processorFrame b ∧
        ((∀ f, s.processorFrame b = some f → s.bytePtr f b ∉ s.pagingBytes (regionFrames region)) →
          SameCell s h.vmm.paging b) := by
  obtain ⟨tried, inited, h, hrun, hkeeps, hbooted⟩ :=
    kernelInitMemory_eq m used hregion hsecond hlist husable hready hplain hend hroom hpage
  have hsame : ∀ b ∈ used, (h.vmm.paging.processorFrame b = s.processorFrame b ↔
      pageNumber b ≠ pageNumber tryPage ∧ pageNumber b ≠ pageNumber kEnd.toNat) := fun b hb =>
    hbooted.pages.same_iff fun hin f hf hmem =>
      hbacked b hb hin f hf (List.mem_reverse.mp hmem)
  rw [hrun]
  constructor
  · rw [Option.isSome_ite]
    constructor
    · rintro ⟨-, -, hlast⟩ b hb
      exact (hsame b hb).mp (hlast b hb)
    · exact fun hout => ⟨fun b hb => (hkeeps b (hout b hb)).1, fun b hb => (hkeeps b (hout b hb)).2,
        fun b hb => (hsame b hb).mpr (hout b hb)⟩
  · intro n h' hsome
    obtain ⟨⟨-, -, hlast⟩, heq⟩ := Option.ite_none_right_eq_some.mp hsome
    cases heq
    refine ⟨rfl, hbooted, fun b hb => ⟨hlast b hb, fun hvalue => ?_⟩⟩
    refine hbooted.pages.sameCell hplain (hlast b hb) fun f hf hin => hvalue f hf ?_
    exact pagingBytes_subset rfl (fun _ => .inl) (fun x hx => List.mem_reverse.mp hx) hin

/-- A map with a usable region of 28672 pages behind a reserved one. -/
def smallMemmap : List MemmapEntry :=
  [⟨0x8000, 0x4000, 0⟩, ⟨0x9f000, 0x61000, 1⟩, ⟨0x100000, 0x7000000, 0⟩]

/-- The first page of the image in frame 0x6000. -/
def loadedRoot : PageState := (freshVmm.allocPage imageStart).2.paging

theorem loadedRoot_serves : loadedRoot.Ready ∧ loadedRoot.Plain ∧
    (∀ f, loadedRoot.IsTable f → f < 0x6000) ∧
      ∀ b f, loadedRoot.processorFrame b = some f → f.addr = 0x6000 := by
  have hstock : Stocked freshVmm.paging freshVmm.frameAlloc _ := freshVmm_stocked
  obtain ⟨t, htaken⟩ := allocPage_taken freshVmm_ready
    (by decide : imageStart ≠ 0) hstock
    (Nat.lt_of_le_of_lt (missingFor_le_three _ _) (by decide))
  have htree := htaken.served.step.tree
  have hplain : loadedRoot.Plain := freshVmm_plain.step htree.cr3 htaken.entries
  obtain ⟨new, hcreated, htables⟩ := htree.tables
  refine ⟨htaken.served.step.ready, hplain, fun f hf => ?_, fun b f hf => ?_⟩
  · have hnew : new = [0x3000, 0x4000, 0x5000] := by
      rw [← List.append_nil new]
      exact hcreated.symm.trans (by decide +kernel)
    obtain hold | hold := htables f hf
    · rw [Refines.isTable_of_zeroed zeroedRoot_entryAt hold]
      decide
    · have hlow : ∀ f ∈ [0x3000, 0x4000, 0x5000], f < 0x6000 := by decide
      exact hlow f (hnew ▸ hold)
  · have hzero : freshVmm.paging.translate b = none :=
      Option.map_eq_none_iff.mp ((Refines.of_zeroed (by decide) zeroedRoot_entryAt).translate b)
    rw [hplain.processorFrame_eq, loadedRoot, htaken.mapped, hzero] at hf
    split at hf
    · rw [← Option.some.inj hf]
      exact (Option.some.inj htaken.top).symm
    · cases hf

theorem smallMemmap_usable : FramesUsable loadedRoot ⟨0x100000, 0x7000000, 0⟩ where
  aligned := by decide
  ne_zero := by decide
  below := by decide
  spare := by
    intro f hf htable
    have hlow := loadedRoot_serves.2.2.1 f htable
    have hhigh : ∀ f ∈ regionFrames ⟨0x100000, 0x7000000, 0⟩, 0x6000 ≤ f := by decide
    exact absurd hlow (Nat.not_lt.mpr (hhigh f hf))

/-- An address in the first page of the image is lost with a `kEnd` in the middle of that page, and
kept with a `kEnd` in the middle of the next one. -/
theorem smallMemmap_boots :
    kernelInitMemory loadedRoot ⟨fun _ => 0⟩ smallMemmap 0xffffffff80000100 [imageStart] = none ∧
    ∃ h, kernelInitMemory loadedRoot ⟨fun _ => 0⟩ smallMemmap 0xffffffff80001100 [imageStart] =
        some (10023, h) ∧
      Booted loadedRoot ⟨fun _ => 0⟩ 0x9f000 (regionFrames ⟨0x100000, 0x7000000, 0⟩).reverse
        0xffffffff80001100 h ∧ SameCell loadedRoot h.vmm.paging imageStart := by
  have hframe : ∀ b f, loadedRoot.processorFrame b = some f → f.addr = 0x6000 :=
    loadedRoot_serves.2.2.2
  have hbacked : ∀ b f, loadedRoot.processorFrame b = some f →
      f.addr ∉ regionFrames ⟨0x100000, 0x7000000, 0⟩ := fun b f hf => by
    rw [hframe b f hf]
    decide
  constructor
  · obtain ⟨hreturns, -⟩ := @kernelInit_boots loadedRoot smallMemmap ⟨0x100000, 0x7000000, 0⟩
      ⟨0x9f000, 0x61000, 1⟩ 0xffffffff80000100 [imageStart] ⟨fun _ => 0⟩ (by decide) rfl (by decide)
      smallMemmap_usable loadedRoot_serves.1 loadedRoot_serves.2.1 (by decide) (by decide)
      (by decide) (fun b _ _ => hbacked b)
    rw [← Option.not_isSome_iff_eq_none, hreturns]
    decide
  · obtain ⟨hreturns, hresult⟩ := @kernelInit_boots loadedRoot smallMemmap
      ⟨0x100000, 0x7000000, 0⟩ ⟨0x9f000, 0x61000, 1⟩ 0xffffffff80001100 [imageStart] ⟨fun _ => 0⟩
      (by decide) rfl (by decide) smallMemmap_usable loadedRoot_serves.1 loadedRoot_serves.2.1
      (by decide) (by decide) (by decide) (fun b _ _ => hbacked b)
    obtain ⟨⟨n, h⟩, hrun⟩ := Option.isSome_iff_exists.mp (hreturns.mpr (by decide))
    obtain ⟨rfl, hbooted, hkept⟩ := hresult n h hrun
    refine ⟨h, hrun, hbooted, (hkept imageStart List.mem_cons_self).2 fun f hf => ?_⟩
    have hback : Backs loadedRoot (regionFrames ⟨0x100000, 0x7000000, 0⟩) f := by
      refine ⟨by rw [hframe _ f hf]; decide, fun htable => ?_, hbacked _ f hf⟩
      have hlow := loadedRoot_serves.2.2.1 _ htable
      rw [hframe _ f hf] at hlow
      exact Nat.lt_irrefl _ hlow
    exact hback.not_mem (bytePtr_mem_page _ _ _)

end Boot

end FroggyOs
