import FroggyOs.Library.FlatMemory
import FroggyOs.Paging.Contracts
import FroggyOs.Paging.Processor
import FroggyOs.Vmm.Conservation
import FroggyOs.Vmm.Release

/-!
# Virtual memory as flat memory

The pages that `alloc_page` and `mmap` have mapped behave like flat memory. A page is backed
by a frame of its own that is neither a table of the tree nor on the free-frame list
(`PagedInv`), and the calls write only to tables and to frames on the list
(`allocPage_bytes`), so they leave the bytes of mapped pages alone; a store through a mapped
page changes no table. What a call leaves in the pages that it maps is not said: the frame is
not cleared.

The accesses are the processor's, which walks the tables by itself and would stop at a large
page (`PageState.processorFrame`); the tree has none (`PageState.Plain`). The processor may go on
using a translation that it has cached. `paging.h` defines a function for `invlpg`, but nothing
calls it, so a page with a cached translation must not be mapped anew; this is the condition on
the calls of a run (`PagedStep`).

The free-frame list has a memory of its own in the model: its 96 bytes lie apart from the tables,
from the frames on it and from those behind mapped pages. The accesses are those through the pages
mapped in the run; an access through the direct map is none of them. The paging code reaches the
tables through the direct map, whose pages the calls of a run are taken to leave as they are.
-/

namespace FroggyOs

open ByteMemory Word64 RadixTree Loop64 Simulation FlatMemory

attribute [local irreducible] popFrameList mapToPage nextTable

/-! ## The bytes that the calls write -/

/-- The bytes of the tables of the tree and of the frames on the list. -/
def PageState.pagingBytes (s : PageState) (stack : List Nat) : Set Nat :=
  {x | ∃ u : Frame, (s.IsTable u.addr ∨ u.addr ∈ stack) ∧ x ∈ s.page u}

section Bytes

variable {s s' : PageState} {stack stack' : List Nat} {t : Frame} {list : Nat}

/-- The tables of `s'` come from those of `s` and from the list. -/
def TablesFrom (s s' : PageState) (stack : List Nat) : Prop :=
  ∀ a, s'.IsTable a → s.IsTable a ∨ a ∈ stack

theorem pagingBytes_subset (hoffset : s'.offset = s.offset) (htables : TablesFrom s s' stack)
    (hstack : stack' ⊆ stack) : s'.pagingBytes stack' ⊆ s.pagingBytes stack := by
  rintro x ⟨u, hu, hx⟩
  rw [page_congr hoffset] at hx
  obtain hu | hu := hu
  · exact ⟨u, htables u.addr hu, hx⟩
  · exact ⟨u, .inr (hstack hu), hx⟩

/-- The levels of `map_to_page` write to tables and to frames of the list. -/
theorem descend_bytes {path indices : List (Fin 512)} (hun : s.Unshared)
    (hlen : path.length + indices.length ≤ 3) (hwalk : s.walkFrom path = some t)
    (hstock : Stocked s list stack) (henough : tablesMissing s path indices ≤ stack.length) :
    WritesWithin s (descend s (s.physToVirt t.addr) list indices).2 (s.pagingBytes stack) ∧
      TablesFrom s (descend s (s.physToVirt t.addr) list indices).2 stack := by
  induction indices generalizing s path t stack with
  | nil => exact ⟨.refl rfl _, fun _ => .inl⟩
  | cons i rest ih =>
      simp only [List.length_cons] at hlen
      have hptr : s.physToVirt t.addr + 8 * i.val = s.entryPtr t i := rfl
      cases hnext : s.walkFrom (path ++ [i]) with
      | some t₁ =>
          rw [tablesMissing_cons_some hnext] at henough
          rw [descend, hptr, nextTable_of_some hwalk hnext]
          exact ih hun (by simp; omega) hnext hstock henough
      | none =>
          rw [tablesMissing_cons_none hnext] at henough
          obtain _ | ⟨frame, stack⟩ := stack
          · simp at henough
          have hgood := hstock.usable frame List.mem_cons_self
          obtain ⟨t₁, rfl⟩ : ∃ t₁ : Frame, t₁.addr = frame :=
            ⟨hgood.toFrame, hgood.toFrame_addr⟩
          have hpop := hstock.pop_cons.1
          obtain ⟨hlevel, hstock₁, -, hwalks⟩ := hstock.link hun (by omega) hwalk hnext
          have hlinks : Links s t i t₁ (linkTable s t i t₁ list) :=
            linkTable_links i hpop hgood.2.1
          rw [descend, hptr, nextTable_of_link hwalk hnext hgood.2.1 hpop]
          generalize linkTable s t i t₁ list = s₁ at *
          have hvirt : s.physToVirt t₁.addr = s₁.physToVirt t₁.addr :=
            (PageState.physToVirt_congr hlevel.step.offset _).symm
          have hwalk₁ : s₁.walkFrom (path ++ [i]) = some t₁ := by
            rw [hwalks _ (by simp; omega), if_pos rfl]
          have hcount := tablesMissing_linkTable hlen hwalks
          obtain ⟨hbytes, htables⟩ := ih hlevel.step.unshared (by simp; omega) hwalk₁ hstock₁
            (by rw [hcount]; simpa using henough)
          -- the new table is the frame taken
          have hlinked : TablesFrom s s₁ (t₁.addr :: stack) := by
            rintro a ⟨q, u, hq, hu, rfl⟩
            rw [hwalks q (by omega)] at hu
            split at hu
            · cases hu
              exact .inr List.mem_cons_self
            · exact .inl ⟨q, u, hq, hu, rfl⟩
          rw [hvirt]
          refine ⟨WritesWithin.trans (hlinks.within.mono ?_) (hbytes.mono ?_), fun a ha => ?_⟩
          · rintro x (hx | hx)
            · exact ⟨t, .inl ⟨path, t, by omega, hwalk, rfl⟩, entryBytes_subset_page s t i hx⟩
            · exact ⟨t₁, .inr List.mem_cons_self, hx⟩
          · exact pagingBytes_subset hlinks.offset hlinked (List.subset_cons_self _ _)
          · obtain ha | ha := htables a ha
            · exact hlinked a ha
            · exact .inr (List.mem_cons_of_mem _ ha)

/-- A call on a list with enough frames. The page's own frame is not written. -/
theorem allocPage_bytes {s : Vmm} {addr frame : Nat} {rest : List Nat} (h : s.paging.Ready)
    (haddr : addr ≠ 0) (hstock : Stocked s.paging s.frameAlloc (frame :: rest))
    (henough : missingFor s.paging addr ≤ rest.length) :
    WritesWithin s.paging (s.allocPage addr).2.paging (s.paging.pagingBytes rest) ∧
      TablesFrom s.paging (s.allocPage addr).2.paging rest := by
  have hgood := hstock.usable frame List.mem_cons_self
  obtain ⟨hframe, hpop⟩ := hstock.pop_cons
  have hready := h.step (Vmm.popped_step h).1
  have hwalk : s.popped.walkFrom [] = some s.popped.root := rfl
  have hstock' : Stocked s.popped s.frameAlloc rest := hpop
  rw [← Vmm.missingFor_popped] at henough
  have hdescend : DescendTakes s.popped _ _ _ _ (descendTo s.popped addr s.frameAlloc) :=
    descend_of_stocked hready.unshared (by simp) hwalk hstock' henough
  obtain ⟨hbytes, htables⟩ := descend_bytes hready.unshared (by simp) hwalk hstock' henough
  obtain ⟨-, -, -, hwalks⟩ := Vmm.allocPage_of_level h haddr hframe hgood.2.1
    hgood.toFrame.lt hdescend.level
  have hroot : StartsAtRoot s.popped 0 := startsAtRoot_of_aligned hready.aligned (.inl rfl)
  have hcall : mapToPage s.popped addr frame s.frameAlloc 0 = _ := mapToPage_eq hroot
  rw [if_neg hready.root] at hcall
  obtain ⟨virt, hvirt⟩ := Option.isSome_iff_exists.mp hdescend.found
  obtain ⟨t, rfl, ht⟩ := hdescend.level.table virt hvirt
  have hstep := hdescend.level.step
  rw [Vmm.allocPage_of_frame hframe hgood.2.1 haddr] at hwalks ⊢
  unfold descendTo at *
  rcases hresult : descend s.popped (s.popped.physToVirt s.popped.root.addr) s.frameAlloc
    [pgd addr, pud addr, pmd addr] with ⟨found, p⟩
  simp only [hresult] at hvirt ht hstep hbytes htables hcall hwalks
  subst hvirt
  rw [hcall] at hwalks ⊢
  have hptr : s.popped.physToVirt t.addr + 8 * (pt addr).val = p.entryPtr t (pt addr) := by
    rw [← PageState.physToVirt_congr hstep.offset]
    rfl
  simp only [hptr] at hwalks ⊢
  have hfrom : TablesFrom s.paging p rest := fun a ha => by
    refine (htables a ha).imp_left ?_
    rintro ⟨q, u, hq, hu, rfl⟩
    exact ⟨q, u, hq, by rw [← Vmm.walkFrom_popped, hu], rfl⟩
  have hoffset : p.offset = s.paging.offset := hstep.offset
  constructor
  · have htable : p.IsTable t.addr := ⟨_, t, by simp, ht, rfl⟩
    refine WritesWithin.trans (hbytes.mono ?_) ((writesWithin_writeEntry _ _ _).mono ?_)
    · refine pagingBytes_subset rfl ?_ (List.Subset.refl _)
      rintro a ⟨q, u, hq, hu, rfl⟩
      exact .inl ⟨q, u, hq, by rw [← Vmm.walkFrom_popped, hu], rfl⟩
    · intro x hx
      exact ⟨t, hfrom _ htable, page_congr hoffset t ▸ entryBytes_subset_page p t _ hx⟩
  · rintro a ⟨q, u, hq, hu, rfl⟩
    rw [hwalks q hq] at hu
    exact hfrom _ ⟨q, u, hq, hu, rfl⟩

/-- What the call stores in tables are links and the entry of the page. -/
theorem allocPage_entries {s : Vmm} {addr frame : Nat} {rest : List Nat} (h : s.paging.Ready)
    (haddr : addr ≠ 0) (hstock : Stocked s.paging s.frameAlloc (frame :: rest))
    (henough : missingFor s.paging addr ≤ rest.length) :
    EntriesFrom s.paging (s.allocPage addr).2.paging := by
  have hgood := hstock.usable frame List.mem_cons_self
  obtain ⟨hframe, hpop⟩ := hstock.pop_cons
  have hready := h.step (Vmm.popped_step h).1
  have hwalk : s.popped.walkFrom [] = some s.popped.root := rfl
  have hstock' : Stocked s.popped s.frameAlloc rest := hpop
  rw [← Vmm.missingFor_popped] at henough
  have hdescend : DescendTakes s.popped _ _ _ _ (descendTo s.popped addr s.frameAlloc) :=
    descend_of_stocked hready.unshared (by simp) hwalk hstock' henough
  have hpopped : EntriesFrom s.paging s.popped := .of_tables rfl rfl rfl
  have hentries := descend_entries hready.unshared (by simp) hwalk hstock' henough
  have hroot : StartsAtRoot s.popped 0 := startsAtRoot_of_aligned hready.aligned (.inl rfl)
  have hcall : mapToPage s.popped addr frame s.frameAlloc 0 = _ := mapToPage_eq hroot
  rw [if_neg hready.root] at hcall
  obtain ⟨virt, hvirt⟩ := Option.isSome_iff_exists.mp hdescend.found
  obtain ⟨t, rfl, ht⟩ := hdescend.level.table virt hvirt
  have hstep := hdescend.level.step
  rw [Vmm.allocPage_of_frame hframe hgood.2.1 haddr]
  unfold descendTo at *
  rcases hresult : descend s.popped (s.popped.physToVirt s.popped.root.addr) s.frameAlloc
    [pgd addr, pud addr, pmd addr] with ⟨found, p⟩
  simp only [hresult] at hvirt ht hstep hentries hcall
  subst hvirt
  rw [hcall]
  have hptr : s.popped.physToVirt t.addr + 8 * (pt addr).val = p.entryPtr t (pt addr) := by
    rw [← PageState.physToVirt_congr hstep.offset]
    rfl
  simp only [hptr]
  have hleaf := leafWrite_entries hstep.unshared (pt addr) rfl ht (.inr ⟨frame, hgood, rfl⟩)
  exact (hpopped.trans hentries).trans hleaf

end Bytes

/-! ## The pages of a run -/

/-- A frame that may back a page: it is neither null nor a table, and not on the list. -/
structure Backs (s : PageState) (stack : List Nat) (t : Frame) : Prop where
  ne_zero : t.addr ≠ 0
  table : ¬ s.IsTable t.addr
  spare : t.addr ∉ stack

/-- Each of the mapped pages is backed by a frame of its own. -/
structure PagedInv (s : PageState) (list : Nat) (mapped : Set Nat) (stack : List Nat) : Prop where
  ready : s.Ready
  plain : s.Plain
  stocked : Stocked s list stack
  backed : ∀ a, pageNumber a ∈ mapped → ∃ t, s.translate a = some t ∧ Backs s stack t
  apart : ∀ a b t, pageNumber a ∈ mapped → pageNumber b ∈ mapped → s.translate a = some t →
    s.translate b = some t → pageNumber a = pageNumber b

/-- The place of the byte that the address `a` refers to, in the frame behind its page. -/
def PageState.bytePtr (s : PageState) (t : Frame) (a : Nat) : Nat := s.physToVirt t.addr + a % 4096

/-- A load of one byte from the frame `t`. -/
def PageState.loadByte (s : PageState) (t : Frame) (a : Nat) : UInt8 :=
  s.tables.byte (s.bytePtr t a)

/-- A store of one byte to the frame `t`. -/
def PageState.storeByte (s : PageState) (t : Frame) (a : Nat) (x : UInt8) : PageState :=
  { s with tables := s.tables.fill (s.bytePtr t a) 1 x }

/-- The byte that the address `a` refers to by the tables. -/
def PageState.byteAt (s : PageState) (a : Nat) : Option UInt8 :=
  (s.translate a).map fun t => s.loadByte t a

section PagedInv

variable {s s' : PageState} {stack stack' : List Nat} {t u : Frame} {list a b page : Nat}
  {mapped : Set Nat} {x : UInt8}

theorem bytePtr_mem_page (s : PageState) (t : Frame) (a : Nat) : s.bytePtr t a ∈ s.page t :=
  ⟨Nat.le_add_right _ _, Nat.add_lt_add_left (Nat.mod_lt _ (by decide)) _⟩

/-- A frame that backs a page lies outside of what the calls write. -/
theorem Backs.not_mem (h : Backs s stack t) {y : Nat} (hy : y ∈ s.page t) :
    y ∉ s.pagingBytes stack := by
  rintro ⟨u, hu, hin⟩
  by_cases htu : u = t
  · obtain hu | hu := htu ▸ hu
    · exact h.table hu
    · exact h.spare hu
  · exact not_mem_page htu hy hin

theorem Backs.mono (h : Backs s stack t) (htables : TablesFrom s s' stack)
    (hstack : stack' ⊆ stack) : Backs s' stack' t where
  ne_zero := h.ne_zero
  table hs' := (htables _ hs').elim h.table h.spare
  spare hmem := h.spare (hstack hmem)

/-- The address is still mapped to the same frame, and holds the same byte. -/
structure SameCell (s s' : PageState) (a : Nat) : Prop where
  translate : s'.translate a = s.translate a
  byteAt : s'.byteAt a = s.byteAt a

theorem SameCell.trans {s'' : PageState} (h : SameCell s s' a) (h' : SameCell s' s'' a) :
    SameCell s s'' a :=
  ⟨h'.translate.trans h.translate, h'.byteAt.trans h.byteAt⟩

/-- A page whose translation is kept keeps its bytes if its frame is not written. -/
theorem sameCell_of_within {A : Set Nat} (h : WritesWithin s s' A) (hoffset : s'.offset = s.offset)
    (hsame : s'.translate a = s.translate a)
    (hout : ∀ t, s.translate a = some t → s.bytePtr t a ∉ A) : SameCell s s' a := by
  refine ⟨hsame, ?_⟩
  rw [PageState.byteAt, PageState.byteAt, hsame]
  refine Option.map_congr fun t ht => ?_
  rw [PageState.loadByte, PageState.bytePtr, PageState.physToVirt_congr hoffset]
  exact h (hout t ht)

/-- The translation depends on the page only. -/
theorem translate_congr (s : PageState) (h : pageNumber a = pageNumber b) :
    s.translate a = s.translate b := by
  rw [PageState.translate, PageState.translate, pagePath_eq_iff.mpr h]

/-- A visit maps its page to the next frame on the list, and leaves the bytes of the other
pages alone. -/
theorem PagedInv.visitPage {v : Vmm} {frame : Nat} {rest : List Nat}
    (h : PagedInv v.paging v.frameAlloc mapped (frame :: rest)) (hpage : page ≠ 0)
    (hmissing : missingFor v.paging page ≤ rest.length) :
    PagedInv (v.visitPage page).paging (v.visitPage page).frameAlloc
        (insert (pageNumber page) mapped) (rest.drop (missingFor v.paging page)) ∧
      ∀ a, pageNumber a ∈ mapped → pageNumber a ≠ pageNumber page →
        SameCell v.paging (v.visitPage page).paging a := by
  have hserved := Vmm.allocPage_of_stocked h.ready hpage h.stocked hmissing
  obtain ⟨hbytes, htables⟩ := allocPage_bytes h.ready hpage h.stocked hmissing
  have hframe := h.stocked.usable frame List.mem_cons_self
  obtain ⟨hnot, -⟩ := List.nodup_cons.mp h.stocked.nodup
  have hdecode : decodeEntry (encodeEntry frame) = some hframe.toFrame :=
    decodeEntry_encodeEntry hframe.toFrame hframe.2.2
  have htranslate := hserved.mapped
  rw [hdecode] at htranslate
  have hdrop : rest.drop (missingFor v.paging page) ⊆ rest := List.drop_subset _ _
  -- the frames of the pages mapped before, and the new one
  have hold : ∀ t, Backs v.paging (frame :: rest) t → Backs v.paging rest t := fun t ht =>
    ⟨ht.ne_zero, ht.table, fun hmem => ht.spare (List.mem_cons_of_mem _ hmem)⟩
  have hnew : Backs v.paging rest hframe.toFrame :=
    ⟨hframe.2.1, h.stocked.spare frame List.mem_cons_self, hnot⟩
  constructor
  · constructor
    case ready => exact hserved.step.ready
    case plain =>
      exact h.plain.step hserved.step.tree.cr3 (allocPage_entries h.ready hpage h.stocked hmissing)
    case stocked => exact hserved.stocked
    case backed =>
      intro a ha
      rw [Vmm.visitPage, htranslate a]
      split
      case isTrue => exact ⟨_, rfl, hnew.mono htables hdrop⟩
      case isFalse hne =>
        obtain ⟨t, ht, hbacks⟩ := h.backed a (ha.resolve_left hne)
        exact ⟨t, ht, (hold t hbacks).mono htables hdrop⟩
    case apart =>
      intro a b t ha hb hta htb
      rw [Vmm.visitPage, htranslate] at hta htb
      have hother : ∀ c, pageNumber c ∈ mapped → v.paging.translate c ≠ some hframe.toFrame := by
        intro c hc heq
        obtain ⟨u, hu, hbacks⟩ := h.backed c hc
        obtain rfl := Option.some.inj (hu.symm.trans heq)
        exact hbacks.spare List.mem_cons_self
      split at hta <;> split at htb
      case isTrue.isTrue hpa hpb => exact hpa.trans hpb.symm
      case isTrue.isFalse hpa hpb =>
        exact absurd (htb.trans hta.symm) (hother b (hb.resolve_left hpb))
      case isFalse.isTrue hpa hpb =>
        exact absurd (hta.trans htb.symm) (hother a (ha.resolve_left hpa))
      case isFalse.isFalse hpa hpb =>
        exact h.apart a b t (ha.resolve_left hpa) (hb.resolve_left hpb) hta htb
  · intro a ha hne
    obtain ⟨t, ht, hbacks⟩ := h.backed a ha
    refine sameCell_of_within hbytes hserved.step.tree.offset ?_ fun u hu => ?_
    · rw [Vmm.visitPage, htranslate a, if_neg hne]
    · obtain rfl := Option.some.inj (ht.symm.trans hu)
      exact (hold t hbacks).not_mem (bytePtr_mem_page _ t a)

/-- The pages of one call. -/
theorem PagedInv.foldl_visitPage {v : Vmm} {pages : List Nat}
    (h : PagedInv v.paging v.frameAlloc mapped stack) (hpages : ∀ page ∈ pages, page ≠ 0)
    (henough : framesNeeded v.paging pages ≤ stack.length) :
    ∃ stack', PagedInv (pages.foldl Vmm.visitPage v).paging
        (pages.foldl Vmm.visitPage v).frameAlloc (mapped ∪ {n | n ∈ pages.map pageNumber}) stack' ∧
      ∀ a, pageNumber a ∈ mapped → pageNumber a ∉ pages.map pageNumber →
        SameCell v.paging (pages.foldl Vmm.visitPage v).paging a := by
  induction pages generalizing v mapped stack with
  | nil => exact ⟨stack, by simpa using h, fun _ _ _ => ⟨rfl, rfl⟩⟩
  | cons page pages ih =>
      have hpage := hpages page List.mem_cons_self
      have hfirst := framesNeeded_prefix_le v.paging [page] pages
      rw [List.singleton_append, framesNeeded_singleton] at hfirst
      obtain _ | ⟨frame, rest⟩ := stack
      · exact absurd (Nat.le_trans hfirst henough) (by simp)
      rw [List.length_cons] at henough
      have hmissing : missingFor v.paging page ≤ rest.length := by omega
      obtain ⟨hvisit, hsame⟩ := h.visitPage hpage hmissing
      have hserved := Vmm.allocPage_of_stocked h.ready hpage h.stocked hmissing
      have hneeded := framesNeeded_cons hserved.tables pages
      rw [framesNeeded_singleton] at hneeded
      have hrest : framesNeeded (v.visitPage page).paging pages ≤
          (rest.drop (missingFor v.paging page)).length := by
        rw [List.length_drop, Vmm.visitPage]
        omega
      obtain ⟨stack', hinv, hbytes⟩ :=
        ih hvisit (fun p hp => hpages p (List.mem_cons_of_mem _ hp)) hrest
      refine ⟨stack', ?_, fun a ha hnot => ?_⟩
      · rw [List.foldl_cons]
        convert hinv using 1
        ext n
        simp [or_assoc, or_left_comm]
      · rw [List.map_cons, List.mem_cons, not_or] at hnot
        exact (hsame a ha hnot.1).trans (hbytes a (Set.mem_insert_of_mem _ ha) hnot.2)

/-- `unmap_page` clears one entry of a table, so no table is added. -/
theorem unmapPage_bytes (s : PageState) (page : Nat) (hstep : TreeStep s (unmapPage s page).2) :
    WritesWithin s (unmapPage s page).2 (s.pagingBytes []) ∧
      TablesFrom s (unmapPage s page).2 [] := by
  obtain ⟨new, hcreated, htables⟩ := hstep.tables
  obtain ⟨-, hsame, -⟩ | ⟨-, hsame⟩ := unmapPage_writes s page
  · rw [hsame] at hcreated htables ⊢
    obtain rfl : new = [] := List.append_cancel_right hcreated.symm
    refine ⟨(writesWithin_writeEntry _ _ _).mono fun x hx => ?_, htables⟩
    obtain ⟨q, hlen, hq⟩ := lastEntry_reached s (pt page) s.root [pgd page, pud page, pmd page]
    have htable : s.IsTable (s.lastEntryFor page).1.addr :=
      ⟨q, _, Nat.lt_succ_of_le hlen, hq, rfl⟩
    exact ⟨_, .inl htable, entryBytes_subset_page s _ _ hx⟩
  · rw [hsame]
    exact ⟨.refl rfl _, fun _ => .inl⟩

/-- A pass of `munmap` clears the entry of a page, unless it holds frame 0. The bytes of the
other pages stay as they are. -/
theorem PagedInv.freePage {v : Vmm} (h : PagedInv v.paging v.frameAlloc mapped stack)
    (page : Nat) : PagedInv (v.freePage page).paging (v.freePage page).frameAlloc
        (mapped \ {pageNumber page}) stack ∧
      ∀ a, pageNumber a ∈ mapped → pageNumber a ≠ pageNumber page →
        SameCell v.paging (v.freePage page).paging a := by
  have hpaging : (v.freePage page).paging = (unmapPage v.paging page).2 := by
    rw [Vmm.freePage, unmapPage_fst]
    rfl
  have hlist : (v.freePage page).frameAlloc = v.frameAlloc := (freePage_frames v page).2
  have hframes : (unmapPage v.paging page).2.frames = v.paging.frames :=
    hpaging ▸ (freePage_frames v page).1
  rw [hpaging, hlist]
  by_cases hwrites : UnmapWrites v.paging page
  case neg =>
    -- nothing is written
    obtain ⟨hyes, -⟩ | ⟨-, hsame⟩ := unmapPage_writes v.paging page
    · exact absurd hyes hwrites
    rw [hsame]
    exact ⟨⟨h.ready, h.plain, h.stocked, fun a ha => h.backed a ha.1,
      fun a b t ha hb => h.apart a b t ha.1 hb.1⟩, fun _ _ _ => ⟨rfl, rfl⟩⟩
  case pos =>
    obtain ⟨t, ht, hne⟩ := hwrites
    have hspec : TreeStep v.paging (unmapPage v.paging page).2 ∧ _ :=
      unmapPage_spec h.ready.unshared fun u hu => by
        obtain rfl := Option.some.inj (ht.symm.trans hu)
        exact hne
    obtain ⟨hstep, htranslate⟩ := hspec
    obtain ⟨hbytes, htables⟩ := unmapPage_bytes v.paging page hstep
    have hkept : ∀ u, Backs v.paging stack u → Backs (unmapPage v.paging page).2 stack u :=
      fun u hu => hu.mono (fun a ha => .inl ((htables a ha).resolve_right (by simp)))
        (List.Subset.refl _)
    constructor
    · constructor
      case ready => exact h.ready.step hstep
      case plain => exact h.plain.step hstep.cr3 (unmapPage_entries h.ready.unshared page)
      case stocked =>
        refine ⟨hframes ▸ h.stocked.rep, h.stocked.nodup, h.stocked.usable, fun a ha hs' => ?_⟩
        exact h.stocked.spare a ha ((htables a hs').resolve_right (by simp))
      case backed =>
        rintro a ⟨ha, hnot⟩
        have hpage : pageNumber a ≠ pageNumber page := hnot
        obtain ⟨u, hu, hbacks⟩ := h.backed a ha
        exact ⟨u, by rw [htranslate a, if_neg hpage, hu], hkept u hbacks⟩
      case apart =>
        rintro a b u ⟨ha, hnota⟩ ⟨hb, hnotb⟩ hua hub
        have hpa : pageNumber a ≠ pageNumber page := hnota
        have hpb : pageNumber b ≠ pageNumber page := hnotb
        rw [htranslate a, if_neg hpa] at hua
        rw [htranslate b, if_neg hpb] at hub
        exact h.apart a b u ha hb hua hub
    · intro a ha hpage
      refine sameCell_of_within hbytes hstep.offset ?_ fun u hu => ?_
      · rw [htranslate a, if_neg hpage]
      · obtain ⟨u', hu', hbacks⟩ := h.backed a ha
        obtain rfl := Option.some.inj (hu.symm.trans hu')
        have hnone : Backs v.paging [] u := ⟨hbacks.ne_zero, hbacks.table, by simp⟩
        exact hnone.not_mem (bytePtr_mem_page _ u a)

/-- The pages of one call of `munmap`. -/
theorem PagedInv.foldl_freePage {v : Vmm} (h : PagedInv v.paging v.frameAlloc mapped stack)
    (pages : List Nat) : PagedInv (pages.foldl Vmm.freePage v).paging
        (pages.foldl Vmm.freePage v).frameAlloc (mapped \ {n | n ∈ pages.map pageNumber}) stack ∧
      ∀ a, pageNumber a ∈ mapped → pageNumber a ∉ pages.map pageNumber →
        SameCell v.paging (pages.foldl Vmm.freePage v).paging a := by
  induction pages generalizing v mapped with
  | nil => exact ⟨by simpa using h, fun _ _ _ => ⟨rfl, rfl⟩⟩
  | cons page pages ih =>
      obtain ⟨hfree, hsame⟩ := h.freePage page
      obtain ⟨hinv, hbytes⟩ := ih hfree
      refine ⟨?_, fun a ha hnot => ?_⟩
      · rw [List.foldl_cons]
        convert hinv using 1
        ext n
        simp [and_assoc]
      · rw [List.map_cons, List.mem_cons, not_or] at hnot
        exact (hsame a ha hnot.1).trans (hbytes a ⟨ha, hnot.1⟩ hnot.2)

/-! ## Accesses -/

/-- A walk reads tables only. -/
theorem walkFrom_of_within {A : Set Nat} (h : WritesWithin s s' A) (hoffset : s'.offset = s.offset)
    (hcr3 : s'.cr3 = s.cr3) (hout : ∀ u : Frame, s.IsTable u.addr → ∀ y ∈ s.page u, y ∉ A)
    {q : List (Fin 512)} (hq : q.length ≤ 4) : s'.walkFrom q = s.walkFrom q := by
  induction q using List.reverseRecOn with
  | nil => exact congrArg some (PageState.root_congr hcr3)
  | append_singleton q i ih =>
      rw [List.length_append, List.length_singleton] at hq
      rw [PageState.walkFrom_snoc, PageState.walkFrom_snoc, ih (by omega)]
      refine Option.bind_congr fun u hu => ?_
      have htable : s.IsTable u.addr := ⟨q, u, by omega, hu, rfl⟩
      rw [h.entryAt hoffset fun y hy => hout u htable y (entryBytes_subset_page s u i hy)]

/-- A store to a mapped page changes its byte and no other one. -/
theorem PagedInv.storeByte (h : PagedInv s list mapped stack) (ha : pageNumber a ∈ mapped)
    (ht : s.translate a = some t) : PagedInv (s.storeByte t a x) list mapped stack ∧
      (s.storeByte t a x).translate = s.translate ∧ (s.storeByte t a x).byteAt a = some x ∧
      ∀ b, pageNumber b ∈ mapped → b % 2 ^ 48 ≠ a % 2 ^ 48 →
        (s.storeByte t a x).byteAt b = s.byteAt b := by
  obtain ⟨u, hu, hbacks⟩ := h.backed a ha
  obtain rfl := Option.some.inj (ht.symm.trans hu)
  generalize hstore : s.storeByte t a x = s'
  rw [PageState.storeByte] at hstore
  have hwithin : WritesWithin s s' (Mem.range (s.bytePtr t a) 1) := by
    intro y hy
    rw [← hstore]
    refine Mem.fill_byte_outside ?_
    by_contra hin
    exact hy ⟨by omega, by omega⟩
  have hoffset : s'.offset = s.offset := by rw [← hstore]
  have hcr3 : s'.cr3 = s.cr3 := by rw [← hstore]
  have hframes : s'.frames = s.frames := by rw [← hstore]
  have hpage : Mem.range (s.bytePtr t a) 1 ⊆ s.page t := by
    rintro y ⟨hlow, hhigh⟩
    obtain rfl : y = s.bytePtr t a := by omega
    exact bytePtr_mem_page s t a
  have hwalks : ∀ q : List (Fin 512), q.length ≤ 4 → s'.walkFrom q = s.walkFrom q := fun q hq =>
    walkFrom_of_within hwithin hoffset hcr3 (fun u hu y hy hin => by
      have hne : t ≠ u := fun heq => hbacks.table (heq ▸ hu)
      exact not_mem_page hne hy (hpage hin)) hq
  have htranslate : ∀ b, s'.translate b = s.translate b := fun b => hwalks _ (by simp [pagePath])
  have htables : TablesFrom s s' [] := by
    rintro c ⟨q, u, hq, hu, rfl⟩
    rw [hwalks q (by omega)] at hu
    exact .inl ⟨q, u, hq, hu, rfl⟩
  refine ⟨?_, funext htranslate, ?_, fun b hb hne => ?_⟩
  · constructor
    case ready =>
      refine ⟨by rw [hcr3]; exact h.ready.aligned, ?_, ?_⟩
      · rw [PageState.physToVirt_congr hoffset, PageState.root_congr hcr3]
        exact h.ready.root
      · intro p q u hp hq hup huq
        have hwp := hwalks p (by omega)
        have hwq := hwalks q (by omega)
        exact h.ready.unshared p q u hp hq (hwp.symm.trans hup) (hwq.symm.trans huq)
    case plain =>
      refine h.plain.step hcr3 (.of_same (fun q hq => hwalks q (Nat.le_of_lt hq)) ?_)
      intro q u i hq hu
      have htable : s.IsTable u.addr := ⟨q, u, hq, hu, rfl⟩
      have hne : t ≠ u := fun heq => hbacks.table (heq ▸ htable)
      refine hwithin.entryAt hoffset fun y hy hin => ?_
      exact not_mem_page hne (entryBytes_subset_page s u i hy) (hpage hin)
    case stocked => exact h.stocked.congr hframes fun q hq => hwalks q (by omega)
    case backed =>
      intro b hb
      obtain ⟨u, hu, hback⟩ := h.backed b hb
      exact ⟨u, by rw [htranslate, hu],
        hback.mono (fun c hc => .inl ((htables c hc).resolve_right (by simp)))
          (List.Subset.refl _)⟩
    case apart =>
      intro b c u hb hc hub huc
      rw [htranslate] at hub huc
      exact h.apart b c u hb hc hub huc
  · rw [PageState.byteAt, htranslate, ht, Option.map_some, PageState.loadByte, PageState.bytePtr,
      PageState.physToVirt_congr hoffset, ← hstore]
    exact congrArg some (Mem.fill_byte_inside (Nat.le_refl _) (Nat.lt_succ_self _))
  · refine (sameCell_of_within hwithin hoffset (htranslate b) fun u hu hin => hne ?_).byteAt
    -- one frame backs one page, and the offset within it is the address's own
    by_cases htu : u = t
    · have hpages := h.apart b a t hb ha (htu ▸ hu) ht
      have hbyte : s.bytePtr u b = s.bytePtr t a := by
        obtain ⟨hlow, hhigh⟩ := hin
        omega
      simp only [PageState.bytePtr, htu, pageNumber] at hbyte hpages
      omega
    · exact absurd (hpage hin) (not_mem_page (Ne.symm htu) (bytePtr_mem_page s u b))

end PagedInv

/-! ## Runs -/

/-- The memory manager, the numbers of the pages that its calls have mapped, and the
translations that the processor has cached. -/
structure PagedState where
  vmm : Vmm
  mapped : Set Nat
  tlb : Nat → Option Frame

/-- The frame that an access goes to; a cached translation is taken before the tables. -/
def PagedState.frameFor (s : PagedState) (a : Nat) : Option Frame :=
  (s.tlb (pageNumber a)).or (s.vmm.paging.processorFrame a)

/-- The addresses in the given pages. An address has 48 bits that are translated. -/
def pageAddrs (pages : List Nat) : Set Nat :=
  {a | a < 2 ^ 48 ∧ pageNumber a ∈ pages.map pageNumber}

/-- The processor caches the translation of any page that is mapped, at any time, and drops it at
any time. The calls drop none, so they must not map a page whose old translation is
cached; they run as long as the frame list lasts. Accesses are to the pages they have mapped. -/
inductive PagedStep (s : PagedState) : Option (Event Nat UInt8) → PagedState → Prop
  | fill {a : Nat} {t : Frame} (ht : s.vmm.paging.processorFrame a = some t) :
      PagedStep s none { s with tlb := Function.update s.tlb (pageNumber a) (some t) }
  | evict (n : Nat) : PagedStep s none { s with tlb := Function.update s.tlb n none }
  | call {c : VmmCall} {v : Vmm} (hvalid : c.Valid) (hlasts : Lasts s.vmm (c.pages s.vmm))
      (hcold : ∀ page ∈ c.pages s.vmm, s.tlb (pageNumber page) = none)
      (hcall : c.run s.vmm = some v) :
      PagedStep s (some (.map (pageAddrs (c.pages s.vmm))))
        { s with vmm := v, mapped := s.mapped ∪ {n | n ∈ (c.pages s.vmm).map pageNumber} }
  | munmap {ptr size : Nat} {v : Vmm} (hptr : ptr < 2 ^ 64) (hsize : size < 2 ^ 64)
      (hcall : s.vmm.munmap ptr size = some v) :
      PagedStep s (some (.unmap (pageAddrs (visitedPages ptr size))))
        { s with vmm := v, mapped := s.mapped \ {n | n ∈ (visitedPages ptr size).map pageNumber} }
  | write {a : Nat} {x : UInt8} {t : Frame} (hmapped : pageNumber a ∈ s.mapped)
      (ht : s.frameFor a = some t) :
      PagedStep s (some (.write (a % 2 ^ 48) x))
        { s with vmm.paging := s.vmm.paging.storeByte t a x }
  | read {a : Nat} {t : Frame} (hmapped : pageNumber a ∈ s.mapped) (ht : s.frameFor a = some t) :
      PagedStep s (some (.read (a % 2 ^ 48) (s.vmm.paging.loadByte t a))) s

/-- The run starts with no page mapped by it. -/
def pagedMemory (v : Vmm) : System PagedState (Event Nat UInt8) where
  start s := s.vmm = v ∧ s.mapped = ∅
  step := PagedStep

namespace PagedState

open Classical in
/-- What an access to a page of the run finds. -/
noncomputable def cells (s : PagedState) : Cells Nat UInt8 := fun a =>
  if a < 2 ^ 48 ∧ pageNumber a ∈ s.mapped then s.vmm.paging.byteAt a else none

/-- Every page of the run is backed by a frame of its own, which is no table and not free, and
which every access to the page goes to. -/
structure Isolated (s : PagedState) : Prop where
  inv : ∃ stack, PagedInv s.vmm.paging s.vmm.frameAlloc s.mapped stack
  coherent : ∀ a, pageNumber a ∈ s.mapped → s.frameFor a = s.vmm.paging.translate a

end PagedState

section Runs

variable {s s' : PagedState} {a : Nat} {x y : UInt8} {pages : List Nat}

theorem pageNumber_mod (a : Nat) : pageNumber (a % 2 ^ 48) = pageNumber a := by
  simp only [pageNumber]
  omega

theorem byteAt_mod (s : PageState) (a : Nat) : s.byteAt (a % 2 ^ 48) = s.byteAt a := by
  have hoffset : a % 2 ^ 48 % 4096 = a % 4096 := by omega
  rw [PageState.byteAt, PageState.byteAt, translate_congr s (pageNumber_mod a)]
  simp only [PageState.loadByte, PageState.bytePtr, hoffset]

namespace PagedState

theorem cells_of_mapped (ha : pageNumber a ∈ s.mapped) :
    s.cells (a % 2 ^ 48) = s.vmm.paging.byteAt a := by
  have hlt : a % 2 ^ 48 < 2 ^ 48 := Nat.mod_lt _ (by decide)
  rw [cells, if_pos ⟨hlt, by rwa [pageNumber_mod]⟩, byteAt_mod]

theorem frameFor_of_cold {p : PagedState} (hplain : p.vmm.paging.Plain)
    (h : p.tlb (pageNumber a) = none) : p.frameFor a = p.vmm.paging.translate a := by
  rw [frameFor, h, Option.none_or, hplain.processorFrame_eq]

/-- The translation of an address is the one that was cached, or was not cached. -/
theorem frameFor_congr (hplain : s.vmm.paging.Plain) (hplain' : s'.vmm.paging.Plain)
    (htlb : s'.tlb (pageNumber a) = s.tlb (pageNumber a))
    (hsame : s'.vmm.paging.translate a = s.vmm.paging.translate a) :
    s'.frameFor a = s.frameFor a := by
  rw [frameFor, frameFor, htlb, hplain'.processorFrame_eq, hsame, hplain.processorFrame_eq]

theorem Isolated.plain (h : s.Isolated) : s.vmm.paging.Plain := by
  obtain ⟨stack, hinv⟩ := h.inv
  exact hinv.plain

/-- An access to a page of the run goes to the frame that the tables name. -/
theorem Isolated.found (h : s.Isolated) (ha : pageNumber a ∈ s.mapped) :
    ∃ t, s.frameFor a = some t ∧ s.vmm.paging.translate a = some t := by
  obtain ⟨stack, hinv⟩ := h.inv
  obtain ⟨t, ht, -⟩ := hinv.backed a ha
  exact ⟨t, (h.coherent a ha).trans ht, ht⟩

theorem Isolated.isSome (h : s.Isolated) (ha : pageNumber a ∈ s.mapped) :
    (s.vmm.paging.byteAt a).isSome := by
  obtain ⟨t, -, ht⟩ := h.found ha
  rw [PageState.byteAt, ht]
  rfl

/-- Outside of the given pages nothing changes, neither what is mapped nor what is found. -/
theorem cells_of_not_mem
    (hmapped : ∀ a, pageNumber a ∉ pages.map pageNumber →
      (pageNumber a ∈ s'.mapped ↔ pageNumber a ∈ s.mapped))
    (hbytes : ∀ a, pageNumber a ∈ s.mapped → pageNumber a ∉ pages.map pageNumber →
      SameCell s.vmm.paging s'.vmm.paging a) :
    ∀ a ∉ pageAddrs pages, s'.cells a = s.cells a := by
  intro a ha
  rw [cells, cells]
  by_cases hlt : a < 2 ^ 48
  case neg => rw [if_neg fun h => hlt h.1, if_neg fun h => hlt h.1]
  case pos =>
    have hnot : pageNumber a ∉ pages.map pageNumber := fun hmem => ha ⟨hlt, hmem⟩
    by_cases hin : pageNumber a ∈ s.mapped
    · rw [if_pos ⟨hlt, (hmapped a hnot).mpr hin⟩, if_pos ⟨hlt, hin⟩, (hbytes a hin hnot).byteAt]
    · rw [if_neg fun h => hin ((hmapped a hnot).mp h.2), if_neg fun h => hin h.2]

/-- What the processor caches or drops is not seen. -/
theorem Isolated.cache (h : s.Isolated) {tlb : Nat → Option Frame}
    (hsame : ∀ a, pageNumber a ∈ s.mapped →
      PagedState.frameFor { s with tlb } a = s.frameFor a) :
    Isolated { s with tlb } :=
  ⟨h.inv, fun a ha => (hsame a ha).trans (h.coherent a ha)⟩

/-- Pages with no cached translation are mapped. -/
theorem Isolated.mapPages (h : s.Isolated) {w : Vmm} {stack : List Nat}
    (hinv : PagedInv w.paging w.frameAlloc (s.mapped ∪ {n | n ∈ pages.map pageNumber}) stack)
    (hsame : ∀ a, pageNumber a ∈ s.mapped → pageNumber a ∉ pages.map pageNumber →
      SameCell s.vmm.paging w.paging a)
    (hcold : ∀ page ∈ pages, s.tlb (pageNumber page) = none)
    (hnext : s' = ⟨w, s.mapped ∪ {n | n ∈ pages.map pageNumber}, s.tlb⟩) :
    s'.Isolated ∧ FlatMemory.Step s.cells (.map (pageAddrs pages)) s'.cells := by
  have hmapped : ∀ {a}, pageNumber a ∈ s'.mapped ↔
      pageNumber a ∈ s.mapped ∨ pageNumber a ∈ pages.map pageNumber := by
    intro a
    rw [hnext]
    exact Iff.rfl
  have hvmm : s'.vmm = w := by rw [hnext]
  have htlb : s'.tlb = s.tlb := by rw [hnext]
  have hplain : s'.vmm.paging.Plain := by
    rw [hvmm]
    exact hinv.plain
  have hisolated : s'.Isolated := by
    refine ⟨⟨stack, by rw [hnext]; exact hinv⟩, fun a ha => ?_⟩
    rw [hmapped] at ha
    by_cases hvisited : pageNumber a ∈ pages.map pageNumber
    · obtain ⟨page, hpage, heq⟩ := List.mem_map.mp hvisited
      refine frameFor_of_cold hplain ?_
      rw [htlb, ← heq]
      exact hcold page hpage
    · have hold := ha.resolve_right hvisited
      have htranslate := (hsame a hold hvisited).translate
      rw [← hvmm] at htranslate
      rw [frameFor_congr h.plain hplain (congrFun htlb _) htranslate, h.coherent a hold, htranslate]
  have hothers : ∀ a ∉ pageAddrs pages, s'.cells a = s.cells a := by
    apply cells_of_not_mem
    · intro a hnot
      rw [hmapped, or_iff_left hnot]
    · intro a hin hnot
      rw [hnext]
      exact hsame a hin hnot
  refine ⟨hisolated, .map (fun a ha => ?_) hothers⟩
  have hnew := hmapped.mpr (.inr ha.2)
  rw [cells, if_pos ⟨ha.1, hnew⟩]
  exact hisolated.isSome hnew

/-- Pages are unmapped; what is cached of them stays and is not used. -/
theorem Isolated.unmapPages (h : s.Isolated) {w : Vmm} {stack : List Nat}
    (hinv : PagedInv w.paging w.frameAlloc (s.mapped \ {n | n ∈ pages.map pageNumber}) stack)
    (hsame : ∀ a, pageNumber a ∈ s.mapped → pageNumber a ∉ pages.map pageNumber →
      SameCell s.vmm.paging w.paging a)
    (hnext : s' = ⟨w, s.mapped \ {n | n ∈ pages.map pageNumber}, s.tlb⟩) :
    s'.Isolated ∧ FlatMemory.Step s.cells (.unmap (pageAddrs pages)) s'.cells := by
  have hmapped : ∀ {a}, pageNumber a ∈ s'.mapped ↔
      pageNumber a ∈ s.mapped ∧ pageNumber a ∉ pages.map pageNumber := by
    intro a
    rw [hnext]
    exact Iff.rfl
  have hvmm : s'.vmm = w := by rw [hnext]
  have htlb : s'.tlb = s.tlb := by rw [hnext]
  have hothers : ∀ a ∉ pageAddrs pages, s'.cells a = s.cells a := by
    apply cells_of_not_mem
    · intro a hnot
      rw [hmapped, and_iff_left hnot]
    · intro a hin hnot
      rw [hnext]
      exact hsame a hin hnot
  have hplain : s'.vmm.paging.Plain := by
    rw [hvmm]
    exact hinv.plain
  refine ⟨⟨⟨stack, by rw [hnext]; exact hinv⟩, fun a ha => ?_⟩, .unmap (fun a ha => ?_) hothers⟩
  · obtain ⟨hold, hnot⟩ := hmapped.mp ha
    have htranslate := (hsame a hold hnot).translate
    rw [← hvmm] at htranslate
    rw [frameFor_congr h.plain hplain (congrFun htlb _) htranslate, h.coherent a hold, htranslate]
  · rw [cells, if_neg fun hand => (hmapped.mp hand.2).2 ha.2]

/-- A byte of a page of the run is stored. -/
theorem Isolated.store (h : s.Isolated) (hmapped : pageNumber a ∈ s.mapped) {t : Frame}
    (ht : s.vmm.paging.translate a = some t)
    (hnext : s' = { s with vmm.paging := s.vmm.paging.storeByte t a x }) :
    s'.Isolated ∧ FlatMemory.Step s.cells (.write (a % 2 ^ 48) x) s'.cells := by
  obtain ⟨stack, hinv⟩ := h.inv
  obtain ⟨hnew, htranslate, hself, hothers⟩ := hinv.storeByte (x := x) hmapped ht
  have hpages : s'.mapped = s.mapped := by rw [hnext]
  have hpaging : s'.vmm.paging = s.vmm.paging.storeByte t a x := by rw [hnext]
  have hlist : s'.vmm.frameAlloc = s.vmm.frameAlloc := by rw [hnext]
  have htlb : s'.tlb = s.tlb := by rw [hnext]
  rw [← hpaging] at hnew htranslate hself hothers
  have hplain : s'.vmm.paging.Plain := hnew.plain
  constructor
  · refine ⟨⟨stack, by rw [hpages, hlist]; exact hnew⟩, fun b hb => ?_⟩
    have hsame := congrFun htranslate b
    rw [frameFor_congr h.plain hplain (congrFun htlb _) hsame, h.coherent b (hpages ▸ hb), hsame]
  · have hsome := h.isSome hmapped
    rw [← cells_of_mapped hmapped] at hsome
    have hcells : s'.cells = Function.update s.cells (a % 2 ^ 48) (some x) := by
      funext b
      by_cases hb : b = a % 2 ^ 48
      · rw [hb, Function.update_self, ← hself]
        exact cells_of_mapped (hpages ▸ hmapped)
      · rw [Function.update_of_ne hb, cells, cells, hpages]
        by_cases hin : b < 2 ^ 48 ∧ pageNumber b ∈ s.mapped
        · rw [if_pos hin, if_pos hin]
          exact hothers b hin.2 (by rw [Nat.mod_eq_of_lt hin.1]; exact hb)
        · rw [if_neg hin, if_neg hin]
    rw [hcells]
    exact .write hsome

/-- Every step is one of flat memory, or is not seen. -/
theorem Isolated.step {label : Option (Event Nat UInt8)} (h : s.Isolated)
    (hstep : PagedStep s label s') :
    s'.Isolated ∧ Answers flatMemory s.cells label s'.cells := by
  obtain ⟨stack, hinv⟩ := h.inv
  cases hstep with
  | @fill b t ht =>
      refine ⟨h.cache fun a ha => ?_, .stay _⟩
      by_cases hab : pageNumber a = pageNumber b
      · rw [h.coherent a ha, translate_congr _ hab, ← h.plain.processorFrame_eq, ht, frameFor, hab]
        simp
      · exact frameFor_congr h.plain h.plain (Function.update_of_ne hab _ _) rfl
  | evict n =>
      refine ⟨h.cache fun a ha => ?_, .stay _⟩
      by_cases hab : pageNumber a = n
      · rw [h.coherent a ha]
        exact frameFor_of_cold h.plain (by simp [hab])
      · exact frameFor_congr h.plain h.plain (Function.update_of_ne hab _ _) rfl
  | @call c v hvalid hlasts hcold hcall =>
      obtain ⟨hpages, reserved, hpaging, hlist, rfl⟩ := VmmCall.run_eq hvalid hcall
      have hinv' : PagedInv reserved.paging reserved.frameAlloc s.mapped stack := by
        rw [hpaging, hlist]
        exact hinv
      have henough : framesNeeded reserved.paging (c.pages s.vmm) ≤ stack.length := by
        rw [hpaging, ← hinv.stocked.rep.numFrames]
        exact hlasts
      obtain ⟨stack', hnew, hsame⟩ := hinv'.foldl_visitPage hpages henough
      rw [hpaging] at hsame
      obtain ⟨hisolated, hflat⟩ := h.mapPages hnew hsame hcold rfl
      exact ⟨hisolated, .step ⟨_, rfl, hflat⟩⟩
  | @munmap ptr size v hptr hsize hcall =>
      obtain rfl : v = (visitedPages ptr size).foldl Vmm.freePage s.vmm := by
        by_cases hends : PageLoopEnds ptr size
        · rw [munmap_eq s.vmm hptr hsize hends] at hcall
          exact (Option.some.inj hcall).symm
        · rw [Vmm.munmap, (pageLoop_eq Vmm.freePage s.vmm hptr hsize).2 hends] at hcall
          cases hcall
      obtain ⟨hnew, hsame⟩ := hinv.foldl_freePage (visitedPages ptr size)
      obtain ⟨hisolated, hflat⟩ := h.unmapPages hnew hsame rfl
      exact ⟨hisolated, .step ⟨_, rfl, hflat⟩⟩
  | @write a x t hmapped ht =>
      rw [h.coherent a hmapped] at ht
      obtain ⟨hisolated, hflat⟩ := h.store hmapped ht rfl
      exact ⟨hisolated, .step ⟨_, rfl, hflat⟩⟩
  | @read a t hmapped ht =>
      rw [h.coherent a hmapped] at ht
      refine ⟨h, .step ⟨_, rfl, .read ?_⟩⟩
      rw [cells_of_mapped hmapped, PageState.byteAt, ht, Option.map_some]

end PagedState

variable {v : Vmm} {stack : List Nat} {events : List (Event Nat UInt8)}

theorem pagedMemory_simulates (h : v.paging.Ready) (hplain : v.paging.Plain)
    (hstock : Stocked v.paging v.frameAlloc stack) :
    Simulates (pagedMemory v) flatMemory fun s cells => s.Isolated ∧ cells = s.cells := by
  constructor
  case start =>
    rintro ⟨vmm, mapped, tlb⟩ ⟨rfl, rfl⟩
    have hnone : ∀ n : Nat, n ∉ (∅ : Set Nat) := Set.notMem_empty
    refine ⟨_, rfl, ⟨⟨stack, h, hplain, hstock, fun _ ha => absurd ha (hnone _), fun _ _ _ ha =>
      absurd ha (hnone _)⟩, fun _ ha => absurd ha (hnone _)⟩, ?_⟩
    funext a
    rw [PagedState.cells, if_neg fun hin => hnone _ hin.2]
  case step =>
    rintro s cells label s' ⟨hisolated, rfl⟩ hstep
    obtain ⟨hisolated', hflat⟩ := hisolated.step hstep
    exact ⟨_, hflat, hisolated', rfl⟩

/-- On every run of the calls and of accesses to the pages they have mapped, these pages are
flat memory, and each is backed by a frame of its own. -/
theorem vmm_refines_flatMemory (h : v.paging.Ready) (hplain : v.paging.Plain)
    (hstock : Stocked v.paging v.frameAlloc stack) (hrun : Run (pagedMemory v) events s) :
    Run flatMemory events s.cells ∧ s.Isolated := by
  obtain ⟨cells, hflat, hisolated, rfl⟩ := (pagedMemory_simulates h hplain hstock).run hrun
  exact ⟨hflat, hisolated⟩

/-- A load returns what was stored last, through all calls in between. -/
theorem vmm_reads_lastWrite (h : v.paging.Ready) (hplain : v.paging.Plain)
    (hstock : Stocked v.paging v.frameAlloc stack)
    (hrun : Run (pagedMemory v) events s) (hread : PagedStep s (some (.read a x)) s')
    (hlast : lastWrite events a = some y) : x = y := by
  obtain ⟨cells, hflat, hisolated, rfl⟩ := (pagedMemory_simulates h hplain hstock).run hrun
  obtain ⟨-, hanswer⟩ := hisolated.step hread
  cases hanswer with
  | step hstep =>
      obtain ⟨e, hlabel, hstep⟩ := hstep
      cases hlabel
      exact (told_of_run hflat).read hstep hlast

end Runs

section Evaluation

/-- A zeroed root has no entries that could be large pages. -/
theorem freshVmm_plain : freshVmm.paging.Plain := by
  refine ⟨by decide, fun path t i hlen hwalk => ?_⟩
  obtain rfl := Refines.path_eq_nil_of_zeroed zeroedRoot_entryAt hwalk
  cases hwalk
  have hzero : freshVmm.paging.entryAt freshVmm.paging.root i = 0 := zeroedRoot_entryAt i
  rw [hzero]
  exact plainEntry_zero _

theorem freshVmm_maps : ∃ s : PagedState, pageNumber 0x10010 ∈ s.mapped ∧
    Run (pagedMemory freshVmm) [.map (pageAddrs [0x10000])] s := by
  have hvalid : (VmmCall.allocPage 0x10000).Valid := by simp [VmmCall.Valid]
  have hmap : PagedStep ⟨freshVmm, ∅, fun _ => none⟩ (some (.map (pageAddrs [0x10000]))) _ :=
    .call hvalid freshVmm_lasts (fun _ _ => rfl) rfl
  have hstart : (pagedMemory freshVmm).start ⟨freshVmm, ∅, fun _ => none⟩ := ⟨rfl, rfl⟩
  refine ⟨_, ?_, (Run.start hstart).event hmap⟩
  exact Set.mem_union_right _ (by simp [VmmCall.pages, pageNumber])

theorem freshVmm_stores : ∃ s : PagedState, s.Isolated ∧ pageNumber 0x10010 ∈ s.mapped ∧
    Run (pagedMemory freshVmm) [.write 0x10010 7, .map (pageAddrs [0x10000])] s := by
  obtain ⟨s, hmapped, hrun⟩ := freshVmm_maps
  obtain ⟨_, -, hisolated, -⟩ := (pagedMemory_simulates freshVmm_ready freshVmm_plain
    freshVmm_stocked).run hrun
  obtain ⟨t, ht, -⟩ := hisolated.found hmapped
  have hwrite := PagedStep.write (x := 7) hmapped ht
  exact ⟨_, (hisolated.step hwrite).1, hmapped, hrun.event hwrite⟩

theorem freshVmm_refines_flatMemory : ∃ s : PagedState, s.Isolated ∧
    Run flatMemory [.write 0x10010 7, .map (pageAddrs [0x10000])] s.cells := by
  obtain ⟨s, -, -, hrun⟩ := freshVmm_stores
  exact ⟨s, (vmm_refines_flatMemory freshVmm_ready freshVmm_plain freshVmm_stocked hrun).symm⟩

theorem freshVmm_reads_lastWrite : ∃ s : PagedState,
    PagedStep s (some (.read 0x10010 7)) s := by
  obtain ⟨s, hisolated, hmapped, hrun⟩ := freshVmm_stores
  obtain ⟨t, ht, -⟩ := hisolated.found hmapped
  have hread : PagedStep s (some (.read 0x10010 (s.vmm.paging.loadByte t 0x10010))) s :=
    .read hmapped ht
  have hlast : lastWrite [.write 0x10010 7, .map (pageAddrs [0x10000])] 0x10010 =
      some (7 : UInt8) := by
    simp [lastWrite]
  have hvalue := vmm_reads_lastWrite freshVmm_ready freshVmm_plain freshVmm_stocked hrun hread hlast
  rw [hvalue] at hread
  exact ⟨s, hread⟩

end Evaluation

end FroggyOs
