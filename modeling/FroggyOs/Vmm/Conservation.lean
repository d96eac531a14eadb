import FroggyOs.Library.Ledger
import FroggyOs.Vmm.Region

/-!
# Where the popped frames are

A call of `alloc_page` or `mmap` pops a frame for each page it visits and for each
missing table, and stores every popped frame in one page-table entry. On a list that
lasts, the frames are therefore conserved as long as each of these entries was empty.
The entry of a new table always is. The leaf entry of a page is not tested, so a page
that was mapped before loses its frame: `allocRun_conserved_iff` says that over a whole run the
frames are conserved exactly when no call visits a mapped page.

`slots` reads the tree as a map from paths to frames; the bookkeeping is that of
`Ledger`, with the frame list as the pool.
-/

namespace FroggyOs

open ByteMemory Word64 RadixTree Loop64 Ledger

attribute [local irreducible] popFrameList mapToPage nextTable

/-! ## References -/

/-- An entry is named by its table and its index. -/
abbrev TableEntry := Frame × Fin 512

/-- The entry belongs to a table of the tree, is present, and holds `frame`. -/
def Refers (s : PageState) (entry : TableEntry) (frame : Nat) : Prop :=
  s.IsTable entry.1.addr ∧ ∃ t, decodeEntry (s.entryAt entry.1 entry.2) = some t ∧ t.addr = frame

/-- The path to an entry of the tree, its own index included. -/
abbrev Slot := { path : List (Fin 512) // path ≠ [] ∧ path.length ≤ 4 }

/-- The frame at the end of a path. -/
def slots (s : PageState) (slot : Slot) : Option Nat := (s.walkFrom slot.val).map Frame.addr

theorem length_snoc_le {path : List (Fin 512)} (i : Fin 512) (hlen : path.length < 4) :
    (path ++ [i]).length ≤ 4 := by
  rw [List.length_append, List.length_singleton]
  exact hlen

/-- The slot of the entry at index `i` of the table at `path`. -/
def slotBelow (path : List (Fin 512)) (i : Fin 512) (hlen : path.length < 4) : Slot :=
  ⟨path ++ [i], List.append_ne_nil_of_right_ne_nil path (List.cons_ne_nil i []),
    length_snoc_le i hlen⟩

/-- The slot of the leaf entry of an address. -/
def leafSlot (addr : Nat) : Slot := ⟨pagePath addr, by simp [pagePath], by simp⟩

theorem slots_eq_some {s : PageState} {slot : Slot} {frame : Nat} :
    slots s slot = some frame ↔ ∃ t, s.walkFrom slot.val = some t ∧ t.addr = frame :=
  Option.map_eq_some_iff

theorem slots_leafSlot (s : PageState) (addr : Nat) :
    slots s (leafSlot addr) = none ↔ s.translate addr = none :=
  Option.map_eq_none_iff

theorem Slot.eq_slotBelow (slot : Slot) : ∃ path i hlen, slot = slotBelow path i hlen := by
  obtain ⟨path, hne, hlen⟩ := slot
  have hsplit := List.dropLast_append_getLast hne
  have hlength : path.dropLast.length = path.length - 1 := List.length_dropLast
  have hpos := List.length_pos_iff.mpr hne
  exact ⟨path.dropLast, path.getLast hne, by omega, Subtype.ext hsplit.symm⟩

theorem slots_slotBelow {s : PageState} {path : List (Fin 512)} {t : Frame}
    (hwalk : s.walkFrom path = some t) (i : Fin 512) (hlen : path.length < 4) {frame : Nat} :
    slots s (slotBelow path i hlen) = some frame ↔
      ∃ u, decodeEntry (s.entryAt t i) = some u ∧ u.addr = frame := by
  rw [slots_eq_some, slotBelow, PageState.walkFrom_snoc, hwalk, Option.bind_some]

/-- An entry refers to a frame when one of the paths through it does. -/
theorem refers_iff {s : PageState} {entry : TableEntry} {frame : Nat} :
    Refers s entry frame ↔ ∃ path hlen, s.walkFrom path = some entry.1 ∧
      slots s (slotBelow path entry.2 hlen) = some frame := by
  constructor
  · rintro ⟨⟨path, t, hlen, hwalk, haddr⟩, hentry⟩
    obtain rfl : t = entry.1 := Frame.ext haddr
    exact ⟨path, hlen, hwalk, (slots_slotBelow hwalk _ hlen).mpr hentry⟩
  · rintro ⟨path, hlen, hwalk, hslot⟩
    exact ⟨⟨path, entry.1, hlen, hwalk, rfl⟩, (slots_slotBelow hwalk _ hlen).mp hslot⟩

/-- A frame in one slot only is referenced by one entry only. -/
theorem existsUnique_refers {s : PageState} {frame : Nat}
    (h : ∃! slot, slots s slot = some frame) : ∃! entry, Refers s entry frame := by
  obtain ⟨slot, hslot, honly⟩ := h
  obtain ⟨path, i, hlen, rfl⟩ := slot.eq_slotBelow
  obtain ⟨u, hu, haddr⟩ := slots_eq_some.mp hslot
  obtain ⟨t, ht⟩ := walk_isSome_of_append hu
  refine ⟨(t, i), refers_iff.mpr ⟨path, hlen, ht, hslot⟩, ?_⟩
  rintro ⟨t', i'⟩ hrefers
  obtain ⟨path', hlen', ht', hslot'⟩ := refers_iff.mp hrefers
  have hpaths : path' ++ [i'] = path ++ [i] := congrArg Subtype.val (honly _ hslot')
  obtain ⟨rfl, hi⟩ := List.append_inj' hpaths rfl
  obtain rfl : i' = i := by simpa using hi
  have htable : some t' = some t := ht'.symm.trans ht
  rw [Option.some.inj htable]

theorem not_refers_of_slots {s : PageState} {frame : Nat}
    (h : ∀ slot, slots s slot ≠ some frame) (entry : TableEntry) : ¬ Refers s entry frame := by
  intro hrefers
  obtain ⟨path, hlen, _, hslot⟩ := refers_iff.mp hrefers
  exact h _ hslot

theorem slots_ne_of_not_refers {s : PageState} {frame : Nat}
    (h : ∀ entry, ¬ Refers s entry frame) (slot : Slot) : slots s slot ≠ some frame := by
  intro hslot
  obtain ⟨path, i, hlen, rfl⟩ := slot.eq_slotBelow
  obtain ⟨u, hu, haddr⟩ := slots_eq_some.mp hslot
  obtain ⟨t, ht⟩ := walk_isSome_of_append hu
  exact h (t, i) (refers_iff.mpr ⟨path, hlen, ht, hslot⟩)

/-! ## One call -/

section AllocPage

variable {start : Slot → Option Nat} {all : Set Nat} {good : Prop}

/-- Linking a table puts its frame into an empty slot. -/
theorem slots_linkTable {s s' : PageState} {path : List (Fin 512)} {i : Fin 512} {t' : Frame}
    (hlen : path.length < 4) (hwalks : ∀ q, q.length ≤ 4 → s'.walkFrom q =
      if q = path ++ [i] then some t' else s.walkFrom q) :
    slots s' = Function.update (slots s) (slotBelow path i hlen) (some t'.addr) := by
  funext slot
  by_cases hslot : slot = slotBelow path i hlen
  · rw [hslot, Function.update_self, slots, hwalks _ (slotBelow path i hlen).property.2]
    exact congrArg _ (if_pos rfl)
  · have hpath : slot.val ≠ path ++ [i] := fun h => hslot (Subtype.ext h)
    rw [Function.update_of_ne hslot, slots, hwalks _ slot.property.2, if_neg hpath, slots]

/-- The account of the frames, with the frame in hand still in the pool, is carried
through the levels of `map_to_page`. -/
theorem account_descend {s : PageState} (hun : s.Unshared) {path indices : List (Fin 512)}
    {t : Frame} {list frame : Nat} {stack : List Nat}
    (hlen : path.length + indices.length ≤ 3) (hwalk : s.walkFrom path = some t)
    (hstock : Stocked s list stack) (henough : tablesMissing s path indices ≤ stack.length)
    (hframe : frame ∉ stack)
    (haccount : Account good start (slots s) all {a | a ∈ frame :: stack}) :
    Account good start (slots (descend s (s.physToVirt t.addr) list indices).2) all
      {a | a ∈ frame :: stack.drop (tablesMissing s path indices)} := by
  induction indices generalizing s path t stack with
  | nil => exact haccount
  | cons i rest ih =>
      simp only [List.length_cons] at hlen
      have hptr : s.physToVirt t.addr + 8 * i.val = s.entryPtr t i := rfl
      cases hnext : s.walkFrom (path ++ [i]) with
      | some t₁ =>
          rw [tablesMissing_cons_some hnext] at henough ⊢
          rw [descend, hptr, nextTable_of_some hwalk hnext]
          exact ih hun (by simp; omega) hnext hstock henough hframe haccount
      | none =>
          rw [tablesMissing_cons_none hnext] at henough ⊢
          obtain _ | ⟨top, stack⟩ := stack
          · simp at henough
          have hgood := hstock.usable top List.mem_cons_self
          obtain ⟨t₁, rfl⟩ : ∃ t₁ : Frame, t₁.addr = top := ⟨hgood.toFrame, hgood.toFrame_addr⟩
          obtain ⟨hlevel, hstock₁, _, hwalks⟩ := hstock.link hun (by omega) hwalk hnext
          have hslot : slots s (slotBelow path i (by omega)) = none := by
            rw [slots, slotBelow, hnext]
            rfl
          have hassign := haccount.assign_empty hslot (f := t₁.addr) (by simp)
          rw [← slots_linkTable (by omega) hwalks] at hassign
          have hpool : {a | a ∈ frame :: stack} =
              {a | a ∈ frame :: t₁.addr :: stack} \ {t₁.addr} := by
            ext a
            have hne : frame ≠ t₁.addr := fun h => hframe (h ▸ List.mem_cons_self)
            have htop := (List.nodup_cons.mp hstock.nodup).1
            simp only [Set.mem_ofPred_eq, List.mem_cons, Set.mem_sdiff, Set.mem_singleton_iff]
            grind
          have haccount₁ := hassign.congr Iff.rfl rfl hpool
          rw [descend, hptr, nextTable_of_link hwalk hnext hgood.2.1 hstock.pop_cons.1]
          generalize linkTable s t i t₁ list = s₁ at *
          have hvirt : s.physToVirt t₁.addr = s₁.physToVirt t₁.addr :=
            (PageState.physToVirt_congr hlevel.step.offset _).symm
          have hwalk₁ : s₁.walkFrom (path ++ [i]) = some t₁ := by
            rw [hwalks _ (by simp; omega), if_pos rfl]
          have hcount := tablesMissing_linkTable hlen hwalks
          have hrest := ih hlevel.step.unshared (by simp; omega) hwalk₁ hstock₁
            (by rw [hcount]; simpa using henough)
            (fun h => hframe (List.mem_cons_of_mem _ h)) haccount₁
          rw [hcount, ← hvirt] at hrest
          rw [List.drop_succ_cons]
          exact hrest

/-- Every path of four indices is the path of an address. -/
theorem pagePath_surjective {path : List (Fin 512)} (hlen : path.length = 4) :
    ∃ addr, pagePath addr = path := by
  match path, hlen with
  | [a, b, c, d], _ =>
      refine ⟨a * 2 ^ 39 + b * 2 ^ 30 + c * 2 ^ 21 + d * 2 ^ 12, ?_⟩
      simp only [pagePath, pgd, pud, pmd, pt, pgdIndex_eq, pudIndex_eq, pmdIndex_eq, ptIndex_eq,
        List.cons.injEq, Fin.ext_iff, and_true]
      omega

/-- Mapping a page puts its frame into the leaf slot. -/
theorem slots_leaf {s s' : PageState} {addr frame : Nat} (hframe : IsFrame frame)
    (hwalks : ∀ q, q.length < 4 → s'.walkFrom q = s.walkFrom q)
    (hmapped : Retranslates s s' addr (decodeEntry (encodeEntry frame))) :
    slots s' = Function.update (slots s) (leafSlot addr) (some frame) := by
  have hdecode : decodeEntry (encodeEntry frame) = some hframe.toFrame :=
    decodeEntry_encodeEntry hframe.toFrame hframe.2.2
  funext slot
  by_cases hlen : slot.val.length < 4
  · have hslot : slot ≠ leafSlot addr := by
      rintro rfl
      exact absurd hlen (by simp [leafSlot])
    rw [Function.update_of_ne hslot, slots, hwalks _ hlen, slots]
  · have hfour : slot.val.length = 4 := Nat.le_antisymm slot.property.2 (Nat.le_of_not_lt hlen)
    obtain ⟨b, hb⟩ := pagePath_surjective hfour
    have hwalk := hmapped b
    simp only [PageState.translate, ← pagePath_eq_iff, hb] at hwalk
    rw [slots, hwalk]
    by_cases hslot : slot = leafSlot addr
    · have hpath : slot.val = pagePath addr := by rw [hslot, leafSlot]
      rw [if_pos hpath, hslot, Function.update_self, hdecode]
      rfl
    · have hpath : slot.val ≠ pagePath addr := fun h => hslot (Subtype.ext h)
      rw [if_neg hpath, Function.update_of_ne hslot, slots]

/-- A served call of `alloc_page` keeps the account good exactly when the page was not
mapped. -/
theorem account_allocPage {s : Vmm} {addr frame : Nat} {rest : List Nat} (h : s.paging.Ready)
    (haddr : addr ≠ 0) (hstock : Stocked s.paging s.frameAlloc (frame :: rest))
    (henough : missingFor s.paging addr ≤ rest.length)
    (haccount : Account good start (slots s.paging) all {a | a ∈ frame :: rest}) :
    Account (good ∧ s.paging.translate addr = none) start
      (slots (Vmm.allocPage s addr).2.paging) all
      {a | a ∈ rest.drop (missingFor s.paging addr)} := by
  have hgood := hstock.usable frame List.mem_cons_self
  have hfresh := (List.nodup_cons.mp hstock.nodup).1
  obtain ⟨hframe, hpop⟩ := hstock.pop_cons
  have hstock' : Stocked s.popped s.frameAlloc rest := hpop
  obtain ⟨hpopped, hsame⟩ := Vmm.popped_step h
  have hready := h.step hpopped
  have hwalk : s.popped.walkFrom [] = some s.popped.root := rfl
  have hslots : slots s.popped = slots s.paging := by
    funext slot
    rw [slots, slots, Vmm.walkFrom_popped]
  rw [← Vmm.missingFor_popped] at henough ⊢
  have hdescend : DescendTakes s.popped _ _ _ _ (descendTo s.popped addr s.frameAlloc) :=
    descend_of_stocked hready.unshared (by simp) hwalk hstock' henough
  have hlevels : Account good start (slots (descendTo s.popped addr s.frameAlloc).2) all _ :=
    account_descend hready.unshared (by simp) hwalk hstock' henough hfresh
      (haccount.congr Iff.rfl hslots rfl)
  obtain ⟨_, hmapped, _, hwalks⟩ := Vmm.allocPage_of_level h haddr hframe hgood.2.1
    hgood.toFrame.lt hdescend.level
  rw [if_pos hdescend.found] at hmapped
  -- the levels change no translation, so the call retranslates the state after them
  have hlevel : SameTranslation s.paging (descendTo s.popped addr s.frameAlloc).2 :=
    fun a => (hdescend.level.same a).trans (hsame a)
  have hmapped' : Retranslates (descendTo s.popped addr s.frameAlloc).2
      (Vmm.allocPage s addr).2.paging addr (decodeEntry (encodeEntry frame)) := by
    intro b
    rw [hmapped b, hlevel b]
  have hassign := hlevels.assign (p := leafSlot addr) (f := frame) (by simp)
  rw [← slots_leaf hgood hwalks hmapped'] at hassign
  refine hassign.congr ?_ rfl ?_
  · rw [slots_leafSlot, hlevel addr]
  · ext a
    have hne : frame ∉ rest.drop (missingFor s.popped addr) :=
      fun hmem => hfresh (List.mem_of_mem_drop hmem)
    simp only [Set.mem_ofPred_eq, List.mem_cons, Set.mem_sdiff, Set.mem_singleton_iff]
    change a ∈ rest.drop (missingFor s.popped addr) ↔
      (a = frame ∨ a ∈ rest.drop (missingFor s.popped addr)) ∧ ¬ a = frame
    grind

end AllocPage

/-! ## Runs of calls -/

inductive VmmCall
  | allocPage (addr : Nat)
  | mmap (size : Nat)

namespace VmmCall

/-- The address is not `NULL`, the size a 64-bit value. -/
def Valid : VmmCall → Prop
  | allocPage addr => addr ≠ 0
  | mmap size => size < 2 ^ 64

/-- The state after the call; `none` when the page loop never ends. -/
def run (s : Vmm) : VmmCall → Option Vmm
  | allocPage addr => some (s.allocPage addr).2
  | mmap size => (s.mmap size).map Prod.snd

/-- The addresses the call passes to `alloc_page`. -/
def pages (s : Vmm) : VmmCall → List Nat
  | allocPage addr => [addr]
  | mmap size => if s.kHeapEnd.toNat = 0 then [] else visitedPages s.kHeapEnd.toNat size

end VmmCall

/-- The frame list holds a frame for every page and every missing table. -/
def Lasts (s : Vmm) (pages : List Nat) : Prop :=
  framesNeeded s.paging pages ≤ s.paging.frames.get s.frameAlloc FreeFrameList.numFrames

instance (s : Vmm) (pages : List Nat) : Decidable (Lasts s pages) :=
  inferInstanceAs (Decidable (_ ≤ _))

/-- The addresses lie in distinct pages, none of which is mapped. -/
def FreshPages (s : PageState) (pages : List Nat) : Prop :=
  (∀ page ∈ pages, s.translate page = none) ∧
    pages.Pairwise fun page page' => pageNumber page ≠ pageNumber page'

/-- The addresses visited for a region of up to `2 ^ 48` pages lie in distinct pages. -/
theorem visitedPages_pairwise (start : Nat) {size : Nat} (h : size ≤ 2 ^ 48) :
    (visitedPages start size).Pairwise fun page page' => pageNumber page ≠ pageNumber page' := by
  rw [visitedPages, List.pairwise_iff_getElem]
  intro i j hi hj hij
  rw [List.length_range'] at hi hj
  rw [List.getElem_range', List.getElem_range', pageNumber, pageNumber]
  split at hj <;> omega

theorem freshPages_visitedPages (s : PageState) (start : Nat) {size : Nat} (h : size ≤ 2 ^ 48) :
    FreshPages s (visitedPages start size) ↔
      ∀ page ∈ visitedPages start size, s.translate page = none :=
  and_iff_left (visitedPages_pairwise start h)

/-- Calls that return one after another, on a list that lasts for each of them. -/
inductive AllocRun : Vmm → List VmmCall → Vmm → Prop
  | done (s : Vmm) : AllocRun s [] s
  | call {s s₁ s' : Vmm} {call : VmmCall} {calls : List VmmCall} (hvalid : call.Valid)
      (hlasts : Lasts s (call.pages s)) (hcall : call.run s = some s₁)
      (hrest : AllocRun s₁ calls s') : AllocRun s (call :: calls) s'

/-- No call of the sequence visits a mapped page, nor one page twice. -/
def AllFresh (s : Vmm) : List VmmCall → Prop
  | [] => True
  | call :: calls => FreshPages s.paging (call.pages s) ∧
      ∀ s₁, call.run s = some s₁ → AllFresh s₁ calls

/-- Every frame of `stack` that has left the list is referenced by exactly one entry of
the tree, and no reference of `start` is gone. -/
def Conserved (start : PageState) (stack : List Nat) (s : Vmm) : Prop :=
  ∃ popped rest, stack = popped ++ rest ∧ FrameListRep s.paging.frames s.frameAlloc rest ∧
    (∀ frame ∈ popped, ∃! entry, Refers s.paging entry frame) ∧
      ∀ entry frame, Refers start entry frame → Refers s.paging entry frame

/-- What holds after every call: the account of the frames, with what is left of the list
as the pool. -/
structure RunAccount (start : PageState) (stack : List Nat) (good : Prop) (s : Vmm)
    (rest : List Nat) : Prop where
  ready : s.paging.Ready
  nodup : stack.Nodup
  stocked : Stocked s.paging s.frameAlloc rest
  suffix : rest <:+ stack
  tables : ∀ q t, q.length < 4 → start.walkFrom q = some t → s.paging.walkFrom q = some t
  account : Account good (slots start) (slots s.paging) {a | a ∈ stack} {a | a ∈ rest}

section Run

variable {start : PageState} {stack rest : List Nat} {good : Prop} {s : Vmm}

theorem RunAccount.initial (h : s.paging.Ready) (hstock : Stocked s.paging s.frameAlloc stack)
    (hfree : ∀ frame ∈ stack, ∀ entry, ¬ Refers s.paging entry frame) :
    RunAccount s.paging stack True s stack where
  ready := h
  nodup := hstock.nodup
  stocked := hstock
  suffix := List.suffix_refl _
  tables _ _ _ hwalk := hwalk
  account :=
    { balanced := fun _ => .initial fun frame hframe => slots_ne_of_not_refers (hfree frame hframe)
      lost := fun h => absurd trivial h
      subset := fun _ h => h }

theorem RunAccount.congr {good' : Prop} {s' : Vmm} (h : RunAccount start stack good s rest)
    (hgood : good' ↔ good) (hpaging : s'.paging = s.paging)
    (hlist : s'.frameAlloc = s.frameAlloc) : RunAccount start stack good' s' rest := by
  refine ⟨?_, h.nodup, ?_, h.suffix, ?_, ?_⟩
  · rw [hpaging]
    exact h.ready
  · rw [hpaging, hlist]
    exact h.stocked
  · rw [hpaging]
    exact h.tables
  · rw [hpaging]
    exact h.account.congr hgood rfl rfl

/-- Visiting the first page leaves the others as fresh as they were, unless they lie in
the same page. -/
theorem freshPages_cons {s s' : PageState} {page : Nat} {pages : List Nat} {frame : Nat}
    (hframe : frame < 2 ^ 64)
    (hmapped : Retranslates s s' page (decodeEntry (encodeEntry frame))) :
    FreshPages s (page :: pages) ↔ s.translate page = none ∧ FreshPages s' pages := by
  have hunmapped : ∀ a, s'.translate a = none ↔
      s.translate a = none ∧ pageNumber page ≠ pageNumber a := by
    intro a
    have hsome := hmapped.isSome_iff hframe a
    rw [← not_iff_not, ← Ne, Option.ne_none_iff_isSome, hsome, not_and_or, not_not,
      ← Ne, Option.ne_none_iff_isSome]
    exact or_congr_right eq_comm
  simp only [FreshPages, List.forall_mem_cons, List.pairwise_cons, hunmapped]
  constructor
  · rintro ⟨⟨hpage, hrest⟩, hdistinct, hpairwise⟩
    exact ⟨hpage, fun a ha => ⟨hrest a ha, hdistinct a ha⟩, hpairwise⟩
  · rintro ⟨hpage, hrest, hpairwise⟩
    exact ⟨⟨hpage, fun a ha => (hrest a ha).1⟩, fun a ha => (hrest a ha).2, hpairwise⟩

/-- The account over the visited pages of one call. -/
theorem RunAccount.foldl_visitPage {pages : List Nat} (hpages : ∀ page ∈ pages, page ≠ 0)
    (h : RunAccount start stack good s rest) (henough : framesNeeded s.paging pages ≤ rest.length) :
    ∃ rest', RunAccount start stack (good ∧ FreshPages s.paging pages)
      (pages.foldl Vmm.visitPage s) rest' := by
  induction pages generalizing s rest good with
  | nil => exact ⟨rest, h.congr (by simp [FreshPages]) rfl rfl⟩
  | cons page pages ih =>
      have hpage := hpages page List.mem_cons_self
      have hfirst := framesNeeded_prefix_le s.paging [page] pages
      rw [List.singleton_append, framesNeeded_singleton] at hfirst
      obtain _ | ⟨frame, rest⟩ := rest
      · exact absurd (Nat.le_trans hfirst henough) (by simp)
      rw [List.length_cons] at henough
      have hmissing : missingFor s.paging page ≤ rest.length := by omega
      have hserved := Vmm.allocPage_of_stocked h.ready hpage h.stocked hmissing
      have hframe := (h.stocked.usable frame List.mem_cons_self).toFrame.lt
      have haccount := account_allocPage h.ready hpage h.stocked hmissing h.account
      have hvisit : RunAccount start stack (good ∧ s.paging.translate page = none)
          (s.visitPage page) (rest.drop (missingFor s.paging page)) :=
        ⟨hserved.step.ready, h.nodup, hserved.stocked,
          ((List.drop_suffix _ _).trans (List.suffix_cons _ _)).trans h.suffix,
          fun q t hq ht => hserved.step.tree.kept q t hq (h.tables q t hq ht), haccount⟩
      have hneeded := framesNeeded_cons hserved.tables pages
      rw [framesNeeded_singleton] at hneeded
      have hrest : framesNeeded (s.visitPage page).paging pages ≤
          (rest.drop (missingFor s.paging page)).length := by
        rw [List.length_drop, Vmm.visitPage]
        omega
      obtain ⟨rest', hrun⟩ := ih (fun p hp => hpages p (List.mem_cons_of_mem _ hp)) hvisit hrest
      exact ⟨rest', hrun.congr (by rw [freshPages_cons hframe hserved.mapped, and_assoc]; rfl)
        rfl rfl⟩

/-- A call is its visits, after the region has been reserved. -/
theorem VmmCall.run_eq {call : VmmCall} {s s' : Vmm} (hvalid : call.Valid)
    (hcall : call.run s = some s') : (∀ page ∈ call.pages s, page ≠ 0) ∧
      ∃ reserved : Vmm, reserved.paging = s.paging ∧ reserved.frameAlloc = s.frameAlloc ∧
        s' = (call.pages s).foldl Vmm.visitPage reserved := by
  cases call with
  | allocPage addr =>
      cases hcall
      have haddr : addr ≠ 0 := hvalid
      exact ⟨by simpa [VmmCall.pages] using haddr, s, rfl, rfl, rfl⟩
  | mmap size =>
      obtain ⟨⟨region, s₁⟩, hmmap, rfl⟩ := Option.map_eq_some_iff.mp hcall
      refine ⟨?_, (Vmm.growHeap s size).2, rfl, rfl, ?_⟩
      · intro page hpage
        simp only [VmmCall.pages] at hpage
        split at hpage
        case isTrue => cases hpage
        case isFalse hend =>
          have := (mem_visitedPages hpage).1
          omega
      · by_cases hend : s.kHeapEnd.toNat = 0
        · simp only [Vmm.mmap, Vmm.growHeap, hend, if_true, Option.some.injEq,
            Prod.mk.injEq] at hmmap
          rw [VmmCall.pages, if_pos hend]
          exact hmmap.2.symm
        · have hne : region ≠ 0 := by
            by_cases hends : PageLoopEnds s.kHeapEnd.toNat size
            · rw [(mmap_eq hvalid hend).1 hends] at hmmap
              cases hmmap
              exact hend
            · rw [(mmap_eq hvalid hend).2 hends] at hmmap
              cases hmmap
          rw [VmmCall.pages, if_neg hend]
          exact (mmap_eq_some hvalid hmmap hne).2.2

/-- The account over a run. -/
theorem AllocRun.account {calls : List VmmCall} {s' : Vmm} (hrun : AllocRun s calls s')
    (h : RunAccount start stack good s rest) :
    ∃ rest', RunAccount start stack (good ∧ AllFresh s calls) s' rest' := by
  induction hrun generalizing good rest with
  | done s => exact ⟨rest, h.congr (by simp [AllFresh]) rfl rfl⟩
  | @call s s₁ s' call calls hvalid hlasts hcall _ ih =>
      obtain ⟨hpages, reserved, hpaging, hlist, heq⟩ := VmmCall.run_eq hvalid hcall
      have henough : framesNeeded reserved.paging (call.pages s) ≤ rest.length := by
        rw [hpaging, ← h.stocked.rep.numFrames]
        exact hlasts
      obtain ⟨rest₁, h₁⟩ := (h.congr Iff.rfl hpaging hlist).foldl_visitPage hpages henough
      rw [← heq, hpaging] at h₁
      obtain ⟨rest', h'⟩ := ih h₁
      refine ⟨rest', h'.congr ?_ rfl rfl⟩
      simp only [AllFresh, hcall, Option.some.injEq, forall_eq', and_assoc]

/-- The frames are conserved exactly when the account is good. -/
theorem RunAccount.conserved_iff (h : RunAccount start stack good s rest) :
    Conserved start stack s ↔ good := by
  constructor
  · rintro ⟨popped, rest', hstack, hrep, honce, hkept⟩
    obtain rfl := h.stocked.rep.unique hrep
    by_contra hbad
    obtain ⟨frame, hleft, ⟨slot, hstart, hgone⟩ | ⟨hframe, hnowhere⟩⟩ := h.account.lost hbad
    · -- the entry that held the frame at the start holds another one
      obtain ⟨path, i, hlen, rfl⟩ := slot.eq_slotBelow
      obtain ⟨u, hu, _⟩ := slots_eq_some.mp hstart
      obtain ⟨t, ht⟩ := walk_isSome_of_append hu
      have hrefers := hkept (t, i) frame (refers_iff.mpr ⟨path, hlen, ht, hstart⟩)
      exact hgone ((slots_slotBelow (h.tables path t hlen ht) i hlen).mpr hrefers.2)
    · have hpopped : frame ∈ popped := by
        rw [hstack] at hframe
        exact (List.mem_append.mp hframe).resolve_right hleft
      obtain ⟨entry, hentry, _⟩ := honce frame hpopped
      exact not_refers_of_slots hnowhere entry hentry
  · intro hgood
    have hbalanced := h.account.balanced hgood
    obtain ⟨popped, hstack⟩ := h.suffix
    refine ⟨popped, rest, hstack.symm, h.stocked.rep, ?_, ?_⟩
    · intro frame hframe
      have hdisjoint := (List.nodup_append.mp (hstack ▸ h.nodup)).2.2
      exact existsUnique_refers (hbalanced.once frame
        (hstack ▸ List.mem_append_left _ hframe) fun hmem => hdisjoint frame hframe frame hmem rfl)
    · rintro ⟨t, i⟩ frame hrefers
      obtain ⟨path, hlen, ht, hslot⟩ := refers_iff.mp hrefers
      exact refers_iff.mpr ⟨path, hlen, h.tables path t hlen ht, hbalanced.kept _ _ hslot⟩

/-- On a list of frames that no entry refers to yet, a run of calls conserves the frames
exactly when none of its calls visits a mapped page, or one page twice. -/
theorem allocRun_conserved_iff {s s' : Vmm} {stack : List Nat} {calls : List VmmCall}
    (h : s.paging.Ready) (hstock : Stocked s.paging s.frameAlloc stack)
    (hfree : ∀ frame ∈ stack, ∀ entry, ¬ Refers s.paging entry frame)
    (hrun : AllocRun s calls s') : Conserved s.paging stack s' ↔ AllFresh s calls := by
  obtain ⟨rest, haccount⟩ := hrun.account (.initial h hstock hfree)
  rw [haccount.conserved_iff, true_and]

end Run

section Evaluation

theorem zeroedRoot_not_refers (entry : TableEntry) (frame : Nat) :
    ¬ Refers zeroedRoot entry frame := by
  intro hrefers
  obtain ⟨path, hlen, _, hslot⟩ := refers_iff.mp hrefers
  obtain ⟨t, ht, _⟩ := slots_eq_some.mp hslot
  have hpath := Refines.path_eq_nil_of_zeroed zeroedRoot_entryAt ht
  simp [slotBelow] at hpath

/-- The state after `init_vmm` has mapped the page at the start of the heap. -/
def bootPage : Vmm := (freshVmm.allocPage 0x10000).2

theorem bootPage_served : Vmm.Served freshVmm bootPage 0x10000 0x6000
    ([0x5000, 0x4000, 0x3000, 0x2000].drop (missingFor zeroedRoot 0x10000)) := by
  have hmissing : missingFor zeroedRoot 0x10000 ≤ 3 := List.countP_le_length
  exact Vmm.allocPage_of_stocked freshVmm_ready (by decide) freshVmm_stocked
    (Nat.le_trans hmissing (by decide))

theorem bootPage_mapped : bootPage.paging.translate 0x10000 ≠ none := by
  rw [bootPage_served.mapped, if_pos rfl]
  decide

theorem freshVmm_lasts : Lasts freshVmm [0x10000] := by
  have hneeded : framesNeeded zeroedRoot [0x10000] ≤ 4 := freshVmm_framesNeeded _
  have hcount := freshVmm_stocked.rep.numFrames
  rw [Lasts, hcount]
  exact Nat.le_trans hneeded (by decide)

/-- The tables of the page are those of the pages beside it. -/
theorem bootPage_lasts {page : Nat} (hpage : lowestTable page = lowestTable 0x10000) :
    Lasts bootPage [page] := by
  have hmissing : missingFor zeroedRoot 0x10000 ≤ 3 := List.countP_le_length
  have hcomplete : missingFor bootPage.paging page = 0 := by
    rw [missingFor_eq_zero_iff, hpage, Ne,
      bootPage_served.tables (lowestTable 0x10000) (by decide), lowestTable_mem_tablePaths]
    simp
  rw [Lasts, bootPage_served.stocked.rep.numFrames, framesNeeded_singleton, hcomplete,
    List.length_drop, List.length_cons]
  simp only [List.length_cons, List.length_nil]
  omega

/-- The next page is mapped after the first one. -/
theorem bootPage_run : AllocRun freshVmm [.allocPage 0x10000, .allocPage 0x11000]
    (bootPage.allocPage 0x11000).2 := by
  have hnext : AllocRun bootPage [.allocPage 0x11000] (bootPage.allocPage 0x11000).2 :=
    .call (by simp [VmmCall.Valid]) (bootPage_lasts rfl) rfl (.done _)
  exact .call (by simp [VmmCall.Valid]) freshVmm_lasts rfl hnext

theorem freshVmm_fresh : FreshPages zeroedRoot [0x10000] := by
  refine ⟨fun page _ => ?_, by simp⟩
  cases ht : zeroedRoot.translate page with
  | none => rfl
  | some t => cases Refines.path_eq_nil_of_zeroed zeroedRoot_entryAt ht

theorem bootPage_fresh : FreshPages bootPage.paging [0x11000] := by
  refine ⟨fun page hpage => ?_, by simp⟩
  have hother : pageNumber 0x11000 ≠ pageNumber 0x10000 := by decide
  rw [List.mem_singleton.mp hpage, bootPage_served.mapped, if_neg hother]
  exact freshVmm_fresh.1 0x10000 (List.mem_singleton_self _)

/-- Two pages are mapped without a loss. -/
theorem bootPage_conserved :
    Conserved zeroedRoot [0x6000, 0x5000, 0x4000, 0x3000, 0x2000]
      (bootPage.allocPage 0x11000).2 := by
  refine (allocRun_conserved_iff freshVmm_ready freshVmm_stocked
    (fun frame _ entry => zeroedRoot_not_refers entry frame) bootPage_run).mpr
    ⟨freshVmm_fresh, fun s hs => ?_⟩
  cases hs
  exact ⟨bootPage_fresh, fun _ _ => trivial⟩

/-- The state after the first bucket has been mapped, at the start of the heap again. -/
def bootBucket : Vmm := [0x10000].foldl Vmm.visitPage (Vmm.growHeap bootPage 17).2

theorem bootPage_pages : (VmmCall.mmap 17).pages bootPage = [0x10000] := by
  have hend : bootPage.kHeapEnd = 0x10000 := bootPage_served.step.kHeapEnd
  rw [VmmCall.pages, hend]
  decide

theorem bootBucket_run : AllocRun freshVmm [.allocPage 0x10000, .mmap 17] bootBucket := by
  have hend : bootPage.kHeapEnd = 0x10000 := bootPage_served.step.kHeapEnd
  have hmmap : (VmmCall.mmap 17).run bootPage = some bootBucket := by
    have heq := (mmap_eq (s := bootPage) (n := 17) (by decide) (by rw [hend]; decide)).1
      (by rw [hend]; decide)
    have hvisited : visitedPages bootPage.kHeapEnd.toNat 17 = [0x10000] := by
      rw [hend]
      decide
    rw [VmmCall.run, heq, hvisited]
    rfl
  have hlasts : Lasts bootPage ((VmmCall.mmap 17).pages bootPage) := by
    rw [bootPage_pages]
    exact bootPage_lasts rfl
  have hbucket : AllocRun bootPage [.mmap 17] bootBucket :=
    .call (by simp [VmmCall.Valid]) hlasts hmmap (.done bootBucket)
  exact .call (by simp [VmmCall.Valid]) freshVmm_lasts rfl hbucket

/-- The second call finds the page mapped, and the frame it held is gone. -/
theorem not_conserved_bootBucket :
    ¬ Conserved zeroedRoot [0x6000, 0x5000, 0x4000, 0x3000, 0x2000] bootBucket := by
  obtain ⟨rest, haccount⟩ := bootBucket_run.account (.initial freshVmm_ready freshVmm_stocked
    fun frame _ entry => zeroedRoot_not_refers entry frame)
  intro hconserved
  obtain ⟨_, _, hrest⟩ := haccount.conserved_iff.mp hconserved
  have hmapped := (hrest bootPage rfl).1.1 0x10000 (by rw [bootPage_pages]; simp)
  exact bootPage_mapped hmapped

end Evaluation

end FroggyOs
