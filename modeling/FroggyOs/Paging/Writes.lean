import FroggyOs.Paging.Mapping

/-!
# Where mapping writes

A call of `map_to_page` follows the present entries on its path. It changes the entry at
which this walk ends, the first one that is not present or the leaf, and it fills the
frames that it takes for new tables; every other byte stays. That the walk then finds
the leaf needs one thing more: the leaf entry must not be an entry that the walk has read
on the way, as it can be when a table refers to one above it.
-/

namespace FroggyOs

open ByteMemory Word64 RadixTree

attribute [local irreducible] popFrameList nextTable

/-! ## The entry at which a walk ends -/

namespace PageState

/-- The bytes of the table in frame `t`. -/
def page (s : PageState) (t : Frame) : Set Nat := Mem.range (s.physToVirt t.addr) 4096

/-- The bytes of one entry. -/
def entryBytes (s : PageState) (e : Frame × Fin 512) : Set Nat := Mem.range (s.entryPtr e.1 e.2) 8

/-- The bytes of the frames taken for new tables. -/
def pages (s : PageState) (new : List Nat) : Set Nat :=
  {x | ∃ a ∈ new, x ∈ Mem.range (s.physToVirt a) 4096}

/-- The first entry that is not present along `indices`, or the one at `leaf` behind them. -/
def lastEntry (s : PageState) (leaf : Fin 512) : Frame → List (Fin 512) → Frame × Fin 512
  | t, [] => (t, leaf)
  | t, i :: rest =>
      match decodeEntry (s.entryAt t i) with
      | none => (t, i)
      | some t' => lastEntry s leaf t' rest

/-- The present entries that a walk along `indices` reads. -/
def entriesRead (s : PageState) : Frame → List (Fin 512) → List (Frame × Fin 512)
  | _, [] => []
  | t, i :: rest =>
      match decodeEntry (s.entryAt t i) with
      | none => []
      | some t' => (t, i) :: entriesRead s t' rest

/-- The leaf entry of a complete walk is none of the entries read on the way. -/
def LeafApart (s : PageState) (leaf : Fin 512) (t : Frame) (indices : List (Fin 512)) : Prop :=
  ∀ u, walk decodeEntry s.entryAt t indices = some u → (u, leaf) ∉ s.entriesRead t indices

end PageState

section LastEntry

variable {s : PageState} {t u : Frame} {leaf : Fin 512} {indices : List (Fin 512)}

theorem lastEntry_of_walk (h : walk decodeEntry s.entryAt t indices = some u) :
    s.lastEntry leaf t indices = (u, leaf) := by
  induction indices generalizing t with
  | nil =>
      cases h
      rfl
  | cons i rest ih =>
      rw [walk_cons] at h
      rw [PageState.lastEntry]
      cases hentry : decodeEntry (s.entryAt t i) with
      | none =>
          rw [hentry] at h
          cases h
      | some t' =>
          rw [hentry] at h
          exact ih h

theorem lastEntry_of_none (leaf : Fin 512) (h : walk decodeEntry s.entryAt t indices = none) :
    decodeEntry (s.entryAt (s.lastEntry leaf t indices).1 (s.lastEntry leaf t indices).2) =
      none := by
  induction indices generalizing t with
  | nil => cases h
  | cons i rest ih =>
      rw [walk_cons] at h
      rw [PageState.lastEntry]
      cases hentry : decodeEntry (s.entryAt t i) with
      | none => exact hentry
      | some t' =>
          rw [hentry] at h
          exact ih h

/-- The table of the last entry is reached along a part of the path. -/
theorem lastEntry_reached (s : PageState) (leaf : Fin 512) (t : Frame)
    (indices : List (Fin 512)) : ∃ q, q.length ≤ indices.length ∧
      walk decodeEntry s.entryAt t q = some (s.lastEntry leaf t indices).1 := by
  induction indices generalizing t with
  | nil => exact ⟨[], Nat.le_refl _, rfl⟩
  | cons i rest ih =>
      rw [PageState.lastEntry]
      cases hentry : decodeEntry (s.entryAt t i) with
      | none => exact ⟨[], Nat.zero_le _, rfl⟩
      | some t' =>
          obtain ⟨q, hlen, hq⟩ := ih t'
          exact ⟨i :: q, Nat.succ_le_succ hlen, by rw [walk_cons, hentry]; exact hq⟩

/-- An entry read on the way is present, so it is the last one only if it is the leaf. -/
theorem lastEntry_ne {i : Fin 512} {t' : Frame} {rest : List (Fin 512)}
    (hentry : decodeEntry (s.entryAt t i) = some t') (h : s.LeafApart leaf t (i :: rest)) :
    s.lastEntry leaf t' rest ≠ (t, i) := by
  intro heq
  cases hwalk : walk decodeEntry s.entryAt t' rest with
  | none =>
      have hlast := lastEntry_of_none leaf hwalk
      rw [heq, hentry] at hlast
      cases hlast
  | some u =>
      rw [lastEntry_of_walk hwalk] at heq
      have hread := h u (by rw [walk_cons, hentry]; exact hwalk)
      rw [PageState.entriesRead, hentry, heq] at hread
      exact hread List.mem_cons_self

theorem PageState.LeafApart.tail {i : Fin 512} {t' : Frame} {rest : List (Fin 512)}
    (hentry : decodeEntry (s.entryAt t i) = some t') (h : s.LeafApart leaf t (i :: rest)) :
    s.LeafApart leaf t' rest := by
  intro u hwalk hread
  refine h u (by rw [walk_cons, hentry]; exact hwalk) ?_
  rw [PageState.entriesRead, hentry]
  exact List.mem_cons_of_mem _ hread

end LastEntry

/-! ## Bytes and entries -/

/-- Outside of `A` the table memory stays as it is. -/
def WritesWithin (s s' : PageState) (A : Set Nat) : Prop :=
  Set.EqOn s'.tables.byte s.tables.byte (Set.compl A)

section WritesWithin

variable {s s' s'' : PageState} {A B : Set Nat} {t u : Frame} {i j : Fin 512} {ptr v : Nat}
  {new : List Nat} {frameAlloc : Nat}

theorem WritesWithin.refl (h : s'.tables = s.tables) (A : Set Nat) : WritesWithin s s' A :=
  fun _ _ => by rw [h]

theorem WritesWithin.mono (h : WritesWithin s s' A) (hsub : A ⊆ B) : WritesWithin s s' B :=
  fun _ hx => h fun hA => hx (hsub hA)

theorem WritesWithin.trans (h : WritesWithin s s' A) (h' : WritesWithin s' s'' A) :
    WritesWithin s s'' A :=
  fun _ hx => (h' hx).trans (h hx)

/-- An entry outside of the bytes written. -/
theorem WritesWithin.entryAt (h : WritesWithin s s' A) (hoffset : s'.offset = s.offset)
    (hout : ∀ x ∈ s.entryBytes (t, i), x ∉ A) : s'.entryAt t i = s.entryAt t i := by
  have hptr : s'.entryPtr t i = s.entryPtr t i := by
    simp only [PageState.entryPtr, PageState.physToVirt_congr hoffset]
  rw [PageState.entryAt, PageState.entryAt, hptr]
  exact Mem.load_congr fun x hx => h (hout x hx)

theorem writesWithin_writeEntry (s : PageState) (ptr v : Nat) :
    WritesWithin s (s.writeEntry ptr v) (Mem.range ptr 8) :=
  Mem.store_eqOn _ _ _ _

theorem entryBytes_subset_page (s : PageState) (t : Frame) (i : Fin 512) :
    s.entryBytes (t, i) ⊆ s.page t := by
  have hi := i.isLt
  rintro x ⟨hlow, hhigh⟩
  simp only [PageState.entryPtr] at hlow hhigh
  exact ⟨by omega, by omega⟩

/-- Entries at different places share no byte. -/
theorem not_mem_entryBytes {e : Frame × Fin 512} (h : e ≠ (t, i)) {x : Nat}
    (hx : x ∈ s.entryBytes (t, i)) : x ∉ s.entryBytes e := by
  rintro ⟨hlow', hhigh'⟩
  obtain ⟨hlow, hhigh⟩ := hx
  simp only [PageState.entryPtr] at hlow hhigh hlow' hhigh'
  have hi := i.isLt
  have hj := e.2.isLt
  by_cases htable : e.1 = t
  · have hindex : e.2.val ≠ i.val := fun he => h (Prod.ext htable (Fin.ext he))
    rw [htable] at hlow' hhigh'
    omega
  · have := s.physToVirt_disjoint htable
    omega

/-- Tables in different frames share no byte. -/
theorem not_mem_page (h : u ≠ t) {x : Nat} (hx : x ∈ s.page t) : x ∉ s.page u := by
  rintro ⟨hlow', hhigh'⟩
  obtain ⟨hlow, hhigh⟩ := hx
  have := s.physToVirt_disjoint h
  omega

/-- A table that is not new lies outside of the new ones. -/
theorem not_mem_pages (hframes : ∀ a ∈ new, IsFrame a) (h : t.addr ∉ new) {x : Nat}
    (hx : x ∈ s.page t) : x ∉ s.pages new := by
  rintro ⟨a, ha, hin⟩
  have hne : (hframes a ha).toFrame ≠ t := by
    rintro rfl
    exact h ha
  exact not_mem_page hne hx hin

theorem page_subset_pages (h : t.addr ∈ new) : s.page t ⊆ s.pages new :=
  fun _ hx => ⟨t.addr, h, hx⟩

theorem pages_congr (h : s'.offset = s.offset) (new : List Nat) : s'.pages new = s.pages new := by
  simp only [PageState.pages, PageState.physToVirt_congr h]

theorem entryBytes_congr (h : s'.offset = s.offset) (e : Frame × Fin 512) :
    s'.entryBytes e = s.entryBytes e := by
  simp only [PageState.entryBytes, PageState.entryPtr, PageState.physToVirt_congr h]

theorem page_congr (h : s'.offset = s.offset) (t : Frame) : s'.page t = s.page t := by
  simp only [PageState.page, PageState.physToVirt_congr h]

/-- A new table is zeroed within its own page. -/
theorem writesWithin_createNewPageTable (h : (popFrameList s.frames frameAlloc).1 = t.addr) :
    WritesWithin s (createNewPageTable s frameAlloc).2 (s.page t) := by
  by_cases hnull : (popFrameList s.frames frameAlloc).1 = 0
  · rw [createNewPageTable_of_null hnull]
    exact .refl rfl _
  · rw [createNewPageTable_of_ne hnull, h]
    intro x hx
    have hout : x < s.physToVirt t.addr ∨ s.physToVirt t.addr + 4096 ≤ x := by
      by_contra hin
      exact hx ⟨by omega, by omega⟩
    exact (Mem.put_byte_outside (by simp; omega)).trans
      (Mem.fill_byte_outside (by simp [sizeofPageTable]; omega))

end WritesWithin

/-! ## The call below a table -/

/-- The levels of `map_to_page` from the table at `virt` on, with the leaf entry. -/
def mapBelow (address leafEntry frameAlloc : Nat) (s : PageState) (virt : Nat) :
    List (Fin 512) → Nat × PageState
  | [] => (address, s.writeEntry (virt + 8 * (pt address).val) leafEntry)
  | i :: rest =>
      match nextTable s (virt + 8 * i.val) frameAlloc with
      | (none, s) => (0, s)
      | (some virt, s) => mapBelow address leafEntry frameAlloc s virt rest

theorem mapToPage_eq_mapBelow (s : PageState) (address frame frameAlloc pml4 : Nat) :
    mapToPage s address frame frameAlloc pml4 =
      if (if pml4 = 0 then s.physToVirt s.cr3.toNat else pml4) = 0 then (0, s)
      else mapBelow address (encodeEntry frame) frameAlloc s
        (if pml4 = 0 then s.physToVirt s.cr3.toNat else pml4)
        [pgd address, pud address, pmd address] :=
  rfl

section MapBelow

variable {s : PageState} {t : Frame} {address v frameAlloc : Nat} {new : List Nat}

theorem mapBelow_created_suffix (address v frameAlloc : Nat) (s : PageState)
    (virt : Nat) (indices : List (Fin 512)) :
    ∃ new, (mapBelow address v frameAlloc s virt indices).2.created = new ++ s.created := by
  induction indices generalizing s virt with
  | nil => exact ⟨[], rfl⟩
  | cons i rest ih =>
      obtain ⟨new, hnew⟩ := nextTable_created_suffix s (virt + 8 * i.val) frameAlloc
      rw [mapBelow]
      rcases hresult : nextTable s (virt + 8 * i.val) frameAlloc with ⟨_ | virt', s'⟩
      all_goals simp only [hresult] at hnew ⊢
      · exact ⟨new, hnew⟩
      · obtain ⟨new', hnew'⟩ := ih s' virt'
        exact ⟨new' ++ new, by rw [hnew', hnew, List.append_assoc]⟩

/-- What linking the new table `t'` below an empty entry of `t` does to the memory. -/
structure Links (s : PageState) (t : Frame) (i : Fin 512) (t' : Frame) (s' : PageState) :
    Prop where
  offset : s'.offset = s.offset
  cr3 : s'.cr3 = s.cr3
  created : s'.created = t'.addr :: s.created
  within : WritesWithin s s' (s.entryBytes (t, i) ∪ s.page t')
  entry : s'.entryAt t i = encodeEntry t'.addr
  zeroed : t' ≠ t → ∀ j, s'.entryAt t' j = 0

theorem linkTable_links {t' : Frame} (i : Fin 512)
    (hpop : (popFrameList s.frames frameAlloc).1 = t'.addr) (hne : t'.addr ≠ 0) :
    Links s t i t' (linkTable s t i t' frameAlloc) := by
  have hptr : s.entryPtr t i = (createNewPageTable s frameAlloc).2.entryPtr t i := by
    simp only [PageState.entryPtr, PageState.physToVirt_congr createNewPageTable_offset]
  constructor
  case offset => exact linkTable_offset
  case cr3 => exact linkTable_cr3
  case created =>
    rw [linkTable, PageState.writeEntry_created, createNewPageTable_created (hpop ▸ hne), hpop]
  case within =>
    refine WritesWithin.trans ((writesWithin_createNewPageTable hpop).mono
      Set.subset_union_right) ?_
    exact (writesWithin_writeEntry _ _ _).mono Set.subset_union_left
  case entry =>
    rw [linkTable, hptr]
    exact PageState.entryAt_writeEntry_same _ _ _ (encodeEntry_lt t'.lt)
  case zeroed =>
    intro ht j
    rw [linkTable, hptr, PageState.entryAt_writeEntry_ne _ _ (.inl ht),
      createNewPageTable_entryAt_new hpop hne]

theorem isPageTablePresent_of_decodeEntry {i : Fin 512} (h : decodeEntry (s.entryAt t i) = none) :
    isPageTablePresent (s.readEntry (s.entryPtr t i)) = false := by
  by_contra hpresent
  rw [decodeEntry, PageState.entryAt, if_pos (by simpa using hpresent)] at h
  cases h

/-- A present entry is followed. -/
theorem mapBelow_of_some (address v frameAlloc : Nat) {i : Fin 512} {t' : Frame}
    (rest : List (Fin 512))
    (hentry : decodeEntry (s.entryAt t i) = some t') :
    mapBelow address v frameAlloc s (s.physToVirt t.addr) (i :: rest) =
      mapBelow address v frameAlloc s (s.physToVirt t'.addr) rest := by
  have hptr : s.physToVirt t.addr + 8 * i.val = s.entryPtr t i := rfl
  rw [decodeEntry] at hentry
  split at hentry
  case isTrue hpresent =>
    cases hentry
    rw [mapBelow, hptr, nextTable_of_present hpresent]
    rfl
  case isFalse => cases hentry

/-- At an empty entry a list without frames ends the call. -/
theorem mapBelow_of_null {i : Fin 512} (rest : List (Fin 512))
    (hempty : decodeEntry (s.entryAt t i) = none)
    (hpop : (popFrameList s.frames frameAlloc).1 = 0) :
    mapBelow address v frameAlloc s (s.physToVirt t.addr) (i :: rest) =
      (0, { s with frames := (popFrameList s.frames frameAlloc).2 }) := by
  have hptr : s.physToVirt t.addr + 8 * i.val = s.entryPtr t i := rfl
  rw [mapBelow, hptr, nextTable_of_null (isPageTablePresent_of_decodeEntry hempty) hpop]

/-- At an empty entry a frame is linked as a table and the call goes on below it. -/
theorem mapBelow_of_frame (address v : Nat) {i : Fin 512} {t' : Frame} (rest : List (Fin 512))
    (hempty : decodeEntry (s.entryAt t i) = none)
    (hpop : (popFrameList s.frames frameAlloc).1 = t'.addr) (hne : t'.addr ≠ 0) :
    mapBelow address v frameAlloc s (s.physToVirt t.addr) (i :: rest) =
      mapBelow address v frameAlloc (linkTable s t i t' frameAlloc)
        ((linkTable s t i t' frameAlloc).physToVirt t'.addr) rest := by
  have hptr : s.physToVirt t.addr + 8 * i.val = s.entryPtr t i := rfl
  rw [mapBelow, hptr, nextTable_of_ne (isPageTablePresent_of_decodeEntry hempty) (hpop ▸ hne),
    hpop, PageState.physToVirt_congr linkTable_offset]
  rfl

/-- The frame linked is the last of the new ones. -/
theorem mapBelow_of_link {i : Fin 512} {rest : List (Fin 512)}
    (hempty : decodeEntry (s.entryAt t i) = none)
    (hpop : (popFrameList s.frames frameAlloc).1 ≠ 0)
    (hnew : (mapBelow address v frameAlloc s (s.physToVirt t.addr) (i :: rest)).2.created =
      new ++ s.created) (hframes : ∀ a ∈ new, IsFrame a) :
    ∃ t' s₁ new', Links s t i t' s₁ ∧ t'.addr = (popFrameList s.frames frameAlloc).1 ∧
      new = new' ++ [t'.addr] ∧
      mapBelow address v frameAlloc s (s.physToVirt t.addr) (i :: rest) =
        mapBelow address v frameAlloc s₁ (s₁.physToVirt t'.addr) rest ∧
      (mapBelow address v frameAlloc s₁ (s₁.physToVirt t'.addr) rest).2.created =
        new' ++ s₁.created := by
  have hptr : s.physToVirt t.addr + 8 * i.val = s.entryPtr t i := rfl
  -- the log of the call tells that the frame is usable
  have hcreated : ∃ new', new = new' ++ [(popFrameList s.frames frameAlloc).1] := by
    rw [mapBelow, hptr, nextTable_of_ne (isPageTablePresent_of_decodeEntry hempty) hpop] at hnew
    obtain ⟨new', hnew'⟩ := mapBelow_created_suffix address v frameAlloc _ _ rest
    refine ⟨new', List.append_cancel_right (hnew.symm.trans (hnew'.trans ?_))⟩
    rw [PageState.writeEntry_created, createNewPageTable_created hpop, List.append_assoc]
    rfl
  obtain ⟨new', rfl⟩ := hcreated
  have hframe := hframes (popFrameList s.frames frameAlloc).1 (by simp)
  obtain ⟨t', ht'⟩ : ∃ t' : Frame, t'.addr = (popFrameList s.frames frameAlloc).1 :=
    ⟨hframe.toFrame, hframe.toFrame_addr⟩
  have hlinks : Links s t i t' (linkTable s t i t' frameAlloc) :=
    linkTable_links i ht'.symm (ht' ▸ hpop)
  have hcall := mapBelow_of_frame address v rest hempty ht'.symm (ht' ▸ hpop)
  refine ⟨t', _, new', hlinks, ht', by rw [ht'], hcall, ?_⟩
  rw [← hcall, hnew, hlinks.created, ← ht', List.append_assoc]
  rfl

/-- What the call below the table `t` does, when all it changes lies in `A`. -/
structure MapsBelow (s : PageState) (t : Frame) (address v : Nat) (indices : List (Fin 512))
    (A : Set Nat) (result : Nat × PageState) : Prop where
  offset : result.2.offset = s.offset
  cr3 : result.2.cr3 = s.cr3
  within : WritesWithin s result.2 A
  found : result.1 ≠ 0 → s.LeafApart (pt address) t indices →
    walk decodeEntry result.2.entryAt t (indices ++ [pt address]) = decodeEntry v

theorem MapsBelow.mono {indices : List (Fin 512)} {A B : Set Nat} {result : Nat × PageState}
    (h : MapsBelow s t address v indices A result) (hsub : A ⊆ B) :
    MapsBelow s t address v indices B result :=
  ⟨h.offset, h.cr3, h.within.mono hsub, h.found⟩

/-- No entry of a zeroed table is read on the way to the leaf. -/
theorem leafApart_of_zeroed (hzero : ∀ j, s.entryAt t j = 0) (leaf : Fin 512)
    (indices : List (Fin 512)) : s.LeafApart leaf t indices := by
  intro u _ hread
  cases indices with
  | nil => cases hread
  | cons i rest =>
      rw [PageState.entriesRead, hzero, decodeEntry_zero] at hread
      cases hread

/-- A linked table and the call below it. -/
theorem MapsBelow.link {i : Fin 512} {t' : Frame} {s₁ : PageState} {rest : List (Fin 512)}
    {result : Nat × PageState} (hlinks : Links s t i t' s₁)
    (hrest : MapsBelow s₁ t' address v rest (s₁.page t' ∪ s₁.pages new) result)
    (hframes : ∀ a ∈ new ++ [t'.addr], IsFrame a) (hold : t.addr ∉ new ++ [t'.addr]) :
    MapsBelow s t address v (i :: rest) (s.entryBytes (t, i) ∪ s.pages (new ++ [t'.addr])) result ∧
      result.2.entryAt t i = encodeEntry t'.addr := by
  have hne : t' ≠ t := by
    rintro rfl
    simp at hold
  have hsub : s₁.page t' ∪ s₁.pages new ⊆ s.pages (new ++ [t'.addr]) := by
    rw [page_congr hlinks.offset, pages_congr hlinks.offset]
    rintro x (hx | ⟨a, ha, hx⟩)
    · exact ⟨t'.addr, by simp, hx⟩
    · exact ⟨a, by simp [ha], hx⟩
  -- what happens below leaves the link alone
  have hentry : result.2.entryAt t i = encodeEntry t'.addr := by
    rw [← hlinks.entry]
    refine hrest.within.entryAt hrest.offset fun x hx hin => ?_
    rw [entryBytes_congr hlinks.offset] at hx
    exact not_mem_pages hframes hold (entryBytes_subset_page s t i hx) (hsub hin)
  refine ⟨⟨hrest.offset.trans hlinks.offset, hrest.cr3.trans hlinks.cr3, ?_, fun hfound _ => ?_⟩,
    hentry⟩
  · refine WritesWithin.trans (hlinks.within.mono ?_) (hrest.within.mono ?_)
    · exact Set.union_subset_union_right _ (page_subset_pages (by simp))
    · exact hsub.trans Set.subset_union_right
  · have hlt := (hframes t'.addr (by simp)).2.2
    rw [List.cons_append, walk_cons, hentry, decodeEntry_encodeEntry t' hlt]
    exact hrest.found hfound (leafApart_of_zeroed (hlinks.zeroed hne) _ _)

/-- Below a zeroed table the call fills that table and new ones. -/
theorem mapBelow_fresh {rest : List (Fin 512)} (hv : v < 2 ^ 64) (hzero : ∀ j, s.entryAt t j = 0)
    (hnew : (mapBelow address v frameAlloc s (s.physToVirt t.addr) rest).2.created =
      new ++ s.created)
    (hframes : ∀ a ∈ new, IsFrame a) (hnodup : (new ++ [t.addr]).Nodup) :
    MapsBelow s t address v rest (s.page t ∪ s.pages new)
      (mapBelow address v frameAlloc s (s.physToVirt t.addr) rest) := by
  induction rest generalizing s t new with
  | nil =>
      have hptr : s.physToVirt t.addr + 8 * (pt address).val = s.entryPtr t (pt address) := rfl
      rw [mapBelow, hptr]
      refine ⟨rfl, rfl, ?_, fun _ _ => ?_⟩
      · exact (writesWithin_writeEntry _ _ _).mono
          ((entryBytes_subset_page s t _).trans Set.subset_union_left)
      · rw [List.nil_append, walk_cons, s.entryAt_writeEntry_same t _ hv]
        simp [walk]
  | cons i rest ih =>
      have hempty : decodeEntry (s.entryAt t i) = none := by rw [hzero, decodeEntry_zero]
      by_cases hpop : (popFrameList s.frames frameAlloc).1 = 0
      · rw [mapBelow_of_null rest hempty hpop]
        exact ⟨rfl, rfl, .refl rfl _, fun h => absurd rfl h⟩
      · obtain ⟨t', s₁, new', hlinks, -, rfl, hcall, hnew'⟩ :=
          mapBelow_of_link hempty hpop hnew hframes
        rw [hcall]
        have hold : t.addr ∉ new' ++ [t'.addr] := by
          intro hmem
          exact (List.nodup_append.mp hnodup).2.2 _ hmem _ (by simp) rfl
        have hne : t' ≠ t := by
          rintro rfl
          simp at hold
        have hrest := ih (hlinks.zeroed hne) hnew' (fun a ha => hframes a (by simp [ha]))
          (List.nodup_append.mp hnodup).1
        refine (hrest.link hlinks hframes hold).1.mono ?_
        exact Set.union_subset_union_left _ (entryBytes_subset_page s t i)

/-- The value of the last entry after the call. -/
def entryAfter (s : PageState) (leafEntry frameAlloc : Nat) (leaf : Fin 512) (t : Frame)
    (indices : List (Fin 512)) : Nat :=
  if (walk decodeEntry s.entryAt t indices).isSome then leafEntry
  else if (popFrameList s.frames frameAlloc).1 = 0 then
    s.entryAt (s.lastEntry leaf t indices).1 (s.lastEntry leaf t indices).2
  else encodeEntry (popFrameList s.frames frameAlloc).1

/-- The call changes the entry at which the walk ends and fills new tables. -/
theorem mapBelow_spec {indices : List (Fin 512)} (hv : v < 2 ^ 64)
    (hnew : (mapBelow address v frameAlloc s (s.physToVirt t.addr) indices).2.created =
      new ++ s.created)
    (hframes : ∀ a ∈ new, IsFrame a) (hnodup : new.Nodup)
    (hold : ∀ q u, q.length ≤ indices.length → walk decodeEntry s.entryAt t q = some u →
      u.addr ∉ new) :
    MapsBelow s t address v indices
        (s.entryBytes (s.lastEntry (pt address) t indices) ∪ s.pages new)
        (mapBelow address v frameAlloc s (s.physToVirt t.addr) indices) ∧
      (mapBelow address v frameAlloc s (s.physToVirt t.addr) indices).2.entryAt
        (s.lastEntry (pt address) t indices).1 (s.lastEntry (pt address) t indices).2 =
          entryAfter s v frameAlloc (pt address) t indices := by
  induction indices generalizing t with
  | nil =>
      have hptr : s.physToVirt t.addr + 8 * (pt address).val = s.entryPtr t (pt address) := rfl
      rw [mapBelow, hptr]
      refine ⟨⟨rfl, rfl, ?_, fun _ _ => ?_⟩, ?_⟩
      · exact (writesWithin_writeEntry _ _ _).mono Set.subset_union_left
      · rw [List.nil_append, walk_cons, s.entryAt_writeEntry_same t _ hv]
        simp [walk]
      · rw [entryAfter, walk_nil, Option.isSome_some, if_pos rfl]
        exact s.entryAt_writeEntry_same t _ hv
  | cons i rest ih =>
      have hmiss : t.addr ∉ new := hold [] t (Nat.zero_le _) rfl
      cases hentry : decodeEntry (s.entryAt t i) with
      | some t' =>
          have hcall := mapBelow_of_some address v frameAlloc rest hentry
          have hlast :
              s.lastEntry (pt address) t (i :: rest) = s.lastEntry (pt address) t' rest := by
            rw [PageState.lastEntry, hentry]
          have hafter : entryAfter s v frameAlloc (pt address) t (i :: rest) =
              entryAfter s v frameAlloc (pt address) t' rest := by
            rw [entryAfter, entryAfter, hlast, walk_cons, hentry]
            rfl
          rw [hcall] at hnew ⊢
          obtain ⟨hbelow, hvalue⟩ := ih hnew fun q u hq hu =>
            hold (i :: q) u (Nat.succ_le_succ hq) (by rw [walk_cons, hentry]; exact hu)
          rw [hlast, hafter]
          refine ⟨⟨hbelow.offset, hbelow.cr3, hbelow.within, fun hfound hapart => ?_⟩, hvalue⟩
          have hkeep := hbelow.within.entryAt (t := t) (i := i) hbelow.offset fun x hx hin => by
            obtain hin | hin := hin
            · exact not_mem_entryBytes (lastEntry_ne hentry hapart) hx hin
            · exact not_mem_pages hframes hmiss (entryBytes_subset_page s t i hx) hin
          rw [List.cons_append, walk_cons, hkeep, hentry]
          exact hbelow.found hfound (hapart.tail hentry)
      | none =>
          have hlast : s.lastEntry (pt address) t (i :: rest) = (t, i) := by
            rw [PageState.lastEntry, hentry]
          have hwalk : walk decodeEntry s.entryAt t (i :: rest) = none := by
            rw [walk_cons, hentry]
            rfl
          rw [entryAfter, hwalk, hlast, if_neg (by simp)]
          by_cases hpop : (popFrameList s.frames frameAlloc).1 = 0
          · rw [mapBelow_of_null rest hentry hpop, if_pos hpop]
            exact ⟨⟨rfl, rfl, .refl rfl _, fun h => absurd rfl h⟩, rfl⟩
          · obtain ⟨t', s₁, new', hlinks, hpopped, rfl, hcall, hnew'⟩ :=
              mapBelow_of_link hentry hpop hnew hframes
            rw [hcall, if_neg hpop, ← hpopped]
            have hne : t' ≠ t := by
              rintro rfl
              simp at hmiss
            have hrest := mapBelow_fresh hv (hlinks.zeroed hne) hnew'
              (fun a ha => hframes a (by simp [ha])) hnodup
            exact hrest.link hlinks hframes hmiss

end MapBelow

/-! ## The call from the root -/

/-- The entry at which the walk of `map_to_page` along the path of `addr` ends. -/
def PageState.lastEntryFor (s : PageState) (addr : Nat) : Frame × Fin 512 :=
  s.lastEntry (pt addr) s.root [pgd addr, pud addr, pmd addr]

section MapToPage

variable {s : PageState} {address frame frameAlloc pml4 : Nat}

theorem mapToPage_of_null (hroot : StartsAtRoot s pml4) (hnull : s.physToVirt s.root.addr = 0) :
    mapToPage s address frame frameAlloc pml4 = (0, s) := by
  rw [mapToPage_eq_mapBelow, hroot, if_pos hnull]

theorem mapToPage_writes (hroot : StartsAtRoot s pml4) (hnull : s.physToVirt s.root.addr ≠ 0)
    (hframe : frame < 2 ^ 64)
    (hfresh : FreshTables s (mapToPage s address frame frameAlloc pml4).2) :
    ∃ new, (mapToPage s address frame frameAlloc pml4).2.created = new ++ s.created ∧
      (∀ a ∈ new, IsFrame a) ∧ (s.lastEntryFor address).1.addr ∉ new ∧
      MapsBelow s s.root address (encodeEntry frame) [pgd address, pud address, pmd address]
        (s.entryBytes (s.lastEntryFor address) ∪ s.pages new)
        (mapToPage s address frame frameAlloc pml4) ∧
      (mapToPage s address frame frameAlloc pml4).2.entryAt (s.lastEntryFor address).1
        (s.lastEntryFor address).2 = entryAfter s (encodeEntry frame) frameAlloc (pt address) s.root
          [pgd address, pud address, pmd address] := by
  have hcall := mapToPage_eq_mapBelow s address frame frameAlloc pml4
  rw [hroot, if_neg hnull] at hcall
  obtain ⟨new, hnew, hnodup, hgood⟩ := hfresh
  rw [hcall] at hnew ⊢
  have hold : ∀ q u, q.length ≤ 3 → walk decodeEntry s.entryAt s.root q = some u → u.addr ∉ new :=
    fun q u hq hu hmem => (hgood _ hmem).2 ⟨q, u, by omega, hu, rfl⟩
  obtain ⟨q, hq, hlast⟩ := lastEntry_reached s (pt address) s.root
    [pgd address, pud address, pmd address]
  obtain ⟨hbelow, hvalue⟩ := mapBelow_spec (encodeEntry_lt hframe) hnew
    (fun a ha => (hgood a ha).1) hnodup hold
  exact ⟨new, hnew, fun a ha => (hgood a ha).1, hold q _ hq hlast, hbelow, hvalue⟩

end MapToPage

end FroggyOs
