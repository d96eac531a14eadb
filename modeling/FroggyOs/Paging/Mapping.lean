import FroggyOs.Paging.Tables

/-!
# What mapping and unmapping do to the tree

Each level of `map_to_page` either follows a present entry or links a freshly zeroed
table, and neither changes a translation; the final store changes the translation of
one page. `TreeStep` collects what survives any of these steps: the tables stay
unshared, no table is lost, and the only new ones are the frames handed out.

The free-frame list is not constrained here. The results hold for every call whose
table frames are good (`FreshTables`): page-aligned, non-zero, below `2 ^ 51` and not
tables of the tree already.
-/

namespace FroggyOs

open ByteMemory Word64 RadixTree

/-- A usable physical frame: page-aligned, non-zero and below `2 ^ 51`. -/
def IsFrame (addr : Nat) : Prop := addr % 4096 = 0 ∧ addr ≠ 0 ∧ addr < 2 ^ 51

instance (addr : Nat) : Decidable (IsFrame addr) := inferInstanceAs (Decidable (_ ∧ _ ∧ _))

/-- The frame at a usable address. -/
def IsFrame.toFrame {addr : Nat} (h : IsFrame addr) : Frame :=
  ⟨addr, h.1, Nat.lt_trans h.2.2 (by decide)⟩

@[simp] theorem IsFrame.toFrame_addr {addr : Nat} (h : IsFrame addr) : h.toFrame.addr = addr := rfl

namespace PageState

/-- No two paths of the tree lead to one table. -/
def Unshared (s : PageState) : Prop := RadixTree.Unshared decodeEntry s.entryAt s.root 4

/-- The frame at `addr` holds a table of the tree, the root included. -/
def IsTable (s : PageState) (addr : Nat) : Prop :=
  ∃ path t, path.length < 4 ∧ s.walkFrom path = some t ∧ t.addr = addr

end PageState

/-- The table frames handed out between `s` and `s'` are usable, distinct, and no
tables of the tree in `s`. -/
def FreshTables (s s' : PageState) : Prop :=
  ∃ new, s'.created = new ++ s.created ∧ new.Nodup ∧ ∀ a ∈ new, IsFrame a ∧ ¬ s.IsTable a

/-- A step of the paging code, as far as the tables of the tree are concerned. -/
structure TreeStep (s s' : PageState) : Prop where
  offset : s'.offset = s.offset
  cr3 : s'.cr3 = s.cr3
  unshared : s'.Unshared
  kept : ∀ q t, q.length < 4 → s.walkFrom q = some t → s'.walkFrom q = some t
  tables : ∃ new, s'.created = new ++ s.created ∧ ∀ a, s'.IsTable a → s.IsTable a ∨ a ∈ new

/-- No translation changes. -/
def SameTranslation (s s' : PageState) : Prop := ∀ addr, s'.translate addr = s.translate addr

theorem PageState.root_congr {s s' : PageState} (h : s'.cr3 = s.cr3) : s'.root = s.root := by
  apply Frame.ext
  simp only [PageState.root, h]

theorem PageState.physToVirt_congr {s s' : PageState} (h : s'.offset = s.offset) (addr : Nat) :
    s'.physToVirt addr = s.physToVirt addr := by
  simp only [PageState.physToVirt, h]

/-- Only the table memory, the offset and CR3 matter to a walk. -/
theorem PageState.walkFrom_congr {s s' : PageState} (htables : s'.tables = s.tables)
    (hoffset : s'.offset = s.offset) (hcr3 : s'.cr3 = s.cr3) : s'.walkFrom = s.walkFrom := by
  have hentry : s'.entryAt = s.entryAt := by
    funext t i
    simp only [PageState.entryAt, PageState.readEntry, PageState.entryPtr,
      PageState.physToVirt_congr hoffset, htables]
  funext path
  simp only [PageState.walkFrom, hentry, PageState.root_congr hcr3]

namespace TreeStep

theorem trans {s₁ s₂ s₃ : PageState} (h₁ : TreeStep s₁ s₂) (h₂ : TreeStep s₂ s₃) :
    TreeStep s₁ s₃ := by
  refine ⟨h₂.offset.trans h₁.offset, h₂.cr3.trans h₁.cr3, h₂.unshared, ?_, ?_⟩
  · intro q t hq hwalk
    exact h₂.kept q t hq (h₁.kept q t hq hwalk)
  · obtain ⟨new₁, hnew₁, htables₁⟩ := h₁.tables
    obtain ⟨new₂, hnew₂, htables₂⟩ := h₂.tables
    refine ⟨new₂ ++ new₁, by rw [hnew₂, hnew₁, List.append_assoc], ?_⟩
    intro a ha
    obtain hold | hnew := htables₂ a ha
    · obtain holder | hnew := htables₁ a hold
      · exact .inl holder
      · exact .inr (List.mem_append_right _ hnew)
    · exact .inr (List.mem_append_left _ hnew)

/-- A step that touches neither the tables nor the log. -/
theorem of_congr {s s' : PageState} (hun : s.Unshared) (htables : s'.tables = s.tables)
    (hoffset : s'.offset = s.offset) (hcr3 : s'.cr3 = s.cr3) (hcreated : s'.created = s.created) :
    TreeStep s s' ∧ SameTranslation s s' := by
  have hwalk := PageState.walkFrom_congr htables hoffset hcr3
  refine ⟨⟨hoffset, hcr3, ?_, ?_, [], by simp [hcreated], ?_⟩, ?_⟩
  · intro p q t hp hq hwp hwq
    have hwp' : s'.walkFrom p = some t := hwp
    have hwq' : s'.walkFrom q = some t := hwq
    rw [hwalk] at hwp' hwq'
    exact hun p q t hp hq hwp' hwq'
  · intro q t _ hq
    rw [hwalk, hq]
  · rintro a ⟨path, t, hlen, hpath, rfl⟩
    exact .inl ⟨path, t, hlen, by rw [← hwalk, hpath], rfl⟩
  · intro addr
    rw [PageState.translate, PageState.translate, hwalk]

theorem refl {s : PageState} (hun : s.Unshared) : TreeStep s s ∧ SameTranslation s s :=
  of_congr hun rfl rfl rfl rfl

theorem of_frames {s : PageState} (hun : s.Unshared) (m : Mem) :
    TreeStep s { s with frames := m } ∧ SameTranslation s { s with frames := m } :=
  of_congr hun rfl rfl rfl rfl

end TreeStep

/-- The freshness of a longer call is that of its first part and of its rest. -/
theorem FreshTables.split {s₁ s₂ s₃ : PageState} (h : FreshTables s₁ s₃)
    (h₁₂ : ∃ new, s₂.created = new ++ s₁.created) (h₂₃ : ∃ new, s₃.created = new ++ s₂.created) :
    FreshTables s₁ s₂ ∧ (TreeStep s₁ s₂ → FreshTables s₂ s₃) := by
  obtain ⟨new, hnew, hnodup, hfresh⟩ := h
  obtain ⟨new₁, hnew₁⟩ := h₁₂
  obtain ⟨new₂, hnew₂⟩ := h₂₃
  obtain rfl : new = new₂ ++ new₁ := by
    rw [hnew₂, hnew₁, ← List.append_assoc] at hnew
    exact (List.append_cancel_right hnew).symm
  obtain ⟨hnodup₂, hnodup₁, hdisjoint⟩ := List.nodup_append.mp hnodup
  refine ⟨⟨new₁, hnew₁, hnodup₁, fun a ha => hfresh a (List.mem_append_right _ ha)⟩, ?_⟩
  intro hstep
  refine ⟨new₂, hnew₂, hnodup₂, ?_⟩
  intro a ha
  refine ⟨(hfresh a (List.mem_append_left _ ha)).1, ?_⟩
  intro htable
  obtain ⟨new', hnew', htables⟩ := hstep.tables
  obtain rfl : new' = new₁ := List.append_cancel_right (hnew'.symm.trans hnew₁)
  obtain hold | hnew := htables a htable
  · exact (hfresh a (List.mem_append_left _ ha)).2 hold
  · exact hdisjoint a ha a hnew rfl

/-! ## A new table -/

section CreateNewPageTable

variable {s : PageState} {frameAlloc : Nat}

/-- Without a frame nothing but the frame list changes. -/
theorem createNewPageTable_of_null (h : (popFrameList s.frames frameAlloc).1 = 0) :
    createNewPageTable s frameAlloc =
      (0, { s with frames := (popFrameList s.frames frameAlloc).2 }) := by
  simp only [createNewPageTable, if_pos h]

/-- With a frame its bytes are zeroed, and no others are written. -/
theorem createNewPageTable_of_ne (h : (popFrameList s.frames frameAlloc).1 ≠ 0) :
    createNewPageTable s frameAlloc =
      ((popFrameList s.frames frameAlloc).1,
        { s with
          frames := (popFrameList s.frames frameAlloc).2
          tables := (memset s.tables (s.physToVirt (popFrameList s.frames frameAlloc).1) 0
            sizeofPageTable).put (s.physToVirt (popFrameList s.frames frameAlloc).1 + 8 * 1)
              pageTableEntry 0
          created := (popFrameList s.frames frameAlloc).1 :: s.created }) := by
  simp only [createNewPageTable, if_neg h, PageState.physToVirt]

theorem createNewPageTable_fst :
    (createNewPageTable s frameAlloc).1 = (popFrameList s.frames frameAlloc).1 := by
  by_cases h : (popFrameList s.frames frameAlloc).1 = 0
  · rw [createNewPageTable_of_null h, h]
  · rw [createNewPageTable_of_ne h]

@[simp] theorem createNewPageTable_offset :
    (createNewPageTable s frameAlloc).2.offset = s.offset := by
  by_cases h : (popFrameList s.frames frameAlloc).1 = 0
  · rw [createNewPageTable_of_null h]
  · rw [createNewPageTable_of_ne h]

@[simp] theorem createNewPageTable_cr3 :
    (createNewPageTable s frameAlloc).2.cr3 = s.cr3 := by
  by_cases h : (popFrameList s.frames frameAlloc).1 = 0
  · rw [createNewPageTable_of_null h]
  · rw [createNewPageTable_of_ne h]

theorem createNewPageTable_frames :
    (createNewPageTable s frameAlloc).2.frames = (popFrameList s.frames frameAlloc).2 := by
  by_cases h : (popFrameList s.frames frameAlloc).1 = 0
  · rw [createNewPageTable_of_null h]
  · rw [createNewPageTable_of_ne h]

theorem createNewPageTable_created (h : (popFrameList s.frames frameAlloc).1 ≠ 0) :
    (createNewPageTable s frameAlloc).2.created =
      (popFrameList s.frames frameAlloc).1 :: s.created := by
  rw [createNewPageTable_of_ne h]

/-- The log grows by the frames handed out, one or none. -/
theorem createNewPageTable_created_suffix :
    ∃ new, (createNewPageTable s frameAlloc).2.created = new ++ s.created := by
  by_cases h : (popFrameList s.frames frameAlloc).1 = 0
  · exact ⟨[], by rw [createNewPageTable_of_null h]; rfl⟩
  · exact ⟨[_], createNewPageTable_created h⟩

theorem createNewPageTable_entryAt_new {t : Frame}
    (h : (popFrameList s.frames frameAlloc).1 = t.addr) (hne : t.addr ≠ 0) (j : Fin 512) :
    (createNewPageTable s frameAlloc).2.entryAt t j = 0 := by
  have hbound := j.isLt
  rw [createNewPageTable_of_ne (h ▸ hne), h]
  simp only [PageState.entryAt, PageState.readEntry, PageState.entryPtr, PageState.physToVirt]
  generalize add64 t.addr s.offset.toNat = base
  by_cases hj : j.val = 1
  · rw [hj]
    exact Mem.get_put_same (by decide)
  · rw [Mem.get_put_disjoint (by simp; omega)]
    exact Mem.load_fill_zero (by simp) (by simp [sizeofPageTable]; omega)

theorem createNewPageTable_entryAt_other {t u : Frame}
    (h : (popFrameList s.frames frameAlloc).1 = t.addr) (hne : t.addr ≠ 0) (hu : u ≠ t)
    (j : Fin 512) :
    (createNewPageTable s frameAlloc).2.entryAt u j = s.entryAt u j := by
  have hbound := j.isLt
  have hpages := s.physToVirt_disjoint hu
  rw [createNewPageTable_of_ne (h ▸ hne), h]
  simp only [PageState.entryAt, PageState.readEntry, PageState.entryPtr, PageState.physToVirt] at *
  rw [Mem.get_put_disjoint (by simp; omega)]
  exact Mem.load_fill_disjoint (by simp [sizeofPageTable]; omega)

end CreateNewPageTable

/-! ## One level -/

section NextTable

variable {s : PageState} {entryPtr frameAlloc : Nat}

theorem nextTable_of_present (h : isPageTablePresent (s.readEntry entryPtr) = true) :
    nextTable s entryPtr frameAlloc =
      (some (s.physToVirt (pageTablePhysAddress (s.readEntry entryPtr))), s) := by
  simp only [nextTable, h, Bool.not_true, Bool.false_eq_true, if_false]

theorem nextTable_of_null (h : isPageTablePresent (s.readEntry entryPtr) = false)
    (hpop : (popFrameList s.frames frameAlloc).1 = 0) :
    nextTable s entryPtr frameAlloc =
      (none, { s with frames := (popFrameList s.frames frameAlloc).2 }) := by
  simp only [nextTable, h, Bool.not_false, if_true, createNewPageTable_of_null hpop]

theorem nextTable_of_ne (h : isPageTablePresent (s.readEntry entryPtr) = false)
    (hpop : (popFrameList s.frames frameAlloc).1 ≠ 0) :
    nextTable s entryPtr frameAlloc =
      (some (s.physToVirt (popFrameList s.frames frameAlloc).1),
        (createNewPageTable s frameAlloc).2.writeEntry entryPtr
          (encodeEntry (popFrameList s.frames frameAlloc).1)) := by
  simp only [nextTable, h, Bool.not_false, if_true, createNewPageTable_fst, if_neg hpop,
    PageState.physToVirt, PageState.writeEntry_offset, createNewPageTable_offset, encodeEntry]

theorem nextTable_created_suffix (s : PageState) (entryPtr frameAlloc : Nat) :
    ∃ new, (nextTable s entryPtr frameAlloc).2.created = new ++ s.created := by
  cases hpresent : isPageTablePresent (s.readEntry entryPtr) with
  | true => exact ⟨[], by rw [nextTable_of_present hpresent]; rfl⟩
  | false =>
      by_cases hpop : (popFrameList s.frames frameAlloc).1 = 0
      · exact ⟨[], by rw [nextTable_of_null hpresent hpop]; rfl⟩
      · rw [nextTable_of_ne hpresent hpop, PageState.writeEntry_created]
        exact createNewPageTable_created_suffix

end NextTable

/-- What the levels of `map_to_page` below the table at `path` achieve along the given
indices: no translation changes, and a returned pointer is that of the table reached. -/
structure LevelStep (s : PageState) (path indices : List (Fin 512))
    (result : Option Nat × PageState) : Prop where
  step : TreeStep s result.2
  same : SameTranslation s result.2
  table : ∀ virt, result.1 = some virt →
    ∃ t, virt = s.physToVirt t.addr ∧ result.2.walkFrom (path ++ indices) = some t

/-- The first level and the levels below it compose. -/
theorem LevelStep.cons {s : PageState} {path indices : List (Fin 512)} {i : Fin 512}
    {first result : Option Nat × PageState} (h₁ : LevelStep s path [i] first)
    (h₂ : LevelStep first.2 (path ++ [i]) indices result) :
    LevelStep s path (i :: indices) result := by
  refine ⟨h₁.step.trans h₂.step, fun addr => (h₂.same addr).trans (h₁.same addr), ?_⟩
  intro virt hvirt
  obtain ⟨t, rfl, hwalk⟩ := h₂.table virt hvirt
  exact ⟨t, PageState.physToVirt_congr h₁.step.offset _, by simpa using hwalk⟩

/-- The state after linking the fresh table `t'` at index `i` of the table `t`. -/
def linkTable (s : PageState) (t : Frame) (i : Fin 512) (t' : Frame) (frameAlloc : Nat) :
    PageState :=
  (createNewPageTable s frameAlloc).2.writeEntry (s.entryPtr t i) (encodeEntry t'.addr)

section LinkTable

variable {s : PageState} {path : List (Fin 512)} {t t' : Frame} {i : Fin 512} {frameAlloc : Nat}

@[simp] theorem linkTable_offset : (linkTable s t i t' frameAlloc).offset = s.offset := by
  simp [linkTable]

@[simp] theorem linkTable_cr3 : (linkTable s t i t' frameAlloc).cr3 = s.cr3 := by
  simp [linkTable]

theorem linkTable_frames :
    (linkTable s t i t' frameAlloc).frames = (popFrameList s.frames frameAlloc).2 := by
  rw [linkTable, PageState.writeEntry_frames, createNewPageTable_frames]

section Entries

variable (hpop : (popFrameList s.frames frameAlloc).1 = t'.addr) (hgood : IsFrame t'.addr)

theorem entryPtr_createNewPageTable (s : PageState) (t : Frame) (i : Fin 512) (frameAlloc : Nat) :
    (createNewPageTable s frameAlloc).2.entryPtr t i = s.entryPtr t i := by
  simp only [PageState.entryPtr, PageState.physToVirt_congr createNewPageTable_offset]

theorem linkTable_entryAt_link :
    (linkTable s t i t' frameAlloc).entryAt t i = encodeEntry t'.addr := by
  rw [linkTable, ← entryPtr_createNewPageTable s t i frameAlloc,
    PageState.entryAt_writeEntry_same _ _ _ (encodeEntry_lt t'.lt)]

include hpop hgood in
/-- The new table is empty. -/
theorem linkTable_entryAt_new (ht : t' ≠ t) (j : Fin 512) :
    (linkTable s t i t' frameAlloc).entryAt t' j = 0 := by
  rw [linkTable, ← entryPtr_createNewPageTable s t i frameAlloc,
    PageState.entryAt_writeEntry_ne _ _ (.inl ht), createNewPageTable_entryAt_new hpop hgood.2.1]

include hpop hgood in
/-- Other entries keep their values. -/
theorem linkTable_entryAt_other {u : Frame} {j : Fin 512} (hother : u ≠ t ∨ j ≠ i) (hu : u ≠ t') :
    (linkTable s t i t' frameAlloc).entryAt u j = s.entryAt u j := by
  rw [linkTable, ← entryPtr_createNewPageTable s t i frameAlloc,
    PageState.entryAt_writeEntry_ne _ _ hother,
    createNewPageTable_entryAt_other hpop hgood.2.1 hu]

end Entries

variable (hun : s.Unshared) (hlen : path.length < 3) (hwalk : s.walkFrom path = some t)
  (hempty : isPageTablePresent (s.entryAt t i) = false)
  (hpop : (popFrameList s.frames frameAlloc).1 = t'.addr) (hgood : IsFrame t'.addr)
  (hfresh : ¬ s.IsTable t'.addr)

include hun hlen hwalk hempty hpop hgood hfresh

/-- Linking a fresh table below an empty entry adds one path to the tree. -/
theorem walkFrom_linkTable : (linkTable s t i t' frameAlloc).Unshared ∧
    ∀ q, q.length ≤ 4 → (linkTable s t i t' frameAlloc).walkFrom q =
      if q = path ++ [i] then some t' else s.walkFrom q := by
  have hcr3 : (linkTable s t i t' frameAlloc).cr3 = s.cr3 := linkTable_cr3
  have hnotReached : ∀ q, q.length < 4 → s.walkFrom q ≠ some t' := by
    intro q hq hreach
    exact hfresh ⟨q, _, hq, hreach, rfl⟩
  have hsame : ∀ u j, (u ≠ t ∨ j ≠ i) →
      (∃ q, q.length < 4 ∧ walk decodeEntry s.entryAt s.root q = some u) →
        (linkTable s t i t' frameAlloc).entryAt u j = s.entryAt u j := by
    rintro u j hother ⟨q, hq, hreach⟩
    have hu : u ≠ t' := by
      rintro rfl
      exact hnotReached q hq hreach
    exact linkTable_entryAt_other hpop hgood hother hu
  have hlink : decodeEntry ((linkTable s t i t' frameAlloc).entryAt t i) = some t' := by
    rw [linkTable_entryAt_link]
    exact decodeEntry_encodeEntry t' hgood.2.2
  have hzero : ∀ j, decodeEntry ((linkTable s t i t' frameAlloc).entryAt t' j) = none := by
    intro j
    have ht : t' ≠ t := by
      rintro rfl
      exact hnotReached path (by omega) hwalk
    rw [linkTable_entryAt_new hpop hgood ht, decodeEntry_zero]
  have hnone : decodeEntry (s.entryAt t i) = none := by
    rw [decodeEntry, hempty]
    rfl
  generalize linkTable s t i t' frameAlloc = s' at *
  constructor
  · rw [PageState.Unshared, PageState.root_congr hcr3]
    exact Unshared.link hun (by omega) hwalk hsame hnone hlink hzero hnotReached
  · intro q hq
    rw [PageState.walkFrom, PageState.root_congr hcr3]
    exact walk_link hun (by omega) hwalk hsame hnone hlink hzero hq

theorem levelStep_link :
    LevelStep s path [i] (some (s.physToVirt t'.addr), linkTable s t i t' frameAlloc) := by
  obtain ⟨hunshared, hwalks⟩ := walkFrom_linkTable hun hlen hwalk hempty hpop hgood hfresh
  have hne : t'.addr ≠ 0 := hgood.2.1
  have hold : s.walkFrom (path ++ [i]) = none := by
    rw [PageState.walkFrom_snoc, hwalk, Option.bind_some, decodeEntry, hempty]
    rfl
  constructor
  case step =>
    refine ⟨linkTable_offset, linkTable_cr3, hunshared, ?_, [t'.addr], ?_, ?_⟩
    · intro q u hq hreach
      rw [hwalks q (by omega), if_neg, hreach]
      rintro rfl
      rw [hold] at hreach
      cases hreach
    · rw [linkTable, PageState.writeEntry_created, createNewPageTable_created (hpop ▸ hne), hpop]
      rfl
    · rintro b ⟨q, u, hq, hreach, rfl⟩
      rw [hwalks q (by omega)] at hreach
      split at hreach
      · cases hreach
        exact .inr (by simp)
      · exact .inl ⟨q, u, hq, hreach, rfl⟩
  case same =>
    intro addr
    rw [PageState.translate, PageState.translate, hwalks _ (by simp), if_neg]
    intro he
    have hlength := congrArg List.length he
    simp at hlength
    omega
  case table =>
    rintro virt ⟨⟩
    exact ⟨t', rfl, by rw [hwalks _ (by simp; omega), if_pos rfl]⟩

end LinkTable

/-- The frame taken for a new table is usable and no table yet. -/
theorem FreshTables.taken {s : PageState} {entryPtr frameAlloc : Nat}
    (hfresh : FreshTables s (nextTable s entryPtr frameAlloc).2)
    (hempty : isPageTablePresent (s.readEntry entryPtr) = false)
    (hpop : (popFrameList s.frames frameAlloc).1 ≠ 0) :
    ∃ t' : Frame, t'.addr = (popFrameList s.frames frameAlloc).1 ∧ IsFrame t'.addr ∧
      ¬ s.IsTable t'.addr := by
  rw [nextTable_of_ne hempty hpop] at hfresh
  obtain ⟨new, hnew, _, hgood⟩ := hfresh
  rw [PageState.writeEntry_created, createNewPageTable_created hpop] at hnew
  have hlist : [(popFrameList s.frames frameAlloc).1] = new := List.append_cancel_right hnew
  obtain ⟨hframe, hspare⟩ := hgood (popFrameList s.frames frameAlloc).1 (by simp [← hlist])
  obtain ⟨t', ht'⟩ : ∃ t' : Frame, t'.addr = (popFrameList s.frames frameAlloc).1 :=
    ⟨hframe.toFrame, hframe.toFrame_addr⟩
  rw [← ht'] at hframe hspare
  exact ⟨t', ht', hframe, hspare⟩

/-- A level finds or links the table below its entry and changes no translation. -/
theorem nextTable_spec {s : PageState} (hun : s.Unshared) {path : List (Fin 512)} {t : Frame}
    {i : Fin 512} (hlen : path.length < 3) (hwalk : s.walkFrom path = some t)
    {frameAlloc : Nat} (hfresh : FreshTables s (nextTable s (s.entryPtr t i) frameAlloc).2) :
    LevelStep s path [i] (nextTable s (s.entryPtr t i) frameAlloc) := by
  cases hpresent : isPageTablePresent (s.readEntry (s.entryPtr t i)) with
  | true =>
      rw [nextTable_of_present hpresent]
      obtain ⟨hstep, hsame⟩ := TreeStep.refl hun
      refine ⟨hstep, hsame, ?_⟩
      rintro virt ⟨⟩
      have hdecode : decodeEntry (s.entryAt t i) = some _ := if_pos hpresent
      refine ⟨_, ?_, by rw [PageState.walkFrom_snoc, hwalk, Option.bind_some, hdecode]⟩
      rfl
  | false =>
      by_cases hpop : (popFrameList s.frames frameAlloc).1 = 0
      · rw [nextTable_of_null hpresent hpop]
        obtain ⟨hstep, hsame⟩ := TreeStep.of_frames hun (popFrameList s.frames frameAlloc).2
        exact ⟨hstep, hsame, by simp⟩
      · obtain ⟨t', ht', hgood, hspare⟩ := hfresh.taken hpresent hpop
        rw [nextTable_of_ne hpresent hpop, ← ht']
        exact levelStep_link hun hlen hwalk hpresent ht'.symm hgood hspare

/-! ## All levels -/

/-- The levels of `map_to_page` in turn, from the table at `virt`. -/
def descend (s : PageState) (virt frameAlloc : Nat) : List (Fin 512) → Option Nat × PageState
  | [] => (some virt, s)
  | i :: rest =>
      match nextTable s (virt + 8 * i.val) frameAlloc with
      | (none, s) => (none, s)
      | (some virt, s) => descend s virt frameAlloc rest

theorem descend_created_suffix (s : PageState) (virt frameAlloc : Nat)
    (indices : List (Fin 512)) :
    ∃ new, (descend s virt frameAlloc indices).2.created = new ++ s.created := by
  induction indices generalizing s virt with
  | nil => exact ⟨[], rfl⟩
  | cons i rest ih =>
      obtain ⟨new, hnew⟩ := nextTable_created_suffix s (virt + 8 * i.val) frameAlloc
      rw [descend]
      rcases hresult : nextTable s (virt + 8 * i.val) frameAlloc with ⟨_ | virt', s'⟩
      all_goals simp only [hresult] at hnew ⊢
      · exact ⟨new, hnew⟩
      · obtain ⟨new', hnew'⟩ := ih s' virt'
        exact ⟨new' ++ new, by rw [hnew', hnew, List.append_assoc]⟩

theorem descend_spec {s : PageState} (hun : s.Unshared) {path indices : List (Fin 512)}
    {t : Frame} (hlen : path.length + indices.length ≤ 3) (hwalk : s.walkFrom path = some t)
    {frameAlloc : Nat}
    (hfresh : FreshTables s (descend s (s.physToVirt t.addr) frameAlloc indices).2) :
    LevelStep s path indices (descend s (s.physToVirt t.addr) frameAlloc indices) := by
  induction indices generalizing s path t with
  | nil =>
      obtain ⟨hstep, hsame⟩ := TreeStep.refl hun
      refine ⟨hstep, hsame, ?_⟩
      rintro virt ⟨⟩
      exact ⟨t, rfl, by rw [List.append_nil]; exact hwalk⟩
  | cons i rest ih =>
      simp only [List.length_cons] at hlen
      have hsuffix := nextTable_created_suffix s (s.entryPtr t i) frameAlloc
      have hspec : FreshTables s (nextTable s (s.entryPtr t i) frameAlloc).2 →
          LevelStep s path [i] (nextTable s (s.entryPtr t i) frameAlloc) :=
        nextTable_spec hun (by omega) hwalk
      have hptr : s.physToVirt t.addr + 8 * i.val = s.entryPtr t i := rfl
      rw [descend, hptr] at hfresh ⊢
      rcases hresult : nextTable s (s.entryPtr t i) frameAlloc with ⟨_ | virt, s₁⟩
      all_goals simp only [hresult] at hfresh hsuffix hspec ⊢
      · obtain ⟨hstep, hsame, _⟩ := hspec hfresh
        exact ⟨hstep, hsame, by simp⟩
      · -- the first level is fresh on its own, and the rest of the call after it
        obtain ⟨hfresh₁, hrest⟩ :=
          hfresh.split hsuffix (descend_created_suffix s₁ virt frameAlloc rest)
        obtain ⟨hstep₁, hsame₁, htable₁⟩ := hspec hfresh₁
        obtain ⟨t₁, rfl, hwalk₁⟩ := htable₁ virt rfl
        rw [← PageState.physToVirt_congr hstep₁.offset] at hrest ⊢
        exact (hspec hfresh₁).cons (ih hstep₁.unshared (by simp; omega) hwalk₁ (hrest hstep₁))

/-! ## The leaf entry -/

/-- A store to an entry of a lowest-level table changes the translation of its own
path only. -/
theorem leafWrite_spec {s : PageState} (hun : s.Unshared) {path : List (Fin 512)} {t : Frame}
    (i : Fin 512) {v : Nat} (hv : v < 2 ^ 64) (hlen : path.length = 3)
    (hwalk : s.walkFrom path = some t) :
    TreeStep s (s.writeEntry (s.entryPtr t i) v) ∧
      (∀ q, q.length < 4 → (s.writeEntry (s.entryPtr t i) v).walkFrom q = s.walkFrom q) ∧
        ∀ q, q.length = 4 → (s.writeEntry (s.entryPtr t i) v).walkFrom q =
          if q = path ++ [i] then decodeEntry v else s.walkFrom q := by
  have hsame : ∀ u j, (u ≠ t ∨ j ≠ i) →
      (∃ q, q.length < 4 ∧ walk decodeEntry s.entryAt s.root q = some u) →
        (s.writeEntry (s.entryPtr t i) v).entryAt u j = s.entryAt u j :=
    fun u j hother _ => s.entryAt_writeEntry_ne v hother
  have htable : ∀ q, q.length < 4 →
      (s.writeEntry (s.entryPtr t i) v).walkFrom q = s.walkFrom q :=
    fun q hq => walk_leafWrite_table hun (by omega) hwalk hsame hq
  refine ⟨⟨rfl, rfl, ?_, ?_, [], rfl, ?_⟩, htable, ?_⟩
  · exact Unshared.leafWrite hun (by omega) hwalk hsame
  · intro q u hq hreach
    rw [htable q hq, hreach]
  · rintro a ⟨q, u, hq, hreach, rfl⟩
    rw [htable q hq] at hreach
    exact .inl ⟨q, u, hq, hreach, rfl⟩
  · intro q hq
    have hwalk' := walk_leafWrite hun (by omega) hwalk hsame hq
    rw [s.entryAt_writeEntry_same t i hv] at hwalk'
    exact hwalk'

/-! ## `map_to_page` and `unmap_page` -/

theorem PageState.root_addr_of_aligned {s : PageState} (h : s.cr3.toNat % 4096 = 0) :
    s.root.addr = s.cr3.toNat := by
  have hlow : s.cr3.toNat &&& not64 0xFFF = 4096 * (s.cr3.toNat / 4096) :=
    and_not64_low (k := 12) s.cr3.toNat_lt (by decide)
  change s.cr3.toNat &&& not64 0xFFF = _
  rw [hlow]
  omega

/-- The call starts at the table that CR3 refers to. -/
def StartsAtRoot (s : PageState) (pml4 : Nat) : Prop :=
  (if pml4 = 0 then s.physToVirt s.cr3.toNat else pml4) = s.physToVirt s.root.addr

/-- With the flag bits of CR3 clear, both ways to name the active root agree. -/
theorem startsAtRoot_of_aligned {s : PageState} {pml4 : Nat} (hcr3 : s.cr3.toNat % 4096 = 0)
    (hpml4 : pml4 = 0 ∨ pml4 = s.physToVirt s.root.addr) : StartsAtRoot s pml4 := by
  rw [StartsAtRoot, PageState.root_addr_of_aligned hcr3] at *
  obtain rfl | rfl := hpml4
  · simp
  · split <;> rfl

/-- The effect of mapping `address` to `frame`: nothing when the call returns `NULL`,
and otherwise the translation of one page. -/
structure MapStep (s : PageState) (address frame : Nat) (result : Nat × PageState) : Prop where
  step : TreeStep s result.2
  failed : result.1 = 0 → SameTranslation s result.2
  mapped : result.1 ≠ 0 → result.1 = address ∧ ∀ b, result.2.translate b =
    if pageNumber b = pageNumber address then decodeEntry (encodeEntry frame) else s.translate b

section MapToPage

variable {s : PageState} {address frame frameAlloc pml4 : Nat}

/-- The three upper levels are a descent from the root. -/
theorem mapToPage_eq (hroot : StartsAtRoot s pml4) :
    mapToPage s address frame frameAlloc pml4 =
      if s.physToVirt s.root.addr = 0 then (0, s)
      else
        match descend s (s.physToVirt s.root.addr) frameAlloc
          [pgd address, pud address, pmd address] with
        | (none, s) => (0, s)
        | (some virtPtAddress, s) =>
          (address, s.writeEntry (virtPtAddress + 8 * (pt address).val) (encodeEntry frame)) := by
  rw [StartsAtRoot] at hroot
  simp only [mapToPage, hroot, descend, pgd, pud, pmd, pt, encodeEntry]
  split
  · rfl
  · rcases nextTable s (s.physToVirt s.root.addr + 8 * pgdIndex address) frameAlloc with
      ⟨_ | virt₁, s₁⟩
    · rfl
    simp only []
    obtain ⟨_ | virt₂, s₂⟩ := nextTable s₁ (virt₁ + 8 * pudIndex address) frameAlloc
    · rfl
    simp only []
    obtain ⟨_ | virt₃, s₃⟩ := nextTable s₂ (virt₂ + 8 * pmdIndex address) frameAlloc <;> rfl

/-- The three upper levels of a call on the active root. -/
def descendTo (s : PageState) (address frameAlloc : Nat) : Option Nat × PageState :=
  descend s (s.physToVirt s.root.addr) frameAlloc [pgd address, pud address, pmd address]

/-- After the descent only the leaf entry of the address is written. -/
structure LeafStep (address : Nat) (descent : Option Nat × PageState)
    (result : Nat × PageState) : Prop where
  returned : result.1 = if descent.1.isSome then address else 0
  frames : result.2.frames = descent.2.frames
  walks : ∀ q, q.length < 4 → result.2.walkFrom q = descent.2.walkFrom q

theorem mapToPage_of_descend (hroot : StartsAtRoot s pml4) (hnull : s.physToVirt s.root.addr ≠ 0)
    (haddress : address ≠ 0) (hframe : frame < 2 ^ 64)
    (h : LevelStep s [] [pgd address, pud address, pmd address] (descendTo s address frameAlloc)) :
    MapStep s address frame (mapToPage s address frame frameAlloc pml4) ∧
      LeafStep address (descendTo s address frameAlloc)
        (mapToPage s address frame frameAlloc pml4) := by
  have heq : mapToPage s address frame frameAlloc pml4 = _ := mapToPage_eq hroot
  rw [if_neg hnull] at heq
  obtain ⟨hstep, hsame, htable⟩ := h
  rw [heq]
  unfold descendTo at *
  rcases hresult : descend s (s.physToVirt s.root.addr) frameAlloc
    [pgd address, pud address, pmd address] with ⟨_ | virt, s'⟩
  all_goals simp only [hresult] at hstep hsame htable ⊢
  · exact ⟨⟨hstep, fun _ => hsame, fun h => absurd rfl h⟩, rfl, rfl, fun _ _ => rfl⟩
  · obtain ⟨t, rfl, hwalk⟩ := htable virt rfl
    have hptr : s.physToVirt t.addr + 8 * (pt address).val = s'.entryPtr t (pt address) := by
      rw [← PageState.physToVirt_congr hstep.offset]
      rfl
    rw [hptr]
    obtain ⟨hwrite, htables, htranslate⟩ :=
      leafWrite_spec hstep.unshared (pt address) (encodeEntry_lt hframe) rfl hwalk
    refine ⟨⟨hstep.trans hwrite, fun h => absurd h haddress, fun _ => ⟨rfl, fun b => ?_⟩⟩,
      rfl, rfl, htables⟩
    have hleaf := htranslate (pagePath b) rfl
    rw [PageState.translate, hleaf, ← hsame b]
    exact if_congr pagePath_eq_iff rfl rfl

theorem mapToPage_spec (hun : s.Unshared) (hroot : StartsAtRoot s pml4) (haddress : address ≠ 0)
    (hframe : frame < 2 ^ 64)
    (hfresh : FreshTables s (mapToPage s address frame frameAlloc pml4).2) :
    MapStep s address frame (mapToPage s address frame frameAlloc pml4) := by
  by_cases hnull : s.physToVirt s.root.addr = 0
  · rw [mapToPage_eq hroot, if_pos hnull]
    obtain ⟨hstep, hsame⟩ := TreeStep.refl hun
    exact ⟨hstep, fun _ => hsame, fun h => absurd rfl h⟩
  have hcreated : (mapToPage s address frame frameAlloc pml4).2.created =
      (descendTo s address frameAlloc).2.created := by
    rw [mapToPage_eq hroot, if_neg hnull, descendTo]
    rcases descend s (s.physToVirt s.root.addr) frameAlloc
      [pgd address, pud address, pmd address] with ⟨_ | virt, s'⟩ <;> rfl
  rw [FreshTables, hcreated] at hfresh
  have hwalk : s.walkFrom [] = some s.root := rfl
  exact (mapToPage_of_descend hroot hnull haddress hframe
    (descend_spec hun (by simp) hwalk hfresh)).1

end MapToPage

/-- Unmapping a page that is mapped to a frame other than 0 removes its translation. -/
theorem unmapPage_spec {s : PageState} (hun : s.Unshared) {addr : Nat}
    (hframe : ∀ t, s.translate addr = some t → t.addr ≠ 0) :
    TreeStep s (unmapPage s addr).2 ∧ ∀ b, (unmapPage s addr).2.translate b =
      if pageNumber b = pageNumber addr then none else s.translate b := by
  cases hfetch : fetchPageTableEntry s addr with
  | none =>
      have hnone := (s.fetchPageTableEntry_none_iff addr).mp hfetch
      obtain ⟨hstep, hsame⟩ := TreeStep.refl hun
      simp only [unmapPage, hfetch]
      refine ⟨hstep, fun b => ?_⟩
      split
      case isTrue hpage =>
        rw [PageState.translate, pagePath_eq_iff.mpr hpage]
        exact hnone
      case isFalse => rfl
  | some ptr =>
      obtain ⟨t, ht, haddr⟩ := (s.fetchPageTableEntry_some_iff addr _).mp ⟨ptr, hfetch, rfl⟩
      have hne : pageTablePhysAddress (s.readEntry ptr) ≠ 0 := haddr ▸ hframe t ht
      simp only [unmapPage, hfetch, if_neg hne]
      -- the entry found lies in the lowest-level table on the path
      rw [PageState.fetchPageTableEntry_eq] at hfetch
      obtain ⟨u, hu, hptr⟩ := Option.bind_eq_some_iff.mp hfetch
      split at hptr
      case isFalse => cases hptr
      case isTrue =>
        cases hptr
        obtain ⟨hstep, _, htranslate⟩ :=
          leafWrite_spec hun (pt addr) (by decide : 0 < 2 ^ 64) rfl hu
        refine ⟨hstep, fun b => ?_⟩
        rw [PageState.translate, htranslate (pagePath b) rfl, decodeEntry_zero]
        exact if_congr pagePath_eq_iff rfl rfl

end FroggyOs
