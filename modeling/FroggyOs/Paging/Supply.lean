import FroggyOs.Paging.Mapping

/-!
# What mapping takes from the frame list

A call of `map_to_page` pops one frame for each table that is missing on the path of
its address. `Stocked` is a free-frame list that holds a stack of usable frames outside
the tree. On such a list the call succeeds exactly when the stack is at least as deep
as the number of missing tables; it takes that many frames and creates just those
tables. Otherwise the list ends up popped below its bottom (`RanDry`), and no table of
the lowest level has been created.
-/

namespace FroggyOs

open ByteMemory Word64 RadixTree

/-- The free-frame list holds `stack`, distinct usable frames outside the tree. -/
structure Stocked (s : PageState) (list : Nat) (stack : List Nat) : Prop where
  rep : FrameListRep s.frames list stack
  nodup : stack.Nodup
  usable : ∀ a ∈ stack, IsFrame a
  spare : ∀ a ∈ stack, ¬ s.IsTable a

/-- The list after a pop at its bottom. A list never used stays as it is, another one
is left with `nextFree` pointing at itself. -/
def RanDry (used : Prop) (m : Mem) (list : Nat) : Prop :=
  (used → m.get list FreeFrameList.nextFree = list + 8) ∧
    (¬ used → m.get list FreeFrameList.nextFree = 0)

/-- The paths of the tables that follow the one at `path` along the given indices. -/
def pathsBelow (path : List (Fin 512)) : List (Fin 512) → List (List (Fin 512))
  | [] => []
  | i :: rest => (path ++ [i]) :: pathsBelow (path ++ [i]) rest

/-- The number of these tables that are missing. -/
def tablesMissing (s : PageState) (path indices : List (Fin 512)) : Nat :=
  (pathsBelow path indices).countP fun q => (s.walkFrom q).isNone

theorem length_of_mem_pathsBelow {path indices q : List (Fin 512)}
    (h : q ∈ pathsBelow path indices) :
    path.length < q.length ∧ q.length ≤ path.length + indices.length := by
  induction indices generalizing path with
  | nil => cases h
  | cons i rest ih =>
      rw [pathsBelow, List.mem_cons] at h
      obtain rfl | h := h
      · simp
      · have := ih h
        simp only [List.length_append, List.length_nil, List.length_cons] at this ⊢
        omega

theorem tablesMissing_cons_some {s : PageState} {path rest : List (Fin 512)} {i : Fin 512}
    {t : Frame} (h : s.walkFrom (path ++ [i]) = some t) :
    tablesMissing s path (i :: rest) = tablesMissing s (path ++ [i]) rest := by
  simp [tablesMissing, pathsBelow, h]

theorem tablesMissing_cons_none {s : PageState} {path rest : List (Fin 512)} {i : Fin 512}
    (h : s.walkFrom (path ++ [i]) = none) :
    tablesMissing s path (i :: rest) = tablesMissing s (path ++ [i]) rest + 1 := by
  simp [tablesMissing, pathsBelow, h]

theorem Stocked.used {s : PageState} {list frame : Nat} {rest : List Nat}
    (h : Stocked s list (frame :: rest)) : UsedList s.frames list := by
  have hnext := h.rep.nextFree
  simp only [List.length_cons, reduceCtorEq, and_false, or_false] at hnext
  rw [UsedList, hnext]
  omega

theorem Stocked.pop_nil {s : PageState} {list : Nat} (h : Stocked s list []) :
    (popFrameList s.frames list).1 = 0 ∧
      RanDry (UsedList s.frames list) (popFrameList s.frames list).2 list := by
  by_cases hused : UsedList s.frames list
  · obtain ⟨hnull, hspent⟩ := popFrameList_drained h.rep hused
    exact ⟨hnull, fun _ => hspent, fun hnot => absurd hused hnot⟩
  · have hnull : s.frames.get list FreeFrameList.nextFree = 0 := not_not.mp hused
    rw [popFrameList_null hnull]
    exact ⟨rfl, fun h => absurd h hused, fun _ => hnull⟩

/-- Popping a frame leaves it to the caller. -/
theorem Stocked.pop_cons {s : PageState} {list frame : Nat} {rest : List Nat}
    (h : Stocked s list (frame :: rest)) :
    (popFrameList s.frames list).1 = frame ∧
      Stocked { s with frames := (popFrameList s.frames list).2 } list rest := by
  obtain ⟨hframe, hrep⟩ := popFrameList_rep h.rep
  have hwalk : PageState.walkFrom { s with frames := (popFrameList s.frames list).2 } =
      s.walkFrom := PageState.walkFrom_congr rfl rfl rfl
  refine ⟨hframe, ?_⟩
  constructor
  case rep =>
    dsimp only
    exact hrep
  case nodup => exact h.nodup.of_cons
  case usable => exact fun a ha => h.usable a (List.mem_cons_of_mem _ ha)
  case spare =>
    rintro a ha ⟨path, t, hlen, ht, rfl⟩
    rw [hwalk] at ht
    exact h.spare _ (List.mem_cons_of_mem _ ha) ⟨path, t, hlen, ht, rfl⟩

/-- Being stocked depends on the frame list and on the tables of the tree only. -/
theorem Stocked.congr {s s' : PageState} {list : Nat} {stack : List Nat} (h : Stocked s list stack)
    (hframes : s'.frames = s.frames)
    (hwalks : ∀ q, q.length < 4 → s'.walkFrom q = s.walkFrom q) : Stocked s' list stack := by
  constructor
  case rep =>
    rw [hframes]
    exact h.rep
  case nodup => exact h.nodup
  case usable => exact h.usable
  case spare =>
    rintro a ha ⟨path, t, hlen, ht, rfl⟩
    rw [hwalks path hlen] at ht
    exact h.spare _ ha ⟨path, t, hlen, ht, rfl⟩

/-! ## One level -/

section Level

variable {s : PageState} {path : List (Fin 512)} {t t' : Frame} {i : Fin 512} {frameAlloc : Nat}

theorem walkFrom_snoc_eq_none (hwalk : s.walkFrom path = some t) :
    s.walkFrom (path ++ [i]) = none ↔
      isPageTablePresent (s.readEntry (s.entryPtr t i)) = false := by
  rw [PageState.walkFrom_snoc, hwalk, Option.bind_some, decodeEntry, PageState.entryAt]
  cases isPageTablePresent (s.readEntry (s.entryPtr t i)) <;> simp

theorem nextTable_of_some (hwalk : s.walkFrom path = some t)
    (h : s.walkFrom (path ++ [i]) = some t') :
    nextTable s (s.entryPtr t i) frameAlloc = (some (s.physToVirt t'.addr), s) := by
  cases hpresent : isPageTablePresent (s.readEntry (s.entryPtr t i)) with
  | false =>
      rw [(walkFrom_snoc_eq_none hwalk).mpr hpresent] at h
      cases h
  | true =>
      rw [PageState.walkFrom_snoc, hwalk, Option.bind_some, decodeEntry, PageState.entryAt,
        if_pos hpresent] at h
      cases h
      exact nextTable_of_present hpresent

theorem nextTable_of_link (hwalk : s.walkFrom path = some t)
    (h : s.walkFrom (path ++ [i]) = none) (hne : t'.addr ≠ 0)
    (hpop : (popFrameList s.frames frameAlloc).1 = t'.addr) :
    nextTable s (s.entryPtr t i) frameAlloc =
      (some (s.physToVirt t'.addr), linkTable s t i t' frameAlloc) := by
  rw [nextTable_of_ne ((walkFrom_snoc_eq_none hwalk).mp h) (hpop ▸ hne), hpop]
  rfl

end Level

/-- A table linked from the top of the stack. -/
theorem Stocked.link {s : PageState} (hun : s.Unshared) {path : List (Fin 512)} {t t' : Frame}
    {i : Fin 512} {list : Nat} {rest : List Nat} (hlen : path.length < 3)
    (hwalk : s.walkFrom path = some t) (hempty : s.walkFrom (path ++ [i]) = none)
    (h : Stocked s list (t'.addr :: rest)) :
    LevelStep s path [i] (some (s.physToVirt t'.addr), linkTable s t i t' list) ∧
      Stocked (linkTable s t i t' list) list rest ∧ UsedList (linkTable s t i t' list).frames list ∧
        ∀ q, q.length ≤ 4 → (linkTable s t i t' list).walkFrom q =
          if q = path ++ [i] then some t' else s.walkFrom q := by
  have hentry := (walkFrom_snoc_eq_none hwalk).mp hempty
  obtain ⟨hframe, hrep⟩ := popFrameList_rep h.rep
  have hgood := h.usable _ (List.mem_cons_self)
  have hspare := h.spare _ (List.mem_cons_self)
  have hwalks := (walkFrom_linkTable hun hlen hwalk hentry hframe hgood hspare).2
  refine ⟨levelStep_link hun hlen hwalk hentry hframe hgood hspare, ?_, ?_, hwalks⟩
  · refine ⟨by rw [linkTable_frames]; exact hrep, h.nodup.of_cons,
      fun a ha => h.usable a (List.mem_cons_of_mem _ ha), ?_⟩
    rintro a ha ⟨q, u, hq, hu, rfl⟩
    rw [hwalks q (by omega)] at hu
    split at hu
    · cases hu
      exact (List.nodup_cons.mp h.nodup).1 ha
    · exact h.spare _ (List.mem_cons_of_mem _ ha) ⟨q, u, hq, hu, rfl⟩
  · rw [linkTable_frames]
    exact popFrameList_used h.rep

/-! ## All levels -/

/-- Only the paths below the given one matter to the number of missing tables. -/
theorem tablesMissing_congr {s s' : PageState} {path indices : List (Fin 512)}
    (hsame : ∀ q ∈ pathsBelow path indices, s'.walkFrom q = s.walkFrom q) :
    tablesMissing s' path indices = tablesMissing s path indices := by
  apply List.countP_congr
  intro q hq
  rw [hsame q hq]

section Descend

variable {s : PageState} {path indices : List (Fin 512)} {t : Frame} {list : Nat}
  {stack : List Nat}

/-- With no table missing nothing is taken and nothing changes. -/
theorem descend_of_complete (hwalk : s.walkFrom path = some t)
    (hcomplete : tablesMissing s path indices = 0) :
    ∃ t', descend s (s.physToVirt t.addr) list indices = (some (s.physToVirt t'.addr), s) ∧
      s.walkFrom (path ++ indices) = some t' := by
  induction indices generalizing path t with
  | nil => exact ⟨t, rfl, by rw [List.append_nil, hwalk]⟩
  | cons i rest ih =>
      cases hnext : s.walkFrom (path ++ [i]) with
      | none => simp [tablesMissing_cons_none hnext] at hcomplete
      | some t₁ =>
          rw [tablesMissing_cons_some hnext] at hcomplete
          obtain ⟨t', hdescend, ht'⟩ := ih hnext hcomplete
          refine ⟨t', ?_, by rw [List.append_cons, ht']⟩
          have hptr : s.physToVirt t.addr + 8 * i.val = s.entryPtr t i := rfl
          rw [descend, hptr, nextTable_of_some hwalk hnext]
          exact hdescend

/-- A list at its bottom for good yields no table. -/
theorem descend_of_unused (hwalk : s.walkFrom path = some t) (hunused : ¬ UsedList s.frames list)
    (hmissing : tablesMissing s path indices ≠ 0) :
    descend s (s.physToVirt t.addr) list indices = (none, s) := by
  have hnull := popFrameList_null (not_not.mp hunused)
  induction indices generalizing path t with
  | nil => exact absurd rfl hmissing
  | cons i rest ih =>
      have hptr : s.physToVirt t.addr + 8 * i.val = s.entryPtr t i := rfl
      rw [descend, hptr]
      cases hnext : s.walkFrom (path ++ [i]) with
      | none =>
          rw [nextTable_of_null ((walkFrom_snoc_eq_none hwalk).mp hnext) (by rw [hnull]), hnull]
      | some t₁ =>
          rw [tablesMissing_cons_some hnext] at hmissing
          rw [nextTable_of_some hwalk hnext]
          exact ih hnext hmissing

/-- A level that is present already. -/
theorem levelStep_of_some (hun : s.Unshared) {i : Fin 512} {t' : Frame}
    (h : s.walkFrom (path ++ [i]) = some t') :
    LevelStep s path [i] (some (s.physToVirt t'.addr), s) := by
  obtain ⟨hstep, hsame⟩ := TreeStep.refl hun
  refine ⟨hstep, hsame, ?_⟩
  rintro virt ⟨⟩
  exact ⟨t', rfl, h⟩

/-- The effect of the levels on a list with enough frames. -/
structure DescendTakes (s : PageState) (path indices : List (Fin 512)) (list : Nat)
    (stack : List Nat) (result : Option Nat × PageState) : Prop where
  level : LevelStep s path indices result
  found : result.1.isSome
  stocked : Stocked result.2 list stack
  used : UsedList s.frames list → UsedList result.2.frames list
  tables : ∀ q, q.length ≤ 3 → (result.2.walkFrom q = none ↔
    s.walkFrom q = none ∧ q ∉ pathsBelow path indices)

/-- The effect of the levels on a list with too few frames. -/
structure DescendFails (s : PageState) (path indices : List (Fin 512)) (list : Nat)
    (result : Option Nat × PageState) : Prop where
  level : LevelStep s path indices result
  failed : result.1 = none
  dry : RanDry (UsedList s.frames list) result.2.frames list
  tables : ∀ q, q.length = path.length + indices.length →
    (result.2.walkFrom q = none ↔ s.walkFrom q = none)

/-- Linking a table leaves the tables missing below it. -/
theorem tablesMissing_linkTable {s s' : PageState} {path rest : List (Fin 512)} {i : Fin 512}
    {t' : Frame} (hlen : path.length + (rest.length + 1) ≤ 3)
    (hwalks : ∀ q, q.length ≤ 4 → s'.walkFrom q =
      if q = path ++ [i] then some t' else s.walkFrom q) :
    tablesMissing s' (path ++ [i]) rest = tablesMissing s (path ++ [i]) rest := by
  apply tablesMissing_congr
  intro q hq
  obtain ⟨hlow, hhigh⟩ := length_of_mem_pathsBelow hq
  rw [hwalks q (by simp at hhigh; omega), if_neg]
  rintro rfl
  omega

/-- With enough frames the levels take one for each missing table. -/
theorem descend_of_stocked (hun : s.Unshared) (hlen : path.length + indices.length ≤ 3)
    (hwalk : s.walkFrom path = some t) (hstock : Stocked s list stack)
    (henough : tablesMissing s path indices ≤ stack.length) :
    DescendTakes s path indices list (stack.drop (tablesMissing s path indices))
      (descend s (s.physToVirt t.addr) list indices) := by
  induction indices generalizing s path t stack with
  | nil =>
      obtain ⟨hstep, hsame⟩ := TreeStep.refl hun
      refine ⟨⟨hstep, hsame, ?_⟩, rfl, hstock, id, fun q _ => by simp [descend, pathsBelow]⟩
      rintro virt ⟨⟩
      exact ⟨t, rfl, by rw [List.append_nil]; exact hwalk⟩
  | cons i rest ih =>
      simp only [List.length_cons] at hlen
      have hptr : s.physToVirt t.addr + 8 * i.val = s.entryPtr t i := rfl
      cases hnext : s.walkFrom (path ++ [i]) with
      | some t₁ =>
          rw [tablesMissing_cons_some hnext] at henough ⊢
          rw [descend, hptr, nextTable_of_some hwalk hnext]
          have hrest := ih hun (by simp; omega) hnext hstock henough
          refine ⟨(levelStep_of_some hun hnext).cons hrest.level, hrest.found, hrest.stocked,
            hrest.used, fun q hq => ?_⟩
          rw [hrest.tables q hq, pathsBelow, List.mem_cons, not_or]
          refine and_congr_right fun hnone => ⟨fun h => ⟨?_, h⟩, And.right⟩
          rintro rfl
          rw [hnext] at hnone
          cases hnone
      | none =>
          rw [tablesMissing_cons_none hnext] at henough ⊢
          obtain _ | ⟨frame, stack⟩ := stack
          · simp at henough
          have hgood := hstock.usable frame List.mem_cons_self
          obtain ⟨t₁, rfl⟩ : ∃ t₁ : Frame, t₁.addr = frame :=
            ⟨hgood.toFrame, hgood.toFrame_addr⟩
          obtain ⟨hlevel, hstock₁, hused₁, hwalks⟩ := hstock.link hun (by omega) hwalk hnext
          rw [descend, hptr, nextTable_of_link hwalk hnext hgood.2.1 hstock.pop_cons.1]
          generalize linkTable s t i t₁ list = s₁ at *
          have hvirt : s.physToVirt t₁.addr = s₁.physToVirt t₁.addr :=
            (PageState.physToVirt_congr hlevel.step.offset _).symm
          have hwalk₁ : s₁.walkFrom (path ++ [i]) = some t₁ := by
            rw [hwalks _ (by simp; omega), if_pos rfl]
          have hcount := tablesMissing_linkTable hlen hwalks
          have hrest := ih hlevel.step.unshared (by simp; omega) hwalk₁ hstock₁
            (by rw [hcount]; simpa using henough)
          rw [hcount, ← hvirt] at hrest
          rw [List.drop_succ_cons]
          refine ⟨hlevel.cons hrest.level, hrest.found, hrest.stocked,
            fun _ => hrest.used hused₁, fun q hq => ?_⟩
          rw [hrest.tables q hq, hwalks q (by omega), pathsBelow, List.mem_cons, not_or]
          by_cases hq : q = path ++ [i] <;> simp [hq]

/-- With too few frames no table of the last level is created, and the list is popped
below its bottom. -/
theorem descend_of_short (hun : s.Unshared) (hlen : path.length + indices.length ≤ 3)
    (hwalk : s.walkFrom path = some t) (hstock : Stocked s list stack)
    (hshort : stack.length < tablesMissing s path indices) :
    DescendFails s path indices list (descend s (s.physToVirt t.addr) list indices) := by
  induction indices generalizing s path t stack with
  | nil => simp [tablesMissing, pathsBelow] at hshort
  | cons i rest ih =>
      simp only [List.length_cons] at hlen
      have hptr : s.physToVirt t.addr + 8 * i.val = s.entryPtr t i := rfl
      cases hnext : s.walkFrom (path ++ [i]) with
      | some t₁ =>
          rw [tablesMissing_cons_some hnext] at hshort
          rw [descend, hptr, nextTable_of_some hwalk hnext]
          have hrest := ih hun (by simp; omega) hnext hstock hshort
          refine ⟨(levelStep_of_some hun hnext).cons hrest.level, hrest.failed, hrest.dry,
            fun q hq => hrest.tables q ?_⟩
          simp only [List.length_append, List.length_nil, List.length_cons] at hq ⊢
          omega
      | none =>
          rw [tablesMissing_cons_none hnext] at hshort
          obtain _ | ⟨frame, stack⟩ := stack
          · -- the list is at its bottom and this level fails
            obtain ⟨hnull, hdry⟩ := hstock.pop_nil
            rw [descend, hptr, nextTable_of_null ((walkFrom_snoc_eq_none hwalk).mp hnext) hnull]
            obtain ⟨hstep, hsame⟩ := TreeStep.of_frames hun (popFrameList s.frames list).2
            have hwalks : PageState.walkFrom { s with frames := (popFrameList s.frames list).2 } =
              s.walkFrom := PageState.walkFrom_congr rfl rfl rfl
            constructor
            case level => exact ⟨hstep, hsame, by simp⟩
            case failed => rfl
            case dry =>
              dsimp only
              exact hdry
            case tables =>
              intro q _
              rw [hwalks]
          have hgood := hstock.usable frame List.mem_cons_self
          obtain ⟨t₁, rfl⟩ : ∃ t₁ : Frame, t₁.addr = frame :=
            ⟨hgood.toFrame, hgood.toFrame_addr⟩
          have hused := hstock.used
          obtain ⟨hlevel, hstock₁, hused₁, hwalks⟩ := hstock.link hun (by omega) hwalk hnext
          rw [descend, hptr, nextTable_of_link hwalk hnext hgood.2.1 hstock.pop_cons.1]
          generalize linkTable s t i t₁ list = s₁ at *
          have hvirt : s.physToVirt t₁.addr = s₁.physToVirt t₁.addr :=
            (PageState.physToVirt_congr hlevel.step.offset _).symm
          have hwalk₁ : s₁.walkFrom (path ++ [i]) = some t₁ := by
            rw [hwalks _ (by simp; omega), if_pos rfl]
          have hcount := tablesMissing_linkTable hlen hwalks
          have hrest := ih hlevel.step.unshared (by simp; omega) hwalk₁ hstock₁
            (by rw [hcount]; simpa using hshort)
          rw [← hvirt] at hrest
          refine ⟨hlevel.cons hrest.level, hrest.failed,
            ⟨fun _ => hrest.dry.1 hused₁, fun h => absurd hused h⟩, fun q hq => ?_⟩
          simp only [List.length_cons] at hq
          rw [hrest.tables q (by simp; omega), hwalks q (by omega)]
          have hne : q ≠ path ++ [i] := by
            rintro rfl
            obtain _ | _ := rest
            · -- only one table is missing, and there is a frame for it
              simp [tablesMissing, pathsBelow] at hshort
            · simp at hq
          rw [if_neg hne]

end Descend

end FroggyOs
