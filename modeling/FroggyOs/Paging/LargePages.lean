import FroggyOs.Paging.Writes

/-!
# Large pages

The processor takes a present level-3 or level-2 entry with bit 7 set for the mapping of a
1 GiB or 2 MiB page. The paging code never looks at the bit: it follows such an entry as if
it referred to a table, and reads and writes entries inside the page. `IsPageTable` are the
tables the processor walks, `MappedAsData` the frames it translates to. A call writes only
inside page tables exactly when the table at which its walk ends is one, or when there is
nothing for it to write.
-/

namespace FroggyOs

open ByteMemory Word64 RadixTree

/-- `PS`, bit 7 of an entry of level 3 or 2. -/
def isLargePage (entry : Nat) : Bool := entry &&& (1 <<< 7) != 0

namespace PageState

/-- The page tables on the way along a path, large pages not followed. -/
inductive PageTableAt (s : PageState) : List (Fin 512) → Frame → Prop
  | root : PageTableAt s [] s.root
  | next {path : List (Fin 512)} {t t' : Frame} {i : Fin 512} (htable : PageTableAt s path t)
      (hlen : path.length < 3) (hsmall : path = [] ∨ isLargePage (s.entryAt t i) = false)
      (hentry : decodeEntry (s.entryAt t i) = some t') : PageTableAt s (path ++ [i]) t'

def IsPageTable (s : PageState) (t : Frame) : Prop := ∃ path, s.PageTableAt path t

/-- The frame belongs to a page of 4 KiB, 2 MiB or 1 GiB that some entry maps. -/
def MappedAsData (s : PageState) (u : Frame) : Prop :=
  ∃ path t i base, s.PageTableAt path t ∧ decodeEntry (s.entryAt t i) = some base ∧
    (path.length = 3 ∧ u = base ∨
      path.length = 2 ∧ isLargePage (s.entryAt t i) ∧ u.addr / 2 ^ 21 = base.addr / 2 ^ 21 ∨
      path.length = 1 ∧ isLargePage (s.entryAt t i) ∧ u.addr / 2 ^ 30 = base.addr / 2 ^ 30)

end PageState

/-- The frame was handed out for a new table between `s` and `s'`. -/
def NewTable (s s' : PageState) (u : Frame) : Prop :=
  ∃ new, s'.created = new ++ s.created ∧ u.addr ∈ new

/-- The frames in `D` keep their contents. -/
def KeepsFrames (D : Frame → Prop) (s s' : PageState) : Prop :=
  ∀ u, D u → Set.EqOn s'.tables.byte s.tables.byte (s.page u)

/-- Only page tables are written, old ones and new ones. -/
def WritesOnlyTables (s s' : PageState) : Prop :=
  KeepsFrames (fun u => ¬ s.IsPageTable u ∧ ¬ NewTable s s' u) s s'

/-- A frame that holds data: mapped, and no page table. -/
def PageState.IsDataFrame (s : PageState) (u : Frame) : Prop :=
  s.MappedAsData u ∧ ¬ s.IsPageTable u

/-- No byte of a frame that holds data changes. -/
def KeepsData (s s' : PageState) : Prop :=
  KeepsFrames (fun u => s.IsDataFrame u ∧ ¬ NewTable s s' u) s s'

/-! ## When a call writes -/

/-- `map_to_page` has something to write: a leaf entry other than the present one, or a
link to a new table. -/
def MapWrites (s : PageState) (addr frame frameAlloc : Nat) : Prop :=
  s.physToVirt s.root.addr ≠ 0 ∧
    match s.walkFrom [pgd addr, pud addr, pmd addr] with
    | some t => s.entryAt t (pt addr) ≠ encodeEntry frame
    | none => (popFrameList s.frames frameAlloc).1 ≠ 0

/-- `unmap_page` finds an entry that holds a frame. -/
def UnmapWrites (s : PageState) (addr : Nat) : Prop :=
  ∃ t, s.translate addr = some t ∧ t.addr ≠ 0

section KeepsFrames

variable {s s' : PageState} {e : Frame × Fin 512} {new : List Nat} {D : Frame → Prop}

/-- A call that changes one entry and fills new tables keeps the frames in `D` if and only
if the entry lies outside of them or keeps its value. -/
theorem keepsFrames_iff (hoffset : s'.offset = s.offset)
    (hwithin : WritesWithin s s' (s.entryBytes e ∪ s.pages new))
    (hframes : ∀ a ∈ new, IsFrame a) (hD : ∀ u, D u → u.addr ∉ new) :
    KeepsFrames D s s' ↔ (D e.1 → s'.entryAt e.1 e.2 = s.entryAt e.1 e.2) := by
  have hptr : s'.entryPtr e.1 e.2 = s.entryPtr e.1 e.2 := by
    simp only [PageState.entryPtr, PageState.physToVirt_congr hoffset]
  constructor
  · intro hkeep hin
    rw [PageState.entryAt, PageState.entryAt, hptr]
    exact Mem.load_congr fun x hx => hkeep e.1 hin (entryBytes_subset_page s e.1 e.2 hx)
  · intro hentry u hu x hx
    have hnew : x ∉ s.pages new := not_mem_pages hframes (hD u hu) hx
    by_cases hin : x ∈ s.entryBytes e
    · have htable : u = e.1 := by
        by_contra hne
        exact not_mem_page (Ne.symm hne) hx (entryBytes_subset_page s e.1 e.2 hin)
      have hsame := hentry (htable ▸ hu)
      rw [PageState.entryAt, PageState.entryAt, hptr] at hsame
      exact Mem.byte_eq_of_load_eq hsame hin
    · exact hwithin fun hor => hor.elim hin hnew

end KeepsFrames

/-! ## One call -/

section Calls

variable {s : PageState} {addr frame frameAlloc pml4 : Nat} {D : Frame → Prop}

/-- The call writes in exactly the cases in which the last entry changes. -/
theorem entryAfter_ne_iff (hnull : s.physToVirt s.root.addr ≠ 0) :
    entryAfter s (encodeEntry frame) frameAlloc (pt addr) s.root [pgd addr, pud addr, pmd addr] ≠
      s.entryAt (s.lastEntryFor addr).1 (s.lastEntryFor addr).2 ↔
        MapWrites s addr frame frameAlloc := by
  rw [MapWrites, and_iff_right hnull, entryAfter, PageState.lastEntryFor]
  cases hwalk : s.walkFrom [pgd addr, pud addr, pmd addr] with
  | some t =>
      have hwalk' : walk decodeEntry s.entryAt s.root [pgd addr, pud addr, pmd addr] = some t :=
        hwalk
      rw [hwalk', lastEntry_of_walk hwalk', Option.isSome_some, if_pos rfl]
      exact ne_comm
  | none =>
      have hwalk' : walk decodeEntry s.entryAt s.root [pgd addr, pud addr, pmd addr] = none := hwalk
      have hempty := lastEntry_of_none (pt addr) hwalk'
      rw [hwalk', Option.isSome_none, if_neg (by decide)]
      split
      case isTrue hpop => simp [hpop]
      case isFalse hpop =>
        refine ⟨fun _ => hpop, fun _ heq => ?_⟩
        -- a link is present, the entry that it replaces is not
        have hpresent := isPageTablePresent_encodeEntry (popFrameList_fst_lt s.frames frameAlloc)
        rw [← heq, decodeEntry, if_pos hpresent] at hempty
        cases hempty

theorem mapToPage_keepsFrames_iff (hroot : StartsAtRoot s pml4) (hframe : frame < 2 ^ 64)
    (hfresh : FreshTables s (mapToPage s addr frame frameAlloc pml4).2) :
    KeepsFrames (fun u => D u ∧ ¬ NewTable s (mapToPage s addr frame frameAlloc pml4).2 u) s
        (mapToPage s addr frame frameAlloc pml4).2 ↔
      (MapWrites s addr frame frameAlloc → ¬ D (s.lastEntryFor addr).1) := by
  by_cases hnull : s.physToVirt s.root.addr = 0
  · rw [mapToPage_of_null hroot hnull]
    exact iff_of_true (fun _ _ _ _ => rfl) fun hwrites => absurd hnull hwrites.1
  · obtain ⟨new, hnew, hframes, hlast, hbelow, hvalue⟩ :=
      mapToPage_writes hroot hnull hframe hfresh
    have hnewTable : ∀ u, NewTable s (mapToPage s addr frame frameAlloc pml4).2 u ↔
        u.addr ∈ new := by
      refine fun u => ⟨?_, fun hu => ⟨new, hnew, hu⟩⟩
      rintro ⟨new', hnew', hu⟩
      rwa [List.append_cancel_right (hnew.symm.trans hnew')]
    have hkeeps := keepsFrames_iff (e := s.lastEntryFor addr)
      (D := fun u => D u ∧ ¬ NewTable s (mapToPage s addr frame frameAlloc pml4).2 u)
      hbelow.offset hbelow.within hframes fun u hu hmem => hu.2 ((hnewTable u).mpr hmem)
    rw [hkeeps, hvalue, ← entryAfter_ne_iff hnull, hnewTable, and_iff_left hlast]
    exact ⟨fun h hne hin => hne (h hin), fun h hin => not_not.mp fun hne => h hne hin⟩

/-- `unmap_page` clears the leaf entry at which its walk ends, or writes nothing. -/
theorem unmapPage_writes (s : PageState) (addr : Nat) :
    (UnmapWrites s addr ∧ (unmapPage s addr).2 =
      s.writeEntry (s.entryPtr (s.lastEntryFor addr).1 (s.lastEntryFor addr).2) 0 ∧
      s.entryAt (s.lastEntryFor addr).1 (s.lastEntryFor addr).2 ≠ 0) ∨
    (¬ UnmapWrites s addr ∧ (unmapPage s addr).2 = s) := by
  have hpath : pagePath addr = [pgd addr, pud addr, pmd addr] ++ [pt addr] := rfl
  rw [UnmapWrites, PageState.translate, hpath, PageState.walkFrom_snoc, unmapPage,
    PageState.fetchPageTableEntry_eq]
  cases hwalk : s.walkFrom [pgd addr, pud addr, pmd addr] with
  | none => simp
  | some t =>
      have hlast : s.lastEntryFor addr = (t, pt addr) := lastEntry_of_walk hwalk
      rw [hlast, Option.bind_some, Option.bind_some, decodeEntry]
      cases hpresent : isPageTablePresent (s.entryAt t (pt addr)) with
      | false => simp
      | true =>
          by_cases hframe : pageTablePhysAddress (s.entryAt t (pt addr)) = 0
          · have hread : pageTablePhysAddress (s.readEntry (s.entryPtr t (pt addr))) = 0 := hframe
            simp [hframe, hread]
          · have hread : pageTablePhysAddress (s.readEntry (s.entryPtr t (pt addr))) ≠ 0 := hframe
            left
            refine ⟨⟨_, rfl, hframe⟩, by simp [hread], fun hzero => ?_⟩
            rw [hzero] at hpresent
            cases hpresent

theorem unmapPage_keepsFrames_iff :
    KeepsFrames (fun u => D u ∧ ¬ NewTable s (unmapPage s addr).2 u) s (unmapPage s addr).2 ↔
      (UnmapWrites s addr → ¬ D (s.lastEntryFor addr).1) := by
  obtain ⟨hwrites, hstate, hne⟩ | ⟨hnot, hstate⟩ := unmapPage_writes s addr
  · rw [hstate]
    generalize hs' :
      s.writeEntry (s.entryPtr (s.lastEntryFor addr).1 (s.lastEntryFor addr).2) 0 = s'
    have hwithin : WritesWithin s s' (s.entryBytes (s.lastEntryFor addr) ∪ s.pages []) := by
      rw [← hs']
      exact (writesWithin_writeEntry _ _ _).mono Set.subset_union_left
    have hvalue : s'.entryAt (s.lastEntryFor addr).1 (s.lastEntryFor addr).2 = 0 := by
      rw [← hs']
      exact PageState.entryAt_writeEntry_same _ _ _ (by decide)
    have hcreated : s'.created = [] ++ s.created := by rw [← hs', PageState.writeEntry_created]; rfl
    have hnewTable : ∀ u, ¬ NewTable s s' u := by
      rintro u ⟨new, hnew, hu⟩
      rw [← List.append_cancel_right (hcreated.symm.trans hnew)] at hu
      cases hu
    rw [keepsFrames_iff (by rw [← hs', PageState.writeEntry_offset]) hwithin (by simp) (by simp),
      hvalue, and_iff_left (hnewTable _)]
    exact ⟨fun h _ hin => hne (h hin).symm, fun h hin => absurd hin (h hwrites)⟩
  · rw [hstate]
    exact iff_of_true (fun _ _ _ _ => rfl) fun hwrites => absurd hwrites hnot

end Calls

/-! ## Large pages on the path -/

/-- No present level-3 or level-2 entry that the walk along the path of `addr` reads maps a
large page. -/
def PageState.NoLargePage (s : PageState) (addr : Nat) : Prop :=
  ∀ e ∈ (s.entriesRead s.root [pgd addr, pud addr, pmd addr]).tail,
    isLargePage (s.entryAt e.1 e.2) = false

section Path

variable {s : PageState} {addr : Nat} {t base : Frame}

theorem lastEntry_isPageTable {path indices : List (Fin 512)} (leaf : Fin 512)
    (htable : s.PageTableAt path t) (hlen : path.length + indices.length ≤ 3)
    (hsmall : ∀ e ∈ s.entriesRead t indices, isLargePage (s.entryAt e.1 e.2) = false) :
    s.IsPageTable (s.lastEntry leaf t indices).1 := by
  induction indices generalizing path t with
  | nil => exact ⟨path, htable⟩
  | cons i rest ih =>
      rw [PageState.entriesRead] at hsmall
      rw [PageState.lastEntry]
      rw [List.length_cons] at hlen
      cases hentry : decodeEntry (s.entryAt t i) with
      | none => exact ⟨path, htable⟩
      | some t' =>
          rw [hentry] at hsmall
          have hfirst : isLargePage (s.entryAt t i) = false := hsmall (t, i) List.mem_cons_self
          have hnext := htable.next (by omega) (.inr hfirst) hentry
          exact ih hnext (by simp; omega) fun e he => hsmall e (List.mem_cons_of_mem _ he)

/-- Without a large page on the path the walk ends in a page table. -/
theorem PageState.NoLargePage.isPageTable (h : s.NoLargePage addr) :
    s.IsPageTable (s.lastEntryFor addr).1 := by
  rw [PageState.NoLargePage, PageState.entriesRead] at h
  rw [PageState.lastEntryFor, PageState.lastEntry]
  cases hentry : decodeEntry (s.entryAt s.root (pgd addr)) with
  | none => exact ⟨[], .root⟩
  | some t' =>
      rw [hentry] at h
      have hnext := PageTableAt.next .root (by decide) (.inl rfl) hentry
      exact lastEntry_isPageTable _ hnext (by simp) h

/-- At a 2 MiB page the walk ends in the page itself. -/
theorem lastEntryFor_of_largePage (htable : s.PageTableAt [pgd addr, pud addr] t)
    (hwalk : s.walkFrom [pgd addr, pud addr] = some t)
    (hlarge : isLargePage (s.entryAt t (pmd addr)) = true)
    (hentry : decodeEntry (s.entryAt t (pmd addr)) = some base) :
    s.MappedAsData base ∧ s.lastEntryFor addr = (base, pt addr) := by
  refine ⟨⟨_, t, _, base, htable, hentry, .inr (.inl ⟨rfl, hlarge, rfl⟩)⟩, ?_⟩
  have hwalk' : s.walkFrom ([pgd addr, pud addr] ++ [pmd addr]) = some base := by
    rw [PageState.walkFrom_snoc, hwalk]
    exact hentry
  exact lastEntry_of_walk hwalk'

end Path

/-- `map_to_page` and `unmap_page` write only inside page tables, and change no data, if and
only if they write nothing or their walk ends in a page table, and in no data frame. It ends
in a page table when there is no large page on the path. -/
theorem writesOnlyTables_iff (s : PageState) (addr : Nat) :
    (∀ frame frameAlloc pml4 : Nat, StartsAtRoot s pml4 → frame < 2 ^ 64 →
      FreshTables s (mapToPage s addr frame frameAlloc pml4).2 →
        (WritesOnlyTables s (mapToPage s addr frame frameAlloc pml4).2 ↔
          (MapWrites s addr frame frameAlloc → s.IsPageTable (s.lastEntryFor addr).1)) ∧
        (KeepsData s (mapToPage s addr frame frameAlloc pml4).2 ↔
          (MapWrites s addr frame frameAlloc → ¬ s.IsDataFrame (s.lastEntryFor addr).1))) ∧
    (WritesOnlyTables s (unmapPage s addr).2 ↔
      (UnmapWrites s addr → s.IsPageTable (s.lastEntryFor addr).1)) ∧
    (KeepsData s (unmapPage s addr).2 ↔
      (UnmapWrites s addr → ¬ s.IsDataFrame (s.lastEntryFor addr).1)) ∧
    (s.NoLargePage addr → s.IsPageTable (s.lastEntryFor addr).1) := by
  have hnot : (¬ ¬ s.IsPageTable (s.lastEntryFor addr).1) ↔
      s.IsPageTable (s.lastEntryFor addr).1 := not_not
  refine ⟨fun frame frameAlloc pml4 hroot hframe hfresh => ⟨?_, ?_⟩, ?_, ?_, fun h => h.isPageTable⟩
  · rw [← hnot]
    exact mapToPage_keepsFrames_iff hroot hframe hfresh
  · exact mapToPage_keepsFrames_iff hroot hframe hfresh
  · rw [← hnot]
    exact unmapPage_keepsFrames_iff
  · exact unmapPage_keepsFrames_iff

/-- Tables in the frames 0x1000, 0x2000 and 0x3000, and a 2 MiB page at 0x200000. -/
def largePageMapped : PageState where
  tables := (((⟨fun _ => 0⟩ : Mem).put 0x1000 pageTableEntry 0x2003).put 0x2000 pageTableEntry
    0x3003).put 0x3000 pageTableEntry 0x200083
  frames := ⟨fun _ => 0⟩
  offset := 0
  cr3 := 0x1000
  created := []

/-- The three tables and the large page. -/
def level3Table : Frame := ⟨0x2000, by decide, by decide⟩
def level2Table : Frame := ⟨0x3000, by decide, by decide⟩
def largePage : Frame := ⟨0x200000, by decide, by decide⟩

theorem largePageMapped_readEntry {i : Fin 512} (hi : i ≠ 0) {t : Nat}
    (ht : t ∈ [0x1000, 0x2000, 0x3000]) : largePageMapped.readEntry (t + 8 * i.val) = 0 := by
  have hpos : i.val ≠ 0 := fun h => hi (Fin.ext h)
  have hlt := i.isLt
  simp only [List.mem_cons, List.not_mem_nil, or_false] at ht
  rw [PageState.readEntry, largePageMapped, Mem.get_put_disjoint (by simp; omega),
    Mem.get_put_disjoint (by simp; omega), Mem.get_put_disjoint (by simp; omega)]
  exact Mem.load_zero _ _

/-- Each of the tables has one entry. -/
theorem largePageMapped_decode {t t' : Frame} {i : Fin 512} (ht : t.addr ∈ [0x1000, 0x2000, 0x3000])
    (hentry : decodeEntry (largePageMapped.entryAt t i) = some t') : i = 0 := by
  by_contra hi
  have hvirt : largePageMapped.physToVirt t.addr = t.addr := add64_zero t.lt
  rw [PageState.entryAt, PageState.entryPtr, hvirt, largePageMapped_readEntry hi ht,
    decodeEntry_zero] at hentry
  cases hentry

theorem largePageMapped_tables {path : List (Fin 512)} {t : Frame}
    (h : largePageMapped.PageTableAt path t) :
    path = [] ∧ t = largePageMapped.root ∨ path = [0] ∧ t = level3Table ∨
      path = [0, 0] ∧ t = level2Table := by
  induction h with
  | root => exact .inl ⟨rfl, rfl⟩
  | @next path t t' i _ hlen hsmall hentry ih =>
      obtain ⟨rfl, rfl⟩ | ⟨rfl, rfl⟩ | ⟨rfl, rfl⟩ := ih
      · obtain rfl := largePageMapped_decode (by decide) hentry
        exact .inr (.inl ⟨rfl, (Option.some.inj (hentry.symm.trans (by decide)))⟩)
      · obtain rfl := largePageMapped_decode (by decide) hentry
        exact .inr (.inr ⟨rfl, (Option.some.inj (hentry.symm.trans (by decide)))⟩)
      · obtain rfl := largePageMapped_decode (by decide) hentry
        -- the entry of the level-2 table maps the large page
        obtain hnil | hsmall := hsmall
        · cases hnil
        · exact absurd hsmall (by decide)

/-- Mapping a page inside the 2 MiB page writes the entry into the page. -/
theorem not_keepsData_largePage :
    largePageMapped.IsDataFrame largePage ∧
      ¬ KeepsData largePageMapped (mapToPage largePageMapped 0x1000 0x7000 0x100 0).2 := by
  have hlevel3 : largePageMapped.PageTableAt [pgd 0x1000] level3Table :=
    .next .root (by decide) (.inl rfl) (by decide)
  have htable : largePageMapped.PageTableAt [pgd 0x1000, pud 0x1000] level2Table :=
    .next hlevel3 (by decide) (.inr (by decide)) (by decide)
  have hentry : decodeEntry (largePageMapped.entryAt level2Table (pmd 0x1000)) =
      some largePage := by decide
  obtain ⟨hmapped, hlast⟩ := lastEntryFor_of_largePage htable (by decide) (by decide) hentry
  have hdata : largePageMapped.IsDataFrame largePage := by
    refine ⟨hmapped, ?_⟩
    rintro ⟨path, hpath⟩
    obtain ⟨-, h⟩ | ⟨-, h⟩ | ⟨-, h⟩ := largePageMapped_tables hpath <;> exact absurd h (by decide)
  have hwrites : MapWrites largePageMapped 0x1000 0x7000 0x100 := by
    refine ⟨by decide, ?_⟩
    have hwalk :
        largePageMapped.walkFrom [pgd 0x1000, pud 0x1000, pmd 0x1000] = some largePage := by
      decide
    rw [hwalk]
    decide
  refine ⟨hdata, fun hkeeps => ?_⟩
  have hnot := (mapToPage_keepsFrames_iff (startsAtRoot_of_aligned (by decide) (.inl rfl))
    (by decide) ⟨[], by decide, by simp, by simp⟩).mp hkeeps hwrites
  rw [hlast] at hnot
  exact hnot hdata

end FroggyOs
