import FroggyOs.Paging.LargePages
import FroggyOs.Paging.Supply

/-!
# What the processor makes of the tables

The processor takes the address of a table from the bits 12 to 51 of an entry, and stops at a
level-3 or level-2 entry with bit 7 set, which maps a page of 1 GiB or 2 MiB. The paging code
leaves bit 51 out and knows no large pages. On a tree whose entries set neither of these bits
(`PageState.Plain`) both find the same frame, and the calls keep a tree so: they store entries of
their own, which hold usable frames, and zeros.

Access rights are left out. An access that the processor refuses does not happen.
-/

namespace FroggyOs

open ByteMemory Word64 RadixTree

/-! ## The walk of the processor -/

/-- The frame that a present entry holds in its bits 12 to 51. -/
def processorEntry (entry : Nat) : Option Frame :=
  if isPageTablePresent entry then some ⟨4096 * (entry / 4096 % 2 ^ 40), by omega, by omega⟩
  else none

/-- The 4 KiB frame of `addr` in the large page of `2 ^ k` bytes that an entry for `base` maps. -/
def inLargePage (k : Nat) (base : Frame) (addr : Nat) : Frame :=
  ⟨4096 * ((base.addr / 2 ^ k * 2 ^ k + addr % 2 ^ k) / 4096) % 2 ^ 64, by omega, by omega⟩

namespace PageState

/-- The frame in the bits 12 to 51 of CR3. -/
def processorRoot (s : PageState) : Frame :=
  ⟨4096 * (s.cr3.toNat / 4096 % 2 ^ 40), by omega, by omega⟩

/-- The frame to which the processor translates an address. -/
def processorFrame (s : PageState) (addr : Nat) : Option Frame := do
  let t ← processorEntry (s.entryAt s.processorRoot (pgd addr))
  let entry := s.entryAt t (pud addr)
  let t ← processorEntry entry
  if isLargePage entry then some (inLargePage 30 t addr)
  else
    let entry := s.entryAt t (pmd addr)
    let t ← processorEntry entry
    if isLargePage entry then some (inLargePage 21 t addr)
    else processorEntry (s.entryAt t (pt addr))

end PageState

/-! ## Plain trees -/

/-- A present entry `level` tables behind the root leaves bit 51 clear, and maps no large page. -/
def PlainEntry (level entry : Nat) : Prop :=
  isPageTablePresent entry = true →
    entry / 2 ^ 51 % 2 = 0 ∧ (level = 1 ∨ level = 2 → isLargePage entry = false)

/-- The entries of all tables are plain. -/
structure PageState.Plain (s : PageState) : Prop where
  root : s.cr3.toNat < 2 ^ 52
  entry : ∀ path t i, path.length < 4 → s.walkFrom path = some t →
    PlainEntry path.length (s.entryAt t i)

section Plain

variable {s : PageState} {path : List (Fin 512)} {t : Frame} {level entry addr : Nat}

theorem PlainEntry.processorEntry_eq (h : PlainEntry level entry) (hlt : entry < 2 ^ 64) :
    processorEntry entry = decodeEntry entry := by
  rw [processorEntry, decodeEntry]
  split
  case isTrue hpresent =>
    have hbit := (h hpresent).1
    congr 1
    apply Frame.ext
    dsimp only
    rw [pageTablePhysAddress_eq hlt]
    omega
  case isFalse => rfl

theorem PageState.Plain.root_eq (h : s.Plain) : s.processorRoot = s.root := by
  have hroot := h.root
  have hlow : s.cr3.toNat &&& not64 0xFFF = 4096 * (s.cr3.toNat / 4096) :=
    and_not64_low (k := 12) s.cr3.toNat_lt (by decide)
  apply Frame.ext
  change 4096 * (s.cr3.toNat / 4096 % 2 ^ 40) = s.cr3.toNat &&& not64 0xFFF
  rw [hlow]
  omega

/-- One step of the processor from the table at `path`. -/
theorem PageState.Plain.next (h : s.Plain) (hlen : path.length < 4)
    (hwalk : s.walkFrom path = some t) (i : Fin 512) :
    processorEntry (s.entryAt t i) = s.walkFrom (path ++ [i]) := by
  have hlt : s.entryAt t i < 2 ^ 64 := Mem.load_lt _ _ 8
  rw [PageState.walkFrom_snoc, hwalk, Option.bind_some,
    (h.entry path t i hlen hwalk).processorEntry_eq hlt]

/-- A present entry of level 3 or 2 is no large page. -/
theorem PageState.Plain.small (h : s.Plain) (hlen : path.length = 1 ∨ path.length = 2)
    (hwalk : s.walkFrom path = some t) {i : Fin 512} {t' : Frame}
    (hnext : s.walkFrom (path ++ [i]) = some t') : isLargePage (s.entryAt t i) = false := by
  have hlt : path.length < 4 := by omega
  rw [← h.next hlt hwalk, processorEntry] at hnext
  split at hnext
  case isTrue hpresent => exact (h.entry path t i hlt hwalk hpresent).2 hlen
  case isFalse => cases hnext

/-- On a plain tree the processor finds the frame that the paging code finds. -/
theorem PageState.Plain.processorFrame_eq (h : s.Plain) (addr : Nat) :
    s.processorFrame addr = s.translate addr := by
  have hlevel₃ := s.walkFrom_snoc [pgd addr] (pud addr)
  have hlevel₂ := s.walkFrom_snoc [pgd addr, pud addr] (pmd addr)
  have hlevel₁ := s.walkFrom_snoc [pgd addr, pud addr, pmd addr] (pt addr)
  simp only [List.cons_append, List.nil_append] at hlevel₃ hlevel₂ hlevel₁
  have hlevel₄ : processorEntry (s.entryAt s.root (pgd addr)) = s.walkFrom [pgd addr] :=
    h.next (by decide : ([] : List (Fin 512)).length < 4) rfl (pgd addr)
  rw [PageState.translate, pagePath]
  simp only [PageState.processorFrame, h.root_eq, hlevel₄, Option.bind_eq_bind]
  cases h₁ : s.walkFrom [pgd addr] with
  | none => simp only [hlevel₁, hlevel₂, hlevel₃, h₁, Option.bind_none]
  | some t₁ =>
      have hnext₁ : processorEntry (s.entryAt t₁ (pud addr)) = s.walkFrom [pgd addr, pud addr] :=
        h.next (by simp) h₁ (pud addr)
      rw [Option.bind_some, hnext₁]
      cases h₂ : s.walkFrom [pgd addr, pud addr] with
      | none => simp only [hlevel₁, hlevel₂, h₂, Option.bind_none]
      | some t₂ =>
          have hnext₂ : processorEntry (s.entryAt t₂ (pmd addr)) =
              s.walkFrom [pgd addr, pud addr, pmd addr] := h.next (by simp) h₂ (pmd addr)
          rw [Option.bind_some, h.small (.inl rfl) h₁ h₂, if_neg Bool.false_ne_true, hnext₂]
          cases h₃ : s.walkFrom [pgd addr, pud addr, pmd addr] with
          | none => simp only [hlevel₁, h₃, Option.bind_none]
          | some t₃ =>
              rw [Option.bind_some, h.small (.inr rfl) h₂ h₃, if_neg Bool.false_ne_true]
              exact h.next (by simp) h₃ (pt addr)

theorem plainEntry_zero (level : Nat) : PlainEntry level 0 := by
  intro hpresent
  cases hpresent

/-- The entries that the paging code stores are plain. -/
theorem plainEntry_encodeEntry {frame : Nat} (h : IsFrame frame) (level : Nat) :
    PlainEntry level (encodeEntry frame) := by
  have haligned := h.1
  have hlt := h.2.2
  have hentry : encodeEntry frame = frame + 3 := by
    rw [encodeEntry_eq (by omega)]
    omega
  refine fun _ => ⟨by omega, fun _ => ?_⟩
  have hbit : (encodeEntry frame).testBit 7 = false := by
    rw [Nat.testBit_eq_decide_div_mod_eq, hentry]
    simp only [decide_eq_false_iff_not]
    omega
  have hand : encodeEntry frame &&& 1 <<< 7 = 0 := by
    rw [Nat.one_shiftLeft, Nat.and_two_pow, hbit]
    rfl
  rw [isLargePage, hand]
  rfl

end Plain

/-! ## The entries that the calls store -/

/-- Every entry of a table of `s'` is the one that it was in `s`, or is empty, or holds a usable
frame. -/
def EntriesFrom (s s' : PageState) : Prop :=
  ∀ path t i, path.length < 4 → s'.walkFrom path = some t →
    s.walkFrom path = some t ∧ s'.entryAt t i = s.entryAt t i ∨
      s'.entryAt t i = 0 ∨ ∃ frame, IsFrame frame ∧ s'.entryAt t i = encodeEntry frame

section EntriesFrom

variable {s s' s'' : PageState} {path indices : List (Fin 512)} {t t' : Frame} {list v : Nat}
  {stack : List Nat}

theorem EntriesFrom.trans (h : EntriesFrom s s') (h' : EntriesFrom s' s'') : EntriesFrom s s'' := by
  intro path t i hlen hwalk
  obtain ⟨hold, hsame⟩ | hnew := h' path t i hlen hwalk
  · rw [hsame]
    exact h path t i hlen hold
  · exact .inr hnew

/-- The tables and their entries are the same. -/
theorem EntriesFrom.of_same (hwalks : ∀ q, q.length < 4 → s'.walkFrom q = s.walkFrom q)
    (hentries : ∀ q u i, q.length < 4 → s.walkFrom q = some u → s'.entryAt u i = s.entryAt u i) :
    EntriesFrom s s' := by
  intro path t i hlen hwalk
  rw [hwalks path hlen] at hwalk
  exact .inl ⟨hwalk, hentries path t i hlen hwalk⟩

theorem EntriesFrom.of_tables (htables : s'.tables = s.tables) (hoffset : s'.offset = s.offset)
    (hcr3 : s'.cr3 = s.cr3) : EntriesFrom s s' := by
  have hwalk := PageState.walkFrom_congr htables hoffset hcr3
  refine .of_same (fun q _ => by rw [hwalk]) fun q u i _ _ => ?_
  simp only [PageState.entryAt, PageState.readEntry, PageState.entryPtr,
    PageState.physToVirt_congr hoffset, htables]

theorem PageState.Plain.step (h : s.Plain) (hcr3 : s'.cr3 = s.cr3) (hentries : EntriesFrom s s') :
    s'.Plain := by
  refine ⟨by rw [hcr3]; exact h.root, fun path t i hlen hwalk => ?_⟩
  obtain ⟨hold, hsame⟩ | hzero | ⟨frame, hframe, hentry⟩ := hentries path t i hlen hwalk
  · rw [hsame]
    exact h.entry path t i hlen hold
  · rw [hzero]
    exact plainEntry_zero _
  · rw [hentry]
    exact plainEntry_encodeEntry hframe _

/-- A table that is linked is empty, and its link holds its frame. -/
theorem Stocked.link_entries {i : Fin 512} (hun : s.Unshared) (hlen : path.length < 3)
    (hwalk : s.walkFrom path = some t) (hempty : s.walkFrom (path ++ [i]) = none)
    (hstock : Stocked s list (t'.addr :: stack)) : EntriesFrom s (linkTable s t i t' list) := by
  have hgood := hstock.usable _ List.mem_cons_self
  have hspare := hstock.spare _ List.mem_cons_self
  have hpop := hstock.pop_cons.1
  obtain ⟨-, -, -, hwalks⟩ := hstock.link hun hlen hwalk hempty
  have hother : ∀ q u, q.length < 4 → s.walkFrom q = some u → u ≠ t' := by
    rintro q u hq hu rfl
    exact hspare ⟨q, u, hq, hu, rfl⟩
  intro q u j hq hu
  rw [hwalks q (Nat.le_of_lt hq)] at hu
  split at hu
  case isTrue =>
    cases hu
    have htable := hother path t (by omega) hwalk
    exact .inr (.inl (linkTable_entryAt_new hpop hgood (Ne.symm htable) j))
  case isFalse =>
    by_cases hlink : u = t ∧ j = i
    · obtain ⟨rfl, rfl⟩ := hlink
      exact .inr (.inr ⟨t'.addr, hgood, linkTable_entryAt_link⟩)
    · refine .inl ⟨hu, linkTable_entryAt_other hpop hgood ?_ (hother q u hq hu)⟩
      exact not_and_or.mp hlink

/-- The levels of `map_to_page` store links only. -/
theorem descend_entries (hun : s.Unshared) (hlen : path.length + indices.length ≤ 3)
    (hwalk : s.walkFrom path = some t) (hstock : Stocked s list stack)
    (henough : tablesMissing s path indices ≤ stack.length) :
    EntriesFrom s (descend s (s.physToVirt t.addr) list indices).2 := by
  induction indices generalizing s path t stack with
  | nil => exact .of_tables rfl rfl rfl
  | cons i rest ih =>
      simp only [List.length_cons] at hlen
      have hptr : s.physToVirt t.addr + 8 * i.val = s.entryPtr t i := rfl
      cases hnext : s.walkFrom (path ++ [i]) with
      | some t₁ =>
          rw [tablesMissing_cons_some hnext] at henough
          rw [descend, hptr, nextTable_of_some hwalk hnext]
          exact ih hun (by simp; omega) hnext hstock henough
      | none =>
          rw [tablesMissing_cons_none hnext] at henough
          obtain _ | ⟨frame, stack⟩ := stack
          · simp at henough
          have hgood := hstock.usable frame List.mem_cons_self
          obtain ⟨t₁, rfl⟩ : ∃ t₁ : Frame, t₁.addr = frame :=
            ⟨hgood.toFrame, hgood.toFrame_addr⟩
          have hpop := hstock.pop_cons.1
          have hfirst := hstock.link_entries hun (by omega) hwalk hnext
          obtain ⟨hlevel, hstock₁, -, hwalks⟩ := hstock.link hun (by omega) hwalk hnext
          rw [descend, hptr, nextTable_of_link hwalk hnext hgood.2.1 hpop]
          generalize linkTable s t i t₁ list = s₁ at *
          have hvirt : s.physToVirt t₁.addr = s₁.physToVirt t₁.addr :=
            (PageState.physToVirt_congr hlevel.step.offset _).symm
          have hwalk₁ : s₁.walkFrom (path ++ [i]) = some t₁ := by
            rw [hwalks _ (by simp; omega), if_pos rfl]
          have hcount := tablesMissing_linkTable hlen hwalks
          rw [hvirt]
          exact hfirst.trans (ih hlevel.step.unshared (by simp; omega) hwalk₁ hstock₁
            (by rw [hcount]; simpa using henough))

/-- A store to an entry of the lowest level. -/
theorem leafWrite_entries (hun : s.Unshared) (i : Fin 512) (hlen : path.length = 3)
    (hwalk : s.walkFrom path = some t)
    (hv : v = 0 ∨ ∃ frame, IsFrame frame ∧ v = encodeEntry frame) :
    EntriesFrom s (s.writeEntry (s.entryPtr t i) v) := by
  have hlt : v < 2 ^ 64 := by
    obtain rfl | ⟨frame, hframe, rfl⟩ := hv
    · decide
    · exact encodeEntry_lt hframe.toFrame.lt
  obtain ⟨-, hwalks, -⟩ := leafWrite_spec hun i hlt hlen hwalk
  intro q u j hq hu
  rw [hwalks q hq] at hu
  by_cases hleaf : u = t ∧ j = i
  · obtain ⟨rfl, rfl⟩ := hleaf
    rw [PageState.entryAt_writeEntry_same _ _ _ hlt]
    exact .inr hv
  · exact .inl ⟨hu, s.entryAt_writeEntry_ne v (not_and_or.mp hleaf)⟩

/-- `unmap_page` stores a zero, or nothing. -/
theorem unmapPage_entries (hun : s.Unshared) (addr : Nat) :
    EntriesFrom s (unmapPage s addr).2 := by
  obtain ⟨⟨u, hu, -⟩, hsame, -⟩ | ⟨-, hsame⟩ := unmapPage_writes s addr
  · have hpath : pagePath addr = [pgd addr, pud addr, pmd addr] ++ [pt addr] := rfl
    rw [PageState.translate, hpath, PageState.walkFrom_snoc] at hu
    obtain ⟨t, ht, -⟩ := Option.bind_eq_some_iff.mp hu
    have hlast : s.lastEntryFor addr = (t, pt addr) := lastEntry_of_walk ht
    rw [hsame, hlast]
    exact leafWrite_entries hun (pt addr) rfl ht (.inl rfl)
  · rw [hsame]
    exact .of_tables rfl rfl rfl

end EntriesFrom

end FroggyOs
