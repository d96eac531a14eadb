import FroggyOs.Library.Radix
import FroggyOs.Paging.Basic

/-!
# The table memory as a radix tree

A `Frame` is a page-aligned physical address. Distinct frames have disjoint images
in the direct map whatever its offset is, so the memory behind the direct map is a
family of tables indexed by frames, and a store to one entry of one table is an
update of that family at one point. The walk of `fetch_page_table_entry` is then
the walk of the radix tree rooted in CR3 along the four indices of an address.
-/

namespace FroggyOs

open ByteMemory Word64 RadixTree

/-- A 4 KiB aligned physical address. -/
@[ext] structure Frame where
  addr : Nat
  aligned : addr % 4096 = 0
  lt : addr < 2 ^ 64
deriving DecidableEq

/-! ## Encoding and decoding entries -/

theorem pageTablePhysAddress_eq {entry : Nat} (h : entry < 2 ^ 64) :
    pageTablePhysAddress entry = 4096 * (entry / 4096) % 2 ^ 51 := by
  have hlow : entry &&& not64 ((1 <<< 12) - 1) = 4096 * (entry / 4096) :=
    and_not64_low (k := 12) h (by decide)
  rw [pageTablePhysAddress, hlow]
  exact Nat.and_two_pow_sub_one_eq_mod _ 51

theorem pageTablePhysAddress_aligned (entry : Nat) : pageTablePhysAddress entry % 4096 = 0 := by
  have hmask : not64 ((1 <<< 12) - 1) % 2 ^ 12 = 0 := by decide
  change pageTablePhysAddress entry % 2 ^ 12 = 0
  rw [pageTablePhysAddress, Nat.and_mod_two_pow, Nat.and_mod_two_pow, hmask, Nat.and_zero,
    Nat.zero_and]

theorem pageTablePhysAddress_lt (entry : Nat) : pageTablePhysAddress entry < 2 ^ 51 := by
  rw [pageTablePhysAddress]
  exact Nat.and_lt_two_pow _ (by decide)

/-- The frame an entry refers to, when it is present. -/
def decodeEntry (entry : Nat) : Option Frame :=
  if isPageTablePresent entry then
    some ⟨pageTablePhysAddress entry, pageTablePhysAddress_aligned entry,
      Nat.lt_trans (pageTablePhysAddress_lt entry) (by decide)⟩
  else none

theorem decodeEntry_zero : decodeEntry 0 = none := by decide

/-- The entry `map_to_page` stores for a frame. -/
def encodeEntry (frame : Nat) : Nat := frame &&& pageAddrMask ||| createBasicPageAttributes

theorem and_pageAddrMask {frame : Nat} (h : frame < 2 ^ 64) :
    frame &&& pageAddrMask = 4096 * (frame / 4096) % 2 ^ 52 := by
  have hmask : pageAddrMask = not64 (2 ^ 12 - 1) &&& (2 ^ 52 - 1) := by decide
  have hlow := and_not64_low (k := 12) h (by decide)
  rw [hmask, ← Nat.and_assoc, hlow, Nat.and_two_pow_sub_one_eq_mod]
  norm_num

/-- The stored entry is the page-aligned part of the frame plus the two attribute bits. -/
theorem encodeEntry_eq {frame : Nat} (h : frame < 2 ^ 64) :
    encodeEntry frame = 4096 * (frame / 4096) % 2 ^ 52 + 3 := by
  have hattr : createBasicPageAttributes = 3 := by decide
  have hor := Nat.two_pow_add_eq_or_of_lt (i := 12) (b := 3) (by decide)
    (frame / 4096 % 2 ^ 40)
  have hval : 4096 * (frame / 4096) % 2 ^ 52 = 2 ^ 12 * (frame / 4096 % 2 ^ 40) := by omega
  rw [encodeEntry, and_pageAddrMask h, hattr, hval, hor]

theorem encodeEntry_lt {frame : Nat} (h : frame < 2 ^ 64) : encodeEntry frame < 2 ^ 64 := by
  rw [encodeEntry_eq h]
  omega

/-- A stored entry is present. -/
theorem isPageTablePresent_encodeEntry {frame : Nat} (h : frame < 2 ^ 64) :
    isPageTablePresent (encodeEntry frame) = true := by
  have hbit : encodeEntry frame &&& 1 = 1 := by
    rw [Nat.and_one_is_mod, encodeEntry_eq h]
    omega
  simp [isPageTablePresent, hbit]

/-- Aligned frames below `2 ^ 51` decode to themselves. -/
theorem pageTablePhysAddress_encodeEntry {frame : Nat} (haligned : frame % 4096 = 0)
    (hlt : frame < 2 ^ 51) : pageTablePhysAddress (encodeEntry frame) = frame := by
  have hword : frame < 2 ^ 64 := Nat.lt_trans hlt (by decide)
  rw [pageTablePhysAddress_eq (encodeEntry_lt hword), encodeEntry_eq hword]
  omega

theorem decodeEntry_encodeEntry (t : Frame) (hlt : t.addr < 2 ^ 51) :
    decodeEntry (encodeEntry t.addr) = some t := by
  rw [decodeEntry, if_pos (isPageTablePresent_encodeEntry t.lt)]
  congr 1
  exact Frame.ext (pageTablePhysAddress_encodeEntry t.aligned hlt)

/-! ### The two masks -/

/-- Bits of a table entry outside the address: 0 to 11 and 63. -/
def IsAttributes (attributes : Nat) : Prop := attributes < 2 ^ 64 ∧ attributes % 2 ^ 63 < 2 ^ 12

/-- The entry stores the address of a table, and the walks that find it present go on there. -/
structure LinksTo (entry address : Nat) : Prop where
  decoded : pageTablePhysAddress entry = address
  followed : ∀ (s : PageState) ptr frameAlloc, s.readEntry ptr = entry →
    isPageTablePresent entry = true →
    nextTable s ptr frameAlloc = (some (s.physToVirt address), s)
  fetched : ∀ (s : PageState) table index rest, s.readEntry (table + 8 * index) = entry →
    isPageTablePresent entry = true → rest ≠ [] →
    fetchFrom s (index :: rest) table = fetchFrom s rest (s.physToVirt address)

theorem LinksTo.of_decoded {entry address : Nat} (h : pageTablePhysAddress entry = address) :
    LinksTo entry address := by
  refine ⟨h, fun s ptr frameAlloc hentry hpresent => ?_,
    fun s table index rest hentry hpresent hrest => ?_⟩
  · rw [nextTable, hentry, hpresent, h]
    rfl
  · rw [fetchFrom, hentry, hpresent, h]
    exact if_neg hrest

/-- Address bits and attribute bits do not overlap, so their disjunction is their sum. -/
theorem or_attributes {address attributes : Nat} (haligned : address % 4096 = 0)
    (hlt : address < 2 ^ 52) (hattributes : IsAttributes attributes) :
    address ||| attributes = address + attributes := by
  obtain ⟨hword, hlow⟩ := hattributes
  have hsplit : attributes = 2 ^ 63 * (attributes / 2 ^ 63) ||| attributes % 2 ^ 63 := by
    rw [← Nat.two_pow_add_eq_or_of_lt (by omega : attributes % 2 ^ 63 < 2 ^ 63)]
    omega
  have hhigh : 2 ^ 63 * (attributes / 2 ^ 63) ||| address =
      2 ^ 63 * (attributes / 2 ^ 63) + address :=
    (Nat.two_pow_add_eq_or_of_lt (by omega) _).symm
  have hpage : 2 ^ 63 * (attributes / 2 ^ 63) + address =
      2 ^ 12 * ((2 ^ 63 * (attributes / 2 ^ 63) + address) / 2 ^ 12) := by
    omega
  rw [hsplit, ← Nat.or_assoc, Nat.or_comm address, hhigh, hpage,
    ← Nat.two_pow_add_eq_or_of_lt hlow]
  omega

/-- What the decoder leaves of an address: its mask ends one bit below that of the encoder. -/
theorem pageTablePhysAddress_or {address attributes : Nat} (haligned : address % 4096 = 0)
    (hlt : address < 2 ^ 52) (hattributes : IsAttributes attributes) :
    pageTablePhysAddress (address &&& pageAddrMask ||| attributes) = address % 2 ^ 51 := by
  have hmask : address &&& pageAddrMask = address := by
    rw [and_pageAddrMask (Nat.lt_trans hlt (by decide))]
    omega
  obtain ⟨hword, hlow⟩ := id hattributes
  rw [hmask, or_attributes haligned hlt hattributes, pageTablePhysAddress_eq (by omega)]
  omega

/-- An entry refers to its table exactly below `2 ^ 51`. -/
theorem entry_linksTo_iff {address attributes : Nat} (haligned : address % 4096 = 0)
    (hlt : address < 2 ^ 52) (hattributes : IsAttributes attributes) :
    LinksTo (address &&& pageAddrMask ||| attributes) address ↔ address < 2 ^ 51 := by
  have hdecode := pageTablePhysAddress_or haligned hlt hattributes
  constructor
  · intro hlinks
    have hsame := hlinks.decoded
    omega
  · intro hshort
    exact .of_decoded (by omega)

theorem entry_linksTo_lowFrame : LinksTo (0x7000 &&& pageAddrMask ||| 3) 0x7000 :=
  (entry_linksTo_iff (by decide) (by decide) ⟨by decide, by decide⟩).mpr (by decide)

/-- The encoder keeps bit 51 and the decoder drops it. -/
theorem not_entry_linksTo : ¬ ∀ address attributes : Nat, address % 4096 = 0 → address < 2 ^ 52 →
    IsAttributes attributes → LinksTo (address &&& pageAddrMask ||| attributes) address := by
  intro h
  have hdecode := (h (2 ^ 51) 3 (by decide) (by decide) ⟨by decide, by decide⟩).decoded
  revert hdecode
  decide

/-! ## Tables behind the direct map -/

namespace PageState

/-- The virtual address of an entry of the table in frame `t`. -/
def entryPtr (s : PageState) (t : Frame) (i : Fin 512) : Nat := s.physToVirt t.addr + 8 * i.val

/-- The table memory: the entry of the table in frame `t` at index `i`. -/
def entryAt (s : PageState) (t : Frame) (i : Fin 512) : Nat := s.readEntry (s.entryPtr t i)

theorem entryAt_of_zero {s : PageState} (h : s.tables = ⟨fun _ => 0⟩) (t : Frame)
    (i : Fin 512) : s.entryAt t i = 0 := by
  rw [entryAt, readEntry, h]
  exact Mem.load_zero _ _

/-- The frame CR3 refers to. -/
def root (s : PageState) : Frame where
  addr := s.cr3.toNat &&& not64 0xFFF
  aligned := by
    have hlow := and_not64_low (k := 12) s.cr3.toNat_lt (by decide)
    simp only [Nat.reducePow, Nat.reduceSub] at hlow
    rw [hlow]
    omega
  lt := Nat.lt_of_le_of_lt Nat.and_le_left s.cr3.toNat_lt

/-- Follow a path of table indices from the active root. -/
def walkFrom (s : PageState) (path : List (Fin 512)) : Option Frame :=
  walk decodeEntry s.entryAt s.root path

theorem walkFrom_snoc (s : PageState) (path : List (Fin 512)) (i : Fin 512) :
    s.walkFrom (path ++ [i]) = (s.walkFrom path).bind fun t => decodeEntry (s.entryAt t i) :=
  walk_snoc path i

/-- Distinct frames have disjoint tables in the direct map. -/
theorem physToVirt_disjoint (s : PageState) {t u : Frame} (h : t ≠ u) :
    s.physToVirt t.addr + 4096 ≤ s.physToVirt u.addr ∨
      s.physToVirt u.addr + 4096 ≤ s.physToVirt t.addr := by
  have hne : t.addr ≠ u.addr := fun he => h (Frame.ext he)
  have ht := t.aligned
  have hu := u.aligned
  have ht' := t.lt
  have hu' := u.lt
  have hoff := s.offset.toNat_lt
  simp only [physToVirt, add64]
  omega

@[simp] theorem writeEntry_offset (s : PageState) (ptr v : Nat) :
    (s.writeEntry ptr v).offset = s.offset := rfl

@[simp] theorem writeEntry_cr3 (s : PageState) (ptr v : Nat) :
    (s.writeEntry ptr v).cr3 = s.cr3 := rfl

@[simp] theorem writeEntry_frames (s : PageState) (ptr v : Nat) :
    (s.writeEntry ptr v).frames = s.frames := rfl

@[simp] theorem writeEntry_created (s : PageState) (ptr v : Nat) :
    (s.writeEntry ptr v).created = s.created := rfl

@[simp] theorem writeEntry_root (s : PageState) (ptr v : Nat) :
    (s.writeEntry ptr v).root = s.root := rfl

theorem entryAt_writeEntry_same (s : PageState) (t : Frame) (i : Fin 512) {v : Nat}
    (hv : v < 2 ^ 64) : (s.writeEntry (s.entryPtr t i) v).entryAt t i = v :=
  Mem.get_put_same hv

/-- A store to an entry changes no other entry, of this table or another. -/
theorem entryAt_writeEntry_ne (s : PageState) {t u : Frame} {i j : Fin 512} (v : Nat)
    (h : u ≠ t ∨ j ≠ i) : (s.writeEntry (s.entryPtr t i) v).entryAt u j = s.entryAt u j := by
  apply Mem.get_put_disjoint
  simp only [entryPtr, physToVirt, writeEntry_offset]
  by_cases htable : u = t
  · subst htable
    have hindex : j.val ≠ i.val := fun he => (h.resolve_left (by simp)) (Fin.ext he)
    omega
  · have hpages := s.physToVirt_disjoint htable
    simp only [physToVirt] at hpages
    omega

end PageState

/-! ## Addresses and paths -/

theorem pgdIndex_eq (addr : Nat) : pgdIndex addr = addr / 2 ^ 39 % 512 := by
  rw [pgdIndex, Nat.shiftRight_eq_div_pow]
  exact Nat.and_two_pow_sub_one_eq_mod _ 9

theorem pudIndex_eq (addr : Nat) : pudIndex addr = addr / 2 ^ 30 % 512 := by
  rw [pudIndex, Nat.shiftRight_eq_div_pow]
  exact Nat.and_two_pow_sub_one_eq_mod _ 9

theorem pmdIndex_eq (addr : Nat) : pmdIndex addr = addr / 2 ^ 21 % 512 := by
  rw [pmdIndex, Nat.shiftRight_eq_div_pow]
  exact Nat.and_two_pow_sub_one_eq_mod _ 9

theorem ptIndex_eq (addr : Nat) : ptIndex addr = addr / 2 ^ 12 % 512 := by
  rw [ptIndex, Nat.shiftRight_eq_div_pow]
  exact Nat.and_two_pow_sub_one_eq_mod _ 9

def pgd (addr : Nat) : Fin 512 := ⟨pgdIndex addr, by rw [pgdIndex_eq]; omega⟩
def pud (addr : Nat) : Fin 512 := ⟨pudIndex addr, by rw [pudIndex_eq]; omega⟩
def pmd (addr : Nat) : Fin 512 := ⟨pmdIndex addr, by rw [pmdIndex_eq]; omega⟩
def pt (addr : Nat) : Fin 512 := ⟨ptIndex addr, by rw [ptIndex_eq]; omega⟩

/-- The four table indices of an address, from the root down. -/
def pagePath (addr : Nat) : List (Fin 512) := [pgd addr, pud addr, pmd addr, pt addr]

/-- Address bits 12 to 47. -/
def pageNumber (addr : Nat) : Nat := addr / 2 ^ 12 % 2 ^ 36

@[simp] theorem pagePath_length (addr : Nat) : (pagePath addr).length = 4 := rfl

/-- Two addresses take the same path exactly when they lie in the same page. -/
theorem pagePath_eq_iff {a b : Nat} : pagePath a = pagePath b ↔ pageNumber a = pageNumber b := by
  simp only [pagePath, List.cons.injEq, and_true, pgd, pud, pmd, pt, Fin.mk.injEq, pgdIndex_eq,
    pudIndex_eq, pmdIndex_eq, ptIndex_eq, pageNumber]
  omega

namespace PageState

/-- The frame the page of `addr` is mapped to under the active root. -/
def translate (s : PageState) (addr : Nat) : Option Frame := s.walkFrom (pagePath addr)

/-- The lookup loop walks the radix tree and returns a pointer to the last entry. -/
theorem fetchFrom_eq (s : PageState) (path : List (Fin 512)) (i : Fin 512) (t : Frame) :
    fetchFrom s ((path ++ [i]).map Fin.val) (s.physToVirt t.addr) =
      (walk decodeEntry s.entryAt t path).bind fun u =>
        if isPageTablePresent (s.entryAt u i) then some (s.entryPtr u i) else none := by
  induction path generalizing t with
  | nil =>
      change (if !isPageTablePresent (s.entryAt t i) then none
        else if ([] : List Nat) = [] then some (s.entryPtr t i) else _) = _
      cases hpresent : isPageTablePresent (s.entryAt t i) <;> simp [walk, hpresent]
  | cons j path ih =>
      change (if !isPageTablePresent (s.entryAt t j) then none
        else if (path ++ [i]).map Fin.val = [] then some (s.entryPtr t j)
        else fetchFrom s ((path ++ [i]).map Fin.val)
          (s.physToVirt (pageTablePhysAddress (s.entryAt t j)))) = _
      rw [walk_cons, decodeEntry]
      cases hpresent : isPageTablePresent (s.entryAt t j) with
      | false => simp
      | true =>
          have hne : (path ++ [i]).map Fin.val ≠ [] := by simp
          rw [if_neg (by simp), if_neg hne, if_pos rfl, Option.bind_some, ← ih]

theorem fetchPageTableEntry_eq (s : PageState) (addr : Nat) :
    fetchPageTableEntry s addr =
      (s.walkFrom [pgd addr, pud addr, pmd addr]).bind fun u =>
        if isPageTablePresent (s.entryAt u (pt addr)) then some (s.entryPtr u (pt addr))
        else none :=
  s.fetchFrom_eq [pgd addr, pud addr, pmd addr] (pt addr) s.root

/-- The lookup finds an entry exactly for the mapped pages, and the entry holds the
frame the page is mapped to. -/
theorem fetchPageTableEntry_some_iff (s : PageState) (addr : Nat) (frame : Nat) :
    (∃ ptr, fetchPageTableEntry s addr = some ptr ∧
      pageTablePhysAddress (s.readEntry ptr) = frame) ↔
      ∃ t, s.translate addr = some t ∧ t.addr = frame := by
  have hpath : pagePath addr = [pgd addr, pud addr, pmd addr] ++ [pt addr] := rfl
  rw [fetchPageTableEntry_eq, translate, hpath, walkFrom_snoc]
  cases s.walkFrom [pgd addr, pud addr, pmd addr] with
  | none => simp
  | some u =>
      simp only [Option.bind_some, decodeEntry]
      cases hpresent : isPageTablePresent (s.entryAt u (pt addr)) with
      | false => simp
      | true => simp [entryAt]

theorem fetchPageTableEntry_none_iff (s : PageState) (addr : Nat) :
    fetchPageTableEntry s addr = none ↔ s.translate addr = none := by
  constructor
  · intro hnone
    by_contra hsome
    obtain ⟨t, ht⟩ := Option.ne_none_iff_exists'.mp hsome
    obtain ⟨ptr, hptr, _⟩ := (s.fetchPageTableEntry_some_iff addr t.addr).mpr ⟨t, ht, rfl⟩
    rw [hnone] at hptr
    contradiction
  · intro hnone
    by_contra hsome
    obtain ⟨ptr, hptr⟩ := Option.ne_none_iff_exists'.mp hsome
    obtain ⟨t, ht, _⟩ := (s.fetchPageTableEntry_some_iff addr _).mp ⟨ptr, hptr, rfl⟩
    rw [hnone] at ht
    contradiction

end PageState

end FroggyOs
