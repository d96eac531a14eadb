import FroggyOs.Memory.FrameAlloc
import Mathlib.Data.List.Pairwise

/-!
# The boot memory map (`memory/memorymap.c`, `kernel.c`)

`kernel_init` takes its first free frames from the boot loader's memory map.
`read_memory_map` scans it for a usable region of more than 500 pages, passing over the
first usable one, and `add_frame_region` pushes frames of it until one of its two limits
is hit. The list itself is put at the base of the second entry, whatever that is.

A region's addresses are counted modulo `2 ^ 64`, as the sums in the source are.
-/

namespace FroggyOs

open ByteMemory Word64

/-! ## The memory map -/

/-- `LIMINE_MEMMAP_USABLE` of the boot protocol. -/
def limineMemmapUsable : UInt64 := 0

/-- `struct limine_memmap_entry` -/
structure MemmapEntry where
  base : UInt64
  length : UInt64
  type : UInt64
  deriving DecidableEq

namespace MemmapEntry

/-- The address lies in the region. -/
def Contains (e : MemmapEntry) (a : Nat) : Prop := sub64 a e.base.toNat < e.length.toNat

def Usable (e : MemmapEntry) : Prop := e.type = limineMemmapUsable

/-- Usable regions do not overlap. -/
def Apart (e t : MemmapEntry) : Prop :=
  e.Usable → t.Usable → ∀ a, e.Contains a → ¬ t.Contains a

instance : Std.Symm Apart where
  symm _ _ h ht he a hta hea := h he ht a hea hta

instance (e : MemmapEntry) (a : Nat) : Decidable (e.Contains a) :=
  inferInstanceAs (Decidable (_ < _))

instance (e : MemmapEntry) : Decidable e.Usable := inferInstanceAs (Decidable (_ = _))

end MemmapEntry

/-- The body of the loop of `read_memory_map`, on `isFirst` and `frameRegion`. -/
def readMemmapEntry (s : Bool × Option MemmapEntry) (e : MemmapEntry) :
    Bool × Option MemmapEntry :=
  if e.type = limineMemmapUsable then
    if s.1 then (false, s.2)
    else if e.length.toNat / 4096 > 500 ∧ s.2 = none then (s.1, some e)
    else s
  else s

/-- Returns the entry for the frames, or `none` for `NULL`. -/
def readMemoryMap (entries : List MemmapEntry) : Option MemmapEntry :=
  (entries.foldl readMemmapEntry (true, none)).2

/-! ## The frame list of `kernel_init` -/

/-- The loop of `add_frame_region`, from `x` on. Returns the frames pushed, in order. -/
def addFrameRegionFrom (list : Nat) (region : MemmapEntry) (m : Mem) (x : Nat) :
    List Nat × Mem :=
  if x < region.length.toNat then
    let physAddress := add64 region.base.toNat x
    let m := pushFrameList m list physAddress
    if m.get list FreeFrameList.numFrames > 100 then ([physAddress], m)
    else if x ≥ 30000 - 1 then ([physAddress], m)
    else
      let rest := addFrameRegionFrom list region m (add64 x 0x1000)
      (physAddress :: rest.1, rest.2)
  else ([], m)
termination_by 30000 - x
decreasing_by
  rw [add64_eq (by omega)]
  omega

def addFrameRegion (m : Mem) (list : Nat) (region : MemmapEntry) : List Nat × Mem :=
  addFrameRegionFrom list region m 0

/-- `none` when `NULL` is passed for the region: `add_frame_region` dereferences it. -/
def initFrameList (m : Mem) (addr : Nat) (region : Option MemmapEntry) :
    Option (List Nat × Mem) :=
  region.map (addFrameRegion (initFrameListHeader m addr) addr)

/-- The part of `kernel_init` that builds the frame list. `none` when the second entry is
read from a shorter map, or `NULL` is dereferenced. -/
def kernelInitFrameList (m : Mem) (physicalAddressOffset : Nat) (entries : List MemmapEntry) :
    Option (List Nat × Mem) :=
  let framesToAllocate := readMemoryMap entries
  entries[1]?.bind fun second =>
    initFrameList m (add64 second.base.toNat physicalAddressOffset) framesToAllocate

/-! ## What the scan finds -/

/-- The first region of more than 500 pages among the usable ones behind the first. -/
def largeRegion (entries : List MemmapEntry) : Option MemmapEntry :=
  (entries.filter (·.Usable)).tail.find? fun e => 500 < e.length.toNat / 4096

theorem readMemoryMap_eq (entries : List MemmapEntry) :
    readMemoryMap entries = largeRegion entries := by
  have hfound : ∀ (entries : List MemmapEntry) (r : MemmapEntry),
      entries.foldl readMemmapEntry (false, some r) = (false, some r) := by
    intro entries r
    induction entries with
    | nil => rfl
    | cons e rest ih => simpa [readMemmapEntry] using ih
  have hsearch : ∀ entries : List MemmapEntry,
      (entries.foldl readMemmapEntry (false, none)).2 =
        (entries.filter (·.Usable)).find? fun e => 500 < e.length.toNat / 4096 := by
    intro entries
    induction entries with
    | nil => rfl
    | cons e rest ih =>
        by_cases husable : e.type = limineMemmapUsable
        · by_cases hlarge : 500 < e.length.toNat / 4096
          · simp [readMemmapEntry, MemmapEntry.Usable, husable, hlarge, hfound]
          · simpa [readMemmapEntry, MemmapEntry.Usable, husable, hlarge] using ih
        · simpa [readMemmapEntry, MemmapEntry.Usable, husable] using ih
  induction entries with
  | nil => rfl
  | cons e rest ih =>
      by_cases husable : e.type = limineMemmapUsable
      · simpa [readMemoryMap, largeRegion, readMemmapEntry, MemmapEntry.Usable, husable]
          using hsearch rest
      · simpa [readMemoryMap, largeRegion, readMemmapEntry, MemmapEntry.Usable, husable]
          using ih

/-- What the scan finds is a usable entry of the map. -/
theorem largeRegion_spec {entries : List MemmapEntry} {region : MemmapEntry}
    (h : largeRegion entries = some region) :
    region ∈ entries ∧ region.Usable ∧ 500 < region.length.toNat / 4096 := by
  have hmem := List.mem_filter.mp (List.mem_of_mem_tail (List.mem_of_find?_eq_some h))
  exact ⟨hmem.1, by simpa using hmem.2, by simpa using List.find?_some h⟩

/-! ## What the loop pushes -/

/-- The first nine pages of the region. -/
def regionFrames (region : MemmapEntry) : List Nat :=
  (List.range 9).map fun i => add64 region.base.toNat (0x1000 * i)

/-- The two header words that the loop depends on, with `n` frames on the list. -/
def FrameCount (m : Mem) (list n : Nat) : Prop :=
  m.get list FreeFrameList.numFrames = n ∧
    m.get list FreeFrameList.head = (list + 24 + 8 * n) % 2 ^ 64

section Push

variable {m : Mem} {list n : Nat} {region : MemmapEntry}

theorem initFrameListHeader_frameCount (m : Mem) (list : Nat) :
    FrameCount (initFrameListHeader m list) list 0 := by
  have hhead : add64 list FreeFrameList.sizeof < 256 ^ 8 := add64_lt _ _
  constructor
  · exact Mem.get_put_same (by decide)
  · simp only [initFrameListHeader]
    rw [Mem.get_put_disjoint (by simp), Mem.get_put_same hhead]
    rfl

/-- Also where the slots wrap around, a push misses the header. -/
theorem FrameCount.push (h : FrameCount m list n) (hn : n < 100)
    (physAddress : Nat) : FrameCount (pushFrameList m list physAddress) list (n + 1) := by
  obtain ⟨hnum, hhead⟩ := h
  generalize hslot : (list + 24 + 8 * n) % 2 ^ 64 = slot at hhead
  have hapart : list + 24 ≤ slot ∨ slot + 8 ≤ list := by omega
  generalize hm₁ : m.put list FreeFrameList.nextFree slot = m₁
  have hnext₁ : m₁.get list FreeFrameList.nextFree = slot := by
    rw [← hm₁, Mem.get_put_same (by simp; omega)]
  have hnum₁ : m₁.get list FreeFrameList.numFrames = n := by
    rw [← hm₁, Mem.get_put_disjoint (by simp), hnum]
  generalize hm₂ : m₁.put slot PhysFrame.physAddress physAddress = m₂
  have hnext₂ : m₂.get list FreeFrameList.nextFree = slot := by
    rw [← hm₂, Mem.get_put_disjoint (by simp; omega), hnext₁]
  have hnum₂ : m₂.get list FreeFrameList.numFrames = n := by
    rw [← hm₂, Mem.get_put_disjoint (by simp; omega), hnum₁]
  have hresult : pushFrameList m list physAddress =
      (m₂.put list FreeFrameList.numFrames (n + 1)).put list FreeFrameList.head
        (add64 slot 8) := by
    simp only [pushFrameList, PhysFrame.sizeof, hhead, hm₁]
    rw [hnext₁, hm₂, hnum₂, Mem.get_put_disjoint (by simp), hnext₂, add64_eq (by omega)]
  have hnew : add64 slot 8 = (list + 24 + 8 * (n + 1)) % 2 ^ 64 := by
    rw [add64]
    omega
  rw [hresult]
  constructor
  · rw [Mem.get_put_disjoint (by simp), Mem.get_put_same (by simp; omega)]
  · rw [Mem.get_put_same (add64_lt _ _), hnew]

/-- The limit `x >= 30000 - 1` is hit at the ninth frame, before the one on `numFrames`. -/
theorem addFrameRegionFrom_eq (hlength : 500 < region.length.toNat / 4096)
    {k : Nat} (hk : k ≤ 8) (h : FrameCount m list (8 - k)) :
    (addFrameRegionFrom list region m (0x1000 * (8 - k))).1 =
        (List.range' (8 - k) (k + 1)).map (fun i => add64 region.base.toNat (0x1000 * i)) ∧
      FrameCount (addFrameRegionFrom list region m (0x1000 * (8 - k))).2 list 9 := by
  induction k generalizing m with
  | zero =>
      have hpush := h.push (by omega) (add64 region.base.toNat (0x1000 * 8))
      rw [addFrameRegionFrom, if_pos (by omega)]
      simp only
      rw [if_neg (by rw [hpush.1]; omega), if_pos (by omega)]
      exact ⟨rfl, hpush⟩
  | succ k ih =>
      have hnext : 8 - (k + 1) + 1 = 8 - k := by omega
      have hpush := h.push (by omega) (add64 region.base.toNat (0x1000 * (8 - (k + 1))))
      rw [hnext] at hpush
      obtain ⟨hrest, hcount⟩ := ih (by omega) hpush
      have hstep : add64 (0x1000 * (8 - (k + 1))) 0x1000 = 0x1000 * (8 - k) := by
        rw [add64_eq (by omega)]
        omega
      rw [addFrameRegionFrom, if_pos (by omega)]
      simp only
      rw [if_neg (by rw [hpush.1]; omega), if_neg (by omega), hstep, List.range'_succ, hnext]
      exact ⟨congrArg _ hrest, hcount⟩

theorem addFrameRegion_eq (list : Nat) (hlength : 500 < region.length.toNat / 4096) (m : Mem) :
    (addFrameRegion (initFrameListHeader m list) list region).1 = regionFrames region ∧
      FrameCount (addFrameRegion (initFrameListHeader m list) list region).2 list 9 := by
  have heq := addFrameRegionFrom_eq hlength (Nat.le_refl 8)
    (initFrameListHeader_frameCount m list)
  rw [regionFrames, List.range_eq_range']
  exact heq

/-- The memory is the one that the pushes leave. -/
theorem addFrameRegionFrom_foldl (list : Nat) (region : MemmapEntry) (m : Mem) (x : Nat) :
    (addFrameRegionFrom list region m x).2 =
      (addFrameRegionFrom list region m x).1.foldl (pushFrameList · list ·) m := by
  fun_induction addFrameRegionFrom list region m x with
  | case1 | case2 | case4 => rfl
  | case3 m x _ _ _ _ _ _ ih => simpa using ih

/-- The list that `init_frame_list` builds is a stack of the region's first nine pages. -/
theorem initFrameList_rep (hlength : 500 < region.length.toNat / 4096)
    (hfits : list + 96 < 2 ^ 64) (m : Mem) :
    FrameListRep (addFrameRegion (initFrameListHeader m list) list region).2 list
      (regionFrames region).reverse := by
  have hframes : ∀ f ∈ regionFrames region, f < 2 ^ 64 := by
    simp only [regionFrames, List.mem_map]
    rintro f ⟨i, -, rfl⟩
    exact add64_lt _ _
  have hcount : (regionFrames region).length = 9 := by simp [regionFrames]
  have hpushed := (addFrameRegion_eq list hlength m).1
  have hfold := addFrameRegionFrom_foldl list region (initFrameListHeader m list) 0
  rw [← addFrameRegion, hpushed] at hfold
  rw [hfold, ← List.append_nil (regionFrames region).reverse]
  apply foldl_pushFrameList_rep (initFrameListHeader_rep m (by omega)) hframes
  rw [hcount, List.length_nil]
  exact hfits

end Push

/-! ## Soundness -/

/-- The frame list is built without dereferencing `NULL`, from frames inside usable
regions, and its header and slots lie in usable memory outside of all its frames. -/
def FrameListSound (m : Mem) (physicalAddressOffset : Nat) (entries : List MemmapEntry) : Prop :=
  ∃ second frames m', entries[1]? = some second ∧
    kernelInitFrameList m physicalAddressOffset entries = some (frames, m') ∧
    (∀ f ∈ frames, ∃ e ∈ entries, e.Usable ∧ ∀ j < 0x1000, e.Contains (add64 f j)) ∧
    ∀ k < FreeFrameList.sizeof + PhysFrame.sizeof *
        m'.get (add64 second.base.toNat physicalAddressOffset) FreeFrameList.numFrames,
      (∃ e ∈ entries, e.Usable ∧ e.Contains (add64 second.base.toNat k)) ∧
        ∀ f ∈ frames, 0x1000 ≤ sub64 (add64 second.base.toNat k) f

/-- The 96 bytes at the base of `second` are usable memory outside of the first nine pages
of `region`. -/
def StoragePlaced (entries : List MemmapEntry) (region second : MemmapEntry) : Prop :=
  ∀ k < 96, (∃ e ∈ entries, e.Usable ∧ e.Contains (add64 second.base.toNat k)) ∧
    0x9000 ≤ sub64 (add64 second.base.toNat k) region.base.toNat

instance (entries : List MemmapEntry) (region second : MemmapEntry) :
    Decidable (StoragePlaced entries region second) :=
  inferInstanceAs (Decidable (∀ k < 96, _ ∧ _))

section Sound

variable {entries : List MemmapEntry} {region second : MemmapEntry} {a : Nat}

/-- An address is outside of the frames if and only if it is nine pages above the base. -/
theorem forall_regionFrames_iff (ha : a < 2 ^ 64) :
    (∀ f ∈ regionFrames region, 0x1000 ≤ sub64 a f) ↔ 0x9000 ≤ sub64 a region.base.toNat := by
  have hbase := region.base.toNat_lt
  rw [regionFrames]
  generalize region.base.toNat = base at *
  have hdist : ∀ i < 9, sub64 a (add64 base (0x1000 * i)) =
      (sub64 a base + (2 ^ 64 - 0x1000 * i)) % 2 ^ 64 := by
    intro i hi
    simp only [sub64, add64]
    omega
  have hd : sub64 a base < 2 ^ 64 := sub64_lt _ _
  simp only [List.mem_map, List.mem_range, forall_exists_index, and_imp,
    forall_apply_eq_imp_iff₂]
  constructor
  · intro h
    by_contra hlow
    have hframe := h (sub64 a base / 0x1000) (by omega)
    rw [hdist _ (by omega)] at hframe
    omega
  · intro h i hi
    rw [hdist i hi]
    omega

/-- The frames lie in the region. -/
theorem regionFrames_contained (hlength : 500 < region.length.toNat / 4096) :
    ∀ f ∈ regionFrames region, ∀ j < 0x1000, region.Contains (add64 f j) := by
  have hbase := region.base.toNat_lt
  intro f hf j hj
  simp only [regionFrames, List.mem_map, List.mem_range] at hf
  obtain ⟨i, hi, rfl⟩ := hf
  simp only [MemmapEntry.Contains, add64, sub64]
  omega

/-- Where the scan finds a region, its first nine pages are on the list. -/
theorem kernelInitFrameList_eq (m : Mem) (physicalAddressOffset : Nat)
    (hregion : readMemoryMap entries = some region) (hsecond : entries[1]? = some second) :
    ∃ m', kernelInitFrameList m physicalAddressOffset entries = some (regionFrames region, m') ∧
      m'.get (add64 second.base.toNat physicalAddressOffset) FreeFrameList.numFrames = 9 := by
  have hlarge := (largeRegion_spec (readMemoryMap_eq entries ▸ hregion)).2.2
  obtain ⟨hframes, hcount, -⟩ := addFrameRegion_eq
    (add64 second.base.toNat physicalAddressOffset) hlarge m
  refine ⟨_, ?_, hcount⟩
  rw [kernelInitFrameList, hsecond, hregion, ← hframes]
  rfl

theorem frameListSound_iff_storagePlaced (m : Mem) (physicalAddressOffset : Nat)
    (entries : List MemmapEntry) :
    FrameListSound m physicalAddressOffset entries ↔
      ∃ region second, readMemoryMap entries = some region ∧ entries[1]? = some second ∧
        StoragePlaced entries region second := by
  constructor
  · rintro ⟨second, frames, m', hsecond, hinit, -, hstorage⟩
    cases hregion : readMemoryMap entries with
    | none =>
        rw [kernelInitFrameList, hsecond, hregion] at hinit
        cases hinit
    | some region =>
        obtain ⟨m'', hcall, hcount⟩ :=
          kernelInitFrameList_eq m physicalAddressOffset hregion hsecond
        rw [hcall] at hinit
        cases hinit
        rw [hcount] at hstorage
        exact ⟨region, second, rfl, hsecond, fun k hk =>
          ⟨(hstorage k hk).1, (forall_regionFrames_iff (add64_lt _ _)).mp (hstorage k hk).2⟩⟩
  · rintro ⟨region, second, hregion, hsecond, hplaced⟩
    obtain ⟨hmem, husable, hlarge⟩ := largeRegion_spec (readMemoryMap_eq entries ▸ hregion)
    obtain ⟨m', hcall, hcount⟩ := kernelInitFrameList_eq m physicalAddressOffset hregion hsecond
    refine ⟨second, _, m', hsecond, hcall, ?_, ?_⟩
    · exact fun f hf => ⟨region, hmem, husable, regionFrames_contained hlarge f hf⟩
    · rw [hcount]
      exact fun k hk =>
        ⟨(hplaced k hk).1, (forall_regionFrames_iff (add64_lt _ _)).mpr (hplaced k hk).2⟩

/-- In a map whose usable regions are disjoint, a usable second entry is a sound place if
and only if the frames are not taken from it. -/
theorem storagePlaced_iff_ne
    (hdisjoint : entries.Pairwise MemmapEntry.Apart)
    (hregion : largeRegion entries = some region) (hsecond : second ∈ entries)
    (husable : second.Usable) (hlength : 96 ≤ second.length.toNat) :
    StoragePlaced entries region second ↔ region ≠ second := by
  have hbase := second.base.toNat_lt
  obtain ⟨hmem, husable', hlarge⟩ := largeRegion_spec hregion
  have hin : ∀ k < 96, second.Contains (add64 second.base.toNat k) := by
    intro k hk
    simp only [MemmapEntry.Contains, add64, sub64]
    omega
  constructor
  · rintro hplaced rfl
    have hzero := (hplaced 0 (by omega)).2
    simp only [add64, sub64] at hzero
    omega
  · intro hne k hk
    refine ⟨⟨second, hsecond, husable, hin k hk⟩, ?_⟩
    by_contra hlow
    have hboth : region.Contains (add64 second.base.toNat k) := by
      rw [MemmapEntry.Contains]
      omega
    exact hdisjoint.forall hmem hsecond hne husable' husable _ hboth (hin k hk)

end Sound

/-- The frame list is sound if and only if the map has a large enough usable region behind
the first usable one and the list's storage is usable memory outside of its first nine
pages. -/
theorem frameListSound_iff (m : Mem) (physicalAddressOffset : Nat) (entries : List MemmapEntry) :
    FrameListSound m physicalAddressOffset entries ↔
      ∃ region second, largeRegion entries = some region ∧ entries[1]? = some second ∧
        StoragePlaced entries region second := by
  rw [frameListSound_iff_storagePlaced, readMemoryMap_eq]

example : StoragePlaced [⟨0x1000, 0x9e000, 0⟩, ⟨0x100000, 0x8000, 0⟩, ⟨0x200000, 0x7e00000, 0⟩]
    ⟨0x200000, 0x7e00000, 0⟩ ⟨0x100000, 0x8000, 0⟩ := by decide

/-- A PC's memory map, where the second entry is reserved memory below 1 MiB. -/
def pcMemoryMap : List MemmapEntry :=
  [⟨0x1000, 0x9e000, 0⟩, ⟨0x9f000, 0x61000, 1⟩, ⟨0x100000, 0x7ee0000, 0⟩]

theorem not_frameListSound_pcMemoryMap :
    ¬ FrameListSound ⟨fun _ => 0⟩ 0xffff800000000000 pcMemoryMap := by
  rw [frameListSound_iff_storagePlaced, readMemoryMap_eq]
  rintro ⟨region, second, hregion, hsecond, hplaced⟩
  cases hsecond
  cases hregion
  exact absurd hplaced (by decide)

end FroggyOs
