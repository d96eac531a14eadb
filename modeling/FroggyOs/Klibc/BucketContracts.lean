import FroggyOs.Klibc.HeaderRun

/-!
# The contracts of `place_pebble` and `shrink_pebble`

Both cut a pebble of one bucket in two. `place_pebble` selects a free pebble by the method
of the bucket and is only called with sizes that are multiples of 64, for which every cut
the split test allows fits (`placePebble_contract`). `krealloc` hands `shrink_pebble` any
size. The test compares that size, the cut is made behind the size rounded up to 64, and
the remainder wraps around below 0 when the rounded size leaves no room for a header
(`shrinkPebble_sound_iff`). Where there is room, the second part can still be smaller than
`PEBBLE_MIN_SIZE`, for the test clears one bit and does not round (`splitLeavesMinimum_iff`).
-/

namespace FroggyOs

open ByteMemory Word64 LinkedChain

attribute [local irreducible] splitPebble placePebble

/-- The bucket lies in memory, and its pebbles tile it exactly. -/
structure TiledBucket (m : Mem) (B : BucketModel) : Prop where
  body : BucketBody m B
  wf : B.WF

/-! ## `place_pebble` -/

/-- If `SPLIT_PEBBLE` says so, the remainder of `b` behind `head` is one free block, and otherwise
`head` is as large as `b`. -/
def FilledUp (b head : Block) (rest : List Block) (need : Nat) : Prop :=
  if splitPebbleTest b.size need then
    ∃ t, rest = [t] ∧ t.inUse = false ∧ t.addr = head.stop ∧ head.size + 60 + t.size = b.size
  else rest = [] ∧ head.size = b.size

/-- The outcome of a request that has been placed: the selected free block is in use and
large enough, what is left of it is a free block, and the others are the same. -/
def PlacesSelected (m : Mem) (B : BucketModel) (need : Nat) (result : Nat × Mem) : Prop :=
  ∃ before b after head rest, B.blocks = before ++ b :: after ∧ fits need b = true ∧
    Selected m B.base need before b after ∧ result.1 = b.addr ∧
      head.addr = b.addr ∧ head.inUse = true ∧ need ≤ head.size ∧ FilledUp b head rest need ∧
        TiledBucket result.2 (B.withBlocks (before ++ head :: rest ++ after)) ∧
          ChangesOnly B m result.2

theorem filledUp_split {b : Block} {need : Nat} (hfits : SplitFits b need)
    (hfree : b.inUse = false) : FilledUp b (splitHead b need).use (splitTail b need) need := by
  rw [FilledUp]
  split
  case isTrue htest =>
    have hsplit : splitTail b need ≠ [] := by
      rw [splitTail, if_pos htest]
      exact List.cons_ne_nil _ _
    obtain ⟨hrest, -⟩ | ⟨t, hrest, hstate, haddr, hsum⟩ := splitTail_cases hfits
    · exact absurd hrest hsplit
    · exact ⟨t, hrest, hstate.trans hfree, by rw [Block.use_stop, haddr],
        by rw [Block.use_size, hsum]⟩
  case isFalse htest =>
    rw [splitTail, if_neg htest, Block.use_size, splitHead, if_neg htest]
    exact ⟨rfl, rfl⟩

/-- `place_pebble` returns `NULL` and changes nothing if no free pebble is large enough, and
otherwise places the request in the first one, or in the first one of minimal size. -/
theorem placePebble_contract {m : Mem} {B : BucketModel} {need : Nat} (h : TiledBucket m B)
    (haligned : need % 64 = 0) :
    ∃ result, placePebble m B.base need (0 ||| pebbleFlagInUse) = some result ∧
      (result.1 = 0 ↔ ∀ b ∈ B.blocks, fits need b = false) ∧
      (result.1 = 0 → result.2 = m) ∧ (result.1 ≠ 0 → PlacesSelected m B need result) := by
  by_cases hnone : ∀ b ∈ B.blocks, fits need b = false
  · exact ⟨(0, m), placePebble_of_none h.body h.wf _ hnone, iff_of_true rfl hnone, fun _ => rfl,
      fun hne => absurd rfl hne⟩
  · push Not at hnone
    obtain ⟨b₀, hb₀, hfits₀⟩ := hnone
    obtain ⟨before, b, after, m', hblocks, hfits, hplace, hbody, hchanges, hselected⟩ :=
      placePebble_selected h.body h.wf hb₀ (by simpa using hfits₀)
        fun b hb hfits => splitFits_of_fits h.wf haligned hb hfits
    have hb : b ∈ B.blocks := by simp [hblocks]
    have hsplit := splitFits_of_fits h.wf haligned hb hfits
    have hbounds := h.wf.block_bounds hb
    have hword := h.wf.fits
    have hfree : b.inUse = false ∧ need ≤ b.size := by simpa [fits] using hfits
    have hne : b.addr ≠ 0 := by omega
    refine ⟨(b.addr, m'), hplace, iff_of_false hne fun hall => ?_, fun h0 => absurd h0 hne,
      fun _ => ⟨before, b, after, (splitHead b need).use, splitTail b need, hblocks, hfits,
        hselected, rfl, ?_, rfl, ?_, filledUp_split hsplit hfree.1, ⟨hbody, ?_⟩, hchanges⟩⟩
    · rw [hall b hb] at hfits
      cases hfits
    · rw [Block.use_addr, splitHead_addr]
    · rw [Block.use_size]
      exact le_splitHead_size hfree.2 (by omega)
    · exact h.wf.place hblocks hsplit

theorem bootHeap_tiled : TiledBucket bootHeap.mem (freshBucket 0x10000 69632) :=
  ⟨bootHeap_rep.body (by simp), bootHeap_rep.wf _ (by simp)⟩

/-- The first bucket with a pebble in use in front of a free one. -/
theorem exists_twoPebbles : ∃ (m : Mem) (B : BucketModel), TiledBucket m B ∧ B.base = 0x10000 ∧
    B.Exact ∧ B.blocks = [⟨0x10040, 65536, true⟩, ⟨0x2007c, 3912, false⟩] := by
  obtain ⟨s, -, -, B, hrep, hbase, hlargest, hblocks, -⟩ := headerRun_full
  refine ⟨s.heap.mem, B, ⟨hrep.body (by simp), hrep.wf B (by simp)⟩, hbase, ?_, hblocks⟩
  rw [BucketModel.Exact, hlargest, hblocks]
  decide

/-- 64 bytes are split off the free pebble behind the one in use. -/
theorem placePebble_contract_bootHeap : ∃ (m : Mem) (B : BucketModel) (result : Nat × Mem),
    B.blocks = [⟨0x10040, 65536, true⟩, ⟨0x2007c, 3912, false⟩] ∧
      placePebble m 0x10000 64 (0 ||| pebbleFlagInUse) = some result ∧ result.1 ≠ 0 ∧
      PlacesSelected m B 64 result := by
  obtain ⟨m, B, htiled, hbase, -, hblocks⟩ := exists_twoPebbles
  obtain ⟨result, hplace, hnull, -, hplaces⟩ :=
    placePebble_contract htiled (by decide : 64 % 64 = 0)
  have hfound : result.1 ≠ 0 := by
    intro hzero
    have hnone := hnull.mp hzero ⟨0x2007c, 3912, false⟩ (by simp [hblocks])
    simp [fits] at hnone
  rw [hbase] at hplace
  exact ⟨m, B, result, hblocks, hplace, hfound, hplaces hfound⟩

/-! ## `shrink_pebble` -/

/-- The address at which `split_pebble` puts the second header, given the size it has left
in the first one. -/
def secondPebble (m : Mem) (pebble : Nat) : Nat :=
  add64 (add64 pebble MemoryPebble.sizeof) (m.get pebble MemoryPebble.size)

/-- Shrinking `b` leaves an exactly tiled bucket with at least `size` bytes in `b`, writes
no header of another pebble except a back link, and loses no byte when it cuts `b` in two. -/
structure ShrinkSound (m : Mem) (B : BucketModel) (b : Block) (size : Nat) : Prop where
  tiled : ∃ blocks, TiledBucket (shrinkPebble m b.addr size) (B.withBlocks blocks) ∧
    ∃ c ∈ blocks, c.addr = b.addr ∧ c.inUse = b.inUse ∧ size ≤ c.size
  headers : ∀ c ∈ B.blocks, c ≠ b → ∀ x, c.addr ≤ x → x < c.addr + 60 →
    ¬ (c.addr + 44 ≤ x ∧ x < c.addr + 52) → (shrinkPebble m b.addr size).byte x = m.byte x
  sum : splitPebbleTest b.size size →
    (shrinkPebble m b.addr size).get b.addr MemoryPebble.size +
      (shrinkPebble m b.addr size).get (secondPebble (shrinkPebble m b.addr size) b.addr)
        MemoryPebble.size + 60 = b.size

theorem relink_byte_outside {m : Mem} {next v x : Nat}
    (hx : next ≠ 0 → x < next + 44 ∨ next + 52 ≤ x) : (relink m next v).byte x = m.byte x := by
  rw [relink]
  split
  · next hne =>
      have hout := hx hne
      apply Mem.put_byte_outside
      simp only
      omega
  · rfl

section Shrink

variable {m : Mem} {B : BucketModel} {before after : List Block} {b : Block} {size : Nat}

/-- Where the cut is made, and that it lies behind the header of `b` or in the first two
bytes of the address space. -/
theorem cut_apart (hwf : B.WF) (hb : b ∈ B.blocks) (hsize : size ≤ b.size)
    (htest : splitPebbleTest b.size size) :
    splitSize size ≤ b.size + 1 ∧ splitSize size < 2 ^ 64 ∧ b.size + 64 < 2 ^ 64 ∧
      (b.addr + 60 ≤ add64 (add64 b.addr MemoryPebble.sizeof) (splitSize size) ∨
        add64 (add64 b.addr MemoryPebble.sizeof) (splitSize size) + 60 ≤ b.addr) := by
  have hbounds := hwf.block_bounds hb
  have hword := hwf.fits
  have hbase := hwf.base_ne
  rw [splitPebbleTest_iff (by omega) (by omega)] at htest
  have hS := splitSize_eq (r := size) (by omega)
  have hheader : add64 b.addr MemoryPebble.sizeof = b.addr + 60 :=
    add64_eq (a := b.addr) (b := 60) (by omega)
  rw [hheader]
  generalize splitSize size = S at *
  rw [add64]
  omega

/-- The link behind `b` is that of the block behind it, if there is one. -/
theorem next_cases (h : TiledBucket m B) (hblocks : B.blocks = before ++ b :: after) :
    m.get b.addr MemoryPebble.next = 0 ∨
      ∃ d ∈ B.blocks, d ≠ b ∧ d.addr = b.stop ∧ m.get b.addr MemoryPebble.next = d.addr := by
  obtain ⟨_, hpebble, _⟩ := Chain.middle_iff.mp (hblocks ▸ h.body.pebbles)
  obtain ⟨_, htiles⟩ := Tiles.middle_iff.mp (hblocks ▸ h.wf.tiles)
  rw [hpebble.next]
  cases after with
  | nil => exact .inl rfl
  | cons d rest =>
      refine .inr ⟨d, by simp [hblocks], ?_, htiles.1, rfl⟩
      rintro rfl
      have hstop := htiles.1
      simp only [Block.stop] at hstop
      omega

/-- Without room for the second header the sizes do not add up: that of the second part
has wrapped around. -/
theorem splitPebble_sum_of_not_fits (h : TiledBucket m B)
    (hblocks : B.blocks = before ++ b :: after) (hsize : size ≤ b.size)
    (htest : splitPebbleTest b.size size) (hshort : b.size < splitSize size + 60) :
    (splitPebble m b.addr size).get b.addr MemoryPebble.size +
      (splitPebble m b.addr size).get (secondPebble (splitPebble m b.addr size) b.addr)
        MemoryPebble.size + 60 = b.size + 2 ^ 64 := by
  have hb : b ∈ B.blocks := by simp [hblocks]
  obtain ⟨hS, hSword, hsword, hapart⟩ := cut_apart h.wf hb hsize htest
  have hbounds := h.wf.block_bounds hb
  have hword := h.wf.fits
  have hpebble : PebbleAt m B.base b _ _ := (Chain.middle_iff.mp (hblocks ▸ h.body.pebbles)).2.1
  generalize hcut : splitSize size = S at *
  generalize hq : add64 (add64 b.addr MemoryPebble.sizeof) S = q at *
  -- the back link behind `b` is written outside the size of the second header
  have hlink : ∀ x, q + 16 ≤ x → x < q + 24 → m.get b.addr MemoryPebble.next ≠ 0 →
      x < m.get b.addr MemoryPebble.next + 44 ∨ m.get b.addr MemoryPebble.next + 52 ≤ x := by
    intro x hlow hhigh hne
    obtain hzero | ⟨d, hd, _, hstop, hnext⟩ := next_cases h hblocks
    · exact absurd hzero hne
    · have hdbounds := h.wf.block_bounds hd
      rw [hnext, hstop, Block.stop]
      rw [Block.stop] at hstop
      have hheader : add64 b.addr MemoryPebble.sizeof = b.addr + 60 :=
        add64_eq (a := b.addr) (b := 60) (by omega)
      rw [hheader, add64_eq (by omega)] at hq
      omega
  have hsplit := splitPebble_of_test hpebble.size htest hcut hq rfl hapart
  have hfirst : (splitPebble m b.addr size).get b.addr MemoryPebble.size = S := by
    rw [hsplit, Mem.get_put_disjoint (by simp), Mem.get_put_same hSword]
  have hsecond : (splitPebble m b.addr size).get q MemoryPebble.size =
      sub64 (sub64 b.size S) MemoryPebble.sizeof := by
    rw [hsplit, Mem.get_put_disjoint (by simp; omega), Mem.get_put_disjoint (by simp; omega)]
    have hrelink : ∀ m', (relink m' (m.get b.addr MemoryPebble.next) q).get q MemoryPebble.size =
        m'.get q MemoryPebble.size :=
      fun m' => Mem.load_congr fun x hx => relink_byte_outside fun hne => hlink x hx.1 hx.2 hne
    rw [hrelink, newHeader, Mem.get_put_disjoint (by simp), Mem.get_put_disjoint (by simp),
      Mem.get_put_same (sub64_lt _ _)]
  rw [secondPebble, hfirst, hq, hsecond]
  have hrest : sub64 (sub64 b.size S) MemoryPebble.sizeof = b.size + 2 ^ 64 - S - 60 := by
    simp only [sub64, MemoryPebble.sizeof]
    omega
  rw [hrest]
  omega

/-- A cut that fits writes the two headers and the back link of the next block. -/
theorem splitPebble_headers (h : TiledBucket m B) (hblocks : B.blocks = before ++ b :: after)
    (hfits : SplitFits b size) {c : Block} (hc : c ∈ B.blocks) (hne : c ≠ b) {x : Nat}
    (hlow : c.addr ≤ x) (hhigh : x < c.addr + 60) (hlink : ¬ (c.addr + 44 ≤ x ∧ x < c.addr + 52)) :
    (splitPebble m b.addr size).byte x = m.byte x := by
  have hb : b ∈ B.blocks := by simp [hblocks]
  have hpebble : PebbleAt m B.base b _ _ := (Chain.middle_iff.mp (hblocks ▸ h.body.pebbles)).2.1
  by_cases htest : splitPebbleTest b.size size
  · have hroom := hfits htest
    have hbounds := h.wf.block_bounds hb
    have hword := h.wf.fits
    generalize hcut : splitSize size = S at *
    obtain ⟨hq, -⟩ := @splitSums b.addr b.size S hroom (by omega)
    -- the header of `c` lies apart from `b`, and its back link is the only one written
    have hapart := h.wf.tiles.disjoint hc hb hne
    simp only [Block.stop] at hapart
    have hnext : m.get b.addr MemoryPebble.next ≠ 0 →
        x < m.get b.addr MemoryPebble.next + 44 ∨ m.get b.addr MemoryPebble.next + 52 ≤ x := by
      intro hnext
      obtain hzero | ⟨d, hd, -, -, heq⟩ := next_cases h hblocks
      · exact absurd hzero hnext
      · rw [heq]
        by_cases hcd : c = d
        · rw [← hcd]
          omega
        · have hdisjoint := h.wf.tiles.disjoint hc hd hcd
          simp only [Block.stop] at hdisjoint
          omega
    rw [splitPebble_of_test hpebble.size htest hcut hq rfl (by omega),
      Mem.put_byte_outside (by simp; omega), Mem.put_byte_outside (by simp; omega),
      relink_byte_outside hnext, newHeader_byte_outside (by omega)]
  · rw [splitPebble_of_not hpebble.size htest]

/-- A cut that fits leaves the parts and the new header in the place of the block. -/
theorem splitPebble_sum_of_fits (h : TiledBucket m B) (hblocks : B.blocks = before ++ b :: after)
    (hfits : SplitFits b size) (htest : splitPebbleTest b.size size) :
    (splitPebble m b.addr size).get b.addr MemoryPebble.size +
      (splitPebble m b.addr size).get (secondPebble (splitPebble m b.addr size) b.addr)
        MemoryPebble.size + 60 = b.size := by
  have hb : b ∈ B.blocks := by simp [hblocks]
  have hroom := hfits htest
  have hbounds := h.wf.block_bounds hb
  have hword := h.wf.fits
  have hbody := (splitPebble_body h.body h.wf hblocks hfits).1
  rw [splitHead, splitTail, if_pos htest, if_pos htest] at hbody
  generalize splitPebble m b.addr size = m' at *
  generalize splitSize size = S at *
  have hhead : m'.get b.addr MemoryPebble.size = S := by
    obtain ⟨_, _, hpebble⟩ := hbody.pebble (b := { b with size := S }) (by simp)
    exact hpebble.size
  obtain ⟨hq, -⟩ := @splitSums b.addr b.size S hroom (by omega)
  have htail : m'.get (b.addr + 60 + S) MemoryPebble.size = b.size - S - 60 := by
    obtain ⟨_, _, hpebble⟩ :=
      hbody.pebble (b := ⟨b.addr + 60 + S, b.size - S - 60, b.inUse⟩) (by simp)
    exact hpebble.size
  rw [secondPebble, hhead, hq, htail]
  omega

/-- `shrink_pebble` is not sound where the split test asks for a second header and there is
no room for it. -/
theorem not_shrinkSound (h : TiledBucket m B) (hb : b ∈ B.blocks) (hsize : size ≤ b.size)
    (htest : splitPebbleTest b.size size) (hshort : b.size < splitSize size + 60) :
    ¬ ShrinkSound m B b size := by
  intro hsound
  obtain ⟨before, after, hblocks⟩ := List.append_of_mem hb
  have hsum := hsound.sum htest
  have hwrap := splitPebble_sum_of_not_fits h hblocks hsize htest hshort
  rw [shrinkPebble_eq h.wf hb] at hsum
  have habsurd : b.size + 2 ^ 64 = b.size := hwrap.symm.trans hsum
  omega

/-- `shrink_pebble` is sound exactly when the size rounded up to 64 leaves room for a
second header wherever the split test asks for one. -/
theorem shrinkPebble_sound_iff (h : TiledBucket m B) (hb : b ∈ B.blocks) (hsize : size ≤ b.size) :
    ShrinkSound m B b size ↔ SplitFits b size := by
  obtain ⟨before, after, hblocks⟩ := List.append_of_mem hb
  have hbounds := h.wf.block_bounds hb
  have hword := h.wf.fits
  constructor
  · intro hsound htest
    by_contra hshort
    exact not_shrinkSound h hb hsize htest (Nat.lt_of_not_le hshort) hsound
  · intro hfits
    constructor
    case tiled =>
      rw [shrinkPebble_eq h.wf hb]
      refine ⟨_, ⟨(splitPebble_body h.body h.wf hblocks hfits).1, h.wf.split hblocks hfits⟩,
        splitHead b size, List.mem_append_left _ (List.mem_append_right _ List.mem_cons_self),
        splitHead_addr b size, splitHead_inUse b size, le_splitHead_size hsize (by omega)⟩
    case headers =>
      intro c hc hne x hlow hhigh hlink
      rw [shrinkPebble_eq h.wf hb]
      exact splitPebble_headers h hblocks hfits hc hne hlow hhigh hlink
    case sum =>
      rw [shrinkPebble_eq h.wf hb]
      exact splitPebble_sum_of_fits h hblocks hfits

end Shrink

/-- The pebble of 64 KiB in the first bucket, cut down to 64 bytes. -/
theorem shrinkSound_full : ∃ s B, HeaderRun s ∧ TiledBucket s.heap.mem B ∧
    ⟨0x10040, 65536, true⟩ ∈ B.blocks ∧ ShrinkSound s.heap.mem B ⟨0x10040, 65536, true⟩ 64 := by
  obtain ⟨s, hrun, -, B, hrep, -, -, hblocks, -⟩ := headerRun_full
  have htiled : TiledBucket s.heap.mem B := ⟨hrep.body (by simp), hrep.wf B (by simp)⟩
  have hmem : ⟨0x10040, 65536, true⟩ ∈ B.blocks := by simp [hblocks]
  exact ⟨s, B, hrun, htiled, hmem,
    (shrinkPebble_sound_iff htiled hmem (by decide)).mpr (by decide +kernel)⟩

/-- The same pebble, cut down to 65473 bytes, which round up to all of its 65536. -/
theorem not_shrinkSound_full : ∃ s B, HeaderRun s ∧ TiledBucket s.heap.mem B ∧
    ⟨0x10040, 65536, true⟩ ∈ B.blocks ∧
      ¬ ShrinkSound s.heap.mem B ⟨0x10040, 65536, true⟩ 65473 := by
  obtain ⟨s, hrun, -, B, hrep, -, -, hblocks, -⟩ := headerRun_full
  have htiled : TiledBucket s.heap.mem B := ⟨hrep.body (by simp), hrep.wf B (by simp)⟩
  have hmem : ⟨0x10040, 65536, true⟩ ∈ B.blocks := by simp [hblocks]
  exact ⟨s, B, hrun, htiled, hmem,
    not_shrinkSound htiled hmem (by decide) (by decide +kernel) (by decide +kernel)⟩

/-! ## The fragments of `split_pebble` -/

/-- If the pebble is split, the one behind it afterwards has at least `PEBBLE_MIN_SIZE` bytes. -/
def SplitLeavesMinimum (m : Mem) (pebble size : Nat) : Prop :=
  splitPebbleTest (m.get pebble MemoryPebble.size) size →
    pebbleMinSize ≤ (splitPebble m pebble size).get
      ((splitPebble m pebble size).get pebble MemoryPebble.next) MemoryPebble.size

/-- The sizes at which the cleared bit makes the test pass too early. -/
def CutsTooThin (s r : Nat) : Prop :=
  r % 128 = 0 ∧ r + 65 ≤ s ∧ s ≤ r + 123 ∨ r % 128 = 64 ∧ r + 62 ≤ s ∧ s ≤ r + 64

instance (s r : Nat) : Decidable (CutsTooThin s r) := inferInstanceAs (Decidable (_ ∨ _))

section Minimum

variable {m : Mem} {B : BucketModel} {b : Block} {size : Nat}

theorem cutsTooThin_iff {s r : Nat} (hs : s + 64 < 2 ^ 64) (hr : r + 124 < 2 ^ 64)
    (haligned : r % 64 = 0) :
    CutsTooThin s r ↔ splitPebbleTest s r ∧ s < r + 124 := by
  rw [CutsTooThin, splitPebbleTest_iff hs hr]
  omega

/-- The size field of the second part, found through the link of the first. -/
theorem splitPebble_second (h : TiledBucket m B) (hb : b ∈ B.blocks) (hfits : SplitFits b size)
    (htest : splitPebbleTest b.size size) :
    (splitPebble m b.addr size).get ((splitPebble m b.addr size).get b.addr MemoryPebble.next)
      MemoryPebble.size = b.size - splitSize size - 60 := by
  obtain ⟨before, after, hblocks⟩ := List.append_of_mem hb
  have hchain := (splitPebble_body h.body h.wf hblocks hfits).1.pebbles
  rw [BucketModel.withBlocks_blocks, splitHead, splitTail, if_pos htest, if_pos htest,
    List.append_assoc, List.cons_append, List.singleton_append] at hchain
  obtain ⟨-, hfirst, hrest⟩ := Chain.middle_iff.mp hchain
  have hnext := hfirst.next
  rw [headAddr_cons] at hnext
  dsimp only at hnext
  rw [hnext]
  exact hrest.1.size

/-- Where the test passes, the header and the minimum have to fit behind the request. -/
theorem splitLeavesMinimum_of_test (h : TiledBucket m B) (hb : b ∈ B.blocks) (hsize : size ≤ b.size)
    (haligned : size % 64 = 0) (htest : splitPebbleTest b.size size) :
    SplitLeavesMinimum m b.addr size ↔ size + 124 ≤ b.size := by
  have hbounds := h.wf.block_bounds hb
  have hword := h.wf.fits
  obtain ⟨prev, next, hpebble⟩ := h.body.pebble hb
  have hcut : splitSize size = size := by
    rw [splitSize_eq (by omega)]
    omega
  have hfits := splitFits_of_aligned (b := b) (by omega) (by omega) haligned
  have hroom := hfits htest
  have hsecond := splitPebble_second h hb hfits htest
  rw [hcut] at hroom hsecond
  rw [SplitLeavesMinimum, hpebble.size, hsecond, forall_prop_of_true htest, pebbleMinSize]
  omega

/-- A split leaves `PEBBLE_MIN_SIZE` bytes except at the sizes where it cuts too thin. -/
theorem splitLeavesMinimum_iff (h : TiledBucket m B) (hb : b ∈ B.blocks) (hsize : size ≤ b.size)
    (haligned : size % 64 = 0) :
    SplitLeavesMinimum m b.addr size ↔ ¬ CutsTooThin b.size size := by
  have hbounds := h.wf.block_bounds hb
  have hword := h.wf.fits
  obtain ⟨prev, next, hpebble⟩ := h.body.pebble hb
  rw [cutsTooThin_iff (by omega) (by omega) haligned]
  by_cases htest : splitPebbleTest b.size size
  · rw [splitLeavesMinimum_of_test h hb hsize haligned htest, and_iff_right htest]
    omega
  · refine iff_of_true (fun hpass => ?_) fun hthin => htest hthin.1
    rw [hpebble.size] at hpass
    exact absurd hpass htest

end Minimum

/-- The first part of the free pebble of `bootHeap`, cut at 4096 bytes. -/
theorem bootHeap_cut :
    TiledBucket (splitPebble bootHeap.mem 0x10040 4096) ((freshBucket 0x10000 69632).withBlocks
      [⟨0x10040, 4096, false⟩, ⟨0x1107c, 65352, false⟩]) := by
  have hfits : SplitFits ⟨0x10040, 69508, false⟩ 4096 :=
    splitFits_of_aligned (by decide) (by decide) (by decide)
  have hblocks : (freshBucket 0x10000 69632).blocks = [] ++ ⟨0x10040, 69508, false⟩ :: [] := rfl
  have hparts : splitHead ⟨0x10040, 69508, false⟩ 4096 = ⟨0x10040, 4096, false⟩ ∧
      splitTail ⟨0x10040, 69508, false⟩ 4096 = [⟨0x1107c, 65352, false⟩] := by
    have htest : splitPebbleTest 69508 4096 = true :=
      (splitPebbleTest_iff (by decide) (by decide)).mpr (by decide)
    rw [splitHead, splitTail, if_pos htest, if_pos htest, splitSize_eq (by decide)]
    exact ⟨rfl, rfl⟩
  have hwf := bootHeap_tiled.wf.split hblocks hfits
  have hbody := (splitPebble_body bootHeap_tiled.body bootHeap_tiled.wf hblocks hfits).1
  rw [hparts.1, hparts.2] at hwf hbody
  exact ⟨hbody, hwf⟩

/-- A request that leaves 124 bytes, one header and the minimum. -/
theorem bootHeap_splitLeavesMinimum :
    SplitLeavesMinimum (splitPebble bootHeap.mem 0x10040 4096) 0x10040 3968 :=
  (splitLeavesMinimum_iff bootHeap_cut List.mem_cons_self (by decide) (by decide)).mpr (by decide)

/-- A request of 4032 of 4096 bytes leaves 4 bytes. -/
theorem not_splitLeavesMinimum : ¬ ∀ (m : Mem) (B : BucketModel) (b : Block) (size : Nat),
    TiledBucket m B → b ∈ B.blocks → b.inUse = false → b.size < 2 ^ 63 → size ≤ b.size →
    size % 64 = 0 → SplitLeavesMinimum m b.addr size := by
  intro h
  have hminimum := h _ _ ⟨0x10040, 4096, false⟩ 4032 bootHeap_cut List.mem_cons_self rfl
    (by decide) (by decide) (by decide)
  have htest : splitPebbleTest 4096 4032 = true :=
    (splitPebbleTest_iff (by decide) (by decide)).mpr (by decide)
  rw [splitLeavesMinimum_of_test bootHeap_cut List.mem_cons_self (by decide) (by decide) htest]
    at hminimum
  revert hminimum
  decide

end FroggyOs
