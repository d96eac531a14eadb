import FroggyOs.Klibc.PebbleOps

/-!
# Freeing inside one bucket

`melt_prev` and `absorb_next` are the same edit of two free neighbours, made from either
side. Freeing a pebble marks it and runs both, so on the list of blocks it is `release`.
The cached maximum stays the maximum of all payload sizes, of used and free pebbles
alike: every operation that changes a size recomputes it.
-/

namespace FroggyOs

open ByteMemory Word64 LinkedChain

-- the walks take a literal fuel that must not be unfolded
attribute [local irreducible] bucketUpdateLargest

/-! ## Steps of one bucket -/

/-- The bucket `B` becomes `B'`, and nothing outside it changes. -/
structure BucketStep (m : Mem) (B : BucketModel) (m' : Mem) (B' : BucketModel) : Prop where
  base_eq : B'.base = B.base
  pages_eq : B'.pages = B.pages
  wf : B'.WF
  body : BucketBody m' B'
  changes : ChangesOnly B m m'

namespace BucketStep

variable {m m' m'' : Mem} {B B' B'' : BucketModel}

theorem refl (h : BucketBody m B) (hwf : B.WF) : BucketStep m B m B :=
  ⟨rfl, rfl, hwf, h, ChangesOnly.refl B m⟩

theorem writes_iff (h : BucketStep m B m' B') (x : Nat) : B'.Writes x ↔ B.Writes x := by
  rw [BucketModel.Writes, BucketModel.Writes, BucketModel.stop, BucketModel.stop, h.base_eq,
    h.pages_eq]

theorem stop_eq (h : BucketStep m B m' B') : B'.stop = B.stop := by
  rw [BucketModel.stop, BucketModel.stop, h.base_eq, h.pages_eq]

theorem trans (h : BucketStep m B m' B') (h' : BucketStep m' B' m'' B'') :
    BucketStep m B m'' B'' where
  base_eq := h'.base_eq.trans h.base_eq
  pages_eq := h'.pages_eq.trans h.pages_eq
  wf := h'.wf
  body := h'.body
  changes := h.changes.trans fun x hx => h'.changes x (mt (h.writes_iff x).mp hx)

end BucketStep

/-! ## `bucket_update_largest` -/

section Largest

variable {xs : List Block} {ret bound : Nat}

theorem maxSize_cons (b : Block) (xs : List Block) (ret : Nat) :
    maxSize (b :: xs) ret = maxSize xs (if b.size > ret then b.size else ret) := rfl

theorem le_maxSize_ret (xs : List Block) (ret : Nat) : ret ≤ maxSize xs ret := by
  induction xs generalizing ret with
  | nil => exact Nat.le_refl _
  | cons b rest ih =>
      refine Nat.le_trans ?_ (ih (if b.size > ret then b.size else ret))
      split <;> omega

theorem le_maxSize {b : Block} (hb : b ∈ xs) : b.size ≤ maxSize xs ret := by
  induction xs generalizing ret with
  | nil => cases hb
  | cons c rest ih =>
      obtain rfl | hb := List.mem_cons.mp hb
      · refine Nat.le_trans ?_ (le_maxSize_ret rest (if b.size > ret then b.size else ret))
        split <;> omega
      · exact ih hb

theorem maxSize_le (hret : ret ≤ bound) (hxs : ∀ b ∈ xs, b.size ≤ bound) :
    maxSize xs ret ≤ bound := by
  induction xs generalizing ret with
  | nil => exact hret
  | cons b rest ih =>
      rw [maxSize_cons]
      apply ih
      · have hb := hxs b List.mem_cons_self
        split <;> omega
      · exact fun c hc => hxs c (List.mem_cons_of_mem b hc)

/-- The cached maximum counts every payload, free or used. -/
def BucketModel.Exact (B : BucketModel) : Prop := B.largest = maxSize B.blocks 0

variable {m : Mem} {B : BucketModel}

theorem BucketModel.WF.maxSize_lt (hwf : B.WF) : maxSize B.blocks 0 < 2 ^ 64 := by
  have hfits := hwf.fits
  have hle : maxSize B.blocks 0 ≤ B.stop - 60 := by
    apply maxSize_le (Nat.zero_le _)
    intro b hb
    have hbounds := hwf.block_bounds hb
    omega
  omega

theorem BucketModel.WF.withLargest (hwf : B.WF) (largest : Nat) : { B with largest }.WF :=
  ⟨hwf.base_ne, hwf.fits, hwf.tiles, hwf.nonempty⟩

theorem bucketUpdateLargest_walk (hfirst : m.get B.base MemoryBucket.first = B.base + 64)
    (h : WalkChain m 0 B.blocks 0) (hwf : B.WF) :
    bucketUpdateLargest m B.base =
      some (m.put B.base MemoryBucket.largestFree (maxSize B.blocks 0)) := by
  rw [bucketUpdateLargest, hfirst, ← hwf.headAddr_eq,
    largestFrom_eq h hwf.tiles (by omega) hwf.length_lt]
  rfl

theorem bucketUpdateLargest_eq (h : BucketBody m B) (hwf : B.WF) :
    bucketUpdateLargest m B.base =
      some (m.put B.base MemoryBucket.largestFree (maxSize B.blocks 0)) :=
  bucketUpdateLargest_walk h.first h.pebbles.walk hwf

theorem updateLargest_step (h : BucketBody m B) (hwf : B.WF) :
    BucketStep m B (m.put B.base MemoryBucket.largestFree (maxSize B.blocks 0))
      { B with largest := maxSize B.blocks 0 } where
  base_eq := rfl
  pages_eq := rfl
  wf := hwf.withLargest _
  body :=
    { size := (Mem.get_put_disjoint (by simp)).trans h.size
      largest := Mem.get_put_same hwf.maxSize_lt
      first := (Mem.get_put_disjoint (by simp)).trans h.first
      pebbles := PebbleChain.put_other h.pebbles hwf.tiles (by simp) }
  changes := ChangesOnly.put_largest m _

end Largest

/-! ## Merging two neighbours -/

/-- The assignments `melt_prev` and `absorb_next` share: the pebble `a` takes over the
pebble `b` behind it. -/
def mergePebbles (m : Mem) (a b : Nat) : Mem :=
  let m := m.put a MemoryPebble.size (add64 (m.get a MemoryPebble.size)
    (add64 (m.get b MemoryPebble.size) MemoryPebble.sizeof))
  let m := m.put a MemoryPebble.next (m.get b MemoryPebble.next)
  relink m (m.get b MemoryPebble.next) a

section Merge

variable {m : Mem} {B : BucketModel} {before after : List Block} {a b : Block}

/-- What the shared assignments do, and which bytes of the two pebbles they keep. -/
theorem mergePebbles_spec (h : BucketBody m B) (hwf : B.WF)
    (hblocks : B.blocks = before ++ a :: b :: after) (ha : a.inUse = false) :
    BucketStep m B (mergePebbles m a.addr b.addr)
        (B.withBlocks (before ++ mergeBlocks a b :: after)) ∧
      ∀ x, a.addr ≤ x ∧ x < a.addr + 16 ∨ a.addr + 60 ≤ x ∧ x < b.stop →
        (mergePebbles m a.addr b.addr).byte x = m.byte x := by
  obtain ⟨hbefore, hpa, hrest⟩ := Chain.middle_iff.mp (hblocks ▸ h.pebbles)
  obtain ⟨hpb, hafter⟩ := hrest
  have htiles := hwf.tiles
  rw [hblocks] at htiles
  obtain ⟨htilesB, hbaddr, htilesA⟩ := Tiles.middle_iff.mp htiles
  have hlow := htilesB.le
  have hhigh := htilesA.le
  have hword := hwf.fits
  have hstop : a.addr + 60 + a.size = b.addr := hbaddr.symm
  have hbstop : b.stop = b.addr + 60 + b.size := rfl
  have hmerged : (mergeBlocks a b).stop = b.stop := by
    simp only [mergeBlocks, Block.stop]
    omega
  have hsize : add64 a.size (add64 b.size MemoryPebble.sizeof) = a.size + b.size + 60 := by
    have hinner : add64 b.size MemoryPebble.sizeof = b.size + 60 :=
      add64_eq (a := b.size) (b := 60) (by omega)
    rw [hinner, add64_eq (by omega)]
    omega
  generalize hprev : lastAddr Block.addr 0 before = prev at *
  generalize hnext : headAddr Block.addr after 0 = next at *
  -- the size and the forward link of the first pebble
  generalize hm₁ : m.put a.addr MemoryPebble.size (a.size + b.size + 60) = m₁
  have ha₁ : PebbleAt m₁ B.base { a with size := a.size + b.size + 60 } prev b.addr := by
    rw [← hm₁]
    exact hpa.put_size (by omega)
  have hb₁ : PebbleAt m₁ B.base b a.addr next := by
    rw [← hm₁]
    exact hpb.put_other (.inl (by simp; omega))
  have hnextlt : next < 2 ^ 64 := by
    rw [← hpb.next]
    exact Mem.get_lt m _ _
  generalize hm₂ : m₁.put a.addr MemoryPebble.next next = m₂
  have ha₂ : PebbleAt m₂ B.base { a with size := a.size + b.size + 60 } prev next := by
    rw [← hm₂]
    exact ha₁.put_next hnextlt
  have hb₂ : PebbleAt m₂ B.base b a.addr next := by
    rw [← hm₂]
    exact hb₁.put_other (.inl (by simp; omega))
  have hother₂ : ∀ x, x < a.addr + 16 ∨ a.addr + 60 ≤ x → m₂.byte x = m.byte x := by
    intro x hx
    rw [← hm₂, Mem.put_byte_outside (by simp; omega), ← hm₁, Mem.put_byte_outside (by simp; omega)]
  -- the back link of the pebble behind
  have hafter₂ : PebbleChain m₂ B.base b.addr after 0 :=
    PebbleChain.frame hafter htilesA fun x hx _ => hother₂ x (.inr (by omega))
  obtain ⟨hafter₃, hother₃⟩ := PebbleChain.relink hafter₂ htilesA (by omega)
    (by omega : a.addr < 2 ^ 64)
  rw [hnext] at hafter₃ hother₃
  have hresult : mergePebbles m a.addr b.addr = relink m₂ next a.addr := by
    rw [mergePebbles, hpa.size, hpb.size, hsize]
    simp only [hm₁, hb₁.next, hm₂, hb₂.next]
  rw [hresult]
  have hchange : ∀ x, x < a.addr + 16 ∨ a.addr + 60 ≤ x ∧ x < b.stop ∨ B.stop ≤ x →
      (relink m₂ next a.addr).byte x = m.byte x := by
    intro x hx
    rw [hother₃ x (by omega), hother₂ x (by omega)]
  refine ⟨⟨rfl, rfl, ?_, ?_, ChangesOnly.of_region fun x hx => hchange x (by omega)⟩,
    fun x hx => hchange x (by omega)⟩
  · exact hwf.withBlocks (Tiles.middle_iff.mpr ⟨htilesB, hmerged ▸ htilesA⟩) (by simp)
  · apply h.of_pebbles fun x _ hx => hchange x (by omega)
    refine Chain.middle_iff.mpr ⟨?_, ?_, hafter₃⟩
    · exact PebbleChain.frame hbefore htilesB fun x _ hx => hchange x (by omega)
    · rw [hprev, hnext]
      have hblock : mergeBlocks a b = { a with size := a.size + b.size + 60 } := by
        rw [mergeBlocks, ha]
      rw [hblock]
      exact ha₂.frame fun x hxl hxh => hother₃ x (.inl (by simp only at hxl hxh; omega))

/-- The merge followed by the new maximum. -/
theorem mergePebbles_update (h : BucketBody m B) (hwf : B.WF)
    (hblocks : B.blocks = before ++ a :: b :: after) (ha : a.inUse = false) :
    ∃ m' B', bucketUpdateLargest (mergePebbles m a.addr b.addr) B.base = some m' ∧
      BucketStep m B m' B' ∧ B'.blocks = before ++ mergeBlocks a b :: after ∧ B'.Exact ∧
      ∀ x, a.addr ≤ x ∧ x < a.addr + 16 ∨ a.addr + 60 ≤ x ∧ x < b.stop →
        m'.byte x = m.byte x := by
  obtain ⟨hmerge, hkept⟩ := mergePebbles_spec h hwf hblocks ha
  have hupdate := bucketUpdateLargest_eq hmerge.body hmerge.wf
  have hstep := updateLargest_step hmerge.body hmerge.wf
  have ha := hwf.block_bounds (b := a) (by simp [hblocks])
  refine ⟨_, _, hupdate, hmerge.trans hstep, rfl, rfl, fun x hx => ?_⟩
  rw [Mem.put_byte_outside (by simp; omega), hkept x hx]

/-- The body of `melt_prev`, reached between two free neighbours. -/
theorem meltPrev_of_free (h : BucketBody m B) (hwf : B.WF)
    (hblocks : B.blocks = before ++ a :: b :: after) (ha : a.inUse = false)
    (hb : b.inUse = false) :
    meltPrev m b.addr =
      (bucketUpdateLargest (mergePebbles m a.addr b.addr) B.base).bind fun m' =>
        some (a.addr, m') := by
  obtain ⟨hbefore, hpa, hpb, hafter⟩ := Chain.middle_iff.mp (hblocks ▸ h.pebbles)
  have habounds := hwf.block_bounds (b := a) (by simp [hblocks])
  have htiles := hwf.tiles
  rw [hblocks] at htiles
  have hbaddr : b.addr = a.addr + 60 + a.size := (Tiles.middle_iff.mp htiles).2.1
  obtain ⟨hmerge, hkept⟩ := mergePebbles_spec h hwf hblocks ha
  have hpb₁ : ∀ v, PebbleAt (m.put a.addr MemoryPebble.size v) B.base b _ _ :=
    fun v => hpb.put_other (.inl (by simp; omega))
  have hpb₂ : ∀ v w, PebbleAt ((m.put a.addr MemoryPebble.size v).put a.addr MemoryPebble.next w)
      B.base b _ _ := fun v w => (hpb₁ v).put_other (.inl (by simp; omega))
  have hpb₃ : PebbleAt (mergePebbles m a.addr b.addr) B.base b _ _ :=
    hpb.frame fun x hl hh => hkept x (.inr (by simp only [Block.stop]; omega))
  have hpa₃ : PebbleAt (mergePebbles m a.addr b.addr) B.base (mergeBlocks a b) _ _ :=
    (Chain.middle_iff.mp hmerge.body.pebbles).2.1
  have hfirst : ¬ B.base + 64 = b.addr := by omega
  rw [meltPrev, if_pos (by
    rw [hpb.prev, hpb.isPebbleFree_iff, hpa.isPebbleFree_iff, ha, hb]
    exact ⟨⟨by omega, by omega⟩, rfl, rfl⟩)]
  simp only [hpb.parent, h.first, hfirst, if_false, hpb.prev, (hpb₁ _).prev, (hpb₂ _ _).prev]
  change (bucketUpdateLargest (mergePebbles m a.addr b.addr)
      ((mergePebbles m a.addr b.addr).get
        ((mergePebbles m a.addr b.addr).get b.addr MemoryPebble.prev) MemoryPebble.parent)).bind
    (fun m' => some ((mergePebbles m a.addr b.addr).get b.addr MemoryPebble.prev, m')) = _
  have hparent : (mergePebbles m a.addr b.addr).get a.addr MemoryPebble.parent = B.base :=
    hpa₃.parent
  rw [hpb₃.prev, hparent]
/-- `melt_prev` on a pebble that has just been freed. -/
theorem meltPrev_spec (h : BucketBody m B) (hwf : B.WF)
    (hblocks : B.blocks = before ++ b :: after) (hb : b.inUse = false) :
    ∃ m' B', meltPrev m b.addr = some ((melt before b).2.addr, m') ∧ BucketStep m B m' B' ∧
      B'.blocks = (melt before b).1 ++ (melt before b).2 :: after ∧ (B.Exact → B'.Exact) ∧
      ∀ x, b.addr ≤ x → x < b.addr + 60 → m'.byte x = m.byte x := by
  obtain ⟨hbefore, hpb, hafter⟩ := Chain.middle_iff.mp (hblocks ▸ h.pebbles)
  have hbounds := hwf.block_bounds (b := b) (by simp [hblocks])
  have hbne : b.addr ≠ 0 := by omega
  have hsame : melt before b = (before, b) → meltPrev m b.addr = some (b.addr, m) →
      ∃ m' B', meltPrev m b.addr = some ((melt before b).2.addr, m') ∧ BucketStep m B m' B' ∧
        B'.blocks = (melt before b).1 ++ (melt before b).2 :: after ∧ (B.Exact → B'.Exact) ∧
        ∀ x, b.addr ≤ x → x < b.addr + 60 → m'.byte x = m.byte x := by
    intro hmelt hcall
    rw [hmelt]
    exact ⟨m, B, hcall, BucketStep.refl h hwf, hblocks, id, fun _ _ _ => rfl⟩
  obtain rfl | ⟨front, a, rfl⟩ := List.eq_nil_or_concat' before
  · apply hsame (melt_nil b)
    rw [meltPrev, if_neg (by rw [hpb.prev]; simp)]
  · rw [List.append_assoc, List.singleton_append] at hblocks
    obtain ⟨hfront, hpa, hrest⟩ := Chain.middle_iff.mp (hblocks ▸ h.pebbles)
    have habounds := hwf.block_bounds (b := a) (by simp [hblocks])
    have htiles := hwf.tiles
    rw [hblocks] at htiles
    have hbaddr : b.addr = a.addr + 60 + a.size := (Tiles.middle_iff.mp htiles).2.1
    have hprev : m.get b.addr MemoryPebble.prev = a.addr := hrest.1.prev
    cases ha : a.inUse with
    | true =>
        apply hsame (melt_used ha)
        rw [meltPrev, hprev, hpa.isPebbleFree_iff, ha, if_neg (by simp)]
    | false =>
        obtain ⟨m', B', hupdate, hstep, hnew, hexact, hkept⟩ :=
          mergePebbles_update h hwf hblocks ha
        rw [melt_free ha hb]
        refine ⟨m', B', ?_, hstep, hnew, fun _ => hexact, fun x hl hh => hkept x (.inr ?_)⟩
        · rw [meltPrev_of_free h hwf hblocks ha hb, hupdate, Option.bind_some]
          rfl
        · simp only [Block.stop]
          omega

/-- The body of `absorb_next`, reached between two free neighbours. -/
theorem absorbNext_of_free (h : BucketBody m B) (hwf : B.WF)
    (hblocks : B.blocks = before ++ a :: b :: after) (ha : a.inUse = false)
    (hb : b.inUse = false) :
    absorbNext m a.addr = bucketUpdateLargest (mergePebbles m a.addr b.addr) B.base := by
  obtain ⟨hbefore, hpa, hpb, hafter⟩ := Chain.middle_iff.mp (hblocks ▸ h.pebbles)
  have habounds := hwf.block_bounds (b := a) (by simp [hblocks])
  have htiles := hwf.tiles
  rw [hblocks] at htiles
  have hbaddr : b.addr = a.addr + 60 + a.size := (Tiles.middle_iff.mp htiles).2.1
  obtain ⟨hmerge, -⟩ := mergePebbles_spec h hwf hblocks ha
  have hnextlt : headAddr Block.addr after 0 < 2 ^ 64 := by
    rw [← hpb.next]
    exact Mem.get_lt m _ _
  have hpb₁ : ∀ v, PebbleAt (m.put a.addr MemoryPebble.size v) B.base b _ _ :=
    fun v => hpb.put_other (.inl (by simp; omega))
  have hpb₂ : ∀ v w, PebbleAt ((m.put a.addr MemoryPebble.size v).put a.addr MemoryPebble.next w)
      B.base b _ _ := fun v w => (hpb₁ v).put_other (.inl (by simp; omega))
  have hnext₂ : ∀ v, ((m.put a.addr MemoryPebble.size v).put a.addr MemoryPebble.next
      (headAddr Block.addr after 0)).get a.addr MemoryPebble.next = headAddr Block.addr after 0 :=
    fun v => Mem.get_put_same hnextlt
  have hpa₃ : PebbleAt (mergePebbles m a.addr b.addr) B.base (mergeBlocks a b) _ _ :=
    (Chain.middle_iff.mp hmerge.body.pebbles).2.1
  have hparent : (mergePebbles m a.addr b.addr).get a.addr MemoryPebble.parent = B.base :=
    hpa₃.parent
  have hfirst : ¬ B.base + 64 = b.addr := by omega
  have hmergeEq : mergePebbles m a.addr b.addr =
      relink ((m.put a.addr MemoryPebble.size (add64 a.size (add64 b.size MemoryPebble.sizeof))).put
        a.addr MemoryPebble.next (headAddr Block.addr after 0)) (headAddr Block.addr after 0)
        a.addr := by
    rw [mergePebbles, hpa.size, hpb.size]
    simp only [(hpb₁ _).next, (hpb₂ _ _).next]
  rw [hmergeEq] at hparent ⊢
  rw [relink] at hparent
  have hanext : m.get a.addr MemoryPebble.next = b.addr := hpa.next
  rw [absorbNext, hanext, if_pos (by
    rw [hpb.isPebbleFree_iff, hpa.isPebbleFree_iff, ha, hb]
    exact ⟨⟨by omega, by omega⟩, rfl, rfl⟩)]
  simp only [hpa.parent, h.first, hfirst, if_false, hanext, hpa.size, hpb.size, (hpb₁ _).next,
    hnext₂, hparent, relink]

/-- `absorb_next` on a free pebble. -/
theorem absorbNext_spec (h : BucketBody m B) (hwf : B.WF)
    (hblocks : B.blocks = before ++ b :: after) (hb : b.inUse = false) :
    ∃ m' B', absorbNext m b.addr = some m' ∧ BucketStep m B m' B' ∧
      B'.blocks = before ++ absorb b after ∧ (B.Exact → B'.Exact) ∧
      ∀ x, b.addr ≤ x ∧ x < b.addr + 16 ∨ b.addr + 60 ≤ x ∧ x < b.stop →
        m'.byte x = m.byte x := by
  obtain ⟨hbefore, hpb, hafter⟩ := Chain.middle_iff.mp (hblocks ▸ h.pebbles)
  have hsame : absorb b after = b :: after → absorbNext m b.addr = some m →
      ∃ m' B', absorbNext m b.addr = some m' ∧ BucketStep m B m' B' ∧
        B'.blocks = before ++ absorb b after ∧ (B.Exact → B'.Exact) ∧
        ∀ x, b.addr ≤ x ∧ x < b.addr + 16 ∨ b.addr + 60 ≤ x ∧ x < b.stop →
          m'.byte x = m.byte x := by
    intro habsorb hcall
    rw [habsorb]
    exact ⟨m, B, hcall, BucketStep.refl h hwf, hblocks, id, fun _ _ => rfl⟩
  cases after with
  | nil =>
      apply hsame (absorb_nil b)
      rw [absorbNext, if_neg (by rw [hpb.next]; simp)]
  | cons c rest =>
      have hnext : m.get b.addr MemoryPebble.next = c.addr := hpb.next
      cases hc : c.inUse with
      | true =>
          apply hsame (absorb_used hc)
          rw [absorbNext, hnext, hafter.1.isPebbleFree_iff, hc, if_neg (by simp)]
      | false =>
          have hstop : c.stop = b.stop + 60 + c.size := by
            have htiles := hwf.tiles
            rw [hblocks] at htiles
            have hcaddr := (Tiles.middle_iff.mp htiles).2.1
            rw [Block.stop, hcaddr]
          obtain ⟨m', B', hupdate, hstep, hnew, hexact, hkept⟩ :=
            mergePebbles_update h hwf hblocks hb
          rw [absorb_free hb hc]
          exact ⟨m', B', (absorbNext_of_free h hwf hblocks hb hc).trans hupdate, hstep, hnew,
            fun _ => hexact, fun x hx => hkept x (by omega)⟩

end Merge

/-! ## Freeing a pebble -/

section FreePebble

variable {m : Mem} {B : BucketModel} {before after : List Block} {b : Block}

theorem maxSize_free (before : List Block) (b : Block) (after : List Block) (ret : Nat) :
    maxSize (before ++ b.free :: after) ret = maxSize (before ++ b :: after) ret := by
  rw [maxSize, maxSize, List.foldl_append, List.foldl_append]
  rfl

/-- The two assignments of `kfree` to the pebble. -/
theorem markFree_step (h : BucketBody m B) (hwf : B.WF)
    (hblocks : B.blocks = before ++ b :: after) :
    BucketStep m B ((m.put b.addr MemoryPebble.lflags pebbleFlagFree).put b.addr
      MemoryPebble.alignment 1) (B.withBlocks (before ++ b.free :: after)) := by
  obtain ⟨hbody, hchanges⟩ := markPebble_body h hwf hblocks false
  have htiles := hwf.tiles
  rw [hblocks] at htiles
  have hwf' : (B.withBlocks (before ++ b.free :: after)).WF := hwf.withBlocks htiles.free (by simp)
  obtain ⟨hbefore, hpb, hafter⟩ := Chain.middle_iff.mp hbody.pebbles
  obtain ⟨htilesB, htilesA⟩ := Tiles.middle_iff.mp htiles
  have hbounds := hwf.block_bounds (b := b) (by simp [hblocks])
  refine ⟨rfl, rfl, hwf', ?_, hchanges.trans (ChangesOnly.of_region fun x hx => ?_)⟩
  · refine hbody.of_pebbles (fun x _ hx => Mem.put_byte_outside (.inl ?_)) (Chain.middle_iff.mpr
      ⟨?_, hpb.put_alignment 1, ?_⟩)
    · rw [BucketModel.withBlocks_base] at hx
      simp
      omega
    · exact PebbleChain.put_other hbefore htilesB (.inr (by simp))
    · exact PebbleChain.put_other hafter htilesA (.inl (by simp [Block.stop]; omega))
  · apply Mem.put_byte_outside
    simp
    omega

/-- Marking, melting and absorbing: the bucket's blocks become `release before b after`,
the cached maximum stays exact and the freed header stays marked free. -/
theorem freePebble_spec (h : BucketBody m B) (hwf : B.WF)
    (hblocks : B.blocks = before ++ b :: after) :
    ∃ m₁ m₂ p B', meltPrev ((m.put b.addr MemoryPebble.lflags pebbleFlagFree).put b.addr
        MemoryPebble.alignment 1) b.addr = some (p, m₁) ∧
      absorbNext m₁ p = some m₂ ∧ m₂.get p MemoryPebble.parent = B.base ∧ B.base + 64 ≤ p ∧
      BucketStep m B m₂ B' ∧ B'.blocks = release before b after ∧ (B.Exact → B'.Exact) ∧
      m₂.get b.addr MemoryPebble.lflags = pebbleFlagFree := by
  have hmark := markFree_step h hwf hblocks
  have hflags : ((m.put b.addr MemoryPebble.lflags pebbleFlagFree).put b.addr
      MemoryPebble.alignment 1).get b.addr MemoryPebble.lflags = pebbleFlagFree :=
    (Mem.get_put_disjoint (by simp)).trans (Mem.get_put_same (by decide))
  generalize hm₀ : (m.put b.addr MemoryPebble.lflags pebbleFlagFree).put b.addr
    MemoryPebble.alignment 1 = m₀ at *
  obtain ⟨m₁, B₁, hmelt, hstep₁, hblocks₁, hexact₁, hkept₁⟩ :=
    meltPrev_spec hmark.body hmark.wf rfl (Block.free_inUse b)
  have hinUse : (melt before b.free).2.inUse = false := by
    obtain hsame | ⟨front, a, -, -, -, hmerged⟩ := melt_cases before b.free
    · rw [hsame, Block.free_inUse]
    · rw [hmerged, mergeBlocks_inUse]
  obtain ⟨m₂, B₂, habsorb, hstep₂, hblocks₂, hexact₂, hkept₂⟩ :=
    absorbNext_spec hstep₁.body hstep₁.wf hblocks₁ hinUse
  refine ⟨m₁, m₂, _, B₂, hmelt, habsorb, ?_, ?_, (hmark.trans hstep₁).trans hstep₂, hblocks₂,
    fun hexact => hexact₂ (hexact₁ ?_), ?_⟩
  · obtain ⟨c, rest, habsorbed, haddr⟩ := absorb_cons (melt before b.free).2 after
    have hpebbles := hstep₂.body.pebbles
    rw [hblocks₂, habsorbed] at hpebbles
    have hparent := (Chain.middle_iff.mp hpebbles).2.1.parent
    rw [haddr, hstep₂.base_eq, hstep₁.base_eq] at hparent
    exact hparent
  · have hbounds := hstep₁.wf.block_bounds (b := (melt before b.free).2) (by simp [hblocks₁])
    rw [hstep₁.base_eq] at hbounds
    exact hbounds.1
  · rw [BucketModel.Exact, BucketModel.withBlocks_largest, BucketModel.withBlocks_blocks,
      maxSize_free, ← hblocks]
    exact hexact
  · have hsame₁ : m₁.get b.addr MemoryPebble.lflags = m₀.get b.addr MemoryPebble.lflags :=
      SameBytes.get hkept₁ (by decide)
    have hsame₂ : m₂.get b.addr MemoryPebble.lflags = m₁.get b.addr MemoryPebble.lflags := by
      obtain hsame | ⟨front, a, rfl, -, -, hmerged⟩ := melt_cases before b.free
      · rw [hsame] at hkept₂
        exact SameBytes.get (n := 16) (fun x hl hh => hkept₂ x (.inl ⟨hl, hh⟩)) (by decide)
      · rw [hmerged] at hkept₂
        have htiles := hwf.tiles
        rw [hblocks, List.append_assoc] at htiles
        have hbaddr : b.addr = a.addr + 60 + a.size := (Tiles.middle_iff.mp htiles).2.1
        refine SameBytes.get (n := 60) (fun x hl hh => hkept₂ x (.inr ?_)) (by decide)
        simp only [mergeBlocks, Block.stop, Block.free_size]
        omega
    rw [hsame₂, hsame₁, hflags]

end FreePebble

/-! ## Idle buckets -/

/-- The bucket is one free pebble. -/
def BucketModel.idle (B : BucketModel) : Bool :=
  match B.blocks with
  | [c] => !c.inUse
  | _ => false

theorem idle_iff {m : Mem} {B : BucketModel} (h : BucketBody m B) (hwf : B.WF) :
    (isPebbleFree m (m.get B.base MemoryBucket.first) ∧
      m.get (m.get B.base MemoryBucket.first) MemoryPebble.prev = 0 ∧
      m.get (m.get B.base MemoryBucket.first) MemoryPebble.next = 0) ↔ B.idle = true := by
  rw [h.first_eq hwf]
  have hpebbles := h.pebbles
  have htiles := hwf.tiles
  cases hblocks : B.blocks with
  | nil => exact absurd hblocks hwf.nonempty
  | cons c rest =>
      rw [hblocks] at hpebbles htiles
      obtain ⟨hpebble, -⟩ := hpebbles
      rw [headAddr_cons, hpebble.isPebbleFree_iff, hpebble.prev, hpebble.next, BucketModel.idle,
        hblocks]
      cases rest with
      | nil => simp
      | cons d rest =>
          have hd := (htiles.2.1 : d.addr = c.stop)
          have hdne : d.addr ≠ 0 := by
            rw [hd, Block.stop]
            omega
          simp [hdne]

end FroggyOs
