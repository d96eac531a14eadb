import FroggyOs.Klibc.HeapRep

/-!
# The operations inside one bucket

Each function of the allocator that works on the pebbles of one bucket is an operation
on the list of its blocks: it keeps the bucket represented and changes no byte that the
bucket does not own.
-/

namespace FroggyOs

open ByteMemory Word64 LinkedChain

/-! ## `split_pebble` -/

section SplitPebble

variable {m : Mem} {B : BucketModel} {before after : List Block} {b : Block} {r : Nat}

theorem splitPebble_of_not (hsize : m.get b.addr MemoryPebble.size = b.size)
    (htest : ¬ splitPebbleTest b.size r) : splitPebble m b.addr r = m := by
  rw [splitPebble, hsize, if_neg htest]

/-- The header `split_pebble` writes for the second part: a copy of the first one with
three fields changed. -/
def newHeader (m : Mem) (thisPebble newPebble size : Nat) : Mem :=
  (((memcpy m newPebble thisPebble MemoryPebble.sizeof).put newPebble MemoryPebble.size size).put
    newPebble MemoryPebble.alignment 1).put newPebble MemoryPebble.prev thisPebble

theorem newHeader_byte_outside {p q size x : Nat} (hx : x < q ∨ q + 60 ≤ x) :
    (newHeader m p q size).byte x = m.byte x := by
  rw [newHeader, Mem.put_byte_outside (by simp; omega), Mem.put_byte_outside (by simp; omega),
    Mem.put_byte_outside (by simp; omega), memcpy_byte_outside hx]

/-- The stores of a split whose new header lies apart from the old one. -/
theorem splitPebble_of_test {p q s S next : Nat} (hsize : m.get p MemoryPebble.size = s)
    (htest : splitPebbleTest s r) (hS : splitSize r = S)
    (hq : add64 (add64 p MemoryPebble.sizeof) S = q) (hnext : m.get p MemoryPebble.next = next)
    (hapart : p + 60 ≤ q ∨ q + 60 ≤ p) :
    splitPebble m p r =
      ((relink (newHeader m p q (sub64 (sub64 s S) MemoryPebble.sizeof)) next q).put p
        MemoryPebble.size S).put p MemoryPebble.next q := by
  have hS' : add64 r (pebbleMinAlign - 1) &&& not64 (pebbleMinAlign - 1) = S := by
    rw [← hS, splitSize]
  have hsame : SameBytes m (memcpy m q p MemoryPebble.sizeof) p 60 :=
    fun x hlow hhigh => memcpy_byte_outside (by simp only [MemoryPebble.sizeof]; omega)
  have hsize' : (memcpy m q p MemoryPebble.sizeof).get p MemoryPebble.size = s :=
    (hsame.get (by decide)).trans hsize
  have hheader : SameBytes m (newHeader m p q (sub64 (sub64 s S) MemoryPebble.sizeof)) p 60 :=
    fun x hlow hhigh => newHeader_byte_outside (by omega)
  have hnext' : (newHeader m p q (sub64 (sub64 s S) MemoryPebble.sizeof)).get p
      MemoryPebble.next = next := (hheader.get (by decide)).trans hnext
  rw [newHeader] at hnext' ⊢
  rw [splitPebble, hsize, if_pos htest]
  simp only [hS', hq, hsize', hnext', relink]

/-- Where the second part begins and how large it is. -/
theorem splitSums {p s S : Nat} (hfits : S + 60 ≤ s) (hend : p + 60 + s ≤ 2 ^ 64) :
    add64 (add64 p MemoryPebble.sizeof) S = p + 60 + S ∧
      sub64 (sub64 s S) MemoryPebble.sizeof = s - S - 60 := by
  have hheader : add64 p MemoryPebble.sizeof = p + 60 := add64_eq (b := 60) (by omega)
  have hrest : sub64 s S = s - S := sub64_eq (by omega) (by omega)
  rw [hheader, hrest]
  exact ⟨add64_eq (by omega), sub64_eq (b := 60) (by omega) (by omega)⟩

theorem PebbleAt.newHeader {parent prev next new size : Nat}
    (h : PebbleAt m parent b prev next) (hnew : b.addr + 60 ≤ new) (hend : new + 60 ≤ 2 ^ 64)
    (hsize : size < 2 ^ 64) :
    PebbleAt (FroggyOs.newHeader m b.addr new size) parent ⟨new, size, b.inUse⟩ b.addr next := by
  have hcopied : PebbleAt (memcpy m new b.addr MemoryPebble.sizeof) parent
      { b with addr := new } prev next := h.copy (.inl hnew)
  exact ((hcopied.put_size hsize).put_alignment 1).put_prev (by omega)

/-- A split between `before` and `after`: the first part keeps the header of the block,
the second gets a copy of it. -/
theorem splitPebble_chain {parent start stop : Nat} (htest : splitPebbleTest b.size r)
    (hfits : splitSize r + 60 ≤ b.size) (hword : stop ≤ 2 ^ 64)
    (hchain : PebbleChain m parent 0 (before ++ b :: after) 0)
    (htiles : Tiles start (before ++ b :: after) stop) :
    PebbleChain (splitPebble m b.addr r) parent 0
        (before ++ splitHead b r :: splitTail b r ++ after) 0 ∧
      ∀ x, x < start ∨ stop ≤ x → (splitPebble m b.addr r).byte x = m.byte x := by
  obtain ⟨hbefore, hpebble, hafter⟩ := Chain.middle_iff.mp hchain
  obtain ⟨htilesB, htilesA⟩ := Tiles.middle_iff.mp htiles
  have hlow := htilesB.le
  have hhigh := htilesA.le
  simp only [Block.stop] at hhigh
  rw [splitHead, splitTail, if_pos htest, if_pos htest]
  generalize hS : splitSize r = S at *
  obtain ⟨new, hnew⟩ : ∃ new, new = b.addr + 60 + S := ⟨_, rfl⟩
  obtain ⟨haddr, hsize⟩ := @splitSums b.addr b.size S hfits (by omega)
  rw [← hnew] at haddr
  generalize hnext : headAddr Block.addr after 0 = next at *
  generalize hprev : lastAddr Block.addr 0 before = prev at *
  generalize htail : (⟨new, b.size - S - 60, b.inUse⟩ : Block) = tail
  have htailAddr : tail.addr = new := by rw [← htail]
  have hstop : tail.stop = b.stop := by
    simp only [← htail, Block.stop]
    omega
  -- the header of the second part
  generalize hm₂ : newHeader m b.addr new (b.size - S - 60) = m₂
  have hn₂ : PebbleAt m₂ parent tail b.addr next := by
    rw [← hm₂, ← htail]
    exact hpebble.newHeader (by omega) (by omega) (by omega)
  have hother₂ : ∀ x, x < new ∨ new + 60 ≤ x → m₂.byte x = m.byte x := by
    intro x hx
    rw [← hm₂]
    exact newHeader_byte_outside hx
  have hb₂ : PebbleAt m₂ parent b prev next :=
    hpebble.frame fun x _ hx => hother₂ x (by omega)
  -- the back link of the pebble behind
  have hafter₂ : PebbleChain m₂ parent b.addr after 0 :=
    PebbleChain.frame hafter htilesA fun x hx _ =>
      hother₂ x (by simp only [Block.stop] at hx; omega)
  obtain ⟨hafter₃, hother₃⟩ := PebbleChain.relink hafter₂ htilesA
    (by simp only [Block.stop]; omega) (by omega : new < 2 ^ 64)
  rw [hnext] at hafter₃ hother₃
  generalize hm₃ : relink m₂ next new = m₃ at *
  have hb₃ : PebbleAt m₃ parent b prev next :=
    hb₂.frame fun x _ hx => hother₃ x (by simp only [Block.stop]; omega)
  have hn₃ : PebbleAt m₃ parent tail b.addr next :=
    hn₂.frame fun x _ hx => hother₃ x (by rw [← hstop, Block.stop]; omega)
  -- the size and the forward link of the first part
  generalize hm₄ : (m₃.put b.addr MemoryPebble.size S).put b.addr MemoryPebble.next new = m₄
  have hb₄ : PebbleAt m₄ parent { b with size := S } prev new := by
    rw [← hm₄]
    exact (hb₃.put_size (by omega)).put_next (by omega)
  have hother₄ : ∀ x, x < b.addr ∨ b.addr + 60 ≤ x → m₄.byte x = m₃.byte x := by
    intro x hx
    rw [← hm₄, Mem.put_byte_outside (by simp; omega), Mem.put_byte_outside (by simp; omega)]
  have hresult : splitPebble m b.addr r = m₄ := by
    rw [splitPebble_of_test hpebble.size htest hS haddr hpebble.next (by omega), hsize, hm₂, hm₃,
      hm₄]
  rw [hresult, ← hnew, htail, List.append_assoc, List.cons_append, List.singleton_append]
  have hchange : ∀ x, x < b.addr ∨ stop ≤ x → m₄.byte x = m.byte x := by
    intro x hx
    rw [hother₄ x (by omega), hother₃ x (by simp only [Block.stop]; omega), hother₂ x (by omega)]
  constructor
  · refine Chain.middle_iff.mpr ⟨?_, ?_, ?_, ?_⟩
    · exact PebbleChain.frame hbefore htilesB fun x _ hx => hchange x (.inl hx)
    · rw [hprev, headAddr_cons, htailAddr]
      exact hb₄
    · rw [hnext]
      exact hn₃.frame fun x hx _ => hother₄ x (by omega)
    · rw [htailAddr]
      exact PebbleChain.frame hafter₃ htilesA fun x hx _ =>
        hother₄ x (by simp only [Block.stop] at hx; omega)
  · intro x hx
    exact hchange x (by omega)

theorem splitPebble_body (h : BucketBody m B) (hwf : B.WF)
    (hblocks : B.blocks = before ++ b :: after) (hfits : SplitFits b r) :
    BucketBody (splitPebble m b.addr r)
        (B.withBlocks (before ++ splitHead b r :: splitTail b r ++ after)) ∧
      ChangesOnly B m (splitPebble m b.addr r) := by
  have hb : PebbleAt m B.base b _ _ := (Chain.middle_iff.mp (hblocks ▸ h.pebbles)).2.1
  by_cases htest : splitPebbleTest b.size r
  · obtain ⟨hchain, houtside⟩ := splitPebble_chain htest (hfits htest) hwf.fits
      (hblocks ▸ h.pebbles) (hblocks ▸ hwf.tiles)
    exact ⟨h.of_pebbles (fun x _ hx => houtside x (by omega)) hchain,
      ChangesOnly.of_region houtside⟩
  · rw [splitPebble_of_not hb.size htest, splitHead, splitTail, if_neg htest, if_neg htest,
      List.append_assoc, List.singleton_append, ← hblocks]
    exact ⟨h, ChangesOnly.refl B m⟩

theorem shrinkPebble_eq (hwf : B.WF) (hb : b ∈ B.blocks) :
    shrinkPebble m b.addr r = splitPebble m b.addr r := by
  have hbounds := hwf.block_bounds hb
  rw [shrinkPebble, if_pos (by omega)]

end SplitPebble

/-! ## The state of a pebble -/

section MarkPebble

variable {m : Mem} {B : BucketModel} {before after : List Block} {b : Block}

/-- Writing the flags of a block. -/
theorem markPebble_body (h : BucketBody m B) (hwf : B.WF)
    (hblocks : B.blocks = before ++ b :: after) (inUse : Bool) :
    BucketBody (m.put b.addr MemoryPebble.lflags (pebbleFlags inUse))
        (B.withBlocks (before ++ { b with inUse } :: after)) ∧
      ChangesOnly B m (m.put b.addr MemoryPebble.lflags (pebbleFlags inUse)) := by
  obtain ⟨hbefore, hpebble, hafter⟩ := Chain.middle_iff.mp (hblocks ▸ h.pebbles)
  have htiles := hwf.tiles
  rw [hblocks] at htiles
  obtain ⟨htilesB, htilesA⟩ := Tiles.middle_iff.mp htiles
  have hlow := htilesB.le
  have hhigh := htilesA.le
  simp only [Block.stop] at hhigh
  have hchange : ∀ x, x < b.addr ∨ b.addr + 60 ≤ x →
      (m.put b.addr MemoryPebble.lflags (pebbleFlags inUse)).byte x = m.byte x := by
    intro x hx
    apply Mem.put_byte_outside
    simp
    omega
  refine ⟨h.of_pebbles (fun x _ hx => hchange x (by omega)) (Chain.middle_iff.mpr ⟨?_, ?_, ?_⟩),
    ChangesOnly.of_region fun x hx => hchange x (by omega)⟩
  · exact PebbleChain.frame hbefore htilesB fun x _ hx => hchange x (.inl hx)
  · exact hpebble.put_lflags inUse
  · exact PebbleChain.frame hafter htilesA fun x hx _ =>
      hchange x (.inr (by simp only [Block.stop] at hx; omega))

end MarkPebble

/-! ## Walks along the pebbles -/

/-- No block that fits is smaller than `b`, and none before it is as small. -/
structure BestFit (need : Nat) (before : List Block) (b : Block) (after : List Block) : Prop where
  before : ∀ c ∈ before, fits need c → b.size < c.size
  after : ∀ c ∈ after, fits need c → b.size ≤ c.size

theorem BestFit.cons {need : Nat} {before after : List Block} {b c : Block}
    (h : BestFit need before b after) (hc : fits need c = true → b.size < c.size) :
    BestFit need (c :: before) b after :=
  ⟨List.forall_mem_cons.mpr ⟨hc, h.before⟩, h.after⟩

/-- What a walk along the pebbles reads of a header. -/
structure PebbleWalk (m : Mem) (b : Block) (_prev next : Nat) : Prop where
  free : isPebbleFree m b.addr = !b.inUse
  size : m.get b.addr MemoryPebble.size = b.size
  next : m.get b.addr MemoryPebble.next = next

abbrev WalkChain (m : Mem) (prev : Nat) (xs : List Block) (next : Nat) : Prop :=
  Chain Block.addr (PebbleWalk m) prev xs next

section Walks

variable {m : Mem} {parent prev next need start stop fuel : Nat} {xs : List Block}

theorem PebbleChain.walk (h : PebbleChain m parent prev xs next) : WalkChain m prev xs next :=
  Chain.mono (fun _ _ _ _ hb => ⟨hb.isPebbleFree_iff, hb.size, hb.next⟩) h

theorem firstFit_eq (h : WalkChain m prev xs 0) (htiles : Tiles start xs stop)
    (hstart : start ≠ 0) (hfuel : xs.length < fuel) :
    firstFit m need fuel (headAddr Block.addr xs 0) =
      some (match xs.find? (fits need) with
        | some b => b.addr
        | none => 0) := by
  induction xs generalizing fuel prev start with
  | nil =>
      obtain ⟨fuel, rfl⟩ := Nat.exists_eq_succ_of_ne_zero (by omega : fuel ≠ 0)
      rfl
  | cons b rest ih =>
      obtain ⟨fuel, rfl⟩ := Nat.exists_eq_succ_of_ne_zero (by omega : fuel ≠ 0)
      obtain ⟨rfl, hrest⟩ := htiles
      obtain ⟨hpebble, hchain⟩ := h
      simp only [List.length_cons] at hfuel
      rw [headAddr_cons, firstFit, if_neg hstart, hpebble.free, hpebble.size,
        hpebble.next, ih hchain hrest (by simp [Block.stop]) (by omega), List.find?_cons]
      change (if fits need b = true then _ else _) = _
      cases fits need b <;> simp

/-- The best-fit walk returns the first block of the least size below `bestSize` among
those that fit, or the best one it had before. -/
theorem bestFit_spec (best bestSize : Nat) (hfuel : xs.length < fuel)
    (h : WalkChain m prev xs 0) (htiles : Tiles start xs stop) (hstart : start ≠ 0) :
    ∃ a, bestFit m need fuel (headAddr Block.addr xs 0) best bestSize = some a ∧
      ((∃ before b after, xs = before ++ b :: after ∧ fits need b = true ∧ b.size < bestSize ∧
          a = b.addr ∧ BestFit need before b after) ∨
        a = best ∧ ∀ b ∈ xs, fits need b → bestSize ≤ b.size) := by
  induction xs generalizing fuel prev start best bestSize with
  | nil =>
      obtain ⟨fuel, rfl⟩ := Nat.exists_eq_succ_of_ne_zero (by omega : fuel ≠ 0)
      exact ⟨best, rfl, .inr ⟨rfl, by simp⟩⟩
  | cons b rest ih =>
      obtain ⟨fuel, rfl⟩ := Nat.exists_eq_succ_of_ne_zero (by omega : fuel ≠ 0)
      obtain ⟨rfl, hrest⟩ := htiles
      obtain ⟨hpebble, hchain⟩ := h
      have hrestFuel : rest.length < fuel := by simpa using hfuel
      rw [headAddr_cons, bestFit, if_neg hstart, hpebble.free, hpebble.size,
        hpebble.next]
      change ∃ a, (if (fits need b && decide (b.size < bestSize)) = true then _ else _) = _ ∧ _
      by_cases hbetter : fits need b ∧ b.size < bestSize
      · obtain ⟨a, ha, hcases⟩ := ih b.addr b.size hrestFuel hchain hrest
          (by simp [Block.stop])
        refine ⟨a, by rw [if_pos (by simp [hbetter])]; exact ha, .inl ?_⟩
        obtain ⟨before, c, after, rfl, hfits, hless, rfl, hbest⟩ | ⟨rfl, hnone⟩ := hcases
        · exact ⟨b :: before, c, after, rfl, hfits, hless.trans hbetter.2, rfl,
            hbest.cons fun _ => hless⟩
        · exact ⟨[], b, rest, rfl, hbetter.1, hbetter.2, rfl, by simp, hnone⟩
      · obtain ⟨a, ha, hcases⟩ := ih best bestSize hrestFuel hchain hrest
          (by simp [Block.stop])
        have hlarge : fits need b = true → bestSize ≤ b.size :=
          fun hfits => Nat.le_of_not_lt fun hlt => hbetter ⟨hfits, hlt⟩
        refine ⟨a, by rw [if_neg (by simpa using hbetter)]; exact ha, ?_⟩
        obtain ⟨before, c, after, rfl, hfits, hless, rfl, hbest⟩ | ⟨rfl, hnone⟩ := hcases
        · exact .inl ⟨b :: before, c, after, rfl, hfits, hless, rfl,
            hbest.cons fun hfits => Nat.lt_of_lt_of_le hless (hlarge hfits)⟩
        · exact .inr ⟨rfl, List.forall_mem_cons.mpr ⟨hlarge, hnone⟩⟩

theorem bestFit_eq (best bestSize : Nat) (hfuel : xs.length < fuel)
    (h : WalkChain m prev xs 0) (htiles : Tiles start xs stop) (hstart : start ≠ 0) :
    ∃ a, bestFit m need fuel (headAddr Block.addr xs 0) best bestSize = some a ∧
      ((∃ b ∈ xs, fits need b ∧ a = b.addr) ∨
        a = best ∧ ∀ b ∈ xs, fits need b → bestSize ≤ b.size) := by
  obtain ⟨a, ha, hcases⟩ := bestFit_spec best bestSize hfuel h htiles hstart
  refine ⟨a, ha, hcases.imp_left ?_⟩
  rintro ⟨before, b, after, rfl, hfits, -, rfl, -⟩
  exact ⟨b, by simp, hfits, rfl⟩

theorem largestFrom_eq {ret : Nat} (h : WalkChain m prev xs 0)
    (htiles : Tiles start xs stop) (hstart : start ≠ 0) (hfuel : xs.length < fuel) :
    largestFrom m fuel (headAddr Block.addr xs 0) ret = some (maxSize xs ret) := by
  induction xs generalizing fuel prev start ret with
  | nil =>
      obtain ⟨fuel, rfl⟩ := Nat.exists_eq_succ_of_ne_zero (by omega : fuel ≠ 0)
      rfl
  | cons b rest ih =>
      obtain ⟨fuel, rfl⟩ := Nat.exists_eq_succ_of_ne_zero (by omega : fuel ≠ 0)
      obtain ⟨rfl, hrest⟩ := htiles
      obtain ⟨hpebble, hchain⟩ := h
      simp only [List.length_cons] at hfuel
      rw [headAddr_cons, largestFrom, if_neg hstart, hpebble.size, hpebble.next,
        ih hchain hrest (by simp [Block.stop]) (by omega)]
      rfl

end Walks

/-! ## `place_pebble` and `bucket_update_largest` -/

section PlacePebble

variable {m : Mem} {B : BucketModel} {need : Nat}

theorem BucketModel.WF.length_lt (hwf : B.WF) : B.blocks.length < walkFuel := by
  have hlength := hwf.tiles.length_le
  have hfits := hwf.fits
  simp only [walkFuel]
  omega

/-- The first pebble lies behind the bucket header. -/
theorem BucketModel.WF.headAddr_eq (hwf : B.WF) :
    headAddr Block.addr B.blocks 0 = B.base + 64 := by
  have htiles := hwf.tiles
  have hne := hwf.nonempty
  cases hblocks : B.blocks with
  | nil => exact absurd hblocks hne
  | cons b rest =>
      rw [hblocks] at htiles
      exact htiles.1

theorem BucketBody.first_eq (h : BucketBody m B) (hwf : B.WF) :
    m.get B.base MemoryBucket.first = headAddr Block.addr B.blocks 0 := by
  rw [h.first, hwf.headAddr_eq]

/-- `b` is the block between `before` and `after` that the method of the bucket selects. -/
def Selected (m : Mem) (bucket need : Nat) (before : List Block) (b : Block)
    (after : List Block) : Prop :=
  if m.get bucket MemoryBucket.lflags &&& bucketFlagBest ≠ 0 then BestFit need before b after
  else ∀ c ∈ before, fits need c = false

/-- Both methods find the block they are to select, or there is none. -/
theorem searchPebbles_walk (need : Nat) (hfirst : m.get B.base MemoryBucket.first = B.base + 64)
    (h : WalkChain m 0 B.blocks 0) (hwf : B.WF) :
    ∃ a, searchPebbles m B.base need = some a ∧
      ((∀ b ∈ B.blocks, fits need b = false) ∧ a = 0 ∨
        ∃ before b after, B.blocks = before ++ b :: after ∧ fits need b = true ∧ a = b.addr ∧
          Selected m B.base need before b after) := by
  have hstart : B.base + 64 ≠ 0 := by omega
  rw [searchPebbles, hfirst, ← hwf.headAddr_eq]
  simp only [Selected]
  split
  · obtain ⟨a, ha, hcases⟩ := bestFit_spec 0 (2 ^ 64 - 1) hwf.length_lt h hwf.tiles hstart
    refine ⟨a, ha, ?_⟩
    obtain ⟨before, b, after, hblocks, hfits, -, rfl, hbest⟩ | ⟨rfl, hnone⟩ := hcases
    · exact .inr ⟨before, b, after, hblocks, hfits, rfl, hbest⟩
    · refine .inl ⟨fun b hb => ?_, rfl⟩
      by_contra hfits
      have hlarge := hnone b hb (by simpa using hfits)
      have hbounds := hwf.block_bounds hb
      have hword := hwf.fits
      omega
  · rw [firstFit_eq h hwf.tiles hstart hwf.length_lt]
    refine ⟨_, rfl, ?_⟩
    cases hfind : B.blocks.find? (fits need) with
    | none => exact .inl ⟨fun b hb => by simpa using List.find?_eq_none.mp hfind b hb, rfl⟩
    | some b =>
        obtain ⟨hfits, before, after, hblocks, hfirst⟩ := List.find?_eq_some_iff_append.mp hfind
        exact .inr ⟨before, b, after, hblocks, hfits, rfl, fun c hc => by simpa using hfirst c hc⟩

theorem searchPebbles_spec (need : Nat) (h : BucketBody m B) (hwf : B.WF) :
    ∃ a, searchPebbles m B.base need = some a ∧
      ((∀ b ∈ B.blocks, fits need b = false) ∧ a = 0 ∨
        ∃ before b after, B.blocks = before ++ b :: after ∧ fits need b = true ∧ a = b.addr ∧
          Selected m B.base need before b after) :=
  searchPebbles_walk need h.first h.pebbles.walk hwf

/-- A request that does not fit changes nothing. -/
theorem placePebble_of_none (h : BucketBody m B) (hwf : B.WF) (flags : Nat)
    (hnone : ∀ b ∈ B.blocks, fits need b = false) :
    placePebble m B.base need flags = some (0, m) := by
  obtain ⟨a, ha, hcases⟩ := searchPebbles_spec need h hwf
  rw [placePebble]
  simp only [ha, Option.bind_eq_bind, Option.bind_some]
  obtain ⟨_, rfl⟩ | ⟨before, b, after, hblocks, hfits, _⟩ := hcases
  · rfl
  · rw [hnone b (by simp [hblocks])] at hfits
    cases hfits

/-- A request that fits is placed in the free block that the method of the bucket selects. -/
theorem placePebble_selected (h : BucketBody m B) (hwf : B.WF) {b₀ : Block}
    (hb₀ : b₀ ∈ B.blocks) (hfits₀ : fits need b₀ = true)
    (hsplit : ∀ b ∈ B.blocks, fits need b = true → SplitFits b need) :
    ∃ before b after m', B.blocks = before ++ b :: after ∧ fits need b = true ∧
      placePebble m B.base need (0 ||| pebbleFlagInUse) = some (b.addr, m') ∧
      BucketBody m' (B.withBlocks (before ++ placeBlock b need ++ after)) ∧
      ChangesOnly B m m' ∧ Selected m B.base need before b after := by
  obtain ⟨a, ha, hcases⟩ := searchPebbles_spec need h hwf
  obtain ⟨before, b, after, hblocks, hfits, rfl, hselected⟩ := hcases.resolve_left fun hnone => by
    rw [hnone.1 b₀ hb₀] at hfits₀
    cases hfits₀
  have hb : b ∈ B.blocks := by simp [hblocks]
  have hbounds := hwf.block_bounds hb
  obtain ⟨hbody, hchanges⟩ := splitPebble_body h hwf hblocks (hsplit b hb hfits)
  have hwf' := hwf.split hblocks (hsplit b hb hfits)
  rw [List.append_assoc, List.cons_append] at hbody hwf'
  obtain ⟨hbody', hchanges'⟩ := markPebble_body hbody hwf' rfl true
  refine ⟨before, b, after, (splitPebble m b.addr need).put b.addr MemoryPebble.lflags
    (0 ||| pebbleFlagInUse), hblocks, hfits, ?_, ?_, hchanges.trans ?_, hselected⟩
  · rw [placePebble, ha]
    simp only [Option.bind_eq_bind, Option.bind_some]
    rw [if_neg (by omega)]
  · have huse : (splitHead b need).use = ⟨b.addr, (splitHead b need).size, true⟩ := by
      rw [Block.use, splitHead_addr]
    rw [splitHead_addr] at hbody'
    rw [List.append_assoc, placeBlock, List.cons_append, huse]
    exact hbody'
  · rw [splitHead_addr] at hchanges'
    exact hchanges'

theorem placePebble_of_fits (h : BucketBody m B) (hwf : B.WF) {b₀ : Block}
    (hb₀ : b₀ ∈ B.blocks) (hfits₀ : fits need b₀ = true)
    (hsplit : ∀ b ∈ B.blocks, fits need b = true → SplitFits b need) :
    ∃ before b after m', B.blocks = before ++ b :: after ∧ fits need b = true ∧
      placePebble m B.base need (0 ||| pebbleFlagInUse) = some (b.addr, m') ∧
      BucketBody m' (B.withBlocks (before ++ placeBlock b need ++ after)) ∧
      ChangesOnly B m m' := by
  obtain ⟨before, b, after, m', hblocks, hfits, hplace, hbody, hchanges, -⟩ :=
    placePebble_selected h hwf hb₀ hfits₀ hsplit
  exact ⟨before, b, after, m', hblocks, hfits, hplace, hbody, hchanges⟩

end PlacePebble

end FroggyOs
