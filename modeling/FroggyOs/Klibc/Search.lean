import Mathlib.Data.Finset.Card
import Mathlib.Order.Interval.Finset.Nat
import FroggyOs.Klibc.HeaderInvariants

/-!
# The search of `kmalloc`

`kmalloc` takes the first bucket whose `largest_free` is large enough and that has a free
pebble for the request. The test of `largest_free` saves walks and nothing else: it can
only skip a bucket in which `place_pebble` would find nothing, since the cached value
bounds every payload size.
-/

namespace FroggyOs

open ByteMemory Word64 LinkedChain

attribute [local irreducible] bucketUpdateLargest placePebble

/-- The loop of `kmalloc` without the test of `largest_free`: `place_pebble` is called on
every bucket in turn. -/
def plainSearch (need : Nat) : Nat → Nat → Mem → Option (Nat × Mem)
  | 0, _, _ => none
  | fuel + 1, bucket, m =>
      if bucket = 0 then some (0, m)
      else do
        let m ← acquireSpinlock m (bucketSpinlock bucket)
        let placed ← placePebble m bucket need (0 ||| pebbleFlagInUse)
        if placed.1 ≠ 0 then
          let m ← bucketUpdateLargest placed.2 bucket
          some (add64 placed.1 MemoryPebble.sizeof, releaseSpinlock m (bucketSpinlock bucket))
        else
          let m := releaseSpinlock placed.2 (bucketSpinlock bucket)
          plainSearch need fuel (m.get bucket MemoryBucket.next) m

/-- The pebble that the loop of `kmalloc` places the request in, looked up before anything
is written: 0 if there is none. -/
def chosenPebble (m : Mem) (need : Nat) : Nat → Nat → Option Nat
  | 0, _ => none
  | fuel + 1, bucket =>
      if bucket = 0 then some 0
      else if m.get bucket MemoryBucket.largestFree ≥ need then do
        let found ← searchPebbles m bucket need
        if found ≠ 0 then some found
        else chosenPebble m need fuel (m.get bucket MemoryBucket.next)
      else chosenPebble m need fuel (m.get bucket MemoryBucket.next)

section Walks

variable {m m' : Mem} {parent prev need bucket size flags fuel p : Nat} {xs : List Block}
  {B : BucketModel}

/-- Memories with the same chain of pebbles have the same best fit. -/
theorem bestFit_congr {best bestSize : Nat} (h : WalkChain m prev xs 0)
    (h' : WalkChain m' prev xs 0) :
    bestFit m' need fuel (headAddr Block.addr xs 0) best bestSize =
      bestFit m need fuel (headAddr Block.addr xs 0) best bestSize := by
  induction xs generalizing fuel prev best bestSize with
  | nil => cases fuel <;> rfl
  | cons b rest ih =>
      cases fuel with
      | zero => rfl
      | succ fuel =>
          obtain ⟨hb, hrest⟩ := h
          obtain ⟨hb', hrest'⟩ := h'
          rw [headAddr_cons, bestFit, bestFit, hb.free, hb'.free, hb.size,
            hb'.size, hb.next, hb'.next]
          simp only [ih hrest hrest']

/-- The search does not see the lock. -/
theorem searchPebbles_put_spinlock (h : BucketBody m B) (hwf : B.WF) (v : Nat) :
    searchPebbles (m.put B.base MemoryBucket.spinlock v) B.base need =
      searchPebbles m B.base need := by
  have hlocked := h.put_spinlock hwf v
  have hstart : B.base + 64 ≠ 0 := by omega
  have hflags : (m.put B.base MemoryBucket.spinlock v).get B.base MemoryBucket.lflags =
      m.get B.base MemoryBucket.lflags := Mem.get_put_disjoint (by simp)
  rw [searchPebbles, searchPebbles, hlocked.first_eq hwf, h.first_eq hwf, hflags]
  split
  · exact bestFit_congr h.pebbles.walk hlocked.pebbles.walk
  · rw [firstFit_eq h.pebbles.walk hwf.tiles hstart hwf.length_lt,
      firstFit_eq hlocked.pebbles.walk hwf.tiles hstart hwf.length_lt]

/-- `place_pebble` returns what its search has found. -/
theorem searchPebbles_of_placePebble (h : placePebble m bucket size flags = some (p, m')) :
    searchPebbles m bucket size = some p := by
  unfold placePebble at h
  cases hfound : searchPebbles m bucket size with
  | none =>
      rw [hfound] at h
      cases h
  | some found =>
      rw [hfound] at h
      simp only [Option.bind_eq_bind, Option.bind_some] at h
      split at h
      · next hzero =>
          cases h
          rw [hzero]
      · cases h
        rfl

end Walks

section Search

variable {m : Mem} {need prev next fuel start : Nat} {B : BucketModel} {Bs : List BucketModel}
  {s : HeaderState}

/-- Releasing the lock of a bucket in which nothing was placed gives the memory back. -/
theorem release_acquire (h : BucketAt 0 m B prev next) :
    releaseSpinlock (m.put B.base MemoryBucket.spinlock 1) (bucketSpinlock B.base) = m := by
  rw [releaseSpinlock_eq, Mem.put_put_same, Mem.put_get_self h.spinlock]

/-- Where the cached maximum is too small, so is every free pebble. -/
theorem fits_eq_false_of_lt (hexact : B.Exact) (hlt : B.largest < need) :
    ∀ b ∈ B.blocks, fits need b = false := by
  intro b hb
  have hle : b.size ≤ maxSize B.blocks 0 := le_maxSize hb
  rw [← hexact] at hle
  simp only [fits, Bool.and_eq_false_iff, decide_eq_false_iff_not]
  right
  omega

/-- Under the lock, the tested call is the call. -/
theorem tryBucket_eq_placePebble (h : BucketBody m B) (hwf : B.WF) (hexact : B.Exact) :
    tryBucket m B.base need = placePebble m B.base need (0 ||| pebbleFlagInUse) := by
  rw [tryBucket, h.largest]
  split
  · rfl
  · next hlt =>
      rw [placePebble_of_none h hwf _ (fits_eq_false_of_lt hexact (by omega))]

/-- The two scans agree on every list of buckets with exact maxima. -/
theorem searchBuckets_eq_plainSearch (h : BucketChain m prev Bs 0) (hwf : ∀ B ∈ Bs, B.WF)
    (hexact : ∀ B ∈ Bs, B.Exact) (haligned : need % 64 = 0) :
    searchBuckets need fuel (headAddr BucketModel.base Bs 0) m =
      plainSearch need fuel (headAddr BucketModel.base Bs 0) m := by
  induction Bs generalizing fuel prev with
  | nil => cases fuel <;> rfl
  | cons B rest ih =>
      cases fuel with
      | zero => rfl
      | succ fuel =>
          obtain ⟨hB, hrest⟩ := h
          have hBwf := hwf B List.mem_cons_self
          have hBexact := hexact B List.mem_cons_self
          have hlocked := hB.body.put_spinlock hBwf 1
          rw [headAddr_cons, searchBuckets, plainSearch, if_neg hBwf.base_ne, if_neg hBwf.base_ne,
            acquireSpinlock_eq hB.spinlock]
          simp only [Option.bind_eq_bind, Option.bind_some,
            tryBucket_eq_placePebble hlocked hBwf hBexact]
          by_cases hnone : ∀ b ∈ B.blocks, fits need b = false
          · rw [placePebble_of_none hlocked hBwf _ hnone]
            simp only [Option.bind_some, ne_eq, not_true_eq_false, if_false, release_acquire hB,
              hB.next]
            exact ih hrest (fun C hC => hwf C (List.mem_cons_of_mem B hC))
              (fun C hC => hexact C (List.mem_cons_of_mem B hC))
          · push Not at hnone
            obtain ⟨b₀, hb₀, hfits₀⟩ := hnone
            obtain ⟨_, b, _, m', hblocks, -, hplace, -, -⟩ :=
              placePebble_of_fits hlocked hBwf hb₀ (by simpa using hfits₀)
                fun b hb hfits => splitFits_of_fits hBwf haligned hb hfits
            have hbounds := hBwf.block_bounds (b := b) (by simp [hblocks])
            have hne : b.addr ≠ 0 := by omega
            rw [hplace]
            simp only [Option.bind_some, ne_eq, hne, not_false_eq_true, if_true]

/-- A bucket in which nothing is placed is passed over. -/
theorem searchBuckets_skip (h : BucketAt 0 m B prev next) (hwf : B.WF)
    (htry : tryBucket (m.put B.base MemoryBucket.spinlock 1) B.base need =
      some (0, m.put B.base MemoryBucket.spinlock 1)) :
    searchBuckets need (fuel + 1) B.base m = searchBuckets need fuel next m := by
  rw [searchBuckets, if_neg hwf.base_ne, acquireSpinlock_eq h.spinlock]
  simp only [Option.bind_eq_bind, Option.bind_some, htry, ne_eq, not_true_eq_false, if_false,
    release_acquire h, h.next]

theorem searchBuckets_found (h : BucketAt 0 m B prev next) (hwf : B.WF) {p : Nat} {m₁ m₂ : Mem}
    (htry : tryBucket (m.put B.base MemoryBucket.spinlock 1) B.base need = some (p, m₁))
    (hp : p ≠ 0) (hupdate : bucketUpdateLargest m₁ B.base = some m₂) :
    searchBuckets need (fuel + 1) B.base m =
      some (add64 p MemoryPebble.sizeof, m₂.put B.base MemoryBucket.spinlock 0) := by
  rw [searchBuckets, if_neg hwf.base_ne, acquireSpinlock_eq h.spinlock]
  simp only [Option.bind_eq_bind, Option.bind_some, htry, ne_eq, hp, not_false_eq_true, if_true,
    hupdate, releaseSpinlock_eq]

theorem chosenPebble_skip (h : BucketAt 0 m B prev next) (hwf : B.WF)
    (hmissed : need ≤ B.largest → searchPebbles m B.base need = some 0) :
    chosenPebble m need (fuel + 1) B.base = chosenPebble m need fuel next := by
  rw [chosenPebble, if_neg hwf.base_ne, h.body.largest, h.next]
  split
  · next hlarge => simp [hmissed hlarge]
  · rfl

theorem chosenPebble_found (h : BucketAt 0 m B prev next) (hwf : B.WF) {p : Nat}
    (hlarge : need ≤ B.largest) (hfound : searchPebbles m B.base need = some p) (hp : p ≠ 0) :
    chosenPebble m need (fuel + 1) B.base = some p := by
  rw [chosenPebble, if_neg hwf.base_ne, h.body.largest, if_pos hlarge, hfound]
  simp [hp]

/-- What the search returns: the memory as it was, when no bucket's `largest_free` admits
the request and has a block for it, or the first such bucket's step. -/
theorem searchBuckets_spec (h : BucketChain m prev Bs 0) (hwf : ∀ B ∈ Bs, B.WF)
    (haligned : need % 64 = 0) (hfuel : Bs.length < fuel) :
    (searchBuckets need fuel (headAddr BucketModel.base Bs 0) m = some (0, m) ∧
      chosenPebble m need fuel (headAddr BucketModel.base Bs 0) = some 0 ∧
      ∀ B ∈ Bs, need ≤ B.largest → ∀ b ∈ B.blocks, fits need b = false) ∨
    ∃ pre B post before b after m' B', Bs = pre ++ B :: post ∧ need ≤ B.largest ∧
      B.blocks = before ++ b :: after ∧ fits need b = true ∧
      chosenPebble m need fuel (headAddr BucketModel.base Bs 0) = some b.addr ∧
      searchBuckets need fuel (headAddr BucketModel.base Bs 0) m =
        some (add64 b.addr MemoryPebble.sizeof, m') ∧
      BucketStep m B m' B' ∧ B'.blocks = before ++ placeBlock b need ++ after ∧ B'.Exact := by
  induction Bs generalizing fuel prev with
  | nil =>
      obtain ⟨fuel, rfl⟩ := Nat.exists_eq_succ_of_ne_zero (by omega : fuel ≠ 0)
      exact .inl ⟨rfl, rfl, by simp⟩
  | cons B rest ih =>
      obtain ⟨fuel, rfl⟩ := Nat.exists_eq_succ_of_ne_zero (by omega : fuel ≠ 0)
      obtain ⟨hB, hrest⟩ := h
      have hBwf := hwf B List.mem_cons_self
      have hrestFuel : rest.length < fuel := by simpa using hfuel
      have hlocked := hB.body.put_spinlock hBwf 1
      rw [headAddr_cons]
      by_cases hadmits : need ≤ B.largest ∧ ∃ b ∈ B.blocks, fits need b = true
      · obtain ⟨hlarge, b₀, hb₀, hfits₀⟩ := hadmits
        obtain ⟨before, b, after, m₁, hblocks, hfits, hplace, hbody, hchanges⟩ :=
          placePebble_of_fits hlocked hBwf hb₀ hfits₀
            fun b hb hfits => splitFits_of_fits hBwf haligned hb hfits
        have hsplit := splitFits_of_fits hBwf haligned (b := b) (by simp [hblocks]) hfits
        have hstep₁ : BucketStep (m.put B.base MemoryBucket.spinlock 1) B m₁
            (B.withBlocks (before ++ placeBlock b need ++ after)) :=
          ⟨rfl, rfl, hBwf.place hblocks hsplit, hbody, hchanges⟩
        have hupdate := bucketUpdateLargest_eq hstep₁.body hstep₁.wf
        have hstep₂ := (hstep₁.trans (updateLargest_step hstep₁.body hstep₁.wf)).unlock hB.spinlock
        rw [BucketModel.withBlocks_base] at hupdate
        have hbounds := hBwf.block_bounds (b := b) (by simp [hblocks])
        have htry : tryBucket (m.put B.base MemoryBucket.spinlock 1) B.base need =
            some (b.addr, m₁) := by
          rw [tryBucket, hlocked.largest, if_pos hlarge, hplace]
        have hfound := searchPebbles_of_placePebble hplace
        rw [searchPebbles_put_spinlock hB.body hBwf] at hfound
        exact .inr ⟨[], B, rest, before, b, after, _, _, rfl, hlarge, hblocks, hfits,
          chosenPebble_found hB hBwf hlarge hfound (by omega),
    searchBuckets_found hB hBwf htry (by omega) hupdate, hstep₂, rfl, rfl⟩
      · have hnone : need ≤ B.largest → ∀ b ∈ B.blocks, fits need b = false := by
          intro hlarge b hb
          by_contra hfits
          exact hadmits ⟨hlarge, b, hb, by simpa using hfits⟩
        have htry : tryBucket (m.put B.base MemoryBucket.spinlock 1) B.base need =
            some (0, m.put B.base MemoryBucket.spinlock 1) := by
          rw [tryBucket, hlocked.largest]
          split
          · next hlarge => exact placePebble_of_none hlocked hBwf _ (hnone hlarge)
          · rfl
        have hskip : need ≤ B.largest → searchPebbles m B.base need = some 0 := by
          intro hlarge
          rw [← searchPebbles_put_spinlock hB.body hBwf 1]
          exact searchPebbles_of_placePebble
            (placePebble_of_none hlocked hBwf (0 ||| pebbleFlagInUse) (hnone hlarge))
        rw [searchBuckets_skip hB hBwf htry, chosenPebble_skip hB hBwf hskip]
        rcases ih hrest (fun C hC => hwf C (List.mem_cons_of_mem B hC)) hrestFuel with
          ⟨hcall, hchosen, hmissed⟩ | ⟨pre, C, post, before, b, after, m', C', rfl, hfound⟩
        · refine .inl ⟨hcall, hchosen, fun C hC => ?_⟩
          obtain rfl | hC := List.mem_cons.mp hC
          · exact hnone
          · exact hmissed C hC
        · exact .inr ⟨B :: pre, C, post, before, b, after, m', C', rfl, hfound⟩

/-- The buckets have distinct addresses, so there are fewer than `walkFuel`. -/
theorem HeapRep.length_lt (h : HeapRep m start Bs) : Bs.length < walkFuel := by
  have hsub : (Bs.map BucketModel.base).toFinset ⊆ Finset.Ico 1 (2 ^ 64) := by
    intro a ha
    obtain ⟨B, hB, rfl⟩ := List.mem_map.mp (List.mem_toFinset.mp ha)
    have hwf := h.wf B hB
    have hne := hwf.base_ne
    have hlt := hwf.base_lt_stop
    have hfits := hwf.fits
    rw [Finset.mem_Ico]
    omega
  have hcard := Finset.card_le_card hsub
  rw [List.toFinset_card_of_nodup h.nodup, List.length_map, Nat.card_Ico] at hcard
  simp only [walkFuel]
  omega

/-- The shortcut of `kmalloc` never changes the outcome: in every heap a run reaches, the
scan returns, and it returns what the plain scan returns, with the same memory. -/
theorem headerRun_search_eq_plain (h : HeaderRun s) (haligned : need % 64 = 0) :
    (searchBuckets need walkFuel s.heap.kHeapStart s.heap.mem).isSome ∧
      searchBuckets need walkFuel s.heap.kHeapStart s.heap.mem =
        plainSearch need walkFuel s.heap.kHeapStart s.heap.mem := by
  obtain ⟨Bs, hinv⟩ := h.inv
  have hrep := hinv.rep
  rw [← hrep.head]
  refine ⟨?_, searchBuckets_eq_plainSearch hrep.chain hrep.wf hinv.exact haligned⟩
  rcases searchBuckets_spec hrep.chain hrep.wf haligned hrep.length_lt with
    ⟨hcall, -⟩ | ⟨_, _, _, _, _, _, _, _, -, -, -, -, -, hcall, -⟩
  · rw [hcall]
    rfl
  · rw [hcall]
    rfl

theorem bootHeap_search_eq_plain :
    searchBuckets 4096 walkFuel 0x10000 bootHeap.mem =
      plainSearch 4096 walkFuel 0x10000 bootHeap.mem :=
  (headerRun_search_eq_plain headerRun_bootHeap (by decide)).2

end Search

end FroggyOs
