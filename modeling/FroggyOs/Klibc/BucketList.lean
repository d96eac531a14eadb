import FroggyOs.Klibc.PebbleMerge

/-!
# The list of buckets

The heap is a doubly linked list of buckets in pairwise disjoint regions. A step inside
one bucket leaves the others and the list alone; `insert_bucket` puts a new bucket
behind the first one and `remove_bucket` takes out any other, both by their neighbours'
links only.
-/

namespace FroggyOs

open ByteMemory Word64 LinkedChain

/-! ## Buckets in the list -/

/-- A represented bucket with the value `lock` in its lock, linked between `prev` and
`next`. -/
structure BucketAt (lock : Nat) (m : Mem) (B : BucketModel) (prev next : Nat) : Prop where
  body : BucketBody m B
  spinlock : m.get B.base MemoryBucket.spinlock = lock
  prev : m.get B.base MemoryBucket.prev = prev
  next : m.get B.base MemoryBucket.next = next

theorem BucketBody.put_spinlock {m : Mem} {B : BucketModel} (h : BucketBody m B) (hwf : B.WF)
    (v : Nat) : BucketBody (m.put B.base MemoryBucket.spinlock v) B where
  size := (Mem.get_put_disjoint (by simp)).trans h.size
  largest := (Mem.get_put_disjoint (by simp)).trans h.largest
  first := (Mem.get_put_disjoint (by simp)).trans h.first
  pebbles := PebbleChain.put_other h.pebbles hwf.tiles (by simp)

/-- A step made under the lock, with the lock taken before it and released after it. -/
theorem BucketStep.unlock {m m' : Mem} {B B' : BucketModel}
    (h : BucketStep (m.put B.base MemoryBucket.spinlock 1) B m' B')
    (hlock : m.get B.base MemoryBucket.spinlock = 0) :
    BucketStep m B (m'.put B.base MemoryBucket.spinlock 0) B' where
  base_eq := h.base_eq
  pages_eq := h.pages_eq
  wf := h.wf
  body := by
    have hbody := h.body.put_spinlock h.wf 0
    rw [h.base_eq] at hbody
    exact hbody
  changes := by
    intro x hx
    by_cases hin : B.base + 24 ≤ x ∧ x < B.base + 28
    · have hsame : (m.put B.base MemoryBucket.spinlock 0).byte x = m.byte x := by
        rw [Mem.put_get_self hlock]
      rw [← hsame]
      exact Mem.put_byte_inside hin.1 hin.2
    · rw [Mem.put_byte_outside (by simp only; omega), h.changes x hx,
        Mem.put_byte_outside (by simp only; omega)]

/-- The regions do not overlap. -/
def Apart (A B : BucketModel) : Prop := A.stop ≤ B.base ∨ B.stop ≤ A.base

theorem Apart.symm {A B : BucketModel} (h : Apart A B) : Apart B A := Or.symm h

theorem BucketModel.WF.base_lt_stop {B : BucketModel} (h : B.WF) : B.base + 124 ≤ B.stop := by
  obtain ⟨b, rest, hblocks⟩ := List.exists_cons_of_ne_nil h.nonempty
  have hbounds := h.block_bounds (b := b) (by simp [hblocks])
  omega

/-- A free lock is taken. -/
theorem acquireSpinlock_eq {m : Mem} {bucket : Nat}
    (h : m.get bucket MemoryBucket.spinlock = 0) :
    acquireSpinlock m (bucketSpinlock bucket) = some (m.put bucket MemoryBucket.spinlock 1) := by
  have hload : m.load (bucketSpinlock bucket) 4 = 0 := h
  rw [acquireSpinlock, hload]
  rfl

theorem releaseSpinlock_eq (m : Mem) (bucket : Nat) :
    releaseSpinlock m (bucketSpinlock bucket) = m.put bucket MemoryBucket.spinlock 0 := rfl

namespace BucketAt

variable {m m' : Mem} {B B' : BucketModel} {lock lock' prev next v : Nat}

/-- A bucket survives every change outside its region. -/
theorem frame (h : BucketAt lock m B prev next) (hwf : B.WF)
    (hsame : ∀ x, B.base ≤ x → x < B.stop → m'.byte x = m.byte x) :
    BucketAt lock m' B prev next := by
  have hstop := hwf.base_lt_stop
  have hheader : SameBytes m m' B.base 64 := fun x hl hh => hsame x hl (by omega)
  refine ⟨h.body.frame hwf fun x hx => ?_, ?_, ?_, ?_⟩
  · obtain ⟨hl, hh⟩ | ⟨hl, hh⟩ := hx
    · exact hsame x hl (by omega)
    · exact hsame x (by omega) hh
  · exact (hheader.get (by decide)).trans h.spinlock
  · exact (hheader.get (by decide)).trans h.prev
  · exact (hheader.get (by decide)).trans h.next

/-- A link written in another bucket does not matter. -/
theorem put_other (h : BucketAt lock m B prev next) (hwf : B.WF) {A : BucketModel} (hA : A.WF)
    (hapart : Apart A B) {f : Field} (hf : f.offset + f.width ≤ 64) :
    BucketAt lock (m.put A.base f v) B prev next := by
  have hstop := hA.base_lt_stop
  apply h.frame hwf
  intro x hl hh
  apply Mem.put_byte_outside
  obtain hapart | hapart := hapart <;> omega

/-- The links lie outside the bytes the bucket's operations own. -/
theorem put_link_body (h : BucketBody m B) (hwf : B.WF) {f : Field} (hlow : 48 ≤ f.offset)
    (hf : f.offset + f.width ≤ 64) : BucketBody (m.put B.base f v) B := by
  apply h.frame hwf
  intro x hx
  apply Mem.put_byte_outside
  obtain ⟨hl, hh⟩ | ⟨hl, hh⟩ := hx <;> omega

theorem put_prev (h : BucketAt lock m B prev next) (hwf : B.WF) (hv : v < 2 ^ 64) :
    BucketAt lock (m.put B.base MemoryBucket.prev v) B v next where
  body := put_link_body h.body hwf (by decide) (by decide)
  spinlock := (Mem.get_put_disjoint (by simp)).trans h.spinlock
  prev := Mem.get_put_same hv
  next := (Mem.get_put_disjoint (by simp)).trans h.next

theorem put_next (h : BucketAt lock m B prev next) (hwf : B.WF) (hv : v < 2 ^ 64) :
    BucketAt lock (m.put B.base MemoryBucket.next v) B prev v where
  body := put_link_body h.body hwf (by decide) (by decide)
  spinlock := (Mem.get_put_disjoint (by simp)).trans h.spinlock
  prev := (Mem.get_put_disjoint (by simp)).trans h.prev
  next := Mem.get_put_same hv

/-- Taking or releasing the lock. -/
theorem put_spinlock (h : BucketAt lock m B prev next) (hwf : B.WF) (hv : v < 2 ^ 32) :
    BucketAt v (m.put B.base MemoryBucket.spinlock v) B prev next where
  body := h.body.put_spinlock hwf v
  spinlock := Mem.get_put_same hv
  prev := (Mem.get_put_disjoint (by simp)).trans h.prev
  next := (Mem.get_put_disjoint (by simp)).trans h.next

/-- A step inside the bucket keeps its lock and its links. -/
theorem step (h : BucketAt lock m B prev next) (hstep : BucketStep m B m' B') :
    BucketAt lock m' B' prev next := by
  have hsame : ∀ f : Field, 16 ≤ f.offset → f.offset + f.width ≤ 64 →
      m'.get B'.base f = m.get B.base f := by
    intro f hl hh
    rw [hstep.base_eq]
    apply Mem.load_eq_of_bytes
    intro i hi
    apply hstep.changes
    rintro (⟨-, hx⟩ | ⟨hx, -⟩) <;> omega
  exact ⟨hstep.body, (hsame _ (by decide) (by decide)).trans h.spinlock,
    (hsame _ (by decide) (by decide)).trans h.prev, (hsame _ (by decide) (by decide)).trans h.next⟩

end BucketAt

/-! ## Chains of buckets -/

section BucketChain

variable {m m' : Mem} {lock prev next v : Nat} {A B : BucketModel} {Bs pre post : List BucketModel}

abbrev BucketChain (m : Mem) (prev : Nat) (Bs : List BucketModel) (next : Nat) : Prop :=
  Chain BucketModel.base (BucketAt 0 m) prev Bs next

theorem BucketChain.frame (h : BucketChain m prev Bs next) (hwf : ∀ B ∈ Bs, B.WF)
    (hsame : ∀ B ∈ Bs, ∀ x, B.base ≤ x → x < B.stop → m'.byte x = m.byte x) :
    BucketChain m' prev Bs next :=
  Chain.mono (fun B hB _ _ hat => hat.frame (hwf B hB) (hsame B hB)) h

theorem BucketChain.put_other (h : BucketChain m prev Bs next) (hwf : ∀ B ∈ Bs, B.WF)
    (hA : A.WF) (hapart : ∀ B ∈ Bs, Apart A B) {f : Field} (hf : f.offset + f.width ≤ 64) :
    BucketChain (m.put A.base f v) prev Bs next :=
  Chain.mono (fun B hB _ _ hat => hat.put_other (hwf B hB) hA (hapart B hB) hf) h

/-- The last bucket of a chain gets a new forward link. -/
theorem BucketChain.put_last (h : BucketChain m prev (pre ++ [A]) next)
    (hwf : ∀ B ∈ pre ++ [A], B.WF) (hapart : ∀ B ∈ pre, Apart A B) (hv : v < 2 ^ 64) :
    BucketChain (m.put A.base MemoryBucket.next v) prev (pre ++ [A]) v := by
  obtain ⟨hpre, hA, -⟩ := Chain.middle_iff.mp h
  have hAwf := hwf A (by simp)
  have hpre' : BucketChain (m.put A.base MemoryBucket.next v) prev pre A.base :=
    BucketChain.put_other hpre (fun B hB => hwf B (by simp [hB])) hAwf hapart (by decide)
  exact Chain.middle_iff.mpr ⟨hpre', hA.put_next hAwf hv, trivial⟩

/-- The assignment of the back link of the next bucket, if there is one. -/
def relinkBucket (m : Mem) (next v : Nat) : Mem :=
  if next ≠ 0 then m.put next MemoryBucket.prev v else m

theorem BucketChain.relink (h : BucketChain m prev Bs 0) (hwf : ∀ B ∈ Bs, B.WF)
    (hapart : Bs.Pairwise Apart) (hv : v < 2 ^ 64) :
    BucketChain (relinkBucket m (headAddr BucketModel.base Bs 0) v) v Bs 0 := by
  cases Bs with
  | nil => trivial
  | cons B rest =>
      obtain ⟨hB, hrest⟩ := h
      have hBwf := hwf B List.mem_cons_self
      rw [headAddr_cons, relinkBucket, if_pos hBwf.base_ne]
      refine ⟨hB.put_prev hBwf hv, ?_⟩
      exact BucketChain.put_other hrest (fun C hC => hwf C (List.mem_cons_of_mem B hC)) hBwf
        (List.pairwise_cons.mp hapart).1 (by decide)

/-- The other buckets do not see the back link. -/
theorem BucketAt.relink_other (h : BucketAt lock m A prev next) (hA : A.WF) (hwf : ∀ B ∈ Bs, B.WF)
    (hapart : ∀ B ∈ Bs, Apart B A) :
    BucketAt lock (relinkBucket m (headAddr BucketModel.base Bs 0) v) A prev next := by
  cases Bs with
  | nil => exact h
  | cons B rest =>
      have hBwf := hwf B List.mem_cons_self
      rw [headAddr_cons, relinkBucket, if_pos hBwf.base_ne]
      exact h.put_other hA hBwf (hapart B List.mem_cons_self) (by decide)

end BucketChain

/-! ## The heap -/

/-- The heap's list, from `start` on, consists of the buckets `Bs`. -/
structure HeapRep (m : Mem) (start : Nat) (Bs : List BucketModel) : Prop where
  chain : BucketChain m 0 Bs 0
  head : headAddr BucketModel.base Bs 0 = start
  wf : ∀ B ∈ Bs, B.WF
  apart : Bs.Pairwise Apart
  nonempty : Bs ≠ []

/-- Two halves of a pairwise disjoint list around one bucket. -/
theorem apart_middle {pre post : List BucketModel} {B : BucketModel} :
    (pre ++ B :: post).Pairwise Apart ↔
      (∀ C ∈ pre ++ post, Apart B C) ∧ (pre ++ post).Pairwise Apart := by
  rw [List.pairwise_middle Apart.symm, List.pairwise_cons]

namespace HeapRep

/-- The heap survives every change outside its buckets. -/
theorem frame {m m' : Mem} {start : Nat} {Bs : List BucketModel} (h : HeapRep m start Bs)
    (hsame : ∀ B ∈ Bs, ∀ x, B.base ≤ x → x < B.stop → m'.byte x = m.byte x) :
    HeapRep m' start Bs :=
  ⟨BucketChain.frame h.chain h.wf hsame, h.head, h.wf, h.apart, h.nonempty⟩

variable {m m' : Mem} {start : Nat} {A B B' N : BucketModel} {Bs pre post : List BucketModel}

/-- A step inside one bucket is a step of the heap. -/
theorem step (h : HeapRep m start (pre ++ B :: post)) (hstep : BucketStep m B m' B') :
    HeapRep m' start (pre ++ B' :: post) := by
  obtain ⟨hpre, hB, hpost⟩ := Chain.middle_iff.mp h.chain
  obtain ⟨hapart, hrest⟩ := apart_middle.mp h.apart
  have hwfpre : ∀ C ∈ pre, C.WF := fun C hC => h.wf C (by simp [hC])
  have hwfpost : ∀ C ∈ post, C.WF := fun C hC => h.wf C (by simp [hC])
  have hother : ∀ C ∈ pre ++ post, ∀ x, C.base ≤ x → x < C.stop → m'.byte x = m.byte x := by
    intro C hC x hl hh
    apply hstep.changes
    have hstop := (h.wf B (by simp)).base_lt_stop
    obtain hapart | hapart := hapart C hC <;> rintro (hx | hx) <;> omega
  refine ⟨Chain.middle_iff.mpr ⟨?_, ?_, ?_⟩, ?_, ?_, ?_, by simp⟩
  · rw [hstep.base_eq]
    exact BucketChain.frame hpre hwfpre fun C hC => hother C (List.mem_append_left _ hC)
  · exact hB.step hstep
  · rw [hstep.base_eq]
    exact BucketChain.frame hpost hwfpost fun C hC => hother C (List.mem_append_right _ hC)
  · rw [← h.head, headAddr_append, headAddr_append, headAddr_cons, headAddr_cons, hstep.base_eq]
  · intro C hC
    obtain hC | hC := List.mem_append.mp hC
    · exact hwfpre C hC
    · obtain rfl | hC := List.mem_cons.mp hC
      · exact hstep.wf
      · exact hwfpost C hC
  · refine apart_middle.mpr ⟨fun C hC => ?_, hrest⟩
    have hCB := hapart C hC
    rw [Apart, hstep.stop_eq, hstep.base_eq]
    exact hCB

end HeapRep

/-! ## New buckets -/

/-- The bucket `create_bucket` sets up: one free pebble behind the header. -/
def freshBucket (region bytes : Nat) : BucketModel :=
  ⟨region, bytes / 4096, bytes - 124, [⟨region + 64, bytes - 124, false⟩]⟩

@[simp] theorem freshBucket_base (region bytes : Nat) : (freshBucket region bytes).base = region :=
  rfl

theorem freshBucket_exact (region bytes : Nat) : (freshBucket region bytes).Exact := by
  simp only [BucketModel.Exact, freshBucket, maxSize, List.foldl_cons, List.foldl_nil]
  split <;> omega

/-- The region of a new bucket is tiled by its pebble. -/
theorem freshBucket_wf {region bytes : Nat} (hregion : region ≠ 0) (hlow : 124 ≤ bytes)
    (hpages : bytes % 4096 = 0) (hfits : region + bytes ≤ 2 ^ 64) :
    (freshBucket region bytes).WF := by
  have hstop : (freshBucket region bytes).stop = region + bytes := by
    simp only [freshBucket, BucketModel.stop]
    omega
  refine ⟨hregion, hstop ▸ hfits, ⟨rfl, ?_⟩, by simp [freshBucket]⟩
  rw [hstop]
  change region + 64 + 60 + (bytes - 124) = region + bytes
  omega

section InitBucket

variable {m : Mem} {region bytes flags : Nat}

/-- The headers take the first 124 bytes of the region. -/
theorem initBucket_byte {x : Nat} (hfits : region + 124 ≤ 2 ^ 64)
    (hx : x < region ∨ region + 124 ≤ x) :
    (initBucket m region bytes flags).byte x = m.byte x := by
  have hfirst : add64 region MemoryBucket.sizeof = region + 64 :=
    add64_eq (a := region) (b := 64) (by omega)
  simp only [initBucket, hfirst]
  iterate 15 rw [Mem.put_byte_outside (by simp; omega)]

theorem initBucket_at (hfits : region + 124 ≤ 2 ^ 64) (hlow : 124 ≤ bytes)
    (hhigh : bytes < 2 ^ 64) :
    BucketAt 0 (initBucket m region bytes flags) (freshBucket region bytes) 0 0 := by
  have hfirst : add64 region MemoryBucket.sizeof = region + 64 :=
    add64_eq (a := region) (b := 64) (by omega)
  have hsize : sub64 (sub64 bytes MemoryBucket.sizeof) MemoryPebble.sizeof = bytes - 124 := by
    have hinner : sub64 bytes MemoryBucket.sizeof = bytes - 64 :=
      sub64_eq (a := bytes) (b := 64) (by omega) hhigh
    rw [hinner]
    exact sub64_eq (a := bytes - 64) (b := 60) (by omega) (by omega)
  have hsmall : bytes - 124 < 2 ^ 64 := by omega
  have hcount : bytes / pageSize < 2 ^ 64 := by
    rw [pageSize]
    omega
  refine ⟨⟨?_, ?_, ?_, ⟨⟨?_, ?_, ?_, ?_, ?_, ?_⟩, trivial⟩⟩, ?_, ?_, ?_⟩ <;>
    simp (disch := first | assumption | decide | (simp only; omega)) only [freshBucket,
      initBucket, hfirst, Mem.get_put_same, Mem.get_put_disjoint, hsize]
  · rfl
  · rfl
  · rfl

end InitBucket

/-! ## Inserting and removing -/

namespace HeapRep

variable {m : Mem} {start : Nat} {A B N : BucketModel} {front post : List BucketModel}

/-- `insert_bucket` puts a new bucket behind the first one. -/
theorem insert (h : HeapRep m start (A :: post)) (hN : BucketAt 0 m N 0 0) (hNwf : N.WF)
    (hapart : ∀ C ∈ A :: post, Apart N C) :
    ∃ m', insertBucket m N.base start = some m' ∧ HeapRep m' start (A :: N :: post) := by
  obtain ⟨hA, hpost⟩ := h.chain
  have hAwf := h.wf A List.mem_cons_self
  have hwf : ∀ C ∈ post, C.WF := fun C hC => h.wf C (List.mem_cons_of_mem A hC)
  obtain ⟨hApost, hpairs⟩ := List.pairwise_cons.mp h.apart
  have hNA : Apart N A := hapart A List.mem_cons_self
  have hNpost : ∀ C ∈ post, Apart N C := fun C hC => hapart C (List.mem_cons_of_mem A hC)
  have hstart : A.base = start := h.head
  have hAlt := hAwf.base_lt_stop
  have hAfits := hAwf.fits
  have hNlt := hNwf.base_lt_stop
  have hNfits := hNwf.fits
  have hacquire := acquireSpinlock_eq hA.spinlock
  have hnextlt : headAddr BucketModel.base post 0 < 2 ^ 64 := by
    rw [← hA.next]
    exact Mem.get_lt m _ _
  -- the lock of the first bucket
  have hA₁ := hA.put_spinlock (v := 1) hAwf (by decide)
  have hN₁ := hN.put_other (v := 1) hNwf hAwf hNA.symm (f := MemoryBucket.spinlock) (by decide)
  have hpost₁ := BucketChain.put_other (v := 1) (f := MemoryBucket.spinlock) hpost hwf hAwf hApost
    (by decide)
  generalize m.put A.base MemoryBucket.spinlock 1 = m₁ at *
  -- the forward link of the new bucket
  have hA₂ := hA₁.put_other (v := headAddr BucketModel.base post 0) hAwf hNwf hNA
    (f := MemoryBucket.next) (by decide)
  have hN₂ := hN₁.put_next hNwf hnextlt
  have hpost₂ := BucketChain.put_other (v := headAddr BucketModel.base post 0)
    (f := MemoryBucket.next) hpost₁ hwf hNwf hNpost (by decide)
  generalize hm₂ : m₁.put N.base MemoryBucket.next (headAddr BucketModel.base post 0) = m₂ at *
  -- the forward link of the first bucket
  have hA₃ := hA₂.put_next (v := N.base) hAwf (by omega)
  have hN₃ := hN₂.put_other (v := N.base) hNwf hAwf hNA.symm (f := MemoryBucket.next) (by decide)
  have hpost₃ := BucketChain.put_other (v := N.base) (f := MemoryBucket.next) hpost₂ hwf hAwf hApost
    (by decide)
  generalize hm₃ : m₂.put A.base MemoryBucket.next N.base = m₃ at *
  -- the back link of the new bucket
  have hA₄ := hA₃.put_other (v := A.base) hAwf hNwf hNA (f := MemoryBucket.prev) (by decide)
  have hN₄ := hN₃.put_prev (v := A.base) hNwf (by omega)
  have hpost₄ := BucketChain.put_other (v := A.base) (f := MemoryBucket.prev) hpost₃ hwf hNwf hNpost
    (by decide)
  generalize hm₄ : m₃.put N.base MemoryBucket.prev A.base = m₄ at *
  -- the back link of the bucket behind
  have hA₅ := hA₄.relink_other (v := N.base) hAwf hwf fun C hC => (hApost C hC).symm
  have hN₅ := hN₄.relink_other (v := N.base) hNwf hwf fun C hC => (hNpost C hC).symm
  have hpost₅ := BucketChain.relink (v := N.base) hpost₄ hwf hpairs (by omega)
  have hupdate : updateNode m₁ N.base A.base =
      relinkBucket m₄ (headAddr BucketModel.base post 0) N.base := by
    rw [updateNode, hA₁.next]
    simp only [hm₂, hm₃, hm₄, hN₄.next]
    rfl
  generalize relinkBucket m₄ (headAddr BucketModel.base post 0) N.base = m₅ at *
  -- the lock again
  have hA₆ := hA₅.put_spinlock (v := 0) hAwf (by decide)
  have hN₆ := hN₅.put_other (v := 0) hNwf hAwf hNA.symm (f := MemoryBucket.spinlock) (by decide)
  have hpost₆ := BucketChain.put_other (v := 0) (f := MemoryBucket.spinlock) hpost₅ hwf hAwf hApost
    (by decide)
  refine ⟨m₅.put A.base MemoryBucket.spinlock 0, ?_, ⟨hA₆, hN₆, hpost₆⟩, hstart, ?_, ?_, by simp⟩
  · rw [insertBucket, if_pos ⟨hNwf.base_ne, hstart ▸ hAwf.base_ne⟩, ← hstart, hacquire]
    simp only [Option.bind_eq_bind, Option.bind_some, hupdate, releaseSpinlock_eq]
  · intro C hC
    obtain rfl | hC := List.mem_cons.mp hC
    · exact hAwf
    · obtain rfl | hC := List.mem_cons.mp hC
      · exact hNwf
      · exact hwf C hC
  · have hcons : A :: N :: post = [A] ++ N :: post := rfl
    rw [hcons]
    exact apart_middle.mpr ⟨hapart, h.apart⟩

/-- A bucket created in a fresh region and inserted. -/
theorem create (h : HeapRep m start (A :: post)) {region bytes : Nat} (flags : Nat)
    (hNwf : (freshBucket region bytes).WF) (hlow : 124 ≤ bytes) (hhigh : bytes < 2 ^ 64)
    (hapart : ∀ C ∈ A :: post, Apart (freshBucket region bytes) C) :
    ∃ m', insertBucket (initBucket m region bytes flags) region start = some m' ∧
      HeapRep m' start (A :: freshBucket region bytes :: post) := by
  have hNlt := hNwf.base_lt_stop
  have hNfits := hNwf.fits
  rw [freshBucket_base] at hNlt
  have hrep : HeapRep (initBucket m region bytes flags) start (A :: post) := by
    apply h.frame
    intro C hC x hl hh
    apply initBucket_byte (by omega)
    have hapartC := hapart C hC
    rw [Apart, freshBucket_base] at hapartC
    obtain hapartC | hapartC := hapartC <;> omega
  exact hrep.insert (initBucket_at (by omega) hlow hhigh) hNwf hapart

/-- `remove_bucket` takes a bucket other than the first one out of the list and leaves its
region alone. -/
theorem unlink (h : HeapRep m start (front ++ A :: B :: post)) :
    HeapRep (unlinkBucket m B.base) start (front ++ A :: post) ∧
      ∀ x, B.base ≤ x → x < B.stop → (unlinkBucket m B.base).byte x = m.byte x := by
  obtain ⟨hfront, hA, hB, hpost⟩ := Chain.middle_iff.mp h.chain
  have hAwf := h.wf A (by simp)
  have hBwf := h.wf B (by simp)
  have hwfpost : ∀ C ∈ post, C.WF := fun C hC => h.wf C (by simp [hC])
  have hwffront : ∀ C ∈ front, C.WF := fun C hC => h.wf C (by simp [hC])
  obtain ⟨hAapart, hBpost⟩ := apart_middle.mp h.apart
  obtain ⟨hBapart, hrest⟩ := apart_middle.mp hBpost
  have hAB : Apart A B := hAapart B (by simp)
  have hApost : ∀ C ∈ post, Apart A C := fun C hC => hAapart C (by simp [hC])
  have hpairs : post.Pairwise Apart := (List.pairwise_append.mp hrest).2.1
  have hnextlt : headAddr BucketModel.base post 0 < 2 ^ 64 := by
    rw [← hB.next]
    exact Mem.get_lt m _ _
  have hAlt := hAwf.base_lt_stop
  have hAfits := hAwf.fits
  -- the forward link of the bucket in front
  have hlast : BucketChain m 0 (front ++ [A]) B.base := Chain.middle_iff.mpr ⟨hfront, hA, trivial⟩
  have hfront₁ := hlast.put_last (v := headAddr BucketModel.base post 0)
    (by
      intro C hC
      obtain hC | hC := List.mem_append.mp hC
      · exact hwffront C hC
      · rw [List.mem_singleton.mp hC]
        exact hAwf)
    (fun C hC => hAapart C (by simp [hC])) hnextlt
  have hB₁ := hB.put_other (v := headAddr BucketModel.base post 0) hBwf hAwf hAB
    (f := MemoryBucket.next) (by decide)
  have hpost₁ := BucketChain.put_other (v := headAddr BucketModel.base post 0)
    (f := MemoryBucket.next) hpost hwfpost hAwf hApost (by decide)
  have hbytes₁ : ∀ x, B.base ≤ x → x < B.stop →
      (m.put A.base MemoryBucket.next (headAddr BucketModel.base post 0)).byte x = m.byte x := by
    intro x hl hh
    apply Mem.put_byte_outside
    simp only
    obtain hAB | hAB := hAB <;> omega
  generalize hm₁ : m.put A.base MemoryBucket.next (headAddr BucketModel.base post 0) = m₁ at *
  -- the back link of the bucket behind
  have hpostA : ∀ D ∈ post, Apart D A := fun D hD => (hApost D hD).symm
  have hpostFront : ∀ C ∈ front, ∀ D ∈ post, Apart D C := fun C hC D hD =>
    ((List.pairwise_append.mp hrest).2.2 C hC D hD).symm
  have hfront₂ : BucketChain (relinkBucket m₁ (headAddr BucketModel.base post 0) A.base) 0
      (front ++ [A]) (headAddr BucketModel.base post 0) := by
    refine Chain.mono (fun C hC _ _ hat => ?_) hfront₁
    obtain hC | hC := List.mem_append.mp hC
    · exact hat.relink_other (hwffront C hC) hwfpost (hpostFront C hC)
    · rw [List.mem_singleton.mp hC] at hat ⊢
      exact hat.relink_other hAwf hwfpost hpostA
  have hpost₂ := BucketChain.relink (v := A.base) hpost₁ hwfpost hpairs (by omega)
  have hbytes₂ : ∀ x, B.base ≤ x → x < B.stop →
      (relinkBucket m₁ (headAddr BucketModel.base post 0) A.base).byte x = m₁.byte x := by
    intro x hl hh
    cases post with
    | nil => rfl
    | cons D rest =>
        have hDwf := hwfpost D List.mem_cons_self
        have hDlt := hDwf.base_lt_stop
        have hBD := hBapart D (by simp)
        rw [headAddr_cons, relinkBucket, if_pos hDwf.base_ne]
        apply Mem.put_byte_outside
        simp only
        obtain hBD | hBD := hBD <;> omega
  have hunlink : unlinkBucket m B.base =
      relinkBucket m₁ (headAddr BucketModel.base post 0) A.base := by
    rw [unlinkBucket, hB.prev, if_pos hAwf.base_ne, hB.next]
    simp only [hm₁, hB₁.prev, hB₁.next]
    rfl
  rw [hunlink]
  refine ⟨⟨?_, ?_, ?_, ?_, by simp⟩, fun x hl hh => (hbytes₂ x hl hh).trans (hbytes₁ x hl hh)⟩
  · have hsplit := Chain.middle_iff.mp hfront₂
    exact Chain.middle_iff.mpr ⟨hsplit.1, hsplit.2.1, hpost₂⟩
  · rw [← h.head, headAddr_append, headAddr_append, headAddr_cons, headAddr_cons]
  · intro C hC
    obtain hC | hC := List.mem_append.mp hC
    · exact hwffront C hC
    · obtain rfl | hC := List.mem_cons.mp hC
      · exact hAwf
      · exact hwfpost C hC
  · refine apart_middle.mpr ⟨fun C hC => hAapart C ?_, hrest⟩
    obtain hC | hC := List.mem_append.mp hC <;> simp [hC]

end HeapRep

end FroggyOs
