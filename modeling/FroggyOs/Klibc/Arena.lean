import FroggyOs.Klibc.Payloads

/-!
# Buckets in no order

While several callers insert and remove buckets at once, the list of buckets can be cut at
any place, and a bucket that has been taken out is still reached by those who hold its
address. What no step destroys is weaker than a list: every bucket that was ever created is
represented, the regions are disjoint, and each link is `NULL` or one of the buckets.
-/

namespace FroggyOs

open ByteMemory Word64 LinkedChain Function

/-- `p` is one of the buckets. -/
def IsBucket (Bs : List BucketModel) (p : Nat) : Prop := ∃ B ∈ Bs, B.base = p

/-- `p` is `NULL` or one of the buckets. -/
def IsLink (Bs : List BucketModel) (p : Nat) : Prop := p = 0 ∨ IsBucket Bs p

/-- The buckets `Bs` are represented, with the values `lock` in their locks. -/
structure Arena (lock : Nat → Nat) (m : Mem) (Bs : List BucketModel) : Prop where
  separate : Separate Bs
  bucketAt : ∀ B ∈ Bs, ∃ prev next, IsLink Bs prev ∧ IsLink Bs next ∧
    BucketAt (lock B.base) m B prev next

section Links

variable {Bs pre post : List BucketModel} {B B' : BucketModel} {p : Nat}

theorem IsBucket.cons (h : IsBucket Bs p) : IsBucket (B :: Bs) p := by
  obtain ⟨C, hC, rfl⟩ := h
  exact ⟨C, List.mem_cons_of_mem B hC, rfl⟩

theorem IsBucket.replace (h : IsBucket (pre ++ B :: post) p) (hbase : B'.base = B.base) :
    IsBucket (pre ++ B' :: post) p := by
  rw [IsBucket, exists_mem_middle] at h ⊢
  exact h.imp_left hbase.trans

theorem IsLink.imp {Cs : List BucketModel} (h : IsLink Bs p)
    (himp : IsBucket Bs p → IsBucket Cs p) :
    IsLink Cs p := Or.imp_right himp h

theorem Separate.link_lt (h : Separate Bs) (hp : IsLink Bs p) : p < 2 ^ 64 := by
  obtain rfl | ⟨B, hB, rfl⟩ := hp
  · decide
  · have hlt := (h.wf B hB).base_lt_stop
    have hfits := (h.wf B hB).fits
    omega

end Links

namespace Arena

variable {lock : Nat → Nat} {m m' : Mem} {Bs pre post : List BucketModel} {A B B' N : BucketModel}
  {p v : Nat}

theorem body (h : Arena lock m Bs) (hB : B ∈ Bs) : BucketBody m B := by
  obtain ⟨prev, next, -, -, hat⟩ := h.bucketAt B hB
  exact hat.body

theorem next_link (h : Arena lock m Bs) (hB : B ∈ Bs) :
    IsLink Bs (m.get B.base MemoryBucket.next) := by
  obtain ⟨prev, next, -, hnext, hat⟩ := h.bucketAt B hB
  rw [hat.next]
  exact hnext

theorem prev_link (h : Arena lock m Bs) (hB : B ∈ Bs) :
    IsLink Bs (m.get B.base MemoryBucket.prev) := by
  obtain ⟨prev, next, hprev, -, hat⟩ := h.bucketAt B hB
  rw [hat.prev]
  exact hprev

/-! ## Steps inside one bucket -/

/-- A step inside one bucket does not touch the others. -/
theorem step (h : Arena lock m (pre ++ B :: post)) (hstep : BucketStep m B m' B') :
    Arena lock m' (pre ++ B' :: post) := by
  obtain ⟨hapart, hrest⟩ := apart_middle.mp h.separate.apart
  have hstop := (h.separate.wf B (by simp)).base_lt_stop
  have hlink : ∀ p, IsLink (pre ++ B :: post) p → IsLink (pre ++ B' :: post) p :=
    fun p hp => hp.imp fun hbucket => hbucket.replace hstep.base_eq
  have hat := h.bucketAt
  rw [List.forall_mem_append, List.forall_mem_cons] at hat
  have hother : ∀ C ∈ pre ++ post, (∃ prev next, IsLink (pre ++ B :: post) prev ∧
      IsLink (pre ++ B :: post) next ∧ BucketAt (lock C.base) m C prev next) →
      ∃ prev next, IsLink (pre ++ B' :: post) prev ∧ IsLink (pre ++ B' :: post) next ∧
        BucketAt (lock C.base) m' C prev next := by
    rintro C hC ⟨prev, next, hprev, hnext, hCat⟩
    have hCwf : C.WF := h.separate.wf C (by simpa using Or.imp_right Or.inr (List.mem_append.mp hC))
    refine ⟨prev, next, hlink _ hprev, hlink _ hnext, hCat.frame hCwf fun x hl hh => ?_⟩
    apply hstep.changes
    obtain hapart | hapart := hapart C hC <;> rintro (hx | hx) <;> omega
  constructor
  · refine ⟨forall_replace h.separate.wf hstep.wf, apart_middle.mpr ⟨fun C hC => ?_, hrest⟩⟩
    have hCB := hapart C hC
    rw [Apart, hstep.stop_eq, hstep.base_eq]
    exact hCB
  · rw [List.forall_mem_append, List.forall_mem_cons]
    refine ⟨fun C hC => hother C (List.mem_append_left _ hC) (hat.1 C hC), ?_,
      fun C hC => hother C (List.mem_append_right _ hC) (hat.2.2 C hC)⟩
    obtain ⟨prev, next, hprev, hnext, hBat⟩ := hat.2.1
    refine ⟨prev, next, hlink _ hprev, hlink _ hnext, ?_⟩
    rw [hstep.base_eq]
    exact hBat.step hstep

/-! ## Links and locks -/

/-- A field of one bucket header that is a link or the lock is written. -/
theorem put_field (h : Arena lock m Bs) (hA : A ∈ Bs) {f : Field} (hf : f.offset + f.width ≤ 64)
    {lock' : Nat → Nat} (hlock : ∀ C ∈ Bs, C.base ≠ A.base → lock' C.base = lock C.base)
    (hat : ∀ prev next, IsLink Bs prev → IsLink Bs next → BucketAt (lock A.base) m A prev next →
      ∃ prev next, IsLink Bs prev ∧ IsLink Bs next ∧
        BucketAt (lock' A.base) (m.put A.base f v) A prev next) :
    Arena lock' (m.put A.base f v) Bs := by
  refine ⟨h.separate, fun B hB => ?_⟩
  obtain ⟨prev, next, hprev, hnext, hBat⟩ := h.bucketAt B hB
  by_cases hsame : B = A
  · subst hsame
    exact hat prev next hprev hnext hBat
  · have hbase : B.base ≠ A.base := fun hbase => hsame (h.separate.bucket_ext hB hA hbase)
    refine ⟨prev, next, hprev, hnext, ?_⟩
    rw [hlock B hB hbase]
    exact hBat.put_other (h.separate.wf B hB) (h.separate.wf A hA)
      (h.separate.apart_of_ne hA hB (Ne.symm hsame)) hf

theorem put_next (h : Arena lock m Bs) (hA : A ∈ Bs) (hv : IsLink Bs v) :
    Arena lock (m.put A.base MemoryBucket.next v) Bs :=
  h.put_field hA (by decide) (fun _ _ _ => rfl) fun prev _ hprev _ hat =>
    ⟨prev, v, hprev, hv, hat.put_next (h.separate.wf A hA) (h.separate.link_lt hv)⟩

theorem put_prev (h : Arena lock m Bs) (hA : A ∈ Bs) (hv : IsLink Bs v) :
    Arena lock (m.put A.base MemoryBucket.prev v) Bs :=
  h.put_field hA (by decide) (fun _ _ _ => rfl) fun _ next _ hnext hat =>
    ⟨v, next, hv, hnext, hat.put_prev (h.separate.wf A hA) (h.separate.link_lt hv)⟩

theorem put_spinlock (h : Arena lock m Bs) (hA : A ∈ Bs) (hv : v < 2 ^ 32) :
    Arena (update lock A.base v) (m.put A.base MemoryBucket.spinlock v) Bs := by
  refine h.put_field hA (by decide) (fun C _ hne => update_of_ne hne _ _)
    fun prev next hprev hnext hat => ⟨prev, next, hprev, hnext, ?_⟩
  rw [update_self]
  exact hat.put_spinlock (h.separate.wf A hA) hv

/-- A link written through a link that is not `NULL`. -/
theorem put_prev_link (h : Arena lock m Bs) (hp : IsLink Bs p) (hne : p ≠ 0) (hv : IsLink Bs v) :
    Arena lock (m.put p MemoryBucket.prev v) Bs := by
  obtain ⟨A, hA, rfl⟩ := hp.resolve_left hne
  exact h.put_prev hA hv

theorem put_next_link (h : Arena lock m Bs) (hp : IsLink Bs p) (hne : p ≠ 0) (hv : IsLink Bs v) :
    Arena lock (m.put p MemoryBucket.next v) Bs := by
  obtain ⟨A, hA, rfl⟩ := hp.resolve_left hne
  exact h.put_next hA hv

theorem isLink_base (hA : A ∈ Bs) : IsLink Bs A.base := .inr ⟨A, hA, rfl⟩

theorem updateNode (h : Arena lock m Bs) (hN : N ∈ Bs) (hA : A ∈ Bs) :
    Arena lock (updateNode m N.base A.base) Bs := by
  have h₁ := h.put_next hN (h.next_link hA)
  have h₂ := h₁.put_next hA (isLink_base hN)
  have h₃ := h₂.put_prev hN (isLink_base hA)
  rw [FroggyOs.updateNode]
  split
  case isTrue hne => exact h₃.put_prev_link (h₃.next_link hN) hne (isLink_base hN)
  case isFalse => exact h₃

theorem unlinkBucket (h : Arena lock m Bs) (hB : B ∈ Bs) :
    Arena lock (unlinkBucket m B.base) Bs := by
  have h₁ : Arena lock
      (if m.get B.base MemoryBucket.prev ≠ 0 then
        m.put (m.get B.base MemoryBucket.prev) MemoryBucket.next (m.get B.base MemoryBucket.next)
      else m) Bs := by
    split
    case isTrue hne => exact h.put_next_link (h.prev_link hB) hne (h.next_link hB)
    case isFalse => exact h
  rw [FroggyOs.unlinkBucket]
  generalize (if m.get B.base MemoryBucket.prev ≠ 0 then
      m.put (m.get B.base MemoryBucket.prev) MemoryBucket.next (m.get B.base MemoryBucket.next)
    else m) = m₁ at h₁ ⊢
  split
  case isTrue hne => exact h₁.put_prev_link (h₁.next_link hB) hne (h₁.prev_link hB)
  case isFalse => exact h₁

/-- `insert_bucket` takes and releases the lock of the bucket it inserts behind. -/
theorem insertBucket (h : Arena (fun _ => 0) m Bs) (hN : N ∈ Bs) (hA : A ∈ Bs) :
    ∃ m', insertBucket m N.base A.base = some m' ∧ Arena (fun _ => 0) m' Bs := by
  obtain ⟨prev, next, -, -, hat⟩ := h.bucketAt A hA
  have h₁ := (h.put_spinlock hA (by decide : 1 < 2 ^ 32)).updateNode hN hA
  have h₂ := h₁.put_spinlock hA (by decide : 0 < 2 ^ 32)
  rw [update_idem, update_eq_self] at h₂
  refine ⟨_, ?_, h₂⟩
  rw [FroggyOs.insertBucket, if_pos ⟨(h.separate.wf N hN).base_ne, (h.separate.wf A hA).base_ne⟩,
    acquireSpinlock_eq hat.spinlock]
  rfl

/-! ## New buckets -/

/-- The headers of a new bucket lie above all others. -/
theorem create (h : Arena (fun _ => 0) m Bs) {region bytes : Nat} (flags : Nat)
    (hNwf : (freshBucket region bytes).WF) (hlow : 124 ≤ bytes) (hhigh : bytes < 2 ^ 64)
    (hbelow : ∀ B ∈ Bs, B.stop ≤ region) :
    Arena (fun _ => 0) (initBucket m region bytes flags) (freshBucket region bytes :: Bs) := by
  have hNlt := hNwf.base_lt_stop
  have hNfits := hNwf.fits
  rw [freshBucket_base] at hNlt
  constructor
  · exact ⟨List.forall_mem_cons.mpr ⟨hNwf, h.separate.wf⟩,
      List.pairwise_cons.mpr ⟨fun C hC => .inr (hbelow C hC), h.separate.apart⟩⟩
  · refine List.forall_mem_cons.mpr ⟨⟨0, 0, .inl rfl, .inl rfl,
      initBucket_at (by omega) hlow hhigh⟩, fun C hC => ?_⟩
    obtain ⟨prev, next, hprev, hnext, hCat⟩ := h.bucketAt C hC
    refine ⟨prev, next, hprev.imp IsBucket.cons, hnext.imp IsBucket.cons,
      hCat.frame (h.separate.wf C hC) fun x _ hh => initBucket_byte (by omega) ?_⟩
    have hstop := hbelow C hC
    omega

end Arena

end FroggyOs
