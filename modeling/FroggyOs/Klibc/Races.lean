import FroggyOs.Klibc.ThreadRuns

/-!
# Two races between `kmalloc` and `kfree`

`kfree` tests a bucket for emptiness after it has released the bucket's lock, and `kmalloc`
shows a new bucket to the other callers before it has placed its own request there. Between
the two steps another thread may place a pebble in the bucket. As long as nobody does,
`remove_bucket` meets no pebble in use, and `kmalloc` returns `NULL` only if `create_bucket`
does.
-/

namespace FroggyOs

open ByteMemory Word64 LinkedChain Function Interleaving

attribute [local irreducible] bucketUpdateLargest placePebble scanSection placeSection freeSection
  pebbleSize bucketBytes createBucket removeBucket insertBucket memset

/-! ## Pebbles in use -/

/-- The bucket holds a pebble in use. -/
def HoldsInUse (m : Mem) (bucket : Nat) : Prop :=
  ∃ p, ListedPebble m bucket p ∧ isPebbleFree m p = false

theorem BucketModel.Unused.not_holdsInUse {m : Mem} {B : BucketModel} (hunused : B.Unused)
    (h : BucketBody m B) (hwf : B.WF) : ¬ HoldsInUse m B.base := by
  rintro ⟨p, hlisted, hused⟩
  obtain ⟨b, hb, rfl⟩ := (listedPebble_iff h hwf).mp hlisted
  obtain ⟨prev, next, hpebble⟩ := h.pebble hb
  rw [hpebble.isPebbleFree_iff, hunused b hb] at hused
  cases hused

section Calls

variable {Thread : Type*} {calls : Set HeapCall} {h : Heap}
  {s s' : CallState Thread} {t u : Thread} {Bs Bs' : List BucketModel} {bucket size : Nat}

/-! ## Steps and runs -/

/-- A heap that has just been set up. -/
theorem Started.inv (Thread : Type*) (hstart : Started h) :
    ∃ B : BucketModel, CallInv (.initial h : CallState Thread) [B] := by
  obtain ⟨h₀, size, hinit, hne, hin⟩ := hstart
  have hinv := HeapInv.start hinit hne hin
  obtain ⟨vmm, -, hcases⟩ := createBucket_cases hinit
  have hheap := (hcases.resolve_left fun hand => hne hand.1).2
  refine ⟨_, ⟨⟨hinv.rep.separate, fun B hB => ?_⟩, hinv.below, ?_, fun _ => trivial⟩, ?_, ?_⟩
  · rw [List.mem_singleton.mp hB]
    exact ⟨0, 0, .inl rfl, .inl rfl, hinv.rep.chain.1⟩
  · exact ⟨_, List.mem_singleton_self _, hinv.rep.head⟩
  · exact ⟨List.nodup_nil, by simp [CallState.initial], by simp [CallState.held, CallState.initial,
      CallPc.payload]⟩
  · simp [Present, CallState.held, CallState.initial, CallPc.payload]

theorem CallInv.unused_of_empty (hs : CallInv s Bs) (hpc : s.pc t = .testing bucket)
    (htest : BucketEmpty s.heap.mem bucket) : ∃ B ∈ Bs, B.base = bucket ∧ B.Unused := by
  obtain ⟨B, hB, rfl⟩ := hs.sound_pc hpc
  have hidle := (idle_iff (hs.sound.arena.body hB) (hs.sound.arena.separate.wf B hB)).mp htest
  exact ⟨B, hB, rfl, fun b hb => inUse_of_idle hidle hb⟩

/-- The section in a new bucket with room for the request does not fail. -/
theorem CallInv.placeSection_ne_zero (hs : CallInv s Bs) {B : BucketModel} {m : Mem} (hB : B ∈ Bs)
    (hroom : ∃ b ∈ B.blocks, fits (pebbleSize size) b = true) :
    placeSection s.heap.mem B.base (pebbleSize size) ≠ some (0, m) := by
  have hwf := hs.sound.arena.separate.wf B hB
  obtain ⟨prev, next, -, -, hat⟩ := hs.sound.arena.bucketAt B hB
  obtain ⟨p, m', B', hcall, -, hplaced, -⟩ := placeSection_spec hat hwf (pebbleSize_aligned size)
  have hp := hplaced.ne_zero hwf.addr_ne_zero hroom
  intro hsection
  rw [hcall] at hsection
  cases hsection
  exact hp rfl

variable [DecidableEq Thread]

theorem CallStep.pc_other (hstep : CallStep calls t s s') (hu : u ≠ t) : s'.pc u = s.pc u := by
  cases hstep <;> exact update_of_ne hu _ _

/-- What holds of the first state and is kept by every step that meets the condition. -/
theorem CallRun.induct {cond : CallState Thread → Thread → Prop}
    {P : CallState Thread → List BucketModel → Prop} (hrun : CallRun calls cond h s)
    (hstart : ∃ Bs, P (.initial h) Bs)
    (hstep : ∀ s t s' Bs, P s Bs → cond s t → CallStep calls t s s' → ∃ Bs', P s' Bs') :
    ∃ Bs, P s Bs := by
  induction hrun with
  | refl => exact hstart
  | tail _ hlast ih =>
      obtain ⟨Bs, hBs⟩ := ih
      obtain ⟨t, hcond, hlast⟩ := hlast
      exact hstep _ t _ Bs hBs hcond hlast

/-! ## Removing a bucket -/

/-- No bucket that `remove_bucket` is about to be applied to holds a pebble in use. -/
def RemovesUnused (s : CallState Thread) : Prop :=
  ∀ t bucket, s.pc t = .removing bucket → ¬ HoldsInUse s.heap.mem bucket

/-- The buckets that have passed the emptiness test are still unused. -/
structure RemoveInv (s : CallState Thread) (Bs : List BucketModel) : Prop where
  inv : CallInv s Bs
  unused : ∀ t bucket, s.pc t = .removing bucket → ∃ B ∈ Bs, B.base = bucket ∧ B.Unused

theorem CallStep.removing_self (hstep : CallStep calls t s s') (hpc : s'.pc t = .removing bucket) :
    s.pc t = .testing bucket ∧ BucketEmpty s.heap.mem bucket := by
  cases hstep with
  | testPassed htesting htest =>
      rw [goto_pc] at hpc
      cases hpc
      exact ⟨htesting, htest⟩
  | _ =>
      rw [goto_pc] at hpc
      cases hpc

theorem RemoveInv.step (hs : RemoveInv s Bs) (hbounds : StaysInBounds s t)
    (hspares : SparesRemoved s t) (hstep : CallStep calls t s s') :
    ∃ Bs', RemoveInv s' Bs' := by
  obtain ⟨Bs', hkeeps⟩ := hs.inv.step hbounds hstep
  refine ⟨Bs', hkeeps.inv, fun u bucket hpc => ?_⟩
  have hbefore : ∃ B ∈ Bs, B.base = bucket ∧ B.Unused ∧ ¬ PlacesIn s t bucket := by
    by_cases hu : u = t
    · subst hu
      obtain ⟨htesting, htest⟩ := hstep.removing_self hpc
      obtain ⟨B, hB, hbase, hunused⟩ := hs.inv.unused_of_empty htesting htest
      exact ⟨B, hB, hbase, hunused, by simp [PlacesIn, htesting]⟩
    · rw [hstep.pc_other hu] at hpc
      obtain ⟨B, hB, hbase, hunused⟩ := hs.unused u bucket hpc
      exact ⟨B, hB, hbase, hunused, hspares u bucket hpc⟩
  obtain ⟨B, hB, rfl, hunused, hspared⟩ := hbefore
  obtain ⟨B', hB', hbase, hblocks⟩ := hkeeps.unused B hB hunused hspared
  refine ⟨B', hB', hbase, ?_⟩
  rw [BucketModel.Unused, hblocks]
  exact hunused

/-- If no section of `kmalloc` places a request in a bucket between its emptiness test and its
removal, `remove_bucket` is never applied to a bucket with a pebble in use. -/
theorem callRun_removesUnused (hstart : Started h)
    (hrun : CallRun calls (fun s t => StaysInBounds s t ∧ SparesRemoved s t) h s) :
    RemovesUnused s := by
  obtain ⟨B, hinv⟩ := hstart.inv Thread
  have hfirst : RemoveInv (.initial h : CallState Thread) [B] :=
    ⟨hinv, fun t bucket hpc => nomatch hpc⟩
  obtain ⟨Bs, hs⟩ := hrun.induct ⟨[B], hfirst⟩ fun s t s' Bs hs hcond hstep =>
    hs.step hcond.1 hcond.2 hstep
  intro t bucket hpc
  obtain ⟨B, hB, rfl, hunused⟩ := hs.unused t bucket hpc
  exact hunused.not_holdsInUse (hs.inv.sound.arena.body hB) (hs.inv.sound.arena.separate.wf B hB)

/-! ## Placing in a new bucket -/

/-- The size of the request that the thread is in `kmalloc` for, up to its zero fill. -/
def CallPc.request : CallPc → Option Nat
  | scanning size _ | advancing size _ | creating size | inserting size _ | placing size _ =>
      some size
  | _ => none

/-- The requests are small, the new buckets still have room for them, and no call has failed
in a bucket. -/
structure InsertInv (s : CallState Thread) (Bs : List BucketModel) : Prop where
  inv : CallInv s Bs
  small : ∀ t size, (s.pc t).request = some size → size ≤ 65536
  room : ∀ t size bucket, (s.pc t).Owns size bucket →
    ∃ B ∈ Bs, B.base = bucket ∧ B.Unused ∧ ∃ b ∈ B.blocks, fits (pebbleSize size) b = true
  failed : ∀ bucket ∈ s.failed, bucket = 0

/-- Calls of `kmalloc` for at most `n` bytes. -/
def kmallocUpTo (n : Nat) : Set HeapCall := { c | ∃ size ≤ n, c = .kmalloc size }

theorem requestSize_small {n : Nat} (hn : n ≤ 65536) : requestSize n ≤ 65536 := by
  change (if n < 64 then 64 else n) ≤ 65536
  split <;> omega

theorem room_of_fresh (hsize : size ≤ 65536) :
    ∃ b ∈ (freshBucket bucket (bucketBytes size)).blocks, fits (pebbleSize size) b = true := by
  have hneed : pebbleSize size = 4096 * ((size + 63) / 4096) := pebbleSize_eq (by omega)
  have hbytes : bucketBytes size = 4096 * ((max size 65660 + 4095) / 4096) :=
    bucketBytes_eq (by omega)
  rw [Nat.max_eq_right (by omega)] at hbytes
  refine ⟨_, List.mem_singleton_self _, ?_⟩
  simp only [fits, Bool.not_false, Bool.true_and, decide_eq_true_eq]
  omega

theorem CallStep.request_self (hstep : CallStep (kmallocUpTo 65536) t s s')
    (hpc : (s'.pc t).request = some size) : (s.pc t).request = some size ∨ size ≤ 65536 := by
  cases hstep with
  | kmalloc hidle hcall =>
      obtain ⟨n, hn, hcall⟩ := hcall
      cases hcall
      rw [goto_pc] at hpc
      cases hpc
      exact .inr (requestSize_small hn)
  | _ hbefore =>
      rw [goto_pc] at hpc
      rw [hbefore]
      first
        | exact .inl hpc
        | cases hpc

theorem CallStep.owns_self (hstep : CallStep calls t s s')
    (howns : (s'.pc t).Owns size bucket) : s.pc t = .inserting size bucket ∨
      s.pc t = .creating size ∧ s'.pc t = .inserting size bucket := by
  cases hstep with
  | create hpc hcreate =>
      rw [goto_pc] at howns ⊢
      obtain howns | howns := howns
      · cases howns
        exact .inr ⟨hpc, rfl⟩
      · cases howns
  | insert hpc hinsert =>
      rw [goto_pc] at howns
      obtain howns | howns := howns
      · cases howns
      · cases howns
        exact .inl hpc
  | _ =>
      rw [goto_pc] at howns
      obtain howns | howns := howns <;> cases howns

/-- A call fails in `create_bucket` or in the bucket it has created. -/
theorem CallStep.failed_cases (hstep : CallStep calls t s s') (hmem : bucket ∈ s'.failed) :
    bucket ∈ s.failed ∨ bucket = 0 ∨
      ∃ size m, s.pc t = .placing size bucket ∧
        placeSection s.heap.mem bucket (pebbleSize size) = some (0, m) := by
  cases hstep with
  | createFailed =>
      obtain hhead | htail := List.mem_cons.mp hmem
      · exact .inr (.inl hhead)
      · exact .inl htail
  | placeFailed hpc hsection =>
      obtain hhead | htail := List.mem_cons.mp hmem
      · subst hhead
        exact .inr (.inr ⟨_, _, hpc, hsection⟩)
      · exact .inl htail
  | _ => exact .inl hmem

theorem InsertInv.step (hs : InsertInv s Bs) (hbounds : StaysInBounds s t)
    (hspares : SparesNew s t) (hstep : CallStep (kmallocUpTo 65536) t s s') :
    ∃ Bs', InsertInv s' Bs' := by
  obtain ⟨Bs', hkeeps⟩ := hs.inv.step hbounds hstep
  -- a bucket with room that the step does not place in keeps its room
  have hkept : ∀ size bucket, (∃ B ∈ Bs, B.base = bucket ∧ B.Unused ∧
      ∃ b ∈ B.blocks, fits (pebbleSize size) b = true) → ¬ PlacesIn s t bucket →
      ∃ B ∈ Bs', B.base = bucket ∧ B.Unused ∧ ∃ b ∈ B.blocks, fits (pebbleSize size) b = true := by
    rintro size bucket ⟨B, hB, rfl, hunused, hroom⟩ hspared
    obtain ⟨B', hB', hbase, hblocks⟩ := hkeeps.unused B hB hunused hspared
    rw [← hblocks] at hroom
    refine ⟨B', hB', hbase, ?_, hroom⟩
    rw [BucketModel.Unused, hblocks]
    exact hunused
  refine ⟨Bs', hkeeps.inv, fun u size hpc => ?_, fun u size bucket howns => ?_,
    fun bucket hbucket => ?_⟩
  · by_cases hu : u = t
    · subst hu
      exact (hstep.request_self hpc).elim (hs.small u size) id
    · rw [hstep.pc_other hu] at hpc
      exact hs.small u size hpc
  · by_cases hu : u = t
    · subst hu
      obtain hpc | ⟨hpc, hnext⟩ := hstep.owns_self howns
      · exact hkept size bucket (hs.room u size bucket (.inl hpc)) (by simp [PlacesIn, hpc])
      · have hsize := hs.small u size (by rw [hpc]; rfl)
        refine ⟨_, hkeeps.fresh size bucket hnext, rfl, ?_, room_of_fresh hsize⟩
        simp [BucketModel.Unused, freshBucket]
    · rw [hstep.pc_other hu] at howns
      exact hkept size bucket (hs.room u size bucket howns) (hspares u size bucket hu howns)
  · obtain hbefore | hzero | ⟨size, m, hpc, hsection⟩ := hstep.failed_cases hbucket
    · exact hs.failed bucket hbefore
    · exact hzero
    · obtain ⟨B, hB, rfl, -, hroom⟩ := hs.room t size bucket (.inr hpc)
      exact absurd hsection (hs.inv.placeSection_ne_zero hB hroom)

/-- If no section of `kmalloc` places a request in a bucket that another thread has created and
not yet placed its own in, a call for at most 64 KiB fails only if `create_bucket` does. -/
theorem callRun_failsOnlyInCreate (hstart : Started h)
    (hrun : CallRun (kmallocUpTo 65536) (fun s t => StaysInBounds s t ∧ SparesNew s t) h s) :
    ∀ bucket ∈ s.failed, bucket = 0 := by
  obtain ⟨B, hinv⟩ := hstart.inv Thread
  have hfirst : InsertInv (.initial h : CallState Thread) [B] := by
    refine ⟨hinv, fun t size hpc => ?_, fun t size bucket howns => ?_, fun bucket hbucket => ?_⟩
    · cases hpc
    · obtain howns | howns := howns <;> cases howns
    · cases hbucket
  obtain ⟨Bs, hs⟩ := hrun.induct ⟨[B], hfirst⟩ fun s t s' Bs hs hcond hstep =>
    hs.step hcond.1 hcond.2 hstep
  exact hs.failed

end Calls

/-! ## Schedules -/

section Schedules

variable {Thread : Type*} {calls : Set HeapCall}
  {cond cond' : CallState Thread → Thread → Prop} {h : Heap} {s s' : CallState Thread} {t : Thread}
  {pre post : List BucketModel} {B : BucketModel} {start size n : Nat}

/-- The next step of `t` meets the conditions of both theorems. -/
def Careful (s : CallState Thread) (t : Thread) : Prop :=
  StaysInBounds s t ∧ SparesRemoved s t ∧ SparesNew s t

/-- The next step writes no payload, creates no bucket and places nothing. -/
def CallPc.Quiet : CallPc → Prop
  | scanning _ _ | creating _ | placing _ _ | zeroing _ _ | reading _ _ => False
  | _ => True

theorem Careful.of_not_placesIn (hbounds : StaysInBounds s t) (hnone : ∀ b, ¬ PlacesIn s t b) :
    Careful s t := ⟨hbounds, fun _ b _ => hnone b, fun _ _ b _ _ => hnone b⟩

theorem Careful.of_quiet {pc : CallPc} (hpc : s.pc t = pc) (hquiet : pc.Quiet) : Careful s t := by
  apply Careful.of_not_placesIn
  · rw [StaysInBounds, hpc]
    cases pc <;> trivial
  · intro b
    rw [PlacesIn, hpc]
    cases pc <;> first | exact id | exact hquiet.elim

theorem Careful.of_others (hbounds : StaysInBounds s t) (hself : ∀ b, s.pc t ≠ .removing b)
    (hothers : ∀ u, u ≠ t → (∀ b, s.pc u ≠ .removing b) ∧ ∀ size b, ¬ (s.pc u).Owns size b) :
    Careful s t := by
  refine ⟨hbounds, fun u b hpc => ?_,
    fun u size b hu howns => absurd howns ((hothers u hu).2 size b)⟩
  by_cases hu : u = t
  · exact absurd (hu ▸ hpc) (hself b)
  · exact absurd hpc ((hothers u hu).1 b)

variable [DecidableEq Thread]

theorem CallRun.snoc (hrun : CallRun calls cond h s) (hcond : cond s t)
    (hstep : CallStep calls t s s') : CallRun calls cond h s' :=
  Relation.ReflTransGen.tail hrun ⟨t, hcond, hstep⟩

theorem CallRun.mono (himp : ∀ s t, cond s t → cond' s t) (hrun : CallRun calls cond h s) :
    CallRun calls cond' h s := by
  refine Relation.ReflTransGen.mono ?_ _ _ hrun
  rintro s s' ⟨t, hcond, hstep⟩
  exact ⟨t, himp s t hcond, hstep⟩

theorem CallRun.call (hrun : CallRun calls Careful h s) (hpc : s.pc t = .idle)
    (hcall : .kmalloc n ∈ calls) (hn : n < 2 ^ 64) :
    CallRun calls Careful h (s.goto t (.scanning (requestSize n) s.heap.kHeapStart)) :=
  hrun.snoc (.of_quiet hpc trivial) (.kmalloc hpc hcall hn)

/-- A listed bucket, with the address of the one behind it. -/
theorem HeapRep.bucketAt {m : Mem} (pre : List BucketModel)
    (hrep : HeapRep m start (pre ++ B :: post)) :
    ∃ prev, BucketAt 0 m B prev (headAddr BucketModel.base post 0) :=
  ⟨_, (Chain.middle_iff.mp hrep.chain).2.1⟩

/-- Two steps of a thread whose request does not go into the bucket. -/
theorem CallRun.pass (hrun : CallRun calls Careful h s)
    (hrep : HeapRep s.heap.mem start (B :: post)) (hpc : s.pc t = .scanning size B.base)
    (hrefused : ¬ B.Admits (pebbleSize size)) :
    CallRun calls Careful h (s.goto t (.scanning size (headAddr BucketModel.base post 0))) := by
  have hwf := hrep.wf B (by simp)
  obtain ⟨prev, hat⟩ := hrep.bucketAt []
  have hsection := (scanSection_spec hat hwf (pebbleSize_aligned size)).1 hrefused
  have hscan : Careful s t := by
    refine .of_not_placesIn (by simp [StaysInBounds, hpc]) fun b hplaces => ?_
    simp only [PlacesIn, hpc] at hplaces
    obtain ⟨rfl, -, hlarge, hroom⟩ := hplaces
    rw [hat.body.largest] at hlarge
    exact hrefused ⟨hlarge, (hasRoom_iff hat.body hwf).mp hroom⟩
  have hpc' := goto_pc s t (.advancing size B.base)
  have hadvance : Careful (s.goto t (.advancing size B.base)) t := .of_quiet hpc' trivial
  have hpassed := (hrun.snoc hscan (.scanMiss hpc hwf.base_ne hsection)).snoc hadvance
    (.advance hpc')
  rw [goto_goto] at hpassed
  have hnext : s.heap.mem.get B.base MemoryBucket.next = headAddr BucketModel.base post 0 :=
    hat.next
  rw [← hnext]
  exact hpassed

/-- A call whose request does not go into the first bucket. -/
theorem CallRun.callPass {A : BucketModel} (hrun : CallRun calls Careful h s)
    (hrep : HeapRep s.heap.mem s.heap.kHeapStart (A :: post)) (hpc : s.pc t = .idle)
    (hcall : .kmalloc n ∈ calls) (hn : n < 2 ^ 64)
    (hrefused : ¬ A.Admits (pebbleSize (requestSize n))) :
    CallRun calls Careful h
      (s.goto t (.scanning (requestSize n) (headAddr BucketModel.base post 0))) := by
  have hstart : A.base = s.heap.kHeapStart := hrep.head
  have hcalled := hrun.call hpc hcall hn
  rw [← hstart] at hcalled
  have hpassed := hcalled.pass hrep (goto_pc _ _ _) hrefused
  rw [goto_goto] at hpassed
  exact hpassed

/-- The step of a thread whose request goes into the bucket. -/
theorem CallRun.hit (pre : List BucketModel) (hrun : CallRun calls cond h s) (hcond : cond s t)
    (hrep : HeapRep s.heap.mem start (pre ++ B :: post)) (hpc : s.pc t = .scanning size B.base)
    (hadmits : B.Admits (pebbleSize size)) :
    ∃ p m B', CallRun calls cond h
        ((s.withMem m).goto t (.zeroing size (add64 p MemoryPebble.sizeof))) ∧ p ≠ 0 ∧
      Placed (pebbleSize size) B.blocks p B'.blocks ∧ BucketStep s.heap.mem B m B' ∧
      B'.Exact ∧ HeapRep m start (pre ++ B' :: post) := by
  have hwf := hrep.wf B (by simp)
  obtain ⟨prev, hat⟩ := hrep.bucketAt pre
  obtain ⟨p, m, B', hsection, hp, hstep, hplaced, hexact⟩ :=
    (scanSection_spec hat hwf (pebbleSize_aligned size)).2 hadmits
  exact ⟨p, m, B', hrun.snoc hcond (.scanHit hpc hwf.base_ne hsection hp), hp, hplaced, hstep,
    hexact, hrep.step hstep⟩

/-- The step of a thread that places its request in the bucket it has created. -/
theorem CallRun.place (pre : List BucketModel) (hrun : CallRun calls cond h s) (hcond : cond s t)
    (hrep : HeapRep s.heap.mem start (pre ++ B :: post)) (hpc : s.pc t = .placing size B.base)
    (hroom : ∃ b ∈ B.blocks, fits (pebbleSize size) b = true) :
    ∃ p m B', CallRun calls cond h
        ((s.withMem m).goto t (.zeroing size (add64 p MemoryPebble.sizeof))) ∧ p ≠ 0 ∧
      Placed (pebbleSize size) B.blocks p B'.blocks ∧ BucketStep s.heap.mem B m B' ∧
      B'.Exact ∧ HeapRep m start (pre ++ B' :: post) := by
  have hwf := hrep.wf B (by simp)
  obtain ⟨prev, hat⟩ := hrep.bucketAt pre
  obtain ⟨p, m, B', hsection, hstep, hplaced, hexact⟩ :=
    placeSection_spec hat hwf (pebbleSize_aligned size)
  have hp := hplaced.ne_zero hwf.addr_ne_zero hroom
  exact ⟨p, m, B', hrun.snoc hcond (.place hpc hsection hp), hp, hplaced, hstep,
    hexact, hrep.step hstep⟩

/-- Three steps of a thread that has reached the end of the list of buckets. -/
theorem CallRun.newBucket {A : BucketModel} (hrun : CallRun calls Careful h s)
    (hrep : HeapRep s.heap.mem s.heap.kHeapStart (A :: post))
    (hbelow : ∀ B ∈ A :: post, B.stop ≤ s.heap.vmm.kHeapEnd.toNat)
    (hin : RegionInRange s.heap size) (hpc : s.pc t = .scanning size 0) :
    ∃ hp, CallRun calls Careful h
        ({ s with heap := hp }.goto t (.placing size s.heap.vmm.kHeapEnd.toNat)) ∧
      hp.kHeapStart = s.heap.kHeapStart ∧
      HeapRep hp.mem hp.kHeapStart
        (A :: freshBucket s.heap.vmm.kHeapEnd.toNat (bucketBytes size) :: post) := by
  have hbytes := bucketBytes_eq hin.1
  have hlt := bucketBytes_lt size
  have hregion := hin.2
  have hAlt := (hrep.wf A (by simp)).base_lt_stop
  have hAbelow := hbelow A (by simp)
  have hends : PageLoopEnds s.heap.vmm.kHeapEnd.toNat (bucketBytes size / 4096) := by
    intro hsum
    omega
  obtain ⟨vmm, hcreate, -⟩ := @createBucket_eq s.heap size 0 (by omega) hends
  have hwf := freshBucket_wf (by omega : s.heap.vmm.kHeapEnd.toNat ≠ 0)
    (by omega : 124 ≤ bucketBytes size) (by omega) (by omega)
  obtain ⟨m, hinsert, hrep'⟩ := hrep.create 0 hwf (by omega) hlt fun C hC => .inr (hbelow C hC)
  have hscan : Careful s t := by
    refine .of_not_placesIn (by simp [StaysInBounds, hpc]) fun b hplaces => ?_
    simp only [PlacesIn, hpc] at hplaces
    exact hplaces.2.1 hplaces.1.symm
  have hrun₁ := hrun.snoc hscan (.scanned hpc)
  have hpc₁ := goto_pc s t (.creating size)
  have hcreating : Careful (s.goto t (.creating size)) t :=
    .of_not_placesIn (by simpa [StaysInBounds, hpc₁] using hin) (by simp [PlacesIn, hpc₁])
  have hrun₂ := hrun₁.snoc hcreating (.create hpc₁ hcreate (by omega))
  generalize hcreated : ({ s.heap with
    mem := initBucket s.heap.mem s.heap.vmm.kHeapEnd.toNat (bucketBytes size) 0, vmm } : Heap) = hp
    at hrun₂
  have hpc₂ := goto_pc { s.goto t (.creating size) with heap := hp } t
    (.inserting size s.heap.vmm.kHeapEnd.toNat)
  have hinserting : Careful ({ s.goto t (.creating size) with heap := hp }.goto t
      (.inserting size s.heap.vmm.kHeapEnd.toNat)) t := .of_quiet hpc₂ trivial
  have hcall : insertBucket hp.mem s.heap.vmm.kHeapEnd.toNat hp.kHeapStart = some m := by
    rw [← hcreated]
    exact hinsert
  have hrun₃ := hrun₂.snoc hinserting (.insert hpc₂ hcall)
  refine ⟨{ hp with mem := m }, ?_, by rw [← hcreated], ?_⟩
  · rw [← goto_goto _ t (.creating size), ← goto_goto _ t (.inserting size _)]
    exact hrun₃
  · rw [← hcreated]
    exact hrep'

/-- The zero fill of a thread that has placed its request. -/
theorem CallRun.zero {b : Block} (pre : List BucketModel) (hrun : CallRun calls Careful h s)
    (hrep : HeapRep s.heap.mem start (pre ++ B :: post)) (hb : b ∈ B.blocks)
    (hlt : b.payload < 2 ^ 64) (hpc : s.pc t = .zeroing size b.payload) (hsize : size ≤ b.size) :
    ∃ m, CallRun calls Careful h
        ({ s.withMem m with live := b.payload :: s.live }.goto t .idle) ∧
      HeapRep m start (pre ++ B :: post) := by
  have hbody := hrep.body (B := B) (by simp)
  obtain ⟨prev, next, hpebble⟩ := hbody.pebble hb
  have hcareful : Careful s t := by
    refine .of_not_placesIn ?_ (by simp [PlacesIn, hpc])
    simp only [StaysInBounds, hpc]
    rw [b.sub64_payload hlt, hpebble.size]
    exact hsize
  have hchanges : ChangesPayload b s.heap.mem (memset s.heap.mem b.payload 0 size) := .memset hsize
  exact ⟨_, hrun.snoc hcareful (.zero hpc),
    hrep.step (hchanges.step hbody (hrep.wf B (by simp)) hb)⟩

/-- The section of `kfree` and the statement behind it. -/
theorem CallRun.release {before after : List Block} {b : Block} (pre : List BucketModel)
    (hrun : CallRun calls Careful h s)
    (hrep : HeapRep s.heap.mem start (pre ++ B :: post)) (hblocks : B.blocks = before ++ b :: after)
    (hlt : b.payload < 2 ^ 64) (hpc : s.pc t = .freeing b.payload) :
    ∃ m B', CallRun calls Careful h ((s.withMem m).goto t (.testing B.base)) ∧
      BucketStep s.heap.mem B m B' ∧ B'.blocks = FroggyOs.release before b after ∧
      (B.Exact → B'.Exact) ∧ HeapRep m start (pre ++ B' :: post) := by
  obtain ⟨prev, hat⟩ := hrep.bucketAt pre
  obtain ⟨bprev, bnext, hpebble⟩ := hat.body.pebble (b := b) (by simp [hblocks])
  obtain ⟨p, m, B', hsection, hstep, hnew, hexact, hparent⟩ :=
    freeSection_spec hat (hrep.wf B (by simp)) hblocks
  rw [← b.sub64_payload hlt] at hsection
  have hmagic := hpebble.magic
  have hlocked := hpebble.parent
  rw [← b.sub64_payload hlt] at hmagic hlocked
  have hfreed := hrun.snoc (.of_quiet hpc trivial) (.free hpc hmagic hsection)
  rw [hlocked] at hfreed
  have hpc' := goto_pc (s.withMem m) t (.reading p B.base)
  have hcareful : Careful ((s.withMem m).goto t (.reading p B.base)) t := by
    refine .of_not_placesIn ?_ (by simp [PlacesIn, hpc'])
    rw [StaysInBounds, hpc']
    exact hparent
  have hread := hfreed.snoc hcareful (.readParent hpc')
  rw [goto_goto] at hread
  refine ⟨m, B', ?_, hstep, hnew, hexact, hrep.step hstep⟩
  rw [← hparent]
  exact hread

end Schedules

/-! ## 64 KiB in each of two buckets -/

section Evaluation

variable {calls : Set HeapCall}

/-- The bucket of 17 pages, one free pebble. -/
structure Roomy (B : BucketModel) : Prop where
  blocks : B.blocks = [⟨B.base + 64, 69508, false⟩]
  exact : B.Exact

/-- The bucket of 17 pages with 64 KiB in use. -/
structure Full (B : BucketModel) : Prop where
  blocks : B.blocks = [⟨B.base + 64, 65536, true⟩, ⟨B.base + 64 + 65596, 3912, false⟩]
  exact : B.Exact

theorem pebbleSize_64k : pebbleSize 65536 = 65536 := by
  rw [pebbleSize_eq (by omega)]

theorem Roomy.admits {B : BucketModel} (h : Roomy B) : B.Admits (pebbleSize 65536) := by
  rw [BucketModel.Admits, h.exact, h.blocks, pebbleSize_64k]
  simp [maxSize, fits]

theorem Full.not_fits {B : BucketModel} (h : Full B) :
    ∀ b ∈ B.blocks, fits (pebbleSize 65536) b = false := by
  rw [h.blocks, pebbleSize_64k]
  intro b hb
  simp only [List.mem_cons, List.not_mem_nil, or_false] at hb
  obtain rfl | rfl := hb <;> rfl

theorem Full.not_admits {B : BucketModel} (h : Full B) : ¬ B.Admits (pebbleSize 65536) := by
  rintro ⟨-, b, hb, hfits⟩
  rw [h.not_fits b hb] at hfits
  cases hfits

/-- 64 KiB fill the bucket. -/
theorem Roomy.fill {B B' : BucketModel} {m m' : Mem} {p : Nat} (h : Roomy B)
    (hplaced : Placed (pebbleSize 65536) B.blocks p B'.blocks) (hstep : BucketStep m B m' B')
    (hexact : B'.Exact) : p = B.base + 64 ∧ Full B' := by
  rw [h.blocks, pebbleSize_64k] at hplaced
  obtain ⟨hp, hblocks⟩ := hplaced.eq_of_fresh
  rw [← hstep.base_eq] at hblocks
  exact ⟨hp, hblocks, hexact⟩

/-- The first bucket is full, the second one new, and thread 1 is about to place 64 KiB there. -/
structure Prepared (s : CallState (Fin 3)) (A N : BucketModel) : Prop where
  rep : HeapRep s.heap.mem s.heap.kHeapStart [A, N]
  full : Full A
  roomy : Roomy N
  first : ∃ ret, s.pc 0 = .zeroing 65536 ret
  second : s.pc 1 = .placing 65536 N.base
  third : s.pc 2 = .idle

/-- Thread 0 fills the first bucket. -/
theorem exists_filled (hcall : .kmalloc 65536 ∈ calls) :
    ∃ (s : CallState (Fin 3)) (A : BucketModel), CallRun calls Careful bootHeap s ∧
      s.heap.vmm = bootHeap.vmm ∧ HeapRep s.heap.mem s.heap.kHeapStart [A] ∧
      A.stop ≤ s.heap.vmm.kHeapEnd.toNat ∧ Full A ∧ (∃ ret, s.pc 0 = .zeroing 65536 ret) ∧
        s.pc 1 = .idle ∧ s.pc 2 = .idle := by
  have hroomy : Roomy (freshBucket 0x10000 69632) := ⟨rfl, freshBucket_exact _ _⟩
  have hrun₀ : CallRun calls Careful bootHeap (.initial bootHeap : CallState (Fin 3)) := .refl
  have hrun₁ := hrun₀.call (t := 0) rfl hcall (by decide)
  have hpc₁ := goto_pc (.initial bootHeap : CallState (Fin 3)) 0 (.scanning 65536 0x10000)
  have hothers : ∀ u : Fin 3, u ≠ 0 → ((CallState.initial bootHeap : CallState (Fin 3)).goto 0
      (.scanning 65536 0x10000)).pc u = .idle := fun u hu => goto_pc_of_ne _ _ _ hu
  have hcareful : Careful ((CallState.initial bootHeap : CallState (Fin 3)).goto 0
      (.scanning 65536 0x10000)) 0 := by
    refine .of_others (by rw [StaysInBounds, hpc₁]; trivial) (by simp [hpc₁]) fun u hu => ?_
    rw [hothers u hu]
    exact ⟨by simp, by simp [CallPc.Owns]⟩
  obtain ⟨p, m, A, hrun₂, -, hplaced, hstep, hexact, hrep⟩ :=
    hrun₁.hit [] hcareful bootHeap_rep hpc₁ hroomy.admits
  have hstop : A.stop ≤ bootHeap.vmm.kHeapEnd.toNat := by
    rw [hstep.stop_eq]
    exact bootHeap_headersFit.2 _ (List.mem_singleton_self _)
  exact ⟨_, A, hrun₂, rfl, hrep, hstop, (hroomy.fill hplaced hstep hexact).2,
    ⟨_, goto_pc _ _ _⟩, rfl, rfl⟩

/-- Thread 1 creates the second bucket. -/
theorem exists_prepared (calls : Set HeapCall) (hcall : .kmalloc 65536 ∈ calls) :
    ∃ s A N, CallRun calls Careful bootHeap s ∧ Prepared s A N := by
  obtain ⟨s, A, hrun, hvmm, hrep, hbelow, hfull, ⟨ret, hfirst⟩, hsecond, hthird⟩ :=
    exists_filled hcall
  have hend : s.heap.vmm.kHeapEnd.toNat = 0x21000 := by
    rw [hvmm]
    exact bootHeap_kHeapEnd
  have hbytes : bucketBytes 65536 = 69632 := @bucketBytes_eq 65536 (by decide)
  have hpassed := hrun.callPass hrep hsecond hcall (by decide) hfull.not_admits
  have hin : RegionInRange s.heap 65536 := by
    rw [RegionInRange, hbytes, hend]
    decide
  obtain ⟨hp, hrun', -, hrep'⟩ := hpassed.newBucket hrep (by simpa using hbelow) hin (goto_pc _ _ _)
  rw [CallState.goto_heap, hend] at hrun' hrep'
  have hN : Roomy (freshBucket 0x21000 (bucketBytes 65536)) := by
    rw [hbytes]
    exact ⟨rfl, freshBucket_exact _ _⟩
  exact ⟨_, A, _, hrun', hrep', hfull, hN, ⟨ret, hfirst⟩, goto_pc _ _ _, hthird⟩

/-- Nobody else is placing, so thread 1 may. -/
theorem Prepared.careful {s : CallState (Fin 3)} {A N : BucketModel} (hs : Prepared s A N) :
    Careful s 1 := by
  obtain ⟨ret, hfirst⟩ := hs.first
  refine .of_others (by rw [StaysInBounds, hs.second]; trivial) (by simp [hs.second]) ?_
  intro u hu
  have hthreads : ∀ u : Fin 3, u ≠ 1 → u = 0 ∨ u = 2 := by decide
  obtain rfl | rfl := hthreads u hu
  · simp [hfirst, CallPc.Owns]
  · simp [hs.third, CallPc.Owns]

/-- Thread 2 fills the second bucket. -/
theorem CallRun.fillSecond {h : Heap} {s : CallState (Fin 3)} {t : Fin 3} {A N : BucketModel}
    (hrun : CallRun calls Careful h s) (hrep : HeapRep s.heap.mem s.heap.kHeapStart [A, N])
    (hfull : Full A) (hroomy : Roomy N) (hpc : s.pc t = .idle) (hcall : .kmalloc 65536 ∈ calls) :
    ∃ m N' ret, CallRun calls StaysInBounds h ((s.withMem m).goto t (.zeroing 65536 ret)) ∧
      HeapRep m s.heap.kHeapStart [A, N'] ∧ N'.base = N.base ∧ Full N' := by
  have hpassed := (hrun.callPass hrep hpc hcall (by decide) hfull.not_admits).mono
    fun _ _ hcareful => hcareful.1
  have hpc' := goto_pc s t (.scanning 65536 N.base)
  have hbounds : StaysInBounds (s.goto t (.scanning 65536 N.base)) t := by
    rw [StaysInBounds, hpc']
    trivial
  obtain ⟨p, m, N', hrun', -, hplaced, hstep, hexact, hrep'⟩ :=
    hpassed.hit [A] hbounds hrep hpc' hroomy.admits
  refine ⟨m, N', add64 p MemoryPebble.sizeof, ?_, hrep', hstep.base_eq,
    (hroomy.fill hplaced hstep hexact).2⟩
  rw [← goto_goto _ t (.scanning 65536 N.base)]
  exact hrun'

/-- Thread 1 places its request in the bucket that it has created. No call fails here, since
`create_bucket` fails only where its region leaves the range. -/
theorem bootHeap_failsOnlyInCreate : ∃ s : CallState (Fin 3),
    (∃ ret, s.pc 0 = .zeroing 65536 ret) ∧ (∃ ret, s.pc 1 = .zeroing 65536 ret) ∧
      ∀ bucket ∈ s.failed, bucket = 0 := by
  obtain ⟨s, A, N, hrun, hs⟩ := exists_prepared (kmallocUpTo 65536) ⟨65536, le_rfl, rfl⟩
  obtain ⟨p, m, F, hplaced, -⟩ :=
    hrun.place [A] hs.careful hs.rep hs.second hs.roomy.admits.2
  have hfailed := callRun_failsOnlyInCreate bootHeap_started
    (hplaced.mono fun _ _ hcareful => ⟨hcareful.1, hcareful.2.2⟩)
  exact ⟨(s.withMem m).goto 1 _, hs.first, ⟨_, goto_pc _ _ _⟩, hfailed⟩

/-- Thread 2 fills the bucket that thread 1 has created, and the call of thread 1 fails there. -/
theorem not_failsOnlyInCreate_bootHeap : ∃ s : CallState (Fin 3),
    CallRun (kmallocUpTo 65536) StaysInBounds bootHeap s ∧ ¬ ∀ bucket ∈ s.failed, bucket = 0 := by
  obtain ⟨s, A, N, hrun, hs⟩ := exists_prepared (kmallocUpTo 65536) ⟨65536, le_rfl, rfl⟩
  obtain ⟨m, N', ret, hrun', hrep, hbase, hfull⟩ :=
    hrun.fillSecond hs.rep hs.full hs.roomy hs.third ⟨65536, le_rfl, rfl⟩
  have hpc : ((s.withMem m).goto 2 (.zeroing 65536 ret)).pc 1 = .placing 65536 N'.base := by
    rw [hbase]
    exact hs.second
  have hwf := hrep.wf N' (by simp)
  obtain ⟨prev, hat⟩ := hrep.bucketAt [A]
  obtain ⟨p, m', B', hsection, -, hplaced, -⟩ :=
    placeSection_spec hat hwf (pebbleSize_aligned 65536)
  have hp : p = 0 := by
    by_contra hp
    obtain ⟨b, hb, -, hfits⟩ := hplaced.exists_fits hp
    rw [hfull.not_fits b hb] at hfits
    cases hfits
  subst hp
  refine ⟨_, hrun'.snoc (by rw [StaysInBounds, hpc]; trivial) (.placeFailed hpc hsection), ?_⟩
  intro hzero
  exact hwf.base_ne (hzero N'.base List.mem_cons_self)

/-- Thread 1 has freed the only pebble of the second bucket and is about to remove it. -/
theorem exists_removing (calls : Set HeapCall) (hcall : .kmalloc 65536 ∈ calls)
    (hfree : ∀ ptr, .kfree ptr ∈ calls) :
    ∃ (s : CallState (Fin 3)) (A N : BucketModel), CallRun calls Careful bootHeap s ∧
      HeapRep s.heap.mem s.heap.kHeapStart [A, N] ∧ Full A ∧ Roomy N ∧
      s.pc 1 = .removing N.base ∧ s.pc 2 = .idle := by
  obtain ⟨s, A, N, hrun, hs⟩ := exists_prepared calls hcall
  obtain ⟨p, m, F, hplaced, -, hblocks, hstep, hexact, hrep⟩ :=
    hrun.place [A] hs.careful hs.rep hs.second hs.roomy.admits.2
  obtain ⟨rfl, hfull⟩ := hs.roomy.fill hblocks hstep hexact
  have hwf := hrep.wf F (by simp)
  have hword := hwf.fits
  have hblock : (⟨F.base + 64, 65536, true⟩ : Block) ∈ F.blocks := by simp [hfull.blocks]
  have hend : F.base + 64 + 60 + 65536 ≤ F.stop := (hwf.block_bounds hblock).2
  have hlt : (⟨F.base + 64, 65536, true⟩ : Block).payload < 2 ^ 64 := by
    simp only [Block.payload]
    omega
  have hret := Block.add64_addr hlt
  rw [← hstep.base_eq, hret] at hplaced
  -- the zero fill, and the call of `kfree`
  obtain ⟨m₁, hzeroed, hrep₁⟩ := hplaced.zero [A] hrep hblock hlt (goto_pc _ _ _) le_rfl
  have hcalled := hzeroed.snoc (.of_quiet (goto_pc _ _ _) trivial)
    (.kfree (goto_pc _ _ _) (hfree _) List.mem_cons_self)
  obtain ⟨m₂, E, hreleased, hstep₂, hblocks₂, hexact₂, hrep₂⟩ :=
    hcalled.release [A] hrep₁ (hfull.blocks.trans (List.nil_append _).symm) hlt (goto_pc _ _ _)
  have hblocks₂ : E.blocks = [⟨E.base + 64, 69508, false⟩] := by
    rw [hblocks₂, hstep₂.base_eq]
    rfl
  have hidle : E.idle = true := by
    rw [BucketModel.idle, hblocks₂]
    rfl
  -- the emptiness test
  have htest : BucketEmpty m₂ E.base := (idle_iff hstep₂.body hstep₂.wf).mpr hidle
  rw [hstep₂.base_eq] at htest
  have hpassed := hreleased.snoc (.of_quiet (goto_pc _ _ _) trivial)
    (.testPassed (goto_pc _ _ _) htest)
  refine ⟨_, A, E, hpassed, hrep₂, hs.full, ⟨hblocks₂, hexact₂ hfull.exact⟩, ?_, hs.third⟩
  rw [goto_pc, hstep₂.base_eq]

/-- Thread 1 is about to remove a bucket, and the bucket is unused. -/
theorem bootHeap_removesUnused : ∃ s : CallState (Fin 3),
    (∃ bucket, s.pc 1 = .removing bucket) ∧ RemovesUnused s := by
  obtain ⟨s, A, N, hrun, -, -, -, hpc, -⟩ := exists_removing Set.univ trivial fun _ => trivial
  exact ⟨s, ⟨N.base, hpc⟩, callRun_removesUnused bootHeap_started
    (hrun.mono fun _ _ hcareful => ⟨hcareful.1, hcareful.2.1⟩)⟩

/-- Thread 2 fills the bucket that thread 1 is about to remove. -/
theorem not_removesUnused_bootHeap : ∃ s : CallState (Fin 3),
    CallRun Set.univ StaysInBounds bootHeap s ∧ ¬ RemovesUnused s := by
  obtain ⟨s, A, N, hrun, hrep, hA, hN, hpc, hidle⟩ :=
    exists_removing Set.univ trivial fun _ => trivial
  obtain ⟨m, N', ret, hrun', hrep', hbase, hfull⟩ := hrun.fillSecond hrep hA hN hidle trivial
  refine ⟨_, hrun', fun hunused => hunused 1 N.base hpc ?_⟩
  have hbody := hrep'.body (B := N') (by simp)
  have hblock : (⟨N'.base + 64, 65536, true⟩ : Block) ∈ N'.blocks := by simp [hfull.blocks]
  obtain ⟨prev, next, hpebble⟩ := hbody.pebble hblock
  rw [← hbase]
  exact ⟨N'.base + 64, (listedPebble_iff hbody (hrep'.wf N' (by simp))).mpr ⟨_, hblock, rfl⟩,
    hpebble.isPebbleFree_iff⟩

end Evaluation

end FroggyOs
