import FroggyOs.Klibc.ObjectStore
import FroggyOs.Klibc.Races
import FroggyOs.Klibc.ThreadPayloads

/-!
# Concurrent callers see one object store

Between the steps of `kmalloc` and `kfree` in other threads, a caller reads and writes the
payloads it has. The store of all callers together takes a step where a payload changes hands:
at the zero fill of `kmalloc`, and where `kfree` is called. Every other step of a thread is
silent, whatever it does to the heap.

The condition is the one under which `remove_bucket` meets no pebble in use. A thread that
still holds the address of a bucket that is gone runs into a page fault, so no request is
placed there either.
-/

namespace FroggyOs

open ByteMemory Word64 Function Interleaving Simulation Objects

attribute [local irreducible] bucketUpdateLargest placePebble scanSection placeSection freeSection
  pebbleSize bucketBytes createBucket removeBucket insertBucket memset

/-! ## The threads with the accesses of their callers -/

/-- What is seen of a step of a thread between two places. -/
def CallPc.event : CallPc → CallPc → Option (Event Nat UInt8)
  | zeroing size ret, _ => some (.alloc size ret)
  | idle, freeing ptr => some (.free ptr)
  | creating size, idle | placing size _, idle => some (.alloc size 0)
  | _, _ => none

/-- The bytes requested, when a thread has made its step from here. -/
def CallPc.lengths (length : Nat → Nat) : CallPc → Nat → Nat
  | zeroing size ret => update length ret size
  | _ => length

/-- The region that the next step of `t` gives back, with its length in pages. -/
def CallState.released {Thread : Type*} (s : CallState Thread) (t : Thread) : List (Nat × Nat) :=
  match s.pc t with
  | .removing bucket =>
      if bucket ≠ 0 ∧ bucket ≠ s.heap.kHeapStart then
        [(bucket, s.heap.mem.get bucket MemoryBucket.size)]
      else []
  | _ => []

structure SharedState (Thread : Type*) where
  calls : CallState Thread
  /-- the bytes that were requested for a payload -/
  length : Nat → Nat
  /-- the regions given back, with their lengths in pages -/
  gone : List (Nat × Nat)

variable {Thread : Type*}

/-- The payloads of the callers, with the bytes requested. -/
def SharedState.live (s : SharedState Thread) : List (Nat × Nat) :=
  s.calls.live.map fun ptr => (ptr, s.length ptr)

/-- The next step of `t` stays in the memory it is meant for, and places nothing in a bucket
that is gone or that a thread is about to remove. -/
def SharedState.Spares (s : SharedState Thread) (t : Thread) : Prop :=
  StaysInBounds s.calls t ∧ SparesRemoved s.calls t ∧
    ∀ region ∈ s.gone, ¬ PlacesIn s.calls t region.1

/-- What `t` leaves behind when its step leads to `c`. -/
def SharedState.next (s : SharedState Thread) (t : Thread) (c : CallState Thread) :
    SharedState Thread where
  calls := c
  length := (s.calls.pc t).lengths s.length
  gone := s.calls.released t ++ s.gone

variable [DecidableEq Thread]

/-- A step of a thread, or an access of a caller to a byte that was requested. -/
inductive SharedStep (calls : Set HeapCall) :
    SharedState Thread → Option (Event Nat UInt8) → SharedState Thread → Prop
  | thread {s : SharedState Thread} {c : CallState Thread} (t : Thread) (hspares : s.Spares t)
      (hstep : CallStep calls t s.calls c) :
      SharedStep calls s ((s.calls.pc t).event (c.pc t)) (s.next t c)
  | write {s : SharedState Thread} {ptr n i : Nat} (v : UInt8) (hlive : (ptr, n) ∈ s.live)
      (hi : i < n) :
      SharedStep calls s (some (.write ptr i v))
        { s with calls := s.calls.withMem (s.calls.heap.mem.fill (ptr + i) 1 v) }
  | read {s : SharedState Thread} {ptr n i : Nat} (hlive : (ptr, n) ∈ s.live) (hi : i < n) :
      SharedStep calls s (some (.read ptr i (s.calls.heap.mem.byte (ptr + i)))) s

/-- All threads on the heap that `kmalloc_init` has built. -/
def sharedAllocator (calls : Set HeapCall) (start : Heap) :
    System (SharedState Thread) (Event Nat UInt8) where
  start s := s = ⟨.initial start, fun _ => 0, []⟩
  step := SharedStep calls

/-! ## The invariant -/

section Invariant

variable {s : SharedState Thread} {c : CallState Thread} {t : Thread} {calls : Set HeapCall}
  {Bs Bs' : List BucketModel} {store : Store Nat UInt8} {ptr n i size ret bucket : Nat} {v : UInt8}
  {label : Option (Event Nat UInt8)} {s' : SharedState Thread}

/-- Every payload is as long as requested, and a bucket that is gone, or about to be, holds no
block in use. -/
structure SharedInv (s : SharedState Thread) (Bs : List BucketModel) : Prop where
  inv : CallInv s.calls Bs
  long : ∀ ptr ∈ s.calls.live, ∃ b, Used Bs b ∧ b.payload = ptr ∧ s.length ptr ≤ b.size
  removing : ∀ t bucket, s.calls.pc t = .removing bucket → ∃ B ∈ Bs, B.base = bucket ∧ B.Unused
  gone : ∀ region ∈ s.gone, ∃ B ∈ Bs, B.base = region.1 ∧
    B.stop = region.1 + 4096 * region.2 ∧ B.Unused

/-- The blocks say where the bucket ends. -/
theorem Tiles.stop_eq {start stop stop' : Nat} {xs : List Block} (h : Tiles start xs stop)
    (h' : Tiles start xs stop') : stop = stop' := by
  induction xs generalizing start with
  | nil => exact h.symm.trans h'
  | cons b rest ih => exact ih h.2 h'.2

omit [DecidableEq Thread] in
theorem StepKeeps.still_unused {s c : CallState Thread} (hkeeps : StepKeeps s c t Bs Bs')
    (hinv : CallInv s Bs) {stop : Nat} (hspared : ¬ PlacesIn s t bucket)
    (h : ∃ B ∈ Bs, B.base = bucket ∧ B.stop = stop ∧ B.Unused) :
    ∃ B ∈ Bs', B.base = bucket ∧ B.stop = stop ∧ B.Unused := by
  obtain ⟨B, hB, rfl, rfl, hunused⟩ := h
  obtain ⟨B', hB', hbase, hblocks⟩ := hkeeps.unused B hB hunused hspared
  have htiles := (hinv.sound.arena.separate.wf B hB).tiles
  have htiles' := (hkeeps.inv.sound.arena.separate.wf B' hB').tiles
  rw [hbase, hblocks] at htiles'
  refine ⟨B', hB', hbase, htiles'.stop_eq htiles, ?_⟩
  rw [BucketModel.Unused, hblocks]
  exact hunused

omit [DecidableEq Thread] in
/-- A payload of a caller is not in the hands of a thread. -/
theorem CallInv.not_held {s : CallState Thread} (hinv : CallInv s Bs) (hlive : ptr ∈ s.live) :
    s.pc t ≠ .freeing ptr ∧ ∀ size, s.pc t ≠ .zeroing size ptr :=
  ⟨fun hpc => hinv.tokens.not_pooled t ptr (held_eq hpc) hlive,
    fun _ hpc => hinv.tokens.not_pooled t ptr (held_eq hpc) hlive⟩

/-- Where a payload changes hands. -/
theorem CallStep.event_cases {s c : CallState Thread} (hstep : CallStep calls t s c) :
    (∃ size ret, s.pc t = .zeroing size ret ∧ c.live = ret :: s.live ∧
      c.heap.mem = memset s.heap.mem ret 0 size ∧
      (s.pc t).event (c.pc t) = some (.alloc size ret)) ∨
    (∃ ptr, s.pc t = .idle ∧ ptr ∈ s.live ∧ c.live = s.live.erase ptr ∧
      (s.pc t).event (c.pc t) = some (.free ptr)) ∨
    ((∀ size ret, s.pc t ≠ .zeroing size ret) ∧ c.live = s.live ∧
      ((s.pc t).event (c.pc t) = none ∨
        ∃ size, (s.pc t).event (c.pc t) = some (.alloc size 0))) := by
  cases hstep with
  | zero hpc =>
      rw [goto_pc, hpc]
      exact .inl ⟨_, _, rfl, rfl, rfl, rfl⟩
  | kfree hpc hcall hlive =>
      rw [goto_pc, hpc]
      exact .inr (.inl ⟨_, rfl, hlive, rfl, rfl⟩)
  | createFailed hpc | placeFailed hpc =>
      rw [goto_pc, hpc]
      exact .inr (.inr ⟨by simp, rfl, .inr ⟨_, rfl⟩⟩)
  | _ hpc =>
      rw [goto_pc, hpc]
      exact .inr (.inr ⟨by simp, rfl, .inl rfl⟩)

omit [DecidableEq Thread] in
/-- The pages that a step gives back are those of a bucket that is about to be removed. -/
theorem CallState.mem_released {s : CallState Thread} {region : Nat × Nat}
    (h : region ∈ s.released t) :
    s.pc t = .removing region.1 ∧ region.2 = s.heap.mem.get region.1 MemoryBucket.size := by
  rw [released] at h
  split at h
  case h_1 bucket hpc =>
      split at h
      case isTrue =>
          rw [List.mem_singleton.mp h]
          exact ⟨hpc, rfl⟩
      case isFalse => cases h
  case h_2 => cases h

theorem CallPc.lengths_of_ne {pc : CallPc} {length : Nat → Nat}
    (hother : ∀ size, pc ≠ .zeroing size ptr) : pc.lengths length ptr = length ptr := by
  cases pc with
  | zeroing size ret =>
      refine update_of_ne ?_ _ _
      rintro rfl
      exact hother size rfl
  | _ => rfl

/-- A step of a thread keeps the invariant. -/
theorem SharedInv.thread (hs : SharedInv s Bs) (hspares : s.Spares t)
    (hstep : CallStep calls t s.calls c) :
    ∃ Bs', StepOwns s.calls c t Bs Bs' ∧ SharedInv (s.next t c) Bs' := by
  obtain ⟨hbounds, hremoved, hgone⟩ := hspares
  obtain ⟨Bs', howns⟩ := hs.inv.owns hbounds hstep
  refine ⟨Bs', howns, howns.inv, ?_, fun u bucket hpc => ?_, fun region hregion => ?_⟩
  · have hkept : ∀ ptr ∈ s.calls.live, ∃ b, Used Bs' b ∧ b.payload = ptr ∧
        (s.next t c).length ptr ≤ b.size := by
      intro ptr hptr
      obtain ⟨b, hb, rfl, hsize⟩ := hs.long ptr hptr
      obtain ⟨hfreeing, hzeroing⟩ := hs.inv.not_held (t := t) hptr
      exact ⟨b, howns.used b hb hfreeing, rfl, (CallPc.lengths_of_ne hzeroing).trans_le hsize⟩
    obtain ⟨size, ret, hpc, hlive, -⟩ | ⟨ptr, -, -, hlive, -⟩ | ⟨-, hlive, -⟩ :=
      hstep.event_cases
    · intro ptr hptr
      obtain rfl | hold := List.mem_cons.mp (hlive ▸ hptr)
      · obtain ⟨b, hb, hpayload, haddr, parent, prev, next, hpebble⟩ :=
          hs.inv.block (held_eq hpc)
        simp only [StaysInBounds, hpc] at hbounds
        rw [haddr, hpebble.size] at hbounds
        have hlength : (s.next t c).length ptr = size := by
          rw [SharedState.next, hpc]
          exact update_self ..
        refine ⟨b, howns.used b hb fun hfreeing => ?_, hpayload, hlength.trans_le hbounds⟩
        rw [hpc] at hfreeing
        cases hfreeing
      · exact hkept ptr hold
    · exact fun q hq => hkept q (List.mem_of_mem_erase (hlive ▸ hq))
    · exact fun q hq => hkept q (hlive ▸ hq)
  · by_cases hu : u = t
    · subst hu
      obtain ⟨htesting, htest⟩ := hstep.removing_self hpc
      obtain ⟨B, hB, hbase, hunused⟩ := hs.inv.unused_of_empty htesting htest
      obtain ⟨B', hB', hbase', -, hunused'⟩ := howns.still_unused hs.inv
        (by simp [PlacesIn, htesting]) ⟨B, hB, hbase, (rfl : B.stop = B.stop), hunused⟩
      exact ⟨B', hB', hbase', hunused'⟩
    · have hpc' : s.calls.pc u = .removing bucket := (hstep.pc_other hu).symm.trans hpc
      obtain ⟨B, hB, hbase, hunused⟩ := hs.removing u bucket hpc'
      obtain ⟨B', hB', hbase', -, hunused'⟩ := howns.still_unused hs.inv
        (hremoved u bucket hpc') ⟨B, hB, hbase, (rfl : B.stop = B.stop), hunused⟩
      exact ⟨B', hB', hbase', hunused'⟩
  · obtain hnew | hold := List.mem_append.mp hregion
    · obtain ⟨hpc, hpages⟩ := CallState.mem_released hnew
      obtain ⟨B, hB, hbase, hunused⟩ := hs.removing t _ hpc
      have hstop : B.stop = region.1 + 4096 * region.2 := by
        rw [hpages, ← hbase, (hs.inv.sound.arena.body hB).size, BucketModel.stop]
      exact howns.still_unused hs.inv (hremoved t _ hpc) ⟨B, hB, hbase, hstop, hunused⟩
    · exact howns.still_unused hs.inv (hgone region hold) (hs.gone region hold)

omit [DecidableEq Thread] in
/-- A caller writes into a payload it has. -/
theorem CallInv.writePayload {s : CallState Thread} {m : Mem} {b : Block} (hinv : CallInv s Bs)
    (hb : Used Bs b) (hchanges : ChangesPayload b s.heap.mem m) : CallInv (s.withMem m) Bs := by
  obtain ⟨-, B, hB, hbB⟩ := hb
  have hstep := hchanges.step (hinv.sound.arena.body hB) (hinv.sound.arena.separate.wf B hB) hbB
  obtain ⟨pre, post, rfl⟩ := List.append_of_mem hB
  exact ⟨hinv.sound.step hstep, hinv.tokens, hinv.used⟩

omit [DecidableEq Thread] in
theorem SharedState.mem_live {e : Nat × Nat} (h : e ∈ s.live) :
    e.1 ∈ s.calls.live ∧ e.2 = s.length e.1 := by
  obtain ⟨ptr, hptr, rfl⟩ := List.mem_map.mp h
  exact ⟨hptr, rfl⟩

omit [DecidableEq Thread] in
theorem SharedState.live_fst (s : SharedState Thread) : s.live.map Prod.fst = s.calls.live := by
  rw [live, List.map_map]
  exact List.map_id _

/-! ## The store of all callers -/

/-- The heap is sound, and the store has what the callers have. -/
structure SharedRep (s : SharedState Thread) (store : Store Nat UInt8) : Prop where
  inv : ∃ Bs, SharedInv s Bs
  contents : Contents s.calls.heap.mem s.live store

omit [DecidableEq Thread] in
/-- The payloads that a step of a thread finds with the callers keep their bytes. -/
theorem Contents.thread (hcontents : Contents s.calls.heap.mem s.live store)
    (hs : SharedInv s Bs) (howns : StepOwns s.calls c t Bs Bs') :
    Contents c.heap.mem s.live store := by
  refine hcontents.frame fun e he i hi => ?_
  obtain ⟨hptr, hlength⟩ := SharedState.mem_live he
  obtain ⟨b, hb, hpayload, hsize⟩ := hs.long e.1 hptr
  have hstop : b.stop = b.payload + b.size := rfl
  have hzeroing := (hs.inv.not_held (t := t) hptr).2
  rw [← hpayload] at hzeroing
  exact howns.bytes b hb hzeroing _ (by omega) (by omega)

omit [DecidableEq Thread] in
theorem SharedState.live_next (hlive : c.live = s.calls.live)
    (hother : ∀ size ret, s.calls.pc t ≠ .zeroing size ret) : (s.next t c).live = s.live := by
  rw [live, live]
  refine (congrArg _ hlive).trans (List.map_congr_left fun ptr _ => ?_)
  have hlength : (s.next t c).length ptr = s.length ptr :=
    CallPc.lengths_of_ne fun size => hother size ptr
  rw [hlength]

omit [DecidableEq Thread] in
theorem SharedState.live_zeroed (hs : SharedInv s Bs) (hpc : s.calls.pc t = .zeroing size ret)
    (hlive : c.live = ret :: s.calls.live) : (s.next t c).live = (ret, size) :: s.live := by
  have hnew : (s.next t c).length ret = size := by
    rw [SharedState.next, hpc]
    exact update_self ..
  rw [live]
  refine (congrArg _ hlive).trans ?_
  rw [List.map_cons, hnew]
  refine congrArg _ (List.map_congr_left fun ptr hptr => ?_)
  have hlength : (s.next t c).length ptr = s.length ptr :=
    CallPc.lengths_of_ne (hs.inv.not_held hptr).2
  rw [hlength]

omit [DecidableEq Thread] in
theorem SharedState.live_freed (hs : SharedInv s Bs) (hpc : s.calls.pc t = .idle)
    (hlive : c.live = s.calls.live.erase ptr) : (s.next t c).live = dropOwner s.live ptr := by
  have herase : s.calls.live.filter ((fun e => e.1 != ptr) ∘ fun q => (q, s.length q)) =
      s.calls.live.erase ptr := (hs.inv.tokens.nodup.erase_eq_filter ptr).symm
  rw [dropOwner, live, live, List.filter_map, herase]
  refine (congrArg _ hlive).trans (List.map_congr_left fun q _ => ?_)
  have hlength : (s.next t c).length q = s.length q :=
    CallPc.lengths_of_ne fun size hsize => by
      rw [hpc] at hsize
      cases hsize
  rw [hlength]

/-- A step of a thread is a step of the store, or none. -/
theorem SharedRep.thread (hrep : SharedRep s store) (hspares : s.Spares t)
    (hstep : CallStep calls t s.calls c) :
    ∃ store', Answers (objects 0 0) store ((s.calls.pc t).event (c.pc t)) store' ∧
      SharedRep (s.next t c) store' := by
  obtain ⟨⟨Bs, hs⟩, hcontents⟩ := hrep
  obtain ⟨Bs', howns, hs'⟩ := hs.thread hspares hstep
  have hkept := hcontents.thread hs howns
  obtain ⟨size, ret, hpc, hlive, hmem, hevent⟩ | ⟨ptr, hpc, hptr, hlive, hevent⟩ |
    ⟨hother, hlive, hevent⟩ := hstep.event_cases
  · have hfresh : ret ∉ s.live.map Prod.fst := by
      rw [s.live_fst]
      exact hs.inv.tokens.not_pooled t ret (held_eq hpc)
    obtain ⟨b, -, hpayload, -⟩ := hs.inv.block (held_eq hpc)
    have hne : ret ≠ 0 := hpayload ▸ b.payload_ne_zero
    have hadd := hkept.add (n := size) hfresh
    rw [objectBytes_zero fun i hi => by
      rw [hmem, memset, Mem.fill_byte_inside (by omega) (by omega)]
      rfl] at hadd
    rw [hevent]
    refine ⟨_, .step ⟨_, rfl, .alloc hne (hcontents.dead ret hfresh)⟩, ⟨Bs', hs'⟩, ?_⟩
    rw [SharedState.live_zeroed hs hpc hlive]
    exact hadd
  · rw [hevent]
    have hold := hcontents.bytes (ptr, s.length ptr) (List.mem_map_of_mem hptr)
    refine ⟨_, .step ⟨_, rfl, .free hold⟩, ⟨Bs', hs'⟩, ?_⟩
    rw [SharedState.live_freed hs hpc hlive]
    exact hkept.drop
  · have hcontents' : Contents c.heap.mem (s.next t c).live store := by
      rw [SharedState.live_next hlive hother]
      exact hkept
    refine ⟨store, ?_, ⟨Bs', hs'⟩, hcontents'⟩
    obtain hsilent | ⟨size, hfailed⟩ := hevent
    · rw [hsilent]
      exact .stay store
    · rw [hfailed]
      exact .step ⟨_, rfl, .fail⟩

omit [DecidableEq Thread] in
/-- A write of a caller stays in its payload. -/
theorem SharedRep.write (hrep : SharedRep s store) (hlive : (ptr, n) ∈ s.live) (hi : i < n) :
    ∃ store', Step 0 0 store (.write ptr i v) store' ∧
      SharedRep { s with calls := s.calls.withMem (s.calls.heap.mem.fill (ptr + i) 1 v) }
        store' := by
  obtain ⟨⟨Bs, hs⟩, hcontents⟩ := hrep
  obtain ⟨hptr, hlength⟩ := SharedState.mem_live hlive
  obtain ⟨b, hb, hpayload, hsize⟩ := hs.long ptr hptr
  simp only at hlength
  rw [← hlength] at hsize
  have hapart : ∀ e ∈ s.live, e.1 ≠ ptr → ∀ j < e.2, e.1 + j ≠ ptr + i := by
    intro e he hne j hj
    obtain ⟨hptr', hlength'⟩ := SharedState.mem_live he
    obtain ⟨d, hd, hdpayload, hdsize⟩ := hs.long e.1 hptr'
    have hapart := hs.inv.sound.arena.separate.used_apart hb hd fun hsame =>
      hne (hdpayload.symm.trans (hsame ▸ hpayload))
    simp only [Block.payload, Block.stop] at hpayload hdpayload hapart
    omega
  have hnodup : (s.live.map Prod.fst).Nodup := by
    rw [s.live_fst]
    exact hs.inv.tokens.nodup
  obtain ⟨store', hstep, hcontents'⟩ := hcontents.write hnodup hlive hi hapart
  have hinv := hs.inv.writePayload hb (.fill hpayload hsize hi (v := v))
  exact ⟨store', hstep, ⟨Bs, hinv, hs.long, hs.removing, hs.gone⟩, hcontents'⟩

variable {start : Heap} {events : List (Event Nat UInt8)}

theorem sharedAllocator_simulates (hstart : Started start) :
    Simulates (sharedAllocator calls start) (objects 0 0)
      (fun s : SharedState Thread => SharedRep s) := by
  constructor
  case start =>
    rintro s rfl
    obtain ⟨B, hinv⟩ := hstart.inv Thread
    exact ⟨_, rfl, ⟨[B], hinv, fun _ h => (nomatch h), fun _ _ h => (nomatch h),
      fun _ h => (nomatch h)⟩, fun _ _ => rfl, fun _ h => (nomatch h)⟩
  case step =>
    rintro s store label s' hrep hstep
    cases hstep with
    | thread t hspares hstep => exact hrep.thread hspares hstep
    | write v hlive hi =>
        obtain ⟨store', hstore, hrep'⟩ := hrep.write hlive hi
        exact ⟨store', .step ⟨_, rfl, hstore⟩, hrep'⟩
    | read hlive hi =>
        have hold := hrep.contents.bytes _ hlive
        exact ⟨store, .step ⟨_, rfl, .read hold (objectBytes_getElem? hi)⟩, hrep⟩

omit [DecidableEq Thread] in
/-- No byte of a payload that a caller has lies in a region that was given back. -/
theorem SharedInv.apart_gone (hs : SharedInv s Bs) (hptr : ptr ∈ s.calls.live)
    (hi : i < s.length ptr) {region : Nat × Nat} (hregion : region ∈ s.gone) :
    ptr + i < region.1 ∨ region.1 + 4096 * region.2 ≤ ptr + i := by
  obtain ⟨b, ⟨hused, C, hC, hb⟩, rfl, hsize⟩ := hs.long ptr hptr
  obtain ⟨B, hB, hbase, hstop, hunused⟩ := hs.gone region hregion
  have hne : B ≠ C := by
    rintro rfl
    rw [hunused b hb] at hused
    cases hused
  have hbounds := (hs.inv.sound.arena.separate.wf C hC).block_bounds hb
  have hapart := hs.inv.sound.arena.separate.apart_of_ne hB hC hne
  simp only [Apart, Block.payload] at hapart ⊢
  omega

/-- In every interleaving of the threads and of the accesses of their callers, the callers see
an object store: a byte that is read is the one that was last written, and none that they have
lies in a region that was given back. -/
theorem sharedAllocator_refines_objects (hstart : Started start)
    (hrun : Run (sharedAllocator calls start) events s) :
    (∃ store, Run (objects 0 0) events store ∧ Contents s.calls.heap.mem s.live store) ∧
      (∀ ptr i v s', (sharedAllocator calls start).step s (some (.read ptr i v)) s' →
        ∀ y, lastValue 0 0 events ptr i = some y → v = y) ∧
      ∀ ptr ∈ s.calls.live, ∀ i < s.length ptr, ∀ region ∈ s.gone,
        ptr + i < region.1 ∨ region.1 + 4096 * region.2 ≤ ptr + i := by
  obtain ⟨store, hstore, hrep⟩ := (sharedAllocator_simulates hstart).run hrun
  obtain ⟨Bs, hs⟩ := id hrep.inv
  refine ⟨⟨store, hstore, hrep.contents⟩, fun ptr i v s' hread y hlast => ?_,
    fun ptr hptr i hi region hregion => hs.apart_gone hptr hi hregion⟩
  obtain ⟨store', hanswer, -⟩ := (sharedAllocator_simulates hstart).step _ _ _ _ hrep hread
  cases hanswer with
  | step hstep =>
      obtain ⟨e, hlabel, hstep⟩ := hstep
      cases hlabel
      exact (holds_of_run hstore).read hstep hlast

/-! ## Two threads -/

theorem exists_run_thread (hrun : ∃ events, Run (sharedAllocator calls start) events s)
    (hspares : s.Spares t) (hstep : CallStep calls t s.calls c) :
    ∃ events, Run (sharedAllocator calls start) events (s.next t c) := by
  obtain ⟨events, hrun⟩ := hrun
  have hshared := SharedStep.thread t hspares hstep
  cases hlabel : (s.calls.pc t).event (c.pc t) with
  | none => exact ⟨events, hrun.silent (hlabel ▸ hshared)⟩
  | some e => exact ⟨e :: events, hrun.event (hlabel ▸ hshared)⟩

/-- No region is gone, and neither thread is about to remove a bucket. -/
theorem SharedState.Spares.of_two {s : SharedState (Fin 2)} {t : Fin 2}
    (hbounds : StaysInBounds s.calls t) (hfirst : ∀ bucket, s.calls.pc 0 ≠ .removing bucket)
    (hsecond : ∀ bucket, s.calls.pc 1 ≠ .removing bucket) (hgone : s.gone = []) :
    s.Spares t := by
  refine ⟨hbounds, fun u bucket hpc => ?_, fun region hregion => ?_⟩
  · have hthreads : ∀ u : Fin 2, u = 0 ∨ u = 1 := by decide
    obtain rfl | rfl := hthreads u
    · exact absurd hpc (hfirst bucket)
    · exact absurd hpc (hsecond bucket)
  · rw [hgone] at hregion
    cases hregion

/-- Thread 0 has 64 KiB and has written to them, and thread 1 is in a call of `kmalloc`. -/
theorem bootHeap_shared : ∃ events ptr, ∃ s : SharedState (Fin 2),
    Run (sharedAllocator Set.univ bootHeap) (.write ptr 0 7 :: events) s ∧
      (ptr, 65536) ∈ s.live ∧ ∃ size bucket, s.calls.pc 1 = .scanning size bucket := by
  have hroomy : Roomy (freshBucket 0x10000 69632) := ⟨rfl, freshBucket_exact _ _⟩
  have hwf := bootHeap_rep.wf _ (List.mem_singleton_self _)
  obtain ⟨prev, hat⟩ := bootHeap_rep.bucketAt []
  obtain ⟨p, m, B, hsection, hp, hstep, hplaced, hexact⟩ :=
    (scanSection_spec hat hwf (pebbleSize_aligned 65536)).2 hroomy.admits
  obtain ⟨rfl, hfull⟩ := hroomy.fill hplaced hstep hexact
  have hblock : (⟨0x10040, 65536, true⟩ : Block) ∈ B.blocks := by
    rw [hfull.blocks, hstep.base_eq]
    exact List.mem_cons_self
  obtain ⟨_, _, hpebble⟩ := hstep.body.pebble hblock
  -- both threads call `kmalloc`, and thread 0 goes on
  have hrun₀ : ∃ events, Run (sharedAllocator Set.univ bootHeap) events
      (⟨.initial bootHeap, fun _ => 0, []⟩ : SharedState (Fin 2)) := ⟨[], .start rfl⟩
  have hrun₁ := exists_run_thread (t := 0) hrun₀
    (.of_two trivial (fun _ h => nomatch h) (fun _ h => nomatch h) rfl)
    (.kmalloc rfl trivial (by decide : 65536 < 2 ^ 64))
  have hrun₂ := exists_run_thread (t := 1) hrun₁
    (.of_two trivial (fun _ h => nomatch h) (fun _ h => nomatch h) rfl)
    (.kmalloc rfl trivial (by decide : 65536 < 2 ^ 64))
  have hrun₃ := exists_run_thread (t := 0) hrun₂
    (.of_two trivial (fun _ h => nomatch h) (fun _ h => nomatch h) rfl)
    (.scanHit rfl (by decide : (0x10000 : Nat) ≠ 0) hsection hp)
  have hrun₄ := exists_run_thread (t := 0) hrun₃
    (.of_two hpebble.size.ge (fun _ h => nomatch h) (fun _ h => nomatch h) rfl) (.zero rfl)
  obtain ⟨events, hrun⟩ := hrun₄
  have hwrite := hrun.event (.write 7 List.mem_cons_self (by decide : 0 < 65536))
  exact ⟨events, _, _, hwrite, List.mem_cons_self, _, _, rfl⟩

/-- Thread 0 reads what it has written, while thread 1 is in its call. -/
theorem bootHeap_shared_refines_objects : ∃ events ptr, ∃ s : SharedState (Fin 2),
    (∃ size bucket, s.calls.pc 1 = .scanning size bucket) ∧
      (∃ store, Run (objects 0 0) (.write ptr 0 7 :: events) store ∧
        Contents s.calls.heap.mem s.live store) ∧
      (sharedAllocator Set.univ bootHeap).step s (some (.read ptr 0 7)) s := by
  obtain ⟨events, ptr, s, hrun, hlive, hpc⟩ := bootHeap_shared
  obtain ⟨hstore, hreads, -⟩ := sharedAllocator_refines_objects bootHeap_started hrun
  have hread : (sharedAllocator Set.univ bootHeap).step s
      (some (.read ptr 0 (s.calls.heap.mem.byte (ptr + 0)))) s := .read hlive (by decide)
  rw [hreads ptr 0 _ s hread 7 (by simp [lastValue])] at hread
  exact ⟨events, ptr, s, hpc, hstore, hread⟩

end Invariant

end FroggyOs
