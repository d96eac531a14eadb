import FroggyOs.Klibc.Krealloc
import FroggyOs.Klibc.PayloadFrame
import FroggyOs.Library.Objects

/-!
# The allocator is an object store

The callers of `kmalloc`, `krealloc` and `kfree` read and write the bytes they asked for, and
nothing tells them that there is a heap: what they see is what a store of objects shows. A new
object is zero, an access of one object does not change another, and `krealloc` keeps the
front. The condition on the calls is the one under which owners stay apart.
-/

namespace FroggyOs

open ByteMemory Word64 Function Simulation Objects

attribute [local irreducible] bucketUpdateLargest placePebble searchBuckets chosenPebble
  bucketBytes popFrameList mapToPage pebbleSize placeSection

/-! ## The allocator with the accesses of its callers -/

/-- What is seen of a call that returns `ret`. -/
def AllocCall.event (ret : Nat) : AllocCall → Event Nat UInt8
  | kmalloc size => .alloc size ret
  | kfree ptr => .free ptr
  | krealloc ptr size => .resize ptr size ret

/-- A call, or an access of a byte that was requested. -/
inductive OwnerStep : OwnerState → Event Nat UInt8 → OwnerState → Prop
  | call {s : OwnerState} {c : AllocCall} {ret : Nat} {h : Heap} (hlegal : c.Legal s.live)
      (hcovers : c.Covers s.heap) (hcall : c.result .real s.heap = some (ret, h)) :
      OwnerStep s (c.event ret) ⟨h, c.settle ret s.live⟩
  | write {s : OwnerState} {ptr n i : Nat} (v : UInt8) (hlive : (ptr, n) ∈ s.live) (hi : i < n) :
      OwnerStep s (.write ptr i v)
        { s with heap := { s.heap with mem := s.heap.mem.fill (ptr + i) 1 v } }
  | read {s : OwnerState} {ptr n i : Nat} (hlive : (ptr, n) ∈ s.live) (hi : i < n) :
      OwnerStep s (.read ptr i (s.heap.mem.byte (ptr + i))) s

/-- The allocator from the heap that `kmalloc_init` has built. -/
def allocator (start : Heap) : System OwnerState (Event Nat UInt8) where
  start s := s = ⟨start, []⟩
  step s label s' := ∃ e, label = some e ∧ OwnerStep s e s'

/-- The bytes behind a pointer. -/
def objectBytes (m : Mem) (ptr n : Nat) : List UInt8 := (List.range n).map fun i => m.byte (ptr + i)

/-- The store has the live pointers, with the bytes that memory has there. -/
structure Contents (m : Mem) (live : List (Nat × Nat)) (store : Store Nat UInt8) : Prop where
  dead : ∀ ptr, ptr ∉ live.map Prod.fst → store ptr = none
  bytes : ∀ e ∈ live, store e.1 = some (objectBytes m e.1 e.2)

section Contents

variable {m m' : Mem} {live : List (Nat × Nat)} {store : Store Nat UInt8} {ptr n k i : Nat}
  {v : UInt8}

theorem objectBytes_length (m : Mem) (ptr n : Nat) : (objectBytes m ptr n).length = n := by
  rw [objectBytes, List.length_map, List.length_range]

theorem objectBytes_getElem? (hi : i < n) :
    (objectBytes m ptr n)[i]? = some (m.byte (ptr + i)) := by
  simp [objectBytes, hi]

theorem objectBytes_congr (hsame : ∀ i < n, m'.byte (k + i) = m.byte (ptr + i)) :
    objectBytes m' k n = objectBytes m ptr n := by
  refine List.map_congr_left fun i hi => hsame i (List.mem_range.mp hi)

theorem objectBytes_zero (hzero : ∀ i < n, m.byte (ptr + i) = 0) :
    objectBytes m ptr n = List.replicate n 0 := by
  refine List.ext_getElem? fun i => ?_
  by_cases hi : i < n
  · rw [objectBytes_getElem? hi, hzero i hi]
    simp [hi]
  · rw [List.getElem?_eq_none (by rw [objectBytes_length]; omega),
      List.getElem?_eq_none (by rw [List.length_replicate]; omega)]

theorem objectBytes_take (m : Mem) (ptr n k : Nat) :
    (objectBytes m ptr n).take k = objectBytes m ptr (min k n) := by
  rw [objectBytes, objectBytes, ← List.map_take, List.take_range]

theorem Contents.frame (h : Contents m live store)
    (hsame : ∀ e ∈ live, ∀ i < e.2, m'.byte (e.1 + i) = m.byte (e.1 + i)) :
    Contents m' live store :=
  ⟨h.dead, fun e he => (h.bytes e he).trans
    (congrArg some (objectBytes_congr (hsame e he)).symm)⟩

theorem Contents.add (h : Contents m live store) (hfresh : ptr ∉ live.map Prod.fst) :
    Contents m ((ptr, n) :: live) (update store ptr (some (objectBytes m ptr n))) := by
  constructor
  · intro q hq
    obtain ⟨hne, hq⟩ := not_or.mp (mt List.mem_cons.mpr hq)
    rw [update_of_ne hne]
    exact h.dead q hq
  · intro e he
    obtain rfl | hlive := List.mem_cons.mp he
    · exact update_self ..
    · rw [update_of_ne]
      · exact h.bytes e hlive
      · rintro rfl
        exact hfresh (List.mem_map_of_mem hlive)

theorem Contents.drop (h : Contents m live store) :
    Contents m (dropOwner live ptr) (update store ptr none) := by
  constructor
  · intro q hq
    by_cases hqp : q = ptr
    · rw [hqp, update_self]
    · rw [update_of_ne hqp]
      refine h.dead q fun hmem => hq ?_
      obtain ⟨e, he, rfl⟩ := List.mem_map.mp hmem
      exact List.mem_map_of_mem (mem_dropOwner.mpr ⟨he, hqp⟩)
  · intro e he
    obtain ⟨he, hne⟩ := mem_dropOwner.mp he
    rw [update_of_ne hne]
    exact h.bytes e he

theorem not_mem_dropOwner : ptr ∉ (dropOwner live ptr).map Prod.fst := by
  intro hmem
  obtain ⟨e, he, rfl⟩ := List.mem_map.mp hmem
  exact (mem_dropOwner.mp he).2 rfl

end Contents

/-! ## The calls -/

section Calls

variable {s : OwnerState} {Bs Bs' : List BucketModel} {store : Store Nat UInt8} {h : Heap}
  {ptr ret k n : Nat} {b : Block} {live : List (Nat × Nat)} {m m' : Mem} {c : AllocCall}

/-- What keeps the payloads in use keeps the contents. -/
theorem Contents.frame_used (hcontents : Contents m live store)
    (howned : Owned True False Bs live)
    (hsame : ∀ b, Used Bs b → (∃ e ∈ live, b.payload = e.1) → ∀ x, b.payload ≤ x → x < b.stop →
      m'.byte x = m.byte x) : Contents m' live store := by
  refine hcontents.frame fun e he i hi => ?_
  obtain ⟨b, hb, hpayload, hsize⟩ := howned.used e he
  have hsize := hsize trivial
  have hstop : b.stop = b.payload + b.size := rfl
  exact hsame b hb ⟨e, he, hpayload⟩ _ (by omega) (by omega)

theorem Contents.kmalloc (hcontents : Contents s.heap.mem s.live store)
    (hinv : OwnerInv True False s Bs) (hcovers : (AllocCall.kmalloc n).Covers s.heap)
    (hcall : FroggyOs.kmalloc .real s.heap n = some (ret, h)) :
    ∃ store', Step 0 0 store (.alloc n ret) store' ∧
      Contents h.mem ((AllocCall.kmalloc n).settle ret s.live) store' := by
  obtain ⟨Bs', hinv'⟩ := hinv.kmalloc hcovers.careful hcall
  have hkept : Contents h.mem s.live store :=
    hcontents.frame_used hinv.owned fun b hb _ x hlow hhigh =>
      hinv.heap.kmalloc_byte hcovers.1 hcovers.2 hcall hb hlow hhigh
  have hnodup := hinv'.owned.nodup
  rw [AllocCall.settle] at hnodup ⊢
  by_cases hret : ret = 0
  · subst hret
    exact ⟨store, .fail, hkept⟩
  · rw [if_neg hret] at hnodup ⊢
    have hfresh := (List.nodup_cons.mp hnodup).1
    have hadd := hkept.add (n := n) hfresh
    rw [objectBytes_zero fun i hi => kmalloc_zero hcall hret (by omega) (by omega)] at hadd
    exact ⟨_, .alloc hret (hcontents.dead ret hfresh), hadd⟩

/-- What is left when a pointer is taken back. -/
theorem Contents.kfree (hcontents : Contents s.heap.mem s.live store)
    (hinv : OwnerInv True False s Bs) (hlive : ∃ k, (ptr, k) ∈ s.live)
    (hcall : FroggyOs.kfree s.heap ptr = some h) :
    Contents h.mem (dropOwner s.live ptr) (update store ptr none) := by
  obtain ⟨k, hk⟩ := hlive
  obtain ⟨c, hc, rfl, -⟩ := hinv.owned.used _ hk
  exact (hcontents.frame_used hinv.owned fun b hb _ x hlow hhigh =>
    hinv.heap.kfree_byte hc hcall hb hlow hhigh).drop

/-- The object under its new pointer: as long as requested, with the front of the old one. -/
theorem Contents.resize {new : Nat} (hcontents : Contents s.heap.mem s.live store)
    (hlive : (ptr, k) ∈ s.live) (hne : n ≠ 0) (hnew : new ≠ 0)
    (hfresh : new ∉ (dropOwner s.live ptr).map Prod.fst)
    (hkept : Contents m (dropOwner s.live ptr) (update store ptr none))
    (hfront : ∀ i < min k n, m.byte (new + i) = s.heap.mem.byte (ptr + i)) :
    ∃ store', Step 0 0 store (.resize ptr n new) store' ∧
      Contents m ((new, n) :: dropOwner s.live ptr) store' := by
  refine ⟨_, .resize (hcontents.bytes _ hlive) hne hnew ?_ (objectBytes_length m new n) ?_,
    hkept.add hfresh⟩
  · exact hkept.dead new hfresh
  · rw [objectBytes_length, objectBytes_take, objectBytes_take, Nat.min_comm n k]
    exact objectBytes_congr hfront

theorem Contents.krealloc (hcontents : Contents s.heap.mem s.live store)
    (hinv : OwnerInv True False s Bs) (hlive : ∃ k, (ptr, k) ∈ s.live)
    (hcovers : (AllocCall.krealloc ptr n).Covers s.heap)
    (hcall : FroggyOs.krealloc .real s.heap ptr n = some (ret, h)) :
    ∃ store', Step 0 0 store (.resize ptr n ret) store' ∧
      Contents h.mem ((AllocCall.krealloc ptr n).settle ret s.live) store' := by
  rw [AllocCall.settle]
  by_cases hzero : n = 0
  · rw [FroggyOs.krealloc, if_pos hzero] at hcall
    obtain ⟨h', hkfree, hret⟩ := Option.bind_eq_some_iff.mp hcall
    cases hret
    obtain ⟨k, hk⟩ := hlive
    rw [if_pos hzero, hzero]
    exact ⟨_, .resizeZero (hcontents.bytes _ hk), hcontents.kfree hinv ⟨k, hk⟩ hkfree⟩
  have hcond := hcovers hzero
  obtain ⟨k, hk⟩ := hlive
  obtain ⟨c, hc, rfl, hksize⟩ := hinv.owned.used _ hk
  have hksize := hksize trivial
  have hsep := hinv.heap.rep.separate
  have hstop : c.stop = c.payload + c.size := rfl
  have hother : ∀ b, Used Bs b → ∀ e ∈ dropOwner s.live c.payload, b.payload = e.1 → b ≠ c := by
    rintro b - e he hpayload rfl
    exact (mem_dropOwner.mp he).2 hpayload.symm
  have howned : Owned True False Bs (dropOwner s.live c.payload) :=
    ⟨hinv.owned.nodup_drop, fun e he => hinv.owned.used e (mem_dropOwner.mp he).1, False.elim⟩
  rw [if_neg hzero]
  split at hcond
  case isTrue hsize =>
      obtain rfl := hinv.heap.krealloc_of_le hc hzero hsize hcall
      rw [SplitsInside] at hcond
      rw [(hinv.heap.header hc).2] at hsize hcond
      rw [if_neg c.payload_ne_zero]
      refine hcontents.resize hk hzero c.payload_ne_zero not_mem_dropOwner ?_ fun i hi => ?_
      · refine hcontents.drop.frame_used howned fun b hb hmem x hlow hhigh => ?_
        obtain ⟨e, he, hpayload⟩ := hmem
        exact hinv.heap.shrink_byte hc hzero hsize hcond hcall hb hlow hhigh
          fun hsame => absurd hsame (hother b hb e he hpayload)
      · exact hinv.heap.shrink_byte hc hzero hsize hcond hcall hc (by omega) (by omega)
          fun _ => by omega
  case isFalse hsize =>
      rw [(hinv.heap.header hc).2] at hsize
      obtain ⟨hready, hsucceeds, hrounded⟩ := hcond
      obtain ⟨hothers, hret, hfront⟩ :=
        hinv.heap.grow_byte hc (by omega) hready hsucceeds hrounded hcall
      have hfresh : ret ∉ (dropOwner s.live c.payload).map Prod.fst := by
        intro hmem
        obtain ⟨e, he, rfl⟩ := List.mem_map.mp hmem
        obtain ⟨b, hb, hpayload, -⟩ := howned.used e he
        exact (hothers b hb).1 hpayload
      rw [if_neg hret]
      refine hcontents.resize hk hzero hret hfresh ?_ fun i hi => hfront i (by omega)
      exact hcontents.drop.frame_used howned fun b hb _ x hlow hhigh =>
        (hothers b hb).2 x hlow hhigh

end Calls

/-! ## The refinement -/

/-- The heap is well formed, and the store has what the callers have. -/
structure StoreRep (s : OwnerState) (store : Store Nat UInt8) : Prop where
  inv : ∃ Bs, OwnerInv True False s Bs
  contents : Contents s.heap.mem s.live store

section Refinement

variable {start : Heap} {s s' : OwnerState} {store : Store Nat UInt8} {e : Event Nat UInt8}
  {events : List (Event Nat UInt8)} {Bs : List BucketModel} {ptr n i : Nat} {v : UInt8}

theorem objectBytes_fill {m : Mem} (hi : i < n) :
    objectBytes (m.fill (ptr + i) 1 v) ptr n = (objectBytes m ptr n).set i v := by
  refine List.ext_getElem? fun j => ?_
  by_cases hj : j < n
  · rw [objectBytes_getElem? hj]
    by_cases hij : i = j
    · subst hij
      rw [Mem.fill_byte_inside (by omega) (by omega),
        List.getElem?_set_self (by rw [objectBytes_length]; exact hi)]
    · rw [Mem.fill_byte_outside (by omega), List.getElem?_set_ne hij, objectBytes_getElem? hj]
  · rw [List.getElem?_eq_none (by rw [objectBytes_length]; omega),
      List.getElem?_eq_none (by rw [List.length_set, objectBytes_length]; omega)]

/-- A write stays in its object. -/
theorem Contents.write {m : Mem} {live : List (Nat × Nat)} (h : Contents m live store)
    (hnodup : (live.map Prod.fst).Nodup) (hlive : (ptr, n) ∈ live) (hi : i < n)
    (hapart : ∀ e ∈ live, e.1 ≠ ptr → ∀ j < e.2, e.1 + j ≠ ptr + i) :
    ∃ store', Step 0 0 store (.write ptr i v) store' ∧
      Contents (m.fill (ptr + i) 1 v) live store' := by
  refine ⟨_, .write (h.bytes _ hlive) (by rw [objectBytes_length]; exact hi),
    fun q hq => ?_, fun e he => ?_⟩
  · have hne : q ≠ ptr := by
      rintro rfl
      exact hq (List.mem_map_of_mem hlive)
    rw [update_of_ne hne]
    exact h.dead q hq
  · by_cases hptr : e.1 = ptr
    · obtain rfl := List.inj_on_of_nodup_map hnodup he hlive hptr
      rw [update_self]
      exact congrArg some (objectBytes_fill hi).symm
    · rw [update_of_ne hptr, h.bytes e he]
      refine congrArg some (objectBytes_congr fun j hj => ?_).symm
      have hne := hapart e he hptr j hj
      exact Mem.fill_byte_outside (by omega)

/-- What is written to a block in use. -/
theorem ChangesPayload.fill {b : Block} {m : Mem} (hpayload : b.payload = ptr) (hsize : n ≤ b.size)
    (hi : i < n) : ChangesPayload b m (m.fill (ptr + i) 1 v) := by
  intro x hx
  have hstop : b.stop = b.payload + b.size := rfl
  exact Mem.fill_byte_outside (by omega)

theorem StoreRep.write (hrep : StoreRep s store) (hlive : (ptr, n) ∈ s.live) (hi : i < n) :
    ∃ store', Step 0 0 store (.write ptr i v) store' ∧
      StoreRep { s with heap := { s.heap with mem := s.heap.mem.fill (ptr + i) 1 v } } store' := by
  obtain ⟨⟨Bs, hinv⟩, hcontents⟩ := hrep
  obtain ⟨b, hb, hpayload, hsize⟩ := hinv.owned.used _ hlive
  have hsize := hsize trivial
  simp only at hpayload hsize
  have hapart : ∀ e ∈ s.live, e.1 ≠ ptr → ∀ j < e.2, e.1 + j ≠ ptr + i := by
    intro e he hne j hj
    obtain ⟨c, hc, hcpayload, hcsize⟩ := hinv.owned.used e he
    have hcsize := hcsize trivial
    have hapart := hinv.heap.rep.separate.used_apart hb hc fun hsame =>
      hne (hcpayload.symm.trans (hsame ▸ hpayload))
    simp only [Block.payload, Block.stop] at hpayload hcpayload hapart
    omega
  obtain ⟨store', hstep, hcontents'⟩ := hcontents.write hinv.owned.nodup hlive hi hapart
  exact ⟨store', hstep, ⟨Bs, hinv.heap.writePayload hb (.fill hpayload hsize hi), hinv.owned⟩,
    hcontents'⟩

theorem StoreRep.step (hrep : StoreRep s store) (hstep : OwnerStep s e s') :
    ∃ store', Step 0 0 store e store' ∧ StoreRep s' store' := by
  obtain ⟨⟨Bs, hinv⟩, hcontents⟩ := id hrep
  cases hstep with
  | @call c ret h hlegal hcovers hcall =>
      have hinv' := hinv.call hlegal hcovers.careful hcall
      cases c with
      | kmalloc n =>
          obtain ⟨store', hstore, hcontents'⟩ := hcontents.kmalloc hinv hcovers hcall
          exact ⟨store', hstore, hinv', hcontents'⟩
      | kfree ptr =>
          obtain ⟨h', hkfree, hret⟩ := Option.map_eq_some_iff.mp hcall
          cases hret
          obtain ⟨k, hk⟩ := id hlegal
          exact ⟨_, .free (hcontents.bytes _ hk), hinv', hcontents.kfree hinv hlegal hkfree⟩
      | krealloc ptr n =>
          obtain ⟨store', hstore, hcontents'⟩ := hcontents.krealloc hinv hlegal.1 hcovers hcall
          exact ⟨store', hstore, hinv', hcontents'⟩
  | write v hlive hi => exact hrep.write hlive hi
  | @read ptr n i hlive hi =>
      exact ⟨store, .read (hcontents.bytes _ hlive) (objectBytes_getElem? hi), hrep⟩

theorem allocator_simulates (hstart : Started start) :
    Simulates (allocator start) (objects 0 0) StoreRep := by
  constructor
  case start =>
    rintro s rfl
    have hnone : OwnerRun .real (fun h c => c.Covers h) start ⟨start, []⟩ := .start
    exact ⟨_, rfl, hnone.inv hstart fun h c hc => AllocCall.Covers.careful hc,
      fun _ _ => rfl, fun e he => (nomatch he)⟩
  case step =>
    rintro s store label s' hrep ⟨e, rfl, hstep⟩
    obtain ⟨store', hstore, hrep'⟩ := hrep.step hstep
    exact ⟨store', .step ⟨e, rfl, hstore⟩, hrep'⟩

/-- A call that meets the condition returns. -/
theorem OwnerInv.returns {c : AllocCall} (hinv : OwnerInv True False s Bs)
    (hlegal : c.Legal s.live) (hcovers : c.Covers s.heap) :
    ∃ ret h, c.result .real s.heap = some (ret, h) := by
  have hkfree : ∀ ptr, (∃ k, (ptr, k) ∈ s.live) → ∃ h, FroggyOs.kfree s.heap ptr = some h := by
    rintro ptr ⟨k, hk⟩
    obtain ⟨b, hb, rfl, -⟩ := hinv.owned.used _ hk
    obtain ⟨h, -, hcall, -⟩ := hinv.heap.kfree_spec hb
    exact ⟨h, hcall⟩
  cases c with
  | kmalloc n =>
      obtain ⟨hsuccess, hfailure⟩ := hinv.heap.kmalloc_spec (w := .real) hcovers.1
        fun hsucceeds => staysInside_real (hcovers.2 hsucceeds)
      by_cases hsucceeds : Succeeds s.heap n
      · obtain ⟨h, -, b, hcall, -⟩ := hsuccess hsucceeds
        exact ⟨_, h, hcall⟩
      · obtain ⟨h, -, hcall, -⟩ := hfailure hsucceeds
        exact ⟨_, h, hcall⟩
  | kfree ptr =>
      obtain ⟨h, hcall⟩ := hkfree ptr hlegal
      exact ⟨0, h, Option.map_eq_some_iff.mpr ⟨h, hcall, rfl⟩⟩
  | krealloc ptr n =>
      by_cases hzero : n = 0
      · obtain ⟨h, hcall⟩ := hkfree ptr hlegal.1
        refine ⟨0, h, ?_⟩
        rw [AllocCall.result, FroggyOs.krealloc, if_pos hzero, hcall]
        rfl
      obtain ⟨k, hk⟩ := hlegal.1
      obtain ⟨b, hb, rfl, -⟩ := hinv.owned.used _ hk
      have hcond := hcovers hzero
      have hbytes := (hinv.heap.header hb).2
      split at hcond
      case isTrue hsize =>
          rw [SplitsInside] at hcond
          rw [hbytes] at hsize hcond
          obtain ⟨h, -, hcall, -⟩ := hinv.heap.shrink_spec .real hb hzero hsize hcond
          exact ⟨_, h, hcall⟩
      case isFalse hsize =>
          obtain ⟨hready, hsucceeds, hrounded⟩ := hcond
          obtain ⟨h, -, -, c, hcall, -⟩ := (hinv.heap.grow_spec hb (by omega) hready
            fun _ => staysInside_real hrounded).1 hsucceeds
          exact ⟨_, h, hcall⟩

/-- In every run of covered calls and of accesses to what was requested, the callers see an
object store, and the next covered call returns. -/
theorem allocator_refines_objects (hstart : Started start) (hrun : Run (allocator start) events s) :
    (∃ store, Run (objects 0 0) events store ∧ Contents s.heap.mem s.live store) ∧
      ∀ c : AllocCall, c.Legal s.live → c.Covers s.heap →
        ∃ ret h, c.result .real s.heap = some (ret, h) := by
  obtain ⟨store, hstore, hrep⟩ := (allocator_simulates hstart).run hrun
  obtain ⟨Bs, hinv⟩ := hrep.inv
  exact ⟨⟨store, hstore, hrep.contents⟩, fun c => hinv.returns⟩

/-- What was last written is read, through all calls in between. -/
theorem allocator_reads_lastValue (hstart : Started start)
    (hrun : Run (allocator start) events s)
    (hread : (allocator start).step s (some (.read ptr i v)) s') {y : UInt8}
    (hlast : lastValue 0 0 events ptr i = some y) : v = y := by
  obtain ⟨store, hstore, hrep⟩ := (allocator_simulates hstart).run hrun
  obtain ⟨e, hlabel, hstep⟩ := hread
  cases hlabel
  obtain ⟨store', hstep', -⟩ := hrep.step hstep
  exact (holds_of_run hstore).read hstep' hlast

/-- A page that is handed out and written to. -/
theorem bootHeap_written : ∃ s : OwnerState,
    Run (allocator bootHeap) [.write 0x1007C 4095 7, .alloc 4096 0x1007C] s ∧
      (0x1007C, 4096) ∈ s.live := by
  obtain ⟨h, Bs, hcall, hcovers, -⟩ := @bootHeap_pages 4096 (by decide) (by decide) (by decide)
  have hkmalloc : OwnerStep ⟨bootHeap, []⟩ (.alloc 4096 0x1007C) ⟨h, [(0x1007C, 4096)]⟩ :=
    .call (c := .kmalloc 4096) (by decide : 4096 < 2 ^ 47) hcovers hcall
  have hwrite : OwnerStep ⟨h, [(0x1007C, 4096)]⟩ (.write 0x1007C 4095 7) _ :=
    .write 7 List.mem_cons_self (by decide)
  have hstart : Run (allocator bootHeap) [] ⟨bootHeap, []⟩ := .start rfl
  exact ⟨_, (hstart.event ⟨_, rfl, hkmalloc⟩).event ⟨_, rfl, hwrite⟩, List.mem_cons_self⟩

theorem bootHeap_refines_objects : ∃ events s, Run (allocator bootHeap) events s ∧
    (0x1007C, 4096) ∈ s.live ∧
    ∃ store, Run (objects 0 0) events store ∧ Contents s.heap.mem s.live store := by
  obtain ⟨s, hrun, hlive⟩ := bootHeap_written
  exact ⟨_, s, hrun, hlive, (allocator_refines_objects bootHeap_started hrun).1⟩

theorem bootHeap_reads_lastValue : ∃ s : OwnerState,
    (allocator bootHeap).step s (some (.read 0x1007C 4095 7)) s := by
  obtain ⟨s, hrun, hlive⟩ := bootHeap_written
  have hread : (allocator bootHeap).step s
      (some (.read 0x1007C 4095 (s.heap.mem.byte (0x1007C + 4095)))) s :=
    ⟨_, rfl, .read hlive (by decide)⟩
  have hvalue := allocator_reads_lastValue bootHeap_started hrun hread (y := 7) (by decide)
  rw [hvalue] at hread
  exact ⟨s, hread⟩

end Refinement

end FroggyOs
