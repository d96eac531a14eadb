import FroggyOs.Klibc.Calls
import FroggyOs.Klibc.LockDiscipline
import FroggyOs.Klibc.Threads

/-!
# What the callers of the allocator own

A run makes calls of `kmalloc`, `kfree` and `krealloc` on the heap that `kmalloc_init` has
built, each with a pointer that is live. A `krealloc` to 0 bytes takes its pointer back, and
one that returns `NULL` for any other size leaves it live. In the runs whose calls keep
inside their blocks every live pointer is the payload of a block in use, and when no block
is cut by `krealloc` there are no other blocks in use.
-/

namespace FroggyOs

open ByteMemory Word64 LinkedChain

attribute [local irreducible] bucketUpdateLargest placePebble searchBuckets chosenPebble
  bucketBytes popFrameList mapToPage pebbleSize placeSection

/-! ## Runs -/

/-- The heap and what its callers hold: each live pointer with the size last requested. -/
structure OwnerState where
  heap : Heap
  live : List (Nat × Nat)

/-- The live pointers without `ptr`. -/
def dropOwner (live : List (Nat × Nat)) (ptr : Nat) : List (Nat × Nat) :=
  live.filter fun e => e.1 != ptr

namespace AllocCall

/-- The call with the given payload writes. What `kfree` does not return is 0. -/
def result (w : PayloadWrites) (h : Heap) : AllocCall → Option (Nat × Heap)
  | kmalloc size => FroggyOs.kmalloc w h size
  | kfree ptr => (FroggyOs.kfree h ptr).map fun h => (0, h)
  | krealloc ptr size => FroggyOs.krealloc w h ptr size

/-- A request below `2 ^ 47` and a live pointer. -/
def Legal (live : List (Nat × Nat)) : AllocCall → Prop
  | kmalloc size => size < 2 ^ 47
  | kfree ptr => ∃ n, (ptr, n) ∈ live
  | krealloc ptr size => (∃ n, (ptr, n) ∈ live) ∧ size < 2 ^ 47

/-- What is live when the call has returned `ret`. -/
def settle (ret : Nat) (live : List (Nat × Nat)) : AllocCall → List (Nat × Nat)
  | kmalloc size => if ret = 0 then live else (ret, size) :: live
  | kfree ptr => dropOwner live ptr
  | krealloc ptr size =>
      if size = 0 then dropOwner live ptr
      else if ret = 0 then live
      else (ret, size) :: dropOwner live ptr

end AllocCall

/-- The states that legal calls lead to when each of them meets `cond`. -/
inductive OwnerRun (w : PayloadWrites) (cond : Heap → AllocCall → Prop) (start : Heap) :
    OwnerState → Prop
  | start : OwnerRun w cond start ⟨start, []⟩
  | call {s : OwnerState} {c : AllocCall} {ret : Nat} {h : Heap}
      (hrun : OwnerRun w cond start s) (hlegal : c.Legal s.live) (hcond : cond s.heap c)
      (hcall : c.result w s.heap = some (ret, h)) :
      OwnerRun w cond start ⟨h, c.settle ret s.live⟩

/-! ## Blocks and their owners -/

/-- Every live pointer is the payload of a block in use. With `covers` the block has the size
requested, with `exact` all blocks in use are live. -/
structure Owned (covers exact : Prop) (Bs : List BucketModel) (live : List (Nat × Nat)) :
    Prop where
  nodup : (live.map Prod.fst).Nodup
  used : ∀ e ∈ live, ∃ b, Used Bs b ∧ b.payload = e.1 ∧ (covers → e.2 ≤ b.size)
  live : exact → ∀ b, Used Bs b → ∃ n, (b.payload, n) ∈ live

section Owned

variable {covers exact : Prop} {Bs Bs' : List BucketModel} {live : List (Nat × Nat)} {b : Block}
  {e : Nat × Nat} {ptr n : Nat}

theorem mem_dropOwner : e ∈ dropOwner live ptr ↔ e ∈ live ∧ e.1 ≠ ptr := by
  rw [dropOwner, List.mem_filter, bne_iff_ne]

theorem dropOwner_cons_of_ne {m : Nat} (h : m ≠ ptr) :
    dropOwner ((m, n) :: live) ptr = (m, n) :: dropOwner live ptr :=
  List.filter_cons_of_pos (bne_iff_ne.mpr h)

namespace Owned

theorem nil : Owned covers exact Bs [] ↔ (exact → ∀ b, ¬ Used Bs b) := by
  constructor
  · intro h hexact b hb
    obtain ⟨n, hn⟩ := h.live hexact b hb
    cases hn
  · intro h
    exact ⟨List.nodup_nil, fun e he => (nomatch he), fun hexact b hb => absurd hb (h hexact b)⟩

theorem same (h : Owned covers exact Bs live) (hsame : SameUsed Bs Bs') :
    Owned covers exact Bs' live where
  nodup := h.nodup
  used := fun e he =>
    let ⟨b, hb, hspec⟩ := h.used e he
    ⟨b, (hsame b).mpr hb, hspec⟩
  live := fun hexact b hb => h.live hexact b ((hsame b).mp hb)

/-- The new block belongs to the caller that asked for it. -/
theorem granted (h : Owned covers exact Bs live) (hgranted : Granted Bs Bs' b)
    (hsize : covers → n ≤ b.size) : Owned covers exact Bs' ((b.payload, n) :: live) := by
  constructor
  case nodup =>
    refine List.nodup_cons.mpr ⟨fun hmem => ?_, h.nodup⟩
    obtain ⟨e, he, hpayload⟩ := List.mem_map.mp hmem
    obtain ⟨c, hc, hcpayload, -⟩ := h.used e he
    exact hgranted.fresh c hc (hcpayload.trans hpayload)
  case used =>
    intro e he
    obtain rfl | he := List.mem_cons.mp he
    · exact ⟨b, (hgranted.used b).mpr (.inl rfl), rfl, hsize⟩
    · obtain ⟨c, hc, hspec⟩ := h.used e he
      exact ⟨c, (hgranted.used c).mpr (.inr hc), hspec⟩
  case live =>
    intro hexact c hc
    obtain rfl | hc := (hgranted.used c).mp hc
    · exact ⟨n, List.mem_cons_self⟩
    · obtain ⟨k, hk⟩ := h.live hexact c hc
      exact ⟨k, List.mem_cons_of_mem _ hk⟩

theorem nodup_drop (h : Owned covers exact Bs live) : ((dropOwner live ptr).map Prod.fst).Nodup :=
  h.nodup.sublist (List.filter_sublist.map Prod.fst)

/-- The block of a pointer that is no longer live is taken back. -/
theorem returned (h : Owned covers exact Bs live) (hsep : Separate Bs) (hb : Used Bs b)
    (hreturned : Returned Bs Bs' b) : Owned covers exact Bs' (dropOwner live b.payload) := by
  constructor
  case nodup => exact h.nodup_drop
  case used =>
    intro e he
    obtain ⟨he, hne⟩ := mem_dropOwner.mp he
    obtain ⟨c, hc, hpayload, hsize⟩ := h.used e he
    refine ⟨c, (hreturned c).mpr ⟨hc, ?_⟩, hpayload, hsize⟩
    rintro rfl
    exact hne hpayload.symm
  case live =>
    intro hexact c hc
    obtain ⟨hc, hne⟩ := (hreturned c).mp hc
    obtain ⟨k, hk⟩ := h.live hexact c hc
    exact ⟨k, mem_dropOwner.mpr ⟨hk, fun hpayload => hne (hsep.used_ext hc hb hpayload)⟩⟩

theorem splitHead_payload (b : Block) (n : Nat) : (splitHead b n).payload = b.payload := by
  rw [Block.payload, Block.payload, splitHead_addr]

/-- A cut block stays with its owner; the part behind it belongs to nobody. -/
theorem cut (h : Owned covers exact Bs live) (hsep : Separate Bs) (hb : Used Bs b)
    (hcut : Cut Bs Bs' b n) (hsize : covers → n ≤ (splitHead b n).size)
    (hwhole : exact → splitTail b n = []) :
    Owned covers exact Bs' ((b.payload, n) :: dropOwner live b.payload) := by
  constructor
  case nodup =>
    refine List.nodup_cons.mpr ⟨fun hmem => ?_, h.nodup_drop⟩
    obtain ⟨e, he, hpayload⟩ := List.mem_map.mp hmem
    exact (mem_dropOwner.mp he).2 hpayload
  case used =>
    intro e he
    obtain rfl | he := List.mem_cons.mp he
    · exact ⟨splitHead b n, (hcut _).mpr (.inr List.mem_cons_self), splitHead_payload b n, hsize⟩
    · obtain ⟨he, hne⟩ := mem_dropOwner.mp he
      obtain ⟨c, hc, hpayload, hcsize⟩ := h.used e he
      refine ⟨c, (hcut c).mpr (.inl ⟨hc, ?_⟩), hpayload, hcsize⟩
      rintro rfl
      exact hne hpayload.symm
  case live =>
    intro hexact c hc
    obtain ⟨hc, hne⟩ | hpart := (hcut c).mp hc
    · obtain ⟨k, hk⟩ := h.live hexact c hc
      have hpayload : c.payload ≠ b.payload := fun hsame => hne (hsep.used_ext hc hb hsame)
      exact ⟨k, List.mem_cons_of_mem _ (mem_dropOwner.mpr ⟨hk, hpayload⟩)⟩
    · rw [hwhole hexact, List.mem_singleton] at hpart
      rw [hpart, splitHead_payload]
      exact ⟨n, List.mem_cons_self⟩

end Owned

end Owned

/-! ## `krealloc` to a larger size -/

section Grow

variable {w : PayloadWrites} {h h₁ : Heap} {Bs : List BucketModel} {b : Block} {n ptr ret : Nat}

theorem Block.payload_ne_zero (b : Block) : b.payload ≠ 0 := Nat.succ_ne_zero _

/-- The old block is freed whatever `kmalloc` has returned. -/
theorem krealloc_of_lt (hptr : ptr ≠ 0)
    (hmagic : h.mem.get (sub64 ptr MemoryPebble.sizeof) MemoryPebble.magic = kmallocMagicPebble)
    (hsize : pebbleBytes h ptr < n) (hcall : kmalloc w h n = some (ret, h₁)) :
    krealloc w h ptr n =
      (kfree (if ret ≠ 0 then { h₁ with mem := w.copy h₁.mem ret ptr n } else h₁) ptr).map
        fun h => (ret, h) := by
  have hn : n ≠ 0 := by omega
  have hmore : ¬ n ≤ h.mem.get (sub64 ptr MemoryPebble.sizeof) MemoryPebble.size :=
    Nat.not_le.mpr hsize
  rw [krealloc, if_neg hn, if_neg hptr]
  simp only [hmagic, ne_eq, not_true_eq_false, if_false, hmore, hcall, Option.bind_eq_bind,
    Option.bind_some, Option.map_eq_bind]
  rfl

theorem HeapInv.grow_spec (hinv : HeapInv h Bs) (hb : Used Bs b) (hsize : b.size < n)
    (hready : RegionReady h n) (hinside : Succeeds h n → StaysInside w n) :
    (Succeeds h n → ∃ h' Bs₁ Bs' c, krealloc w h b.payload n = some (c.payload, h') ∧
      HeapInv h' Bs' ∧ Granted Bs Bs₁ c ∧ Separate Bs₁ ∧ Returned Bs₁ Bs' b ∧
      pebbleSize (requestSize n) ≤ c.size) ∧
    (¬ Succeeds h n → ∃ h' Bs', krealloc w h b.payload n = some (0, h') ∧ HeapInv h' Bs' ∧
      h'.mem.get b.addr MemoryPebble.lflags = pebbleFlagFree) := by
  obtain ⟨hmagic, hbytes⟩ := hinv.header hb
  obtain ⟨hsuccess, hfailure⟩ := hinv.kmalloc_spec hready hinside
  constructor
  · intro hsucceeds
    obtain ⟨h₁, Bs₁, c, hcall, hinv₁, hgranted, hlarge⟩ := hsuccess hsucceeds
    have hc := (hgranted.used c).mpr (.inl rfl)
    have hcopy := (hinside hsucceeds c hlarge h₁.mem).2 b.payload
    obtain ⟨h', Bs', hkfree, hinv', hreturned, -⟩ :=
      (hinv₁.writePayload hc hcopy).kfree_spec ((hgranted.used b).mpr (.inr hb))
    refine ⟨h', Bs₁, Bs', c, ?_, hinv', hgranted, hinv₁.rep.separate, hreturned, hlarge⟩
    rw [krealloc_of_lt b.payload_ne_zero hmagic (by omega) hcall, if_pos c.payload_ne_zero, hkfree]
    rfl
  · intro hfails
    obtain ⟨h₁, Bs₁, hcall, hinv₁, hsame⟩ := hfailure hfails
    obtain ⟨h', Bs', hkfree, hinv', -, hflags⟩ := hinv₁.kfree_spec ((hsame b).mpr hb)
    refine ⟨h', Bs', ?_, hinv', hflags⟩
    rw [krealloc_of_lt b.payload_ne_zero hmagic (by omega) hcall, if_neg (fun hne => hne rfl),
      hkfree]
    rfl

end Grow

/-! ## What every run keeps -/

/-- The parts that `krealloc` would cut the block into fit into it. -/
def SplitsInside (h : Heap) (ptr n : Nat) : Prop :=
  splitPebbleTest (pebbleBytes h ptr) n = true → splitSize n + 60 ≤ pebbleBytes h ptr

/-- A call that keeps its writes inside the block it hands out. With `covers` it hands out
what is requested, with `exact` it cuts no block in use. -/
def AllocCall.Careful (w : PayloadWrites) (covers exact : Prop) (h : Heap) : AllocCall → Prop
  | kmalloc n => RegionReady h n ∧
      (Succeeds h n → StaysInside w n ∧ (covers → n ≤ pebbleSize (requestSize n)))
  | kfree _ => True
  | krealloc ptr n => n ≠ 0 →
      if n ≤ pebbleBytes h ptr then
        SplitsInside h ptr n ∧ (exact → splitPebbleTest (pebbleBytes h ptr) n = false)
      else
        RegionReady h n ∧ Succeeds h n ∧ StaysInside w n ∧
          (covers → n ≤ pebbleSize (requestSize n))

/-- The buckets represent the heap, and their blocks in use belong to the callers. -/
structure OwnerInv (covers exact : Prop) (s : OwnerState) (Bs : List BucketModel) : Prop where
  heap : HeapInv s.heap Bs
  owned : Owned covers exact Bs s.live

section Inv

variable {w : PayloadWrites} {covers exact : Prop} {s : OwnerState} {Bs : List BucketModel}
  {c : AllocCall} {ret n ptr : Nat} {h : Heap}

theorem splitTail_of_test {b : Block} (h : splitPebbleTest b.size n = false) :
    splitTail b n = [] := by
  rw [splitTail, h]
  rfl

theorem OwnerInv.kmalloc (hinv : OwnerInv covers exact s Bs)
    (hcond : (AllocCall.kmalloc n).Careful w covers exact s.heap)
    (hcall : FroggyOs.kmalloc w s.heap n = some (ret, h)) :
    ∃ Bs', OwnerInv covers exact ⟨h, (AllocCall.kmalloc n).settle ret s.live⟩ Bs' := by
  obtain ⟨hready, hinside⟩ := hcond
  obtain ⟨hsuccess, hfailure⟩ := hinv.heap.kmalloc_spec hready fun hs => (hinside hs).1
  by_cases hsucceeds : Succeeds s.heap n
  · obtain ⟨h', Bs', b, hcall', hinv', hgranted, hsize⟩ := hsuccess hsucceeds
    rw [hcall] at hcall'
    cases hcall'
    refine ⟨Bs', hinv', ?_⟩
    rw [AllocCall.settle, if_neg b.payload_ne_zero]
    exact hinv.owned.granted hgranted fun hcovers => ((hinside hsucceeds).2 hcovers).trans hsize
  · obtain ⟨h', Bs', hcall', hinv', hsame⟩ := hfailure hsucceeds
    rw [hcall] at hcall'
    cases hcall'
    exact ⟨Bs', hinv', hinv.owned.same hsame⟩

theorem OwnerInv.kfree (hinv : OwnerInv covers exact s Bs) (hlive : ∃ k, (ptr, k) ∈ s.live)
    (hcall : FroggyOs.kfree s.heap ptr = some h) :
    ∃ Bs', OwnerInv covers exact ⟨h, dropOwner s.live ptr⟩ Bs' := by
  obtain ⟨k, hk⟩ := hlive
  obtain ⟨b, hb, rfl, -⟩ := hinv.owned.used _ hk
  obtain ⟨h', Bs', hcall', hinv', hreturned, -⟩ := hinv.heap.kfree_spec hb
  rw [hcall] at hcall'
  cases hcall'
  exact ⟨Bs', hinv', hinv.owned.returned hinv.heap.rep.separate hb hreturned⟩

theorem OwnerInv.krealloc (hinv : OwnerInv covers exact s Bs) (hlive : ∃ k, (ptr, k) ∈ s.live)
    (hn : n < 2 ^ 47) (hcond : (AllocCall.krealloc ptr n).Careful w covers exact s.heap)
    (hcall : FroggyOs.krealloc w s.heap ptr n = some (ret, h)) :
    ∃ Bs', OwnerInv covers exact ⟨h, (AllocCall.krealloc ptr n).settle ret s.live⟩ Bs' := by
  rw [AllocCall.settle]
  by_cases hzero : n = 0
  · rw [FroggyOs.krealloc, if_pos hzero] at hcall
    obtain ⟨h', hkfree, hret⟩ := Option.bind_eq_some_iff.mp hcall
    cases hret
    rw [if_pos hzero]
    exact hinv.kfree hlive hkfree
  have hcond := hcond hzero
  obtain ⟨k, hk⟩ := hlive
  obtain ⟨b, hb, rfl, -⟩ := hinv.owned.used _ hk
  have hsep := hinv.heap.rep.separate
  rw [SplitsInside, (hinv.heap.header hb).2] at hcond
  split at hcond
  case isTrue hsize =>
    obtain ⟨hfits, hwhole⟩ := hcond
    obtain ⟨h', Bs', hcall', hinv', hcut⟩ := hinv.heap.shrink_spec w hb hzero hsize hfits
    rw [hcall] at hcall'
    cases hcall'
    rw [if_neg hzero, if_neg b.payload_ne_zero]
    refine ⟨Bs', hinv', hinv.owned.cut hsep hb hcut (fun _ => ?_) fun hexact => ?_⟩
    · exact le_splitHead_size hsize (by omega)
    · exact splitTail_of_test (hwhole hexact)
  case isFalse hsize =>
    obtain ⟨hready, hsucceeds, hinside, hcovers⟩ := hcond
    obtain ⟨h', Bs₁, Bs', c, hcall', hinv', hgranted, hsep₁, hreturned, hlarge⟩ :=
      (hinv.heap.grow_spec hb (by omega) hready fun _ => hinside).1 hsucceeds
    rw [hcall] at hcall'
    cases hcall'
    rw [if_neg hzero, if_neg c.payload_ne_zero,
      ← dropOwner_cons_of_ne (hgranted.fresh b hb).symm]
    have howned := hinv.owned.granted hgranted fun h => (hcovers h).trans hlarge
    exact ⟨Bs', hinv', howned.returned hsep₁ ((hgranted.used b).mpr (.inr hb)) hreturned⟩

/-- A call keeps the invariant. -/
theorem OwnerInv.call (hinv : OwnerInv covers exact s Bs) (hlegal : c.Legal s.live)
    (hcond : c.Careful w covers exact s.heap) (hcall : c.result w s.heap = some (ret, h)) :
    ∃ Bs', OwnerInv covers exact ⟨h, c.settle ret s.live⟩ Bs' := by
  cases c with
  | kmalloc n => exact hinv.kmalloc hcond hcall
  | kfree ptr =>
      obtain ⟨h', hkfree, hret⟩ := Option.map_eq_some_iff.mp hcall
      cases hret
      exact hinv.kfree hlegal hkfree
  | krealloc ptr n => exact hinv.krealloc hlegal.1 hlegal.2 hcond hcall

/-- Every run of careful calls keeps it. -/
theorem OwnerRun.inv {cond : Heap → AllocCall → Prop} {start : Heap} (hstart : Started start)
    (hcond : ∀ h c, cond h c → c.Careful w covers exact h) (hrun : OwnerRun w cond start s) :
    ∃ Bs, OwnerInv covers exact s Bs := by
  induction hrun with
  | start =>
      obtain ⟨h₀, size, hinit, hne, hin⟩ := hstart
      refine ⟨_, HeapInv.start hinit hne hin, Owned.nil.mpr ?_⟩
      rintro - b ⟨hused, B, hB, hb⟩
      rw [List.mem_singleton.mp hB, freshBucket, List.mem_singleton] at hb
      rw [hb] at hused
      cases hused
  | call hrun hlegal hc hcall ih =>
      obtain ⟨Bs, hinv⟩ := ih
      exact hinv.call hlegal (hcond _ _ hc) hcall

end Inv

/-! ## Steps of a run -/

namespace OwnerRun

variable {w : PayloadWrites} {cond : Heap → AllocCall → Prop} {start h : Heap} {s : OwnerState}
  {b c : Block} {k n : Nat}

theorem kmalloc (hrun : OwnerRun w cond start s) (hn : n < 2 ^ 47)
    (hcond : cond s.heap (.kmalloc n))
    (hcall : FroggyOs.kmalloc w s.heap n = some (b.payload, h)) :
    OwnerRun w cond start ⟨h, (b.payload, n) :: s.live⟩ := by
  have hstep := hrun.call (c := .kmalloc n) hn hcond hcall
  rw [AllocCall.settle, if_neg b.payload_ne_zero] at hstep
  exact hstep

theorem kfree (hrun : OwnerRun w cond start s) (hlive : (b.payload, k) ∈ s.live)
    (hcond : cond s.heap (.kfree b.payload)) (hcall : FroggyOs.kfree s.heap b.payload = some h) :
    OwnerRun w cond start ⟨h, dropOwner s.live b.payload⟩ :=
  hrun.call (c := .kfree b.payload) ⟨k, hlive⟩ hcond
    (Option.map_eq_some_iff.mpr ⟨h, hcall, rfl⟩)

theorem krealloc (hrun : OwnerRun w cond start s) (hlive : (b.payload, k) ∈ s.live)
    (hne : n ≠ 0) (hn : n < 2 ^ 47) (hcond : cond s.heap (.krealloc b.payload n))
    (hcall : FroggyOs.krealloc w s.heap b.payload n = some (c.payload, h)) :
    OwnerRun w cond start ⟨h, (c.payload, n) :: dropOwner s.live b.payload⟩ := by
  have hstep := hrun.call (c := .krealloc b.payload n) ⟨⟨k, hlive⟩, hn⟩ hcond hcall
  rw [AllocCall.settle, if_neg hne, if_neg c.payload_ne_zero] at hstep
  exact hstep

end OwnerRun

theorem dropOwner_self {ptr n : Nat} : dropOwner [(ptr, n)] ptr = [] := by
  simp [dropOwner]

/-! ## The first request -/

/-- The block that a first request is placed in. -/
def firstBlock (need : Nat) : Block := (splitHead ⟨0x10040, 69508, false⟩ need).use

section FirstRequest

variable {w : PayloadWrites} {n : Nat}

theorem le_requestSize (n : Nat) : n ≤ requestSize n := by
  rw [requestSize]
  split
  case isTrue hsmall => exact Nat.le_of_lt hsmall
  case isFalse => exact Nat.le_refl n

theorem requestSize_le_add (n : Nat) : requestSize n ≤ n + 64 := by
  rw [requestSize]
  split
  case isTrue => exact Nat.le_add_left 64 n
  case isFalse => exact Nat.le_add_right n 64

theorem bootHeap_inv : HeapInv bootHeap [freshBucket 0x10000 69632] := by
  have hbytes : bucketBytes 0x1000 = 69632 := @bucketBytes_eq 0x1000 (by decide)
  have hinv := HeapInv.start kmallocInit_emptyHeap (by decide) emptyHeap_regionInRange
  rw [hbytes] at hinv
  exact hinv

theorem regionReady_of_vmm {h : Heap} (hvmm : h.vmm = bootHeap.vmm) (hn : n ≤ 2 ^ 46) :
    RegionReady h n := by
  intro _
  have hlarge := requestSize_le_add n
  have hbytes := @bucketBytes_eq (requestSize n) (by omega)
  rw [RegionInRange, hvmm, bootHeap_kHeapEnd]
  omega

theorem bootHeap_obtain (hn : pebbleSize n ≤ 69508) :
    ∃ h Bs, obtainPebble bootHeap n = some ((firstBlock (pebbleSize n)).payload, h) ∧
      HeapInv h Bs ∧ h.vmm = bootHeap.vmm ∧
      Granted [freshBucket 0x10000 69632] Bs (firstBlock (pebbleSize n)) := by
  obtain ⟨hmissed, -⟩ | ⟨-, h, Bs, B, c, hB, hc, hcall, hinv, hvmm, hgranted, -⟩ :=
    bootHeap_inv.search n
  · refine absurd ((served_iff bootHeap_inv.rep).mpr ?_) hmissed
    refine ⟨_, List.mem_singleton_self _, hn, _, List.mem_singleton_self _, ?_⟩
    simp only [fits, Bool.not_false, Bool.true_and, decide_eq_true_eq]
    exact hn
  · rw [List.mem_singleton.mp hB, freshBucket, List.mem_singleton] at hc
    subst hc
    exact ⟨h, Bs, hcall, hinv, hvmm, hgranted⟩

theorem kmalloc_of_obtain {h h' : Heap} {b : Block}
    (hcall : obtainPebble h (requestSize n) = some (b.payload, h')) :
    kmalloc w h n =
      some (b.payload, { h' with mem := w.zero h'.mem b.payload (requestSize n) }) := by
  have hne := b.payload_ne_zero
  rw [kmalloc, hcall]
  simp only [Option.bind_eq_bind, Option.bind_some, hne, ne_eq, not_false_eq_true, if_true]

theorem bootHeap_kmalloc (hn : pebbleSize (requestSize n) ≤ 69508) (hinside : StaysInside w n)
    (hsize : pebbleSize (requestSize n) ≤ (firstBlock (pebbleSize (requestSize n))).size) :
    ∃ h Bs, kmalloc w bootHeap n =
        some ((firstBlock (pebbleSize (requestSize n))).payload, h) ∧
      HeapInv h Bs ∧ h.vmm = bootHeap.vmm ∧
      Granted [freshBucket 0x10000 69632] Bs (firstBlock (pebbleSize (requestSize n))) := by
  obtain ⟨h, Bs, hcall, hinv, hvmm, hgranted⟩ := bootHeap_obtain hn
  exact ⟨_, Bs, kmalloc_of_obtain hcall, hinv.writePayload ((hgranted.used _).mpr (.inl rfl))
    (hinside _ hsize h.mem).1, hvmm, hgranted⟩

/-- A whole page is rounded to itself. -/
theorem pebbleSize_page : pebbleSize (requestSize 4096) = 4096 :=
  @pebbleSize_eq 4096 (by decide)

theorem firstBlock_eq {need : Nat} (haligned : need % 64 = 0) (hneed : need ≤ 65536) :
    firstBlock need = ⟨0x10040, need, true⟩ := by
  have htest : splitPebbleTest 69508 need = true :=
    (splitPebbleTest_iff (by decide) (by omega)).mpr (by omega)
  have hsize : splitSize need = need := by
    rw [splitSize_eq (by omega)]
    omega
  simp only [firstBlock, splitHead, htest, if_true, hsize, Block.use]

end FirstRequest

/-! ## Payloads apart from each other and from the headers -/

/-- A live pointer owns a pebble in use that is as large as what was requested. -/
def OwnsPebble (h : Heap) (ptr n : Nat) : Prop :=
  ∃ bucket pebble, ListedBucket h bucket ∧ ListedPebble h.mem bucket pebble ∧ pebble + 60 = ptr ∧
    isPebbleFree h.mem pebble = false ∧ n ≤ h.mem.get pebble MemoryPebble.size

/-- The live pointers own pebbles of their own, and the bytes requested for one of them
overlap neither those of another one nor a header. -/
structure OwnersApart (s : OwnerState) : Prop where
  distinct : (s.live.map Prod.fst).Nodup
  owns : ∀ e ∈ s.live, OwnsPebble s.heap e.1 e.2
  apart : ∀ d ∈ s.live, ∀ e ∈ s.live, d.1 ≠ e.1 → d.1 + d.2 ≤ e.1 ∨ e.1 + e.2 ≤ d.1
  buckets : ∀ e ∈ s.live, ∀ bucket, ListedBucket s.heap bucket →
    bucket + 64 ≤ e.1 ∨ e.1 + e.2 ≤ bucket
  pebbles : ∀ e ∈ s.live, ∀ bucket pebble, ListedBucket s.heap bucket →
    ListedPebble s.heap.mem bucket pebble → pebble + 60 ≤ e.1 ∨ e.1 + e.2 ≤ pebble

/-- The rounded size covers the request wherever a block is handed out, and the parts of a cut
block fit into it. -/
def AllocCall.Covers (h : Heap) : AllocCall → Prop
  | kmalloc n => RegionReady h n ∧ (Succeeds h n → requestSize n ≤ pebbleSize (requestSize n))
  | kfree _ => True
  | krealloc ptr n => n ≠ 0 →
      if n ≤ pebbleBytes h ptr then SplitsInside h ptr n
      else RegionReady h n ∧ Succeeds h n ∧ requestSize n ≤ pebbleSize (requestSize n)

section Apart

variable {covers exact : Prop} {s : OwnerState} {Bs : List BucketModel} {h start : Heap}
  {c : AllocCall} {n : Nat}

/-- The zero fill and the copy go no further than the rounded size. -/
theorem staysInside_real (hcovers : requestSize n ≤ pebbleSize (requestSize n)) :
    StaysInside .real n := by
  intro b hsize m
  have hn := le_requestSize n
  refine ⟨.memset (hcovers.trans hsize), fun src x hx => memcpy_byte_outside ?_⟩
  simp only [Block.payload, Block.stop] at hx ⊢
  omega

theorem AllocCall.Covers.careful (hc : c.Covers h) : c.Careful .real True False h := by
  have hrequest : ∀ n, requestSize n ≤ pebbleSize (requestSize n) →
      StaysInside .real n ∧ (True → n ≤ pebbleSize (requestSize n)) :=
    fun n hcovers => ⟨staysInside_real hcovers, fun _ => (le_requestSize n).trans hcovers⟩
  cases c with
  | kmalloc n => exact ⟨hc.1, fun hsucceeds => hrequest n (hc.2 hsucceeds)⟩
  | kfree ptr => trivial
  | krealloc ptr n =>
      intro hn
      have hc := hc hn
      split at hc
      case isTrue hsize =>
        rw [if_pos hsize]
        exact ⟨hc, fun hexact => hexact.elim⟩
      case isFalse hsize =>
        rw [if_neg hsize]
        exact ⟨hc.1, hc.2.1, hrequest n hc.2.2⟩

/-- Blocks in use that cover what was requested. -/
theorem OwnerInv.ownersApart (hinv : OwnerInv True exact s Bs) : OwnersApart s := by
  have hrep := hinv.heap.rep
  have hsep := hrep.separate
  constructor
  case distinct => exact hinv.owned.nodup
  case owns =>
    intro e he
    obtain ⟨b, ⟨hused, B, hB, hb⟩, hpayload, hsize⟩ := hinv.owned.used e he
    obtain ⟨prev, next, hpebble⟩ := (hrep.body hB).pebble hb
    refine ⟨B.base, b.addr, (listedBucket_iff hrep).mpr ⟨B, hB, rfl⟩,
      (listedPebble_iff (hrep.body hB) (hrep.wf B hB)).mpr ⟨b, hb, rfl⟩, hpayload, ?_, ?_⟩
    · rw [← Bool.not_eq_true, hpebble.isPebbleFree_iff, hused]
      simp
    · rw [hpebble.size]
      exact hsize trivial
  case apart =>
    intro d hd e he hne
    obtain ⟨b, hb, hbpayload, hbsize⟩ := hinv.owned.used d hd
    obtain ⟨c, hc, hcpayload, hcsize⟩ := hinv.owned.used e he
    have hbc : b ≠ c := by
      rintro rfl
      exact hne (hbpayload.symm.trans hcpayload)
    obtain ⟨-, B, hB, hb⟩ := hb
    obtain ⟨-, C, hC, hc⟩ := hc
    have hbsize := hbsize trivial
    have hcsize := hcsize trivial
    have hapart := hsep.blocks_apart hB hC hb hc hbc
    simp only [Block.payload, Block.stop] at hbpayload hcpayload hapart
    omega
  case buckets =>
    intro e he bucket hbucket
    obtain ⟨C, hC, rfl⟩ := (listedBucket_iff hrep).mp hbucket
    obtain ⟨b, ⟨-, B, hB, hb⟩, hpayload, hsize⟩ := hinv.owned.used e he
    have hsize := hsize trivial
    have hapart := hsep.payload_apart_bucket hB hC hb
    simp only [Block.payload, Block.stop] at hpayload hapart
    omega
  case pebbles =>
    intro e he bucket pebble hbucket hpebble
    obtain ⟨C, hC, rfl⟩ := (listedBucket_iff hrep).mp hbucket
    obtain ⟨c, hc, rfl⟩ := (listedPebble_iff (hrep.body hC) (hrep.wf C hC)).mp hpebble
    obtain ⟨b, ⟨-, B, hB, hb⟩, hpayload, hsize⟩ := hinv.owned.used e he
    have hsize := hsize trivial
    have hapart := hsep.payload_apart_pebble hB hC hb hc
    simp only [Block.payload, Block.stop] at hpayload hapart
    omega

/-- In every run whose requests are covered by the rounded sizes the owners are apart. -/
theorem ownerRun_ownersApart (hstart : Started start)
    (hrun : OwnerRun .real (fun h c => c.Covers h) start s) : OwnersApart s := by
  obtain ⟨Bs, hinv⟩ := hrun.inv hstart fun h c hc => AllocCall.Covers.careful hc
  exact hinv.ownersApart

/-- Whole pages for a first caller. -/
theorem bootHeap_pages {n : Nat} (haligned : n % 4096 = 0) (hpos : 0 < n) (hn : n ≤ 65536) :
    ∃ h Bs, kmalloc .real bootHeap n = some (0x1007C, h) ∧
      (AllocCall.kmalloc n).Covers bootHeap ∧ HeapInv h Bs ∧ h.vmm = bootHeap.vmm ∧
      Used Bs ⟨0x10040, n, true⟩ := by
  have hrequest : requestSize n = n := if_neg (show ¬ n < 64 by omega)
  have hrounded : pebbleSize (requestSize n) = n := by
    rw [hrequest, pebbleSize_eq (by omega)]
    omega
  have hcovers : requestSize n ≤ pebbleSize (requestSize n) := by rw [hrounded, hrequest]
  have hblock := @firstBlock_eq n (by omega) hn
  obtain ⟨h, Bs, hcall, hinv, hvmm, hgranted⟩ := bootHeap_kmalloc
    (hrounded.trans_le (by omega)) (staysInside_real hcovers) (by rw [hrounded, hblock])
  rw [hrounded, hblock] at hcall hgranted
  exact ⟨h, Bs, hcall, ⟨regionReady_of_vmm rfl (by omega), fun _ => hcovers⟩, hinv, hvmm,
    (hgranted.used _).mpr (.inl rfl)⟩

/-- A page that a first caller owns. -/
theorem bootHeap_page : ∃ h Bs, OwnerRun .real (fun h c => c.Covers h) bootHeap
      ⟨h, [((⟨0x10040, 4096, true⟩ : Block).payload, 4096)]⟩ ∧
    HeapInv h Bs ∧ h.vmm = bootHeap.vmm ∧ Used Bs ⟨0x10040, 4096, true⟩ := by
  obtain ⟨h, Bs, hcall, hcovers, hinv, hvmm, hused⟩ :=
    @bootHeap_pages 4096 (by decide) (by decide) (by decide)
  exact ⟨h, Bs, OwnerRun.start.kmalloc (by decide) hcovers hcall, hinv, hvmm, hused⟩

/-- A further page, from a bucket of the list or a new one. -/
theorem HeapInv.kmalloc_page (hinv : HeapInv h Bs) (hvmm : h.vmm = bootHeap.vmm) :
    (AllocCall.kmalloc 4096).Covers h ∧ ∃ h' Bs' b, kmalloc .real h 4096 = some (b.payload, h') ∧
      HeapInv h' Bs' ∧ Granted Bs Bs' b := by
  have hcovers : requestSize 4096 ≤ pebbleSize (requestSize 4096) := by
    rw [pebbleSize_page]
    decide
  have hready : RegionReady h 4096 := regionReady_of_vmm hvmm (by decide)
  have hsucceeds : Succeeds h 4096 := by
    have hregion : bucketBytes (requestSize 4096) = 69632 := @bucketBytes_eq 4096 (by decide)
    intro _
    rw [pebbleSize_page, hregion]
    decide
  obtain ⟨h', Bs', b, hcall, hinv', hgranted, -⟩ :=
    (hinv.kmalloc_spec hready fun _ => staysInside_real hcovers).1 hsucceeds
  exact ⟨⟨hready, fun _ => hcovers⟩, h', Bs', b, hcall, hinv', hgranted⟩

theorem page_ownersApart : ∃ s p q, OwnerRun .real (fun h c => c.Covers h) bootHeap s ∧
    (p, 4096) ∈ s.live ∧ (q, 4096) ∈ s.live ∧ p ≠ q ∧ OwnersApart s := by
  obtain ⟨h, Bs, hrun, hinv, hvmm, -⟩ := bootHeap_page
  obtain ⟨hcovers, h', Bs', b, hcall, -⟩ := hinv.kmalloc_page hvmm
  have htwice := hrun.kmalloc (by decide) hcovers hcall
  have hapart := ownerRun_ownersApart bootHeap_started htwice
  have hdistinct := hapart.distinct
  refine ⟨_, _, _, htwice, List.mem_cons_self, List.mem_cons_of_mem _ List.mem_cons_self, ?_,
    hapart⟩
  exact fun heq => (List.nodup_cons.mp hdistinct).1 (heq ▸ List.mem_cons_self)

/-- 100 bytes are rounded down to a pebble of 0 bytes. -/
theorem not_ownersApart :
    ∃ s, OwnerRun .real (fun _ _ => True) bootHeap s ∧ ¬ OwnersApart s := by
  have hrounded : pebbleSize (requestSize 100) = 0 := @pebbleSize_eq 100 (by decide)
  obtain ⟨h, Bs, hcall, hinv, -, hgranted⟩ := @bootHeap_obtain (requestSize 100) (by omega)
  have hkmalloc := kmalloc_of_obtain (w := .real) hcall
  refine ⟨_, OwnerRun.start.kmalloc (by decide) trivial hkmalloc, fun hapart => ?_⟩
  obtain ⟨bucket, pebble, -, -, hpebble, -, hsize⟩ := hapart.owns _ List.mem_cons_self
  obtain ⟨B, -, prev, next, hat⟩ := hinv.rep.used_pebble ((hgranted.used _).mpr (.inl rfl))
  rw [hrounded, firstBlock_eq (by decide) (by decide)] at hat hpebble hsize
  obtain rfl : pebble = 0x10040 := Nat.add_right_cancel hpebble
  -- the zero fill starts behind the header of the pebble
  have hkept : (memset h.mem (0x10040 + 60) 0 100).get 0x10040 MemoryPebble.size = 0 :=
    (Mem.load_fill_disjoint (by simp)).trans hat.size
  have hempty : 100 ≤ 0 := hsize.trans_eq hkept
  omega

end Apart

/-! ## No leak -/

/-- The bucket consists of one free pebble that reaches from its header to its end. -/
structure WholeFreePebble (m : Mem) (bucket : Nat) : Prop where
  only : ∀ p, ListedPebble m bucket p ↔ p = bucket + 64
  free : isPebbleFree m (bucket + 64) = true
  spans : bucket + 64 + 60 + m.get (bucket + 64) MemoryPebble.size =
    bucket + 4096 * m.get bucket MemoryBucket.size

/-- No block in use is cut, and a new block is found for every larger size. -/
def AllocCall.Uncut (h : Heap) : AllocCall → Prop
  | kmalloc n => RegionReady h n
  | kfree _ => True
  | krealloc ptr n => n ≠ 0 →
      if n ≤ pebbleBytes h ptr then splitPebbleTest (pebbleBytes h ptr) n = false
      else RegionReady h n ∧ Succeeds h n

section NoLeak

variable {s : OwnerState} {Bs : List BucketModel} {h start : Heap} {c : AllocCall} {n : Nat}

theorem staysInside_none (n : Nat) : StaysInside .none n :=
  fun b _ m => ⟨.refl b m, fun _ => .refl b m⟩

theorem AllocCall.Uncut.careful (hc : c.Uncut h) : c.Careful .none False True h := by
  have hrequest : ∀ n, StaysInside .none n ∧ (False → n ≤ pebbleSize (requestSize n)) :=
    fun n => ⟨staysInside_none n, False.elim⟩
  cases c with
  | kmalloc n => exact ⟨hc, fun _ => hrequest n⟩
  | kfree ptr => trivial
  | krealloc ptr n =>
      intro hn
      have hc := hc hn
      split at hc
      case isTrue hsize =>
        rw [if_pos hsize]
        refine ⟨fun htest => ?_, fun _ => hc⟩
        rw [hc] at htest
        cases htest
      case isFalse hsize =>
        rw [if_neg hsize]
        exact ⟨hc.1, hc.2, hrequest n⟩

/-- Free blocks that have no free neighbour are alone. -/
theorem Coalesced.eq_singleton {blocks : List Block} (h : Coalesced blocks) (hne : blocks ≠ [])
    (hfree : ∀ b ∈ blocks, b.inUse = false) : ∃ b, blocks = [b] := by
  obtain ⟨b, rest, rfl⟩ := List.exists_cons_of_ne_nil hne
  cases rest with
  | nil => exact ⟨b, rfl⟩
  | cons c rest =>
      have hb := hfree b (by simp)
      have hc := hfree c (by simp)
      obtain hused | hused := h.tail.2 c rfl
      · rw [hb] at hused
        cases hused
      · rw [hc] at hused
        cases hused

theorem HeapInv.wholeFreePebble (hinv : HeapInv h Bs) (hnone : ∀ b, ¬ Used Bs b) {bucket : Nat}
    (hbucket : ListedBucket h bucket) : WholeFreePebble h.mem bucket := by
  have hrep := hinv.rep
  obtain ⟨B, hB, rfl⟩ := (listedBucket_iff hrep).mp hbucket
  have hwf := hrep.wf B hB
  have hfree : ∀ b ∈ B.blocks, b.inUse = false := by
    intro b hb
    rw [← Bool.not_eq_true]
    exact fun hused => hnone b ⟨hused, B, hB, hb⟩
  obtain ⟨b, hblocks⟩ := (hinv.coalesced B hB).eq_singleton hwf.nonempty hfree
  have htiles := hwf.tiles
  rw [hblocks] at htiles
  obtain ⟨haddr, hstop⟩ := htiles
  have hb : b ∈ B.blocks := by simp [hblocks]
  obtain ⟨prev, next, hpebble⟩ := (hrep.body hB).pebble hb
  constructor
  case only =>
    intro p
    rw [listedPebble_iff (hrep.body hB) hwf, hblocks, ← haddr]
    simp [eq_comm]
  case free =>
    rw [← haddr, hpebble.isPebbleFree_iff, hfree b hb]
    rfl
  case spans =>
    have hsize := (hrep.body hB).size
    have hstop : b.stop = B.stop := hstop
    rw [← haddr, hpebble.size, hsize]
    simp only [Block.stop, BucketModel.stop] at hstop
    omega

/-- The bucket of a block in use is not free. -/
theorem HeapInv.not_wholeFreePebble (hinv : HeapInv h Bs) {b : Block} (hb : Used Bs b) :
    ¬ ∀ bucket, ListedBucket h bucket → WholeFreePebble h.mem bucket := by
  intro hfree
  obtain ⟨hused, B, hB, hb⟩ := hb
  have hwhole := hfree B.base ((listedBucket_iff hinv.rep).mpr ⟨B, hB, rfl⟩)
  have haddr : b.addr = B.base + 64 :=
    (hwhole.only b.addr).mp
      ((listedPebble_iff (hinv.rep.body hB) (hinv.rep.wf B hB)).mpr ⟨b, hb, rfl⟩)
  obtain ⟨prev, next, hpebble⟩ := (hinv.rep.body hB).pebble hb
  have hbit := hwhole.free
  rw [← haddr, hpebble.isPebbleFree_iff, hused] at hbit
  cases hbit

/-- A run without cuts whose pointers have all been given back leaves whole free buckets. -/
theorem ownerRun_noLeak (hstart : Started start)
    (hrun : OwnerRun .none (fun h c => c.Uncut h) start s) (hdone : s.live = []) :
    ∀ bucket, ListedBucket s.heap bucket → WholeFreePebble s.heap.mem bucket := by
  obtain ⟨Bs, hinv⟩ := hrun.inv hstart fun h c hc => AllocCall.Uncut.careful hc
  have howned := hinv.owned
  rw [hdone] at howned
  exact fun bucket hbucket => hinv.heap.wholeFreePebble (Owned.nil.mp howned trivial) hbucket

/-- A page handed out and taken back. -/
theorem bootHeap_noLeak : ∃ ptr h h', kmalloc .none bootHeap 4096 = some (ptr, h) ∧
    kfree h ptr = some h' ∧ ∀ bucket, ListedBucket h' bucket → WholeFreePebble h'.mem bucket := by
  obtain ⟨h, Bs, hcall, hinv, -, hgranted⟩ := bootHeap_kmalloc
    (pebbleSize_page.trans_le (by decide)) (staysInside_none 4096)
    (by rw [pebbleSize_page, firstBlock_eq (by decide) (by decide)])
  have hused := (hgranted.used _).mpr (.inl rfl)
  obtain ⟨h', Bs', hkfree, -⟩ := hinv.kfree_spec hused
  have hready : RegionReady bootHeap 4096 := regionReady_of_vmm rfl (by decide)
  have hrun : OwnerRun .none (fun h c => c.Uncut h) bootHeap _ :=
    OwnerRun.start.kmalloc (by decide) hready hcall
  have hdone := hrun.kfree List.mem_cons_self trivial hkfree
  have hwhole := ownerRun_noLeak bootHeap_started hdone dropOwner_self
  exact ⟨_, h, h', hcall, hkfree, hwhole⟩

/-- Cut to 64 bytes and freed, the page leaves a pebble in use that nobody can free. -/
theorem not_noLeak : ∃ s, OwnerRun .none (fun _ _ => True) bootHeap s ∧ s.live = [] ∧
    ¬ ∀ bucket, ListedBucket s.heap bucket → WholeFreePebble s.heap.mem bucket := by
  have hblock := @firstBlock_eq 4096 (by decide) (by decide)
  obtain ⟨h₁, Bs₁, hcall₁, hinv₁, -, hgranted⟩ := bootHeap_kmalloc
    (pebbleSize_page.trans_le (by decide)) (staysInside_none 4096)
    (by rw [pebbleSize_page, hblock])
  rw [pebbleSize_page, hblock] at hcall₁ hgranted
  have hused := (hgranted.used _).mpr (.inl rfl)
  have htest : splitPebbleTest 4096 64 = true :=
    (splitPebbleTest_iff (by decide) (by decide)).mpr (by decide)
  have hcutSize : splitSize 64 = 64 := @splitSize_eq 64 (by decide)
  obtain ⟨h₂, Bs₂, hcall₂, hinv₂, hcut⟩ := hinv₁.shrink_spec .none hused (n := 64) (by decide)
    (by decide) (fun _ => by rw [hcutSize]; decide)
  simp only [Cut, splitHead, splitTail, htest, if_true, hcutSize] at hcut
  obtain ⟨h₃, Bs₃, hcall₃, hinv₃, hreturned, -⟩ :=
    hinv₂.kfree_spec ((hcut _).mpr (.inr List.mem_cons_self))
  have htail := (hreturned _).mpr
    ⟨(hcut _).mpr (.inr (List.mem_cons_of_mem _ List.mem_cons_self)), by simp⟩
  have hrun₁ : OwnerRun .none (fun _ _ => True) bootHeap _ :=
    OwnerRun.start.kmalloc (by decide) trivial hcall₁
  have hrun₂ := hrun₁.krealloc List.mem_cons_self (by decide) (by decide) trivial hcall₂
  have hrun₃ := hrun₂.kfree List.mem_cons_self trivial hcall₃
  refine ⟨_, hrun₃, ?_, hinv₃.not_wholeFreePebble htail⟩
  dsimp only
  rw [dropOwner_self]
  exact dropOwner_self

end NoLeak

end FroggyOs
