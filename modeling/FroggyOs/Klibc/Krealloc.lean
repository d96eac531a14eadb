import FroggyOs.Klibc.Owners

/-!
# What `krealloc` does to the old block

When the size grows, `krealloc` asks `kmalloc` for a new block, copies as many bytes as the
new size has, and frees the old block. The copy is made only if there is a new block, the
old block is freed in any case. So the calls that return `NULL` have taken the pointer from
its owner (`kreallocAtomic_iff`), and those that do not have read behind the old payload
(`not_kreallocKeepsContents`).
-/

namespace FroggyOs

open ByteMemory Word64 LinkedChain

attribute [local irreducible] bucketUpdateLargest placePebble searchBuckets chosenPebble
  bucketBytes popFrameList mapToPage pebbleSize placeSection

/-! ## A failed `krealloc` -/

/-- Calls that leave `ptr` to its owner. -/
def LaterHeap (ptr : Nat) : Heap → Heap → Prop :=
  Relation.ReflTransGen fun h h' => ∃ (c : AllocCall) (ret : Nat),
    c ≠ .kfree ptr ∧ (∀ n, c ≠ .krealloc ptr n) ∧ c.result .real h = some (ret, h')

/-- The pebble of `ptr` is in use with its size and contents, and until it is freed nobody
else is given its memory. -/
structure KeepsPointer (h h' : Heap) (ptr : Nat) : Prop where
  inUse : isPebbleFree h'.mem (sub64 ptr MemoryPebble.sizeof) = false
  size : pebbleBytes h' ptr = pebbleBytes h ptr
  contents : ∀ x, ptr ≤ x → x < ptr + pebbleBytes h ptr → h'.mem.byte x = h.mem.byte x
  reserved : ∀ h₁ h₂ n q, LaterHeap ptr h' h₁ → kmalloc .real h₁ n = some (q, h₂) → q ≠ 0 →
    q + n ≤ ptr ∨ ptr + pebbleBytes h ptr ≤ q

/-- If `krealloc` returns `NULL` the pointer stays with its owner. -/
def KreallocAtomic (h : Heap) (ptr size : Nat) : Prop :=
  ∀ h', krealloc .real h ptr size = some (0, h') → KeepsPointer h h' ptr

section Atomic

variable {w : PayloadWrites} {h h' start : Heap} {Bs : List BucketModel} {b : Block}
  {s : OwnerState} {ptr k n size : Nat}

/-- On a pebble that is large enough `krealloc` returns the pointer. -/
theorem HeapInv.krealloc_of_le (hinv : HeapInv h Bs) (hb : Used Bs b) (hn : n ≠ 0)
    (hsize : n ≤ pebbleBytes h b.payload) {ret : Nat}
    (hcall : krealloc w h b.payload n = some (ret, h')) : ret = b.payload := by
  have hlt := hinv.payload_lt hb
  have hmagic := (hinv.header hb).1
  rw [pebbleBytes, b.sub64_payload hlt] at hsize
  rw [b.sub64_payload hlt] at hmagic
  rw [krealloc, if_neg hn, if_neg b.payload_ne_zero, b.sub64_payload hlt] at hcall
  simp only [hmagic, ne_eq, not_true_eq_false, if_false, hsize, if_true, b.add64_addr hlt] at hcall
  obtain ⟨m, -, hret⟩ := Option.bind_eq_some_iff.mp hcall
  cases hret
  rfl

/-- A request that succeeds is handed out, whatever the zero fill overwrites. -/
theorem HeapInv.kmalloc_of_succeeds (hinv : HeapInv h Bs) (hready : RegionReady h n)
    (hsucceeds : Succeeds h n) : ∃ (c : Block) (h₁ : Heap),
      kmalloc w h n = some (c.payload, h₁) := by
  obtain ⟨h₁, Bs₁, c, hcall, -⟩ := (hinv.obtain_spec hready).1 hsucceeds
  exact ⟨c, _, kmalloc_of_obtain hcall⟩

/-- A request that fails takes the pointer from its owner. -/
theorem HeapInv.taken_of_fails (hinv : HeapInv h Bs) (hb : Used Bs b) (hsize : b.size < n)
    (hready : RegionReady h n) (hfails : ¬ Succeeds h n) : ¬ KreallocAtomic h b.payload n := by
  intro hatomic
  obtain ⟨h', Bs', hcall, -, hflags⟩ :=
    (hinv.grow_spec (w := .real) hb hsize hready (absurd · hfails)).2 hfails
  have hused := (hatomic h' hcall).inUse
  rw [b.sub64_payload (hinv.payload_lt hb), isPebbleFree, hflags] at hused
  exact absurd hused (by decide)

/-- Exactly the calls that find a larger block, or need none, are atomic. -/
theorem kreallocAtomic_iff (hstart : Started start)
    (hrun : OwnerRun .real (fun h c => c.Covers h) start s) (hlive : (ptr, k) ∈ s.live)
    (hne : size ≠ 0) (hready : RegionReady s.heap size) :
    KreallocAtomic s.heap ptr size ↔ size ≤ pebbleBytes s.heap ptr ∨ Succeeds s.heap size := by
  obtain ⟨Bs, hinv⟩ := hrun.inv hstart fun h c hc => AllocCall.Covers.careful hc
  obtain ⟨b, hb, rfl, -⟩ := hinv.owned.used _ hlive
  obtain ⟨hmagic, hbytes⟩ := hinv.heap.header hb
  constructor
  · intro hatomic
    by_contra hnot
    obtain ⟨hsize, hfails⟩ := not_or.mp hnot
    exact hinv.heap.taken_of_fails hb (by omega) hready hfails hatomic
  · intro hcond h' hcall
    by_cases hsize : size ≤ pebbleBytes s.heap b.payload
    · exact absurd (hinv.heap.krealloc_of_le hb hne hsize hcall).symm b.payload_ne_zero
    · obtain ⟨c, h₁, hkmalloc⟩ :=
        hinv.heap.kmalloc_of_succeeds (w := .real) hready (hcond.resolve_left hsize)
      rw [krealloc_of_lt b.payload_ne_zero hmagic (by omega) hkmalloc] at hcall
      obtain ⟨_, -, hret⟩ := Option.map_eq_some_iff.mp hcall
      exact absurd (Prod.ext_iff.mp hret).1 c.payload_ne_zero

/-- Two pages fit into a new bucket. -/
theorem succeeds_twoPages (h : Heap) : Succeeds h 8192 := by
  have hrounded : pebbleSize (requestSize 8192) = 8192 := @pebbleSize_eq 8192 (by decide)
  have hregion : bucketBytes (requestSize 8192) = 69632 := @bucketBytes_eq 8192 (by decide)
  intro _
  rw [hrounded, hregion]
  decide

/-- A page that grows to two. -/
theorem page_kreallocAtomic : ∃ s ptr, OwnerRun .real (fun h c => c.Covers h) bootHeap s ∧
    (ptr, 4096) ∈ s.live ∧ pebbleBytes s.heap ptr < 8192 ∧ KreallocAtomic s.heap ptr 8192 := by
  obtain ⟨h, Bs, hrun, hinv, hvmm, hused⟩ := bootHeap_page
  have hbytes := (hinv.header hused).2
  refine ⟨_, _, hrun, List.mem_cons_self, hbytes.trans_lt (by decide),
    (kreallocAtomic_iff bootHeap_started hrun List.mem_cons_self (by decide)
      (regionReady_of_vmm hvmm (by decide))).mpr (.inr (succeeds_twoPages h))⟩

/-- 1 MiB fits neither into the first bucket nor, with the headers, into the pages that
`create_bucket` asks for. -/
theorem not_kreallocAtomic : ∃ s ptr, OwnerRun .real (fun h c => c.Covers h) bootHeap s ∧
    (ptr, 4096) ∈ s.live ∧ ¬ KreallocAtomic s.heap ptr 0x100000 := by
  obtain ⟨h, Bs, hrun, hinv, hvmm, hused⟩ := bootHeap_page
  refine ⟨_, _, hrun, List.mem_cons_self, hinv.taken_of_fails hused (by decide)
    (regionReady_of_vmm hvmm (by decide)) fun hsucceeds => ?_⟩
  have hrounded : pebbleSize (requestSize 0x100000) = 0x100000 :=
    @pebbleSize_eq 0x100000 (by decide)
  have hbytes : bucketBytes (requestSize 0x100000) = 0x100000 :=
    @bucketBytes_eq 0x100000 (by decide)
  rw [Succeeds, hrounded, hbytes] at hsucceeds
  refine absurd (hsucceeds fun hserved => ?_) (by decide)
  obtain ⟨B, hB, -, c, hc, hfits⟩ := (served_iff hinv.rep).mp hserved
  have hbounds := (hinv.rep.wf B hB).block_bounds hc
  have hbelow := hinv.below B hB
  rw [hvmm, bootHeap_kHeapEnd] at hbelow
  simp only [fits, Bool.and_eq_true, decide_eq_true_eq] at hfits
  omega

end Atomic

/-! ## The contents of the block -/

/-- `krealloc` with a log of the payload bytes that it loads, which its `memcpy` does. The headers
that it looks at itself, in `kmalloc` and in `kfree` are not logged. -/
def kreallocLogged (h : Heap) (ptr size : Nat) :
    Option ((Nat × Heap) × List (Nat × UInt8)) :=
  if size = 0 then do
    let h ← kfree h ptr
    some ((0, h), [])
  else if ptr = 0 then do
    let result ← kmalloc .real h size
    some (result, [])
  else
    let pebble := sub64 ptr MemoryPebble.sizeof
    if h.mem.get pebble MemoryPebble.magic ≠ kmallocMagicPebble then some ((0, h), [])
    else if size ≤ h.mem.get pebble MemoryPebble.size then do
      let m ← acquireSpinlock h.mem (bucketSpinlock (h.mem.get pebble MemoryPebble.parent))
      let m := shrinkPebble m pebble size
      let ret := add64 pebble MemoryPebble.sizeof
      let m := releaseSpinlock m (bucketSpinlock (m.get pebble MemoryPebble.parent))
      some ((ret, { h with mem := m }), [])
    else do
      let result ← kmalloc .real h size
      let h := result.2
      let (mem, loads) :=
        if result.1 ≠ 0 then memcpyLogged h.mem result.1 ptr size else (h.mem, [])
      let h ← kfree { h with mem } ptr
      some ((result.1, h), loads)

/-- `krealloc` returns a block that starts with the payload of the old one. It has loaded no
other payload byte and has written to no other payload that is live. -/
def KreallocKeepsContents (s : OwnerState) (ptr size : Nat) : Prop :=
  ∃ ret h' loads, kreallocLogged s.heap ptr size = some ((ret, h'), loads) ∧
    (∀ load ∈ loads, load.1 ∈ Mem.range ptr (pebbleBytes s.heap ptr)) ∧
    (∀ i < pebbleBytes s.heap ptr, h'.mem.byte (ret + i) = s.heap.mem.byte (ptr + i)) ∧
    ∀ e ∈ s.live, e.1 ≠ ptr → ∀ x ∈ Mem.range e.1 (pebbleBytes s.heap e.1),
      h'.mem.byte x = s.heap.mem.byte x

section Contents

variable {s : OwnerState} {h h' h₁ : Heap} {ptr ret r size x : Nat} {value : UInt8}
  {loads : List (Nat × UInt8)}

/-- The log is one of the loads of `krealloc`. -/
theorem kreallocLogged_fst (h : Heap) (ptr size : Nat) :
    (kreallocLogged h ptr size).map Prod.fst = krealloc .real h ptr size := by
  rw [kreallocLogged, krealloc]
  split
  case isTrue => cases kfree h ptr <;> rfl
  case isFalse =>
    split
    case isTrue => cases kmalloc .real h size <;> rfl
    case isFalse =>
      dsimp only
      split
      case isTrue => rfl
      case isFalse =>
        split
        case isTrue =>
          cases acquireSpinlock h.mem (bucketSpinlock (h.mem.get (sub64 ptr MemoryPebble.sizeof)
            MemoryPebble.parent)) <;> rfl
        case isFalse =>
          cases kmalloc .real h size with
          | none => rfl
          | some result =>
              simp only [Option.bind_eq_bind, Option.bind_some]
              split
              case isTrue hret =>
                rw [memcpyLogged_fst]
                simp only [PayloadWrites.real]
                cases kfree { result.2 with mem := memcpy result.2.mem result.1 ptr size } ptr <;>
                  rfl
              case isFalse hret => cases kfree result.2 ptr <;> rfl

/-- A call that gets a larger block loads as many bytes as the new size has, from the old payload
on, and each of them is in the copy. -/
theorem kreallocLogged_loads
    (hmagic : h.mem.get (sub64 ptr MemoryPebble.sizeof) MemoryPebble.magic = kmallocMagicPebble)
    (hptr : ptr ≠ 0) (hsize : pebbleBytes h ptr < size)
    (hkmalloc : kmalloc .real h size = some (r, h₁)) (hr : r ≠ 0)
    (hcall : kreallocLogged h ptr size = some ((ret, h'), loads)) :
    (x, value) ∈ loads ↔
      ∃ i < size, x = ptr + i ∧ value = (memcpy h₁.mem r ptr size).byte (r + i) := by
  have hlarger : ¬ size ≤ h.mem.get (sub64 ptr MemoryPebble.sizeof) MemoryPebble.size :=
    Nat.not_le_of_lt hsize
  rw [kreallocLogged, if_neg (Nat.ne_of_gt (Nat.zero_lt_of_lt hsize)), if_neg hptr] at hcall
  dsimp only at hcall
  rw [if_neg (not_not.mpr hmagic), if_neg hlarger, hkmalloc] at hcall
  simp only [Option.bind_eq_bind, Option.bind_some] at hcall
  rw [if_pos hr] at hcall
  obtain ⟨h₂, -, hsome⟩ := Option.bind_eq_some_iff.mp hcall
  cases hsome
  exact mem_memcpyLogged

/-- No call that gets a larger block leaves what lies behind the old payload alone. -/
theorem not_kreallocKeepsContents
    (hmagic : s.heap.mem.get (sub64 ptr MemoryPebble.sizeof) MemoryPebble.magic =
      kmallocMagicPebble)
    (hptr : ptr ≠ 0) (hsize : pebbleBytes s.heap ptr < size)
    (hcall : kmalloc .real s.heap size = some (ret, h₁)) (hret : ret ≠ 0) :
    ¬ KreallocKeepsContents s ptr size := by
  rintro ⟨_, _, loads, hlogged, hown, -, -⟩
  -- the byte behind the old payload is loaded
  have hbehind := (kreallocLogged_loads hmagic hptr hsize hcall hret hlogged).mpr
    ⟨pebbleBytes s.heap ptr, hsize, rfl, rfl⟩
  exact (hown _ hbehind).2.false

/-- The page of a first caller can grow to two pages. -/
theorem page_grows : ∃ (s : OwnerState) (ptr ret : Nat) (h₁ : Heap),
    OwnerRun .real (fun h c => c.Covers h) bootHeap s ∧ (ptr, 4096) ∈ s.live ∧ ptr ≠ 0 ∧
      s.heap.mem.get (sub64 ptr MemoryPebble.sizeof) MemoryPebble.magic = kmallocMagicPebble ∧
      pebbleBytes s.heap ptr < 8192 ∧ kmalloc .real s.heap 8192 = some (ret, h₁) ∧ ret ≠ 0 ∧
      (kreallocLogged s.heap ptr 8192).isSome := by
  obtain ⟨h, Bs, hrun, hinv, hvmm, hused⟩ := bootHeap_page
  obtain ⟨hmagic, hbytes⟩ := hinv.header hused
  have hready : RegionReady h 8192 := regionReady_of_vmm hvmm (by decide)
  have hrounded : pebbleSize (requestSize 8192) = 8192 := @pebbleSize_eq 8192 (by decide)
  have hcovers : requestSize 8192 ≤ pebbleSize (requestSize 8192) := by
    rw [hrounded]
    decide
  obtain ⟨c, h₁, hcall⟩ := hinv.kmalloc_of_succeeds hready (succeeds_twoPages h)
  obtain ⟨h', -, -, c', hgrown, -⟩ := (hinv.grow_spec hused (by decide) hready
    fun _ => staysInside_real hcovers).1 (succeeds_twoPages h)
  refine ⟨_, _, c.payload, h₁, hrun, List.mem_cons_self, Block.payload_ne_zero _, hmagic, ?_,
    hcall, c.payload_ne_zero, ?_⟩
  · rw [hbytes]
    decide
  · rw [← Option.isSome_map, kreallocLogged_fst, hgrown]
    rfl

/-- The call returns, and has read behind the page. -/
theorem page_not_kreallocKeepsContents : ∃ s ptr,
    OwnerRun .real (fun h c => c.Covers h) bootHeap s ∧ (ptr, 4096) ∈ s.live ∧
      (kreallocLogged s.heap ptr 8192).isSome ∧ ¬ KreallocKeepsContents s ptr 8192 := by
  obtain ⟨s, ptr, ret, h₁, hrun, hlive, hptr, hmagic, hsize, hcall, hret, hreturns⟩ := page_grows
  exact ⟨s, ptr, hrun, hlive, hreturns, not_kreallocKeepsContents hmagic hptr hsize hcall hret⟩

/-- Growing a page to two reads the page behind it. -/
theorem not_page_kreallocKeepsContents : ¬ ∀ s ptr ret h₁,
    OwnerRun .real (fun h c => c.Covers h) bootHeap s → (ptr, 4096) ∈ s.live →
      pebbleBytes s.heap ptr < 8192 → kmalloc .real s.heap 8192 = some (ret, h₁) → ret ≠ 0 →
        KreallocKeepsContents s ptr 8192 := by
  intro hkeeps
  obtain ⟨s, ptr, ret, h₁, hrun, hlive, hptr, hmagic, hsize, hcall, hret, -⟩ := page_grows
  obtain ⟨_, _, loads, hlogged, hown, -, -⟩ := hkeeps s ptr ret h₁ hrun hlive hsize hcall hret
  have hbehind := (kreallocLogged_loads hmagic hptr hsize hcall hret hlogged).mpr
    ⟨pebbleBytes s.heap ptr, hsize, rfl, rfl⟩
  exact (hown _ hbehind).2.false

end Contents

end FroggyOs
