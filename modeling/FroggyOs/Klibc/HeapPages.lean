import FroggyOs.Klibc.NestedCalls
import FroggyOs.Vmm.PagedMemory

/-!
# How much of the heap is mapped

`create_bucket` asks `mmap` for a number of pages, and `mmap` takes this number for one of bytes
when it visits the pages of the region. Of a bucket of `n` pages it maps the first
`(n + 4095) / 4096`. Nothing else ever maps a page of the heap, so this is what is mapped of a
bucket in every run, but for a page that it shares with the region behind it. In a bucket of up to
4096 pages no pebble of a page or more is mapped as a whole (`allocatorRun_mapped`).

The heap is taken to stay within `2 ^ 47` bytes of its start, as it does in the upper half of the
address space; two of its pages then differ in the address bits that are translated.
-/

namespace FroggyOs

open ByteMemory Word64 LinkedChain Simulation Objects

attribute [local irreducible] bucketUpdateLargest placePebble searchBuckets chosenPebble
  bucketBytes popFrameList mapToPage pebbleSize placeSection

/-! ## The regions and their pages -/

/-- The regions that `mmap` has made from `start` on, the last one first, each with its length in
pages. Above the page of `start` no page is mapped that their making has not visited. -/
structure OnlyVisited (start : Nat) (v : Vmm) (made : List (Nat × Nat)) : Prop where
  ready : v.paging.Ready
  supply : ∃ supply, HasSupply v supply
  end_le : start ≤ v.kHeapEnd.toNat
  above : ∀ r ∈ made, start ≤ r.1
  below : ∀ r ∈ made, r.1 + 4096 * r.2 ≤ v.kHeapEnd.toNat
  apart : made.Pairwise fun r t => t.1 + 4096 * t.2 ≤ r.1
  visited : ∀ y, start ≤ y → y < start + 2 ^ 47 → (v.paging.translate y).isSome →
    pageNumber y = pageNumber start ∨
      ∃ r ∈ made, ∃ page ∈ visitedPages r.1 r.2, pageNumber y = pageNumber page

section Regions

variable {v v' : Vmm} {start n ptr : Nat} {made : List (Nat × Nat)} {supply : FrameSupply}

theorem visitedPages_offset {page : Nat} (h : page ∈ visitedPages start n) :
    ∃ i, i < (n + 4095) / 4096 ∧ page = start + 4096 * i := by
  rw [visitedPages, List.mem_range'] at h
  obtain ⟨i, hi, rfl⟩ := h
  split at hi
  · exact ⟨i, hi, rfl⟩
  · cases hi

theorem foldl_visitPage_left {pages : List Nat} (h : v.paging.Ready)
    (hpages : ∀ page ∈ pages, page ≠ 0) (hsupply : HasSupply v supply) :
    (pages.foldl Vmm.visitPage v).paging.Ready ∧
      ∃ supply', HasSupply (pages.foldl Vmm.visitPage v) supply' := by
  induction pages generalizing v supply with
  | nil => exact ⟨h, supply, hsupply⟩
  | cons page rest ih =>
      obtain ⟨supply', hvisit⟩ := visitPage_step h (hpages page List.mem_cons_self) hsupply
      exact ih hvisit.step.ready (fun p hp => hpages p (List.mem_cons_of_mem _ hp)) hvisit.left

/-- A region is made at the heap end. -/
theorem OnlyVisited.mmap (h : OnlyVisited start v made) (hne : v.kHeapEnd.toNat ≠ 0)
    (hfits : v.kHeapEnd.toNat + 4096 * n < 2 ^ 64)
    (hmmap : v.mmap n = some (v.kHeapEnd.toNat, v')) :
    OnlyVisited start v' ((v.kHeapEnd.toNat, n) :: made) := by
  obtain ⟨supply, hsupply⟩ := h.supply
  have hend := (mmap_kHeapEnd (by omega) hmmap hne).2
  rw [Nat.mod_eq_of_lt hfits] at hend
  obtain ⟨-, -, hv'⟩ := mmap_eq_some (by omega) hmmap hne
  have hpages : ∀ page ∈ visitedPages v.kHeapEnd.toNat n, page ≠ 0 := by
    intro page hpage
    have := (mem_visitedPages hpage).1
    omega
  have hready : (Vmm.growHeap v n).2.paging.Ready := h.ready
  have hsupply' : HasSupply (Vmm.growHeap v n).2 supply := hsupply
  obtain ⟨hready', hleft⟩ := foldl_visitPage_left hready hpages hsupply'
  rw [← hv'] at hready' hleft
  refine ⟨hready', hleft, ?_, ?_, ?_, ?_, fun y hlow hhigh hy => ?_⟩
  · have hstart := h.end_le
    omega
  · exact List.forall_mem_cons.mpr ⟨h.end_le, h.above⟩
  · intro r hr
    rw [hend]
    obtain rfl | hr := List.mem_cons.mp hr
    · exact Nat.le_refl _
    · have hbelow := h.below r hr
      omega
  · exact List.pairwise_cons.mpr ⟨h.below, h.apart⟩
  · rw [hv', foldl_growHeap_mapped h.ready hsupply hne] at hy
    obtain hold | ⟨before, page, after, hsplit, hpage, -⟩ := hy
    · obtain hfirst | ⟨r, hr, hvisited⟩ := h.visited y hlow hhigh hold
      · exact .inl hfirst
      · exact .inr ⟨r, List.mem_cons_of_mem _ hr, hvisited⟩
    · exact .inr ⟨_, List.mem_cons_self, page, by simp [hsplit], hpage⟩

/-- A pass of `munmap` maps nothing and leaves the frame list as it is. -/
theorem freePage_keeps (h : v.paging.Ready) (hsupply : HasSupply v supply) (page : Nat) :
    (v.freePage page).paging.Ready ∧ HasSupply (v.freePage page) supply ∧
      ∀ y, ((v.freePage page).paging.translate y).isSome → (v.paging.translate y).isSome := by
  have hpaging : (v.freePage page).paging = (unmapPage v.paging page).2 := by
    rw [Vmm.freePage, unmapPage_fst]
    rfl
  obtain ⟨hframes, hlist⟩ := freePage_frames v page
  by_cases hwrites : UnmapWrites v.paging page
  case neg =>
    obtain ⟨hyes, -⟩ | ⟨-, hsame⟩ := unmapPage_writes v.paging page
    · exact absurd hyes hwrites
    rw [hsame] at hpaging
    rw [hpaging]
    refine ⟨h, ?_, fun y hy => hy⟩
    cases supply <;> rw [HasSupply, hlist, hpaging] <;> exact hsupply
  case pos =>
    obtain ⟨t, ht, hne⟩ := hwrites
    have hspec : TreeStep v.paging (unmapPage v.paging page).2 ∧ _ :=
      unmapPage_spec h.unshared fun u hu => by
        obtain rfl := Option.some.inj (ht.symm.trans hu)
        exact hne
    obtain ⟨hstep, htranslate⟩ := hspec
    obtain ⟨-, htables⟩ := unmapPage_bytes v.paging page hstep
    rw [hpaging]
    refine ⟨h.step hstep, ?_, fun y hy => ?_⟩
    · cases supply with
      | frames stack =>
          have hstock : Stocked v.paging v.frameAlloc stack := hsupply
          rw [HasSupply, hlist, hpaging]
          rw [hpaging] at hframes
          refine ⟨hframes ▸ hstock.rep, hstock.nodup, hstock.usable, fun a ha hs' => ?_⟩
          exact hstock.spare a ha ((htables a hs').resolve_right (by simp))
      | bogus =>
          rw [HasSupply, hlist, hframes]
          exact hsupply
      | nothing =>
          rw [HasSupply, hlist, hframes]
          exact hsupply
    · rw [htranslate y] at hy
      split at hy
      · cases hy
      · exact hy

theorem OnlyVisited.munmap (h : OnlyVisited start v made) (hmunmap : v.munmap ptr n = some v') :
    OnlyVisited start v' made := by
  have hend := munmap_kHeapEnd hmunmap
  obtain ⟨supply, hsupply⟩ := h.supply
  have hloop : v'.paging.Ready ∧ HasSupply v' supply ∧
      ∀ y, (v'.paging.translate y).isSome → (v.paging.translate y).isSome := by
    refine Loop64.upto_induct (P := fun w => w.paging.Ready ∧ HasSupply w supply ∧
      ∀ y, (w.paging.translate y).isSome → (v.paging.translate y).isSome)
      (fun w page ⟨hready, hsupply, hless⟩ => ?_) hmunmap ⟨h.ready, hsupply, fun y hy => hy⟩
    obtain ⟨hready', hsupply', hless'⟩ := freePage_keeps hready hsupply page
    exact ⟨hready', hsupply', fun y hy => hless y (hless' y hy)⟩
  obtain ⟨hready, hsupply', hless⟩ := hloop
  refine ⟨hready, ⟨supply, hsupply'⟩, ?_, h.above, ?_, h.apart, fun y hlow hhigh hy => ?_⟩
  · rw [hend]
    exact h.end_le
  · rw [hend]
    exact h.below
  · exact h.visited y hlow hhigh (hless y hy)

end Regions

/-! ## Calls -/

/-- The buckets of the heap lie in regions that `mmap` has made. -/
structure HeapPages (start : Nat) (h : Heap) (Bs : List BucketModel) (made : List (Nat × Nat)) :
    Prop where
  heap : HeapInv h Bs
  visited : OnlyVisited start h.vmm made
  recorded : ∀ B ∈ Bs, (B.base, B.pages) ∈ made

section Calls

variable {start n ptr ret : Nat} {h h' : Heap} {Bs pre post : List BucketModel}
  {B B' : BucketModel} {made : List (Nat × Nat)} {b : Block}

theorem HeapPages.replace (hp : HeapPages start h (pre ++ B :: post) made)
    (hinv : HeapInv h' (pre ++ B' :: post)) (hvmm : h'.vmm = h.vmm) (hbase : B'.base = B.base)
    (hpages : B'.pages = B.pages) : HeapPages start h' (pre ++ B' :: post) made := by
  refine ⟨hinv, hvmm ▸ hp.visited, forall_replace hp.recorded ?_⟩
  rw [hbase, hpages]
  exact hp.recorded B (by simp)

theorem HeapPages.write {m : Mem} (hp : HeapPages start h Bs made)
    (hinv : HeapInv { h with mem := m } Bs) : HeapPages start { h with mem := m } Bs made :=
  ⟨hinv, hp.visited, hp.recorded⟩

/-- A bucket is made of a region at the heap end. -/
theorem HeapPages.create {size : Nat} {A N : BucketModel} (hp : HeapPages start h (A :: post) made)
    (hinv : HeapInv h' (A :: N :: post)) (hin : RegionInRange h size)
    (hbase : N.base = h.vmm.kHeapEnd.toNat) (hpages : N.pages = bucketBytes size / 4096)
    (hmmap : h.vmm.mmap (bucketBytes size / 4096) = some (h.vmm.kHeapEnd.toNat, h'.vmm)) :
    HeapPages start h' (A :: N :: post)
      ((h.vmm.kHeapEnd.toNat, bucketBytes size / 4096) :: made) := by
  have hbytes := bucketBytes_eq hin.1
  have hregion := hin.2
  have hA := (hp.heap.rep.wf A List.mem_cons_self).base_lt_stop
  have hbelow := hp.heap.below A List.mem_cons_self
  refine ⟨hinv, hp.visited.mmap (by omega) (by omega) hmmap, fun C hC => ?_⟩
  obtain rfl | hC := List.mem_cons.mp hC
  · exact List.mem_cons_of_mem _ (hp.recorded C List.mem_cons_self)
  · obtain rfl | hC := List.mem_cons.mp hC
    · rw [hbase, hpages]
      exact List.mem_cons_self
    · exact List.mem_cons_of_mem _ (hp.recorded C (List.mem_cons_of_mem _ hC))

theorem HeapPages.kmalloc (hp : HeapPages start h Bs made)
    (hcovers : (AllocCall.kmalloc n).Covers h)
    (hcall : FroggyOs.kmalloc .real h n = some (ret, h')) :
    ∃ Bs' made', HeapPages start h' Bs' made' := by
  obtain ⟨Bs', hinv', heffect⟩ := hp.heap.kmalloc_effect hcovers hcall
  cases heffect with
  | found hblocks hfits hbase hpages hnew hsize hvmm =>
      exact ⟨_, _, hp.replace hinv' hvmm hbase hpages⟩
  | created hin hb hfits hbase hpages hnew hsize hmmap =>
      exact ⟨_, _, hp.create hinv' hin hbase hpages hmmap⟩
  | refused hin hbase hpages hmmap => exact ⟨_, _, hp.create hinv' hin hbase hpages hmmap⟩

theorem HeapPages.kfree (hp : HeapPages start h Bs made) (hb : Used Bs b)
    (hcall : FroggyOs.kfree h b.payload = some h') : ∃ Bs', HeapPages start h' Bs' made := by
  obtain ⟨pre, B, post, before, after, rfl, hblocks⟩ := HeapRep.used_cases hb
  obtain ⟨h₁, Bs', hcall', hinv', heffect⟩ := hp.heap.kfree_effect hblocks hb.1
  rw [hcall] at hcall'
  cases hcall'
  cases heffect with
  | kept hbase hpages hnew hkept hvmm => exact ⟨_, hp.replace hinv' hvmm hbase hpages⟩
  | removed hnew hidle hpre hmunmap =>
      refine ⟨_, hinv', hp.visited.munmap hmunmap, fun C hC => hp.recorded C ?_⟩
      simpa using Or.imp_right Or.inr (List.mem_append.mp hC)

theorem HeapPages.krealloc (hp : HeapPages start h Bs made) (hb : Used Bs b)
    (hcovers : (AllocCall.krealloc b.payload n).Covers h)
    (hcall : FroggyOs.krealloc .real h b.payload n = some (ret, h')) :
    ∃ Bs' made', HeapPages start h' Bs' made' := by
  by_cases hzero : n = 0
  · rw [FroggyOs.krealloc, if_pos hzero] at hcall
    obtain ⟨h₁, hkfree, hret⟩ := Option.bind_eq_some_iff.mp hcall
    cases hret
    obtain ⟨Bs', hp'⟩ := hp.kfree hb hkfree
    exact ⟨Bs', _, hp'⟩
  have hcovers := hcovers hzero
  obtain ⟨hmagic, hbytes⟩ := hp.heap.header hb
  split at hcovers
  case isTrue hsize =>
    rw [SplitsInside, hbytes] at hcovers
    rw [hbytes] at hsize
    obtain ⟨pre, B, post, before, after, rfl, hblocks⟩ := HeapRep.used_cases hb
    obtain ⟨h₁, B', hcall', hinv', hvmm, hbase, hpages⟩ :=
      hp.heap.shrink_effect .real hblocks hb.1 hzero hsize hcovers
    rw [hcall] at hcall'
    cases hcall'
    exact ⟨_, _, hp.replace hinv' hvmm hbase hpages⟩
  case isFalse hsize =>
    obtain ⟨hready, hsucceeds, hrounded⟩ := hcovers
    have hcovers : (AllocCall.kmalloc n).Covers h := ⟨hready, fun _ => hrounded⟩
    obtain ⟨h₁, Bs₁, c, hkmalloc, hinv₁, hgranted, hlarge⟩ :=
      (hp.heap.kmalloc_spec hready fun _ => staysInside_real hrounded).1 hsucceeds
    obtain ⟨Bs₂, made₂, hp₂⟩ := hp.kmalloc hcovers hkmalloc
    have hsame := hinv₁.rep.unique hp₂.heap.rep
    subst hsame
    have hc := (hgranted.used c).mpr (.inl rfl)
    have hcopy := (staysInside_real hrounded c hlarge h₁.mem).2 b.payload
    rw [krealloc_of_lt b.payload_ne_zero hmagic (by omega) hkmalloc, if_pos c.payload_ne_zero]
      at hcall
    obtain ⟨h₂, hkfree, hret⟩ := Option.map_eq_some_iff.mp hcall
    cases hret
    obtain ⟨Bs', hp'⟩ := (hp₂.write (hinv₁.writePayload hc hcopy)).kfree
      ((hgranted.used b).mpr (.inr hb)) hkfree
    exact ⟨Bs', _, hp'⟩

end Calls

/-! ## Runs -/

section Runs

variable {h₀ start h : Heap} {s s' : OwnerState} {e : Event Nat UInt8}
  {events : List (Event Nat UInt8)} {Bs : List BucketModel} {B : BucketModel}
  {made : List (Nat × Nat)} {supply : FrameSupply} {size kStart y bucket pebble : Nat}

/-- The heap that `kmalloc_init` makes. -/
theorem HeapPages.first (hready : h₀.vmm.paging.Ready) (hsupply : HasSupply h₀.vmm supply)
    (hbare : ∀ y, h₀.kHeapStart ≤ y → y < h₀.kHeapStart + 2 ^ 47 →
      (h₀.vmm.paging.translate y).isSome → pageNumber y = pageNumber h₀.kHeapStart)
    (hne : h₀.kHeapStart ≠ 0) (hin : RegionInRange h₀ size)
    (hinit : kmallocInit h₀ size = some (h₀.kHeapStart, start)) :
    ∃ Bs made, HeapPages h₀.kHeapStart start Bs made := by
  have hinv := HeapInv.start hinit hne hin
  obtain ⟨vmm, hmmap, hcases⟩ := createBucket_cases hinit
  obtain ⟨-, hvmm⟩ := hcases.resolve_left fun hand => hne hand.1
  have hvmm : start.vmm = vmm := congrArg Heap.vmm hvmm
  have hbytes := bucketBytes_eq hin.1
  have hregion := hin.2
  rw [pageSize] at hmmap
  have hend := (mmap_kHeapEnd (by omega) hmmap hne).1
  rw [hend] at hmmap
  have hbefore : OnlyVisited h₀.kHeapStart h₀.vmm [] :=
    ⟨hready, ⟨supply, hsupply⟩, hend.le, by simp, by simp, .nil,
      fun y hlow hhigh hy => .inl (hbare y hlow hhigh hy)⟩
  have hvisited := hbefore.mmap (by omega) (by omega) hmmap
  rw [← hvmm] at hvisited
  refine ⟨_, _, hinv, hvisited, fun B hB => ?_⟩
  rw [List.mem_singleton.mp hB, ← hend]
  exact List.mem_cons_self

theorem HeapPages.step (hp : HeapPages kStart s.heap Bs made) (hinv : OwnerInv True False s Bs)
    (hstep : OwnerStep s e s') : ∃ Bs' made', HeapPages kStart s'.heap Bs' made' := by
  cases hstep with
  | @call c ret h hlegal hcovers hcall =>
      cases c with
      | kmalloc n => exact hp.kmalloc hcovers hcall
      | kfree ptr =>
          obtain ⟨k, hk⟩ := hlegal
          obtain ⟨b, hb, rfl, -⟩ := hinv.owned.used _ hk
          obtain ⟨h', hkfree, hret⟩ := Option.map_eq_some_iff.mp hcall
          cases hret
          obtain ⟨Bs', hp'⟩ := hp.kfree hb hkfree
          exact ⟨Bs', _, hp'⟩
      | krealloc ptr n =>
          obtain ⟨k, hk⟩ := hlegal.1
          obtain ⟨b, hb, rfl, -⟩ := hinv.owned.used _ hk
          exact hp.krealloc hb hcovers hcall
  | write v hlive hi =>
      obtain ⟨b, hb, hpayload, hsize⟩ := hinv.owned.used _ hlive
      exact ⟨_, _, hp.write (hinv.heap.writePayload hb (.fill hpayload (hsize trivial) hi))⟩
  | read => exact ⟨_, _, hp⟩

theorem allocatorRun_pages (hstart : Started start)
    (hfirst : ∃ Bs made, HeapPages kStart start Bs made)
    (hrun : Run (allocator start) events s) : ∃ Bs made, HeapPages kStart s.heap Bs made := by
  induction hrun with
  | start h =>
      rw [h]
      exact hfirst
  | silent _ hstep =>
      obtain ⟨_, hlabel, -⟩ := hstep
      cases hlabel
  | @event events e s s' hrun hstep ih =>
      obtain ⟨Bs, made, hp⟩ := ih
      obtain ⟨_, hlabel, hstep⟩ := hstep
      cases hlabel
      obtain ⟨Bs', hinv⟩ := allocatorRun_inv hstart hrun
      have hsame := hinv.heap.rep.unique hp.heap.rep
      subst hsame
      exact hp.step hinv hstep

/-- Two regions that have been made are apart. -/
theorem OnlyVisited.apart_of_ne {v : Vmm} (h : OnlyVisited kStart v made) {r t : Nat × Nat}
    (hr : r ∈ made) (ht : t ∈ made) (hne : r ≠ t) :
    r.1 + 4096 * r.2 ≤ t.1 ∨ t.1 + 4096 * t.2 ≤ r.1 := by
  obtain ⟨pre, post, rfl⟩ := List.append_of_mem hr
  obtain ⟨-, hpost, hpre⟩ := List.pairwise_append.mp h.apart
  obtain ht | ht := List.mem_append.mp ht
  · exact .inl (hpre t ht r List.mem_cons_self)
  · obtain rfl | ht := List.mem_cons.mp ht
    · exact absurd rfl hne
    · exact .inr ((List.pairwise_cons.mp hpost).1 t ht)

/-- What can be mapped of a bucket: the pages that `mmap` visits, and the rest of the page in which
the next region begins. -/
theorem HeapPages.mapped (hp : HeapPages kStart h Bs made)
    (hnear : h.vmm.kHeapEnd.toNat ≤ kStart + 2 ^ 47) (hB : B ∈ Bs) (hlow : B.base ≤ y)
    (hy : y < B.stop) (hmapped : (h.vmm.paging.translate y).isSome) :
    y < B.base + 4096 * ((B.pages + 4095) / 4096) ∨ B.stop < y + 4096 := by
  have hwf := hp.heap.rep.wf B hB
  have hrecorded := hp.recorded B hB
  have habove := hp.visited.above _ hrecorded
  have hbelow := hp.visited.below _ hrecorded
  have hpages := hwf.base_lt_stop
  simp only [BucketModel.stop] at hy hpages ⊢
  simp only at habove hbelow
  obtain hfirst | ⟨r, hr, page, hvisited, hpage⟩ :=
    hp.visited.visited y (by omega) (by omega) hmapped
  · left
    unfold pageNumber at hfirst
    omega
  · obtain ⟨i, hi, rfl⟩ := visitedPages_offset hvisited
    have hrAbove := hp.visited.above r hr
    have hrBelow := hp.visited.below r hr
    -- both lie in a window in which the translated bits tell pages apart
    have hsame : y / 4096 = (r.1 + 4096 * i) / 4096 := by
      unfold pageNumber at hpage
      omega
    by_cases hown : r = (B.base, B.pages)
    · left
      subst hown
      simp only at hi hsame
      omega
    · obtain hapart | hapart := hp.visited.apart_of_ne hr hrecorded hown
      · simp only at hapart
        omega
      · simp only at hapart
        omega

/-- In a bucket of up to 4096 pages a page of payload reaches beyond the first page. -/
theorem HeapPages.not_mapped (hp : HeapPages kStart h Bs made)
    (hnear : h.vmm.kHeapEnd.toNat ≤ kStart + 2 ^ 47) (hB : B ∈ Bs) (hsmall : B.pages ≤ 4096)
    {b : Block} (hb : b ∈ B.blocks) (hpage : 4096 ≤ b.size) :
    ∃ y, b.payload ≤ y ∧ y < b.payload + 4096 ∧ h.vmm.paging.translate y = none := by
  have hbounds := (hp.heap.rep.wf B hB).block_bounds hb
  have hpayload : b.payload = b.addr + 60 := rfl
  have hstop : B.stop = B.base + 4096 * B.pages := rfl
  refine ⟨max b.payload (B.base + 4096), le_max_left _ _, by omega, ?_⟩
  by_contra hsome
  have hisSome := Option.isSome_iff_ne_none.mpr hsome
  have hmapped := hp.mapped hnear hB (by omega) (by omega) hisSome
  omega

/-- What is mapped of a bucket, after every run. -/
theorem allocatorRun_mapped (hready : h₀.vmm.paging.Ready) (hsupply : HasSupply h₀.vmm supply)
    (hbare : ∀ y, h₀.kHeapStart ≤ y → y < h₀.kHeapStart + 2 ^ 47 →
      (h₀.vmm.paging.translate y).isSome → pageNumber y = pageNumber h₀.kHeapStart)
    (hne : h₀.kHeapStart ≠ 0) (hin : RegionInRange h₀ size)
    (hinit : kmallocInit h₀ size = some (h₀.kHeapStart, start))
    (hrun : Run (allocator start) events s)
    (hnear : s.heap.vmm.kHeapEnd.toNat ≤ h₀.kHeapStart + 2 ^ 47)
    (hbucket : ListedBucket s.heap bucket) :
    let pages := s.heap.mem.get bucket MemoryBucket.size
    (∀ y, bucket ≤ y → y < bucket + 4096 * pages → (s.heap.vmm.paging.translate y).isSome →
      y < bucket + 4096 * ((pages + 4095) / 4096) ∨ bucket + 4096 * pages < y + 4096) ∧
    (pages ≤ 4096 → ∀ pebble, ListedPebble s.heap.mem bucket pebble →
      4096 ≤ s.heap.mem.get pebble MemoryPebble.size →
      ∃ y, pebble + 60 ≤ y ∧ y < pebble + 60 + 4096 ∧ s.heap.vmm.paging.translate y = none) := by
  intro pages
  have hstart : Started start := ⟨h₀, size, hinit, hne, hin⟩
  obtain ⟨Bs, made, hp⟩ :=
    allocatorRun_pages hstart (HeapPages.first hready hsupply hbare hne hin hinit) hrun
  obtain ⟨B, hB, rfl⟩ := (listedBucket_iff hp.heap.rep).mp hbucket
  have hbody := hp.heap.rep.body hB
  have hpages : pages = B.pages := hbody.size
  have hstop : B.stop = B.base + 4096 * B.pages := rfl
  rw [hpages]
  constructor
  · intro y hlow hy hmapped
    exact hp.mapped hnear hB hlow hy hmapped
  · intro hsmall pebble hpebble hpage
    obtain ⟨b, hb, rfl⟩ := (listedPebble_iff hbody (hp.heap.rep.wf B hB)).mp hpebble
    obtain ⟨prev, next, hat⟩ := hbody.pebble hb
    have hsize : s.heap.mem.get b.addr MemoryPebble.size = b.size := hat.size
    exact hp.not_mapped hnear hB hsmall hb (hsize ▸ hpage)

/-- A caller that has asked for a page cannot touch all of it. -/
theorem bootHeap_not_mapped : ∃ s : OwnerState,
    Run (allocator bootHeap) [.alloc 4096 0x1007C] s ∧ (0x1007C, 4096) ∈ s.live ∧
      ∃ y, 0x1007C ≤ y ∧ y < 0x1007C + 4096 ∧ s.heap.vmm.paging.translate y = none := by
  obtain ⟨h, Bs, hcall, hcovers, hinv, hvmm, hused⟩ :=
    @bootHeap_pages 4096 (by decide) (by decide) (by decide)
  have hkmalloc : OwnerStep ⟨bootHeap, []⟩ (.alloc 4096 0x1007C) ⟨h, [(0x1007C, 4096)]⟩ :=
    .call (c := .kmalloc 4096) (by decide : 4096 < 2 ^ 47) hcovers hcall
  have hrun : Run (allocator bootHeap) [.alloc 4096 0x1007C] ⟨h, [(0x1007C, 4096)]⟩ :=
    (Run.start rfl).event ⟨_, rfl, hkmalloc⟩
  refine ⟨_, hrun, List.mem_cons_self, ?_⟩
  obtain ⟨-, B, hB, hmem⟩ := hused
  have hbare : ∀ y, emptyHeap.kHeapStart ≤ y → y < emptyHeap.kHeapStart + 2 ^ 47 →
      (emptyHeap.vmm.paging.translate y).isSome →
      pageNumber y = pageNumber emptyHeap.kHeapStart := by
    intro y _ _ hy
    have hnone : emptyHeap.vmm.paging.translate y = none := zeroedRoot_translate y
    rw [hnone] at hy
    cases hy
  have hend : h.vmm.kHeapEnd.toNat = 0x21000 := by rw [hvmm, bootHeap_kHeapEnd]
  have hbelow := hinv.below B hB
  have hbody := hinv.rep.body hB
  have hpages : h.mem.get B.base MemoryBucket.size = B.pages := hbody.size
  obtain ⟨prev, next, hat⟩ := hbody.pebble hmem
  have hsize : h.mem.get 0x10040 MemoryPebble.size = 4096 := hat.size
  have hlisted := (listedBucket_iff hinv.rep).mpr ⟨B, hB, rfl⟩
  have hready : emptyHeap.vmm.paging.Ready := freshVmm_ready
  obtain ⟨-, hlarge⟩ := allocatorRun_mapped hready freshVmm_stocked hbare (by decide)
    emptyHeap_regionInRange kmallocInit_emptyHeap hrun
    (hend.trans_le (by decide)) hlisted
  have hsmall : h.mem.get B.base MemoryBucket.size ≤ 4096 := by
    rw [hpages]
    simp only [BucketModel.stop] at hbelow
    omega
  exact hlarge hsmall 0x10040 ((listedPebble_iff hbody (hinv.rep.wf B hB)).mpr ⟨_, hmem, rfl⟩)
    hsize.ge

end Runs

end FroggyOs
