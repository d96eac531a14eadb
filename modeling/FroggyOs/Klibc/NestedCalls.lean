import FroggyOs.Klibc.CallEffects
import FroggyOs.Klibc.ObjectStore

/-!
# Requests that are freed in reverse order

Code that frees what it has been handed in reverse order leaves the heap as it has found it: the
same buckets with the same pebbles, whatever was requested and written in between. A bucket that
was made for a request is gone again. The one thing that may differ is the cached maximum, which
`kfree` sets right. A bucket that an earlier failed request has left idle would be given back by
the first request freed in it, so there must be none.
-/

namespace FroggyOs

open ByteMemory Word64 LinkedChain Simulation Objects

attribute [local irreducible] bucketUpdateLargest placePebble searchBuckets chosenPebble
  bucketBytes popFrameList mapToPage pebbleSize placeSection

/-- The events, the last one first, of requests that are each freed before what was requested
earlier, and of accesses in between. -/
inductive Nested : List (Event Nat UInt8) → Prop
  | nil : Nested []
  | write {events : List (Event Nat UInt8)} (ptr i : Nat) (v : UInt8) (h : Nested events) :
      Nested (.write ptr i v :: events)
  | read {events : List (Event Nat UInt8)} (ptr i : Nat) (v : UInt8) (h : Nested events) :
      Nested (.read ptr i v :: events)
  | freed {inner outer : List (Event Nat UInt8)} {ptr : Nat} (size : Nat) (hptr : ptr ≠ 0)
      (hinner : Nested inner) (houter : Nested outer) :
      Nested (.free ptr :: (inner ++ .alloc size ptr :: outer))

/-- A bucket without its cached maximum. -/
def BucketModel.layout (B : BucketModel) : Nat × Nat × List Block := (B.base, B.pages, B.blocks)

/-- The buckets are the same, and in the same order, but for the cached maxima. -/
def SameLayout (Bs Bs' : List BucketModel) : Prop :=
  Bs'.map BucketModel.layout = Bs.map BucketModel.layout

/-- No bucket behind the first one is idle. -/
def NoneIdle (Bs : List BucketModel) : Prop := ∀ B ∈ Bs.tail, B.idle = false

section Layout

variable {Bs Bs' pre post : List BucketModel} {B B' : BucketModel} {before after : List Block}
  {b : Block} {need : Nat}

theorem idle_congr (hblocks : B'.blocks = B.blocks) : B'.idle = B.idle := by
  rw [BucketModel.idle, BucketModel.idle, hblocks]

/-- A bucket with a block in use is not idle. -/
theorem idle_eq_false_of_used (hb : b ∈ B.blocks) (hused : b.inUse = true) : B.idle = false := by
  by_contra hidle
  rw [inUse_of_idle ((Bool.not_eq_false _).mp hidle) hb] at hused
  cases hused

theorem layout_eq (h : B'.layout = B.layout) :
    B'.base = B.base ∧ B'.pages = B.pages ∧ B'.blocks = B.blocks := by
  simp only [BucketModel.layout, Prod.mk.injEq] at h
  exact h

theorem NoneIdle.of_layout (h : NoneIdle Bs) (hsame : SameLayout Bs Bs') : NoneIdle Bs' := by
  intro B' hB'
  have htail : Bs'.tail.map BucketModel.layout = Bs.tail.map BucketModel.layout := by
    rw [List.map_tail, List.map_tail, hsame]
  have hlayout : B'.layout ∈ Bs.tail.map BucketModel.layout := htail ▸ List.mem_map_of_mem hB'
  obtain ⟨B, hB, hlayout⟩ := List.mem_map.mp hlayout
  rw [← idle_congr (layout_eq hlayout).2.2]
  exact h B hB

theorem NoneIdle.replace (h : NoneIdle (pre ++ B :: post)) (hB' : B'.idle = false) :
    NoneIdle (pre ++ B' :: post) := by
  cases pre with
  | nil => exact h
  | cons A rest =>
      intro C hC
      obtain hC | hC := List.mem_append.mp (hC : C ∈ rest ++ B' :: post)
      · exact h C (List.mem_append_left _ hC)
      · obtain rfl | hC := List.mem_cons.mp hC
        · exact hB'
        · exact h C (List.mem_append_right _ (List.mem_cons_of_mem _ hC))

/-- The bucket at one place of the list. -/
theorem SameLayout.middle (h : SameLayout (pre ++ B :: post) Bs') :
    ∃ pre' B' post', Bs' = pre' ++ B' :: post' ∧ SameLayout pre pre' ∧ B'.layout = B.layout ∧
      SameLayout post post' := by
  rw [SameLayout, List.map_append, List.map_cons] at h
  obtain ⟨pre', rest, rfl, hpre, hrest⟩ := List.map_eq_append_iff.mp h
  obtain ⟨B', post', rfl, hB, hpost⟩ := List.map_eq_cons_iff.mp hrest
  exact ⟨pre', B', post', rfl, hpre, hB, hpost⟩

theorem SameLayout.append {pre' post' : List BucketModel} (hpre : SameLayout pre pre')
    (hpost : SameLayout post post') : SameLayout (pre ++ post) (pre' ++ post') := by
  rw [SameLayout, List.map_append, List.map_append, hpre, hpost]

theorem SameLayout.cons (hB : B'.layout = B.layout) (h : SameLayout Bs Bs') :
    SameLayout (B :: Bs) (B' :: Bs') := by
  rw [SameLayout, List.map_cons, List.map_cons, hB, h]

theorem Block.free_use (hfree : b.inUse = false) : b.use.free = b := by
  obtain ⟨addr, size, inUse⟩ := b
  cases hfree
  rfl

theorem mergeBlocks_eq {a t : Block} (haddr : a.addr = b.addr)
    (hsize : a.size + 60 + t.size = b.size) (hfree : b.inUse = false) : mergeBlocks a t = b := by
  obtain ⟨addr, size, inUse⟩ := b
  rw [mergeBlocks, Block.mk.injEq]
  refine ⟨haddr, ?_, hfree.symm⟩
  simp only at hsize
  omega

/-- Freeing a block that has just been placed puts its parts together again. -/
theorem release_placeBlock (hfits : SplitFits b need) (hfree : b.inUse = false)
    (hcoalesced : Coalesced (before ++ b :: after)) :
    release before (splitHead b need).use (splitTail b need ++ after) = before ++ b :: after := by
  obtain ⟨-, -, hbefore, hafter⟩ := Coalesced.middle_iff.mp hcoalesced
  have hhead : (splitHead b need).inUse = false := by rw [splitHead_inUse, hfree]
  have hmarked : (splitHead b need).use.free = splitHead b need := Block.free_use hhead
  have hmelt : melt before (splitHead b need) = (before, splitHead b need) := by
    obtain rfl | ⟨front, a, rfl⟩ := List.eq_nil_or_concat' before
    · rfl
    · exact melt_used ((hbefore a (by simp)).resolve_right (by simp [hfree]))
  have habsorb : absorb (splitHead b need) (splitTail b need ++ after) = b :: after := by
    obtain ⟨htail, hwhole⟩ | ⟨t, htail, ht, -, hsize⟩ := splitTail_cases hfits
    · rw [htail, hwhole, List.nil_append]
      cases after with
      | nil => rfl
      | cons c rest => exact absorb_used ((hafter c rfl).resolve_left (by simp [hfree]))
    · have hmerged : mergeBlocks (splitHead b need) t = b :=
        mergeBlocks_eq (splitHead_addr b need) hsize hfree
      rw [htail, List.singleton_append, absorb_free hhead (ht.trans hfree), hmerged]
  rw [release, hmarked, hmelt, habsorb]

end Layout

/-! ## One request -/

section Request

variable {h h' : Heap} {Bs Bs₃ pre post : List BucketModel} {B' : BucketModel}
  {before after : List Block} {b : Block} {need n ptr : Nat}

/-- Freeing what has been placed, once everything since is undone. -/
theorem HeapInv.kfree_placed (hinv : HeapInv h Bs₃) (hsame : SameLayout (pre ++ B' :: post) Bs₃)
    (hnew : B'.blocks = before ++ placeBlock b need ++ after) (hfits : SplitFits b need)
    (hfree : b.inUse = false) (hcoalesced : Coalesced (before ++ b :: after))
    (hcall : kfree h (splitHead b need).use.payload = some h') :
    ∃ pre₃ B₄ post₃, SameLayout pre pre₃ ∧ SameLayout post post₃ ∧
      B₄.layout = (B'.base, B'.pages, before ++ b :: after) ∧
      (¬ (B₄.idle = true ∧ pre ≠ []) ∧ HeapInv h' (pre₃ ++ B₄ :: post₃) ∨
        B₄.idle = true ∧ pre ≠ [] ∧ HeapInv h' (pre₃ ++ post₃)) := by
  obtain ⟨pre₃, B₃, post₃, rfl, hpre, hB, hpost⟩ := hsame.middle
  obtain ⟨hbase, hpages, hblocks⟩ := layout_eq hB
  rw [hnew, placeBlock, List.append_assoc, List.cons_append] at hblocks
  obtain ⟨h₄, Bs₄, hcall', hinv', heffect⟩ := hinv.kfree_effect hblocks (Block.use_inUse _)
  rw [hcall] at hcall'
  cases hcall'
  rw [release_placeBlock hfits hfree hcoalesced] at heffect
  have hnil : pre₃ = [] ↔ pre = [] := by
    rw [← List.map_eq_nil_iff (f := BucketModel.layout), hpre, List.map_eq_nil_iff]
  cases heffect with
  | @kept B₄ hbase' hpages' hnew' hkept hvmm =>
      refine ⟨pre₃, B₄, post₃, hpre, hpost, ?_, .inl ⟨?_, hinv'⟩⟩
      · rw [BucketModel.layout, hbase', hpages', hnew', hbase, hpages]
      · exact fun hand => hkept ⟨hand.1, mt hnil.mp hand.2⟩
  | @removed B₄ hnew' hidle hpre' hmunmap =>
      refine ⟨pre₃, ⟨B'.base, B'.pages, 0, before ++ b :: after⟩, post₃, hpre, hpost, rfl,
        .inr ⟨?_, hnil.not.mp hpre', hinv'⟩⟩
      rw [← hidle, idle_congr]
      exact hnew'.symm

theorem freshBlock_splitFits {region bytes : Nat} (haligned : need % 64 = 0)
    (hbytes : bytes < 2 ^ 64) (hfits : fits need (freshBlock region bytes) = true) :
    SplitFits (freshBlock region bytes) need := by
  have hsize : (freshBlock region bytes).size = bytes - 124 := rfl
  simp only [fits, Bool.and_eq_true, decide_eq_true_eq] at hfits
  exact splitFits_of_aligned (by omega) (by omega) haligned

/-- What `kmalloc` hands out can be freed from any heap of the same layout, which restores the
layout in front of the request. -/
theorem HeapInv.kmalloc_then_kfree (hinv : HeapInv h Bs) (hnone : NoneIdle Bs)
    (hcovers : (AllocCall.kmalloc n).Covers h) (hcall : kmalloc .real h n = some (ptr, h'))
    (hptr : ptr ≠ 0) :
    ∃ Bs₂, HeapInv h' Bs₂ ∧ NoneIdle Bs₂ ∧ ∀ h₃ Bs₃ h₄, HeapInv h₃ Bs₃ → SameLayout Bs₂ Bs₃ →
      kfree h₃ ptr = some h₄ → ∃ Bs₄, HeapInv h₄ Bs₄ ∧ SameLayout Bs Bs₄ := by
  obtain ⟨Bs₂, hinv₂, heffect⟩ := hinv.kmalloc_effect hcovers hcall
  refine ⟨Bs₂, hinv₂, ?_⟩
  cases heffect with
  | @found pre post B B' before after b hblocks hfits hbase hpages hnew hsize hvmm =>
      have hB : B ∈ pre ++ B :: post := by simp
      have hmem : b ∈ B.blocks := by simp [hblocks]
      have hsplit := splitFits_of_fits (hinv.rep.wf B hB) (pebbleSize_aligned _) hmem hfits
      have hcoalesced := hinv.coalesced B hB
      rw [hblocks] at hcoalesced
      constructor
      · have hused : (splitHead b (pebbleSize (requestSize n))).use ∈ B'.blocks := by
          rw [hnew]
          exact List.mem_append_left _ (List.mem_append_right _ List.mem_cons_self)
        exact hnone.replace (idle_eq_false_of_used hused (Block.use_inUse _))
      · intro h₃ Bs₃ h₄ hinv₃ hsame hfree
        obtain ⟨pre₃, B₄, post₃, hpre, hpost, hlayout, ⟨-, hinv₄⟩ | ⟨hidle, hne, -⟩⟩ :=
          hinv₃.kfree_placed hsame hnew hsplit (inUse_of_fits hfits) hcoalesced hfree
        · refine ⟨_, hinv₄, hpre.append (.cons ?_ hpost)⟩
          rw [hlayout, BucketModel.layout, hbase, hpages, hblocks]
        · -- its bucket would have been idle in front of the request
          have htail : B ∈ (pre ++ B :: post).tail := by
            rw [List.tail_append_of_ne_nil hne]
            simp
          have hsame : B₄.blocks = B.blocks :=
            (layout_eq (B := ⟨_, _, 0, _⟩) hlayout).2.2.trans hblocks.symm
          rw [idle_congr hsame, hnone B htail] at hidle
          cases hidle
  | @created post A N b hin hb hfits hbase hpages hnew hsize hmmap =>
      have hfree := inUse_of_fits hfits
      have hsplit : SplitFits b (pebbleSize (requestSize n)) := by
        rw [hb] at hfits ⊢
        exact freshBlock_splitFits (pebbleSize_aligned _) (bucketBytes_lt _) hfits
      have hcoalesced : Coalesced ([] ++ [b]) := List.isChain_singleton b
      constructor
      · intro C hC
        obtain rfl | hC := List.mem_cons.mp (hC : C ∈ N :: post)
        · have hused : (splitHead b (pebbleSize (requestSize n))).use ∈ C.blocks := by
            rw [hnew]
            exact List.mem_cons_self
          exact idle_eq_false_of_used hused (Block.use_inUse _)
        · exact hnone C hC
      · intro h₃ Bs₃ h₄ hinv₃ hsame hcall₄
        have hnew' : N.blocks = [] ++ placeBlock b (pebbleSize (requestSize n)) ++ [] := by
          rw [hnew, List.nil_append, List.append_nil]
        have hsame' : SameLayout ([A] ++ N :: post) Bs₃ := hsame
        obtain ⟨pre₃, B₄, post₃, hpre, hpost, hlayout, ⟨hkept, -⟩ | ⟨-, -, hinv₄⟩⟩ :=
          hinv₃.kfree_placed hsame' hnew' hsplit hfree hcoalesced hcall₄
        · -- the new bucket has its one block again, and is not the first one
          have hblocks : B₄.blocks = [b] := (layout_eq (B := ⟨_, _, 0, _⟩) hlayout).2.2
          refine absurd ⟨?_, List.cons_ne_nil A []⟩ hkept
          rw [BucketModel.idle, hblocks]
          simp [hfree]
        · exact ⟨_, hinv₄, hpre.append hpost⟩
  | refused => exact absurd rfl hptr

end Request

/-! ## Runs -/

/-- The callers hold the same pointers, and the buckets are laid out as before. -/
structure Reverts (s s' : OwnerState) : Prop where
  live : s'.live = s.live
  buckets : ∀ Bs, HeapInv s.heap Bs → NoneIdle Bs → ∃ Bs', HeapInv s'.heap Bs' ∧ SameLayout Bs Bs'

section Runs

variable {start : Heap} {s s' s₁ s₂ s₃ : OwnerState} {e : Event Nat UInt8}
  {events older : List (Event Nat UInt8)} {Bs : List BucketModel} {size ptr n i : Nat} {v : UInt8}

theorem Reverts.refl (s : OwnerState) : Reverts s s := ⟨rfl, fun Bs hinv _ => ⟨Bs, hinv, rfl⟩⟩

theorem Reverts.trans (h : Reverts s₁ s₂) (h' : Reverts s₂ s₃) : Reverts s₁ s₃ := by
  refine ⟨h'.live.trans h.live, fun Bs hinv hnone => ?_⟩
  obtain ⟨Bs₂, hinv₂, hsame⟩ := h.buckets Bs hinv hnone
  obtain ⟨Bs₃, hinv₃, hsame'⟩ := h'.buckets Bs₂ hinv₂ (hnone.of_layout hsame)
  exact ⟨Bs₃, hinv₃, Eq.trans hsame' hsame⟩

theorem Reverts.write (hinv : OwnerInv True False s Bs)
    (hstep : OwnerStep s (.write ptr i v) s') : Reverts s s' := by
  generalize he : Event.write ptr i v = e at hstep
  cases hstep with
  | @call c => cases c <;> cases he
  | @write ptr' n i' v' hlive hi =>
      cases he
      obtain ⟨b, hb, hpayload, hsize⟩ := hinv.owned.used _ hlive
      refine ⟨rfl, fun Bs' hinv' _ => ⟨Bs', ?_, rfl⟩⟩
      rw [← hinv.heap.rep.unique hinv'.rep]
      exact hinv.heap.writePayload hb (.fill hpayload (hsize trivial) hi)
  | read => cases he

theorem OwnerStep.of_read (hstep : OwnerStep s (.read ptr i v) s') : s' = s := by
  generalize he : Event.read ptr i v = e at hstep
  cases hstep with
  | @call c => cases c <;> cases he
  | write => cases he
  | read => rfl

theorem OwnerStep.of_alloc (hstep : OwnerStep s (.alloc size ptr) s') :
    (AllocCall.kmalloc size).Covers s.heap ∧ ∃ h, kmalloc .real s.heap size = some (ptr, h) ∧
      s' = ⟨h, (AllocCall.kmalloc size).settle ptr s.live⟩ := by
  generalize he : Event.alloc size ptr = e at hstep
  cases hstep with
  | @call c ret h hlegal hcovers hcall =>
      cases c with
      | kmalloc n =>
          cases he
          exact ⟨hcovers, h, hcall, rfl⟩
      | kfree => cases he
      | krealloc => cases he
  | write => cases he
  | read => cases he

theorem OwnerStep.of_free (hstep : OwnerStep s (.free ptr) s') :
    ∃ h, kfree s.heap ptr = some h ∧ s' = ⟨h, dropOwner s.live ptr⟩ := by
  generalize he : Event.free ptr = e at hstep
  cases hstep with
  | @call c ret h hlegal hcovers hcall =>
      cases c with
      | kmalloc => cases he
      | kfree p =>
          cases he
          obtain ⟨h', hkfree, hret⟩ := Option.map_eq_some_iff.mp hcall
          cases hret
          exact ⟨h, hkfree, rfl⟩
      | krealloc => cases he
  | write => cases he
  | read => cases he

/-- A request, what restores the state behind it, and its `kfree`. -/
theorem Reverts.freed {Bs₂ : List BucketModel} (halloc : OwnerStep s (.alloc size ptr) s₁)
    (hptr : ptr ≠ 0) (hinv : OwnerInv True False s₁ Bs₂) (hinner : Reverts s₁ s₂)
    (hfree : OwnerStep s₂ (.free ptr) s₃) : Reverts s s₃ := by
  obtain ⟨hcovers, h₁, hkmalloc, rfl⟩ := halloc.of_alloc
  obtain ⟨h₃, hkfree, rfl⟩ := hfree.of_free
  have hlive : (AllocCall.kmalloc size).settle ptr s.live = (ptr, size) :: s.live := if_neg hptr
  have hnodup := hinv.owned.nodup
  simp only [hlive] at hnodup
  constructor
  · have hnot := (List.nodup_cons.mp hnodup).1
    rw [hinner.live, hlive, dropOwner, List.filter_cons_of_neg (by simp), List.filter_eq_self]
    intro e he
    rw [bne_iff_ne]
    intro hsame
    have hmem : e.1 ∈ s.live.map Prod.fst := List.mem_map_of_mem he
    rw [hsame] at hmem
    exact hnot hmem
  · intro Bs hheap hnone
    obtain ⟨Bs₁, hheap₁, hnone₁, hrest⟩ := hheap.kmalloc_then_kfree hnone hcovers hkmalloc hptr
    obtain ⟨Bs₂, hheap₂, hsame⟩ := hinner.buckets Bs₁ hheap₁ hnone₁
    exact hrest _ Bs₂ _ hheap₂ hsame hkfree

/-- The buckets after a run. -/
theorem allocatorRun_inv (hstart : Started start) (hrun : Run (allocator start) events s) :
    ∃ Bs, OwnerInv True False s Bs := by
  obtain ⟨store, -, hrep⟩ := (allocator_simulates hstart).run hrun
  exact hrep.inv

/-- The last event of a run. -/
theorem allocatorRun_cons (hrun : Run (allocator start) (e :: events) s') :
    ∃ s, Run (allocator start) events s ∧ OwnerStep s e s' := by
  cases hrun with
  | silent hrun hstep =>
      obtain ⟨_, hlabel, -⟩ := hstep
      cases hlabel
  | event hrun hstep =>
      obtain ⟨_, hlabel, hstep⟩ := hstep
      cases hlabel
      exact ⟨_, hrun, hstep⟩

theorem Nested.reverts (hstart : Started start) (hnested : Nested events)
    (hrun : Run (allocator start) (events ++ older) s') :
    ∃ s, Run (allocator start) older s ∧ Reverts s s' := by
  induction hnested generalizing older s' with
  | nil => exact ⟨s', hrun, .refl s'⟩
  | write ptr i v h ih =>
      obtain ⟨s₁, hrun₁, hstep⟩ := allocatorRun_cons hrun
      obtain ⟨s, hold, hreverts⟩ := ih hrun₁
      obtain ⟨Bs₁, hinv₁⟩ := allocatorRun_inv hstart hrun₁
      exact ⟨s, hold, hreverts.trans (.write hinv₁ hstep)⟩
  | read ptr i v h ih =>
      obtain ⟨s₁, hrun₁, hstep⟩ := allocatorRun_cons hrun
      rw [hstep.of_read]
      exact ih hrun₁
  | @freed inner outer ptr size hptr hinner houter ihinner ihouter =>
      rw [List.cons_append, List.append_assoc, List.cons_append] at hrun
      obtain ⟨s₂, hrun₂, hfree⟩ := allocatorRun_cons hrun
      obtain ⟨s₁, hrun₁, hreverts⟩ := ihinner hrun₂
      obtain ⟨s₀, hrun₀, halloc⟩ := allocatorRun_cons hrun₁
      obtain ⟨s, hold, hreverts'⟩ := ihouter hrun₀
      obtain ⟨Bs₁, hinv₁⟩ := allocatorRun_inv hstart hrun₁
      exact ⟨s, hold, hreverts'.trans (.freed halloc hptr hinv₁ hreverts hfree)⟩

/-- What requests that are freed in reverse order leave of the heap. -/
theorem nestedRun_restores (hstart : Started start) (hnested : Nested events)
    (hrun : Run (allocator start) (events ++ older) s') :
    ∃ s, Run (allocator start) older s ∧ s'.live = s.live ∧ ∃ Bs Bs',
      HeapRep s.heap.mem s.heap.kHeapStart Bs ∧ HeapRep s'.heap.mem s'.heap.kHeapStart Bs' ∧
        (NoneIdle Bs → SameLayout Bs Bs') := by
  obtain ⟨s, hold, hreverts⟩ := hnested.reverts hstart hrun
  obtain ⟨Bs, hinv⟩ := allocatorRun_inv hstart hold
  obtain ⟨Bs', hinv'⟩ := allocatorRun_inv hstart hrun
  refine ⟨s, hold, hreverts.live, Bs, Bs', hinv.heap.rep, hinv'.heap.rep, fun hnone => ?_⟩
  obtain ⟨Bs₁, hinv₁, hsame⟩ := hreverts.buckets Bs hinv.heap hnone
  rw [hinv'.heap.rep.unique hinv₁.rep]
  exact hsame

/-- Where the only bucket of a heap is asked. -/
theorem Obtains.of_single {h h' : Heap} {A : BucketModel} {Bs' : List BucketModel}
    {need size ret : Nat} (hrounded : pebbleSize size = need)
    (heffect : Obtains h size h' [A] ret Bs') :
    (∃ B' b, Bs' = [B'] ∧ B'.base = A.base ∧ B'.pages = A.pages ∧ b ∈ A.blocks ∧
      b.inUse = false ∧ need ≤ b.size) ∨ ret = 0 ∨ ret = h.vmm.kHeapEnd.toNat + 124 := by
  subst hrounded
  generalize hlist : [A] = Bs at heffect
  cases heffect with
  | @found pre post B B' before after b hblocks hfits hbase hpages hnew hsize hvmm =>
      obtain ⟨rfl, rfl, rfl⟩ : pre = [] ∧ A = B ∧ post = [] := by
        cases pre with
        | nil => simpa using hlist
        | cons => simp at hlist
      have hfree := inUse_of_fits hfits
      simp only [fits, Bool.and_eq_true, decide_eq_true_eq] at hfits
      exact .inl ⟨B', b, rfl, hbase, hpages, by simp [hblocks], hfree, hfits.2⟩
  | @created post A' N b hin hb hfits hbase hpages hnew hsize hmmap =>
      refine .inr (.inr ?_)
      rw [Block.payload, Block.use_addr, splitHead_addr, hb]
      rfl
  | refused => exact .inr (.inl rfl)

/-- A bucket is made for a page, since another request has filled the first bucket. -/
theorem bootHeap_nested : ∃ s : OwnerState, Run (allocator bootHeap)
    [.free 0x1007C, .free 0x2107C, .write 0x2107C 0 7, .alloc 4096 0x2107C,
      .alloc 65536 0x1007C] s := by
  obtain ⟨h₁, Bs₁, hcall₁, hcovers₁, hinv₁, hvmm₁, hused⟩ :=
    @bootHeap_pages 65536 (by decide) (by decide) (by decide)
  obtain ⟨hcovers₂, h₂, Bs₂, b, hcall₂, -⟩ := hinv₁.kmalloc_page hvmm₁
  have hend₁ : h₁.vmm.kHeapEnd.toNat = 0x21000 := by rw [hvmm₁, bootHeap_kHeapEnd]
  have hptr : b.payload = 0x2107C := by
    obtain ⟨Bs, hinv, heffect₁⟩ := bootHeap_inv.kmalloc_effect hcovers₁ hcall₁
    obtain ⟨Bs', -, heffect₂⟩ := hinv.kmalloc_effect hcovers₂ hcall₂
    obtain ⟨-, C, hC, hmem⟩ := hused
    rw [hinv₁.rep.unique hinv.rep] at hC
    obtain ⟨A, -, rfl, hbase, hpages, -⟩ | hnull | hnew := heffect₁.of_single rfl
    · obtain rfl := List.mem_singleton.mp hC
      obtain ⟨-, c, -, -, -, hc, hfree, hlarge⟩ | hnull | hnew :=
        heffect₂.of_single pebbleSize_page
      · -- what is left of the first bucket is smaller than a page
        have hwf := hinv.rep.wf C hC
        have hne : (⟨0x10040, 65536, true⟩ : Block) ≠ c := by
          rintro rfl
          cases hfree
        have hapart := hwf.tiles.disjoint hmem hc hne
        have hbounds := hwf.block_bounds hc
        simp only [Block.stop, BucketModel.stop, hbase, hpages, freshBucket_base] at hapart hbounds
        have hregion : (freshBucket 0x10000 69632).pages = 17 := rfl
        omega
      · exact absurd hnull b.payload_ne_zero
      · rw [hnew, hend₁]
    · cases hnull
    · rw [bootHeap_kHeapEnd] at hnew
      cases hnew
  rw [hptr] at hcall₂
  have hstep₁ : OwnerStep ⟨bootHeap, []⟩ (.alloc 65536 0x1007C) ⟨h₁, [(0x1007C, 65536)]⟩ :=
    .call (c := .kmalloc 65536) (by decide : 65536 < 2 ^ 47) hcovers₁ hcall₁
  have hstep₂ : OwnerStep ⟨h₁, [(0x1007C, 65536)]⟩ (.alloc 4096 0x2107C)
      ⟨h₂, [(0x2107C, 4096), (0x1007C, 65536)]⟩ :=
    .call (c := .kmalloc 4096) (by decide : 4096 < 2 ^ 47) hcovers₂ hcall₂
  have hwrite : OwnerStep ⟨h₂, [(0x2107C, 4096), (0x1007C, 65536)]⟩ (.write 0x2107C 0 7) _ :=
    .write 7 List.mem_cons_self (by decide)
  have hstart : Run (allocator bootHeap) [] ⟨bootHeap, []⟩ := .start rfl
  have hrun := ((hstart.event ⟨_, rfl, hstep₁⟩).event ⟨_, rfl, hstep₂⟩).event ⟨_, rfl, hwrite⟩
  obtain ⟨Bs, hinv⟩ := allocatorRun_inv bootHeap_started hrun
  obtain ⟨ret, h, hcall⟩ :=
    hinv.returns (c := .kfree 0x2107C) ⟨4096, List.mem_cons_self⟩ trivial
  have hfree : OwnerStep _ (.free 0x2107C) ⟨h, [(0x1007C, 65536)]⟩ :=
    .call (c := .kfree 0x2107C) ⟨4096, List.mem_cons_self⟩ trivial hcall
  have hrun' := hrun.event ⟨_, rfl, hfree⟩
  obtain ⟨Bs', hinv'⟩ := allocatorRun_inv bootHeap_started hrun'
  obtain ⟨ret', h', hcall'⟩ :=
    hinv'.returns (c := .kfree 0x1007C) ⟨65536, List.mem_cons_self⟩ trivial
  have hfree' : OwnerStep ⟨h, [(0x1007C, 65536)]⟩ (.free 0x1007C) ⟨h', []⟩ :=
    .call (c := .kfree 0x1007C) ⟨65536, List.mem_cons_self⟩ trivial hcall'
  exact ⟨_, hrun'.event ⟨_, rfl, hfree'⟩⟩

theorem bootHeap_restored : ∃ s : OwnerState, ∃ Bs,
    Run (allocator bootHeap) [.free 0x1007C, .free 0x2107C, .write 0x2107C 0 7,
      .alloc 4096 0x2107C, .alloc 65536 0x1007C] s ∧
      s.live = [] ∧ HeapRep s.heap.mem s.heap.kHeapStart Bs ∧
        SameLayout [freshBucket 0x10000 69632] Bs := by
  obtain ⟨s, hrun⟩ := bootHeap_nested
  have hinner : Nested [.free 0x2107C, .write 0x2107C 0 7, .alloc 4096 0x2107C] :=
    .freed 4096 (by decide) (.write 0x2107C 0 7 .nil) .nil
  have hnested : Nested [.free 0x1007C, .free 0x2107C, .write 0x2107C 0 7,
      .alloc 4096 0x2107C, .alloc 65536 0x1007C] := .freed 65536 (by decide) hinner .nil
  obtain ⟨s₀, hold, hlive, Bs, Bs', hrep, hrep', hsame⟩ :=
    @nestedRun_restores _ s _ [] bootHeap_started hnested hrun
  have hfirst : s₀ = ⟨bootHeap, []⟩ := by
    cases hold with
    | start h => exact h
    | silent hrun hstep =>
        obtain ⟨_, hlabel, -⟩ := hstep
        cases hlabel
  subst hfirst
  rw [hrep.unique bootHeap_inv.rep] at hsame
  exact ⟨s, Bs', hrun, hlive, hrep', hsame fun B hB => by cases hB⟩

end Runs

end FroggyOs
