import FroggyOs.Library.Interleaving
import FroggyOs.Vmm.Basic

/-!
# Growing the heap on several cores (`memory/heap.c`, `klibc/spinlock.asm`)

Every core may be inside `grow_heap`, each at its own instruction. A step of the system
is one access to memory by one core: the locked `bts`, a read of `K_HEAP_END`, the write
back of the sum, the store that releases the lock. The retry loop tests a word at an
address left in `rax`, so its test may go either way at any time.
-/

namespace FroggyOs

open Function Interleaving

/-- Where a core is in `grow_heap`, with the values it holds. -/
inductive GrowPc
  | outside
  /-- before `lock bts` -/
  | acquiring (size : UInt64)
  /-- in `.spin_with_pause` -/
  | spinning (size : UInt64)
  /-- before the first read of `K_HEAP_END` -/
  | locked (size : UInt64)
  /-- before `K_HEAP_END +=` reads it again -/
  | reserving (size startRegion : UInt64)
  /-- before the sum is written back -/
  | adding (size startRegion heapEnd : UInt64)
  /-- before the lock is released -/
  | releasing (size startRegion : UInt64)
  /-- before the return -/
  | returning (size startRegion : UInt64)

namespace GrowPc

/-- From the end of `acquire_spinlock` to the store in `release_spinlock`. -/
def InSection : GrowPc → Prop
  | locked _ | reserving _ _ | adding _ _ _ | releasing _ _ => True
  | _ => False

/-- The region that the core is about to return. -/
def region : GrowPc → Option (Nat × Nat)
  | returning size startRegion => some (startRegion.toNat, 4096 * size.toNat)
  | _ => none

end GrowPc

/-- The memory that `grow_heap` works on, the cores, and what has happened so far. -/
structure GrowState (Core : Type*) where
  /-- `kheap_spinlock` -/
  lock : UInt32
  /-- `K_HEAP_END` -/
  kHeapEnd : UInt64
  pc : Core → GrowPc
  /-- the bytes of all growths that were written back, as an exact sum -/
  grown : Nat
  /-- the bytes of each growth whose lock was released -/
  completed : List Nat
  /-- the regions returned to callers, each a base and a length -/
  returned : List (Nat × Nat)

variable {Core : Type*} [DecidableEq Core]

/-- The core `c` moves on. -/
def GrowState.goto (s : GrowState Core) (c : Core) (pc : GrowPc) : GrowState Core :=
  { s with pc := update s.pc c pc }

/-- One step of one core. -/
inductive GrowStep : GrowState Core → GrowState Core → Prop
  | call {s : GrowState Core} {c : Core} (size : UInt64) (hpc : s.pc c = .outside) :
      GrowStep s (s.goto c (.acquiring size))
  | bts {s : GrowState Core} {c : Core} {size : UInt64} (hpc : s.pc c = .acquiring size)
      (hcarry : s.lock &&& 1 = 0) :
      GrowStep s { s.goto c (.locked size) with lock := s.lock ||| 1 }
  | btsCarry {s : GrowState Core} {c : Core} {size : UInt64} (hpc : s.pc c = .acquiring size)
      (hcarry : s.lock &&& 1 ≠ 0) :
      GrowStep s { s.goto c (.spinning size) with lock := s.lock ||| 1 }
  | spin {s : GrowState Core} {c : Core} {size : UInt64} (hpc : s.pc c = .spinning size) :
      GrowStep s s
  | retry {s : GrowState Core} {c : Core} {size : UInt64} (hpc : s.pc c = .spinning size) :
      GrowStep s (s.goto c (.acquiring size))
  | readStart {s : GrowState Core} {c : Core} {size : UInt64} (hpc : s.pc c = .locked size) :
      GrowStep s (s.goto c (.reserving size s.kHeapEnd))
  | readEnd {s : GrowState Core} {c : Core} {size startRegion : UInt64}
      (hpc : s.pc c = .reserving size startRegion) :
      GrowStep s (s.goto c (.adding size startRegion s.kHeapEnd))
  | writeBack {s : GrowState Core} {c : Core} {size startRegion heapEnd : UInt64}
      (hpc : s.pc c = .adding size startRegion heapEnd) :
      GrowStep s { s.goto c (.releasing size startRegion) with
        kHeapEnd := heapEnd + size * 0x1000
        grown := s.grown + 4096 * size.toNat }
  | release {s : GrowState Core} {c : Core} {size startRegion : UInt64}
      (hpc : s.pc c = .releasing size startRegion) :
      GrowStep s { s.goto c (.returning size startRegion) with
        lock := 0
        completed := (4096 * size.toNat) :: s.completed }
  | ret {s : GrowState Core} {c : Core} {size startRegion : UInt64}
      (hpc : s.pc c = .returning size startRegion) :
      GrowStep s { s.goto c .outside with
        returned := (startRegion.toNat, 4096 * size.toNat) :: s.returned }

/-- The state that `init_heap` leaves. -/
def GrowState.initial (kHeapStart : UInt64) : GrowState Core where
  lock := 0
  kHeapEnd := kHeapStart
  pc := fun _ => .outside
  grown := 0
  completed := []
  returned := []

/-- The states that the cores can reach, in any order of their steps. -/
def GrowRun (kHeapStart : UInt64) (s : GrowState Core) : Prop :=
  Relation.ReflTransGen GrowStep (.initial kHeapStart) s

/-! ## One core alone -/

section Alone

variable {s : GrowState Core} {c : Core}

/-- A call that no other core interrupts does what the sequential `grow_heap` does. -/
theorem growHeap_alone {v : Vmm} (size : UInt64) (hpc : s.pc c = .outside) (hlock : s.lock = 0)
    (hend : s.kHeapEnd = v.kHeapEnd) :
    ∃ s', Relation.ReflTransGen GrowStep s s' ∧ s'.lock = 0 ∧ s'.pc = s.pc ∧
      s'.kHeapEnd = (v.growHeap size.toNat).2.kHeapEnd ∧
      s'.completed = (4096 * size.toNat) :: s.completed ∧
      s'.returned = ((v.growHeap size.toNat).1, 4096 * size.toNat) :: s.returned ∧
      s'.grown = s.grown + 4096 * size.toNat := by
  refine ⟨_, .head (.call size hpc) <| .head (.bts (c := c) (update_self ..) ?_) <|
    .head (.readStart (c := c) (update_self ..)) <|
    .head (.readEnd (c := c) (update_self ..)) <|
    .head (.writeBack (c := c) (update_self ..)) <|
    .head (.release (c := c) (update_self ..)) <|
    .single (.ret (c := c) (update_self ..)), rfl, ?_, ?_, rfl, ?_, rfl⟩
  · simp [GrowState.goto, hlock]
  · simp [GrowState.goto, ← hpc]
  · simp [GrowState.goto, Vmm.growHeap, hend]
  · simp [GrowState.goto, Vmm.growHeap, hend]

end Alone

/-! ## Mutual exclusion -/

/-- The lock word says whether a core is in the section, and there is at most one. -/
def LockInv (s : GrowState Core) : Prop :=
  AtMostOne GrowPc.InSection s.pc ∧
    (s.lock = 0 ∧ (∀ c, ¬ (s.pc c).InSection) ∨ s.lock = 1 ∧ ∃ c, (s.pc c).InSection)

section MutualExclusion

variable {s s' : GrowState Core} {c : Core} {next : GrowPc} {kHeapStart : UInt64}

/-- A core that steps outside of the section, or within it, leaves the lock right. -/
theorem LockInv.goto (h : LockInv s) (hstep : next.InSection ↔ (s.pc c).InSection) :
    LockInv (s.goto c next) := by
  refine ⟨h.1.step hstep.mp, ?_⟩
  obtain ⟨hlock, hempty⟩ | ⟨hlock, d, hd⟩ := h.2
  · refine .inl ⟨hlock, ?_⟩
    exact (forall_update_iff s.pc fun _ x => ¬ x.InSection).mpr
      ⟨hstep.not.mpr (hempty c), fun d _ => hempty d⟩
  · refine .inr ⟨hlock, d, ?_⟩
    by_cases hdc : d = c
    · subst hdc
      simpa [GrowState.goto] using hstep.mpr hd
    · simpa [GrowState.goto, hdc] using hd

theorem LockInv.step (h : LockInv s) (hstep : GrowStep s s') : LockInv s' := by
  cases hstep with
  | call size hpc => exact h.goto (by simp [hpc, GrowPc.InSection])
  | @bts c size hpc hcarry =>
      -- the carry is clear, so the section was empty
      obtain ⟨hlock, hempty⟩ | ⟨hlock, -⟩ := h.2
      · refine ⟨AtMostOne.enter hempty, .inr ⟨by simp [hlock], c, ?_⟩⟩
        simp [GrowState.goto, GrowPc.InSection]
      · rw [hlock] at hcarry
        exact absurd hcarry (by decide)
  | @btsCarry c size hpc hcarry =>
      have hgoto : LockInv (s.goto c (.spinning size)) :=
        h.goto (by simp [hpc, GrowPc.InSection])
      obtain ⟨hlock, -⟩ | ⟨hlock, -⟩ := h.2
      · exact absurd (by simp [hlock]) hcarry
      · have hsame : s.lock ||| 1 = s.lock := by rw [hlock]; rfl
        rw [hsame]
        exact hgoto
  | spin hpc => exact h
  | retry hpc => exact h.goto (by simp [hpc, GrowPc.InSection])
  | readStart hpc => exact h.goto (by simp [hpc, GrowPc.InSection])
  | readEnd hpc => exact h.goto (by simp [hpc, GrowPc.InSection])
  | @writeBack c size startRegion heapEnd hpc =>
      have hgoto : LockInv (s.goto c (.releasing size startRegion)) :=
        h.goto (by simp [hpc, GrowPc.InSection])
      exact hgoto
  | @release c size startRegion hpc =>
      have hin : (s.pc c).InSection := by simp [hpc, GrowPc.InSection]
      exact ⟨h.1.step (by simp [GrowPc.InSection]),
        .inl ⟨rfl, h.1.leave hin (by simp [GrowPc.InSection])⟩⟩
  | @ret c size startRegion hpc =>
      have hgoto : LockInv (s.goto c .outside) := h.goto (by simp [hpc, GrowPc.InSection])
      exact hgoto

theorem GrowRun.lockInv (h : GrowRun kHeapStart s) : LockInv s := by
  induction h with
  | refl =>
      exact ⟨fun c d hc => hc.elim, .inl ⟨rfl, fun c hc => hc.elim⟩⟩
  | tail _ hstep ih => exact ih.step hstep

end MutualExclusion

/-! ## Regions -/

namespace GrowPc

/-- The region that the core is about to return ends at `settled` at the latest. -/
def Below (settled : Nat) (pc : GrowPc) : Prop := ∀ r ∈ pc.region, r.1 + r.2 ≤ settled

/-- The region that the core is about to return overlaps none that was returned. -/
def ApartFrom (returned : List (Nat × Nat)) (pc : GrowPc) : Prop :=
  ∀ r ∈ pc.region, ∀ t ∈ returned, RegionsApart r t

/-- Two cores are not about to return overlapping regions. -/
def Apart (pc pc' : GrowPc) : Prop := ∀ r ∈ pc.region, ∀ t ∈ pc'.region, RegionsApart r t

end GrowPc

/-- The regions returned and those about to be are disjoint, and end where the completed
growths do. -/
structure RegionInv (settled : Nat) (pc : Core → GrowPc) (returned : List (Nat × Nat)) :
    Prop where
  returned_apart : returned.Pairwise RegionsApart
  returned_below : ∀ r ∈ returned, r.1 + r.2 ≤ settled
  pending_apart : ∀ c d, c ≠ d → (pc c).Apart (pc d)
  pending_below : ∀ c, (pc c).Below settled
  pending_returned : ∀ c, (pc c).ApartFrom returned

section Regions

variable {settled n : Nat} {pc : Core → GrowPc} {returned : List (Nat × Nat)} {c : Core}
  {x y next : GrowPc} {r t : Nat × Nat}

theorem RegionsApart.symm (h : RegionsApart r t) : RegionsApart t r :=
  Or.symm h

theorem GrowPc.Apart.symm (h : x.Apart y) : y.Apart x :=
  fun t ht r hr => (h r hr t ht).symm

/-- A core that steps to an instruction before the release. -/
theorem RegionInv.goto (h : RegionInv settled pc returned) (hnext : next.region = none) :
    RegionInv settled (update pc c next) returned where
  returned_apart := h.returned_apart
  returned_below := h.returned_below
  pending_apart := pairwise_update (fun _ _ => GrowPc.Apart.symm) h.pending_apart
    fun _ _ => by simp [GrowPc.Apart, hnext]
  pending_below := forall_update h.pending_below (by simp [GrowPc.Below, hnext]) fun _ _ hd => hd
  pending_returned :=
    forall_update h.pending_returned (by simp [GrowPc.ApartFrom, hnext]) fun _ _ hd => hd

/-- A completed growth puts its region above all earlier ones. -/
theorem RegionInv.release (h : RegionInv settled pc returned)
    (hnext : next.region = some (settled, n)) :
    RegionInv (settled + n) (update pc c next) returned := by
  have habove : ∀ t : Nat × Nat, t.1 + t.2 ≤ settled → ∀ r ∈ next.region, RegionsApart r t := by
    intro t ht r hr
    obtain rfl : (settled, n) = r := by simpa [hnext] using hr
    exact .inr ht
  constructor
  · exact h.returned_apart
  · exact fun r hr => Nat.le_trans (h.returned_below r hr) (Nat.le_add_right ..)
  · exact pairwise_update (fun _ _ => GrowPc.Apart.symm) h.pending_apart
      fun d _ r hr t ht => habove t (h.pending_below d t ht) r hr
  · refine forall_update h.pending_below ?_ fun d _ hd r hr => ?_
    · simp [GrowPc.Below, hnext]
    · exact Nat.le_trans (hd r hr) (Nat.le_add_right ..)
  · exact forall_update h.pending_returned
      (fun r hr t ht => habove t (h.returned_below t ht) r hr) fun _ _ hd => hd

/-- The region that a core held is returned. -/
theorem RegionInv.ret (h : RegionInv settled pc returned) (hr : (pc c).region = some r)
    (hnext : next.region = none) : RegionInv settled (update pc c next) (r :: returned) := by
  have hgoto := h.goto (c := c) hnext
  constructor
  · exact List.pairwise_cons.mpr ⟨h.pending_returned c r hr, h.returned_apart⟩
  · intro t ht
    obtain rfl | ht := List.mem_cons.mp ht
    · exact h.pending_below c _ hr
    · exact h.returned_below t ht
  · exact hgoto.pending_apart
  · exact hgoto.pending_below
  · refine (forall_update_iff pc fun _ x => x.ApartFrom (r :: returned)).mpr
      ⟨by simp [GrowPc.ApartFrom, hnext], fun d hdc u hu t ht => ?_⟩
    obtain rfl | ht := List.mem_cons.mp ht
    · exact h.pending_apart d c hdc u hu _ hr
    · exact h.pending_returned d u hu t ht

end Regions

/-! ## No growth is lost -/

/-- The heap end after the completed growths. -/
def GrowState.settled (kHeapStart : UInt64) (s : GrowState Core) : Nat :=
  kHeapStart.toNat + s.completed.sum

/-- The values that a core in the section holds. -/
def GrowPc.Holds (settled kHeapEnd : Nat) : GrowPc → Prop
  | locked _ => kHeapEnd = settled
  | reserving _ startRegion => startRegion.toNat = settled ∧ kHeapEnd = settled
  | adding _ startRegion heapEnd =>
      startRegion.toNat = settled ∧ heapEnd.toNat = settled ∧ kHeapEnd = settled
  | releasing size startRegion =>
      startRegion.toNat = settled ∧ kHeapEnd = settled + 4096 * size.toNat
  | _ => True

theorem GrowPc.holds_of_not_inSection {pc : GrowPc} (h : ¬ pc.InSection) (settled kHeapEnd : Nat) :
    pc.Holds settled kHeapEnd := by
  cases pc with
  | locked | reserving | adding | releasing => exact absurd trivial h
  | outside | acquiring | spinning | returning => trivial

/-- What a run keeps as long as the heap end does not wrap around. -/
structure GrowInv (kHeapStart : UInt64) (s : GrowState Core) : Prop where
  lock : LockInv s
  heapEnd : s.kHeapEnd.toNat = kHeapStart.toNat + s.grown
  free : s.lock = 0 → s.kHeapEnd.toNat = s.settled kHeapStart
  holds : ∀ c, (s.pc c).Holds (s.settled kHeapStart) s.kHeapEnd.toNat
  regions : RegionInv (s.settled kHeapStart) s.pc s.returned

section Growth

variable {s s' : GrowState Core} {c : Core} {next : GrowPc} {kHeapStart : UInt64}

/-- A step that reads at most. -/
theorem GrowInv.goto (h : GrowInv kHeapStart s) (hstep : next.InSection ↔ (s.pc c).InSection)
    (hholds : next.Holds (s.settled kHeapStart) s.kHeapEnd.toNat) (hregion : next.region = none) :
    GrowInv kHeapStart (s.goto c next) where
  lock := h.lock.goto hstep
  heapEnd := h.heapEnd
  free := h.free
  holds := forall_update h.holds hholds fun _ _ hd => hd
  regions := h.regions.goto hregion

/-- The step lemma. Only the core in the section changes the heap end, and no other core
holds a value of it. -/
theorem GrowInv.step (h : GrowInv kHeapStart s) (hstep : GrowStep s s')
    (hwrap : kHeapStart.toNat + s'.grown < 2 ^ 64) : GrowInv kHeapStart s' := by
  have hlock' := h.lock.step hstep
  cases hstep with
  | call size hpc => exact h.goto (by simp [hpc, GrowPc.InSection]) trivial rfl
  | @bts c size hpc hcarry =>
      have hlock : s.lock = 0 := by
        obtain ⟨hlock, -⟩ | ⟨hlock, -⟩ := h.lock.2
        · exact hlock
        · rw [hlock] at hcarry
          exact absurd hcarry (by decide)
      refine ⟨hlock', h.heapEnd, fun hzero => absurd hzero (by simp [hlock]), ?_,
        h.regions.goto rfl⟩
      exact forall_update h.holds (h.free hlock) fun _ _ hd => hd
  | @btsCarry c size hpc hcarry =>
      have hgoto : GrowInv kHeapStart (s.goto c (.spinning size)) :=
        h.goto (by simp [hpc, GrowPc.InSection]) trivial rfl
      have hsame : s.lock ||| 1 = s.lock := by
        obtain ⟨hlock, -⟩ | ⟨hlock, -⟩ := h.lock.2
        · exact absurd (by simp [hlock]) hcarry
        · rw [hlock]
          rfl
      rw [hsame]
      exact hgoto
  | spin hpc => exact h
  | retry hpc => exact h.goto (by simp [hpc, GrowPc.InSection]) trivial rfl
  | @readStart c size hpc =>
      have hc := h.holds c
      rw [hpc] at hc
      exact h.goto (by simp [hpc, GrowPc.InSection]) ⟨hc, hc⟩ rfl
  | @readEnd c size startRegion hpc =>
      have hc := h.holds c
      rw [hpc] at hc
      exact h.goto (by simp [hpc, GrowPc.InSection]) ⟨hc.1, hc.2, hc.2⟩ rfl
  | @writeBack c size startRegion heapEnd hpc =>
      have hc := h.holds c
      rw [hpc] at hc
      obtain ⟨hstart, hread, hend⟩ := hc
      have hin : (s.pc c).InSection := by simp [hpc, GrowPc.InSection]
      have hother := h.lock.1.not_other hin
      have hgrown := h.heapEnd
      have hsum : (heapEnd + size * 0x1000).toNat = s.settled kHeapStart + 4096 * size.toNat := by
        dsimp only at hwrap
        rw [UInt64.toNat_add, UInt64.toNat_mul]
        change (heapEnd.toNat + size.toNat * 4096 % 2 ^ 64) % 2 ^ 64 = _
        omega
      refine ⟨hlock', ?_, ?_, ?_, h.regions.goto rfl⟩
      · dsimp only
        omega
      · intro hzero
        obtain ⟨-, hempty⟩ | ⟨hlock, -⟩ := h.lock.2
        · exact absurd hin (hempty c)
        · exact absurd (hlock.symm.trans hzero) (by decide)
      · exact forall_update h.holds ⟨hstart, hsum⟩ fun d hd _ =>
          GrowPc.holds_of_not_inSection (hother d hd) _ _
  | @release c size startRegion hpc =>
      have hc := h.holds c
      rw [hpc] at hc
      obtain ⟨hstart, hend⟩ := hc
      have hother := h.lock.1.not_other (by simp [hpc, GrowPc.InSection] : (s.pc c).InSection)
      have hsettled : kHeapStart.toNat + (4096 * size.toNat + s.completed.sum) =
          s.settled kHeapStart + 4096 * size.toNat := by
        rw [GrowState.settled]
        omega
      refine ⟨hlock', h.heapEnd, fun _ => ?_, ?_, ?_⟩
      · exact hend.trans hsettled.symm
      · exact forall_update h.holds trivial fun d hd _ =>
          GrowPc.holds_of_not_inSection (hother d hd) _ _
      · change RegionInv (kHeapStart.toNat + (4096 * size.toNat + s.completed.sum)) _ _
        rw [hsettled]
        exact h.regions.release (by rw [GrowPc.region, hstart])
  | @ret c size startRegion hpc =>
      refine ⟨hlock', h.heapEnd, h.free, forall_update h.holds trivial fun _ _ hd => hd, ?_⟩
      exact h.regions.ret (by rw [hpc, GrowPc.region]) rfl

/-- The exact sum of the growths never falls. -/
theorem GrowStep.grown_le (hstep : GrowStep s s') : s.grown ≤ s'.grown := by
  cases hstep with
  | writeBack hpc => exact Nat.le_add_right _ _
  | _ => exact Nat.le_refl _

theorem GrowRun.inv (h : GrowRun kHeapStart s) (hwrap : kHeapStart.toNat + s.grown < 2 ^ 64) :
    GrowInv kHeapStart s := by
  induction h with
  | refl =>
      refine ⟨GrowRun.lockInv .refl, rfl, fun _ => rfl, fun c => trivial, ?_⟩
      have hregion : GrowPc.outside.region = none := rfl
      refine ⟨.nil, by simp [GrowState.initial], fun _ _ _ => ?_, fun _ => ?_, fun _ => ?_⟩ <;>
        simp [GrowPc.Apart, GrowPc.Below, GrowPc.ApartFrom, GrowState.initial, hregion]
  | tail hrun hstep ih =>
      have hle := hstep.grown_le
      exact (ih (by omega)).step hstep hwrap

end Growth

/-- Whatever the order of their steps, at most one core is in the section, and while the
total growth fits the address space the cores get disjoint regions and no growth is lost. -/
theorem growHeap_interleaved {kHeapStart : UInt64} {s : GrowState Core}
    (hrun : GrowRun kHeapStart s) :
    (∀ c d, (s.pc c).InSection → (s.pc d).InSection → c = d) ∧
    (kHeapStart.toNat + s.grown < 2 ^ 64 →
      s.returned.Pairwise RegionsApart ∧
      (s.lock = 0 → s.kHeapEnd.toNat = kHeapStart.toNat + s.completed.sum)) :=
  ⟨hrun.lockInv.1, fun hwrap =>
    ⟨(hrun.inv hwrap).regions.returned_apart, (hrun.inv hwrap).free⟩⟩

/-- Core 1 finds the lock taken, spins until core 0 has released it, and gets the pages
behind core 0's. -/
theorem growHeap_interleaved_contended : ∃ s : GrowState Nat, GrowRun 0x10000 s ∧
    s.returned = [(0x11000, 8192), (0x10000, 4096)] ∧ s.returned.Pairwise RegionsApart ∧
    s.lock = 0 ∧ s.kHeapEnd.toNat = 0x10000 + [8192, 4096].sum := by
  have hrun : ∃ s : GrowState Nat, GrowRun 0x10000 s ∧ s.lock = 0 ∧
      s.returned = [(0x11000, 8192), (0x10000, 4096)] ∧ s.completed = [8192, 4096] ∧
      s.grown = 12288 := by
    refine ⟨_, .head (.call (c := 0) 1 rfl) <| .head (.call (c := 1) 2 rfl) <|
      .head (.bts (c := 0) rfl rfl) <| .head (.btsCarry (c := 1) rfl (by decide)) <|
      .head (.readStart (c := 0) rfl) <| .head (.spin (c := 1) rfl) <|
      .head (.readEnd (c := 0) rfl) <| .head (.writeBack (c := 0) rfl) <|
      .head (.retry (c := 1) rfl) <| .head (.release (c := 0) rfl) <|
      .head (.bts (c := 1) rfl rfl) <| .head (.ret (c := 0) rfl) <|
      .head (.readStart (c := 1) rfl) <| .head (.readEnd (c := 1) rfl) <|
      .head (.writeBack (c := 1) rfl) <| .head (.release (c := 1) rfl) <|
      .single (.ret (c := 1) rfl), rfl, rfl, rfl, rfl⟩
  obtain ⟨s, hrun, hlock, hreturned, hcompleted, hgrown⟩ := hrun
  obtain ⟨hapart, hend⟩ := (growHeap_interleaved hrun).2 (by rw [hgrown]; decide)
  refine ⟨s, hrun, hreturned, hapart, hlock, ?_⟩
  rw [hend hlock, hcompleted]
  rfl

end FroggyOs
