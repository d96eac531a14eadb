import Mathlib.Data.List.Nodup
import Mathlib.Data.Nat.Find
import Mathlib.Logic.Function.Basic

/-!
# Interrupt vectors (`idt.c`)

`idt_allocate_vector` hands out the first vector that is not marked, and `0` if there is
none. The limit in the IDTR is computed from the size of the IDTR and not of a descriptor, so
the processor knows 160 descriptors only.

An `IdtRun` is a run of the two calls after `idt_assemble`, with the vectors handed out and
not freed; the condition is one on the state in front of each allocation.
-/

namespace FroggyOs

structure IdtEntry where
  isrLow : UInt16
  kernelCs : UInt16
  ist : UInt8
  attributes : UInt8
  isrMid : UInt16
  isrHigh : UInt32
  reserved : UInt32
deriving DecidableEq, Inhabited

/-- `sizeof(idt_entry_t)`; the structures are packed. -/
def sizeofIdtEntry : Nat := 2 + 2 + 1 + 1 + 2 + 4 + 4

structure Idtr where
  limit : UInt16
  base : UInt64
deriving DecidableEq, Inhabited

def sizeofIdtr : Nat := 2 + 8

def IDT_MAX_DESCRIPTORS : Nat := 256
def IDT_CPU_EXCEPTION_COUNT : Nat := 32
def IDT_DESCRIPTOR_X32_TRAP : UInt8 := 0x0F
def IDT_DESCRIPTOR_PRESENT : UInt8 := 0x80
def IDT_DESCRIPTOR_EXCEPTION : UInt8 := IDT_DESCRIPTOR_X32_TRAP ||| IDT_DESCRIPTOR_PRESENT

/-- The tables of `idt.c`, and the register that `idt_reload` loads. -/
structure IdtState where
  idt : Nat → IdtEntry
  idtr : Idtr
  vectors : Nat → Bool
  irqHandlers : Nat → UInt64
  loaded : Idtr

namespace IdtState

def idtSetDescriptor (s : IdtState) (vector : UInt8) (isr : UInt64) (flags ist : UInt8) :
    IdtState :=
  { s with
    idt := Function.update s.idt vector.toNat
      { isrLow := (isr &&& 0xFFFF).toUInt16
        kernelCs := 40
        ist := ist
        attributes := flags
        isrMid := ((isr >>> 16) &&& 0xFFFF).toUInt16
        isrHigh := ((isr >>> 32) &&& 0xFFFFFFFF).toUInt32
        reserved := 0 } }

/-- `vectors[vector] = used`. -/
def setVector (s : IdtState) (vector : Nat) (used : Bool) : IdtState :=
  { s with vectors := Function.update s.vectors vector used }

/-- `lidt`, with the interrupts off. -/
def idtReload (s : IdtState) : IdtState := { s with loaded := s.idtr }

/-- One round of the loop of `idt_assemble`. -/
def assembleException (isrStubTable : Nat → UInt64) (s : IdtState) (vector : Nat) : IdtState :=
  let s := s.idtSetDescriptor (UInt8.ofNat vector) (isrStubTable vector)
    IDT_DESCRIPTOR_EXCEPTION 0
  s.setVector vector true

/-- `idt` is the address of `__idt`. -/
def idtAssemble (s : IdtState) (idt : UInt64) (isrStubTable : Nat → UInt64) : IdtState :=
  let s := { s with
    idtr := ⟨UInt16.ofNat ((UInt16.ofNat sizeofIdtr).toNat * IDT_MAX_DESCRIPTORS - 1), idt⟩ }
  let s := (List.range IDT_CPU_EXCEPTION_COUNT).foldl (assembleException isrStubTable) s
  s.idtReload

def idtFreeVector (s : IdtState) (vector : UInt8) : IdtState :=
  let s := s.idtSetDescriptor vector 0 0 0
  let s := { s with irqHandlers := Function.update s.irqHandlers vector.toNat 0 }
  s.setVector vector.toNat false

def idtAllocateVector (s : IdtState) : UInt8 × IdtState :=
  match (List.range IDT_MAX_DESCRIPTORS).find? fun i => !s.vectors i with
  | some i => (UInt8.ofNat i, s.setVector i true)
  | none => (0, s)

end IdtState

/-- The tables of a program that has just been loaded. -/
def bootIdt : IdtState where
  idt _ := ⟨0, 0, 0, 0, 0, 0, 0⟩
  idtr := ⟨0, 0⟩
  vectors _ := false
  irqHandlers _ := 0
  loaded := ⟨0, 0⟩

/-- A run of allocations and releases, and the vectors that are handed out after it. -/
inductive IdtRun (idt : UInt64) (isrStubTable : Nat → UInt64) (cond : IdtState → Prop) :
    IdtState → List UInt8 → Prop
  | assemble : IdtRun idt isrStubTable cond (bootIdt.idtAssemble idt isrStubTable) []
  | allocate {s : IdtState} {live : List UInt8} (h : IdtRun idt isrStubTable cond s live)
      (hcond : cond s) :
      IdtRun idt isrStubTable cond s.idtAllocateVector.2 (s.idtAllocateVector.1 :: live)
  | free {s : IdtState} {live : List UInt8} {vector : UInt8}
      (h : IdtRun idt isrStubTable cond s live) (hlive : vector ∈ live) :
      IdtRun idt isrStubTable cond (s.idtFreeVector vector) (live.erase vector)

/-- A vector that an allocation may return. -/
structure GoodVector (s : IdtState) (live : List UInt8) (vector : UInt8) : Prop where
  fresh : vector ∉ live
  unused : s.vectors vector.toNat = false
  external : IDT_CPU_EXCEPTION_COUNT ≤ vector.toNat
  inside : sizeofIdtEntry * vector.toNat + (sizeofIdtEntry - 1) ≤ s.loaded.limit.toNat

/-- A vector is free whose descriptor lies inside the limit. -/
def SpareVector (s : IdtState) : Prop := ∃ vector < 160, s.vectors vector = false

namespace IdtState

variable {s : IdtState} {vector v : UInt8} {used : Bool}

@[simp] theorem setVector_loaded {i : Nat} : (s.setVector i used).loaded = s.loaded := rfl

theorem setVector_vectors :
    (s.setVector vector.toNat used).vectors v.toNat =
      if v = vector then used else s.vectors v.toNat := by
  simp only [setVector, Function.update_apply, UInt8.toNat_inj]

theorem idtAllocateVector_eq (hfree : s.vectors vector.toNat = false)
    (hfirst : ∀ j < vector.toNat, s.vectors j = true) : s.idtAllocateVector =
      (vector, s.setVector vector.toNat true) := by
  have hfind : (List.range IDT_MAX_DESCRIPTORS).find? (fun i => !s.vectors i) =
      some vector.toNat := by
    rw [List.find?_range_eq_some]
    refine ⟨by simp [hfree], List.mem_range.mpr vector.toNat_lt, fun j hj => ?_⟩
    simp [hfirst j hj]
  rw [idtAllocateVector, hfind]
  simp

theorem idtAllocateVector_of_full (hfull : ∀ i < 256, s.vectors i = true) :
    s.idtAllocateVector = (0, s) := by
  have hfind : (List.range IDT_MAX_DESCRIPTORS).find? (fun i => !s.vectors i) = none := by
    rw [List.find?_range_eq_none]
    intro i hi
    simp [hfull i hi]
  rw [idtAllocateVector, hfind]

/-- The search ends at the first free vector or finds none. -/
theorem idtAllocateVector_cases (s : IdtState) :
    (∃ v : UInt8, s.vectors v.toNat = false ∧ (∀ j < v.toNat, s.vectors j = true) ∧
      s.idtAllocateVector = (v, s.setVector v.toNat true)) ∨
    ((∀ i < 256, s.vectors i = true) ∧ s.idtAllocateVector = (0, s)) := by
  by_cases hfull : ∀ i < 256, s.vectors i = true
  · exact .inr ⟨hfull, idtAllocateVector_of_full hfull⟩
  · have hex : ∃ i, i < 256 ∧ s.vectors i = false := by simpa using hfull
    obtain ⟨hi, hfree⟩ := Nat.find_spec hex
    have hfirst : ∀ j < Nat.find hex, s.vectors j = true := by
      intro j hj
      have hnot := Nat.find_min hex hj
      have hlt : j < 256 := by omega
      simpa [hlt] using hnot
    obtain ⟨v, hv⟩ : ∃ v : UInt8, v.toNat = Nat.find hex :=
      ⟨UInt8.ofNat (Nat.find hex), UInt8.toNat_ofNat_of_lt hi⟩
    rw [← hv] at hfree hfirst
    exact .inl ⟨v, hfree, hfirst, idtAllocateVector_eq hfree hfirst⟩

@[simp] theorem idtAllocateVector_loaded : s.idtAllocateVector.2.loaded = s.loaded := by
  obtain ⟨v, -, -, hcall⟩ | ⟨-, hcall⟩ := s.idtAllocateVector_cases <;> simp [hcall]

@[simp] theorem idtFreeVector_loaded : (s.idtFreeVector vector).loaded = s.loaded := rfl

/-- The rounds of `idt_assemble` mark the vectors they pass and nothing else. -/
theorem foldl_assembleException (isrStubTable : Nat → UInt64) (s : IdtState) (n : Nat) :
    (∀ v, ((List.range n).foldl (assembleException isrStubTable) s).vectors v =
      (decide (v < n) || s.vectors v)) ∧
    ((List.range n).foldl (assembleException isrStubTable) s).idtr = s.idtr := by
  induction n with
  | zero => simp
  | succ n ih =>
      obtain ⟨hvectors, hidtr⟩ := ih
      rw [List.range_succ, List.foldl_append]
      refine ⟨fun v => ?_, hidtr⟩
      simp only [List.foldl_cons, List.foldl_nil, assembleException, idtSetDescriptor, setVector,
        Function.update_apply, hvectors]
      split
      case isTrue heq => simp [heq]
      case isFalse hne =>
        have hlt : v < n + 1 ↔ v < n := by omega
        simp [hlt]

theorem idtAssemble_vectors {idt : UInt64} {isrStubTable : Nat → UInt64} {v : Nat} :
    (bootIdt.idtAssemble idt isrStubTable).vectors v = decide (v < IDT_CPU_EXCEPTION_COUNT) := by
  simp only [idtAssemble, idtReload, foldl_assembleException, bootIdt, Bool.or_false]

theorem idtAssemble_loaded {idt : UInt64} {isrStubTable : Nat → UInt64} :
    (bootIdt.idtAssemble idt isrStubTable).loaded = ⟨2559, idt⟩ := by
  simp only [idtAssemble, idtReload, foldl_assembleException]
  rfl

end IdtState

/-! ## Runs -/

namespace IdtRun

open IdtState

variable {idt : UInt64} {isrStubTable : Nat → UInt64} {cond : IdtState → Prop} {s : IdtState}
  {live : List UInt8}

/-- Of 256 descriptors the first 160 lie inside the limit. -/
theorem limit_eq (h : IdtRun idt isrStubTable cond s live) : s.loaded.limit.toNat = 2559 := by
  induction h with
  | assemble => rw [idtAssemble_loaded]; rfl
  | allocate h hcond ih => rw [idtAllocateVector_loaded, ih]
  | free h hlive ih => rw [idtFreeVector_loaded, ih]

end IdtRun

/-- The marks are those of the exceptions and of the vectors that are handed out. -/
structure IdtInv (s : IdtState) (live : List UInt8) : Prop where
  marked : ∀ v : UInt8, s.vectors v.toNat = true ↔
    v.toNat < IDT_CPU_EXCEPTION_COUNT ∨ v ∈ live
  external : ∀ v ∈ live, IDT_CPU_EXCEPTION_COUNT ≤ v.toNat
  nodup : live.Nodup

namespace IdtInv

open IdtState

variable {s : IdtState} {live : List UInt8} {i : Nat} {vector : UInt8}

theorem assemble (idt : UInt64) (isrStubTable : Nat → UInt64) :
    IdtInv (bootIdt.idtAssemble idt isrStubTable) [] where
  marked := by
    intro v
    rw [idtAssemble_vectors]
    simp
  external := by simp
  nodup := List.nodup_nil

/-- The vector found is neither an exception nor handed out. -/
theorem unmarked (h : IdtInv s live) (hfree : s.vectors vector.toNat = false) :
    IDT_CPU_EXCEPTION_COUNT ≤ vector.toNat ∧ vector ∉ live := by
  have hnot := (h.marked vector).not.mp (by simp [hfree])
  exact ⟨Nat.le_of_not_lt fun hlt => hnot (.inl hlt), fun hlive => hnot (.inr hlive)⟩

theorem allocate (h : IdtInv s live) (hspare : SpareVector s) :
    IdtInv s.idtAllocateVector.2 (s.idtAllocateVector.1 :: live) := by
  obtain ⟨v, hfree, -, hcall⟩ | ⟨hfull, -⟩ := s.idtAllocateVector_cases
  case inr =>
    obtain ⟨v, hv, hfree⟩ := hspare
    rw [hfull v (by omega)] at hfree
    cases hfree
  obtain ⟨hexternal, hfresh⟩ := h.unmarked hfree
  rw [hcall]
  refine ⟨fun u => ?_, List.forall_mem_cons.mpr ⟨hexternal, h.external⟩, h.nodup.cons hfresh⟩
  rw [setVector_vectors]
  split
  case isTrue heq => simp [heq]
  case isFalse hne => rw [h.marked, List.mem_cons, or_iff_right hne]

theorem free (h : IdtInv s live) (hlive : vector ∈ live) :
    IdtInv (s.idtFreeVector vector) (live.erase vector) where
  marked := by
    intro u
    rw [idtFreeVector, setVector_vectors, h.nodup.mem_erase_iff]
    split
    case isTrue heq =>
      have hexternal := h.external vector hlive
      simp [heq]
      omega
    case isFalse hne =>
      rw [and_iff_right hne]
      exact h.marked u
  external := fun v hv => h.external v (List.mem_of_mem_erase hv)
  nodup := h.nodup.erase vector

end IdtInv

variable {idt : UInt64} {isrStubTable : Nat → UInt64} {s : IdtState} {live : List UInt8}

theorem IdtRun.inv (h : IdtRun idt isrStubTable SpareVector s live) : IdtInv s live := by
  induction h with
  | assemble => exact IdtInv.assemble idt isrStubTable
  | allocate h hspare ih => exact ih.allocate hspare
  | free h hlive ih => exact ih.free hlive

theorem idtAllocateVector_of_marked {n : Nat} (hn : n < 256)
    (hvectors : ∀ i, s.vectors i = decide (i < n)) :
    s.idtAllocateVector = (UInt8.ofNat n, s.setVector n true) := by
  obtain ⟨v, rfl⟩ : ∃ v : UInt8, v.toNat = n := ⟨UInt8.ofNat n, UInt8.toNat_ofNat_of_lt hn⟩
  rw [UInt8.ofNat_toNat]
  apply IdtState.idtAllocateVector_eq
  · simp [hvectors]
  · intro j hj
    simp [hvectors, hj]

/-- Allocations alone hand out the vectors from 32 on one after the other. -/
theorem exists_idtRun {cond : IdtState → Prop} {n : Nat} (hn : 32 + n ≤ 256)
    (hcond : ∀ s : IdtState, ∀ k < n, (∀ i, s.vectors i = decide (i < 32 + k)) → cond s) :
    ∃ s live, IdtRun 0x1000 (fun _ => 0x2000) cond s live ∧ live.length = n ∧
      ∀ i, s.vectors i = decide (i < 32 + n) := by
  induction n with
  | zero => exact ⟨_, _, .assemble, rfl, fun v => IdtState.idtAssemble_vectors⟩
  | succ n ih =>
      obtain ⟨s, live, hrun, hlength, hvectors⟩ :=
        ih (by omega) fun s k hk => hcond s k (Nat.lt_succ_of_lt hk)
      have hcall := idtAllocateVector_of_marked (by omega) hvectors
      have hnext := hrun.allocate (hcond s n (Nat.lt_succ_self n) hvectors)
      rw [hcall] at hnext
      refine ⟨_, _, hnext, congrArg (· + 1) hlength, fun i => ?_⟩
      simp only [IdtState.setVector, Function.update_apply, hvectors]
      split
      case isTrue heq => simp [heq]
      case isFalse hne =>
        have hlt : i < 32 + (n + 1) ↔ i < 32 + n := by omega
        simp [hlt]

/-- In a run whose allocations all find a spare vector, the next one returns a vector it may
return exactly when there is a spare vector again. -/
theorem idtRun_goodVector_iff (h : IdtRun idt isrStubTable SpareVector s live) :
    GoodVector s live s.idtAllocateVector.1 ↔ SpareVector s := by
  have hlimit := h.limit_eq
  constructor
  · intro hgood
    have hinside := hgood.inside
    rw [hlimit, sizeofIdtEntry] at hinside
    exact ⟨_, by omega, hgood.unused⟩
  · rintro ⟨u, hu, hspare⟩
    obtain ⟨v, hfree, hfirst, hcall⟩ | ⟨hfull, -⟩ := s.idtAllocateVector_cases
    case inr =>
      rw [hfull u (by omega)] at hspare
      cases hspare
    have hle : v.toNat ≤ u := by
      by_contra hlt
      rw [hfirst u (by omega)] at hspare
      cases hspare
    obtain ⟨hexternal, hfresh⟩ := h.inv.unmarked hfree
    rw [hcall]
    refine ⟨hfresh, hfree, hexternal, ?_⟩
    rw [hlimit, sizeofIdtEntry]
    dsimp only
    omega

/-- After three allocations and the release of one of the vectors. -/
theorem assemble_goodVector : ∃ s live, IdtRun 0x1000 (fun _ => 0x2000) SpareVector s live ∧
    live.length = 2 ∧ GoodVector s live s.idtAllocateVector.1 := by
  obtain ⟨s, live, hrun, hlength, hvectors⟩ := @exists_idtRun SpareVector 3 (by decide)
    fun s k hk hvectors => ⟨32 + k, by omega, by simp [hvectors]⟩
  obtain ⟨vector, rest, rfl⟩ := List.exists_cons_of_length_eq_add_one hlength
  have hfreed := hrun.free List.mem_cons_self
  refine ⟨_, _, hfreed, ?_, (idtRun_goodVector_iff hfreed).mpr ⟨35, by decide, ?_⟩⟩
  · rw [List.erase_cons_head]
    exact Nat.succ.inj hlength
  · have hkept : (s.idtSetDescriptor vector 0 0 0).vectors = s.vectors := rfl
    simp [IdtState.idtFreeVector, IdtState.setVector, Function.update_apply, hkept, hvectors]

/-- After 128 allocations the next vector is 160, behind the limit. -/
theorem not_goodVector : ¬ ∀ s live, IdtRun 0x1000 (fun _ => 0x2000) (fun _ => True) s live →
    GoodVector s live s.idtAllocateVector.1 := by
  intro h
  obtain ⟨s, live, hrun, -, hvectors⟩ :=
    @exists_idtRun (fun _ => True) 128 (by decide) fun _ _ _ _ => trivial
  have hinside := (h s live hrun).inside
  rw [idtAllocateVector_of_marked (by decide) hvectors, hrun.limit_eq] at hinside
  have hlast : sizeofIdtEntry * (160 : UInt8).toNat + (sizeofIdtEntry - 1) ≤ 2559 := hinside
  exact absurd hlast (by decide)

end FroggyOs
