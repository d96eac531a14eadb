import FroggyOs.Interrupts.Idt
import FroggyOs.Library.Memory
import FroggyOs.Library.Registry

/-!
# Interrupt delivery

The processor finds the handler of a vector by reading 16 bytes of `__idt` in memory, as far as
the limit that `idt_reload` has loaded reaches. `idt_set_descriptor` writes these bytes field by
field; what is read back as a gate is the handler that was given to it (`Rep.readGate`,
`gate_idtSetDescriptor`).

A run takes the vectors that `idt_allocate_vector` hands out: their holders set descriptors and
free the vectors, and the processor delivers interrupts in between. It is a registry in which
the 32 exceptions are reserved.
-/

namespace FroggyOs

open ByteMemory Simulation Registry Function

/-! ## Descriptors in memory -/

namespace IdtDescriptor

abbrev isrLow : Field := ⟨0, 2⟩
abbrev kernelCs : Field := ⟨2, 2⟩
abbrev ist : Field := ⟨4, 1⟩
abbrev attributes : Field := ⟨5, 1⟩
abbrev isrMid : Field := ⟨6, 2⟩
abbrev isrHigh : Field := ⟨8, 4⟩
abbrev reserved : Field := ⟨12, 4⟩

end IdtDescriptor

/-- The stores of `idt_set_descriptor`. -/
def writeDescriptor (m : Mem) (descriptor : Nat) (isr : UInt64) (flags ist : UInt8) : Mem :=
  let m := m.put descriptor IdtDescriptor.isrLow (isr &&& 0xFFFF).toUInt16.toNat
  let m := m.put descriptor IdtDescriptor.kernelCs 40
  let m := m.put descriptor IdtDescriptor.ist ist.toNat
  let m := m.put descriptor IdtDescriptor.attributes flags.toNat
  let m := m.put descriptor IdtDescriptor.isrMid ((isr >>> 16) &&& 0xFFFF).toUInt16.toNat
  let m := m.put descriptor IdtDescriptor.isrHigh ((isr >>> 32) &&& 0xFFFFFFFF).toUInt32.toNat
  m.put descriptor IdtDescriptor.reserved 0

/-- The bytes at `p` are the descriptor `e`. -/
structure IdtEntry.Rep (e : IdtEntry) (m : Mem) (p : Nat) : Prop where
  isrLow : m.get p IdtDescriptor.isrLow = e.isrLow.toNat
  kernelCs : m.get p IdtDescriptor.kernelCs = e.kernelCs.toNat
  ist : m.get p IdtDescriptor.ist = e.ist.toNat
  attributes : m.get p IdtDescriptor.attributes = e.attributes.toNat
  isrMid : m.get p IdtDescriptor.isrMid = e.isrMid.toNat
  isrHigh : m.get p IdtDescriptor.isrHigh = e.isrHigh.toNat
  reserved : m.get p IdtDescriptor.reserved = e.reserved.toNat

/-! ## Gates -/

/-- What the processor takes from a descriptor. -/
structure Gate where
  handler : UInt64
  selector : UInt16
  /-- the interrupt stack, 0 for none -/
  ist : Nat
  /-- interrupts stay enabled -/
  trap : Bool
deriving DecidableEq

/-- With `IDT_DESCRIPTOR_X32_TRAP` the gate types of 64-bit mode. -/
def IDT_DESCRIPTOR_X32_INTERRUPT : UInt8 := 0x0E

/-- The attributes of a present interrupt or trap gate. -/
def IsGate (attributes : Nat) : Prop :=
  attributes / 2 ^ 7 % 2 = 1 ∧ (attributes % 2 ^ 5 = IDT_DESCRIPTOR_X32_INTERRUPT.toNat ∨
    attributes % 2 ^ 5 = IDT_DESCRIPTOR_X32_TRAP.toNat)

instance (attributes : Nat) : Decidable (IsGate attributes) :=
  inferInstanceAs (Decidable (_ ∧ _))

/-- The gate that the processor reads from two quadwords of memory. -/
def readGate (m : Mem) (p : Nat) : Option Gate :=
  let low := m.load p 8
  let high := m.load (p + 8) 8
  let attributes := low / 2 ^ 40 % 2 ^ 8
  if IsGate attributes then
    some
      { handler := UInt64.ofNat (low % 2 ^ 16 + 2 ^ 16 * (low / 2 ^ 48) + 2 ^ 32 * (high % 2 ^ 32))
        selector := UInt16.ofNat (low / 2 ^ 16)
        ist := low / 2 ^ 32 % 8
        trap := attributes % 2 ^ 5 = IDT_DESCRIPTOR_X32_TRAP.toNat }
  else none

/-- The gate of a descriptor. -/
def IdtEntry.gate (e : IdtEntry) : Option Gate :=
  if IsGate e.attributes.toNat then
    some
      { handler := UInt64.ofNat
          (e.isrLow.toNat + 2 ^ 16 * e.isrMid.toNat + 2 ^ 32 * e.isrHigh.toNat)
        selector := e.kernelCs
        ist := e.ist.toNat % 8
        trap := e.attributes.toNat % 2 ^ 5 = IDT_DESCRIPTOR_X32_TRAP.toNat }
  else none

/-- The gate that `idt_set_descriptor` is asked for. -/
def Gate.ofArgs (isr : UInt64) (flags ist : UInt8) : Option Gate :=
  if IsGate flags.toNat then
    some ⟨isr, 40, ist.toNat % 8, flags.toNat % 2 ^ 5 = IDT_DESCRIPTOR_X32_TRAP.toNat⟩
  else none

section Descriptor

variable {m m' : Mem} {p q : Nat} {e : IdtEntry} {isr : UInt64} {flags ist : UInt8}

/-- The fields of one descriptor do not interfere. -/
theorem get_put_apart {f g : Field} {v : Nat}
    (h : f.offset + f.width ≤ g.offset ∨ g.offset + g.width ≤ f.offset) :
    (m.put p f v).get p g = m.get p g :=
  Mem.get_put_disjoint (by omega)

theorem writeDescriptor_rep (m : Mem) (p : Nat) (isr : UInt64) (flags ist : UInt8)
    (s : IdtState) (vector : UInt8) :
    ((s.idtSetDescriptor vector isr flags ist).idt vector.toNat).Rep
      (writeDescriptor m p isr flags ist) p := by
  rw [IdtState.idtSetDescriptor]
  dsimp only
  rw [update_self]
  have hlow : (isr &&& 0xFFFF).toUInt16.toNat < 256 ^ 2 := UInt16.toNat_lt _
  have hmid : ((isr >>> 16) &&& 0xFFFF).toUInt16.toNat < 256 ^ 2 := UInt16.toNat_lt _
  have hhigh : ((isr >>> 32) &&& 0xFFFFFFFF).toUInt32.toNat < 256 ^ 4 := UInt32.toNat_lt _
  constructor <;> simp (disch := decide) only [writeDescriptor, get_put_apart]
  exacts [Mem.get_put_same hlow, Mem.get_put_same (by decide), Mem.get_put_same ist.toNat_lt,
    Mem.get_put_same flags.toNat_lt, Mem.get_put_same hmid, Mem.get_put_same hhigh,
    Mem.get_put_same (by decide)]

theorem writeDescriptor_outside {x : Nat} (h : x < p ∨ p + 16 ≤ x) :
    (writeDescriptor m p isr flags ist).byte x = m.byte x := by
  rw [writeDescriptor]
  repeat rw [Mem.put_byte_outside (by simp; omega)]

theorem IdtEntry.Rep.congr (h : e.Rep m p) (hsame : Set.EqOn m'.byte m.byte (Mem.range p 16)) :
    e.Rep m' p := by
  have hget : ∀ f : Field, f.offset + f.width ≤ 16 → m'.get p f = m.get p f :=
    fun f hf => Mem.get_congr hsame hf
  constructor <;> rw [hget _ (by decide)]
  exacts [h.isrLow, h.kernelCs, h.ist, h.attributes, h.isrMid, h.isrHigh, h.reserved]

/-- The two quadwords are put together from the seven fields. -/
theorem IdtEntry.Rep.words (h : e.Rep m p) :
    m.load p 8 = e.isrLow.toNat + 2 ^ 16 * e.kernelCs.toNat + 2 ^ 32 * e.ist.toNat +
        2 ^ 40 * e.attributes.toNat + 2 ^ 48 * e.isrMid.toNat ∧
      m.load (p + 8) 8 = e.isrHigh.toNat + 2 ^ 32 * e.reserved.toNat := by
  have hlow := m.load_add p 2 6
  have hcs := m.load_add (p + 2) 2 4
  have hist := m.load_add (p + 4) 1 3
  have hattributes := m.load_add (p + 5) 1 2
  have hhigh := m.load_add (p + 8) 4 4
  obtain ⟨h₁, h₂, h₃, h₄, h₅, h₆, h₇⟩ := h
  simp only [Mem.get, Nat.add_zero] at h₁ h₂ h₃ h₄ h₅ h₆ h₇
  simp only [Nat.reduceAdd, Nat.add_assoc] at hlow hcs hist hattributes hhigh
  omega

/-- The processor reads the descriptor that is in memory. -/
theorem IdtEntry.Rep.readGate (h : e.Rep m p) : readGate m p = e.gate := by
  obtain ⟨hlow, hhigh⟩ := h.words
  have hisrLow := e.isrLow.toNat_lt
  have hkernelCs := e.kernelCs.toNat_lt
  have hist := e.ist.toNat_lt
  have hattributes := e.attributes.toNat_lt
  have hisrMid := e.isrMid.toNat_lt
  have hisrHigh := e.isrHigh.toNat_lt
  have hbits : m.load p 8 / 2 ^ 40 % 2 ^ 8 = e.attributes.toNat := by omega
  have hhandler : m.load p 8 % 2 ^ 16 + 2 ^ 16 * (m.load p 8 / 2 ^ 48) +
      2 ^ 32 * (m.load (p + 8) 8 % 2 ^ 32) =
        e.isrLow.toNat + 2 ^ 16 * e.isrMid.toNat + 2 ^ 32 * e.isrHigh.toNat := by omega
  have hselector : UInt16.ofNat (m.load p 8 / 2 ^ 16) = e.kernelCs := by
    apply UInt16.toNat_inj.mp
    rw [UInt16.toNat_ofNat']
    omega
  have hstack : m.load p 8 / 2 ^ 32 % 8 = e.ist.toNat % 8 := by omega
  simp only [FroggyOs.readGate, IdtEntry.gate, hbits, hhandler, hselector, hstack]

/-- The three parts of an address make up the address. -/
theorem isr_parts (isr : UInt64) :
    UInt64.ofNat ((isr &&& 0xFFFF).toUInt16.toNat +
      2 ^ 16 * ((isr >>> 16) &&& 0xFFFF).toUInt16.toNat +
        2 ^ 32 * ((isr >>> 32) &&& 0xFFFFFFFF).toUInt32.toNat) = isr := by
  have hword (x : Nat) : x &&& 65535 = x % 65536 := Nat.and_two_pow_sub_one_eq_mod x 16
  have hlong (x : Nat) : x &&& 4294967295 = x % 4294967296 :=
    Nat.and_two_pow_sub_one_eq_mod x 32
  have hlow : (isr &&& 0xFFFF).toUInt16.toNat = isr.toNat % 2 ^ 16 := by
    simp [hword]
  have hmid : ((isr >>> 16) &&& 0xFFFF).toUInt16.toNat = isr.toNat / 2 ^ 16 % 2 ^ 16 := by
    simp [hword, Nat.shiftRight_eq_div_pow]
  have hhigh : ((isr >>> 32) &&& 0xFFFFFFFF).toUInt32.toNat = isr.toNat / 2 ^ 32 % 2 ^ 32 := by
    simp [hlong, Nat.shiftRight_eq_div_pow]
  have hlt := isr.toNat_lt
  apply UInt64.toNat_inj.mp
  rw [hlow, hmid, hhigh, UInt64.toNat_ofNat']
  omega

/-- What is set is what is found. -/
theorem gate_idtSetDescriptor (s : IdtState) (vector : UInt8) (isr : UInt64) (flags ist : UInt8) :
    ((s.idtSetDescriptor vector isr flags ist).idt vector.toNat).gate =
      Gate.ofArgs isr flags ist := by
  rw [IdtState.idtSetDescriptor]
  dsimp only
  rw [update_self, IdtEntry.gate]
  dsimp only
  rw [isr_parts, Gate.ofArgs]

end Descriptor

/-! ## The calls and the processor -/

/-- `&__idt[vector]` -/
def idtSlot (idt : UInt64) (vector : Nat) : Nat := idt.toNat + sizeofIdtEntry * vector

/-- The tables, the memory that `__idt` lies in, and the vectors that are handed out. -/
structure IdtMachine where
  tables : IdtState
  mem : Mem
  live : List UInt8

namespace IdtMachine

/-- The bytes that `idt_assemble` finds in `__idt` are 0, as are the other tables. -/
def idtAssemble (m : Mem) (idt : UInt64) (isrStubTable : Nat → UInt64) : IdtMachine where
  tables := bootIdt.idtAssemble idt isrStubTable
  mem := (List.range IDT_CPU_EXCEPTION_COUNT).foldl (fun m vector =>
    writeDescriptor m (idtSlot idt vector) (isrStubTable vector) IDT_DESCRIPTOR_EXCEPTION 0) m
  live := []

def idtSetDescriptor (s : IdtMachine) (idt : UInt64) (vector : UInt8) (isr : UInt64)
    (flags ist : UInt8) : IdtMachine :=
  { s with
    tables := s.tables.idtSetDescriptor vector isr flags ist
    mem := writeDescriptor s.mem (idtSlot idt vector.toNat) isr flags ist }

def idtAllocateVector (s : IdtMachine) : IdtMachine :=
  { s with
    tables := s.tables.idtAllocateVector.2
    live := s.tables.idtAllocateVector.1 :: s.live }

def idtFreeVector (s : IdtMachine) (idt : UInt64) (vector : UInt8) : IdtMachine where
  tables := s.tables.idtFreeVector vector
  mem := writeDescriptor s.mem (idtSlot idt vector.toNat) 0 0 0
  live := s.live.erase vector

/-- The gate that the processor takes for a vector, if there is one. -/
def gateOf (s : IdtMachine) (vector : UInt8) : Option Gate :=
  if sizeofIdtEntry * vector.toNat + (sizeofIdtEntry - 1) ≤ s.tables.loaded.limit.toNat then
    readGate s.mem (idtSlot s.tables.loaded.base vector.toNat)
  else none

/-- What the calls and the processor make of the table. -/
def registered (s : IdtMachine) : Table UInt8 Gate := ⟨{v | v ∈ s.live}, s.gateOf⟩

end IdtMachine

/-- A call by the holder of a vector, a store elsewhere in memory, or an interrupt. -/
inductive IdtStep (idt : UInt64) :
    IdtMachine → Option (Event UInt8 Gate) → IdtMachine → Prop
  | allocate {s : IdtMachine} (hspare : SpareVector s.tables) :
      IdtStep idt s (some (.acquire s.tables.idtAllocateVector.1)) s.idtAllocateVector
  | set {s : IdtMachine} {vector : UInt8} (isr : UInt64) (flags ist : UInt8)
      (hlive : vector ∈ s.live) :
      IdtStep idt s (some (.install vector (Gate.ofArgs isr flags ist)))
        (s.idtSetDescriptor idt vector isr flags ist)
  | free {s : IdtMachine} {vector : UInt8} (hlive : vector ∈ s.live) :
      IdtStep idt s (some (.release vector)) (s.idtFreeVector idt vector)
  | store {s : IdtMachine} {m : Mem}
      (hsame : Set.EqOn m.byte s.mem.byte
        (Mem.range idt.toNat (sizeofIdtEntry * IDT_MAX_DESCRIPTORS))) :
      IdtStep idt s none { s with mem := m }
  | interrupt {s : IdtMachine} (vector : UInt8) :
      IdtStep idt s (some (.lookup vector (s.gateOf vector))) s

/-- Everything after `idt_assemble`. -/
def idtMachine (idt : UInt64) (isrStubTable : Nat → UInt64) :
    System IdtMachine (Event UInt8 Gate) where
  start s := ∃ m : Mem,
    (∀ x ∈ Mem.range idt.toNat (sizeofIdtEntry * IDT_MAX_DESCRIPTORS), m.byte x = 0) ∧
      s = .idtAssemble m idt isrStubTable
  step := IdtStep idt

/-- The exceptions are reserved: their gates are those of the stubs. -/
def exceptionGates (isrStubTable : Nat → UInt64) (vector : UInt8) : Option Gate :=
  if vector.toNat < IDT_CPU_EXCEPTION_COUNT then
    some ⟨isrStubTable vector.toNat, 40, 0, true⟩
  else none

/-! ## One step -/

section Steps

variable {idt isr : UInt64} {isrStubTable : Nat → UInt64} {s s' : IdtMachine} {t : IdtState}
  {m m' : Mem} {vector v : UInt8} {flags ist : UInt8}

/-- `__idt` in memory is the table of the model. -/
def TableRep (idt : UInt64) (t : IdtState) (m : Mem) : Prop :=
  ∀ v : UInt8, (t.idt v.toNat).Rep m (idtSlot idt v.toNat)

theorem slots_apart (hne : v ≠ vector) :
    idtSlot idt v.toNat + 16 ≤ idtSlot idt vector.toNat ∨
      idtSlot idt vector.toNat + 16 ≤ idtSlot idt v.toNat := by
  have hne' : v.toNat ≠ vector.toNat := fun heq => hne (UInt8.toNat_inj.mp heq)
  simp only [idtSlot, sizeofIdtEntry]
  omega

theorem idtSetDescriptor_idt_of_ne (hne : v ≠ vector) :
    (t.idtSetDescriptor vector isr flags ist).idt v.toNat = t.idt v.toNat :=
  update_of_ne (fun heq => hne (UInt8.toNat_inj.mp heq)) _ _

theorem TableRep.congr (h : TableRep idt t m) (hsame : Set.EqOn m'.byte m.byte
    (Mem.range idt.toNat (sizeofIdtEntry * IDT_MAX_DESCRIPTORS))) : TableRep idt t m' := by
  intro v
  refine (h v).congr (hsame.mono ?_)
  have hv := v.toNat_lt
  apply Set.Ico_subset_Ico <;> simp only [idtSlot, sizeofIdtEntry, IDT_MAX_DESCRIPTORS] <;> omega

/-- Setting a descriptor writes the 16 bytes of that descriptor. -/
theorem TableRep.set (h : TableRep idt t m) :
    TableRep idt (t.idtSetDescriptor vector isr flags ist)
      (writeDescriptor m (idtSlot idt vector.toNat) isr flags ist) := by
  intro v
  by_cases hv : v = vector
  · rw [hv]
    exact writeDescriptor_rep m _ isr flags ist t vector
  · rw [idtSetDescriptor_idt_of_ne hv]
    refine (h v).congr fun x hx => writeDescriptor_outside ?_
    have hapart := @slots_apart idt _ _ hv
    have hlow := hx.1
    have hhigh := hx.2
    omega

theorem gate_set : ((t.idtSetDescriptor vector isr flags ist).idt v.toNat).gate =
    if v = vector then Gate.ofArgs isr flags ist else (t.idt v.toNat).gate := by
  split
  case isTrue hv => rw [hv, gate_idtSetDescriptor]
  case isFalse hv => rw [idtSetDescriptor_idt_of_ne hv]

theorem zero_gate : (⟨0, 0, 0, 0, 0, 0, 0⟩ : IdtEntry).gate = none := if_neg (by decide)

/-- Zeroed memory is the table of a program that has just been loaded. -/
theorem bootIdt_rep (hzero : ∀ x ∈ Mem.range idt.toNat (sizeofIdtEntry * IDT_MAX_DESCRIPTORS),
    m.byte x = 0) : TableRep idt bootIdt m := by
  intro v
  have hv := v.toNat_lt
  have hempty : (⟨0, 0, 0, 0, 0, 0, 0⟩ : IdtEntry).Rep ⟨fun _ => 0⟩ (idtSlot idt v.toNat) := by
    constructor <;> exact Mem.load_zero _ _
  refine hempty.congr fun x hx => hzero x ?_
  have hlow := hx.1
  have hhigh := hx.2
  simp only [Set.mem_Ico, idtSlot, sizeofIdtEntry, IDT_MAX_DESCRIPTORS] at *
  omega

/-- The rounds of `idt_assemble`. -/
theorem foldl_assemble (h : TableRep idt t m) {n : Nat} (hn : n ≤ 256) :
    TableRep idt ((List.range n).foldl (IdtState.assembleException isrStubTable) t)
        ((List.range n).foldl (fun m vector => writeDescriptor m (idtSlot idt vector)
          (isrStubTable vector) IDT_DESCRIPTOR_EXCEPTION 0) m) ∧
      ∀ v : UInt8, (((List.range n).foldl (IdtState.assembleException isrStubTable) t).idt
        v.toNat).gate = if v.toNat < n then some ⟨isrStubTable v.toNat, 40, 0, true⟩
          else (t.idt v.toNat).gate := by
  induction n with
  | zero => exact ⟨h, fun v => rfl⟩
  | succ n ih =>
      obtain ⟨hrep, hgates⟩ := ih (by omega)
      have hlt : n < 256 := by omega
      obtain ⟨vector, rfl⟩ : ∃ vector : UInt8, vector.toNat = n :=
        ⟨UInt8.ofNat n, UInt8.toNat_ofNat_of_lt hlt⟩
      simp only [List.range_succ, List.foldl_append, List.foldl_cons, List.foldl_nil]
      generalize (List.range vector.toNat).foldl (IdtState.assembleException isrStubTable) t = t'
        at *
      have hround : (t'.assembleException isrStubTable vector.toNat).idt =
          (t'.idtSetDescriptor vector (isrStubTable vector.toNat)
            IDT_DESCRIPTOR_EXCEPTION 0).idt := by
        rw [IdtState.assembleException, UInt8.ofNat_toNat]
        rfl
      constructor
      · intro v
        rw [hround]
        exact hrep.set v
      · intro v
        rw [hround, gate_set, hgates]
        by_cases hv : v = vector
        · rw [if_pos hv, hv, if_pos (Nat.lt_succ_self _)]
          rfl
        · have hne : v.toNat ≠ vector.toNat := fun heq => hv (UInt8.toNat_inj.mp heq)
          have hlt : v.toNat < vector.toNat + 1 ↔ v.toNat < vector.toNat := by omega
          rw [if_neg hv, if_congr hlt rfl rfl]

namespace IdtMachine

/-- The vectors that are handed out lie inside the limit, and the table is in memory. -/
structure Inv (idt : UInt64) (s : IdtMachine) : Prop where
  inv : IdtInv s.tables s.live
  loaded : s.tables.loaded = ⟨2559, idt⟩
  inside : ∀ v ∈ s.live, v.toNat < 160
  rep : TableRep idt s.tables s.mem

theorem Inv.gateOf_eq (h : s.Inv idt) (v : UInt8) :
    s.gateOf v = if v.toNat < 160 then (s.tables.idt v.toNat).gate else none := by
  have hlimit : sizeofIdtEntry * v.toNat + (sizeofIdtEntry - 1) ≤ (2559 : UInt16).toNat ↔
      v.toNat < 160 := by
    have hvalue : (2559 : UInt16).toNat = 2559 := rfl
    rw [hvalue, sizeofIdtEntry]
    omega
  rw [IdtMachine.gateOf, h.loaded, if_congr hlimit (h.rep v).readGate rfl]

theorem assemble_inv (hzero : ∀ x ∈ Mem.range idt.toNat (sizeofIdtEntry * IDT_MAX_DESCRIPTORS),
    m.byte x = 0) : (idtAssemble m idt isrStubTable).Inv idt ∧
      (idtAssemble m idt isrStubTable).registered = ⟨∅, exceptionGates isrStubTable⟩ := by
  have hstart : TableRep idt { bootIdt with
      idtr := ⟨UInt16.ofNat ((UInt16.ofNat sizeofIdtr).toNat * IDT_MAX_DESCRIPTORS - 1), idt⟩ } m :=
    bootIdt_rep hzero
  obtain ⟨hrep, hgates⟩ := @foldl_assemble idt isrStubTable _ _ hstart 32 (by decide)
  have hinv : (idtAssemble m idt isrStubTable).Inv idt :=
    ⟨.assemble idt isrStubTable, IdtState.idtAssemble_loaded, by simp [idtAssemble], hrep⟩
  refine ⟨hinv, ?_⟩
  have hnone : {v : UInt8 | v ∈ (idtAssemble m idt isrStubTable).live} = ∅ := by
    simp [idtAssemble]
  rw [registered, hnone]
  congr 1
  funext v
  rw [hinv.gateOf_eq, exceptionGates, IDT_CPU_EXCEPTION_COUNT]
  have hgate := hgates v
  split
  case isTrue hv =>
    refine hgate.trans ?_
    split
    case isTrue => rfl
    case isFalse => exact zero_gate
  case isFalse hv => rw [if_neg (by omega)]

/-- The search finds a vector that nobody holds, inside the limit. -/
theorem Inv.allocate (h : s.Inv idt) (hspare : SpareVector s.tables) :
    s.idtAllocateVector.Inv idt ∧ Step (exceptionGates isrStubTable) s.registered
      (.acquire s.tables.idtAllocateVector.1) s.idtAllocateVector.registered := by
  have hinv := h.inv.allocate hspare
  obtain ⟨u, hu, hfree⟩ := hspare
  obtain ⟨vector, hvector, hfirst, hcall⟩ | ⟨hfull, -⟩ := s.tables.idtAllocateVector_cases
  case inr =>
    rw [hfull u (by omega)] at hfree
    cases hfree
  have hle : vector.toNat ≤ u := by
    by_contra hlt
    rw [hfirst u (by omega)] at hfree
    cases hfree
  obtain ⟨hexternal, hfresh⟩ := h.inv.unmarked hvector
  have hinside : vector.toNat < 160 := by omega
  rw [hcall] at hinv
  rw [idtAllocateVector, hcall]
  refine ⟨⟨hinv, h.loaded, List.forall_mem_cons.mpr ⟨hinside, h.inside⟩, h.rep⟩, ?_⟩
  have hlive : {v | v ∈ vector :: s.live} = insert vector {v | v ∈ s.live} := by
    ext v
    simp
  have hnext : registered { s with
      tables := s.tables.setVector vector.toNat true
      live := vector :: s.live } = ⟨insert vector {v | v ∈ s.live}, s.gateOf⟩ := by
    rw [← hlive]
    rfl
  dsimp only
  rw [hnext]
  exact .acquire hfresh (if_neg (Nat.not_lt.mpr hexternal))

theorem Inv.set (h : s.Inv idt) (hlive : vector ∈ s.live) :
    (s.idtSetDescriptor idt vector isr flags ist).Inv idt ∧
      Step (exceptionGates isrStubTable) s.registered
        (.install vector (Gate.ofArgs isr flags ist))
        (s.idtSetDescriptor idt vector isr flags ist).registered := by
  have hinv : (s.idtSetDescriptor idt vector isr flags ist).Inv idt :=
    ⟨⟨h.inv.marked, h.inv.external, h.inv.nodup⟩, h.loaded, h.inside, h.rep.set⟩
  have hgates : (s.idtSetDescriptor idt vector isr flags ist).gateOf =
      update s.gateOf vector (Gate.ofArgs isr flags ist) := by
    funext v
    rw [hinv.gateOf_eq, update_apply, h.gateOf_eq, idtSetDescriptor, gate_set]
    split
    case isTrue => rfl
    case isFalse hv =>
      rw [if_neg]
      rintro rfl
      exact hv (h.inside v hlive)
  have hnext : (s.idtSetDescriptor idt vector isr flags ist).registered =
      ⟨{v | v ∈ s.live}, update s.gateOf vector (Gate.ofArgs isr flags ist)⟩ := by
    rw [← hgates]
    rfl
  rw [hnext]
  exact ⟨hinv, .install hlive⟩

theorem Inv.free (h : s.Inv idt) (hlive : vector ∈ s.live) :
    (s.idtFreeVector idt vector).Inv idt ∧
      Step (exceptionGates isrStubTable) s.registered (.release vector)
        (s.idtFreeVector idt vector).registered := by
  have hinv : (s.idtFreeVector idt vector).Inv idt :=
    ⟨h.inv.free hlive, h.loaded, fun v hv => h.inside v (List.mem_of_mem_erase hv), h.rep.set⟩
  have hnone : Gate.ofArgs 0 0 0 = none := if_neg (by decide)
  have hgates : (s.idtFreeVector idt vector).gateOf = update s.gateOf vector none := by
    funext v
    have hgate : ((s.tables.idtFreeVector vector).idt v.toNat).gate =
        if v = vector then Gate.ofArgs 0 0 0 else (s.tables.idt v.toNat).gate := gate_set
    rw [hinv.gateOf_eq, update_apply, h.gateOf_eq, idtFreeVector, hgate, hnone]
    split
    case isTrue => rfl
    case isFalse hv => rw [ite_self]
  have hset : {v | v ∈ s.live.erase vector} = {v | v ∈ s.live} \ {vector} := by
    ext v
    simp [h.inv.nodup.mem_erase_iff, and_comm]
  have hnext : (s.idtFreeVector idt vector).registered =
      ⟨{v | v ∈ s.live} \ {vector}, update s.gateOf vector none⟩ := by
    rw [← hgates, ← hset]
    rfl
  rw [hnext]
  exact ⟨hinv, .release hlive⟩

theorem Inv.step {label : Option (Event UInt8 Gate)} (h : s.Inv idt)
    (hstep : IdtStep idt s label s') :
    s'.Inv idt ∧
      Answers (registry (exceptionGates isrStubTable)) s.registered label s'.registered := by
  cases hstep with
  | allocate hspare =>
      obtain ⟨hinv, hanswer⟩ := h.allocate hspare
      exact ⟨hinv, .step ⟨_, rfl, hanswer⟩⟩
  | set isr flags ist hlive =>
      obtain ⟨hinv, hanswer⟩ := h.set hlive
      exact ⟨hinv, .step ⟨_, rfl, hanswer⟩⟩
  | free hlive =>
      obtain ⟨hinv, hanswer⟩ := h.free hlive
      exact ⟨hinv, .step ⟨_, rfl, hanswer⟩⟩
  | @store m hsame =>
      have hinv : Inv idt { s with mem := m } := ⟨h.inv, h.loaded, h.inside, h.rep.congr hsame⟩
      have hgates : IdtMachine.gateOf { s with mem := m } = s.gateOf := by
        funext v
        rw [hinv.gateOf_eq, h.gateOf_eq]
      have hnext : registered { s with mem := m } = s.registered := by
        rw [registered, hgates]
        rfl
      rw [hnext]
      exact ⟨hinv, .stay _⟩
  | interrupt v => exact ⟨h, .step ⟨_, rfl, .lookup⟩⟩

end IdtMachine

end Steps

/-! ## Runs -/

section Runs

variable {idt : UInt64} {isrStubTable : Nat → UInt64} {s s' : IdtMachine} {vector : UInt8}
  {events : List (Event UInt8 Gate)} {gate : Option Gate}

theorem idtMachine_simulates (idt : UInt64) (isrStubTable : Nat → UInt64) :
    Simulates (idtMachine idt isrStubTable) (registry (exceptionGates isrStubTable))
      fun s t => s.Inv idt ∧ t = s.registered := by
  constructor
  case start =>
    rintro s ⟨m, hzero, rfl⟩
    obtain ⟨hinv, htable⟩ := IdtMachine.assemble_inv hzero
    exact ⟨_, rfl, hinv, htable.symm⟩
  case step =>
    rintro s t label s' ⟨hinv, rfl⟩ hstep
    obtain ⟨hinv', hanswer⟩ := hinv.step hstep
    exact ⟨_, hanswer, hinv', rfl⟩

/-- Every run is one of a registry in which the exceptions are reserved, and they keep the gates
of their stubs. -/
theorem idt_refines_registry (hrun : Run (idtMachine idt isrStubTable) events s) :
    Run (registry (exceptionGates isrStubTable)) events s.registered ∧ s.Inv idt ∧
      ∀ vector : UInt8, vector.toNat < IDT_CPU_EXCEPTION_COUNT →
        s.gateOf vector = some ⟨isrStubTable vector.toNat, 40, 0, true⟩ := by
  obtain ⟨t, hregistry, hinv, rfl⟩ := (idtMachine_simulates idt isrStubTable).run hrun
  refine ⟨hregistry, hinv, fun vector hvector => ?_⟩
  have hidle : vector ∉ s.live := fun hlive =>
    Nat.not_lt.mpr (hinv.inv.external vector hlive) hvector
  exact ((told_of_run hregistry).idle vector hidle).trans (if_pos hvector)

/-- The first allocation hands out vector 32, for which a handler is installed. -/
theorem idtMachine_installs : ∃ s, Run (idtMachine 0x1000 fun n => UInt64.ofNat (0x2000 + 16 * n))
    [.install 32 (some ⟨0x5000, 40, 0, false⟩), .acquire 32] s := by
  have hstart : (idtMachine 0x1000 fun n => UInt64.ofNat (0x2000 + 16 * n)).start
      (.idtAssemble ⟨fun _ => 0⟩ 0x1000 fun n => UInt64.ofNat (0x2000 + 16 * n)) :=
    ⟨⟨fun _ => 0⟩, fun _ _ => rfl, rfl⟩
  have hspare : SpareVector (IdtMachine.idtAssemble ⟨fun _ => 0⟩ 0x1000
      fun n => UInt64.ofNat (0x2000 + 16 * n)).tables :=
    ⟨32, by decide, IdtState.idtAssemble_vectors⟩
  have hfirst : (IdtMachine.idtAssemble ⟨fun _ => 0⟩ 0x1000
      fun n => UInt64.ofNat (0x2000 + 16 * n)).tables.idtAllocateVector.1 = 32 := by
    rw [IdtMachine.idtAssemble,
      idtAllocateVector_of_marked (by decide) fun i => IdtState.idtAssemble_vectors]
    rfl
  have hacquire := @IdtStep.allocate 0x1000 _ hspare
  have hlive : (32 : UInt8) ∈ (IdtMachine.idtAllocateVector (.idtAssemble ⟨fun _ => 0⟩ 0x1000
      fun n => UInt64.ofNat (0x2000 + 16 * n))).live := by
    rw [IdtMachine.idtAllocateVector, hfirst]
    exact List.mem_cons_self
  rw [hfirst] at hacquire
  have hinstall := @IdtStep.set 0x1000 _ _ 0x5000 0x8E 0 hlive
  have hgate : Gate.ofArgs 0x5000 0x8E 0 = some ⟨0x5000, 40, 0, false⟩ := by decide
  rw [hgate] at hinstall
  exact ⟨_, ((Run.start hstart).event hacquire).event hinstall⟩

theorem idtMachine_installs_registry : ∃ s : IdtMachine,
    Run (registry (exceptionGates fun n => UInt64.ofNat (0x2000 + 16 * n)))
      [.install 32 (some ⟨0x5000, 40, 0, false⟩), .acquire 32] s.registered ∧
        s.gateOf 14 = some ⟨0x20E0, 40, 0, true⟩ := by
  obtain ⟨s, hrun⟩ := idtMachine_installs
  obtain ⟨hregistry, -, hexceptions⟩ := idt_refines_registry hrun
  exact ⟨s, hregistry, hexceptions 14 (by decide)⟩

/-- The processor takes the gate that was installed last for the vector, and none where the
vector is not handed out or its holder has installed none yet. -/
theorem idt_delivers_lastInstalled (hrun : Run (idtMachine idt isrStubTable) events s)
    (hstep : IdtStep idt s (some (.lookup vector gate)) s') :
    gate = lastInstalled (exceptionGates isrStubTable) events vector := by
  obtain ⟨t, hregistry, hinv, rfl⟩ := (idtMachine_simulates idt isrStubTable).run hrun
  obtain ⟨-, hanswer⟩ := @IdtMachine.Inv.step idt isrStubTable _ _ _ hinv hstep
  cases hanswer with
  | step hlookup =>
      obtain ⟨e, hlabel, hlookup⟩ := hlookup
      cases hlabel
      exact (told_of_run hregistry).lookup hlookup

theorem idtMachine_delivers : ∃ s : IdtMachine,
    IdtStep 0x1000 s (some (.lookup 32 (some ⟨0x5000, 40, 0, false⟩))) s := by
  obtain ⟨s, hrun⟩ := idtMachine_installs
  have hinterrupt : IdtStep 0x1000 s (some (.lookup 32 (s.gateOf 32))) s := .interrupt 32
  rw [idt_delivers_lastInstalled hrun hinterrupt] at hinterrupt
  exact ⟨s, hinterrupt⟩

end Runs

end FroggyOs
