import FroggyOs.Library.X86

/-!
# `_acquire_spinlock` (`spinlock.asm`)

The routine is run instruction by instruction. Other processors write the memory in between,
so every instruction meets a memory of its own: `seen n` is the one of the step `n`.

The loop waits on the word at `rax`, which nothing has set.
-/

namespace FroggyOs

open X86

/-- The targets of jumps are indices of the list. -/
inductive SpinInstr
  /-- `lock bts dword [base], 0` -/
  | lockBts (base : Reg)
  | jc (target : Nat)
  | movImm (dst : Reg) (v : UInt64)
  | ret
  | pause
  /-- `test dword [base], 1` -/
  | testOne (base : Reg)
  | jnz (target : Nat)
  | jmp (target : Nat)
deriving DecidableEq

def acquireSpinlockCode : List SpinInstr := [
  .lockBts .rdi,
  .jc 4,
  .movImm .rax 0,
  .ret,
  -- `.spin_with_pause`
  .pause,
  .testOne .rax,
  .jnz 4,
  .jmp 0]

structure SpinState where
  pc : Nat
  reg : Reg → UInt64
  carry : Bool
  zero : Bool

namespace SpinState

def instr (s : SpinState) : Option SpinInstr := acquireSpinlockCode[s.pc]?

/-- The address of the memory operand of the next instruction. -/
def operand (s : SpinState) : Option UInt64 :=
  match s.instr with
  | some (.lockBts base) | some (.testOne base) => some (s.reg base)
  | _ => none

/-- One instruction; `ret` is where a run stays. -/
def step (mem : UInt64 → UInt32) (s : SpinState) : SpinState :=
  match s.instr with
  | some (.lockBts base) =>
      { s with pc := s.pc + 1, carry := decide (mem (s.reg base) &&& 1 ≠ 0) }
  | some (.jc target) => { s with pc := if s.carry then target else s.pc + 1 }
  | some (.movImm dst v) => { s with pc := s.pc + 1, reg := Function.update s.reg dst v }
  | some .pause => { s with pc := s.pc + 1 }
  | some (.testOne base) =>
      { s with pc := s.pc + 1, zero := decide (mem (s.reg base) &&& 1 = 0) }
  | some (.jnz target) => { s with pc := if s.zero then s.pc + 1 else target }
  | some (.jmp target) => { s with pc := target }
  | some .ret | none => s

/-- The state after `n` instructions. -/
def run (seen : Nat → UInt64 → UInt32) (s : SpinState) : Nat → SpinState
  | 0 => s
  | n + 1 => step (seen n) (s.run seen n)

/-- Every memory operand is the lock word at the address passed in `rdi`, and when the loop
sees it clear the next operand is that of the atomic instruction again. -/
structure WaitsOnLock (seen : Nat → UInt64 → UInt32) (s : SpinState) : Prop where
  operands : ∀ n a, (s.run seen n).operand = some a → a = s.reg .rdi
  retries : ∀ n base, (s.run seen n).instr = some (.testOne base) →
    seen n ((s.run seen n).reg base) &&& 1 = 0 →
      (s.run seen (n + 3)).instr = some (.lockBts .rdi)

variable {seen : Nat → UInt64 → UInt32} {mem : UInt64 → UInt32} {s : SpinState} {n : Nat}

/-- The places in the listing. -/
theorem pc_cases {pc : Nat} (hpc : pc < 8) :
    pc = 0 ∨ pc = 1 ∨ pc = 2 ∨ pc = 3 ∨ pc = 4 ∨ pc = 5 ∨ pc = 6 ∨ pc = 7 := by
  omega

/-- The instructions of the listing, one by one. -/
theorem step_cases (hpc : s.pc < 8) (mem : UInt64 → UInt32) :
    (s.pc = 0 ∧ s.step mem = { s with pc := 1, carry := decide (mem (s.reg .rdi) &&& 1 ≠ 0) }) ∨
    (s.pc = 1 ∧ s.step mem = { s with pc := if s.carry then 4 else 2 }) ∨
    (s.pc = 2 ∧ s.step mem = { s with pc := 3, reg := Function.update s.reg .rax 0 }) ∨
    (s.pc = 3 ∧ s.step mem = s) ∨
    (s.pc = 4 ∧ s.step mem = { s with pc := 5 }) ∨
    (s.pc = 5 ∧ s.step mem = { s with pc := 6, zero := decide (mem (s.reg .rax) &&& 1 = 0) }) ∨
    (s.pc = 6 ∧ s.step mem = { s with pc := if s.zero then 7 else 4 }) ∨
    (s.pc = 7 ∧ s.step mem = { s with pc := 0 }) := by
  obtain ⟨pc, reg, carry, zero⟩ := s
  obtain rfl | rfl | rfl | rfl | rfl | rfl | rfl | rfl := pc_cases hpc <;>
    simp [step, instr, acquireSpinlockCode]

/-! ## A caller that has the address in `rax` too -/

/-- Both registers hold the address, until the routine is at its `ret`. -/
structure BothHold (a : UInt64) (s : SpinState) : Prop where
  inside : s.pc < 8
  rdi : s.reg .rdi = a
  rax : s.pc ≠ 3 → s.reg .rax = a

theorem BothHold.step {a : UInt64} (h : BothHold a s) : BothHold a (s.step mem) := by
  have hne : Reg.rdi ≠ .rax := by decide
  obtain ⟨hpc, heq⟩ | ⟨hpc, heq⟩ | ⟨hpc, heq⟩ | ⟨hpc, heq⟩ | ⟨hpc, heq⟩ | ⟨hpc, heq⟩ |
    ⟨hpc, heq⟩ | ⟨hpc, heq⟩ := step_cases h.inside mem <;> rw [heq]
  case inr.inr.inl =>
    exact ⟨by simp, (Function.update_of_ne hne 0 s.reg).trans h.rdi, fun hend => absurd rfl hend⟩
  case inr.inr.inr.inl => exact h
  case inr.inl | inr.inr.inr.inr.inr.inr.inl =>
    refine ⟨?_, h.rdi, fun _ => h.rax (by omega)⟩
    dsimp only
    split <;> decide
  all_goals exact ⟨by simp, h.rdi, fun _ => h.rax (by omega)⟩

theorem BothHold.run {a : UInt64} (h : BothHold a s) : BothHold a (s.run seen n) := by
  induction n with
  | zero => exact h
  | succ n ih => exact ih.step

theorem BothHold.operand {a b : UInt64} (h : BothHold a s) (hb : s.operand = some b) :
    b = a := by
  obtain ⟨pc, reg, carry, zero⟩ := s
  have hinside : pc < 8 := h.inside
  obtain rfl | rfl | rfl | rfl | rfl | rfl | rfl | rfl := pc_cases hinside <;>
    simp only [SpinState.operand, instr, acquireSpinlockCode, List.getElem?_cons_zero,
      List.getElem?_cons_succ, Option.some_inj, reduceCtorEq] at hb
  · exact hb.symm.trans h.rdi
  · exact hb.symm.trans (h.rax (by decide : 5 ≠ 3))

/-! ## A lock that is free -/

/-- The routine has the lock and is on its way out. -/
def Acquired (s : SpinState) : Prop := (s.pc = 1 ∧ s.carry = false) ∨ s.pc = 2 ∨ s.pc = 3

theorem Acquired.step (h : Acquired s) : Acquired (s.step mem) := by
  obtain ⟨pc, reg, carry, zero⟩ := s
  obtain ⟨rfl, rfl⟩ | rfl | rfl := h
  · exact .inr (.inl rfl)
  · exact .inr (.inr rfl)
  · exact .inr (.inr rfl)

theorem Acquired.operand (h : Acquired s) : s.operand = none := by
  obtain ⟨pc, reg, carry, zero⟩ := s
  obtain ⟨rfl, -⟩ | rfl | rfl := h <;> rfl

/-! ## The loop -/

theorem instr_testOne {base : Reg} (h : s.instr = some (.testOne base)) :
    s.pc = 5 ∧ base = .rax := by
  obtain ⟨pc, reg, carry, zero⟩ := s
  have hpc : pc < 8 := (List.getElem?_eq_some_iff.mp h).1
  obtain rfl | rfl | rfl | rfl | rfl | rfl | rfl | rfl := pc_cases hpc <;> cases h
  exact ⟨rfl, rfl⟩

/-- A clear word seen by the loop leads back to the atomic instruction. -/
theorem retries_of_testOne {base : Reg} (hinstr : (s.run seen n).instr = some (.testOne base))
    (hclear : seen n ((s.run seen n).reg base) &&& 1 = 0) :
    (s.run seen (n + 3)).instr = some (.lockBts .rdi) := by
  obtain ⟨hpc, rfl⟩ := instr_testOne hinstr
  have htest : s.run seen (n + 1) = { s.run seen n with pc := 6, zero := true } := by
    rw [run]
    generalize s.run seen n = t at hpc hclear
    obtain ⟨pc, reg, carry, zero⟩ := t
    obtain rfl : pc = 5 := hpc
    have hzero : decide (seen n (reg .rax) &&& 1 = 0) = true := decide_eq_true hclear
    rw [← hzero]
    rfl
  rw [run, run, htest]
  rfl

/-- The state in which the routine is entered; the flags are arbitrary. -/
def entry (reg : Reg → UInt64) (carry zero : Bool) : SpinState := ⟨0, reg, carry, zero⟩

variable {reg : Reg → UInt64} {carry zero : Bool}

/-- The first try reads the lock word. -/
theorem run_one : (entry reg carry zero).run seen 1 =
    ⟨1, reg, decide (seen 0 (reg .rdi) &&& 1 ≠ 0), zero⟩ := rfl

theorem Acquired.run (hfree : seen 0 (reg .rdi) &&& 1 = 0) :
    Acquired ((entry reg carry zero).run seen (n + 1)) := by
  induction n with
  | zero =>
      rw [run_one]
      exact .inl ⟨rfl, decide_eq_false (not_not_intro hfree)⟩
  | succ n ih => exact ih.step

/-- `_acquire_spinlock` waits on the lock word exactly when `rax` holds its address by
chance, or the lock is free at the first try. -/
theorem waitsOnLock_iff (seen : Nat → UInt64 → UInt32) (reg : Reg → UInt64)
    (carry zero : Bool) : WaitsOnLock seen (entry reg carry zero) ↔
      reg .rax = reg .rdi ∨ seen 0 (reg .rdi) &&& 1 = 0 := by
  constructor
  · intro h
    by_contra hcond
    obtain ⟨hrax, hbusy⟩ := not_or.mp hcond
    have hstep : (entry reg carry zero).run seen 1 = ⟨1, reg, true, zero⟩ := by
      rw [run_one, decide_eq_true hbusy]
    have hoperand : ((entry reg carry zero).run seen 3).operand = some (reg .rax) := by
      rw [SpinState.run, SpinState.run, hstep]
      rfl
    exact hrax (h.operands 3 _ hoperand)
  · intro hcond
    refine ⟨fun n a ha => ?_, fun n base => retries_of_testOne⟩
    obtain hrax | hfree := hcond
    · have hstart : BothHold (reg .rdi) (entry reg carry zero) :=
        ⟨by simp [entry], rfl, fun _ => hrax⟩
      exact hstart.run.operand ha
    · cases n with
      | zero => exact (Option.some.inj ha).symm
      | succ n =>
          rw [(Acquired.run hfree).operand] at ha
          cases ha

/-- The lock is taken and `rax` is 0. -/
theorem not_waitsOnLock : ¬ WaitsOnLock (fun _ _ => 1)
    (entry (fun r => if r = .rdi then 0x1000 else 0) false false) := by
  intro h
  have hzero : (0 : UInt64) = 0x1000 := h.operands 3 0 rfl
  exact absurd hzero (by decide)

end SpinState

end FroggyOs
