import Mathlib.Algebra.Group.Nat.Defs
import Mathlib.Data.List.Induction
import Mathlib.Logic.Function.Basic

/-!
# Straight-line x86 code on the stack

The general registers, the control registers that code saves, and a memory of quadwords: all
accesses are pushes and pops, which stay in one class of addresses modulo 8.

`Cpu.Holds` says which words lie above the stack pointer; a push puts one in front of them
and a pop takes the first one away. Code that writes the stack pointer by pushes, pops and
additions of constants moves it by a number of bytes that does not depend on the state
(`Cpu.run_rsp`).
-/

namespace X86

inductive Reg
  | rax | rbx | rcx | rdx | rsi | rdi | rbp | rsp
  | r8 | r9 | r10 | r11 | r12 | r13 | r14 | r15
deriving DecidableEq

inductive CtrlReg
  | cr0 | cr2 | cr3 | cr4
deriving DecidableEq

structure Cpu where
  reg : Reg → UInt64
  cr : CtrlReg → UInt64
  ds : UInt16
  es : UInt16
  mem : UInt64 → UInt64

/-- Code is listed in the order of its execution: a `jmp` goes to the instruction behind it
in the list. -/
inductive Instr
  | push (r : Reg)
  | pushImm (v : UInt64)
  | pop (r : Reg)
  | mov (dst src : Reg)
  | movFromCr (dst : Reg) (src : CtrlReg)
  | movToCr (dst : CtrlReg) (src : Reg)
  /-- `mov ax, ds` -/
  | movAxDs
  /-- `mov ds, ax` -/
  | movDsAx
  /-- `mov es, ax` -/
  | movEsAx
  /-- `xor eax, eax` -/
  | xorEax
  /-- `lea dst, [base + disp]` -/
  | lea (dst base : Reg) (disp : UInt64)
  /-- `lea dst, [rel label]` -/
  | leaRel (dst : Reg) (label : UInt64)
  | jmp (r : Reg)
  | add (dst : Reg) (v : UInt64)

/-- A register when a word has been moved to its low 16 bits. -/
def withAx (rax : UInt64) (ax : UInt16) : UInt64 := rax >>> 16 <<< 16 ||| ax.toUInt64

namespace Cpu

def setReg (s : Cpu) (r : Reg) (v : UInt64) : Cpu :=
  { s with reg := Function.update s.reg r v }

def pushWord (s : Cpu) (w : UInt64) : Cpu :=
  { s.setReg .rsp (s.reg .rsp - 8) with mem := Function.update s.mem (s.reg .rsp - 8) w }

def exec (s : Cpu) : Instr → Cpu
  | .push r => s.pushWord (s.reg r)
  | .pushImm v => s.pushWord v
  | .pop r => (s.setReg .rsp (s.reg .rsp + 8)).setReg r (s.mem (s.reg .rsp))
  | .mov dst src => s.setReg dst (s.reg src)
  | .movFromCr dst src => s.setReg dst (s.cr src)
  | .movToCr dst src => { s with cr := Function.update s.cr dst (s.reg src) }
  | .movAxDs => s.setReg .rax (withAx (s.reg .rax) s.ds)
  | .movDsAx => { s with ds := (s.reg .rax).toUInt16 }
  | .movEsAx => { s with es := (s.reg .rax).toUInt16 }
  | .xorEax => s.setReg .rax 0
  | .lea dst base disp => s.setReg dst (s.reg base + disp)
  | .leaRel dst label => s.setReg dst label
  | .jmp _ => s
  | .add dst v => s.setReg dst (s.reg dst + v)

def run (s : Cpu) (code : List Instr) : Cpu := code.foldl exec s

variable {s : Cpu} {r : Reg} {v w : UInt64} {code more : List Instr}

@[simp] theorem setReg_self : (s.setReg r v).reg r = v := Function.update_self ..

theorem setReg_of_ne {r' : Reg} (h : r' ≠ r) : (s.setReg r v).reg r' = s.reg r' :=
  Function.update_of_ne h ..

@[simp] theorem pushWord_rsp : (s.pushWord w).reg .rsp = s.reg .rsp - 8 :=
  (setReg_self : (s.setReg .rsp (s.reg .rsp - 8)).reg .rsp = _)

theorem pushWord_of_ne (h : r ≠ .rsp) : (s.pushWord w).reg r = s.reg r :=
  setReg_of_ne h

theorem pushWord_mem {a : UInt64} : (s.pushWord w).mem a =
    if a = s.reg .rsp - 8 then w else s.mem a := Function.update_apply ..

theorem run_cons {i : Instr} : s.run (i :: code) = (s.exec i).run code := rfl

theorem run_append : s.run (code ++ more) = (s.run code).run more := List.foldl_append

end Cpu

/-! ## The stack pointer -/

/-- The number of bytes by which an instruction moves the stack pointer, if that does not
depend on the state. -/
def Instr.shift : Instr → Option UInt64
  | .push _ | .pushImm _ => some (-8)
  | .pop dst => if dst = .rsp then none else some 8
  | .mov dst _ | .movFromCr dst _ | .lea dst _ _ | .leaRel dst _ =>
      if dst = .rsp then none else some 0
  | .add dst v => some (if dst = .rsp then v else 0)
  | .movToCr _ _ | .movAxDs | .movDsAx | .movEsAx | .xorEax | .jmp _ => some 0

/-- The instruction changes neither the stack pointer nor memory. -/
def Instr.quiet : Instr → Bool
  | .push _ | .pushImm _ | .pop _ => false
  | .mov dst _ | .movFromCr dst _ | .lea dst _ _ | .leaRel dst _ | .add dst _ => dst != .rsp
  | .movToCr _ _ | .movAxDs | .movDsAx | .movEsAx | .xorEax | .jmp _ => true

def stackShift : List Instr → Option UInt64
  | [] => some 0
  | i :: code => do some ((← i.shift) + (← stackShift code))

namespace Cpu

variable {s : Cpu} {i : Instr} {code : List Instr} {d : UInt64}

theorem exec_rsp (h : i.shift = some d) : (s.exec i).reg .rsp = s.reg .rsp + d := by
  have hset : ∀ {dst v}, dst ≠ .rsp → (s.setReg dst v).reg .rsp = s.reg .rsp + 0 := by
    intro dst v hne
    rw [setReg_of_ne (Ne.symm hne), UInt64.add_zero]
  cases i <;> simp only [Instr.shift, Option.ite_none_left_eq_some, Option.some_inj] at h
  case push | pushImm =>
    subst h
    exact UInt64.sub_eq_add_neg _ _
  case pop dst =>
    obtain ⟨hne, rfl⟩ := h
    exact setReg_of_ne (Ne.symm hne)
  case add dst v =>
    subst h
    by_cases hdst : dst = .rsp
    · subst hdst
      exact setReg_self
    · rw [if_neg hdst]
      exact hset hdst
  case mov | movFromCr | lea | leaRel =>
    obtain ⟨hne, rfl⟩ := h
    exact hset hne
  case movAxDs | xorEax =>
    subst h
    exact hset (by decide)
  case movToCr | movDsAx | movEsAx | jmp =>
    subst h
    exact (UInt64.add_zero _).symm

theorem exec_rsp_of_quiet (h : i.quiet = true) : (s.exec i).reg .rsp = s.reg .rsp := by
  cases i <;> simp only [Instr.quiet, bne_iff_ne, Bool.false_eq_true] at h
  case mov | movFromCr | lea | leaRel | add => exact setReg_of_ne (Ne.symm h)
  case movAxDs | xorEax => exact setReg_of_ne (by decide)
  case movToCr | movDsAx | movEsAx | jmp => rfl

theorem exec_mem_of_quiet (h : i.quiet = true) : (s.exec i).mem = s.mem := by
  cases i
  case push | pushImm | pop => cases h
  all_goals rfl

theorem run_rsp (h : stackShift code = some d) : (s.run code).reg .rsp = s.reg .rsp + d := by
  induction code generalizing s d with
  | nil =>
      cases h
      exact (UInt64.add_zero _).symm
  | cons i code ih =>
      simp only [stackShift, Option.bind_eq_bind, Option.bind_eq_some_iff] at h
      obtain ⟨first, hfirst, rest, hrest, hsum⟩ := h
      cases hsum
      have hrun : (s.run (i :: code)).reg .rsp = (s.exec i).reg .rsp + rest := ih hrest
      rw [hrun, exec_rsp hfirst, UInt64.add_assoc]

end Cpu

/-! ## Words on the stack -/

/-- The words lie in memory one behind the other, from `p` upwards. -/
def WordsAt (mem : UInt64 → UInt64) (p : UInt64) (ws : List UInt64) : Prop :=
  ∀ i (hi : i < ws.length), mem (p + 8 * UInt64.ofNat i) = ws[i]

theorem word_succ (p : UInt64) (i : Nat) :
    p + 8 * UInt64.ofNat (i + 1) = p + 8 + 8 * UInt64.ofNat i := by
  have hone : UInt64.ofNat 1 = 1 := rfl
  rw [UInt64.ofNat_add, hone]
  grind

/-- Less than `2 ^ 61` words do not come back to where they started. -/
theorem word_succ_ne {p : UInt64} {i : Nat} (hi : 8 * (i + 1) < 2 ^ 64) :
    p + 8 * UInt64.ofNat (i + 1) ≠ p := by
  intro h
  have hzero : 8 * UInt64.ofNat (i + 1) = 0 := by grind
  have hindex : (UInt64.ofNat (i + 1)).toNat = i + 1 := by
    rw [UInt64.toNat_ofNat', Nat.mod_eq_of_lt (by omega)]
  have hnat : 8 * (i + 1) % 2 ^ 64 = 0 := by
    have hproduct := congrArg UInt64.toNat hzero
    rwa [UInt64.toNat_mul, hindex] at hproduct
  omega

namespace WordsAt

variable {mem mem' : UInt64 → UInt64} {p w : UInt64} {ws : List UInt64}

theorem nil : WordsAt mem p [] := fun i hi => absurd hi (Nat.not_lt_zero i)

theorem cons_iff : WordsAt mem p (w :: ws) ↔ mem p = w ∧ WordsAt mem (p + 8) ws := by
  constructor
  · intro h
    refine ⟨by simpa using h 0 (Nat.succ_pos _), fun i hi => ?_⟩
    rw [← word_succ]
    exact h (i + 1) (Nat.succ_lt_succ hi)
  · rintro ⟨hfirst, hrest⟩ i hi
    cases i with
    | zero => simpa using hfirst
    | succ i =>
        rw [word_succ]
        exact hrest i (Nat.lt_of_succ_lt_succ hi)

end WordsAt

namespace Cpu

/-- The words from the stack pointer upwards. -/
def Holds (s : Cpu) (ws : List UInt64) : Prop := WordsAt s.mem (s.reg .rsp) ws

/-- Only the stack pointer and the stack have changed. -/
structure SameButStack (s t : Cpu) : Prop where
  reg : ∀ r ≠ .rsp, t.reg r = s.reg r
  cr : t.cr = s.cr
  ds : t.ds = s.ds

namespace SameButStack

variable {s t u : Cpu} {w : UInt64}

theorem refl (s : Cpu) : SameButStack s s := ⟨fun _ _ => rfl, rfl, rfl⟩

theorem trans (h : SameButStack s t) (h' : SameButStack t u) : SameButStack s u :=
  ⟨fun r hr => (h'.reg r hr).trans (h.reg r hr), h'.cr.trans h.cr, h'.ds.trans h.ds⟩

theorem pushWord (h : SameButStack s t) : SameButStack s (t.pushWord w) :=
  h.trans ⟨fun _ hr => pushWord_of_ne hr, rfl, rfl⟩

end SameButStack

theorem run_pop_cr {s : Cpu} {regs : List Reg} :
    (s.run (regs.map .pop)).cr = s.cr ∧ (s.run (regs.map .pop)).ds = s.ds := by
  induction regs generalizing s with
  | nil => exact ⟨rfl, rfl⟩
  | cons r regs ih => exact ih

theorem run_pop_of_notMem {s : Cpu} {r : Reg} {regs : List Reg} (hr : r ∉ regs)
    (hrsp : r ≠ .rsp) : (s.run (regs.map .pop)).reg r = s.reg r := by
  induction regs generalizing s with
  | nil => rfl
  | cons r' regs ih =>
      obtain ⟨hne, hrest⟩ := not_or.mp (List.mem_cons.not.mp hr)
      have hpop : (s.exec (.pop r')).reg r = s.reg r :=
        (setReg_of_ne hne).trans (setReg_of_ne hrsp)
      exact (ih hrest).trans hpop

namespace Holds

variable {s s' : Cpu} {ws vs : List UInt64} {w : UInt64} {r : Reg} {regs : List Reg}

theorem keep (h : s.Holds ws) (hrsp : s'.reg .rsp = s.reg .rsp) (hmem : s'.mem = s.mem) :
    s'.Holds ws := by
  rw [Holds, hrsp, hmem]
  exact h

theorem setReg {v : UInt64} (h : s.Holds ws) (hr : r ≠ .rsp) : (s.setReg r v).Holds ws :=
  h.keep (setReg_of_ne (Ne.symm hr)) rfl

theorem push (h : s.Holds ws) (hroom : 8 * (ws.length + 1) < 2 ^ 64) :
    (s.pushWord w).Holds (w :: ws) := by
  refine WordsAt.cons_iff.mpr ⟨?_, fun i hi => ?_⟩
  · rw [pushWord_rsp, pushWord_mem, if_pos rfl]
  · have hne : (s.pushWord w).reg .rsp + 8 + 8 * UInt64.ofNat i ≠ s.reg .rsp - 8 := by
      rw [← word_succ, pushWord_rsp]
      exact word_succ_ne (by omega)
    have hback : (s.pushWord w).reg .rsp + 8 = s.reg .rsp := by
      rw [pushWord_rsp, UInt64.sub_add_cancel]
    rw [pushWord_mem, if_neg hne, hback]
    exact h i hi

theorem pushReg (h : s.Holds ws) (hr : s.reg r = w) (hroom : 8 * (ws.length + 1) < 2 ^ 64) :
    (s.exec (.push r)).Holds (w :: ws) := by
  subst hr
  exact h.push hroom

/-- Code that moves values between other registers. -/
theorem quiet {code : List Instr} (h : s.Holds ws) (hcode : ∀ i ∈ code, i.quiet = true) :
    (s.run code).Holds ws := by
  induction code generalizing s with
  | nil => exact h
  | cons i code ih =>
      obtain ⟨hi, hrest⟩ := List.forall_mem_cons.mp hcode
      exact ih (h.keep (exec_rsp_of_quiet hi) (exec_mem_of_quiet hi)) hrest

theorem pop (h : s.Holds (w :: ws)) (hr : r ≠ .rsp) :
    (s.exec (.pop r)).Holds ws ∧ (s.exec (.pop r)).reg r = w := by
  obtain ⟨hfirst, hrest⟩ := WordsAt.cons_iff.mp h
  have hrsp : (s.exec (.pop r)).reg .rsp = s.reg .rsp + 8 := exec_rsp (by simp [Instr.shift, hr])
  refine ⟨?_, hfirst ▸ setReg_self⟩
  rw [Holds, hrsp]
  exact hrest

/-- Registers that are pushed one after the other. -/
theorem pushes (h : s.Holds ws) (hregs : .rsp ∉ regs)
    (hroom : 8 * (regs.length + ws.length) < 2 ^ 64) :
    (s.run (regs.map .push)).Holds ((regs.map s.reg).reverse ++ ws) ∧
      SameButStack s (s.run (regs.map .push)) := by
  induction regs generalizing s ws with
  | nil => exact ⟨h, .refl s⟩
  | cons r regs ih =>
      obtain ⟨hr, hrest⟩ := not_or.mp (List.mem_cons.not.mp hregs)
      rw [List.length_cons] at hroom
      obtain ⟨hholds, hsame⟩ := ih (h.push (w := s.reg r) (by omega)) hrest
        (by rw [List.length_cons]; omega)
      have hvalues : regs.map (s.pushWord (s.reg r)).reg = regs.map s.reg :=
        List.map_congr_left fun r' hr' => pushWord_of_ne (ne_of_mem_of_not_mem hr' hrest)
      rw [hvalues] at hholds
      refine ⟨?_, (SameButStack.refl s).pushWord.trans hsame⟩
      rw [List.map_cons, List.map_cons, List.reverse_cons, List.append_assoc]
      exact hholds

/-- Registers that are popped one after the other. -/
theorem pops (h : s.Holds (vs ++ ws)) (hregs : .rsp ∉ regs) (hnodup : regs.Nodup)
    (hlength : regs.length = vs.length) :
    (s.run (regs.map .pop)).Holds ws ∧ regs.map (s.run (regs.map .pop)).reg = vs := by
  induction regs generalizing s vs with
  | nil =>
      obtain rfl := List.eq_nil_of_length_eq_zero hlength.symm
      exact ⟨h, rfl⟩
  | cons r regs ih =>
      obtain ⟨w, vs, rfl⟩ := List.exists_cons_of_length_eq_add_one hlength.symm
      obtain ⟨hr, hrest⟩ := not_or.mp (List.mem_cons.not.mp hregs)
      obtain ⟨hnot, hnodup⟩ := List.nodup_cons.mp hnodup
      obtain ⟨hpop, hvalue⟩ := Holds.pop h (Ne.symm hr)
      obtain ⟨hholds, hvalues⟩ := ih hpop hrest hnodup (Nat.succ.inj hlength)
      refine ⟨hholds, ?_⟩
      have hkept : (s.run ((r :: regs).map .pop)).reg r = w :=
        (run_pop_of_notMem hnot (Ne.symm hr)).trans hvalue
      rw [List.map_cons, hkept]
      exact congrArg (w :: ·) hvalues

end Holds

end Cpu

end X86
