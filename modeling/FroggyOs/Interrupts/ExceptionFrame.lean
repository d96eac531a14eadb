import FroggyOs.Library.X86

/-!
# Exception entry and exit (`isr.asm`, `isr.h`)

The stubs and `isr_xframe_assembler` push a frame that `isr_exception_handler` reads as an
`isr_stack_frame_t`, and pop it again behind the call. Four words are pushed behind `cr4` and
two of them lie inside the frame, where the structure has no field for them; on the way out
two words are popped in front of `cr4` and not four.
-/

namespace FroggyOs

open X86 X86.Cpu

/-! ## The code -/

/-- The addresses that the code loads. -/
structure IsrLabels where
  isrXframeAssembler : UInt64
  noTask : UInt64
  isrExceptionHandler : UInt64

def isrErrStub (labels : IsrLabels) (vector : Nat) : List Instr := [
  .pushImm (UInt64.ofNat vector),
  .push .r15,
  .leaRel .r15 labels.isrXframeAssembler,
  .jmp .r15]

def isrNoErrStub (labels : IsrLabels) (vector : Nat) : List Instr := [
  .pushImm 0,
  .pushImm (UInt64.ofNat vector),
  .push .r15,
  .leaRel .r15 labels.isrXframeAssembler,
  .jmp .r15]

/-- The vectors with an error code, for which there is an `isr_err_stub`. -/
def errVectors : List Nat := [8, 10, 11, 12, 13, 14, 17, 30]

def isrStub (labels : IsrLabels) (vector : Nat) : List Instr :=
  if vector ∈ errVectors then isrErrStub labels vector else isrNoErrStub labels vector

def pushedRegs : List Reg :=
  [.rax, .rbx, .rcx, .rdx, .rsi, .rdi, .r8, .r9, .r10, .r11, .r12, .r13, .r14, .r15]

def pushagrd : List Instr := pushedRegs.map .push

def poppedRegs : List Reg :=
  [.r15, .r14, .r13, .r12, .r11, .r10, .r9, .r8, .rdi, .rsi, .rdx, .rcx, .rbx, .rax]

def popagrd : List Instr := poppedRegs.map .pop

def pushacrd : List Instr := [
  .movFromCr .rax .cr0,
  .push .rax,
  .movFromCr .rax .cr2,
  .push .rax,
  .movFromCr .rax .cr3,
  .push .rax,
  .movFromCr .rax .cr4,
  .push .rax]

def popacrd : List Instr := [
  .pop .rax,
  .movToCr .cr4 .rax,
  .pop .rax,
  .movToCr .cr3 .rax,
  .pop .rax,
  .movToCr .cr2 .rax,
  .pop .rax,
  .movToCr .cr0 .rax]

/-- `isr_xframe_assembler` behind `pushacrd`, up to the call. -/
def callHandler (labels : IsrLabels) : List Instr := [
  .movAxDs,
  .push .rax,
  .pushImm 0,
  .push .r15,
  .push .rax,
  .xorEax,
  .movAxDs,
  .leaRel .r15 labels.noTask,
  .jmp .r15,
  -- `.no_task`
  .lea .rdi .rsp 0x10,
  .leaRel .r15 labels.isrExceptionHandler]

/-- `isr_xframe_assembler` up to the call. -/
def isrXframeEntry (labels : IsrLabels) : List Instr :=
  [.pop .r15, .push .rbp, .mov .rbp .rsp] ++ pushagrd ++ pushacrd ++ callHandler labels

/-- `isr_xframe_assembler` between the call and `iretq`. -/
def isrXframeExit : List Instr :=
  [.pop .rax, .pop .rax, .movDsAx, .movEsAx] ++ popacrd ++ popagrd ++
    [.pop .rbp, .add .rsp 0x10]

/-! ## The frame -/

structure ControlRegisters where
  cr4 : UInt64
  cr3 : UInt64
  cr2 : UInt64
  cr1 : UInt64
  cr0 : UInt64

structure GeneralRegisters where
  r15 : UInt64
  r14 : UInt64
  r13 : UInt64
  r12 : UInt64
  r11 : UInt64
  r10 : UInt64
  r9 : UInt64
  r8 : UInt64
  rdi : UInt64
  rsi : UInt64
  rdx : UInt64
  rcx : UInt64
  rbx : UInt64
  rax : UInt64

structure BaseFrame where
  rbp : UInt64
  vector : UInt64
  errorCode : UInt64
  rip : UInt64
  cs : UInt64
  rflags : UInt64
  rsp : UInt64
  dss : UInt64

structure IsrStackFrame where
  controlRegisters : ControlRegisters
  generalRegisters : GeneralRegisters
  baseFrame : BaseFrame

/-- All fields are quadwords. -/
def IsrStackFrame.ofWords (word : Nat → UInt64) : IsrStackFrame where
  controlRegisters :=
    { cr4 := word 0, cr3 := word 1, cr2 := word 2, cr1 := word 3, cr0 := word 4 }
  generalRegisters :=
    { r15 := word 5, r14 := word 6, r13 := word 7, r12 := word 8, r11 := word 9,
      r10 := word 10, r9 := word 11, r8 := word 12, rdi := word 13, rsi := word 14,
      rdx := word 15, rcx := word 16, rbx := word 17, rax := word 18 }
  baseFrame :=
    { rbp := word 19, vector := word 20, errorCode := word 21, rip := word 22, cs := word 23,
      rflags := word 24, rsp := word 25, dss := word 26 }

/-- The structure at an address. -/
def IsrStackFrame.read (mem : UInt64 → UInt64) (p : UInt64) : IsrStackFrame :=
  .ofWords fun i => mem (p + 8 * UInt64.ofNat i)

/-! ## An exception -/

/-- An exception and the values that the processor pushes for it, apart from `rsp`. -/
structure Exception where
  vector : Fin 32
  errorCode : UInt64
  rip : UInt64
  cs : UInt64
  rflags : UInt64
  ss : UInt64
  /-- the stack pointer that the processor pushes at -/
  stack : UInt64

namespace Exception

/-- The error code of the processor, or the one the stub pushes. -/
def code (e : Exception) : UInt64 := if e.vector.val ∈ errVectors then e.errorCode else 0

/-- The words of the processor. -/
def cpuFrame (e : Exception) (rsp : UInt64) : List UInt64 :=
  [e.rip, e.cs, e.rflags, rsp, e.ss]

/-- The address of the frame that `iretq` takes. -/
def cpuFrameAddress (e : Exception) : UInt64 := e.stack - 40

/-- The processor gives control to the stub. -/
def deliver (e : Exception) (s : Cpu) : Cpu :=
  let t := s.setReg .rsp e.stack
  let t := ((((t.pushWord e.ss).pushWord (s.reg .rsp)).pushWord e.rflags).pushWord e.cs).pushWord
    e.rip
  if e.vector.val ∈ errVectors then t.pushWord e.errorCode else t

/-- The state in which `isr_exception_handler` is called. -/
def handlerCall (e : Exception) (labels : IsrLabels) (s : Cpu) : Cpu :=
  (e.deliver s).run (isrStub labels e.vector ++ isrXframeEntry labels)

end Exception

/-! ## Entry -/

/-- The words of the frame from the vector upwards. -/
def Exception.base (e : Exception) (rsp : UInt64) : List UInt64 :=
  [UInt64.ofNat e.vector, e.code] ++ e.cpuFrame rsp

/-- All words that are pushed, as far as `cr4`. -/
def Exception.saved (e : Exception) (s : Cpu) : List UInt64 :=
  [s.cr .cr4, s.cr .cr3, s.cr .cr2, s.cr .cr0] ++ poppedRegs.map s.reg ++
    s.reg .rbp :: e.base (s.reg .rsp)

section Entry

variable {s t : Cpu} {ws : List UInt64}

theorem deliver_same (e : Exception) (s : Cpu) : SameButStack s (e.deliver s) := by
  have hstack : SameButStack s (s.setReg .rsp e.stack) :=
    ⟨fun r hr => setReg_of_ne hr, rfl, rfl⟩
  rw [Exception.deliver]
  split
  case isTrue => exact hstack.pushWord.pushWord.pushWord.pushWord.pushWord.pushWord
  case isFalse => exact hstack.pushWord.pushWord.pushWord.pushWord.pushWord

theorem deliver_holds (e : Exception) (s : Cpu) :
    (e.deliver s).Holds ((if e.vector.val ∈ errVectors then [e.errorCode] else []) ++
      e.cpuFrame (s.reg .rsp)) := by
  have hstart : (s.setReg .rsp e.stack).Holds [] := WordsAt.nil
  have hframe := ((((hstart.push (w := e.ss) (by simp)).push (w := s.reg .rsp)
    (by simp)).push (w := e.rflags) (by simp)).push (w := e.cs) (by simp)).push
      (w := e.rip) (by simp)
  rw [Exception.deliver]
  split
  case isTrue => exact hframe.push (by simp)
  case isFalse => exact hframe

/-- A stub borrows `r15` and leaves its vector on the stack. -/
theorem errStub_pop (labels : IsrLabels) (n : Nat) (h : t.Holds ws)
    (hroom : 8 * (ws.length + 2) < 2 ^ 64) :
    (t.run (isrErrStub labels n ++ [.pop .r15])).Holds (UInt64.ofNat n :: ws) ∧
      SameButStack t (t.run (isrErrStub labels n ++ [.pop .r15])) := by
  have hvector : (t.exec (.pushImm (UInt64.ofNat n))).Holds (UInt64.ofNat n :: ws) :=
    h.push (by omega)
  have hsaved : ((t.exec (.pushImm (UInt64.ofNat n))).exec (.push .r15)).Holds
      (t.reg .r15 :: UInt64.ofNat n :: ws) := hvector.push (by rw [List.length_cons]; omega)
  have hpop := (hsaved.setReg (v := labels.isrXframeAssembler) (r := .r15) (by decide)).pop
    (r := .r15) (by decide)
  refine ⟨hpop.1, ⟨fun r hr => ?_, rfl, rfl⟩⟩
  by_cases hr15 : r = .r15
  · subst hr15
    exact hpop.2
  · exact (Cpu.setReg_of_ne hr15).trans ((Cpu.setReg_of_ne hr).trans
      ((Cpu.setReg_of_ne hr15).trans ((Cpu.pushWord_of_ne hr).trans (Cpu.pushWord_of_ne hr))))

theorem stub_pop (e : Exception) (labels : IsrLabels) (s : Cpu) :
    ((e.deliver s).run (isrStub labels e.vector ++ [.pop .r15])).Holds (e.base (s.reg .rsp)) ∧
      SameButStack s ((e.deliver s).run (isrStub labels e.vector ++ [.pop .r15])) := by
  have hholds := deliver_holds e s
  have hsame := deliver_same e s
  rw [isrStub, Exception.base, Exception.code]
  split
  case isTrue herr =>
    rw [if_pos herr] at hholds
    obtain ⟨hstub, hstub'⟩ := errStub_pop labels e.vector hholds (by simp [Exception.cpuFrame])
    exact ⟨hstub, hsame.trans hstub'⟩
  case isFalse herr =>
    have hcode : isrNoErrStub labels e.vector ++ [.pop .r15] =
        .pushImm 0 :: (isrErrStub labels e.vector ++ [.pop .r15]) := rfl
    rw [if_neg herr] at hholds
    rw [hcode, Cpu.run_cons]
    have hzero : ((e.deliver s).exec (.pushImm 0)).Holds (0 :: e.cpuFrame (s.reg .rsp)) :=
      hholds.push (by simp [Exception.cpuFrame])
    have hzero' : SameButStack (e.deliver s) ((e.deliver s).exec (.pushImm 0)) :=
      ⟨fun r hr => Cpu.pushWord_of_ne hr, rfl, rfl⟩
    obtain ⟨hstub, hstub'⟩ := errStub_pop labels e.vector hzero (by simp [Exception.cpuFrame])
    exact ⟨hstub, (hsame.trans hzero').trans hstub'⟩

/-- The frame of `rbp`. -/
theorem pushRbp (h : t.Holds ws) (hroom : 8 * (ws.length + 1) < 2 ^ 64) :
    (t.run [.push .rbp, .mov .rbp .rsp]).Holds (t.reg .rbp :: ws) ∧
      (∀ r ≠ .rsp, r ≠ .rbp → (t.run [.push .rbp, .mov .rbp .rsp]).reg r = t.reg r) ∧
      (t.run [.push .rbp, .mov .rbp .rsp]).cr = t.cr ∧
      (t.run [.push .rbp, .mov .rbp .rsp]).ds = t.ds :=
  ⟨(h.push hroom).setReg (by decide),
    fun _ hrsp hrbp => (setReg_of_ne hrbp).trans (pushWord_of_ne hrsp), rfl, rfl⟩

theorem pushagrd_holds (h : t.Holds ws) (hroom : 8 * (ws.length + 14) < 2 ^ 64) :
    (t.run pushagrd).Holds (poppedRegs.map t.reg ++ ws) ∧ SameButStack t (t.run pushagrd) := by
  have hlength : pushedRegs.length = 14 := rfl
  have hreverse : (pushedRegs.map t.reg).reverse = poppedRegs.map t.reg := rfl
  rw [← hreverse]
  exact h.pushes (by decide) (by omega)

/-- The control registers go through `rax`. -/
theorem pushacrd_holds (h : t.Holds ws) (hroom : 8 * (ws.length + 4) < 2 ^ 64) :
    (t.run pushacrd).Holds (t.cr .cr4 :: t.cr .cr3 :: t.cr .cr2 :: t.cr .cr0 :: ws) ∧
      (t.run pushacrd).reg .rax = t.cr .cr4 ∧ (t.run pushacrd).reg .r15 = t.reg .r15 ∧
      (t.run pushacrd).ds = t.ds := by
  have hpush : ∀ {u : Cpu} {vs : List UInt64} (c : CtrlReg), u.Holds vs →
      8 * (vs.length + 1) < 2 ^ 64 →
      (u.run [.movFromCr .rax c, .push .rax]).Holds (u.cr c :: vs) := by
    intro u vs c hu hvs
    exact (hu.setReg (by decide)).push hvs
  refine ⟨?_, rfl, rfl, rfl⟩
  exact hpush .cr4 (hpush .cr3 (hpush .cr2 (hpush .cr0 h (by omega)) (by simp; omega))
    (by simp; omega)) (by simp; omega)

/-- Two of the four words behind `cr4` lie above the address in `rdi`. -/
theorem callHandler_holds (labels : IsrLabels) (h : t.Holds ws)
    (hroom : 8 * (ws.length + 4) < 2 ^ 64) :
    (t.run (callHandler labels)).Holds (withAx (t.reg .rax) t.ds :: t.reg .r15 :: 0 ::
        withAx (t.reg .rax) t.ds :: ws) ∧
      (t.run (callHandler labels)).reg .rdi = (t.run (callHandler labels)).reg .rsp + 0x10 := by
  have hax : (t.exec .movAxDs).Holds ws := h.setReg (by decide)
  have hfirst := hax.pushReg (r := .rax) setReg_self (by omega)
  have hzero := hfirst.push (w := 0) (by simp; omega)
  have hr15 := hzero.pushReg (r := .r15) (w := t.reg .r15) rfl (by simp; omega)
  have hlast := hr15.pushReg (r := .rax) (w := withAx (t.reg .rax) t.ds) rfl (by simp; omega)
  have hcode : callHandler labels =
      ([.movAxDs, .push .rax, .pushImm 0, .push .r15, .push .rax] : List Instr) ++
        (([.xorEax, .movAxDs, .leaRel .r15 labels.noTask, .jmp .r15] : List Instr) ++
          ([.lea .rdi .rsp 0x10, .leaRel .r15 labels.isrExceptionHandler] : List Instr)) := rfl
  rw [hcode, run_append, run_append]
  have hpushed : (t.run [.movAxDs, .push .rax, .pushImm 0, .push .r15, .push .rax]).Holds
      (withAx (t.reg .rax) t.ds :: t.reg .r15 :: 0 :: withAx (t.reg .rax) t.ds :: ws) := hlast
  generalize t.run [.movAxDs, .push .rax, .pushImm 0, .push .r15, .push .rax] = u at hpushed
  have hjump := @Holds.quiet _ _ [.xorEax, .movAxDs, .leaRel .r15 labels.noTask, .jmp .r15]
    hpushed (by simp [Instr.quiet])
  generalize u.run [.xorEax, .movAxDs, .leaRel .r15 labels.noTask, .jmp .r15] = v at hjump
  refine ⟨hjump.quiet (by simp [Instr.quiet]), ?_⟩
  rfl

/-- What lies on the stack when `isr_exception_handler` is called. -/
theorem handlerCall_holds (e : Exception) (labels : IsrLabels) (s : Cpu) :
    (e.handlerCall labels s).Holds (withAx (s.cr .cr4) s.ds :: s.reg .r15 :: 0 ::
        withAx (s.cr .cr4) s.ds :: e.saved s) ∧
      (e.handlerCall labels s).reg .rdi = (e.handlerCall labels s).reg .rsp + 0x10 := by
  have hcode : isrStub labels e.vector ++ isrXframeEntry labels =
      (isrStub labels e.vector ++ ([.pop .r15] : List Instr)) ++
        (([.push .rbp, .mov .rbp .rsp] : List Instr) ++
          (pushagrd ++ (pushacrd ++ callHandler labels))) := by
    simp [isrXframeEntry]
  rw [Exception.handlerCall, hcode, run_append, run_append, run_append, run_append]
  obtain ⟨hstub, hsame⟩ := stub_pop e labels s
  generalize (e.deliver s).run (isrStub labels e.vector ++ [.pop .r15]) = t at hstub hsame
  have hbase : (e.base (s.reg .rsp)).length = 7 := rfl
  obtain ⟨hrbp, hrbpSame, hcr, hds⟩ := pushRbp hstub (by omega)
  generalize t.run [.push .rbp, .mov .rbp .rsp] = u at hrbp hrbpSame hcr hds
  obtain ⟨hagrd, hagrdSame⟩ := pushagrd_holds hrbp (by rw [List.length_cons]; omega)
  generalize u.run pushagrd = v at hagrd hagrdSame
  have hlength : (poppedRegs.map u.reg).length = 14 := rfl
  obtain ⟨hacrd, hrax, hr15, hdsAcrd⟩ := pushacrd_holds hagrd
    (by rw [List.length_append, List.length_cons]; omega)
  generalize v.run pushacrd = w at hacrd hrax hr15 hdsAcrd
  have hregs : poppedRegs.map u.reg = poppedRegs.map s.reg := by
    apply List.map_congr_left
    intro r hr
    have hne : r ≠ .rsp ∧ r ≠ .rbp := by
      constructor <;> rintro rfl <;> exact absurd hr (by decide)
    rw [hrbpSame r hne.1 hne.2, hsame.reg r hne.1]
  have hcall := callHandler_holds labels hacrd (by simp [hbase, hlength])
  rw [hrax, hr15, hdsAcrd, hagrdSame.cr, hagrdSame.ds, hagrdSame.reg .r15 (by decide), hcr, hds,
    hsame.cr, hsame.ds, hrbpSame .r15 (by decide) (by decide), hsame.reg .r15 (by decide),
    hsame.reg .rbp (by decide), hregs] at hcall
  exact hcall

end Entry

/-! ## What the handler reads -/

theorem IsrStackFrame.ofWords_congr {word word' : Nat → UInt64}
    (h : ∀ i < 27, word i = word' i) : ofWords word = ofWords word' := by
  simp [ofWords, h]

/-- Two words stand in front of the value of `cr4` and the structure has one field that is not
pushed, so from `cr0` on every field holds the register of the field in front of it. -/
theorem read_handlerCall (e : Exception) (labels : IsrLabels) (s : Cpu) :
    IsrStackFrame.read (e.handlerCall labels s).mem ((e.handlerCall labels s).reg .rdi) =
      { controlRegisters :=
          { cr4 := 0, cr3 := withAx (s.cr .cr4) s.ds, cr2 := s.cr .cr4, cr1 := s.cr .cr3,
            cr0 := s.cr .cr2 }
        generalRegisters :=
          { r15 := s.cr .cr0, r14 := s.reg .r15, r13 := s.reg .r14, r12 := s.reg .r13,
            r11 := s.reg .r12, r10 := s.reg .r11, r9 := s.reg .r10, r8 := s.reg .r9,
            rdi := s.reg .r8, rsi := s.reg .rdi, rdx := s.reg .rsi, rcx := s.reg .rdx,
            rbx := s.reg .rcx, rax := s.reg .rbx }
        baseFrame :=
          { rbp := s.reg .rax, vector := s.reg .rbp, errorCode := UInt64.ofNat e.vector,
            rip := e.code, cs := e.rip, rflags := e.cs, rsp := e.rflags,
            dss := s.reg .rsp } } := by
  obtain ⟨hholds, hrdi⟩ := handlerCall_holds e labels s
  obtain ⟨-, hwords⟩ := WordsAt.cons_iff.mp hholds
  obtain ⟨-, hwords⟩ := WordsAt.cons_iff.mp hwords
  have haddress : (e.handlerCall labels s).reg .rdi =
      (e.handlerCall labels s).reg .rsp + 8 + 8 := by
    rw [hrdi, UInt64.add_assoc]
    rfl
  rw [← haddress] at hwords
  refine (IsrStackFrame.ofWords_congr fun i hi => ?_).trans
    (rfl : IsrStackFrame.ofWords (fun i =>
      (0 :: withAx (s.cr .cr4) s.ds :: e.saved s)[i]?.getD 0) = _)
  have hlength : (0 :: withAx (s.cr .cr4) s.ds :: e.saved s).length = 28 := rfl
  rw [hwords i (by omega), List.getElem?_eq_getElem (by omega)]
  rfl

/-- Every field has the value of its register at the exception, or what the processor and the
stub pushed for it. -/
structure IsrStackFrame.Captures (f : IsrStackFrame) (e : Exception) (s : Cpu) : Prop where
  cr0 : f.controlRegisters.cr0 = s.cr .cr0
  cr2 : f.controlRegisters.cr2 = s.cr .cr2
  cr3 : f.controlRegisters.cr3 = s.cr .cr3
  cr4 : f.controlRegisters.cr4 = s.cr .cr4
  general : f.generalRegisters =
    { r15 := s.reg .r15, r14 := s.reg .r14, r13 := s.reg .r13, r12 := s.reg .r12,
      r11 := s.reg .r11, r10 := s.reg .r10, r9 := s.reg .r9, r8 := s.reg .r8,
      rdi := s.reg .rdi, rsi := s.reg .rsi, rdx := s.reg .rdx, rcx := s.reg .rcx,
      rbx := s.reg .rbx, rax := s.reg .rax }
  rbp : f.baseFrame.rbp = s.reg .rbp
  vector : f.baseFrame.vector = UInt64.ofNat e.vector
  errorCode : f.baseFrame.errorCode = e.code
  rip : f.baseFrame.rip = e.rip
  cs : f.baseFrame.cs = e.cs
  rflags : f.baseFrame.rflags = e.rflags
  rsp : f.baseFrame.rsp = s.reg .rsp

/-- Nothing is set, apart from `cr3`, which holds the data segment. -/
structure AllZero (e : Exception) (s : Cpu) : Prop where
  reg : ∀ r, s.reg r = 0
  cr0 : s.cr .cr0 = 0
  cr2 : s.cr .cr2 = 0
  cr4 : s.cr .cr4 = 0
  cr3 : s.cr .cr3 = s.ds.toUInt64
  vector : e.vector = 0
  code : e.code = 0
  rip : e.rip = 0
  cs : e.cs = 0
  rflags : e.rflags = 0

theorem withAx_zero (ds : UInt16) : withAx 0 ds = ds.toUInt64 := by
  simp [withAx]

theorem vector_eq_zero {n : Fin 32} (h : UInt64.ofNat n = 0) : n = 0 := by
  have hnat := congrArg UInt64.toNat h
  rw [UInt64.toNat_ofNat', Nat.mod_eq_of_lt (by omega)] at hnat
  exact Fin.ext hnat

/-- The frame captures the state of an exception only where the shift by one field cannot be
seen. -/
theorem handlerCall_captures_iff (e : Exception) (labels : IsrLabels) (s : Cpu) :
    (IsrStackFrame.read (e.handlerCall labels s).mem
      ((e.handlerCall labels s).reg .rdi)).Captures e s ↔ AllZero e s := by
  rw [read_handlerCall]
  constructor
  · intro h
    obtain ⟨hcr0, hcr2, hcr3, hcr4, hgeneral, hrbp, hvector, hcode, hrip, hcs, hrflags, hrsp⟩ := h
    simp only [GeneralRegisters.mk.injEq] at hgeneral
    -- each field equals the one in front of it, and the first is 0
    have hreg : ∀ r, s.reg r = 0 := by
      intro r
      cases r <;> simp_all
    have hzero : UInt64.ofNat e.vector = 0 := hvector.symm.trans (hreg .rbp)
    have hcode' : e.code = 0 := hcode.symm.trans hzero
    have hrip' : e.rip = 0 := hrip.symm.trans hcode'
    have hcs' : e.cs = 0 := hcs.symm.trans hrip'
    have hcr2' : s.cr .cr2 = 0 := hcr2.symm.trans hcr4.symm
    refine ⟨hreg, hcr0.symm.trans hcr2', hcr2', hcr4.symm, ?_, ?_, hcode', hrip', hcs',
      hrflags.symm.trans hcs'⟩
    · rw [← hcr3, ← hcr4, withAx_zero]
    · exact vector_eq_zero hzero
  · intro h
    constructor <;> simp [h.reg, h.cr0, h.cr2, h.cr3, h.cr4, h.vector, h.code, h.rip, h.cs,
      h.rflags, withAx_zero]

/-! ## Exit -/

/-- A handler that returns: the stack pointer, the registers a function has to keep and the 30
words that lie on the stack for it are what they were at the call. -/
structure ReturningHandler where
  call : Cpu → Cpu
  rsp : ∀ s, (call s).reg .rsp = s.reg .rsp
  calleeSaved : ∀ s, ∀ r ∈ [Reg.rbx, .rbp, .r12, .r13, .r14, .r15], (call s).reg r = s.reg r
  stack : ∀ s ws, ws.length ≤ 30 → s.Holds ws → (call s).Holds ws

/-- The state in front of `iretq`. -/
def Exception.return (e : Exception) (labels : IsrLabels) (handler : ReturningHandler)
    (s : Cpu) : Cpu :=
  (handler.call (e.handlerCall labels s)).run isrXframeExit

/-- The state of the exception, with the stack pointer at the frame that `iretq` takes. -/
structure Restores (e : Exception) (s t : Cpu) : Prop where
  reg : ∀ r ≠ .rsp, t.reg r = s.reg r
  cr : t.cr = s.cr
  ds : t.ds = s.ds
  rsp : t.reg .rsp = e.cpuFrameAddress

theorem handlerCall_rsp (e : Exception) (labels : IsrLabels) (s : Cpu) :
    (e.handlerCall labels s).reg .rsp = e.cpuFrameAddress - 200 := by
  rw [Exception.handlerCall, isrStub, Exception.deliver]
  split
  case isTrue =>
    have hshift : stackShift (isrErrStub labels e.vector ++ isrXframeEntry labels) =
        some (-192) := rfl
    rw [run_rsp hshift]
    simp only [pushWord_rsp, setReg_self, Exception.cpuFrameAddress]
    grind
  case isFalse =>
    have hshift : stackShift (isrNoErrStub labels e.vector ++ isrXframeEntry labels) =
        some (-200) := rfl
    rw [run_rsp hshift]
    simp only [pushWord_rsp, setReg_self, Exception.cpuFrameAddress]
    grind

/-- 25 words are pushed; 21 are popped and two skipped. -/
theorem return_rsp (e : Exception) (labels : IsrLabels) (handler : ReturningHandler) (s : Cpu) :
    (e.return labels handler s).reg .rsp = e.cpuFrameAddress - 16 := by
  have hshift : stackShift isrXframeExit = some 184 := rfl
  rw [Exception.return, run_rsp hshift, handler.rsp, handlerCall_rsp]
  grind

/-- `popacrd` takes four words. -/
theorem popacrd_holds {t : Cpu} {a b c d : UInt64} {ws : List UInt64}
    (h : t.Holds (a :: b :: c :: d :: ws)) :
    (t.run popacrd).Holds ws ∧ (t.run popacrd).ds = t.ds ∧ (t.run popacrd).cr =
      Function.update (Function.update (Function.update (Function.update t.cr .cr4 a) .cr3 b)
        .cr2 c) .cr0 d := by
  have hpop : ∀ {u : Cpu} {w : UInt64} {vs : List UInt64} (c : CtrlReg), u.Holds (w :: vs) →
      (u.run [.pop .rax, .movToCr c .rax]).Holds vs ∧
        (u.run [.pop .rax, .movToCr c .rax]).ds = u.ds ∧
        (u.run [.pop .rax, .movToCr c .rax]).cr = Function.update u.cr c w := by
    intro u w vs c hu
    obtain ⟨hholds, hvalue⟩ := Holds.pop (r := .rax) hu (by decide)
    exact ⟨hholds.keep rfl rfl, rfl, congrArg (Function.update u.cr c) hvalue⟩
  have hcode : popacrd = ([.pop .rax, .movToCr .cr4 .rax] : List Instr) ++
      (([.pop .rax, .movToCr .cr3 .rax] : List Instr) ++
        (([.pop .rax, .movToCr .cr2 .rax] : List Instr) ++
          ([.pop .rax, .movToCr .cr0 .rax] : List Instr))) := rfl
  rw [hcode, run_append, run_append, run_append]
  obtain ⟨h4, hds4, hcr4⟩ := hpop .cr4 h
  obtain ⟨h3, hds3, hcr3⟩ := hpop .cr3 h4
  obtain ⟨h2, hds2, hcr2⟩ := hpop .cr2 h3
  obtain ⟨h0, hds0, hcr0⟩ := hpop .cr0 h2
  exact ⟨h0, by rw [hds0, hds2, hds3, hds4], by rw [hcr0, hcr2, hcr3, hcr4]⟩

/-- The exit path gives every register the value that was pushed for another one, two words
further down for the general registers. -/
theorem return_state (e : Exception) (labels : IsrLabels) (handler : ReturningHandler)
    (s : Cpu) :
    (e.return labels handler s).cr .cr4 = 0 ∧
      (e.return labels handler s).cr .cr3 = withAx (s.cr .cr4) s.ds ∧
      (e.return labels handler s).cr .cr2 = s.cr .cr4 ∧
      (e.return labels handler s).cr .cr0 = s.cr .cr3 ∧
      poppedRegs.map (e.return labels handler s).reg =
        s.cr .cr2 :: s.cr .cr0 :: (poppedRegs.take 12).map s.reg ∧
      (e.return labels handler s).reg .rbp = s.reg .rbx ∧
      (e.return labels handler s).ds = (s.reg .r15).toUInt16 := by
  have hcode : isrXframeExit = ([.pop .rax, .pop .rax, .movDsAx, .movEsAx] : List Instr) ++
      (popacrd ++ (popagrd ++ ([.pop .rbp, .add .rsp 0x10] : List Instr))) := by
    simp [isrXframeExit]
  have hwords : (withAx (s.cr .cr4) s.ds :: s.reg .r15 :: 0 :: withAx (s.cr .cr4) s.ds ::
      e.saved s).length = 30 := rfl
  have hcall := handler.stack _ _ (Nat.le_of_eq hwords) (handlerCall_holds e labels s).1
  rw [Exception.return, hcode, run_append, run_append, run_append]
  generalize handler.call (e.handlerCall labels s) = t at hcall
  obtain ⟨hfirst, -⟩ := Holds.pop (r := .rax) hcall (by decide)
  obtain ⟨hsecond, hrax⟩ := Holds.pop (r := .rax) hfirst (by decide)
  have hsegments : (t.run [.pop .rax, .pop .rax, .movDsAx, .movEsAx]).Holds
      (0 :: withAx (s.cr .cr4) s.ds :: e.saved s) := hsecond.keep rfl rfl
  have hds : (t.run [.pop .rax, .pop .rax, .movDsAx, .movEsAx]).ds =
      (s.reg .r15).toUInt16 := congrArg UInt64.toUInt16 hrax
  generalize t.run [.pop .rax, .pop .rax, .movDsAx, .movEsAx] = u at hsegments hds
  obtain ⟨hacrd, hdsAcrd, hcr⟩ := popacrd_holds hsegments
  generalize u.run popacrd = v at hacrd hdsAcrd hcr
  have hagrd := @Holds.pops v (s.reg .rbx :: s.reg .rax :: s.reg .rbp :: e.base (s.reg .rsp))
    (s.cr .cr2 :: s.cr .cr0 :: (poppedRegs.take 12).map s.reg) poppedRegs hacrd (by decide)
    (by decide) rfl
  obtain ⟨hholds, hvalues⟩ := hagrd
  obtain ⟨hcrAgrd, hdsAgrd⟩ := @run_pop_cr v poppedRegs
  have hpopagrd : v.run popagrd = v.run (poppedRegs.map .pop) := rfl
  rw [← hpopagrd] at hholds hvalues hcrAgrd hdsAgrd
  generalize v.run popagrd = w at hholds hvalues hcrAgrd hdsAgrd
  obtain ⟨-, hrbp⟩ := Holds.pop (r := .rbp) hholds (by decide)
  have hcrExit : (w.run [.pop .rbp, .add .rsp 0x10]).cr = w.cr := rfl
  have hdsExit : (w.run [.pop .rbp, .add .rsp 0x10]).ds = w.ds := rfl
  have hrbpExit : (w.run [.pop .rbp, .add .rsp 0x10]).reg .rbp = s.reg .rbx :=
    (setReg_of_ne (by decide)).trans hrbp
  have hregExit : poppedRegs.map (w.run [.pop .rbp, .add .rsp 0x10]).reg =
      poppedRegs.map w.reg := by
    apply List.map_congr_left
    intro r hr
    have hne : r ≠ .rsp ∧ r ≠ .rbp := by
      constructor <;> rintro rfl <;> exact absurd hr (by decide)
    exact (setReg_of_ne hne.1).trans ((setReg_of_ne hne.2).trans (setReg_of_ne hne.1))
  rw [hcrExit, hdsExit, hrbpExit, hregExit, hvalues, hcrAgrd, hdsAgrd, hdsAcrd, hds, hcr]
  exact ⟨rfl, rfl, rfl, rfl, rfl, rfl, rfl⟩

/-- The exit path never restores the state of the exception. -/
theorem return_not_restores (e : Exception) (labels : IsrLabels) (handler : ReturningHandler)
    (s : Cpu) : ¬ Restores e s (e.return labels handler s) := by
  intro h
  have hrsp := h.rsp
  rw [return_rsp] at hrsp
  grind

/-- A processor with nothing set, and one in protected mode. -/
def clearCpu (cr0 : UInt64) : Cpu where
  reg _ := 0
  cr c := if c = .cr0 then cr0 else 0
  ds := 0
  es := 0
  mem _ := 0

/-- A division by zero. -/
def divideError : Exception := ⟨0, 0, 0, 0, 0, 0, 0x8000⟩

/-- In protected mode bit 0 of `cr0` is set, and is read as `r15`. -/
theorem not_captures : ¬ (IsrStackFrame.read
    (divideError.handlerCall ⟨0, 0, 0⟩ (clearCpu 1)).mem
    ((divideError.handlerCall ⟨0, 0, 0⟩ (clearCpu 1)).reg .rdi)).Captures divideError
      (clearCpu 1) := by
  intro h
  have hcr0 := h.cr0
  rw [read_handlerCall] at hcr0
  exact absurd hcr0 (by decide)

/-- The handler that returns at once. -/
def emptyHandler : ReturningHandler where
  call s := s
  rsp _ := rfl
  calleeSaved _ _ _ := rfl
  stack _ _ _ h := h

theorem not_restores_divideError : ¬ Restores divideError (clearCpu 1)
    (divideError.return ⟨0, 0, 0⟩ emptyHandler (clearCpu 1)) := by
  intro h
  have hrsp := h.rsp
  rw [return_rsp] at hrsp
  exact absurd hrsp (by decide)

end FroggyOs
