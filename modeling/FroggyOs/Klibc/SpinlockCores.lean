import FroggyOs.Klibc.SpinlockAsm
import FroggyOs.Library.Interleaving
import FroggyOs.Library.Mutex

/-!
# The spinlock on several cores

Any number of cores run `_acquire_spinlock` and `_release_spinlock` on one lock word, an
instruction of one core at a time, and write whatever they like to all other words in between.
Memory is seen as doublewords at their addresses, and a write is seen by all cores at once.

The lock excludes, although its loop looks at the wrong word. What the wrong word costs is
progress: a core in the loop leaves it when bit 0 of the word at `rax` is clear, and whether the
lock is free has nothing to do with it.
-/

namespace FroggyOs

open X86 Function Interleaving Simulation Mutex

/-! ## Cores -/

/-- Where a core is. -/
inductive CorePhase
  | idle
  /-- in `_acquire_spinlock` -/
  | acquiring (s : SpinState)
  /-- between the two calls -/
  | critical
  /-- before `mov dword [rdi], 0` of `_release_spinlock` -/
  | releasing
  /-- before the `ret` of `_release_spinlock` -/
  | released

structure SpinCores (Core : Type*) where
  mem : UInt64 → UInt32
  core : Core → CorePhase

/-- The memory after the next instruction: `bts` sets bit 0 of its operand. -/
def SpinState.write (mem : UInt64 → UInt32) (s : SpinState) : UInt64 → UInt32 :=
  match s.instr with
  | some (.lockBts base) => update mem (s.reg base) (mem (s.reg base) ||| 1)
  | _ => mem

variable {Core : Type*} [DecidableEq Core]

/-- The core `c` moves on. -/
def SpinCores.goto (s : SpinCores Core) (c : Core) (phase : CorePhase) : SpinCores Core :=
  { s with core := update s.core c phase }

/-- One step of the core `c` with the lock at `lock`. -/
inductive CoreStep (lock : UInt64) (c : Core) :
    SpinCores Core → Option (Event Core) → SpinCores Core → Prop
  | call {s : SpinCores Core} {reg : Reg → UInt64} (carry zero : Bool) (hcore : s.core c = .idle)
      (hreg : reg .rdi = lock) :
      CoreStep lock c s none (s.goto c (.acquiring (.entry reg carry zero)))
  | instr {s : SpinCores Core} {p : SpinState} (hcore : s.core c = .acquiring p) (hpc : p.pc ≠ 3) :
      CoreStep lock c s none ({ s with mem := p.write s.mem }.goto c (.acquiring (p.step s.mem)))
  | ret {s : SpinCores Core} {p : SpinState} (hcore : s.core c = .acquiring p) (hpc : p.pc = 3) :
      CoreStep lock c s (some (.enter c)) (s.goto c .critical)
  | release {s : SpinCores Core} (hcore : s.core c = .critical) :
      CoreStep lock c s (some (.leave c)) (s.goto c .releasing)
  | clear {s : SpinCores Core} (hcore : s.core c = .releasing) :
      CoreStep lock c s none ({ s with mem := update s.mem lock 0 }.goto c .released)
  | retRelease {s : SpinCores Core} (hcore : s.core c = .released) :
      CoreStep lock c s none (s.goto c .idle)
  | write {s : SpinCores Core} {a : UInt64} (v : UInt32)
      (hcore : s.core c = .idle ∨ s.core c = .critical) (ha : a ≠ lock) :
      CoreStep lock c s none { s with mem := update s.mem a v }

/-- The cores from any state in which none is in the lock and the lock word is clear. -/
def spinCores (lock : UInt64) : System (SpinCores Core) (Event Core) where
  start s := s.mem lock = 0 ∧ ∀ c, s.core c = .idle
  step s label s' := ∃ c, CoreStep lock c s label s'

/-! ## The invariant -/

/-- The core has set the bit and not yet cleared the word. -/
def CorePhase.Owns : CorePhase → Prop
  | acquiring p => p.Acquired
  | critical | releasing => True
  | idle | released => False

/-- A core in `_acquire_spinlock` is at one of its instructions, with the lock in `rdi`. -/
def CorePhase.Sound (lock : UInt64) : CorePhase → Prop
  | acquiring p => p.pc < 8 ∧ p.reg .rdi = lock
  | _ => True

/-- The lock word is 1 while some core owns the lock, and no two cores do. -/
structure CoresInv (lock : UInt64) (s : SpinCores Core) : Prop where
  sound : ∀ c, (s.core c).Sound lock
  single : AtMostOne CorePhase.Owns s.core
  taken : ∀ c, (s.core c).Owns → s.mem lock = 1
  free : (∀ c, ¬ (s.core c).Owns) → s.mem lock = 0

section Steps

variable {lock : UInt64} {s s' : SpinCores Core} {c d : Core} {p : SpinState}
  {mem : UInt64 → UInt32} {label : Option (Event Core)}

omit [DecidableEq Core] in
/-- The instructions of `_acquire_spinlock`, by what they do to the lock. -/
theorem SpinState.step_lock (hpc : p.pc < 8) (hreg : p.reg .rdi = lock) (hret : p.pc ≠ 3)
    (mem : UInt64 → UInt32) :
    ((p.step mem).pc < 8 ∧ (p.step mem).reg .rdi = lock) ∧
    (p.write mem = update mem lock (mem lock ||| 1) ∧
        ((p.step mem).Acquired ↔ mem lock &&& 1 = 0) ∧ ¬ p.Acquired ∨
      p.write mem = mem ∧ ((p.step mem).Acquired ↔ p.Acquired)) := by
  have hne : Reg.rdi ≠ .rax := by decide
  obtain ⟨pc, reg, carry, zero⟩ := p
  have hinside : pc < 8 := hpc
  have hrdi : reg .rdi = lock := hreg
  obtain rfl | rfl | rfl | rfl | rfl | rfl | rfl | rfl := pc_cases hinside
  · simp [SpinState.step, SpinState.write, instr, acquireSpinlockCode, Acquired, hrdi]
  · cases carry <;>
      simp [SpinState.step, SpinState.write, instr, acquireSpinlockCode, Acquired, hrdi]
  · simp [SpinState.step, SpinState.write, instr, acquireSpinlockCode, Acquired, hrdi, hne]
  · exact absurd rfl hret
  · simp [SpinState.step, SpinState.write, instr, acquireSpinlockCode, Acquired, hrdi]
  · simp [SpinState.step, SpinState.write, instr, acquireSpinlockCode, Acquired, hrdi]
  · cases zero <;>
      simp [SpinState.step, SpinState.write, instr, acquireSpinlockCode, Acquired, hrdi]
  · simp [SpinState.step, SpinState.write, instr, acquireSpinlockCode, Acquired, hrdi]

/-- A step that neither takes nor gives back the lock. -/
theorem CoresInv.move (h : CoresInv lock s) {next : CorePhase} (hsound : next.Sound lock)
    (howns : next.Owns ↔ (s.core c).Owns) (hmem : mem lock = s.mem lock) :
    CoresInv lock ({ s with mem }.goto c next) where
  sound := forall_update (p := CorePhase.Sound lock) h.sound hsound fun _ _ hd => hd
  single := h.single.step howns.mp
  taken := by
    have hall : ∀ d, (update s.core c next d).Owns → mem lock = 1 := by
      refine forall_update (p := fun phase : CorePhase => phase.Owns → s.mem lock = 1)
        (q := fun phase : CorePhase => phase.Owns → mem lock = 1) h.taken ?_ ?_
      · exact fun hnext => hmem.trans (h.taken c (howns.mp hnext))
      · exact fun d _ htaken hd => hmem.trans (htaken hd)
    exact hall
  free := by
    intro hnone
    refine hmem.trans (h.free fun d hd => hnone d ?_)
    by_cases hdc : d = c
    · subst hdc
      rw [SpinCores.goto]
      simpa using howns.mpr hd
    · rw [SpinCores.goto]
      simpa [hdc] using hd

theorem CoresInv.take (h : CoresInv lock s) {next : CorePhase} (hsound : next.Sound lock)
    (hnext : next.Owns) (hclear : s.mem lock = 0) (hmem : mem lock = 1) :
    CoresInv lock ({ s with mem }.goto c next) where
  sound := forall_update (p := CorePhase.Sound lock) h.sound hsound fun _ _ hd => hd
  single := by
    refine AtMostOne.enter fun d hd => ?_
    have htaken := h.taken d hd
    rw [hclear] at htaken
    exact absurd htaken (by decide)
  taken := fun _ _ => hmem
  free := fun hnone => absurd hnext (by simpa [SpinCores.goto] using hnone c)

theorem CoresInv.giveBack (h : CoresInv lock s) {next : CorePhase} (hsound : next.Sound lock)
    (howns : (s.core c).Owns) (hnext : ¬ next.Owns) (hmem : mem lock = 0) :
    CoresInv lock ({ s with mem }.goto c next) where
  sound := forall_update (p := CorePhase.Sound lock) h.sound hsound fun _ _ hd => hd
  single := h.single.step fun hd => absurd hd hnext
  taken := fun d hd => absurd hd (h.single.leave howns hnext d)
  free := fun _ => hmem

omit [DecidableEq Core] in
theorem CoresInv.word (h : CoresInv lock s) : s.mem lock = 0 ∨ s.mem lock = 1 := by
  by_cases howned : ∃ c, (s.core c).Owns
  · obtain ⟨c, hc⟩ := howned
    exact .inr (h.taken c hc)
  · exact .inl (h.free (not_exists.mp howned))

/-- An instruction of `_acquire_spinlock`. -/
theorem CoresInv.instr (h : CoresInv lock s) (hcore : s.core c = .acquiring p) (hret : p.pc ≠ 3) :
    CoresInv lock ({ s with mem := p.write s.mem }.goto c (.acquiring (p.step s.mem))) := by
  have hsound := h.sound c
  rw [hcore] at hsound
  obtain ⟨hsound', ⟨hwrite, hacquired, hnot⟩ | ⟨hwrite, hacquired⟩⟩ :=
    SpinState.step_lock hsound.1 hsound.2 hret s.mem
  · obtain hclear | htaken := h.word
    · refine h.take hsound' (hacquired.mpr (by rw [hclear]; rfl)) hclear ?_
      rw [hwrite, update_self, hclear]
      rfl
    · refine h.move hsound' ?_ ?_
      · rw [hcore]
        refine iff_of_false (fun hnext => ?_) hnot
        have hbit := hacquired.mp hnext
        rw [htaken] at hbit
        exact absurd hbit (by decide)
      · rw [hwrite, update_self, htaken]
        rfl
  · refine h.move hsound' ?_ (by rw [hwrite])
    rw [hcore]
    exact hacquired

/-- The lock, and who holds it. -/
structure CoresRep (lock : UInt64) (s : SpinCores Core) (holder : Option Core) : Prop where
  inv : CoresInv lock s
  holder : ∀ c, holder = some c ↔ s.core c = .critical

variable {who : Option Core}

/-- A step that no other core sees the section change by. -/
theorem CoresRep.silent (h : CoresRep lock s who) {next : CorePhase}
    (hinv : CoresInv lock ({ s with mem }.goto c next)) (hold : s.core c ≠ .critical)
    (hnext : next ≠ .critical) : CoresRep lock ({ s with mem }.goto c next) who := by
  refine ⟨hinv, fun d => ?_⟩
  rw [h.holder d, SpinCores.goto]
  by_cases hdc : d = c
  · subst hdc
    simpa using iff_of_false hold hnext
  · simp [hdc]

theorem CoresRep.step (h : CoresRep lock s who) (hstep : CoreStep lock c s label s') :
    ∃ who', Answers mutex who label who' ∧ CoresRep lock s' who' := by
  cases hstep with
  | call carry zero hcore hreg =>
      refine ⟨who, .stay who, h.silent (h.inv.move ⟨Nat.succ_pos 7, hreg⟩ ?_ rfl) ?_ ?_⟩
      · rw [hcore]
        simp [CorePhase.Owns, SpinState.Acquired, SpinState.entry]
      · simp [hcore]
      · simp
  | instr hcore hpc =>
      exact ⟨who, .stay who, h.silent (h.inv.instr hcore hpc) (by simp [hcore]) (by simp)⟩
  | @ret p hcore hpc =>
      have howns : (s.core c).Owns := by
        rw [hcore]
        exact .inr (.inr hpc)
      have hnone : who = none := by
        cases hwho : who with
        | none => rfl
        | some d =>
            have hcritical := (h.holder d).mp hwho
            have hdc : d = c := h.inv.single d c (by rw [hcritical]; trivial) howns
            rw [hdc, hcore] at hcritical
            cases hcritical
      subst hnone
      refine ⟨some c, .step ⟨_, rfl, .enter c⟩, h.inv.move trivial ?_ rfl, fun d => ?_⟩
      · exact iff_of_true trivial howns
      · rw [SpinCores.goto]
        by_cases hdc : d = c
        · subst hdc
          simp
        · simpa [hdc, Ne.symm hdc] using (h.holder d).not.mp (by simp)
  | release hcore =>
      obtain rfl := (h.holder c).mpr hcore
      refine ⟨none, .step ⟨_, rfl, .leave c⟩, h.inv.move trivial ?_ rfl, fun d => ?_⟩
      · rw [hcore]
        exact Iff.rfl
      · rw [SpinCores.goto]
        by_cases hdc : d = c
        · subst hdc
          simp
        · simpa [hdc, Ne.symm hdc] using (h.holder d).not.mp (by simp [Ne.symm hdc])
  | clear hcore =>
      refine ⟨who, .stay who, h.silent (h.inv.giveBack trivial ?_ id ?_) ?_ ?_⟩
      · rw [hcore]
        trivial
      · exact update_self ..
      · simp [hcore]
      · simp
  | retRelease hcore =>
      refine ⟨who, .stay who, h.silent (h.inv.move trivial ?_ rfl) (by simp [hcore])
        (by simp)⟩
      rw [hcore]
      exact Iff.rfl
  | @write a v hcore ha =>
      have hmem : update s.mem a v lock = s.mem lock := update_of_ne ha.symm _ _
      exact ⟨who, .stay who, ⟨h.inv.sound, h.inv.single,
        fun d hd => hmem.trans (h.inv.taken d hd), fun hnone => hmem.trans (h.inv.free hnone)⟩,
        h.holder⟩

theorem spinCores_simulates (lock : UInt64) :
    Simulates (spinCores lock) mutex (fun s : SpinCores Core => CoresRep lock s) := by
  constructor
  case start =>
    rintro s ⟨hclear, hidle⟩
    have hnone : ∀ c, ¬ (s.core c).Owns := fun c howns => by
      rw [hidle c] at howns
      exact howns
    refine ⟨none, rfl, ⟨fun c => ?_, fun c d hc => absurd hc (hnone c),
      fun c hc => absurd hc (hnone c), fun _ => hclear⟩, fun c => ?_⟩
    · rw [hidle c]
      trivial
    · rw [hidle c]
      simp
  case step =>
    rintro s holder label s' hrep ⟨c, hstep⟩
    exact hrep.step hstep

/-- In every interleaving of the cores the sections between `_acquire_spinlock` and
`_release_spinlock` do not overlap, the core in the section is the one that the events name, and
the lock word is 1 while some core owns the lock and 0 otherwise. -/
theorem spinCores_exclude {events : List (Event Core)} (hrun : Run (spinCores lock) events s) :
    Alternates events ∧ (∀ c, s.core c = .critical ↔ holder events = some c) ∧
      ((∃ c, (s.core c).Owns) → s.mem lock = 1) ∧ ((∀ c, ¬ (s.core c).Owns) → s.mem lock = 0) := by
  obtain ⟨who, hmutex, hrep⟩ := (spinCores_simulates lock).run hrun
  obtain ⟨rfl, halternates⟩ := alternates_of_run hmutex
  exact ⟨halternates, fun c => (hrep.holder c).symm, fun ⟨c, hc⟩ => hrep.inv.taken c hc,
    hrep.inv.free⟩

/-! ## Progress -/

/-- The core is in the loop, or the flags will lead it there. -/
def SpinState.Waiting (p : SpinState) : Prop :=
  p.pc = 4 ∨ p.pc = 5 ∨ p.pc = 1 ∧ p.carry = true ∨ p.pc = 6 ∧ p.zero = false

/-- Alone, the core gets through `_acquire_spinlock`. -/
def Enters (lock : UInt64) (c : Core) (s : SpinCores Core) : Prop :=
  ∃ s', Relation.ReflTransGen (fun s s' => ∃ label, CoreStep lock c s label s') s s' ∧
    s'.core c = .critical

theorem Enters.instr (hcore : s.core c = .acquiring p) (hpc : p.pc ≠ 3)
    (h : Enters lock c ({ s with mem := p.write s.mem }.goto c (.acquiring (p.step s.mem)))) :
    Enters lock c s := by
  obtain ⟨s', hsteps, hcritical⟩ := h
  exact ⟨s', hsteps.head ⟨none, .instr hcore hpc⟩, hcritical⟩

variable {reg : Reg → UInt64} {carry zero : Bool}

theorem enters_of_pc_three (hcore : s.core c = .acquiring ⟨3, reg, carry, zero⟩) :
    Enters lock c s :=
  ⟨_, .single ⟨_, .ret hcore rfl⟩, update_self ..⟩

omit [DecidableEq Core] in
theorem SpinState.step_free (hreg : reg .rdi = lock) (hclear : mem lock = 0) :
    SpinState.step mem ⟨0, reg, carry, zero⟩ = ⟨1, reg, false, zero⟩ := by
  have hbit : decide (mem (reg .rdi) &&& 1 ≠ 0) = false := by
    rw [hreg, hclear]
    rfl
  rw [← hbit]
  rfl

omit [DecidableEq Core] in
theorem SpinState.step_taken (hreg : reg .rdi = lock) (htaken : mem lock = 1) :
    SpinState.step mem ⟨0, reg, carry, zero⟩ = ⟨1, reg, true, zero⟩ := by
  have hbit : decide (mem (reg .rdi) &&& 1 ≠ 0) = true := by
    rw [hreg, htaken]
    rfl
  rw [← hbit]
  rfl

/-- The lock is free, so the atomic instruction takes it. -/
theorem enters_of_pc_zero (hcore : s.core c = .acquiring ⟨0, reg, carry, zero⟩)
    (hreg : reg .rdi = lock) (hclear : s.mem lock = 0) : Enters lock c s := by
  refine .instr hcore nofun (.instr (update_self ..) ?_ ?_)
  all_goals rw [SpinState.step_free hreg hclear]
  · nofun
  · exact .instr (update_self ..) nofun (enters_of_pc_three (update_self ..))

theorem enters_of_pc_seven (hcore : s.core c = .acquiring ⟨7, reg, carry, zero⟩)
    (hreg : reg .rdi = lock) (hclear : s.mem lock = 0) : Enters lock c s :=
  .instr hcore nofun (enters_of_pc_zero (update_self ..) hreg hclear)

theorem enters_of_pc_five (hcore : s.core c = .acquiring ⟨5, reg, carry, zero⟩)
    (hreg : reg .rdi = lock) (hclear : s.mem lock = 0) (hrax : s.mem (reg .rax) &&& 1 = 0) :
    Enters lock c s := by
  have hstep : SpinState.step s.mem ⟨5, reg, carry, zero⟩ = ⟨6, reg, carry, true⟩ := by
    rw [← decide_eq_true hrax]
    rfl
  refine .instr hcore nofun (.instr (update_self ..) ?_ ?_)
  all_goals rw [hstep]
  · nofun
  · exact enters_of_pc_seven (update_self ..) hreg hclear

theorem enters_of_pc_four (hcore : s.core c = .acquiring ⟨4, reg, carry, zero⟩)
    (hreg : reg .rdi = lock) (hclear : s.mem lock = 0) (hrax : s.mem (reg .rax) &&& 1 = 0) :
    Enters lock c s :=
  .instr hcore nofun (enters_of_pc_five (update_self ..) hreg hclear hrax)

/-- A core that is in the loop stays there while bit 0 of the word at `rax` is set. -/
def Stuck (c : Core) (s : SpinCores Core) : Prop :=
  ∃ p, s.core c = .acquiring p ∧ p.Waiting ∧ s.mem (p.reg .rax) &&& 1 ≠ 0

theorem Stuck.step (h : Stuck c s) (hstep : CoreStep lock c s label s') : Stuck c s' := by
  obtain ⟨⟨pc, reg, carry, zero⟩, hcore, hwaiting, hbit⟩ := h
  cases hstep with
  | instr hcore' hpc =>
      obtain rfl := CorePhase.acquiring.inj (hcore.symm.trans hcore')
      obtain hpc | hpc | ⟨hpc, hcarry⟩ | ⟨hpc, hzero⟩ := hwaiting
      · obtain rfl : pc = 4 := hpc
        exact ⟨_, update_self .., .inr (.inl rfl), hbit⟩
      · obtain rfl : pc = 5 := hpc
        exact ⟨_, update_self .., .inr (.inr (.inr ⟨rfl, decide_eq_false hbit⟩)), hbit⟩
      · obtain rfl : pc = 1 := hpc
        obtain rfl : carry = true := hcarry
        exact ⟨_, update_self .., .inl rfl, hbit⟩
      · obtain rfl : pc = 6 := hpc
        obtain rfl : zero = false := hzero
        exact ⟨_, update_self .., .inl rfl, hbit⟩
  | ret hcore' hpc =>
      obtain rfl := CorePhase.acquiring.inj (hcore.symm.trans hcore')
      obtain rfl : pc = 3 := hpc
      obtain hpc | hpc | ⟨hpc, -⟩ | ⟨hpc, -⟩ := hwaiting <;> cases hpc
  | call carry' zero' hcore' =>
      rw [hcore] at hcore'
      cases hcore'
  | write v hcore' ha =>
      rw [hcore] at hcore'
      obtain hidle | hcritical := hcore'
      · cases hidle
      · cases hcritical
  | _ hcore' =>
      rw [hcore] at hcore'
      cases hcore'

theorem Stuck.run (h : Stuck c s)
    (hsteps : Relation.ReflTransGen (fun s s' => ∃ label, CoreStep lock c s label s') s s') :
    Stuck c s' := by
  induction hsteps with
  | refl => exact h
  | tail _ hlast ih =>
      obtain ⟨label, hlast⟩ := hlast
      exact ih.step hlast

/-- Once the lock is free, a core that has called `_acquire_spinlock` gets it by its own steps
exactly when it is not in the loop with bit 0 of the word at `rax` set. -/
theorem spinCores_enters_iff {events : List (Event Core)} (hrun : Run (spinCores lock) events s)
    (hcore : s.core c = .acquiring p) (hclear : s.mem lock = 0) :
    Enters lock c s ↔ ¬ (p.Waiting ∧ s.mem (p.reg .rax) &&& 1 ≠ 0) := by
  obtain ⟨who, -, hrep⟩ := (spinCores_simulates lock).run hrun
  have hsound := hrep.inv.sound c
  rw [hcore] at hsound
  constructor
  · rintro ⟨s', hsteps, hcritical⟩ ⟨hwaiting, hbit⟩
    obtain ⟨q, hq, -⟩ := Stuck.run ⟨p, hcore, hwaiting, hbit⟩ hsteps
    rw [hq] at hcritical
    cases hcritical
  · intro hnot
    obtain ⟨pc, reg, carry, zero⟩ := p
    obtain ⟨hpc, hreg⟩ := hsound
    -- in the loop the word at `rax` has to be clear
    have hrax : SpinState.Waiting ⟨pc, reg, carry, zero⟩ → s.mem (reg .rax) &&& 1 = 0 :=
      fun hwaiting => not_not.mp fun hbit => hnot ⟨hwaiting, hbit⟩
    obtain rfl | rfl | rfl | rfl | rfl | rfl | rfl | rfl := SpinState.pc_cases hpc
    · exact enters_of_pc_zero hcore hreg hclear
    · cases carry with
      | true =>
          have hbit := hrax (.inr (.inr (.inl ⟨rfl, rfl⟩)))
          exact .instr hcore nofun (enters_of_pc_four (update_self ..) hreg hclear hbit)
      | false =>
          exact .instr hcore nofun
            (.instr (update_self ..) nofun (enters_of_pc_three (update_self ..)))
    · exact .instr hcore nofun (enters_of_pc_three (update_self ..))
    · exact enters_of_pc_three hcore
    · exact enters_of_pc_four hcore hreg hclear (hrax (.inl rfl))
    · exact enters_of_pc_five hcore hreg hclear (hrax (.inr (.inl rfl)))
    · cases zero with
      | true => exact .instr hcore nofun (enters_of_pc_seven (update_self ..) hreg hclear)
      | false =>
          have hbit := hrax (.inr (.inr (.inr ⟨rfl, rfl⟩)))
          exact .instr hcore nofun (enters_of_pc_four (update_self ..) hreg hclear hbit)
    · exact enters_of_pc_seven hcore hreg hclear

/-! ## Two cores -/

/-- The registers of a call for the lock at 0x1000. -/
def callReg (r : Reg) : UInt64 := if r = .rdi then 0x1000 else 0

theorem CoreStep.free (hcore : s.core c = .acquiring ⟨0, reg, carry, zero⟩)
    (hreg : reg .rdi = lock) (hclear : s.mem lock = 0) : CoreStep lock c s none
      ({ s with mem := update s.mem lock 1 }.goto c (.acquiring ⟨1, reg, false, zero⟩)) := by
  have hwrite : SpinState.write s.mem ⟨0, reg, carry, zero⟩ = update s.mem lock 1 := by
    rw [← hreg] at hclear ⊢
    exact congrArg (fun v => update s.mem (reg .rdi) (v ||| 1)) hclear
  have hstep : CoreStep lock c s none _ := .instr hcore nofun
  rw [SpinState.step_free hreg hclear, hwrite] at hstep
  exact hstep

theorem CoreStep.taken (hcore : s.core c = .acquiring ⟨0, reg, carry, zero⟩)
    (hreg : reg .rdi = lock) (htaken : s.mem lock = 1) : CoreStep lock c s none
      ({ s with mem := update s.mem lock 1 }.goto c (.acquiring ⟨1, reg, true, zero⟩)) := by
  have hwrite : SpinState.write s.mem ⟨0, reg, carry, zero⟩ = update s.mem lock 1 := by
    rw [← hreg] at htaken ⊢
    exact congrArg (fun v => update s.mem (reg .rdi) (v ||| 1)) htaken
  have hstep : CoreStep lock c s none _ := .instr hcore nofun
  rw [SpinState.step_taken hreg htaken, hwrite] at hstep
  exact hstep

/-- The lock is taken by core 0 while core 1 tries, and is free again. Core 1 is on its way
into the loop. -/
theorem exists_missed : ∃ s : SpinCores (Fin 2),
    Run (spinCores 0x1000) [.leave 0, .enter 0] s ∧ s.mem 0x1000 = 0 ∧ s.mem 0 = 1 ∧
      s.core 1 = .acquiring ⟨1, callReg, true, false⟩ := by
  have hrun₀ : Run (spinCores 0x1000) []
      (⟨update (fun _ => 1) 0x1000 0, fun _ => .idle⟩ : SpinCores (Fin 2)) :=
    .start ⟨rfl, fun _ => rfl⟩
  have hreg : callReg .rdi = 0x1000 := rfl
  have hrun₁ := (hrun₀.silent ⟨0, .call false false rfl hreg⟩).silent ⟨0, .free rfl hreg rfl⟩
  have hrun₂ := (hrun₁.silent ⟨1, .call false false rfl hreg⟩).silent ⟨1, .taken rfl hreg rfl⟩
  have hrun₃ := ((hrun₂.silent ⟨0, .instr rfl nofun⟩).silent ⟨0, .instr rfl nofun⟩).event
    ⟨0, .ret rfl rfl⟩
  have hrun₄ := (hrun₃.event ⟨0, .release rfl⟩).silent ⟨0, .clear rfl⟩
  exact ⟨_, hrun₄, rfl, rfl, rfl⟩

/-- Core 1 does not get the lock by its own steps. -/
theorem spinCores_not_enters : ∃ s : SpinCores (Fin 2), s.mem 0x1000 = 0 ∧
    (∃ p, s.core 1 = .acquiring p) ∧ ¬ Enters 0x1000 1 s := by
  obtain ⟨s, hrun, hclear, hzero, hcore⟩ := exists_missed
  refine ⟨s, hclear, ⟨_, hcore⟩, fun henters => ?_⟩
  refine (spinCores_enters_iff hrun hcore hclear).mp henters ⟨.inr (.inr (.inl ⟨rfl, rfl⟩)), ?_⟩
  change s.mem 0 &&& 1 ≠ 0
  rw [hzero]
  decide

/-- Both cores have tried, and one of them was in the section. -/
theorem spinCores_alternates : ∃ s : SpinCores (Fin 2), (∃ p, s.core 1 = .acquiring p) ∧
    Alternates ([.leave 0, .enter 0] : List (Event (Fin 2))) ∧ ∀ c, s.core c ≠ .critical := by
  obtain ⟨s, hrun, -, -, hcore⟩ := exists_missed
  obtain ⟨halternates, hcritical, -⟩ := spinCores_exclude hrun
  exact ⟨s, ⟨_, hcore⟩, halternates, fun c hc => nomatch (hcritical c).mp hc⟩

end Steps

end FroggyOs
