import FroggyOs.Library.CString

/-!
# Serial output (`uart.c`)

The line status register says in bit 0 that a byte has been received and in bit 5 that the
transmit holding register is empty. `uart_transmit_ready` tests bit 0.

The device is the list of the status values it returns, one for each read. A run that asks
for a value behind the last one is still polling there.
-/

namespace FroggyOs

open ByteMemory

/-- An access to an I/O port. -/
inductive PortAccess where
  | inb (port : UInt16) (ret : UInt8)
  | outb (port : UInt16) (val : UInt8)
deriving DecidableEq

namespace Uart

def PORT : UInt16 := 0x3f8

/-- What `uart_transmit_ready` returns for a status value. -/
def uartTransmitReady (status : UInt8) : UInt8 := status &&& 1

/-- The accesses to the ports and the status values left. -/
def writeSerial (a : UInt8) : List UInt8 → Option (List PortAccess × List UInt8)
  | [] => none
  | status :: rest =>
      if uartTransmitReady status = 0 then do
        let (accesses, rest) ← writeSerial a rest
        some (.inb (PORT + 5) status :: accesses, rest)
      else some ([.inb (PORT + 5) status, .outb PORT a], rest)

/-- The loop of `write_serial_string`, over the bytes in front of the terminator. -/
def writeSerialBytes : List UInt8 → List UInt8 → Option (List PortAccess × List UInt8)
  | [], status => some ([], status)
  | c :: str, status => do
      let (accesses, status) ← writeSerial c status
      let (more, status) ← writeSerialBytes str status
      some (accesses ++ more, status)

def writeSerialString (str : CString) (status : List UInt8) :
    Option (List PortAccess × List UInt8) :=
  writeSerialBytes str.bytes status

/-- The status values that the device will return, and the accesses made to it. -/
structure Line where
  status : List UInt8
  accesses : List PortAccess

/-- The call behind the accesses that were made before. -/
def Line.writeSerialString (l : Line) (str : CString) : Option Line := do
  let (accesses, status) ← Uart.writeSerialString str l.status
  return ⟨status, l.accesses ++ accesses⟩

/-! ## What the device sees -/

/-- Bit 5 of the line status: the transmit holding register is empty. -/
def holdingEmpty (status : UInt8) : Bool := status.toNat.testBit 5

/-- The bytes written to the data port. -/
def dataWritten (accesses : List PortAccess) : List UInt8 :=
  accesses.filterMap fun
    | .inb _ _ => none
    | .outb port val => if port = PORT then some val else none

/-- Every write to the data port follows a status read with bit 5 set and no write in
between; `seen` says that there is one in front of the list. -/
def WritesWhenEmpty : Bool → List PortAccess → Prop
  | _, [] => True
  | seen, .inb port ret :: accesses =>
      WritesWhenEmpty (seen || (port = PORT + 5 && holdingEmpty ret)) accesses
  | seen, .outb port _ :: accesses =>
      if port = PORT then seen = true ∧ WritesWhenEmpty false accesses
      else WritesWhenEmpty seen accesses

/-- The string arrives in order, and every byte when the device can take it. -/
structure Lossless (str : CString) (accesses : List PortAccess) : Prop where
  bytes : dataWritten accesses = str.bytes
  empty : WritesWhenEmpty false accesses

/-! ## Polls -/

def polled (status : List UInt8) : Nat := status.findIdx (uartTransmitReady · ≠ 0) + 1

/-- A status value with bit 0 set ends a poll. Each of the next `n` polls sees bit 5 set. -/
def PollsSeeEmpty : Nat → List UInt8 → Prop
  | 0, _ => True
  | n + 1, status =>
      (∃ v ∈ status.take (polled status), holdingEmpty v) ∧
        PollsSeeEmpty n (status.drop (polled status))

variable {a : UInt8} {seen : Bool} {status rest more : List UInt8} {accesses : List PortAccess}

/-- `write_serial` reads the status once for each value of a poll and then writes. -/
theorem writeSerial_eq (h : writeSerial a status = some (accesses, rest)) :
    accesses = (status.take (polled status)).map (.inb (PORT + 5)) ++ [.outb PORT a] ∧
      rest = status.drop (polled status) := by
  induction status generalizing accesses with
  | nil => cases h
  | cons v status ih =>
      rw [writeSerial] at h
      split at h
      case isTrue hnot =>
        have hpolled : polled (v :: status) = polled status + 1 := by
          simp [polled, List.findIdx_cons, hnot]
        rw [Option.bind_eq_bind, Option.bind_eq_some_iff] at h
        obtain ⟨⟨later, rest'⟩, hlater, hsome⟩ := h
        cases hsome
        obtain ⟨rfl, rfl⟩ := ih hlater
        rw [hpolled]
        exact ⟨rfl, rfl⟩
      case isFalse hready =>
        have hpolled : polled (v :: status) = 1 := by
          simp [polled, List.findIdx_cons, hready]
        cases h
        rw [hpolled]
        exact ⟨rfl, rfl⟩

/-- Values behind the last one read stay in the device, so a run on a stream of values is
the run on any part of it that is long enough. -/
theorem writeSerial_append (h : writeSerial a status = some (accesses, rest)) :
    writeSerial a (status ++ more) = some (accesses, rest ++ more) := by
  induction status generalizing accesses with
  | nil => cases h
  | cons v status ih =>
      rw [writeSerial] at h
      rw [List.cons_append, writeSerial]
      split at h
      case isTrue hnot =>
        rw [Option.bind_eq_bind, Option.bind_eq_some_iff] at h
        obtain ⟨⟨later, rest'⟩, hlater, hsome⟩ := h
        cases hsome
        rw [if_pos hnot, ih hlater]
        rfl
      case isFalse hready =>
        cases h
        rw [if_neg hready]

theorem writesWhenEmpty_poll {values : List UInt8} {later : List PortAccess} :
    WritesWhenEmpty seen (values.map (.inb (PORT + 5)) ++ .outb PORT a :: later) ↔
      (seen = true ∨ ∃ v ∈ values, holdingEmpty v) ∧ WritesWhenEmpty false later := by
  induction values generalizing seen with
  | nil => simp [WritesWhenEmpty]
  | cons v values ih =>
      rw [List.map_cons, List.cons_append, WritesWhenEmpty, ih]
      simp [or_assoc]

theorem dataWritten_poll {values : List UInt8} {later : List PortAccess} :
    dataWritten (values.map (.inb (PORT + 5)) ++ .outb PORT a :: later) =
      a :: dataWritten later := by
  induction values with
  | nil => simp [dataWritten]
  | cons v values ih => exact ih

/-! ## Strings -/

theorem writeSerialBytes_cons_iff {c : UInt8} {str : List UInt8} :
    writeSerialBytes (c :: str) status = some (accesses, rest) ↔
      ∃ first behind later, writeSerial c status = some (first, behind) ∧
        writeSerialBytes str behind = some (later, rest) ∧ accesses = first ++ later := by
  simp only [writeSerialBytes, Option.bind_eq_bind, Option.bind_eq_some_iff, Prod.exists,
    Option.some_inj, Prod.mk.injEq]
  constructor
  · rintro ⟨first, behind, hfirst, later, _, hlater, rfl, rfl⟩
    exact ⟨first, behind, later, hfirst, hlater, rfl⟩
  · rintro ⟨first, behind, later, hfirst, hlater, rfl⟩
    exact ⟨first, behind, hfirst, later, rest, hlater, rfl, rfl⟩

/-- A string is written by one poll and one write for each of its bytes. -/
theorem writeSerialBytes_cons {c : UInt8} {str : List UInt8}
    (h : writeSerialBytes (c :: str) status = some (accesses, rest)) :
    ∃ later, writeSerialBytes str (status.drop (polled status)) = some (later, rest) ∧
      accesses = (status.take (polled status)).map (.inb (PORT + 5)) ++ .outb PORT c :: later := by
  obtain ⟨first, behind, later, hfirst, hlater, rfl⟩ := writeSerialBytes_cons_iff.mp h
  obtain ⟨rfl, rfl⟩ := writeSerial_eq hfirst
  exact ⟨later, hlater, List.append_assoc _ _ _⟩

theorem writeSerialBytes_append {str : List UInt8}
    (h : writeSerialBytes str status = some (accesses, rest)) :
    writeSerialBytes str (status ++ more) = some (accesses, rest ++ more) := by
  induction str generalizing status accesses with
  | nil =>
      cases h
      rfl
  | cons c str ih =>
      obtain ⟨first, behind, later, hfirst, hlater, rfl⟩ := writeSerialBytes_cons_iff.mp h
      exact writeSerialBytes_cons_iff.mpr
        ⟨first, behind ++ more, later, writeSerial_append hfirst, ih hlater, rfl⟩

theorem dataWritten_writeSerialBytes {str : List UInt8}
    (h : writeSerialBytes str status = some (accesses, rest)) : dataWritten accesses = str := by
  induction str generalizing status accesses with
  | nil =>
      cases h
      rfl
  | cons c str ih =>
      obtain ⟨later, hlater, rfl⟩ := writeSerialBytes_cons h
      rw [dataWritten_poll, ih hlater]

theorem writesWhenEmpty_writeSerialBytes {str : List UInt8}
    (h : writeSerialBytes str status = some (accesses, rest)) :
    WritesWhenEmpty false accesses ↔ PollsSeeEmpty str.length status := by
  induction str generalizing status accesses with
  | nil =>
      cases h
      exact Iff.rfl
  | cons c str ih =>
      obtain ⟨later, hlater, rfl⟩ := writeSerialBytes_cons h
      rw [writesWhenEmpty_poll, ih hlater, List.length_cons, PollsSeeEmpty]
      simp

/-- One string after another is sent like both in one. -/
theorem writeSerialBytes_two {bs cs : List UInt8} : writeSerialBytes (bs ++ cs) status =
    (writeSerialBytes bs status).bind fun first =>
      (writeSerialBytes cs first.2).map fun later => (first.1 ++ later.1, later.2) := by
  induction bs generalizing status with
  | nil => simp [writeSerialBytes]
  | cons c bs ih =>
      simp only [List.cons_append, writeSerialBytes, ih, Option.bind_eq_bind]
      cases writeSerial c status with
      | none => rfl
      | some first =>
          simp only [Option.bind_some]
          cases writeSerialBytes bs first.2 with
          | none => rfl
          | some second =>
              simp only [Option.bind_some]
              cases writeSerialBytes cs second.2 with
              | none => rfl
              | some third => simp

/-- A string is sent if the device returns bit 0 set once for each of its bytes. -/
theorem writeSerialBytes_isSome_iff {bs : List UInt8} : (writeSerialBytes bs status).isSome ↔
    bs.length ≤ status.countP (uartTransmitReady · ≠ 0) := by
  induction bs generalizing status with
  | nil => simp [writeSerialBytes]
  | cons c bs ih =>
      induction status with
      | nil => simp [writeSerialBytes, writeSerial]
      | cons v status hstatus =>
          by_cases hready : uartTransmitReady v = 0
          · have hwait : (writeSerialBytes (c :: bs) (v :: status)).isSome =
                (writeSerialBytes (c :: bs) status).isSome := by
              simp only [writeSerialBytes, writeSerial, hready, if_true, Option.bind_eq_bind]
              cases writeSerial c status with
              | none => rfl
              | some first =>
                  simp only [Option.bind_some]
                  cases writeSerialBytes bs first.2 <;> rfl
            rw [hwait, hstatus, List.countP_cons_of_neg (by simp [hready])]
          · have hwrite : (writeSerialBytes (c :: bs) (v :: status)).isSome =
                (writeSerialBytes bs status).isSome := by
              simp only [writeSerialBytes, writeSerial, hready, if_false, Option.bind_eq_bind,
                Option.bind_some]
              cases writeSerialBytes bs status <;> rfl
            rw [hwrite, ih, List.countP_cons_of_pos (by simp [hready]), List.length_cons,
              Nat.succ_le_succ_iff]

/-- The line after it has sent `bs`. -/
def Line.send (l : Line) (bs : List UInt8) : Option Line :=
  (writeSerialBytes bs l.status).map fun sent => ⟨sent.2, l.accesses ++ sent.1⟩

namespace Line

variable {l : Line} {bs : List UInt8}

theorem writeSerialString_eq (l : Line) (str : CString) :
    l.writeSerialString str = l.send str.bytes := by
  rw [writeSerialString, send, Uart.writeSerialString]
  cases writeSerialBytes str.bytes l.status <;> rfl

@[simp] theorem send_nil (l : Line) : l.send [] = some l := by simp [send, writeSerialBytes]

theorem send_append (l : Line) (bs cs : List UInt8) :
    l.send (bs ++ cs) = (l.send bs).bind fun l => l.send cs := by
  rw [send, send, writeSerialBytes_two]
  cases writeSerialBytes bs l.status with
  | none => rfl
  | some first =>
      simp only [Option.bind_some, Option.map_some, Option.map_map, send]
      congr 1
      funext later
      simp

/-- The device has to return bit 0 set once for each byte. -/
theorem send_isSome_iff :
    (l.send bs).isSome ↔ bs.length ≤ l.status.countP (uartTransmitReady · ≠ 0) := by
  rw [send, Option.isSome_map]
  exact writeSerialBytes_isSome_iff

theorem dataWritten_send {status : List UInt8} (h : send ⟨status, []⟩ bs = some l) :
    dataWritten l.accesses = bs := by
  obtain ⟨⟨accesses, rest⟩, hsent, rfl⟩ := Option.map_eq_some_iff.mp h
  exact dataWritten_writeSerialBytes hsent

theorem writesWhenEmpty_send {status : List UInt8} (h : send ⟨status, []⟩ bs = some l) :
    WritesWhenEmpty false l.accesses ↔ PollsSeeEmpty bs.length status := by
  obtain ⟨⟨accesses, rest⟩, hsent, rfl⟩ := Option.map_eq_some_iff.mp h
  exact writesWhenEmpty_writeSerialBytes hsent

end Line

/-- The bytes are always written in order; they are all taken by the device exactly when
every poll happens to see bit 5 set. -/
theorem writeSerialString_lossless_iff {str : CString}
    (h : writeSerialString str status = some (accesses, rest)) :
    Lossless str accesses ↔ PollsSeeEmpty str.length status := by
  rw [CString.length, ← writesWhenEmpty_writeSerialBytes h]
  exact ⟨Lossless.empty, fun hempty => ⟨dataWritten_writeSerialBytes h, hempty⟩⟩

/-- A device that has received a byte and can take one. -/
theorem writeSerialString_ready :
    Lossless ⟨[104, 105], by decide⟩ [.inb 0x3fd 0x61, .outb 0x3f8 104, .inb 0x3fd 0x21,
      .outb 0x3f8 105] ↔ PollsSeeEmpty 2 [0x61, 0x21] := by
  have hcall : writeSerialString ⟨[104, 105], by decide⟩ [0x61, 0x21] =
      some ([.inb 0x3fd 0x61, .outb 0x3f8 104, .inb 0x3fd 0x21, .outb 0x3f8 105], []) := rfl
  exact writeSerialString_lossless_iff hcall

/-- A device that has received a byte and is still sending. -/
theorem not_lossless : ∃ accesses, writeSerialString ⟨[104], by decide⟩ [0x01] =
    some (accesses, []) ∧ ¬ Lossless ⟨[104], by decide⟩ accesses := by
  refine ⟨[.inb 0x3fd 0x01, .outb 0x3f8 104], rfl, fun h => ?_⟩
  exact absurd h.empty.1 (by decide)

end Uart

end FroggyOs
