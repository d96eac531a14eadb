import FroggyOs.Strings.Printf
import FroggyOs.Vga.ScrollMessage

/-!
# Printing formatted text

`printf`, `println` and `serial_printf` clear a buffer of 1024 bytes on the stack, let
`_vprintf` format into it, and hand it to `tty_print` or `write_serial_string`, which read it up
to its first byte 0. Nothing checks the length of the text: with 1024 bytes or more the buffer
has no terminator (`Formats` asks for less).

A run of such calls is a terminal to which the texts are typed one after the other, and
a serial line on which they are sent one after the other. When the screen scrolls, printing on it
sends on the serial line too, and waits for the device.

The memory of the model is the one in which the buffers lie. The array `res`, in which `_vprintf`
keeps the digits of a number, is a local object of its own and no part of it.
-/

namespace FroggyOs

open ByteMemory

/-- The size of the buffers; `PRINTBUFLEN` in the source, where it is written out as well. -/
def printBufLen : Nat := 1024

/-- The string at `ptr`; `none` when none of the next `fuel` bytes is 0. -/
def stringAt (m : Mem) : Nat → Nat → Option CString
  | 0, _ => none
  | fuel + 1, ptr =>
      if h : m.byte ptr = 0 then some ⟨[], List.not_mem_nil⟩
      else (stringAt m fuel (ptr + 1)).map fun s =>
        ⟨m.byte ptr :: s.bytes, fun hmem => (List.mem_cons.mp hmem).elim (Ne.symm h) s.noNul⟩

/-- What `printf`, `println` and `serial_printf` have in common: the string in the buffer at
`buffer`, and the stack. -/
def formatInto (m : Mem) (fmt : CString) (buffer : Nat) (args : List Arg) :
    Option (CString × Mem) := do
  -- `char buffer[1024] = {0}`, and the same once more
  let m := m.fill buffer printBufLen 0
  let m := memset m buffer 0 printBufLen
  let m ← vprintf m fmt buffer args
  let str ← stringAt m (2 ^ 64) buffer
  return (str, m)

/-! ## The screen -/

/-- `*global_renderer` with the serial line, and the memory that holds the buffers. -/
structure Console where
  terminal : Terminal
  stack : Mem

namespace Console

def printf (s : Console) (fmt : CString) (buffer : Nat) (args : List Arg) : Option Console := do
  let (str, stack) ← formatInto s.stack fmt buffer args
  let terminal ← s.terminal.ttyPrint str.bytes
  return ⟨terminal, stack⟩

def println (s : Console) (fmt : CString) (buffer : Nat) (args : List Arg) : Option Console := do
  let (str, stack) ← formatInto s.stack fmt buffer args
  let terminal ← s.terminal.ttyPrint str.bytes
  let terminal ← terminal.ttyBreak
  return ⟨terminal, stack⟩

end Console

/-- A call that prints on the screen. `buffer` is where the buffer lies in its stack frame. -/
inductive ConsoleCall
  | printf (fmt : CString) (buffer : Nat) (args : List Arg)
  | println (fmt : CString) (buffer : Nat) (args : List Arg)
  | ttyPrint (str : CString)
  | ttyBreak

namespace ConsoleCall

def run (s : Console) : ConsoleCall → Option Console
  | printf fmt buffer args => s.printf fmt buffer args
  | println fmt buffer args => s.println fmt buffer args
  | ttyPrint str => (s.terminal.ttyPrint str.bytes).map (Console.mk · s.stack)
  | ttyBreak => s.terminal.ttyBreak.map (Console.mk · s.stack)

/-- The buffer of the call. -/
def frame : ConsoleCall → Set Nat
  | printf _ buffer _ | println _ buffer _ => Mem.range buffer printBufLen
  | ttyPrint _ | ttyBreak => ∅

end ConsoleCall

/-- Calls one after another. -/
def consoleRun (s : Console) (calls : List ConsoleCall) : Option Console :=
  calls.foldlM ConsoleCall.run s

/-! ## The text of a call -/

/-- The format and its arguments make the text `bs`, which fits into the buffer. A signed 64-bit
conversion must not consume the least number. -/
def Formats (fmt : CString) (args : List Arg) (bs : List UInt8) : Prop :=
  ∃ items, Parses fmt.bytes items ∧ Matches items args ∧ Arg.least ∉ consumed items args ∧
    bs = text items args ∧ bs.length < printBufLen

/-- The call types `bs` on the terminal. -/
def ConsoleCall.Types (bs : List UInt8) : ConsoleCall → Prop
  | .printf fmt _ args => Formats fmt args bs
  | .println fmt _ args => ∃ line, Formats fmt args line ∧ bs = line ++ [' '.toUInt8, '\n'.toUInt8]
  | .ttyPrint str => bs = str.bytes
  | .ttyBreak => bs = [' '.toUInt8, '\n'.toUInt8]

section Buffer

variable {m : Mem} {fmt : CString} {buffer fuel p x : Nat} {args : List Arg} {bs : List UInt8}
  {s : CString}

theorem stringAt_of_at (h : s.At m p) (hfuel : s.length < fuel) : stringAt m fuel p = some s := by
  obtain ⟨bytes, hnoNul⟩ := s
  induction bytes generalizing p fuel with
  | nil =>
      obtain ⟨fuel, rfl⟩ := Nat.exists_eq_succ_of_ne_zero (Nat.ne_of_gt (Nat.zero_lt_of_lt hfuel))
      have hnul : m.byte p = 0 := h.nul
      rw [stringAt, dif_pos hnul]
  | cons c bytes ih =>
      obtain ⟨fuel, rfl⟩ := Nat.exists_eq_succ_of_ne_zero (Nat.ne_of_gt (Nat.zero_lt_of_lt hfuel))
      obtain ⟨hc, hrest⟩ := not_or.mp (mt List.mem_cons.mpr hnoNul)
      have hbyte : m.byte p = c := h.byte (i := 0) (Nat.succ_pos _)
      have htail : CString.At ⟨bytes, hrest⟩ m (p + 1) := by
        apply CString.At.of_bytes
        · intro i hi
          rw [Nat.add_assoc, Nat.add_comm 1]
          exact h.byte (i := i + 1) (Nat.succ_lt_succ hi)
        · rw [CString.length, Nat.add_assoc, Nat.add_comm 1]
          exact h.nul
      have hne : ¬ m.byte p = 0 := by rw [hbyte]; exact Ne.symm hc
      rw [stringAt, dif_neg hne, ih hrest htail (Nat.lt_of_succ_lt_succ hfuel)]
      simp only [Option.map_some, hbyte]

/-- Outside of the buffer the stack is not written. -/
theorem formatInto_of_formats (h : Formats fmt args bs) (m : Mem) (buffer : Nat) :
    ∃ str m', formatInto m fmt buffer args = some (str, m') ∧ str.bytes = bs ∧
      ∀ x ∉ Mem.range buffer printBufLen, m'.byte x = m.byte x := by
  obtain ⟨items, hparses, hargs, hleast, rfl, hlength⟩ := h
  have hnoNul := zero_notMem_text hparses hargs fmt.noNul
  generalize hcleared : memset (m.fill buffer printBufLen 0) buffer 0 printBufLen = cleared
  have hzero : ∀ i < printBufLen, cleared.byte (buffer + i) = 0 := by
    intro i hi
    rw [← hcleared]
    exact Mem.fill_byte_inside (Nat.le_add_right _ _) (Nat.add_lt_add_left hi _)
  have hat : CString.At ⟨text items args, hnoNul⟩ (cleared.storeBytes buffer (text items args))
      buffer := CString.At.storeBytes (hzero _ hlength)
  have hfuel : (text items args).length < 2 ^ 64 := Nat.lt_trans hlength (by decide)
  refine ⟨⟨text items args, hnoNul⟩, cleared.storeBytes buffer (text items args), ?_, rfl,
    fun x hx => ?_⟩
  · rw [formatInto, hcleared, vprintf_eq hparses hargs, if_neg hleast]
    simp only [Option.bind_eq_bind, Option.bind_some, stringAt_of_at hat hfuel]
    rfl
  · have hout : x < buffer ∨ buffer + printBufLen ≤ x := by
      by_contra hin
      exact hx ⟨by omega, by omega⟩
    rw [Mem.storeBytes_byte_outside (by omega), ← hcleared]
    exact (Mem.fill_byte_outside hout).trans (Mem.fill_byte_outside hout)

end Buffer

section Screen

variable {r : TTYRenderer} {s : Console} {call : ConsoleCall} {calls : List ConsoleCall}
  {bs : List UInt8} {texts : List (List UInt8)}

theorem Formats.noNul {fmt : CString} {args : List Arg} (h : Formats fmt args bs) : 0 ∉ bs := by
  obtain ⟨items, hparses, hargs, -, rfl, -⟩ := h
  exact zero_notMem_text hparses hargs fmt.noNul

theorem Terminal.ttyBreak_eq (t : Terminal) :
    t.ttyBreak = t.printChars [' '.toUInt8, '\n'.toUInt8] := ttyPrint_of_noNul (by decide) t

/-- A call types its text, and writes nothing but its buffer. -/
theorem ConsoleCall.Types.run (h : call.Types bs) (s : Console) :
    ∃ stack, call.run s = (s.terminal.printChars bs).map (Console.mk · stack) ∧
      ∀ x ∉ call.frame, stack.byte x = s.stack.byte x := by
  cases call with
  | printf fmt buffer args =>
      obtain ⟨str, m', hcall, rfl, hframe⟩ := formatInto_of_formats h s.stack buffer
      refine ⟨m', ?_, hframe⟩
      rw [ConsoleCall.run, Console.printf, hcall, Option.bind_eq_bind, Option.bind_some]
      dsimp only
      rw [Terminal.ttyPrint_of_noNul h.noNul]
      cases s.terminal.printChars str.bytes <;> rfl
  | println fmt buffer args =>
      obtain ⟨line, hline, rfl⟩ := h
      obtain ⟨str, m', hcall, rfl, hframe⟩ := formatInto_of_formats hline s.stack buffer
      refine ⟨m', ?_, hframe⟩
      rw [ConsoleCall.run, Console.println, hcall, Option.bind_eq_bind, Option.bind_some]
      dsimp only
      rw [Terminal.ttyPrint_of_noNul hline.noNul, Terminal.printChars_append]
      cases s.terminal.printChars str.bytes with
      | none => rfl
      | some t =>
          simp only [Option.bind_eq_bind, Option.bind_some, Terminal.ttyBreak_eq]
          cases t.printChars [' '.toUInt8, '\n'.toUInt8] <;> rfl
  | ttyPrint str =>
      obtain rfl : bs = str.bytes := h
      refine ⟨s.stack, ?_, fun _ _ => rfl⟩
      rw [ConsoleCall.run, Terminal.ttyPrint_of_noNul str.noNul]
  | ttyBreak =>
      obtain rfl : bs = [' '.toUInt8, '\n'.toUInt8] := h
      refine ⟨s.stack, ?_, fun _ _ => rfl⟩
      rw [ConsoleCall.run, Terminal.ttyBreak_eq]

/-- Calls one after another type their texts one after another. -/
theorem consoleRun_types (h : List.Forall₂ ConsoleCall.Types texts calls) (s : Console) :
    ∃ stack, consoleRun s calls = (s.terminal.printChars texts.flatten).map (Console.mk · stack) ∧
      ∀ x, (∀ call ∈ calls, x ∉ call.frame) → stack.byte x = s.stack.byte x := by
  induction h generalizing s with
  | nil => exact ⟨s.stack, rfl, fun _ _ => rfl⟩
  | @cons bs call texts calls hcall _ ih =>
      obtain ⟨stack, hrun, hframe⟩ := hcall.run s
      rw [List.flatten_cons, Terminal.printChars_append, consoleRun, List.foldlM_cons, hrun]
      cases s.terminal.printChars bs with
      | none => exact ⟨s.stack, rfl, fun _ _ => rfl⟩
      | some t =>
          obtain ⟨stack', hrest, hframe'⟩ := ih ⟨t, stack⟩
          refine ⟨stack', hrest, fun x hx => ?_⟩
          rw [hframe' x fun c hc => hx c (List.mem_cons_of_mem _ hc),
            hframe x (hx call List.mem_cons_self)]

variable {c : UInt32} {t : Text}

/-- After `tty_clear` a run of calls returns exactly when the device takes the message of
`move_tty_cursor_down` once for each line that leaves the screen. The screen then shows the lines of
all the texts typed, one after another, the messages and nothing else have been sent, and of the
memory that holds the buffers the calls have written the buffers alone. -/
theorem consoleRun_shows (hfits : r.framebuffer.Fits)
    (hrows : TwoLines r.framebuffer.height r.psf1Font.charsize) (c : UInt32) (stack : Mem)
    (status : List UInt8) (h : List.Forall₂ ConsoleCall.Types texts calls) :
    let start : Console := ⟨⟨r.ttyClear c true, ⟨status, []⟩⟩, stack⟩
    let typed := Text.layout r.framebuffer.width texts.flatten
    let scrolled := typed.scrolled r.framebuffer.height r.psf1Font.charsize
    ((consoleRun start calls).isSome ↔
      24 * scrolled ≤ status.countP (Uart.uartTransmitReady · ≠ 0)) ∧
    ∀ s, consoleRun start calls = some s → s.terminal.renderer.Shows c typed ∧
      (∀ N, 2 ≤ N → r.framebuffer.height = N * r.psf1Font.charsize →
        ∀ x < r.framebuffer.width, ∀ y < r.framebuffer.height, s.terminal.renderer.pixel x y =
          (picture r.psf1Font (typed.lines.drop (typed.lines.length - (N - 1))) r.color c
            x y).toNat) ∧
      Uart.dataWritten s.terminal.line.accesses = scrollMessages scrolled ∧
      ∀ x, (∀ call ∈ calls, x ∉ call.frame) → s.stack.byte x = stack.byte x := by
  intro start typed scrolled
  obtain ⟨stack', hrun, hframe⟩ := consoleRun_types h start
  have hprinted : start.terminal.printChars texts.flatten =
      Sending ⟨status, []⟩ ((r.ttyClear c true).printChars texts.flatten) scrolled :=
    terminal_printed hfits hrows c ⟨status, []⟩ texts.flatten
  rw [hrun, hprinted, Sending, Option.map_map]
  constructor
  · rw [Option.isSome_map, Uart.Line.send_isSome_iff, scrollMessages_length]
  · intro s hs
    obtain ⟨line, hline, rfl⟩ := Option.map_eq_some_iff.mp hs
    have hshows := (TTYRenderer.shows_printed hfits hrows c texts.flatten).1
    refine ⟨hshows, fun N hN hheight x hx y hy => ?_, Uart.Line.dataWritten_send hline, hframe⟩
    have hpixel := hshows.picture hN (by simpa using hheight) (by simpa using hx)
      (by simpa using hy)
    simp only [TTYRenderer.printChars_psf1Font, TTYRenderer.printChars_color,
      TTYRenderer.ttyClear_psf1Font, TTYRenderer.ttyClear_color] at hpixel
    exact hpixel

/-- `println("%l", -7L)` and `tty_break()` on a screen of two lines: three lines leave it. The
device has received a byte and can take one. -/
theorem twoByTwo_console :
    ∃ s, consoleRun ⟨⟨(rendererAt twoByTwo (blockFont 8) 1 ⟨fun _ => 0⟩).ttyClear 0 true,
        ⟨List.replicate 72 0x21, []⟩⟩, ⟨fun _ => 0⟩⟩
      [.println ⟨[0x25, 0x6c], by decide⟩ 0x8000 [.int64 (-7)], .ttyBreak] = some s ∧
      s.terminal.renderer.Shows 0 (Text.layout 18 [0x2d, 0x37, 0x20, 0x0a, 0x20, 0x0a]) ∧
      Uart.dataWritten s.terminal.line.accesses = scrollMessages 3 := by
  have hformats : Formats ⟨[0x25, 0x6c], by decide⟩ [.int64 (-7)] [0x2d, 0x37] :=
    ⟨[.number [0x6c]], parses_long, List.prefix_refl [Kind.int64], by decide, by decide, by decide⟩
  have htypes : List.Forall₂ ConsoleCall.Types [[0x2d, 0x37, 0x20, 0x0a], [0x20, 0x0a]]
      [.println ⟨[0x25, 0x6c], by decide⟩ 0x8000 [.int64 (-7)], .ttyBreak] :=
    .cons ⟨_, hformats, rfl⟩ (.cons rfl .nil)
  obtain ⟨hreturns, hshows⟩ :=
    @consoleRun_shows (rendererAt twoByTwo (blockFont 8) 1 ⟨fun _ => 0⟩) _ _ twoByTwo_fits
      ⟨by decide, by decide⟩ 0 ⟨fun _ => 0⟩ (List.replicate 72 0x21) htypes
  obtain ⟨s, hs⟩ := Option.isSome_iff_exists.mp (hreturns.mpr (by decide))
  obtain ⟨hscreen, -, hsent, -⟩ := hshows s hs
  exact ⟨s, hs, hscreen, hsent⟩

end Screen

/-! ## The serial line -/

/-- The memory that holds the buffers, and the line. -/
structure SerialLine where
  stack : Mem
  line : Uart.Line

inductive SerialCall
  | serialPrintf (fmt : CString) (buffer : Nat) (args : List Arg)
  | writeSerialString (str : CString)

namespace SerialLine

def writeSerialString (s : SerialLine) (str : CString) : Option SerialLine :=
  (s.line.writeSerialString str).map (SerialLine.mk s.stack)

def serialPrintf (s : SerialLine) (fmt : CString) (buffer : Nat) (args : List Arg) :
    Option SerialLine := do
  let (str, stack) ← formatInto s.stack fmt buffer args
  { s with stack }.writeSerialString str

end SerialLine

namespace SerialCall

def run (s : SerialLine) : SerialCall → Option SerialLine
  | serialPrintf fmt buffer args => s.serialPrintf fmt buffer args
  | writeSerialString str => s.writeSerialString str

/-- The call sends `bs`. -/
def Sends (bs : List UInt8) : SerialCall → Prop
  | serialPrintf fmt _ args => Formats fmt args bs
  | writeSerialString str => bs = str.bytes

end SerialCall

def serialRun (s : SerialLine) (calls : List SerialCall) : Option SerialLine :=
  calls.foldlM SerialCall.run s

section Serial

open Uart

variable {s s' : SerialLine} {call : SerialCall} {calls : List SerialCall} {bs status : List UInt8}
  {texts : List (List UInt8)}

/-- A call sends its text. -/
theorem SerialCall.Sends.run (h : call.Sends bs) (s : SerialLine) :
    ∃ stack, call.run s = (s.line.send bs).map (SerialLine.mk stack) := by
  cases call with
  | serialPrintf fmt buffer args =>
      obtain ⟨str, stack, hcall, rfl, -⟩ := formatInto_of_formats h s.stack buffer
      refine ⟨stack, ?_⟩
      rw [SerialCall.run, SerialLine.serialPrintf, hcall, Option.bind_eq_bind, Option.bind_some]
      dsimp only
      rw [SerialLine.writeSerialString, Line.writeSerialString_eq]
  | writeSerialString str =>
      obtain rfl : bs = str.bytes := h
      refine ⟨s.stack, ?_⟩
      rw [SerialCall.run, SerialLine.writeSerialString, Line.writeSerialString_eq]

theorem serialRun_eq (h : List.Forall₂ SerialCall.Sends texts calls) (s : SerialLine) :
    ∃ stack, serialRun s calls = (s.line.send texts.flatten).map (SerialLine.mk stack) := by
  induction h generalizing s with
  | nil =>
      refine ⟨s.stack, ?_⟩
      rw [List.flatten_nil, Line.send_nil]
      rfl
  | @cons bs call texts calls hcall _ ih =>
      obtain ⟨stack, hrun⟩ := hcall.run s
      rw [List.flatten_cons, Line.send_append, serialRun, List.foldlM_cons, hrun]
      cases s.line.send bs with
      | none => exact ⟨stack, rfl⟩
      | some line => exact ih ⟨stack, line⟩

/-- A run of calls returns exactly if the device returns bit 0 set once for each byte. Then it has
been sent the texts one after another, and could take all of them exactly if every poll saw bit 5
set at some time. -/
theorem serialRun_sends (h : List.Forall₂ SerialCall.Sends texts calls) (stack : Mem)
    (status : List UInt8) :
    ((serialRun ⟨stack, ⟨status, []⟩⟩ calls).isSome ↔
      texts.flatten.length ≤ status.countP (uartTransmitReady · ≠ 0)) ∧
    ∀ s, serialRun ⟨stack, ⟨status, []⟩⟩ calls = some s →
      dataWritten s.line.accesses = texts.flatten ∧
        (WritesWhenEmpty false s.line.accesses ↔ PollsSeeEmpty texts.flatten.length status) := by
  obtain ⟨stack', hrun⟩ := serialRun_eq h ⟨stack, ⟨status, []⟩⟩
  rw [hrun, Option.isSome_map]
  refine ⟨Line.send_isSome_iff, fun s hs => ?_⟩
  obtain ⟨line, hsent, rfl⟩ := Option.map_eq_some_iff.mp hs
  exact ⟨Line.dataWritten_send hsent, Line.writesWhenEmpty_send hsent⟩

/-- `serial_printf("%l", -7L)` on a device that has received a byte. -/
theorem serialRun_sends_minusSeven : ∃ s, serialRun ⟨⟨fun _ => 0⟩, ⟨[0x21, 0x20, 0x61], []⟩⟩
    [.serialPrintf ⟨[0x25, 0x6c], by decide⟩ 0x8000 [.int64 (-7)]] = some s ∧
      dataWritten s.line.accesses = [0x2d, 0x37] ∧ WritesWhenEmpty false s.line.accesses := by
  have hformats : Formats ⟨[0x25, 0x6c], by decide⟩ [.int64 (-7)] [0x2d, 0x37] :=
    ⟨[.number [0x6c]], parses_long, List.prefix_refl [Kind.int64], by decide, by decide, by decide⟩
  have hsends : List.Forall₂ SerialCall.Sends [[0x2d, 0x37]]
      [.serialPrintf ⟨[0x25, 0x6c], by decide⟩ 0x8000 [.int64 (-7)]] := .cons hformats .nil
  obtain ⟨hreturns, hbytes⟩ := serialRun_sends hsends ⟨fun _ => 0⟩ [0x21, 0x20, 0x61]
  obtain ⟨s, hs⟩ := Option.isSome_iff_exists.mp (hreturns.mpr (by decide))
  obtain ⟨hsent, hempty⟩ := hbytes s hs
  have hpolls : PollsSeeEmpty 2 [0x21, 0x20, 0x61] :=
    ⟨⟨0x21, by decide, by decide⟩, ⟨0x20, by decide, by decide⟩, trivial⟩
  exact ⟨s, hs, hsent, hempty.mpr hpolls⟩

end Serial

end FroggyOs
