import FroggyOs.Drivers.Uart
import FroggyOs.Vga.TextTerminal

/-!
# The serial message of a scroll

In front of a scroll `move_tty_cursor_down` sends a message on the serial line, and waits for the
device with each byte of it. The definitions here are those of the renderer with the line at its
side. The screen is the one the renderer alone makes. A text is printed exactly when the device
takes the message once for each line that has left the screen.
-/

namespace FroggyOs

open ByteMemory Word32 TTYRenderer

/-- A renderer and the serial line. -/
structure Terminal where
  renderer : TTYRenderer
  line : Uart.Line

/-- The string that `move_tty_cursor_down` sends. -/
def scrollMessage : CString :=
  ⟨"Scroll Buffer Activated!".toList.map Char.toUInt8, by decide⟩

namespace Terminal

def moveTtyCursorDown (t : Terminal) : Option Terminal :=
  if add32 t.renderer.cursorPosition.y t.renderer.psf1Font.charsize ≥
      sub32 t.renderer.framebuffer.height t.renderer.psf1Font.charsize then do
    let line ← t.line.writeSerialString scrollMessage
    return ⟨t.renderer.moveTtyCursorDown, line⟩
  else some { t with renderer := t.renderer.moveTtyCursorDown }

/-- Only a line feed moves the cursor down. -/
def putNext (t : Terminal) (chr : UInt8) : Option Terminal :=
  if chr = '\n'.toUInt8 then moveTtyCursorDown { t with renderer.cursorPosition.x := 0 }
  else some { t with renderer := t.renderer.putNext chr }

def wrapLine (t : Terminal) : Option Terminal :=
  if add32 t.renderer.cursorPosition.x 9 > t.renderer.framebuffer.width then
    moveTtyCursorDown { t with renderer.cursorPosition.x := 0 }
  else some t

def printChar (t : Terminal) (chr : UInt8) : Option Terminal := do
  let t ← t.putNext chr
  t.wrapLine

/-- The string ends before its first 0. -/
def ttyPrint (t : Terminal) : List UInt8 → Option Terminal
  | [] => some t
  | chr :: str => if chr = 0 then some t else do
      let t ← t.printChar chr
      t.ttyPrint str

/-- `tty_break` -/
def ttyBreak (t : Terminal) : Option Terminal := t.ttyPrint [' '.toUInt8, '\n'.toUInt8]

/-- Printing character by character, without the test for the end of the string. -/
def printChars (t : Terminal) (chars : List UInt8) : Option Terminal := chars.foldlM printChar t

theorem ttyPrint_of_noNul {chars : List UInt8} (hnoNul : 0 ∉ chars) (t : Terminal) :
    t.ttyPrint chars = t.printChars chars := by
  induction chars generalizing t with
  | nil => rfl
  | cons chr chars ih =>
      obtain ⟨hchr, hrest⟩ := not_or.mp (mt List.mem_cons.mpr hnoNul)
      rw [ttyPrint, if_neg (Ne.symm hchr), printChars, List.foldlM_cons]
      congr 1
      funext next
      exact ih hrest next

theorem printChars_append (t : Terminal) (bs cs : List UInt8) :
    t.printChars (bs ++ cs) = (t.printChars bs).bind fun t => t.printChars cs :=
  List.foldlM_append ..

end Terminal

/-! ## The messages of a text -/

/-- The message `n` times. -/
def scrollMessages (n : Nat) : List UInt8 := (List.replicate n scrollMessage.bytes).flatten

theorem scrollMessages_add (m n : Nat) :
    scrollMessages (m + n) = scrollMessages m ++ scrollMessages n := by
  rw [scrollMessages, List.replicate_add, List.flatten_append]
  rfl

theorem scrollMessages_length (n : Nat) : (scrollMessages n).length = 24 * n := by
  have hlength : scrollMessage.bytes.length = 24 := by decide
  simp [scrollMessages, hlength, Nat.mul_comm]

/-- How many lines of the text have left a screen that was empty before. -/
def Text.scrolled (height charsize : Nat) (t : Text) : Nat :=
  t.complete.length - lastRow height charsize

section Messages

variable {r r' : TTYRenderer} {c : UInt32} {t : Text} {line : Uart.Line} {chr : UInt8}

/-- The terminal after it has drawn `r` and sent the message `n` times. -/
def Sending (line : Uart.Line) (r : TTYRenderer) (n : Nat) : Option Terminal :=
  (line.send (scrollMessages n)).map (Terminal.mk r)

theorem sending_zero (line : Uart.Line) (r : TTYRenderer) :
    Sending line r 0 = some ⟨r, line⟩ := by
  have hnone : scrollMessages 0 = [] := rfl
  rw [Sending, hnone, Uart.Line.send_nil, Option.map_some]

theorem Sending.bind {f : Terminal → Option Terminal} {m n : Nat}
    (hnext : ∀ line, f ⟨r, line⟩ = Sending line r' n) :
    (Sending line r m).bind f = Sending line r' (m + n) := by
  rw [Sending, Sending, scrollMessages_add, Uart.Line.send_append]
  cases line.send (scrollMessages m) with
  | none => rfl
  | some next => exact hnext next

theorem Terminal.wrapLine_eq_self (h : r.CellFits) (line : Uart.Line) :
    wrapLine ⟨r, line⟩ = some ⟨r, line⟩ := by
  have hwidth := h.width_lt
  have hright := h.right
  have hroom : ¬ add32 r.cursorPosition.x 9 > r.framebuffer.width := by
    rw [add32_eq (by omega)]
    omega
  exact if_neg hroom

namespace TTYRenderer.Shows

/-- The message is sent exactly if another line leaves the screen. -/
theorem terminal_newLine (h : r.Shows c t) :
    ∃ n, Text.scrolled r.framebuffer.height r.psf1Font.charsize t.newLine =
        Text.scrolled r.framebuffer.height r.psf1Font.charsize t + n ∧
      ∀ line, Terminal.moveTtyCursorDown ⟨r.lineStart, line⟩ =
        Sending line r.lineStart.moveTtyCursorDown n := by
  have htest := h.start.scrolls_iff.trans h.scrolls_iff
  have hlength : t.newLine.complete.length = t.complete.length + 1 := by simp [Text.newLine]
  by_cases hlast : lastRow r.framebuffer.height r.psf1Font.charsize ≤ t.complete.length
  · refine ⟨1, ?_, fun line => ?_⟩
    · rw [Text.scrolled, Text.scrolled, hlength]
      omega
    · have hone : scrollMessages 1 = scrollMessage.bytes := List.append_nil _
      have hscroll : Terminal.moveTtyCursorDown ⟨r.lineStart, line⟩ =
          (line.writeSerialString scrollMessage).bind fun line =>
            some ⟨r.lineStart.moveTtyCursorDown, line⟩ := if_pos (htest.mpr hlast)
      rw [hscroll, Uart.Line.writeSerialString_eq, Sending, hone]
      cases line.send scrollMessage.bytes <;> rfl
  · refine ⟨0, ?_, fun line => ?_⟩
    · rw [Text.scrolled, Text.scrolled, hlength]
      omega
    · have hstay : Terminal.moveTtyCursorDown ⟨r.lineStart, line⟩ =
          some ⟨r.lineStart.moveTtyCursorDown, line⟩ := if_neg (mt htest.mp hlast)
      rw [hstay, sending_zero]

/-- Printing a character sends what the lines that leave the screen call for. -/
theorem terminal_printChar (h : r.Shows c t)
    (hroom : 9 * (t.current.length + 1) ≤ r.framebuffer.width) (chr : UInt8) :
    ∃ n, Text.scrolled r.framebuffer.height r.psf1Font.charsize
        (t.typeChar r.framebuffer.width chr) =
        Text.scrolled r.framebuffer.height r.psf1Font.charsize t + n ∧
      ∀ line, Terminal.printChar ⟨r, line⟩ chr = Sending line (r.printChar chr) n := by
  have hcell := h.cellFits hroom
  by_cases hchr : chr = '\n'.toUInt8
  · obtain ⟨n, hscrolled, hdown⟩ := h.terminal_newLine
    refine ⟨n, ?_, fun line => ?_⟩
    · rw [Text.typeChar, if_pos hchr, hscrolled]
    · have hput : Terminal.putNext ⟨r, line⟩ chr =
          Terminal.moveTtyCursorDown ⟨r.lineStart, line⟩ := if_pos hchr
      have hwrap : (Sending line r.lineStart.moveTtyCursorDown n).bind Terminal.wrapLine =
          Sending line r.lineStart.moveTtyCursorDown (n + 0) := Sending.bind fun line => by
        rw [Terminal.wrapLine_eq_self hcell.moveTtyCursorDown, sending_zero]
      rw [Terminal.printChar, hput, hdown, hchr, hcell.printChar_newline]
      exact hwrap
  · have hlength : (t.append chr).current.length = t.current.length + 1 := by simp [Text.append]
    have hwidth := hcell.width_lt
    have hright := hcell.right
    have hcursor := h.cursor_x
    have hput : ∀ line, Terminal.putNext ⟨r, line⟩ chr = some ⟨r.putNext chr, line⟩ :=
      fun line => if_neg hchr
    have hx : (r.putNext chr).cursorPosition.x = r.cursorPosition.x + 9 := by
      rw [putNext_cursor hchr]
      exact add32_eq (by omega)
    have htest : add32 (r.putNext chr).cursorPosition.x 9 > (r.putNext chr).framebuffer.width ↔
        r.framebuffer.width < r.cursorPosition.x + 18 := by
      rw [hx, putNext_framebuffer, add32_eq (by omega)]
    rw [Text.typeChar, if_neg hchr, hcell.printChar_other hchr, hlength]
    by_cases hwrap : r.framebuffer.width < r.cursorPosition.x + 18
    · obtain ⟨n, hscrolled, hdown⟩ := (h.putNext hroom hchr).terminal_newLine
      rw [putNext_framebuffer, putNext_psf1Font] at hscrolled
      refine ⟨n, ?_, fun line => ?_⟩
      · rw [if_pos (by omega), hscrolled]
        rfl
      · have hline : Terminal.wrapLine ⟨r.putNext chr, line⟩ =
            Terminal.moveTtyCursorDown ⟨(r.putNext chr).lineStart, line⟩ :=
          if_pos (htest.mpr hwrap)
        rw [Terminal.printChar, hput, if_pos hwrap]
        exact hline.trans (hdown line)
    · refine ⟨0, ?_, fun line => ?_⟩
      · rw [if_neg (by omega)]
        rfl
      · have hline : Terminal.wrapLine ⟨r.putNext chr, line⟩ = some ⟨r.putNext chr, line⟩ :=
          if_neg (mt htest.mp hwrap)
        rw [Terminal.printChar, hput, if_neg hwrap]
        exact hline.trans (sending_zero line _).symm

theorem terminal_printChars (h : r.Shows c t)
    (hroom : 9 * (t.current.length + 1) ≤ r.framebuffer.width) (chars : List UInt8) :
    ∃ n, Text.scrolled r.framebuffer.height r.psf1Font.charsize
        (chars.foldl (Text.typeChar r.framebuffer.width) t) =
        Text.scrolled r.framebuffer.height r.psf1Font.charsize t + n ∧
      ∀ line, Terminal.printChars ⟨r, line⟩ chars = Sending line (r.printChars chars) n := by
  induction chars generalizing r t with
  | nil =>
      refine ⟨0, rfl, fun line => ?_⟩
      exact (sending_zero line r).symm
  | cons chr chars ih =>
      obtain ⟨hnext, hroom'⟩ := h.printChar hroom chr
      obtain ⟨m, hscrolled, hprint⟩ := h.terminal_printChar hroom chr
      obtain ⟨n, hscrolled', hprint'⟩ := ih hnext (by rw [printChar_framebuffer]; exact hroom')
      rw [printChar_framebuffer, printChar_psf1Font, hscrolled] at hscrolled'
      refine ⟨m + n, ?_, fun line => ?_⟩
      · rw [List.foldl_cons, hscrolled', Nat.add_assoc]
      · rw [Terminal.printChars, List.foldlM_cons, hprint]
        exact Sending.bind hprint'

end TTYRenderer.Shows

end Messages

/-- On a cleared screen a text is printed exactly when the device takes the message once for each
line that leaves the screen. -/
theorem terminal_printed {r : TTYRenderer} (hfits : r.framebuffer.Fits)
    (hrows : TwoLines r.framebuffer.height r.psf1Font.charsize) (c : UInt32) (line : Uart.Line)
    (chars : List UInt8) :
    Terminal.printChars ⟨r.ttyClear c true, line⟩ chars =
      Sending line ((r.ttyClear c true).printChars chars)
        ((Text.layout r.framebuffer.width chars).scrolled r.framebuffer.height
          r.psf1Font.charsize) := by
  obtain ⟨n, hscrolled, hprint⟩ :=
    (shows_ttyClear hfits hrows c).terminal_printChars hfits.wide chars
  have hempty : Text.scrolled r.framebuffer.height r.psf1Font.charsize ⟨[], []⟩ = 0 :=
    Nat.zero_sub _
  rw [ttyClear_framebuffer, ttyClear_psf1Font, hempty, Nat.zero_add] at hscrolled
  rw [hprint, Text.layout, hscrolled]

end FroggyOs
