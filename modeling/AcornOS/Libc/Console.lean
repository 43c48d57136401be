/-
# What the processes print (`printf`, down to the screen)

`printf` formats into a buffer on the stack and makes ONE call of `write()`, on descriptor 1; the call goes
through `sys_write`, `vfs_write`, `devfs_write` and `dev_display_write` to `vga_putchar`.  No process is
interrupted in a system call for the sake of another, so what two processes print is not mixed up.

* `ConsoleRun` is any interleaving of processes that print, of the kernel and its shell, which print with
  `kprintf`, and of calls of any other kind.
* `shown` is the text of such a run: what is printed, in order, except that processes show nothing from the
  first `close(1)` on.
* **`console_shows_all`**: the screen has been given EXACTLY THAT TEXT.  What a `printf` contributes is its
  complete output, if that has fewer than 992 bytes, and in any case an initial part of it.
-/
import AcornOS.FileSystem.Streams
import AcornOS.Libc.Printf

namespace AcornOS

open Lib

/-! ## 1. Runs -/

/-- What can be seen from outside: a `printf` of these arguments, which has passed `bytes` to `write()`, a
text of the kernel's, and a call other than `write`. -/
inductive ConsoleEvent where
  | printf (fmt : CString) (args : VaList) (bytes : CString)
  | kernel (text : CString)
  | call (c : Call)

/-- The events of all processes, in the order in which they happen.  The stack of the process that prints may
hold anything where the buffer is. -/
inductive ConsoleRun (io₀ : Io) : List ConsoleEvent → Io → Prop
  | start : ConsoleRun io₀ [] io₀
  | printf {es : List ConsoleEvent} {io io' : Io} {r : Int} {stack bytes : List (BitVec 8)} {fmt : CString}
      {args : VaList} {b : PrintfBuf} (h : ConsoleRun io₀ es io) (hfmt : FormatComplete fmt)
      (hstack : stack.length = printfBufSize) (hprint : vprintf stack fmt args = some (bytes, b))
      (hwrite : io.sysWrite 1 bytes = .ok (r, io')) : ConsoleRun io₀ (es ++ [.printf fmt args bytes]) io'
  | kernel {es : List ConsoleEvent} {io : Io} (h : ConsoleRun io₀ es io) (text : CString) (kernel : Kernel) :
      ConsoleRun io₀ (es ++ [.kernel text]) { io with kernel := kernel, vga := vgaPrint io.vga text }
  | call {es : List ConsoleEvent} {io io' : Io} {s : Surroundings} {c : Call} {r : Reply}
      (h : ConsoleRun io₀ es io) (hfresh : io.Fresh s.addresses) (hother : c.writes = false)
      (hok : io.call s c = .ok (r, io')) : ConsoleRun io₀ (es ++ [.call c]) io'

/-- The text so far, and whether descriptor 1 is still open. -/
structure Shown where
  text : CString
  isOpen : Bool
deriving Repr, DecidableEq

/-- One event more. -/
def Shown.next (t : Shown) : ConsoleEvent → Shown
  | .printf _ _ bytes => if t.isOpen then { t with text := t.text ++ bytes } else t
  | .kernel text => { t with text := t.text ++ text }
  | .call c => if c = .close 1 then { t with isOpen := false } else t

/-- The text of a run. -/
def shown (es : List ConsoleEvent) : Shown := es.foldl Shown.next ⟨[], true⟩

/-- Two texts, and one that is printed when 1 is closed. -/
example : (shown [.printf [] (fun _ => ⟨0, []⟩) [0x41], .kernel [0x42], .call (.close 1),
    .printf [] (fun _ => ⟨0, []⟩) [0x43]]).text = [0x41, 0x42] := by decide

/-! ## 2. The screen -/

/-- Between two events: the screen shows the text, and descriptor 1 is on the display if it is open. -/
structure Console (io₀ io : Io) (t : Shown) : Prop where
  devices : io.devices = kernelDevices
  screen : io.vga = vgaPrint io₀.vga t.text
  stdout : if t.isOpen then io.DeviceAt 1 oWronly 0 else io.fs.fileTable 1 = none

section Console

variable {io₀ io io' : Io} {es : List ConsoleEvent} {t : Shown} {bytes : List (BitVec 8)} {fmt : CString}
  {args : VaList}

theorem shown_snoc (es : List ConsoleEvent) (e : ConsoleEvent) : shown (es ++ [e]) = (shown es).next e :=
  List.foldl_concat ..

theorem Shown.next_open (h : t.isOpen = true) :
    t.next (.printf fmt args bytes) = { t with text := t.text ++ bytes } := if_pos h

theorem Shown.next_closed (h : t.isOpen = false) : t.next (.printf fmt args bytes) = t :=
  if_neg (Bool.eq_false_iff.mp h)

theorem vprintf_returns {stack : List (BitVec 8)} (hfmt : FormatComplete fmt)
    (hstack : stack.length = printfBufSize) (args : VaList) :
    ∃ out b, vprintf stack fmt args = some (out, b) ∧ Written out b ∧ Reaches [] (libcOutput fmt args) out := by
  rcases vprintfLoop_spec fmt args (newPrintfBuf_written hstack) with
    ⟨-, hincomplete, -⟩ | ⟨b, out, heq, hwritten, hreach, -⟩
  · exact absurd hfmt hincomplete
  · refine ⟨out, b, ?_, hwritten, hreach⟩
    rw [vprintf, heq, Option.map_some, hwritten.pos, hwritten.buf]

/-- **What `printf` writes** fits into its buffer, and is an initial part of its complete output. -/
theorem vprintf_bytes {stack : List (BitVec 8)} {b : PrintfBuf} (hfmt : FormatComplete fmt)
    (hstack : stack.length = printfBufSize) (hprint : vprintf stack fmt args = some (bytes, b)) :
    bytes.length < printfBufSize ∧ bytes <+: libcOutput fmt args ∧
      ((libcOutput fmt args).length < printfBufSize - 32 → bytes = libcOutput fmt args) := by
  obtain ⟨out, b', heq, hwritten, hreach⟩ := vprintf_returns hfmt hstack args
  cases hprint.symm.trans heq
  rw [Reaches, List.nil_append] at hreach
  refine ⟨hwritten.short, ?_, fun hshort => ?_⟩
  · rcases hreach with hall | ⟨-, hprefix⟩
    · exact hall ▸ List.prefix_rfl
    · exact hprefix
  · rcases hreach with hall | ⟨hfull, hprefix⟩
    · exact hall
    · have hle := hprefix.length_le
      omega

/-- **A `printf`** puts its bytes on the screen, if the display is open. -/
theorem Console.printf {r : Int} (h : Console io₀ io t) (hlen : bytes.length < printfBufSize)
    (hwrite : io.sysWrite 1 bytes = .ok (r, io')) : Console io₀ io' (t.next (.printf fmt args bytes)) := by
  have hcount : bytes.length % 2 ^ 32 = bytes.length := Nat.mod_eq_of_lt (hlen.trans (by decide))
  have hfit : ¬ bytes.length > 4096 := Nat.not_lt.mpr (hlen.le.trans (by decide))
  have hstdout := h.stdout
  unfold Io.sysWrite at hwrite
  simp only [hcount, if_neg hfit, List.take_length] at hwrite
  cases hopen : t.isOpen with
  | true =>
    rw [if_pos hopen] at hstdout
    have hput := Io.vfsWrite_display (by decide) hstdout h.devices bytes
    cases hput.symm.trans hwrite
    rw [Shown.next_open hopen]
    refine ⟨h.devices, ?_, ?_⟩
    · rw [vgaPrint_append, ← h.screen]
    · rw [if_pos hopen]
      exact hstdout
  | false =>
    rw [if_neg (Bool.eq_false_iff.mp hopen)] at hstdout
    have hnone : vfsGetFile io.fs 1 = none := (vfsGetFile_of_lt (by decide)).trans hstdout
    have hrefused : io.vfsWrite 1 bytes = .ok (-1, io) := by
      rw [Io.vfsWrite, hnone]
    cases hrefused.symm.trans hwrite
    rw [Shown.next_closed hopen]
    exact h

/-- **A call** leaves the screen alone. -/
theorem Console.call {c : Call} (h : Console io₀ io t) (hother : c.writes = false)
    (hframe : io.Frame c.closes c.writes io') : Console io₀ io' (t.next (.call c)) := by
  have hscreen := (hframe.screen hother).trans h.screen
  have hstdout := h.stdout
  by_cases hclose : c = .close 1
  · have hshut := hframe.closed 1 (by decide) (Call.closes_eq_some.mpr hclose)
    have hnext : t.next (.call c) = { t with isOpen := false } := if_pos hclose
    rw [hnext]
    exact ⟨hframe.devices.trans h.devices, hscreen, hshut⟩
  have hnext : t.next (.call c) = t := if_neg hclose
  rw [hnext]
  refine ⟨hframe.devices.trans h.devices, hscreen, ?_⟩
  cases hopen : t.isOpen with
  | true =>
    rw [if_pos hopen] at hstdout
    obtain ⟨a, hnode, p, hfile⟩ := hstdout
    obtain ⟨q, hq⟩ := hframe.kept 1 _ hfile fun heq => hclose (Call.closes_eq_some.mp heq)
    exact ⟨a, hframe.nodes a _ hnode, q, hq⟩
  | false =>
    rw [if_neg (Bool.eq_false_iff.mp hopen)] at hstdout
    exact hframe.shut 1 (by decide) hstdout

/-- **Every run** keeps it. -/
theorem ConsoleRun.console (hstart : Console io₀ io₀ ⟨[], true⟩) (h : ConsoleRun io₀ es io) :
    Console io₀ io (shown es) := by
  induction h with
  | start => exact hstart
  | printf _ hfmt hstack hprint hwrite ih =>
    rw [shown_snoc]
    exact ih.printf (vprintf_bytes hfmt hstack hprint).1 hwrite
  | kernel _ text kernel ih =>
    rw [shown_snoc]
    exact ⟨ih.devices, (congrArg (vgaPrint · text) ih.screen).trans (vgaPrint_append ..).symm, ih.stdout⟩
  | call _ hfresh hother hok ih =>
    rw [shown_snoc]
    exact ih.call hother ((Io.call_frame hfresh _).of_ok hok)

/-- What stands in a run of a `printf`. -/
theorem ConsoleRun.printed (h : ConsoleRun io₀ es io) (hmem : .printf fmt args bytes ∈ es) :
    bytes <+: libcOutput fmt args ∧
      ((libcOutput fmt args).length < printfBufSize - 32 → bytes = libcOutput fmt args) := by
  induction h with
  | start => cases hmem
  | printf _ hfmt hstack hprint _ ih =>
    rcases List.mem_append.mp hmem with hbefore | hlast
    · exact ih hbefore
    · cases List.mem_singleton.mp hlast
      exact (vprintf_bytes hfmt hstack hprint).2
  | kernel _ text kernel ih =>
    rcases List.mem_append.mp hmem with hbefore | hlast
    · exact ih hbefore
    · cases List.mem_singleton.mp hlast
  | call _ _ _ _ ih =>
    rcases List.mem_append.mp hmem with hbefore | hlast
    · exact ih hbefore
    · cases List.mem_singleton.mp hlast

end Console

end AcornOS
