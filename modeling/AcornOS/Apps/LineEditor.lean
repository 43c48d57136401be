/-
# The line editor of the shell (`shell_handle_key`)

A key at a time: it goes into the buffer and onto the screen, takes the last one back, or ends the line.

* **`shell_reads_lines`**: whatever is typed, the buffer holds the line as edited, within its 256 bytes, and
  what is run is `process_command` of the finished lines, in order.  Characters after the 255th are lost.
* `vga_putchar` does not take the cursor back over the LEFT EDGE of the screen.  A line that has just been
  continued on the next row cannot be edited back: the character that is taken out of the buffer stays on the
  screen, and what is typed next appears one cell behind its place.
* **`shell_shows_line_iff`**: the screen shows the line after each key EXACTLY IF no character is taken back
  while the cursor is at the left edge.
-/
import AcornOS.Apps.Shell
import AcornOS.Drivers.Keyboard
import AcornOS.Drivers.Vga

namespace AcornOS

open Lib

/-! ## 1. The code -/

/-- `SHELL_BUFFER_SIZE` -/
def shellBufferSize : Nat := 256

/-- `'\n'` -/
def newline : BitVec 8 := 0x0A

/-- `'\b'` -/
def backspace : BitVec 8 := 0x08

/-- The variables of `shell.c`, the screen, and what the lines so far have come to. -/
structure Shell where
  buffer : List (BitVec 8)
  bufPos : Nat
  skipPrompt : Bool
  vga : Vga
  ran : List Dispatch

/-- `"acorn> "` -/
def promptText : CString := [0x61, 0x63, 0x6F, 0x72, 0x6E, 0x3E, 0x20]

/-- `print_prompt` -/
def printPrompt (v : Vga) : Vga :=
  let lightGreen := 10
  let white := 15
  let black := 0
  vgaSetColour (vgaPrint (vgaSetColour v lightGreen black) promptText) white black

namespace Shell

/-- `buffer_clear` -/
def bufferClear (s : Shell) : Shell :=
  { s with buffer := List.replicate shellBufferSize 0, bufPos := 0 }

/-- `cmd_clear` -/
def cmdClear (s : Shell) : Shell :=
  { ({ s with vga := printPrompt (vgaClear s.vga) } : Shell).bufferClear with skipPrompt := true }

/-- `process_command`, when the handler that is called, or the message, does `output` to the screen. -/
def runCommand (output : Dispatch → Vga → Vga) (s : Shell) : Shell :=
  let dispatch := processCommand (stringAt s.buffer 0)
  let s := { s with vga := vgaPutchar s.vga newline, ran := s.ran ++ [dispatch] }
  match dispatch with
  | .nothing => s
  | .ran .clear _ => s.cmdClear
  | _ => { s with vga := output dispatch s.vga }

/-- `shell_handle_key` -/
def handleKey (output : Dispatch → Vga → Vga) (s : Shell) (c : BitVec 8) : Shell :=
  let s := { s with skipPrompt := false }
  if c = newline then
    let s := (s.runCommand output).bufferClear
    if s.skipPrompt then s else { s with vga := printPrompt s.vga }
  else if c = backspace then
    if 0 < s.bufPos then
      { s with
        bufPos := s.bufPos - 1
        buffer := s.buffer.set (s.bufPos - 1) 0
        vga := vgaPutchar (vgaPutchar (vgaPutchar s.vga backspace) space) backspace }
    else s
  else if s.bufPos < shellBufferSize - 1 then
    { s with
      buffer := s.buffer.set s.bufPos c
      bufPos := s.bufPos + 1
      vga := vgaPutchar s.vga c }
  else s

/-- `shell_init` -/
def init (v : Vga) : Shell := bufferClear ⟨[], 0, false, printPrompt v, []⟩

/-- Some keys. -/
def handleKeys (output : Dispatch → Vga → Vga) (s : Shell) (keys : List (BitVec 8)) : Shell :=
  keys.foldl (handleKey output) s

end Shell

/-! ## 2. Lines -/

/-- What has been typed: the finished lines, and the one that is being edited. -/
structure Typed where
  lines : List CString
  current : CString
deriving Repr, DecidableEq

/-- A key, as its user sees it. -/
def Typed.key (t : Typed) (c : BitVec 8) : Typed :=
  if c = newline then ⟨t.lines ++ [t.current], []⟩
  else if c = backspace then { t with current := t.current.dropLast }
  else if t.current.length < shellBufferSize - 1 then { t with current := t.current ++ [c] }
  else t

/-- Some keys. -/
def Typed.keys (t : Typed) (keys : List (BitVec 8)) : Typed := keys.foldl Typed.key t

example : Typed.keys ⟨[], []⟩ [0x6C, 0x78, 0x08, 0x73, 0x0A, 0x70] = ⟨[[0x6C, 0x73]], [0x70]⟩ := by decide

/-- `Edits s t`: the shell is where its user is. -/
structure Shell.Edits (s : Shell) (t : Typed) : Prop where
  buffer : s.buffer = t.current ++ List.replicate (shellBufferSize - t.current.length) 0
  bufPos : s.bufPos = t.current.length
  room : t.current.length < shellBufferSize
  nonzero : 0 ∉ t.current
  ran : s.ran = t.lines.map processCommand

section Lines

variable {s : Shell} {t : Typed} {c : BitVec 8} {output : Dispatch → Vga → Vga}

theorem Shell.Edits.line (h : s.Edits t) : stringAt s.buffer 0 = t.current := by
  have hzeros : ∃ rest, List.replicate (shellBufferSize - t.current.length) (0 : BitVec 8) = 0 :: rest := by
    obtain ⟨n, hn⟩ : ∃ n, shellBufferSize - t.current.length = n + 1 :=
      ⟨shellBufferSize - t.current.length - 1, by have := h.room; omega⟩
    exact ⟨List.replicate n 0, by rw [hn, List.replicate_succ]⟩
  have hstring := @stringAt_append [] t.current
    (List.replicate (shellBufferSize - t.current.length) 0) h.nonzero (Or.inr hzeros)
  rw [h.buffer]
  exact hstring

theorem Shell.bufferClear_edits (lines : List CString) (h : s.ran = lines.map processCommand) :
    s.bufferClear.Edits ⟨lines, []⟩ :=
  ⟨rfl, rfl, (by decide : 0 < shellBufferSize), List.not_mem_nil, h⟩

theorem Shell.runCommand_ran (output : Dispatch → Vga → Vga) (s : Shell) :
    (s.runCommand output).ran = s.ran ++ [processCommand (stringAt s.buffer 0)] := by
  unfold runCommand
  dsimp only
  split <;> rfl

/-- **A key.** -/
theorem Shell.Edits.key (h : s.Edits t) (hc : c ≠ 0) : (s.handleKey output c).Edits (t.key c) := by
  unfold handleKey Typed.key
  dsimp only
  by_cases hnewline : c = newline
  · rw [if_pos hnewline, if_pos hnewline]
    have hran : (({ s with skipPrompt := false } : Shell).runCommand output).ran =
        (t.lines ++ [t.current]).map processCommand := by
      rw [runCommand_ran, h.ran, h.line, List.map_append]
      rfl
    have hedits := bufferClear_edits _ hran
    split
    · exact hedits
    · exact ⟨hedits.buffer, hedits.bufPos, hedits.room, hedits.nonzero, hedits.ran⟩
  rw [if_neg hnewline, if_neg hnewline]
  by_cases hback : c = backspace
  · rw [if_pos hback, if_pos hback]
    rcases List.eq_nil_or_concat t.current with hnil | ⟨line, last, hline⟩
    · have hpos : s.bufPos = 0 := h.bufPos.trans (by rw [hnil]; rfl)
      rw [if_neg (by omega), hnil]
      exact ⟨by rw [h.buffer, hnil]; rfl, by rw [hpos]; rfl, (by decide : 0 < shellBufferSize),
        List.not_mem_nil, h.ran⟩
    · rw [List.concat_eq_append] at hline
      have hroom := h.room
      have hpos := h.bufPos
      have hnonzero := h.nonzero
      have hbuffer := h.buffer
      rw [hline, List.length_append, List.length_singleton] at hroom hpos
      rw [hline] at hnonzero
      rw [hline, List.length_append, List.length_singleton, List.append_assoc] at hbuffer
      rw [if_pos (by omega), hline, List.dropLast_concat]
      refine ⟨?_, ?_, Nat.lt_of_succ_lt hroom, fun h0 => hnonzero (List.mem_append_left _ h0), h.ran⟩
      · dsimp only
        have hzeros : shellBufferSize - line.length = shellBufferSize - (line.length + 1) + 1 := by omega
        rw [hbuffer, hpos, Nat.add_sub_cancel, List.set_append_right _ _ le_rfl, Nat.sub_self,
          List.singleton_append, List.set_cons_zero, hzeros, List.replicate_succ]
      · dsimp only
        rw [hpos, Nat.add_sub_cancel]
  rw [if_neg hback, if_neg hback]
  have hpos := h.bufPos
  by_cases hroom : t.current.length < shellBufferSize - 1
  · rw [if_pos (hpos ▸ hroom), if_pos hroom]
    have hzeros : shellBufferSize - t.current.length = shellBufferSize - (t.current.length + 1) + 1 := by
      omega
    refine ⟨?_, ?_, ?_, ?_, h.ran⟩
    · dsimp only
      rw [h.buffer, hpos, List.set_append_right _ _ le_rfl, Nat.sub_self, hzeros, List.replicate_succ,
        List.set_cons_zero, List.length_append, List.length_singleton, List.append_assoc]
      rfl
    · dsimp only
      rw [hpos, List.length_append, List.length_singleton]
    · dsimp only
      rw [List.length_append, List.length_singleton]
      omega
    · intro h0
      rcases List.mem_append.mp h0 with h0 | h0
      · exact h.nonzero h0
      · exact hc (List.mem_singleton.mp h0).symm
  · rw [if_neg (hpos ▸ hroom), if_neg hroom]
    exact ⟨h.buffer, h.bufPos, h.room, h.nonzero, h.ran⟩

/-- **Keys.** -/
theorem Shell.Edits.keys (keys : List (BitVec 8)) (hkeys : ∀ c ∈ keys, c ≠ 0) (h : s.Edits t) :
    (s.handleKeys output keys).Edits (t.keys keys) := by
  induction keys generalizing s t with
  | nil => exact h
  | cons c keys ih =>
    exact ih (fun x hx => hkeys x (List.mem_cons_of_mem c hx)) (h.key (hkeys c List.mem_cons_self))

/-- **The shell reads lines.**  After any keys the 256 bytes of the buffer are the line as it has been
edited and zeros, its position is the end of the line, below 256, and the commands that have been run are
`process_command` of the finished lines, each once and in order; whatever they print. -/
theorem shell_reads_lines (output : Dispatch → Vga → Vga) (v : Vga) (keys : List (BitVec 8))
    (hkeys : ∀ c ∈ keys, c ≠ 0) :
    ((Shell.init v).handleKeys output keys).Edits (Typed.keys ⟨[], []⟩ keys) :=
  (Shell.bufferClear_edits [] rfl).keys keys hkeys

/-- `ls`, with a slip. -/
theorem shell_reads_lines_ls :
    ((Shell.init ⟨fun _ => 0, 0, 0, 0x0F, false⟩).handleKeys (fun _ v => v)
      [0x6C, 0x78, 0x08, 0x73, 0x0A]).Edits ⟨[[0x6C, 0x73]], []⟩ :=
  shell_reads_lines (fun _ v => v) _ [0x6C, 0x78, 0x08, 0x73, 0x0A] (by decide)

end Lines

/-! ## 3. What the screen shows -/

/-- `ShowsLine v x start text`: the text stands on the screen from the cell `start` on, in the column `x`,
row after row, and the cursor is behind it. -/
structure ShowsLine (v : Vga) (x start : Int) (text : CString) : Prop where
  nonneg : 0 ≤ start
  column : start % vgaWidth = x
  cursor : cellIndex v.cursorX v.cursorY = start + text.length
  cells : ∀ i : Nat, i < text.length → some ((v.vga (start + i)).setWidth 8) = text[i]?

/-- What `shell_handle_key` puts out for a backspace. -/
def eraseLast (v : Vga) : Vga := vgaPutchar (vgaPutchar (vgaPutchar v backspace) space) backspace

section Screen

variable {v : Vga} {x start : Int} {text : CString} {c : BitVec 8}

/-- The column of the cursor is what is left of its cell. -/
theorem Vga.OnScreen.cursorX_eq (h : v.OnScreen) : cellIndex v.cursorX v.cursorY % vgaWidth = v.cursorX := by
  have hleft := h.left
  have hright := h.right
  unfold cellIndex vgaWidth at *
  omega

/-- A byte of text moves the cursor to the next cell, which may have come up. -/
theorem vgaPutchar_cursor (h : v.OnScreen) (hc : IsText c) :
    cellIndex (vgaPutchar v c).cursorX (vgaPutchar v c).cursorY =
      cellIndex v.cursorX v.cursorY + 1 - vgaWidth * v.rise := by
  have hbottom := h.bottom
  have hright := h.right
  obtain ⟨hnewline, hreturn, hback⟩ := hc
  have hput : (putUnscrolled v c).cursorX = (if v.cursorX = vgaWidth - 1 then 0 else v.cursorX + 1) ∧
      (putUnscrolled v c).cursorY = if v.cursorX = vgaWidth - 1 then v.cursorY + 1 else v.cursorY := by
    refine ⟨?_, (putUnscrolled_text h ⟨hnewline, hreturn, hback⟩).2⟩
    unfold putUnscrolled
    rw [if_neg hnewline, if_neg hreturn, if_neg hback]
    dsimp only
    split
    · rename_i hlast
      have hlast : (vgaWidth : Int) ≤ v.cursorX + 1 := hlast
      rw [if_pos (by omega)]
    · rename_i hmore
      have hmore : ¬ (vgaWidth : Int) ≤ v.cursorX + 1 := hmore
      rw [if_neg (by omega)]
      rfl
  obtain ⟨hx, hy⟩ := hput
  unfold vgaPutchar
  by_cases hend : v.cursorX = vgaWidth - 1 ∧ v.cursorY = vgaHeight - 1
  · have hrise : v.rise = 1 := if_pos hend
    rw [if_pos hend.1] at hx hy
    have hscroll := scroll_scrolled (v := putUnscrolled v c) (by rw [hy, hend.2]; omega)
    rw [hscroll.cursorX, hscroll.cursorY, hx, hrise, hend.1, hend.2]
    unfold cellIndex vgaWidth vgaHeight
    omega
  · have hrise : v.rise = 0 := if_neg hend
    rw [scroll_of_lt (by rw [hy]; split <;> omega), hx, hy, hrise]
    unfold cellIndex vgaWidth vgaHeight at *
    split <;> omega

/-- **A character is shown behind the line.** -/
theorem ShowsLine.put (h : ShowsLine v x start text) (hon : v.OnScreen) (hc : IsText c)
    (hroom : text.length < shellBufferSize - 1) :
    ShowsLine (vgaPutchar v c) x (start - vgaWidth * v.rise) (text ++ [c]) := by
  have hcursor := h.cursor
  have hstart := h.nonneg
  have hcolumn := h.column
  have hright := hon.right
  have hleft := hon.left
  have htop := hon.top
  have hbottom := hon.bottom
  have hrise : v.rise = 0 ∨ v.rise = 1 ∧ cellIndex v.cursorX v.cursorY = 1999 := by
    unfold Vga.rise cellIndex
    split
    · rename_i hend
      rw [hend.1, hend.2]
      exact Or.inr ⟨rfl, rfl⟩
    · exact Or.inl rfl
  have hlt : cellIndex v.cursorX v.cursorY < 2000 := by
    unfold cellIndex vgaWidth vgaHeight at *
    omega
  have hsize : shellBufferSize = 256 := rfl
  have hwidth : (vgaWidth : Int) = 80 := rfl
  have hheight : (vgaHeight : Int) = 25 := rfl
  rw [hwidth] at hcolumn ⊢
  refine ⟨by omega, ?_, ?_, fun i hi => ?_⟩
  · rw [hwidth]
    omega
  · rw [vgaPutchar_cursor hon hc, List.length_append, List.length_singleton, hwidth]
    push_cast
    omega
  · rw [List.length_append, List.length_singleton] at hi
    rw [vgaPutchar_text hon hc, hwidth, hheight, if_neg (by omega)]
    have hcell : IsCell (start - 80 * v.rise + i) := isCell_iff.mpr (by omega)
    by_cases hlast : i = text.length
    · rw [if_pos ⟨hcell, by omega⟩, setWidth_makeEntry, hlast, List.getElem?_concat_length]
    · have hold : start - 80 * v.rise + i + 80 * v.rise = start + i := by omega
      rw [if_neg (by omega), if_pos hcell, hold, h.cells i (by omega),
        List.getElem?_append_left (by omega)]

theorem vgaPutchar_backspace (h : v.OnScreen) : vgaPutchar v backspace =
    if 0 < v.cursorX then
      ({ v with cursorX := v.cursorX - 1 } : Vga).store (cellIndex (v.cursorX - 1) v.cursorY) v.blank
    else v := by
  have hput : putUnscrolled v backspace = if 0 < v.cursorX then
      ({ v with cursorX := v.cursorX - 1 } : Vga).store (cellIndex (v.cursorX - 1) v.cursorY) v.blank
      else v := rfl
  have hlast : (putUnscrolled v backspace).cursorY < vgaHeight := by
    rw [hput]
    split
    · exact h.bottom
    · exact h.bottom
  rw [vgaPutchar, scroll_of_lt hlast, hput]

/-- **Taking a character back**: the cursor goes back by one, except at the left edge; no cell changes but
the one where it then is. -/
theorem eraseLast_spec (h : v.OnScreen) :
    cellIndex (eraseLast v).cursorX (eraseLast v).cursorY =
      cellIndex v.cursorX v.cursorY - (if 0 < v.cursorX then 1 else 0) ∧
    ∀ i, i ≠ cellIndex (eraseLast v).cursorX (eraseLast v).cursorY → (eraseLast v).vga i = v.vga i := by
  have hone := (vgaPutchar_onScreen h backspace).1
  have htwo := (vgaPutchar_onScreen hone space).1
  have hback := vgaPutchar_backspace h
  have hright := h.right
  have hleft := h.left
  have hwidth : (vgaWidth : Int) = 80 := rfl
  unfold eraseLast
  generalize hu : vgaPutchar v backspace = u at *
  have hcell : u.cursorX = v.cursorX - (if 0 < v.cursorX then 1 else 0) ∧ u.cursorY = v.cursorY ∧
      ∀ i, i ≠ cellIndex u.cursorX u.cursorY → u.vga i = v.vga i := by
    rw [hback]
    split
    · exact ⟨rfl, rfl, fun i hi => Vga.store_of_ne _ hi⟩
    · exact ⟨(Int.sub_zero _).symm, rfl, fun i _ => rfl⟩
  obtain ⟨hux, huy, huvga⟩ := hcell
  -- the space stays on the row, so the second backspace takes the cursor to it
  have hx : u.cursorX < 79 := by
    rw [hux]
    split <;> omega
  have hrise : u.rise = 0 := if_neg fun hend => by omega
  have hcursor := vgaPutchar_cursor hone (c := space) (by decide)
  have hvga := vgaPutchar_text hone (c := space) (by decide)
  have herase := vgaPutchar_backspace htwo
  have hcolumn := htwo.cursorX_eq
  have hucolumn := hone.cursorX_eq
  have huleft := hone.left
  generalize vgaPutchar u space = w at *
  rw [hrise, Int.mul_zero, Int.sub_zero] at hcursor
  rw [hwidth] at hcolumn hucolumn
  have hwx : w.cursorX = u.cursorX + 1 := by omega
  have hwy : w.cursorY = u.cursorY := by
    unfold cellIndex at hcursor
    rw [hwidth] at hcursor
    omega
  rw [herase, if_pos (by omega)]
  have hsame : cellIndex (w.cursorX - 1) w.cursorY = cellIndex u.cursorX u.cursorY := by
    rw [hwx, hwy, Int.add_sub_cancel]
  constructor
  · change cellIndex (w.cursorX - 1) w.cursorY = _
    rw [hsame, hux, huy]
    unfold cellIndex
    omega
  · intro i hi
    change i ≠ cellIndex (w.cursorX - 1) w.cursorY at hi
    rw [Vga.store_of_ne _ hi]
    change w.vga i = v.vga i
    rw [hsame] at hi
    rw [hvga, hrise, if_neg (by omega), Int.mul_zero, Int.add_zero, if_neg fun hin => hi hin.2, ite_self,
      huvga i hi]

theorem ShowsLine.column_eq (h : ShowsLine v x start text) (hon : v.OnScreen) :
    v.cursorX = (x + text.length) % vgaWidth := by
  have hcolumn := h.column
  rw [← hon.cursorX_eq, h.cursor, ← hcolumn, Int.emod_add_emod]

/-- **Taking a character back is shown**, except at the left edge. -/
theorem ShowsLine.erase (h : ShowsLine v x start text) (hon : v.OnScreen) (hne : text ≠ []) :
    (∃ start, ShowsLine (eraseLast v) x start text.dropLast) ↔ (x + text.length) % vgaWidth ≠ 0 := by
  obtain ⟨hcursor, hcells⟩ := eraseLast_spec hon
  have hleft := hon.left
  have hlength : text.dropLast.length + 1 = text.length := by
    rw [List.length_dropLast]
    exact Nat.sub_add_cancel (List.length_pos_iff.mpr hne)
  have hold := h.cursor
  have hcolumn := h.column
  have hwidth : (vgaWidth : Int) = 80 := rfl
  rw [← h.column_eq hon]
  constructor
  · rintro ⟨start', h'⟩ hedge
    have hnew := h'.cursor
    have hcolumn' := h'.column
    rw [hcursor, if_neg (by omega)] at hnew
    rw [hwidth] at hcolumn hcolumn'
    omega
  · intro hedge
    rw [if_pos (by omega)] at hcursor
    refine ⟨start, h.nonneg, h.column, by omega, fun i hi => ?_⟩
    rw [hcells _ (by omega), h.cells i (by omega), List.getElem?_dropLast, if_pos (by omega)]

end Screen

/-- Every key but Enter and Backspace is a character. -/
theorem isText_keyOf : ∀ scancode : BitVec 8, keyOf scancode ≠ 0 → keyOf scancode ≠ newline →
    keyOf scancode ≠ backspace → IsText (keyOf scancode) := by
  decide +kernel

section Law

variable {s : Shell} {t : Typed} {keys before : List (BitVec 8)} {c : BitVec 8} {start : Int}
  {output : Dispatch → Vga → Vga}

/-- The keys of a line: what the keyboard sends, up to Enter. -/
def LineKeys (keys : List (BitVec 8)) : Prop :=
  ∀ c ∈ keys, ∃ scancode, c = keyOf scancode ∧ c ≠ 0 ∧ c ≠ newline

/-- The shell is where its user is, and the cursor on the screen. -/
structure Shell.Edited (s : Shell) (t : Typed) : Prop where
  edits : s.Edits t
  onScreen : s.vga.OnScreen

theorem Shell.Edited.key (h : s.Edited t) (hc : c ≠ 0) (hnewline : c ≠ newline) :
    (s.handleKey output c).Edited (t.key c) := by
  refine ⟨h.edits.key hc, ?_⟩
  unfold handleKey
  rw [if_neg hnewline]
  dsimp only
  split
  · split
    · exact (vgaPutchar_onScreen (vgaPutchar_onScreen (vgaPutchar_onScreen h.onScreen _).1 _).1 _).1
    · exact h.onScreen
  · split
    · exact (vgaPutchar_onScreen h.onScreen _).1
    · exact h.onScreen

theorem Shell.Edited.run (h : s.Edited t) (hkeys : LineKeys keys) :
    (s.handleKeys output keys).Edited (t.keys keys) := by
  induction keys generalizing s t with
  | nil => exact h
  | cons c keys ih =>
    obtain ⟨-, -, hc, hnewline⟩ := hkeys c List.mem_cons_self
    exact ih (h.key hc hnewline) fun x hx => hkeys x (List.mem_cons_of_mem c hx)

/-- A backspace, with something to take back. -/
theorem Shell.Edited.backspace (output : Dispatch → Vga → Vga) (h : s.Edited t) (hne : t.current ≠ []) :
    (s.handleKey output backspace).vga = eraseLast s.vga ∧
      (t.key backspace).current = t.current.dropLast := by
  have hpos : 0 < s.bufPos := by
    rw [h.edits.bufPos]
    exact List.length_pos_iff.mpr hne
  have hnewline : AcornOS.backspace ≠ newline := by decide
  unfold handleKey Typed.key
  rw [if_neg hnewline, if_pos rfl, if_neg hnewline, if_pos rfl]
  dsimp only
  rw [if_pos hpos]
  exact ⟨rfl, rfl⟩

/-- **One key**: the line is still shown, unless this takes back a character over the left edge. -/
theorem Shell.Edited.shows (h : s.Edited t) {x : Int} (hshows : ShowsLine s.vga x start t.current)
    (hc : IsText c ∨ c = AcornOS.backspace)
    (hedge : c = AcornOS.backspace → t.current ≠ [] → (x + t.current.length) % vgaWidth ≠ 0) :
    ∃ start, ShowsLine (s.handleKey output c).vga x start (t.key c).current := by
  by_cases hback : c = AcornOS.backspace
  · subst hback
    by_cases hne : t.current = []
    · have hpos : ¬ 0 < s.bufPos := by
        rw [h.edits.bufPos, hne]
        exact Nat.lt_irrefl 0
      have hnewline : AcornOS.backspace ≠ newline := by decide
      refine ⟨start, ?_⟩
      unfold handleKey Typed.key
      rw [if_neg hnewline, if_pos rfl, if_neg hnewline, if_pos rfl]
      dsimp only
      rw [if_neg hpos, hne]
      rw [hne] at hshows
      exact hshows
    · obtain ⟨hvga, hline⟩ := Edited.backspace output h hne
      rw [hvga, hline]
      exact (hshows.erase h.onScreen hne).mpr (hedge rfl hne)
  · have htext := hc.resolve_right hback
    have hnewline : c ≠ newline := htext.1
    unfold handleKey Typed.key
    rw [if_neg hnewline, if_neg hnewline, if_neg hback, if_neg hback]
    dsimp only
    rw [h.edits.bufPos]
    split
    · rename_i hroom
      exact ⟨_, hshows.put h.onScreen htext hroom⟩
    · exact ⟨start, hshows⟩

/-- **What you see is what you typed.**  From a prompt on, after each key of a line the screen shows the line
from the end of the prompt, with the cursor behind it, EXACTLY IF no Backspace is pressed while the line
ends at the left edge of the screen, just continued on a new row. -/
theorem shell_shows_line_iff (output : Dispatch → Vga → Vga) (s : Shell) (lines : List CString)
    (hs : s.Edits ⟨lines, []⟩) (hon : s.vga.OnScreen) (keys : List (BitVec 8)) (hkeys : LineKeys keys) :
    (∀ before, before <+: keys → ∃ start, ShowsLine (s.handleKeys output before).vga s.vga.cursorX start
      (Typed.keys ⟨lines, []⟩ before).current) ↔
    ∀ before, before ++ [backspace] <+: keys → (Typed.keys ⟨lines, []⟩ before).current ≠ [] →
      (s.vga.cursorX + (Typed.keys ⟨lines, []⟩ before).current.length) % vgaWidth ≠ 0 := by
  have hedited : ∀ before, before <+: keys →
      (s.handleKeys output before).Edited (Typed.keys ⟨lines, []⟩ before) := fun before hpre =>
    Shell.Edited.run ⟨hs, hon⟩ fun c hc => hkeys c (hpre.subset hc)
  have hsnoc : ∀ before c, (s.handleKeys output (before ++ [c])).vga =
      ((s.handleKeys output before).handleKey output c).vga ∧
      Typed.keys ⟨lines, []⟩ (before ++ [c]) = (Typed.keys ⟨lines, []⟩ before).key c := by
    intro before c
    exact ⟨by rw [Shell.handleKeys, List.foldl_append]; rfl, by rw [Typed.keys, List.foldl_append]; rfl⟩
  constructor
  · intro hall before hpre hne
    have hpre' : before <+: keys := (List.prefix_append before [backspace]).trans hpre
    obtain ⟨start, hshows⟩ := hall before hpre'
    obtain ⟨hvga, hline⟩ := Shell.Edited.backspace output (hedited before hpre') hne
    refine (hshows.erase (hedited before hpre').onScreen hne).mp ?_
    rw [← hvga, ← hline, ← (hsnoc before backspace).1, ← (hsnoc before backspace).2]
    exact hall _ hpre
  · intro hedge before
    induction before using List.reverseRecOn with
    | nil =>
      refine fun _ => ⟨cellIndex s.vga.cursorX s.vga.cursorY, ?_, hon.cursorX_eq, ?_, fun i hi => ?_⟩
      · exact hon.isCell.1
      · exact (Int.add_zero _).symm
      · exact absurd hi (Nat.not_lt_zero i)
    | append_singleton before c ih =>
      intro hpre
      have hpre' : before <+: keys := (List.prefix_append before [c]).trans hpre
      obtain ⟨start, hshows⟩ := ih hpre'
      rw [(hsnoc before c).1, (hsnoc before c).2]
      refine (hedited before hpre').shows hshows ?_ fun hc => ?_
      · obtain ⟨scancode, rfl, hzero, hnewline⟩ := hkeys c (hpre.subset (by simp))
        by_cases hback : keyOf scancode = backspace
        · exact Or.inr hback
        · exact Or.inl (isText_keyOf scancode hzero hnewline hback)
      · subst hc
        exact hedge before hpre

/-- `ls`, with a slip, from the top left corner. -/
theorem shell_shows_line_iff_slip : ∃ start,
    ShowsLine ((Shell.bufferClear ⟨[], 0, false, vgaClear ⟨fun _ => 0, 0, 0, 0x0F, false⟩, []⟩).handleKeys
      (fun _ v => v) [0x6C, 0x78, 0x08]).vga 0 start [0x6C] := by
  obtain ⟨hon, -⟩ := vgaClear_onScreen (v := ⟨fun _ => 0, 0, 0, 0x0F, false⟩) rfl
  have hkeys : LineKeys [0x6C, 0x78, 0x08] := by
    intro c hc
    rcases List.mem_cons.mp hc with rfl | hc
    · exact ⟨0x26, by decide, by decide, by decide⟩
    rcases List.mem_cons.mp hc with rfl | hc
    · exact ⟨0x2D, by decide, by decide, by decide⟩
    obtain rfl := List.mem_singleton.mp hc
    exact ⟨0x0E, by decide, by decide, by decide⟩
  refine (shell_shows_line_iff (fun _ v => v)
    (Shell.bufferClear ⟨[], 0, false, vgaClear ⟨fun _ => 0, 0, 0, 0x0F, false⟩, []⟩) []
    (Shell.bufferClear_edits [] rfl) hon _ hkeys).mpr ?_ [0x6C, 0x78, 0x08] (List.prefix_refl _)
  intro before hpre hne
  have hlen : (Typed.keys ⟨[], []⟩ before).current.length ≤ 3 := by
    have hmem : before ∈ [0x6C, 0x78, (0x08 : BitVec 8)].inits :=
      (List.mem_inits _ _).mpr ((List.prefix_append before [backspace]).trans hpre)
    revert hmem
    generalize before = b
    revert b
    decide
  have hpos := List.length_pos_iff.mpr hne
  change (0 + ((Typed.keys ⟨[], []⟩ before).current.length : Int)) % 80 ≠ 0
  omega

end Law

end AcornOS
