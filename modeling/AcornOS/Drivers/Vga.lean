/-
# The text screen (`drivers/display/vga.c`)

80 by 25 cells of 16 bits: the character is the low byte, the colour attribute the high one.

* `Vga.OnScreen`: between two calls the cursor is on a cell.  Every call keeps that, so that no access is
  outside the cells (`vgaPutchar_onScreen`).
* `ShowsText`: what a byte of text does to the cells, with the row that scrolls out at the bottom.
* **`vga_text_law_iff`**: a run of output has all this EXACTLY WHEN no byte from 0x80 on is put while the
  attribute is not 0xFF.  `make_entry` widens a `char`, which is signed: the sign lands on the attribute
  (`high_byte_loses_colour`).
-/
import AcornOS.Lib.Run

namespace AcornOS

open Lib

/-! ## 1. The model -/

/-- `VGA_WIDTH` -/
def vgaWidth : Nat := 80

/-- `VGA_HEIGHT` -/
def vgaHeight : Nat := 25

/-- The driver's variables, and the memory that `vga` points to.  `outside`: an access was outside the
cells. -/
structure Vga where
  vga : Int → BitVec 16
  cursorX : Int
  cursorY : Int
  colour : BitVec 8
  outside : Bool

/-- An index into the cells. -/
def IsCell (i : Int) : Prop := 0 ≤ i ∧ i < vgaWidth * vgaHeight

instance (i : Int) : Decidable (IsCell i) := inferInstanceAs (Decidable (_ ∧ _))

/-- `make_entry`.  The cast of a `char` to `unsigned short` keeps its sign. -/
def makeEntry (c col : BitVec 8) : BitVec 16 := c.signExtend 16 ||| (col.setWidth 16 <<< 8)

/-- `y * VGA_WIDTH + x` -/
def cellIndex (x y : Int) : Int := y * vgaWidth + x

namespace Vga

/-- `vga[i] = e` -/
def store (v : Vga) (i : Int) (e : BitVec 16) : Vga :=
  { v with vga := Function.update v.vga i e, outside := v.outside || !decide (IsCell i) }

/-- `vga[i] = vga[j]` -/
def copy (v : Vga) (i j : Int) : Vga :=
  { v.store i (v.vga j) with outside := (v.store i (v.vga j)).outside || !decide (IsCell j) }

/-- A space, in the colour that is set. -/
def blank (v : Vga) : BitVec 16 := makeEntry 0x20 v.colour

end Vga

/-- `vga_set_colour` -/
def vgaSetColour (v : Vga) (fg bg : BitVec 32) : Vga :=
  { v with colour := ((bg <<< 4) ||| fg).setWidth 8 }

/-- `vga_clear` -/
def vgaClear (v : Vga) : Vga :=
  let v := loop (fun i v => v.store i v.blank) (vgaWidth * vgaHeight) v
  { v with cursorX := 0, cursorY := 0 }

/-- The loop of `scroll` over the cells of a row. -/
def moveRow (y : Nat) (v : Vga) : Vga :=
  loop (fun x v => v.copy (cellIndex x y) (cellIndex x (y + 1))) vgaWidth v

/-- `scroll` -/
def scroll (v : Vga) : Vga :=
  if v.cursorY < vgaHeight then v
  else
    let v := loop moveRow (vgaHeight - 1) v
    let v := loop (fun x v => v.store (cellIndex x (vgaHeight - 1)) v.blank) vgaWidth v
    { v with cursorY := vgaHeight - 1 }

/-- `vga_putchar` before it scrolls. -/
def putUnscrolled (v : Vga) (c : BitVec 8) : Vga :=
  if c = 0x0A then { v with cursorX := 0, cursorY := v.cursorY + 1 } -- newline
  else if c = 0x0D then { v with cursorX := 0 } -- carriage return
  else if c = 0x08 then -- backspace
    if 0 < v.cursorX then
      let v := { v with cursorX := v.cursorX - 1 }
      v.store (cellIndex v.cursorX v.cursorY) v.blank
    else v
  else
    let v := v.store (cellIndex v.cursorX v.cursorY) (makeEntry c v.colour)
    let v := { v with cursorX := v.cursorX + 1 }
    if (vgaWidth : Int) ≤ v.cursorX then { v with cursorX := 0, cursorY := v.cursorY + 1 } else v

/-- `vga_putchar` -/
def vgaPutchar (v : Vga) (c : BitVec 8) : Vga := scroll (putUnscrolled v c)

/-- `vga_print`, of a string without its 0. -/
def vgaPrint (v : Vga) (str : List (BitVec 8)) : Vga := str.foldl vgaPutchar v

/-- `vga_init` -/
def vgaInit (v : Vga) : Vga :=
  let white := 15
  let black := 0
  vgaClear (vgaSetColour v white black)

/-- `dev_display_write`, of the `size` bytes in the buffer. -/
def devDisplayWrite (v : Vga) (buffer : List (BitVec 8)) : Int × Vga :=
  ((BitVec.ofNat 32 buffer.length).toInt, buffer.foldl vgaPutchar v)

/-! ## 2. The law of the text -/

/-- A call that puts something out, or one that changes the colour. -/
inductive VgaCall where
  | putchar (c : BitVec 8)
  | setColour (fg bg : BitVec 32)
deriving Repr, DecidableEq

/-- A call. -/
def Vga.call (v : Vga) : VgaCall → Vga
  | .putchar c => vgaPutchar v c
  | .setColour fg bg => vgaSetColour v fg bg

/-- Calls, one after the other. -/
def Vga.calls (v : Vga) (cs : List VgaCall) : Vga := cs.foldl Vga.call v

/-- The attribute after some calls. -/
def colourAfter (colour : BitVec 8) (cs : List VgaCall) : BitVec 8 :=
  cs.foldl (fun colour c => match c with
    | .putchar _ => colour
    | .setColour fg bg => ((bg <<< 4) ||| fg).setWidth 8) colour

/-- Neither newline nor carriage return nor backspace. -/
def IsText (c : BitVec 8) : Prop := c ≠ 0x0A ∧ c ≠ 0x0D ∧ c ≠ 0x08

instance (c : BitVec 8) : Decidable (IsText c) := inferInstanceAs (Decidable (_ ∧ _))

/-- The cursor is on a cell, and no access has been outside. -/
structure Vga.OnScreen (v : Vga) : Prop where
  left : 0 ≤ v.cursorX
  right : v.cursorX < vgaWidth
  top : 0 ≤ v.cursorY
  bottom : v.cursorY < vgaHeight
  inside : v.outside = false

/-- By how many rows the text goes up when a byte of it is put: by one in the last cell of all. -/
def Vga.rise (v : Vga) : Int :=
  if v.cursorX = vgaWidth - 1 ∧ v.cursorY = vgaHeight - 1 then 1 else 0

/-- `ShowsText v c v'`: from `v` to `v'` the byte `c` has been put in the current colour where the cursor was,
and nothing else has happened, except that the text goes up by `v.rise`. -/
structure ShowsText (v : Vga) (c : BitVec 8) (v' : Vga) : Prop where
  lowByte : (v'.vga (cellIndex v.cursorX (v.cursorY - v.rise))).setWidth 8 = c
  highByte : (v'.vga (cellIndex v.cursorX (v.cursorY - v.rise)) >>> 8).setWidth 8 = v.colour
  others : ∀ x y : Int, 0 ≤ x → x < vgaWidth → 0 ≤ y → y < vgaHeight →
    ¬ (x = v.cursorX ∧ y = v.cursorY - v.rise) → v'.vga (cellIndex x y) =
      if y + v.rise < vgaHeight then v.vga (cellIndex x (y + v.rise)) else v.blank
  beyond : ∀ i, ¬ IsCell i → v'.vga i = v.vga i

/-- The law, for a run of calls: the cursor is on the screen after each of them, and each byte of text is
shown. -/
structure TextLaw (v : Vga) (cs : List VgaCall) : Prop where
  onScreen : ∀ before, before <+: cs → (v.calls before).OnScreen
  shows : ∀ before c, before ++ [.putchar c] <+: cs → IsText c →
    ShowsText (v.calls before) c (v.calls (before ++ [.putchar c]))

/-! ## 3. Entries, and the loops of `scroll` -/

section Cells

variable {v w : Vga} {c col : BitVec 8}

theorem setWidth_makeEntry (c col : BitVec 8) : (makeEntry c col).setWidth 8 = c := by
  ext i hi
  have hlow : i < 16 := by omega
  simp [makeEntry, BitVec.getElem_signExtend, hi, hlow]

/-- The attribute is lost in the copies of the sign. -/
theorem makeEntry_shift (c col : BitVec 8) :
    (makeEntry c col >>> 8).setWidth 8 = if c.msb then BitVec.allOnes 8 else col := by
  ext i hi
  have hhigh : 8 + i < 16 := by omega
  have hlow : i < 16 := by omega
  have hsign : (c.signExtend 16)[8 + i] = c.msb := by
    rw [BitVec.getElem_signExtend, dif_neg (by omega)]
  cases hmsb : c.msb with
  | false => simp [makeEntry, hhigh, hlow, hsign, hmsb, hi]
  | true =>
    simp only [if_pos, BitVec.getElem_allOnes]
    simp [makeEntry, hhigh, hlow, hsign, hmsb, hi]

/-- The high byte is the attribute if the sign is 0, or if all its bits are set anyway. -/
theorem makeEntry_shift_iff {c col : BitVec 8} :
    (makeEntry c col >>> 8).setWidth 8 = col ↔ c < 0x80 ∨ col = 0xFF := by
  have hsign : c.msb = false ↔ c < 0x80 := by
    rw [BitVec.msb_eq_decide, decide_eq_false_iff_not, Nat.not_le, BitVec.lt_def]
    rfl
  rw [makeEntry_shift, ← hsign, show (0xFF : BitVec 8) = BitVec.allOnes 8 from rfl]
  cases hmsb : c.msb with
  | false => simp
  | true => simp [eq_comm]

/-- What is stored inside. -/
theorem Vga.store_outside {i : Int} (hi : IsCell i) (e : BitVec 16) :
    (v.store i e).outside = v.outside := by
  rw [store, decide_eq_true hi, Bool.not_true, Bool.or_false]

theorem Vga.store_of_ne {i j : Int} (e : BitVec 16) (hne : j ≠ i) : (v.store i e).vga j = v.vga j :=
  Function.update_of_ne hne _ _

theorem isCell_iff {i : Int} : IsCell i ↔ 0 ≤ i ∧ i < 80 * 25 := Iff.rfl

theorem isCell_cellIndex {x y : Int} (hx : 0 ≤ x) (hx' : x < vgaWidth) (hy : 0 ≤ y)
    (hy' : y < vgaHeight) : IsCell (cellIndex x y) := by
  unfold IsCell cellIndex vgaWidth vgaHeight at *
  omega

/-- A cell has one row and one column. -/
theorem cellIndex_inj {x y x' y' : Int} (hx : 0 ≤ x ∧ x < vgaWidth) (hx' : 0 ≤ x' ∧ x' < vgaWidth)
    (h : cellIndex x y = cellIndex x' y') : x = x' ∧ y = y' := by
  unfold cellIndex vgaWidth at *
  omega

/-- `Cells v w lo hi g`: from `v` to `w` the cells from `lo` to `hi` have got the entries `g`, and nothing
else has changed. -/
structure Cells (v w : Vga) (lo hi : Int) (g : Int → BitVec 16) : Prop where
  vga : ∀ i, w.vga i = if lo ≤ i ∧ i < hi then g i else v.vga i
  cursorX : w.cursorX = v.cursorX
  cursorY : w.cursorY = v.cursorY
  colour : w.colour = v.colour
  outside : w.outside = v.outside

theorem Cells.refl (v : Vga) (lo : Int) (g : Int → BitVec 16) : Cells v v lo lo g where
  vga i := by rw [if_neg (by omega)]
  cursorX := rfl
  cursorY := rfl
  colour := rfl
  outside := rfl

/-- One cell more. -/
theorem Cells.store {lo hi : Int} {g : Int → BitVec 16} (h : Cells v w lo hi g) (hle : lo ≤ hi)
    (hcell : IsCell hi) : Cells v (w.store hi (g hi)) lo (hi + 1) g where
  vga i := by
    by_cases hi' : i = hi
    · subst hi'
      rw [if_pos (by omega)]
      exact Function.update_self ..
    · rw [Vga.store_of_ne _ hi', h.vga]
      by_cases hin : lo ≤ i ∧ i < hi
      · rw [if_pos hin, if_pos (by omega)]
      · rw [if_neg hin, if_neg (by omega)]
  cursorX := h.cursorX
  cursorY := h.cursorY
  colour := h.colour
  outside := (Vga.store_outside hcell _).trans h.outside

/-- A row that is moved up: the cells of row `y` get those of row `y + 1`. -/
theorem moveRow_cells {y : Nat} {g : Int → BitVec 16} (h : Cells v w 0 (vgaWidth * y) g)
    (hy : y + 1 < vgaHeight) (hg : g = fun i => v.vga (i + vgaWidth)) :
    Cells v (moveRow y w) 0 (vgaWidth * (y + 1 : Nat)) g := by
  have hrow : Cells v (moveRow y w) 0 (vgaWidth * y + vgaWidth) g := by
    refine loop_invariant (I := fun x u => Cells v u 0 (vgaWidth * y + x) g) ?_ ?_
    · rw [Nat.cast_zero, Int.add_zero]
      exact h
    intro x u hx hu
    have hindex : cellIndex x y = vgaWidth * y + x := by
      unfold cellIndex
      rw [Int.mul_comm]
    have hnext : cellIndex x (y + 1) = vgaWidth * y + x + vgaWidth := by
      unfold cellIndex vgaWidth
      omega
    have hcell : IsCell (vgaWidth * y + x) := by
      rw [← hindex]
      unfold vgaWidth at hx
      exact isCell_cellIndex (by omega) (by unfold vgaWidth; omega) (by omega) (by omega)
    have hcell' : IsCell (vgaWidth * y + x + vgaWidth) := by
      rw [← hnext]
      unfold vgaWidth at hx
      exact isCell_cellIndex (by omega) (by unfold vgaWidth; omega) (by omega) (by omega)
    -- the entry below has not been moved yet
    have hbelow : u.vga (vgaWidth * y + x + vgaWidth) = g (vgaWidth * y + x) := by
      rw [hu.vga, if_neg (by unfold vgaWidth; omega), hg]
    have hcopy : u.copy (cellIndex x y) (cellIndex x (y + 1)) =
        u.store (vgaWidth * y + x) (g (vgaWidth * y + x)) := by
      unfold Vga.copy
      rw [hindex, hnext, hbelow, decide_eq_true hcell', Bool.not_true, Bool.or_false]
    rw [hcopy, Nat.cast_succ, ← Int.add_assoc]
    exact hu.store (by unfold vgaWidth; omega) hcell
  rw [Nat.cast_succ, Int.mul_add, Int.mul_one]
  exact hrow

/-- `Scrolled v w`: the rows have gone up by one, and the last one is blank. -/
structure Scrolled (v w : Vga) : Prop where
  vga : ∀ i, w.vga i = if 0 ≤ i ∧ i < vgaWidth * (vgaHeight - 1) then v.vga (i + vgaWidth)
    else if IsCell i then v.blank else v.vga i
  cursorX : w.cursorX = v.cursorX
  cursorY : w.cursorY = vgaHeight - 1
  colour : w.colour = v.colour
  outside : w.outside = v.outside

/-- The loop that moves the rows. -/
theorem moveRows_cells (v : Vga) : Cells v (loop moveRow (vgaHeight - 1) v) 0
    (vgaWidth * (vgaHeight - 1)) fun i => v.vga (i + vgaWidth) := by
  have hrows : Cells v (loop moveRow (vgaHeight - 1) v) 0 (vgaWidth * (vgaHeight - 1 : Nat))
      fun i => v.vga (i + vgaWidth) := by
    refine loop_invariant (I := fun y u => Cells v u 0 (vgaWidth * y) fun i => v.vga (i + vgaWidth))
      (Cells.refl v 0 _) ?_
    intro y u hy hu
    exact moveRow_cells hu (by omega) rfl
  exact hrows

/-- The loop that blanks the last row. -/
theorem blankRow_cells (v : Vga) :
    Cells v (loop (fun x v => v.store (cellIndex x (vgaHeight - 1)) v.blank) vgaWidth v)
      (vgaWidth * (vgaHeight - 1)) (vgaWidth * vgaHeight) fun _ => v.blank := by
  have hrow : Cells v (loop (fun x v => v.store (cellIndex x (vgaHeight - 1)) v.blank) vgaWidth v)
      (vgaWidth * (vgaHeight - 1)) (vgaWidth * (vgaHeight - 1) + vgaWidth) fun _ => v.blank := by
    refine loop_invariant (I := fun x u => Cells v u (vgaWidth * (vgaHeight - 1))
      (vgaWidth * (vgaHeight - 1) + x) fun _ => v.blank) ?_ ?_
    · rw [Nat.cast_zero, Int.add_zero]
      exact Cells.refl v _ _
    intro x u hx hu
    have hindex : cellIndex x (vgaHeight - 1) = vgaWidth * (vgaHeight - 1) + x := by
      unfold cellIndex
      rw [Int.mul_comm]
    have hblank : u.blank = v.blank := by
      unfold Vga.blank
      rw [hu.colour]
    rw [hindex, hblank, Nat.cast_succ, ← Int.add_assoc]
    refine hu.store (by omega) ?_
    unfold IsCell vgaWidth vgaHeight at *
    omega
  exact hrow

/-- **`scroll`** below the last row. -/
theorem scroll_scrolled (h : (vgaHeight : Int) ≤ v.cursorY) : Scrolled v (scroll v) := by
  have hmoved := moveRows_cells v
  have hblanked := blankRow_cells (loop moveRow (vgaHeight - 1) v)
  unfold scroll
  rw [if_neg (Int.not_lt.mpr h)]
  dsimp only
  generalize loop moveRow (vgaHeight - 1) v = u at *
  generalize loop (fun x v => v.store (cellIndex x (vgaHeight - 1)) v.blank) vgaWidth u = w at *
  have hblank : u.blank = v.blank := by
    unfold Vga.blank
    rw [hmoved.colour]
  refine ⟨fun i => ?_, hblanked.cursorX.trans hmoved.cursorX, rfl, hblanked.colour.trans hmoved.colour,
    hblanked.outside.trans hmoved.outside⟩
  have hcell := @isCell_iff i
  unfold vgaWidth vgaHeight at *
  rw [hblanked.vga, hmoved.vga, hblank]
  by_cases hupper : 0 ≤ i ∧ i < 80 * (25 - 1)
  · rw [if_neg (by omega), if_pos (by omega), if_pos (by omega)]
  · by_cases hlast : 80 * (25 - 1) ≤ i ∧ i < 80 * 25
    · rw [if_pos (by omega), if_neg (by omega), if_pos (hcell.mpr (by omega))]
    · rw [if_neg (by omega), if_neg (by omega), if_neg (by omega), if_neg (mt hcell.mp (by omega))]

theorem scroll_of_lt (h : v.cursorY < vgaHeight) : scroll v = v := if_pos h

/-! ## 4. `vga_putchar` -/

/-- What one call leaves for `scroll`: the cursor may be below the last row. -/
structure Vga.Unscrolled (v u : Vga) : Prop where
  left : 0 ≤ u.cursorX
  right : u.cursorX < vgaWidth
  top : 0 ≤ u.cursorY
  bottom : u.cursorY ≤ vgaHeight
  inside : u.outside = false
  colour : u.colour = v.colour

theorem Vga.OnScreen.isCell (h : v.OnScreen) : IsCell (cellIndex v.cursorX v.cursorY) :=
  isCell_cellIndex h.left h.right h.top h.bottom

/-- **One byte**, by the kinds of byte. -/
theorem putUnscrolled_spec (h : v.OnScreen) (c : BitVec 8) : v.Unscrolled (putUnscrolled v c) := by
  obtain ⟨hleft, hright, htop, hbottom, hinside⟩ := h
  unfold putUnscrolled
  split
  · refine ⟨le_rfl, Int.natCast_pos.mpr (by decide), ?_, ?_, hinside, rfl⟩
    · change 0 ≤ v.cursorY + 1
      omega
    · change v.cursorY + 1 ≤ vgaHeight
      omega
  split
  · exact ⟨le_rfl, Int.natCast_pos.mpr (by decide), htop, hbottom.le, hinside, rfl⟩
  split
  · -- backspace, at the start of a line and elsewhere
    split
    · have hcell : IsCell (cellIndex (v.cursorX - 1) v.cursorY) :=
        isCell_cellIndex (by omega) (by omega) htop hbottom
      refine ⟨?_, ?_, htop, hbottom.le, (Vga.store_outside hcell _).trans hinside, rfl⟩
      · change 0 ≤ v.cursorX - 1
        omega
      · change v.cursorX - 1 < vgaWidth
        omega
    · exact ⟨hleft, hright, htop, hbottom.le, hinside, rfl⟩
  · have hcell : IsCell (cellIndex v.cursorX v.cursorY) := isCell_cellIndex hleft hright htop hbottom
    have hstored := (Vga.store_outside hcell (makeEntry c v.colour)).trans hinside
    dsimp only
    split
    · refine ⟨le_rfl, Int.natCast_pos.mpr (by decide), ?_, ?_, hstored, rfl⟩
      · change 0 ≤ v.cursorY + 1
        omega
      · change v.cursorY + 1 ≤ vgaHeight
        omega
    · rename_i hmore
      refine ⟨?_, Int.not_le.mp hmore, htop, hbottom.le, hstored, rfl⟩
      change 0 ≤ v.cursorX + 1
      omega

/-- **Every call keeps the cursor on the screen**, and the attribute. -/
theorem vgaPutchar_onScreen (h : v.OnScreen) (c : BitVec 8) :
    (vgaPutchar v c).OnScreen ∧ (vgaPutchar v c).colour = v.colour := by
  have hput := putUnscrolled_spec h c
  unfold vgaPutchar
  by_cases hlast : (putUnscrolled v c).cursorY < vgaHeight
  · rw [scroll_of_lt hlast]
    exact ⟨⟨hput.left, hput.right, hput.top, hlast, hput.inside⟩, hput.colour⟩
  · have hscroll := scroll_scrolled (Int.not_lt.mp hlast)
    refine ⟨⟨?_, ?_, ?_, ?_, hscroll.outside.trans hput.inside⟩, hscroll.colour.trans hput.colour⟩
    · exact hscroll.cursorX ▸ hput.left
    · exact hscroll.cursorX ▸ hput.right
    · rw [hscroll.cursorY]
      decide
    · rw [hscroll.cursorY]
      decide

/-- A byte of text before it scrolls. -/
theorem putUnscrolled_text (h : v.OnScreen) (hc : IsText c) :
    (putUnscrolled v c).vga =
      Function.update v.vga (cellIndex v.cursorX v.cursorY) (makeEntry c v.colour) ∧
    (putUnscrolled v c).cursorY = if v.cursorX = vgaWidth - 1 then v.cursorY + 1 else v.cursorY := by
  have hright := h.right
  obtain ⟨hnewline, hreturn, hback⟩ := hc
  unfold putUnscrolled
  rw [if_neg hnewline, if_neg hreturn, if_neg hback]
  dsimp only
  split
  · rename_i hlast
    have hlast : (vgaWidth : Int) ≤ v.cursorX + 1 := hlast
    exact ⟨rfl, (if_pos (by omega)).symm⟩
  · rename_i hmore
    have hmore : ¬ (vgaWidth : Int) ≤ v.cursorX + 1 := hmore
    exact ⟨rfl, (if_neg (by omega)).symm⟩

/-- The cells after a byte of text. -/
theorem vgaPutchar_text (h : v.OnScreen) (hc : IsText c) (i : Int) : (vgaPutchar v c).vga i =
    if v.rise = 1 ∧ vgaWidth * (vgaHeight - 1) ≤ i ∧ i < vgaWidth * vgaHeight then v.blank
    else if IsCell i ∧ i + vgaWidth * v.rise = cellIndex v.cursorX v.cursorY then makeEntry c v.colour
    else if IsCell i then v.vga (i + vgaWidth * v.rise) else v.vga i := by
  have hcell := h.isCell
  have hbottom := h.bottom
  have hput := putUnscrolled_spec h c
  obtain ⟨hvga, hrow⟩ := putUnscrolled_text h hc
  have hblank : (putUnscrolled v c).blank = v.blank := by
    unfold Vga.blank
    rw [hput.colour]
  unfold vgaPutchar
  by_cases hend : v.cursorX = vgaWidth - 1 ∧ v.cursorY = vgaHeight - 1
  · have hrise : v.rise = 1 := if_pos hend
    have hscroll := scroll_scrolled (v := putUnscrolled v c) (by rw [hrow, if_pos hend.1, hend.2]; omega)
    have hi := @isCell_iff i
    rw [hscroll.vga, hvga, hblank, hrise]
    unfold vgaWidth vgaHeight
    by_cases hlast : 80 * (25 - 1) ≤ i ∧ i < 80 * 25
    · rw [if_neg (by omega), if_pos (hi.mpr (by omega)), if_pos (by omega)]
    · rw [@if_neg (1 = 1 ∧ _) _ (by omega)]
      by_cases hupper : 0 ≤ i ∧ i < 80 * (25 - 1)
      · have hin : IsCell i := hi.mpr (by omega)
        rw [if_pos (by omega), Function.update_apply]
        by_cases hhere : i + 80 * 1 = cellIndex v.cursorX v.cursorY
        · rw [if_pos (by omega), if_pos ⟨hin, hhere⟩]
        · rw [if_neg (by omega), if_neg fun h => hhere h.2, if_pos hin]
          rfl
      · have hout : ¬ IsCell i := mt hi.mp (by omega)
        rw [if_neg (by omega), if_neg hout, if_neg fun h => hout h.1, if_neg hout,
          Function.update_of_ne]
        rintro rfl
        exact hout hcell
  · have hrise : v.rise = 0 := if_neg hend
    have hstays : (putUnscrolled v c).cursorY < vgaHeight := by
      rw [hrow]
      split <;> omega
    rw [scroll_of_lt hstays, hvga, hrise, if_neg (by omega), Int.mul_zero, Int.add_zero,
      Function.update_apply]
    by_cases hhere : i = cellIndex v.cursorX v.cursorY
    · rw [if_pos hhere, if_pos ⟨hhere ▸ hcell, hhere⟩]
    · rw [if_neg hhere, if_neg (fun hin => hhere hin.2), ite_self]

theorem cellIndex_rise (x y : Int) : cellIndex x y + vgaWidth * v.rise = cellIndex x (y + v.rise) := by
  unfold cellIndex vgaWidth
  omega

theorem rise_cases : v.rise = 0 ∨ v.rise = 1 ∧ v.cursorY = vgaHeight - 1 := by
  unfold Vga.rise
  split
  · rename_i hend
    exact .inr ⟨rfl, hend.2⟩
  · exact .inl rfl

/-- A cell of the last row is blank if there is no row to come up. -/
theorem blanked_iff {x y : Int} (hx : 0 ≤ x) (hx' : x < vgaWidth) (hy' : y < vgaHeight) :
    v.rise = 1 ∧ vgaWidth * (vgaHeight - 1) ≤ cellIndex x y ∧ cellIndex x y < vgaWidth * vgaHeight ↔
      ¬ y + v.rise < vgaHeight := by
  have hrise := @rise_cases v
  unfold cellIndex vgaWidth vgaHeight at *
  omega

/-- The byte is in the cell of the cursor, which may have come up. -/
theorem vgaPutchar_here (h : v.OnScreen) (hc : IsText c) :
    (vgaPutchar v c).vga (cellIndex v.cursorX (v.cursorY - v.rise)) = makeEntry c v.colour := by
  have hrise := @rise_cases v
  have htop := h.top
  have hbottom := h.bottom
  have hin : IsCell (cellIndex v.cursorX (v.cursorY - v.rise)) := by
    refine isCell_cellIndex h.left h.right ?_ (by omega)
    unfold vgaHeight at hrise
    omega
  rw [vgaPutchar_text h hc, cellIndex_rise, Int.sub_add_cancel, if_neg, if_pos ⟨hin, rfl⟩]
  rw [blanked_iff h.left h.right (by omega), Int.sub_add_cancel]
  exact not_not_intro hbottom

/-- **A byte of text is shown** exactly if its sign does not spoil the attribute. -/
theorem shows_iff (h : v.OnScreen) (hc : IsText c) :
    ShowsText v c (vgaPutchar v c) ↔ c < 0x80 ∨ v.colour = 0xFF := by
  have hcells := vgaPutchar_text h hc
  have hentry := vgaPutchar_here h hc
  constructor
  · intro hshows
    have hhigh := hshows.highByte
    rw [hentry] at hhigh
    exact makeEntry_shift_iff.mp hhigh
  · intro hascii
    refine ⟨?_, ?_, fun x y hx hx' hy hy' hne => ?_, fun i hi => ?_⟩
    · rw [hentry]
      exact setWidth_makeEntry c v.colour
    · rw [hentry]
      exact makeEntry_shift_iff.mpr hascii
    · have hin := isCell_cellIndex hx hx' hy hy'
      have hother : ¬ cellIndex x (y + v.rise) = cellIndex v.cursorX v.cursorY := by
        intro heq
        obtain ⟨hcol, hrow⟩ := cellIndex_inj ⟨hx, hx'⟩ ⟨h.left, h.right⟩ heq
        exact hne ⟨hcol, by omega⟩
      rw [hcells, cellIndex_rise]
      by_cases hrow : y + v.rise < vgaHeight
      · rw [if_neg (fun hblank => (blanked_iff hx hx' hy').mp hblank hrow),
          if_neg (fun hhere => hother hhere.2), if_pos hin, if_pos hrow]
      · rw [if_pos ((blanked_iff hx hx' hy').mpr hrow), if_neg hrow]
    · rw [hcells, if_neg, if_neg fun hin => hi hin.1, if_neg hi]
      rintro ⟨-, hlo, hhi⟩
      refine hi ⟨le_trans ?_ hlo, hhi⟩
      unfold vgaWidth vgaHeight
      decide

/-! ## 5. Runs -/

/-- The cleared screen. -/
theorem vgaClear_onScreen (hinside : v.outside = false) :
    (vgaClear v).OnScreen ∧ (vgaClear v).colour = v.colour := by
  have hcleared : Cells v (loop (fun i v => v.store i v.blank) (vgaWidth * vgaHeight) v) 0
      (vgaWidth * vgaHeight : Nat) fun _ => v.blank := by
    refine loop_invariant (I := fun i u => Cells v u 0 i fun _ => v.blank) (Cells.refl v 0 _) ?_
    intro i u hi hu
    have hblank : u.blank = v.blank := by
      unfold Vga.blank
      rw [hu.colour]
    rw [hblank, Nat.cast_succ]
    refine hu.store (Int.natCast_nonneg i) (isCell_iff.mpr ?_)
    unfold vgaWidth vgaHeight at hi
    omega
  unfold vgaClear
  generalize loop (fun i v => v.store i v.blank) (vgaWidth * vgaHeight) v = w at *
  exact ⟨⟨le_rfl, Int.natCast_pos.mpr (by decide), le_rfl, Int.natCast_pos.mpr (by decide),
    hcleared.outside.trans hinside⟩, hcleared.colour⟩

theorem Vga.calls_concat (v : Vga) (cs : List VgaCall) (c : VgaCall) :
    v.calls (cs ++ [c]) = (v.calls cs).call c := by
  rw [calls, calls, List.foldl_append]
  rfl

/-- **A run keeps the cursor on the screen**, and the attribute is the one set last. -/
theorem Vga.OnScreen.calls (cs : List VgaCall) : ∀ {v : Vga}, v.OnScreen →
    (v.calls cs).OnScreen ∧ (v.calls cs).colour = colourAfter v.colour cs := by
  induction cs with
  | nil => exact fun h => ⟨h, rfl⟩
  | cons c cs ih =>
    intro v h
    cases c with
    | putchar c =>
      obtain ⟨hput, hcolour⟩ := vgaPutchar_onScreen h c
      obtain ⟨hon, hlast⟩ := ih hput
      exact ⟨hon, hlast.trans (by rw [hcolour]; rfl)⟩
    | setColour fg bg => exact ih (v := vgaSetColour v fg bg) ⟨h.left, h.right, h.top, h.bottom, h.inside⟩

/-- **The law of the text.**  From the cleared screen a run keeps the cursor and every access inside the
cells.  It shows each byte of its text, and does nothing else to the cells, EXACTLY WHEN each is below 0x80
or is put while the attribute is 0xFF. -/
theorem vga_text_law_iff (vga : Int → BitVec 16) (x y : Int) (colour : BitVec 8) (cs : List VgaCall) :
    (∀ before, before <+: cs → ((vgaClear ⟨vga, x, y, colour, false⟩).calls before).OnScreen) ∧
    (TextLaw (vgaClear ⟨vga, x, y, colour, false⟩) cs ↔
      ∀ before c, before ++ [.putchar c] <+: cs → IsText c →
        c < 0x80 ∨ colourAfter colour before = 0xFF) := by
  obtain ⟨hstart, hcolour⟩ := vgaClear_onScreen (v := ⟨vga, x, y, colour, false⟩) rfl
  generalize vgaClear ⟨vga, x, y, colour, false⟩ = v at *
  have hshows : ∀ before c, IsText c → (ShowsText (v.calls before) c (v.calls (before ++ [.putchar c])) ↔
      c < 0x80 ∨ colourAfter colour before = 0xFF) := by
    intro before c hc
    obtain ⟨hon, hlast⟩ := hstart.calls before
    have hnow : (v.calls before).colour = colourAfter colour before := hlast.trans (by rw [hcolour])
    rw [Vga.calls_concat, ← hnow]
    exact shows_iff hon hc
  have hon : ∀ before, before <+: cs → (v.calls before).OnScreen := fun before _ =>
    (hstart.calls before).1
  refine ⟨hon, fun h before c hpre hc => ?_, fun h => ⟨hon, fun before c hpre hc => ?_⟩⟩
  · exact (hshows before c hc).mp (h.shows before c hpre hc)
  · exact (hshows before c hc).mpr (h before c hpre hc)

/-- The letter with the code 0xE9, white on black: its entry is 0xFFE9, white on white. -/
theorem high_byte_loses_colour : ¬ TextLaw (vgaInit ⟨fun _ => 0, 0, 0, 0, false⟩) [.putchar 0xE9] ∧
    (vgaInit ⟨fun _ => 0, 0, 0, 0, false⟩).colour = 0x0F ∧
    (vgaPutchar (vgaInit ⟨fun _ => 0, 0, 0, 0, false⟩) 0xE9).vga 0 = 0xFFE9 := by
  obtain ⟨hon, hcolour⟩ := vgaClear_onScreen (v := ⟨fun _ => 0, 0, 0, 0x0F, false⟩) rfl
  have hc : IsText 0xE9 := by decide
  refine ⟨fun h => ?_, hcolour, ?_⟩
  · have hascii := (shows_iff hon hc).mp (h.shows [] 0xE9 (List.prefix_refl _) hc)
    rw [hcolour] at hascii
    exact absurd hascii (by decide)
  · exact (vgaPutchar_text hon hc 0).trans (by decide +kernel)

end Cells

/-- What is written to the device is a run of `vga_putchar`. -/
theorem devDisplayWrite_eq (v : Vga) (buffer : List (BitVec 8)) :
    (devDisplayWrite v buffer).2 = v.calls (buffer.map .putchar) := by
  rw [devDisplayWrite, Vga.calls, List.foldl_map]
  rfl

theorem vgaPrint_eq (v : Vga) (str : List (BitVec 8)) : vgaPrint v str = v.calls (str.map .putchar) := by
  rw [vgaPrint, Vga.calls, List.foldl_map]
  rfl

theorem vgaPrint_append (v : Vga) (s t : List (BitVec 8)) : vgaPrint v (s ++ t) = vgaPrint (vgaPrint v s) t :=
  List.foldl_append

end AcornOS
