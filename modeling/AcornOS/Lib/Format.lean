/-
# Format strings

What a format string of the `printf` family SAYS, whatever the formatter that reads it.

* A format is read as a list of pieces (`parseFormat`): characters, and directives, each a percent sign,
  perhaps an `l`, and a character.  A format may end before the character of a directive is there; it is
  then not complete.
* The arguments are what `va_arg` returns, one word after the other.
* **`render`** is the output, given what each directive expands to.  A formatter is right if it prints
  that, up to whatever room it has.
-/
import Mathlib

namespace AcornOS.Lib

/-! ## 1. Pieces -/

/-- The percent sign. -/
def percentSign : BitVec 8 := 0x25

/-- The letter `l`. -/
def longSign : BitVec 8 := 0x6C

/-- A character that stands for itself, or a directive. -/
inductive Piece where
  | lit (c : BitVec 8)
  | conv (isLong : Bool) (spec : BitVec 8)
deriving Repr, DecidableEq

/-- The pieces of a format, up to a directive that ends before its character, and whether there is none. -/
def parseFormat : List (BitVec 8) → List Piece × Bool
  | [] => ([], true)
  | c :: rest =>
    if c ≠ percentSign then (parseFormat rest).map (.lit c :: ·) id
    else
      match rest with
      | [] => ([], false)
      | m :: rest =>
        if m = longSign then
          match rest with
          | [] => ([], false)
          | spec :: rest => (parseFormat rest).map (.conv true spec :: ·) id
        else (parseFormat rest).map (.conv false m :: ·) id

/-- The pieces of a format. -/
def formatPieces (fmt : List (BitVec 8)) : List Piece := (parseFormat fmt).1

/-- Each percent sign, and each percent sign with an `l`, is followed by a character. -/
def FormatComplete (fmt : List (BitVec 8)) : Prop := (parseFormat fmt).2 = true

instance (fmt : List (BitVec 8)) : Decidable (FormatComplete fmt) :=
  inferInstanceAs (Decidable ((parseFormat fmt).2 = true))

/-- What stands between the percent sign and the character of a directive. -/
def modifier (isLong : Bool) : List (BitVec 8) := if isLong then [longSign] else []

/-- How a format can begin: with a character, with a directive, or with a directive that ends too soon.
A formatter's loop is one case for each. -/
theorem format_induction {P : List (BitVec 8) → Prop} (nil : P [])
    (lit : ∀ c rest, c ≠ percentSign → P rest → P (c :: rest))
    (conv : ∀ isLong spec rest, (isLong = false → spec ≠ longSign) → P rest →
      P (percentSign :: (modifier isLong ++ spec :: rest)))
    (dangling : ∀ isLong, P (percentSign :: modifier isLong)) : ∀ fmt, P fmt
  | [] => nil
  | c :: rest => by
    by_cases hc : c = percentSign
    · subst hc
      match rest with
      | [] => exact dangling false
      | m :: rest =>
        by_cases hm : m = longSign
        · subst hm
          match rest with
          | [] => exact dangling true
          | spec :: rest =>
            exact conv true spec rest nofun (format_induction nil lit conv dangling rest)
        · exact conv false m rest (fun _ => hm) (format_induction nil lit conv dangling rest)
    · exact lit c rest hc (format_induction nil lit conv dangling rest)

section Parse

variable {c spec : BitVec 8} {rest : List (BitVec 8)} {isLong : Bool}

theorem parseFormat_lit (hc : c ≠ percentSign) :
    parseFormat (c :: rest) = (parseFormat rest).map (.lit c :: ·) id := by
  rw [parseFormat.eq_def]
  exact if_pos hc

theorem parseFormat_conv (hspec : isLong = false → spec ≠ longSign) :
    parseFormat (percentSign :: (modifier isLong ++ spec :: rest)) =
      (parseFormat rest).map (.conv isLong spec :: ·) id := by
  cases isLong with
  | false =>
    change parseFormat (percentSign :: spec :: rest) = _
    rw [parseFormat.eq_def]
    exact if_neg (hspec rfl)
  | true => rfl

theorem parseFormat_dangling (isLong : Bool) :
    parseFormat (percentSign :: modifier isLong) = ([], false) := by
  cases isLong <;> rfl

theorem formatPieces_lit (hc : c ≠ percentSign) :
    formatPieces (c :: rest) = .lit c :: formatPieces rest := by
  rw [formatPieces, parseFormat_lit hc]
  rfl

theorem formatPieces_conv (hspec : isLong = false → spec ≠ longSign) :
    formatPieces (percentSign :: (modifier isLong ++ spec :: rest)) =
      .conv isLong spec :: formatPieces rest := by
  rw [formatPieces, parseFormat_conv hspec]
  rfl

theorem formatComplete_lit (hc : c ≠ percentSign) :
    FormatComplete (c :: rest) ↔ FormatComplete rest := by
  rw [FormatComplete, parseFormat_lit hc]
  rfl

theorem formatComplete_conv (hspec : isLong = false → spec ≠ longSign) :
    FormatComplete (percentSign :: (modifier isLong ++ spec :: rest)) ↔ FormatComplete rest := by
  rw [FormatComplete, parseFormat_conv hspec]
  rfl

theorem not_formatComplete_dangling (isLong : Bool) :
    ¬ FormatComplete (percentSign :: modifier isLong) := by
  rw [FormatComplete, parseFormat_dangling]
  exact Bool.false_ne_true

end Parse

/-! ## 2. Arguments and output -/

/-- What `va_arg` returns: a word, and what lies at it, taken as an address, up to the first 0. -/
structure VaSlot where
  word : BitVec 64
  text : List (BitVec 8)
deriving Repr, DecidableEq

/-- The `int` that is passed. -/
def VaSlot.int (v : VaSlot) : BitVec 32 := v.word.setWidth 32

/-- The `char` that is passed, promoted to `int`. -/
def VaSlot.char (v : VaSlot) : BitVec 8 := v.word.setWidth 8

/-- What `va_arg` returns, call after call. -/
abbrev VaList := Nat → VaSlot

/-- A call of `va_arg`. -/
def vaArg (args : VaList) : VaSlot × VaList := (args 0, fun i => args (i + 1))

section Render

variable (takes : BitVec 8 → Bool) (expand : Bool → BitVec 8 → VaSlot → List (BitVec 8))

/-- The arguments after a directive. -/
def afterDirective (spec : BitVec 8) (args : VaList) : VaList :=
  if takes spec then (vaArg args).2 else args

/-- **The output**, given which directives take an argument and what each expands to. -/
def render : List Piece → VaList → List (BitVec 8)
  | [], _ => []
  | .lit c :: ps, args => c :: render ps args
  | .conv isLong spec :: ps, args =>
    expand isLong spec (args 0) ++ render ps (afterDirective takes spec args)

end Render

end AcornOS.Lib
