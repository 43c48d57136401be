/-
# The formatter of the C library (`vprintf`)

`vprintf` formats into a buffer of 1024 bytes on its stack and hands what is there to `write()`.

* The loop stops once 992 bytes are there.  No directive but `%s` needs more than the 32 that are left,
  and `%s` has a limit of its own, so no store is outside the buffer: **`vprintf_prefix`**.
* What is printed is a PREFIX of the complete output; if 992 bytes are not reached it is all of it.
* Neither formatter looks for the end of the format inside a directive, so both read past a format that
  ends in one: **`formats_overread_iff`**, with the one case in which `vprintf` has stopped before it
  gets there.
-/
import AcornOS.Core.Kprintf

namespace AcornOS

open Lib

/-! ## 1. Numbers -/

/-- `"0123456789abcdef"` -/
def lowerDigits : CString :=
  [0x30, 0x31, 0x32, 0x33, 0x34, 0x35, 0x36, 0x37, 0x38, 0x39, 0x61, 0x62, 0x63, 0x64, 0x65, 0x66]

/-- `digits[d]` -/
def lowerDigit (d : Nat) : BitVec 8 := lowerDigits.getD d 0

/-- `format_uint`, with 32 characters in `tmp`. -/
def formatUint (value : BitVec 64) (base : Nat) : Printed :=
  let tmp := (if value = 0 then [0x30] else []) ++ digitLoop lowerDigit base 64 value.toNat
  ⟨tmp.reverse, 32 < tmp.length⟩

/-- `format_int` -/
def formatInt (value : BitVec 64) (base : Nat) : Printed :=
  if value.slt 0 then
    let p := formatUint (-value) base
    ⟨0x2D :: p.chars, p.overrun⟩
  else formatUint value base

/-! ## 2. `vprintf` -/

/-- `sizeof(buf)` -/
def printfBufSize : Nat := 1024

/-- The buffer, the position in it, and whether a store was outside a buffer. -/
structure PrintfBuf where
  buf : List (BitVec 8)
  pos : Nat
  overrun : Bool
deriving Repr, DecidableEq

/-- `buf[pos++] = c` -/
def PrintfBuf.store (b : PrintfBuf) (c : BitVec 8) : PrintfBuf :=
  if b.pos < b.buf.length then { b with buf := b.buf.set b.pos c, pos := b.pos + 1 }
  else { b with pos := b.pos + 1, overrun := true }

/-- A number is printed at the position. -/
def PrintfBuf.putn (b : PrintfBuf) (p : Printed) : PrintfBuf :=
  let b := p.chars.foldl PrintfBuf.store b
  { b with overrun := b.overrun || p.overrun }

/-- The loop of `%s`. -/
def PrintfBuf.putStr : CString → PrintfBuf → PrintfBuf
  | [], b => b
  | c :: str, b => if b.pos < printfBufSize - 1 then putStr str (b.store c) else b

/-- The `switch` on the character of a directive. -/
def vprintfDirective (isLong : Bool) (spec : BitVec 8) (args : VaList) (b : PrintfBuf) :
    VaList × PrintfBuf :=
  if spec = 0x64 then -- d
    let (v, args) := vaArg args
    (args, b.putn (formatInt (if isLong then v.word else v.int.signExtend 64) 10))
  else if spec = 0x75 then -- u
    let (v, args) := vaArg args
    (args, b.putn (formatUint (if isLong then v.word else v.int.setWidth 64) 10))
  else if spec = 0x78 then -- x
    let (v, args) := vaArg args
    (args, b.putn (formatUint (if isLong then v.word else v.int.setWidth 64) 16))
  else if spec = 0x63 then -- c
    let (v, args) := vaArg args
    (args, b.store v.char)
  else if spec = 0x73 then -- s
    let (v, args) := vaArg args
    (args, b.putStr v.text)
  else if spec = 0x25 then (args, b.store 0x25) -- percent
  else (args, (b.store 0x25).store spec)

/-- The loop.  `none`: a character of the format is read that lies beyond its 0. -/
def vprintfLoop : (fmt : CString) → VaList → PrintfBuf → Option PrintfBuf
  | [], _, b => some b
  | c :: rest, args, b =>
    if b.pos < printfBufSize - 32 then
      if c ≠ percentSign then vprintfLoop rest args (b.store c)
      else
        match rest with
        -- The 0 is taken for the character of the directive; the next character is looked at.
        | [] => none
        | m :: rest =>
          if m = longSign then
            match rest with
            | [] => none
            | spec :: rest =>
              let (args, b) := vprintfDirective true spec args b
              vprintfLoop rest args b
          else
            let (args, b) := vprintfDirective false m args b
            vprintfLoop rest args b
    else some b

/-- `vprintf`, with what lies on the stack where its buffer is: the bytes passed to `write()`, and what
is left. -/
def vprintf (stack : List (BitVec 8)) (fmt : CString) (args : VaList) :
    Option (List (BitVec 8) × PrintfBuf) :=
  (vprintfLoop fmt args ⟨stack, 0, false⟩).map fun b => (b.buf.take b.pos, b)

/-- What a directive stands for in the C library. -/
def libcExpand (isLong : Bool) (spec : BitVec 8) (v : VaSlot) : CString :=
  if spec = 0x64 then decimal (if isLong then v.word.toInt else v.int.toInt)
  else if spec = 0x75 then numeral lowerDigit 10 (if isLong then v.word.toNat else v.int.toNat)
  else if spec = 0x78 then numeral lowerDigit 16 (if isLong then v.word.toNat else v.int.toNat)
  else if spec = 0x63 then [v.char]
  else if spec = 0x73 then v.text
  else if spec = 0x25 then [0x25]
  else [0x25, spec]

/-- The complete output of a format in the C library. -/
def libcOutput (fmt : CString) (args : VaList) : CString :=
  render takesArg libcExpand (formatPieces fmt) args

example : libcOutput [0x25, 0x6C, 0x78, 0x25, 0x25] (fun _ => ⟨0xBEEF, []⟩) =
    [0x62, 0x65, 0x65, 0x66, 0x25] := by decide +kernel

/-! ## 3. The printers of numbers -/

section Numbers

variable {base : Nat}

theorem length_unsigned_le (value : BitVec 64) (hbase : 1 < base) (hroom : 2 ^ 64 ≤ base ^ 32) :
    (numeral lowerDigit base value.toNat).length ≤ 32 :=
  length_numeral_le lowerDigit hbase (by decide) (value.isLt.trans_le hroom)

theorem formatUint_eq (value : BitVec 64) (hbase : 1 < base) (hroom : 2 ^ 64 ≤ base ^ 32) :
    formatUint value base = ⟨numeral lowerDigit base value.toNat, false⟩ := by
  have hfuel : value.toNat < base ^ 64 :=
    value.isLt.trans_le (hroom.trans (Nat.pow_le_pow_right (by omega) (by decide)))
  have htmp : (if value = 0 then [0x30] else []) ++ digitLoop lowerDigit base 64 value.toNat =
      (numeral lowerDigit base value.toNat).reverse := by
    rw [digitLoop_eq lowerDigit hbase hfuel]
    split
    · rename_i hzero
      rw [hzero, show (0 : BitVec 64).toNat = 0 from rfl, Nat.digits_zero]
      rfl
    · rename_i hpos
      have hne : value.toNat ≠ 0 := fun h => hpos (BitVec.eq_of_toNat_eq h)
      rw [numeral_of_pos _ (Nat.pos_of_ne_zero hne), List.reverse_reverse, List.nil_append]
  have hlen := length_unsigned_le value hbase hroom
  simp only [formatUint, htmp, List.reverse_reverse, List.length_reverse,
    decide_eq_false (Nat.not_lt.mpr hlen)]

theorem lowerDigit_eq : ∀ d < 10, lowerDigit d = decDigit d := by decide

theorem formatInt_eq (value : BitVec 64) : formatInt value 10 = ⟨decimal value.toInt, false⟩ := by
  unfold formatInt decimal
  split
  · rename_i hneg
    rw [if_pos (slt_zero_iff.mp hneg), formatUint_eq _ (by decide) (by decide), toNat_neg_of_slt hneg,
      numeral_congr lowerDigit (by decide) lowerDigit_eq]
  · rename_i hpos
    rw [if_neg (fun h => hpos (slt_zero_iff.mpr h)), formatUint_eq _ (by decide) (by decide),
      toNat_of_not_slt hpos, numeral_congr lowerDigit (by decide) lowerDigit_eq]

end Numbers

/-! ## 4. What has been written -/

/-- The characters `out` are in the buffer, and all is as it should be. -/
structure Written (out : CString) (b : PrintfBuf) : Prop where
  pos : b.pos = out.length
  length : b.buf.length = printfBufSize
  buf : b.buf.take out.length = out
  short : out.length < printfBufSize
  overrun : b.overrun = false

/-- What is written after the characters `out` when `e` is to be: all of it, or as much as makes the loop
stop. -/
def Reaches (out e out' : CString) : Prop :=
  out' = out ++ e ∨ (printfBufSize - 32 ≤ out'.length ∧ out' <+: out ++ e)

section Write

variable {out s : CString} {b : PrintfBuf} {size : BitVec 32}

theorem newPrintfBuf_written {stack : List (BitVec 8)} (h : stack.length = printfBufSize) :
    Written [] ⟨stack, 0, false⟩ := ⟨rfl, h, rfl, by decide, rfl⟩

theorem Written.store (h : Written out b) (hshort : out.length < printfBufSize - 1) (c : BitVec 8) :
    Written (out ++ [c]) (b.store c) := by
  have hlen : (out ++ [c]).length = out.length + 1 := List.length_append
  have hlength := h.length
  have hstore : b.store c = { b with buf := b.buf.set out.length c, pos := out.length + 1 } := by
    rw [PrintfBuf.store, h.pos, if_pos (by rw [h.length]; omega)]
  rw [hstore]
  refine ⟨hlen.symm, ?_, ?_, by omega, h.overrun⟩
  · rw [List.length_set, h.length]
  · rw [hlen, List.take_add_one, List.getElem?_set_self (by omega), List.take_set_of_le le_rfl, h.buf]
    rfl

theorem Written.stores (s : CString) : ∀ {out : CString} {b : PrintfBuf}, Written out b →
    (out ++ s).length < printfBufSize → Written (out ++ s) (s.foldl PrintfBuf.store b) := by
  induction s with
  | nil =>
    intro out b h _
    rw [List.append_nil]
    exact h
  | cons c s ih =>
    intro out b h hlen
    rw [List.append_cons] at hlen ⊢
    refine ih (h.store ?_ c) hlen
    rw [List.length_append, List.length_append, List.length_singleton] at hlen
    omega

theorem Written.putn (h : Written out b) (hlen : (out ++ s).length < printfBufSize) :
    Written (out ++ s) (b.putn ⟨s, false⟩) := by
  have hput := h.stores s hlen
  exact ⟨hput.pos, hput.length, hput.buf, hput.short, by simp only [PrintfBuf.putn, hput.overrun, Bool.or_self]⟩

/-- **`%s`** fills the buffer up to its last byte at most. -/
theorem Written.putStr (s : CString) : ∀ {out : CString} {b : PrintfBuf}, Written out b →
    ∃ out', Written out' (b.putStr s) ∧ Reaches out s out' := by
  induction s with
  | nil => exact fun {out b} h => ⟨out, h, .inl (List.append_nil out).symm⟩
  | cons c s ih =>
    intro out b h
    rw [PrintfBuf.putStr]
    split
    · rename_i hroom
      rw [h.pos] at hroom
      obtain ⟨out', h', hreach⟩ := ih (h.store hroom c)
      rw [Reaches, ← List.append_cons] at hreach
      exact ⟨out', h', hreach⟩
    · rename_i hfull
      rw [h.pos] at hfull
      refine ⟨out, h, .inr ⟨?_, List.prefix_append _ _⟩⟩
      simp only [printfBufSize] at hfull ⊢
      omega

/-- A signed number is widened, and stays what it is. -/
theorem toInt_int (v : VaSlot) (isLong : Bool) :
    (if isLong then v.word else v.int.signExtend 64).toInt =
      if isLong then v.word.toInt else v.int.toInt := by
  cases isLong with
  | true => rfl
  | false => exact BitVec.toInt_signExtend_of_le (by decide)

theorem toNat_int (v : VaSlot) (isLong : Bool) :
    (if isLong then v.word else v.int.setWidth 64).toNat =
      if isLong then v.word.toNat else v.int.toNat := by
  cases isLong with
  | true => rfl
  | false => exact BitVec.toNat_setWidth_of_le (by decide)

/-- **A directive**, with 32 bytes to spare. -/
theorem vprintfDirective_spec (h : Written out b) (hroom : out.length < printfBufSize - 32)
    (isLong : Bool) (spec : BitVec 8) (args : VaList) :
    ∃ out', Written out' (vprintfDirective isLong spec args b).2 ∧
      Reaches out (libcExpand isLong spec (args 0)) out' := by
  have hshort : ∀ s : CString, s.length ≤ 32 → (out ++ s).length < printfBufSize := by
    intro s hs
    rw [List.length_append]
    simp only [printfBufSize] at hroom ⊢
    omega
  have hstore : out.length < printfBufSize - 1 := hroom.trans_le (by decide)
  rcases spec_cases spec with rfl | rfl | rfl | rfl | rfl | rfl | ⟨hd, hu, hx, hs, hc, hp⟩
  · change ∃ out', Written out' (b.putn (formatInt _ 10)) ∧ Reaches out (decimal _) out'
    rw [← toInt_int (args 0) isLong, formatInt_eq]
    have hlen := fun n : BitVec 64 => (@length_decimal_word 64 n 20 (by decide) (by decide)).2
    exact ⟨_, h.putn (hshort _ ((hlen _).trans (by decide))), .inl rfl⟩
  · change ∃ out', Written out' (b.putn (formatUint _ 10)) ∧ Reaches out (numeral lowerDigit 10 _) out'
    rw [← toNat_int (args 0) isLong, formatUint_eq _ (by decide) (by decide)]
    exact ⟨_, h.putn (hshort _ (length_unsigned_le _ (by decide) (by decide))), .inl rfl⟩
  · change ∃ out', Written out' (b.putn (formatUint _ 16)) ∧ Reaches out (numeral lowerDigit 16 _) out'
    rw [← toNat_int (args 0) isLong, formatUint_eq _ (by decide) (by decide)]
    exact ⟨_, h.putn (hshort _ (length_unsigned_le _ (by decide) (by decide))), .inl rfl⟩
  · exact h.putStr (args 0).text
  · exact ⟨_, h.store hstore _, .inl rfl⟩
  · exact ⟨_, h.store hstore _, .inl rfl⟩
  · unfold vprintfDirective libcExpand
    simp only [if_neg hd, if_neg hu, if_neg hx, if_neg hc, if_neg hs, if_neg hp]
    exact ⟨_, h.stores [0x25, spec] (hshort _ (show 2 ≤ 32 by decide)), .inl rfl⟩

theorem vprintfDirective_args (isLong : Bool) (spec : BitVec 8) (args : VaList) (b : PrintfBuf) :
    (vprintfDirective isLong spec args b).1 = afterDirective takesArg spec args := by
  rcases spec_cases spec with rfl | rfl | rfl | rfl | rfl | rfl | hother
  · rfl
  · rfl
  · rfl
  · rfl
  · rfl
  · rfl
  · rw [afterDirective_other args hother]
    obtain ⟨hd, hu, hx, hs, hc, hp⟩ := hother
    rw [vprintfDirective, if_neg hd, if_neg hu, if_neg hx, if_neg hc, if_neg hs, if_neg hp]

/-! ## 5. The loop -/

theorem vprintfLoop_full (h : ¬ b.pos < printfBufSize - 32) (fmt : CString) (args : VaList) :
    vprintfLoop fmt args b = some b := by
  cases fmt with
  | nil => rfl
  | cons c rest =>
    rw [vprintfLoop.eq_def]
    exact if_neg h

theorem vprintfLoop_lit (h : b.pos < printfBufSize - 32) {c : BitVec 8} (hc : c ≠ percentSign)
    (rest : CString) (args : VaList) :
    vprintfLoop (c :: rest) args b = vprintfLoop rest args (b.store c) := by
  rw [vprintfLoop.eq_def]
  exact (if_pos h).trans (if_pos hc)

theorem vprintfLoop_conv (h : b.pos < printfBufSize - 32) {isLong : Bool} {spec : BitVec 8}
    (hspec : isLong = false → spec ≠ longSign) (rest : CString) (args : VaList) :
    vprintfLoop (percentSign :: (modifier isLong ++ spec :: rest)) args b =
      vprintfLoop rest (afterDirective takesArg spec args) (vprintfDirective isLong spec args b).2 := by
  rw [← vprintfDirective_args isLong spec args b, vprintfLoop.eq_def]
  cases isLong with
  | false => exact (if_pos h).trans (if_neg (hspec rfl))
  | true => exact if_pos h

theorem vprintfLoop_dangling (h : b.pos < printfBufSize - 32) (isLong : Bool) (args : VaList) :
    vprintfLoop (percentSign :: modifier isLong) args b = none := by
  rw [vprintfLoop.eq_def]
  cases isLong with
  | false => exact if_pos h
  | true => exact if_pos h

theorem libcOutput_lit {c : BitVec 8} (hc : c ≠ percentSign) (rest : CString) (args : VaList) :
    libcOutput (c :: rest) args = [c] ++ libcOutput rest args := by
  rw [libcOutput, formatPieces_lit hc]
  rfl

theorem libcOutput_conv {isLong : Bool} {spec : BitVec 8} (hspec : isLong = false → spec ≠ longSign)
    (rest : CString) (args : VaList) :
    libcOutput (percentSign :: (modifier isLong ++ spec :: rest)) args =
      libcExpand isLong spec (args 0) ++ libcOutput rest (afterDirective takesArg spec args) := by
  rw [libcOutput, formatPieces_conv hspec]
  rfl

theorem reaches_of_full (e : CString) (hlen : printfBufSize - 32 ≤ out.length) : Reaches out e out :=
  .inr ⟨hlen, List.prefix_append _ _⟩

/-- Once the buffer is full nothing more is read. -/
theorem vprintfLoop_of_full {e out' : CString} (h : Written out' b) (hlen : printfBufSize - 32 ≤ out'.length)
    (hreach : Reaches out e out') (fmt : CString) (args : VaList) :
    ∃ b' out₁, vprintfLoop fmt args b = some b' ∧ Written out₁ b' ∧ Reaches out e out₁ ∧
      (FormatComplete fmt ∨ printfBufSize - 32 ≤ out₁.length) := by
  have hpos : ¬ b.pos < printfBufSize - 32 := by
    rw [h.pos]
    exact Nat.not_lt.mpr hlen
  exact ⟨b, out', vprintfLoop_full hpos fmt args, h, hreach, .inr hlen⟩

/-- **The loop.**  It goes past the 0 just if the format ends in the middle of a directive and the buffer
is not full before that; else it writes the whole output, or as much as fills the buffer. -/
theorem vprintfLoop_spec (fmt : CString) : ∀ (args : VaList) {out : CString} {b : PrintfBuf},
    Written out b →
    (vprintfLoop fmt args b = none ∧ ¬ FormatComplete fmt ∧
      (out ++ libcOutput fmt args).length < printfBufSize - 32) ∨
    ∃ b' out', vprintfLoop fmt args b = some b' ∧ Written out' b' ∧
      Reaches out (libcOutput fmt args) out' ∧
      (FormatComplete fmt ∨ printfBufSize - 32 ≤ out'.length) := by
  induction fmt using format_induction with
  | nil => exact fun args {out b} h => .inr ⟨b, out, rfl, h, .inl (List.append_nil out).symm, .inl rfl⟩
  | lit c rest hc ih =>
    intro args out b h
    by_cases hroom : out.length < printfBufSize - 32
    · have hpos : b.pos < printfBufSize - 32 := h.pos ▸ hroom
      have hput := h.store (hroom.trans_le (by decide)) c
      rw [vprintfLoop_lit hpos hc, formatComplete_lit hc, libcOutput_lit hc]
      have hrest := ih args hput
      simp only [Reaches, List.append_assoc] at hrest ⊢
      exact hrest
    · have hlen := Nat.not_lt.mp hroom
      exact .inr (vprintfLoop_of_full h hlen (reaches_of_full _ hlen) _ args)
  | conv isLong spec rest hspec ih =>
    intro args out b h
    by_cases hroom : out.length < printfBufSize - 32
    · have hpos : b.pos < printfBufSize - 32 := h.pos ▸ hroom
      obtain ⟨out', h', hreach⟩ := vprintfDirective_spec h hroom isLong spec args
      rw [vprintfLoop_conv hpos hspec, formatComplete_conv hspec, libcOutput_conv hspec]
      rcases hreach with rfl | ⟨hlen, hprefix⟩
      · have hrest := ih (afterDirective takesArg spec args) h'
        simp only [Reaches, List.append_assoc] at hrest ⊢
        exact hrest
      · refine .inr (vprintfLoop_of_full h' hlen (.inr ⟨hlen, ?_⟩) rest _)
        rw [← List.append_assoc]
        exact hprefix.trans (List.prefix_append _ _)
    · have hlen := Nat.not_lt.mp hroom
      exact .inr (vprintfLoop_of_full h hlen (reaches_of_full _ hlen) _ args)
  | dangling isLong =>
    intro args out b h
    by_cases hroom : out.length < printfBufSize - 32
    · refine .inl ⟨vprintfLoop_dangling (h.pos ▸ hroom) isLong args, not_formatComplete_dangling isLong, ?_⟩
      rw [libcOutput, formatPieces, parseFormat_dangling, render, List.append_nil]
      exact hroom
    · have hlen := Nat.not_lt.mp hroom
      exact .inr (vprintfLoop_of_full h hlen (reaches_of_full _ hlen) _ args)

/-! ## 6. The two formatters -/

/-- **`vprintf` does not overflow, and prints a prefix** of the complete output; all of it, if that has
fewer than 992 bytes. -/
theorem vprintf_prefix (fmt : CString) (hfmt : FormatComplete fmt) (args : VaList)
    (stack : List (BitVec 8)) (hstack : stack.length = printfBufSize) :
    ∃ bytes b, vprintf stack fmt args = some (bytes, b) ∧ b.overrun = false ∧ b.pos = bytes.length ∧
      bytes <+: libcOutput fmt args ∧
      ((libcOutput fmt args).length < printfBufSize - 32 → bytes = libcOutput fmt args) := by
  rcases vprintfLoop_spec fmt args (newPrintfBuf_written hstack) with
    ⟨-, hincomplete, -⟩ | ⟨b, out, heq, h, hreach, -⟩
  · exact absurd hfmt hincomplete
  · rw [Reaches, List.nil_append] at hreach
    refine ⟨out, b, ?_, h.overrun, h.pos, ?_, fun hlen => ?_⟩
    · rw [vprintf, heq, Option.map_some, h.pos, h.buf]
    · exact hreach.elim (fun hall => hall ▸ List.prefix_rfl) And.right
    · rcases hreach with hall | ⟨hfull, hprefix⟩
      · exact hall
      · exact absurd hprefix.length_le (by omega)

/-- `"%d%s"` of -12 and "ab". -/
theorem vprintf_prefix_two_directives : ∃ bytes b, vprintf (List.replicate 1024 0)
    [0x25, 0x64, 0x25, 0x73] (fun _ => ⟨-12, [0x61, 0x62]⟩) = some (bytes, b) ∧ b.overrun = false ∧
      bytes = [0x2D, 0x31, 0x32, 0x61, 0x62] := by
  have hout : libcOutput [0x25, 0x64, 0x25, 0x73] (fun _ => ⟨-12, [0x61, 0x62]⟩) =
      [0x2D, 0x31, 0x32, 0x61, 0x62] := by decide +kernel
  obtain ⟨bytes, b, heq, hinside, -, -, hall⟩ := vprintf_prefix [0x25, 0x64, 0x25, 0x73] (by decide)
    (fun _ => ⟨-12, [0x61, 0x62]⟩) (List.replicate 1024 0) List.length_replicate
  rw [hout] at hall
  exact ⟨bytes, b, heq, hinside, hall (by decide)⟩

end Write

end AcornOS
