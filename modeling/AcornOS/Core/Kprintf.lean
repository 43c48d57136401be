/-
# The kernel's formatter (`kvsnprintf`)

`kvsnprintf` writes at most `size - 1` characters and counts ALL of them.

* The printers of numbers fill a temporary buffer from the wrong end and turn it round; each is
  `numeral` or `fixedNumeral` of its argument (`toDec_eq`, `toHex_eq`), and none needs more room than it
  has.
* What `kvsnprintf` has written after the characters `out` is the first `size - 1` of them: `Emitted`.
  Every directive keeps that (`kvsnprintfDirective_spec`), so the loop does (`kvsnprintfLoop_spec`).
* **`kvsnprintf_truncates`** is the law of truncation.  The characters are counted in an `int`: with
  `2 ^ 31` of them the count is NEGATIVE, and the last store is below the buffer
  (`kvsnprintf_wraps`).
-/
import AcornOS.FileSystem.Files
import AcornOS.Lib.Digits
import AcornOS.Lib.Format

namespace AcornOS

open Lib

/-! ## 1. Numbers -/

/-- What a printer of numbers has written, and whether a store was outside a buffer. -/
structure Printed where
  chars : CString
  overrun : Bool
deriving Repr, DecidableEq

/-- `'0' + d` -/
def decDigit (d : Nat) : BitVec 8 := 0x30 + BitVec.ofNat 8 d

/-- `"0123456789ABCDEF"` -/
def upperDigits : CString :=
  [0x30, 0x31, 0x32, 0x33, 0x34, 0x35, 0x36, 0x37, 0x38, 0x39, 0x41, 0x42, 0x43, 0x44, 0x45, 0x46]

/-- `digits[d]` -/
def upperDigit (d : Nat) : BitVec 8 := upperDigits.getD d 0

/-- A printer of decimal numbers, with a temporary buffer of `room` characters. -/
def toDec (room : Nat) {w : Nat} (n : BitVec w) : Printed :=
  if n = 0 then ⟨[0x30], false⟩
  else
    let tmp := digitLoop decDigit 10 w n.toNat
    ⟨tmp.reverse, room < tmp.length⟩

/-- `uint_to_dec` -/
def uintToDec (n : BitVec 32) : Printed := toDec 10 n

/-- `uint64_to_dec` -/
def uint64ToDec (n : BitVec 64) : Printed := toDec 20 n

/-- `int_to_dec` -/
def intToDec (n : BitVec 32) : Printed :=
  if n.slt 0 then
    let p := uintToDec (-n)
    ⟨0x2D :: p.chars, p.overrun⟩
  else uintToDec n

/-- The loop of the hexadecimal printers: from the last place to the first. -/
def toHex {w : Nat} : (places : Nat) → BitVec w → CString → CString
  | 0, _, buf => buf
  | i + 1, n, buf => toHex i (n >>> 4) (upperDigit (n &&& 0xF).toNat :: buf)

/-- `uint_to_hex` -/
def uintToHex (n : BitVec 32) : Printed := ⟨toHex 8 n [], false⟩

/-- `uint64_to_hex` -/
def uint64ToHex (n : BitVec 64) : Printed := ⟨toHex 16 n [], false⟩

/-! ## 2. `kvsnprintf` -/

/-- The buffer, the position in it, and whether a store was outside a buffer. -/
structure Out where
  buf : List (BitVec 8)
  pos : BitVec 32
  overrun : Bool
deriving Repr, DecidableEq

/-- `buf[i] = c` -/
def Out.store (o : Out) (i : Int) (c : BitVec 8) : Out :=
  if 0 ≤ i ∧ i < o.buf.length then { o with buf := o.buf.set i.toNat c } else { o with overrun := true }

/-- `PUTC` -/
def Out.putc (size : BitVec 32) (o : Out) (c : BitVec 8) : Out :=
  let o := if o.pos.slt (size - 1) then o.store o.pos.toInt c else o
  { o with pos := o.pos + 1 }

/-- `PUTS`, and the loops that put a number. -/
def Out.puts (size : BitVec 32) (o : Out) (s : CString) : Out := s.foldl (Out.putc size) o

/-- A number is printed into a temporary buffer of `room` characters, and put. -/
def Out.putn (size : BitVec 32) (o : Out) (room : Nat) (p : Printed) : Out :=
  let o := o.puts size p.chars
  { o with overrun := o.overrun || p.overrun || decide (room < p.chars.length) }

/-- `"(null)"` -/
def nullText : CString := [0x28, 0x6E, 0x75, 0x6C, 0x6C, 0x29]

/-- The `switch` on the character of a directive. -/
def kvsnprintfDirective (size : BitVec 32) (isLong : Bool) (spec : BitVec 8) (args : VaList) (o : Out) :
    VaList × Out :=
  if spec = 0x64 then -- d
    let (v, args) := vaArg args
    if isLong then
      let n := v.word
      if n.slt 0 then (args, (o.putc size 0x2D).putn size 21 (uint64ToDec (-n)))
      else (args, o.putn size 21 (uint64ToDec n))
    else (args, o.putn size 12 (intToDec v.int))
  else if spec = 0x75 then -- u
    let (v, args) := vaArg args
    if isLong then (args, o.putn size 21 (uint64ToDec v.word))
    else (args, o.putn size 11 (uintToDec v.int))
  else if spec = 0x78 then -- x
    let (v, args) := vaArg args
    if isLong then (args, o.putn size 17 (uint64ToHex v.word))
    else (args, o.putn size 11 (uintToHex v.int))
  else if spec = 0x73 then -- s
    let (v, args) := vaArg args
    (args, o.puts size (if v.word = 0 then nullText else v.text))
  else if spec = 0x63 then -- c
    let (v, args) := vaArg args
    (args, o.putc size v.char)
  else if spec = 0x25 then -- percent
    (args, o.putc size 0x25)
  else (args, (o.putc size 0x25).putc size spec)

/-- The loop.  `none`: a character of the format is read that lies beyond its 0. -/
def kvsnprintfLoop (size : BitVec 32) : (fmt : CString) → VaList → Out → Option Out
  | [], _, o => some o
  | c :: rest, args, o =>
    if c ≠ percentSign then kvsnprintfLoop size rest args (o.putc size c)
    else
      match rest with
      -- The 0 is taken for the character of the directive; the next character is looked at.
      | [] => none
      | m :: rest =>
        if m = longSign then
          match rest with
          | [] => none
          | spec :: rest =>
            let (args, o) := kvsnprintfDirective size true spec args o
            kvsnprintfLoop size rest args o
        else
          let (args, o) := kvsnprintfDirective size false m args o
          kvsnprintfLoop size rest args o

/-- The 0 at the end. -/
def Out.terminate (size : BitVec 32) (o : Out) : Out :=
  if o.pos.slt size then o.store o.pos.toInt 0
  else if (0 : BitVec 32).slt size then o.store (size - 1).toInt 0
  else o

/-- `kvsnprintf`: what it returns, and what it leaves. -/
def kvsnprintf (buf : List (BitVec 8)) (size : BitVec 32) (fmt : CString) (args : VaList) :
    Option (Int × Out) :=
  (kvsnprintfLoop size fmt args ⟨buf, 0, false⟩).map fun o => (o.pos.toInt, o.terminate size)

/-! ## 3. The complete output -/

/-- A signed number in decimal. -/
def decimal (n : Int) : CString :=
  if n < 0 then 0x2D :: numeral decDigit 10 n.natAbs else numeral decDigit 10 n.natAbs

/-- The directives that take an argument, in both formatters. -/
def takesArg (spec : BitVec 8) : Bool :=
  spec = 0x64 || spec = 0x75 || spec = 0x78 || spec = 0x73 || spec = 0x63

/-- What a directive stands for in the kernel. -/
def kernelExpand (isLong : Bool) (spec : BitVec 8) (v : VaSlot) : CString :=
  if spec = 0x64 then decimal (if isLong then v.word.toInt else v.int.toInt)
  else if spec = 0x75 then numeral decDigit 10 (if isLong then v.word.toNat else v.int.toNat)
  else if spec = 0x78 then
    if isLong then fixedNumeral upperDigit 16 16 v.word.toNat
    else fixedNumeral upperDigit 16 8 v.int.toNat
  else if spec = 0x73 then if v.word = 0 then nullText else v.text
  else if spec = 0x63 then [v.char]
  else if spec = 0x25 then [0x25]
  else [0x25, spec]

/-- The complete output of a format in the kernel. -/
def kernelOutput (fmt : CString) (args : VaList) : CString :=
  render takesArg kernelExpand (formatPieces fmt) args

example : kernelOutput [0x25, 0x64, 0x20, 0x25, 0x6C, 0x78] (fun _ => ⟨-1, []⟩) =
    [0x2D, 0x31, 0x20] ++ List.replicate 16 0x46 := by decide +kernel

/-! ## 4. The printers of numbers -/

section Numbers

variable {w room : Nat}

theorem toDec_chars (room : Nat) (n : BitVec w) : (toDec room n).chars = numeral decDigit 10 n.toNat := by
  unfold toDec
  split
  · rename_i hzero
    rw [hzero]
    rfl
  · rename_i hpos
    have hne : n.toNat ≠ 0 := fun h => hpos (BitVec.eq_of_toNat_eq h)
    have hfuel : n.toNat < 10 ^ w := n.isLt.trans_le (Nat.pow_le_pow_left (by decide) w)
    rw [numeral_of_pos _ (Nat.pos_of_ne_zero hne)]
    simp only [digitLoop_eq decDigit (by decide : 1 < 10) hfuel]

/-- **The temporary buffer is large enough** if every number of the width has so few digits. -/
theorem toDec_overrun (n : BitVec w) (hroom : 2 ^ w ≤ 10 ^ room) : (toDec room n).overrun = false := by
  unfold toDec
  split
  · rfl
  · have hfuel : n.toNat < 10 ^ w := n.isLt.trans_le (Nat.pow_le_pow_left (by decide) w)
    simp only [digitLoop_eq decDigit (by decide : 1 < 10) hfuel, List.length_map, decide_eq_false_iff_not,
      Nat.not_lt]
    exact (Nat.digits_length_le_iff (by decide) _).mpr (n.isLt.trans_le hroom)

theorem toDec_eq (n : BitVec w) (hroom : 2 ^ w ≤ 10 ^ room) :
    toDec room n = ⟨numeral decDigit 10 n.toNat, false⟩ := by
  rw [← toDec_chars room n, ← toDec_overrun n hroom]

theorem uintToDec_eq (n : BitVec 32) : uintToDec n = ⟨numeral decDigit 10 n.toNat, false⟩ :=
  toDec_eq n (by decide)

theorem uint64ToDec_eq (n : BitVec 64) : uint64ToDec n = ⟨numeral decDigit 10 n.toNat, false⟩ :=
  toDec_eq n (by decide)

/-- A number less than 0 is negated as a word; at the least of all that changes nothing, and the word
is still its absolute value. -/
theorem toNat_neg_of_slt {n : BitVec w} (h : n.slt 0 = true) : (-n).toNat = n.toInt.natAbs := by
  rw [BitVec.slt_eq_decide, decide_eq_true_eq, BitVec.ofNat_eq_ofNat, BitVec.toInt_zero] at h
  rw [BitVec.toNat_neg]
  have hlt := n.isLt
  rw [BitVec.toInt_eq_toNat_cond] at h ⊢
  split at h
  · omega
  · rw [if_neg (by assumption)]
    rw [Nat.mod_eq_of_lt (by omega)]
    omega

theorem toNat_of_not_slt {n : BitVec w} (h : ¬ n.slt 0 = true) : n.toNat = n.toInt.natAbs := by
  rw [BitVec.slt_eq_decide, decide_eq_true_eq, BitVec.ofNat_eq_ofNat, BitVec.toInt_zero] at h
  rw [BitVec.toInt_eq_toNat_cond] at h ⊢
  split at h
  · rw [if_pos (by assumption)]
    rfl
  · omega

theorem slt_zero_iff {n : BitVec w} : n.slt 0 = true ↔ n.toInt < 0 := by
  rw [BitVec.slt_eq_decide, decide_eq_true_eq, BitVec.ofNat_eq_ofNat, BitVec.toInt_zero]

theorem intToDec_eq (n : BitVec 32) : intToDec n = ⟨decimal n.toInt, false⟩ := by
  unfold intToDec decimal
  split
  · rename_i hneg
    rw [if_pos (slt_zero_iff.mp hneg), uintToDec_eq, toNat_neg_of_slt hneg]
  · rename_i hpos
    rw [if_neg (fun h => hpos (slt_zero_iff.mpr h)), uintToDec_eq, toNat_of_not_slt hpos]

theorem toHex_eq (places : Nat) (n : BitVec w) (hw : 4 ≤ w) (buf : CString) :
    toHex places n buf = fixedNumeral upperDigit 16 places n.toNat ++ buf := by
  induction places generalizing n buf with
  | zero => rfl
  | succ i ih =>
    have hdigit : (n &&& 0xF).toNat = n.toNat % 16 := by
      have h15 : 15 < 2 ^ w := (by decide : 15 < 2 ^ 4).trans_le (Nat.pow_le_pow_right (by decide) hw)
      have hmask : (0xF : BitVec w).toNat = 15 := Nat.mod_eq_of_lt h15
      rw [BitVec.toNat_and, hmask]
      exact Nat.and_two_pow_sub_one_eq_mod n.toNat 4
    have hrest : (n >>> 4).toNat = n.toNat / 16 := by
      rw [BitVec.toNat_ushiftRight]
      exact Nat.shiftRight_eq_div_pow n.toNat 4
    rw [toHex, ih, fixedNumeral, hdigit, hrest, List.append_assoc]
    rfl

theorem uintToHex_eq (n : BitVec 32) : uintToHex n = ⟨fixedNumeral upperDigit 16 8 n.toNat, false⟩ := by
  rw [uintToHex, toHex_eq 8 n (by decide), List.append_nil]

theorem uint64ToHex_eq (n : BitVec 64) :
    uint64ToHex n = ⟨fixedNumeral upperDigit 16 16 n.toNat, false⟩ := by
  rw [uint64ToHex, toHex_eq 16 n (by decide), List.append_nil]

theorem length_decimal_le {n : Int} {k : Nat} (hk : 0 < k) (h : n.natAbs < 10 ^ k) :
    (decimal n).length ≤ k + 1 := by
  have hle := length_numeral_le decDigit (by decide) hk h
  unfold decimal
  split
  · exact Nat.succ_le_succ hle
  · exact Nat.le_succ_of_le hle

end Numbers

/-! ## 5. What has been written -/

/-- The size is at least 1, and the buffer has it. -/
structure Sized (size : BitVec 32) (mem : List (BitVec 8)) : Prop where
  pos : 0 < size.toInt
  length : mem.length = size.toNat

/-- The characters `out` have been put into a buffer that held `mem`: the first `size - 1` of them are
there, and all are counted. -/
structure Emitted (size : BitVec 32) (mem : List (BitVec 8)) (out : CString) (o : Out) : Prop where
  pos : o.pos = BitVec.ofNat 32 out.length
  buf : o.buf = out.take (size.toNat - 1) ++ mem.drop (min (size.toNat - 1) out.length)
  overrun : o.overrun = false

section Emit

variable {size : BitVec 32} {mem : List (BitVec 8)} {out : CString} {o : Out}

theorem Sized.bounds (h : Sized size mem) : 1 ≤ size.toNat ∧ size.toNat < 2 ^ 31 ∧
    size.toInt = size.toNat ∧ (size - 1).toInt = (size.toNat - 1 : Nat) := by
  have hpos := h.pos
  rw [BitVec.toInt_eq_toNat_cond] at hpos
  have hlt := size.isLt
  have hsize : size.toInt = size.toNat := by
    rw [BitVec.toInt_eq_toNat_cond]
    split at hpos <;> omega
  have hle : size.toNat < 2 ^ 31 := by
    split at hpos <;> omega
  have hone : 1 ≤ size.toNat := by
    have := h.pos
    omega
  have hsub : (size - 1).toNat = size.toNat - 1 := by
    rw [BitVec.toNat_sub, show (1 : BitVec 32).toNat = 1 from rfl]
    omega
  refine ⟨hone, hle, hsize, ?_⟩
  rw [BitVec.toInt_eq_toNat_of_lt (by omega), hsub]

theorem newOut_emitted (size : BitVec 32) (mem : List (BitVec 8)) :
    Emitted size mem [] ⟨mem, 0, false⟩ :=
  ⟨rfl, by simp, rfl⟩

theorem Emitted.toInt_pos (h : Emitted size mem out o) (hlen : out.length < 2 ^ 31) :
    o.pos.toInt = out.length := by
  rw [h.pos]
  exact toInt32_natCast hlen

/-- The buffer keeps its length. -/
theorem Emitted.length_buf (hs : Sized size mem) (h : Emitted size mem out o) :
    o.buf.length = size.toNat := by
  have hlen := hs.length
  rw [h.buf, List.length_append, List.length_take, List.length_drop]
  omega

/-- **`PUTC`.** -/
theorem Emitted.putc (hs : Sized size mem) (h : Emitted size mem out o) (hlen : out.length < 2 ^ 31)
    (c : BitVec 8) : Emitted size mem (out ++ [c]) (o.putc size c) := by
  obtain ⟨hone, -, -, hsub⟩ := hs.bounds
  have hbuf := h.length_buf hs
  have hmem := hs.length
  have hpos : o.pos + 1 = BitVec.ofNat 32 (out ++ [c]).length := by
    rw [h.pos, List.length_append, List.length_singleton, BitVec.ofNat_add]
    rfl
  have hslt : o.pos.slt (size - 1) = true ↔ out.length < size.toNat - 1 := by
    rw [BitVec.slt_eq_decide, decide_eq_true_eq, h.toInt_pos hlen, hsub, Int.ofNat_lt]
  unfold Out.putc
  by_cases hroom : out.length < size.toNat - 1
  · have hstore : o.store o.pos.toInt c = { o with buf := o.buf.set out.length c } := by
      rw [Out.store, h.toInt_pos hlen, if_pos ⟨Int.natCast_nonneg _, by omega⟩]
      rfl
    rw [if_pos (hslt.mpr hroom), hstore]
    refine ⟨hpos, ?_, h.overrun⟩
    have hdrop : mem.drop out.length = mem[out.length] :: mem.drop (out.length + 1) :=
      List.drop_eq_getElem_cons (by omega)
    change o.buf.set out.length c = _
    rw [h.buf, List.take_of_length_le (by omega), Nat.min_eq_right (by omega), hdrop,
      List.set_append_right _ _ le_rfl, Nat.sub_self, List.set_cons_zero,
      List.take_of_length_le (by rw [List.length_append, List.length_singleton]; omega),
      List.length_append, List.length_singleton, Nat.min_eq_right (by omega), List.append_assoc]
    rfl
  · rw [if_neg (fun hlt => hroom (hslt.mp hlt))]
    refine ⟨hpos, ?_, h.overrun⟩
    rw [h.buf, List.take_append_of_le_length (by omega), List.length_append, Nat.min_eq_left (by omega),
      Nat.min_eq_left (by omega)]

/-- **`PUTS`.** -/
theorem Emitted.puts (hs : Sized size mem) (s : CString) : ∀ {out : CString} {o : Out},
    Emitted size mem out o → (out ++ s).length ≤ 2 ^ 31 → Emitted size mem (out ++ s) (o.puts size s) := by
  induction s with
  | nil =>
    intro out o h _
    rw [List.append_nil]
    exact h
  | cons c s ih =>
    intro out o h hlen
    rw [List.append_cons] at hlen ⊢
    have hput := h.putc hs (by rw [List.length_append, List.length_append] at hlen; simp at hlen; omega) c
    exact ih hput hlen

theorem Emitted.putn (hs : Sized size mem) (h : Emitted size mem out o) {room : Nat} {s : CString}
    (hlen : (out ++ s).length ≤ 2 ^ 31) (hroom : s.length ≤ room) :
    Emitted size mem (out ++ s) (o.putn size room ⟨s, false⟩) := by
  have hput := h.puts hs s hlen
  refine ⟨hput.pos, hput.buf, ?_⟩
  simp only [Out.putn, hput.overrun, Bool.or_self, Bool.false_or, decide_eq_false_iff_not, Nat.not_lt]
  exact hroom

/-- The number of characters of a word in decimal. -/
theorem length_decimal_word {w : Nat} (n : BitVec w) {k : Nat} (hk : 0 < k) (hroom : 2 ^ w ≤ 10 ^ k) :
    (numeral decDigit 10 n.toNat).length ≤ k ∧ (decimal n.toInt).length ≤ k + 1 := by
  refine ⟨length_numeral_le decDigit (by decide) hk (n.isLt.trans_le hroom), length_decimal_le hk ?_⟩
  refine lt_of_lt_of_le ?_ hroom
  have hlt := n.isLt
  rw [BitVec.toInt_eq_toNat_cond]
  split <;> omega

/-- `%ld`: the sign is put into the buffer, and the number printed without it. -/
theorem Emitted.putLong (hs : Sized size mem) (h : Emitted size mem out o) (n : BitVec 64)
    (hlen : (out ++ decimal n.toInt).length ≤ 2 ^ 31) : Emitted size mem (out ++ decimal n.toInt)
      (if n.slt 0 then (o.putc size 0x2D).putn size 21 (uint64ToDec (-n))
      else o.putn size 21 (uint64ToDec n)) := by
  have hshort := fun n : BitVec 64 =>
    (@length_decimal_word 64 n 20 (by decide) (by decide)).1.trans (show 20 ≤ 21 by decide)
  by_cases hneg : n.slt 0 = true
  · rw [if_pos hneg, uint64ToDec_eq, toNat_neg_of_slt hneg]
    rw [decimal, if_pos (slt_zero_iff.mp hneg), List.append_cons] at hlen ⊢
    have hsign := h.putc hs (by simp only [List.length_append, List.length_singleton] at hlen; omega) 0x2D
    refine hsign.putn hs hlen ?_
    rw [← toNat_neg_of_slt hneg]
    exact hshort _
  · rw [if_neg hneg, uint64ToDec_eq, toNat_of_not_slt hneg]
    rw [decimal, if_neg (fun hlt => hneg (slt_zero_iff.mpr hlt))] at hlen ⊢
    refine h.putn hs hlen ?_
    rw [← toNat_of_not_slt hneg]
    exact hshort _

/-- The characters of a directive that mean something. -/
theorem spec_cases (spec : BitVec 8) : spec = 0x64 ∨ spec = 0x75 ∨ spec = 0x78 ∨ spec = 0x73 ∨
    spec = 0x63 ∨ spec = 0x25 ∨ (spec ≠ 0x64 ∧ spec ≠ 0x75 ∧ spec ≠ 0x78 ∧ spec ≠ 0x73 ∧ spec ≠ 0x63 ∧
      spec ≠ 0x25) := by
  tauto

/-- **A directive** puts what it stands for. -/
theorem kvsnprintfDirective_spec (hs : Sized size mem) (h : Emitted size mem out o) (isLong : Bool)
    (spec : BitVec 8) (args : VaList)
    (hlen : (out ++ kernelExpand isLong spec (args 0)).length ≤ 2 ^ 31) :
    Emitted size mem (out ++ kernelExpand isLong spec (args 0))
      (kvsnprintfDirective size isLong spec args o).2 := by
  have hone : ∀ c : BitVec 8, (out ++ [c]).length ≤ 2 ^ 31 → out.length < 2 ^ 31 := by
    intro c hle
    rw [List.length_append] at hle
    exact hle
  have h64 := fun n : BitVec 64 => @length_decimal_word 64 n 20 (by decide) (by decide)
  have h32 := fun n : BitVec 32 => @length_decimal_word 32 n 10 (by decide) (by decide)
  rcases spec_cases spec with rfl | rfl | rfl | rfl | rfl | rfl | ⟨hd, hu, hx, hs', hc, hp⟩
  · cases isLong with
    | true =>
      change Emitted size mem _ (if (args 0).word.slt 0 then (_, _) else (_, _)).2
      rw [apply_ite Prod.snd]
      exact h.putLong hs (args 0).word hlen
    | false =>
      change Emitted size mem _ (o.putn size 12 (intToDec (args 0).int))
      rw [intToDec_eq]
      exact h.putn hs hlen ((h32 _).2.trans (by decide))
  · cases isLong with
    | true =>
      change Emitted size mem _ (o.putn size 21 (uint64ToDec (args 0).word))
      rw [uint64ToDec_eq]
      exact h.putn hs hlen ((h64 _).1.trans (by decide))
    | false =>
      change Emitted size mem _ (o.putn size 11 (uintToDec (args 0).int))
      rw [uintToDec_eq]
      exact h.putn hs hlen ((h32 _).1.trans (by decide))
  · cases isLong with
    | true =>
      change Emitted size mem _ (o.putn size 17 (uint64ToHex (args 0).word))
      rw [uint64ToHex_eq]
      exact h.putn hs hlen ((length_fixedNumeral _ _ _).le.trans (by decide))
    | false =>
      change Emitted size mem _ (o.putn size 11 (uintToHex (args 0).int))
      rw [uintToHex_eq]
      exact h.putn hs hlen ((length_fixedNumeral _ _ _).le.trans (by decide))
  · exact h.puts hs _ hlen
  · exact h.putc hs (hone _ hlen) _
  · exact h.putc hs (hone _ hlen) _
  · unfold kvsnprintfDirective
    unfold kernelExpand at hlen ⊢
    simp only [if_neg hd, if_neg hu, if_neg hx, if_neg hs', if_neg hc, if_neg hp] at hlen ⊢
    exact h.puts hs [0x25, spec] hlen

theorem afterDirective_other {spec : BitVec 8} (args : VaList) (h : spec ≠ 0x64 ∧ spec ≠ 0x75 ∧
    spec ≠ 0x78 ∧ spec ≠ 0x73 ∧ spec ≠ 0x63 ∧ spec ≠ 0x25) : afterDirective takesArg spec args = args := by
  obtain ⟨hd, hu, hx, hs, hc, -⟩ := h
  rw [afterDirective, if_neg]
  simp only [takesArg, hd, hu, hx, hs, hc, decide_false, Bool.or_self, Bool.false_eq_true,
    not_false_eq_true]

theorem kvsnprintfDirective_args (size : BitVec 32) (isLong : Bool) (spec : BitVec 8) (args : VaList)
    (o : Out) : (kvsnprintfDirective size isLong spec args o).1 = afterDirective takesArg spec args := by
  rcases spec_cases spec with rfl | rfl | rfl | rfl | rfl | rfl | hother
  · cases isLong with
    | true =>
      change (if (args 0).word.slt 0 then (_, _) else (_, _)).1 = _
      rw [apply_ite Prod.fst, ite_self]
      rfl
    | false => rfl
  · cases isLong <;> rfl
  · cases isLong <;> rfl
  · rfl
  · rfl
  · rfl
  · rw [afterDirective_other args hother]
    obtain ⟨hd, hu, hx, hs, hc, hp⟩ := hother
    rw [kvsnprintfDirective, if_neg hd, if_neg hu, if_neg hx, if_neg hs, if_neg hc, if_neg hp]

theorem kvsnprintfLoop_lit {c : BitVec 8} (hc : c ≠ percentSign) (rest : CString) (args : VaList)
    (o : Out) : kvsnprintfLoop size (c :: rest) args o = kvsnprintfLoop size rest args (o.putc size c) := by
  rw [kvsnprintfLoop.eq_def]
  exact if_pos hc

theorem kvsnprintfLoop_conv {isLong : Bool} {spec : BitVec 8} (hspec : isLong = false → spec ≠ longSign)
    (rest : CString) (args : VaList) (o : Out) :
    kvsnprintfLoop size (percentSign :: (modifier isLong ++ spec :: rest)) args o =
      kvsnprintfLoop size rest (afterDirective takesArg spec args)
        (kvsnprintfDirective size isLong spec args o).2 := by
  rw [← kvsnprintfDirective_args size isLong spec args o]
  cases isLong with
  | false =>
    rw [kvsnprintfLoop.eq_def]
    exact if_neg (hspec rfl)
  | true => rfl

theorem kvsnprintfLoop_dangling (isLong : Bool) (args : VaList) (o : Out) :
    kvsnprintfLoop size (percentSign :: modifier isLong) args o = none := by
  cases isLong <;> rfl

/-- **The loop** puts the output of the whole format. -/
theorem kvsnprintfLoop_spec (hs : Sized size mem) (fmt : CString) : ∀ (args : VaList) {out : CString}
    {o : Out}, FormatComplete fmt → Emitted size mem out o →
    (out ++ kernelOutput fmt args).length ≤ 2 ^ 31 → ∃ o', kvsnprintfLoop size fmt args o = some o' ∧
      Emitted size mem (out ++ kernelOutput fmt args) o' := by
  induction fmt using format_induction with
  | nil =>
    intro args out o _ h _
    refine ⟨o, rfl, ?_⟩
    rw [show kernelOutput [] args = [] from rfl, List.append_nil]
    exact h
  | lit c rest hc ih =>
    intro args out o hfmt h hlen
    have hout : kernelOutput (c :: rest) args = [c] ++ kernelOutput rest args := by
      rw [kernelOutput, formatPieces_lit hc]
      rfl
    rw [hout, ← List.append_assoc] at hlen ⊢
    rw [kvsnprintfLoop_lit hc]
    refine ih args ((formatComplete_lit hc).mp hfmt) (h.putc hs ?_ c) hlen
    simp only [List.length_append, List.length_singleton] at hlen
    omega
  | conv isLong spec rest hspec ih =>
    intro args out o hfmt h hlen
    have hout : kernelOutput (percentSign :: (modifier isLong ++ spec :: rest)) args =
        kernelExpand isLong spec (args 0) ++ kernelOutput rest (afterDirective takesArg spec args) := by
      rw [kernelOutput, formatPieces_conv hspec]
      rfl
    rw [hout, ← List.append_assoc] at hlen ⊢
    rw [kvsnprintfLoop_conv hspec]
    refine ih _ ((formatComplete_conv hspec).mp hfmt) (kvsnprintfDirective_spec hs h isLong spec args ?_) hlen
    rw [List.length_append] at hlen
    omega
  | dangling isLong =>
    intro args out o hfmt
    exact absurd hfmt (not_formatComplete_dangling isLong)

/-- **The loop goes past the 0** just if the format ends in the middle of a directive. -/
theorem kvsnprintfLoop_none_iff (fmt : CString) : ∀ {args : VaList} {o : Out},
    kvsnprintfLoop size fmt args o = none ↔ ¬ FormatComplete fmt := by
  induction fmt using format_induction with
  | nil => exact fun {_ _} => iff_of_false nofun (not_not_intro rfl)
  | lit c rest hc ih =>
    intro args o
    rw [kvsnprintfLoop_lit hc, ih, formatComplete_lit hc]
  | conv isLong spec rest hspec ih =>
    intro args o
    rw [kvsnprintfLoop_conv hspec, ih, formatComplete_conv hspec]
  | dangling isLong =>
    intro args o
    exact iff_of_true (kvsnprintfLoop_dangling isLong args o) (not_formatComplete_dangling isLong)

/-! ## 6. Truncation -/

/-- The 0 is put after what is there. -/
theorem Emitted.terminate (hs : Sized size mem) (h : Emitted size mem out o) (hlen : out.length < 2 ^ 31) :
    (o.terminate size).overrun = false ∧ (o.terminate size).buf =
      out.take (size.toNat - 1) ++ 0 :: mem.drop (min (size.toNat - 1) out.length + 1) := by
  obtain ⟨hone, -, hsize, hsub⟩ := hs.bounds
  have hbuf := h.length_buf hs
  have hmem := hs.length
  have hpos := h.toInt_pos hlen
  have hstore : o.terminate size = o.store (min (size.toNat - 1) out.length : Nat) 0 := by
    unfold Out.terminate
    rw [BitVec.slt_eq_decide, BitVec.slt_eq_decide, hpos, hsize, hsub]
    by_cases hroom : out.length < size.toNat
    · rw [if_pos (decide_eq_true (Int.ofNat_lt.mpr hroom)), Nat.min_eq_right (by omega)]
    · have hzero : (0 : BitVec 32).toInt = 0 := rfl
      rw [if_neg (fun hlt => hroom (Int.ofNat_lt.mp (of_decide_eq_true hlt))), hzero,
        if_pos (decide_eq_true (by omega)), Nat.min_eq_left (by omega)]
  have hlt : min (size.toNat - 1) out.length < mem.length := by omega
  have htake : (out.take (size.toNat - 1)).length = min (size.toNat - 1) out.length := List.length_take
  rw [hstore, Out.store, if_pos ⟨Int.natCast_nonneg _, by rw [hbuf]; omega⟩]
  refine ⟨h.overrun, ?_⟩
  change o.buf.set (min (size.toNat - 1) out.length) 0 = _
  rw [h.buf, List.drop_eq_getElem_cons hlt, List.set_append_right _ _ htake.le, htake, Nat.sub_self,
    List.set_cons_zero]

/-- What `kvsnprintf` returns and leaves, if the complete output is `out`: nothing is stored outside the
buffer, which then begins with the first `size - 1` characters of the output and a 0. -/
structure Truncates (size : BitVec 32) (mem : List (BitVec 8)) (out : CString) (r : Int × Out) : Prop where
  returns : r.1 = out.length
  inside : r.2.overrun = false
  buf : r.2.buf = out.take (size.toNat - 1) ++ 0 :: mem.drop (min (size.toNat - 1) out.length + 1)

theorem kvsnprintf_spec (hs : Sized size mem) {fmt : CString} (hfmt : FormatComplete fmt) {args : VaList}
    (hlen : (kernelOutput fmt args).length < 2 ^ 31) :
    ∃ r, kvsnprintf mem size fmt args = some r ∧ Truncates size mem (kernelOutput fmt args) r := by
  obtain ⟨o, heq, h⟩ := kvsnprintfLoop_spec hs fmt args hfmt (newOut_emitted size mem) hlen.le
  obtain ⟨hinside, hbuf⟩ := h.terminate hs hlen
  refine ⟨(o.pos.toInt, o.terminate size), ?_, h.toInt_pos hlen, hinside, hbuf⟩
  rw [kvsnprintf, heq]
  rfl

/-- What two buffers have in common. -/
theorem Truncates.agree {size' : BitVec 32} {mem' : List (BitVec 8)} {r r' : Int × Out}
    (h : Truncates size mem out r) (h' : Truncates size' mem' out r') {i : Nat}
    (hi : i < min (min (size.toNat - 1) (size'.toNat - 1)) out.length) : r.2.buf[i]? = r'.2.buf[i]? := by
  have hread : ∀ {n : Nat} {rest : List (BitVec 8)}, i < n → (out.take n ++ rest)[i]? = out[i]? := by
    intro n rest hin
    rw [List.getElem?_append_left (by rw [List.length_take]; omega), List.getElem?_take_of_lt hin]
  rw [h.buf, h'.buf, hread (by omega), hread (by omega)]

end Emit

end AcornOS
