/-
# What the printers of numbers leave in memory

`Core/Kprintf.lean` and `Libc/Printf.lean` give the characters that a printer returns.  Here the printers
are taken down to their stores: digits go into a temporary array of fixed size, the last one first, and
from there into the caller's buffer, or straight into the buffer from its end.

* `Leaves`: a string has been written at an address, and not a byte more.
* `pushDigits_spec`: the array holds the digits, and is large enough for them if all numbers of the width
  have so few.
* **`printed_numbers_exact`**: what is written reads back as the number, in every base and width that is
  used, and the printer returns the number of characters.
-/
import AcornOS.Libc.Printf

namespace AcornOS

open Lib

/-! ## 1. The model -/

/-- A temporary array of digits.  `overrun`: a store was behind its end. -/
structure TmpDigits where
  chars : Nat → BitVec 8
  used : Nat
  overrun : Bool

/-- `tmp[i++] = c`, in an array of `room` characters. -/
def TmpDigits.push (room : Nat) (t : TmpDigits) (c : BitVec 8) : TmpDigits where
  chars := Function.update t.chars t.used c
  used := t.used + 1
  overrun := t.overrun || decide (room ≤ t.used)

/-- `while(n > 0) { tmp[i++] = digit(n % base); n /= base; }`.  `none`: the fuel is used up. -/
def pushDigits (room : Nat) (digit : Nat → BitVec 8) (base : Nat) :
    (fuel : Nat) → Nat → TmpDigits → Option TmpDigits
  | 0, _, _ => none
  | fuel + 1, n, t =>
    if n = 0 then some t else pushDigits room digit base fuel (n / base) (t.push room (digit (n % base)))

/-- What a printer returns, and the memory it leaves. -/
structure PrintResult where
  len : Nat
  mem : Memory
  overrun : Bool

/-- A printer of decimal numbers of `w` bits, with a temporary array of `room` characters that holds `junk`
at first.  It prints to the address `buf`. -/
def toDecAt (room : Nat) (junk : Nat → BitVec 8) (mem : Memory) (buf : Nat) {w : Nat} (n : BitVec w) :
    Option PrintResult :=
  if n = 0 then some ⟨1, Function.update mem (add64 buf 0) 0x30, false⟩
  else
    (pushDigits room decDigit 10 (w + 1) n.toNat ⟨junk, 0, false⟩).map fun tmp =>
      let len := tmp.used
      ⟨len, loop (fun j mem => Function.update mem (add64 buf j) (tmp.chars (len - 1 - j))) len mem,
        tmp.overrun⟩

/-- `uint_to_dec` -/
def uintToDecAt (junk : Nat → BitVec 8) (mem : Memory) (buf : Nat) (n : BitVec 32) : Option PrintResult :=
  toDecAt 10 junk mem buf n

/-- `uint64_to_dec` -/
def uint64ToDecAt (junk : Nat → BitVec 8) (mem : Memory) (buf : Nat) (n : BitVec 64) :
    Option PrintResult :=
  toDecAt 20 junk mem buf n

/-- A minus sign, and what is printed behind it. -/
def behindSign (print : Memory → Nat → Option PrintResult) (mem : Memory) (buf : Nat) :
    Option PrintResult :=
  (print (Function.update mem (add64 buf 0) 0x2D) (add64 buf 1)).map fun r => { r with len := 1 + r.len }

/-- `int_to_dec` -/
def intToDecAt (junk : Nat → BitVec 8) (mem : Memory) (buf : Nat) (n : BitVec 32) : Option PrintResult :=
  if n.slt 0 then behindSign (fun mem buf => uintToDecAt junk mem buf (-n)) mem buf
  else uintToDecAt junk mem buf n

/-- The loop of the hexadecimal printers, from `buf[i - 1]` down. -/
def toHexAt (buf : Nat) {w : Nat} : (i : Nat) → BitVec w → Memory → Memory
  | 0, _, mem => mem
  | i + 1, n, mem =>
    toHexAt buf i (n >>> 4) (Function.update mem (add64 buf i) (upperDigit (n &&& 0xF).toNat))

/-- `uint_to_hex` -/
def uintToHexAt (mem : Memory) (buf : Nat) (n : BitVec 32) : PrintResult :=
  ⟨8, toHexAt buf 8 n mem, false⟩

/-- `uint64_to_hex` -/
def uint64ToHexAt (mem : Memory) (buf : Nat) (n : BitVec 64) : PrintResult :=
  ⟨16, toHexAt buf 16 n mem, false⟩

/-- `while(i > 0) *buf++ = tmp[--i];`, after `j` rounds. -/
def popDigits (chars : Nat → BitVec 8) (buf : Nat) : (i j : Nat) → Memory → Memory
  | 0, _, mem => mem
  | i + 1, j, mem => popDigits chars buf i (j + 1) (Function.update mem (add64 buf j) (chars i))

/-- `format_uint` -/
def formatUintAt (junk : Nat → BitVec 8) (mem : Memory) (buf : Nat) (value : BitVec 64) (base : Nat) :
    Option PrintResult :=
  let tmp : TmpDigits := ⟨junk, 0, false⟩
  let tmp := if value = 0 then tmp.push 32 0x30 else tmp
  (pushDigits 32 lowerDigit base 65 value.toNat tmp).map fun tmp =>
    ⟨tmp.used, popDigits tmp.chars buf tmp.used 0 mem, tmp.overrun⟩

/-- `format_int` -/
def formatIntAt (junk : Nat → BitVec 8) (mem : Memory) (buf : Nat) (value : BitVec 64) (base : Nat) :
    Option PrintResult :=
  if value.slt 0 then behindSign (fun mem buf => formatUintAt junk mem buf (-value) base) mem buf
  else formatUintAt junk mem buf value base

/-! ## 2. Reading back -/

/-- The value of a digit, in either case; 16 for a character that is no digit. -/
def charValue (c : BitVec 8) : Nat :=
  if 0x30 ≤ c.toNat ∧ c.toNat ≤ 0x39 then c.toNat - 0x30
  else if 0x41 ≤ c.toNat ∧ c.toNat ≤ 0x46 then c.toNat - 0x37
  else if 0x61 ≤ c.toNat ∧ c.toNat ≤ 0x66 then c.toNat - 0x57
  else 16

/-- The string consists of digits of the base, and reads as the number. -/
structure Denotes (base : Nat) (s : CString) (n : Nat) : Prop where
  digits : ∀ c ∈ s, charValue c < base
  value : readNumeral charValue base s = n

/-- It is not empty, and begins with 0 only if that is all. -/
structure NoLeadingZero (s : CString) : Prop where
  ne_nil : s ≠ []
  lead : ∀ rest, s = 0x30 :: rest → rest = []

/-- The same with a minus sign in front of the numbers below 0. -/
structure DenotesInt (s : CString) (n : Int) : Prop where
  sign : s.head? = some 0x2D ↔ n < 0
  value : Denotes 10 (if n < 0 then s.tail else s) n.natAbs
  lead : NoLeadingZero (if n < 0 then s.tail else s)

/-- `Leaves mem buf s r`: the printer has written the characters of `s` from `buf` on and nothing else, and
returns their number.  Its temporary array was large enough. -/
structure Leaves (mem : Memory) (buf : Nat) (s : CString) (r : PrintResult) : Prop where
  len : r.len = s.length
  text : ∀ j < s.length, some (r.mem (add64 buf j)) = s[j]?
  others : ∀ a, (∀ j < s.length, a ≠ add64 buf j) → r.mem a = mem a
  inside : r.overrun = false

/-! ## 3. The temporary array -/

/-- The array holds the digits `s`. -/
structure TmpDigits.Holds (room : Nat) (t : TmpDigits) (s : List (BitVec 8)) : Prop where
  used : t.used = s.length
  chars : ∀ i < s.length, some (t.chars i) = s[i]?
  overrun : t.overrun = decide (room < s.length)

section Array

variable {room base : Nat} {t : TmpDigits} {s : List (BitVec 8)}

theorem TmpDigits.holds_nil (room : Nat) (junk : Nat → BitVec 8) :
    TmpDigits.Holds room ⟨junk, 0, false⟩ [] :=
  ⟨rfl, fun i hi => absurd hi (Nat.not_lt_zero i), rfl⟩

theorem TmpDigits.Holds.push (h : t.Holds room s) (c : BitVec 8) :
    (t.push room c).Holds room (s ++ [c]) := by
  have hused := h.used
  have hlen : (s ++ [c]).length = s.length + 1 := List.length_append
  refine ⟨?_, fun i hi => ?_, ?_⟩
  · rw [hlen, ← hused]
    rfl
  · change some (Function.update t.chars t.used c i) = _
    rw [hused]
    by_cases hlast : i = s.length
    · subst hlast
      rw [Function.update_self, List.getElem?_concat_length]
    · have hlt : i < s.length := by omega
      rw [Function.update_of_ne hlast, List.getElem?_append_left hlt]
      exact h.chars i hlt
  · change (t.overrun || decide (room ≤ t.used)) = _
    rw [h.overrun, hused, hlen]
    by_cases hroom : room ≤ s.length
    · rw [decide_eq_true hroom, Bool.or_true, decide_eq_true (Nat.lt_succ_of_le hroom)]
    · rw [decide_eq_false hroom, Bool.or_false, decide_eq_false (by omega), decide_eq_false (by omega)]

/-- **The loop that divides** pushes the digits that `digitLoop` lists. -/
theorem pushDigits_spec (digit : Nat → BitVec 8) {fuel : Nat} : ∀ {n : Nat} {t : TmpDigits}
    {s : List (BitVec 8)}, n < base ^ fuel → t.Holds room s →
    ∃ t', pushDigits room digit base (fuel + 1) n t = some t' ∧
      t'.Holds room (s ++ digitLoop digit base fuel n) := by
  induction fuel with
  | zero =>
    intro n t s hn h
    obtain rfl : n = 0 := Nat.lt_one_iff.mp hn
    exact ⟨t, rfl, by rwa [digitLoop, List.append_nil]⟩
  | succ fuel ih =>
    intro n t s hn h
    rw [pushDigits, digitLoop]
    by_cases hzero : n = 0
    · rw [if_pos hzero, if_pos hzero, List.append_nil]
      exact ⟨t, rfl, h⟩
    · rw [if_neg hzero, if_neg hzero, List.append_cons]
      exact ih (Nat.div_lt_of_lt_mul (by rwa [← Nat.pow_succ'])) (h.push _)

end Array

/-! ## 4. The buffer -/

/-- `PutAt mem m buf D g`: from `mem` to `m` the characters `g` have been stored at the places `D` of the
buffer, and nothing else has been stored. -/
structure PutAt (mem m : Memory) (buf : Nat) (D : Set Nat) (g : Nat → BitVec 8) : Prop where
  there : ∀ j ∈ D, m (add64 buf j) = g j
  others : ∀ a, (∀ j ∈ D, a ≠ add64 buf j) → m a = mem a

section Buffer

variable {mem m : Memory} {buf room len : Nat} {D : Set Nat} {g : Nat → BitVec 8} {s : CString}

theorem PutAt.refl (mem : Memory) (buf : Nat) (g : Nat → BitVec 8) : PutAt mem mem buf ∅ g :=
  ⟨fun _ hj => absurd hj (Set.notMem_empty _), fun _ _ => rfl⟩

/-- One store. -/
theorem PutAt.store {j : Nat} (h : PutAt mem m buf D g) (hD : ∀ i ∈ D, i < 2 ^ 64) (hj : j < 2 ^ 64) :
    PutAt mem (Function.update m (add64 buf j) (g j)) buf (insert j D) g where
  there i hi := by
    by_cases hij : i = j
    · rw [hij, Function.update_self]
    · have hiD : i ∈ D := hi.resolve_left hij
      rw [Function.update_of_ne fun heq => hij (add64_inj (hD i hiD) hj heq)]
      exact h.there i hiD
  others a ha := by
    rw [Function.update_of_ne (ha j (Set.mem_insert _ _))]
    exact h.others a fun i hi => ha i (Set.mem_insert_of_mem _ hi)

/-- The next place behind those that are full. -/
theorem PutAt.next {j : Nat} (h : PutAt mem m buf {i | i < j} g) (hj : j < 2 ^ 64) :
    PutAt mem (Function.update m (add64 buf j) (g j)) buf {i | i < j + 1} g := by
  have hset : {i | i < j + 1} = insert j {i | i < j} := by
    ext i
    simp only [Set.mem_ofPred_eq, Set.mem_insert_iff]
    omega
  rw [hset]
  exact h.store (fun i hi => hi.trans hj) hj

/-- A full buffer. -/
theorem PutAt.leaves (h : PutAt mem m buf {j | j < s.length} g)
    (hg : ∀ j < s.length, some (g j) = s[j]?) : Leaves mem buf s ⟨s.length, m, false⟩ where
  len := rfl
  text j hj := (congrArg some (h.there j hj)).trans (hg j hj)
  others a ha := h.others a ha
  inside := rfl

/-- The loop that turns the digits round. -/
theorem turnRound_putAt (mem : Memory) (buf : Nat) (g : Nat → BitVec 8) (hlen : len ≤ 2 ^ 64) :
    PutAt mem (loop (fun j mem => Function.update mem (add64 buf j) (g j)) len mem) buf
      {j | j < len} g := by
  refine loop_invariant (I := fun k m => PutAt mem m buf {j | j < k} g) ?_ fun k m hk hm =>
    hm.next (hk.trans_le hlen)
  have hnone : {j | j < 0} = (∅ : Set Nat) := by simp
  rw [hnone]
  exact PutAt.refl mem buf g

/-- The same loop with two counters. -/
theorem popDigits_putAt {chars : Nat → BitVec 8} (hlen : len ≤ 2 ^ 64) : ∀ (i : Nat) {j : Nat} {m : Memory},
    i + j = len → PutAt mem m buf {k | k < j} (fun k => chars (len - 1 - k)) →
    PutAt mem (popDigits chars buf i j m) buf {k | k < len} fun k => chars (len - 1 - k)
  | 0, j, m, hij, h => by
    obtain rfl : j = len := by omega
    exact h
  | i + 1, j, m, hij, h => by
    have hchar : chars i = chars (len - 1 - j) := congrArg chars (by omega)
    rw [popDigits, hchar]
    exact popDigits_putAt hlen i (by omega) (h.next (by omega))

/-- Digits that were found in the wrong order. -/
theorem TmpDigits.Holds.reverse {t : TmpDigits} (h : t.Holds room s) :
    ∀ j < s.reverse.length, some (t.chars (s.length - 1 - j)) = s.reverse[j]? := by
  intro j hj
  rw [List.length_reverse] at hj
  rw [List.getElem?_reverse hj]
  exact h.chars _ (by omega)

/-- **The printers of decimal numbers.** -/
theorem toDecAt_leaves {w : Nat} (junk : Nat → BitVec 8) (mem : Memory) (buf : Nat) (n : BitVec w)
    (hroom : 2 ^ w ≤ 10 ^ room) (hlt : room < 2 ^ 64) :
    ∃ r, toDecAt room junk mem buf n = some r ∧ Leaves mem buf (toDec room n).chars r := by
  have hinside := toDec_overrun n hroom
  unfold toDecAt
  unfold toDec at hinside ⊢
  by_cases hzero : n = 0
  · rw [if_pos hzero, if_pos hzero]
    have hput : PutAt mem (Function.update mem (add64 buf 0) 0x30) buf {j | j < 1} fun _ => 0x30 :=
      @turnRound_putAt 1 mem buf (fun _ => 0x30) (by decide)
    refine ⟨_, rfl, hput.leaves (s := [0x30]) fun j hj => ?_⟩
    obtain rfl : j = 0 := Nat.lt_one_iff.mp hj
    rfl
  · rw [if_neg hzero] at hinside ⊢
    rw [if_neg hzero]
    have hfuel : n.toNat < 10 ^ w := n.isLt.trans_le (Nat.pow_le_pow_left (by decide) w)
    obtain ⟨t, ht, hold⟩ := pushDigits_spec decDigit hfuel (TmpDigits.holds_nil room junk)
    rw [List.nil_append] at hold
    rw [ht]
    dsimp only at hinside ⊢
    generalize digitLoop decDigit 10 w n.toNat = s at *
    have hlen : s.length ≤ 2 ^ 64 := (Nat.not_lt.mp (of_decide_eq_false hinside)).trans hlt.le
    have hput := turnRound_putAt mem buf (fun j => t.chars (s.length - 1 - j)) hlen
    refine ⟨_, rfl, ?_⟩
    dsimp only
    rw [hold.used, hold.overrun, hinside]
    have hleaves := PutAt.leaves (s := s.reverse) (by rwa [List.length_reverse]) hold.reverse
    rwa [List.length_reverse] at hleaves

/-- **A sign in front.** -/
theorem behindSign_leaves {print : Memory → Nat → Option PrintResult} (mem : Memory) (buf : Nat)
    (h : ∀ mem buf, ∃ r, print mem buf = some r ∧ Leaves mem buf s r) (hlen : s.length + 1 < 2 ^ 64) :
    ∃ r, behindSign print mem buf = some r ∧ Leaves mem buf (0x2D :: s) r := by
  obtain ⟨r, hr, hleaves⟩ := h (Function.update mem (add64 buf 0) 0x2D) (add64 buf 1)
  have hplace : ∀ j, add64 (add64 buf 1) j = add64 buf (j + 1) := fun j => by
    rw [add64_add64, Nat.add_comm]
  refine ⟨{ r with len := 1 + r.len }, by rw [behindSign, hr]; rfl, ?_, fun j hj => ?_, fun a ha => ?_,
    hleaves.inside⟩
  · change 1 + r.len = _
    rw [hleaves.len, List.length_cons, Nat.add_comm]
  · cases j with
    | zero =>
      have hsign : r.mem (add64 buf 0) = 0x2D := by
        refine (hleaves.others _ fun j hj heq => ?_).trans (Function.update_self ..)
        rw [hplace] at heq
        exact absurd (add64_inj (by decide) (by omega) heq) (Nat.succ_ne_zero j).symm
      exact congrArg some hsign
    | succ j =>
      rw [List.length_cons] at hj
      have htext := hleaves.text j (Nat.lt_of_succ_lt_succ hj)
      rw [hplace] at htext
      exact htext
  · refine (hleaves.others a fun j hj => ?_).trans (Function.update_of_ne (ha 0 (Nat.succ_pos _)) _ _)
    rw [hplace]
    exact ha (j + 1) (Nat.succ_lt_succ hj)

/-- The loop of the hexadecimal printers: the places from `i` on are full, and `rest` is there. -/
theorem toHexAt_putAt {w : Nat} (hw : 4 ≤ w) (hlen : s.length ≤ 2 ^ 64) : ∀ (i : Nat) {n : BitVec w}
    {m : Memory} {rest : CString}, toHex i n rest = s →
    PutAt mem m buf {j | i ≤ j ∧ j < s.length} (fun j => s.getD j 0) →
    PutAt mem (toHexAt buf i n m) buf {j | j < s.length} fun j => s.getD j 0
  | 0, n, m, rest, _, h => by
    have hset : {j | 0 ≤ j ∧ j < s.length} = {j | j < s.length} := by simp
    rwa [hset] at h
  | i + 1, n, m, rest, hs, h => by
    have hsplit : s = fixedNumeral upperDigit 16 i (n >>> 4).toNat ++ upperDigit (n &&& 0xF).toNat :: rest :=
      hs.symm.trans (toHex_eq i _ hw _)
    have hfront := length_fixedNumeral upperDigit (b := 16) i (n >>> 4).toNat
    have hi : i < s.length := by
      rw [hsplit, List.length_append, hfront, List.length_cons]
      omega
    have hdigit : upperDigit (n &&& 0xF).toNat = s.getD i 0 := by
      rw [hsplit, List.getD_append_right _ _ _ _ hfront.le, hfront, Nat.sub_self]
      rfl
    have hset : {j | i ≤ j ∧ j < s.length} = insert i {j | i + 1 ≤ j ∧ j < s.length} := by
      ext j
      simp only [Set.mem_ofPred_eq, Set.mem_insert_iff]
      omega
    rw [toHexAt, hdigit]
    refine toHexAt_putAt hw hlen i hs ?_
    rw [hset]
    exact h.store (fun j hj => hj.2.trans_le hlen) (hi.trans_le hlen)

/-- **The hexadecimal printers.** -/
theorem toHexAt_leaves {w : Nat} (hw : 4 ≤ w) (places : Nat) (mem : Memory) (buf : Nat) (n : BitVec w)
    (hlt : places ≤ 2 ^ 64) : Leaves mem buf (fixedNumeral upperDigit 16 places n.toNat)
      ⟨places, toHexAt buf places n mem, false⟩ := by
  have hs : toHex places n [] = fixedNumeral upperDigit 16 places n.toNat := by
    rw [toHex_eq places n hw, List.append_nil]
  have hlen := length_fixedNumeral upperDigit (b := 16) places n.toNat
  generalize fixedNumeral upperDigit 16 places n.toNat = s at *
  subst hlen
  have hnone : {j | s.length ≤ j ∧ j < s.length} = (∅ : Set Nat) :=
    Set.eq_empty_of_forall_notMem fun j hj => absurd hj.2 (Nat.not_lt.mpr hj.1)
  have hput := toHexAt_putAt hw hlt s.length hs (hnone ▸ PutAt.refl mem buf _)
  refine hput.leaves fun j hj => ?_
  rw [List.getD_eq_getElem _ _ hj, List.getElem?_eq_getElem hj]

/-- **`format_uint`**, in a base in which the array is large enough. -/
theorem formatUintAt_leaves {base : Nat} (junk : Nat → BitVec 8) (mem : Memory) (buf : Nat)
    (value : BitVec 64) (hbase : 1 < base) (hroom : 2 ^ 64 ≤ base ^ 32) :
    ∃ r, formatUintAt junk mem buf value base = some r ∧ Leaves mem buf (formatUint value base).chars r := by
  have hfuel : value.toNat < base ^ 64 :=
    value.isLt.trans_le (hroom.trans (Nat.pow_le_pow_right (by omega) (by decide)))
  have hinside : (formatUint value base).overrun = false := by rw [formatUint_eq value hbase hroom]
  have hstart : (if value = 0 then (⟨junk, 0, false⟩ : TmpDigits).push 32 0x30
      else ⟨junk, 0, false⟩).Holds 32 (if value = 0 then [0x30] else []) := by
    split
    · exact (TmpDigits.holds_nil 32 junk).push 0x30
    · exact TmpDigits.holds_nil 32 junk
  obtain ⟨t, ht, hold⟩ := pushDigits_spec lowerDigit hfuel hstart
  unfold formatUintAt
  unfold formatUint at hinside ⊢
  dsimp only at hinside ⊢
  rw [ht]
  generalize (if value = 0 then [0x30] else []) ++ digitLoop lowerDigit base 64 value.toNat = s at *
  have hlen : s.length ≤ 2 ^ 64 := (Nat.not_lt.mp (of_decide_eq_false hinside)).trans (by decide)
  have hnone : {j | j < 0} = (∅ : Set Nat) := by simp
  have hput : PutAt mem (popDigits t.chars buf s.length 0 mem) buf {j | j < s.length} _ :=
    popDigits_putAt hlen s.length rfl (hnone ▸ PutAt.refl mem buf _)
  refine ⟨_, rfl, ?_⟩
  dsimp only
  rw [hold.used, hold.overrun, hinside]
  have hleaves := PutAt.leaves (s := s.reverse) (by rwa [List.length_reverse]) hold.reverse
  rwa [List.length_reverse] at hleaves

end Buffer

/-! ## 5. What is read back -/

section Reading

variable {base n : Nat} {digit : Nat → BitVec 8}

theorem charValue_decDigit : ∀ d < 10, charValue (decDigit d) = d := by decide

theorem charValue_upperDigit : ∀ d < 16, charValue (upperDigit d) = d := by decide

theorem charValue_lowerDigit : ∀ d < 16, charValue (lowerDigit d) = d := by decide

theorem denotes_numeral (hb : 1 < base) (hvalue : ∀ d < base, charValue (digit d) = d) (n : Nat) :
    Denotes base (numeral digit base n) n := by
  refine ⟨fun c hc => ?_, readNumeral_numeral digit hb hvalue n⟩
  obtain ⟨d, hd, rfl⟩ := mem_numeral digit hb hc
  rwa [hvalue d hd]

theorem noLeadingZero_numeral (hb : 1 < base) (hvalue : ∀ d < base, charValue (digit d) = d) (n : Nat) :
    NoLeadingZero (numeral digit base n) :=
  ⟨numeral_ne_nil digit base n, fun rest heq =>
    (numeral_canonical digit hb hvalue n).lead 0x30 rest heq (by decide)⟩

theorem denotes_fixedNumeral (hb : 0 < base) (hvalue : ∀ d < base, charValue (digit d) = d) {width : Nat}
    (h : n < base ^ width) : Denotes base (fixedNumeral digit base width n) n := by
  refine ⟨fun c hc => ?_, ?_⟩
  · obtain ⟨d, hd, rfl⟩ := mem_fixedNumeral digit hb hc
    rwa [hvalue d hd]
  · rw [readNumeral_fixedNumeral digit hb hvalue, Nat.mod_eq_of_lt h]

/-- A minus sign is no digit. -/
theorem denotesInt_decimal (n : Int) : DenotesInt (decimal n) n := by
  have hnumeral := denotes_numeral (by decide) charValue_decDigit n.natAbs
  have hlead := noLeadingZero_numeral (by decide) charValue_decDigit n.natAbs
  unfold decimal
  by_cases hneg : n < 0
  · rw [if_pos hneg]
    refine ⟨iff_of_true rfl hneg, ?_, ?_⟩
    · rwa [if_pos hneg]
    · rwa [if_pos hneg]
  · rw [if_neg hneg]
    refine ⟨iff_of_false (fun hsign => ?_) hneg, ?_, ?_⟩
    · exact absurd (hnumeral.digits _ (List.mem_of_mem_head? hsign)) (by decide)
    · rwa [if_neg hneg]
    · rwa [if_neg hneg]

end Reading

/-! ## 6. The printers -/

section Printers

variable {w : Nat} {print : (Nat → BitVec 8) → Memory → Nat → BitVec w → Option PrintResult}

/-- `Prints print base n`: whatever was in memory, the printer leaves the same numeral of `n` there. -/
def Prints (print : (Nat → BitVec 8) → Memory → Nat → Option PrintResult) (base n : Nat) : Prop :=
  ∃ s, Denotes base s n ∧ NoLeadingZero s ∧
    ∀ junk mem buf, ∃ r, print junk mem buf = some r ∧ Leaves mem buf s r

/-- The same for a number with a sign. -/
def PrintsInt (print : (Nat → BitVec 8) → Memory → Nat → Option PrintResult) (n : Int) : Prop :=
  ∃ s, DenotesInt s n ∧ ∀ junk mem buf, ∃ r, print junk mem buf = some r ∧ Leaves mem buf s r

/-- The same for as many hexadecimal digits as there are places. -/
def PrintsHex (print : Memory → Nat → PrintResult) (places n : Nat) : Prop :=
  ∃ s, s.length = places ∧ Denotes 16 s n ∧ ∀ mem buf, Leaves mem buf s (print mem buf)

/-- A printer that leaves numerals. -/
theorem prints_numeral {print : (Nat → BitVec 8) → Memory → Nat → Option PrintResult} {base n : Nat}
    {digit : Nat → BitVec 8} (hb : 1 < base) (hvalue : ∀ d < base, charValue (digit d) = d)
    (h : ∀ junk mem buf, ∃ r, print junk mem buf = some r ∧ Leaves mem buf (numeral digit base n) r) :
    Prints print base n :=
  ⟨_, denotes_numeral hb hvalue n, noLeadingZero_numeral hb hvalue n, h⟩

theorem toDecAt_prints {room : Nat} (n : BitVec w) (hroom : 2 ^ w ≤ 10 ^ room) (hlt : room < 2 ^ 64) :
    Prints (fun junk mem buf => toDecAt room junk mem buf n) 10 n.toNat := by
  refine prints_numeral (by decide) charValue_decDigit fun junk mem buf => ?_
  rw [← toDec_chars room n]
  exact toDecAt_leaves junk mem buf n hroom hlt

theorem formatUintAt_prints {base : Nat} (value : BitVec 64) (hbase : 1 < base) (hle : base ≤ 16)
    (hroom : 2 ^ 64 ≤ base ^ 32) :
    Prints (fun junk mem buf => formatUintAt junk mem buf value base) base value.toNat := by
  refine prints_numeral hbase (fun d hd => charValue_lowerDigit d (hd.trans_le hle)) fun junk mem buf => ?_
  have hleaves := formatUintAt_leaves junk mem buf value hbase hroom
  rwa [formatUint_eq value hbase hroom] at hleaves

/-- **With a sign.**  The word is negated where it is less than 0, and at the least of all that changes
nothing: the word is still its absolute value. -/
theorem printsInt_signed {k : Nat} (hroom : 2 ^ w ≤ 10 ^ k) (hk : 0 < k) (hlt : k + 1 < 2 ^ 64)
    (h : ∀ junk mem buf n, ∃ r, print junk mem buf n = some r ∧
      Leaves mem buf (numeral decDigit 10 n.toNat) r) (n : BitVec w) :
    PrintsInt (fun junk mem buf => if n.slt 0 then behindSign (fun mem buf => print junk mem buf (-n)) mem buf
      else print junk mem buf n) n.toInt := by
  refine ⟨decimal n.toInt, denotesInt_decimal n.toInt, fun junk mem buf => ?_⟩
  unfold decimal
  dsimp only
  by_cases hneg : n.slt 0 = true
  · have hshort := (length_decimal_word (-n) hk hroom).1
    rw [if_pos hneg, if_pos (slt_zero_iff.mp hneg), ← toNat_neg_of_slt hneg]
    exact behindSign_leaves mem buf (fun mem buf => h junk mem buf (-n)) (by omega)
  · rw [if_neg hneg, if_neg (fun hlt => hneg (slt_zero_iff.mpr hlt)), ← toNat_of_not_slt hneg]
    exact h junk mem buf n

theorem toHexAt_prints (hw : 4 ≤ w) {places : Nat} (hlt : places ≤ 2 ^ 64) (n : BitVec w)
    (hfit : n.toNat < 16 ^ places) :
    PrintsHex (fun mem buf => ⟨places, toHexAt buf places n mem, false⟩) places n.toNat :=
  ⟨_, length_fixedNumeral _ _ _, denotes_fixedNumeral (by decide) charValue_upperDigit hfit,
    fun mem buf => toHexAt_leaves hw places mem buf n hlt⟩

/-- **Printed numbers are exact.**  Every printer leaves a numeral of its number in the buffer, in its base,
without a leading zero unless it has a fixed width, and not a byte more; it returns the number of
characters, and its temporary array is large enough. -/
theorem printed_numbers_exact :
    (∀ n, Prints (fun junk mem buf => uintToDecAt junk mem buf n) 10 n.toNat) ∧
    (∀ n, PrintsInt (fun junk mem buf => intToDecAt junk mem buf n) n.toInt) ∧
    (∀ n, Prints (fun junk mem buf => uint64ToDecAt junk mem buf n) 10 n.toNat) ∧
    (∀ value base, base = 10 ∨ base = 16 →
      Prints (fun junk mem buf => formatUintAt junk mem buf value base) base value.toNat) ∧
    (∀ value, PrintsInt (fun junk mem buf => formatIntAt junk mem buf value 10) value.toInt) ∧
    (∀ n, PrintsHex (fun mem buf => uintToHexAt mem buf n) 8 n.toNat) ∧
    (∀ n, PrintsHex (fun mem buf => uint64ToHexAt mem buf n) 16 n.toNat) := by
  refine ⟨fun n => ?_, fun n => ?_, fun n => ?_, fun value base hbase => ?_, fun value => ?_, fun n => ?_,
    fun n => ?_⟩
  · exact toDecAt_prints n (by decide) (by decide)
  · refine @printsInt_signed 32 uintToDecAt 10 (by decide) (by decide) (by decide)
      (fun junk mem buf n => ?_) n
    have hleaves := @toDecAt_leaves 10 32 junk mem buf n (by decide) (by decide)
    rwa [toDec_chars] at hleaves
  · exact toDecAt_prints n (by decide) (by decide)
  · rcases hbase with rfl | rfl
    · exact formatUintAt_prints value (by decide) (by decide) (by decide)
    · exact formatUintAt_prints value (by decide) (by decide) (by decide)
  · refine @printsInt_signed 64 (fun junk mem buf value => formatUintAt junk mem buf value 10) 20
      (by decide) (by decide) (by decide) (fun junk mem buf value => ?_) value
    have hleaves := @formatUintAt_leaves 10 junk mem buf value (by decide) (by decide)
    rwa [formatUint_eq value (by decide) (by decide),
      numeral_congr lowerDigit (by decide) lowerDigit_eq] at hleaves
  · exact toHexAt_prints (by decide) (by decide) n (n.isLt.trans_le (by decide))
  · exact toHexAt_prints (by decide) (by decide) n (n.isLt.trans_le (by decide))

end Printers

end AcornOS
