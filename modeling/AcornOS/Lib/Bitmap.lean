/-
# Bitmaps held in bytes

One bit for each number, eight to a byte: number `n` is bit `n % 8` of byte `n / 8`.  The
bytes are a total function, so a bitmap can be indexed past the part anybody initialised,
exactly as the memory behind it can.

The three operations are `set`, `clear` and `get`; `get_set` and `get_clear` say they touch one
number and no other, and `ext_get` says a bitmap IS its bits, so that two bitmaps agreeing on
every number are the same bytes.
-/
import AcornOS.Lib.Run

namespace AcornOS.Lib

/-- The bytes of a bitmap. -/
abbrev Bitmap := Nat → BitVec 8

namespace Bitmap

/-- `bitmap[n / 8] |= 1 << (n % 8)` -/
def set (b : Bitmap) (n : Nat) : Bitmap :=
  Function.update b (n / 8) (b (n / 8) ||| (1#8 <<< (n % 8)))

/-- `bitmap[n / 8] &= ~(1 << (n % 8))` -/
def clear (b : Bitmap) (n : Nat) : Bitmap :=
  Function.update b (n / 8) (b (n / 8) &&& ~~~(1#8 <<< (n % 8)))

/-- `(bitmap[n / 8] & (1 << (n % 8))) != 0` -/
def get (b : Bitmap) (n : Nat) : Bool := (b (n / 8) &&& (1#8 <<< (n % 8))) != 0#8

/-- The mask test reads the bit. -/
theorem and_shift_ne_zero (x : BitVec 8) {k : Nat} (hk : k < 8) :
    ((x &&& (1#8 <<< k)) != 0#8) = x.getLsbD k := by
  have hbit : ∀ i, (x &&& (1#8 <<< k)).getLsbD i = (x.getLsbD i && decide (i = k)) := by
    intro i
    simp only [BitVec.getLsbD_and, BitVec.getLsbD_shiftLeft, BitVec.getLsbD_one]
    by_cases hi : i < 8
    · grind
    · simp [BitVec.getLsbD_of_ge x i (by omega)]
  cases hx : x.getLsbD k with
  | true =>
    have hne : (x &&& (1#8 <<< k)) ≠ 0#8 := by
      intro h0
      have := hbit k
      rw [h0] at this
      simp [hx] at this
    simpa using hne
  | false =>
    have h0 : (x &&& (1#8 <<< k)) = 0#8 := by
      apply BitVec.eq_of_getLsbD_eq
      intro i _
      rw [hbit]
      by_cases hik : i = k
      · subst hik; simp [hx]
      · simp [hik]
    simp [h0]

theorem get_eq_getLsbD (b : Bitmap) (n : Nat) : b.get n = (b (n / 8)).getLsbD (n % 8) :=
  and_shift_ne_zero _ (Nat.mod_lt _ (by decide))

/-- Setting a number sets that number and no other. -/
theorem get_set (b : Bitmap) (p q : Nat) : (b.set p).get q = (b.get q || decide (q = p)) := by
  rw [get_eq_getLsbD, get_eq_getLsbD, set]
  by_cases hd : q / 8 = p / 8
  · rw [hd, Function.update_self, BitVec.getLsbD_or, BitVec.getLsbD_shiftLeft]
    have hq : q % 8 < 8 := Nat.mod_lt _ (by decide)
    have hp : p % 8 < 8 := Nat.mod_lt _ (by decide)
    have hiff : q = p ↔ q % 8 = p % 8 := by omega
    simp only [BitVec.getLsbD_one, hiff]
    grind
  · rw [Function.update_of_ne hd]
    have hne : q ≠ p := fun h => hd (by rw [h])
    simp [hne]

/-- Clearing a number clears that number and no other. -/
theorem get_clear (b : Bitmap) (p q : Nat) :
    (b.clear p).get q = (b.get q && decide (q ≠ p)) := by
  rw [get_eq_getLsbD, get_eq_getLsbD, clear]
  by_cases hd : q / 8 = p / 8
  · rw [hd, Function.update_self, BitVec.getLsbD_and, BitVec.getLsbD_not,
      BitVec.getLsbD_shiftLeft]
    have hq : q % 8 < 8 := Nat.mod_lt _ (by decide)
    have hp : p % 8 < 8 := Nat.mod_lt _ (by decide)
    have hiff : q ≠ p ↔ q % 8 ≠ p % 8 := by omega
    simp only [BitVec.getLsbD_one, hiff]
    grind
  · rw [Function.update_of_ne hd]
    have hne : q ≠ p := fun h => hd (by rw [h])
    simp [hne]

/-- A bitmap is its bits. -/
theorem ext_get {b b' : Bitmap} (h : ∀ n, b.get n = b'.get n) : b = b' := by
  funext i
  apply BitVec.eq_of_getLsbD_eq
  intro k hk
  have hn := h (8 * i + k)
  rw [get_eq_getLsbD, get_eq_getLsbD] at hn
  rwa [show (8 * i + k) / 8 = i by omega, show (8 * i + k) % 8 = k by omega] at hn

/-- A byte of ones holds eight set bits. -/
theorem get_of_ones {b : Bitmap} {n : Nat} (h : b (n / 8) = 0xFF#8) : b.get n = true := by
  have hall : ∀ k, k < 8 → (0xFF#8).getLsbD k = true := by decide
  rw [get_eq_getLsbD, h]
  exact hall _ (Nat.mod_lt _ (by decide))

end Bitmap

end AcornOS.Lib
