/-
# Byte memory with little-endian 64-bit words

Memory is a map from addresses to bytes.  Programs read and write it in words as well as in
bytes, and the two views have to agree: a page-table entry is written as a word and copied byte
by byte.  `load64` and `store64` are defined on the bytes, so the agreement is by definition, and
the lemmas below are all a proof needs: what a store leaves alone, what a load reads back, and
that a load depends on its eight bytes only.
-/
import AcornOS.Lib.Run

namespace AcornOS.Lib

/-- Memory: the byte at an address. -/
abbrev Memory := Nat → BitVec 8

/-- The word at `a`, lowest byte first. -/
def load64 (m : Memory) (a : Nat) : Nat :=
  (m a).toNat + 2 ^ 8 * (m (a + 1)).toNat + 2 ^ 16 * (m (a + 2)).toNat +
    2 ^ 24 * (m (a + 3)).toNat + 2 ^ 32 * (m (a + 4)).toNat + 2 ^ 40 * (m (a + 5)).toNat +
    2 ^ 48 * (m (a + 6)).toNat + 2 ^ 56 * (m (a + 7)).toNat

/-- Writing the word `v` at `a`. -/
def store64 (m : Memory) (a v : Nat) : Memory := fun x =>
  if a ≤ x ∧ x < a + 8 then BitVec.ofNat 8 (v / 256 ^ (x - a)) else m x

section Words

variable {m m' : Memory} {a b v : Nat}

theorem load64_lt (m : Memory) (a : Nat) : load64 m a < 2 ^ 64 := by
  have hb : ∀ x, (m x).toNat < 256 := fun x => (m x).isLt
  have h0 := hb a
  have h1 := hb (a + 1)
  have h2 := hb (a + 2)
  have h3 := hb (a + 3)
  have h4 := hb (a + 4)
  have h5 := hb (a + 5)
  have h6 := hb (a + 6)
  have h7 := hb (a + 7)
  unfold load64
  omega

/-- A load depends on its eight bytes only, wherever they are. -/
theorem load64_eq_of_bytes (h : ∀ k < 8, m' (a + k) = m (b + k)) : load64 m' a = load64 m b := by
  have h0 := h 0 (by decide)
  rw [Nat.add_zero, Nat.add_zero] at h0
  unfold load64
  rw [h0, h 1 (by decide), h 2 (by decide), h 3 (by decide), h 4 (by decide), h 5 (by decide),
    h 6 (by decide), h 7 (by decide)]

theorem load64_congr (h : ∀ k < 8, m' (a + k) = m (a + k)) : load64 m' a = load64 m a :=
  load64_eq_of_bytes h

theorem store64_byte {k : Nat} (hk : k < 8) :
    (store64 m a v (a + k)).toNat = v / 256 ^ k % 256 := by
  rw [store64, if_pos (by omega), Nat.add_sub_cancel_left, BitVec.toNat_ofNat]

theorem store64_of_outside {x : Nat} (h : x < a ∨ a + 8 ≤ x) : store64 m a v x = m x := by
  rw [store64, if_neg (by omega)]

@[simp] theorem load64_store64_self (hv : v < 2 ^ 64) : load64 (store64 m a v) a = v := by
  have h0 := @store64_byte m a v 0 (by decide)
  unfold load64
  rw [Nat.add_zero] at h0
  rw [h0, store64_byte (by decide), store64_byte (by decide), store64_byte (by decide),
    store64_byte (by decide), store64_byte (by decide), store64_byte (by decide),
    store64_byte (by decide)]
  norm_num
  omega

theorem load64_store64_of_apart (h : b + 8 ≤ a ∨ a + 8 ≤ b) :
    load64 (store64 m a v) b = load64 m b :=
  load64_congr fun k hk => store64_of_outside (by omega)

/-- Of two stores at one address the second one counts. -/
theorem store64_store64 (w : Nat) : store64 (store64 m a w) a v = store64 m a v := by
  funext x
  unfold store64
  split <;> rfl

end Words

-- unification must not try to evaluate the sums of bytes
attribute [irreducible] load64 store64

end AcornOS.Lib
