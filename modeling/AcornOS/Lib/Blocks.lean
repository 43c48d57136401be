/-
# Doublewords and string instructions

What 32-bit code does to byte memory: `mov dword [a], v`, `rep stosd` and `rep movsb`.  A quadword is
two doublewords, and two aligned doublewords are one or apart, which is all that proofs about tables
of them need.
-/
import AcornOS.Lib.Memory

namespace AcornOS.Lib

/-- The doubleword at `a`, lowest byte first. -/
def load32 (m : Memory) (a : Nat) : Nat :=
  (m a).toNat + 2 ^ 8 * (m (a + 1)).toNat + 2 ^ 16 * (m (a + 2)).toNat + 2 ^ 24 * (m (a + 3)).toNat

/-- `mov dword [a], v` -/
def store32 (m : Memory) (a v : Nat) : Memory := fun x =>
  if a ≤ x ∧ x < a + 4 then BitVec.ofNat 8 (v / 256 ^ (x - a)) else m x

/-- The word at `a`. -/
def load16 (m : Memory) (a : Nat) : Nat := (m a).toNat + 2 ^ 8 * (m (a + 1)).toNat

/-- `mov word [a], v` -/
def store16 (m : Memory) (a v : Nat) : Memory := fun x =>
  if a ≤ x ∧ x < a + 2 then BitVec.ofNat 8 (v / 256 ^ (x - a)) else m x

/-- `rep stosd` -/
def repStosd (m : Memory) (edi eax ecx : Nat) : Memory :=
  loop (fun i m => store32 m ((edi + 4 * i) % 2 ^ 32) eax) ecx m

/-- `rep movsb`.  What it has written it may read again. -/
def repMovsb (m : Memory) (esi edi ecx : Nat) : Memory :=
  loop (fun i m => Function.update m ((edi + i) % 2 ^ 32) (m ((esi + i) % 2 ^ 32))) ecx m

section Doublewords

variable {m : Memory} {a b v x : Nat}

theorem load32_lt (m : Memory) (a : Nat) : load32 m a < 2 ^ 32 := by
  have h0 := (m a).isLt
  have h1 := (m (a + 1)).isLt
  have h2 := (m (a + 2)).isLt
  have h3 := (m (a + 3)).isLt
  unfold load32
  omega

theorem load64_eq_load32 (m : Memory) (a : Nat) :
    load64 m a = load32 m a + 2 ^ 32 * load32 m (a + 4) := by
  unfold load64 load32
  simp only [Nat.add_assoc, Nat.reduceAdd]
  omega

theorem load32_eq_of_bytes {m' : Memory} (h : ∀ k < 4, m' (a + k) = m (b + k)) :
    load32 m' a = load32 m b := by
  have h0 := h 0 (by decide)
  rw [Nat.add_zero, Nat.add_zero] at h0
  unfold load32
  rw [h0, h 1 (by decide), h 2 (by decide), h 3 (by decide)]

theorem load32_congr {m' : Memory} (h : ∀ k < 4, m' (a + k) = m (a + k)) : load32 m' a = load32 m a :=
  load32_eq_of_bytes h

theorem store32_of_outside (h : x < a ∨ a + 4 ≤ x) : store32 m a v x = m x := by
  rw [store32, if_neg (by omega)]

@[simp] theorem load32_store32_self (hv : v < 2 ^ 32) : load32 (store32 m a v) a = v := by
  have hbyte : ∀ k < 4, (store32 m a v (a + k)).toNat = v / 256 ^ k % 256 := by
    intro k hk
    rw [store32, if_pos (by omega), Nat.add_sub_cancel_left, BitVec.toNat_ofNat]
  have h0 := hbyte 0 (by decide)
  rw [Nat.add_zero] at h0
  unfold load32
  rw [h0, hbyte 1 (by decide), hbyte 2 (by decide), hbyte 3 (by decide)]
  norm_num
  omega

theorem load32_store32_of_apart (h : b + 4 ≤ a ∨ a + 4 ≤ b) : load32 (store32 m a v) b = load32 m b :=
  load32_congr fun k hk => store32_of_outside (by omega)

theorem load64_store32_of_apart (h : b + 8 ≤ a ∨ a + 4 ≤ b) : load64 (store32 m a v) b = load64 m b :=
  load64_congr fun k hk => store32_of_outside (by omega)

theorem load16_lt (m : Memory) (a : Nat) : load16 m a < 2 ^ 16 := by
  have h0 := (m a).isLt
  have h1 := (m (a + 1)).isLt
  unfold load16
  omega

theorem load16_congr {m' : Memory} (h : ∀ k < 2, m' (a + k) = m (a + k)) : load16 m' a = load16 m a := by
  have h0 := h 0 (by decide)
  rw [Nat.add_zero] at h0
  unfold load16
  rw [h0, h 1 (by decide)]

theorem store16_of_outside (h : x < a ∨ a + 2 ≤ x) : store16 m a v x = m x := by
  rw [store16, if_neg (by omega)]

@[simp] theorem load16_store16_self (hv : v < 2 ^ 16) : load16 (store16 m a v) a = v := by
  have hbyte : ∀ k < 2, (store16 m a v (a + k)).toNat = v / 256 ^ k % 256 := by
    intro k hk
    rw [store16, if_pos (by omega), Nat.add_sub_cancel_left, BitVec.toNat_ofNat]
  have h0 := hbyte 0 (by decide)
  rw [Nat.add_zero] at h0
  unfold load16
  rw [h0, hbyte 1 (by decide)]
  norm_num
  omega

/-- Aligned doublewords. -/
theorem load32_store32 (hv : v < 2 ^ 32) (ha : a % 4 = 0) (hb : b % 4 = 0) :
    load32 (store32 m a v) b = if b = a then v else load32 m b := by
  by_cases h : b = a
  · rw [if_pos h, h, load32_store32_self hv]
  · rw [if_neg h, load32_store32_of_apart (by omega)]

/-- `rep stosd` of an aligned block. -/
theorem load32_repStosd {edi n : Nat} (hv : v < 2 ^ 32) (hedi : edi % 4 = 0) (hb : b % 4 = 0)
    (hend : edi + 4 * n ≤ 2 ^ 32) : load32 (repStosd m edi v n) b =
      if edi ≤ b ∧ b < edi + 4 * n then v else load32 m b := by
  induction n with
  | zero => rw [if_neg (by omega)]; rfl
  | succ n ih =>
    rw [repStosd, loop, ← repStosd, Nat.mod_eq_of_lt (by omega),
      load32_store32 hv (by omega) hb, ih (by omega)]
    split_ifs <;> first | rfl | omega

theorem repStosd_of_outside {edi n : Nat} (hend : edi + 4 * n ≤ 2 ^ 32)
    (h : x < edi ∨ edi + 4 * n ≤ x) : repStosd m edi v n x = m x := by
  induction n with
  | zero => rfl
  | succ n ih =>
    rw [repStosd, loop, ← repStosd, Nat.mod_eq_of_lt (by omega), store32_of_outside (by omega),
      ih (by omega) (by omega)]

end Doublewords

/-- `rep movsb` between blocks that are apart. -/
theorem repMovsb_spec {m : Memory} {esi edi n : Nat} (hapart : esi + n ≤ edi ∨ edi + n ≤ esi)
    (hsrc : esi + n ≤ 2 ^ 32) (hdst : edi + n ≤ 2 ^ 32) (x : Nat) : repMovsb m esi edi n x =
      if edi ≤ x ∧ x < edi + n then m (esi + (x - edi)) else m x := by
  have hinv := @loop_invariant Memory
    (fun i m => Function.update m ((edi + i) % 2 ^ 32) (m ((esi + i) % 2 ^ 32)))
    (fun k t => ∀ x, t x = if edi ≤ x ∧ x < edi + k then m (esi + (x - edi)) else m x) n m
    (fun x => (if_neg (by omega)).symm) fun k t hk ht x => ?_
  · exact hinv x
  · rw [Nat.mod_eq_of_lt (by omega), Nat.mod_eq_of_lt (by omega)]
    by_cases hx : x = edi + k
    · -- the byte read is not one that was written
      rw [hx, Function.update_self, ht, if_neg (by omega), if_pos (by omega), Nat.add_sub_cancel_left]
    · rw [Function.update_of_ne hx, ht]
      split_ifs <;> first | rfl | omega

attribute [irreducible] load16 store16 load32 store32

end AcornOS.Lib
