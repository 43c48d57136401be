/-
# Machine words, halting code, counted loops and runs

Four things every module of the development needs and none of which is about a particular
program.

* **64-bit arithmetic.**  A machine word is a `Nat` below `2 ^ 64`; `add64` and `sub64` are the
  operations that wrap, and each has the lemma that says when it does not.
* **Code that may not come back.**  A kernel routine returns, or halts the machine, or loops
  for ever.  `Halt` names the last two, `Except Halt α` is the type of a routine, and
  `Ensures x E Q` is its specification: `Q` of the value if it returns, `E` if it does not.
  Keeping `E` in the statement (rather than `True` or `False`) lets ONE induction prove both
  "if it returns, the result is right" and "it only fails to return for this reason".
* **Counted loops.**  `loop` and `forRange` are `for (i = 0; i < n; i++)` without and with an
  early exit; each has its invariant rule.
* **Runs.**  `reach_invariant`: what holds initially and is kept by every step holds in every
  state reached.
-/
import Mathlib

namespace AcornOS.Lib

/-! ## 1. 64-bit arithmetic -/

/-- Addition of two machine words. -/
def add64 (a b : Nat) : Nat := (a + b) % 2 ^ 64

/-- Subtraction of machine words. -/
def sub64 (a b : Nat) : Nat := (a + (2 ^ 64 - b % 2 ^ 64)) % 2 ^ 64

theorem add64_eq {a b : Nat} (h : a + b < 2 ^ 64) : add64 a b = a + b := Nat.mod_eq_of_lt h

theorem sub64_eq {a b : Nat} (h : b ≤ a) (ha : a < 2 ^ 64) : sub64 a b = a - b := by
  unfold sub64
  omega

theorem add64_lt (a b : Nat) : add64 a b < 2 ^ 64 := Nat.mod_lt _ (by decide)

theorem add64_add64 (a b c : Nat) : add64 (add64 a b) c = add64 a (b + c) := by
  unfold add64
  omega

/-- Offsets below `2 ^ 64` lead to different addresses. -/
theorem add64_inj {a i j : Nat} (hi : i < 2 ^ 64) (hj : j < 2 ^ 64) (h : add64 a i = add64 a j) :
    i = j := by
  unfold add64 at h
  omega

/-! ## 2. Code that may not return -/

/-- Why a routine does not return: it stopped the machine with a message, or it is in a loop
that never ends. -/
inductive Halt where
  | panic (msg : String)
  | diverge
deriving Repr, DecidableEq

/-- `Ensures x E Q`: if `x` returns a value, the value satisfies `Q`; if it does not, the
reason satisfies `E`. -/
structure Ensures {ε α : Type} (x : Except ε α) (E : ε → Prop) (Q : α → Prop) : Prop where
  of_ok : ∀ {a}, x = .ok a → Q a
  of_error : ∀ {e}, x = .error e → E e

section Ensures

variable {ε α β : Type} {E E' : ε → Prop} {Q Q' : α → Prop}

@[simp] theorem ensures_ok {a : α} : Ensures (.ok a : Except ε α) E Q ↔ Q a := by
  constructor
  · exact fun h => h.of_ok rfl
  · intro h
    exact ⟨fun heq => Except.ok.inj heq ▸ h, fun heq => nomatch heq⟩

@[simp] theorem ensures_error {e : ε} : Ensures (.error e : Except ε α) E Q ↔ E e := by
  constructor
  · exact fun h => h.of_error rfl
  · intro h
    exact ⟨fun heq => (nomatch heq), fun heq => Except.error.inj heq ▸ h⟩

/-- What is always known of a result: where it came from. -/
theorem ensures_eq (x : Except ε α) : Ensures x (fun e => x = .error e) (fun a => x = .ok a) :=
  ⟨fun h => h, fun h => h⟩

/-- Sequencing: the first half establishes what the second half needs. -/
theorem Ensures.bind {x : Except ε α} {f : α → Except ε β} {R : β → Prop}
    (hx : Ensures x E Q) (hf : ∀ a, Q a → Ensures (f a) E R) : Ensures (x >>= f) E R := by
  cases x with
  | ok a => exact hf a (hx.of_ok rfl)
  | error e => exact ensures_error.mpr (hx.of_error rfl)

theorem map_eq_ok {x : Except ε α} {f : α → β} {b : β} (h : x.map f = .ok b) :
    ∃ a, x = .ok a ∧ f a = b := by
  cases x with
  | error e => cases h
  | ok a =>
    cases h
    exact ⟨a, rfl, rfl⟩

theorem toOption_eq_some {x : Except ε α} {a : α} : x.toOption = some a ↔ x = .ok a := by
  cases x <;> simp [Except.toOption]

/-- Sequencing, where what the first half returns is known. -/
theorem Ensures.bind_ok {x : Except ε α} {a : α} {f : α → Except ε β} {R : β → Prop} (hx : x = .ok a)
    (hf : Ensures (f a) E R) : Ensures (x >>= f) E R := by
  rw [hx]
  exact hf

/-- Applying a function to the value. -/
theorem Ensures.map {x : Except ε α} {f : α → β} {R : β → Prop} (hx : Ensures x E Q)
    (hf : ∀ a, Q a → R (f a)) : Ensures (x.map f) E R := by
  cases x with
  | ok a => exact ensures_ok.mpr (hf a (hx.of_ok rfl))
  | error e => exact ensures_error.mpr (hx.of_error rfl)

theorem Ensures.mono {x : Except ε α} (hx : Ensures x E Q) (hE : ∀ e, E e → E' e)
    (hQ : ∀ a, Q a → Q' a) : Ensures x E' Q' :=
  ⟨fun h => hQ _ (hx.of_ok h), fun h => hE _ (hx.of_error h)⟩

/-- A routine whose failure condition is excluded returns. -/
theorem Ensures.exists_ok {x : Except ε α} (hx : Ensures x E Q) (hE : ∀ e, ¬ E e) :
    ∃ a, x = .ok a ∧ Q a := by
  cases x with
  | ok a => exact ⟨a, rfl, hx.of_ok rfl⟩
  | error e => exact absurd (hx.of_error rfl) (hE e)

/-- Two continuations are the same if they agree on what is known of the value. -/
theorem Ensures.bind_congr {x : Except ε α} {f g : α → Except ε β} (hx : Ensures x E Q)
    (hfg : ∀ a, Q a → f a = g a) : x >>= f = x >>= g := by
  cases x with
  | ok a => exact hfg a (hx.of_ok rfl)
  | error e => rfl

/-- Taking a sequence apart once it is known to have returned. -/
theorem bind_eq_ok {x : Except ε α} {f : α → Except ε β} {b : β} :
    (x >>= f) = .ok b ↔ ∃ a, x = .ok a ∧ f a = .ok b := by
  cases x with
  | ok a =>
    constructor
    · intro h
      exact ⟨a, rfl, h⟩
    · rintro ⟨a', ha, h⟩
      cases ha
      exact h
  | error e =>
    constructor
    · intro h
      cases h
    · rintro ⟨a', ha, -⟩
      cases ha

end Ensures

/-! ## 3. Counted loops -/

section Loops

variable {ε σ : Type}

/-- `for (i = 0; i < n; i++) s = body(i, s)`. -/
def loop (body : Nat → σ → σ) : Nat → σ → σ
  | 0, s => s
  | n + 1, s => body n (loop body n s)

/-- The same loop with a body that may not return. -/
def forRange (body : Nat → σ → Except ε σ) : Nat → σ → Except ε σ
  | 0, s => .ok s
  | n + 1, s => forRange body n s >>= body n

/-- The invariant rule for `loop`. -/
theorem loop_invariant {body : Nat → σ → σ} {I : Nat → σ → Prop} {n : Nat} {s : σ}
    (h0 : I 0 s) (hstep : ∀ i t, i < n → I i t → I (i + 1) (body i t)) :
    I n (loop body n s) := by
  induction n with
  | zero => exact h0
  | succ n ih =>
    exact hstep n _ (Nat.lt_succ_self n) (ih fun i t hi => hstep i t (Nat.lt_succ_of_lt hi))

/-- The invariant rule for `forRange`.  The failure condition may depend on nothing the loop
changes, which is what makes it usable as "there was not enough of something at the start". -/
theorem forRange_invariant {body : Nat → σ → Except ε σ} {E : ε → Prop} {I : Nat → σ → Prop}
    {n : Nat} {s : σ} (h0 : I 0 s)
    (hstep : ∀ i t, i < n → I i t → Ensures (body i t) E (I (i + 1))) :
    Ensures (forRange body n s) E (I n) := by
  induction n with
  | zero => exact ensures_ok.mpr h0
  | succ n ih =>
    refine Ensures.bind (ih fun i t hi => hstep i t (Nat.lt_succ_of_lt hi)) ?_
    exact fun t ht => hstep n t (Nat.lt_succ_self n) ht

/-- The rounds of the loop, one after the other. -/
theorem forRange_eq_foldlM (body : Nat → σ → Except ε σ) (n : Nat) (s : σ) :
    forRange body n s = (List.range n).foldlM (fun s i => body i s) s := by
  induction n with
  | zero => rfl
  | succ n ih =>
    rw [forRange, ih, List.range_succ, List.foldlM_append]
    simp

/-- Two loops are the same if their bodies agree wherever the invariant holds. -/
theorem forRange_congr {body body' : Nat → σ → Except ε σ} {E : ε → Prop} {I : Nat → σ → Prop}
    {n : Nat} {s : σ} (h0 : I 0 s)
    (hstep : ∀ i t, i < n → I i t → Ensures (body i t) E (I (i + 1)))
    (hbody : ∀ i t, i < n → I i t → body' i t = body i t) :
    forRange body' n s = forRange body n s := by
  induction n with
  | zero => rfl
  | succ n ih =>
    have hstep' : ∀ i t, i < n → I i t → Ensures (body i t) E (I (i + 1)) :=
      fun i t hi => hstep i t (Nat.lt_succ_of_lt hi)
    rw [forRange, forRange, ih hstep' fun i t hi => hbody i t (Nat.lt_succ_of_lt hi)]
    exact (forRange_invariant h0 hstep').bind_congr fun t ht => hbody n t (Nat.lt_succ_self n) ht

/-- Rounds that change nothing any more may be left out. -/
theorem forRange_stop {body : Nat → σ → Except ε σ} {n m : Nat} {s x : σ} (hle : n ≤ m)
    (hx : forRange body n s = .ok x) (hstop : ∀ k, n ≤ k → body k x = .ok x) :
    forRange body m s = .ok x := by
  induction m, hle using Nat.le_induction with
  | base => exact hx
  | succ m hle ih =>
    rw [forRange, ih]
    exact hstop m hle

end Loops

/-! ## 4. Runs -/

/-- **The invariant rule for runs.**  What holds at the start and is kept by every step holds
in every state the run reaches. -/
theorem reach_invariant {σ : Type} {Step : σ → σ → Prop} {I : σ → Prop} {s t : σ}
    (hreach : Relation.ReflTransGen Step s t) (hs : I s)
    (hstep : ∀ a b, I a → Step a b → I b) : I t := by
  induction hreach with
  | refl => exact hs
  | tail _ hlast ih => exact hstep _ _ ih hlast

end AcornOS.Lib
