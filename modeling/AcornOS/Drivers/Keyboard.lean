/-
# The keyboard driver (`drivers/input/keyboard.c`)

One character of buffer and one registered waiter, shared by the interrupt handler and by every
process that calls `keyboard_getchar`.  `keyboard_getchar` tests `pending_key`, `keyboard_wait`
registers the process, blocks it and yields; each of these statements is ONE step here, and between
two of them the keyboard interrupts, the timer ticks, and the rest of the kernel runs.

* `KeyControl` says which statement a process comes to next.
* **Blocking** (`keyboard_blocking`): nobody is left blocked with a key pending, or unregistered, in a
  run where no key comes between the test and the block, and nobody registers over somebody who
  waits.  Both conditions are needed (`key_before_block_is_lost`).
* **Keystrokes** (`keystrokes_in_order`): a single reader gets each key at most once and in order, and
  gets EVERY key as long as none comes while another is pending.
-/
import AcornOS.Processes.Fairness

namespace AcornOS

open Lib Relation

/-! ## 1. The model -/

/-- `scancode_table`: the ASCII character of each scancode, 0 for no printable character. -/
def scancodeTable : List (BitVec 8) :=
  [0, 0, 0x31, 0x32, 0x33, 0x34, 0x35, 0x36,
   0x37, 0x38, 0x39, 0x30, 0x2D, 0x3D, 0x08, 0x09,
   0x71, 0x77, 0x65, 0x72, 0x74, 0x79, 0x75, 0x69,
   0x6F, 0x70, 0x5B, 0x5D, 0x0A, 0, 0x61, 0x73,
   0x64, 0x66, 0x67, 0x68, 0x6A, 0x6B, 0x6C, 0x3B,
   0x27, 0x60, 0, 0x5C, 0x7A, 0x78, 0x63, 0x76,
   0x62, 0x6E, 0x6D, 0x2C, 0x2E, 0x2F, 0, 0x2A,
   0, 0x20, 0]

/-- The character `keyboard_handler` finds for a scancode: 0 for a key release, for a scancode outside
the table and for a key without a printable character. -/
def keyOf (scancode : BitVec 8) : BitVec 8 :=
  if scancode &&& 0x80 ≠ 0 then 0
  else if scancode.toNat < scancodeTable.length then scancodeTable.getD scancode.toNat 0
  else 0

/-- The statement of `keyboard_getchar`, or of `keyboard_wait` called from it, that a process comes to
next. -/
inductive KeyControl where
  | outside
  /-- `while(pending_key == 0)` -/
  | test
  /-- `keyboard_waiting = proc` -/
  | register
  /-- `process_block(proc)` -/
  | block
  /-- `pic_send_eoi(1)` -/
  | eoi
  /-- `scheduler_yield()` -/
  | yield
  /-- The return from `scheduler_yield`. -/
  | resume
  /-- `c = pending_key` -/
  | take
  /-- `pending_key = 0; return c` -/
  | clear (c : BitVec 8)
deriving Repr, DecidableEq

/-- The process is in `keyboard_wait`. -/
def KeyControl.InWait (c : KeyControl) : Prop :=
  c = .register ∨ c = .block ∨ c = .eoi ∨ c = .yield ∨ c = .resume

/-- It has been through `process_block` there. -/
def KeyControl.HasBlocked (c : KeyControl) : Prop := c = .eoi ∨ c = .yield ∨ c = .resume

instance (c : KeyControl) : Decidable c.InWait := inferInstanceAs (Decidable (_ ∨ _))

instance (c : KeyControl) : Decidable c.HasBlocked := inferInstanceAs (Decidable (_ ∨ _))

/-- The kernel, the driver's two variables, the control point of every process, and the characters
pressed and returned so far. -/
structure Keyboard where
  kernel : Kernel
  waiting : Nat
  pendingKey : BitVec 8
  control : Nat → KeyControl
  pressed : List (BitVec 8)
  returned : List (BitVec 8)

/-- `keyboard_handler` -/
def keyboardHandler (k : Keyboard) (scancode : BitVec 8) : Keyboard :=
  if keyOf scancode = 0 then k
  else
    let k := { k with pendingKey := keyOf scancode, pressed := k.pressed ++ [keyOf scancode] }
    if k.waiting ≠ 0 then { k with kernel := processWake k.kernel k.waiting, waiting := 0 } else k

namespace Keyboard

/-- The driver before anybody has called it. -/
def start (s : Kernel) : Keyboard := ⟨s, 0, 0, fun _ => .outside, [], []⟩

/-- A process comes to another statement. -/
def goto (k : Keyboard) (p : Nat) (c : KeyControl) : Keyboard :=
  { k with control := Function.update k.control p c }

/-- `p` is the process that executes, and it has come to the statement `c`. -/
structure At (k : Keyboard) (p : Nat) (c : KeyControl) : Prop where
  current : k.kernel.currentProcess = p
  ne_zero : p ≠ 0
  control : k.control p = c

/-- The state of a process. -/
def state (k : Keyboard) (p : Nat) : ProcessState := (k.kernel.pcb p).state

end Keyboard

/-- What happens in a step. -/
inductive KeyAction where
  | call (p : Nat)
  | code
  | register (p : Nat)
  | key (scancode : BitVec 8)
deriving Repr, DecidableEq

/-- One step.  A process that executes is RUNNING, except on its way from `process_block` to
`scheduler_yield`, which comes back to a process once it has been picked.  `elsewhere` is everything
else the kernel does: only a process itself calls `process_block` on itself, so nobody who is in
`keyboard_getchar` gets BLOCKED by it. -/
inductive Keyboard.Step : Keyboard → KeyAction → Keyboard → Prop
  | call {k : Keyboard} {p : Nat} (h : k.At p .outside) (hrun : k.state p = .running) :
      Step k (.call p) (k.goto p .test)
  | found {k : Keyboard} {p : Nat} (h : k.At p .test) (hkey : k.pendingKey ≠ 0) :
      Step k .code (k.goto p .take)
  | empty {k : Keyboard} {p : Nat} (h : k.At p .test) (hkey : k.pendingKey = 0) :
      Step k .code (k.goto p .register)
  | register {k : Keyboard} {p : Nat} (h : k.At p .register) :
      Step k (.register p) { k.goto p .block with waiting := p }
  | block {k : Keyboard} {p : Nat} (h : k.At p .block) :
      Step k .code { k.goto p .eoi with kernel := processBlock k.kernel p }
  | eoi {k : Keyboard} {p : Nat} (h : k.At p .eoi) : Step k .code (k.goto p .yield)
  | yield {k : Keyboard} {p : Nat} {t : Kernel} {now : BitVec 32} (h : k.At p .yield)
      (ht : schedulerYield k.kernel now = .ok t) : Step k .code { k.goto p .resume with kernel := t }
  | resume {k : Keyboard} {p : Nat} (h : k.At p .resume) (hrun : k.state p = .running) :
      Step k .code (k.goto p .test)
  | take {k : Keyboard} {p : Nat} (h : k.At p .take) : Step k .code (k.goto p (.clear k.pendingKey))
  | clear {k : Keyboard} {p : Nat} {c : BitVec 8} (h : k.At p (.clear c)) :
      Step k .code { k.goto p .outside with pendingKey := 0, returned := k.returned ++ [c] }
  | key {k : Keyboard} (scancode : BitVec 8) : Step k (.key scancode) (keyboardHandler k scancode)
  | tick {k : Keyboard} {t : Kernel} {now : BitVec 32} (ht : schedulerTick k.kernel now = .ok t) :
      Step k .code { k with kernel := t }
  | elsewhere {k : Keyboard} {t : Kernel}
      (ht : ∀ p, k.control p ≠ .outside → (t.pcb p).state = .blocked → k.state p = .blocked) :
      Step k .code { k with kernel := t }

/-! ## 2. The scheduler blocks nobody -/

section Scheduler

variable {s t : Kernel} {now : BitVec 32} {p : Nat}

/-- Nothing but a wake-up, a new time slice and a switch happens in a tick. -/
theorem schedulerTick_blocked (h : schedulerTick s now = .ok t)
    (hp : (t.pcb p).state = .blocked) : (s.pcb p).state = .blocked := by
  have hsleep : ∀ {u : Kernel}, schedulerWakeSleepers s now = u → (u.pcb p).state = .blocked →
      (s.pcb p).state = .blocked := by
    rintro u rfl hu
    obtain ⟨-, -, hstate⟩ := schedulerWakeSleepers_spec s now
    rcases (hstate p).2 with hsame | ⟨-, hready⟩
    · rw [← hsame]
      exact hu
    · rw [hready] at hu
      cases hu
  unfold schedulerTick at h
  generalize hu : schedulerWakeSleepers s now = u at h
  refine hsleep hu ?_
  simp only at h
  by_cases hcur : u.currentProcess = 0
  · rw [if_pos hcur] at h
    cases h
    exact hp
  rw [if_neg hcur] at h
  by_cases hhead : u.runQueueHead = 0
  · rw [if_pos hhead] at h
    cases h
    exact hp
  rw [if_neg hhead] at h
  generalize hv : (u.modify u.currentProcess fun p =>
    { p with ticksRemaining := p.ticksRemaining - 1 }) = v at h
  have hticks : (v.pcb p).state = (u.pcb p).state := by
    rw [← hv]
    exact (modify_ticks (fun x => ⟨_, rfl⟩) p).1
  rw [← hticks]
  have hslice : ∀ {q : Nat}, ((v.modify q fun p => { p with ticksRemaining := p.timeSlice }).pcb p).state
      = (v.pcb p).state := fun {q} => (modify_ticks (fun x => ⟨_, rfl⟩) p).1
  split at h
  · cases h
    exact hp
  split at h
  · cases h
  split at h
  · cases h
    rwa [hslice] at hp
  split at h
  · cases h
    rwa [hslice] at hp
  cases h
  -- the switch: the new process runs, the old one is READY if it was RUNNING
  revert hp
  unfold switchTo
  generalize pickFrom v v.currentProcess maxProcesses v.current.next = new
  intro hp
  by_cases hnew : p = new
  · subst hnew
    have hrun : ((Kernel.modify _ p fun x : Process => { x with state := .running }).pcb p).state
        = .blocked := hp
    rw [Kernel.modify_self] at hrun
    cases hrun
  · have hold : (((v.modify new fun x : Process => { x with ticksRemaining := x.timeSlice }).modify
        v.currentProcess fun x =>
          { x with state := if x.state = .running then .ready else x.state }).pcb p).state
        = .blocked := by
      have := hp
      simp only at this
      rwa [Kernel.modify_of_ne _ _ _ hnew] at this
    rw [← @hslice new]
    by_cases hpold : p = v.currentProcess
    · subst hpold
      rw [Kernel.modify_self] at hold
      simp only at hold
      split at hold
      · cases hold
      · exact hold
    · rwa [Kernel.modify_of_ne _ _ _ hpold] at hold

theorem schedulerYield_blocked (h : schedulerYield s now = .ok t)
    (hp : (t.pcb p).state = .blocked) : (s.pcb p).state = .blocked := by
  unfold schedulerYield at h
  split at h
  · cases h
    exact hp
  · have hticks := schedulerTick_blocked h hp
    rwa [(modify_ticks (fun x => ⟨_, rfl⟩) p).1] at hticks

end Scheduler

/-! ## 3. The blocking protocol -/

namespace Keyboard

/-- Whoever is BLOCKED in `keyboard_wait` is registered, and no key is pending. -/
def Blocking (k : Keyboard) : Prop :=
  ∀ p, (k.control p).InWait → k.state p = .blocked → k.waiting = p ∧ k.pendingKey = 0

/-- The condition on a step: a printable key does not come while a process is between its test of
`pending_key` and `process_block`, and no process registers while another one is BLOCKED in
`keyboard_wait`, or registered and about to block. -/
def Orderly (k : Keyboard) : KeyAction → Prop
  | .key scancode => keyOf scancode ≠ 0 → ∀ p, k.control p ≠ .register ∧ k.control p ≠ .block
  | .register p => ∀ q, q ≠ p → k.control q ≠ .block ∧
      ¬ ((k.control q).HasBlocked ∧ k.state q = .blocked)
  | _ => True

/-- Any step, and a step that meets the condition. -/
def AnyStep (k k' : Keyboard) : Prop := ∃ a, Step k a k'

def OrderlyStep (k k' : Keyboard) : Prop := ∃ a, k.Orderly a ∧ Step k a k'

/-- The invariant of orderly runs, statement by statement. -/
structure Ok (k : Keyboard) : Prop where
  ne_zero : ∀ p, k.control p ≠ .outside → p ≠ 0
  awake : ∀ p, k.control p ≠ .outside → ¬ (k.control p).HasBlocked → k.state p ≠ .blocked
  registering : ∀ p, k.control p = .register → k.pendingKey = 0
  blocking : ∀ p, k.control p = .block → k.waiting = p ∧ k.pendingKey = 0
  asleep : ∀ p, (k.control p).HasBlocked → k.state p = .blocked → k.waiting = p ∧ k.pendingKey = 0

section Protocol

variable {k k' : Keyboard} {p : Nat} {c : KeyControl}

theorem start_ok (s : Kernel) : (start s).Ok := by
  refine ⟨?_, ?_, ?_, ?_, ?_⟩
  · intro p hp
    exact absurd rfl hp
  · intro p hp
    exact absurd rfl hp
  · intro p hp
    cases hp
  · intro p hp
    cases hp
  · rintro p (hp | hp | hp) <;> cases hp

theorem Ok.blocking_of (h : k.Ok) : k.Blocking := by
  intro p hin hblocked
  have hout : k.control p ≠ .outside := by
    intro hc
    rw [hc] at hin
    rcases hin with hc | hc | hc | hc | hc <;> cases hc
  by_cases hhas : (k.control p).HasBlocked
  · exact h.asleep p hhas hblocked
  · exact absurd hblocked (h.awake p hout hhas)

/-- A process moves on, and what the invariant says of its new statement holds. -/
theorem Ok.goto (h : k.Ok) (hp : p ≠ 0)
    (hawake : c ≠ .outside → ¬ c.HasBlocked → k.state p ≠ .blocked)
    (hreg : c = .register → k.pendingKey = 0)
    (hblock : c = .block → k.waiting = p ∧ k.pendingKey = 0)
    (hasleep : c.HasBlocked → k.state p = .blocked → k.waiting = p ∧ k.pendingKey = 0) :
    (k.goto p c).Ok := by
  have hself : (k.goto p c).control p = c := Function.update_self ..
  have hother : ∀ q, q ≠ p → (k.goto p c).control q = k.control q := fun q hq =>
    Function.update_of_ne hq ..
  refine ⟨?_, ?_, ?_, ?_, ?_⟩
  · intro q hq
    by_cases hqp : q = p
    · rw [hqp]
      exact hp
    · exact h.ne_zero q (hother q hqp ▸ hq)
  · intro q hq hnot
    by_cases hqp : q = p
    · subst hqp
      rw [hself] at hq hnot
      exact hawake hq hnot
    · rw [hother q hqp] at hq hnot
      exact h.awake q hq hnot
  · intro q hq
    by_cases hqp : q = p
    · subst hqp
      exact hreg (hself.symm.trans hq)
    · exact h.registering q (hother q hqp ▸ hq)
  · intro q hq
    by_cases hqp : q = p
    · subst hqp
      exact hblock (hself.symm.trans hq)
    · exact h.blocking q (hother q hqp ▸ hq)
  · intro q hq hs
    by_cases hqp : q = p
    · subst hqp
      rw [hself] at hq
      exact hasleep hq hs
    · rw [hother q hqp] at hq
      exact h.asleep q hq hs

/-- The kernel goes on without blocking anybody. -/
theorem Ok.kernel {t : Kernel} (h : k.Ok)
    (ht : ∀ p, k.control p ≠ .outside → (t.pcb p).state = .blocked → k.state p = .blocked) :
    { k with kernel := t }.Ok := by
  refine ⟨h.ne_zero, ?_, h.registering, h.blocking, ?_⟩
  · intro p hp hnot hs
    exact h.awake p hp hnot (ht p hp hs)
  · intro p hp hs
    have hout : k.control p ≠ .outside := by
      intro hc
      rw [hc] at hp
      rcases hp with hc | hc | hc <;> cases hc
    exact h.asleep p hp (ht p hout hs)

/-- `keyboard_waiting = proc`, when nobody else waits. -/
theorem Ok.register (h : k.Ok) (hat : k.At p .register)
    (halone : ∀ q, q ≠ p → k.control q ≠ .block ∧
      ¬ ((k.control q).HasBlocked ∧ k.state q = .blocked)) :
    { k.goto p .block with waiting := p }.Ok := by
  have hkey := h.registering p hat.control
  have hset : { k with waiting := p }.Ok := by
    refine ⟨h.ne_zero, h.awake, h.registering, ?_, ?_⟩
    · intro q hq
      by_cases hqp : q = p
      · exact ⟨hqp.symm, hkey⟩
      · exact absurd hq (halone q hqp).1
    · intro q hq hs
      by_cases hqp : q = p
      · exact ⟨hqp.symm, hkey⟩
      · exact absurd ⟨hq, hs⟩ (halone q hqp).2
  refine hset.goto hat.ne_zero ?_ (by simp) (fun _ => ⟨rfl, hkey⟩) ?_
  · intro _ _
    refine h.awake p ?_ ?_
    · simp [hat.control]
    · simp [hat.control, KeyControl.HasBlocked]
  · rintro (hc | hc | hc) <;> cases hc

/-- `process_block(proc)` -/
theorem Ok.block (h : k.Ok) (hat : k.At p .block) :
    { k.goto p .eoi with kernel := processBlock k.kernel p }.Ok := by
  have hwait := h.blocking p hat.control
  have hmoved : (k.goto p .eoi).Ok := by
    refine h.goto hat.ne_zero ?_ (by simp) (by simp) fun _ _ => hwait
    intro _ hnot
    exact absurd (Or.inl rfl) hnot
  have hsame : ∀ q, q ≠ p → ((processBlock k.kernel p).pcb q).state = k.state q := by
    intro q hq
    rw [processBlock, if_neg hat.ne_zero, Kernel.modify_of_ne _ _ _ hq]
    rfl
  have hself : (k.goto p .eoi).control p = .eoi := Function.update_self ..
  refine ⟨hmoved.ne_zero, ?_, hmoved.registering, hmoved.blocking, ?_⟩
  · intro q hq hnot hs
    have hqp : q ≠ p := by
      rintro rfl
      exact hnot (Or.inl hself)
    exact hmoved.awake q hq hnot ((hsame q hqp).symm.trans hs)
  · intro q hq hs
    by_cases hqp : q = p
    · rw [hqp]
      exact hwait
    · exact hmoved.asleep q hq ((hsame q hqp).symm.trans hs)

/-- The interrupt wakes whoever is BLOCKED, if everybody who waits has got as far as blocking. -/
theorem Ok.key {scancode : BitVec 8} (h : k.Ok)
    (hlate : keyOf scancode ≠ 0 → ∀ p, k.control p ≠ .register ∧ k.control p ≠ .block) :
    (keyboardHandler k scancode).Ok := by
  unfold keyboardHandler
  by_cases hkey : keyOf scancode = 0
  · rw [if_pos hkey]
    exact h
  rw [if_neg hkey]
  have hnone := hlate hkey
  have hwoken : ∀ (t : Kernel) (w : Nat), (∀ p, (k.control p).HasBlocked → (t.pcb p).state ≠ .blocked) →
      (∀ p, (t.pcb p).state = .blocked → k.state p = .blocked) →
      (⟨t, w, keyOf scancode, k.control, k.pressed ++ [keyOf scancode], k.returned⟩ : Keyboard).Ok := by
    intro t w hall hback
    refine ⟨h.ne_zero, ?_, ?_, ?_, ?_⟩
    · intro p hp hnot hs
      exact h.awake p hp hnot (hback p hs)
    · intro p hp
      exact absurd hp (hnone p).1
    · intro p hp
      exact absurd hp (hnone p).2
    · intro p hp hs
      exact absurd hs (hall p hp)
  have hout : ∀ p, (k.control p).HasBlocked → k.control p ≠ .outside := by
    rintro p (hc | hc | hc) <;> simp [hc]
  by_cases hw : k.waiting = 0
  · simp only [hw, ne_eq, not_true, if_false]
    refine hwoken k.kernel 0 (fun p hp hs => ?_) fun p hs => hs
    have hp0 := (h.asleep p hp hs).1
    exact h.ne_zero p (hout p hp) (hp0.symm.trans hw)
  · simp only [ne_eq, hw, not_false_eq_true, if_true]
    have hback : ∀ p, ((processWake k.kernel k.waiting).pcb p).state = .blocked →
        k.state p = .blocked := by
      intro p hs
      rcases (processWake_state k.kernel k.waiting p).2 with hsame | ⟨hblocked, -⟩
      · exact hsame.symm.trans hs
      · exact hblocked
    refine hwoken _ 0 (fun p hp hs => ?_) hback
    -- the one who waits is the one who is registered, and the wake-up makes it READY
    have hbefore : (k.kernel.pcb p).state = .blocked := hback p hs
    have hreg := (h.asleep p hp hbefore).1
    have hwake : ((processWake k.kernel k.waiting).pcb p).state = .ready := by
      rw [hreg, processWake, if_neg (hreg ▸ hw), if_neg (not_not.mpr hbefore), Kernel.modify_self]
    rw [hwake] at hs
    cases hs

/-- **Every orderly step keeps the invariant.** -/
theorem OrderlyStep.ok (h : k.Ok) (hstep : OrderlyStep k k') : k'.Ok := by
  obtain ⟨a, horder, hstep⟩ := hstep
  cases hstep with
  | @call p hat hrun =>
    refine h.goto hat.ne_zero (fun _ _ => ?_) (by simp) (by simp) ?_
    · rw [hrun]
      simp
    · rintro (hc | hc | hc) <;> cases hc
  | @found p hat hkey =>
    refine h.goto hat.ne_zero (fun _ _ => h.awake p ?_ ?_) (by simp) (by simp) ?_
    · simp [hat.control]
    · simp [hat.control, KeyControl.HasBlocked]
    · rintro (hc | hc | hc) <;> cases hc
  | @empty p hat hkey =>
    refine h.goto hat.ne_zero (fun _ _ => h.awake p ?_ ?_) (fun _ => hkey) (by simp) ?_
    · simp [hat.control]
    · simp [hat.control, KeyControl.HasBlocked]
    · rintro (hc | hc | hc) <;> cases hc
  | register hat => exact h.register hat horder
  | block hat => exact h.block hat
  | @eoi p hat =>
    refine h.goto hat.ne_zero (fun _ hnot => ?_) (by simp) (by simp) fun _ => h.asleep p ?_
    · exact absurd (Or.inr (Or.inl rfl)) hnot
    · exact Or.inl hat.control
  | @yield p t now hat ht =>
    have hmoved : (k.goto p .resume).Ok := by
      refine h.goto hat.ne_zero (fun _ hnot => ?_) (by simp) (by simp) fun _ => h.asleep p ?_
      · exact absurd (Or.inr (Or.inr rfl)) hnot
      · exact Or.inr (Or.inl hat.control)
    exact hmoved.kernel fun q _ hs => schedulerYield_blocked ht hs
  | @resume p hat hrun =>
    refine h.goto hat.ne_zero (fun _ _ => ?_) (by simp) (by simp) ?_
    · rw [hrun]
      simp
    · rintro (hc | hc | hc) <;> cases hc
  | @take p hat =>
    refine h.goto hat.ne_zero (fun _ _ => h.awake p ?_ ?_) (by simp) (by simp) ?_
    · simp [hat.control]
    · simp [hat.control, KeyControl.HasBlocked]
    · rintro (hc | hc | hc) <;> cases hc
  | @clear p c hat =>
    have hmoved : (k.goto p .outside).Ok := by
      refine h.goto hat.ne_zero (by simp) (by simp) (by simp) ?_
      rintro (hc | hc | hc) <;> cases hc
    refine ⟨hmoved.ne_zero, hmoved.awake, fun _ _ => rfl, ?_, ?_⟩
    · intro q hq
      exact ⟨(hmoved.blocking q hq).1, rfl⟩
    · intro q hq hs
      exact ⟨(hmoved.asleep q hq hs).1, rfl⟩
  | key scancode => exact h.key horder
  | tick ht => exact h.kernel fun p _ hs => schedulerTick_blocked ht hs
  | elsewhere ht => exact h.kernel ht

end Protocol

end Keyboard

open Keyboard

/-- **No process is left blocked** with a key pending, or with nobody registered to wake it: in every
run from the start of the driver in which no printable key comes between a test of `pending_key` and
the block that follows it, and nobody registers over a process that waits. -/
theorem keyboard_blocking (s : Kernel) (k : Keyboard)
    (hreach : ReflTransGen OrderlyStep (start s) k) : k.Blocking := by
  have hok : k.Ok := reach_invariant hreach (start_ok s) fun _ _ h hstep => hstep.ok h
  exact hok.blocking_of

/-- The process 1 of `twoQueued` finds no key and blocks. -/
def waits : Keyboard :=
  let k := (start twoQueued).goto 0x1000 .test
  let k := { (k.goto 0x1000 .register).goto 0x1000 .block with waiting := 0x1000 }
  { k.goto 0x1000 .eoi with kernel := processBlock k.kernel 0x1000 }

theorem keyboard_blocking_waits : ReflTransGen OrderlyStep (start twoQueued) waits ∧
    waits.state 0x1000 = .blocked ∧ waits.Blocking := by
  have hreach : ReflTransGen OrderlyStep (start twoQueued) waits := by
    refine .head ⟨.call 0x1000, trivial, Step.call (p := 0x1000) ⟨rfl, by decide, rfl⟩ rfl⟩ ?_
    refine .head ⟨.code, trivial, Step.empty (p := 0x1000) ⟨rfl, by decide, by decide⟩ rfl⟩ ?_
    refine .head ⟨_, ?_, Step.register (p := 0x1000) ⟨rfl, by decide, by decide⟩⟩ ?_
    · intro q hq
      simp [goto, start, Function.update_of_ne hq, KeyControl.HasBlocked]
    exact .single ⟨.code, trivial, Step.block (p := 0x1000) ⟨rfl, by decide, by decide⟩⟩
  exact ⟨hreach, rfl, keyboard_blocking twoQueued waits hreach⟩

/-- **A key that comes between the test and the block.**  The process finds no key; the key `a` comes;
the process registers and blocks all the same, and the key stays pending. -/
theorem key_before_block_is_lost :
    ¬ ∀ (s : Kernel) (k : Keyboard), ReflTransGen AnyStep (start s) k → k.Blocking := by
  intro h
  have hreach : ReflTransGen AnyStep (start twoQueued)
      { waits with pendingKey := 0x61, pressed := [0x61] } := by
    refine .head ⟨_, Step.call (p := 0x1000) ⟨rfl, by decide, rfl⟩ rfl⟩ ?_
    refine .head ⟨_, Step.empty (p := 0x1000) ⟨rfl, by decide, by decide⟩ rfl⟩ ?_
    refine .head ⟨_, Step.key 0x1E⟩ ?_
    refine .head ⟨_, Step.register (p := 0x1000) ⟨rfl, by decide, by decide⟩⟩ ?_
    exact .single ⟨_, Step.block (p := 0x1000) ⟨rfl, by decide, by decide⟩⟩
  have hblocked := h twoQueued _ hreach 0x1000 (by decide) rfl
  exact absurd hblocked.2 (by decide)

/-! ## 4. Keystrokes -/

namespace Keyboard

/-- The characters the driver holds for its reader `r`: the one `keyboard_getchar` has taken and is
about to return, or else the pending one. -/
def held (k : Keyboard) (r : Nat) : List (BitVec 8) :=
  match k.control r with
  | .clear c => [c]
  | _ => if k.pendingKey = 0 then [] else [k.pendingKey]

/-- Nothing is lost, duplicated or out of order: what was pressed is what was returned, followed by
what the driver holds. -/
def AllKept (k : Keyboard) (r : Nat) : Prop := k.returned ++ k.held r = k.pressed

/-- Any step, with nobody but `r` calling `keyboard_getchar`. -/
def ReaderStep (r : Nat) (k k' : Keyboard) : Prop :=
  ∃ a, (∀ p, a = .call p → p = r) ∧ Step k a k'

/-- The same, with no printable key coming while another one is pending. -/
def SpacedStep (r : Nat) (k k' : Keyboard) : Prop :=
  ∃ a, (∀ p, a = .call p → p = r) ∧
    (∀ scancode, a = .key scancode → keyOf scancode ≠ 0 → k.pendingKey = 0) ∧ Step k a k'

/-- The invariant of a single reader: nobody else is in `keyboard_getchar`, and it does not come to
take a key unless there is one. -/
structure Alone (k : Keyboard) (r : Nat) : Prop where
  others : ∀ p, p ≠ r → k.control p = .outside
  taking : k.control r = .take → k.pendingKey ≠ 0

/-- What a step is to the reader: nothing, a key returned, or a key pressed. -/
inductive Effect (r : Nat) (k : Keyboard) (a : KeyAction) (k' : Keyboard) : Prop
  | quiet (hheld : k'.held r = k.held r) (hpressed : k'.pressed = k.pressed)
      (hreturned : k'.returned = k.returned)
      (hclear : ∀ c, k'.control r = .clear c → k'.pendingKey = k.pendingKey ∧
        (k.control r = .clear c ∨ (c = k.pendingKey ∧ c ≠ 0)))
  | returns {c : BitVec 8} (hclear : k.control r = .clear c) (hheld : k'.held r = [])
      (hpressed : k'.pressed = k.pressed) (hreturned : k'.returned = k.returned ++ [c])
      (hdone : k'.control r = .outside)
  | presses {scancode : BitVec 8} (haction : a = .key scancode) (hkey : keyOf scancode ≠ 0)
      (hcontrol : k'.control = k.control) (hpending : k'.pendingKey = keyOf scancode)
      (hpressed : k'.pressed = k.pressed ++ [keyOf scancode]) (hreturned : k'.returned = k.returned)

section Reader

variable {k k' : Keyboard} {r p : Nat} {a : KeyAction} {c : KeyControl}

theorem Alone.eq (h : k.Alone r) (hp : k.control p ≠ .outside) : p = r := by
  by_contra hne
  exact hp (h.others p hne)

/-- A control point where no character has been taken. -/
theorem held_of_ne_clear (h : ∀ x, k.control r ≠ .clear x) :
    k.held r = if k.pendingKey = 0 then [] else [k.pendingKey] := by
  unfold held
  cases hc : k.control r with
  | clear x => exact absurd hc (h x)
  | _ => rfl

/-- The reader moves on between two statements neither of which holds a character. -/
theorem Alone.move (h : k.Alone r) (hfrom : ∀ x, k.control r ≠ .clear x) (hto : ∀ x, c ≠ .clear x)
    (htake : c = .take → k.pendingKey ≠ 0) (hcontrol : k'.control = Function.update k.control r c)
    (hkey : k'.pendingKey = k.pendingKey) (hpressed : k'.pressed = k.pressed)
    (hreturned : k'.returned = k.returned) : k'.Alone r ∧ Effect r k a k' := by
  have hself : k'.control r = c := by rw [hcontrol, Function.update_self]
  have hto' : ∀ x, k'.control r ≠ .clear x := fun x => hself ▸ hto x
  refine ⟨⟨fun p hp => ?_, fun hc => ?_⟩, .quiet ?_ hpressed hreturned fun x hx => ?_⟩
  · rw [hcontrol, Function.update_of_ne hp]
    exact h.others p hp
  · rw [hkey]
    exact htake (hself.symm.trans hc)
  · rw [held_of_ne_clear hfrom, held_of_ne_clear hto', hkey]
  · exact absurd hx (hto' x)

/-- **What each step is to a single reader.** -/
theorem Step.effect (h : k.Alone r) (hcall : ∀ p, a = .call p → p = r) (hstep : Step k a k') :
    k'.Alone r ∧ Effect r k a k' := by
  cases hstep with
  | @call p hat hrun =>
    obtain rfl := hcall p rfl
    exact h.move (by simp [hat.control]) (by simp) (by simp) rfl rfl rfl rfl
  | @found p hat hkey =>
    obtain rfl := h.eq (p := p) (by simp [hat.control])
    exact h.move (by simp [hat.control]) (by simp) (fun _ => hkey) rfl rfl rfl rfl
  | @empty p hat hkey =>
    obtain rfl := h.eq (p := p) (by simp [hat.control])
    exact h.move (by simp [hat.control]) (by simp) (by simp) rfl rfl rfl rfl
  | @register p hat =>
    obtain rfl := h.eq (p := p) (by simp [hat.control])
    exact h.move (by simp [hat.control]) (by simp) (by simp) rfl rfl rfl rfl
  | @block p hat =>
    obtain rfl := h.eq (p := p) (by simp [hat.control])
    exact h.move (by simp [hat.control]) (by simp) (by simp) rfl rfl rfl rfl
  | @eoi p hat =>
    obtain rfl := h.eq (p := p) (by simp [hat.control])
    exact h.move (by simp [hat.control]) (by simp) (by simp) rfl rfl rfl rfl
  | @yield p t now hat ht =>
    obtain rfl := h.eq (p := p) (by simp [hat.control])
    exact h.move (by simp [hat.control]) (by simp) (by simp) rfl rfl rfl rfl
  | @resume p hat hrun =>
    obtain rfl := h.eq (p := p) (by simp [hat.control])
    exact h.move (by simp [hat.control]) (by simp) (by simp) rfl rfl rfl rfl
  | @take p hat =>
    obtain rfl := h.eq (p := p) (by simp [hat.control])
    have hkey := h.taking hat.control
    have hself : (k.goto p (.clear k.pendingKey)).control p = .clear k.pendingKey :=
      Function.update_self ..
    refine ⟨⟨fun q hq => ?_, fun hc => ?_⟩, .quiet ?_ rfl rfl fun x hx => ⟨rfl, Or.inr ?_⟩⟩
    · exact (Function.update_of_ne hq ..).trans (h.others q hq)
    · rw [hself] at hc
      cases hc
    · have hbefore : k.held p = [k.pendingKey] := by
        rw [held_of_ne_clear (by simp [hat.control]), if_neg hkey]
      rw [hbefore]
      unfold held
      rw [hself]
    · rw [hself] at hx
      cases hx
      exact ⟨rfl, hkey⟩
  | @clear p c hat =>
    obtain rfl := h.eq (p := p) (by simp [hat.control])
    refine ⟨⟨fun q hq => ?_, fun hc => ?_⟩, .returns hat.control ?_ rfl rfl ?_⟩
    · exact (Function.update_of_ne hq ..).trans (h.others q hq)
    · simp [goto] at hc
    · simp [held, goto]
    · simp [goto]
  | key scancode =>
    unfold keyboardHandler
    by_cases hkey : keyOf scancode = 0
    · rw [if_pos hkey]
      exact ⟨h, .quiet rfl rfl rfl fun x hx => ⟨rfl, Or.inl hx⟩⟩
    · rw [if_neg hkey]
      by_cases hw : k.waiting = 0
      · simp only [hw, ne_eq, not_true, if_false]
        exact ⟨⟨h.others, fun _ => hkey⟩, .presses rfl hkey rfl rfl rfl rfl⟩
      · simp only [ne_eq, hw, not_false_eq_true, if_true]
        exact ⟨⟨h.others, fun _ => hkey⟩, .presses rfl hkey rfl rfl rfl rfl⟩
  | tick ht => exact ⟨⟨h.others, h.taking⟩, .quiet rfl rfl rfl fun x hx => ⟨rfl, Or.inl hx⟩⟩
  | elsewhere ht => exact ⟨⟨h.others, h.taking⟩, .quiet rfl rfl rfl fun x hx => ⟨rfl, Or.inl hx⟩⟩

/-- What the driver holds right after a key was pressed. -/
theorem held_of_pressed {d : BitVec 8} (hd : d ≠ 0) (hcontrol : k'.control = k.control)
    (hpending : k'.pendingKey = d) :
    k'.held r = [d] ∨ ∃ c, k.control r = .clear c ∧ k'.held r = [c] := by
  unfold held
  rw [hcontrol, hpending, if_neg hd]
  cases hc : k.control r with
  | clear c => exact Or.inr ⟨c, rfl, rfl⟩
  | _ => exact Or.inl rfl

end Reader

/-- What a reader is owed, in every run: what was returned, followed by what is held, was pressed in
this order. -/
structure InOrder (k : Keyboard) (r : Nat) : Prop where
  alone : k.Alone r
  sublist : List.Sublist (k.returned ++ k.held r) k.pressed

/-- What a reader is owed when the keys come one at a time. -/
structure OneByOne (k : Keyboard) (r : Nat) : Prop where
  alone : k.Alone r
  clearing : ∀ c, k.control r = .clear c → k.pendingKey = c ∧ c ≠ 0
  kept : k.AllKept r

section Reader

variable {k k' : Keyboard} {r : Nat}

theorem ReaderStep.inOrder (h : k.InOrder r) (hstep : ReaderStep r k k') : k'.InOrder r := by
  obtain ⟨a, hcall, hstep⟩ := hstep
  obtain ⟨halone, heffect⟩ := hstep.effect h.alone hcall
  refine ⟨halone, ?_⟩
  have hsub := h.sublist
  cases heffect with
  | quiet hheld hpressed hreturned _ =>
    rw [hheld, hpressed, hreturned]
    exact hsub
  | @returns c hclear hheld hpressed hreturned _ =>
    have hc : k.held r = [c] := by
      unfold held
      rw [hclear]
    rw [hheld, hpressed, hreturned, List.append_nil, ← hc]
    exact hsub
  | @presses scancode _ hkey hcontrol hpending hpressed hreturned =>
    rw [hpressed, hreturned]
    rcases held_of_pressed (r := r) hkey hcontrol hpending with hheld | ⟨c, hclear, hheld⟩
    · rw [hheld]
      have hret : List.Sublist k.returned k.pressed := (List.sublist_append_left _ _).trans hsub
      exact hret.append_right _
    · have hc : k.held r = [c] := by
        unfold held
        rw [hclear]
      rw [hheld, ← hc]
      exact hsub.trans (List.sublist_append_left _ _)

theorem SpacedStep.oneByOne (h : k.OneByOne r) (hstep : SpacedStep r k k') : k'.OneByOne r := by
  obtain ⟨a, hcall, hspaced, hstep⟩ := hstep
  obtain ⟨halone, heffect⟩ := hstep.effect h.alone hcall
  have hkept : k.returned ++ k.held r = k.pressed := h.kept
  cases heffect with
  | quiet hheld hpressed hreturned hclear =>
    refine ⟨halone, fun c hc => ?_, ?_⟩
    · obtain ⟨hpending, hold | ⟨hpend, hne⟩⟩ := hclear c hc
      · rw [hpending]
        exact h.clearing c hold
      · exact ⟨hpending.trans hpend.symm, hne⟩
    · rw [AllKept, hheld, hpressed, hreturned]
      exact hkept
  | @returns c hclear hheld hpressed hreturned hdone =>
    refine ⟨halone, fun x hx => ?_, ?_⟩
    · rw [hdone] at hx
      cases hx
    · have hc : k.held r = [c] := by
        unfold held
        rw [hclear]
      rw [AllKept, hheld, hpressed, hreturned, List.append_nil, ← hc]
      exact hkept
  | @presses scancode haction hkey hcontrol hpending hpressed hreturned =>
    -- nothing is pending, so the reader is not about to return a key either
    have hfree := hspaced scancode haction hkey
    have hno : ∀ c, k.control r ≠ .clear c := by
      intro c hc
      obtain ⟨hpend, hne⟩ := h.clearing c hc
      exact hne (hpend.symm.trans hfree)
    refine ⟨halone, fun c hc => ?_, ?_⟩
    · rw [hcontrol] at hc
      exact absurd hc (hno c)
    · have hempty : k.held r = [] := by
        rw [held_of_ne_clear hno, if_pos hfree]
      rcases held_of_pressed (r := r) hkey hcontrol hpending with hheld | ⟨c, hclear, -⟩
      · rw [AllKept, hheld, hpressed, hreturned, ← hkept, hempty, List.append_nil]
      · exact absurd hclear (hno c)

end Reader

end Keyboard

/-- **Keystrokes.**  Whatever the interleaving, the characters a single reader has got were pressed in
this order, each returned once; and as long as no key comes while another one is pending, they are
the first characters pressed, and the driver holds all the others. -/
theorem keystrokes_in_order (s : Kernel) (r : Nat) :
    (∀ k, ReflTransGen (ReaderStep r) (start s) k → List.Sublist k.returned k.pressed) ∧
      ∀ k, ReflTransGen (SpacedStep r) (start s) k → k.returned <+: k.pressed ∧ k.AllKept r := by
  have halone : (start s).Alone r := ⟨fun _ _ => rfl, by simp [start]⟩
  constructor
  · intro k hreach
    have horder : k.InOrder r := reach_invariant (I := fun k => k.InOrder r) hreach
      ⟨halone, by simp [start, held]⟩ fun _ _ h hstep => ReaderStep.inOrder h hstep
    exact (List.sublist_append_left _ _).trans horder.sublist
  · intro k hreach
    have hone : k.OneByOne r := reach_invariant (I := fun k => k.OneByOne r) hreach
      ⟨halone, by simp [start], by simp [start, AllKept, held]⟩
      fun _ _ h hstep => SpacedStep.oneByOne h hstep
    exact ⟨⟨k.held r, hone.kept⟩, hone.kept⟩

/-- The process 1 of `twoQueued` has read the key `a`, and `b` is pending. -/
def readsOne : Keyboard :=
  let k := ((start twoQueued).goto 0x1000 .test).goto 0x1000 .take
  { (k.goto 0x1000 (.clear 0x61)).goto 0x1000 .outside with
    pendingKey := 0x62, pressed := [0x61, 0x62], returned := [0x61] }

theorem keystrokes_in_order_one_key : ReflTransGen (SpacedStep 0x1000) (start twoQueued) readsOne ∧
    List.Sublist readsOne.returned readsOne.pressed ∧ readsOne.returned <+: readsOne.pressed ∧
    readsOne.AllKept 0x1000 := by
  have hreach : ReflTransGen (SpacedStep 0x1000) (start twoQueued) readsOne := by
    refine .head ⟨_, by simp, by simp [start], Step.key 0x1E⟩ ?_
    refine .head ⟨_, by simp, by simp, Step.call (p := 0x1000) ⟨rfl, by decide, rfl⟩ rfl⟩ ?_
    refine .head ⟨_, by simp, by simp, Step.found (p := 0x1000) ⟨rfl, by decide, by decide⟩
      (by decide)⟩ ?_
    refine .head ⟨_, by simp, by simp, Step.take (p := 0x1000) ⟨rfl, by decide, by decide⟩⟩ ?_
    refine .head ⟨_, by simp, by simp, Step.clear (p := 0x1000) (c := 0x61)
      ⟨rfl, by decide, by decide⟩⟩ ?_
    exact .single ⟨_, by simp, fun _ _ _ => rfl, Step.key 0x30⟩
  have hany : ReflTransGen (ReaderStep 0x1000) (start twoQueued) readsOne := by
    refine ReflTransGen.mono (fun k k' h => ?_) _ _ hreach
    obtain ⟨a, hcall, -, hstep⟩ := h
    exact ⟨a, hcall, hstep⟩
  obtain ⟨horder, hkept⟩ := keystrokes_in_order twoQueued 0x1000
  exact ⟨hreach, horder _ hany, hkept _ hreach⟩

/-- **One character of buffer.**  The keys `a` and `b` come before anybody reads: `a` is gone. -/
theorem second_key_replaces_first :
    ¬ ∀ (s : Kernel) (r : Nat) (k : Keyboard), ReflTransGen (ReaderStep r) (start s) k →
      k.returned <+: k.pressed ∧ k.AllKept r := by
  intro h
  have hreach : ReflTransGen (ReaderStep 0x1000) (start twoQueued)
      { start twoQueued with pendingKey := 0x62, pressed := [0x61, 0x62] } := by
    refine .head ⟨_, by simp, Step.key 0x1E⟩ ?_
    exact .single ⟨_, by simp, Step.key 0x30⟩
  have hkept := (h twoQueued 0x1000 _ hreach).2
  revert hkept
  unfold AllKept
  decide

end AcornOS
