/-
# Sleeping

`sleep` and `usleep` of the C library turn their argument into milliseconds, `sys_sleep` turns these into
ticks and notes the tick at which the process is to be woken, and `scheduler_wake_sleepers` compares that
with the counter of the timer: at every tick, and once in `sys_sleep` itself, through `scheduler_yield`.

Time is in microseconds here.  Tick `k` is at `tickTime k`, and until the next one the counter is
`k` modulo 2^32.

**`sleeper_never_early_iff`** says exactly when the sleeper is not woken early.  Three things go wrong.

* The duration is counted from the LAST TICK, and not from the call; what is left over when it is rounded up
  to whole ticks has to make up for that.
* `usleep` rounds DOWN to milliseconds first.
* When the counter wraps around before the time has come, the process is woken AT ONCE.
-/
import AcornOS.Processes.Fairness

namespace AcornOS

open Lib

/-! ## 1. The library calls -/

/-- What `sleep` passes to `SYS_SLEEP`. -/
def sleepArg (seconds : BitVec 32) : BitVec 64 := seconds.setWidth 64 * 1000

/-- What `usleep` passes to `SYS_SLEEP`. -/
def usleepArg (microseconds : BitVec 32) : BitVec 64 :=
  let ms := (microseconds / 1000).setWidth 64
  if ms = 0 then 1 else ms

/-- A call that puts the process to sleep. -/
inductive SleepCall where
  | sleep (seconds : BitVec 32)
  | usleep (microseconds : BitVec 32)
  | sysSleep (ms : BitVec 64)
deriving DecidableEq

namespace SleepCall

/-- The argument of `SYS_SLEEP`. -/
def rdi : SleepCall → BitVec 64
  | sleep seconds => sleepArg seconds
  | usleep microseconds => usleepArg microseconds
  | sysSleep ms => ms

/-- The duration that is asked for, in microseconds. -/
def duration : SleepCall → Nat
  | sleep seconds => seconds.toNat * 1000000
  | usleep microseconds => microseconds.toNat
  | sysSleep ms => ms.toNat * 1000

/-- The milliseconds that reach the kernel. -/
def millis : SleepCall → Nat
  | sleep seconds => seconds.toNat * 1000
  | usleep microseconds => max 1 (microseconds.toNat / 1000)
  | sysSleep ms => ms.toNat

/-- These in ticks of 10 milliseconds, rounded up. -/
def ticks (call : SleepCall) : Nat := (call.millis + 9) / 10

theorem toNat_rdi (call : SleepCall) : call.rdi.toNat = call.millis := by
  cases call with
  | sleep seconds =>
    have := seconds.isLt
    simp only [rdi, sleepArg, millis, BitVec.toNat_mul, BitVec.toNat_setWidth, BitVec.ofNat_eq_ofNat,
      BitVec.toNat_ofNat]
    omega
  | usleep microseconds =>
    have := microseconds.isLt
    have hms : ((microseconds / 1000).setWidth 64).toNat = microseconds.toNat / 1000 := by
      simp only [BitVec.toNat_setWidth, BitVec.toNat_udiv, BitVec.ofNat_eq_ofNat, BitVec.toNat_ofNat,
        Nat.reducePow, Nat.reduceMod]
      omega
    simp only [rdi, usleepArg, millis]
    split
    · rename_i hzero
      rw [hzero] at hms
      rw [← hms]
      rfl
    · rename_i hpos
      have : microseconds.toNat / 1000 ≠ 0 := fun h => hpos (BitVec.eq_of_toNat_eq (by rw [hms, h]; rfl))
      rw [hms]
      omega
  | sysSleep ms => rfl

/-- Nothing is rounded by more than a tick, but by `usleep`, whose durations are short. -/
theorem duration_spec (call : SleepCall) :
    (call.duration ≠ 0 → 0 < call.ticks) ∧
      (2 ^ 32 ≤ call.ticks → 10000 * (call.ticks - 1) < call.duration) := by
  unfold ticks
  cases call with
  | sleep seconds =>
    simp only [duration, millis]
    omega
  | usleep microseconds =>
    have := microseconds.isLt
    simp only [duration, millis]
    omega
  | sysSleep ms =>
    simp only [duration, millis]
    omega

end SleepCall

/-- The ticks that `sys_sleep` computes. -/
def sleepTicks (rdi : BitVec 64) : BitVec 32 :=
  let ticks := ((rdi * timerFrequency + 999) / 1000).setWidth 32
  if ticks = 0 then 1 else ticks

theorem toNat_sleepTicks (rdi : BitVec 64) : (sleepTicks rdi).toNat =
    max 1 ((rdi.toNat * 100 + 999) % 2 ^ 64 / 1000 % 2 ^ 32) := by
  have hticks : (((rdi * timerFrequency + 999) / 1000).setWidth 32).toNat =
      (rdi.toNat * 100 + 999) % 2 ^ 64 / 1000 % 2 ^ 32 := by
    simp only [timerFrequency, BitVec.toNat_setWidth, BitVec.toNat_udiv, BitVec.toNat_add, BitVec.toNat_mul,
      BitVec.ofNat_eq_ofNat, BitVec.toNat_ofNat, Nat.reducePow, Nat.reduceMod, Nat.mod_add_mod]
  unfold sleepTicks
  simp only
  split
  · rename_i hzero
    rw [hzero] at hticks
    rw [← hticks]
    rfl
  · rename_i hpos
    have hne : (rdi.toNat * 100 + 999) % 2 ^ 64 / 1000 % 2 ^ 32 ≠ 0 := fun h =>
      hpos (BitVec.eq_of_toNat_eq (by rw [hticks, h]; rfl))
    rw [hticks]
    omega

/-- If the ticks fit into the counter, they are what `sys_sleep` computes. -/
theorem SleepCall.toNat_sleepTicks_rdi {call : SleepCall} (hlt : call.ticks < 2 ^ 32)
    (hpos : 0 < call.ticks) : (sleepTicks call.rdi).toNat = call.ticks := by
  unfold SleepCall.ticks at *
  have hfits : (call.millis * 100 + 999) % 2 ^ 64 = call.millis * 100 + 999 :=
    Nat.mod_eq_of_lt (by omega)
  rw [toNat_sleepTicks, call.toNat_rdi, hfits]
  omega

/-! ## 2. Who is woken -/

/-- The counter of the timer after `k` ticks. -/
def tickCounter (k : Nat) : BitVec 32 := BitVec.ofNat 32 k

/-- The process sleeps until the counter is `w`. -/
structure Kernel.Asleep (s : Kernel) (p : Nat) (w : BitVec 32) : Prop where
  mem : p ∈ s.processes
  state : (s.pcb p).state = .sleeping
  wake : (s.pcb p).wakeAtTick = w

/-- The process sleeps, and its time has come. -/
def Kernel.Due (s : Kernel) (now : BitVec 32) (p : Nat) : Prop :=
  p ∈ s.processes ∧ (s.pcb p).state = .sleeping ∧ (s.pcb p).wakeAtTick ≤ now

/-- What `scheduler_wake_sleepers` reads of the process is the same. -/
structure Kernel.Keeps (s t : Kernel) (p : Nat) : Prop where
  slot : ∀ i, s.processTable i = p → t.processTable i = p
  state : (t.pcb p).state = (s.pcb p).state
  wake : (t.pcb p).wakeAtTick = (s.pcb p).wakeAtTick

section Waking

variable {s t : Kernel} {p new : Nat} {w now : BitVec 32}

theorem Kernel.Keeps.refl (s : Kernel) (p : Nat) : s.Keeps s p := ⟨fun _ h => h, rfl, rfl⟩

theorem Kernel.Asleep.keeps (h : s.Asleep p w) (hk : s.Keeps t p) : t.Asleep p w := by
  obtain ⟨hp, i, hi, hslot⟩ := h.mem
  exact ⟨⟨hp, i, hi, hk.slot i hslot⟩, hk.state.trans h.state, hk.wake.trans h.wake⟩

/-- A round of `scheduler_wake_sleepers` that is about another process. -/
theorem wakeSleeper_other {i : Nat} (hproc : s.processTable i ≠ p) :
    (wakeSleeper now i s).pcb p = s.pcb p := by
  simp only [wakeSleeper]
  split
  · exact Kernel.modify_of_ne _ _ _ hproc.symm
  · rfl

theorem wakeSleeper_table (now : BitVec 32) (i : Nat) (s : Kernel) :
    (wakeSleeper now i s).processTable = s.processTable := by
  simp only [wakeSleeper]
  split
  · rfl
  · rfl

/-- **`scheduler_wake_sleepers`** wakes those whose time has come, and nobody else. -/
theorem schedulerWakeSleepers_pcb (s : Kernel) (now : BitVec 32) (p : Nat) :
    (schedulerWakeSleepers s now).processTable = s.processTable ∧
      (s.Due now p ∧ (schedulerWakeSleepers s now).pcb p = { s.pcb p with state := .ready } ∨
        ¬ s.Due now p ∧ (schedulerWakeSleepers s now).pcb p = s.pcb p) := by
  have hdue : s.Due now p ↔ (p ≠ 0 ∧ (s.pcb p).state = .sleeping ∧ (s.pcb p).wakeAtTick ≤ now) ∧
      ∃ j < maxProcesses, s.processTable j = p :=
    ⟨fun ⟨⟨hp, hslot⟩, hsleep⟩ => ⟨⟨hp, hsleep⟩, hslot⟩, fun ⟨⟨hp, hsleep⟩, hslot⟩ => ⟨⟨hp, hslot⟩, hsleep⟩⟩
  rw [hdue]
  unfold schedulerWakeSleepers
  generalize hW : (p ≠ 0 ∧ (s.pcb p).state = .sleeping ∧ (s.pcb p).wakeAtTick ≤ now) = W
  generalize maxProcesses = n
  refine loop_invariant (I := fun i (t : Kernel) => t.processTable = s.processTable ∧
    ((W ∧ ∃ j < i, s.processTable j = p) ∧ t.pcb p = { s.pcb p with state := .ready } ∨
      ¬ (W ∧ ∃ j < i, s.processTable j = p) ∧ t.pcb p = s.pcb p)) ⟨rfl, Or.inr ⟨by simp, rfl⟩⟩ ?_
  rintro i t - ⟨htable, hpcb⟩
  refine ⟨(wakeSleeper_table now i t).trans htable, ?_⟩
  by_cases hproc : t.processTable i = p
  · have hlast : ∃ j < i + 1, s.processTable j = p := ⟨i, Nat.lt_succ_self i, by rw [← htable, hproc]⟩
    obtain ⟨⟨hw, -⟩, hpcb⟩ | ⟨-, hpcb⟩ := hpcb
    · -- it has been woken already
      have hready : (t.pcb p).state = .ready := by rw [hpcb]
      refine Or.inl ⟨⟨hw, hlast⟩, ?_⟩
      rw [wakeSleeper, hproc, if_neg fun hwake => absurd (hready.symm.trans hwake.2.1) (by decide)]
      exact hpcb
    · by_cases hw : W
      · refine Or.inl ⟨⟨hw, hlast⟩, ?_⟩
        rw [wakeSleeper, hproc, if_pos (by rw [hpcb, hW]; exact hw), Kernel.modify_self, hpcb]
      · refine Or.inr ⟨fun h => hw h.1, ?_⟩
        rw [wakeSleeper, hproc, if_neg (by rw [hpcb, hW]; exact hw), hpcb]
  · have hlast : (∃ j < i + 1, s.processTable j = p) ↔ ∃ j < i, s.processTable j = p := by
      rw [htable] at hproc
      simp only [Nat.lt_succ_iff_lt_or_eq, or_and_right, exists_or, exists_eq_left, hproc, or_false]
    rwa [wakeSleeper_other hproc, hlast]

theorem Kernel.Asleep.due_iff (h : s.Asleep p w) : s.Due now p ↔ w ≤ now := by
  rw [Kernel.Due, and_iff_right h.mem, and_iff_right h.state, h.wake]

theorem Kernel.Asleep.woken_iff (h : s.Asleep p w) :
    ((schedulerWakeSleepers s now).pcb p).state = .ready ↔ w ≤ now := by
  rw [← h.due_iff]
  obtain ⟨hdue, hpcb⟩ | ⟨hnot, hpcb⟩ := (schedulerWakeSleepers_pcb s now p).2
  · exact iff_of_true (by rw [hpcb]) hdue
  · exact iff_of_false (by rw [hpcb, h.state]; decide) hnot

/-- Those who are not woken sleep on. -/
theorem Kernel.Asleep.not_woken (h : s.Asleep p w) (hw : ¬ w ≤ now) :
    (schedulerWakeSleepers s now).Asleep p w := by
  obtain ⟨htable, hpcb⟩ := schedulerWakeSleepers_pcb s now p
  obtain ⟨-, hpcb⟩ := hpcb.resolve_left fun hdue => hw (h.due_iff.mp hdue.1)
  exact h.keeps ⟨fun i hi => by rw [htable]; exact hi, by rw [hpcb], by rw [hpcb]⟩

/-- **`sys_sleep`** puts the caller to sleep. -/
theorem asleep_sysSleep (h : s.currentProcess ∈ s.processes) (now : BitVec 32) (rdi : BitVec 64) :
    (sysSleep s now rdi).Asleep s.currentProcess (now + sleepTicks rdi) := by
  rw [sysSleep, if_neg h.1]
  exact ⟨h, by rw [Kernel.modify_self], by rw [Kernel.modify_self]; rfl⟩

/-- A change of a PCB that leaves those who sleep asleep. -/
theorem Kernel.Keeps.modify {f : Process → Process} {a : Nat} (hk : s.Keeps t p)
    (hsleep : (s.pcb p).state = .sleeping) (hwake : ∀ x, (f x).wakeAtTick = x.wakeAtTick)
    (hstate : a = p → ∀ x, x.state = .sleeping → (f x).state = .sleeping) : s.Keeps (t.modify a f) p := by
  by_cases ha : a = p
  · subst ha
    refine ⟨hk.slot, ?_, ?_⟩
    · rw [Kernel.modify_self, hstate rfl _ (hk.state.trans hsleep), hsleep]
    · rw [Kernel.modify_self, hwake, hk.wake]
  · refine ⟨hk.slot, ?_, ?_⟩
    · rw [Kernel.modify_of_ne _ _ _ (Ne.symm ha), hk.state]
    · rw [Kernel.modify_of_ne _ _ _ (Ne.symm ha), hk.wake]

/-- **What `scheduler_tick` does after the waking** leaves those who sleep alone. -/
theorem keeps_schedulerTick (hok : schedulerTick s now = .ok t)
    (hsleep : ((schedulerWakeSleepers s now).pcb p).state = .sleeping) :
    (schedulerWakeSleepers s now).Keeps t p := by
  unfold schedulerTick at hok
  generalize schedulerWakeSleepers s now = u at *
  simp only at hok
  split at hok
  · cases hok
    exact .refl _ _
  split at hok
  · cases hok
    exact .refl _ _
  have hk : u.Keeps (u.modify u.currentProcess fun p => { p with ticksRemaining := p.ticksRemaining - 1 }) p :=
    (Kernel.Keeps.refl u p).modify hsleep (fun _ => rfl) fun _ _ hx => hx
  generalize u.modify u.currentProcess _ = v at hok hk
  split at hok
  · cases hok
    exact hk
  split at hok
  · cases hok
  split at hok
  · cases hok
    exact hk.modify hsleep (fun _ => rfl) fun _ _ hx => hx
  rename_i hcan
  split at hok
  · cases hok
    exact hk.modify hsleep (fun _ => rfl) fun _ _ hx => hx
  -- the process that is switched to can run, so it is another one
  cases hok
  have hnew : pickFrom v v.currentProcess maxProcesses v.current.next ≠ p := fun heq => by
    rw [heq, hk.state, hsleep] at hcan
    exact hcan ⟨by decide, by decide⟩
  have hnew₁ := hk.modify (f := fun p => { p with ticksRemaining := p.timeSlice }) hsleep (fun _ => rfl)
    fun heq => absurd heq hnew
  have hold := hnew₁.modify (a := v.currentProcess)
    (f := fun p => { p with state := if p.state = .running then .ready else p.state }) hsleep
    (fun _ => rfl) fun _ x hx => by
      rw [hx]
      rfl
  have hrun := hold.modify (f := fun p => { p with state := .running }) hsleep (fun _ => rfl)
    fun heq => absurd heq hnew
  exact ⟨hrun.slot, hrun.state, hrun.wake⟩

end Waking

/-! ## 3. When it is woken -/

/-- From the call of `sys_sleep` on, which leaves the kernel in the state `s` after `N` ticks: `u N` is what
the call of `scheduler_tick` in `sys_sleep` finds, and `u k` what that of tick `k` finds.  As long as the
process sleeps, the code that runs between two ticks leaves its PCB alone. -/
structure SleepRun (s : Kernel) (p N : Nat) (u : Nat → Kernel) : Prop where
  first : s.Keeps (u N) p
  next : ∀ k, N ≤ k → ∃ t, schedulerTick (u k) (tickCounter k) = .ok t ∧
    ((t.pcb p).state = .sleeping → t.Keeps (u (k + 1)) p)

/-- `scheduler_wake_sleepers` has made the process READY, when the counter stands at `k` ticks. -/
def WokenAt (u : Nat → Kernel) (p k : Nat) : Prop :=
  ((schedulerWakeSleepers (u k) (tickCounter k)).pcb p).state = .ready

section Runs

variable {s : Kernel} {u : Nat → Kernel} {p N F : Nat} {w ticks : BitVec 32}

/-- Until its time has come the process sleeps. -/
theorem SleepRun.asleep (hrun : SleepRun s p N u) (h : s.Asleep p w) {k : Nat} (hk : N ≤ k)
    (hnot : ∀ j, N ≤ j → j < k → ¬ w ≤ tickCounter j) : (u k).Asleep p w := by
  induction k, hk using Nat.le_induction with
  | base => exact h.keeps hrun.first
  | succ k hk ih =>
    have hasleep := ih fun j hj hjk => hnot j hj (Nat.lt_succ_of_lt hjk)
    have hstill := hasleep.not_woken (hnot k hk (Nat.lt_succ_self k))
    obtain ⟨t, hok, hnext⟩ := hrun.next k hk
    have hkept := hstill.keeps (keeps_schedulerTick hok hstill.state)
    exact hkept.keeps (hnext hkept.state)

/-- It is woken at the first tick at which its time has come. -/
theorem SleepRun.isLeast_wokenAt (hrun : SleepRun s p N u) (h : s.Asleep p w)
    (hF : IsLeast {k | N ≤ k ∧ w ≤ tickCounter k} F) : IsLeast {k | N ≤ k ∧ WokenAt u p k} F := by
  have hbefore : ∀ k, N ≤ k → k ≤ F → (u k).Asleep p w := fun k hk hkF =>
    hrun.asleep h hk fun j hj hjk hw => absurd (hF.2 ⟨hj, hw⟩) (Nat.not_le.mpr (hjk.trans_le hkF))
  refine ⟨⟨hF.1.1, (hbefore F hF.1.1 le_rfl).woken_iff.mpr hF.1.2⟩, fun k ⟨hk, hwoken⟩ => ?_⟩
  by_contra hlt
  have hkF := (Nat.not_le.mp hlt).le
  exact hlt (hF.2 ⟨hk, (hbefore k hk hkF).woken_iff.mp hwoken⟩)

/-- **When the time has come**: after as many ticks, or at once if the counter wraps around before. -/
theorem isLeast_elapsed (hpos : 0 < ticks.toNat) :
    IsLeast {k | N ≤ k ∧ tickCounter N + ticks ≤ tickCounter k}
      (if N % 2 ^ 32 + ticks.toNat < 2 ^ 32 then N + ticks.toNat else N) := by
  have hticks := ticks.isLt
  have hle : ∀ k, tickCounter N + ticks ≤ tickCounter k ↔
      (N % 2 ^ 32 + ticks.toNat) % 2 ^ 32 ≤ k % 2 ^ 32 := fun k => by
    rw [BitVec.le_def, BitVec.toNat_add, tickCounter, tickCounter, BitVec.toNat_ofNat, BitVec.toNat_ofNat]
  constructor
  · rw [Set.mem_ofPred_eq, hle]
    split
    · omega
    · omega
  · rintro k ⟨hk, hw⟩
    rw [hle] at hw
    split
    · omega
    · exact hk

end Runs

/-! ## 4. Never early -/

/-- The time of a tick, in microseconds: they come every `1000 / TIMER_FREQUENCY` milliseconds. -/
noncomputable def tickTime (k : Nat) : ℝ := (k : ℝ) * 10000

/-- There have been `N` ticks so far. -/
def TicksSoFar (t : ℝ) (N : Nat) : Prop := tickTime N ≤ t ∧ t < tickTime (N + 1)

/-- When a process that calls at `t` is woken, if that is when the counter stands at `k` ticks: at tick
`k`, or in the call itself. -/
noncomputable def wakeTime (t : ℝ) (k : Nat) : ℝ := max t (tickTime k)

/-- The duration is counted from the last tick: what has passed since then must fit in what it is rounded up
by, and the counter must not wrap around. -/
def SleepCall.Fits (call : SleepCall) (t : ℝ) (N : Nat) : Prop :=
  N % 2 ^ 32 + call.ticks < 2 ^ 32 ∧ (t - tickTime N) + call.duration ≤ tickTime call.ticks

section Times

variable {s : Kernel} {u : Nat → Kernel} {N : Nat} {t : ℝ}

theorem tickTime_add (j k : Nat) : tickTime (j + k) = tickTime j + tickTime k := by
  unfold tickTime
  push_cast
  ring

/-- **If the counter does not wrap around.** -/
theorem SleepCall.late_iff_fits {call : SleepCall} (ht : TicksSoFar t N) (hd : call.duration ≠ 0)
    (hwrap : N % 2 ^ 32 + (sleepTicks call.rdi).toNat < 2 ^ 32) :
    t + call.duration ≤ tickTime (N + (sleepTicks call.rdi).toNat) ↔ call.Fits t N := by
  have hpos := call.duration_spec.1 hd
  by_cases hlt : call.ticks < 2 ^ 32
  · rw [toNat_sleepTicks_rdi hlt hpos] at hwrap ⊢
    rw [tickTime_add, Fits, and_iff_right hwrap]
    constructor
    · intro h
      linarith
    · intro h
      linarith
  · -- the ticks do not fit into 32 bits, and the process is woken far too early
    refine iff_of_false (fun h => ?_) fun hfits => hlt ((Nat.le_add_left _ _).trans_lt hfits.1)
    have hlong := call.duration_spec.2 (Nat.not_lt.mp hlt)
    have hticks := (sleepTicks call.rdi).isLt
    have hless : (sleepTicks call.rdi).toNat * 10000 < call.duration := by omega
    have hless' : tickTime (sleepTicks call.rdi).toNat < call.duration := by
      unfold tickTime
      exact_mod_cast hless
    rw [tickTime_add] at h
    have := ht.1
    linarith

/-- **Exactly when a sleeper is not woken early.** -/
theorem sleeper_never_early_iff (call : SleepCall) (hcur : s.currentProcess ∈ s.processes)
    (ht : TicksSoFar t N)
    (hrun : SleepRun (sysSleep s (tickCounter N) call.rdi) s.currentProcess N u) :
    ∃ k, IsLeast {k | N ≤ k ∧ WokenAt u s.currentProcess k} k ∧
      (t + call.duration ≤ wakeTime t k ↔ call.duration = 0 ∨ call.Fits t N) := by
  have hpos : 0 < (sleepTicks call.rdi).toNat := by
    rw [toNat_sleepTicks]
    exact Nat.le_max_left 1 _
  refine ⟨_, hrun.isLeast_wokenAt (asleep_sysSleep hcur _ _) (isLeast_elapsed hpos), ?_⟩
  by_cases hd : call.duration = 0
  · refine iff_of_true ?_ (Or.inl hd)
    rw [hd, Nat.cast_zero, add_zero]
    exact le_max_left _ _
  have hlate : (0 : ℝ) < call.duration := Nat.cast_pos.mpr (Nat.pos_of_ne_zero hd)
  have hnow : ∀ x, t + call.duration ≤ max t x ↔ t + call.duration ≤ x := fun x => by
    rw [le_max_iff]
    exact or_iff_right (by linarith)
  rw [wakeTime, hnow, or_iff_right hd]
  split
  · rename_i hwrap
    exact SleepCall.late_iff_fits ht hd hwrap
  · rename_i hwrap
    refine iff_of_false (fun h => ?_) fun hfits => hwrap ?_
    · have := ht.1
      linarith
    · have hlt : call.ticks < 2 ^ 32 := (Nat.le_add_left _ _).trans_lt hfits.1
      rw [SleepCall.toNat_sleepTicks_rdi hlt (call.duration_spec.1 hd)]
      exact hfits.1

end Times

/-- The kernel at one tick after the other, with nothing but computing in between. -/
def ticksFrom (s : Kernel) (N : Nat) : Nat → Kernel
  | 0 => s
  | k + 1 => (schedulerTick (ticksFrom s N k) (tickCounter (N + k))).toOption.getD s

theorem sleepRun_ticksFrom {s : Kernel} {added removed q : List Nat} (N p : Nat)
    (h : (⟨s, added, removed⟩ : Scheduling).QueueOk q) : SleepRun s p N fun k => ticksFrom s N (k - N) := by
  have hok : ∀ k, (⟨ticksFrom s N k, added, removed⟩ : Scheduling).QueueOk q := by
    intro k
    induction k with
    | zero => exact h
    | succ k ih =>
      obtain ⟨t, ht, hok, -⟩ := ih.tick (tickCounter (N + k))
      rw [ticksFrom, ht]
      exact hok
  refine ⟨?_, fun k hk => ?_⟩
  · rw [Nat.sub_self]
    exact Kernel.Keeps.refl _ _
  · obtain ⟨j, rfl⟩ := Nat.exists_eq_add_of_le hk
    obtain ⟨t, ht, -⟩ := (hok j).tick (tickCounter (N + j))
    rw [Nat.add_assoc, Nat.add_sub_cancel_left, Nat.add_sub_cancel_left]
    refine ⟨t, ht, fun _ => ?_⟩
    rw [ticksFrom, ht]
    exact Kernel.Keeps.refl _ _

/-- The process 1 of `twoQueued` goes to sleep. -/
theorem sleepRun_twoQueued (N : Nat) (call : SleepCall) :
    SleepRun (sysSleep twoQueued (tickCounter N) call.rdi) 0x1000 N fun k =>
      ticksFrom (sysSleep twoQueued (tickCounter N) call.rdi) N (k - N) := by
  obtain ⟨hok, -⟩ := @Scheduling.QueueOk.restated _ _ _ (fun _ => True) twoQueued_ok
    (restated_sysSleep twoQueued (tickCounter N) call.rdi) (sysSleep_currentProcess _ _ _)
  exact sleepRun_ticksFrom N 0x1000 hok

/-- A second, from tick 5 on. -/
theorem sleeper_never_early_at_tick : ∃ u k,
    SleepRun (sysSleep twoQueued (tickCounter 5) (SleepCall.sleep 1).rdi) 0x1000 5 u ∧
      IsLeast {k | 5 ≤ k ∧ WokenAt u 0x1000 k} k ∧ (50000 : ℝ) + 1000000 ≤ wakeTime 50000 k := by
  have hrun := sleepRun_twoQueued 5 (.sleep 1)
  have ht : TicksSoFar 50000 5 := by
    unfold TicksSoFar tickTime
    norm_num
  have hfits : (SleepCall.sleep 1).Fits 50000 5 := by
    refine ⟨by decide, ?_⟩
    rw [show (SleepCall.sleep 1).duration = 1000000 from rfl, show (SleepCall.sleep 1).ticks = 100 from rfl]
    unfold tickTime
    norm_num
  obtain ⟨k, hk, hiff⟩ := sleeper_never_early_iff (.sleep 1) ⟨by decide, 0, by decide, rfl⟩ ht hrun
  have hlate := hiff.mpr (Or.inr hfits)
  rw [show (SleepCall.sleep 1).duration = 1000000 from rfl] at hlate
  exact ⟨_, k, hrun, hk, by exact_mod_cast hlate⟩

/-- A second, from the middle of a tick on: it takes 995 milliseconds. -/
theorem sleeper_wakes_early : ∃ u k,
    SleepRun (sysSleep twoQueued (tickCounter 0) (SleepCall.sleep 1).rdi) 0x1000 0 u ∧ TicksSoFar 5000 0 ∧
      IsLeast {k | 0 ≤ k ∧ WokenAt u 0x1000 k} k ∧
      wakeTime 5000 k < 5000 + (SleepCall.sleep 1).duration := by
  have hrun := sleepRun_twoQueued 0 (.sleep 1)
  have hasleep := @asleep_sysSleep twoQueued ⟨by decide, 0, by decide, rfl⟩ (tickCounter 0)
    (SleepCall.sleep 1).rdi
  have hleast : IsLeast {k | 0 ≤ k ∧ tickCounter 0 + sleepTicks (SleepCall.sleep 1).rdi ≤ tickCounter k} 100 :=
    isLeast_elapsed (by decide)
  refine ⟨_, 100, hrun, ?_, hrun.isLeast_wokenAt hasleep hleast, ?_⟩
  · unfold TicksSoFar tickTime
    norm_num
  · rw [show (SleepCall.sleep 1).duration = 1000000 from rfl]
    unfold wakeTime tickTime
    norm_num

end AcornOS
