/-
# The idle process

PID 0 is idle: it halts the processor until the next interrupt, and is meant to run when nothing else wants
to.  The walk of `scheduler_tick` does not know that.  It takes the FIRST process behind the current one
that can run, and idle always can; so idle gets a turn in every round of the queue, like everybody else.

**`idle_last_iff`** says exactly when a tick, or a yield, goes to idle over the head of a READY process.
-/
import AcornOS.Processes.Sleep

namespace AcornOS

open Lib
open scoped List

/-! ## 1. Who can run -/

/-- The process is READY once those who have slept long enough are woken. -/
def Kernel.ReadyAt (s : Kernel) (now : BitVec 32) (p : Nat) : Prop :=
  (s.pcb p).state = .ready ∨ s.Due now p

/-- The process can run once those who have slept long enough are woken. -/
def Kernel.CanRun (s : Kernel) (now : BitVec 32) (p : Nat) : Prop :=
  s.ReadyAt now p ∨ (s.pcb p).state = .running

/-- Idle is the next of the processes `rest` that can run, and the current one, which has `slice` ticks left
of its time slice, makes way. -/
structure Kernel.TurnOfIdle (s : Kernel) (now : BitVec 32) (slice : Int) (rest : List Nat) : Prop where
  notIdle : s.current.pid ≠ 0
  ended : ¬ (1 < slice ∧ s.current.state = .running)
  first : ∃ xs idle ys, rest = xs ++ idle :: ys ∧ (s.pcb idle).pid = 0 ∧ s.CanRun now idle ∧
    ∀ p ∈ xs, ¬ s.CanRun now p

/-- The step from `s` to `t` does not switch from another process to idle while a process of the queue is
READY. -/
def IdleLast (s t : Kernel) (now : BitVec 32) (q : List Nat) : Prop :=
  s.current.pid ≠ 0 → t.current.pid = 0 → ∀ p ∈ q, (s.pcb p).pid ≠ 0 →
    ((schedulerWakeSleepers s now).pcb p).state ≠ .ready

section Idle

variable {x : Scheduling} {s t u : Kernel} {q rest : List Nat} {now : BitVec 32} {p : Nat}

theorem wake_ready_iff : ((schedulerWakeSleepers s now).pcb p).state = .ready ↔ s.ReadyAt now p := by
  obtain ⟨hdue, hpcb⟩ | ⟨hnot, hpcb⟩ := (schedulerWakeSleepers_pcb s now p).2
  · exact iff_of_true (by rw [hpcb]) (Or.inr hdue)
  · rw [hpcb, Kernel.ReadyAt, or_iff_left hnot]

theorem wake_running_iff :
    ((schedulerWakeSleepers s now).pcb p).state = .running ↔ (s.pcb p).state = .running := by
  obtain ⟨hdue, hpcb⟩ | ⟨-, hpcb⟩ := (schedulerWakeSleepers_pcb s now p).2
  · rw [hpcb, hdue.2.1]
    exact iff_of_false ProcessState.noConfusion ProcessState.noConfusion
  · rw [hpcb]

theorem counted_runnable_iff : (s.counted now).Runnable p ↔ s.CanRun now p := by
  obtain ⟨-, -, hspec⟩ := counted_spec s now
  rw [Kernel.Runnable, (hspec p).2.1, wake_ready_iff, wake_running_iff, Kernel.CanRun]

/-- The current process goes on if more than this tick is left of its time slice. -/
theorem counted_goesOn_iff : (s.counted now).GoesOn ↔
    1 < s.current.ticksRemaining ∧ s.current.pid ≠ 0 ∧ s.current.state = .running := by
  obtain ⟨hr, hcur, hspec⟩ := counted_spec s now
  have hticks : (s.counted now).current.ticksRemaining = s.current.ticksRemaining - 1 := by
    rw [Kernel.current, hcur, Kernel.counted, Kernel.modify_self]
    obtain ⟨-, hpcb⟩ | ⟨-, hpcb⟩ := (schedulerWakeSleepers_pcb s now s.currentProcess).2
    · rw [hpcb]
      rfl
    · rw [hpcb]
      rfl
  have hpid : (s.counted now).current.pid = s.current.pid := by
    rw [Kernel.current, hcur]
    exact (hr.pcb _).pid_eq
  have hstate : (s.counted now).current.state = .running ↔ s.current.state = .running := by
    rw [Kernel.current, hcur, (hspec _).2.1, wake_running_iff]
    rfl
  rw [Kernel.GoesOn, hticks, hpid, hstate, Int.sub_pos]

/-! ## 2. When it is idle's turn -/

/-- **A tick switches to idle** exactly when it is idle's turn. -/
theorem schedulerTick_idle (now : BitVec 32) (hq : s.Queue q) (hrest : q ~r rest ++ [s.currentProcess])
    (hlen : q.length ≤ maxProcesses) : ∃ t, schedulerTick s now = .ok t ∧
      (s.current.pid ≠ 0 ∧ t.current.pid = 0 ↔
        s.TurnOfIdle now s.current.ticksRemaining rest) := by
  have hcases := schedulerTick_cases now hq hrest hlen
  simp only [counted_goesOn_iff, counted_runnable_iff] at hcases
  obtain ⟨t, ht, hspec⟩ := schedulerTick_spec now hq hrest hlen
  have hpid : ∀ p, (t.pcb p).pid = (s.pcb p).pid := by
    rcases hspec with hstays | ⟨xs, ys, -, hswitch⟩
    · exact fun p => (hstays.restated.pcb p).pid_eq
    · exact fun p => (hswitch.restated.pcb p).pid_eq
  have hsame : t.currentProcess = s.currentProcess → ¬ (s.current.pid ≠ 0 ∧ t.current.pid = 0) :=
    fun hcur h => h.1 (by rw [← h.2, Kernel.current, Kernel.current, hcur, hpid])
  have hcur : (s.counted now).currentProcess = s.currentProcess := (counted_spec s now).2.1
  generalize s.counted now = v at hcases hcur
  refine ⟨t, ht, ?_⟩
  rw [ht] at hcases
  rcases hcases with ⟨hgo, hok⟩ | ⟨hgo, xs, new, ys, rfl, hxs, hnew, hok⟩ | ⟨-, hnone, hok⟩
  · refine iff_of_false (hsame ?_) fun h => h.ended ⟨hgo.1, hgo.2.2⟩
    rw [Except.ok.inj hok, hcur]
  · have hpicked : t.currentProcess = new := by
      rw [Except.ok.inj hok]
      rfl
    rw [show t.current.pid = (s.pcb new).pid by rw [Kernel.current, hpid, hpicked]]
    constructor
    · rintro ⟨hne, hidle⟩
      exact ⟨hne, fun h => hgo ⟨h.1, hne, h.2⟩, xs, new, ys, rfl, hidle, hnew, hxs⟩
    · rintro ⟨hne, -, xs', idle, ys', hsplit, hidle, hrun, hxs'⟩
      obtain rfl := first_unique hsplit hxs hnew hxs' hrun
      exact ⟨hne, hidle⟩
  · refine iff_of_false (hsame ?_) fun h => ?_
    · rw [Except.ok.inj hok]
      exact hcur
    · obtain ⟨xs, idle, ys, rfl, -, hrun, -⟩ := h.first
      exact hnone idle (List.mem_append_right _ List.mem_cons_self) hrun

/-- **A yield** is a tick with nothing left of the time slice. -/
theorem schedulerYield_idle (now : BitVec 32) (hq : s.Queue q) (hrest : q ~r rest ++ [s.currentProcess])
    (hlen : q.length ≤ maxProcesses) : ∃ t, schedulerYield s now = .ok t ∧
      (s.current.pid ≠ 0 ∧ t.current.pid = 0 ↔ s.TurnOfIdle now 0 rest) := by
  have hcur0 : s.currentProcess ≠ 0 := fun h =>
    hq.ne_zero (hrest.mem_iff.mpr (List.mem_append_right _ (List.mem_singleton.mpr h.symm)))
  generalize hu : (s.modify s.currentProcess fun p => { p with ticksRemaining := 0 }) = u
  have hr : Restated s u := hu ▸ restated_modify fun _ => ⟨_, _, _, _, rfl⟩
  have hcur : u.currentProcess = s.currentProcess := by rw [← hu]; rfl
  have hpcb : ∀ p, (u.pcb p).pid = (s.pcb p).pid ∧ (u.pcb p).state = (s.pcb p).state ∧
      (u.pcb p).wakeAtTick = (s.pcb p).wakeAtTick := by
    intro p
    rw [← hu]
    by_cases hp : p = s.currentProcess
    · rw [hp, Kernel.modify_self]
      exact ⟨rfl, rfl, rfl⟩
    · rw [Kernel.modify_of_ne _ _ _ hp]
      exact ⟨rfl, rfl, rfl⟩
  have hticks : u.current.ticksRemaining = 0 := by
    rw [Kernel.current, hcur, ← hu, Kernel.modify_self]
  have hprocs : u.processes = s.processes := by rw [← hu]; rfl
  have hrun : ∀ p, u.CanRun now p ↔ s.CanRun now p := fun p => by
    rw [Kernel.CanRun, Kernel.CanRun, Kernel.ReadyAt, Kernel.ReadyAt, Kernel.Due, Kernel.Due, hprocs,
      (hpcb p).2.1, (hpcb p).2.2]
  have hcurrent : u.current.pid = s.current.pid ∧ u.current.state = s.current.state := by
    rw [Kernel.current, Kernel.current, hcur]
    exact ⟨(hpcb _).1, (hpcb _).2.1⟩
  rw [← hcur] at hrest
  obtain ⟨t, ht, hidle⟩ := schedulerTick_idle now (hr.queue hq) hrest hlen
  refine ⟨t, ?_, ?_⟩
  · rw [schedulerYield, if_neg hcur0, hu, ht]
  rw [← hcurrent.1, hidle, hticks]
  constructor
  · rintro ⟨hne, hended, hfirst⟩
    simp only [hcurrent, hrun, fun p => (hpcb p).1] at hne hended hfirst
    exact ⟨hne, hended, hfirst⟩
  · rintro ⟨hne, hended, hfirst⟩
    simp only [← hcurrent.1, ← hcurrent.2, ← hrun, ← fun p => (hpcb p).1] at hne hended hfirst
    exact ⟨hne, hended, hfirst⟩

/-! ## 3. Idle is not the last -/

theorem idleLast_iff {turn : Prop} (hpick : s.current.pid ≠ 0 ∧ t.current.pid = 0 ↔ turn) :
    IdleLast s t now q ↔ ¬ (turn ∧ ∃ p ∈ q, (s.pcb p).pid ≠ 0 ∧ s.ReadyAt now p) := by
  unfold IdleLast
  simp only [ne_eq, wake_ready_iff, ← hpick]
  constructor
  · rintro h ⟨⟨hne, hidle⟩, p, hp, hpid, hready⟩
    exact h hne hidle p hp hpid hready
  · intro h hne hidle p hp hpid hready
    exact h ⟨⟨hne, hidle⟩, p, hp, hpid, hready⟩

/-- **When idle is the last.**  A tick or a yield goes from another process to idle while somebody is READY,
if and only if somebody is READY and it is the turn of idle; for a yield whatever is left of the slice. -/
theorem idle_last_iff (h : x.QueueOk q) (hrest : q ~r rest ++ [x.kernel.currentProcess])
    (now : BitVec 32) :
    (∃ t, schedulerTick x.kernel now = .ok t ∧ (IdleLast x.kernel t now q ↔
      ¬ (x.kernel.TurnOfIdle now x.kernel.current.ticksRemaining rest ∧
        ∃ p ∈ q, (x.kernel.pcb p).pid ≠ 0 ∧ x.kernel.ReadyAt now p))) ∧
    ∃ t, schedulerYield x.kernel now = .ok t ∧ (IdleLast x.kernel t now q ↔
      ¬ (x.kernel.TurnOfIdle now 0 rest ∧
        ∃ p ∈ q, (x.kernel.pcb p).pid ≠ 0 ∧ x.kernel.ReadyAt now p)) := by
  obtain ⟨t, ht, hpick⟩ := schedulerTick_idle now h.queue hrest h.room
  obtain ⟨t', ht', hpick'⟩ := schedulerYield_idle now h.queue hrest h.room
  exact ⟨⟨t, ht, idleLast_iff hpick⟩, t', ht', idleLast_iff hpick'⟩

end Idle

/-- Without idle in the queue. -/
theorem idle_last_two_processes : ∃ t, schedulerTick twoQueued 0 = .ok t ∧
    IdleLast twoQueued t 0 [0x1000, 0x2000] := by
  have hrest : [0x1000, 0x2000] ~r [0x2000] ++ [twoQueued.currentProcess] := ⟨1, rfl⟩
  obtain ⟨t, ht, hiff⟩ := (idle_last_iff twoQueued_ok hrest 0).1
  refine ⟨t, ht, hiff.mpr fun hturn => ?_⟩
  obtain ⟨xs, idle, ys, hsplit, hpid, -⟩ := hturn.1.first
  obtain rfl : idle = 0x2000 := List.mem_singleton.mp (hsplit ▸ List.mem_append_right _ List.mem_cons_self)
  exact absurd hpid (by decide)

/-- Idle, a READY process, and a process with the last tick of its time slice. -/
def idleQueued : Kernel :=
  { twoQueued with
    pcb := fun p =>
      if p = 0x1000 then queuedPcb 0 .ready 0x2000
      else if p = 0x2000 then queuedPcb 1 .ready 0x3000
      else { queuedPcb 2 .running 0x1000 with ticksRemaining := 1 }
    processTable := fun i => if i < 3 then 0x1000 * (i + 1) else 0
    currentProcess := 0x3000
    runQueueTail := 0x3000 }

theorem idleQueued_ok :
    (⟨idleQueued, [0, 1, 2], []⟩ : Scheduling).QueueOk [0x1000, 0x2000, 0x3000] := by
  refine ⟨⟨⟨?_, rfl, rfl, by decide, by decide⟩, by decide, by decide, by simp⟩, by decide, by decide⟩
  refine (@ring_iff_isChain _ _ [0x1000, 0x2000] _).mpr ?_
  simp [Leads, Kernel.link, idleQueued, queuedPcb]

/-- The tick goes to idle, though PID 1 is READY. -/
theorem idle_before_ready : ∃ t, schedulerTick idleQueued 0 = .ok t ∧
    ¬ IdleLast idleQueued t 0 [0x1000, 0x2000, 0x3000] := by
  have hturn : idleQueued.TurnOfIdle 0 idleQueued.current.ticksRemaining [0x1000, 0x2000] :=
    ⟨by decide, by decide, [], 0x1000, [0x2000], rfl, rfl, Or.inl (Or.inl rfl), by simp⟩
  have hrest : [0x1000, 0x2000, 0x3000] ~r [0x1000, 0x2000] ++ [idleQueued.currentProcess] := ⟨0, rfl⟩
  obtain ⟨t, ht, hpick⟩ := schedulerTick_idle (s := idleQueued) 0 idleQueued_ok.queue hrest idleQueued_ok.room
  obtain ⟨hne, hidle⟩ := hpick.mpr hturn
  exact ⟨t, ht, fun h => h hne hidle 0x2000 (by simp) (by decide) (wake_ready_iff.mpr (Or.inl rfl))⟩

end AcornOS
