/-
# The exit/wait protocol

`sys_exit` marks the process DEAD and wakes its parent; `sys_wait` and `process_wait` look for a dead
child, and block if there is none.  The comments in the source tell of two lost wake-ups, and the
sections between `cli` and `sti` are there to prevent them.

Here each of these sections is ONE step, and between two of them anything may happen: ticks, wake-ups,
other processes that fork, exit and wait.  In particular `sti` comes before the dead child is taken
apart, so finding a child (`found`) and reaping it (`reaped`) are two steps.

* `Control` says where in these routines a process is.
* `Unconcerned` is what all the other steps have in common: nobody dies, and nobody is reaped.
* `exit_wait_protocol` is the theorem: no wake-up is lost, and what `sys_wait` returns is right.
-/
import AcornOS.Processes.SchedulerRuns

namespace AcornOS

open Lib Relation

/-! ## 1. The system -/

/-- Where a process is. -/
inductive Control where
  /-- In its program, or in some other routine of the kernel. -/
  | elsewhere
  /-- In the loop of `sys_wait`. -/
  | waiting
  /-- `sys_wait` has found a dead child in this slot. -/
  | reaping (slot : Nat)
  /-- In the loop of `process_wait`. -/
  | waitingFor (pid : Nat)
  /-- `process_wait` has found a dead child in this slot. -/
  | reapingFor (slot : Nat)
deriving Repr, DecidableEq

/-- The kernel, with the control point of every PID and what each PID has passed to `sys_exit`. -/
structure System extends Scheduling where
  control : Nat → Control
  exits : Nat → Option (BitVec 64)

/-- What `sys_wait` returns: after it has reaped a child, or -1. -/
inductive Event where
  | silent
  | returned (child : Nat) (value : BitVec 64)
  | noChild
deriving Repr, DecidableEq

namespace System

/-- The current process executes: it is not in a call of `scheduler_yield` that has not returned. -/
def Runs (x : System) : Prop := x.kernel.Runnable x.kernel.currentProcess

/-- The control point of the current process. -/
def here (x : System) : Control := x.control x.kernel.current.pid

/-- The current process moves to another control point. -/
def goto (x : System) (c : Control) : System :=
  { x with control := Function.update x.control x.kernel.current.pid c }

end System

/-- Other things that the current process may do. -/
inductive CodeStep : Scheduling → Scheduling → Prop
  | create {x : Scheduling} {u v t : Kernel} {name : Option (List (BitVec 8))} {entry flags p : Nat}
      (hcreate : processCreate x.kernel name entry flags = .ok (p, u)) (hprep : Prepared u v p)
      (hadd : schedulerAdd v p = .ok t) :
      CodeStep x { x with kernel := t, added := x.added ++ [(v.pcb p).pid] }
  | spawn {x : Scheduling} {t : Kernel} {path : Option (List (BitVec 8))} {file : Option FileRead}
      {argv : Option (List (List (BitVec 8)))} {pid : Option Nat}
      (h : processSpawn x.kernel path file argv = .ok (pid, t)) :
      CodeStep x { x with kernel := t, added := x.added ++ pid.toList }
  | fork {x : Scheduling} {t : Kernel} {p pid : Nat} (h : processFork x.kernel = .ok (pid, t))
      (hp : p ∈ t.processes) (hnew : p ∉ x.kernel.processes) :
      CodeStep x { x with kernel := t, added := x.added ++ [pid] }
  | forkFails {x : Scheduling} {t : Kernel} {pid : Nat} (h : processFork x.kernel = .ok (pid, t))
      (hnone : t.processes = x.kernel.processes) : CodeStep x { x with kernel := t }
  | block {x : Scheduling} (hidle : x.kernel.current.pid ≠ 0) :
      CodeStep x { x with kernel := processBlock x.kernel x.kernel.currentProcess }
  | sleep {x : Scheduling} (now : BitVec 32) (rdi : BitVec 64) (hidle : x.kernel.current.pid ≠ 0) :
      CodeStep x { x with kernel := sysSleep x.kernel now rdi }

/-- What may happen at any moment: a wake-up of anybody, a tick, and a call of `scheduler_yield`. -/
inductive Interrupt : Scheduling → Scheduling → Prop
  | wake {x : Scheduling} (p : Nat) : Interrupt x { x with kernel := processWake x.kernel p }
  | tick {x : Scheduling} {t : Kernel} {now : BitVec 32} (h : schedulerTick x.kernel now = .ok t) :
      Interrupt x { x with kernel := t }
  | yield {x : Scheduling} {t : Kernel} {now : BitVec 32} (h : schedulerYield x.kernel now = .ok t) :
      Interrupt x { x with kernel := t }

/-- One step of the system.  PID 0 is idle, which neither waits nor exits. -/
inductive System.Step : System → Event → System → Prop
  | code {x : System} {y : Scheduling} (hruns : x.Runs) (hhere : x.here = .elsewhere)
      (h : CodeStep x.toScheduling y) : Step x .silent { x with toScheduling := y }
  | interrupt {x : System} {y : Scheduling} (h : Interrupt x.toScheduling y) :
      Step x .silent { x with toScheduling := y }
  | exit {x : System} {t : Kernel} {rdi : BitVec 64} (hruns : x.Runs) (hhere : x.here = .elsewhere)
      (hidle : x.kernel.current.pid ≠ 0) (h : sysExit x.kernel rdi = .ok t) :
      Step x .silent { x with
        kernel := t, exits := Function.update x.exits x.kernel.current.pid (some rdi) }
  | wait {x : System} (hruns : x.Runs) (hhere : x.here = .elsewhere)
      (hidle : x.kernel.current.pid ≠ 0) : Step x .silent (x.goto .waiting)
  | found {x : System} {i : Nat} (hruns : x.Runs) (hhere : x.here = .waiting)
      (h : deadChild x.kernel = some i) : Step x .silent (x.goto (.reaping i))
  | blocks {x : System} (hruns : x.Runs) (hhere : x.here = .waiting)
      (hnone : deadChild x.kernel = none) (hchildren : hasChildren x.kernel = true) :
      Step x .silent { x with kernel := processBlock x.kernel x.kernel.currentProcess }
  | noChild {x : System} (hruns : x.Runs) (hhere : x.here = .waiting)
      (hnone : deadChild x.kernel = none) (hchildren : hasChildren x.kernel = false) :
      Step x .noChild (x.goto .elsewhere)
  | reaped {x : System} {t : Kernel} {i : Nat} (hruns : x.Runs) (hhere : x.here = .reaping i)
      (h : reap x.kernel i = .ok t) :
      Step x (.returned (x.kernel.pcb (x.kernel.processTable i)).pid
          ((x.kernel.pcb (x.kernel.processTable i)).exitCode.signExtend 64))
        { x.goto .elsewhere with
          kernel := t, removed := x.removed ++ [(x.kernel.pcb (x.kernel.processTable i)).pid] }
  | waitFor {x : System} {p : Nat} (hruns : x.Runs) (hhere : x.here = .elsewhere)
      (hidle : x.kernel.current.pid ≠ 0) (hp : p ∈ x.kernel.processes)
      (hchild : (x.kernel.pcb p).parentPid = x.kernel.current.pid) :
      Step x .silent (x.goto (.waitingFor (x.kernel.pcb p).pid))
  | foundFor {x : System} {pid i : Nat} (hruns : x.Runs) (hhere : x.here = .waitingFor pid)
      (h : deadWithPid x.kernel pid = some i) : Step x .silent (x.goto (.reapingFor i))
  | blocksFor {x : System} {pid : Nat} (hruns : x.Runs) (hhere : x.here = .waitingFor pid)
      (hnone : deadWithPid x.kernel pid = none) :
      Step x .silent { x with kernel := processBlock x.kernel x.kernel.currentProcess }
  | reapedFor {x : System} {t : Kernel} {i : Nat} (hruns : x.Runs) (hhere : x.here = .reapingFor i)
      (h : reap x.kernel i = .ok t) :
      Step x .silent { x.goto .elsewhere with
        kernel := t, removed := x.removed ++ [(x.kernel.pcb (x.kernel.processTable i)).pid] }

/-! ## 2. Steps that do not concern the protocol -/

/-- `Unconcerned s t`: nobody has died or been reaped, and new processes are alive. -/
structure Unconcerned (s t : Kernel) : Prop where
  slots : ∀ i < maxProcesses, s.processTable i ≠ 0 → t.processTable i = s.processTable i
  pid : ∀ p ∈ s.processes, (t.pcb p).pid = (s.pcb p).pid
  parentPid : ∀ p ∈ s.processes, (t.pcb p).parentPid = (s.pcb p).parentPid
  exitCode : ∀ p ∈ s.processes, (t.pcb p).exitCode = (s.pcb p).exitCode
  dead : ∀ p ∈ s.processes, (t.pcb p).state = .dead ↔ (s.pcb p).state = .dead
  fresh : ∀ p ∈ t.processes, p ∉ s.processes →
    (t.pcb p).state = .ready ∧ s.nextPid ≤ (t.pcb p).pid
  nextPid : s.nextPid ≤ t.nextPid

section Unconcerned

variable {x y : Scheduling} {s t u : Kernel} {q : List Nat} {p parent : Nat}

theorem Unconcerned.mem (h : Unconcerned s t) (hp : p ∈ s.processes) : p ∈ t.processes := by
  obtain ⟨hp0, i, hi, rfl⟩ := hp
  exact ⟨hp0, i, hi, h.slots i hi hp0⟩

theorem Entered.unconcerned (h : Entered s u p parent) (hadd : schedulerAdd u p = .ok t) :
    Unconcerned s t := by
  obtain ⟨t', hadd', hr⟩ := schedulerAdd_requeued (s := u) ((h.mem p).mpr (Or.inl rfl)).1
  obtain rfl := Except.ok.inj (hadd.symm.trans hadd')
  obtain ⟨hready, -⟩ := schedulerAdd_state hadd
  obtain ⟨-, -, hpid⟩ := schedulerAdd_pid hadd
  have hsame : ∀ a ∈ s.processes, ∃ n, t.pcb a = { s.pcb a with next := n } := by
    intro a ha
    have hap : a ≠ p := fun hap => h.fresh (hap ▸ ha)
    obtain ⟨n, hn⟩ := hr.pcb a
    exact ⟨n, by rw [hn, Kernel.modify_of_ne _ _ _ hap, h.others a hap]⟩
  refine ⟨fun i hi hne => ?_, fun a ha => ?_, fun a ha => ?_, fun a ha => ?_, fun a ha => ?_,
    fun a ha hnew => ?_, ?_⟩
  · rw [hr.table]
    exact h.slots i hi hne
  · obtain ⟨n, hn⟩ := hsame a ha
    rw [hn]
  · obtain ⟨n, hn⟩ := hsame a ha
    rw [hn]
  · obtain ⟨n, hn⟩ := hsame a ha
    rw [hn]
  · obtain ⟨n, hn⟩ := hsame a ha
    rw [hn]
  · rw [schedulerAdd_processes hadd] at ha
    obtain rfl := ((h.mem a).mp ha).resolve_right hnew
    exact ⟨hready, (hpid a).trans h.pid ▸ le_rfl⟩
  · rw [hr.nextPid]
    exact h.nextPid ▸ Nat.le_succ _

theorem Refused.unconcerned (h : Refused s t) : Unconcerned s t := by
  refine ⟨h.slots, fun a ha => ?_, fun a ha => ?_, fun a ha => ?_, fun a ha => ?_,
    fun a ha hnew => absurd (h.processes ▸ ha) hnew, h.nextPid⟩
  · rw [h.pcb a ha]
  · rw [h.pcb a ha]
  · rw [h.pcb a ha]
  · rw [h.pcb a ha]

theorem Restated.unconcerned (h : Restated s t) (hcode : ∀ p, (t.pcb p).exitCode = (s.pcb p).exitCode)
    (hdead : ∀ p ∈ s.processes, (t.pcb p).state = .dead ↔ (s.pcb p).state = .dead) :
    Unconcerned s t where
  slots i _ _ := congrFun h.table i
  pid p _ := (h.pcb p).pid_eq
  parentPid p _ := (h.pcb p).parentPid_eq
  exitCode p _ := hcode p
  dead := hdead
  fresh _ hp hnew := absurd (h.processes_eq ▸ hp) hnew
  nextPid := h.nextPid.ge

/-- A process that is alive gets another state in which it is alive. -/
theorem unconcerned_suspend {f : Process → Process} (hp : (s.pcb p).state ≠ .dead)
    (hf : ∀ y, SameProcess (f y) y) (hcode : ∀ y, (f y).exitCode = y.exitCode)
    (hstate : ∀ y, (f y).state ≠ .dead) : Unconcerned s (s.modify p f) := by
  refine (restated_modify hf).unconcerned (fun a => ?_) fun a _ => ?_
  · by_cases ha : a = p
    · rw [ha, Kernel.modify_self]
      exact hcode _
    · rw [Kernel.modify_of_ne _ _ _ ha]
  · by_cases ha : a = p
    · rw [ha, Kernel.modify_self]
      exact iff_of_false (hstate _) hp
    · rw [Kernel.modify_of_ne _ _ _ ha]

theorem unconcerned_processBlock (s : Kernel) (hp : (s.pcb p).state ≠ .dead) :
    Unconcerned s (processBlock s p) := by
  unfold processBlock
  split
  · exact (Restated.refl s).unconcerned (fun _ => rfl) fun _ _ => Iff.rfl
  · exact unconcerned_suspend hp (fun _ => ⟨_, _, _, _, rfl⟩) (fun _ => rfl) fun _ => by simp

/-- **What the current process does elsewhere** is a step of the scheduler and does not concern the
protocol. -/
theorem CodeStep.unconcerned (h : x.Ok q) (hruns : x.kernel.Runnable x.kernel.currentProcess)
    (hstep : CodeStep x y) : SchedulerStep x y ∧ Unconcerned x.kernel y.kernel ∧
      y.removed = x.removed ∧ ∀ p ∈ x.kernel.processes, p ≠ x.kernel.currentProcess →
        (y.kernel.pcb p).state = .blocked → (x.kernel.pcb p).state = .blocked := by
  have halive : x.kernel.current.state ≠ .dead := by
    intro hdead
    rcases hruns with hs | hs
    · exact absurd (hdead.symm.trans hs) (by simp)
    · exact absurd (hdead.symm.trans hs) (by simp)
  have hjoin : ∀ {u t : Kernel} {p parent : Nat}, Entered x.kernel u p parent →
      schedulerAdd u p = .ok t → ∀ a ∈ x.kernel.processes, a ≠ x.kernel.currentProcess →
      (t.pcb a).state = .blocked → (x.kernel.pcb a).state = .blocked := by
    intro u t p parent he hadd a ha _ hs
    have hap : a ≠ p := fun hap => he.fresh (hap ▸ ha)
    rwa [(schedulerAdd_state hadd).2 a hap, he.others a hap] at hs
  have hrefuse : ∀ {t : Kernel}, Refused x.kernel t → ∀ a ∈ x.kernel.processes,
      a ≠ x.kernel.currentProcess → (t.pcb a).state = .blocked →
      (x.kernel.pcb a).state = .blocked := by
    intro t hr a ha _ hs
    rwa [hr.pcb a ha] at hs
  cases hstep with
  | create hcreate hprep hadd =>
    have he := (processCreate_entered h.live.table hcreate).prepare hprep
    exact ⟨SchedulerStep.create halive hcreate hprep hadd, he.unconcerned hadd, rfl, hjoin he hadd⟩
  | spawn hspawn =>
    refine ⟨SchedulerStep.spawn halive hspawn, ?_⟩
    rcases processSpawn_cases h.live.table hspawn with ⟨rfl, hr⟩ | ⟨u, p, he, hadd, rfl⟩
    · exact ⟨hr.unconcerned, rfl, hrefuse hr⟩
    · exact ⟨he.unconcerned hadd, rfl, hjoin he hadd⟩
  | fork hfork hp hnew =>
    refine ⟨SchedulerStep.fork halive hfork hp hnew, ?_⟩
    rcases processFork_cases h.live.table hfork with hr | ⟨u, p, he, hadd, -⟩
    · exact ⟨hr.unconcerned, rfl, hrefuse hr⟩
    · exact ⟨he.unconcerned hadd, rfl, hjoin he hadd⟩
  | forkFails hfork hnone =>
    refine ⟨SchedulerStep.forkFails halive hfork hnone, ?_⟩
    rcases processFork_cases h.live.table hfork with hr | ⟨u, p, he, hadd, -⟩
    · exact ⟨hr.unconcerned, rfl, hrefuse hr⟩
    · exact ⟨he.unconcerned hadd, rfl, hjoin he hadd⟩
  | block hidle =>
    refine ⟨SchedulerStep.block hidle, unconcerned_processBlock _ halive, rfl, fun a _ ha hs => ?_⟩
    dsimp only at hs
    unfold processBlock at hs
    split at hs
    · exact hs
    · rwa [Kernel.modify_of_ne _ _ _ ha] at hs
  | sleep now rdi hidle =>
    refine ⟨SchedulerStep.sleep now rdi halive hidle, ?_, rfl, fun a _ ha hs => ?_⟩
    · dsimp only
      unfold sysSleep
      split
      · exact (Restated.refl _).unconcerned (fun _ => rfl) fun _ _ => Iff.rfl
      · exact unconcerned_suspend halive (fun _ => ⟨_, _, _, _, rfl⟩) (fun _ => rfl) fun _ => by simp
    · dsimp only at hs
      unfold sysSleep at hs
      split at hs
      · exact hs
      · rwa [Kernel.modify_of_ne _ _ _ ha] at hs

/-- What a tick may do to a process: nothing to one that is BLOCKED or DEAD. -/
theorem tick_state {rest : List Nat} (hcase : Stays s t rest ∨
    ∃ xs ys, rest = xs ++ t.currentProcess :: ys ∧ Switches s t xs) (p : Nat) :
    (t.pcb p).state = (s.pcb p).state ∨
      ((s.pcb p).state ≠ .blocked ∧ (s.pcb p).state ≠ .dead) ∧
        (t.pcb p).state ≠ .blocked ∧ (t.pcb p).state ≠ .dead := by
  have hawakes : ∀ {a b : ProcessState}, Awakes a b →
      b = a ∨ (a ≠ .blocked ∧ a ≠ .dead) ∧ b ≠ .blocked ∧ b ≠ .dead := by
    rintro a b (hab | ⟨rfl, rfl⟩)
    · exact Or.inl hab
    · exact Or.inr (by simp)
  rcases hcase with hstays | ⟨xs, ys, -, hswitch⟩
  · exact hawakes (hstays.state p)
  · by_cases hnew : p = t.currentProcess
    · subst hnew
      refine Or.inr ⟨?_, by simp [hswitch.runs]⟩
      rcases hswitch.picked with hs | hs | hs
      · simp [hs]
      · simp [hs]
      · simp [hs]
    · by_cases hcur : p = s.currentProcess
      · subst hcur
        have hold := hswitch.old
        split at hold
        · rename_i hrun
          exact Or.inr (by simp [hrun, hold])
        · exact hawakes hold
      · exact hawakes (hswitch.others p hcur hnew)

/-- **Interrupts** are steps of the scheduler and do not concern the protocol. -/
theorem Interrupt.unconcerned (h : x.Ok q) (hstep : Interrupt x y) : SchedulerStep x y ∧
    Unconcerned x.kernel y.kernel ∧ y.removed = x.removed ∧ ∀ p,
      (y.kernel.pcb p).state = .blocked → (x.kernel.pcb p).state = .blocked := by
  obtain ⟨rest, hrest⟩ := exists_rest h.current
  have htick : ∀ {t : Kernel}, Stays x.kernel t rest ∨
      (∃ xs ys, rest = xs ++ t.currentProcess :: ys ∧ Switches x.kernel t xs) →
      Unconcerned x.kernel t ∧ ∀ p, (t.pcb p).state = .blocked →
        (x.kernel.pcb p).state = .blocked := by
    intro t hcase
    have hstate := fun p => tick_state hcase p
    obtain ⟨hr, hcode⟩ : Restated x.kernel t ∧
        ∀ p, (t.pcb p).exitCode = (x.kernel.pcb p).exitCode := by
      rcases hcase with hstays | ⟨xs, ys, -, hswitch⟩
      · exact ⟨hstays.restated, hstays.exitCode⟩
      · exact ⟨hswitch.restated, hswitch.exitCode⟩
    refine ⟨hr.unconcerned hcode fun p _ => ?_, fun p hs => ?_⟩
    · rcases hstate p with hsame | ⟨⟨-, hs⟩, -, ht⟩
      · rw [hsame]
      · exact iff_of_false ht hs
    · rcases hstate p with hsame | ⟨-, ht, -⟩
      · exact hsame ▸ hs
      · exact absurd hs ht
  cases hstep with
  | wake p =>
    refine ⟨SchedulerStep.wake p, (restated_processWake _ p).unconcerned
      (fun a => (processWake_state _ p a).1) fun a _ => ?_, rfl, fun a hs => ?_⟩
    · rcases (processWake_state x.kernel p a).2 with hsame | ⟨hblocked, hready⟩
      · rw [hsame]
      · exact iff_of_false (by simp [hready]) (by simp [hblocked])
    · rcases (processWake_state x.kernel p a).2 with hsame | ⟨hblocked, -⟩
      · exact hsame ▸ hs
      · exact hblocked
  | tick ht =>
    obtain ⟨t', ht', hcase⟩ := schedulerTick_spec _ h.listed.queue hrest h.queueOk.room
    obtain rfl := Except.ok.inj (ht.symm.trans ht')
    obtain ⟨hu, hblocked⟩ := htick hcase
    exact ⟨SchedulerStep.tick ht, hu, rfl, hblocked⟩
  | yield ht =>
    obtain ⟨t', ht', hcase⟩ := schedulerYield_spec _ h.listed.queue hrest h.queueOk.room
    obtain rfl := Except.ok.inj (ht.symm.trans ht')
    obtain ⟨hu, hblocked⟩ := htick hcase
    exact ⟨SchedulerStep.yield ht, hu, rfl, hblocked⟩

end Unconcerned

/-! ## 3. The invariant -/

/-- Nobody has died whom `p` waits for. -/
structure System.Safe (x : System) (p : Nat) : Prop where
  waiting : x.control (x.kernel.pcb p).pid = .waiting → ∀ c ∈ x.kernel.processes,
    (x.kernel.pcb c).parentPid = (x.kernel.pcb p).pid → (x.kernel.pcb c).state ≠ .dead
  waitingFor : ∀ n, x.control (x.kernel.pcb p).pid = .waitingFor n → ∀ c ∈ x.kernel.processes,
    (x.kernel.pcb c).pid = n → (x.kernel.pcb c).state ≠ .dead

/-- Slot `i` holds a dead child of `p`. -/
structure System.Claims (x : System) (p i : Nat) : Prop where
  lt : i < maxProcesses
  ne : x.kernel.processTable i ≠ 0
  dead : (x.kernel.pcb (x.kernel.processTable i)).state = .dead
  parent : (x.kernel.pcb (x.kernel.processTable i)).parentPid = (x.kernel.pcb p).pid

/-- **The invariant of the protocol.** -/
structure System.Ok (x : System) (q : List Nat) : Prop where
  sched : x.toScheduling.Ok q
  safe : ∀ p ∈ x.kernel.processes, (x.kernel.pcb p).state = .blocked → x.Safe p
  child : ∀ p ∈ x.kernel.processes, ∀ n, x.control (x.kernel.pcb p).pid = .waitingFor n →
    ∃ c ∈ x.kernel.processes, (x.kernel.pcb c).pid = n ∧
      (x.kernel.pcb c).parentPid = (x.kernel.pcb p).pid
  reaping : ∀ p ∈ x.kernel.processes, ∀ i, (x.control (x.kernel.pcb p).pid = .reaping i ∨
    x.control (x.kernel.pcb p).pid = .reapingFor i) → x.Claims p i
  exits : ∀ p ∈ x.kernel.processes, (x.kernel.pcb p).state = .dead →
    ∃ rdi, x.exits (x.kernel.pcb p).pid = some rdi ∧ (x.kernel.pcb p).exitCode = rdi.setWidth 32
  idle : x.control 0 = .elsewhere
  fresh : ∀ n, x.kernel.nextPid ≤ n → x.control n = .elsewhere
  removed : x.removed.Nodup

section Protocol

variable {x : System} {y : Scheduling} {t : Kernel} {q q' : List Nat} {p i : Nat}

theorem System.safe_of_elsewhere (h : x.control (x.kernel.pcb p).pid = .elsewhere) : x.Safe p := by
  refine ⟨fun hctl => ?_, fun n hctl => ?_⟩
  · rw [h] at hctl
    cases hctl
  · rw [h] at hctl
    cases hctl

/-- Steps that neither kill nor reap, and after which nobody is BLOCKED who should not be. -/
theorem System.Ok.unconcerned (h : x.Ok q) (hy : y.Ok q') (hu : Unconcerned x.kernel y.kernel)
    (hremoved : y.removed = x.removed)
    (hblocked : ∀ p ∈ x.kernel.processes, (y.kernel.pcb p).state = .blocked →
      (x.kernel.pcb p).state = .blocked ∨ x.Safe p) :
    { x with toScheduling := y }.Ok q' := by
  -- who is not elsewhere was there before
  have hold : ∀ p ∈ y.kernel.processes, x.control (y.kernel.pcb p).pid ≠ .elsewhere →
      p ∈ x.kernel.processes := by
    intro p hp hctl
    by_contra hnew
    exact hctl (h.fresh _ (hu.fresh p hp hnew).2)
  have hdead : ∀ c ∈ y.kernel.processes, (y.kernel.pcb c).state = .dead →
      c ∈ x.kernel.processes ∧ (x.kernel.pcb c).state = .dead := by
    intro c hc hs
    by_cases hmem : c ∈ x.kernel.processes
    · exact ⟨hmem, (hu.dead c hmem).mp hs⟩
    · rw [(hu.fresh c hc hmem).1] at hs
      cases hs
  refine ⟨hy, fun p hp hs => ⟨fun hctl c hc hparent hcdead => ?_, fun n hctl c hc hcn hcdead => ?_⟩,
    fun p hp n hctl => ?_, fun p hp i hctl => ?_, fun p hp hs => ?_, h.idle,
    fun n hn => h.fresh n (hu.nextPid.trans hn), hremoved ▸ h.removed⟩
  · dsimp only at hctl hparent
    have hmem := hold p hp (by simp [hctl])
    obtain ⟨hcmem, hcdead⟩ := hdead c hc hcdead
    rw [hu.pid p hmem] at hctl hparent
    rw [hu.parentPid c hcmem] at hparent
    exact ((hblocked p hmem hs).elim (h.safe p hmem) id).waiting hctl c hcmem hparent hcdead
  · dsimp only at hctl hcn
    have hmem := hold p hp (by simp [hctl])
    obtain ⟨hcmem, hcdead⟩ := hdead c hc hcdead
    rw [hu.pid p hmem] at hctl
    rw [hu.pid c hcmem] at hcn
    exact ((hblocked p hmem hs).elim (h.safe p hmem) id).waitingFor n hctl c hcmem hcn hcdead
  · dsimp only at hctl ⊢
    have hmem := hold p hp (by simp [hctl])
    rw [hu.pid p hmem] at hctl ⊢
    obtain ⟨c, hc, hcn, hcp⟩ := h.child p hmem n hctl
    exact ⟨c, hu.mem hc, (hu.pid c hc).trans hcn, (hu.parentPid c hc).trans hcp⟩
  · dsimp only at hctl ⊢
    have hmem := hold p hp fun helse => by
      rw [helse] at hctl
      rcases hctl with hctl | hctl <;> cases hctl
    rw [hu.pid p hmem] at hctl
    obtain ⟨hi, hne, hidead, hparent⟩ := h.reaping p hmem i hctl
    have hmemi := mem_processes hi hne
    have hslot := hu.slots i hi hne
    exact ⟨hi, hslot.symm ▸ hne, hslot.symm ▸ (hu.dead _ hmemi).mpr hidead,
      hslot.symm ▸ (hu.parentPid _ hmemi).trans (hparent.trans (hu.pid p hmem).symm)⟩
  · obtain ⟨hmem, hs⟩ := hdead p hp hs
    obtain ⟨rdi, hrdi, hcode⟩ := h.exits p hmem hs
    dsimp only
    rw [hu.pid p hmem, hu.exitCode p hmem]
    exact ⟨rdi, hrdi, hcode⟩

theorem System.Ok.current_mem (h : x.Ok q) : x.kernel.currentProcess ∈ x.kernel.processes :=
  h.sched.live.mem _ h.sched.current

/-- Whoever has the PID of the current process is the current process. -/
theorem System.Ok.eq_current (h : x.Ok q) (hp : p ∈ x.kernel.processes)
    (hpid : (x.kernel.pcb p).pid = x.kernel.current.pid) : p = x.kernel.currentProcess :=
  h.sched.live.pid_inj hp h.current_mem hpid

theorem System.Runs.ne_blocked (h : x.Runs) : x.kernel.current.state ≠ .blocked := by
  intro hs
  rcases h with h | h
  · exact absurd (hs.symm.trans h) (by simp)
  · exact absurd (hs.symm.trans h) (by simp)

theorem System.Runs.ne_dead (h : x.Runs) : x.kernel.current.state ≠ .dead := by
  intro hs
  rcases h with h | h
  · exact absurd (hs.symm.trans h) (by simp)
  · exact absurd (hs.symm.trans h) (by simp)

/-- **The current process moves** to a control point. -/
theorem System.Ok.goto (h : x.Ok q) (hruns : x.Runs) (hidle : x.kernel.current.pid ≠ 0) (c : Control)
    (hfor : ∀ n, c = .waitingFor n → ∃ a ∈ x.kernel.processes, (x.kernel.pcb a).pid = n ∧
      (x.kernel.pcb a).parentPid = x.kernel.current.pid)
    (hreap : ∀ i, c = .reaping i ∨ c = .reapingFor i → x.Claims x.kernel.currentProcess i) :
    (x.goto c).Ok q := by
  have hother : ∀ p ∈ x.kernel.processes, p ≠ x.kernel.currentProcess →
      (x.goto c).control (x.kernel.pcb p).pid = x.control (x.kernel.pcb p).pid := fun p hp hne =>
    Function.update_of_ne (fun hpid => hne (h.eq_current hp hpid)) ..
  have hself : (x.goto c).control x.kernel.current.pid = c := Function.update_self ..
  refine ⟨h.sched, fun p hp hs => ?_, fun p hp n hctl => ?_, fun p hp i hctl => ?_, h.exits, ?_, ?_,
    h.removed⟩
  · have hne : p ≠ x.kernel.currentProcess := by
      rintro rfl
      exact hruns.ne_blocked hs
    have hsafe := h.safe p hp hs
    refine ⟨fun hctl => hsafe.waiting ?_, fun n hctl => hsafe.waitingFor n ?_⟩
    · exact (hother p hp hne).symm.trans hctl
    · exact (hother p hp hne).symm.trans hctl
  · by_cases hne : p = x.kernel.currentProcess
    · subst hne
      exact hfor n (hself.symm.trans hctl)
    · exact h.child p hp n ((hother p hp hne).symm.trans hctl)
  · by_cases hne : p = x.kernel.currentProcess
    · subst hne
      have hc : (x.goto c).control (x.kernel.pcb x.kernel.currentProcess).pid = c := hself
      have hctl : (x.goto c).control (x.kernel.pcb x.kernel.currentProcess).pid = .reaping i ∨
        (x.goto c).control (x.kernel.pcb x.kernel.currentProcess).pid = .reapingFor i := hctl
      rw [hc] at hctl
      obtain ⟨hi, hne, hdead, hparent⟩ := hreap i hctl
      exact ⟨hi, hne, hdead, hparent⟩
    · have hctl : (x.goto c).control (x.kernel.pcb p).pid = .reaping i ∨
        (x.goto c).control (x.kernel.pcb p).pid = .reapingFor i := hctl
      rw [hother p hp hne] at hctl
      obtain ⟨hi, hne, hdead, hparent⟩ := h.reaping p hp i hctl
      exact ⟨hi, hne, hdead, hparent⟩
  · exact (Function.update_of_ne hidle.symm ..).trans h.idle
  · intro n hn
    have hlt := h.sched.live.pid_lt _ h.current_mem
    have hne : n ≠ x.kernel.current.pid := fun heq => Nat.lt_irrefl _ (hlt.trans_le (heq ▸ hn))
    exact (Function.update_of_ne hne ..).trans (h.fresh n hn)

/-- Whoever is BLOCKED after `sys_exit` was BLOCKED before. -/
theorem sysExit_blocked {s : Kernel} {rdi : BitVec 64} (hexit : sysExit s rdi = .ok t)
    (hs : (t.pcb p).state = .blocked) : (s.pcb p).state = .blocked := by
  obtain ⟨hdead, -, hothers, -⟩ := sysExit_spec hexit
  have hne : p ≠ s.currentProcess := by
    rintro rfl
    rw [hdead] at hs
    cases hs
  rcases (hothers p hne).2 with hsame | ⟨hwas, -⟩
  · exact hsame.symm.trans hs
  · exact hwas

/-- Nobody dies by `sys_exit` but the caller. -/
theorem sysExit_died {s : Kernel} {rdi : BitVec 64} (hexit : sysExit s rdi = .ok t)
    (hs : (t.pcb p).state = .dead) : p = s.currentProcess ∨ (s.pcb p).state = .dead := by
  obtain ⟨-, -, hothers, -⟩ := sysExit_spec hexit
  by_cases hp : p = s.currentProcess
  · exact Or.inl hp
  · rcases (hothers p hp).2 with hsame | ⟨-, hready⟩
    · exact Or.inr (hsame.symm.trans hs)
    · rw [hready] at hs
      cases hs

/-- **`sys_exit`.**  If the parent waits for the process, it is woken. -/
theorem System.Ok.exit {rdi : BitVec 64} (h : x.Ok q) (hidle : x.kernel.current.pid ≠ 0)
    (hexit : sysExit x.kernel rdi = .ok t) :
    { x with
      kernel := t, exits := Function.update x.exits x.kernel.current.pid (some rdi) : System }.Ok q := by
  obtain ⟨hdead, hcode, hothers, hwakes⟩ := sysExit_spec hexit
  have hr := restated_sysExit hexit
  have hprocs := hr.processes_eq
  have hpid : ∀ p, (t.pcb p).pid = (x.kernel.pcb p).pid := fun p => (hr.pcb p).pid_eq
  have hparent : ∀ p, (t.pcb p).parentPid = (x.kernel.pcb p).parentPid := fun p =>
    (hr.pcb p).parentPid_eq
  -- whoever is BLOCKED now was BLOCKED before, and is not the parent
  have hblocked : ∀ p, (t.pcb p).state = .blocked → (x.kernel.pcb p).state = .blocked :=
    fun p => sysExit_blocked hexit
  have hnotParent : ∀ p ∈ x.kernel.processes, (t.pcb p).state = .blocked →
      x.control (x.kernel.pcb p).pid ≠ .elsewhere →
      x.kernel.current.parentPid ≠ (x.kernel.pcb p).pid := by
    intro p hp hs hctl heq
    have hpos : 0 < x.kernel.current.parentPid := by
      rw [heq]
      refine Nat.pos_of_ne_zero fun h0 => hctl ?_
      rw [h0]
      exact h.idle
    exact hwakes h.sched.live.pid_inj hpos p hp heq.symm hs
  have hdied : ∀ c, (t.pcb c).state = .dead →
      c = x.kernel.currentProcess ∨ (x.kernel.pcb c).state = .dead := fun c => sysExit_died hexit
  refine ⟨h.sched.exit hidle hexit, fun p hp hs => ?_, fun p hp n hctl => ?_, fun p hp i hctl => ?_,
    fun p hp hs => ?_, h.idle, fun n hn => h.fresh n (hr.nextPid ▸ hn), h.removed⟩
  · dsimp only at hp hs
    rw [hprocs] at hp
    have hsafe := h.safe p hp (hblocked p hs)
    refine ⟨fun hctl c hc hcp hcdead => ?_, fun n hctl c hc hcn hcdead => ?_⟩
    · dsimp only at hctl hc hcp hcdead
      rw [hprocs] at hc
      rw [hpid] at hctl hcp
      rw [hparent] at hcp
      rcases hdied c hcdead with rfl | hcdead
      · exact hnotParent p hp hs (by simp [hctl]) hcp
      · exact hsafe.waiting hctl c hc hcp hcdead
    · dsimp only at hctl hc hcn hcdead
      rw [hprocs] at hc
      rw [hpid] at hctl hcn
      rcases hdied c hcdead with rfl | hcdead
      · obtain ⟨a, ha, han, hap⟩ := h.child p hp n hctl
        obtain rfl := h.eq_current ha (han.trans hcn.symm)
        exact hnotParent p hp hs (by simp [hctl]) hap
      · exact hsafe.waitingFor n hctl c hc hcn hcdead
  · dsimp only at hp hctl ⊢
    rw [hprocs] at hp
    rw [hpid] at hctl
    obtain ⟨c, hc, hcn, hcp⟩ := h.child p hp n hctl
    exact ⟨c, hprocs.symm ▸ hc, (hpid c).trans hcn, (hparent c).trans (hcp.trans (hpid p).symm)⟩
  · dsimp only at hp hctl
    rw [hprocs] at hp
    rw [hpid] at hctl
    obtain ⟨hi, hne, hidead, hip⟩ := h.reaping p hp i hctl
    have hslot := congrFun hr.table i
    refine ⟨hi, hslot.symm ▸ hne, ?_, ?_⟩
    · dsimp only
      rw [hslot]
      by_cases hc : x.kernel.processTable i = x.kernel.currentProcess
      · rw [hc, hdead]
      · rcases (hothers _ hc).2 with hsame | ⟨hwas, -⟩
        · exact hsame.trans hidead
        · rw [hidead] at hwas
          cases hwas
    · dsimp only
      rw [hslot, hparent, hpid]
      exact hip
  · dsimp only at hp hs ⊢
    rw [hprocs] at hp
    rw [hpid]
    by_cases hpc : p = x.kernel.currentProcess
    · subst hpc
      exact ⟨rdi, Function.update_self .., hcode⟩
    · have hwas : (x.kernel.pcb p).state = .dead := (hdied p hs).resolve_left hpc
      obtain ⟨rdi', hrdi, hcode'⟩ := h.exits p hp hwas
      refine ⟨rdi', ?_, (hothers p hpc).1.trans hcode'⟩
      rw [Function.update_of_ne fun heq => hpc (h.eq_current hp heq)]
      exact hrdi

/-- Somebody who is in `sys_wait` or `process_wait` is not idle. -/
theorem System.Ok.not_idle (h : x.Ok q) (hhere : x.here ≠ .elsewhere) : x.kernel.current.pid ≠ 0 := by
  intro h0
  rw [System.here, h0] at hhere
  exact hhere h.idle

/-- **Reaping** the child that was found. -/
theorem System.Ok.reap (h : x.Ok q) (hruns : x.Runs) (hhere : x.here = .reaping i ∨ x.here = .reapingFor i)
    (hreap : AcornOS.reap x.kernel i = .ok t) :
    { x.goto .elsewhere with
      kernel := t,
      removed := x.removed ++ [(x.kernel.pcb (x.kernel.processTable i)).pid] : System }.Ok
        (q.filter (· ≠ x.kernel.processTable i)) := by
  have hidle : x.kernel.current.pid ≠ 0 := by
    refine h.not_idle fun helse => ?_
    rw [helse] at hhere
    rcases hhere with hhere | hhere <;> cases hhere
  obtain ⟨hi, hne, hdead, hparent⟩ := h.reaping _ h.current_mem i hhere
  obtain ⟨hleft, htable, -⟩ := reap_cases h.sched.live.table hi hne hreap
  have hx : (x.goto .elsewhere).Ok q := h.goto hruns hidle .elsewhere (fun n hn => nomatch hn)
    fun i hi => by rcases hi with hi | hi <;> cases hi
  have hhere' : (x.goto .elsewhere).control x.kernel.current.pid = .elsewhere :=
    Function.update_self ..
  have hsame : ∀ p, ∃ n, t.pcb p = { x.kernel.pcb p with next := n } := hleft.pcb
  have hmem : ∀ {p}, p ∈ t.processes → p ≠ x.kernel.processTable i ∧ p ∈ x.kernel.processes :=
    fun hp => (hleft.mem _).mp hp
  -- the child belongs to the current process, which is elsewhere now
  have hchild : ∀ {p}, p ∈ x.kernel.processes →
      (x.goto .elsewhere).control (x.kernel.pcb p).pid ≠ .elsewhere →
      (x.kernel.pcb (x.kernel.processTable i)).parentPid ≠ (x.kernel.pcb p).pid := by
    intro p hp hctl hip
    exact hctl ((hip.symm.trans hparent) ▸ hhere')
  have hpid : ∀ p, (t.pcb p).pid = (x.kernel.pcb p).pid := fun p => by
    obtain ⟨n, hn⟩ := hsame p
    rw [hn]
  have hparentPid : ∀ p, (t.pcb p).parentPid = (x.kernel.pcb p).parentPid := fun p => by
    obtain ⟨n, hn⟩ := hsame p
    rw [hn]
  have hstate : ∀ p, (t.pcb p).state = (x.kernel.pcb p).state := fun p => by
    obtain ⟨n, hn⟩ := hsame p
    rw [hn]
  refine ⟨h.sched.reap hruns.ne_dead hi hne hdead hreap, fun p hp hs => ?_, fun p hp n hctl => ?_,
    fun p hp j hctl => ?_, fun p hp hs => ?_, hx.idle, fun n hn => hx.fresh n (hleft.nextPid ▸ hn), ?_⟩
  · dsimp only at hp hs
    obtain ⟨-, hp⟩ := hmem hp
    have hsafe := hx.safe p hp ((hstate p).symm.trans hs)
    refine ⟨fun hctl c hc hcp hcdead => ?_, fun n hctl c hc hcn hcdead => ?_⟩
    · dsimp only at hctl hc hcp hcdead
      rw [hpid] at hctl hcp
      rw [hparentPid] at hcp
      rw [hstate] at hcdead
      exact hsafe.waiting hctl c (hmem hc).2 hcp hcdead
    · dsimp only at hctl hc hcn hcdead
      rw [hpid] at hctl hcn
      rw [hstate] at hcdead
      exact hsafe.waitingFor n hctl c (hmem hc).2 hcn hcdead
  · dsimp only at hp hctl ⊢
    obtain ⟨-, hp⟩ := hmem hp
    rw [hpid] at hctl ⊢
    obtain ⟨c, hc, hcn, hcp⟩ := hx.child p hp n hctl
    refine ⟨c, (hleft.mem c).mpr ⟨?_, hc⟩, (hpid c).trans hcn, (hparentPid c).trans hcp⟩
    rintro rfl
    exact hchild hp (by simp [hctl]) hcp
  · dsimp only at hp hctl
    obtain ⟨-, hp⟩ := hmem hp
    rw [hpid] at hctl
    obtain ⟨hj, hjne, hjdead, hjp⟩ := hx.reaping p hp j hctl
    have hji : j ≠ i := by
      rintro rfl
      refine hchild hp (fun helse => ?_) hjp
      rw [helse] at hctl
      rcases hctl with hctl | hctl <;> cases hctl
    have hslot : t.processTable j = x.kernel.processTable j := by
      rw [htable, Function.update_of_ne hji]
    refine ⟨hj, hslot.symm ▸ hjne, ?_, ?_⟩
    · dsimp only
      rw [hslot, hstate]
      exact hjdead
    · dsimp only
      rw [hslot, hparentPid, hpid]
      exact hjp
  · dsimp only at hp hs ⊢
    obtain ⟨-, hp⟩ := hmem hp
    rw [hstate] at hs
    obtain ⟨rdi, hrdi, hcode⟩ := h.exits p hp hs
    obtain ⟨n, hn⟩ := hsame p
    rw [hn]
    exact ⟨rdi, hrdi, hcode⟩
  · refine List.nodup_append.mpr ⟨h.removed, List.nodup_singleton _, ?_⟩
    rintro a ha b hb rfl
    have hq := h.sched.live.dead _ (mem_processes hi hne) hdead
    have hlisted : a ∈ x.kernel.pids q :=
      List.mem_map.mpr ⟨_, hq, (List.mem_singleton.mp hb).symm⟩
    rw [h.sched.listed.history] at hlisted
    exact of_decide_eq_true (List.mem_filter.mp hlisted).2 ha

/-- The current process blocks, with nobody dead whom it waits for. -/
theorem System.Ok.block (h : x.Ok q) (hruns : x.Runs) (hhere : x.here ≠ .elsewhere)
    (hsafe : x.Safe x.kernel.currentProcess) :
    ∃ q', { x with
      kernel := processBlock x.kernel x.kernel.currentProcess : System }.Ok q' := by
  have hidle := h.not_idle hhere
  obtain ⟨q', hq'⟩ := (SchedulerStep.block (x := x.toScheduling) hidle).ok h.sched
  refine ⟨q', h.unconcerned hq' (unconcerned_processBlock _ hruns.ne_dead) rfl fun p _ hs => ?_⟩
  by_cases hp : p = x.kernel.currentProcess
  · exact Or.inr (hp ▸ hsafe)
  · refine Or.inl ?_
    dsimp only at hs
    rwa [processBlock, if_neg h.current_mem.1, Kernel.modify_of_ne _ _ _ hp] at hs

theorem deadChild_some (h : deadChild x.kernel = some i) : x.Claims x.kernel.currentProcess i := by
  obtain ⟨hi, htest⟩ := findSlot_eq_some h
  simp only [Bool.and_eq_true, bne_iff_ne, beq_iff_eq] at htest
  exact ⟨hi, htest.1.1, htest.2, htest.1.2⟩

theorem deadChild_none {c : Nat} (h : deadChild x.kernel = none) (hc : c ∈ x.kernel.processes)
    (hparent : (x.kernel.pcb c).parentPid = x.kernel.current.pid) :
    (x.kernel.pcb c).state ≠ .dead := by
  obtain ⟨hc0, j, hj, rfl⟩ := hc
  intro hdead
  have := findSlot_eq_none h hj
  simp [hc0, hparent, hdead] at this

theorem deadWithPid_none {c n : Nat} (h : deadWithPid x.kernel n = none)
    (hc : c ∈ x.kernel.processes) (hpid : (x.kernel.pcb c).pid = n) :
    (x.kernel.pcb c).state ≠ .dead := by
  obtain ⟨hc0, j, hj, rfl⟩ := hc
  intro hdead
  have := findSlot_eq_none h hj
  simp [hc0, hpid, hdead] at this

/-- The process that `process_wait` finds is a child of the caller. -/
theorem System.Ok.deadWithPid_some {n : Nat} (h : x.Ok q) (hhere : x.here = .waitingFor n)
    (hfound : deadWithPid x.kernel n = some i) : x.Claims x.kernel.currentProcess i := by
  obtain ⟨hi, htest⟩ := findSlot_eq_some hfound
  simp only [Bool.and_eq_true, bne_iff_ne, beq_iff_eq] at htest
  obtain ⟨c, hc, hcn, hcp⟩ := h.child _ h.current_mem n hhere
  have hci : c = x.kernel.processTable i :=
    h.sched.live.pid_inj hc (mem_processes hi htest.1.1) (hcn.trans htest.1.2.symm)
  exact ⟨hi, htest.1.1, htest.2, hci ▸ hcp⟩

/-- **Every step keeps the invariant.** -/
theorem System.Step.ok {z : System} {e : Event} (hstep : System.Step x e z) (h : x.Ok q) :
    ∃ q', z.Ok q' := by
  cases hstep with
  | code hruns hhere hcode =>
    obtain ⟨hsched, hu, hremoved, hblocked⟩ := hcode.unconcerned h.sched hruns
    obtain ⟨q', hq'⟩ := hsched.ok h.sched
    refine ⟨q', h.unconcerned hq' hu hremoved fun p hp hs => ?_⟩
    by_cases hpc : p = x.kernel.currentProcess
    · exact Or.inr (System.safe_of_elsewhere (hpc ▸ hhere))
    · exact Or.inl (hblocked p hp hpc hs)
  | interrupt hint =>
    obtain ⟨hsched, hu, hremoved, hblocked⟩ := hint.unconcerned h.sched
    obtain ⟨q', hq'⟩ := hsched.ok h.sched
    exact ⟨q', h.unconcerned hq' hu hremoved fun p _ hs => Or.inl (hblocked p hs)⟩
  | exit _ _ hidle hexit => exact ⟨q, h.exit hidle hexit⟩
  | wait hruns _ hidle =>
    refine ⟨q, h.goto hruns hidle _ (fun n hn => nomatch hn) fun i hi => ?_⟩
    rcases hi with hi | hi <;> cases hi
  | found hruns hhere hfound =>
    refine ⟨q, h.goto hruns (h.not_idle (by simp [hhere])) _ (fun n hn => nomatch hn) fun j hj => ?_⟩
    rcases hj with hj | hj
    · cases hj
      exact deadChild_some hfound
    · cases hj
  | blocks hruns hhere hnone _ =>
    refine h.block hruns (by simp [hhere]) ⟨fun _ c hc hcp => deadChild_none hnone hc hcp, ?_⟩
    intro n hctl
    have hctl : x.here = .waitingFor n := hctl
    rw [hhere] at hctl
    cases hctl
  | noChild hruns hhere _ _ =>
    refine ⟨q, h.goto hruns (h.not_idle (by simp [hhere])) _ (fun n hn => nomatch hn) fun j hj => ?_⟩
    rcases hj with hj | hj <;> cases hj
  | reaped hruns hhere hreap => exact ⟨_, h.reap hruns (Or.inl hhere) hreap⟩
  | waitFor hruns hhere hidle hp hchild =>
    rename_i p
    refine ⟨q, h.goto hruns hidle _ (fun n hn => ?_) fun j hj => ?_⟩
    · cases hn
      exact ⟨p, hp, rfl, hchild⟩
    · rcases hj with hj | hj <;> cases hj
  | foundFor hruns hhere hfound =>
    refine ⟨q, h.goto hruns (h.not_idle (by simp [hhere])) _ (fun n hn => nomatch hn) fun j hj => ?_⟩
    rcases hj with hj | hj
    · cases hj
    · cases hj
      exact h.deadWithPid_some hhere hfound
  | blocksFor hruns hhere hnone =>
    refine h.block hruns (by simp [hhere]) ⟨fun hctl => ?_, fun n hctl c hc hcn => ?_⟩
    · have hctl : x.here = .waiting := hctl
      rw [hhere] at hctl
      cases hctl
    · have hctl : x.here = .waitingFor n := hctl
      rw [hhere] at hctl
      cases hctl
      exact deadWithPid_none hnone hc hcn
  | reapedFor hruns hhere hreap => exact ⟨_, h.reap hruns (Or.inr hhere) hreap⟩

end Protocol

/-! ## 4. The theorem -/

/-- A run of the system. -/
def System.Steps (x y : System) : Prop := ReflTransGen (fun a b => ∃ e, System.Step a e b) x y

/-- When the scheduler starts, everybody is elsewhere and nobody has exited. -/
theorem system_start {x : Scheduling} {q : List Nat} {s : Kernel} (h : x.BootOk q)
    (hidle : 0 ∈ x.added) (hstart : schedulerStart x.kernel = .ok s) :
    (⟨{ x with kernel := s }, fun _ => .elsewhere, fun _ => none⟩ : System).Ok q := by
  have hok := schedulerStart_ok h hidle hstart
  refine ⟨hok, fun p _ _ => System.safe_of_elsewhere rfl, fun p _ n hn => (nomatch hn), ?_, ?_, rfl,
    fun _ _ => rfl, h.removed ▸ List.nodup_nil⟩
  · rintro p - i (hi | hi) <;> cases hi
  · intro p hp hs
    exfalso
    unfold schedulerStart at hstart
    split at hstart
    · cases hstart
    obtain rfl := Except.ok.inj hstart
    by_cases hph : p = x.kernel.runQueueHead
    · dsimp only at hs
      rw [hph, Kernel.modify_self] at hs
      cases hs
    · dsimp only at hs
      rw [Kernel.modify_of_ne _ _ _ hph] at hs
      exact absurd ((h.ready p hp).symm.trans hs) (by simp)

end AcornOS
