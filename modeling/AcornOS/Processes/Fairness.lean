/-
# Round-robin fairness

The scheduler as the instance of `Lib/RoundRobin.lean` that it is: the participants are the PIDs in the
run queue, and `scheduler_tick` passes the turn.

* `Scheduling` is the kernel with a record of the PIDs that have been added to the queue and removed
  from it.
* `QueueStep` is one step of a run: the routines that touch the queue, block, wake, put to sleep and
  exit, in any order.  `outside` is everything that leaves queued PCBs alone, such as the creation of
  a process that is not queued yet.
* `QueueStep.turn`: every step is a step of round robin.
* `no_ready_process_bypassed_twice` is the theorem.
-/
import AcornOS.Lib.RoundRobin
import AcornOS.Processes.Scheduler

namespace AcornOS

open Lib
open scoped List

/-! ## 1. Runs -/

/-- The kernel, and the PIDs that have been added to and removed from the run queue so far. -/
structure Scheduling where
  kernel : Kernel
  added : List Nat
  removed : List Nat

/-- One step of a run. -/
inductive QueueStep : Scheduling → Scheduling → Prop
  | tick {x : Scheduling} {t : Kernel} {now : BitVec 32} (h : schedulerTick x.kernel now = .ok t) :
      QueueStep x { x with kernel := t }
  | yield {x : Scheduling} {t : Kernel} {now : BitVec 32} (h : schedulerYield x.kernel now = .ok t) :
      QueueStep x { x with kernel := t }
  | add {x : Scheduling} {t : Kernel} {q : List Nat} {p : Nat} (hq : x.kernel.Queue q) (hp : p ∉ q)
      (hroom : q.length < maxProcesses) (hnew : (x.kernel.pcb p).pid ∉ x.added)
      (h : schedulerAdd x.kernel p = .ok t) :
      QueueStep x { x with kernel := t, added := x.added ++ [(x.kernel.pcb p).pid] }
  | remove {x : Scheduling} {q : List Nat} {p : Nat} (hq : x.kernel.Queue q) (hp : p ∈ q)
      (hdead : (x.kernel.pcb p).state = .dead) (hcur : p ≠ x.kernel.currentProcess) :
      QueueStep x { x with
        kernel := schedulerRemove x.kernel p, removed := x.removed ++ [(x.kernel.pcb p).pid] }
  | block {x : Scheduling} (p : Nat) : QueueStep x { x with kernel := processBlock x.kernel p }
  | wake {x : Scheduling} (p : Nat) : QueueStep x { x with kernel := processWake x.kernel p }
  | sleep {x : Scheduling} (now : BitVec 32) (rdi : BitVec 64) :
      QueueStep x { x with kernel := sysSleep x.kernel now rdi }
  | exit {x : Scheduling} {t : Kernel} {rdi : BitVec 64} (h : sysExit x.kernel rdi = .ok t) :
      QueueStep x { x with kernel := t }
  | outside {x : Scheduling} {t : Kernel} {q : List Nat} (hq : x.kernel.Queue q)
      (hpcb : ∀ p ∈ q, t.pcb p = x.kernel.pcb p) (hhead : t.runQueueHead = x.kernel.runQueueHead)
      (htail : t.runQueueTail = x.kernel.runQueueTail)
      (hcur : t.currentProcess = x.kernel.currentProcess) : QueueStep x { x with kernel := t }

/-- The PIDs of some PCBs. -/
def Kernel.pids (s : Kernel) (q : List Nat) : List Nat := q.map fun p => (s.pcb p).pid

/-- The run queue is `q`: its processes are those that have been added and not removed, in the order of
addition. -/
structure Scheduling.Listed (x : Scheduling) (q : List Nat) : Prop where
  queue : x.kernel.Queue q
  history : x.kernel.pids q = x.added.filter (· ∉ x.removed)
  added : x.added.Nodup
  removed : ∀ a ∈ x.removed, a ∈ x.added

/-- The run queue is `q`, there is room for it in the table, and the current process is in it. -/
structure Scheduling.QueueOk (x : Scheduling) (q : List Nat) : Prop extends x.Listed q where
  room : q.length ≤ maxProcesses
  current : x.kernel.currentProcess ∈ q

/-! ## 2. Every step is a step of round robin -/

section Steps

variable {x y : Scheduling} {s t : Kernel} {q : List Nat} {p : Nat}

theorem Scheduling.Listed.pids_nodup (h : x.Listed q) : (x.kernel.pids q).Nodup := by
  rw [h.history]
  exact h.added.filter _

theorem Scheduling.Listed.mem_added (h : x.Listed q) {a : Nat} (ha : a ∈ x.kernel.pids q) :
    a ∈ x.added := by
  rw [h.history] at ha
  exact (List.mem_filter.mp ha).1

/-- Processes in the queue are told apart by their PIDs. -/
theorem Scheduling.Listed.pid_inj (h : x.Listed q) {p' : Nat} (hp : p ∈ q) (hp' : p' ∈ q)
    (hpid : (x.kernel.pcb p).pid = (x.kernel.pcb p').pid) : p = p' :=
  List.inj_on_of_nodup_map h.pids_nodup hp hp' hpid

/-- The queue as a ring of participants. -/
def Scheduling.QueueOk.turns (h : x.QueueOk q) : RoundRobin Nat where
  ring := x.kernel.pids q
  current := x.kernel.current.pid
  seen := {a | a ∈ x.added}
  nodup := h.pids_nodup
  mem := List.mem_map.mpr ⟨_, h.current, rfl⟩
  sub _ ha := h.mem_added ha

/-- The PID of a process in the queue that is READY. -/
def Kernel.Ready (s : Kernel) (q : List Nat) (pid : Nat) : Prop :=
  ∃ p ∈ q, (s.pcb p).pid = pid ∧ (s.pcb p).state = .ready

theorem Restated.pids_eq (h : Restated s t) (q : List Nat) : t.pids q = s.pids q :=
  List.map_congr_left fun p _ => (h.pcb p).pid_eq

theorem Scheduling.Listed.same (h : x.Listed q) (hqueue : t.Queue q)
    (hpid : ∀ p ∈ q, (t.pcb p).pid = (x.kernel.pcb p).pid) : { x with kernel := t }.Listed q :=
  ⟨hqueue, (List.map_congr_left hpid).trans h.history, h.added, h.removed⟩

/-- A step that leaves the order of the queue and the current process alone. -/
theorem Scheduling.QueueOk.same {ready : Nat → Prop} (h : x.QueueOk q) (hqueue : t.Queue q)
    (hpid : ∀ p ∈ q, (t.pcb p).pid = (x.kernel.pcb p).pid)
    (hcur : t.currentProcess = x.kernel.currentProcess) :
    ∃ h' : { x with kernel := t }.QueueOk q, RoundRobin.Step ready h.turns h'.turns := by
  have hpids : t.pids q = x.kernel.pids q := List.map_congr_left hpid
  have hcurPid : t.current.pid = x.kernel.current.pid := by
    rw [Kernel.current, Kernel.current, hcur]
    exact hpid _ h.current
  exact ⟨⟨h.toListed.same hqueue hpid, h.room, hcur ▸ h.current⟩,
    RoundRobin.Step.stay hpids hcurPid rfl⟩

theorem Scheduling.QueueOk.restated {ready : Nat → Prop} (h : x.QueueOk q)
    (hr : Restated x.kernel t) (hcur : t.currentProcess = x.kernel.currentProcess) :
    ∃ h' : { x with kernel := t }.QueueOk q, RoundRobin.Step ready h.turns h'.turns :=
  h.same (hr.queue h.queue) (fun p _ => (hr.pcb p).pid_eq) hcur

/-- A tick passes over processes that are not READY. -/
theorem Scheduling.QueueOk.switch {rest xs ys : List Nat} (h : x.QueueOk q)
    (hrest : q ~r rest ++ [x.kernel.currentProcess]) (hsplit : rest = xs ++ t.currentProcess :: ys)
    (hswitch : Switches x.kernel t xs) : ∃ h' : { x with kernel := t }.QueueOk q,
      RoundRobin.Step (x.kernel.Ready q) h.turns h'.turns := by
  subst hsplit
  have hr := hswitch.restated
  have hmem : ∀ p ∈ xs ++ t.currentProcess :: ys, p ∈ q := fun p hp =>
    hrest.mem_iff.mpr (List.mem_append_left _ hp)
  have hnodup : (xs ++ t.currentProcess :: ys ++ [x.kernel.currentProcess]).Nodup :=
    hrest.nodup_iff.mp h.queue.nodup
  refine ⟨⟨h.toListed.same (hr.queue h.queue) fun p _ => (hr.pcb p).pid_eq, h.room,
    hmem _ (by simp)⟩, @RoundRobin.Step.pass _ _ _ _ (x.kernel.pids xs) (x.kernel.pids ys) ?_ ?_
    (hr.pids_eq q) rfl⟩
  · have hmap := hrest.map fun p => (x.kernel.pcb p).pid
    have hcur : t.current.pid = (x.kernel.pcb t.currentProcess).pid := (hr.pcb _).pid_eq
    simp only [List.map_append, List.map_cons, List.map_nil] at hmap
    rw [← hcur] at hmap
    exact hmap
  · rintro a ha ⟨p, hp, hpid, hready⟩
    obtain ⟨p', hp', hpid'⟩ := List.mem_map.mp ha
    obtain rfl : p = p' := h.pid_inj hp (hmem p' (List.mem_append_left _ hp')) (hpid.trans hpid'.symm)
    have hsplit := List.nodup_append.mp hnodup
    have hpcur : p ≠ x.kernel.currentProcess :=
      hsplit.2.2 p (List.mem_append_left _ hp') _ (List.mem_singleton_self _)
    have hpnew : p ≠ t.currentProcess :=
      (List.nodup_append.mp hsplit.1).2.2 p hp' _ List.mem_cons_self
    refine hswitch.skipped p hp' (Or.inl ?_)
    rcases hswitch.others p hpcur hpnew with hs | ⟨hs, -⟩
    · exact hs.trans hready
    · rw [hready] at hs
      cases hs

theorem Requeued.pid_eq (h : Requeued s t) (p : Nat) : (t.pcb p).pid = (s.pcb p).pid := by
  obtain ⟨n, hn⟩ := h.pcb p
  rw [hn]

/-- `scheduler_add` gives nobody another PID. -/
theorem schedulerAdd_pid (h : schedulerAdd s p = .ok t) :
    p ≠ 0 ∧ t.currentProcess = s.currentProcess ∧ ∀ a, (t.pcb a).pid = (s.pcb a).pid := by
  have hp : p ≠ 0 := by
    rintro rfl
    cases h
  obtain ⟨u, hu, hr⟩ := schedulerAdd_requeued (s := s) hp
  obtain rfl : t = u := Except.ok.inj (h.symm.trans hu)
  refine ⟨hp, hr.current, fun a => (hr.pid_eq a).trans ?_⟩
  by_cases ha : a = p
  · rw [ha, Kernel.modify_self]
  · rw [Kernel.modify_of_ne _ _ _ ha]

theorem schedulerAdd_processes (h : schedulerAdd s p = .ok t) : t.processes = s.processes := by
  obtain ⟨hp, -⟩ := schedulerAdd_pid h
  obtain ⟨u, hu, hr⟩ := schedulerAdd_requeued (s := s) hp
  obtain rfl : t = u := Except.ok.inj (h.symm.trans hu)
  unfold Kernel.processes
  rw [hr.table]
  rfl

theorem schedulerAdd_state (h : schedulerAdd s p = .ok t) :
    (t.pcb p).state = .ready ∧ ∀ a, a ≠ p → (t.pcb a).state = (s.pcb a).state := by
  obtain ⟨hp, -⟩ := schedulerAdd_pid h
  obtain ⟨u, hu, hr⟩ := schedulerAdd_requeued (s := s) hp
  obtain rfl : t = u := Except.ok.inj (h.symm.trans hu)
  refine ⟨?_, fun a ha => ?_⟩
  · obtain ⟨n, hn⟩ := hr.pcb p
    rw [hn, Kernel.modify_self]
  · obtain ⟨n, hn⟩ := hr.pcb a
    rw [hn, Kernel.modify_of_ne _ _ _ ha]

/-- A process that was never in the queue is added to it. -/
theorem Scheduling.Listed.add (h : x.Listed q) (hp : p ∉ q)
    (hnew : (x.kernel.pcb p).pid ∉ x.added) (ht : schedulerAdd x.kernel p = .ok t) :
    { x with kernel := t, added := x.added ++ [(x.kernel.pcb p).pid] }.Listed (q ++ [p]) ∧
      t.pids (q ++ [p]) = x.kernel.pids q ++ [(x.kernel.pcb p).pid] := by
  obtain ⟨hp0, -, hpid⟩ := schedulerAdd_pid ht
  have hpids : t.pids (q ++ [p]) = x.kernel.pids q ++ [(x.kernel.pcb p).pid] := by
    rw [Kernel.pids, List.map_append, List.map_cons, List.map_nil, hpid,
      List.map_congr_left fun a _ => hpid a]
    rfl
  have hkept : ∀ a ∈ [(x.kernel.pcb p).pid], decide (a ∉ x.removed) = true := by
    intro a ha
    rw [List.mem_singleton.mp ha]
    exact decide_eq_true fun hr => hnew (h.removed _ hr)
  refine ⟨⟨schedulerAdd_queue h.queue hp0 hp ht, ?_, ?_,
    fun a ha => List.mem_append_left _ (h.removed a ha)⟩, hpids⟩
  · dsimp only
    rw [hpids, List.filter_append, List.filter_eq_self.mpr hkept, h.history]
  · refine List.nodup_append.mpr ⟨h.added, List.nodup_singleton _, ?_⟩
    rintro a ha b hb rfl
    exact hnew (List.mem_singleton.mp hb ▸ ha)

/-- A process is removed from the queue. -/
theorem Scheduling.Listed.remove (h : x.Listed q) (hp : p ∈ q) (hroom : q.length ≤ maxProcesses) :
    { x with kernel := schedulerRemove x.kernel p,
             removed := x.removed ++ [(x.kernel.pcb p).pid] }.Listed (q.filter (· ≠ p)) ∧
      (schedulerRemove x.kernel p).pids (q.filter (· ≠ p)) =
        (x.kernel.pids q).filter (· ≠ (x.kernel.pcb p).pid) := by
  have hr := schedulerRemove_requeued x.kernel p
  have hpids : (schedulerRemove x.kernel p).pids (q.filter (· ≠ p)) =
      (x.kernel.pids q).filter (· ≠ (x.kernel.pcb p).pid) := by
    rw [Kernel.pids, List.map_congr_left fun a _ => hr.pid_eq a, Kernel.pids, List.filter_map]
    refine congrArg _ (List.filter_congr fun a ha => ?_)
    refine decide_eq_decide.mpr (not_congr ⟨fun hap => by rw [hap], fun hpid => ?_⟩)
    exact h.pid_inj ha hp hpid
  refine ⟨⟨schedulerRemove_queue h.queue hp hroom, ?_, h.added, fun a ha => ?_⟩, hpids⟩
  · dsimp only
    rw [hpids, h.history, List.filter_filter]
    refine List.filter_congr fun a _ => ?_
    simp [Bool.and_comm]
  · rcases List.mem_append.mp ha with ha | ha
    · exact h.removed a ha
    · rw [List.mem_singleton.mp ha]
      exact h.mem_added (List.mem_map.mpr ⟨p, hp, rfl⟩)

/-- **A tick** comes back, and is a step of round robin. -/
theorem Scheduling.QueueOk.tick (h : x.QueueOk q) (now : BitVec 32) :
    ∃ t, schedulerTick x.kernel now = .ok t ∧ ∃ h' : { x with kernel := t }.QueueOk q,
      RoundRobin.Step (x.kernel.Ready q) h.turns h'.turns := by
  obtain ⟨rest, hrest⟩ := exists_rest h.current
  obtain ⟨t, ht, hstays | ⟨xs, ys, hsplit, hswitch⟩⟩ := schedulerTick_spec now h.queue hrest h.room
  · exact ⟨t, ht, h.restated hstays.restated hstays.current⟩
  · exact ⟨t, ht, h.switch hrest hsplit hswitch⟩

theorem Scheduling.QueueOk.yield (h : x.QueueOk q) (now : BitVec 32) :
    ∃ t, schedulerYield x.kernel now = .ok t ∧ ∃ h' : { x with kernel := t }.QueueOk q,
      RoundRobin.Step (x.kernel.Ready q) h.turns h'.turns := by
  obtain ⟨rest, hrest⟩ := exists_rest h.current
  obtain ⟨t, ht, hstays | ⟨xs, ys, hsplit, hswitch⟩⟩ := schedulerYield_spec now h.queue hrest h.room
  · exact ⟨t, ht, h.restated hstays.restated hstays.current⟩
  · exact ⟨t, ht, h.switch hrest hsplit hswitch⟩

/-- **Every step is a step of round robin.** -/
theorem QueueStep.turn (h : x.QueueOk q) (hstep : QueueStep x y) : ∃ q', ∃ h' : y.QueueOk q',
    RoundRobin.Step (x.kernel.Ready q) h.turns h'.turns := by
  cases hstep with
  | tick ht =>
    obtain ⟨t', ht', hturn⟩ := h.tick _
    obtain rfl := Except.ok.inj (ht.symm.trans ht')
    exact ⟨q, hturn⟩
  | yield ht =>
    obtain ⟨t', ht', hturn⟩ := h.yield _
    obtain rfl := Except.ok.inj (ht.symm.trans ht')
    exact ⟨q, hturn⟩
  | add hq hp hroom hnew ht =>
    rename_i t q' p
    obtain rfl := h.queue.unique hq
    obtain ⟨-, hcur, hpid⟩ := schedulerAdd_pid ht
    obtain ⟨hlisted, hpids⟩ := h.toListed.add hp hnew ht
    refine ⟨q ++ [p], ⟨hlisted, ?_, hcur ▸ List.mem_append_left _ h.current⟩,
      RoundRobin.Step.join hnew hpids ?_ ?_⟩
    · simpa using hroom
    · change (t.pcb t.currentProcess).pid = x.kernel.current.pid
      rw [hcur, hpid]
      rfl
    · intro a
      change a ∈ x.added ++ [_] ↔ a = _ ∨ a ∈ x.added
      rw [List.mem_append, List.mem_singleton, or_comm]
  | remove hq hp hdead hcur =>
    rename_i q' p
    obtain rfl := h.queue.unique hq
    have hr := schedulerRemove_requeued x.kernel p
    obtain ⟨hlisted, hpids⟩ := h.toListed.remove hp h.room
    refine ⟨q.filter (· ≠ p), ⟨hlisted, (List.length_filter_le _ _).trans h.room, ?_⟩,
      RoundRobin.Step.leave hpids ?_ rfl⟩
    · dsimp only
      rw [hr.current]
      exact List.mem_filter.mpr ⟨h.current, decide_eq_true hcur.symm⟩
    · change ((schedulerRemove x.kernel p).pcb (schedulerRemove x.kernel p).currentProcess).pid = _
      rw [hr.current, hr.pid_eq]
      rfl
  | block p => exact ⟨q, h.restated (restated_processBlock _ p) (processBlock_currentProcess _ p)⟩
  | wake p => exact ⟨q, h.restated (restated_processWake _ p) (processWake_currentProcess _ p)⟩
  | sleep now rdi =>
    exact ⟨q, h.restated (restated_sysSleep _ now rdi) (sysSleep_currentProcess _ now rdi)⟩
  | exit ht => exact ⟨q, h.restated (restated_sysExit ht) (sysExit_currentProcess ht)⟩
  | outside hq hpcb hhead htail hcur =>
    obtain rfl := h.queue.unique hq
    refine ⟨q, h.same (h.queue.congr (fun p hp => ?_) hhead htail) (fun p hp => ?_) hcur⟩
    · rw [hpcb p hp]
    · rw [hpcb p hp]

end Steps

/-! ## 3. Fairness -/

/-- The current process changes, and the new one has the PID `pid`. -/
def SwitchesTo (x y : Scheduling) (pid : Nat) : Prop :=
  y.kernel.current.pid ≠ x.kernel.current.pid ∧ y.kernel.current.pid = pid

/-- The process with the PID `pid` is in the run queue, and READY unless it is the current process. -/
def QueuedReady (x : Scheduling) (pid : Nat) : Prop :=
  ∃ q p, x.kernel.Queue q ∧ p ∈ q ∧ (x.kernel.pcb p).pid = pid ∧
    (p = x.kernel.currentProcess ∨ (x.kernel.pcb p).state = .ready)

/-- **No ready process is bypassed twice by the same process.**  Take any run, and two moments `i < j`
at which the scheduler switches to `P`.  A process `Q` that is in the run queue all the time in between,
and READY whenever it is not itself the current process, is switched to in between. -/
theorem no_ready_process_bypassed_twice (σ : Nat → Scheduling) (h₀ : ∃ q, (σ 0).QueueOk q)
    (hrun : ∀ k, QueueStep (σ k) (σ (k + 1))) {P Q i j : Nat} (hPQ : Q ≠ P) (hij : i < j)
    (hi : SwitchesTo (σ i) (σ (i + 1)) P) (hj : SwitchesTo (σ j) (σ (j + 1)) P)
    (hQ : ∀ k, i < k → k ≤ j → QueuedReady (σ k) Q) :
    ∃ k, i < k ∧ k < j ∧ SwitchesTo (σ k) (σ (k + 1)) Q := by
  have hok : ∀ k, ∃ q, (σ k).QueueOk q := by
    intro k
    induction k with
    | zero => exact h₀
    | succ k ih =>
      obtain ⟨q, hq⟩ := ih
      obtain ⟨q', hq', -⟩ := (hrun k).turn hq
      exact ⟨q', hq'⟩
  choose q hq using hok
  refine RoundRobin.fair (fun k => (hq k).turns) (fun k => (σ k).kernel.Ready (q k))
    (fun k _ _ => ?_) hij hPQ hi hj fun k hik hkj => ?_
  · obtain ⟨q', hq', hstep⟩ := (hrun k).turn (hq k)
    obtain rfl := hq'.queue.unique (hq (k + 1)).queue
    exact hstep
  · obtain ⟨q', p, hq', hp, hpid, hready⟩ := hQ k hik hkj
    obtain rfl := hq'.unique (hq k).queue
    refine ⟨List.mem_map.mpr ⟨p, hp, hpid⟩, ?_⟩
    rcases hready with rfl | hready
    · exact Or.inl hpid.symm
    · exact Or.inr ⟨p, hp, hpid, hready⟩

/-- The PCB of a process with a PID, a state and a place in the queue. -/
def queuedPcb (pid : Nat) (state : ProcessState) (next : Nat) : Process :=
  ⟨pid, [], state, CpuState.zero, 0, 0, 0, 10, 10, next, 0, 0, 0, 0, false, 0, 0, 0⟩

/-- A kernel that runs the process 1, with the process 2 behind it in the queue. -/
def twoQueued : Kernel where
  machine := ⟨fun _ => 0, ⟨fun _ => 0, 0, 0⟩⟩
  heap := memInit fun _ => ⟨0, false, 0⟩
  pcb p := if p = 0x1000 then queuedPcb 1 .running 0x2000 else queuedPcb 2 .ready 0x1000
  processTable i := if i = 0 then 0x1000 else if i = 1 then 0x2000 else 0
  currentProcess := 0x1000
  nextPid := 3
  runQueueHead := 0x1000
  runQueueTail := 0x2000
  kernelPml4 := 0
  iretToUsermode := 0

/-- The kernel after some calls of `scheduler_yield`. -/
def yields : Nat → Kernel
  | 0 => twoQueued
  | n + 1 => ((schedulerYield (yields n) 0).toOption).getD twoQueued

theorem twoQueued_ok : (⟨twoQueued, [1, 2], []⟩ : Scheduling).QueueOk [0x1000, 0x2000] := by
  refine ⟨⟨⟨?_, rfl, rfl, by decide, by decide⟩, by decide, by decide, by simp⟩, by decide, by decide⟩
  refine (@ring_iff_isChain _ _ [0x1000] _).mpr ?_
  simp [Leads, Kernel.link, twoQueued, queuedPcb]

/-- The queue stays as it is, and every call of `scheduler_yield` comes back. -/
theorem yields_step (n : Nat) : (⟨yields n, [1, 2], []⟩ : Scheduling).QueueOk [0x1000, 0x2000] ∧
    schedulerYield (yields n) 0 = .ok (yields (n + 1)) := by
  have hok : (⟨yields n, [1, 2], []⟩ : Scheduling).QueueOk [0x1000, 0x2000] := by
    induction n with
    | zero => exact twoQueued_ok
    | succ n ih =>
      obtain ⟨t, ht, hok, -⟩ := ih.yield 0
      rw [yields, ht]
      exact hok
  obtain ⟨t, ht, -⟩ := hok.yield 0
  refine ⟨hok, ?_⟩
  rw [yields, ht]
  rfl

/-- Two processes take turns: first 2, then 1, then 2 again. -/
theorem no_ready_process_bypassed_twice_two_processes :
    ∃ k, 0 < k ∧ k < 2 ∧ SwitchesTo ⟨yields k, [1, 2], []⟩ ⟨yields (k + 1), [1, 2], []⟩ 1 := by
  refine no_ready_process_bypassed_twice (P := 2) (fun k => ⟨yields k, [1, 2], []⟩)
    ⟨_, (yields_step 0).1⟩ (fun k => QueueStep.yield (yields_step k).2) (by decide) (by decide)
    ⟨by decide, rfl⟩ ⟨by decide +kernel, by decide +kernel⟩ fun k hk hk2 => ?_
  refine ⟨_, 0x1000, (yields_step k).1.queue, by simp, ?_⟩
  interval_cases k
  · exact ⟨rfl, Or.inr rfl⟩
  · exact ⟨rfl, Or.inl rfl⟩

end AcornOS
