/-
# Who acknowledges the timer (`irq_handler`, `pic_send_eoi`)

`irq_handler` calls `scheduler_tick` BEFORE it acknowledges the interrupt.  If the tick switches, the
acknowledgement is left to whoever the processor goes to: a process that was itself switched away from in
`irq_handler` sends it as soon as it is resumed, and every other process goes on with the timer, and the
keyboard behind it, shut off.

* `Interrupts`: the kernel, the controller's in-service register, and the processes that are suspended in
  `irq_handler`.
* **`acknowledgement_owed`**: in every run in which no DEAD process is preempted, the timer is shut off
  only while a live process in the queue owes the acknowledgement; and if nobody calls `keyboard_wait`,
  EXACTLY while one does, and there is never more than one such process.
* **`timer_lost`**: a process preempted between the `sti` of `sys_exit` and its `scheduler_yield` shuts
  off the timer and the keyboard for good, unless somebody calls `keyboard_wait`.
-/
import AcornOS.Processes.ForkReturn
import AcornOS.Processes.SchedulerRuns

namespace AcornOS

open Lib Relation
open scoped List

/-! ## 1. Interrupts -/

/-- The kernel, the IRQs in service at the first controller, and the processes that were switched away
from in `irq_handler`. -/
structure Interrupts where
  sched : Scheduling
  inService : Finset Nat
  preempted : Finset Nat

/-- `pic_send_eoi` for an IRQ of the first controller.  `PIC_EOI` names no IRQ: the controller takes the
one of highest priority out of service. -/
def picSendEoi (inService : Finset Nat) : Finset Nat :=
  inService.filter fun i => ∃ j ∈ inService, j < i

/-- The controller delivers an IRQ if none of the same or a higher priority is in service. -/
def Delivers (inService : Finset Nat) (irq : Nat) : Prop := ∀ i ∈ inService, irq < i

namespace Interrupts

/-- The kernel. -/
def kernel (x : Interrupts) : Kernel := x.sched.kernel

/-- The processor goes to the current process of `t`.  If that was suspended in `irq_handler`, it goes on
with its `pic_send_eoi`, with interrupts still off. -/
def arrive (x : Interrupts) (t : Kernel) : Interrupts where
  sched := { x.sched with kernel := t }
  inService := if t.currentProcess ∈ x.preempted then picSendEoi x.inService else x.inService
  preempted := x.preempted.erase t.currentProcess

/-- `irq_handler` for the timer, when `scheduler_tick` comes to `t`. -/
def timerInterrupt (x : Interrupts) (t : Kernel) : Interrupts :=
  if t.currentProcess = x.kernel.currentProcess then
    { x with sched := { x.sched with kernel := t }, inService := picSendEoi (insert 0 x.inService) }
  else
    { x with inService := insert 0 x.inService,
             preempted := insert x.kernel.currentProcess x.preempted }.arrive t

/-- `irq_handler` for the keyboard. -/
def keyboardInterrupt (x : Interrupts) (t : Kernel) : Interrupts :=
  { x with sched := { x.sched with kernel := t }, inService := picSendEoi (insert 1 x.inService) }

end Interrupts

/-- What a process does between two switches.  Only a process itself calls `process_block` and `sys_sleep`
on itself. -/
inductive HandlerStep : Scheduling → Scheduling → Prop
  | create {x : Scheduling} {u v t : Kernel} {name : Option (List (BitVec 8))} {entry flags p : Nat}
      (hcreate : processCreate x.kernel name entry flags = .ok (p, u)) (hprep : Prepared u v p)
      (hadd : schedulerAdd v p = .ok t) :
      HandlerStep x { x with kernel := t, added := x.added ++ [(v.pcb p).pid] }
  | spawn {x : Scheduling} {t : Kernel} {path : Option (List (BitVec 8))} {file : Option FileRead}
      {argv : Option (List (List (BitVec 8)))} {pid : Option Nat}
      (h : processSpawn x.kernel path file argv = .ok (pid, t)) :
      HandlerStep x { x with kernel := t, added := x.added ++ pid.toList }
  | fork {x : Scheduling} {t : Kernel} {p pid : Nat} (h : processFork x.kernel = .ok (pid, t))
      (hp : p ∈ t.processes) (hnew : p ∉ x.kernel.processes) :
      HandlerStep x { x with kernel := t, added := x.added ++ [pid] }
  | forkFails {x : Scheduling} {t : Kernel} {pid : Nat} (h : processFork x.kernel = .ok (pid, t))
      (hnone : t.processes = x.kernel.processes) : HandlerStep x { x with kernel := t }
  | block {x : Scheduling} (hidle : x.kernel.current.pid ≠ 0) :
      HandlerStep x { x with kernel := processBlock x.kernel x.kernel.currentProcess }
  | wake {x : Scheduling} (p : Nat) : HandlerStep x { x with kernel := processWake x.kernel p }
  | sleep {x : Scheduling} (now : BitVec 32) (rdi : BitVec 64) (hidle : x.kernel.current.pid ≠ 0) :
      HandlerStep x { x with kernel := sysSleep x.kernel now rdi }
  | exit {x : Scheduling} {t : Kernel} {rdi : BitVec 64} (hidle : x.kernel.current.pid ≠ 0)
      (h : sysExit x.kernel rdi = .ok t) : HandlerStep x { x with kernel := t }
  | reap {x : Scheduling} {t : Kernel} {i : Nat} (hi : i < maxProcesses)
      (hne : x.kernel.processTable i ≠ 0)
      (hdead : (x.kernel.pcb (x.kernel.processTable i)).state = .dead)
      (h : reap x.kernel i = .ok t) :
      HandlerStep x { x with
        kernel := t, removed := x.removed ++ [(x.kernel.pcb (x.kernel.processTable i)).pid] }

/-- What happens in a step. -/
inductive InterruptAction where
  | timer
  | keyboard
  | yield
  | wait
  | code
deriving Repr, DecidableEq

/-- One step.  `wait` is the `pic_send_eoi` of `keyboard_wait`.  A PCB that leaves the process table may
become another process's. -/
inductive InterruptStep : Interrupts → InterruptAction → Interrupts → Prop
  | timer {x : Interrupts} {t : Kernel} {now : BitVec 32} (haccept : Delivers x.inService 0)
      (h : schedulerTick x.kernel now = .ok t) : InterruptStep x .timer (x.timerInterrupt t)
  | keyboard {x : Interrupts} {t : Kernel} (haccept : Delivers x.inService 1)
      (h : t = x.kernel ∨ ∃ p, t = processWake x.kernel p) :
      InterruptStep x .keyboard (x.keyboardInterrupt t)
  | yield {x : Interrupts} {t : Kernel} {now : BitVec 32} (h : schedulerYield x.kernel now = .ok t) :
      InterruptStep x .yield (x.arrive t)
  | wait {x : Interrupts} (hexec : x.kernel.Executes) :
      InterruptStep x .wait { x with inService := picSendEoi x.inService }
  | code {x : Interrupts} {y : Scheduling} {preempted : Finset Nat} (hexec : x.kernel.Executes)
      (h : HandlerStep x.sched y)
      (hkeep : ∀ p, p ∈ preempted ↔ p ∈ x.preempted ∧ p ∈ y.kernel.processes) :
      InterruptStep x .code ⟨y, x.inService, preempted⟩

/-! ## 2. The controller -/

section Controller

variable {inService : Finset Nat}

theorem picSendEoi_subset (inService : Finset Nat) : picSendEoi inService ⊆ inService :=
  Finset.filter_subset _ _

theorem picSendEoi_single {irq : Nat} (h : inService ⊆ {irq}) : picSendEoi inService = ∅ := by
  refine Finset.filter_eq_empty_iff.mpr fun i hi => ?_
  rintro ⟨j, hj, hlt⟩
  rw [Finset.mem_singleton.mp (h hi), Finset.mem_singleton.mp (h hj)] at hlt
  exact absurd hlt (Nat.lt_irrefl _)

theorem picSendEoi_insert (irq : Nat) : picSendEoi (insert irq ∅) = ∅ :=
  picSendEoi_single (insert_empty_eq irq).subset

/-- While the timer is in service nothing else is delivered. -/
theorem not_delivers {irq : Nat} (h : 0 ∈ inService) : ¬ Delivers inService irq :=
  fun haccept => absurd (haccept 0 h) (Nat.not_lt_zero _)

theorem eq_empty_of_delivers {irq : Nat} (hsub : inService ⊆ {0}) (h : Delivers inService irq) :
    inService = ∅ := by
  refine Finset.eq_empty_of_forall_notMem fun i hi => ?_
  rw [Finset.mem_singleton.mp (hsub hi)] at hi
  exact not_delivers hi h

end Controller

/-! ## 3. The kernel between two switches -/

/-- The same process is current; nobody else has died, and nobody has come back to life. -/
structure SameLives (s t : Kernel) (q q' : List Nat) : Prop where
  current : t.currentProcess = s.currentProcess
  live : ∀ p ∈ q, p ≠ s.currentProcess → (s.pcb p).state ≠ .dead → p ∈ q' ∧ (t.pcb p).state ≠ .dead
  dead : ∀ p ∈ s.processes, p ∈ t.processes → (s.pcb p).state = .dead → (t.pcb p).state = .dead

section Code

variable {x y : Scheduling} {s t u : Kernel} {q : List Nat} {p parent : Nat}

/-- Steps that leave the queue and the table alone. -/
theorem sameLives_of_state (hcur : t.currentProcess = s.currentProcess)
    (hlive : ∀ p, p ≠ s.currentProcess → (t.pcb p).state = .dead → (s.pcb p).state = .dead)
    (hdead : ∀ p, (s.pcb p).state = .dead → (t.pcb p).state = .dead) : SameLives s t q q :=
  ⟨hcur, fun p hp hne hs => ⟨hp, fun ht => hs (hlive p hne ht)⟩, fun p _ _ hs => hdead p hs⟩

/-- What a process does to itself, other than to die. -/
theorem sameLives_suspend {f : Process → Process} (hexec : s.Executes) :
    SameLives s (s.modify s.currentProcess f) q q := by
  refine sameLives_of_state rfl (fun p hne hs => ?_) fun p hs => ?_
  · rwa [Kernel.modify_of_ne _ _ _ hne] at hs
  · have hne : p ≠ s.currentProcess := by
      rintro rfl
      exact hexec hs
    rwa [Kernel.modify_of_ne _ _ _ hne]

theorem sameLives_processBlock (hexec : s.Executes) :
    SameLives s (processBlock s s.currentProcess) q q := by
  unfold processBlock
  split
  · exact sameLives_of_state rfl (fun _ _ hs => hs) fun _ hs => hs
  · exact sameLives_suspend hexec

theorem sameLives_sysSleep (hexec : s.Executes) (now : BitVec 32) (rdi : BitVec 64) :
    SameLives s (sysSleep s now rdi) q q := by
  unfold sysSleep
  split
  · exact sameLives_of_state rfl (fun _ _ hs => hs) fun _ hs => hs
  · exact sameLives_suspend hexec

theorem WokenOrSame.dead_iff {a b : Process} (h : WokenOrSame a b) :
    b.state = .dead ↔ a.state = .dead := by
  rcases h.2 with hsame | ⟨hblocked, hready⟩
  · rw [hsame]
  · rw [hblocked, hready]
    decide

theorem Scheduling.Ok.join_sameLives (h : x.Ok q) (he : Entered x.kernel u p parent)
    (hadd : schedulerAdd u p = .ok t) : SameLives x.kernel t q (q ++ [p]) := by
  obtain ⟨-, hcur, -⟩ := schedulerAdd_pid hadd
  obtain ⟨-, hstate⟩ := schedulerAdd_state hadd
  have hsame : ∀ a ∈ x.kernel.processes, (t.pcb a).state = (x.kernel.pcb a).state := by
    intro a ha
    have hap : a ≠ p := fun hap => he.fresh (hap ▸ ha)
    rw [hstate a hap, he.others a hap]
  refine ⟨hcur.trans he.current, fun a ha _ hs => ⟨List.mem_append_left _ ha, ?_⟩, fun a ha _ hs => ?_⟩
  · rwa [hsame a (h.live.mem a ha)]
  · rwa [hsame a ha]

theorem Scheduling.Ok.refuse_sameLives (h : x.Ok q) (hr : Refused x.kernel t) :
    SameLives x.kernel t q q :=
  ⟨hr.current, fun a ha _ hs => ⟨ha, by rwa [hr.pcb a (h.live.mem a ha)]⟩,
    fun a ha _ hs => by rwa [hr.pcb a ha]⟩

/-- **Between two switches.** -/
theorem HandlerStep.spec (hstep : HandlerStep x y) (hexec : x.kernel.Executes) (h : x.Ok q) :
    ∃ q', y.Ok q' ∧ SameLives x.kernel y.kernel q q' := by
  cases hstep with
  | create hcreate hprep hadd =>
    have he := (processCreate_entered h.live.table hcreate).prepare hprep
    exact ⟨_, h.join he hadd, h.join_sameLives he hadd⟩
  | spawn hspawn =>
    rcases processSpawn_cases h.live.table hspawn with ⟨rfl, hr⟩ | ⟨u, p, he, hadd, rfl⟩
    · refine ⟨q, ?_, h.refuse_sameLives hr⟩
      rw [Option.toList_none, List.append_nil]
      exact h.refuse hr
    · obtain ⟨-, -, hpid⟩ := schedulerAdd_pid hadd
      refine ⟨q ++ [p], ?_, h.join_sameLives he hadd⟩
      rw [Option.toList_some, hpid]
      exact h.join he hadd
  | fork hfork hp hnew =>
    rcases processFork_cases h.live.table hfork with hr | ⟨u, p, he, hadd, rfl⟩
    · exact absurd (hr.processes ▸ hp) hnew
    · exact ⟨q ++ [p], he.pid ▸ h.join he hadd, h.join_sameLives he hadd⟩
  | forkFails hfork hnone =>
    rcases processFork_cases h.live.table hfork with hr | ⟨u, p, he, hadd, -⟩
    · exact ⟨q, h.refuse hr, h.refuse_sameLives hr⟩
    · have hp : p ∈ u.processes := (he.mem p).mpr (Or.inl rfl)
      rw [← schedulerAdd_processes hadd, hnone] at hp
      exact absurd hp he.fresh
  | block hidle =>
    refine ⟨q, ?_, sameLives_processBlock hexec⟩
    unfold processBlock
    split
    · exact h
    · exact h.suspend hidle (fun _ => ⟨_, _, _, _, rfl⟩) fun _ => ⟨by simp, by simp⟩
  | wake p =>
    exact ⟨q, h.wake p, sameLives_of_state (processWake_currentProcess _ p)
      (fun a _ => (processWake_state x.kernel p a).dead_iff.mp)
      fun a => (processWake_state x.kernel p a).dead_iff.mpr⟩
  | sleep now rdi hidle =>
    refine ⟨q, ?_, sameLives_sysSleep hexec now rdi⟩
    unfold sysSleep
    split
    · exact h
    · exact h.suspend hidle (fun _ => ⟨_, _, _, _, rfl⟩) fun _ => ⟨by simp, by simp⟩
  | exit hidle hexit =>
    obtain ⟨hdead, -, hothers, -⟩ := sysExit_spec hexit
    refine ⟨q, h.exit hidle hexit, sameLives_of_state (sysExit_currentProcess hexit)
      (fun a ha => (hothers a ha).dead_iff.mp) fun a hs => ?_⟩
    by_cases ha : a = x.kernel.currentProcess
    · rw [ha, hdead]
    · exact (hothers a ha).dead_iff.mpr hs
  | reap hi hne hdead hreap =>
    rename_i t i
    obtain ⟨hleft, -⟩ := reap_cases h.live.table hi hne hreap
    have hsame : ∀ a, (t.pcb a).state = (x.kernel.pcb a).state := fun a => by
      obtain ⟨n, hn⟩ := hleft.pcb a
      rw [hn]
    refine ⟨_, h.reap hexec hi hne hdead hreap, hleft.current, fun a ha _ hs => ?_, fun a _ _ hs => ?_⟩
    · have hap : a ≠ x.kernel.processTable i := by
        rintro rfl
        exact hs hdead
      exact ⟨List.mem_filter.mpr ⟨ha, decide_eq_true hap⟩, by rwa [hsame a]⟩
    · rwa [hsame a]

/-- A switch: the process that is left does not die, and a dead one is not picked. -/
structure KeepsQueue (s t : Kernel) : Prop where
  live : ∀ p, p ≠ t.currentProcess → (s.pcb p).state ≠ .dead → (t.pcb p).state ≠ .dead
  dead : ∀ p, (s.pcb p).state = .dead → (t.pcb p).state = .dead
  picked : t.currentProcess = s.currentProcess ∨ (s.pcb t.currentProcess).state ≠ .dead
  processes : t.processes = s.processes

theorem Awakes.dead_iff {a b : ProcessState} (h : Awakes a b) : b = .dead ↔ a = .dead := by
  rcases h with rfl | ⟨rfl, rfl⟩
  · rfl
  · decide

theorem Stays.keepsQueue {rest : List Nat} (h : Stays s t rest) : KeepsQueue s t :=
  ⟨fun p _ hs ht => hs ((h.state p).dead_iff.mp ht), fun p => (h.state p).dead_iff.mpr,
    Or.inl h.current, h.restated.processes_eq⟩

theorem Switches.keepsQueue {skipped : List Nat} (h : Switches s t skipped) : KeepsQueue s t := by
  have hpicked : (s.pcb t.currentProcess).state ≠ .dead := by
    rcases h.picked with hs | hs | hs <;> rw [hs] <;> decide
  have hstate : ∀ p, p ≠ t.currentProcess → ((t.pcb p).state = .dead ↔ (s.pcb p).state = .dead) := by
    intro p hp
    by_cases hcur : p = s.currentProcess
    · have hold := h.old
      rw [← hcur] at hold
      split at hold
      · rename_i hrun
        rw [hold, hrun]
        decide
      · exact hold.dead_iff
    · exact (h.others p hcur hp).dead_iff
  refine ⟨fun p hp hs ht => hs ((hstate p hp).mp ht), fun p hs => ?_, Or.inr hpicked,
    h.restated.processes_eq⟩
  exact (hstate p fun hp => hpicked (hp ▸ hs)).mpr hs

/-- `scheduler_tick` and `scheduler_yield`. -/
theorem Scheduling.Ok.keepsQueue {now : BitVec 32} (h : x.Ok q)
    (ht : schedulerTick x.kernel now = .ok t ∨ schedulerYield x.kernel now = .ok t) :
    { x with kernel := t }.Ok q ∧ KeepsQueue x.kernel t := by
  obtain ⟨rest, hrest⟩ := exists_rest h.current
  have hcase : Stays x.kernel t rest ∨
      ∃ xs ys, rest = xs ++ t.currentProcess :: ys ∧ Switches x.kernel t xs := by
    rcases ht with ht | ht
    · obtain ⟨t', ht', hcase⟩ := schedulerTick_spec now h.listed.queue hrest h.queueOk.room
      exact Except.ok.inj (ht.symm.trans ht') ▸ hcase
    · obtain ⟨t', ht', hcase⟩ := schedulerYield_spec now h.listed.queue hrest h.queueOk.room
      exact Except.ok.inj (ht.symm.trans ht') ▸ hcase
  refine ⟨h.tick hrest hcase, ?_⟩
  rcases hcase with hstays | ⟨xs, ys, -, hswitch⟩
  · exact hstays.keepsQueue
  · exact hswitch.keepsQueue

/-- A dead process is switched away from by a tick: idle can run. -/
theorem Scheduling.Ok.tick_switches {now : BitVec 32} (h : x.Ok q) (hidle : x.kernel.current.pid ≠ 0)
    (hdead : x.kernel.current.state = .dead) (ht : schedulerTick x.kernel now = .ok t) :
    t.currentProcess ≠ x.kernel.currentProcess := by
  obtain ⟨rest, hrest⟩ := exists_rest h.current
  obtain ⟨t', ht', hstays | ⟨xs, ys, -, hswitch⟩⟩ :=
    schedulerTick_spec now h.listed.queue hrest h.queueOk.room
  · exfalso
    obtain rfl := Except.ok.inj (ht.symm.trans ht')
    rcases hstays.why with hrun | hnone
    · have hstill := (hstays.state x.kernel.currentProcess).dead_iff.mpr hdead
      rw [hstill] at hrun
      cases hrun
    · obtain ⟨p, hp, hpid, hrun⟩ := h.idle
      have hpc : p ≠ x.kernel.currentProcess := by
        rintro rfl
        exact hidle hpid
      have hprest : p ∈ rest := by
        have hmem := hrest.mem_iff.mp hp
        rw [List.mem_append, List.mem_singleton] at hmem
        exact hmem.resolve_right hpc
      refine hnone p hprest ?_
      rcases hstays.state p with hsame | ⟨-, hready⟩
      · rw [Kernel.Runnable, hsame]
        exact hrun
      · exact Or.inl hready
  · obtain rfl := Except.ok.inj (ht.symm.trans ht')
    exact hswitch.changed

end Code

/-! ## 4. The acknowledgement is owed by somebody who can send it -/

/-- **The invariant.** -/
structure Interrupts.Sound (x : Interrupts) (q : List Nat) : Prop where
  sched : x.sched.Ok q
  inService : x.inService ⊆ {0}
  preempted : ∀ p ∈ x.preempted,
    p ∈ q ∧ (x.kernel.pcb p).state ≠ .dead ∧ p ≠ x.kernel.currentProcess
  owed : 0 ∈ x.inService → x.preempted.Nonempty

/-- What holds as long as nobody acknowledges an interrupt that is not its own. -/
structure Interrupts.Exact (x : Interrupts) : Prop where
  owed : 0 ∈ x.inService ↔ x.preempted.Nonempty
  single : ∀ p ∈ x.preempted, ∀ p' ∈ x.preempted, p = p'

section Invariant

variable {x y : Interrupts} {a : InterruptAction} {q : List Nat} {t : Kernel}

/-- Arriving at a process, be it from another one or not. -/
theorem Interrupts.Sound.arrive (hsched : { x.sched with kernel := t }.Ok q)
    (hkeeps : KeepsQueue x.kernel t) (hservice : x.inService ⊆ {0})
    (hpre : ∀ p ∈ x.preempted, p ∈ q ∧ (x.kernel.pcb p).state ≠ .dead)
    (howed : 0 ∈ x.inService → x.preempted.Nonempty) : (x.arrive t).Sound q := by
  refine ⟨hsched, ?_, fun p hp => ?_, fun h0 => ?_⟩
  · unfold Interrupts.arrive
    dsimp only
    split
    · exact (picSendEoi_subset _).trans hservice
    · exact hservice
  · obtain ⟨hne, hp⟩ := Finset.mem_erase.mp hp
    exact ⟨(hpre p hp).1, hkeeps.live p hne (hpre p hp).2, hne⟩
  · unfold Interrupts.arrive at h0 ⊢
    dsimp only at h0 ⊢
    split at h0
    · rw [picSendEoi_single hservice] at h0
      exact absurd h0 (Finset.notMem_empty 0)
    · rename_i hnot
      rw [Finset.erase_eq_of_notMem hnot]
      exact howed h0

/-- **Every step keeps the invariant**, except for a tick that preempts a dead process. -/
theorem InterruptStep.sound (hstep : InterruptStep x a y) (hdead : a = .timer → x.kernel.Executes)
    (h : x.Sound q) : ∃ q', y.Sound q' := by
  cases hstep with
  | timer hdeliver ht =>
    obtain ⟨hsched, hkeeps⟩ := h.sched.keepsQueue (Or.inl ht)
    have hempty := eq_empty_of_delivers h.inService hdeliver
    refine ⟨q, ?_⟩
    unfold Interrupts.timerInterrupt
    split
    · rename_i hsame
      rw [hempty, picSendEoi_insert 0]
      refine ⟨hsched, Finset.empty_subset _, fun p hp => ?_, fun h0 => absurd h0 (Finset.notMem_empty 0)⟩
      obtain ⟨hq, hs, hne⟩ := h.preempted p hp
      exact ⟨hq, hkeeps.live p (hsame ▸ hne) hs, fun heq => hne (heq.trans hsame)⟩
    · refine Interrupts.Sound.arrive hsched hkeeps ?_ (fun p hp => ?_) fun _ =>
        Finset.insert_nonempty _ _
      · dsimp only
        rw [hempty]
        simp
      · rcases Finset.mem_insert.mp hp with rfl | hp
        · exact ⟨h.sched.current, hdead rfl⟩
        · exact ⟨(h.preempted p hp).1, (h.preempted p hp).2.1⟩
  | keyboard hdeliver ht =>
    rename_i t
    have hempty := eq_empty_of_delivers h.inService hdeliver
    have hkernel : { x.sched with kernel := t }.Ok q ∧ t.currentProcess = x.kernel.currentProcess ∧
        ∀ p, (t.pcb p).state = .dead ↔ (x.kernel.pcb p).state = .dead := by
      rcases ht with rfl | ⟨p, rfl⟩
      · exact ⟨h.sched, rfl, fun _ => Iff.rfl⟩
      · exact ⟨h.sched.wake p, processWake_currentProcess _ p,
          fun a => (processWake_state x.kernel p a).dead_iff⟩
    obtain ⟨hsched, hcur, hstate⟩ := hkernel
    refine ⟨q, hsched, ?_, fun p hp => ?_, ?_⟩
    · unfold Interrupts.keyboardInterrupt
      dsimp only
      rw [hempty, picSendEoi_insert 1]
      exact Finset.empty_subset _
    · obtain ⟨hq, hs, hne⟩ := h.preempted p hp
      exact ⟨hq, fun hd => hs ((hstate p).mp hd), fun heq => hne (heq.trans hcur)⟩
    · unfold Interrupts.keyboardInterrupt
      dsimp only
      rw [hempty, picSendEoi_insert 1]
      exact fun h0 => absurd h0 (Finset.notMem_empty 0)
  | yield ht =>
    obtain ⟨hsched, hkeeps⟩ := h.sched.keepsQueue (Or.inr ht)
    exact ⟨q, Interrupts.Sound.arrive hsched hkeeps h.inService
      (fun p hp => ⟨(h.preempted p hp).1, (h.preempted p hp).2.1⟩) h.owed⟩
  | wait hexec =>
    refine ⟨q, h.sched, (picSendEoi_subset _).trans h.inService, h.preempted, fun h0 => ?_⟩
    rw [picSendEoi_single h.inService] at h0
    exact absurd h0 (Finset.notMem_empty 0)
  | code hexec hcode hkeep =>
    obtain ⟨q', hsched, hlives⟩ := hcode.spec hexec h.sched
    refine ⟨q', hsched, h.inService, fun p hp => ?_, fun h0 => ?_⟩
    · obtain ⟨hq, hs, hne⟩ := h.preempted p ((hkeep p).mp hp).1
      obtain ⟨hq', hs'⟩ := hlives.live p hq hne hs
      exact ⟨hq', hs', fun heq => hne (heq.trans hlives.current)⟩
    · obtain ⟨p, hp⟩ := h.owed h0
      obtain ⟨hq, hs, hne⟩ := h.preempted p hp
      exact ⟨p, (hkeep p).mpr ⟨hp, hsched.live.mem p (hlives.live p hq hne hs).1⟩⟩

/-- Without `keyboard_wait` nobody acknowledges for another process. -/
theorem InterruptStep.exact (hstep : InterruptStep x a y) (hwait : a ≠ .wait) (h : x.Sound q)
    (he : x.Exact) : y.Exact := by
  have hnone : x.inService = ∅ → x.preempted = ∅ := by
    intro hempty
    by_contra hne
    have h0 := he.owed.mpr (Finset.nonempty_iff_ne_empty.mpr hne)
    rw [hempty] at h0
    exact absurd h0 (Finset.notMem_empty 0)
  cases hstep with
  | timer hdeliver ht =>
    rename_i t now
    have hempty := eq_empty_of_delivers h.inService hdeliver
    unfold Interrupts.timerInterrupt
    rw [hempty, hnone hempty]
    split
    · rw [picSendEoi_insert 0]
      exact ⟨by simp, by simp⟩
    · rename_i hne
      have hnot : t.currentProcess ∉ ({x.kernel.currentProcess} : Finset Nat) := by
        simpa using hne
      unfold Interrupts.arrive
      dsimp only
      rw [insert_empty_eq, insert_empty_eq, if_neg hnot, Finset.erase_eq_of_notMem hnot]
      exact ⟨by simp, by simp⟩
  | keyboard hdeliver ht =>
    have hempty := eq_empty_of_delivers h.inService hdeliver
    unfold Interrupts.keyboardInterrupt
    rw [hempty, hnone hempty, picSendEoi_insert 1]
    exact ⟨by simp, by simp⟩
  | yield ht =>
    rename_i t now
    unfold Interrupts.arrive
    by_cases hin : t.currentProcess ∈ x.preempted
    · have hsingle : x.preempted.erase t.currentProcess = ∅ :=
        Finset.eq_empty_of_forall_notMem fun p hp =>
          (Finset.mem_erase.mp hp).1 (he.single p (Finset.mem_erase.mp hp).2 _ hin)
      rw [if_pos hin, hsingle, picSendEoi_single h.inService]
      exact ⟨by simp, by simp⟩
    · rw [if_neg hin, Finset.erase_eq_of_notMem hin]
      exact ⟨he.owed, he.single⟩
  | wait hexec => exact absurd rfl hwait
  | code hexec hcode hkeep =>
    obtain ⟨q', hsched, hlives⟩ := hcode.spec hexec h.sched
    refine ⟨he.owed.trans ⟨?_, ?_⟩, fun p hp p' hp' =>
      he.single p ((hkeep p).mp hp).1 p' ((hkeep p').mp hp').1⟩
    · rintro ⟨p, hp⟩
      obtain ⟨hq, hs, hne⟩ := h.preempted p hp
      exact ⟨p, (hkeep p).mpr ⟨hp, hsched.live.mem p (hlives.live p hq hne hs).1⟩⟩
    · rintro ⟨p, hp⟩
      exact ⟨p, ((hkeep p).mp hp).1⟩

end Invariant

/-! ## 5. In every run -/

/-- No dead process is preempted. -/
def Spares (x : Interrupts) (a : InterruptAction) : Prop := a = .timer → x.kernel.Executes

/-- Nobody calls `keyboard_wait`. -/
def Unassisted (_ : Interrupts) (a : InterruptAction) : Prop := a ≠ .wait

/-- A run whose steps all satisfy `P`. -/
def InterruptRun (P : Interrupts → InterruptAction → Prop) : Interrupts → Interrupts → Prop :=
  ReflTransGen fun x y => ∃ a, P x a ∧ InterruptStep x a y

section Runs

variable {x y z : Interrupts} {q : List Nat}

theorem InterruptRun.sound (hrun : InterruptRun Spares x y) (h : ∃ q, x.Sound q) : ∃ q, y.Sound q :=
  reach_invariant (I := fun x : Interrupts => ∃ q, x.Sound q) hrun h fun x y h hstep => by
    obtain ⟨q, hq⟩ := h
    obtain ⟨a, hspares, hstep⟩ := hstep
    exact hstep.sound hspares hq

theorem InterruptRun.exact (hrun : InterruptRun (fun x a => Spares x a ∧ Unassisted x a) x y)
    (h : ∃ q, x.Sound q) (he : x.Exact) : (∃ q, y.Sound q) ∧ y.Exact := by
  refine reach_invariant (I := fun x : Interrupts => (∃ q, x.Sound q) ∧ x.Exact) hrun ⟨h, he⟩
    fun x y h hstep => ?_
  obtain ⟨⟨q, hq⟩, he⟩ := h
  obtain ⟨a, ⟨hspares, hwait⟩, hstep⟩ := hstep
  exact ⟨hstep.sound hspares hq, hstep.exact hwait hq he⟩

/-- The timer can be delivered exactly when it is not in service. -/
theorem delivers_timer_iff {inService : Finset Nat} (hsub : inService ⊆ {0}) :
    Delivers inService 0 ↔ 0 ∉ inService := by
  refine ⟨fun haccept h0 => not_delivers h0 haccept, fun h0 i hi => ?_⟩
  rw [Finset.mem_singleton.mp (hsub hi)] at hi
  exact absurd hi h0

/-- The timer is in service, and only dead processes are suspended in `irq_handler`. -/
structure Interrupts.Lost (x : Interrupts) (q : List Nat) : Prop where
  sched : x.sched.Ok q
  inService : 0 ∈ x.inService
  preempted : ∀ p ∈ x.preempted, p ∈ x.kernel.processes ∧ (x.kernel.pcb p).state = .dead
  current : x.kernel.currentProcess ∉ x.preempted

theorem InterruptStep.lost {a : InterruptAction} (hstep : InterruptStep x a y) (hwait : a ≠ .wait)
    (h : x.Lost q) : ∃ q', y.Lost q' := by
  cases hstep with
  | timer hdeliver _ => exact absurd hdeliver (not_delivers h.inService)
  | keyboard hdeliver _ => exact absurd hdeliver (not_delivers h.inService)
  | yield ht =>
    rename_i t now
    obtain ⟨hsched, hkeeps⟩ := h.sched.keepsQueue (Or.inr ht)
    -- the scheduler never picks a dead process
    have hpicked : t.currentProcess ∉ x.preempted := by
      rcases hkeeps.picked with hsame | hlive
      · rw [hsame]
        exact h.current
      · exact fun hin => hlive (h.preempted _ hin).2
    refine ⟨q, hsched, ?_, fun p hp => ?_, Finset.notMem_erase _ _⟩
    · unfold Interrupts.arrive
      rw [if_neg hpicked]
      exact h.inService
    · obtain ⟨hp, hs⟩ := h.preempted p (Finset.mem_of_mem_erase hp)
      exact ⟨hkeeps.processes ▸ hp, hkeeps.dead p hs⟩
  | wait _ => exact absurd rfl hwait
  | code hexec hcode hkeep =>
    obtain ⟨q', hsched, hlives⟩ := hcode.spec hexec h.sched
    refine ⟨q', hsched, h.inService, fun p hp => ?_, fun hin => ?_⟩
    · obtain ⟨hin, hp⟩ := (hkeep p).mp hp
      obtain ⟨hold, hs⟩ := h.preempted p hin
      exact ⟨hp, hlives.dead p hold hp hs⟩
    · exact h.current (hlives.current ▸ ((hkeep _).mp hin).1)

/-- The timer preempts a dead process: somebody else is picked, and nobody is left who acknowledges. -/
theorem InterruptStep.timer_dead (hstep : InterruptStep x .timer y) (h : x.sched.Ok q)
    (hnone : x.preempted = ∅) (hdead : x.kernel.current.state = .dead) : y.Lost q := by
  cases hstep with
  | timer hdeliver ht =>
    rename_i t now
    obtain ⟨hsched, hkeeps⟩ := h.keepsQueue (Or.inl ht)
    have hidle : x.kernel.current.pid ≠ 0 := by
      intro hpid
      obtain ⟨p, hp, hpid', hrun⟩ := h.idle
      obtain rfl : p = x.kernel.currentProcess :=
        h.live.pid_inj (h.live.mem p hp) (h.live.mem _ h.current) (hpid'.trans hpid.symm)
      have hstate : (x.kernel.pcb x.kernel.currentProcess).state = .dead := hdead
      rcases hrun with hrun | hrun
      · cases hrun.symm.trans hstate
      · cases hrun.symm.trans hstate
    have hne : t.currentProcess ≠ x.kernel.currentProcess := h.tick_switches hidle hdead ht
    have hpicked : (x.kernel.pcb t.currentProcess).state ≠ .dead := hkeeps.picked.resolve_left hne
    have hnot : t.currentProcess ∉ insert x.kernel.currentProcess x.preempted := by
      rw [hnone]
      simpa using hne
    unfold Interrupts.timerInterrupt
    rw [if_neg hne]
    refine ⟨hsched, ?_, fun p hp => ?_, Finset.notMem_erase _ _⟩
    · unfold Interrupts.arrive
      rw [if_neg hnot]
      exact Finset.mem_insert_self _ _
    · have hp := Finset.mem_of_mem_erase hp
      rw [hnone] at hp
      obtain rfl := Finset.mem_singleton.mp (by simpa using hp)
      exact ⟨hkeeps.processes ▸ h.live.mem _ h.current, hkeeps.dead _ hdead⟩

end Runs

/-- Idle, and a process that has just died. -/
def exitedKernel (heap : KHeap) : Kernel :=
  { twoProcesses heap (twoSlots firstPcb secondPcb) firstPcb with
    pcb := fun p => if p = firstPcb then queuedPcb 0 .ready secondPcb else queuedPcb 1 .dead firstPcb
    currentProcess := secondPcb
    runQueueHead := firstPcb
    runQueueTail := secondPcb }

theorem exitedKernel_pcb (heap : KHeap) :
    (exitedKernel heap).pcb firstPcb = queuedPcb 0 .ready secondPcb ∧
      (exitedKernel heap).current = queuedPcb 1 .dead firstPcb := by
  have hne : secondPcb ≠ firstPcb := by decide
  simp [Kernel.current, exitedKernel, hne]

theorem exitedKernel_ok : ∃ heap,
    (⟨exitedKernel heap, [0, 1], []⟩ : Scheduling).Ok [firstPcb, secondPcb] := by
  obtain ⟨heap', heap, hp, hq⟩ : ∃ heap' heap,
      kmalloc (memInit fun _ => ⟨0, false, 0⟩) sizeofProcess = .ok (firstPcb, heap') ∧
      kmalloc heap' sizeofProcess = .ok (secondPcb, heap) := ⟨_, _, rfl, rfl⟩
  obtain ⟨-, hmem, htable⟩ := twoProcesses_table hp hq
  refine ⟨heap, ?_⟩
  have hprocesses : ∀ x, x ∈ (exitedKernel heap).processes ↔ x = secondPcb ∨ x = firstPcb := hmem
  obtain ⟨hfirst, hsecond⟩ := exitedKernel_pcb heap
  change (exitedKernel heap).pcb secondPcb = _ at hsecond
  have hboth : ∀ {P : Nat → Prop}, P firstPcb → P secondPcb →
      ∀ a ∈ (exitedKernel heap).processes, P a := by
    rintro P h1 h2 a ha
    rcases (hprocesses a).mp ha with rfl | rfl
    · exact h2
    · exact h1
  refine ⟨⟨⟨?_, rfl, rfl, by decide, by decide⟩, ?_, by simp, by simp⟩,
    ⟨htable.congr rfl rfl, ?_, ?_, ?_, ?_, ?_, ?_⟩, List.mem_cons_of_mem _ List.mem_cons_self, ?_⟩
  · refine (@ring_iff_isChain _ _ [firstPcb] _).mpr ?_
    simp [Leads, Kernel.link, hfirst, hsecond, queuedPcb]
  · simp [Kernel.pids, hfirst, hsecond, queuedPcb]
  · simp [hprocesses]
  · refine hboth ?_ ?_
    · rw [hfirst]
      exact Nat.zero_lt_two
    · rw [hsecond]
      exact Nat.one_lt_two
  · refine hboth (hboth (fun _ => rfl) fun hpid => ?_) (hboth (fun hpid => ?_) fun _ => rfl)
    · simp [hfirst, hsecond, queuedPcb] at hpid
    · simp [hfirst, hsecond, queuedPcb] at hpid
  · simp [exitedKernel, twoProcesses]
  · exact hboth (fun _ => by simp) fun _ => by simp
  · refine hboth (fun hs => ?_) fun _ => rfl
    dsimp only at hs
    rw [hfirst] at hs
    cases hs
  · exact ⟨firstPcb, List.mem_cons_self, by rw [hfirst]; rfl, Or.inl (by rw [hfirst]; rfl)⟩

end AcornOS
