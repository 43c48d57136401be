/-
# The scheduler (`scheduler.c`)

The model of the timer tick, and what the routines of `scheduler.c` do to the run queue.

* `Kernel.Queue s q`: the PCBs of `q` are linked into a ring by `next`, from `run_queue_head` to
  `run_queue_tail` and back.  `schedulerAdd_queue` and `schedulerRemove_queue` say what becomes of `q`.
* `Restated s t`: states, exit codes, time slices and wake-up times may have changed, and nothing
  else.  Ticks, blocking, waking, sleeping and exiting are of this kind, so they keep the queue.
* `schedulerTick_spec`: which process a tick picks.  It is stated for the list `rest` of the processes
  behind the current one, in the order of the ring: those that are passed over can not run.

`switch_context` saves registers in the old PCB and loads them from the new one; that is the subject of
`Arch/Switch.lean`, and the registers of a PCB do not matter here.
-/
import AcornOS.Lib.Ring
import AcornOS.Processes.Table

namespace AcornOS

open Lib
open scoped List

/-! ## 1. The model -/

/-- `TIMER_FREQUENCY` -/
def timerFrequency : BitVec 64 := 100

/-- One round of `scheduler_wake_sleepers`. -/
def wakeSleeper (now : BitVec 32) (i : Nat) (s : Kernel) : Kernel :=
  let proc := s.processTable i
  if proc ≠ 0 ∧ (s.pcb proc).state = .sleeping ∧ (s.pcb proc).wakeAtTick ≤ now then
    s.modify proc fun p => { p with state := .ready }
  else s

/-- `scheduler_wake_sleepers` -/
def schedulerWakeSleepers (s : Kernel) (now : BitVec 32) : Kernel :=
  loop (wakeSleeper now) maxProcesses s

/-- The walk of `scheduler_tick` along the queue, with the rounds it has left. -/
def pickFrom (s : Kernel) (old : Nat) : Nat → Nat → Nat
  | 0, new => new
  | n + 1, new =>
    if (s.pcb new).state = .ready ∨ ((s.pcb new).state = .running ∧ new ≠ old) then new
    else if new = old then new
    else pickFrom s old n (s.pcb new).next

/-- The end of `scheduler_tick`: the new process gets a time slice and runs. -/
def switchTo (s : Kernel) (old new : Nat) : Kernel :=
  let s := s.modify new fun p => { p with ticksRemaining := p.timeSlice }
  let s := s.modify old fun p => { p with state := if p.state = .running then .ready else p.state }
  let s := s.modify new fun p => { p with state := .running }
  { s with currentProcess := new }

/-- `scheduler_tick`, when the timer says `now`. -/
def schedulerTick (s : Kernel) (now : BitVec 32) : Except Halt Kernel :=
  let s := schedulerWakeSleepers s now
  if s.currentProcess = 0 then .ok s
  else if s.runQueueHead = 0 then .ok s
  else
    let s := s.modify s.currentProcess fun p => { p with ticksRemaining := p.ticksRemaining - 1 }
    if 0 < s.current.ticksRemaining ∧ s.current.pid ≠ 0 ∧ s.current.state = .running then .ok s
    else
      let old := s.currentProcess
      if s.current.next = 0 then
        .error (.panic "scheduler_tick: corrupted run queue - null next pointer!")
      else
        let new := pickFrom s old maxProcesses s.current.next
        if (s.pcb new).state ≠ .ready ∧ (s.pcb new).state ≠ .running then
          .ok (s.modify s.currentProcess fun p => { p with ticksRemaining := p.timeSlice })
        else if new = old then
          .ok (s.modify s.currentProcess fun p => { p with ticksRemaining := p.timeSlice })
        else .ok (switchTo s old new)

/-- `scheduler_yield` -/
def schedulerYield (s : Kernel) (now : BitVec 32) : Except Halt Kernel :=
  if s.currentProcess = 0 then .ok s
  else schedulerTick (s.modify s.currentProcess fun p => { p with ticksRemaining := 0 }) now

/-- `scheduler_start`, up to the jump into the process. -/
def schedulerStart (s : Kernel) : Except Halt Kernel :=
  if s.runQueueHead = 0 then .error (.panic "Scheduler: no process to run!")
  else .ok ({ s with currentProcess := s.runQueueHead }.modify s.runQueueHead fun p =>
    { p with state := .running, ticksRemaining := p.timeSlice })

/-- `sys_sleep`, up to its call of `scheduler_yield`. -/
def sysSleep (s : Kernel) (now : BitVec 32) (rdi : BitVec 64) : Kernel :=
  if s.currentProcess = 0 then s
  else
    let ticks := ((rdi * timerFrequency + 999) / 1000).setWidth 32
    let ticks := if ticks = 0 then 1 else ticks
    s.modify s.currentProcess fun p => { p with wakeAtTick := now + ticks, state := .sleeping }

/-! ## 2. Steps that keep the queue -/

/-- Only what scheduling reads and writes of a PCB differs. -/
def SameProcess (x y : Process) : Prop := ∃ state ticks code wake, x =
  { y with state := state, ticksRemaining := ticks, exitCode := code, wakeAtTick := wake }

/-- `Restated s t`: the PCBs are the same but for what scheduling writes, and nothing else but the
current process has changed. -/
structure Restated (s t : Kernel) : Prop where
  machine : t.machine = s.machine
  heap : t.heap = s.heap
  table : t.processTable = s.processTable
  nextPid : t.nextPid = s.nextPid
  head : t.runQueueHead = s.runQueueHead
  tail : t.runQueueTail = s.runQueueTail
  kernelPml4 : t.kernelPml4 = s.kernelPml4
  iret : t.iretToUsermode = s.iretToUsermode
  pcb : ∀ p, SameProcess (t.pcb p) (s.pcb p)

section Restated

variable {s t u : Kernel} {p : Nat} {x y z : Process} {f : Process → Process}

theorem SameProcess.refl (x : Process) : SameProcess x x := ⟨_, _, _, _, rfl⟩

theorem SameProcess.trans (h : SameProcess x y) (h' : SameProcess y z) : SameProcess x z := by
  obtain ⟨_, _, _, _, rfl⟩ := h
  obtain ⟨_, _, _, _, rfl⟩ := h'
  exact ⟨_, _, _, _, rfl⟩

theorem SameProcess.pid_eq (h : SameProcess x y) : x.pid = y.pid := by
  obtain ⟨_, _, _, _, rfl⟩ := h
  rfl

theorem SameProcess.parentPid_eq (h : SameProcess x y) : x.parentPid = y.parentPid := by
  obtain ⟨_, _, _, _, rfl⟩ := h
  rfl

theorem SameProcess.next_eq (h : SameProcess x y) : x.next = y.next := by
  obtain ⟨_, _, _, _, rfl⟩ := h
  rfl

theorem Restated.refl (s : Kernel) : Restated s s :=
  ⟨rfl, rfl, rfl, rfl, rfl, rfl, rfl, rfl, fun _ => SameProcess.refl _⟩

theorem Restated.trans (h : Restated s t) (h' : Restated t u) : Restated s u where
  machine := h'.machine.trans h.machine
  heap := h'.heap.trans h.heap
  table := h'.table.trans h.table
  nextPid := h'.nextPid.trans h.nextPid
  head := h'.head.trans h.head
  tail := h'.tail.trans h.tail
  kernelPml4 := h'.kernelPml4.trans h.kernelPml4
  iret := h'.iret.trans h.iret
  pcb p := (h'.pcb p).trans (h.pcb p)

theorem restated_modify (hf : ∀ x, SameProcess (f x) x) : Restated s (s.modify p f) := by
  refine ⟨rfl, rfl, rfl, rfl, rfl, rfl, rfl, rfl, fun q => ?_⟩
  by_cases hq : q = p
  · subst hq
    rw [Kernel.modify_self]
    exact hf _
  · rw [Kernel.modify_of_ne _ _ _ hq]
    exact SameProcess.refl _

theorem restated_setCurrent (s : Kernel) (p : Nat) : Restated s { s with currentProcess := p } :=
  ⟨rfl, rfl, rfl, rfl, rfl, rfl, rfl, rfl, fun _ => SameProcess.refl _⟩

theorem Restated.processes_eq (h : Restated s t) : t.processes = s.processes := by
  unfold Kernel.processes
  rw [h.table]

theorem restated_processBlock (s : Kernel) (p : Nat) : Restated s (processBlock s p) := by
  unfold processBlock
  split
  · exact Restated.refl s
  · exact restated_modify fun _ => ⟨_, _, _, _, rfl⟩

theorem restated_processWake (s : Kernel) (p : Nat) : Restated s (processWake s p) := by
  unfold processWake
  split
  · exact Restated.refl s
  split
  · exact Restated.refl s
  · exact restated_modify fun _ => ⟨_, _, _, _, rfl⟩

theorem restated_wakeParent (s : Kernel) (pid : Nat) : Restated s (wakeParent s pid) := by
  unfold wakeParent
  split
  · exact Restated.refl s
  · exact restated_processWake s _

theorem restated_sysSleep (s : Kernel) (now : BitVec 32) (rdi : BitVec 64) :
    Restated s (sysSleep s now rdi) := by
  unfold sysSleep
  split
  · exact Restated.refl s
  · exact restated_modify fun _ => ⟨_, _, _, _, rfl⟩

theorem restated_sysExit {rdi : BitVec 64} (h : sysExit s rdi = .ok t) :
    Restated s t := by
  unfold sysExit at h
  split at h
  · cases h
  · have hdead : ∀ (u : Kernel) (p : Nat), Restated u (processExit u p) := fun u p => by
      unfold processExit
      split
      · exact Restated.refl u
      · exact restated_modify fun _ => ⟨_, _, _, _, rfl⟩
    have hcode : Restated s (s.modify s.currentProcess fun p =>
        { p with exitCode := rdi.setWidth 32 }) := restated_modify fun _ => ⟨_, _, _, _, rfl⟩
    have hexit := hcode.trans (hdead _ s.currentProcess)
    rw [← Except.ok.inj h]
    split
    · exact hexit.trans (restated_wakeParent _ _)
    · exact hexit

theorem sysExit_currentProcess {rdi : BitVec 64} (h : sysExit s rdi = .ok t) :
    t.currentProcess = s.currentProcess := by
  unfold sysExit processExit wakeParent processWake at h
  split at h
  · cases h
  · rw [← Except.ok.inj h]
    repeat' split
    all_goals rfl

theorem processBlock_currentProcess (s : Kernel) (p : Nat) :
    (processBlock s p).currentProcess = s.currentProcess := by
  unfold processBlock
  split <;> rfl

theorem processWake_currentProcess (s : Kernel) (p : Nat) :
    (processWake s p).currentProcess = s.currentProcess := by
  unfold processWake
  split
  · rfl
  · split <;> rfl

theorem sysSleep_currentProcess (s : Kernel) (now : BitVec 32) (rdi : BitVec 64) :
    (sysSleep s now rdi).currentProcess = s.currentProcess := by
  unfold sysSleep
  split <;> rfl

/-- What waking a process may do to the state and the exit code of a process. -/
def WokenOrSame (x y : Process) : Prop :=
  y.exitCode = x.exitCode ∧ (y.state = x.state ∨ (x.state = .blocked ∧ y.state = .ready))

theorem processWake_state (s : Kernel) (p q : Nat) :
    WokenOrSame (s.pcb q) ((processWake s p).pcb q) := by
  unfold processWake
  split
  · exact ⟨rfl, Or.inl rfl⟩
  split
  · exact ⟨rfl, Or.inl rfl⟩
  · rename_i hblocked
    by_cases hq : q = p
    · subst hq
      rw [Kernel.modify_self]
      exact ⟨rfl, Or.inr ⟨not_not.mp hblocked, rfl⟩⟩
    · rw [Kernel.modify_of_ne _ _ _ hq]
      exact ⟨rfl, Or.inl rfl⟩

theorem wakeParent_state (s : Kernel) (pid q : Nat) :
    WokenOrSame (s.pcb q) ((wakeParent s pid).pcb q) := by
  unfold wakeParent
  split
  · exact ⟨rfl, Or.inl rfl⟩
  · exact processWake_state s _ q

/-- A parent that is BLOCKED is woken, if no other process has its PID. -/
theorem wakeParent_wakes {pid : Nat} (hinj : Set.InjOn (fun p => (s.pcb p).pid) s.processes)
    (hp : p ∈ s.processes) (hpid : (s.pcb p).pid = pid) :
    ((wakeParent s pid).pcb p).state ≠ .blocked := by
  intro hblocked
  have hwas : (s.pcb p).state = .blocked := by
    rcases (wakeParent_state s pid p).2 with hs | ⟨hs, -⟩
    · exact hs.symm.trans hblocked
    · exact hs
  obtain ⟨hp0, i, hi, rfl⟩ := id hp
  unfold wakeParent at hblocked
  split at hblocked
  · rename_i hnone
    have := findSlot_eq_none hnone hi
    simp [hp0, hpid, hwas] at this
  · rename_i j hj
    obtain ⟨hj, htest⟩ := findSlot_eq_some hj
    simp only [Bool.and_eq_true, bne_iff_ne, beq_iff_eq] at htest
    obtain ⟨⟨hj0, hjpid⟩, hjstate⟩ := htest
    have hsame : s.processTable j = s.processTable i :=
      hinj ⟨hj0, j, hj, rfl⟩ hp (hjpid.trans hpid.symm)
    rw [hsame, processWake, if_neg hp0, if_neg (not_not.mpr hwas), Kernel.modify_self] at hblocked
    cases hblocked

/-- **`sys_exit`**, up to its call of `scheduler_yield`. -/
theorem sysExit_spec {rdi : BitVec 64} (h : sysExit s rdi = .ok t) :
    (t.pcb s.currentProcess).state = .dead ∧ (t.pcb s.currentProcess).exitCode = rdi.setWidth 32 ∧
      (∀ q, q ≠ s.currentProcess → WokenOrSame (s.pcb q) (t.pcb q)) ∧
      (Set.InjOn (fun p => (s.pcb p).pid) s.processes → 0 < s.current.parentPid → ∀ q ∈ s.processes,
        (s.pcb q).pid = s.current.parentPid → (t.pcb q).state ≠ .blocked) := by
  unfold sysExit at h
  split at h
  · cases h
  rename_i hcur0
  have hexit : ∀ u : Kernel, processExit u s.currentProcess =
      u.modify s.currentProcess fun p => { p with state := .dead } := fun u => if_neg hcur0
  simp only [Kernel.modify_currentProcess, hexit] at h
  generalize hu : (s.modify s.currentProcess fun p => { p with exitCode := rdi.setWidth 32 }).modify
    s.currentProcess (fun p => { p with state := .dead }) = u at h
  have hcur : u.pcb s.currentProcess =
      { s.current with exitCode := rdi.setWidth 32, state := .dead } := by
    rw [← hu, Kernel.modify_self, Kernel.modify_self]
    rfl
  have hother : ∀ q, q ≠ s.currentProcess → u.pcb q = s.pcb q := by
    intro q hq
    rw [← hu, Kernel.modify_of_ne _ _ _ hq, Kernel.modify_of_ne _ _ _ hq]
  have hpids : ∀ q, (u.pcb q).pid = (s.pcb q).pid := by
    intro q
    by_cases hq : q = s.currentProcess
    · rw [hq, hcur]
      rfl
    · rw [hother q hq]
  have hprocs : u.processes = s.processes := by rw [← hu]; rfl
  have hparent : u.current.parentPid = s.current.parentPid := by
    have : u.current = u.pcb s.currentProcess := by rw [← hu]; rfl
    rw [this, hcur]
  have hstate : ∀ q, WokenOrSame (u.pcb q) (t.pcb q) := by
    intro q
    rw [← Except.ok.inj h]
    split
    · exact wakeParent_state u _ q
    · exact ⟨rfl, Or.inl rfl⟩
  refine ⟨?_, ?_, fun q hq => hother q hq ▸ hstate q, fun hinj hpos q hq hpid => ?_⟩
  · have hdead : (u.pcb s.currentProcess).state = .dead := by rw [hcur]
    rcases (hstate s.currentProcess).2 with hs | ⟨hs, -⟩
    · exact hs.trans hdead
    · rw [hdead] at hs
      cases hs
  · rw [(hstate s.currentProcess).1, hcur]
  · rw [← Except.ok.inj h, if_pos (hparent ▸ hpos), hparent]
    refine wakeParent_wakes ?_ (hprocs ▸ hq) ((hpids q).trans hpid)
    rw [hprocs]
    intro a ha b hb hab
    exact hinj ha hb ((hpids a).symm.trans (hab.trans (hpids b)))

end Restated

/-! ## 3. The run queue -/

/-- The link to the process behind. -/
def Kernel.link (s : Kernel) (p : Nat) : Nat := (s.pcb p).next

/-- The run queue is `q`. -/
structure Kernel.Queue (s : Kernel) (q : List Nat) : Prop where
  ring : Ring s.link q
  head : s.runQueueHead = q.headD 0
  tail : s.runQueueTail = q.getLastD 0
  nodup : q.Nodup
  ne_zero : 0 ∉ q

section Queue

variable {s t : Kernel} {p prev : Nat} {q q' xs ys : List Nat}

theorem Restated.queue (h : Restated s t) (hq : s.Queue q) : t.Queue q :=
  ⟨hq.ring.congr fun p _ => (h.pcb p).next_eq, h.head.trans hq.head, h.tail.trans hq.tail, hq.nodup,
    hq.ne_zero⟩

/-- What happens to PCBs outside the queue does not matter. -/
theorem Kernel.Queue.congr (hq : s.Queue q) (hnext : ∀ p ∈ q, (t.pcb p).next = (s.pcb p).next)
    (hhead : t.runQueueHead = s.runQueueHead) (htail : t.runQueueTail = s.runQueueTail) :
    t.Queue q :=
  ⟨hq.ring.congr hnext, hhead.trans hq.head, htail.trans hq.tail, hq.nodup, hq.ne_zero⟩

/-- The queue is determined by the tail and the links. -/
theorem Kernel.Queue.unique (hq : s.Queue q) (hq' : s.Queue q') : q = q' := by
  refine hq.ring.unique hq'.ring hq.nodup hq'.nodup ?_
  have htail := hq.tail.symm.trans hq'.tail
  have hlast : ∀ {l : List Nat}, 0 ∉ l → l.getLast? =
      if l.getLastD 0 = 0 then none else some (l.getLastD 0) := by
    intro l hl
    induction l using List.reverseRecOn with
    | nil => rfl
    | append_singleton l a _ =>
      have ha : a ≠ 0 := by
        rintro rfl
        exact hl (by simp)
      simp [ha]
  rw [hlast hq.ne_zero, hlast hq'.ne_zero, htail]

theorem Kernel.Queue.head_eq_zero (hq : s.Queue q) : s.runQueueHead = 0 ↔ q = [] := by
  rw [hq.head]
  cases q with
  | nil => exact iff_of_true rfl rfl
  | cons a l =>
    refine iff_of_false ?_ (by simp)
    rintro h0
    exact hq.ne_zero (h0 ▸ List.mem_cons_self)

/-- The process behind the last one is the first. -/
theorem Kernel.Queue.tail_next (hq : s.Queue q) (hp : p ∈ q) :
    (s.pcb s.runQueueTail).next = s.runQueueHead := by
  induction q using List.reverseRecOn with
  | nil => exact absurd hp List.not_mem_nil
  | append_singleton ys c _ =>
    have htail : s.runQueueTail = c := by simpa using hq.tail
    rw [htail, hq.head, List.headD_eq_head?_getD, hq.ring.leads_first, Option.getD_some]
    rfl

/-- **`scheduler_add`** puts the process at the end of the queue. -/
theorem schedulerAdd_queue (hq : s.Queue q) (hp : p ≠ 0) (hpq : p ∉ q)
    (h : schedulerAdd s p = .ok t) : t.Queue (q ++ [p]) := by
  have hnodup : (q ++ [p]).Nodup := by
    rw [List.nodup_append]
    refine ⟨hq.nodup, List.nodup_singleton p, ?_⟩
    rintro a ha b hb rfl
    rw [List.mem_singleton] at hb
    exact hpq (hb ▸ ha)
  have hzero : 0 ∉ q ++ [p] := by
    rw [List.mem_append, List.mem_singleton]
    rintro (h0 | h0)
    · exact hq.ne_zero h0
    · exact hp h0.symm
  unfold schedulerAdd at h
  rw [if_neg hp] at h
  have hheadEq : (s.modify p fun x => { x with state := .ready, next := 0 }).runQueueHead =
    s.runQueueHead := rfl
  have htailEq : (s.modify p fun x => { x with state := .ready, next := 0 }).runQueueTail =
    s.runQueueTail := rfl
  induction q using List.reverseRecOn with
  | nil =>
    simp only [hheadEq, if_pos (hq.head_eq_zero.mpr rfl)] at h
    cases h
    refine ⟨?_, rfl, rfl, hnodup, hzero⟩
    rw [ring_iff_isChain]
    simp [Leads, Kernel.link]
  | append_singleton ys c _ =>
    have hhead : s.runQueueHead ≠ 0 := fun h0 => by simpa using hq.head_eq_zero.mp h0
    have htail : s.runQueueTail = c := by simpa using hq.tail
    simp only [hheadEq, htailEq, if_neg hhead, htail] at h
    cases h
    have hcp : c ≠ p := by
      rintro rfl
      exact hpq (by simp)
    have hlink : s.link c = s.runQueueHead := by
      rw [← htail]
      exact hq.tail_next (p := c) (by simp)
    refine ⟨(@ring_link _ s.link _ _ _ _ ?_ ?_ ?_).mpr hq.ring, ?_, ?_, hnodup, hzero⟩
    · intro a ha
      have hac : a ≠ c := by
        rintro rfl
        exact (List.nodup_append.mp hq.nodup).2.2 a ha a (by simp) rfl
      have hap : a ≠ p := by
        rintro rfl
        exact hpq (by simp [ha])
      simp [Kernel.link, Kernel.modify, hac, hap]
    · simp [Kernel.link, Kernel.modify, hcp]
    · rw [hlink]
      simp [Kernel.link, Kernel.modify]
    · refine hq.head.trans ?_
      cases ys with
      | nil => rfl
      | cons y ys => rfl
    · simp

/-- What `scheduler_remove` does when it has found the process and the one before it. -/
def Kernel.unlink (s : Kernel) (prev proc : Nat) : Kernel :=
  let s := s.modify prev fun p => { p with next := (s.pcb proc).next }
  let s := if s.runQueueHead = proc then { s with runQueueHead := (s.pcb proc).next } else s
  if s.runQueueTail = proc then { s with runQueueTail := prev } else s

/-- The walk finds the process behind `xs`. -/
theorem removeFrom_eq : ∀ {xs : List Nat} {n prev : Nat}, (xs ++ [p]).IsChain (Leads s.link) → p ∉ xs →
    xs.length < n → removeFrom s p n prev ((xs ++ [p]).headD 0) = s.unlink (xs.getLastD prev) p
  | [], n + 1, prev, _, _, _ => by
    rw [List.nil_append, List.headD_cons, removeFrom, if_pos rfl]
    rfl
  | x :: xs, n + 1, prev, hchain, hp, hn => by
    have hxp : x ≠ p := fun h => hp (h ▸ List.mem_cons_self)
    rw [List.cons_append, List.isChain_cons] at hchain
    have hnext : (s.pcb x).next = (xs ++ [p]).headD 0 := by
      cases xs with
      | nil => exact hchain.1 _ rfl
      | cons y xs => exact hchain.1 _ rfl
    rw [List.cons_append, List.headD_cons, removeFrom, if_neg hxp, hnext, List.getLastD_cons]
    exact removeFrom_eq hchain.2 (fun h => hp (List.mem_cons_of_mem x h)) (by simpa using hn)

theorem unlink_ends (hprev : prev ≠ p) :
    (s.unlink prev p).runQueueHead =
      (if s.runQueueHead = p then s.link p else s.runQueueHead) ∧
    (s.unlink prev p).runQueueTail = (if s.runQueueTail = p then prev else s.runQueueTail) ∧
    (s.unlink prev p).link = Function.update s.link prev (s.link p) := by
  have hp : (s.modify prev fun x => { x with next := (s.pcb p).next }).pcb p = s.pcb p :=
    Kernel.modify_of_ne _ _ _ hprev.symm
  have hlink : (s.modify prev fun x => { x with next := (s.pcb p).next }).link =
      Function.update s.link prev (s.link p) := by
    funext a
    by_cases ha : a = prev
    · subst ha
      simp [Kernel.link]
    · rw [Function.update_of_ne ha]
      unfold Kernel.link
      rw [Kernel.modify_of_ne _ _ _ ha]
  unfold Kernel.unlink
  simp only [hp]
  generalize hu : s.modify prev (fun x => { x with next := (s.pcb p).next }) = u at *
  have hhead : u.runQueueHead = s.runQueueHead := by rw [← hu]; rfl
  have htail : u.runQueueTail = s.runQueueTail := by rw [← hu]; rfl
  rw [hhead, ← hlink]
  by_cases h : s.runQueueHead = p
  · simp only [if_pos h, htail]
    split
    · exact ⟨rfl, rfl, rfl⟩
    · exact ⟨rfl, rfl, rfl⟩
  · simp only [if_neg h, htail]
    split
    · exact ⟨hhead, rfl, rfl⟩
    · exact ⟨hhead, htail, rfl⟩

/-- Unlinking a process that is not alone in the queue. -/
theorem unlink_queue (hq : s.Queue (xs ++ p :: ys)) (hne : xs ++ ys ≠ []) :
    (s.unlink (xs.getLastD s.runQueueTail) p).Queue (xs ++ ys) := by
  have hperm : xs ++ p :: ys ~ p :: (xs ++ ys) := List.perm_middle
  obtain ⟨hp, hnodup⟩ := List.nodup_cons.mp (hperm.nodup_iff.mp hq.nodup)
  have hrot : xs ++ p :: ys ~r ys ++ xs ++ [p] := by
    have hsplit : xs ++ p :: ys = (xs ++ [p]) ++ ys := by simp
    rw [hsplit, List.append_assoc ys]
    exact List.isRotated_append
  -- the one before the process is the last of the others
  obtain ⟨zs, prev, hzs⟩ : ∃ zs prev, ys ++ xs = zs ++ [prev] := by
    refine (List.eq_nil_or_concat' (ys ++ xs)).resolve_left ?_
    simpa [and_comm] using hne
  have hprev : xs.getLastD s.runQueueTail = prev := by
    have hlast : (ys ++ xs).getLastD 0 = prev := by rw [hzs]; simp
    rw [hq.tail, ← hlast]
    induction xs using List.reverseRecOn with
    | nil => 
      cases ys with
      | nil => exact absurd rfl hne
      | cons y ys => simp
    | append_singleton xs x _ => simp [← List.append_assoc]
  have hmem : ∀ a, a ∈ xs ++ ys ↔ a ∈ zs ++ [prev] := fun a => by
    rw [← hzs, List.mem_append, List.mem_append, or_comm]
  have hpp : prev ≠ p := fun h => hp ((hmem p).mpr (by simp [h]))
  rw [hprev]
  obtain ⟨hhead, htail, hlink⟩ := unlink_ends (s := s) hpp
  have hring : Ring s.link (zs ++ [prev] ++ [p]) := hzs ▸ hq.ring.rotated hrot
  refine ⟨?_, ?_, ?_, hnodup, fun h0 => hq.ne_zero (hperm.mem_iff.mpr (List.mem_cons_of_mem _ h0))⟩
  · rw [hlink]
    refine ((ring_link ?_ hring.leads_last ?_).mp hring).rotated ?_
    · intro a ha
      rw [Function.update_of_ne]
      rintro rfl
      have : (zs ++ [a]).Nodup := by
        rw [← hzs]
        exact (List.perm_append_comm.nodup_iff).mp hnodup
      exact (List.nodup_append.mp this).2.2 a ha a (by simp) rfl
    · rw [Function.update_self]
    · rw [← hzs]
      exact List.isRotated_append
  · rw [hhead, hq.head]
    cases xs with
    | nil =>
      have hfirst := (hq.ring.rotated hrot).leads_first
      rw [List.append_nil] at hfirst
      cases ys with
      | nil => exact absurd rfl hne
      | cons y ys =>
        rw [List.nil_append, List.headD_cons, if_pos rfl]
        exact (Option.some.inj hfirst).symm
    | cons x xs =>
      have hx : x ≠ p := fun h => hp (by simp [h])
      exact if_neg hx
  · rw [htail, hq.tail]
    induction ys using List.reverseRecOn with
    | nil =>
      have hxs : xs = zs ++ [prev] := by simpa using hzs
      rw [hxs]
      simp
    | append_singleton ys y _ =>
      have hy : y ≠ p := fun h => hp (by simp [h])
      have hlast : (xs ++ p :: (ys ++ [y])).getLastD 0 = y := by
        rw [← List.cons_append, ← List.append_assoc, List.getLastD_concat]
      have hlast' : (xs ++ (ys ++ [y])).getLastD 0 = y := by
        rw [← List.append_assoc, List.getLastD_concat]
      rw [hlast, hlast', if_neg hy]

/-- **`scheduler_remove`** takes the process out of the queue, wherever it is. -/
theorem schedulerRemove_queue (hq : s.Queue q) (hp : p ∈ q) (hlen : q.length ≤ maxProcesses) :
    (schedulerRemove s p).Queue (q.filter (· ≠ p)) := by
  obtain ⟨xs, ys, rfl⟩ := List.append_of_mem hp
  have hperm : xs ++ p :: ys ~ p :: (xs ++ ys) := List.perm_middle
  obtain ⟨hnot, hnodup⟩ := List.nodup_cons.mp (hperm.nodup_iff.mp hq.nodup)
  rw [List.mem_append, not_or] at hnot
  have hfilter : (xs ++ p :: ys).filter (· ≠ p) = xs ++ ys := by
    have hall : ∀ l : List Nat, p ∉ l → l.filter (· ≠ p) = l := fun l hl =>
      List.filter_eq_self.mpr fun a ha => decide_eq_true fun h => hl (h ▸ ha)
    rw [List.filter_append, List.filter_cons_of_neg (by simp), hall xs hnot.1, hall ys hnot.2]
  rw [hfilter]
  have hp0 : p ≠ 0 := fun h => hq.ne_zero (h ▸ hp)
  have hhead0 : s.runQueueHead ≠ 0 := fun h => by simpa using hq.head_eq_zero.mp h
  unfold schedulerRemove
  rw [if_neg (not_or.mpr ⟨hp0, hhead0⟩)]
  by_cases hne : xs ++ ys = []
  · obtain ⟨rfl, rfl⟩ := List.append_eq_nil_iff.mp hne
    have hhead : s.runQueueHead = p := hq.head
    have htail : s.runQueueTail = p := hq.tail
    rw [if_pos ⟨hhead, hhead.trans htail.symm⟩]
    exact ⟨Cycle.Chain.nil _, rfl, rfl, List.nodup_nil, List.not_mem_nil⟩
  · have hsole : ¬ (s.runQueueHead = p ∧ s.runQueueHead = s.runQueueTail) := by
      rintro ⟨hhead, htail⟩
      rw [hq.head] at hhead
      rw [hq.head, hq.tail, hhead] at htail
      cases xs with
      | cons x xs =>
        have hx : x = p := hhead
        exact hnot.1 (by simp [hx])
      | nil =>
        obtain ⟨zs, z, rfl⟩ := (List.eq_nil_or_concat' ys).resolve_left hne
        rw [List.nil_append, ← List.cons_append, List.getLastD_concat] at htail
        exact hnot.2 (by simp [htail])
    rw [if_neg hsole]
    have hchain : (xs ++ [p]).IsChain (Leads s.link) := by
      have hsplit : xs ++ p :: ys = (xs ++ [p]) ++ ys := by simp
      exact (hsplit ▸ hq.ring.isChain).left_of_append
    have hstart : s.runQueueHead = (xs ++ [p]).headD 0 := by
      rw [hq.head]
      cases xs with
      | nil => rfl
      | cons x xs => rfl
    rw [hstart, removeFrom_eq hchain hnot.1]
    · exact unlink_queue hq hne
    · simp at hlen
      omega

end Queue

/-! ## 4. The timer tick -/

/-- The process can run. -/
def Kernel.Runnable (s : Kernel) (p : Nat) : Prop :=
  (s.pcb p).state = .ready ∨ (s.pcb p).state = .running

/-- What waking sleepers may do to a process's state. -/
def Awakes (before after : ProcessState) : Prop :=
  after = before ∨ (before = .sleeping ∧ after = .ready)

/-- A tick that lets the current process go on.  `rest` are the processes behind it. -/
structure Stays (s t : Kernel) (rest : List Nat) : Prop where
  restated : Restated s t
  current : t.currentProcess = s.currentProcess
  exitCode : ∀ p, (t.pcb p).exitCode = (s.pcb p).exitCode
  state : ∀ p, Awakes (s.pcb p).state (t.pcb p).state
  why : (t.pcb s.currentProcess).state = .running ∨ ∀ p ∈ rest, ¬ t.Runnable p

/-- A tick that passes over `skipped` and switches to the process behind them. -/
structure Switches (s t : Kernel) (skipped : List Nat) : Prop where
  restated : Restated s t
  exitCode : ∀ p, (t.pcb p).exitCode = (s.pcb p).exitCode
  changed : t.currentProcess ≠ s.currentProcess
  skipped : ∀ p ∈ skipped, ¬ t.Runnable p
  picked : (s.pcb t.currentProcess).state = .ready ∨ (s.pcb t.currentProcess).state = .running ∨
    (s.pcb t.currentProcess).state = .sleeping
  runs : (t.pcb t.currentProcess).state = .running
  old : if (s.pcb s.currentProcess).state = .running then (t.pcb s.currentProcess).state = .ready
    else Awakes (s.pcb s.currentProcess).state (t.pcb s.currentProcess).state
  others : ∀ p, p ≠ s.currentProcess → p ≠ t.currentProcess →
    Awakes (s.pcb p).state (t.pcb p).state

section Tick

variable {s t : Kernel} {q rest : List Nat} {now : BitVec 32}

theorem schedulerWakeSleepers_spec (s : Kernel) (now : BitVec 32) :
    Restated s (schedulerWakeSleepers s now) ∧
      (schedulerWakeSleepers s now).currentProcess = s.currentProcess ∧
      ∀ p, ((schedulerWakeSleepers s now).pcb p).exitCode = (s.pcb p).exitCode ∧
        Awakes (s.pcb p).state ((schedulerWakeSleepers s now).pcb p).state := by
  have hstart : Restated s s ∧ s.currentProcess = s.currentProcess ∧
      ∀ p, (s.pcb p).exitCode = (s.pcb p).exitCode ∧ Awakes (s.pcb p).state (s.pcb p).state :=
    ⟨Restated.refl s, rfl, fun _ => ⟨rfl, Or.inl rfl⟩⟩
  unfold schedulerWakeSleepers
  generalize maxProcesses = n
  refine loop_invariant (I := fun _ t => Restated s t ∧ t.currentProcess = s.currentProcess ∧
    ∀ p, (t.pcb p).exitCode = (s.pcb p).exitCode ∧ Awakes (s.pcb p).state (t.pcb p).state) hstart ?_
  rintro i t - ⟨hr, hcur, hstate⟩
  simp only [wakeSleeper]
  split
  · rename_i hsleep
    refine ⟨hr.trans (restated_modify fun _ => ⟨_, _, _, _, rfl⟩), hcur, fun p => ?_⟩
    by_cases hp : p = t.processTable i
    · subst hp
      rw [Kernel.modify_self]
      obtain ⟨hcode, hs | ⟨hs, -⟩⟩ := hstate (t.processTable i)
      · exact ⟨hcode, Or.inr ⟨hs ▸ hsleep.2.1, rfl⟩⟩
      · exact ⟨hcode, Or.inr ⟨hs, rfl⟩⟩
    · rw [Kernel.modify_of_ne _ _ _ hp]
      exact hstate p
  · exact ⟨hr, hcur, hstate⟩

/-- The walk stops at the first process that can run, or comes back to where it started. -/
theorem pickFrom_cases {old : Nat} : ∀ {rest : List Nat} {n : Nat},
    (rest ++ [old]).IsChain (Leads s.link) → old ∉ rest → rest.length < n →
    (∃ xs new ys, rest = xs ++ new :: ys ∧ (∀ p ∈ xs, ¬ s.Runnable p) ∧ s.Runnable new ∧
      pickFrom s old n ((rest ++ [old]).headD 0) = new) ∨
    ((∀ p ∈ rest, ¬ s.Runnable p) ∧ pickFrom s old n ((rest ++ [old]).headD 0) = old)
  | [], n + 1, _, _, _ => by
    refine Or.inr ⟨fun p hp => absurd hp List.not_mem_nil, ?_⟩
    rw [List.nil_append, List.headD_cons, pickFrom, if_pos rfl]
    split <;> rfl
  | x :: rest, n + 1, hchain, hold, hn => by
    have hx : x ≠ old := fun h => hold (h ▸ List.mem_cons_self)
    rw [List.cons_append, List.isChain_cons] at hchain
    rw [List.cons_append, List.headD_cons, pickFrom]
    by_cases hrun : s.Runnable x
    · rw [if_pos (hrun.imp_right fun h => ⟨h, hx⟩)]
      exact Or.inl ⟨[], x, rest, rfl, fun p hp => absurd hp List.not_mem_nil, hrun, rfl⟩
    have hskip : ¬ ((s.pcb x).state = .ready ∨ ((s.pcb x).state = .running ∧ x ≠ old)) :=
      fun h => hrun (h.imp_right And.left)
    have hnext : (s.pcb x).next = (rest ++ [old]).headD 0 := by
      cases rest with
      | nil => exact hchain.1 _ rfl
      | cons y rest => exact hchain.1 _ rfl
    rw [if_neg hskip, if_neg hx, hnext]
    have hskipped : ∀ {l : List Nat}, (∀ p ∈ l, ¬ s.Runnable p) → ∀ p ∈ x :: l, ¬ s.Runnable p :=
      fun hl => List.forall_mem_cons.mpr ⟨hrun, hl⟩
    rcases pickFrom_cases (n := n) hchain.2 (fun h => hold (List.mem_cons_of_mem x h))
      (by simpa using hn) with ⟨xs, new, ys, rfl, hxs, hnew, hpick⟩ | ⟨hnone, hpick⟩
    · exact Or.inl ⟨x :: xs, new, ys, rfl, hskipped hxs, hnew, hpick⟩
    · exact Or.inr ⟨hskipped hnone, hpick⟩

/-- Giving a process another time slice changes neither its state nor its exit code. -/
theorem modify_ticks {p : Nat} {f : Process → Process}
    (hf : ∀ x, ∃ ticks, f x = { x with ticksRemaining := ticks }) (q : Nat) :
    ((s.modify p f).pcb q).state = (s.pcb q).state ∧
      ((s.modify p f).pcb q).exitCode = (s.pcb q).exitCode := by
  by_cases hq : q = p
  · obtain ⟨ticks, hx⟩ := hf (s.pcb p)
    rw [hq, Kernel.modify_self, hx]
    exact ⟨rfl, rfl⟩
  · rw [Kernel.modify_of_ne _ _ _ hq]
    exact ⟨rfl, rfl⟩

theorem switchTo_spec (s : Kernel) {old new : Nat} (hne : new ≠ old) :
    Restated s (switchTo s old new) ∧ ((switchTo s old new).pcb new).state = .running ∧
      ((switchTo s old new).pcb old).state =
        (if (s.pcb old).state = .running then .ready else (s.pcb old).state) ∧
      (∀ p, p ≠ old → p ≠ new → ((switchTo s old new).pcb p).state = (s.pcb p).state) ∧
      ∀ p, ((switchTo s old new).pcb p).exitCode = (s.pcb p).exitCode := by
  unfold switchTo
  refine ⟨?_, ?_, ?_, fun p hold hnew => ?_, fun p => ?_⟩
  · have hmodify : ∀ {u : Kernel} {p : Nat} {f : Process → Process}, Restated s u →
        (∀ x, SameProcess (f x) x) → Restated s (u.modify p f) :=
      fun hu hf => hu.trans (restated_modify hf)
    refine Restated.trans (hmodify (hmodify (hmodify (Restated.refl s) ?_) ?_) ?_)
      (restated_setCurrent _ new)
    · exact fun _ => ⟨_, _, _, _, rfl⟩
    · exact fun _ => ⟨_, _, _, _, rfl⟩
    · exact fun _ => ⟨_, _, _, _, rfl⟩
  · simp [Kernel.modify]
  · simp [Kernel.modify, hne.symm]
  · simp [Kernel.modify, hold, hnew]
  · by_cases hpn : p = new
    · simp [Kernel.modify, hpn, hne]
    · by_cases hpo : p = old
      · simp [Kernel.modify, hpo, hne.symm]
      · simp [Kernel.modify, hpo, hpn]

/-- The kernel after the part of `scheduler_tick` that comes before the choice of a process: sleepers have
been woken, and a tick of the current process has been counted. -/
def Kernel.counted (s : Kernel) (now : BitVec 32) : Kernel :=
  (schedulerWakeSleepers s now).modify s.currentProcess fun p =>
    { p with ticksRemaining := p.ticksRemaining - 1 }

/-- The current process has a part of its time slice left, and goes on. -/
def Kernel.GoesOn (s : Kernel) : Prop :=
  0 < s.current.ticksRemaining ∧ s.current.pid ≠ 0 ∧ s.current.state = .running

theorem counted_spec (s : Kernel) (now : BitVec 32) :
    Restated s (s.counted now) ∧ (s.counted now).currentProcess = s.currentProcess ∧
      ∀ p, ((s.counted now).pcb p).exitCode = (s.pcb p).exitCode ∧
        ((s.counted now).pcb p).state = ((schedulerWakeSleepers s now).pcb p).state ∧
        Awakes (s.pcb p).state ((s.counted now).pcb p).state := by
  obtain ⟨hr, hcur, hstate⟩ := schedulerWakeSleepers_spec s now
  unfold Kernel.counted
  generalize schedulerWakeSleepers s now = w at *
  refine ⟨hr.trans (restated_modify fun _ => ⟨_, _, _, _, rfl⟩), hcur, fun p => ?_⟩
  obtain ⟨hsame, hcode⟩ := @modify_ticks w s.currentProcess
    (fun p => { p with ticksRemaining := p.ticksRemaining - 1 }) (fun x => ⟨_, rfl⟩) p
  refine ⟨hcode.trans (hstate p).1, hsame, ?_⟩
  rw [hsame]
  exact (hstate p).2

/-- **The three ways through `scheduler_tick`**, with a queue that is a ring and the current process in it:
the current process goes on, the first process behind it that can run is switched to, or there is none. -/
theorem schedulerTick_cases (now : BitVec 32) (hq : s.Queue q) (hrest : q ~r rest ++ [s.currentProcess])
    (hlen : q.length ≤ maxProcesses) :
    ((s.counted now).GoesOn ∧ schedulerTick s now = .ok (s.counted now)) ∨
    (¬ (s.counted now).GoesOn ∧ ∃ xs new ys, rest = xs ++ new :: ys ∧
      (∀ p ∈ xs, ¬ (s.counted now).Runnable p) ∧ (s.counted now).Runnable new ∧
      schedulerTick s now = .ok (switchTo (s.counted now) s.currentProcess new)) ∨
    (¬ (s.counted now).GoesOn ∧ (∀ p ∈ rest, ¬ (s.counted now).Runnable p) ∧
      schedulerTick s now = .ok ((s.counted now).modify s.currentProcess fun p =>
        { p with ticksRemaining := p.timeSlice })) := by
  have hnodup : (rest ++ [s.currentProcess]).Nodup := hrest.nodup_iff.mp hq.nodup
  have hmem : ∀ p, p ∈ rest ++ [s.currentProcess] → p ≠ 0 := by
    rintro p hp rfl
    exact hq.ne_zero (hrest.mem_iff.mpr hp)
  have hcur0 : s.currentProcess ≠ 0 := hmem _ (by simp)
  have hold : s.currentProcess ∉ rest := fun h =>
    (List.nodup_append.mp hnodup).2.2 _ h _ (by simp) rfl
  have hqne : s.runQueueHead ≠ 0 := by
    rw [Ne, hq.head_eq_zero]
    rintro rfl
    exact absurd (hrest.mem_iff.mpr (List.mem_append_right _ List.mem_cons_self)) List.not_mem_nil
  obtain ⟨hr, hcur, -⟩ := schedulerWakeSleepers_spec s now
  obtain ⟨hsv, hvcur, -⟩ := counted_spec s now
  generalize htick : schedulerTick s now = res
  unfold schedulerTick at htick
  simp only [hcur, hr.head, if_neg hcur0, if_neg hqne] at htick
  rw [show ((schedulerWakeSleepers s now).modify s.currentProcess fun p =>
    { p with ticksRemaining := p.ticksRemaining - 1 }) = s.counted now from rfl] at htick
  generalize s.counted now = v at *
  by_cases hgo : v.GoesOn
  · rw [if_pos (show 0 < v.current.ticksRemaining ∧ _ from hgo)] at htick
    exact Or.inl ⟨hgo, htick.symm⟩
  rw [if_neg (show ¬ (0 < v.current.ticksRemaining ∧ _) from hgo)] at htick
  refine Or.inr ?_
  have hvq := hsv.queue hq
  have hnext : v.current.next = (rest ++ [s.currentProcess]).headD 0 := by
    rw [List.headD_eq_head?_getD, (hvq.ring.rotated hrest).leads_first, ← hvcur]
    rfl
  have hnext0 : v.current.next ≠ 0 := by
    rw [hnext]
    cases rest with
    | nil => exact hcur0
    | cons x rest => exact hmem x (by simp)
  rw [if_neg hnext0, hnext, hvcur] at htick
  have hlen' : rest.length < maxProcesses := by
    rw [hrest.perm.length_eq] at hlen
    simpa using hlen
  rcases pickFrom_cases (s := v) (hvq.ring.rotated hrest).isChain hold hlen' with
    ⟨xs, new, ys, rfl, hxs, hnew, hpick⟩ | ⟨hnone, hpick⟩
  · have hne : new ≠ s.currentProcess := fun h =>
      hold (h ▸ List.mem_append_right _ List.mem_cons_self)
    rw [hpick, if_neg (fun h => hnew.elim h.1 h.2), if_neg hne] at htick
    exact Or.inl ⟨hgo, xs, new, ys, rfl, hxs, hnew, htick.symm⟩
  · refine Or.inr ⟨hgo, hnone, ?_⟩
    rw [hpick, if_pos rfl, ite_self] at htick
    exact htick.symm

/-- **`scheduler_tick`.**  With a queue that is a ring, and the current process in it, a tick never
panics; it goes on with the current process, or it switches to the first process behind it that can
run. -/
theorem schedulerTick_spec (now : BitVec 32) (hq : s.Queue q) (hrest : q ~r rest ++ [s.currentProcess])
    (hlen : q.length ≤ maxProcesses) : ∃ t, schedulerTick s now = .ok t ∧
      (Stays s t rest ∨
        ∃ xs ys, rest = xs ++ t.currentProcess :: ys ∧ Switches s t xs) := by
  have hnodup : (rest ++ [s.currentProcess]).Nodup := hrest.nodup_iff.mp hq.nodup
  have hold : s.currentProcess ∉ rest := fun h =>
    (List.nodup_append.mp hnodup).2.2 _ h _ (by simp) rfl
  have hcases := schedulerTick_cases now hq hrest hlen
  obtain ⟨hsv, hvcur, hspec⟩ := counted_spec s now
  generalize s.counted now = v at *
  have hcode : ∀ p, (v.pcb p).exitCode = (s.pcb p).exitCode := fun p => (hspec p).1
  have hstate : ∀ p, Awakes (s.pcb p).state (v.pcb p).state := fun p => (hspec p).2.2
  rcases hcases with ⟨hgo, hok⟩ | ⟨-, xs, new, ys, rfl, hxs, hnew, hok⟩ | ⟨-, hnone, hok⟩
  · refine ⟨v, hok, Or.inl ⟨hsv, hvcur, hcode, hstate, Or.inl ?_⟩⟩
    rw [← hvcur]
    exact hgo.2.2
  · have hne : new ≠ s.currentProcess := fun h =>
      hold (h ▸ List.mem_append_right _ List.mem_cons_self)
    obtain ⟨hr', hrun, hold', hothers, hcode'⟩ := switchTo_spec v hne
    refine ⟨_, hok, Or.inr ⟨xs, ys, rfl, hsv.trans hr', fun p => (hcode' p).trans (hcode p), hne,
      fun p hp hprun => hxs p hp ?_, ?_, hrun, ?_, fun p hp hp' => hothers p hp hp' ▸ hstate p⟩⟩
    · have hpold : p ≠ s.currentProcess := fun h => hold (h ▸ List.mem_append_left _ hp)
      have hpnew : p ≠ new := by
        rintro rfl
        have := (List.nodup_append.mp (List.nodup_append.mp hnodup).1).2.2
        exact this p hp p List.mem_cons_self rfl
      rwa [Kernel.Runnable, hothers p hpold hpnew] at hprun
    · have hwas : Awakes (s.pcb new).state (v.pcb new).state := hstate new
      rcases hwas with hwas | ⟨hwas, -⟩
      · rw [Kernel.Runnable, hwas] at hnew
        exact hnew.imp_right Or.inl
      · exact Or.inr (Or.inr hwas)
    · rcases hstate s.currentProcess with hs | ⟨hs, hready⟩
      · rw [hold', hs]
        split
        · rfl
        · exact Or.inl rfl
      · rw [hold', hs, hready, if_neg (by simp), if_neg (by simp)]
        exact Or.inr ⟨rfl, rfl⟩
  · have hreset := @modify_ticks v s.currentProcess (fun p => { p with ticksRemaining := p.timeSlice })
      fun x => ⟨_, rfl⟩
    refine ⟨_, hok, Or.inl ⟨hsv.trans (restated_modify fun _ => ⟨_, _, _, _, rfl⟩), hvcur,
      fun p => (hreset p).2.trans (hcode p), fun p => (hreset p).1 ▸ hstate p,
      Or.inr fun p hp hrun => hnone p hp ?_⟩⟩
    rwa [Kernel.Runnable, (hreset p).1] at hrun

/-- **`scheduler_yield`** is a tick with the time slice used up. -/
theorem schedulerYield_spec (now : BitVec 32) (hq : s.Queue q) (hrest : q ~r rest ++ [s.currentProcess])
    (hlen : q.length ≤ maxProcesses) : ∃ t, schedulerYield s now = .ok t ∧
      (Stays s t rest ∨
        ∃ xs ys, rest = xs ++ t.currentProcess :: ys ∧ Switches s t xs) := by
  have hcur0 : s.currentProcess ≠ 0 := fun h =>
    hq.ne_zero (hrest.mem_iff.mpr (List.mem_append_right _ (List.mem_singleton.mpr h.symm)))
  unfold schedulerYield
  rw [if_neg hcur0]
  generalize hu : (s.modify s.currentProcess fun p => { p with ticksRemaining := 0 }) = u
  have hr : Restated s u := hu ▸ restated_modify fun _ => ⟨_, _, _, _, rfl⟩
  have hcur : u.currentProcess = s.currentProcess := by rw [← hu]; rfl
  have hsame : ∀ p, (u.pcb p).state = (s.pcb p).state ∧ (u.pcb p).exitCode = (s.pcb p).exitCode := by
    intro p
    rw [← hu]
    exact modify_ticks (fun x => ⟨0, rfl⟩) p
  have hstate : ∀ p, (u.pcb p).state = (s.pcb p).state := fun p => (hsame p).1
  rw [← hcur] at hrest
  obtain ⟨t, ht, hstays | ⟨xs, ys, hsplit, hswitch⟩⟩ := schedulerTick_spec now
    (hr.queue hq) hrest hlen
  · refine ⟨t, ht, Or.inl ⟨hr.trans hstays.restated, hstays.current.trans hcur,
      fun p => (hstays.exitCode p).trans (hsame p).2, fun p => ?_, ?_⟩⟩
    · rw [← hstate]
      exact hstays.state p
    · rw [← hcur]
      exact hstays.why
  · refine ⟨t, ht, Or.inr ⟨xs, ys, hsplit, hr.trans hswitch.restated,
      fun p => (hswitch.exitCode p).trans (hsame p).2, ?_, hswitch.skipped, ?_, hswitch.runs, ?_,
      fun p hp hp' => ?_⟩⟩
    · rw [← hcur]
      exact hswitch.changed
    · rw [← hstate]
      exact hswitch.picked
    · rw [← hstate, ← hcur]
      exact hswitch.old
    · rw [← hstate]
      exact hswitch.others p (hcur ▸ hp) hp'

end Tick

end AcornOS
