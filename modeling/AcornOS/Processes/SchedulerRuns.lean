/-
# The run queue and the process table, in every run

Three structures have to agree: the process table, the ring of the run queue, and the pointer to the
current process.  `scheduler_state` says what holds of them in every state that the kernel reaches after
`scheduler_start`, whatever is created, spawned, forked, blocked, woken, put to sleep, killed, reaped
and scheduled on the way.

* `Entered` and `Refused` are what creating a process can come to: it is in the table (and not yet in
  the queue), or everything is as before except for the next PID.
* `Scheduling.Listed` (the queue and its history) and `Scheduling.Live` (the table and its PIDs) are
  kept by each routine; `Scheduling.Ok` puts them together.
* **A dead process executes nothing.**  `sys_exit` ends in `scheduler_yield`, which finds somebody else
  to run as long as idle is in the queue (`Scheduling.Ok.yield_switches`).  Steps that a process takes in
  its own name therefore ask for `Kernel.Executes`; ticks and wake-ups may come at any moment.
-/
import AcornOS.Processes.Exec
import AcornOS.Processes.Fairness

namespace AcornOS

open Lib Relation
open scoped List

/-! ## 1. `process_spawn` -/

/-- `process_spawn`: the PID of the new process, `none` for -1.  `file` is what reading `path` gives. -/
def processSpawn (s : Kernel) (path : Option (List (BitVec 8))) (file : Option FileRead)
    (argv : Option (List (List (BitVec 8)))) : Except Halt (Option Nat × Kernel) :=
  match path with
  | none => .ok (none, s)
  | some path => do
    let (proc, s) ← processCreate s (some path) 0x400000 0
    if proc = 0 then .ok (none, s)
    else
      let (entry, s) ← elfLoadFromPath s file proc argv
      if entry = 0 then
        let machine := pagingFreeDirectory s.machine (s.pcb proc).pageDir
        let pmm := pmmFree machine.pmm (virtualToPhysical (s.pcb proc).stack)
        let table := (s.findSlot fun p => p == proc).elim s.processTable fun i =>
          Function.update s.processTable i 0
        let heap ← kfree s.heap proc
        .ok (none, { s with
          machine := { machine with pmm := pmm }, processTable := table, heap := heap })
      else
        let s ← schedulerAdd s proc
        .ok (some (s.pcb proc).pid, s)

/-! ## 2. What creating a process can come to -/

/-- `Entered s t p parent`: a new process is in the table, and not in the queue; nothing is known of its
pages. -/
structure Entered (s t : Kernel) (p parent : Nat) : Prop where
  table : t.TableOk
  slots : ∀ i < maxProcesses, s.processTable i ≠ 0 → t.processTable i = s.processTable i
  mem : ∀ q, q ∈ t.processes ↔ q = p ∨ q ∈ s.processes
  fresh : p ∉ s.processes
  pid : (t.pcb p).pid = s.nextPid
  parentPid : (t.pcb p).parentPid = parent
  state : (t.pcb p).state = .ready
  others : ∀ q, q ≠ p → t.pcb q = s.pcb q
  nextPid : t.nextPid = s.nextPid + 1
  current : t.currentProcess = s.currentProcess
  head : t.runQueueHead = s.runQueueHead
  tail : t.runQueueTail = s.runQueueTail

/-- `Refused s t`: no process has been created, though a PID may have been used up. -/
structure Refused (s t : Kernel) : Prop where
  table : t.TableOk
  slots : ∀ i < maxProcesses, s.processTable i ≠ 0 → t.processTable i = s.processTable i
  processes : t.processes = s.processes
  pcb : ∀ q ∈ s.processes, t.pcb q = s.pcb q
  nextPid : s.nextPid ≤ t.nextPid
  current : t.currentProcess = s.currentProcess
  head : t.runQueueHead = s.runQueueHead
  tail : t.runQueueTail = s.runQueueTail

/-- The PID of the running process, which becomes the parent of those it creates. -/
def Kernel.callerPid (s : Kernel) : Nat := if s.currentProcess = 0 then 0 else s.current.pid

section Creating

variable {s t u : Kernel} {p parent entry flags : Nat}

/-- The PCB is in the table. -/
theorem entered_install {i : Nat} {heap : KHeap} {x : Process} {machine : Machine} (h : s.TableOk)
    (hok : kmalloc s.heap sizeofProcess = .ok (p, heap)) (hslot : s.freeSlot = some i)
    (hpid : x.pid = s.nextPid) (hstate : x.state = .ready) :
    Entered s (s.install i p x heap machine) p x.parentPid := by
  obtain ⟨htable, hmem, hfresh, hpid', hparent, hstate', -, hnext, hcur⟩ :=
    @Kernel.TableOk.install _ _ _ _ _ machine h hok hslot hpid hstate
  refine ⟨htable, fun j _ hj => Function.update_of_ne ?_ .., hmem, hfresh, hpid', hparent, hstate',
    fun q hq => Function.update_of_ne hq .., hnext, hcur, rfl, rfl⟩
  rintro rfl
  exact hj (freeSlot_eq_some hslot).2

/-- **`process_create`.** -/
theorem processCreate_entered {name : Option (List (BitVec 8))} (h : s.TableOk)
    (hok : processCreate s name entry flags = .ok (p, t)) : Entered s t p s.callerPid := by
  unfold processCreate at hok
  split at hok
  · cases hok
  split at hok
  · cases hok
  split at hok
  · cases hok
  rename_i slot hslot
  obtain ⟨⟨proc, heap⟩, hkmalloc, hok⟩ := bind_eq_ok.mp hok
  obtain ⟨⟨stack, pmm⟩, -, hok⟩ := bind_eq_ok.mp hok
  obtain ⟨⟨pageDir, machine⟩, -, hok⟩ := bind_eq_ok.mp hok
  simp only [Except.ok.injEq, Prod.mk.injEq] at hok
  obtain ⟨rfl, rfl⟩ := hok
  generalize hx : Process.mk _ _ _ _ _ _ _ _ _ _ _ _ _ _ _ _ _ _ = x
  have hparent : x.parentPid = s.callerPid := by rw [← hx]; rfl
  exact hparent ▸ entered_install h hkmalloc hslot (by rw [← hx]) (by rw [← hx])

/-- A block that is taken from the heap and given back. -/
theorem Kernel.TableOk.borrow {buffer n : Nat} {heap heap' : KHeap} (h : s.TableOk)
    (hmalloc : kmalloc s.heap n = .ok (buffer, heap)) (hfree : kfree heap buffer = .ok heap')
    (hheap : t.heap = heap') (htable : t.processTable = s.processTable) : t.TableOk := by
  obtain ⟨bs, hrep, hpcb⟩ := h.heap
  obtain ⟨bs', x, m, hrep', rfl, -, hperm⟩ := (kmalloc_spec hrep).of_ok hmalloc
  obtain ⟨heap'', bs'', hfree', hrep'', hperm'⟩ := kfree_spec hrep'
    (hperm.mem_iff.mpr List.mem_cons_self)
  obtain rfl := Except.ok.inj (hfree.symm.trans hfree')
  have hsame := (List.perm_cons _).mp (hperm.symm.trans hperm')
  have hprocs : t.processes = s.processes := by
    unfold Kernel.processes
    rw [htable]
  refine ⟨⟨bs'', hheap ▸ hrep'', fun p hp => ?_⟩, ?_⟩
  · rw [hprocs] at hp
    obtain ⟨k, hk, y, hy, hpy⟩ := hpcb p hp
    exact ⟨k, hk, y, hsame.mem_iff.mp hy, hpy⟩
  · rw [htable]
    exact h.slots

/-- `elf_load` does not touch what identifies a process. -/
theorem elfLoad_identity {m m' : Machine} {a : Nat} {x y : Process}
    {argv : Option (List (List (BitVec 8)))} (h : elfLoad m a x argv = .ok (entry, y, m')) :
    y.pid = x.pid ∧ y.parentPid = x.parentPid ∧ y.state = x.state := by
  by_cases hok : elfHeaderOk m.mem a = true
  · obtain ⟨heapStart, argc, addr, rfl⟩ := elfLoad_process h hok
    exact ⟨rfl, rfl, rfl⟩
  · unfold elfLoad elfLoadOr at h
    rw [if_neg hok] at h
    cases h
    exact ⟨rfl, rfl, rfl⟩

/-- Loading a file into a process that is in the table. -/
theorem Entered.load {file : Option FileRead} {argv : Option (List (List (BitVec 8)))}
    (h : Entered s t p parent) (hok : elfLoadFromPath t file p argv = .ok (entry, u)) :
    Entered s u p parent := by
  have hborrow : ∀ {buffer n : Nat} {heap heap' : KHeap} (machine : Machine),
      kmalloc t.heap n = .ok (buffer, heap) → kfree heap buffer = .ok heap' →
      Entered s { t with machine := machine, heap := heap' } p parent := by
    intro buffer n heap heap' machine hmalloc hfree
    exact ⟨h.table.borrow hmalloc hfree rfl rfl, h.slots, h.mem, h.fresh, h.pid, h.parentPid, h.state, h.others,
      h.nextPid, h.current, h.head, h.tail⟩
  unfold elfLoadFromPath at hok
  cases file with
  | none =>
    cases hok
    exact h
  | some f =>
    by_cases hsize : f.size = 0
    · simp only [if_pos hsize] at hok
      cases hok
      exact h
    simp only [if_neg hsize] at hok
    obtain ⟨⟨buffer, heap⟩, hmalloc, hok⟩ := bind_eq_ok.mp hok
    have hbuffer : buffer ≠ 0 := by
      obtain ⟨bs, hrep, -⟩ := h.table.heap
      obtain ⟨-, x, -, -, rfl, -⟩ := (kmalloc_spec hrep).of_ok hmalloc
      have := headerSize_pos
      omega
    simp only [if_neg hbuffer] at hok
    by_cases hlen : f.bytes.length ≠ f.size
    · simp only [if_pos hlen] at hok
      obtain ⟨heap', hfree, hok⟩ := bind_eq_ok.mp hok
      cases hok
      exact hborrow _ hmalloc hfree
    · simp only [if_neg hlen] at hok
      obtain ⟨⟨e, x, machine⟩, hload, hok⟩ := bind_eq_ok.mp hok
      obtain ⟨heap', hfree, hok⟩ := bind_eq_ok.mp hok
      cases hok
      obtain ⟨hpid, hparent, hstate⟩ := elfLoad_identity hload
      have hb := hborrow machine hmalloc hfree
      refine ⟨hb.table.congr rfl rfl, hb.slots, hb.mem, hb.fresh, ?_, ?_, ?_, fun q hq => ?_, hb.nextPid,
        hb.current, hb.head, hb.tail⟩
      · rw [Kernel.modify_self]
        exact hpid.trans h.pid
      · rw [Kernel.modify_self]
        exact hparent.trans h.parentPid
      · rw [Kernel.modify_self]
        exact hstate.trans h.state
      · rw [Kernel.modify_of_ne _ _ _ hq]
        exact h.others q hq

/-- **`process_spawn`.** -/
theorem processSpawn_cases {path : Option (List (BitVec 8))} {file : Option FileRead}
    {argv : Option (List (List (BitVec 8)))} {pid : Option Nat} (h : s.TableOk)
    (hok : processSpawn s path file argv = .ok (pid, t)) :
    (pid = none ∧ Refused s t) ∨
      ∃ u p, Entered s u p s.callerPid ∧ schedulerAdd u p = .ok t ∧ pid = some (t.pcb p).pid := by
  unfold processSpawn at hok
  cases path with
  | none =>
    cases hok
    exact Or.inl ⟨rfl, h, fun _ _ _ => rfl, rfl, fun _ _ => rfl, le_rfl, rfl, rfl, rfl⟩
  | some path =>
    obtain ⟨⟨proc, u⟩, hcreate, hok⟩ := bind_eq_ok.mp hok
    have hentered := processCreate_entered h hcreate
    have hproc : proc ≠ 0 := ((hentered.mem proc).mpr (Or.inl rfl)).1
    simp only [if_neg hproc] at hok
    obtain ⟨⟨e, w⟩, hload, hok⟩ := bind_eq_ok.mp hok
    have hloaded := hentered.load hload
    by_cases he : e = 0
    · simp only [if_pos he] at hok
      obtain ⟨heap, hfree, hok⟩ := bind_eq_ok.mp hok
      cases hok
      -- the slot it has to be removed from is found again
      obtain ⟨-, i, hi, hslot⟩ := (hloaded.mem proc).mpr (Or.inl rfl)
      obtain ⟨j, hj⟩ : ∃ j, w.findSlot (fun p => p == proc) = some j := by
        cases hj : w.findSlot fun p => p == proc with
        | some j => exact ⟨j, rfl⟩
        | none =>
          have := findSlot_eq_none hj hi
          rw [hslot, beq_self_eq_true] at this
          cases this
      obtain ⟨hj', htest⟩ := findSlot_eq_some hj
      have hjproc : w.processTable j = proc := beq_iff_eq.mp htest
      obtain ⟨heap', hfree', hclear⟩ := hloaded.table.clear hj' (hjproc ▸ hproc)
      rw [hjproc, hfree] at hfree'
      obtain rfl := Except.ok.inj hfree'
      rw [hj, Option.elim_some]
      refine Or.inl ⟨rfl, hclear _ rfl rfl, fun k hk hks => ?_, ?_, fun q hq => ?_, ?_, hloaded.current,
        hloaded.head, hloaded.tail⟩
      · refine (Function.update_of_ne ?_ ..).trans (hloaded.slots k hk hks)
        rintro rfl
        rw [hloaded.slots k hk hks] at hjproc
        exact hloaded.fresh (hjproc ▸ mem_processes hk hks)
      · ext q
        rw [hloaded.table.mem_clear hj' rfl, hjproc, hloaded.mem]
        constructor
        · rintro ⟨hne, hq⟩
          exact hq.resolve_left hne
        · intro hq
          exact ⟨fun hqp => hloaded.fresh (hqp ▸ hq), Or.inr hq⟩
      · exact hloaded.others q fun hqp => hloaded.fresh (hqp ▸ hq)
      · exact (Nat.le_succ _).trans hloaded.nextPid.ge
    · simp only [if_neg he] at hok
      obtain ⟨v, hadd, hok⟩ := bind_eq_ok.mp hok
      cases hok
      exact Or.inr ⟨w, proc, hloaded, hadd, rfl⟩

/-- **`process_fork`.** -/
theorem processFork_cases {pid : Nat} (h : s.TableOk) (hok : processFork s = .ok (pid, t)) :
    Refused s t ∨ ∃ u p, Entered s u p s.current.pid ∧ schedulerAdd u p = .ok t ∧ pid = s.nextPid := by
  unfold processFork at hok
  split at hok
  · cases hok
  split at hok
  · cases hok
  rename_i slot hslot
  obtain ⟨⟨child, heap⟩, hkmalloc, hok⟩ := bind_eq_ok.mp hok
  obtain ⟨hchild, -⟩ := h.kmalloc_fresh hkmalloc
  simp only [if_neg hchild] at hok
  obtain ⟨⟨stackPhysical, pmm⟩, -, hok⟩ := bind_eq_ok.mp hok
  simp only at hok
  split at hok
  · obtain ⟨heap', hfree, hok⟩ := bind_eq_ok.mp hok
    cases hok
    exact Or.inl ⟨h.borrow hkmalloc hfree rfl rfl, fun _ _ _ => rfl, rfl, fun _ _ => rfl,
      Nat.le_succ _, rfl, rfl, rfl⟩
  · obtain ⟨⟨pageDir, machine⟩, -, hok⟩ := bind_eq_ok.mp hok
    simp only at hok
    split at hok
    · cases hok
    · obtain ⟨v, hadd, hok⟩ := bind_eq_ok.mp hok
      cases hok
      generalize hx : Process.mk _ _ _ _ _ _ _ _ _ _ _ _ _ _ _ _ _ _ = x at hadd
      have hparent : x.parentPid = s.current.pid := by rw [← hx]
      exact Or.inr ⟨_, child, hparent ▸ entered_install h hkmalloc hslot (by rw [← hx]) (by rw [← hx]),
        hadd, rfl⟩

/-- **Reaping.** -/
theorem reap_cases {i : Nat} (h : s.TableOk) (hi : i < maxProcesses) (hne : s.processTable i ≠ 0)
    (hok : reap s i = .ok t) : Left s t (s.processTable i) ∧
      t.processTable = Function.update s.processTable i 0 ∧
      t.pcb = (schedulerRemove s (s.processTable i)).pcb ∧
      t.runQueueHead = (schedulerRemove s (s.processTable i)).runQueueHead ∧
      t.runQueueTail = (schedulerRemove s (s.processTable i)).runQueueTail := by
  have hr := schedulerRemove_requeued s (s.processTable i)
  obtain ⟨heap, hfree, hclear⟩ := h.clear hi hne
  unfold reap at hok
  obtain ⟨heap', hfree', hok⟩ := bind_eq_ok.mp hok
  rw [hr.heap, hfree] at hfree'
  obtain rfl := Except.ok.inj hfree'
  obtain rfl := Except.ok.inj hok
  refine ⟨⟨hclear _ rfl (by rw [hr.table]), fun q => ?_, hr.pcb, hr.nextPid, hr.current⟩,
    by rw [hr.table], rfl, rfl, rfl⟩
  exact h.mem_clear hi (by rw [hr.table])

end Creating

/-! ## 3. The invariant -/

/-- What is true of the table when the run queue is `q`. -/
structure Scheduling.Live (x : Scheduling) (q : List Nat) : Prop where
  table : x.kernel.TableOk
  mem : ∀ p ∈ q, p ∈ x.kernel.processes
  pid_lt : ∀ p ∈ x.kernel.processes, (x.kernel.pcb p).pid < x.kernel.nextPid
  pid_inj : Set.InjOn (fun p => (x.kernel.pcb p).pid) x.kernel.processes
  added_lt : ∀ a ∈ x.added, a < x.kernel.nextPid
  dead : ∀ p ∈ x.kernel.processes, (x.kernel.pcb p).state = .dead → p ∈ q
  running : ∀ p ∈ x.kernel.processes, (x.kernel.pcb p).state = .running →
    p = x.kernel.currentProcess

section Live

variable {x : Scheduling} {u t : Kernel} {q : List Nat} {p parent : Nat}

/-- The queue is not longer than the table. -/
theorem Scheduling.Live.room (h : x.Live q) (hnodup : q.Nodup) : q.length ≤ maxProcesses :=
  length_le_maxProcesses h.mem hnodup

/-- A process has entered the table. -/
theorem Scheduling.Live.enter (h : x.Live q) (he : Entered x.kernel u p parent) :
    { x with kernel := u }.Live q := by
  have hne : ∀ a ∈ x.kernel.processes, a ≠ p := fun a ha hap => he.fresh (hap ▸ ha)
  refine ⟨he.table, fun a ha => (he.mem a).mpr (Or.inr (h.mem a ha)), fun a ha => ?_,
    fun a ha b hb hab => ?_, fun a ha => ?_, fun a ha hs => ?_, fun a ha hs => ?_⟩
  · dsimp only
    rw [he.nextPid]
    rcases (he.mem a).mp ha with rfl | ha
    · exact he.pid ▸ Nat.lt_succ_self _
    · exact he.others a (hne a ha) ▸ Nat.lt_succ_of_lt (h.pid_lt a ha)
  · dsimp only at hab
    -- the new PID is larger than all others
    have hold : ∀ c ∈ x.kernel.processes, (u.pcb c).pid ≠ (u.pcb p).pid := by
      intro c hc hcp
      rw [he.others c (hne c hc), he.pid] at hcp
      exact (h.pid_lt c hc).ne hcp
    rcases (he.mem a).mp ha with rfl | ha
    · rcases (he.mem b).mp hb with rfl | hb
      · rfl
      · exact absurd hab.symm (hold b hb)
    · rcases (he.mem b).mp hb with rfl | hb
      · exact absurd hab (hold a ha)
      · rw [he.others a (hne a ha), he.others b (hne b hb)] at hab
        exact h.pid_inj ha hb hab
  · dsimp only
    rw [he.nextPid]
    exact Nat.lt_succ_of_lt (h.added_lt a ha)
  · rcases (he.mem a).mp ha with rfl | ha
    · exact absurd (he.state.symm.trans hs) (by simp)
    · exact h.dead a ha (he.others a (hne a ha) ▸ hs)
  · rcases (he.mem a).mp ha with rfl | ha
    · exact absurd (he.state.symm.trans hs) (by simp)
    · exact (h.running a ha (he.others a (hne a ha) ▸ hs)).trans he.current.symm

/-- A process of the table is added to the queue. -/
theorem Scheduling.Live.add (h : x.Live q) (hp : p ∈ x.kernel.processes)
    (hadd : schedulerAdd x.kernel p = .ok t) :
    { x with kernel := t, added := x.added ++ [(x.kernel.pcb p).pid] }.Live (q ++ [p]) := by
  obtain ⟨t', hadd', hr⟩ := schedulerAdd_requeued (s := x.kernel) hp.1
  obtain rfl := Except.ok.inj (hadd.symm.trans hadd')
  obtain ⟨-, hcur, hpid⟩ := schedulerAdd_pid hadd
  obtain ⟨hready, hstate⟩ := schedulerAdd_state hadd
  have hprocs := schedulerAdd_processes hadd
  refine ⟨h.table.congr hr.heap hr.table, fun a ha => ?_, fun a ha => ?_, fun a ha b hb hab => ?_,
    fun a ha => ?_, fun a ha hs => ?_, fun a ha hs => ?_⟩
  · dsimp only
    rw [hprocs]
    rcases List.mem_append.mp ha with ha | ha
    · exact h.mem a ha
    · rwa [List.mem_singleton.mp ha]
  · dsimp only at ha ⊢
    rw [hpid, hr.nextPid]
    exact h.pid_lt a (hprocs ▸ ha)
  · dsimp only at ha hb hab
    rw [hpid, hpid] at hab
    exact h.pid_inj (hprocs ▸ ha) (hprocs ▸ hb) hab
  · dsimp only
    rw [hr.nextPid]
    rcases List.mem_append.mp ha with ha | ha
    · exact h.added_lt a ha
    · rw [List.mem_singleton.mp ha]
      exact h.pid_lt p hp
  · refine List.mem_append_left _ (h.dead a (hprocs ▸ ha) ?_)
    rwa [← hstate a]
    rintro rfl
    exact absurd (hready.symm.trans hs) (by simp)
  · dsimp only at hs ⊢
    rw [hcur]
    refine h.running a (hprocs ▸ ha) ?_
    rwa [← hstate a]
    rintro rfl
    exact absurd (hready.symm.trans hs) (by simp)

/-- No process has been created. -/
theorem Scheduling.Live.refuse (h : x.Live q) (hr : Refused x.kernel t) :
    { x with kernel := t }.Live q := by
  refine ⟨hr.table, fun a ha => ?_, fun a ha => ?_, fun a ha b hb hab => ?_, fun a ha => ?_,
    fun a ha hs => ?_, fun a ha hs => ?_⟩
  · exact hr.processes.symm ▸ h.mem a ha
  · dsimp only at ha ⊢
    rw [hr.processes] at ha
    rw [hr.pcb a ha]
    exact (h.pid_lt a ha).trans_le hr.nextPid
  · dsimp only at ha hb hab
    rw [hr.processes] at ha hb
    rw [hr.pcb a ha, hr.pcb b hb] at hab
    exact h.pid_inj ha hb hab
  · exact (h.added_lt a ha).trans_le hr.nextPid
  · dsimp only at ha hs
    rw [hr.processes] at ha
    exact h.dead a ha (hr.pcb a ha ▸ hs)
  · dsimp only at ha hs ⊢
    rw [hr.processes] at ha
    exact (h.running a ha (hr.pcb a ha ▸ hs)).trans hr.current.symm

/-- States have changed. -/
theorem Scheduling.Live.restated (h : x.Live q) (hr : Restated x.kernel t)
    (hdead : ∀ a ∈ x.kernel.processes, (t.pcb a).state = .dead →
      (x.kernel.pcb a).state = .dead ∨ a ∈ q)
    (hrun : ∀ a ∈ x.kernel.processes, (t.pcb a).state = .running → a = t.currentProcess) :
    { x with kernel := t }.Live q := by
  have hprocs := hr.processes_eq
  have hpid : ∀ a, (t.pcb a).pid = (x.kernel.pcb a).pid := fun a => (hr.pcb a).pid_eq
  refine ⟨h.table.congr hr.heap hr.table, fun a ha => hprocs.symm ▸ h.mem a ha, fun a ha => ?_,
    fun a ha b hb hab => ?_, fun a ha => ?_, fun a ha hs => ?_, fun a ha hs => ?_⟩
  · dsimp only at ha ⊢
    rw [hpid, hr.nextPid]
    exact h.pid_lt a (hprocs ▸ ha)
  · dsimp only at ha hb hab
    rw [hpid, hpid] at hab
    exact h.pid_inj (hprocs ▸ ha) (hprocs ▸ hb) hab
  · exact hr.nextPid.symm ▸ h.added_lt a ha
  · exact (hdead a (hprocs ▸ ha) hs).elim (h.dead a (hprocs ▸ ha)) id
  · exact hrun a (hprocs ▸ ha) hs

/-- A process has left the table and the queue. -/
theorem Scheduling.Live.leave {removed : List Nat} (h : x.Live q) (hl : Left x.kernel t p) :
    { x with kernel := t, removed := removed }.Live (q.filter (· ≠ p)) := by
  have hsame : ∀ a, (t.pcb a).pid = (x.kernel.pcb a).pid ∧ (t.pcb a).state = (x.kernel.pcb a).state := by
    intro a
    obtain ⟨n, hn⟩ := hl.pcb a
    rw [hn]
    exact ⟨rfl, rfl⟩
  have hmem : ∀ {a}, a ∈ t.processes → a ∈ x.kernel.processes := fun ha => ((hl.mem _).mp ha).2
  refine ⟨hl.table, fun a ha => ?_, fun a ha => ?_, fun a ha b hb hab => ?_, fun a ha => ?_,
    fun a ha hs => ?_, fun a ha hs => ?_⟩
  · obtain ⟨ha, hap⟩ := List.mem_filter.mp ha
    exact (hl.mem a).mpr ⟨of_decide_eq_true hap, h.mem a ha⟩
  · dsimp only
    rw [(hsame a).1, hl.nextPid]
    exact h.pid_lt a (hmem ha)
  · dsimp only at hab
    rw [(hsame a).1, (hsame b).1] at hab
    exact h.pid_inj (hmem ha) (hmem hb) hab
  · exact hl.nextPid.symm ▸ h.added_lt a ha
  · refine List.mem_filter.mpr ⟨h.dead a (hmem ha) ((hsame a).2 ▸ hs), ?_⟩
    exact decide_eq_true ((hl.mem a).mp ha).1
  · exact (h.running a (hmem ha) ((hsame a).2 ▸ hs)).trans hl.current.symm

/-- The queue does not know of a process that has entered the table. -/
theorem Scheduling.Listed.enter (hl : x.Listed q) (h : x.Live q) (he : Entered x.kernel u p parent) :
    p ∉ q ∧ { x with kernel := u }.Listed q := by
  have hpq : p ∉ q := fun hp => he.fresh (h.mem p hp)
  have hpcb : ∀ a ∈ q, u.pcb a = x.kernel.pcb a := fun a ha => he.others a fun hap => hpq (hap ▸ ha)
  refine ⟨hpq, hl.same (hl.queue.congr (fun a ha => ?_) he.head he.tail) fun a ha => ?_⟩
  · rw [hpcb a ha]
  · rw [hpcb a ha]

/-- A process enters the table and then the queue. -/
theorem Scheduling.join (hl : x.Listed q) (h : x.Live q) (he : Entered x.kernel u p parent)
    (hadd : schedulerAdd u p = .ok t) :
    { x with kernel := t, added := x.added ++ [(u.pcb p).pid] }.Listed (q ++ [p]) ∧
      { x with kernel := t, added := x.added ++ [(u.pcb p).pid] }.Live (q ++ [p]) := by
  obtain ⟨hpq, hl'⟩ := hl.enter h he
  have hnew : (u.pcb p).pid ∉ x.added := fun hmem => by
    rw [he.pid] at hmem
    exact (h.added_lt _ hmem).false
  exact ⟨(hl'.add hpq hnew hadd).1, (h.enter he).add ((he.mem p).mpr (Or.inl rfl)) hadd⟩

/-- No process is created. -/
theorem Scheduling.refuse (hl : x.Listed q) (h : x.Live q) (hr : Refused x.kernel t) :
    { x with kernel := t }.Listed q ∧ { x with kernel := t }.Live q := by
  have hpcb : ∀ a ∈ q, t.pcb a = x.kernel.pcb a := fun a ha => hr.pcb a (h.mem a ha)
  refine ⟨hl.same (hl.queue.congr (fun a ha => ?_) hr.head hr.tail) fun a ha => ?_, h.refuse hr⟩
  · rw [hpcb a ha]
  · rw [hpcb a ha]

end Live

/-! ## 4. Runs -/

/-- What a caller may do to a process between `process_create` and `scheduler_add`: set its time slice,
load its image. -/
structure Prepared (s t : Kernel) (p : Nat) : Prop where
  heap : t.heap = s.heap
  table : t.processTable = s.processTable
  nextPid : t.nextPid = s.nextPid
  current : t.currentProcess = s.currentProcess
  head : t.runQueueHead = s.runQueueHead
  tail : t.runQueueTail = s.runQueueTail
  others : ∀ q, q ≠ p → t.pcb q = s.pcb q
  pid : (t.pcb p).pid = (s.pcb p).pid
  parentPid : (t.pcb p).parentPid = (s.pcb p).parentPid
  state : (t.pcb p).state = (s.pcb p).state

theorem Entered.prepare {s t u : Kernel} {p parent : Nat} (h : Entered s t p parent)
    (hp : Prepared t u p) : Entered s u p parent := by
  have hprocs : u.processes = t.processes := by
    unfold Kernel.processes
    rw [hp.table]
  exact ⟨h.table.congr hp.heap hp.table, fun i hi hne => hp.table ▸ h.slots i hi hne,
    fun q => hprocs ▸ h.mem q, h.fresh, hp.pid.trans h.pid,
    hp.parentPid.trans h.parentPid, hp.state.trans h.state,
    fun q hq => (hp.others q hq).trans (h.others q hq), hp.nextPid.trans h.nextPid,
    hp.current.trans h.current, hp.head.trans h.head, hp.tail.trans h.tail⟩

/-- After `mem_init`, `process_init` and `scheduler_init`. -/
structure Kernel.Initialised (s : Kernel) : Prop where
  heap : ∃ bs, Rep s.heap bs
  table : ∀ i, s.processTable i = 0
  nextPid : s.nextPid = 0
  current : s.currentProcess = 0
  head : s.runQueueHead = 0
  tail : s.runQueueTail = 0

/-- What `kernel_main` does before `scheduler_start`: it creates processes and queues them, or leaves
one out whose image can not be loaded. -/
inductive BootStep : Scheduling → Scheduling → Prop
  | add {x : Scheduling} {u v t : Kernel} {name : Option (List (BitVec 8))} {entry flags p : Nat}
      (hcreate : processCreate x.kernel name entry flags = .ok (p, u)) (hprep : Prepared u v p)
      (hadd : schedulerAdd v p = .ok t) :
      BootStep x { x with kernel := t, added := x.added ++ [(v.pcb p).pid] }
  | leaveOut {x : Scheduling} {u v : Kernel} {name : Option (List (BitVec 8))} {entry flags p : Nat}
      (hcreate : processCreate x.kernel name entry flags = .ok (p, u)) (hprep : Prepared u v p) :
      BootStep x { x with kernel := v }

/-- The current process has not called `sys_exit`. -/
def Kernel.Executes (s : Kernel) : Prop := s.current.state ≠ .dead

/-- One step of a run after `scheduler_start`.  PID 0 is idle, which neither blocks nor exits.  `reap` is
what `sys_wait` and `process_wait` do with a dead process they have found. -/
inductive SchedulerStep : Scheduling → Scheduling → Prop
  | create {x : Scheduling} {u v t : Kernel} {name : Option (List (BitVec 8))} {entry flags p : Nat}
      (hexec : x.kernel.Executes)
      (hcreate : processCreate x.kernel name entry flags = .ok (p, u)) (hprep : Prepared u v p)
      (hadd : schedulerAdd v p = .ok t) :
      SchedulerStep x { x with kernel := t, added := x.added ++ [(v.pcb p).pid] }
  | spawn {x : Scheduling} {t : Kernel} {path : Option (List (BitVec 8))} {file : Option FileRead}
      {argv : Option (List (List (BitVec 8)))} {pid : Option Nat} (hexec : x.kernel.Executes)
      (h : processSpawn x.kernel path file argv = .ok (pid, t)) :
      SchedulerStep x { x with kernel := t, added := x.added ++ pid.toList }
  | fork {x : Scheduling} {t : Kernel} {p pid : Nat} (hexec : x.kernel.Executes)
      (h : processFork x.kernel = .ok (pid, t)) (hp : p ∈ t.processes)
      (hnew : p ∉ x.kernel.processes) :
      SchedulerStep x { x with kernel := t, added := x.added ++ [pid] }
  | forkFails {x : Scheduling} {t : Kernel} {pid : Nat} (hexec : x.kernel.Executes)
      (h : processFork x.kernel = .ok (pid, t)) (hnone : t.processes = x.kernel.processes) :
      SchedulerStep x { x with kernel := t }
  | block {x : Scheduling} {p : Nat} (hidle : (x.kernel.pcb p).pid ≠ 0) :
      SchedulerStep x { x with kernel := processBlock x.kernel p }
  | wake {x : Scheduling} (p : Nat) : SchedulerStep x { x with kernel := processWake x.kernel p }
  | sleep {x : Scheduling} (now : BitVec 32) (rdi : BitVec 64) (hexec : x.kernel.Executes)
      (hidle : x.kernel.current.pid ≠ 0) :
      SchedulerStep x { x with kernel := sysSleep x.kernel now rdi }
  | exit {x : Scheduling} {t : Kernel} {rdi : BitVec 64} (hexec : x.kernel.Executes)
      (hidle : x.kernel.current.pid ≠ 0) (h : sysExit x.kernel rdi = .ok t) :
      SchedulerStep x { x with kernel := t }
  | reap {x : Scheduling} {t : Kernel} {i : Nat} (hexec : x.kernel.Executes) (hi : i < maxProcesses)
      (hne : x.kernel.processTable i ≠ 0)
      (hdead : (x.kernel.pcb (x.kernel.processTable i)).state = .dead)
      (h : reap x.kernel i = .ok t) :
      SchedulerStep x { x with
        kernel := t, removed := x.removed ++ [(x.kernel.pcb (x.kernel.processTable i)).pid] }
  | tick {x : Scheduling} {t : Kernel} {now : BitVec 32} (h : schedulerTick x.kernel now = .ok t) :
      SchedulerStep x { x with kernel := t }
  | yield {x : Scheduling} {t : Kernel} {now : BitVec 32} (h : schedulerYield x.kernel now = .ok t) :
      SchedulerStep x { x with kernel := t }

/-- Idle is in the queue and can run. -/
def Kernel.IdleQueued (s : Kernel) (q : List Nat) : Prop :=
  ∃ p ∈ q, (s.pcb p).pid = 0 ∧ s.Runnable p

/-- **The invariant.** -/
structure Scheduling.Ok (x : Scheduling) (q : List Nat) : Prop where
  listed : x.Listed q
  live : x.Live q
  current : x.kernel.currentProcess ∈ q
  idle : x.kernel.IdleQueued q

section Ok

variable {x y : Scheduling} {u t : Kernel} {q q' : List Nat} {p parent : Nat} {now : BitVec 32}

theorem Kernel.IdleQueued.mono {s : Kernel} (h : s.IdleQueued q)
    (hmono : ∀ p ∈ q, (s.pcb p).pid = 0 → s.Runnable p →
      p ∈ q' ∧ (t.pcb p).pid = 0 ∧ t.Runnable p) : t.IdleQueued q' := by
  obtain ⟨p, hp, hpid, hrun⟩ := h
  obtain ⟨hp', hpid', hrun'⟩ := hmono p hp hpid hrun
  exact ⟨p, hp', hpid', hrun'⟩

theorem Scheduling.Ok.queueOk (h : x.Ok q) : x.QueueOk q :=
  ⟨h.listed, h.live.room h.listed.queue.nodup, h.current⟩

theorem Scheduling.Ok.join (h : x.Ok q) (he : Entered x.kernel u p parent)
    (hadd : schedulerAdd u p = .ok t) :
    { x with kernel := t, added := x.added ++ [(u.pcb p).pid] }.Ok (q ++ [p]) := by
  obtain ⟨hlisted, hlive⟩ := Scheduling.join h.listed h.live he hadd
  obtain ⟨-, hcur, hpid⟩ := schedulerAdd_pid hadd
  obtain ⟨-, hstate⟩ := schedulerAdd_state hadd
  refine ⟨hlisted, hlive, ?_, h.idle.mono fun a ha hapid hrun => ?_⟩
  · dsimp only
    rw [hcur, he.current]
    exact List.mem_append_left _ h.current
  · have hap : a ≠ p := fun hap => he.fresh (hap ▸ h.live.mem a ha)
    refine ⟨List.mem_append_left _ ha, ?_, ?_⟩
    · rw [hpid, he.others a hap]
      exact hapid
    · rw [Kernel.Runnable, hstate a hap, he.others a hap]
      exact hrun

theorem Scheduling.Ok.refuse (h : x.Ok q) (hr : Refused x.kernel t) : { x with kernel := t }.Ok q := by
  obtain ⟨hlisted, hlive⟩ := Scheduling.refuse h.listed h.live hr
  refine ⟨hlisted, hlive, hr.current.symm ▸ h.current, h.idle.mono fun a ha hapid hrun => ⟨ha, ?_⟩⟩
  rw [Kernel.Runnable, hr.pcb a (h.live.mem a ha)]
  exact ⟨hapid, hrun⟩

/-- Steps that change the states of processes, but not who is running. -/
theorem Scheduling.Ok.restated (h : x.Ok q) (hr : Restated x.kernel t)
    (hcur : t.currentProcess = x.kernel.currentProcess)
    (hdead : ∀ a, (t.pcb a).state = .dead → (x.kernel.pcb a).state = .dead ∨ a ∈ q)
    (hrun : ∀ a, (t.pcb a).state = .running → (x.kernel.pcb a).state = .running)
    (hidle : ∀ a ∈ q, (x.kernel.pcb a).pid = 0 → x.kernel.Runnable a → t.Runnable a) :
    { x with kernel := t }.Ok q := by
  refine ⟨h.listed.same (hr.queue h.listed.queue) fun a _ => (hr.pcb a).pid_eq,
    h.live.restated hr (fun a _ => hdead a) fun a ha hs => ?_, hcur.symm ▸ h.current,
    h.idle.mono fun a ha hapid hra => ⟨ha, (hr.pcb a).pid_eq.trans hapid, hidle a ha hapid hra⟩⟩
  exact (h.live.running a ha (hrun a hs)).trans hcur.symm

/-- A tick, whatever it comes to. -/
theorem Scheduling.Ok.tick {rest : List Nat} (h : x.Ok q)
    (hrest : q ~r rest ++ [x.kernel.currentProcess])
    (hcase : Stays x.kernel t rest ∨
      ∃ xs ys, rest = xs ++ t.currentProcess :: ys ∧ Switches x.kernel t xs) :
    { x with kernel := t }.Ok q := by
  rcases hcase with hstays | ⟨xs, ys, rfl, hswitch⟩
  · refine h.restated hstays.restated hstays.current (fun a hs => ?_) (fun a hs => ?_)
      fun a _ _ hrun => ?_
    · rcases hstays.state a with hsame | ⟨-, hready⟩
      · exact Or.inl (hsame ▸ hs)
      · rw [hready] at hs
        cases hs
    · rcases hstays.state a with hsame | ⟨-, hready⟩
      · exact hsame ▸ hs
      · rw [hready] at hs
        cases hs
    · rcases hstays.state a with hsame | ⟨-, hready⟩
      · rw [Kernel.Runnable, hsame]
        exact hrun
      · exact Or.inl hready
  · have hr := hswitch.restated
    have hnew : t.currentProcess ∈ q := hrest.mem_iff.mpr (by simp)
    -- what becomes of a process that is not switched to
    have hother : ∀ a, a ≠ t.currentProcess → (t.pcb a).state = (x.kernel.pcb a).state ∧
        (t.pcb a).state ≠ .running ∨ (t.pcb a).state = .ready ∨ a ∉ x.kernel.processes := by
      intro a ha
      by_cases hmem : a ∈ x.kernel.processes
      · by_cases hac : a = x.kernel.currentProcess
        · subst hac
          have hold := hswitch.old
          split at hold
          · exact Or.inr (Or.inl hold)
          · rename_i hnot
            rcases hold with hsame | ⟨-, hready⟩
            · exact Or.inl ⟨hsame, hsame.symm ▸ hnot⟩
            · exact Or.inr (Or.inl hready)
        · rcases hswitch.others a hac ha with hsame | ⟨-, hready⟩
          · refine Or.inl ⟨hsame, fun hs => hac ?_⟩
            exact h.live.running a hmem (hsame.symm.trans hs)
          · exact Or.inr (Or.inl hready)
      · exact Or.inr (Or.inr hmem)
    refine ⟨h.listed.same (hr.queue h.listed.queue) fun a _ => (hr.pcb a).pid_eq,
      h.live.restated hr (fun a hmem hs => ?_) (fun a hmem hs => ?_), hnew,
      h.idle.mono fun a ha hapid hra => ⟨ha, (hr.pcb a).pid_eq.trans hapid, ?_⟩⟩
    · by_cases ha : a = t.currentProcess
      · exact Or.inr (ha ▸ hnew)
      · rcases hother a ha with ⟨hsame, -⟩ | hready | hnot
        · exact Or.inl (hsame ▸ hs)
        · rw [hready] at hs
          cases hs
        · exact absurd hmem hnot
    · by_contra ha
      rcases hother a ha with ⟨-, hnot⟩ | hready | hnot
      · exact hnot hs
      · rw [hready] at hs
        cases hs
      · exact hnot hmem
    · by_cases hac : a = t.currentProcess
      · exact Or.inr (hac ▸ hswitch.runs)
      · rcases hother a hac with ⟨hsame, -⟩ | hready | hnot
        · rw [Kernel.Runnable, hsame]
          exact hra
        · exact Or.inl hready
        · exact absurd (h.live.mem a ha) hnot

theorem Scheduling.Ok.reap {i : Nat} (h : x.Ok q) (hexec : x.kernel.Executes)
    (hi : i < maxProcesses) (hne : x.kernel.processTable i ≠ 0)
    (hdead : (x.kernel.pcb (x.kernel.processTable i)).state = .dead)
    (hreap : AcornOS.reap x.kernel i = .ok t) :
    { x with
      kernel := t,
      removed := x.removed ++ [(x.kernel.pcb (x.kernel.processTable i)).pid] }.Ok
        (q.filter (· ≠ x.kernel.processTable i)) := by
  obtain ⟨hleft, -, hpcb, hhead, htail⟩ := reap_cases h.live.table hi hne hreap
  generalize hp : x.kernel.processTable i = p at *
  have hpq : p ∈ q := h.live.dead p (hp ▸ mem_processes hi (hp.symm ▸ hne)) hdead
  have hroom := h.live.room h.listed.queue.nodup
  obtain ⟨hlisted, -⟩ := h.listed.remove hpq hroom
  have hcur : x.kernel.currentProcess ≠ p := by
    rintro rfl
    exact hexec hdead
  refine ⟨hlisted.same (hlisted.queue.congr (fun a _ => ?_) hhead htail) (fun a _ => ?_),
    h.live.leave hleft, ?_, h.idle.mono fun a ha hapid hrun => ?_⟩
  · rw [hpcb]
  · rw [hpcb]
  · dsimp only
    rw [hleft.current]
    exact List.mem_filter.mpr ⟨h.current, decide_eq_true hcur⟩
  · obtain ⟨n, hn⟩ := hleft.pcb a
    have hap : a ≠ p := by
      rintro rfl
      rw [Kernel.Runnable, hdead] at hrun
      rcases hrun with hrun | hrun <;> cases hrun
    refine ⟨List.mem_filter.mpr ⟨ha, decide_eq_true hap⟩, ?_⟩
    rw [Kernel.Runnable, hn]
    exact ⟨hapid, hrun⟩

theorem Scheduling.Ok.wake (h : x.Ok q) (p : Nat) :
    { x with kernel := processWake x.kernel p }.Ok q := by
  refine h.restated (restated_processWake _ p) (processWake_currentProcess _ p) (fun a hs => ?_)
    (fun a hs => ?_) fun a _ _ hrun => ?_
  · rcases (processWake_state x.kernel p a).2 with hsame | ⟨-, hready⟩
    · exact Or.inl (hsame ▸ hs)
    · rw [hready] at hs
      cases hs
  · rcases (processWake_state x.kernel p a).2 with hsame | ⟨-, hready⟩
    · exact hsame ▸ hs
    · rw [hready] at hs
      cases hs
  · rcases (processWake_state x.kernel p a).2 with hsame | ⟨-, hready⟩
    · rw [Kernel.Runnable, hsame]
      exact hrun
    · exact Or.inl hready

/-- A process other than idle gets a state in which it neither runs nor is dead. -/
theorem Scheduling.Ok.suspend {f : Process → Process} (h : x.Ok q)
    (hidle : (x.kernel.pcb p).pid ≠ 0) (hf : ∀ y, SameProcess (f y) y)
    (hstate : ∀ y, (f y).state ≠ .dead ∧ (f y).state ≠ .running) :
    { x with kernel := x.kernel.modify p f }.Ok q := by
  refine h.restated (restated_modify hf) rfl (fun a hs => ?_) (fun a hs => ?_) fun a _ hapid hrun => ?_
  · by_cases ha : a = p
    · rw [ha, Kernel.modify_self] at hs
      exact absurd hs (hstate _).1
    · rw [Kernel.modify_of_ne _ _ _ ha] at hs
      exact Or.inl hs
  · by_cases ha : a = p
    · rw [ha, Kernel.modify_self] at hs
      exact absurd hs (hstate _).2
    · rwa [Kernel.modify_of_ne _ _ _ ha] at hs
  · have ha : a ≠ p := fun hap => hidle (hap ▸ hapid)
    rwa [Kernel.Runnable, Kernel.modify_of_ne _ _ _ ha]

theorem Scheduling.Ok.exit {rdi : BitVec 64} (h : x.Ok q) (hidle : x.kernel.current.pid ≠ 0)
    (hexit : sysExit x.kernel rdi = .ok t) : { x with kernel := t }.Ok q := by
  obtain ⟨hdead, -, hothers, -⟩ := sysExit_spec hexit
  refine h.restated (restated_sysExit hexit) (sysExit_currentProcess hexit) (fun a hs => ?_)
    (fun a hs => ?_) fun a _ hapid hrun => ?_
  · by_cases ha : a = x.kernel.currentProcess
    · exact Or.inr (ha ▸ h.current)
    · rcases (hothers a ha).2 with hsame | ⟨-, hready⟩
      · exact Or.inl (hsame ▸ hs)
      · rw [hready] at hs
        cases hs
  · by_cases ha : a = x.kernel.currentProcess
    · rw [ha, hdead] at hs
      cases hs
    · rcases (hothers a ha).2 with hsame | ⟨-, hready⟩
      · exact hsame ▸ hs
      · rw [hready] at hs
        cases hs
  · have ha : a ≠ x.kernel.currentProcess := by
      rintro rfl
      exact hidle hapid
    rcases (hothers a ha).2 with hsame | ⟨-, hready⟩
    · rw [Kernel.Runnable, hsame]
      exact hrun
    · exact Or.inl hready

/-- **Every step keeps the invariant.** -/
theorem SchedulerStep.ok (hstep : SchedulerStep x y) (h : x.Ok q) : ∃ q', y.Ok q' := by
  cases hstep with
  | create _ hcreate hprep hadd =>
    exact ⟨_, h.join ((processCreate_entered h.live.table hcreate).prepare hprep) hadd⟩
  | spawn _ hspawn =>
    rcases processSpawn_cases h.live.table hspawn with ⟨rfl, hr⟩ | ⟨u, p, he, hadd, rfl⟩
    · refine ⟨q, ?_⟩
      rw [Option.toList_none, List.append_nil]
      exact h.refuse hr
    · obtain ⟨-, -, hpid⟩ := schedulerAdd_pid hadd
      refine ⟨q ++ [p], ?_⟩
      rw [Option.toList_some, hpid]
      exact h.join he hadd
  | fork _ hfork hp hnew =>
    rcases processFork_cases h.live.table hfork with hr | ⟨u, p, he, hadd, rfl⟩
    · exact absurd (hr.processes ▸ hp) hnew
    · exact ⟨q ++ [p], he.pid ▸ h.join he hadd⟩
  | forkFails _ hfork hnone =>
    rcases processFork_cases h.live.table hfork with hr | ⟨u, p, he, hadd, -⟩
    · exact ⟨q, h.refuse hr⟩
    · have hp : p ∈ u.processes := (he.mem p).mpr (Or.inl rfl)
      rw [← schedulerAdd_processes hadd, hnone] at hp
      exact absurd hp he.fresh
  | block hidle =>
    rename_i p
    refine ⟨q, ?_⟩
    unfold processBlock
    split
    · exact h
    · exact h.suspend hidle (fun _ => ⟨_, _, _, _, rfl⟩) fun _ => ⟨by simp, by simp⟩
  | wake p => exact ⟨q, h.wake p⟩
  | sleep now rdi _ hidle =>
    refine ⟨q, ?_⟩
    unfold sysSleep
    split
    · exact h
    · exact h.suspend hidle (fun _ => ⟨_, _, _, _, rfl⟩) fun _ => ⟨by simp, by simp⟩
  | exit _ hidle hexit => exact ⟨q, h.exit hidle hexit⟩
  | reap hexec hi hne hdead hreap => exact ⟨_, h.reap hexec hi hne hdead hreap⟩
  | tick ht =>
    obtain ⟨rest, hrest⟩ := exists_rest h.current
    obtain ⟨t', ht', hcase⟩ := schedulerTick_spec _ h.listed.queue hrest h.queueOk.room
    obtain rfl := Except.ok.inj (ht.symm.trans ht')
    exact ⟨q, h.tick hrest hcase⟩
  | yield ht =>
    obtain ⟨rest, hrest⟩ := exists_rest h.current
    obtain ⟨t', ht', hcase⟩ := schedulerYield_spec _ h.listed.queue hrest h.queueOk.room
    obtain rfl := Except.ok.inj (ht.symm.trans ht')
    exact ⟨q, h.tick hrest hcase⟩

/-- A round of `sys_wait` or of `process_wait` is a step, or nothing happens. -/
theorem WaitRound.step (hexec : x.kernel.Executes) (hidle : x.kernel.current.pid ≠ 0)
    (h : WaitRound x.kernel t) : t = x.kernel ∨ ∃ y, SchedulerStep x y ∧ y.kernel = t := by
  cases h with
  | reap hi hne hdead hreap => exact Or.inr ⟨_, SchedulerStep.reap hexec hi hne hdead hreap, rfl⟩
  | block ht => exact Or.inr ⟨_, SchedulerStep.block hidle, ht.symm⟩
  | stay ht => exact Or.inl ht

/-- A process that is not RUNNING does not come back from `scheduler_yield`: idle can run, so the
processor is given to another one. -/
theorem Scheduling.Ok.yield_switches (h : x.Ok q) (hidle : x.kernel.current.pid ≠ 0)
    (hstate : x.kernel.current.state ≠ .running) (now : BitVec 32) :
    ∃ t, schedulerYield x.kernel now = .ok t ∧
      t.currentProcess ≠ x.kernel.currentProcess ∧ t.current.state = .running := by
  obtain ⟨rest, hrest⟩ := exists_rest h.current
  obtain ⟨t, ht, hstays | ⟨xs, ys, -, hswitch⟩⟩ :=
    schedulerYield_spec now h.listed.queue hrest h.queueOk.room
  · exfalso
    rcases hstays.why with hrun | hnone
    · rcases hstays.state x.kernel.currentProcess with hsame | ⟨-, hready⟩
      · exact hstate (hsame.symm.trans hrun)
      · rw [hready] at hrun
        cases hrun
    · obtain ⟨p, hp, hpid, hrun⟩ := h.idle
      have hpc : p ≠ x.kernel.currentProcess := by
        rintro rfl
        exact hidle hpid
      have hprest : p ∈ rest := by
        have hmem := hrest.mem_iff.mp hp
        rw [List.mem_append, List.mem_singleton] at hmem
        exact hmem.resolve_right hpc
      refine hnone p hprest ?_
      rcases hstays.state p with hsame | ⟨-, hready⟩
      · rw [Kernel.Runnable, hsame]
        exact hrun
      · exact Or.inl hready
  · exact ⟨t, ht, hswitch.changed, hswitch.runs⟩

end Ok

/-! ## 5. From boot on -/

/-- What is true before `scheduler_start`. -/
structure Scheduling.BootOk (x : Scheduling) (q : List Nat) : Prop where
  listed : x.Listed q
  live : x.Live q
  current : x.kernel.currentProcess = 0
  removed : x.removed = []
  ready : ∀ p ∈ x.kernel.processes, (x.kernel.pcb p).state = .ready

section Boot

variable {x y : Scheduling} {k t : Kernel} {q : List Nat}

theorem Kernel.Initialised.processes_empty (h : k.Initialised) (p : Nat) : p ∉ k.processes := by
  rintro ⟨hp, i, -, rfl⟩
  exact hp (h.table i)

theorem Kernel.Initialised.bootOk (h : k.Initialised) : (⟨k, [], []⟩ : Scheduling).BootOk [] := by
  have hempty := h.processes_empty
  refine ⟨⟨⟨Cycle.Chain.nil _, h.head, h.tail, List.nodup_nil, List.not_mem_nil⟩, rfl, List.nodup_nil,
    fun a ha => ha⟩, ⟨⟨?_, fun i j _ _ _ hne => absurd (h.table i) hne⟩, ?_, ?_, ?_, ?_, ?_, ?_⟩,
    h.current, rfl, fun p hp => absurd hp (hempty p)⟩
  · obtain ⟨bs, hrep⟩ := h.heap
    exact ⟨bs, hrep, fun p hp => absurd hp (hempty p)⟩
  · exact fun p hp => absurd hp List.not_mem_nil
  · exact fun p hp => absurd hp (hempty p)
  · exact fun p hp => absurd hp (hempty p)
  · exact fun a ha => absurd ha List.not_mem_nil
  · exact fun p hp => absurd hp (hempty p)
  · exact fun p hp => absurd hp (hempty p)

theorem BootStep.ok (hstep : BootStep x y) (h : x.BootOk q) : ∃ q', y.BootOk q' := by
  have hready : ∀ {u : Kernel} {p parent : Nat}, Entered x.kernel u p parent →
      ∀ a ∈ u.processes, (u.pcb a).state = .ready := by
    intro u p parent he a ha
    rcases (he.mem a).mp ha with rfl | ha
    · exact he.state
    · rw [he.others a fun hap => he.fresh (hap ▸ ha)]
      exact h.ready a ha
  cases hstep with
  | add hcreate hprep hadd =>
    rename_i u v t name entry flags p
    have he := (processCreate_entered h.live.table hcreate).prepare hprep
    obtain ⟨hlisted, hlive⟩ := Scheduling.join h.listed h.live he hadd
    obtain ⟨-, hcur, -⟩ := schedulerAdd_pid hadd
    obtain ⟨hp, hstate⟩ := schedulerAdd_state hadd
    refine ⟨q ++ [p], hlisted, hlive, (hcur.trans he.current).trans h.current, h.removed, ?_⟩
    intro a ha
    dsimp only at ha ⊢
    rw [schedulerAdd_processes hadd] at ha
    by_cases hap : a = p
    · rw [hap, hp]
    · rw [hstate a hap]
      exact hready he a ha
  | leaveOut hcreate hprep =>
    have he := (processCreate_entered h.live.table hcreate).prepare hprep
    exact ⟨q, (h.listed.enter h.live he).2, h.live.enter he, he.current.trans h.current, h.removed,
      hready he⟩

/-- The processes of a start-up. -/
theorem Kernel.Initialised.boot {k : Kernel} (hk : k.Initialised)
    (hboot : ReflTransGen BootStep ⟨k, [], []⟩ x) : ∃ q, x.BootOk q :=
  reach_invariant (I := fun x : Scheduling => ∃ q, x.BootOk q) hboot ⟨[], hk.bootOk⟩
    fun a b ha hstep => by
      obtain ⟨q, hq⟩ := ha
      exact hstep.ok hq

/-- **`scheduler_start`**, with idle in the queue. -/
theorem schedulerStart_ok (h : x.BootOk q) (hidle : 0 ∈ x.added)
    (hstart : schedulerStart x.kernel = .ok t) : { x with kernel := t }.Ok q := by
  obtain ⟨p, hp, hpid⟩ : ∃ p ∈ q, (x.kernel.pcb p).pid = 0 := by
    have hmem : 0 ∈ x.kernel.pids q := by
      rw [h.listed.history, h.removed]
      simpa using hidle
    exact List.mem_map.mp hmem
  unfold schedulerStart at hstart
  split at hstart
  · cases hstart
  rename_i hhead
  have hheadq : x.kernel.runQueueHead ∈ q := by
    rw [h.listed.queue.head]
    cases q with
    | nil => exact absurd hp List.not_mem_nil
    | cons a l => exact List.mem_cons_self
  obtain rfl := Except.ok.inj hstart
  generalize hu : ({ x.kernel with currentProcess := x.kernel.runQueueHead } : Kernel) = u
  have hr : Restated x.kernel (u.modify x.kernel.runQueueHead fun p =>
      { p with state := .running, ticksRemaining := p.timeSlice }) := by
    rw [← hu]
    exact (restated_setCurrent _ _).trans (restated_modify fun _ => ⟨_, _, _, _, rfl⟩)
  have hcur : u.currentProcess = x.kernel.runQueueHead := by rw [← hu]
  have hstate : ∀ a ∈ x.kernel.processes, a ≠ x.kernel.runQueueHead → (u.pcb a).state = .ready := by
    intro a ha _
    rw [← hu]
    exact h.ready a ha
  refine ⟨h.listed.same (hr.queue h.listed.queue) fun a _ => (hr.pcb a).pid_eq,
    h.live.restated hr (fun a ha hs => ?_) (fun a ha hs => ?_), hcur.symm ▸ hheadq,
    ⟨p, hp, (hr.pcb p).pid_eq.trans hpid, ?_⟩⟩
  · by_cases hah : a = x.kernel.runQueueHead
    · exact Or.inr (hah ▸ hheadq)
    · rw [Kernel.modify_of_ne _ _ _ hah, hstate a ha hah] at hs
      cases hs
  · by_contra hah
    have hah : a ≠ x.kernel.runQueueHead := fun heq => hah (heq.trans hcur.symm)
    rw [Kernel.modify_of_ne _ _ _ hah, hstate a ha hah] at hs
    cases hs
  · by_cases hph : p = x.kernel.runQueueHead
    · rw [Kernel.Runnable, hph, Kernel.modify_self]
      exact Or.inr rfl
    · rw [Kernel.Runnable, Kernel.modify_of_ne _ _ _ hph]
      exact Or.inl (hstate p (h.live.mem p hp) hph)

end Boot

/-- A kernel before its first process, with 24 free pages. -/
def bootKernel : Kernel where
  machine := ⟨fun _ => 0, mostUsed⟩
  heap := memInit fun _ => ⟨0, false, 0⟩
  pcb _ := queuedPcb 0 .ready 0
  processTable _ := 0
  currentProcess := 0
  nextPid := 0
  runQueueHead := 0
  runQueueTail := 0
  kernelPml4 := frameAddr 7
  iretToUsermode := 0

theorem bootKernel_initialised : bootKernel.Initialised :=
  ⟨⟨_, memInit_rep _⟩, fun _ => rfl, rfl, rfl, rfl, rfl⟩

/-- Idle is created, queued and started. -/
theorem idle_starts : ∃ x q s, BootStep ⟨bootKernel, [], []⟩ x ∧ x.BootOk q ∧ 0 ∈ x.added ∧
    schedulerStart x.kernel = .ok s := by
  obtain ⟨p, u, hcreate⟩ : ∃ p u, processCreate bootKernel (some []) 1 0 = .ok (p, u) := by
    have hok : ((processCreate bootKernel (some []) 1 0).toOption).isSome = true := by
      decide +kernel
    generalize processCreate bootKernel (some []) 1 0 = r at *
    cases r with
    | ok r => exact ⟨r.1, r.2, rfl⟩
    | error e => cases hok
  have hprep : Prepared u u p := ⟨rfl, rfl, rfl, rfl, rfl, rfl, fun _ _ => rfl, rfl, rfl, rfl⟩
  have he := processCreate_entered bootKernel_initialised.bootOk.live.table hcreate
  obtain ⟨v, hadd, -⟩ := schedulerAdd_requeued (s := u) ((he.mem p).mpr (Or.inl rfl)).1
  have hboot : BootStep ⟨bootKernel, [], []⟩ ⟨v, [] ++ [(u.pcb p).pid], []⟩ :=
    BootStep.add hcreate hprep hadd
  obtain ⟨q, hq⟩ := hboot.ok bootKernel_initialised.bootOk
  have hhead : v.runQueueHead ≠ 0 := by
    rw [Ne, hq.listed.queue.head_eq_zero]
    rintro rfl
    have hhistory := hq.listed.history
    rw [he.pid] at hhistory
    cases hhistory
  refine ⟨_, q, _, hboot, hq, ?_, if_neg hhead⟩
  dsimp only
  rw [he.pid]
  decide

end AcornOS
