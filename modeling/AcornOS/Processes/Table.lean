/-
# The process table and its PCBs

What every routine of `Processes/Process.lean` relies on when it writes to a PCB: that no other
process shares it.

* `Kernel.TableOk`: the entries of the process table that are not NULL are the data of different
  blocks of the kernel heap, each large enough for a PCB.  `TableOk.fill` and `TableOk.clear` keep it
  when a process enters the table and when it leaves.
* `Requeued s t`: the run queue has changed, and nothing else.  `scheduler_add` and
  `scheduler_remove` walk and relink the queue; for everybody but the scheduler it is enough to know
  that they change `next` only.
-/
import AcornOS.Processes.Process

namespace AcornOS

open Lib
open scoped List

/-! ## 1. Searching the table -/

namespace Kernel

variable (s : Kernel) (p : Nat) (f : Process → Process)

@[simp] theorem modify_self : (s.modify p f).pcb p = f (s.pcb p) := Function.update_self ..

theorem modify_of_ne {q : Nat} (h : q ≠ p) : (s.modify p f).pcb q = s.pcb q :=
  Function.update_of_ne h ..

@[simp] theorem install_self (slot : Nat) (x : Process) (heap : KHeap) (machine : Machine) :
    (s.install slot p x heap machine).pcb p = x :=
  Function.update_self ..

@[simp] theorem modify_processTable : (s.modify p f).processTable = s.processTable := rfl

@[simp] theorem modify_currentProcess : (s.modify p f).currentProcess = s.currentProcess := rfl

end Kernel

/-- The PCBs in the process table. -/
def Kernel.processes (s : Kernel) : Set Nat :=
  {p | p ≠ 0 ∧ ∃ i < maxProcesses, s.processTable i = p}

section Slots

variable {s t : Kernel} {test : Nat → Bool} {i p : Nat}

theorem findSlot_eq_some (h : s.findSlot test = some i) :
    i < maxProcesses ∧ test (s.processTable i) = true := by
  have hi := List.mem_range.mp (List.mem_of_find?_eq_some h)
  have htest := @List.find?_some _ (fun i => test (s.processTable i)) _ _ h
  exact ⟨hi, htest⟩

theorem findSlot_eq_none (h : s.findSlot test = none) (hi : i < maxProcesses) :
    test (s.processTable i) = false :=
  Bool.eq_false_iff.mpr (List.find?_eq_none.mp h i (List.mem_range.mpr hi))

/-- `WaitRound s t`: what a round of waiting may do. -/
inductive WaitRound (s t : Kernel) : Prop
  | reap {i : Nat} (hi : i < maxProcesses) (hne : s.processTable i ≠ 0)
      (hdead : (s.pcb (s.processTable i)).state = .dead) (h : reap s i = .ok t)
  | block (h : t = processBlock s s.currentProcess)
  | stay (h : t = s)

/-- A dead process that was found is given back. -/
theorem waitRound_reap {parent : Nat → Bool} {α : Type} {a : α} {r : α × Kernel}
    (hi : s.findSlot (fun p => p != 0 && parent p && (s.pcb p).state == .dead) = some i)
    (h : (do let s ← reap s i; .ok (a, s) : Except Halt (α × Kernel)) = .ok r) : WaitRound s r.2 := by
  obtain ⟨hi, htest⟩ := findSlot_eq_some hi
  simp only [Bool.and_eq_true, bne_iff_ne, beq_iff_eq] at htest
  obtain ⟨u, hreap, h⟩ := bind_eq_ok.mp h
  obtain rfl := Except.ok.inj h
  exact .reap hi htest.1.1 htest.2 hreap

theorem sysWaitRound_cases {rax : Option (BitVec 64)} (h : sysWaitRound s = .ok (rax, t)) :
    WaitRound s t := by
  unfold sysWaitRound at h
  split at h
  · rename_i i hi
    exact waitRound_reap hi h
  · split at h
    · exact .block (Prod.mk.inj (Except.ok.inj h)).2.symm
    · exact .stay (Prod.mk.inj (Except.ok.inj h)).2.symm

theorem processWaitRound_cases {done : Bool} {pid : Nat} (h : processWaitRound s pid = .ok (done, t)) :
    WaitRound s t := by
  unfold processWaitRound at h
  split at h
  · exact .stay (Prod.mk.inj (Except.ok.inj h)).2.symm
  split at h
  · rename_i i hi
    exact waitRound_reap hi h
  · exact .block (Prod.mk.inj (Except.ok.inj h)).2.symm

theorem freeSlot_eq_some (h : s.freeSlot = some i) :
    i < maxProcesses ∧ s.processTable i = 0 := by
  obtain ⟨hi, h0⟩ := findSlot_eq_some h
  exact ⟨hi, beq_iff_eq.mp h0⟩

theorem mem_processes (hi : i < maxProcesses) (hp : s.processTable i ≠ 0) :
    s.processTable i ∈ s.processes :=
  ⟨hp, i, hi, rfl⟩

/-- There are not more processes than slots. -/
theorem length_le_maxProcesses {q : List Nat} (hmem : ∀ p ∈ q, p ∈ s.processes) (hnodup : q.Nodup) :
    q.length ≤ maxProcesses := by
  have hsub : q.toFinset ⊆ (Finset.range maxProcesses).image s.processTable := by
    intro p hp
    obtain ⟨-, i, hi, rfl⟩ := hmem p (List.mem_toFinset.mp hp)
    exact Finset.mem_image.mpr ⟨i, Finset.mem_range.mpr hi, rfl⟩
  calc q.length = q.toFinset.card := (List.toFinset_card_of_nodup hnodup).symm
    _ ≤ ((Finset.range maxProcesses).image s.processTable).card := Finset.card_le_card hsub
    _ ≤ maxProcesses := Finset.card_image_le.trans (Finset.card_range _).le

/-- Filling an empty slot. -/
theorem mem_processes_fill (hi : i < maxProcesses) (hfree : s.processTable i = 0) (hp : p ≠ 0)
    (ht : t.processTable = Function.update s.processTable i p) {q : Nat} :
    q ∈ t.processes ↔ q = p ∨ q ∈ s.processes := by
  constructor
  · rintro ⟨hq, j, hj, rfl⟩
    rw [ht] at hq ⊢
    by_cases hji : j = i
    · rw [hji, Function.update_self]
      exact Or.inl rfl
    · rw [Function.update_of_ne hji] at hq ⊢
      exact Or.inr ⟨hq, j, hj, rfl⟩
  · rintro (rfl | ⟨hq, j, hj, rfl⟩)
    · exact ⟨hp, i, hi, by rw [ht, Function.update_self]⟩
    · refine ⟨hq, j, hj, ?_⟩
      rw [ht, Function.update_of_ne]
      rintro rfl
      exact hq hfree

end Slots

/-! ## 2. The table's PCBs are blocks of the heap -/

/-- Every process in the table has a PCB of its own. -/
structure Kernel.TableOk (s : Kernel) : Prop where
  heap : ∃ bs, Rep s.heap bs ∧ ∀ p ∈ s.processes,
    ∃ n, sizeofProcess ≤ n ∧ DataRegion headerSize heapStart bs p n
  slots : ∀ i j, i < maxProcesses → j < maxProcesses → s.processTable i = s.processTable j →
    s.processTable i ≠ 0 → i = j

section Table

variable {s t : Kernel} {i p : Nat} {heap : KHeap}

/-- The table is all that matters. -/
theorem Kernel.TableOk.congr (h : s.TableOk) (hheap : t.heap = s.heap)
    (htable : t.processTable = s.processTable) : t.TableOk := by
  have hprocs : t.processes = s.processes := by
    unfold Kernel.processes
    rw [htable]
  refine ⟨?_, ?_⟩
  · rw [hheap, hprocs]
    exact h.heap
  · rw [htable]
    exact h.slots

/-- Emptying a slot. -/
theorem Kernel.TableOk.mem_clear (h : s.TableOk) (hi : i < maxProcesses)
    (ht : t.processTable = Function.update s.processTable i 0) {q : Nat} :
    q ∈ t.processes ↔ q ≠ s.processTable i ∧ q ∈ s.processes := by
  constructor
  · rintro ⟨hq, j, hj, rfl⟩
    have hji : j ≠ i := by
      rintro rfl
      rw [ht, Function.update_self] at hq
      exact hq rfl
    rw [ht, Function.update_of_ne hji] at hq ⊢
    exact ⟨fun heq => hji (h.slots j i hj hi heq hq), hq, j, hj, rfl⟩
  · rintro ⟨hne, hq, j, hj, rfl⟩
    refine ⟨hq, j, hj, ?_⟩
    rw [ht, Function.update_of_ne]
    rintro rfl
    exact hne rfl

/-- **`kmalloc` of a PCB** returns one that no process has. -/
theorem Kernel.TableOk.kmalloc_fresh (h : s.TableOk)
    (hok : kmalloc s.heap sizeofProcess = .ok (p, heap)) : p ≠ 0 ∧ p ∉ s.processes := by
  obtain ⟨bs, hrep, hpcb⟩ := h.heap
  obtain ⟨bs', x, n, -, hp, -, hperm⟩ := (kmalloc_spec hrep).of_ok hok
  simp only at hp
  have hnodup : ((inUse headerSize heapStart bs').map Prod.fst).Nodup :=
    inUse_nodup headerSize_pos heapStart bs'
  have hfresh := (List.nodup_cons.mp ((hperm.map Prod.fst).nodup_iff.mp hnodup)).1
  refine ⟨?_, fun hmem => ?_⟩
  · have := headerSize_pos
    omega
  · obtain ⟨m, -, y, hy, hpy⟩ := hpcb p hmem
    have hxy : x = y := by omega
    exact hfresh (List.mem_map.mpr ⟨(y, m), hy, hxy.symm⟩)

/-- A process enters the table. -/
theorem Kernel.TableOk.fill (h : s.TableOk) (hok : kmalloc s.heap sizeofProcess = .ok (p, heap))
    (hi : i < maxProcesses) (hfree : s.processTable i = 0) (hheap : t.heap = heap)
    (ht : t.processTable = Function.update s.processTable i p) : t.TableOk := by
  obtain ⟨hp0, hpnot⟩ := h.kmalloc_fresh hok
  have hprocs := fun q => @mem_processes_fill s t i p hi hfree hp0 ht q
  refine ⟨?_, fun j k hj hk heq hne => ?_⟩
  · obtain ⟨bs, hrep, hpcb⟩ := h.heap
    obtain ⟨bs', x, n, hrep', hp, hn, hperm⟩ := (kmalloc_spec hrep).of_ok hok
    simp only at hrep' hp
    refine ⟨bs', hheap ▸ hrep', fun q hq => ?_⟩
    rcases (hprocs q).mp hq with rfl | hq
    · exact ⟨n, hn, x, hperm.mem_iff.mpr List.mem_cons_self, hp⟩
    · obtain ⟨m, hm, y, hy, hqy⟩ := hpcb q hq
      exact ⟨m, hm, y, hperm.mem_iff.mpr (List.mem_cons_of_mem _ hy), hqy⟩
  · rw [ht] at heq hne
    have hold : ∀ j < maxProcesses, j ≠ i → s.processTable j ≠ p := by
      rintro j hj hji rfl
      exact hpnot (mem_processes hj hp0)
    by_cases hji : j = i
    · by_cases hki : k = i
      · rw [hji, hki]
      · rw [hji, Function.update_self, Function.update_of_ne hki] at heq
        exact absurd heq.symm (hold k hk hki)
    · rw [Function.update_of_ne hji] at heq hne
      by_cases hki : k = i
      · rw [hki, Function.update_self] at heq
        exact absurd heq (hold j hj hji)
      · rw [Function.update_of_ne hki] at heq
        exact h.slots j k hj hk heq hne

/-- **`kfree` of a PCB** in the table always succeeds, and its process leaves the table. -/
theorem Kernel.TableOk.clear (h : s.TableOk) (hi : i < maxProcesses)
    (hne : s.processTable i ≠ 0) : ∃ heap, kfree s.heap (s.processTable i) = .ok heap ∧
      ∀ t : Kernel, t.heap = heap → t.processTable = Function.update s.processTable i 0 →
        t.TableOk := by
  obtain ⟨bs, hrep, hpcb⟩ := h.heap
  obtain ⟨n, hn, x, hx, hpx⟩ := hpcb _ (mem_processes hi hne)
  obtain ⟨heap, bs', hok, hrep', hperm⟩ := kfree_spec hrep hx
  refine ⟨heap, hpx ▸ hok, fun t hheap ht => ⟨⟨bs', hheap ▸ hrep', fun q hq => ?_⟩, ?_⟩⟩
  · obtain ⟨hqi, hq⟩ := (h.mem_clear hi ht).mp hq
    obtain ⟨m, hm, y, hy, hqy⟩ := hpcb q hq
    refine ⟨m, hm, y, ?_, hqy⟩
    rcases List.mem_cons.mp (hperm.mem_iff.mp hy) with heq | hy
    · rw [hpx, hqy, (Prod.mk.inj heq).1] at hqi
      exact absurd rfl hqi
    · exact hy
  · intro j k hj hk heq hjne
    have hlive : ∀ j, t.processTable j ≠ 0 → j ≠ i ∧ t.processTable j = s.processTable j := by
      intro j hj0
      have hji : j ≠ i := by
        rintro rfl
        rw [ht, Function.update_self] at hj0
        exact hj0 rfl
      exact ⟨hji, by rw [ht, Function.update_of_ne hji]⟩
    obtain ⟨-, hj'⟩ := hlive j hjne
    obtain ⟨-, hk'⟩ := hlive k (heq ▸ hjne)
    rw [hj', hk'] at heq
    exact h.slots j k hj hk heq (hj' ▸ hjne)

end Table

/-- `Joined s t p parent`: a process has joined the table, with a PCB that was nobody's and the next
PID; the other PCBs are the same but for the run queue. -/
structure Joined (s t : Kernel) (p parent : Nat) : Prop where
  table : t.TableOk
  mem : ∀ q, q ∈ t.processes ↔ q = p ∨ q ∈ s.processes
  fresh : p ∉ s.processes
  pid : (t.pcb p).pid = s.nextPid
  parentPid : (t.pcb p).parentPid = parent
  state : (t.pcb p).state = .ready
  others : ∀ q, q ≠ p → ∃ n, t.pcb q = { s.pcb q with next := n }
  nextPid : t.nextPid = s.nextPid + 1
  current : t.currentProcess = s.currentProcess

/-- `Left s t p`: a process has left the table; the PCBs are the same but for the run queue. -/
structure Left (s t : Kernel) (p : Nat) : Prop where
  table : t.TableOk
  mem : ∀ q, q ∈ t.processes ↔ q ≠ p ∧ q ∈ s.processes
  pcb : ∀ q, ∃ n, t.pcb q = { s.pcb q with next := n }
  nextPid : t.nextPid = s.nextPid
  current : t.currentProcess = s.currentProcess

theorem Kernel.TableOk.install {s : Kernel} {p i : Nat} {heap : KHeap} {x : Process}
    {machine : Machine} (h : s.TableOk) (hok : kmalloc s.heap sizeofProcess = .ok (p, heap))
    (hslot : s.freeSlot = some i) (hpid : x.pid = s.nextPid) (hstate : x.state = .ready) :
    Joined s (s.install i p x heap machine) p x.parentPid := by
  obtain ⟨hi, hfree⟩ := freeSlot_eq_some hslot
  obtain ⟨hp0, hfresh⟩ := h.kmalloc_fresh hok
  have hp : (s.install i p x heap machine).pcb p = x := Function.update_self ..
  refine ⟨h.fill hok hi hfree rfl rfl, fun q => mem_processes_fill hi hfree hp0 rfl, hfresh,
    by rw [hp, hpid], by rw [hp], by rw [hp, hstate], fun q hq => ⟨(s.pcb q).next, ?_⟩, rfl, rfl⟩
  exact Function.update_of_ne hq ..

/-! ## 3. The run queue -/

/-- `Requeued s t`: only the run queue has changed. -/
structure Requeued (s t : Kernel) : Prop where
  machine : t.machine = s.machine
  heap : t.heap = s.heap
  table : t.processTable = s.processTable
  current : t.currentProcess = s.currentProcess
  nextPid : t.nextPid = s.nextPid
  kernelPml4 : t.kernelPml4 = s.kernelPml4
  iret : t.iretToUsermode = s.iretToUsermode
  pcb : ∀ p, ∃ n, t.pcb p = { s.pcb p with next := n }

section Queue

variable {s t u : Kernel} {p : Nat}

theorem Requeued.refl (s : Kernel) : Requeued s s :=
  ⟨rfl, rfl, rfl, rfl, rfl, rfl, rfl, fun p => ⟨(s.pcb p).next, rfl⟩⟩

theorem Requeued.trans (h : Requeued s t) (h' : Requeued t u) : Requeued s u where
  machine := h'.machine.trans h.machine
  heap := h'.heap.trans h.heap
  table := h'.table.trans h.table
  current := h'.current.trans h.current
  nextPid := h'.nextPid.trans h.nextPid
  kernelPml4 := h'.kernelPml4.trans h.kernelPml4
  iret := h'.iret.trans h.iret
  pcb p := by
    obtain ⟨n, hn⟩ := h.pcb p
    obtain ⟨k, hk⟩ := h'.pcb p
    exact ⟨k, by rw [hk, hn]⟩

/-- Linking a PCB to another. -/
theorem requeued_setNext (s : Kernel) (p n : Nat) :
    Requeued s (s.modify p fun x => { x with next := n }) := by
  refine ⟨rfl, rfl, rfl, rfl, rfl, rfl, rfl, fun q => ?_⟩
  by_cases hq : q = p
  · subst hq
    exact ⟨n, Kernel.modify_self ..⟩
  · exact ⟨(s.pcb q).next, Kernel.modify_of_ne _ _ _ hq⟩

/-- Moving the ends of the queue. -/
theorem requeued_setEnds (s : Kernel) (head tail : Nat) :
    Requeued s { s with runQueueHead := head, runQueueTail := tail } :=
  ⟨rfl, rfl, rfl, rfl, rfl, rfl, rfl, fun p => ⟨(s.pcb p).next, rfl⟩⟩

/-- `scheduler_add` makes the process READY and links it in. -/
theorem schedulerAdd_requeued (hp : p ≠ 0) : ∃ t, schedulerAdd s p = .ok t ∧
    Requeued (s.modify p fun x => { x with state := .ready }) t := by
  have hready : Requeued (s.modify p fun x => { x with state := .ready })
      (s.modify p fun x => { x with state := .ready, next := 0 }) := by
    have := requeued_setNext (s.modify p fun x => { x with state := .ready }) p 0
    simpa only [Kernel.modify, Function.update_self, Function.update_idem] using this
  unfold schedulerAdd
  rw [if_neg hp]
  by_cases hhead : (s.modify p fun x => { x with state := .ready, next := 0 }).runQueueHead = 0
  · simp only [if_pos hhead]
    exact ⟨_, rfl, (hready.trans (requeued_setNext _ _ _)).trans (requeued_setEnds _ p p)⟩
  · simp only [if_neg hhead]
    refine ⟨_, rfl, ((hready.trans (requeued_setNext _ _ _)).trans
      (requeued_setNext _ _ _)).trans (requeued_setEnds _ _ p)⟩

theorem removeFrom_requeued (s : Kernel) (proc : Nat) : ∀ n prev node,
    Requeued s (removeFrom s proc n prev node)
  | 0, _, _ => Requeued.refl s
  | n + 1, prev, node => by
    rw [removeFrom]
    split
    · refine (requeued_setNext s prev (s.pcb node).next).trans ?_
      generalize s.modify prev _ = u
      simp only
      split
      · refine (requeued_setEnds u (u.pcb node).next u.runQueueTail).trans ?_
        split
        · exact requeued_setEnds _ _ prev
        · exact Requeued.refl _
      · split
        · exact requeued_setEnds _ _ prev
        · exact Requeued.refl _
    · exact removeFrom_requeued s proc n node _

/-- `scheduler_remove` relinks the queue. -/
theorem schedulerRemove_requeued (s : Kernel) (proc : Nat) :
    Requeued s (schedulerRemove s proc) := by
  unfold schedulerRemove
  split
  · exact Requeued.refl s
  · split
    · exact requeued_setEnds s 0 0
    · exact removeFrom_requeued s proc _ _ _

/-- A process that joins the table and then the queue. -/
theorem Joined.requeue {parent : Nat} (h : Joined s t p parent)
    (hr : Requeued (t.modify p fun x => { x with state := .ready }) u) : Joined s u p parent := by
  have hprocs : u.processes = t.processes := by
    unfold Kernel.processes
    rw [hr.table]
    rfl
  obtain ⟨k, hk⟩ := hr.pcb p
  rw [Kernel.modify_self] at hk
  refine ⟨h.table.congr hr.heap hr.table, fun q => ?_, h.fresh, ?_, ?_, ?_, fun q hq => ?_, ?_, ?_⟩
  · rw [hprocs]
    exact h.mem q
  · rw [hk]
    exact h.pid
  · rw [hk]
    exact h.parentPid
  · rw [hk]
  · obtain ⟨n, hn⟩ := h.others q hq
    obtain ⟨n', hn'⟩ := hr.pcb q
    refine ⟨n', ?_⟩
    rw [hn', Kernel.modify_of_ne _ _ _ hq, hn]
  · exact hr.nextPid.trans h.nextPid
  · exact hr.current.trans h.current

end Queue

end AcornOS
