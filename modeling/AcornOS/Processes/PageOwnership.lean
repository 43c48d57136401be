/-
# Every page has one owner, in every run

The routines of `Processes/Pages.lean` as the steps of a run, in any order and by any process, with
writes of the running process to its own pages and with scheduling in between.  `page_ownership` says
what holds in every state of every run.
-/
import AcornOS.Processes.Pages

namespace AcornOS

open Lib Relation

/-! ## 1. Steps that leave pages alone -/

/-- `SameSpaces s t`: no page, no PCB and no table entry has changed hands. -/
structure SameSpaces (s t : Kernel) : Prop where
  machine : t.machine = s.machine
  heap : t.heap = s.heap
  table : t.processTable = s.processTable
  kernelPml4 : t.kernelPml4 = s.kernelPml4
  pcb : ∀ q, SamePages (t.pcb q) (s.pcb q)

/-- The table and the pages are in order. -/
structure Kernel.Ok (s : Kernel) : Prop where
  table : s.TableOk
  pages : s.PagesOk

section Runs

variable {s t u : Kernel} {p : Nat}

theorem SameSpaces.refl (s : Kernel) : SameSpaces s s :=
  ⟨rfl, rfl, rfl, rfl, fun _ => ⟨rfl, rfl⟩⟩

theorem SameSpaces.trans (h : SameSpaces s t) (h' : SameSpaces t u) : SameSpaces s u :=
  ⟨h'.machine.trans h.machine, h'.heap.trans h.heap, h'.table.trans h.table,
    h'.kernelPml4.trans h.kernelPml4,
    fun q => ⟨(h'.pcb q).1.trans (h.pcb q).1, (h'.pcb q).2.trans (h.pcb q).2⟩⟩

theorem sameSpaces_modify {f : Process → Process} (hf : ∀ x, SamePages (f x) x) :
    SameSpaces s (s.modify p f) :=
  ⟨rfl, rfl, rfl, rfl, samePages_modify hf⟩

theorem Kernel.Ok.same (h : s.Ok) (hsame : SameSpaces s t) : t.Ok :=
  ⟨h.table.congr hsame.heap hsame.table,
    h.pages.same hsame.machine hsame.kernelPml4 hsame.table hsame.pcb⟩

theorem sameSpaces_wakeParent (s : Kernel) (pid : Nat) : SameSpaces s (wakeParent s pid) := by
  unfold wakeParent
  split
  · exact SameSpaces.refl s
  unfold processWake
  split
  · exact SameSpaces.refl s
  split
  · exact SameSpaces.refl s
  · exact sameSpaces_modify fun _ => ⟨rfl, rfl⟩

theorem sysExit_sameSpaces {rdi : BitVec 64} (h : sysExit s rdi = .ok t) : SameSpaces s t := by
  unfold sysExit at h
  split at h
  · cases h
  rw [← Except.ok.inj h]
  have hcode : SameSpaces s
      (s.modify s.currentProcess fun p => { p with exitCode := rdi.setWidth 32 }) :=
    sameSpaces_modify fun _ => ⟨rfl, rfl⟩
  refine hcode.trans ?_
  generalize s.modify s.currentProcess (fun p => { p with exitCode := rdi.setWidth 32 }) = u
  have hdead : SameSpaces u (processExit u u.currentProcess) := by
    unfold processExit
    split
    · exact SameSpaces.refl u
    · exact sameSpaces_modify fun _ => ⟨rfl, rfl⟩
  refine hdead.trans ?_
  generalize processExit u u.currentProcess = v
  split
  · exact sameSpaces_wakeParent v _
  · exact SameSpaces.refl v

theorem processBlock_sameSpaces (s : Kernel) (p : Nat) : SameSpaces s (processBlock s p) := by
  unfold processBlock
  split
  · exact SameSpaces.refl s
  · exact sameSpaces_modify fun _ => ⟨rfl, rfl⟩

theorem reap_ok {i : Nat} (h : s.Ok) (hi : i < maxProcesses) (hne : s.processTable i ≠ 0)
    (ht : reap s i = .ok t) : t.Ok := by
  obtain ⟨t', ht', hleft, hpages, -⟩ := reap_spec h.table h.pages hi hne
  obtain rfl : t' = t := Except.ok.inj (ht'.symm.trans ht)
  exact ⟨hleft.table, hpages⟩

theorem WaitRound.ok (h : s.Ok) (hround : WaitRound s t) : t.Ok := by
  cases hround with
  | reap hi hne _ hreap => exact reap_ok h hi hne hreap
  | block ht => exact ht ▸ h.same (processBlock_sameSpaces s _)
  | stay ht => exact ht ▸ h

theorem processFork_ok {pid : Nat} (h : s.Ok) (hcur : s.currentProcess ∈ s.processes)
    (ht : processFork s = .ok (pid, t)) : t.Ok := by
  obtain ⟨-, p, hjoin, hpages⟩ := (processFork_spec h.table h.pages hcur).of_ok ht
  exact ⟨hjoin.table, hpages⟩

theorem sysFork_ok {regs regs' : Registers} (h : s.Ok) (hcur : s.currentProcess ∈ s.processes)
    (ht : sysFork s regs = .ok (regs', t)) : t.Ok := by
  unfold sysFork at ht
  rw [if_neg hcur.1] at ht
  obtain ⟨⟨pid, u⟩, hu, ht⟩ := bind_eq_ok.mp ht
  rw [← (Prod.mk.inj (Except.ok.inj ht)).2]
  refine processFork_ok (h.same (sameSpaces_modify ?_)) hcur hu
  exact fun _ => ⟨rfl, rfl⟩

end Runs

/-! ## 2. Runs -/

/-- One step of a run.  `store` is a write of the running process to its kernel stack or to one of its
pages, `schedule` everything the kernel does meanwhile that leaves pages, table and PCB pointers
alone: scheduling, blocking and waking. -/
inductive ProcessStep : Kernel → Kernel → Prop
  | create {s t : Kernel} {name : Option (List (BitVec 8))} {entry flags p : Nat}
      (h : processCreate s name entry flags = .ok (p, t)) : ProcessStep s t
  | fork {s t : Kernel} {pid : Nat} (hcur : s.currentProcess ∈ s.processes)
      (h : processFork s = .ok (pid, t)) : ProcessStep s t
  | sysFork {s t : Kernel} {regs regs' : Registers} (hcur : s.currentProcess ∈ s.processes)
      (h : sysFork s regs = .ok (regs', t)) : ProcessStep s t
  | heapGrow {s t : Kernel} {increment rax : BitVec 64} (hcur : s.currentProcess ∈ s.processes)
      (h : sysHeapGrow s increment = .ok (rax, t)) (hend : t.current.heapEnd ≤ userStackPage) :
      ProcessStep s t
  | exit {s t : Kernel} {rdi : BitVec 64} (h : sysExit s rdi = .ok t) : ProcessStep s t
  | wait {s t : Kernel} {rax : Option (BitVec 64)} (h : sysWaitRound s = .ok (rax, t)) :
      ProcessStep s t
  | processWait {s t : Kernel} {pid : Nat} {done : Bool}
      (h : processWaitRound s pid = .ok (done, t)) : ProcessStep s t
  | store {s : Kernel} {f k v : Nat} (b : BitVec 8) (hcur : s.currentProcess ∈ s.processes)
      (hk : k < 4096) (hf : f = s.current.stackFrame ∨
        leaf s.machine.mem s.current.root v = some f) :
      ProcessStep s { s with machine := ⟨writeByte s.machine.mem f k b, s.machine.pmm⟩ }
  | schedule {s t : Kernel} (h : SameSpaces s t) : ProcessStep s t

/-- A write of a process to what it owns changes nobody's directory. -/
theorem Kernel.PagesOk.store {s : Kernel} {p f k v : Nat} (h : s.PagesOk) (hp : p ∈ s.processes)
    (hk : k < 4096) (b : BitVec 8)
    (hf : f = (s.pcb p).stackFrame ∨ leaf s.machine.mem (s.pcb p).root v = some f) :
    { s with machine := ⟨writeByte s.machine.mem f k b, s.machine.pmm⟩ : Kernel }.PagesOk := by
  have hok := h.procs p hp
  have howned : f ∈ (s.pcb p).owned s.machine.mem := by
    rcases hf with rfl | hf
    · exact Or.inl rfl
    · obtain ⟨rest, hperm⟩ := @leaf_split s.machine.mem (s.pcb p).root v
      rw [hf] at hperm
      exact Or.inr (Or.inr (hperm.mem_iff.mpr List.mem_cons_self))
  have honly := @onlyIn_writeByte s.machine.mem f k (h.wf.lt_of_used (h.used hp howned)) hk b
  generalize writeByte s.machine.mem f k b = m at *
  obtain ⟨htree, hdir⟩ : tree m 4 (s.pcb p).root = tree s.machine.mem 4 (s.pcb p).root ∧
      Dir ⟨m, s.machine.pmm⟩ (s.pcb p).root := by
    rcases hf with rfl | hf
    · refine hok.dir.keep (t := ⟨m, s.machine.pmm⟩) h.wf honly (fun q hq => ?_) hok.dir.used
      rintro rfl
      exact hok.stack_apart (List.mem_cons.mpr hq)
    · exact hok.dir.keep_page h.wf hf honly
  have hframes : frames m 4 (s.pcb p).root = frames s.machine.mem 4 (s.pcb p).root :=
    congrArg _ htree
  refine h.gain (N := ∅) (p := p) (Takes.refl _) (honly.mono ?_) rfl (fun q hq _ => ⟨hq, rfl, rfl⟩)
    ⟨hok.stack, hok.pageDir, hdir, ?_⟩ fun q hq => Or.inl ⟨hp, ?_⟩
  · rintro q rfl
    exact Or.inl ⟨hp, howned⟩
  · dsimp only
    rw [hframes]
    exact hok.stack_apart
  · rwa [Process.owned, ← hframes]

theorem ProcessStep.ok {s t : Kernel} (hstep : ProcessStep s t) (h : s.Ok) : t.Ok := by
  cases hstep with
  | create hok =>
    obtain ⟨hjoin, hpages⟩ := (processCreate_spec h.table h.pages _ _ _).of_ok hok
    exact ⟨hjoin.table, hpages⟩
  | fork hcur hok => exact processFork_ok h hcur hok
  | sysFork hcur hok => exact sysFork_ok h hcur hok
  | heapGrow hcur hok hend =>
    obtain ⟨hpages, hheap, htable⟩ := sysHeapGrow_pagesOk h.pages hcur hok hend
    exact ⟨h.table.congr hheap htable, hpages⟩
  | exit hok => exact h.same (sysExit_sameSpaces hok)
  | wait hok => exact (sysWaitRound_cases hok).ok h
  | processWait hok => exact (processWaitRound_cases hok).ok h
  | store b hcur hk hf => exact ⟨h.table.congr rfl rfl, h.pages.store hcur hk b hf⟩
  | schedule hsame => exact h.same hsame

/-- **Page ownership.**  Start with any processes whose directories are trees of used frames and
whose page sets are disjoint, and let them create, fork, grow, write, exit and wait in any order.  In
every state reached no two processes own the same frame and every frame that is owned is in use; and
when a process is reaped its frames are free, and the lower half of no other process maps one of
them. -/
theorem page_ownership (s₀ s : Kernel) (h₀ : s₀.Ok) (hrun : ReflTransGen ProcessStep s₀ s) :
    (∀ p ∈ s.processes, ∀ q ∈ s.processes, p ≠ q →
      Disjoint ((s.pcb p).owned s.machine.mem) ((s.pcb q).owned s.machine.mem)) ∧
    (∀ p ∈ s.processes, ∀ f ∈ (s.pcb p).owned s.machine.mem, s.machine.pmm.Used f) ∧
    ∀ i < maxProcesses, s.processTable i ≠ 0 → ∃ t, reap s i = .ok t ∧
      ∀ f ∈ (s.pcb (s.processTable i)).owned s.machine.mem,
        t.machine.pmm.bitmapTest f = true ∧
          ∀ p ∈ t.processes, f ∉ frames t.machine.mem 4 (t.pcb p).root := by
  have h : s.Ok := reach_invariant (I := Kernel.Ok) hrun h₀ fun _ _ ha hstep => hstep.ok ha
  refine ⟨fun p hp q hq hne => ?_, fun p hp f hf => h.pages.used hp hf, fun i hi hne => ?_⟩
  · exact h.pages.owns.disjoint (Kernel.some_mem_owners.mpr hp) (Kernel.some_mem_owners.mpr hq)
      (by simpa using hne)
  · obtain ⟨t, ht, -, hpages, hfreed⟩ := reap_spec h.table h.pages hi hne
    refine ⟨t, ht, fun f hf => ⟨hfreed f hf, fun p hp hmem => ?_⟩⟩
    have hused := (hpages.used hp (Or.inr (Or.inr hmem))).2
    rw [hfreed f hf] at hused
    cases hused

/-- A PCB that says no more than where its pages are. -/
def pcbWithPages (stack pageDir : Nat) : Process :=
  ⟨0, [], .running, CpuState.zero, frameAddr stack, frameAddr stack + 8 * 511, frameAddr pageDir, 10, 10,
    0, 0, 0, 0, 0, false, 0, 0, 0⟩

/-- The memory of `onePageMachine` with twelve pages in use. -/
def twelveUsed : Machine :=
  ⟨onePageMachine.mem, ⟨fun b => if b = 0 then 0xFF else if b = 1 then 0x0F else 0, 16, 12⟩⟩

/-- Two processes: one with the directory of `onePageMachine` and the stack in frame 6, one with an empty
directory in frame 8 and the stack in frame 9.  The kernel's PML4 is frame 7. -/
def twoProcesses (heap : KHeap) (table : Nat → Nat) (p : Nat) : Kernel where
  machine := twelveUsed
  heap := heap
  pcb a := if a = p then pcbWithPages 6 1 else pcbWithPages 9 8
  processTable := table
  currentProcess := p
  nextPid := 2
  runQueueHead := 0
  runQueueTail := 0
  kernelPml4 := frameAddr 7
  iretToUsermode := 0

theorem used_twelveUsed {f : Nat} (hf : f < 12) : twelveUsed.pmm.Used f := by
  refine ⟨Nat.lt_of_lt_of_le hf (by decide), ?_⟩
  interval_cases f <;> decide

theorem frames_twelveUsed :
    frames twelveUsed.mem 4 1 = [5, 4, 3, 2] ∧ frames twelveUsed.mem 4 8 = [] := by
  refine ⟨frames_onePageMachine, ?_⟩
  have hnil : tree onePageMachine.mem 4 8 = [] := nodes_eq_nil fun i hi => by
    refine kids_blank ?_
    rw [entry_onePageMachine (by decide) (hi.trans_le (levelWidth_le _)), if_neg (by omega)]
  exact congrArg _ hnil

theorem dir_twelveUsed {root : Nat} (hroot : root < 12)
    (hnodup : (root :: frames twelveUsed.mem 4 root).Nodup)
    (hlt : ∀ f ∈ frames twelveUsed.mem 4 root, f < 12) : Dir twelveUsed root := by
  refine ⟨hnodup, ?_, fun f hf i hi _ => ?_⟩
  · rintro f (rfl | hf)
    · exact used_twelveUsed hroot
    · exact used_twelveUsed (hlt f hf)
  · exact not_hugePage_onePageMachine (frames_lt (List.mem_map.mpr ⟨_, hf, rfl⟩)) hi

/-- The table with the two processes. -/
def twoSlots (p q : Nat) : Nat → Nat := Function.update (Function.update (fun _ => 0) 0 p) 1 q

section TwoProcesses

variable {heap heap' : KHeap} {p q : Nat} {memory : Headers}

/-- The two PCBs enter an empty table one after the other. -/
theorem twoProcesses_table (hp : kmalloc (memInit memory) sizeofProcess = .ok (p, heap'))
    (hq : kmalloc heap' sizeofProcess = .ok (q, heap)) :
    p ≠ q ∧ (∀ x, x ∈ (twoProcesses heap (twoSlots p q) p).processes ↔ x = q ∨ x = p) ∧
      (twoProcesses heap (twoSlots p q) p).TableOk := by
  have hempty : (twoProcesses (memInit memory) (fun _ => 0) p).TableOk := by
    refine ⟨⟨_, memInit_rep memory, ?_⟩, fun i j _ _ _ hne => absurd rfl hne⟩
    rintro x ⟨hx, i, -, rfl⟩
    exact absurd rfl hx
  have hone : (twoProcesses heap' (Function.update (fun _ => 0) 0 p) p).TableOk :=
    hempty.fill hp (by decide) rfl rfl rfl
  obtain ⟨hp0, -⟩ := hempty.kmalloc_fresh hp
  obtain ⟨hq0, hqfresh⟩ := hone.kmalloc_fresh hq
  have hmem : ∀ x,
      x ∈ (twoProcesses heap' (Function.update (fun _ => 0) 0 p) p).processes ↔ x = p := by
    intro x
    refine (mem_processes_fill (s := twoProcesses (memInit memory) (fun _ => 0) p) (i := 0)
      (by decide) rfl hp0 rfl).trans (or_iff_left ?_)
    rintro ⟨hx, i, -, rfl⟩
    exact hx rfl
  refine ⟨fun hpq => hqfresh ((hmem q).mpr hpq.symm), fun x => ?_,
    hone.fill hq (by decide) rfl rfl rfl⟩
  exact (mem_processes_fill (s := twoProcesses heap' (Function.update (fun _ => 0) 0 p) p) (i := 1)
    (by decide) rfl hq0 rfl).trans (or_congr_right (hmem x))

theorem twoProcesses_ok (hp : kmalloc (memInit memory) sizeofProcess = .ok (p, heap'))
    (hq : kmalloc heap' sizeofProcess = .ok (q, heap)) :
    (twoProcesses heap (twoSlots p q) p).Ok := by
  obtain ⟨hpq, hmem, htable⟩ := twoProcesses_table hp hq
  obtain ⟨hone, hblank⟩ := frames_twelveUsed
  have hdir1 : Dir twelveUsed 1 := by
    refine dir_twelveUsed (by decide) ?_ ?_
    · rw [hone]
      decide
    · rw [hone]
      decide
  have hdir8 : Dir twelveUsed 8 := by
    refine dir_twelveUsed (by decide) ?_ ?_
    · rw [hblank]
      decide
    · rw [hblank]
      simp
  have hwf : twelveUsed.Wf := ⟨⟨by decide, by decide⟩, by decide⟩
  have hframe : ∀ f < 12, virtualToPhysical (frameAddr f) / pageSize = f := fun f hf =>
    frame_of_addr (hf.trans (by decide))
  have hp' : (twoProcesses heap (twoSlots p q) p).pcb p = pcbWithPages 6 1 := if_pos rfl
  have hq' : (twoProcesses heap (twoSlots p q) p).pcb q = pcbWithPages 9 8 := if_neg hpq.symm
  have hpages : ∀ a b, a < 12 → b < 12 → Dir twelveUsed b → a ∉ b :: frames twelveUsed.mem 4 b →
      (pcbWithPages a b).PagesOk twelveUsed ∧ (pcbWithPages a b).owned twelveUsed.mem =
        {f | f = a ∨ f = b ∨ f ∈ frames twelveUsed.mem 4 b} := by
    intro a b ha hb hdir hapart
    have hstack : (pcbWithPages a b).stackFrame = a := hframe a ha
    have hroot : (pcbWithPages a b).root = b := hframe b hb
    refine ⟨⟨?_, ?_, ?_, ?_⟩, ?_⟩
    · rw [hstack]
      rfl
    · rw [hroot]
      rfl
    · rw [hroot]
      exact hdir
    · rw [hstack, hroot]
      exact hapart
    · rw [Process.owned, hstack, hroot]
  obtain ⟨hokp, hownp⟩ := hpages 6 1 (by decide) (by decide) hdir1 (by rw [hone]; decide)
  obtain ⟨hokq, hownq⟩ := hpages 9 8 (by decide) (by decide) hdir8 (by rw [hblank]; decide)
  have hroot : (twoProcesses heap (twoSlots p q) p).rootFrame = 7 := hframe 7 (by decide)
  -- the owner of each frame
  have howner : ∀ o ∈ (twoProcesses heap (twoSlots p q) p).owners,
      ∀ f ∈ (twoProcesses heap (twoSlots p q) p).owned o, f < 12 ∧
        (if f = 0 ∨ f = 7 then none else if f < 7 then some p else some q) = o := by
    rintro (_ | x) ho f hf
    · rw [Kernel.owned, hroot] at hf
      rcases hf with rfl | rfl
      · exact ⟨by decide, rfl⟩
      · exact ⟨by decide, rfl⟩
    · rcases (hmem x).mp (Kernel.some_mem_owners.mp ho) with rfl | rfl
      · have hf : f ∈ ((twoProcesses heap (twoSlots p x) p).pcb x).owned twelveUsed.mem := hf
        rw [hq', hownq, hblank] at hf
        rcases hf with rfl | rfl | hf
        · exact ⟨by decide, rfl⟩
        · exact ⟨by decide, rfl⟩
        · cases hf
      · have hf : f ∈ ((twoProcesses heap (twoSlots x q) x).pcb x).owned twelveUsed.mem := hf
        rw [hp', hownp, hone] at hf
        rcases hf with rfl | rfl | hf
        · exact ⟨by decide, rfl⟩
        · exact ⟨by decide, rfl⟩
        · fin_cases hf <;> exact ⟨by decide, rfl⟩
  refine ⟨htable, ⟨hwf, ?_, fun x hx => ?_, ?_, ?_⟩⟩
  · rw [hroot]
    rfl
  · rcases (hmem x).mp hx with rfl | rfl
    · rw [hq']
      exact hokq
    · rw [hp']
      exact hokp
  · exact fun o ho f hf => used_twelveUsed (howner o ho f hf).1
  · refine fun o ho o' ho' hne => Set.disjoint_left.mpr fun f hf hf' => hne ?_
    exact (howner o ho f hf).2.symm.trans (howner o' ho' f hf').2

end TwoProcesses

/-- One of two processes exits. -/
theorem page_ownership_two_processes : ∃ heap p q t,
    sysExit (twoProcesses heap (twoSlots p q) p) 3 = .ok t ∧ p ∈ t.processes ∧ q ∈ t.processes ∧
      p ≠ q ∧ Disjoint ((t.pcb p).owned t.machine.mem) ((t.pcb q).owned t.machine.mem) := by
  obtain ⟨p, heap', hp⟩ : ∃ p heap', kmalloc (memInit fun _ => ⟨0, false, 0⟩) sizeofProcess =
      .ok (p, heap') := ⟨_, _, rfl⟩
  obtain ⟨q, heap, hq⟩ : ∃ q heap, kmalloc heap' sizeofProcess = .ok (q, heap) := by
    obtain rfl := (Prod.mk.inj (Except.ok.inj hp)).2
    exact ⟨_, _, rfl⟩
  obtain ⟨hpq, hmem, -⟩ := twoProcesses_table hp hq
  have hp0 : p ≠ 0 := ((hmem p).mpr (Or.inr rfl)).1
  obtain ⟨t, ht⟩ : ∃ t, sysExit (twoProcesses heap (twoSlots p q) p) 3 = .ok t := by
    rw [sysExit, if_neg (show (twoProcesses heap (twoSlots p q) p).currentProcess ≠ 0 from hp0)]
    exact ⟨_, rfl⟩
  have hprocs : t.processes = (twoProcesses heap (twoSlots p q) p).processes := by
    unfold Kernel.processes
    rw [(sysExit_sameSpaces ht).table]
  have hpt : p ∈ t.processes := by rw [hprocs, hmem]; exact Or.inr rfl
  have hqt : q ∈ t.processes := by rw [hprocs, hmem]; exact Or.inl rfl
  obtain ⟨hdisj, -⟩ := page_ownership _ t (twoProcesses_ok hp hq)
    (ReflTransGen.single (ProcessStep.exit ht))
  exact ⟨heap, p, q, t, ht, hpt, hqt, hpq, hdisj p hpt q hqt hpq⟩

end AcornOS
