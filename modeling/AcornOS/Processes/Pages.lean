/-
# The pages of processes

A process owns the page of its kernel stack and the frames of its directory: the PML4, the tables of
the lower half and the 4KB pages these map.  Nothing in the kernel records this.  The page allocator
only knows which pages are in use, and `process_create`, `process_fork`, `sys_heap_grow` and the
reaping of a dead child take, map, copy and free pages each in its own way.

* `Kernel.PagesOk`: the directories are trees of used frames, and no frame has two owners.  The
  kernel counts as an owner too, of page 0 and of its PML4, which every new directory copies.
* `PagesOk.gain` and `PagesOk.lose`: the two ways pages change hands (`Lib/Ownership.lean`), with
  what is known about memory meanwhile.  Each routine is an instance of one of them, and has its
  specification here (`processCreate_spec`, `processFork_spec`, `sysHeapGrow_pagesOk`, `reap_spec`).

A page that `sys_heap_grow` maps over is lost: it stays in use and nobody has it.
-/
import AcornOS.Lib.Ownership
import AcornOS.Arch.Mapping
import AcornOS.Processes.Table

namespace AcornOS

open Lib
open scoped List

/-! ## 1. What a process owns -/

/-- The frame of a process's kernel stack. -/
def Process.stackFrame (p : Process) : Nat := virtualToPhysical p.stack / pageSize

/-- The frame of a process's PML4. -/
def Process.root (p : Process) : Nat := virtualToPhysical p.pageDir / pageSize

/-- The frames of a process. -/
def Process.owned (m : Memory) (p : Process) : Set Nat :=
  {q | q = p.stackFrame ∨ q = p.root ∨ q ∈ frames m 4 p.root}

/-- The pages that the reaping of a process gives back, in that order. -/
def Process.freed (m : Memory) (p : Process) : List Nat :=
  frames m 4 p.root ++ [p.root] ++ [p.stackFrame]

theorem Process.mem_freed {m : Memory} {p : Process} {f : Nat} :
    f ∈ p.freed m ↔ f ∈ p.owned m := by
  rw [Process.freed, List.mem_append, List.mem_append, List.mem_singleton, List.mem_singleton]
  constructor
  · rintro ((hf | hf) | hf)
    · exact Or.inr (Or.inr hf)
    · exact Or.inr (Or.inl hf)
    · exact Or.inl hf
  · rintro (hf | hf | hf)
    · exact Or.inr hf
    · exact Or.inl (Or.inr hf)
    · exact Or.inl (Or.inl hf)

/-- A process's stack is a page, and its directory one that can be written in place. -/
structure Process.PagesOk (s : Machine) (p : Process) : Prop where
  stack : p.stack = frameAddr p.stackFrame
  pageDir : p.pageDir = frameAddr p.root
  dir : Dir s p.root
  stack_apart : p.stackFrame ∉ p.root :: frames s.mem 4 p.root

/-- The frame of the kernel's PML4. -/
def Kernel.rootFrame (s : Kernel) : Nat := virtualToPhysical s.kernelPml4 / pageSize

/-- The owners: the kernel, and the processes in the table. -/
def Kernel.owners (s : Kernel) : Set (Option Nat) := {o | ∀ p, o = some p → p ∈ s.processes}

/-- What each of them owns. -/
def Kernel.owned (s : Kernel) : Option Nat → Set Nat
  | none => {0, s.rootFrame}
  | some p => (s.pcb p).owned s.machine.mem

/-- Every page has at most one owner, and is in use if it has one. -/
structure Kernel.PagesOk (s : Kernel) : Prop where
  wf : s.machine.Wf
  kernel : s.kernelPml4 = frameAddr s.rootFrame
  procs : ∀ p ∈ s.processes, (s.pcb p).PagesOk s.machine
  owns : Owns {q | s.machine.pmm.Used q} s.owners s.owned

/-- The two fields that say what a process owns. -/
def SamePages (p q : Process) : Prop := p.stack = q.stack ∧ p.pageDir = q.pageDir

section Pages

variable {s t : Machine} {p q : Process} {X : Set Nat}

theorem SamePages.stackFrame_eq (h : SamePages p q) : p.stackFrame = q.stackFrame := by
  rw [Process.stackFrame, Process.stackFrame, h.1]

theorem SamePages.root_eq (h : SamePages p q) : p.root = q.root := by
  rw [Process.root, Process.root, h.2]

theorem SamePages.owned_eq (h : SamePages p q) (m : Memory) : p.owned m = q.owned m := by
  rw [Process.owned, Process.owned, h.stackFrame_eq, h.root_eq]

theorem SamePages.pagesOk (h : SamePages p q) (hq : q.PagesOk s) : p.PagesOk s := by
  refine ⟨?_, ?_, ?_, ?_⟩
  · rw [h.1, h.stackFrame_eq]
    exact hq.stack
  · rw [h.2, h.root_eq]
    exact hq.pageDir
  · rw [h.root_eq]
    exact hq.dir
  · rw [h.stackFrame_eq, h.root_eq]
    exact hq.stack_apart

theorem SamePages.of_next {x y : Process} {n : Nat} (h : x = { y with next := n }) :
    SamePages x y := by
  rw [h]
  exact ⟨rfl, rfl⟩

/-- Writing other fields of a PCB. -/
theorem samePages_modify {s : Kernel} {p : Nat} {f : Process → Process}
    (hf : ∀ x, SamePages (f x) x) (q : Nat) : SamePages ((s.modify p f).pcb q) (s.pcb q) := by
  by_cases hq : q = p
  · subst hq
    rw [Kernel.modify_self]
    exact hf _
  · rw [Kernel.modify_of_ne _ _ _ hq]
    exact ⟨rfl, rfl⟩

/-- The frame behind a stack or a directory pointer. -/
theorem frame_of_addr {f : Nat} (hf : f < 2 ^ 40) :
    virtualToPhysical (frameAddr f) / pageSize = f := by
  rw [virtualToPhysical_frameAddr hf, Nat.mul_div_cancel _ (by decide)]

/-- A process is not affected by what happens to other frames. -/
theorem Process.PagesOk.keep (h : p.PagesOk s) (hs : s.Wf) (honly : OnlyIn s.mem t.mem X)
    (hX : ∀ f ∈ p.owned s.mem, f ∉ X) (hused : ∀ f ∈ p.owned s.mem, t.pmm.Used f) :
    p.PagesOk t ∧ p.owned t.mem = p.owned s.mem := by
  have hmem : ∀ f, f = p.root ∨ f ∈ frames s.mem 4 p.root → f ∈ p.owned s.mem := fun f hf => Or.inr hf
  obtain ⟨htree, hdir⟩ := h.dir.keep hs honly (fun f hf => hX f (hmem f hf)) fun f hf =>
    hused f (hmem f hf)
  have hframes : frames t.mem 4 p.root = frames s.mem 4 p.root := congrArg _ htree
  refine ⟨⟨h.stack, h.pageDir, hdir, ?_⟩, ?_⟩
  · rw [hframes]
    exact h.stack_apart
  · rw [Process.owned, Process.owned, hframes]

end Pages

section Changes

variable {s t : Kernel} {p : Nat} {N : Finset Nat}

theorem Kernel.some_mem_owners : some p ∈ s.owners ↔ p ∈ s.processes := by
  constructor
  · exact fun h => h p rfl
  · rintro h q hq
    rw [← Option.some.inj hq]
    exact h

theorem Kernel.none_mem_owners : none ∈ s.owners := fun _ h => nomatch h

theorem Kernel.PagesOk.used (h : s.PagesOk) (hp : p ∈ s.processes) {f : Nat}
    (hf : f ∈ (s.pcb p).owned s.machine.mem) : s.machine.pmm.Used f :=
  h.owns.used (some p) (Kernel.some_mem_owners.mpr hp) hf

/-- Page 0 is the kernel's. -/
theorem Kernel.PagesOk.pos (h : s.PagesOk) (hp : p ∈ s.processes) {f : Nat}
    (hf : f ∈ (s.pcb p).owned s.machine.mem) : 0 < f := by
  refine Nat.pos_of_ne_zero ?_
  rintro rfl
  exact h.owns.notMem Kernel.none_mem_owners (Kernel.some_mem_owners.mpr hp) (by simp)
    (Set.mem_insert 0 _) hf

theorem Kernel.PagesOk.rootFrame_used (h : s.PagesOk) : s.machine.pmm.Used s.rootFrame :=
  h.owns.used none Kernel.none_mem_owners (Set.mem_insert_of_mem 0 rfl)

/-- **A process takes pages.**  Memory may change in these and in those it had. -/
theorem Kernel.PagesOk.gain (h : s.PagesOk) (htakes : Takes s.machine.pmm t.machine.pmm N)
    (honly : OnlyIn s.machine.mem t.machine.mem
      {f | (p ∈ s.processes ∧ f ∈ (s.pcb p).owned s.machine.mem) ∨ f ∈ N})
    (hkernel : t.kernelPml4 = s.kernelPml4)
    (hothers : ∀ q ∈ t.processes, q ≠ p → q ∈ s.processes ∧ SamePages (t.pcb q) (s.pcb q))
    (hp : (t.pcb p).PagesOk t.machine)
    (hown : ∀ f ∈ (t.pcb p).owned t.machine.mem,
      p ∈ s.processes ∧ f ∈ (s.pcb p).owned s.machine.mem ∨ f ∈ N) : t.PagesOk := by
  have hroot : t.rootFrame = s.rootFrame := by rw [Kernel.rootFrame, Kernel.rootFrame, hkernel]
  have hN : ∀ f ∈ (N : Set Nat), f ∉ {q | s.machine.pmm.Used q} := fun f hf hu =>
    htakes.notMem_of_test hu.2 hf
  -- the other processes do not notice
  have hkeep : ∀ q ∈ t.processes, q ≠ p → (t.pcb q).PagesOk t.machine ∧
      (t.pcb q).owned t.machine.mem = (s.pcb q).owned s.machine.mem := by
    intro q hq hqp
    obtain ⟨hqs, hsame⟩ := hothers q hq hqp
    have hapart : ∀ f ∈ (s.pcb q).owned s.machine.mem,
        f ∉ {f | (p ∈ s.processes ∧ f ∈ (s.pcb p).owned s.machine.mem) ∨ f ∈ N} := by
      rintro f hf (⟨hps, hfp⟩ | hfN)
      · exact h.owns.notMem (Kernel.some_mem_owners.mpr hqs) (Kernel.some_mem_owners.mpr hps)
          (by simpa using hqp) hf hfp
      · exact hN f hfN (h.used hqs hf)
    obtain ⟨hok, howned⟩ := (h.procs q hqs).keep (t := t.machine) h.wf honly hapart fun f hf =>
      (h.used hqs hf).of_takes htakes
    refine ⟨hsame.pagesOk hok, ?_⟩
    rw [hsame.owned_eq, howned]
  refine ⟨h.wf.of_takes htakes, ?_, fun q hq => ?_, ?_⟩
  · rw [hkernel, hroot]
    exact h.kernel
  · by_cases hqp : q = p
    · rw [hqp]
      exact hp
    · exact (hkeep q hq hqp).1
  · refine @Owns.gain _ _ _ _ _ _ _ _ (some p) h.owns (N : Set Nat) hN ?_ ?_ ?_
    · rintro f (hf | hf)
      · exact hf.of_takes htakes
      · exact htakes.used_of_mem hf
    · rintro (_ | q) hq hqp
      · refine ⟨Kernel.none_mem_owners, ?_⟩
        rw [Kernel.owned, Kernel.owned, hroot]
      · have hq := Kernel.some_mem_owners.mp hq
        have hqp : q ≠ p := fun heq => hqp (by rw [heq])
        exact ⟨Kernel.some_mem_owners.mpr (hothers q hq hqp).1, (hkeep q hq hqp).2.subset⟩
    · intro f hf
      rcases hown f hf with ⟨hps, hf⟩ | hf
      · exact Or.inl ⟨Kernel.some_mem_owners.mpr hps, hf⟩
      · exact Or.inr hf

/-- **A process leaves**, and its pages are freed. -/
theorem Kernel.PagesOk.lose (h : s.PagesOk) (hp : p ∈ s.processes)
    (hmem : t.machine.mem = s.machine.mem)
    (htotal : t.machine.pmm.totalPages = s.machine.pmm.totalPages)
    (htest : ∀ f ∉ (s.pcb p).owned s.machine.mem,
      t.machine.pmm.bitmapTest f = s.machine.pmm.bitmapTest f)
    (hkernel : t.kernelPml4 = s.kernelPml4)
    (hothers : ∀ q ∈ t.processes, q ≠ p ∧ q ∈ s.processes ∧ SamePages (t.pcb q) (s.pcb q)) :
    t.PagesOk := by
  have hroot : t.rootFrame = s.rootFrame := by rw [Kernel.rootFrame, Kernel.rootFrame, hkernel]
  have hused : ∀ f ∉ (s.pcb p).owned s.machine.mem, s.machine.pmm.Used f →
      t.machine.pmm.Used f := by
    intro f hf hu
    exact ⟨htotal ▸ hu.1, (htest f hf).trans hu.2⟩
  have hzero : 0 ∉ (s.pcb p).owned s.machine.mem := fun h0 => Nat.lt_irrefl 0 (h.pos hp h0)
  have hkeep : ∀ q ∈ t.processes, (t.pcb q).PagesOk t.machine ∧
      (t.pcb q).owned t.machine.mem = (s.pcb q).owned s.machine.mem := by
    intro q hq
    obtain ⟨hqp, hqs, hsame⟩ := hothers q hq
    have honly : OnlyIn s.machine.mem t.machine.mem ∅ := hmem ▸ OnlyIn.refl _ _
    obtain ⟨hok, howned⟩ := (h.procs q hqs).keep (t := t.machine) h.wf honly (fun _ _ => id)
      fun f hf => hused f (h.owns.notMem (Kernel.some_mem_owners.mpr hqs)
        (Kernel.some_mem_owners.mpr hp) (by simpa using hqp) hf) (h.used hqs hf)
    refine ⟨hsame.pagesOk hok, ?_⟩
    rw [hsame.owned_eq, howned]
  refine ⟨⟨⟨?_, ?_⟩, ?_⟩, ?_, fun q hq => (hkeep q hq).1, ?_⟩
  · rw [htotal]
    exact h.wf.pmm.total_le
  · rw [htest 0 hzero]
    exact h.wf.pmm.zero_used
  · rw [htotal]
    exact h.wf.ram
  · rw [hkernel, hroot]
    exact h.kernel
  · refine h.owns.lose (Kernel.some_mem_owners.mpr hp) (fun f hu hf => hused f hf hu) ?_
    rintro (_ | q) hq
    · refine ⟨by simp, Kernel.none_mem_owners, ?_⟩
      rw [Kernel.owned, Kernel.owned, hroot]
    · have hq := Kernel.some_mem_owners.mp hq
      obtain ⟨hqp, hqs, -⟩ := hothers q hq
      exact ⟨by simpa using hqp, Kernel.some_mem_owners.mpr hqs, (hkeep q hq).2.subset⟩

/-- Nothing about pages changes. -/
theorem Kernel.PagesOk.same (h : s.PagesOk) (hmachine : t.machine = s.machine)
    (hkernel : t.kernelPml4 = s.kernelPml4) (htable : t.processTable = s.processTable)
    (hpcb : ∀ q, SamePages (t.pcb q) (s.pcb q)) : t.PagesOk := by
  have hprocs : t.processes = s.processes := by
    unfold Kernel.processes
    rw [htable]
  have hroot : t.rootFrame = s.rootFrame := by rw [Kernel.rootFrame, Kernel.rootFrame, hkernel]
  have howners : t.owners = s.owners := by rw [Kernel.owners, Kernel.owners, hprocs]
  have howned : t.owned = s.owned := by
    funext o
    cases o with
    | none => rw [Kernel.owned, Kernel.owned, hroot]
    | some q => rw [Kernel.owned, Kernel.owned, hmachine, (hpcb q).owned_eq]
  refine ⟨hmachine ▸ h.wf, ?_, fun q hq => ?_, ?_⟩
  · rw [hkernel, hroot]
    exact h.kernel
  · rw [hmachine]
    exact (hpcb q).pagesOk (h.procs q (hprocs ▸ hq))
  · rw [hmachine, howners, howned]
    exact h.owns

theorem Kernel.PagesOk.modify (h : s.PagesOk) {f : Process → Process}
    (hf : ∀ x, SamePages (f x) x) : (s.modify p f).PagesOk :=
  h.same rfl rfl rfl (samePages_modify hf)

theorem Kernel.PagesOk.requeue (h : s.PagesOk) (hr : Requeued s t) : t.PagesOk := by
  refine h.same hr.machine hr.kernelPml4 hr.table fun q => ?_
  obtain ⟨n, hn⟩ := hr.pcb q
  exact SamePages.of_next hn

end Changes

/-! ## 2. Growing a heap -/

/-- `pmm_alloc`, `map_page_in`, and the page zeroed: `growPage` with any flags, which is the body of the
loader's loop over the pages of a segment. -/
def mapZeroed (pageDir va flags : Nat) (s : Machine) : Except Halt Machine := do
  let (physical, pmm) ← pmmAlloc s.pmm
  let s ← mapPageIn { s with pmm := pmm } pageDir va physical flags
  .ok { s with mem := zeroPage s.mem (physicalToVirtual physical) }

/-- `Extended s t root N`: pages of `N` have become part of a directory; it may have lost others. -/
structure Extended (s t : Machine) (root : Nat) (N : Finset Nat) : Prop where
  takes : Takes s.pmm t.pmm N
  only : OnlyIn s.mem t.mem ({q | q ∈ root :: frames s.mem 4 root} ∪ N)
  dir : Dir t root
  mem : ∀ q ∈ frames t.mem 4 root, q ∈ frames s.mem 4 root ∨ q ∈ N

section Growing

variable {s t u : Machine} {root va f : Nat} {N N' : Finset Nat}

theorem Extended.refl (h : Dir s root) : Extended s s root ∅ :=
  ⟨Takes.refl _, OnlyIn.refl _ _, h, fun _ hq => Or.inl hq⟩

theorem Extended.trans (h : Extended s t root N) (h' : Extended t u root N') :
    Extended s u root (N ∪ N') where
  takes := h.takes.trans h'.takes
  only := h.only.grow h'.only fun _ => root_or_mem h.mem
  dir := h'.dir
  mem q hq := by
    rcases h'.mem q hq with hq | hq
    · rcases h.mem q hq with hq | hq
      · exact Or.inl hq
      · exact Or.inr (Finset.mem_union_left _ hq)
    · exact Or.inr (Finset.mem_union_right _ hq)

/-- The loop that zeroes a page. -/
theorem zeroPage_spec {m : Memory} (hf : f < 2 ^ 40) :
    OnlyIn m (zeroPage m (frameAddr f)) {f} ∧
      ∀ k < 4096, zeroPage m (frameAddr f) (frameAddr f + k) = 0 := by
  have hend := frameAddr_add_le f
  refine @loop_invariant Memory (fun i mem => Function.update mem (add64 (frameAddr f) i) 0)
    (fun i mem => OnlyIn m mem {f} ∧ ∀ k < i, mem (frameAddr f + k) = 0) pageSize m
    ⟨OnlyIn.refl _ _, by simp⟩ ?_
  rintro i mem hi ⟨honly, hzero⟩
  have hi : i < 4096 := hi
  rw [add64_eq (by omega)]
  refine ⟨honly.trans fun q hq hnot k hk => ?_, fun k hk => ?_⟩
  · have := frameAddr_apart hf hq fun h => hnot (by rw [h]; rfl)
    exact Function.update_of_ne (by omega) _ _
  · rcases Nat.lt_succ_iff_lt_or_eq.mp hk with hk | rfl
    · rw [Function.update_of_ne (by omega), hzero k hk]
    · exact Function.update_self ..

/-- `MappedZeroed s t root va f N`: the page at `va` of the directory is now frame `f` and zeroed, with
`f` and its new tables the frames `N`.  Its other pages are where and what they were. -/
structure MappedZeroed (s t : Machine) (root va f : Nat) (N : Finset Nat) : Prop where
  ext : Extended s t root N
  few : N.card ≤ 4
  here : leaf t.mem root va = some f
  zero : ∀ k < 4096, t.mem (frameAddr f + k) = 0
  others : ∀ w, LowerHalf w → w / pageSize ≠ va / pageSize →
    leaf t.mem root w = leaf s.mem root w
  kept : ∀ w g, LowerHalf w → leaf s.mem root w = some g →
    ∀ k < 4096, t.mem (frameAddr g + k) = s.mem (frameAddr g + k)
  upper : ∀ i, 256 ≤ i → i < 512 → entry t.mem root i = entry s.mem root i
  bare : ∀ l, 0 < l → Bare l s.mem root → Bare l t.mem root

/-- `Exchanged s t root va N`: the frames `N` have come to a directory, and the frame that the page at
`va` had, if it had one, is no longer part of it. -/
def Exchanged (s t : Machine) (root va : Nat) (N : Finset Nat) : Prop :=
  ∃ rest, frames s.mem 4 root ~ (leaf s.mem root va).toList ++ rest ∧
    frames t.mem 4 root ~ N.toList ++ rest

/-- A new page, with the account of its frames: the page itself and three tables are all it may need. -/
theorem mapZeroed_exact (flags : Nat) (h : Dir s root) (hs : s.Wf) (hv : LowerHalf va)
    (hflags : flags % 2 = 1) :
    Ensures (mapZeroed (frameAddr root) va flags s) (fun _ => s.pmm.freePages.card < 4)
      (fun t => ∃ f N, MappedZeroed s t root va f N ∧ Exchanged s t root va N) := by
  unfold mapZeroed
  refine Ensures.bind ((pmmAlloc_spec hs.pmm).mono (fun _ he => by simp [he.2]) fun r hr => hr) ?_
  rintro ⟨a, pm⟩ ⟨f, hf, -, rfl, htakes⟩
  simp only at htakes ⊢
  have hcard := htakes.card_add
  rw [Finset.card_singleton] at hcard
  have hfused : pm.Used f := htakes.used_of_mem (Finset.mem_singleton_self f)
  have hwf : Machine.Wf ⟨s.mem, pm⟩ := hs.of_takes htakes
  obtain ⟨-, hdir⟩ := h.keep_taken hs htakes (OnlyIn.refl s.mem {f})
  have hfnot : f ∉ root :: frames s.mem 4 root := fun hmem =>
    h.ne_taken htakes f (List.mem_cons.mp hmem) rfl
  refine Ensures.bind ((mapPageIn_spec hdir hwf hv hfused hfnot hflags).mono (fun _ he => ?_)
    fun u hu => hu) ?_
  · simp only at he
    omega
  rintro u ⟨N, hN, hmap⟩
  obtain ⟨hzero, hzero'⟩ := @zeroPage_spec f u.mem (hs.lt_of_free hf)
  have hu := hwf.of_takes hmap.takes
  obtain ⟨htree, hdir'⟩ := hmap.dir.keep_page hu hmap.here hzero
  have hfollow := hmap.dir.follow_page hu hmap.here hzero
  have hbare : ∀ l, 0 < l → Bare l u.mem root → Bare l (zeroPage u.mem (frameAddr f)) root :=
    fun l hl hb => hb.write_page hmap.dir hu hmap.here hzero hl
  have hupper : ∀ i < 512, entry (zeroPage u.mem (frameAddr f)) root i = entry u.mem root i :=
    fun i hi => hmap.dir.table_entry hu hmap.here hzero (Or.inl rfl) (Nat.succ_pos 3) hi
  rw [physicalToVirtual_page]
  generalize zeroPage u.mem (frameAddr f) = m at *
  have hframes : frames m 4 root = frames u.mem 4 root := congrArg _ htree
  obtain ⟨rest, hold, hnew⟩ := hmap.frames
  have hfN : f ∉ N := hmap.takes.notMem_of_test hfused.2
  refine ensures_ok.mpr ⟨f, {f} ∪ N, ⟨⟨htakes.trans hmap.takes, ?_, hdir', fun q hq => ?_⟩, ?_, ?_, ?_,
    ?_, ?_, ?_, ?_⟩, rest, hold, ?_⟩
  · refine OnlyIn.trans (hmap.only.mono ?_) (hzero.mono ?_)
    · rintro q (hq | hq)
      · exact Or.inl hq
      · exact Or.inr (Finset.mem_union_right _ hq)
    · rintro q rfl
      exact Or.inr (Finset.mem_union_left _ (Finset.mem_singleton_self q))
  · have hq : q ∈ frames u.mem 4 root := hframes ▸ hq
    rcases List.mem_cons.mp (hnew.mem_iff.mp hq) with rfl | hq
    · exact Or.inr (Finset.mem_union_left _ (Finset.mem_singleton_self q))
    · rcases List.mem_append.mp hq with hq | hq
      · exact Or.inr (Finset.mem_union_right _ (Finset.mem_toList.mp hq))
      · exact Or.inl (hold.mem_iff.mpr (List.mem_append_right _ hq))
  · have := Finset.card_union_le {f} N
    rw [Finset.card_singleton] at this
    omega
  · exact (hfollow _).trans hmap.here
  · exact hzero'
  · exact fun w hw hne => (hfollow _).trans (hmap.others w hw hne)
  · intro w g _ hg k hk
    have hmem := mem_frames_of_leaf hg
    have hgf : g ≠ f := by
      rintro rfl
      exact hfnot (List.mem_cons_of_mem _ hmem)
    exact (hzero g (frames_lt hmem) hgf k hk).trans (hmap.data (path w) g rfl hg k hk)
  · exact fun i hlo hhi => (hupper i hhi).trans (hmap.upper i hlo hhi)
  · exact fun l hl hb => hbare l hl (hmap.bare l hl hb)
  · dsimp only
    rw [hframes]
    refine hnew.trans (List.Perm.append_right rest ?_)
    rw [Finset.singleton_union]
    exact (Finset.toList_insert hfN).symm

theorem mapZeroed_spec (flags : Nat) (h : Dir s root) (hs : s.Wf) (hv : LowerHalf va)
    (hflags : flags % 2 = 1) :
    Ensures (mapZeroed (frameAddr root) va flags s) (fun _ => s.pmm.freePages.card < 4)
      (fun t => ∃ f N, MappedZeroed s t root va f N) := by
  refine (mapZeroed_exact flags h hs hv hflags).mono (fun _ he => he) ?_
  rintro t ⟨f, N, hmap, -⟩
  exact ⟨f, N, hmap⟩

/-- One page of a heap. -/
theorem growPage_spec (h : Dir s root) (hs : s.Wf) (hv : LowerHalf va) :
    Ensures (growPage (frameAddr root) va s) (fun _ => s.pmm.freePages.card < 4)
      (fun t => ∃ N, Extended s t root N) := by
  refine (mapZeroed_spec (pagePresent + pageWritable + pageUser) h hs hv (by decide)).mono
    (fun _ he => he) ?_
  rintro t ⟨f, N, hmap⟩
  exact ⟨N, hmap.ext⟩

end Growing

/-- The end of the region a heap may grow into: the user stack's page. -/
def userStackPage : Nat := 0x00007FFFFFFFE000

section HeapGrow

variable {s : Kernel} {increment : BitVec 64}

theorem pageCeil_le {a : Nat} (h : a ≤ userStackPage) : pageCeil a ≤ userStackPage := by
  unfold pageCeil pageSize userStackPage at *
  rw [add64_eq (by omega)]
  omega

/-- The kernel with new pages in the directory of one of its processes. -/
theorem Kernel.PagesOk.extend (h : s.PagesOk) {p : Nat} (hp : p ∈ s.processes) {t : Kernel}
    {N : Finset Nat} (hext : Extended s.machine t.machine (s.pcb p).root N)
    (hkernel : t.kernelPml4 = s.kernelPml4) (htable : t.processTable = s.processTable)
    (hpcb : ∀ q, SamePages (t.pcb q) (s.pcb q)) : t.PagesOk := by
  have hprocs : t.processes = s.processes := by
    unfold Kernel.processes
    rw [htable]
  have hok := h.procs p hp
  have hroot := (hpcb p).root_eq
  have hstack := (hpcb p).stackFrame_eq
  have hstackUsed := h.used hp (Or.inl rfl)
  refine h.gain (N := N) (p := p) hext.takes (hext.only.mono ?_) hkernel
    (fun q hq _ => ⟨hprocs ▸ hq, hpcb q⟩) ⟨?_, ?_, ?_, ?_⟩ ?_
  · rintro q (hq | hq)
    · exact Or.inl ⟨hp, Or.inr (List.mem_cons.mp hq)⟩
    · exact Or.inr hq
  · rw [(hpcb p).1, hstack]
    exact hok.stack
  · rw [(hpcb p).2, hroot]
    exact hok.pageDir
  · rw [hroot]
    exact hext.dir
  · rw [hroot, hstack, List.mem_cons]
    rintro (heq | hmem)
    · exact hok.stack_apart (List.mem_cons.mpr (Or.inl heq))
    · rcases hext.mem _ hmem with hmem | hmem
      · exact hok.stack_apart (List.mem_cons_of_mem _ hmem)
      · exact hext.takes.notMem_of_test hstackUsed.2 hmem
  · rintro q (hq | hq | hq)
    · exact Or.inl ⟨hp, Or.inl (hq.trans hstack)⟩
    · exact Or.inl ⟨hp, Or.inr (Or.inl (hq.trans hroot))⟩
    · rw [hroot] at hq
      rcases hext.mem q hq with hq | hq
      · exact Or.inl ⟨hp, Or.inr (Or.inr hq)⟩
      · exact Or.inr hq

/-- The loop of `sys_heap_grow`, up to the user stack. -/
theorem growLoop_spec {m : Machine} {root start newEnd : Nat} (h : Dir m root) (hm : m.Wf)
    (hend : newEnd ≤ userStackPage) :
    Ensures (forRange (fun i machine => growPage (frameAddr root) (start + i * pageSize) machine)
      ((pageCeil newEnd - start) / pageSize) m) (fun _ => True)
      (fun t => ∃ N, Extended m t root N) := by
  have hceil := pageCeil_le hend
  refine forRange_invariant (I := fun _ t => ∃ N, Extended m t root N) ⟨∅, Extended.refl h⟩ ?_
  rintro i t hi ⟨N, hext⟩
  have hv : LowerHalf (start + i * pageSize) := by
    unfold LowerHalf
    unfold userStackPage at hceil
    unfold pageSize at *
    omega
  refine (growPage_spec hext.dir (hm.of_takes hext.takes) hv).mono (fun _ _ => trivial) ?_
  rintro u ⟨N', hext'⟩
  exact ⟨N ∪ N', hext.trans hext'⟩

/-- **`sys_heap_grow`**, as long as it leaves the break at or below the user stack. -/
theorem sysHeapGrow_pagesOk {t : Kernel} {rax : BitVec 64} (h : s.PagesOk)
    (hcur : s.currentProcess ∈ s.processes) (hok : sysHeapGrow s increment = .ok (rax, t))
    (hend : t.current.heapEnd ≤ userStackPage) :
    t.PagesOk ∧ t.heap = s.heap ∧ t.processTable = s.processTable := by
  unfold sysHeapGrow at hok
  rw [if_neg hcur.1] at hok
  simp only at hok
  split at hok
  · rw [← (Prod.mk.inj (Except.ok.inj hok)).2]
    exact ⟨h, rfl, rfl⟩
  split at hok
  · rw [← (Prod.mk.inj (Except.ok.inj hok)).2]
    exact ⟨h, rfl, rfl⟩
  obtain ⟨m, hloop, hok⟩ := bind_eq_ok.mp hok
  have hproc : s.current.PagesOk s.machine := h.procs _ hcur
  rw [← (Prod.mk.inj (Except.ok.inj hok)).2] at hend ⊢
  rw [Kernel.current, Kernel.modify_currentProcess, Kernel.modify_self] at hend
  rw [hproc.pageDir] at hloop
  obtain ⟨N, hext⟩ := (growLoop_spec hproc.dir h.wf hend).of_ok hloop
  refine ⟨h.extend hcur hext rfl rfl (samePages_modify (s := { s with machine := m }) ?_), rfl, rfl⟩
  exact fun x => ⟨rfl, rfl⟩

end HeapGrow

/-! ## 3. Creating and forking -/

section Joining

variable {s t : Kernel} {p : Nat} {N : Finset Nat}

/-- A new process has taken its pages and touched no others. -/
theorem Kernel.PagesOk.join {parent : Nat} (h : s.PagesOk) (hjoin : Joined s t p parent)
    (htakes : Takes s.machine.pmm t.machine.pmm N)
    (honly : OnlyIn s.machine.mem t.machine.mem N) (hkernel : t.kernelPml4 = s.kernelPml4)
    (hp : (t.pcb p).PagesOk t.machine) (hown : ∀ f ∈ (t.pcb p).owned t.machine.mem, f ∈ N) :
    t.PagesOk := by
  refine h.gain (p := p) htakes (honly.mono fun f hf => Or.inr hf) hkernel (fun q hq hqp => ?_) hp
    fun f hf => Or.inr (hown f hf)
  obtain ⟨n, hn⟩ := hjoin.others q hqp
  exact ⟨((hjoin.mem q).mp hq).resolve_left hqp, SamePages.of_next hn⟩

/-- The top of a stack is the last entry of its page. -/
theorem stackTop_eq (f : Nat) : sub64 (add64 (frameAddr f) processStackSize) 8
    = frameAddr f + 8 * 511 := by
  have := frameAddr_add_le f
  unfold add64 sub64 processStackSize
  omega

/-- A new process with a stack `f` and a directory `c` of its own. -/
theorem Kernel.PagesOk.install {f c parent : Nat} {x : Process} {m : Machine}
    (h : s.PagesOk) (hjoin : Joined s t p parent) (hpcb : t.pcb p = x) (hm : t.machine = m)
    (hkernel : t.kernelPml4 = s.kernelPml4) (htakes : Takes s.machine.pmm m.pmm N)
    (honly : OnlyIn s.machine.mem m.mem N) (hstack : x.stack = frameAddr f)
    (hpd : x.pageDir = frameAddr c) (hdir : Dir m c) (hapart : f ∉ c :: frames m.mem 4 c)
    (hN : ∀ q, q = f ∨ q = c ∨ q ∈ frames m.mem 4 c → q ∈ N) : t.PagesOk := by
  have hf40 := h.wf.lt_of_free (htakes.free (hN f (Or.inl rfl)))
  have hc40 := h.wf.lt_of_free (htakes.free (hN c (Or.inr (Or.inl rfl))))
  have hsf : x.stackFrame = f := by rw [Process.stackFrame, hstack, frame_of_addr hf40]
  have hroot : x.root = c := by rw [Process.root, hpd, frame_of_addr hc40]
  subst hm
  refine h.join hjoin htakes honly hkernel ?_ ?_
  · rw [hpcb]
    refine ⟨?_, ?_, ?_, ?_⟩
    · rw [hsf, hstack]
    · rw [hroot, hpd]
    · rw [hroot]
      exact hdir
    · rw [hsf, hroot]
      exact hapart
  · rw [hpcb, Process.owned, hsf, hroot]
    exact hN

/-- **`process_create`.** -/
theorem processCreate_spec (ht : s.TableOk) (h : s.PagesOk) (name : Option (List (BitVec 8)))
    (entry flags : Nat) : Ensures (processCreate s name entry flags) (fun _ => True)
      (fun r => Joined s r.2 r.1 (if s.currentProcess = 0 then 0 else s.current.pid) ∧
        r.2.PagesOk) := by
  unfold processCreate
  split
  · exact ensures_error.mpr trivial
  split
  · exact ensures_error.mpr trivial
  split
  · exact ensures_error.mpr trivial
  rename_i _ _ name _ slot hslot
  refine Ensures.bind ((ensures_eq _).mono (fun _ _ => trivial) fun r hr => hr) ?_
  rintro ⟨p, heap⟩ hkmalloc
  refine Ensures.bind ((pmmAlloc_spec h.wf.pmm).mono (fun _ _ => trivial) fun r hr => hr) ?_
  rintro ⟨a, pm⟩ ⟨f, hf, -, rfl, htakes⟩
  simp only at htakes ⊢
  have hstack : add64 (f * pageSize) physicalMapBase = frameAddr f := physicalToVirtual_page f
  rw [hstack, stackTop_eq]
  -- the entry point goes to the top of the new stack
  have hmem : OnlyIn s.machine.mem (if flags % 2 = processUser then s.machine.mem
      else store64 s.machine.mem (frameAddr f + 8 * 511) entry) {f} := by
    split
    · exact OnlyIn.refl _ _
    · exact onlyIn_store64 (h.wf.lt_of_free hf) (by decide) entry
  generalize (if flags % 2 = processUser then s.machine.mem
    else store64 s.machine.mem (frameAddr f + 8 * 511) entry) = m at *
  have hwf : Machine.Wf ⟨m, pm⟩ := h.wf.of_takes htakes
  rw [h.kernel]
  refine Ensures.bind ((pagingCloneDirectory_spec hwf
    (h.rootFrame_used.of_takes htakes)).mono (fun _ _ => trivial) fun r hr => hr) ?_
  rintro ⟨a, u⟩ ⟨c, rfl, hclone⟩
  simp only at hclone ⊢
  generalize hx : Process.mk _ _ _ _ _ _ _ _ _ _ _ _ _ _ _ _ _ _ = x
  have hparent : (if s.currentProcess = 0 then 0 else s.current.pid) = x.parentPid := by rw [← hx]
  have hjoin : Joined s (s.install slot p x heap u) p x.parentPid :=
    ht.install hkmalloc hslot (by rw [← hx]) (by rw [← hx])
  have hpcb : (s.install slot p x heap u).pcb p = x := Function.update_self ..
  refine ensures_ok.mpr ⟨hparent ▸ hjoin, h.install (m := u) (N := {f} ∪ {c}) (f := f) (c := c) hjoin hpcb
    rfl rfl (htakes.trans hclone.takes) ?_ (by rw [← hx]) (by rw [← hx]) hclone.dir ?_ ?_⟩
  · refine OnlyIn.trans (hmem.mono ?_) (hclone.only.mono ?_)
    · simp
    · simp
  · rw [hclone.frames, List.mem_singleton]
    exact htakes.ne_taken hclone.takes
  · rw [hclone.frames]
    simp

/-- The frame for `iret_to_usermode` is the last six entries of the stack's page. -/
theorem iretFrame_eq (m : Memory) (f : Nat) (parent : Process) :
    iretFrame m (frameAddr f + 8 * 511) parent =
      store64 (store64 (store64 (store64 (store64 (store64 m (frameAddr f + 8 * 511) 0x23)
        (frameAddr f + 8 * 510) parent.userEsp.toNat) (frameAddr f + 8 * 509) 0x200)
        (frameAddr f + 8 * 508) 0x2B) (frameAddr f + 8 * 507) parent.userEip.toNat)
        (frameAddr f + 8 * 506) 0 := by
  have h1 := sub64_lastWord f (k := 1) (by decide)
  have h2 := sub64_lastWord f (k := 2) (by decide)
  have h3 := sub64_lastWord f (k := 3) (by decide)
  have h4 := sub64_lastWord f (k := 4) (by decide)
  have h5 := sub64_lastWord f (k := 5) (by decide)
  simp only [Nat.reduceMul, Nat.reduceSub] at h1 h2 h3 h4 h5
  unfold iretFrame
  simp only [h1, h2, h3, h4, h5]

/-- The frame for `iret_to_usermode` stays on the stack's page. -/
theorem onlyIn_iretFrame {m : Memory} {f : Nat} (hf : f < 2 ^ 40) (parent : Process) :
    OnlyIn m (iretFrame m (frameAddr f + 8 * 511) parent) {f} := by
  have hstore : ∀ (m' : Memory) (i v : Nat), i < 512 →
      OnlyIn m' (store64 m' (frameAddr f + 8 * i) v) {f} := fun m' i v hi =>
    onlyIn_store64 hf hi v
  rw [iretFrame_eq]
  exact (((((hstore m 511 _ (by decide)).trans (hstore _ 510 _ (by decide))).trans
    (hstore _ 509 _ (by decide))).trans (hstore _ 508 _ (by decide))).trans
    (hstore _ 507 _ (by decide))).trans (hstore _ 506 _ (by decide))

/-- No room for a child of the current process: in the table, in the kernel heap, or for the pages of a
stack and a copy of the directory. -/
def Kernel.ForkFull (s : Kernel) : Prop :=
  s.freeSlot = none ∨ (∃ e, kmalloc s.heap sizeofProcess = .error e) ∨
    s.machine.pmm.freePages.card < (frames s.machine.mem 4 s.current.root).length + 2

/-- `ForkedFrom s t p`: what `process_fork` has given the child `p`: a PCB and a slot, a heap that ends
where the parent's does, and exactly the pages that were taken, mapped where the parent has pages. -/
structure ForkedFrom (s t : Kernel) (p : Nat) : Prop where
  heap : kmalloc s.heap sizeofProcess = .ok (p, t.heap)
  slot : ∃ i, s.freeSlot = some i ∧ t.processTable = Function.update s.processTable i p
  heapEnd : (t.pcb p).heapEnd = s.current.heapEnd
  pages : ∃ N, Takes s.machine.pmm t.machine.pmm N ∧ N.toList ~ (t.pcb p).freed t.machine.mem
  leaves : ∀ v, leaf t.machine.mem (t.pcb p).root v = none ↔
    leaf s.machine.mem s.current.root v = none
  count : (frames t.machine.mem 4 (t.pcb p).root).length =
    (frames s.machine.mem 4 s.current.root).length

/-- What `process_fork` does to memory: the frame `f` is the child's stack, and the directory at `c` is a copy
of the one at `src`, in the frames `N`. -/
structure ForkedSpace (s t : Machine) (src f c : Nat) (N : Finset Nat) : Prop where
  takes : Takes s.pmm t.pmm ({f} ∪ N)
  only : OnlyIn s.mem t.mem ({f} ∪ N : Finset Nat)
  dir : Dir t c
  apart : f ∉ N
  mem : ∀ q, q = c ∨ q ∈ frames t.mem 4 c → q ∈ N
  perm : N.toList ~ frames t.mem 4 c ++ [c]
  leaves : ∀ v, leaf t.mem c v = none ↔ leaf s.mem src v = none
  count : (frames t.mem 4 c).length = (frames s.mem 4 src).length

section ForkedSpace

variable {s u : Machine} {src f c : Nat} {pm : Pmm} {m m' : Memory} {N : Finset Nat}

theorem OnlyIn.leaf_eq {X : Set Nat} {r : Nat} (h : OnlyIn m m' X) (hr : r < 2 ^ 40)
    (hX : ∀ q, q = r ∨ q ∈ frames m 4 r → q ∉ X) (v : Nat) : leaf m' r v = leaf m r v :=
  walk_congr (h.agrees hr (hX r (Or.inl rfl)) fun q hq => hX q (Or.inr hq))

/-- **The three steps**: the stack is copied to its frame, the directory to others, and the frame for
`iret_to_usermode` goes to the stack again. -/
theorem Forked.space (hs : s.Wf) (hdir : Dir s src) (htakes : Takes s.pmm pm {f})
    (hcopy : OnlyIn s.mem m {f}) (hforked : Forked ⟨m, pm⟩ src u c N) (honly : OnlyIn u.mem m' {f}) :
    ForkedSpace s ⟨m', u.pmm⟩ src f c N := by
  have hwf : Machine.Wf ⟨m, pm⟩ := hs.of_takes htakes
  obtain ⟨htree, hdir'⟩ := hdir.keep_taken hs htakes hcopy
  have hmemN : ∀ q, q = c ∨ q ∈ frames u.mem 4 c → q ∈ N := fun q hq =>
    (hforked.mem q).mp (List.mem_append.mpr (hq.symm.imp_right List.mem_singleton.mpr))
  have hfN : ∀ q ∈ N, q ∉ ({f} : Set Nat) := by
    rintro q hq rfl
    exact hforked.takes.notMem_of_test (htakes.test_mem (Finset.mem_singleton_self q)) hq
  have hapart : ∀ q, q = c ∨ q ∈ frames u.mem 4 c → q ∉ ({f} : Set Nat) := fun q hq => hfN q (hmemN q hq)
  obtain ⟨htree', hdirc⟩ := (hforked.dir hdir').keep (t := ⟨m', u.pmm⟩) (hwf.of_takes hforked.takes)
    honly hapart fun q hq => hforked.takes.used_of_mem (hmemN q hq)
  have hframes : frames m' 4 c = frames u.mem 4 c := congrArg _ htree'
  have hc40 := hwf.lt_of_free (hforked.takes.free (hmemN c (Or.inl rfl)))
  refine ⟨htakes.trans hforked.takes, ?_, hdirc, fun hf => hfN f hf rfl, ?_, ?_, fun v => ?_, ?_⟩
  · refine ((hcopy.mono ?_).trans (hforked.only.mono ?_)).trans (honly.mono ?_)
    · simp
    · simp
    · simp
  · rw [hframes]
    exact hmemN
  · rw [hframes]
    exact (List.perm_ext_iff_of_nodup N.nodup_toList hforked.nodup).mpr fun q =>
      Finset.mem_toList.trans (hforked.mem q).symm
  · have hchild : leaf m' c v = leaf u.mem c v := honly.leaf_eq hc40 hapart v
    have hcopied : leaf u.mem c v = none ↔ leaf m src v = none := hforked.copied.walk_eq_none
    have hparent : leaf m src v = leaf s.mem src v :=
      hcopy.leaf_eq (hs.lt_of_used (hdir.used _ (Or.inl rfl))) (hdir.ne_taken htakes) v
    rw [hchild, hcopied, hparent]
  · rw [hframes, hforked.copied.length_frames]
    exact congrArg List.length (congrArg _ htree)

end ForkedSpace

/-- **`process_fork`.**  It fails only for want of room. -/
theorem processFork_exact (ht : s.TableOk) (h : s.PagesOk)
    (hcur : s.currentProcess ∈ s.processes) :
    Ensures (processFork s) (fun _ => s.ForkFull) (fun r => r.1 = s.nextPid ∧
      ∃ p, Joined s r.2 p s.current.pid ∧ r.2.PagesOk ∧ ForkedFrom s r.2 p) := by
  have hparent : s.current.PagesOk s.machine := h.procs _ hcur
  have hstackUsed : s.machine.pmm.Used s.current.stackFrame := h.used hcur (Or.inl rfl)
  unfold processFork
  rw [if_neg hcur.1]
  split
  · exact ensures_error.mpr (Or.inl ‹_›)
  rename_i slot hslot
  refine Ensures.bind ((ensures_eq _).mono (fun e he => Or.inr (Or.inl ⟨e, he⟩)) fun r hr => hr) ?_
  rintro ⟨p, heap⟩ hkmalloc
  obtain ⟨hp0, -⟩ := ht.kmalloc_fresh hkmalloc
  simp only [if_neg hp0]
  refine Ensures.bind ((pmmAlloc_spec h.wf.pmm).mono (fun _ he => ?_) fun r hr => hr) ?_
  · rw [Kernel.ForkFull, he.2, Finset.card_empty]
    omega
  rintro ⟨a, pm⟩ ⟨f, hf, -, rfl, htakes⟩
  simp only at htakes ⊢
  have hf40 := h.wf.lt_of_free hf
  have hf0 : f * pageSize ≠ 0 := by
    have := h.wf.pmm.pos_of_mem hf
    unfold pageSize
    omega
  have haddr := h.wf.frameAddr_ne_zero (Pmm.mem_freePages.mp hf).1
  rw [physicalToVirtual_page, if_neg (not_or.mpr ⟨hf0, haddr⟩)]
  -- the parent's stack is copied to the new page
  have hstackEq : s.current.stack = frameAddr s.current.stackFrame := hparent.stack
  have hsf : s.current.stackFrame ≠ f := hstackUsed.ne_taken htakes
  obtain ⟨hcopy, -⟩ := @copyPage_spec s.machine.mem _ _ (h.wf.lt_of_used hstackUsed) hf40 hsf
  rw [hstackEq]
  generalize copyPage s.machine.mem (frameAddr s.current.stackFrame) (frameAddr f) = m at *
  have hwf : Machine.Wf ⟨m, pm⟩ := h.wf.of_takes htakes
  obtain ⟨htree, hdir⟩ := hparent.dir.keep_taken h.wf htakes hcopy
  have hpd : s.current.pageDir = frameAddr s.current.root := hparent.pageDir
  rw [hpd]
  refine Ensures.bind ((pagingDeepCopyDirectory_spec hwf hdir.used).mono (fun _ he => ?_)
    fun r hr => hr) ?_
  · have hcard := htakes.card_add
    have hframes : frames m 4 s.current.root = frames s.machine.mem 4 s.current.root :=
      congrArg _ htree
    rw [hframes] at he
    rw [Finset.card_singleton] at hcard
    exact Or.inr (Or.inr (by simp only at he; omega))
  rintro ⟨a, u⟩ ⟨c, N, rfl, hforked⟩
  simp only at hforked ⊢
  -- the frame for `iret_to_usermode` goes to the top of the new stack, away from the directory
  have htop : sub64 (add64 (frameAddr f) pageSize) 8 = frameAddr f + 8 * 511 := stackTop_eq f
  have hiret : ∃ m', (if s.current.isUser = true then
      { u with mem := iretFrame u.mem (frameAddr f + 8 * 511) s.current } else u) = ⟨m', u.pmm⟩ ∧
      OnlyIn u.mem m' {f} := by
    split
    · exact ⟨_, rfl, onlyIn_iretFrame hf40 _⟩
    · exact ⟨u.mem, rfl, OnlyIn.refl _ _⟩
  obtain ⟨m', hm', honly'⟩ := hiret
  have hspace := hforked.space h.wf hparent.dir htakes hcopy honly'
  have hcfree := hforked.takes.free (hspace.mem c (Or.inl rfl))
  rw [if_neg (hwf.frameAddr_ne_zero (Pmm.mem_freePages.mp hcfree).1), htop, hm']
  generalize hx : Process.mk _ _ _ _ _ _ _ _ _ _ _ _ _ _ _ _ _ _ = x
  have hjoin : Joined s (s.install slot p x heap ⟨m', u.pmm⟩) p x.parentPid :=
    ht.install hkmalloc hslot (by rw [← hx]) (by rw [← hx])
  have hpcb : (s.install slot p x heap ⟨m', u.pmm⟩).pcb p = x := Function.update_self ..
  have hpages : (s.install slot p x heap ⟨m', u.pmm⟩).PagesOk := by
    refine h.install (m := ⟨m', u.pmm⟩) (N := {f} ∪ N) (f := f) (c := c) hjoin hpcb rfl rfl
      hspace.takes hspace.only (by rw [← hx]) (by rw [← hx]) hspace.dir ?_ ?_
    · exact fun hmem => hspace.apart (hspace.mem f (List.mem_cons.mp hmem))
    · rintro q (rfl | hq)
      · simp
      · exact Finset.mem_union_right _ (hspace.mem q hq)
  obtain ⟨t, hadd, hrequeue⟩ := schedulerAdd_requeued (s := s.install slot p x heap ⟨m', u.pmm⟩) hp0
  rw [hadd]
  have hparentPid : x.parentPid = s.current.pid := by rw [← hx]
  refine ensures_ok.mpr ⟨rfl, p, hparentPid ▸ hjoin.requeue hrequeue, ?_, ?_⟩
  · refine Kernel.PagesOk.requeue (hpages.modify ?_) hrequeue
    exact fun _ => ⟨rfl, rfl⟩
  -- the child's PCB, but for its link
  obtain ⟨n, hn⟩ := hrequeue.pcb p
  rw [Kernel.modify_self, hpcb] at hn
  have hmachine : t.machine = ⟨m', u.pmm⟩ := hrequeue.machine
  have hsf' : (t.pcb p).stackFrame = f := by
    rw [hn, ← hx]
    exact frame_of_addr hf40
  have hroot : (t.pcb p).root = c := by
    rw [hn, ← hx]
    exact frame_of_addr (hwf.lt_of_free hcfree)
  refine ⟨hkmalloc.trans ?_, ⟨slot, hslot, hrequeue.table⟩, ?_, ⟨{f} ∪ N, ?_, ?_⟩, ?_, ?_⟩
  · rw [hrequeue.heap]
    rfl
  · rw [hn, ← hx]
  · rw [hmachine]
    exact hspace.takes
  · rw [Process.freed, hsf', hroot, hmachine, Finset.singleton_union]
    exact (Finset.toList_insert hspace.apart).trans
      ((hspace.perm.cons f).trans (List.perm_append_singleton f _).symm)
  · rw [hroot, hmachine]
    exact hspace.leaves
  · rw [hroot, hmachine]
    exact hspace.count

theorem processFork_spec (ht : s.TableOk) (h : s.PagesOk) (hcur : s.currentProcess ∈ s.processes) :
    Ensures (processFork s) (fun _ => s.ForkFull) (fun r => r.1 = s.nextPid ∧
      ∃ p, Joined s r.2 p s.current.pid ∧ r.2.PagesOk) := by
  refine (processFork_exact ht h hcur).mono (fun _ he => he) ?_
  rintro r ⟨hpid, p, hjoin, hpages, -⟩
  exact ⟨hpid, p, hjoin, hpages⟩

end Joining

/-! ## 4. Reaping -/

section Reaping

variable {s : Kernel} {i : Nat}

/-- Giving back a process's directory and stack. -/
theorem Process.PagesOk.free_eq {m : Machine} {x : Process} (h : x.PagesOk m) (hm : m.Wf)
    (hused : ∀ f ∈ x.owned m.mem, m.pmm.Used f) (hpos : ∀ f ∈ x.owned m.mem, 0 < f) :
    (pagingFreeDirectory m x.pageDir).mem = m.mem ∧
      pmmFree (pagingFreeDirectory m x.pageDir).pmm (virtualToPhysical x.stack) =
        m.pmm.releaseAll (x.freed m.mem) := by
  have hroot := hused _ (Or.inr (Or.inl rfl))
  have hdir : pagingFreeDirectory m x.pageDir =
      ⟨m.mem, m.pmm.releaseAll (frames m.mem 4 x.root ++ [x.root])⟩ := by
    rw [h.pageDir]
    exact pagingFreeDirectory_eq (hm.lt_of_used hroot) (fun q hq => hpos q (Or.inr hq))
      (hm.frameAddr_ne_zero hroot.1)
  have hstack : virtualToPhysical x.stack = x.stackFrame * pageSize := by
    rw [h.stack, virtualToPhysical_frameAddr (hm.lt_of_used (hused _ (Or.inl rfl)))]
  rw [hdir, hstack, pmmFree_page (hpos _ (Or.inl rfl))]
  refine ⟨rfl, ?_⟩
  exact (@List.foldl_append _ _ Pmm.release m.pmm _ [x.stackFrame]).symm

/-- This frees what the process owns and nothing else. -/
theorem Process.PagesOk.free {m : Machine} {x : Process} (h : x.PagesOk m) (hm : m.Wf)
    (hused : ∀ f ∈ x.owned m.mem, m.pmm.Used f) (hpos : ∀ f ∈ x.owned m.mem, 0 < f) :
    ∃ pm, pmmFree (pagingFreeDirectory m x.pageDir).pmm (virtualToPhysical x.stack) = pm ∧
      (pagingFreeDirectory m x.pageDir).mem = m.mem ∧ pm.totalPages = m.pmm.totalPages ∧
      (∀ f ∈ x.owned m.mem, pm.bitmapTest f = true) ∧
      ∀ f ∉ x.owned m.mem, pm.bitmapTest f = m.pmm.bitmapTest f := by
  obtain ⟨hmem, hpmm⟩ := h.free_eq hm hused hpos
  refine ⟨_, hpmm, hmem, Pmm.totalPages_releaseAll _ _, fun f hf => ?_, fun f hf => ?_⟩
  · rw [Pmm.test_releaseAll, decide_eq_true (Process.mem_freed.mpr hf), Bool.or_true]
  · rw [Pmm.test_releaseAll, decide_eq_false fun h => hf (Process.mem_freed.mp h), Bool.or_false]

/-- **Reaping** always succeeds, and what the process owned is free. -/
theorem reap_spec (ht : s.TableOk) (h : s.PagesOk) (hi : i < maxProcesses)
    (hne : s.processTable i ≠ 0) : ∃ t, reap s i = .ok t ∧ Left s t (s.processTable i) ∧
      t.PagesOk ∧ ∀ f ∈ (s.pcb (s.processTable i)).owned s.machine.mem,
        t.machine.pmm.bitmapTest f = true := by
  have hp := mem_processes hi hne
  obtain ⟨heap, hfree, hclear⟩ := ht.clear hi hne
  obtain ⟨pm, hpm, hmem, htotal, hfreed, hother⟩ := (h.procs _ hp).free h.wf
    (fun f hf => h.used hp hf) fun f hf => h.pos hp hf
  have hr := schedulerRemove_requeued s (s.processTable i)
  obtain ⟨n, hn⟩ := hr.pcb (s.processTable i)
  have hreap : reap s i = .ok { schedulerRemove s (s.processTable i) with
      machine := ⟨s.machine.mem, pm⟩
      processTable := Function.update s.processTable i 0
      heap := heap } := by
    unfold reap
    simp only [hr.machine, hr.heap, hr.table, hn, hpm, hmem, hfree]
    rfl
  generalize schedulerRemove s (s.processTable i) = u at *
  have hmem' := fun q => @Kernel.TableOk.mem_clear s { u with
    machine := ⟨s.machine.mem, pm⟩
    processTable := Function.update s.processTable i 0
    heap := heap } i ht hi rfl q
  refine ⟨_, hreap, ⟨hclear _ rfl rfl, hmem', hr.pcb, hr.nextPid, hr.current⟩, ?_, hfreed⟩
  refine h.lose hp rfl htotal hother hr.kernelPml4 fun q hq => ?_
  obtain ⟨hqi, hqs⟩ := (hmem' q).mp hq
  obtain ⟨k, hk⟩ := hr.pcb q
  exact ⟨hqi, hqs, SamePages.of_next hk⟩

end Reaping

end AcornOS
