/-
# The life of a child process

`process_fork` takes a slot, a PCB and pages, `sys_heap_grow` takes more pages, and the parent's
`sys_wait` gives everything back when the child has exited: "free every resource the child owned",
says its comment, "otherwise its page tables, stack and run-queue slot leak on every single wait".

* `Lives` and `Exits` are the part of a child's life between the fork and the wait: heap growth, the
  exit, and ANY scheduling in between.
* `Grows`: the account of the child's pages.  What has been taken since the fork is what it owns, and
  what it has LOST: `sys_heap_grow` does not look at the entries it writes, and a frame whose entry is
  overwritten stays in use and belongs to nobody.
* `lifecycle_conserves_iff`: everything is restored exactly when no page in the way of the child's heap
  was mapped before the fork.

Such a page is there when the break has wrapped around (`new_end` is not checked), or when a failed
`process_exec` has left the break of the image it did not load.
-/
import AcornOS.Processes.SchedulerRuns

namespace AcornOS

open Lib
open scoped List

/-! ## 1. The life of a child -/

/-- The break that a call of `sys_heap_grow` asks for.  Only a positive increment moves it. -/
def newBreak (heapEnd : Nat) (increment : BitVec 64) : Nat :=
  if increment = 0 ∨ increment.slt 0 then heapEnd else heapEnd + increment.toNat

/-- `Lives child s increments t`: the child calls `sys_heap_grow` with these increments, and keeps its
break at or below the user stack.  Meanwhile processes are scheduled, blocked and woken. -/
inductive Lives (child : Nat) (s : Kernel) : List (BitVec 64) → Kernel → Prop
  | start : Lives child s [] s
  | schedule {increments : List (BitVec 64)} {t u : Kernel} (h : Lives child s increments t)
      (hr : Restated t u) : Lives child s increments u
  | grow {increments : List (BitVec 64)} {increment rax : BitVec 64} {t u : Kernel}
      (h : Lives child s increments t) (hcur : t.currentProcess = child)
      (hbreak : newBreak t.current.heapEnd increment ≤ userStackPage)
      (hok : sysHeapGrow t increment = .ok (rax, u)) : Lives child s (increments ++ [increment]) u

/-- `Exits child parent s increments t`: the child has lived and has called `sys_exit`, and the parent is
running again. -/
def Exits (child parent : Nat) (s : Kernel) (increments : List (BitVec 64)) (t : Kernel) : Prop :=
  ∃ u v rdi, Lives child s increments u ∧ u.currentProcess = child ∧ sysExit u rdi = .ok v ∧
    Restated v t ∧ t.currentProcess = parent

/-- `Conserved s t`: the page allocator, the blocks of the kernel heap, the process table and the run
queue are what they were. -/
structure Conserved (s t : Kernel) : Prop where
  pmm : t.machine.pmm = s.machine.pmm
  blocks : ∀ bs, Rep s.heap bs → Rep t.heap bs
  heapUsed : t.heap.heapUsed = s.heap.heapUsed
  table : t.processTable = s.processTable
  queue : ∀ q, s.Queue q → t.Queue q

/-- No page that the child's heap will grow into is mapped by the parent. -/
def Kernel.HeapClear (s : Kernel) (increments : List (BitVec 64)) : Prop :=
  ∀ v, pageCeil s.current.heapEnd ≤ v → v < pageCeil (increments.foldl newBreak s.current.heapEnd) →
    leaf s.machine.mem s.current.root v = none

/-! ## 2. The account of a growing heap -/

/-- `Grows s t x root lo hi`: since `s` the process `x` has taken its pages and has grown its heap from
`lo` to `hi`.  It has lost something if and only if a page there was mapped in the directory `root` that
its own was copied from; the pages from `hi` on are as they were. -/
structure Grows (s t : Machine) (x : Process) (root lo hi : Nat) : Prop where
  account : ∃ N lost, Takes s.pmm t.pmm N ∧ N.toList ~ x.freed t.mem ++ lost ∧
    (lost = [] ↔ ∀ v, lo ≤ v → v < hi → leaf s.mem root v = none)
  rest : ∀ v, LowerHalf v → hi ≤ v → (leaf t.mem x.root v = none ↔ leaf s.mem root v = none)

section Growing

variable {s t u : Machine} {x y : Process} {root lo hi : Nat}

theorem SamePages.freed_eq (h : SamePages x y) (m : Memory) : x.freed m = y.freed m := by
  rw [Process.freed, Process.freed, h.stackFrame_eq, h.root_eq]

theorem Grows.samePages (h : Grows s t x root lo hi) (hsame : SamePages y x) :
    Grows s t y root lo hi := by
  refine ⟨?_, ?_⟩
  · rw [hsame.freed_eq]
    exact h.account
  · rw [hsame.root_eq]
    exact h.rest

/-- **One page more.**  What the page had is lost. -/
theorem Grows.page (h : Grows s t x root lo hi) {f : Nat} {N : Finset Nat} (hv : LowerHalf hi)
    (haligned : hi % pageSize = 0) (hlo : lo ≤ hi)
    (hmap : MappedZeroed t u x.root hi f N) (hex : Exchanged t u x.root hi N) :
    Grows s u x root lo (hi + pageSize) := by
  obtain ⟨N', lost, htakes, hperm, hlost⟩ := h.account
  obtain ⟨others, hold, hnew⟩ := hex
  have hdisj := htakes.disjoint hmap.ext.takes
  refine ⟨⟨N' ∪ N, (leaf t.mem x.root hi).toList ++ lost, htakes.trans hmap.ext.takes, ?_, ?_⟩, ?_⟩
  · generalize (leaf t.mem x.root hi).toList = old at hold ⊢
    have hunion : (N' ∪ N).toList ~ N'.toList ++ N.toList := by
      refine (List.perm_ext_iff_of_nodup (N' ∪ N).nodup_toList ?_).mpr fun q => ?_
      · refine List.nodup_append.mpr ⟨N'.nodup_toList, N.nodup_toList, ?_⟩
        rintro a ha b hb rfl
        exact Finset.disjoint_left.mp hdisj (Finset.mem_toList.mp ha) (Finset.mem_toList.mp hb)
      · rw [Finset.mem_toList, List.mem_append, Finset.mem_toList, Finset.mem_toList, Finset.mem_union]
    unfold Process.freed at hperm ⊢
    refine hunion.trans ((hperm.append_right _).trans ?_)
    rw [← Multiset.coe_eq_coe] at hold hnew ⊢
    simp only [← Multiset.coe_add] at hold hnew ⊢
    rw [hold, hnew]
    abel
  · rw [List.append_eq_nil_iff, Option.toList_eq_nil_iff, hlost, h.rest hi hv (Nat.le_refl hi)]
    constructor
    · rintro ⟨hhere, hbelow⟩ v hv hv'
      rcases Nat.lt_or_ge v hi with hlt | hge
      · exact hbelow v hv hlt
      · have hpage : v / pageSize = hi / pageSize := by
          unfold pageSize at *
          omega
        rw [leaf, path_of_page hpage]
        exact hhere
    · intro hall
      refine ⟨hall hi hlo ?_, fun v hv hv' => hall v hv (hv'.trans_le (Nat.le_add_right hi _))⟩
      exact Nat.lt_add_of_pos_right (by decide)
  · intro w hw hge
    have hne : w / pageSize ≠ hi / pageSize := by
      unfold pageSize at *
      omega
    rw [hmap.others w hw hne]
    exact h.rest w hw ((Nat.le_add_right hi _).trans hge)

/-- The loop of `sys_heap_grow`.  Four pages for each page of the heap are enough. -/
theorem Grows.loop {n : Nat} (h : Grows s t x root lo hi) (hx : x.PagesOk t) (ht : t.Wf)
    (haligned : hi % pageSize = 0) (hlo : lo ≤ hi) (hend : LowerHalf (hi + n * pageSize)) :
    Ensures (forRange (fun i m => growPage x.pageDir (hi + i * pageSize) m) n t)
      (fun _ => t.pmm.freePages.card < 4 * n)
      (fun u => Grows s u x root lo (hi + n * pageSize)) := by
  refine (forRange_invariant (I := fun i u => Grows s u x root lo (hi + i * pageSize) ∧ u.Wf ∧
    Dir u x.root ∧ t.pmm.freePages.card ≤ u.pmm.freePages.card + 4 * i) ?_ ?_).mono
    (fun _ he => he) fun u hu => hu.1
  · rw [Nat.zero_mul, Nat.add_zero]
    exact ⟨h, ht, hx.dir, Nat.le_refl _⟩
  rintro i u hi' ⟨hu, hwf, hdir, hcard⟩
  have hv : LowerHalf (hi + i * pageSize) :=
    (Nat.add_le_add_left (Nat.mul_le_mul_right pageSize hi'.le) hi).trans_lt hend
  have hal : (hi + i * pageSize) % pageSize = 0 := by
    rw [Nat.add_mul_mod_self_right]
    exact haligned
  rw [hx.pageDir]
  refine (mapZeroed_exact (pagePresent + pageWritable + pageUser) hdir hwf hv (by decide)).mono
    (fun _ he => ?_) ?_
  · omega
  rintro w ⟨f, N, hmap, hex⟩
  have htakes := hmap.ext.takes
  have hcard' := htakes.card_add
  have hfew := hmap.few
  refine ⟨?_, hwf.of_takes htakes, hmap.ext.dir, by omega⟩
  rw [Nat.succ_mul, ← Nat.add_assoc]
  exact hu.page hv hal (hlo.trans (Nat.le_add_right hi _)) hmap hex

end Growing

/-! ## 3. From the fork to the wait -/

/-- `Raised s t child b`: what is true of a kernel `t` in which the child that was forked in `s` is alive,
or dead and not yet reaped.  Its break is `b`. -/
structure Raised (s t : Kernel) (child b : Nat) : Prop where
  ok : t.Ok
  mem : child ∈ t.processes
  heap : kmalloc s.heap sizeofProcess = .ok (child, t.heap)
  slot : ∃ i, s.freeSlot = some i ∧ t.processTable = Function.update s.processTable i child
  nextPid : t.nextPid = s.nextPid + 1
  queue : ∀ q, s.Queue q → (∀ p ∈ q, p ∈ s.processes) → t.Queue (q ++ [child])
  heapEnd : (t.pcb child).heapEnd = b
  parentPid : (t.pcb child).parentPid = s.current.pid
  others : ∀ p, p ≠ child → (t.pcb p).pid = (s.pcb p).pid ∧
    (t.pcb p).parentPid = (s.pcb p).parentPid
  pages : Grows s.machine t.machine (t.pcb child) s.current.root (pageCeil s.current.heapEnd)
    (pageCeil b)

section Raising

variable {s t u : Kernel} {child b : Nat}

/-- A child that has joined the table is at the end of the queue. -/
theorem processFork_queue {pid : Nat} (h : s.TableOk) (hok : processFork s = .ok (pid, t))
    (hjoin : Joined s t child s.current.pid) {q : List Nat} (hq : s.Queue q)
    (hmem : ∀ p ∈ q, p ∈ s.processes) : t.Queue (q ++ [child]) := by
  have hchild : child ∈ t.processes := (hjoin.mem child).mpr (Or.inl rfl)
  rcases processFork_cases h hok with href | ⟨u, p, hent, hadd, -⟩
  · exact absurd (href.processes ▸ hchild) hjoin.fresh
  have hp : p ∈ u.processes := (hent.mem p).mpr (Or.inl rfl)
  obtain ⟨t', ht', hr⟩ := schedulerAdd_requeued (s := u) hp.1
  obtain rfl := Except.ok.inj (ht'.symm.trans hadd)
  have hprocs : t'.processes = u.processes := by
    unfold Kernel.processes
    rw [hr.table]
    rfl
  obtain rfl : p = child := ((hjoin.mem p).mp (hprocs ▸ hp)).resolve_right hent.fresh
  have hnot : ∀ a ∈ q, a ≠ p := fun a ha hap => hent.fresh (hap ▸ hmem a ha)
  refine schedulerAdd_queue (hq.congr (fun a ha => ?_) hent.head hent.tail) hp.1
    (fun hpq => hnot p hpq rfl) hadd
  rw [hent.others a (hnot a ha)]

/-- **After the fork.** -/
theorem processFork_raised {pid : Nat} (h : s.Ok) (hcur : s.currentProcess ∈ s.processes)
    (hok : processFork s = .ok (pid, t)) : pid = s.nextPid ∧ ∃ child, child ∈ t.processes ∧
      child ∉ s.processes ∧ Raised s t child s.current.heapEnd ∧ s.machine.pmm.freePages.card =
        t.machine.pmm.freePages.card + ((frames s.machine.mem 4 s.current.root).length + 2) := by
  obtain ⟨hpid, child, hjoin, hpages, hforked⟩ :=
    (processFork_exact h.table h.pages hcur).of_ok hok
  obtain ⟨N, htakes, hperm⟩ := hforked.pages
  refine ⟨hpid, child, (hjoin.mem child).mpr (Or.inl rfl), hjoin.fresh, ⟨⟨hjoin.table, hpages⟩,
    (hjoin.mem child).mpr (Or.inl rfl), hforked.heap, hforked.slot, hjoin.nextPid, fun q hq hmem =>
    processFork_queue h.table hok hjoin hq hmem, hforked.heapEnd, hjoin.parentPid, fun p hp => ?_,
    ⟨N, [], htakes, ?_, ?_⟩, fun v _ _ => hforked.leaves v⟩, ?_⟩
  · obtain ⟨n, hn⟩ := hjoin.others p hp
    rw [hn]
    exact ⟨rfl, rfl⟩
  · rw [List.append_nil]
    exact hperm
  · refine iff_of_true rfl fun v hlo hhi => ?_
    omega
  · have hlen : N.card = (frames s.machine.mem 4 s.current.root).length + 2 := by
      rw [← Finset.length_toList, hperm.length_eq, Process.freed, List.length_append,
        List.length_append, hforked.count]
      rfl
    rw [← htakes.card_add, hlen]

theorem Restated.sameSpaces (h : Restated s t) : SameSpaces s t := by
  refine ⟨h.machine, h.heap, h.table, h.kernelPml4, fun p => ?_⟩
  obtain ⟨_, _, _, _, hp⟩ := h.pcb p
  rw [hp]
  exact ⟨rfl, rfl⟩

/-- **Scheduling** takes nothing and gives nothing back. -/
theorem Raised.restated (h : Raised s t child b) (hr : Restated t u) : Raised s u child b := by
  have hsame := hr.sameSpaces
  obtain ⟨_, _, _, _, hchild⟩ := hr.pcb child
  refine ⟨h.ok.same hsame, hr.processes_eq ▸ h.mem, ?_, ?_, hr.nextPid.trans h.nextPid, fun q hq hmem =>
    hr.queue (h.queue q hq hmem), ?_, ?_, fun p hp => ?_, ?_⟩
  · rw [hr.heap]
    exact h.heap
  · rw [hr.table]
    exact h.slot
  · rw [hchild]
    exact h.heapEnd
  · rw [(hr.pcb child).parentPid_eq]
    exact h.parentPid
  · rw [(hr.pcb p).pid_eq, (hr.pcb p).parentPid_eq]
    exact h.others p hp
  · rw [hr.machine]
    exact h.pages.samePages (hsame.pcb child)

/-- A call that moves the break, without an overflow. -/
theorem sysHeapGrow_eq {increment : BitVec 64} (hcur : t.currentProcess ≠ 0)
    (hpos : ¬ (increment = 0 ∨ increment.slt 0 = true))
    (hbreak : t.current.heapEnd + increment.toNat < 2 ^ 64) :
    sysHeapGrow t increment = (forRange
      (fun i m => growPage t.current.pageDir (pageCeil t.current.heapEnd + i * pageSize) m)
      ((pageCeil (t.current.heapEnd + increment.toNat) - pageCeil t.current.heapEnd) / pageSize)
      t.machine >>= fun m => .ok (BitVec.ofNat 64 t.current.heapEnd,
        { t with machine := m }.modify t.currentProcess fun p =>
          { p with heapEnd := t.current.heapEnd + increment.toNat })) := by
  obtain ⟨h0, hneg⟩ := not_or.mp hpos
  have hadd : add64 t.current.heapEnd increment.toNat = t.current.heapEnd + increment.toNat :=
    add64_eq hbreak
  unfold sysHeapGrow
  rw [if_neg hcur]
  simp only [if_neg h0, if_neg hneg, hadd]

/-- A call that does not move it. -/
theorem sysHeapGrow_still {increment : BitVec 64} (hcur : t.currentProcess ≠ 0)
    (hstill : increment = 0 ∨ increment.slt 0 = true) : sysHeapGrow t increment =
      .ok (if increment = 0 then BitVec.ofNat 64 t.current.heapEnd else -1, t) := by
  unfold sysHeapGrow
  rw [if_neg hcur]
  by_cases h0 : increment = 0
  · simp only [if_pos h0]
  · simp only [if_neg h0, if_pos (hstill.resolve_left h0)]

/-- Rounding up an address at or below the user stack does not overflow. -/
theorem add_lt_of_le_userStackPage {a : Nat} (h : a ≤ userStackPage) : a + 0xFFF < 2 ^ 64 :=
  (Nat.add_le_add_right h 0xFFF).trans_lt (by decide)

theorem pageCeil_mod (a : Nat) : pageCeil a % pageSize = 0 := Nat.mul_mod_left _ _

theorem pageCeil_mono {a c : Nat} (h : a ≤ c) (hc : c + 0xFFF < 2 ^ 64) :
    pageCeil a ≤ pageCeil c := by
  unfold pageCeil
  rw [add64_eq (by omega), add64_eq (by omega)]
  exact Nat.mul_le_mul_right _ (Nat.div_le_div_right (by omega))

/-- The loop runs up to the page boundary behind the new break. -/
theorem pageCeil_add {a c : Nat} (h : a ≤ c) (hc : c + 0xFFF < 2 ^ 64) :
    pageCeil a + (pageCeil c - pageCeil a) / pageSize * pageSize = pageCeil c := by
  have hle := pageCeil_mono h hc
  have hdvd : pageSize ∣ pageCeil c - pageCeil a :=
    Nat.dvd_sub (Nat.dvd_of_mod_eq_zero (pageCeil_mod c)) (Nat.dvd_of_mod_eq_zero (pageCeil_mod a))
  rw [Nat.div_mul_cancel hdvd]
  omega

theorem Raised.mem_iff (h : Raised s t child b) {p : Nat} :
    p ∈ t.processes ↔ p = child ∨ p ∈ s.processes := by
  obtain ⟨i, hslot, htable⟩ := h.slot
  obtain ⟨hi, hfree⟩ := freeSlot_eq_some hslot
  exact mem_processes_fill hi hfree h.mem.1 htable

/-- **A call of `sys_heap_grow`.** -/
theorem Raised.grow (h : Raised s t child b) {increment : BitVec 64}
    (hcur : t.currentProcess = child) (hlo : pageCeil s.current.heapEnd ≤ pageCeil b)
    (hbreak : newBreak b increment ≤ userStackPage) :
    Ensures (sysHeapGrow t increment) (fun _ => t.machine.pmm.freePages.card <
        4 * ((pageCeil (newBreak b increment) - pageCeil b) / pageSize))
      (fun r => Raised s r.2 child (newBreak b increment)) := by
  subst hcur
  have hcur0 : t.currentProcess ≠ 0 := h.mem.1
  have hend : t.current.heapEnd = b := h.heapEnd
  unfold newBreak at hbreak ⊢
  by_cases hstill : increment = 0 ∨ increment.slt 0 = true
  · rw [sysHeapGrow_still hcur0 hstill, if_pos hstill]
    exact ensures_ok.mpr h
  rw [if_neg hstill] at hbreak ⊢
  have hle : b ≤ b + increment.toNat := Nat.le_add_right b _
  have hproc : t.current.PagesOk t.machine := h.ok.pages.procs _ h.mem
  have hceil := pageCeil_add hle (add_lt_of_le_userStackPage hbreak)
  have hloop := h.pages.loop (n := (pageCeil (b + increment.toNat) - pageCeil b) / pageSize) hproc
    h.ok.pages.wf (pageCeil_mod b) hlo (by
      rw [hceil]
      exact (pageCeil_le hbreak).trans_lt (by decide))
  have heq := sysHeapGrow_eq (t := t) hcur0 hstill (hend ▸ hbreak.trans_lt (by decide))
  rw [hend] at heq
  refine ⟨fun {r} hok => ?_, fun herr => ?_⟩
  · have hok' := hok
    rw [heq] at hok'
    obtain ⟨m, hm, hr⟩ := bind_eq_ok.mp hok'
    have hgrows := hloop.of_ok hm
    rw [hceil] at hgrows
    obtain rfl := Except.ok.inj hr
    have hself : ({ t with machine := m }.modify t.currentProcess fun p =>
        { p with heapEnd := b + increment.toNat }).pcb t.currentProcess =
        { t.current with heapEnd := b + increment.toNat } := Kernel.modify_self ..
    have hok_t : Kernel.Ok ({ t with machine := m }.modify t.currentProcess fun p =>
        { p with heapEnd := b + increment.toNat }) := by
      refine (ProcessStep.heapGrow h.mem hok ?_).ok h.ok
      rw [Kernel.current, Kernel.modify_currentProcess, hself]
      exact hbreak
    refine ⟨hok_t, h.mem, h.heap, h.slot, h.nextPid, fun q hq hmem => ?_, ?_, ?_, fun p hp => ?_, ?_⟩
    · refine (h.queue q hq hmem).congr (fun p _ => ?_) rfl rfl
      by_cases hp : p = t.currentProcess
      · rw [hp, hself]
        rfl
      · rw [Kernel.modify_of_ne _ _ _ hp]
    · rw [hself]
    · rw [hself]
      exact h.parentPid
    · rw [Kernel.modify_of_ne _ _ _ hp]
      exact h.others p hp
    · rw [hself]
      exact hgrows.samePages ⟨rfl, rfl⟩
  · have hfail : Ensures (sysHeapGrow t increment) (fun _ => t.machine.pmm.freePages.card <
        4 * ((pageCeil (b + increment.toNat) - pageCeil b) / pageSize)) (fun _ => True) := by
      rw [heq]
      exact Ensures.bind hloop fun m _ => ensures_ok.mpr trivial
    exact hfail.of_error herr

theorem le_newBreak (b : Nat) (increment : BitVec 64) : b ≤ newBreak b increment := by
  unfold newBreak
  split
  · exact Nat.le_refl b
  · exact Nat.le_add_right b _

/-- **The child's life.**  By induction on the calls it has made. -/
theorem Lives.raised {increments : List (BitVec 64)} (h : Lives child u increments t)
    (hu : Raised s u child s.current.heapEnd) :
    Raised s t child (increments.foldl newBreak s.current.heapEnd) ∧
      pageCeil s.current.heapEnd ≤ pageCeil (increments.foldl newBreak s.current.heapEnd) := by
  induction h with
  | start => exact ⟨hu, Nat.le_refl _⟩
  | schedule _ hr ih => exact ⟨ih.1.restated hr, ih.2⟩
  | grow _ hcur hbreak hok ih =>
    obtain ⟨hraised, hlo⟩ := ih
    rw [Kernel.current, hcur, hraised.heapEnd] at hbreak
    rw [List.foldl_append, List.foldl_cons, List.foldl_nil]
    exact ⟨(hraised.grow hcur hlo hbreak).of_ok hok,
      hlo.trans (pageCeil_mono (le_newBreak _ _) (add_lt_of_le_userStackPage hbreak))⟩

/-- Reaping gives back what the child owns: the page allocator is as before if and only if nothing is
lost. -/
theorem Grows.restores {m : Machine} {x : Process} {root lo hi : Nat} {k : Machine}
    (h : Grows k m x root lo hi) : m.pmm.releaseAll (x.freed m.mem) = k.pmm ↔
      ∀ v, lo ≤ v → v < hi → leaf k.mem root v = none := by
  obtain ⟨N, lost, htakes, hperm, hlost⟩ := h.account
  have hnodup := hperm.nodup_iff.mp N.nodup_toList
  rw [← hlost]
  constructor
  · intro heq
    refine List.eq_nil_iff_forall_not_mem.mpr fun f hf => ?_
    -- a lost frame is still in use, and was free before
    have hN : f ∈ N := Finset.mem_toList.mp (hperm.mem_iff.mpr (List.mem_append_right _ hf))
    have hfree := (Pmm.mem_freePages.mp (htakes.free hN)).2
    have hnot : f ∉ x.freed m.mem := fun hf' => (List.nodup_append.mp hnodup).2.2 f hf' f hf rfl
    rw [← heq, Pmm.test_releaseAll, decide_eq_false hnot, Bool.or_false, htakes.test_mem hN] at hfree
    cases hfree
  · rintro rfl
    rw [List.append_nil] at hperm hnodup
    exact htakes.releaseAll hnodup fun f => hperm.mem_iff.symm.trans Finset.mem_toList

/-- What reaping does to the kernel heap and to the page allocator. -/
theorem reap_frees {i : Nat} (h : t.Ok) (hi : i < maxProcesses) (hne : t.processTable i ≠ 0)
    (hok : reap t i = .ok u) : kfree t.heap (t.processTable i) = .ok u.heap ∧
      u.machine.pmm = t.machine.pmm.releaseAll ((t.pcb (t.processTable i)).freed t.machine.mem) := by
  have hp := mem_processes hi hne
  have hr := schedulerRemove_requeued t (t.processTable i)
  obtain ⟨n, hn⟩ := hr.pcb (t.processTable i)
  obtain ⟨-, hpmm⟩ := (h.pages.procs _ hp).free_eq h.pages.wf (fun f hf => h.pages.used hp hf)
    fun f hf => h.pages.pos hp hf
  unfold reap at hok
  obtain ⟨heap, hfree, hok⟩ := bind_eq_ok.mp hok
  obtain rfl := Except.ok.inj hok
  rw [hr.heap] at hfree
  refine ⟨hfree, ?_⟩
  simp only [hr.machine, hn]
  exact hpmm

/-- The PCB's block is merged back into the free block it came from. -/
theorem kfree_kmalloc {h h' h'' : KHeap} {bs : List Block} {p n : Nat} (hr : Rep h bs)
    (hmalloc : kmalloc h n = .ok (p, h')) (hfree : kfree h' p = .ok h'') : Rep h'' bs := by
  obtain ⟨bs', x, m, hr', rfl, -, hperm⟩ := (kmalloc_spec hr).of_ok hmalloc
  obtain ⟨g, bs'', hg, hr'', hperm'⟩ := kfree_spec hr' (hperm.mem_iff.mpr List.mem_cons_self)
  obtain rfl := Except.ok.inj (hfree.symm.trans hg)
  obtain rfl := hr.unique hr'' ((List.perm_cons _).mp (hperm'.symm.trans hperm))
  exact hr''

/-- The child leaves the queue as it was before it came. -/
theorem Raised.dequeue {q : List Nat} (h : Raised s t child b) (hq : s.Queue q)
    (hmem : ∀ p ∈ q, p ∈ s.processes) (hfresh : child ∉ s.processes) :
    (schedulerRemove t child).Queue q := by
  have hqueue := h.queue q hq hmem
  have hlen : (q ++ [child]).length ≤ maxProcesses := by
    refine length_le_maxProcesses (s := t) (fun p hp => ?_) hqueue.nodup
    rw [List.mem_append, List.mem_singleton] at hp
    exact h.mem_iff.mpr (hp.symm.imp_right (hmem p))
  have hfilter : (q ++ [child]).filter (· ≠ child) = q := by
    rw [List.filter_append, List.filter_eq_self.mpr fun p hp => decide_eq_true ?_]
    · simp
    · rintro rfl
      exact hfresh (hmem p hp)
  rw [← hfilter]
  exact schedulerRemove_queue hqueue (by simp) hlen

/-- **The wait.** -/
theorem Raised.reap {i : Nat} {q : List Nat} (h : Raised s t child b) (hs : s.TableOk)
    (hq : s.Queue q) (hmem : ∀ p ∈ q, p ∈ s.processes) (hfresh : child ∉ s.processes)
    (hi : i < maxProcesses) (hchild : t.processTable i = child) :
    ∃ u, reap t i = .ok u ∧ u.nextPid = s.nextPid + 1 ∧
      (Conserved s u ↔ ∀ v, pageCeil s.current.heapEnd ≤ v → v < pageCeil b →
        leaf s.machine.mem s.current.root v = none) := by
  have hne : t.processTable i ≠ 0 := hchild ▸ h.mem.1
  obtain ⟨u, hok, -⟩ := reap_spec h.ok.table h.ok.pages hi hne
  obtain ⟨hleft, htable, hpcb, hhead, htail⟩ := reap_cases h.ok.table hi hne hok
  obtain ⟨hfree, hpmm⟩ := reap_frees h.ok hi hne hok
  rw [hchild] at hpcb hhead htail hfree hpmm
  have hblocks : ∀ bs, Rep s.heap bs → Rep u.heap bs := fun bs hr =>
    kfree_kmalloc hr h.heap hfree
  obtain ⟨i', hslot, htable'⟩ := h.slot
  obtain ⟨hi', hempty⟩ := freeSlot_eq_some hslot
  obtain rfl : i = i' := by
    have hself : t.processTable i' = child := by rw [htable', Function.update_self]
    exact h.ok.table.slots i i' hi hi' (hchild.trans hself.symm) hne
  refine ⟨u, hok, hleft.nextPid.trans h.nextPid, ?_⟩
  rw [← h.pages.restores, ← hpmm]
  refine ⟨fun hres => hres.pmm, fun hres => ⟨hres, hblocks, ?_, ?_, fun q' hq' => ?_⟩⟩
  · obtain ⟨bs, hr, -⟩ := hs.heap
    rw [(hblocks bs hr).used, hr.used]
  · rw [htable, htable', Function.update_idem, ← hempty, Function.update_eq_self]
  · obtain rfl := hq.unique hq'
    refine (h.dequeue hq hmem hfresh).congr (fun p _ => ?_) hhead htail
    rw [hpcb]

/-- **The `sys_wait` that finds the child.** -/
theorem Exits.reaped {parent i : Nat} {q : List Nat} {increments : List (BitVec 64)}
    (h : Exits child parent u increments t) (hu : Raised s u child s.current.heapEnd) (hs : s.TableOk)
    (hq : s.Queue q) (hmem : ∀ p ∈ q, p ∈ s.processes) (hfresh : child ∉ s.processes)
    (hdead : deadChild t = some i) (hslot : t.processTable i = child) :
    ∃ rax w, sysWaitRound t = .ok (some rax, w) ∧ w.nextPid = s.nextPid + 1 ∧
      (Conserved s w ↔ s.HeapClear increments) := by
  obtain ⟨v, v', rdi, hlives, -, hexit, hr, -⟩ := h
  have ht := ((hlives.raised hu).1.restated (restated_sysExit hexit)).restated hr
  obtain ⟨w, hreap, hnext, hiff⟩ := ht.reap hs hq hmem hfresh (findSlot_eq_some hdead).1 hslot
  refine ⟨(t.pcb (t.processTable i)).exitCode.signExtend 64, w, ?_, hnext, hiff⟩
  unfold sysWaitRound
  simp only [hdead, hreap]
  rfl

end Raising

/-! ## 4. The balance -/

/-- **The life of a child conserves resources, exactly when its heap meets no mapped page.**  Take any
kernel whose heap, pages, table and queue are in order, with room for a fork.  Then the fork succeeds;
each growth of the child's heap succeeds if there are four free pages for each page of it; its exit
succeeds; and the `sys_wait` that reaps it gives back the pages, the PCB, the slot and the place in the
queue, if and only if nothing was mapped before the fork where its heap has grown.  The next PID has
moved on. -/
theorem lifecycle_conserves_iff (s : Kernel) (q : List Nat) (h : s.Ok) (hq : s.Queue q)
    (hmem : ∀ p ∈ q, p ∈ s.processes) (hcur : s.currentProcess ∈ s.processes)
    (hroom : ¬ s.ForkFull) :
    ∃ child u, processFork s = .ok (s.nextPid, u) ∧ child ∈ u.processes ∧ child ∉ s.processes ∧
      (∀ increments t increment, Lives child u increments t → t.currentProcess = child →
        newBreak t.current.heapEnd increment ≤ userStackPage →
        4 * ((pageCeil (newBreak t.current.heapEnd increment) - pageCeil t.current.heapEnd) /
          pageSize) ≤ t.machine.pmm.freePages.card →
        ∃ rax w, sysHeapGrow t increment = .ok (rax, w)) ∧
      (∀ t rdi, t.currentProcess = child → ∃ w, sysExit t rdi = .ok w) ∧
      ∀ increments t i, Exits child s.currentProcess u increments t → deadChild t = some i →
        t.processTable i = child → ∃ rax w, sysWaitRound t = .ok (some rax, w) ∧
          w.nextPid = s.nextPid + 1 ∧ (Conserved s w ↔ s.HeapClear increments) := by
  obtain ⟨⟨pid, u⟩, hfork, -⟩ :=
    (processFork_exact h.table h.pages hcur).exists_ok fun _ => hroom
  obtain ⟨rfl, child, hchild, hfresh, hraised, -⟩ := processFork_raised h hcur hfork
  refine ⟨child, u, hfork, hchild, hfresh, fun increments t increment hlives hcur' hbreak hpages => ?_,
    fun t rdi hcur' => ?_, fun increments t i hexits hdead hslot => ?_⟩
  · obtain ⟨ht, hlo⟩ := hlives.raised hraised
    have hend : t.current.heapEnd = increments.foldl newBreak s.current.heapEnd := by
      rw [Kernel.current, hcur']
      exact ht.heapEnd
    rw [hend] at hbreak hpages
    obtain ⟨⟨rax, w⟩, hok, -⟩ := (ht.grow hcur' hlo hbreak).exists_ok fun _ hfew =>
      absurd hpages (Nat.not_le.mpr hfew)
    exact ⟨rax, w, hok⟩
  · unfold sysExit
    rw [if_neg (hcur' ▸ hchild.1)]
    exact ⟨_, rfl⟩
  · exact hexits.reaped hraised h.table hq hmem hfresh hdead hslot

/-! ## 5. A parent with one page -/

/-- More memory is never a problem. -/
theorem Kernel.PagesOk.moreRam {s : Kernel} {n : Nat} (h : s.PagesOk)
    (hn : s.machine.pmm.totalPages ≤ n) (hn' : n ≤ 2 ^ 35) :
    { s with machine := ⟨s.machine.mem, { s.machine.pmm with totalPages := n }⟩ : Kernel }.PagesOk := by
  have hused : ∀ f, s.machine.pmm.Used f → Pmm.Used { s.machine.pmm with totalPages := n } f :=
    fun f hf => ⟨hf.1.trans_le hn, hf.2⟩
  refine ⟨⟨⟨hn'.trans (by decide), h.wf.pmm.zero_used⟩, hn'⟩, h.kernel, fun p hp => ?_,
    fun o ho f hf => hused f (h.owns.used o ho hf), h.owns.disjoint⟩
  exact ((h.procs p hp).keep (t := ⟨s.machine.mem, { s.machine.pmm with totalPages := n }⟩) h.wf
    (OnlyIn.refl _ ∅) (fun _ _ => id) fun f hf => hused f (h.used hp hf)).1

/-- The memory of `onePageMachine`, and 32 pages of which the first twelve are in use. -/
def roomyMachine : Machine := ⟨onePageMachine.mem, { twelveUsed.pmm with totalPages := 32 }⟩

/-- A process with one page, at address 0, and the idle process.  The first is running, and its heap ends
at `heapEnd`; it was to start at the last page of the address space. -/
def parentAndIdle (heap : KHeap) (p idle heapEnd : Nat) : Kernel where
  machine := roomyMachine
  heap := heap
  pcb a := if a = p then
      { pcbWithPages 6 1 with
        pid := 1, next := idle, isUser := true, heapStart := 2 ^ 64 - 4096, heapEnd := heapEnd }
    else { pcbWithPages 9 8 with state := .ready, next := p }
  processTable := twoSlots p idle
  currentProcess := p
  nextPid := 2
  runQueueHead := idle
  runQueueTail := p
  kernelPml4 := frameAddr 7
  iretToUsermode := 0

section ParentAndIdle

variable {heap heap' : KHeap} {p idle e : Nat} {memory : Headers}

theorem parentAndIdle_self : (parentAndIdle heap p idle e).pcb p =
    { pcbWithPages 6 1 with
      pid := 1, next := idle, isUser := true, heapStart := 2 ^ 64 - 4096, heapEnd := e } :=
  if_pos rfl

theorem parentAndIdle_of_ne {a : Nat} (ha : a ≠ p) : (parentAndIdle heap p idle e).pcb a =
    { pcbWithPages 9 8 with state := .ready, next := p } :=
  if_neg ha

theorem parentAndIdle_ok (hp : kmalloc (memInit memory) sizeofProcess = .ok (p, heap'))
    (hidle : kmalloc heap' sizeofProcess = .ok (idle, heap)) :
    (parentAndIdle heap p idle e).Ok := by
  have htwo := twoProcesses_ok hp hidle
  have hroomy : Kernel.Ok { twoProcesses heap (twoSlots p idle) p with machine := roomyMachine } :=
    ⟨htwo.table.congr rfl rfl, htwo.pages.moreRam (n := 32) (show 16 ≤ 32 by decide) (by decide)⟩
  refine hroomy.same ⟨rfl, rfl, rfl, rfl, fun a => ?_⟩
  change SamePages (if a = p then _ else _) (if a = p then _ else _)
  split
  · exact ⟨rfl, rfl⟩
  · exact ⟨rfl, rfl⟩

/-- The scheduler's invariant. -/
theorem parentAndIdle_scheduling (hp : kmalloc (memInit memory) sizeofProcess = .ok (p, heap'))
    (hidle : kmalloc heap' sizeofProcess = .ok (idle, heap)) :
    (⟨parentAndIdle heap p idle e, [0, 1], []⟩ : Scheduling).Ok [idle, p] := by
  obtain ⟨hne, hmem, -⟩ := twoProcesses_table hp hidle
  have hmem' : ∀ a, a ∈ (parentAndIdle heap p idle e).processes ↔ a = idle ∨ a = p := hmem
  have hp0 : p ≠ 0 := ((hmem p).mpr (Or.inr rfl)).1
  have hidle0 : idle ≠ 0 := ((hmem idle).mpr (Or.inl rfl)).1
  have hself := @parentAndIdle_self heap p idle e
  have hother := @parentAndIdle_of_ne heap p idle e idle hne.symm
  have hok := @parentAndIdle_ok heap heap' p idle e memory hp hidle
  generalize hk : parentAndIdle heap p idle e = k at hmem' hself hother hok ⊢
  have hcur : k.currentProcess = p := by rw [← hk]; rfl
  have hnext : k.nextPid = 2 := by rw [← hk]; rfl
  refine ⟨⟨⟨?_, ?_, ?_, ?_, ?_⟩, ?_, by simp, by simp⟩, ⟨hok.table, ?_, ?_, ?_, ?_, ?_, ?_⟩, ?_, ?_⟩
  · refine (@ring_iff_isChain _ _ [idle] _).mpr ?_
    simp [Leads, Kernel.link, hself, hother]
  · rw [← hk]
    rfl
  · rw [← hk]
    rfl
  · simp [hne.symm]
  · simp [hp0.symm, hidle0.symm]
  · simp [Kernel.pids, hself, hother, pcbWithPages]
  · simp [hmem']
  · simp [hmem', hself, hother, hnext, pcbWithPages]
  · intro a ha c hc heq
    rcases (hmem' a).mp ha with rfl | rfl <;> rcases (hmem' c).mp hc with rfl | rfl <;>
      simp_all [pcbWithPages]
  · simp [hnext]
  · simp [hmem', hself, hother, pcbWithPages]
  · simp [hmem', hself, hother, hcur, pcbWithPages]
  · simp [hcur]
  · refine ⟨idle, by simp, ?_, ?_⟩
    · simp [hother, pcbWithPages]
    · simp [Kernel.Runnable, hother]

theorem parentAndIdle_root : (parentAndIdle heap p idle e).current.root = 1 := by
  have hcurrent : (parentAndIdle heap p idle e).current = _ := parentAndIdle_self
  rw [hcurrent]
  exact frame_of_addr (by decide)

theorem parentAndIdle_heapEnd : (parentAndIdle heap p idle e).current.heapEnd = e := by
  have hcurrent : (parentAndIdle heap p idle e).current = _ := parentAndIdle_self
  rw [hcurrent]

theorem parentAndIdle_room {r : Nat × KHeap} (hnew : kmalloc heap sizeofProcess = .ok r) :
    ¬ (parentAndIdle heap p idle e).ForkFull := by
  rintro (hslot | ⟨e, he⟩ | hcard)
  · have := findSlot_eq_none (i := 2) hslot (by decide)
    cases this
  · cases hnew.symm.trans he
  · rw [parentAndIdle_root] at hcard
    change roomyMachine.pmm.freePages.card < (frames onePageMachine.mem 4 1).length + 2 at hcard
    rw [frames_onePageMachine] at hcard
    revert hcard
    decide

/-- A child that is dispatched, grows its heap by one increment and exits, is found by its parent. -/
theorem parentAndIdle_exits {child : Nat} {u : Kernel} (increment : BitVec 64)
    (hu : Raised (parentAndIdle heap p idle e) u child e)
    (hbreak : newBreak e increment ≤ userStackPage)
    (hpages : 4 * ((pageCeil (newBreak e increment) - pageCeil e) / pageSize) ≤
      u.machine.pmm.freePages.card) (hpc : p ≠ child) :
    ∃ t i, Exits child p u [increment] t ∧ deadChild t = some i ∧ t.processTable i = child := by
  have hstart := hu.restated (restated_setCurrent u child)
  have hlo : pageCeil (parentAndIdle heap p idle e).current.heapEnd ≤ pageCeil e := by
    rw [parentAndIdle_heapEnd]
  obtain ⟨⟨rax, v⟩, hgrow, hv⟩ := (hstart.grow rfl hlo hbreak).exists_ok fun _ hfew =>
    absurd hpages (Nat.not_le.mpr hfew)
  have hlives : Lives child u [increment] v := by
    refine Lives.grow (Lives.start.schedule (restated_setCurrent u child)) rfl ?_ hgrow
    exact (hstart.heapEnd.symm ▸ hbreak :)
  have hrun := hlives.schedule (restated_setCurrent v child)
  obtain ⟨w, hexit⟩ : ∃ w, sysExit { v with currentProcess := child } 0 = .ok w := by
    unfold sysExit
    rw [if_neg (show child ≠ 0 from hu.mem.1)]
    exact ⟨_, rfl⟩
  have ht := ((hv.restated (restated_setCurrent v child)).restated (restated_sysExit hexit)).restated
    (restated_setCurrent w p)
  have hdead : (w.pcb child).state = .dead := (sysExit_spec hexit).1
  have hpid : (w.pcb p).pid = 1 := by
    rw [(ht.others p hpc).1, parentAndIdle_self]
  have hparent : (w.pcb child).parentPid = 1 := by
    have hcurrent : (parentAndIdle heap p idle e).current = _ := parentAndIdle_self
    rw [ht.parentPid, hcurrent]
  refine ⟨{ w with currentProcess := p }, ?_⟩
  cases hfind : deadChild { w with currentProcess := p } with
  | none =>
    obtain ⟨hc0, i, hi, hslot⟩ := ht.mem
    have hnot := findSlot_eq_none hfind hi
    rw [hslot] at hnot
    simp [Kernel.current, hc0, hparent, hpid, hdead] at hnot
  | some i =>
    obtain ⟨hi, htest⟩ := findSlot_eq_some hfind
    refine ⟨i, ⟨_, w, 0, hrun, rfl, hexit, restated_setCurrent w p, rfl⟩, rfl, ?_⟩
    by_contra hne
    have hother := (ht.others _ hne).2
    simp only [Kernel.current, hpid, Bool.and_eq_true, beq_iff_eq] at htest
    -- nobody else is a child of the process with PID 1
    have hzero : ∀ a, ((parentAndIdle heap p idle e).pcb a).parentPid = 0 := by
      intro a
      change Process.parentPid (if a = p then _ else _) = 0
      split
      · rfl
      · rfl
    rw [hzero] at hother
    rw [hother] at htest
    exact absurd htest.1.2 (by decide)

end ParentAndIdle

/-- Three PCBs. -/
theorem exists_three_pcbs : ∃ p idle heap' heap r,
    kmalloc (memInit fun _ => ⟨0, false, 0⟩) sizeofProcess = .ok (p, heap') ∧
    kmalloc heap' sizeofProcess = .ok (idle, heap) ∧ kmalloc heap sizeofProcess = .ok r :=
  ⟨_, _, _, _, _, rfl, rfl, rfl⟩

/-- The free pages that `parentAndIdle` has after the fork. -/
theorem parentAndIdle_fork {heap : KHeap} {p idle e : Nat} {u : Kernel}
    (h : (parentAndIdle heap p idle e).Ok) (hcur : p ∈ (parentAndIdle heap p idle e).processes)
    (hfork : processFork (parentAndIdle heap p idle e) = .ok (2, u)) : ∃ child, child ∈ u.processes ∧
      child ∉ (parentAndIdle heap p idle e).processes ∧
      Raised (parentAndIdle heap p idle e) u child e ∧ u.machine.pmm.freePages.card = 14 := by
  obtain ⟨-, child, hmem, hfresh, hraised, hcard⟩ := processFork_raised h hcur hfork
  rw [parentAndIdle_root, parentAndIdle_heapEnd] at *
  refine ⟨child, hmem, hfresh, hraised, ?_⟩
  change roomyMachine.pmm.freePages.card =
    u.machine.pmm.freePages.card + ((frames onePageMachine.mem 4 1).length + 2) at hcard
  have hfree : roomyMachine.pmm.freePages.card = 20 := by decide
  rw [frames_onePageMachine, hfree, List.length_cons, List.length_cons, List.length_cons,
    List.length_cons, List.length_nil] at hcard
  omega

/-- A break at the last page of the address space, and one page more. -/
theorem parentAndIdle_wraps {heap : KHeap} {p idle : Nat} (hp : p ≠ 0) :
    ∃ rax, sysHeapGrow (parentAndIdle heap p idle (2 ^ 64 - 4096)) 0x1000 =
      .ok (rax, parentAndIdle heap p idle 0) := by
  have hpcb : Function.update (parentAndIdle heap p idle (2 ^ 64 - 4096)).pcb p
      { (parentAndIdle heap p idle (2 ^ 64 - 4096)).pcb p with heapEnd := 0 } =
      (parentAndIdle heap p idle 0).pcb := by
    funext a
    by_cases ha : a = p
    · rw [ha, Function.update_self, parentAndIdle_self, parentAndIdle_self]
    · rw [Function.update_of_ne ha, parentAndIdle_of_ne ha, parentAndIdle_of_ne ha]
  have hk : (parentAndIdle heap p idle (2 ^ 64 - 4096)).modify p (fun x => { x with heapEnd := 0 }) =
      parentAndIdle heap p idle 0 := by
    unfold Kernel.modify
    rw [hpcb]
    rfl
  have hend : add64 (2 ^ 64 - 4096) (0x1000 : BitVec 64).toNat = 0 := by decide
  have hnone : (pageCeil 0 - pageCeil (2 ^ 64 - 4096)) / pageSize = 0 := by decide
  unfold sysHeapGrow
  rw [if_neg (show (parentAndIdle heap p idle (2 ^ 64 - 4096)).currentProcess ≠ 0 from hp)]
  simp only [parentAndIdle_heapEnd]
  rw [if_neg (by decide), if_neg (by decide), hend, hnone]
  exact ⟨_, congrArg (fun k => Except.ok (BitVec.ofNat 64 (2 ^ 64 - 4096), k)) hk⟩

/-- The child of a process whose heap starts behind its page grows by 5000 bytes. -/
theorem lifecycle_conserves_5000 : ∃ (s u t w : Kernel) (child i : Nat) (rax : BitVec 64),
    processFork s = .ok (s.nextPid, u) ∧ Exits child s.currentProcess u [5000] t ∧
      deadChild t = some i ∧ t.processTable i = child ∧ sysWaitRound t = .ok (some rax, w) ∧
      Conserved s w := by
  obtain ⟨p, idle, heap', heap, r, hp, hidle, hnew⟩ := exists_three_pcbs
  have hok := parentAndIdle_ok (e := 4096) hp hidle
  have hx := parentAndIdle_scheduling (e := 4096) hp hidle
  have hcur := hx.live.mem p (by simp)
  obtain ⟨child, u, hfork, hchild, hfresh, -, -, hwait⟩ := lifecycle_conserves_iff _ _ hok
    hx.listed.queue hx.live.mem hcur (parentAndIdle_room hnew)
  obtain ⟨child', -, -, hraised, hcard⟩ := parentAndIdle_fork hok hcur hfork
  obtain rfl : child = child' := (hraised.mem_iff.mp hchild).resolve_right hfresh
  obtain ⟨t, i, hexits, hdead, hslot⟩ := parentAndIdle_exits 5000 hraised (by decide)
    (by rw [hcard]; decide) (fun heq => hfresh (heq ▸ hcur))
  obtain ⟨rax, w, hround, -, hiff⟩ := hwait [5000] t i hexits hdead hslot
  refine ⟨_, u, t, w, child, i, rax, hfork, hexits, hdead, hslot, hround, hiff.mpr ?_⟩
  intro v hlo hhi
  rw [parentAndIdle_heapEnd] at hlo hhi
  have hlo : 4096 ≤ v := hlo
  have hhi : v < 12288 := hhi
  rw [parentAndIdle_root]
  refine (leaf_onePageMachine (by omega)).trans (if_neg (by omega))

/-- **A wrapped break makes the child lose a page.**  The parent's break is at the last page of the address
space, as an image with an empty segment there leaves it; one call of `sys_heap_grow` takes it round to
0, where the parent has its page.  The scheduler's and the allocators' invariants hold.  A child that
then grows its heap by one byte leaves a page in use when it has been reaped. -/
theorem child_leaves_page : ∃ (s₀ s u t w : Kernel) (q : List Nat) (child i : Nat)
    (rax rax' : BitVec 64), s₀.current.heapEnd = s₀.current.heapStart ∧
    sysHeapGrow s₀ 0x1000 = .ok (rax', s) ∧ s.Ok ∧ (⟨s, [0, 1], []⟩ : Scheduling).Ok q ∧
    ¬ s.ForkFull ∧ processFork s = .ok (s.nextPid, u) ∧ child ∈ u.processes ∧ child ∉ s.processes ∧
    Exits child s.currentProcess u [1] t ∧ deadChild t = some i ∧ t.processTable i = child ∧
    sysWaitRound t = .ok (some rax, w) ∧ ¬ Conserved s w := by
  obtain ⟨p, idle, heap', heap, r, hp, hidle, hnew⟩ := exists_three_pcbs
  have hok := parentAndIdle_ok (e := 0) hp hidle
  have hx := parentAndIdle_scheduling (e := 0) hp hidle
  have hcur := hx.live.mem p (by simp)
  have hroom := @parentAndIdle_room heap p idle 0 r hnew
  obtain ⟨rax', hwrap⟩ := @parentAndIdle_wraps heap p idle hcur.1
  obtain ⟨⟨pid, u⟩, hfork, hpid, -⟩ :=
    (processFork_exact hok.table hok.pages hcur).exists_ok fun _ => hroom
  obtain rfl : pid = 2 := hpid
  obtain ⟨child, hchild, hfresh, hraised, hcard⟩ := parentAndIdle_fork hok hcur hfork
  obtain ⟨t, i, hexits, hdead, hslot⟩ := parentAndIdle_exits 1 hraised (by decide)
    (by rw [hcard]; decide) (fun heq => hfresh (heq ▸ hcur))
  obtain ⟨rax, w, hround, -, hiff⟩ := hexits.reaped (parentAndIdle_heapEnd.symm ▸ hraised) hok.table
    hx.listed.queue hx.live.mem hfresh hdead hslot
  refine ⟨_, _, u, t, w, _, child, i, rax, rax', ?_, hwrap, hok, hx, hroom, hfork, hchild, hfresh,
    hexits, hdead, hslot, hround, fun hres => ?_⟩
  · rw [parentAndIdle_heapEnd]
    exact congrArg Process.heapStart parentAndIdle_self.symm
  · have hclear := hiff.mp hres 0
    rw [parentAndIdle_heapEnd, parentAndIdle_root] at hclear
    have hleaf : leaf onePageMachine.mem 1 0 = none := hclear (by decide) (by decide)
    rw [leaf_onePageMachine (by decide)] at hleaf
    cases hleaf

end AcornOS
