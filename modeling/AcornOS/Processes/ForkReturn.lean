/-
# What a forked child finds in its registers

A SYS_FORK call copies the caller's registers by hand FOUR times: `syscall_entry` pushes them as a
`registers_t`, `sys_fork` stores some of that frame in the PCB, `process_fork` copies the PCB and
builds a frame for `iretq`, and `switch_context` and `iret_to_usermode` load some of both when the
child is first dispatched.  This module composes the four.

The composition loses eight registers.

* R12 to R15 are in the frame, but `sys_fork` does not store them: the child gets what the parent's
  PCB held from the last time the parent was switched out.
* RDI is stored in the child's PCB, but the ring 0 restore of `switch_context` does not load it: the
  child gets the pointer to the PCB of the process it was switched from.
* R8, R9 and R10 are not stored at all.

`fork_transparent_iff` says that the child has the parent's registers exactly when these eight
happen to have the right values beforehand; the other registers are always right.
-/
import AcornOS.Arch.SyscallEntry
import AcornOS.Processes.PageOwnership

namespace AcornOS

open Lib

/-! ## 1. The child that `process_fork` makes -/

/-- `NewChild s t child`: the child at `child` is made from the current process of `s`, with its kernel
stack in frame `f`. -/
structure NewChild (s t : Kernel) (child f : Nat) : Prop where
  pcb : ∃ heap, kmalloc s.heap sizeofProcess = .ok (child, heap)
  page : ∃ pm, pmmAlloc s.machine.pmm = .ok (f * pageSize, pm)
  cpu : (t.pcb child).cpu = childCpu s.current (frameAddr f + 8 * 511) s.iretToUsermode
  stack : (t.pcb child).stack = frameAddr f
  frame : s.current.isUser = true →
    ∃ m, t.machine.mem = iretFrame m (frameAddr f + 8 * 511) s.current

theorem pmmAlloc_page {pm pm' : Pmm} {a : Nat} (h : pmmAlloc pm = .ok (a, pm')) :
    ∃ f, a = f * pageSize := by
  unfold pmmAlloc at h
  split at h
  · rename_i i _
    refine ⟨i % 2 ^ 52, ?_⟩
    rw [← (Prod.mk.inj (Except.ok.inj h)).1]
    unfold pageSize
    omega
  · cases h

theorem schedulerAdd_ok {s t : Kernel} {p : Nat} (h : schedulerAdd s p = .ok t) :
    Requeued (s.modify p fun x => { x with state := .ready }) t := by
  by_cases hp : p = 0
  · rw [schedulerAdd, if_pos hp] at h
    cases h
  · obtain ⟨u, hu, hr⟩ := schedulerAdd_requeued (s := s) hp
    rw [hu] at h
    exact Except.ok.inj h ▸ hr

/-- A process in the table that was not there before is the child. -/
theorem processFork_child {s t : Kernel} {pid child : Nat} (h : processFork s = .ok (pid, t))
    (hnew : child ∈ t.processes) (hold : child ∉ s.processes) : ∃ f, NewChild s t child f := by
  unfold processFork at h
  split at h
  · cases h
  split at h
  · cases h
  rename_i slot hslot
  obtain ⟨⟨p, heap⟩, hkmalloc, h⟩ := bind_eq_ok.mp h
  simp only at h
  split at h
  · rw [← (Prod.mk.inj (Except.ok.inj h)).2] at hnew
    exact absurd hnew hold
  rename_i hp0
  obtain ⟨⟨a, pm⟩, halloc, h⟩ := bind_eq_ok.mp h
  obtain ⟨f, rfl⟩ := pmmAlloc_page halloc
  simp only at h
  rw [physicalToVirtual_page] at h
  by_cases hstack : f * pageSize = 0 ∨ frameAddr f = 0
  · rw [if_pos hstack] at h
    obtain ⟨heap', -, h⟩ := bind_eq_ok.mp h
    rw [← (Prod.mk.inj (Except.ok.inj h)).2] at hnew
    exact absurd hnew hold
  rw [if_neg hstack] at h
  obtain ⟨⟨dir, u⟩, -, h⟩ := bind_eq_ok.mp h
  simp only at h
  by_cases hdir : dir = 0
  · rw [if_pos hdir] at h
    cases h
  rw [if_neg hdir] at h
  have htop : sub64 (add64 (frameAddr f) pageSize) 8 = frameAddr f + 8 * 511 := stackTop_eq f
  rw [htop] at h
  obtain ⟨v, hadd, h⟩ := bind_eq_ok.mp h
  obtain rfl := (Prod.mk.inj (Except.ok.inj h)).2
  generalize hx : Process.mk _ _ _ _ _ _ _ _ _ _ _ _ _ _ _ _ _ _ = x at hadd
  have hr := schedulerAdd_ok hadd
  obtain ⟨hi, hfree⟩ := freeSlot_eq_some hslot
  obtain rfl : child = p :=
    ((mem_processes_fill (t := v) hi hfree hp0 hr.table).mp hnew).resolve_right hold
  obtain ⟨n, hn⟩ := hr.pcb child
  rw [Kernel.modify_self, Kernel.install_self] at hn
  refine ⟨f, ⟨_, hkmalloc⟩, ⟨_, halloc⟩, ?_, ?_, fun huser => ⟨u.mem, ?_⟩⟩
  · rw [hn, ← hx]
  · rw [hn, ← hx]
  · rw [hr.machine]
    exact congrArg Machine.mem (if_pos huser)

/-- The words of the child's frame that its registers come from. -/
theorem iretFrame_words (m : Memory) (f : Nat) (parent : Process) :
    load64 (iretFrame m (frameAddr f + 8 * 511) parent) (frameAddr f + 8 * 506) = 0 ∧
    load64 (iretFrame m (frameAddr f + 8 * 511) parent) (frameAddr f + 8 * 507) =
      parent.userEip.toNat ∧
    load64 (iretFrame m (frameAddr f + 8 * 511) parent) (frameAddr f + 8 * 510) =
      parent.userEsp.toNat := by
  rw [iretFrame_eq]
  refine ⟨load64_store64_self (by decide), ?_, ?_⟩
  · rw [load64_store64_of_apart (by omega), load64_store64_self parent.userEip.isLt]
  · rw [load64_store64_of_apart (by omega), load64_store64_of_apart (by omega),
      load64_store64_of_apart (by omega), load64_store64_of_apart (by omega),
      load64_store64_self parent.userEsp.isLt]

/-! ## 2. The first dispatch -/

/-- The PCB at `p` in memory holds the registers `cpu`. -/
structure Held (p : BitVec 64) (cpu : CpuState) (m : Memory) : Prop where
  rax : loadWord m (p + 48) = cpu.rax
  rbx : loadWord m (p + 56) = cpu.rbx
  rcx : loadWord m (p + 64) = cpu.rcx
  rdx : loadWord m (p + 72) = cpu.rdx
  rsi : loadWord m (p + 80) = cpu.rsi
  rdi : loadWord m (p + 88) = cpu.rdi
  rbp : loadWord m (p + 96) = cpu.rbp
  rsp : loadWord m (p + 104) = cpu.rsp
  rip : loadWord m (p + 112) = cpu.rip
  rflags : loadWord m (p + 120) = cpu.rflags
  cs : loadWord m (p + 128) = cpu.cs
  ds : loadWord m (p + 136) = cpu.ds
  ss : loadWord m (p + 144) = cpu.ss
  r12 : loadWord m (p + 152) = cpu.r12
  r13 : loadWord m (p + 160) = cpu.r13
  r14 : loadWord m (p + 168) = cpu.r14
  r15 : loadWord m (p + 176) = cpu.r15

/-- `d` is the call of `switch_context(old, child)` that first dispatches a child of `t`.  Its PCB and its
kernel stack are as `t` has them; PCBs and stacks share no byte. -/
structure FirstDispatch (t : Kernel) (child : Nat) (d : Cpu) : Prop extends
    SaveClear (d.reg .rsi) d where
  new : (d.reg .rsi).toNat = child
  pcb : Pcb (d.reg .rsi)
  held : Held (d.reg .rsi) (t.pcb child).cpu d.mem
  stack : ∀ k < 4096, d.mem ((t.pcb child).stack + k) = t.machine.mem ((t.pcb child).stack + k)
  stackClear : ∀ k < 4096, ¬ InPcb (d.reg .rdi) ((t.pcb child).stack + k) ∧
    ((t.pcb child).stack + k < (d.reg .rsp - 8).toNat ∨
      (d.reg .rsp - 8).toNat + 8 ≤ (t.pcb child).stack + k)
  stackApart : ∀ k < 4096, ¬ InPcb (d.reg .rsi) ((t.pcb child).stack + k)

theorem iretToUsermode_spec (c : Cpu) :
    (run iretToUsermode c).rip = loadWord c.mem (c.reg .rsp + 8) ∧
    (run iretToUsermode c).reg .rsp = loadWord c.mem (c.reg .rsp + 32) ∧
    (run iretToUsermode c).reg .rax = loadWord c.mem (c.reg .rsp + 0) ∧
    ∀ r, r ≠ .rax → r ≠ .rsp → (run iretToUsermode c).reg r = c.reg r := by
  have h32 : c.reg .rsp + 8 + 24 = c.reg .rsp + 32 := by
    rw [add_assoc]
    rfl
  simp only [iretToUsermode, run_cons, run_nil, exec, Cpu.setReg, Cpu.setSeg, Cpu.peek,
    Function.update_apply, reduceCtorEq, if_true, if_false, h32, add_zero]
  refine ⟨trivial, trivial, trivial, fun r hax hsp => ?_⟩
  simp [hax, hsp]

/-- `c` has the registers `x`, as far as the ring 0 restore loads them, and the others from `d`. -/
structure Restored (x : CpuState) (d c : Cpu) : Prop where
  rip : c.rip = x.rip
  rsp : c.reg .rsp = x.rsp
  rbx : c.reg .rbx = x.rbx
  rbp : c.reg .rbp = x.rbp
  rdx : c.reg .rdx = x.rdx
  rsi : c.reg .rsi = x.rsi
  r12 : c.reg .r12 = x.r12
  r13 : c.reg .r13 = x.r13
  r14 : c.reg .r14 = x.r14
  r15 : c.reg .r15 = x.r15
  rest : ∀ r ∈ [Reg.rdi, .r8, .r9, .r10], c.reg r = d.reg r

section Dispatch

variable {t : Kernel} {child f : Nat} {d : Cpu}

/-- The slot of entry `i` of a stack's page. -/
theorem toNat_stackSlot {i : Nat} (hi : i < 512) :
    (BitVec.ofNat 64 (frameAddr f + 8 * i)).toNat = frameAddr f + 8 * i := by
  have := frameAddr_add_le f
  rw [BitVec.toNat_ofNat, Nat.mod_eq_of_lt (by omega)]

theorem stackSlot_sub_eight :
    (BitVec.ofNat 64 (frameAddr f + 8 * 506) - 8).toNat = frameAddr f + 8 * 505 := by
  have h506 := @toNat_stackSlot f 506 (by decide)
  have hle : (8 : BitVec 64) ≤ BitVec.ofNat 64 (frameAddr f + 8 * 506) := by
    rw [BitVec.le_def, h506]
    change 8 ≤ _
    omega
  rw [BitVec.toNat_sub_of_le hle, h506]
  change _ - 8 = _
  omega

/-- The save of the dispatching call does not touch the child's stack. -/
theorem FirstDispatch.saveState_stack (h : FirstDispatch t child d) {k : Nat} (hk : k < 4096) :
    (run saveState d).mem ((t.pcb child).stack + k) = t.machine.mem ((t.pcb child).stack + k) := by
  obtain ⟨hpcb, hslot⟩ := h.stackClear k hk
  rw [saveState_mem d h.old hpcb hslot, h.stack k hk]

/-- **The dispatch** loads what it loads, and leaves the frame on the child's stack alone. -/
theorem FirstDispatch.restored (h : FirstDispatch t child d)
    (hstack : (t.pcb child).stack = frameAddr f)
    (hrsp : (t.pcb child).cpu.rsp = BitVec.ofNat 64 (frameAddr f + 8 * 506))
    (hcs : (t.pcb child).cpu.cs &&& 3 = 0) :
    Restored (t.pcb child).cpu d (switchContext d) ∧
      ∀ i, 506 ≤ i → i < 512 →
        loadWord (switchContext d).mem (BitVec.ofNat 64 (frameAddr f + 8 * i)) =
          BitVec.ofNat 64 (load64 t.machine.mem (frameAddr f + 8 * i)) := by
  have hword : ∀ b : BitVec 64, b.toNat ≤ 272 → loadWord (run saveState d).mem (d.reg .rsi + b) =
      loadWord d.mem (d.reg .rsi + b) := fun b hb => h.toSaveClear.same.peek h.pcb hb
  have hring : (run saveState d).peek .rsi 128 &&& 3 = 0 := by
    rw [Cpu.peek, saveState_reg d (by decide), hword _ (by decide), h.held.cs, hcs]
  obtain ⟨e, hdef, hmem, hreg, -⟩ := switchContext_ring0 d hring
  have hrsi : e.reg .rsi = d.reg .rsi := hreg .rsi (by decide) (by decide)
  have hload : ∀ b : BitVec 64, b.toNat ≤ 272 → e.peek .rsi b = loadWord d.mem (d.reg .rsi + b) := by
    intro b hb
    rw [Cpu.peek, hmem, hrsi, hword b hb]
  obtain ⟨hrip, hsp, hbx, hbp, h12, h13, h14, h15, -⟩ := ring0Restore_spec e
  obtain ⟨hdx, hsi, hrest⟩ := ring0Restore_rest e
  have hpush := ring0Restore_mem e
  rw [hload _ (by decide), h.held.rsp, hrsp] at hpush
  have hslot := @stackSlot_sub_eight f
  -- the pushed RIP is on the child's stack, so it is outside its PCB
  have hout : Outside (d.reg .rsi) (BitVec.ofNat 64 (frameAddr f + 8 * 506) - 8) := by
    have hlo := h.stackApart (8 * 505) (by decide)
    have hhi := h.stackApart (8 * 505 + 7) (by decide)
    unfold InPcb sizeofProcess at hlo hhi
    unfold Outside sizeofProcess
    rw [hslot]
    omega
  rw [hdef]
  refine ⟨⟨?_, ?_, ?_, ?_, ?_, ?_, ?_, ?_, ?_, ?_, fun r hr => ?_⟩, fun i hlo hi => ?_⟩
  · rw [hrip, hload _ (by decide), h.held.rip]
  · rw [hsp, hload _ (by decide), h.held.rsp]
  · rw [hbx, hload _ (by decide), h.held.rbx]
  · rw [hbp, hload _ (by decide), h.held.rbp]
  · rw [hdx, hload _ (by decide), h.held.rdx]
  · rw [hsi, hrsi, hpush, loadWord_field_of_outside h.pcb hout (by decide), hmem,
      hword _ (by decide), h.held.rsi]
  · rw [h12, hload _ (by decide), h.held.r12]
  · rw [h13, hload _ (by decide), h.held.r13]
  · rw [h14, hload _ (by decide), h.held.r14]
  · rw [h15, hload _ (by decide), h.held.r15]
  · rw [hrest r hr]
    refine hreg r ?_ ?_
    · rintro rfl
      revert hr
      decide
    · rintro rfl
      revert hr
      decide
  · have hi' := @toNat_stackSlot f i hi
    rw [hpush, hmem, loadWord_storeWord_of_apart (by rw [hslot, hi']; omega), loadWord, hi']
    refine congrArg _ (load64_congr fun k hk => ?_)
    have hbyte := h.saveState_stack (k := 8 * i + k) (by omega)
    rwa [hstack, ← Nat.add_assoc] at hbyte

end Dispatch

/-! ## 3. The four copies composed -/

/-- The user-visible registers in `r` are those in `u`, except that RAX is 0; RCX and R11 are left to
SYSCALL. -/
structure ForkTransparent (u r : Cpu) : Prop where
  rip : r.rip = u.rip
  rsp : r.reg .rsp = u.reg .rsp
  rax : r.reg .rax = 0
  kept : ∀ x ∈ [Reg.rbx, .rbp, .rdi, .rsi, .rdx, .r8, .r9, .r10, .r12, .r13, .r14, .r15],
    r.reg x = u.reg x

/-- The registers that no copy carries over have the user's values anyway: R12 to R15 in the PCB of the
caller, and RDI, R8, R9 and R10 in the processor when the child is first dispatched. -/
structure Leftovers (u : Cpu) (parent : CpuState) (d : Cpu) : Prop where
  r12 : parent.r12 = u.reg .r12
  r13 : parent.r13 = u.reg .r13
  r14 : parent.r14 = u.reg .r14
  r15 : parent.r15 = u.reg .r15
  dispatch : ∀ x ∈ [Reg.rdi, .r8, .r9, .r10], d.reg x = u.reg x

section Fork

variable {others : BitVec 32 → Kernel → Registers → Except Halt (Registers × Kernel)}
  {s t : Kernel} {regs regs' : Registers} {child : Nat}

/-- The caller's PCB once `syscall_handler` and `sys_fork` have stored what they store. -/
def noted (regs : Registers) (p : Process) : Process :=
  { p with userEsp := regs.rsp, userEip := regs.rip, cpu := savedCpu regs p.cpu }

/-- A SYS_FORK call stores what it stores, and forks. -/
theorem syscallHandler_fork (hcur : s.currentProcess ≠ 0)
    (hfork : regs.rax.setWidth 32 = sysForkNumber) : syscallHandler others s regs =
      (processFork (s.modify s.currentProcess (noted regs)) >>= fun r =>
        .ok ({ regs with rax := (BitVec.ofNat 32 r.1).setWidth 64 }, r.2)) := by
  have hlt : ¬ syscallCount ≤ sysForkNumber := by decide
  have htwice : (s.modify s.currentProcess fun p =>
      { p with userEsp := regs.rsp, userEip := regs.rip }).modify s.currentProcess
        (fun p => { p with cpu := savedCpu regs p.cpu }) =
      s.modify s.currentProcess (noted regs) := by
    simp only [Kernel.modify, Function.update_self, Function.update_idem, noted]
  simp only [syscallHandler, if_neg hcur, hfork, if_neg hlt, if_true]
  rw [sysFork, if_neg (show (s.modify _ _).currentProcess ≠ 0 from hcur),
    Kernel.modify_currentProcess, htwice]

/-- The child of a SYS_FORK call. -/
theorem syscallHandler_child (hcur : s.currentProcess ≠ 0)
    (hfork : regs.rax.setWidth 32 = sysForkNumber)
    (hrun : syscallHandler others s regs = .ok (regs', t)) (hnew : child ∈ t.processes)
    (hold : child ∉ s.processes) :
    ∃ f, NewChild (s.modify s.currentProcess (noted regs)) t child f := by
  rw [syscallHandler_fork hcur hfork] at hrun
  obtain ⟨⟨pid, v⟩, hproc, hrun⟩ := bind_eq_ok.mp hrun
  obtain rfl := (Prod.mk.inj (Except.ok.inj hrun)).2
  exact processFork_child hproc hnew hold

/-- The registers `r` a child returns to ring 3 with: those of its parent at `u` as far as some copy
carries them over, else those of the parent's PCB or of the dispatching processor. -/
structure ChildRegisters (u : Cpu) (parent : CpuState) (d r : Cpu) : Prop where
  rip : r.rip = u.rip
  rsp : r.reg .rsp = u.reg .rsp
  rax : r.reg .rax = 0
  carried : ∀ x ∈ [Reg.rbx, .rbp, .rsi, .rdx], r.reg x = u.reg x
  r12 : r.reg .r12 = parent.r12
  r13 : r.reg .r13 = parent.r13
  r14 : r.reg .r14 = parent.r14
  r15 : r.reg .r15 = parent.r15
  rest : ∀ x ∈ [Reg.rdi, .r8, .r9, .r10], r.reg x = d.reg x

theorem ChildRegisters.transparent_iff {u d r : Cpu} {parent : CpuState}
    (h : ChildRegisters u parent d r) : ForkTransparent u r ↔ Leftovers u parent d := by
  constructor
  · intro ht
    refine ⟨?_, ?_, ?_, ?_, fun x hx => ?_⟩
    · rw [← h.r12, ht.kept _ (by decide)]
    · rw [← h.r13, ht.kept _ (by decide)]
    · rw [← h.r14, ht.kept _ (by decide)]
    · rw [← h.r15, ht.kept _ (by decide)]
    · rw [← h.rest x hx]
      exact ht.kept x (by revert x; decide)
  · intro hl
    refine ⟨h.rip, h.rsp, h.rax, ?_⟩
    have hc := h.carried
    have hr : ∀ x ∈ [Reg.rdi, .r8, .r9, .r10], r.reg x = u.reg x := fun x hx =>
      (h.rest x hx).trans (hl.dispatch x hx)
    simp only [List.forall_mem_cons] at hc hr ⊢
    obtain ⟨hbx, hbp, hsi, hdx, -⟩ := hc
    obtain ⟨hdi, h8, h9, h10, -⟩ := hr
    exact ⟨hbx, hbp, hdi, hsi, hdx, h8, h9, h10, h.r12.trans hl.r12, h.r13.trans hl.r13,
      h.r14.trans hl.r14, h.r15.trans hl.r15, fun _ hx => nomatch hx⟩

/-- The way from the child's PCB and stack into ring 3. -/
theorem childRegisters {u d : Cpu} {x : Process} {f : Nat} {m : Memory}
    (hframe : FrameOf u regs) (hiret : t.machine.mem = iretFrame m (frameAddr f + 8 * 511) (noted regs x))
    (hstack : (t.pcb child).stack = frameAddr f)
    (hcpu : (t.pcb child).cpu = { savedCpu regs x.cpu with
      rsp := BitVec.ofNat 64 (frameAddr f + 8 * 506), rip := s.iretToUsermode, rax := 0,
      rflags := 0x200, cs := 0x08, ds := 0x10, ss := 0x10 })
    (hdispatch : FirstDispatch t child d) : (switchContext d).rip = s.iretToUsermode ∧
      ChildRegisters u x.cpu d (run iretToUsermode (switchContext d)) := by
  have hring : (t.pcb child).cpu.cs &&& 3 = 0 := by
    rw [hcpu]
    exact (by decide : (0x08 : BitVec 64) &&& 3 = 0)
  obtain ⟨hc, hwords⟩ := hdispatch.restored hstack (by rw [hcpu]) hring
  rw [hcpu] at hc
  generalize switchContext d = c at hc hwords
  obtain ⟨hword0, hword1, hword4⟩ := iretFrame_words m f (noted regs x)
  rw [← hiret] at hword0 hword1 hword4
  obtain ⟨hrip, hrsp, hrax, hreg⟩ := iretToUsermode_spec c
  have hslot : ∀ k : Nat, c.reg .rsp + BitVec.ofNat 64 k =
      BitVec.ofNat 64 (frameAddr f + 8 * 506 + k) := by
    intro k
    rw [hc.rsp]
    exact BitVec.ofNat_add_ofNat _ _
  have hval : ∀ v : BitVec 64, BitVec.ofNat 64 v.toNat = v := fun v => by
    rw [BitVec.ofNat_toNat, BitVec.setWidth_eq]
  refine ⟨hc.rip, ?_, ?_, ?_, ?_, ?_, ?_, ?_, ?_, fun r hr => ?_⟩
  · refine hrip.trans ((congrArg _ (hslot 8)).trans ((hwords 507 (by decide) (by decide)).trans ?_))
    rw [hword1, hval]
    exact hframe.rip
  · refine hrsp.trans ((congrArg _ (hslot 32)).trans ((hwords 510 (by decide) (by decide)).trans ?_))
    rw [hword4, hval]
    exact hframe.rsp
  · refine hrax.trans ((congrArg _ (hslot 0)).trans ((hwords 506 (by decide) (by decide)).trans ?_))
    rw [hword0]
    rfl
  · simp only [List.forall_mem_cons]
    refine ⟨?_, ?_, ?_, ?_, fun _ h => nomatch h⟩
    · exact (hreg _ (by decide) (by decide)).trans (hc.rbx.trans hframe.rbx)
    · exact (hreg _ (by decide) (by decide)).trans (hc.rbp.trans hframe.rbp)
    · exact (hreg _ (by decide) (by decide)).trans (hc.rsi.trans hframe.rsi)
    · exact (hreg _ (by decide) (by decide)).trans (hc.rdx.trans hframe.rdx)
  · exact (hreg _ (by decide) (by decide)).trans hc.r12
  · exact (hreg _ (by decide) (by decide)).trans hc.r13
  · exact (hreg _ (by decide) (by decide)).trans hc.r14
  · exact (hreg _ (by decide) (by decide)).trans hc.r15
  · refine (hreg r ?_ ?_).trans (hc.rest r hr)
    · rintro rfl
      revert hr
      decide
    · rintro rfl
      revert hr
      decide

/-- The registers of the child of a SYS_FORK call, on its first return to ring 3. -/
theorem fork_child_registers {current : BitVec 64} {u d : Cpu} (hcall : SyscallFrom current s u)
    (huser : s.current.isUser = true) (hfork : (u.reg .rax).setWidth 32 = sysForkNumber)
    (hrun : syscallHandler others s (syscallFrame current u) = .ok (regs', t))
    (hnew : child ∈ t.processes) (hold : child ∉ s.processes) (hdispatch : FirstDispatch t child d) :
    (switchContext d).rip = s.iretToUsermode ∧
      ChildRegisters u s.current.cpu d (run iretToUsermode (switchContext d)) := by
  have hframe := syscallEntry_frame hcall
  generalize syscallFrame current u = regs at hrun hframe
  have hcur : s.currentProcess ≠ 0 := by
    have := hcall.pcbUpper
    omega
  obtain ⟨f, -, -, hcpu, hstack, hiret⟩ := syscallHandler_child hcur (hframe.rax ▸ hfork) hrun hnew hold
  have hparent : (s.modify s.currentProcess (noted regs)).current = noted regs s.current :=
    Kernel.modify_self ..
  rw [hparent] at hcpu hiret
  obtain ⟨m, hm⟩ := hiret huser
  have hsub : sub64 (frameAddr f + 8 * 511) 40 = frameAddr f + 8 * 506 := by
    have := frameAddr_add_le f
    rw [sub64_eq (by omega) (by omega)]
    omega
  rw [childCpu, if_pos (show (noted regs s.current).isUser = true from huser), hsub] at hcpu
  exact childRegisters hframe hm hstack hcpu hdispatch

/-- **What a forked child finds in its registers.**  The child of a SYS_FORK call first returns to ring 3
with the registers its parent had, RAX apart, exactly when the registers that no copy carries over
happen to be right. -/
theorem fork_transparent_iff {current : BitVec 64} {u d : Cpu} (hcall : SyscallFrom current s u)
    (huser : s.current.isUser = true) (hfork : (u.reg .rax).setWidth 32 = sysForkNumber)
    (hrun : syscallHandler others s (syscallFrame current u) = .ok (regs', t))
    (hnew : child ∈ t.processes) (hold : child ∉ s.processes) (hdispatch : FirstDispatch t child d) :
    (switchContext d).rip = s.iretToUsermode ∧
      (ForkTransparent u (run iretToUsermode (switchContext d)) ↔
        Leftovers u s.current.cpu d) := by
  obtain ⟨hrip, hregs⟩ := fork_child_registers hcall huser hfork hrun hnew hold hdispatch
  exact ⟨hrip, hregs.transparent_iff⟩

end Fork

/-! ## 4. A fork that shows it -/

/-- Where the kernel heap puts its first three PCBs. -/
def firstPcb : Nat := 0xFFFF800002200018

def secondPcb : Nat := 0xFFFF800002200148

def thirdPcb : Nat := 0xFFFF800002200278

/-- The second of `twoProcesses` is a ring 3 process and runs. -/
def forkingKernel (heap : KHeap) : Kernel :=
  { (twoProcesses heap (twoSlots firstPcb secondPcb) firstPcb).modify secondPcb
      fun p => { p with isUser := true } with currentProcess := secondPcb }

/-- It calls SYS_FORK with a value in R12; `current_process` is at `0xFFFFFFFF80100000`. -/
def forkCaller (r12 : BitVec 64) : Cpu where
  reg
    | .rax => 5
    | .rsp => 0x7FFFFFFFE000
    | .rdi => 0xFFFF800002200148
    | .r12 => r12
    | _ => 0
  seg
    | .cs => 0x2B
    | _ => 0x23
  rip := 0x400010
  rflags := 0x202
  cr3 := 0
  mem := storeWord (storeWord (fun _ => 0) 0xFFFFFFFF80100000 0xFFFF800002200148)
    (0xFFFF800002200148 + 192) 0xFFFF800000009FF8

/-- Writing the registers of a PCB. -/
def putCpu (m : Memory) (p : BitVec 64) (x : CpuState) : Memory :=
  [(48, x.rax), (56, x.rbx), (64, x.rcx), (72, x.rdx), (80, x.rsi), (88, x.rdi), (96, x.rbp),
   (104, x.rsp), (112, x.rip), (120, x.rflags), (128, x.cs), (136, x.ds), (144, x.ss),
   (152, x.r12), (160, x.r13), (168, x.r14), (176, x.r15)].foldl
    (fun m w => storeWord m (p + w.1) w.2) m

/-- The caller gives way to its child. -/
def forkDispatch (m : Memory) (x : CpuState) : Cpu where
  reg
    | .rdi => 0xFFFF800002200148
    | .rsi => 0xFFFF800002200278
    | .rsp => 0xFFFF800000009800
    | _ => 0
  seg
    | .cs => 0x08
    | _ => 0x10
  rip := 0
  rflags := 0x200
  cr3 := 0
  mem := putCpu m 0xFFFF800002200278 x

theorem held_putCpu {p : BitVec 64} (hp : Pcb p) (m : Memory) (x : CpuState) :
    Held p x (putCpu m p x) := by
  constructor
  all_goals
    simp only [putCpu, List.foldl_cons, List.foldl_nil]
    simp (disch := first | assumption | decide) only [loadWord_field, loadWord_storeWord]

theorem putCpu_of_notInPcb {p : BitVec 64} {a : Nat} (hp : Pcb p) (ha : ¬ InPcb p a) (m : Memory)
    (x : CpuState) : putCpu m p x a = m a := by
  simp only [putCpu, List.foldl_cons, List.foldl_nil]
  simp (disch := first | assumption | decide) only [storeWord_of_notInPcb]

theorem frameAddr_nine : frameAddr 9 = 0xFFFF800000009000 := by
  unfold frameAddr physicalToVirtual add64 pageSize physicalMapBase
  norm_num

theorem frameAddr_twelve : frameAddr 12 = 0xFFFF80000000C000 := by
  unfold frameAddr physicalToVirtual add64 pageSize physicalMapBase
  norm_num

theorem current_forkingKernel (heap : KHeap) :
    (forkingKernel heap).current = { pcbWithPages 9 8 with isUser := true } := by
  have hne : secondPcb ≠ firstPcb := by decide
  have hpcb : (twoProcesses heap (twoSlots firstPcb secondPcb) firstPcb).pcb secondPcb =
      pcbWithPages 9 8 := by
    simp only [twoProcesses, if_neg hne]
  rw [← hpcb]
  exact Kernel.modify_self (twoProcesses heap (twoSlots firstPcb secondPcb) firstPcb) secondPcb
    fun p => { p with isUser := true }

theorem syscallFrom_forkCaller (heap : KHeap) (r12 : BitVec 64) :
    SyscallFrom 0xFFFFFFFF80100000 (forkingKernel heap) (forkCaller r12) := by
  have hcurrent : loadWord (forkCaller r12).mem 0xFFFFFFFF80100000 = 0xFFFF800002200148 :=
    (loadWord_storeWord_of_apart (by decide)).trans (loadWord_storeWord _ _ _)
  have hcur : (forkingKernel heap).currentProcess = secondPcb := rfl
  have hrsp : (forkCaller r12).reg .rsp = 0x7FFFFFFFE000 := rfl
  have htop : (forkingKernel heap).current.stackTop = 0xFFFF800000009FF8 := by
    rw [current_forkingKernel]
    exact (congrArg (· + 8 * 511) frameAddr_nine).trans rfl
  refine ⟨?_, by decide, ?_, ?_, ?_, ?_, ?_⟩
  · rw [hrsp]
    decide
  · rw [hcurrent]
    rfl
  · rw [hcur]
    decide
  · rw [hcurrent, htop]
    exact congrArg BitVec.toNat (loadWord_storeWord _ _ _)
  · rw [htop]
    decide
  · rw [htop, hcur]
    decide

/-- The dispatch of a child with its PCB third in the heap and its stack in frame 12. -/
theorem firstDispatch_forkDispatch {t : Kernel} (hstack : (t.pcb thirdPcb).stack = frameAddr 12) :
    FirstDispatch t thirdPcb (forkDispatch t.machine.mem (t.pcb thirdPcb).cpu) := by
  have hrdi : (forkDispatch t.machine.mem (t.pcb thirdPcb).cpu).reg .rdi = 0xFFFF800002200148 := rfl
  have hrsi : (forkDispatch t.machine.mem (t.pcb thirdPcb).cpu).reg .rsi = 0xFFFF800002200278 := rfl
  have hrsp : (forkDispatch t.machine.mem (t.pcb thirdPcb).cpu).reg .rsp = 0xFFFF800000009800 := rfl
  have hpcb : Pcb 0xFFFF800002200278 := by decide
  -- the PCBs are far above the stacks
  have hlow : ∀ p k, frameAddr 12 + 4096 ≤ p.toNat → k < 4096 → ¬ InPcb p (frameAddr 12 + k) := by
    intro p k hp hk h
    have := h.1
    omega
  have habove : ∀ p : BitVec 64, 0xFFFF800002200000 ≤ p.toNat → frameAddr 12 + 4096 ≤ p.toNat := by
    intro p hp
    rw [frameAddr_twelve]
    omega
  refine ⟨⟨?_, ?_, ?_⟩, ?_, ?_, held_putCpu hpcb _ _, ?_, ?_, ?_⟩
  · rw [hrdi]
    decide
  · rw [hrsi, hrdi]
    exact fun x hx hx' => absurd (hx.1.trans_lt hx'.2) (by decide)
  · rw [hrsi, hrsp]
    decide
  · rw [hrsi]
    rfl
  · rw [hrsi]
    exact hpcb
  · intro k hk
    rw [hstack]
    exact putCpu_of_notInPcb hpcb (hlow _ k (habove _ (by decide)) hk) _ _
  · intro k hk
    rw [hstack, hrdi, hrsp]
    refine ⟨hlow _ k (habove _ (by decide)) hk, Or.inr ?_⟩
    rw [frameAddr_twelve]
    exact Nat.le_trans (by decide) (Nat.le_add_right _ k)
  · intro k hk
    rw [hstack, hrsi]
    exact hlow _ k (habove _ (by decide)) hk

/-- The fork of `forkingKernel` succeeds, and its child is dispatched. -/
theorem forkingKernel_forks (r12 : BitVec 64) : ∃ heap regs' t,
    syscallHandler (fun _ s regs => .ok (regs, s)) (forkingKernel heap)
      (syscallFrame 0xFFFFFFFF80100000 (forkCaller r12)) = .ok (regs', t) ∧
    thirdPcb ∈ t.processes ∧ thirdPcb ∉ (forkingKernel heap).processes ∧
    FirstDispatch t thirdPcb (forkDispatch t.machine.mem (t.pcb thirdPcb).cpu) := by
  obtain ⟨heap', heap, heap'', hp, hq, hr⟩ : ∃ heap' heap heap'',
      kmalloc (memInit fun _ => ⟨0, false, 0⟩) sizeofProcess = .ok (firstPcb, heap') ∧
      kmalloc heap' sizeofProcess = .ok (secondPcb, heap) ∧
      kmalloc heap sizeofProcess = .ok (thirdPcb, heap'') := ⟨_, _, _, rfl, rfl, rfl⟩
  have hfork : (syscallFrame 0xFFFFFFFF80100000 (forkCaller r12)).rax.setWidth 32 =
      sysForkNumber := by
    rw [(syscallEntry_frame (syscallFrom_forkCaller heap r12)).rax]
    rfl
  generalize syscallFrame 0xFFFFFFFF80100000 (forkCaller r12) = regs at hfork
  obtain ⟨-, hmem, -⟩ := twoProcesses_table hp hq
  have hok : ((forkingKernel heap).modify secondPcb (noted regs)).Ok := by
    refine (twoProcesses_ok hp hq).same (SameSpaces.trans (t := forkingKernel heap) ?_ ?_)
    · have hpcb := samePages_modify (s := twoProcesses heap (twoSlots firstPcb secondPcb) firstPcb)
        (p := secondPcb) (f := fun p => { p with isUser := true }) fun _ => ⟨rfl, rfl⟩
      exact ⟨rfl, rfl, rfl, rfl, hpcb⟩
    · refine sameSpaces_modify ?_
      exact fun _ => ⟨rfl, rfl⟩
  have hcur : secondPcb ∈ ((forkingKernel heap).modify secondPcb (noted regs)).processes :=
    (hmem secondPcb).mpr (Or.inl rfl)
  have hroom : ¬ ((forkingKernel heap).modify secondPcb (noted regs)).ForkFull := by
    have hroot : ((forkingKernel heap).modify secondPcb (noted regs)).current.root = 8 := by
      have hcurrent : ((forkingKernel heap).modify secondPcb (noted regs)).current =
          noted regs (forkingKernel heap).current := Kernel.modify_self ..
      rw [hcurrent, current_forkingKernel]
      exact frame_of_addr (by decide)
    rintro (hslot | ⟨e, he⟩ | hcard)
    · cases hslot
    · cases hr.symm.trans he
    · rw [hroot] at hcard
      change twelveUsed.pmm.freePages.card < (frames twelveUsed.mem 4 8).length + 2 at hcard
      rw [frames_twelveUsed.2] at hcard
      revert hcard
      decide
  obtain ⟨⟨pid, t⟩, hproc, -, child, hjoin, -⟩ :=
    (processFork_spec hok.table hok.pages hcur).exists_ok fun _ => hroom
  have hnew : child ∈ t.processes := (hjoin.mem child).mpr (Or.inl rfl)
  obtain ⟨f, ⟨heap₃, hpcb⟩, ⟨pm, hpage⟩, -, hstack, -⟩ := processFork_child hproc hnew hjoin.fresh
  obtain rfl : child = thirdPcb := by
    have := hpcb.symm.trans hr
    exact (Prod.mk.inj (Except.ok.inj this)).1
  obtain rfl : f = 12 := by
    have halloc : ∃ pm, pmmAlloc twelveUsed.pmm = .ok (12 * pageSize, pm) := ⟨_, rfl⟩
    obtain ⟨pm', hpage'⟩ := halloc
    have := (Prod.mk.inj (Except.ok.inj (hpage.symm.trans hpage'))).1
    unfold pageSize at this
    omega
  refine ⟨heap, { regs with rax := (BitVec.ofNat 32 pid).setWidth 64 }, t, ?_, hnew, hjoin.fresh,
    firstDispatch_forkDispatch hstack⟩
  rw [syscallHandler_fork (show (forkingKernel heap).currentProcess ≠ 0 from hcur.1) hfork]
  exact bind_eq_ok.mpr ⟨_, hproc, rfl⟩

/-- Nothing happens to be wrong: R12 to R15 were 0 in the caller and are 0 in its PCB, and the caller
had the address of its PCB in RDI. -/
theorem fork_transparent_by_luck : ∃ (heap : KHeap) (t : Kernel),
    ForkTransparent (forkCaller 0)
      (run iretToUsermode (switchContext (forkDispatch t.machine.mem (t.pcb thirdPcb).cpu))) ∧
    thirdPcb ∈ t.processes ∧ thirdPcb ∉ (forkingKernel heap).processes := by
  obtain ⟨heap, regs', t, hrun, hnew, hold, hdispatch⟩ := forkingKernel_forks 0
  have huser : (forkingKernel heap).current.isUser = true := by rw [current_forkingKernel]
  obtain ⟨-, hiff⟩ := fork_transparent_iff (syscallFrom_forkCaller heap 0) huser rfl hrun hnew hold
    hdispatch
  refine ⟨heap, t, hiff.mpr ?_, hnew, hold⟩
  rw [current_forkingKernel]
  refine ⟨rfl, rfl, rfl, rfl, ?_⟩
  simp only [List.forall_mem_cons]
  exact ⟨rfl, rfl, rfl, rfl, fun _ h => nomatch h⟩

/-- With 7 in R12 the child finds 0 there. -/
theorem fork_loses_r12 : ∃ heap regs' t,
    SyscallFrom 0xFFFFFFFF80100000 (forkingKernel heap) (forkCaller 7) ∧
    (forkingKernel heap).current.isUser = true ∧
    syscallHandler (fun _ s regs => .ok (regs, s)) (forkingKernel heap)
      (syscallFrame 0xFFFFFFFF80100000 (forkCaller 7)) = .ok (regs', t) ∧
    thirdPcb ∈ t.processes ∧ thirdPcb ∉ (forkingKernel heap).processes ∧
    FirstDispatch t thirdPcb (forkDispatch t.machine.mem (t.pcb thirdPcb).cpu) ∧
    ¬ ForkTransparent (forkCaller 7)
      (run iretToUsermode (switchContext (forkDispatch t.machine.mem (t.pcb thirdPcb).cpu))) := by
  obtain ⟨heap, regs', t, hrun, hnew, hold, hdispatch⟩ := forkingKernel_forks 7
  have huser : (forkingKernel heap).current.isUser = true := by rw [current_forkingKernel]
  refine ⟨heap, regs', t, syscallFrom_forkCaller heap 7, huser, hrun, hnew, hold, hdispatch,
    fun h => ?_⟩
  obtain ⟨-, hregs⟩ := fork_child_registers (syscallFrom_forkCaller heap 7) huser rfl hrun hnew hold
    hdispatch
  have h12 := (hregs.transparent_iff.mp h).r12
  rw [current_forkingKernel] at h12
  revert h12
  decide

end AcornOS
