/-
# Returning from a system call (`syscall_entry.asm`, after the call of `syscall_handler`)

`syscall_entry` builds the caller's `registers_t` by hand, with the return address where the frame
has RCX and the flags where it has R11, and leaves through SYSRET, which takes RIP from RCX and the
flags from R11.  So the way back depends on four slots being what the way in put there.

* `syscallEntry_slots`: the slots that the frame of an interrupt would have from the processor.
* `syscallEntry_mem`: what the way in writes.  Two words of it are on the caller's OWN stack, below
  its stack pointer, where the ABI has the red zone.
* `syscall_transparent` puts both halves round a handler that stores a result in the frame's RAX and
  touches no other slot: the caller gets the result, its return address in RCX and its flags in R11,
  and every other register back.
-/
import AcornOS.Arch.Interrupts
import AcornOS.Processes.ForkReturn

namespace AcornOS

open Lib

/-! ## 1. The code -/

/-- `syscall_entry`, after the call: up to SYSRET. -/
def restoreFrame : List Instr :=
  [.pop .rax, .movToSeg .ds .rax, .movToSeg .es .rax,
   .pop .r15, .pop .r14, .pop .r13, .pop .r12, .pop .r11, .pop .r10, .pop .r9, .pop .r8, .pop .rbp,
   .pop .rdi, .pop .rsi, .pop .rdx, .pop .rcx, .pop .rbx, .pop .rax, .load .rsp .rsp 40]

/-- The SYSRET instruction, with the base 0x18 that `syscall_msr_init` gives it. -/
def sysretInstr (c : Cpu) : Cpu :=
  let c := (c.setSeg .cs (0x18 + 16 ||| 3)).setSeg .ss (0x18 + 8 ||| 3)
  { c with rip := c.reg .rcx, rflags := c.reg .r11 &&& 0x3C7FD7 ||| 2 }

/-- From the return of `syscall_handler` to the program. -/
def syscallReturn (c : Cpu) : Cpu := sysretInstr (run restoreFrame c)

/-! ## 2. The way in -/

section Entry

variable {current : BitVec 64} {s : Kernel} {u : Cpu}

/-- What the change of stacks leaves for `buildFrame` to read, and where its frame will be. -/
structure StacksChanged (s : Kernel) (u c : Cpu) : Prop where
  top : (c.reg .rsp).toNat = s.current.stackTop
  off8 : OffFrame (c.reg .rsp) (c.reg .r11 + -8)
  off16 : OffFrame (c.reg .rsp) (c.reg .r11 + -16)
  rip : c.peek .r11 (-8) = u.rip
  rflags : c.peek .r11 (-16) = u.rflags
  rax : c.reg .rax = u.reg .rax
  ds : c.seg .ds = u.seg .ds

theorem stacksChanged (h : SyscallFrom current s u) :
    StacksChanged s u (run (changeStack current) (syscallInstr u)) := by
  obtain ⟨hmem, -, h11, hsp, hreg⟩ := changeStack_spec current u
  rw [loadWord_pushedOnUser h.userStack h.symbol.1] at hmem hsp
  have hds : (run (changeStack current) (syscallInstr u)).seg .ds = u.seg .ds := by
    simp [changeStack, syscallInstr, exec, Cpu.setReg, Cpu.setSeg, Cpu.pushWord]
  generalize run (changeStack current) (syscallInstr u) = c at *
  have hpcb := h.pcb
  have hupper := h.pcbUpper
  have htopNat := h.stackTop
  have htopUpper := h.stackUpper
  have hstack := h.userStack
  generalize loadWord u.mem current = p at *
  have hp : Pcb p := by
    unfold Pcb
    omega
  have h224 : (p + 224).toNat = p.toNat + 224 := toNat_field hp (a := 224) (by decide)
  have h8 : (u.reg .rsp + -8).toNat = (u.reg .rsp).toNat - 8 := by
    rw [← sub_eq_add_neg]
    exact BitVec.toNat_sub_of_le (by rw [BitVec.le_def]; exact Nat.le_trans (by decide) hstack.1)
  have h16 : (u.reg .rsp + -16).toNat = (u.reg .rsp).toNat - 16 := by
    rw [← sub_eq_add_neg]
    exact BitVec.toNat_sub_of_le (by rw [BitVec.le_def]; exact hstack.1)
  have htop : (c.reg .rsp).toNat = s.current.stackTop := by
    rw [hsp, hmem, loadWord_field hp (by decide) (by decide) (by decide),
      loadWord_pushedOnUser hstack (by rw [toNat_field hp (by decide)]; omega), htopNat]
  refine ⟨htop, ?_, ?_, ?_, ?_, hreg _ (by decide) (by decide) (by decide), hds⟩
  · rw [OffFrame, htop, h11, h8]
    omega
  · rw [OffFrame, htop, h11, h16]
    omega
  · rw [Cpu.peek, h11, hmem, loadWord_storeWord_of_apart (by omega), pushedOnUser, sub_eq_add_neg,
      sub_eq_add_neg, loadWord_storeWord_of_apart (by omega), loadWord_storeWord]
  · rw [Cpu.peek, h11, hmem, loadWord_storeWord_of_apart (by omega), pushedOnUser, sub_eq_add_neg,
      sub_eq_add_neg, loadWord_storeWord]

/-- Where the frame is. -/
theorem buildFrame_stack (c : Cpu) :
    (run buildFrame c).reg .rsp = c.reg .rsp - 184#64 ∧ (run buildFrame c).reg .rdi = c.reg .rsp - 184#64 := by
  simp only [buildFrame, run_cons, run_nil, exec, Cpu.setReg, Cpu.setSeg, Cpu.peek, Cpu.pushWord,
    Function.update_apply, reduceCtorEq, if_true, if_false, sub_sub, BitVec.reduceAdd, and_self]

/-- **The slots that SYSRET and the reload of DS depend on.** -/
theorem syscallEntry_slots (h : SyscallFrom current s u) :
    (syscallFrame current u).rcx = u.rip ∧ (syscallFrame current u).r11 = u.rflags ∧
      (syscallFrame current u).ds = withLow (u.reg .rax) (u.seg .ds) := by
  obtain ⟨htop, hoff8, hoff16, hrip, hrflags, hrax, hds⟩ := stacksChanged h
  have hupper := h.stackUpper
  rw [syscallFrame, syscallEntry, run_append]
  generalize run (changeStack current) (syscallInstr u) = c at *
  have hle : 184 ≤ (c.reg .rsp).toNat := by omega
  unfold Cpu.peek at hrip hrflags
  simp only [registersAt, buildFrame, run_cons, run_nil, exec, Cpu.setReg, Cpu.setSeg, Cpu.peek,
    Cpu.pushWord, Function.update_apply, reduceCtorEq, if_true, if_false, sub_sub, BitVec.reduceAdd]
  refine ⟨?_, ?_, ?_⟩
  all_goals
    simp (disch := first | assumption | decide) only [loadWord_slot_self, loadWord_slot,
      loadWord_offFrame, hrip, hrflags, hrax, hds]

/-- The bytes that the way in writes: the two words below the caller's stack pointer, its PCB's
`user_esp` and the frame. -/
def WrittenOnEntry (s : Kernel) (u : Cpu) (x : Nat) : Prop :=
  (u.reg .rsp).toNat - 16 ≤ x ∧ x < (u.reg .rsp).toNat ∨
    s.currentProcess + 224 ≤ x ∧ x < s.currentProcess + 232 ∨
    s.current.stackTop - 184 ≤ x ∧ x < s.current.stackTop

theorem syscallEntry_mem (h : SyscallFrom current s u) {x : Nat} (hx : ¬ WrittenOnEntry s u x) :
    (run (syscallEntry current) (syscallInstr u)).mem x = u.mem x := by
  have htop := (stacksChanged h).top
  obtain ⟨hmem, -, -, -, -⟩ := changeStack_spec current u
  rw [loadWord_pushedOnUser h.userStack h.symbol.1] at hmem
  rw [syscallEntry, run_append]
  generalize run (changeStack current) (syscallInstr u) = c at *
  have hpcb := h.pcb
  have hupper := h.pcbUpper
  have hstackUpper := h.stackUpper
  have hstack := h.userStack
  generalize loadWord u.mem current = p at *
  have hp : Pcb p := by
    unfold Pcb
    omega
  have h224 : (p + 224).toNat = p.toNat + 224 := toNat_field hp (a := 224) (by decide)
  have h8 : (u.reg .rsp - 8).toNat = (u.reg .rsp).toNat - 8 :=
    BitVec.toNat_sub_of_le (by rw [BitVec.le_def]; exact Nat.le_trans (by decide) hstack.1)
  have h16 : (u.reg .rsp - 16).toNat = (u.reg .rsp).toNat - 16 :=
    BitVec.toNat_sub_of_le (by rw [BitVec.le_def]; exact hstack.1)
  unfold WrittenOnEntry at hx
  have hle : 184 ≤ (c.reg .rsp).toNat := by omega
  have hout : x < (c.reg .rsp).toNat - 184 ∨ (c.reg .rsp).toNat ≤ x := by omega
  have hbuild : (run buildFrame c).mem x = c.mem x := by
    simp only [buildFrame, run_cons, run_nil, exec, Cpu.setReg, Cpu.setSeg, Cpu.peek, Cpu.pushWord,
      Function.update_apply, reduceCtorEq, if_true, if_false, sub_sub, BitVec.reduceAdd]
    simp (disch := first | assumption | decide) only [storeWord_slot_of_outside]
  rw [hbuild, hmem, storeWord_of_outside (by omega), pushedOnUser, storeWord_of_outside (by omega),
    storeWord_of_outside (by omega)]

end Entry

/-! ## 3. The way back -/

/-- What `syscallReturn` makes of the frame RSP points to. -/
theorem syscallReturn_spec (d : Cpu) :
    let f := registersAt d.mem (d.reg .rsp)
    let r := syscallReturn d
    r.reg = f.reg ∧ r.rip = f.rcx ∧ r.rflags = f.r11 &&& 0x3C7FD7 ||| 2 ∧ r.seg .cs = 0x2B ∧
      r.seg .ss = 0x23 ∧ r.seg .ds = f.ds.setWidth 16 ∧ r.seg .es = f.ds.setWidth 16 ∧
      r.mem = d.mem := by
  simp only [syscallReturn, sysretInstr, restoreFrame, run_cons, run_nil, exec, Cpu.setReg, Cpu.setSeg,
    Cpu.peek, Function.update_apply, reduceCtorEq, if_true, if_false, add_assoc, BitVec.reduceAdd,
    registersAt]
  refine ⟨?_, rfl, rfl, rfl, rfl, ?_⟩
  · funext r
    cases r
    all_goals simp [Registers.reg]
  · exact ⟨trivial, trivial, trivial⟩

/-- `r` is where the program at `u` goes on after a system call with this result.  RCX and R11 are
the two registers that SYSCALL itself takes. -/
structure Returned (u : Cpu) (result : BitVec 64) (r : Cpu) : Prop where
  rip : r.rip = u.rip
  rflags : r.rflags = u.rflags &&& 0x3C7FD7 ||| 2
  rax : r.reg .rax = result
  rcx : r.reg .rcx = u.rip
  r11 : r.reg .r11 = u.rflags
  kept : ∀ x, x ∉ [Reg.rax, .rcx, .r11] → r.reg x = u.reg x
  cs : r.seg .cs = 0x2B
  ss : r.seg .ss = 0x23
  ds : r.seg .ds = u.seg .ds
  es : r.seg .es = u.seg .ds

/-- **System-call transparency.**  A handler that stores a result in the frame's RAX, and no other
slot of it, makes the call return that result and change nothing else but RCX, R11 and the memory
that the way in and the handler write. -/
theorem syscall_transparent {current result : BitVec 64} {s : Kernel} {u d : Cpu}
    (h : SyscallFrom current s u)
    (hrsp : d.reg .rsp = (run (syscallEntry current) (syscallInstr u)).reg .rsp)
    (hframe : registersAt d.mem ((run (syscallEntry current) (syscallInstr u)).reg .rsp) =
      { syscallFrame current u with rax := result }) :
    Returned u result (syscallReturn d) ∧
      ∀ x, ¬ WrittenOnEntry s u x →
        d.mem x = (run (syscallEntry current) (syscallInstr u)).mem x →
        (syscallReturn d).mem x = u.mem x := by
  have hregs := syscallEntry_frame h
  obtain ⟨hcx, h11, hds⟩ := syscallEntry_slots h
  obtain ⟨hreg, hrip, hrflags, hcs, hss, hds', hes, hmem⟩ := syscallReturn_spec d
  rw [hrsp, hframe] at hreg hrip hrflags hds' hes
  refine ⟨⟨?_, ?_, ?_, ?_, ?_, fun x hx => ?_, hcs, hss, ?_, ?_⟩, fun x hx hsame => ?_⟩
  · rw [hrip, hcx]
  · rw [hrflags, h11]
  · rw [hreg]
    rfl
  · rw [hreg]
    exact hcx
  · rw [hreg]
    exact h11
  · rw [hreg]
    cases x
    case rax => exact absurd (by decide) hx
    case rcx => exact absurd (by decide) hx
    case r11 => exact absurd (by decide) hx
    case rbx => exact hregs.rbx
    case rdx => exact hregs.rdx
    case rsi => exact hregs.rsi
    case rdi => exact hregs.rdi
    case rbp => exact hregs.rbp
    case rsp => exact hregs.rsp
    case r8 => exact hregs.r8
    case r9 => exact hregs.r9
    case r10 => exact hregs.r10
    case r12 => exact hregs.r12
    case r13 => exact hregs.r13
    case r14 => exact hregs.r14
    case r15 => exact hregs.r15
  · rw [hds']
    change (syscallFrame current u).ds.setWidth 16 = _
    rw [hds, setWidth_withLow]
  · rw [hes]
    change (syscallFrame current u).ds.setWidth 16 = _
    rw [hds, setWidth_withLow]
  · rw [hmem, hsame, syscallEntry_mem h hx]

/-- `regs->rax = v` on the frame at `a`. -/
theorem registersAt_storeWord_rax {m : Memory} {a v : BitVec 64} (ha : a.toNat + 184 ≤ 2 ^ 64) :
    registersAt (storeWord m (a + 120) v) a = { registersAt m a with rax := v } := by
  have hadd : ∀ b : BitVec 64, b.toNat < 184 → (a + b).toNat = a.toNat + b.toNat := by
    intro b hb
    rw [BitVec.toNat_add, Nat.mod_eq_of_lt (by omega)]
  have hother : ∀ b : BitVec 64, b.toNat < 184 → b.toNat + 8 ≤ 120 ∨ 128 ≤ b.toNat →
      loadWord (storeWord m (a + 120) v) (a + b) = loadWord m (a + b) := by
    intro b hb h
    refine loadWord_storeWord_of_apart ?_
    rw [hadd b hb, hadd 120 (by decide)]
    change _ ≤ a.toNat + 120 ∨ a.toNat + 120 + 8 ≤ _
    omega
  unfold registersAt
  simp (disch := decide) only [hother, loadWord_storeWord]

theorem registersAt_syscallEntry (current : BitVec 64) (u : Cpu) :
    registersAt (run (syscallEntry current) (syscallInstr u)).mem
      ((run (syscallEntry current) (syscallInstr u)).reg .rsp) = syscallFrame current u := by
  have hrsp : (run (syscallEntry current) (syscallInstr u)).reg .rsp =
      (run (syscallEntry current) (syscallInstr u)).reg .rdi := by
    simp only [syscallEntry, run_append]
    rw [(buildFrame_stack _).1, (buildFrame_stack _).2]
  rw [hrsp]
  rfl

/-- SYS_GETPID, called with 7 in R12, has stored a PID in the frame. -/
def getpidDone : Cpu :=
  let e := run (syscallEntry 0xFFFFFFFF80100000) (syscallInstr (forkCaller 7))
  { e with mem := storeWord e.mem (e.reg .rsp + 120) 1 }

theorem syscall_transparent_getpid : Returned (forkCaller 7) 1 (syscallReturn getpidDone) := by
  have hcall := syscallFrom_forkCaller (memInit fun _ => ⟨0, false, 0⟩) 7
  refine (syscall_transparent (d := getpidDone) hcall rfl ?_).1
  rw [← registersAt_syscallEntry]
  exact registersAt_storeWord_rax (by decide +kernel)

end AcornOS
