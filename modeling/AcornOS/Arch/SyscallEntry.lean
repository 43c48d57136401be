/-
# Entering and leaving the kernel (`syscall_entry.asm`, `usermode.asm`, `syscall_handler`)

A system call travels as a `registers_t` on the caller's kernel stack.  `syscallEntry` is the code
that builds it; `syscallEntry_frame` says that what it builds is the caller's register file, with
the return address and the flags where the SYSCALL instruction put them.

* The stack pointer of a user program is in the lower half; PCBs, kernel stacks and the variable
  `current_process` are in the upper half, and a PCB shares no byte with a kernel stack
  (`SyscallFrom`).  So the two words that `syscall_entry` pushes on the user's stack disturb nothing.
* `iretToUsermode` is the way out of a process that has not been in ring 3 before.
-/
import AcornOS.Arch.Switch
import AcornOS.Processes.Table

namespace AcornOS

open Lib

/-! ## 1. The code -/

/-- The SYSCALL instruction, with the MSRs as `syscall_msr_init` sets them. -/
def syscallInstr (c : Cpu) : Cpu :=
  let c := (c.setReg .rcx c.rip).setReg .r11 c.rflags
  { (c.setSeg .cs 0x08).setSeg .ss 0x10 with rflags := c.rflags &&& ~~~0x200 }

/-- `syscall_entry`, the change of stacks.  `current` is the address of `current_process`. -/
def changeStack (current : BitVec 64) : List Instr :=
  [.push .rcx, .push .r11, .loadAbs .rcx current, .lea .r11 .rsp 16, .store .rcx 224 .r11,
   .load .rsp .rcx 192]

/-- `syscall_entry`, the `registers_t`. -/
def buildFrame : List Instr :=
  [.pushImm 0x23, .pushMem .rcx 224, .pushMem .r11 (-16), .pushImm 0x2B, .pushMem .r11 (-8),
   .push .rax, .pushImm 0,
   .push .rax, .push .rbx, .pushMem .r11 (-8), .push .rdx, .push .rsi, .push .rdi, .push .rbp,
   .push .r8, .push .r9, .push .r10, .pushMem .r11 (-16), .push .r12, .push .r13, .push .r14,
   .push .r15,
   .movFromSeg .rax .ds, .push .rax,
   .movLow .rax 0x10, .movToSeg .ds .rax, .movToSeg .es .rax, .mov .rdi .rsp]

/-- `syscall_entry`, up to its call of `syscall_handler`. -/
def syscallEntry (current : BitVec 64) : List Instr := changeStack current ++ buildFrame

/-- A `registers_t` in memory. -/
def registersAt (m : Memory) (a : BitVec 64) : Registers where
  ds := loadWord m (a + 0)
  r15 := loadWord m (a + 8)
  r14 := loadWord m (a + 16)
  r13 := loadWord m (a + 24)
  r12 := loadWord m (a + 32)
  r11 := loadWord m (a + 40)
  r10 := loadWord m (a + 48)
  r9 := loadWord m (a + 56)
  r8 := loadWord m (a + 64)
  rbp := loadWord m (a + 72)
  rdi := loadWord m (a + 80)
  rsi := loadWord m (a + 88)
  rdx := loadWord m (a + 96)
  rcx := loadWord m (a + 104)
  rbx := loadWord m (a + 112)
  rax := loadWord m (a + 120)
  intNo := loadWord m (a + 128)
  errCode := loadWord m (a + 136)
  rip := loadWord m (a + 144)
  cs := loadWord m (a + 152)
  rflags := loadWord m (a + 160)
  rsp := loadWord m (a + 168)
  ss := loadWord m (a + 176)

/-- The frame that `syscall_handler` is called with. -/
def syscallFrame (current : BitVec 64) (u : Cpu) : Registers :=
  let c := run (syscallEntry current) (syscallInstr u)
  registersAt c.mem (c.reg .rdi)

/-- `iret_to_usermode` -/
def iretToUsermode : List Instr :=
  [.movLow .rax 0x23, .movToSeg .ds .rax, .movToSeg .es .rax, .movToSeg .fs .rax,
   .movToSeg .gs .rax, .pop .rax, .iretq]

/-- `SYS_FORK` -/
def sysForkNumber : BitVec 32 := 5

/-- `SYSCALL_COUNT` -/
def syscallCount : BitVec 32 := 16

/-- `syscall_handler`, with the calls other than SYS_FORK as a parameter. -/
def syscallHandler (others : BitVec 32 → Kernel → Registers → Except Halt (Registers × Kernel))
    (s : Kernel) (regs : Registers) : Except Halt (Registers × Kernel) :=
  let s := if s.currentProcess = 0 then s
    else s.modify s.currentProcess fun p => { p with userEsp := regs.rsp, userEip := regs.rip }
  let num := regs.rax.setWidth 32
  if syscallCount ≤ num then .ok ({ regs with rax := -1 }, s)
  else if num = sysForkNumber then sysFork s regs
  else others num s regs

/-! ## 2. The frame -/

/-- The program at `u`, about to execute SYSCALL, is the current process of `s`: it has its stack
in the lower half, and what `syscall_entry` reads is where the kernel has it.  `current` is the
address of `current_process` and `u.rip` that of the next instruction. -/
structure SyscallFrom (current : BitVec 64) (s : Kernel) (u : Cpu) : Prop where
  userStack : 16 ≤ (u.reg .rsp).toNat ∧ (u.reg .rsp).toNat ≤ 2 ^ 47
  symbol : 2 ^ 63 ≤ current.toNat ∧ current.toNat + 8 ≤ 2 ^ 64
  pcb : (loadWord u.mem current).toNat = s.currentProcess
  pcbUpper : 2 ^ 63 ≤ s.currentProcess ∧ s.currentProcess + sizeofProcess ≤ 2 ^ 64
  stackTop : (loadWord u.mem (loadWord u.mem current + 192)).toNat = s.current.stackTop
  stackUpper : 2 ^ 63 + 184 ≤ s.current.stackTop
  apart : s.current.stackTop ≤ s.currentProcess ∨
    s.currentProcess + sizeofProcess ≤ s.current.stackTop - 184

/-- `regs` is the register file of the program at `u`. -/
structure FrameOf (u : Cpu) (regs : Registers) : Prop where
  rip : regs.rip = u.rip
  rsp : regs.rsp = u.reg .rsp
  rflags : regs.rflags = u.rflags
  rax : regs.rax = u.reg .rax
  rbx : regs.rbx = u.reg .rbx
  rdx : regs.rdx = u.reg .rdx
  rsi : regs.rsi = u.reg .rsi
  rdi : regs.rdi = u.reg .rdi
  rbp : regs.rbp = u.reg .rbp
  r8 : regs.r8 = u.reg .r8
  r9 : regs.r9 = u.reg .r9
  r10 : regs.r10 = u.reg .r10
  r12 : regs.r12 = u.reg .r12
  r13 : regs.r13 = u.reg .r13
  r14 : regs.r14 = u.reg .r14
  r15 : regs.r15 = u.reg .r15

section Slots

variable {m : Memory} {top a b v : BitVec 64}

theorem toNat_sub_slot (htop : 184 ≤ top.toNat) (ha : a.toNat ≤ 184) :
    (top - a).toNat = top.toNat - a.toNat :=
  BitVec.toNat_sub_of_le (by rw [BitVec.le_def]; omega)

/-- Reading a slot of the frame that was just written. -/
theorem loadWord_slot_self (hab : b + a = 184#64) :
    loadWord (storeWord m (top - a) v) (top - 184#64 + b) = v := by
  have heq : top - 184#64 + b = top - a := by
    rw [← hab]
    ring
  rw [heq, loadWord_storeWord]

/-- Reading another slot of it. -/
theorem loadWord_slot (htop : 184 ≤ top.toNat) (ha : a.toNat ≤ 184) (hb : b.toNat < 184)
    (hab : b.toNat + a.toNat + 8 ≤ 184 ∨ 192 ≤ b.toNat + a.toNat) :
    loadWord (storeWord m (top - a) v) (top - 184#64 + b) = loadWord m (top - 184#64 + b) := by
  refine loadWord_storeWord_of_apart ?_
  have htop' := top.isLt
  have h184 : (top - 184#64).toNat = top.toNat - 184 := toNat_sub_slot htop (by decide)
  rw [toNat_sub_slot htop ha, BitVec.toNat_add, h184]
  omega

/-- The quadword at `a` is no part of the frame below `top`. -/
def OffFrame (top a : BitVec 64) : Prop := a.toNat + 8 ≤ top.toNat - 184 ∨ top.toNat ≤ a.toNat

theorem loadWord_offFrame (htop : 184 ≤ top.toNat) (ha : a.toNat ≤ 184) (ha8 : 8 ≤ a.toNat)
    (hb : OffFrame top b) : loadWord (storeWord m (top - a) v) b = loadWord m b := by
  refine loadWord_storeWord_of_apart ?_
  unfold OffFrame at hb
  rw [toNat_sub_slot htop ha]
  omega

end Slots

/-- The frame as it is built from the registers, once the stacks are changed. -/
theorem buildFrame_frame {c u : Cpu} (htop : 184 ≤ (c.reg .rsp).toNat)
    (hoff : OffFrame (c.reg .rsp) (c.reg .rcx + 224) ∧ OffFrame (c.reg .rsp) (c.reg .r11 + -16) ∧
      OffFrame (c.reg .rsp) (c.reg .r11 + -8))
    (hrsp : c.peek .rcx 224 = u.reg .rsp) (hrflags : c.peek .r11 (-16) = u.rflags)
    (hrip : c.peek .r11 (-8) = u.rip)
    (hreg : ∀ r, r ≠ .rcx → r ≠ .r11 → r ≠ .rsp → c.reg r = u.reg r) :
    FrameOf u (registersAt (run buildFrame c).mem ((run buildFrame c).reg .rdi)) := by
  obtain ⟨hoff224, hoff16, hoff8⟩ := hoff
  unfold Cpu.peek at hrsp hrflags hrip
  -- the instructions are followed once, for all the slots
  simp only [registersAt, buildFrame, run_cons, run_nil, exec, Cpu.setReg, Cpu.setSeg, Cpu.peek,
    Cpu.pushWord, Function.update_apply, reduceCtorEq, if_true, if_false, sub_sub, BitVec.reduceAdd]
  constructor
  all_goals
    simp (disch := first | assumption | decide) only [loadWord_slot_self, loadWord_slot,
      loadWord_offFrame, hrsp, hrflags, hrip, hreg]

/-- The two words that `syscall_entry` pushes on the user's stack. -/
def pushedOnUser (u : Cpu) : Memory :=
  storeWord (storeWord u.mem (u.reg .rsp - 8) u.rip) (u.reg .rsp - 16) u.rflags

theorem loadWord_pushedOnUser {u : Cpu} {a : BitVec 64}
    (hstack : 16 ≤ (u.reg .rsp).toNat ∧ (u.reg .rsp).toNat ≤ 2 ^ 47) (ha : 2 ^ 63 ≤ a.toNat) :
    loadWord (pushedOnUser u) a = loadWord u.mem a := by
  have h8 : (u.reg .rsp - 8).toNat = (u.reg .rsp).toNat - 8 :=
    BitVec.toNat_sub_of_le (by rw [BitVec.le_def]; exact Nat.le_trans (by decide) hstack.1)
  have h16 : (u.reg .rsp - 16).toNat = (u.reg .rsp).toNat - 16 :=
    BitVec.toNat_sub_of_le (by rw [BitVec.le_def]; exact hstack.1)
  rw [pushedOnUser, loadWord_storeWord_of_apart, loadWord_storeWord_of_apart]
  · omega
  · omega

/-- What the change of stacks leaves behind. -/
theorem changeStack_spec (current : BitVec 64) (u : Cpu) :
    let c := run (changeStack current) (syscallInstr u)
    let p := loadWord (pushedOnUser u) current
    c.mem = storeWord (pushedOnUser u) (p + 224) (u.reg .rsp) ∧
    c.reg .rcx = p ∧ c.reg .r11 = u.reg .rsp ∧ c.reg .rsp = loadWord c.mem (p + 192) ∧
    ∀ r, r ≠ .rcx → r ≠ .r11 → r ≠ .rsp → c.reg r = u.reg r := by
  have h16 : u.reg .rsp - 16#64 + 16 = u.reg .rsp := BitVec.sub_add_cancel ..
  simp only [changeStack, syscallInstr, run_cons, run_nil, exec, Cpu.setReg, Cpu.setSeg, Cpu.peek,
    Cpu.pushWord, Function.update_apply, reduceCtorEq, if_true, if_false, sub_sub,
    BitVec.reduceAdd, h16]
  refine ⟨rfl, rfl, trivial, rfl, fun r hcx h11 hsp => ?_⟩
  simp [hcx, h11, hsp]

/-- **The frame of a system call** is the register file of the program that made it. -/
theorem syscallEntry_frame {current : BitVec 64} {s : Kernel} {u : Cpu}
    (h : SyscallFrom current s u) : FrameOf u (syscallFrame current u) := by
  obtain ⟨hmem, hcx, h11, hsp, hreg⟩ := changeStack_spec current u
  rw [loadWord_pushedOnUser h.userStack h.symbol.1] at hmem hcx hsp
  generalize hc : run (changeStack current) (syscallInstr u) = c at *
  have hframe : syscallFrame current u =
      registersAt (run buildFrame c).mem ((run buildFrame c).reg .rdi) := by
    rw [syscallFrame, syscallEntry, run_append, hc]
  have hpcb := h.pcb
  have hupper := h.pcbUpper
  have htopNat := h.stackTop
  have htopUpper := h.stackUpper
  have hapart := h.apart
  have hstack := h.userStack
  generalize loadWord u.mem current = p at *
  have hp : Pcb p := by
    unfold Pcb
    omega
  have h192 := toNat_field hp (a := 192) (by decide)
  have h224 := toNat_field hp (a := 224) (by decide)
  change (p + 192).toNat = p.toNat + 192 at h192
  change (p + 224).toNat = p.toNat + 224 at h224
  have h8 : (u.reg .rsp + -8).toNat = (u.reg .rsp).toNat - 8 := by
    rw [← sub_eq_add_neg]
    exact BitVec.toNat_sub_of_le (by rw [BitVec.le_def]; exact Nat.le_trans (by decide) hstack.1)
  have h16 : (u.reg .rsp + -16).toNat = (u.reg .rsp).toNat - 16 := by
    rw [← sub_eq_add_neg]
    exact BitVec.toNat_sub_of_le (by rw [BitVec.le_def]; exact hstack.1)
  have htop : (c.reg .rsp).toNat = s.current.stackTop := by
    rw [hsp, hmem, loadWord_field hp (by decide) (by decide) (by decide),
      loadWord_pushedOnUser hstack (by omega), htopNat]
  unfold sizeofProcess at hapart hupper
  rw [hframe]
  refine buildFrame_frame (by omega) ⟨?_, ?_, ?_⟩ ?_ ?_ ?_ hreg
  · rw [OffFrame, htop, hcx, h224]
    omega
  · rw [OffFrame, htop, h11, h16]
    omega
  · rw [OffFrame, htop, h11, h8]
    omega
  · rw [Cpu.peek, hcx, hmem, loadWord_storeWord]
  · rw [Cpu.peek, h11, hmem, loadWord_storeWord_of_apart (by omega), pushedOnUser, sub_eq_add_neg,
      sub_eq_add_neg, loadWord_storeWord]
  · rw [Cpu.peek, h11, hmem, loadWord_storeWord_of_apart (by omega), pushedOnUser, sub_eq_add_neg,
      sub_eq_add_neg, loadWord_storeWord_of_apart (by omega), loadWord_storeWord]

end AcornOS
