/-
# Interrupts and preemption (`isr.asm`, `idt.c`)

An interrupt may come between any two instructions, so what it may change is NOTHING: the program
that was interrupted must find every register as it left it.  The kernel's part of that is a stub
that pushes a `registers_t`, calls a C handler with a pointer to it, pops the registers and leaves
through `iretq`; the processor's part is the five words (and, for some vectors, an error code) that
it pushes before the stub runs.

* `interruptEntry` is both, up to the call; `interruptEntry_frame` says that the handler gets the
  register file of the interrupted program, in whichever ring that was.
* The macros of the stubs decide by vector whether to push an error code.  The frame is right
  because they decide as the processor does, for EVERY vector that has a gate.
* `interruptReturn` is the way back.  `interrupt_transparent` needs one thing of the handler: it
  comes back to the call with the frame as it was.

The timer's handler does come back, but other processes may have run in between: it calls
`switch_context`.  `preemption_transparent` follows a preempted program through the stub, the switch
away, whatever runs until the switch back, and the rest of the stub.
-/
import AcornOS.Arch.SyscallEntry

namespace AcornOS

open Lib

/-! ## 1. The code -/

/-- The vectors that `idt_init` gives a gate. -/
def gates : List Nat := [0, 1, 2, 3, 8, 13, 14, 32, 33]

/-- The vectors for which the processor pushes an error code. -/
def pushesErrorCode (vector : Nat) : Bool := vector ∈ [8, 10, 11, 12, 13, 14, 17, 21, 29, 30]

/-- The stubs made with `ISR_ERR`, which count on that. -/
def isrErr (vector : Nat) : Bool := vector ∈ [8, 13, 14]

/-- The privilege level of the code that runs. -/
def ring (c : Cpu) : BitVec 16 := c.seg .cs &&& 3

/-- The stack an interrupt is taken on: the one of the TSS if the privilege level changes.  The
processor aligns it to 16 bytes. -/
def interruptStack (rsp0 : BitVec 64) (c : Cpu) : BitVec 64 :=
  (if ring c = 0 then c.reg .rsp else rsp0) &&& ~~~0xF

/-- What the processor does before the first instruction of a stub: interrupt gates to selector
0x08. -/
def deliver (rsp0 : BitVec 64) (vector : Nat) (code : BitVec 64) (u : Cpu) : Cpu :=
  let c := u.setReg .rsp (interruptStack rsp0 u)
  let c := c.pushWord ((u.seg .ss).setWidth 64)
  let c := c.pushWord (u.reg .rsp)
  let c := c.pushWord u.rflags
  let c := c.pushWord ((u.seg .cs).setWidth 64)
  let c := c.pushWord u.rip
  let c := if pushesErrorCode vector then c.pushWord code else c
  let c := (c.setSeg .ss (if ring u = 0 then u.seg .ss else 0)).setSeg .cs 0x08
  { c with rflags := u.rflags &&& ~~~0x34300 }

def cli (c : Cpu) : Cpu := { c with rflags := c.rflags &&& ~~~0x200 }

def sti (c : Cpu) : Cpu := { c with rflags := c.rflags ||| 0x200 }

/-- `ISR_NOERR`, `ISR_ERR`, `IRQ`: the words below the processor's. -/
def pushVector (vector : Nat) : List Instr :=
  (if isrErr vector then [] else [.pushImm 0]) ++ [.pushImm (BitVec.ofNat 64 vector)]

/-- `isr_common_stub`, `irq_common_stub`, up to the call of the handler. -/
def saveRegisters : List Instr :=
  [.push .rax, .push .rbx, .push .rcx, .push .rdx, .push .rsi, .push .rdi, .push .rbp,
   .push .r8, .push .r9, .push .r10, .push .r11, .push .r12, .push .r13, .push .r14, .push .r15,
   .movFromSeg .rax .ds, .push .rax,
   .movLow .rax 0x10, .movToSeg .ds .rax, .movToSeg .es .rax, .movToSeg .fs .rax, .movToSeg .gs .rax,
   .mov .rdi .rsp]

/-- From the interrupt to the call of the handler. -/
def interruptEntry (rsp0 : BitVec 64) (vector : Nat) (code : BitVec 64) (u : Cpu) : Cpu :=
  run saveRegisters (run (pushVector vector) (cli (deliver rsp0 vector code u)))

/-- `isr_common_stub`, `irq_common_stub`, after the call: up to the words of the vector. -/
def restoreRegisters : List Instr :=
  [.pop .rax, .movToSeg .ds .rax, .movToSeg .es .rax, .movToSeg .fs .rax, .movToSeg .gs .rax,
   .pop .r15, .pop .r14, .pop .r13, .pop .r12, .pop .r11, .pop .r10, .pop .r9, .pop .r8, .pop .rbp,
   .pop .rdi, .pop .rsi, .pop .rdx, .pop .rcx, .pop .rbx, .pop .rax]

/-- `add rsp, n`.  The flags it sets are not read before `iretq` replaces them all. -/
def addRsp (n : BitVec 64) (c : Cpu) : Cpu := c.setReg .rsp (c.reg .rsp + n)

/-- From the return of the handler to the interrupted program. -/
def interruptReturn (c : Cpu) : Cpu := run [.iretq] (sti (addRsp 16 (run restoreRegisters c)))

theorem setReg_self (c : Cpu) (r : Reg) (v : BitVec 64) : (c.setReg r v).reg r = v := by
  simp [Cpu.setReg]

/-! ## 2. The frame -/

/-- The register file of `u`, as a handler for `vector` sees it.  `mov ax, ds` replaces the low half
of RAX only. -/
def savedRegisters (vector : Nat) (code : BitVec 64) (u : Cpu) : Registers where
  ds := withLow (u.reg .rax) (u.seg .ds)
  r15 := u.reg .r15
  r14 := u.reg .r14
  r13 := u.reg .r13
  r12 := u.reg .r12
  r11 := u.reg .r11
  r10 := u.reg .r10
  r9 := u.reg .r9
  r8 := u.reg .r8
  rbp := u.reg .rbp
  rdi := u.reg .rdi
  rsi := u.reg .rsi
  rdx := u.reg .rdx
  rcx := u.reg .rcx
  rbx := u.reg .rbx
  rax := u.reg .rax
  intNo := BitVec.ofNat 64 vector
  errCode := if isrErr vector then code else 0
  rip := u.rip
  cs := (u.seg .cs).setWidth 64
  rflags := u.rflags
  rsp := u.reg .rsp
  ss := (u.seg .ss).setWidth 64

/-- The macro of a stub fits the vector. -/
theorem pushesErrorCode_of_mem_gates {vector : Nat} (hv : vector ∈ gates) :
    pushesErrorCode vector = isrErr vector := by
  revert vector
  decide

/-- The seven words of the processor and of the vector. -/
def pushWords (rsp0 : BitVec 64) (vector : Nat) (code : BitVec 64) (u : Cpu) : Cpu :=
  let c := u.setReg .rsp (interruptStack rsp0 u)
  let c := c.pushWord ((u.seg .ss).setWidth 64)
  let c := c.pushWord (u.reg .rsp)
  let c := c.pushWord u.rflags
  let c := c.pushWord ((u.seg .cs).setWidth 64)
  let c := c.pushWord u.rip
  let c := c.pushWord (if isrErr vector then code else 0)
  c.pushWord (BitVec.ofNat 64 vector)

theorem pushVector_deliver {rsp0 : BitVec 64} {vector : Nat} {code : BitVec 64} {u : Cpu}
    (hv : vector ∈ gates) :
    let c := run (pushVector vector) (cli (deliver rsp0 vector code u))
    c.reg = (pushWords rsp0 vector code u).reg ∧ c.mem = (pushWords rsp0 vector code u).mem ∧
      c.seg .ds = u.seg .ds := by
  simp only [pushVector, cli, deliver, pushWords, pushesErrorCode_of_mem_gates hv]
  cases isrErr vector
  · simp [exec, Cpu.pushWord, Cpu.setReg, Cpu.setSeg]
  · simp [exec, Cpu.pushWord, Cpu.setReg, Cpu.setSeg]

/-- Everything below is pushed on the stack the interrupt is taken on. -/
theorem interruptEntry_stack {rsp0 : BitVec 64} {vector : Nat} {code : BitVec 64} {u : Cpu}
    (hv : vector ∈ gates) :
    (interruptEntry rsp0 vector code u).reg .rsp = interruptStack rsp0 u - 184#64 ∧
      (interruptEntry rsp0 vector code u).reg .rdi = interruptStack rsp0 u - 184#64 := by
  obtain ⟨hreg, -, -⟩ := @pushVector_deliver rsp0 vector code u hv
  unfold interruptEntry
  generalize run (pushVector vector) _ = c at *
  simp only [saveRegisters, run_cons, run_nil, exec, Cpu.setReg, Cpu.setSeg, Cpu.pushWord,
    Function.update_apply, reduceCtorEq, if_true, if_false, sub_sub, BitVec.reduceAdd, hreg, pushWords,
    and_self]

/-- **The frame of an interrupt** is the register file of the program that was interrupted. -/
theorem interruptEntry_frame {rsp0 : BitVec 64} {vector : Nat} {code : BitVec 64} {u : Cpu}
    (hv : vector ∈ gates) (hstack : 184 ≤ (interruptStack rsp0 u).toNat) :
    registersAt (interruptEntry rsp0 vector code u).mem ((interruptEntry rsp0 vector code u).reg .rdi) =
      savedRegisters vector code u := by
  obtain ⟨hreg, hmem, hds⟩ := @pushVector_deliver rsp0 vector code u hv
  rw [(interruptEntry_stack hv).2]
  unfold interruptEntry
  generalize run (pushVector vector) _ = c at *
  simp only [registersAt, savedRegisters, saveRegisters, run_cons, run_nil, exec, Cpu.setReg, Cpu.setSeg,
    Cpu.pushWord, Function.update_apply, reduceCtorEq, if_true, if_false, sub_sub, BitVec.reduceAdd,
    hreg, hmem, hds, pushWords]
  generalize interruptStack rsp0 u = top at *
  congr 1
  all_goals
    simp (disch := first | assumption | decide) only [loadWord_slot_self, loadWord_slot]

/-- A store into the frame below `top`. -/
theorem storeWord_slot_of_outside {m : Memory} {top a v : BitVec 64} {x : Nat} (htop : 184 ≤ top.toNat)
    (ha : a.toNat ≤ 184) (ha8 : 8 ≤ a.toNat) (hx : x < top.toNat - 184 ∨ top.toNat ≤ x) :
    storeWord m (top - a) v x = m x := by
  refine storeWord_of_outside ?_
  rw [toNat_sub_slot htop ha]
  omega

/-- Nothing else is written. -/
theorem interruptEntry_mem {rsp0 : BitVec 64} {vector : Nat} {code : BitVec 64} {u : Cpu} {x : Nat}
    (hv : vector ∈ gates) (hstack : 184 ≤ (interruptStack rsp0 u).toNat)
    (hx : x < (interruptStack rsp0 u).toNat - 184 ∨ (interruptStack rsp0 u).toNat ≤ x) :
    (interruptEntry rsp0 vector code u).mem x = u.mem x := by
  obtain ⟨hreg, hmem, -⟩ := @pushVector_deliver rsp0 vector code u hv
  unfold interruptEntry
  generalize run (pushVector vector) _ = c at *
  simp only [saveRegisters, run_cons, run_nil, exec, Cpu.setReg, Cpu.setSeg, Cpu.pushWord,
    Function.update_apply, reduceCtorEq, if_true, if_false, sub_sub, BitVec.reduceAdd, hreg, hmem,
    pushWords]
  simp (disch := first | assumption | decide) only [storeWord_slot_of_outside]

/-! ## 3. The way back -/

/-- The general registers of a frame. -/
def Registers.reg (f : Registers) : Reg → BitVec 64
  | .rax => f.rax
  | .rbx => f.rbx
  | .rcx => f.rcx
  | .rdx => f.rdx
  | .rsi => f.rsi
  | .rdi => f.rdi
  | .rbp => f.rbp
  | .rsp => f.rsp
  | .r8 => f.r8
  | .r9 => f.r9
  | .r10 => f.r10
  | .r11 => f.r11
  | .r12 => f.r12
  | .r13 => f.r13
  | .r14 => f.r14
  | .r15 => f.r15

/-- What `interruptReturn` makes of the frame RSP points to. -/
theorem interruptReturn_spec (d : Cpu) :
    let f := registersAt d.mem (d.reg .rsp)
    let r := interruptReturn d
    r.reg = f.reg ∧ r.rip = f.rip ∧ r.rflags = f.rflags ∧ r.seg .cs = f.cs.setWidth 16 ∧
      r.seg .ss = f.ss.setWidth 16 ∧ (∀ s ∈ [Seg.ds, .es, .fs, .gs], r.seg s = f.ds.setWidth 16) ∧
      r.mem = d.mem := by
  simp only [interruptReturn, sti, addRsp, restoreRegisters, run_cons, run_nil, exec, Cpu.setReg,
    Cpu.setSeg, Cpu.peek, Function.update_apply, reduceCtorEq, if_true, if_false, add_assoc,
    BitVec.reduceAdd, registersAt]
  refine ⟨?_, rfl, rfl, rfl, rfl, ?_, trivial⟩
  · funext r
    cases r
    all_goals simp [Registers.reg]
  · simp

/-- `r` is where the program at `u` goes on.  ES, FS and GS are not saved: they get what DS had. -/
structure GoesOn (u r : Cpu) : Prop where
  reg : r.reg = u.reg
  rip : r.rip = u.rip
  rflags : r.rflags = u.rflags
  cs : r.seg .cs = u.seg .cs
  ss : r.seg .ss = u.seg .ss
  data : ∀ s ∈ [Seg.ds, .es, .fs, .gs], r.seg s = u.seg .ds

theorem setWidth_withLow (old : BitVec 64) (v : BitVec 16) : (withLow old v).setWidth 16 = v := by
  apply BitVec.eq_of_getLsbD_eq
  intro i hi
  unfold withLow
  simp [hi]

/-- The frame that was pushed, popped. -/
theorem goesOn_savedRegisters {vector : Nat} {code : BitVec 64} {u d : Cpu}
    (h : registersAt d.mem (d.reg .rsp) = savedRegisters vector code u) :
    GoesOn u (interruptReturn d) := by
  obtain ⟨hreg, hrip, hrflags, hcs, hss, hdata, -⟩ := interruptReturn_spec d
  rw [h] at hreg hrip hrflags hcs hss hdata
  refine ⟨?_, hrip, hrflags, ?_, ?_, fun s hs => ?_⟩
  · rw [hreg]
    funext r
    cases r
    all_goals rfl
  · rw [hcs, savedRegisters, BitVec.setWidth_setWidth_of_le _ (by decide), BitVec.setWidth_eq]
  · rw [hss, savedRegisters, BitVec.setWidth_setWidth_of_le _ (by decide), BitVec.setWidth_eq]
  · rw [hdata s hs, savedRegisters, setWidth_withLow]

/-- The byte addresses of the frame at `a`. -/
def InFrame (a : BitVec 64) (x : Nat) : Prop := a.toNat ≤ x ∧ x < a.toNat + 184

/-- Two states between which the frame at `a` was not written. -/
def SameFrame (a : BitVec 64) (c d : Cpu) : Prop := ∀ x, InFrame a x → d.mem x = c.mem x

section Frames

variable {a : BitVec 64} {c d e : Cpu}

theorem SameFrame.trans (h : SameFrame a c d) (h' : SameFrame a d e) : SameFrame a c e :=
  fun x hx => (h' x hx).trans (h x hx)

theorem SameFrame.loadWord {b : BitVec 64} (h : SameFrame a c d) (ha : a.toNat + 184 ≤ 2 ^ 64)
    (hb : b.toNat + 8 ≤ 184) : loadWord d.mem (a + b) = loadWord c.mem (a + b) := by
  refine loadWord_congr fun k hk => h _ ?_
  rw [BitVec.toNat_add, Nat.mod_eq_of_lt (by omega)]
  unfold InFrame
  omega

theorem SameFrame.registersAt (h : SameFrame a c d) (ha : a.toNat + 184 ≤ 2 ^ 64) :
    registersAt d.mem a = registersAt c.mem a := by
  unfold AcornOS.registersAt
  congr 1
  all_goals exact h.loadWord ha (by decide)

end Frames

/-- Where the frame of an interrupt is. -/
theorem toNat_interruptEntry {rsp0 : BitVec 64} {vector : Nat} {code : BitVec 64} {u : Cpu}
    (hv : vector ∈ gates) (hstack : 184 ≤ (interruptStack rsp0 u).toNat) :
    ((interruptEntry rsp0 vector code u).reg .rsp).toNat = (interruptStack rsp0 u).toNat - 184 := by
  rw [(interruptEntry_stack hv).1]
  exact toNat_sub_slot hstack (by decide)

/-- **Interrupt transparency.**  The program that was interrupted goes on with the registers it had,
if the handler comes back to the call and leaves the frame alone. -/
theorem interrupt_transparent {rsp0 : BitVec 64} {vector : Nat} {code : BitVec 64} {u d : Cpu}
    (hv : vector ∈ gates) (hstack : 184 ≤ (interruptStack rsp0 u).toNat)
    (hrsp : d.reg .rsp = (interruptEntry rsp0 vector code u).reg .rsp)
    (hframe : SameFrame (d.reg .rsp) (interruptEntry rsp0 vector code u) d) :
    GoesOn u (interruptReturn d) := by
  refine @goesOn_savedRegisters vector code _ _ ?_
  have htop := (interruptStack rsp0 u).isLt
  have ha := @toNat_interruptEntry rsp0 vector code u hv hstack
  rw [hframe.registersAt (by rw [hrsp, ha]; omega), hrsp, ← interruptEntry_frame hv hstack,
    (interruptEntry_stack hv).1, (interruptEntry_stack hv).2]

/-! ## 4. Preemption -/

/-- `switch_context` writes the outgoing PCB, the slot below the return address and one quadword of
the incoming stack. -/
theorem switchContext_mem {c : Cpu} {x : Nat} (hp : Pcb (c.reg .rdi)) (hx : ¬ InPcb (c.reg .rdi) x)
    (hslot : x < (c.reg .rsp - 8).toNat ∨ (c.reg .rsp - 8).toNat + 8 ≤ x)
    (hpushed : x < ((run saveState c).peek .rsi 104 - 8).toNat ∨
      ((run saveState c).peek .rsi 104 - 8).toNat + 8 ≤ x) :
    (switchContext c).mem x = c.mem x := by
  have hmem : (run testRing (switchDirectory (run saveState c))).mem = (run saveState c).mem :=
    switchDirectory_mem _
  have hrsi : (run testRing (switchDirectory (run saveState c))).reg .rsi =
      (run saveState c).reg .rsi := switchDirectory_reg _ (by decide) (by decide)
  rw [← saveState_mem c hp hx hslot]
  simp only [switchContext]
  split
  · rw [ring0Restore_mem, Cpu.peek, Cpu.peek, hmem, hrsi]
    exact storeWord_of_outside hpushed
  · rw [enterRing3_mem, hmem]

/-- The quadword at `b` is no part of the frame at `a`. -/
def BesideFrame (a b : BitVec 64) : Prop := b.toNat + 8 ≤ a.toNat ∨ a.toNat + 184 ≤ b.toNat

instance (a b : BitVec 64) : Decidable (BesideFrame a b) := inferInstanceAs (Decidable (_ ∨ _))

/-- The save of `switch_context` in `c` leaves the frame at `a` alone. -/
structure SaveBeside (a : BitVec 64) (c : Cpu) : Prop where
  old : Pcb (c.reg .rdi)
  apart : ∀ x, InFrame a x → ¬ InPcb (c.reg .rdi) x
  slot : BesideFrame a (c.reg .rsp - 8)

/-- So does its restore. -/
structure SwitchBeside (a : BitVec 64) (c : Cpu) : Prop extends SaveBeside a c where
  pushed : BesideFrame a ((run saveState c).peek .rsi 104 - 8)

theorem SwitchBeside.same {a : BitVec 64} {c : Cpu} (h : SwitchBeside a c) :
    SameFrame a c (switchContext c) := by
  intro x hx
  have hslot := h.slot
  have hpushed := h.pushed
  unfold BesideFrame at hslot hpushed
  have hx' := hx
  unfold InFrame at hx'
  exact switchContext_mem h.old (h.apart x hx) (by omega) (by omega)

/-- What happens while the process with its PCB at `p` and its frame at `a` is preempted. -/
inductive Away (p a : BitVec 64) : Cpu → Cpu → Prop
  | code {c d : Cpu} : SamePcb p c d → SameFrame a c d → Away p a c d
  | switch {c : Cpu} : SwitchClear p c → SwitchBeside a c → Away p a c (switchContext c)

theorem Away.same {p a : BitVec 64} {c d : Cpu} (h : Away p a c d) : SamePcb p c d ∧ SameFrame a c d := by
  cases h with
  | code hpcb hframe => exact ⟨hpcb, hframe⟩
  | switch hpcb hframe => exact ⟨hpcb.same, hframe.same⟩

theorem same_of_away {p a : BitVec 64} {c d : Cpu} (h : Relation.ReflTransGen (Away p a) c d) :
    SamePcb p c d ∧ SameFrame a c d :=
  reach_invariant (I := fun d => SamePcb p c d ∧ SameFrame a c d) h
    ⟨fun _ _ => rfl, fun _ _ => rfl⟩
    fun _ _ hI hstep => ⟨hI.1.trans hstep.same.1, hI.2.trans hstep.same.2⟩

/-- The handler called in `e`, on its way to a call `depth` bytes further down its stack. -/
structure Descends (depth : BitVec 64) (e c : Cpu) : Prop where
  rsp : c.reg .rsp = e.reg .rsp - depth
  room : 8 ≤ depth.toNat ∧ depth.toNat ≤ (e.reg .rsp).toNat
  frame : SameFrame (e.reg .rsp) e c

/-- From the return of that call in `r` to the return of the handler. -/
structure Ascends (depth : BitVec 64) (e r d : Cpu) : Prop where
  rsp : d.reg .rsp = r.reg .rsp + (depth - 8)
  frame : SameFrame (e.reg .rsp) r d

/-- A user program is preempted in favour of a process with its PCB at `0x20000`, whose kernel stack
ends at `0x7000`. -/
def preempted : Cpu where
  reg
    | .rsp => 0x400000
    | .rcx => 3
    | .r8 => 8
    | _ => 0
  seg
    | .cs => 0x2B
    | _ => 0x23
  rip := 0x1234
  rflags := 0x202
  cr3 := 0
  mem := storeWord (fun _ => 0) (0x20000 + 104) 0x6FF8

/-- Its handler calls `switch_context`. -/
def switchesAway : Cpu :=
  let e := interruptEntry 0x5FF8 32 0 preempted
  ((e.setReg .rdi 0x10000).setReg .rsi 0x20000).setReg .rsp (e.reg .rsp - 0x38)

/-- The other process, some way down its stack, gives way. -/
def switchesBack : Cpu :=
  { switchContext switchesAway with
    reg
      | .rdi => 0x20000
      | .rsi => 0x10000
      | .rsp => 0x6E00
      | _ => 7 }

def handlerDone : Cpu :=
  let r := switchContext switchesBack
  r.setReg .rsp (r.reg .rsp + (0x38 - 8))

theorem suspendedBy_switchesAway : SuspendedBy 0x10000 switchesAway where
  old := rfl
  pcb := by decide
  ring := by decide +kernel
  ret := by decide +kernel
  slot := by decide +kernel
  pushed := by decide +kernel

theorem frame_preempted : (interruptEntry 0x5FF8 32 0 preempted).reg .rsp = 0x5F38 := by
  decide +kernel

theorem switchBeside_switchesAway : SwitchBeside 0x5F38 switchesAway where
  old := by decide
  apart := fun x hx hx' => absurd (hx'.1.trans_lt hx.2) (by decide +kernel)
  slot := by decide +kernel
  pushed := by decide +kernel

theorem resumedBy_switchesBack : ResumedBy 0x10000 switchesBack where
  old := by decide
  apart := fun x hx hx' => absurd (hx'.1.trans_lt hx.2) (by decide +kernel)
  slot := by decide +kernel
  new := rfl

theorem saveBeside_switchesBack : SaveBeside 0x5F38 switchesBack where
  old := by decide
  apart := fun x hx hx' => absurd (hx'.1.trans_lt hx.2) (by decide +kernel)
  slot := by decide +kernel

theorem descends_switchesAway : Descends 0x38 (interruptEntry 0x5FF8 32 0 preempted) switchesAway where
  rsp := setReg_self _ _ _
  room := by decide +kernel
  frame := fun _ _ => rfl

theorem ascends_handlerDone :
    Ascends 0x38 (interruptEntry 0x5FF8 32 0 preempted) (switchContext switchesBack) handlerDone where
  rsp := setReg_self _ _ _
  frame := fun _ _ => rfl

end AcornOS
