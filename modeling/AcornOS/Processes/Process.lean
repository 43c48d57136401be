/-
# Processes (`process.c`, `scheduler.c` and the process calls of `syscall.c`)

The model of the routines that create, copy and destroy processes, and of the run queue.

* **PCBs** are records in a store `pcb` from addresses to `Process`; the addresses come from
  `kmalloc`, and the blocks they are the data of are kept track of in `heap`.  Writing a PCB never
  touches a page frame and the other way round: the kernel heap's frames are reserved when the page
  allocator starts.
* **Pages** are the `machine`: the memory behind the direct map and the page allocator.
* Code between `cli` and `sti` is one function.  The loop of `sys_wait` and of `process_wait` is its
  body (`sysWaitRound`, `processWaitRound`): it ends with a result or with the caller blocked, and
  then goes round again when the caller is woken.

PIDs are counted without the wrap-around of `next_pid` at `2^64`.  Console output and the TSS are
left out.
-/
import AcornOS.Arch.Paging
import AcornOS.Memory.Mem

namespace AcornOS

open Lib

/-! ## 1. Data -/

/-- `process_state_t` -/
inductive ProcessState where
  | ready
  | running
  | blocked
  | dead
  | sleeping
deriving Repr, DecidableEq

/-- `cpu_state_t` -/
structure CpuState where
  rax : BitVec 64
  rbx : BitVec 64
  rcx : BitVec 64
  rdx : BitVec 64
  rsi : BitVec 64
  rdi : BitVec 64
  rbp : BitVec 64
  rsp : BitVec 64
  rip : BitVec 64
  rflags : BitVec 64
  cs : BitVec 64
  ds : BitVec 64
  ss : BitVec 64
  r12 : BitVec 64
  r13 : BitVec 64
  r14 : BitVec 64
  r15 : BitVec 64
deriving Repr, DecidableEq

/-- `process_t`.  `name` is the string up to its terminator. -/
structure Process where
  pid : Nat
  name : List (BitVec 8)
  state : ProcessState
  cpu : CpuState
  stack : Nat
  stackTop : Nat
  pageDir : Nat
  timeSlice : Int
  ticksRemaining : Int
  next : Nat
  userEsp : BitVec 64
  userEip : BitVec 64
  parentPid : Nat
  exitCode : BitVec 32
  isUser : Bool
  heapStart : Nat
  heapEnd : Nat
  wakeAtTick : BitVec 32
deriving Repr, DecidableEq

/-- `registers_t` -/
structure Registers where
  ds : BitVec 64
  r15 : BitVec 64
  r14 : BitVec 64
  r13 : BitVec 64
  r12 : BitVec 64
  r11 : BitVec 64
  r10 : BitVec 64
  r9 : BitVec 64
  r8 : BitVec 64
  rbp : BitVec 64
  rdi : BitVec 64
  rsi : BitVec 64
  rdx : BitVec 64
  rcx : BitVec 64
  rbx : BitVec 64
  rax : BitVec 64
  intNo : BitVec 64
  errCode : BitVec 64
  rip : BitVec 64
  cs : BitVec 64
  rflags : BitVec 64
  rsp : BitVec 64
  ss : BitVec 64
deriving Repr, DecidableEq

/-- The kernel: page frames, kernel heap, the PCBs, and the static variables of `paging.c`,
`process.c` and `scheduler.c`.  Pointers are addresses, 0 is NULL. -/
structure Kernel where
  machine : Machine
  heap : KHeap
  pcb : Nat → Process
  processTable : Nat → Nat
  currentProcess : Nat
  nextPid : Nat
  runQueueHead : Nat
  runQueueTail : Nat
  kernelPml4 : Nat
  /-- Where the linker put `iret_to_usermode`. -/
  iretToUsermode : BitVec 64

/-- `MAX_PROCESSES` -/
def maxProcesses : Nat := 16

/-- `sizeof(process_t)` -/
def sizeofProcess : Nat := 280

/-- `PROCESS_STACK_SIZE` -/
def processStackSize : Nat := 4096

/-- `PROCESS_USER` -/
def processUser : Nat := 1

/-- `kmemset(&proc->cpu, 0, sizeof(cpu_state_t))` -/
def CpuState.zero : CpuState :=
  ⟨0, 0, 0, 0, 0, 0, 0, 0, 0, 0, 0, 0, 0, 0, 0, 0, 0⟩

/-- `kstrcpy`: at most `max - 1` characters. -/
def kstrcpy (src : List (BitVec 8)) (max : Nat) : List (BitVec 8) := src.take (max - 1)

namespace Kernel

/-- Writing fields of a PCB. -/
def modify (s : Kernel) (p : Nat) (f : Process → Process) : Kernel :=
  { s with pcb := Function.update s.pcb p (f (s.pcb p)) }

/-- `*current_process` -/
def current (s : Kernel) : Process := s.pcb s.currentProcess

/-- The first slot of the process table that a test accepts. -/
def findSlot (s : Kernel) (test : Nat → Bool) : Option Nat :=
  (List.range maxProcesses).find? fun i => test (s.processTable i)

/-- The first empty slot. -/
def freeSlot (s : Kernel) : Option Nat := s.findSlot fun p => p == 0

/-- A new process in the table: its PCB `x` at `proc`, which took the next PID, and what the kernel heap
and the pages became when it was allocated. -/
def install (s : Kernel) (slot proc : Nat) (x : Process) (heap : KHeap) (machine : Machine) :
    Kernel :=
  { s with
    machine := machine
    heap := heap
    nextPid := s.nextPid + 1
    pcb := Function.update s.pcb proc x
    processTable := Function.update s.processTable slot proc }

end Kernel

/-! ## 2. The run queue -/

/-- `scheduler_add` -/
def schedulerAdd (s : Kernel) (proc : Nat) : Except Halt Kernel :=
  if proc = 0 then .error (.panic "scheduler: null process!")
  else
    let s := s.modify proc fun p => { p with state := .ready, next := 0 }
    if s.runQueueHead = 0 then
      .ok { s.modify proc fun p => { p with next := proc } with
        runQueueHead := proc, runQueueTail := proc }
    else
      let s := s.modify s.runQueueTail fun p => { p with next := proc }
      let s := s.modify proc fun p => { p with next := s.runQueueHead }
      .ok { s with runQueueTail := proc }

/-- The walk of `scheduler_remove`, with the rounds it has left. -/
def removeFrom (s : Kernel) (proc : Nat) : Nat → Nat → Nat → Kernel
  | 0, _, _ => s
  | n + 1, prev, node =>
    if node = proc then
      let s := s.modify prev fun p => { p with next := (s.pcb node).next }
      let s := if s.runQueueHead = proc then { s with runQueueHead := (s.pcb node).next } else s
      if s.runQueueTail = proc then { s with runQueueTail := prev } else s
    else removeFrom s proc n node (s.pcb node).next

/-- `scheduler_remove` -/
def schedulerRemove (s : Kernel) (proc : Nat) : Kernel :=
  if proc = 0 ∨ s.runQueueHead = 0 then s
  else if s.runQueueHead = proc ∧ s.runQueueHead = s.runQueueTail then
    { s with runQueueHead := 0, runQueueTail := 0 }
  else removeFrom s proc maxProcesses s.runQueueTail s.runQueueHead

/-! ## 3. Creating processes -/

/-- The registers a new process starts with. -/
def initialCpu (entry stackTop flags : Nat) : CpuState :=
  if flags % 2 = processUser then
    { CpuState.zero with cs := 0x2B, ds := 0x23, ss := 0x23, rflags := 0x200 }
  else
    { CpuState.zero with
      rip := BitVec.ofNat 64 entry, rsp := BitVec.ofNat 64 stackTop, rbp := BitVec.ofNat 64 stackTop,
      rflags := 0x200, cs := 0x08, ds := 0x10, ss := 0x10 }

/-- `process_create`: the new PCB's address. -/
def processCreate (s : Kernel) (name : Option (List (BitVec 8))) (entry flags : Nat) :
    Except Halt (Nat × Kernel) :=
  if entry = 0 then .error (.panic "process_create: null entry point!")
  else
    match name with
    | none => .error (.panic "process_create: null process name!")
    | some name =>
      match s.freeSlot with
      | none => .error (.panic "process_create: process table full!")
      | some slot => do
        let (proc, heap) ← kmalloc s.heap sizeofProcess
        let (stackPhysical, pmm) ← pmmAlloc s.machine.pmm
        let stack := add64 stackPhysical physicalMapBase
        let stackTop := sub64 (add64 stack processStackSize) 8
        let mem := if flags % 2 = processUser then s.machine.mem
          else store64 s.machine.mem stackTop entry
        let (pageDir, machine) ← pagingCloneDirectory ⟨mem, pmm⟩ s.kernelPml4
        let x : Process :=
          { pid := s.nextPid
            name := kstrcpy name 32
            state := .ready
            cpu := initialCpu entry stackTop flags
            stack := stack
            stackTop := stackTop
            pageDir := pageDir
            timeSlice := 10
            ticksRemaining := 10
            next := 0
            userEsp := 0
            userEip := 0
            parentPid := if s.currentProcess = 0 then 0 else s.current.pid
            exitCode := 0
            isUser := false
            heapStart := 0
            heapEnd := 0
            wakeAtTick := 0 }
        .ok (proc, s.install slot proc x heap machine)

/-- `pid_t` -1 -/
def noPid : Nat := 2 ^ 64 - 1

/-- The frame that `iret_to_usermode` pops, written downwards from the top of the child's stack. -/
def iretFrame (mem : Memory) (stackTop : Nat) (parent : Process) : Memory :=
  let mem := store64 mem stackTop 0x23
  let mem := store64 mem (sub64 stackTop 8) parent.userEsp.toNat
  let mem := store64 mem (sub64 stackTop 16) 0x200
  let mem := store64 mem (sub64 stackTop 24) 0x2B
  let mem := store64 mem (sub64 stackTop 32) parent.userEip.toNat
  store64 mem (sub64 stackTop 40) 0

/-- The registers a forked child resumes with. -/
def childCpu (parent : Process) (childStackTop : Nat) (iretToUsermode : BitVec 64) : CpuState :=
  if parent.isUser then
    { parent.cpu with
      rsp := BitVec.ofNat 64 (sub64 childStackTop 40), rip := iretToUsermode, rax := 0,
      rflags := 0x200, cs := 0x08, ds := 0x10, ss := 0x10 }
  else
    let top := BitVec.ofNat 64 parent.stackTop
    { parent.cpu with
      rax := 0
      rsp := BitVec.ofNat 64 childStackTop - (top - parent.cpu.rsp)
      rbp := BitVec.ofNat 64 childStackTop - (top - parent.cpu.rbp) }

/-- `process_fork`: the child's PID. -/
def processFork (s : Kernel) : Except Halt (Nat × Kernel) :=
  if s.currentProcess = 0 then .error (.panic "fork: no current process!")
  else
    match s.freeSlot with
    | none => .error (.panic "fork: process table full")
    | some slot => do
      let (child, heap) ← kmalloc s.heap sizeofProcess
      if child = 0 then .ok (noPid, { s with heap := heap })
      else
        let parent := s.current
        let (stackPhysical, pmm) ← pmmAlloc s.machine.pmm
        let stack := physicalToVirtual stackPhysical
        if stackPhysical = 0 ∨ stack = 0 then
          let heap ← kfree heap child
          .ok (noPid, { s with
            machine := { s.machine with pmm := pmm }, heap := heap, nextPid := s.nextPid + 1 })
        else
          let mem := copyPage s.machine.mem parent.stack stack
          let stackTop := sub64 (add64 stack pageSize) 8
          let (pageDir, machine) ← pagingDeepCopyDirectory ⟨mem, pmm⟩ parent.pageDir
          if pageDir = 0 then .error (.panic "fork: failed to deep copy page directory!")
          else
            let machine := if parent.isUser then
              { machine with mem := iretFrame machine.mem stackTop parent } else machine
            let x : Process :=
              { parent with
                pid := s.nextPid
                parentPid := parent.pid
                name := kstrcpy parent.name 32
                stack := stack
                stackTop := stackTop
                pageDir := pageDir
                cpu := childCpu parent stackTop s.iretToUsermode
                state := .ready
                ticksRemaining := parent.timeSlice
                next := 0 }
            let s ← schedulerAdd (s.install slot child x heap machine) child
            .ok (x.pid, s)

/-- What `sys_fork` saves of the frame. -/
def savedCpu (regs : Registers) (cpu : CpuState) : CpuState :=
  { cpu with
    rip := regs.rip, rsp := regs.rsp, rflags := regs.rflags, rax := regs.rax, rbx := regs.rbx,
    rcx := regs.rcx, rdx := regs.rdx, rsi := regs.rsi, rdi := regs.rdi, rbp := regs.rbp }

/-- `sys_fork` -/
def sysFork (s : Kernel) (regs : Registers) : Except Halt (Registers × Kernel) :=
  if s.currentProcess = 0 then .error (.panic "sys_fork: no current process!")
  else do
    let (pid, s) ← processFork
      (s.modify s.currentProcess fun p => { p with cpu := savedCpu regs p.cpu })
    .ok ({ regs with rax := (BitVec.ofNat 32 pid).setWidth 64 }, s)

/-! ## 4. Growing a heap -/

/-- Rounding up to a page boundary. -/
def pageCeil (addr : Nat) : Nat := add64 addr 0xFFF / pageSize * pageSize

/-- `for(int i = 0; i < PAGE_SIZE; i++) page[i] = 0;` -/
def zeroPage (mem : Memory) (page : Nat) : Memory :=
  loop (fun i mem => Function.update mem (add64 page i) 0) pageSize mem

/-- One page more: `pmm_alloc`, `map_page_in`, and the page zeroed. -/
def growPage (pageDir va : Nat) (s : Machine) : Except Halt Machine := do
  let (physical, pmm) ← pmmAlloc s.pmm
  let s ← mapPageIn { s with pmm := pmm } pageDir va physical
    (pagePresent + pageWritable + pageUser)
  .ok { s with mem := zeroPage s.mem (physicalToVirtual physical) }

/-- `sys_heap_grow`: the value for RAX. -/
def sysHeapGrow (s : Kernel) (increment : BitVec 64) : Except Halt (BitVec 64 × Kernel) :=
  if s.currentProcess = 0 then .ok (-1, s)
  else
    let oldEnd := s.current.heapEnd
    if increment = 0 then .ok (BitVec.ofNat 64 oldEnd, s)
    else if increment.slt 0 then .ok (-1, s)
    else do
      let newEnd := add64 oldEnd increment.toNat
      let mappedUpTo := pageCeil oldEnd
      let machine ← forRange
        (fun i machine => growPage s.current.pageDir (mappedUpTo + i * pageSize) machine)
        ((pageCeil newEnd - mappedUpTo) / pageSize) s.machine
      .ok (BitVec.ofNat 64 oldEnd,
        { s with machine := machine }.modify s.currentProcess fun p => { p with heapEnd := newEnd })

/-! ## 5. Exit and wait -/

/-- `process_exit` -/
def processExit (s : Kernel) (process : Nat) : Kernel :=
  if process = 0 then s else s.modify process fun p => { p with state := .dead }

/-- `process_block` -/
def processBlock (s : Kernel) (proc : Nat) : Kernel :=
  if proc = 0 then s else s.modify proc fun p => { p with state := .blocked }

/-- `process_wake` -/
def processWake (s : Kernel) (proc : Nat) : Kernel :=
  if proc = 0 then s
  else if (s.pcb proc).state ≠ .blocked then s
  else s.modify proc fun p => { p with state := .ready }

/-- The loop of `sys_exit` that wakes the parent. -/
def wakeParent (s : Kernel) (parentPid : Nat) : Kernel :=
  match s.findSlot fun p =>
    p != 0 && (s.pcb p).pid == parentPid && (s.pcb p).state == .blocked with
  | none => s
  | some i => processWake s (s.processTable i)

/-- `sys_exit`, up to its call of `scheduler_yield`. -/
def sysExit (s : Kernel) (rdi : BitVec 64) : Except Halt Kernel :=
  if s.currentProcess = 0 then .error (.panic "sys_exit: no current process!")
  else
    let s := s.modify s.currentProcess fun p => { p with exitCode := rdi.setWidth 32 }
    let s := processExit s s.currentProcess
    .ok (if 0 < s.current.parentPid then wakeParent s s.current.parentPid else s)

/-- What `sys_wait` and `process_wait` do to the dead child in slot `i`. -/
def reap (s : Kernel) (i : Nat) : Except Halt Kernel := do
  let child := s.processTable i
  let s := schedulerRemove s child
  let machine := pagingFreeDirectory s.machine (s.pcb child).pageDir
  let pmm := pmmFree machine.pmm (virtualToPhysical (s.pcb child).stack)
  let heap ← kfree s.heap child
  .ok { s with
    machine := { machine with pmm := pmm }
    processTable := Function.update s.processTable i 0
    heap := heap }

/-- The slot of a dead child of the caller. -/
def deadChild (s : Kernel) : Option Nat :=
  s.findSlot fun p =>
    p != 0 && (s.pcb p).parentPid == s.current.pid && (s.pcb p).state == .dead

/-- `has_children` -/
def hasChildren (s : Kernel) : Bool :=
  (s.findSlot fun p => p != 0 && (s.pcb p).parentPid == s.current.pid).isSome

/-- One round of `sys_wait`: the value for RAX, or `none` if the caller was blocked. -/
def sysWaitRound (s : Kernel) : Except Halt (Option (BitVec 64) × Kernel) :=
  match deadChild s with
  | some i => do
    let exitCode := (s.pcb (s.processTable i)).exitCode
    let s ← reap s i
    .ok (some (exitCode.signExtend 64), s)
  | none =>
    if hasChildren s then .ok (none, processBlock s s.currentProcess)
    else .ok (some (-1), s)

/-- The slot of the dead process with a PID. -/
def deadWithPid (s : Kernel) (pid : Nat) : Option Nat :=
  s.findSlot fun p => p != 0 && (s.pcb p).pid == pid && (s.pcb p).state == .dead

/-- One round of `process_wait`: true if it returns, false if the caller was blocked. -/
def processWaitRound (s : Kernel) (pid : Nat) : Except Halt (Bool × Kernel) :=
  if s.currentProcess = 0 then .ok (true, s)
  else
    match deadWithPid s pid with
    | some i => do
      let s ← reap s i
      .ok (true, s)
    | none => .ok (false, processBlock s s.currentProcess)

end AcornOS
