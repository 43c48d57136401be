/-
# Descriptor tables (`gdt.c`, `tss.c`, `idt.c`)

The processor does not call a handler: it READS three tables that the kernel packed field by field,
and takes the handler, the code segment and the stack from them.  `deliver` (`Arch/Interrupts.lean`)
says what the stubs count on; here it is what the tables make the processor do.

* The first half of the model is the kernel's: `gdtInit`, `tssInit`, `idtInit`, `tssSetKernelStack`
  write bytes.  The second half is the processor's: it unpacks the bytes of a gate and of a
  descriptor, checks them, and changes stacks.  Neither knows the other's field names.  The pages it
  pushes to are taken to be there.
* `segmentDescriptor_packed` and `gate_packed` are the round trips, field by field; `tss_base` and
  `gate_handlerEntry` put an address together again that was packed in three or four pieces.
* `Statics.Installed` is what the tables hold.  It stands after boot (`Statics.Apart.boot_installed`),
  through every change of the kernel stack and through everything that does not write to the tables
  (`TableRun.installed`).
-/
import AcornOS.Arch.Interrupts

namespace AcornOS

open Lib

/-! ## 1. The kernel's side -/

/-- `gdt_entry_t` -/
structure GdtEntry where
  limitLow : BitVec 16
  baseLow : BitVec 16
  baseMid : BitVec 8
  access : BitVec 8
  granularity : BitVec 8
  baseHigh : BitVec 8

/-- The packed structure as a word. -/
def GdtEntry.packed (e : GdtEntry) : BitVec 64 :=
  e.baseHigh ++ e.granularity ++ e.access ++ e.baseMid ++ e.baseLow ++ e.limitLow

/-- `idt_entry_t` -/
structure IdtEntry where
  baseLow : BitVec 16
  selector : BitVec 16
  ist : BitVec 8
  flags : BitVec 8
  baseMid : BitVec 16
  baseHigh : BitVec 32
  reserved : BitVec 32

/-- The first word of the packed structure. -/
def IdtEntry.packedLow (e : IdtEntry) : BitVec 64 :=
  e.baseMid ++ e.flags ++ e.ist ++ e.selector ++ e.baseLow

/-- The second one. -/
def IdtEntry.packedHigh (e : IdtEntry) : BitVec 64 := e.reserved ++ e.baseHigh

/-- GDTR, IDTR: `gdt_descriptor_t`, `idt_descriptor_t`. -/
structure TableRegister where
  limit : BitVec 16
  base : BitVec 64

/-- TR, with what LTR read from the descriptor. -/
structure TaskRegister where
  selector : BitVec 16
  base : BitVec 64
  limit : BitVec 20

/-- The processor with its system registers. -/
structure Processor where
  cpu : Cpu
  gdtr : TableRegister
  idtr : TableRegister
  tr : TaskRegister

/-- Where the linker put `gdt`, `idt`, `tss` and the stub for a vector. -/
structure Statics where
  gdt : BitVec 64
  idt : BitVec 64
  tss : BitVec 64
  stub : Nat → BitVec 64

def Processor.setMem (p : Processor) (m : Memory) : Processor := { p with cpu := { p.cpu with mem := m } }

/-- `gdt_flush` -/
def gdtFlush (p : Processor) (d : TableRegister) : Processor :=
  { p with
    gdtr := d
    cpu := (((((p.cpu.setSeg .ds 0x10).setSeg .es 0x10).setSeg .fs 0x10).setSeg .gs 0x10).setSeg
      .ss 0x10).setSeg .cs 0x08 }

/-- `idt_flush` -/
def idtFlush (p : Processor) (d : TableRegister) : Processor := { p with idtr := d }

namespace Statics

variable (s : Statics)

/-- `gdt[i]` -/
def gdtAt (i : Nat) : BitVec 64 := s.gdt + BitVec.ofNat 64 (8 * i)

/-- `idt[n]` -/
def idtAt (n : Nat) : BitVec 64 := s.idt + BitVec.ofNat 64 (16 * n)

/-- `set_entry` -/
def setEntry (m : Memory) (i : Nat) (access granularity : BitVec 8) : Memory :=
  storeWord m (s.gdtAt i) (GdtEntry.packed ⟨0xFFFF, 0, 0, access, granularity, 0⟩)

/-- `gdt_init` -/
def gdtInit (p : Processor) : Processor :=
  let m := s.setEntry p.cpu.mem 0 0x00 0x00
  let m := s.setEntry m 1 0x9A 0x20
  let m := s.setEntry m 2 0x92 0x00
  let m := s.setEntry m 3 0x00 0x00
  let m := s.setEntry m 4 0xF2 0x00
  let m := s.setEntry m 5 0xFA 0x20
  let m := storeWord m (s.gdtAt 6) (GdtEntry.packed ⟨0, 0, 0, 0, 0, 0⟩)
  let m := storeWord m (s.gdtAt 7) (GdtEntry.packed ⟨0, 0, 0, 0, 0, 0⟩)
  gdtFlush (p.setMem m) ⟨8 * 8 - 1, s.gdt⟩

/-- `gdt_set_tss_entry` -/
def gdtSetTssEntry (base limit : BitVec 64) (p : Processor) : Processor :=
  let m := storeWord p.cpu.mem (s.gdtAt 6) (GdtEntry.packed
    { limitLow := (limit &&& 0xFFFF).setWidth 16
      baseLow := (base &&& 0xFFFF).setWidth 16
      baseMid := (base >>> 16 &&& 0xFF).setWidth 8
      access := 0x89
      granularity := (limit >>> 16 &&& 0x0F).setWidth 8
      baseHigh := (base >>> 24 &&& 0xFF).setWidth 8 })
  let m := storeWord m (s.gdtAt 7) (base >>> 32 &&& 0xFFFFFFFF)
  gdtFlush (p.setMem m) ⟨8 * 8 - 1, s.gdt⟩

/-- `tss_set_kernel_stack`; `rsp0` is the second member of the packed `tss_t`. -/
def tssSetKernelStack (stack : BitVec 64) (p : Processor) : Processor :=
  p.setMem (storeWord p.cpu.mem (s.tss + 4) stack)

/-- `idt_set_entry` -/
def idtSetEntry (m : Memory) (n : Nat) (base : BitVec 64) (selector : BitVec 16) (flags : BitVec 8) :
    Memory :=
  let e : IdtEntry :=
    { baseLow := (base &&& 0xFFFF).setWidth 16
      selector := selector
      ist := 0
      flags := flags
      baseMid := (base >>> 16 &&& 0xFFFF).setWidth 16
      baseHigh := (base >>> 32 &&& 0xFFFFFFFF).setWidth 32
      reserved := 0 }
  storeWord (storeWord m (s.idtAt n) e.packedLow) (s.idtAt n + 8) e.packedHigh

/-- `idt_init` -/
def idtInit (p : Processor) : Processor :=
  let m := s.idtSetEntry p.cpu.mem 0 (s.stub 0) 0x08 0x8E
  let m := s.idtSetEntry m 1 (s.stub 1) 0x08 0x8E
  let m := s.idtSetEntry m 2 (s.stub 2) 0x08 0x8E
  let m := s.idtSetEntry m 3 (s.stub 3) 0x08 0x8E
  let m := s.idtSetEntry m 8 (s.stub 8) 0x08 0x8E
  let m := s.idtSetEntry m 13 (s.stub 13) 0x08 0x8E
  let m := s.idtSetEntry m 14 (s.stub 14) 0x08 0x8E
  let m := s.idtSetEntry m 32 (s.stub 32) 0x08 0x8E
  let m := s.idtSetEntry m 33 (s.stub 33) 0x08 0x8E
  idtFlush (p.setMem m) ⟨256 * 16 - 1, s.idt⟩

end Statics

/-- The STAR register, as `syscall_msr_init` writes it. -/
def star : BitVec 64 := (0x18 : BitVec 64) <<< 48 ||| (0x08 : BitVec 64) <<< 32

/-- What SYSCALL takes from STAR for CS and SS. -/
def syscallSelectors (star : BitVec 64) : BitVec 16 × BitVec 16 :=
  (star.extractLsb' 32 16 &&& 0xFFFC, star.extractLsb' 32 16 + 8)

/-- What the 64-bit SYSRET takes from it. -/
def sysretSelectors (star : BitVec 64) : BitVec 16 × BitVec 16 :=
  (star.extractLsb' 48 16 + 16 ||| 3, star.extractLsb' 48 16 + 8 ||| 3)

/-! ## 2. The processor's side -/

/-- What the processor reads in a segment descriptor. -/
structure SegmentDescriptor where
  base : BitVec 32
  limit : BitVec 20
  type : BitVec 4
  notSystem : Bool
  dpl : BitVec 2
  present : Bool
  long : Bool
  big : Bool

def segmentDescriptor (w : BitVec 64) : SegmentDescriptor where
  base := w.extractLsb' 56 8 ++ w.extractLsb' 16 24
  limit := w.extractLsb' 48 4 ++ w.extractLsb' 0 16
  type := w.extractLsb' 40 4
  notSystem := w.getLsbD 44
  dpl := w.extractLsb' 45 2
  present := w.getLsbD 47
  long := w.getLsbD 53
  big := w.getLsbD 54

/-- What the processor reads in a gate of 16 bytes. -/
structure Gate where
  offset : BitVec 64
  selector : BitVec 16
  ist : BitVec 3
  type : BitVec 5
  dpl : BitVec 2
  present : Bool

def gate (low high : BitVec 64) : Gate where
  offset := high.extractLsb' 0 32 ++ low.extractLsb' 48 16 ++ low.extractLsb' 0 16
  selector := low.extractLsb' 16 16
  ist := low.extractLsb' 32 3
  type := low.extractLsb' 40 5
  dpl := low.extractLsb' 45 2
  present := low.getLsbD 47

/-- An address that the processor can jump to. -/
def isCanonical (a : BitVec 64) : Bool := a.toNat < 2 ^ 47 ∨ 2 ^ 64 - 2 ^ 47 ≤ a.toNat

/-- Exceptions that make a double fault of another one. -/
def contributory (vector : Nat) : Bool := vector ∈ [0, 10, 11, 12, 13, 21]

/-- Delivering `first` raised `second`: that is a double fault. -/
def doubleFault (first second : Nat) : Bool :=
  contributory first && contributory second ||
    decide (first ∈ [14, 20]) && (contributory second || decide (second ∈ [14, 20]))

/-- The descriptor is one for 64-bit code, and a return to the ring that the selector asks for may take
it. -/
def SegmentDescriptor.takesCode (d : SegmentDescriptor) (selector : BitVec 16) : Bool :=
  d.notSystem && decide (d.type &&& 8 ≠ 0) && d.present && d.long && !d.big &&
    if d.type &&& 4 = 0 then decide (d.dpl.setWidth 16 = selector &&& 3)
    else decide (d.dpl.toNat ≤ (selector &&& 3).toNat)

/-- The same for a stack: writable data. -/
def SegmentDescriptor.takesStack (d : SegmentDescriptor) (selector : BitVec 16) : Bool :=
  d.notSystem && decide (d.type &&& 8 = 0) && decide (d.type &&& 2 ≠ 0) && d.present &&
    decide (d.dpl.setWidth 16 = selector &&& 3)

namespace Processor

variable (p : Processor)

/-- The descriptor of a selector; `none` for a null selector, an LDT and beyond the limit. -/
def descriptorOf (selector : BitVec 16) : Option SegmentDescriptor :=
  if selector &&& 0xFFFC = 0 ∨ selector &&& 4 ≠ 0 ∨ p.gdtr.limit.toNat < (selector ||| 7).toNat then none
  else some (segmentDescriptor (loadWord p.cpu.mem (p.gdtr.base + (selector &&& 0xFFF8).setWidth 64)))

/-- LTR: the descriptor of an available 64-bit TSS, which it marks busy. -/
def ltr (selector : BitVec 16) : Option Processor :=
  match p.descriptorOf selector with
  | none => none
  | some d =>
    let a := p.gdtr.base + (selector &&& 0xFFF8).setWidth 64
    if d.notSystem ∨ d.type ≠ 9 ∨ ¬ d.present then none
    else some { p.setMem (storeWord p.cpu.mem a (loadWord p.cpu.mem a ||| 0x20000000000)) with
      tr := ⟨selector, (loadWord p.cpu.mem (a + 8)).extractLsb' 0 32 ++ d.base, d.limit⟩ }

/-- The stack of the TSS for an inner ring. -/
def innerStack (cpl : BitVec 2) : BitVec 64 :=
  loadWord p.cpu.mem (p.tr.base + 4 + BitVec.ofNat 64 (8 * cpl.toNat))

/-- A stack of the interrupt stack table. -/
def interruptTableStack (ist : BitVec 3) : BitVec 64 :=
  loadWord p.cpu.mem (p.tr.base + 28 + BitVec.ofNat 64 (8 * ist.toNat))

/-- Going through a gate, with all checks made: the words it pushes and where it goes. -/
def enter (g : Gate) (cpl : BitVec 2) (code : Option (BitVec 64)) : Cpu :=
  let u := p.cpu
  let stack := if g.ist ≠ 0 then p.interruptTableStack g.ist
    else if cpl.setWidth 16 = ring u then u.reg .rsp else p.innerStack cpl
  let c := u.setReg .rsp (stack &&& ~~~0xF)
  let c := c.pushWord ((u.seg .ss).setWidth 64)
  let c := c.pushWord (u.reg .rsp)
  let c := c.pushWord u.rflags
  let c := c.pushWord ((u.seg .cs).setWidth 64)
  let c := c.pushWord u.rip
  let c := code.elim c c.pushWord
  let c := (c.setSeg .ss (if cpl.setWidth 16 = ring u then u.seg .ss else cpl.setWidth 16)).setSeg .cs
    (g.selector &&& 0xFFFC ||| cpl.setWidth 16)
  { c with
    rip := g.offset
    rflags := if g.type = 0xE then u.rflags &&& ~~~0x34300 else u.rflags &&& ~~~0x34100 }

/-- One attempt at a vector: the state behind the gate, or the exception it raises instead.
`software` is an `int n`; everything else counts as external to the program in error codes. -/
def vectorThrough (software : Bool) (vector : Nat) (code : Option (BitVec 64)) :
    Except (Nat × BitVec 64) Cpu :=
  let ext : BitVec 64 := if software then 0 else 1
  let own := BitVec.ofNat 64 (8 * vector + 2) ||| ext
  if p.idtr.limit.toNat < 16 * vector + 15 then .error (13, own)
  else
    let a := p.idtr.base + BitVec.ofNat 64 (16 * vector)
    let g := gate (loadWord p.cpu.mem a) (loadWord p.cpu.mem (a + 8))
    if g.type ≠ 0xE ∧ g.type ≠ 0xF then .error (13, own)
    else if software ∧ g.dpl.toNat < (ring p.cpu).toNat then .error (13, own)
    else if ¬ g.present then .error (11, own)
    else
      let other := (g.selector &&& 0xFFFC).setWidth 64 ||| ext
      match p.descriptorOf g.selector with
      | none => .error (13, other)
      | some d =>
        if ¬ d.notSystem ∨ d.type &&& 8 = 0 ∨ (ring p.cpu).toNat < d.dpl.toNat then .error (13, other)
        else if ¬ d.present then .error (11, other)
        else if ¬ d.long ∨ d.big then .error (13, other)
        else
          -- a conforming segment keeps the privilege level
          let cpl := if d.type &&& 4 = 0 then d.dpl else (ring p.cpu).setWidth 2
          if cpl.toNat < (ring p.cpu).toNat ∧ p.tr.limit.toNat < 4 + 8 * cpl.toNat + 7 then
            .error (10, (p.tr.selector &&& 0xFFFC).setWidth 64 ||| ext)
          else if ¬ isCanonical g.offset then .error (13, ext)
          else .ok (p.enter g cpl code)

/-- An event: an `int n`, an exception or an interrupt, with the error code of an exception that has
one.  `none` is a shutdown. -/
def interrupt (software : Bool) (vector : Nat) (code : BitVec 64) : Option Cpu :=
  let withCode v c := if pushesErrorCode v then some c else none
  match p.vectorThrough software vector (if software then none else withCode vector code) with
  | .ok c => some c
  | .error (second, code') =>
    if ¬ software ∧ vector = 8 then none
    else
      let second' := if ¬ software ∧ doubleFault vector second then (8, 0) else (second, code')
      match p.vectorThrough false second'.1 (withCode second'.1 second'.2) with
      | .ok c => some c
      | .error (third, _) =>
        if second'.1 = 8 ∨ ¬ doubleFault second'.1 third then none
        else (p.vectorThrough false 8 (some 0)).toOption

/-- A return can load the selector into CS. -/
def codeSelector (selector : BitVec 16) : Bool :=
  (p.descriptorOf selector).any fun d => d.takesCode selector

/-- A return can load the selector into SS. -/
def stackSelector (selector : BitVec 16) : Bool :=
  (p.descriptorOf selector).any fun d => d.takesStack selector

/-- The I/O permission bitmap, for code below the I/O privilege level. -/
def ioPermitted (port : BitVec 16) : Bool :=
  let bitmap := (p.cpu.mem ((p.tr.base + 102).toNat)).toNat +
    256 * (p.cpu.mem ((p.tr.base + 103).toNat)).toNat
  let byte := bitmap + port.toNat / 8
  decide (byte + 1 ≤ p.tr.limit.toNat) &&
    !(p.cpu.mem ((p.tr.base + BitVec.ofNat 64 byte).toNat)).getLsbD (port.toNat % 8)

end Processor

/-- `tss_init` -/
def Statics.tssInit (s : Statics) (p : Processor) : Option Processor :=
  let m := loop (fun i m => Function.update m ((s.tss + BitVec.ofNat 64 i).toNat) 0) 104 p.cpu.mem
  let m := storeWord m (s.tss + 4) 0x90000
  let m := storeHalf m (s.tss + 102) 104
  (s.gdtSetTssEntry s.tss (104 - 1) (p.setMem m)).ltr 0x30

/-- What `kernel_main` does with the tables. -/
def Statics.boot (s : Statics) (p : Processor) : Option Processor :=
  (s.tssInit (s.gdtInit p)).map s.idtInit

/-! ## 3. What the tables hold -/

/-- The entry of a handler, as `idt_init` asks for it. -/
def handlerEntry (base : BitVec 64) : IdtEntry where
  baseLow := (base &&& 0xFFFF).setWidth 16
  selector := 0x08
  ist := 0
  flags := 0x8E
  baseMid := (base >>> 16 &&& 0xFFFF).setWidth 16
  baseHigh := (base >>> 32 &&& 0xFFFFFFFF).setWidth 32
  reserved := 0

/-- The descriptor of the TSS, with an access byte. -/
def tssEntry (base : BitVec 64) (access : BitVec 8) : GdtEntry where
  limitLow := 103
  baseLow := (base &&& 0xFFFF).setWidth 16
  baseMid := (base >>> 16 &&& 0xFF).setWidth 8
  access := access
  granularity := 0
  baseHigh := (base >>> 24 &&& 0xFF).setWidth 8

/-- The eight words of the GDT. -/
def gdtWord (tss : BitVec 64) : Nat → BitVec 64
  | 0 => 0x000000000000FFFF
  | 1 => 0x00209A000000FFFF
  | 2 => 0x000092000000FFFF
  | 3 => 0x000000000000FFFF
  | 4 => 0x0000F2000000FFFF
  | 5 => 0x0020FA000000FFFF
  | 6 => (tssEntry tss 0x8B).packed
  | _ => tss >>> 32 &&& 0xFFFFFFFF

namespace Statics

/-- The three tables are somewhere, apart from each other, and the stubs are at addresses. -/
structure Apart (s : Statics) : Prop where
  gdt : s.gdt.toNat + 64 ≤ 2 ^ 64
  idt : s.idt.toNat + 4096 ≤ 2 ^ 64
  tss : s.tss.toNat + 104 ≤ 2 ^ 64
  gdt_idt : s.gdt.toNat + 64 ≤ s.idt.toNat ∨ s.idt.toNat + 4096 ≤ s.gdt.toNat
  gdt_tss : s.gdt.toNat + 64 ≤ s.tss.toNat ∨ s.tss.toNat + 104 ≤ s.gdt.toNat
  idt_tss : s.idt.toNat + 4096 ≤ s.tss.toNat ∨ s.tss.toNat + 104 ≤ s.idt.toNat
  stub : ∀ v ∈ gates, isCanonical (s.stub v)

/-- The bytes of the three tables. -/
def InTables (s : Statics) (x : Nat) : Prop :=
  s.gdt.toNat ≤ x ∧ x < s.gdt.toNat + 64 ∨ s.idt.toNat ≤ x ∧ x < s.idt.toNat + 4096 ∨
    s.tss.toNat ≤ x ∧ x < s.tss.toNat + 104

/-- The tables are in place, with `rsp0` for the kernel stack. -/
structure Installed (s : Statics) (rsp0 : BitVec 64) (p : Processor) : Prop where
  gdtr : p.gdtr = ⟨63, s.gdt⟩
  idtr : p.idtr = ⟨4095, s.idt⟩
  tr : p.tr = ⟨0x30, s.tss, 103⟩
  gdt : ∀ i < 8, loadWord p.cpu.mem (s.gdtAt i) = gdtWord s.tss i
  low : ∀ v < 256, loadWord p.cpu.mem (s.idtAt v) =
    if v ∈ gates then (handlerEntry (s.stub v)).packedLow else 0
  high : ∀ v < 256, loadWord p.cpu.mem (s.idtAt v + 8) =
    if v ∈ gates then (handlerEntry (s.stub v)).packedHigh else 0
  stack : loadWord p.cpu.mem (s.tss + 4) = rsp0
  bitmap : p.cpu.mem (s.tss.toNat + 102) = 104 ∧ p.cpu.mem (s.tss.toNat + 103) = 0

end Statics

/-- What can happen to the tables after boot: the scheduler changes the kernel stack, and everything
else, user programs included, leaves them and the system registers alone. -/
inductive TableRun (s : Statics) : BitVec 64 → Processor → BitVec 64 → Processor → Prop
  | refl (stack : BitVec 64) (p : Processor) : TableRun s stack p stack p
  | setStack {stack stack' : BitVec 64} {p p' : Processor} (h : TableRun s stack p stack' p')
      (new : BitVec 64) : TableRun s stack p new (s.tssSetKernelStack new p')
  | other {stack stack' : BitVec 64} {p p' : Processor} (h : TableRun s stack p stack' p') (c : Cpu)
      (hkept : ∀ x, s.InTables x → c.mem x = p'.cpu.mem x) : TableRun s stack p stack' { p' with cpu := c }

section Tables

variable {s : Statics} {rsp0 : BitVec 64} {p : Processor} {m : Memory} {i j v : Nat}

theorem toNat_add_small {a : BitVec 64} {n k : Nat} (ha : a.toNat + n ≤ 2 ^ 64) (hk : k < n) :
    (a + BitVec.ofNat 64 k).toNat = a.toNat + k := by
  rw [BitVec.toNat_add, BitVec.toNat_ofNat, Nat.mod_eq_of_lt (by omega), Nat.mod_eq_of_lt (by omega)]

theorem Statics.Apart.toNat_gdtAt (h : s.Apart) (hi : i < 8) : (s.gdtAt i).toNat = s.gdt.toNat + 8 * i :=
  toNat_add_small h.gdt (by omega)

theorem Statics.Apart.toNat_idtAt (h : s.Apart) (hv : v < 256) :
    (s.idtAt v).toNat = s.idt.toNat + 16 * v :=
  toNat_add_small h.idt (by omega)

theorem Statics.Apart.toNat_idtAt_high (h : s.Apart) (hv : v < 256) :
    (s.idtAt v + 8).toNat = s.idt.toNat + 16 * v + 8 := by
  have hidt := h.idt
  have hlow := h.toNat_idtAt hv
  have hsum := @toNat_add_small (s.idtAt v) 16 8 (by omega) (by decide)
  rw [hlow] at hsum
  exact hsum

theorem Statics.Apart.toNat_rsp0 (h : s.Apart) : (s.tss + 4).toNat = s.tss.toNat + 4 :=
  toNat_add_small h.tss (by decide)

theorem Statics.Apart.toNat_iobp (h : s.Apart) : (s.tss + 102).toNat = s.tss.toNat + 102 :=
  toNat_add_small h.tss (by decide)

/-- One entry of the GDT is written. -/
theorem Statics.Apart.gdt_store (h : s.Apart) (hi : i < 8) (hj : j < 8) (w : BitVec 64) :
    loadWord (storeWord m (s.gdtAt i) w) (s.gdtAt j) = if j = i then w else loadWord m (s.gdtAt j) := by
  by_cases hji : j = i
  · rw [if_pos hji, hji, loadWord_storeWord]
  · rw [if_neg hji, loadWord_storeWord_of_apart]
    rw [h.toNat_gdtAt hi, h.toNat_gdtAt hj]
    omega

theorem Statics.Apart.gdt_store_outside (h : s.Apart) (hi : i < 8) (w : BitVec 64) {x : Nat}
    (hx : x < s.gdt.toNat ∨ s.gdt.toNat + 64 ≤ x) : storeWord m (s.gdtAt i) w x = m x := by
  refine storeWord_of_outside ?_
  rw [h.toNat_gdtAt hi]
  omega

/-- `gdt_init` -/
theorem Statics.Apart.gdtInit_words (h : s.Apart) (hi : i < 6) :
    loadWord (s.gdtInit p).cpu.mem (s.gdtAt i) = gdtWord s.tss i := by
  have hwords : ∀ w6 w7 : BitVec 64, ∀ a : Memory, loadWord (storeWord (storeWord a (s.gdtAt 6) w6)
      (s.gdtAt 7) w7) (s.gdtAt i) = loadWord a (s.gdtAt i) := fun w6 w7 a => by
    rw [h.gdt_store (by decide) (by omega), if_neg (by omega), h.gdt_store (by decide) (by omega),
      if_neg (by omega)]
  refine (hwords _ _ _).trans ?_
  unfold Statics.setEntry
  rw [h.gdt_store (by decide) (by omega), h.gdt_store (by decide) (by omega),
    h.gdt_store (by decide) (by omega), h.gdt_store (by decide) (by omega),
    h.gdt_store (by decide) (by omega), h.gdt_store (by decide) (by omega)]
  interval_cases i <;> rfl

theorem Statics.Apart.gdtInit_outside (h : s.Apart) {x : Nat}
    (hx : x < s.gdt.toNat ∨ s.gdt.toNat + 64 ≤ x) : (s.gdtInit p).cpu.mem x = p.cpu.mem x := by
  refine (h.gdt_store_outside (by decide) _ hx).trans ((h.gdt_store_outside (by decide) _ hx).trans ?_)
  unfold Statics.setEntry
  rw [h.gdt_store_outside (by decide) _ hx, h.gdt_store_outside (by decide) _ hx,
    h.gdt_store_outside (by decide) _ hx, h.gdt_store_outside (by decide) _ hx,
    h.gdt_store_outside (by decide) _ hx, h.gdt_store_outside (by decide) _ hx]

end Tables

section Packing

theorem masked_eq (b : BitVec 64) (k : Nat) {n : Nat} {mask : BitVec 64}
    (hmask : mask.setWidth n = BitVec.allOnes n) :
    (b >>> k &&& mask).setWidth n = b.extractLsb' k n := by
  rw [BitVec.setWidth_and, hmask, BitVec.and_allOnes, BitVec.setWidth_ushiftRight_eq_extractLsb]

theorem masked_zero_eq (b : BitVec 64) {n : Nat} {mask : BitVec 64}
    (hmask : mask.setWidth n = BitVec.allOnes n) : (b &&& mask).setWidth n = b.extractLsb' 0 n :=
  masked_eq b 0 hmask

/-- **A descriptor unpacks** to what was packed. -/
theorem segmentDescriptor_packed (e : GdtEntry) : segmentDescriptor e.packed =
    { base := e.baseHigh ++ (e.baseMid ++ e.baseLow : BitVec 24)
      limit := e.granularity.extractLsb' 0 4 ++ e.limitLow
      type := e.access.extractLsb' 0 4
      notSystem := e.access.getLsbD 4
      dpl := e.access.extractLsb' 5 2
      present := e.access.getLsbD 7
      long := e.granularity.getLsbD 5
      big := e.granularity.getLsbD 6 } := by
  have hbits : ∀ i, e.packed.getLsbD i = if i < 16 then e.limitLow.getLsbD i
      else if i < 32 then e.baseLow.getLsbD (i - 16) else if i < 40 then e.baseMid.getLsbD (i - 32)
      else if i < 48 then e.access.getLsbD (i - 40) else if i < 56 then e.granularity.getLsbD (i - 48)
      else e.baseHigh.getLsbD (i - 56) := by
    intro i
    simp only [GdtEntry.packed, BitVec.getLsbD_append]
    grind
  rw [segmentDescriptor, SegmentDescriptor.mk.injEq]
  refine ⟨?_, ?_, ?_, hbits 44, ?_, hbits 47, hbits 53, hbits 54⟩
  · ext i hi
    simp only [BitVec.getElem_append, BitVec.getElem_extractLsb', hbits]
    grind
  · ext i hi
    simp only [BitVec.getElem_append, BitVec.getElem_extractLsb', hbits]
    grind
  · ext i hi
    simp only [BitVec.getElem_extractLsb', hbits]
    grind
  · ext i hi
    simp only [BitVec.getElem_extractLsb', hbits]
    grind

/-- **So does a gate.** -/
theorem gate_packed (e : IdtEntry) : gate e.packedLow e.packedHigh =
    { offset := e.baseHigh ++ e.baseMid ++ e.baseLow
      selector := e.selector
      ist := e.ist.extractLsb' 0 3
      type := e.flags.extractLsb' 0 5
      dpl := e.flags.extractLsb' 5 2
      present := e.flags.getLsbD 7 } := by
  have hbits : ∀ i, e.packedLow.getLsbD i = if i < 16 then e.baseLow.getLsbD i
      else if i < 32 then e.selector.getLsbD (i - 16) else if i < 40 then e.ist.getLsbD (i - 32)
      else if i < 48 then e.flags.getLsbD (i - 40) else e.baseMid.getLsbD (i - 48) := by
    intro i
    simp only [IdtEntry.packedLow, BitVec.getLsbD_append]
    grind
  have hhigh : e.packedHigh.extractLsb' 0 32 = e.baseHigh := by
    ext i hi
    simp only [IdtEntry.packedHigh, BitVec.getElem_extractLsb', BitVec.getLsbD_append]
    grind
  rw [gate, hhigh, Gate.mk.injEq]
  refine ⟨?_, ?_, ?_, ?_, ?_, hbits 47⟩
  · ext i hi
    simp only [BitVec.getElem_append, BitVec.getElem_extractLsb', hbits]
    grind
  · ext i hi
    simp only [BitVec.getElem_extractLsb', hbits]
    grind
  · ext i hi
    simp only [BitVec.getElem_extractLsb', hbits]
    grind
  · ext i hi
    simp only [BitVec.getElem_extractLsb', hbits]
    grind
  · ext i hi
    simp only [BitVec.getElem_extractLsb', hbits]
    grind

theorem tssEntry_busy (base : BitVec 64) :
    (tssEntry base 0x89).packed ||| 0x20000000000 = (tssEntry base 0x8B).packed := by
  have hbit : (0x20000000000 : BitVec 64) = 0#8 ++ 0#8 ++ 2#8 ++ 0#8 ++ 0#16 ++ 0#16 := rfl
  have haccess : (0x89 : BitVec 8) ||| 2#8 = 0x8B := by decide
  unfold GdtEntry.packed
  rw [hbit, BitVec.or_append, BitVec.or_append, BitVec.or_append, BitVec.or_append, BitVec.or_append,
    BitVec.or_zero, BitVec.or_zero, BitVec.or_zero, BitVec.or_zero, BitVec.or_zero]
  simp only [tssEntry, haccess]

theorem gate_handlerEntry (base : BitVec 64) :
    gate (handlerEntry base).packedLow (handlerEntry base).packedHigh =
      { offset := base, selector := 0x08, ist := 0, type := 0xE, dpl := 0, present := true } := by
  have hoffset : (handlerEntry base).baseHigh ++ (handlerEntry base).baseMid ++ (handlerEntry base).baseLow
      = base := by
    simp only [handlerEntry]
    rw [masked_eq base 32 (by decide), masked_eq base 16 (by decide), masked_zero_eq base (by decide),
      BitVec.extractLsb'_append_extractLsb'_eq_extractLsb' (by decide),
      BitVec.extractLsb'_append_extractLsb'_eq_extractLsb' (by decide)]
    exact BitVec.extractLsb'_eq_self
  rw [gate_packed, hoffset, Gate.mk.injEq]
  exact ⟨rfl, rfl, (by decide : (0 : BitVec 8).extractLsb' 0 3 = 0),
    (by decide : (0x8E : BitVec 8).extractLsb' 0 5 = 0xE),
    (by decide : (0x8E : BitVec 8).extractLsb' 5 2 = 0), (by decide : (0x8E : BitVec 8).getLsbD 7 = true)⟩

theorem segmentDescriptor_tssEntry (base : BitVec 64) (access : BitVec 8) :
    segmentDescriptor (tssEntry base access).packed =
      { base := base.extractLsb' 0 32
        limit := 103
        type := access.extractLsb' 0 4
        notSystem := access.getLsbD 4
        dpl := access.extractLsb' 5 2
        present := access.getLsbD 7
        long := false
        big := false } := by
  have hbase : (tssEntry base access).baseHigh ++
      ((tssEntry base access).baseMid ++ (tssEntry base access).baseLow : BitVec 24) =
      base.extractLsb' 0 32 := by
    simp only [tssEntry]
    rw [masked_eq base 24 (by decide), masked_eq base 16 (by decide), masked_zero_eq base (by decide),
      BitVec.extractLsb'_append_extractLsb'_eq_extractLsb' (by decide),
      BitVec.extractLsb'_append_extractLsb'_eq_extractLsb' (by decide)]
  rw [segmentDescriptor_packed, hbase, SegmentDescriptor.mk.injEq]
  exact ⟨rfl, (by decide : (0 : BitVec 8).extractLsb' 0 4 ++ (103 : BitVec 16) = 103), rfl, rfl, rfl, rfl,
    (by decide : (0 : BitVec 8).getLsbD 5 = false),
    (by decide : (0 : BitVec 8).getLsbD 6 = false)⟩

/-- The base of the TSS, put together from both entries. -/
theorem tss_base (base : BitVec 64) :
    (base >>> 32 &&& 0xFFFFFFFF).extractLsb' 0 32 ++ base.extractLsb' 0 32 = base := by
  have hhigh : (base >>> 32 &&& 0xFFFFFFFF).extractLsb' 0 32 = base.extractLsb' 32 32 := by
    rw [← masked_eq base 32 (by decide : (0xFFFFFFFF : BitVec 64).setWidth 32 = _),
      BitVec.setWidth_eq_extractLsb' (by decide)]
  rw [hhigh, BitVec.extractLsb'_append_extractLsb'_eq_extractLsb' (by decide)]
  exact BitVec.extractLsb'_eq_self

end Packing

/-! ## 4. From boot on -/

section Boot

variable {s : Statics} {p : Processor} {m : Memory} {i : Nat}

/-- Clearing the TSS. -/
theorem Statics.Apart.clear_outside (h : s.Apart) {x : Nat}
    (hx : x < s.tss.toNat ∨ s.tss.toNat + 104 ≤ x) :
    loop (fun i m => Function.update m ((s.tss + BitVec.ofNat 64 i).toNat) 0) 104 m x = m x := by
  refine @loop_invariant Memory _ (fun _ t => t x = m x) 104 m rfl fun i t hi ht => ?_
  rw [Function.update_of_ne, ht]
  rw [toNat_add_small h.tss hi]
  omega

/-- A TSS descriptor is installed, over a GDT of eight entries. -/
theorem Statics.Apart.gdtSetTssEntry_words (h : s.Apart) (hwords : ∀ i < 6,
    loadWord p.cpu.mem (s.gdtAt i) = gdtWord s.tss i) :
    loadWord (s.gdtSetTssEntry s.tss (104 - 1) p).cpu.mem (s.gdtAt 6) = (tssEntry s.tss 0x89).packed ∧
    ∀ i < 8, i ≠ 6 → loadWord (s.gdtSetTssEntry s.tss (104 - 1) p).cpu.mem (s.gdtAt i) =
      gdtWord s.tss i := by
  have hmem : (s.gdtSetTssEntry s.tss (104 - 1) p).cpu.mem =
      storeWord (storeWord p.cpu.mem (s.gdtAt 6) (tssEntry s.tss 0x89).packed) (s.gdtAt 7)
        (s.tss >>> 32 &&& 0xFFFFFFFF) := rfl
  rw [hmem]
  refine ⟨?_, fun i hi hne => ?_⟩
  · rw [h.gdt_store (by decide) (by decide), if_neg (by decide), loadWord_storeWord]
  · rw [h.gdt_store (by decide) hi]
    by_cases h7 : i = 7
    · rw [if_pos h7, h7]
      rfl
    · rw [if_neg h7, h.gdt_store (by decide) hi, if_neg hne, hwords i (by omega)]

/-- LTR, with the descriptor of the TSS in entries 6 and 7. -/
theorem ltr_spec (hgdtr : p.gdtr = ⟨63, s.gdt⟩)
    (h6 : loadWord p.cpu.mem (s.gdtAt 6) = (tssEntry s.tss 0x89).packed)
    (h7 : loadWord p.cpu.mem (s.gdtAt 7) = gdtWord s.tss 7) :
    p.ltr 0x30 = some { p.setMem (storeWord p.cpu.mem (s.gdtAt 6) (gdtWord s.tss 6)) with
      tr := ⟨0x30, s.tss, 103⟩ } := by
  have haddr : p.gdtr.base + ((0x30 : BitVec 16) &&& 0xFFF8).setWidth 64 = s.gdtAt 6 := by rw [hgdtr]; rfl
  have hnext : s.gdtAt 6 + 8 = s.gdtAt 7 := by
    rw [Statics.gdtAt, Statics.gdtAt, BitVec.add_assoc]
    rfl
  have hin : ¬ ((0x30 : BitVec 16) &&& 0xFFFC = 0 ∨ (0x30 : BitVec 16) &&& 4 ≠ 0 ∨
      p.gdtr.limit.toNat < ((0x30 : BitVec 16) ||| 7).toNat) := by
    rw [hgdtr]
    exact (by decide : ¬ ((0x30 : BitVec 16) &&& 0xFFFC = 0 ∨ (0x30 : BitVec 16) &&& 4 ≠ 0 ∨
      (63 : BitVec 16).toNat < ((0x30 : BitVec 16) ||| 7).toNat))
  have hdescriptor : p.descriptorOf 0x30 = some (segmentDescriptor (tssEntry s.tss 0x89).packed) := by
    rw [Processor.descriptorOf, if_neg hin, haddr, h6]
  unfold Processor.ltr
  rw [hdescriptor, segmentDescriptor_tssEntry]
  dsimp only
  rw [if_neg (by decide), haddr, hnext, h6, h7, tssEntry_busy]
  have hbase : (gdtWord s.tss 7).extractLsb' 0 32 ++ s.tss.extractLsb' 0 32 = s.tss := tss_base s.tss
  rw [hbase]
  rfl

/-- **`tss_init`** loads the task register. -/
theorem Statics.Apart.tssInit_spec (h : s.Apart) (hwords : ∀ i < 6,
    loadWord p.cpu.mem (s.gdtAt i) = gdtWord s.tss i) :
    ∃ p', s.tssInit p = some p' ∧ p'.gdtr = ⟨63, s.gdt⟩ ∧ p'.tr = ⟨0x30, s.tss, 103⟩ ∧
      (∀ i < 8, loadWord p'.cpu.mem (s.gdtAt i) = gdtWord s.tss i) ∧
      loadWord p'.cpu.mem (s.tss + 4) = 0x90000 ∧
      (p'.cpu.mem (s.tss.toNat + 102) = 104 ∧ p'.cpu.mem (s.tss.toNat + 103) = 0) ∧
      ∀ x, ¬ (s.gdt.toNat ≤ x ∧ x < s.gdt.toNat + 64) → ¬ (s.tss.toNat ≤ x ∧ x < s.tss.toNat + 104) →
        p'.cpu.mem x = p.cpu.mem x := by
  have hcleared := fun x => @Statics.Apart.clear_outside s p.cpu.mem h x
  unfold Statics.tssInit
  generalize loop (fun i m => Function.update m ((s.tss + BitVec.ofNat 64 i).toNat) 0) 104 p.cpu.mem = m0
    at hcleared ⊢
  have hgdt := h.gdt_tss
  have htss := h.tss
  have hrsp0 := h.toNat_rsp0
  have hiobp := h.toNat_iobp
  dsimp only
  -- what is in the TSS before its descriptor is installed
  generalize hm : storeHalf (storeWord m0 (s.tss + 4) 0x90000) (s.tss + 102) 104 = m
  have hout : ∀ x, x < s.tss.toNat ∨ s.tss.toNat + 104 ≤ x → m x = p.cpu.mem x := fun x hx => by
    rw [← hm, storeHalf_of_ne (by omega) (by omega), storeWord_of_outside (by omega), hcleared x hx]
  have hstack : loadWord m (s.tss + 4) = 0x90000 := by
    rw [← hm, loadWord_storeHalf_of_apart (by omega), loadWord_storeWord]
  have hlow : m (s.tss.toNat + 102) = 104 := by
    rw [← hm, storeHalf, if_pos hiobp.symm]
    rfl
  have hhigh : m (s.tss.toNat + 103) = 0 := by
    rw [← hm, storeHalf, if_neg (by omega), if_pos (by omega)]
    rfl
  obtain ⟨h6, hothers⟩ := @Statics.Apart.gdtSetTssEntry_words s (p.setMem m) h fun i hi => by
    rw [← hwords i hi]
    refine loadWord_congr fun k hk => hout _ ?_
    rw [h.toNat_gdtAt (by omega)]
    omega
  have hkept : ∀ w x, x < s.gdt.toNat ∨ s.gdt.toNat + 64 ≤ x →
      storeWord (s.gdtSetTssEntry s.tss (104 - 1) (p.setMem m)).cpu.mem (s.gdtAt 6) w x = m x :=
    fun w x hx => (h.gdt_store_outside (by decide) w hx).trans
      ((h.gdt_store_outside (by decide) _ hx).trans (h.gdt_store_outside (by decide) _ hx))
  refine ⟨_, ltr_spec rfl h6 (hothers 7 (by decide) (by decide)), rfl, rfl, fun i hi => ?_, ?_,
    ⟨?_, ?_⟩, fun x hx hx' => ?_⟩
  · refine (h.gdt_store (by decide) hi _).trans ?_
    by_cases hi6 : i = 6
    · rw [if_pos hi6, hi6]
    · rw [if_neg hi6, hothers i hi hi6]
  · rw [← hstack]
    refine loadWord_congr fun k hk => hkept _ _ ?_
    omega
  · rw [← hlow]
    exact hkept _ _ (by omega)
  · rw [← hhigh]
    exact hkept _ _ (by omega)
  · rw [← hout x (by omega)]
    exact hkept _ _ (by omega)

/-- One gate is written. -/
theorem Statics.Apart.idtSetEntry_words (h : s.Apart) {n v : Nat} (hn : n < 256) (hv : v < 256)
    (base : BitVec 64) :
    loadWord (s.idtSetEntry m n base 0x08 0x8E) (s.idtAt v) =
      (if v = n then (handlerEntry base).packedLow else loadWord m (s.idtAt v)) ∧
    loadWord (s.idtSetEntry m n base 0x08 0x8E) (s.idtAt v + 8) =
      (if v = n then (handlerEntry base).packedHigh else loadWord m (s.idtAt v + 8)) := by
  have hmem : s.idtSetEntry m n base 0x08 0x8E = storeWord (storeWord m (s.idtAt n)
      (handlerEntry base).packedLow) (s.idtAt n + 8) (handlerEntry base).packedHigh := rfl
  have hidt := h.idt
  have hlown := h.toNat_idtAt hn
  have hhighn := h.toNat_idtAt_high hn
  have hlowv := h.toNat_idtAt hv
  have hhighv := h.toNat_idtAt_high hv
  rw [hmem]
  by_cases hvn : v = n
  · subst hvn
    rw [if_pos rfl, if_pos rfl, loadWord_storeWord, loadWord_storeWord_of_apart (by omega),
      loadWord_storeWord]
    exact ⟨rfl, rfl⟩
  · rw [if_neg hvn, if_neg hvn, loadWord_storeWord_of_apart (by omega),
      loadWord_storeWord_of_apart (by omega), loadWord_storeWord_of_apart (by omega),
      loadWord_storeWord_of_apart (by omega)]
    exact ⟨rfl, rfl⟩

theorem Statics.Apart.idtSetEntry_outside (h : s.Apart) {n x : Nat} (hn : n < 256) (base : BitVec 64)
    (hx : x < s.idt.toNat ∨ s.idt.toNat + 4096 ≤ x) : s.idtSetEntry m n base 0x08 0x8E x = m x := by
  have hlow := h.toNat_idtAt hn
  have hhigh := h.toNat_idtAt_high hn
  exact (storeWord_of_outside (by omega)).trans (storeWord_of_outside (by omega))

/-- The gates of a list of vectors, one after the other. -/
theorem Statics.Apart.setGates (h : s.Apart) : ∀ (vs : List Nat) (m : Memory), (∀ v ∈ vs, v < 256) →
    (∀ v < 256,
      loadWord (vs.foldl (fun m v => s.idtSetEntry m v (s.stub v) 0x08 0x8E) m) (s.idtAt v) =
        (if v ∈ vs then (handlerEntry (s.stub v)).packedLow else loadWord m (s.idtAt v)) ∧
      loadWord (vs.foldl (fun m v => s.idtSetEntry m v (s.stub v) 0x08 0x8E) m) (s.idtAt v + 8) =
        (if v ∈ vs then (handlerEntry (s.stub v)).packedHigh else loadWord m (s.idtAt v + 8))) ∧
    ∀ x, x < s.idt.toNat ∨ s.idt.toNat + 4096 ≤ x →
      vs.foldl (fun m v => s.idtSetEntry m v (s.stub v) 0x08 0x8E) m x = m x := by
  intro vs
  induction vs with
  | nil => exact fun m _ => ⟨fun v _ => ⟨rfl, rfl⟩, fun x _ => rfl⟩
  | cons n vs ih =>
    intro m hvs
    have hn : n < 256 := hvs n List.mem_cons_self
    obtain ⟨hwords, hout⟩ := ih (s.idtSetEntry m n (s.stub n) 0x08 0x8E)
      fun v hv => hvs v (List.mem_cons_of_mem n hv)
    refine ⟨fun v hv => ?_, fun x hx => (hout x hx).trans (h.idtSetEntry_outside hn _ hx)⟩
    obtain ⟨hlow, hhigh⟩ := hwords v hv
    obtain ⟨hone, hone'⟩ := @Statics.Apart.idtSetEntry_words s m h n v hn hv (s.stub n)
    rw [List.foldl_cons, hlow, hhigh, hone, hone']
    by_cases hin : v ∈ vs
    · rw [if_pos hin, if_pos hin, if_pos (List.mem_cons_of_mem n hin), if_pos (List.mem_cons_of_mem n hin)]
      exact ⟨rfl, rfl⟩
    · rw [if_neg hin, if_neg hin]
      by_cases hvn : v = n
      · subst hvn
        rw [if_pos rfl, if_pos rfl, if_pos List.mem_cons_self, if_pos List.mem_cons_self]
        exact ⟨rfl, rfl⟩
      · have hno : v ∉ n :: vs := fun hmem => (List.mem_cons.mp hmem).elim hvn hin
        rw [if_neg hvn, if_neg hvn, if_neg hno, if_neg hno]
        exact ⟨rfl, rfl⟩

/-- **Boot** puts the tables in place, if the IDT, a static array, was zero. -/
theorem Statics.Apart.boot_installed (h : s.Apart)
    (hzero : ∀ k < 4096, p.cpu.mem (s.idt.toNat + k) = 0) :
    ∃ p', s.boot p = some p' ∧ s.Installed 0x90000 p' := by
  obtain ⟨q, hq, hgdtr, htr, hgdt, hstack, hbitmap, hkept⟩ :=
    @Statics.Apart.tssInit_spec s (s.gdtInit p) h fun i hi => h.gdtInit_words hi
  have hidt := h.idt
  have hgdt_idt := h.gdt_idt
  have hidt_tss := h.idt_tss
  have hzero' : ∀ k < 4096, q.cpu.mem (s.idt.toNat + k) = 0 := fun k hk => by
    rw [hkept _ (by omega) (by omega), h.gdtInit_outside (by omega), hzero k hk]
  obtain ⟨hgates, hout⟩ := h.setGates gates q.cpu.mem (by decide)
  have hword : ∀ a : BitVec 64, s.idt.toNat ≤ a.toNat → a.toNat + 8 ≤ s.idt.toNat + 4096 →
      loadWord q.cpu.mem a = 0 := by
    intro a hfrom hto
    have hbytes : load64 q.cpu.mem a.toNat = load64 (fun _ => 0) 0 := by
      refine load64_eq_of_bytes fun k hk => ?_
      rw [← hzero' (a.toNat + k - s.idt.toNat) (by omega), Nat.add_sub_cancel' (by omega)]
    rw [loadWord, hbytes]
    decide +kernel
  have hout' : ∀ a : BitVec 64, a.toNat + 8 ≤ s.idt.toNat ∨ s.idt.toNat + 4096 ≤ a.toNat →
      loadWord (s.idtInit q).cpu.mem a = loadWord q.cpu.mem a := fun a ha =>
    loadWord_congr fun k hk => hout _ (by omega)
  refine ⟨s.idtInit q, by rw [Statics.boot, hq]; rfl, hgdtr, rfl, htr, fun i hi => ?_, fun v hv => ?_,
    fun v hv => ?_, ?_, ?_, ?_⟩
  · rw [hout' _ (by rw [h.toNat_gdtAt hi]; omega), hgdt i hi]
  · refine (hgates v hv).1.trans ?_
    rw [hword _ (by rw [h.toNat_idtAt hv]; omega) (by rw [h.toNat_idtAt hv]; omega)]
  · refine (hgates v hv).2.trans ?_
    rw [hword _ (by rw [h.toNat_idtAt_high hv]; omega) (by rw [h.toNat_idtAt_high hv]; omega)]
  · have htss := h.tss
    rw [hout' _ (by rw [h.toNat_rsp0]; omega), hstack]
  · rw [← hbitmap.1]
    exact hout _ (by omega)
  · rw [← hbitmap.2]
    exact hout _ (by omega)

/-- What holds of the tables holds in every run. -/
theorem TableRun.installed (h : s.Apart) {stack stack' : BitVec 64} {q : Processor}
    (hrun : TableRun s stack p stack' q) (hp : s.Installed stack p) : s.Installed stack' q := by
  have hgdt := h.gdt
  have hidt := h.idt
  have htss := h.tss
  have hgdt_tss := h.gdt_tss
  have hidt_tss := h.idt_tss
  have hrsp0 := h.toNat_rsp0
  induction hrun with
  | refl => exact hp
  | setStack _ new ih =>
    have ht := ih hp
    have hkept : ∀ (m : Memory) (a : BitVec 64), a.toNat + 8 ≤ s.tss.toNat ∨ s.tss.toNat + 104 ≤ a.toNat →
        loadWord (storeWord m (s.tss + 4) new) a = loadWord m a := fun m a ha =>
      loadWord_storeWord_of_apart (by omega)
    refine ⟨ht.gdtr, ht.idtr, ht.tr, fun i hi => ?_, fun v hv => ?_, fun v hv => ?_,
      loadWord_storeWord _ _ _, ?_, ?_⟩
    · exact (hkept _ _ (by rw [h.toNat_gdtAt hi]; omega)).trans (ht.gdt i hi)
    · exact (hkept _ _ (by rw [h.toNat_idtAt hv]; omega)).trans (ht.low v hv)
    · exact (hkept _ _ (by rw [h.toNat_idtAt_high hv]; omega)).trans (ht.high v hv)
    · exact (storeWord_of_outside (by omega)).trans ht.bitmap.1
    · exact (storeWord_of_outside (by omega)).trans ht.bitmap.2
  | other _ c hkept ih =>
    have ht := ih hp
    refine ⟨ht.gdtr, ht.idtr, ht.tr, fun i hi => ?_, fun v hv => ?_, fun v hv => ?_, ?_, ?_, ?_⟩
    · rw [← ht.gdt i hi]
      exact loadWord_congr fun k hk => hkept _ (Or.inl (by rw [h.toNat_gdtAt hi]; omega))
    · rw [← ht.low v hv]
      exact loadWord_congr fun k hk => hkept _ (Or.inr (Or.inl (by rw [h.toNat_idtAt hv]; omega)))
    · rw [← ht.high v hv]
      exact loadWord_congr fun k hk => hkept _ (Or.inr (Or.inl (by rw [h.toNat_idtAt_high hv]; omega)))
    · rw [← ht.stack]
      exact loadWord_congr fun k hk => hkept _ (Or.inr (Or.inr (by omega)))
    · rw [← ht.bitmap.1]
      exact hkept _ (Or.inr (Or.inr (by omega)))
    · rw [← ht.bitmap.2]
      exact hkept _ (Or.inr (Or.inr (by omega)))

end Boot

end AcornOS
