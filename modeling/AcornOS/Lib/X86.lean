/-
# Straight-line x86-64 code

The part of the instruction set that hand-written entry and context-switch code is made of: moves
between registers, memory and segment registers, the stack, `lea`, `sub`, `and`, `test`, loading CR3,
and the three ways out of such code, `ret`, `iretq` and a jump.

* A `Cpu` is the registers and memory.  `exec` is one instruction and `run` a sequence; branches are
  taken by the code that strings sequences together, on `Cpu.zf`.
* RIP is not advanced from one instruction to the next.  It is only known where code says where to go
  on.
* Of the status flags only ZF is set; nothing here reads another.

Memory is bytes (`Lib/Memory.lean`); `loadWord` and `storeWord` are the 64-bit accesses.  A proof
about a sequence runs it symbolically by `simp` with `run_cons` and `exec`, and settles what was
read with `loadWord_storeWord` and `loadWord_storeWord_of_apart`, whose side conditions are linear
arithmetic.
-/
import AcornOS.Lib.Memory

namespace AcornOS.Lib

/-! ## 1. Words in memory -/

/-- The quadword at an address. -/
def loadWord (m : Memory) (a : BitVec 64) : BitVec 64 := BitVec.ofNat 64 (load64 m a.toNat)

/-- Writing a quadword. -/
def storeWord (m : Memory) (a v : BitVec 64) : Memory := store64 m a.toNat v.toNat

/-- Writing a word of 16 bits. -/
def storeHalf (m : Memory) (a : BitVec 64) (v : BitVec 16) : Memory := fun x =>
  if x = a.toNat then v.setWidth 8 else if x = a.toNat + 1 then (v >>> 8).setWidth 8 else m x

section Words

variable {m m' : Memory} {a b v : BitVec 64}

@[simp] theorem loadWord_storeWord (m : Memory) (a v : BitVec 64) :
    loadWord (storeWord m a v) a = v := by
  rw [loadWord, storeWord, load64_store64_self v.isLt, BitVec.ofNat_toNat, BitVec.setWidth_eq]

theorem loadWord_storeWord_of_apart (h : b.toNat + 8 ≤ a.toNat ∨ a.toNat + 8 ≤ b.toNat) :
    loadWord (storeWord m a v) b = loadWord m b := by
  rw [loadWord, storeWord, load64_store64_of_apart h, loadWord]

theorem loadWord_congr (h : ∀ k < 8, m' (a.toNat + k) = m (a.toNat + k)) :
    loadWord m' a = loadWord m a := by
  rw [loadWord, load64_congr h, loadWord]

theorem storeHalf_of_ne {x : Nat} {w : BitVec 16} (h : x ≠ a.toNat) (h' : x ≠ a.toNat + 1) :
    storeHalf m a w x = m x := by
  rw [storeHalf, if_neg h, if_neg h']

theorem loadWord_storeHalf_of_apart {w : BitVec 16}
    (h : b.toNat + 8 ≤ a.toNat ∨ a.toNat + 2 ≤ b.toNat) :
    loadWord (storeHalf m a w) b = loadWord m b :=
  loadWord_congr fun k hk => storeHalf_of_ne (by omega) (by omega)

/-- The two lowest bits of a quadword are those of the word that was written over its low half. -/
theorem loadWord_storeHalf_and_three (m : Memory) (a : BitVec 64) (w : BitVec 16) :
    loadWord (storeHalf m a w) a &&& 3 = w.setWidth 64 &&& 3 := by
  have hlow : (storeHalf m a w a.toNat).toNat = w.toNat % 256 := by
    rw [storeHalf, if_pos rfl, BitVec.toNat_setWidth]
  have hw := w.isLt
  have hmask : (3 : Nat) = 2 ^ 2 - 1 := rfl
  apply BitVec.eq_of_toNat_eq
  rw [BitVec.toNat_and, BitVec.toNat_and, loadWord, BitVec.toNat_ofNat, BitVec.toNat_setWidth]
  change _ &&& 3 = _ &&& 3
  rw [hmask, Nat.and_two_pow_sub_one_eq_mod, Nat.and_two_pow_sub_one_eq_mod]
  unfold load64
  omega

theorem storeWord_of_outside {x : Nat} (h : x < a.toNat ∨ a.toNat + 8 ≤ x) :
    storeWord m a v x = m x :=
  store64_of_outside h

end Words

/-! ## 2. The processor -/

inductive Reg where
  | rax
  | rbx
  | rcx
  | rdx
  | rsi
  | rdi
  | rbp
  | rsp
  | r8
  | r9
  | r10
  | r11
  | r12
  | r13
  | r14
  | r15
deriving Repr, DecidableEq

inductive Seg where
  | cs
  | ds
  | es
  | fs
  | gs
  | ss
deriving Repr, DecidableEq

structure Cpu where
  reg : Reg → BitVec 64
  seg : Seg → BitVec 16
  rip : BitVec 64
  rflags : BitVec 64
  cr3 : BitVec 64
  mem : Memory

inductive Instr where
  | mov (dst src : Reg)
  | movImm (dst : Reg) (v : BitVec 64)
  | movLow (dst : Reg) (v : BitVec 16)
  | load (dst base : Reg) (disp : BitVec 64)
  | loadAbs (dst : Reg) (addr : BitVec 64)
  | store (base : Reg) (disp : BitVec 64) (src : Reg)
  | storeImm (base : Reg) (disp v : BitVec 64)
  | storeSeg (base : Reg) (disp : BitVec 64) (src : Seg)
  | lea (dst base : Reg) (disp : BitVec 64)
  | push (src : Reg)
  | pushImm (v : BitVec 64)
  | pushMem (base : Reg) (disp : BitVec 64)
  | pushf
  | pop (dst : Reg)
  | movToSeg (dst : Seg) (src : Reg)
  | movFromSeg (dst : Reg) (src : Seg)
  | sub (dst src : Reg)
  | andImm (dst : Reg) (v : BitVec 64)
  | test (a b : Reg)
  | movCr3 (src : Reg)
  | nop
  | ret
  | iretq
deriving Repr, DecidableEq

namespace Cpu

def setReg (c : Cpu) (r : Reg) (v : BitVec 64) : Cpu := { c with reg := Function.update c.reg r v }

def setSeg (c : Cpu) (r : Seg) (v : BitVec 16) : Cpu := { c with seg := Function.update c.seg r v }

/-- The zero flag, bit 6. -/
def zf (c : Cpu) : Bool := c.rflags.getLsbD 6

/-- The zero flag for a result. -/
def setZf (c : Cpu) (result : BitVec 64) : Cpu :=
  { c with rflags := if result = 0 then c.rflags ||| 0x40 else c.rflags &&& ~~~0x40 }

def pushWord (c : Cpu) (v : BitVec 64) : Cpu :=
  { c.setReg .rsp (c.reg .rsp - 8) with mem := storeWord c.mem (c.reg .rsp - 8) v }

/-- The quadword `disp` bytes from where a register points. -/
def peek (c : Cpu) (base : Reg) (disp : BitVec 64) : BitVec 64 := loadWord c.mem (c.reg base + disp)

end Cpu

/-- Replacing the low 16 bits. -/
def withLow (old : BitVec 64) (v : BitVec 16) : BitVec 64 :=
  old &&& ~~~0xFFFF ||| v.setWidth 64

/-- One instruction. -/
def exec (c : Cpu) : Instr → Cpu
  | .mov dst src => c.setReg dst (c.reg src)
  | .movImm dst v => c.setReg dst v
  | .movLow dst v => c.setReg dst (withLow (c.reg dst) v)
  | .load dst base disp => c.setReg dst (c.peek base disp)
  | .loadAbs dst addr => c.setReg dst (loadWord c.mem addr)
  | .store base disp src => { c with mem := storeWord c.mem (c.reg base + disp) (c.reg src) }
  | .storeImm base disp v => { c with mem := storeWord c.mem (c.reg base + disp) v }
  | .storeSeg base disp src => { c with mem := storeHalf c.mem (c.reg base + disp) (c.seg src) }
  | .lea dst base disp => c.setReg dst (c.reg base + disp)
  | .push src => c.pushWord (c.reg src)
  | .pushImm v => c.pushWord v
  | .pushMem base disp => c.pushWord (c.peek base disp)
  | .pushf => c.pushWord c.rflags
  | .pop dst => (c.setReg .rsp (c.reg .rsp + 8)).setReg dst (c.peek .rsp 0)
  | .movToSeg dst src => c.setSeg dst ((c.reg src).setWidth 16)
  | .movFromSeg dst src => c.setReg dst (withLow (c.reg dst) (c.seg src))
  | .sub dst src => (c.setReg dst (c.reg dst - c.reg src)).setZf (c.reg dst - c.reg src)
  | .andImm dst v => (c.setReg dst (c.reg dst &&& v)).setZf (c.reg dst &&& v)
  | .test a b => c.setZf (c.reg a &&& c.reg b)
  | .movCr3 src => { c with cr3 := c.reg src }
  | .nop => c
  | .ret => { c.setReg .rsp (c.reg .rsp + 8) with rip := c.peek .rsp 0 }
  | .iretq => { ((c.setReg .rsp (c.peek .rsp 24)).setSeg .cs ((c.peek .rsp 8).setWidth 16)).setSeg .ss
      ((c.peek .rsp 32).setWidth 16) with rip := c.peek .rsp 0, rflags := c.peek .rsp 16 }

/-- A sequence of instructions. -/
def run : List Instr → Cpu → Cpu
  | [], c => c
  | i :: is, c => run is (exec c i)

section Running

variable (c : Cpu)

@[simp] theorem run_nil : run [] c = c := rfl

@[simp] theorem run_cons (i : Instr) (is : List Instr) : run (i :: is) c = run is (exec c i) := rfl

theorem run_append (is js : List Instr) : run (is ++ js) c = run js (run is c) := by
  induction is generalizing c with
  | nil => rfl
  | cons i is ih => exact ih (exec c i)

theorem zf_setZf (v : BitVec 64) : (c.setZf v).zf = decide (v = 0) := by
  unfold Cpu.setZf Cpu.zf
  by_cases hv : v = 0
  · simp [hv]
  · rw [if_neg hv, decide_eq_false hv]
    simp

end Running

end AcornOS.Lib
