/-
# The context switch (`switch.asm`, `usermode.asm`)

`switch_context(old, new)` as the instructions it is made of, over the processor of
`Lib/X86.lean`.  RDI is the outgoing PCB and RSI the incoming one; the offsets are those of
`process_t`.

The code has two branches, on the page directory of the incoming process being NULL and on the
privilege level in its saved CS, so `switchContext` strings four straight sequences together:

* `saveState` fills `old->cpu`;
* `switchDirectory` loads CR3, unless `new->page_dir` is NULL;
* `ring0Restore` takes the registers from `new->cpu` and returns to its RIP, or
* `enterRing3` takes them and leaves the kernel through the frame on the process's stack.

PCBs and kernel stacks are in the upper half, which every page directory shares, so ONE memory is
enough and loading CR3 does not change what the kernel reads.

**What is proved.**  `saveState_saved`: the save leaves the caller's context in its PCB.
`switchContext_resume`: the ring 0 restore takes it out again.  Between the two lie any number of
steps, of which each leaves the PCB alone (`Elsewhere`), and `context_switch_transparent` puts the
three together.
-/
import AcornOS.Lib.X86
import AcornOS.Processes.Process

namespace AcornOS

open Lib

/-! ## 1. The code -/

/-- `switch_context`, the save. -/
def saveState : List Instr :=
  [.store .rdi 56 .rbx, .store .rdi 64 .rcx, .store .rdi 72 .rdx, .store .rdi 80 .rsi,
   .store .rdi 88 .rdi, .store .rdi 96 .rbp, .storeImm .rdi 48 0,
   .lea .rcx .rsp 8, .store .rdi 104 .rcx,
   .load .rcx .rsp 0, .store .rdi 112 .rcx,
   .pushf, .pop .rcx, .store .rdi 120 .rcx,
   .storeSeg .rdi 128 .cs, .storeSeg .rdi 136 .ds, .storeSeg .rdi 144 .ss,
   .store .rdi 152 .r12, .store .rdi 160 .r13, .store .rdi 168 .r14, .store .rdi 176 .r15]

/-- Whether the incoming process has a page directory. -/
def testDirectory : List Instr := [.load .rax .rsi 200, .test .rax .rax]

/-- Loading its physical address into CR3. -/
def loadDirectory : List Instr :=
  [.movImm .rcx 0xFFFF800000000000, .sub .rax .rcx, .movCr3 .rax, .movCr3 .rax]

/-- `switch_context`, the page directory. -/
def switchDirectory (c : Cpu) : Cpu :=
  let c := run testDirectory c
  if c.zf then run [.nop] c else run loadDirectory c

/-- The privilege level of the incoming process. -/
def testRing : List Instr := [.load .rax .rsi 128, .andImm .rax 3]

/-- `switch_context`, the ring 0 restore. -/
def ring0Restore : List Instr :=
  [.load .rsp .rsi 104, .load .rbx .rsi 56, .load .rcx .rsi 64, .load .rdx .rsi 72,
   .load .rbp .rsi 96, .load .r12 .rsi 152, .load .r13 .rsi 160, .load .r14 .rsi 168,
   .load .r15 .rsi 176, .pushMem .rsi 112, .load .rax .rsi 48, .load .rsi .rsi 80, .ret]

/-- `enter_ring3` -/
def enterRing3 : List Instr :=
  [.movLow .rax 0x23, .movToSeg .ds .rax, .movToSeg .es .rax,
   .load .rsp .rdi 104, .load .rbx .rdi 56, .load .rcx .rdi 64, .load .rdx .rdi 72,
   .load .rsi .rdi 80, .load .rbp .rdi 96, .load .r12 .rdi 152, .load .r13 .rdi 160,
   .load .r14 .rdi 168, .load .r15 .rdi 176, .load .rax .rdi 48, .load .rdi .rdi 88, .iretq]

/-- `switch_context` -/
def switchContext (c : Cpu) : Cpu :=
  let c := run testRing (switchDirectory (run saveState c))
  if c.zf then run ring0Restore c else run (.mov .rdi .rsi :: enterRing3) c

/-- The registers a C caller of `switch_context` may expect to keep. -/
def calleeSaved : List Reg := [.rbx, .rbp, .r12, .r13, .r14, .r15]

/-! ## 2. PCBs in memory -/

/-- The PCB at `p` lies in memory without wrapping round. -/
def Pcb (p : BitVec 64) : Prop := p.toNat + sizeofProcess ≤ 2 ^ 64

/-- The byte addresses of the PCB at `p`. -/
def InPcb (p : BitVec 64) (x : Nat) : Prop := p.toNat ≤ x ∧ x < p.toNat + sizeofProcess

/-- The quadword at `a` lies outside the PCB at `p`. -/
def Outside (p a : BitVec 64) : Prop :=
  a.toNat + 8 ≤ p.toNat ∨ p.toNat + sizeofProcess ≤ a.toNat

instance (p : BitVec 64) : Decidable (Pcb p) := inferInstanceAs (Decidable (_ ≤ _))

instance (p a : BitVec 64) : Decidable (Outside p a) := inferInstanceAs (Decidable (_ ∨ _))

section Fields

variable {m : Memory} {p q a b v : BitVec 64} {x : Nat}

theorem toNat_field (hp : Pcb p) (ha : a.toNat ≤ 272) : (p + a).toNat = p.toNat + a.toNat := by
  unfold Pcb sizeofProcess at hp
  rw [BitVec.toNat_add, Nat.mod_eq_of_lt (by omega)]

theorem loadWord_field (hp : Pcb p) (ha : a.toNat ≤ 272) (hb : b.toNat ≤ 272)
    (hab : a.toNat + 8 ≤ b.toNat ∨ b.toNat + 8 ≤ a.toNat) :
    loadWord (storeWord m (p + a) v) (p + b) = loadWord m (p + b) := by
  refine loadWord_storeWord_of_apart ?_
  rw [toNat_field hp ha, toNat_field hp hb]
  omega

theorem loadWord_fieldHalf {w : BitVec 16} (hp : Pcb p) (ha : a.toNat ≤ 272) (hb : b.toNat ≤ 272)
    (hab : a.toNat + 8 ≤ b.toNat ∨ b.toNat + 8 ≤ a.toNat) :
    loadWord (storeHalf m (p + a) w) (p + b) = loadWord m (p + b) := by
  refine loadWord_storeHalf_of_apart ?_
  rw [toNat_field hp ha, toNat_field hp hb]
  omega

/-- A store outside the PCB. -/
theorem loadWord_field_of_outside (hp : Pcb p) (ha : Outside p a) (hb : b.toNat ≤ 272) :
    loadWord (storeWord m a v) (p + b) = loadWord m (p + b) := by
  refine loadWord_storeWord_of_apart ?_
  unfold Outside sizeofProcess at ha
  rw [toNat_field hp hb]
  omega

/-- A load outside the PCB. -/
theorem loadWord_outside_field (hp : Pcb p) (ha : a.toNat ≤ 272) (hb : Outside p b) :
    loadWord (storeWord m (p + a) v) b = loadWord m b := by
  refine loadWord_storeWord_of_apart ?_
  unfold Outside sizeofProcess at hb
  rw [toNat_field hp ha]
  omega

theorem storeWord_of_notInPcb (hp : Pcb p) (ha : a.toNat ≤ 272) (hx : ¬ InPcb p x) :
    storeWord m (p + a) v x = m x := by
  refine storeWord_of_outside ?_
  unfold InPcb sizeofProcess at hx
  rw [toNat_field hp ha]
  omega

theorem storeHalf_of_notInPcb {w : BitVec 16} (hp : Pcb p) (ha : a.toNat ≤ 272)
    (hx : ¬ InPcb p x) : storeHalf m (p + a) w x = m x := by
  have hfield := toNat_field hp ha
  unfold InPcb sizeofProcess at hx
  exact storeHalf_of_ne (by omega) (by omega)

theorem storeWord_of_inPcb (ha : Outside p a) (hx : InPcb p x) : storeWord m a v x = m x := by
  refine storeWord_of_outside ?_
  unfold Outside at ha
  unfold InPcb at hx
  omega

end Fields

/-- Two states between which the PCB at `p` was not written. -/
def SamePcb (p : BitVec 64) (c d : Cpu) : Prop := ∀ x, InPcb p x → d.mem x = c.mem x

theorem SamePcb.peek {p b : BitVec 64} {c d : Cpu} (h : SamePcb p c d) (hp : Pcb p)
    (hb : b.toNat ≤ 272) : loadWord d.mem (p + b) = loadWord c.mem (p + b) := by
  refine loadWord_congr fun k hk => h _ ?_
  rw [toNat_field hp hb]
  unfold InPcb sizeofProcess
  omega

theorem SamePcb.trans {p : BitVec 64} {c d e : Cpu} (h : SamePcb p c d) (h' : SamePcb p d e) :
    SamePcb p c e :=
  fun x hx => (h' x hx).trans (h x hx)

/-! ## 3. The save -/

section Save

variable (c : Cpu)

theorem saveState_reg {r : Reg} (hr : r ≠ .rcx) : (run saveState c).reg r = c.reg r := by
  cases r
  all_goals first
    | exact absurd rfl hr
    | simp [saveState, exec, Cpu.setReg, Cpu.pushWord]

@[simp] theorem saveState_cr3 : (run saveState c).cr3 = c.cr3 := by
  simp [saveState, exec, Cpu.setReg, Cpu.pushWord]

/-- The save writes the outgoing PCB and the stack slot below the return address. -/
theorem saveState_mem {x : Nat} (hp : Pcb (c.reg .rdi)) (hx : ¬ InPcb (c.reg .rdi) x)
    (hslot : x < (c.reg .rsp - 8).toNat ∨ (c.reg .rsp - 8).toNat + 8 ≤ x) :
    (run saveState c).mem x = c.mem x := by
  simp only [saveState, run_cons, run_nil, exec, Cpu.setReg, Cpu.peek, Cpu.pushWord,
    Function.update_apply, reduceCtorEq, if_true, if_false]
  simp (disch := first | assumption | decide) only [storeWord_of_notInPcb, storeHalf_of_notInPcb,
    storeWord_of_outside]

end Save

/-- The PCB at `p` holds the context of the call of `switch_context` in `c`. -/
structure Saved (p : BitVec 64) (c : Cpu) (m : Memory) : Prop where
  rip : loadWord m (p + 112) = c.peek .rsp 0
  rsp : loadWord m (p + 104) = c.reg .rsp + 8
  rbx : loadWord m (p + 56) = c.reg .rbx
  rbp : loadWord m (p + 96) = c.reg .rbp
  r12 : loadWord m (p + 152) = c.reg .r12
  r13 : loadWord m (p + 160) = c.reg .r13
  r14 : loadWord m (p + 168) = c.reg .r14
  r15 : loadWord m (p + 176) = c.reg .r15
  cs : loadWord m (p + 128) &&& 3 = (c.seg .cs).setWidth 64 &&& 3
  pageDir : loadWord m (p + 200) = loadWord c.mem (p + 200)

/-- **The save.**  With its stack outside the PCB, the outgoing process's context is in its PCB. -/
theorem saveState_saved {c : Cpu} (hp : Pcb (c.reg .rdi)) (hret : Outside (c.reg .rdi) (c.reg .rsp))
    (hslot : Outside (c.reg .rdi) (c.reg .rsp - 8)) :
    Saved (c.reg .rdi) c (run saveState c).mem := by
  constructor
  all_goals
    simp only [saveState, run_cons, run_nil, exec, Cpu.setReg, Cpu.peek, Cpu.pushWord,
      Function.update_apply, reduceCtorEq, if_true, if_false, add_zero,
      BitVec.sub_add_cancel]
    simp (disch := first | assumption | decide) only [loadWord_field, loadWord_fieldHalf,
      loadWord_storeWord, loadWord_field_of_outside, loadWord_outside_field,
      loadWord_storeHalf_and_three]

theorem Saved.same {p : BitVec 64} {c d e : Cpu} (h : Saved p c d.mem) (hp : Pcb p)
    (hsame : SamePcb p d e) : Saved p c e.mem where
  rip := (hsame.peek hp (by decide)).trans h.rip
  rsp := (hsame.peek hp (by decide)).trans h.rsp
  rbx := (hsame.peek hp (by decide)).trans h.rbx
  rbp := (hsame.peek hp (by decide)).trans h.rbp
  r12 := (hsame.peek hp (by decide)).trans h.r12
  r13 := (hsame.peek hp (by decide)).trans h.r13
  r14 := (hsame.peek hp (by decide)).trans h.r14
  r15 := (hsame.peek hp (by decide)).trans h.r15
  cs := by rw [hsame.peek hp (by decide), h.cs]
  pageDir := (hsame.peek hp (by decide)).trans h.pageDir

/-! ## 4. The page directory and the restore -/

section Restore

variable (c : Cpu)

theorem switchDirectory_mem : (switchDirectory c).mem = c.mem := by
  simp only [switchDirectory]
  split
  · rfl
  · rfl

theorem switchDirectory_reg {r : Reg} (hax : r ≠ .rax) (hcx : r ≠ .rcx) :
    (switchDirectory c).reg r = c.reg r := by
  simp only [switchDirectory]
  split
  · simp [testDirectory, exec, Cpu.setReg, Cpu.setZf, hax]
  · simp [testDirectory, loadDirectory, exec, Cpu.setReg, Cpu.setZf, hax, hcx]

theorem switchDirectory_cr3 : (switchDirectory c).cr3 =
    if c.peek .rsi 200 = 0 then c.cr3 else c.peek .rsi 200 - 0xFFFF800000000000 := by
  have hzf : (run testDirectory c).zf = decide (c.peek .rsi 200 = 0) := by
    simp [testDirectory, exec, zf_setZf, Cpu.setReg]
  simp only [switchDirectory, hzf, decide_eq_true_eq]
  split
  · rfl
  · simp [testDirectory, loadDirectory, exec, Cpu.setReg, Cpu.setZf]

theorem testRing_zf : (run testRing c).zf = decide (c.peek .rsi 128 &&& 3 = 0) := by
  simp [testRing, exec, zf_setZf, Cpu.setReg]

/-- The ring 0 restore, up to the registers no caller expects to keep. -/
theorem ring0Restore_spec :
    (run ring0Restore c).rip = c.peek .rsi 112 ∧
    (run ring0Restore c).reg .rsp = c.peek .rsi 104 ∧
    (run ring0Restore c).reg .rbx = c.peek .rsi 56 ∧
    (run ring0Restore c).reg .rbp = c.peek .rsi 96 ∧
    (run ring0Restore c).reg .r12 = c.peek .rsi 152 ∧
    (run ring0Restore c).reg .r13 = c.peek .rsi 160 ∧
    (run ring0Restore c).reg .r14 = c.peek .rsi 168 ∧
    (run ring0Restore c).reg .r15 = c.peek .rsi 176 ∧
    (run ring0Restore c).cr3 = c.cr3 := by
  simp [ring0Restore, exec, Cpu.setReg, Cpu.peek, Cpu.pushWord]

/-- The registers it takes from no other place, and those it leaves. -/
theorem ring0Restore_rest :
    (run ring0Restore c).reg .rdx = c.peek .rsi 72 ∧
    (run ring0Restore c).reg .rsi = loadWord (run ring0Restore c).mem (c.reg .rsi + 80) ∧
    ∀ r ∈ [Reg.rdi, .r8, .r9, .r10], (run ring0Restore c).reg r = c.reg r := by
  simp [ring0Restore, exec, Cpu.setReg, Cpu.peek, Cpu.pushWord]

theorem ring0Restore_mem : (run ring0Restore c).mem =
    storeWord c.mem (c.peek .rsi 104 - 8) (c.peek .rsi 112) := by
  simp [ring0Restore, exec, Cpu.setReg, Cpu.peek, Cpu.pushWord]

theorem enterRing3_mem : (run (.mov .rdi .rsi :: enterRing3) c).mem = c.mem := by
  simp [enterRing3, exec, Cpu.setReg, Cpu.setSeg]

/-- A switch to a process that was in ring 0, up to its restore. -/
theorem switchContext_ring0 (hcs : (run saveState c).peek .rsi 128 &&& 3 = 0) :
    ∃ e, switchContext c = run ring0Restore e ∧ e.mem = (run saveState c).mem ∧
      (∀ r, r ≠ .rax → r ≠ .rcx → e.reg r = c.reg r) ∧
      e.cr3 = if (run saveState c).peek .rsi 200 = 0 then c.cr3
        else (run saveState c).peek .rsi 200 - 0xFFFF800000000000 := by
  have hzf : (run testRing (switchDirectory (run saveState c))).zf = true := by
    rw [testRing_zf, Cpu.peek, switchDirectory_mem, switchDirectory_reg _ (by decide) (by decide),
      ← Cpu.peek, hcs]
    rfl
  refine ⟨run testRing (switchDirectory (run saveState c)), if_pos hzf, switchDirectory_mem _,
    fun r hax hcx => ?_, ?_⟩
  · have htest : (run testRing (switchDirectory (run saveState c))).reg r =
        (switchDirectory (run saveState c)).reg r := by
      simp [testRing, exec, Cpu.setReg, Cpu.setZf, hax]
    rw [htest, switchDirectory_reg _ hax hcx, saveState_reg c hcx]
  · have hcr3 := switchDirectory_cr3 (run saveState c)
    rw [saveState_cr3] at hcr3
    exact hcr3

end Restore

/-! ## 5. Other processes -/

/-- The save of `switch_context` in `c` leaves the PCB at `p` alone: it is another process's PCB
that is filled, and the stack of the call is elsewhere. -/
structure SaveClear (p : BitVec 64) (c : Cpu) : Prop where
  old : Pcb (c.reg .rdi)
  apart : ∀ x, InPcb p x → ¬ InPcb (c.reg .rdi) x
  slot : Outside p (c.reg .rsp - 8)

/-- So does its restore: the RIP it pushes goes to a stack that is elsewhere. -/
structure SwitchClear (p : BitVec 64) (c : Cpu) : Prop extends SaveClear p c where
  pushed : Outside p ((run saveState c).peek .rsi 104 - 8)

section Others

variable {p : BitVec 64} {c : Cpu}

theorem SaveClear.same (h : SaveClear p c) : SamePcb p c (run saveState c) := by
  intro x hx
  refine saveState_mem c h.old (h.apart x hx) ?_
  have hslot := h.slot
  unfold Outside at hslot
  unfold InPcb at hx
  omega

/-- The part of a switch after the save writes one quadword, on the incoming stack. -/
theorem switchContext_same_save
    (hpushed : Outside p ((run saveState c).peek .rsi 104 - 8)) :
    SamePcb p (run saveState c) (switchContext c) := by
  intro x hx
  have hmem : (run testRing (switchDirectory (run saveState c))).mem = (run saveState c).mem :=
    switchDirectory_mem _
  have hrsi : (run testRing (switchDirectory (run saveState c))).reg .rsi =
      (run saveState c).reg .rsi := switchDirectory_reg _ (by decide) (by decide)
  simp only [switchContext]
  split
  · rw [ring0Restore_mem, Cpu.peek, Cpu.peek, hmem, hrsi]
    exact storeWord_of_inPcb hpushed hx
  · rw [enterRing3_mem, hmem]

theorem SwitchClear.same (h : SwitchClear p c) : SamePcb p c (switchContext c) :=
  h.toSaveClear.same.trans (switchContext_same_save h.pushed)

end Others

/-- What happens while `p` is suspended: code of any kind that does not write its PCB, and
switches between other processes. -/
inductive Elsewhere (p : BitVec 64) : Cpu → Cpu → Prop
  | code {c d : Cpu} : SamePcb p c d → Elsewhere p c d
  | switch {c : Cpu} : SwitchClear p c → Elsewhere p c (switchContext c)

theorem Elsewhere.same {p : BitVec 64} {c d : Cpu} (h : Elsewhere p c d) : SamePcb p c d := by
  cases h with
  | code h => exact h
  | switch h => exact h.same

theorem samePcb_of_run {p : BitVec 64} {c d : Cpu}
    (h : Relation.ReflTransGen (Elsewhere p) c d) : SamePcb p c d :=
  reach_invariant (I := SamePcb p c) h (fun _ _ => rfl) fun _ _ hI hstep => hI.trans hstep.same

/-! ## 6. Suspension and resumption -/

/-- A call of `switch_context(p, q)` in ring 0, on a stack outside both PCBs' way. -/
structure SuspendedBy (p : BitVec 64) (c : Cpu) : Prop where
  old : c.reg .rdi = p
  pcb : Pcb p
  ring : (c.seg .cs).setWidth 64 &&& (3 : BitVec 64) = 0
  ret : Outside p (c.reg .rsp)
  slot : Outside p (c.reg .rsp - 8)
  pushed : Outside p ((run saveState c).peek .rsi 104 - 8)

/-- A call of `switch_context(q, p)`. -/
structure ResumedBy (p : BitVec 64) (c : Cpu) : Prop extends SaveClear p c where
  new : c.reg .rsi = p

/-- `r` goes on where the call of `switch_context` in `c` returns. -/
structure Continues (c r : Cpu) : Prop where
  rip : r.rip = c.peek .rsp 0
  rsp : r.reg .rsp = c.reg .rsp + 8
  kept : ∀ x ∈ calleeSaved, r.reg x = c.reg x
  cr3 : c.peek .rdi 200 ≠ 0 →
    r.cr3 = BitVec.ofNat 64 (virtualToPhysical (c.peek .rdi 200).toNat)

theorem SuspendedBy.saved {p : BitVec 64} {c : Cpu} (h : SuspendedBy p c) :
    Saved p c (switchContext c).mem := by
  have hsave := saveState_saved (c := c) (h.old ▸ h.pcb) (h.old ▸ h.ret) (h.old ▸ h.slot)
  rw [h.old] at hsave
  exact hsave.same h.pcb (switchContext_same_save h.pushed)

/-- Subtracting the base of the direct map is the conversion to a physical address. -/
theorem sub_physicalMapBase (v : BitVec 64) :
    v - 0xFFFF800000000000 = BitVec.ofNat 64 (virtualToPhysical v.toNat) := by
  apply BitVec.eq_of_toNat_eq
  have hv := v.isLt
  rw [BitVec.toNat_sub, BitVec.toNat_ofNat, virtualToPhysical, sub64, physicalMapBase]
  change (2 ^ 64 - 0xFFFF800000000000 + v.toNat) % 2 ^ 64 = _
  omega

/-- **The resumption.**  A switch to a process whose context is in its PCB, in ring 0, returns
to where that context was saved. -/
theorem switchContext_resume {p : BitVec 64} {c d : Cpu} (hp : Pcb p)
    (hring : (c.seg .cs).setWidth 64 &&& (3 : BitVec 64) = 0) (hold : c.reg .rdi = p)
    (hsaved : Saved p c d.mem) (hresume : ResumedBy p d) : Continues c (switchContext d) := by
  have hs := hsaved.same hp hresume.toSaveClear.same
  have hrsi : (run saveState d).reg .rsi = p := by
    rw [saveState_reg d (by decide), hresume.new]
  have hcs : (run saveState d).peek .rsi 128 &&& 3 = 0 := by
    rw [Cpu.peek, hrsi, hs.cs, hring]
  obtain ⟨e, hdef, hmem, hreg, hcr3⟩ := switchContext_ring0 d hcs
  have hrsi' : e.reg .rsi = p := (hreg .rsi (by decide) (by decide)).trans hresume.new
  rw [hdef]
  obtain ⟨hrip, hrsp, hbx, hbp, h12, h13, h14, h15, hcr⟩ := ring0Restore_spec e
  simp only [Cpu.peek, hmem, hrsi'] at hrip hrsp hbx hbp h12 h13 h14 h15
  refine ⟨hrip.trans hs.rip, hrsp.trans hs.rsp, ?_, ?_⟩
  · simp only [calleeSaved, List.forall_mem_cons]
    exact ⟨hbx.trans hs.rbx, hbp.trans hs.rbp, h12.trans hs.r12, h13.trans hs.r13,
      h14.trans hs.r14, h15.trans hs.r15, fun _ h => nomatch h⟩
  · intro hdir
    have hpeek : (run saveState d).peek .rsi 200 = c.peek .rdi 200 := by
      rw [Cpu.peek, hrsi, hs.pageDir, Cpu.peek, hold]
    rw [hcr, hcr3, hpeek, if_neg hdir, sub_physicalMapBase]

/-- **Context-switch transparency.**  A process suspended by its call of `switch_context` in `c`
goes on at the return of that call, whatever ran in between without writing its PCB. -/
theorem context_switch_transparent {p : BitVec 64} {c d : Cpu} (hcall : SuspendedBy p c)
    (hrun : Relation.ReflTransGen (Elsewhere p) (switchContext c) d) (hresume : ResumedBy p d) :
    Continues c (switchContext d) := by
  have hsaved : Saved p c d.mem := hcall.saved.same hcall.pcb (samePcb_of_run hrun)
  exact switchContext_resume hcall.pcb hcall.ring hcall.old hsaved hresume

/-- A process at `0x10000` with a page directory gives way to one at `0x20000`, whose kernel stack
ends at `0x7000`. -/
def outgoing : Cpu where
  reg
    | .rdi => 0x10000
    | .rsi => 0x20000
    | .rsp => 0x5F00
    | .rbx => 1
    | .r12 => 2
    | _ => 0
  seg
    | .cs => 0x08
    | _ => 0x10
  rip := 0
  rflags := 0x200
  cr3 := 0
  mem := storeWord (storeWord (fun _ => 0) (0x10000 + 200) 0xFFFF800000003000) (0x20000 + 104) 0x6FF8

/-- The second process, some way down its stack, gives way to the first. -/
def returning : Cpu :=
  { switchContext outgoing with
    reg
      | .rdi => 0x20000
      | .rsi => 0x10000
      | .rsp => 0x6E00
      | _ => 7 }

theorem suspendedBy_outgoing : SuspendedBy 0x10000 outgoing where
  old := rfl
  pcb := by decide
  ring := by decide
  ret := by decide
  slot := by decide
  pushed := by
    have hclear : SaveClear 0x20000 outgoing := by
      refine ⟨by decide, fun x hx hx' => ?_, by decide⟩
      exact absurd (hx.1.trans_lt hx'.2) (by decide)
    have hrsp : (run saveState outgoing).peek .rsi 104 = 0x6FF8 := by
      rw [Cpu.peek, saveState_reg _ (by decide)]
      exact (hclear.same.peek (by decide) (by decide)).trans (loadWord_storeWord _ _ _)
    rw [hrsp]
    decide

theorem resumedBy_returning : ResumedBy 0x10000 returning where
  old := by decide
  apart := fun x hx hx' => absurd (hx'.1.trans_lt hx.2) (by decide)
  slot := by decide
  new := rfl

theorem context_switch_transparent_two : Continues outgoing (switchContext returning) :=
  context_switch_transparent suspendedBy_outgoing
    (Relation.ReflTransGen.single (Elsewhere.code fun _ _ => rfl)) resumedBy_returning

end AcornOS
