/-
# Replacing a process's image (`elf_load_from_path`, `process_exec`)

`process_exec` builds the new image beside the old one: a kernel stack, an address space, and what
`elf_load` makes of the file.  Its header comment promises that "a failed load leaves the calling
process exactly as it was".  On failure it puts back the three fields it has set itself; `elf_load`
sets a dozen more, and it can return 0 after it has done so.

* `Accepts s file`: the file can be read, and `elf_load` takes the header for one it can load.
* `failed_exec_undone_iff`: when `process_exec` returns -1, everything is as it was if and only if the
  image was NOT accepted.
-/
import AcornOS.Core.ElfImage

namespace AcornOS

open Lib

/-! ## 1. The model -/

/-- What `vfs_open`, `inode->size` and `vfs_read` say about a file: its size, and the bytes that were
read into the buffer. -/
structure FileRead where
  size : Nat
  bytes : List (BitVec 8)
  size_lt : size < 2 ^ 32
  le : bytes.length ≤ size

/-- `elf_load_from_path`: the entry point, or 0.  `file` is `none` if it cannot be opened. -/
def elfLoadFromPath (s : Kernel) (file : Option FileRead) (proc : Nat)
    (argv : Option (List (List (BitVec 8)))) : Except Halt (Nat × Kernel) :=
  match file with
  | none => .ok (0, s)
  | some f =>
    if f.size = 0 then .ok (0, s)
    else do
      let (buffer, heap) ← kmalloc s.heap f.size
      if buffer = 0 then .ok (0, { s with heap := heap })
      else
        let machine := { s.machine with mem := writeBytes s.machine.mem buffer f.bytes }
        if f.bytes.length ≠ f.size then do
          let heap ← kfree heap buffer
          .ok (0, { s with machine := machine, heap := heap })
        else do
          let (entry, x, machine) ← elfLoad machine buffer (s.pcb proc) argv
          let heap ← kfree heap buffer
          .ok (entry, { s with machine := machine, heap := heap }.modify proc fun _ => x)

/-- The first half of `process_exec`: a kernel stack and an address space for the new image, and the
process pointed at them.  Returns the stack's physical address. -/
def execPrepare (s : Kernel) : Except Halt (Nat × Kernel) :=
  if s.currentProcess = 0 then .error (.panic "exec: no current process!")
  else do
    let (newKstackPhysical, pmm) ← pmmAlloc s.machine.pmm
    let newKstack := physicalToVirtual newKstackPhysical
    let newKstackTop := sub64 (add64 newKstack pageSize) 8
    let (newDir, machine) ← pagingCloneDirectory { s.machine with pmm := pmm } s.kernelPml4
    if newDir = 0 then .error (.panic "exec: failed to allocate page directory!")
    else .ok (newKstackPhysical, { s with machine := machine }.modify s.currentProcess fun p =>
      { p with stack := newKstack, stackTop := newKstackTop, pageDir := newDir })

/-- `process_exec`: false if it returns -1, true if it goes to ring 3 with the new image. -/
def processExec (s : Kernel) (file : Option FileRead) (argv : Option (List (List (BitVec 8)))) :
    Except Halt (Bool × Kernel) := do
  let old := s.current
  let (newKstackPhysical, u) ← execPrepare s
  let newDir := u.current.pageDir
  let (entry, u) ← elfLoadFromPath u file u.currentProcess argv
  if entry = 0 then
    let u := u.modify u.currentProcess fun p =>
      { p with stack := old.stack, stackTop := old.stackTop, pageDir := old.pageDir }
    let machine := pagingFreeDirectory u.machine newDir
    .ok (false, { u with
      machine := { machine with pmm := pmmFree machine.pmm newKstackPhysical } })
  else
    let machine := pagingFreeDirectory u.machine old.pageDir
    .ok (true, { u with
      machine := { machine with pmm := pmmFree machine.pmm (virtualToPhysical old.stack) } })

/-! ## 2. Reading the file -/

/-- The file can be read and its header is one that `elf_load` accepts. -/
def Accepts (s : Kernel) (file : Option FileRead) : Prop :=
  ∃ f buffer heap, file = some f ∧ f.size ≠ 0 ∧ f.bytes.length = f.size ∧
    kmalloc s.heap f.size = .ok (buffer, heap) ∧ buffer ≠ 0 ∧
    elfHeaderOk (writeBytes s.machine.mem buffer f.bytes) buffer = true

/-- `ReadOnly s t`: the kernel heap aside, the file's bytes in a buffer of that heap are all that is
new. -/
structure ReadOnly (s t : Kernel) : Prop where
  pcb : t.pcb = s.pcb
  current : t.currentProcess = s.currentProcess
  pmm : t.machine.pmm = s.machine.pmm
  mem : t.machine.mem = s.machine.mem ∨ ∃ (f : FileRead) (buffer : Nat) (heap : KHeap),
    f.size ≠ 0 ∧ kmalloc s.heap f.size = .ok (buffer, heap) ∧
      t.machine.mem = writeBytes s.machine.mem buffer f.bytes

section Reading

variable {s t : Kernel} {file : Option FileRead} {proc entry : Nat}
  {argv : Option (List (List (BitVec 8)))}

/-- An accepted image is always turned into a process, whatever becomes of memory. -/
theorem elfLoad_process {m m' : Machine} {a : Nat} {p x : Process}
    (h : elfLoad m a p argv = .ok (entry, x, m')) (hok : elfHeaderOk m.mem a = true) :
    ∃ heapStart argc addr, x = loadedProcess p heapStart argc addr := by
  unfold elfLoad elfLoadOr at h
  rw [if_pos hok] at h
  obtain ⟨⟨heapStart, u⟩, -, h⟩ := bind_eq_ok.mp h
  unfold loadStack at h
  obtain ⟨w, -, h⟩ := bind_eq_ok.mp h
  simp only [Except.ok.injEq, Prod.mk.injEq] at h
  exact ⟨_, _, _, h.2.1.symm⟩

/-- **`elf_load_from_path`** does nothing to the process unless the image is accepted. -/
theorem elfLoadFromPath_cases (h : elfLoadFromPath s file proc argv = .ok (entry, t)) :
    (¬ Accepts s file ∧ entry = 0 ∧ ReadOnly s t) ∨
    (Accepts s file ∧ t.currentProcess = s.currentProcess ∧
      ∃ heapStart argc addr, t.pcb proc = loadedProcess (s.pcb proc) heapStart argc addr) := by
  unfold elfLoadFromPath at h
  cases file with
  | none =>
    cases h
    refine Or.inl ⟨?_, rfl, rfl, rfl, rfl, Or.inl rfl⟩
    rintro ⟨f, -, -, hf, -⟩
    cases hf
  | some f =>
    have hacc : Accepts s (some f) ↔ f.size ≠ 0 ∧ f.bytes.length = f.size ∧ ∃ buffer heap,
        kmalloc s.heap f.size = .ok (buffer, heap) ∧ buffer ≠ 0 ∧
          elfHeaderOk (writeBytes s.machine.mem buffer f.bytes) buffer = true := by
      constructor
      · rintro ⟨g, buffer, heap, hg, hsize, hlen, hrest⟩
        cases hg
        exact ⟨hsize, hlen, buffer, heap, hrest⟩
      · rintro ⟨hsize, hlen, buffer, heap, hrest⟩
        exact ⟨f, buffer, heap, rfl, hsize, hlen, hrest⟩
    by_cases hsize : f.size = 0
    · simp only [if_pos hsize] at h
      cases h
      exact Or.inl ⟨fun hacc' => (hacc.mp hacc').1 hsize, rfl, rfl, rfl, rfl, Or.inl rfl⟩
    simp only [if_neg hsize] at h
    obtain ⟨⟨buffer, heap⟩, hkmalloc, h⟩ := bind_eq_ok.mp h
    -- the buffer is the one in `Accepts`, because `kmalloc` is a function
    have hacc' : Accepts s (some f) ↔ f.bytes.length = f.size ∧ buffer ≠ 0 ∧
        elfHeaderOk (writeBytes s.machine.mem buffer f.bytes) buffer = true := by
      rw [hacc]
      constructor
      · rintro ⟨-, hlen, b, hp, hk, hrest⟩
        rw [hkmalloc] at hk
        cases hk
        exact ⟨hlen, hrest⟩
      · rintro ⟨hlen, hrest⟩
        exact ⟨hsize, hlen, buffer, heap, hkmalloc, hrest⟩
    by_cases hbuffer : buffer = 0
    · simp only [if_pos hbuffer] at h
      cases h
      exact Or.inl ⟨fun ha => (hacc'.mp ha).2.1 hbuffer, rfl, rfl, rfl, rfl, Or.inl rfl⟩
    simp only [if_neg hbuffer] at h
    by_cases hlen : f.bytes.length = f.size
    · simp only [if_neg (not_not.mpr hlen)] at h
      obtain ⟨⟨e, x, m⟩, hload, h⟩ := bind_eq_ok.mp h
      obtain ⟨heap', -, h⟩ := bind_eq_ok.mp h
      simp only [Except.ok.injEq, Prod.mk.injEq] at h
      obtain ⟨rfl, rfl⟩ := h
      by_cases hok : elfHeaderOk (writeBytes s.machine.mem buffer f.bytes) buffer = true
      · obtain ⟨heapStart, argc, addr, hx⟩ := elfLoad_process hload hok
        refine Or.inr ⟨hacc'.mpr ⟨hlen, hbuffer, hok⟩, rfl, heapStart, argc, addr, ?_⟩
        rw [Kernel.modify_self]
        exact hx
      · rw [elfLoad, elfLoadOr, if_neg hok] at hload
        cases hload
        refine Or.inl ⟨fun ha => hok (hacc'.mp ha).2.2, rfl, ?_, rfl, rfl,
          Or.inr ⟨f, buffer, heap, hsize, hkmalloc, rfl⟩⟩
        exact Function.update_eq_self ..
    · simp only [if_pos hlen] at h
      obtain ⟨heap', -, h⟩ := bind_eq_ok.mp h
      cases h
      exact Or.inl ⟨fun ha => hlen (hacc'.mp ha).1, rfl, rfl, rfl, rfl,
        Or.inr ⟨f, buffer, heap, hsize, hkmalloc, rfl⟩⟩

end Reading

/-! ## 3. A failed `process_exec` -/

/-- No byte of the frame is in the kernel heap. -/
def OffHeap (f : Nat) : Prop :=
  ∀ k < 4096, frameAddr f + k < heapStart ∨ heapStart + heapSize ≤ frameAddr f + k

/-- The frames of the old image: the PML4, the tables and the pages behind it. -/
def OldImage (s : Kernel) (f : Nat) : Prop :=
  f = s.current.root ∨ f ∈ frames s.machine.mem 4 s.current.root

/-- The caller of `process_exec`: its image is in use, neither that nor a free page is in the kernel heap,
and the stack pointer it was last saved with does not point into a free page. -/
structure ExecPre (s : Kernel) : Prop where
  wf : s.machine.Wf
  kernel : s.kernelPml4 = frameAddr s.rootFrame
  kernelUsed : s.machine.pmm.Used s.rootFrame
  current : s.currentProcess ≠ 0
  heap : ∃ bs, Rep s.heap bs
  image : ∀ f, OldImage s f → s.machine.pmm.Used f ∧ OffHeap f
  free : ∀ f ∈ s.machine.pmm.freePages, OffHeap f
  rsp : ∀ f ∈ s.machine.pmm.freePages, ∀ k < 4096, s.current.cpu.rsp.toNat ≠ frameAddr f + k

/-- The PCB, the page allocator, and the old image's tables and pages are what they were. -/
structure ExecUndone (s t : Kernel) : Prop where
  process : t.currentProcess = s.currentProcess ∧ t.current = s.current
  pmm : t.machine.pmm = s.machine.pmm
  image : ∀ f, OldImage s f →
    ∀ k < 4096, t.machine.mem (frameAddr f + k) = s.machine.mem (frameAddr f + k)

/-- The image that `elf_load` is given is one that it accepts. -/
def ImageAccepted (s : Kernel) (file : Option FileRead) : Prop :=
  ∃ a u, execPrepare s = .ok (a, u) ∧ Accepts u file

section Exec

variable {s t u : Kernel} {file : Option FileRead} {argv : Option (List (List (BitVec 8)))}

/-- **The first half**: a stack frame `f` and an empty directory `c`. -/
theorem execPrepare_spec (hpre : ExecPre s) {a : Nat} (h : execPrepare s = .ok (a, u)) :
    ∃ f c pm, a = f * pageSize ∧ Takes s.machine.pmm pm {f} ∧
      Cloned ⟨s.machine.mem, pm⟩ s.rootFrame u.machine c ∧ u.heap = s.heap ∧
      u.currentProcess = s.currentProcess ∧
      u.current = { s.current with
        stack := frameAddr f, stackTop := frameAddr f + 8 * 511, pageDir := frameAddr c } := by
  rw [execPrepare, if_neg hpre.current] at h
  obtain ⟨⟨a', pm⟩, halloc, h⟩ := bind_eq_ok.mp h
  obtain ⟨f, hf, -, rfl, htakes⟩ := (pmmAlloc_spec hpre.wf.pmm).of_ok halloc
  obtain ⟨⟨dir, m⟩, hclone, h⟩ := bind_eq_ok.mp h
  rw [hpre.kernel] at hclone
  have hwf : Machine.Wf ⟨s.machine.mem, pm⟩ := hpre.wf.of_takes htakes
  obtain ⟨c, rfl, hcloned⟩ :=
    (pagingCloneDirectory_spec hwf (hpre.kernelUsed.of_takes htakes)).of_ok hclone
  have hused := hcloned.dir.used c (Or.inl rfl)
  dsimp only at h
  rw [if_neg ((hwf.of_takes hcloned.takes).frameAddr_ne_zero hused.1)] at h
  simp only [Except.ok.injEq, Prod.mk.injEq] at h
  obtain ⟨rfl, rfl⟩ := h
  refine ⟨f, c, pm, rfl, htakes, hcloned, rfl, rfl, ?_⟩
  rw [Kernel.current, Kernel.modify_currentProcess, Kernel.modify_self, physicalToVirtual_page]
  have htop : sub64 (add64 (frameAddr f) pageSize) 8 = frameAddr f + 8 * 511 := stackTop_eq f
  rw [htop]
  rfl

/-- Reading the file leaves what is not in the kernel heap alone. -/
theorem ReadOnly.offHeap (h : ReadOnly u t) {bs : List Block} (hrep : Rep u.heap bs) {f k : Nat}
    (hf : OffHeap f) (hk : k < 4096) :
    t.machine.mem (frameAddr f + k) = u.machine.mem (frameAddr f + k) := by
  rcases h.mem with hmem | ⟨g, buffer, heap, -, hkmalloc, hmem⟩
  · rw [hmem]
  · obtain ⟨bs', x, n, hrep', hx, hn, hperm⟩ := (kmalloc_spec hrep).of_ok hkmalloc
    dsimp only at hx hrep'
    have hin : (x, n) ∈ inUse headerSize heapStart bs' := hperm.mem_iff.mpr List.mem_cons_self
    obtain ⟨pre, post, hbs, hx'⟩ := mem_inUse_iff.mp hin
    have hspan := hrep'.span
    rw [hbs, span_append, span_cons] at hspan
    have hend := heapEnd_lt
    have hsize := @le_roundUp4 g.size (by have := g.size_lt; omega)
    have hle := g.le
    have hout := hf k hk
    dsimp only at hspan
    rw [hmem]
    exact writeBytes_of_outside (by omega) (by omega)

/-- What is left of the two halves when the file has not been accepted. -/
theorem execUndone_of_readOnly (hpre : ExecPre s) {a : Nat} (hprep : execPrepare s = .ok (a, u))
    (hread : ReadOnly u t) :
    ExecUndone s (let w := t.modify t.currentProcess fun p =>
        { p with stack := s.current.stack, stackTop := s.current.stackTop, pageDir := s.current.pageDir }
      let machine := pagingFreeDirectory w.machine u.current.pageDir
      { w with machine := { machine with pmm := pmmFree machine.pmm a } }) := by
  obtain ⟨f, c, pm, rfl, htakes, hclone, hheap, hcurrent, hpcb⟩ := execPrepare_spec hpre hprep
  obtain ⟨bs, hrep⟩ := hpre.heap
  rw [← hheap] at hrep
  have hf := htakes.free (Finset.mem_singleton_self f)
  have hc : c ∈ s.machine.pmm.freePages :=
    htakes.free_mono (hclone.takes.free (Finset.mem_singleton_self c))
  have hcf : c ≠ f := (htakes.ne_taken hclone.takes).symm
  have hc40 := hpre.wf.lt_of_free hc
  have hdir : u.current.pageDir = frameAddr c := by rw [hpcb]
  -- the directory is still empty, so that freeing it frees its PML4 only
  have honly : OnlyIn u.machine.mem t.machine.mem {q | ¬ OffHeap q} := fun q _ hq k hk =>
    hread.offHeap hrep (not_not.mp hq) hk
  have htree : tree t.machine.mem 4 c = tree u.machine.mem 4 c := by
    refine honly.tree_eq hc40 (not_not.mpr (hpre.free c hc)) fun q hq => ?_
    rw [hclone.frames] at hq
    cases hq
  have hframes : frames t.machine.mem 4 c = [] := (congrArg _ htree).trans hclone.frames
  have hcpos := hpre.wf.pmm.pos_of_mem hc
  have hfree : pagingFreeDirectory t.machine (frameAddr c) =
      ⟨t.machine.mem, t.machine.pmm.releaseAll [c]⟩ := by
    rw [pagingFreeDirectory_eq hc40 ?_ (hpre.wf.frameAddr_ne_zero (Pmm.mem_freePages.mp hc).1),
      hframes, List.nil_append]
    rintro q (rfl | hq)
    · exact hcpos
    · rw [hframes] at hq
      cases hq
  have hpmm : (t.machine.pmm.releaseAll [c]).release f = s.machine.pmm := by
    rw [hread.pmm]
    refine @Takes.releaseAll _ _ _ (htakes.trans hclone.takes) [c, f] (by simp [hcf]) fun q => ?_
    rw [Finset.mem_union, Finset.mem_singleton, Finset.mem_singleton, List.mem_cons,
      List.mem_singleton, or_comm]
  have hpcb' : t.pcb t.currentProcess = { s.current with
      stack := frameAddr f, stackTop := frameAddr f + 8 * 511, pageDir := frameAddr c } := by
    rw [hread.pcb, hread.current]
    exact hpcb
  dsimp only
  rw [hdir]
  have hmachine : ∀ g, (t.modify t.currentProcess g).machine = t.machine := fun _ => rfl
  rw [hmachine, hfree]
  dsimp only
  rw [pmmFree_page (hpre.wf.pmm.pos_of_mem hf), hpmm]
  refine ⟨⟨hread.current.trans hcurrent, ?_⟩, rfl, fun q hq k hk => ?_⟩
  · rw [Kernel.current]
    dsimp only
    rw [Kernel.modify_currentProcess, Kernel.modify_self, hpcb']
  · obtain ⟨hused, hoff⟩ := hpre.image q hq
    refine (hread.offHeap hrep hoff hk).trans (hclone.only q (hpre.wf.lt_of_used hused) ?_ k hk)
    rintro rfl
    have hfree := hused.2
    rw [(Pmm.mem_freePages.mp hc).2] at hfree
    cases hfree

/-- **A failed `exec` is undone if and only if the image was not accepted.**  An accepted image whose
entry point is 0 fails after `elf_load` has filled in the PCB. -/
theorem failed_exec_undone_iff (s t : Kernel) (file : Option FileRead)
    (argv : Option (List (List (BitVec 8)))) (hpre : ExecPre s)
    (h : processExec s file argv = .ok (false, t)) :
    ExecUndone s t ↔ ¬ ImageAccepted s file := by
  unfold processExec at h
  obtain ⟨⟨a, u⟩, hprep, h⟩ := bind_eq_ok.mp h
  obtain ⟨⟨entry, w⟩, hload, h⟩ := bind_eq_ok.mp h
  have haccepted : ImageAccepted s file ↔ Accepts u file := by
    constructor
    · rintro ⟨a', u', hprep', hacc⟩
      rw [hprep] at hprep'
      cases hprep'
      exact hacc
    · exact fun hacc => ⟨a, u, hprep, hacc⟩
  rw [haccepted]
  by_cases hentry : entry = 0
  · simp only [if_pos hentry, Except.ok.injEq, Prod.mk.injEq, true_and] at h
    rcases elfLoadFromPath_cases hload with ⟨hnot, -, hread⟩ | ⟨hacc, hcur, start, argc, addr, hpcb⟩
    · refine iff_of_true ?_ hnot
      rw [← h]
      exact execUndone_of_readOnly hpre hprep hread
    · refine iff_of_false (fun hundone => ?_) (not_not.mpr hacc)
      obtain ⟨f, c, pm, -, htakes, -, -, hcurrent, hupcb⟩ := execPrepare_spec hpre hprep
      -- the saved stack pointer is on the stack that was freed
      have hrsp : t.current.cpu.rsp = BitVec.ofNat 64 (sub64 (frameAddr f + 8 * 511) 32) := by
        rw [← h, Kernel.current]
        dsimp only
        rw [Kernel.modify_currentProcess, Kernel.modify_self, hcur, hpcb]
        have hstack : (u.pcb u.currentProcess).stackTop = frameAddr f + 8 * 511 :=
          congrArg Process.stackTop hupcb
        simp only [loadedProcess, hstack]
      have hend := frameAddr_add_le f
      rw [sub64_eq (by omega) (by omega)] at hrsp
      refine hpre.rsp f (htakes.free (Finset.mem_singleton_self f)) 4056 (by decide) ?_
      rw [← hundone.process.2, hrsp, BitVec.toNat_ofNat, Nat.mod_eq_of_lt (by omega)]
      omega
  · simp only [if_neg hentry, Except.ok.injEq, Prod.mk.injEq, Bool.true_eq_false, false_and] at h

end Exec

/-! ### A process on a small machine -/

/-- Pages 8 to 31 are free, the kernel heap's and all others in use. -/
def mostUsed : Pmm := ⟨fun b => if 1 ≤ b ∧ b ≤ 3 then 0 else 0xFF, 0x4000, 0x3FE8⟩

/-- One process, with an empty directory in frame 1 and its stack in frame 2. -/
def execKernel (heap : KHeap) (p : Nat) : Kernel where
  machine := ⟨fun _ => 0, mostUsed⟩
  heap := heap
  pcb _ := pcbWithPages 2 1
  processTable i := if i = 0 then p else 0
  currentProcess := p
  nextPid := 1
  runQueueHead := p
  runQueueTail := p
  kernelPml4 := frameAddr 3
  iretToUsermode := 0

theorem free_mostUsed {f : Nat} : f ∈ mostUsed.freePages ↔ 8 ≤ f ∧ f < 32 := by
  rw [Pmm.mem_freePages]
  have hbit : ∀ k < 8, (0xFF#8).getLsbD k = true := by decide
  have htest : mostUsed.bitmapTest f = !((if 1 ≤ f / 8 ∧ f / 8 ≤ 3 then 0#8 else 0xFF#8).getLsbD
      (f % 8)) := by
    rw [Pmm.bitmapTest, Bitmap.get_eq_getLsbD]
    rfl
  have htotal : mostUsed.totalPages = 0x4000 := rfl
  rw [htest, htotal]
  split
  · simp only [BitVec.getLsbD_zero, Bool.not_false, and_true]
    omega
  · rw [hbit _ (Nat.mod_lt _ (by decide))]
    simp only [Bool.not_true, Bool.false_eq_true, and_false, false_iff]
    omega

theorem used_mostUsed {f : Nat} (hf : f < 0x4000) (h : f < 8 ∨ 32 ≤ f) : mostUsed.Used f := by
  refine ⟨hf, Bool.eq_false_iff.mpr fun htest => ?_⟩
  have := free_mostUsed.mp (Pmm.mem_freePages.mpr ⟨hf, htest⟩)
  omega

theorem offHeap_low {f : Nat} (hf : f < 32) : OffHeap f := by
  intro k hk
  have hend : frameAddr f + 4096 ≤ heapStart := by
    unfold frameAddr physicalToVirtual add64 pageSize physicalMapBase heapStart
    omega
  omega

theorem execKernel_pre {heap : KHeap} {bs : List Block} {p : Nat} (hrep : Rep heap bs) (hp : p ≠ 0) :
    ExecPre (execKernel heap p) := by
  have hwf : (execKernel heap p).machine.Wf :=
    ⟨⟨(by decide : mostUsed.totalPages ≤ 2 ^ 52), (by decide : mostUsed.bitmapTest 0 = false)⟩,
      (by decide : mostUsed.totalPages ≤ 2 ^ 35)⟩
  have hroot : (execKernel heap p).current.root = 1 :=
    (frame_of_addr (by decide) : virtualToPhysical (frameAddr 1) / pageSize = 1)
  have hkernel : (execKernel heap p).rootFrame = 3 :=
    (frame_of_addr (by decide) : virtualToPhysical (frameAddr 3) / pageSize = 3)
  have hempty : frames (execKernel heap p).machine.mem 4 1 = [] :=
    (Fresh.of_blank (s := (execKernel heap p).machine)
      (used_mostUsed (by decide) (Or.inl (by decide))) fun _ _ => rfl).frames
  have hfree : ∀ f ∈ (execKernel heap p).machine.pmm.freePages, f < 32 := fun f hf =>
    (free_mostUsed.mp hf).2
  refine ⟨hwf, ?_, ?_, hp, ⟨bs, hrep⟩, ?_, fun f hf => offHeap_low (hfree f hf), fun f hf k _ => ?_⟩
  · rw [hkernel]
    rfl
  · rw [hkernel]
    exact used_mostUsed (by decide) (Or.inl (by decide))
  · unfold OldImage
    rw [hroot, hempty]
    rintro f (rfl | hf)
    · exact ⟨used_mostUsed (by decide) (Or.inl (by decide)), offHeap_low (by decide)⟩
    · cases hf
  · have hrsp : (execKernel heap p).current.cpu.rsp.toNat = 0 := rfl
    have := @frameAddr_ne_zero f ((hfree f hf).trans (by decide))
    omega

/-- The first half succeeds if there are two free pages. -/
theorem execPrepare_ok {s : Kernel} (hpre : ExecPre s) (hcard : 2 ≤ s.machine.pmm.freePages.card) :
    ∃ a u, execPrepare s = .ok (a, u) := by
  have hspec : Ensures (execPrepare s) (fun _ => s.machine.pmm.freePages.card < 2) fun _ => True := by
    rw [execPrepare, if_neg hpre.current]
    refine Ensures.bind ((pmmAlloc_spec hpre.wf.pmm).mono (fun _ he => by simp [he.2])
      fun r hr => hr) ?_
    rintro ⟨a, pm⟩ ⟨f, hf, -, rfl, htakes⟩
    have hwf : Machine.Wf ⟨s.machine.mem, pm⟩ := hpre.wf.of_takes htakes
    have hcard := htakes.card_add
    rw [Finset.card_singleton] at hcard
    dsimp only at hcard ⊢
    rw [hpre.kernel]
    refine Ensures.bind ((pagingCloneDirectory_spec hwf (hpre.kernelUsed.of_takes htakes)).mono
      (fun _ he => ?_) fun r hr => hr) ?_
    · dsimp only at he
      rw [he, Finset.card_empty] at hcard
      omega
    rintro ⟨dir, m⟩ ⟨c, rfl, hcloned⟩
    dsimp only
    rw [if_neg ((hwf.of_takes hcloned.takes).frameAddr_ne_zero (hcloned.dir.used c (Or.inl rfl)).1)]
    exact ensures_ok.mpr trivial
  obtain ⟨⟨a, u⟩, hok, -⟩ := hspec.exists_ok fun _ => by omega
  exact ⟨a, u, hok⟩

theorem card_mostUsed : 24 ≤ mostUsed.freePages.card := by
  have hsub : Finset.Ico 8 32 ⊆ mostUsed.freePages := fun f hf =>
    free_mostUsed.mpr (Finset.mem_Ico.mp hf)
  exact (Nat.le_of_eq (by decide)).trans (Finset.card_le_card hsub)

theorem failed_exec_undone_no_file : ∃ heap p t,
    processExec (execKernel heap p) none none = .ok (false, t) ∧ ExecUndone (execKernel heap p) t := by
  obtain ⟨p, heap, hp⟩ : ∃ p heap, kmalloc (memInit fun _ => ⟨0, false, 0⟩) sizeofProcess =
      .ok (p, heap) := ⟨_, _, rfl⟩
  obtain ⟨bs, x, n, hrep, hx, -, -⟩ := (kmalloc_spec (memInit_rep _)).of_ok hp
  have hp0 : p ≠ 0 := by
    have := headerSize_pos
    dsimp only at hx
    omega
  have hpre := execKernel_pre hrep hp0
  obtain ⟨a, u, hu⟩ := execPrepare_ok hpre ((by decide : 2 ≤ 24).trans card_mostUsed)
  have hexec : ∃ t, processExec (execKernel heap p) none none = .ok (false, t) := by
    unfold processExec
    rw [hu]
    exact ⟨_, rfl⟩
  obtain ⟨t, ht⟩ := hexec
  refine ⟨heap, p, t, ht, (failed_exec_undone_iff _ t none none hpre ht).mpr ?_⟩
  rintro ⟨-, -, -, f, -, -, hf, -⟩
  cases hf

/-- What `elf_load` reads of the header is in its first 64 bytes. -/
theorem header_congr {m m' : Memory} {file : Nat} (hfile : file + 64 ≤ 2 ^ 64)
    (h : ∀ k < 64, m (file + k) = m' (file + k)) : elfHeaderOk m file = elfHeaderOk m' file ∧
      elfEntry m file = elfEntry m' file ∧ elfPhnum m file = elfPhnum m' file := by
  have hbyte : ∀ k < 64, m (add64 file k) = m' (add64 file k) := by
    intro k hk
    rw [add64_eq (by omega)]
    exact h k hk
  have hhalf : ∀ k, k + 2 ≤ 64 → loadLe m (add64 file k) 2 = loadLe m' (add64 file k) 2 := by
    intro k hk
    rw [add64_eq (by omega)]
    refine loadLe_congr fun j hj => ?_
    rw [Nat.add_assoc]
    exact h (k + j) (by omega)
  refine ⟨?_, ?_, hhalf 60 (by decide)⟩
  · unfold elfHeaderOk
    rw [hbyte 1 (by decide), hbyte 2 (by decide), hbyte 3 (by decide), hbyte 4 (by decide),
      hhalf 18 (by decide), hhalf 16 (by decide), show m file = m' file from h 0 (by decide)]
  · unfold elfEntry
    rw [add64_eq (by omega)]
    refine load64_congr fun j hj => ?_
    rw [Nat.add_assoc]
    exact h (24 + j) (by omega)

/-- An executable without segments whose entry point is 0. -/
def zeroEntry : FileRead := ⟨64, elfBytes 0 [] [], by decide, by decide⟩

/-- Every byte of the kernel heap is in a frame of its own region. -/
theorem heap_frame {a : Nat} (hlo : heapStart ≤ a) (hhi : a < heapStart + heapSize) :
    ∃ f k, a = frameAddr f + k ∧ k < 4096 ∧ 0x2200 ≤ f ∧ f < 0x3200 := by
  refine ⟨(a - physicalMapBase) / 4096, (a - physicalMapBase) % 4096, ?_, Nat.mod_lt _ (by decide), ?_⟩
  · unfold frameAddr physicalToVirtual add64 pageSize
    unfold physicalMapBase heapStart heapSize at *
    omega
  · unfold physicalMapBase heapStart heapSize at *
    omega

/-- The new stack and the new directory are ready for `elf_load`, whatever is in the kernel heap. -/
theorem loadPre_of_cloned {s : Machine} {pm : Pmm} {u : Machine} {proc : Process} {f c k : Nat} {m : Memory}
    (hs : s.Wf) (htakes : Takes s.pmm pm {f}) (hclone : Cloned ⟨s.mem, pm⟩ k u c) (hoff : OffHeap c)
    (hdir : proc.pageDir = frameAddr c) (htop : proc.stackTop = frameAddr f + 8 * 511)
    (hout : ∀ q, OffHeap q → ∀ k < 4096, m (frameAddr q + k) = u.mem (frameAddr q + k)) :
    LoadPre ⟨m, u.pmm⟩ proc c f := by
  have hboth : Takes s.pmm u.pmm ({f} ∪ {c}) := htakes.trans hclone.takes
  have hwf : Machine.Wf u := hs.of_takes hboth
  have honly : OnlyIn u.mem m {q | ¬ OffHeap q} := fun q _ hq k hk => hout q (not_not.mp hq) k hk
  have hX : ∀ q, q = c ∨ q ∈ frames u.mem 4 c → q ∉ {q | ¬ OffHeap q} := by
    rw [hclone.frames]
    rintro q (rfl | hq)
    · exact not_not.mpr hoff
    · cases hq
  obtain ⟨htree, hdirc⟩ := hclone.dir.keep (t := ⟨m, u.pmm⟩) hwf honly hX hclone.dir.used
  exact ⟨hs.of_takes hboth, ⟨hdirc, (congrArg _ htree).trans hclone.frames⟩, hdir, htop,
    hboth.used_of_mem (by simp), htakes.ne_taken hclone.takes⟩

theorem writeBytes_offHeap {mem : Memory} {bytes : List (BitVec 8)} {q k : Nat} (hlen : bytes.length = 64)
    (hq : OffHeap q) (hk : k < 4096) :
    writeBytes mem (heapStart + 328) bytes (frameAddr q + k) = mem (frameAddr q + k) := by
  have hstart : heapStart = 0xFFFF800002200000 := rfl
  have hsize : heapSize = 0x1000000 := rfl
  have hout := hq k hk
  generalize hb : heapStart + 328 = b
  exact writeBytes_of_outside (by omega) (by omega)

/-- The header of that file, in a buffer at the beginning of the kernel heap. -/
theorem zeroEntry_header {mem : Memory} :
    elfHeaderOk (writeBytes mem (heapStart + 328) zeroEntry.bytes) (heapStart + 328) = true ∧
      elfEntry (writeBytes mem (heapStart + 328) zeroEntry.bytes) (heapStart + 328) = 0 ∧
        elfPhnum (writeBytes mem (heapStart + 328) zeroEntry.bytes) (heapStart + 328) = 0 := by
  have hlen : zeroEntry.bytes.length = 64 := by decide
  have hstart : heapStart = 0xFFFF800002200000 := rfl
  obtain ⟨hok, hentry, hnum⟩ := @header_congr (writeBytes mem (heapStart + 328) zeroEntry.bytes)
    (writeBytes (fun _ => 0) (heapStart + 328) zeroEntry.bytes) (heapStart + 328) (by omega)
    fun k hk => Option.some.inj ((writeBytes_inside (by omega) (by omega)).trans
      (writeBytes_inside (by omega) (by omega)).symm)
  exact ⟨hok.trans (by decide +kernel), hentry.trans (by decide +kernel), hnum.trans (by decide +kernel)⟩

/-- `elf_load` accepts it, maps nothing and returns 0. -/
theorem elfLoad_zeroEntry {mem : Memory} {pm : Pmm} {proc : Process} {f c : Nat}
    (htakes : Takes mostUsed pm ({f} ∪ {c}))
    (hload : LoadPre ⟨writeBytes mem (heapStart + 328) zeroEntry.bytes, pm⟩ proc c f) :
    ∃ z w, elfLoad ⟨writeBytes mem (heapStart + 328) zeroEntry.bytes, pm⟩ (heapStart + 328) proc none =
      .ok (0, z, w) := by
  obtain ⟨hok, hentry, hnum⟩ := @zeroEntry_header mem
  generalize writeBytes mem (heapStart + 328) zeroEntry.bytes = m at *
  have hstart : heapStart = 0xFFFF800002200000 := rfl
  have hsize : heapSize = 0x1000000 := rfl
  have hfixed : HeadersFixed ⟨m, pm⟩ c f (heapStart + 328) := by
    refine ⟨fun k hk => ?_, fun i hi => ?_⟩
    · obtain ⟨g, j, hg, hj, hlo, hhi⟩ := @heap_frame (heapStart + 328 + k) (by omega) (by omega)
      have hused : pm.Used g := (used_mostUsed (by omega) (by omega)).of_takes htakes
      have hout : ∀ q ∈ ({f} ∪ {c} : Finset Nat), g ≠ q := by
        rintro q hq rfl
        exact htakes.notMem_of_test (used_mostUsed (by omega) (by omega)).2 hq
      exact ⟨g, j, hg, hj, hused, hout c (by simp), hout f (by simp)⟩
    · rw [hnum] at hi
      cases hi
  have hconf : Confined m (heapStart + 328) := by
    intro i hi
    rw [hnum] at hi
    cases hi
  have hcard : ¬ pm.freePages.card < 4 * (roundsUpTo m (heapStart + 328)
      (elfPhnum m (heapStart + 328)) + 1) := by
    have hrounds : roundsUpTo m (heapStart + 328) 0 = 0 := rfl
    have htaken := htakes.card_add
    have hfree := card_mostUsed
    have htwo := Finset.card_union_le {f} {c}
    rw [Finset.card_singleton, Finset.card_singleton] at htwo
    rw [hnum, hrounds]
    omega
  obtain ⟨⟨entry, z, w⟩, hw, hentry', -⟩ :=
    (elfLoad_spec none hload hok hfixed hconf).2.exists_ok fun _ => hcard
  obtain rfl : entry = 0 := hentry'.trans hentry
  exact ⟨z, w, hw⟩

/-- `exec` of that file returns -1, and the process is a user process with new registers. -/
theorem failed_exec_not_undone : ∃ heap p t, ExecPre (execKernel heap p) ∧
    processExec (execKernel heap p) (some zeroEntry) none = .ok (false, t) ∧
    (execKernel heap p).current.isUser = false ∧ t.current.isUser = true ∧
    ¬ ExecUndone (execKernel heap p) t := by
  obtain ⟨p, heap, hp⟩ : ∃ p heap, kmalloc (memInit fun _ => ⟨0, false, 0⟩) sizeofProcess =
      .ok (p, heap) := ⟨_, _, rfl⟩
  obtain ⟨buffer, heap', hbuf, hb⟩ : ∃ buffer heap', kmalloc heap 64 = .ok (buffer, heap') ∧
      buffer = heapStart + 328 := by
    obtain rfl := (Prod.mk.inj (Except.ok.inj hp)).2
    exact ⟨_, _, rfl, by decide +kernel⟩
  obtain ⟨bs, x, n, hrep, hx, -, -⟩ := (kmalloc_spec (memInit_rep _)).of_ok hp
  obtain ⟨bs', y, n', hrep', hy, -, hperm⟩ := (kmalloc_spec hrep).of_ok hbuf
  dsimp only at hx hrep hrep' hy
  have hp0 : p ≠ 0 := by
    have := headerSize_pos
    omega
  have hpre := execKernel_pre hrep hp0
  obtain ⟨a, u, hu⟩ := execPrepare_ok hpre ((by decide : 2 ≤ 24).trans card_mostUsed)
  obtain ⟨f, c, pm, rfl, htakes, hclone, hheap, hcurrent, hpcb⟩ := execPrepare_spec hpre hu
  have hc := free_mostUsed.mp (htakes.free_mono (hclone.takes.free (Finset.mem_singleton_self c)))
  have hlen : zeroEntry.bytes.length = 64 := by decide
  have hload : LoadPre ⟨writeBytes u.machine.mem (heapStart + 328) zeroEntry.bytes, u.machine.pmm⟩
      u.current c f := by
    exact loadPre_of_cloned hpre.wf htakes hclone (offHeap_low hc.2) (by rw [hpcb]) (by rw [hpcb])
      fun q hq k hk => writeBytes_offHeap hlen hq hk
  obtain ⟨z, w, hw⟩ := elfLoad_zeroEntry (htakes.trans hclone.takes) hload
  obtain ⟨heap'', -, hkfree, -⟩ := kfree_spec hrep' (hperm.mem_iff.mpr List.mem_cons_self)
  rw [← hy] at hkfree
  have hne : buffer ≠ 0 := by
    rw [hb]
    decide
  obtain ⟨t, ht⟩ : ∃ t, elfLoadFromPath u (some zeroEntry) u.currentProcess none = .ok (0, t) := by
    unfold elfLoadFromPath
    dsimp only
    rw [if_neg (by decide), hheap, show zeroEntry.size = 64 from rfl,
      show (execKernel heap p).heap = heap from rfl, hbuf]
    simp only [bind, Except.bind]
    rw [if_neg hne, if_neg (by decide)]
    have hw' : elfLoad ⟨writeBytes u.machine.mem buffer zeroEntry.bytes, u.machine.pmm⟩ buffer
        (u.pcb u.currentProcess) none = .ok (0, z, w) := by
      rw [hb]
      exact hw
    rw [hw']
    dsimp only
    rw [hkfree]
    exact ⟨_, rfl⟩
  have hacc : Accepts u (some zeroEntry) := by
    refine ⟨zeroEntry, buffer, heap', rfl, by decide, by decide, ?_, hne, ?_⟩
    · rw [hheap]
      exact hbuf
    · rw [hb]
      exact zeroEntry_header.1
  rcases elfLoadFromPath_cases ht with ⟨hnot, -⟩ | ⟨-, hcur, heapStart', argc, addr, hpcb'⟩
  · exact absurd hacc hnot
  have hexec : ∃ t', processExec (execKernel heap p) (some zeroEntry) none = .ok (false, t') ∧
      t'.current.isUser = true := by
    unfold processExec
    rw [hu]
    simp only [bind, Except.bind]
    rw [ht]
    dsimp only
    rw [if_pos rfl]
    refine ⟨_, rfl, ?_⟩
    rw [Kernel.current]
    dsimp only
    rw [Kernel.modify_currentProcess, Kernel.modify_self, hcur, hpcb']
    rfl
  obtain ⟨t', ht', huser⟩ := hexec
  refine ⟨heap, p, t', hpre, ht', rfl, huser, fun hundone => ?_⟩
  rw [hundone.process.2] at huser
  cases huser

end AcornOS
