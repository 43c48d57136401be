/-
# Loading a program (`kernel/core/elf.c`)

`elf_load` takes an ELF64 image that is somewhere in kernel memory and builds a process from it in
the page directory of that process: a page for every page that a PT_LOAD segment touches, the
segment's bytes copied through the page tables, a page of user stack with the arguments, and the
frame on the kernel stack that takes the process to ring 3.

Section 1 is the model.  The image is bytes in memory behind a pointer, the header structures are
offsets into it, and every header field is the attacker's: address arithmetic wraps at `2^64`.
`elf_header_t` declares `e_flags` with 8 bytes, so the fields after it are 4 bytes further than in
the ELF64 format and `e_phnum` is read at offset 60.  Fields are read where the source reads them, since
the loader may be made to write over its own image.  `get_physical_in` returns 0 for an unmapped page; that value is the parameter
`unmapped` here, so that it can be said that nothing depends on it.

Sections 2 to 4 say what the loader does to a directory.

* `Fresh s root`: an empty directory, as `paging_clone_directory` makes it.
* `Loading s t root N M n`: from `s` to `t` the `n` pages `M` were mapped into it, with the frames `N`.
* `view`: the bytes that a program finds in its pages.
* `mapPagesOf_spec`, `fillRange_spec`: what the loops over pages and over bytes do to these.
-/
import AcornOS.Processes.Pages

namespace AcornOS

open Lib

/-! ## 1. The model -/

/-- A little-endian number of `n` bytes. -/
def loadLe (m : Memory) (a : Nat) : Nat → Nat
  | 0 => 0
  | n + 1 => (m a).toNat + 256 * loadLe m (a + 1) n

/-- `elf64_phdr_t`, without the fields nobody reads. -/
structure Phdr where
  type : Nat
  flags : Nat
  offset : Nat
  vaddr : Nat
  filesz : Nat
  memsz : Nat
deriving Repr, DecidableEq

/-- The program header at an address. -/
def phdrAt (m : Memory) (a : Nat) : Phdr where
  type := loadLe m a 4
  flags := loadLe m (a + 4) 4
  offset := load64 m (a + 8)
  vaddr := load64 m (a + 16)
  filesz := load64 m (a + 32)
  memsz := load64 m (a + 40)

/-- `sizeof(elf64_phdr_t)` -/
def sizeofPhdr : Nat := 56

/-- `PT_LOAD` -/
def ptLoad : Nat := 1

/-- `header->e_entry` -/
def elfEntry (m : Memory) (file : Nat) : Nat := load64 m (add64 file 24)

/-- `header->e_phoff` -/
def elfPhoff (m : Memory) (file : Nat) : Nat := load64 m (add64 file 32)

/-- `header->e_phnum` -/
def elfPhnum (m : Memory) (file : Nat) : Nat := loadLe m (add64 file 60) 2

/-- `&pheaders[i]` -/
def phdrAddr (m : Memory) (file i : Nat) : Nat :=
  add64 (add64 file (elfPhoff m file)) (sizeofPhdr * i)

/-- The checks of `elf_load`: the magic bytes, `ELF_CLASS_64`, `ELF_MACHINE_X86_64` and
`ELF_TYPE_EXEC`. -/
def elfHeaderOk (m : Memory) (file : Nat) : Bool :=
  m file == 0x7F && m (add64 file 1) == 0x45 && m (add64 file 2) == 0x4C &&
    m (add64 file 3) == 0x46 && m (add64 file 4) == 2 && loadLe m (add64 file 18) 2 == 0x3E &&
    loadLe m (add64 file 16) 2 == 2

/-- `for(uint64_t j = 0; j < n; j++) dst[j] = src[j];`, or `dst[j] = 0` without a source. -/
def fillBytes (m : Memory) (dst : Nat) (src : Option Nat) (n : Nat) : Memory :=
  loop (fun j m => Function.update m (add64 dst j) (src.elim 0 fun a => m (add64 a j))) n m

/-- The loops that fill a range of virtual addresses page by page, from the image or with zeroes. -/
def fillRange (unmapped pageDir : Nat) (src : Option Nat) (va remaining : Nat) (s : Machine) :
    Machine :=
  if remaining = 0 then s
  else
    let pageOffset := va % pageSize
    let physical := getPhysicalOr unmapped s pageDir (va / pageSize * pageSize)
    let dst := add64 (physicalToVirtual physical) pageOffset
    let n := min (pageSize - pageOffset) remaining
    fillRange unmapped pageDir (src.map fun a => add64 a n) (add64 va n) (remaining - n)
      { s with mem := fillBytes s.mem dst src n }
termination_by remaining
decreasing_by
  have : va % pageSize < pageSize := Nat.mod_lt _ (by decide)
  omega

namespace Phdr

/-- `flags` -/
def pageFlags (ph : Phdr) : Nat :=
  pagePresent + pageUser + if ph.flags / 2 % 2 = 1 then pageWritable else 0

/-- `virtual_address` -/
def start (ph : Phdr) : Nat := ph.vaddr / pageSize * pageSize

/-- `virtual_address_end` -/
def stop (ph : Phdr) : Nat := pageCeil (add64 ph.vaddr ph.memsz)

/-- The rounds of the loop from `virtual_address` to `virtual_address_end`. -/
def pages (ph : Phdr) : Nat := (ph.stop - ph.start) / pageSize

/-- `bss_va` -/
def bss (ph : Phdr) : Nat := add64 ph.vaddr ph.filesz

/-- The bytes from `bss_va` to `bss_end`. -/
def bssSize (ph : Phdr) : Nat := add64 ph.vaddr ph.memsz - ph.bss

end Phdr

/-- The loop that maps the pages of a segment. -/
def mapPagesOf (pageDir : Nat) (ph : Phdr) (s : Machine) : Except Halt Machine :=
  forRange (fun i s => mapZeroed pageDir (ph.start + i * pageSize) ph.pageFlags s) ph.pages s

/-- What `elf_load` does for a PT_LOAD segment whose header stays as it is. -/
def loadSegment (unmapped pageDir file : Nat) (ph : Phdr) (s : Machine) : Except Halt Machine := do
  let s ← mapPagesOf pageDir ph s
  let s := fillRange unmapped pageDir (some (add64 file ph.offset)) ph.vaddr ph.filesz s
  .ok (fillRange unmapped pageDir none ph.bss ph.bssSize s)

/-- What it does for one whose header is at `a`: each of the three loops takes the fields from memory
again. -/
def loadSegmentAt (unmapped pageDir file a : Nat) (s : Machine) : Except Halt Machine := do
  let s ← mapPagesOf pageDir (phdrAt s.mem a) s
  let ph := phdrAt s.mem a
  let s := fillRange unmapped pageDir (some (add64 file ph.offset)) ph.vaddr ph.filesz s
  let ph := phdrAt s.mem a
  .ok (fillRange unmapped pageDir none ph.bss ph.bssSize s)

/-- A round of the loop over the program headers; `x` is `heap_start` and the machine.  The round tests
`i < header->e_phnum` itself: once that is false nothing changes any more, and it stays false. -/
def loadHeader (unmapped pageDir file pheaders i : Nat) (x : Nat × Machine) :
    Except Halt (Nat × Machine) :=
  let a := add64 pheaders (sizeofPhdr * i)
  let ph := phdrAt x.2.mem a
  if i < elfPhnum x.2.mem file ∧ ph.type = ptLoad then do
    let s ← loadSegmentAt unmapped pageDir file a x.2
    .ok (max x.1 ph.stop, s)
  else .ok x

/-- The largest `uint16_t`. -/
def uint16Max : Nat := 65535

/-- The loop over the program headers, of which there are at most as many. -/
def loadSegments (unmapped pageDir file : Nat) (s : Machine) : Except Halt (Nat × Machine) :=
  forRange (loadHeader unmapped pageDir file (add64 file (elfPhoff s.mem file))) uint16Max (0, s)

/-! ### The user stack -/

/-- `MAX_ARGV_BLOCK_SIZE` -/
def maxArgvBlockSize : Nat := 2048

/-- `MAX_ARGV_COUNT` -/
def maxArgvCount : Nat := 32

/-- Bytes one after the other. -/
def writeBytes (m : Memory) (a : Nat) : List (BitVec 8) → Memory
  | [] => m
  | b :: bs => writeBytes (Function.update m a b) (add64 a 1) bs

/-- Words one after the other. -/
def writeWords (m : Memory) (a : Nat) : List Nat → Memory
  | [] => m
  | w :: ws => writeWords (store64 m a w) (add64 a 8) ws

/-- The loop of `build_argv_stack` over the strings, the last one first: `string_addr` and `cursor`, or
`none` if they are too large. -/
def placeStrings (pageBase pageTop : Nat) :
    List (List (BitVec 8)) → Memory → Option (List Nat × Nat) × Memory
  | [], m => (some ([], pageTop), m)
  | arg :: args, m =>
    match placeStrings pageBase pageTop args m with
    | (none, m) => (none, m)
    | (some (stringAddr, cursor), m) =>
      let len := arg.length + 1
      if pageTop - (cursor - len) > maxArgvBlockSize then (none, m)
      else
        let cursor := cursor - len
        (some (cursor :: stringAddr, cursor),
          writeBytes m (add64 pageBase (cursor % pageSize)) (arg ++ [0]))

/-- The part of `build_argv_stack` that writes: the strings, and the pointer array just below them. -/
def placeArgv (pageBase pageTop : Nat) (args : List (List (BitVec 8))) (m : Memory) :
    Option (Nat × Nat) × Memory :=
  match placeStrings pageBase pageTop args m with
  | (none, m) => (none, m)
  | (some (stringAddr, cursor), m) =>
    let cursor := cursor / 8 * 8
    let pointerArrayBytes := (args.length + 1) * 8
    if pageTop - (cursor - pointerArrayBytes) > maxArgvBlockSize then (none, m)
    else
      let cursor := cursor - pointerArrayBytes
      (some (args.length, cursor),
        writeWords m (add64 pageBase (cursor % pageSize)) (stringAddr ++ [0]))

/-- `build_argv_stack`: `argc` and the address of the pointer array, or `none` for 0.  `argv` is `none`
for NULL, and its strings are without their terminators. -/
def buildArgvStack (unmapped pageDir stackVirtual : Nat) (argv : Option (List (List (BitVec 8))))
    (s : Machine) : Option (Nat × Nat) × Memory :=
  match argv with
  | none => (none, s.mem)
  | some args =>
    if args = [] ∨ args.length ≥ maxArgvCount then (none, s.mem)
    else
      let pageBase := physicalToVirtual (getPhysicalOr unmapped s pageDir stackVirtual)
      placeArgv pageBase (stackVirtual + pageSize) args s.mem

/-- The frame for ring 3 at the top of the kernel stack. -/
def entryFrame (m : Memory) (stackTop userStackTop file : Nat) : Memory :=
  let m := store64 m stackTop 0x23
  let m := store64 m (sub64 stackTop 8) userStackTop
  let m := store64 m (sub64 stackTop 16) 0x200
  let m := store64 m (sub64 stackTop 24) 0x2B
  store64 m (sub64 stackTop 32) (elfEntry m file)

/-- The PCB of a loaded process. -/
def loadedProcess (p : Process) (heapStart argc argvUserAddr : Nat) : Process :=
  let stackTop := sub64 p.stackTop 32
  { p with
    stackTop := stackTop
    cpu := { p.cpu with
      rsp := BitVec.ofNat 64 stackTop, rip := BitVec.ofNat 64 stackTop, rflags := 0x200,
      cs := 0x2B, ds := 0x10, ss := 0x10, rdi := BitVec.ofNat 64 argc,
      rsi := BitVec.ofNat 64 argvUserAddr }
    isUser := true
    heapStart := heapStart
    heapEnd := heapStart }

/-- The part of `elf_load` after the segments: the user stack, the arguments and the frame. -/
def loadStack (unmapped file : Nat) (p : Process) (argv : Option (List (List (BitVec 8))))
    (heapStart : Nat) (s : Machine) : Except Halt (Nat × Process × Machine) := do
  let s ← mapZeroed p.pageDir userStackPage (pagePresent + pageWritable + pageUser) s
  let (args, m) := buildArgvStack unmapped p.pageDir userStackPage argv s
  let userStackTop := args.elim (userStackPage + pageSize - 8) Prod.snd
  let m := entryFrame m p.stackTop userStackTop file
  .ok (elfEntry m file,
    loadedProcess p heapStart (args.elim 0 Prod.fst) (args.elim 0 Prod.snd), { s with mem := m })

/-- `elf_load`: the entry point, or 0, with what `get_physical_in` returns for an unmapped page. -/
def elfLoadOr (unmapped : Nat) (s : Machine) (file : Nat) (p : Process)
    (argv : Option (List (List (BitVec 8)))) : Except Halt (Nat × Process × Machine) :=
  if elfHeaderOk s.mem file then do
    let (heapStart, s) ← loadSegments unmapped p.pageDir file s
    loadStack unmapped file p argv heapStart s
  else .ok (0, p, s)

/-- `elf_load` -/
def elfLoad : Machine → Nat → Process → Option (List (List (BitVec 8))) →
    Except Halt (Nat × Process × Machine) := elfLoadOr 0

/-! ## 2. The directory while it is being filled -/

/-- An empty directory. -/
structure Fresh (s : Machine) (root : Nat) : Prop where
  dir : Dir s root
  frames : frames s.mem 4 root = []

/-- The page an address is walked to: the page tables know 48 bits. -/
def pageNo (v : Nat) : Nat := v % 2 ^ 48 / pageSize

/-- What a program finds at an address. -/
def view (m : Memory) (root v : Nat) : Option (BitVec 8) :=
  (leaf m root v).map fun f => m (frameAddr f + v % 4096)

/-- `Loading s t root N M n`: from `s` to `t` the directory was given the pages `M`, in `n` rounds of
`pmm_alloc` and `map_page_in`, and the frames `N` were taken for that. -/
structure Loading (s t : Machine) (root : Nat) (N : Finset Nat) (M : Set Nat) (n : Nat) : Prop where
  ext : Extended s t root N
  few : N.card ≤ 4 * n
  bare : Bare 3 t.mem root
  upper : ∀ i, 256 ≤ i → i < 512 → entry t.mem root i = entry s.mem root i
  mapped : ∀ v, LowerHalf v → ((∃ f, leaf t.mem root v = some f) ↔ v / pageSize ∈ M)

/-- An address that the loader does not write to: it is in a page that is in use, but not for the
directory or for the process's kernel stack. -/
def Fixed (s : Machine) (root stack a : Nat) : Prop :=
  ∃ f k, a = frameAddr f + k ∧ k < 4096 ∧ s.pmm.Used f ∧ f ≠ root ∧ f ≠ stack

section Filling

variable {s t : Machine} {root stack va n c f : Nat} {N : Finset Nat} {M : Set Nat}

theorem Cloned.fresh {k : Nat} (h : Cloned s k t root) : Fresh t root := ⟨h.dir, h.frames⟩

/-- The entries of a page of zeroes. -/
theorem entry_blank {m : Memory} {q i : Nat} (hblank : ∀ k < 4096, m (frameAddr q + k) = 0)
    (hi : i < 512) : entry m q i = 0 := by
  rw [← entry_zero q i]
  unfold entry
  refine load64_congr fun k hk => ?_
  rw [Nat.add_assoc]
  exact hblank (8 * i + k) (by omega)

/-- Such a page is an empty directory. -/
theorem Fresh.of_blank (hused : s.pmm.Used root)
    (hblank : ∀ k < 4096, s.mem (frameAddr root + k) = 0) : Fresh s root := by
  have hentry : ∀ i < 512, entry s.mem root i = 0 := fun i hi => entry_blank hblank hi
  have htree : tree s.mem 4 root = [] :=
    nodes_eq_nil fun i hi => kids_blank (hentry i (hi.trans_le (levelWidth_le _)))
  have hframes : AcornOS.frames s.mem 4 root = [] := congrArg _ htree
  refine ⟨⟨?_, ?_, ?_⟩, hframes⟩
  · rw [hframes]
    exact List.nodup_singleton root
  · rintro q (rfl | hq)
    · exact hused
    · rw [hframes] at hq
      cases hq
  · intro p hp
    rw [htree] at hp
    cases hp

theorem Fresh.leaf (h : Fresh s root) (v : Nat) : leaf s.mem root v = none := by
  cases hleaf : AcornOS.leaf s.mem root v with
  | none => rfl
  | some f =>
    have hmem := mem_frames_of_leaf hleaf
    rw [h.frames] at hmem
    cases hmem

theorem Fresh.loading (h : Fresh s root) : Loading s s root ∅ ∅ 0 where
  ext := Extended.refl h.dir
  few := Nat.le_refl 0
  bare p hp := by
    have hmem : p ∈ AcornOS.frames s.mem 4 root := List.mem_map.mpr ⟨_, hp, rfl⟩
    rw [h.frames] at hmem
    cases hmem
  upper _ _ _ := rfl
  mapped v _ := by simp [h.leaf v]

theorem Loading.wf (h : Loading s t root N M n) (hs : s.Wf) : t.Wf := hs.of_takes h.ext.takes

/-- All frames of the directory are new. -/
theorem Loading.mem_of_leaf (h : Loading s t root N M n) (hfresh : Fresh s root)
    (hleaf : leaf t.mem root va = some f) : f ∈ N := by
  rcases h.ext.mem f (mem_frames_of_leaf hleaf) with hmem | hmem
  · rw [hfresh.frames] at hmem
    cases hmem
  · exact hmem

theorem Loading.only (h : Loading s t root N M n) (hfresh : Fresh s root) :
    OnlyIn s.mem t.mem (insert root N) := by
  refine h.ext.only.mono ?_
  rw [hfresh.frames]
  rintro q (hq | hq)
  · exact Or.inl (List.mem_singleton.mp hq)
  · exact Or.inr hq

theorem Loading.fixed {a : Nat} (h : Loading s t root N M n) (hs : s.Wf) (hfresh : Fresh s root)
    (ha : Fixed s root stack a) : t.mem a = s.mem a := by
  obtain ⟨f, k, rfl, hk, hf, hroot, -⟩ := ha
  refine h.only hfresh f (hs.lt_of_used hf) ?_ k hk
  rintro (hmem | hmem)
  · exact hroot hmem
  · exact h.ext.takes.notMem_of_test hf.2 hmem

/-- A page of the directory is not where a fixed address is. -/
theorem Loading.fixed_apart {a : Nat} (h : Loading s t root N M n) (hs : s.Wf)
    (hfresh : Fresh s root) (hleaf : leaf t.mem root va = some f) (ha : Fixed s root stack a) :
    a < frameAddr f ∨ frameAddr f + 4096 ≤ a := by
  obtain ⟨g, k, rfl, hk, hg, -, -⟩ := ha
  have hgf : g ≠ f := by
    rintro rfl
    exact h.ext.takes.notMem_of_test hg.2 (h.mem_of_leaf hfresh hleaf)
  have := frameAddr_apart (hs.lt_of_used hg) (frames_lt (mem_frames_of_leaf hleaf)) hgf
  omega

/-- The view depends on the page's frame and on its bytes. -/
theorem view_congr {m m' : Memory} {v : Nat} (hleaf : leaf m' root v = leaf m root v)
    (hbyte : ∀ f, leaf m root v = some f →
      m' (frameAddr f + v % 4096) = m (frameAddr f + v % 4096)) : view m' root v = view m root v := by
  unfold view
  rw [hleaf]
  cases hf : leaf m root v with
  | none => rfl
  | some f => rw [Option.map_some, Option.map_some, hbyte f hf]

/-- What is written to a page of the directory changes that page's bytes only. -/
theorem Loading.write {m : Memory} (h : Loading s t root N M n) (hs : s.Wf)
    (hleaf : leaf t.mem root va = some f) (honly : OnlyIn t.mem m {f}) :
    Loading s ⟨m, t.pmm⟩ root N M n ∧ ∀ v, leaf m root v = leaf t.mem root v := by
  have ht := h.wf hs
  obtain ⟨htree, hdir⟩ := h.ext.dir.keep_page ht hleaf honly
  have hfollow := h.ext.dir.follow_page ht hleaf honly
  have hframes : AcornOS.frames m 4 root = AcornOS.frames t.mem 4 root := congrArg _ htree
  refine ⟨⟨⟨h.ext.takes, h.ext.only.trans (honly.mono ?_), hdir, ?_⟩, h.few, ?_, ?_, ?_⟩,
    fun v => hfollow _⟩
  · rintro q rfl
    rcases h.ext.mem q (mem_frames_of_leaf hleaf) with hmem | hmem
    · exact Or.inl (List.mem_cons_of_mem _ hmem)
    · exact Or.inr hmem
  · intro q hq
    rw [hframes] at hq
    exact h.ext.mem q hq
  · exact h.bare.write_page h.ext.dir ht hleaf honly (by decide)
  · intro i hlo hhi
    exact (h.ext.dir.table_entry ht hleaf honly (Or.inl rfl) (Nat.succ_pos 3) hhi).trans
      (h.upper i hlo hhi)
  · intro v hv
    rw [show leaf m root v = leaf t.mem root v from hfollow _]
    exact h.mapped v hv

/-! ### Mapping pages -/

theorem pageNo_of_lower {v : Nat} (hv : LowerHalf v) : pageNo v = v / pageSize := by
  unfold LowerHalf at hv
  unfold pageNo
  rw [Nat.mod_eq_of_lt (by omega)]

/-- Addresses that agree in their low 48 bits are mapped alike. -/
theorem mapZeroed_mod (pageDir va flags : Nat) (s : Machine) :
    mapZeroed pageDir (va % 2 ^ 48) flags s = mapZeroed pageDir va flags s := by
  unfold mapZeroed
  simp only [mapPageIn_mod]

/-- One page of a segment. -/
theorem Loading.mapZeroed (flags : Nat) (h : Loading s t root N M n) (hs : s.Wf)
    (hva : LowerHalf (va % 2 ^ 48)) (hflags : flags % 2 = 1) :
    Ensures (mapZeroed (frameAddr root) va flags t) (fun _ => s.pmm.freePages.card < 4 * (n + 1))
      (fun u => ∃ N', Loading s u root N' (insert (pageNo va) M) (n + 1) ∧
        ∀ v, LowerHalf v → (v / pageSize = pageNo va → view u.mem root v = some 0) ∧
          (v / pageSize ≠ pageNo va → view u.mem root v = view t.mem root v)) := by
  have hcard := h.ext.takes.card_add
  have hfew := h.few
  rw [← mapZeroed_mod]
  refine (mapZeroed_spec flags h.ext.dir (h.wf hs) hva hflags).mono (fun _ he => by omega) ?_
  rintro u ⟨f, N', hmap⟩
  have hsame : ∀ v, v / pageSize = pageNo va → leaf u.mem root v = some f := by
    intro v hv
    rw [leaf, path_of_page hv]
    exact hmap.here
  refine ⟨N ∪ N', ⟨h.ext.trans hmap.ext, ?_, hmap.bare 3 (by decide) h.bare, ?_, ?_⟩, ?_⟩
  · have := Finset.card_union_le N N'
    have := hmap.few
    omega
  · exact fun i hlo hhi => (hmap.upper i hlo hhi).trans (h.upper i hlo hhi)
  · intro v hv
    by_cases hpage : v / pageSize = pageNo va
    · simp [hsame v hpage, hpage]
    · rw [hmap.others v hv hpage, h.mapped v hv, Set.mem_insert_iff]
      simp [hpage]
  · refine fun v hv => ⟨fun hpage => ?_, fun hpage => ?_⟩
    · rw [view, hsame v hpage, Option.map_some, hmap.zero _ (Nat.mod_lt _ (by decide))]
    · refine view_congr (hmap.others v hv hpage) fun g hg => ?_
      exact hmap.kept v g hv hg _ (Nat.mod_lt _ (by decide))

end Filling

/-- The pages that a segment's loop maps. -/
def Phdr.pageSet (ph : Phdr) : Set Nat := {q | ∃ i < ph.pages, q = pageNo (ph.start + i * pageSize)}

/-- None of them is reached through the upper half of the PML4. -/
def Phdr.Low (ph : Phdr) : Prop :=
  ∀ i < ph.pages, LowerHalf ((ph.start + i * pageSize) % 2 ^ 48)

section Segments

variable {s t : Machine} {root n : Nat} {N : Finset Nat} {M : Set Nat} {ph : Phdr}

theorem Phdr.pageFlags_mod (ph : Phdr) : ph.pageFlags % 2 = 1 := by
  unfold Phdr.pageFlags pagePresent pageUser pageWritable
  split <;> rfl

/-- **The loop over the pages of a segment.** -/
theorem mapPagesOf_spec (h : Loading s t root N M n) (hs : s.Wf) (hlow : ph.Low) :
    Ensures (mapPagesOf (frameAddr root) ph t)
      (fun _ => s.pmm.freePages.card < 4 * (n + ph.pages))
      (fun u => ∃ N', Loading s u root N' (M ∪ ph.pageSet) (n + ph.pages) ∧
        ∀ v, LowerHalf v → (v / pageSize ∈ ph.pageSet → view u.mem root v = some 0) ∧
          (v / pageSize ∉ ph.pageSet → view u.mem root v = view t.mem root v)) := by
  let upTo (k : Nat) : Set Nat := {q | ∃ i < k, q = pageNo (ph.start + i * pageSize)}
  refine @forRange_invariant Halt Machine _ _ (fun k u => ∃ N',
    Loading s u root N' (M ∪ upTo k) (n + k) ∧ ∀ v, LowerHalf v →
      (v / pageSize ∈ upTo k → view u.mem root v = some 0) ∧
      (v / pageSize ∉ upTo k → view u.mem root v = view t.mem root v)) ph.pages t
    ⟨N, ?_, fun v _ => ⟨by simp [upTo], fun _ => rfl⟩⟩ ?_
  · have hnone : upTo 0 = ∅ := by simp [upTo]
    rw [hnone, Set.union_empty]
    exact h
  · rintro k u hk ⟨N', hu, hview⟩
    have hupTo : ∀ q, q ∈ upTo (k + 1) ↔
        q = pageNo (ph.start + k * pageSize) ∨ q ∈ upTo k := by
      intro q
      constructor
      · rintro ⟨i, hi, rfl⟩
        rcases Nat.lt_succ_iff_lt_or_eq.mp hi with hi | rfl
        · exact Or.inr ⟨i, hi, rfl⟩
        · exact Or.inl rfl
      · rintro (rfl | ⟨i, hi, rfl⟩)
        · exact ⟨k, Nat.lt_succ_self k, rfl⟩
        · exact ⟨i, Nat.lt_succ_of_lt hi, rfl⟩
    refine (hu.mapZeroed ph.pageFlags hs (hlow k hk) ph.pageFlags_mod).mono (fun _ he => by omega) ?_
    rintro w ⟨N'', hw, hview'⟩
    refine ⟨N'', ?_, fun v hv => ⟨fun hmem => ?_, fun hmem => ?_⟩⟩
    · have hset : M ∪ upTo (k + 1) = insert (pageNo (ph.start + k * pageSize)) (M ∪ upTo k) := by
        ext q
        rw [Set.mem_union, hupTo, Set.mem_insert_iff, Set.mem_union, or_left_comm]
      rw [hset]
      exact hw
    · rcases (hupTo _).mp hmem with hpage | hmem
      · exact (hview' v hv).1 hpage
      · by_cases hpage : v / pageSize = pageNo (ph.start + k * pageSize)
        · exact (hview' v hv).1 hpage
        · exact ((hview' v hv).2 hpage).trans ((hview v hv).1 hmem)
    · rw [hupTo, not_or] at hmem
      exact ((hview' v hv).2 hmem.1).trans ((hview v hv).2 hmem.2)

/-! ## 3. Filling a range -/

/-- The bytes that a chunk takes from its source. -/
theorem fillBytes_congr {src src' : Option Nat} (h : ∀ (m : Memory) j,
    (src.elim 0 fun a => m (add64 a j)) = src'.elim 0 fun a => m (add64 a j)) (m : Memory) (dst n : Nat) :
    fillBytes m dst src n = fillBytes m dst src' n := by
  unfold fillBytes
  congr 1
  funext j m
  rw [h]

/-- **The invariant rule for the loop over a range**: it works in chunks that end with a page. -/
theorem fillRange_invariant {I : Nat → Machine → Prop} {unmapped pageDir va k : Nat} {src : Option Nat}
    {s : Machine} (hend : va + k < 2 ^ 64) (h0 : I 0 s)
    (hstep : ∀ i n t, 0 < n → i + n ≤ k → (va + i) % pageSize + n ≤ pageSize → I i t →
      I (i + n) { t with mem := fillBytes t.mem (add64 (physicalToVirtual (getPhysicalOr unmapped t pageDir
        ((va + i) / pageSize * pageSize))) ((va + i) % pageSize)) (src.map fun a => add64 a i) n }) :
    I k (fillRange unmapped pageDir src va k s) := by
  have hrest : ∀ r i (src' : Option Nat) (t : Machine), i + r = k →
      (∀ (m : Memory) j, (src'.elim 0 fun a => m (add64 a j)) = src.elim 0 fun a => m (add64 a (i + j))) →
      I i t → I k (fillRange unmapped pageDir src' (va + i) r t) := by
    intro r
    induction r using Nat.strong_induction_on with
    | _ r ih =>
      intro i src' t hr hsrc ht
      rw [fillRange]
      split
      · rename_i hzero
        rwa [show k = i by omega]
      · rename_i hmore
        have hoff : (va + i) % pageSize < pageSize := Nat.mod_lt _ (by decide)
        obtain ⟨c, hc⟩ : ∃ c, c = min (pageSize - (va + i) % pageSize) r := ⟨_, rfl⟩
        have hnext : add64 (va + i) c = va + (i + c) := by
          rw [add64_eq (by omega), Nat.add_assoc]
        have hbytes : ∀ (m : Memory) j, (src'.elim 0 fun a => m (add64 a j)) =
            (src.map fun a => add64 a i).elim 0 fun a => m (add64 a j) := by
          intro m j
          rw [hsrc m j]
          cases src with
          | none => rfl
          | some a => rw [Option.map_some, Option.elim_some, Option.elim_some, add64_add64]
        dsimp only
        rw [← hc, hnext, fillBytes_congr hbytes]
        refine ih (r - c) (by omega) (i + c) _ _ (by omega) (fun m j => ?_)
          (hstep i c t (by omega) (by omega) (by omega) ht)
        calc (src'.map fun a => add64 a c).elim 0 (fun a => m (add64 a j))
            = src'.elim 0 fun a => m (add64 a (c + j)) := by
              cases src' with
              | none => rfl
              | some a => rw [Option.map_some, Option.elim_some, Option.elim_some, add64_add64]
          _ = src.elim 0 fun a => m (add64 a (i + c + j)) := by rw [hsrc m (c + j), Nat.add_assoc]
  exact hrest k 0 src s (Nat.zero_add k) (fun m j => by rw [Nat.zero_add]) h0

/-- The loop over the bytes of one chunk. -/
theorem fillBytes_spec (m : Memory) {dst k : Nat} (src : Option Nat) (hdst : dst + k ≤ 2 ^ 64) :
    (∀ x, x < dst ∨ dst + k ≤ x → fillBytes m dst src k x = m x) ∧
      ((∀ a, src = some a → ∀ j < k, add64 a j < dst ∨ dst + k ≤ add64 a j) →
        ∀ j < k, fillBytes m dst src k (dst + j) = src.elim 0 fun a => m (add64 a j)) := by
  refine @loop_invariant Memory
    (fun j m => Function.update m (add64 dst j) (src.elim 0 fun a => m (add64 a j)))
    (fun i m' => (∀ x, x < dst ∨ dst + k ≤ x → m' x = m x) ∧
      ((∀ a, src = some a → ∀ j < k, add64 a j < dst ∨ dst + k ≤ add64 a j) →
        ∀ j < i, m' (dst + j) = src.elim 0 fun a => m (add64 a j))) k m
    ⟨fun _ _ => rfl, fun _ => by simp⟩ ?_
  rintro i m' hi ⟨hout, hin⟩
  rw [@add64_eq dst i (by omega)]
  refine ⟨fun x hx => ?_, fun hsrc j hj => ?_⟩
  · rw [Function.update_of_ne (by omega), hout x hx]
  · rcases Nat.lt_succ_iff_lt_or_eq.mp hj with hj | rfl
    · rw [Function.update_of_ne (by omega), hin hsrc j hj]
    · rw [Function.update_self]
      cases src with
      | none => rfl
      | some a => exact hout _ (hsrc a rfl j hi)

/-- A chunk stays within its page. -/
theorem onlyIn_fillBytes {m : Memory} {f off k : Nat} (src : Option Nat) (hf : f < 2 ^ 40)
    (hk : off + k ≤ 4096) : OnlyIn m (fillBytes m (frameAddr f + off) src k) {f} := by
  have hend := frameAddr_add_le f
  obtain ⟨hout, -⟩ := @fillBytes_spec m (frameAddr f + off) k src (by omega)
  intro q hq hqf j hj
  have := frameAddr_apart hq hf hqf
  exact hout _ (by omega)

/-- `Covers M va k`: the bytes from `va` on are in pages of `M`. -/
def Covers (M : Set Nat) (va k : Nat) : Prop :=
  ∀ i < k, LowerHalf ((va + i) % 2 ^ 48) ∧ pageNo (va + i) ∈ M

/-- One chunk: it ends with the page it starts in. -/
theorem Loading.fillChunk {va k : Nat} (stack : Nat) (src : Option Nat) (h : Loading s t root N M n) (hs : s.Wf)
    (hfresh : Fresh s root) (hlow : LowerHalf (va % 2 ^ 48)) (hpage : pageNo va ∈ M)
    (hk : va % pageSize + k ≤ pageSize) :
    ∃ m, (∀ unmapped, fillBytes t.mem (add64 (physicalToVirtual
        (getPhysicalOr unmapped t (frameAddr root) (va / pageSize * pageSize))) (va % pageSize))
        src k = m) ∧
      Loading s ⟨m, t.pmm⟩ root N M n ∧
      (va + k ≤ 2 ^ 47 → (∀ a, src = some a → ∀ j < k, Fixed s root stack (add64 a j)) →
        ∀ v, LowerHalf v → view m root v = if va ≤ v ∧ v < va + k then
          some (src.elim 0 fun a => s.mem (add64 a (v - va))) else view t.mem root v) := by
  have hk : va % 4096 + k ≤ 4096 := hk
  obtain ⟨f, hf⟩ := (h.mapped _ hlow).mpr hpage
  have hend := frameAddr_add_le f
  have hphys : ∀ unmapped, add64 (physicalToVirtual (getPhysicalOr unmapped t (frameAddr root)
      (va / pageSize * pageSize))) (va % pageSize) = frameAddr f + va % 4096 := by
    intro unmapped
    have halign : path (va / pageSize * pageSize % 2 ^ 48) = path (va % 2 ^ 48) := by
      rw [path_mod, path_mod, path_align]
    have hlow' : LowerHalf (va / pageSize * pageSize % 2 ^ 48) := by
      unfold LowerHalf pageSize at *
      omega
    have hzero : va / pageSize * pageSize % 2 ^ 48 % pageSize = 0 := by
      unfold pageSize
      omega
    rw [← getPhysicalOr_mod, getPhysicalOr_eq unmapped h.ext.dir hlow', leaf, halign,
      show follow t.mem root (path (va % 2 ^ 48)) = some f from hf, Option.elim_some, hzero,
      Nat.add_zero, physicalToVirtual_page]
    have : va % pageSize = va % 4096 := rfl
    rw [this, add64_eq (by omega)]
  obtain ⟨hout, hin⟩ := @fillBytes_spec t.mem (frameAddr f + va % 4096) k src (by omega)
  obtain ⟨hload, hleaf⟩ :=
    h.write hs hf (onlyIn_fillBytes src (frames_lt (mem_frames_of_leaf hf)) hk)
  refine ⟨_, fun unmapped => by rw [hphys unmapped], hload, fun hva hsrc v hv => ?_⟩
  have hsrc' : ∀ a, src = some a → ∀ j < k, add64 a j < frameAddr f + va % 4096 ∨
      frameAddr f + va % 4096 + k ≤ add64 a j := by
    intro a ha j hj
    have := h.fixed_apart hs hfresh hf (hsrc a ha j hj)
    omega
  have hbytes := hin hsrc'
  generalize fillBytes t.mem (frameAddr f + va % 4096) src k = m at *
  have hmod : va % 2 ^ 48 = va ∨ k = 0 := by omega
  unfold LowerHalf at hv hlow
  split
  · rename_i hrange
    have hvf : leaf t.mem root v = some f := by
      rw [leaf, path_of_page (w := va % 2 ^ 48) (by unfold pageSize; omega)]
      exact hf
    have hoff : frameAddr f + v % 4096 = frameAddr f + va % 4096 + (v - va) := by omega
    rw [view, hleaf v, hvf, Option.map_some, hoff, hbytes (v - va) (by omega)]
    cases src with
    | none => rfl
    | some a =>
      exact congrArg some (h.fixed hs hfresh (hsrc a rfl (v - va) (by omega)))
  · rename_i hrange
    refine view_congr (hleaf v) fun g hg => hout _ ?_
    by_cases hgf : g = f
    · subst hgf
      have hsame := h.ext.dir.leaf_inj hv hlow hg hf
      unfold pageSize at hsame
      omega
    · have := frameAddr_apart (frames_lt (mem_frames_of_leaf hg))
        (frames_lt (mem_frames_of_leaf hf)) hgf
      omega

/-- **The loop over a range of addresses**, all of them in mapped pages: the answer for unmapped pages
does not matter. -/
theorem fillRange_spec (stack : Nat) (hs : s.Wf) (hfresh : Fresh s root) (k : Nat) :
    ∀ {t : Machine} {va : Nat} (src : Option Nat), Loading s t root N M n → Covers M va k →
    ∃ u, (∀ unmapped, fillRange unmapped (frameAddr root) src va k t = u) ∧
      Loading s u root N M n ∧
      (va + k ≤ 2 ^ 47 → (∀ a, src = some a → ∀ j < k, Fixed s root stack (add64 a j)) →
        ∀ v, LowerHalf v → view u.mem root v = if va ≤ v ∧ v < va + k then
          some (src.elim 0 fun a => s.mem (add64 a (v - va))) else view t.mem root v) := by
  induction k using Nat.strong_induction_on with
  | _ k ih =>
    intro t va src h hcovers
    by_cases hk0 : k = 0
    · subst hk0
      refine ⟨t, fun unmapped => by rw [fillRange, if_pos rfl], h, fun _ _ v _ => ?_⟩
      rw [if_neg (by omega)]
    · obtain ⟨hlow, hpage⟩ := hcovers 0 (Nat.pos_of_ne_zero hk0)
      rw [Nat.add_zero] at hlow hpage
      have hoff : va % pageSize < pageSize := Nat.mod_lt _ (by decide)
      obtain ⟨c, hc⟩ : ∃ c, c = min (pageSize - va % pageSize) k := ⟨_, rfl⟩
      obtain ⟨m, hm, hload, hview⟩ :=
        h.fillChunk (k := c) stack src hs hfresh hlow hpage (by omega)
      have hcovers' : Covers M (add64 va c) (k - c) := by
        intro i hi
        have hmod : (add64 va c + i) % 2 ^ 48 = (va + (c + i)) % 2 ^ 48 := by
          unfold add64
          omega
        unfold pageNo
        rw [hmod]
        exact hcovers (c + i) (by omega)
      obtain ⟨u, hu, hload', hview'⟩ :=
        ih (k - c) (by omega) (src.map fun a => add64 a c) hload hcovers'
      refine ⟨u, fun unmapped => ?_, hload', fun hva hsrc v hv => ?_⟩
      · rw [fillRange, if_neg hk0]
        dsimp only
        rw [← hc, hm unmapped]
        exact hu unmapped
      · rw [add64_eq (by omega)] at hview'
        rw [hview' (by omega) ?_ v hv, hview (by omega) ?_ v hv]
        · by_cases hlt : v < va + c
          · rw [if_neg (by omega)]
            by_cases hge : va ≤ v
            · rw [if_pos ⟨hge, hlt⟩, if_pos ⟨hge, by omega⟩]
            · rw [if_neg (fun hr => hge hr.1), if_neg fun hr => hge hr.1]
          · rw [@if_neg (va ≤ v ∧ v < va + c) _ (fun hr => hlt hr.2)]
            by_cases hlt' : v < va + k
            · rw [if_pos (by omega), if_pos (by omega)]
              cases src with
              | none => rfl
              | some a =>
                simp only [Option.map_some, Option.elim_some, add64_add64]
                rw [show c + (v - (va + c)) = v - va by omega]
            · rw [if_neg (by omega), if_neg (by omega)]
        · exact fun a ha j hj => hsrc a ha j (by omega)
        · intro a' ha' j hj
          obtain ⟨a, ha, rfl⟩ := Option.map_eq_some_iff.mp ha'
          rw [add64_add64]
          exact hsrc a ha (c + j) (by omega)

/-! ## 4. Loading the segments -/

/-- The bytes that a segment's two loops fill are in pages of `M`. -/
def Phdr.Covered (ph : Phdr) (M : Set Nat) : Prop :=
  Covers M ph.vaddr ph.filesz ∧ Covers M ph.bss ph.bssSize

/-- A segment as the ELF format wants it, below the user stack. -/
def Phdr.Fits (ph : Phdr) : Prop :=
  ph.filesz ≤ ph.memsz ∧ ph.vaddr + ph.memsz ≤ userStackPage

/-- What loading a segment does to the view: its pages are blank, then the file's bytes are put in. -/
def Phdr.paint (ph : Phdr) (file : Nat → BitVec 8) (V : Nat → Option (BitVec 8)) (v : Nat) :
    Option (BitVec 8) :=
  if ph.vaddr ≤ v ∧ v < ph.vaddr + ph.filesz then some (file (ph.offset + (v - ph.vaddr)))
  else if ph.start ≤ v ∧ v < ph.stop then some 0
  else V v

/-- The image's bytes, in memory. -/
def fileByte (m : Memory) (file k : Nat) : BitVec 8 := m (add64 file k)

namespace Phdr.Fits

variable (h : ph.Fits)
include h

theorem stop_eq : ph.stop = (ph.vaddr + ph.memsz + 4095) / 4096 * 4096 := by
  have := h.2
  unfold userStackPage at this
  unfold Phdr.stop pageCeil pageSize
  rw [@add64_eq ph.vaddr ph.memsz (by omega), add64_eq (by omega)]

theorem stop_le : ph.start ≤ ph.vaddr ∧ ph.vaddr + ph.memsz ≤ ph.stop ∧ ph.stop ≤ userStackPage ∧
    ph.stop % 4096 = 0 ∧ ph.start % 4096 = 0 ∧ ph.vaddr < ph.start + 4096 := by
  have hend := h.2
  rw [h.stop_eq]
  unfold Phdr.start
  unfold userStackPage at *
  unfold pageSize
  omega

/-- The rounds of the loop are the pages from `start` to `stop`. -/
theorem mem_pageSet (v : Nat) :
    v / pageSize ∈ ph.pageSet ↔ ph.start ≤ v ∧ v < ph.stop := by
  obtain ⟨hstart, -, hstop, hmod, hmod', -⟩ := h.stop_le
  have hpage : ∀ i < ph.pages, pageNo (ph.start + i * pageSize) = ph.start / 4096 + i := by
    intro i hi
    unfold Phdr.pages at hi
    unfold userStackPage at hstop
    unfold pageNo
    unfold pageSize at *
    omega
  unfold Phdr.pageSet
  constructor
  · rintro ⟨i, hi, heq⟩
    rw [hpage i hi] at heq
    unfold Phdr.pages at hi
    unfold pageSize at *
    omega
  · rintro ⟨hlo, hhi⟩
    have hi : v / 4096 - ph.start / 4096 < ph.pages := by
      unfold Phdr.pages pageSize
      omega
    refine ⟨_, hi, ?_⟩
    rw [hpage _ hi]
    unfold pageSize
    omega

theorem low : ph.Low := by
  intro i hi
  obtain ⟨-, -, hstop, -, -, -⟩ := h.stop_le
  unfold Phdr.pages at hi
  unfold userStackPage at hstop
  unfold LowerHalf
  unfold pageSize at *
  omega

/-- A range inside the segment is in its pages. -/
theorem covers (M : Set Nat) {va k : Nat} (hva : ph.start ≤ va) (hend : va + k ≤ ph.stop) :
    Covers (M ∪ ph.pageSet) va k := by
  obtain ⟨-, -, hstop, -, -, -⟩ := h.stop_le
  intro i hi
  have hlow : LowerHalf (va + i) := by
    unfold LowerHalf
    unfold userStackPage at hstop
    omega
  have hmod : (va + i) % 2 ^ 48 = va + i := by
    unfold LowerHalf at hlow
    omega
  rw [pageNo_of_lower hlow, hmod]
  exact ⟨hlow, Or.inr ((h.mem_pageSet _).mpr (by omega))⟩

theorem bss_eq : ph.bss = ph.vaddr + ph.filesz ∧ ph.bssSize = ph.memsz - ph.filesz := by
  have hsize := h.1
  have hend := h.2
  unfold userStackPage at hend
  unfold Phdr.bssSize Phdr.bss
  rw [@add64_eq ph.vaddr ph.filesz (by omega), @add64_eq ph.vaddr ph.memsz (by omega)]
  omega

theorem covered (M : Set Nat) : ph.Covered (M ∪ ph.pageSet) := by
  have hsize := h.1
  obtain ⟨hstart, hstop, -, -, -, -⟩ := h.stop_le
  obtain ⟨hbss, hbssSize⟩ := h.bss_eq
  refine ⟨h.covers M hstart (by omega), h.covers M ?_ ?_⟩
  · omega
  · omega

end Phdr.Fits

/-- **A PT_LOAD segment** whose pages are of the lower half and whose bytes are in pages mapped for it
or before it.  If it also fits, the view changes by it and by nothing else. -/
theorem loadSegment_spec (stack file : Nat) (h : Loading s t root N M n) (hs : s.Wf)
    (hfresh : Fresh s root) (hlow : ph.Low) (hcovered : ph.Covered (M ∪ ph.pageSet)) :
    (∀ unmapped, loadSegment unmapped (frameAddr root) file ph t =
      loadSegment 0 (frameAddr root) file ph t) ∧
    Ensures (loadSegment 0 (frameAddr root) file ph t)
      (fun _ => s.pmm.freePages.card < 4 * (n + ph.pages))
      (fun u => (∃ N', Loading s u root N' (M ∪ ph.pageSet) (n + ph.pages)) ∧
        (ph.Fits → (∀ j < ph.filesz, Fixed s root stack (add64 file (ph.offset + j))) →
          ∀ v, LowerHalf v → view u.mem root v =
            ph.paint (fileByte s.mem file) (view t.mem root) v)) := by
  have hmap := mapPagesOf_spec h hs hlow
  have hfill : ∀ u, (∃ N', Loading s u root N' (M ∪ ph.pageSet) (n + ph.pages)) →
      ∃ w, (∀ unmapped, fillRange unmapped (frameAddr root) none ph.bss ph.bssSize
        (fillRange unmapped (frameAddr root) (some (add64 file ph.offset)) ph.vaddr ph.filesz u) = w) ∧
        (∃ N', Loading s w root N' (M ∪ ph.pageSet) (n + ph.pages)) ∧
        (ph.Fits → (∀ j < ph.filesz, Fixed s root stack (add64 file (ph.offset + j))) →
          ∀ v, LowerHalf v → view w.mem root v =
            if ph.vaddr ≤ v ∧ v < ph.vaddr + ph.filesz then
              some (fileByte s.mem file (ph.offset + (v - ph.vaddr)))
            else if ph.vaddr ≤ v ∧ v < ph.vaddr + ph.memsz then some 0
            else view u.mem root v) := by
    rintro u ⟨N', hu⟩
    obtain ⟨w, hw, hload, hview⟩ := fillRange_spec stack hs hfresh ph.filesz
      (some (add64 file ph.offset)) hu hcovered.1
    obtain ⟨x, hx, hload', hview'⟩ := fillRange_spec stack hs hfresh ph.bssSize none hload
      hcovered.2
    refine ⟨x, fun unmapped => by rw [hw, hx], ⟨N', hload'⟩, fun hfits hfixed v hv => ?_⟩
    have hsize := hfits.1
    have hend := hfits.2
    unfold userStackPage at hend
    obtain ⟨hbss, hbssSize⟩ := hfits.bss_eq
    rw [hbss, hbssSize] at hview'
    rw [hview' (by omega) (fun a ha => nomatch ha) v hv, hview (by omega) ?_ v hv]
    · by_cases hfile : ph.vaddr ≤ v ∧ v < ph.vaddr + ph.filesz
      · rw [if_neg (by omega), if_pos hfile, if_pos hfile, Option.elim_some, add64_add64, fileByte]
      · rw [if_neg hfile, if_neg hfile]
        by_cases hbss' : ph.vaddr ≤ v ∧ v < ph.vaddr + ph.memsz
        · rw [if_pos (by omega), if_pos hbss']
          rfl
        · rw [if_neg (by omega), if_neg hbss']
    · intro a ha j hj
      rw [← Option.some.inj ha, add64_add64]
      exact hfixed j hj
  have hload : ∀ u, (∃ N', Loading s u root N' (M ∪ ph.pageSet) (n + ph.pages) ∧
      ∀ v, LowerHalf v → (v / pageSize ∈ ph.pageSet → view u.mem root v = some 0) ∧
        (v / pageSize ∉ ph.pageSet → view u.mem root v = view t.mem root v)) →
      ∃ N', Loading s u root N' (M ∪ ph.pageSet) (n + ph.pages) := fun _ ⟨N', hu, _⟩ => ⟨N', hu⟩
  refine ⟨fun unmapped => ?_, ?_⟩
  · refine hmap.bind_congr fun u hu => ?_
    obtain ⟨w, hw, -⟩ := hfill u (hload u hu)
    dsimp only
    rw [hw, hw]
  · refine Ensures.bind hmap fun u hu => ?_
    obtain ⟨w, hw, hload', hview'⟩ := hfill u (hload u hu)
    obtain ⟨N', -, hview⟩ := hu
    dsimp only
    rw [hw]
    refine ensures_ok.mpr ⟨hload', fun hfits hfixed v hv => ?_⟩
    rw [hview' hfits hfixed v hv, Phdr.paint]
    obtain ⟨hstart, hstop, -, -, -, -⟩ := hfits.stop_le
    have hpage := hfits.mem_pageSet v
    by_cases hfile : ph.vaddr ≤ v ∧ v < ph.vaddr + ph.filesz
    · rw [if_pos hfile, if_pos hfile]
    · rw [if_neg hfile, if_neg hfile]
      by_cases hin : ph.start ≤ v ∧ v < ph.stop
      · rw [if_pos hin, (hview v hv).1 (hpage.mpr hin), ite_self]
      · rw [if_neg hin, if_neg (by omega), (hview v hv).2 fun hmem => hin (hpage.mp hmem)]

end Segments

end AcornOS
