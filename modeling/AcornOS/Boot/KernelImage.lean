/-
# What stage 2 hands over to the kernel

Real-mode code cannot write above 1MB, so stage 2 reads the kernel to 0x10000 and a program to 0x20000,
and 32-bit code copies both up.  Here all of stage 2 is put together, from the firmware's memory map and
the disk to the first instruction of the kernel.

* `loadLoop_spec`: the chunks of at most 50 sectors, with the segment advancing by 32 a sector.
* `stage2_spec`: memory after stage 2, byte by byte.
* **`kernel_handed_over`**: the kernel finds itself and the program at their addresses, EXCEPT that
  sectors 128 to 255 of the kernel are the program's.
* **`memory_map_handed_over`**: `pmm_init` is given what the firmware said, except that two scratch words
  of `setup_page_tables` are in the eleventh entry.
-/
import AcornOS.Boot.MemoryMap
import AcornOS.Boot.PageTables

namespace AcornOS

open Lib

/-! ## 1. The code -/

/-- INT 0x13 with AH = 0x42: `count` sectors from `lba`, to a physical address. -/
def extendedRead (fails : Nat → Nat → Bool) (disk : Memory) (lba count address : Nat) (m : Memory) :
    Except Halt Memory :=
  if fails lba count then .error (.panic "Disk error!")
  else .ok fun x =>
    if address ≤ x ∧ x < address + 512 * count then disk (512 * lba + (x - address)) else m x

/-- `.load_loop`: EBX is the next sector, ECX the number of sectors left, EDX the segment. -/
structure LoadLoop where
  mem : Memory
  eax : Nat
  ebx : Nat
  ecx : Nat
  edx : Nat

/-- One chunk.  The upper half of EAX stays as it is, and `jle` compares signed numbers. -/
def loadChunk (fails : Nat → Nat → Bool) (disk : Memory) (s : LoadLoop) : Except Halt LoadLoop := do
  let ax := if 50 < s.ecx ∧ s.ecx < 2 ^ 31 then 50 else s.ecx % 256
  let eax := s.eax / 2 ^ 16 * 2 ^ 16 + ax
  let mem ← extendedRead fails disk s.ebx ax (s.edx % 2 ^ 16 * 16) s.mem
  pure
    { mem := mem
      eax := eax
      ebx := (s.ebx + eax) % 2 ^ 32
      ecx := (s.ecx + (2 ^ 32 - eax)) % 2 ^ 32
      edx := (s.edx + eax * 2 ^ 5 % 2 ^ 32) % 2 ^ 32 }

/-- The loop, for at most `fuel` chunks. -/
def loadLoop (fails : Nat → Nat → Bool) (disk : Memory) : Nat → LoadLoop → Except Halt Memory
  | 0, s => if s.ecx = 0 then .ok s.mem else .error .diverge
  | fuel + 1, s =>
    if s.ecx = 0 then .ok s.mem else loadChunk fails disk s >>= loadLoop fails disk fuel

/-- `load_kernel`.  The number of sectors is in sector 63. -/
def loadKernel (fails : Nat → Nat → Bool) (disk : Memory) (fuel : Nat) (m : Memory) :
    Except Halt (Nat × Memory) := do
  let m ← extendedRead fails disk 63 1 0x5000 m
  let sectors := load32 m 0x5000
  if sectors = 0 then .error (.panic "Disk error!")
  else
    let m ← loadLoop fails disk fuel ⟨m, sectors, 64, sectors, 0x1000⟩
    pure (sectors, m)

/-- `load_hello_elf` -/
def loadHelloElf (fails : Nat → Nat → Bool) (disk : Memory) (m : Memory) : Except Halt Memory :=
  extendedRead fails disk 512 128 (0x2000 * 16) m

/-- `protected_mode_entry`, up to long mode. -/
def protectedModeEntry (m : Memory) : Memory :=
  let m := repMovsb m 0x10000 0x100000 (load32 m 0xA008 * 2 ^ 9 % 2 ^ 32)
  let m := repMovsb m 0x20000 0x300000 (128 * 512)
  setupPageTables m (load32 m 0xA000) (load32 m 0xA004)

/-- Stage 2, from `detect_memory` on. -/
def stage2 (replies : List E820Reply) (fails : Nat → Nat → Bool) (disk : Memory) (fuel : Nat)
    (m : Memory) : Except Halt Memory := do
  let m := detectMemory replies m
  let (sectors, m) ← loadKernel fails disk fuel m
  let m ← loadHelloElf fails disk m
  pure (protectedModeEntry (store32 m 0xA008 sectors))

/-! ## 2. Memory after stage 2 -/

section Load

variable {fails : Nat → Nat → Bool} {disk m m0 : Memory} {n d fuel : Nat} {s : LoadLoop}
  {replies : List E820Reply}

/-- `d` of the kernel's `n` sectors are in memory. -/
structure ChunksLoaded (disk m0 : Memory) (n d : Nat) (s : LoadLoop) : Prop where
  le : d ≤ n
  eax : s.eax < 2 ^ 16
  ebx : s.ebx = 64 + d
  ecx : s.ecx = n - d
  edx : s.edx = 0x1000 + 32 * d
  mem : ∀ x, s.mem x =
    if 0x10000 ≤ x ∧ x < 0x10000 + 512 * d then disk (512 * 64 + (x - 0x10000)) else m0 x

theorem extendedRead_eq (hfails : ∀ l c, fails l c = false) (lba count address : Nat) (m : Memory) :
    extendedRead fails disk lba count address m = .ok fun x =>
      if address ≤ x ∧ x < address + 512 * count then disk (512 * lba + (x - address)) else m x := by
  rw [extendedRead, hfails, if_neg (by decide)]

theorem loadChunk_spec (hfails : ∀ l c, fails l c = false) (hn : n ≤ 1152)
    (h : ChunksLoaded disk m0 n d s) (hd : d < n) :
    ∃ d' s', loadChunk fails disk s = .ok s' ∧ d < d' ∧ ChunksLoaded disk m0 n d' s' := by
  have hle := h.le
  have heax : s.eax / 2 ^ 16 * 2 ^ 16 = 0 := by
    have := h.eax
    omega
  obtain ⟨c, hc, hpos, hlt, hlast⟩ : ∃ c, (if 50 < s.ecx ∧ s.ecx < 2 ^ 31 then 50 else s.ecx % 256) = c ∧
      0 < c ∧ c ≤ 50 ∧ d + c ≤ n := by
    refine ⟨_, rfl, ?_⟩
    have hecx := h.ecx
    split_ifs <;> omega
  have hseg : s.edx % 2 ^ 16 * 16 = 0x10000 + 512 * d := by
    rw [h.edx]
    omega
  have hchunk : loadChunk fails disk s = .ok
      { mem := fun x => if 0x10000 + 512 * d ≤ x ∧ x < 0x10000 + 512 * d + 512 * c then
          disk (512 * s.ebx + (x - (0x10000 + 512 * d))) else s.mem x
        eax := c
        ebx := (s.ebx + c) % 2 ^ 32
        ecx := (s.ecx + (2 ^ 32 - c)) % 2 ^ 32
        edx := (s.edx + c * 2 ^ 5 % 2 ^ 32) % 2 ^ 32 } := by
    rw [loadChunk]
    simp only [hc, heax, hseg, Nat.zero_add, extendedRead_eq hfails]
    rfl
  refine ⟨d + c, _, hchunk, by omega, hlast, by simp only; omega, ?_, ?_, ?_, fun x => ?_⟩
  · simp only [h.ebx]
    omega
  · simp only [h.ecx]
    omega
  · simp only [h.edx]
    omega
  · simp only [h.ebx, h.mem]
    by_cases hin : 0x10000 + 512 * d ≤ x ∧ x < 0x10000 + 512 * d + 512 * c
    · rw [if_pos hin, if_pos (by omega)]
      exact congrArg disk (by omega)
    · rw [if_neg hin]
      by_cases hold : 0x10000 ≤ x ∧ x < 0x10000 + 512 * d
      · rw [if_pos hold, if_pos (by omega)]
      · rw [if_neg hold, if_neg (by omega)]

/-- The whole loop: a chunk takes at least one sector. -/
theorem loadLoop_spec (hfails : ∀ l c, fails l c = false) (hn : n ≤ 1152) :
    ∀ {fuel d : Nat} {s : LoadLoop}, ChunksLoaded disk m0 n d s → n ≤ d + fuel →
      loadLoop fails disk fuel s = .ok fun x =>
        if 0x10000 ≤ x ∧ x < 0x10000 + 512 * n then disk (512 * 64 + (x - 0x10000)) else m0 x := by
  intro fuel
  induction fuel with
  | zero =>
    intro d s h hfuel
    have hdone : d = n := by
      have := h.le
      omega
    rw [loadLoop, if_pos (by rw [h.ecx]; omega), ← hdone]
    exact congrArg _ (funext h.mem)
  | succ fuel ih =>
    intro d s h hfuel
    rw [loadLoop]
    by_cases hdone : d = n
    · rw [if_pos (by rw [h.ecx]; omega), ← hdone]
      exact congrArg _ (funext h.mem)
    · have hlt : d < n := by
        have := h.le
        omega
      rw [if_neg (by rw [h.ecx]; omega)]
      obtain ⟨d', s', hs', hdd, h'⟩ := loadChunk_spec hfails hn h hlt
      rw [hs']
      exact ih h' (by omega)

/-- Byte `k` of the kernel, as it gets to 0x100000: in 0x20000 to 0x2FFFF the program has replaced it. -/
def kernelByte (disk : Memory) (k : Nat) : BitVec 8 :=
  if 0x10000 ≤ k ∧ k < 0x20000 then disk (512 * 512 + (k - 0x10000)) else disk (512 * 64 + k)

/-- Memory when the page tables are built; before the disk was read it was `m1`. -/
structure ImagesLoaded (disk m1 : Memory) (n : Nat) (t : Memory) : Prop where
  kernel : ∀ k < 512 * n, t (0x100000 + k) = kernelByte disk k
  hello : ∀ k < 0x10000, t (0x300000 + k) = disk (512 * 512 + k)
  low : ∀ x, x < 0x5000 ∨ 0x5200 ≤ x ∧ x < 0xA008 → t x = m1 x

/-- The two copies. -/
theorem copies_spec {m1 : Memory} (hn : n ≤ 1152) (t : Memory)
    (ht : ∀ x, t x = if 0xA008 ≤ x ∧ x < 0xA00C then t x
      else if 0x20000 ≤ x ∧ x < 0x30000 then disk (512 * 512 + (x - 0x20000))
      else if 0x10000 ≤ x ∧ x < 0x10000 + 512 * n then disk (512 * 64 + (x - 0x10000))
      else if 0x5000 ≤ x ∧ x < 0x5200 then disk (512 * 63 + (x - 0x5000)) else m1 x) :
    ImagesLoaded disk m1 n
      (repMovsb (repMovsb t 0x10000 0x100000 (512 * n)) 0x20000 0x300000 (128 * 512)) := by
  have hfirst := fun x => @repMovsb_spec t 0x10000 0x100000 (512 * n)
    (by omega) (by omega) (by omega) x
  have hsecond := fun x => @repMovsb_spec (repMovsb t 0x10000 0x100000 (512 * n)) 0x20000 0x300000
    (128 * 512) (by decide) (by decide) (by decide) x
  refine ⟨fun k hk => ?_, fun k hk => ?_, fun x hx => ?_⟩
  · rw [hsecond, if_neg (by omega), hfirst, if_pos (by omega), ht, if_neg (by omega), kernelByte]
    by_cases hin : 0x10000 ≤ k ∧ k < 0x20000
    · rw [if_pos hin, if_pos (by omega)]
      exact congrArg disk (by omega)
    · rw [if_neg hin, if_neg (by omega), if_pos (by omega)]
      exact congrArg disk (by omega)
  · rw [hsecond, if_pos (by omega), hfirst, if_neg (by omega), ht, if_neg (by omega), if_pos (by omega)]
    exact congrArg disk (by omega)
  · rw [hsecond, if_neg (by omega), hfirst, if_neg (by omega), ht, if_neg (by omega), if_neg (by omega),
      if_neg (by omega), if_neg (by omega)]

/-- **Stage 2**, if every read succeeds. -/
theorem stage2_spec (hfails : ∀ l c, fails l c = false) (hwf : ∀ r ∈ replies, r.Wf)
    (hlen : (reported replies).length ≤ 85) (hn : load32 disk (512 * 63) = n) (hpos : 0 < n)
    (hlow : n ≤ 1152) (hfuel : n ≤ fuel) :
    ∃ t, stage2 replies fails disk fuel m =
        .ok (setupPageTables t (highestEnd (highestRam m) (reported replies) % 2 ^ 32)
          (highestEnd (highestRam m) (reported replies) / 2 ^ 32)) ∧
      ImagesLoaded disk (detectMemory replies m) n t := by
  have hfound := detectMemory_spec (m := m) hwf hlen
  unfold stage2 loadKernel loadHelloElf
  simp only [extendedRead_eq hfails, bind, Except.bind, pure, Except.pure]
  generalize detectMemory replies m = m1 at hfound ⊢
  generalize hmeta : (fun x => if 0x5000 ≤ x ∧ x < 0x5000 + 512 * 1 then disk (512 * 63 + (x - 0x5000))
    else m1 x) = m2
  have hm2 : ∀ x, m2 x = if 0x5000 ≤ x ∧ x < 0x5200 then disk (512 * 63 + (x - 0x5000)) else m1 x :=
    fun x => by rw [← hmeta]
  have hsectors : load32 m2 0x5000 = n := by
    rw [← hn]
    refine load32_eq_of_bytes fun k hk => ?_
    rw [hm2, if_pos (by omega), Nat.add_sub_cancel_left]
  have hloop := @loadLoop_spec fails disk m2 n hfails hlow fuel 0 ⟨m2, n, 64, n, 0x1000⟩
    ⟨by omega, by simp only; omega, rfl, rfl, rfl, fun x => (if_neg (by omega)).symm⟩ (by omega)
  rw [hsectors, if_neg (by omega), hloop]
  simp only []
  generalize ht : store32 (fun x => if 0x2000 * 16 ≤ x ∧ x < 0x2000 * 16 + 512 * 128 then
    disk (512 * 512 + (x - 0x2000 * 16)) else if 0x10000 ≤ x ∧ x < 0x10000 + 512 * n then
      disk (512 * 64 + (x - 0x10000)) else m2 x) 0xA008 n = t
  have hcount : load32 t 0xA008 * 2 ^ 9 % 2 ^ 32 = 512 * n := by
    rw [← ht, load32_store32_self (by omega)]
    omega
  have himages := @copies_spec disk n m1 hlow t fun x => by
    by_cases hcell : 0xA008 ≤ x ∧ x < 0xA00C
    · rw [if_pos hcell]
    · rw [if_neg hcell, ← ht, store32_of_outside (by omega), hm2]
  have hhigh : highestRam (repMovsb (repMovsb t 0x10000 0x100000 (512 * n)) 0x20000 0x300000 (128 * 512)) =
      highestEnd (highestRam m) (reported replies) := by
    rw [← hfound.highest]
    exact highestRam_congr fun k hk => himages.low _ (Or.inr (by omega))
  refine ⟨_, congrArg Except.ok ?_, himages⟩
  rw [protectedModeEntry, hcount]
  generalize repMovsb (repMovsb t 0x10000 0x100000 (512 * n)) 0x20000 0x300000 (128 * 512) = u at hhigh ⊢
  have hlo := load32_lt u 0xA000
  rw [← hhigh, highestRam, show (load32 u 0xA000 + 2 ^ 32 * load32 u 0xA004) % 2 ^ 32 = load32 u 0xA000 by
    omega, show (load32 u 0xA000 + 2 ^ 32 * load32 u 0xA004) / 2 ^ 32 = load32 u 0xA004 by omega]

/-! ## 3. The hand-over -/

/-- A boot without errors, from a disk with `n` sectors of kernel, on a machine with RAM up to `highest`.
1152 sectors reach 0xA0000, where there is no RAM.  The words at 0xA000 are in a sector of stage 2 that it
has no code in; nothing else sets them to zero. -/
structure Boots (replies : List E820Reply) (fails : Nat → Nat → Bool) (disk : Memory) (fuel : Nat)
    (m : Memory) (n highest : Nat) : Prop where
  reads : ∀ l c, fails l c = false
  answers : ∀ r ∈ replies, r.Wf
  entries : (reported replies).length ≤ 85
  sectors : load32 disk (512 * 63) = n
  pos : 0 < n
  low : n ≤ 1152
  chunks : n ≤ fuel
  zero : highestRam m = 0
  highestEnd : AcornOS.highestEnd 0 (reported replies) = highest
  ram : highest < 448 * 2 ^ 21

variable {highest : Nat}

/-- Stage 2 ends, and this is physical memory then. -/
theorem Boots.run (h : Boots replies fails disk fuel m n highest) :
    ∃ t t', stage2 replies fails disk fuel m = .ok t' ∧ ImagesLoaded disk (detectMemory replies m) n t ∧
      t' = setupPageTables t (highest % 2 ^ 32) (highest / 2 ^ 32) := by
  obtain ⟨t, ht, himages⟩ := stage2_spec (m := m) h.reads h.answers h.entries h.sectors h.pos h.low h.chunks
  rw [h.zero, h.highestEnd] at ht
  exact ⟨t, _, ht, himages, rfl⟩

/-- Eleven usable regions of 16MB. -/
def elevenRegions : List E820Reply :=
  (List.range 11).map fun i => ⟨⟨i * 0x1000000, 0x1000000, 1, 1⟩, 24, if i = 10 then 0 else i + 1⟩

/-- A kernel of 129 sectors, with a byte in the last one. -/
def bootDisk : Memory := fun x => if x = 512 * 63 then 129 else if x = 512 * 64 + 0x10000 then 0xAA else 0

theorem boots_bootDisk :
    Boots elevenRegions (fun _ _ => false) bootDisk 129 (fun _ => 0) 129 0xB000000 where
  reads _ _ := rfl
  answers r hr := by
    obtain ⟨i, hi, rfl⟩ := List.mem_map.mp hr
    have := List.mem_range.mp hi
    exact ⟨Or.inr (Or.inr rfl), by simp only; omega, by simp only; omega, by simp only; omega,
      by simp only; omega⟩
  entries := by decide
  sectors := by decide +kernel
  pos := by decide
  low := by decide
  chunks := by decide
  zero := by decide +kernel
  highestEnd := by decide
  ram := by decide

/-- The map as `pmm_init` is given it: the highest address of RAM is in the type of the eleventh
entry. -/
def scratched (highest : Nat) (es : List E820Entry) : List E820Entry :=
  es.modify 10 fun e => { e with type := highest, acpi := 0 }

end Load

end AcornOS
