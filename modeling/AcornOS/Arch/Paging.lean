/-
# Page tables (`kernel/architecture/x86_64/paging.c`)

Four levels of 512-entry tables, each table one page frame, reached through the direct map: the
kernel sees physical address `x` at `PHYSICAL_MAP_BASE + x`.  Section 1 is the model.  A table
pointer is a virtual address, an entry is the 64-bit word behind it with the bit-fields of
`page_entry_t` as functions on the word, and memory is bytes, because `paging_deep_copy_directory`
writes entries as words and copies pages as bytes.

`paging_deep_copy_directory` and `paging_free_directory` are four nested loops over the same kind of
table.  The loop over the entries of a table of tables is written once (`copyTable`, `freeTable`)
with the inner loop as a parameter; the page-table level, where the entries lead to data, has its
own (`copyPt`, `freePt`).  Console output and TLB flushes are left out.

Section 2 is what the rest of the development needs to know about the direct map.  A FRAME is a
physical page number below `2^40`; different frames are different stretches of memory, and
`OnlyIn m m' X` says that only the frames of `X` have changed.
-/
import AcornOS.Lib.Memory
import AcornOS.Memory.Pmm

namespace AcornOS

open Lib

/-! ## 1. The model -/

/-- `PHYSICAL_MAP_BASE` -/
def physicalMapBase : Nat := 0xFFFF800000000000

/-- `physical_to_virtual`, `PHYSICAL_TO_VIRTUAL`, `physical_to_table` -/
def physicalToVirtual (physical : Nat) : Nat := add64 physical physicalMapBase

/-- `virtual_to_physical`, `VIRTUAL_TO_PHYSICAL`, `table_to_physical` -/
def virtualToPhysical (virtual : Nat) : Nat := sub64 virtual physicalMapBase

/-! ### Entries -/

/-- Bit 0 of a `page_entry_t`. -/
def present (e : Nat) : Bool := decide (e % 2 = 1)

/-- Bit 1. -/
def writable (e : Nat) : Bool := decide (e / 2 % 2 = 1)

/-- Bit 2. -/
def user (e : Nat) : Bool := decide (e / 4 % 2 = 1)

/-- Bit 7: a 2MB page in a PD. -/
def hugePage (e : Nat) : Bool := decide (e / 128 % 2 = 1)

/-- Bits 12 to 51. -/
def frame (e : Nat) : Nat := e / 2 ^ 12 % 2 ^ 40

/-- `entry.frame = f` -/
def setFrame (e f : Nat) : Nat := e % 2 ^ 12 + f % 2 ^ 40 * 2 ^ 12 + e / 2 ^ 52 * 2 ^ 52

/-- An entry that was zeroed and then given a frame, `present`, `writable` and `user`. -/
def tableEntry (physical : Nat) : Nat := setFrame 0 (physical / pageSize) + 7

/-- `PAGE_PRESENT` -/
def pagePresent : Nat := 1

/-- `PAGE_WRITABLE` -/
def pageWritable : Nat := 2

/-- `PAGE_USER` -/
def pageUser : Nat := 4

/-- An entry that was zeroed and then given a frame and the three low bits of `flags`. -/
def pageEntry (paddr flags : Nat) : Nat :=
  setFrame 0 (paddr / pageSize) + flags % 2 + flags / 2 % 2 * 2 + flags / 4 % 2 * 4

/-- `PML4_INDEX` -/
def pml4Index (addr : Nat) : Nat := addr / 2 ^ 39 % 512

/-- `PDPT_INDEX` -/
def pdptIndex (addr : Nat) : Nat := addr / 2 ^ 30 % 512

/-- `PD_INDEX` -/
def pdIndex (addr : Nat) : Nat := addr / 2 ^ 21 % 512

/-- `PT_INDEX` -/
def ptIndex (addr : Nat) : Nat := addr / 2 ^ 12 % 512

/-! ### Tables -/

/-- What these routines read and write: memory and the page allocator. -/
structure Machine where
  mem : Memory
  pmm : Pmm

/-- `&table->entries[i]` -/
def entryAddr (table i : Nat) : Nat := add64 table (8 * i)

/-- `for(int i = 0; i < 512; i++) *((uint64_t*)&table->entries[i]) = 0;` -/
def blankTable (mem : Memory) (table : Nat) : Memory :=
  loop (fun i mem => store64 mem (entryAddr table i) 0) 512 mem

/-- `alloc_table` -/
def allocTable (s : Machine) : Except Halt (Nat × Machine) := do
  let (physical, pmm) ← pmmAlloc s.pmm
  if physical = 0 then .error (.panic "paging: out of memory for page table!")
  else
    let table := physicalToVirtual physical
    .ok (table, ⟨blankTable s.mem table, pmm⟩)

/-- One level of `get_pt_entry`: the table `entry` leads to, allocated if it is not there and
`create` says so. -/
def nextTable (s : Machine) (entry : Nat) (create : Bool) : Except Halt (Option Nat × Machine) :=
  if present (load64 s.mem entry) then
    .ok (some (physicalToVirtual (frame (load64 s.mem entry) * pageSize)), s)
  else if create then do
    let (table, s) ← allocTable s
    let mem := store64 s.mem entry (tableEntry (virtualToPhysical table))
    .ok (some (physicalToVirtual (frame (load64 mem entry) * pageSize)), { s with mem := mem })
  else .ok (none, s)

/-- `get_pt_entry`: the address of the entry, `none` for NULL. -/
def getPtEntry (s : Machine) (pml4 vaddr : Nat) (create : Bool) :
    Except Halt (Option Nat × Machine) := do
  match ← nextTable s (entryAddr pml4 (pml4Index vaddr)) create with
  | (none, s) => .ok (none, s)
  | (some pdpt, s) =>
    match ← nextTable s (entryAddr pdpt (pdptIndex vaddr)) create with
    | (none, s) => .ok (none, s)
    | (some pd, s) =>
      match ← nextTable s (entryAddr pd (pdIndex vaddr)) create with
      | (none, s) => .ok (none, s)
      | (some pt, s) => .ok (some (entryAddr pt (ptIndex vaddr)), s)

/-- `map_page_in` -/
def mapPageIn (s : Machine) (pml4 vaddr paddr flags : Nat) : Except Halt Machine :=
  if pml4 = 0 then .error (.panic "map_page_in: null PML4!")
  else do
    let vaddr := vaddr / pageSize * pageSize
    let paddr := paddr / pageSize * pageSize
    match ← getPtEntry s pml4 vaddr true with
    | (none, _) => .error (.panic "map_page_in: failed to get page table entry!")
    | (some entry, s) => .ok { s with mem := store64 s.mem entry (pageEntry paddr flags) }

/-- `get_physical_in`, with what it returns for an unmapped page as a parameter. -/
def getPhysicalOr (unmapped : Nat) (s : Machine) (pml4 vaddr : Nat) : Nat :=
  match getPtEntry s pml4 vaddr false with
  | .ok (some entry, _) =>
    if present (load64 s.mem entry) then
      frame (load64 s.mem entry) * pageSize + vaddr % pageSize
    else unmapped
  | _ => unmapped

/-- `get_physical_in` -/
def getPhysicalIn (s : Machine) (pml4 vaddr : Nat) : Nat := getPhysicalOr 0 s pml4 vaddr

/-- `for(int i = 256; i < 512; i++) dst->entries[i] = src->entries[i];` -/
def copyUpperHalf (mem : Memory) (src dst : Nat) : Memory :=
  loop (fun k mem => store64 mem (entryAddr dst (256 + k)) (load64 mem (entryAddr src (256 + k))))
    256 mem

/-- `paging_clone_directory`.  `kernel_pml4` is set once, by `paging_init`. -/
def pagingCloneDirectory (s : Machine) (kernelPml4 : Nat) : Except Halt (Nat × Machine) := do
  let (newPml4, s) ← allocTable s
  .ok (newPml4, { s with mem := copyUpperHalf s.mem kernelPml4 newPml4 })

/-! ### Copying and freeing a directory -/

/-- `for(int b = 0; b < 4096; b++) dst_page[b] = src_page[b];` -/
def copyPage (mem : Memory) (srcPage dstPage : Nat) : Memory :=
  loop (fun b mem => Function.update mem (add64 dstPage b) (mem (add64 srcPage b))) 4096 mem

/-- `dst->entries[i] = *src_e; dst->entries[i].frame = physical >> 12;` -/
def copyEntry (mem : Memory) (srcE dstE physical : Nat) : Memory :=
  let mem := store64 mem dstE (load64 mem srcE)
  store64 mem dstE (setFrame (load64 mem dstE) (physical / pageSize))

/-- The loop over a page table: every present entry gets a page of its own. -/
def copyPt (src dst : Nat) (s : Machine) : Except Halt Machine :=
  forRange (fun i s =>
    let srcE := entryAddr src i
    if present (load64 s.mem srcE) then do
      let (newPhysical, pmm) ← pmmAlloc s.pmm
      if newPhysical = 0 then .error (.panic "paging_deep_copy: out of memory!")
      else
        let srcPage := physicalToVirtual (frame (load64 s.mem srcE) * pageSize)
        let mem := copyPage s.mem srcPage (physicalToVirtual newPhysical)
        let mem := copyEntry mem srcE (entryAddr dst i) newPhysical
        .ok ⟨mem, pmm⟩
    else .ok s) 512 s

/-- The loop over a table of tables: every present entry gets a table of its own, which `inner`
then fills.  With `sharesHuge` an entry for a 2MB page is copied as it is. -/
def copyTable (sharesHuge : Bool) (width : Nat) (inner : Nat → Nat → Machine → Except Halt Machine)
    (src dst : Nat) (s : Machine) : Except Halt Machine :=
  forRange (fun i s =>
    let srcE := entryAddr src i
    if present (load64 s.mem srcE) then
      if sharesHuge && hugePage (load64 s.mem srcE) then
        .ok { s with mem := store64 s.mem (entryAddr dst i) (load64 s.mem srcE) }
      else do
        let (dstTable, s) ← allocTable s
        let mem := copyEntry s.mem srcE (entryAddr dst i) (virtualToPhysical dstTable)
        let srcTable := physicalToVirtual (frame (load64 mem srcE) * pageSize)
        inner srcTable dstTable { s with mem := mem }
    else .ok s) width s

def copyPd : Nat → Nat → Machine → Except Halt Machine := copyTable true 512 copyPt

def copyPdpt : Nat → Nat → Machine → Except Halt Machine := copyTable false 512 copyPd

def copyPml4 : Nat → Nat → Machine → Except Halt Machine := copyTable false 256 copyPdpt

/-- `paging_deep_copy_directory` -/
def pagingDeepCopyDirectory (s : Machine) (src : Nat) : Except Halt (Nat × Machine) :=
  if src = 0 then .error (.panic "paging_deep_copy: null source!")
  else do
    let (dst, s) ← allocTable s
    let s ← copyPml4 src dst { s with mem := copyUpperHalf s.mem src dst }
    .ok (dst, s)

/-- The loop over a page table: every page of data is freed. -/
def freePt (mem : Memory) (pt : Nat) (pm : Pmm) : Pmm :=
  loop (fun i pm =>
    let e := load64 mem (entryAddr pt i)
    if present e then pmmFree pm (frame e * pageSize) else pm) 512 pm

/-- The loop over a table of tables: what is below an entry is freed, then the table it leads
to. -/
def freeTable (sharesHuge : Bool) (width : Nat) (inner : Memory → Nat → Pmm → Pmm)
    (mem : Memory) (table : Nat) (pm : Pmm) : Pmm :=
  loop (fun i pm =>
    let e := load64 mem (entryAddr table i)
    if present e then
      if sharesHuge && hugePage e then pm
      else
        let child := physicalToVirtual (frame e * pageSize)
        pmmFree (inner mem child pm) (virtualToPhysical child)
    else pm) width pm

def freePd : Memory → Nat → Pmm → Pmm := freeTable true 512 freePt

def freePdpt : Memory → Nat → Pmm → Pmm := freeTable false 512 freePd

def freePml4 : Memory → Nat → Pmm → Pmm := freeTable false 256 freePdpt

/-- `paging_free_directory` -/
def pagingFreeDirectory (s : Machine) (dir : Nat) : Machine :=
  if dir = 0 then s
  else { s with pmm := pmmFree (freePml4 s.mem dir s.pmm) (virtualToPhysical dir) }

/-! ## 2. Frames and the direct map -/

/-- Where the kernel sees a frame. -/
def frameAddr (p : Nat) : Nat := physicalToVirtual (p * pageSize)

/-- Entry `i` of the table in frame `p`. -/
def entry (m : Memory) (p i : Nat) : Nat := load64 m (frameAddr p + 8 * i)

section Frames

variable {m m' m'' : Memory} {p q i j v f e : Nat}

theorem frame_lt (e : Nat) : frame e < 2 ^ 40 := Nat.mod_lt _ (by decide)

theorem frameAddr_add_le (p : Nat) : frameAddr p + 4096 ≤ 2 ^ 64 := by
  unfold frameAddr physicalToVirtual add64 pageSize physicalMapBase
  omega

/-- The words below the last one of a page. -/
theorem sub64_lastWord (p : Nat) {k : Nat} (hk : k ≤ 511) :
    sub64 (frameAddr p + 8 * 511) (8 * k) = frameAddr p + 8 * (511 - k) := by
  have := frameAddr_add_le p
  rw [sub64_eq (by omega) (by omega)]
  omega

theorem frameAddr_ne_zero (hp : p < 2 ^ 35) : frameAddr p ≠ 0 := by
  unfold frameAddr physicalToVirtual add64 pageSize physicalMapBase
  omega

/-- Different frames do not overlap. -/
theorem frameAddr_apart (hp : p < 2 ^ 40) (hq : q < 2 ^ 40) (hne : p ≠ q) :
    frameAddr p + 4096 ≤ frameAddr q ∨ frameAddr q + 4096 ≤ frameAddr p := by
  unfold frameAddr physicalToVirtual add64 pageSize physicalMapBase
  omega

/-- A frame's address leads back to the frame. -/
theorem virtualToPhysical_frameAddr (hp : p < 2 ^ 40) :
    virtualToPhysical (frameAddr p) = p * pageSize := by
  unfold virtualToPhysical frameAddr physicalToVirtual add64 sub64 pageSize physicalMapBase
  omega

theorem physicalToVirtual_page (p : Nat) : physicalToVirtual (p * pageSize) = frameAddr p := rfl

-- its arithmetic is over: unification must not try to evaluate it
attribute [irreducible] frameAddr

theorem entryAddr_frameAddr (hi : i < 512) :
    entryAddr (frameAddr p) i = frameAddr p + 8 * i := by
  have := frameAddr_add_le p
  exact add64_eq (by omega)

theorem load64_entryAddr (hi : i < 512) :
    load64 m (entryAddr (frameAddr p) i) = entry m p i := by
  rw [entryAddr_frameAddr hi, entry]

theorem entry_lt (m : Memory) (p i : Nat) : entry m p i < 2 ^ 64 := load64_lt _ _

/-- `OnlyIn m m' X`: only the frames of `X` differ. -/
def OnlyIn (m m' : Memory) (X : Set Nat) : Prop :=
  ∀ p < 2 ^ 40, p ∉ X → ∀ k < 4096, m' (frameAddr p + k) = m (frameAddr p + k)

theorem OnlyIn.refl (m : Memory) (X : Set Nat) : OnlyIn m m X := fun _ _ _ _ _ => rfl

theorem OnlyIn.mono {X Y : Set Nat} (h : OnlyIn m m' X) (hXY : X ⊆ Y) : OnlyIn m m' Y :=
  fun p hp hnot => h p hp fun hX => hnot (hXY hX)

theorem OnlyIn.trans {X : Set Nat} (h : OnlyIn m m' X) (h' : OnlyIn m' m'' X) :
    OnlyIn m m'' X :=
  fun p hp hnot k hk => (h' p hp hnot k hk).trans (h p hp hnot k hk)

/-- A directory that grows: writing to its frames `X`, and then to `Y`, those that it has when `N` were taken. -/
theorem OnlyIn.grow {X Y : Set Nat} {N N' : Finset Nat} (h : OnlyIn m m' (X ∪ N))
    (h' : OnlyIn m' m'' (Y ∪ N')) (hY : ∀ q ∈ Y, q ∈ X ∨ q ∈ N) :
    OnlyIn m m'' (X ∪ (N ∪ N' : Finset Nat)) := by
  refine (h.mono ?_).trans (h'.mono ?_)
  · rintro q (hq | hq)
    · exact Or.inl hq
    · exact Or.inr (Finset.mem_union_left _ hq)
  · rintro q (hq | hq)
    · exact (hY q hq).imp id (Finset.mem_union_left _)
    · exact Or.inr (Finset.mem_union_right _ hq)

/-- The frames of a directory, with its root, if the ones below that are old or new. -/
theorem root_or_mem {root q : Nat} {l l' : List Nat} {N : Finset Nat} (h : ∀ q ∈ l', q ∈ l ∨ q ∈ N)
    (hq : q ∈ root :: l') : q ∈ root :: l ∨ q ∈ N := by
  rcases List.mem_cons.mp hq with rfl | hq
  · exact Or.inl List.mem_cons_self
  · exact (h q hq).imp (List.mem_cons_of_mem _) id

theorem OnlyIn.entry_eq {X : Set Nat} (h : OnlyIn m m' X) (hp : p < 2 ^ 40) (hnot : p ∉ X)
    (hi : i < 512) : entry m' p i = entry m p i := by
  refine load64_congr fun k hk => ?_
  have := h p hp hnot (8 * i + k) (by omega)
  rwa [← Nat.add_assoc] at this

/-- Writing an entry: the frame it is in is the only one that changes, ... -/
theorem onlyIn_store64 (hp : p < 2 ^ 40) (hi : i < 512) (v : Nat) :
    OnlyIn m (store64 m (frameAddr p + 8 * i) v) {p} := by
  intro q hq hnot k hk
  have := frameAddr_apart hp hq fun h => hnot (by rw [h]; rfl)
  exact store64_of_outside (by omega)

/-- ... and it is the only one of that frame that does. -/
theorem entry_store64_of_ne (hij : i ≠ j) :
    entry (store64 m (frameAddr p + 8 * i) v) p j = entry m p j :=
  load64_store64_of_apart (by omega)

@[simp] theorem entry_store64_self (hv : v < 2 ^ 64) :
    entry (store64 m (frameAddr p + 8 * i) v) p i = v :=
  load64_store64_self hv

theorem entry_zero (p i : Nat) : entry (fun _ => 0) p i = 0 := by
  unfold entry load64
  rfl

/-- Writing an entry, and reading one. -/
theorem entry_store64 (hp : p < 2 ^ 40) (hq : q < 2 ^ 40) (hi : i < 512) (hj : j < 512)
    (hv : v < 2 ^ 64) : entry (store64 m (frameAddr q + 8 * j) v) p i =
      if p = q ∧ i = j then v else entry m p i := by
  by_cases hpq : p = q
  · subst hpq
    by_cases hij : i = j
    · rw [hij, entry_store64_self hv, if_pos ⟨rfl, rfl⟩]
    · rw [entry_store64_of_ne (Ne.symm hij), if_neg fun h => hij h.2]
  · rw [(onlyIn_store64 hq hj v).entry_eq hp (fun h => hpq h) hi, if_neg fun h => hpq h.1]

theorem setFrame_lt (he : e < 2 ^ 64) (f : Nat) : setFrame e f < 2 ^ 64 := by
  unfold setFrame
  omega

/-- Setting the frame sets the frame and keeps the flags. -/
theorem frame_setFrame (hf : f < 2 ^ 40) : frame (setFrame e f) = f := by
  unfold frame setFrame
  omega

theorem present_setFrame : present (setFrame e f) = present e := by
  unfold present setFrame
  congr 1
  rw [eq_iff_iff]
  omega

theorem hugePage_setFrame : hugePage (setFrame e f) = hugePage e := by
  unfold hugePage setFrame
  congr 1
  rw [eq_iff_iff]
  omega

theorem writable_setFrame : writable (setFrame e f) = writable e := by
  unfold writable setFrame
  congr 1
  rw [eq_iff_iff]
  omega

theorem user_setFrame : user (setFrame e f) = user e := by
  unfold user setFrame
  congr 1
  rw [eq_iff_iff]
  omega

/-- The entry for a new table leads to it. -/
theorem tableEntry_spec (hp : p < 2 ^ 40) : tableEntry (p * pageSize) < 2 ^ 64 ∧
    present (tableEntry (p * pageSize)) = true ∧ hugePage (tableEntry (p * pageSize)) = false ∧
    frame (tableEntry (p * pageSize)) = p := by
  unfold tableEntry setFrame present hugePage frame pageSize
  refine ⟨?_, decide_eq_true ?_, decide_eq_false ?_, ?_⟩ <;> omega

/-- The entry for a page leads to it if `flags` says it is present. -/
theorem pageEntry_spec (hp : p < 2 ^ 40) {flags : Nat} (hflags : flags % 2 = 1) :
    pageEntry (p * pageSize) flags < 2 ^ 64 ∧ present (pageEntry (p * pageSize) flags) = true ∧
      hugePage (pageEntry (p * pageSize) flags) = false ∧
      frame (pageEntry (p * pageSize) flags) = p := by
  unfold pageEntry setFrame present hugePage frame pageSize
  refine ⟨?_, decide_eq_true ?_, decide_eq_false ?_, ?_⟩ <;> omega

/-- The loop that blanks a table. -/
theorem blankTable_spec {c : Nat} (hc : c < 2 ^ 40) :
    OnlyIn m (blankTable m (frameAddr c)) {c} ∧
      ∀ i < 512, entry (blankTable m (frameAddr c)) c i = 0 := by
  refine @loop_invariant Memory (fun i mem => store64 mem (entryAddr (frameAddr c) i) 0)
    (fun k mem => OnlyIn m mem {c} ∧ ∀ i < k, entry mem c i = 0) 512 m
    ⟨OnlyIn.refl _ _, by simp⟩ ?_
  rintro k mem hk ⟨honly, hzero⟩
  rw [entryAddr_frameAddr hk]
  refine ⟨honly.trans (onlyIn_store64 hc hk 0), fun i hi => ?_⟩
  rcases Nat.lt_succ_iff_lt_or_eq.mp hi with hi | rfl
  · rw [entry_store64_of_ne (by omega), hzero i hi]
  · exact entry_store64_self (by decide)

/-- The loop that copies a page byte by byte. -/
theorem copyPage_spec (hp : p < 2 ^ 40) (hq : q < 2 ^ 40) (hne : p ≠ q) :
    OnlyIn m (copyPage m (frameAddr p) (frameAddr q)) {q} ∧
      ∀ k < 4096, copyPage m (frameAddr p) (frameAddr q) (frameAddr q + k) = m (frameAddr p + k) := by
  have hapart := frameAddr_apart hp hq hne
  have hpend := frameAddr_add_le p
  have hqend := frameAddr_add_le q
  have hloop : (∀ x, x < frameAddr q ∨ frameAddr q + 4096 ≤ x →
        copyPage m (frameAddr p) (frameAddr q) x = m x) ∧
      ∀ k < 4096, copyPage m (frameAddr p) (frameAddr q) (frameAddr q + k)
        = m (frameAddr p + k) := by
    refine @loop_invariant Memory
      (fun b mem => Function.update mem (add64 (frameAddr q) b) (mem (add64 (frameAddr p) b)))
      (fun b mem => (∀ x, x < frameAddr q ∨ frameAddr q + 4096 ≤ x → mem x = m x) ∧
        ∀ k < b, mem (frameAddr q + k) = m (frameAddr p + k)) 4096 m ⟨fun _ _ => rfl, by simp⟩ ?_
    rintro b mem hb ⟨hout, hin⟩
    rw [@add64_eq (frameAddr q) b (by omega), @add64_eq (frameAddr p) b (by omega)]
    refine ⟨fun x hx => ?_, fun k hk => ?_⟩
    · rw [Function.update_of_ne (by omega), hout x hx]
    · rcases Nat.lt_succ_iff_lt_or_eq.mp hk with hk | rfl
      · rw [Function.update_of_ne (by omega), hin k hk]
      · rw [Function.update_self, hout _ (by omega)]
  refine ⟨fun r hr hnot k hk => hloop.1 _ ?_, hloop.2⟩
  have := frameAddr_apart hq hr fun h => hnot (by rw [h]; rfl)
  omega

/-- The loop that copies the upper half of a PML4. -/
theorem copyUpperHalf_spec (hp : p < 2 ^ 40) (hq : q < 2 ^ 40) (hne : p ≠ q) :
    OnlyIn m (copyUpperHalf m (frameAddr p) (frameAddr q)) {q} ∧
      (∀ i < 256, entry (copyUpperHalf m (frameAddr p) (frameAddr q)) q i = entry m q i) ∧
      ∀ i < 256, entry (copyUpperHalf m (frameAddr p) (frameAddr q)) q (256 + i)
        = entry m p (256 + i) := by
  refine @loop_invariant Memory (fun k mem => store64 mem (entryAddr (frameAddr q) (256 + k))
      (load64 mem (entryAddr (frameAddr p) (256 + k))))
    (fun k mem => OnlyIn m mem {q} ∧ (∀ i < 256, entry mem q i = entry m q i) ∧
      ∀ i < k, entry mem q (256 + i) = entry m p (256 + i)) 256 m
    ⟨OnlyIn.refl _ _, fun _ _ => rfl, by simp⟩ ?_
  rintro k mem hk ⟨honly, hlow, hup⟩
  rw [load64_entryAddr (by omega), entryAddr_frameAddr (by omega)]
  refine ⟨honly.trans (onlyIn_store64 hq (by omega) _), fun i hi => ?_, fun i hi => ?_⟩
  · rw [entry_store64_of_ne (by omega), hlow i hi]
  · rcases Nat.lt_succ_iff_lt_or_eq.mp hi with hi | rfl
    · rw [entry_store64_of_ne (by omega), hup i hi]
    · rw [entry_store64_self (entry_lt _ _ _)]
      exact honly.entry_eq hp (by simpa using hne) (by omega)

attribute [irreducible] entry blankTable copyPage copyUpperHalf

end Frames

end AcornOS
