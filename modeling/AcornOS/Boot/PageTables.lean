/-
# The address space that stage 2 builds (`setup_page_tables`)

Stage 2 works on physical memory: seven tables at 0x1000 to 0x7FFF, the last of which is cut short
because stage 2 itself is at 0x7E00.  The kernel never builds another address space for itself, and
every module that writes `frameAddr p` for the bytes of frame `p` relies on this one.

* `directView m`: physical memory, as it is seen through the direct map.
* `directMapLoop_spec`: the loop over the 2MB pages, with its 64-bit address in two registers.
* `entry_setupPageTables`: every entry of every table.
* **`boot_address_space`**: what the processor finds at EVERY canonical address.  The last 64 entries of
  the direct map are the first 512 bytes of stage 2's code.
-/
import AcornOS.Arch.Translation
import AcornOS.Lib.Blocks

namespace AcornOS

open Lib

/-! ## 1. The code -/

/-- `shrd lo, hi, k` -/
def shrd (lo hi k : Nat) : Nat := (hi * 2 ^ 32 + lo) / 2 ^ k % 2 ^ 32

/-- Memory, and the address of the next 2MB page in EDX:EBX. -/
structure MapLoop where
  mem : Memory
  ebx : Nat
  edx : Nat

/-- `.direct_map_loop`, with the index in ESI. -/
def directMapLoop (ecx esi : Nat) (s : MapLoop) : MapLoop :=
  let mem := store32 s.mem 0xA010 ecx
  let mem := store32 mem ((0x7000 + esi * 8) % 2 ^ 32) (s.ebx ||| 0x83)
  let mem := store32 mem ((0x7000 + esi * 8 + 4) % 2 ^ 32) s.edx
  -- add ebx, 0x200000; adc edx, 0
  { mem := mem
    ebx := (s.ebx + 0x200000) % 2 ^ 32
    edx := (s.edx + (s.ebx + 0x200000) / 2 ^ 32) % 2 ^ 32 }

/-- `setup_page_tables` up to the direct map's PD, with the highest address of RAM in EDX:EAX: the
tables blanked and linked. -/
def linkTables (m : Memory) (eax edx : Nat) : Memory :=
  let m := store32 m 0x900 eax
  let m := store32 m 0x904 edx
  let m := repStosd m 0x1000 0 (0x6000 / 4)
  let m := repStosd m 0x7000 0 (0xE00 / 4)
  let m := store32 m (0x1000 + 0 * 8) 0x2003
  let m := store32 m (0x1000 + 256 * 8) 0x4003
  let m := store32 m (0x1000 + 511 * 8) 0x5003
  let m := store32 m 0x2000 0x3003
  let m := store32 m 0x3000 0x0083
  store32 m 0x4000 0x7003

/-- `setup_page_tables` -/
def setupPageTables (m : Memory) (eax edx : Nat) : Memory :=
  let m := linkTables m eax edx
  let ecx := (shrd (load32 m 0x900) (load32 m 0x904) 21 + 1) % 2 ^ 32
  -- `jge` compares signed numbers
  let m := (loop (directMapLoop ecx) (if ecx < 2 ^ 31 then ecx else 0) ⟨m, 0, 0⟩).mem
  let m := store32 m 0xA010 ecx
  let m := store32 m (0x5000 + 510 * 8) 0x6003
  store32 m 0x6000 0x0083

/-- Physical memory, at the addresses of the direct map. -/
def directView (m : Memory) : Memory := fun a => m (virtualToPhysical a)

/-- What a canonical address stands for: a physical address, or nothing. -/
def bootTarget (highest v : Nat) : Option Nat :=
  if v < 2 ^ 21 then some v
  else if physicalMapBase ≤ v ∧ v < physicalMapBase + (highest / 2 ^ 21 + 1) * 2 ^ 21 then
    some (v - physicalMapBase)
  else if 0xFFFFFFFF80000000 ≤ v ∧ v < 0xFFFFFFFF80200000 then some (v - 0xFFFFFFFF80000000)
  else none

/-- An address that the processor accepts: bits 48 to 63 are copies of bit 47. -/
def CanonicalAddr (v : Nat) : Prop := v < 2 ^ 47 ∨ 2 ^ 64 - 2 ^ 47 ≤ v ∧ v < 2 ^ 64

/-! ## 2. The tables -/

section Tables

variable {m : Memory} {highest : Nat}

/-- The loop over the direct map, as far as it stays below stage 2. -/
structure DirectMapped (m : Memory) (k : Nat) (s : MapLoop) : Prop where
  ebx : s.ebx = k * 2 ^ 21
  edx : s.edx = 0
  mem : ∀ b, b % 4 = 0 → b ≠ 0xA010 → load32 s.mem b =
    if 0x7000 ≤ b ∧ b < 0x7000 + 8 * k then
      if b % 8 = 0 then (b - 0x7000) / 8 * 2 ^ 21 + 0x83 else 0
    else load32 m b
  frame : ∀ x, ¬ (0x7000 ≤ x ∧ x < 0x7000 + 8 * k) → ¬ (0xA010 ≤ x ∧ x < 0xA014) → s.mem x = m x

theorem or_hugePage (k : Nat) : k * 2 ^ 21 ||| 0x83 = k * 2 ^ 21 + 0x83 := by
  rw [Nat.mul_comm]
  exact (Nat.two_pow_add_eq_or_of_lt (by decide) k).symm

theorem directMapLoop_spec {ecx k : Nat} {s : MapLoop} (hecx : ecx < 2 ^ 32) (hk : k < 448)
    (h : DirectMapped m k s) : DirectMapped m (k + 1) (directMapLoop ecx k s) := by
  have hlow : (s.ebx ||| 0x83) = k * 2 ^ 21 + 0x83 := by rw [h.ebx, or_hugePage]
  have ha : (0x7000 + k * 8) % 2 ^ 32 = 0x7000 + 8 * k := by omega
  have ha4 : (0x7000 + k * 8 + 4) % 2 ^ 32 = 0x7000 + 8 * k + 4 := by omega
  refine ⟨?_, ?_, fun b hb hne => ?_, fun x hx hne => ?_⟩
  · simp only [directMapLoop, h.ebx]
    omega
  · simp only [directMapLoop, h.ebx, h.edx]
    omega
  · have hmem := h.mem b hb hne
    simp only [directMapLoop, hlow, h.edx, ha, ha4]
    rw [load32_store32 (by decide) (by omega) hb, load32_store32 (by omega) (by omega) hb,
      load32_store32 hecx (by decide) hb, if_neg hne, hmem]
    by_cases hhigh : b = 0x7000 + 8 * k + 4
    · rw [if_pos hhigh, if_pos (by omega), if_neg (by omega)]
    · by_cases hlow : b = 0x7000 + 8 * k
      · rw [if_neg hhigh, if_pos hlow, if_pos (by omega), if_pos (by omega),
          show (b - 0x7000) / 8 = k by omega]
      · have hiff : (0x7000 ≤ b ∧ b < 0x7000 + 8 * k) ↔ (0x7000 ≤ b ∧ b < 0x7000 + 8 * (k + 1)) := by
          omega
        rw [if_neg hhigh, if_neg hlow]
        simp only [hiff]
  · simp only [directMapLoop, ha, ha4]
    rw [store32_of_outside (by omega), store32_of_outside (by omega), store32_of_outside (by omega),
      h.frame x (by omega) hne]

/-- Where stage 2 writes: two words and the tables, up to its own code, and a word behind it. -/
def StageWrites (x : Nat) : Prop :=
  0x900 ≤ x ∧ x < 0x908 ∨ 0x1000 ≤ x ∧ x < 0x7E00 ∨ 0xA010 ≤ x ∧ x < 0xA014

/-- The doublewords of the tables. -/
def tableWord (highest b : Nat) : Nat :=
  if b = 0x6000 then 0x83 else if b = 0x5FF0 then 0x6003
  else if 0x7000 ≤ b ∧ b < 0x7000 + 8 * (highest / 2 ^ 21 + 1) then
    if b % 8 = 0 then (b - 0x7000) / 8 * 2 ^ 21 + 0x83 else 0
  else if b = 0x4000 then 0x7003 else if b = 0x3000 then 0x83 else if b = 0x2000 then 0x3003
  else if b = 0x1FF8 then 0x5003 else if b = 0x1800 then 0x4003 else if b = 0x1000 then 0x2003
  else 0

theorem load32_linkTables {eax edx b : Nat} (heax : eax < 2 ^ 32) (hedx : edx < 2 ^ 32)
    (hb : b % 4 = 0) : load32 (linkTables m eax edx) b =
      if b = 0x4000 then 0x7003 else if b = 0x3000 then 0x83 else if b = 0x2000 then 0x3003
      else if b = 0x1FF8 then 0x5003 else if b = 0x1800 then 0x4003 else if b = 0x1000 then 0x2003
      else if 0x1000 ≤ b ∧ b < 0x7E00 then 0
      else if b = 0x904 then edx else if b = 0x900 then eax else load32 m b := by
  have hblank : ∀ w, (if 0x7000 ≤ b ∧ b < 0x7E00 then 0 else if 0x1000 ≤ b ∧ b < 0x7000 then 0 else w) =
      if 0x1000 ≤ b ∧ b < 0x7E00 then 0 else w := by
    intro w
    split_ifs <;> omega
  unfold linkTables
  simp (disch := first | omega | decide) only [load32_store32, load32_repStosd]
  simp only [Nat.reduceMul, Nat.reduceAdd, Nat.reduceDiv, hblank]

theorem linkTables_of_outside {eax edx x : Nat} (hx : ¬ StageWrites x) :
    linkTables m eax edx x = m x := by
  unfold StageWrites at hx
  unfold linkTables
  simp (disch := first | omega | decide) only [store32_of_outside, repStosd_of_outside]

/-- **`setup_page_tables`**, for RAM that the direct map has room for. -/
theorem setupPageTables_spec (hram : highest < 448 * 2 ^ 21) :
    (∀ b, b % 4 = 0 → 0x1000 ≤ b → b < 0x7E00 →
      load32 (setupPageTables m (highest % 2 ^ 32) (highest / 2 ^ 32)) b = tableWord highest b) ∧
    (load32 (setupPageTables m (highest % 2 ^ 32) (highest / 2 ^ 32)) 0x900 = highest ∧
      load32 (setupPageTables m (highest % 2 ^ 32) (highest / 2 ^ 32)) 0x904 = 0) ∧
    ∀ x, ¬ StageWrites x → setupPageTables m (highest % 2 ^ 32) (highest / 2 ^ 32) x = m x := by
  have hload := fun b => @load32_linkTables m (highest % 2 ^ 32) (highest / 2 ^ 32) b
    (Nat.mod_lt _ (by decide)) (by omega)
  have hframe := fun x => @linkTables_of_outside m (highest % 2 ^ 32) (highest / 2 ^ 32) x
  unfold setupPageTables
  generalize linkTables m (highest % 2 ^ 32) (highest / 2 ^ 32) = m0 at *
  have hecx : (shrd (load32 m0 0x900) (load32 m0 0x904) 21 + 1) % 2 ^ 32 = highest / 2 ^ 21 + 1 := by
    rw [hload _ (by decide), hload _ (by decide)]
    unfold shrd
    norm_num
    omega
  simp only [hecx]
  rw [if_pos (by omega)]
  have hloop := @loop_invariant MapLoop (directMapLoop (highest / 2 ^ 21 + 1)) (DirectMapped m0)
    (highest / 2 ^ 21 + 1) ⟨m0, 0, 0⟩ ⟨rfl, rfl, fun b _ _ => (if_neg (by omega)).symm, fun _ _ _ => rfl⟩
    fun k t hk ht => directMapLoop_spec (by omega) (by omega) ht
  generalize loop (directMapLoop (highest / 2 ^ 21 + 1)) (highest / 2 ^ 21 + 1) ⟨m0, 0, 0⟩ = s at hloop ⊢
  have hword : ∀ b, b % 4 = 0 → b < 0x7E00 → load32 (store32 (store32 (store32 s.mem 0xA010
      (highest / 2 ^ 21 + 1)) (0x5000 + 510 * 8) 0x6003) 0x6000 0x0083) b =
      if b = 0x6000 then 0x83 else if b = 0x5FF0 then 0x6003 else load32 s.mem b := by
    intro b hb hlt
    rw [load32_store32 (by decide) (by decide) hb, load32_store32 (by decide) (by decide) hb,
      load32_store32 (by omega) (by decide) hb, if_neg (by omega : b ≠ 0xA010)]
  refine ⟨fun b hb hge hlt => ?_, ⟨?_, ?_⟩, fun x hx => ?_⟩
  · rw [hword b hb hlt, hloop.mem b hb (by omega), hload b hb, if_pos (And.intro hge hlt)]
    rfl
  · rw [hword _ (by decide) (by decide), hloop.mem _ (by decide) (by decide), hload _ (by decide)]
    norm_num
    omega
  · rw [hword _ (by decide) (by decide), hloop.mem _ (by decide) (by decide), hload _ (by decide)]
    norm_num
    omega
  · have hx' := hframe x hx
    unfold StageWrites at hx
    rw [store32_of_outside (by omega), store32_of_outside (by omega), store32_of_outside (by omega),
      hloop.frame x (by omega) (by omega), hx']

/-! ## 3. The address space -/

section View

variable {p k : Nat}

theorem virtualToPhysical_frame (hp : p < 2 ^ 35) (hk : k < 4096) :
    virtualToPhysical (frameAddr p + k) = p * 4096 + k := by
  unfold virtualToPhysical frameAddr physicalToVirtual add64 sub64 pageSize physicalMapBase
  omega

theorem directView_frame (m : Memory) (hp : p < 2 ^ 35) (hk : k < 4096) :
    directView m (frameAddr p + k) = m (p * 4096 + k) := by
  rw [directView, virtualToPhysical_frame hp hk]

theorem entry_directView (m : Memory) (hp : p < 2 ^ 35) {i : Nat} (hi : i < 512) :
    entry (directView m) p i = load64 m (p * 4096 + 8 * i) := by
  unfold entry
  refine load64_eq_of_bytes fun k hk => ?_
  rw [Nat.add_assoc, directView_frame m hp (by omega), Nat.add_assoc]

end View

/-- The high halves of all entries are zero. -/
theorem tableWord_high {b : Nat} (hb : b % 8 = 0) : tableWord highest (b + 4) = 0 := by
  have hne : ∀ c, c % 8 = 0 → b + 4 ≠ c := by omega
  unfold tableWord
  simp (disch := decide) only [hne, if_false]
  rw [if_neg (by omega : ¬ (b + 4) % 8 = 0), ite_self]

/-- The entries, in table `p`. -/
def bootEntry (highest p i : Nat) : Nat :=
  match p with
  | 1 => if i = 511 then 0x5003 else if i = 256 then 0x4003 else if i = 0 then 0x2003 else 0
  | 2 => if i = 0 then 0x3003 else 0
  | 3 => if i = 0 then 0x83 else 0
  | 4 => if i = 0 then 0x7003 else 0
  | 5 => if i = 510 then 0x6003 else 0
  | 6 => if i = 0 then 0x83 else 0
  | _ => if i ≤ highest / 2 ^ 21 then i * 2 ^ 21 + 0x83 else 0

theorem tableWord_eq {p i : Nat} (hp : 1 ≤ p) (hp7 : p ≤ 7) (hi : i < 512) :
    tableWord highest (p * 4096 + 8 * i) = bootEntry highest p i := by
  have h0 : ∀ p, p * 4096 + 8 * i = p * 4096 ↔ i = 0 := by omega
  have h256 : 1 * 4096 + 8 * i = 0x1800 ↔ i = 256 := by omega
  have h511 : 1 * 4096 + 8 * i = 0x1FF8 ↔ i = 511 := by omega
  have h510 : 5 * 4096 + 8 * i = 0x5FF0 ↔ i = 510 := by omega
  unfold tableWord
  interval_cases p
  · simp (disch := omega) only [if_neg, h511, h256, h0 1, bootEntry]
  · simp (disch := omega) only [if_neg, h0 2, bootEntry]
  · simp (disch := omega) only [if_neg, h0 3, bootEntry]
  · simp (disch := omega) only [if_neg, h0 4, bootEntry]
  · simp (disch := omega) only [if_neg, h510, bootEntry]
  · simp (disch := omega) only [if_neg, h0 6, bootEntry]
  · have hfilled : 0x7000 ≤ 7 * 4096 + 8 * i ∧ 7 * 4096 + 8 * i < 0x7000 + 8 * (highest / 2 ^ 21 + 1) ↔
        i ≤ highest / 2 ^ 21 := by omega
    have hindex : (7 * 4096 + 8 * i - 0x7000) / 8 = i := by omega
    simp (disch := omega) only [if_neg, if_pos, bootEntry, hfilled, hindex]

/-- Every entry that is not in stage 2's code. -/
theorem entry_setupPageTables (hram : highest < 448 * 2 ^ 21) {p i : Nat} (hp : 1 ≤ p) (hp7 : p ≤ 7)
    (hi : i < 512) (hcode : p = 7 → i < 448) :
    entry (directView (setupPageTables m (highest % 2 ^ 32) (highest / 2 ^ 32))) p i =
      bootEntry highest p i := by
  have hload := (setupPageTables_spec (m := m) hram).1
  rw [entry_directView _ (by omega) hi, load64_eq_load32, hload _ (by omega) (by omega) (by omega),
    hload _ (by omega) (by omega) (by omega), tableWord_high (by omega), tableWord_eq hp hp7 hi]
  rfl

/-- A walk through a PDPT with a single entry into a PD of 2MB pages. -/
theorem translate_chain {w : Memory} {root v i3 e4 e3 : Nat} {o : Option Nat}
    (h4 : lookup w root (pml4Index v) = some e4)
    (h3 : lookup w (frame e4) (pdptIndex v) = if pdptIndex v = i3 then some e3 else none)
    (hsmall : hugePage e3 = false) (h2 : pdptIndex v = i3 → lookup w (frame e3) (pdIndex v) = o)
    (hlarge : ∀ e ∈ o, hugePage e = true) : translate w root v = if pdptIndex v = i3 then
      o.map fun e => .large e [permissions e4, permissions e3, permissions e] else none := by
  rw [translate, h4, Option.bind_some, h3]
  by_cases hi : pdptIndex v = i3
  · rw [if_pos hi, if_pos hi, Option.bind_some, hsmall, if_neg (by decide), h2 hi]
    cases o with
    | none => rfl
    | some e => rw [Option.bind_some, if_pos (hlarge e rfl), Option.map_some]
  · rw [if_neg hi, if_neg hi, Option.bind_none]

theorem large_entry (k : Nat) : present (k * 2 ^ 21 + 0x83) = true ∧ hugePage (k * 2 ^ 21 + 0x83) = true ∧
    permissions (k * 2 ^ 21 + 0x83) = (true, false) := by
  unfold present hugePage permissions writable user
  refine ⟨decide_eq_true (by omega), decide_eq_true (by omega), Prod.ext ?_ ?_⟩
  · exact decide_eq_true (by omega)
  · exact decide_eq_false (by omega)

/-- The walk from CR3 = 0x1000. -/
theorem translate_setupPageTables (hram : highest < 448 * 2 ^ 21) {v : Nat} (hv : CanonicalAddr v)
    (hcode : ¬ (physicalMapBase + 448 * 2 ^ 21 ≤ v ∧ v < physicalMapBase + 2 ^ 30)) :
    translate (directView (setupPageTables m (highest % 2 ^ 32) (highest / 2 ^ 32))) 1 v =
      (bootTarget highest v).map fun x =>
        .large (x / 2 ^ 21 * 2 ^ 21 + 0x83) (List.replicate 3 (true, false)) := by
  have hlook : ∀ p i, 1 ≤ p → p ≤ 7 → i < 512 → (p = 7 → i < 448) →
      lookup (directView (setupPageTables m (highest % 2 ^ 32) (highest / 2 ^ 32))) p i =
        if present (bootEntry highest p i) then some (bootEntry highest p i) else none := by
    intro p i hp hp7 hi hc
    rw [lookup, entry_setupPageTables hram hp hp7 hi hc]
  generalize directView (setupPageTables m (highest % 2 ^ 32) (highest / 2 ^ 32)) = w at hlook
  have hlink : ∀ p i e j, bootEntry highest p i = (if i = j then e else 0) → present e = true →
      1 ≤ p → p < 7 → i < 512 → lookup w p i = if i = j then some e else none := by
    intro p i e j heq he hp hp7 hi
    rw [hlook p i hp (by omega) hi (by omega), heq]
    by_cases hj : i = j
    · rw [if_pos hj, if_pos hj, if_pos he]
    · rw [if_neg hj, if_neg hj]
      rfl
  have h1 := hlook 1 (pml4Index v) (by decide) (by decide) (pml4Index_lt_512 v)
    (fun h => absurd h (by decide))
  have hi4 : pml4Index v = v / 2 ^ 39 % 512 := rfl
  have hi3 : pdptIndex v = v / 2 ^ 30 % 512 := rfl
  have hi2 : pdIndex v = v / 2 ^ 21 % 512 := rfl
  have hl3 := pdptIndex_lt v
  have hl2 := pdIndex_lt v
  unfold CanonicalAddr at hv
  unfold physicalMapBase at hcode
  by_cases h0 : pml4Index v = 0
  · -- the first 2MB
    rw [@translate_chain w 1 v 0 0x2003 0x3003 _ (by rw [h1, h0]; simp [bootEntry, present])
      (hlink 2 _ _ _ rfl rfl (by decide) (by decide) hl3) rfl
      (fun _ => hlink 3 _ 0x83 0 rfl rfl (by decide) (by decide) hl2) (by split_ifs <;> simp; rfl)]
    by_cases hlow : v < 2 ^ 21
    · have htarget : bootTarget highest v = some v := if_pos hlow
      rw [if_pos (by omega), if_pos (by omega), htarget, Option.map_some, Option.map_some,
        show v / 2 ^ 21 * 2 ^ 21 = 0 by omega]
      rfl
    · have htarget : bootTarget highest v = none := by
        unfold bootTarget physicalMapBase
        rw [if_neg hlow, if_neg (by omega), if_neg (by omega)]
      rw [htarget, Option.map_none]
      split_ifs <;> first | rfl | omega
  · by_cases h256 : pml4Index v = 256
    · -- the direct map
      have hpd : pdptIndex v = 0 → lookup w 7 (pdIndex v) = if pdIndex v ≤ highest / 2 ^ 21 then
          some (pdIndex v * 2 ^ 21 + 0x83) else none := by
        intro h3
        rw [hlook 7 _ (by decide) (by decide) hl2 (fun _ => by omega),
          show bootEntry highest 7 (pdIndex v) = if pdIndex v ≤ highest / 2 ^ 21 then
            pdIndex v * 2 ^ 21 + 0x83 else 0 from rfl]
        by_cases hin : pdIndex v ≤ highest / 2 ^ 21
        · rw [if_pos hin, if_pos hin, if_pos (large_entry _).1]
        · rw [if_neg hin, if_neg hin]
          rfl
      rw [@translate_chain w 1 v 0 0x4003 0x7003 _ (by rw [h1, h256]; simp [bootEntry, present])
        (hlink 4 _ _ _ rfl rfl (by decide) (by decide) hl3) rfl hpd
        fun e he => ?_]
      rotate_left
      · split_ifs at he
        · rw [← Option.some.inj he]
          exact (large_entry _).2.1
        · cases he
      by_cases hin : v < 0xFFFF800000000000 + (highest / 2 ^ 21 + 1) * 2 ^ 21
      · have htarget : bootTarget highest v = some (v - 0xFFFF800000000000) := by
          unfold bootTarget physicalMapBase
          rw [if_neg (by omega), if_pos (by omega)]
        rw [if_pos (by omega), if_pos (by omega), htarget, Option.map_some, Option.map_some,
          (large_entry _).2.2, show (v - 0xFFFF800000000000) / 2 ^ 21 = pdIndex v by omega]
        rfl
      · have htarget : bootTarget highest v = none := by
          unfold bootTarget physicalMapBase
          rw [if_neg (by omega), if_neg (by omega), if_neg (by omega)]
        rw [htarget, Option.map_none]
        split_ifs <;> first | rfl | omega
    · by_cases h511 : pml4Index v = 511
      · -- the kernel
        rw [@translate_chain w 1 v 510 0x5003 0x6003 _ (by rw [h1, h511]; simp [bootEntry, present])
          (hlink 5 _ _ _ rfl rfl (by decide) (by decide) hl3) rfl
          (fun _ => hlink 6 _ 0x83 0 rfl rfl (by decide) (by decide) hl2) (by split_ifs <;> simp; rfl)]
        by_cases hin : 0xFFFFFFFF80000000 ≤ v ∧ v < 0xFFFFFFFF80200000
        · have htarget : bootTarget highest v = some (v - 0xFFFFFFFF80000000) := by
            unfold bootTarget physicalMapBase
            rw [if_neg (by omega), if_neg (by omega), if_pos hin]
          rw [if_pos (by omega), if_pos (by omega), htarget, Option.map_some, Option.map_some,
            show (v - 0xFFFFFFFF80000000) / 2 ^ 21 * 2 ^ 21 = 0 by omega]
          rfl
        · have htarget : bootTarget highest v = none := by
            unfold bootTarget physicalMapBase
            rw [if_neg (by omega), if_neg (by omega), if_neg hin]
          rw [htarget, Option.map_none]
          split_ifs <;> first | rfl | omega
      · have htarget : bootTarget highest v = none := by
          unfold bootTarget physicalMapBase
          rw [if_neg (by omega), if_neg (by omega), if_neg (by omega)]
        rw [htarget, translate, h1, bootEntry, if_neg h511, if_neg h256, if_neg h0]
        rfl

theorem bootTarget_eq_some {v x : Nat} (h : bootTarget highest v = some x) :
    ∃ b, b % 2 ^ 21 = 0 ∧ v = b + x ∧ x < (highest / 2 ^ 21 + 1) * 2 ^ 21 := by
  unfold bootTarget physicalMapBase at h
  split_ifs at h
  · exact ⟨0, rfl, by have := Option.some.inj h; omega, by have := Option.some.inj h; omega⟩
  · exact ⟨0xFFFF800000000000, by decide, by have := Option.some.inj h; omega,
      by have := Option.some.inj h; omega⟩
  · exact ⟨0xFFFFFFFF80000000, by decide, by have := Option.some.inj h; omega,
      by have := Option.some.inj h; omega⟩

theorem target_large {b x : Nat} (hb : b % 2 ^ 21 = 0) (hx : x < 2 ^ 52) (bits : List (Bool × Bool)) :
    (Mapping.large (x / 2 ^ 21 * 2 ^ 21 + 0x83) bits).target (b + x) = x / 4096 ∧
      (b + x) % 4096 = x % 4096 := by
  simp only [Mapping.target, frame]
  omega

/-- What the code finds after `setup_page_tables`: the tables that stage 2 made of its memory `m`, for
RAM up to `highest`, in the physical memory `t`. -/
structure BootSpace (m : Memory) (highest : Nat) (t : Memory) : Prop where
  walk : ∀ v, CanonicalAddr v → ¬ (physicalMapBase + 448 * 2 ^ 21 ≤ v ∧ v < physicalMapBase + 2 ^ 30) →
    translate (directView t) 1 v = (bootTarget highest v).map fun x =>
      .large (x / 2 ^ 21 * 2 ^ 21 + 0x83) (List.replicate 3 (true, false))
  code : ∀ i, 448 ≤ i → i < 512 → entry (directView t) 7 i = load64 m (0x7000 + 8 * i)
  rest : ∀ x, ¬ StageWrites x → t x = m x

/-- An address that stands for `x` reads the byte there. -/
theorem BootSpace.readByte {t : Memory} (h : BootSpace m highest t) (hram : highest < 448 * 2 ^ 21)
    {v x : Nat} (hv : CanonicalAddr v)
    (hcode : ¬ (physicalMapBase + 448 * 2 ^ 21 ≤ v ∧ v < physicalMapBase + 2 ^ 30))
    (hx : bootTarget highest v = some x) : readByte (directView t) 1 v = some (t x) := by
  obtain ⟨b, hb, rfl, hlt⟩ := bootTarget_eq_some hx
  obtain ⟨htarget, hoffset⟩ := target_large hb (by omega : x < 2 ^ 52) (List.replicate 3 (true, false))
  rw [AcornOS.readByte, h.walk _ hv hcode, hx, Option.map_some, Option.map_some, htarget, hoffset,
    directView_frame _ (by omega) (Nat.mod_lt _ (by decide)), Nat.div_add_mod']

/-- Every frame of RAM is where the kernel looks for it. -/
theorem BootSpace.ram {t : Memory} (h : BootSpace m highest t) (hram : highest < 448 * 2 ^ 21)
    {p k : Nat} (hp : p * 4096 ≤ highest) (hk : k < 4096) :
    AcornOS.readByte (directView t) 1 (frameAddr p + k) = some (directView t (frameAddr p + k)) := by
  have haddr : frameAddr p + k = 0xFFFF800000000000 + (p * 4096 + k) := by
    unfold frameAddr physicalToVirtual add64 pageSize physicalMapBase
    omega
  have htarget : bootTarget highest (frameAddr p + k) = some (p * 4096 + k) := by
    rw [haddr]
    unfold bootTarget physicalMapBase
    rw [if_neg (by omega), if_pos (by omega), Nat.add_sub_cancel_left]
  rw [h.readByte hram (by rw [haddr]; unfold CanonicalAddr; omega)
    (by rw [haddr]; unfold physicalMapBase; omega) htarget, directView_frame _ (by omega) hk]

theorem setupPageTables_space (m : Memory) (hram : highest < 448 * 2 ^ 21) :
    BootSpace m highest (setupPageTables m (highest % 2 ^ 32) (highest / 2 ^ 32)) := by
  have hframe := (setupPageTables_spec (m := m) hram).2.2
  refine ⟨fun v => translate_setupPageTables hram, fun i hi hi' => ?_, hframe⟩
  rw [entry_directView _ (by decide) hi']
  refine load64_congr fun k hk => hframe _ ?_
  unfold StageWrites
  omega

end Tables

end AcornOS
