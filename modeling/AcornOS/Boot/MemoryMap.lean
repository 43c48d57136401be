/-
# The memory map, from the firmware to the kernel (`detect_memory`)

The firmware describes memory entry by entry, each call naming the next; stage 2 keeps the entries at
0x800 and the highest end of usable memory at 0xA000.

* `reported`: the entries that the firmware names, in order, without those of length zero.
* `detectMemory_spec`: what one more answer adds, and from it, by induction on the answers, what the
  whole enumeration leaves in memory.
* `highestEnd`: the running maximum.
-/
import AcornOS.Lib.Blocks
import AcornOS.Memory.Pmm

namespace AcornOS

open Lib

/-! ## 1. The code -/

/-- What INT 0x15 answers to a call that succeeds: an entry, how many bytes of it were written, and the
value for the next call in EBX. -/
structure E820Reply where
  entry : E820Entry
  ecx : Nat
  ebx : Nat

/-- The first `ecx` bytes of the entry, at DI. -/
def E820Reply.write (r : E820Reply) (m : Memory) (di : Nat) : Memory :=
  let full := store32 (store32 (store64 (store64 m di r.entry.base) (di + 8) r.entry.length) (di + 16)
    r.entry.type) (di + 20) r.entry.acpi
  fun x => if x < di + r.ecx then full x else m x

/-- The end of usable memory, if it is the highest one yet. -/
def updateHighest (m : Memory) (di : Nat) : Memory :=
  let eax := load32 m di + load32 m (di + 8)
  -- adc
  let edx := (load32 m (di + 4) + load32 m (di + 12) + eax / 2 ^ 32) % 2 ^ 32
  let eax := eax % 2 ^ 32
  if load32 m 0xA004 < edx ∨ edx = load32 m 0xA004 ∧ load32 m 0xA000 < eax then
    store32 (store32 m 0xA000 eax) 0xA004 edx
  else m

/-- An entry that was written at DI is counted. -/
def countEntry (m : Memory) (di : Nat) : Memory :=
  let m := store16 m 0x600 ((load16 m 0x600 + 1) % 2 ^ 16)
  if load32 m (di + 16) = 1 then updateHighest m di else m

/-- The loop of `detect_memory`, over what the firmware answers.  After the last answer it sets the carry
flag. -/
def detectLoop : List E820Reply → Nat → Memory → Memory
  | [], di, m => store32 m (di + 20) 1
  | r :: replies, di, m =>
    let m := r.write (store32 m (di + 20) 1) di
    let s := if r.ecx = 0 then (di, m) else ((di + 24) % 2 ^ 16, countEntry m di)
    if r.ebx = 0 then s.2 else detectLoop replies s.1 s.2

/-- `detect_memory` -/
def detectMemory (replies : List E820Reply) (m : Memory) : Memory :=
  detectLoop replies 0x800 (store16 m 0x600 0)

/-! ## 2. What it leaves in memory -/

/-- The entry at `a`. -/
def entryAt (m : Memory) (a : Nat) : E820Entry :=
  ⟨load64 m a, load64 m (a + 8), load32 m (a + 16), load32 m (a + 20)⟩

/-- The map that `pmm_init` is given. -/
def memoryMap (m : Memory) : List E820Entry :=
  (List.range (load16 m 0x600)).map fun i => entryAt m (0x800 + 24 * i)

/-- The highest address of RAM, as stage 2 has it. -/
def highestRam (m : Memory) : Nat := load32 m 0xA000 + 2 ^ 32 * load32 m 0xA004

/-- The entries that the firmware names.  If it does not write the attributes they are 1. -/
def reported : List E820Reply → List E820Entry
  | [] => []
  | r :: replies =>
    let rest := if r.ebx = 0 then [] else reported replies
    if r.ecx = 0 then rest
    else (if r.ecx = 24 then r.entry else { r.entry with acpi := 1 }) :: rest

/-- The highest end of usable memory, from `h`. -/
def highestEnd (h : Nat) (es : List E820Entry) : Nat :=
  es.foldl (fun h e => if e.type = e820Usable then max h ((e.base + e.length) % 2 ^ 64) else h) h

/-- An answer as firmware gives it: nothing, the entry, or the entry with its attributes. -/
structure E820Reply.Wf (r : E820Reply) : Prop where
  ecx : r.ecx = 0 ∨ r.ecx = 20 ∨ r.ecx = 24
  base : r.entry.base < 2 ^ 64
  length : r.entry.length < 2 ^ 64
  type : r.entry.type < 2 ^ 32
  acpi : r.entry.acpi < 2 ^ 32

/-- Where `detect_memory` writes, for at most 85 entries. -/
def MapWrites (x : Nat) : Prop :=
  0x600 ≤ x ∧ x < 0x602 ∨ 0x800 ≤ x ∧ x < 0x1010 ∨ 0xA000 ≤ x ∧ x < 0xA008

section Detect

variable {m m' : Memory} {di a : Nat} {es : List E820Entry} {r : E820Reply}

theorem entryAt_congr (h : ∀ k < 24, m' (a + k) = m (a + k)) : entryAt m' a = entryAt m a := by
  have hpart : ∀ j, j ≤ 16 → load64 m' (a + j) = load64 m (a + j) := fun j hj =>
    load64_congr fun k hk => by rw [Nat.add_assoc]; exact h _ (by omega)
  have hpart' : ∀ j, j ≤ 20 → load32 m' (a + j) = load32 m (a + j) := fun j hj =>
    load32_congr fun k hk => by rw [Nat.add_assoc]; exact h _ (by omega)
  have h0 := hpart 0 (by decide)
  rw [Nat.add_zero] at h0
  rw [entryAt, h0, hpart 8 (by decide), hpart' 16 (by decide), hpart' 20 (by decide), ← entryAt]

theorem highestRam_congr (h : ∀ k < 8, m' (0xA000 + k) = m (0xA000 + k)) :
    highestRam m' = highestRam m := by
  have h0 : load32 m' 0xA000 = load32 m 0xA000 := load32_congr fun k hk => h k (by omega)
  have h4 : load32 m' 0xA004 = load32 m 0xA004 := load32_congr fun k hk => by
    have := h (4 + k) (by omega)
    rwa [← Nat.add_assoc] at this
  rw [highestRam, h0, h4, ← highestRam]

/-- The answer as `reported` has it. -/
def E820Reply.reported (r : E820Reply) : E820Entry :=
  if r.ecx = 24 then r.entry else { r.entry with acpi := 1 }

theorem E820Reply.write_of_outside {x : Nat} (hx : x < di ∨ di + 24 ≤ x) :
    r.write (store32 m (di + 20) 1) di x = m x := by
  unfold E820Reply.write
  split
  · rw [store32_of_outside (by omega), store32_of_outside (by omega), store64_of_outside (by omega),
      store64_of_outside (by omega), store32_of_outside (by omega)]
  · exact store32_of_outside (by omega)

theorem entryAt_write (hr : r.Wf) (hne : r.ecx ≠ 0) :
    entryAt (r.write (store32 m (di + 20) 1) di) di = r.reported := by
  obtain ⟨full, hfull, hbyte⟩ : ∃ full, entryAt full di = r.entry ∧
      ∀ k < r.ecx, r.write (store32 m (di + 20) 1) di (di + k) = full (di + k) := by
    refine ⟨_, ?_, fun k hk => if_pos (by omega)⟩
    rw [entryAt, load64_store32_of_apart (by omega), load64_store32_of_apart (by omega),
      load64_store64_of_apart (by omega), load64_store64_self hr.base,
      load64_store32_of_apart (by omega), load64_store32_of_apart (by omega),
      load64_store64_self hr.length, load32_store32_of_apart (by omega), load32_store32_self hr.type,
      load32_store32_self hr.acpi]
  have hlate : ∀ k, r.ecx ≤ k → r.write (store32 m (di + 20) 1) di (di + k) =
      store32 m (di + 20) 1 (di + k) := fun k hk => if_neg (by omega)
  generalize r.write (store32 m (di + 20) 1) di = t at hbyte hlate
  unfold E820Reply.reported
  rcases hr.ecx with h | h | h
  · exact absurd h hne
  · -- the attributes are those that were there
    have hbase : load64 t di = load64 full di := load64_congr fun k hk => hbyte k (by omega)
    have hlength : load64 t (di + 8) = load64 full (di + 8) := load64_congr fun k hk => by
      rw [Nat.add_assoc]
      exact hbyte _ (by omega)
    have htype : load32 t (di + 16) = load32 full (di + 16) := load32_congr fun k hk => by
      rw [Nat.add_assoc]
      exact hbyte _ (by omega)
    have hacpi : load32 t (di + 20) = load32 (store32 m (di + 20) 1) (di + 20) :=
      load32_congr fun k hk => by
        rw [Nat.add_assoc]
        exact hlate _ (by omega)
    rw [if_neg (by omega), ← hfull, entryAt, hbase, hlength, htype, hacpi, load32_store32_self (by decide)]
    rfl
  · rw [if_pos h, ← hfull]
    exact entryAt_congr fun k hk => hbyte k (by omega)

theorem updateHighest_of_outside {x : Nat} (hx : x < 0xA000 ∨ 0xA008 ≤ x) :
    updateHighest m di x = m x := by
  unfold updateHighest
  split
  · rw [store32_of_outside (by omega), store32_of_outside (by omega)]
  · rfl

/-- Two numbers in two registers each, added and compared. -/
theorem highestRam_updateHighest : highestRam (updateHighest m di) =
    max (highestRam m) ((load64 m di + load64 m (di + 8)) % 2 ^ 64) := by
  have h0 := load32_lt m di
  have h8 := load32_lt m (di + 8)
  have ha := load32_lt m 0xA000
  have hsum : (load64 m di + load64 m (di + 8)) % 2 ^ 64 = (load32 m di + load32 m (di + 8)) % 2 ^ 32 +
      2 ^ 32 * ((load32 m (di + 4) + load32 m (di + 12) +
        (load32 m di + load32 m (di + 8)) / 2 ^ 32) % 2 ^ 32) := by
    rw [load64_eq_load32, load64_eq_load32, Nat.add_assoc di 8 4]
    omega
  rw [hsum]
  simp only [updateHighest]
  split
  · rw [highestRam, load32_store32_of_apart (by decide), load32_store32_self (by omega),
      load32_store32_self (by omega), highestRam]
    omega
  · unfold highestRam
    omega

/-- The entries `es` were found, starting from memory `m0`. -/
structure Recorded (m0 : Memory) (es : List E820Entry) (m : Memory) : Prop where
  count : load16 m 0x600 = es.length
  map : ∀ i (hi : i < es.length), entryAt m (0x800 + 24 * i) = es[i]
  highest : highestRam m = highestEnd (highestRam m0) es
  frame : ∀ x, ¬ MapWrites x → m x = m0 x

/-- Writes behind the map, and to the words of nobody, keep what was found. -/
theorem Recorded.congr (h : Recorded m' es m) {t : Memory} (hlen : es.length ≤ 85)
    (ht : ∀ x, x < 0x800 + 24 * es.length ∨ 0x1010 ≤ x → t x = m x) : Recorded m' es t := by
  refine ⟨?_, fun i hi => ?_, ?_, fun x hx => ?_⟩
  · rw [← h.count]
    exact load16_congr fun k hk => ht _ (Or.inl (by omega))
  · rw [← h.map i hi]
    exact entryAt_congr fun k hk => ht _ (Or.inl (by omega))
  · rw [← h.highest]
    exact highestRam_congr fun k hk => ht _ (Or.inr (by omega))
  · rw [← h.frame x hx]
    unfold MapWrites at hx
    by_cases hlow : x < 0x800 + 24 * es.length
    · exact ht x (Or.inl hlow)
    · exact ht x (Or.inr (by omega))

theorem highestEnd_append (h : Nat) (es : List E820Entry) (e : E820Entry) :
    highestEnd h (es ++ [e]) = if e.type = e820Usable then
      max (highestEnd h es) ((e.base + e.length) % 2 ^ 64) else highestEnd h es := by
  unfold highestEnd
  rw [List.foldl_append, List.foldl_cons, List.foldl_nil]

theorem countEntry_of_outside {x : Nat} (hx : x < 0x600 ∨ 0x602 ≤ x) (hx' : x < 0xA000 ∨ 0xA008 ≤ x) :
    countEntry m di x = m x := by
  simp only [countEntry]
  split
  · rw [updateHighest_of_outside hx', store16_of_outside hx]
  · exact store16_of_outside hx

/-- **One more entry**, which the firmware wrote behind the others. -/
theorem Recorded.countEntry (h : Recorded m' es m) (hlen : es.length < 85) :
    Recorded m' (es ++ [entryAt m (0x800 + 24 * es.length)])
      (countEntry m (0x800 + 24 * es.length)) := by
  have hout := fun x hx hx' => @countEntry_of_outside m (0x800 + 24 * es.length) x hx hx'
  refine ⟨?_, fun i hi => ?_, ?_, fun x hx => ?_⟩
  · have hcount : load16 (AcornOS.countEntry m (0x800 + 24 * es.length)) 0x600 =
        (load16 m 0x600 + 1) % 2 ^ 16 := by
      simp only [AcornOS.countEntry]
      split
      · rw [load16_congr fun k hk => updateHighest_of_outside (by omega),
          load16_store16_self (Nat.mod_lt _ (by decide))]
      · rw [load16_store16_self (Nat.mod_lt _ (by decide))]
    rw [hcount, h.count, List.length_append, List.length_singleton]
    omega
  · rw [List.length_append, List.length_singleton] at hi
    rw [entryAt_congr fun k hk => hout _ (by omega) (by omega)]
    by_cases hlast : i = es.length
    · subst hlast
      rw [List.getElem_concat_length rfl]
    · rw [List.getElem_append_left (by omega)]
      exact h.map i (by omega)
  · have hload : ∀ a, 0x800 ≤ a → load32 (store16 m 0x600 ((load16 m 0x600 + 1) % 2 ^ 16)) a = load32 m a :=
      fun a ha => load32_congr fun k hk => store16_of_outside (by omega)
    have hload' : ∀ a, 0x800 ≤ a → load64 (store16 m 0x600 ((load16 m 0x600 + 1) % 2 ^ 16)) a = load64 m a :=
      fun a ha => load64_congr fun k hk => store16_of_outside (by omega)
    have hhigh : highestRam (store16 m 0x600 ((load16 m 0x600 + 1) % 2 ^ 16)) = highestRam m :=
      highestRam_congr fun k hk => store16_of_outside (by omega)
    rw [highestEnd_append, ← h.highest]
    simp only [AcornOS.countEntry]
    rw [hload _ (by omega)]
    by_cases htype : (entryAt m (0x800 + 24 * es.length)).type = e820Usable
    · rw [if_pos htype, if_pos (show load32 m (0x800 + 24 * es.length + 16) = 1 from htype),
        highestRam_updateHighest, hhigh, hload' _ (by omega), hload' _ (by omega)]
      rfl
    · rw [if_neg htype, if_neg (show ¬ load32 m (0x800 + 24 * es.length + 16) = 1 from htype), hhigh]
  · rw [← h.frame x hx]
    unfold MapWrites at hx
    exact hout x (by omega) (by omega)

/-- **The enumeration.** -/
theorem detectLoop_spec : ∀ (replies : List E820Reply) {es : List E820Entry} {m : Memory},
    (∀ r ∈ replies, r.Wf) → es.length + (reported replies).length ≤ 85 → Recorded m' es m →
    Recorded m' (es ++ reported replies) (detectLoop replies (0x800 + 24 * es.length) m)
  | [], es, m, _, hlen, h => by
    rw [reported, List.append_nil, detectLoop]
    refine h.congr (Nat.le_trans (Nat.le_add_right _ _) hlen) fun x hx => ?_
    have : es.length ≤ 85 := Nat.le_trans (Nat.le_add_right _ _) hlen
    exact store32_of_outside (by omega)
  | r :: replies, es, m, hwf, hlen, h => by
    have hr := hwf r List.mem_cons_self
    have hwf' : ∀ r ∈ replies, r.Wf := fun r hr => hwf r (List.mem_cons_of_mem _ hr)
    have hes : es.length ≤ 85 := Nat.le_trans (Nat.le_add_right _ _) hlen
    -- what the firmware writes is behind the entries found
    have hwrite : Recorded m' es (r.write (store32 m (0x800 + 24 * es.length + 20) 1)
        (0x800 + 24 * es.length)) :=
      h.congr hes fun x hx => E820Reply.write_of_outside (by omega)
    simp only [detectLoop]
    by_cases hzero : r.ecx = 0
    · rw [if_pos hzero]
      by_cases hend : r.ebx = 0
      · rw [if_pos hend, reported, if_pos hend, if_pos hzero, List.append_nil]
        exact hwrite
      · rw [reported, if_neg hend, if_pos hzero] at hlen ⊢
        rw [if_neg hend]
        exact detectLoop_spec replies hwf' hlen hwrite
    · have hroom : es.length < 85 := by
        rw [reported, if_neg hzero, List.length_cons] at hlen
        omega
      have hcount := hwrite.countEntry hroom
      rw [entryAt_write hr hzero] at hcount
      have hdi : (0x800 + 24 * es.length + 24) % 2 ^ 16 = 0x800 + 24 * (es ++ [r.reported]).length := by
        rw [List.length_append, List.length_singleton]
        omega
      rw [if_neg hzero, hdi]
      rw [reported, if_neg hzero] at hlen ⊢
      by_cases hend : r.ebx = 0
      · rw [if_pos hend, if_pos hend]
        exact hcount
      · rw [if_neg hend] at hlen
        rw [if_neg hend, if_neg hend, ← E820Reply.reported, List.append_cons]
        refine detectLoop_spec replies hwf' ?_ hcount
        rw [List.length_append, List.length_singleton]
        rw [List.length_cons] at hlen
        omega

theorem detectMemory_spec {replies : List E820Reply} (hwf : ∀ r ∈ replies, r.Wf)
    (hlen : (reported replies).length ≤ 85) :
    Recorded m (reported replies) (detectMemory replies m) := by
  have hstart : Recorded m [] (store16 m 0x600 0) := by
    refine ⟨load16_store16_self (by decide), fun i hi => absurd hi (Nat.not_lt_zero i),
      highestRam_congr fun k hk => store16_of_outside (by omega), fun x hx => ?_⟩
    unfold MapWrites at hx
    exact store16_of_outside (by omega)
  exact detectLoop_spec replies hwf (by rwa [List.length_nil, Nat.zero_add]) hstart

end Detect

end AcornOS
