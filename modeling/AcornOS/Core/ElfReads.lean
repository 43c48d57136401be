/-
# What the loader reads of a file

`elf_load_from_path` puts a file into a buffer of its size, and `elf_load` is not told that size.  It
follows the offsets in the headers wherever they lead, modulo `2^64`.

* `stagingReads` lists the offsets of the bytes that are read through the buffer's address, up to the
  end of the call or to the panic that ends it.
* `ImageInside` is about the fields of the headers: the header is complete, and so is each program header
  that the loop gets to, and each PT_LOAD segment ends inside the file.
* **`elf_reads_inside_iff`**: all reads are inside the file EXACTLY WHEN this holds.  An image that
  does not make the loader write over the buffer can be judged by its bytes (`imageInside_iff_file`).
-/
import AcornOS.Processes.Exec

namespace AcornOS

open Lib

/-! ## 1. The reads -/

/-- The offsets of the `n` bytes at `o`. -/
def bytesAt (o n : Nat) : List Nat := (List.range n).map (add64 o)

/-- Checks that are made until one fails, with the bytes that each of them reads. -/
def readsUntil : List (List Nat × Bool) → List Nat
  | [] => []
  | (offsets, ok) :: rest => offsets ++ if ok then readsUntil rest else []

/-- The checks of the header. -/
def checkReads (m : Memory) (file : Nat) : List Nat :=
  readsUntil [([0], m file == 0x7F), ([1], m (add64 file 1) == 0x45), ([2], m (add64 file 2) == 0x4C),
    ([3], m (add64 file 3) == 0x46), ([4], m (add64 file 4) == 2),
    ([18, 19], loadLe m (add64 file 18) 2 == 0x3E), ([16, 17], loadLe m (add64 file 16) 2 == 2)]

/-- A PT_LOAD segment whose header is at `a`, which is the offset `o`: `p_flags`, `p_vaddr` and `p_memsz`;
then, if its pages could be mapped, `p_offset` and `p_filesz`, and the segment's bytes. -/
def segmentReads (pageDir a o : Nat) (s : Machine) : List Nat :=
  bytesAt (add64 o 4) 4 ++ bytesAt (add64 o 16) 8 ++ bytesAt (add64 o 40) 8 ++
    match mapPagesOf pageDir (phdrAt s.mem a) s with
    | .error _ => []
    | .ok t =>
      bytesAt (add64 o 8) 8 ++ bytesAt (add64 o 32) 8 ++
        bytesAt (phdrAt t.mem a).offset (phdrAt t.mem a).filesz

/-- A round of the loop: `e_phnum`, `p_type`, and what is read for a PT_LOAD segment. -/
def roundReads (pageDir file phoff i : Nat) (s : Machine) : List Nat :=
  let o := add64 phoff (sizeofPhdr * i)
  let a := add64 (add64 file phoff) (sizeofPhdr * i)
  bytesAt 60 2 ++
    if i < elfPhnum s.mem file then
      bytesAt o 4 ++ if (phdrAt s.mem a).type = ptLoad then segmentReads pageDir a o s else []
    else []

/-- The first `n` rounds. -/
def loopReads (pageDir file phoff : Nat) (s : Machine) : Nat → List Nat
  | 0 => []
  | n + 1 => loopReads pageDir file phoff s n ++
    match forRange (loadHeader 0 pageDir file (add64 file phoff)) n (0, s) with
    | .error _ => []
    | .ok x => roundReads pageDir file phoff n x.2

/-- `elf_load`: the checks, `e_phoff`, the loop, and `e_entry` once the stack is mapped. -/
def elfReads (s : Machine) (file : Nat) (p : Process) : List Nat :=
  checkReads s.mem file ++
    if elfHeaderOk s.mem file then
      bytesAt 32 8 ++ loopReads p.pageDir file (elfPhoff s.mem file) s uint16Max ++
        match loadSegments 0 p.pageDir file s with
        | .error _ => []
        | .ok x =>
          match mapZeroed p.pageDir userStackPage (pagePresent + pageWritable + pageUser) x.2 with
          | .error _ => []
          | .ok _ => bytesAt 24 8
    else []

/-- The machine with the file in the buffer. -/
def staged (s : Kernel) (f : FileRead) (buffer : Nat) : Machine :=
  { s.machine with mem := writeBytes s.machine.mem buffer f.bytes }

/-- `elf_load_from_path`: what `elf_load` reads if it is called. -/
def stagingReads (s : Kernel) (f : FileRead) (proc : Nat) : List Nat :=
  match kmalloc s.heap f.size with
  | .error _ => []
  | .ok (buffer, _) =>
    if buffer = 0 ∨ f.bytes.length ≠ f.size then []
    else elfReads (staged s f buffer) buffer (s.pcb proc)

/-! ## 2. The condition -/

/-- Program header `i` is complete as far as it is read, and the segment ends inside the file.  The
fields are those that the round finds; `p_offset` and `p_filesz` are read after the pages were mapped. -/
def EntryInside (size pageDir file phoff i : Nat) (s : Machine) : Prop :=
  let o := add64 phoff (sizeofPhdr * i)
  let a := add64 (add64 file phoff) (sizeofPhdr * i)
  i < elfPhnum s.mem file → o + 4 ≤ size ∧
    ((phdrAt s.mem a).type = ptLoad → o + 48 ≤ size ∧
      ∀ t, mapPagesOf pageDir (phdrAt s.mem a) s = .ok t →
        (phdrAt t.mem a).filesz = 0 ∨ (phdrAt t.mem a).offset + (phdrAt t.mem a).filesz ≤ size)

/-- The header is complete up to `e_phnum`, and so is the program header of every round. -/
def ImageInside (size : Nat) (s : Machine) (file : Nat) (p : Process) : Prop :=
  62 ≤ size ∧ ∀ i < uint16Max, ∀ x,
    forRange (loadHeader 0 p.pageDir file (add64 file (elfPhoff s.mem file))) i (0, s) = .ok x →
      EntryInside size p.pageDir file (elfPhoff s.mem file) i x.2

section Reads

variable {size : Nat} (hsize : size < 2 ^ 32)

include hsize

/-- Bytes are inside the file if they end there: an offset that wraps around was outside before. -/
theorem bytesAt_inside_iff {o n : Nat} (ho : o < 2 ^ 64) :
    (∀ k ∈ bytesAt o n, k < size) ↔ n = 0 ∨ o + n ≤ size := by
  constructor
  · intro h
    by_contra hout
    have hmem : ∀ j < n, add64 o j < size := fun j hj =>
      h _ (List.mem_map.mpr ⟨j, List.mem_range.mpr hj, rfl⟩)
    have hfirst := hmem 0 (by omega)
    rw [add64_eq (by omega)] at hfirst
    have hlast := hmem (size - o) (by omega)
    rw [add64_eq (by omega)] at hlast
    omega
  · intro hin k hk
    obtain ⟨j, hj, rfl⟩ := List.mem_map.mp hk
    rw [List.mem_range] at hj
    rw [add64_eq (by omega)]
    omega

theorem segmentReads_inside_iff {pageDir a o : Nat} {s : Machine} (ho : o + 4 ≤ size) :
    (∀ k ∈ segmentReads pageDir a o s, k < size) ↔ o + 48 ≤ size ∧
      ∀ t, mapPagesOf pageDir (phdrAt s.mem a) s = .ok t →
        (phdrAt t.mem a).filesz = 0 ∨ (phdrAt t.mem a).offset + (phdrAt t.mem a).filesz ≤ size := by
  have hadd : ∀ k, k ≤ 48 → add64 o k = o + k := fun k hk => add64_eq (by omega)
  have hfield : ∀ {k n}, k ≤ 40 → ((∀ j ∈ bytesAt (o + k) n, j < size) ↔ n = 0 ∨ o + k + n ≤ size) :=
    fun hk => bytesAt_inside_iff hsize (by omega)
  unfold segmentReads
  simp only [hadd 4 (by decide), hadd 16 (by decide), hadd 40 (by decide), hadd 8 (by decide),
    hadd 32 (by decide), List.forall_mem_append, hfield (show 4 ≤ 40 by decide),
    hfield (show 16 ≤ 40 by decide), hfield (le_refl 40)]
  cases mapPagesOf pageDir (phdrAt s.mem a) s with
  | error e =>
    simp
    omega
  | ok t =>
    simp only [List.forall_mem_append, hfield (show 8 ≤ 40 by decide),
      hfield (show 32 ≤ 40 by decide), bytesAt_inside_iff hsize (load64_lt t.mem (a + 8)),
      Except.ok.injEq, forall_eq', phdrAt]
    constructor
    · rintro ⟨⟨-, hmemsz⟩, -, hbytes⟩
      exact ⟨by omega, hbytes⟩
    · rintro ⟨hheader, hbytes⟩
      exact ⟨⟨⟨by omega, by omega⟩, by omega⟩, ⟨by omega, by omega⟩, hbytes⟩

theorem roundReads_inside_iff {pageDir file phoff i : Nat} {s : Machine} :
    (∀ k ∈ roundReads pageDir file phoff i s, k < size) ↔
      62 ≤ size ∧ EntryInside size pageDir file phoff i s := by
  have hphnum := @bytesAt_inside_iff size hsize 60 2 (by decide)
  have hentry := @bytesAt_inside_iff size hsize (add64 phoff (sizeofPhdr * i)) 4 (add64_lt _ _)
  simp only [roundReads, EntryInside, List.forall_mem_append, hphnum]
  refine and_congr (by omega) ?_
  by_cases hi : i < elfPhnum s.mem file
  · simp only [hi, if_true, forall_const, List.forall_mem_append, hentry]
    have hfour : (4 = 0 ∨ add64 phoff (sizeofPhdr * i) + 4 ≤ size) ↔
        add64 phoff (sizeofPhdr * i) + 4 ≤ size := by omega
    rw [hfour]
    refine and_congr_right fun ho => ?_
    split
    · rename_i hload
      rw [segmentReads_inside_iff hsize ho]
      exact ⟨fun h _ => h, fun h => h hload⟩
    · rename_i hload
      exact ⟨fun _ h => absurd h hload, fun _ k hk => absurd hk List.not_mem_nil⟩
  · simp [hi]

/-- **The loop stays inside** iff every round does. -/
theorem loopReads_inside_iff {pageDir file phoff : Nat} {s : Machine} : ∀ n,
    (∀ k ∈ loopReads pageDir file phoff s n, k < size) ↔ ∀ i < n, ∀ x,
      forRange (loadHeader 0 pageDir file (add64 file phoff)) i (0, s) = .ok x →
        62 ≤ size ∧ EntryInside size pageDir file phoff i x.2
  | 0 => by simp [loopReads]
  | n + 1 => by
    have hround : (∀ k ∈ (match forRange (loadHeader 0 pageDir file (add64 file phoff)) n (0, s) with
        | .error _ => []
        | .ok x => roundReads pageDir file phoff n x.2), k < size) ↔
        ∀ x, forRange (loadHeader 0 pageDir file (add64 file phoff)) n (0, s) = .ok x →
          62 ≤ size ∧ EntryInside size pageDir file phoff n x.2 := by
      cases forRange (loadHeader 0 pageDir file (add64 file phoff)) n (0, s) with
      | error e => simp
      | ok x => simp only [roundReads_inside_iff hsize, Except.ok.injEq, forall_eq']
    rw [loopReads, List.forall_mem_append, loopReads_inside_iff n, hround]
    constructor
    · rintro ⟨hbefore, hlast⟩ i hi
      rcases Nat.lt_succ_iff_lt_or_eq.mp hi with hi | rfl
      · exact hbefore i hi
      · exact hlast
    · intro hall
      exact ⟨fun i hi => hall i (Nat.lt_succ_of_lt hi), hall n (Nat.lt_succ_self n)⟩

/-- **`elf_load` of an accepted header stays inside** iff the image is inside the file. -/
theorem elfReads_inside_iff {s : Machine} {file : Nat} {p : Process}
    (hok : elfHeaderOk s.mem file = true) :
    (∀ k ∈ elfReads s file p, k < size) ↔ ImageInside size s file p := by
  have hpos : 0 < uint16Max := by decide
  have hcheck : checkReads s.mem file = [0, 1, 2, 3, 4, 18, 19, 16, 17] := by
    simp only [elfHeaderOk, Bool.and_eq_true] at hok
    obtain ⟨⟨⟨⟨⟨⟨h0, h1⟩, h2⟩, h3⟩, h4⟩, h18⟩, h16⟩ := hok
    simp only [checkReads, readsUntil, h0, h1, h2, h3, h4, h18, h16, if_true, List.append_nil,
      List.cons_append, List.nil_append]
  have hfixed : 62 ≤ size → (∀ k ∈ [0, 1, 2, 3, 4, 18, 19, 16, 17], k < size) ∧
      (∀ k ∈ bytesAt 32 8, k < size) ∧ ∀ k ∈ bytesAt 24 8, k < size := by
    intro hle
    refine ⟨fun k hk => ?_, ?_, ?_⟩
    · have : k ≤ 19 := by
        revert k
        decide
      omega
    · exact (bytesAt_inside_iff hsize (by decide)).mpr (by omega)
    · exact (bytesAt_inside_iff hsize (by decide)).mpr (by omega)
  unfold elfReads ImageInside
  rw [hcheck, if_pos hok]
  simp only [List.forall_mem_append, loopReads_inside_iff hsize]
  constructor
  · rintro ⟨-, ⟨-, hloop⟩, -⟩
    exact ⟨(hloop 0 hpos (0, s) rfl).1, fun i hi x hx => (hloop i hi x hx).2⟩
  · rintro ⟨hle, hloop⟩
    obtain ⟨hheader, hphoff, hentry⟩ := hfixed hle
    refine ⟨hheader, ⟨hphoff, fun i hi x hx => ⟨hle, hloop i hi x hx⟩⟩, ?_⟩
    intro k hk
    split at hk
    · cases hk
    · split at hk
      · cases hk
      · exact hentry k hk

end Reads

/-! ## 3. Loading from a path -/

/-- The call returns 0 exactly when `elf_load` is not called or returns 0, since the buffer can always be
freed. -/
theorem elfLoadFromPath_eq_zero_iff {s : Kernel} {f : FileRead} {proc : Nat}
    {argv : Option (List (List (BitVec 8)))} {bs : List Block} (hheap : Rep s.heap bs)
    (hsize : f.size ≠ 0) {buffer : Nat} {heap : KHeap}
    (hbuf : kmalloc s.heap f.size = .ok (buffer, heap)) :
    (∃ t, elfLoadFromPath s (some f) proc argv = .ok (0, t)) ↔ f.bytes.length ≠ f.size ∨
      ∃ x m, elfLoad (staged s f buffer) buffer (s.pcb proc) argv = .ok (0, x, m) := by
  obtain ⟨bs', y, n, hrep, hy, -, hperm⟩ := (kmalloc_spec hheap).of_ok hbuf
  obtain ⟨heap', -, hfree, -⟩ := kfree_spec hrep (hperm.mem_iff.mpr List.mem_cons_self)
  dsimp only at hy hfree
  rw [← hy] at hfree
  have hne : buffer ≠ 0 := by
    have := headerSize_pos
    omega
  unfold elfLoadFromPath
  dsimp only
  rw [if_neg hsize, hbuf]
  simp only [bind, Except.bind]
  rw [if_neg hne]
  by_cases hlen : f.bytes.length ≠ f.size
  · rw [if_pos hlen, hfree]
    exact ⟨fun _ => Or.inl hlen, fun _ => ⟨_, rfl⟩⟩
  · rw [if_neg hlen, or_iff_right hlen]
    rw [show (⟨writeBytes s.machine.mem buffer f.bytes, s.machine.pmm⟩ : Machine) = staged s f buffer
      from rfl, hfree]
    cases elfLoad (staged s f buffer) buffer (s.pcb proc) argv with
    | error e => simp
    | ok r =>
      obtain ⟨entry, x, m⟩ := r
      simp only [Except.ok.injEq, Prod.mk.injEq]
      constructor
      · rintro ⟨t, rfl, -⟩
        exact ⟨x, m, rfl, rfl, rfl⟩
      · rintro ⟨x', m', rfl, -, -⟩
        exact ⟨_, rfl, rfl⟩

theorem staging_inside_iff {s : Kernel} {f : FileRead} (proc : Nat)
    (argv : Option (List (List (BitVec 8)))) (hheap : ∃ bs, Rep s.heap bs) (hsize : f.size ≠ 0) :
    ((∃ t, elfLoadFromPath s (some f) proc argv = .ok (0, t)) ∨
        ∀ k ∈ stagingReads s f proc, k < f.size) ↔
      ∀ buffer heap, kmalloc s.heap f.size = .ok (buffer, heap) → f.bytes.length = f.size →
        elfHeaderOk (staged s f buffer).mem buffer = true →
        (∃ x m, elfLoad (staged s f buffer) buffer (s.pcb proc) argv = .ok (0, x, m)) ∨
          ImageInside f.size (staged s f buffer) buffer (s.pcb proc) := by
  obtain ⟨bs, hrep⟩ := hheap
  cases hbuf : kmalloc s.heap f.size with
  | error e =>
    simp [stagingReads, hbuf]
  | ok r =>
    obtain ⟨buffer, heap⟩ := r
    have hzero := @elfLoadFromPath_eq_zero_iff s f proc argv bs hrep hsize buffer heap hbuf
    have hne : buffer ≠ 0 := by
      obtain ⟨-, y, -, -, hy, -⟩ := (kmalloc_spec hrep).of_ok hbuf
      have := headerSize_pos
      dsimp only at hy
      omega
    rw [hzero, stagingReads, hbuf]
    by_cases hlen : f.bytes.length = f.size
    · by_cases hok : elfHeaderOk (staged s f buffer).mem buffer = true
      · simp [hlen, hne, hok, elfReads_inside_iff f.size_lt hok]
      · have hreject : elfLoad (staged s f buffer) buffer (s.pcb proc) argv =
            .ok (0, s.pcb proc, staged s f buffer) := by
          rw [elfLoad, elfLoadOr, if_neg hok]
        simp [hlen, hok, hreject]
    · simp [hlen]

/-! ## 4. Images that leave the buffer alone -/

/-- The condition on the bytes of the file: every program header is complete as far as it is read,
and every PT_LOAD segment ends inside the file. -/
def FileInside (size : Nat) (m : Memory) (file : Nat) : Prop :=
  62 ≤ size ∧ ∀ i < elfPhnum m file,
    add64 (elfPhoff m file) (sizeofPhdr * i) + 4 ≤ size ∧
      (IsLoad m file i → add64 (elfPhoff m file) (sizeofPhdr * i) + 48 ≤ size ∧
        ((segment m file i).filesz = 0 ∨
          (segment m file i).offset + (segment m file i).filesz ≤ size))

section Image

variable {s : Machine} {root stack file size : Nat} {p : Process} (hpre : LoadPre s p root stack)
  (hfixed : HeadersFixed s root stack file) (hconf : Confined s.mem file)
  (hroom : 4 * roundsUpTo s.mem file (elfPhnum s.mem file) ≤ s.pmm.freePages.card)

include hpre hfixed hconf hroom

/-- A round finds the file's own fields, also after it has mapped the segment's pages. -/
theorem LoadedUpTo.inside_iff {i : Nat} {x : Machine} (hi : i < elfPhnum s.mem file)
    (h : LoadedUpTo s root stack file i x) :
    EntryInside size p.pageDir file (elfPhoff s.mem file) i x ↔
      add64 (elfPhoff s.mem file) (sizeofPhdr * i) + 4 ≤ size ∧
        (IsLoad s.mem file i → add64 (elfPhoff s.mem file) (sizeofPhdr * i) + 48 ≤ size ∧
          ((segment s.mem file i).filesz = 0 ∨
            (segment s.mem file i).offset + (segment s.mem file i).filesz ≤ size)) := by
  have hseg : phdrAt x.mem (add64 (add64 file (elfPhoff s.mem file)) (sizeofPhdr * i)) =
      segment s.mem file i :=
    hfixed.segment_eq (fun a => h.fixed hpre.wf hpre.fresh) hi
  unfold EntryInside
  dsimp only
  rw [hfixed.phnum_eq fun a => h.fixed hpre.wf hpre.fresh, hseg, forall_prop_of_true hi]
  refine and_congr_right fun _ => forall_congr' fun hload => and_congr_right fun _ => ?_
  obtain ⟨N, hN⟩ := h.loading
  have hle : roundsUpTo s.mem file i + (segment s.mem file i).pages ≤
      roundsUpTo s.mem file (elfPhnum s.mem file) := by
    have := roundsUpTo_mono s.mem file (Nat.succ_le_of_lt hi)
    rwa [Nat.succ_eq_add_one, roundsUpTo, if_pos (show IsLoad s.mem file i from hload)] at this
  obtain ⟨t, ht, N', ht', -⟩ := (mapPagesOf_spec hN hpre.wf (hconf i hi hload).1).exists_ok
    fun _ hfew => by omega
  have hafter : phdrAt t.mem (add64 (add64 file (elfPhoff s.mem file)) (sizeofPhdr * i)) =
      segment s.mem file i :=
    hfixed.segment_eq (fun a ha => ht'.fixed hpre.wf hpre.fresh ha) hi
  rw [hpre.pageDir, ht]
  simp only [Except.ok.injEq, forall_eq', hafter]

/-- **The image can be judged by the bytes of the file** if its segments are mapped through the lower
half, so that loading them leaves the headers as they are. -/
theorem imageInside_iff_file : ImageInside size s file p ↔ FileInside size s.mem file := by
  refine and_congr_right fun _ => ⟨fun h i hi => ?_, fun h i _ x hx => ?_⟩
  · obtain ⟨x, hx, hloaded⟩ := (loadHeaders_spec rfl hpre.wf hpre.fresh hfixed hconf i).exists_ok
      fun _ hfew => by omega
    rw [Nat.min_eq_left hi.le] at hloaded
    rw [← hpre.pageDir] at hx
    exact (hloaded.inside_iff hpre hfixed hconf hroom hi).mp
      (h i (hi.trans_le (elfPhnum_le s.mem file)) x hx)
  · rw [hpre.pageDir] at hx
    have hloaded := (loadHeaders_spec rfl hpre.wf hpre.fresh hfixed hconf i).of_ok hx
    rcases Nat.lt_or_ge i (elfPhnum s.mem file) with hi | hi
    · rw [Nat.min_eq_left hi.le] at hloaded
      exact (hloaded.inside_iff hpre hfixed hconf hroom hi).mpr (h i hi)
    · -- the loop has ended
      intro hlt
      rw [hfixed.phnum_eq fun a => hloaded.fixed hpre.wf hpre.fresh] at hlt
      exact absurd hlt (Nat.not_lt.mpr hi)

end Image

/-- A call with enough memory returns the entry point. -/
theorem elfLoad_eq_zero_iff {s : Machine} {root stack file : Nat} {p : Process}
    {argv : Option (List (List (BitVec 8)))} (hpre : LoadPre s p root stack)
    (hok : elfHeaderOk s.mem file = true) (hfixed : HeadersFixed s root stack file)
    (hconf : Confined s.mem file)
    (hroom : 4 * (roundsUpTo s.mem file (elfPhnum s.mem file) + 1) ≤ s.pmm.freePages.card) :
    (∃ x m, elfLoad s file p argv = .ok (0, x, m)) ↔ elfEntry s.mem file = 0 := by
  obtain ⟨⟨entry, x, m⟩, hload, hentry, -⟩ :=
    (elfLoad_spec argv hpre hok hfixed hconf).2.exists_ok fun _ => Nat.not_lt.mpr hroom
  rw [hload]
  simp only [Except.ok.injEq, Prod.mk.injEq, exists_and_left, exists_eq']
  rw [← hentry]
  simp

/-- **`elf_load_from_path` reads inside the file iff the image is inside it.**  This is for the calls
that do not return 0: of a file that is read, with a header that is accepted and an entry point.  The
second part is for images that do not make the loader write over the headers, with enough memory. -/
theorem elf_reads_inside_iff (s : Kernel) (f : FileRead) (proc : Nat)
    (argv : Option (List (List (BitVec 8)))) (hheap : ∃ bs, Rep s.heap bs) (hsize : f.size ≠ 0) :
    (((∃ t, elfLoadFromPath s (some f) proc argv = .ok (0, t)) ∨
        ∀ k ∈ stagingReads s f proc, k < f.size) ↔
      ∀ buffer heap, kmalloc s.heap f.size = .ok (buffer, heap) → f.bytes.length = f.size →
        elfHeaderOk (staged s f buffer).mem buffer = true →
        (∃ x m, elfLoad (staged s f buffer) buffer (s.pcb proc) argv = .ok (0, x, m)) ∨
          ImageInside f.size (staged s f buffer) buffer (s.pcb proc)) ∧
    ∀ buffer heap root stack, kmalloc s.heap f.size = .ok (buffer, heap) →
      f.bytes.length = f.size → elfHeaderOk (staged s f buffer).mem buffer = true →
      LoadPre (staged s f buffer) (s.pcb proc) root stack →
      HeadersFixed (staged s f buffer) root stack buffer → Confined (staged s f buffer).mem buffer →
      4 * (roundsUpTo (staged s f buffer).mem buffer (elfPhnum (staged s f buffer).mem buffer) + 1) ≤
        s.machine.pmm.freePages.card →
      (((∃ t, elfLoadFromPath s (some f) proc argv = .ok (0, t)) ∨
          ∀ k ∈ stagingReads s f proc, k < f.size) ↔
        elfEntry (staged s f buffer).mem buffer = 0 ∨
          FileInside f.size (staged s f buffer).mem buffer) := by
  refine ⟨staging_inside_iff proc argv hheap hsize, ?_⟩
  intro buffer heap root stack hbuf hlen hok hpre hfixed hconf hroom
  rw [staging_inside_iff proc argv hheap hsize, hbuf]
  have hsegments : 4 * roundsUpTo (staged s f buffer).mem buffer
      (elfPhnum (staged s f buffer).mem buffer) ≤ (staged s f buffer).pmm.freePages.card :=
    (Nat.mul_le_mul_left 4 (Nat.le_succ _)).trans hroom
  rw [← elfLoad_eq_zero_iff hpre hok hfixed hconf hroom,
    ← imageInside_iff_file hpre hfixed hconf hsegments]
  constructor
  · intro h
    exact h buffer heap rfl hlen hok
  · rintro h buffer' heap' heq - -
    obtain ⟨rfl, rfl⟩ := Prod.mk.inj (Except.ok.inj heq)
    exact h

/-! ### Files of 64 bytes -/

/-- The header of an image with `n` program headers, and nothing else. -/
def headerOnly (n : Nat) : FileRead :=
  ⟨64, (elfBytes 0x400000 (List.replicate n ⟨0, 0, 0, 0, 0, 0⟩) []).take 64, zeroEntry.size_lt,
    List.length_take_le 64 _⟩

/-- A kernel whose heap is empty. -/
def emptyHeap : Kernel := execKernel (memInit fun _ => ⟨0, false, 0⟩) 1

theorem kmalloc_emptyHeap : ∃ heap, kmalloc emptyHeap.heap 64 = .ok (heapStart + 24, heap) := by
  obtain ⟨buffer, heap, hbuf, rfl⟩ : ∃ buffer heap, kmalloc emptyHeap.heap 64 = .ok (buffer, heap) ∧
      buffer = heapStart + 24 := ⟨_, _, rfl, by decide +kernel⟩
  exact ⟨heap, hbuf⟩

theorem fixed_emptyHeap (f : FileRead) {a : Nat} (hlo : heapStart ≤ a)
    (hhi : a < heapStart + heapSize) :
    Fixed (staged emptyHeap f (heapStart + 24)) 1 2 a := by
  obtain ⟨g, j, hg, hj, hlow, hhigh⟩ := heap_frame hlo hhi
  exact ⟨g, j, hg, hj, used_mostUsed (by omega) (by omega), by omega, by omega⟩

theorem loadPre_emptyHeap {f : FileRead} (hlen : f.bytes.length ≤ 64) :
    LoadPre (staged emptyHeap f (heapStart + 24)) (emptyHeap.pcb 1) 1 2 := by
  have hused : ∀ q < 8, mostUsed.Used q := fun q hq => used_mostUsed (by omega) (Or.inl hq)
  refine ⟨⟨⟨(by decide : mostUsed.totalPages ≤ 2 ^ 52), (by decide : mostUsed.bitmapTest 0 = false)⟩,
    (by decide : mostUsed.totalPages ≤ 2 ^ 35)⟩, ?_, rfl, rfl, hused 2 (by decide), by decide⟩
  refine Fresh.of_blank (hused 1 (by decide)) fun k hk => ?_
  have hoff : frameAddr 1 + 4096 ≤ heapStart := by decide +kernel
  have hstart : heapStart = 0xFFFF800002200000 := rfl
  exact writeBytes_of_outside (by omega) (by omega)

/-- `elf_load` can be judged by the bytes of such a file. -/
theorem headerOnly_staged {n : Nat} (hn : n = 0 ∨ n = 1) {s : Machine}
    (hs : s = staged emptyHeap (headerOnly n) (heapStart + 24)) :
    elfHeaderOk s.mem (heapStart + 24) = true ∧ HeadersFixed s 1 2 (heapStart + 24) ∧
      Confined s.mem (heapStart + 24) ∧
      4 * (roundsUpTo s.mem (heapStart + 24) (elfPhnum s.mem (heapStart + 24)) + 1) ≤
        s.pmm.freePages.card ∧
      elfEntry s.mem (heapStart + 24) ≠ 0 ∧ elfPhnum s.mem (heapStart + 24) = n ∧
      elfPhoff s.mem (heapStart + 24) = 64 := by
  have hsize : heapSize = 0x1000000 := rfl
  have hfields : elfHeaderOk s.mem (heapStart + 24) = true ∧ elfEntry s.mem (heapStart + 24) ≠ 0 ∧
      elfPhnum s.mem (heapStart + 24) = n ∧ elfPhoff s.mem (heapStart + 24) = 64 ∧
      phdrAddr s.mem (heapStart + 24) 0 = heapStart + 88 ∧
      ¬ IsLoad s.mem (heapStart + 24) 0 := by
    rcases hn with rfl | rfl <;> subst hs <;> decide +kernel
  obtain ⟨hok, hentry, hnum, hphoff, haddr, hload⟩ := hfields
  have hfirst : ∀ i < n, i = 0 := fun i hi => by omega
  refine ⟨hok, ⟨?_, ?_⟩, ?_, ?_, hentry, hnum, hphoff⟩
  · intro k hk
    rw [hs]
    exact fixed_emptyHeap _ (by omega) (by omega)
  · intro i hi k hk
    rw [hnum] at hi
    unfold sizeofPhdr at hk
    rw [hfirst i hi, haddr, hs]
    exact fixed_emptyHeap _ (by omega) (by omega)
  · intro i hi hi'
    rw [hnum] at hi
    exact absurd (hfirst i hi ▸ hi') hload
  · have hrounds : roundsUpTo s.mem (heapStart + 24) n = 0 := by
      rcases hn with rfl | rfl
      · rfl
      · simp only [roundsUpTo, if_neg hload]
    rw [hnum, hrounds, hs]
    exact (by decide : 4 * (0 + 1) ≤ 24).trans card_mostUsed

/-- Both are loaded. -/
theorem headerOnly_loaded {n : Nat} (hn : n = 0 ∨ n = 1) :
    ¬ ∃ t, elfLoadFromPath emptyHeap (some (headerOnly n)) 1 none = .ok (0, t) := by
  obtain ⟨heap, hbuf⟩ := kmalloc_emptyHeap
  have hlen : (headerOnly n).bytes.length = 64 := by rcases hn with rfl | rfl <;> decide
  obtain ⟨hok, hfixed, hconf, hroom, hentry, -, -⟩ := headerOnly_staged hn rfl
  have hrep : Rep emptyHeap.heap _ := memInit_rep _
  rw [elfLoadFromPath_eq_zero_iff hrep (by decide : (64 : Nat) ≠ 0) hbuf,
    elfLoad_eq_zero_iff (loadPre_emptyHeap hlen.le) hok hfixed hconf hroom, or_iff_right]
  · exact hentry
  · exact not_not.mpr hlen

/-- **The condition can be met**: a file without program headers is only read inside. -/
theorem elf_reads_inside_no_headers :
    (¬ ∃ t, elfLoadFromPath emptyHeap (some (headerOnly 0)) 1 none = .ok (0, t)) ∧
      ∀ k ∈ stagingReads emptyHeap (headerOnly 0) 1, k < 64 := by
  obtain ⟨heap, hbuf⟩ := kmalloc_emptyHeap
  obtain ⟨hok, hfixed, hconf, hroom, -, hnum, -⟩ := headerOnly_staged (Or.inl rfl) rfl
  have hiff := (elf_reads_inside_iff emptyHeap (headerOnly 0) 1 none ⟨_, memInit_rep _⟩
    (by decide)).2 (heapStart + 24) heap 1 2 hbuf (by decide) hok
    (loadPre_emptyHeap (by decide)) hfixed hconf hroom
  have hinside : FileInside 64 (staged emptyHeap (headerOnly 0) (heapStart + 24)).mem
      (heapStart + 24) := by
    refine ⟨by decide, fun i hi => ?_⟩
    rw [hnum] at hi
    cases hi
  refine ⟨headerOnly_loaded (Or.inl rfl), ?_⟩
  exact (hiff.mpr (Or.inr hinside)).resolve_left (headerOnly_loaded (Or.inl rfl))

/-- **A truncated file**: its program header is read behind its end. -/
theorem truncated_file_overread :
    ¬ ((∃ t, elfLoadFromPath emptyHeap (some (headerOnly 1)) 1 none = .ok (0, t)) ∨
      ∀ k ∈ stagingReads emptyHeap (headerOnly 1) 1, k < (headerOnly 1).size) := by
  rintro (hzero | hreads)
  · exact headerOnly_loaded (Or.inr rfl) hzero
  · obtain ⟨heap, hbuf⟩ := kmalloc_emptyHeap
    have hlen : (headerOnly 1).bytes.length = 64 := by decide
    obtain ⟨hok, hfixed, hconf, hroom, -, hnum, hphoff⟩ := headerOnly_staged (Or.inr rfl) rfl
    unfold stagingReads at hreads
    rw [show (headerOnly 1).size = 64 from rfl, hbuf] at hreads
    simp only at hreads
    rw [if_neg (by rw [hlen]; decide +kernel), elfReads_inside_iff (by decide) hok,
      imageInside_iff_file (loadPre_emptyHeap hlen.le) hfixed hconf (by omega)] at hreads
    have hentry := (hreads.2 0 (by omega)).1
    rw [hphoff] at hentry
    exact absurd hentry (by decide)

end AcornOS
