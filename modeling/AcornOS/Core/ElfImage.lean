/-
# What a loaded program finds in memory (`elf_load`)

Loading is painting: each PT_LOAD segment blanks the pages it touches and puts the file's bytes in,
over whatever earlier segments have left there (`imageUpTo`).

* `loadSegments_spec`: the loop over the program headers paints exactly this picture into the
  process's address space, if all segments fit.
-/
import AcornOS.Core.Elf
import AcornOS.Processes.PageOwnership

namespace AcornOS

open Lib

/-! ## 1. The program headers -/

/-- The program headers, as they are in memory `m`. -/
def segment (m : Memory) (file i : Nat) : Phdr := phdrAt m (phdrAddr m file i)

def IsLoad (m : Memory) (file i : Nat) : Prop := (segment m file i).type = ptLoad

instance (m : Memory) (file i : Nat) : Decidable (IsLoad m file i) :=
  inferInstanceAs (Decidable (_ = _))

/-- The pages that the first `k` headers map. -/
def pagesUpTo (m : Memory) (file k : Nat) : Set Nat :=
  {q | ∃ i < k, IsLoad m file i ∧ q ∈ (segment m file i).pageSet}

/-- How many rounds they take for it. -/
def roundsUpTo (m : Memory) (file : Nat) : Nat → Nat
  | 0 => 0
  | k + 1 =>
    roundsUpTo m file k + if IsLoad m file k then (segment m file k).pages else 0

/-- **What loading the first `k` headers shows a program**: each segment is painted over those before
it. -/
def imageUpTo (m : Memory) (file : Nat) : Nat → Nat → Option (BitVec 8)
  | 0 => fun _ => none
  | k + 1 =>
    if IsLoad m file k then (segment m file k).paint (fileByte m file) (imageUpTo m file k)
    else imageUpTo m file k

/-- The header and the program headers are where the loader does not write. -/
structure HeadersFixed (s : Machine) (root stack file : Nat) : Prop where
  header : ∀ k < 68, Fixed s root stack (file + k)
  table : ∀ i < elfPhnum s.mem file, ∀ k < sizeofPhdr,
    Fixed s root stack (phdrAddr s.mem file i + k)

/-- Every PT_LOAD segment is mapped through the lower half of the PML4, and the bytes that are filled
for it are in pages that were mapped for it or for an earlier one. -/
def Confined (m : Memory) (file : Nat) : Prop :=
  ∀ i < elfPhnum m file, IsLoad m file i →
    (segment m file i).Low ∧ (segment m file i).Covered (pagesUpTo m file (i + 1))

section Headers

variable {s t : Machine} {root stack file : Nat}

theorem Fixed.lt {a : Nat} (h : Fixed s root stack a) : a < 2 ^ 64 := by
  obtain ⟨f, k, rfl, hk, -⟩ := h
  have := frameAddr_add_le f
  omega

theorem loadLe_congr {m m' : Memory} : ∀ {n a : Nat}, (∀ k < n, m' (a + k) = m (a + k)) →
    loadLe m' a n = loadLe m a n
  | 0, _, _ => rfl
  | n + 1, a, h => by
    rw [loadLe, loadLe, loadLe_congr fun k hk => ?_, show m' a = m a from h 0 (Nat.succ_pos n)]
    rw [Nat.add_assoc, Nat.add_comm 1 k]
    exact h (k + 1) (by omega)

theorem phdrAt_congr {m m' : Memory} {a : Nat} (h : ∀ k < sizeofPhdr, m' (a + k) = m (a + k)) :
    phdrAt m' a = phdrAt m a := by
  have hword : ∀ o, o + 8 ≤ 56 → load64 m' (a + o) = load64 m (a + o) := by
    intro o ho
    refine load64_congr fun k hk => ?_
    rw [Nat.add_assoc]
    exact h (o + k) (by unfold sizeofPhdr; omega)
  have hhalf : ∀ o, o + 4 ≤ 56 → loadLe m' (a + o) 4 = loadLe m (a + o) 4 := by
    intro o ho
    refine loadLe_congr fun k hk => ?_
    rw [Nat.add_assoc]
    exact h (o + k) (by unfold sizeofPhdr; omega)
  unfold phdrAt
  rw [hword 8 (by decide), hword 16 (by decide), hword 32 (by decide), hword 40 (by decide),
    hhalf 4 (by decide), show loadLe m' a 4 = loadLe m a 4 from hhalf 0 (by decide)]

/-- The headers read the same while segments are loaded. -/
theorem HeadersFixed.segment_eq {m : Memory} (h : HeadersFixed s root stack file)
    (hm : ∀ a, Fixed s root stack a → m a = s.mem a) {i : Nat} (hi : i < elfPhnum s.mem file) :
    phdrAt m (phdrAddr s.mem file i) = segment s.mem file i :=
  phdrAt_congr fun k hk => hm _ (h.table i hi k hk)

theorem HeadersFixed.phnum_eq {m : Memory} (h : HeadersFixed s root stack file)
    (hm : ∀ a, Fixed s root stack a → m a = s.mem a) : elfPhnum m file = elfPhnum s.mem file := by
  have hlt := (h.header 67 (by decide)).lt
  unfold elfPhnum
  rw [add64_eq (by omega)]
  refine loadLe_congr fun k hk => ?_
  rw [Nat.add_assoc]
  exact hm _ (h.header (60 + k) (by omega))

/-- A header that is not written to stays as it is. -/
theorem loadSegmentAt_eq {N : Finset Nat} {M : Set Nat} {n a : Nat} {ph : Phdr}
    (h : Loading s t root N M n) (hs : s.Wf) (hfresh : Fresh s root) (hlow : ph.Low)
    (hcovered : ph.Covered (M ∪ ph.pageSet)) (ha : ∀ k < sizeofPhdr, Fixed s root stack (a + k))
    (hph : phdrAt s.mem a = ph) (unmapped : Nat) :
    loadSegmentAt unmapped (frameAddr root) file a t =
      loadSegment unmapped (frameAddr root) file ph t := by
  have hsame : ∀ {u : Machine} {N' : Finset Nat} {M' : Set Nat} {n' : Nat},
      Loading s u root N' M' n' → phdrAt u.mem a = ph := by
    intro u N' M' n' hu
    exact (phdrAt_congr fun k hk => hu.fixed hs hfresh (ha k hk)).trans hph
  unfold loadSegmentAt loadSegment
  rw [hsame h]
  refine (mapPagesOf_spec h hs hlow).bind_congr fun u hu => ?_
  obtain ⟨N', hu, -⟩ := hu
  obtain ⟨w, hw, hload, -⟩ := fillRange_spec stack hs hfresh ph.filesz
    (some (add64 file ph.offset)) hu hcovered.1
  dsimp only
  rw [hsame hu, hw, hsame hload]

theorem loadLe_lt (m : Memory) : ∀ (n a : Nat), loadLe m a n < 256 ^ n
  | 0, _ => Nat.one_pos
  | n + 1, a => by
    have hb := (m a).isLt
    have ih := loadLe_lt m n (a + 1)
    rw [loadLe, Nat.pow_succ]
    omega

theorem elfPhnum_le (m : Memory) (file : Nat) : elfPhnum m file ≤ uint16Max :=
  Nat.le_of_lt_succ (loadLe_lt m 2 _)

theorem HeadersFixed.entry_eq {m : Memory} (h : HeadersFixed s root stack file)
    (hm : ∀ a, Fixed s root stack a → m a = s.mem a) : elfEntry m file = elfEntry s.mem file := by
  have hlt := (h.header 67 (by decide)).lt
  unfold elfEntry
  rw [add64_eq (by omega)]
  refine load64_congr fun k hk => ?_
  rw [Nat.add_assoc]
  exact hm _ (h.header (24 + k) (by omega))

theorem pagesUpTo_succ (m : Memory) (file k : Nat) : pagesUpTo m file (k + 1) =
    pagesUpTo m file k ∪ if IsLoad m file k then (segment m file k).pageSet else ∅ := by
  ext q
  rw [Set.mem_union]
  constructor
  · rintro ⟨i, hi, hload, hq⟩
    rcases Nat.lt_succ_iff_lt_or_eq.mp hi with hi | rfl
    · exact Or.inl ⟨i, hi, hload, hq⟩
    · rw [if_pos hload]
      exact Or.inr hq
  · rintro (⟨i, hi, hload, hq⟩ | hq)
    · exact ⟨i, Nat.lt_succ_of_lt hi, hload, hq⟩
    · split at hq
      · rename_i hload
        exact ⟨k, Nat.lt_succ_self k, hload, hq⟩
      · cases hq

/-- Segments that all fit are confined. -/
theorem Confined.of_fits {m : Memory} (h : ∀ i < elfPhnum m file, IsLoad m file i →
    (segment m file i).Fits) : Confined m file := by
  intro i hi hload
  rw [pagesUpTo_succ, if_pos hload]
  exact ⟨(h i hi hload).low, (h i hi hload).covered _⟩

theorem roundsUpTo_mono (m : Memory) (file : Nat) : Monotone (roundsUpTo m file) :=
  monotone_nat_of_le_succ fun _ => Nat.le_add_right _ _

/-- The state of the loop over the headers after `k` of them. -/
structure LoadedUpTo (s : Machine) (root stack file k : Nat) (t : Machine) : Prop where
  loading : ∃ N, Loading s t root N (pagesUpTo s.mem file k) (roundsUpTo s.mem file k)
  view : (∀ i < k, IsLoad s.mem file i → (segment s.mem file i).Fits ∧
      ∀ j < (segment s.mem file i).filesz,
        Fixed s root stack (add64 file ((segment s.mem file i).offset + j))) →
    ∀ v, LowerHalf v → view t.mem root v = imageUpTo s.mem file k v

/-- One header. -/
theorem LoadedUpTo.step {k : Nat} (h : LoadedUpTo s root stack file k t) (hs : s.Wf)
    (hfresh : Fresh s root) (hk : k < elfPhnum s.mem file) (hconf : Confined s.mem file) (hload : IsLoad s.mem file k) :
    (∀ unmapped, loadSegment unmapped (frameAddr root) file (segment s.mem file k) t =
      loadSegment 0 (frameAddr root) file (segment s.mem file k) t) ∧
    Ensures (loadSegment 0 (frameAddr root) file (segment s.mem file k) t)
      (fun _ => s.pmm.freePages.card < 4 * roundsUpTo s.mem file (k + 1))
      (LoadedUpTo s root stack file (k + 1)) := by
  obtain ⟨N, hN⟩ := h.loading
  obtain ⟨hlow, hcov⟩ := hconf k hk hload
  have hpages := pagesUpTo_succ s.mem file k
  have hrounds : roundsUpTo s.mem file (k + 1) =
      roundsUpTo s.mem file k + (segment s.mem file k).pages := by
    rw [roundsUpTo, if_pos hload]
  rw [if_pos hload] at hpages
  rw [hpages] at hcov
  obtain ⟨hsame, hspec⟩ := loadSegment_spec stack file hN hs hfresh hlow hcov
  refine ⟨hsame, hspec.mono (fun _ he => by omega) ?_⟩
  rintro u ⟨hu, hview⟩
  refine ⟨?_, fun hfits v hv => ?_⟩
  · rw [hpages, hrounds]
    exact hu
  · obtain ⟨hkfits, hkfixed⟩ := hfits k (Nat.lt_succ_self k) hload
    rw [hview hkfits hkfixed v hv, imageUpTo, if_pos hload]
    unfold Phdr.paint
    rw [h.view (fun i hi => hfits i (Nat.lt_succ_of_lt hi)) v hv]

theorem LoadedUpTo.skip {k : Nat} (h : LoadedUpTo s root stack file k t)
    (hload : ¬ IsLoad s.mem file k) : LoadedUpTo s root stack file (k + 1) t := by
  refine ⟨?_, fun hfits v hv => ?_⟩
  · rw [pagesUpTo_succ, if_neg hload, Set.union_empty, roundsUpTo, if_neg hload, Nat.add_zero]
    exact h.loading
  · rw [imageUpTo, if_neg hload]
    exact h.view (fun i hi => hfits i (Nat.lt_succ_of_lt hi)) v hv

theorem LoadedUpTo.fixed {k a : Nat} (h : LoadedUpTo s root stack file k t) (hs : s.Wf)
    (hfresh : Fresh s root) (ha : Fixed s root stack a) : t.mem a = s.mem a := by
  obtain ⟨N, hN⟩ := h.loading
  exact hN.fixed hs hfresh ha

/-- Nothing is loaded at first. -/
theorem LoadedUpTo.start (hfresh : Fresh s root) (n : Nat) :
    LoadedUpTo s root stack file (min 0 n) s := by
  rw [Nat.zero_min]
  refine ⟨⟨∅, ?_⟩, fun _ v _ => ?_⟩
  · have hnone : pagesUpTo s.mem file 0 = ∅ := by simp [pagesUpTo]
    rw [hnone]
    exact hfresh.loading
  · rw [AcornOS.view, hfresh.leaf]
    rfl

section Rounds

variable {n k : Nat} {x : Nat × Machine} (hn : n = elfPhnum s.mem file) (hs : s.Wf)
  (hfresh : Fresh s root) (hfixed : HeadersFixed s root stack file) (hconf : Confined s.mem file)

include hn hs hfresh hfixed hconf

/-- A round finds the header that was in the file. -/
theorem LoadedUpTo.header_eq (h : LoadedUpTo s root stack file (min k n) x.2) (unmapped : Nat) :
    loadHeader unmapped (frameAddr root) file (add64 file (elfPhoff s.mem file)) k x =
      if k < n ∧ IsLoad s.mem file k then
        loadSegment 0 (frameAddr root) file (segment s.mem file k) x.2 >>= fun u =>
          .ok (max x.1 (segment s.mem file k).stop, u)
      else .ok x := by
  have hmem : ∀ a, Fixed s root stack a → x.2.mem a = s.mem a := fun a => h.fixed hs hfresh
  unfold loadHeader
  dsimp only
  rw [hfixed.phnum_eq hmem, ← hn]
  by_cases hk : k < n
  · rw [Nat.min_eq_left hk.le] at h
    have hseg : phdrAt x.2.mem (add64 (add64 file (elfPhoff s.mem file)) (sizeofPhdr * k)) =
        segment s.mem file k := hfixed.segment_eq hmem (hn ▸ hk)
    rw [hseg]
    by_cases hload : IsLoad s.mem file k
    · obtain ⟨N, hN⟩ := h.loading
      obtain ⟨hlow, hcov⟩ := hconf k (hn ▸ hk) hload
      rw [pagesUpTo_succ, if_pos hload] at hcov
      have hat : loadSegmentAt unmapped (frameAddr root) file
          (add64 (add64 file (elfPhoff s.mem file)) (sizeofPhdr * k)) x.2 =
          loadSegment unmapped (frameAddr root) file (segment s.mem file k) x.2 :=
        loadSegmentAt_eq hN hs hfresh hlow hcov (hfixed.table k (hn ▸ hk)) rfl unmapped
      rw [if_pos ⟨hk, hload⟩, if_pos ⟨hk, hload⟩, hat,
        (h.step hs hfresh (hn ▸ hk) hconf hload).1 unmapped]
    · rw [if_neg fun h => hload h.2, if_neg fun h => hload h.2]
  · rw [if_neg fun h => hk h.1, if_neg fun h => hk h.1]

theorem LoadedUpTo.header (h : LoadedUpTo s root stack file (min k n) x.2) :
    Ensures (loadHeader 0 (frameAddr root) file (add64 file (elfPhoff s.mem file)) k x)
      (fun _ => s.pmm.freePages.card < 4 * roundsUpTo s.mem file n)
      (fun y => LoadedUpTo s root stack file (min (k + 1) n) y.2) := by
  rw [h.header_eq hn hs hfresh hfixed hconf 0]
  by_cases hk : k < n
  · rw [Nat.min_eq_left hk.le] at h
    rw [Nat.min_eq_left (Nat.succ_le_of_lt hk)]
    by_cases hload : IsLoad s.mem file k
    · rw [if_pos ⟨hk, hload⟩]
      refine Ensures.bind ((h.step hs hfresh (hn ▸ hk) hconf hload).2.mono (fun _ he => ?_)
        fun u hu => hu) fun u hu => ensures_ok.mpr hu
      exact Nat.lt_of_lt_of_le he (Nat.mul_le_mul_left 4 (roundsUpTo_mono s.mem file hk))
    · rw [if_neg fun h => hload h.2]
      exact ensures_ok.mpr (h.skip hload)
  · -- the loop has ended
    rw [if_neg fun h => hk h.1]
    rw [Nat.min_eq_right (by omega)] at h ⊢
    exact ensures_ok.mpr h

/-- The first rounds of the loop over the program headers. -/
theorem loadHeaders_spec (k : Nat) :
    Ensures (forRange (loadHeader 0 (frameAddr root) file (add64 file (elfPhoff s.mem file))) k (0, s))
      (fun _ => s.pmm.freePages.card < 4 * roundsUpTo s.mem file n)
      (fun y => LoadedUpTo s root stack file (min k n) y.2) :=
  forRange_invariant (I := fun k (x : Nat × Machine) => LoadedUpTo s root stack file (min k n) x.2)
    (LoadedUpTo.start hfresh n) fun _ _ _ h => h.header hn hs hfresh hfixed hconf

end Rounds

/-- **The loop over the program headers.** -/
theorem loadSegments_spec (hs : s.Wf) (hfresh : Fresh s root)
    (hfixed : HeadersFixed s root stack file) (hconf : Confined s.mem file) :
    (∀ unmapped, loadSegments unmapped (frameAddr root) file s =
      loadSegments 0 (frameAddr root) file s) ∧
    Ensures (loadSegments 0 (frameAddr root) file s)
      (fun _ => s.pmm.freePages.card < 4 * roundsUpTo s.mem file (elfPhnum s.mem file))
      (fun r => LoadedUpTo s root stack file (elfPhnum s.mem file) r.2) := by
  obtain ⟨n, hn⟩ : ∃ n, n = elfPhnum s.mem file := ⟨_, rfl⟩
  rw [← hn]
  refine ⟨fun unmapped => ?_, ?_⟩
  · refine forRange_congr
      (I := fun k (x : Nat × Machine) => LoadedUpTo s root stack file (min k n) x.2)
      (LoadedUpTo.start hfresh n) (fun _ _ _ h => h.header hn hs hfresh hfixed hconf) ?_
    intro k x _ hx
    rw [hx.header_eq hn hs hfresh hfixed hconf unmapped, hx.header_eq hn hs hfresh hfixed hconf 0]
  · have hend := loadHeaders_spec hn hs hfresh hfixed hconf uint16Max
    rw [Nat.min_eq_right (hn ▸ elfPhnum_le s.mem file)] at hend
    exact hend

end Headers

/-! ## 2. The stacks -/

section Stacks

variable {s t : Machine} {m : Memory} {root stack file f n : Nat} {N : Finset Nat} {M : Set Nat}

theorem writeBytes_of_outside : ∀ {bs : List (BitVec 8)} {m : Memory} {a x : Nat},
    a + bs.length ≤ 2 ^ 64 → x < a ∨ a + bs.length ≤ x → writeBytes m a bs x = m x
  | [], _, _, _, _, _ => rfl
  | b :: bs, m, a, x, ha, hx => by
    rw [List.length_cons] at ha hx
    have hne : x ≠ a := by omega
    by_cases hend : bs = []
    · subst hend
      exact Function.update_of_ne hne _ _
    · have hlen := List.length_pos_of_ne_nil hend
      rw [writeBytes, add64_eq (by omega), writeBytes_of_outside (by omega) (by omega),
        Function.update_of_ne hne]

theorem writeBytes_inside : ∀ {bs : List (BitVec 8)} {m : Memory} {a j : Nat}, a + bs.length ≤ 2 ^ 64 →
    j < bs.length → some (writeBytes m a bs (a + j)) = bs[j]?
  | b :: bs, m, a, 0, ha, _ => by
    rw [List.length_cons] at ha
    by_cases hend : bs = []
    · subst hend
      simp [writeBytes]
    · have hlen := List.length_pos_of_ne_nil hend
      rw [writeBytes, add64_eq (by omega), writeBytes_of_outside (by omega) (by omega)]
      simp
  | b :: bs, m, a, j + 1, ha, hj => by
    rw [List.length_cons] at ha hj
    rw [writeBytes, add64_eq (by omega), show a + (j + 1) = a + 1 + j by omega,
      writeBytes_inside (by omega) (by omega), List.getElem?_cons_succ]

theorem writeWords_of_outside : ∀ {ws : List Nat} {m : Memory} {a x : Nat},
    a + 8 * ws.length ≤ 2 ^ 64 → x < a ∨ a + 8 * ws.length ≤ x → writeWords m a ws x = m x
  | [], _, _, _, _, _ => rfl
  | w :: ws, m, a, x, ha, hx => by
    rw [List.length_cons] at ha hx
    by_cases hend : ws = []
    · subst hend
      exact store64_of_outside (by simpa using hx)
    · have hlen := List.length_pos_of_ne_nil hend
      rw [writeWords, add64_eq (by omega), writeWords_of_outside (by omega) (by omega),
        store64_of_outside (by omega)]

/-- Writes that stay within a page. -/
theorem onlyIn_of_outside {m' : Memory} (off len : Nat) (hf : f < 2 ^ 40) (hlen : off + len ≤ 4096)
    (hout : ∀ x, x < frameAddr f + off ∨ frameAddr f + off + len ≤ x → m' x = m x) :
    OnlyIn m m' {f} := by
  intro q hq hqf k hk
  have := frameAddr_apart hq hf hqf
  exact hout _ (by omega)

/-- Where `cursor` can be. -/
def InArgvBlock (cursor : Nat) : Prop :=
  userStackPage + 2048 ≤ cursor ∧ cursor ≤ userStackPage + 4096

/-- The loop over the strings stays in the upper half of the stack's page. -/
theorem placeStrings_spec (hf : f < 2 ^ 40) : ∀ (args : List (List (BitVec 8))) (m : Memory),
    OnlyIn m (placeStrings (frameAddr f) (userStackPage + pageSize) args m).2 {f} ∧
      ∀ x, (placeStrings (frameAddr f) (userStackPage + pageSize) args m).1 = some x →
        InArgvBlock x.2 ∧ x.1.length = args.length
  | [], m => by
    refine ⟨OnlyIn.refl _ _, fun x hx => ?_⟩
    rw [← Option.some.inj hx]
    exact ⟨⟨by decide, by decide⟩, rfl⟩
  | arg :: args, m => by
    have ih := placeStrings_spec hf args m
    rw [placeStrings]
    generalize placeStrings (frameAddr f) (userStackPage + pageSize) args m = r at ih ⊢
    obtain ⟨o, m'⟩ := r
    obtain ⟨honly, hcursor⟩ := ih
    cases o with
    | none => exact ⟨honly, fun x hx => nomatch hx⟩
    | some x =>
      obtain ⟨stringAddr, cursor⟩ := x
      obtain ⟨⟨hlo, hhi⟩, hlen⟩ := hcursor _ rfl
      dsimp only at hlo hhi hlen ⊢
      split
      · exact ⟨honly, fun x hx => nomatch hx⟩
      · rename_i hfit
        have hend := frameAddr_add_le f
        unfold maxArgvBlockSize userStackPage pageSize at *
        have haddr : add64 (frameAddr f) ((cursor - (arg.length + 1)) % 4096)
            = frameAddr f + (cursor - (arg.length + 1)) % 4096 := add64_eq (by omega)
        rw [haddr]
        refine ⟨honly.trans (onlyIn_of_outside ((cursor - (arg.length + 1)) % 4096)
          (arg.length + 1) hf (by omega) ?_), ?_⟩
        · intro x hx
          refine writeBytes_of_outside ?_ ?_ <;> rw [List.length_append, List.length_singleton]
          · omega
          · exact hx
        · intro x hx
          rw [← Option.some.inj hx]
          unfold InArgvBlock userStackPage
          exact ⟨⟨by dsimp only; omega, by dsimp only; omega⟩, congrArg (· + 1) hlen⟩

/-- So does the pointer array. -/
theorem onlyIn_placeArgv (hf : f < 2 ^ 40) (args : List (List (BitVec 8))) (m : Memory) :
    OnlyIn m (placeArgv (frameAddr f) (userStackPage + pageSize) args m).2 {f} := by
  have hplace := placeStrings_spec hf args m
  unfold placeArgv
  generalize placeStrings (frameAddr f) (userStackPage + pageSize) args m = r at *
  obtain ⟨o, m'⟩ := r
  obtain ⟨honly, hcursor⟩ := hplace
  cases o with
  | none => exact honly
  | some x =>
    obtain ⟨stringAddr, cursor⟩ := x
    obtain ⟨⟨hlo, hhi⟩, hlen⟩ := hcursor _ rfl
    dsimp only at hlo hhi hlen ⊢
    split
    · exact honly
    · rename_i hfit
      refine honly.trans ?_
      have hend := frameAddr_add_le f
      unfold maxArgvBlockSize userStackPage pageSize at *
      have haddr : add64 (frameAddr f) ((cursor / 8 * 8 - (args.length + 1) * 8) % 4096)
          = frameAddr f + (cursor / 8 * 8 - (args.length + 1) * 8) % 4096 := add64_eq (by omega)
      rw [haddr]
      refine onlyIn_of_outside ((cursor / 8 * 8 - (args.length + 1) * 8) % 4096)
        (8 * (args.length + 1)) hf (by omega) fun x hx => ?_
      refine writeWords_of_outside ?_ ?_ <;> rw [List.length_append, List.length_singleton, hlen]
      · omega
      · exact hx

/-- The kernel's address of a mapped page. -/
theorem pageBase_eq {v : Nat} (h : Dir t root) (hlow : LowerHalf v) (halign : v % pageSize = 0)
    (hf : leaf t.mem root v = some f) (unmapped : Nat) :
    physicalToVirtual (getPhysicalOr unmapped t (frameAddr root) v) = frameAddr f := by
  rw [getPhysicalOr_eq unmapped h hlow, hf, Option.elim_some, halign, Nat.add_zero,
    physicalToVirtual_page]

/-- `build_argv_stack` writes to the stack's page only. -/
theorem buildArgvStack_spec (argv : Option (List (List (BitVec 8)))) (h : Dir t root)
    (hf : leaf t.mem root userStackPage = some f) :
    ∃ o m, (∀ unmapped, buildArgvStack unmapped (frameAddr root) userStackPage argv t = (o, m)) ∧
      OnlyIn t.mem m {f} := by
  have hf40 : f < 2 ^ 40 := frames_lt (mem_frames_of_leaf hf)
  have hbase := pageBase_eq h (by unfold LowerHalf; decide) (by decide) hf
  cases argv with
  | none => exact ⟨none, t.mem, fun _ => rfl, OnlyIn.refl _ _⟩
  | some args =>
    by_cases hdrop : args = [] ∨ args.length ≥ maxArgvCount
    · refine ⟨none, t.mem, fun unmapped => ?_, OnlyIn.refl _ _⟩
      rw [buildArgvStack, if_pos hdrop]
    · refine ⟨(placeArgv (frameAddr f) (userStackPage + pageSize) args t.mem).1, _,
        fun unmapped => ?_, onlyIn_placeArgv hf40 args t.mem⟩
      rw [buildArgvStack, if_neg hdrop, hbase unmapped]

/-- The frame for ring 3 is on the kernel stack's page. -/
theorem onlyIn_entryFrame (m : Memory) (userStackTop file : Nat) (hf : f < 2 ^ 40) :
    OnlyIn m (entryFrame m (frameAddr f + 8 * 511) userStackTop file) {f} := by
  have h1 := sub64_lastWord f (k := 1) (by decide)
  have h2 := sub64_lastWord f (k := 2) (by decide)
  have h3 := sub64_lastWord f (k := 3) (by decide)
  have h4 := sub64_lastWord f (k := 4) (by decide)
  simp only [Nat.reduceMul, Nat.reduceSub] at h1 h2 h3 h4
  have hstore : ∀ (m' : Memory) (i v : Nat), i < 512 →
      OnlyIn m' (store64 m' (frameAddr f + 8 * i) v) {f} := fun m' i v hi =>
    onlyIn_store64 hf hi v
  unfold entryFrame
  simp only [h1, h2, h3, h4]
  exact ((((hstore m 511 _ (by decide)).trans (hstore _ 510 _ (by decide))).trans
    (hstore _ 509 _ (by decide))).trans (hstore _ 508 _ (by decide))).trans
    (hstore _ 507 _ (by decide))

end Stacks

/-! ## 3. `elf_load` -/

/-- What `elf_load` is called with: a process with an empty directory and a kernel stack. -/
structure LoadPre (s : Machine) (p : Process) (root stack : Nat) : Prop where
  wf : s.Wf
  fresh : Fresh s root
  pageDir : p.pageDir = frameAddr root
  stackTop : p.stackTop = frameAddr stack + 8 * 511
  used : s.pmm.Used stack
  apart : stack ≠ root

/-- Every segment fits, and the bytes it takes from the file are where the loader does not write. -/
def AllFit (s : Machine) (root stack file : Nat) : Prop :=
  ∀ i < elfPhnum s.mem file, IsLoad s.mem file i → (segment s.mem file i).Fits ∧
    ∀ j < (segment s.mem file i).filesz,
      Fixed s root stack (add64 file ((segment s.mem file i).offset + j))

/-- `Loaded s t root stack file N`: `elf_load` has taken the frames `N` and has written to them, to the
PML4's lower half and to the kernel stack only; what the program finds is the picture. -/
structure Loaded (s t : Machine) (root stack file : Nat) (N : Finset Nat) : Prop where
  takes : Takes s.pmm t.pmm N
  only : OnlyIn s.mem t.mem (insert stack (insert root N))
  upper : ∀ i, 256 ≤ i → i < 512 → entry t.mem root i = entry s.mem root i
  image : AllFit s root stack file → ∀ v < userStackPage,
    readByte t.mem root v = imageUpTo s.mem file (elfPhnum s.mem file) v

section Load

variable {s t : Machine} {p : Process} {root stack file n : Nat} {N : Finset Nat} {M : Set Nat}

/-- Writing to the kernel stack does not show in the directory. -/
theorem Loading.writeStack {m : Memory} (h : Loading s t root N M n) (hs : s.Wf)
    (hfresh : Fresh s root) (hused : s.pmm.Used stack) (hapart : stack ≠ root)
    (honly : OnlyIn t.mem m {stack}) :
    (∀ i < 512, entry m root i = entry t.mem root i) ∧
      ∀ v, LowerHalf v → readByte m root v = view t.mem root v := by
  have hX : ∀ q, q = root ∨ q ∈ frames t.mem 4 root → q ∉ ({stack} : Set Nat) := by
    rintro q (rfl | hq) rfl
    · exact hapart rfl
    · rcases h.ext.mem q hq with hq | hq
      · rw [hfresh.frames] at hq
        cases hq
      · exact h.ext.takes.notMem_of_test hused.2 hq
  obtain ⟨htree, hdir⟩ := h.ext.dir.keep (t := ⟨m, t.pmm⟩) (h.wf hs) honly hX h.ext.dir.used
  have hroot := h.ext.dir.root_lt (h.wf hs)
  have hbare : Bare 3 m root := by
    intro q hq i hi
    rw [htree] at hq
    have hmem : q ∈ frames t.mem 4 root := List.mem_map.mpr ⟨_, hq, rfl⟩
    rw [honly.entry_eq (frames_lt hmem) (hX q (Or.inr hmem)) hi]
    exact h.bare q hq i hi
  refine ⟨fun i hi => honly.entry_eq hroot (hX root (Or.inl rfl)) hi, fun v hv => ?_⟩
  have hleaf : leaf m root v = leaf t.mem root v :=
    walk_congr (honly.agrees hroot (hX root (Or.inl rfl)) fun q hq => hX q (Or.inr hq))
  refine (readByte_eq hdir.plain hbare hv).trans (view_congr hleaf fun f hf => ?_)
  have hmem := mem_frames_of_leaf hf
  exact honly f (frames_lt hmem) (hX f (Or.inr hmem)) _ (Nat.mod_lt _ (by decide))

/-- **The part after the segments.** -/
theorem loadStack_spec (heapStart : Nat) (argv : Option (List (List (BitVec 8))))
    (hpre : LoadPre s p root stack) (hfixed : HeadersFixed s root stack file)
    (h : LoadedUpTo s root stack file (elfPhnum s.mem file) t) :
    (∀ unmapped, loadStack unmapped file p argv heapStart t =
      loadStack 0 file p argv heapStart t) ∧
    Ensures (loadStack 0 file p argv heapStart t)
      (fun _ => s.pmm.freePages.card < 4 * (roundsUpTo s.mem file (elfPhnum s.mem file) + 1))
      (fun r => r.1 = elfEntry s.mem file ∧ (∃ argc addr, r.2.1 = loadedProcess p heapStart argc addr) ∧
        ∃ N, Loaded s r.2.2 root stack file N) := by
  obtain ⟨N, hN⟩ := h.loading
  have hlow : LowerHalf (userStackPage % 2 ^ 48) := by
    unfold LowerHalf
    decide
  have hmap := hN.mapZeroed (pagePresent + pageWritable + pageUser) hpre.wf hlow (by decide)
  have hstack : stack < 2 ^ 40 := hpre.wf.lt_of_used hpre.used
  -- what the new page, the arguments and the frame amount to
  have hrest : ∀ u, (∃ N', Loading s u root N'
        (insert (pageNo userStackPage) (pagesUpTo s.mem file (elfPhnum s.mem file)))
        (roundsUpTo s.mem file (elfPhnum s.mem file) + 1) ∧
        ∀ v, LowerHalf v → (v / pageSize = pageNo userStackPage → view u.mem root v = some 0) ∧
          (v / pageSize ≠ pageNo userStackPage → view u.mem root v = view t.mem root v)) →
      ∃ o m, (∀ unmapped, buildArgvStack unmapped (frameAddr root) userStackPage argv u = (o, m)) ∧
        ∀ top, elfEntry (entryFrame m (frameAddr stack + 8 * 511) top file) file =
            elfEntry s.mem file ∧
          ∃ N, Loaded s ⟨entryFrame m (frameAddr stack + 8 * 511) top file, u.pmm⟩ root stack file N := by
    rintro u ⟨N', hu, hview⟩
    have hpage : userStackPage / pageSize = pageNo userStackPage := by decide
    obtain ⟨f, hf⟩ := (hu.mapped userStackPage hlow).mpr (Or.inl hpage)
    obtain ⟨o, m, hm, honly⟩ := buildArgvStack_spec argv hu.ext.dir hf
    obtain ⟨hload, hleaf⟩ := hu.write hpre.wf hf honly
    refine ⟨o, m, hm, fun top => ?_⟩
    have hframe := @onlyIn_entryFrame stack m top file hstack
    obtain ⟨hupper, hread⟩ := hload.writeStack hpre.wf hpre.fresh hpre.used hpre.apart hframe
    generalize entryFrame m (frameAddr stack + 8 * 511) top file = m' at *
    have honly' : OnlyIn s.mem m' (insert stack (insert root N')) := by
      refine OnlyIn.trans ((hload.only hpre.fresh).mono fun q hq => Or.inr hq) (hframe.mono ?_)
      rintro q rfl
      exact Or.inl rfl
    refine ⟨hfixed.entry_eq fun a ha => ?_, N', hload.ext.takes, honly', ?_, fun hfit v hv => ?_⟩
    · obtain ⟨g, k, rfl, hk, hg, hroot, hgstack⟩ := ha
      refine honly' g (hpre.wf.lt_of_used hg) ?_ k hk
      rintro (hmem | hmem | hmem)
      · exact hgstack hmem
      · exact hroot hmem
      · exact hload.ext.takes.notMem_of_test hg.2 hmem
    · exact fun i hlo hhi => (hupper i hhi).trans (hload.upper i hlo hhi)
    · have hvlow : LowerHalf v := by
        unfold LowerHalf
        unfold userStackPage at hv
        omega
      have hne : v / pageSize ≠ pageNo userStackPage := by
        rw [← hpage]
        unfold userStackPage at *
        unfold pageSize
        omega
      have hvf : view m root v = view u.mem root v := by
        refine view_congr (hleaf v) fun g hg => ?_
        refine honly g (frames_lt (mem_frames_of_leaf hg)) ?_ _ (Nat.mod_lt _ (by decide))
        rintro rfl
        exact hne ((hu.ext.dir.leaf_inj hvlow hlow hg hf).trans hpage)
      rw [hread v hvlow, hvf, (hview v hvlow).2 hne, h.view hfit v hvlow]
  unfold loadStack
  rw [hpre.pageDir, hpre.stackTop]
  refine ⟨fun unmapped => hmap.bind_congr fun u hu => ?_, Ensures.bind hmap fun u hu => ?_⟩
  · obtain ⟨o, m, hm, -⟩ := hrest u hu
    rw [hm, hm]
  · obtain ⟨o, m, hm, hdone⟩ := hrest u hu
    rw [hm]
    dsimp only
    obtain ⟨hentry, hloaded⟩ := hdone (o.elim (userStackPage + pageSize - 8) Prod.snd)
    exact ensures_ok.mpr ⟨hentry, ⟨_, _, rfl⟩, hloaded⟩

/-- **`elf_load` of an image it accepts**, when the segments are confined.  It fails only for want of
pages, and what `get_physical_in` answers for an unmapped page does not matter. -/
theorem elfLoad_spec (argv : Option (List (List (BitVec 8)))) (hpre : LoadPre s p root stack)
    (hok : elfHeaderOk s.mem file = true) (hfixed : HeadersFixed s root stack file)
    (hconf : Confined s.mem file) :
    (∀ unmapped, elfLoadOr unmapped s file p argv = elfLoad s file p argv) ∧
    Ensures (elfLoad s file p argv)
      (fun _ => s.pmm.freePages.card < 4 * (roundsUpTo s.mem file (elfPhnum s.mem file) + 1))
      (fun r => r.1 = elfEntry s.mem file ∧
        (∃ heapStart argc addr, r.2.1 = loadedProcess p heapStart argc addr) ∧
        ∃ N, Loaded s r.2.2 root stack file N) := by
  obtain ⟨hsame, hsegs⟩ := loadSegments_spec hpre.wf hpre.fresh hfixed hconf
  have hunfold : ∀ unmapped, elfLoadOr unmapped s file p argv =
      loadSegments 0 (frameAddr root) file s >>= fun x =>
        loadStack unmapped file p argv x.1 x.2 := by
    intro unmapped
    rw [elfLoadOr, if_pos hok, hpre.pageDir, hsame unmapped]
  unfold elfLoad
  refine ⟨fun unmapped => ?_, ?_⟩
  · rw [hunfold, hunfold]
    refine hsegs.bind_congr fun x hx => ?_
    exact (loadStack_spec x.1 argv hpre hfixed hx).1 unmapped
  · rw [hunfold]
    refine Ensures.bind (hsegs.mono (fun _ he => by omega) fun x hx => hx) fun x hx => ?_
    refine (loadStack_spec x.1 argv hpre hfixed hx).2.mono (fun _ he => he) ?_
    rintro r ⟨hentry, ⟨argc, addr, hr⟩, hloaded⟩
    exact ⟨hentry, ⟨x.1, argc, addr, hr⟩, hloaded⟩

end Load

/-! ## 4. When the segments' bytes are right -/

/-- The byte range of a segment. -/
def Phdr.Contains (ph : Phdr) (v : Nat) : Prop := ph.vaddr ≤ v ∧ v < ph.vaddr + ph.memsz

/-- The page range of a segment: all of the pages it touches. -/
def Phdr.Touches (ph : Phdr) (v : Nat) : Prop := ph.start ≤ v ∧ v < ph.stop

/-- What the ELF format says is at an address of a segment. -/
def Phdr.byteAt (ph : Phdr) (file : Nat → BitVec 8) (v : Nat) : BitVec 8 :=
  if v < ph.vaddr + ph.filesz then file (ph.offset + (v - ph.vaddr)) else 0

/-- An image of `size` bytes in memory that is in use for something else than the new process, with a
header that `elf_load` accepts, segments inside the file and below the user stack, and byte ranges that
do not overlap. -/
structure ElfImage (s : Machine) (root stack file size : Nat) : Prop where
  bytes : ∀ k < size, Fixed s root stack (file + k)
  header : 68 ≤ size
  accepted : elfHeaderOk s.mem file = true
  table : elfPhoff s.mem file + sizeofPhdr * elfPhnum s.mem file ≤ size
  fits : ∀ i < elfPhnum s.mem file, IsLoad s.mem file i → (segment s.mem file i).Fits
  inside : ∀ i < elfPhnum s.mem file, IsLoad s.mem file i →
    (segment s.mem file i).offset + (segment s.mem file i).filesz ≤ size
  disjoint : ∀ i < elfPhnum s.mem file, ∀ j < elfPhnum s.mem file, i ≠ j → IsLoad s.mem file i →
    IsLoad s.mem file j → ∀ v, (segment s.mem file i).Contains v → ¬ (segment s.mem file j).Contains v

/-- Every byte of every segment is right, as the program sees it in `t`. -/
def SegmentsRight (s t : Machine) (root file : Nat) : Prop :=
  ∀ i < elfPhnum s.mem file, IsLoad s.mem file i → ∀ v, (segment s.mem file i).Contains v →
    readByte t.mem root v = some ((segment s.mem file i).byteAt (fileByte s.mem file) v)

/-- No byte other than zero of a segment is in a page that a LATER segment touches. -/
def NotBlanked (m : Memory) (file : Nat) : Prop :=
  ∀ i j, i < j → j < elfPhnum m file → IsLoad m file i → IsLoad m file j →
    ∀ v, (segment m file i).Contains v → (segment m file j).Touches v →
      (segment m file i).byteAt (fileByte m file) v = 0

section Right

variable {s : Machine} {root stack file size : Nat}

theorem ElfImage.headersFixed (h : ElfImage s root stack file size) :
    HeadersFixed s root stack file where
  header k hk := h.bytes k (hk.trans_le h.header)
  table i hi k hk := by
    have hlast := (h.bytes (size - 1) (by have := h.header; omega)).lt
    have htable := h.table
    have hhead := h.header
    have hmul : sizeofPhdr * i + sizeofPhdr ≤ sizeofPhdr * elfPhnum s.mem file := by
      rw [← Nat.mul_succ]
      exact Nat.mul_le_mul_left _ hi
    have haddr : phdrAddr s.mem file i = file + (elfPhoff s.mem file + sizeofPhdr * i) := by
      unfold phdrAddr
      rw [@add64_eq file (elfPhoff s.mem file) (by omega), add64_eq (by omega), Nat.add_assoc]
    rw [haddr, Nat.add_assoc]
    exact h.bytes _ (by omega)

theorem ElfImage.allFit (h : ElfImage s root stack file size) : AllFit s root stack file := by
  intro i hi hload
  refine ⟨h.fits i hi hload, fun j hj => ?_⟩
  have hin := h.inside i hi hload
  have hlast := (h.bytes (size - 1) (by have := h.header; omega)).lt
  rw [add64_eq (by omega)]
  exact h.bytes _ (by omega)

/-- The picture at an address of segment `i`, after the segments up to `k`: a later segment that touches
the page has left a zero. -/
theorem ElfImage.imageUpTo_eq (h : ElfImage s root stack file size) {i v : Nat}
    (hi : i < elfPhnum s.mem file) (hload : IsLoad s.mem file i)
    (hv : (segment s.mem file i).Contains v) {k : Nat} (hik : i < k)
    (hk : k ≤ elfPhnum s.mem file) :
    ((∃ j, i < j ∧ j < k ∧ IsLoad s.mem file j ∧ (segment s.mem file j).Touches v) →
      imageUpTo s.mem file k v = some 0) ∧
    ((¬ ∃ j, i < j ∧ j < k ∧ IsLoad s.mem file j ∧ (segment s.mem file j).Touches v) →
      imageUpTo s.mem file k v = some ((segment s.mem file i).byteAt (fileByte s.mem file) v)) := by
  induction k, hik using Nat.le_induction with
  | base =>
    obtain ⟨hstart, hstop, -⟩ := (h.fits i hi hload).stop_le
    obtain ⟨hlo, hhi⟩ := hv
    constructor
    · rintro ⟨j, hij, hji, -⟩
      omega
    · intro _
      rw [imageUpTo, if_pos hload, Phdr.paint, Phdr.byteAt]
      by_cases hfile : v < (segment s.mem file i).vaddr + (segment s.mem file i).filesz
      · rw [if_pos ⟨hlo, hfile⟩, if_pos hfile]
      · rw [if_neg fun hr => hfile hr.2, if_neg hfile, if_pos (by omega)]
  | succ k hik ih =>
    obtain ⟨ihzero, ihkeep⟩ := ih (by omega)
    -- a segment that does not touch the page leaves the picture as it was
    have hskip : ¬ (IsLoad s.mem file k ∧ (segment s.mem file k).Touches v) →
        ((∃ j, i < j ∧ j < k + 1 ∧ IsLoad s.mem file j ∧ (segment s.mem file j).Touches v) ↔
          ∃ j, i < j ∧ j < k ∧ IsLoad s.mem file j ∧ (segment s.mem file j).Touches v) := by
      intro hnot
      constructor
      · rintro ⟨j, hij, hjk, hj⟩
        refine ⟨j, hij, ?_, hj⟩
        rcases Nat.lt_succ_iff_lt_or_eq.mp hjk with hjk | rfl
        · exact hjk
        · exact absurd hj hnot
      · rintro ⟨j, hij, hjk, hj⟩
        exact ⟨j, hij, Nat.lt_succ_of_lt hjk, hj⟩
    rw [imageUpTo]
    by_cases hkload : IsLoad s.mem file k
    · have hnot : ¬ ((segment s.mem file k).vaddr ≤ v ∧
          v < (segment s.mem file k).vaddr + (segment s.mem file k).filesz) := by
        intro hr
        have hfits := (h.fits k hk hkload).1
        exact h.disjoint i hi k hk (by omega) hload hkload v hv ⟨hr.1, by omega⟩
      rw [if_pos hkload, Phdr.paint, if_neg hnot]
      by_cases htouch : (segment s.mem file k).start ≤ v ∧ v < (segment s.mem file k).stop
      · rw [if_pos htouch]
        exact ⟨fun _ => rfl, fun hno => absurd ⟨k, hik, Nat.lt_succ_self k, hkload, htouch⟩ hno⟩
      · rw [if_neg htouch, hskip fun hk => htouch hk.2]
        exact ⟨ihzero, ihkeep⟩
    · rw [if_neg hkload, hskip fun hk => hkload hk.1]
      exact ⟨ihzero, ihkeep⟩

/-- **The segments are right if and only if no later segment blanks a page they have data in.**  An
image that is fit to be loaded is loaded unless there are too few pages. -/
theorem elf_segments_right_iff {p : Process} (argv : Option (List (List (BitVec 8))))
    (hpre : LoadPre s p root stack) (himage : ElfImage s root stack file size) :
    Ensures (elfLoad s file p argv)
      (fun _ => s.pmm.freePages.card < 4 * (roundsUpTo s.mem file (elfPhnum s.mem file) + 1))
      (fun r => r.1 = elfEntry s.mem file ∧
        (SegmentsRight s r.2.2 root file ↔ NotBlanked s.mem file)) := by
  refine (elfLoad_spec argv hpre himage.accepted himage.headersFixed
    (Confined.of_fits himage.fits)).2.mono (fun _ he => he) ?_
  rintro ⟨entry, q, t⟩ ⟨hentry, -, N, hloaded⟩
  refine ⟨hentry, ?_⟩
  have hview : ∀ i < elfPhnum s.mem file, IsLoad s.mem file i →
      ∀ v, (segment s.mem file i).Contains v →
        readByte t.mem root v = imageUpTo s.mem file (elfPhnum s.mem file) v := by
    intro i hi hload v hv
    have hend := (himage.fits i hi hload).2
    exact hloaded.image himage.allFit v (hv.2.trans_le hend)
  constructor
  · intro hright i j hij hj hiload hjload v hv htouch
    have hi : i < elfPhnum s.mem file := hij.trans hj
    have hzero := (himage.imageUpTo_eq hi hiload hv hi (Nat.le_refl _)).1
      ⟨j, hij, hj, hjload, htouch⟩
    have heq := hright i hi hiload v hv
    dsimp only at heq
    rw [hview i hi hiload v hv, hzero] at heq
    exact (Option.some.inj heq).symm
  · intro hblank i hi hload v hv
    obtain ⟨hzero, hkeep⟩ := himage.imageUpTo_eq hi hload hv hi (Nat.le_refl _)
    dsimp only
    rw [hview i hi hload v hv]
    by_cases hlater : ∃ j, i < j ∧ j < elfPhnum s.mem file ∧ IsLoad s.mem file j ∧
        (segment s.mem file j).Touches v
    · obtain ⟨j, hij, hj, hjload, htouch⟩ := hlater
      rw [hzero ⟨j, hij, hj, hjload, htouch⟩, hblank i j hij hj hload hjload v hv htouch]
    · exact hkeep hlater

end Right

/-! ### An image on a small machine -/

/-- A number as `n` bytes. -/
def leBytes : Nat → Nat → List (BitVec 8)
  | 0, _ => []
  | n + 1, v => BitVec.ofNat 8 v :: leBytes n (v / 256)

/-- A program header of an image. -/
def phdrBytes (ph : Phdr) : List (BitVec 8) :=
  leBytes 4 ph.type ++ leBytes 4 ph.flags ++ leBytes 8 ph.offset ++ leBytes 8 ph.vaddr ++
    leBytes 8 ph.vaddr ++ leBytes 8 ph.filesz ++ leBytes 8 ph.memsz ++ leBytes 8 4096

/-- An executable in the ELF64 format, with as many section headers as program headers. -/
def elfBytes (entry : Nat) (phs : List Phdr) (data : List (BitVec 8)) : List (BitVec 8) :=
  [0x7F, 0x45, 0x4C, 0x46, 2, 1, 1, 0, 0, 0, 0, 0, 0, 0, 0, 0] ++ leBytes 2 2 ++ leBytes 2 0x3E ++
    leBytes 4 1 ++ leBytes 8 entry ++ leBytes 8 64 ++ leBytes 8 0 ++ leBytes 4 0 ++ leBytes 2 64 ++
    leBytes 2 56 ++ leBytes 2 phs.length ++ leBytes 2 64 ++ leBytes 2 phs.length ++ leBytes 2 0 ++
    phs.flatMap phdrBytes ++ data

/-- 64 pages, the first 8 in use. -/
def eightUsed : Pmm := ⟨fun b => if b = 0 then 0xFF else 0, 64, 8⟩

/-- A machine with these: frame 1 is an empty directory, frame 2 a kernel stack, and frame 3
holds an image. -/
def imageMachine (image : List (BitVec 8)) : Machine where
  mem a := if frameAddr 3 ≤ a then image.getD (a - frameAddr 3) 0 else 0
  pmm := eightUsed

/-- Two segments of one byte in the page at 0x400000. -/
def sharedPage : List (BitVec 8) :=
  elfBytes 0x400000 [⟨1, 5, 176, 0x400000, 1, 1⟩, ⟨1, 6, 177, 0x400800, 1, 1⟩] [0xAA, 0xBB]


theorem used_eightUsed {f : Nat} (hf : f < 8) : eightUsed.Used f := by
  refine ⟨Nat.lt_of_lt_of_le hf (by decide), ?_⟩
  interval_cases f <;> decide

theorem eightUsed_wf : eightUsed.Wf := ⟨by decide, by decide⟩

theorem fresh_imageMachine (image : List (BitVec 8)) : Fresh (imageMachine image) 1 := by
  refine .of_blank (used_eightUsed (by decide)) fun k hk => ?_
  have h3 : frameAddr 1 + 4096 ≤ frameAddr 3 := by decide +kernel
  exact if_neg (by omega)

/-- A process with that directory and that stack. -/
theorem imageMachine_pre (image : List (BitVec 8)) :
    LoadPre (imageMachine image) (pcbWithPages 2 1) 1 2 :=
  ⟨⟨eightUsed_wf, (by decide : eightUsed.totalPages ≤ 2 ^ 35)⟩, fresh_imageMachine image, rfl, rfl,
    used_eightUsed (by decide), by decide⟩

theorem fixed_imageMachine (image : List (BitVec 8)) {k : Nat} (hk : k < 4096) :
    Fixed (imageMachine image) 1 2 (frameAddr 3 + k) :=
  ⟨3, k, rfl, hk, used_eightUsed (by decide), by decide, by decide⟩

theorem segments_sharedPage {i : Nat} (hi : i < elfPhnum (imageMachine sharedPage).mem (frameAddr 3)) :
    (i = 0 ∧ segment (imageMachine sharedPage).mem (frameAddr 3) i = ⟨1, 5, 176, 0x400000, 1, 1⟩) ∨
    (i = 1 ∧ segment (imageMachine sharedPage).mem (frameAddr 3) i = ⟨1, 6, 177, 0x400800, 1, 1⟩) := by
  have hnum : elfPhnum (imageMachine sharedPage).mem (frameAddr 3) = 2 := by decide +kernel
  rw [hnum] at hi
  interval_cases i
  · exact Or.inl ⟨rfl, by decide +kernel⟩
  · exact Or.inr ⟨rfl, by decide +kernel⟩

theorem elfImage_sharedPage : ElfImage (imageMachine sharedPage) 1 2 (frameAddr 3) 178 where
  bytes k hk := fixed_imageMachine sharedPage (by omega)
  header := by decide
  accepted := by decide +kernel
  table := by decide +kernel
  fits i hi _ := by
    unfold Phdr.Fits
    rcases segments_sharedPage hi with ⟨-, h⟩ | ⟨-, h⟩ <;> rw [h] <;> decide
  inside i hi _ := by
    rcases segments_sharedPage hi with ⟨-, h⟩ | ⟨-, h⟩ <;> rw [h] <;> decide
  disjoint i hi j hj hij _ _ v := by
    unfold Phdr.Contains
    rcases segments_sharedPage hi with ⟨rfl, h⟩ | ⟨rfl, h⟩ <;>
      rcases segments_sharedPage hj with ⟨rfl, h'⟩ | ⟨rfl, h'⟩ <;> simp only [h, h'] <;> omega

theorem pages_sharedPage : ¬ (imageMachine sharedPage).pmm.freePages.card < 4 * (roundsUpTo
    (imageMachine sharedPage).mem (frameAddr 3)
    (elfPhnum (imageMachine sharedPage).mem (frameAddr 3)) + 1) := by
  decide +kernel

theorem elf_segments_right_shared_page : ∃ r,
    elfLoad (imageMachine sharedPage) (frameAddr 3) (pcbWithPages 2 1) none = .ok r ∧
      (SegmentsRight (imageMachine sharedPage) r.2.2 1 (frameAddr 3) ↔
        NotBlanked (imageMachine sharedPage).mem (frameAddr 3)) := by
  obtain ⟨r, hr, -, hiff⟩ := (elf_segments_right_iff none (imageMachine_pre sharedPage)
    elfImage_sharedPage).exists_ok fun _ => pages_sharedPage
  exact ⟨r, hr, hiff⟩

/-- The first segment's byte is 0xAA in the file and 0 in memory: the second segment has blanked the
page. -/
theorem elf_shared_page_blanked : ElfImage (imageMachine sharedPage) 1 2 (frameAddr 3) 178 ∧
    ∃ r, elfLoad (imageMachine sharedPage) (frameAddr 3) (pcbWithPages 2 1) none = .ok r ∧
      fileByte (imageMachine sharedPage).mem (frameAddr 3) 176 = 0xAA ∧
      readByte r.2.2.mem 1 0x400000 = some 0 ∧
      ¬ SegmentsRight (imageMachine sharedPage) r.2.2 1 (frameAddr 3) := by
  have himage := elfImage_sharedPage
  obtain ⟨r, hr, -, -, N, hloaded⟩ := (elfLoad_spec none (imageMachine_pre sharedPage)
    himage.accepted himage.headersFixed (Confined.of_fits himage.fits)).2.exists_ok
    fun _ => pages_sharedPage
  have h0 : 0 < elfPhnum (imageMachine sharedPage).mem (frameAddr 3) := by decide +kernel
  have h1 : 1 < elfPhnum (imageMachine sharedPage).mem (frameAddr 3) := by decide +kernel
  have hload : IsLoad (imageMachine sharedPage).mem (frameAddr 3) 0 := by decide +kernel
  have hload' : IsLoad (imageMachine sharedPage).mem (frameAddr 3) 1 := by decide +kernel
  have hin : (segment (imageMachine sharedPage).mem (frameAddr 3) 0).Contains 0x400000 := by
    unfold Phdr.Contains
    decide +kernel
  have htouch : (segment (imageMachine sharedPage).mem (frameAddr 3) 1).Touches 0x400000 := by
    unfold Phdr.Touches
    decide +kernel
  have hread : readByte r.2.2.mem 1 0x400000 = some 0 := by
    rw [hloaded.image himage.allFit _ (by decide)]
    exact (himage.imageUpTo_eq h0 hload hin h0 (Nat.le_refl _)).1 ⟨1, by decide, h1, hload', htouch⟩
  refine ⟨himage, r, hr, by decide +kernel, hread, fun hright => ?_⟩
  have heq := hright 0 h0 hload _ hin
  rw [hread] at heq
  exact absurd (Option.some.inj heq) (by decide +kernel)

/-! ## 5. What a hostile image can reach -/

/-- A table that is reached through the upper half of a PML4. -/
def UpperTable (m : Memory) (root q : Nat) : Prop :=
  ∃ i l, 256 ≤ i ∧ i < 512 ∧ 0 < l ∧ (l, q) ∈ subtree levelWidth (kids m) 3 (kids m 4 root i)

/-- The kernel's tables are in use, and not as the new PML4 or kernel stack, which are not page 0. -/
structure KernelApart (s : Machine) (root stack : Nat) : Prop where
  tables : ∀ q, UpperTable s.mem root q → s.pmm.Used q ∧ q ≠ root ∧ q ≠ stack
  root_ne : root ≠ 0
  stack_ne : stack ≠ 0

/-- From `s` to `t` only the new process's pages were written: those taken since, the PML4's lower half
and the kernel stack.  Page 0, the PML4's upper half and the tables behind it are as they were. -/
structure StaysInside (s t : Machine) (root stack : Nat) : Prop where
  only : ∃ N, Takes s.pmm t.pmm N ∧ OnlyIn s.mem t.mem (insert stack (insert root N))
  page0 : ∀ k < 4096, t.mem (frameAddr 0 + k) = s.mem (frameAddr 0 + k)
  upper : ∀ i, 256 ≤ i → i < 512 → entry t.mem root i = entry s.mem root i
  tables : ∀ q, UpperTable s.mem root q →
    ∀ k < 4096, t.mem (frameAddr q + k) = s.mem (frameAddr q + k)

theorem Loaded.staysInside {s t : Machine} {root stack file : Nat} {N : Finset Nat}
    (h : Loaded s t root stack file N) (hs : s.Wf) (hkernel : KernelApart s root stack) :
    StaysInside s t root stack := by
  have hkeep : ∀ q, q < 2 ^ 40 → s.pmm.bitmapTest q = false → q ≠ root → q ≠ stack →
      ∀ k < 4096, t.mem (frameAddr q + k) = s.mem (frameAddr q + k) := by
    intro q hq hused hroot hstack k hk
    refine h.only q hq ?_ k hk
    rintro (hmem | hmem | hmem)
    · exact hstack hmem
    · exact hroot hmem
    · exact h.takes.notMem_of_test hused hmem
  refine ⟨⟨N, h.takes, h.only⟩, ?_, h.upper, fun q hq => ?_⟩
  · exact hkeep 0 (by decide) hs.pmm.zero_used hkernel.root_ne.symm hkernel.stack_ne.symm
  · obtain ⟨hused, hroot, hstack⟩ := hkernel.tables q hq
    exact hkeep q (hs.lt_of_used hused) hused.2 hroot hstack

theorem StaysInside.refl (s : Machine) (root stack : Nat) : StaysInside s s root stack :=
  ⟨⟨∅, Takes.refl _, OnlyIn.refl _ _⟩, fun _ _ => rfl, fun _ _ _ => rfl, fun _ _ _ _ => rfl⟩

/-- **Loading is confined** if the segments of an image that is accepted are: they are mapped through the
lower half, and filled where they are mapped.  Nothing depends on what `get_physical_in` answers for an
unmapped page, so nothing is written through one. -/
theorem elf_load_stays_inside (s : Machine) (file : Nat) (p : Process)
    (argv : Option (List (List (BitVec 8)))) (root stack : Nat) (hpre : LoadPre s p root stack)
    (hkernel : KernelApart s root stack)
    (hconf : elfHeaderOk s.mem file = true →
      HeadersFixed s root stack file ∧ Confined s.mem file) :
    (∀ unmapped, elfLoadOr unmapped s file p argv = elfLoad s file p argv) ∧
      ∀ entry q t, elfLoad s file p argv = .ok (entry, q, t) → StaysInside s t root stack := by
  by_cases hok : elfHeaderOk s.mem file = true
  · obtain ⟨hfixed, hconf⟩ := hconf hok
    obtain ⟨hsame, hspec⟩ := elfLoad_spec argv hpre hok hfixed hconf
    refine ⟨hsame, fun entry q t ht => ?_⟩
    obtain ⟨-, -, N, hloaded⟩ := hspec.of_ok ht
    exact hloaded.staysInside hpre.wf hkernel
  · have hreject : ∀ unmapped, elfLoadOr unmapped s file p argv = .ok (0, p, s) := by
      intro unmapped
      rw [elfLoadOr, if_neg hok]
    refine ⟨fun unmapped => by rw [elfLoad, hreject, hreject], fun entry q t ht => ?_⟩
    rw [elfLoad, hreject] at ht
    cases ht
    exact StaysInside.refl _ _ _

theorem kernelApart_imageMachine (image : List (BitVec 8)) :
    KernelApart (imageMachine image) 1 2 := by
  refine ⟨fun q hq => ?_, by decide, by decide⟩
  obtain ⟨i, l, -, hi, -, hmem⟩ := hq
  obtain ⟨c, hc, -⟩ := mem_subtree.mp hmem
  have h3 : frameAddr 1 + 4096 ≤ frameAddr 3 := by decide +kernel
  have hblank : entry (imageMachine image).mem 1 i = 0 :=
    entry_blank (fun k hk => if_neg (by omega)) hi
  rw [kids_blank hblank] at hc
  cases hc

theorem elf_load_stays_inside_shared_page : ∃ r,
    elfLoad (imageMachine sharedPage) (frameAddr 3) (pcbWithPages 2 1) none = .ok r ∧
      StaysInside (imageMachine sharedPage) r.2.2 1 2 := by
  have himage := elfImage_sharedPage
  have hconf := Confined.of_fits himage.fits
  obtain ⟨⟨entry, q, t⟩, hr, -⟩ := (elfLoad_spec none (imageMachine_pre sharedPage) himage.accepted
    himage.headersFixed hconf).2.exists_ok fun _ => pages_sharedPage
  exact ⟨_, hr, (elf_load_stays_inside _ _ _ none 1 2 (imageMachine_pre sharedPage)
    (kernelApart_imageMachine sharedPage) fun _ => ⟨himage.headersFixed, hconf⟩).2 entry q t hr⟩

/-- One segment with a byte in the file and none in memory. -/
def noMemory : List (BitVec 8) := elfBytes 0x400000 [⟨1, 5, 0, 0x400000, 1, 0⟩] []

/-- The machine after its segment was loaded: no page was mapped, and the byte went to page 0. -/
def noMemoryLoaded : Machine :=
  { imageMachine noMemory with
    mem := Function.update (imageMachine noMemory).mem (frameAddr 0) 0x7F }

theorem loadSegments_noMemory :
    loadSegments 0 (frameAddr 1) (frameAddr 3) (imageMachine noMemory) =
      .ok (0x400000, noMemoryLoaded) := by
  have hnum : elfPhnum (imageMachine noMemory).mem (frameAddr 3) = 1 := by decide +kernel
  have hph : phdrAt (imageMachine noMemory).mem
      (phdrAddr (imageMachine noMemory).mem (frameAddr 3) 0) = ⟨1, 5, 0, 0x400000, 1, 0⟩ := by
    decide +kernel
  have hpages : Phdr.pages ⟨1, 5, 0, 0x400000, 1, 0⟩ = 0 := by decide
  have hbss : Phdr.bssSize ⟨1, 5, 0, 0x400000, 1, 0⟩ = 0 := by decide
  have hstop : max 0 (Phdr.stop ⟨1, 5, 0, 0x400000, 1, 0⟩) = 0x400000 := by decide
  have hlow : LowerHalf 0x400000 := by
    unfold LowerHalf
    decide
  have hphys : getPhysicalOr 0 (imageMachine noMemory) (frameAddr 1) 0x400000 = 0 := by
    rw [getPhysicalOr_eq 0 (fresh_imageMachine noMemory).dir hlow,
      (fresh_imageMachine noMemory).leaf]
    rfl
  have hbyte : (imageMachine noMemory).mem (add64 (add64 (frameAddr 3) 0) 0) = 0x7F := by
    decide +kernel
  have hfill : fillRange 0 (frameAddr 1) (some (add64 (frameAddr 3) 0)) 0x400000 1
      (imageMachine noMemory) = noMemoryLoaded := by
    have h0 : add64 (physicalToVirtual 0) (0x400000 % pageSize) = frameAddr 0 := by decide +kernel
    have h0' : add64 (frameAddr 0) 0 = frameAddr 0 := by decide +kernel
    have hva : 0x400000 / pageSize * pageSize = 0x400000 := by decide
    have hone : min (pageSize - 0x400000 % pageSize) 1 = 1 := by decide
    rw [fillRange, if_neg one_ne_zero]
    dsimp only
    rw [hva, hphys, h0, hone, Nat.sub_self, fillRange, if_pos rfl, fillBytes, loop, loop,
      Option.elim_some, hbyte, h0']
    rfl
  have hnum' : elfPhnum noMemoryLoaded.mem (frameAddr 3) = 1 := by decide +kernel
  have hph' : phdrAt noMemoryLoaded.mem (phdrAddr (imageMachine noMemory).mem (frameAddr 3) 0) =
      ⟨1, 5, 0, 0x400000, 1, 0⟩ := by decide +kernel
  have hat : loadSegmentAt 0 (frameAddr 1) (frameAddr 3)
      (phdrAddr (imageMachine noMemory).mem (frameAddr 3) 0) (imageMachine noMemory) =
      .ok noMemoryLoaded := by
    rw [loadSegmentAt, hph, mapPagesOf, hpages, forRange]
    simp only [bind, Except.bind]
    rw [hph, hfill, hph', hbss, fillRange, if_pos rfl]
  refine forRange_stop (show 1 ≤ uint16Max by decide) ?_ fun k hk => ?_
  · rw [forRange, forRange]
    simp only [bind, Except.bind]
    unfold loadHeader
    change (if 0 < elfPhnum _ _ ∧ (phdrAt _ (phdrAddr (imageMachine noMemory).mem _ 0)).type = _ then
      loadSegmentAt 0 _ _ (phdrAddr (imageMachine noMemory).mem _ 0) _ >>= fun s =>
        .ok (max 0 (phdrAt _ (phdrAddr (imageMachine noMemory).mem _ 0)).stop, s) else _) = _
    rw [hph, hnum, if_pos (by decide), hat]
    simp only [bind, Except.bind, hstop]
  · unfold loadHeader
    dsimp only
    rw [hnum', if_neg (by omega)]

/-- An image whose only segment has `p_filesz` 1 and `p_memsz` 0: its byte is written to physical
page 0. -/
theorem elf_load_writes_page_zero :
    LoadPre (imageMachine noMemory) (pcbWithPages 2 1) 1 2 ∧
    KernelApart (imageMachine noMemory) 1 2 ∧
    ∃ entry q t, elfLoad (imageMachine noMemory) (frameAddr 3) (pcbWithPages 2 1) none =
        .ok (entry, q, t) ∧ t.mem (frameAddr 0) = 0x7F ∧ (imageMachine noMemory).mem (frameAddr 0) = 0 ∧
      ¬ StaysInside (imageMachine noMemory) t 1 2 := by
  have hzero : (imageMachine noMemory).mem (frameAddr 0) = 0 := by decide +kernel
  have h01 : frameAddr 0 < frameAddr 1 := by decide +kernel
  have h13 : frameAddr 1 + 4096 ≤ frameAddr 3 := by decide +kernel
  have hfresh : Fresh noMemoryLoaded 1 := by
    refine .of_blank (used_eightUsed (by decide)) fun k hk => ?_
    refine (Function.update_of_ne (by omega) _ _).trans ?_
    exact if_neg (by omega)
  have hpre : LoadPre noMemoryLoaded (pcbWithPages 2 1) 1 2 :=
    ⟨⟨eightUsed_wf, (by decide : eightUsed.totalPages ≤ 2 ^ 35)⟩, hfresh, rfl, rfl, used_eightUsed (by decide), by decide⟩
  have hnum : elfPhnum noMemoryLoaded.mem (frameAddr 3) = 1 := by decide +kernel
  have haddr : phdrAddr noMemoryLoaded.mem (frameAddr 3) 0 = frameAddr 3 + 64 := by decide +kernel
  have hfixed : HeadersFixed noMemoryLoaded 1 2 (frameAddr 3) := by
    refine ⟨fun k hk => fixed_imageMachine noMemory (by omega), fun i hi k hk => ?_⟩
    rw [hnum] at hi
    obtain rfl : i = 0 := by omega
    rw [haddr, Nat.add_assoc]
    exact fixed_imageMachine noMemory (by unfold sizeofPhdr at hk; omega)
  -- for the rest of `elf_load` this is a directory in which no page has been mapped yet
  have hpages : pagesUpTo noMemoryLoaded.mem (frameAddr 3) 1 = ∅ := by
    refine Set.eq_empty_iff_forall_notMem.mpr fun q ⟨i, hi, _, j, hj, _⟩ => ?_
    have hnone : (segment noMemoryLoaded.mem (frameAddr 3) 0).pages = 0 := by decide +kernel
    obtain rfl : i = 0 := by omega
    rw [hnone] at hj
    cases hj
  have hup : LoadedUpTo noMemoryLoaded 1 2 (frameAddr 3) (elfPhnum noMemoryLoaded.mem (frameAddr 3))
      noMemoryLoaded := by
    rw [hnum]
    refine ⟨⟨∅, ?_⟩, fun hfits => ?_⟩
    · have hrounds : roundsUpTo noMemoryLoaded.mem (frameAddr 3) 1 = 0 := by decide +kernel
      rw [hpages, hrounds]
      exact hfresh.loading
    · have hnot : ¬ (segment noMemoryLoaded.mem (frameAddr 3) 0).filesz ≤
          (segment noMemoryLoaded.mem (frameAddr 3) 0).memsz := by decide +kernel
      exact absurd (hfits 0 Nat.one_pos (by decide +kernel)).1.1 hnot
  have hcard : ¬ noMemoryLoaded.pmm.freePages.card < 4 * (roundsUpTo noMemoryLoaded.mem (frameAddr 3)
      (elfPhnum noMemoryLoaded.mem (frameAddr 3)) + 1) := by decide +kernel
  obtain ⟨⟨entry, q, t⟩, hr, -, -, N, hloaded⟩ :=
    (loadStack_spec 0x400000 none hpre hfixed hup).2.exists_ok fun _ => hcard
  have hok : elfHeaderOk (imageMachine noMemory).mem (frameAddr 3) = true := by decide +kernel
  have hbyte : t.mem (frameAddr 0) = 0x7F := by
    refine (hloaded.only 0 (by decide) ?_ 0 (by decide)).trans (Function.update_self ..)
    rintro (hmem | hmem | hmem)
    · cases hmem
    · cases hmem
    · exact hloaded.takes.notMem_of_test (eightUsed_wf.zero_used) hmem
  refine ⟨imageMachine_pre noMemory, kernelApart_imageMachine noMemory, entry, q, t, ?_, hbyte, hzero,
    fun hstays => ?_⟩
  · rw [elfLoad, elfLoadOr, if_pos hok]
    have hdir : (pcbWithPages 2 1).pageDir = frameAddr 1 := rfl
    rw [hdir, loadSegments_noMemory]
    exact hr
  · have heq := hstays.page0 0 (by decide)
    rw [Nat.add_zero, hbyte, hzero] at heq
    exact absurd heq (by decide)

end AcornOS
