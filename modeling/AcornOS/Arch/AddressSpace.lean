/-
# A directory as a tree of frames

The lower half of a directory, entries 0 to 255 of its PML4, is a radix tree (`Lib/Radix.lean`)
whose nodes are frames: level 4 is the PML4, 3 a PDPT, 2 a PD, 1 a page table and 0 a page of data.
`kids` reads it off memory.  An entry of a PD for a 2MB page leads to no frame that the directory
owns, so it is no edge of the tree.

* `Copied m m' n P Q`: the tree below `Q` in memory `m'` is a copy of the tree below `P` in memory
  `m`, entry by entry and byte by byte.
* `Filled`: what the copying loop over one table has achieved after `k` entries.  It is the loop
  invariant at every level, and the specification of the inner loop at the level above.
* `freePml4_eq`: the freeing loops give back the nodes of the tree, children first.

Both loops are specified ONCE, for a table at any level above the last (`copyTable_spec`,
`freeTable_eq`), and the four levels are instances.
-/
import AcornOS.Lib.Radix
import AcornOS.Arch.Paging

namespace AcornOS

open Lib
open scoped List

/-! ## 1. The tree -/

/-- Entries of a table that belong to the lower half: half of a PML4, all of the others. -/
def levelWidth (l : Nat) : Nat := if l = 4 then 256 else 512

/-- The frame that an entry of a table of level `l` owns. -/
def kids (m : Memory) : Kids Nat := fun l p i =>
  if present (entry m p i) && !(l == 2 && hugePage (entry m p i)) then
    some (frame (entry m p i)) else none

/-- The frames below frame `p`, a table of level `n`, with their levels. -/
def tree (m : Memory) (n p : Nat) : List (Nat × Nat) := nodes levelWidth (kids m) n p

/-- The frames below frame `p`. -/
def frames (m : Memory) (n p : Nat) : List Nat := (tree m n p).map Prod.snd

/-- A page the allocator knows about and has handed out. -/
def Pmm.Used (pm : Pmm) (p : Nat) : Prop := p < pm.totalPages ∧ pm.bitmapTest p = false

/-- The allocator is in order, and physical memory fits into the direct map, which has the `2^47`
bytes from `PHYSICAL_MAP_BASE` to the end of the address space. -/
structure Machine.Wf (s : Machine) : Prop where
  pmm : s.pmm.Wf
  ram : s.pmm.totalPages ≤ 2 ^ 35

section Tree

variable {m m' : Memory} {n p q i c l : Nat} {X : Set Nat}

theorem levelWidth_le (l : Nat) : levelWidth l ≤ 512 := by
  unfold levelWidth
  split <;> omega

theorem kids_lt (h : kids m l p i = some c) : c < 2 ^ 40 := by
  unfold kids at h
  split at h
  · rw [← Option.some.inj h]
    exact frame_lt _
  · cases h

theorem frames_lt (h : q ∈ frames m n p) : q < 2 ^ 40 := by
  obtain ⟨x, hx, rfl⟩ := List.mem_map.mp h
  induction n generalizing p with
  | zero => cases hx
  | succ n ih =>
    obtain ⟨j, -, hx⟩ := mem_upTo.mp hx
    obtain ⟨c, hc, rfl | hx⟩ := mem_subtree.mp hx
    · exact kids_lt hc
    · exact ih hx (List.mem_map.mpr ⟨x, hx, rfl⟩)

theorem kids_congr (h : entry m' p i = entry m p i) : kids m' l p i = kids m l p i := by
  unfold kids
  rw [h]

theorem kids_absent (h : ¬ present (entry m p i) = true) : kids m l p i = none := by
  unfold kids
  rw [Bool.eq_false_iff.mpr h]
  rfl

theorem kids_shared (h : (l == 2 && hugePage (entry m p i)) = true) : kids m l p i = none := by
  unfold kids
  rw [h, Bool.not_true, Bool.and_false]
  rfl

theorem kids_owned (h : present (entry m p i) = true)
    (hhuge : ¬ (l == 2 && hugePage (entry m p i)) = true) :
    kids m l p i = some (frame (entry m p i)) := by
  unfold kids
  rw [h, Bool.eq_false_iff.mpr hhuge]
  rfl

/-- A blank table has no children. -/
theorem kids_blank (h : entry m p i = 0) : kids m l p i = none :=
  kids_absent (by rw [h]; decide)

/-- Memory that differs only elsewhere holds the same tree. -/
theorem OnlyIn.agrees (h : OnlyIn m m' X) (hp : p < 2 ^ 40) (hpX : p ∉ X)
    (hX : ∀ q ∈ frames m n p, q ∉ X) : Agrees levelWidth (kids m) (kids m') n p := by
  intro x hx _ j hj
  have hj512 : j < 512 := hj.trans_le (levelWidth_le _)
  rcases hx with rfl | hx
  · exact kids_congr (h.entry_eq hp hpX hj512)
  · have hmem : x.2 ∈ frames m n p := List.mem_map.mpr ⟨x, hx, rfl⟩
    exact kids_congr (h.entry_eq (frames_lt hmem) (hX _ hmem) hj512)

theorem OnlyIn.tree_eq (h : OnlyIn m m' X) (hp : p < 2 ^ 40) (hpX : p ∉ X)
    (hX : ∀ q ∈ frames m n p, q ∉ X) : tree m' n p = tree m n p :=
  nodes_congr (h.agrees hp hpX hX)

theorem mem_frames_of_kid (hi : i < levelWidth (n + 1)) (hc : kids m (n + 1) p i = some c)
    (hq : q = c ∨ q ∈ frames m n c) : q ∈ frames m (n + 1) p := by
  rcases hq with rfl | hq
  · exact List.mem_map.mpr ⟨(n, q), mem_nodes_of_kid hi hc (Or.inl rfl), rfl⟩
  · obtain ⟨x, hx, rfl⟩ := List.mem_map.mp hq
    exact List.mem_map.mpr ⟨x, mem_nodes_of_kid hi hc (Or.inr hx), rfl⟩

end Tree

/-! ## 2. Copies -/

/-- `EntryCopied m R l P i e'`: the word `e'` is a copy of entry `i` of table `P` of level `l`.  If the
entry leads to a frame, `e'` leads to one that `R` relates to it and is otherwise the same word; an
entry for a 2MB page is the same word; an entry that is not present is zero. -/
def EntryCopied (m : Memory) (R : Nat → Nat → Prop) (l P i e' : Nat) : Prop :=
  (kids m l P i = none → e' = if present (entry m P i) then entry m P i else 0) ∧
    ∀ c, kids m l P i = some c → ∃ c' < 2 ^ 40, e' = setFrame (entry m P i) c' ∧ R c c'

/-- `Copied m m' n P Q`: `Q` in `m'` is a copy of `P` in `m`, down to the bytes of the pages. -/
def Copied (m m' : Memory) : Nat → Nat → Nat → Prop
  | 0, P, Q => ∀ k < 4096, m' (frameAddr Q + k) = m (frameAddr P + k)
  | n + 1, P, Q => ∀ i < levelWidth (n + 1),
    EntryCopied m (Copied m m' n) (n + 1) P i (entry m' Q i)

section Copies

variable {m m' m'' : Memory} {n P Q i c c' : Nat} {X : Set Nat}

/-- The copy of an entry that leads to a frame leads to the copy of that frame. -/
theorem kids_setFrame (hc' : c' < 2 ^ 40) (hkid : kids m (n + 1) P i = some c)
    (he : entry m' Q i = setFrame (entry m P i) c') : kids m' (n + 1) Q i = some c' := by
  unfold kids at hkid ⊢
  rw [he, present_setFrame, hugePage_setFrame, frame_setFrame hc']
  split at hkid
  · rename_i hcond
    rw [if_pos hcond]
  · cases hkid

theorem EntryCopied.mono {R R' : Nat → Nat → Prop} {l e' : Nat} (h : EntryCopied m R l P i e')
    (hR : ∀ c c', kids m l P i = some c → c' < 2 ^ 40 → e' = setFrame (entry m P i) c' →
      R c c' → R' c c') : EntryCopied m R' l P i e' := by
  refine ⟨h.1, fun c hc => ?_⟩
  obtain ⟨c', hc', he, hr⟩ := h.2 c hc
  exact ⟨c', hc', he, hR c c' hc hc' he hr⟩

theorem EntryCopied.congr {R : Nat → Nat → Prop} {l e' : Nat} (h : EntryCopied m' R l P i e')
    (he : entry m' P i = entry m P i) : EntryCopied m R l P i e' := by
  unfold EntryCopied at h ⊢
  rwa [kids_congr he, he] at h

/-- A copy is not affected by what happens to memory elsewhere, ... -/
theorem Copied.congr_dst : ∀ {n P Q : Nat}, Copied m m' n P Q → OnlyIn m' m'' X → Q < 2 ^ 40 →
    Q ∉ X → (∀ q ∈ frames m' n Q, q ∉ X) → Copied m m'' n P Q
  | 0, P, Q, h, honly, hQ, hQX, _ => fun k hk => (honly Q hQ hQX k hk).trans (h k hk)
  | n + 1, P, Q, h, honly, hQ, hQX, hX => by
    intro i hi
    rw [honly.entry_eq hQ hQX (hi.trans_le (levelWidth_le _))]
    refine (h i hi).mono fun c c' hc hc' he hcopy => ?_
    have hkid := kids_setFrame hc' hc he
    refine hcopy.congr_dst honly hc' ?_ fun q hq => ?_
    · exact hX c' (mem_frames_of_kid hi hkid (Or.inl rfl))
    · exact hX q (mem_frames_of_kid hi hkid (Or.inr hq))

/-- ... nor by when the original was read, as long as it does not change. -/
theorem Copied.congr_src : ∀ {n P Q : Nat}, Copied m' m'' n P Q → OnlyIn m m' X → P < 2 ^ 40 →
    P ∉ X → (∀ q ∈ frames m n P, q ∉ X) → Copied m m'' n P Q
  | 0, P, Q, h, honly, hP, hPX, _ => fun k hk => (h k hk).trans (honly P hP hPX k hk)
  | n + 1, P, Q, h, honly, hP, hPX, hX => by
    intro i hi
    have hentry := honly.entry_eq hP hPX (hi.trans_le (levelWidth_le _))
    refine ((h i hi).congr hentry).mono fun c c' hc _ _ hcopy => ?_
    refine hcopy.congr_src honly (kids_lt hc) ?_ fun q hq => ?_
    · exact hX c (mem_frames_of_kid hi hc (Or.inl rfl))
    · exact hX q (mem_frames_of_kid hi hc (Or.inr hq))

end Copies

/-! ## 3. Filling a table -/

/-- The frames below the first `k` entries of a table of level `n + 1`. -/
def framesUpTo (m : Memory) (n p k : Nat) : List Nat :=
  (upTo levelWidth (kids m) n p k).map Prod.snd

/-- The frames an entry of a table of level `n + 1` accounts for. -/
def framesAt (m : Memory) (n p i : Nat) : List Nat :=
  (subtree levelWidth (kids m) n (kids m (n + 1) p i)).map Prod.snd

theorem frames_succ (m : Memory) (n p : Nat) :
    frames m (n + 1) p = framesUpTo m n p (levelWidth (n + 1)) := rfl

theorem framesUpTo_succ (m : Memory) (n p k : Nat) :
    framesUpTo m n p (k + 1) = framesUpTo m n p k ++ framesAt m n p k := by
  rw [framesUpTo, upTo_succ, List.map_append]
  rfl

theorem framesUpTo_length_mono (m : Memory) (n p : Nat) :
    Monotone fun k => (framesUpTo m n p k).length := by
  refine monotone_nat_of_le_succ fun k => ?_
  simp only [framesUpTo_succ, List.length_append]
  omega

theorem mem_framesAt {m : Memory} {n p i q : Nat} :
    q ∈ framesAt m n p i ↔ ∃ c, kids m (n + 1) p i = some c ∧ (q = c ∨ q ∈ frames m n c) := by
  unfold framesAt
  constructor
  · intro hq
    obtain ⟨x, hx, rfl⟩ := List.mem_map.mp hq
    obtain ⟨c, hc, rfl | hx⟩ := mem_subtree.mp hx
    · exact ⟨c, hc, Or.inl rfl⟩
    · exact ⟨c, hc, Or.inr (List.mem_map.mpr ⟨x, hx, rfl⟩)⟩
  · rintro ⟨c, hc, rfl | hq⟩
    · exact List.mem_map.mpr ⟨(n, q), mem_subtree.mpr ⟨q, hc, Or.inl rfl⟩, rfl⟩
    · obtain ⟨x, hx, rfl⟩ := List.mem_map.mp hq
      exact List.mem_map.mpr ⟨x, mem_subtree.mpr ⟨c, hc, Or.inr hx⟩, rfl⟩

theorem mem_framesUpTo {m : Memory} {n p k q : Nat} :
    q ∈ framesUpTo m n p k ↔ ∃ i < k, q ∈ framesAt m n p i := by
  unfold framesUpTo framesAt
  simp only [List.mem_map, mem_upTo]
  constructor
  · rintro ⟨x, ⟨i, hi, hx⟩, rfl⟩
    exact ⟨i, hi, x, hx, rfl⟩
  · rintro ⟨i, hi, x, hx, rfl⟩
    exact ⟨x, ⟨i, hi, hx⟩, rfl⟩

theorem mem_frames_of_framesAt {m : Memory} {n p i q : Nat} (hi : i < levelWidth (n + 1))
    (hq : q ∈ framesAt m n p i) : q ∈ frames m (n + 1) p :=
  mem_framesUpTo.mpr ⟨i, hi, hq⟩

section

variable {m m' : Memory} {X : Set Nat} {n p i k : Nat}

theorem OnlyIn.agrees_kid (h : OnlyIn m m' X) (hX : ∀ q ∈ framesAt m n p i, q ∉ X) (c : Nat)
    (hc : kids m (n + 1) p i = some c) : Agrees levelWidth (kids m) (kids m') n c :=
  h.agrees (kids_lt hc) (hX c (mem_framesAt.mpr ⟨c, hc, Or.inl rfl⟩))
    fun q hq => hX q (mem_framesAt.mpr ⟨c, hc, Or.inr hq⟩)

theorem OnlyIn.framesAt_eq (h : OnlyIn m m' X) (he : entry m' p i = entry m p i)
    (hX : ∀ q ∈ framesAt m n p i, q ∉ X) : framesAt m' n p i = framesAt m n p i := by
  unfold framesAt
  rw [kids_congr he, subtree_congr (h.agrees_kid hX)]

theorem OnlyIn.framesUpTo_eq (h : OnlyIn m m' X) (he : ∀ j < k, entry m' p j = entry m p j)
    (hX : ∀ q ∈ framesUpTo m n p k, q ∉ X) : framesUpTo m' n p k = framesUpTo m n p k := by
  unfold framesUpTo
  rw [upTo_congr fun j hj => kids_congr (he j hj)]
  exact fun j hj => h.agrees_kid fun q hq => hX q (mem_framesUpTo.mpr ⟨j, hj, hq⟩)

/-- A copied entry whose copy, or whose original, memory elsewhere does not reach. -/
theorem EntryCopied.congr_dst {s : Memory} {P Q : Nat}
    (h : EntryCopied s (Copied s m n) (n + 1) P i (entry m Q i)) (honly : OnlyIn m m' X)
    (hX : ∀ q ∈ framesAt m n Q i, q ∉ X) :
    EntryCopied s (Copied s m' n) (n + 1) P i (entry m Q i) := by
  refine h.mono fun c c' hc hc' he hcopy => ?_
  have hkid := kids_setFrame hc' hc he
  exact hcopy.congr_dst honly hc' (hX c' (mem_framesAt.mpr ⟨c', hkid, Or.inl rfl⟩))
    fun q hq => hX q (mem_framesAt.mpr ⟨c', hkid, Or.inr hq⟩)

theorem EntryCopied.congr_src {u : Memory} {P e' : Nat}
    (h : EntryCopied m' (Copied m' u n) (n + 1) P i e') (honly : OnlyIn m m' X)
    (he : entry m' P i = entry m P i) (hX : ∀ q ∈ framesAt m n P i, q ∉ X) :
    EntryCopied m (Copied m u n) (n + 1) P i e' := by
  refine (h.congr he).mono fun c c' hc _ _ hcopy => ?_
  exact hcopy.congr_src honly (kids_lt hc) (hX c (mem_framesAt.mpr ⟨c, hc, Or.inl rfl⟩))
    fun q hq => hX q (mem_framesAt.mpr ⟨c, hc, Or.inr hq⟩)

end

/-- What copying the tree below `P` into `Q` relies on: everything involved has been handed out,
and `Q` is none of the frames copied from. -/
structure CopyPre (n : Nat) (s : Machine) (P Q : Nat) : Prop where
  wf : s.Wf
  src : ∀ q, q = P ∨ q ∈ frames s.mem n P → s.pmm.Used q
  dst : s.pmm.Used Q
  apart : ∀ q, q = P ∨ q ∈ frames s.mem n P → q ≠ Q

/-- `Filled n s P Q k t N`: from `s` to `t` the first `k` entries of `P`, a table of level `n + 1`, were
copied into `Q`, and the frames `N` were taken for what is below them. -/
structure Filled (n : Nat) (s : Machine) (P Q k : Nat) (t : Machine) (N : Finset Nat) : Prop where
  takes : Takes s.pmm t.pmm N
  only : OnlyIn s.mem t.mem (insert Q N)
  rest : ∀ j < 512, k ≤ j → entry t.mem Q j = entry s.mem Q j
  copied : ∀ j < k, EntryCopied s.mem (Copied s.mem t.mem n) (n + 1) P j (entry t.mem Q j)
  nodup : (framesUpTo t.mem n Q k).Nodup
  mem : ∀ q, q ∈ framesUpTo t.mem n Q k ↔ q ∈ N
  card : N.card = (framesUpTo s.mem n P k).length

/-- The same for entry `i` alone. -/
structure FilledEntry (n : Nat) (s : Machine) (P Q i : Nat) (t : Machine) (N : Finset Nat) :
    Prop where
  takes : Takes s.pmm t.pmm N
  only : OnlyIn s.mem t.mem (insert Q N)
  rest : ∀ j < 512, j ≠ i → entry t.mem Q j = entry s.mem Q j
  copied : EntryCopied s.mem (Copied s.mem t.mem n) (n + 1) P i (entry t.mem Q i)
  nodup : (framesAt t.mem n Q i).Nodup
  mem : ∀ q, q ∈ framesAt t.mem n Q i ↔ q ∈ N
  card : N.card = (framesAt s.mem n P i).length

section Filling

variable {n P Q i k : Nat} {s t u : Machine} {N N' : Finset Nat}

theorem Machine.Wf.of_takes (h : s.Wf) (ht : Takes s.pmm t.pmm N) : t.Wf :=
  ⟨h.pmm.of_takes ht, ht.total ▸ h.ram⟩

theorem Pmm.Used.of_takes {pm pm' : Pmm} {p : Nat} (h : pm.Used p) (ht : Takes pm pm' N) :
    pm'.Used p :=
  ⟨ht.total ▸ h.1, ht.test_false h.2⟩

/-- What was taken is in use. -/
theorem Takes.used_of_mem {pm pm' : Pmm} (h : Takes pm pm' N) {q : Nat} (hq : q ∈ N) :
    pm'.Used q :=
  ⟨h.total ▸ (Pmm.mem_freePages.mp (h.free hq)).1, h.test_mem hq⟩

/-- A page in use is not one that is taken. -/
theorem Pmm.Used.ne_taken {pm pm' : Pmm} {p c : Nat} (h : pm.Used p) (ht : Takes pm pm' {c}) : p ≠ c := by
  rintro rfl
  exact ht.notMem_of_test h.2 (Finset.mem_singleton_self p)

/-- Pages taken one after the other are different. -/
theorem Takes.ne_taken {pm pm' pm'' : Pmm} {p c : Nat} (h : Takes pm pm' {p}) (h' : Takes pm' pm'' {c}) :
    p ≠ c :=
  (h.used_of_mem (Finset.mem_singleton_self p)).ne_taken h'

theorem Machine.Wf.lt_of_used (h : s.Wf) {p : Nat} (hp : s.pmm.Used p) : p < 2 ^ 40 :=
  hp.1.trans_le (h.ram.trans (by decide))

theorem Machine.Wf.lt_of_free (h : s.Wf) {p : Nat} (hp : p ∈ s.pmm.freePages) : p < 2 ^ 40 :=
  (Pmm.mem_freePages.mp hp).1.trans_le (h.ram.trans (by decide))

/-- The pages there are do not have address NULL. -/
theorem Machine.Wf.frameAddr_ne_zero (h : s.Wf) {p : Nat} (hp : p < s.pmm.totalPages) :
    frameAddr p ≠ 0 :=
  AcornOS.frameAddr_ne_zero (hp.trans_le h.ram)

/-- What is handed out is not what was taken meanwhile, nor the destination. -/
theorem CopyPre.notMem (h : CopyPre n s P Q) (ht : Takes s.pmm t.pmm N) {q : Nat}
    (hq : q = P ∨ q ∈ frames s.mem n P) : q ∉ (insert Q N : Set Nat) := by
  intro hmem
  rcases Set.mem_insert_iff.mp hmem with hQ | hN
  · exact h.apart q hq hQ
  · exact ht.notMem_of_test (h.src q hq).2 hN

theorem CopyPre.tree_eq (h : CopyPre n s P Q) (ht : Takes s.pmm t.pmm N)
    (honly : OnlyIn s.mem t.mem (insert Q N)) : tree t.mem n P = tree s.mem n P :=
  honly.tree_eq (h.wf.lt_of_used (h.src P (Or.inl rfl))) (h.notMem ht (Or.inl rfl))
    fun _ hq => h.notMem ht (Or.inr hq)

theorem CopyPre.step (h : CopyPre n s P Q) (ht : Takes s.pmm t.pmm N)
    (honly : OnlyIn s.mem t.mem (insert Q N)) : CopyPre n t P Q := by
  have hframes : frames t.mem n P = frames s.mem n P := congrArg _ (h.tree_eq ht honly)
  refine ⟨h.wf.of_takes ht, fun q hq => ?_, h.dst.of_takes ht, fun q hq => ?_⟩
  · rw [hframes] at hq
    exact (h.src q hq).of_takes ht
  · rw [hframes] at hq
    exact h.apart q hq

theorem Filled.start (n : Nat) (s : Machine) (P Q : Nat) : Filled n s P Q 0 s ∅ where
  takes := Takes.refl _
  only := OnlyIn.refl _ _
  rest := fun _ _ _ => rfl
  copied := fun _ hj => absurd hj (Nat.not_lt_zero _)
  nodup := List.nodup_nil
  mem := by simp [framesUpTo]
  card := rfl

/-- A frame of the copy so far is neither `Q` nor one taken later. -/
theorem Filled.notMem (hs : CopyPre (n + 1) s P Q) (h : Filled n s P Q k t N)
    (h' : Takes t.pmm u.pmm N') {q : Nat} (hq : q ∈ framesUpTo t.mem n Q k) :
    q ∉ (insert Q N' : Set Nat) := by
  have hqN := (h.mem q).mp hq
  intro hmem
  rcases Set.mem_insert_iff.mp hmem with rfl | hN'
  · exact h.takes.notMem_of_test hs.dst.2 hqN
  · exact Finset.disjoint_left.mp (h.takes.disjoint h') hqN hN'

/-- **One more entry.** -/
theorem Filled.step (hs : CopyPre (n + 1) s P Q) (hk : k < levelWidth (n + 1))
    (h : Filled n s P Q k t N) (h' : FilledEntry n t P Q k u N') :
    Filled n s P Q (k + 1) u (N ∪ N') := by
  have hk512 : k < 512 := hk.trans_le (levelWidth_le _)
  have hQ : Q < 2 ^ 40 := hs.wf.lt_of_used hs.dst
  have hP : P < 2 ^ 40 := hs.wf.lt_of_used (hs.src P (Or.inl rfl))
  have hPX := hs.notMem h.takes (Or.inl rfl)
  have honly : OnlyIn s.mem u.mem (insert Q (N ∪ N' : Finset Nat)) := by
    refine (h.only.mono ?_).trans (h'.only.mono ?_)
    · exact Set.insert_subset_insert (by simp)
    · exact Set.insert_subset_insert (by simp)
  -- what is below the first `k` entries of `Q` stays as it is
  have hkeep : ∀ j < k, entry u.mem Q j = entry t.mem Q j := fun j hj =>
    h'.rest j (by omega) (by omega)
  have hupTo : framesUpTo u.mem n Q k = framesUpTo t.mem n Q k :=
    h'.only.framesUpTo_eq hkeep fun q hq => h.notMem hs h'.takes hq
  -- and the original is what it was at the start
  have hsrc : entry t.mem P k = entry s.mem P k := h.only.entry_eq hP hPX hk512
  have hsrcX : ∀ q ∈ framesAt s.mem n P k, q ∉ (insert Q N : Set Nat) := fun q hq =>
    hs.notMem h.takes (Or.inr (mem_frames_of_framesAt hk hq))
  have hsrcAt : framesAt t.mem n P k = framesAt s.mem n P k := h.only.framesAt_eq hsrc hsrcX
  refine ⟨h.takes.trans h'.takes, honly, ?_, ?_, ?_, ?_, ?_⟩
  · intro j hj hkj
    exact (h'.rest j hj (by omega)).trans (h.rest j hj (by omega))
  · intro j hj
    rcases Nat.lt_succ_iff_lt_or_eq.mp hj with hj | rfl
    · rw [hkeep j hj]
      refine (h.copied j hj).congr_dst h'.only fun q hq => ?_
      exact h.notMem hs h'.takes (mem_framesUpTo.mpr ⟨j, hj, hq⟩)
    · exact h'.copied.congr_src h.only hsrc hsrcX
  · rw [framesUpTo_succ, hupTo, List.nodup_append]
    refine ⟨h.nodup, h'.nodup, fun q hq r hr => ?_⟩
    rintro rfl
    exact Finset.disjoint_left.mp (h.takes.disjoint h'.takes) ((h.mem q).mp hq) ((h'.mem q).mp hr)
  · intro q
    rw [framesUpTo_succ, hupTo, List.mem_append, h.mem, h'.mem, Finset.mem_union]
  · rw [framesUpTo_succ, List.length_append, ← h.card, ← hsrcAt, ← h'.card]
    exact Finset.card_union_of_disjoint (h.takes.disjoint h'.takes)

/-- The specification of the loop that copies table `P` of level `n + 1` into a blank table `Q`: it only
fails for want of pages. -/
def CopySpec (n : Nat) (copy : Nat → Nat → Machine → Except Halt Machine) : Prop :=
  ∀ s P Q, CopyPre (n + 1) s P Q → (∀ i < levelWidth (n + 1), entry s.mem Q i = 0) →
    Ensures (copy (frameAddr P) (frameAddr Q) s)
      (fun _ => s.pmm.freePages.card < (frames s.mem (n + 1) P).length)
      (fun t => ∃ N, Filled n s P Q (levelWidth (n + 1)) t N)

/-- **The loop rule.**  A loop whose body copies one entry copies the table. -/
theorem copyLoop_spec {body : Nat → Machine → Except Halt Machine} {w : Nat}
    (hw : levelWidth (n + 1) = w) (hs : CopyPre (n + 1) s P Q)
    (hblank : ∀ i < levelWidth (n + 1), entry s.mem Q i = 0)
    (hbody : ∀ i t, i < levelWidth (n + 1) → CopyPre (n + 1) t P Q → entry t.mem Q i = 0 →
      Ensures (body i t) (fun _ => t.pmm.freePages.card < (framesAt t.mem n P i).length)
        (fun u => ∃ N, FilledEntry n t P Q i u N)) :
    Ensures (forRange body w s)
      (fun _ => s.pmm.freePages.card < (frames s.mem (n + 1) P).length)
      (fun t => ∃ N, Filled n s P Q (levelWidth (n + 1)) t N) := by
  rw [← hw]
  refine forRange_invariant (I := fun k t => ∃ N, Filled n s P Q k t N)
    ⟨∅, Filled.start n s P Q⟩ ?_
  rintro k t hk ⟨N, hfilled⟩
  have hk512 : k < 512 := hk.trans_le (levelWidth_le _)
  have ht := hs.step hfilled.takes hfilled.only
  have hentry : entry t.mem Q k = 0 :=
    (hfilled.rest k hk512 (Nat.le_refl k)).trans (hblank k hk)
  refine (hbody k t hk ht hentry).mono (fun _ hfail => ?_) fun u ⟨N', hu⟩ => ?_
  · -- what is missing for this entry was missing from the start
    have hsrcX : ∀ q ∈ framesAt s.mem n P k, q ∉ (insert Q N : Set Nat) := fun q hq =>
      hs.notMem hfilled.takes (Or.inr (mem_frames_of_framesAt hk hq))
    have hP := hs.wf.lt_of_used (hs.src P (Or.inl rfl))
    have hsrc := hfilled.only.entry_eq hP (hs.notMem hfilled.takes (Or.inl rfl)) hk512
    rw [hfilled.only.framesAt_eq hsrc hsrcX] at hfail
    have hcard := hfilled.takes.card_add
    rw [hfilled.card] at hcard
    have hle := framesUpTo_length_mono s.mem n P (Nat.succ_le_of_lt hk)
    simp only [Nat.succ_eq_add_one, framesUpTo_succ, List.length_append] at hle
    rw [frames_succ]
    omega
  · exact ⟨N ∪ N', hfilled.step hs hk hu⟩

/-- An entry that leads to no frame is copied by writing the same word, or nothing. -/
theorem FilledEntry.of_none (hkid : kids t.mem (n + 1) P i = none) (hpmm : u.pmm = t.pmm)
    (honly : OnlyIn t.mem u.mem {Q})
    (hrest : ∀ j < 512, j ≠ i → entry u.mem Q j = entry t.mem Q j)
    (hentry : entry u.mem Q i = if present (entry t.mem P i) then entry t.mem P i else 0) :
    FilledEntry n t P Q i u ∅ := by
  have hkid' : kids u.mem (n + 1) Q i = none := by
    unfold kids at hkid ⊢
    rw [hentry]
    by_cases hp : present (entry t.mem P i) = true
    · rw [if_pos hp]
      simpa [hp] using hkid
    · rw [if_neg hp]
      rfl
  have hframes : framesAt u.mem n Q i = [] := by rw [framesAt, hkid']; rfl
  refine ⟨hpmm ▸ Takes.refl _, honly.mono (by simp), hrest, ⟨fun _ => hentry, ?_⟩, ?_, ?_, ?_⟩
  · intro c hc
    rw [hkid] at hc
    cases hc
  · rw [hframes]
    exact List.nodup_nil
  · simp [hframes]
  · simp [framesAt, hkid]

/-- An entry that leads to `d` is copied by taking a frame `c`, copying `d` into it, and pointing the
new entry at it. -/
theorem FilledEntry.of_child {c d : Nat} (hkid : kids t.mem (n + 1) P i = some d)
    (hc : c < 2 ^ 40) (hcN : c ∉ N) (htakes : Takes t.pmm u.pmm (insert c N))
    (honly : OnlyIn t.mem u.mem (insert Q (insert c N : Finset Nat)))
    (hrest : ∀ j < 512, j ≠ i → entry u.mem Q j = entry t.mem Q j)
    (hentry : entry u.mem Q i = setFrame (entry t.mem P i) c)
    (hcopied : Copied t.mem u.mem n d c) (hnodup : (frames u.mem n c).Nodup)
    (hmem : ∀ q, q ∈ frames u.mem n c ↔ q ∈ N) (hcard : N.card = (frames t.mem n d).length) :
    FilledEntry n t P Q i u (insert c N) := by
  have hkid' : kids u.mem (n + 1) Q i = some c := kids_setFrame hc hkid hentry
  have hframes : framesAt u.mem n Q i = frames u.mem n c ++ [c] := by
    rw [framesAt, hkid', subtree_some, List.map_append]
    rfl
  refine ⟨htakes, honly, hrest, ⟨?_, ?_⟩, ?_, ?_, ?_⟩
  · intro hnone
    rw [hkid] at hnone
    cases hnone
  · intro d' hd'
    obtain rfl : d = d' := Option.some.inj (hkid.symm.trans hd')
    exact ⟨c, hc, hentry, hcopied⟩
  · rw [hframes, (List.perm_append_singleton _ _).nodup_iff]
    exact List.nodup_cons.mpr ⟨fun h => hcN ((hmem c).mp h), hnodup⟩
  · intro q
    rw [hframes, List.mem_append, hmem, List.mem_singleton, Finset.mem_insert, or_comm]
  · rw [Finset.card_insert_of_notMem hcN, hcard, framesAt, hkid, subtree_some, List.map_append,
      List.length_append]
    rfl

end Filling

/-! ## 4. The copying routines -/

section Copying

variable {m : Memory} {s t : Machine} {n P Q i p : Nat}

theorem div_pageSize (p : Nat) : p * pageSize / pageSize = p := Nat.mul_div_cancel _ (by decide)

theorem copyEntry_eq (hi : i < 512) (p : Nat) :
    copyEntry m (entryAddr (frameAddr P) i) (entryAddr (frameAddr Q) i) (p * pageSize) =
      store64 m (frameAddr Q + 8 * i) (setFrame (entry m P i) p) := by
  rw [copyEntry, load64_entryAddr hi, entryAddr_frameAddr hi, div_pageSize,
    load64_store64_self (entry_lt m P i), store64_store64]

/-- `alloc_table`: a fresh frame, and it is blank. -/
theorem allocTable_spec (hs : s.Wf) :
    Ensures (allocTable s) (fun _ => s.pmm.freePages = ∅) (fun r => ∃ c ∈ s.pmm.freePages,
      r.1 = frameAddr c ∧ Takes s.pmm r.2.pmm {c} ∧ OnlyIn s.mem r.2.mem {c} ∧
      ∀ i < 512, entry r.2.mem c i = 0) := by
  unfold allocTable
  refine Ensures.bind ((pmmAlloc_spec hs.pmm).mono (fun _ he => he.2) fun r hr => hr) ?_
  rintro ⟨a, pm⟩ ⟨c, hc, -, ha, htakes⟩
  simp only at ha htakes ⊢
  have hpos : a ≠ 0 := by
    have := hs.pmm.pos_of_mem hc
    rw [ha]
    unfold pageSize
    omega
  rw [if_neg hpos, ha, physicalToVirtual_page]
  obtain ⟨honly, hzero⟩ := @blankTable_spec s.mem c (hs.lt_of_free hc)
  exact ensures_ok.mpr ⟨c, hc, rfl, htakes, honly, hzero⟩

/-- **Copying a page table**: one page for each present entry. -/
theorem copyPt_spec : CopySpec 0 copyPt := by
  intro s P Q hs hblank
  unfold copyPt
  refine copyLoop_spec (by decide) hs hblank fun i t hi ht hzero => ?_
  have hi512 : i < 512 := hi
  have hP := ht.wf.lt_of_used (ht.src P (Or.inl rfl))
  have hQ := ht.wf.lt_of_used ht.dst
  have hPQ : P ≠ Q := ht.apart P (Or.inl rfl)
  simp only [load64_entryAddr hi512]
  by_cases hpres : present (entry t.mem P i) = true
  · have hkid : kids t.mem 1 P i = some (frame (entry t.mem P i)) :=
      kids_owned hpres (by simp)
    have hmem := mem_framesAt.mpr ⟨_, hkid, Or.inl rfl⟩
    have hused := ht.src _ (Or.inr (mem_frames_of_framesAt hi hmem))
    rw [if_pos hpres]
    generalize frame (entry t.mem P i) = d at *
    refine Ensures.bind ((pmmAlloc_spec ht.wf.pmm).mono (fun _ he => ?_) fun r hr => hr) ?_
    · rw [he.2, Finset.card_empty]
      exact List.length_pos_of_mem hmem
    rintro ⟨a, pm⟩ ⟨c, hc, -, ha, htakes⟩
    simp only at ha htakes ⊢
    have hc40 := ht.wf.lt_of_free hc
    have hpos : a ≠ 0 := by
      have := ht.wf.pmm.pos_of_mem hc
      rw [ha]
      unfold pageSize
      omega
    have hd40 := ht.wf.lt_of_used hused
    have hne : ∀ q, t.pmm.Used q → q ≠ c := fun q hq => hq.ne_taken htakes
    obtain ⟨honly, hbytes⟩ := @copyPage_spec t.mem d c hd40 hc40 (hne d hused)
    rw [if_neg hpos, ha, physicalToVirtual_page, physicalToVirtual_page, copyEntry_eq hi512]
    generalize copyPage t.mem (frameAddr d) (frameAddr c) = mem at *
    have hentry : entry mem P i = entry t.mem P i :=
      honly.entry_eq hP (fun h => hne P (ht.src P (Or.inl rfl)) h) hi512
    have hstore := @onlyIn_store64 mem Q i hQ hi512 (setFrame (entry mem P i) c)
    refine ensures_ok.mpr ⟨insert c ∅, FilledEntry.of_child hkid hc40 (by simp) htakes ?_ ?_ ?_ ?_
      ?_ ?_ ?_⟩
    · exact (honly.mono (by simp)).trans (hstore.mono (by simp))
    · intro j hj hji
      rw [entry_store64_of_ne (by omega)]
      exact honly.entry_eq hQ (fun h => hne Q ht.dst h) hj
    · rw [entry_store64_self (setFrame_lt (entry_lt _ _ _) _), hentry]
    · intro k hk
      dsimp only
      rw [hstore c hc40 (fun h => hne Q ht.dst h.symm) k hk]
      exact hbytes k hk
    · exact List.nodup_nil
    · simp [frames, tree]
    · simp [frames, tree]
  · rw [if_neg hpres]
    refine ensures_ok.mpr ⟨∅, FilledEntry.of_none (kids_absent hpres) rfl (OnlyIn.refl _ _)
      (fun _ _ _ => rfl) ?_⟩
    rw [if_neg hpres, hzero]

/-- Once the entry for a child points at a blank table `c`, the inner loop does the rest. -/
theorem copyChild_spec {inner : Nat → Nat → Machine → Except Halt Machine} {c d : Nat} {pm : Pmm}
    (hinner : CopySpec n inner) (ht : CopyPre (n + 2) t P Q) (hi : i < levelWidth (n + 2))
    (hkid : kids t.mem (n + 2) P i = some d) (hc : c ∈ t.pmm.freePages)
    (htakes : Takes t.pmm pm {c}) (hfrom : OnlyIn t.mem m ({Q, c} : Set Nat))
    (hstored : entry m Q i = setFrame (entry t.mem P i) c)
    (hkept : ∀ j < 512, j ≠ i → entry m Q j = entry t.mem Q j)
    (hblank : ∀ j < 512, entry m c j = 0) :
    Ensures (inner (frameAddr d) (frameAddr c) ⟨m, pm⟩)
      (fun _ => t.pmm.freePages.card < (framesAt t.mem (n + 1) P i).length)
      (fun u => ∃ N, FilledEntry (n + 1) t P Q i u N) := by
  have hi512 : i < 512 := hi.trans_le (levelWidth_le _)
  have hc40 := ht.wf.lt_of_free hc
  have hQ := ht.wf.lt_of_used ht.dst
  have hcused : pm.Used c := htakes.used_of_mem (Finset.mem_singleton_self c)
  have hne : ∀ q, t.pmm.Used q → q ≠ c := fun q hq => hq.ne_taken htakes
  -- the child's tree is part of the original's, and still what it was
  have hsrc : ∀ q, q = d ∨ q ∈ frames t.mem (n + 1) d → t.pmm.Used q ∧ q ≠ Q := by
    intro q hq
    have hq' := mem_frames_of_framesAt hi (mem_framesAt.mpr ⟨d, hkid, hq⟩)
    exact ⟨ht.src q (Or.inr hq'), ht.apart q (Or.inr hq')⟩
  have hsrcX : ∀ q, q = d ∨ q ∈ frames t.mem (n + 1) d → q ∉ ({Q, c} : Set Nat) := by
    rintro q hq (h | h)
    · exact (hsrc q hq).2 h
    · exact hne q (hsrc q hq).1 h
  have hframes : frames m (n + 1) d = frames t.mem (n + 1) d := congrArg _ <|
    hfrom.tree_eq (kids_lt hkid) (hsrcX d (Or.inl rfl)) fun q hq => hsrcX q (Or.inr hq)
  have hpre : CopyPre (n + 1) ⟨m, pm⟩ d c := by
    refine ⟨ht.wf.of_takes (t := ⟨m, pm⟩) htakes, fun q hq => ?_, hcused, fun q hq => ?_⟩
    · rw [hframes] at hq
      exact (hsrc q hq).1.of_takes htakes
    · rw [hframes] at hq
      exact hne q (hsrc q hq).1
  have hlen : (framesAt t.mem (n + 1) P i).length = (frames t.mem (n + 1) d).length + 1 := by
    rw [framesAt, hkid, subtree_some, List.map_append, List.length_append]
    rfl
  refine (hinner ⟨m, pm⟩ d c hpre fun j hj => hblank j (hj.trans_le (levelWidth_le _))).mono
    (fun _ hfail => ?_) fun u ⟨N, hu⟩ => ⟨insert c N, ?_⟩
  · have hcard := htakes.card_add
    simp only [hframes, Finset.card_singleton] at hfail hcard
    omega
  · have hQX : Q ∉ (insert c N : Set Nat) := by
      rintro (h | h)
      · exact hne Q ht.dst h
      · exact hu.takes.notMem_of_test (ht.dst.of_takes htakes).2 h
    have hcN : c ∉ N := hu.takes.notMem_of_test hcused.2
    have hsub : (insert c N : Set Nat) ⊆ insert Q (insert c N : Finset Nat) := by
      intro q hq
      exact Or.inr (by simpa using hq)
    refine FilledEntry.of_child hkid hc40 hcN ?_ ?_ ?_ ?_ ?_ hu.nodup hu.mem ?_
    · exact htakes.trans hu.takes
    · refine (hfrom.mono ?_).trans (hu.only.mono hsub)
      rintro q (rfl | rfl)
      · exact Or.inl rfl
      · exact hsub (Or.inl rfl)
    · intro j hj hji
      exact (hu.only.entry_eq hQ hQX hj).trans (hkept j hj hji)
    · exact (hu.only.entry_eq hQ hQX hi512).trans hstored
    · have hcopied : Copied m u.mem (n + 1) d c := hu.copied
      exact hcopied.congr_src hfrom (kids_lt hkid) (hsrcX d (Or.inl rfl))
        fun q hq => hsrcX q (Or.inr hq)
    · rw [← hframes]
      exact hu.card

/-- **Copying a table of tables**, given that the inner loop copies the tables it leads to. -/
theorem copyTable_spec {sharesHuge : Bool} {w : Nat}
    {inner : Nat → Nat → Machine → Except Halt Machine} (hinner : CopySpec n inner)
    (hw : levelWidth (n + 2) = w) (hshare : sharesHuge = (n + 2 == 2)) :
    CopySpec (n + 1) (copyTable sharesHuge w inner) := by
  intro s P Q hs hblank
  unfold copyTable
  refine copyLoop_spec hw hs hblank fun i t hi ht hzero => ?_
  have hi512 : i < 512 := hi.trans_le (levelWidth_le _)
  have hP := ht.wf.lt_of_used (ht.src P (Or.inl rfl))
  have hQ := ht.wf.lt_of_used ht.dst
  simp only [load64_entryAddr hi512, hshare]
  by_cases hpres : present (entry t.mem P i) = true
  · rw [if_pos hpres]
    by_cases hhuge : ((n + 2 == 2) && hugePage (entry t.mem P i)) = true
    · -- a 2MB page: the entry is copied as it is
      rw [if_pos hhuge, entryAddr_frameAddr hi512]
      refine ensures_ok.mpr ⟨∅, FilledEntry.of_none (kids_shared hhuge) rfl
        (onlyIn_store64 hQ hi512 _) ?_ ?_⟩
      · exact fun j _ hji => entry_store64_of_ne (Ne.symm hji)
      · dsimp only
        rw [if_pos hpres, entry_store64_self (entry_lt _ _ _)]
    · rw [if_neg hhuge]
      have hkid : kids t.mem (n + 2) P i = some (frame (entry t.mem P i)) :=
        kids_owned hpres hhuge
      refine Ensures.bind ((allocTable_spec ht.wf).mono (fun _ he => ?_) fun r hr => hr) ?_
      · rw [he, Finset.card_empty]
        exact List.length_pos_of_mem (mem_framesAt.mpr ⟨_, hkid, Or.inl rfl⟩)
      rintro ⟨a, t₁⟩ ⟨c, hc, ha, htakes, honly, hcblank⟩
      simp only at ha htakes honly hcblank ⊢
      have hc40 := ht.wf.lt_of_free hc
      have hne : ∀ q, t.pmm.Used q → q ≠ c := fun q hq => hq.ne_taken htakes
      have hPc := hne P (ht.src P (Or.inl rfl))
      have hPQ : P ≠ Q := ht.apart P (Or.inl rfl)
      rw [ha, virtualToPhysical_frameAddr hc40, copyEntry_eq hi512, honly.entry_eq hP hPc hi512]
      have hstore := @onlyIn_store64 t₁.mem Q i hQ hi512 (setFrame (entry t.mem P i) c)
      rw [hstore.entry_eq hP hPQ hi512, honly.entry_eq hP hPc hi512, physicalToVirtual_page]
      refine copyChild_spec hinner ht hi hkid hc htakes ?_ ?_ ?_ ?_
      · exact (honly.mono (by simp)).trans (hstore.mono (by simp))
      · exact entry_store64_self (setFrame_lt (entry_lt _ _ _) _)
      · intro j hj hji
        rw [entry_store64_of_ne (Ne.symm hji)]
        exact honly.entry_eq hQ (hne Q ht.dst) hj
      · intro j hj
        rw [hstore.entry_eq hc40 (fun h => hne Q ht.dst h.symm) hj]
        exact hcblank j hj
  · rw [if_neg hpres]
    refine ensures_ok.mpr ⟨∅, FilledEntry.of_none (kids_absent hpres) rfl (OnlyIn.refl _ _)
      (fun _ _ _ => rfl) ?_⟩
    rw [if_neg hpres, hzero]

theorem copyPml4_spec : CopySpec 3 copyPml4 :=
  copyTable_spec (copyTable_spec (copyTable_spec copyPt_spec (by decide) rfl) (by decide) rfl)
    (by decide) rfl

end Copying

/-! ## 5. The freeing routines -/

section Freeing

variable {n p : Nat} {pm : Pmm}

theorem Pmm.releaseAll_append (pm : Pmm) (xs ys : List Nat) :
    pm.releaseAll (xs ++ ys) = (pm.releaseAll xs).releaseAll ys :=
  List.foldl_append

/-- The specification of the loop that frees what is below a table of level `n + 1`.  Frame 0 is the
NULL that `pmm_free` ignores. -/
def FreeSpec (n : Nat) (free : Memory → Nat → Pmm → Pmm) : Prop :=
  ∀ m p pm, (∀ q ∈ frames m (n + 1) p, 0 < q) →
    free m (frameAddr p) pm = pm.releaseAll (frames m (n + 1) p)

/-- The loop rule: a loop whose body frees one entry frees the table. -/
theorem freeLoop_eq {m : Memory} {body : Nat → Pmm → Pmm} {w : Nat} (hw : levelWidth (n + 1) = w)
    (hbody : ∀ i pm, i < w → body i pm = pm.releaseAll (framesAt m n p i)) :
    loop body w pm = pm.releaseAll (frames m (n + 1) p) := by
  rw [frames_succ, hw]
  refine loop_invariant (I := fun k pm' => pm' = pm.releaseAll (framesUpTo m n p k)) rfl ?_
  rintro k pm' hk rfl
  rw [hbody k _ hk, framesUpTo_succ, Pmm.releaseAll_append]

theorem freePt_eq : FreeSpec 0 freePt := by
  intro m p pm hpos
  refine freeLoop_eq (by decide) fun i pm hi => ?_
  rw [load64_entryAddr hi]
  by_cases hpres : present (entry m p i) = true
  · have hkid : kids m 1 p i = some (frame (entry m p i)) := kids_owned hpres (by simp)
    have hmem := mem_frames_of_framesAt (show i < levelWidth (0 + 1) from hi)
      (mem_framesAt.mpr ⟨_, hkid, Or.inl rfl⟩)
    rw [if_pos hpres, pmmFree_page (hpos _ hmem), framesAt, hkid]
    rfl
  · rw [if_neg hpres, framesAt, kids_absent hpres]
    rfl

theorem freeTable_eq {sharesHuge : Bool} {w : Nat} {inner : Memory → Nat → Pmm → Pmm}
    (hinner : FreeSpec n inner) (hw : levelWidth (n + 2) = w)
    (hshare : sharesHuge = (n + 2 == 2)) : FreeSpec (n + 1) (freeTable sharesHuge w inner) := by
  intro m p pm hpos
  refine freeLoop_eq hw fun i pm hi => ?_
  have hi' : i < levelWidth (n + 2) := by rwa [hw]
  rw [load64_entryAddr (hi'.trans_le (levelWidth_le _)), hshare]
  by_cases hpres : present (entry m p i) = true
  · rw [if_pos hpres]
    by_cases hhuge : ((n + 2 == 2) && hugePage (entry m p i)) = true
    · rw [if_pos hhuge, framesAt, kids_shared hhuge]
      rfl
    · have hkid : kids m (n + 2) p i = some (frame (entry m p i)) := kids_owned hpres hhuge
      have hmem : ∀ q, q = frame (entry m p i) ∨ q ∈ frames m (n + 1) (frame (entry m p i)) →
          0 < q := fun q hq =>
        hpos q (mem_frames_of_framesAt hi' (mem_framesAt.mpr ⟨_, hkid, hq⟩))
      rw [if_neg hhuge, physicalToVirtual_page]
      dsimp only
      rw [virtualToPhysical_frameAddr (frame_lt _), hinner m _ pm fun q hq => hmem q (Or.inr hq),
        pmmFree_page (hmem _ (Or.inl rfl)), framesAt, hkid, subtree_some, List.map_append,
        Pmm.releaseAll_append]
      rfl
  · rw [if_neg hpres, framesAt, kids_absent hpres]
    rfl

/-- **`paging_free_directory` gives back the directory's frames**: what is below the lower half of
its PML4, and the PML4. -/
theorem pagingFreeDirectory_eq {s : Machine} {root : Nat} (hroot : root < 2 ^ 40)
    (hpos : ∀ q, q = root ∨ q ∈ frames s.mem 4 root → 0 < q) (hne : frameAddr root ≠ 0) :
    pagingFreeDirectory s (frameAddr root) =
      ⟨s.mem, s.pmm.releaseAll (frames s.mem 4 root ++ [root])⟩ := by
  have hspec : FreeSpec 3 freePml4 :=
    freeTable_eq (freeTable_eq (freeTable_eq freePt_eq (by decide) rfl) (by decide) rfl)
      (by decide) rfl
  rw [pagingFreeDirectory, if_neg hne, hspec _ _ _ fun q hq => hpos q (Or.inr hq),
    virtualToPhysical_frameAddr hroot, pmmFree_page (hpos root (Or.inl rfl)),
    Pmm.releaseAll_append]
  rfl

end Freeing

end AcornOS
