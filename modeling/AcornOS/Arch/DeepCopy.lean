/-
# Copying an address space (`paging_deep_copy_directory`)

`fork` gives the child a copy of the parent's lower half.  What that means is said in the terms of
the hardware: `translate m root v` is the walk the processor makes for a virtual address, `readByte`
what a program reads there.

* `ForkCopy s src t dst`: the directory `dst` in `t` is a copy of the directory `src` in `s`.
  Every lower-half page is mapped in both or in neither, with the same permission bits at every
  level, 4KB pages to different frames with the same bytes, 2MB pages by the same entry; and the
  two address spaces are isolated from each other.
* `deep_copy_directory`: given enough free pages, `paging_deep_copy_directory` returns one.
* `deep_copy_free_restores`: freeing the copy puts the page allocator back to where it was.

The original need not be a tree: a frame that is mapped twice is copied twice.  All that is asked of
it is that its frames are in use, since a free one could be handed out while it is being read.
-/
import AcornOS.Arch.AddressSpace

namespace AcornOS

open Lib

/-! ## 1. What the processor does -/

/-- Where an address leads: a 4KB page of a frame, or an entry for a 2MB or a 1GB page, with the
writable and user bits of the entries on the way, PML4 first. -/
inductive Mapping where
  | small (frame : Nat) (bits : List (Bool × Bool))
  | large (entry : Nat) (bits : List (Bool × Bool))
  | giant (entry : Nat)
deriving DecidableEq

/-- An entry, if it is present. -/
def lookup (m : Memory) (p i : Nat) : Option Nat :=
  if present (entry m p i) then some (entry m p i) else none

def permissions (e : Nat) : Bool × Bool := (writable e, user e)

/-- The walk through the four levels of tables. -/
def translate (m : Memory) (root v : Nat) : Option Mapping :=
  (lookup m root (pml4Index v)).bind fun e4 =>
  (lookup m (frame e4) (pdptIndex v)).bind fun e3 =>
  if hugePage e3 then some (.giant e3)
  else
    (lookup m (frame e3) (pdIndex v)).bind fun e2 =>
    if hugePage e2 then some (.large e2 [permissions e4, permissions e3, permissions e2])
    else
      (lookup m (frame e2) (ptIndex v)).bind fun e1 =>
      some (.small (frame e1) [permissions e4, permissions e3, permissions e2, permissions e1])

/-- The frame an address is in. -/
def Mapping.target (v : Nat) : Mapping → Nat
  | .small f _ => f
  | .large e _ => frame e / 2 ^ 9 * 2 ^ 9 + v / 2 ^ 12 % 2 ^ 9
  | .giant e => frame e / 2 ^ 18 * 2 ^ 18 + v / 2 ^ 12 % 2 ^ 18

/-- What a program reads at `v`. -/
def readByte (m : Memory) (root v : Nat) : Option (BitVec 8) :=
  (translate m root v).map fun x => m (frameAddr (x.target v) + v % 4096)

/-- Memory after a byte of frame `f` was written. -/
def writeByte (m : Memory) (f k : Nat) (b : BitVec 8) : Memory :=
  Function.update m (frameAddr f + k) b

/-- An address of the lower half. -/
def LowerHalf (v : Nat) : Prop := v < 2 ^ 47

section Walks

variable {m m' : Memory} {root v p i e l c : Nat} {X : Set Nat}

theorem pml4Index_lt (hv : LowerHalf v) : pml4Index v < levelWidth 4 := by
  unfold LowerHalf at hv
  unfold pml4Index
  have : levelWidth 4 = 256 := rfl
  omega

theorem pdptIndex_lt (v : Nat) : pdptIndex v < 512 := Nat.mod_lt _ (by decide)

theorem pdIndex_lt (v : Nat) : pdIndex v < 512 := Nat.mod_lt _ (by decide)

theorem ptIndex_lt (v : Nat) : ptIndex v < 512 := Nat.mod_lt _ (by decide)

theorem lookup_eq_some : lookup m p i = some e ↔ present e = true ∧ entry m p i = e := by
  unfold lookup
  constructor
  · intro h
    split at h
    · rename_i hp
      rw [← Option.some.inj h]
      exact ⟨hp, rfl⟩
    · cases h
  · rintro ⟨hp, rfl⟩
    rw [if_pos hp]

theorem lookup_eq_none : lookup m p i = none ↔ ¬ present (entry m p i) = true := by
  unfold lookup
  split <;> simp_all

/-- An entry on the way that is not for a large page leads to a frame of the tree. -/
theorem kids_of_lookup (h : lookup m p i = some e) (hhuge : l = 2 → ¬ hugePage e = true) :
    kids m l p i = some (frame e) := by
  obtain ⟨hp, rfl⟩ := lookup_eq_some.mp h
  refine kids_owned hp ?_
  rw [Bool.and_eq_true, beq_iff_eq]
  exact fun h => hhuge h.1 h.2

/-- A 1GB page is an entry of a PDPT. -/
theorem translate_eq_giant (h : translate m root v = some (.giant e)) :
    ∃ e4, lookup m root (pml4Index v) = some e4 ∧ lookup m (frame e4) (pdptIndex v) = some e ∧
      hugePage e = true := by
  unfold translate at h
  obtain ⟨e4, h4, h⟩ := Option.bind_eq_some_iff.mp h
  obtain ⟨e3, h3, h⟩ := Option.bind_eq_some_iff.mp h
  split at h
  · rename_i hhuge
    obtain rfl := Mapping.giant.inj (Option.some.inj h)
    exact ⟨e4, h4, h3, hhuge⟩
  · obtain ⟨e2, -, h⟩ := Option.bind_eq_some_iff.mp h
    split at h
    · cases h
    · obtain ⟨e1, -, h⟩ := Option.bind_eq_some_iff.mp h
      cases h

/-- A walk depends on the frames of the directory only, and ends in one if it ends in a 4KB page. -/
theorem translate_congr (h : OnlyIn m m' X) (hv : LowerHalf v) (hroot : root < 2 ^ 40)
    (hrootX : root ∉ X) (hX : ∀ q ∈ frames m 4 root, q ∉ X) :
    translate m' root v = translate m root v ∧
      ∀ f bits, translate m root v = some (.small f bits) → f ∈ frames m 4 root := by
  have hlook : ∀ q, q < 2 ^ 40 → q ∉ X → ∀ j < 512, lookup m' q j = lookup m q j := by
    intro q hq hqX j hj
    unfold lookup
    rw [h.entry_eq hq hqX hj]
  have h4 : pml4Index v < 512 := (pml4Index_lt hv).trans_le (levelWidth_le _)
  unfold translate
  rw [hlook root hroot hrootX _ h4]
  cases h4e : lookup m root (pml4Index v) with
  | none => exact ⟨rfl, by simp⟩
  | some e4 =>
    have hk4 := kids_of_lookup (l := 4) h4e (by simp)
    have hmem4 : ∀ q, q = frame e4 ∨ q ∈ frames m 3 (frame e4) → q ∈ frames m 4 root :=
      fun q hq => mem_frames_of_kid (pml4Index_lt hv) hk4 hq
    simp only [Option.bind_some]
    rw [hlook _ (frame_lt _) (hX _ (hmem4 _ (Or.inl rfl))) _ (pdptIndex_lt v)]
    cases h3e : lookup m (frame e4) (pdptIndex v) with
    | none => exact ⟨rfl, by simp⟩
    | some e3 =>
      have hk3 := kids_of_lookup (l := 3) h3e (by simp)
      have hmem3 : ∀ q, q = frame e3 ∨ q ∈ frames m 2 (frame e3) → q ∈ frames m 4 root :=
        fun q hq => hmem4 q (Or.inr (mem_frames_of_kid (pdptIndex_lt v) hk3 hq))
      simp only [Option.bind_some]
      split
      · exact ⟨rfl, by simp⟩
      rw [hlook _ (frame_lt _) (hX _ (hmem3 _ (Or.inl rfl))) _ (pdIndex_lt v)]
      cases h2e : lookup m (frame e3) (pdIndex v) with
      | none => exact ⟨rfl, by simp⟩
      | some e2 =>
        simp only [Option.bind_some]
        split
        · exact ⟨rfl, by simp⟩
        rename_i hhuge
        have hk2 := kids_of_lookup (l := 2) h2e fun _ => hhuge
        have hmem2 : ∀ q, q = frame e2 ∨ q ∈ frames m 1 (frame e2) → q ∈ frames m 4 root :=
          fun q hq => hmem3 q (Or.inr (mem_frames_of_kid (pdIndex_lt v) hk2 hq))
        rw [hlook _ (frame_lt _) (hX _ (hmem2 _ (Or.inl rfl))) _ (ptIndex_lt v)]
        cases h1e : lookup m (frame e2) (ptIndex v) with
        | none => exact ⟨rfl, by simp⟩
        | some e1 =>
          have hk1 := kids_of_lookup (l := 1) h1e (by simp)
          refine ⟨rfl, fun f bits hf => ?_⟩
          simp only [Option.bind_some, Option.some.injEq, Mapping.small.injEq] at hf
          rw [← hf.1]
          exact hmem2 _ (Or.inr (mem_frames_of_kid (ptIndex_lt v) hk1 (Or.inl rfl)))

end Walks

/-! ## 2. What a copy translates to -/

/-- How a walk in the copy ends, given how it ends in the original. -/
inductive MappingCopied (m m' : Memory) : Option Mapping → Option Mapping → Prop
  | none : MappingCopied m m' none none
  | small {f f' : Nat} {bits : List (Bool × Bool)}
      (hbytes : ∀ k < 4096, m' (frameAddr f' + k) = m (frameAddr f + k)) :
      MappingCopied m m' (some (.small f bits)) (some (.small f' bits))
  | large (e : Nat) (bits : List (Bool × Bool)) :
      MappingCopied m m' (some (.large e bits)) (some (.large e bits))
  | giant (e e' : Nat) : MappingCopied m m' (some (.giant e)) (some (.giant e'))

section Copies

variable {m m' : Memory} {P Q i l : Nat} {R : Nat → Nat → Prop}

theorem permissions_setFrame (e f : Nat) : permissions (setFrame e f) = permissions e := by
  unfold permissions
  rw [writable_setFrame, user_setFrame]

/-- A mapped page has the permissions of its flags. -/
theorem permissions_pageEntry (f flags : Nat) :
    permissions (pageEntry (f * pageSize) flags) = permissions flags := by
  unfold permissions writable user pageEntry setFrame pageSize
  refine Prod.ext (decide_eq_decide.mpr ?_) (decide_eq_decide.mpr ?_) <;> omega

/-- A copied entry, as the processor sees it. -/
theorem EntryCopied.lookup (h : EntryCopied m R l P i (entry m' Q i)) :
    (lookup m P i = none ∧ lookup m' Q i = none) ∨
    (∃ e, lookup m P i = some e ∧ lookup m' Q i = some e ∧ l = 2 ∧ hugePage e = true) ∨
    ∃ e c, lookup m P i = some e ∧ lookup m' Q i = some (setFrame e c) ∧
      (l = 2 → hugePage e = false) ∧ c < 2 ^ 40 ∧ R (frame e) c := by
  by_cases hpres : present (entry m P i) = true
  · have hlook : AcornOS.lookup m P i = some (entry m P i) := by
      rw [AcornOS.lookup, if_pos hpres]
    by_cases hhuge : (l == 2 && hugePage (entry m P i)) = true
    · have he := h.1 (kids_shared hhuge)
      rw [if_pos hpres] at he
      rw [Bool.and_eq_true, beq_iff_eq] at hhuge
      refine Or.inr (Or.inl ⟨_, hlook, ?_, hhuge⟩)
      rw [AcornOS.lookup, he, if_pos hpres]
    · obtain ⟨c, hc, he, hR⟩ := h.2 _ (kids_owned hpres hhuge)
      refine Or.inr (Or.inr ⟨_, c, hlook, ?_, ?_, hc, hR⟩)
      · rw [AcornOS.lookup, he, if_pos (by rw [present_setFrame]; exact hpres)]
      · rintro rfl
        simpa using hhuge
  · have he := h.1 (kids_absent hpres)
    rw [if_neg hpres] at he
    refine Or.inl ⟨lookup_eq_none.mpr hpres, lookup_eq_none.mpr ?_⟩
    rw [he]
    decide

/-- **A copied directory translates every lower-half address as the original does**, up to the
frames its pages are in. -/
theorem translate_copied {root dst v : Nat} (h : Copied m m' 4 root dst) (hv : LowerHalf v) :
    MappingCopied m m' (translate m root v) (translate m' dst v) := by
  unfold translate
  rcases (h _ (pml4Index_lt hv)).lookup with ⟨h4, h4'⟩ | ⟨e4, -, -, hl, -⟩ |
    ⟨e4, c4, h4, h4', -, hc4, hcopy4⟩
  · rw [h4, h4']
    exact .none
  · exact absurd hl (by decide)
  rw [h4, h4', Option.bind_some, Option.bind_some, frame_setFrame hc4, permissions_setFrame]
  rcases (hcopy4 _ (pdptIndex_lt v)).lookup with ⟨h3, h3'⟩ | ⟨e3, -, -, hl, -⟩ |
    ⟨e3, c3, h3, h3', -, hc3, hcopy3⟩
  · rw [h3, h3']
    exact .none
  · exact absurd hl (by decide)
  rw [h3, h3', Option.bind_some, Option.bind_some, frame_setFrame hc3, permissions_setFrame,
    hugePage_setFrame]
  by_cases hgiant : hugePage e3 = true
  · rw [if_pos hgiant, if_pos hgiant]
    exact .giant _ _
  rw [if_neg hgiant, if_neg hgiant]
  rcases (hcopy3 _ (pdIndex_lt v)).lookup with ⟨h2, h2'⟩ | ⟨e2, h2, h2', -, hhuge⟩ |
    ⟨e2, c2, h2, h2', hhuge, hc2, hcopy2⟩
  · rw [h2, h2']
    exact .none
  · rw [h2, h2', Option.bind_some, Option.bind_some, if_pos hhuge, if_pos hhuge]
    exact .large _ _
  rw [h2, h2', Option.bind_some, Option.bind_some, frame_setFrame hc2, permissions_setFrame,
    hugePage_setFrame, hhuge rfl]
  rcases (hcopy2 _ (ptIndex_lt v)).lookup with ⟨h1, h1'⟩ | ⟨e1, -, -, hl, -⟩ |
    ⟨e1, c1, h1, h1', -, hc1, hcopy1⟩
  · rw [h1, h1']
    exact .none
  · exact absurd hl (by decide)
  rw [h1, h1', Option.bind_some, Option.bind_some, frame_setFrame hc1, permissions_setFrame]
  exact .small hcopy1

end Copies

/-! ## 3. The copy -/

/-- `Forked s src t dst N`: between `s` and `t` the frames `N` were taken and filled with a copy of the
directory `src`, whose PML4 is `dst`. -/
structure Forked (s : Machine) (src : Nat) (t : Machine) (dst : Nat) (N : Finset Nat) : Prop where
  takes : Takes s.pmm t.pmm N
  only : OnlyIn s.mem t.mem N
  copied : Copied s.mem t.mem 4 src dst
  upper : ∀ i, 256 ≤ i → i < 512 → entry t.mem dst i = entry s.mem src i
  nodup : (frames t.mem 4 dst ++ [dst]).Nodup
  mem : ∀ q, q ∈ frames t.mem 4 dst ++ [dst] ↔ q ∈ N

/-- The directory `src`, all of it in use. -/
def DirUsed (s : Machine) (src : Nat) : Prop :=
  ∀ q, q = src ∨ q ∈ frames s.mem 4 src → s.pmm.Used q

/-- **`paging_deep_copy_directory`.**  It fails only for want of pages. -/
theorem pagingDeepCopyDirectory_spec {s : Machine} {src : Nat} (hs : s.Wf) (hsrc : DirUsed s src) :
    Ensures (pagingDeepCopyDirectory s (frameAddr src))
      (fun _ => s.pmm.freePages.card < (frames s.mem 4 src).length + 1)
      (fun r => ∃ dst N, r.1 = frameAddr dst ∧ Forked s src r.2 dst N) := by
  have hsrc40 := hs.lt_of_used (hsrc src (Or.inl rfl))
  unfold pagingDeepCopyDirectory
  rw [if_neg (hs.frameAddr_ne_zero (hsrc src (Or.inl rfl)).1)]
  refine Ensures.bind ((allocTable_spec hs).mono (fun _ he => ?_) fun r hr => hr) ?_
  · rw [he, Finset.card_empty]
    omega
  rintro ⟨a, t⟩ ⟨c, hc, rfl, htakes, honly, hblank⟩
  simp only at htakes honly hblank ⊢
  have hc40 := hs.lt_of_free hc
  have hne : ∀ q, s.pmm.Used q → q ≠ c := fun q hq => hq.ne_taken htakes
  obtain ⟨hupOnly, hlow, hup⟩ :=
    @copyUpperHalf_spec t.mem src c hsrc40 hc40 (hne src (hsrc src (Or.inl rfl)))
  generalize copyUpperHalf t.mem (frameAddr src) (frameAddr c) = m at *
  have hfrom : OnlyIn s.mem m {c} := honly.trans hupOnly
  have hsrcX : ∀ q, q = src ∨ q ∈ frames s.mem 4 src → q ∉ ({c} : Set Nat) := fun q hq =>
    hne q (hsrc q hq)
  have hframes : frames m 4 src = frames s.mem 4 src := congrArg _ <|
    hfrom.tree_eq hsrc40 (hsrcX src (Or.inl rfl)) fun q hq => hsrcX q (Or.inr hq)
  have hcused : t.pmm.Used c := htakes.used_of_mem (Finset.mem_singleton_self c)
  have hpre : CopyPre 4 ⟨m, t.pmm⟩ src c := by
    refine ⟨hs.of_takes (t := ⟨m, t.pmm⟩) htakes, fun q hq => ?_, hcused, fun q hq => ?_⟩
    · rw [hframes] at hq
      exact (hsrc q hq).of_takes htakes
    · rw [hframes] at hq
      exact hne q (hsrc q hq)
  refine Ensures.bind ((copyPml4_spec ⟨m, t.pmm⟩ src c hpre fun i hi => ?_).mono
    (fun _ hfail => ?_) fun u hu => hu) ?_
  · exact (hlow i hi).trans (hblank i (hi.trans_le (levelWidth_le _)))
  · have hcard := htakes.card_add
    simp only [hframes, Finset.card_singleton] at hfail hcard
    omega
  · rintro u ⟨N, hu⟩
    have hcN : c ∉ N := hu.takes.notMem_of_test hcused.2
    refine ensures_ok.mpr ⟨c, insert c N, rfl, htakes.trans hu.takes, ?_, ?_, ?_, ?_, ?_⟩
    · refine (hfrom.mono ?_).trans (hu.only.mono ?_)
      · simp
      · simp
    · have hcopied : Copied m u.mem 4 src c := hu.copied
      exact hcopied.congr_src hfrom hsrc40 (hsrcX src (Or.inl rfl)) fun q hq => hsrcX q (Or.inr hq)
    · intro i hlo hhi
      obtain ⟨k, rfl⟩ := Nat.exists_eq_add_of_le hlo
      have hrest := hu.rest (256 + k) hhi (by show 256 ≤ 256 + k; omega)
      exact hrest.trans ((hup k (by omega)).trans
        (honly.entry_eq hsrc40 (hsrcX src (Or.inl rfl)) hhi))
    · rw [(List.perm_append_singleton _ _).nodup_iff]
      exact List.nodup_cons.mpr ⟨fun h => hcN ((hu.mem c).mp h), hu.nodup⟩
    · intro q
      have hq := hu.mem q
      rw [List.mem_append, List.mem_singleton, Finset.mem_insert, or_comm]
      exact or_congr_right hq

/-- No lower-half address leads to a 1GB page. -/
def NoGiant (m : Memory) (root : Nat) : Prop :=
  ∀ v, LowerHalf v → ∀ e, translate m root v ≠ some (.giant e)

/-- `ReadsApart s src m root v`: if `v` is read through a 2MB page, the page was in use and is no frame
of the directory.  (2MB pages are shared between original and copy.) -/
def ReadsApart (s : Machine) (src : Nat) (m : Memory) (root v : Nat) : Prop :=
  ∀ e bits, translate m root v = some (.large e bits) →
    s.pmm.Used (Mapping.target v (.large e bits)) ∧
      Mapping.target v (.large e bits) ∉ src :: frames s.mem 4 src

/-- `Isolated m root other Reads`: a write to any byte of a 4KB page that is mapped in the lower half of
`root` changes nothing that is read in the lower half of `other`. -/
def Isolated (m : Memory) (root other : Nat) (Reads : Nat → Prop) : Prop :=
  ∀ v w f bits b, LowerHalf v → LowerHalf w → translate m root v = some (.small f bits) →
    Reads w → readByte (writeByte m f (v % 4096) b) other w = readByte m other w

/-- `ForkCopy s src t dst`: the directory `dst` in `t` is an isolated copy of the directory `src` in
`s`. -/
structure ForkCopy (s : Machine) (src : Nat) (t : Machine) (dst : Nat) : Prop where
  mapped : ∀ v f bits, LowerHalf v → translate s.mem src v = some (.small f bits) →
    ∃ f', translate t.mem dst v = some (.small f' bits) ∧
      ∀ k < 4096, t.mem (frameAddr f' + k) = s.mem (frameAddr f + k)
  unmapped : ∀ v, LowerHalf v → translate s.mem src v = none → translate t.mem dst v = none
  large : ∀ v e bits, LowerHalf v → translate s.mem src v = some (.large e bits) →
    translate t.mem dst v = some (.large e bits)
  upper : ∀ i, 256 ≤ i → i < 512 → entry t.mem dst i = entry s.mem src i
  fresh : (dst :: frames t.mem 4 dst).Nodup ∧ ∀ q ∈ dst :: frames t.mem 4 dst,
    q ∈ s.pmm.freePages ∧ q ∉ src :: frames s.mem 4 src
  source : ∀ q ∈ src :: frames s.mem 4 src, ∀ k < 4096,
    t.mem (frameAddr q + k) = s.mem (frameAddr q + k)
  isolated : Isolated t.mem dst src (ReadsApart s src t.mem src) ∧
    Isolated t.mem src dst (ReadsApart s src t.mem dst)

section ForkCopy

variable {s t : Machine} {src dst : Nat} {N : Finset Nat} {m : Memory}

theorem onlyIn_writeByte {f k : Nat} (hf : f < 2 ^ 40) (hk : k < 4096) (b : BitVec 8) :
    OnlyIn m (writeByte m f k b) {f} := by
  intro q hq hnot j hj
  have := frameAddr_apart hf hq fun h => hnot (by rw [h]; rfl)
  exact Function.update_of_ne (by omega) _ _

/-- Two directories are isolated when no frame of the one is a frame of the other or of a large page
that the other reads. -/
theorem isolated_of_disjoint {root other : Nat} {Reads : Nat → Prop} (hroot : root < 2 ^ 40)
    (hother : other < 2 ^ 40)
    (hdisj : ∀ q ∈ frames m 4 root, q ∉ other :: frames m 4 other)
    (hgiant : NoGiant m other)
    (hreads : ∀ w, LowerHalf w → Reads w → ∀ e bits, translate m other w = some (.large e bits) →
      Mapping.target w (.large e bits) < 2 ^ 40 ∧ Mapping.target w (.large e bits) ∉ frames m 4 root) :
    Isolated m root other Reads := by
  intro v w f bits b hv hw hmap hread
  obtain ⟨-, hleaf⟩ := translate_congr (OnlyIn.refl m ∅) hv hroot (by simp) (by simp)
  have hf := hleaf f bits hmap
  have honly := @onlyIn_writeByte m f (v % 4096) (frames_lt hf) (Nat.mod_lt _ (by decide)) b
  have hfX : ∀ q, q = other ∨ q ∈ frames m 4 other → q ∉ ({f} : Set Nat) := by
    rintro q hq rfl
    exact hdisj q hf (List.mem_cons.mpr hq)
  obtain ⟨htrans, hleaf'⟩ := translate_congr honly hw hother (hfX other (Or.inl rfl))
    fun q hq => hfX q (Or.inr hq)
  unfold readByte
  rw [htrans]
  cases hx : translate m other w with
  | none => rw [Option.map_none, Option.map_none]
  | some x =>
    have hk : w % 4096 < 4096 := Nat.mod_lt _ (by decide)
    have htarget : x.target w < 2 ^ 40 ∧ x.target w ∉ ({f} : Set Nat) := by
      cases x with
      | small g bits' =>
        have hg := hleaf' g bits' hx
        exact ⟨frames_lt hg, hfX g (Or.inr hg)⟩
      | large e bits' =>
        obtain ⟨hlt, hnot⟩ := hreads w hw hread e bits' hx
        refine ⟨hlt, fun h => hnot ?_⟩
        rw [Set.mem_singleton_iff.mp h]
        exact hf
      | giant e => exact absurd hx (hgiant w hw e)
    rw [Option.map_some, Option.map_some, honly _ htarget.1 htarget.2 _ hk]

theorem Forked.forkCopy (hs : s.Wf) (hsrc : DirUsed s src) (hgiant : NoGiant s.mem src)
    (h : Forked s src t dst N) : ForkCopy s src t dst := by
  have hsrc40 := hs.lt_of_used (hsrc src (Or.inl rfl))
  have hsrcN : ∀ q, q = src ∨ q ∈ frames s.mem 4 src → q ∉ (N : Set Nat) := fun q hq hN =>
    h.takes.notMem_of_test (hsrc q hq).2 hN
  have hframes : frames t.mem 4 src = frames s.mem 4 src := congrArg _ <|
    h.only.tree_eq hsrc40 (hsrcN src (Or.inl rfl)) fun q hq => hsrcN q (Or.inr hq)
  have hcopyN : ∀ q ∈ dst :: frames t.mem 4 dst, q ∈ N := fun q hq =>
    (h.mem q).mp (by rw [List.mem_append, List.mem_singleton]; exact (List.mem_cons.mp hq).symm)
  have hdst40 : dst < 2 ^ 40 := hs.lt_of_free (h.takes.free (hcopyN dst List.mem_cons_self))
  have hsource : ∀ v, LowerHalf v → translate t.mem src v = translate s.mem src v := fun v hv =>
    (translate_congr h.only hv hsrc40 (hsrcN src (Or.inl rfl)) fun q hq => hsrcN q (Or.inr hq)).1
  have htrans := fun v hv => @translate_copied s.mem t.mem src dst v h.copied hv
  have hapart : ∀ q, q ∈ dst :: frames t.mem 4 dst → q ∉ src :: frames s.mem 4 src := fun q hq hq' =>
    hsrcN q (List.mem_cons.mp hq') (hcopyN q hq)
  refine ⟨?_, ?_, ?_, h.upper, ⟨?_, ?_⟩, ?_, ?_, ?_⟩
  · intro v f bits hv hf
    have hc := htrans v hv
    rw [hf] at hc
    generalize translate t.mem dst v = x at hc
    cases hc with
    | small hbytes => exact ⟨_, rfl, hbytes⟩
  · intro v hv hnone
    have hc := htrans v hv
    rw [hnone] at hc
    generalize translate t.mem dst v = x at hc
    cases hc
    rfl
  · intro v e bits hv he
    have hc := htrans v hv
    rw [he] at hc
    generalize translate t.mem dst v = x at hc
    cases hc
    rfl
  · exact (List.perm_append_singleton _ _).nodup_iff.mp h.nodup
  · exact fun q hq => ⟨h.takes.free (hcopyN q hq), hapart q hq⟩
  · intro q hq k hk
    have hq := List.mem_cons.mp hq
    exact h.only q (hs.lt_of_used (hsrc q hq)) (hsrcN q hq) k hk
  · -- writing through the copy: its frames were free
    refine isolated_of_disjoint hdst40 hsrc40 (fun q hq => ?_) (fun v hv e => ?_) ?_
    · rw [hframes]
      exact hapart q (List.mem_cons_of_mem _ hq)
    · rw [hsource v hv]
      exact hgiant v hv e
    · intro w _ hread e bits he
      obtain ⟨hused, -⟩ := hread e bits he
      refine ⟨hs.lt_of_used hused, fun hmem => ?_⟩
      exact h.takes.notMem_of_test hused.2 (hcopyN _ (List.mem_cons_of_mem _ hmem))
  · -- writing through the original: its frames were in use
    refine isolated_of_disjoint hsrc40 hdst40 (fun q hq hq' => ?_) (fun v hv e he => ?_) ?_
    · rw [hframes] at hq
      exact hapart q hq' (List.mem_cons_of_mem _ hq)
    · have hc := htrans v hv
      rw [he] at hc
      generalize hx : translate s.mem src v = x at hc
      cases hc
      exact hgiant v hv _ hx
    · intro w _ hread e bits he
      obtain ⟨hused, hnot⟩ := hread e bits he
      refine ⟨hs.lt_of_used hused, fun hmem => ?_⟩
      rw [hframes] at hmem
      exact hnot (List.mem_cons_of_mem _ hmem)

end ForkCopy

/-- A machine with 16 pages, the first 8 of them used.  The PML4 in frame 1 maps one page, frame 5,
through the tables in frames 2, 3 and 4. -/
def onePageMachine : Machine where
  mem := [1, 2, 3, 4].foldl
    (fun m p => store64 m (frameAddr p + 8 * 0) (tableEntry ((p + 1) * pageSize))) fun _ => 0
  pmm := ⟨fun b => if b = 0 then 0xFF else 0, 16, 8⟩

theorem entry_onePageMachine {p i : Nat} (hp : p < 2 ^ 40) (hi : i < 512) :
    entry onePageMachine.mem p i =
      if i = 0 ∧ 1 ≤ p ∧ p ≤ 4 then tableEntry ((p + 1) * pageSize) else 0 := by
  have hstore : ∀ (m : Memory) (q : Nat), q < 2 ^ 39 →
      entry (store64 m (frameAddr q + 8 * 0) (tableEntry ((q + 1) * pageSize))) p i =
        if p = q ∧ i = 0 then tableEntry ((q + 1) * pageSize) else entry m p i := by
    intro m q hq
    obtain ⟨hlt, -⟩ := @tableEntry_spec (q + 1) (by omega)
    exact entry_store64 hp (by omega) hi (by decide) hlt
  simp only [onePageMachine, List.foldl_cons, List.foldl_nil]
  rw [hstore _ 4 (by decide), hstore _ 3 (by decide), hstore _ 2 (by decide),
    hstore _ 1 (by decide), entry_zero]
  by_cases h4 : p = 4 ∧ i = 0
  · rw [if_pos h4, if_pos (by omega), h4.1]
  rw [if_neg h4]
  by_cases h3 : p = 3 ∧ i = 0
  · rw [if_pos h3, if_pos (by omega), h3.1]
  rw [if_neg h3]
  by_cases h2 : p = 2 ∧ i = 0
  · rw [if_pos h2, if_pos (by omega), h2.1]
  rw [if_neg h2]
  by_cases h1 : p = 1 ∧ i = 0
  · rw [if_pos h1, if_pos (by omega), h1.1]
  rw [if_neg h1, if_neg (by omega)]

theorem not_hugePage_onePageMachine {p i : Nat} (hp : p < 2 ^ 40) (hi : i < 512) :
    ¬ hugePage (entry onePageMachine.mem p i) = true := by
  rw [entry_onePageMachine hp hi]
  split
  · obtain ⟨-, -, hhuge, -⟩ := @tableEntry_spec (p + 1) (by omega)
    rw [hhuge]
    decide
  · decide

theorem kids_onePageMachine (l : Nat) {p : Nat} (hlo : 1 ≤ p) (hhi : p ≤ 4) :
    kids onePageMachine.mem l p 0 = some (p + 1) := by
  obtain ⟨-, hpres, hhuge, hframe⟩ := @tableEntry_spec (p + 1) (by omega)
  have he := @entry_onePageMachine p 0 (by omega) (by decide)
  rw [if_pos (by omega)] at he
  rw [kids_owned (by rw [he, hpres]) (by rw [he, hhuge]; simp), he, hframe]

theorem kids_onePageMachine_pos (l : Nat) {p i : Nat} (hlo : 0 < i) (hi : i < 512) (hp : p < 2 ^ 40) :
    kids onePageMachine.mem l p i = none := by
  refine kids_blank ?_
  rw [entry_onePageMachine hp hi, if_neg (by omega)]

theorem frames_onePageMachine : frames onePageMachine.mem 4 1 = [5, 4, 3, 2] := by
  have htree : ∀ n p, 1 ≤ p → p ≤ 4 → tree onePageMachine.mem (n + 1) p =
      tree onePageMachine.mem n (p + 1) ++ [(n, p + 1)] := by
    intro n p hlo hhi
    have hwidth := levelWidth_le (n + 1)
    have hpos : levelWidth (n + 1) = levelWidth (n + 1) - 1 + 1 := by
      unfold levelWidth
      split <;> rfl
    refine (nodes_succ n p).trans ?_
    rw [upTo, hpos, List.range_succ_eq_map, List.flatMap_cons, kids_onePageMachine _ hlo hhi,
      subtree_some]
    refine (congrArg _ (List.flatMap_eq_nil_iff.mpr fun i hi => ?_)).trans (List.append_nil _)
    obtain ⟨j, hj, rfl⟩ := List.mem_map.mp hi
    have hj := List.mem_range.mp hj
    rw [kids_onePageMachine_pos _ (Nat.succ_pos j) (by omega) (by omega), subtree_none]
  have h0 : tree onePageMachine.mem 0 5 = [] := nodes_zero 5
  unfold frames
  rw [htree 3 1 (by decide) (by decide), htree 2 2 (by decide) (by decide),
    htree 1 3 (by decide) (by decide), htree 0 4 (by decide) (by decide), h0]
  rfl

theorem onePageMachine_wf : onePageMachine.Wf :=
  ⟨⟨by decide, by decide⟩, by decide⟩

theorem used_onePageMachine {p : Nat} (hp : p < 8) : onePageMachine.pmm.Used p := by
  refine ⟨Nat.lt_of_lt_of_le hp (by decide), ?_⟩
  interval_cases p <;> decide

theorem dirUsed_onePageMachine : DirUsed onePageMachine 1 := by
  rintro q (rfl | hq)
  · exact used_onePageMachine (by decide)
  · rw [frames_onePageMachine] at hq
    refine used_onePageMachine ?_
    fin_cases hq <;> decide

theorem translate_onePageMachine_ne_giant (v e : Nat) :
    translate onePageMachine.mem 1 v ≠ some (.giant e) := by
  intro he
  obtain ⟨e4, -, h3, hhuge⟩ := translate_eq_giant he
  obtain ⟨-, rfl⟩ := lookup_eq_some.mp h3
  exact not_hugePage_onePageMachine (frame_lt e4) (pdptIndex_lt v) hhuge

theorem noGiant_onePageMachine : NoGiant onePageMachine.mem 1 :=
  fun v _ => translate_onePageMachine_ne_giant v

/-- **Freeing a copy undoes the copying**, as far as the page allocator is concerned. -/
theorem Forked.restores {s t : Machine} {src dst : Nat} {N : Finset Nat} (hs : s.Wf)
    (h : Forked s src t dst N) : (pagingFreeDirectory t (frameAddr dst)).pmm = s.pmm := by
  have hfree : ∀ q, q = dst ∨ q ∈ frames t.mem 4 dst → q ∈ s.pmm.freePages := by
    intro q hq
    refine h.takes.free ((h.mem q).mp ?_)
    rw [List.mem_append, List.mem_singleton]
    exact hq.symm
  have hdst := hfree dst (Or.inl rfl)
  rw [pagingFreeDirectory_eq (hs.lt_of_free hdst) (fun q hq => hs.pmm.pos_of_mem (hfree q hq))
    (hs.frameAddr_ne_zero (Pmm.mem_freePages.mp hdst).1)]
  exact h.takes.releaseAll h.nodup h.mem

end AcornOS
