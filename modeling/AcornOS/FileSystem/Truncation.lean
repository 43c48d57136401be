/-
# Truncation

`shadowfs_truncate` has two code paths.  To 0 it frees every block.  To any other size it walks along the
chain with a count of the bytes still to keep: it passes the blocks that stay whole, shortens the one in
which the count runs out, and frees those behind it one by one through a trailing pointer.

* **`truncate_shrinks`**: for a size within the file both paths leave the first bytes of it, in as many
  blocks as they need, and give back exactly the pages of the others.
* **`truncate_never_grows`**: for a size beyond the end the walk changes nothing, and then the size is
  set all the same.  The file now claims bytes that no block holds.
-/
import AcornOS.FileSystem.Chains

namespace AcornOS

open Lib
open scoped List

/-- Pages other than page 0 can be given back. -/
theorem Machine.Wf.releaseAll {s : Machine} {pages : List Nat} (h : s.Wf) (hpos : ∀ p ∈ pages, 0 < p) :
    Machine.Wf { s with pmm := s.pmm.releaseAll pages } := by
  refine ⟨⟨?_, ?_⟩, ?_⟩
  · rw [Pmm.totalPages_releaseAll]
    exact h.pmm.total_le
  · rw [Pmm.test_releaseAll, h.pmm.zero_used, decide_eq_false fun hmem => absurd (hpos 0 hmem) (by decide)]
    rfl
  · exact (Pmm.totalPages_releaseAll _ _).trans_le h.ram

namespace Store

section Truncation

variable {k k' : Store} {m : Memory} {rest : List (Nat × Nat)} {objs : List Nat} {priv sb a x : Nat}
  {n : InodeNode} {bs pre post : List (Nat × PageBlock)} {v : PageBlock}

/-! ## 1. Giving back pages -/

/-- The pages of blocks are given back. -/
theorem freePagesOf_eq : ∀ {bs : List (Nat × PageBlock)} {pm : Pmm},
    (∀ b ∈ bs, 0 < pageOf b ∧ pageOf b < 2 ^ 40 ∧ b.2.data = frameAddr (pageOf b)) →
    freePagesOf pm bs = pm.releaseAll (bs.map pageOf)
  | [], _, _ => rfl
  | b :: bs, pm, h => by
    obtain ⟨hpos, hlt, hdata⟩ := h b List.mem_cons_self
    have hfree : AcornOS.pmmFree pm (virtualToPhysical b.2.data) = pm.release (pageOf b) := by
      rw [hdata, virtualToPhysical_frameAddr hlt, pmmFree_page hpos]
    have hrest := @freePagesOf_eq bs (pm.release (pageOf b)) fun c hc => h c (List.mem_cons_of_mem b hc)
    rw [freePagesOf, List.foldl_cons, hfree]
    exact hrest

/-- The blocks that stay keep their pages. -/
theorem OwnPages.release {pm : Pmm} (h : OwnPages pm (bs ++ post)) :
    OwnPages (pm.releaseAll (post.map pageOf)) bs := by
  have hnodup := h.nodup
  rw [List.map_append, List.nodup_append] at hnodup
  refine ⟨fun b hb => ?_, hnodup.1⟩
  obtain ⟨hpos, ⟨hlt, hused⟩, hdata⟩ := h.each b (List.mem_append_left _ hb)
  refine ⟨hpos, ⟨?_, ?_⟩, hdata⟩
  · rw [Pmm.totalPages_releaseAll]
    exact hlt
  · have hout : pageOf b ∉ post.map pageOf := fun hmem =>
      hnodup.2.2 _ (List.mem_map_of_mem hb) _ hmem rfl
    rw [Pmm.test_releaseAll, hused, decide_eq_false hout]
    rfl

/-! ## 2. The walk -/

/-- Where the count of bytes runs out. -/
theorem exists_cut : ∀ {bs : List (Nat × PageBlock)} {r : Nat}, 0 < r →
    r ≤ (bs.map fun b => b.2.used).sum → ∃ pre x v post, bs = pre ++ (x, v) :: post ∧
      (pre.map fun b => b.2.used).sum < r ∧ r ≤ (pre.map fun b => b.2.used).sum + v.used
  | [], r, hpos, hle => absurd hle (by simpa using hpos.ne')
  | (x, v) :: bs, r, hpos, hle => by
    rw [List.map_cons, List.sum_cons] at hle
    simp only at hle
    by_cases hin : r ≤ v.used
    · exact ⟨[], x, v, bs, rfl, hpos, by simpa using hin⟩
    · obtain ⟨pre, y, w, post, rfl, hlow, hhigh⟩ := @exists_cut bs (r - v.used) (by omega) (by omega)
      refine ⟨(x, v) :: pre, y, w, post, rfl, ?_, ?_⟩
      · rw [List.map_cons, List.sum_cons]
        simp only
        omega
      · rw [List.map_cons, List.sum_cons]
        simp only
        omega

/-- The walk over blocks that stay whole. -/
theorem trimBlocks_pass {y : Nat} {w : PageBlock} : ∀ {pre : List (Nat × PageBlock)} {fuel a r previous : Nat},
    Linked k.blocks a (pre ++ (y, w) :: post) → (pre.map fun b => b.2.used).sum < r →
    trimBlocks priv sb (fuel + pre.length) k r previous a =
      trimBlocks priv sb fuel k (r - (pre.map fun b => b.2.used).sum) (lastAddr previous pre) y
  | [], fuel, a, r, previous, hl, _ => by
    rw [show a = y from hl.1]
    rfl
  | (x, v) :: pre, fuel, a, r, previous, hl, hr => by
    rw [List.map_cons, List.sum_cons] at hr ⊢
    obtain ⟨rfl, hx0, next, hx, hpre⟩ := hl
    rw [List.length_cons, ← Nat.add_assoc, trimBlocks, if_neg hx0, hx]
    simp only at hr ⊢
    rw [if_neg (by omega), if_neg (by omega), trimBlocks_pass hpre (by omega), lastAddr_cons, Nat.sub_add_eq]

/-- **Freeing what is behind a block**, through the trailing pointer to it. -/
theorem trimBlocks_free {first : Nat} : ∀ {post : List (Nat × PageBlock)} {fuel : Nat} {k : Store}
    {count next a : Nat}, Linked k.blocks a post → post.length < fuel →
    Heaped k.heap rest (post.map Prod.fst ++ objs) → priv ∈ objs → x ∈ objs →
    k.privs priv = some ⟨first, count⟩ → post.length ≤ count → count < 2 ^ 32 →
    k.blocks x = some ⟨v, next⟩ → (post = [] → next = 0) →
    ∃ k', trimBlocks priv sb fuel k 0 x a = .ok k' ∧ Heaped k'.heap rest objs ∧
      k'.privs priv = some ⟨first, count - post.length⟩ ∧ k'.blocks x = some ⟨v, 0⟩ ∧
      Only k k' (priv :: x :: post.map Prod.fst) ∧
      k'.mounts = (unchargeMount · sb sizeofShadowfsBlock)^[post.length] k.mounts ∧
      k'.machine = { k.machine with pmm := freePagesOf k.machine.pmm post }
  | [], fuel + 1, k, count, next, a, hl, _, hh, _, _, hp, _, _, hx, hnext => by
    obtain rfl : next = 0 := hnext rfl
    refine ⟨k, ?_, hh, hp, hx, (Only.refl k).mono (List.nil_subset _), rfl, rfl⟩
    rw [trimBlocks, if_pos (show a = 0 from hl)]
  | (y, w) :: post, fuel + 1, k, count, next, a, hl, hfuel, hh, hpm, hxm, hp, hle, hlt, hx, _ => by
    have hy : y ∉ post.map Prod.fst :=
      (show Linked k.blocks a ([] ++ (y, w) :: post) from hl).notMem_post
    obtain ⟨rfl, hy0, next', hn, hpost⟩ := hl
    have hyobjs : ∀ z ∈ objs, z ≠ a := fun z hz heq =>
      (List.nodup_append.mp hh.nodup_objs).2.2 a (by simp) z hz heq.symm
    have hxpost : x ∉ post.map Prod.fst := fun hmem =>
      (List.nodup_append.mp hh.nodup_objs).2.2 x (List.mem_cons_of_mem _ hmem) x hxm rfl
    obtain ⟨hheap, honly₀, hmounts₀, hmachine₀⟩ :=
      freePage_spec k (unchargeMount · sb sizeofShadowfsBlock) w.data
    have hh₀ : Heaped (k.freePage (unchargeMount · sb sizeofShadowfsBlock) w.data).heap rest
        (a :: (post.map Prod.fst ++ objs)) := by
      rw [hheap]
      exact hh
    obtain ⟨k₁, hfree, hm₁, honly, hmounts, hmachine⟩ := kfree_spec hh₀
    have hh₁ := hm₁ rest _ hh₀
    have honly₁ := honly₀.trans honly
    have hp₁ : k₁.privs priv = some ⟨first, count⟩ :=
      (honly₁.privs priv fun h => hyobjs priv hpm (List.mem_singleton.mp h)).trans hp
    have hx₁ : k₁.blocks x = some ⟨v, next⟩ :=
      (honly₁.blocks x fun h => hyobjs x hxm (List.mem_singleton.mp h)).trans hx
    have hx0 : x ≠ 0 := hh.ne_zero (List.mem_append_right _ hxm)
    rw [List.length_cons] at hle hfuel
    have hsub : sub32 count 1 = count - 1 := sub32_eq (by omega) hlt
    have hdrop : k₁.dropBlock priv x = .ok { k₁.setPriv priv ⟨first, count - 1⟩ with
        blocks := Function.update k₁.blocks x (some ⟨v, 0⟩) } := by
      rw [dropBlock, privAt_eq hp₁]
      refine bind_eq_ok.mpr ⟨_, rfl, ?_⟩
      rw [if_neg hx0, hsub]
      exact bind_eq_ok.mpr ⟨_, setNext_eq hx₁, rfl⟩
    generalize hk₂ : ({ k₁.setPriv priv ⟨first, count - 1⟩ with
      blocks := Function.update k₁.blocks x (some ⟨v, 0⟩) } : Store) = k₂ at hdrop
    have honly₂ : Only k₁ k₂ [priv, x] := by
      subst hk₂
      refine ⟨fun _ _ => rfl, fun z hz => ?_, fun _ _ => rfl, fun z hz => ?_⟩
      · exact Function.update_of_ne (fun h => hz (by simp [h])) _ _
      · exact Function.update_of_ne (fun h => hz (by simp [h])) _ _
    have hpost₂ : Linked k₂.blocks next' post := by
      subst hk₂
      refine (hpost.congr fun z hz => ?_).update_of_notMem hxpost
      exact honly₁.blocks z fun h => hy (List.mem_singleton.mp h ▸ hz)
    obtain ⟨k', hrun, hh', hp', hx', honly', hmounts', hmachine'⟩ :=
      @trimBlocks_free first post fuel k₂ (count - 1) 0 next' hpost₂ (by omega) (by subst hk₂; exact hh₁)
        hpm hxm (by subst hk₂; exact Function.update_self ..) (by omega) (by omega)
        (by subst hk₂; exact Function.update_self ..) fun _ => rfl
    refine ⟨k', ?_, hh', ?_, hx', ((honly₁.trans honly₂).trans honly').mono ?_, ?_, ?_⟩
    · rw [trimBlocks, if_neg hy0, hn]
      simp only [if_true]
      exact bind_eq_ok.mpr ⟨k₁, hfree, bind_eq_ok.mpr ⟨k₂, hdrop, hrun⟩⟩
    · rw [hp', List.length_cons, Nat.sub_sub, Nat.add_comm 1]
    · rw [List.nil_append, List.map_cons, List.singleton_append]
      refine List.append_subset.mpr ⟨?_, ?_⟩
      · simp
      · exact List.cons_subset_cons _ (List.cons_subset_cons _ (List.subset_cons_self _ _))
    · have hm : k₂.mounts = k₁.mounts := by
        rw [← hk₂]
        rfl
      rw [hmounts', hm, hmounts, hmounts₀, List.length_cons, Function.iterate_succ_apply]
    · have hm : k₂.machine = k₁.machine := by
        rw [← hk₂]
        rfl
      rw [hmachine', freePagesOf, freePagesOf, List.foldl_cons, hm, hmachine, hmachine₀]

/-- The block in which the count runs out. -/
theorem trimBlocks_cut {fuel next r previous : Nat} (hx : k.blocks x = some ⟨v, next⟩) (hx0 : x ≠ 0)
    (hpos : 0 < r) (hle : r ≤ v.used) : trimBlocks priv sb (fuel + 1) k r previous x =
      trimBlocks priv sb fuel
        { k with blocks := Function.update k.blocks x (some ⟨⟨v.data, r⟩, next⟩) } 0 x next := by
  rw [trimBlocks, if_neg hx0, hx]
  simp only
  rw [if_neg hpos.ne']
  by_cases hlt : r < v.used
  · rw [if_pos hlt]
  · obtain rfl : r = v.used := Nat.le_antisymm hle (Nat.not_lt.mp hlt)
    have hsame : Function.update k.blocks x (some ⟨v, next⟩) = k.blocks := by
      rw [← hx, Function.update_eq_self]
    rw [if_neg hlt, Nat.sub_self, show (⟨v.data, v.used⟩ : PageBlock) = v from rfl, hsame]

/-- **The loop of `shadowfs_truncate`**: the blocks before the cut stay, the one at the cut is shortened,
and those behind it are freed with their pages. -/
theorem ChainAt.trim {r : Nat} (h : ChainAt k rest objs priv (pre ++ (x, v) :: post)) (sb : Nat)
    (hlow : (pre.map fun b => b.2.used).sum < r) (hhigh : r ≤ (pre.map fun b => b.2.used).sum + v.used) :
    ∃ first count k', k.privs priv = some ⟨first, count⟩ ∧
      trimBlocks priv sb heapFuel k r 0 first = .ok k' ∧
      ChainAt k' rest objs priv (pre ++ [(x, ⟨v.data, r - (pre.map fun b => b.2.used).sum⟩)]) ∧
      k'.machine = { k.machine with pmm := k.machine.pmm.releaseAll (post.map pageOf) } ∧
      k'.mounts = (unchargeMount · sb sizeofShadowfsBlock)^[post.length] k.mounts ∧
      Only k k' (priv :: (pre ++ (x, v) :: post).map Prod.fst) := by
  obtain ⟨first, hp, hl⟩ := h.head
  obtain ⟨hx0, hpre, next, hx, hpost⟩ := hl.at_mid
  have hlen := h.length_lt
  rw [List.length_append, List.length_cons] at hlen
  obtain ⟨fuel, hfuel⟩ := Nat.exists_eq_add_of_le (show pre.length + 1 ≤ heapFuel by omega)
  generalize hr : r - (pre.map fun b => b.2.used).sum = r'
  have hwalk : trimBlocks priv sb heapFuel k r 0 first = trimBlocks priv sb fuel
      { k with blocks := Function.update k.blocks x (some ⟨⟨v.data, r'⟩, next⟩) } 0 x next := by
    rw [hfuel, show pre.length + 1 + fuel = fuel + 1 + pre.length by omega, trimBlocks_pass hl hlow, hr]
    exact trimBlocks_cut hx hx0 (by omega) (by omega)
  generalize hv' : (⟨v.data, r'⟩ : PageBlock) = v' at hwalk ⊢
  generalize hk₁ : ({ k with blocks := Function.update k.blocks x (some ⟨v', next⟩) } : Store) =
    k₁ at hwalk
  have hperm : priv :: ((pre ++ (x, v) :: post).map Prod.fst ++ objs) ~
      post.map Prod.fst ++ (priv :: ((pre ++ [(x, v')]).map Prod.fst ++ objs)) := by
    refine List.Perm.trans (List.Perm.cons priv ?_) List.perm_middle.symm
    rw [List.map_append, List.map_append, List.map_cons, List.map_singleton,
      List.append_cons _ x (post.map Prod.fst), List.append_assoc _ (post.map Prod.fst)]
    exact List.perm_append_comm_assoc _ _ _
  have hh₁ : Heaped k₁.heap rest (post.map Prod.fst ++
      (priv :: ((pre ++ [(x, v')]).map Prod.fst ++ objs))) := by
    rw [← hk₁]
    exact h.heap.perm hperm
  have honly₁ : Only k k₁ [x] := by
    rw [← hk₁]
    refine ⟨fun _ _ => rfl, fun _ _ => rfl, fun _ _ => rfl, fun z hz => ?_⟩
    exact Function.update_of_ne (fun heq => hz (List.mem_singleton.mpr heq)) _ _
  have hpost₁ : Linked k₁.blocks next post :=
    hpost.congr fun z hz => honly₁.blocks z fun hmem => hl.notMem_post (List.mem_singleton.mp hmem ▸ hz)
  have hp₁ : k₁.privs priv = some ⟨first, (pre ++ (x, v) :: post).length⟩ := by
    rw [← hk₁]
    exact hp
  have hx₁ : k₁.blocks x = some ⟨v', next⟩ := by
    rw [← hk₁]
    exact Function.update_self ..
  have hend : post = [] → next = 0 := by
    rintro rfl
    exact hpost
  have hcount : (pre ++ (x, v) :: post).length = pre.length + 1 + post.length := by
    rw [List.length_append, List.length_cons]
    omega
  have hsmall : heapFuel < 2 ^ 32 := by decide
  rw [hcount] at hp₁
  obtain ⟨k', hrun, hh', hp', hx', honly', hmounts, hmachine⟩ := @trimBlocks_free rest _ priv sb x v' first
    post fuel k₁ _ next next hpost₁ (by omega) hh₁ List.mem_cons_self (by simp) hp₁ (by omega) (by omega) hx₁
    hend
  rw [Nat.add_sub_cancel] at hp'
  have hpages : OwnPages k.machine.pmm ((pre ++ [(x, v)]) ++ post) := by
    rw [List.append_assoc, List.singleton_append]
    exact h.pages
  have hmachine' : k'.machine = { k.machine with pmm := k.machine.pmm.releaseAll (post.map pageOf) } := by
    rw [hmachine, ← hk₁, freePagesOf_eq fun b hb => ?_]
    have hb' : b ∈ pre ++ (x, v) :: post := by simp [hb]
    exact ⟨(h.pages.each b hb').1, h.pages.lt h.machine.ram hb', (h.pages.each b hb').2.2⟩
  have hkept : ∀ z ∈ pre.map Prod.fst, k'.blocks z = k.blocks z := by
    intro z hz
    have hnodup := h.heap.nodup_objs
    rw [List.nodup_cons, List.map_append, List.map_cons, List.append_assoc, List.nodup_append] at hnodup
    have hzx : z ≠ x := hnodup.2.2.2 z hz x (by simp)
    refine (honly'.blocks z fun hmem => ?_).trans (honly₁.blocks z fun hmem => hzx (List.mem_singleton.mp hmem))
    rcases List.mem_cons.mp hmem with rfl | hmem
    · exact hnodup.1 (List.mem_append_left _ hz)
    rcases List.mem_cons.mp hmem with rfl | hmem
    · exact hzx rfl
    · exact hnodup.2.2.2 z hz z (by simp [List.mem_map.mp hmem]) rfl
  refine ⟨first, _, k', hp, hwalk.trans hrun, ⟨⟨first, ?_, ?_⟩, hh', ?_, ?_⟩, hmachine', ?_, ?_⟩
  · rw [hp', List.length_append, List.length_singleton]
  · exact segment_append.mpr ⟨x, hpre.congr hkept, rfl, hx0, 0, hx', rfl⟩
  · rw [hmachine']
    refine h.machine.releaseAll fun p hp => ?_
    obtain ⟨b, hb, rfl⟩ := List.mem_map.mp hp
    exact (h.pages.each b (by simp [hb])).1
  · rw [hmachine', ← hv']
    exact hpages.release.setUsed r'
  · rw [hmounts, ← hk₁]
  · refine (honly₁.trans honly').mono ?_
    rw [List.map_append, List.map_cons, List.singleton_append]
    intro z hz
    rcases List.mem_cons.mp hz with rfl | hz
    · simp
    rcases List.mem_cons.mp hz with rfl | hz
    · simp
    rcases List.mem_cons.mp hz with rfl | hz
    · simp
    · exact List.mem_cons_of_mem _ (List.mem_append_right _ (List.mem_cons_of_mem _ hz))

/-! ## 3. The whole call -/

/-- What is left of the content. -/
theorem contentIn_cut {r : Nat} (m : Memory) (x : Nat) (post : List (Nat × PageBlock))
    (hlow : (pre.map fun b => b.2.used).sum < r)
    (hhigh : r ≤ (pre.map fun b => b.2.used).sum + v.used) :
    contentIn m (pre ++ [(x, ⟨v.data, r - (pre.map fun b => b.2.used).sum⟩)]) =
      (contentIn m (pre ++ (x, v) :: post)).take r := by
  rw [← length_contentIn m] at hlow hhigh ⊢
  have htrim : bytesIn m ⟨v.data, r - (contentIn m pre).length⟩ =
      (bytesIn m v).take (r - (contentIn m pre).length) := by
    rw [bytesIn, bytesIn, ← List.map_take, List.take_range, Nat.min_eq_left (by omega)]
  rw [contentIn_append, contentIn_append, contentIn_cons, contentIn_cons, contentIn_nil, List.append_nil,
    htrim, List.take_append, List.take_of_length_le hlow.le, List.take_append_of_le_length]
  rw [length_bytesIn]
  exact Nat.sub_le_of_le_add (by rwa [Nat.add_comm])

/-- As many blocks as the bytes need. -/
theorem Filled.length_cut {r : Nat} (hf : Filled (pre ++ (x, v) :: post))
    (hlow : (pre.map fun b => b.2.used).sum < r) (hhigh : r ≤ (pre.map fun b => b.2.used).sum + v.used) :
    Filled (pre ++ [(x, ⟨v.data, r - (pre.map fun b => b.2.used).sum⟩)]) ∧
      pre.length + 1 = (r + 4095) / 4096 := by
  have hfull : ∀ c ∈ pre, c.2.used = shadowfsBlockSize := fun c hc => hf.full c (by
    rw [List.dropLast_append_of_ne_nil (List.cons_ne_nil _ _)]
    exact List.mem_append_left _ hc)
  have hv := hf.le (x, v) (by simp)
  have hsum : (pre.map fun b => b.2.used).sum = 4096 * pre.length := by
    rw [List.map_congr_left hfull, List.map_const', List.sum_replicate, smul_eq_mul, Nat.mul_comm]
    rfl
  unfold shadowfsBlockSize at hv
  refine ⟨filled_concat.mpr ⟨hfull, ?_⟩, ?_⟩
  · unfold shadowfsBlockSize
    simp only at hv ⊢
    omega
  · simp only at hv
    omega

theorem used_uncharge (sb u : Nat) : ∀ (j : Nat) {mounts : Nat → ShadowfsMount}, (mounts sb).used < 2 ^ 32 →
    (((unchargeMount · sb u)^[j] mounts) sb).used = sub32 (mounts sb).used (u * j)
  | 0, mounts, h => by
    rw [Function.iterate_zero_apply, Nat.mul_zero, sub32_eq (Nat.zero_le _) h, Nat.sub_zero]
  | j + 1, mounts, h => by
    have hstep : (unchargeMount mounts sb u sb).used = sub32 (mounts sb).used u := by
      rw [unchargeMount, Function.update_self]
    have hlt : sub32 (mounts sb).used u < 2 ^ 32 := Nat.mod_lt _ (by decide)
    rw [Function.iterate_succ_apply, used_uncharge sb u j (by rw [hstep]; exact hlt), hstep, Nat.mul_succ]
    unfold sub32
    omega

/-- The pages of a chain, all given back. -/
theorem ChainAt.freePagesOf_eq (h : ChainAt k rest objs priv bs) :
    freePagesOf k.machine.pmm bs = k.machine.pmm.releaseAll (bs.map pageOf) :=
  Store.freePagesOf_eq fun b hb =>
    ⟨(h.pages.each b hb).1, h.pages.lt h.machine.ram hb, (h.pages.each b hb).2.2⟩

theorem ChainAt.pages_pos (h : ChainAt k rest objs priv bs) : ∀ p ∈ bs.map pageOf, 0 < p := by
  intro p hp
  obtain ⟨b, hb, rfl⟩ := List.mem_map.mp hp
  exact (h.pages.each b hb).1

/-- **`shadowfs_truncate` to 0.** -/
theorem FileAt.truncate_zero (h : FileAt k rest objs a n bs) : ∃ k',
    k.shadowfsTruncate a 0 = .ok (0, k') ∧ FileAt k' rest objs a { n with size := 0 } [] ∧
      k'.machine = { k.machine with pmm := k.machine.pmm.releaseAll (bs.map pageOf) } ∧
      k'.mounts = (unchargeMount · n.sb sizeofShadowfsBlock)^[bs.length] k.mounts ∧
      Moves k.heap k'.heap (bs.map Prod.fst) [] ∧ Only k k' (a :: n.privateData :: bs.map Prod.fst) := by
  obtain ⟨first, hp, hl⟩ := h.chain.head
  have hh : Heaped k.heap rest (bs.map Prod.fst ++ (n.privateData :: a :: objs)) :=
    h.chain.heap.perm List.perm_middle.symm
  obtain ⟨k₁, hrun, hm, honly, hmounts, hmachine⟩ := @freeBlocks_spec _ rest
    (unchargeMount · n.sb sizeofShadowfsBlock) _ heapFuel k _ hl h.chain.length_lt hh
  rw [h.chain.freePagesOf_eq] at hmachine
  have honly' := (honly.trans (only_setPriv k₁ n.privateData ⟨0, 0⟩)).trans (only_setSize _ a n 0)
  refine ⟨(k₁.setPriv n.privateData ⟨0, 0⟩).setSize a n 0, ?_, ⟨Function.update_self .., h.type,
    ⟨⟨0, Function.update_self .., rfl⟩, hm rest _ hh, ?_, ?_⟩, filled_nil, rfl⟩, hmachine, hmounts, hm,
    honly'.mono ?_⟩
  · rw [shadowfsTruncate]
    refine bind_eq_ok.mpr ⟨n, inodeAt_eq h.node, bind_eq_ok.mpr ⟨_, privAt_eq hp, ?_⟩⟩
    rw [if_neg (not_not.mpr h.type), if_pos rfl]
    exact bind_eq_ok.mpr ⟨k₁, hrun, rfl⟩
  · have hwf := h.chain.machine.releaseAll h.chain.pages_pos
    rw [← hmachine] at hwf
    exact hwf
  · exact ⟨fun _ hb => absurd hb List.not_mem_nil, List.nodup_nil⟩
  · intro x hx
    simp only [List.mem_append, List.mem_singleton] at hx
    rcases hx with (hx | rfl) | rfl
    · exact List.mem_cons_of_mem _ (List.mem_cons_of_mem _ hx)
    · simp
    · simp

/-- **`shadowfs_truncate` to a size within the file.** -/
theorem FileAt.truncate {size : Nat} (h : FileAt k rest objs a n bs)
    (hsize : size ≤ (contentIn k.machine.mem bs).length) : ∃ k' kept,
      k.shadowfsTruncate a size = .ok (0, k') ∧ FileAt k' rest objs a { n with size := size } kept ∧
      contentIn k'.machine.mem kept = (contentIn k.machine.mem bs).take size ∧
      kept.length = (size + 4095) / 4096 ∧
      k'.machine = { k.machine with pmm := k.machine.pmm.releaseAll ((bs.drop kept.length).map pageOf) } ∧
      k'.mounts = (unchargeMount · n.sb sizeofShadowfsBlock)^[bs.length - kept.length] k.mounts := by
  rcases Nat.eq_zero_or_pos size with rfl | hpos
  · obtain ⟨k', hrun, hfile, hmachine, hmounts, -⟩ := h.truncate_zero
    exact ⟨k', [], hrun, hfile, rfl, rfl, hmachine, hmounts⟩
  have hle := hsize
  rw [length_contentIn] at hle
  obtain ⟨pre, x, v, post, rfl, hlow, hhigh⟩ := exists_cut hpos hle
  obtain ⟨first, count, k', hp, hrun, hchain, hmachine, hmounts, -⟩ := h.chain.trim n.sb hlow hhigh
  obtain ⟨hfilled, hlength⟩ := h.filled.length_cut hlow hhigh
  have hcut := contentIn_cut k.machine.mem x post hlow hhigh
  generalize (⟨v.data, size - (pre.map fun b => b.2.used).sum⟩ : PageBlock) = v' at hchain hfilled hcut
  have hkept : (pre ++ [(x, v')]).length = pre.length + 1 := by simp
  have hdrop : (pre ++ (x, v) :: post).drop (pre ++ [(x, v')]).length = post := by
    rw [hkept, List.append_cons]
    exact List.drop_left' (by rw [List.length_append, List.length_singleton])
  have hpost : (pre ++ (x, v) :: post).length - (pre ++ [(x, v')]).length = post.length := by
    rw [← List.length_drop, hdrop]
  have hmem : k'.machine.mem = k.machine.mem := by rw [hmachine]
  refine ⟨k'.setSize a n size, pre ++ [(x, v')], ?_, ⟨Function.update_self .., h.type,
    ⟨hchain.head, hchain.heap, hchain.machine, hchain.pages⟩, hfilled, ?_⟩, ?_, hkept.trans hlength, ?_, ?_⟩
  · rw [shadowfsTruncate]
    refine bind_eq_ok.mpr ⟨n, inodeAt_eq h.node, bind_eq_ok.mpr ⟨_, privAt_eq hp, ?_⟩⟩
    rw [if_neg (not_not.mpr h.type), if_neg hpos.ne']
    exact bind_eq_ok.mpr ⟨k', hrun, rfl⟩
  · change size = (contentIn k'.machine.mem _).length
    rw [hmem, hcut, List.length_take, Nat.min_eq_left hsize]
  · change contentIn k'.machine.mem _ = _
    rw [hmem, hcut]
  · rw [hdrop]
    exact hmachine
  · rw [hpost]
    exact hmounts

end Truncation

end Store

/-! ## 4. Shorter, and longer -/

section Laws

variable {k : Store} {rest : List (Nat × Nat)} {objs : List Nat} {a : Nat} {n : InodeNode}
  {bs : List (Nat × PageBlock)} {size : Nat}

/-- **Truncating to a size within the file** leaves the first bytes of it, in a file that is in order with
as many blocks as it needs; the pages of the other blocks are given back, and the mount pays for these
blocks no more.  What is written next is appended behind the bytes that are left. -/
theorem truncate_shrinks (h : k.FileAt rest objs a n bs)
    (hsize : size ≤ (Store.contentIn k.machine.mem bs).length) (hused : (k.mounts n.sb).used < 2 ^ 32) :
    ∃ k' kept, k.shadowfsTruncate a size = .ok (0, k') ∧
      k'.FileAt rest objs a { n with size := size } kept ∧
      Store.contentIn k'.machine.mem kept = (Store.contentIn k.machine.mem bs).take size ∧
      (k'.privs n.privateData).map PrivNode.count = some ((size + 4095) / 4096) ∧
      kept.length = (size + 4095) / 4096 ∧
      k'.machine = { k.machine with
        pmm := k.machine.pmm.releaseAll ((bs.drop kept.length).map Store.pageOf) } ∧
      (k'.mounts n.sb).used =
        sub32 (k.mounts n.sb).used (sizeofShadowfsBlock * (bs.length - kept.length)) ∧
      ∀ (position : Nat) (flags : BitVec 32) (buf : List (BitVec 8)), position < 2 ^ 32 →
        buf.length < 2 ^ 32 → Ensures (k'.shadowfsWrite ⟨a, position, flags⟩ buf) Fault.Halts fun r =>
          ∃ bs', r.2.2.FileAt rest objs a { n with size := size + r.1 } bs' ∧
            Store.contentIn r.2.2.machine.mem bs' =
              (Store.contentIn k.machine.mem bs).take size ++ buf.take r.1 ∧
            (r.1 = buf.length ∨ (r.2.2.mounts n.sb).quota ≤ (r.2.2.mounts n.sb).used) := by
  obtain ⟨k', kept, hrun, hfile, hcontent, hlength, hmachine, hmounts⟩ := h.truncate hsize
  refine ⟨k', kept, hrun, hfile, hcontent, ?_, hlength, hmachine, ?_, fun position flags buf hpos hbuf => ?_⟩
  · obtain ⟨first, hp, -⟩ := hfile.chain.head
    rw [← hlength]
    exact congrArg (Option.map PrivNode.count) hp
  · rw [hmounts]
    exact Store.used_uncharge n.sb sizeofShadowfsBlock _ hused
  · refine (hfile.write (show File.position ⟨a, position, flags⟩ < 2 ^ 32 from hpos) hbuf).mono (fun _ he => he)
      fun r ⟨bs', hw, hpos', hfile', hbytes, hend, _⟩ => ?_
    exact ⟨bs', hfile', by rw [hbytes, hcontent], hend⟩

/-- The last letter is cut off: the block stays, and so does its page. -/
theorem truncate_shrinks_letters : ∃ k a n k' kept, Store.shadowfsTruncate k a 2 = .ok (0, k') ∧
    k'.inodes a = some n ∧ n.size = 2 ∧ kept.length = 1 ∧
    Store.contentIn k'.machine.mem kept = [0x41, 0x42] := by
  obtain ⟨k, rest, a, n, bs, h, hcontent, hused⟩ := lettersFile
  have hsize : 2 ≤ (Store.contentIn k.machine.mem bs).length := by
    rw [hcontent]
    decide
  obtain ⟨k', kept, hrun, hfile, hkept, -, hlength, -⟩ := truncate_shrinks h hsize (by rw [hused]; decide)
  refine ⟨k, a, _, k', kept, hrun, hfile.node, rfl, hlength, ?_⟩
  rw [hkept, hcontent]
  rfl

/-- What resizing a file to more than it has should do: fail and leave the inode alone, or fill the file up
with zero bytes; in both cases the size is what the blocks hold. -/
def GrowsRight (k : Store) (a size : Nat) (content : List (BitVec 8)) : Prop :=
  ∃ r k' n p bs, k.shadowfsTruncate a size = .ok (r, k') ∧ k'.inodes a = some n ∧
    k'.privs n.privateData = some p ∧ Linked k'.blocks p.first bs ∧
    ((r = -1 ∧ k'.inodes a = k.inodes a) ∨ Store.contentIn k'.machine.mem bs =
      content ++ List.replicate (size - content.length) 0) ∧
    n.size = (bs.map fun b => b.2.used).sum

/-- The walk with a count that does not run out. -/
theorem Store.trimBlocks_whole {priv sb : Nat} : ∀ {bs : List (Nat × PageBlock)} {fuel a r previous : Nat},
    Linked k.blocks a bs → bs.length < fuel → (bs.map fun b => b.2.used).sum < r →
    trimBlocks priv sb fuel k r previous a = .ok k
  | [], fuel + 1, a, r, previous, hl, _, _ => by
    rw [trimBlocks, if_pos (show a = 0 from hl)]
  | (x, v) :: bs, fuel + 1, a, r, previous, hl, hfuel, hr => by
    rw [List.map_cons, List.sum_cons] at hr
    obtain ⟨rfl, hx0, next, hx, hbs⟩ := hl
    rw [trimBlocks, if_neg hx0, hx]
    simp only at hr ⊢
    rw [if_neg (by omega), if_neg (by omega)]
    exact trimBlocks_whole hbs (Nat.lt_of_succ_lt_succ hfuel) (by omega)

/-- **`shadowfs_truncate` to a size beyond the end** sets the size and nothing else. -/
theorem Store.FileAt.truncate_beyond (h : k.FileAt rest objs a n bs)
    (hsize : (Store.contentIn k.machine.mem bs).length < size) :
    k.shadowfsTruncate a size = .ok (0, k.setSize a n size) := by
  obtain ⟨first, hp, hl⟩ := h.chain.head
  rw [Store.length_contentIn] at hsize
  rw [shadowfsTruncate]
  refine bind_eq_ok.mpr ⟨n, inodeAt_eq h.node, bind_eq_ok.mpr ⟨_, privAt_eq hp, ?_⟩⟩
  rw [if_neg (not_not.mpr h.type), if_neg (by omega)]
  exact bind_eq_ok.mpr ⟨k, trimBlocks_whole hl h.chain.length_lt hsize, rfl⟩

/-- So the size is not what the blocks hold. -/
theorem Store.FileAt.not_growsRight (h : k.FileAt rest objs a n bs)
    (hsize : (Store.contentIn k.machine.mem bs).length < size) (content : List (BitVec 8)) :
    ¬ GrowsRight k a size content := by
  rintro ⟨r, k', n', p, bs', hrun, hn', hp', hl', -, hsum⟩
  obtain ⟨first, hp, hl⟩ := h.chain.head
  rw [h.truncate_beyond hsize] at hrun
  obtain ⟨-, rfl⟩ := Prod.mk.inj (Except.ok.inj hrun)
  have hnode : (k.setSize a n size).inodes a = some { n with size := size } := Function.update_self ..
  obtain rfl := Option.some.inj (hnode.symm.trans hn')
  obtain rfl := Option.some.inj (hp.symm.trans hp')
  obtain rfl := Linked.unique hl hl'
  rw [length_contentIn] at hsize
  exact absurd hsum hsize.ne'

/-- **`shadowfs_truncate` never grows a file.**  Beyond the end it returns 0 and sets the size, but adds no
block: the size is then not what the blocks hold, for any file and any size. -/
theorem truncate_never_grows (h : k.FileAt rest objs a n bs)
    (hsize : (Store.contentIn k.machine.mem bs).length < size) :
    k.shadowfsTruncate a size = .ok (0, k.setSize a n size) ∧
      ¬ GrowsRight k a size (Store.contentIn k.machine.mem bs) :=
  ⟨h.truncate_beyond hsize, h.not_growsRight hsize _⟩

/-- Three letters, resized to ten. -/
theorem truncate_never_grows_letters : ∃ k a, ¬ GrowsRight k a 10 [0x41, 0x42, 0x43] := by
  obtain ⟨k, rest, a, n, bs, h, hcontent, -⟩ := lettersFile
  have hsize : (Store.contentIn k.machine.mem bs).length < 10 := by
    rw [hcontent]
    decide
  have hnot := (truncate_never_grows h hsize).2
  rw [hcontent] at hnot
  exact ⟨k, a, hnot⟩

/-- Three letters, resized to ten: the call returns 0, the size is 10, and the blocks hold three bytes, so
that the next write goes to byte 3 and not to the end that `SEEK_END` computes. -/
theorem letters_not_grown : ∃ k rest a n bs k', Store.FileAt k rest [] a n bs ∧
    Store.contentIn k.machine.mem bs = [0x41, 0x42, 0x43] ∧ k.shadowfsTruncate a 10 = .ok (0, k') ∧
    k'.inodes a = some { n with size := 10 } ∧ k'.blocks = k.blocks ∧
    ¬ GrowsRight k a 10 [0x41, 0x42, 0x43] := by
  obtain ⟨k, rest, a, n, bs, h, hcontent, -⟩ := lettersFile
  have hsize : (Store.contentIn k.machine.mem bs).length < 10 := by
    rw [hcontent]
    decide
  exact ⟨k, rest, a, n, bs, _, h, hcontent, h.truncate_beyond hsize, Function.update_self .., rfl,
    h.not_growsRight hsize _⟩

end Laws

end AcornOS
