/-
# The life of a file

A file costs memory at three moments: `shadowfs_create` puts an inode, its private data and a directory
entry on the heap, and every block that `shadowfs_write` opens is an object on the heap and a page of the
physical allocator.  `shadowfs_truncate` to 0 gives the blocks back, and `shadowfs_delete` the rest.

`Living` follows one file from its creation on: the heap differs from the one before by the objects of the
entry, and the bitmap by the pages of its blocks.  **`lifetime_returns_memory`**: with the entry deleted
both are EXACTLY what they were.
-/
import AcornOS.FileSystem.Truncation

namespace AcornOS

open Lib
open scoped List

/-! ## 1. One entry changes -/

/-- The objects that stay as they are when the file of the entry changes, the last of the directory. -/
def DirEntry.beside (e : DirEntry) (dir : Nat) (d : InodeNode) (es : List DirEntry) : List Nat :=
  e.dentry :: dir :: d.privateData :: es.flatMap DirEntry.objs

section Change

variable {k k' : Store} {rest : List (Nat × Nat)} {dir : Nat} {d n : InodeNode} {es : List DirEntry}
  {e : DirEntry} {bs : List (Nat × PageBlock)} {objs xs : List Nat} {a x : Nat}

/-- The objects of the directory, as the file of its last entry sees them. -/
theorem DirEntry.beside_perm (e : DirEntry) (dir : Nat) (d : InodeNode) (es : List DirEntry) :
    dir :: d.privateData :: (es ++ [e]).flatMap DirEntry.objs ~
      e.node.privateData :: (e.blocks.map Prod.fst ++ e.val.inode :: e.beside dir d es) := by
  rw [List.perm_iff_count]
  intro x
  simp only [beside, objs, inodeObjs, List.flatMap_append, List.flatMap_singleton, List.count_cons,
    List.count_append]
  omega

/-- No object of a file is one of the others. -/
theorem Store.FileAt.notMem_objs (h : k.FileAt rest objs a n bs)
    (hx : x ∈ a :: n.privateData :: bs.map Prod.fst) : x ∉ objs := by
  have hperm : n.privateData :: (bs.map Prod.fst ++ a :: objs) ~
      (a :: n.privateData :: bs.map Prod.fst) ++ objs :=
    (List.perm_middle.cons _).trans (List.Perm.swap _ _ _)
  have hnodup := hperm.nodup_iff.mp h.chain.heap.nodup_objs
  exact fun hmem => (List.nodup_append.mp hnodup).2.2 x hx x hmem rfl

/-- **The file of the last entry changes**, and the rest of the directory stays. -/
theorem DirAt.update (h : DirAt k rest dir d (es ++ [e]))
    (hfile : k'.FileAt rest (e.beside dir d es) e.val.inode n bs) (ho : Store.Only k k' xs)
    (hout : ∀ x ∈ xs, x ∉ e.beside dir d es) :
    DirAt k' rest dir d (es ++ [{ e with node := n, blocks := bs }]) := by
  obtain ⟨first, hp, hl⟩ := h.priv
  have hkeep : ∀ x ∈ e.beside dir d es, x ∉ xs := fun x hx hmem => hout x hmem hx
  have hes : ∀ e' ∈ es, ∀ x ∈ e'.objs, x ∉ xs := fun e' he' x hx => hkeep x (by
    simp only [DirEntry.beside, List.mem_cons]
    exact Or.inr (Or.inr (Or.inr (DirAt.mem_objs he' hx))))
  have hlink : (es ++ [{ e with node := n, blocks := bs }]).map DirEntry.link =
      (es ++ [e]).map DirEntry.link := by simp [DirEntry.link]
  have hname : (es ++ [{ e with node := n, blocks := bs }]).map DirEntry.name =
      (es ++ [e]).map DirEntry.name := by simp [DirEntry.name]
  have hdentry : ∀ x ∈ ((es ++ [e]).map DirEntry.link).map Prod.fst, x ∉ xs := by
    intro x hx
    rw [List.map_map, List.map_append] at hx
    rcases List.mem_append.mp hx with hx | hx
    · obtain ⟨e', he', rfl⟩ := List.mem_map.mp hx
      exact hes e' he' _ List.mem_cons_self
    · rw [List.mem_singleton.mp hx]
      exact hkeep _ List.mem_cons_self
  refine ⟨(ho.inodes dir (hkeep _ (by simp [DirEntry.beside]))).trans h.node, ⟨first, ?_, ?_⟩, ?_, ?_,
    ?_, ?_⟩
  · rw [ho.privs _ (hkeep _ (by simp [DirEntry.beside])), hp]
    simp
  · rw [hlink]
    exact hl.congr fun x hx => ho.dentries x (hdentry x hx)
  · intro e' he'
    rcases List.mem_append.mp he' with he' | he'
    · exact (h.entries e' (List.mem_append_left _ he')).only ho fun x hx =>
        hes e' he' x (List.mem_cons_of_mem _ hx)
    · obtain ⟨first, hpriv, hblocks⟩ := hfile.chain.head
      rw [List.mem_singleton.mp he']
      exact ⟨hfile.node, _, hpriv, by rw [if_pos hfile.type]; exact hblocks⟩
  · rw [hname]
    exact h.names
  · intro e' he'
    rcases List.mem_append.mp he' with he' | he'
    · exact h.short e' (List.mem_append_left _ he')
    · rw [List.mem_singleton.mp he']
      exact h.short e (List.mem_append_right _ (List.mem_singleton_self e))
  · exact hfile.chain.heap.perm
      (DirEntry.beside_perm { e with node := n, blocks := bs } dir d es).symm

end Change

/-! ## 2. The life of a file -/

/-- Writes and truncations to 0 of the file at `a`, in any order and through any files opened on it. -/
inductive FileRun (a : Nat) (k : Store) : Store → Prop
  | start : FileRun a k k
  | write {k' k'' : Store} {file file' : File} {buf : List (BitVec 8)} {written : Nat} :
      FileRun a k k' → file.inode = a → file.position < 2 ^ 32 → buf.length < 2 ^ 32 →
      k'.shadowfsWrite file buf = .ok (written, file', k'') → FileRun a k k''
  | truncate {k' k'' : Store} {r : Int} :
      FileRun a k k' → k'.shadowfsTruncate a 0 = .ok (r, k'') → FileRun a k k''

/-- The entry `e` has been added since `k₀`, and all that has been allocated since belongs to it. -/
structure Living (k₀ k : Store) (rest : List (Nat × Nat)) (dir : Nat) (d : InodeNode)
    (es : List DirEntry) (e : DirEntry) : Prop where
  entries : DirAt k rest dir d (es ++ [e])
  file : k.FileAt rest (e.beside dir d es) e.val.inode e.node e.blocks
  objects : Moves k₀.heap k.heap [] e.objs
  pages : Takes k₀.machine.pmm k.machine.pmm (e.blocks.map Store.pageOf).toFinset

section Living

variable {k₀ k k' : Store} {rest : List (Nat × Nat)} {dir a : Nat} {d : InodeNode} {es : List DirEntry}
  {e : DirEntry} {name : CString}

/-- The new file. -/
theorem Living.create (h : DirAt k₀ rest dir d es) (hwf : k₀.machine.Wf) (hname : name.length ≤ 63)
    (hok : k₀.shadowfsCreate dir name .file = .ok (some a, k)) :
    ∃ e, Living k₀ k rest dir d es e ∧ e.name = name ∧ e.val.inode = a := by
  have hnot : ¬ ((k₀.mounts d.sb).quota ≤ (k₀.mounts d.sb).used ∨ ∃ e ∈ es, e.name = name) :=
    fun hfail => by
      rw [h.create_fails hfail] at hok
      cases hok
  rw [not_or, not_exists, Nat.not_le] at hnot
  obtain ⟨e, hinode, rfl, htype, hsize, hblocks, hpriv, hmachine, hmoves, hdir⟩ :=
    (h.create (Nat.lt_succ_of_le hname) (fun e he heq => hnot.2 e ⟨he, heq⟩) hnot.1).of_ok hok
  have hnode := (hdir.entries e (List.mem_append_right _ (List.mem_singleton_self e))).node
  refine ⟨e, ⟨hdir, ⟨hnode, htype, ⟨⟨0, ?_, ?_⟩, hdir.heap.perm (e.beside_perm dir d es), ?_, ?_⟩, ?_, ?_⟩,
    hmoves, ?_⟩, rfl, (Option.some.inj hinode).symm⟩
  · rw [hblocks]
    exact hpriv
  · rw [hblocks]
    rfl
  · rw [hmachine]
    exact hwf
  · rw [hblocks]
    exact ⟨fun _ hb => absurd hb List.not_mem_nil, List.nodup_nil⟩
  · rw [hblocks]
    exact Store.filled_nil
  · rw [hblocks]
    exact hsize
  · rw [hblocks, hmachine]
    exact Takes.refl _

/-- **A write** adds to the entry what it allocates. -/
theorem Living.write {file file' : File} {buf : List (BitVec 8)} {written : Nat}
    (h : Living k₀ k rest dir d es e) (hfile : file.inode = e.val.inode) (hpos : file.position < 2 ^ 32)
    (hbuf : buf.length < 2 ^ 32) (hok : k.shadowfsWrite file buf = .ok (written, file', k')) :
    ∃ node blocks, Living k₀ k' rest dir d es { e with node := node, blocks := blocks } := by
  have hf := h.file
  rw [← hfile] at hf
  obtain ⟨bs', -, -, hf', -, -, ⟨more, hmore, htakes⟩, ⟨new, hnew, hmoves⟩, honly⟩ :=
    (hf.write hpos hbuf).of_ok hok
  rw [hfile] at hf' honly
  simp only at hf' htakes hmoves honly
  refine ⟨_, bs', h.entries.update hf' honly fun x hx => hf'.notMem_objs hx, hf', ?_, ?_⟩
  · refine (h.objects.alloc hmoves).perm (.refl _) (List.Perm.of_eq ?_)
    simp only [DirEntry.objs, DirEntry.inodeObjs, hnew, List.cons_append]
  · change Takes _ _ (bs'.map Store.pageOf).toFinset
    rw [hmore, List.toFinset_append]
    exact h.pages.trans htakes

/-- **A truncation to 0** gives back the blocks. -/
theorem Living.truncate {r : Int} (h : Living k₀ k rest dir d es e)
    (hok : k.shadowfsTruncate e.val.inode 0 = .ok (r, k')) :
    ∃ node blocks, Living k₀ k' rest dir d es { e with node := node, blocks := blocks } := by
  obtain ⟨k₁, hrun, hf', hmachine, -, hmoves, honly⟩ := h.file.truncate_zero
  obtain ⟨-, rfl⟩ := Prod.mk.inj (Except.ok.inj (hrun.symm.trans hok))
  refine ⟨_, [], h.entries.update hf' honly fun x hx => h.file.notMem_objs hx, hf', ?_, ?_⟩
  · refine Moves.back (h.objects.perm (.refl _) ?_) hmoves
    exact @List.perm_append_comm _ [e.dentry, e.val.inode, e.node.privateData] (e.blocks.map Prod.fst)
  · rw [hmachine]
    change Takes _ (k.machine.pmm.releaseAll _) ∅
    rw [h.pages.releaseAll h.file.chain.pages.nodup fun p => List.mem_toFinset.symm]
    exact Takes.refl _

/-- The life of a file, whatever is done with it. -/
theorem FileRun.living (h : Living k₀ k rest dir d es e) (hrun : FileRun e.val.inode k k') :
    ∃ node blocks, Living k₀ k' rest dir d es { e with node := node, blocks := blocks } := by
  induction hrun with
  | start => exact ⟨e.node, e.blocks, h⟩
  | write _ hfile hpos hbuf hok ih =>
    obtain ⟨node, blocks, hl⟩ := ih
    exact hl.write hfile hpos hbuf hok
  | truncate _ hok ih =>
    obtain ⟨node, blocks, hl⟩ := ih
    exact hl.truncate hok

/-- **Deleting the entry** gives back all that belongs to it. -/
theorem Living.delete {hbs : List Block} (h : Living k₀ k rest dir d es e) (hr : Rep k₀.heap hbs) :
    ∃ k', k.shadowfsDelete dir e.name = .ok (0, k') ∧ k'.machine.pmm = k₀.machine.pmm ∧
      Rep k'.heap hbs := by
  obtain ⟨pre, e', post, k', hsplit, hname, hok, -, hmoves, hmachine⟩ :=
    h.entries.delete ⟨e, List.mem_append_right _ (List.mem_singleton_self e), rfl⟩
  -- no other entry has the name
  obtain rfl : e' = e := List.inj_on_of_nodup_map h.entries.names
    (hsplit ▸ List.mem_append_right _ List.mem_cons_self)
    (List.mem_append_right _ (List.mem_singleton_self e)) hname
  refine ⟨k', hok, ?_, ?_⟩
  · rw [hmachine]
    change Store.freePagesOf _ _ = _
    rw [h.file.chain.freePagesOf_eq]
    exact h.pages.releaseAll h.file.chain.pages.nodup fun p => List.mem_toFinset.symm
  · refine Heaped.restored hr (hmoves _ [] ?_)
    exact h.objects _ [] hr.heaped

/-- **The life of a file returns all memory.**  A file is created, written and truncated to 0 in any
order, and deleted: the bitmap of the physical allocator and its count of used pages, the list of the
blocks of the heap and its count of used bytes are those from before the creation. -/
theorem lifetime_returns_memory {hbs : List Block} (h : DirAt k₀ rest dir d es) (hwf : k₀.machine.Wf)
    (hr : Rep k₀.heap hbs) (hname : name.length ≤ 63)
    (hok : k₀.shadowfsCreate dir name .file = .ok (some a, k)) (hrun : FileRun a k k') :
    ∃ k'', k'.shadowfsDelete dir name = .ok (0, k'') ∧ k''.machine.pmm = k₀.machine.pmm ∧
      Rep k''.heap hbs ∧ k''.heap.heapUsed = k₀.heap.heapUsed := by
  obtain ⟨e, hl, rfl, rfl⟩ := Living.create h hwf hname hok
  obtain ⟨node, blocks, hl'⟩ := hrun.living hl
  obtain ⟨k'', hdelete, hpmm, hr'⟩ := hl'.delete hr
  exact ⟨k'', hdelete, hpmm, hr', hr'.used.trans hr.used.symm⟩

end Living

/-- A file `a` in a new directory: three bytes, then none, then one. -/
theorem lifetime_returns_memory_one_file : ∃ dir k₀ a k k', blankStore.shadowfsCreateInode 0 .dir = .ok (dir, k₀) ∧
    k₀.shadowfsCreate dir [0x61] .file = .ok (some a, k) ∧ FileRun a k k' ∧ k'.machine.pmm ≠ k₀.machine.pmm ∧
    ∃ k'', k'.shadowfsDelete dir [0x61] = .ok (0, k'') ∧ k''.machine.pmm = k₀.machine.pmm ∧
      k''.heap.heapUsed = k₀.heap.heapUsed := by
  have hok : ((blankStore.shadowfsCreateInode 0 .dir) >>= fun r =>
      r.2.shadowfsCreate r.1 [0x61] .file >>= fun r₁ =>
        r₁.2.shadowfsWrite ⟨r₁.1.getD 0, 0, 2⟩ [0x41, 0x42, 0x43] >>= fun r₂ =>
          r₂.2.2.shadowfsTruncate (r₁.1.getD 0) 0 >>= fun r₃ =>
            (r₃.2.shadowfsWrite ⟨r₁.1.getD 0, 0, 2⟩ [0x41]).map fun r₄ =>
              (r₁.1.isSome, r.2.machine.pmm.usedPages, r₄.2.2.machine.pmm.usedPages)).toOption =
      some (true, 8, 9) := by
    decide +kernel
  obtain ⟨⟨dir, k₀⟩, hdir, hx⟩ := bind_eq_ok.mp (toOption_eq_some.mp hok)
  obtain ⟨⟨inode, k⟩, hcreate, hx⟩ := bind_eq_ok.mp hx
  obtain ⟨r₂, hwrite, hx⟩ := bind_eq_ok.mp hx
  obtain ⟨r₃, htruncate, hx⟩ := bind_eq_ok.mp hx
  obtain ⟨r₄, hwrite', hres⟩ := map_eq_ok hx
  simp only [Prod.mk.injEq] at hres
  obtain ⟨hsome, hbefore, hafter⟩ := hres
  obtain ⟨a, rfl⟩ := Option.isSome_iff_exists.mp hsome
  have hrun : FileRun a k r₄.2.2 :=
    ((FileRun.start.write rfl (show 0 < 2 ^ 32 by decide) (by decide) hwrite).truncate htruncate).write rfl
      (show 0 < 2 ^ 32 by decide) (by decide) hwrite'
  obtain ⟨d, h, -⟩ := DirAt.of_createInode (memInit_rep _) hdir
  obtain ⟨hbs, -, hr, -⟩ := h.heap
  have hwf : k₀.machine.Wf := by
    obtain ⟨n, heap, mounts, -, -, -, heq, -⟩ := (blankStore.createInode_spec 0 .dir).of_ok hdir
    simp only at heq
    rw [heq]
    exact blankStore_wf
  obtain ⟨k'', hdelete, hpmm, -, hused⟩ := lifetime_returns_memory h hwf hr (by decide) hcreate hrun
  refine ⟨dir, k₀, a, k, _, hdir, hcreate, hrun, fun heq => ?_, k'', hdelete, hpmm, hused⟩
  rw [heq, hbefore] at hafter
  exact absurd hafter (by decide)

end AcornOS
