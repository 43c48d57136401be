/-
# A directory is an insertion-ordered map

The entries of a directory are chained nodes on the kernel heap.  `DirAt k rest dir d es` says that the
directory at `dir` consists of the entries `es`, in the order of the chain: each has its node, an inode
with private data and, if that is a file, a chain of blocks, and all these objects are different blocks
of the heap.

Every operation of `Store.lean` has one lemma over it: `DirAt.lookup`, `DirAt.create`, `DirAt.delete`,
`DirAt.readdir`.  **`directory_ordered_map`** puts them together over whole runs: after any sequence of
creations and deletions, failed ones included, the directory is the map that the successful ones
describe, in the order of creation.

The names have at most 63 characters, as those that `vfs.c` passes.  A longer one would be cut when it is
stored, and not be found again under its full length.
-/
import AcornOS.FileSystem.Store

namespace AcornOS

open Lib
open scoped List

/-! ## 1. The entries and what they own -/

/-- An entry of a directory: the address of its node, what is in the node, the inode it leads to, and the
blocks of that inode. -/
structure DirEntry where
  dentry : Nat
  val : ShadowfsDentry
  node : InodeNode
  blocks : List (Nat × PageBlock)

namespace DirEntry

def name (e : DirEntry) : CString := e.val.name

/-- The node in the chain of the directory. -/
def link (e : DirEntry) : Nat × ShadowfsDentry := (e.dentry, e.val)

/-- The objects that go with the inode. -/
def inodeObjs (e : DirEntry) : List Nat :=
  e.val.inode :: e.node.privateData :: e.blocks.map Prod.fst

/-- The objects that go with the entry. -/
def objs (e : DirEntry) : List Nat := e.dentry :: e.inodeObjs

/-- The inode of an entry is there, with its private data and its blocks. -/
structure At (k : Store) (e : DirEntry) : Prop where
  node : k.inodes e.val.inode = some e.node
  priv : ∃ p, k.privs e.node.privateData = some p ∧
    if e.node.type = .file then Linked k.blocks p.first e.blocks else e.blocks = []

theorem At.only {k k' : Store} {e : DirEntry} {xs : List Nat} (h : e.At k) (ho : Store.Only k k' xs)
    (hout : ∀ x ∈ e.inodeObjs, x ∉ xs) : e.At k' := by
  obtain ⟨p, hp, hblocks⟩ := h.priv
  have hinode : e.val.inode ∉ xs := hout _ (by simp [inodeObjs])
  have hpriv : e.node.privateData ∉ xs := hout _ (by simp [inodeObjs])
  have hblock : ∀ x ∈ e.blocks.map Prod.fst, k'.blocks x = k.blocks x := fun x hx =>
    ho.blocks x (hout x (List.mem_cons_of_mem _ (List.mem_cons_of_mem _ hx)))
  refine ⟨(ho.inodes _ hinode).trans h.node, p, (ho.privs _ hpriv).trans hp, ?_⟩
  split
  · rename_i hfile
    rw [if_pos hfile] at hblocks
    exact hblocks.congr hblock
  · rename_i hdir
    rwa [if_neg hdir] at hblocks

end DirEntry

/-- The directory at `dir` has the entries `es`; the heap holds `rest` besides. -/
structure DirAt (k : Store) (rest : List (Nat × Nat)) (dir : Nat) (d : InodeNode)
    (es : List DirEntry) : Prop where
  node : k.inodes dir = some d
  priv : ∃ first, k.privs d.privateData = some ⟨first, es.length⟩ ∧
    Linked k.dentries first (es.map DirEntry.link)
  entries : ∀ e ∈ es, e.At k
  names : (es.map DirEntry.name).Nodup
  short : ∀ e ∈ es, e.name.length < vfsMaxName
  heap : Heaped k.heap rest (dir :: d.privateData :: es.flatMap DirEntry.objs)

section DirAt

variable {k k' : Store} {rest : List (Nat × Nat)} {dir a : Nat} {d : InodeNode} {es : List DirEntry}
  {name : CString} {type : VfsType}

theorem DirAt.mem_objs {e : DirEntry} {x : Nat} (he : e ∈ es) (hx : x ∈ e.objs) :
    x ∈ es.flatMap DirEntry.objs := List.mem_flatMap.mpr ⟨e, he, hx⟩

/-- There are fewer entries than a walk has steps. -/
theorem DirAt.length_lt (h : DirAt k rest dir d es) : es.length < heapFuel := by
  have hlen := h.heap.length_lt
  have hflat : es.length ≤ (es.flatMap DirEntry.objs).length := by
    rw [List.length_flatMap]
    refine (Nat.le_of_eq (by simp)).trans (List.length_le_sum_of_one_le _ fun n hn => ?_)
    obtain ⟨e, -, rfl⟩ := List.mem_map.mp hn
    simp [DirEntry.objs]
  simp only [List.length_cons] at hlen
  omega

theorem DirAt.length_lt_two_pow (h : DirAt k rest dir d es) : es.length + 1 < 2 ^ 32 := by
  have hlen := h.length_lt
  have : heapFuel < 2 ^ 31 := by decide
  omega

/-- **Finding an entry.**  The walk stops at the entry with the name, or there is none. -/
theorem DirAt.findEntry (h : DirAt k rest dir d es) (name : CString) :
    (∃ pre e post n, es = pre ++ e :: post ∧ e.name = name ∧ k.dentries e.dentry = some ⟨e.val, n⟩ ∧
      k.findEntry d.privateData name =
        .ok (.found (lastAddr 0 (pre.map DirEntry.link)) e.dentry ⟨e.val, n⟩)) ∨
    ((∀ e ∈ es, e.name ≠ name) ∧ ∃ last, k.findEntry d.privateData name = .ok (.missing last)) := by
  obtain ⟨first, hp, hlinked⟩ := h.priv
  have hlen : (es.map DirEntry.link).length < heapFuel := by simpa using h.length_lt
  have hfind : k.findEntry d.privateData name =
      Store.ended (trail k.dentries (fun e => decide (e.name = name)) heapFuel 0 first) := by
    rw [Store.findEntry, Store.privAt_eq hp]
    rfl
  rcases @trail_spec _ _ (fun e : ShadowfsDentry => decide (e.name = name)) _ _ 0 _ hlinked hlen with
    ⟨pre, x, v, post, hsplit, -, hv, n, hn, htrail⟩ | ⟨hnone, htrail⟩
  · obtain ⟨pre', mid, rfl, rfl, hmid⟩ := List.map_eq_append_iff.mp hsplit
    obtain ⟨e, post', rfl, he, rfl⟩ := List.map_eq_cons_iff.mp hmid
    obtain ⟨rfl, rfl⟩ := Prod.mk.inj he
    exact Or.inl ⟨pre', e, post', n, rfl, of_decide_eq_true hv, hn, by rw [hfind, htrail]; rfl⟩
  · refine Or.inr ⟨fun e he hname => ?_, _, by rw [hfind, htrail]; rfl⟩
    have := hnone e.link (List.mem_map_of_mem he)
    exact absurd hname (of_decide_eq_false this)

/-- **`shadowfs_lookup`** -/
theorem DirAt.lookup (h : DirAt k rest dir d es) (name : CString) : k.shadowfsLookup dir name =
    .ok ((es.find? fun e => e.name = name).map fun e => e.val.inode) := by
  rw [Store.shadowfsLookup, Store.inodeAt_eq h.node]
  rcases h.findEntry name with ⟨pre, e, post, n, rfl, rfl, -, hfind⟩ | ⟨hnone, last, hfind⟩
  · have hpre : pre.find? (fun e' => decide (e'.name = e.name)) = none := by
      refine List.find?_eq_none.mpr fun e' he' => ?_
      have hnames := h.names
      rw [List.map_append, List.map_cons, List.nodup_append] at hnames
      simpa using hnames.2.2 _ (List.mem_map_of_mem he') _ List.mem_cons_self
    rw [List.find?_append, hpre, Option.none_or, List.find?_cons_of_pos (by simp)]
    exact bind_eq_ok.mpr ⟨d, rfl, bind_eq_ok.mpr ⟨_, hfind, rfl⟩⟩
  · rw [List.find?_eq_none.mpr (by simpa using hnone)]
    exact bind_eq_ok.mpr ⟨d, rfl, bind_eq_ok.mpr ⟨_, hfind, rfl⟩⟩

/-- What goes with the inode of an entry is neither the directory nor a node of its chain. -/
theorem DirAt.inodeObjs_out (h : DirAt k rest dir d es) {e : DirEntry} (he : e ∈ es) {x : Nat}
    (hx : x ∈ e.inodeObjs) : x ≠ dir ∧ x ≠ d.privateData ∧ ∀ e' ∈ es, x ≠ e'.dentry := by
  have hnodup := h.heap.nodup_objs
  rw [List.nodup_cons, List.nodup_cons, List.nodup_flatMap] at hnodup
  obtain ⟨hdir, hpriv, heach, hpair⟩ := hnodup
  have hmem := DirAt.mem_objs he (List.mem_cons_of_mem _ hx)
  refine ⟨fun h => hdir (List.mem_cons_of_mem _ (h ▸ hmem)), fun h => hpriv (h ▸ hmem), ?_⟩
  rintro e' he' rfl
  by_cases hsame : e = e'
  · subst hsame
    exact (List.nodup_cons.mp (heach e he)).1 hx
  · have hsymm : Std.Symm (Function.onFun List.Disjoint DirEntry.objs) :=
      ⟨fun _ _ hdisj => List.Disjoint.symm hdisj⟩
    exact hpair.forall he he' hsame (List.mem_cons_of_mem _ hx) List.mem_cons_self

/-! ## 2. Creating an entry -/

/-- **`shadowfs_create_inode`** -/
theorem Store.createInode_spec (k : Store) (sb : Nat) (type : VfsType) :
    Ensures (k.shadowfsCreateInode sb type) Fault.Halts fun r =>
      ∃ (n : InodeNode) (heap : KHeap) (mounts : Nat → ShadowfsMount),
        n.type = type ∧ n.size = 0 ∧ n.sb = sb ∧
        r.2 = { k with
          heap := heap
          mounts := mounts
          inodes := Function.update k.inodes r.1 (some n)
          privs := Function.update k.privs n.privateData (some ⟨0, 0⟩) } ∧
        Moves k.heap heap [] [r.1, n.privateData] := by
  refine (k.kmalloc_spec (show leastObject ≤ roundUp4 sizeofInode by decide)).bind fun r hr => ?_
  obtain ⟨inode, k₁⟩ := r
  obtain ⟨heap₁, rfl, hm₁⟩ := hr
  refine (Store.kmalloc_spec _ (show leastObject ≤ roundUp4 sizeofShadowfsInode by decide)).bind
    fun r hr => ensures_ok.mpr ?_
  obtain ⟨priv, k₂⟩ := r
  obtain ⟨heap₂, rfl, hm₂⟩ := hr
  exact ⟨⟨(k.mounts sb).nextInodeNum, type, 0, sb, priv⟩, heap₂, _, rfl, rfl, rfl, rfl, hm₁.alloc hm₂⟩

/-- **Step 8 of `shadowfs_create`.** -/
theorem Store.addEntry_spec {xs : List (Nat × ShadowfsDentry)} {first count priv x : Nat}
    {v : ShadowfsDentry} (hp : k.privs priv = some ⟨first, count⟩) (hl : Linked k.dentries first xs)
    (hlen : xs.length < heapFuel) (hx : k.dentries x = some ⟨v, 0⟩) (hx0 : x ≠ 0)
    (hout : x ∉ xs.map Prod.fst) : ∃ (p : PrivNode) (dentries : Nodes ShadowfsDentry),
      k.addEntry priv x = .ok { k with
        privs := Function.update k.privs priv (some p)
        dentries := dentries } ∧
      p.count = add32 count 1 ∧ Linked dentries p.first (xs ++ [(x, v)]) ∧
      ∀ y ∉ xs.map Prod.fst, dentries y = k.dentries y := by
  rw [addEntry, privAt_eq hp]
  rcases List.eq_nil_or_concat xs with rfl | ⟨ys, ⟨y, w⟩, rfl⟩
  · obtain rfl : first = 0 := hl
    exact ⟨⟨x, add32 count 1⟩, k.dentries, rfl, rfl, ⟨rfl, hx0, 0, hx, rfl⟩, fun _ _ => rfl⟩
  · rw [List.concat_eq_append] at *
    have hne : first ≠ 0 := fun h0 => by simpa using hl.first_eq_zero.mp h0
    have hys : ys.length < heapFuel := by
      rw [List.length_append, List.length_singleton] at hlen
      omega
    have hlast : toLast k.dentries heapFuel first = .found 0 y ⟨w, 0⟩ := toLast_spec hl hys
    have hxy : x ≠ y := by
      rintro rfl
      exact hout (by simp)
    refine ⟨⟨first, add32 count 1⟩, Function.update k.dentries y (some ⟨w, x⟩), ?_, rfl, ?_,
      fun z hz => Function.update_of_ne (fun h => hz (by simp [h])) _ _⟩
    · refine bind_eq_ok.mpr ⟨⟨first, count⟩, rfl, ?_⟩
      rw [if_neg hne, hlast]
      rfl
    · simpa using hl.snoc hx hx0 hxy

theorem kstrcpy_of_short (hname : name.length < vfsMaxName) : kstrcpy name vfsMaxName = name :=
  List.take_of_length_le (Nat.le_pred_of_lt hname)

/-- An entry more, whose objects are new. -/
theorem DirAt.snoc {e : DirEntry} {p : PrivNode} (h : DirAt k rest dir d es) (hname : e.name.length < vfsMaxName)
    (hnew : ∀ e' ∈ es, e'.name ≠ e.name) (he : e.At k')
    (hheap : Heaped k'.heap rest (dir :: d.privateData :: (es ++ [e]).flatMap DirEntry.objs))
    (ho : Store.Only k k' (d.privateData :: (es.map DirEntry.dentry ++ e.objs)))
    (hp : k'.privs d.privateData = some p) (hcount : p.count = es.length + 1)
    (hl : Linked k'.dentries p.first ((es ++ [e]).map DirEntry.link)) :
    DirAt k' rest dir d (es ++ [e]) := by
  have hnodup := hheap.nodup_objs
  rw [List.nodup_cons, List.nodup_cons, List.flatMap_append, List.flatMap_singleton,
    List.nodup_append] at hnodup
  obtain ⟨hdir, -, -, -, hfresh⟩ := hnodup
  have hdirNode : dir ∉ d.privateData :: (es.map DirEntry.dentry ++ e.objs) := by
    intro hmem
    refine hdir (List.mem_cons.mpr ((List.mem_cons.mp hmem).imp_right fun hmem => ?_))
    refine List.mem_append.mpr ((List.mem_append.mp hmem).imp_left fun hmem => ?_)
    obtain ⟨e', he', rfl⟩ := List.mem_map.mp hmem
    exact DirAt.mem_objs he' List.mem_cons_self
  refine ⟨(ho.inodes dir hdirNode).trans h.node, ⟨p.first, ?_, hl⟩, ?_, ?_, ?_, hheap⟩
  · rw [hp, List.length_append, List.length_singleton, ← hcount]
  · intro e' he'
    rcases List.mem_append.mp he' with he' | he'
    · refine (h.entries e' he').only ho fun x hx hmem => ?_
      obtain ⟨-, hpriv, hdentry⟩ := h.inodeObjs_out he' hx
      rcases List.mem_cons.mp hmem with rfl | hmem
      · exact hpriv rfl
      rcases List.mem_append.mp hmem with hmem | hmem
      · obtain ⟨e'', he'', rfl⟩ := List.mem_map.mp hmem
        exact hdentry e'' he'' rfl
      · exact hfresh x (DirAt.mem_objs he' (List.mem_cons_of_mem _ hx)) x hmem rfl
    · rw [List.mem_singleton.mp he']
      exact he
  · rw [List.map_append, List.map_singleton, List.nodup_append]
    refine ⟨h.names, List.nodup_singleton _, fun a ha b hb => ?_⟩
    obtain ⟨e', he', rfl⟩ := List.mem_map.mp ha
    rw [List.mem_singleton.mp hb]
    exact hnew e' he'
  · intro e' he'
    rcases List.mem_append.mp he' with he' | he'
    · exact h.short e' he'
    · rw [List.mem_singleton.mp he']
      exact hname

/-- **`shadowfs_create` of a new name**, if the quota is not used up. -/
theorem DirAt.create (h : DirAt k rest dir d es) (hname : name.length < vfsMaxName)
    (hnew : ∀ e ∈ es, e.name ≠ name) (hquota : (k.mounts d.sb).used < (k.mounts d.sb).quota) :
    Ensures (k.shadowfsCreate dir name type) Fault.Halts fun r => ∃ e : DirEntry,
      r.1 = some e.val.inode ∧ e.name = name ∧ e.node.type = type ∧ e.node.size = 0 ∧ e.blocks = [] ∧
      r.2.privs e.node.privateData = some ⟨0, 0⟩ ∧ r.2.machine = k.machine ∧
      Moves k.heap r.2.heap [] e.objs ∧ DirAt r.2 rest dir d (es ++ [e]) := by
  rw [Store.shadowfsCreate]
  refine Ensures.bind_ok (Store.inodeAt_eq h.node) ?_
  rw [if_neg (Nat.not_le.mpr hquota)]
  obtain ⟨last, hfind⟩ : ∃ last, k.findEntry d.privateData name = .ok (.missing last) := by
    rcases h.findEntry name with ⟨pre, e, post, n, rfl, he, -⟩ | ⟨-, hmissing⟩
    · exact absurd he (hnew e (by simp))
    · exact hmissing
  refine Ensures.bind_ok hfind ?_
  refine (k.createInode_spec d.sb type).bind fun r hr => ?_
  obtain ⟨inode, k₁⟩ := r
  simp only at hr
  obtain ⟨n, heap₁, mounts, hntype, hsize, -, rfl, hm₁⟩ := hr
  refine (Store.kmalloc_spec _ (show leastObject ≤ roundUp4 sizeofShadowfsDentry by decide)).bind
    fun r hr => ?_
  obtain ⟨dentry, k₂⟩ := r
  simp only at hr
  obtain ⟨heap₂, rfl, hm₂⟩ := hr
  have hmoves : Moves k.heap heap₂ [] [dentry, inode, n.privateData] :=
    (hm₁.alloc hm₂).perm (.refl _) (@List.perm_append_comm _ [inode, n.privateData] [dentry])
  have hh₂ : Heaped heap₂ rest (dentry :: inode :: n.privateData :: dir :: d.privateData ::
    es.flatMap DirEntry.objs) := hmoves rest _ h.heap
  rw [kstrcpy_of_short hname]
  obtain ⟨first, hp, hl⟩ := h.priv
  have hnodup := hh₂.nodup_objs
  simp only [List.nodup_cons, List.mem_cons, not_or] at hnodup
  obtain ⟨⟨-, -, -, -, hdentry⟩, -, ⟨-, hpriv, -⟩, -⟩ := hnodup
  have hout : dentry ∉ (es.map DirEntry.link).map Prod.fst := by
    intro hmem
    rw [List.map_map] at hmem
    obtain ⟨e, he, rfl⟩ := List.mem_map.mp hmem
    exact hdentry (DirAt.mem_objs he List.mem_cons_self)
  have hlen : (es.map DirEntry.link).length < heapFuel := by simpa using h.length_lt
  generalize hk₃ : (Store.mk k.machine heap₂ mounts (Function.update k.inodes inode (some n))
    (Function.update k.privs n.privateData (some ⟨0, 0⟩))
    (Function.update k.dentries dentry (some ⟨⟨name, inode⟩, 0⟩)) k.blocks) = k₃
  have hp₃ : k₃.privs d.privateData = some ⟨first, es.length⟩ := by
    rw [← hk₃]
    exact (Function.update_of_ne (Ne.symm hpriv) _ _).trans hp
  have hl₃ : Linked k₃.dentries first (es.map DirEntry.link) := by
    rw [← hk₃]
    exact hl.update_of_notMem hout
  have hx₃ : k₃.dentries dentry = some ⟨⟨name, inode⟩, 0⟩ := by
    rw [← hk₃]
    exact Function.update_self ..
  obtain ⟨p, dentries, hadd, hcount, hl', hframe⟩ := Store.addEntry_spec hp₃ hl₃ hlen hx₃
    (hh₂.ne_zero List.mem_cons_self) hout
  dsimp only
  rw [hk₃, hadd]
  refine ensures_ok.mpr ⟨⟨dentry, ⟨name, inode⟩, n, []⟩, rfl, rfl, hntype, hsize, rfl, ?_, ?_, ?_, ?_⟩
  · rw [← hk₃]
    exact (Function.update_of_ne hpriv _ _).trans (Function.update_self ..)
  · rw [← hk₃]
    rfl
  · rw [← hk₃]
    exact hmoves
  have hcount' : p.count = es.length + 1 := by
    rw [hcount, add32, Nat.mod_eq_of_lt h.length_lt_two_pow]
  have hperm : dentry :: inode :: n.privateData :: dir :: d.privateData :: es.flatMap DirEntry.objs ~
      dir :: d.privateData :: (es ++ [DirEntry.mk dentry ⟨name, inode⟩ n []]).flatMap DirEntry.objs := by
    rw [List.flatMap_append, List.flatMap_singleton]
    exact @List.perm_append_comm _ [dentry, inode, n.privateData] _
  subst hk₃
  refine h.snoc (p := p) hname hnew ⟨?_, ⟨0, 0⟩, ?_, ?_⟩ (hh₂.perm hperm)
    ⟨fun x hx => ?_, fun x hx => ?_, fun x hx => ?_, fun _ _ => rfl⟩ (Function.update_self ..) hcount' ?_
  · exact Function.update_self ..
  · exact (Function.update_of_ne hpriv _ _).trans (Function.update_self ..)
  · split <;> rfl
  · exact Function.update_of_ne (fun h => hx (by simp [DirEntry.objs, DirEntry.inodeObjs, h])) _ _
  · refine (Function.update_of_ne (fun h => hx (by simp [h])) _ _).trans ?_
    exact Function.update_of_ne (fun h => hx (by simp [DirEntry.objs, DirEntry.inodeObjs, h])) _ _
  · refine (hframe x fun hmem => hx ?_).trans
      (Function.update_of_ne (fun h => hx (by simp [DirEntry.objs, h])) _ _)
    rw [List.map_map] at hmem
    exact List.mem_cons_of_mem _ (List.mem_append_left _ hmem)
  · rw [List.map_append]
    exact hl'

/-- A creation that fails changes nothing: the quota is used up, or the name is taken. -/
theorem DirAt.create_fails (h : DirAt k rest dir d es)
    (hfail : (k.mounts d.sb).quota ≤ (k.mounts d.sb).used ∨ ∃ e ∈ es, e.name = name) :
    k.shadowfsCreate dir name type = .ok (none, k) := by
  rw [Store.shadowfsCreate, Store.inodeAt_eq h.node]
  refine bind_eq_ok.mpr ⟨d, rfl, ?_⟩
  split
  · rfl
  rename_i hquota
  obtain ⟨e, he, hname⟩ := hfail.resolve_left hquota
  rcases h.findEntry name with ⟨pre, e', post, n, rfl, -, -, hfind⟩ | ⟨hnone, -⟩
  · exact bind_eq_ok.mpr ⟨_, hfind, rfl⟩
  · exact absurd hname (hnone e he)

/-! ## 3. Deleting an entry -/

/-- **The unlinking in `shadowfs_delete`.** -/
theorem Store.removeEntry_spec {pre post : List (Nat × ShadowfsDentry)} {first count priv x n : Nat}
    {v : ShadowfsDentry} (hp : k.privs priv = some ⟨first, count⟩)
    (hl : Linked k.dentries first (pre ++ (x, v) :: post)) (hn : k.dentries x = some ⟨v, n⟩) :
    ∃ (p : PrivNode) (dentries : Nodes ShadowfsDentry),
      k.removeEntry priv (lastAddr 0 pre) n = .ok { k with
        privs := Function.update k.privs priv (some p)
        dentries := dentries } ∧
      p.count = sub32 count 1 ∧ Linked dentries p.first (pre ++ post) ∧
      ∀ y ∉ pre.map Prod.fst, dentries y = k.dentries y := by
  rw [removeEntry, privAt_eq hp]
  rcases List.eq_nil_or_concat pre with rfl | ⟨ys, ⟨y, w⟩, rfl⟩
  · obtain ⟨-, -, n', hn', hpost⟩ := hl
    obtain ⟨-, rfl⟩ := Node.mk.inj (Option.some.inj (hn.symm.trans hn'))
    exact ⟨⟨n, sub32 count 1⟩, k.dentries, rfl, rfl, hpost, fun _ _ => rfl⟩
  · rw [List.concat_eq_append, List.append_assoc, List.singleton_append] at *
    obtain ⟨hy0, -, m, hm, -⟩ := hl.at_mid
    refine ⟨⟨first, sub32 count 1⟩, Function.update k.dentries y (some ⟨w, n⟩), ?_, rfl, ?_,
      fun z hz => Function.update_of_ne (fun h => hz (by simp [h])) _ _⟩
    · refine bind_eq_ok.mpr ⟨⟨first, count⟩, rfl, ?_⟩
      rw [lastAddr_concat, if_pos hy0, setNext_eq hm]
      rfl
    · exact hl.unlink hn

/-- **Freeing the inode of an entry**, with everything that goes with it. -/
theorem DirEntry.At.freeInode {e : DirEntry} {objs : List Nat} (he : e.At k)
    (hh : Heaped k.heap rest (e.inodeObjs ++ objs)) : ∃ k', k.freeInode e.val.inode = .ok k' ∧
      Moves k.heap k'.heap e.inodeObjs [] ∧ Store.Only k k' e.inodeObjs ∧ k'.mounts = k.mounts ∧
      k'.machine = { k.machine with pmm := Store.freePagesOf k.machine.pmm e.blocks } := by
  obtain ⟨p, hp, hblocks⟩ := he.priv
  have hlen : e.blocks.length < heapFuel := by
    have := hh.length_lt
    simp only [inodeObjs, List.cons_append, List.length_cons, List.length_append, List.length_map] at this
    omega
  -- the blocks come first, then the private data, then the inode
  have hperm : e.inodeObjs ~ e.blocks.map Prod.fst ++ [e.node.privateData, e.val.inode] :=
    (List.Perm.swap _ _ _).trans (@List.perm_append_comm _ [e.node.privateData, e.val.inode] _)
  have hh₀ : Heaped k.heap rest (e.blocks.map Prod.fst ++ (e.node.privateData :: e.val.inode :: objs)) := by
    refine hh.perm ((hperm.append_right objs).trans ?_)
    rw [List.append_assoc]
    rfl
  obtain ⟨k₁, hrun, hm₁, ho₁, hmounts₁, hmachine₁⟩ : ∃ k₁, k.freeData e.node = .ok k₁ ∧
      Moves k.heap k₁.heap (e.blocks.map Prod.fst) [] ∧
      Store.Only k k₁ (e.blocks.map Prod.fst) ∧ k₁.mounts = k.mounts ∧
      k₁.machine = { k.machine with pmm := Store.freePagesOf k.machine.pmm e.blocks } := by
    unfold Store.freeData
    split
    · rename_i hfile
      rw [if_pos hfile] at hblocks
      obtain ⟨k₁, hrun, hm₁, ho₁, hmounts₁, hmachine₁⟩ :=
        @Store.freeBlocks_spec _ rest id _ heapFuel k _ hblocks hlen hh₀
      refine ⟨k₁, ?_, hm₁, ho₁, ?_, hmachine₁⟩
      · rw [Store.privAt_eq hp]
        exact hrun
      · rw [hmounts₁, Function.iterate_id]
        rfl
    · rename_i hdir
      rw [if_neg hdir] at hblocks
      rw [hblocks]
      exact ⟨k, rfl, Moves.refl _, Store.Only.refl k, rfl, rfl⟩
  have hh₁ := hm₁ rest _ hh₀
  obtain ⟨k₂, hrun₂, hm₂, ho₂, hmounts₂, hmachine₂⟩ := Store.kfree_spec hh₁
  obtain ⟨k₃, hrun₃, hm₃, ho₃, hmounts₃, hmachine₃⟩ := Store.kfree_spec (hm₂ rest _ hh₁)
  refine ⟨k₃, ?_, ?_, ((ho₁.trans ho₂).trans ho₃).mono ?_, ?_, ?_⟩
  · rw [Store.freeInode, Store.inodeAt_eq he.node]
    exact bind_eq_ok.mpr ⟨_, rfl, bind_eq_ok.mpr ⟨k₁, hrun, bind_eq_ok.mpr ⟨k₂, hrun₂, hrun₃⟩⟩⟩
  · refine ((hm₁.free hm₂).free hm₃).perm ?_ (.refl _)
    rw [List.append_assoc]
    exact hperm.symm
  · intro x hx
    simp only [List.mem_append, List.mem_singleton] at hx
    simp only [inodeObjs, List.mem_cons]
    tauto
  · rw [hmounts₃, hmounts₂, hmounts₁]
  · rw [hmachine₃, hmachine₂, hmachine₁]

/-- The objects of one entry, and those of the directory without it. -/
theorem flatMap_objs_perm (pre post : List DirEntry) (e : DirEntry) (l : List Nat) :
    l ++ (pre ++ e :: post).flatMap DirEntry.objs ~ e.objs ++ (l ++ (pre ++ post).flatMap DirEntry.objs) := by
  rw [List.flatMap_append, List.flatMap_cons, List.flatMap_append]
  refine (List.Perm.append_left l (List.perm_append_comm_assoc _ _ _)).trans ?_
  exact List.perm_append_comm_assoc _ _ _

theorem DirAt.notMem_objs {pre post : List DirEntry} {e : DirEntry} {x : Nat}
    (h : DirAt k rest dir d (pre ++ e :: post))
    (hx : x ∈ dir :: d.privateData :: (pre ++ post).flatMap DirEntry.objs) : x ∉ e.objs := by
  have hnodup := (flatMap_objs_perm pre post e [dir, d.privateData]).nodup_iff.mp h.heap.nodup_objs
  exact fun hmem => (List.nodup_append.mp hnodup).2.2 x hmem x hx rfl

/-- An entry less, of whose objects nothing is left. -/
theorem DirAt.erase {pre post : List DirEntry} {e : DirEntry} {p : PrivNode}
    (h : DirAt k rest dir d (pre ++ e :: post))
    (hheap : Heaped k'.heap rest (dir :: d.privateData :: (pre ++ post).flatMap DirEntry.objs))
    (ho : Store.Only k k' (d.privateData :: (pre.map DirEntry.dentry ++ e.objs)))
    (hp : k'.privs d.privateData = some p) (hcount : p.count = (pre ++ post).length)
    (hl : Linked k'.dentries p.first ((pre ++ post).map DirEntry.link)) :
    DirAt k' rest dir d (pre ++ post) := by
  have hsub : (pre ++ post).Sublist (pre ++ e :: post) :=
    (List.sublist_cons_self e post).append_left pre
  have hdir : dir ∉ d.privateData :: (pre.map DirEntry.dentry ++ e.objs) := by
    have hnodup := (List.nodup_cons.mp h.heap.nodup_objs).1
    intro hmem
    refine hnodup (List.mem_cons.mpr ((List.mem_cons.mp hmem).imp_right fun hmem => ?_))
    rcases List.mem_append.mp hmem with hmem | hmem
    · obtain ⟨e', he', rfl⟩ := List.mem_map.mp hmem
      exact DirAt.mem_objs (List.mem_append_left _ he') List.mem_cons_self
    · exact DirAt.mem_objs (List.mem_append_right _ List.mem_cons_self) hmem
  refine ⟨(ho.inodes dir hdir).trans h.node, ⟨p.first, by rw [hp, ← hcount], hl⟩, ?_, ?_, ?_, hheap⟩
  · intro e' he'
    refine (h.entries e' (hsub.subset he')).only ho fun x hx hmem => ?_
    obtain ⟨-, hpriv, hdentry⟩ := h.inodeObjs_out (hsub.subset he') hx
    rcases List.mem_cons.mp hmem with rfl | hmem
    · exact hpriv rfl
    rcases List.mem_append.mp hmem with hmem | hmem
    · obtain ⟨e'', he'', rfl⟩ := List.mem_map.mp hmem
      exact hdentry e'' (List.mem_append_left _ he'') rfl
    · refine h.notMem_objs ?_ hmem
      exact List.mem_cons_of_mem _ (List.mem_cons_of_mem _
        (DirAt.mem_objs he' (List.mem_cons_of_mem _ hx)))
  · exact h.names.sublist (hsub.map _)
  · exact fun e' he' => h.short e' (hsub.subset he')

/-- **`shadowfs_delete` of a name that is there.** -/
theorem DirAt.delete (h : DirAt k rest dir d es) (hmem : ∃ e ∈ es, e.name = name) :
    ∃ pre e post k', es = pre ++ e :: post ∧ e.name = name ∧
      k.shadowfsDelete dir name = .ok (0, k') ∧ DirAt k' rest dir d (pre ++ post) ∧
      Moves k.heap k'.heap e.objs [] ∧ k'.machine = { k.machine with pmm := Store.freePagesOf k.machine.pmm e.blocks } := by
  rcases h.findEntry name with ⟨pre, e, post, n, rfl, rfl, hn, hfind⟩ | ⟨hnone, -⟩
  swap
  · obtain ⟨e, he, hname⟩ := hmem
    exact absurd hname (hnone e he)
  obtain ⟨first, hp, hl⟩ := h.priv
  rw [List.map_append, List.map_cons] at hl
  obtain ⟨p, dentries, hremove, hcount, hl', hframe⟩ := Store.removeEntry_spec hp hl hn
  generalize hk₁ : ({ k with
    privs := Function.update k.privs d.privateData (some p), dentries := dentries } : Store) = k₁ at hremove
  have ho₁ : Store.Only k k₁ (d.privateData :: pre.map DirEntry.dentry) := by
    subst hk₁
    refine ⟨fun _ _ => rfl, fun x hx => Function.update_of_ne (fun h => hx (by simp [h])) _ _,
      fun x hx => hframe x fun hmem => hx ?_, fun _ _ => rfl⟩
    rw [List.map_map] at hmem
    exact List.mem_cons_of_mem _ hmem
  have hmid : e ∈ pre ++ e :: post := List.mem_append_right _ List.mem_cons_self
  have he₁ : e.At k₁ := by
    refine (h.entries e hmid).only ho₁ fun x hx hmem => ?_
    obtain ⟨-, hpriv, hdentry⟩ := h.inodeObjs_out hmid hx
    rcases List.mem_cons.mp hmem with rfl | hmem
    · exact hpriv rfl
    · obtain ⟨e', he', rfl⟩ := List.mem_map.mp hmem
      exact hdentry e' (List.mem_append_left _ he') rfl
  have hh₁ : Heaped k₁.heap rest (e.inodeObjs ++
      (e.dentry :: dir :: d.privateData :: (pre ++ post).flatMap DirEntry.objs)) := by
    subst hk₁
    exact (h.heap.perm (flatMap_objs_perm pre post e [dir, d.privateData])).perm List.perm_middle.symm
  obtain ⟨k₂, hfree, hm₂, ho₂, hmounts, hmachine⟩ := he₁.freeInode hh₁
  obtain ⟨k₃, hdentry, hm₃, ho₃, hmounts₃, hmachine₃⟩ :=
    @Store.kfree_spec (k₂.uncharge d.sb (sizeofShadowfsDentry + sizeofInode)) _ rest _ (hm₂ rest _ hh₁)
  have ho₂₃ : Store.Only k₁ k₃ e.objs :=
    (ho₂.trans ⟨ho₃.inodes, ho₃.privs, ho₃.dentries, ho₃.blocks⟩).mono fun x hx => by
      simpa [DirEntry.objs, or_comm] using hx
  refine ⟨pre, e, post, k₃, rfl, rfl, ?_, ?_, ?_, ?_⟩
  · rw [Store.shadowfsDelete, Store.inodeAt_eq h.node]
    refine bind_eq_ok.mpr ⟨d, rfl, bind_eq_ok.mpr ⟨_, hfind, ?_⟩⟩
    exact bind_eq_ok.mpr ⟨k₁, hremove, bind_eq_ok.mpr ⟨k₂, hfree, bind_eq_ok.mpr ⟨k₃, hdentry, rfl⟩⟩⟩
  · refine h.erase (p := p) (hm₃ rest _ (hm₂ rest _ hh₁)) (ho₁.trans ho₂₃) ?_ ?_ ?_
    · refine (ho₂₃.privs _ (h.notMem_objs (by simp))).trans ?_
      subst hk₁
      exact Function.update_self ..
    · have hlen := h.length_lt_two_pow
      rw [hcount, sub32]
      simp only [List.length_append, List.length_cons] at hlen ⊢
      omega
    · rw [List.map_append]
      have hsame : k₁.dentries = dentries := by
        subst hk₁
        rfl
      refine (hsame ▸ hl').congr fun x hx => ho₂₃.dentries x (h.notMem_objs ?_)
      rw [← List.map_append, List.map_map] at hx
      obtain ⟨e', he', rfl⟩ := List.mem_map.mp hx
      exact List.mem_cons_of_mem _ (List.mem_cons_of_mem _ (DirAt.mem_objs he' List.mem_cons_self))
  · subst hk₁
    exact (hm₂.free hm₃).perm (@List.perm_append_comm _ e.inodeObjs [e.dentry]) (.refl _)
  · rw [hmachine₃]
    subst hk₁
    exact hmachine

/-- A deletion that fails changes nothing. -/
theorem DirAt.delete_fails (h : DirAt k rest dir d es) (hnone : ∀ e ∈ es, e.name ≠ name) :
    k.shadowfsDelete dir name = .ok (-1, k) := by
  rw [Store.shadowfsDelete, Store.inodeAt_eq h.node]
  refine bind_eq_ok.mpr ⟨d, rfl, ?_⟩
  rcases h.findEntry name with ⟨pre, e, post, n, rfl, he, -⟩ | ⟨-, last, hfind⟩
  · exact absurd he (hnone e (by simp))
  · exact bind_eq_ok.mpr ⟨_, hfind, rfl⟩

/-! ## 4. Reading a directory -/

/-- The walk of `shadowfs_readdir` finds the entry at the position. -/
theorem Store.entryAt_spec {m : Nodes ShadowfsDentry} {position : Nat} :
    ∀ {xs : List (Nat × ShadowfsDentry)} {fuel index a : Nat}, Linked m a xs → xs.length < fuel →
      index + xs.length < 2 ^ 32 → index ≤ position →
      entryAt m fuel position index a = .ok (xs[position - index]?.map Prod.snd)
  | [], fuel + 1, index, a, hl, _, _, _ => by
    rw [entryAt, if_pos (show a = 0 from hl)]
    rfl
  | (x, v) :: xs, fuel + 1, index, a, hl, hfuel, hindex, hle => by
    obtain ⟨rfl, hx, n, hn, hxs⟩ := hl
    rw [List.length_cons] at hfuel hindex
    rw [entryAt, if_neg hx, hn]
    by_cases hhere : index = position
    · simp [hhere]
    · have hnext : add32 index 1 = index + 1 := Nat.mod_eq_of_lt (by omega)
      simp only [if_neg hhere, hnext]
      rw [entryAt_spec hxs (by omega) (by omega) (by omega),
        show position - index = position - (index + 1) + 1 by omega, List.getElem?_cons_succ]

/-- What `shadowfs_readdir` says of an entry. -/
def DirEntry.shown (e : DirEntry) : Dentry := ⟨e.name, e.val.inode, e.node.type⟩

/-- **`shadowfs_readdir`** -/
theorem DirAt.readdir (h : DirAt k rest dir d es) (position : Nat) (flags : BitVec 32) :
    k.shadowfsReaddir ⟨dir, position, flags⟩ = .ok (es[position]?.map DirEntry.shown,
      ⟨dir, if position < es.length then position + 1 else position, flags⟩) := by
  obtain ⟨first, hp, hl⟩ := h.priv
  have hlen := h.length_lt
  have hpow := h.length_lt_two_pow
  have hat : Store.entryAt k.dentries heapFuel position 0 first =
      .ok (es[position]?.map DirEntry.val) := by
    rw [Store.entryAt_spec hl (by simpa using hlen) (by simp; omega) (Nat.zero_le _), Nat.sub_zero,
      List.getElem?_map, Option.map_map]
    rfl
  rw [Store.shadowfsReaddir, Store.inodeAt_eq h.node]
  refine bind_eq_ok.mpr ⟨d, rfl, ?_⟩
  rw [Store.privAt_eq hp]
  refine bind_eq_ok.mpr ⟨_, rfl, bind_eq_ok.mpr ⟨_, hat, ?_⟩⟩
  cases hget : es[position]? with
  | none =>
    rw [if_neg (Nat.not_lt.mpr (List.getElem?_eq_none_iff.mp hget))]
    rfl
  | some e =>
    have hlt := (List.getElem?_eq_some_iff.mp hget).1
    have he := List.mem_of_getElem? hget
    have hname : kstrcpy e.val.name vfsMaxName = e.name := kstrcpy_of_short (h.short e he)
    rw [if_pos hlt]
    simp only [Option.map_some]
    rw [Store.inodeAt_eq (h.entries e he).node, hname]
    refine bind_eq_ok.mpr ⟨_, rfl, ?_⟩
    rw [add32, Nat.mod_eq_of_lt (by omega)]
    rfl

/-- `shadowfs_readdir` again and again, until it returns 0. -/
def Store.readdirAll (k : Store) : Nat → File → Except Fault (List Dentry)
  | 0, _ => .error .diverge
  | fuel + 1, file => do
    let (dentry, file) ← k.shadowfsReaddir file
    match dentry with
    | none => .ok []
    | some dentry => (k.readdirAll fuel file).map (dentry :: ·)

/-- **A scan returns every entry once, in the order of the chain.** -/
theorem DirAt.readdirAll (h : DirAt k rest dir d es) (flags : BitVec 32) : ∀ (n position : Nat),
    position + n = es.length →
      k.readdirAll (n + 1) ⟨dir, position, flags⟩ = .ok ((es.drop position).map DirEntry.shown)
  | 0, position, hpos => by
    rw [Store.readdirAll, h.readdir, List.getElem?_eq_none (by omega), List.drop_eq_nil_of_le (by omega)]
    rfl
  | n + 1, position, hpos => by
    have hlt : position < es.length := by omega
    rw [Store.readdirAll, h.readdir, List.getElem?_eq_getElem hlt, if_pos hlt,
      List.drop_eq_getElem_cons hlt]
    refine bind_eq_ok.mpr ⟨_, rfl, ?_⟩
    simp only [Option.map_some]
    rw [h.readdirAll flags n (position + 1) (by omega)]
    rfl

end DirAt

/-! ## 5. Whole runs -/

/-- What a call that succeeds does to a directory. -/
inductive DirEvent where
  | created (name : CString) (inode : Nat)
  | deleted (name : CString)
deriving Repr, DecidableEq

/-- The inode of the last successful creation of a name, if it has not been deleted since. -/
def lastCreated (events : List DirEvent) (name : CString) : Option Nat :=
  events.foldl (fun last event =>
    match event with
    | .created n inode => if n = name then some inode else last
    | .deleted n => if n = name then none else last) none

/-- What was created and has not been deleted since, in the order of creation. -/
def surviving (events : List DirEvent) : List (CString × Nat) :=
  events.foldl (fun m event =>
    match event with
    | .created n inode => m ++ [(n, inode)]
    | .deleted n => m.filter (·.1 ≠ n)) []

/-- A sequence of calls on one directory, with what the successful ones have done. -/
inductive DirRun (dir : Nat) (k : Store) : List DirEvent → Store → Prop
  | start : DirRun dir k [] k
  | create {events : List DirEvent} {k' k'' : Store} {name : CString} {type : VfsType} {inode : Nat}
      (h : DirRun dir k events k') (hname : name.length ≤ 63)
      (hok : k'.shadowfsCreate dir name type = .ok (some inode, k'')) :
      DirRun dir k (events ++ [.created name inode]) k''
  | createFails {events : List DirEvent} {k' k'' : Store} {name : CString} {type : VfsType}
      (h : DirRun dir k events k') (hname : name.length ≤ 63)
      (hok : k'.shadowfsCreate dir name type = .ok (none, k'')) : DirRun dir k events k''
  | mkdir {events : List DirEvent} {k' k'' : Store} {name : CString} {inode : Nat}
      (h : DirRun dir k events k') (hname : name.length ≤ 63)
      (hok : k'.shadowfsMkdir dir name = .ok (0, k''))
      (hinode : k'.shadowfsCreate dir name .dir = .ok (some inode, k'')) :
      DirRun dir k (events ++ [.created name inode]) k''
  | mkdirFails {events : List DirEvent} {k' k'' : Store} {name : CString}
      (h : DirRun dir k events k') (hname : name.length ≤ 63)
      (hok : k'.shadowfsMkdir dir name = .ok (-1, k'')) : DirRun dir k events k''
  | delete {events : List DirEvent} {k' k'' : Store} {name : CString}
      (h : DirRun dir k events k') (hname : name.length ≤ 63)
      (hok : k'.shadowfsDelete dir name = .ok (0, k'')) :
      DirRun dir k (events ++ [.deleted name]) k''
  | deleteFails {events : List DirEvent} {k' k'' : Store} {name : CString}
      (h : DirRun dir k events k') (hname : name.length ≤ 63)
      (hok : k'.shadowfsDelete dir name = .ok (-1, k'')) : DirRun dir k events k''

/-- The directory is the insertion-ordered map that the events describe. -/
structure OrderedMap (k : Store) (dir : Nat) (events : List DirEvent) : Prop where
  distinct : ((surviving events).map Prod.fst).Nodup
  entries : ∃ d first xs, k.inodes dir = some d ∧ k.privs d.privateData = some ⟨first, xs.length⟩ ∧
    Linked k.dentries first xs ∧ xs.map (fun x => (x.2.name, x.2.inode)) = surviving events
  lookup : ∀ name, k.shadowfsLookup dir name = .ok (lastCreated events name)
  existing : ∀ name type, lastCreated events name ≠ none →
    k.shadowfsCreate dir name type = .ok (none, k) ∧ k.shadowfsMkdir dir name = .ok (-1, k)
  new : ∀ d name type, k.inodes dir = some d → (k.mounts d.sb).used < (k.mounts d.sb).quota →
    name.length ≤ 63 → lastCreated events name = none →
    Ensures (k.shadowfsCreate dir name type) Fault.Halts fun r => r.1 ≠ none
  delete : ∀ name, if lastCreated events name = none then k.shadowfsDelete dir name = .ok (-1, k)
    else ∃ k', k.shadowfsDelete dir name = .ok (0, k')
  readdir : ∀ flags, ∃ ds, k.readdirAll ((surviving events).length + 1) ⟨dir, 0, flags⟩ = .ok ds ∧
    ds.map (fun e => (e.name, e.inode)) = surviving events

section Runs

variable {k k' : Store} {rest : List (Nat × Nat)} {dir : Nat} {d : InodeNode} {es : List DirEntry}
  {name : CString} {type : VfsType} {events : List DirEvent}

/-- A name and its inode. -/
def DirEntry.pair (e : DirEntry) : CString × Nat := (e.name, e.val.inode)

def DirEntry.event (e : DirEntry) : DirEvent := .created e.name e.val.inode

/-- The entries are those that the events have left. -/
structure Described (es : List DirEntry) (events : List DirEvent) : Prop where
  surviving : surviving events = es.map DirEntry.pair
  last : ∀ name, lastCreated events name =
    (es.find? fun e => e.name = name).map fun e => e.val.inode

theorem surviving_concat (events : List DirEvent) (event : DirEvent) :
    surviving (events ++ [event]) = match event with
      | .created n inode => surviving events ++ [(n, inode)]
      | .deleted n => (surviving events).filter (·.1 ≠ n) := by
  rw [surviving, List.foldl_append]
  cases event <;> rfl

theorem lastCreated_concat (events : List DirEvent) (event : DirEvent) (name : CString) :
    lastCreated (events ++ [event]) name = match event with
      | .created n inode => if n = name then some inode else lastCreated events name
      | .deleted n => if n = name then none else lastCreated events name := by
  rw [lastCreated, List.foldl_append]
  cases event <;> rfl

theorem Described.created {e : DirEntry} (h : Described es events) (hnew : ∀ e' ∈ es, e'.name ≠ e.name) :
    Described (es ++ [e]) (events ++ [e.event]) := by
  refine ⟨?_, fun name => ?_⟩
  · rw [surviving_concat, h.surviving, List.map_append]
    rfl
  · rw [lastCreated_concat, List.find?_append, h.last]
    by_cases hname : e.name = name
    · have hnone : es.find? (fun e' => decide (e'.name = name)) = none :=
        List.find?_eq_none.mpr fun e' he' => by simpa [hname] using hnew e' he'
      simp [DirEntry.event, hname, hnone]
    · simp [DirEntry.event, hname]

theorem Described.deleted {pre post : List DirEntry} {e : DirEntry}
    (h : Described (pre ++ e :: post) events) (hnames : ((pre ++ e :: post).map DirEntry.name).Nodup) :
    Described (pre ++ post) (events ++ [.deleted e.name]) := by
  have hother : ∀ e' ∈ pre ++ post, e'.name ≠ e.name := by
    have hperm : (pre ++ e :: post).map DirEntry.name ~ e.name :: (pre ++ post).map DirEntry.name :=
      List.perm_middle.map DirEntry.name
    intro e' he' heq
    have hnodup := hperm.nodup_iff.mp hnames
    exact (List.nodup_cons.mp hnodup).1 (heq ▸ List.mem_map_of_mem he')
  refine ⟨?_, fun name => ?_⟩
  · rw [surviving_concat, h.surviving]
    dsimp only
    rw [List.filter_map]
    refine congrArg _ ?_
    have hself : ∀ l : List DirEntry, (∀ e' ∈ l, e'.name ≠ e.name) →
        l.filter ((fun x : CString × Nat => decide (x.1 ≠ e.name)) ∘ DirEntry.pair) = l :=
      fun l hl => List.filter_eq_self.mpr fun e' he' => decide_eq_true (hl e' he')
    rw [List.filter_append, List.filter_cons_of_neg (by simp [DirEntry.pair]),
      hself pre fun e' he' => hother e' (List.mem_append_left _ he'),
      hself post fun e' he' => hother e' (List.mem_append_right _ he')]
  · rw [lastCreated_concat, h.last]
    by_cases hname : e.name = name
    · have hnone : (pre ++ post).find? (fun e' => decide (e'.name = name)) = none :=
        List.find?_eq_none.mpr fun e' he' => by simpa [← hname] using hother e' he'
      simp only [if_pos hname, hnone, Option.map_none]
    · simp [hname, List.find?_append]

/-- The law in terms of the entries. -/
theorem DirAt.orderedMap (h : DirAt k rest dir d es) (hd : Described es events) :
    OrderedMap k dir events := by
  obtain ⟨first, hp, hl⟩ := h.priv
  have hmem : ∀ {name}, lastCreated events name ≠ none → ∃ e ∈ es, e.name = name := by
    intro name hne
    rw [hd.last, Ne, Option.map_eq_none_iff, List.find?_eq_none] at hne
    push Not at hne
    obtain ⟨e, he, hname⟩ := hne
    exact ⟨e, he, of_decide_eq_true hname⟩
  have hout : ∀ {name}, lastCreated events name = none → ∀ e ∈ es, e.name ≠ name := by
    intro name hnone e he
    rw [hd.last, Option.map_eq_none_iff, List.find?_eq_none] at hnone
    simpa using hnone e he
  refine ⟨?_, ⟨d, first, es.map DirEntry.link, h.node, ?_, hl, ?_⟩, fun name => ?_,
    fun name type hne => ?_, fun d' name type hd' hquota hname hnone => ?_, fun name => ?_,
    fun flags => ⟨es.map DirEntry.shown, ?_, ?_⟩⟩
  · rw [hd.surviving, List.map_map]
    exact h.names
  · rw [hp, List.length_map]
  · rw [hd.surviving, List.map_map]
    rfl
  · rw [h.lookup, hd.last]
  · have hfail : ∀ type, k.shadowfsCreate dir name type = .ok (none, k) := fun type =>
      h.create_fails (Or.inr (hmem hne))
    refine ⟨hfail type, ?_⟩
    rw [Store.shadowfsMkdir, hfail .dir]
    rfl
  · obtain rfl := Option.some.inj (hd'.symm.trans h.node)
    refine (h.create (Nat.lt_succ_of_le hname) (hout hnone) hquota).mono (fun _ he => he) fun r hr => ?_
    obtain ⟨e, he, -⟩ := hr
    rw [he]
    exact Option.some_ne_none _
  · split
    · rename_i hnone
      exact h.delete_fails (hout hnone)
    · rename_i hne
      obtain ⟨-, -, -, k', -, -, hok, -⟩ := h.delete (hmem hne)
      exact ⟨k', hok⟩
  · rw [hd.surviving, List.length_map]
    exact h.readdirAll flags es.length 0 (Nat.zero_add _)
  · rw [hd.surviving, List.map_map]
    rfl

/-- A creation that succeeds is one of a new name. -/
theorem DirAt.created (h : DirAt k rest dir d es) (hd : Described es events) (hname : name.length ≤ 63)
    {inode : Nat} (hok : k.shadowfsCreate dir name type = .ok (some inode, k')) :
    ∃ es', DirAt k' rest dir d es' ∧ Described es' (events ++ [.created name inode]) := by
  have hnot : ¬ ((k.mounts d.sb).quota ≤ (k.mounts d.sb).used ∨ ∃ e ∈ es, e.name = name) := fun hfail => by
    rw [h.create_fails hfail] at hok
    cases hok
  rw [not_or, not_exists, Nat.not_le] at hnot
  have hnew : ∀ e ∈ es, e.name ≠ name := fun e he heq => hnot.2 e ⟨he, heq⟩
  obtain ⟨e, hinode, rfl, -, -, -, -, -, -, hdir⟩ :=
    (h.create (Nat.lt_succ_of_le hname) hnew hnot.1).of_ok hok
  obtain rfl := Option.some.inj hinode
  exact ⟨es ++ [e], hdir, hd.created hnew⟩

/-- ... and one that fails changes nothing. -/
theorem DirAt.create_none (h : DirAt k rest dir d es) (hname : name.length ≤ 63)
    (hok : k.shadowfsCreate dir name type = .ok (none, k')) : k' = k := by
  by_cases hfail : (k.mounts d.sb).quota ≤ (k.mounts d.sb).used ∨ ∃ e ∈ es, e.name = name
  · rw [h.create_fails hfail] at hok
    exact (Prod.mk.inj (Except.ok.inj hok)).2.symm
  · rw [not_or, not_exists, Nat.not_le] at hfail
    obtain ⟨e, hinode, -⟩ := (h.create (Nat.lt_succ_of_le hname)
      (fun e he heq => hfail.2 e ⟨he, heq⟩) hfail.1).of_ok hok
    cases hinode

/-- A deletion that succeeds takes out one entry, and one that fails none. -/
theorem DirAt.deleted (h : DirAt k rest dir d es) (hd : Described es events) {r : Int}
    (hok : k.shadowfsDelete dir name = .ok (r, k')) : (r = -1 ∧ k' = k) ∨
      (r = 0 ∧ ∃ es', DirAt k' rest dir d es' ∧ Described es' (events ++ [.deleted name])) := by
  by_cases hmem : ∃ e ∈ es, e.name = name
  · obtain ⟨pre, e, post, k₁, rfl, rfl, hok', hdir, -⟩ := h.delete hmem
    obtain ⟨rfl, rfl⟩ := Prod.mk.inj (Except.ok.inj (hok'.symm.trans hok))
    exact Or.inr ⟨rfl, pre ++ post, hdir, hd.deleted h.names⟩
  · rw [h.delete_fails fun e he heq => hmem ⟨e, he, heq⟩] at hok
    obtain ⟨rfl, rfl⟩ := Prod.mk.inj (Except.ok.inj hok)
    exact Or.inl ⟨rfl, rfl⟩

theorem DirRun.described (h : DirAt k rest dir d es) (hd : Described es events) {events' : List DirEvent}
    (hrun : DirRun dir k events' k') :
    ∃ es', DirAt k' rest dir d es' ∧ Described es' (events ++ events') := by
  induction hrun with
  | start => exact ⟨es, h, by simpa using hd⟩
  | create _ hname hok ih =>
    obtain ⟨es', h', hd'⟩ := ih
    rw [← List.append_assoc]
    exact h'.created hd' hname hok
  | createFails _ hname hok ih =>
    obtain ⟨es', h', hd'⟩ := ih
    obtain rfl := h'.create_none hname hok
    exact ⟨es', h', hd'⟩
  | mkdir _ hname hok hinode ih =>
    obtain ⟨es', h', hd'⟩ := ih
    rw [← List.append_assoc]
    exact h'.created hd' hname hinode
  | mkdirFails _ hname hok ih =>
    obtain ⟨es', h', hd'⟩ := ih
    obtain ⟨⟨newDir, k₁⟩, hcreate, hres⟩ := bind_eq_ok.mp hok
    obtain ⟨hnone, rfl⟩ := Prod.mk.inj (Except.ok.inj hres)
    cases newDir with
    | none =>
      obtain rfl := h'.create_none hname hcreate
      exact ⟨es', h', hd'⟩
    | some inode => simp at hnone
  | delete _ hname hok ih =>
    obtain ⟨es', h', hd'⟩ := ih
    rw [← List.append_assoc]
    rcases h'.deleted hd' hok with ⟨hr, -⟩ | ⟨-, hdone⟩
    · cases hr
    · exact hdone
  | deleteFails _ hname hok ih =>
    obtain ⟨es', h', hd'⟩ := ih
    rcases h'.deleted hd' hok with ⟨-, rfl⟩ | ⟨hr, -⟩
    · exact ⟨es', h', hd'⟩
    · cases hr

/-- The entries of a directory, told as events. -/
theorem DirAt.described (h : DirAt k rest dir d es) : Described es (es.map DirEntry.event) := by
  have hnames := h.names
  clear h
  induction es using List.reverseRecOn with
  | nil => exact ⟨rfl, fun _ => rfl⟩
  | append_singleton es e ih =>
    rw [List.map_append, List.map_singleton, List.nodup_append] at hnames
    rw [List.map_append, List.map_singleton]
    refine (ih hnames.1).created fun e' he' => ?_
    exact hnames.2.2 _ (List.mem_map_of_mem he') _ (List.mem_singleton.mpr rfl)

/-- **A directory is an insertion-ordered finite map.**  It is what the creations and deletions have
made of it, those that have led to the entries `es` and those of the run. -/
theorem directory_ordered_map (h : DirAt k rest dir d es) (hrun : DirRun dir k events k') :
    OrderedMap k' dir (es.map DirEntry.event ++ events) := by
  obtain ⟨es', h', hd'⟩ := hrun.described h h.described
  exact h'.orderedMap hd'

/-- A new directory has no entries. -/
theorem DirAt.of_createInode {bs : List Block} {sb : Nat} (hr : Rep k.heap bs)
    (hok : k.shadowfsCreateInode sb .dir = .ok (dir, k')) :
    ∃ d, DirAt k' (inUse headerSize heapStart bs) dir d [] ∧ d.type = .dir := by
  obtain ⟨n, heap, mounts, htype, -, -, hk', hm⟩ := (k.createInode_spec sb .dir).of_ok hok
  simp only at hk' hm
  subst hk'
  have hh : Heaped heap (inUse headerSize heapStart bs) [dir, n.privateData] := hm _ _ hr.heaped
  refine ⟨n, ⟨Function.update_self .., ⟨0, Function.update_self .., rfl⟩, ?_, List.nodup_nil, ?_, ?_⟩, htype⟩
  · exact fun e he => absurd he List.not_mem_nil
  · exact fun e he => absurd he List.not_mem_nil
  · exact hh

end Runs

/-- An empty heap, 56 free pages, and a mount with a quota of 1 MB. -/
def blankStore : Store where
  machine := ⟨fun _ => 0, ⟨fun b => if b = 0 then 0xFF else 0, 64, 8⟩⟩
  heap := memInit fun _ => ⟨0, false, 0⟩
  mounts _ := ⟨1048576, 0, 1⟩
  inodes _ := none
  privs _ := none
  dentries _ := none
  blocks _ := none

/-- A directory is created, and a file `a` and a file `b` in it. -/
theorem blankStore_files : ∃ dir k a k₁ b k₂, blankStore.shadowfsCreateInode 0 .dir = .ok (dir, k) ∧
    k.shadowfsCreate dir [0x61] .file = .ok (some a, k₁) ∧
    k₁.shadowfsCreate dir [0x62] .file = .ok (some b, k₂) := by
  have hok : (((blankStore.shadowfsCreateInode 0 .dir) >>= fun r =>
      r.2.shadowfsCreate r.1 [0x61] .file >>= fun r₁ =>
        (r₁.2.shadowfsCreate r.1 [0x62] .file).map fun r₂ => r₁.1.isSome && r₂.1.isSome).toOption) =
      some true := by
    decide +kernel
  obtain ⟨r, hdir, hx⟩ := bind_eq_ok.mp (toOption_eq_some.mp hok)
  obtain ⟨r₁, ha, hx⟩ := bind_eq_ok.mp hx
  obtain ⟨r₂, hb, hsome⟩ := map_eq_ok hx
  rw [Bool.and_eq_true] at hsome
  obtain ⟨a, ha'⟩ := Option.isSome_iff_exists.mp hsome.1
  obtain ⟨b, hb'⟩ := Option.isSome_iff_exists.mp hsome.2
  refine ⟨r.1, r.2, a, r₁.2, b, r₂.2, hdir, ?_, ?_⟩
  · rw [ha]
    exact congrArg Except.ok (Prod.ext ha' rfl)
  · rw [hb]
    exact congrArg Except.ok (Prod.ext hb' rfl)

theorem directory_ordered_map_one_file : ∃ dir k inode k',
    blankStore.shadowfsCreateInode 0 .dir = .ok (dir, k) ∧
      k.shadowfsCreate dir [0x61] .file = .ok (some inode, k') ∧
      OrderedMap k' dir [.created [0x61] inode] := by
  obtain ⟨dir, k, inode, k', -, -, hdir, hfile, -⟩ := blankStore_files
  obtain ⟨d, h, -⟩ := DirAt.of_createInode (memInit_rep _) hdir
  exact ⟨dir, k, inode, k', hdir, hfile,
    directory_ordered_map h (DirRun.create DirRun.start (by decide) hfile)⟩

end AcornOS
