/-
# Objects on the kernel heap

`Memory/Mem.lean` says what `kmalloc` and `kfree` do to the list of blocks.  Code that keeps structures
on the heap needs less than the list: `Heaped h rest objs` says that the heap is in order, that `objs`
are pointers it has handed out, to objects of at least `leastObject` bytes, and that the blocks in use
besides theirs are `rest`.

`kmalloc` adds a pointer to `objs`, `kfree` takes one away, and `rest` never changes; so when all of
`objs` have been freed, the heap is the one from before the first of them was allocated
(`Heaped.restored`).
-/
import AcornOS.Memory.Mem

namespace AcornOS

open Lib
open scoped List

/-- The pointer to the data of a block in use. -/
def dataPtr (y : Nat × Nat) : Nat := y.1 + headerSize

/-- The size of the smallest object. -/
def leastObject : Nat := 16

/-- The pointers `objs` have been handed out and not been freed; the other blocks in use, with their sizes,
are `rest`. -/
def Heaped (h : KHeap) (rest : List (Nat × Nat)) (objs : List Nat) : Prop :=
  ∃ bs ys, Rep h bs ∧ inUse headerSize heapStart bs ~ ys ++ rest ∧ ys.map dataPtr ~ objs ∧
    ∀ y ∈ ys, leastObject ≤ y.2

section Heaped

variable {h h' : KHeap} {rest : List (Nat × Nat)} {objs objs' : List Nat} {bs : List Block}
  {p size : Nat}

/-- A heap in order, with nothing singled out. -/
theorem Rep.heaped (hr : Rep h bs) : Heaped h (inUse headerSize heapStart bs) [] :=
  ⟨bs, [], hr, .refl _, .refl _, fun _ hy => absurd hy List.not_mem_nil⟩

theorem Heaped.perm (hh : Heaped h rest objs) (hp : objs ~ objs') : Heaped h rest objs' := by
  obtain ⟨bs, ys, hr, huse, hys, hsize⟩ := hh
  exact ⟨bs, ys, hr, huse, hys.trans hp, hsize⟩

/-- Nothing but the pointers and the other blocks is in use. -/
theorem Heaped.perm_inUse (hh : Heaped h rest objs) : ∃ bs, Rep h bs ∧
    (inUse headerSize heapStart bs).map dataPtr ~ objs ++ rest.map dataPtr := by
  obtain ⟨bs, ys, hr, huse, hys, -⟩ := hh
  refine ⟨bs, hr, (huse.map dataPtr).trans ?_⟩
  rw [List.map_append]
  exact hys.append_right _

/-- The pointers are all different, and none of them belongs to another block. -/
theorem Heaped.nodup (hh : Heaped h rest objs) : (objs ++ rest.map dataPtr).Nodup := by
  obtain ⟨bs, hr, hperm⟩ := hh.perm_inUse
  rw [← hperm.nodup_iff]
  have hnodup := (inUse_nodup headerSize_pos heapStart bs).map (add_left_injective headerSize)
  rwa [List.map_map] at hnodup

theorem Heaped.nodup_objs (hh : Heaped h rest objs) : objs.Nodup :=
  (List.nodup_append.mp hh.nodup).1

theorem Heaped.ne_zero (hh : Heaped h rest objs) (hp : p ∈ objs) : p ≠ 0 := by
  obtain ⟨bs, hr, hperm⟩ := hh.perm_inUse
  obtain ⟨y, -, rfl⟩ := List.mem_map.mp (hperm.mem_iff.mpr (List.mem_append_left _ hp))
  have := headerSize_pos
  unfold dataPtr
  omega

/-- The arena has no room for more. -/
theorem Heaped.length_mul_le (hh : Heaped h rest objs) :
    objs.length * (headerSize + leastObject) ≤ heapSize := by
  obtain ⟨bs, ys, hr, huse, hys, hsize⟩ := hh
  have hsum : ((ys ++ rest).map fun y => headerSize + y.2).sum ≤ heapSize := by
    rw [← (huse.map _).sum_eq, ← hr.span]
    exact sum_inUse_le_span heapStart bs
  rw [List.map_append, List.sum_append] at hsum
  have hlen : ys.length * (headerSize + leastObject) ≤ (ys.map fun y => headerSize + y.2).sum := by
    rw [← smul_eq_mul, ← List.length_map (fun y : Nat × Nat => headerSize + y.2)]
    refine List.card_nsmul_le_sum _ _ fun n hn => ?_
    obtain ⟨y, hy, rfl⟩ := List.mem_map.mp hn
    exact Nat.add_le_add_left (hsize y hy) _
  rw [← hys.length_eq, List.length_map]
  exact hlen.trans ((Nat.le_add_right _ _).trans hsum)

theorem Heaped.length_lt (hh : Heaped h rest objs) : objs.length < heapFuel := by
  have hlen := hh.length_mul_le
  unfold headerSize leastObject heapSize at hlen
  unfold heapFuel heapSize headerSize
  omega

/-- Between `h` and `h'` the objects `gone` were freed, and the objects `new` were handed out. -/
def Moves (h h' : KHeap) (gone new : List Nat) : Prop :=
  ∀ rest objs, Heaped h rest (gone ++ objs) → Heaped h' rest (new ++ objs)

theorem Moves.refl (h : KHeap) : Moves h h [] [] := fun _ _ hh => hh

theorem Moves.perm {gone new gone' new' : List Nat} (hm : Moves h h' gone new) (hgone : gone ~ gone')
    (hnew : new ~ new') : Moves h h' gone' new' := fun rest objs hh =>
  (hm rest objs (hh.perm (hgone.symm.append_right objs))).perm (hnew.append_right objs)

/-- Two allocations. -/
theorem Moves.alloc {h'' : KHeap} {new new' : List Nat} (hm : Moves h h' [] new) (hm' : Moves h' h'' [] new') :
    Moves h h'' [] (new ++ new') := fun rest objs hh =>
  (hm' rest (new ++ objs) (hm rest objs hh)).perm (by
    rw [List.append_assoc]
    exact List.perm_append_comm_assoc _ _ _)

/-- Two frees. -/
theorem Moves.free {h'' : KHeap} {gone gone' : List Nat} (hm : Moves h h' gone [])
    (hm' : Moves h' h'' gone' []) : Moves h h'' (gone ++ gone') [] := fun rest objs hh =>
  hm' rest objs (hm rest (gone' ++ objs) (by rwa [← List.append_assoc]))

/-- Some of what was handed out is freed again. -/
theorem Moves.back {h'' : KHeap} {gone new : List Nat} (hm : Moves h h' [] (gone ++ new))
    (hm' : Moves h' h'' gone []) : Moves h h'' [] new := fun rest objs hh =>
  hm' rest (new ++ objs) (by rw [← List.append_assoc]; exact hm rest objs hh)

/-- **`kmalloc`** hands out a new object. -/
theorem moves_kmalloc (hleast : leastObject ≤ roundUp4 size) (hok : kmalloc h size = .ok (p, h')) :
    Moves h h' [] [p] := by
  intro rest objs hh
  obtain ⟨bs, ys, hr, huse, hys, hsize⟩ := hh
  obtain ⟨bs', x, n, hr', rfl, hn, huse'⟩ := (kmalloc_spec hr).of_ok hok
  refine ⟨bs', (x, n) :: ys, hr', huse'.trans (huse.cons _), hys.cons _, ?_⟩
  exact List.forall_mem_cons.mpr ⟨hleast.trans hn, hsize⟩

/-- `kfree` of an object, over what the heap holds besides. -/
theorem Heaped.kfree_one (hh : Heaped h rest (p :: objs)) :
    ∃ h', kfree h p = .ok h' ∧ Heaped h' rest objs := by
  obtain ⟨bs, ys, hr, huse, hys, hsize⟩ := hh
  obtain ⟨⟨x, n⟩, hy, rfl⟩ := List.mem_map.mp (hys.mem_iff.mpr List.mem_cons_self)
  obtain ⟨h', bs', hok, hr', huse'⟩ :=
    kfree_spec hr (huse.mem_iff.mpr (List.mem_append_left rest hy))
  refine ⟨h', hok, bs', ys.erase (x, n), hr', ?_, ?_, fun y hy => hsize y (List.mem_of_mem_erase hy)⟩
  · have := huse.trans ((List.perm_cons_erase hy).append_right rest)
    exact (List.perm_cons _).mp (huse'.symm.trans this)
  · have := ((List.perm_cons_erase hy).map dataPtr).symm.trans hys
    exact (List.perm_cons _).mp this

/-- **`kfree`** of an object returns, and the object is gone. -/
theorem Heaped.kfree (hh : Heaped h rest (p :: objs)) :
    ∃ h', kfree h p = .ok h' ∧ Moves h h' [p] [] := by
  obtain ⟨h', hok, -⟩ := hh.kfree_one
  refine ⟨h', hok, fun rest objs hh => ?_⟩
  obtain ⟨h'', hok', hh'⟩ := hh.kfree_one
  rwa [Except.ok.inj (hok.symm.trans hok')]

/-- **With all objects freed the heap is as before**: the same list of blocks, and the same count of
bytes. -/
theorem Heaped.restored (hr : Rep h bs) (hh : Heaped h' (inUse headerSize heapStart bs) []) :
    Rep h' bs := by
  obtain ⟨bs', ys, hr', huse, hys, -⟩ := hh
  obtain rfl : ys = [] := List.map_eq_nil_iff.mp hys.eq_nil
  obtain rfl := hr.unique hr' huse
  exact hr'

end Heaped

end AcornOS
