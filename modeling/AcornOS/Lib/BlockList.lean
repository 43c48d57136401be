/-
# Heaps laid out as a chain of headed blocks

The common data structure of simple allocators.  A region of memory is cut into blocks; each
block is a header followed by its data, the headers form one singly linked list in address
order, and a header records the data size, whether the block is free, and the address of the
next header (0 at the end).

Two views, and the theorems that connect them.

* **The memory view**: `Headers`, a map from addresses to headers.  Allocators read and write
  this one, and `search` is their first-fit loop over it.
* **The list view**: a `List Block` of sizes and flags.  `Chained hs m a bs nxt` says that
  memory `m` holds exactly the blocks `bs` from address `a` on, each header `hs` bytes long,
  every `next` field being the address at which the block ends (`nxt` for the last).

An in-place edit is proved once, as `Chained.replace`: rewrite the headers of a middle segment,
keep its total length, and the rest of the chain is untouched.  Splitting a block, merging two
and flipping a flag are instances.
-/
import AcornOS.Lib.Run

namespace AcornOS.Lib

open scoped List

/-! ## 1. Headers and chains -/

/-- A block header. -/
structure Header where
  size : Nat
  free : Bool
  next : Nat
deriving Repr, DecidableEq

/-- Memory seen as headers: the header that starts at an address. -/
abbrev Headers := Nat → Header

/-- A block of the list view: the size of its data and whether it is free. -/
structure Block where
  size : Nat
  free : Bool
deriving Repr, DecidableEq

/-- The bytes a list of blocks occupies, headers included. -/
def span (hs : Nat) : List Block → Nat
  | [] => 0
  | b :: bs => hs + b.size + span hs bs

/-- The address of the next header: `a` if a block follows, NULL if none does. -/
def link (a : Nat) (bs : List Block) : Nat := if bs = [] then 0 else a

/-- `Chained hs m a bs nxt`: from address `a` on, `m` holds the blocks `bs` one right behind
the other, each linked to the next and the last one to `nxt`. -/
def Chained (hs : Nat) (m : Headers) : Nat → List Block → Nat → Prop
  | _, [], _ => True
  | a, b :: bs, nxt =>
    m a = ⟨b.size, b.free, if bs = [] then nxt else a + hs + b.size⟩ ∧
      Chained hs m (a + hs + b.size) bs nxt

section Chains

variable {hs : Nat} {m m' : Headers} {a nxt : Nat} {bs pre post : List Block}

@[simp] theorem span_nil : span hs [] = 0 := rfl

@[simp] theorem span_cons (b : Block) (bs : List Block) :
    span hs (b :: bs) = hs + b.size + span hs bs := rfl

@[simp] theorem span_append (xs ys : List Block) :
    span hs (xs ++ ys) = span hs xs + span hs ys := by
  induction xs with
  | nil => simp
  | cons b xs ih => simp [ih]; omega

@[simp] theorem link_nil (a : Nat) : link a [] = 0 := rfl

@[simp] theorem link_cons (a : Nat) (b : Block) (bs : List Block) : link a (b :: bs) = a := by
  simp [link]

/-- A nonempty list of blocks occupies at least its first header. -/
theorem le_span_of_ne_nil (h : bs ≠ []) : hs ≤ span hs bs := by
  cases bs with
  | nil => exact absurd rfl h
  | cons b bs => simp only [span_cons]; omega

/-- At least a header's worth of room for every block. -/
theorem length_mul_le_span (bs : List Block) : bs.length * hs ≤ span hs bs := by
  induction bs with
  | nil => simp
  | cons b bs ih =>
    simp only [List.length_cons, span_cons, Nat.add_mul, Nat.one_mul]
    omega

theorem chained_append :
    Chained hs m a (pre ++ post) nxt ↔
      Chained hs m a pre (if post = [] then nxt else a + span hs pre) ∧
        Chained hs m (a + span hs pre) post nxt := by
  induction pre generalizing a with
  | nil => simp [Chained]
  | cons b pre ih =>
    have haddr : a + hs + b.size + span hs pre = a + (hs + b.size + span hs pre) := by omega
    rw [List.cons_append, Chained, Chained, ih, span_cons, haddr, and_assoc]
    refine and_congr_left fun _ => ?_
    by_cases hpre : pre = []
    · subst hpre
      by_cases hpost : post = []
      · simp [hpost]
      · simp only [List.nil_append, hpost, span_nil, ite_true, if_false, Nat.add_zero]
        rw [Nat.add_assoc]
    · have hne : pre ++ post ≠ [] := by simp [hpre]
      rw [if_neg hne, if_neg hpre]

/-- A chain reads only the addresses it occupies. -/
theorem Chained.congr (h : Chained hs m a bs nxt) (hpos : 0 < hs)
    (hagree : ∀ x, a ≤ x → x < a + span hs bs → m' x = m x) : Chained hs m' a bs nxt := by
  induction bs generalizing a with
  | nil => trivial
  | cons b bs ih =>
    obtain ⟨hhead, htail⟩ := h
    simp only [span_cons] at hagree
    refine ⟨?_, ih htail fun x hlo hhi => hagree x (by omega) (by omega)⟩
    rw [hagree a (Nat.le_refl a) (by omega), hhead]

/-- **In-place edits.**  Rewriting the headers of a middle segment, without changing where the
segment ends, leaves a chain with that segment replaced. -/
theorem Chained.replace (mid mid' : List Block)
    (h : Chained hs m a (pre ++ (mid ++ post)) nxt) (hpos : 0 < hs) (hmid : mid ≠ [])
    (hmid' : mid' ≠ []) (hspan : span hs mid' = span hs mid)
    (hagree : ∀ x, (x < a + span hs pre ∨ a + span hs pre + span hs mid ≤ x) → m' x = m x)
    (hnew : Chained hs m' (a + span hs pre) mid'
      (if post = [] then nxt else a + span hs pre + span hs mid)) :
    Chained hs m' a (pre ++ (mid' ++ post)) nxt := by
  rw [chained_append, chained_append] at h ⊢
  obtain ⟨hpre, -, hpost⟩ := h
  have hne : mid ++ post ≠ [] := by simp [hmid]
  have hne' : mid' ++ post ≠ [] := by simp [hmid']
  rw [if_neg hne] at hpre
  rw [if_neg hne', hspan]
  refine ⟨hpre.congr hpos fun x _ hhi => hagree x (Or.inl hhi), hnew, ?_⟩
  exact hpost.congr hpos fun x hlo _ => hagree x (Or.inr hlo)

/-- The header of a block in the middle of a chain. -/
theorem Chained.at_mid {b : Block} (h : Chained hs m a (pre ++ b :: post) nxt) :
    m (a + span hs pre) = ⟨b.size, b.free,
      if post = [] then nxt else a + span hs pre + hs + b.size⟩ :=
  (chained_append.mp h).2.1

/-- ... and of the block behind it. -/
theorem Chained.at_next {b c : Block} (h : Chained hs m a (pre ++ b :: c :: post) nxt) :
    m (a + span hs pre + hs + b.size) = ⟨c.size, c.free,
      if post = [] then nxt else a + span hs pre + hs + b.size + hs + c.size⟩ := by
  have h' : Chained hs m a ((pre ++ [b]) ++ c :: post) nxt := by simpa using h
  have := h'.at_mid
  simpa [← Nat.add_assoc] using this

end Chains

/-! ## 2. Where the blocks are -/

/-- The blocks of a list with the addresses of their headers. -/
def placed (hs : Nat) : Nat → List Block → List (Nat × Block)
  | _, [] => []
  | a, b :: bs => (a, b) :: placed hs (a + hs + b.size) bs

/-- The blocks in use, each as the address of its header and the size of its data. -/
def inUse (hs : Nat) : Nat → List Block → List (Nat × Nat)
  | _, [] => []
  | a, b :: bs =>
    if b.free then inUse hs (a + hs + b.size) bs
    else (a, b.size) :: inUse hs (a + hs + b.size) bs

section Placed

variable {hs : Nat} {a : Nat} {bs xs ys : List Block}

theorem placed_append (a : Nat) (xs ys : List Block) :
    placed hs a (xs ++ ys) = placed hs a xs ++ placed hs (a + span hs xs) ys := by
  induction xs generalizing a with
  | nil => simp [placed]
  | cons b xs ih =>
    rw [List.cons_append, placed, placed, ih, List.cons_append, span_cons]
    rw [show a + hs + b.size + span hs xs = a + (hs + b.size + span hs xs) by omega]

theorem inUse_append (a : Nat) (xs ys : List Block) :
    inUse hs a (xs ++ ys) = inUse hs a xs ++ inUse hs (a + span hs xs) ys := by
  induction xs generalizing a with
  | nil => simp [inUse]
  | cons b xs ih =>
    rw [List.cons_append, inUse, inUse, ih, span_cons]
    rw [show a + hs + b.size + span hs xs = a + (hs + b.size + span hs xs) by omega]
    split <;> simp

/-- The blocks in use, with their headers, have room in the region. -/
theorem sum_inUse_le_span (a : Nat) (bs : List Block) :
    ((inUse hs a bs).map fun y => hs + y.2).sum ≤ span hs bs := by
  induction bs generalizing a with
  | nil => exact Nat.le_refl _
  | cons b bs ih =>
    rw [inUse, span_cons]
    split
    · exact (ih _).trans (Nat.le_add_left _ _)
    · rw [List.map_cons, List.sum_cons]
      exact Nat.add_le_add_left (ih _) _

/-- A block lies between the ends of the region. -/
theorem placed_bounds {x : Nat × Block} (hx : x ∈ placed hs a bs) :
    a ≤ x.1 ∧ x.1 + hs + x.2.size ≤ a + span hs bs := by
  induction bs generalizing a with
  | nil => cases hx
  | cons b bs ih =>
    rcases List.mem_cons.mp hx with rfl | hx
    · simp only [span_cons]
      omega
    · have := ih hx
      simp only [span_cons]
      omega

/-- **Blocks do not overlap**, headers included, and stand in address order. -/
theorem placed_pairwise (a : Nat) (bs : List Block) :
    (placed hs a bs).Pairwise fun x y => x.1 + hs + x.2.size ≤ y.1 := by
  induction bs generalizing a with
  | nil => exact List.Pairwise.nil
  | cons b bs ih =>
    refine List.pairwise_cons.mpr ⟨fun y hy => ?_, ih _⟩
    exact (placed_bounds hy).1

/-- A block in use, and its place in the list. -/
theorem mem_inUse_iff {x n : Nat} :
    (x, n) ∈ inUse hs a bs ↔
      ∃ pre post, bs = pre ++ ⟨n, false⟩ :: post ∧ x = a + span hs pre := by
  induction bs generalizing a with
  | nil => simp [inUse]
  | cons b bs ih =>
    rw [inUse]
    constructor
    · intro h
      split at h
      · obtain ⟨pre, post, rfl, hx⟩ := ih.mp h
        exact ⟨b :: pre, post, rfl, by rw [hx, span_cons]; omega⟩
      · rename_i hfree
        rcases List.mem_cons.mp h with heq | h
        · cases heq
          refine ⟨[], bs, ?_, rfl⟩
          have : b.free = false := by simpa using hfree
          rw [← this]
          rfl
        · obtain ⟨pre, post, rfl, hx⟩ := ih.mp h
          exact ⟨b :: pre, post, rfl, by rw [hx, span_cons]; omega⟩
    · rintro ⟨pre, post, heq, hx⟩
      cases pre with
      | nil =>
        obtain ⟨rfl, rfl⟩ := List.cons.inj heq
        simp [hx]
      | cons c pre =>
        obtain ⟨rfl, rfl⟩ := List.cons.inj heq
        have hmem : (x, n) ∈ inUse hs (a + hs + b.size) (pre ++ ⟨n, false⟩ :: post) :=
          ih.mpr ⟨pre, post, rfl, by rw [hx, span_cons]; omega⟩
        split
        · exact hmem
        · exact List.mem_cons_of_mem _ hmem

theorem mem_placed_of_mem_inUse {x n : Nat} (h : (x, n) ∈ inUse hs a bs) :
    (x, (⟨n, false⟩ : Block)) ∈ placed hs a bs := by
  obtain ⟨pre, post, rfl, rfl⟩ := mem_inUse_iff.mp h
  rw [placed_append]
  exact List.mem_append_right _ List.mem_cons_self

theorem inUse_bounds {x n : Nat} (h : (x, n) ∈ inUse hs a bs) : a ≤ x :=
  (placed_bounds (mem_placed_of_mem_inUse h)).1

/-- Two placed blocks are the same one or lie apart. -/
theorem placed_apart {x y : Nat × Block} (hx : x ∈ placed hs a bs)
    (hy : y ∈ placed hs a bs) (hne : x.1 ≠ y.1) :
    x.1 + hs + x.2.size ≤ y.1 ∨ y.1 + hs + y.2.size ≤ x.1 := by
  induction bs generalizing a with
  | nil => cases hx
  | cons b bs ih =>
    rcases List.mem_cons.mp hx with rfl | hx
    · rcases List.mem_cons.mp hy with rfl | hy
      · exact absurd rfl hne
      · exact Or.inl (placed_bounds hy).1
    · rcases List.mem_cons.mp hy with rfl | hy
      · exact Or.inr (placed_bounds hx).1
      · exact ih hx hy

/-- Headers of different blocks in use stand at different addresses. -/
theorem inUse_nodup (hpos : 0 < hs) (a : Nat) (bs : List Block) :
    ((inUse hs a bs).map Prod.fst).Nodup := by
  induction bs generalizing a with
  | nil => exact List.nodup_nil
  | cons b bs ih =>
    rw [inUse]
    split
    · exact ih _
    · refine List.nodup_cons.mpr ⟨?_, ih _⟩
      intro hmem
      obtain ⟨⟨x, n⟩, hx, hxa⟩ := List.mem_map.mp hmem
      have := (placed_bounds (mem_placed_of_mem_inUse hx)).1
      simp only at hxa this
      omega

/-- The blocks in use are listed in address order. -/
theorem inUse_sorted (hpos : 0 < hs) (a : Nat) (bs : List Block) :
    (inUse hs a bs).Pairwise fun x y => x.1 < y.1 := by
  induction bs generalizing a with
  | nil => exact List.Pairwise.nil
  | cons b bs ih =>
    rw [inUse]
    split
    · exact ih _
    · refine List.pairwise_cons.mpr ⟨fun y hy => ?_, ih _⟩
      have hle := inUse_bounds hy
      simp only
      omega

/-- ... so that the same blocks are the same list. -/
theorem inUse_eq_of_perm (hpos : 0 < hs) {a a' : Nat} {bs bs' : List Block}
    (h : (inUse hs a bs).Perm (inUse hs a' bs')) : inUse hs a bs = inUse hs a' bs' := by
  refine h.eq_of_pairwise (fun x y _ _ hxy hyx => ?_) (inUse_sorted hpos a bs)
    (inUse_sorted hpos a' bs')
  omega

/-- **Taking a free block**, whole or with a free rest, puts exactly one block in use.  Read the
other way round, this is freeing a block. -/
theorem inUse_take {pre post rest : List Block} {b : Block} {n : Nat} (hb : b.free = true)
    (hrest : ∀ c ∈ rest, c.free = true) (hspan : span hs (⟨n, false⟩ :: rest) = span hs [b]) :
    inUse hs a (pre ++ (⟨n, false⟩ :: rest ++ post)) ~
      (a + span hs pre, n) :: inUse hs a (pre ++ b :: post) := by
  have hnone : ∀ c, inUse hs c rest = [] := by
    clear hspan
    induction rest with
    | nil => exact fun c => rfl
    | cons r rest ih =>
      intro c
      rw [inUse, if_pos (hrest r (by simp)), ih fun x hx => hrest x (by simp [hx])]
  rw [inUse_append, inUse_append, inUse_append, hspan, inUse, inUse, if_pos hb, hnone]
  simp only [Bool.false_eq_true, if_false, span_cons, span_nil, Nat.add_zero, Nat.add_assoc,
    List.singleton_append]
  exact List.perm_middle

/-- No block in use has the address of a free one: taking it would put two there. -/
theorem notMem_inUse_of_free (hpos : 0 < hs) {pre post : List Block} {b : Block}
    (hb : b.free = true) : a + span hs pre ∉ (inUse hs a (pre ++ b :: post)).map Prod.fst := by
  have htake := @inUse_take hs a pre post [] b b.size hb (by simp) rfl
  have hnodup := (htake.map Prod.fst).nodup_iff.mp (inUse_nodup hpos a _)
  exact (List.nodup_cons.mp hnodup).1

/-- Two regions that do not overlap. -/
def Apart (a n b k : Nat) : Prop := a + n ≤ b ∨ b + k ≤ a

/-- A free block lies apart from every block in use. -/
theorem apart_inUse_of_free (hpos : 0 < hs) {pre post : List Block} {b : Block} (hb : b.free = true)
    {y : Nat × Nat} (hy : y ∈ inUse hs a (pre ++ b :: post)) :
    Apart (a + span hs pre) (hs + b.size) y.1 (hs + y.2) := by
  have hfree : (a + span hs pre, b) ∈ placed hs a (pre ++ b :: post) := by
    rw [placed_append]
    exact List.mem_append_right _ List.mem_cons_self
  have hne : a + span hs pre ≠ y.1 := by
    intro heq
    apply notMem_inUse_of_free hpos hb
    rw [heq]
    exact List.mem_map_of_mem hy
  have := placed_apart hfree (mem_placed_of_mem_inUse hy) hne
  simp only [Apart] at this ⊢
  omega

/-- The data region of a block in use: it starts behind the header and is as long as the block's
`size`. -/
def DataRegion (hs a : Nat) (bs : List Block) (p n : Nat) : Prop :=
  ∃ x, (x, n) ∈ inUse hs a bs ∧ p = x + hs

/-- **Data regions overlap neither one another nor a header**, and lie inside the heap. -/
theorem DataRegion.apart {p n : Nat} (hp : DataRegion hs a bs p n) :
    (∀ q k, DataRegion hs a bs q k → q ≠ p → Apart p n q k) ∧
      (∀ y ∈ placed hs a bs, Apart p n y.1 hs) ∧ a ≤ p ∧ p + n ≤ a + span hs bs := by
  obtain ⟨x, hx, rfl⟩ := hp
  have hpx := mem_placed_of_mem_inUse hx
  refine ⟨?_, ?_, ?_⟩
  · rintro q k ⟨y, hy, rfl⟩ hne
    have := placed_apart hpx (mem_placed_of_mem_inUse hy) (by simp only; omega)
    simp only [Apart] at this ⊢
    omega
  · rintro ⟨y, b⟩ hy
    by_cases hxy : x = y
    · subst hxy
      exact Or.inr (Nat.le_refl _)
    · have := placed_apart hpx hy hxy
      simp only [Apart] at this ⊢
      omega
  · have := placed_bounds hpx
    simp only at this
    omega

end Placed

/-! ## 3. The first-fit search -/

/-- How a search ends: at a block, or behind the last one. -/
inductive Found where
  | hit (block : Nat)
  | miss (last : Nat)
deriving Repr, DecidableEq

/-- `while(current) { if(current->free && current->size >= want) ..; prev = current;
current = current->next; }`.  The first argument bounds the number of blocks visited; `none`
means the list is longer than that. -/
def search (m : Headers) (want : Nat) : Nat → Nat → Nat → Option Found
  | 0, _, _ => none
  | n + 1, prev, current =>
    if current = 0 then some (.miss prev)
    else if (m current).free ∧ want ≤ (m current).size then some (.hit current)
    else search m want n current (m current).next

/-- A free block with room for `want` bytes. -/
def Block.Fits (want : Nat) (b : Block) : Prop := b.free = true ∧ want ≤ b.size

instance (want : Nat) (b : Block) : Decidable (b.Fits want) :=
  inferInstanceAs (Decidable (_ ∧ _))

/-- The header of the last block, or `prev` if there is none. -/
def lastHeader (hs prev a : Nat) : List Block → Nat
  | [] => prev
  | b :: bs => lastHeader hs a (a + hs + b.size) bs

@[simp] theorem lastHeader_append (hs prev a : Nat) (pre : List Block) (b : Block) :
    lastHeader hs prev a (pre ++ [b]) = a + span hs pre := by
  induction pre generalizing prev a with
  | nil => rfl
  | cons c pre ih =>
    rw [List.cons_append, lastHeader, ih, span_cons]
    omega

/-- **What a search finds**, on a chain that starts at a non-NULL address: the first block that
fits, or none. -/
theorem search_spec {hs : Nat} {m : Headers} {want : Nat} :
    ∀ (bs : List Block) (fuel prev a : Nat), 0 < a → bs.length < fuel → Chained hs m a bs 0 →
      (∃ pre b post, bs = pre ++ b :: post ∧ b.Fits want ∧ (∀ x ∈ pre, ¬ x.Fits want) ∧
        search m want fuel prev (link a bs) = some (.hit (a + span hs pre))) ∨
      ((∀ x ∈ bs, ¬ x.Fits want) ∧
        search m want fuel prev (link a bs) = some (.miss (lastHeader hs prev a bs)))
  | [], fuel + 1, prev, a, _, _, _ => Or.inr ⟨by simp, by simp [search, lastHeader]⟩
  | b :: bs, fuel + 1, prev, a, ha, hfuel, hch => by
    obtain ⟨hhead, htail⟩ := hch
    have hne : a ≠ 0 := by omega
    have hnext : (m a).next = link (a + hs + b.size) bs := by
      rw [hhead]
      rfl
    by_cases hfit : b.Fits want
    · refine Or.inl ⟨[], b, bs, rfl, hfit, by simp, ?_⟩
      have hfits : (m a).free = true ∧ want ≤ (m a).size := by
        rw [hhead]
        exact hfit
      rw [link_cons, search, if_neg hne, if_pos hfits]
      simp
    · have hstep : search m want (fuel + 1) prev (link a (b :: bs))
          = search m want fuel a (link (a + hs + b.size) bs) := by
        rw [link_cons, search, if_neg hne, hnext]
        refine if_neg ?_
        rw [hhead]
        exact hfit
      have hlen : bs.length < fuel := by
        simp only [List.length_cons] at hfuel
        omega
      rw [hstep]
      rcases search_spec bs fuel a (a + hs + b.size) (by omega) hlen htail with
        ⟨pre, c, post, rfl, hc, hpre, hres⟩ | ⟨hnone, hres⟩
      · refine Or.inl ⟨b :: pre, c, post, rfl, hc, ?_, ?_⟩
        · intro x hx
          rcases List.mem_cons.mp hx with rfl | hx
          · exact hfit
          · exact hpre x hx
        · rw [hres, span_cons]
          congr 2
          omega
      · refine Or.inr ⟨?_, hres⟩
        intro x hx
        rcases List.mem_cons.mp hx with rfl | hx
        · exact hfit
        · exact hnone x hx

/-! ## 4. In-place edits -/

section Edits

variable {hs : Nat} {m : Headers} {a nxt : Nat} {pre post : List Block} {b c : Block}

/-- Flipping the flag of a block. -/
theorem Chained.setFree (h : Chained hs m a (pre ++ b :: post) nxt) (hpos : 0 < hs) (f : Bool) :
    Chained hs (Function.update m (a + span hs pre) { m (a + span hs pre) with free := f }) a
      (pre ++ { b with free := f } :: post) nxt := by
  have hb := h.at_mid
  refine Chained.replace [b] [{ b with free := f }] h hpos (by simp)
    (by simp) (by simp) ?_ ?_
  · intro x hx
    simp only [span_cons, span_nil] at hx
    exact Function.update_of_ne (by omega) _ _
  · refine ⟨?_, trivial⟩
    rw [Function.update_self, hb]
    simp only [span_cons, span_nil, ite_true, Nat.add_zero, Nat.add_assoc]

/-- Cutting a block in two: the first `s` bytes of its data stay with it, and what is left
behind a new header becomes a free block. -/
theorem Chained.split (h : Chained hs m a (pre ++ b :: post) nxt) (hpos : 0 < hs) {s : Nat}
    (hroom : s + hs ≤ b.size) (f : Bool) :
    Chained hs
      (Function.update
        (Function.update m (a + span hs pre + hs + s)
          ⟨b.size - s - hs, true, (m (a + span hs pre)).next⟩)
        (a + span hs pre) ⟨s, f, a + span hs pre + hs + s⟩)
      a (pre ++ ⟨s, f⟩ :: ⟨b.size - s - hs, true⟩ :: post) nxt := by
  have hb := h.at_mid
  refine Chained.replace [b] [⟨s, f⟩, ⟨b.size - s - hs, true⟩] h hpos
    (by simp) (by simp) ?_ ?_ ?_
  · simp only [span_cons, span_nil]
    omega
  · intro x hx
    simp only [span_cons, span_nil] at hx
    rw [Function.update_of_ne (by omega), Function.update_of_ne (by omega)]
  · refine ⟨?_, ?_, trivial⟩
    · rw [Function.update_self]
      simp
    · rw [Function.update_of_ne (by omega), Function.update_self, hb]
      simp only [span_cons, span_nil, ite_true, Nat.add_zero]
      congr 2
      omega

/-- Merging a block with the one behind it. -/
theorem Chained.merge (h : Chained hs m a (pre ++ b :: c :: post) nxt) (hpos : 0 < hs) :
    Chained hs
      (Function.update m (a + span hs pre)
        ⟨b.size + (hs + c.size), b.free, (m (a + span hs pre + hs + b.size)).next⟩)
      a (pre ++ ⟨b.size + (hs + c.size), b.free⟩ :: post) nxt := by
  have hc := h.at_next
  refine Chained.replace [b, c] [⟨b.size + (hs + c.size), b.free⟩] h hpos
    (by simp) (by simp) ?_ ?_ ?_
  · simp only [span_cons, span_nil]
    omega
  · intro x hx
    simp only [span_cons, span_nil] at hx
    exact Function.update_of_ne (by omega) _ _
  · refine ⟨?_, trivial⟩
    rw [Function.update_self, hc]
    simp only [span_cons, span_nil, ite_true, Nat.add_zero]
    congr 2
    omega

/-- Appending a block behind the last one of a nonempty chain. -/
theorem Chained.append (h : Chained hs m a (pre ++ [b]) 0) (hpos : 0 < hs) (c : Block) :
    Chained hs
      (Function.update
        (Function.update m (a + span hs (pre ++ [b])) ⟨c.size, c.free, 0⟩)
        (a + span hs pre) { m (a + span hs pre) with next := a + span hs (pre ++ [b]) })
      a (pre ++ [b] ++ [c]) 0 := by
  have hb := h.at_mid
  rw [List.append_assoc, List.singleton_append]
  have hbase := chained_append.mp h
  refine chained_append.mpr ⟨?_, ?_, ?_, trivial⟩
  · rw [if_neg (by simp)]
    have hpre := hbase.1
    rw [if_neg (by simp)] at hpre
    refine hpre.congr hpos fun x _ hx => ?_
    simp only [span_append, span_cons, span_nil]
    rw [Function.update_of_ne (by omega), Function.update_of_ne (by omega)]
  · rw [Function.update_self, hb]
    simp only [span_append, span_cons, span_nil]
    congr 1
    simp only [List.cons_ne_self, if_false]
    omega
  · simp only [span_append, span_cons, span_nil]
    rw [Function.update_of_ne (by omega),
      show a + span hs pre + hs + b.size = a + (span hs pre + (hs + b.size + 0)) by omega,
      Function.update_self]
    simp

end Edits

/-! ## 5. Coalescing -/

/-- Merging every run of neighbouring free blocks. -/
def mergeFree (hs : Nat) : List Block → List Block
  | [] => []
  | [b] => [b]
  | b :: c :: bs =>
    if b.free ∧ c.free then mergeFree hs (⟨b.size + (hs + c.size), true⟩ :: bs)
    else b :: mergeFree hs (c :: bs)
termination_by bs => bs.length

/-- `while(current != 0 && current->next != 0)`: absorb the next block if both are free, else
move on.  The first argument bounds the number of iterations; `none` means it was not enough. -/
def coalesce (hs : Nat) : Nat → Headers → Nat → Option Headers
  | 0, _, _ => none
  | n + 1, m, current =>
    if current = 0 ∨ (m current).next = 0 then some m
    else if (m current).free ∧ (m (m current).next).free then
      coalesce hs n (Function.update m current
        { m current with
          size := add64 (m current).size (hs + (m (m current).next).size),
          next := (m (m current).next).next }) current
    else coalesce hs n m (m current).next

/-- No two neighbouring blocks are both free. -/
def Coalesced (bs : List Block) : Prop := bs.IsChain fun b c => ¬ (b.free ∧ c.free)

section Coalescing

variable {hs : Nat}

theorem span_mergeFree (bs : List Block) : span hs (mergeFree hs bs) = span hs bs := by
  induction bs using mergeFree.induct hs with
  | case1 => rw [mergeFree]
  | case2 b => rw [mergeFree]
  | case3 b c bs hfree ih =>
    rw [mergeFree, if_pos hfree, ih]
    simp only [span_cons]
    omega
  | case4 b c bs hfree ih =>
    rw [mergeFree, if_neg hfree, span_cons, ih]
    rfl

/-- Coalescing moves no block in use and changes none. -/
theorem inUse_mergeFree (a : Nat) (bs : List Block) :
    inUse hs a (mergeFree hs bs) = inUse hs a bs := by
  induction bs using mergeFree.induct hs generalizing a with
  | case1 => rw [mergeFree]
  | case2 b => rw [mergeFree]
  | case3 b c bs hfree ih =>
    rw [mergeFree, if_pos hfree, ih]
    simp only [inUse, hfree.1, hfree.2, if_true]
    rw [show a + hs + (b.size + (hs + c.size)) = a + hs + b.size + hs + c.size by omega]
  | case4 b c bs hfree ih =>
    rw [mergeFree, if_neg hfree, inUse, inUse, ih]

/-- Whatever sizes a coalesced list has were built from those of the original. -/
theorem mergeFree_forall {P : Nat → Prop} (hadd : ∀ x y, P x → P y → P (x + (hs + y)))
    (bs : List Block) (h : ∀ b ∈ bs, P b.size) : ∀ b ∈ mergeFree hs bs, P b.size := by
  induction bs using mergeFree.induct hs with
  | case1 => simp [mergeFree]
  | case2 b => simpa [mergeFree] using h
  | case3 b c bs hfree ih =>
    rw [mergeFree, if_pos hfree]
    refine ih fun x hx => ?_
    rcases List.mem_cons.mp hx with rfl | hx
    · exact hadd _ _ (h b (by simp)) (h c (by simp))
    · exact h x (by simp [hx])
  | case4 b c bs hfree ih =>
    rw [mergeFree, if_neg hfree]
    intro x hx
    rcases List.mem_cons.mp hx with rfl | hx
    · exact h x (by simp)
    · exact ih (fun y hy => h y (by simp [List.mem_cons.mp hy])) x hx

/-- A coalesced list starts with a block that is free only if the original's first one was. -/
theorem mergeFree_head (b : Block) (bs : List Block) :
    ∃ b' bs', mergeFree hs (b :: bs) = b' :: bs' ∧ b'.free = b.free := by
  induction bs generalizing b with
  | nil => exact ⟨b, [], by rw [mergeFree], rfl⟩
  | cons c bs ih =>
    rw [mergeFree]
    split
    · rename_i hfree
      obtain ⟨b', bs', hm, hb'⟩ := ih ⟨b.size + (hs + c.size), true⟩
      exact ⟨b', bs', hm, hb'.trans hfree.1.symm⟩
    · exact ⟨b, mergeFree hs (c :: bs), rfl, rfl⟩

/-- **Coalescing leaves no two neighbouring free blocks.** -/
theorem mergeFree_coalesced (bs : List Block) : Coalesced (mergeFree hs bs) := by
  induction bs using mergeFree.induct hs with
  | case1 => rw [mergeFree]; exact List.isChain_nil
  | case2 b => rw [mergeFree]; exact List.isChain_singleton _
  | case3 b c bs hfree ih => rw [mergeFree, if_pos hfree]; exact ih
  | case4 b c bs hfree ih =>
    rw [mergeFree, if_neg hfree]
    obtain ⟨c', bs', hm, hc'⟩ := @mergeFree_head hs c bs
    rw [hm] at ih ⊢
    exact List.isChain_cons_cons.mpr ⟨by rw [hc']; exact hfree, ih⟩

theorem Coalesced.tail {b : Block} {bs : List Block} (h : Coalesced (b :: bs)) : Coalesced bs :=
  List.IsChain.tail h

/-- Behind a free block stands one in use, if any does. -/
theorem Coalesced.after_free {b : Block} {bs : List Block} (h : Coalesced (b :: bs)) (hb : b.free = true) :
    bs = [] ∨ ∃ n cs, bs = ⟨n, false⟩ :: cs := by
  cases bs with
  | nil => exact Or.inl rfl
  | cons c cs =>
    obtain ⟨n, free⟩ := c
    have hc := (List.isChain_cons_cons.mp h).1
    cases free with
    | true => exact absurd ⟨hb, rfl⟩ hc
    | false => exact Or.inr ⟨n, cs, rfl⟩

/-- **A coalesced list is determined** by its blocks in use and the bytes it spans. -/
theorem coalesced_unique (hpos : 0 < hs) : ∀ {bs bs' : List Block} {a : Nat}, Coalesced bs →
    Coalesced bs' → span hs bs = span hs bs' → inUse hs a bs = inUse hs a bs' → bs = bs'
  | [], [], _, _, _, _, _ => rfl
  | [], c :: cs, _, _, _, hspan, _ => by
    simp only [span_nil, span_cons] at hspan
    omega
  | b :: bs, [], _, _, _, hspan, _ => by
    simp only [span_nil, span_cons] at hspan
    omega
  | ⟨m, false⟩ :: bs, ⟨n, false⟩ :: cs, a, h, h', hspan, huse => by
    simp only [inUse, Bool.false_eq_true, if_false, List.cons.injEq, Prod.mk.injEq, true_and] at huse
    obtain ⟨rfl, huse⟩ := huse
    simp only [span_cons] at hspan
    rw [coalesced_unique hpos h.tail h'.tail (by omega) huse]
  | ⟨m, true⟩ :: bs, ⟨n, false⟩ :: cs, a, h, h', hspan, huse => by
    simp only [inUse, Bool.false_eq_true, if_false, if_true] at huse
    have hle := inUse_bounds (huse ▸ List.mem_cons_self : (a, n) ∈ inUse hs (a + hs + m) bs)
    omega
  | ⟨m, false⟩ :: bs, ⟨n, true⟩ :: cs, a, h, h', hspan, huse => by
    simp only [inUse, Bool.false_eq_true, if_false, if_true] at huse
    have hle := inUse_bounds (huse ▸ List.mem_cons_self : (a, m) ∈ inUse hs (a + hs + n) cs)
    omega
  | ⟨m, true⟩ :: bs, ⟨n, true⟩ :: cs, a, h, h', hspan, huse => by
    simp only [inUse, if_true] at huse
    simp only [span_cons] at hspan
    have hsize : m = n := by
      rcases h.after_free rfl with rfl | ⟨k, ds, rfl⟩ <;>
        rcases h'.after_free rfl with rfl | ⟨k', ds', rfl⟩
      · simp only [span_nil] at hspan
        omega
      · simp [inUse] at huse
      · simp [inUse] at huse
      · simp only [inUse, Bool.false_eq_true, if_false, List.cons.injEq, Prod.mk.injEq] at huse
        omega
    subst hsize
    rw [coalesced_unique hpos h.tail h'.tail (by omega) huse]

/-- **A range that meets no block in use lies in one free block**: free neighbours would have been
merged. -/
theorem exists_free_of_gap {x n : Nat} (hn : 0 < n) : ∀ {bs : List Block} {a : Nat}, Coalesced bs →
    a ≤ x → x + n ≤ a + span hs bs → (∀ y ∈ inUse hs a bs, Apart x n y.1 (hs + y.2)) →
    ∃ b ∈ bs, b.free = true ∧ n ≤ hs + b.size
  | [], a, _, hlo, hhi, _ => by
    simp only [span_nil] at hhi
    omega
  | ⟨k, false⟩ :: bs, a, h, hlo, hhi, hapart => by
    simp only [inUse, Bool.false_eq_true, if_false, List.forall_mem_cons] at hapart
    obtain ⟨hfirst, hrest⟩ := hapart
    simp only [span_cons, Apart] at hhi hfirst
    obtain ⟨b, hb, hfree, hsize⟩ := exists_free_of_gap hn h.tail (by omega) (by omega) hrest
    exact ⟨b, List.mem_cons_of_mem _ hb, hfree, hsize⟩
  | ⟨k, true⟩ :: bs, a, h, hlo, hhi, hapart => by
    simp only [inUse, if_true] at hapart
    simp only [span_cons] at hhi
    by_cases hin : x + n ≤ a + hs + k
    · exact ⟨⟨k, true⟩, List.mem_cons_self, rfl, by simp only; omega⟩
    -- the range reaches beyond the block, where one in use follows
    rcases h.after_free rfl with rfl | ⟨j, cs, rfl⟩
    · simp only [span_nil] at hhi
      omega
    · have hnext := hapart (a + hs + k, j) (by simp [inUse])
      simp only [Apart] at hnext
      obtain ⟨b, hb, hfree, hsize⟩ := exists_free_of_gap hn h.tail (by omega) (by omega) hapart
      exact ⟨b, List.mem_cons_of_mem _ hb, hfree, hsize⟩

/-- **The pass over memory computes the merged list.**  It starts at the head of a segment
whose predecessors are done, and needs one iteration for each block ahead.  Sizes do not wrap
because what they add up to does not. -/
theorem coalesce_spec (hpos : 0 < hs) {a : Nat} (ha : 0 < a) :
    ∀ (fuel : Nat) (bs pre : List Block) (m : Headers), bs.length < fuel →
      span hs bs < 2 ^ 64 → Chained hs m a (pre ++ bs) 0 →
      ∃ m', coalesce hs fuel m (link (a + span hs pre) bs) = some m' ∧
        Chained hs m' a (pre ++ mergeFree hs bs) 0
  | 0, _, _, _, hlen, _, _ => absurd hlen (Nat.not_lt_zero _)
  | fuel + 1, [], pre, m, _, _, hch => by
    refine ⟨m, ?_, by simpa [mergeFree] using hch⟩
    simp [coalesce]
  | fuel + 1, [b], pre, m, _, _, hch => by
    refine ⟨m, ?_, by simpa [mergeFree] using hch⟩
    rw [link_cons, coalesce, if_pos]
    rw [hch.at_mid]
    simp
  | fuel + 1, b :: c :: bs, pre, m, hlen, hspan, hch => by
    simp only [List.length_cons] at hlen
    simp only [span_cons] at hspan
    have hb := hch.at_mid
    simp only [reduceCtorEq, if_false] at hb
    have hsnoc : Chained hs m a ((pre ++ [b]) ++ c :: bs) 0 := by simpa using hch
    have haddr : a + span hs (pre ++ [b]) = a + span hs pre + hs + b.size := by
      simp only [span_append, span_cons, span_nil]
      omega
    have hc := hch.at_next
    rw [link_cons, coalesce]
    have hgo : ¬ (a + span hs pre = 0 ∨ (m (a + span hs pre)).next = 0) := by
      rw [hb]
      simp only
      omega
    rw [if_neg hgo, mergeFree]
    have hnext : (m (a + span hs pre)).next = a + span hs pre + hs + b.size := by rw [hb]
    rw [hnext, hc, hb]
    simp only
    by_cases hfree : b.free ∧ c.free
    · rw [if_pos hfree, if_pos hfree, add64_eq (by omega)]
      have hm := hch.merge hpos
      rw [hc, hfree.1] at hm
      simp only at hm
      obtain ⟨m', hrun, hres⟩ := coalesce_spec hpos ha fuel
        (⟨b.size + (hs + c.size), true⟩ :: bs) pre _ (by simp only [List.length_cons]; omega)
        (by simp only [span_cons]; omega) hm
      rw [link_cons] at hrun
      exact ⟨m', by rw [hfree.1]; exact hrun, hres⟩
    · rw [if_neg hfree, if_neg hfree]
      obtain ⟨m', hrun, hres⟩ := coalesce_spec hpos ha fuel (c :: bs) (pre ++ [b]) m
        (by simp only [List.length_cons]; omega) (by simp only [span_cons]; omega) hsnoc
      rw [link_cons, haddr] at hrun
      exact ⟨m', hrun, by simpa using hres⟩

end Coalescing

end AcornOS.Lib
