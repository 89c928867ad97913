import Trusty.BlockTree.Shape

/-!
# The B+ tree invariant

A node of a well-formed tree uses a prefix of its slots: `mkLeaf b ks ds` and
`mkInternal b ks cs` are the nodes whose used slots hold the keys `ks` and the
data `ds` or children `cs`, every other slot zero.

`Valid cfg bd n` is the invariant `block_tree_check_sub_tree` checks, for a
subtree `n` whose place in the tree `bd : Bounds` records: whether it is the
root, its height, and the bounds `[lo, hi]` that the separators above it put
on its keys.  Child `i` of an internal node with keys `ks` lies between the
fences `i` and `i + 1` of `lo :: ks ++ [hi]`; a leaf that is not the leftmost
one (`lo ≠ 0`) starts with the key `lo`; a node other than the root holds at
least `key_count / 2` keys, an internal root at least one.

`entries n` lists the `(key, data)` pairs of the leaves of `n`, left to right:
what the tree stores.

* `Valid.shape_iff`: the invariant does not depend on block numbers.
* `Valid.entries_bounds`, `Valid.entries_sorted`: a valid subtree lists its
  entries in key order, within its bounds.
* `Valid.entries_head`: a subtree that is not on the left edge of the tree
  starts with the key `lo`.
-/

namespace BlockTree

variable (cfg : Config)

/-! ## Nodes from their used slots -/

/-- The leaf in block `b` whose used slots hold the keys `ks` and data `ds`. -/
def mkLeaf (b : Nat) (ks : List Nat) (ds : List BlockMac) : Node :=
  .leaf b (Slots.pad 0 cfg.keyCountLeaf ks) (Slots.pad BlockMac.zero cfg.keyCountLeaf ds)

/-- The internal node in block `b` whose used slots hold the keys `ks` and the
children `cs`. -/
def mkInternal (b : Nat) (ks : List Nat) (cs : List Node) : Node :=
  .internal b (Slots.pad 0 cfg.keyCountInternal ks)
    (Slots.pad .empty (cfg.keyCountInternal + 1) cs)

/-- Where a subtree sits in the tree: whether it is the root, its height
(`1` for a leaf), and the bounds on its keys. -/
structure Bounds where
  root : Bool
  height : Nat
  lo : Nat
  hi : Nat

/-- Fence `j` of a node with bounds `[lo, hi]` and keys `ks`: the list
`lo :: ks ++ [hi]` at `j`.  Child `i` lies between fences `i` and `i + 1`. -/
def fence (lo hi : Nat) (ks : List Nat) (j : Nat) : Nat := (lo :: ks ++ [hi]).getD j 0

/-- The place of child `i` of a node at `bd` with keys `ks`. -/
def Bounds.child (bd : Bounds) (ks : List Nat) (i : Nat) : Bounds :=
  ⟨false, bd.height - 1, fence bd.lo bd.hi ks i, fence bd.lo bd.hi ks (i + 1)⟩

/-- The used keys of a node: non-zero, and non-decreasing from `lo` to `hi`. -/
structure KeysOk (lo hi : Nat) (ks : List Nat) : Prop where
  pos : ∀ k ∈ ks, 0 < k
  sorted : (lo :: ks ++ [hi]).Pairwise (· ≤ ·)

/-- The invariant of a subtree at `bd` (see the module docstring). -/
inductive Valid : Bounds → Node → Prop
  | leaf {bd : Bounds} {b : Nat} (ks : List Nat) (ds : List BlockMac)
      (hb : b ≠ 0) (hlen : ds.length = ks.length) (hcap : ks.length ≤ cfg.keyCountLeaf)
      (hkeys : KeysOk bd.lo bd.hi ks)
      (hfirst : bd.lo ≠ 0 → ∀ k ∈ ks.head?, k = bd.lo)
      (hfill : bd.root = false → cfg.minKeyCount true ≤ ks.length)
      (hheight : bd.height = 1) :
      Valid bd (mkLeaf cfg b ks ds)
  | internal {bd : Bounds} {b : Nat} (ks : List Nat) (cs : List Node)
      (hb : b ≠ 0) (hlen : cs.length = ks.length + 1) (hcap : ks.length ≤ cfg.keyCountInternal)
      (hkeys : KeysOk bd.lo bd.hi ks) (hne : ks ≠ [])
      (hfill : bd.root = false → cfg.minKeyCount false ≤ ks.length)
      (hheight : 2 ≤ bd.height)
      (hchild : ∀ i (hi : i < cs.length), Valid (bd.child ks i) cs[i]) :
      Valid bd (mkInternal cfg b ks cs)

/-- The conditions of `Valid.leaf`, for a leaf built from `ks` and `ds`. -/
structure LeafOk (bd : Bounds) (b : Nat) (ks : List Nat) (ds : List BlockMac) : Prop where
  hb : b ≠ 0
  hlen : ds.length = ks.length
  hcap : ks.length ≤ cfg.keyCountLeaf
  hkeys : KeysOk bd.lo bd.hi ks
  hfirst : bd.lo ≠ 0 → ∀ k ∈ ks.head?, k = bd.lo
  hfill : bd.root = false → cfg.minKeyCount true ≤ ks.length
  hheight : bd.height = 1

/-- The conditions of `Valid.internal`, for a node built from `ks` and `cs`. -/
structure InternalOk (bd : Bounds) (b : Nat) (ks : List Nat) (cs : List Node) : Prop where
  hb : b ≠ 0
  hlen : cs.length = ks.length + 1
  hcap : ks.length ≤ cfg.keyCountInternal
  hkeys : KeysOk bd.lo bd.hi ks
  hne : ks ≠ []
  hfill : bd.root = false → cfg.minKeyCount false ≤ ks.length
  hheight : 2 ≤ bd.height
  hchild : ∀ i (hi : i < cs.length), Valid cfg (bd.child ks i) cs[i]

section Views

variable {cfg}

theorem LeafOk.valid {bd : Bounds} {b : Nat} {ks : List Nat} {ds : List BlockMac}
    (h : LeafOk cfg bd b ks ds) : Valid cfg bd (mkLeaf cfg b ks ds) :=
  .leaf ks ds h.hb h.hlen h.hcap h.hkeys h.hfirst h.hfill h.hheight

theorem InternalOk.valid {bd : Bounds} {b : Nat} {ks : List Nat} {cs : List Node}
    (h : InternalOk cfg bd b ks cs) : Valid cfg bd (mkInternal cfg b ks cs) :=
  .internal ks cs h.hb h.hlen h.hcap h.hkeys h.hne h.hfill h.hheight h.hchild

/-- A valid subtree is a leaf or an internal node built from its used slots. -/
theorem Valid.view {bd : Bounds} {n : Node} (hv : Valid cfg bd n) :
    (∃ b ks ds, n = mkLeaf cfg b ks ds ∧ LeafOk cfg bd b ks ds) ∨
      (∃ b ks cs, n = mkInternal cfg b ks cs ∧ InternalOk cfg bd b ks cs) := by
  cases hv with
  | leaf ks ds hb hlen hcap hkeys hfirst hfill hheight =>
    exact .inl ⟨_, ks, ds, rfl, hb, hlen, hcap, hkeys, hfirst, hfill, hheight⟩
  | internal ks cs hb hlen hcap hkeys hne hfill hheight hchild =>
    exact .inr ⟨_, ks, cs, rfl, hb, hlen, hcap, hkeys, hne, hfill, hheight, hchild⟩

end Views

/-! ## Fences -/

section Fence

variable {lo hi : Nat} {ks : List Nat}

@[simp] theorem fence_zero : fence lo hi ks 0 = lo := rfl

theorem fence_succ (j : Nat) (hj : j < ks.length) : fence lo hi ks (j + 1) = ks[j] := by
  have h : (lo :: ks ++ [hi])[j + 1]? = some ks[j] := by
    rw [List.getElem?_append_left (by simp only [List.length_cons]; omega)]
    simp only [List.getElem?_cons_succ, List.getElem?_eq_getElem hj]
  simp only [fence, List.getD_eq_getElem?_getD, h, Option.getD_some]

theorem fence_length : fence lo hi ks (ks.length + 1) = hi := by
  simp [fence]

/-- Inside the keys, fence `j` is key `j - 1`. -/
theorem fence_of_pos {j : Nat} (h1 : 0 < j) (h2 : j ≤ ks.length) :
    fence lo hi ks j = ks[j - 1] := by
  obtain ⟨i, rfl⟩ : ∃ i, j = i + 1 := ⟨j - 1, by omega⟩
  exact fence_succ i (by omega)

/-- The last fence is `hi`. -/
theorem fence_of_eq (lo hi : Nat) (ks : List Nat) {j : Nat} (h : j = ks.length + 1) :
    fence lo hi ks j = hi := h ▸ fence_length

/-- Past the last fence there is none. -/
theorem fence_of_gt {j : Nat} (h : ks.length + 1 < j) : fence lo hi ks j = 0 := by
  simp only [fence, List.getD_eq_getElem?_getD, List.cons_append, List.getElem?_eq_none
    (by simp; omega : (lo :: (ks ++ [hi])).length ≤ j), Option.getD_none]

theorem KeysOk.fence_mono (h : KeysOk lo hi ks) {j j' : Nat} (hjj : j ≤ j')
    (hj' : j' ≤ ks.length + 1) : fence lo hi ks j ≤ fence lo hi ks j' := by
  rcases Nat.lt_or_eq_of_le hjj with hlt | rfl
  · have hlen : (lo :: ks ++ [hi]).length = ks.length + 2 := by simp
    have hj1 : j < (lo :: ks ++ [hi]).length := by rw [hlen]; omega
    have hj2 : j' < (lo :: ks ++ [hi]).length := by rw [hlen]; omega
    have := List.pairwise_iff_getElem.mp h.sorted j j' hj1 hj2 hlt
    simp only [fence, List.getD_eq_getElem?_getD, List.getElem?_eq_getElem hj1,
      List.getElem?_eq_getElem hj2, Option.getD_some]
    exact this
  · exact le_refl _

theorem KeysOk.lo_le_hi (h : KeysOk lo hi ks) : lo ≤ hi := by
  have := h.fence_mono (Nat.zero_le (ks.length + 1)) le_rfl
  rwa [fence_zero, fence_length] at this

theorem KeysOk.mem_bounds (h : KeysOk lo hi ks) {k : Nat} (hk : k ∈ ks) : lo ≤ k ∧ k ≤ hi := by
  obtain ⟨j, hj, rfl⟩ := List.getElem_of_mem hk
  have h1 := h.fence_mono (Nat.zero_le (j + 1)) (by omega)
  have h2 := h.fence_mono (by omega : j + 1 ≤ ks.length + 1) le_rfl
  rw [fence_zero, fence_succ j hj] at h1
  rw [fence_succ j hj, fence_length] at h2
  exact ⟨h1, h2⟩

end Fence

/-! ## Entries -/

/-- The `(key, data)` pairs of the leaves of `n`, left to right. -/
def entries : Node → List (Nat × BlockMac)
  | .empty => []
  | .leaf _ ks ds => (ks.zip ds).takeWhile (fun e => e.1 != 0)
  | .internal _ _ cs => entriesList cs
where
  /-- `entries` of each child, concatenated. -/
  entriesList : List Node → List (Nat × BlockMac)
    | [] => []
    | c :: cs => entries c ++ entriesList cs

@[simp] theorem entriesList_eq_flatMap (cs : List Node) :
    entries.entriesList cs = cs.flatMap entries := by
  induction cs with
  | nil => rfl
  | cons c cs ih => simp only [entries.entriesList, ih, List.flatMap_cons]

theorem entries_mkLeaf (b : Nat) (ks : List Nat) (ds : List BlockMac) (hpos : ∀ k ∈ ks, 0 < k)
    (hlen : ds.length = ks.length) :
    entries (mkLeaf cfg b ks ds) = ks.zip ds := by
  simp only [entries, mkLeaf, Slots.pad]
  rw [List.zip_append hlen.symm, List.takeWhile_append_of_pos, List.zip_replicate,
    List.takeWhile_replicate]
  · simp
  · intro e he
    have := hpos e.1 (List.of_mem_zip he).1
    simp only [bne_iff_ne, ne_eq]
    omega

theorem entries_mkInternal (b : Nat) (ks : List Nat) (cs : List Node) :
    entries (mkInternal cfg b ks cs) = cs.flatMap entries := by
  simp only [entries, mkInternal, Slots.pad, entriesList_eq_flatMap, List.flatMap_append]
  have : (List.replicate (cfg.keyCountInternal + 1 - cs.length) Node.empty).flatMap entries = [] := by
    simp only [List.flatMap_eq_nil_iff, List.mem_replicate]
    rintro c ⟨_, rfl⟩
    rfl
  rw [this, List.append_nil]

/-! ## Shapes -/

theorem shape_mkLeaf (b : Nat) (ks : List Nat) (ds : List BlockMac) :
    shape (mkLeaf cfg b ks ds) = mkLeaf cfg (min b 1) ks ds := rfl

theorem shape_mkInternal (b : Nat) (ks : List Nat) (cs : List Node) :
    shape (mkInternal cfg b ks cs) = mkInternal cfg (min b 1) ks (cs.map shape) := by
  simp only [mkInternal, shape_internal, Slots.map_pad, shape_empty]

@[simp] theorem entries_shape (n : Node) : entries (shape n) = entries n := by
  cases n with
  | empty => rfl
  | leaf b ks ds => rfl
  | internal b ks cs =>
    simp only [shape_internal, entries, entriesList_eq_flatMap, List.flatMap_map]
    exact List.flatMap_congr fun c _ => entries_shape c

/-- A node whose shape is an internal node with used children `cs'` is that
internal node with children of those shapes. -/
theorem eq_mkInternal_of_shape {n : Node} {b : Nat} {ks : List Nat} {cs' : List Node}
    (hcs : cs'.length ≤ cfg.keyCountInternal + 1)
    (h : shape n = mkInternal cfg b ks cs') :
    ∃ b' cs, n = mkInternal cfg b' ks cs ∧ cs.map shape = cs' ∧ min b' 1 = b := by
  cases n with
  | empty => simp [mkInternal] at h
  | leaf => simp [mkInternal] at h
  | internal b' ks' ch =>
    simp only [shape_internal, mkInternal, Node.internal.injEq] at h
    obtain ⟨rfl, rfl, hch⟩ := h
    refine ⟨b', ch.take cs'.length, ?_, ?_, rfl⟩
    · have hlen : ch.length = cfg.keyCountInternal + 1 := by
        have := congrArg List.length hch
        simp only [List.length_map, Slots.pad, List.length_append, List.length_replicate] at this
        omega
      have hrest : ch.drop cs'.length =
          List.replicate (cfg.keyCountInternal + 1 - cs'.length) Node.empty := by
        apply List.eq_replicate_iff.mpr
        refine ⟨by simp [hlen], fun c hc => ?_⟩
        have hc' : shape c ∈ (ch.map shape).drop cs'.length := by
          rw [← List.map_drop]; exact List.mem_map_of_mem hc
        rw [hch, Slots.pad, List.drop_left' rfl] at hc'
        exact shape_eq_empty.mp (List.eq_of_mem_replicate hc')
      have htake : (ch.take cs'.length).length = cs'.length := by
        simp only [List.length_take]; omega
      simp only [mkInternal, Slots.pad, htake, Node.internal.injEq, true_and]
      rw [← hrest, List.take_append_drop]
    · have := congrArg (List.take cs'.length) hch
      rw [← List.map_take, Slots.pad, List.take_left' rfl] at this
      exact this

theorem Valid.to_shape {bd : Bounds} {n : Node} (hv : Valid cfg bd n) : Valid cfg bd (shape n) := by
  induction hv with
  | leaf ks ds hb hlen hcap hkeys hfirst hfill hheight =>
    rw [shape_mkLeaf]
    exact .leaf ks ds (by omega) hlen hcap hkeys hfirst hfill hheight
  | internal ks cs hb hlen hcap hkeys hne hfill hheight _ ih =>
    rw [shape_mkInternal]
    refine .internal ks (cs.map shape) (by omega) (by simpa using hlen) hcap hkeys hne hfill
      hheight fun i hi => ?_
    simp only [List.getElem_map]
    exact ih i (by simpa using hi)

theorem Valid.of_shape {bd : Bounds} {m : Node} (hv : Valid cfg bd m) :
    ∀ n, shape n = m → Valid cfg bd n := by
  induction hv with
  | leaf ks ds hb hlen hcap hkeys hfirst hfill hheight =>
    intro n hn
    cases n with
    | empty => simp [mkLeaf] at hn
    | internal => simp [mkLeaf] at hn
    | leaf b' ks' ds' =>
      simp only [shape_leaf, mkLeaf, Node.leaf.injEq] at hn
      obtain ⟨hb', rfl, rfl⟩ := hn
      exact .leaf ks ds (by omega) hlen hcap hkeys hfirst hfill hheight
  | internal ks cs hb hlen hcap hkeys hne hfill hheight _ ih =>
    intro n hn
    obtain ⟨b', cs', rfl, hmap, hb'⟩ := eq_mkInternal_of_shape cfg (by omega) hn
    subst hmap
    refine .internal ks cs' (by omega) (by simpa using hlen) hcap hkeys hne hfill hheight
      fun i hi => ?_
    exact ih i (by simpa using hi) cs'[i] (by simp)

theorem Valid.shape_iff {bd : Bounds} {n : Node} : Valid cfg bd (shape n) ↔ Valid cfg bd n :=
  ⟨fun h => h.of_shape cfg n rfl, fun h => h.to_shape cfg⟩

/-! ## What a valid subtree stores -/

section Entries

variable {cfg}

/-- A subtree other than the root stores at least one entry. -/
theorem Valid.entries_ne_nil {bd : Bounds} {n : Node} (hv : Valid cfg bd n)
    (hroot : bd.root = false) : entries n ≠ [] := by
  induction hv with
  | @leaf bd b ks ds hb hlen hcap hkeys hfirst hfill hheight =>
    rw [entries_mkLeaf cfg b ks ds hkeys.pos hlen]
    have h1 := hfill hroot
    have h2 := cfg.one_le_minKeyCount true
    intro h
    have := congrArg List.length h
    simp only [List.length_zip, List.length_nil] at this
    omega
  | @internal bd b ks cs hb hlen hcap hkeys hne hfill hheight hchild ih =>
    rw [entries_mkInternal]
    intro h
    have h0 := ih 0 (by omega) rfl
    exact h0 (List.flatMap_eq_nil_iff.mp h _ (List.getElem_mem _))

/-- Every entry of a valid subtree has a non-zero key within its bounds. -/
theorem Valid.entries_bounds {bd : Bounds} {n : Node} (hv : Valid cfg bd n) :
    ∀ e ∈ entries n, 0 < e.1 ∧ bd.lo ≤ e.1 ∧ e.1 ≤ bd.hi := by
  induction hv with
  | @leaf bd b ks ds hb hlen hcap hkeys hfirst hfill hheight =>
    intro e he
    rw [entries_mkLeaf cfg b ks ds hkeys.pos hlen] at he
    have hk := (List.of_mem_zip he).1
    exact ⟨hkeys.pos _ hk, hkeys.mem_bounds hk⟩
  | @internal bd b ks cs hb hlen hcap hkeys hne hfill hheight _ ih =>
    intro e he
    rw [entries_mkInternal, List.mem_flatMap] at he
    obtain ⟨c, hc, he⟩ := he
    obtain ⟨i, hi, rfl⟩ := List.getElem_of_mem hc
    obtain ⟨hpos, hlo, hhi⟩ := ih i hi e he
    have h1 := hkeys.fence_mono (Nat.zero_le i) (by omega)
    have h2 := hkeys.fence_mono (by omega : i + 1 ≤ ks.length + 1) le_rfl
    simp only [Bounds.child, fence_zero, fence_length] at hlo hhi h1 h2
    exact ⟨hpos, by omega, by omega⟩

/-- A valid subtree lists its entries in key order. -/
theorem Valid.entries_sorted {bd : Bounds} {n : Node} (hv : Valid cfg bd n) :
    (entries n).Pairwise (fun a b => a.1 ≤ b.1) := by
  induction hv with
  | @leaf bd b ks ds hb hlen hcap hkeys hfirst hfill hheight =>
    rw [entries_mkLeaf cfg b ks ds hkeys.pos hlen]
    have hks : ks.Pairwise (· ≤ ·) := by
      have := hkeys.sorted
      rw [List.cons_append, List.pairwise_cons, List.pairwise_append] at this
      exact this.2.1
    have hfst : (ks.zip ds).map Prod.fst = ks := List.map_fst_zip (by omega)
    exact List.pairwise_map.mp (by rw [hfst]; exact hks)
  | @internal bd b ks cs hb hlen hcap hkeys hne hfill hheight hchild ih =>
    rw [entries_mkInternal, List.pairwise_flatMap]
    refine ⟨fun c hc => ?_, ?_⟩
    · obtain ⟨i, hi, rfl⟩ := List.getElem_of_mem hc
      exact ih i hi
    · rw [List.pairwise_iff_getElem]
      intro i j hi hj hij x hx y hy
      have hxb := (hchild i hi).entries_bounds x hx
      have hyb := (hchild j hj).entries_bounds y hy
      have hmono := hkeys.fence_mono (by omega : i + 1 ≤ j) (by omega)
      simp only [Bounds.child] at hxb hyb
      omega

/-- A subtree that is not on the left edge of the tree (`lo ≠ 0`) starts with
the key `lo`: the separator in front of it is the first key of its leftmost
leaf. -/
theorem Valid.entries_head {bd : Bounds} {n : Node} (hv : Valid cfg bd n) (hlo : bd.lo ≠ 0) :
    ∀ e ∈ (entries n).head?, e.1 = bd.lo := by
  induction hv with
  | @leaf bd b ks ds hb hlen hcap hkeys hfirst hfill hheight =>
    intro e he
    rw [entries_mkLeaf cfg b ks ds hkeys.pos hlen] at he
    cases ks with
    | nil => simp at he
    | cons k ks =>
      cases ds with
      | nil => simp at hlen
      | cons d ds =>
        simp only [List.zip_cons_cons, List.head?_cons, Option.mem_def, Option.some.injEq] at he
        subst he
        exact hfirst hlo k rfl
  | @internal bd b ks cs hb hlen hcap hkeys hne hfill hheight hchild ih =>
    intro e he
    rw [entries_mkInternal] at he
    obtain ⟨c, cs', rfl⟩ : ∃ c cs', cs = c :: cs' := List.exists_cons_of_length_pos (by omega)
    rw [List.flatMap_cons] at he
    have hc := ih 0 (by simp)
    simp only [Bounds.child, fence_zero, List.getElem_cons_zero] at hc
    rcases hhead : (entries c).head? with _ | e'
    · -- the leftmost child is never empty
      exfalso
      have hne' := (hchild 0 (by simp)).entries_ne_nil rfl
      simp only [List.getElem_cons_zero] at hne'
      exact hne' (List.head?_eq_none_iff.mp hhead)
    · rw [List.head?_append, hhead, Option.some_or, Option.mem_def, Option.some.injEq] at he
      subst he
      exact hc hlo e' hhead

end Entries

end BlockTree
