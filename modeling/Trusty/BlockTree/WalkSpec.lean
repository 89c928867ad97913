import Trusty.BlockTree.Position

/-!
# What `block_tree_walk` finds

On a valid node the slot reads of `Node.lean` read its used slots
(`getKey_mkLeaf`, `getKey_mkInternal`), and `block_tree_node_find_block`
picks the first used key at or above the search key (`findBlock_mkLeaf`,
`findBlock_mkInternal`).

`PathOk cfg bd n prev next es bd' leaf` says that `es` is a path from `n` to
a position in `leaf`, with the keys around each step recorded the way
`block_tree_walk` records them (`stepEntry`).  `walkFrom_spec`: on a valid
tree the walk returns such a path, through the children the search key
selects, and any property of the bounds that each selection keeps holds
at the leaf.  One such property is `Routes key`, that the key lies between
the bounds (`Routes.child`); at the leaf it puts the slot the walk picks
between the fences around the key (`LeafOk.fence_leafIndex`), which is
where an insert puts it.
-/

namespace BlockTree

variable (cfg : Config)

/-! ## Reading a valid node -/

section Reads

variable {cfg}

theorem getKey_mkLeaf (b : Nat) (ks : List Nat) (ds : List BlockMac)
    (hcap : ks.length ≤ cfg.keyCountLeaf) (i : Nat) :
    getKey cfg (mkLeaf cfg b ks ds) i = ks.getD i 0 := by
  simp only [getKey, mkLeaf, Node.isLeaf, Config.keyCount, Node.keys, if_true, Slots.getD_pad]
  split_ifs with h
  · rfl
  · rw [List.getD_eq_getElem?_getD, List.getElem?_eq_none (by omega), Option.getD_none]

theorem getKey_mkInternal (b : Nat) (ks : List Nat) (cs : List Node)
    (hcap : ks.length ≤ cfg.keyCountInternal) (i : Nat) :
    getKey cfg (mkInternal cfg b ks cs) i = ks.getD i 0 := by
  simp only [getKey, mkInternal, Node.isLeaf, Config.keyCount, Node.keys, Bool.false_eq_true,
    if_false, Slots.getD_pad]
  split_ifs with h
  · rfl
  · rw [List.getD_eq_getElem?_getD, List.getElem?_eq_none (by omega), Option.getD_none]

/-- The data block read at `i` is the one stored there (a zero block reads
as the zero `block_mac`, which has the same block). -/
theorem getData_block_mkLeaf (b : Nat) (ks : List Nat) (ds : List BlockMac)
    (hcap : ds.length ≤ cfg.keyCountLeaf) (i : Nat) :
    (getData cfg (mkLeaf cfg b ks ds) i).block = (ds.getD i BlockMac.zero).block := by
  simp only [getData, mkLeaf, Node.isLeaf, Config.keyCount, Node.data, if_true, Slots.getD_pad]
  split_ifs with h1 h2
  · rw [h2]; rfl
  · rfl
  · rw [List.getD_eq_getElem?_getD, List.getElem?_eq_none (by omega), Option.getD_none]

end Reads

/-! ## Search within a node -/

/-- The first index of `range n` at which `ks` (read with zeros past its end)
has a zero or satisfies `q` is the first index of `ks` that satisfies `q`,
when `ks` has no zero and is shorter than `n`. -/
theorem find?_range_eq_findIdx (ks : List Nat) (q : Nat → Bool) (n : Nat) (hn : ks.length < n)
    (hpos : ∀ k ∈ ks, 0 < k) :
    ((List.range n).find? (fun i => ks.getD i 0 == 0 || q (ks.getD i 0))).getD n =
      ks.findIdx q := by
  have hle := @List.findIdx_le_length _ q ks
  have hfind : (List.range n).find? (fun i => ks.getD i 0 == 0 || q (ks.getD i 0)) =
      some (ks.findIdx q) := by
    rw [List.find?_range_eq_some]
    refine ⟨?_, List.mem_range.mpr (by omega), fun j hj => ?_⟩
    · rcases Nat.lt_or_eq_of_le hle with hlt | heq
      · have hq : q ks[ks.findIdx q] = true := @List.findIdx_getElem _ q ks hlt
        rw [List.getD_eq_getElem _ _ hlt, hq, Bool.or_true]
      · rw [heq, List.getD_eq_getElem?_getD, List.getElem?_eq_none (le_refl _)]
        rfl
    · have hj' : j < ks.length := by omega
      rw [List.getD_eq_getElem _ _ hj', List.not_of_lt_findIdx hj]
      have := hpos _ (List.getElem_mem hj')
      simp only [Bool.or_false, Bool.not_eq_eq_eq_not, Bool.not_true, beq_eq_false_iff_ne, ne_eq]
      omega
  rw [hfind, Option.getD_some]

/-- The entry `block_tree_walk` records for index `i` of a node with used
keys `ks`: the keys on either side of it, inherited where the node has none. -/
def stepEntry (ks : List Nat) (i prev next : Nat) : PathEntry :=
  ⟨i, if 0 < i then ks.getD (i - 1) 0 else prev, ks.getD i next⟩

/-- The index `block_tree_node_find_block` picks in an internal node: the
first child whose separator is above `key`. -/
def innerIndex (ks : List Nat) (key : Nat) : Nat := ks.findIdx fun k => decide (key ≤ k - 1)

/-- The index `block_tree_node_find_block` picks in a leaf: the first key not
below `key`; with `keyIsMax`, the entry before unless it holds `key`. -/
def leafIndex (ks : List Nat) (key : Nat) (keyIsMax : Bool) : Nat :=
  let i := ks.findIdx fun k => decide (key ≤ k)
  if keyIsMax && decide (0 < i) && (ks.getD i 0 == 0 || decide (key < ks.getD i 0)) then i - 1
  else i

theorem innerIndex_le (ks : List Nat) (key : Nat) : innerIndex ks key ≤ ks.length :=
  List.findIdx_le_length

theorem leafIndex_le (ks : List Nat) (key : Nat) (keyIsMax : Bool) :
    leafIndex ks key keyIsMax ≤ ks.length := by
  have := @List.findIdx_le_length _ (fun k => decide (key ≤ k)) ks
  simp only [leafIndex]
  split_ifs <;> omega

section FindBlock

variable {cfg}

@[simp] theorem isLeaf_mkLeaf (b : Nat) (ks : List Nat) (ds : List BlockMac) :
    (mkLeaf cfg b ks ds).isLeaf = true := rfl

@[simp] theorem isLeaf_mkInternal (b : Nat) (ks : List Nat) (cs : List Node) :
    (mkInternal cfg b ks cs).isLeaf = false := rfl

@[simp] theorem block_mkLeaf (b : Nat) (ks : List Nat) (ds : List BlockMac) :
    (mkLeaf cfg b ks ds).block = b := rfl

@[simp] theorem block_mkInternal (b : Nat) (ks : List Nat) (cs : List Node) :
    (mkInternal cfg b ks cs).block = b := rfl

/-- The key after a used slot, inherited past the last one. -/
theorem getD_or_of_pos {ks : List Nat} (hpos : ∀ k ∈ ks, 0 < k) (i next : Nat) :
    (if ks.getD i 0 ≠ 0 then ks.getD i 0 else next) = ks.getD i next := by
  rcases Nat.lt_or_ge i ks.length with h | h
  · have := hpos _ (List.getElem_mem h)
    rw [List.getD_eq_getElem _ _ h, List.getD_eq_getElem _ _ h, if_pos (by omega)]
  · rw [List.getD_eq_getElem?_getD, List.getD_eq_getElem?_getD, List.getElem?_eq_none h]
    rfl

theorem findBlock_mkInternal (b : Nat) (ks : List Nat) (cs : List Node)
    (hcap : ks.length ≤ cfg.keyCountInternal) (hpos : ∀ k ∈ ks, 0 < k)
    (key : Nat) (keyIsMax : Bool) (prev next : Nat) :
    findBlock cfg (mkInternal cfg b ks cs) key keyIsMax prev next =
      let e := stepEntry ks (innerIndex ks key) prev next
      (e.index, e.prevKey, e.nextKey) := by
  have hidx : findIndex cfg (mkInternal cfg b ks cs) key = innerIndex ks key := by
    simp only [findIndex, isLeaf_mkInternal, getKey_mkInternal b ks cs hcap, Config.keyCount,
      Bool.false_eq_true, if_false]
    exact find?_range_eq_findIdx ks (fun k => decide (key ≤ k - 1)) (cfg.keyCountInternal + 1)
      (by omega) hpos
  have hle := innerIndex_le ks key
  simp only [findBlock, hidx, isLeaf_mkInternal, getKey_mkInternal b ks cs hcap, Config.keyCount,
    Bool.and_false, Bool.false_and, Bool.false_eq_true, if_false, stepEntry]
  rw [if_pos (by omega : innerIndex ks key ≤ cfg.keyCountInternal), getD_or_of_pos hpos]

theorem findBlock_mkLeaf (b : Nat) (ks : List Nat) (ds : List BlockMac)
    (hcap : ks.length ≤ cfg.keyCountLeaf) (hpos : ∀ k ∈ ks, 0 < k)
    (key : Nat) (keyIsMax : Bool) (prev next : Nat) :
    findBlock cfg (mkLeaf cfg b ks ds) key keyIsMax prev next =
      let e := stepEntry ks (leafIndex ks key keyIsMax) prev next
      (e.index, e.prevKey, e.nextKey) := by
  have hidx : findIndex cfg (mkLeaf cfg b ks ds) key = ks.findIdx fun k => decide (key ≤ k) := by
    simp only [findIndex, isLeaf_mkLeaf, getKey_mkLeaf b ks ds hcap, Config.keyCount, if_true,
      Nat.sub_zero]
    exact find?_range_eq_findIdx ks (fun k => decide (key ≤ k)) (cfg.keyCountLeaf + 1)
      (by omega) hpos
  have hle := @List.findIdx_le_length _ (fun k => decide (key ≤ k)) ks
  simp only [findBlock, hidx, isLeaf_mkLeaf, getKey_mkLeaf b ks ds hcap, Config.keyCount, if_true,
    Bool.and_true, stepEntry, leafIndex]
  rw [if_pos (by omega : ks.findIdx (fun k => decide (key ≤ k)) ≤ cfg.keyCountLeaf)]
  by_cases hc : (keyIsMax && decide (0 < ks.findIdx fun k => decide (key ≤ k)) &&
      (ks.getD (ks.findIdx fun k => decide (key ≤ k)) 0 == 0 ||
        decide (key < ks.getD (ks.findIdx fun k => decide (key ≤ k)) 0))) = true
  · -- stepping back to the entry before `key`
    simp only [hc, if_true]
    rw [getD_or_of_pos hpos]
  · simp only [hc, Bool.false_eq_true, if_false]
    rw [getD_or_of_pos hpos]

end FindBlock


/-! ## Paths -/

/-- `es` leads from the node `n` at `bd` to a position (the index of its last
entry) in the leaf `leaf` at `bd'`, with the keys around each step as
`block_tree_walk` records them; `prev` and `next` are inherited from above. -/
inductive PathOk : Bounds → Node → Nat → Nat → List PathEntry → Bounds → Node → Prop
  | leaf {bd : Bounds} {b : Nat} {ks : List Nat} {ds : List BlockMac} {prev next : Nat} (i : Nat)
      (h : LeafOk cfg bd b ks ds) (hi : i ≤ ks.length) :
      PathOk bd (mkLeaf cfg b ks ds) prev next [stepEntry ks i prev next] bd (mkLeaf cfg b ks ds)
  | internal {bd : Bounds} {b : Nat} {ks : List Nat} {cs : List Node} {prev next : Nat}
      {es : List PathEntry} {bd' : Bounds} {leaf : Node} (j : Nat)
      (h : InternalOk cfg bd b ks cs) (hj : j < cs.length)
      (hsub : PathOk (bd.child ks j) cs[j] (stepEntry ks j prev next).prevKey
        (stepEntry ks j prev next).nextKey es bd' leaf) :
      PathOk bd (mkInternal cfg b ks cs) prev next (stepEntry ks j prev next :: es) bd' leaf

section Walk

variable {cfg}

/-- Past a leaf the walk finds no block and stops, keeping the leaf's data. -/
theorem walkFrom_empty (key : Nat) (keyIsMax : Bool) (fuel : Nat) (es : List PathEntry)
    (prev next : Nat) (data : BlockMac) :
    walkFrom cfg key keyIsMax fuel .empty es prev next data = some ⟨es, data⟩ := by
  rw [walkFrom.eq_def]
  rfl

theorem PathOk.ne_nil {bd bd' : Bounds} {n leaf : Node} {prev next : Nat} {es : List PathEntry}
    (h : PathOk cfg bd n prev next es bd' leaf) : es ≠ [] := by
  cases h <;> simp

theorem Valid.one_le_height {bd : Bounds} {n : Node} (hv : Valid cfg bd n) : 1 ≤ bd.height := by
  cases hv with
  | leaf _ _ _ _ _ _ _ _ hheight => omega
  | internal _ _ _ _ _ _ _ _ hheight => omega

/-- At a leaf the walk records the slot `key` selects and stops with its data. -/
theorem walkFrom_mkLeaf (key : Nat) (keyIsMax : Bool) {bd : Bounds} {b : Nat} {ks : List Nat}
    {ds : List BlockMac} (hl : LeafOk cfg bd b ks ds) (fuel : Nat) (es : List PathEntry)
    (prev next : Nat) (data : BlockMac) :
    walkFrom cfg key keyIsMax (fuel + 1) (mkLeaf cfg b ks ds) es prev next data =
      some ⟨es ++ [stepEntry ks (leafIndex ks key keyIsMax) prev next],
        getData cfg (mkLeaf cfg b ks ds) (leafIndex ks key keyIsMax)⟩ := by
  rw [walkFrom, block_mkLeaf, if_neg hl.hb]
  simp only [findBlock_mkLeaf b ks ds hl.hcap hl.hkeys.pos, isLeaf_mkLeaf, if_true,
    walkFrom_empty]
  rfl

/-- At an internal node the walk records the child `key` selects and goes on
there, with the keys around that child. -/
theorem walkFrom_mkInternal (key : Nat) (keyIsMax : Bool) {bd : Bounds} {b : Nat}
    {ks : List Nat} {cs : List Node} (hi : InternalOk cfg bd b ks cs) (fuel : Nat)
    (es : List PathEntry) (prev next : Nat) (data : BlockMac) :
    walkFrom cfg key keyIsMax (fuel + 1) (mkInternal cfg b ks cs) es prev next data =
      walkFrom cfg key keyIsMax fuel (cs.getD (innerIndex ks key) .empty)
        (es ++ [stepEntry ks (innerIndex ks key) prev next])
        (stepEntry ks (innerIndex ks key) prev next).prevKey
        (stepEntry ks (innerIndex ks key) prev next).nextKey data := by
  have hj : innerIndex ks key < cs.length := by
    have := innerIndex_le ks key
    have := hi.hlen
    omega
  rw [walkFrom, block_mkInternal, if_neg hi.hb]
  simp only [findBlock_mkInternal b ks cs hi.hcap hi.hkeys.pos, isLeaf_mkInternal,
    Bool.false_eq_true, if_false]
  -- the entry the walk records is `stepEntry` rebuilt from its fields
  show walkFrom cfg key keyIsMax fuel (getChild cfg (mkInternal cfg b ks cs) (innerIndex ks key))
    (es ++ [stepEntry ks (innerIndex ks key) prev next]) _ _ data = _
  rw [hi.getChild _ hj, List.getD_eq_getElem _ _ hj]

/-- On a valid tree, `block_tree_walk` follows the children `key` selects to
a leaf, where it stops at the index `key` selects; a property of the bounds
kept by each selection holds at the leaf.  The walk needs as many levels of
`path->entry` as the tree is high. -/
theorem walkFrom_spec (key : Nat) (keyIsMax : Bool) (Q : Bounds → Prop)
    (hQ : ∀ bd b ks cs, InternalOk cfg bd b ks cs → Q bd → Q (bd.child ks (innerIndex ks key))) :
    ∀ (fuel : Nat) (bd : Bounds) (n : Node), Valid cfg bd n → Q bd → bd.height ≤ fuel →
    ∀ (es0 : List PathEntry) (prev next : Nat) (data : BlockMac),
    ∃ es bd' b ks ds, PathOk cfg bd n prev next es bd' (mkLeaf cfg b ks ds) ∧
      LeafOk cfg bd' b ks ds ∧ Q bd' ∧
      es.getLast?.map PathEntry.index = some (leafIndex ks key keyIsMax) ∧
      walkFrom cfg key keyIsMax fuel n es0 prev next data =
        some ⟨es0 ++ es, getData cfg (mkLeaf cfg b ks ds) (leafIndex ks key keyIsMax)⟩ := by
  intro fuel
  induction fuel with
  | zero =>
    intro bd n hv _ hfuel
    have := hv.one_le_height
    omega
  | succ fuel ih =>
    intro bd n hv hq hfuel es0 prev next data
    rcases hv.view with ⟨b, ks, ds, rfl, hl⟩ | ⟨b, ks, cs, rfl, hi⟩
    · -- a leaf: one entry, then the walk stops at its data
      have hidx := leafIndex_le ks key keyIsMax
      refine ⟨[stepEntry ks (leafIndex ks key keyIsMax) prev next], bd, b, ks, ds,
        .leaf _ hl hidx, hl, hq, rfl, ?_⟩
      rw [walkFrom_mkLeaf key keyIsMax hl]
    · -- an internal node: one entry, then the selected child
      have hidx := innerIndex_le ks key
      have hj : innerIndex ks key < cs.length := by have := hi.hlen; omega
      have hchild := hi.hchild _ hj
      obtain ⟨es, bd', b', ks', ds', hpath, hleaf, hq', hlast, hwalk⟩ :=
        ih _ _ hchild (hQ bd b ks cs hi hq) (by simp only [Bounds.child]; omega)
          (es0 ++ [stepEntry ks (innerIndex ks key) prev next])
          (stepEntry ks (innerIndex ks key) prev next).prevKey
          (stepEntry ks (innerIndex ks key) prev next).nextKey data
      refine ⟨stepEntry ks (innerIndex ks key) prev next :: es, bd', b', ks', ds',
        .internal _ hi hj hpath, hleaf, hq', ?_, ?_⟩
      · obtain ⟨e, he, hei⟩ := Option.map_eq_some_iff.1 hlast
        simp only [List.getLast?_cons, he, Option.getD_some, Option.map_some, hei]
      · rw [walkFrom_mkInternal key keyIsMax hi, List.getD_eq_getElem _ _ hj, hwalk]
        simp only [List.append_assoc, List.singleton_append]

/-- The indices of a path, all but the leaf's slot, are a position of the leaf. -/
theorem PathOk.validAt {bd bd' : Bounds} {n leaf : Node} {prev next : Nat} {es : List PathEntry}
    (h : PathOk cfg bd n prev next es bd' leaf) :
    ValidAt cfg bd n (es.dropLast.map PathEntry.index) bd' leaf := by
  induction h with
  | leaf i hl hi => exact .here hl.valid
  | internal j hint hj hsub ih =>
    rw [List.dropLast_cons_of_ne_nil hsub.ne_nil, List.map_cons]
    exact .down hint hj ih

end Walk

/-! ## The bounds on the way to a key -/

/-- The bounds a walk for `key` keeps on its way down: `key` lies between
them, and the root's start at `0`. -/
def Routes (key : Nat) (bd : Bounds) : Prop :=
  bd.lo ≤ key ∧ key ≤ bd.hi ∧ (bd.root = true → bd.lo = 0)

section Routes

variable {cfg} {key : Nat} {bd : Bounds} {b : Nat} {ks : List Nat}

/-- The child a walk for `key` selects keeps `key` between its bounds. -/
theorem Routes.child {cs : List Node} (h : InternalOk cfg bd b ks cs) (hr : Routes key bd) :
    Routes key (bd.child ks (innerIndex ks key)) := by
  have hle := innerIndex_le ks key
  have hlen := h.hlen
  refine ⟨?_, ?_, fun h => by simp [Bounds.child] at h⟩
  · simp only [Bounds.child]
    rcases Nat.eq_zero_or_pos (innerIndex ks key) with h0 | hpos
    · rw [h0, fence_zero]
      exact hr.1
    · -- the separator before the child: the search did not stop there
      have hk : innerIndex ks key - 1 < ks.length := by omega
      have hf := @fence_succ bd.lo bd.hi ks _ hk
      rw [Nat.sub_add_cancel hpos] at hf
      have hlt : innerIndex ks key - 1 < ks.findIdx (fun k => decide (key ≤ k - 1)) := by
        unfold innerIndex at hpos ⊢
        omega
      have hstop := List.not_of_lt_findIdx hlt
      simp only [decide_eq_false_iff_not, Nat.not_le] at hstop
      rw [hf]
      omega
  · simp only [Bounds.child]
    rcases Nat.lt_or_ge (innerIndex ks key) ks.length with hlt | hge
    · -- the separator after the child is the one the search stopped at
      have hstop : decide (key ≤ ks[innerIndex ks key] - 1) = true := List.findIdx_getElem (w := hlt)
      simp only [decide_eq_true_eq] at hstop
      rw [fence_succ _ hlt]
      omega
    · rw [show innerIndex ks key = ks.length by omega, fence_length]
      exact hr.2.1

/-- The slot a walk for `key` picks in a leaf lies between the fences around
`key`, and is the first slot of a leaf that does not start the tree only if
`key` is the leaf's first key. -/
theorem LeafOk.fence_leafIndex {ds : List BlockMac} (hl : LeafOk cfg bd b ks ds) (hr : Routes key bd) :
    fence bd.lo bd.hi ks (leafIndex ks key false) ≤ key ∧
      key ≤ fence bd.lo bd.hi ks (leafIndex ks key false + 1) ∧
      (bd.lo ≠ 0 → leafIndex ks key false = 0 → key = bd.lo) := by
  have hidx : leafIndex ks key false = ks.findIdx fun k => decide (key ≤ k) := by
    simp [leafIndex]
  have hle := @List.findIdx_le_length _ (fun k => decide (key ≤ k)) ks
  rw [hidx]
  refine ⟨?_, ?_, fun hlo h0 => ?_⟩
  · rcases Nat.eq_zero_or_pos (ks.findIdx fun k => decide (key ≤ k)) with h0 | hpos
    · rw [h0, fence_zero]
      exact hr.1
    · -- the key before the slot is below `key`
      have hk : (ks.findIdx fun k => decide (key ≤ k)) - 1 < ks.length := by omega
      have hf := @fence_succ bd.lo bd.hi ks _ hk
      rw [Nat.sub_add_cancel hpos] at hf
      have hstop := List.not_of_lt_findIdx (show (ks.findIdx fun k => decide (key ≤ k)) - 1 <
        ks.findIdx fun k => decide (key ≤ k) by omega)
      simp only [decide_eq_false_iff_not, Nat.not_le] at hstop
      rw [hf]
      omega
  · rcases Nat.lt_or_ge (ks.findIdx fun k => decide (key ≤ k)) ks.length with hlt | hge
    · have hstop : decide (key ≤ ks[ks.findIdx fun k => decide (key ≤ k)]) = true :=
        List.findIdx_getElem (w := hlt)
      simp only [decide_eq_true_eq] at hstop
      rw [fence_succ _ hlt]
      exact hstop
    · rw [show (ks.findIdx fun k => decide (key ≤ k)) = ks.length by omega, fence_length]
      exact hr.2.1
  · cases ks with
    | nil =>
      -- an empty leaf is the root, which starts at `0`
      have hfill := hl.hfill
      have := cfg.one_le_minKeyCount true
      cases hroot : bd.root
      · have := hfill hroot
        simp at this
        omega
      · exact absurd (hr.2.2 hroot) hlo
    | cons k0 ks =>
      -- the search stopped at the first key
      have hk0 : key ≤ k0 := by
        by_contra hlt
        rw [List.findIdx_cons] at h0
        simp [hlt] at h0
      have := hl.hfirst hlo k0 rfl
      have := hr.1
      omega

end Routes

end BlockTree
