import Trusty.BlockTree.WalkSpec

/-!
# Node operations on valid nodes

On a node built from its used slots (`mkLeaf`, `mkInternal`) each slot
operation of `Node.lean` is a list operation on the used keys and data or
children, and gives again such a node:

* `nodeInsert_mkLeaf`, `nodeInsert_mkInternal`: one entry inserted; into a
  full node (`..._full`) the last entry of the extended lists is pushed out.
* `nodeShiftDown_mkLeaf`, `nodeShiftDown_mkInternal`: a range of entries
  deleted, the children range chosen by the shift mode.
* `nodeClearEnd_mkLeaf`, `nodeClearEnd_mkInternal`: the node truncated.
* `nodeMergeEntries_mkLeaf`, `nodeMergeEntries_mkInternal`: the entries of
  another node appended (after the separator, for internal nodes).
* `nodeShift_shifted`: on any node with full-size arrays, `nodeShift` is an
  insert or a delete on each array (`Slots.Shifted`).  The insert is described
  where its gap ends inside the array; the assertion of
  `block_tree_node_shift` admits one ending past it, where the `memmove` count
  wraps (`nodeShift_insert_past_end`).

`block_tree_node_clear_end` passes `~0U` as its source index, so these need
the key counts to fit a C `uint` (`Config.IndexFits`), as they do for any
block size the storage uses.
-/

namespace BlockTree

variable (cfg : Config)

/-- The key counts fit the `uint` indices of the node functions, below the
`~0U` that `block_tree_node_clear_end` uses as "past the end". -/
def Config.IndexFits : Prop :=
  cfg.keyCountInternal + 1 ≤ uintMax ∧ cfg.keyCountLeaf ≤ uintMax

/-- A key fits the `key_size` bytes of a key slot. -/
def Config.KeyFits (key : Nat) : Prop := key < 2 ^ (8 * cfg.keySize)

instance (key : Nat) : Decidable (cfg.KeyFits key) := inferInstanceAs (Decidable (_ < _))

variable {cfg}

theorem Config.keyBytes_of_fits {key : Nat} (h : cfg.KeyFits key) : cfg.keyBytes key = key :=
  Nat.mod_eq_of_lt h

/-! ## Leaves -/

section Leaf

variable (b : Nat) (ks : List Nat) (ds : List BlockMac)

/-- One entry inserted at `i` into a leaf with a free slot. -/
theorem nodeInsert_mkLeaf (i key : Nat) (d : BlockMac) (c : Node) (hi : i ≤ ks.length)
    (hn : ks.length < cfg.keyCountLeaf) (hlen : ds.length = ks.length) :
    nodeInsert cfg (mkLeaf cfg b ks ds) i .leafOrLeftChild key d c =
      (mkLeaf cfg b (ks.take i ++ cfg.keyBytes key :: ks.drop i) (ds.take i ++ d :: ds.drop i),
        0, BlockMac.zero, .empty) := by
  have hk := Slots.shift_pad_insert 0 cfg.keyCountLeaf ks i (cfg.keyBytes key) hi hn
  have hd := Slots.shift_pad_insert BlockMac.zero cfg.keyCountLeaf ds i d (by omega) (by omega)
  simp only [nodeInsert, nodeShift, shiftChildIndices, ShiftMode.right, Bool.false_eq_true,
    if_false, mkLeaf, hk, hd]
  rfl

/-- One entry inserted at `i` into a full leaf: the last of the extended
entries is pushed out. -/
theorem nodeInsert_mkLeaf_full (i key : Nat) (d : BlockMac) (c : Node) (hi : i ≤ ks.length)
    (hn : ks.length = cfg.keyCountLeaf) (hlen : ds.length = ks.length) :
    let eks := ks.take i ++ cfg.keyBytes key :: ks.drop i
    let eds := ds.take i ++ d :: ds.drop i
    nodeInsert cfg (mkLeaf cfg b ks ds) i .leafOrLeftChild key d c =
      (mkLeaf cfg b (eks.take cfg.keyCountLeaf) (eds.take cfg.keyCountLeaf),
        eks.getD cfg.keyCountLeaf 0, eds.getD cfg.keyCountLeaf BlockMac.zero, .empty) := by
  intro eks eds
  have hk : (eks.take cfg.keyCountLeaf).length = cfg.keyCountLeaf := by simp [eks]; omega
  have hd : (eds.take cfg.keyCountLeaf).length = cfg.keyCountLeaf := by simp [eds]; omega
  have hks := Slots.shift_pad_insert_full 0 cfg.keyCountLeaf ks i (cfg.keyBytes key) hi hn
  have hds := Slots.shift_pad_insert_full BlockMac.zero cfg.keyCountLeaf ds i d (by omega)
    (by omega)
  simp only [nodeInsert, nodeShift, shiftChildIndices, ShiftMode.right, Bool.false_eq_true,
    if_false, mkLeaf, hks, hds]
  simp only [Slots.pad, hk, hd, Nat.sub_self, List.replicate_zero, List.append_nil,
    List.headD_eq_head?_getD, List.head?_drop, List.getD_eq_getElem?_getD]
  rfl

/-- Entries `[d, s)` of a leaf deleted. -/
theorem nodeShiftDown_mkLeaf (d s : Nat) (hds : d ≤ s) (hs : s ≤ ks.length)
    (hcap : ks.length ≤ cfg.keyCountLeaf) (hlen : ds.length = ks.length) :
    nodeShiftDown cfg (mkLeaf cfg b ks ds) d s .leafOrLeftChild =
      mkLeaf cfg b (ks.take d ++ ks.drop s) (ds.take d ++ ds.drop s) := by
  have hk := Slots.shift_pad_delete 0 cfg.keyCountLeaf ks d s hds hs hcap
  have hd := Slots.shift_pad_delete BlockMac.zero cfg.keyCountLeaf ds d s hds (by omega)
    (by omega)
  simp only [nodeShiftDown, nodeShift, shiftChildIndices, ShiftMode.right, Bool.false_eq_true,
    if_false, mkLeaf, hk, hd]

/-- `block_tree_node_leaf_remove_entry`: entry `i` of a leaf deleted. -/
theorem leafRemoveEntry_mkLeaf (i : Nat) (hi : i < ks.length) (hcap : ks.length ≤ cfg.keyCountLeaf)
    (hlen : ds.length = ks.length) :
    leafRemoveEntry cfg (mkLeaf cfg b ks ds) i = mkLeaf cfg b (ks.eraseIdx i) (ds.eraseIdx i) := by
  rw [leafRemoveEntry, nodeShiftDown_mkLeaf b ks ds i (i + 1) (by omega) hi hcap hlen,
    List.eraseIdx_eq_take_drop_succ, List.eraseIdx_eq_take_drop_succ]

/-- A leaf truncated to its first `s` entries. -/
theorem nodeClearEnd_mkLeaf (s : Nat) (hs : s ≤ ks.length) (hcap : ks.length ≤ cfg.keyCountLeaf)
    (hlen : ds.length = ks.length) (hfit : cfg.IndexFits) :
    nodeClearEnd cfg (mkLeaf cfg b ks ds) s = mkLeaf cfg b (ks.take s) (ds.take s) := by
  have hk := Slots.shift_pad_clear 0 cfg.keyCountLeaf ks s uintMax hs hcap hfit.2
  have hd := Slots.shift_pad_clear BlockMac.zero cfg.keyCountLeaf ds s uintMax (by omega)
    (by omega) hfit.2
  rw [nodeClearEnd, isLeaf_mkLeaf, if_pos rfl]
  simp only [nodeShiftDown, nodeShift, shiftChildIndices, ShiftMode.right, Bool.false_eq_true,
    if_false, mkLeaf, hk, hd]

/-- The entries of the leaf `mkLeaf b' ks' ds'` appended to a leaf. -/
theorem nodeMergeEntries_mkLeaf (b' : Nat) (ks' : List Nat) (ds' : List BlockMac) (mergeKey : Nat)
    (hcap : ks.length + ks'.length ≤ cfg.keyCountLeaf) (hlen : ds.length = ks.length)
    (hlen' : ds'.length = ks'.length) :
    nodeMergeEntries cfg (mkLeaf cfg b ks ds) (mkLeaf cfg b' ks' ds') ks.length ks'.length mergeKey =
      mkLeaf cfg b (ks ++ ks') (ds ++ ds') := by
  have hk := Slots.shift_pad_append 0 cfg.keyCountLeaf ks (Slots.pad 0 cfg.keyCountLeaf ks')
    ks'.length hcap (by simp [Slots.pad])
  have hd := Slots.shift_pad_append BlockMac.zero cfg.keyCountLeaf ds
    (Slots.pad BlockMac.zero cfg.keyCountLeaf ds') ds'.length (by omega) (by simp [Slots.pad])
  rw [Slots.take_pad _ _ _ _ le_rfl, List.take_length] at hk hd
  rw [hlen, hlen'] at hd
  rw [nodeMergeEntries, isLeaf_mkLeaf, if_pos rfl]
  simp only [nodeShift, shiftChildIndices, ShiftMode.right, Bool.false_eq_true, if_false, mkLeaf,
    Node.keys, Node.data, hk, hd]

/-- The key of a used slot of a leaf set. -/
theorem setKey_mkLeaf (i key : Nat) (hi : i < ks.length) :
    setKey cfg (mkLeaf cfg b ks ds) i key = mkLeaf cfg b (ks.set i (cfg.keyBytes key)) ds := by
  simp only [setKey, mkLeaf, Node.keys, Node.setKeys, Slots.pad, List.set_append_left _ _ hi,
    List.length_set]

/-- The data of a used slot of a leaf set. -/
theorem setData_mkLeaf (i : Nat) (d : BlockMac) (hi : i < ds.length) :
    setData (mkLeaf cfg b ks ds) i d = mkLeaf cfg b ks (ds.set i d) := by
  simp only [setData, mkLeaf, Slots.pad, List.set_append_left _ _ hi, List.length_set]

end Leaf

/-! ## Internal nodes -/

section Internal

variable (b : Nat) (ks : List Nat) (cs : List Node)

/-- One key inserted at `i` into an internal node with a free slot, its child
at `i + 1` (`SHIFT_RIGHT_CHILD`) or at `i`. -/
theorem nodeInsert_mkInternal (right : Bool) (i key : Nat) (d : BlockMac) (c : Node)
    (hi : i ≤ ks.length) (hn : ks.length < cfg.keyCountInternal) (hlen : cs.length = ks.length + 1)
    (hfit : cfg.IndexFits) :
    let ci := i + if right then 1 else 0
    nodeInsert cfg (mkInternal cfg b ks cs) i (if right then .rightChild else .leafOrLeftChild)
        key d c =
      (mkInternal cfg b (ks.take i ++ cfg.keyBytes key :: ks.drop i) (cs.take ci ++ c :: cs.drop ci),
        0, BlockMac.zero, .empty) := by
  intro ci
  have hk := Slots.shift_pad_insert 0 cfg.keyCountInternal ks i (cfg.keyBytes key) hi hn
  have hc := Slots.shift_pad_insert Node.empty (cfg.keyCountInternal + 1) cs ci c
    (by cases right <;> simp [ci] <;> omega) (by omega)
  have hidx : shiftChildIndices (if right then .rightChild else .leafOrLeftChild) (i + 1) i =
      (ci + 1, ci) := by
    have : i ≠ uintMax := by have := hfit.1; omega
    cases right <;> simp [shiftChildIndices, ShiftMode.right, ShiftMode.left, ci, this]
  simp only [nodeInsert, nodeShift, hidx, mkInternal, hk, hc]
  rfl

/-- One key inserted at `i` into a full internal node, its child at `i + 1`:
the last key and child of the extended lists are pushed out. -/
theorem nodeInsert_mkInternal_full (i key : Nat) (d : BlockMac) (c : Node) (hi : i ≤ ks.length)
    (hn : ks.length = cfg.keyCountInternal) (hlen : cs.length = ks.length + 1)
    (hfit : cfg.IndexFits) :
    let eks := ks.take i ++ cfg.keyBytes key :: ks.drop i
    let ecs := cs.take (i + 1) ++ c :: cs.drop (i + 1)
    nodeInsert cfg (mkInternal cfg b ks cs) i .rightChild key d c =
      (mkInternal cfg b (eks.take cfg.keyCountInternal) (ecs.take (cfg.keyCountInternal + 1)),
        eks.getD cfg.keyCountInternal 0, BlockMac.zero,
        ecs.getD (cfg.keyCountInternal + 1) .empty) := by
  intro eks ecs
  have hk' : (eks.take cfg.keyCountInternal).length = cfg.keyCountInternal := by
    simp [eks]; omega
  have hc' : (ecs.take (cfg.keyCountInternal + 1)).length = cfg.keyCountInternal + 1 := by
    simp [ecs]; omega
  have hks := Slots.shift_pad_insert_full 0 cfg.keyCountInternal ks i (cfg.keyBytes key) hi hn
  have hcs := Slots.shift_pad_insert_full Node.empty (cfg.keyCountInternal + 1) cs (i + 1) c
    (by omega) (by omega)
  have hidx : shiftChildIndices .rightChild (i + 1) i = (i + 2, i + 1) := by
    have : i ≠ uintMax := by have := hfit.1; omega
    simp [shiftChildIndices, ShiftMode.right, ShiftMode.left, this]
  simp only [nodeInsert, nodeShift, hidx, mkInternal, hks, hcs]
  simp only [Slots.pad, hk', hc', Nat.sub_self, List.replicate_zero, List.append_nil,
    List.headD_eq_head?_getD, List.head?_drop, List.getD_eq_getElem?_getD]
  rfl

/-- Keys `[d, s)` of an internal node deleted with the children `[d, s)`
(their left children). -/
theorem nodeShiftDown_mkInternal_left (d s : Nat) (hds : d ≤ s) (hs : s ≤ ks.length)
    (hcap : ks.length ≤ cfg.keyCountInternal) (hlen : cs.length = ks.length + 1) :
    nodeShiftDown cfg (mkInternal cfg b ks cs) d s .leafOrLeftChild =
      mkInternal cfg b (ks.take d ++ ks.drop s) (cs.take d ++ cs.drop s) := by
  have hk := Slots.shift_pad_delete 0 cfg.keyCountInternal ks d s hds hs hcap
  have hc := Slots.shift_pad_delete Node.empty (cfg.keyCountInternal + 1) cs d s hds (by omega)
    (by omega)
  simp only [nodeShiftDown, nodeShift, shiftChildIndices, ShiftMode.right, Bool.false_eq_true,
    if_false, mkInternal, hk, hc]

/-- Keys `[d, s)` of an internal node deleted with the children `[d + 1, s + 1)`
(their right children). -/
theorem nodeShiftDown_mkInternal_right (d s : Nat) (hds : d ≤ s) (hs : s ≤ ks.length)
    (hcap : ks.length ≤ cfg.keyCountInternal) (hlen : cs.length = ks.length + 1)
    (hfit : cfg.IndexFits) :
    nodeShiftDown cfg (mkInternal cfg b ks cs) d s .rightChild =
      mkInternal cfg b (ks.take d ++ ks.drop s) (cs.take (d + 1) ++ cs.drop (s + 1)) := by
  have hk := Slots.shift_pad_delete 0 cfg.keyCountInternal ks d s hds hs hcap
  have hc := Slots.shift_pad_delete Node.empty (cfg.keyCountInternal + 1) cs (d + 1) (s + 1)
    (by omega) (by omega) (by omega)
  have hidx : shiftChildIndices .rightChild d s = (d + 1, s + 1) := by
    have : s ≠ uintMax := by have := hfit.1; omega
    simp [shiftChildIndices, ShiftMode.right, ShiftMode.left, this]
  simp only [nodeShiftDown, nodeShift, hidx, mkInternal, hk, hc]

/-- An internal node truncated to its first `s` keys and `s + 1` children. -/
theorem nodeClearEnd_mkInternal (s : Nat) (hs : s ≤ ks.length)
    (hcap : ks.length ≤ cfg.keyCountInternal) (hlen : cs.length = ks.length + 1)
    (hfit : cfg.IndexFits) :
    nodeClearEnd cfg (mkInternal cfg b ks cs) s = mkInternal cfg b (ks.take s) (cs.take (s + 1)) := by
  have hk := Slots.shift_pad_clear 0 cfg.keyCountInternal ks s uintMax hs hcap (by
    have := hfit.1; omega)
  have hc := Slots.shift_pad_clear Node.empty (cfg.keyCountInternal + 1) cs (s + 1) uintMax
    (by omega) (by omega) hfit.1
  have hidx : shiftChildIndices .rightChild s uintMax = (s + 1, uintMax) := by
    simp [shiftChildIndices, ShiftMode.right, ShiftMode.left]
  rw [nodeClearEnd, isLeaf_mkInternal, if_neg Bool.false_ne_true]
  simp only [nodeShiftDown, nodeShift, hidx, mkInternal, hk, hc]

/-- The separator `mergeKey` and the keys and children of `mkInternal b' ks' cs'`
appended to an internal node. -/
theorem nodeMergeEntries_mkInternal (b' : Nat) (ks' : List Nat) (cs' : List Node) (mergeKey : Nat)
    (hcap : ks.length + 1 + ks'.length ≤ cfg.keyCountInternal) (hlen : cs.length = ks.length + 1)
    (hlen' : cs'.length = ks'.length + 1) :
    nodeMergeEntries cfg (mkInternal cfg b ks cs) (mkInternal cfg b' ks' cs') ks.length ks'.length
        mergeKey =
      mkInternal cfg b (ks ++ cfg.keyBytes mergeKey :: ks') (cs ++ cs') := by
  have hset : (Slots.pad 0 cfg.keyCountInternal ks).set ks.length (cfg.keyBytes mergeKey) =
      Slots.pad 0 cfg.keyCountInternal (ks ++ [cfg.keyBytes mergeKey]) := by
    have hpos : 0 < cfg.keyCountInternal - ks.length := by omega
    obtain ⟨r, hr⟩ : ∃ r, cfg.keyCountInternal - ks.length = r + 1 := ⟨_, (Nat.succ_pred_eq_of_pos hpos).symm⟩
    have hr' : cfg.keyCountInternal - (ks ++ [cfg.keyBytes mergeKey]).length = r := by
      simp; omega
    simp only [Slots.pad, hr, hr', List.replicate_succ, List.set_append_right _ _ le_rfl,
      Nat.sub_self, List.set_cons_zero, List.append_assoc, List.singleton_append]
  have hk := Slots.shift_pad_append 0 cfg.keyCountInternal (ks ++ [cfg.keyBytes mergeKey])
    (Slots.pad 0 cfg.keyCountInternal ks') ks'.length (by simp; omega) (by simp [Slots.pad])
  have hc := Slots.shift_pad_append Node.empty (cfg.keyCountInternal + 1) cs
    (Slots.pad Node.empty (cfg.keyCountInternal + 1) cs') cs'.length (by omega) (by simp [Slots.pad])
  rw [Slots.take_pad _ _ _ _ le_rfl, List.take_length] at hk hc
  have hidx : shiftChildIndices .both (ks.length + 1 + ks'.length) (ks.length + 1) =
      (cs.length + cs'.length, cs.length) := by
    simp [shiftChildIndices, ShiftMode.right, ShiftMode.left]; omega
  rw [nodeMergeEntries, isLeaf_mkInternal, if_neg Bool.false_ne_true]
  simp only [mkInternal, Node.keys, Node.setKeys, Node.children, hset, nodeShift, hidx]
  simp only [List.length_append, List.length_singleton] at hk
  rw [hk, hc, List.append_assoc, List.singleton_append]

/-- The key of a used slot of an internal node set. -/
theorem setKey_mkInternal (i key : Nat) (hi : i < ks.length) :
    setKey cfg (mkInternal cfg b ks cs) i key = mkInternal cfg b (ks.set i (cfg.keyBytes key)) cs := by
  simp only [setKey, mkInternal, Node.keys, Node.setKeys, Slots.pad, List.set_append_left _ _ hi,
    List.length_set]

end Internal

/-! ## Counting used slots -/

section Count

/-- The first zero of the used keys read with zeros past their end is at
their length. -/
theorem find?_range_zero (ks : List Nat) (n : Nat) (hn : ks.length ≤ n) (hpos : ∀ k ∈ ks, 0 < k) :
    ((List.range n).find? (fun i => decide (ks.getD i 0 = 0))).getD n = ks.length := by
  rcases Nat.lt_or_ge ks.length n with hlt | hge
  · have hfind : (List.range n).find? (fun i => decide (ks.getD i 0 = 0)) = some ks.length := by
      rw [List.find?_range_eq_some]
      refine ⟨?_, List.mem_range.mpr hlt, fun j hj => ?_⟩
      · simp [List.getD_eq_getElem?_getD]
      · have := hpos _ (List.getElem_mem hj)
        simp only [List.getD_eq_getElem _ _ hj, Bool.not_eq_eq_eq_not, Bool.not_true,
          decide_eq_false_iff_not]
        omega
    rw [hfind, Option.getD_some]
  · have hnone : (List.range n).find? (fun i => decide (ks.getD i 0 = 0)) = none := by
      rw [List.find?_eq_none]
      intro j hj
      have hj' : j < ks.length := by have := List.mem_range.mp hj; omega
      have := hpos _ (List.getElem_mem hj')
      simp only [List.getD_eq_getElem _ _ hj', decide_eq_true_eq]
      omega
    rw [hnone, Option.getD_none]
    omega

theorem getKeyCount_mkLeaf (b : Nat) (ks : List Nat) (ds : List BlockMac)
    (hcap : ks.length ≤ cfg.keyCountLeaf) (hpos : ∀ k ∈ ks, 0 < k) :
    getKeyCount cfg (mkLeaf cfg b ks ds) = ks.length := by
  simp only [getKeyCount, isLeaf_mkLeaf, getKey_mkLeaf b ks ds hcap, Config.keyCount, if_true]
  exact find?_range_zero ks _ hcap hpos

theorem getKeyCount_mkInternal (b : Nat) (ks : List Nat) (cs : List Node)
    (hcap : ks.length ≤ cfg.keyCountInternal) (hpos : ∀ k ∈ ks, 0 < k) :
    getKeyCount cfg (mkInternal cfg b ks cs) = ks.length := by
  simp only [getKeyCount, isLeaf_mkInternal, getKey_mkInternal b ks cs hcap, Config.keyCount,
    Bool.false_eq_true, if_false]
  exact find?_range_zero ks _ hcap hpos

/-- A used key read back: non-zero exactly on the used slots. -/
theorem getD_eq_zero_iff {ks : List Nat} (hpos : ∀ k ∈ ks, 0 < k) (i : Nat) :
    ks.getD i 0 = 0 ↔ ks.length ≤ i := by
  rcases Nat.lt_or_ge i ks.length with h | h
  · have := hpos _ (List.getElem_mem h)
    rw [List.getD_eq_getElem _ _ h]
    omega
  · rw [List.getD_eq_getElem?_getD, List.getElem?_eq_none h]
    simp only [Option.getD_none, true_iff]
    exact h

theorem aboveMinFull_mkLeaf (b : Nat) (ks : List Nat) (ds : List BlockMac)
    (hcap : ks.length ≤ cfg.keyCountLeaf) (hpos : ∀ k ∈ ks, 0 < k) :
    aboveMinFull cfg (mkLeaf cfg b ks ds) = decide (cfg.minKeyCount true < ks.length) := by
  have := cfg.one_le_minKeyCount true
  have h := getD_eq_zero_iff hpos (cfg.minKeyCount true - 1 + 1)
  simp only [aboveMinFull, minFullIndex, isLeaf_mkLeaf, getKey_mkLeaf b ks ds hcap]
  by_cases hlt : cfg.minKeyCount true < ks.length
  · simp only [hlt, decide_true, bne_iff_ne, ne_eq]; omega
  · simp only [hlt, decide_false, bne_eq_false_iff_eq]; omega

theorem aboveMinFull_mkInternal (b : Nat) (ks : List Nat) (cs : List Node)
    (hcap : ks.length ≤ cfg.keyCountInternal) (hpos : ∀ k ∈ ks, 0 < k) :
    aboveMinFull cfg (mkInternal cfg b ks cs) = decide (cfg.minKeyCount false < ks.length) := by
  have := cfg.one_le_minKeyCount false
  have h := getD_eq_zero_iff hpos (cfg.minKeyCount false - 1 + 1)
  simp only [aboveMinFull, minFullIndex, isLeaf_mkInternal, getKey_mkInternal b ks cs hcap]
  by_cases hlt : cfg.minKeyCount false < ks.length
  · simp only [hlt, decide_true, bne_iff_ne, ne_eq]; omega
  · simp only [hlt, decide_false, bne_eq_false_iff_eq]; omega

theorem belowMinFull_mkLeaf (b : Nat) (ks : List Nat) (ds : List BlockMac)
    (hcap : ks.length ≤ cfg.keyCountLeaf) (hpos : ∀ k ∈ ks, 0 < k) :
    belowMinFull cfg (mkLeaf cfg b ks ds) = decide (ks.length < cfg.minKeyCount true) := by
  have := cfg.one_le_minKeyCount true
  have h := getD_eq_zero_iff hpos (cfg.minKeyCount true - 1)
  simp only [belowMinFull, minFullIndex, isLeaf_mkLeaf, getKey_mkLeaf b ks ds hcap]
  by_cases hlt : ks.length < cfg.minKeyCount true
  · simp only [hlt, decide_true, beq_iff_eq]; omega
  · simp only [hlt, decide_false, beq_eq_false_iff_ne, ne_eq]; omega

theorem belowMinFull_mkInternal (b : Nat) (ks : List Nat) (cs : List Node)
    (hcap : ks.length ≤ cfg.keyCountInternal) (hpos : ∀ k ∈ ks, 0 < k) :
    belowMinFull cfg (mkInternal cfg b ks cs) = decide (ks.length < cfg.minKeyCount false) := by
  have := cfg.one_le_minKeyCount false
  have h := getD_eq_zero_iff hpos (cfg.minKeyCount false - 1)
  simp only [belowMinFull, minFullIndex, isLeaf_mkInternal, getKey_mkInternal b ks cs hcap]
  by_cases hlt : ks.length < cfg.minKeyCount false
  · simp only [hlt, decide_true, beq_iff_eq]; omega
  · simp only [hlt, decide_false, beq_eq_false_iff_ne, ne_eq]; omega

end Count

/-! ## Any node

`block_tree_node_shift` on any node whose arrays have all their slots, with
any indices and shift mode: each array is shifted as `Slots.Shifted` says,
the keys at `(dest, src)` and the data or children at the indices
`shiftChildIndices` gives them. -/

section Shift

/-- Four-byte keys and four key slots in every node. -/
def fourSlots : Config := ⟨4, 4, 4, by decide, by decide, by decide, by decide⟩

variable (dest src : Nat) (mode : ShiftMode) (newKeys : List Nat) (newData : List BlockMac)
  (newChildren : List Node)

@[simp] theorem nodeShift_leaf (b : Nat) (ks : List Nat) (ds : List BlockMac) :
    nodeShift cfg (.leaf b ks ds) dest src mode newKeys newData newChildren =
      (.leaf b (Slots.shift 0 cfg.keyCountLeaf dest src ks newKeys).1
          (Slots.shift BlockMac.zero cfg.keyCountLeaf (shiftChildIndices mode dest src).1
            (shiftChildIndices mode dest src).2 ds newData).1,
        (Slots.shift 0 cfg.keyCountLeaf dest src ks newKeys).2,
        (Slots.shift BlockMac.zero cfg.keyCountLeaf (shiftChildIndices mode dest src).1
          (shiftChildIndices mode dest src).2 ds newData).2, []) := rfl

@[simp] theorem nodeShift_internal (b : Nat) (ks : List Nat) (cs : List Node) :
    nodeShift cfg (.internal b ks cs) dest src mode newKeys newData newChildren =
      (.internal b (Slots.shift 0 cfg.keyCountInternal dest src ks newKeys).1
          (Slots.shift Node.empty (cfg.keyCountInternal + 1) (shiftChildIndices mode dest src).1
            (shiftChildIndices mode dest src).2 cs newChildren).1,
        (Slots.shift 0 cfg.keyCountInternal dest src ks newKeys).2, [],
        (Slots.shift Node.empty (cfg.keyCountInternal + 1) (shiftChildIndices mode dest src).1
          (shiftChildIndices mode dest src).2 cs newChildren).2) := rfl

/-- Without `SHIFT_RIGHT_CHILD` the second array moves with the keys. -/
theorem shiftChildIndices_of_right_false {mode : ShiftMode} (h : mode.right = false) :
    shiftChildIndices mode dest src = (dest, src) := by
  simp [shiftChildIndices, h]

/-- `block_tree_node_shift` shifts each array of a node as an insert or a
delete: the key array at `(dest, src)`; the data array of a leaf (where
`SHIFT_RIGHT_CHILD` is asserted clear) with the keys; the child array of an
internal node at the indices `shiftChildIndices` moves to, one further with
`SHIFT_RIGHT_CHILD`. -/
theorem nodeShift_shifted (n : Node) (hkeys : n.keys.length = cfg.keyCount n.isLeaf)
    (hdata : n.isLeaf → n.data.length = cfg.keyCountLeaf)
    (hchildren : n.isLeaf = false → n.children.length = cfg.keyCountInternal + 1) :
    Slots.Shifted 0 (cfg.keyCount n.isLeaf) dest src n.keys newKeys
        (nodeShift cfg n dest src mode newKeys newData newChildren).1.keys
        (nodeShift cfg n dest src mode newKeys newData newChildren).2.1 ∧
      (n.isLeaf → mode.right = false →
        Slots.Shifted BlockMac.zero cfg.keyCountLeaf dest src n.data newData
          (nodeShift cfg n dest src mode newKeys newData newChildren).1.data
          (nodeShift cfg n dest src mode newKeys newData newChildren).2.2.1) ∧
      (n.isLeaf = false →
        Slots.Shifted Node.empty (cfg.keyCountInternal + 1) (shiftChildIndices mode dest src).1
          (shiftChildIndices mode dest src).2 n.children newChildren
          (nodeShift cfg n dest src mode newKeys newData newChildren).1.children
          (nodeShift cfg n dest src mode newKeys newData newChildren).2.2.2) := by
  cases n with
  | empty =>
    -- no node has an empty key array
    have := cfg.two_le_keyCount false
    simp [Node.keys, Node.isLeaf] at hkeys
    omega
  | leaf b ks ds =>
    refine ⟨?_, fun _ hright => ?_, fun h => absurd h (by simp)⟩
    · exact Slots.shift_shifted 0 cfg.keyCountLeaf dest src ks newKeys hkeys
    · simp only [nodeShift_leaf, Node.data, shiftChildIndices_of_right_false dest src hright]
      exact Slots.shift_shifted BlockMac.zero cfg.keyCountLeaf dest src ds newData (hdata rfl)
  | internal b ks cs =>
    refine ⟨?_, fun h => absurd h (by simp), fun _ => ?_⟩
    · exact Slots.shift_shifted 0 cfg.keyCountInternal dest src ks newKeys hkeys
    · exact Slots.shift_shifted Node.empty (cfg.keyCountInternal + 1) _ _ cs newChildren
        (hchildren rfl)

theorem nodeShift_shifted_four :
    ([5, 6, 0, 0] : List Nat).length = fourSlots.keyCount true ∧
      ([⟨10, 0⟩, ⟨11, 0⟩, .zero, .zero] : List BlockMac).length = fourSlots.keyCountLeaf ∧
      Slots.Shifted 0 4 2 1 [5, 6, 0, 0] [7]
        (nodeShift fourSlots (.leaf 1 [5, 6, 0, 0] [⟨10, 0⟩, ⟨11, 0⟩, .zero, .zero]) 2 1
          .leafOrLeftChild [7] [⟨12, 0⟩] []).1.keys
        (nodeShift fourSlots (.leaf 1 [5, 6, 0, 0] [⟨10, 0⟩, ⟨11, 0⟩, .zero, .zero]) 2 1
          .leafOrLeftChild [7] [⟨12, 0⟩] []).2.1 ∧
      (nodeShift fourSlots (.leaf 1 [5, 6, 0, 0] [⟨10, 0⟩, ⟨11, 0⟩, .zero, .zero]) 2 1
          .leafOrLeftChild [7] [⟨12, 0⟩] []).1.keys = [5, 7, 6, 0] :=
  ⟨rfl, rfl, (@nodeShift_shifted fourSlots 2 1 .leafOrLeftChild [7] [⟨12, 0⟩] []
    (.leaf 1 [5, 6, 0, 0] [⟨10, 0⟩, ⟨11, 0⟩, .zero, .zero]) rfl (fun _ => rfl)
    (fun h => absurd h (by simp))).1, rfl⟩

/-- `max_count - MAX(src_index, dest_index)` with the destination one past a
full array wraps to `2^32 - 1`. -/
theorem shiftMoveCount_past_end (m : Nat) : shiftMoveCount m (m + 1) 0 = 4294967295 := by
  rw [shiftMoveCount, Nat.max_eq_right (Nat.zero_le _)]
  apply UInt32.toNat_inj.mp
  simp

/-- The entry assertion `dest_index <= max_count + !is_leaf + 1` lets an
insert into a leaf end past its array: in a leaf of four slots,
`dest_index = 5` with `src_index = 0`.  The `memmove` count
`max_count - MAX(src_index, dest_index)` then wraps to `2^32 - 1` slots. -/
theorem nodeShift_insert_past_end :
    5 ≤ fourSlots.keyCount (Node.leaf 1 [5, 6, 0, 0] [⟨10, 0⟩, ⟨11, 0⟩, .zero, .zero]).isLeaf + 0 + 1 ∧
      0 < fourSlots.keyCountLeaf ∧ fourSlots.keyCountLeaf < 5 ∧
      shiftMoveCount fourSlots.keyCountLeaf 5 0 = 4294967295 :=
  ⟨by decide, by decide, by decide, shiftMoveCount_past_end 4⟩

end Shift

end BlockTree
