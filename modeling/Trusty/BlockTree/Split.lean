import Trusty.BlockTree.Chain

/-!
# Splitting a full node

`block_tree_node_split` is called with a full node and one more entry, the
one `block_tree_node_insert` pushed out of it.  With `eks` the node's keys
and that entry's key, `key_count + 1` keys in all, and `s = (key_count + 1) / 2`:

* a leaf keeps the first `s` entries, the new right leaf gets the rest, and
  the first key of the right leaf is copied to the parent
  (`splitHalves_mkLeaf`);
* an internal node keeps the first `s` keys and `s + 1` children, the right
  node gets the keys after key `s` and the children after child `s`, and key
  `s` moves to the parent (`splitHalves_mkInternal`).

Both halves are at least half full (`splitIndex_fill`), so they are valid
non-root nodes (`LeafChain.split_valid`, `Chain.split_valid`).
-/

namespace BlockTree

variable {cfg : Config}

@[simp] theorem setBlock_mkLeaf (b b' : Nat) (ks : List Nat) (ds : List BlockMac) :
    (mkLeaf cfg b ks ds).setBlock b' = mkLeaf cfg b' ks ds := rfl

@[simp] theorem setBlock_mkInternal (b b' : Nat) (ks : List Nat) (cs : List Node) :
    (mkInternal cfg b ks cs).setBlock b' = mkInternal cfg b' ks cs := rfl

/-- The list `l` of length `n + 1` is its first `n` elements and its last. -/
theorem take_append_getD {α : Type} (l : List α) (n : Nat) (d : α) (h : l.length = n + 1) :
    l = l.take n ++ [l.getD n d] := by
  rw [List.getD_eq_getElem _ _ (by omega)]
  conv_lhs => rw [← List.take_append_drop n l]
  rw [List.drop_eq_getElem_cons (by omega), List.drop_eq_nil_of_le (by omega)]

/-- Inserting at the end is appending. -/
theorem take_append_cons_drop_length {α : Type} (l : List α) (x : α) (n : Nat) (h : n = l.length) :
    l.take n ++ x :: l.drop n = l ++ [x] := by
  subst h
  rw [List.take_length, List.drop_length]

/-- Splitting a full leaf, with the entry it pushed out appended. -/
theorem splitHalves_mkLeaf (b rb : Nat) (eks : List Nat) (eds : List BlockMac) (c : Node)
    (hlen : eks.length = cfg.keyCountLeaf + 1) (hdlen : eds.length = eks.length)
    (hkey : cfg.KeyFits (eks.getD cfg.keyCountLeaf 0)) (hidx : cfg.IndexFits) :
    let s := (cfg.keyCountLeaf + 1) / 2
    splitHalves cfg (mkLeaf cfg b (eks.take cfg.keyCountLeaf) (eds.take cfg.keyCountLeaf))
        (mkLeaf cfg rb (eks.take cfg.keyCountLeaf) (eds.take cfg.keyCountLeaf))
        (eks.getD cfg.keyCountLeaf 0) (eds.getD cfg.keyCountLeaf BlockMac.zero) c =
      (mkLeaf cfg b (eks.take s) (eds.take s), mkLeaf cfg rb (eks.drop s) (eds.drop s),
        eks.getD s 0) := by
  intro s
  have hkc := cfg.two_le_leaf
  have hs1 : 1 ≤ s := by omega
  have hs2 : s < cfg.keyCountLeaf := by omega
  have hk : (eks.take cfg.keyCountLeaf).length = cfg.keyCountLeaf := by simp; omega
  have hd : (eds.take cfg.keyCountLeaf).length = cfg.keyCountLeaf := by simp; omega
  simp only [splitHalves, isLeaf_mkLeaf, Config.keyCount, if_true, Nat.add_zero, Nat.sub_zero]
  rw [nodeClearEnd_mkLeaf _ _ _ s (by omega) (by omega) (by omega) hidx,
    getKey_mkLeaf _ _ _ (by omega),
    nodeShiftDown_mkLeaf _ _ _ 0 s (by omega) (by omega) (by omega) (by omega),
    nodeInsert_mkLeaf _ _ _ (cfg.keyCountLeaf - s) _ _ _ (by simp; omega) (by simp; omega)
      (by simp; omega), cfg.keyBytes_of_fits hkey]
  -- the right half is the kept entries after `s`, then the appended one
  have hkr : (eks.take cfg.keyCountLeaf).drop s ++ [eks.getD cfg.keyCountLeaf 0] = eks.drop s := by
    conv_rhs => rw [take_append_getD eks cfg.keyCountLeaf 0 hlen]
    rw [List.drop_append_of_le_length (by omega)]
  have hdr : (eds.take cfg.keyCountLeaf).drop s ++ [eds.getD cfg.keyCountLeaf BlockMac.zero] =
      eds.drop s := by
    conv_rhs => rw [take_append_getD eds cfg.keyCountLeaf BlockMac.zero (by omega)]
    rw [List.drop_append_of_le_length (by omega)]
  have hlk : ((eks.take cfg.keyCountLeaf).drop s).length = cfg.keyCountLeaf - s := by simp; omega
  have hld : ((eds.take cfg.keyCountLeaf).drop s).length = cfg.keyCountLeaf - s := by simp; omega
  simp only [List.take_zero, List.nil_append]
  rw [take_append_cons_drop_length _ _ _ hlk.symm, take_append_cons_drop_length _ _ _ hld.symm,
    hkr, hdr, List.take_take, Nat.min_eq_left (Nat.le_of_lt hs2), List.take_take,
    Nat.min_eq_left (Nat.le_of_lt hs2), List.getD_eq_getElem?_getD, List.getD_eq_getElem?_getD,
    List.getElem?_take_of_lt hs2]

/-- Splitting a full internal node, with the key and right child it pushed
out appended. -/
theorem splitHalves_mkInternal (b rb : Nat) (eks : List Nat) (ecs : List Node) (d : BlockMac)
    (hlen : eks.length = cfg.keyCountInternal + 1) (hclen : ecs.length = eks.length + 1)
    (hkey : cfg.KeyFits (eks.getD cfg.keyCountInternal 0)) (hidx : cfg.IndexFits) :
    let s := (cfg.keyCountInternal + 1) / 2
    splitHalves cfg
        (mkInternal cfg b (eks.take cfg.keyCountInternal) (ecs.take (cfg.keyCountInternal + 1)))
        (mkInternal cfg rb (eks.take cfg.keyCountInternal) (ecs.take (cfg.keyCountInternal + 1)))
        (eks.getD cfg.keyCountInternal 0) d (ecs.getD (cfg.keyCountInternal + 1) .empty) =
      (mkInternal cfg b (eks.take s) (ecs.take (s + 1)),
        mkInternal cfg rb (eks.drop (s + 1)) (ecs.drop (s + 1)), eks.getD s 0) := by
  intro s
  have hkc := cfg.two_le_internal
  have hs1 : 1 ≤ s := by omega
  have hs2 : s < cfg.keyCountInternal := by omega
  have hk : (eks.take cfg.keyCountInternal).length = cfg.keyCountInternal := by simp; omega
  have hc : (ecs.take (cfg.keyCountInternal + 1)).length = cfg.keyCountInternal + 1 := by
    simp; omega
  simp only [splitHalves, isLeaf_mkInternal, Config.keyCount, Bool.false_eq_true, if_false]
  rw [nodeClearEnd_mkInternal _ _ _ s (by omega) (by omega) (by omega) hidx,
    getKey_mkInternal _ _ _ (by omega),
    nodeShiftDown_mkInternal_left _ _ _ 0 (s + 1) (by omega) (by omega) (by omega) (by omega)]
  simp only [List.take_zero, List.nil_append]
  have hins := nodeInsert_mkInternal rb ((eks.take cfg.keyCountInternal).drop (s + 1))
    ((ecs.take (cfg.keyCountInternal + 1)).drop (s + 1)) true (cfg.keyCountInternal - s - 1)
    (eks.getD cfg.keyCountInternal 0) d (ecs.getD (cfg.keyCountInternal + 1) .empty)
    (by simp; omega) (by simp; omega) (by simp; omega) hidx
  simp only [if_true] at hins
  rw [hins, cfg.keyBytes_of_fits hkey]
  -- the right node is the kept keys and children after `s`, then the appended ones
  have hlk : ((eks.take cfg.keyCountInternal).drop (s + 1)).length =
      cfg.keyCountInternal - s - 1 := by simp; omega
  have hlc : ((ecs.take (cfg.keyCountInternal + 1)).drop (s + 1)).length =
      cfg.keyCountInternal - s - 1 + 1 := by simp; omega
  have hkr : (eks.take cfg.keyCountInternal).drop (s + 1) ++ [eks.getD cfg.keyCountInternal 0] =
      eks.drop (s + 1) := by
    conv_rhs => rw [take_append_getD eks cfg.keyCountInternal 0 hlen]
    rw [List.drop_append_of_le_length (by omega)]
  have hcr : (ecs.take (cfg.keyCountInternal + 1)).drop (s + 1) ++
      [ecs.getD (cfg.keyCountInternal + 1) .empty] = ecs.drop (s + 1) := by
    conv_rhs => rw [take_append_getD ecs (cfg.keyCountInternal + 1) .empty (by omega)]
    rw [List.drop_append_of_le_length (by omega)]
  rw [take_append_cons_drop_length _ _ _ hlk.symm, take_append_cons_drop_length _ _ _ hlc.symm,
    hkr, hcr, List.take_take, Nat.min_eq_left (Nat.le_of_lt hs2), List.take_take,
    Nat.min_eq_left (by omega), List.getD_eq_getElem?_getD, List.getD_eq_getElem?_getD,
    List.getElem?_take_of_lt hs2]

/-! ## The halves are valid -/

/-- With `key_count + 1` entries split at `(key_count + 1) / 2`, both halves
hold at least `key_count / 2` and at most `key_count` of them (one less on the
right of an internal node, whose middle key moves up). -/
theorem splitIndex_fill (kc : Nat) (hkc : 2 ≤ kc) :
    let s := (kc + 1) / 2
    1 ≤ s ∧ s < kc ∧ kc / 2 ≤ s ∧ kc / 2 ≤ kc - s ∧ 1 ≤ kc - s := by
  intro s
  omega

theorem LeafChain.split_valid {lo hi b rb : Nat} {eks : List Nat} {eds : List BlockMac}
    (h : LeafChain lo hi eks eds) (hlen : eks.length = cfg.keyCountLeaf + 1) (hb : b ≠ 0)
    (hrb : rb ≠ 0) :
    let s := (cfg.keyCountLeaf + 1) / 2
    Valid cfg ⟨false, 1, lo, eks.getD s 0⟩ (mkLeaf cfg b (eks.take s) (eds.take s)) ∧
      Valid cfg ⟨false, 1, eks.getD s 0, hi⟩ (mkLeaf cfg rb (eks.drop s) (eds.drop s)) := by
  intro s
  obtain ⟨hs1, hs2, hf1, hf2, -⟩ := splitIndex_fill cfg.keyCountLeaf cfg.two_le_leaf
  have hs : s < eks.length := by omega
  obtain ⟨hl, hr⟩ := h.halves s hs
  rw [List.getD_eq_getElem _ _ hs]
  refine ⟨(hl.leafOk hb (by simp; omega) (fun _ => ?_) rfl).valid,
    (hr.leafOk hrb (by simp; omega) (fun _ => ?_) rfl).valid⟩
  · simp only [List.length_take, Config.minKeyCount, Config.keyCount, if_true]; omega
  · simp only [List.length_drop, Config.minKeyCount, Config.keyCount, if_true]; omega

theorem Chain.split_valid {bd : Bounds} {b rb : Nat} {eks : List Nat} {ecs : List Node}
    (h : Chain cfg bd eks ecs) (hlen : eks.length = cfg.keyCountInternal + 1) (hb : b ≠ 0)
    (hrb : rb ≠ 0) (hheight : 2 ≤ bd.height) :
    let s := (cfg.keyCountInternal + 1) / 2
    Valid cfg ⟨false, bd.height, bd.lo, eks.getD s 0⟩
        (mkInternal cfg b (eks.take s) (ecs.take (s + 1))) ∧
      Valid cfg ⟨false, bd.height, eks.getD s 0, bd.hi⟩
        (mkInternal cfg rb (eks.drop (s + 1)) (ecs.drop (s + 1))) := by
  intro s
  obtain ⟨hs1, hs2, hf1, hf2, hf3⟩ := splitIndex_fill cfg.keyCountInternal cfg.two_le_internal
  have hs : s < eks.length := by omega
  obtain ⟨hl, hr⟩ := h.halves s hs
  rw [List.getD_eq_getElem _ _ hs]
  refine ⟨(hl.internalOk hb (by simp; omega) ?_ (fun _ => ?_) hheight).valid,
    (hr.internalOk hrb (by simp; omega) ?_ (fun _ => ?_) hheight).valid⟩
  · exact List.ne_nil_of_length_pos (by simp; omega)
  · simp only [List.length_take, Config.minKeyCount, Config.keyCount, Bool.false_eq_true,
      if_false]; omega
  · exact List.ne_nil_of_length_pos (by simp; omega)
  · simp only [List.length_drop, Config.minKeyCount, Config.keyCount, Bool.false_eq_true,
      if_false]; omega

/-! ## Overfull nodes -/

/-- `splitHalves` commutes with `shape`, as the slot operations it is made of do. -/
theorem shape_splitHalves (l r : Node) (k : Nat) (d : BlockMac) (c : Node) :
    splitHalves cfg (shape l) (shape r) k d (shape c) =
      (shape (splitHalves cfg l r k d c).1, shape (splitHalves cfg l r k d c).2.1,
        (splitHalves cfg l r k d c).2.2) := by
  simp only [splitHalves, isLeaf_shape, shape_nodeClearEnd, getKey_shape, shape_nodeShiftDown,
    shape_nodeInsert]

variable (cfg) in
/-- A node at `bd` (as a shape, in block `1`) that has received one entry too
many: `n` is what is stored, its first `key_count` entries, and the key,
data and child pushed out of it come next; `es` are the entries of them all. -/
inductive Overfull (bd : Bounds) : Node → Nat → BlockMac → Node → List (Nat × BlockMac) → Prop
  | leaf {eks : List Nat} {eds : List BlockMac} (h : LeafChain bd.lo bd.hi eks eds)
      (hlen : eks.length = cfg.keyCountLeaf + 1) (hheight : bd.height = 1) :
      Overfull bd (mkLeaf cfg 1 (eks.take cfg.keyCountLeaf) (eds.take cfg.keyCountLeaf))
        (eks.getD cfg.keyCountLeaf 0) (eds.getD cfg.keyCountLeaf BlockMac.zero) .empty
        (eks.zip eds)
  | internal {eks : List Nat} {ecs : List Node} (d : BlockMac) (h : Chain cfg bd eks ecs)
      (hlen : eks.length = cfg.keyCountInternal + 1) (hheight : 2 ≤ bd.height)
      (hshape : ∀ c ∈ ecs, shape c = c) :
      Overfull bd (mkInternal cfg 1 (eks.take cfg.keyCountInternal)
          (ecs.take (cfg.keyCountInternal + 1)))
        (eks.getD cfg.keyCountInternal 0) d (ecs.getD (cfg.keyCountInternal + 1) .empty)
        (ecs.flatMap entries)

theorem shape_mkLeaf_one (ks : List Nat) (ds : List BlockMac) :
    shape (mkLeaf cfg 1 ks ds) = mkLeaf cfg 1 ks ds := by
  simp [mkLeaf]

theorem shape_mkInternal_one (ks : List Nat) (cs : List Node) (hcs : ∀ c ∈ cs, shape c = c) :
    shape (mkInternal cfg 1 ks cs) = mkInternal cfg 1 ks cs := by
  rw [shape_mkInternal]
  simp only [Nat.min_self, List.map_congr_left hcs, List.map_id']

/-- An overfull node splits into two valid halves around a key within its
bounds, which keep its entries and are shapes. -/
theorem Overfull.split {bd : Bounds} {n : Node} {k : Nat} {d : BlockMac} {c : Node}
    {es : List (Nat × BlockMac)} (h : Overfull cfg bd n k d c es)
    (hhi : bd.hi < 2 ^ (8 * cfg.keySize)) (hidx : cfg.IndexFits) :
    ∃ l r pk, splitHalves cfg n n k d c = (l, r, pk) ∧
      Valid cfg ⟨false, bd.height, bd.lo, pk⟩ l ∧ Valid cfg ⟨false, bd.height, pk, bd.hi⟩ r ∧
      0 < pk ∧ entries l ++ entries r = es ∧ shape l = l ∧ shape r = r := by
  cases h with
  | @leaf eks eds hc hlen hheight =>
    have hk : cfg.KeyFits (eks.getD cfg.keyCountLeaf 0) := by
      rw [List.getD_eq_getElem _ _ (by omega)]
      exact Nat.lt_of_le_of_lt (hc.hkeys.mem_bounds (List.getElem_mem _)).2 hhi
    have hs := splitIndex_fill cfg.keyCountLeaf cfg.two_le_leaf
    have hlen' := hc.hlen
    obtain ⟨hl, hr⟩ := hc.split_valid hlen one_ne_zero one_ne_zero
    refine ⟨_, _, _, splitHalves_mkLeaf 1 1 eks eds .empty hlen hc.hlen hk hidx,
      by rw [hheight]; exact hl, by rw [hheight]; exact hr, ?_, ?_,
      shape_mkLeaf_one _ _, shape_mkLeaf_one _ _⟩
    · rw [List.getD_eq_getElem _ _ (by omega)]
      exact hc.hkeys.pos _ (List.getElem_mem _)
    · have hpos := hc.hkeys.pos
      rw [entries_mkLeaf cfg _ _ _ (fun k hk => hpos k (List.mem_of_mem_take hk)) (by simp; omega),
        entries_mkLeaf cfg _ _ _ (fun k hk => hpos k (List.mem_of_mem_drop hk)) (by simp; omega),
        ← List.zip_append (by simp; omega), List.take_append_drop, List.take_append_drop]
  | @internal eks ecs d hc hlen hheight hshape =>
    have hk : cfg.KeyFits (eks.getD cfg.keyCountInternal 0) := by
      rw [List.getD_eq_getElem _ _ (by omega)]
      exact Nat.lt_of_le_of_lt (hc.hkeys.mem_bounds (List.getElem_mem _)).2 hhi
    have hlen' := hc.hlen
    obtain ⟨hl, hr⟩ := hc.split_valid hlen one_ne_zero one_ne_zero hheight
    refine ⟨_, _, _, splitHalves_mkInternal 1 1 eks ecs d hlen hc.hlen hk hidx, hl, hr, ?_, ?_,
      shape_mkInternal_one _ _ (fun c hc => hshape c (List.mem_of_mem_take hc)),
      shape_mkInternal_one _ _ (fun c hc => hshape c (List.mem_of_mem_drop hc))⟩
    · rw [List.getD_eq_getElem _ _ (by omega)]
      exact hc.hkeys.pos _ (List.getElem_mem _)
    · rw [entries_mkInternal cfg, entries_mkInternal cfg, ← List.flatMap_append, List.take_append_drop]

end BlockTree
