import Trusty.BlockTree.Split

/-!
# Insertion keeps the invariant and adds one entry

* `splitParent`: the two halves of a split child and the key between them
  put into the parent; the parent stays valid, or is overfull in turn.
* `nodeSplit_ok`: the cascade of `block_tree_node_split` from an overfull
  node up to a new root leaves a valid tree, one level higher if the root
  was split, whose entries are those of the overfull node in its place
  (`SplitDone`).  It goes by induction on the depth of the overfull node:
  the parent takes both halves (`splitDone_of_put`), or overflows and the
  split one level up leaves what this one must (`splitDone_of_parent`), or
  the node is the root (`nodeSplit_root`).
* `insertBlockMac_ok`: `block_tree_insert_block_mac` of a key within the
  key range into a valid tree, or a tree without a root, gives a valid tree
  at most one level higher whose entries are the old ones with the new
  entry put among them, where the walk for the key led (`InsertDone`).

All of this is about the tree seen through `shape`: copy-on-write moves
nodes to new blocks, which `shape` forgets, and `BlocksBelow` keeps the
blocks in use below the allocator's bound.
-/

namespace BlockTree

open OptionSpec

variable {cfg : Config}

/-! ## Putting the halves into the parent -/

/-- The child at `p` replaced by the two children `l` and `r`, after
`block_tree_node_insert` of `r` at `p + 1` and the slot of `p` set to `l`. -/
theorem set_insert_pair {α : Type} (cs : List α) (p : Nat) (hp : p < cs.length) (n l r : α) :
    ((cs.set p n).take (p + 1) ++ r :: (cs.set p n).drop (p + 1)).set p l =
      cs.take p ++ [l, r] ++ cs.drop (p + 1) := by
  have hset : cs.set p n = cs.take p ++ n :: cs.drop (p + 1) := by
    rw [List.set_eq_take_append_cons_drop, if_pos hp]
  have htake : (cs.take p).length = p := by simp; omega
  have h1 : (cs.set p n).take (p + 1) = cs.take p ++ [n] := by
    rw [hset, List.take_append, htake, List.take_of_length_le (by omega), Nat.add_sub_cancel_left]
    rfl
  have h2 : (cs.set p n).drop (p + 1) = cs.drop (p + 1) := by
    rw [hset, List.drop_append, htake, List.drop_of_length_le (by omega), List.nil_append,
      Nat.add_sub_cancel_left]
    rfl
  rw [h1, h2, List.append_assoc, List.set_append_right _ _ (by omega), htake, Nat.sub_self]
  simp only [List.set_cons_zero, List.append_assoc, List.cons_append, List.nil_append]

section Parent

variable {bd : Bounds} {kq : List Nat} {cq : List Node}

/-- The parent of a split node, with the halves `l` and `r` and the key `pk`
between them in place of the node at `p`: it is again a chain, stored
whole, or with its last key and child pushed out when it was full. -/
theorem splitParent (hint : InternalOk cfg bd 1 kq cq) (hshape : ∀ c ∈ cq, shape c = c)
    (p : Nat) (hp : p < cq.length) (n l r : Node) (pk : Nat)
    (hl : Valid cfg ⟨false, bd.height - 1, fence bd.lo bd.hi kq p, pk⟩ l)
    (hr : Valid cfg ⟨false, bd.height - 1, pk, fence bd.lo bd.hi kq (p + 1)⟩ r) (hpk : 0 < pk)
    (hls : shape l = l) (hrs : shape r = r) (hfit : cfg.KeyFits pk) (hidx : cfg.IndexFits) :
    let res := nodeInsert cfg (mkInternal cfg 1 kq (cq.set p n)) p .rightChild pk BlockMac.zero r
    let ks' := replaceKeys kq p 1 [pk]
    let cs' := cq.take p ++ [l, r] ++ cq.drop (p + 1)
    Chain cfg bd ks' cs' ∧ (∀ c ∈ cs', shape c = c) ∧
      (kq.length < cfg.keyCountInternal →
        setChild res.1 p l = mkInternal cfg 1 ks' cs' ∧ res.2.1 = 0) ∧
      (kq.length = cfg.keyCountInternal →
        setChild res.1 p l =
            mkInternal cfg 1 (ks'.take cfg.keyCountInternal) (cs'.take (cfg.keyCountInternal + 1)) ∧
          res.2.1 = ks'.getD cfg.keyCountInternal 0 ∧
          res.2.2.2 = cs'.getD (cfg.keyCountInternal + 1) .empty) := by
  intro res ks' cs'
  have hlen := hint.hlen
  have hcap := hint.hcap
  have hks' : ks' = kq.take p ++ cfg.keyBytes pk :: kq.drop p := by
    simp only [ks', replaceKeys, Nat.add_sub_cancel, cfg.keyBytes_of_fits hfit, List.append_assoc,
      List.singleton_append]
  have hset : (cq.set p n).length = kq.length + 1 := by simp; omega
  refine ⟨hint.chain.replace p 1 le_rfl (by omega) ?_, ?_, fun hlt => ?_, fun heq => ?_⟩
  · -- the halves between the fences of the old child
    exact Chain.pair hl hr hpk hl.lo_le_hi hr.lo_le_hi
  · intro c hc
    simp only [cs', List.mem_append, List.mem_cons, List.not_mem_nil, or_false] at hc
    rcases hc with (hc | rfl | rfl) | hc
    · exact hshape c (List.mem_of_mem_take hc)
    · exact hls
    · exact hrs
    · exact hshape c (List.mem_of_mem_drop hc)
  · have hins := nodeInsert_mkInternal 1 kq (cq.set p n) true p pk BlockMac.zero r (by omega) hlt
      hset hidx
    simp only [if_true] at hins
    simp only [res, hins, and_true]
    rw [setChild_mkInternal 1 _ _ p l (by simp; omega), set_insert_pair cq p hp n l r, hks']
  · have hins := nodeInsert_mkInternal_full 1 kq (cq.set p n) p pk BlockMac.zero r (by omega) heq
      hset hidx
    simp only [res, hins]
    have hecq : ((cq.set p n).take (p + 1) ++ r :: (cq.set p n).drop (p + 1)).set p l = cs' :=
      set_insert_pair cq p hp n l r
    have htake := (@List.take_set _ ((cq.set p n).take (p + 1) ++ r :: (cq.set p n).drop (p + 1))
      (cfg.keyCountInternal + 1) p l).symm
    refine ⟨?_, by rw [hks'], ?_⟩
    · rw [setChild_mkInternal 1 _ _ p l (by simp; omega), htake, hecq, hks']
    · rw [← hecq, List.getD_eq_getElem?_getD, List.getD_eq_getElem?_getD,
        List.getElem?_set_ne (by omega)]

end Parent

/-! ## One step of the split cascade -/

theorem BlocksBelow.splitHalves {bc : Nat} {l r c : Node} (hl : BlocksBelow bc l)
    (hr : BlocksBelow bc r) (hc : BlocksBelow bc c) (k : Nat) (d : BlockMac) :
    BlocksBelow bc (splitHalves cfg l r k d c).1 ∧ BlocksBelow bc (splitHalves cfg l r k d c).2.1 :=
  ⟨hl.nodeClearEnd cfg _, ((hr.nodeShiftDown cfg _ _ _).nodeInsert cfg hc _ _ _ _).1⟩

/-- A node in block `b ≠ 0`, whatever its blocks below, split as its shape is. -/
theorem shape_split_eq {bd : Bounds} {n : Node} {k : Nat} {d : BlockMac} {c0 : Node}
    {es : List (Nat × BlockMac)} (hov : Overfull cfg bd n k d c0 es) {node c : Node} {rb : Nat}
    (hrb : rb ≠ 0) (hnode : shape node = n) (hc : shape c = c0) :
    splitHalves cfg n n k d c0 =
      (shape (splitHalves cfg node (node.setBlock rb) k d c).1,
        shape (splitHalves cfg node (node.setBlock rb) k d c).2.1,
        (splitHalves cfg node (node.setBlock rb) k d c).2.2) := by
  have hn0 : node.block ≠ 0 := by
    intro h0
    have := congrArg Node.block hnode
    rw [block_shape, h0] at this
    cases hov <;> simp at this
  rw [← shape_splitHalves, shape_setBlock hrb hn0, hnode, hc]

variable {bd bdQ : Bounds} {n : Node} {k : Nat} {d : BlockMac} {c0 : Node}
  {es : List (Nat × BlockMac)} {kq : List Nat} {cq : List Node}

/-- The split of the child at `p`, put into its parent: the parent's chain
with the two halves in place of the child, stored whole or overfull. -/
theorem splitStep (hov : Overfull cfg bd n k d c0 es) (hhi : bd.hi < 2 ^ (8 * cfg.keySize))
    (hidx : cfg.IndexFits) (hint : InternalOk cfg bdQ 1 kq cq) (hshape : ∀ c ∈ cq, shape c = c)
    (p : Nat) (hp : p < cq.length) (hbd : bd = bdQ.child kq p) {node parent c : Node} {rb : Nat}
    (hrb : rb ≠ 0) (hnode : shape node = n) (hc : shape c = c0)
    (hparent : shape parent = mkInternal cfg 1 kq (cq.set p n)) :
    let res := splitHalves cfg node (node.setBlock rb) k d c
    let res' := nodeInsert cfg parent p .rightChild res.2.2 BlockMac.zero res.2.1
    let ks' := replaceKeys kq p 1 [res.2.2]
    let cs' := cq.take p ++ [shape res.1, shape res.2.1] ++ cq.drop (p + 1)
    Chain cfg bdQ ks' cs' ∧ (∀ c ∈ cs', shape c = c) ∧
      cs'.flatMap entries = (cq.take p).flatMap entries ++ es ++ (cq.drop (p + 1)).flatMap entries ∧
      (kq.length < cfg.keyCountInternal →
        shape (setChild res'.1 p res.1) = mkInternal cfg 1 ks' cs' ∧ res'.2.1 = 0) ∧
      (kq.length = cfg.keyCountInternal →
        shape (setChild res'.1 p res.1) =
            mkInternal cfg 1 (ks'.take cfg.keyCountInternal) (cs'.take (cfg.keyCountInternal + 1)) ∧
          res'.2.1 = ks'.getD cfg.keyCountInternal 0 ∧
          shape res'.2.2.2 = cs'.getD (cfg.keyCountInternal + 1) .empty) := by
  intro res res' ks' cs'
  obtain ⟨l, r, pk, hsplit, hl, hr, hpk, hes, hls, hrs⟩ := hov.split hhi hidx
  rw [shape_split_eq hov hrb hnode hc] at hsplit
  simp only [Prod.mk.injEq] at hsplit
  obtain ⟨rfl, rfl, rfl⟩ := hsplit
  subst hbd
  have hfit : cfg.KeyFits res.2.2 := Nat.lt_of_le_of_lt hr.lo_le_hi hhi
  have hpar := splitParent hint hshape p hp n _ _ _ hl hr hpk hls hrs hfit hidx
  -- the parent as computed, seen through `shape`
  have hins := shape_nodeInsert cfg parent p .rightChild res.2.2 BlockMac.zero res.2.1
  rw [hparent] at hins
  have hins1 := congrArg (·.1) hins
  have hins2 := congrArg (·.2.1) hins
  have hins3 := congrArg (·.2.2.2) hins
  simp only at hins1 hins2 hins3
  obtain ⟨hchain, hshapes, hfree, hfull⟩ := hpar
  refine ⟨hchain, hshapes, ?_, fun hlt => ?_, fun heq => ?_⟩
  · rw [List.flatMap_append, List.flatMap_append, List.flatMap_cons, List.flatMap_cons,
      List.flatMap_nil, List.append_nil, ← hes]
  · obtain ⟨h1, h2⟩ := hfree hlt
    rw [hins1] at h1
    rw [hins2] at h2
    exact ⟨by rw [shape_setChild, h1], h2⟩
  · obtain ⟨h1, h2, h3⟩ := hfull heq
    rw [hins1] at h1
    rw [hins2] at h2
    rw [hins3] at h3
    exact ⟨by rw [shape_setChild, h1], h2, h3⟩

/-! ## Positions in the tree being split -/

/-- An internal node that is its own shape is in block `1`, over children
that are their own shapes. -/
theorem mkInternal_shape_eq {b : Nat} {ks : List Nat} {cs : List Node} (hb : b ≠ 0)
    (h : shape (mkInternal cfg b ks cs) = mkInternal cfg b ks cs) :
    b = 1 ∧ ∀ c ∈ cs, shape c = c := by
  rw [shape_mkInternal] at h
  simp only [mkInternal, Node.internal.injEq] at h
  obtain ⟨hb1, -, hch⟩ := h
  have hmap : cs.map shape = cs := by
    have := congrArg (List.take cs.length) hch
    rwa [Slots.pad, Slots.pad, List.take_left' (by simp), List.take_left' rfl] at this
  refine ⟨by omega, fun c hc => ?_⟩
  obtain ⟨i, hi, rfl⟩ := List.getElem_of_mem hc
  have := congrArg (·[i]?) hmap
  simpa [hi] using this

section Positions

variable {bd bd' : Bounds} {root0 M : Node}

theorem ValidAt.shape_eq {is : List Nat} (h : ValidAt cfg bd root0 is bd' M)
    (hroot0 : shape root0 = root0) : shape M = M := by
  rw [← h.subtreeAt_eq, shape_subtreeAt, hroot0]

/-- The parent of a position in a tree of shapes. -/
theorem ValidAt.parent {is : List Nat} {i : Nat} (h : ValidAt cfg bd root0 (is ++ [i]) bd' M)
    (hroot0 : shape root0 = root0) :
    ∃ bdQ kq cq, ValidAt cfg bd root0 is bdQ (mkInternal cfg 1 kq cq) ∧
      InternalOk cfg bdQ 1 kq cq ∧ (∀ c ∈ cq, shape c = c) ∧
      ∃ hi : i < cq.length, M = cq[i] ∧ bd' = bdQ.child kq i := by
  obtain ⟨bdQ, b, kq, cq, hat, hint, hi, rfl, rfl⟩ := h.split_last
  obtain ⟨rfl, hcq⟩ := mkInternal_shape_eq hint.hb (hat.shape_eq hroot0)
  exact ⟨bdQ, kq, cq, hat, hint, hcq, hi, rfl, rfl⟩

/-- The node the path leads to, in a tree whose shape has `N` put there. -/
theorem ValidAt.shape_nodeAt {path : Path} {d : Nat} {N r : Node}
    (h : ValidAt cfg bd root0 (path.indices d) bd' M) (hN : N.block ≠ 0)
    (hr : shape r = putAt cfg root0 (path.indices d) N) :
    shape (nodeAt cfg r (path.entry.take d)) = N := by
  rw [← nodeAt_shape, nodeAt_eq_subtreeAt, hr]
  exact h.subtreeAt_putAt hN

end Positions

/-- The entries of a tree in which one child was replaced by a list of
children: those of the old child, in context, replaced. -/
theorem entries_context {root0 R : Node} {pre post : List (Nat × BlockMac)}
    {cq cs' : List Node} {E : List (Nat × BlockMac)} {i : Nat} (hi : i < cq.length)
    (h0 : entries root0 = pre ++ cq.flatMap entries ++ post)
    (hR : entries R = pre ++ cs'.flatMap entries ++ post)
    (hcs' : cs'.flatMap entries =
      (cq.take i).flatMap entries ++ E ++ (cq.drop (i + 1)).flatMap entries) :
    ∃ pre post, entries root0 = pre ++ entries cq[i] ++ post ∧ entries R = pre ++ E ++ post := by
  refine ⟨pre ++ (cq.take i).flatMap entries, (cq.drop (i + 1)).flatMap entries ++ post, ?_, ?_⟩
  · have hcq := flatMap_set cq i cq[i] entries hi
    rw [List.set_getElem_self] at hcq
    rw [h0, hcq]
    simp only [List.append_assoc]
  · rw [hR, hcs']
    simp only [List.append_assoc]

theorem Overfull.block_eq {bd : Bounds} {n : Node} {k : Nat} {d : BlockMac} {c : Node}
    {es : List (Nat × BlockMac)} (h : Overfull cfg bd n k d c es) : n.block = 1 := by
  cases h <;> rfl

/-- A node whose shape is in a block is in a block. -/
theorem block_ne_zero_of_shape {n m : Node} (h : shape n = m) (hm : m.block ≠ 0) : n.block ≠ 0 := by
  intro h0
  rw [← h, block_shape, h0] at hm
  exact hm rfl

/-! ## The root -/

theorem shape_emptyInternal {b : Nat} (hb : b ≠ 0) :
    shape (emptyInternal cfg b) = mkInternal cfg 1 [] [.empty] := by
  have h1 : min b 1 = 1 := by omega
  simp only [emptyInternal, shape_internal, h1, List.map_replicate, shape_empty, mkInternal,
    Slots.pad, List.nil_append, List.length_nil, Nat.sub_zero, List.length_singleton,
    Nat.add_sub_cancel]
  rw [List.replicate_succ, List.singleton_append]

theorem BlocksBelow.emptyInternal {bc b : Nat} (hb : b < bc) :
    BlocksBelow bc (BlockTree.emptyInternal cfg b) := by
  simp only [BlockTree.emptyInternal, blocksBelow_internal, hb, true_and]
  intro c hc
  rw [List.eq_of_mem_replicate hc]
  trivial

/-- `block_tree_node_split` of the root: the root block, cleared, becomes an
internal root over the two halves, one level higher. -/
theorem splitRoot {H lo hi : Nat} {n : Node} {k : Nat} {d : BlockMac} {c0 : Node}
    {es : List (Nat × BlockMac)} (hov : Overfull cfg ⟨true, H, lo, hi⟩ n k d c0 es)
    (hhi : hi < 2 ^ (8 * cfg.keySize)) (hidx : cfg.IndexFits) {left c : Node} {b rb : Nat}
    (hb : b ≠ 0) (hrb : rb ≠ 0) (hleft : shape left = n) (hc : shape c = c0) :
    let res := splitHalves cfg left (left.setBlock rb) k d c
    let res' := nodeInsert cfg (emptyInternal cfg b) 0 .rightChild res.2.2 BlockMac.zero res.2.1
    Valid cfg ⟨true, H + 1, lo, hi⟩ (setChild res'.1 0 res.1) ∧
      entries (setChild res'.1 0 res.1) = es ∧ res'.2.1 = 0 := by
  intro res res'
  obtain ⟨l, r, pk, hsplit, hl, hr, hpk, hes, hls, hrs⟩ := hov.split hhi hidx
  rw [shape_split_eq hov hrb hleft hc] at hsplit
  simp only [Prod.mk.injEq] at hsplit
  obtain ⟨rfl, rfl, rfl⟩ := hsplit
  have hfit : cfg.KeyFits res.2.2 := Nat.lt_of_le_of_lt hr.lo_le_hi hhi
  have hkc := cfg.two_le_internal
  -- the cleared root takes the key and the right half behind its only child
  have hins := nodeInsert_mkInternal 1 [] [.empty] true 0 res.2.2 BlockMac.zero (shape res.2.1)
    le_rfl (by simp only [List.length_nil]; omega) rfl hidx
  simp only [if_true] at hins
  have hsh := shape_nodeInsert cfg (emptyInternal cfg b) 0 .rightChild res.2.2 BlockMac.zero res.2.1
  rw [shape_emptyInternal hb, hins] at hsh
  have hsh1 := congrArg (·.1) hsh
  have hsh2 := congrArg (·.2.1) hsh
  simp only [List.take_zero, List.drop_zero, List.nil_append, Nat.zero_add, List.take_one,
    List.head?_cons, Option.toList_some, List.drop_one, List.tail_cons, List.singleton_append,
    cfg.keyBytes_of_fits hfit] at hsh1 hsh2
  have hroot : shape (setChild res'.1 0 res.1) = mkInternal cfg 1 [res.2.2] [shape res.1, shape res.2.1] := by
    rw [shape_setChild, ← hsh1, setChild_mkInternal 1 _ _ 0 _ (by simp)]
    rfl
  have hH : 1 ≤ H := hl.one_le_height
  refine ⟨?_, ?_, hsh2.symm⟩
  · rw [← Valid.shape_iff, hroot]
    refine (Chain.pair (by simpa using hl) (by simpa using hr) hpk hl.lo_le_hi hr.lo_le_hi).internalOk
      one_ne_zero (by simp only [List.length_singleton]; omega) (List.cons_ne_nil _ _)
      (fun h => by simp at h) (by dsimp only; omega) |>.valid
  · rw [← entries_shape, hroot, entries_mkInternal, ← hes]
    simp only [List.flatMap_cons, List.flatMap_nil, List.append_nil]
    rfl

/-! ## The split cascade

`block_tree_node_split` runs from an overfull node up its path: each split
puts the two halves into the parent, which either takes them or overflows
and is split in turn, up to the root, whose split adds a level.
-/

section Cascade

variable {τ : Type} {ops : TrOps τ} {bc : Nat}

/-- `block_tree_node_split` of the root: the root block becomes an internal
root one level higher over the two halves. -/
theorem nodeSplit_root (hal : ops.AllocIn bc) (hidx : cfg.IndexFits) {H lo hi : Nat}
    (hhi : hi < 2 ^ (8 * cfg.keySize)) (path : Path) (tr : τ) (t : Tree) {n : Node} {k : Nat}
    {d : BlockMac} {c0 : Node} {es : List (Nat × BlockMac)} (c : Node)
    (hov : Overfull cfg ⟨true, H, lo, hi⟩ n k d c0 es)
    (hc : shape c = c0) (hroot : shape t.root = n) (hbr : BlocksBelow bc t.root)
    (hbc : BlocksBelow bc c) :
    Ok (Runs ops t) (fun r => r.2.flags = t.flags ∧ BlocksBelow bc r.2.root ∧
      Valid cfg ⟨true, H + 1, lo, hi⟩ r.2.root ∧ entries r.2.root = es)
      (nodeSplit ops cfg tr t path 1 k d c) := by
  have hn1 : n.block ≠ 0 := by rw [hov.block_eq]; exact one_ne_zero
  have hb0 : t.root.block ≠ 0 := block_ne_zero_of_shape hroot hn1
  have hplaced : t.root.Placed := fun h => absurd h hb0
  simp only [nodeSplit, ite_true, Nat.zero_sub, some_bind, List.take_zero]
  refine Ok.ite (fun hcow => Ok.none (not_runs_of_cow hcow)) (fun _ => ?_)
  refine Ok.bind (allocate_ok hal t tr _) (fun r1 hr1 => ?_)
  refine Ok.bind (allocate_ok hal t r1.2 _) (fun r2 hr2 => ?_)
  refine Ok.bind (getWrite_ok ops cfg hal r2.2 t path 0) (fun r3 hr3 => ?_)
  obtain ⟨⟨hroot3, hflags3⟩, hmoved⟩ := hr3
  -- the root, moved or not, is the overfull node; it goes to the new left block
  rw [List.take_zero, nodeAt] at hmoved
  have hnode : shape r3.2.2 = n := by rw [hmoved.shape hplaced, hroot]
  have hb3 : r3.2.2.block ≠ 0 := block_ne_zero_of_shape hnode hn1
  have hleft : shape (r3.2.2.setBlock r2.1) = n := by
    rw [shape_setBlock (by omega) hb3, hnode]
  obtain ⟨hvalid, hentries, hover⟩ := splitRoot hov hhi hidx hb3 (by omega : r1.1 ≠ 0) hleft hc
  simp only [pathPutDirty, some_bind, hover, ne_eq, not_true_eq_false, if_false]
  -- the new root: the old root block, cleared, over the two halves
  have hbn : BlocksBelow bc r3.2.2 := hmoved.blocksBelow hbr
  have hbl : BlocksBelow bc (r3.2.2.setBlock r2.1) := hbn.setBlock hr2.1 hr2.2
  have hhalves : BlocksBelow bc (splitHalves cfg (r3.2.2.setBlock r2.1)
        ((r3.2.2.setBlock r2.1).setBlock r1.1) k d c).1 ∧
      BlocksBelow bc (splitHalves cfg (r3.2.2.setBlock r2.1)
        ((r3.2.2.setBlock r2.1).setBlock r1.1) k d c).2.1 :=
    BlocksBelow.splitHalves hbl (hbl.setBlock hr1.1 hr1.2) hbc k d
  have hempty : BlocksBelow bc (emptyInternal cfg r3.2.2.block) :=
    BlocksBelow.emptyInternal (hbn.block_lt hb3)
  refine Ok.pure ⟨hflags3, ?_, hvalid, hentries⟩
  exact (hempty.nodeInsert cfg hhalves.2 0 .rightChild _ BlockMac.zero).1.setChild hhalves.1 0

variable (cfg) in
/-- What the split cascade of an insert into the tree `root0` at `bdTop`
leaves: the flags of `t`, blocks below `bc`, a valid tree at the same
bounds, at most one level higher, and the entries of `root0` with those of
its subtree `M` replaced by `es`. -/
def SplitDone (bc : Nat) (root0 : Node) (bdTop : Bounds) (M : Node) (es : List (Nat × BlockMac))
    (t t' : Tree) : Prop :=
  t'.flags = t.flags ∧ BlocksBelow bc t'.root ∧
    (∃ H, bdTop.height ≤ H ∧ H ≤ bdTop.height + 1 ∧
      Valid cfg ⟨true, H, bdTop.lo, bdTop.hi⟩ t'.root) ∧
    ∃ pre post, entries root0 = pre ++ entries M ++ post ∧ entries t'.root = pre ++ es ++ post


section Done

variable {root0 Q M : Node} {bdTop : Bounds} {is : List Nat} {cs' : List Node} {p : Nat}
  {t t' t'' : Tree}

/-- A split whose parent took the two halves without overflowing: the tree
is the old one with the parent replaced. -/
theorem splitDone_of_put (htop : bdTop.root = true) (hat : ValidAt cfg bdTop root0 is bdQ Q)
    (hQ : Q = mkInternal cfg 1 kq cq) (hp : p < cq.length) (hM : M = cq[p]) {Q' : Node}
    (hv : Valid cfg bdQ Q') (hQ' : entries Q' = cs'.flatMap entries)
    (hcs' : cs'.flatMap entries =
      (cq.take p).flatMap entries ++ es ++ (cq.drop (p + 1)).flatMap entries)
    (hflags : t'.flags = t.flags) (hblocks : BlocksBelow bc t'.root)
    (hroot : shape t'.root = putAt cfg root0 is Q') :
    SplitDone cfg bc root0 bdTop M es t t' := by
  have hbd : bdTop = ⟨true, bdTop.height, bdTop.lo, bdTop.hi⟩ := by
    cases bdTop
    simp only at htop
    rw [htop]
  obtain ⟨pre, post, h0, hput⟩ := hat.entries_put
  have hvalid : Valid cfg bdTop t'.root := by
    rw [← Valid.shape_iff, hroot]
    exact (hat.put hv).top
  refine ⟨hflags, hblocks, ⟨bdTop.height, le_rfl, by omega, hbd ▸ hvalid⟩, ?_⟩
  subst hQ hM
  rw [entries_mkInternal] at h0
  have hR : entries t'.root = pre ++ cs'.flatMap entries ++ post := by
    rw [← entries_shape, hroot, hput, hQ']
  exact entries_context hp h0 hR hcs'

/-- A split whose parent overflowed, split in turn: what that split leaves
is what this one does. -/
theorem splitDone_of_parent (hQ : Q = mkInternal cfg 1 kq cq) (hp : p < cq.length) (hM : M = cq[p])
    (hcs' : cs'.flatMap entries =
      (cq.take p).flatMap entries ++ es ++ (cq.drop (p + 1)).flatMap entries)
    (hflags : t'.flags = t.flags) (h : SplitDone cfg bc root0 bdTop Q (cs'.flatMap entries) t' t'') :
    SplitDone cfg bc root0 bdTop M es t t'' := by
  obtain ⟨hflags', hblocks, hvalid, pre, post, h0, hR⟩ := h
  refine ⟨hflags'.trans hflags, hblocks, hvalid, ?_⟩
  subst hQ hM
  rw [entries_mkInternal] at h0
  exact entries_context hp h0 hR hcs'

end Done

theorem nodeSplit_ok (hal : ops.AllocIn bc) (hidx : cfg.IndexFits) {root0 : Node} {bdTop : Bounds}
    (hroot0 : shape root0 = root0) (htop : bdTop.root = true)
    (hhi : bdTop.hi < 2 ^ (8 * cfg.keySize)) (path : Path) :
    ∀ (count : Nat) (tr : τ) (t : Tree) {bd : Bounds} {M n : Node} {k : Nat} {d : BlockMac}
      {c0 : Node} {es : List (Nat × BlockMac)} (c : Node), count < path.entry.length →
      ValidAt cfg bdTop root0 (path.indices count) bd M → Overfull cfg bd n k d c0 es →
      shape c = c0 → shape t.root = putAt cfg root0 (path.indices count) n →
      BlocksBelow bc t.root → BlocksBelow bc c →
      Ok (Runs ops t) (fun r => SplitDone cfg bc root0 bdTop M es t r.2)
        (nodeSplit ops cfg tr t path (count + 1) k d c) := by
  intro count
  induction count with
  | zero =>
    intro tr t bd M n k d c0 es c _ hat hov hc hroot hbr hbc
    have hnil : path.indices 0 = [] := by simp [Path.indices]
    rw [hnil] at hat hroot
    obtain ⟨hbd, hM⟩ := hat.eq_of_nil
    rw [hbd] at hov
    subst hM
    obtain ⟨rt, H, lo, hi⟩ := bdTop
    simp only at htop
    subst htop
    refine (nodeSplit_root hal hidx hhi path tr t c hov hc hroot hbr hbc).mono fun r hr => ?_
    obtain ⟨hflags, hblocks, hvalid, hentries⟩ := hr
    exact ⟨hflags, hblocks, ⟨H + 1, by simp, le_rfl, hvalid⟩, [], [], by simp, by simp [hentries]⟩
  | succ count ih =>
    intro tr t bd M n k d c0 es c hlen hat hov hc hroot hbr hbc
    have hn1 : n.block ≠ 0 := by rw [hov.block_eq]; exact one_ne_zero
    have hne : path.indices (count + 1) ≠ [] := by
      intro h
      have := congrArg List.length h
      simp only [Path.indices, List.length_map, List.length_take, List.length_nil] at this
      omega
    have hb0 : t.root.block ≠ 0 :=
      block_ne_zero_of_shape hroot (by rw [block_putAt _ _ _ hne]; exact hat.top.block_ne_zero)
    have hplaced : t.root.Placed := fun h => absurd h hb0
    -- the parent of the overfull node, at depth `count`
    have hidxs := Path.indices_succ path count (by omega)
    obtain ⟨bdQ, kq, cq, hatQ, hint, hshapes, hp, hM, hbd⟩ := (hidxs ▸ hat).parent hroot0
    have hnode0 := hat.shape_nodeAt hn1 hroot
    have hrootQ : shape t.root = putAt cfg root0 (path.indices count)
        (setChild (mkInternal cfg 1 kq cq) (path.entry.getD count default).index n) := by
      rw [hroot, hidxs, hatQ.putAt_snoc]
    have hQn : (setChild (mkInternal cfg 1 kq cq) (path.entry.getD count default).index n).block ≠ 0 := by
      rw [block_setChild]
      exact one_ne_zero
    have hparent0 := hatQ.shape_nodeAt hQn hrootQ
    rw [setChild_mkInternal 1 kq cq _ n hp] at hparent0
    have hhiBd : bd.hi < 2 ^ (8 * cfg.keySize) := by
      have := (hidxs ▸ hat).bounds_le
      omega
    rw [nodeSplit]
    simp only [Nat.add_one_ne_zero, if_false, some_bind, Nat.add_sub_cancel, Option.pure_def]
    refine Ok.ite (fun hcow => Ok.none (not_runs_of_cow hcow)) (fun _ => ?_)
    refine Ok.bind (allocate_ok hal t tr _) (fun r1 hr1 => ?_)
    refine Ok.bind (getWrite_ok ops cfg hal r1.2 t path (count + 1)) (fun r2 hr2 => ?_)
    obtain ⟨⟨hroot2, hflags2⟩, hmoved2⟩ := hr2
    refine Ok.bind (Ok.weaken (getWrite_ok ops cfg hal r2.1 r2.2.1 path count)
      (runs_congr hflags2).2) (fun r3 hr3 => ?_)
    obtain ⟨⟨hroot3, hflags3⟩, hmoved3⟩ := hr3
    rw [hroot2] at hmoved3
    have hnode : shape r2.2.2 = n := by
      rw [hmoved2.shape (nodeAt_placed cfg hplaced _), hnode0]
    have hparent : shape r3.2.2 = mkInternal cfg 1 kq (cq.set (path.entry.getD count default).index n) := by
      rw [hmoved3.shape (nodeAt_placed cfg hplaced _), hparent0]
    have hstep := splitStep hov hhiBd hidx hint hshapes _ hp hbd (by omega : r1.1 ≠ 0) hnode hc hparent
    obtain ⟨hchain, hcs, hflat, hfree, hfull⟩ := hstep
    -- names for the halves, the parent after the insert, and its keys and children
    set p := (path.entry.getD count default).index with hpdef
    set sh := splitHalves cfg r2.2.2 (r2.2.2.setBlock r1.1) k d c with hshdef
    set res := nodeInsert cfg r3.2.2 p .rightChild sh.2.2 BlockMac.zero sh.2.1 with hresdef
    set ks' := replaceKeys kq p 1 [sh.2.2] with hksdef
    set cs' := cq.take p ++ [shape sh.1, shape sh.2.1] ++ cq.drop (p + 1) with hcsdef
    have hklen : ks'.length = kq.length + 1 := by
      rw [hksdef, length_replaceKeys p 1 _ le_rfl (by have := hint.hlen; omega)]
      simp
    -- blocks of what is stored
    have hbn : BlocksBelow bc r2.2.2 := hmoved2.blocksBelow (hbr.nodeAt cfg _)
    have hbq : BlocksBelow bc r3.2.2 := hmoved3.blocksBelow (hbr.nodeAt cfg _)
    have hhalves : BlocksBelow bc sh.1 ∧ BlocksBelow bc sh.2.1 :=
      BlocksBelow.splitHalves hbn (hbn.setBlock hr1.1 hr1.2) hbc k d
    have hins := hbq.nodeInsert cfg hhalves.2 p .rightChild sh.2.2 BlockMac.zero
    refine Ok.bind (Ok.weaken (pathPutDirty_ok ops cfg hal path count r3.1 r3.2.1 _ (by omega)
      (by rw [hroot3, hroot2]; exact hplaced)) ((runs_congr hflags3).trans (runs_congr hflags2)).2)
      (fun r4 hr4 => ?_)
    obtain ⟨hflags4, hshape4, hblocks4⟩ := hr4
    have hroot4 : shape r4.2.root = putAt cfg root0 (path.indices count) (shape (setChild res.1 p sh.1)) := by
      rw [hshape4, hroot3, hroot2, hrootQ, hatQ.putAt_putAt hQn]
    have hbr4 : BlocksBelow bc r4.2.root :=
      hblocks4 (by rw [hroot3, hroot2]; exact hbr) (hins.1.setChild hhalves.1 p)
    have hflags' : r4.2.flags = t.flags := hflags4.trans (hflags3.trans hflags2)
    refine Ok.ite (fun hover => ?_) (fun hover => ?_)
    · -- the parent overflowed: it is split in turn
      have hfullK : kq.length = cfg.keyCountInternal := by
        by_contra hne
        exact hover (hfree (lt_of_le_of_ne hint.hcap hne)).2
      obtain ⟨hsh, hk, hch⟩ := hfull hfullK
      have hov' := Overfull.internal BlockMac.zero hchain (by omega) hint.hheight hcs
      rw [← hsh] at hov'
      rw [← hk] at hov'
      exact Ok.weaken ((ih r4.1 r4.2 res.2.2.2 (by omega) hatQ hov' hch (by rw [hroot4]) hbr4
        hins.2).mono fun r hr => splitDone_of_parent rfl hp hM hflat hflags' hr) (runs_congr hflags').2
    · -- the parent took both halves
      have hltK : kq.length < cfg.keyCountInternal := by
        rcases Nat.lt_or_ge kq.length cfg.keyCountInternal with h | h
        · exact h
        · exfalso
          obtain ⟨-, hk, -⟩ := hfull (by have := hint.hcap; omega)
          apply hover
          rw [hk, List.getD_eq_getElem _ _ (by omega)]
          exact Nat.pos_iff_ne_zero.mp (hchain.hkeys.pos _ (List.getElem_mem _))
      obtain ⟨hsh, -⟩ := hfree hltK
      have hvQ : Valid cfg bdQ (mkInternal cfg 1 ks' cs') :=
        (hchain.internalOk one_ne_zero (by omega) (List.ne_nil_of_length_pos (by omega))
          (fun h => by have := hint.hfill h; omega) hint.hheight).valid
      exact Ok.pure (splitDone_of_put htop hatQ rfl hp hM hvQ (entries_mkInternal cfg 1 ks' cs') hflat
        hflags' hbr4 (by rw [hroot4, hsh]))

/-! ## Inserting a key -/

/-- On a valid tree whose keys start at `0`, `block_tree_walk` for a key in
range stops at a slot of a leaf, through the children the key selects. -/
theorem walk_insert (t : Tree) {H hi : Nat} (hv : Valid cfg ⟨true, H, 0, hi⟩ t.root)
    (hH : H ≤ maxDepth) {key : Nat} (hkhi : key ≤ hi) :
    ∃ P bd b ks ds, walk cfg t key false = some P ∧ 0 < P.entry.length ∧
      ValidAt cfg ⟨true, H, 0, hi⟩ t.root (P.indices (P.entry.length - 1)) bd (mkLeaf cfg b ks ds) ∧
      LeafOk cfg bd b ks ds ∧
      (P.entry.getD (P.entry.length - 1) default).index = leafIndex ks key false ∧
      Routes key bd := by
  obtain ⟨es, bd, b, ks, ds, hpath, hleaf, hq, hlast, hwalk⟩ :=
    walkFrom_spec key false (Routes key) (fun bd b ks cs h hr => Routes.child h hr) maxDepth _ t.root
      hv ⟨Nat.zero_le _, hkhi, fun _ => rfl⟩ hH [] 0 0 BlockMac.zero
  have hne := hpath.ne_nil
  have hpos : 0 < es.length := List.length_pos_iff.mpr hne
  refine ⟨_, bd, b, ks, ds, hwalk, by simpa using hpos, ?_, hleaf, ?_, hq⟩
  · have := hpath.validAt
    simpa [Path.indices, List.dropLast_eq_take] using this
  · rw [List.getLast?_eq_getElem?, List.getElem?_eq_getElem (by omega)] at hlast
    simp only [Option.map_some, Option.some.injEq] at hlast
    simp only [List.nil_append, List.getD_eq_getElem _ _ (show es.length - 1 < es.length by omega)]
    exact hlast

variable (cfg) in
/-- What `block_tree_insert_block_mac` of `(key, data)` into `t`, a tree of
height at most `H` with keys up to `hi`, leaves: the flags of `t`, blocks
below `bc`, a valid tree at most one level higher, and the entries of `t`
with `(key, data)` put among them. -/
def InsertDone (bc H hi : Nat) (t : Tree) (key : Nat) (data : BlockMac) (t' : Tree) : Prop :=
  t'.flags = t.flags ∧ BlocksBelow bc t'.root ∧
    (∃ H', H' ≤ H + 1 ∧ Valid cfg ⟨true, H', 0, hi⟩ t'.root) ∧
    ∃ A B, entries t.root = A ++ B ∧ entries t'.root = A ++ (key, data) :: B

/-- The entries of a leaf with one key and data put in at slot `i`. -/
theorem zip_insert (ks : List Nat) (ds : List BlockMac) (i k : Nat) (d : BlockMac)
    (hlen : ds.length = ks.length) :
    (ks.take i ++ k :: ks.drop i).zip (ds.take i ++ d :: ds.drop i) =
      (ks.zip ds).take i ++ (k, d) :: (ks.zip ds).drop i := by
  rw [List.zip_append (by simp [hlen]), List.zip_cons_cons]
  simp only [List.zip_eq_zipWith, List.take_zipWith, List.drop_zipWith]

/-- A leaf whose entries were `pre ++ E ++ post` in the tree, with an entry
put in at slot `i` of `E`. -/
theorem insertDone_entries {pre post E E' : List (Nat × BlockMac)} {t t' : Tree} {i key : Nat}
    {data : BlockMac} (h0 : entries t.root = pre ++ E ++ post)
    (hR : entries t'.root = pre ++ E' ++ post) (hE' : E' = E.take i ++ (key, data) :: E.drop i) :
    ∃ A B, entries t.root = A ++ B ∧ entries t'.root = A ++ (key, data) :: B := by
  refine ⟨pre ++ E.take i, E.drop i ++ post, ?_, ?_⟩
  · rw [h0, List.append_assoc, List.append_assoc, ← List.append_assoc (List.take i E),
      List.take_append_drop]
  · rw [hR, hE']
    simp only [List.append_assoc, List.cons_append]

theorem insertBlockMac_of_valid (hal : ops.AllocIn bc) (hidx : cfg.IndexFits) (tr : τ) (t : Tree)
    {H hi : Nat} (hv : Valid cfg ⟨true, H, 0, hi⟩ t.root) (hH : H ≤ maxDepth)
    (hhi : hi < 2 ^ (8 * cfg.keySize)) (hbr : BlocksBelow bc t.root) {key : Nat} (hkey : 0 < key)
    (hkhi : key ≤ hi) {data : BlockMac} (hdata : data.valid = true) :
    Ok (Runs ops t) (fun r => InsertDone cfg bc H hi t key data r.2)
      (insertBlockMac ops cfg tr t key data) := by
  have hb0 := hv.block_ne_zero
  obtain ⟨P, bd, b, ks, ds, hwalk, hcount, hat, hleaf, hindex, hroute⟩ := walk_insert t hv hH hkhi
  unfold insertBlockMac
  simp only [hb0, hdata, if_false, Bool.not_true, Bool.false_eq_true, or_false,
    Nat.pos_iff_ne_zero.mp hkey, some_bind, hwalk]
  obtain ⟨d, hdlen⟩ : ∃ d, P.entry.length = d + 1 := ⟨P.entry.length - 1, by omega⟩
  rw [hdlen, Nat.add_sub_cancel] at hat hindex ⊢
  rw [hindex]
  have hd : d < P.entry.length := by omega
  refine Ok.bind (getWrite_ok ops cfg hal tr t P d) (fun r1 hr1 => ?_)
  obtain ⟨⟨hroot1, hflags1⟩, hmoved⟩ := hr1
  -- the node read for writing is the leaf, moved or not
  have hnodeAt : nodeAt cfg t.root (P.entry.take d) = mkLeaf cfg b ks ds := by
    rw [nodeAt_eq_subtreeAt]
    exact hat.subtreeAt_eq
  rw [hnodeAt] at hmoved
  obtain ⟨b', hb', hnode⟩ : ∃ b', b' ≠ 0 ∧ r1.2.2 = mkLeaf cfg b' ks ds := by
    rcases hmoved with h | ⟨b', hb', -, h⟩
    · exact ⟨b, hleaf.hb, h⟩
    · exact ⟨b', by omega, by rw [h, setBlock_mkLeaf]⟩
  have hbl : BlocksBelow bc (mkLeaf cfg b ks ds) := hnodeAt ▸ hbr.nodeAt cfg _
  have hbn : BlocksBelow bc r1.2.2 := hmoved.blocksBelow hbl
  have hb'lt : b' < bc := by
    have := hbn
    rw [hnode] at this
    exact this
  rw [hnode]
  have hi := leafIndex_le ks key false
  have hfk := hleaf.fence_leafIndex hroute
  have hchain := hleaf.leafChain.insert data hi hkey hfk.1 hfk.2.1 hfk.2.2
  have hkb : cfg.keyBytes key = key := cfg.keyBytes_of_fits (lt_of_le_of_lt hkhi hhi)
  have hlen := hleaf.hlen
  -- the tree seen through `shape`, where the leaf is in block `1`
  have hat0 := hat.to_shape
  rw [shape_mkLeaf, show min b 1 = 1 by have := hleaf.hb; omega] at hat0
  obtain ⟨pre, post, h0, hput⟩ := hat0.entries_put
  rw [entries_shape, entries_mkLeaf cfg 1 ks ds hleaf.hkeys.pos hlen] at h0
  have hruns : Runs ops r1.2.1 ↔ Runs ops t := runs_congr hflags1
  have hplaced : r1.2.1.root.Placed := by
    rw [hroot1]
    exact fun h => absurd h hb0
  rcases Nat.lt_or_ge ks.length cfg.keyCountLeaf with hlt | hge
  · -- room in the leaf: the entry goes in, and the tree keeps its height
    rw [nodeInsert_mkLeaf b' ks ds _ key data .empty hi hlt hlen, hkb]
    simp only [ne_eq, not_true_eq_false, if_false]
    refine Ok.bind (Ok.weaken (pathPutDirty_ok ops cfg hal P _ r1.1 r1.2.1 _ hd.le hplaced) hruns.2)
      (fun r2 hr2 => Ok.pure ?_)
    obtain ⟨hflags2, hshape2, hblocks2⟩ := hr2
    have hleaf' : Valid cfg bd (mkLeaf cfg 1 (ks.take (leafIndex ks key false) ++ key ::
        ks.drop (leafIndex ks key false)) (ds.take (leafIndex ks key false) ++ data ::
        ds.drop (leafIndex ks key false))) :=
      (hchain.leafOk one_ne_zero (by simp; omega) (fun h => by have := hleaf.hfill h; simp; omega)
        hleaf.hheight).valid
    have hroot2 : shape r2.2.root = putAt cfg (shape t.root) (P.indices d)
        (mkLeaf cfg 1 (ks.take (leafIndex ks key false) ++ key :: ks.drop (leafIndex ks key false))
          (ds.take (leafIndex ks key false) ++ data :: ds.drop (leafIndex ks key false))) := by
      rw [hshape2, hroot1, shape_mkLeaf, show min b' 1 = 1 by omega]
    refine ⟨hflags2.trans hflags1, hblocks2 (hroot1 ▸ hbr) hb'lt, ⟨H, by omega, ?_⟩, ?_⟩
    · rw [← Valid.shape_iff, hroot2]
      exact (hat0.put hleaf').top
    · refine insertDone_entries h0 ?_ (zip_insert ks ds (leafIndex ks key false) key data hlen)
      rw [← entries_shape, hroot2, hput, entries_mkLeaf cfg 1 _ _ hchain.hkeys.pos hchain.hlen]
  · -- a full leaf overflows: it is split, and the split goes up the path
    have hfull : ks.length = cfg.keyCountLeaf := le_antisymm hleaf.hcap hge
    have hins := nodeInsert_mkLeaf_full b' ks ds _ key data .empty hi hfull hlen
    simp only [hkb] at hins
    rw [hins]
    have hklen : (ks.take (leafIndex ks key false) ++ key :: ks.drop (leafIndex ks key false)).length =
        cfg.keyCountLeaf + 1 := by
      simp; omega
    have hover : (ks.take (leafIndex ks key false) ++ key :: ks.drop (leafIndex ks key false)).getD
        cfg.keyCountLeaf 0 ≠ 0 := by
      rw [List.getD_eq_getElem _ _ (by omega)]
      exact Nat.pos_iff_ne_zero.mp (hchain.hkeys.pos _ (List.getElem_mem _))
    simp only [ne_eq, hover, not_false_eq_true, if_true]
    refine Ok.bind (Ok.weaken (pathPutDirty_ok ops cfg hal P _ r1.1 r1.2.1 _ hd.le hplaced) hruns.2)
      (fun r2 hr2 => ?_)
    obtain ⟨hflags2, hshape2, hblocks2⟩ := hr2
    have hov := Overfull.leaf hchain hklen hleaf.hheight
    have hroot2 := hshape2
    rw [hroot1, shape_mkLeaf, show min b' 1 = 1 by omega] at hroot2
    refine Ok.weaken ((nodeSplit_ok hal hidx (shape_shape t.root) rfl hhi P d r2.1 r2.2 .empty hd hat0
      hov rfl hroot2 (hblocks2 (hroot1 ▸ hbr) hb'lt) trivial).mono fun r hr => ?_)
      ((runs_congr hflags2).trans hruns).2
    obtain ⟨hflags3, hblocks3, ⟨H', -, hH', hvalid3⟩, pre', post', h0', hR'⟩ := hr
    rw [entries_shape, entries_mkLeaf cfg 1 ks ds hleaf.hkeys.pos hlen] at h0'
    exact ⟨hflags3.trans (hflags2.trans hflags1), hblocks3, ⟨H', hH', hvalid3⟩,
      insertDone_entries h0' hR' (zip_insert ks ds (leafIndex ks key false) key data hlen)⟩

/-- `block_tree_insert_block_mac` into a tree without a root first puts an
empty leaf in a newly allocated block at the root, then inserts there. -/
theorem insertBlockMac_of_empty (hal : ops.AllocIn bc) (tr : τ) (t : Tree) (hroot : t.root.block = 0)
    {key : Nat} (hkey : key ≠ 0) {data : BlockMac} (hdata : data.valid = true)
    {Q : τ × Tree → Prop}
    (h : ∀ b tr', 0 < b → b < bc →
      Ok (Runs ops { t with root := emptyLeaf cfg b, rootBlockChanged := true }) Q
        (insertBlockMac ops cfg tr' { t with root := emptyLeaf cfg b, rootBlockChanged := true }
          key data)) :
    Ok (Runs ops t) Q (insertBlockMac ops cfg tr t key data) := by
  unfold insertBlockMac
  simp only [hroot, hkey, hdata, if_true, if_false, Bool.not_true, Bool.false_eq_true, or_false,
    some_bind]
  refine Ok.ite (fun hcow => Ok.none (not_runs_of_cow hcow)) (fun _ => ?_)
  refine Ok.bind (allocate_ok hal t tr _) (fun r hr => ?_)
  have hnext := h r.1 r.2 hr.1 hr.2
  unfold insertBlockMac at hnext
  simp only [emptyLeaf, Node.block, Nat.pos_iff_ne_zero.mp hr.1, hkey, hdata, if_false,
    Bool.not_true, Bool.false_eq_true, or_false, some_bind] at hnext
  exact Ok.weaken hnext (runs_congr rfl).2

/-- An empty leaf is a valid root of height `1`. -/
theorem emptyLeaf_valid {b hi : Nat} (hb : b ≠ 0) : Valid cfg ⟨true, 1, 0, hi⟩ (emptyLeaf cfg b) := by
  have hleaf : emptyLeaf cfg b = mkLeaf cfg b [] [] := by
    simp [emptyLeaf, mkLeaf, Slots.pad]
  rw [hleaf]
  exact LeafOk.valid ⟨hb, rfl, Nat.zero_le _, ⟨by simp, by simp⟩, fun h => absurd rfl h,
    fun h => absurd h (by simp), rfl⟩

@[simp] theorem entries_emptyLeaf (b : Nat) : entries (emptyLeaf cfg b) = [] := by
  simp [emptyLeaf, entries]

/-- `block_tree_insert_block_mac` of a key in range and a valid `block_mac`
into a tree without a root, or a valid one of height `H` whose keys start at
`0`: where no transaction call fails it returns, with a valid tree at most
one level higher whose entries are the old ones with `(key, data)` put among
them.  `H` is `1` for a tree without a root. -/
theorem insertBlockMac_ok (hal : ops.AllocIn bc) (hidx : cfg.IndexFits) (tr : τ) (t : Tree)
    {H hi : Nat} (ht : t.root = .empty ∨ Valid cfg ⟨true, H, 0, hi⟩ t.root) (hH1 : 1 ≤ H)
    (hH : H ≤ maxDepth) (hhi : hi < 2 ^ (8 * cfg.keySize)) (hbr : BlocksBelow bc t.root)
    {key : Nat} (hkey : 0 < key) (hkhi : key ≤ hi) {data : BlockMac} (hdata : data.valid = true) :
    Ok (Runs ops t) (fun r => InsertDone cfg bc H hi t key data r.2)
      (insertBlockMac ops cfg tr t key data) := by
  rcases ht with hempty | hv
  · -- a new root leaf first
    refine insertBlockMac_of_empty hal tr t (by rw [hempty]; rfl) (Nat.pos_iff_ne_zero.mp hkey) hdata
      fun b tr' hb hbc => ?_
    set t' : Tree := { t with root := emptyLeaf cfg b, rootBlockChanged := true } with ht'
    have hv1 : Valid cfg ⟨true, 1, 0, hi⟩ t'.root := emptyLeaf_valid (by omega)
    have hbl : BlocksBelow bc t'.root := hbc
    refine (insertBlockMac_of_valid hal hidx tr' t' hv1 (by decide) hhi hbl hkey hkhi
      hdata).mono fun r hr => ?_
    obtain ⟨hflags, hblocks, ⟨H', hH', hvalid⟩, A, B, h0, hR⟩ := hr
    refine ⟨hflags, hblocks, ⟨H', by omega, hvalid⟩, A, B, ?_, hR⟩
    rw [hempty, ← h0]
    simp [t', entries]
  · exact insertBlockMac_of_valid hal hidx tr t hv hH hhi hbr hkey hkhi hdata

end Cascade

/-- A transaction that hands out the blocks `1` to `bc - 1` in turn and never
fails. -/
def countingOps (bc : Nat) : TrOps Nat :=
  ⟨fun n _ => some (n % (bc - 1) + 1, n + 1), fun n _ _ => some n, fun _ _ => false⟩

theorem countingOps_allocIn {bc : Nat} (hbc : 2 ≤ bc) : (countingOps bc).AllocIn bc := by
  refine ⟨fun {tr tmp b tr'} h => ?_⟩
  simp only [countingOps, Option.some.injEq, Prod.mk.injEq] at h
  have := Nat.mod_lt tr (show 0 < bc - 1 by omega)
  omega

theorem countingOps_runs (bc : Nat) (t : Tree) (ht : t.copyOnWrite = false) :
    Runs (countingOps bc) t :=
  ⟨⟨fun _ _ => rfl, fun _ _ _ => rfl⟩, fun h => absurd (ht ▸ h) Bool.false_ne_true⟩

/-- A root leaf with every slot used, keys of four bytes. -/
def fullLeaf : Tree :=
  ⟨mkLeaf fourSlots 1 [2, 4, 6, 8] [⟨10, 0⟩, ⟨11, 0⟩, ⟨12, 0⟩, ⟨13, 0⟩], false, false, false⟩

theorem fullLeaf_valid : Valid fourSlots ⟨true, 1, 0, 2 ^ 32 - 1⟩ fullLeaf.root :=
  Valid.leaf [2, 4, 6, 8] [⟨10, 0⟩, ⟨11, 0⟩, ⟨12, 0⟩, ⟨13, 0⟩] (by decide) rfl (by decide)
    ⟨by decide, by decide⟩ (fun h => absurd rfl h) (fun h => Bool.noConfusion h) rfl

/-- The key `5` inserted into a tree without a root, which makes a root leaf
first, and into `fullLeaf`, which splits the leaf and adds a root above it:
both return a tree that holds the old entries with `(5, data)` among them. -/
theorem insertBlockMac_into_empty_and_full :
    (∃ r, insertBlockMac (countingOps 100) fourSlots 0 ⟨.empty, false, false, false⟩ 5 ⟨7, 0⟩ =
        some r ∧
      InsertDone fourSlots 100 1 (2 ^ 32 - 1) ⟨.empty, false, false, false⟩ 5 ⟨7, 0⟩ r.2) ∧
    ∃ r, insertBlockMac (countingOps 100) fourSlots 0 fullLeaf 5 ⟨9, 0⟩ = some r ∧
      InsertDone fourSlots 100 1 (2 ^ 32 - 1) fullLeaf 5 ⟨9, 0⟩ r.2 :=
  ⟨(insertBlockMac_ok (countingOps_allocIn (by decide)) (by unfold Config.IndexFits; decide) 0
      ⟨.empty, false, false, false⟩
      (.inl rfl) le_rfl (by decide) (by decide) trivial (by decide) (by decide) rfl).exists_some
      (countingOps_runs 100 _ rfl),
    (insertBlockMac_ok (countingOps_allocIn (by decide)) (by unfold Config.IndexFits; decide) 0
      fullLeaf (.inr fullLeaf_valid) le_rfl (by decide) (by decide) (show 1 < 100 by decide)
      (by decide) (by decide) rfl).exists_some (countingOps_runs 100 _ rfl)⟩

end BlockTree
