import Trusty.BlockTree.Remove

/-!
# Node shapes: what copy-on-write does not change

Copy-on-write moves a node to another block and changes nothing else.
`shape` forgets block numbers, keeping only whether a block is there, so
that the effect of a tree operation can be stated as an equation on shapes
whatever blocks the transaction hands out.

Every slot operation of `Node.lean` commutes with `shape` (`shape_nodeShift`
and its corollaries), and every read of the tree sees the same on a tree and
on its shape (`walkFrom_shape`, `pathNext_shape`).
-/

namespace BlockTree

/-- `n` with each block number replaced by `1` (`0`, no block, stays `0`). -/
def shape : Node → Node
  | .empty => .empty
  | .leaf b ks ds => .leaf (min b 1) ks ds
  | .internal b ks cs => .internal (min b 1) ks (shapeList cs)
where
  /-- `shape` of each child. -/
  shapeList : List Node → List Node
    | [] => []
    | c :: cs => shape c :: shapeList cs

@[simp] theorem shapeList_eq_map (cs : List Node) : shape.shapeList cs = cs.map shape := by
  induction cs with
  | nil => rfl
  | cons c cs ih => simp only [shape.shapeList, ih, List.map_cons]

@[simp] theorem shape_empty : shape .empty = .empty := rfl

@[simp] theorem shape_leaf (b : Nat) (ks : List Nat) (ds : List BlockMac) :
    shape (.leaf b ks ds) = .leaf (min b 1) ks ds := rfl

@[simp] theorem shape_internal (b : Nat) (ks : List Nat) (cs : List Node) :
    shape (.internal b ks cs) = .internal (min b 1) ks (cs.map shape) := by
  simp only [shape, shapeList_eq_map]

@[simp] theorem block_shape (n : Node) : (shape n).block = min n.block 1 := by
  cases n <;> rfl

@[simp] theorem isLeaf_shape (n : Node) : (shape n).isLeaf = n.isLeaf := by
  cases n <;> simp [Node.isLeaf]

@[simp] theorem keys_shape (n : Node) : (shape n).keys = n.keys := by
  cases n <;> simp [Node.keys]

@[simp] theorem data_shape (n : Node) : (shape n).data = n.data := by
  cases n <;> simp [Node.data]

@[simp] theorem children_shape (n : Node) : (shape n).children = n.children.map shape := by
  cases n <;> simp [Node.children]

theorem block_shape_eq_zero {n : Node} : (shape n).block = 0 ↔ n.block = 0 := by
  rw [block_shape]; omega

theorem shape_eq_empty {n : Node} : shape n = .empty ↔ n = .empty := by
  cases n <;> simp

/-- Moving a node to another (non-zero) block keeps its shape. -/
theorem shape_setBlock {n : Node} {b : Nat} (hb : b ≠ 0) (hn : n.block ≠ 0) :
    shape (n.setBlock b) = shape n := by
  cases n with
  | empty => rfl
  | leaf b' ks ds =>
    simp only [Node.block] at hn
    simp only [Node.setBlock, shape_leaf, Node.leaf.injEq, and_true]
    omega
  | internal b' ks cs =>
    simp only [Node.block] at hn
    simp only [Node.setBlock, shape_internal, Node.internal.injEq, and_true]
    omega

theorem shape_shape (n : Node) : shape (shape n) = shape n := by
  cases n with
  | empty => rfl
  | leaf b ks ds => simp only [shape_leaf, Node.leaf.injEq, and_true]; omega
  | internal b ks cs =>
    simp only [shape_internal, List.map_map, Node.internal.injEq, true_and]
    refine ⟨by omega, List.map_congr_left fun c _ => shape_shape c⟩

/-! ## Slot operations commute with `shape` -/

variable (cfg : Config)

@[simp] theorem getKey_shape (n : Node) (i : Nat) : getKey cfg (shape n) i = getKey cfg n i := by
  simp only [getKey, isLeaf_shape, keys_shape]

@[simp] theorem getData_shape (n : Node) (i : Nat) : getData cfg (shape n) i = getData cfg n i := by
  simp only [getData, isLeaf_shape, data_shape]

theorem shape_setKey (n : Node) (i k : Nat) : shape (setKey cfg n i k) = setKey cfg (shape n) i k := by
  cases n <;> simp [setKey, Node.setKeys, Node.keys]

theorem shape_getChild (n : Node) (i : Nat) : shape (getChild cfg n i) = getChild cfg (shape n) i := by
  simp only [getChild, isLeaf_shape, children_shape, List.getD_eq_getElem?_getD, List.getElem?_map]
  cases n.children[i]? with
  | none => split_ifs <;> rfl
  | some c =>
    simp only [Option.map_some, Option.getD_some, block_shape_eq_zero]
    split_ifs <;> rfl

theorem shape_setChild (n : Node) (i : Nat) (c : Node) :
    shape (setChild n i c) = setChild (shape n) i (shape c) := by
  cases n <;> simp [setChild, List.map_set]

theorem shape_setData (n : Node) (i : Nat) (d : BlockMac) :
    shape (setData n i d) = setData (shape n) i d := by
  cases n <;> simp [setData]

@[simp] theorem getKeyCount_shape (n : Node) : getKeyCount cfg (shape n) = getKeyCount cfg n := by
  simp only [getKeyCount, isLeaf_shape, getKey_shape]

@[simp] theorem minFullIndex_shape (n : Node) : minFullIndex cfg (shape n) = minFullIndex cfg n := by
  simp only [minFullIndex, isLeaf_shape]

@[simp] theorem aboveMinFull_shape (n : Node) : aboveMinFull cfg (shape n) = aboveMinFull cfg n := by
  simp only [aboveMinFull, minFullIndex_shape, getKey_shape]

@[simp] theorem belowMinFull_shape (n : Node) : belowMinFull cfg (shape n) = belowMinFull cfg n := by
  simp only [belowMinFull, minFullIndex_shape, getKey_shape]

/-- The slot shift of a node commutes with `shape` (children are shifted as
whole slots, and the empty slot is its own shape). -/
theorem shape_nodeShift (n : Node) (dest src : Nat) (mode : ShiftMode)
    (newKeys : List Nat) (newData : List BlockMac) (newChildren : List Node) :
    nodeShift cfg (shape n) dest src mode newKeys newData (newChildren.map shape) =
      let r := nodeShift cfg n dest src mode newKeys newData newChildren
      (shape r.1, r.2.1, r.2.2.1, r.2.2.2.map shape) := by
  have hmap := Slots.shift_map shape Node.empty (cfg.keyCountInternal + 1)
  simp only [shape_empty] at hmap
  cases n with
  | empty => simp [nodeShift]
  | leaf b ks ds => simp [nodeShift]
  | internal b ks cs => simp [nodeShift, hmap]

theorem shape_nodeInsert (n : Node) (index : Nat) (mode : ShiftMode) (newKey : Nat)
    (newData : BlockMac) (newChild : Node) :
    nodeInsert cfg (shape n) index mode newKey newData (shape newChild) =
      let r := nodeInsert cfg n index mode newKey newData newChild
      (shape r.1, r.2.1, r.2.2.1, shape r.2.2.2) := by
  have h := shape_nodeShift cfg n (index + 1) index mode [cfg.keyBytes newKey] [newData] [newChild]
  simp only [List.map_cons, List.map_nil] at h
  simp only [nodeInsert, h]
  cases (nodeShift cfg n (index + 1) index mode [cfg.keyBytes newKey] [newData] [newChild]).2.2.2
    <;> rfl

theorem shape_nodeShiftDown (n : Node) (destIndex srcIndex : Nat) (mode : ShiftMode) :
    nodeShiftDown cfg (shape n) destIndex srcIndex mode = shape (nodeShiftDown cfg n destIndex srcIndex mode) := by
  have h := shape_nodeShift cfg n destIndex srcIndex mode [] [] []
  simp only [List.map_nil] at h
  simp only [nodeShiftDown, h]

theorem shape_nodeClearEnd (n : Node) (startIndex : Nat) :
    nodeClearEnd cfg (shape n) startIndex = shape (nodeClearEnd cfg n startIndex) := by
  simp only [nodeClearEnd, isLeaf_shape, shape_nodeShiftDown]

theorem shape_nodeMergeEntries (n src : Node) (destIndex count mergeKey : Nat) :
    nodeMergeEntries cfg (shape n) (shape src) destIndex count mergeKey =
      shape (nodeMergeEntries cfg n src destIndex count mergeKey) := by
  have hset : (shape n).setKeys (n.keys.set destIndex (cfg.keyBytes mergeKey)) =
      shape (n.setKeys (n.keys.set destIndex (cfg.keyBytes mergeKey))) := by
    cases n <;> simp [Node.setKeys, Node.keys]
  simp only [nodeMergeEntries, isLeaf_shape, keys_shape, data_shape, children_shape]
  split_ifs
  · rw [shape_nodeShift]
  · rw [hset, shape_nodeShift]

/-! ## Reads see the same on a shape -/

theorem nodeAt_shape (n : Node) (es : List PathEntry) :
    nodeAt cfg (shape n) es = shape (nodeAt cfg n es) := by
  induction es generalizing n with
  | nil => rfl
  | cons e es ih => simp only [nodeAt, ← shape_getChild, ih]

theorem findIndex_shape (n : Node) (key : Nat) : findIndex cfg (shape n) key = findIndex cfg n key := by
  simp only [findIndex, isLeaf_shape, getKey_shape]

theorem findBlock_shape (n : Node) (key : Nat) (keyIsMax : Bool) (prevKey nextKey : Nat) :
    findBlock cfg (shape n) key keyIsMax prevKey nextKey = findBlock cfg n key keyIsMax prevKey nextKey := by
  simp only [findBlock, findIndex_shape, isLeaf_shape, getKey_shape]

theorem walkFrom_shape (key : Nat) (keyIsMax : Bool) (fuel : Nat) (n : Node) (es : List PathEntry)
    (prevKey nextKey : Nat) (data : BlockMac) :
    walkFrom cfg key keyIsMax fuel (shape n) es prevKey nextKey data =
      walkFrom cfg key keyIsMax fuel n es prevKey nextKey data := by
  induction fuel generalizing n es prevKey nextKey data with
  | zero =>
    unfold walkFrom
    simp only [block_shape_eq_zero]
  | succ fuel ih =>
    unfold walkFrom
    simp only [block_shape_eq_zero, findBlock_shape, isLeaf_shape, getData_shape, ← shape_getChild]
    split_ifs
    · rfl
    · rw [← shape_empty, ih]
    · rw [ih]

theorem walk_shape (t : Tree) (key : Nat) (keyIsMax : Bool) :
    walk cfg { t with root := shape t.root } key keyIsMax = walk cfg t key keyIsMax := by
  simp only [walk, walkFrom_shape]

theorem pathNextUp_shape (root : Node) (d : Nat) (path : Path) :
    pathNextUp cfg (shape root) d path =
      (pathNextUp cfg root d path).map fun r => (r.1, r.2.1, shape r.2.2.1, r.2.2.2) := by
  induction d with
  | zero => rfl
  | succ d ih =>
    simp only [pathNextUp, nodeAt_shape, getKey_shape, ← shape_getChild, ne_eq, block_shape_eq_zero,
      ih]
    split_ifs <;> rfl

theorem pathNextDown_shape (prevKey remaining d : Nat) (node : Node) (path : Path) :
    pathNextDown cfg prevKey remaining d (shape node) path =
      pathNextDown cfg prevKey remaining d node path := by
  induction remaining generalizing d node path with
  | zero => simp only [pathNextDown, getKey_shape, getData_shape]
  | succ r ih => simp only [pathNextDown, getKey_shape, ← shape_getChild, ih]

theorem pathNext_shape (t : Tree) (path : Path) :
    pathNext cfg { t with root := shape t.root } path = pathNext cfg t path := by
  simp only [pathNext, nodeAt_shape, getKey_shape, getData_shape, pathNextUp_shape]
  cases pathNextUp cfg t.root (path.entry.length - 1) path with
  | none => rfl
  | some r => simp only [Option.map_some, pathNextDown_shape]

end BlockTree
