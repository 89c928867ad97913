import Trusty.BlockTree.Walk

/-!
# `block_tree.c`: copy-on-write, dirty paths and insertion

The tree code calls into the transaction for three things: a new block
(`block_allocate_etc`), releasing a block (`block_free_etc`) and whether a
block must be copied before it is written (`transaction_block_need_copy`).
`TrOps` collects them; a failed transaction is `none`, as is a failed C
`assert` on the arguments of a call.

* `blockDirty` / `getWrite` are `block_tree_block_dirty` /
  `block_tree_block_get_write`: in a copy-on-write tree a node the
  transaction does not own yet is moved to a newly allocated block.
* `pathPutDirty` is `block_tree_path_put_dirty`: a changed node is stored in
  its parent's slot, and so on up to the root, copying each parent as needed.
* `updateKey` is `block_tree_update_key`, `nodeSplit` is
  `block_tree_node_split`, `insertBlockMac` / `insert` are
  `block_tree_insert_block_mac` / `block_tree_insert`.
-/

namespace BlockTree

/-- The transaction calls made by the tree code: `block_allocate_etc tr is_tmp`
(`none` when the transaction fails, which the C code reports as block `0`),
`block_free_etc tr block is_tmp` and `transaction_block_need_copy tr block`. -/
structure TrOps (τ : Type) where
  allocate : τ → Bool → Option (Nat × τ)
  free : τ → Nat → Bool → Option τ
  needCopy : τ → Nat → Bool

variable {τ : Type} (ops : TrOps τ) (cfg : Config)

/-- `block_get_cleared` of a leaf: every slot zero. -/
def emptyLeaf (b : Nat) : Node :=
  .leaf b (List.replicate cfg.keyCountLeaf 0) (List.replicate cfg.keyCountLeaf BlockMac.zero)

/-- A cleared block used as an internal node (`memset` of the old root in
`block_tree_node_split`). -/
def emptyInternal (b : Nat) : Node :=
  .internal b (List.replicate cfg.keyCountInternal 0)
    (List.replicate (cfg.keyCountInternal + 1) .empty)

/-! ## Copy-on-write -/

/-- `block_tree_node_need_copy` (of a transaction that has not failed). -/
def nodeNeedCopy (t : Tree) (tr : τ) (block : Nat) : Bool :=
  t.copyOnWrite && ops.needCopy tr block

/-- `block_tree_block_dirty`: the node at depth `pathIndex` made writable; in
a copy-on-write tree a block the transaction does not own is replaced by a
new one and freed. -/
def blockDirty (tr : τ) (t : Tree) (pathIndex : Nat) (node : Node) :
    Option (τ × Tree × Node) :=
  if !nodeNeedCopy ops t tr node.block then some (tr, t, node)
  else if !t.allowCopyOnWrite then none
  else do
    let (newBlock, tr) ← ops.allocate tr (!t.allowCopyOnWrite)
    let tr ← ops.free tr node.block false
    -- a moved root is recorded in the tree at once
    let t := if pathIndex = 0 then { t with rootBlockChanged := true } else t
    pure (tr, t, node.setBlock newBlock)

/-- `block_tree_block_get_write`: the node at depth `pathIndex` of `path`,
made writable. -/
def getWrite (tr : τ) (t : Tree) (path : Path) (pathIndex : Nat) : Option (τ × Tree × Node) :=
  blockDirty ops tr t pathIndex (nodeAt cfg t.root (path.entry.take pathIndex))

/-- `block_tree_path_put_dirty`: the changed node at depth `pathIndex` is
stored in its parent's slot, the parent (made writable) in its own parent's
slot, and so on; the top node becomes the root. -/
def pathPutDirty (tr : τ) (t : Tree) (path : Path) : Nat → Node → Option (τ × Tree)
  | 0, node => some (tr, { t with root := node })
  | pathIndex + 1, node => do
    let (tr, t, parent) ← getWrite ops cfg tr t path pathIndex
    let parent := setChild parent (path.entry.getD pathIndex default).index node
    pathPutDirty tr t path pathIndex parent

/-- `block_tree_update_key`: from depth `levels - 1` up, the first level
whose entry is not the leftmost child gets its separator (the key before
the entry) set to `newKey`.  `levels` is `path_index + 1`. -/
def updateKey (tr : τ) (t : Tree) (path : Path) (newKey : Nat) : Nat → Option (τ × Tree × Path)
  | 0 => some (tr, t, path)
  | pathIndex + 1 =>
    let e := path.entry.getD pathIndex default
    if e.index = 0 then updateKey tr t path newKey pathIndex
    else do
      let (tr, t, node) ← getWrite ops cfg tr t path pathIndex
      let node := setKey cfg node (e.index - 1) newKey
      let path := { path with entry := path.entry.set pathIndex { e with prevKey := newKey } }
      let (tr, t) ← pathPutDirty ops cfg tr t path pathIndex node
      pure (tr, t, path)

/-! ## Split -/

/-- The two halves of a full node after `block_tree_node_split` has added
the entry `appendKey` (with `appendData` or `appendChild`): the left node
keeps the first `split_index` entries, the right node gets the rest and
the new entry at its end; the middle key goes to the parent (moved out of
an internal node, copied from a leaf). -/
def splitHalves (left right : Node) (appendKey : Nat) (appendData : BlockMac)
    (appendChild : Node) : Node × Node × Nat :=
  let isLeaf := left.isLeaf
  let maxKeyCount := cfg.keyCount isLeaf
  let splitIndex := (maxKeyCount + 1) / 2
  let left := nodeClearEnd cfg left splitIndex
  let parentKey := getKey cfg right splitIndex
  let right := nodeShiftDown cfg right 0 (splitIndex + if isLeaf then 0 else 1) .leafOrLeftChild
  let right := (nodeInsert cfg right (maxKeyCount - splitIndex - if isLeaf then 0 else 1)
    (if isLeaf then .leafOrLeftChild else .rightChild) appendKey appendData appendChild).1
  (left, right, parentKey)

/-- `block_tree_node_split`: the full node at the end of the first `count`
entries of `path` is split in two and the right half is added to its parent,
splitting the parent in turn if it overflows.  A full root keeps its block
as the new root, over a left node in a newly allocated block. -/
def nodeSplit (tr : τ) (t : Tree) (path : Path) :
    Nat → Nat → BlockMac → Node → Option (τ × Tree)
  | 0, _, _, _ => none
  | count + 1, appendKey, appendData, appendChild => do
    if t.copyOnWrite && !t.allowCopyOnWrite then none
    let tmp := !t.allowCopyOnWrite
    let (rightBlock, tr) ← ops.allocate tr tmp
    let (leftBlock, tr) ←
      if count = 0 then ops.allocate tr tmp
      else some ((nodeAt cfg t.root (path.entry.take count)).block, tr)
    let (tr, t, node) ← getWrite ops cfg tr t path count
    let (tr, t, parent, left, parentIndex) ←
      if count = 0 then
        -- the root block is cleared to become the new root over both halves
        some (tr, t, emptyInternal cfg node.block, node.setBlock leftBlock, 0)
      else do
        let (tr, t, parent) ← getWrite ops cfg tr t path (count - 1)
        pure (tr, t, parent, node, (path.entry.getD (count - 1) default).index)
    let (left, right, parentKey) :=
      splitHalves cfg left (left.setBlock rightBlock) appendKey appendData appendChild
    let (parent, overflowKey, _, overflowChild) :=
      nodeInsert cfg parent parentIndex .rightChild parentKey BlockMac.zero right
    let parent := setChild parent parentIndex left
    let (tr, t) ← pathPutDirty ops cfg tr t path (count - 1) parent
    if overflowKey ≠ 0 then nodeSplit tr t path count overflowKey BlockMac.zero overflowChild
    else pure (tr, t)

/-! ## Insert -/

/-- `block_tree_insert_block_mac`: the entry `(key, data)` inserted at the
position `block_tree_walk` finds for `key`, splitting the leaf if it
overflows.  An empty tree first gets a leaf root. -/
def insertBlockMac (tr : τ) (t : Tree) (key : Nat) (data : BlockMac) : Option (τ × Tree) := do
  if key = 0 ∨ !data.valid then none
  let (tr, t) ←
    if t.root.block = 0 then do
      if t.copyOnWrite && !t.allowCopyOnWrite then none
      let (b, tr) ← ops.allocate tr (!t.allowCopyOnWrite)
      pure (tr, { t with root := emptyLeaf cfg b, rootBlockChanged := true })
    else some (tr, t)
  let path ← walk cfg t key false
  let count := path.entry.length
  let index := (path.entry.getD (count - 1) default).index
  let (tr, t, node) ← getWrite ops cfg tr t path (count - 1)
  let (node, overflowKey, overflowData, _) :=
    nodeInsert cfg node index .leafOrLeftChild key data .empty
  let (tr, t) ← pathPutDirty ops cfg tr t path (count - 1) node
  if overflowKey ≠ 0 then nodeSplit ops cfg tr t path count overflowKey overflowData .empty
  else pure (tr, t)

/-- `block_tree_insert`: the data is a block number (with a zero mac). -/
def insert (tr : τ) (t : Tree) (key dataBlock : Nat) : Option (τ × Tree) :=
  insertBlockMac ops cfg tr t key ⟨dataBlock, 0⟩

end BlockTree
