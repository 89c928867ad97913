import Trusty.BlockTree.Insert

/-!
# `block_tree.c`: removal, merging and updates

* `removeInternal` is `block_tree_remove_internal`: a separator and its right
  child leave an internal node; an emptied root is replaced by its only
  child, a non-root node that falls below the minimum fill is merged.
* `nodeMerge` is `block_tree_node_merge`: a node below the minimum fill
  borrows one entry from its sibling (the left one unless it is the leftmost
  child) if the sibling is above the minimum, and is merged with it
  otherwise, removing the right node from the parent.  The two C functions
  call each other; here `nodeMerge` takes the call of
  `block_tree_remove_internal` on the parent as its argument `removeParent`.
* `remove`, `updateBlockMac` and `update` are `block_tree_remove`,
  `block_tree_update_block_mac` and `block_tree_update`; both find their
  entry with `searchEntry`, the `block_tree_path_next` loop of the C code.
-/

namespace BlockTree

variable {τ : Type} (ops : TrOps τ) (cfg : Config)

/-! ## Siblings -/

/-- `block_tree_sibling_index`: the left sibling, or the right one for the
leftmost child. -/
def siblingIndex (index : Nat) : Nat := if index = 0 then 1 else index - 1

/-- `block_tree_get_sibling_block`: the sibling of the node at the end of the
first `count` entries of `path`. -/
def getSiblingBlock (t : Tree) (path : Path) (count : Nat) : Node :=
  let parent := nodeAt cfg t.root (path.entry.take (count - 2))
  parent.children.getD (siblingIndex (path.entry.getD (count - 2) default).index) .empty

/-- `block_tree_path_set_sibling_block`: the parent entry of the node at the
end of the first `count` entries moves to the left (`left`) or right
sibling; the separator on the far side becomes unknown (`0`). -/
def setSibling (path : Path) (count : Nat) (left : Bool) : Path :=
  let e := path.entry.getD (count - 2) default
  let e : PathEntry :=
    if left then ⟨e.index - 1, 0, e.prevKey⟩ else ⟨e.index + 1, e.nextKey, 0⟩
  { path with entry := path.entry.set (count - 2) e }

/-! ## Merge -/

/-- The borrow branch of `block_tree_node_merge`: `node` (below the minimum
fill) takes one entry from its sibling `mergeNode` (above it), and the
separator between them is updated. -/
def nodeBorrow (tr : τ) (t : Tree) (path : Path) (count : Nat) (node mergeNode : Node) :
    Option (τ × Tree) := do
  let nodeIsLeft := (path.entry.getD (count - 2) default).index = 0
  let isLeaf := node.isLeaf
  let (tr, t, mergeNode) ← blockDirty ops tr t (count - 1) mergeNode
  -- the sibling was made writable through the path, which is toggled to it and back
  let path := setSibling (setSibling path count !nodeIsLeft) count nodeIsLeft
  let (srcIndex, destIndex) :=
    if nodeIsLeft then (0, minFullIndex cfg node) else (getKeyCount cfg mergeNode - 1, 0)
  let key := getKey cfg mergeNode srcIndex
  let parentKey := if nodeIsLeft && isLeaf then getKey cfg mergeNode 1 else key
  -- an internal node takes the separator, a leaf the sibling's key
  let e := path.entry.getD (count - 2) default
  let key := if !isLeaf then (if nodeIsLeft then e.nextKey else e.prevKey) else key
  let childIndex := srcIndex + if !nodeIsLeft && !isLeaf then 1 else 0
  let node := (nodeInsert cfg node destIndex
    (if nodeIsLeft && !isLeaf then .rightChild else .leafOrLeftChild) key
    (mergeNode.data.getD childIndex BlockMac.zero)
    (mergeNode.children.getD childIndex .empty)).1
  let mergeNode := nodeShiftDown cfg mergeNode srcIndex (srcIndex + 1)
    (if nodeIsLeft || isLeaf then .leafOrLeftChild else .rightChild)
  let (tr, t, path) ←
    if nodeIsLeft then do
      -- a leftmost leaf that was empty has a new first key
      let (tr, t, path) ←
        if destIndex = 0 && isLeaf then updateKey ops cfg tr t path (getKey cfg node 0) (count - 1)
        else pure (tr, t, path)
      pure (tr, t, setSibling path count !nodeIsLeft)
    else pure (tr, t, path)
  let (tr, t, path) ← updateKey ops cfg tr t path parentKey (count - 1)
  let path := if nodeIsLeft then setSibling path count nodeIsLeft else path
  let (tr, t) ← pathPutDirty ops cfg tr t path (count - 1) node
  let path := setSibling path count !nodeIsLeft
  pathPutDirty ops cfg tr t path (count - 1) mergeNode

/-- The merge branch of `block_tree_node_merge`: the right one of `node` and
its sibling `mergeNode` is appended to the left one (after the separator,
for internal nodes), then removed from the parent by `removeParent` and
freed. -/
def nodeMergeInto (removeParent : τ → Tree → Path → Option (τ × Tree))
    (tr : τ) (t : Tree) (path : Path) (count : Nat) (node mergeNode : Node) :
    Option (τ × Tree) := do
  let nodeIsLeft := (path.entry.getD (count - 2) default).index = 0
  let isLeaf := node.isLeaf
  let (left, right, path) :=
    if nodeIsLeft then (node, mergeNode, path) else (mergeNode, node, setSibling path count true)
  let (tr, t, left) ← blockDirty ops tr t (count - 1) left
  let index := getKeyCount cfg left
  let mergeKey := if isLeaf then 0 else (path.entry.getD (count - 2) default).nextKey
  let left := nodeMergeEntries cfg left right index (getKeyCount cfg right) mergeKey
  let (tr, t, path) ←
    -- "hack, special case for order <= 4 tree": an empty left leaf gets a first key
    if isLeaf && minFullIndex cfg left = 0 && index = 0 then
      updateKey ops cfg tr t path (getKey cfg left 0) (count - 1)
    else pure (tr, t, path)
  let (tr, t) ← pathPutDirty ops cfg tr t path (count - 1) left
  let path := setSibling path count false
  let (tr, t) ← removeParent tr t path
  let tr ← ops.free tr right.block (!t.allowCopyOnWrite)
  pure (tr, t)

/-- `block_tree_node_merge` for the node at the end of the first `count`
entries of `path`. -/
def nodeMerge (removeParent : τ → Tree → Path → Option (τ × Tree))
    (tr : τ) (t : Tree) (path : Path) (count : Nat) : Option (τ × Tree) :=
  if count ≤ 1 then none
  else
    let mergeNode := getSiblingBlock cfg t path count
    let node := nodeAt cfg t.root (path.entry.take (count - 1))
    if aboveMinFull cfg mergeNode then nodeBorrow ops cfg tr t path count node mergeNode
    else nodeMergeInto ops cfg removeParent tr t path count node mergeNode

/-- `block_tree_remove_internal`: the separator before the child at the
entry of depth `count - 1`, and that child, removed from their node. -/
def removeInternal (tr : τ) (t : Tree) (path : Path) : Nat → Option (τ × Tree)
  | 0 => none
  | count + 1 =>
    let index := (path.entry.getD count default).index
    let node := nodeAt cfg t.root (path.entry.take count)
    if count = 0 ∧ getKey cfg node 1 = 0 then do
      -- the root is left with one child, which becomes the root
      if t.copyOnWrite && !t.allowCopyOnWrite then none
      let t := { t with root := node.children.getD 0 .empty }
      let tr ← ops.free tr node.block (!t.allowCopyOnWrite)
      pure (tr, t)
    else do
      let (tr, t, node) ← blockDirty ops tr t count node
      let node := nodeShiftDown cfg node (index - 1) index .rightChild
      let needMerge := 0 < count && belowMinFull cfg node
      let (tr, t) ← pathPutDirty ops cfg tr t path count node
      if needMerge then
        nodeMerge ops cfg (fun tr t path => removeInternal tr t path count) tr t path (count + 1)
      else pure (tr, t)

/-! ## Finding an entry -/

/-- The number of data slots of all leaves: a bound on the number of entries. -/
def leafSlots : Node → Nat
  | .empty => 0
  | .leaf _ ks _ => ks.length
  | .internal _ _ cs => leafSlotsList cs
where
  /-- `leafSlots` summed over a list of children. -/
  leafSlotsList : List Node → Nat
    | [] => 0
    | c :: cs => leafSlots c + leafSlotsList cs

/-- The search loop of `block_tree_remove` and `block_tree_update_block_mac`:
`block_tree_path_next` until the path is at an entry with `key` and the data
block `dataBlock` (the C code asserts that the end of the tree is not
reached).  `fuel` bounds the number of steps. -/
def searchEntry (t : Tree) (key dataBlock : Nat) : Nat → Path → Option Path
  | fuel, path =>
    if path.data.block = dataBlock ∧ path.getKey = key then some path
    else if path.getKey = 0 then none
    else match fuel with
      | 0 => none
      | fuel + 1 => (pathNext cfg t path).bind (searchEntry t key dataBlock fuel)

/-- The path to the entry `(key, dataBlock)`: the insert point of `key` if it
holds that data, else the first match from the entry before `key` on. -/
def findEntry (t : Tree) (key dataBlock : Nat) : Option Path := do
  let path ← walk cfg t key false
  if path.data.block = dataBlock then pure path
  else
    let path ← walk cfg t (key - 1) true
    searchEntry cfg t key dataBlock (leafSlots t.root) path

/-! ## Remove -/

/-- `block_tree_remove`: the entry with `key` and data block `data` removed;
if it was the first of its leaf the separator above is updated, and a leaf
left below the minimum fill is merged. -/
def remove (tr : τ) (t : Tree) (key data : Nat) : Option (τ × Tree) := do
  if t.root.block = 0 ∨ key = 0 ∨ data = 0 then none
  let path ← findEntry cfg t key data
  let count := path.entry.length
  let index := (path.entry.getD (count - 1) default).index
  let node := nodeAt cfg t.root (path.entry.take (count - 1))
  -- the entry found must be a leaf entry with the key and data asked for
  if !node.isLeaf ∨ getKey cfg node index ≠ key ∨
      (node.data.getD index BlockMac.zero).block ≠ data then none
  let (tr, t, node) ← blockDirty ops tr t (count - 1) node
  let node := leafRemoveEntry cfg node index
  let (tr, t, path, needMerge) ←
    if 1 < count then do
      let newParentKey := getKey cfg node 0
      let (tr, t, path) ←
        if index = 0 ∧ newParentKey ≠ 0 then updateKey ops cfg tr t path newParentKey (count - 1)
        else pure (tr, t, path)
      pure (tr, t, path, belowMinFull cfg node)
    else pure (tr, t, path, false)
  let (tr, t) ← pathPutDirty ops cfg tr t path (count - 1) node
  if needMerge then
    nodeMerge ops cfg (fun tr t path => removeInternal ops cfg tr t path (count - 1)) tr t path count
  else pure (tr, t)

/-! ## Update -/

/-- The data at `index` of a leaf replaced. -/
def setData (n : Node) (index : Nat) (d : BlockMac) : Node :=
  match n with
  | .leaf b ks ds => .leaf b ks (ds.set index d)
  | n => n

/-- `block_tree_update_block_mac`: the entry `(oldKey, oldData)` gets
`newData` (same key) or `newKey` (same data block).  A new key must lie
between the keys before and after the entry, else the C code asserts; a new
first key of a leaf is also set as the separator above it. -/
def updateBlockMac (tr : τ) (t : Tree) (oldKey : Nat) (oldData : BlockMac) (newKey : Nat)
    (newData : BlockMac) : Option (τ × Tree) := do
  if t.root.block = 0 ∨ oldKey = 0 ∨ !oldData.valid ∨ newKey = 0 ∨ !newData.valid then none
  if oldKey ≠ newKey ∧ oldData.block ≠ newData.block then none
  if oldKey = newKey ∧ oldData.block = newData.block then none
  let path ← walk cfg t (oldKey - 1) true
  -- the key before the entry, `0` if it is the first entry of the tree
  let prevKey :=
    if path.getKey = oldKey ∧ path.data.block = oldData.block then 0 else path.getKey
  let path ← findEntry cfg t oldKey oldData.block
  let count := path.entry.length
  let index := (path.entry.getD (count - 1) default).index
  let node := nodeAt cfg t.root (path.entry.take (count - 1))
  if !node.isLeaf ∨ getKey cfg node index ≠ oldKey ∨
      (node.data.getD index BlockMac.zero).block ≠ oldData.block then none
  let nextKey :=
    if index + 1 < cfg.keyCount node.isLeaf then getKey cfg node (index + 1) else 0
  let nextKey :=
    if 1 < count ∧ nextKey = 0 then (path.entry.getD (count - 2) default).nextKey else nextKey
  let (tr, t, node) ← blockDirty ops tr t (count - 1) node
  let (tr, t, path, node) ←
    if oldKey = newKey then pure (tr, t, path, setData node index newData)
    else if prevKey ≤ newKey ∧ (newKey ≤ nextKey ∨ nextKey = 0) then do
      let node := setKey cfg node index newKey
      if index = 0 then do
        let (tr, t, path) ← updateKey ops cfg tr t path newKey (count - 1)
        pure (tr, t, path, node)
      else pure (tr, t, path, node)
    else none
  pathPutDirty ops cfg tr t path (count - 1) node

/-- `block_tree_update`: data given as block numbers (with zero macs). -/
def update (tr : τ) (t : Tree) (oldKey oldDataBlock newKey newDataBlock : Nat) :
    Option (τ × Tree) :=
  updateBlockMac ops cfg tr t oldKey ⟨oldDataBlock, 0⟩ newKey ⟨newDataBlock, 0⟩

end BlockTree
