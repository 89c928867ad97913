import Trusty.Lib.Slots

/-!
# `block_tree.c`: nodes

A B+ tree node is one block.  Its payload holds `key_count[is_leaf]` key slots
followed by `key_count[is_leaf]` data slots (leaves) or `key_count[0] + 1` child
slots (internal nodes).  A zero key marks an empty slot, so the used entries are
a prefix of each array and key `0` cannot be stored.

The model keeps the arrays as lists of the slot values.  A child slot holds the
child node itself (`Node.empty` is the zero `block_mac`), so following a child
pointer is reading the subtree; the block number each node is stored in is kept
in the node, where copy-on-write changes it.  Keys are stored in `key_size`
bytes: a key copied in from a `data_block_t` is cut to that width (`keyBytes`).

The node primitives are `nodeShift` (`block_tree_node_shift`) and the helpers
built on it: `nodeMergeEntries`, `nodeShiftDown`, `nodeClearEnd`, `nodeInsert`.
-/

namespace BlockTree

/-- `struct block_mac`: a block number and the mac of the block's contents. -/
structure BlockMac where
  block : Nat
  mac : Nat
deriving DecidableEq, Repr

/-- `BLOCK_MAC_INITIAL_VALUE`: no block. -/
def BlockMac.zero : BlockMac := ⟨0, 0⟩

/-- `block_mac_valid`. -/
def BlockMac.valid (b : BlockMac) : Bool := b.block != 0

/-- A tree node as its block stores it; `empty` stands for a zero child pointer. -/
inductive Node where
  | empty
  | leaf (block : Nat) (keys : List Nat) (data : List BlockMac)
  | internal (block : Nat) (keys : List Nat) (children : List Node)
deriving Repr, Inhabited

/-- The sizes `block_tree_set_sizes` computes, with the bounds it asserts. -/
structure Config where
  keySize : Nat
  keyCountInternal : Nat
  keyCountLeaf : Nat
  keySize_pos : 0 < keySize
  keySize_le : keySize ≤ 8
  two_le_internal : 2 ≤ keyCountInternal
  two_le_leaf : 2 ≤ keyCountLeaf

/-- `sizeof(struct block_tree_node)`: a 16 byte iv and the 8 byte `is_leaf`. -/
def nodeHeaderSize : Nat := 24

/-- `sizeof(struct block_mac)`. -/
def blockMacSize : Nat := 24

/-- `block_tree_set_sizes`, with its asserts (and the one of
`block_tree_max_key_count`, which depends on the sizes only) as `none`.
`size_t` arithmetic wraps at `2^64`. -/
def setSizes (blockSize keySize childSize dataSize : Nat) : Option Config :=
  let payloadSize := (blockSize + 2 ^ 64 - nodeHeaderSize) % 2 ^ 64
  let kc0 := ((payloadSize + 2 ^ 64 - childSize) % 2 ^ 64) / (keySize + childSize)
  let kc1 := payloadSize / (keySize + dataSize)
  if h : payloadSize < blockSize ∧ 0 < keySize ∧ keySize ≤ 8 ∧ keySize ≤ childSize ∧
      childSize ≤ blockMacSize ∧ 0 < dataSize ∧ dataSize ≤ blockMacSize ∧
      2 ≤ kc0 ∧ 2 ≤ kc1 ∧ kc0 * keySize < blockSize ∧ kc1 * keySize < blockSize then
    some ⟨keySize, kc0, kc1, h.2.1, h.2.2.1, h.2.2.2.2.2.2.2.1, h.2.2.2.2.2.2.2.2.1⟩
  else none

variable (cfg : Config)

/-- `block_tree_max_key_count`: `key_count[leaf]`. -/
def Config.keyCount (leaf : Bool) : Nat :=
  if leaf then cfg.keyCountLeaf else cfg.keyCountInternal

/-- `block_tree_min_key_count`: the fill of a non-root node, `max / 2`. -/
def Config.minKeyCount (leaf : Bool) : Nat := cfg.keyCount leaf / 2

/-- A `data_block_t` key copied into a `key_size` byte slot. -/
def Config.keyBytes (key : Nat) : Nat := key % 2 ^ (8 * cfg.keySize)

theorem Config.two_le_keyCount (leaf : Bool) : 2 ≤ cfg.keyCount leaf := by
  cases leaf
  · exact cfg.two_le_internal
  · exact cfg.two_le_leaf

theorem Config.one_le_minKeyCount (leaf : Bool) : 1 ≤ cfg.minKeyCount leaf := by
  have := cfg.two_le_keyCount leaf
  simp only [Config.minKeyCount]; omega

/-! ## Node fields -/

namespace Node

/-- The block the node is stored in (`0` for no node). -/
def block : Node → Nat
  | empty => 0
  | leaf b _ _ => b
  | internal b _ _ => b

/-- `block_tree_node_is_leaf`. -/
def isLeaf : Node → Bool
  | leaf .. => true
  | _ => false

/-- The key array. -/
def keys : Node → List Nat
  | empty => []
  | leaf _ ks _ => ks
  | internal _ ks _ => ks

/-- The data array of a leaf. -/
def data : Node → List BlockMac
  | leaf _ _ ds => ds
  | _ => []

/-- The child array of an internal node. -/
def children : Node → List Node
  | internal _ _ cs => cs
  | _ => []

/-- The same node stored in another block. -/
def setBlock (b : Nat) : Node → Node
  | empty => empty
  | leaf _ ks ds => leaf b ks ds
  | internal _ ks cs => internal b ks cs

/-- The same node with another key array. -/
def setKeys (ks : List Nat) : Node → Node
  | empty => empty
  | leaf b _ ds => leaf b ks ds
  | internal b _ cs => internal b ks cs

@[simp] theorem isLeaf_leaf (b : Nat) (ks : List Nat) (ds : List BlockMac) :
    (leaf b ks ds).isLeaf = true := rfl

@[simp] theorem isLeaf_internal (b : Nat) (ks : List Nat) (cs : List Node) :
    (internal b ks cs).isLeaf = false := rfl

@[simp] theorem keys_setBlock (n : Node) (b : Nat) : (n.setBlock b).keys = n.keys := by
  cases n <;> rfl

@[simp] theorem isLeaf_setBlock (n : Node) (b : Nat) : (n.setBlock b).isLeaf = n.isLeaf := by
  cases n <;> rfl

@[simp] theorem data_setBlock (n : Node) (b : Nat) : (n.setBlock b).data = n.data := by
  cases n <;> rfl

@[simp] theorem children_setBlock (n : Node) (b : Nat) :
    (n.setBlock b).children = n.children := by
  cases n <;> rfl

end Node

/-! ## Reading and writing slots -/

/-- `block_tree_node_get_key`: the key at `index`, `0` for an empty or
missing slot.  (`tree->inserting` is clear between tree operations, so its
slot is never read.) -/
def getKey (n : Node) (index : Nat) : Nat :=
  if index < cfg.keyCount n.isLeaf then n.keys.getD index 0 else 0

/-- `block_tree_node_set_key`. -/
def setKey (n : Node) (index : Nat) (key : Nat) : Node :=
  n.setKeys (n.keys.set index (cfg.keyBytes key))

/-- `block_tree_node_get_child`: the child at `index` of an internal node,
`empty` where the slot holds no block. -/
def getChild (n : Node) (index : Nat) : Node :=
  if index ≤ cfg.keyCount n.isLeaf then
    let c := n.children.getD index .empty
    if c.block = 0 then .empty else c
  else .empty

/-- `block_tree_node_get_data`: the data at `index` of a leaf, zero where the
slot holds no block. -/
def getData (n : Node) (index : Nat) : BlockMac :=
  if index < cfg.keyCount n.isLeaf then
    let d := n.data.getD index BlockMac.zero
    if d.block = 0 then BlockMac.zero else d
  else BlockMac.zero

/-- The child at `index` replaced (a `block_put_dirty` into the parent's slot). -/
def setChild (n : Node) (index : Nat) (c : Node) : Node :=
  match n with
  | .internal b ks cs => .internal b ks (cs.set index c)
  | n => n

/-- `block_tree_node_get_key_count`: the number of used key slots. -/
def getKeyCount (n : Node) : Nat :=
  ((List.range (cfg.keyCount n.isLeaf)).find? (fun i => getKey cfg n i = 0)).getD
    (cfg.keyCount n.isLeaf)

/-- `block_tree_node_full`. -/
def nodeFull (n : Node) : Bool := getKey cfg n (cfg.keyCount n.isLeaf - 1) != 0

/-- `block_tree_node_min_full_index`: the index of the last key of a node at
the minimum fill. -/
def minFullIndex (n : Node) : Nat := cfg.minKeyCount n.isLeaf - 1

/-- `block_tree_above_min_full`. -/
def aboveMinFull (n : Node) : Bool := getKey cfg n (minFullIndex cfg n + 1) != 0

/-- `block_tree_below_min_full`. -/
def belowMinFull (n : Node) : Bool := getKey cfg n (minFullIndex cfg n) == 0

/-! ## Shifting entries -/

/-- `enum block_tree_shift_mode`. -/
inductive ShiftMode
  | leafOrLeftChild
  | rightChild
  | leftChild
  | both
deriving DecidableEq, Repr

/-- `shift_mode & SHIFT_RIGHT_CHILD`. -/
def ShiftMode.right : ShiftMode → Bool
  | .rightChild | .both => true
  | _ => false

/-- `shift_mode & SHIFT_LEFT_CHILD`. -/
def ShiftMode.left : ShiftMode → Bool
  | .leftChild | .both => true
  | _ => false

/-- `~0U`, the source index of `block_tree_node_clear_end`. -/
def uintMax : Nat := 2 ^ 32 - 1

/-- The destination and source index for the child/data array: with
`SHIFT_RIGHT_CHILD` the right child of each key moves, one slot further on;
the source index stays unless only the right child is selected. -/
def shiftChildIndices (mode : ShiftMode) (dest src : Nat) : Nat × Nat :=
  if mode.right then (dest + 1, if !mode.left && src != uintMax then src + 1 else src)
  else (dest, src)

/-- `block_tree_node_shift`: the shifted node and the overflow keys, data and
children. -/
def nodeShift (n : Node) (dest src : Nat) (mode : ShiftMode)
    (newKeys : List Nat) (newData : List BlockMac) (newChildren : List Node) :
    Node × List Nat × List BlockMac × List Node :=
  let (dest2, src2) := shiftChildIndices mode dest src
  match n with
  | .empty => (.empty, [], [], [])
  | .leaf b ks ds =>
    let m := cfg.keyCountLeaf
    let ks' := Slots.shift 0 m dest src ks newKeys
    let ds' := Slots.shift BlockMac.zero m dest2 src2 ds newData
    (.leaf b ks'.1 ds'.1, ks'.2, ds'.2, [])
  | .internal b ks cs =>
    let m := cfg.keyCountInternal
    let ks' := Slots.shift 0 m dest src ks newKeys
    let cs' := Slots.shift Node.empty (m + 1) dest2 src2 cs newChildren
    (.internal b ks'.1 cs'.1, ks'.2, [], cs'.2)

/-- `max_count - MAX(src_index, dest_index)`, the slot count of the `memmove`
in `block_tree_node_shift`, in the `uint` arithmetic the code computes it in.
`Slots.shift` moves `n - max src dest` slots, the same count whenever the
larger index is inside the array (`shiftMoveCount_toNat`). -/
def shiftMoveCount (maxCount dest src : Nat) : UInt32 :=
  maxCount.toUInt32 - (max src dest).toUInt32

theorem shiftMoveCount_toNat {maxCount dest src : Nat} (h : max src dest ≤ maxCount)
    (hm : maxCount < 2 ^ 32) :
    (shiftMoveCount maxCount dest src).toNat = maxCount - max src dest := by
  have hle : (max src dest).toUInt32 ≤ maxCount.toUInt32 := by
    rw [UInt32.le_iff_toNat_le, UInt32.toNat_ofNat_of_lt' hm,
      UInt32.toNat_ofNat_of_lt' (lt_of_le_of_lt h hm)]
    exact h
  rw [shiftMoveCount, UInt32.toNat_sub_of_le _ _ hle, UInt32.toNat_ofNat_of_lt' hm,
    UInt32.toNat_ofNat_of_lt' (lt_of_le_of_lt h hm)]

/-- `block_tree_node_merge_entries`: the first `count` entries of `src`
appended at `destIndex`, after `mergeKey` for internal nodes. -/
def nodeMergeEntries (n src : Node) (destIndex count : Nat) (mergeKey : Nat) : Node :=
  if n.isLeaf then
    (nodeShift cfg n (destIndex + count) destIndex .leafOrLeftChild src.keys src.data
      src.children).1
  else
    let n' := n.setKeys (n.keys.set destIndex (cfg.keyBytes mergeKey))
    (nodeShift cfg n' (destIndex + 1 + count) (destIndex + 1) .both src.keys src.data
      src.children).1

/-- `block_tree_node_shift_down`: entries `[destIndex, srcIndex)` removed. -/
def nodeShiftDown (n : Node) (destIndex srcIndex : Nat) (mode : ShiftMode) : Node :=
  (nodeShift cfg n destIndex srcIndex mode [] [] []).1

/-- `block_tree_node_clear_end`: entries from `startIndex` on removed (for an
internal node, the keys from `startIndex` and the children after them). -/
def nodeClearEnd (n : Node) (startIndex : Nat) : Node :=
  nodeShiftDown cfg n startIndex uintMax (if n.isLeaf then .leafOrLeftChild else .rightChild)

/-- `block_tree_node_insert`: one key with its data or child inserted at
`index`; returns the node and the key, data and child pushed out of a full node. -/
def nodeInsert (n : Node) (index : Nat) (mode : ShiftMode) (newKey : Nat)
    (newData : BlockMac) (newChild : Node) : Node × Nat × BlockMac × Node :=
  let r := nodeShift cfg n (index + 1) index mode [cfg.keyBytes newKey] [newData] [newChild]
  (r.1, r.2.1.headD 0, r.2.2.1.headD BlockMac.zero, r.2.2.2.headD .empty)

/-- `block_tree_node_leaf_remove_entry`. -/
def leafRemoveEntry (n : Node) (index : Nat) : Node :=
  nodeShiftDown cfg n index (index + 1) .leafOrLeftChild

end BlockTree
