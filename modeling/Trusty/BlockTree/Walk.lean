import Trusty.BlockTree.Node

/-!
# `block_tree.c`: the tree, paths, walks and the checker

`Tree` is `struct block_tree` (the fields the model reads: the root and the
copy-on-write flags).  A `Path` is `struct block_tree_path`: one entry per
level from the root, each with the child or data index taken there and the
keys on either side of it.  The entries locate the nodes: `nodeAt` reads the
node that the first `d` entries lead to, which is what `block_get` of
`path->entry[d].block_mac` reads.

* `findBlock` / `walk` are `block_tree_node_find_block` / `block_tree_walk`;
  the walk fails (the C code asserts) below `maxDepth` levels.
* `pathNext` is `block_tree_path_next`.
* `nodeCheck` / `checkSubTree` are `block_tree_node_check` /
  `block_tree_check_sub_tree`: the depth of a subtree, or `-1` on an error.
-/

namespace BlockTree

/-- `struct block_tree`, the fields the tree code reads. -/
structure Tree where
  root : Node
  rootBlockChanged : Bool
  copyOnWrite : Bool
  allowCopyOnWrite : Bool

/-- `struct block_tree_path_entry` (the block it names is found by position). -/
structure PathEntry where
  index : Nat
  prevKey : Nat
  nextKey : Nat
deriving DecidableEq, Repr, Inhabited

/-- `struct block_tree_path`: `entry` has `count` elements. -/
structure Path where
  entry : List PathEntry
  data : BlockMac
deriving Repr

/-- `BLOCK_TREE_MAX_DEPTH`, the size of `path->entry`. -/
def maxDepth : Nat := 9

variable (cfg : Config)

/-- The node reached from `n` through the child indices of `es`. -/
def nodeAt (n : Node) : List PathEntry → Node
  | [] => n
  | e :: es => nodeAt (getChild cfg n e.index) es

/-- `block_tree_path_get_key`. -/
def Path.getKey (path : Path) : Nat := (path.entry.getLast?.map PathEntry.nextKey).getD 0

/-! ## Search -/

/-- The loop of `block_tree_node_find_block`: the first index whose key is
`0` or not below `key` (for internal nodes, strictly above it). -/
def findIndex (n : Node) (key : Nat) : Nat :=
  let kc := cfg.keyCount n.isLeaf
  ((List.range (kc + 1)).find? (fun i =>
    getKey cfg n i == 0 || decide (key ≤ getKey cfg n i - (if n.isLeaf then 0 else 1)))).getD
    (kc + 1)

/-- `block_tree_node_find_block`: the index, and the updated `prev_key` and
`next_key`.  With `keyIsMax`, a leaf search that did not hit `key` steps back
to the entry before. -/
def findBlock (n : Node) (key : Nat) (keyIsMax : Bool) (prevKey nextKey : Nat) :
    Nat × Nat × Nat :=
  let i := findIndex cfg n key
  let currKey := if i ≤ cfg.keyCount n.isLeaf then getKey cfg n i else 0
  let (i, currKey) :=
    if keyIsMax && n.isLeaf && 0 < i && (currKey == 0 || decide (key < currKey)) then
      (i - 1, getKey cfg n (i - 1))
    else (i, currKey)
  (i, if i > 0 then getKey cfg n (i - 1) else prevKey,
    if currKey ≠ 0 then currKey else nextKey)

/-- The loop of `block_tree_walk`, one level per step; `fuel` is the room left
in `path->entry`. -/
def walkFrom (key : Nat) (keyIsMax : Bool) :
    Nat → Node → List PathEntry → Nat → Nat → BlockMac → Option Path
  | fuel, n, es, prevKey, nextKey, data =>
    if n.block = 0 then some ⟨es, data⟩
    else match fuel with
      | 0 => none
      | fuel + 1 =>
        let r := findBlock cfg n key keyIsMax prevKey nextKey
        let es := es ++ [⟨r.1, r.2.1, r.2.2⟩]
        if n.isLeaf then walkFrom key keyIsMax fuel .empty es r.2.1 r.2.2 (getData cfg n r.1)
        else walkFrom key keyIsMax fuel (getChild cfg n r.1) es r.2.1 r.2.2 data

/-- `block_tree_walk`: the path to `key` or to its insert point. -/
def walk (t : Tree) (key : Nat) (keyIsMax : Bool) : Option Path :=
  walkFrom cfg key keyIsMax maxDepth t.root [] 0 0 BlockMac.zero

/-! ## Next entry -/

/-- The upward loop of `block_tree_path_next`: the deepest level above `d`
that has a right neighbour child, with that level's entry advanced. -/
def pathNextUp (root : Node) : Nat → Path → Option (Nat × Path × Node × Nat)
  | 0, _ => none
  | d + 1, path =>
    let e := path.entry.getD d default
    if e.nextKey = 0 then pathNextUp root d path
    else
      let node := nodeAt cfg root (path.entry.take d)
      let parentNextKey := if 0 < d then (path.entry.getD (d - 1) default).nextKey else 0
      let prevKey := getKey cfg node e.index
      let nextKey := getKey cfg node (e.index + 1)
      let nextChild := getChild cfg node (e.index + 1)
      if nextChild.block ≠ 0 then
        some (d, ⟨path.entry.set d ⟨e.index + 1, prevKey,
          if nextKey ≠ 0 then nextKey else parentNextKey⟩, path.data⟩, nextChild, prevKey)
      else pathNextUp root d path

/-- The downward loop of `block_tree_path_next`: the leftmost path below
`child`, at levels `d` to `d + remaining`. -/
def pathNextDown (prevKey : Nat) : Nat → Nat → Node → Path → Path
  | 0, d, leaf, path =>
    ⟨path.entry.set d ⟨0, prevKey, getKey cfg leaf 0⟩, getData cfg leaf 0⟩
  | remaining + 1, d, node, path =>
    pathNextDown prevKey remaining (d + 1) (getChild cfg node 0)
      ⟨path.entry.set d ⟨0, prevKey, getKey cfg node 0⟩, path.data⟩

/-- `block_tree_path_next`: the path to the next entry in key order (its key
is `0` past the last entry). -/
def pathNext (t : Tree) (path : Path) : Option Path :=
  let depth := path.entry.length - 1
  let e := path.entry.getD depth default
  let leaf := nodeAt cfg t.root (path.entry.take depth)
  let parentNextKey := if 0 < depth then (path.entry.getD (depth - 1) default).nextKey else 0
  let prevKey := getKey cfg leaf e.index
  let nextKey := getKey cfg leaf (e.index + 1)
  if path.entry = [] then none
  else if nextKey ≠ 0 ∨ parentNextKey = 0 then
    some ⟨path.entry.set depth ⟨e.index + 1, prevKey, nextKey⟩, getData cfg leaf (e.index + 1)⟩
  else
    match pathNextUp cfg t.root depth path with
    | none => none
    | some (d, path, nextChild, prevKey) =>
      some (pathNextDown cfg prevKey (depth - (d + 1)) (d + 1) nextChild path)

/-! ## Checker -/

/-- The slot after key `i` that must be zero when key `i` is unused: data `i`
of a leaf, child `i + 1` of an internal node. -/
def slotZero (n : Node) (i : Nat) : Bool :=
  if n.isLeaf then n.data.getD i BlockMac.zero == BlockMac.zero
  else (n.children.getD (i + 1) .empty).block == 0

/-- `block_tree_node_check`: empty key slots only at the end, with zero
data or right child; used keys non-decreasing and within `[minKey, maxKey]`.
A failed transaction tolerates keys out of the bounds. -/
def nodeCheck (failed : Bool) (n : Node) (minKey maxKey : Nat) : Bool :=
  let step (st : Option (Nat × Bool)) (i : Nat) : Option (Nat × Bool) :=
    match st with
    | none => none
    | some (prevKey, seenEmpty) =>
      let key := getKey cfg n i
      if key = 0 ∨ seenEmpty then
        if key ≠ 0 ∨ !slotZero n i then none else some (prevKey, true)
      else if key < prevKey ∨ key < minKey ∨ maxKey < key then
        if failed ∧ prevKey ≤ key then some (key, false) else none
      else some (key, false)
  ((List.range (cfg.keyCount n.isLeaf)).foldl step (some (0, false))).isSome

/-- The running state of the key loop of `block_tree_check_sub_tree`. -/
structure CheckState where
  minKey : Nat
  childMinKey : Nat
  emptyCount : Nat
  depth : Int
  lastChild : Nat

/-- One subtree depth folded into the node's depth (`1` until the first
child is seen); `none` on a depth mismatch or a child error. -/
def combineDepth (depth sub : Int) : Option Int :=
  if sub = -1 then none
  else if sub = -2 then some (if depth = 1 then -2 else depth)
  else if depth = 1 ∨ depth = -2 then some (sub + 1)
  else if sub ≠ depth - 1 then none
  else some depth

/-- One iteration of the key loop of `block_tree_check_sub_tree`; `sub i lo hi`
checks child `i` within `[lo, hi]`. -/
def checkStep (failed : Bool) (n : Node) (sub : Nat → Nat → Nat → Int)
    (st : Option CheckState) (i : Nat) : Option CheckState :=
  match st with
  | none => none
  | some st =>
    let key := getKey cfg n i
    let emptyCount := if key = 0 then st.emptyCount + 1 else st.emptyCount
    if emptyCount ≠ 0 then
      if key ≠ 0 ∨ !slotZero n i then none else some { st with emptyCount := emptyCount }
    else if i = 0 ∧ st.minKey ≠ 0 ∧ n.isLeaf ∧ key ≠ st.minKey ∧ ¬ failed then none
    else
      let depth := if n.isLeaf then some st.depth
        else combineDepth st.depth (sub i st.childMinKey key)
      match depth with
      | none => none
      | some depth => some ⟨key, key, emptyCount, depth, i + 1⟩

/-- The body of `block_tree_check_sub_tree` for the node `n`, with
`sub i lo hi` the check of child `i` within `[lo, hi]`. -/
def checkBody (blockCount : Nat) (failed updating : Bool) (n : Node) (isRoot : Bool)
    (minKey maxKey : Nat) (sub : Nat → Nat → Nat → Int) : Int :=
  let kc := cfg.keyCount n.isLeaf
  let maxEmpty := if isRoot then kc else (kc + 1) / 2 + (if updating then 1 else 0)
  if n.block = 0 then 0
  else if blockCount ≤ n.block then -1
  else if !nodeCheck cfg failed n minKey maxKey then -1
  else
    match (List.range kc).foldl (checkStep cfg failed n sub)
        (some ⟨minKey, minKey, 0, 1, 0⟩) with
    | none => -1
    | some st =>
      let depth := if n.isLeaf then some st.depth
        else combineDepth st.depth (sub st.lastChild st.childMinKey maxKey)
      match depth with
      | none => -1
      | some depth => if maxEmpty < st.emptyCount ∧ ¬ failed then -1 else depth

mutual

/-- `block_tree_check_sub_tree`: the depth of the subtree at `n` (`0` for
none), or `-1` if a check fails.  Keys of the subtree must lie in
`[minKey, maxKey]`, a non-leftmost leaf must start with `minKey`, and a
non-root node may have at most `(key_count + 1) / 2` (plus one while
`updating`) empty key slots. -/
def checkSubTree (blockCount : Nat) (failed updating : Bool) :
    Node → Bool → Nat → Nat → Int
  | .empty, _, _, _ => 0
  | .leaf b ks ds, isRoot, minKey, maxKey =>
    checkBody cfg blockCount failed updating (.leaf b ks ds) isRoot minKey maxKey
      (fun _ _ _ => 0)
  | .internal b ks cs, isRoot, minKey, maxKey =>
    checkBody cfg blockCount failed updating (.internal b ks cs) isRoot minKey maxKey
      (fun i => (checkChildren blockCount failed updating cs).getD i (fun _ _ => 0))

/-- The checks of the children of a node, as functions of their key bounds. -/
def checkChildren (blockCount : Nat) (failed updating : Bool) :
    List Node → List (Nat → Nat → Int)
  | [] => []
  | c :: cs => (fun lo hi => checkSubTree blockCount failed updating c false lo hi) ::
      checkChildren blockCount failed updating cs

end

/-- `block_tree_check`: the whole tree, with keys in `[0, 2^64 - 1]`. -/
def check (blockCount : Nat) (failed : Bool) (t : Tree) (updating : Bool) : Bool :=
  0 ≤ checkSubTree cfg blockCount failed updating t.root true 0 (2 ^ 64 - 1)

end BlockTree
