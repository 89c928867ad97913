import Trusty.BlockTree.NodeSpec
import Trusty.Lib.OptionSpec

/-!
# Copy-on-write and dirty paths

What the tree code may assume of the transaction: `block_allocate_etc`
returns a block of the device other than `0` (`TrOps.AllocIn`).  Where no
transaction call fails (`TrOps.Total`) and a copy-on-write tree allows
copying, the tree functions fail on no assertion (`Runs`); the specs below are
`OptionSpec.Ok` statements with that condition, so they state both what a
call returns and that it returns.

* `blockDirty_ok`: a node made writable is the same node, or moved to a newly
  allocated block (`Moved`).
* `pathPutDirty_ok`: storing a changed node at depth `d` of a path changes
  the tree at that position only, up to the blocks nodes are moved to:
  `shape root' = putAt (shape root) is (shape node)`.
* `updateKey_ok`: the separator that `block_tree_update_key` sets is the
  key before the first non-leftmost step of the path, from the bottom up.
-/

namespace BlockTree

open OptionSpec

variable {τ : Type} (ops : TrOps τ) (cfg : Config)

/-! ## What the tree code assumes of the transaction -/

/-- `block_allocate_etc` hands out non-zero blocks below the device's block
count `bc`. -/
structure TrOps.AllocIn (bc : Nat) : Prop where
  allocate_lt : ∀ {tr : τ} {tmp : Bool} {b : Nat} {tr' : τ},
    ops.allocate tr tmp = some (b, tr') → 0 < b ∧ b < bc

/-- No transaction call fails. -/
def TrOps.Total : Prop :=
  (∀ tr tmp, (ops.allocate tr tmp).isSome) ∧ ∀ tr b tmp, (ops.free tr b tmp).isSome

/-- The tree functions run to the end: no transaction call fails, and a
copy-on-write tree allows copying. -/
def Runs (t : Tree) : Prop :=
  ops.Total ∧ (t.copyOnWrite = true → t.allowCopyOnWrite = true)

/-- The copy-on-write flags of the tree, which no tree function changes. -/
def Tree.flags (t : Tree) : Bool × Bool := (t.copyOnWrite, t.allowCopyOnWrite)

variable {ops}

theorem runs_congr {t t' : Tree} (h : t'.flags = t.flags) : Runs ops t' ↔ Runs ops t := by
  simp only [Tree.flags, Prod.mk.injEq] at h
  simp only [Runs, h.1, h.2]

/-- A copy-on-write tree that does not allow copying: the tree code asserts,
which `Runs` rules out. -/
theorem not_runs_of_cow {t : Tree} (h : (t.copyOnWrite && !t.allowCopyOnWrite) = true) :
    ¬ Runs ops t := by
  intro hrun
  simp only [Bool.and_eq_true, Bool.not_eq_true'] at h
  have := hrun.2 h.1
  rw [h.2] at this
  exact Bool.false_ne_true this

theorem allocate_ok {bc : Nat} (hal : ops.AllocIn bc) (t : Tree) (tr : τ) (tmp : Bool) :
    Ok (Runs ops t) (fun r : Nat × τ => 0 < r.1 ∧ r.1 < bc) (ops.allocate tr tmp) := by
  cases h : ops.allocate tr tmp with
  | none =>
    intro hrun
    have := hrun.1.1 tr tmp
    rw [h] at this
    exact absurd this (by simp)
  | some r => exact hal.allocate_lt h

theorem free_ok (t : Tree) (tr : τ) (b : Nat) (tmp : Bool) :
    Ok (Runs ops t) (fun _ => True) (ops.free tr b tmp) := by
  cases h : ops.free tr b tmp with
  | none =>
    intro hrun
    have := hrun.1.2 tr b tmp
    rw [h] at this
    exact absurd this (by simp)
  | some r => trivial

/-! ## Moving a node -/

/-- `n'` is `n`, or `n` moved to a newly allocated block. -/
def Moved (bc : Nat) (n n' : Node) : Prop := n' = n ∨ ∃ b, 0 < b ∧ b < bc ∧ n' = n.setBlock b

/-- A node whose block is `0` is no node: what `block_get` of a child
pointer gives. -/
def Node.Placed (n : Node) : Prop := n.block = 0 → n = .empty

theorem Moved.shape {bc : Nat} {n n' : Node} (h : Moved bc n n') (hn : n.Placed) :
    shape n' = shape n := by
  rcases h with rfl | ⟨b, hb, _, rfl⟩
  · rfl
  · by_cases h0 : n.block = 0
    · rw [hn h0]; rfl
    · exact shape_setBlock (by omega) h0

variable (ops)

/-- The tree is the same but for `rootBlockChanged`. -/
def Tree.SameRoot (t t' : Tree) : Prop := t'.root = t.root ∧ t'.flags = t.flags

theorem blockDirty_ok {bc : Nat} (hal : ops.AllocIn bc) (tr : τ) (t : Tree) (pathIndex : Nat)
    (node : Node) :
    Ok (Runs ops t) (fun r => Tree.SameRoot t r.2.1 ∧ Moved bc node r.2.2)
      (blockDirty ops tr t pathIndex node) := by
  unfold blockDirty
  refine Ok.ite (fun _ => Ok.pure ⟨⟨rfl, rfl⟩, .inl rfl⟩) (fun hcopy => ?_)
  refine Ok.ite (fun hacow hrun => ?_) (fun _ => ?_)
  · -- a copy-on-write tree that does not allow copying: the C code asserts
    simp only [nodeNeedCopy, Bool.not_eq_true', Bool.not_eq_false, Bool.and_eq_true] at hcopy hacow
    have := hrun.2 hcopy.1
    rw [hacow] at this
    exact Bool.false_ne_true this
  · refine Ok.bind (allocate_ok hal t tr _) (fun r hr => ?_)
    refine Ok.bind (free_ok t r.2 node.block false) (fun tr' _ => Ok.pure ⟨?_, .inr ⟨r.1, hr.1, hr.2, rfl⟩⟩)
    split_ifs <;> exact ⟨rfl, rfl⟩

/-! ## Blocks of the device -/

/-- Every node of `n` is in a block below `bc`. -/
def BlocksBelow (bc : Nat) : Node → Prop
  | .empty => True
  | .leaf b _ _ => b < bc
  | .internal b _ cs => b < bc ∧ BlocksBelowList cs
where
  /-- `BlocksBelow` of each child. -/
  BlocksBelowList : List Node → Prop
    | [] => True
    | c :: cs => BlocksBelow bc c ∧ BlocksBelowList cs

section Blocks

variable {bc : Nat}

theorem blocksBelowList_iff (cs : List Node) :
    BlocksBelow.BlocksBelowList bc cs ↔ ∀ c ∈ cs, BlocksBelow bc c := by
  induction cs with
  | nil => simp [BlocksBelow.BlocksBelowList]
  | cons c cs ih => simp [BlocksBelow.BlocksBelowList, ih]

@[simp] theorem blocksBelow_internal (b : Nat) (ks : List Nat) (cs : List Node) :
    BlocksBelow bc (.internal b ks cs) ↔ b < bc ∧ ∀ c ∈ cs, BlocksBelow bc c := by
  rw [BlocksBelow, blocksBelowList_iff]

theorem BlocksBelow.getChild {n : Node} (h : BlocksBelow bc n) (i : Nat) :
    BlocksBelow bc (getChild cfg n i) := by
  unfold BlockTree.getChild
  dsimp only
  split_ifs
  · trivial
  · cases n with
    | internal b ks cs =>
      rw [blocksBelow_internal] at h
      simp only [Node.children, List.getD_eq_getElem?_getD]
      rcases hc : cs[i]? with _ | c
      · trivial
      · exact h.2 c (List.mem_of_getElem? hc)
    | empty => trivial
    | leaf => trivial
  · trivial

theorem BlocksBelow.nodeAt {n : Node} (h : BlocksBelow bc n) (es : List PathEntry) :
    BlocksBelow bc (nodeAt cfg n es) := by
  induction es generalizing n with
  | nil => exact h
  | cons e es ih => exact ih (h.getChild cfg e.index)

theorem BlocksBelow.setChild {n c : Node} (hn : BlocksBelow bc n) (hc : BlocksBelow bc c)
    (i : Nat) : BlocksBelow bc (setChild n i c) := by
  cases n with
  | internal b ks cs =>
    simp only [BlockTree.setChild]
    rw [blocksBelow_internal] at hn ⊢
    refine ⟨hn.1, fun c' hc' => ?_⟩
    rcases List.mem_or_eq_of_mem_set hc' with h | rfl
    · exact hn.2 c' h
    · exact hc
  | empty => trivial
  | leaf => exact hn

theorem BlocksBelow.nodeShift {n : Node} (hn : BlocksBelow bc n) (dest src : Nat) (mode : ShiftMode)
    (newKeys : List Nat) (newData : List BlockMac) (newChildren : List Node)
    (hc : ∀ c ∈ newChildren, BlocksBelow bc c) :
    BlocksBelow bc (nodeShift cfg n dest src mode newKeys newData newChildren).1 ∧
      ∀ c ∈ (nodeShift cfg n dest src mode newKeys newData newChildren).2.2.2, BlocksBelow bc c := by
  cases n with
  | empty => exact ⟨trivial, fun c hc => by simp [BlockTree.nodeShift] at hc⟩
  | leaf b ks ds => exact ⟨hn, fun c hc => by simp [BlockTree.nodeShift] at hc⟩
  | internal b ks cs =>
    rw [blocksBelow_internal] at hn
    -- every child slot afterwards held a child before, a new child, or nothing
    have hmem : ∀ c, c ∈ cs ∨ c ∈ newChildren ∨ c = Node.empty → BlocksBelow bc c := by
      rintro c (h | h | rfl)
      · exact hn.2 c h
      · exact hc c h
      · trivial
    simp only [BlockTree.nodeShift, blocksBelow_internal]
    exact ⟨⟨hn.1, fun c h => hmem c (Slots.mem_shift _ _ _ _ _ _ (.inl h))⟩,
      fun c h => hmem c (Slots.mem_shift _ _ _ _ _ _ (.inr h))⟩

theorem BlocksBelow.nodeInsert {n c : Node} (hn : BlocksBelow bc n) (hc : BlocksBelow bc c)
    (index : Nat) (mode : ShiftMode) (key : Nat) (d : BlockMac) :
    BlocksBelow bc (nodeInsert cfg n index mode key d c).1 ∧
      BlocksBelow bc (nodeInsert cfg n index mode key d c).2.2.2 := by
  have h := hn.nodeShift cfg (index + 1) index mode [cfg.keyBytes key] [d] [c] (by simpa using hc)
  refine ⟨h.1, ?_⟩
  simp only [BlockTree.nodeInsert, List.headD_eq_head?_getD]
  cases hh : (BlockTree.nodeShift cfg n (index + 1) index mode [cfg.keyBytes key] [d] [c]).2.2.2
    with
  | nil => trivial
  | cons c' cs' => exact h.2 c' (by rw [hh]; simp)

theorem BlocksBelow.nodeShiftDown {n : Node} (hn : BlocksBelow bc n) (d s : Nat) (mode : ShiftMode) :
    BlocksBelow bc (nodeShiftDown cfg n d s mode) :=
  (hn.nodeShift cfg d s mode [] [] [] (by simp)).1

theorem BlocksBelow.nodeClearEnd {n : Node} (hn : BlocksBelow bc n) (s : Nat) :
    BlocksBelow bc (nodeClearEnd cfg n s) :=
  hn.nodeShiftDown cfg _ _ _

theorem Moved.blocksBelow {n n' : Node} (h : Moved bc n n') (hn : BlocksBelow bc n) :
    BlocksBelow bc n' := by
  rcases h with rfl | ⟨b, _, hb, rfl⟩
  · exact hn
  · cases n with
    | empty => trivial
    | leaf => exact hb
    | internal b' ks cs =>
      rw [blocksBelow_internal] at hn
      simp only [Node.setBlock, blocksBelow_internal]
      exact ⟨hb, hn.2⟩

theorem BlocksBelow.block_lt {n : Node} (h : BlocksBelow bc n) (hn : n.block ≠ 0) : n.block < bc := by
  cases n with
  | empty => exact absurd rfl hn
  | leaf => exact h
  | internal => exact h.1

theorem BlocksBelow.setBlock {n : Node} (h : BlocksBelow bc n) {b : Nat} (hb : 0 < b) (hbc : b < bc) :
    BlocksBelow bc (n.setBlock b) :=
  Moved.blocksBelow (.inr ⟨b, hb, hbc, rfl⟩) h

end Blocks

/-! ## Dirty paths -/

/-- A node reached through a child pointer is placed. -/
theorem getChild_placed (n : Node) (i : Nat) : (getChild cfg n i).Placed := by
  intro h
  unfold getChild at h ⊢
  dsimp only at h ⊢
  split_ifs at h ⊢ with h1 h2
  · rfl
  · exact absurd h h2
  · rfl

theorem nodeAt_placed {n : Node} (hn : n.Placed) (es : List PathEntry) :
    (nodeAt cfg n es).Placed := by
  cases es with
  | nil => exact hn
  | cons e es =>
    induction es generalizing n e with
    | nil => exact getChild_placed cfg n e.index
    | cons e' es ih => exact ih (getChild_placed cfg n e.index) e'

theorem getWrite_ok {bc : Nat} (hal : ops.AllocIn bc) (tr : τ) (t : Tree) (path : Path) (d : Nat) :
    Ok (Runs ops t)
      (fun r => Tree.SameRoot t r.2.1 ∧ Moved bc (nodeAt cfg t.root (path.entry.take d)) r.2.2)
      (getWrite ops cfg tr t path d) :=
  blockDirty_ok ops hal tr t d _

/-- The child indices of the first `d` entries of a path. -/
def Path.indices (path : Path) (d : Nat) : List Nat := (path.entry.take d).map PathEntry.index

theorem Path.indices_succ (path : Path) (d : Nat) (hd : d < path.entry.length) :
    path.indices (d + 1) = path.indices d ++ [(path.entry.getD d default).index] := by
  simp only [Path.indices, List.take_add_one, List.map_append, List.getElem?_eq_getElem hd,
    Option.toList_some, List.map_cons, List.map_nil, List.getD_eq_getElem _ _ hd]

/-- `block_tree_path_put_dirty` changes the tree at the position of the
first `d` entries of the path only, whatever blocks it moves nodes to. -/
theorem pathPutDirty_ok {bc : Nat} (hal : ops.AllocIn bc) (path : Path) :
    ∀ (d : Nat) (tr : τ) (t : Tree) (node : Node), d ≤ path.entry.length → t.root.Placed →
    Ok (Runs ops t)
      (fun r => r.2.flags = t.flags ∧
        shape r.2.root = putAt cfg (shape t.root) (path.indices d) (shape node) ∧
        (BlocksBelow bc t.root → BlocksBelow bc node → BlocksBelow bc r.2.root))
      (pathPutDirty ops cfg tr t path d node) := by
  intro d
  induction d with
  | zero =>
    intro tr t node _ _
    exact Ok.pure ⟨rfl, rfl, fun _ h => h⟩
  | succ d ih =>
    intro tr t node hd hroot
    refine Ok.bind (getWrite_ok ops cfg hal tr t path d) (fun r hr => ?_)
    obtain ⟨⟨hroot1, hflags1⟩, hmoved⟩ := hr
    have hplaced := nodeAt_placed cfg hroot (path.entry.take d)
    -- the parent, with the changed node in its slot, is stored one level up
    refine Ok.weaken (Ok.mono (ih r.1 r.2.1 _ (by omega) (by rw [hroot1]; exact hroot))
      (fun r' hr' => ?_)) (runs_congr hflags1).2
    obtain ⟨hflags', hshape', hblocks'⟩ := hr'
    refine ⟨hflags'.trans hflags1, ?_, fun hb hn => hblocks' (by rw [hroot1]; exact hb)
      ((hmoved.blocksBelow ((hb.nodeAt cfg _))).setChild hn _)⟩
    rw [hshape', hroot1, shape_setChild, hmoved.shape hplaced, Path.indices_succ path d (by omega),
      putAt_append, ← nodeAt_shape, nodeAt_eq_subtreeAt]
    rfl

/-! ## Separators -/

/-- The level whose separator `block_tree_update_key` sets, from the first
`levels` entries of a path: the deepest one that is not a leftmost step. -/
def keyLevel (path : Path) : Nat → Option Nat
  | 0 => none
  | d + 1 => if (path.entry.getD d default).index = 0 then keyLevel path d else some d

theorem keyLevel_lt (path : Path) {levels d : Nat} (h : keyLevel path levels = some d) :
    d < levels := by
  induction levels with
  | zero => simp [keyLevel] at h
  | succ l ih =>
    simp only [keyLevel] at h
    split_ifs at h
    · have := ih h; omega
    · cases h; omega

/-- The path after `block_tree_update_key` has set the separator at level `d`. -/
def Path.setPrevKey (path : Path) (d key : Nat) : Path :=
  { path with entry := path.entry.set d { path.entry.getD d default with prevKey := key } }

theorem Path.indices_setPrevKey (path : Path) (d key e : Nat) (he : e ≤ d) :
    (path.setPrevKey d key).indices e = path.indices e := by
  simp only [Path.indices, Path.setPrevKey, List.take_set_of_le he]

@[simp] theorem Path.length_setPrevKey (path : Path) (d key : Nat) :
    (path.setPrevKey d key).entry.length = path.entry.length := by
  simp [Path.setPrevKey]

theorem BlocksBelow.setKey {bc : Nat} {n : Node} (h : BlocksBelow bc n) (i key : Nat) :
    BlocksBelow bc (setKey cfg n i key) := by
  cases n with
  | empty => trivial
  | leaf => exact h
  | internal b ks cs =>
    simp only [BlockTree.setKey, Node.setKeys, Node.keys]
    rw [blocksBelow_internal] at h ⊢
    exact h

/-- `block_tree_update_key` sets the separator at `keyLevel` to `newKey`,
and records it in the path; with no such level nothing changes. -/
theorem updateKey_ok {bc : Nat} (hal : ops.AllocIn bc) (path : Path) (newKey : Nat) :
    ∀ (levels : Nat) (tr : τ) (t : Tree), levels ≤ path.entry.length → t.root.Placed →
    Ok (Runs ops t)
      (fun r => match keyLevel path levels with
        | none => r.2.1 = t ∧ r.2.2 = path
        | some d => r.2.1.flags = t.flags ∧ r.2.2 = path.setPrevKey d newKey ∧
          shape r.2.1.root = putAt cfg (shape t.root) (path.indices d)
            (shape (setKey cfg (nodeAt cfg t.root (path.entry.take d))
              ((path.entry.getD d default).index - 1) newKey)) ∧
          (BlocksBelow bc t.root → BlocksBelow bc r.2.1.root))
      (updateKey ops cfg tr t path newKey levels) := by
  intro levels
  induction levels with
  | zero =>
    intro tr t _ _
    exact Ok.pure ⟨rfl, rfl⟩
  | succ d ih =>
    intro tr t hd hroot
    simp only [updateKey, keyLevel]
    by_cases hidx : (path.entry.getD d default).index = 0
    · -- a leftmost step: the separator is further up
      simp only [hidx, if_true]
      exact ih tr t (by omega) hroot
    · simp only [hidx, if_false]
      refine Ok.bind (getWrite_ok ops cfg hal tr t path d) (fun r hr => ?_)
      obtain ⟨⟨hroot1, hflags1⟩, hmoved⟩ := hr
      have hplaced := nodeAt_placed cfg hroot (path.entry.take d)
      refine Ok.bind (Ok.weaken (pathPutDirty_ok ops cfg hal (path.setPrevKey d newKey) d r.1 r.2.1
        _ (by simp; omega) (by rw [hroot1]; exact hroot)) (runs_congr hflags1).2) (fun r' hr' => ?_)
      obtain ⟨hflags', hshape', hblocks'⟩ := hr'
      refine Ok.pure ⟨hflags'.trans hflags1, rfl, ?_, fun hb => hblocks' (by rw [hroot1]; exact hb)
        ((hmoved.blocksBelow (hb.nodeAt cfg _)).setKey cfg _ _)⟩
      rw [hshape', hroot1, Path.indices_setPrevKey _ _ _ _ le_rfl, shape_setKey, shape_setKey,
        hmoved.shape hplaced]

end BlockTree
