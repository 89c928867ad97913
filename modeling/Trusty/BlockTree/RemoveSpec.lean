import Trusty.BlockTree.MergeSpec

/-!
# Removal keeps the invariant and takes one entry out

* Paths: what `block_tree_path_set_sibling_block` and `block_tree_update_key`
  do to a path's entries (`setSibling_take`, `keyLevel_some`), and
  `updateKey_around`: a separator raised to the new first key of a subtree
  keeps the tree valid around it, its lower bound now that key.
* `nodeBorrow_ok`, `nodeMergeInto_ok`: the two branches of
  `block_tree_node_merge` for a node one entry short, as the pair lemmas of
  `MergeSpec` put into the parent.
* `cascade_ok`: `block_tree_remove_internal` and `block_tree_node_merge`,
  which call each other up the path, leave a valid tree with the same
  entries, as high as before or one level lower (`MergeDone`).  The
  induction is on the depth of the node.
* `remove_ok`: `block_tree_remove` of an entry of a valid tree with distinct
  keys gives a valid tree with the same entries but that one.
-/

namespace BlockTree

open OptionSpec

variable {cfg : Config}

/-! ## Paths -/

section Paths

theorem take_succ_getD (l : List PathEntry) {d : Nat} (hd : d < l.length) :
    l.take (d + 1) = l.take d ++ [l.getD d default] := by
  rw [List.take_add_one, List.getElem?_eq_getElem hd, List.getD_eq_getElem _ _ hd]
  rfl

/-- With no level to update, every step of the first `levels` is leftmost. -/
theorem keyLevel_none {path : Path} {levels : Nat} (h : keyLevel path levels = none) :
    ∀ f ∈ path.entry.take levels, f.index = 0 := by
  induction levels with
  | zero => simp
  | succ d ih =>
    simp only [keyLevel] at h
    by_cases hd : (path.entry.getD d default).index = 0
    · rw [if_pos hd] at h
      intro f hf
      rcases Nat.lt_or_ge d path.entry.length with hlt | hge
      · rw [take_succ_getD _ hlt, List.mem_append, List.mem_singleton] at hf
        rcases hf with hf | rfl
        · exact ih h f hf
        · exact hd
      · rw [List.take_of_length_le (by omega)] at hf
        exact ih h f (by rwa [List.take_of_length_le hge])
    · rw [if_neg hd] at h
      cases h

/-- The level `block_tree_update_key` updates: below it only leftmost steps. -/
theorem keyLevel_some {path : Path} {levels d : Nat} (h : keyLevel path levels = some d)
    (hl : levels ≤ path.entry.length) :
    ∃ fs, path.entry.take levels = path.entry.take d ++ path.entry.getD d default :: fs ∧
      (∀ f ∈ fs, f.index = 0) ∧ 0 < (path.entry.getD d default).index := by
  induction levels with
  | zero => cases h
  | succ l ih =>
    simp only [keyLevel] at h
    rw [take_succ_getD _ (by omega)]
    by_cases hz : (path.entry.getD l default).index = 0
    · rw [if_pos hz] at h
      obtain ⟨fs, hfs, hzero, hpos⟩ := ih h (by omega)
      refine ⟨fs ++ [path.entry.getD l default], by rw [hfs]; simp, fun f hf => ?_, hpos⟩
      rw [List.mem_append, List.mem_singleton] at hf
      rcases hf with hf | rfl
      · exact hzero f hf
      · exact hz
    · rw [if_neg hz] at h
      cases h
      exact ⟨[], rfl, by simp, by omega⟩

theorem Path.setPrevKey_take {path : Path} {levels d : Nat} {fs : List PathEntry}
    (hd : d < path.entry.length)
    (h : path.entry.take levels = path.entry.take d ++ path.entry.getD d default :: fs) (k : Nat) :
    (path.setPrevKey d k).entry.take levels =
      path.entry.take d ++ { path.entry.getD d default with prevKey := k } :: fs := by
  have hlen : (path.entry.take d).length = d := by simp; omega
  rw [Path.setPrevKey, List.take_set, h, List.set_append_right _ _ (by omega), hlen, Nat.sub_self]
  rfl

theorem Path.map_index_setPrevKey (path : Path) (d key : Nat) :
    (path.setPrevKey d key).entry.map PathEntry.index = path.entry.map PathEntry.index := by
  apply List.ext_getElem?
  intro j
  simp only [Path.setPrevKey, List.getElem?_map, List.getElem?_set]
  by_cases hdj : d = j
  · subst hdj
    by_cases hd : d < path.entry.length <;> simp [hd]
  · rw [if_neg hdj]

theorem Path.indices_setPrevKey_all (path : Path) (d key e : Nat) :
    (path.setPrevKey d key).indices e = path.indices e := by
  simp only [Path.indices, List.map_take, Path.map_index_setPrevKey]

/-- The steps of a path, which `block_tree_update_key` keeps. -/
theorem Path.indices_of_map_index {p q : Path}
    (h : q.entry.map PathEntry.index = p.entry.map PathEntry.index) (e : Nat) :
    q.indices e = p.indices e := by
  simp only [Path.indices, List.map_take, h]

theorem Path.length_of_map_index {p q : Path}
    (h : q.entry.map PathEntry.index = p.entry.map PathEntry.index) :
    q.entry.length = p.entry.length := by
  rw [← List.length_map (f := PathEntry.index), h, List.length_map]

theorem Path.index_of_map_index {p q : Path}
    (h : q.entry.map PathEntry.index = p.entry.map PathEntry.index) (d : Nat) :
    (q.entry.getD d default).index = (p.entry.getD d default).index := by
  have hq := List.getD_map (l := q.entry) (f := PathEntry.index) (d := default) (n := d)
  have hp := List.getD_map (l := p.entry) (f := PathEntry.index) (d := default) (n := d)
  rw [← hq, ← hp, h]

/-- The entry `block_tree_path_set_sibling_block` records at the parent. -/
def siblingEntry (e : PathEntry) (left : Bool) : PathEntry :=
  if left then ⟨e.index - 1, 0, e.prevKey⟩ else ⟨e.index + 1, e.nextKey, 0⟩

theorem setSibling_entry (path : Path) (count : Nat) (left : Bool) :
    (setSibling path count left).entry =
      path.entry.set (count - 2) (siblingEntry (path.entry.getD (count - 2) default) left) := rfl

@[simp] theorem length_setSibling (path : Path) (count : Nat) (left : Bool) :
    (setSibling path count left).entry.length = path.entry.length := by
  simp [setSibling_entry]

theorem setSibling_take_of_le (path : Path) (count : Nat) (left : Bool) {d : Nat}
    (hd : d ≤ count - 2) : (setSibling path count left).entry.take d = path.entry.take d := by
  rw [setSibling_entry, List.take_set_of_le hd]

theorem getD_setSibling {path : Path} {count : Nat} (hc : count - 2 < path.entry.length)
    (left : Bool) :
    (setSibling path count left).entry.getD (count - 2) default =
      siblingEntry (path.entry.getD (count - 2) default) left := by
  rw [setSibling_entry, List.getD_eq_getElem _ _ (by simpa using hc), List.getElem_set_self]

theorem setSibling_take_succ {path : Path} {count : Nat} (hc : count - 2 < path.entry.length)
    (left : Bool) :
    (setSibling path count left).entry.take (count - 2 + 1) =
      path.entry.take (count - 2) ++ [siblingEntry (path.entry.getD (count - 2) default) left] := by
  rw [setSibling_entry, take_succ_set _ _ hc]

theorem indices_setSibling {path : Path} {count : Nat} (hc : count - 2 < path.entry.length)
    (left : Bool) :
    (setSibling path count left).indices (count - 2 + 1) =
      path.indices (count - 2) ++ [(siblingEntry (path.entry.getD (count - 2) default) left).index] := by
  rw [Path.indices, setSibling_take_succ hc, List.map_append]
  rfl

/-- An update from below a leftmost step starts above it. -/
theorem updateKey_of_index_zero {τ : Type} (ops : TrOps τ) (tr : τ) (t : Tree) (path : Path)
    (k : Nat) {count : Nat} (hc : 2 ≤ count) (h : (path.entry.getD (count - 2) default).index = 0) :
    updateKey ops cfg tr t path k (count - 1) = updateKey ops cfg tr t path k (count - 2) := by
  rw [show count - 1 = count - 2 + 1 by omega, updateKey, if_pos h]

/-- The first `count - 2` steps of a path are `pp`, and the next one is `x`. -/
def Path.StepsAt (q : Path) (count : Nat) (pp : List Nat) (x : Nat) : Prop :=
  count - 2 < q.entry.length ∧ q.indices (count - 2) = pp ∧ (q.entry.getD (count - 2) default).index = x

section StepsAt

variable {q q' : Path} {count : Nat} {pp : List Nat} {x : Nat}

theorem Path.StepsAt.indices_succ (h : q.StepsAt count pp x) : q.indices (count - 2 + 1) = pp ++ [x] := by
  rw [Path.indices, take_succ_getD _ h.1, List.map_append, ← Path.indices, h.2.1, List.map_singleton,
    h.2.2]

theorem Path.StepsAt.of_map (h : q.StepsAt count pp x)
    (hq : q'.entry.map PathEntry.index = q.entry.map PathEntry.index) : q'.StepsAt count pp x :=
  ⟨by rw [Path.length_of_map_index hq]; exact h.1, by rw [Path.indices_of_map_index hq]; exact h.2.1,
    by rw [Path.index_of_map_index hq]; exact h.2.2⟩

theorem Path.StepsAt.setSibling (h : q.StepsAt count pp x) (left : Bool) :
    (BlockTree.setSibling q count left).StepsAt count pp (if left then x - 1 else x + 1) := by
  refine ⟨by simpa using h.1, ?_, ?_⟩
  · rw [Path.indices, setSibling_take_of_le _ _ _ le_rfl]
    exact h.2.1
  · rw [getD_setSibling h.1, siblingEntry, ← h.2.2]
    cases left <;> rfl

end StepsAt

end Paths

/-! ## Raising a separator in the tree -/

section Update

variable {τ : Type} {ops : TrOps τ} {bc : Nat}

/-- `block_tree_update_key` with a key within the bounds of the subtree at
the end of the first `levels` entries: the tree stays valid around that
subtree, whose lower bound becomes the key (or stays `0` down the leftmost
spine), and neither the entries nor the steps of the path change. -/
theorem updateKey_around (hal : ops.AllocIn bc) (path : Path) (levels : Nat) (tr : τ) (t : Tree)
    {H hi : Nat} {bd : Bounds} {m : Node} (hlev : levels ≤ path.entry.length)
    (hroot : t.root.Placed)
    (hA : Around cfg ⟨true, H, 0, hi⟩ (shape t.root) (path.entry.take levels) bd m)
    {k : Nat} (hfit : cfg.KeyFits k) (hlo : bd.lo ≤ k) (hhi : k ≤ bd.hi) :
    Ok (Runs ops t) (fun r => r.2.1.flags = t.flags ∧
        (BlocksBelow bc t.root → BlocksBelow bc r.2.1.root) ∧
        r.2.2.entry.map PathEntry.index = path.entry.map PathEntry.index ∧
        entries r.2.1.root = entries t.root ∧
        ∃ lo', (lo' = k ∨ lo' = 0) ∧ Around cfg ⟨true, H, 0, hi⟩ (shape r.2.1.root)
          (r.2.2.entry.take levels) { bd with lo := lo' } m)
      (updateKey ops cfg tr t path k levels) := by
  refine (updateKey_ok ops cfg hal path k levels tr t hlev hroot).mono fun r hr => ?_
  cases hlv : keyLevel path levels with
  | none =>
    rw [hlv] at hr
    obtain ⟨h1, h2⟩ := hr
    rw [h1, h2]
    -- every step is leftmost: the lower bound is the top's, `0`
    have hlo0 : bd.lo = 0 := hA.lo_eq_of_spine (keyLevel_none hlv)
    have hbd : ({ bd with lo := 0 } : Bounds) = bd := by
      rw [← hlo0]
    refine ⟨rfl, id, rfl, rfl, 0, .inr rfl, ?_⟩
    rw [hbd]
    exact hA
  | some d =>
    rw [hlv] at hr
    obtain ⟨hflags, hpath, hshape, hblocks⟩ := hr
    have hd := keyLevel_lt path hlv
    obtain ⟨fs, hfs, hz, hpos⟩ := keyLevel_some hlv hlev
    rw [hfs] at hA
    have hnode : shape (setKey cfg (nodeAt cfg t.root (path.entry.take d))
        ((path.entry.getD d default).index - 1) k) =
        setKey cfg (subtreeAt cfg (shape t.root) ((path.entry.take d).map PathEntry.index))
          ((path.entry.getD d default).index - 1) k := by
      rw [shape_setKey, ← nodeAt_shape, nodeAt_eq_subtreeAt]
    have hentries := hA.entries_setSep ((path.entry.getD d default).index - 1) k
    have hA' := hA.setSep hpos hz hfit hlo hhi
    rw [← hnode, ← Path.indices, ← hshape] at hA' hentries
    rw [hpath]
    refine ⟨hflags, hblocks, Path.map_index_setPrevKey path d k, ?_, k, .inl rfl, ?_⟩
    · rw [← entries_shape, hentries, entries_shape]
    · rw [Path.setPrevKey_take (by omega) hfs]
      exact hA'

end Update

/-! ## The state of the merge cascade -/

section Ready

/-- A node at the top may hold any number of keys. -/
theorem Valid.to_root {r : Bool} {H lo hi : Nat} {n : Node} (hv : Valid cfg ⟨r, H, lo, hi⟩ n) :
    Valid cfg ⟨true, H, lo, hi⟩ n := by
  cases hv with
  | leaf ks ds hb hlen hcap hkeys hfirst _ hheight =>
    exact .leaf ks ds hb hlen hcap hkeys hfirst (fun h => absurd h (by simp)) hheight
  | internal ks cs hb hlen hcap hkeys hne _ hheight hchild =>
    exact .internal ks cs hb hlen hcap hkeys hne (fun h => absurd h (by simp)) hheight hchild

/-- A node one entry short that is not below the minimum after all, or is the
top (with a key, if internal), is valid. -/
theorem Weak.valid {bd : Bounds} {n : Node} (h : Weak cfg bd n)
    (hfill : bd.root = false → belowMinFull cfg n = false)
    (hne : n.isLeaf = false → getKey cfg n 0 ≠ 0) : Valid cfg bd n := by
  cases h with
  | leaf hl hb hcap _ hheight =>
    refine (hl.leafOk hb hcap (fun hr => ?_) hheight).valid
    have := hfill hr
    rw [belowMinFull_mkLeaf _ _ _ hcap hl.hkeys.pos] at this
    simpa using this
  | @internal b ks cs hc hb hcap _ hheight =>
    have hks : ks ≠ [] := by
      intro hnil
      have := hne rfl
      rw [getKey_mkInternal _ _ _ hcap, hnil] at this
      exact this rfl
    refine (hc.internalOk hb hcap hks (fun hr => ?_) hheight).valid
    have := hfill hr
    rw [belowMinFull_mkInternal _ _ _ hcap hc.hkeys.pos] at this
    simpa using this

/-- An internal node left without keys has one child, valid across the
node's range one level lower, with all the node's entries: what the root
gives way to when it is left so. -/
theorem Weak.collapse {bd : Bounds} {n : Node} (h : Weak cfg bd n) (hn : n.isLeaf = false)
    (hk : getKey cfg n 0 = 0) :
    Valid cfg ⟨false, bd.height - 1, bd.lo, bd.hi⟩ (n.children.getD 0 .empty) ∧
      entries (n.children.getD 0 .empty) = entries n := by
  cases h with
  | leaf => cases hn
  | @internal b ks cs hc hb hcap _ _ =>
    have hks : ks = [] := by
      cases ks with
      | nil => rfl
      | cons k ks =>
        rw [getKey_mkInternal _ _ _ hcap] at hk
        exact absurd hk (Nat.pos_iff_ne_zero.mp (hc.hkeys.pos k List.mem_cons_self))
    subst hks
    obtain ⟨c, rfl⟩ := List.length_eq_one_iff.mp hc.hlen
    have hget : (mkInternal cfg b [] [c]).children.getD 0 .empty = c := by
      simp only [mkInternal, Node.children, Slots.getD_pad, List.getD_cons_zero]
    rw [hget, entries_mkInternal, List.flatMap_singleton]
    refine ⟨?_, rfl⟩
    simpa [Bounds.child, fence] using hc.hchild 0 (by simp)

variable (cfg)

/-- Where `block_tree_node_merge` starts: below the first `count - 2` steps
of the path is an internal node, valid but for its child at the next step,
which is one entry short. -/
def MergeReady (bc H hi : Nat) (t : Tree) (path : Path) (count : Nat) : Prop :=
  2 ≤ count ∧ count - 1 ≤ path.entry.length ∧ BlocksBelow bc t.root ∧
    ∃ bd b ks cs, Around cfg ⟨true, H, 0, hi⟩ (shape t.root) (path.entry.take (count - 2)) bd
        (mkInternal cfg b ks cs) ∧
      InternalAround cfg bd b ks cs (path.entry.getD (count - 2) default).index ∧
      EntryOk ks (path.entry.getD (count - 2) default) ∧
      Weak cfg (bd.child ks (path.entry.getD (count - 2) default).index)
        (cs.getD (path.entry.getD (count - 2) default).index .empty) ∧
      belowMinFull cfg (cs.getD (path.entry.getD (count - 2) default).index .empty) = true

/-- Where `block_tree_remove_internal` starts: the node below the first
`m - 1` steps of the path, without the separator and child at step `m - 1`,
is one entry short. -/
def RemoveReady (bc H hi : Nat) (t : Tree) (path : Path) (m : Nat) : Prop :=
  1 ≤ m ∧ m ≤ path.entry.length ∧ BlocksBelow bc t.root ∧
    ∃ bd b ks cs, Around cfg ⟨true, H, 0, hi⟩ (shape t.root) (path.entry.take (m - 1)) bd
        (mkInternal cfg b ks cs) ∧
      0 < (path.entry.getD (m - 1) default).index ∧
      (path.entry.getD (m - 1) default).index ≤ ks.length ∧ ks.length ≤ cfg.keyCountInternal ∧
      cs.length = ks.length + 1 ∧ (∀ k ∈ ks, 0 < k) ∧
      Weak cfg bd (nodeShiftDown cfg (mkInternal cfg b ks cs)
        ((path.entry.getD (m - 1) default).index - 1) (path.entry.getD (m - 1) default).index
        .rightChild)

/-- The tree (as a shape) that `block_tree_remove_internal` at step `m - 1`
is to leave: the separator before the child at that step, and the child,
shifted out of their node. -/
def removedAt (t : Tree) (path : Path) (m : Nat) : Node :=
  putAt cfg (shape t.root) (path.indices (m - 1))
    (nodeShiftDown cfg (nodeAt cfg (shape t.root) (path.entry.take (m - 1)))
      ((path.entry.getD (m - 1) default).index - 1) (path.entry.getD (m - 1) default).index
      .rightChild)

/-- What the cascade leaves: a valid tree, as high as before or one level
lower, with the entries `E`. -/
def MergeDone (bc H hi : Nat) (t : Tree) (E : List (Nat × BlockMac)) (t' : Tree) : Prop :=
  t'.flags = t.flags ∧ BlocksBelow bc t'.root ∧
    (∃ H', H' ≤ H ∧ H ≤ H' + 1 ∧ Valid cfg ⟨true, H', 0, hi⟩ t'.root) ∧ entries t'.root = E

variable {cfg}

/-- The node at the end of the first `count - 1` steps one entry short: the
parent's view of it. -/
theorem MergeReady.of_around {bc H hi : Nat} {t : Tree} {path : Path} {count : Nat} {bd : Bounds}
    {N : Node} (hc : 2 ≤ count) (hlen : count - 1 ≤ path.entry.length)
    (hbr : BlocksBelow bc t.root)
    (hA : Around cfg ⟨true, H, 0, hi⟩ (shape t.root) (path.entry.take (count - 1)) bd N)
    (hw : Weak cfg bd N) (hbelow : belowMinFull cfg N = true) :
    MergeReady cfg bc H hi t path count := by
  rw [show count - 1 = count - 2 + 1 by omega, take_succ_getD _ (by omega)] at hA
  obtain ⟨bdP, b, ks, cs, hP, hint, he, hi, -, rfl, rfl⟩ := hA.split_last
  rw [← List.getD_eq_getElem _ Node.empty hi] at hw hbelow
  exact ⟨hc, hlen, hbr, bdP, b, ks, cs, hP, hint, he, hw, hbelow⟩

end Ready

/-! ## Putting the changed parent back -/

section Parent

variable {bd bd' : Bounds} {n : Node} {es : List PathEntry} {b : Nat} {ks : List Nat}
  {cs : List Node}

/-- The three writes of a borrow, a separator and two children of one node,
are one write of the changed node. -/
theorem Around.putAt_pair (h : Around cfg bd n es bd' (mkInternal cfg b ks cs)) (hb : b ≠ 0)
    {l x y : Nat} (hl : l < ks.length) (hx : x < cs.length) (hy : y < cs.length) (k : Nat)
    (X Y : Node) :
    putAt cfg (putAt cfg (putAt cfg n (es.map PathEntry.index)
        (setKey cfg (mkInternal cfg b ks cs) l k)) (es.map PathEntry.index ++ [x]) X)
      (es.map PathEntry.index ++ [y]) Y =
    putAt cfg n (es.map PathEntry.index)
      (mkInternal cfg b (ks.set l (cfg.keyBytes k)) ((cs.set x X).set y Y)) := by
  rw [setKey_mkInternal b ks cs l k hl]
  have hb1 : (mkInternal cfg b (ks.set l (cfg.keyBytes k)) cs).block ≠ 0 := hb
  rw [(h.put hb1).putAt_snoc, h.putAt_putAt hb1, setChild_mkInternal _ _ _ _ _ hx]
  have hb2 : (mkInternal cfg b (ks.set l (cfg.keyBytes k)) (cs.set x X)).block ≠ 0 := hb
  rw [(h.put hb2).putAt_snoc, h.putAt_putAt hb2, setChild_mkInternal _ _ _ _ _ (by simpa using hy)]

/-- The entries of two neighbouring children replaced by the same entries. -/
theorem flatMap_set_pair (l : Nat) (hl : l + 1 < cs.length) {A B : Node}
    (hAB : entries A ++ entries B = entries cs[l] ++ entries cs[l + 1]) :
    ((cs.set l A).set (l + 1) B).flatMap entries = cs.flatMap entries := by
  have hcs : cs = cs.take l ++ [cs[l], cs[l + 1]] ++ cs.drop (l + 2) := by
    rw [← set_set_succ cs l hl, List.set_getElem_self, List.set_getElem_self]
  rw [set_set_succ cs l hl]
  conv => rhs; rw [hcs]
  simp only [List.flatMap_append, List.flatMap_cons, List.flatMap_nil, List.append_nil,
    List.append_assoc, ← hAB]

/-- A borrow put back into the tree: the tree is valid again, with the same
entries. -/
theorem Around.borrow {H hi i l : Nat} (h : Around cfg ⟨true, H, 0, hi⟩ n es bd (mkInternal cfg b ks cs))
    (hint : InternalAround cfg bd b ks cs i) (hil : i = l ∨ i = l + 1) (hl : l + 1 < cs.length)
    {A B : Node} {k : Nat}
    (hp : PairOk cfg (bd.height - 1) (fence bd.lo bd.hi ks l) (fence bd.lo bd.hi ks (l + 2)) A B k
      (entries cs[l] ++ entries cs[l + 1])) :
    Valid cfg ⟨true, H, 0, hi⟩
        (putAt cfg n (es.map PathEntry.index) (mkInternal cfg b (ks.set l k) ((cs.set l A).set (l + 1) B))) ∧
      entries (putAt cfg n (es.map PathEntry.index)
        (mkInternal cfg b (ks.set l k) ((cs.set l A).set (l + 1) B))) = entries n := by
  have hok := hint.borrow hil hl hp
  have hb : (mkInternal cfg b (ks.set l k) ((cs.set l A).set (l + 1) B)).block ≠ 0 := hint.hb
  refine ⟨(h.put hb).valid hok.valid, ?_⟩
  obtain ⟨pre, post, hn, hput⟩ := h.entries_put
  rw [hput, hn, entries_mkInternal, entries_mkInternal, flatMap_set_pair l hl hp.2.2.2]

end Parent

/-! ## The two nodes of a pair -/

section Pair

variable {bd : Bounds} {n : Node} {b : Nat} {ks : List Nat}

/-- The sibling of a short leaf is a leaf: both sit at the same height. -/
theorem Valid.view_leaf (hv : Valid cfg bd n) (hh : bd.height = 1) :
    ∃ b ks ds, n = mkLeaf cfg b ks ds ∧ LeafOk cfg bd b ks ds := by
  rcases hv.view with hl | ⟨_, _, _, _, hi⟩
  · exact hl
  · have := hi.hheight
    omega

/-- The sibling of a short internal node is internal. -/
theorem Valid.view_internal (hv : Valid cfg bd n) (hh : 2 ≤ bd.height) :
    ∃ b ks cs, n = mkInternal cfg b ks cs ∧ InternalOk cfg bd b ks cs := by
  rcases hv.view with ⟨_, _, _, _, hl⟩ | hi
  · have := hl.hheight
    omega
  · exact hi

/-- A short node holds one key less than the minimum: the removal took
exactly one key from a node that had the minimum. -/
theorem length_succ_of_belowMinFull_mkLeaf {ds : List BlockMac} (hcap : ks.length ≤ cfg.keyCountLeaf)
    (hpos : ∀ k ∈ ks, 0 < k) (hfill : cfg.minKeyCount true ≤ ks.length + 1)
    (hbelow : belowMinFull cfg (mkLeaf cfg b ks ds) = true) : ks.length + 1 = cfg.minKeyCount true := by
  rw [belowMinFull_mkLeaf _ _ _ hcap hpos, decide_eq_true_eq] at hbelow
  omega

theorem length_succ_of_belowMinFull_mkInternal {cs : List Node} (hcap : ks.length ≤ cfg.keyCountInternal)
    (hpos : ∀ k ∈ ks, 0 < k) (hfill : cfg.minKeyCount false ≤ ks.length + 1)
    (hbelow : belowMinFull cfg (mkInternal cfg b ks cs) = true) :
    ks.length + 1 = cfg.minKeyCount false := by
  rw [belowMinFull_mkInternal _ _ _ hcap hpos, decide_eq_true_eq] at hbelow
  omega

/-- A sibling above the minimum has a key to lend. -/
theorem LeafOk.minKeyCount_lt {ds : List BlockMac} (h : LeafOk cfg bd b ks ds)
    (habove : aboveMinFull cfg (mkLeaf cfg b ks ds) = true) : cfg.minKeyCount true < ks.length := by
  rwa [aboveMinFull_mkLeaf _ _ _ h.hcap h.hkeys.pos, decide_eq_true_eq] at habove

theorem InternalOk.minKeyCount_lt {cs : List Node} (h : InternalOk cfg bd b ks cs)
    (habove : aboveMinFull cfg (mkInternal cfg b ks cs) = true) : cfg.minKeyCount false < ks.length := by
  rwa [aboveMinFull_mkInternal _ _ _ h.hcap h.hkeys.pos, decide_eq_true_eq] at habove

/-- A non-root sibling not above the minimum has exactly the minimum. -/
theorem LeafOk.length_eq_minKeyCount {ds : List BlockMac} (h : LeafOk cfg bd b ks ds) (hr : bd.root = false)
    (habove : aboveMinFull cfg (mkLeaf cfg b ks ds) = false) : ks.length = cfg.minKeyCount true := by
  rw [aboveMinFull_mkLeaf _ _ _ h.hcap h.hkeys.pos, decide_eq_false_iff_not, not_lt] at habove
  have := h.hfill hr
  omega

theorem InternalOk.length_eq_minKeyCount {cs : List Node} (h : InternalOk cfg bd b ks cs)
    (hr : bd.root = false) (habove : aboveMinFull cfg (mkInternal cfg b ks cs) = false) :
    ks.length = cfg.minKeyCount false := by
  rw [aboveMinFull_mkInternal _ _ _ h.hcap h.hkeys.pos, decide_eq_false_iff_not, not_lt] at habove
  have := h.hfill hr
  omega

/-- The separator between children `l` and `l + 1`, and the fence after it,
both below the parent's upper bound. -/
theorem KeysOk.separator_fences {lo hi' hi l : Nat} (h : KeysOk lo hi' ks) (hl : l < ks.length)
    (hhi : hi' ≤ hi) :
    fence lo hi' ks (l + 1) = ks[l] ∧ ks[l] ≤ fence lo hi' ks (l + 2) ∧ fence lo hi' ks (l + 2) ≤ hi := by
  have hf1 : fence lo hi' ks (l + 1) = ks[l] := fence_succ l hl
  refine ⟨hf1, ?_, ?_⟩
  · rw [← hf1]
    exact h.fence_mono (by omega) (by omega)
  · calc fence lo hi' ks (l + 2)
        ≤ fence lo hi' ks (ks.length + 1) := h.fence_mono (by omega) le_rfl
      _ = hi' := fence_length
      _ ≤ hi := hhi

end Pair

/-! ## Borrowing from a sibling -/

section Borrow

variable {τ : Type} {ops : TrOps τ} {bc : Nat}

theorem Node.placed_of_shape {n : Node} (h : (shape n).block ≠ 0) : n.Placed := by
  intro hn
  rw [block_shape, hn] at h
  exact absurd rfl h

theorem BlocksBelow.children_getD {n : Node} (h : BlocksBelow bc n) (j : Nat) :
    BlocksBelow bc (n.children.getD j .empty) := by
  cases n with
  | internal b ks cs =>
    rw [blocksBelow_internal] at h
    simp only [Node.children, List.getD_eq_getElem?_getD]
    rcases hc : cs[j]? with _ | c
    · trivial
    · exact h.2 c (List.mem_of_getElem? hc)
  | empty => trivial
  | leaf => trivial

/-- `MergeDone` read off the shape of the tree left. -/
theorem mergeDone_of_shape {H hi H' : Nat} {t t' : Tree} {E : List (Nat × BlockMac)} {R : Node}
    (hflags : t'.flags = t.flags) (hblocks : BlocksBelow bc t'.root) (hroot : shape t'.root = R)
    (hH : H' ≤ H ∧ H ≤ H' + 1) (hv : Valid cfg ⟨true, H', 0, hi⟩ R) (hE : entries R = E) :
    MergeDone cfg bc H hi t E t' := by
  refine ⟨hflags, hblocks, ⟨H', hH.1, hH.2, ?_⟩, ?_⟩
  · rw [← Valid.shape_iff, hroot]
    exact hv
  · rw [← entries_shape, hroot, hE]

theorem shape_children_getD (n : Node) (j : Nat) :
    shape (n.children.getD j .empty) = (shape n).children.getD j .empty := by
  rw [children_shape, ← shape_empty, List.getD_map, shape_empty]

variable (cfg) in
/-- The pair a merge step works on, in the shape of the tree: the parent
below the first `count - 2` steps, the short node at the next step (index
`i`) and its sibling at `j`, with the real nodes the code reads. -/
structure PairAt (bc H hi : Nat) (t : Tree) (path : Path) (count : Nat) (bd : Bounds) (b : Nat)
    (ks : List Nat) (cs : List Node) (i j : Nat) : Prop where
  hc : 2 ≤ count
  hlen : count - 1 ≤ path.entry.length
  hbr : BlocksBelow bc t.root
  hP : Around cfg ⟨true, H, 0, hi⟩ (shape t.root) (path.entry.take (count - 2)) bd
    (mkInternal cfg b ks cs)
  hint : InternalAround cfg bd b ks cs i
  hidx : (path.entry.getD (count - 2) default).index = i
  he : EntryOk ks (path.entry.getD (count - 2) default)
  hi : i < cs.length
  hj : j < cs.length
  hN : Weak cfg (bd.child ks i) (cs.getD i .empty)
  hbelow : belowMinFull cfg (cs.getD i .empty) = true
  hS : Valid cfg (bd.child ks j) (cs.getD j .empty)
  hshN : shape (nodeAt cfg t.root (path.entry.take (count - 1))) = cs.getD i .empty
  hshS : shape (getSiblingBlock cfg t path count) = cs.getD j .empty

/-- `block_tree_node_merge` reads the short node and its sibling. -/
theorem MergeReady.pairAt {H hi : Nat} {t : Tree} {path : Path} {count : Nat}
    (h : MergeReady cfg bc H hi t path count) :
    ∃ bd b ks cs, PairAt cfg bc H hi t path count bd b ks cs (path.entry.getD (count - 2) default).index
      (siblingIndex (path.entry.getD (count - 2) default).index) := by
  obtain ⟨hc, hlen, hbr, bd, b, ks, cs, hP, hint, he, hw, hbelow⟩ := h
  set i := (path.entry.getD (count - 2) default).index with hidef
  have hcs := hint.hlen
  have hks := List.length_pos_iff.mpr hint.hne
  -- the short node is in a block, so in a slot
  have hi : i < cs.length := by
    by_contra hge
    have hb := hw.block_ne_zero
    rw [List.getD_eq_getElem?_getD, List.getElem?_eq_none (by omega)] at hb
    exact hb rfl
  have hj : siblingIndex i < cs.length := by
    unfold siblingIndex
    split_ifs <;> omega
  have hc0 : cs[i].block ≠ 0 := by
    have hb := hw.block_ne_zero
    rwa [List.getD_eq_getElem _ _ hi] at hb
  refine ⟨bd, b, ks, cs, hc, hlen, hbr, hP, hint, rfl, he, hi, hj, hw, hbelow, ?_, ?_, ?_⟩
  · rw [List.getD_eq_getElem _ _ hj]
    exact hint.hchild _ hj (by unfold siblingIndex; split_ifs <;> omega)
  · -- the node is the child at step `count - 2` of the parent
    rw [← nodeAt_shape, nodeAt_eq_subtreeAt, show count - 1 = count - 2 + 1 by omega,
      take_succ_getD _ (by omega), List.map_append, subtreeAt_append, ← nodeAt_eq_subtreeAt,
      hP.subtreeAt_eq, nodeAt, nodeAt, hint.getChild hi hc0, List.getD_eq_getElem _ _ hi]
  · rw [getSiblingBlock, shape_children_getD, ← nodeAt_shape, nodeAt_eq_subtreeAt, hP.subtreeAt_eq]
    exact Slots.getD_pad ..

/-- The end of a borrow: the separator between the pair is set (the path at
the right one of the pair), then the two new nodes are stored.  The tree is
valid again and has the entries it had. -/
theorem borrow_tail (hal : ops.AllocIn bc) {H hi : Nat} {t t2 : Tree} (tr2 : τ) (q : Path)
    {count : Nat} (fX fY : Path → Path) {bd : Bounds} {b : Nat} {ks : List Nat} {cs : List Node}
    {pp : List Nat} {i l x y : Nat} (hc : 2 ≤ count) (hq : q.StepsAt count pp (l + 1))
    (hP : Around cfg ⟨true, H, 0, hi⟩ (shape t2.root) (q.entry.take (count - 2)) bd
      (mkInternal cfg b ks cs))
    (hint : InternalAround cfg bd b ks cs i) (hil : i = l ∨ i = l + 1) (hl : l + 1 < cs.length)
    (hfX : ∀ q' : Path, q'.StepsAt count pp (l + 1) → (fX q').StepsAt count pp x)
    (hfY : ∀ q' : Path, q'.StepsAt count pp (l + 1) → (fY q').StepsAt count pp y)
    (hx : x < cs.length) (hy : y < cs.length) {X Y A B : Node} {k : Nat}
    (hAB : (cs.set x (shape X)).set y (shape Y) = (cs.set l A).set (l + 1) B)
    (hp : PairOk cfg (bd.height - 1) (fence bd.lo bd.hi ks l) (fence bd.lo bd.hi ks (l + 2)) A B k
      (entries cs[l] ++ entries cs[l + 1]))
    (hfit : cfg.KeyFits k) (hflags2 : t2.flags = t.flags) (hbr2 : BlocksBelow bc t2.root)
    (hent2 : entries t2.root = entries t.root) (hbX : BlocksBelow bc X) (hbY : BlocksBelow bc Y) :
    Ok (Runs ops t) (fun r => MergeDone cfg bc H hi t (entries t.root) r.2)
      (do
        let u ← updateKey ops cfg tr2 t2 q k (count - 1)
        let v ← pathPutDirty ops cfg u.1 u.2.1 (fX u.2.2) (count - 1) X
        pathPutDirty ops cfg v.1 v.2 (fY u.2.2) (count - 1) Y) := by
  have hc1 : count - 1 = count - 2 + 1 := by omega
  have hl' : l < ks.length := by have := hint.hlen; omega
  have hlev : keyLevel q (count - 1) = some (count - 2) := by
    rw [hc1, keyLevel, hq.2.2, if_neg (by omega)]
  have hup := updateKey_ok ops cfg hal q k (count - 1) tr2 t2 (by have := hq.1; omega)
    (hP.placed hint.hb)
  rw [hlev] at hup
  refine Ok.bind (Ok.weaken hup (runs_congr hflags2).2) (fun r3 hr3 => ?_)
  obtain ⟨hflags3, hpath3, hshape3, hblocks3⟩ := hr3
  have hmap3 : r3.2.2.entry.map PathEntry.index = q.entry.map PathEntry.index := by
    rw [hpath3]
    exact Path.map_index_setPrevKey q _ k
  have hX := hfX _ (hq.of_map hmap3)
  have hY := hfY _ (hq.of_map hmap3)
  have hindX := hX.indices_succ
  have hindY := hY.indices_succ
  rw [← hc1, ← hq.2.1] at hindX hindY
  -- the separator is set in the parent
  have hroot3 : shape r3.2.1.root = putAt cfg (shape t2.root) (q.indices (count - 2))
      (setKey cfg (mkInternal cfg b ks cs) l k) := by
    rw [hshape3, shape_setKey, ← nodeAt_shape, nodeAt_eq_subtreeAt, hP.subtreeAt_eq, hq.2.2,
      Nat.add_sub_cancel]
  have hb1 : (setKey cfg (mkInternal cfg b ks cs) l k).block ≠ 0 := by
    rw [setKey_mkInternal b ks cs l k hl']
    exact hint.hb
  have hblock3 : (shape r3.2.1.root).block ≠ 0 := by
    rw [hroot3]
    exact (hP.put hb1).block_ne_zero hb1
  have hflags3' : r3.2.1.flags = t.flags := hflags3.trans hflags2
  refine Ok.bind (Ok.weaken (pathPutDirty_ok ops cfg hal (fX r3.2.2) (count - 1) r3.1 r3.2.1 X
    (by have := hX.1; omega) (Node.placed_of_shape hblock3)) (runs_congr hflags3').2) (fun r4 hr4 => ?_)
  obtain ⟨hflags4, hshape4, hblocks4⟩ := hr4
  have hblock4 : (shape r4.2.root).block ≠ 0 := by
    rw [hshape4, block_putAt _ _ _ (by rw [hindX]; simp)]
    exact hblock3
  have hflags4' : r4.2.flags = t.flags := hflags4.trans hflags3'
  refine (Ok.weaken (pathPutDirty_ok ops cfg hal (fY r3.2.2) (count - 1) r4.1 r4.2 Y
    (by have := hY.1; omega) (Node.placed_of_shape hblock4)) (runs_congr hflags4').2).mono fun r5 hr5 => ?_
  obtain ⟨hflags5, hshape5, hblocks5⟩ := hr5
  -- the three writes are one write of the parent with the pair in place
  have hroot5 : shape r5.2.root = putAt cfg (shape t2.root) (q.indices (count - 2))
      (mkInternal cfg b (ks.set l k) ((cs.set l A).set (l + 1) B)) := by
    rw [hshape5, hindY, hshape4, hindX, hroot3]
    rw [Path.indices, hP.putAt_pair hint.hb hl' hx hy, Config.keyBytes_of_fits hfit, hAB]
  obtain ⟨hv, hent⟩ := hP.borrow hint hil hl hp
  exact mergeDone_of_shape (hflags5.trans hflags4') (hblocks5 (hblocks4 (hblocks3 hbr2) hbX) hbY)
    hroot5 ⟨le_rfl, by omega⟩ hv (by rw [Path.indices, hent, entries_shape, hent2])

/-- What the code inserts into the node, seen as a shape. -/
theorem shape_nodeInsert_from (node S1 : Node) (i : Nat) (mode : ShiftMode) (k ci : Nat) :
    shape (nodeInsert cfg node i mode k (S1.data.getD ci .zero) (S1.children.getD ci .empty)).1 =
      (nodeInsert cfg (shape node) i mode k ((shape S1).data.getD ci .zero)
        ((shape S1).children.getD ci .empty)).1 := by
  rw [data_shape, ← shape_children_getD, shape_nodeInsert]

theorem PairOk.of_height {h h' lo hi k : Nat} {l r : Node} {es : List (Nat × BlockMac)}
    (hp : PairOk cfg h lo hi l r k es) (hh : h = h') : PairOk cfg h' lo hi l r k es :=
  hh ▸ hp

theorem keysOk_nil {lo hi : Nat} (h : lo ≤ hi) : KeysOk lo hi [] :=
  ⟨by simp, by simp [h]⟩

theorem KeysOk.getD_le {lo hi : Nat} {ks : List Nat} (h : KeysOk lo hi ks) (i : Nat) :
    ks.getD i 0 ≤ hi := by
  rcases Nat.lt_or_ge i ks.length with hi' | hge
  · rw [List.getD_eq_getElem _ _ hi']
    exact (h.mem_bounds (List.getElem_mem hi')).2
  · rw [List.getD_eq_getElem?_getD, List.getElem?_eq_none hge]
    exact Nat.zero_le _

/-- The borrow of the leftmost child from its right sibling. -/
theorem nodeBorrow_left_ok (hal : ops.AllocIn bc) (hidx : cfg.IndexFits) {H hi : Nat}
    (hhi : hi < 2 ^ (8 * cfg.keySize)) (tr : τ) {t : Tree} {path : Path} {count : Nat} {bd : Bounds}
    {b : Nat} {ks : List Nat} {cs : List Node} (hp : PairAt cfg bc H hi t path count bd b ks cs 0 1)
    (habove : aboveMinFull cfg (getSiblingBlock cfg t path count) = true) :
    Ok (Runs ops t) (fun r => MergeDone cfg bc H hi t (entries t.root) r.2)
      (nodeBorrow ops cfg tr t path count (nodeAt cfg t.root (path.entry.take (count - 1)))
        (getSiblingBlock cfg t path count)) := by
  obtain ⟨hc, hlen, hbr, hP, hint, hidx0, he, h0, h1, hN, hbelow, hS, hshN, hshS⟩ := hp
  have hd : count - 2 < path.entry.length := by omega
  have hks : 0 < ks.length := List.length_pos_iff.mpr hint.hne
  have hcs := hint.hlen
  obtain ⟨hf1, hf2, hf2hi⟩ : fence bd.lo bd.hi ks 1 = ks[0] ∧ ks[0] ≤ fence bd.lo bd.hi ks 2 ∧
      fence bd.lo bd.hi ks 2 ≤ hi := hint.hkeys.separator_fences hks hP.bounds_le.2
  -- the path goes to the sibling and back: the same steps
  have hq0 : path.StepsAt count (path.indices (count - 2)) 0 := ⟨hd, rfl, hidx0⟩
  have hq1 : (setSibling (setSibling path count false) count true).StepsAt count
      (path.indices (count - 2)) 0 := by
    simpa using (hq0.setSibling false).setSibling true
  have htake1 : (setSibling (setSibling path count false) count true).entry.take (count - 2) =
      path.entry.take (count - 2) := by
    rw [setSibling_take_of_le _ _ _ le_rfl, setSibling_take_of_le _ _ _ le_rfl]
  -- the blocks the code reads
  have hplS : (getSiblingBlock cfg t path count).Placed :=
    Node.placed_of_shape (by rw [hshS]; exact hS.block_ne_zero)
  have hbS : BlocksBelow bc (getSiblingBlock cfg t path count) := (hbr.nodeAt cfg _).children_getD _
  have hbN : BlocksBelow bc (nodeAt cfg t.root (path.entry.take (count - 1))) := hbr.nodeAt cfg _
  have hc0 : cs[0] = cs.getD 0 .empty := (List.getD_eq_getElem _ _ h0).symm
  have hc1' : cs[1] = cs.getD 1 .empty := (List.getD_eq_getElem _ _ h1).symm
  generalize cs.getD 0 .empty = N at hN hbelow hshN hc0
  generalize cs.getD 1 .empty = S at hS hshS hc1'
  have hchild0 : ∀ lo', (({ bd with lo := lo' } : Bounds).child ks 1) = bd.child ks 1 := fun lo' => by
    simp only [Bounds.child, @fence_lo_of_pos lo' bd.hi ks bd.lo 1 (by omega),
      @fence_lo_of_pos lo' bd.hi ks bd.lo 2 (by omega)]
  cases hN with
  | @leaf bN nks nds hl hbN0 hcapN hfillN hheightN =>
    -- the sibling is a leaf too
    obtain ⟨bS, sks, sds, rfl, hSl⟩ := hS.view_leaf (by simpa only [Bounds.child] using hheightN)
    have hlN : LeafChain bd.lo ks[0] nks nds := by
      have := hl
      simp only [Bounds.child, fence_zero, Nat.zero_add, hf1] at this
      exact this
    have hsS : LeafChain ks[0] (fence bd.lo bd.hi ks 2) sks sds := by
      have := hSl.leafChain
      simp only [Bounds.child, hf1] at this
      exact this
    have hleaf : (nodeAt cfg t.root (path.entry.take (count - 1))).isLeaf = true := by
      rw [← isLeaf_shape, hshN]
      rfl
    have hnlen : nks.length + 1 = cfg.minKeyCount true :=
      length_succ_of_belowMinFull_mkLeaf hcapN hl.hkeys.pos (hfillN rfl) hbelow
    have hminF : minFullIndex cfg (nodeAt cfg t.root (path.entry.take (count - 1))) =
        cfg.minKeyCount true - 1 := by
      rw [← minFullIndex_shape, hshN]
      rfl
    have hslen : cfg.minKeyCount true < sks.length :=
      hSl.minKeyCount_lt (by rwa [← aboveMinFull_shape, hshS] at habove)
    have hH1 : bd.height - 1 = 1 := by
      simp only [Bounds.child] at hheightN
      exact hheightN
    -- the pair the borrow makes, for the lower bound the node ends up with
    have hpair : ∀ lo', lo' ≤ ks[0] → (nks = [] → lo' ≠ 0 → lo' = ks[0]) →
        LeafChain lo' ks[0] nks nds →
        PairOk cfg (bd.height - 1) lo' (fence bd.lo bd.hi ks 2)
          (nodeInsert cfg (mkLeaf cfg bN nks nds) (minFullIndex cfg (mkLeaf cfg bN nks nds))
            .leafOrLeftChild (getKey cfg (mkLeaf cfg bS sks sds) 0)
            ((mkLeaf cfg bS sks sds).data.getD 0 .zero)
            ((mkLeaf cfg bS sks sds).children.getD 0 .empty)).1
          (nodeShiftDown cfg (mkLeaf cfg bS sks sds) 0 1 .leafOrLeftChild)
          (getKey cfg (mkLeaf cfg bS sks sds) 1) (entries cs[0] ++ entries cs[1]) := by
      intro lo' _ hfirst hn
      rw [hH1, hc0, hc1', entries_mkLeaf cfg _ _ _ hl.hkeys.pos hl.hlen,
        entries_mkLeaf cfg _ _ _ hSl.hkeys.pos hSl.hlen, ← List.zip_append (by rw [hl.hlen])]
      exact borrowLeft_leaf rfl rfl hn hsS (hint.hkeys.pos _ (List.getElem_mem hks)) hfirst
        hbN0 hSl.hb hnlen hslen hSl.hcap (lt_of_le_of_lt hf2hi hhi)
    simp only [nodeBorrow, hidx0, hleaf, decide_true, Bool.not_true, Bool.and_true, Bool.true_and,
      if_true, Bool.true_or, Bool.false_and, Bool.false_eq_true, if_false, Nat.zero_add]
    refine Ok.bind (blockDirty_ok ops hal tr t (count - 1) _) (fun r1 hr1 => ?_)
    obtain ⟨⟨hroot1, hflags1⟩, hmoved1⟩ := hr1
    have hS1 : shape r1.2.2 = mkLeaf cfg bS sks sds := by rw [hmoved1.shape hplS, hshS]
    have hbS1 : BlocksBelow bc r1.2.2 := hmoved1.blocksBelow hbS
    have hk0 : getKey cfg r1.2.2 0 = getKey cfg (mkLeaf cfg bS sks sds) 0 := by
      rw [← hS1, getKey_shape]
    have hk1 : getKey cfg r1.2.2 1 = getKey cfg (mkLeaf cfg bS sks sds) 1 := by
      rw [← hS1, getKey_shape]
    have hX : shape (nodeInsert cfg (nodeAt cfg t.root (path.entry.take (count - 1)))
        (minFullIndex cfg (nodeAt cfg t.root (path.entry.take (count - 1)))) .leafOrLeftChild
        (getKey cfg r1.2.2 0) (r1.2.2.data.getD 0 .zero) (r1.2.2.children.getD 0 .empty)).1 =
        (nodeInsert cfg (mkLeaf cfg bN nks nds) (minFullIndex cfg (mkLeaf cfg bN nks nds))
          .leafOrLeftChild (getKey cfg (mkLeaf cfg bS sks sds) 0)
          ((mkLeaf cfg bS sks sds).data.getD 0 .zero)
          ((mkLeaf cfg bS sks sds).children.getD 0 .empty)).1 := by
      rw [shape_nodeInsert_from, hS1, hk0, ← hshN, minFullIndex_shape]
    have hY : shape (nodeShiftDown cfg r1.2.2 0 1 .leafOrLeftChild) =
        nodeShiftDown cfg (mkLeaf cfg bS sks sds) 0 1 .leafOrLeftChild := by
      rw [← shape_nodeShiftDown, hS1]
    have hbX := hbN.nodeInsert cfg (hbS1.children_getD 0)
      (minFullIndex cfg (nodeAt cfg t.root (path.entry.take (count - 1)))) .leafOrLeftChild
      (getKey cfg r1.2.2 0) (r1.2.2.data.getD 0 .zero)
    have hbY := hbS1.nodeShiftDown cfg 0 1 .leafOrLeftChild
    have hfitk : cfg.KeyFits (getKey cfg r1.2.2 1) := by
      rw [hk1, getKey_mkLeaf _ _ _ hSl.hcap]
      exact lt_of_le_of_lt (le_trans (hsS.hkeys.getD_le 1) hf2hi) hhi
    have hfX : ∀ q' : Path, q'.StepsAt count (path.indices (count - 2)) (0 + 1) →
        (setSibling q' count true).StepsAt count (path.indices (count - 2)) 0 :=
      fun q' h => by simpa using h.setSibling true
    have hfY : ∀ q' : Path, q'.StepsAt count (path.indices (count - 2)) (0 + 1) →
        (setSibling (setSibling q' count true) count false).StepsAt count
          (path.indices (count - 2)) 1 :=
      fun q' h => by simpa using (h.setSibling true).setSibling false
    refine Ok.ite (fun hhack => ?_) (fun hhack => ?_)
    · -- the node was left empty: its new first key, the sibling's first, is raised above it
      rw [hminF] at hhack
      simp only [decide_eq_true_eq] at hhack
      have hnil : nks = [] := List.eq_nil_of_length_eq_zero (by omega)
      have hdnil : nds = [] := List.eq_nil_of_length_eq_zero (by rw [hl.hlen, hnil]; rfl)
      subst hnil hdnil
      have hpos0 : 0 < ks[0] := hint.hkeys.pos _ (List.getElem_mem hks)
      have hsk0 : getKey cfg (mkLeaf cfg bS sks sds) 0 = ks[0] := by
        rw [getKey_mkLeaf _ _ _ hSl.hcap, List.getD_eq_getElem _ _ (by omega)]
        exact hsS.hfirst (by omega) _ (by simp [List.head?_eq_getElem?, List.getElem?_eq_getElem (show 0 < sks.length by omega)])
      have hcapL : 1 ≤ cfg.keyCountLeaf := by have := hSl.hcap; omega
      have hkey0 : getKey cfg (nodeInsert cfg (nodeAt cfg t.root (path.entry.take (count - 1)))
          (minFullIndex cfg (nodeAt cfg t.root (path.entry.take (count - 1)))) .leafOrLeftChild
          (getKey cfg r1.2.2 0) (r1.2.2.data.getD 0 .zero) (r1.2.2.children.getD 0 .empty)).1 0 =
          ks[0] := by
        rw [← getKey_shape, hX, show minFullIndex cfg (mkLeaf cfg bN [] []) = 0 from hhack,
          nodeInsert_mkLeaf bN [] [] 0 _ _ _ (le_refl _) (by simp; omega) rfl, getKey_mkLeaf _ _ _ (by simp; omega)]
        simp only [List.take_nil, List.drop_nil, List.nil_append, List.getD_cons_zero, hsk0]
        exact Config.keyBytes_of_fits (lt_of_le_of_lt (le_trans hf2 hf2hi) hhi)
      have hk0lo : bd.lo ≤ ks[0] := hlN.hkeys.lo_le_hi
      have hk0hi : ks[0] ≤ bd.hi := (hint.hkeys.mem_bounds (List.getElem_mem hks)).2
      rw [updateKey_of_index_zero ops r1.1 r1.2.1 _ _ hc hq1.2.2]
      have hA1 : Around cfg ⟨true, H, 0, hi⟩ (shape r1.2.1.root)
          ((setSibling (setSibling path count false) count true).entry.take (count - 2)) bd
          (mkInternal cfg b ks cs) := by
        rw [htake1, hroot1]
        exact hP
      refine Ok.bind (Ok.weaken (updateKey_around hal _ (count - 2) r1.1 r1.2.1 (by simp; omega)
        (by rw [hroot1]; exact hP.placed hint.hb) hA1
        (by rw [hkey0]; exact lt_of_le_of_lt (le_trans hf2 hf2hi) hhi) (by rw [hkey0]; exact hk0lo)
        (by rw [hkey0]; exact hk0hi)) (runs_congr hflags1).2) (fun r2 hr2 => ?_)
      obtain ⟨hflags2, hblocks2, hmap2, hent2, lo', hlo', hA2⟩ := hr2
      rw [hkey0] at hlo'
      have hlo'k : lo' ≤ ks[0] := by rcases hlo' with rfl | rfl <;> omega
      exact borrow_tail hal r2.1 _ (fun p => setSibling p count true)
        (fun p => setSibling (setSibling p count true) count false) hc
        (by simpa using (hq1.of_map hmap2).setSibling false)
        (by rw [setSibling_take_of_le _ _ _ le_rfl]; exact hA2)
        (hint.relo rfl (by rw [List.head_eq_getElem]; exact hlo'k)) (.inl rfl) (by omega) hfX hfY h0 h1
        (by rw [hX, hY])
        (by rw [hk1]; exact hpair lo' hlo'k (fun _ h => hlo'.resolve_right h) ⟨rfl, keysOk_nil hlo'k, by simp⟩)
        hfitk (hflags2.trans hflags1) (hblocks2 (by rw [hroot1]; exact hbr))
        (hent2.trans (by rw [hroot1])) hbX.1 hbY
    · -- the node keeps a key: its bounds stay
      have hne : nks ≠ [] := by
        rw [hminF] at hhack
        simp only [decide_eq_true_eq] at hhack
        intro hnil
        simp only [hnil, List.length_nil] at hnlen
        omega
      exact borrow_tail hal r1.1 _ (fun p => setSibling p count true)
        (fun p => setSibling (setSibling p count true) count false) hc
        (by simpa using hq1.setSibling false)
        (by rw [setSibling_take_of_le _ _ _ le_rfl, htake1, hroot1]; exact hP)
        hint (.inl rfl) (by omega) hfX hfY h0 h1 (by rw [hX, hY])
        (by rw [hk1]; exact hpair bd.lo hlN.hkeys.lo_le_hi (fun h => absurd h hne) hlN)
        hfitk hflags1 (by rw [hroot1]; exact hbr) (by rw [hroot1]) hbX.1 hbY
  | @internal bN nks ncs hn hbN0 hcapN hfillN hheightN =>
    -- the sibling is internal too
    obtain ⟨bS, sks, scs, rfl, hSi⟩ := hS.view_internal (by simpa only [Bounds.child] using hheightN)
    have hnN : Chain cfg ⟨false, bd.height - 1, bd.lo, ks[0]⟩ nks ncs := by
      have := hn
      simp only [Bounds.child, fence_zero, Nat.zero_add, hf1] at this
      exact this
    have hsS : Chain cfg ⟨false, bd.height - 1, ks[0], fence bd.lo bd.hi ks 2⟩ sks scs := by
      have := hSi.chain
      simp only [Bounds.child, hf1] at this
      exact this
    have hleaf : (nodeAt cfg t.root (path.entry.take (count - 1))).isLeaf = false := by
      rw [← isLeaf_shape, hshN]
      rfl
    have hH2 : 2 ≤ bd.height - 1 := by simpa [Bounds.child] using hheightN
    have hnlen : nks.length + 1 = cfg.minKeyCount false :=
      length_succ_of_belowMinFull_mkInternal hcapN hn.hkeys.pos (hfillN rfl) hbelow
    have hslen : cfg.minKeyCount false < sks.length :=
      hSi.minKeyCount_lt (by rwa [← aboveMinFull_shape, hshS] at habove)
    -- the separator the node takes is the one the path recorded
    have hnext : ((setSibling (setSibling path count false) count true).entry.getD (count - 2)
        default).nextKey = ks[0] := by
      rw [getD_setSibling (by simpa using hd), getD_setSibling hd]
      simp only [siblingEntry, Bool.false_eq_true, if_false, if_true]
      rw [he.2 (by rw [hidx0]; exact hks), hidx0, List.getD_eq_getElem _ _ hks]
    simp only [nodeBorrow, hidx0, hleaf, decide_true, Bool.not_true, Bool.and_true, if_true,
      Bool.true_or, Bool.false_eq_true, if_false, Nat.zero_add, Bool.not_false, Bool.and_false]
    refine Ok.bind (blockDirty_ok ops hal tr t (count - 1) _) (fun r1 hr1 => ?_)
    obtain ⟨⟨hroot1, hflags1⟩, hmoved1⟩ := hr1
    have hS1 : shape r1.2.2 = mkInternal cfg bS sks scs := by rw [hmoved1.shape hplS, hshS]
    have hbS1 : BlocksBelow bc r1.2.2 := hmoved1.blocksBelow hbS
    have hk0 : getKey cfg r1.2.2 0 = getKey cfg (mkInternal cfg bS sks scs) 0 := by
      rw [← hS1, getKey_shape]
    have hX : shape (nodeInsert cfg (nodeAt cfg t.root (path.entry.take (count - 1)))
        (minFullIndex cfg (nodeAt cfg t.root (path.entry.take (count - 1)))) .rightChild
        ((setSibling (setSibling path count false) count true).entry.getD (count - 2) default).nextKey
        (r1.2.2.data.getD 0 .zero) (r1.2.2.children.getD 0 .empty)).1 =
        (nodeInsert cfg (mkInternal cfg bN nks ncs) (minFullIndex cfg (mkInternal cfg bN nks ncs))
          .rightChild ks[0] ((mkInternal cfg bS sks scs).data.getD 0 .zero)
          ((mkInternal cfg bS sks scs).children.getD 0 .empty)).1 := by
      rw [shape_nodeInsert_from, hS1, hnext, ← hshN, minFullIndex_shape]
    have hY : shape (nodeShiftDown cfg r1.2.2 0 1 .leafOrLeftChild) =
        nodeShiftDown cfg (mkInternal cfg bS sks scs) 0 1 .leafOrLeftChild := by
      rw [← shape_nodeShiftDown, hS1]
    have hbX := hbN.nodeInsert cfg (hbS1.children_getD 0)
      (minFullIndex cfg (nodeAt cfg t.root (path.entry.take (count - 1)))) .rightChild
      ((setSibling (setSibling path count false) count true).entry.getD (count - 2) default).nextKey
      (r1.2.2.data.getD 0 .zero)
    have hbY := hbS1.nodeShiftDown cfg 0 1 .leafOrLeftChild
    have hfitk : cfg.KeyFits (getKey cfg r1.2.2 0) := by
      rw [hk0, getKey_mkInternal _ _ _ hSi.hcap]
      exact lt_of_le_of_lt (le_trans (hsS.hkeys.getD_le 0) hf2hi) hhi
    have hpair := borrowLeft_internal rfl rfl hnN hsS (hint.hkeys.pos _ (List.getElem_mem hks)) rfl hH2
      hbN0 hSi.hb hnlen hslen hSi.hcap (lt_of_le_of_lt hf2hi hhi) hidx
    have hE : (ncs ++ scs).flatMap entries = entries cs[0] ++ entries cs[1] := by
      rw [hc0, hc1', entries_mkInternal, entries_mkInternal, List.flatMap_append]
    rw [hE] at hpair
    exact borrow_tail hal r1.1 _ (fun p => setSibling p count true)
      (fun p => setSibling (setSibling p count true) count false) hc
      (by simpa using hq1.setSibling false)
      (by rw [setSibling_take_of_le _ _ _ le_rfl, htake1, hroot1]; exact hP)
      hint (.inl rfl) (by omega)
      (fun q' h => by simpa using h.setSibling true)
      (fun q' h => by simpa using (h.setSibling true).setSibling false) h0 h1 (by rw [hX, hY])
      (by rw [hk0]; exact hpair) hfitk hflags1 (by rw [hroot1]; exact hbr) (by rw [hroot1]) hbX.1 hbY

/-- The borrow of a child from its left sibling. -/
theorem nodeBorrow_right_ok (hal : ops.AllocIn bc) (hidx : cfg.IndexFits) {H hi : Nat}
    (hhi : hi < 2 ^ (8 * cfg.keySize)) (tr : τ) {t : Tree} {path : Path} {count : Nat} {bd : Bounds}
    {b : Nat} {ks : List Nat} {cs : List Node} {l : Nat}
    (hp : PairAt cfg bc H hi t path count bd b ks cs (l + 1) l)
    (habove : aboveMinFull cfg (getSiblingBlock cfg t path count) = true) :
    Ok (Runs ops t) (fun r => MergeDone cfg bc H hi t (entries t.root) r.2)
      (nodeBorrow ops cfg tr t path count (nodeAt cfg t.root (path.entry.take (count - 1)))
        (getSiblingBlock cfg t path count)) := by
  obtain ⟨hc, hlen, hbr, hP, hint, hidxl, he, hi1, hil, hN, hbelow, hS, hshN, hshS⟩ := hp
  have hd : count - 2 < path.entry.length := by omega
  have hcs := hint.hlen
  have hl : l < ks.length := by omega
  obtain ⟨hf1, hf2, hf2hi⟩ := hint.hkeys.separator_fences hl hP.bounds_le.2
  have hkhi : ks[l] ≤ hi := le_trans hf2 hf2hi
  -- the path goes to the sibling and back: the same steps
  have hq0 : path.StepsAt count (path.indices (count - 2)) (l + 1) := ⟨hd, rfl, hidxl⟩
  have hq1 : (setSibling (setSibling path count true) count false).StepsAt count
      (path.indices (count - 2)) (l + 1) := by
    simpa using (hq0.setSibling true).setSibling false
  have htake1 : (setSibling (setSibling path count true) count false).entry.take (count - 2) =
      path.entry.take (count - 2) := by
    rw [setSibling_take_of_le _ _ _ le_rfl, setSibling_take_of_le _ _ _ le_rfl]
  have hP1 : ∀ t' : Tree, t'.root = t.root → Around cfg ⟨true, H, 0, hi⟩ (shape t'.root)
      ((setSibling (setSibling path count true) count false).entry.take (count - 2)) bd
      (mkInternal cfg b ks cs) := fun t' ht' => by
    rw [htake1, ht']
    exact hP
  -- the blocks the code reads
  have hplS : (getSiblingBlock cfg t path count).Placed :=
    Node.placed_of_shape (by rw [hshS]; exact hS.block_ne_zero)
  have hbS : BlocksBelow bc (getSiblingBlock cfg t path count) := (hbr.nodeAt cfg _).children_getD _
  have hbN : BlocksBelow bc (nodeAt cfg t.root (path.entry.take (count - 1))) := hbr.nodeAt cfg _
  have hcl : cs[l] = cs.getD l .empty := (List.getD_eq_getElem _ _ hil).symm
  have hcl1 : cs[l + 1] = cs.getD (l + 1) .empty := (List.getD_eq_getElem _ _ hi1).symm
  have hAB : ∀ X Y : Node, (cs.set (l + 1) X).set l Y = (cs.set l Y).set (l + 1) X :=
    fun X Y => List.set_comm _ _ (by omega)
  generalize cs.getD (l + 1) .empty = N at hN hbelow hshN hcl1
  generalize cs.getD l .empty = S at hS hshS hcl
  cases hN with
  | @leaf bN nks nds hn hbN0 hcapN hfillN hheightN =>
    -- the sibling is a leaf too
    obtain ⟨bS, sks, sds, rfl, hSl⟩ := hS.view_leaf (by simpa only [Bounds.child] using hheightN)
    have hnN : LeafChain ks[l] (fence bd.lo bd.hi ks (l + 2)) nks nds := by
      have := hn
      simp only [Bounds.child, hf1] at this
      exact this
    have hsS : LeafChain (fence bd.lo bd.hi ks l) ks[l] sks sds := by
      have := hSl.leafChain
      simp only [Bounds.child, hf1] at this
      exact this
    have hleaf : (nodeAt cfg t.root (path.entry.take (count - 1))).isLeaf = true := by
      rw [← isLeaf_shape, hshN]
      rfl
    have hH1 : bd.height - 1 = 1 := by
      simp only [Bounds.child] at hheightN
      exact hheightN
    have hnlen : nks.length + 1 = cfg.minKeyCount true :=
      length_succ_of_belowMinFull_mkLeaf hcapN hn.hkeys.pos (hfillN rfl) hbelow
    have hslen : cfg.minKeyCount true < sks.length :=
      hSl.minKeyCount_lt (by rwa [← aboveMinFull_shape, hshS] at habove)
    simp only [nodeBorrow, hidxl, hleaf, Nat.add_one_ne_zero, decide_false, Bool.not_false,
      Bool.not_true, Bool.and_true, if_true, Bool.false_eq_true, if_false, Nat.add_zero,
      Bool.and_false, Bool.or_true]
    refine Ok.bind (blockDirty_ok ops hal tr t (count - 1) _) (fun r1 hr1 => ?_)
    obtain ⟨⟨hroot1, hflags1⟩, hmoved1⟩ := hr1
    have hS1 : shape r1.2.2 = mkLeaf cfg bS sks sds := by rw [hmoved1.shape hplS, hshS]
    have hbS1 : BlocksBelow bc r1.2.2 := hmoved1.blocksBelow hbS
    have hkc : getKeyCount cfg r1.2.2 = getKeyCount cfg (mkLeaf cfg bS sks sds) := by
      rw [← hS1, getKeyCount_shape]
    have hkl : getKey cfg r1.2.2 (getKeyCount cfg r1.2.2 - 1) =
        getKey cfg (mkLeaf cfg bS sks sds) (getKeyCount cfg (mkLeaf cfg bS sks sds) - 1) := by
      rw [← hS1, getKey_shape, getKeyCount_shape]
    have hX : shape (nodeInsert cfg (nodeAt cfg t.root (path.entry.take (count - 1))) 0
        .leafOrLeftChild (getKey cfg r1.2.2 (getKeyCount cfg r1.2.2 - 1))
        (r1.2.2.data.getD (getKeyCount cfg r1.2.2 - 1) .zero)
        (r1.2.2.children.getD (getKeyCount cfg r1.2.2 - 1) .empty)).1 =
        (nodeInsert cfg (mkLeaf cfg bN nks nds) 0 .leafOrLeftChild
          (getKey cfg (mkLeaf cfg bS sks sds) (getKeyCount cfg (mkLeaf cfg bS sks sds) - 1))
          ((mkLeaf cfg bS sks sds).data.getD (getKeyCount cfg (mkLeaf cfg bS sks sds) - 1) .zero)
          ((mkLeaf cfg bS sks sds).children.getD
            (getKeyCount cfg (mkLeaf cfg bS sks sds) - 1) .empty)).1 := by
      rw [shape_nodeInsert_from, hkl, hkc, hS1, hshN]
    have hY : shape (nodeShiftDown cfg r1.2.2 (getKeyCount cfg r1.2.2 - 1)
        (getKeyCount cfg r1.2.2 - 1 + 1) .leafOrLeftChild) =
        nodeShiftDown cfg (mkLeaf cfg bS sks sds) (getKeyCount cfg (mkLeaf cfg bS sks sds) - 1)
          (getKeyCount cfg (mkLeaf cfg bS sks sds) - 1 + 1) .leafOrLeftChild := by
      rw [← shape_nodeShiftDown, hS1, hkc]
    have hbX := hbN.nodeInsert cfg (hbS1.children_getD (getKeyCount cfg r1.2.2 - 1)) 0 .leafOrLeftChild
      (getKey cfg r1.2.2 (getKeyCount cfg r1.2.2 - 1)) (r1.2.2.data.getD (getKeyCount cfg r1.2.2 - 1) .zero)
    have hbY := hbS1.nodeShiftDown cfg (getKeyCount cfg r1.2.2 - 1) (getKeyCount cfg r1.2.2 - 1 + 1)
      .leafOrLeftChild
    have hfitk : cfg.KeyFits (getKey cfg r1.2.2 (getKeyCount cfg r1.2.2 - 1)) := by
      rw [hkl, getKey_mkLeaf _ _ _ hSl.hcap]
      exact lt_of_le_of_lt (le_trans (hsS.hkeys.getD_le _) hkhi) hhi
    have hpair := (borrowRight_leaf rfl rfl hsS hnN hbN0 hSl.hb hnlen hslen hSl.hcap
      (lt_of_le_of_lt hf2hi hhi)).of_height hH1.symm
    have hE : (sks ++ nks).zip (sds ++ nds) = entries cs[l] ++ entries cs[l + 1] := by
      rw [hcl, hcl1, entries_mkLeaf cfg _ _ _ hSl.hkeys.pos hSl.hlen,
        entries_mkLeaf cfg _ _ _ hn.hkeys.pos hn.hlen, List.zip_append (by rw [hSl.hlen])]
    rw [hE] at hpair
    exact borrow_tail hal r1.1 _ (fun p => p) (fun p => setSibling p count true) hc hq1
      (hP1 _ hroot1) hint (.inr rfl) hi1 (fun q' h => h)
      (fun q' h => by simpa using h.setSibling true) hi1 hil (by rw [hX, hY, hAB])
      (by rw [hkl]; exact hpair) hfitk hflags1 (by rw [hroot1]; exact hbr) (by rw [hroot1]) hbX.1 hbY
  | @internal bN nks ncs hn hbN0 hcapN hfillN hheightN =>
    -- the sibling is internal too
    obtain ⟨bS, sks, scs, rfl, hSi⟩ := hS.view_internal (by simpa only [Bounds.child] using hheightN)
    have hnN : Chain cfg ⟨false, bd.height - 1, ks[l], fence bd.lo bd.hi ks (l + 2)⟩ nks ncs := by
      have := hn
      simp only [Bounds.child, hf1] at this
      exact this
    have hsS : Chain cfg ⟨false, bd.height - 1, fence bd.lo bd.hi ks l, ks[l]⟩ sks scs := by
      have := hSi.chain
      simp only [Bounds.child, hf1] at this
      exact this
    have hleaf : (nodeAt cfg t.root (path.entry.take (count - 1))).isLeaf = false := by
      rw [← isLeaf_shape, hshN]
      rfl
    have hH2 : 2 ≤ bd.height - 1 := by simpa [Bounds.child] using hheightN
    have hnlen : nks.length + 1 = cfg.minKeyCount false :=
      length_succ_of_belowMinFull_mkInternal hcapN hn.hkeys.pos (hfillN rfl) hbelow
    have hslen : cfg.minKeyCount false < sks.length :=
      hSi.minKeyCount_lt (by rwa [← aboveMinFull_shape, hshS] at habove)
    -- the separator the node takes is the one the path recorded
    have hprev : ((setSibling (setSibling path count true) count false).entry.getD (count - 2)
        default).prevKey = ks[l] := by
      rw [getD_setSibling (by simpa using hd), getD_setSibling hd]
      simp only [siblingEntry, Bool.false_eq_true, if_false, if_true]
      rw [he.1 (by rw [hidxl]; omega), hidxl, Nat.add_sub_cancel, List.getD_eq_getElem _ _ hl]
    simp only [nodeBorrow, hidxl, hleaf, Nat.add_one_ne_zero, decide_false, Bool.not_false,
      Bool.and_true, if_true, Bool.false_eq_true, if_false, Bool.and_false, Bool.false_or,
      Bool.and_self]
    refine Ok.bind (blockDirty_ok ops hal tr t (count - 1) _) (fun r1 hr1 => ?_)
    obtain ⟨⟨hroot1, hflags1⟩, hmoved1⟩ := hr1
    have hS1 : shape r1.2.2 = mkInternal cfg bS sks scs := by rw [hmoved1.shape hplS, hshS]
    have hbS1 : BlocksBelow bc r1.2.2 := hmoved1.blocksBelow hbS
    have hkc : getKeyCount cfg r1.2.2 = getKeyCount cfg (mkInternal cfg bS sks scs) := by
      rw [← hS1, getKeyCount_shape]
    have hkl : getKey cfg r1.2.2 (getKeyCount cfg r1.2.2 - 1) =
        getKey cfg (mkInternal cfg bS sks scs) (getKeyCount cfg (mkInternal cfg bS sks scs) - 1) := by
      rw [← hS1, getKey_shape, getKeyCount_shape]
    have hX : shape (nodeInsert cfg (nodeAt cfg t.root (path.entry.take (count - 1))) 0
        .leafOrLeftChild
        ((setSibling (setSibling path count true) count false).entry.getD (count - 2) default).prevKey
        (r1.2.2.data.getD (getKeyCount cfg r1.2.2 - 1 + 1) .zero)
        (r1.2.2.children.getD (getKeyCount cfg r1.2.2 - 1 + 1) .empty)).1 =
        (nodeInsert cfg (mkInternal cfg bN nks ncs) 0 .leafOrLeftChild ks[l]
          ((mkInternal cfg bS sks scs).data.getD
            (getKeyCount cfg (mkInternal cfg bS sks scs) - 1 + 1) .zero)
          ((mkInternal cfg bS sks scs).children.getD
            (getKeyCount cfg (mkInternal cfg bS sks scs) - 1 + 1) .empty)).1 := by
      rw [shape_nodeInsert_from, hkc, hS1, hshN, hprev]
    have hY : shape (nodeShiftDown cfg r1.2.2 (getKeyCount cfg r1.2.2 - 1)
        (getKeyCount cfg r1.2.2 - 1 + 1) .rightChild) =
        nodeShiftDown cfg (mkInternal cfg bS sks scs) (getKeyCount cfg (mkInternal cfg bS sks scs) - 1)
          (getKeyCount cfg (mkInternal cfg bS sks scs) - 1 + 1) .rightChild := by
      rw [← shape_nodeShiftDown, hS1, hkc]
    have hbX := hbN.nodeInsert cfg (hbS1.children_getD (getKeyCount cfg r1.2.2 - 1 + 1)) 0
      .leafOrLeftChild
      ((setSibling (setSibling path count true) count false).entry.getD (count - 2) default).prevKey
      (r1.2.2.data.getD (getKeyCount cfg r1.2.2 - 1 + 1) .zero)
    have hbY := hbS1.nodeShiftDown cfg (getKeyCount cfg r1.2.2 - 1) (getKeyCount cfg r1.2.2 - 1 + 1)
      .rightChild
    have hfitk : cfg.KeyFits (getKey cfg r1.2.2 (getKeyCount cfg r1.2.2 - 1)) := by
      rw [hkl, getKey_mkInternal _ _ _ hSi.hcap]
      exact lt_of_le_of_lt (le_trans (hsS.hkeys.getD_le _) hkhi) hhi
    have hpair := borrowRight_internal rfl rfl hsS hnN (hint.hkeys.pos _ (List.getElem_mem hl)) rfl
      hH2 hbN0 hSi.hb hnlen hslen hSi.hcap (lt_of_le_of_lt hf2hi hhi) hidx
    have hE : (scs ++ ncs).flatMap entries = entries cs[l] ++ entries cs[l + 1] := by
      rw [hcl, hcl1, entries_mkInternal, entries_mkInternal, List.flatMap_append]
    rw [hE] at hpair
    exact borrow_tail hal r1.1 _ (fun p => p) (fun p => setSibling p count true) hc hq1
      (hP1 _ hroot1) hint (.inr rfl) hi1 (fun q' h => h)
      (fun q' h => by simpa using h.setSibling true) hi1 hil (by rw [hX, hY, hAB])
      (by rw [hkl]; exact hpair) hfitk hflags1 (by rw [hroot1]; exact hbr) (by rw [hroot1]) hbX.1 hbY

end Borrow

/-! ## Merging with a sibling -/

section Merge

variable {τ : Type} {ops : TrOps τ} {bc : Nat}

theorem BlocksBelow.children_mem {n : Node} (h : BlocksBelow bc n) :
    ∀ c ∈ n.children, BlocksBelow bc c := by
  cases n with
  | internal b ks cs =>
    rw [blocksBelow_internal] at h
    exact h.2
  | empty => simp [Node.children]
  | leaf => simp [Node.children]

variable (cfg) in
theorem BlocksBelow.nodeMergeEntries {n src : Node} (hn : BlocksBelow bc n) (hs : BlocksBelow bc src)
    (d c k : Nat) : BlocksBelow bc (BlockTree.nodeMergeEntries cfg n src d c k) := by
  unfold BlockTree.nodeMergeEntries
  split_ifs
  · exact (hn.nodeShift cfg _ _ _ _ _ _ hs.children_mem).1
  · exact ((hn.setKey cfg d k).nodeShift cfg _ _ _ _ _ _ hs.children_mem).1

/-- The parent after a merge and the removal of the right node of the pair
has the entries it had. -/
theorem entries_merged {b : Nat} {ks : List Nat} {cs : List Node} {l : Nat}
    (hl : l + 1 < cs.length) (hcap : ks.length ≤ cfg.keyCountInternal)
    (hlen : cs.length = ks.length + 1) (hidx : cfg.IndexFits) {M : Node}
    (hME : entries M = entries cs[l] ++ entries cs[l + 1]) :
    entries (nodeShiftDown cfg (mkInternal cfg b ks (cs.set l M)) l (l + 1) .rightChild) =
      entries (mkInternal cfg b ks cs) := by
  have hcs : cs = cs.take l ++ [cs[l], cs[l + 1]] ++ cs.drop (l + 2) := by
    rw [← set_set_succ cs l hl, List.set_getElem_self, List.set_getElem_self]
  rw [nodeShiftDown_mkInternal_right b ks (cs.set l M) l (l + 1) (by omega) (by omega) hcap
    (by simpa using hlen) hidx, entries_mkInternal, entries_mkInternal, take_succ_set cs l (by omega),
    drop_set_of_lt cs (by omega : l < l + 1 + 1)]
  conv => rhs; rw [hcs]
  simp only [List.flatMap_append, List.flatMap_cons, List.flatMap_nil, List.append_nil,
    List.append_assoc, hME]

/-- The end of a merge: the merged node is stored at the left one of the
pair, the parent loses the separator and the right one
(`block_tree_remove_internal`, here any `removeParent` that does what it is
to do), and the right node is freed.  The tree has the entries it had. -/
theorem merge_tail (hal : ops.AllocIn bc) (hidx : cfg.IndexFits) {H hi count : Nat}
    (removeParent : τ → Tree → Path → Option (τ × Tree))
    (hR : ∀ tr t path, RemoveReady cfg bc H hi t path (count - 1) →
      Ok (Runs ops t) (fun r => MergeDone cfg bc H hi t (entries (removedAt cfg t path (count - 1))) r.2)
        (removeParent tr t path))
    {t t2 : Tree} (tr2 : τ) (q : Path) {bd : Bounds} {b : Nat} {ks : List Nat} {cs : List Node}
    {pp : List Nat} {i l : Nat} (hc : 2 ≤ count) (hq : q.StepsAt count pp l)
    (hP : Around cfg ⟨true, H, 0, hi⟩ (shape t2.root) (q.entry.take (count - 2)) bd
      (mkInternal cfg b ks cs))
    (hint : InternalAround cfg bd b ks cs i) (hil : i = l ∨ i = l + 1) (hl : l + 1 < cs.length)
    {M : Node}
    (hM : Valid cfg ⟨false, bd.height - 1, fence bd.lo bd.hi ks l, fence bd.lo bd.hi ks (l + 2)⟩
      (shape M))
    (hME : entries M = entries cs[l] ++ entries cs[l + 1])
    (hflags2 : t2.flags = t.flags) (hbr2 : BlocksBelow bc t2.root)
    (hent2 : entries t2.root = entries t.root) (hbM : BlocksBelow bc M) (right : Node) :
    Ok (Runs ops t) (fun r => MergeDone cfg bc H hi t (entries t.root) r.2)
      (do
        let u ← pathPutDirty ops cfg tr2 t2 q (count - 1) M
        let v ← removeParent u.1 u.2 (setSibling q count false)
        let tr ← ops.free v.1 right.block (!v.2.allowCopyOnWrite)
        pure (tr, v.2)) := by
  have hc1 : count - 1 = count - 2 + 1 := by omega
  have hc2 : count - 1 - 1 = count - 2 := by omega
  have hcap := hint.hcap
  have hcs := hint.hlen
  refine Ok.bind (Ok.weaken (pathPutDirty_ok ops cfg hal q (count - 1) tr2 t2 M
    (by have := hq.1; omega) (hP.placed hint.hb)) (runs_congr hflags2).2) (fun r3 hr3 => ?_)
  obtain ⟨hflags3, hshape3, hblocks3⟩ := hr3
  have hflags3' : r3.2.flags = t.flags := hflags3.trans hflags2
  -- the merged node is in the parent's slot `l`
  have hroot3 : shape r3.2.root = putAt cfg (shape t2.root) (q.indices (count - 2))
      (mkInternal cfg b ks (cs.set l (shape M))) := by
    rw [hshape3, hc1, hq.indices_succ, ← hq.2.1, Path.indices, hP.putAt_snoc,
      setChild_mkInternal _ _ _ _ _ (by omega)]
  have hbP3 : (mkInternal cfg b ks (cs.set l (shape M))).block ≠ 0 := hint.hb
  have hq3 : (setSibling q count false).StepsAt count pp (l + 1) := by
    simpa using hq.setSibling false
  have htake3 : (setSibling q count false).entry.take (count - 2) = q.entry.take (count - 2) :=
    setSibling_take_of_le _ _ _ le_rfl
  have hP3 : Around cfg ⟨true, H, 0, hi⟩ (shape r3.2.root)
      ((setSibling q count false).entry.take (count - 2)) bd (mkInternal cfg b ks (cs.set l (shape M))) := by
    rw [htake3, hroot3]
    exact hP.put hbP3
  -- the parent, without the separator and the right node, is one entry short
  have hready : RemoveReady cfg bc H hi r3.2 (setSibling q count false) (count - 1) := by
    refine ⟨by omega, by have := hq3.1; omega, hblocks3 hbr2 hbM, bd, b, ks, cs.set l (shape M),
      by rw [hc2]; exact hP3, by rw [hc2, hq3.2.2]; omega, by rw [hc2, hq3.2.2]; omega, hcap,
      by simpa using hcs, hint.hkeys.pos, ?_⟩
    rw [hc2, hq3.2.2, Nat.add_sub_cancel]
    exact hint.merge hil hl hM hidx
  refine Ok.bind (Ok.weaken (hR r3.1 r3.2 _ hready) (runs_congr hflags3').2) (fun r4 hr4 => ?_)
  obtain ⟨hflags4, hblocks4, hH4, hent4⟩ := hr4
  have hflags4' : r4.2.flags = t.flags := hflags4.trans hflags3'
  refine Ok.bind (Ok.weaken (free_ok r4.2 r4.1 right.block _) (runs_congr hflags4').2)
    (fun _ _ => Ok.pure ⟨hflags4', hblocks4, hH4, ?_⟩)
  -- the entries: those of the parent, with the pair merged
  obtain ⟨pre, post, h0, hput⟩ := hP.entries_put
  have hat : nodeAt cfg (shape r3.2.root) ((setSibling q count false).entry.take (count - 2)) =
      mkInternal cfg b ks (cs.set l (shape M)) := by
    rw [nodeAt_eq_subtreeAt, hP3.subtreeAt_eq]
  rw [hent4, removedAt, hc2, hat, hq3.2.2, Nat.add_sub_cancel, Path.indices, htake3, hroot3,
    Path.indices, hP.putAt_putAt hbP3, hput, entries_merged hl hcap hcs hidx (by rw [entries_shape, hME]),
    ← h0, entries_shape, hent2]

/-- A merge of the leftmost child with its right sibling. -/
theorem nodeMergeInto_left_ok (hal : ops.AllocIn bc) (hidx : cfg.IndexFits) {H hi : Nat}
    (hhi : hi < 2 ^ (8 * cfg.keySize)) (removeParent : τ → Tree → Path → Option (τ × Tree))
    {count : Nat}
    (hR : ∀ tr t path, RemoveReady cfg bc H hi t path (count - 1) →
      Ok (Runs ops t) (fun r => MergeDone cfg bc H hi t (entries (removedAt cfg t path (count - 1))) r.2)
        (removeParent tr t path))
    (tr : τ) {t : Tree} {path : Path} {bd : Bounds} {b : Nat} {ks : List Nat} {cs : List Node}
    (hp : PairAt cfg bc H hi t path count bd b ks cs 0 1)
    (habove : aboveMinFull cfg (getSiblingBlock cfg t path count) = false) :
    Ok (Runs ops t) (fun r => MergeDone cfg bc H hi t (entries t.root) r.2)
      (nodeMergeInto ops cfg removeParent tr t path count
        (nodeAt cfg t.root (path.entry.take (count - 1))) (getSiblingBlock cfg t path count)) := by
  obtain ⟨hc, hlen, hbr, hP, hint, hidx0, he, h0, h1, hN, hbelow, hS, hshN, hshS⟩ := hp
  have hd : count - 2 < path.entry.length := by omega
  have hks : 0 < ks.length := List.length_pos_iff.mpr hint.hne
  have hcs := hint.hlen
  obtain ⟨hf1, hf2, hf2hi⟩ : fence bd.lo bd.hi ks 1 = ks[0] ∧ ks[0] ≤ fence bd.lo bd.hi ks 2 ∧
      fence bd.lo bd.hi ks 2 ≤ hi := hint.hkeys.separator_fences hks hP.bounds_le.2
  have hq0 : path.StepsAt count (path.indices (count - 2)) 0 := ⟨hd, rfl, hidx0⟩
  have hplN : (nodeAt cfg t.root (path.entry.take (count - 1))).Placed :=
    nodeAt_placed cfg (hP.placed hint.hb) _
  have hbS : BlocksBelow bc (getSiblingBlock cfg t path count) := (hbr.nodeAt cfg _).children_getD _
  have hbN : BlocksBelow bc (nodeAt cfg t.root (path.entry.take (count - 1))) := hbr.nodeAt cfg _
  have hc0 : cs[0] = cs.getD 0 .empty := (List.getD_eq_getElem _ _ h0).symm
  have hc1' : cs[1] = cs.getD 1 .empty := (List.getD_eq_getElem _ _ h1).symm
  generalize cs.getD 0 .empty = N at hN hbelow hshN hc0
  generalize cs.getD 1 .empty = S at hS hshS hc1'
  cases hN with
  | @leaf bN nks nds hl hbN0 hcapN hfillN hheightN =>
    obtain ⟨bS, sks, sds, rfl, hSl⟩ := hS.view_leaf (by simpa only [Bounds.child] using hheightN)
    have hlN : LeafChain bd.lo ks[0] nks nds := by
      have := hl
      simp only [Bounds.child, fence_zero, Nat.zero_add, hf1] at this
      exact this
    have hsS : LeafChain ks[0] (fence bd.lo bd.hi ks 2) sks sds := by
      have := hSl.leafChain
      simp only [Bounds.child, hf1] at this
      exact this
    have hleaf : (nodeAt cfg t.root (path.entry.take (count - 1))).isLeaf = true := by
      rw [← isLeaf_shape, hshN]
      rfl
    have hH1 : bd.height - 1 = 1 := by
      simp only [Bounds.child] at hheightN
      exact hheightN
    have hnlen : nks.length + 1 = cfg.minKeyCount true :=
      length_succ_of_belowMinFull_mkLeaf hcapN hl.hkeys.pos (hfillN rfl) hbelow
    have hslen : sks.length = cfg.minKeyCount true :=
      hSl.length_eq_minKeyCount rfl (by rwa [← aboveMinFull_shape, hshS] at habove)
    have hmin : cfg.minKeyCount true = cfg.keyCountLeaf / 2 := rfl
    have hpos0 : 0 < ks[0] := hint.hkeys.pos _ (List.getElem_mem hks)
    have hsk0 : ∀ x ∈ sks.head?, x = ks[0] := hsS.hfirst (by omega)
    -- the merged leaf, for the lower bound the node ends up with
    have hmerge : ∀ lo', (nks = [] → lo' ≠ 0 → lo' = ks[0]) → LeafChain lo' ks[0] nks nds →
        Valid cfg ⟨false, bd.height - 1, lo', fence bd.lo bd.hi ks 2⟩
          (nodeMergeEntries cfg (mkLeaf cfg bN nks nds) (mkLeaf cfg bS sks sds)
            (getKeyCount cfg (mkLeaf cfg bN nks nds)) (getKeyCount cfg (mkLeaf cfg bS sks sds)) 0) ∧
        entries (nodeMergeEntries cfg (mkLeaf cfg bN nks nds) (mkLeaf cfg bS sks sds)
            (getKeyCount cfg (mkLeaf cfg bN nks nds)) (getKeyCount cfg (mkLeaf cfg bS sks sds)) 0) =
          entries cs[0] ++ entries cs[1] := by
      intro lo' hfirst hn
      rw [hH1, hc0, hc1', entries_mkLeaf cfg _ _ _ hl.hkeys.pos hl.hlen,
        entries_mkLeaf cfg _ _ _ hSl.hkeys.pos hSl.hlen, ← List.zip_append (by rw [hl.hlen])]
      exact merge_leaf 0 rfl rfl hn hsS
        (fun hnil hlo x hx => by rw [hfirst hnil hlo]; exact hsk0 x hx) hbN0 (by omega) (by omega)
    simp only [nodeMergeInto, hidx0, hleaf, if_true, Bool.true_and]
    refine Ok.bind (blockDirty_ok ops hal tr t (count - 1) _) (fun r1 hr1 => ?_)
    obtain ⟨⟨hroot1, hflags1⟩, hmoved1⟩ := hr1
    have hN1 : shape r1.2.2 = mkLeaf cfg bN nks nds := by rw [hmoved1.shape hplN, hshN]
    have hbN1 : BlocksBelow bc r1.2.2 := hmoved1.blocksBelow hbN
    have hkc : getKeyCount cfg r1.2.2 = getKeyCount cfg (mkLeaf cfg bN nks nds) := by
      rw [← hN1, getKeyCount_shape]
    have hkcS : getKeyCount cfg (getSiblingBlock cfg t path count) =
        getKeyCount cfg (mkLeaf cfg bS sks sds) := by
      rw [← hshS, getKeyCount_shape]
    have hM : shape (nodeMergeEntries cfg r1.2.2 (getSiblingBlock cfg t path count)
        (getKeyCount cfg r1.2.2) (getKeyCount cfg (getSiblingBlock cfg t path count)) 0) =
        nodeMergeEntries cfg (mkLeaf cfg bN nks nds) (mkLeaf cfg bS sks sds)
          (getKeyCount cfg (mkLeaf cfg bN nks nds)) (getKeyCount cfg (mkLeaf cfg bS sks sds)) 0 := by
      rw [← shape_nodeMergeEntries, hN1, hshS, hkc, hkcS]
    have hbM := hbN1.nodeMergeEntries cfg hbS (getKeyCount cfg r1.2.2)
      (getKeyCount cfg (getSiblingBlock cfg t path count)) 0
    -- the merged leaf holds the keys of both
    have hmerged : nodeMergeEntries cfg (mkLeaf cfg bN nks nds) (mkLeaf cfg bS sks sds)
        (getKeyCount cfg (mkLeaf cfg bN nks nds)) (getKeyCount cfg (mkLeaf cfg bS sks sds)) 0 =
        mkLeaf cfg bN (nks ++ sks) (nds ++ sds) := by
      rw [getKeyCount_mkLeaf _ _ _ hcapN hl.hkeys.pos, getKeyCount_mkLeaf _ _ _ hSl.hcap hSl.hkeys.pos,
        nodeMergeEntries_mkLeaf _ _ _ _ _ _ _ (by omega) hl.hlen hSl.hlen]
    have hminM : minFullIndex cfg (nodeMergeEntries cfg r1.2.2 (getSiblingBlock cfg t path count)
        (getKeyCount cfg r1.2.2) (getKeyCount cfg (getSiblingBlock cfg t path count)) 0) =
        cfg.minKeyCount true - 1 := by
      rw [← minFullIndex_shape, hM, hmerged]
      rfl
    have hkc0 : getKeyCount cfg r1.2.2 = nks.length := by
      rw [hkc, getKeyCount_mkLeaf _ _ _ hcapN hl.hkeys.pos]
    have hME : ∀ lo', (nks = [] → lo' ≠ 0 → lo' = ks[0]) → LeafChain lo' ks[0] nks nds →
        entries (nodeMergeEntries cfg r1.2.2 (getSiblingBlock cfg t path count)
          (getKeyCount cfg r1.2.2) (getKeyCount cfg (getSiblingBlock cfg t path count)) 0) =
        entries cs[0] ++ entries cs[1] := fun lo' hfirst hn => by
      rw [← entries_shape, hM]
      exact (hmerge lo' hfirst hn).2
    refine Ok.ite (fun hhack => ?_) (fun hhack => ?_)
    · -- the node was empty: the merged leaf's first key, the sibling's, is raised above it
      rw [hminM, hkc0] at hhack
      simp only [Bool.and_eq_true, decide_eq_true_eq] at hhack
      have hnil : nks = [] := List.eq_nil_of_length_eq_zero hhack.2
      have hdnil : nds = [] := List.eq_nil_of_length_eq_zero (by rw [hl.hlen, hnil]; rfl)
      subst hnil hdnil
      have hkey0 : getKey cfg (nodeMergeEntries cfg r1.2.2 (getSiblingBlock cfg t path count)
          (getKeyCount cfg r1.2.2) (getKeyCount cfg (getSiblingBlock cfg t path count)) 0) 0 =
          ks[0] := by
        rw [← getKey_shape, hM, hmerged, getKey_mkLeaf _ _ _ (by simp; omega), List.nil_append,
          List.getD_eq_getElem _ _ (by omega)]
        exact hsk0 _ (by simp [List.head?_eq_getElem?, List.getElem?_eq_getElem (show 0 < sks.length by omega)])
      have hk0lo : bd.lo ≤ ks[0] := hlN.hkeys.lo_le_hi
      have hk0hi : ks[0] ≤ bd.hi := (hint.hkeys.mem_bounds (List.getElem_mem hks)).2
      rw [updateKey_of_index_zero ops r1.1 r1.2.1 _ _ hc hidx0]
      have hA1 : Around cfg ⟨true, H, 0, hi⟩ (shape r1.2.1.root) (path.entry.take (count - 2)) bd
          (mkInternal cfg b ks cs) := by
        rw [hroot1]
        exact hP
      refine Ok.bind (Ok.weaken (updateKey_around hal _ (count - 2) r1.1 r1.2.1 (by omega)
        (by rw [hroot1]; exact hP.placed hint.hb) hA1
        (by rw [hkey0]; exact lt_of_le_of_lt (le_trans hf2 hf2hi) hhi) (by rw [hkey0]; exact hk0lo)
        (by rw [hkey0]; exact hk0hi)) (runs_congr hflags1).2) (fun r2 hr2 => ?_)
      obtain ⟨hflags2, hblocks2, hmap2, hent2, lo', hlo', hA2⟩ := hr2
      rw [hkey0] at hlo'
      have hlo'k : lo' ≤ ks[0] := by rcases hlo' with rfl | rfl <;> omega
      have hfirst : [] = ([] : List Nat) → lo' ≠ 0 → lo' = ks[0] := fun _ h => hlo'.resolve_right h
      have hn : LeafChain lo' ks[0] [] [] := ⟨rfl, keysOk_nil hlo'k, by simp⟩
      exact merge_tail hal hidx removeParent hR r2.1 r2.2.2 hc (hq0.of_map hmap2) hA2
        (hint.relo rfl (by rw [List.head_eq_getElem]; exact hlo'k)) (.inl rfl) (by omega)
        (by rw [hM]; exact (hmerge lo' hfirst hn).1) (hME lo' hfirst hn) (hflags2.trans hflags1)
        (hblocks2 (by rw [hroot1]; exact hbr)) (hent2.trans (by rw [hroot1])) hbM _
    · -- the node kept a key: the bounds stay
      have hne : nks ≠ [] := by
        intro hnil
        apply hhack
        have h1 : cfg.minKeyCount true = 1 := by rw [← hnlen, hnil]; rfl
        rw [hminM, hkc0, hnil, h1]
        rfl
      exact merge_tail hal hidx removeParent hR r1.1 path hc hq0 (by rw [hroot1]; exact hP) hint
        (.inl rfl) (by omega) (by rw [hM]; exact (hmerge bd.lo (fun h => absurd h hne) hlN).1)
        (hME bd.lo (fun h => absurd h hne) hlN) hflags1 (by rw [hroot1]; exact hbr) (by rw [hroot1])
        hbM _
  | @internal bN nks ncs hn hbN0 hcapN hfillN hheightN =>
    obtain ⟨bS, sks, scs, rfl, hSi⟩ := hS.view_internal (by simpa only [Bounds.child] using hheightN)
    have hnN : Chain cfg ⟨false, bd.height - 1, bd.lo, ks[0]⟩ nks ncs := by
      have := hn
      simp only [Bounds.child, fence_zero, Nat.zero_add, hf1] at this
      exact this
    have hsS : Chain cfg ⟨false, bd.height - 1, ks[0], fence bd.lo bd.hi ks 2⟩ sks scs := by
      have := hSi.chain
      simp only [Bounds.child, hf1] at this
      exact this
    have hleaf : (nodeAt cfg t.root (path.entry.take (count - 1))).isLeaf = false := by
      rw [← isLeaf_shape, hshN]
      rfl
    have hH2 : 2 ≤ bd.height - 1 := by simpa [Bounds.child] using hheightN
    have hnlen : nks.length + 1 = cfg.minKeyCount false :=
      length_succ_of_belowMinFull_mkInternal hcapN hn.hkeys.pos (hfillN rfl) hbelow
    have hslen : sks.length = cfg.minKeyCount false :=
      hSi.length_eq_minKeyCount rfl (by rwa [← aboveMinFull_shape, hshS] at habove)
    have hmin : cfg.minKeyCount false = cfg.keyCountInternal / 2 := rfl
    have hnext : (path.entry.getD (count - 2) default).nextKey = ks[0] := by
      rw [he.2 (by rw [hidx0]; exact hks), hidx0, List.getD_eq_getElem _ _ hks]
    simp only [nodeMergeInto, hidx0, hleaf, if_true, Bool.false_and, Bool.false_eq_true, if_false]
    refine Ok.bind (blockDirty_ok ops hal tr t (count - 1) _) (fun r1 hr1 => ?_)
    obtain ⟨⟨hroot1, hflags1⟩, hmoved1⟩ := hr1
    have hN1 : shape r1.2.2 = mkInternal cfg bN nks ncs := by rw [hmoved1.shape hplN, hshN]
    have hbN1 : BlocksBelow bc r1.2.2 := hmoved1.blocksBelow hbN
    have hkc : getKeyCount cfg r1.2.2 = getKeyCount cfg (mkInternal cfg bN nks ncs) := by
      rw [← hN1, getKeyCount_shape]
    have hkcS : getKeyCount cfg (getSiblingBlock cfg t path count) =
        getKeyCount cfg (mkInternal cfg bS sks scs) := by
      rw [← hshS, getKeyCount_shape]
    have hM : shape (nodeMergeEntries cfg r1.2.2 (getSiblingBlock cfg t path count)
        (getKeyCount cfg r1.2.2) (getKeyCount cfg (getSiblingBlock cfg t path count))
        (path.entry.getD (count - 2) default).nextKey) =
        nodeMergeEntries cfg (mkInternal cfg bN nks ncs) (mkInternal cfg bS sks scs)
          (getKeyCount cfg (mkInternal cfg bN nks ncs)) (getKeyCount cfg (mkInternal cfg bS sks scs))
          (path.entry.getD (count - 2) default).nextKey := by
      rw [← shape_nodeMergeEntries, hN1, hshS, hkc, hkcS]
    have hbM := hbN1.nodeMergeEntries cfg hbS (getKeyCount cfg r1.2.2)
      (getKeyCount cfg (getSiblingBlock cfg t path count)) (path.entry.getD (count - 2) default).nextKey
    have hmerge := merge_internal (R := mkInternal cfg bS sks scs) rfl rfl hnN hsS
      (hint.hkeys.pos _ (List.getElem_mem hks)) hnext hH2
      hbN0 (by omega) (by omega) (lt_of_le_of_lt hf2hi hhi)
    have hE : (ncs ++ scs).flatMap entries = entries cs[0] ++ entries cs[1] := by
      rw [hc0, hc1', entries_mkInternal, entries_mkInternal, List.flatMap_append]
    rw [hE] at hmerge
    exact merge_tail hal hidx removeParent hR r1.1 path hc hq0 (by rw [hroot1]; exact hP) hint
      (.inl rfl) (by omega) (by rw [hM]; exact hmerge.1) (by rw [← entries_shape, hM]; exact hmerge.2)
      hflags1 (by rw [hroot1]; exact hbr) (by rw [hroot1]) hbM _

/-- A merge of a child with its left sibling. -/
theorem nodeMergeInto_right_ok (hal : ops.AllocIn bc) (hidx : cfg.IndexFits) {H hi : Nat}
    (hhi : hi < 2 ^ (8 * cfg.keySize)) (removeParent : τ → Tree → Path → Option (τ × Tree))
    {count : Nat}
    (hR : ∀ tr t path, RemoveReady cfg bc H hi t path (count - 1) →
      Ok (Runs ops t) (fun r => MergeDone cfg bc H hi t (entries (removedAt cfg t path (count - 1))) r.2)
        (removeParent tr t path))
    (tr : τ) {t : Tree} {path : Path} {bd : Bounds} {b : Nat} {ks : List Nat} {cs : List Node}
    {l : Nat} (hp : PairAt cfg bc H hi t path count bd b ks cs (l + 1) l)
    (habove : aboveMinFull cfg (getSiblingBlock cfg t path count) = false) :
    Ok (Runs ops t) (fun r => MergeDone cfg bc H hi t (entries t.root) r.2)
      (nodeMergeInto ops cfg removeParent tr t path count
        (nodeAt cfg t.root (path.entry.take (count - 1))) (getSiblingBlock cfg t path count)) := by
  obtain ⟨hc, hlen, hbr, hP, hint, hidxl, he, hi1, hil, hN, hbelow, hS, hshN, hshS⟩ := hp
  have hd : count - 2 < path.entry.length := by omega
  have hcs := hint.hlen
  have hl : l < ks.length := by omega
  obtain ⟨hf1, hf2, hf2hi⟩ := hint.hkeys.separator_fences hl hP.bounds_le.2
  -- the path moves to the left one of the pair
  have hq0 : path.StepsAt count (path.indices (count - 2)) (l + 1) := ⟨hd, rfl, hidxl⟩
  have hqL : (setSibling path count true).StepsAt count (path.indices (count - 2)) l := by
    simpa using hq0.setSibling true
  have hPL : ∀ t' : Tree, t'.root = t.root → Around cfg ⟨true, H, 0, hi⟩ (shape t'.root)
      ((setSibling path count true).entry.take (count - 2)) bd (mkInternal cfg b ks cs) :=
    fun t' ht' => by
      rw [setSibling_take_of_le _ _ _ le_rfl, ht']
      exact hP
  have hplS : (getSiblingBlock cfg t path count).Placed :=
    Node.placed_of_shape (by rw [hshS]; exact hS.block_ne_zero)
  have hbS : BlocksBelow bc (getSiblingBlock cfg t path count) := (hbr.nodeAt cfg _).children_getD _
  have hbN : BlocksBelow bc (nodeAt cfg t.root (path.entry.take (count - 1))) := hbr.nodeAt cfg _
  have hcl : cs[l] = cs.getD l .empty := (List.getD_eq_getElem _ _ hil).symm
  have hcl1 : cs[l + 1] = cs.getD (l + 1) .empty := (List.getD_eq_getElem _ _ hi1).symm
  generalize cs.getD (l + 1) .empty = N at hN hbelow hshN hcl1
  generalize cs.getD l .empty = S at hS hshS hcl
  cases hN with
  | @leaf bN nks nds hn hbN0 hcapN hfillN hheightN =>
    obtain ⟨bS, sks, sds, rfl, hSl⟩ := hS.view_leaf (by simpa only [Bounds.child] using hheightN)
    have hnN : LeafChain ks[l] (fence bd.lo bd.hi ks (l + 2)) nks nds := by
      have := hn
      simp only [Bounds.child, hf1] at this
      exact this
    have hsS : LeafChain (fence bd.lo bd.hi ks l) ks[l] sks sds := by
      have := hSl.leafChain
      simp only [Bounds.child, hf1] at this
      exact this
    have hleaf : (nodeAt cfg t.root (path.entry.take (count - 1))).isLeaf = true := by
      rw [← isLeaf_shape, hshN]
      rfl
    have hH1 : bd.height - 1 = 1 := by
      simp only [Bounds.child] at hheightN
      exact hheightN
    have hnlen : nks.length + 1 = cfg.minKeyCount true :=
      length_succ_of_belowMinFull_mkLeaf hcapN hn.hkeys.pos (hfillN rfl) hbelow
    have hslen : sks.length = cfg.minKeyCount true :=
      hSl.length_eq_minKeyCount rfl (by rwa [← aboveMinFull_shape, hshS] at habove)
    have hmin : cfg.minKeyCount true = cfg.keyCountLeaf / 2 := rfl
    have hmin1 := cfg.one_le_minKeyCount true
    simp only [nodeMergeInto, hidxl, hleaf, Nat.add_one_ne_zero, if_false, if_true, Bool.true_and]
    refine Ok.bind (blockDirty_ok ops hal tr t (count - 1) _) (fun r1 hr1 => ?_)
    obtain ⟨⟨hroot1, hflags1⟩, hmoved1⟩ := hr1
    have hS1 : shape r1.2.2 = mkLeaf cfg bS sks sds := by rw [hmoved1.shape hplS, hshS]
    have hbS1 : BlocksBelow bc r1.2.2 := hmoved1.blocksBelow hbS
    have hkc : getKeyCount cfg r1.2.2 = sks.length := by
      rw [← getKeyCount_shape, hS1, getKeyCount_mkLeaf _ _ _ hSl.hcap hSl.hkeys.pos]
    have hkcN : getKeyCount cfg (nodeAt cfg t.root (path.entry.take (count - 1))) =
        getKeyCount cfg (mkLeaf cfg bN nks nds) := by
      rw [← hshN, getKeyCount_shape]
    have hM : shape (nodeMergeEntries cfg r1.2.2 (nodeAt cfg t.root (path.entry.take (count - 1)))
        (getKeyCount cfg r1.2.2) (getKeyCount cfg (nodeAt cfg t.root (path.entry.take (count - 1)))) 0) =
        nodeMergeEntries cfg (mkLeaf cfg bS sks sds) (mkLeaf cfg bN nks nds)
          (getKeyCount cfg (mkLeaf cfg bS sks sds)) (getKeyCount cfg (mkLeaf cfg bN nks nds)) 0 := by
      rw [← shape_nodeMergeEntries, hS1, hshN, hkcN, ← hS1, getKeyCount_shape]
    have hbM := hbS1.nodeMergeEntries cfg hbN (getKeyCount cfg r1.2.2)
      (getKeyCount cfg (nodeAt cfg t.root (path.entry.take (count - 1)))) 0
    have hmerge : Valid cfg ⟨false, bd.height - 1, fence bd.lo bd.hi ks l, fence bd.lo bd.hi ks (l + 2)⟩
        (nodeMergeEntries cfg (mkLeaf cfg bS sks sds) (mkLeaf cfg bN nks nds)
          (getKeyCount cfg (mkLeaf cfg bS sks sds)) (getKeyCount cfg (mkLeaf cfg bN nks nds)) 0) ∧
        entries (nodeMergeEntries cfg (mkLeaf cfg bS sks sds) (mkLeaf cfg bN nks nds)
          (getKeyCount cfg (mkLeaf cfg bS sks sds)) (getKeyCount cfg (mkLeaf cfg bN nks nds)) 0) =
          entries cs[l] ++ entries cs[l + 1] := by
      rw [hH1, hcl, hcl1, entries_mkLeaf cfg _ _ _ hSl.hkeys.pos hSl.hlen,
        entries_mkLeaf cfg _ _ _ hn.hkeys.pos hn.hlen, ← List.zip_append (by rw [hSl.hlen])]
      exact merge_leaf 0 rfl rfl hsS hnN (fun hnil => absurd hnil (by
        intro h; rw [h] at hslen; simp at hslen; omega)) hSl.hb (by omega) (by omega)
    -- the left one of the pair is the sibling, which has keys: no separator to raise
    refine Ok.ite (fun hhack => ?_) (fun _ => ?_)
    · exfalso
      rw [hkc] at hhack
      simp only [Bool.and_eq_true, decide_eq_true_eq] at hhack
      omega
    · exact merge_tail hal hidx removeParent hR r1.1 _ hc hqL (hPL _ hroot1) hint (.inr rfl) hi1
        (by rw [hM]; exact hmerge.1) (by rw [← entries_shape, hM]; exact hmerge.2) hflags1
        (by rw [hroot1]; exact hbr) (by rw [hroot1]) hbM _
  | @internal bN nks ncs hn hbN0 hcapN hfillN hheightN =>
    obtain ⟨bS, sks, scs, rfl, hSi⟩ := hS.view_internal (by simpa only [Bounds.child] using hheightN)
    have hnN : Chain cfg ⟨false, bd.height - 1, ks[l], fence bd.lo bd.hi ks (l + 2)⟩ nks ncs := by
      have := hn
      simp only [Bounds.child, hf1] at this
      exact this
    have hsS : Chain cfg ⟨false, bd.height - 1, fence bd.lo bd.hi ks l, ks[l]⟩ sks scs := by
      have := hSi.chain
      simp only [Bounds.child, hf1] at this
      exact this
    have hleaf : (nodeAt cfg t.root (path.entry.take (count - 1))).isLeaf = false := by
      rw [← isLeaf_shape, hshN]
      rfl
    have hH2 : 2 ≤ bd.height - 1 := by simpa [Bounds.child] using hheightN
    have hnlen : nks.length + 1 = cfg.minKeyCount false :=
      length_succ_of_belowMinFull_mkInternal hcapN hn.hkeys.pos (hfillN rfl) hbelow
    have hslen : sks.length = cfg.minKeyCount false :=
      hSi.length_eq_minKeyCount rfl (by rwa [← aboveMinFull_shape, hshS] at habove)
    have hmin : cfg.minKeyCount false = cfg.keyCountInternal / 2 := rfl
    -- the separator between the pair is the previous key of the node's entry
    have hnext : ((setSibling path count true).entry.getD (count - 2) default).nextKey = ks[l] := by
      rw [getD_setSibling hd]
      simp only [siblingEntry, if_true]
      rw [he.1 (by rw [hidxl]; omega), hidxl, Nat.add_sub_cancel, List.getD_eq_getElem _ _ hl]
    simp only [nodeMergeInto, hidxl, hleaf, Nat.add_one_ne_zero, if_false, Bool.false_and,
      Bool.false_eq_true]
    refine Ok.bind (blockDirty_ok ops hal tr t (count - 1) _) (fun r1 hr1 => ?_)
    obtain ⟨⟨hroot1, hflags1⟩, hmoved1⟩ := hr1
    have hS1 : shape r1.2.2 = mkInternal cfg bS sks scs := by rw [hmoved1.shape hplS, hshS]
    have hbS1 : BlocksBelow bc r1.2.2 := hmoved1.blocksBelow hbS
    have hkcN : getKeyCount cfg (nodeAt cfg t.root (path.entry.take (count - 1))) =
        getKeyCount cfg (mkInternal cfg bN nks ncs) := by
      rw [← hshN, getKeyCount_shape]
    have hM : shape (nodeMergeEntries cfg r1.2.2 (nodeAt cfg t.root (path.entry.take (count - 1)))
        (getKeyCount cfg r1.2.2) (getKeyCount cfg (nodeAt cfg t.root (path.entry.take (count - 1))))
        ((setSibling path count true).entry.getD (count - 2) default).nextKey) =
        nodeMergeEntries cfg (mkInternal cfg bS sks scs) (mkInternal cfg bN nks ncs)
          (getKeyCount cfg (mkInternal cfg bS sks scs)) (getKeyCount cfg (mkInternal cfg bN nks ncs))
          ((setSibling path count true).entry.getD (count - 2) default).nextKey := by
      rw [← shape_nodeMergeEntries, hS1, hshN, hkcN, ← hS1, getKeyCount_shape]
    have hbM := hbS1.nodeMergeEntries cfg hbN (getKeyCount cfg r1.2.2)
      (getKeyCount cfg (nodeAt cfg t.root (path.entry.take (count - 1))))
      ((setSibling path count true).entry.getD (count - 2) default).nextKey
    have hmerge := merge_internal (R := mkInternal cfg bN nks ncs) rfl rfl hsS hnN
      (hint.hkeys.pos _ (List.getElem_mem hl)) hnext hH2
      hSi.hb (by omega) (by omega) (lt_of_le_of_lt hf2hi hhi)
    have hE : (scs ++ ncs).flatMap entries = entries cs[l] ++ entries cs[l + 1] := by
      rw [hcl, hcl1, entries_mkInternal, entries_mkInternal, List.flatMap_append]
    rw [hE] at hmerge
    exact merge_tail hal hidx removeParent hR r1.1 _ hc hqL (hPL _ hroot1) hint (.inr rfl) hi1
      (by rw [hM]; exact hmerge.1) (by rw [← entries_shape, hM]; exact hmerge.2) hflags1
      (by rw [hroot1]; exact hbr) (by rw [hroot1]) hbM _

/-- A child below the minimum fill borrows from its sibling or is merged with
it: the tree keeps its entries and is valid again, one level lower at most
when the cascade reaches the root.  The sibling is on the right of the first
child and on the left of every other one. -/
theorem nodeMerge_ok (hal : ops.AllocIn bc) (hidx : cfg.IndexFits) {H hi : Nat}
    (hhi : hi < 2 ^ (8 * cfg.keySize)) (removeParent : τ → Tree → Path → Option (τ × Tree))
    {count : Nat}
    (hR : ∀ tr t path, RemoveReady cfg bc H hi t path (count - 1) →
      Ok (Runs ops t) (fun r => MergeDone cfg bc H hi t (entries (removedAt cfg t path (count - 1))) r.2)
        (removeParent tr t path))
    (tr : τ) {t : Tree} {path : Path} (h : MergeReady cfg bc H hi t path count) :
    Ok (Runs ops t) (fun r => MergeDone cfg bc H hi t (entries t.root) r.2)
      (nodeMerge ops cfg removeParent tr t path count) := by
  obtain ⟨bd, b, ks, cs, hp⟩ := h.pairAt
  have hc : ¬ count ≤ 1 := by have := hp.hc; omega
  simp only [nodeMerge, hc, if_false]
  generalize (path.entry.getD (count - 2) default).index = i at hp
  cases i with
  | zero =>
    cases habove : aboveMinFull cfg (getSiblingBlock cfg t path count)
    · exact nodeMergeInto_left_ok hal hidx hhi removeParent hR tr hp habove
    · exact nodeBorrow_left_ok hal hidx hhi tr hp habove
  | succ l =>
    cases habove : aboveMinFull cfg (getSiblingBlock cfg t path count)
    · exact nodeMergeInto_right_ok hal hidx hhi removeParent hR tr hp habove
    · exact nodeBorrow_right_ok hal hidx hhi tr hp habove

end Merge

/-! ## The cascade up the tree -/

section Cascade

variable {τ : Type} {ops : TrOps τ} {bc : Nat}

/-- What the removal at step `m` leaves, with the node at that step known. -/
theorem removedAt_succ {H hi : Nat} {t : Tree} {path : Path} {m : Nat} {bd : Bounds} {b : Nat}
    {ks : List Nat} {cs : List Node}
    (hA : Around cfg ⟨true, H, 0, hi⟩ (shape t.root) (path.entry.take m) bd (mkInternal cfg b ks cs)) :
    removedAt cfg t path (m + 1) = putAt cfg (shape t.root) (path.indices m)
      (nodeShiftDown cfg (mkInternal cfg b ks cs) ((path.entry.getD m default).index - 1)
        (path.entry.getD m default).index .rightChild) := by
  rw [removedAt, Nat.add_sub_cancel, nodeAt_eq_subtreeAt, hA.subtreeAt_eq]

/-- The keys left when separator `i - 1` is shifted out: one fewer, all
still positive. -/
theorem keys_shiftOut_sep {ks : List Nat} {i : Nat} (hi0 : 0 < i) (hle : i ≤ ks.length)
    (hkpos : ∀ k ∈ ks, 0 < k) :
    (ks.take (i - 1) ++ ks.drop i).length = ks.length - 1 ∧ ∀ k ∈ ks.take (i - 1) ++ ks.drop i, 0 < k := by
  have he : ks.take (i - 1) ++ ks.drop i = ks.eraseIdx (i - 1) := by
    rw [List.eraseIdx_eq_take_drop_succ, Nat.sub_add_cancel hi0]
  rw [he, List.length_eraseIdx_of_lt (by omega)]
  exact ⟨rfl, fun k hk => hkpos k ((List.eraseIdx_sublist ks _).subset hk)⟩

/-- The separator before child `i` shifted out with that child leaves a first
key when the node had two. -/
theorem getKey_nodeShiftDown_sep (hidx : cfg.IndexFits) {b : Nat} {ks : List Nat} {cs : List Node}
    {i : Nat} (hi0 : 0 < i) (hle : i ≤ ks.length) (hcap : ks.length ≤ cfg.keyCountInternal)
    (hcs : cs.length = ks.length + 1) (hkpos : ∀ k ∈ ks, 0 < k) (h2 : 2 ≤ ks.length) :
    getKey cfg (nodeShiftDown cfg (mkInternal cfg b ks cs) (i - 1) i .rightChild) 0 ≠ 0 := by
  obtain ⟨hlen, hmem⟩ := keys_shiftOut_sep hi0 hle hkpos
  rw [nodeShiftDown_mkInternal_right b ks cs _ _ (Nat.sub_le _ 1) hle hcap hcs hidx,
    getKey_mkInternal _ _ _ (by omega), List.getD_eq_getElem _ _ (by omega)]
  exact Nat.pos_iff_ne_zero.mp (hmem _ (List.getElem_mem _))

/-- The separator before child `i` shifted out with that child: the node is
short when one key fewer is below the minimum. -/
theorem belowMinFull_nodeShiftDown_sep (hidx : cfg.IndexFits) {b : Nat} {ks : List Nat}
    {cs : List Node} {i : Nat} (hi0 : 0 < i) (hle : i ≤ ks.length)
    (hcap : ks.length ≤ cfg.keyCountInternal) (hcs : cs.length = ks.length + 1)
    (hkpos : ∀ k ∈ ks, 0 < k) :
    belowMinFull cfg (nodeShiftDown cfg (mkInternal cfg b ks cs) (i - 1) i .rightChild) =
      decide (ks.length - 1 < cfg.minKeyCount false) := by
  obtain ⟨hlen, hmem⟩ := keys_shiftOut_sep hi0 hle hkpos
  rw [nodeShiftDown_mkInternal_right b ks cs _ _ (Nat.sub_le _ 1) hle hcap hcs hidx,
    belowMinFull_mkInternal _ _ _ (by omega) hmem, hlen]

/-- The root left with one child by the removal of its only separator: that
child, one level lower, is valid at the top and holds the root's entries. -/
theorem root_collapse (hidx : cfg.IndexFits) {H hi : Nat} {root : Node} {b : Nat} {ks : List Nat}
    {cs : List Node} {i : Nat} (hroot : shape root = mkInternal cfg b ks cs) (hi0 : 0 < i)
    (hle : i ≤ ks.length) (hcap : ks.length ≤ cfg.keyCountInternal) (hcs : cs.length = ks.length + 1)
    (hkpos : ∀ k ∈ ks, 0 < k)
    (hw : Weak cfg ⟨true, H, 0, hi⟩ (nodeShiftDown cfg (mkInternal cfg b ks cs) (i - 1) i .rightChild))
    (hk1 : getKey cfg root 1 = 0) :
    Valid cfg ⟨true, H - 1, 0, hi⟩ (shape (root.children.getD 0 .empty)) ∧
      entries (root.children.getD 0 .empty) =
        entries (nodeShiftDown cfg (mkInternal cfg b ks cs) (i - 1) i .rightChild) := by
  rw [← getKey_shape, hroot, getKey_mkInternal _ _ _ hcap] at hk1
  -- a second key would be positive: the root had one key, and loses it
  have hks : ks.length = 1 := by
    by_contra hne
    rw [List.getD_eq_getElem _ _ (by omega)] at hk1
    exact absurd hk1 (Nat.pos_iff_ne_zero.mp (hkpos _ (List.getElem_mem _)))
  obtain ⟨k, rfl⟩ := List.length_eq_one_iff.mp hks
  obtain ⟨c0, c1, rfl⟩ := List.length_eq_two.mp hcs
  obtain rfl : i = 1 := by simp only [List.length_singleton] at hle; omega
  have hN : nodeShiftDown cfg (mkInternal cfg b [k] [c0, c1]) (1 - 1) 1 .rightChild =
      mkInternal cfg b [] [c0] :=
    nodeShiftDown_mkInternal_right b [k] [c0, c1] 0 1 (by omega) hle hcap hcs hidx
  rw [hN] at hw ⊢
  have hc := hw.collapse rfl (by rw [getKey_mkInternal _ _ _ (Nat.zero_le _)]; rfl)
  have hch : shape (root.children.getD 0 .empty) = (mkInternal cfg b [] [c0]).children.getD 0 .empty := by
    rw [shape_children_getD, hroot]
    simp only [mkInternal, Node.children, Slots.getD_pad, List.getD_cons_zero]
  refine ⟨?_, ?_⟩
  · rw [hch]
    exact hc.1.to_root
  · rw [← entries_shape, hch, hc.2]

/-- One step of the cascade up: the separator before the child at step `m`,
and that child, are shifted out of their node, which is merged in turn if
that leaves it short; a root left without keys gives way to its one child.
Given what the step above does, the tree is valid again with the entries of
`removedAt`. -/
theorem removeInternal_succ_ok (hal : ops.AllocIn bc) (hidx : cfg.IndexFits) {H hi : Nat}
    (hhi : hi < 2 ^ (8 * cfg.keySize)) (m : Nat)
    (ih : ∀ tr t path, RemoveReady cfg bc H hi t path m →
      Ok (Runs ops t) (fun r => MergeDone cfg bc H hi t (entries (removedAt cfg t path m)) r.2)
        (removeInternal ops cfg tr t path m))
    (tr : τ) (t : Tree) (path : Path) (h : RemoveReady cfg bc H hi t path (m + 1)) :
    Ok (Runs ops t) (fun r => MergeDone cfg bc H hi t (entries (removedAt cfg t path (m + 1))) r.2)
      (removeInternal ops cfg tr t path (m + 1)) := by
  obtain ⟨-, hlen, hbr, bd, b, ks, cs, hA, hpos, hle, hcap, hcs, hkpos, hw⟩ := h
  simp only [Nat.add_sub_cancel] at hA hpos hle hw
  have hb : b ≠ 0 := by
    have := hw.block_ne_zero
    rwa [nodeShiftDown_mkInternal_right b ks cs _ _ (Nat.sub_le _ 1) hle hcap hcs hidx] at this
  simp only [removeInternal]
  refine Ok.ite (fun hcol => ?_) (fun hnot => ?_)
  · -- the root is left with one child, which becomes the root
    obtain ⟨rfl, hk1⟩ := hcol
    obtain ⟨rfl, hroot⟩ := hA.eq_of_nil
    have hc := root_collapse hidx hroot.symm hpos hle hcap hcs hkpos hw hk1
    refine Ok.ite (fun hcow => Ok.bind (P := fun _ => False) (Ok.none (not_runs_of_cow hcow))
      (fun _ h => h.elim)) (fun _ => ?_)
    refine Ok.bind (free_ok t tr _ _) (fun r _ => Ok.pure ?_)
    exact mergeDone_of_shape (R := shape (t.root.children.getD 0 .empty)) rfl (hbr.children_getD 0) rfl
      ⟨Nat.sub_le H 1, by omega⟩ hc.1
      (by rw [entries_shape, hc.2, removedAt_succ hA]; rfl)
  · -- the separator and its right child shifted out of the node
    have hplaced : t.root.Placed := hA.placed hb
    have hnode : shape (nodeAt cfg t.root (path.entry.take m)) = mkInternal cfg b ks cs := by
      rw [← nodeAt_shape, nodeAt_eq_subtreeAt, hA.subtreeAt_eq]
    refine Ok.bind (blockDirty_ok ops hal tr t m _) (fun r1 hr1 => ?_)
    obtain ⟨⟨hroot1, hflags1⟩, hmoved1⟩ := hr1
    have hN1 : shape (nodeShiftDown cfg r1.2.2 ((path.entry.getD m default).index - 1)
        (path.entry.getD m default).index .rightChild) =
        nodeShiftDown cfg (mkInternal cfg b ks cs) ((path.entry.getD m default).index - 1)
          (path.entry.getD m default).index .rightChild := by
      rw [← shape_nodeShiftDown, hmoved1.shape (nodeAt_placed cfg hplaced _), hnode]
    refine Ok.bind (Ok.weaken (pathPutDirty_ok ops cfg hal path m r1.1 r1.2.1 _ (by omega)
      (by rw [hroot1]; exact hplaced)) (runs_congr hflags1).2) (fun r2 hr2 => ?_)
    obtain ⟨hflags2, hshape2, hblocks2⟩ := hr2
    have hflags2' : r2.2.flags = t.flags := hflags2.trans hflags1
    have hroot2 : shape r2.2.root = removedAt cfg t path (m + 1) := by
      rw [hshape2, hroot1, hN1, removedAt_succ hA]
    have hbr2 : BlocksBelow bc r2.2.root := hblocks2 (by rw [hroot1]; exact hbr)
      ((hmoved1.blocksBelow (hbr.nodeAt cfg _)).nodeShiftDown cfg _ _ _)
    have hA2 := hA.put hw.block_ne_zero
    rw [← Path.indices, ← removedAt_succ hA, ← hroot2] at hA2
    refine Ok.ite (fun hmerge => ?_) (fun hmerge => ?_)
    · -- the node fell below the minimum: merge it with a sibling
      rw [← belowMinFull_shape, hN1, Bool.and_eq_true, decide_eq_true_eq] at hmerge
      have hready : MergeReady cfg bc H hi r2.2 path (m + 1) :=
        MergeReady.of_around (by omega) (by omega) hbr2 hA2 hw hmerge.2
      refine Ok.weaken (Ok.mono (nodeMerge_ok hal hidx hhi _ ih r2.1 hready) ?_) (runs_congr hflags2').2
      intro r hr
      obtain ⟨hf, hb', hH, hE⟩ := hr
      exact ⟨hf.trans hflags2', hb', hH, by rw [hE, ← entries_shape, hroot2]⟩
    · -- the root, or full enough: valid as it is
      refine Ok.pure (mergeDone_of_shape hflags2' hbr2 hroot2 ⟨le_rfl, by omega⟩ ?_ rfl)
      rw [removedAt_succ hA]
      rw [← belowMinFull_shape, hN1, Bool.and_eq_true, decide_eq_true_eq] at hmerge
      refine (hA.put hw.block_ne_zero).valid (hw.valid (fun hr => ?_) (fun _ => ?_))
      · -- below the root the merge test read the node's fill
        have hm : 0 < m := by
          have hroot := hA.root_eq
          rw [hr] at hroot
          by_contra h0
          rw [Nat.le_zero.mp (not_lt.mp h0)] at hroot
          simp at hroot
        simpa [hm] using hmerge
      · -- a key is left: the root had two, or the node was not short
        refine getKey_nodeShiftDown_sep hidx hpos hle hcap hcs hkpos ?_
        by_cases hm : m = 0
        · subst hm
          have hk1 : getKey cfg (nodeAt cfg t.root (path.entry.take 0)) 1 ≠ 0 := fun h => hnot ⟨rfl, h⟩
          rw [← getKey_shape, hnode, getKey_mkInternal _ _ _ hcap] at hk1
          by_contra h2
          exact hk1 (List.getD_eq_default _ _ (by omega))
        · rw [belowMinFull_nodeShiftDown_sep hidx hpos hle hcap hcs hkpos] at hmerge
          have := cfg.one_le_minKeyCount false
          simp only [Nat.pos_iff_ne_zero.mpr hm, true_and, decide_eq_true_eq] at hmerge
          omega

/-- The whole cascade: `block_tree_remove_internal` at any step of a path
leaves a valid tree, as high as before or one level lower, with the entries
of `removedAt`.  By induction on the step: each step's merge calls the step
above it. -/
theorem removeInternal_ok (hal : ops.AllocIn bc) (hidx : cfg.IndexFits) {H hi : Nat}
    (hhi : hi < 2 ^ (8 * cfg.keySize)) (m : Nat) (tr : τ) (t : Tree) (path : Path)
    (h : RemoveReady cfg bc H hi t path m) :
    Ok (Runs ops t) (fun r => MergeDone cfg bc H hi t (entries (removedAt cfg t path m)) r.2)
      (removeInternal ops cfg tr t path m) := by
  induction m generalizing tr t path with
  | zero => exact absurd h.1 (by omega)
  | succ m ih => exact removeInternal_succ_ok hal hidx hhi m ih tr t path h

end Cascade

end BlockTree
