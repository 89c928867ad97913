import Trusty.BlockTree.WalkSpec

/-!
# Searching the tree: `block_tree_walk` and `block_tree_path_next`

A search sees the tree as the list of its entries, `entries root`, in key
order.  A `Spot` is a subtree as a walk from the root reaches it: its place,
the keys `block_tree_walk` has inherited on the way down, and the entries of
the tree to its left and to its right.  `PathTo s es t` says that the path
entries `es` lead from the spot `s` down to the spot `t`; `PathIn s es A x B`
that they end at a slot of a leaf, with `A` the entries before the slot, `x`
the entry at it (`none` at the empty insert slot after a leaf's last key)
and `B` the entries after it.

* `walk_least`: `block_tree_walk` with `key_is_max` clear ends at a slot
  whose key (`block_tree_path_get_key`) is the least key at or above the
  search key, `0` if there is none.
* `walk_greatest`: with `key_is_max`, the greatest key at or below it, else
  the least key.
* `pathNext_entry`: from a slot that holds an entry, `block_tree_path_next`
  moves to the slot after it: the next entry in key order, or the empty
  slot at the end of the last leaf.
* `pathNext_slot`: from an empty insert slot that is not the last one, it
  moves to the entry right after the slot, whose key the path reported
  already.
-/

namespace BlockTree

variable (cfg : Config)

/-! ## Spots -/

/-- A subtree as a walk from the root reaches it: its place `bd`, the node,
the keys inherited from above (`prev`, `next`), and the entries of the tree
left and right of it. -/
structure Spot where
  bd : Bounds
  node : Node
  prev : Nat
  next : Nat
  left : List (Nat × BlockMac)
  right : List (Nat × BlockMac)

/-- The whole tree, from its root at `bd`. -/
def Spot.top (bd : Bounds) (root : Node) : Spot := ⟨bd, root, 0, 0, [], []⟩

/-- Child `j` of the internal node at `s` with keys `ks` and children `cs`,
with the keys `block_tree_walk` records for that step. -/
def Spot.down (s : Spot) (ks : List Nat) (cs : List Node) (j : Nat) : Spot :=
  ⟨s.bd.child ks j, cs.getD j .empty, (stepEntry ks j s.prev s.next).prevKey,
    (stepEntry ks j s.prev s.next).nextKey, s.left ++ (cs.take j).flatMap entries,
    (cs.drop (j + 1)).flatMap entries ++ s.right⟩

/-- What holds at every spot of a valid tree: the subtree is valid, the
entries on its left are at most `lo`, those on its right positive and at
least `hi`, and `next` is the first key on its right (`0` at the right
edge of the tree). -/
structure Spot.Ok (s : Spot) : Prop where
  valid : Valid cfg s.bd s.node
  left_le : ∀ e ∈ s.left, e.1 ≤ s.bd.lo
  left_lo : s.left ≠ [] → 0 < s.bd.lo
  right_ge : ∀ e ∈ s.right, 0 < e.1 ∧ s.bd.hi ≤ e.1 ∧ s.next ≤ e.1
  next_eq : s.next = (s.right.head?.map Prod.fst).getD 0
  top : s.bd.root = true → s.left = [] ∧ s.right = []

section Spots

variable {cfg}

@[simp] theorem Spot.down_node (s : Spot) (ks : List Nat) (cs : List Node) (j : Nat) :
    (s.down ks cs j).node = cs.getD j .empty := rfl

@[simp] theorem Spot.down_bd (s : Spot) (ks : List Nat) (cs : List Node) (j : Nat) :
    (s.down ks cs j).bd = s.bd.child ks j := rfl

@[simp] theorem Spot.down_left (s : Spot) (ks : List Nat) (cs : List Node) (j : Nat) :
    (s.down ks cs j).left = s.left ++ (cs.take j).flatMap entries := rfl

@[simp] theorem Spot.down_right (s : Spot) (ks : List Nat) (cs : List Node) (j : Nat) :
    (s.down ks cs j).right = (cs.drop (j + 1)).flatMap entries ++ s.right := rfl

@[simp] theorem Spot.down_prev (s : Spot) (ks : List Nat) (cs : List Node) (j : Nat) :
    (s.down ks cs j).prev = (stepEntry ks j s.prev s.next).prevKey := rfl

@[simp] theorem Spot.down_next (s : Spot) (ks : List Nat) (cs : List Node) (j : Nat) :
    (s.down ks cs j).next = (stepEntry ks j s.prev s.next).nextKey := rfl

theorem Spot.Ok.top_ok {bd : Bounds} {root : Node} (hv : Valid cfg bd root) :
    (Spot.top bd root).Ok cfg :=
  ⟨hv, by simp [Spot.top], by simp [Spot.top], by simp [Spot.top], rfl, fun _ => ⟨rfl, rfl⟩⟩

/-! ### The children of an internal node -/

variable {bd : Bounds} {b : Nat} {ks : List Nat} {cs : List Node}

/-- The entries of the children left of child `j` are at most fence `j`. -/
theorem InternalOk.le_of_mem_take (h : InternalOk cfg bd b ks cs) {j : Nat}
    (hj : j < cs.length) {e : Nat × BlockMac} (he : e ∈ (cs.take j).flatMap entries) :
    e.1 ≤ fence bd.lo bd.hi ks j := by
  obtain ⟨c, hc, he⟩ := List.mem_flatMap.mp he
  obtain ⟨i, hi, rfl⟩ := List.getElem_of_mem hc
  rw [List.length_take] at hi
  have hbound := ((h.hchild i (by omega)).entries_bounds e (by simpa using he)).2.2
  have hmono := h.hkeys.fence_mono (by omega : i + 1 ≤ j) (by have := h.hlen; omega)
  simp only [Bounds.child] at hbound
  omega

/-- The entries of the children right of child `j` are positive and at least
fence `j + 1`, and there are such children only left of the last one. -/
theorem InternalOk.ge_of_mem_drop (h : InternalOk cfg bd b ks cs) {j : Nat}
    {e : Nat × BlockMac} (he : e ∈ (cs.drop (j + 1)).flatMap entries) :
    0 < e.1 ∧ fence bd.lo bd.hi ks (j + 1) ≤ e.1 ∧ j < ks.length := by
  obtain ⟨c, hc, he⟩ := List.mem_flatMap.mp he
  obtain ⟨i, hi, rfl⟩ := List.getElem_of_mem hc
  rw [List.length_drop] at hi
  rw [List.getElem_drop] at he
  have hbound := (h.hchild (j + 1 + i) (by omega)).entries_bounds e he
  have hmono := h.hkeys.fence_mono (by omega : j + 1 ≤ j + 1 + i) (by have := h.hlen; omega)
  simp only [Bounds.child] at hbound
  have := h.hlen
  exact ⟨hbound.1, by omega, by omega⟩

/-- Right of child `j < ks.length` the tree goes on with the separator
`ks[j]`: the leftmost entry of child `j + 1` holds it. -/
theorem InternalOk.head_drop (h : InternalOk cfg bd b ks cs) {j : Nat} (hj : j < ks.length)
    (R : List (Nat × BlockMac)) :
    (((cs.drop (j + 1)).flatMap entries ++ R).head?.map Prod.fst).getD 0 = ks[j] := by
  have hj1 : j + 1 < cs.length := by have := h.hlen; omega
  have hv := h.hchild (j + 1) hj1
  have hlo : (bd.child ks (j + 1)).lo = ks[j] := fence_succ j hj
  have hpos := h.hkeys.pos _ (List.getElem_mem hj)
  obtain ⟨e, es, hes⟩ := List.exists_cons_of_ne_nil (hv.entries_ne_nil rfl)
  have hhead := hv.entries_head (by omega) e (by simp [hes])
  rw [List.drop_eq_getElem_cons hj1, List.flatMap_cons, hes]
  simp only [List.cons_append, List.head?_cons, Option.map_some, Option.getD_some]
  omega

/-- The one step of `Spot.down` keeps `Spot.Ok`. -/
theorem Spot.Ok.down {s : Spot} (hs : s.Ok cfg) (h : InternalOk cfg s.bd b ks cs) {j : Nat} (hj : j < cs.length) :
    (s.down ks cs j).Ok cfg := by
  have hlen := h.hlen
  have h0j := h.hkeys.fence_mono (Nat.zero_le j) (by omega)
  have hjl := h.hkeys.fence_mono (by omega : j + 1 ≤ ks.length + 1) le_rfl
  rw [fence_zero] at h0j
  rw [fence_length] at hjl
  refine ⟨?_, ?_, ?_, ?_, ?_, ?_⟩
  · rw [Spot.down_node, List.getD_eq_getElem _ _ hj]
    exact h.hchild j hj
  · intro e he
    simp only [Spot.down_left, List.mem_append] at he
    simp only [Spot.down_bd, Bounds.child]
    rcases he with he | he
    · have := hs.left_le e he
      omega
    · exact h.le_of_mem_take hj he
  · intro hne
    simp only [Spot.down_bd, Bounds.child]
    by_cases hl : s.left = []
    · -- only the children before `j` lie to the left: `j > 0`, fence `j` is a key
      have hj0 : j ≠ 0 := by
        rintro rfl
        simp [hl] at hne
      have hk : j - 1 < ks.length := by omega
      have hf : fence s.bd.lo s.bd.hi ks j = ks[j - 1] := by
        have := @fence_succ s.bd.lo s.bd.hi ks (j - 1) hk
        rwa [Nat.sub_add_cancel (by omega)] at this
      rw [hf]
      exact h.hkeys.pos _ (List.getElem_mem hk)
    · have := hs.left_lo hl
      omega
  · intro e he
    simp only [Spot.down_right, List.mem_append] at he
    simp only [Spot.down_bd, Bounds.child, Spot.down_next, stepEntry]
    rcases he with he | he
    · obtain ⟨hpos, hge, hjk⟩ := h.ge_of_mem_drop he
      refine ⟨hpos, hge, ?_⟩
      rw [fence_succ j hjk] at hge
      rw [List.getD_eq_getElem _ _ hjk]
      exact hge
    · obtain ⟨hpos, hhi, hnext⟩ := hs.right_ge e he
      refine ⟨hpos, by omega, ?_⟩
      rcases Nat.lt_or_ge j ks.length with hjk | hjk
      · rw [List.getD_eq_getElem _ _ hjk]
        have := (h.hkeys.mem_bounds (List.getElem_mem hjk)).2
        omega
      · rw [List.getD_eq_getElem?_getD, List.getElem?_eq_none hjk, Option.getD_none]
        exact hnext
  · simp only [Spot.down_right, Spot.down_next, stepEntry]
    rcases Nat.lt_or_ge j ks.length with hjk | hjk
    · rw [List.getD_eq_getElem _ _ hjk, h.head_drop hjk]
    · -- the last child: nothing more to its right in this node
      have hdrop : cs.drop (j + 1) = [] := List.drop_eq_nil_of_le (by omega)
      rw [List.getD_eq_getElem?_getD, List.getElem?_eq_none hjk, Option.getD_none, hdrop,
        List.flatMap_nil, List.nil_append]
      exact hs.next_eq
  · intro hroot
    simp [Bounds.child] at hroot

end Spots

/-! ## Paths between spots -/

/-- `es` leads from the spot `s` down to the spot `t` through internal nodes,
each step recorded as `block_tree_walk` records it. -/
inductive PathTo (s : Spot) : List PathEntry → Spot → Prop
  | here : PathTo s [] s
  | down {es : List PathEntry} {t : Spot} {b : Nat} {ks : List Nat} {cs : List Node} (j : Nat)
      (hp : PathTo s es t) (hn : t.node = mkInternal cfg b ks cs)
      (h : InternalOk cfg t.bd b ks cs) (hj : j < cs.length) :
      PathTo s (es ++ [stepEntry ks j t.prev t.next]) (t.down ks cs j)

section PathTo

variable {cfg}

/-- The node a path of child indices reaches, one step further. -/
theorem nodeAt_append_singleton (n : Node) (es : List PathEntry) (e : PathEntry) :
    nodeAt cfg n (es ++ [e]) = getChild cfg (nodeAt cfg n es) e.index := by
  induction es generalizing n with
  | nil => rfl
  | cons e' es ih => exact ih _

theorem PathTo.ok {s t : Spot} {es : List PathEntry} (h : PathTo cfg s es t) (hs : s.Ok cfg) :
    t.Ok cfg := by
  induction h with
  | here => exact hs
  | down j _ _ hi hj ih => exact ih.down hi hj

/-- The path reads the node of the spot it reaches (`nodeAt`). -/
theorem PathTo.nodeAt_eq {s t : Spot} {es : List PathEntry} (h : PathTo cfg s es t) :
    nodeAt cfg s.node es = t.node := by
  induction h with
  | here => rfl
  | down j hp hn hi hj ih =>
    rw [nodeAt_append_singleton, ih, hn, stepEntry, hi.getChild j hj, Spot.down_node,
      List.getD_eq_getElem _ _ hj]

/-- The entries of a node are those of the children before child `j`, of
child `j`, and of those after it. -/
theorem flatMap_entries_split (cs : List Node) {j : Nat} (hj : j < cs.length) :
    cs.flatMap entries =
      (cs.take j).flatMap entries ++ entries cs[j] ++ (cs.drop (j + 1)).flatMap entries := by
  conv_lhs => rw [← List.take_append_drop j cs, List.drop_eq_getElem_cons hj]
  simp only [List.flatMap_append, List.flatMap_cons, List.append_assoc]

/-- Each step splits the node's entries into those of the child and those on
either side of it. -/
theorem PathTo.entries_eq {s t : Spot} {es : List PathEntry} (h : PathTo cfg s es t) :
    s.left ++ entries s.node ++ s.right = t.left ++ entries t.node ++ t.right := by
  induction h with
  | here => rfl
  | @down es t b ks cs j hp hn hi hj ih =>
    rw [ih, hn, entries_mkInternal, flatMap_entries_split cs hj, Spot.down_left, Spot.down_node,
      Spot.down_right, List.getD_eq_getElem _ _ hj]
    simp only [List.append_assoc]

/-- Each step goes one level down. -/
theorem PathTo.height_eq {s t : Spot} {es : List PathEntry} (h : PathTo cfg s es t) :
    t.bd.height + es.length = s.bd.height := by
  induction h with
  | here => simp
  | down j hp hn hi hj ih =>
    have := hi.hheight
    simp only [Spot.down_bd, Bounds.child, List.length_append, List.length_singleton]
    omega

/-- The key inherited at the end of a path is the `next_key` of its last entry. -/
theorem PathTo.next_eq {s t : Spot} {es : List PathEntry} (h : PathTo cfg s es t) :
    t.next = (es.getLast?.map PathEntry.nextKey).getD s.next := by
  cases h with
  | here => rfl
  | down j hp hn hi hj => simp

theorem PathTo.append {s t u : Spot} {es fs : List PathEntry} (h : PathTo cfg s es t)
    (h' : PathTo cfg t fs u) : PathTo cfg s (es ++ fs) u := by
  induction h' with
  | here => simpa using h
  | down j _ hn hi hj ih =>
    rw [← List.append_assoc]
    exact .down j ih hn hi hj

/-- One step from `s`. -/
theorem PathTo.single {s : Spot} {b : Nat} {ks : List Nat} {cs : List Node} (j : Nat)
    (hn : s.node = mkInternal cfg b ks cs) (h : InternalOk cfg s.bd b ks cs) (hj : j < cs.length) :
    PathTo cfg s [stepEntry ks j s.prev s.next] (s.down ks cs j) := by
  simpa using PathTo.down j .here hn h hj

theorem PathTo.nil_inv {s t : Spot} (h : PathTo cfg s [] t) : t = s := by
  generalize hq : ([] : List PathEntry) = q at h
  cases h with
  | here => rfl
  | down j hp hn hi hj => simp at hq

/-- The last step of a path. -/
theorem PathTo.snoc_inv {s u : Spot} {es : List PathEntry} {e : PathEntry}
    (h : PathTo cfg s (es ++ [e]) u) :
    ∃ t b ks cs j, PathTo cfg s es t ∧ t.node = mkInternal cfg b ks cs ∧
      InternalOk cfg t.bd b ks cs ∧ j < cs.length ∧ e = stepEntry ks j t.prev t.next ∧
      u = t.down ks cs j := by
  generalize hq : es ++ [e] = q at h
  cases h with
  | here => simp at hq
  | down j hp hn hi hj =>
    obtain ⟨rfl, he⟩ := List.append_inj' hq rfl
    rw [List.singleton_inj] at he
    subst he
    exact ⟨_, _, _, _, j, hp, hn, hi, hj, rfl, rfl⟩

end PathTo

/-! ## Slots of a leaf -/

/-- A stored `block_mac` as `block_tree_node_get_data` hands it out: empty
when it names no block. -/
def BlockMac.read (d : BlockMac) : BlockMac := if d.block = 0 then .zero else d

/-- `es` leads from `s` to slot `i` of a leaf: `A` are the entries of the
tree before the slot, `x` the entry at it (`none` at the empty insert slot
after the leaf's last key), `B` those after it. -/
def PathIn (s : Spot) (es : List PathEntry) (A : List (Nat × BlockMac))
    (x : Option (Nat × BlockMac)) (B : List (Nat × BlockMac)) : Prop :=
  ∃ pre t b ks ds i, PathTo cfg s pre t ∧ t.node = mkLeaf cfg b ks ds ∧
    LeafOk cfg t.bd b ks ds ∧ i ≤ ks.length ∧ es = pre ++ [stepEntry ks i t.prev t.next] ∧
    A = t.left ++ (ks.zip ds).take i ∧ x = (ks.zip ds)[i]? ∧
    B = (ks.zip ds).drop (i + 1) ++ t.right

section Slots

variable {cfg}

theorem getData_mkLeaf (b : Nat) (ks : List Nat) (ds : List BlockMac)
    (hcap : ds.length ≤ cfg.keyCountLeaf) (i : Nat) :
    getData cfg (mkLeaf cfg b ks ds) i = (ds.getD i .zero).read := by
  by_cases h1 : i < cfg.keyCountLeaf
  · simp only [getData, mkLeaf, Node.isLeaf, Config.keyCount, Node.data, if_true, h1,
      Slots.getD_pad, BlockMac.read]
  · -- past the slots: no data, as past the used ones
    have hd : ds.getD i .zero = .zero := by
      rw [List.getD_eq_getElem?_getD, List.getElem?_eq_none (by omega), Option.getD_none]
    simp only [getData, mkLeaf, Node.isLeaf, Config.keyCount, if_true, h1, if_false]
    rw [hd, BlockMac.read, ite_self]

/-- The key of a path is the one after its last index. -/
@[simp] theorem getKey_stepEntry (pre : List PathEntry) (ks : List Nat) (i prev next : Nat)
    (data : BlockMac) :
    Path.getKey ⟨pre ++ [stepEntry ks i prev next], data⟩ = ks.getD i next := by
  simp [Path.getKey, stepEntry]

/-- Cutting a list around position `i`. -/
theorem take_append_getElem?_append_drop {α : Type} (l : List α) (i : Nat) :
    l.take i ++ l[i]?.toList ++ l.drop (i + 1) = l := by
  rcases Nat.lt_or_ge i l.length with h | h
  · rw [List.getElem?_eq_getElem h, Option.toList_some, List.append_assoc, List.singleton_append,
      ← List.drop_eq_getElem_cons h, List.take_append_drop]
  · rw [List.getElem?_eq_none h, List.take_of_length_le h, List.drop_of_length_le (by omega)]
    simp

theorem getElem?_toList_append_drop {α : Type} (l : List α) (i : Nat) :
    l[i]?.toList ++ l.drop (i + 1) = l.drop i := by
  rcases Nat.lt_or_ge i l.length with h | h
  · rw [List.getElem?_eq_getElem h, Option.toList_some, List.singleton_append,
      ← List.drop_eq_getElem_cons h]
  · rw [List.getElem?_eq_none h, List.drop_of_length_le h, List.drop_of_length_le (by omega)]
    rfl

/-- The slot cuts the entries of the tree into those before, at and after it. -/
theorem PathIn.entries_eq {s : Spot} {es : List PathEntry} {A B : List (Nat × BlockMac)}
    {x : Option (Nat × BlockMac)} (h : PathIn cfg s es A x B) :
    A ++ x.toList ++ B = s.left ++ entries s.node ++ s.right := by
  obtain ⟨pre, t, b, ks, ds, i, hp, hn, hl, -, -, rfl, rfl, rfl⟩ := h
  rw [hp.entries_eq, hn, entries_mkLeaf cfg b ks ds hl.hkeys.pos hl.hlen]
  conv_rhs => rw [← take_append_getElem?_append_drop (ks.zip ds) i]
  simp only [List.append_assoc]

/-- The key `block_tree_path_get_key` reads at a slot: that of the entry at
it, or of the first entry after it, `0` past the last entry. -/
theorem PathIn.getKey_eq {s : Spot} (hs : s.Ok cfg) {es : List PathEntry}
    {A B : List (Nat × BlockMac)} {x : Option (Nat × BlockMac)} (h : PathIn cfg s es A x B)
    (data : BlockMac) :
    Path.getKey ⟨es, data⟩ = ((x.toList ++ B).head?.map Prod.fst).getD 0 := by
  obtain ⟨pre, t, b, ks, ds, i, hp, hn, hl, hi, rfl, rfl, rfl, rfl⟩ := h
  have ht := hp.ok hs
  rw [← List.append_assoc, getElem?_toList_append_drop]
  simp only [Path.getKey, List.getLast?_append, List.getLast?_singleton, Option.some_or,
    Option.map_some, Option.getD_some, stepEntry]
  rcases Nat.lt_or_ge i ks.length with hlt | hge
  · -- a used slot: its own key
    have hz : i < (ks.zip ds).length := by simp [hl.hlen, hlt]
    rw [List.getD_eq_getElem _ _ hlt, List.drop_eq_getElem_cons hz]
    simp
  · -- the empty slot: the key inherited from the right
    have hz : (ks.zip ds).length ≤ i := by simp [hl.hlen, hge]
    rw [List.getD_eq_getElem?_getD, List.getElem?_eq_none hge, Option.getD_none,
      List.drop_of_length_le hz, List.nil_append]
    exact ht.next_eq

end Slots

/-! ## What a walk finds -/

/-- What `block_tree_walk` without `key_is_max` should report for `key` in a
tree with the keys `ks`: the least key at or above `key`, `0` if there is
none. -/
def WalkGe (ks : List Nat) (key r : Nat) : Prop :=
  IsLeast {k | k ∈ ks ∧ key ≤ k} r ∨ (r = 0 ∧ ∀ k ∈ ks, k < key)

/-- What `block_tree_walk` with `key_is_max` should report: the greatest key
at or below `key`; if there is none, the least key (`0` in an empty tree). -/
def WalkLe (ks : List Nat) (key r : Nat) : Prop :=
  IsGreatest {k | k ∈ ks ∧ k ≤ key} r ∨
    ((∀ k ∈ ks, key < k) ∧ (IsLeast {k | k ∈ ks} r ∨ (ks = [] ∧ r = 0)))

/-- The spot lies on the way to `key`: on the left edge of the tree or
starting at or below `key`, and on the right edge or ending above it. -/
def Spot.Routed (key : Nat) (s : Spot) : Prop :=
  (s.left = [] ∨ s.bd.lo ≤ key) ∧ (s.right = [] ∨ key < s.bd.hi)

section Walk

variable {cfg}

theorem Spot.routed_top (key : Nat) (bd : Bounds) (root : Node) :
    (Spot.top bd root).Routed key :=
  ⟨.inl rfl, .inl rfl⟩

/-- The child `block_tree_node_find_block` selects is on the way to `key`:
the separator left of it is at most `key`, the one right of it above. -/
theorem Spot.Routed.down {s : Spot} {key : Nat} (hr : s.Routed key) {b : Nat} {ks : List Nat}
    {cs : List Node} (h : InternalOk cfg s.bd b ks cs) :
    (s.down ks cs (innerIndex ks key)).Routed key := by
  have hle := innerIndex_le ks key
  have hlen := h.hlen
  constructor
  · simp only [Spot.down_left, Spot.down_bd, Bounds.child]
    rcases Nat.eq_zero_or_pos (innerIndex ks key) with h0 | hpos
    · rw [h0, List.take_zero, List.flatMap_nil, List.append_nil, fence_zero]
      exact hr.1
    · -- the separator before the child: the search did not stop there
      right
      have hk : innerIndex ks key - 1 < ks.length := by omega
      have hf := @fence_succ s.bd.lo s.bd.hi ks _ hk
      rw [Nat.sub_add_cancel hpos] at hf
      have hlt : innerIndex ks key - 1 < ks.findIdx (fun k => decide (key ≤ k - 1)) := by
        unfold innerIndex at hpos ⊢
        omega
      have hstop := List.not_of_lt_findIdx hlt
      simp only [decide_eq_false_iff_not, Nat.not_le] at hstop
      rw [hf]
      omega
  · simp only [Spot.down_right, Spot.down_bd, Bounds.child]
    rcases Nat.lt_or_ge (innerIndex ks key) ks.length with hlt | hge
    · -- the separator after the child is the one the search stopped at
      right
      have hstop : decide (key ≤ ks[innerIndex ks key] - 1) = true := List.findIdx_getElem (w := hlt)
      have hpos := h.hkeys.pos _ (List.getElem_mem hlt)
      simp only [decide_eq_true_eq] at hstop
      rw [fence_succ _ hlt]
      omega
    · have hj : innerIndex ks key = ks.length := by omega
      rw [hj, List.drop_eq_nil_of_le (by omega), List.flatMap_nil, List.nil_append, fence_length]
      exact hr.2

/-- On a valid subtree, `block_tree_walk` goes down through the children
`key` selects to a leaf on the way to `key`, and stops at the slot
`leafIndex` picks. -/
theorem walkFrom_pathTo (key : Nat) (keyIsMax : Bool) :
    ∀ (fuel : Nat) (s : Spot), s.Ok cfg → s.Routed key → s.bd.height ≤ fuel →
    ∀ (es0 : List PathEntry) (data : BlockMac),
    ∃ pre t b ks ds, PathTo cfg s pre t ∧ t.node = mkLeaf cfg b ks ds ∧
      LeafOk cfg t.bd b ks ds ∧ t.Routed key ∧
      walkFrom cfg key keyIsMax fuel s.node es0 s.prev s.next data =
        some ⟨es0 ++ pre ++ [stepEntry ks (leafIndex ks key keyIsMax) t.prev t.next],
          getData cfg (mkLeaf cfg b ks ds) (leafIndex ks key keyIsMax)⟩ := by
  intro fuel
  induction fuel with
  | zero =>
    intro s hs _ hfuel
    have := hs.valid.one_le_height
    omega
  | succ fuel ih =>
    intro s hs hr hfuel es0 data
    rcases hs.valid.view with ⟨b, ks, ds, hn, hl⟩ | ⟨b, ks, cs, hn, hi⟩
    · -- a leaf: the walk records its slot and stops
      refine ⟨[], s, b, ks, ds, .here, hn, hl, hr, ?_⟩
      rw [hn, walkFrom_mkLeaf key keyIsMax hl, List.append_nil]
    · -- an internal node: one step to the child `key` selects, then the rest
      have hj : innerIndex ks key < cs.length := by
        have := innerIndex_le ks key
        have := hi.hlen
        omega
      obtain ⟨pre, t, b', ks', ds', hp, hn', hl', hr', hwalk⟩ :=
        ih (s.down ks cs (innerIndex ks key)) (hs.down hi hj) (hr.down hi)
          (by simp only [Spot.down_bd, Bounds.child]; omega)
          (es0 ++ [stepEntry ks (innerIndex ks key) s.prev s.next]) data
      refine ⟨stepEntry ks (innerIndex ks key) s.prev s.next :: pre, t, b', ks', ds',
        (PathTo.single _ hn hi hj).append hp, hn', hl', hr', ?_⟩
      rw [hn, walkFrom_mkInternal key keyIsMax hi]
      exact hwalk.trans (by simp)

end Walk

/-! ## At the leaf -/

section Leaf

variable {cfg} {t : Spot} {b : Nat} {ks : List Nat} {ds : List BlockMac}

theorem KeysOk.getElem_mono {lo hi : Nat} (h : KeysOk lo hi ks) {m n : Nat} (hmn : m ≤ n)
    (hn : n < ks.length) : ks[m] ≤ ks[n] := by
  rcases Nat.lt_or_eq_of_le hmn with hlt | rfl
  · have hks : ks.Pairwise (· ≤ ·) := by
      have := h.sorted
      rw [List.cons_append, List.pairwise_cons, List.pairwise_append] at this
      exact this.2.1
    exact List.pairwise_iff_getElem.mp hks m n (by omega) hn hlt
  · exact le_rfl

/-- Only the root can be an empty leaf, and it has nothing on either side. -/
theorem Spot.Ok.leaf_nil (ht : t.Ok cfg) (hl : LeafOk cfg t.bd b ks ds) (hks : ks = []) :
    t.left = [] ∧ t.right = [] := by
  cases hroot : t.bd.root
  · have := hl.hfill hroot
    have := cfg.one_le_minKeyCount true
    simp only [hks, List.length_nil] at *
    omega
  · exact ht.top hroot

/-- A leaf with entries on its left starts with its lower bound. -/
theorem Spot.Ok.leaf_head (ht : t.Ok cfg) (hl : LeafOk cfg t.bd b ks ds) (hleft : t.left ≠ []) :
    ∃ h : 0 < ks.length, ks[0] = t.bd.lo := by
  have hlen : 0 < ks.length :=
    List.length_pos_of_ne_nil fun hks => hleft (ht.leaf_nil hl hks).1
  refine ⟨hlen, hl.hfirst (by have := ht.left_lo hleft; omega) _ ?_⟩
  rw [List.head?_eq_getElem?, List.getElem?_eq_getElem hlen]
  rfl

/-- On the way to `key`, the entries left of a leaf are at most its first
key, which is at most `key`. -/
theorem Spot.Ok.left_le_key (ht : t.Ok cfg) {key : Nat} (hr : t.Routed key)
    (hl : LeafOk cfg t.bd b ks ds) {e : Nat × BlockMac} (he : e ∈ t.left) :
    ∃ h : 0 < ks.length, e.1 ≤ ks[0] ∧ ks[0] ≤ key := by
  have hleft : t.left ≠ [] := List.ne_nil_of_mem he
  obtain ⟨hlen, h0⟩ := ht.leaf_head hl hleft
  have hlo : t.bd.lo ≤ key := hr.1.resolve_left hleft
  exact ⟨hlen, by rw [h0]; exact ht.left_le e he, by omega⟩

/-- On the way to `key`, the entries right of a leaf are above `key`, at
least its upper bound and at least the key it inherited. -/
theorem Spot.Ok.key_lt_right (ht : t.Ok cfg) {key : Nat} (hr : t.Routed key)
    {e : Nat × BlockMac} (he : e ∈ t.right) : key < e.1 ∧ t.bd.hi ≤ e.1 ∧ t.next ≤ e.1 := by
  have hhi : key < t.bd.hi := hr.2.resolve_left (List.ne_nil_of_mem he)
  obtain ⟨-, hge, hnext⟩ := ht.right_ge e he
  exact ⟨by omega, hge, hnext⟩

theorem keys_leaf (hl : LeafOk cfg t.bd b ks ds) :
    (t.left ++ ks.zip ds ++ t.right).map Prod.fst =
      t.left.map Prod.fst ++ ks ++ t.right.map Prod.fst := by
  rw [List.map_append, List.map_append, List.map_fst_zip (by rw [hl.hlen])]

/-- The first slot at or above `key` of a leaf on the way to `key` reads the
least key of the tree at or above `key`; `i` is that slot, the keys before
it below `key`. -/
theorem Spot.Ok.walkGe_of_index (ht : t.Ok cfg) {key : Nat} (hr : t.Routed key)
    (hl : LeafOk cfg t.bd b ks ds) {i : Nat} (hi : i ≤ ks.length)
    (hbelow : ∀ m (hm : m < ks.length), m < i → ks[m] < key)
    (hat : ∀ h : i < ks.length, key ≤ ks[i]) :
    WalkGe ((t.left ++ ks.zip ds ++ t.right).map Prod.fst) key (ks.getD i t.next) := by
  -- an entry left of the leaf that reaches `key` makes the leaf start with `key`
  have hleft : ∀ e ∈ t.left, key ≤ e.1 → ∃ h : 0 < ks.length, i = 0 ∧ ks[0] = key := by
    intro e he hke
    obtain ⟨hlen, h1, h2⟩ := ht.left_le_key hr hl he
    refine ⟨hlen, ?_, by omega⟩
    by_contra hne
    have := hbelow 0 hlen (by omega)
    omega
  rw [keys_leaf hl]
  rcases Nat.lt_or_ge i ks.length with hlt | hge
  · -- the slot holds a key: the least one at or above `key`
    rw [List.getD_eq_getElem _ _ hlt]
    refine .inl ⟨⟨by simp [List.getElem_mem hlt], hat hlt⟩, ?_⟩
    rintro k ⟨hk, hkey⟩
    simp only [List.mem_append, List.mem_map] at hk
    rcases hk with (⟨e, he, rfl⟩ | hk) | ⟨e, he, rfl⟩
    · obtain ⟨hlen, rfl, h0⟩ := hleft e he hkey
      omega
    · obtain ⟨m, hm, rfl⟩ := List.getElem_of_mem hk
      have him : i ≤ m := by
        by_contra hmi
        have := hbelow m hm (by omega)
        omega
      exact hl.hkeys.getElem_mono him hm
    · have := (hl.hkeys.mem_bounds (List.getElem_mem hlt)).2
      have := (ht.right_ge e he).2.1
      omega
  · -- past the leaf's keys: the first key on the right, `0` if there is none
    rw [List.getD_eq_getElem?_getD, List.getElem?_eq_none hge, Option.getD_none]
    have hnot : ∀ e ∈ t.left, e.1 < key := by
      intro e he
      by_contra hke
      obtain ⟨hlen, rfl, -⟩ := hleft e he (by omega)
      omega
    have hks : ∀ k ∈ ks, k < key := by
      intro k hk
      obtain ⟨m, hm, rfl⟩ := List.getElem_of_mem hk
      exact hbelow m hm (by omega)
    cases hR : t.right with
    | nil =>
      refine .inr ⟨by rw [ht.next_eq, hR]; rfl, ?_⟩
      intro k hk
      simp only [List.map_nil, List.append_nil, List.mem_append, List.mem_map] at hk
      rcases hk with ⟨e, he, rfl⟩ | hk
      · exact hnot e he
      · exact hks k hk
    | cons e0 R =>
      have hnext : t.next = e0.1 := by rw [ht.next_eq, hR]; rfl
      have he0 := ht.key_lt_right hr (by rw [hR]; exact List.mem_cons_self)
      refine .inl ⟨⟨by simp [hnext], by omega⟩, ?_⟩
      rintro k ⟨hk, hkey⟩
      simp only [List.mem_append, List.mem_map] at hk
      rcases hk with (⟨e, he, rfl⟩ | hk) | ⟨e, he, rfl⟩
      · exact absurd (hnot e he) (by omega)
      · exact absurd (hks k hk) (by omega)
      · exact (ht.key_lt_right hr (by rw [hR]; exact he)).2.2

/-- With `key_is_max`, a leaf on the way to `key` reads the greatest key of
the tree at or below `key`, else its least key: the search steps back from
the first slot at or above `key` unless that slot holds `key`. -/
theorem Spot.Ok.walkLe_of_index (ht : t.Ok cfg) {key : Nat} (hr : t.Routed key)
    (hl : LeafOk cfg t.bd b ks ds) {i : Nat} (hi : i ≤ ks.length)
    (hbelow : ∀ m (hm : m < ks.length), m < i → ks[m] < key)
    (hat : ∀ h : i < ks.length, key ≤ ks[i]) :
    WalkLe ((t.left ++ ks.zip ds ++ t.right).map Prod.fst) key
      (ks.getD (if 0 < i ∧ (ks.getD i 0 = 0 ∨ key < ks.getD i 0) then i - 1 else i) t.next) := by
  rw [keys_leaf hl]
  by_cases hstep : 0 < i ∧ (ks.getD i 0 = 0 ∨ key < ks.getD i 0)
  · -- stepped back to the last key below `key`
    rw [if_pos hstep]
    have hi1 : i - 1 < ks.length := by omega
    rw [List.getD_eq_getElem _ _ hi1]
    have hlast := hbelow (i - 1) hi1 (by omega)
    refine .inl ⟨⟨by simp [List.getElem_mem hi1], by omega⟩, ?_⟩
    rintro k ⟨hk, hkey⟩
    simp only [List.mem_append, List.mem_map] at hk
    rcases hk with (⟨e, he, rfl⟩ | hk) | ⟨e, he, rfl⟩
    · obtain ⟨hlen, h1, -⟩ := ht.left_le_key hr hl he
      have := hl.hkeys.getElem_mono (Nat.zero_le (i - 1)) hi1
      omega
    · obtain ⟨m, hm, rfl⟩ := List.getElem_of_mem hk
      by_cases hmi : m ≤ i - 1
      · exact hl.hkeys.getElem_mono hmi hi1
      · -- a key from the slot on is above `key`
        have hlt : i < ks.length := by omega
        have hpos := hl.hkeys.pos _ (List.getElem_mem hlt)
        have habove : key < ks[i] := by
          have h2 := hstep.2
          rw [List.getD_eq_getElem _ _ hlt] at h2
          omega
        have := hl.hkeys.getElem_mono (by omega : i ≤ m) hm
        omega
    · have := ht.key_lt_right hr he
      omega
  · rw [if_neg hstep]
    rcases Nat.lt_or_ge i ks.length with hlt | hge
    · rw [List.getD_eq_getElem _ _ hlt]
      by_cases hki : ks[i] = key
      · -- the slot holds `key` itself
        rw [hki]
        exact .inl ⟨⟨by rw [← hki]; simp [List.getElem_mem hlt], le_rfl⟩, fun k hk => hk.2⟩
      · -- the slot holds a key above `key`: it is the first slot and the leaf the first
        have hgt : key < ks[i] := lt_of_le_of_ne (hat hlt) (Ne.symm hki)
        have hi0 : i = 0 := by
          by_contra hi0
          exact hstep ⟨by omega, .inr (by rw [List.getD_eq_getElem _ _ hlt]; exact hgt)⟩
        subst hi0
        have hleft : t.left = [] := by
          by_contra hne
          obtain ⟨hlen, h0⟩ := ht.leaf_head hl hne
          have := hr.1.resolve_left hne
          omega
        have hks : ∀ k ∈ ks, ks[0] ≤ k := by
          intro k hk
          obtain ⟨m, hm, rfl⟩ := List.getElem_of_mem hk
          exact hl.hkeys.getElem_mono (Nat.zero_le m) hm
        have hright : ∀ e ∈ t.right, key < e.1 ∧ ks[0] ≤ e.1 := by
          intro e he
          have := (hl.hkeys.mem_bounds (List.getElem_mem hlt)).2
          have := ht.key_lt_right hr he
          omega
        refine .inr ⟨?_, .inl ⟨by simp [List.getElem_mem hlt], ?_⟩⟩
        · intro k hk
          simp only [hleft, List.map_nil, List.nil_append, List.mem_append, List.mem_map] at hk
          rcases hk with hk | ⟨e, he, rfl⟩
          · have := hks k hk
            omega
          · exact (hright e he).1
        · intro k hk
          simp only [hleft, List.map_nil, List.nil_append, Set.mem_ofPred_eq, List.mem_append,
            List.mem_map] at hk
          rcases hk with hk | ⟨e, he, rfl⟩
          · exact hks k hk
          · exact (hright e he).2
    · -- past the keys without stepping back: the leaf is empty, so is the tree
      have hi0 : i = 0 := by
        by_contra hi0
        exact hstep ⟨by omega, .inl (by
          rw [List.getD_eq_getElem?_getD, List.getElem?_eq_none hge]; rfl)⟩
      have hks : ks = [] := List.eq_nil_of_length_eq_zero (by omega)
      obtain ⟨hL, hR⟩ := ht.leaf_nil hl hks
      subst hks
      refine .inr ⟨by simp [hL, hR], .inr ⟨by simp [hL, hR], ?_⟩⟩
      rw [List.getD_nil, ht.next_eq, hR]
      rfl

end Leaf

/-! ## Walks from the root -/

section Root

variable {cfg}

/-- The keys before the first one at or above `key` are below it. -/
theorem lt_of_lt_findIdx (ks : List Nat) (key : Nat) (m : Nat) (hm : m < ks.length)
    (hmi : m < ks.findIdx fun k => decide (key ≤ k)) : ks[m] < key := by
  simpa using List.not_of_lt_findIdx hmi

theorem le_getElem_findIdx (ks : List Nat) (key : Nat)
    (h : (ks.findIdx fun k => decide (key ≤ k)) < ks.length) :
    key ≤ ks[ks.findIdx fun k => decide (key ≤ k)] := by
  simpa using List.findIdx_getElem (w := h)

/-- `leafIndex` with `key_is_max`, as a condition on the first slot at or
above `key`. -/
theorem leafIndex_true (ks : List Nat) (key : Nat) :
    leafIndex ks key true =
      let i := ks.findIdx fun k => decide (key ≤ k)
      if 0 < i ∧ (ks.getD i 0 = 0 ∨ key < ks.getD i 0) then i - 1 else i := by
  simp only [leafIndex, Bool.true_and, Bool.and_eq_true, decide_eq_true_eq, Bool.or_eq_true,
    beq_iff_eq]

theorem read_getD_eq {ks : List Nat} {ds : List BlockMac} (hlen : ds.length = ks.length)
    (i : Nat) : (ds.getD i .zero).read = (((ks.zip ds)[i]?).map fun e => e.2.read).getD .zero := by
  rcases Nat.lt_or_ge i ks.length with hlt | hge
  · have hz : i < (ks.zip ds).length := by simp [hlen, hlt]
    rw [List.getD_eq_getElem _ _ (by omega), List.getElem?_eq_getElem hz, List.getElem_zip]
    rfl
  · have hz : (ks.zip ds).length ≤ i := by simp [hlen, hge]
    rw [List.getD_eq_getElem?_getD, List.getElem?_eq_none (by omega), List.getElem?_eq_none hz]
    simp [BlockMac.read, BlockMac.zero]

/-- With `key_is_max`, the search in a leaf with keys ends at one of them. -/
theorem leafIndex_true_lt {ks : List Nat} (hne : ks ≠ []) (key : Nat) :
    leafIndex ks key true < ks.length := by
  have hlen := List.length_pos_of_ne_nil hne
  have hle : (ks.findIdx fun k => decide (key ≤ k)) ≤ ks.length := List.findIdx_le_length
  rw [leafIndex_true]
  dsimp only
  split_ifs with hstep
  · omega
  · -- not stepping back past the keys means the search stopped at one of them
    by_contra hge
    apply hstep
    refine ⟨by omega, .inl ?_⟩
    rw [List.getD_eq_getElem?_getD, List.getElem?_eq_none (by omega)]
    rfl

/-- `block_tree_walk` from the root of a valid tree of at most
`BLOCK_TREE_MAX_DEPTH` levels returns the path to the slot `leafIndex`
picks in a leaf on the way to `key`. -/
theorem walk_pathTo (t : Tree) {bd : Bounds} (hv : Valid cfg bd t.root)
    (hH : bd.height ≤ maxDepth) (key : Nat) (keyIsMax : Bool) :
    ∃ pre u b ks ds, PathTo cfg (Spot.top bd t.root) pre u ∧ u.node = mkLeaf cfg b ks ds ∧
      LeafOk cfg u.bd b ks ds ∧ u.Ok cfg ∧ u.Routed key ∧
      walk cfg t key keyIsMax =
        some ⟨pre ++ [stepEntry ks (leafIndex ks key keyIsMax) u.prev u.next],
          getData cfg (mkLeaf cfg b ks ds) (leafIndex ks key keyIsMax)⟩ := by
  have htop := Spot.Ok.top_ok hv
  obtain ⟨pre, u, b, ks, ds, hp, hn, hl, hr, hwalk⟩ :=
    walkFrom_pathTo key keyIsMax maxDepth (Spot.top bd t.root) htop
      (Spot.routed_top key bd t.root) hH [] BlockMac.zero
  refine ⟨pre, u, b, ks, ds, hp, hn, hl, hp.ok htop, hr, ?_⟩
  rw [walk]
  exact hwalk.trans (by simp)

/-- The keys of the tree, seen from a leaf. -/
theorem keys_root {bd : Bounds} {root : Node} {pre : List PathEntry} {u : Spot} {b : Nat}
    {ks : List Nat} {ds : List BlockMac} (hp : PathTo cfg (Spot.top bd root) pre u)
    (hn : u.node = mkLeaf cfg b ks ds) (hl : LeafOk cfg u.bd b ks ds) :
    (entries root).map Prod.fst = (u.left ++ ks.zip ds ++ u.right).map Prod.fst := by
  have := hp.entries_eq
  rw [hn, entries_mkLeaf cfg b ks ds hl.hkeys.pos hl.hlen] at this
  simpa [Spot.top] using congrArg (List.map Prod.fst) this

/-- `block_tree_walk` with `key_is_max` clear ends at a slot whose key is the
least key of the tree at or above `key`, `0` if there is none.  The slot
holds that entry and the path its data, or it is the empty insert slot after
a leaf's last key and the path has no data. -/
theorem walk_least (t : Tree) {bd : Bounds} (hv : Valid cfg bd t.root)
    (hH : bd.height ≤ maxDepth) (key : Nat) :
    ∃ P A x B, walk cfg t key false = some P ∧ PathIn cfg (Spot.top bd t.root) P.entry A x B ∧
      P.data = (x.map fun e => e.2.read).getD .zero ∧
      WalkGe ((entries t.root).map Prod.fst) key P.getKey := by
  obtain ⟨pre, u, b, ks, ds, hp, hn, hl, hu, hr, hwalk⟩ := walk_pathTo t hv hH key false
  have hidx : leafIndex ks key false = ks.findIdx fun k => decide (key ≤ k) := by
    simp [leafIndex]
  rw [hidx] at hwalk
  refine ⟨_, _, _, _, hwalk, ⟨pre, u, b, ks, ds, _, hp, hn, hl, List.findIdx_le_length, rfl, rfl,
    rfl, rfl⟩, ?_, ?_⟩
  · rw [getData_mkLeaf b ks ds (by rw [hl.hlen]; exact hl.hcap), read_getD_eq hl.hlen]
  · rw [keys_root hp hn hl, getKey_stepEntry]
    exact hu.walkGe_of_index hr hl List.findIdx_le_length (lt_of_lt_findIdx ks key)
      (le_getElem_findIdx ks key)

/-- `block_tree_walk` with `key_is_max` ends at a slot whose key is the
greatest key of the tree at or below `key`; if there is none, the least key
of the tree (`0` in an empty tree). -/
theorem walk_greatest (t : Tree) {bd : Bounds} (hv : Valid cfg bd t.root)
    (hH : bd.height ≤ maxDepth) (key : Nat) :
    ∃ P A x B, walk cfg t key true = some P ∧ PathIn cfg (Spot.top bd t.root) P.entry A x B ∧
      P.data = (x.map fun e => e.2.read).getD .zero ∧
      WalkLe ((entries t.root).map Prod.fst) key P.getKey ∧
      (x = none → entries t.root = []) := by
  obtain ⟨pre, u, b, ks, ds, hp, hn, hl, hu, hr, hwalk⟩ := walk_pathTo t hv hH key true
  refine ⟨_, _, _, _, hwalk, ⟨pre, u, b, ks, ds, _, hp, hn, hl, leafIndex_le ks key true, rfl, rfl,
    rfl, rfl⟩, ?_, ?_, ?_⟩
  · rw [getData_mkLeaf b ks ds (by rw [hl.hlen]; exact hl.hcap), read_getD_eq hl.hlen]
  · rw [keys_root hp hn hl, getKey_stepEntry, leafIndex_true]
    exact hu.walkLe_of_index hr hl List.findIdx_le_length (lt_of_lt_findIdx ks key)
      (le_getElem_findIdx ks key)
  · -- with `key_is_max` only an empty leaf, the root of an empty tree, ends at its empty slot
    intro hx
    have hks : ks = [] := by
      by_contra hne
      rw [List.getElem?_eq_none_iff, List.length_zip, hl.hlen, Nat.min_self] at hx
      have := leafIndex_true_lt hne key
      omega
    obtain ⟨hL, hR⟩ := hu.leaf_nil hl hks
    have := hp.entries_eq
    rw [hn, entries_mkLeaf cfg b ks ds hl.hkeys.pos hl.hlen, hks, hL, hR] at this
    simpa [Spot.top] using this

end Root

/-! ## The next entry -/

section Next

variable {cfg}

/-- Past its children an internal node reads no child. -/
theorem getChild_mkInternal_of_le (b : Nat) (ks : List Nat) (cs : List Node) {i : Nat}
    (hi : cs.length ≤ i) : getChild cfg (mkInternal cfg b ks cs) i = .empty := by
  have hget : (Slots.pad Node.empty (cfg.keyCountInternal + 1) cs).getD i .empty = .empty := by
    rw [Slots.getD_pad, List.getD_eq_getElem?_getD, List.getElem?_eq_none hi, Option.getD_none]
  simp only [getChild, mkInternal, Node.isLeaf, Config.keyCount, Node.children, hget,
    Bool.false_eq_true, if_false, Node.block, if_true]
  split_ifs <;> rfl

/-- The `parent_next_key` of `block_tree_path_next` is the key inherited at
level `d`. -/
theorem inherited_next (es : List PathEntry) {d : Nat} (hd : d ≤ es.length) :
    (if 0 < d then (es.getD (d - 1) default).nextKey else 0) =
      ((es.take d).getLast?.map PathEntry.nextKey).getD 0 := by
  cases d with
  | zero => simp
  | succ d =>
    rw [if_pos (Nat.succ_pos d), List.getLast?_take, if_neg (Nat.succ_ne_zero d),
      Nat.add_sub_cancel, List.getElem?_eq_getElem (by omega), Option.some_or,
      List.getD_eq_getElem _ _ (by omega)]
    rfl

/-- Along a path from the root, the key a spot inherits is the
`parent_next_key` `block_tree_path_next` reads at its level. -/
theorem PathTo.next_eq_inherited {bd : Bounds} {root : Node} {es : List PathEntry} {d : Nat}
    {u : Spot} (hp : PathTo cfg (Spot.top bd root) (es.take d) u) (hd : d ≤ es.length) :
    u.next = if 0 < d then (es.getD (d - 1) default).nextKey else 0 := by
  rw [inherited_next es hd, hp.next_eq]
  rfl

/-- The upward loop of `block_tree_path_next`, from a spot whose entries end
right before the ones on its right: it finds the deepest level above with a
child right of the path, and advances the path there. -/
theorem pathNextUp_spec {root : Node} {bd : Bounds} (hv : Valid cfg bd root) (P : Path)
    (L : List (Nat × BlockMac)) :
    ∀ (d : Nat) (u : Spot), d < P.entry.length → PathTo cfg (Spot.top bd root) (P.entry.take d) u →
      L = u.left ++ entries u.node → u.right ≠ [] →
    ∃ d' v b ks cs j, d' < d ∧ PathTo cfg (Spot.top bd root) (P.entry.take d') v ∧
      v.node = mkInternal cfg b ks cs ∧ InternalOk cfg v.bd b ks cs ∧ j + 1 < cs.length ∧
      (v.down ks cs (j + 1)).left = L ∧
      pathNextUp cfg root d P = some (d', ⟨P.entry.set d' (stepEntry ks (j + 1) v.prev v.next),
        P.data⟩, (v.down ks cs (j + 1)).node, (v.down ks cs (j + 1)).prev) := by
  have htop := Spot.Ok.top_ok hv
  intro d
  induction d with
  | zero =>
    intro u _ hp _ hR
    rw [List.take_zero] at hp
    rw [hp.nil_inv] at hR
    exact absurd rfl hR
  | succ d ih =>
    intro u hd hp hL hR
    rw [List.take_succ_eq_append_getElem (by omega)] at hp
    obtain ⟨v, b, ks, cs, j, hpv, hnv, hiv, hj, he, rfl⟩ := hp.snoc_inv
    have hvok := hpv.ok htop
    have huok := hvok.down hiv hj
    -- the level's next key is what the spot below inherits: not `0`, as the tree goes on
    have hnext : (stepEntry ks j v.prev v.next).nextKey ≠ 0 := by
      obtain ⟨y, B, hyB⟩ := List.exists_cons_of_ne_nil hR
      have hy := (huok.right_ge y (by rw [hyB]; exact List.mem_cons_self)).1
      have := huok.next_eq
      rw [hyB, Spot.down_next] at this
      simp only [List.head?_cons, Option.map_some, Option.getD_some] at this
      omega
    have hnode : nodeAt cfg root (P.entry.take d) = mkInternal cfg b ks cs := hpv.nodeAt_eq.trans hnv
    have hparent := hpv.next_eq_inherited (by omega : d ≤ P.entry.length)
    have hlen := hiv.hlen
    simp only [stepEntry] at hnext
    rw [pathNextUp]
    simp only [List.getD_eq_getElem _ _ (by omega : d < P.entry.length), he, hnode, ← hparent,
      getKey_mkInternal b ks cs hiv.hcap, stepEntry, hnext, if_false]
    by_cases hj1 : j + 1 < cs.length
    · -- a child right of the path: the loop stops at this level
      have hc := (hiv.hchild (j + 1) hj1).block_ne_zero
      rw [hiv.getChild _ hj1, if_pos hc]
      refine ⟨d, v, b, ks, cs, j, by omega, hpv, hnv, hiv, hj1, ?_, ?_⟩
      · rw [hL, Spot.down_left, Spot.down_left, List.take_succ_eq_append_getElem hj,
          List.flatMap_append, Spot.down_node, List.getD_eq_getElem _ _ hj]
        simp
      · simp only [Spot.down_node, Spot.down_prev, stepEntry, List.getD_eq_getElem _ _ hj1,
          getD_or_of_pos hiv.hkeys.pos, if_pos (Nat.succ_pos j), Nat.add_sub_cancel]
    · -- the path is at the last child: nothing more here, go up
      rw [getChild_mkInternal_of_le b ks cs (by omega : cs.length ≤ j + 1)]
      simp only [Node.block, ne_eq, not_true_eq_false, if_false]
      have hdrop : cs.drop (j + 1) = [] := List.drop_eq_nil_of_le (by omega)
      obtain ⟨d', v', b', ks', cs', j', hd', rest⟩ := ih v (by omega) hpv
        (by
          rw [hL, hnv, entries_mkInternal, flatMap_entries_split cs hj, hdrop, Spot.down_left,
            Spot.down_node, List.getD_eq_getElem _ _ hj]
          simp)
        (by simpa [hdrop] using hR)
      exact ⟨d', v', b', ks', cs', j', by omega, rest⟩

/-- Setting position `d` and cutting after it. -/
theorem take_set_succ {α : Type} (l : List α) {d : Nat} (hd : d < l.length) (a : α) :
    (l.set d a).take (d + 1) = l.take d ++ [a] := by
  rw [List.set_eq_take_append_cons_drop, if_pos hd, List.take_append, List.length_take,
    Nat.min_eq_left hd.le, List.take_of_length_le (by simp), Nat.add_sub_cancel_left]
  rfl

theorem PathTo.not_root {s t : Spot} {es : List PathEntry} (h : PathTo cfg s es t)
    (hs : s.bd.root = false) : t.bd.root = false := by
  induction h with
  | here => exact hs
  | down => rfl

/-- The downward loop of `block_tree_path_next`: from a spot below the root,
the leftmost path to a leaf, written over the levels from `d` on. -/
theorem pathNextDown_spec : ∀ (r d : Nat) (w : Spot) (es : List PathEntry) (data : BlockMac),
    w.Ok cfg → w.bd.root = false → w.bd.height = r + 1 → es.length = d + r + 1 →
    ∃ pre u b ks ds, PathTo cfg w pre u ∧ u.node = mkLeaf cfg b ks ds ∧
      LeafOk cfg u.bd b ks ds ∧ u.left = w.left ∧
      pathNextDown cfg w.prev r d w.node ⟨es, data⟩ =
        ⟨es.take d ++ pre ++ [stepEntry ks 0 u.prev u.next], getData cfg (mkLeaf cfg b ks ds) 0⟩ := by
  intro r
  induction r with
  | zero =>
    intro d w es data hw hroot hh hlen
    rcases hw.valid.view with ⟨b, ks, ds, hn, hl⟩ | ⟨b, ks, cs, hn, hi⟩
    · -- the leaf: its first slot
      refine ⟨[], w, b, ks, ds, .here, hn, hl, rfl, ?_⟩
      have hks : 0 < ks.length := by
        have := hl.hfill hroot
        have := cfg.one_le_minKeyCount true
        omega
      have hset : es.set d (stepEntry ks 0 w.prev w.next) =
          es.take d ++ [stepEntry ks 0 w.prev w.next] := by
        rw [← take_set_succ es (by omega), List.take_of_length_le (by simp; omega)]
      rw [hn, pathNextDown, getKey_mkLeaf b ks ds hl.hcap, List.append_nil, ← hset]
      simp only [stepEntry, List.getD_eq_getElem _ _ hks, Nat.lt_irrefl, if_false]
    · have := hi.hheight
      omega
  | succ r ih =>
    intro d w es data hw hroot hh hlen
    rcases hw.valid.view with ⟨b, ks, ds, hn, hl⟩ | ⟨b, ks, cs, hn, hi⟩
    · have := hl.hheight
      omega
    · -- an internal node: its first child, then the leftmost path below it
      have hc0 : 0 < cs.length := by have := hi.hlen; omega
      have hks : 0 < ks.length := List.length_pos_of_ne_nil hi.hne
      have he0 : (⟨0, w.prev, getKey cfg (mkInternal cfg b ks cs) 0⟩ : PathEntry) =
          stepEntry ks 0 w.prev w.next := by
        simp only [getKey_mkInternal b ks cs hi.hcap, stepEntry, List.getD_eq_getElem _ _ hks,
          Nat.lt_irrefl, if_false]
      obtain ⟨pre, u, b', ks', ds', hp, hn', hl', hleft, hdown⟩ :=
        ih (d + 1) (w.down ks cs 0) (es.set d (stepEntry ks 0 w.prev w.next)) data
          (hw.down hi hc0) rfl (by simp only [Spot.down_bd, Bounds.child]; omega)
          (by simp only [List.length_set]; omega)
      refine ⟨stepEntry ks 0 w.prev w.next :: pre, u, b', ks', ds',
        (PathTo.single 0 hn hi hc0).append hp, hn', hl', by simp [hleft], ?_⟩
      -- the first child's spot inherits the same `prev_key`
      have hprev : (w.down ks cs 0).prev = w.prev := by simp [stepEntry]
      have hnode : (w.down ks cs 0).node = cs[0] := by
        rw [Spot.down_node, List.getD_eq_getElem _ _ hc0]
      rw [hprev, hnode] at hdown
      rw [hn, pathNextDown, he0, hi.getChild 0 hc0]
      refine hdown.trans ?_
      rw [take_set_succ es (by omega)]
      simp

/-- `block_tree_path_next` on a path to slot `i` of a leaf: the next slot of
the leaf when the leaf has a key after `i` or nothing follows the leaf in the
tree; otherwise the climb to the next leaf. -/
theorem pathNext_eq (t : Tree) {bd : Bounds} {P : Path} {pre : List PathEntry} {u : Spot}
    (hp : PathTo cfg (Spot.top bd t.root) pre u) {b : Nat} {ks : List Nat} {ds : List BlockMac}
    (hn : u.node = mkLeaf cfg b ks ds) (hl : LeafOk cfg u.bd b ks ds) {i : Nat}
    (hP : P.entry = pre ++ [stepEntry ks i u.prev u.next]) :
    pathNext cfg t P =
      if ks.getD (i + 1) 0 ≠ 0 ∨ u.next = 0 then
        some ⟨pre ++ [⟨i + 1, ks.getD i 0, ks.getD (i + 1) 0⟩], getData cfg (mkLeaf cfg b ks ds) (i + 1)⟩
      else
        (pathNextUp cfg t.root pre.length P).bind fun r =>
          some (pathNextDown cfg r.2.2.2 (pre.length - (r.1 + 1)) (r.1 + 1) r.2.2.1 r.2.1) := by
  have hlen : P.entry.length - 1 = pre.length := by simp [hP]
  have htake : P.entry.take pre.length = pre := by simp [hP]
  have hlast : P.entry.getD pre.length default = stepEntry ks i u.prev u.next := by
    rw [hP, List.getD_append_right _ _ _ _ (le_refl _), Nat.sub_self]
    rfl
  have hp' : PathTo cfg (Spot.top bd t.root) (P.entry.take pre.length) u := by
    rw [htake]
    exact hp
  have hparent := hp'.next_eq_inherited (by simp [hP])
  have hleaf : nodeAt cfg t.root (P.entry.take pre.length) = mkLeaf cfg b ks ds := by
    rw [htake, ← hn]
    exact hp.nodeAt_eq
  have hset : P.entry.set pre.length ⟨i + 1, ks.getD i 0, ks.getD (i + 1) 0⟩ =
      pre ++ [⟨i + 1, ks.getD i 0, ks.getD (i + 1) 0⟩] := by
    simp [hP]
  have hne : P.entry ≠ [] := by simp [hP]
  simp only [pathNext, hlen, hlast, hleaf, ← hparent, hne, if_false,
    getKey_mkLeaf b ks ds hl.hcap, stepEntry, hset]
  -- the climb, written without its `match`
  split_ifs
  · rfl
  · cases pathNextUp cfg t.root pre.length P <;> rfl

/-- The climb of `block_tree_path_next` from a leaf whose tree goes on to the
right: it reaches the first entry after the leaf. -/
theorem pathNext_climb {bd : Bounds} {root : Node} (hv : Valid cfg bd root) {P : Path}
    {pre : List PathEntry} {e : PathEntry} (hP : P.entry = pre ++ [e]) {u : Spot}
    (hp : PathTo cfg (Spot.top bd root) pre u) (hleaf : u.bd.height = 1) {y : Nat × BlockMac}
    {B : List (Nat × BlockMac)} (hR : u.right = y :: B) :
    ∃ r, pathNextUp cfg root pre.length P = some r ∧
      PathIn cfg (Spot.top bd root)
        (pathNextDown cfg r.2.2.2 (pre.length - (r.1 + 1)) (r.1 + 1) r.2.2.1 r.2.1).entry
        (u.left ++ entries u.node) (some y) B ∧
      (pathNextDown cfg r.2.2.2 (pre.length - (r.1 + 1)) (r.1 + 1) r.2.2.1 r.2.1).data =
        y.2.read := by
  have htop := Spot.Ok.top_ok hv
  have hPlen : P.entry.length = pre.length + 1 := by simp [hP]
  have hlen : pre.length < P.entry.length := by omega
  have hp' : PathTo cfg (Spot.top bd root) (P.entry.take pre.length) u := by
    rw [hP, List.take_left]
    exact hp
  obtain ⟨d, v, b', ks', cs', j, hd, hpv, hnv, hiv, hj1, hleft, hup⟩ :=
    pathNextUp_spec hv P (u.left ++ entries u.node) pre.length u hlen hp' rfl (by simp [hR])
  -- heights: the leaf is at level `pre.length`, the climb stops at level `d` above it
  have hhu := hp.height_eq
  have hhv := hpv.height_eq
  have hdlen : (P.entry.take d).length = d := by simp; omega
  have hhi := hiv.hheight
  set w := v.down ks' cs' (j + 1) with hw
  obtain ⟨pre2, u2, b2, ks2, ds2, hp2, hn2, hl2, hleft2, hdown⟩ :=
    pathNextDown_spec (pre.length - (d + 1)) (d + 1) w
      (P.entry.set d (stepEntry ks' (j + 1) v.prev v.next)) P.data
      ((hpv.ok htop).down hiv hj1) rfl
      (by simp only [hw, Spot.down_bd, Bounds.child]; omega)
      (by simp only [List.length_set]; omega)
  refine ⟨_, hup, ?_⟩
  rw [hdown]
  -- the new leaf is not the root, so it starts with an entry: the one after the old leaf
  have hroot2 := hp2.not_root rfl
  have hks2 : 0 < ks2.length := by
    have := hl2.hfill hroot2
    have := cfg.one_le_minKeyCount true
    omega
  have hz : 0 < (ks2.zip ds2).length := by simp [hl2.hlen, hks2]
  have hpath : PathTo cfg (Spot.top bd root) (P.entry.take d ++
      [stepEntry ks' (j + 1) v.prev v.next] ++ pre2) u2 :=
    (hpv.append (PathTo.single (j + 1) hnv hiv hj1)).append hp2
  have hsplit : ks2.zip ds2 ++ u2.right = y :: B := by
    have h1 := hpath.entries_eq
    have h2 := hp.entries_eq
    rw [hn2, entries_mkLeaf cfg b2 ks2 ds2 hl2.hkeys.pos hl2.hlen] at h1
    rw [h1, hleft2, hw, hleft, hR] at h2
    simp only [List.append_assoc] at h2
    exact List.append_cancel_left (List.append_cancel_left h2)
  have hcons := List.drop_eq_getElem_cons hz
  rw [List.drop_zero] at hcons
  rw [hcons, List.cons_append] at hsplit
  obtain ⟨hy, hB⟩ := List.cons.inj hsplit
  refine ⟨⟨_, u2, b2, ks2, ds2, 0, hpath, hn2, hl2, Nat.zero_le _,
    by rw [take_set_succ _ (by omega)], by rw [List.take_zero, List.append_nil, hleft2, hleft],
    by rw [List.getElem?_eq_getElem hz, hy], by rw [hB]⟩, ?_⟩
  rw [getData_mkLeaf b2 ks2 ds2 (by rw [hl2.hlen]; exact hl2.hcap), ← hy, List.getElem_zip,
    List.getD_eq_getElem _ _ (by rw [hl2.hlen]; exact hks2)]

/-- Along a valid tree, the key a spot inherits from the right is `0` only
at the right edge. -/
theorem Spot.Ok.right_eq_nil {s : Spot} (hs : s.Ok cfg) (h : s.next = 0) : s.right = [] := by
  cases hR : s.right with
  | nil => rfl
  | cons y B =>
    have hy := (hs.right_ge y (by rw [hR]; exact List.mem_cons_self)).1
    have := hs.next_eq
    rw [hR] at this
    simp only [List.head?_cons, Option.map_some, Option.getD_some] at this
    omega

/-- `block_tree_path_next` from a slot holding the entry `x` moves to the
slot after it: to the next entry in key order, with its data, or past the
last entry to the empty slot at the end of the last leaf. -/
theorem pathNext_entry (t : Tree) {bd : Bounds} (hv : Valid cfg bd t.root) {P : Path}
    {A B : List (Nat × BlockMac)} {x : Nat × BlockMac}
    (h : PathIn cfg (Spot.top bd t.root) P.entry A (some x) B) :
    ∃ P', pathNext cfg t P = some P' ∧
      ((B = [] ∧ PathIn cfg (Spot.top bd t.root) P'.entry (A ++ [x]) none [] ∧
          P'.data = BlockMac.zero) ∨
        ∃ y B', B = y :: B' ∧ PathIn cfg (Spot.top bd t.root) P'.entry (A ++ [x]) (some y) B' ∧
          P'.data = y.2.read) := by
  obtain ⟨pre, u, b, ks, ds, i, hp, hn, hl, -, hP, rfl, hx, rfl⟩ := h
  have hu := hp.ok (Spot.Ok.top_ok hv)
  have hz : i < (ks.zip ds).length := by
    by_contra hge
    rw [List.getElem?_eq_none (by omega)] at hx
    cases hx
  have hi : i < ks.length := by simpa [hl.hlen] using hz
  have hx' : x = (ks.zip ds)[i] := by
    rw [List.getElem?_eq_getElem hz] at hx
    exact Option.some.inj hx
  -- the entries up to and including `x`
  have hA : u.left ++ (ks.zip ds).take i ++ [x] = u.left ++ (ks.zip ds).take (i + 1) := by
    rw [List.take_succ_eq_append_getElem hz, hx', List.append_assoc]
  rw [pathNext_eq t hp hn hl hP]
  by_cases hi1 : i + 1 < ks.length
  · -- the next slot of the leaf holds the next entry
    have hz1 : i + 1 < (ks.zip ds).length := by simpa [hl.hlen] using hi1
    have hk := hl.hkeys.pos _ (List.getElem_mem hi1)
    rw [if_pos (.inl (by rw [List.getD_eq_getElem _ _ hi1]; omega))]
    refine ⟨_, rfl, .inr ⟨(ks.zip ds)[i + 1], (ks.zip ds).drop (i + 2) ++ u.right, ?_,
      ⟨pre, u, b, ks, ds, i + 1, hp, hn, hl, hi1.le, ?_, hA, (List.getElem?_eq_getElem hz1).symm,
        rfl⟩, ?_⟩⟩
    · rw [List.drop_eq_getElem_cons hz1, List.cons_append]
    · simp only [stepEntry, if_pos (Nat.succ_pos i), Nat.add_sub_cancel,
        List.getD_eq_getElem _ _ hi1]
    · have hd1 : i + 1 < ds.length := by rw [hl.hlen]; exact hi1
      rw [getData_mkLeaf b ks ds (by rw [hl.hlen]; exact hl.hcap), List.getElem_zip,
        List.getD_eq_getElem _ _ hd1]
  · have hlast : i + 1 = ks.length := by omega
    have hend : ks.getD (i + 1) 0 = 0 := by
      rw [List.getD_eq_getElem?_getD, List.getElem?_eq_none (by omega)]
      rfl
    have hdrop : (ks.zip ds).drop (i + 1) = [] := List.drop_eq_nil_of_le (by simp [hl.hlen]; omega)
    rw [hdrop, List.nil_append]
    by_cases hnext : u.next = 0
    · -- the last entry of the tree: the empty slot after it, with key `0`
      have hR := hu.right_eq_nil hnext
      rw [if_pos (.inr hnext)]
      refine ⟨_, rfl, .inl ⟨hR, ⟨pre, u, b, ks, ds, i + 1, hp, hn, hl, hlast.le, ?_, hA, ?_, ?_⟩,
        ?_⟩⟩
      · simp [stepEntry, hnext]
      · rw [List.getElem?_eq_none (by simp [hl.hlen]; omega)]
      · have hdrop2 : (ks.zip ds).drop (i + 1 + 1) = [] :=
          List.drop_eq_nil_of_le (by simp [hl.hlen]; omega)
        rw [hdrop2, hR]
        rfl
      · -- past the last key there is no data
        rw [getData_mkLeaf b ks ds (by rw [hl.hlen]; exact hl.hcap), read_getD_eq hl.hlen,
          List.getElem?_eq_none (by simp [hl.hlen]; omega)]
        rfl
    · -- the tree goes on right of the leaf: climb to its next entry
      rw [if_neg (by rw [hend]; simp [hnext])]
      obtain ⟨y, B', hR⟩ := List.exists_cons_of_ne_nil
        (fun hR : u.right = [] => hnext (by rw [hu.next_eq, hR]; rfl))
      obtain ⟨r, hup, hin, hdata⟩ := pathNext_climb hv hP hp hl.hheight hR
      rw [hup, Option.bind_some]
      refine ⟨_, rfl, .inr ⟨y, B', hR, ?_, hdata⟩⟩
      rw [hn, entries_mkLeaf cfg b ks ds hl.hkeys.pos hl.hlen] at hin
      rwa [hA, List.take_of_length_le (by simp [hl.hlen]; omega)]

/-- `block_tree_path_next` from an empty insert slot with entries after it
moves to the first of them: the entry whose key the path already reported. -/
theorem pathNext_slot (t : Tree) {bd : Bounds} (hv : Valid cfg bd t.root) {P : Path}
    {A B : List (Nat × BlockMac)} {y : Nat × BlockMac}
    (h : PathIn cfg (Spot.top bd t.root) P.entry A none (y :: B)) :
    ∃ P', pathNext cfg t P = some P' ∧ PathIn cfg (Spot.top bd t.root) P'.entry A (some y) B ∧
      P'.data = y.2.read := by
  obtain ⟨pre, u, b, ks, ds, i, hp, hn, hl, hi, hP, rfl, hx, hB⟩ := h
  have hu := hp.ok (Spot.Ok.top_ok hv)
  have hie : i = ks.length := by
    by_contra hne
    rw [List.getElem?_eq_getElem (by simp [hl.hlen]; omega)] at hx
    cases hx
  subst hie
  have hdrop : (ks.zip ds).drop (ks.length + 1) = [] :=
    List.drop_eq_nil_of_le (by simp [hl.hlen])
  rw [hdrop, List.nil_append] at hB
  have hend : ks.getD (ks.length + 1) 0 = 0 := by
    rw [List.getD_eq_getElem?_getD, List.getElem?_eq_none (by omega)]
    rfl
  -- the slot inherited the key of `y`, which is not `0`
  have hnext : u.next ≠ 0 := by
    have hy := (hu.right_ge y (by rw [← hB]; exact List.mem_cons_self)).1
    rw [hu.next_eq, ← hB]
    simp only [List.head?_cons, Option.map_some, Option.getD_some]
    omega
  rw [pathNext_eq t hp hn hl hP, if_neg (by rw [hend]; simp [hnext])]
  obtain ⟨r, hup, hin, hdata⟩ := pathNext_climb hv hP hp hl.hheight hB.symm
  rw [hup, Option.bind_some]
  refine ⟨_, rfl, ?_, hdata⟩
  rw [hn, entries_mkLeaf cfg b ks ds hl.hkeys.pos hl.hlen] at hin
  rwa [List.take_of_length_le (by simp [hl.hlen])]

end Next

/-! ## A tree of order 4 -/

/-- The sizes `block_tree_test` gives a tree of order 4: two-byte keys and
24-byte `block_mac`s, three keys a node. -/
def order4 : Config := ⟨2, 3, 3, by decide, by decide, by decide, by decide⟩

example : setSizes 126 2 24 24 = some order4 := rfl

/-- Two leaves under a root with the separator `5`: the keys `1, 2` and
`5, 6`. -/
def twoLeaves : Tree :=
  ⟨mkInternal order4 1 [5] [mkLeaf order4 2 [1, 2] [⟨10, 0⟩, ⟨11, 0⟩],
    mkLeaf order4 3 [5, 6] [⟨12, 0⟩, ⟨13, 0⟩]], false, false, false⟩

theorem twoLeaves_valid : Valid order4 ⟨true, 2, 0, 2 ^ 64 - 1⟩ twoLeaves.root := by
  refine Valid.internal [5] _ (by decide) rfl (by decide) ⟨by decide, by decide⟩ (by decide)
    (by decide) (by decide) ?_
  intro i hi
  rcases i with _ | _ | i
  · exact Valid.leaf [1, 2] [⟨10, 0⟩, ⟨11, 0⟩] (by decide) rfl (by decide) ⟨by decide, by decide⟩
      (by decide) (by decide) rfl
  · exact Valid.leaf [5, 6] [⟨12, 0⟩, ⟨13, 0⟩] (by decide) rfl (by decide) ⟨by decide, by decide⟩
      (by decide) (by decide) rfl
  · simp at hi

/-! ## Search -/

section Search

variable {cfg}

/-- The search functions of `block_tree.c` on a valid tree of at most
`BLOCK_TREE_MAX_DEPTH` levels, whose entries in key order are `entries`:

* `block_tree_walk` without `key_is_max` returns a path to a slot whose key is
  the least key at or above `key` (`0` if there is none); the slot holds that
  entry and the path its data as `block_tree_node_get_data` reads it, or it
  is the empty insert slot after the last key of a leaf and the path has no
  data;
* with `key_is_max`, the path's key is the greatest key at or below `key`,
  else the least key of the tree;
* `block_tree_path_next` from a slot holding an entry moves to the next
  entry in key order, with its data, and reads key `0` after the last one;
* from an empty insert slot it moves to the first entry after the slot,
  whose key the path already reported. -/
theorem block_tree_search (t : Tree) {bd : Bounds} (hv : Valid cfg bd t.root)
    (hH : bd.height ≤ maxDepth) :
    (∀ key, ∃ P A x B, walk cfg t key false = some P ∧
      PathIn cfg (Spot.top bd t.root) P.entry A x B ∧
      WalkGe ((entries t.root).map Prod.fst) key P.getKey ∧
      ((∃ e, x = some e ∧ P.getKey = e.1 ∧ P.data = e.2.read) ∨
        (x = none ∧ P.data = BlockMac.zero))) ∧
    (∀ key, ∃ P, walk cfg t key true = some P ∧
      WalkLe ((entries t.root).map Prod.fst) key P.getKey) ∧
    (∀ (P : Path) A x B, PathIn cfg (Spot.top bd t.root) P.entry A (some x) B →
      ∃ P', pathNext cfg t P = some P' ∧
        ((B = [] ∧ P'.getKey = 0) ∨
          ∃ y B', B = y :: B' ∧ PathIn cfg (Spot.top bd t.root) P'.entry (A ++ [x]) (some y) B' ∧
            P'.getKey = y.1 ∧ P'.data = y.2.read)) ∧
    (∀ (P : Path) A y B, PathIn cfg (Spot.top bd t.root) P.entry A none (y :: B) →
      ∃ P', pathNext cfg t P = some P' ∧ PathIn cfg (Spot.top bd t.root) P'.entry A (some y) B ∧
        P'.getKey = y.1 ∧ P'.data = y.2.read) := by
  have htop := Spot.Ok.top_ok hv
  refine ⟨fun key => ?_, fun key => ?_, fun P A x B h => ?_, fun P A y B h => ?_⟩
  · obtain ⟨P, A, x, B, hwalk, hin, hdata, hge⟩ := walk_least t hv hH key
    refine ⟨P, A, x, B, hwalk, hin, hge, ?_⟩
    have hkey := hin.getKey_eq htop P.data
    cases x with
    | none => exact .inr ⟨rfl, hdata⟩
    | some e => exact .inl ⟨e, rfl, by simpa using hkey, hdata⟩
  · obtain ⟨P, -, -, -, hwalk, -, -, hle, -⟩ := walk_greatest t hv hH key
    exact ⟨P, hwalk, hle⟩
  · obtain ⟨P', hnext, hcase⟩ := pathNext_entry t hv h
    refine ⟨P', hnext, ?_⟩
    rcases hcase with ⟨rfl, hin, -⟩ | ⟨y, B', rfl, hin, hdata⟩
    · exact .inl ⟨rfl, by simpa using hin.getKey_eq htop P'.data⟩
    · exact .inr ⟨y, B', rfl, hin, by simpa using hin.getKey_eq htop P'.data, hdata⟩
  · obtain ⟨P', hnext, hin, hdata⟩ := pathNext_slot t hv h
    exact ⟨P', hnext, hin, by simpa using hin.getKey_eq htop P'.data, hdata⟩

theorem block_tree_search_two_leaves :
    Valid order4 ⟨true, 2, 0, 2 ^ 64 - 1⟩ twoLeaves.root ∧
    (⟨true, 2, 0, 2 ^ 64 - 1⟩ : Bounds).height ≤ maxDepth ∧
    (∀ key, ∃ P A x B, walk order4 twoLeaves key false = some P ∧
      PathIn order4 (Spot.top ⟨true, 2, 0, 2 ^ 64 - 1⟩ twoLeaves.root) P.entry A x B ∧
      WalkGe ((entries twoLeaves.root).map Prod.fst) key P.getKey ∧
      ((∃ e, x = some e ∧ P.getKey = e.1 ∧ P.data = e.2.read) ∨
        (x = none ∧ P.data = BlockMac.zero))) ∧
    (∀ key, ∃ P, walk order4 twoLeaves key true = some P ∧
      WalkLe ((entries twoLeaves.root).map Prod.fst) key P.getKey) ∧
    (∀ (P : Path) A x B,
      PathIn order4 (Spot.top ⟨true, 2, 0, 2 ^ 64 - 1⟩ twoLeaves.root) P.entry A (some x) B →
      ∃ P', pathNext order4 twoLeaves P = some P' ∧
        ((B = [] ∧ P'.getKey = 0) ∨
          ∃ y B', B = y :: B' ∧
            PathIn order4 (Spot.top ⟨true, 2, 0, 2 ^ 64 - 1⟩ twoLeaves.root) P'.entry (A ++ [x])
              (some y) B' ∧
            P'.getKey = y.1 ∧ P'.data = y.2.read)) ∧
    (∀ (P : Path) A y B,
      PathIn order4 (Spot.top ⟨true, 2, 0, 2 ^ 64 - 1⟩ twoLeaves.root) P.entry A none (y :: B) →
      ∃ P', pathNext order4 twoLeaves P = some P' ∧
        PathIn order4 (Spot.top ⟨true, 2, 0, 2 ^ 64 - 1⟩ twoLeaves.root) P'.entry A (some y) B ∧
        P'.getKey = y.1 ∧ P'.data = y.2.read) :=
  ⟨twoLeaves_valid, by decide, block_tree_search twoLeaves twoLeaves_valid (by decide)⟩

/-- A walk for `3` in `twoLeaves` stops at the empty insert slot after `2`
and reports the key `5`; `block_tree_path_next` then moves to the entry
with key `5` itself, not to the entry after it (key `6`). -/
theorem pathNext_after_slot_same_key :
    walk order4 twoLeaves 3 false = some ⟨[⟨0, 0, 5⟩, ⟨2, 2, 5⟩], BlockMac.zero⟩ ∧
    Path.getKey ⟨[⟨0, 0, 5⟩, ⟨2, 2, 5⟩], BlockMac.zero⟩ = 5 ∧
    pathNext order4 twoLeaves ⟨[⟨0, 0, 5⟩, ⟨2, 2, 5⟩], BlockMac.zero⟩ =
      some ⟨[⟨1, 5, 0⟩, ⟨0, 5, 5⟩], ⟨12, 0⟩⟩ ∧
    Path.getKey ⟨[⟨1, 5, 0⟩, ⟨0, 5, 5⟩], ⟨12, 0⟩⟩ = 5 ∧
    (entries twoLeaves.root).map Prod.fst = [1, 2, 5, 6] :=
  ⟨rfl, rfl, rfl, rfl, rfl⟩

end Search

end BlockTree
