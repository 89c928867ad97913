import Trusty.BlockTree.Valid

/-!
# Positions in a tree

A position is the list of child indices from the root down, as in the
entries of a `block_tree_path`.  `subtreeAt n is` reads the subtree there the
way `nodeAt` does; `putAt n is m` replaces it, which is what
`block_tree_path_put_dirty` does to the tree (up to the blocks copy-on-write
moves nodes to).

`ValidAt cfg bd n is bd' m` says that `is` leads from the valid subtree `n` at
`bd` to the valid subtree `m` at `bd'`.

* `ValidAt.put`: a valid subtree put at a position in place of one with the
  same bounds gives a valid tree.
* `ValidAt.entries_put`: the entries outside the position do not change.
-/

namespace BlockTree

variable (cfg : Config)

/-- The subtree at the child indices `is`, read with `getChild`. -/
def subtreeAt (n : Node) : List Nat → Node
  | [] => n
  | i :: is => subtreeAt (getChild cfg n i) is

/-- `n` with the subtree at the child indices `is` replaced by `m`. -/
def putAt (n : Node) : List Nat → Node → Node
  | [], m => m
  | i :: is, m => setChild n i (putAt (getChild cfg n i) is m)

theorem nodeAt_eq_subtreeAt (n : Node) (es : List PathEntry) :
    nodeAt cfg n es = subtreeAt cfg n (es.map PathEntry.index) := by
  induction es generalizing n with
  | nil => rfl
  | cons e es ih => simp only [nodeAt, List.map_cons, subtreeAt, ih]

theorem subtreeAt_append (n : Node) (is js : List Nat) :
    subtreeAt cfg n (is ++ js) = subtreeAt cfg (subtreeAt cfg n is) js := by
  induction is generalizing n with
  | nil => rfl
  | cons i is ih => simp only [List.cons_append, subtreeAt, ih]

/-- Putting below a position is putting a changed node at that position. -/
theorem putAt_append (n : Node) (is js : List Nat) (m : Node) :
    putAt cfg n (is ++ js) m = putAt cfg n is (putAt cfg (subtreeAt cfg n is) js m) := by
  induction is generalizing n with
  | nil => rfl
  | cons i is ih => simp only [List.cons_append, putAt, subtreeAt, ih]

theorem shape_subtreeAt (n : Node) (is : List Nat) :
    shape (subtreeAt cfg n is) = subtreeAt cfg (shape n) is := by
  induction is generalizing n with
  | nil => rfl
  | cons i is ih => simp only [subtreeAt, ih, shape_getChild]

theorem shape_putAt (n : Node) (is : List Nat) (m : Node) :
    shape (putAt cfg n is m) = putAt cfg (shape n) is (shape m) := by
  induction is generalizing n with
  | nil => rfl
  | cons i is ih => simp only [putAt, shape_setChild, ih, shape_getChild]

/-! ## Valid nodes -/

section Valid

variable {cfg}

theorem Valid.block_ne_zero {bd : Bounds} {n : Node} (hv : Valid cfg bd n) : n.block ≠ 0 := by
  cases hv with
  | leaf _ _ hb => exact hb
  | internal _ _ hb => exact hb

theorem Valid.ne_empty {bd : Bounds} {n : Node} (hv : Valid cfg bd n) : n ≠ .empty := by
  intro h
  have := hv.block_ne_zero
  rw [h] at this
  exact this rfl

theorem getChild_mkInternal (b : Nat) (ks : List Nat) (cs : List Node) (i : Nat)
    (hcs : cs.length ≤ cfg.keyCountInternal + 1) (hi : i < cs.length) (hc : cs[i].block ≠ 0) :
    getChild cfg (mkInternal cfg b ks cs) i = cs[i] := by
  have hget : (Slots.pad Node.empty (cfg.keyCountInternal + 1) cs).getD i .empty = cs[i] := by
    simp only [Slots.pad, List.getD_eq_getElem?_getD, List.getElem?_append_left hi,
      List.getElem?_eq_getElem hi, Option.getD_some]
  simp only [getChild, mkInternal, Node.isLeaf, Config.keyCount, Node.children, hget,
    Bool.false_eq_true, if_false, hc]
  rw [if_pos (by omega)]

theorem setChild_mkInternal (b : Nat) (ks : List Nat) (cs : List Node) (i : Nat) (c : Node)
    (hi : i < cs.length) :
    setChild (mkInternal cfg b ks cs) i c = mkInternal cfg b ks (cs.set i c) := by
  simp only [setChild, mkInternal, Slots.pad, List.length_set,
    List.set_append_left _ _ hi]

/-- The child `i` of a valid internal node is the child it was built with. -/
theorem InternalOk.getChild {bd : Bounds} {b : Nat} {ks : List Nat} {cs : List Node}
    (h : InternalOk cfg bd b ks cs) (i : Nat) (hi : i < cs.length) :
    getChild cfg (mkInternal cfg b ks cs) i = cs[i] :=
  getChild_mkInternal b ks cs i (by have := h.hlen; have := h.hcap; omega) hi
    (h.hchild i hi).block_ne_zero

end Valid

/-! ## Valid positions -/

/-- The child indices `is` lead from the valid subtree `n` at `bd` to the
subtree `m` at `bd'`. -/
inductive ValidAt : Bounds → Node → List Nat → Bounds → Node → Prop
  | here {bd : Bounds} {n : Node} (hv : Valid cfg bd n) : ValidAt bd n [] bd n
  | down {bd : Bounds} {b : Nat} {ks : List Nat} {cs : List Node} {i : Nat} {is : List Nat}
      {bd' : Bounds} {m : Node} (h : InternalOk cfg bd b ks cs) (hi : i < cs.length)
      (hsub : ValidAt (bd.child ks i) cs[i] is bd' m) :
      ValidAt bd (mkInternal cfg b ks cs) (i :: is) bd' m

section ValidAt

variable {cfg}

theorem ValidAt.valid {bd bd' : Bounds} {n m : Node} {is : List Nat}
    (h : ValidAt cfg bd n is bd' m) : Valid cfg bd' m := by
  induction h with
  | here hv => exact hv
  | down _ _ _ ih => exact ih

theorem ValidAt.top {bd bd' : Bounds} {n m : Node} {is : List Nat}
    (h : ValidAt cfg bd n is bd' m) : Valid cfg bd n := by
  cases h with
  | here hv => exact hv
  | down h _ _ => exact h.valid

theorem ValidAt.subtreeAt_eq {bd bd' : Bounds} {n m : Node} {is : List Nat}
    (h : ValidAt cfg bd n is bd' m) : subtreeAt cfg n is = m := by
  induction h with
  | here => rfl
  | down h hi _ ih => rw [subtreeAt, h.getChild _ hi, ih]

/-- Below the root every subtree is a non-root, and its height is what is
left of the root's. -/
theorem ValidAt.height_eq {bd bd' : Bounds} {n m : Node} {is : List Nat}
    (h : ValidAt cfg bd n is bd' m) : bd'.height + is.length = bd.height := by
  induction h with
  | here => rfl
  | down h _ _ ih =>
    have := h.hheight
    simp only [Bounds.child, List.length_cons] at ih ⊢
    omega

theorem ValidAt.root_eq {bd bd' : Bounds} {n m : Node} {is : List Nat}
    (h : ValidAt cfg bd n is bd' m) : bd'.root = (bd.root && is.isEmpty) := by
  induction h with
  | here => simp
  | down _ _ _ ih => simpa [Bounds.child] using ih

theorem ValidAt.eq_of_nil {bd bd' : Bounds} {n m : Node} (h : ValidAt cfg bd n [] bd' m) :
    bd' = bd ∧ m = n := by
  cases h
  exact ⟨rfl, rfl⟩

theorem ValidAt.append {bd bd' bd'' : Bounds} {n m k : Node} {is js : List Nat}
    (h1 : ValidAt cfg bd n is bd' m) (h2 : ValidAt cfg bd' m js bd'' k) :
    ValidAt cfg bd n (is ++ js) bd'' k := by
  induction h1 with
  | here => exact h2
  | down h hi _ ih => exact .down h hi (ih h2)

theorem ValidAt.split {bd bd'' : Bounds} {n k : Node} {is js : List Nat}
    (h : ValidAt cfg bd n (is ++ js) bd'' k) :
    ∃ bd' m, ValidAt cfg bd n is bd' m ∧ ValidAt cfg bd' m js bd'' k := by
  induction is generalizing bd n with
  | nil => exact ⟨bd, n, .here h.top, h⟩
  | cons i is ih =>
    cases h with
    | down hint hi hsub =>
      obtain ⟨bd', m, h1, h2⟩ := ih hsub
      exact ⟨bd', m, .down hint hi h1, h2⟩

/-- The last step of a position: a child of a valid internal node. -/
theorem ValidAt.split_last {bd bd'' : Bounds} {n k : Node} {is : List Nat} {i : Nat}
    (h : ValidAt cfg bd n (is ++ [i]) bd'' k) :
    ∃ bd' b ks cs, ValidAt cfg bd n is bd' (mkInternal cfg b ks cs) ∧
      InternalOk cfg bd' b ks cs ∧ ∃ hi : i < cs.length, k = cs[i] ∧ bd'' = bd'.child ks i := by
  obtain ⟨bd', m, h1, h2⟩ := h.split
  cases h2 with
  | down hint hi hsub =>
    obtain ⟨rfl, rfl⟩ := hsub.eq_of_nil
    exact ⟨bd', _, _, _, h1, hint, hi, rfl, rfl⟩

/-- A valid subtree with the bounds of a position may be put there. -/
theorem ValidAt.put {bd bd' : Bounds} {n m m' : Node} {is : List Nat}
    (h : ValidAt cfg bd n is bd' m) (hv : Valid cfg bd' m') :
    ValidAt cfg bd (putAt cfg n is m') is bd' m' := by
  induction h with
  | here => exact .here hv
  | @down bd b ks cs i is bd' m hint hi hsub ih =>
    have hset := ih hv
    have hint' : InternalOk cfg bd b ks (cs.set i (putAt cfg cs[i] is m')) := by
      refine ⟨hint.hb, by simpa using hint.hlen, hint.hcap, hint.hkeys, hint.hne, hint.hfill,
        hint.hheight, fun j hj => ?_⟩
      rw [List.getElem_set]
      split_ifs with hij
      · subst hij; exact hset.top
      · exact hint.hchild j (by simpa using hj)
    rw [putAt, hint.getChild i hi, setChild_mkInternal b ks cs i _ hi]
    refine .down hint' (by simpa using hi) ?_
    simpa only [List.getElem_set_self] using hset

theorem block_setChild (n : Node) (i : Nat) (c : Node) : (setChild n i c).block = n.block := by
  cases n <;> rfl

theorem block_putAt (n : Node) (is : List Nat) (m : Node) (his : is ≠ []) :
    (putAt cfg n is m).block = n.block := by
  cases is with
  | nil => exact absurd rfl his
  | cons i is => exact block_setChild _ _ _

/-- What was put at a position is read back there. -/
theorem ValidAt.subtreeAt_putAt {bd bd' : Bounds} {n m : Node} {is : List Nat}
    (h : ValidAt cfg bd n is bd' m) {m' : Node} (hm' : m'.block ≠ 0) :
    subtreeAt cfg (putAt cfg n is m') is = m' := by
  induction h with
  | here => rfl
  | @down bd b ks cs i is bd' m hint hi hsub ih =>
    have hput : (putAt cfg cs[i] is m').block ≠ 0 := by
      by_cases his : is = []
      · subst his; exact hm'
      · rw [block_putAt _ _ _ his]; exact (hint.hchild i hi).block_ne_zero
    rw [putAt, hint.getChild i hi, setChild_mkInternal b ks cs i _ hi, subtreeAt,
      getChild_mkInternal b ks _ i (by have := hint.hlen; have := hint.hcap; simp; omega)
        (by simpa using hi) (by simpa using hput), List.getElem_set_self, ih]

/-- A second put at a position replaces the first. -/
theorem ValidAt.putAt_putAt {bd bd' : Bounds} {n m : Node} {is : List Nat}
    (h : ValidAt cfg bd n is bd' m) {m' m'' : Node} (hm' : m'.block ≠ 0) :
    putAt cfg (putAt cfg n is m') is m'' = putAt cfg n is m'' := by
  induction h with
  | here => rfl
  | @down bd b ks cs i is bd' m hint hi hsub ih =>
    have hput : (putAt cfg cs[i] is m').block ≠ 0 := by
      by_cases his : is = []
      · subst his; exact hm'
      · rw [block_putAt _ _ _ his]; exact (hint.hchild i hi).block_ne_zero
    have hlen : (cs.set i (putAt cfg cs[i] is m')).length ≤ cfg.keyCountInternal + 1 := by
      have := hint.hlen; have := hint.hcap; simp; omega
    have hput' : ∀ x, putAt cfg (mkInternal cfg b ks cs) (i :: is) x =
        mkInternal cfg b ks (cs.set i (putAt cfg cs[i] is x)) := fun x => by
      rw [putAt, hint.getChild i hi, setChild_mkInternal b ks cs i _ hi]
    rw [hput' m', hput' m'', putAt,
      getChild_mkInternal b ks _ i hlen (by simpa using hi) (by simpa using hput),
      List.getElem_set_self, ih, setChild_mkInternal b ks _ i _ (by simpa using hi), List.set_set]

/-- Putting one level below a position is putting the changed node there. -/
theorem ValidAt.putAt_snoc {bd bd' : Bounds} {n m : Node} {is : List Nat}
    (h : ValidAt cfg bd n is bd' m) (i : Nat) (c : Node) :
    putAt cfg n (is ++ [i]) c = putAt cfg n is (setChild m i c) := by
  rw [putAt_append, h.subtreeAt_eq]
  rfl

theorem Valid.lo_le_hi {bd : Bounds} {n : Node} (hv : Valid cfg bd n) : bd.lo ≤ bd.hi := by
  cases hv with
  | leaf _ _ _ _ _ hkeys => exact hkeys.lo_le_hi
  | internal _ _ _ _ _ hkeys => exact hkeys.lo_le_hi

/-- The bounds of a subtree are within those of the tree. -/
theorem ValidAt.bounds_le {bd bd' : Bounds} {n m : Node} {is : List Nat}
    (h : ValidAt cfg bd n is bd' m) : bd.lo ≤ bd'.lo ∧ bd'.hi ≤ bd.hi := by
  induction h with
  | here => exact ⟨le_rfl, le_rfl⟩
  | @down bd b ks cs i is bd' m hint hi hsub ih =>
    have hlen := hint.hlen
    have h1 := hint.hkeys.fence_mono (Nat.zero_le i) (by omega)
    have h2 := hint.hkeys.fence_mono (by omega : i + 1 ≤ ks.length + 1) le_rfl
    rw [fence_zero] at h1
    rw [fence_length] at h2
    simp only [Bounds.child] at ih
    exact ⟨le_trans h1 ih.1, le_trans ih.2 h2⟩

theorem flatMap_set {α β : Type} (l : List α) (i : Nat) (x : α) (f : α → List β)
    (hi : i < l.length) :
    (l.set i x).flatMap f = (l.take i).flatMap f ++ f x ++ (l.drop (i + 1)).flatMap f := by
  rw [List.set_eq_take_append_cons_drop, if_pos hi, List.flatMap_append, List.flatMap_cons,
    List.append_assoc]

/-- The entries outside a position are the same whatever is put there. -/
theorem ValidAt.entries_put {bd bd' : Bounds} {n m : Node} {is : List Nat}
    (h : ValidAt cfg bd n is bd' m) :
    ∃ pre post, entries n = pre ++ entries m ++ post ∧
      ∀ m', entries (putAt cfg n is m') = pre ++ entries m' ++ post := by
  induction h with
  | here => exact ⟨[], [], by simp, fun m' => by simp [putAt]⟩
  | @down bd b ks cs i is bd' m hint hi hsub ih =>
    obtain ⟨pre, post, hm, hput⟩ := ih
    have hcs : cs = cs.set i cs[i] := (List.set_getElem_self hi).symm
    refine ⟨(cs.take i).flatMap entries ++ pre, post ++ (cs.drop (i + 1)).flatMap entries, ?_,
      fun m' => ?_⟩
    · rw [entries_mkInternal, hcs, flatMap_set _ _ _ _ hi, ← hcs, hm]
      simp only [List.append_assoc]
    · rw [putAt, hint.getChild i hi, setChild_mkInternal b ks cs i _ hi, entries_mkInternal,
        flatMap_set _ _ _ _ hi, hput]
      simp only [List.append_assoc]

/-- A position in a tree is a position in its shape. -/
theorem ValidAt.to_shape {bd bd' : Bounds} {n m : Node} {is : List Nat}
    (h : ValidAt cfg bd n is bd' m) : ValidAt cfg bd (shape n) is bd' (shape m) := by
  induction h with
  | here hv => exact .here (hv.to_shape cfg)
  | @down bd b ks cs i is bd' m hint hi hsub ih =>
    rw [shape_mkInternal]
    have hint' : InternalOk cfg bd (min b 1) ks (cs.map shape) :=
      ⟨by have := hint.hb; omega, by simpa using hint.hlen, hint.hcap, hint.hkeys, hint.hne,
        hint.hfill, hint.hheight,
        fun j hj => by simpa using (hint.hchild j (by simpa using hj)).to_shape cfg⟩
    exact .down hint' (by simpa using hi) (by simpa using ih)

end ValidAt

end BlockTree
