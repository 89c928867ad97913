import Trusty.BlockTree.InsertSpec
import Trusty.BlockTree.Search

/-!
# A tree that is valid around one subtree

Removing an entry leaves a node one entry short of the minimum fill, which
`block_tree_node_merge` then repairs with a sibling, perhaps leaving the
parent one entry short in turn.  Between the steps the tree satisfies the
invariant everywhere but at one subtree:

* `Weak cfg bd n`: `n` satisfies `Valid`'s conditions at `bd`, except that a
  node other than the root may hold one key fewer than the minimum, and an
  internal node no key at all.
* `Around cfg bd n is bd' m`: the child indices `is` lead from `n` at `bd` to
  the subtree `m` at `bd'`, and every other subtree on the way is valid.
  `Around.valid` refills the hole with a valid subtree, `Around.put` puts
  another subtree there.

A removal also moves separators: `block_tree_update_key` sets the separator
before a subtree to the new first key of the leftmost leaf below it, which
raises the lower bound of every node on the way down to that leaf.
`Valid.hi_mono`, `Around.relo` and `Around.setSep` say that the tree stays
valid around the leaf when the separator is raised, but not past the
leaf's keys.
-/

namespace BlockTree

variable {cfg : Config}

/-! ## Fences -/

section Fence

variable {lo hi : Nat} {ks : List Nat}

/-- Only the first fence is the lower bound. -/
theorem fence_lo_of_pos (lo' : Nat) {j : Nat} (hj : 0 < j) :
    fence lo hi ks j = fence lo' hi ks j := by
  obtain ⟨i, rfl⟩ : ∃ i, j = i + 1 := ⟨j - 1, by omega⟩
  rfl

/-- Only the last fence is the upper bound. -/
theorem fence_hi_of_le (hi' : Nat) {j : Nat} (hj : j ≤ ks.length) :
    fence lo hi ks j = fence lo hi' ks j := by
  rcases Nat.eq_zero_or_pos j with rfl | hpos
  · rfl
  · rw [fence_of_pos hpos hj, fence_of_pos hpos hj]

/-- A key set: fence `i + 1` is the new key, the others stay. -/
theorem fence_set {i : Nat} (hil : i < ks.length) (k : Nat) (j : Nat) :
    fence lo hi (ks.set i k) j = if j = i + 1 then k else fence lo hi ks j := by
  have hlen : (ks.set i k).length = ks.length := List.length_set
  split_ifs with hj
  · subst hj
    rw [fence_succ _ (by omega), List.getElem_set_self]
  · rcases Nat.eq_zero_or_pos j with rfl | hpos
    · rfl
    rcases Nat.lt_or_ge ks.length j with hgt | hle
    · rcases Nat.lt_or_ge (ks.length + 1) j with hgt' | heq
      · rw [fence_of_gt (by omega), fence_of_gt (by omega)]
      · rw [fence_of_eq _ _ _ (by omega), fence_of_eq _ _ _ (by omega)]
    · rw [fence_of_pos hpos (by omega), fence_of_pos hpos hle, List.getElem_set_ne (by omega)]

theorem KeysOk.hi_mono (h : KeysOk lo hi ks) {hi' : Nat} (hhi : hi ≤ hi') : KeysOk lo hi' ks := by
  refine ⟨h.pos, ?_⟩
  have hs := h.sorted
  rw [List.pairwise_append] at hs ⊢
  refine ⟨hs.1, List.pairwise_singleton _ _, fun a ha b hb => ?_⟩
  rw [List.mem_singleton] at hb
  subst hb
  exact le_trans (hs.2.2 a ha hi (List.mem_singleton_self _)) hhi

/-- A lower bound raised, but not past the first key. -/
theorem KeysOk.relo (h : KeysOk lo hi ks) (hne : ks ≠ []) {lo' : Nat}
    (hle : lo' ≤ ks.head hne) : KeysOk lo' hi ks := by
  obtain ⟨k, ks', rfl⟩ := List.exists_cons_of_ne_nil hne
  obtain ⟨hk, -, h'⟩ := keysOk_cons.1 h
  exact keysOk_cons.2 ⟨hk, hle, h'⟩

/-- A key set between the fences around it. -/
theorem KeysOk.set (h : KeysOk lo hi ks) {i : Nat} (hil : i < ks.length) {k : Nat} (hk : 0 < k)
    (hlo : fence lo hi ks i ≤ k) (hhi : k ≤ fence lo hi ks (i + 2)) : KeysOk lo hi (ks.set i k) := by
  obtain ⟨hpos, hmono⟩ := keysOk_iff_fence.1 h
  refine keysOk_iff_fence.2 ⟨fun k' hk' => ?_, fun j hj => ?_⟩
  · rcases List.mem_or_eq_of_mem_set hk' with h' | rfl
    · exact hpos k' h'
    · exact hk
  · rw [List.length_set] at hj
    rw [fence_set hil, fence_set hil]
    split_ifs with h1 h2 h2
    · omega
    · subst h1
      exact hhi
    · obtain rfl : j = i := by omega
      exact hlo
    · exact hmono j hj

end Fence

/-! ## Raising an upper bound -/

/-- A valid subtree stays valid under a larger upper bound: only its last
fence changes. -/
theorem Valid.hi_mono {bd : Bounds} {n : Node} (hv : Valid cfg bd n) {hi' : Nat}
    (hhi : bd.hi ≤ hi') : Valid cfg { bd with hi := hi' } n := by
  induction hv generalizing hi' with
  | leaf ks ds hb hlen hcap hkeys hfirst hfill hheight =>
    exact .leaf ks ds hb hlen hcap (hkeys.hi_mono hhi) hfirst hfill hheight
  | @internal bd b ks cs hb hlen hcap hkeys hne hfill hheight hchild ih =>
    refine .internal ks cs hb hlen hcap (hkeys.hi_mono hhi) hne hfill hheight fun i hi => ?_
    rcases Nat.lt_or_ge i ks.length with hlt | hge
    · -- the children before the last keep their fences
      have hbd : ({ bd with hi := hi' } : Bounds).child ks i = bd.child ks i := by
        simp only [Bounds.child, fence_hi_of_le hi' (show i ≤ ks.length by omega),
          fence_hi_of_le hi' (show i + 1 ≤ ks.length by omega)]
      rw [hbd]
      exact hchild i hi
    · -- the last child takes the new upper bound
      obtain rfl : i = ks.length := by omega
      have hbd : ({ bd with hi := hi' } : Bounds).child ks ks.length =
          { bd.child ks ks.length with hi := hi' } := by
        simp only [Bounds.child, fence_hi_of_le hi' (le_refl ks.length), fence_length]
      rw [hbd]
      exact ih ks.length hi (by simp only [Bounds.child, fence_length]; exact hhi)

/-! ## Nodes one entry short -/

variable (cfg) in
/-- A node as a removal leaves it: `Valid`'s conditions at `bd`, except that a
node other than the root may hold one key fewer than the minimum, and an
internal node no key at all. -/
inductive Weak : Bounds → Node → Prop
  | leaf {bd : Bounds} {b : Nat} {ks : List Nat} {ds : List BlockMac}
      (h : LeafChain bd.lo bd.hi ks ds) (hb : b ≠ 0) (hcap : ks.length ≤ cfg.keyCountLeaf)
      (hfill : bd.root = false → cfg.minKeyCount true ≤ ks.length + 1) (hheight : bd.height = 1) :
      Weak bd (mkLeaf cfg b ks ds)
  | internal {bd : Bounds} {b : Nat} {ks : List Nat} {cs : List Node} (h : Chain cfg bd ks cs)
      (hb : b ≠ 0) (hcap : ks.length ≤ cfg.keyCountInternal)
      (hfill : bd.root = false → cfg.minKeyCount false ≤ ks.length + 1) (hheight : 2 ≤ bd.height) :
      Weak bd (mkInternal cfg b ks cs)

theorem Valid.weak {bd : Bounds} {n : Node} (hv : Valid cfg bd n) : Weak cfg bd n := by
  rcases hv.view with ⟨b, ks, ds, rfl, hl⟩ | ⟨b, ks, cs, rfl, hi⟩
  · exact .leaf hl.leafChain hl.hb hl.hcap (fun h => by have := hl.hfill h; omega) hl.hheight
  · exact .internal hi.chain hi.hb hi.hcap (fun h => by have := hi.hfill h; omega) hi.hheight

theorem Weak.block_ne_zero {bd : Bounds} {n : Node} (h : Weak cfg bd n) : n.block ≠ 0 := by
  cases h with
  | leaf _ hb => exact hb
  | internal _ hb => exact hb

/-! ## Around a subtree -/

/-- The keys an entry of a path records for its index `i` in a node with
used keys `ks`, where the node has them: `ks[i - 1]` before the child and
`ks[i]` after it. -/
def EntryOk (ks : List Nat) (e : PathEntry) : Prop :=
  (0 < e.index → e.prevKey = ks.getD (e.index - 1) 0) ∧
    (e.index < ks.length → e.nextKey = ks.getD e.index 0)

theorem entryOk_stepEntry (ks : List Nat) (i prev next : Nat) :
    EntryOk ks (stepEntry ks i prev next) := by
  refine ⟨fun h => ?_, fun h => ?_⟩
  · simp only [stepEntry] at h ⊢
    rw [if_pos h]
  · simp only [stepEntry] at h ⊢
    rw [List.getD_eq_getElem _ _ h, List.getD_eq_getElem _ _ h]

variable (cfg) in
/-- An internal node at `bd` that satisfies `Valid`'s conditions except,
perhaps, at its child `i`. -/
structure InternalAround (bd : Bounds) (b : Nat) (ks : List Nat) (cs : List Node) (i : Nat) :
    Prop where
  hb : b ≠ 0
  hlen : cs.length = ks.length + 1
  hcap : ks.length ≤ cfg.keyCountInternal
  hkeys : KeysOk bd.lo bd.hi ks
  hne : ks ≠ []
  hfill : bd.root = false → cfg.minKeyCount false ≤ ks.length
  hheight : 2 ≤ bd.height
  hchild : ∀ j (hj : j < cs.length), j ≠ i → Valid cfg (bd.child ks j) cs[j]

variable (cfg) in
/-- The path entries `es` lead from `n` at `bd` to the subtree `m` at `bd'`
(in a block), recording the keys around each step, and `n` is valid except,
perhaps, at `m`. -/
inductive Around : Bounds → Node → List PathEntry → Bounds → Node → Prop
  | here {bd : Bounds} {n : Node} : Around bd n [] bd n
  | down {bd : Bounds} {b : Nat} {ks : List Nat} {cs : List Node} {e : PathEntry}
      {es : List PathEntry} {bd' : Bounds} {m : Node} (h : InternalAround cfg bd b ks cs e.index)
      (hi : e.index < cs.length) (hc : cs[e.index].block ≠ 0) (he : EntryOk ks e)
      (hsub : Around (bd.child ks e.index) cs[e.index] es bd' m) :
      Around bd (mkInternal cfg b ks cs) (e :: es) bd' m

section Around

variable {bd bd' : Bounds} {n m : Node} {es : List PathEntry}

theorem InternalOk.around {b : Nat} {ks : List Nat} {cs : List Node}
    (h : InternalOk cfg bd b ks cs) (i : Nat) : InternalAround cfg bd b ks cs i :=
  ⟨h.hb, h.hlen, h.hcap, h.hkeys, h.hne, h.hfill, h.hheight, fun j hj _ => h.hchild j hj⟩

theorem InternalAround.internalOk {b : Nat} {ks : List Nat} {cs : List Node} {i : Nat}
    (h : InternalAround cfg bd b ks cs i) (hv : ∀ hi : i < cs.length, Valid cfg (bd.child ks i) cs[i]) :
    InternalOk cfg bd b ks cs := by
  refine ⟨h.hb, h.hlen, h.hcap, h.hkeys, h.hne, h.hfill, h.hheight, fun j hj => ?_⟩
  by_cases hji : j = i
  · subst hji
    exact hv hj
  · exact h.hchild j hj hji

theorem InternalAround.getChild {b : Nat} {ks : List Nat} {cs : List Node} {i : Nat}
    (h : InternalAround cfg bd b ks cs i) (hi : i < cs.length) (hc : cs[i].block ≠ 0) :
    BlockTree.getChild cfg (mkInternal cfg b ks cs) i = cs[i] :=
  getChild_mkInternal b ks cs i (by have := h.hlen; have := h.hcap; omega) hi hc

/-- A put below an internal node on the way is a put into its child. -/
theorem InternalAround.putAt_cons {b : Nat} {ks : List Nat} {cs : List Node} {i : Nat}
    (h : InternalAround cfg bd b ks cs i) (hi : i < cs.length) (hc : cs[i].block ≠ 0)
    (is : List Nat) (m' : Node) :
    putAt cfg (mkInternal cfg b ks cs) (i :: is) m' =
      mkInternal cfg b ks (cs.set i (putAt cfg cs[i] is m')) := by
  rw [putAt, h.getChild hi hc, setChild_mkInternal b ks cs i _ hi]

/-- A tree with a position at a subtree in a block is in a block. -/
theorem Around.block_ne_zero (h : Around cfg bd n es bd' m) (hm : m.block ≠ 0) : n.block ≠ 0 := by
  cases h with
  | here => exact hm
  | down hint => exact hint.hb

theorem Around.placed {n : Node} (h : Around cfg bd (shape n) es bd' m) (hm : m.block ≠ 0) :
    n.Placed := by
  intro hn
  have hs := h.block_ne_zero hm
  rw [block_shape, hn] at hs
  exact absurd rfl hs

theorem Around.eq_of_nil (h : Around cfg bd n [] bd' m) : bd' = bd ∧ m = n := by
  cases h
  exact ⟨rfl, rfl⟩

theorem Around.subtreeAt_eq (h : Around cfg bd n es bd' m) :
    subtreeAt cfg n (es.map PathEntry.index) = m := by
  induction h with
  | here => rfl
  | down h hi hc _ _ ih => rw [List.map_cons, subtreeAt, h.getChild hi hc, ih]

theorem Around.height_eq (h : Around cfg bd n es bd' m) : bd'.height + es.length = bd.height := by
  induction h with
  | here => rfl
  | down h _ _ _ _ ih =>
    have := h.hheight
    simp only [Bounds.child, List.length_cons] at ih ⊢
    omega

theorem Around.root_eq (h : Around cfg bd n es bd' m) : bd'.root = (bd.root && es.isEmpty) := by
  induction h with
  | here => simp
  | down _ _ _ _ _ ih => simpa [Bounds.child] using ih

/-- The bounds of a subtree are within those of the tree. -/
theorem Around.bounds_le (h : Around cfg bd n es bd' m) : bd.lo ≤ bd'.lo ∧ bd'.hi ≤ bd.hi := by
  induction h with
  | here => exact ⟨le_rfl, le_rfl⟩
  | @down bd b ks cs e es bd' m hint hi _ _ _ ih =>
    have hlen := hint.hlen
    have h1 := hint.hkeys.fence_mono (Nat.zero_le e.index) (by omega)
    have h2 := hint.hkeys.fence_mono (by omega : e.index + 1 ≤ ks.length + 1) le_rfl
    rw [fence_zero] at h1
    rw [fence_length] at h2
    simp only [Bounds.child] at ih
    exact ⟨le_trans h1 ih.1, le_trans ih.2 h2⟩

theorem Around.append {bd'' : Bounds} {k : Node} {fs : List PathEntry}
    (h1 : Around cfg bd n es bd' m) (h2 : Around cfg bd' m fs bd'' k) :
    Around cfg bd n (es ++ fs) bd'' k := by
  induction h1 with
  | here => exact h2
  | down h hi hc he _ ih => exact .down h hi hc he (ih h2)

theorem Around.split {bd'' : Bounds} {k : Node} {fs : List PathEntry}
    (h : Around cfg bd n (es ++ fs) bd'' k) :
    ∃ bd' m, Around cfg bd n es bd' m ∧ Around cfg bd' m fs bd'' k := by
  induction es generalizing bd n with
  | nil => exact ⟨bd, n, .here, h⟩
  | cons e es ih =>
    cases h with
    | down hint hi hc he hsub =>
      obtain ⟨bd', m, h1, h2⟩ := ih hsub
      exact ⟨bd', m, .down hint hi hc he h1, h2⟩

/-- The last step of a position: a child of an internal node on the way. -/
theorem Around.split_last {bd'' : Bounds} {k : Node} {e : PathEntry}
    (h : Around cfg bd n (es ++ [e]) bd'' k) :
    ∃ bd' b ks cs, Around cfg bd n es bd' (mkInternal cfg b ks cs) ∧
      InternalAround cfg bd' b ks cs e.index ∧ EntryOk ks e ∧ ∃ hi : e.index < cs.length,
        cs[e.index].block ≠ 0 ∧ k = cs[e.index] ∧ bd'' = bd'.child ks e.index := by
  obtain ⟨bd', m, h1, h2⟩ := h.split
  cases h2 with
  | down hint hi hc he hsub =>
    obtain ⟨rfl, rfl⟩ := hsub.eq_of_nil
    exact ⟨bd', _, _, _, h1, hint, he, hi, hc, rfl, rfl⟩

theorem Around.snoc {b : Nat} {ks : List Nat} {cs : List Node} {e : PathEntry}
    (h : Around cfg bd n es bd' (mkInternal cfg b ks cs))
    (hint : InternalAround cfg bd' b ks cs e.index) (hi : e.index < cs.length)
    (hc : cs[e.index].block ≠ 0) (he : EntryOk ks e) :
    Around cfg bd n (es ++ [e]) (bd'.child ks e.index) cs[e.index] :=
  h.append (.down hint hi hc he .here)

/-- Another subtree in a block may be put at the position. -/
theorem Around.put (h : Around cfg bd n es bd' m) {m' : Node} (hm' : m'.block ≠ 0) :
    Around cfg bd (putAt cfg n (es.map PathEntry.index) m') es bd' m' := by
  induction h with
  | here => exact .here
  | @down bd b ks cs e es bd' m hint hi hc he hsub ih =>
    have hput : (putAt cfg cs[e.index] (es.map PathEntry.index) m').block ≠ 0 := by
      cases es with
      | nil => exact hm'
      | cons f fs => rw [List.map_cons, block_putAt _ _ _ (List.cons_ne_nil _ _)]; exact hc
    have hint' : InternalAround cfg bd b ks
        (cs.set e.index (putAt cfg cs[e.index] (es.map PathEntry.index) m')) e.index :=
      ⟨hint.hb, by simpa using hint.hlen, hint.hcap, hint.hkeys, hint.hne, hint.hfill,
        hint.hheight, fun j hj hji => by
          rw [List.getElem_set_ne (Ne.symm hji)]
          exact hint.hchild j (by simpa using hj) hji⟩
    rw [List.map_cons, hint.putAt_cons hi hc]
    refine .down hint' (by simpa using hi) (by simpa using hput) he ?_
    simpa only [List.getElem_set_self] using ih

/-- A valid subtree at the position makes the whole tree valid. -/
theorem Around.valid (h : Around cfg bd n es bd' m) (hv : Valid cfg bd' m) : Valid cfg bd n := by
  induction h with
  | here => exact hv
  | down hint _ _ _ _ ih => exact (hint.internalOk fun _ => ih hv).valid

/-- The entries outside the position are the same whatever is put there. -/
theorem Around.entries_put (h : Around cfg bd n es bd' m) :
    ∃ pre post, entries n = pre ++ entries m ++ post ∧
      ∀ m', entries (putAt cfg n (es.map PathEntry.index) m') = pre ++ entries m' ++ post := by
  induction h with
  | here => exact ⟨[], [], by simp, fun m' => by simp [putAt]⟩
  | @down bd b ks cs e es bd' m hint hi hc _ hsub ih =>
    obtain ⟨pre, post, hm, hput⟩ := ih
    have hcs : cs = cs.set e.index cs[e.index] := (List.set_getElem_self hi).symm
    refine ⟨(cs.take e.index).flatMap entries ++ pre,
      post ++ (cs.drop (e.index + 1)).flatMap entries, ?_, fun m' => ?_⟩
    · rw [entries_mkInternal, hcs, flatMap_set _ _ _ _ hi, ← hcs, hm]
      simp only [List.append_assoc]
    · rw [List.map_cons, putAt, hint.getChild hi hc, setChild_mkInternal b ks cs _ _ hi,
        entries_mkInternal, flatMap_set _ _ _ _ hi, hput]
      simp only [List.append_assoc]

/-- A second put at a position replaces the first. -/
theorem Around.putAt_putAt (h : Around cfg bd n es bd' m) {m' m'' : Node} (hm' : m'.block ≠ 0) :
    putAt cfg (putAt cfg n (es.map PathEntry.index) m') (es.map PathEntry.index) m'' =
      putAt cfg n (es.map PathEntry.index) m'' := by
  induction h with
  | here => rfl
  | @down bd b ks cs e es bd' m hint hi hc _ hsub ih =>
    have hput : (putAt cfg cs[e.index] (es.map PathEntry.index) m').block ≠ 0 := by
      cases es with
      | nil => exact hm'
      | cons f fs => rw [List.map_cons, block_putAt _ _ _ (List.cons_ne_nil _ _)]; exact hc
    have hlen : (cs.set e.index (putAt cfg cs[e.index] (es.map PathEntry.index) m')).length ≤
        cfg.keyCountInternal + 1 := by
      have := hint.hlen; have := hint.hcap; simp; omega
    rw [List.map_cons, hint.putAt_cons hi hc, hint.putAt_cons hi hc, putAt,
      getChild_mkInternal b ks _ _ hlen (by simpa using hi) (by simpa using hput),
      List.getElem_set_self, ih, setChild_mkInternal b ks _ _ _ (by simpa using hi), List.set_set]

/-- Putting one level below a position is putting the changed node there. -/
theorem Around.putAt_snoc (h : Around cfg bd n es bd' m) (i : Nat) (c : Node) :
    putAt cfg n (es.map PathEntry.index ++ [i]) c =
      putAt cfg n (es.map PathEntry.index) (setChild m i c) := by
  rw [putAt_append, h.subtreeAt_eq]
  rfl

/-- A position in a tree is a position in its shape. -/
theorem Around.to_shape (h : Around cfg bd n es bd' m) : Around cfg bd (shape n) es bd' (shape m) := by
  induction h with
  | here => exact .here
  | @down bd b ks cs e es bd' m hint hi hc he hsub ih =>
    rw [shape_mkInternal]
    have hint' : InternalAround cfg bd (min b 1) ks (cs.map shape) e.index :=
      ⟨by have := hint.hb; omega, by simpa using hint.hlen, hint.hcap, hint.hkeys, hint.hne,
        hint.hfill, hint.hheight, fun j hj hji => by
          simpa using (hint.hchild j (by simpa using hj) hji).to_shape cfg⟩
    refine .down hint' (by simpa using hi) ?_ he (by simpa using ih)
    simp only [List.getElem_map, block_shape]
    omega

/-- A walk through a valid tree is a position around any of its subtrees. -/
theorem PathTo.around {s t : Spot} (h : PathTo cfg s es t) :
    Around cfg s.bd s.node es t.bd t.node := by
  induction h with
  | here => exact .here
  | @down es t b ks cs j hp hn hint hj ih =>
    have ih := ih
    rw [hn] at ih
    have hnode : (t.down ks cs j).node = cs[j] := by
      rw [Spot.down_node, List.getD_eq_getElem _ _ hj]
    rw [Spot.down_bd, hnode]
    exact ih.snoc (hint.around j) hj (hint.hchild j hj).block_ne_zero
      (entryOk_stepEntry ks j t.prev t.next)

end Around

/-! ## Raising a separator -/

section Sep

variable {bd bd' : Bounds} {n m : Node} {es fs : List PathEntry}

/-- The lower bound of a node open at its first child moved, but not past its
first key: only the bounds of the first child change. -/
theorem InternalAround.relo {b : Nat} {ks : List Nat} {cs : List Node} {i : Nat}
    (h : InternalAround cfg bd b ks cs i) (hi0 : i = 0) {k : Nat} (hk : k ≤ ks.head h.hne) :
    InternalAround cfg { bd with lo := k } b ks cs i := by
  refine ⟨h.hb, h.hlen, h.hcap, h.hkeys.relo h.hne hk, h.hne, h.hfill, h.hheight, fun j hj hji => ?_⟩
  have hbj : ({ bd with lo := k } : Bounds).child ks j = bd.child ks j := by
    simp only [Bounds.child, @fence_lo_of_pos k bd.hi ks bd.lo j (by omega),
      @fence_lo_of_pos k bd.hi ks bd.lo (j + 1) (by omega)]
  rw [hbj]
  exact h.hchild j hj hji

/-- Down a leftmost spine the lower bound is that of the top. -/
theorem Around.lo_eq_of_spine (h : Around cfg bd n fs bd' m) (hz : ∀ f ∈ fs, f.index = 0) :
    bd'.lo = bd.lo := by
  induction h with
  | here => rfl
  | @down bd b ks cs e es bd' m _ _ _ _ _ ih =>
    have he : e.index = 0 := hz e (List.mem_cons_self ..)
    rw [ih fun f hf => hz f (List.mem_cons_of_mem _ hf), Bounds.child, he, fence_zero]

/-- A lower bound raised down a leftmost spine, but not past the upper bound at
its end: only the first fence of each node changes. -/
theorem Around.relo (h : Around cfg bd n fs bd' m) (hz : ∀ f ∈ fs, f.index = 0) {k : Nat}
    (hlo : bd.lo ≤ k) (hhi : k ≤ bd'.hi) :
    Around cfg { bd with lo := k } n fs { bd' with lo := k } m := by
  induction h with
  | here => exact .here
  | @down bd b ks cs e es bd' m hint hi hc he hsub ih =>
    have he0 : e.index = 0 := hz e (List.mem_cons_self ..)
    have hbd : ({ bd with lo := k } : Bounds).child ks e.index = { bd.child ks e.index with lo := k } := by
      simp only [Bounds.child, he0, fence_zero, @fence_lo_of_pos k bd.hi ks bd.lo 1 Nat.zero_lt_one]
    have hsub' := ih (fun f hf => hz f (List.mem_cons_of_mem _ hf))
      (by simp only [Bounds.child, he0, fence_zero]; exact hlo) hhi
    -- the first key is the upper bound of the first child, above the end of the spine
    have hk0 : k ≤ ks.head hint.hne := by
      have hb := hsub.bounds_le
      have : (bd.child ks e.index).hi = ks.head hint.hne := by
        obtain ⟨k0, ks', hks⟩ := List.exists_cons_of_ne_nil hint.hne
        subst hks
        simp [Bounds.child, he0, fence]
      omega
    exact .down (hint.relo he0 hk0) hi hc he (hbd ▸ hsub')

/-- `block_tree_update_key` at the last step `e` that is not leftmost: the
separator before the subtree is raised to `k`, which is at most the upper
bound at the end of the leftmost spine below it.  The lower bound there
becomes `k`. -/
theorem Around.setSep {e : PathEntry} (h : Around cfg bd n (es ++ e :: fs) bd' m)
    (hj : 0 < e.index) (hz : ∀ f ∈ fs, f.index = 0) {k : Nat} (hfit : cfg.KeyFits k)
    (hlo : bd'.lo ≤ k) (hhi : k ≤ bd'.hi) :
    Around cfg bd
      (putAt cfg n (es.map PathEntry.index)
        (setKey cfg (subtreeAt cfg n (es.map PathEntry.index)) (e.index - 1) k))
      (es ++ { e with prevKey := k } :: fs) { bd' with lo := k } m := by
  obtain ⟨bdA, A, hA, hsub⟩ := h.split
  cases hsub with
  | @down _ b ks cs _ _ _ _ hint hi hc he hspine =>
  have hlen := hint.hlen
  set i := e.index with hidef
  have hil : i - 1 < ks.length := by omega
  have hlen' : (ks.set (i - 1) k).length = ks.length := List.length_set
  -- the old separator is the lower bound down the spine
  have hsep : bd'.lo = ks[i - 1] := by
    rw [hspine.lo_eq_of_spine hz, Bounds.child, ← @fence_succ bdA.lo bdA.hi ks (i - 1) hil,
      show i - 1 + 1 = i by omega]
  have hold : k ≥ fence bdA.lo bdA.hi ks i := by
    rw [← show i - 1 + 1 = i by omega, @fence_succ bdA.lo bdA.hi ks (i - 1) hil]
    exact hsep ▸ hlo
  have hhiA : k ≤ fence bdA.lo bdA.hi ks (i + 1) := le_trans hhi hspine.bounds_le.2
  have hpos : 0 < k := lt_of_lt_of_le (hint.hkeys.pos _ (List.getElem_mem hil)) (hsep ▸ hlo)
  have hks' : KeysOk bdA.lo bdA.hi (ks.set (i - 1) k) := by
    refine hint.hkeys.set hil hpos ?_ (by rw [show i - 1 + 2 = i + 1 by omega]; exact hhiA)
    exact le_trans (hint.hkeys.fence_mono (by omega) (by omega)) hold
  -- the children other than `i` keep their bounds, but for the one before, whose upper bound rises
  have hchild : ∀ j (hj : j < cs.length), j ≠ i →
      Valid cfg (bdA.child (ks.set (i - 1) k) j) cs[j] := by
    intro j hj hji
    by_cases hjp : j = i - 1
    · have hbd : bdA.child (ks.set (i - 1) k) j = { bdA.child ks j with hi := k } := by
        simp only [Bounds.child, fence_set hil, if_neg (show j ≠ i - 1 + 1 by omega),
          if_pos (show j + 1 = i - 1 + 1 by omega)]
      rw [hbd]
      exact (hint.hchild j hj hji).hi_mono (by simp only [Bounds.child]; rw [show j + 1 = i by omega]; exact hold)
    · have hbd : bdA.child (ks.set (i - 1) k) j = bdA.child ks j := by
        simp only [Bounds.child, fence_set hil, if_neg (show j ≠ i - 1 + 1 by omega),
          if_neg (show j + 1 ≠ i - 1 + 1 by omega)]
      rw [hbd]
      exact hint.hchild j hj hji
  have hint' : InternalAround cfg bdA b (ks.set (i - 1) k) cs i :=
    ⟨hint.hb, by rw [hlen']; exact hlen, by rw [hlen']; exact hint.hcap, hks',
      by simpa using hint.hne, by rw [hlen']; exact hint.hfill, hint.hheight, hchild⟩
  have he' : EntryOk (ks.set (i - 1) k) { e with prevKey := k } := by
    refine ⟨fun _ => ?_, fun h' => ?_⟩
    · rw [List.getD_eq_getElem _ _ (by rw [hlen']; exact hil), List.getElem_set_self]
    · change i < (ks.set (i - 1) k).length at h'
      change e.nextKey = (ks.set (i - 1) k).getD i 0
      rw [List.getD_eq_getElem _ _ h', List.getElem_set_ne (by omega),
        ← List.getD_eq_getElem _ 0 (by rw [hlen'] at h'; exact h')]
      exact he.2 (by rw [hlen'] at h'; exact h')
  -- below the separator the spine takes `k` as its lower bound
  have hbd : bdA.child (ks.set (i - 1) k) i = { bdA.child ks i with lo := k } := by
    simp only [Bounds.child, fence_set hil, if_pos (show i = i - 1 + 1 by omega),
      if_neg (show i + 1 ≠ i - 1 + 1 by omega)]
  have hspine' := hspine.relo hz (by rw [← hspine.lo_eq_of_spine hz]; exact hlo) hhi
  have hA' : Around cfg bdA (mkInternal cfg b (ks.set (i - 1) k) cs) ({ e with prevKey := k } :: fs)
      { bd' with lo := k } m := .down hint' hi hc he' (hbd ▸ hspine')
  have hbA : (mkInternal cfg b (ks.set (i - 1) k) cs).block ≠ 0 := hint.hb
  rw [hA.subtreeAt_eq, setKey_mkInternal b ks cs _ k hil, Config.keyBytes_of_fits hfit]
  exact (hA.put hbA).append hA'

/-- Raising a separator changes no entry. -/
theorem Around.entries_setSep {e : PathEntry} (h : Around cfg bd n (es ++ e :: fs) bd' m) (j k : Nat) :
    entries (putAt cfg n (es.map PathEntry.index)
      (setKey cfg (subtreeAt cfg n (es.map PathEntry.index)) j k)) = entries n := by
  obtain ⟨bdA, A, hA, hsub⟩ := h.split
  cases hsub with
  | down =>
    obtain ⟨pre, post, hn, hput⟩ := hA.entries_put
    rw [hput, hA.subtreeAt_eq, hn]
    rfl

end Sep

end BlockTree
