import Trusty.BlockTree.RemoveSpec
import Trusty.BlockTree.FindSpec

/-!
# `block_tree_remove`

`remove` finds the entry (`findEntry`), checks that the path ends at a leaf
slot holding the key and the data block asked for, takes the entry out of
the leaf (`leafRemoveEntry`), raises the separator above the leaf if the
entry was its first (`updateKey`), puts the leaf back and merges it with a
sibling if it fell below the minimum fill (`nodeMerge`, with the cascade of
`RemoveSpec`).

* `removeLeaf_tail`: the leaf, one entry short, put back and merged if
  needed leaves a valid tree with the leaf's entries in place.
* `remove_ok`: on a valid tree, `block_tree_remove` of an entry the tree
  holds returns, and whatever it returns is the tree without one entry with
  that key and data block, valid, as high as before or one level lower
  (`RemoveDone`).
-/

namespace BlockTree

open OptionSpec

variable {cfg : Config}

/-! ## The leaf without the entry -/

section Leaf

/-- The entries of a leaf with the entry at slot `i` taken out. -/
theorem zip_eraseIdx (ks : List Nat) (ds : List BlockMac) (i : Nat) (hlen : ds.length = ks.length) :
    (ks.eraseIdx i).zip (ds.eraseIdx i) = (ks.zip ds).take i ++ (ks.zip ds).drop (i + 1) := by
  rw [List.eraseIdx_eq_take_drop_succ, List.eraseIdx_eq_take_drop_succ,
    List.zip_append (by simp [hlen])]
  simp only [List.zip_eq_zipWith, List.take_zipWith, List.drop_zipWith]

/-- A leaf's keys and data with slot `i` taken out lie between any lower
bound at most the keys left (their first one, if the bound is not `0`). -/
theorem LeafChain.eraseIdx {lo hi : Nat} {ks : List Nat} {ds : List BlockMac}
    (h : LeafChain lo hi ks ds) (i : Nat) {lo' : Nat} (hlo : ∀ k ∈ ks.eraseIdx i, lo' ≤ k)
    (hhi : lo' ≤ hi) (hfirst : lo' ≠ 0 → ∀ k ∈ (ks.eraseIdx i).head?, k = lo') :
    LeafChain lo' hi (ks.eraseIdx i) (ds.eraseIdx i) := by
  have hsub : List.Sublist (ks.eraseIdx i) ks := List.eraseIdx_sublist ks i
  refine ⟨by simp [List.length_eraseIdx, h.hlen], ⟨fun k hk => h.hkeys.pos k (hsub.subset hk), ?_⟩,
    hfirst⟩
  -- the keys left, then `hi`, stay in order, and `lo'` is below them all
  have hsorted : (ks ++ [hi]).Pairwise (· ≤ ·) := (List.pairwise_cons.mp h.hkeys.sorted).2
  refine List.pairwise_cons.mpr ⟨fun k hk => ?_, hsorted.sublist (hsub.append_right [hi])⟩
  rcases List.mem_append.mp hk with hk | hk
  · exact hlo k hk
  · rw [List.mem_singleton.mp hk]
    exact hhi

/-- The first entry taken out of a leaf whose second key then leads: the
keys left lie above that key, or above `0` on the tree's left edge. -/
theorem LeafChain.eraseIdx_zero {lo hi k0 k1 : Nat} {ks : List Nat} {ds : List BlockMac}
    (h : LeafChain lo hi (k0 :: k1 :: ks) ds) {lo' : Nat} (hlo' : lo' = k1 ∨ lo' = 0) :
    LeafChain lo' hi ((k0 :: k1 :: ks).eraseIdx 0) (ds.eraseIdx 0) := by
  have hk1 : k1 ≤ hi := (h.hkeys.mem_bounds (List.mem_cons_of_mem _ List.mem_cons_self)).2
  have hsorted : (k1 :: ks).Pairwise (· ≤ ·) :=
    (List.pairwise_cons.mp (List.pairwise_append.mp (List.pairwise_cons.mp h.hkeys.sorted).2).1).2
  rcases hlo' with rfl | rfl
  · refine h.eraseIdx 0 (fun k hk => ?_) hk1 (fun _ k hk => by simpa using hk.symm)
    rcases List.mem_cons.mp hk with rfl | hk
    · exact le_rfl
    · exact List.rel_of_pairwise_cons hsorted hk
  · exact h.eraseIdx 0 (fun k _ => Nat.zero_le k) (Nat.zero_le _) (fun h0 => absurd rfl h0)

/-- A leaf loses no key but the one at `i`: past the first slot, its first
key stays. -/
theorem head?_eraseIdx_of_pos {ks : List Nat} {i : Nat} (hi : 0 < i) :
    (ks.eraseIdx i).head? = ks.head? := by
  obtain ⟨j, rfl⟩ : ∃ j, i = j + 1 := ⟨i - 1, by omega⟩
  cases ks with
  | nil => rfl
  | cons k ks => rfl

theorem shape_leafRemoveEntry (n : Node) (i : Nat) :
    shape (leafRemoveEntry cfg n i) = leafRemoveEntry cfg (shape n) i := by
  rw [leafRemoveEntry, leafRemoveEntry, shape_nodeShiftDown]

end Leaf

/-! ## The path `findEntry` returns -/

section Found

variable {t : Tree} {bd : Bounds}

/-- A path that ends with the entry `e` below the steps `pre`. -/
theorem Path.last_eq {P : Path} {pre : List PathEntry} {e : PathEntry} (hP : P.entry = pre ++ [e]) :
    P.entry.length = pre.length + 1 ∧ P.entry.take (P.entry.length - 1) = pre ∧
      P.entry.getD (P.entry.length - 1) default = e := by
  have hlen : P.entry.length = pre.length + 1 := by simp [hP]
  refine ⟨hlen, ?_, ?_⟩
  · rw [hlen, Nat.add_sub_cancel, hP, List.take_left' rfl]
  · rw [hlen, Nat.add_sub_cancel, hP, List.getD_eq_getElem _ _ (by simp),
      List.getElem_append_right (by simp)]
    simp

/-- The check `block_tree_remove` makes on the path it found: the path ends
at a leaf, at a slot with `key` and the data block `data`. -/
theorem PathIn.remove_check {P : Path} {A B : List (Nat × BlockMac)} {x : Option (Nat × BlockMac)}
    (h : PathIn cfg (Spot.top bd t.root) P.entry A x B) {key : Nat} (hkey : key ≠ 0) (data : Nat) :
    ((nodeAt cfg t.root (P.entry.take (P.entry.length - 1))).isLeaf = true ∧
      getKey cfg (nodeAt cfg t.root (P.entry.take (P.entry.length - 1)))
        (P.entry.getD (P.entry.length - 1) default).index = key ∧
      ((nodeAt cfg t.root (P.entry.take (P.entry.length - 1))).data.getD
        (P.entry.getD (P.entry.length - 1) default).index .zero).block = data) ↔
    ∃ d, x = some (key, d) ∧ d.block = data := by
  obtain ⟨pre, u, b, ks, ds, i, hp, hn, hl, -, hP, -, rfl, -⟩ := h
  obtain ⟨-, htake, hlast⟩ := Path.last_eq hP
  have hnode : nodeAt cfg t.root pre = mkLeaf cfg b ks ds := hp.nodeAt_eq.trans hn
  have hdata : (mkLeaf cfg b ks ds).data.getD i .zero = ds.getD i .zero := by
    simp only [mkLeaf, Node.data, Slots.getD_pad]
  rw [htake, hlast, hnode, isLeaf_mkLeaf, getKey_mkLeaf _ _ _ hl.hcap]
  simp only [stepEntry, true_and]
  rw [hdata]
  constructor
  · rintro ⟨hk, hd⟩
    -- a used slot: `key` is not `0`
    have hi : i < ks.length := by
      by_contra hge
      rw [List.getD_eq_default _ _ (by omega)] at hk
      exact hkey hk.symm
    have hi' : i < ds.length := by rw [hl.hlen]; exact hi
    refine ⟨ds[i], ?_, by rwa [List.getD_eq_getElem _ _ hi'] at hd⟩
    rw [List.getElem?_eq_getElem (by simp [hl.hlen, hi]), List.getElem_zip,
      ← List.getD_eq_getElem _ 0 hi, hk]
  · rintro ⟨d, hx, hd⟩
    have hz : i < (ks.zip ds).length := by
      by_contra hge
      rw [List.getElem?_eq_none (by omega)] at hx
      cases hx
    have hi : i < ks.length := by simpa [hl.hlen] using hz
    have hi' : i < ds.length := by rw [hl.hlen]; exact hi
    rw [List.getElem?_eq_getElem hz, List.getElem_zip, Option.some.injEq, Prod.mk.injEq] at hx
    exact ⟨by rw [List.getD_eq_getElem _ _ hi, hx.1], by rw [List.getD_eq_getElem _ _ hi', hx.2, hd]⟩

/-- `findEntry` as the first step of `block_tree_remove`: it fails only if
the tree does not hold the entry, and returns a path to a slot, one holding
the entry when the tree does. -/
theorem findEntry_ok (hv : Valid cfg bd t.root) (hH : bd.height ≤ maxDepth) (key data : Nat) :
    Ok (0 < data ∧ ∃ A d B, entries t.root = A ++ (key, d) :: B ∧ d.block = data)
      (fun P => (∃ A x B, PathIn cfg (Spot.top bd t.root) P.entry A x B) ∧
        ((0 < data ∧ ∃ A d B, entries t.root = A ++ (key, d) :: B ∧ d.block = data) →
          ∃ A e B, PathIn cfg (Spot.top bd t.root) P.entry A (some e) B ∧ e.1 = key ∧
            e.2.block = data))
      (findEntry cfg t key data) := by
  cases hfind : findEntry cfg t key data with
  | none =>
    rintro ⟨hd, A, d, B, hE, hdb⟩
    obtain ⟨P, -, -, -, hsome, -⟩ := findEntry_some hv hH (by omega) hE hdb
    rw [hfind] at hsome
    cases hsome
  | some P =>
    refine ⟨findEntry_slot hv hH key data hfind, ?_⟩
    rintro ⟨hd, A, d, B, hE, hdb⟩
    obtain ⟨P', A', e, B', hsome, hin, he⟩ := findEntry_some hv hH (by omega) hE hdb
    rw [hfind, Option.some.injEq] at hsome
    exact ⟨A', e, B', hsome ▸ hin, he⟩

end Found

/-! ## Putting the leaf back -/

section Tail

variable {τ : Type} {ops : TrOps τ} {bc : Nat}

variable (cfg) in
/-- What `block_tree_remove` leaves: the tree of `MergeDone` with one entry
with `key` and the data block `data` taken out. -/
def RemoveDone (bc H hi : Nat) (t : Tree) (key data : Nat) (t' : Tree) : Prop :=
  ∃ A d B, entries t.root = A ++ (key, d) :: B ∧ d.block = data ∧
    MergeDone cfg bc H hi t (A ++ B) t'

/-- The end of `block_tree_remove`: the leaf, one entry short, put back at
the end of the first `count - 1` steps, and merged with a sibling if it is
below the minimum fill; else the tree is valid as it is. -/
theorem removeLeaf_tail (hal : ops.AllocIn bc) (hidx : cfg.IndexFits) {H hi : Nat}
    (hhi : hi < 2 ^ (8 * cfg.keySize)) {t t1 : Tree} (tr1 : τ) (q : Path) {count : Nat}
    (node : Node) (needMerge : Bool) {bd : Bounds} {L : Node} (hlen : count - 1 ≤ q.entry.length)
    (hA : Around cfg ⟨true, H, 0, hi⟩ (shape t1.root) (q.entry.take (count - 1)) bd L)
    (hL : L.block ≠ 0) (hw : Weak cfg bd (shape node)) (hleaf : node.isLeaf = true)
    (hmerge : needMerge = true → 2 ≤ count ∧ belowMinFull cfg node = true)
    (hvalid : needMerge = false → bd.root = false → belowMinFull cfg node = false)
    (hflags : t1.flags = t.flags) (hbr1 : BlocksBelow bc t1.root) (hbN : BlocksBelow bc node) :
    Ok (Runs ops t)
      (fun r => MergeDone cfg bc H hi t
        (entries (putAt cfg (shape t1.root) (q.indices (count - 1)) (shape node))) r.2)
      (do
        let x ← pathPutDirty ops cfg tr1 t1 q (count - 1) node
        if needMerge = true then
          nodeMerge ops cfg (fun tr t p => removeInternal ops cfg tr t p (count - 1)) x.1 x.2 q count
        else pure (x.1, x.2)) := by
  refine Ok.bind (Ok.weaken (pathPutDirty_ok ops cfg hal q (count - 1) tr1 t1 node hlen
    (hA.placed hL)) (runs_congr hflags).2) (fun r2 hr2 => ?_)
  obtain ⟨hflags2, hshape2, hblocks2⟩ := hr2
  have hflags2' : r2.2.flags = t.flags := hflags2.trans hflags
  have hbr2 : BlocksBelow bc r2.2.root := hblocks2 hbr1 hbN
  have hA2 : Around cfg ⟨true, H, 0, hi⟩ (shape r2.2.root) (q.entry.take (count - 1)) bd
      (shape node) := by
    rw [hshape2, Path.indices]
    exact hA.put hw.block_ne_zero
  cases needMerge with
  | true =>
    -- below the minimum fill: the cascade takes over
    obtain ⟨hc, hbelow⟩ := hmerge rfl
    have hready : MergeReady cfg bc H hi r2.2 q count :=
      MergeReady.of_around hc hlen hbr2 hA2 hw (by rw [belowMinFull_shape]; exact hbelow)
    rw [if_pos rfl]
    refine Ok.weaken (Ok.mono (nodeMerge_ok hal hidx hhi _
      (fun tr t path h => removeInternal_ok hal hidx hhi (count - 1) tr t path h) r2.1 hready)
      fun r hr => ?_) (runs_congr hflags2').2
    obtain ⟨hf, hb, hH, hE⟩ := hr
    exact ⟨hf.trans hflags2', hb, hH, by rw [hE, ← entries_shape, hshape2]⟩
  | false =>
    rw [if_neg Bool.false_ne_true]
    refine Ok.pure (mergeDone_of_shape hflags2' hbr2 hshape2 ⟨le_rfl, by omega⟩ ?_ rfl)
    refine (hA.put hw.block_ne_zero).valid (hw.valid (fun hr => ?_) (fun h => ?_))
    · rw [belowMinFull_shape]
      exact hvalid rfl hr
    · rw [isLeaf_shape, hleaf] at h
      cases h

/-- The entries left: those of the tree around the leaf, with the leaf's
entry at `i` taken out. -/
theorem removeDone_of_put {H hi : Nat} {t t' : Tree} {pre post : List (Nat × BlockMac)}
    {ks : List Nat} {ds : List BlockMac} {i key data : Nat} {d : BlockMac}
    (h0 : entries t.root = pre ++ ks.zip ds ++ post) (hx : (ks.zip ds)[i]? = some (key, d))
    (hd : d.block = data) (hlen : ds.length = ks.length)
    (hM : MergeDone cfg bc H hi t (pre ++ (ks.eraseIdx i).zip (ds.eraseIdx i) ++ post) t') :
    RemoveDone cfg bc H hi t key data t' := by
  refine ⟨pre ++ (ks.zip ds).take i, d, (ks.zip ds).drop (i + 1) ++ post, ?_, hd, ?_⟩
  · have hz : i < (ks.zip ds).length := by
      by_contra hge
      rw [List.getElem?_eq_none (by omega)] at hx
      cases hx
    have hL : ks.zip ds = (ks.zip ds).take i ++ (key, d) :: (ks.zip ds).drop (i + 1) := by
      rw [List.getElem?_eq_getElem hz, Option.some.injEq] at hx
      rw [← hx, ← List.drop_eq_getElem_cons hz, List.take_append_drop]
    rw [h0]
    conv_lhs => rw [hL]
    simp only [List.append_assoc, List.cons_append]
  · rw [zip_eraseIdx ks ds i hlen] at hM
    simpa only [List.append_assoc] using hM

/-- The end of `block_tree_remove` with the leaf known: the tree left is the
old one without the entry at slot `i` of the leaf. -/
theorem removeLeaf_done (hal : ops.AllocIn bc) (hidx : cfg.IndexFits) {H hi : Nat}
    (hhi : hi < 2 ^ (8 * cfg.keySize)) {t t1 : Tree} (tr1 : τ) (q : Path) {count : Nat}
    (node : Node) (needMerge : Bool) {bd : Bounds} {b : Nat} {ks : List Nat} {ds : List BlockMac}
    {i key data : Nat} {d : BlockMac} (hlen : count - 1 ≤ q.entry.length)
    (hA : Around cfg ⟨true, H, 0, hi⟩ (shape t1.root) (q.entry.take (count - 1)) bd
      (mkLeaf cfg b ks ds))
    (hb : b ≠ 0) (hpos : ∀ k ∈ ks, 0 < k) (hlenD : ds.length = ks.length)
    (hN : shape node = mkLeaf cfg b (ks.eraseIdx i) (ds.eraseIdx i)) (hw : Weak cfg bd (shape node))
    (hmerge : needMerge = true → 2 ≤ count ∧ belowMinFull cfg node = true)
    (hvalid : needMerge = false → bd.root = false → belowMinFull cfg node = false)
    (hflags : t1.flags = t.flags) (hbr1 : BlocksBelow bc t1.root) (hbN : BlocksBelow bc node)
    (hent : entries t1.root = entries t.root) (hx : (ks.zip ds)[i]? = some (key, d))
    (hd : d.block = data) :
    Ok (Runs ops t) (fun r => RemoveDone cfg bc H hi t key data r.2)
      (do
        let x ← pathPutDirty ops cfg tr1 t1 q (count - 1) node
        if needMerge = true then
          nodeMerge ops cfg (fun tr t p => removeInternal ops cfg tr t p (count - 1)) x.1 x.2 q count
        else pure (x.1, x.2)) := by
  obtain ⟨epre, epost, hE0, hput⟩ := hA.entries_put
  have hsub : List.Sublist (ks.eraseIdx i) ks := List.eraseIdx_sublist ks i
  have hleaf : node.isLeaf = true := by rw [← isLeaf_shape, hN]; rfl
  refine (removeLeaf_tail hal hidx hhi tr1 q node needMerge hlen hA hb hw hleaf hmerge hvalid hflags
    hbr1 hbN).mono fun r hr => ?_
  rw [Path.indices, hput, hN, entries_mkLeaf cfg _ _ _ (fun k hk => hpos k (hsub.subset hk))
    (by simp [List.length_eraseIdx, hlenD])] at hr
  refine removeDone_of_put ?_ hx hd hlenD hr
  rw [← hent, ← entries_shape, hE0, entries_mkLeaf cfg _ _ _ hpos hlenD]

end Tail

/-! ## `block_tree_remove` -/

section Remove

variable {τ : Type} {ops : TrOps τ} {bc : Nat}

/-- `block_tree_remove` on a valid tree of at most `BLOCK_TREE_MAX_DEPTH`
levels: if the tree holds an entry with `key` and the data block `data` (not
`0`), only a failing transaction makes it fail; and whatever it returns is the
tree without one such entry, in the same order, valid and as high as before
or one level lower, with the copy-on-write flags and the blocks below the
allocator's bound kept. -/
theorem remove_ok (hal : ops.AllocIn bc) (hidx : cfg.IndexFits) (tr : τ) (t : Tree) {H hi : Nat}
    (hv : Valid cfg ⟨true, H, 0, hi⟩ t.root) (hH : H ≤ maxDepth) (hhi : hi < 2 ^ (8 * cfg.keySize))
    (hbr : BlocksBelow bc t.root) (key data : Nat) :
    Ok (Runs ops t ∧ 0 < data ∧ ∃ A d B, entries t.root = A ++ (key, d) :: B ∧ d.block = data)
      (fun r => RemoveDone cfg bc H hi t key data r.2) (remove ops cfg tr t key data) := by
  simp only [remove]
  refine Ok.ite (fun hguard => ?_) (fun hguard => ?_)
  · -- a tree holding the entry has a root, and the entry a key
    refine Ok.bind (P := fun _ => False) (Ok.none ?_) (fun _ h => h.elim)
    rintro ⟨-, hdata, A, d, B, hE, -⟩
    have hkey := (hv.entries_bounds (key, d) (by rw [hE]; simp)).1
    rcases hguard with h0 | h0 | h0
    · exact hv.block_ne_zero h0
    · exact absurd h0 (Nat.pos_iff_ne_zero.mp hkey)
    · omega
  have hkey : key ≠ 0 := fun h => hguard (.inr (.inl h))
  refine Ok.bind (Ok.weaken (findEntry_ok hv hH key data) (fun h => h.2)) (fun P hP => ?_)
  obtain ⟨⟨A, x, B, hin⟩, hfound⟩ := hP
  refine Ok.ite (fun hcheck => ?_) (fun hcheck => ?_)
  · -- a tree holding the entry passes the check at the path found
    refine Ok.bind (P := fun _ => False) (Ok.none fun hs => ?_) (fun _ h => h.elim)
    obtain ⟨A', e, B', hin', hk, hd⟩ := hfound hs.2
    obtain ⟨h1, h2, h3⟩ := (hin'.remove_check hkey data).mpr ⟨e.2, by rw [← hk], hd⟩
    rw [h1, h2, h3] at hcheck
    simp at hcheck
  obtain ⟨d, rfl, hd⟩ := (hin.remove_check hkey data).mp (by
    simpa only [not_or, Bool.not_eq_true', Bool.not_eq_false, ne_eq, not_not] using hcheck)
  -- the entry is at slot `i` of the leaf at the end of the steps `pre`
  obtain ⟨pre, u, b, ks, ds, i, hp, hn, hl, -, hP, -, hx, -⟩ := hin
  obtain ⟨hcount, htake, hlast⟩ := Path.last_eq hP
  have hidx' : (P.entry.getD (P.entry.length - 1) default).index = i := by rw [hlast]; rfl
  have hnode : nodeAt cfg t.root pre = mkLeaf cfg b ks ds := hp.nodeAt_eq.trans hn
  rw [htake, hidx', hnode]
  have hz : i < (ks.zip ds).length := by
    by_contra hge
    rw [List.getElem?_eq_none (by omega)] at hx
    cases hx
  have hik : i < ks.length := by simpa [hl.hlen] using hz
  have hcap := hl.hcap
  have hsub : List.Sublist (ks.eraseIdx i) ks := List.eraseIdx_sublist ks i
  have hlenE : (ks.eraseIdx i).length + 1 = ks.length := by
    simp only [List.length_eraseIdx, if_pos hik]
    omega
  have hcap' : (ks.eraseIdx i).length ≤ cfg.keyCountLeaf := by omega
  have hb1 : min b 1 ≠ 0 := by have := hl.hb; omega
  have hA0 : Around cfg ⟨true, H, 0, hi⟩ (shape t.root) pre u.bd (mkLeaf cfg (min b 1) ks ds) := by
    have := hp.around.to_shape
    rwa [hn, shape_mkLeaf] at this
  have hplaced : t.root.Placed := hA0.placed hb1
  -- from here on only the transaction can fail
  refine Ok.weaken (s := Runs ops t) ?_ And.left
  refine Ok.bind (blockDirty_ok ops hal tr t _ _) (fun r1 hr1 => ?_)
  obtain ⟨⟨hroot1, hflags1⟩, hmoved1⟩ := hr1
  -- the leaf without the entry, as a shape
  have hN : shape (leafRemoveEntry cfg r1.2.2 i) =
      mkLeaf cfg (min b 1) (ks.eraseIdx i) (ds.eraseIdx i) := by
    rw [shape_leafRemoveEntry, hmoved1.shape (fun h0 => absurd h0 hl.hb), shape_mkLeaf,
      leafRemoveEntry_mkLeaf _ ks ds i hik hcap hl.hlen]
  have hk0 : getKey cfg (leafRemoveEntry cfg r1.2.2 i) 0 = (ks.eraseIdx i).getD 0 0 := by
    rw [← getKey_shape, hN, getKey_mkLeaf _ _ _ hcap']
  have hbN : BlocksBelow bc (leafRemoveEntry cfg r1.2.2 i) :=
    (hmoved1.blocksBelow (hnode ▸ hbr.nodeAt cfg pre)).nodeShiftDown cfg _ _ _
  have hWeak : ∀ bd' : Bounds, LeafChain bd'.lo bd'.hi (ks.eraseIdx i) (ds.eraseIdx i) →
      (bd'.root = false → cfg.minKeyCount true ≤ (ks.eraseIdx i).length + 1) → bd'.height = 1 →
      Weak cfg bd' (shape (leafRemoveEntry cfg r1.2.2 i)) := by
    intro bd' hc hf hh
    rw [hN]
    exact .leaf hc hb1 hcap' hf hh
  have hlo : ∀ k ∈ ks.eraseIdx i, u.bd.lo ≤ k := fun k hk => (hl.hkeys.mem_bounds (hsub.subset hk)).1
  have hent1 : entries r1.2.1.root = entries t.root := by rw [hroot1]
  have hbr1 : BlocksBelow bc r1.2.1.root := by rw [hroot1]; exact hbr
  have hA1 : Around cfg ⟨true, H, 0, hi⟩ (shape r1.2.1.root) (P.entry.take (P.entry.length - 1)) u.bd
      (mkLeaf cfg (min b 1) ks ds) := by
    rw [hroot1, htake]
    exact hA0
  refine Ok.ite (fun hc => ?_) (fun hc => ?_)
  · -- a leaf below the root: at least the minimum fill before, one entry short now
    have hroot : u.bd.root = false := by
      have := hA0.root_eq
      rw [this]
      cases pre with
      | nil => simp at hcount; omega
      | cons e es => rfl
    have hfill : cfg.minKeyCount true ≤ (ks.eraseIdx i).length + 1 := by
      rw [hlenE]
      exact hl.hfill hroot
    refine Ok.ite (fun hhack => ?_) (fun hhack => ?_)
    · -- the first entry went and a key follows: it becomes the separator above
      obtain ⟨rfl, hk⟩ := hhack
      rw [hk0] at hk
      rcases ks with _ | ⟨k0, _ | ⟨k1, ks''⟩⟩
      · simp at hik
      · simp at hk
      have hk1 : getKey cfg (leafRemoveEntry cfg r1.2.2 0) 0 = k1 := by rw [hk0]; rfl
      have hmem : k1 ∈ k0 :: k1 :: ks'' := List.mem_cons_of_mem _ List.mem_cons_self
      have hbd := hl.hkeys.mem_bounds hmem
      refine Ok.bind (Ok.weaken (updateKey_around hal P (P.entry.length - 1) r1.1 r1.2.1 (by omega)
        (by rw [hroot1]; exact hplaced) hA1 (k := getKey cfg (leafRemoveEntry cfg r1.2.2 0) 0)
        (by rw [hk1]; exact lt_of_le_of_lt (hbd.2.trans hA0.bounds_le.2) hhi)
        (by rw [hk1]; exact hbd.1) (by rw [hk1]; exact hbd.2)) (runs_congr hflags1).2)
        (fun r2 hr2 => ?_)
      obtain ⟨hflags2, hblocks2, hmap2, hent2, lo', hlo', hA2⟩ := hr2
      have hlen2 : r2.2.2.entry.length = P.entry.length := Path.length_of_map_index hmap2
      -- the leaf's new lower bound is its new first key, or `0` on the left edge
      have hchain : LeafChain lo' u.bd.hi ((k0 :: k1 :: ks'').eraseIdx 0) (ds.eraseIdx 0) :=
        hl.leafChain.eraseIdx_zero (by rwa [hk1] at hlo')
      refine removeLeaf_done hal hidx hhi r2.1 r2.2.2 _ _ (by omega) hA2 hb1 hl.hkeys.pos hl.hlen hN
        (hWeak _ hchain (fun _ => hfill) hl.hheight) (fun h => ⟨by omega, h⟩) (fun h _ => h)
        (hflags2.trans hflags1) (hblocks2 hbr1) hbN (hent2.trans hent1) (by rw [hx]) hd
    · -- the first key stays, or the leaf is empty: the bounds stay
      refine removeLeaf_done hal hidx hhi r1.1 P _ _ (by omega) hA1 hb1 hl.hkeys.pos hl.hlen hN
        (hWeak u.bd (hl.leafChain.eraseIdx i hlo hl.hkeys.lo_le_hi fun hlo0 => ?_) (fun _ => hfill)
          hl.hheight) (fun h => ⟨by omega, h⟩) (fun h _ => h) hflags1 hbr1 hbN hent1
        (by rw [hx]) hd
      rcases Nat.eq_zero_or_pos i with h0 | hpos
      · -- the first entry went, and no key came after it
        have hnil : ks.eraseIdx i = [] := by
          have hk : (ks.eraseIdx i).getD 0 0 = 0 := by
            rw [← hk0]
            by_contra hk
            exact hhack ⟨h0, hk⟩
          cases hks : ks.eraseIdx i with
          | nil => rfl
          | cons k ks' =>
            rw [hks] at hk
            exact absurd hk (Nat.pos_iff_ne_zero.mp
              (hl.hkeys.pos k (hsub.subset (by rw [hks]; exact List.mem_cons_self))))
        rw [hnil]
        simp
      · rw [head?_eraseIdx_of_pos hpos]
        exact hl.hfirst hlo0
  · -- the root leaf
    have hpre : pre = [] := List.eq_nil_of_length_eq_zero (by omega)
    subst hpre
    have hu : u = Spot.top ⟨true, H, 0, hi⟩ t.root := hp.nil_inv
    subst hu
    refine removeLeaf_done hal hidx hhi r1.1 P _ false (by omega) hA1 hb1 hl.hkeys.pos hl.hlen hN
      (hWeak _ (hl.leafChain.eraseIdx i hlo hl.hkeys.lo_le_hi fun h => absurd rfl h)
        (fun h => Bool.noConfusion h) hl.hheight) (fun h => absurd h Bool.false_ne_true)
      (fun _ h => Bool.noConfusion h) hflags1 hbr1 hbN hent1 (by rw [hx]) hd

/-- A root leaf with the entries `(3, 7)` and `(5, 8)`, keys of four
bytes. -/
def twoEntryLeaf : Tree := ⟨mkLeaf fourSlots 1 [3, 5] [⟨7, 0⟩, ⟨8, 0⟩], false, false, false⟩

theorem twoEntryLeaf_valid : Valid fourSlots ⟨true, 1, 0, 2 ^ 32 - 1⟩ twoEntryLeaf.root :=
  Valid.leaf [3, 5] [⟨7, 0⟩, ⟨8, 0⟩] (by decide) rfl (by decide) ⟨by decide, by decide⟩
    (fun h => absurd rfl h) (fun h => Bool.noConfusion h) rfl

/-- An internal root over two leaves, each at the minimum fill: `(2, 7)` and
`(4, 8)` left of the separator `6`, `(6, 9)` and `(8, 10)` right of it. -/
def twoLeafTree : Tree :=
  ⟨mkInternal fourSlots 1 [6] [mkLeaf fourSlots 2 [2, 4] [⟨7, 0⟩, ⟨8, 0⟩],
    mkLeaf fourSlots 3 [6, 8] [⟨9, 0⟩, ⟨10, 0⟩]], false, false, false⟩

theorem twoLeafTree_valid : Valid fourSlots ⟨true, 2, 0, 2 ^ 32 - 1⟩ twoLeafTree.root := by
  refine Valid.internal [6] _ (by decide) rfl (by decide) ⟨by decide, by decide⟩ (by simp)
    (fun h => Bool.noConfusion h) le_rfl fun i hi => ?_
  -- the leaves lie in [0, 6] and [6, 2^32 - 1]
  match i, hi with
  | 0, _ =>
    exact Valid.leaf [2, 4] [⟨7, 0⟩, ⟨8, 0⟩] (by decide) rfl (by decide) ⟨by decide, by decide⟩
      (fun h => absurd rfl h) (fun _ => le_rfl) rfl
  | 1, _ =>
    exact Valid.leaf [6, 8] [⟨9, 0⟩, ⟨10, 0⟩] (by decide) rfl (by decide) ⟨by decide, by decide⟩
      (fun _ k hk => (Option.some.inj hk).symm) (fun _ => le_rfl) rfl

theorem twoLeafTree_below : BlocksBelow 100 twoLeafTree.root := by
  simp [twoLeafTree, mkInternal, mkLeaf, Slots.pad, BlocksBelow]

/-- The entry `(5, 8)` removed from `twoEntryLeaf`, a root leaf, and the
entry `(8, 10)` from `twoLeafTree`, whose right leaf falls below the minimum
fill and is merged with its sibling: `block_tree_remove` returns a tree that
holds the other entries. -/
theorem remove_from_leaf_and_merge :
    (∃ r, remove (countingOps 100) fourSlots 0 twoEntryLeaf 5 8 = some r ∧
      RemoveDone fourSlots 100 1 (2 ^ 32 - 1) twoEntryLeaf 5 8 r.2) ∧
    ∃ r, remove (countingOps 100) fourSlots 0 twoLeafTree 8 10 = some r ∧
      RemoveDone fourSlots 100 2 (2 ^ 32 - 1) twoLeafTree 8 10 r.2 :=
  ⟨(remove_ok (countingOps_allocIn (by decide)) (by unfold Config.IndexFits; decide) 0 twoEntryLeaf
      twoEntryLeaf_valid (by decide) (by decide) (show 1 < 100 by decide) 5 8).exists_some
      ⟨countingOps_runs 100 _ rfl, by decide, [(3, ⟨7, 0⟩)], ⟨8, 0⟩, [], rfl, rfl⟩,
    (remove_ok (countingOps_allocIn (by decide)) (by unfold Config.IndexFits; decide) 0 twoLeafTree
      twoLeafTree_valid (by decide) (by decide) twoLeafTree_below 8 10).exists_some
      ⟨countingOps_runs 100 _ rfl, by decide, [(2, ⟨7, 0⟩), (4, ⟨8, 0⟩), (6, ⟨9, 0⟩)], ⟨10, 0⟩,
        [], rfl, rfl⟩⟩

end Remove

end BlockTree
