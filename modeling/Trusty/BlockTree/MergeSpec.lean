import Trusty.BlockTree.Around

/-!
# Borrowing from and merging with a sibling

`block_tree_node_merge` works on a node one entry short of the minimum and a
sibling.  Side by side, the two hold the entries of one valid node spanning
both (`LeafChain.append`, `Chain.append`).  A merge stores that node; a
borrow moves one entry across, which is that node split one place off the
middle (`LeafChain.pairOk`, `Chain.pairOk`).

* `PairOk`: two siblings valid on either side of a separator, with given
  entries.
* `borrowLeft_leaf`, `borrowRight_leaf`, `borrowLeft_internal`,
  `borrowRight_internal`: what the node functions leave after a borrow from
  the sibling on the right (the node is the leftmost child) or on the left.
* `merge_leaf`, `merge_internal`: what `block_tree_node_merge_entries`
  leaves, valid between the outer bounds of the pair.
-/

namespace BlockTree

variable {cfg : Config}

/-! ## Joining two chains -/

section Join

theorem KeysOk.append {lo k hi : Nat} {ks1 ks2 : List Nat} (h1 : KeysOk lo k ks1)
    (h2 : KeysOk k hi ks2) : KeysOk lo hi (ks1 ++ ks2) := by
  refine ⟨fun x hx => ?_, ?_⟩
  · rcases List.mem_append.1 hx with hx | hx
    · exact h1.pos x hx
    · exact h2.pos x hx
  · -- the first part is at most `k`, the second at least `k`
    have hle : ∀ a ∈ lo :: ks1, a ≤ k := by
      intro a ha
      rcases List.mem_cons.1 ha with rfl | ha
      · exact h1.lo_le_hi
      · exact (h1.mem_bounds ha).2
    have hge : ∀ a ∈ ks2 ++ [hi], k ≤ a := by
      intro a ha
      rcases List.mem_append.1 ha with ha | ha
      · exact (h2.mem_bounds ha).1
      · rw [List.mem_singleton.1 ha]
        exact h2.lo_le_hi
    have hs1 : (lo :: ks1).Pairwise (· ≤ ·) :=
      h1.sorted.sublist (List.sublist_append_left (lo :: ks1) [k])
    have hs2 : (ks2 ++ [hi]).Pairwise (· ≤ ·) := (List.pairwise_cons.1 h2.sorted).2
    rw [show lo :: (ks1 ++ ks2) ++ [hi] = (lo :: ks1) ++ (ks2 ++ [hi]) by simp, List.pairwise_append]
    exact ⟨hs1, hs2, fun a ha c hc => le_trans (hle a ha) (hge c hc)⟩

variable {lo k hi : Nat} {ks1 ks2 : List Nat}

/-- The fences of joined keys up to the separator are those of the first part. -/
theorem fence_append_left {j : Nat} (hj : j ≤ ks1.length + 1) :
    fence lo hi (ks1 ++ k :: ks2) j = fence lo k ks1 j := by
  rcases Nat.lt_or_ge j (ks1.length + 1) with hlt | heq
  · simp only [fence, List.getD_eq_getElem?_getD, List.cons_append, List.append_assoc]
    rcases Nat.eq_zero_or_pos j with rfl | hpos
    · rfl
    · obtain ⟨i, rfl⟩ : ∃ i, j = i + 1 := ⟨j - 1, by omega⟩
      simp only [List.getElem?_cons_succ]
      rw [List.getElem?_append_left (by omega), List.getElem?_append_left (by omega)]
  · obtain rfl : j = ks1.length + 1 := by omega
    rw [fence_length, fence_of_pos (by omega) (by simp), List.getElem_append_right (by omega)]
    simp

/-- The fences of joined keys from the separator on are those of the second part. -/
theorem fence_append_right {j : Nat} (hj : ks1.length + 1 ≤ j) :
    fence lo hi (ks1 ++ k :: ks2) j = fence k hi ks2 (j - (ks1.length + 1)) := by
  obtain ⟨i, rfl⟩ : ∃ i, j = ks1.length + 1 + i := ⟨j - (ks1.length + 1), by omega⟩
  simp only [fence, List.getD_eq_getElem?_getD, Nat.add_sub_cancel_left]
  rw [show lo :: (ks1 ++ k :: ks2) ++ [hi] = (lo :: ks1) ++ (k :: ks2 ++ [hi]) by simp,
    List.getElem?_append_right (by simp)]
  simp

/-- Two leaves side by side hold one leaf's worth of sorted keys; the first
key is the lower bound unless the first leaf is empty. -/
theorem LeafChain.append {ds1 ds2 : List BlockMac} (h1 : LeafChain lo k ks1 ds1)
    (h2 : LeafChain k hi ks2 ds2) (hfirst : ks1 = [] → lo ≠ 0 → ∀ x ∈ ks2.head?, x = lo) :
    LeafChain lo hi (ks1 ++ ks2) (ds1 ++ ds2) := by
  refine ⟨by simp [h1.hlen, h2.hlen], h1.hkeys.append h2.hkeys, fun hlo x hx => ?_⟩
  cases ks1 with
  | nil => exact hfirst rfl hlo x hx
  | cons k0 ks1 => exact h1.hfirst hlo x (by simpa using hx)

/-- Two internal nodes side by side, with their separator, hold one node's
worth of children, each between its fences. -/
theorem Chain.append {r1 r2 r : Bool} {H : Nat} {cs1 cs2 : List Node}
    (h1 : Chain cfg ⟨r1, H, lo, k⟩ ks1 cs1) (h2 : Chain cfg ⟨r2, H, k, hi⟩ ks2 cs2) (hk : 0 < k) :
    Chain cfg ⟨r, H, lo, hi⟩ (ks1 ++ k :: ks2) (cs1 ++ cs2) := by
  have hlen1 := h1.hlen
  have hlen2 := h2.hlen
  refine ⟨by simp; omega, h1.hkeys.append (keysOk_cons.2 ⟨hk, le_rfl, h2.hkeys⟩), fun i hil => ?_⟩
  rcases Nat.lt_or_ge i cs1.length with hlt | hge
  · -- a child of the first node keeps its fences
    have hbd : Bounds.child ⟨r, H, lo, hi⟩ (ks1 ++ k :: ks2) i = Bounds.child ⟨r1, H, lo, k⟩ ks1 i := by
      simp only [Bounds.child, fence_append_left (show i ≤ ks1.length + 1 by omega),
        fence_append_left (show i + 1 ≤ ks1.length + 1 by omega)]
    rw [hbd, List.getElem_append_left hlt]
    exact h1.hchild i hlt
  · -- a child of the second node, shifted by the first node's children
    have hbd : Bounds.child ⟨r, H, lo, hi⟩ (ks1 ++ k :: ks2) i =
        Bounds.child ⟨r2, H, k, hi⟩ ks2 (i - cs1.length) := by
      simp only [Bounds.child, fence_append_right (show ks1.length + 1 ≤ i by omega),
        fence_append_right (show ks1.length + 1 ≤ i + 1 by omega),
        show i + 1 - (ks1.length + 1) = i - cs1.length + 1 by omega,
        show i - (ks1.length + 1) = i - cs1.length by omega]
    rw [hbd, List.getElem_append_right hge]
    exact h2.hchild _ (by simp at hil; omega)

end Join

/-! ## Splitting one place off -/

variable (cfg) in
/-- Two siblings valid on either side of the separator `k`, holding the
entries `es`. -/
def PairOk (h lo hi : Nat) (l r : Node) (k : Nat) (es : List (Nat × BlockMac)) : Prop :=
  Valid cfg ⟨false, h, lo, k⟩ l ∧ Valid cfg ⟨false, h, k, hi⟩ r ∧ 0 < k ∧
    entries l ++ entries r = es

section Split

variable {lo hi b b' : Nat} {ks : List Nat}

/-- The keys of a leaf's worth of entries cut at `s`: two leaves above the
minimum fill around the key at `s`. -/
theorem LeafChain.pairOk {ds : List BlockMac} (h : LeafChain lo hi ks ds) (hb : b ≠ 0)
    (hb' : b' ≠ 0) (s : Nat) (hs : s < ks.length) (hfill1 : cfg.minKeyCount true ≤ s)
    (hfill2 : cfg.minKeyCount true ≤ ks.length - s) (hcap : ks.length ≤ cfg.keyCountLeaf + s)
    (hcap1 : s ≤ cfg.keyCountLeaf) :
    PairOk cfg 1 lo hi (mkLeaf cfg b (ks.take s) (ds.take s)) (mkLeaf cfg b' (ks.drop s) (ds.drop s))
      ks[s] (ks.zip ds) := by
  have hlen := h.hlen
  obtain ⟨h1, h2⟩ := h.halves s hs
  have hpos := h.hkeys.pos
  refine ⟨(h1.leafOk hb (by simp; omega) (fun _ => by simp; omega) rfl).valid,
    (h2.leafOk hb' (by simp; omega) (fun _ => by simp; omega) rfl).valid,
    hpos _ (List.getElem_mem hs), ?_⟩
  rw [entries_mkLeaf cfg _ _ _ (fun k hk => hpos k (List.mem_of_mem_take hk)) (by simp; omega),
    entries_mkLeaf cfg _ _ _ (fun k hk => hpos k (List.mem_of_mem_drop hk)) (by simp; omega),
    ← List.zip_append (by simp; omega), List.take_append_drop, List.take_append_drop]

/-- The keys and children of a node's worth cut at key `s`: two internal
nodes above the minimum fill around it. -/
theorem Chain.pairOk {r : Bool} {H : Nat} {cs : List Node} (h : Chain cfg ⟨r, H, lo, hi⟩ ks cs)
    (hH : 2 ≤ H) (hb : b ≠ 0) (hb' : b' ≠ 0) (s : Nat) (hs : s < ks.length)
    (hfill1 : cfg.minKeyCount false ≤ s) (hfill2 : cfg.minKeyCount false ≤ ks.length - (s + 1))
    (hcap : ks.length ≤ cfg.keyCountInternal + s + 1) (hcap1 : s ≤ cfg.keyCountInternal) :
    PairOk cfg H lo hi (mkInternal cfg b (ks.take s) (cs.take (s + 1)))
      (mkInternal cfg b' (ks.drop (s + 1)) (cs.drop (s + 1))) ks[s] (cs.flatMap entries) := by
  have hmin := cfg.one_le_minKeyCount false
  obtain ⟨h1, h2⟩ := h.halves s hs
  refine ⟨(h1.internalOk hb (by simp; omega) (List.ne_nil_of_length_pos (by simp; omega))
      (fun _ => by simp; omega) hH).valid,
    (h2.internalOk hb' (by simp; omega) (List.ne_nil_of_length_pos (by simp; omega))
      (fun _ => by simp; omega) hH).valid,
    h.hkeys.pos _ (List.getElem_mem hs), ?_⟩
  rw [entries_mkInternal, entries_mkInternal, ← List.flatMap_append, List.take_append_drop]

end Split

/-! ## Borrowing -/

section Borrow

variable {lo k hi b b' : Nat}

/-- The node is the leftmost leaf: it takes the first entry of its right
sibling, whose second key becomes the separator. -/
theorem borrowLeft_leaf {nks sks : List Nat} {nds sds : List BlockMac} {N S : Node}
    (hN : N = mkLeaf cfg b nks nds) (hS : S = mkLeaf cfg b' sks sds)
    (hn : LeafChain lo k nks nds) (hs : LeafChain k hi sks sds) (hk : 0 < k)
    (hfirst : nks = [] → lo ≠ 0 → lo = k) (hb : b ≠ 0) (hb' : b' ≠ 0)
    (hnlen : nks.length + 1 = cfg.minKeyCount true) (hslen : cfg.minKeyCount true < sks.length)
    (hscap : sks.length ≤ cfg.keyCountLeaf) (hfit : hi < 2 ^ (8 * cfg.keySize)) :
    PairOk cfg 1 lo hi
      (nodeInsert cfg N (minFullIndex cfg N) .leafOrLeftChild (getKey cfg S 0) (S.data.getD 0 .zero)
        (S.children.getD 0 .empty)).1
      (nodeShiftDown cfg S 0 1 .leafOrLeftChild) (getKey cfg S 1) ((nks ++ sks).zip (nds ++ sds)) := by
  subst hN hS
  have hnl := hn.hlen
  have hsl := hs.hlen
  have hmin : cfg.minKeyCount true ≤ cfg.keyCountLeaf / 2 := le_rfl
  have hs0 : 0 < sks.length := by omega
  -- what the node functions read
  have hkey0 : getKey cfg (mkLeaf cfg b' sks sds) 0 = sks[0] := by
    rw [getKey_mkLeaf b' sks sds hscap, List.getD_eq_getElem _ _ hs0]
  have hkey1 : getKey cfg (mkLeaf cfg b' sks sds) 1 = sks[1] := by
    rw [getKey_mkLeaf b' sks sds hscap, List.getD_eq_getElem _ _ (by omega)]
  have hdata0 : (mkLeaf cfg b' sks sds).data.getD 0 .zero = sds[0] := by
    rw [mkLeaf, Node.data, Slots.getD_pad, List.getD_eq_getElem _ _ (by omega)]
  have hidx : minFullIndex cfg (mkLeaf cfg b nks nds) = nks.length := by
    simp only [minFullIndex, isLeaf_mkLeaf]
    omega
  have hfit0 : cfg.keyBytes sks[0] = sks[0] :=
    Config.keyBytes_of_fits (lt_of_le_of_lt (hs.hkeys.mem_bounds (List.getElem_mem hs0)).2 hfit)
  rw [hkey0, hkey1, hdata0, hidx, nodeInsert_mkLeaf b nks nds _ _ _ _ le_rfl (by omega) hnl, hfit0,
    nodeShiftDown_mkLeaf b' sks sds 0 1 (by omega) (by omega) hscap hsl]
  simp only [List.take_zero, List.nil_append, List.take_length, List.drop_length,
    List.take_of_length_le (show nds.length ≤ nks.length by omega),
    List.drop_of_length_le (show nds.length ≤ nks.length by omega)]
  -- the two leaves joined, cut one entry past the node's keys
  have hj := hn.append hs fun h0 hlo x hx => by
    have := hs.hfirst (by omega) x hx
    rw [hfirst h0 hlo]
    exact this
  have hcut : PairOk cfg 1 lo hi _ _ _ _ := hj.pairOk hb hb' (nks.length + 1) (by simp; omega)
    (by omega) (by simp; omega) (by simp; omega) (by omega)
  have e1 : (nks ++ sks).take (nks.length + 1) = nks ++ [sks[0]] := by
    rw [List.take_length_add_append, List.take_one, List.head?_eq_getElem?, List.getElem?_eq_getElem hs0]
    rfl
  have e2 : (nds ++ sds).take (nks.length + 1) = nds ++ [sds[0]] := by
    rw [← hnl, List.take_length_add_append, List.take_one, List.head?_eq_getElem?,
      List.getElem?_eq_getElem (by omega)]
    rfl
  have e3 : (nks ++ sks).drop (nks.length + 1) = sks.drop 1 := List.drop_length_add_append 1
  have e4 : (nds ++ sds).drop (nks.length + 1) = sds.drop 1 := by
    rw [← hnl, List.drop_length_add_append]
  have hcutl : nks.length + 1 < (nks ++ sks).length := by simp; omega
  have e5 : (nks ++ sks)[nks.length + 1] = sks[1] := by
    rw [List.getElem_append_right (by omega)]
    simp
  rw [e1, e2, e3, e4, e5] at hcut
  exact hcut

/-- The node is a leaf right of its sibling: it takes the sibling's last
entry, whose key becomes the separator. -/
theorem borrowRight_leaf {nks sks : List Nat} {nds sds : List BlockMac} {N S : Node}
    (hN : N = mkLeaf cfg b nks nds) (hS : S = mkLeaf cfg b' sks sds)
    (hs : LeafChain lo k sks sds) (hn : LeafChain k hi nks nds) (hb : b ≠ 0) (hb' : b' ≠ 0)
    (hnlen : nks.length + 1 = cfg.minKeyCount true) (hslen : cfg.minKeyCount true < sks.length)
    (hscap : sks.length ≤ cfg.keyCountLeaf) (hfit : hi < 2 ^ (8 * cfg.keySize)) :
    PairOk cfg 1 lo hi
      (nodeShiftDown cfg S (getKeyCount cfg S - 1) (getKeyCount cfg S - 1 + 1) .leafOrLeftChild)
      (nodeInsert cfg N 0 .leafOrLeftChild (getKey cfg S (getKeyCount cfg S - 1))
        (S.data.getD (getKeyCount cfg S - 1) .zero) (S.children.getD (getKeyCount cfg S - 1) .empty)).1
      (getKey cfg S (getKeyCount cfg S - 1)) ((sks ++ nks).zip (sds ++ nds)) := by
  subst hN hS
  have hnl := hn.hlen
  have hsl := hs.hlen
  have hmin : cfg.minKeyCount true ≤ cfg.keyCountLeaf / 2 := le_rfl
  set m := sks.length - 1 with hm
  have hml : m < sks.length := by omega
  -- what the node functions read
  have hcount : getKeyCount cfg (mkLeaf cfg b' sks sds) = sks.length :=
    getKeyCount_mkLeaf b' sks sds hscap hs.hkeys.pos
  have hkey : getKey cfg (mkLeaf cfg b' sks sds) m = sks[m] := by
    rw [getKey_mkLeaf b' sks sds hscap, List.getD_eq_getElem _ _ hml]
  have hdata : (mkLeaf cfg b' sks sds).data.getD m .zero = sds[m] := by
    rw [mkLeaf, Node.data, Slots.getD_pad, List.getD_eq_getElem _ _ (by omega)]
  have hfitm : cfg.keyBytes sks[m] = sks[m] :=
    Config.keyBytes_of_fits (lt_of_le_of_lt (le_trans (hs.hkeys.mem_bounds (List.getElem_mem hml)).2
      hn.hkeys.lo_le_hi) hfit)
  rw [hcount, ← hm, hkey, hdata, nodeInsert_mkLeaf b nks nds _ _ _ _ (Nat.zero_le _) (by omega) hnl,
    hfitm, nodeShiftDown_mkLeaf b' sks sds m (m + 1) (by omega) (by omega) hscap hsl]
  simp only [List.take_zero, List.drop_zero, List.nil_append,
    List.drop_of_length_le (show sks.length ≤ m + 1 by omega),
    List.drop_of_length_le (show sds.length ≤ m + 1 by omega), List.append_nil]
  -- the two leaves joined, cut before the sibling's last entry
  have hj := hs.append hn fun h0 => absurd h0 (List.ne_nil_of_length_pos (by omega))
  have hcut : PairOk cfg 1 lo hi _ _ _ _ := hj.pairOk hb' hb m (by simp; omega) (by omega)
    (by simp; omega) (by simp; omega) (by omega)
  have hml' : m < (sks ++ nks).length := by simp; omega
  have e1 : (sks ++ nks).take m = sks.take m := List.take_append_of_le_length (by omega)
  have e2 : (sds ++ nds).take m = sds.take m := List.take_append_of_le_length (by omega)
  have e3 : (sks ++ nks).drop m = sks[m] :: nks := by
    rw [List.drop_append_of_le_length (by omega), List.drop_eq_getElem_cons hml,
      List.drop_of_length_le (show sks.length ≤ m + 1 by omega)]
    rfl
  have e4 : (sds ++ nds).drop m = sds[m] :: nds := by
    rw [List.drop_append_of_le_length (by omega), List.drop_eq_getElem_cons (by omega),
      List.drop_of_length_le (show sds.length ≤ m + 1 by omega)]
    rfl
  have e5 : (sks ++ nks)[m] = sks[m] := List.getElem_append_left hml
  rw [e1, e2, e3, e4, e5] at hcut
  exact hcut

/-- The node is the leftmost internal node: it takes the separator and the
first child of its right sibling, whose first key becomes the separator. -/
theorem borrowLeft_internal {r r' : Bool} {H key : Nat} {nks sks : List Nat} {ncs scs : List Node}
    {N S : Node} (hN : N = mkInternal cfg b nks ncs) (hS : S = mkInternal cfg b' sks scs)
    (hn : Chain cfg ⟨r, H, lo, k⟩ nks ncs) (hs : Chain cfg ⟨r', H, k, hi⟩ sks scs) (hk : 0 < k)
    (hkey : key = k) (hH : 2 ≤ H) (hb : b ≠ 0) (hb' : b' ≠ 0)
    (hnlen : nks.length + 1 = cfg.minKeyCount false) (hslen : cfg.minKeyCount false < sks.length)
    (hscap : sks.length ≤ cfg.keyCountInternal) (hfit : hi < 2 ^ (8 * cfg.keySize))
    (hidx : cfg.IndexFits) :
    PairOk cfg H lo hi
      (nodeInsert cfg N (minFullIndex cfg N) .rightChild key (S.data.getD 0 .zero)
        (S.children.getD 0 .empty)).1
      (nodeShiftDown cfg S 0 1 .leafOrLeftChild) (getKey cfg S 0) ((ncs ++ scs).flatMap entries) := by
  subst hN hS
  rw [hkey]
  have hnl := hn.hlen
  have hsl := hs.hlen
  have hmin : cfg.minKeyCount false ≤ cfg.keyCountInternal / 2 := le_rfl
  have hs0 : 0 < sks.length := by omega
  have hkey0 : getKey cfg (mkInternal cfg b' sks scs) 0 = sks[0] := by
    rw [getKey_mkInternal b' sks scs hscap, List.getD_eq_getElem _ _ hs0]
  have hchild0 : (mkInternal cfg b' sks scs).children.getD 0 .empty = scs[0] := by
    rw [mkInternal, Node.children, Slots.getD_pad, List.getD_eq_getElem _ _ (by omega)]
  have hmfi : minFullIndex cfg (mkInternal cfg b nks ncs) = nks.length := by
    simp only [minFullIndex, isLeaf_mkInternal]
    omega
  have hfitk : cfg.keyBytes k = k :=
    Config.keyBytes_of_fits (lt_of_le_of_lt hs.hkeys.lo_le_hi hfit)
  have hins := nodeInsert_mkInternal b nks ncs true nks.length k
    ((mkInternal cfg b' sks scs).data.getD 0 .zero) scs[0] le_rfl (by omega) hnl hidx
  simp only [if_true] at hins
  rw [hkey0, hchild0, hmfi, hins, hfitk,
    nodeShiftDown_mkInternal_left b' sks scs 0 1 (by omega) (by omega) hscap hsl]
  simp only [List.take_zero, List.nil_append, List.take_length, List.drop_length,
    List.take_of_length_le (show ncs.length ≤ nks.length + 1 by omega),
    List.drop_of_length_le (show ncs.length ≤ nks.length + 1 by omega)]
  -- the two nodes joined at the separator, cut after it
  have hj : Chain cfg ⟨false, H, lo, hi⟩ _ _ := hn.append hs hk
  have hcut : PairOk cfg H lo hi _ _ _ _ := hj.pairOk hH hb hb' (nks.length + 1) (by simp; omega)
    (by omega) (by simp; omega) (by simp; omega) (by omega)
  have hcutl : nks.length + 1 < (nks ++ k :: sks).length := by simp; omega
  have e1 : (nks ++ k :: sks).take (nks.length + 1) = nks ++ [k] := by
    rw [List.take_length_add_append]
    rfl
  have e2 : (ncs ++ scs).take (nks.length + 1 + 1) = ncs ++ [scs[0]] := by
    rw [← hnl, List.take_length_add_append, List.take_one, List.head?_eq_getElem?,
      List.getElem?_eq_getElem (by omega)]
    rfl
  have e3 : (nks ++ k :: sks).drop (nks.length + 1 + 1) = sks.drop 1 := by
    rw [Nat.add_assoc, List.drop_length_add_append]
    rfl
  have e4 : (ncs ++ scs).drop (nks.length + 1 + 1) = scs.drop 1 := by
    rw [← hnl, List.drop_length_add_append]
  have e5 : (nks ++ k :: sks)[nks.length + 1] = sks[0] := by
    rw [List.getElem_append_right (by omega)]
    simp
  rw [e1, e2, e3, e4, e5] at hcut
  exact hcut

/-- The node is an internal node right of its sibling: it takes the
separator and the sibling's last child, and the sibling's last key becomes
the separator. -/
theorem borrowRight_internal {r r' : Bool} {H key : Nat} {nks sks : List Nat} {ncs scs : List Node}
    {N S : Node} (hN : N = mkInternal cfg b nks ncs) (hS : S = mkInternal cfg b' sks scs)
    (hs : Chain cfg ⟨r', H, lo, k⟩ sks scs) (hn : Chain cfg ⟨r, H, k, hi⟩ nks ncs) (hk : 0 < k)
    (hkey : key = k) (hH : 2 ≤ H) (hb : b ≠ 0) (hb' : b' ≠ 0)
    (hnlen : nks.length + 1 = cfg.minKeyCount false) (hslen : cfg.minKeyCount false < sks.length)
    (hscap : sks.length ≤ cfg.keyCountInternal) (hfit : hi < 2 ^ (8 * cfg.keySize))
    (hidx : cfg.IndexFits) :
    PairOk cfg H lo hi
      (nodeShiftDown cfg S (getKeyCount cfg S - 1) (getKeyCount cfg S - 1 + 1) .rightChild)
      (nodeInsert cfg N 0 .leafOrLeftChild key (S.data.getD (getKeyCount cfg S - 1 + 1) .zero)
        (S.children.getD (getKeyCount cfg S - 1 + 1) .empty)).1
      (getKey cfg S (getKeyCount cfg S - 1)) ((scs ++ ncs).flatMap entries) := by
  subst hN hS
  rw [hkey]
  have hnl := hn.hlen
  have hsl := hs.hlen
  have hmin : cfg.minKeyCount false ≤ cfg.keyCountInternal / 2 := le_rfl
  set m := sks.length - 1 with hm
  have hml : m < sks.length := by omega
  have hcount : getKeyCount cfg (mkInternal cfg b' sks scs) = sks.length :=
    getKeyCount_mkInternal b' sks scs hscap hs.hkeys.pos
  have hkeym : getKey cfg (mkInternal cfg b' sks scs) m = sks[m] := by
    rw [getKey_mkInternal b' sks scs hscap, List.getD_eq_getElem _ _ hml]
  have hchild : (mkInternal cfg b' sks scs).children.getD (m + 1) .empty = scs[m + 1] := by
    rw [mkInternal, Node.children, Slots.getD_pad, List.getD_eq_getElem _ _ (by omega)]
  have hfitk : cfg.keyBytes k = k :=
    Config.keyBytes_of_fits (lt_of_le_of_lt hn.hkeys.lo_le_hi hfit)
  have hins := nodeInsert_mkInternal b nks ncs false 0 k
    ((mkInternal cfg b' sks scs).data.getD (m + 1) .zero) scs[m + 1] (Nat.zero_le _) (by omega) hnl
    hidx
  simp only [Bool.false_eq_true, if_false, Nat.add_zero] at hins
  rw [hcount, ← hm, hkeym, hchild, hins, hfitk,
    nodeShiftDown_mkInternal_right b' sks scs m (m + 1) (by omega) (by omega) hscap hsl hidx]
  simp only [List.take_zero, List.drop_zero, List.nil_append,
    List.drop_of_length_le (show sks.length ≤ m + 1 by omega),
    List.drop_of_length_le (show scs.length ≤ m + 1 + 1 by omega), List.append_nil]
  -- the two nodes joined at the separator, cut at the sibling's last key
  have hj : Chain cfg ⟨false, H, lo, hi⟩ _ _ := hs.append hn hk
  have hcut : PairOk cfg H lo hi _ _ _ _ := hj.pairOk hH hb' hb m (by simp; omega) (by omega)
    (by simp; omega) (by simp; omega) (by omega)
  have hml' : m < (sks ++ k :: nks).length := by simp; omega
  have e1 : (sks ++ k :: nks).take m = sks.take m := List.take_append_of_le_length (by omega)
  have e2 : (scs ++ ncs).take (m + 1) = scs.take (m + 1) := List.take_append_of_le_length (by omega)
  have e3 : (sks ++ k :: nks).drop (m + 1) = k :: nks := by
    rw [List.drop_append_of_le_length (by omega), List.drop_of_length_le (by omega)]
    rfl
  have e4 : (scs ++ ncs).drop (m + 1) = scs[m + 1] :: ncs := by
    rw [List.drop_append_of_le_length (by omega), List.drop_eq_getElem_cons (by omega),
      List.drop_of_length_le (show scs.length ≤ m + 1 + 1 by omega)]
    rfl
  have e5 : (sks ++ k :: nks)[m] = sks[m] := List.getElem_append_left hml
  rw [e1, e2, e3, e4, e5] at hcut
  exact hcut

end Borrow

/-! ## Merging -/

section Merge

variable {lo k hi b b' : Nat}

/-- `block_tree_node_merge_entries` of two leaves: one leaf with the entries
of both. -/
theorem merge_leaf {lks rks : List Nat} {lds rds : List BlockMac} {L R : Node} (mergeKey : Nat)
    (hL : L = mkLeaf cfg b lks lds) (hR : R = mkLeaf cfg b' rks rds)
    (hl : LeafChain lo k lks lds) (hr : LeafChain k hi rks rds)
    (hfirst : lks = [] → lo ≠ 0 → ∀ x ∈ rks.head?, x = lo) (hb : b ≠ 0)
    (hfill : cfg.minKeyCount true ≤ lks.length + rks.length)
    (hcap : lks.length + rks.length ≤ cfg.keyCountLeaf) :
    Valid cfg ⟨false, 1, lo, hi⟩ (nodeMergeEntries cfg L R (getKeyCount cfg L) (getKeyCount cfg R) mergeKey) ∧
      entries (nodeMergeEntries cfg L R (getKeyCount cfg L) (getKeyCount cfg R) mergeKey) =
        (lks ++ rks).zip (lds ++ rds) := by
  subst hL hR
  have hj := hl.append hr hfirst
  rw [getKeyCount_mkLeaf b lks lds (by omega) hl.hkeys.pos,
    getKeyCount_mkLeaf b' rks rds (by omega) hr.hkeys.pos,
    nodeMergeEntries_mkLeaf b lks lds b' rks rds mergeKey hcap hl.hlen hr.hlen]
  exact ⟨(hj.leafOk hb (by simp; omega) (fun _ => by simp; omega) rfl).valid,
    entries_mkLeaf cfg b _ _ hj.hkeys.pos hj.hlen⟩

/-- `block_tree_node_merge_entries` of two internal nodes with the separator
between them: one node with the children of both. -/
theorem merge_internal {r r' : Bool} {H key : Nat} {lks rks : List Nat} {lcs rcs : List Node}
    {L R : Node} (hL : L = mkInternal cfg b lks lcs) (hR : R = mkInternal cfg b' rks rcs)
    (hl : Chain cfg ⟨r, H, lo, k⟩ lks lcs) (hr : Chain cfg ⟨r', H, k, hi⟩ rks rcs) (hk : 0 < k)
    (hkey : key = k) (hH : 2 ≤ H) (hb : b ≠ 0)
    (hfill : cfg.minKeyCount false ≤ lks.length + 1 + rks.length)
    (hcap : lks.length + 1 + rks.length ≤ cfg.keyCountInternal) (hfit : hi < 2 ^ (8 * cfg.keySize)) :
    Valid cfg ⟨false, H, lo, hi⟩ (nodeMergeEntries cfg L R (getKeyCount cfg L) (getKeyCount cfg R) key) ∧
      entries (nodeMergeEntries cfg L R (getKeyCount cfg L) (getKeyCount cfg R) key) =
        (lcs ++ rcs).flatMap entries := by
  subst hL hR
  rw [hkey]
  have hj : Chain cfg ⟨false, H, lo, hi⟩ _ _ := hl.append hr hk
  have hfitk : cfg.keyBytes k = k := Config.keyBytes_of_fits (lt_of_le_of_lt hr.hkeys.lo_le_hi hfit)
  rw [getKeyCount_mkInternal b lks lcs (by omega) hl.hkeys.pos,
    getKeyCount_mkInternal b' rks rcs (by omega) hr.hkeys.pos,
    nodeMergeEntries_mkInternal b lks lcs b' rks rcs k hcap hl.hlen hr.hlen, hfitk]
  exact ⟨(hj.internalOk hb (by simp; omega) (by simp) (fun _ => by simp; omega) hH).valid,
    entries_mkInternal cfg b _ _⟩

end Merge

/-! ## The parent of the pair -/

section Parent

theorem take_succ_set {α : Type} (l : List α) (i : Nat) (hi : i < l.length) (a : α) :
    (l.set i a).take (i + 1) = l.take i ++ [a] := by
  rw [List.set_eq_take_append_cons_drop, if_pos hi, List.take_append]
  have hlen : (l.take i).length = i := by simp; omega
  rw [hlen, List.take_of_length_le (by rw [hlen]; omega), Nat.add_sub_cancel_left]
  rfl

theorem drop_set_of_lt {α : Type} (l : List α) {i j : Nat} (hij : i < j) (a : α) :
    (l.set i a).drop j = l.drop j := by
  rw [List.drop_set]
  simp [show ¬ (j ≤ i) by omega]

theorem set_set_succ {α : Type} (l : List α) (i : Nat) (hi : i + 1 < l.length) (a b : α) :
    (l.set i a).set (i + 1) b = l.take i ++ [a, b] ++ l.drop (i + 2) := by
  rw [List.set_eq_take_append_cons_drop, if_pos (by simp; omega), take_succ_set l i (by omega),
    drop_set_of_lt l (by omega : i < i + 1 + 1)]
  simp

variable {bd : Bounds} {b : Nat} {ks : List Nat} {cs : List Node} {i l : Nat}

/-- A borrow leaves the parent valid: the pair at `l` and `l + 1`, one of
them the node that was short, replaced by two valid nodes around a new
separator. -/
theorem InternalAround.borrow (h : InternalAround cfg bd b ks cs i) (hil : i = l ∨ i = l + 1)
    (hl : l + 1 < cs.length) {A B : Node} {k : Nat} {es : List (Nat × BlockMac)}
    (hp : PairOk cfg (bd.height - 1) (fence bd.lo bd.hi ks l) (fence bd.lo bd.hi ks (l + 2)) A B k es) :
    InternalOk cfg bd b (ks.set l k) ((cs.set l A).set (l + 1) B) := by
  obtain ⟨hA, hB, hk, -⟩ := hp
  have hlen := h.hlen
  have hw : Chain cfg (bd.window ks l 2) [k] [A, B] :=
    Chain.pair hA hB hk hA.lo_le_hi hB.lo_le_hi
  have hc := chain_replace_of hlen h.hkeys l 2 (by omega) (by omega)
    (fun j hj hout => h.hchild j hj (by omega)) hw
  have hks : replaceKeys ks l 2 [k] = ks.set l k := by
    rw [replaceKeys, List.set_eq_take_append_cons_drop, if_pos (by omega)]
    simp
  rw [hks, show cs.take l ++ [A, B] = cs.take l ++ [A, B] from rfl, ← set_set_succ cs l hl] at hc
  exact hc.internalOk h.hb (by simpa using h.hcap) (by simpa using h.hne)
    (fun hr => by simpa using h.hfill hr) h.hheight

/-- A merge leaves the parent one entry short once the separator and the
right node of the pair are shifted out (`block_tree_remove_internal`). -/
theorem InternalAround.merge (h : InternalAround cfg bd b ks cs i) (hil : i = l ∨ i = l + 1)
    (hl : l + 1 < cs.length) {M : Node}
    (hM : Valid cfg ⟨false, bd.height - 1, fence bd.lo bd.hi ks l, fence bd.lo bd.hi ks (l + 2)⟩ M)
    (hidx : cfg.IndexFits) :
    Weak cfg bd (nodeShiftDown cfg (mkInternal cfg b ks (cs.set l M)) l (l + 1) .rightChild) := by
  have hlen := h.hlen
  have hcap := h.hcap
  have hw : Chain cfg (bd.window ks l 2) [] [M] := by
    refine ⟨rfl, ⟨by simp, by simpa [Bounds.window] using hM.lo_le_hi⟩, fun j hj => ?_⟩
    obtain rfl : j = 0 := by simpa using hj
    exact hM
  have hc := chain_replace_of hlen h.hkeys l 2 (by omega) (by omega)
    (fun j hj hout => h.hchild j hj (by omega)) hw
  have hks : replaceKeys ks l 2 [] = ks.take l ++ ks.drop (l + 1) := by
    simp [replaceKeys]
  have hcs : cs.take l ++ [M] ++ cs.drop (l + 2) =
      (cs.set l M).take (l + 1) ++ (cs.set l M).drop (l + 1 + 1) := by
    rw [take_succ_set cs l (by omega), drop_set_of_lt cs (by omega : l < l + 1 + 1)]
  rw [hks, hcs] at hc
  rw [nodeShiftDown_mkInternal_right b ks (cs.set l M) l (l + 1) (by omega) (by omega) h.hcap
    (by simpa using hlen) hidx]
  refine .internal hc h.hb (by simp; omega) (fun hr => ?_) h.hheight
  have := h.hfill hr
  simp
  omega

end Parent

end BlockTree
