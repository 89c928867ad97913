import Trusty.BlockTree.PutSpec

/-!
# The contents of internal nodes

`Chain cfg bd ks cs` is what `Valid` asks of the keys `ks` and children `cs`
of an internal node at `bd`, without the conditions on the node itself
(block, capacity, fill): the keys are sorted within `[lo, hi]` and child `i`
is valid between fences `i` and `i + 1`.  A node that has just received one
entry too many is such a chain with `key_count + 1` keys.

Every change the tree code makes to an internal node replaces a window of
consecutive children, with the keys between them, by other children and
keys with the same outer fences: a split puts two children where there was
one, a merge one where there were two, a borrow two new ones for two.

* `Chain.window`: the children `[p, p + w)` with the keys between them form
  a chain between fences `p` and `p + w`.
* `Chain.replace`: replacing such a window by a chain between the same
  fences gives a chain.
-/

namespace BlockTree

variable (cfg : Config)

/-! ## Fences of changed key lists -/

section Fence

variable {lo hi : Nat} {ks : List Nat}

/-- The sorted list of fences, read at every position. -/
theorem sorted_iff_fence :
    (lo :: ks ++ [hi]).Pairwise (· ≤ ·) ↔
      ∀ j ≤ ks.length, fence lo hi ks j ≤ fence lo hi ks (j + 1) := by
  rw [← List.isChain_iff_pairwise, List.isChain_iff_getElem]
  have hlen : (lo :: ks ++ [hi]).length = ks.length + 2 := by simp
  constructor
  · intro h j hj
    have := h j (by rw [hlen]; omega)
    simpa only [fence, List.getD_eq_getElem?_getD, List.getElem?_eq_getElem (by rw [hlen]; omega :
      j < (lo :: ks ++ [hi]).length), List.getElem?_eq_getElem (by rw [hlen]; omega :
      j + 1 < (lo :: ks ++ [hi]).length), Option.getD_some] using this
  · intro h j hj
    have := h j (by rw [hlen] at hj; omega)
    simpa only [fence, List.getD_eq_getElem?_getD, List.getElem?_eq_getElem (by omega :
      j < (lo :: ks ++ [hi]).length), List.getElem?_eq_getElem hj, Option.getD_some] using this

theorem keysOk_iff_fence :
    KeysOk lo hi ks ↔
      (∀ k ∈ ks, 0 < k) ∧ ∀ j ≤ ks.length, fence lo hi ks j ≤ fence lo hi ks (j + 1) :=
  ⟨fun h => ⟨h.pos, sorted_iff_fence.1 h.sorted⟩, fun h => ⟨h.1, sorted_iff_fence.2 h.2⟩⟩

/-- The fences of the keys `[p, p + w - 1)`, between fences `p` and `p + w`,
are the fences `p` to `p + w`. -/
theorem fence_window (p w j : Nat) (hw : 1 ≤ w) (hpw : p + w ≤ ks.length + 1) (hj : j ≤ w) :
    fence (fence lo hi ks p) (fence lo hi ks (p + w)) ((ks.drop p).take (w - 1)) j =
      fence lo hi ks (p + j) := by
  have hl : ((ks.drop p).take (w - 1)).length = w - 1 := by simp; omega
  rcases Nat.eq_zero_or_pos j with rfl | hpos
  · rfl
  rcases Nat.lt_or_ge j w with hlt | hge
  · -- a key of the window is the key at the same place in `ks`
    rw [fence_of_pos hpos (by omega), fence_of_pos (by omega) (by omega), List.getElem_take,
      List.getElem_drop]
    congr 1
    omega
  · -- the window's last fence
    obtain rfl : j = w := by omega
    rw [fence_of_eq _ _ ((ks.drop p).take (j - 1)) (by omega)]

/-- The key list with the keys `[p, p + w - 1)` replaced by `ts`. -/
def replaceKeys (ks : List Nat) (p w : Nat) (ts : List Nat) : List Nat :=
  ks.take p ++ ts ++ ks.drop (p + w - 1)

theorem length_replaceKeys (p w : Nat) (ts : List Nat) (hw : 1 ≤ w)
    (hpw : p + w ≤ ks.length + 1) :
    (replaceKeys ks p w ts).length = ks.length + ts.length + 1 - w := by
  simp only [replaceKeys, List.length_append, List.length_take, List.length_drop]
  omega

/-- Below the window the fences do not change. -/
theorem fence_replaceKeys_left (p w : Nat) (ts : List Nat) (hw : 1 ≤ w)
    (hpw : p + w ≤ ks.length + 1)
    (j : Nat) (hj : j ≤ p) :
    fence lo hi (replaceKeys ks p w ts) j = fence lo hi ks j := by
  have hlen := length_replaceKeys p w ts hw hpw
  rw [replaceKeys] at hlen ⊢
  rcases Nat.eq_zero_or_pos j with rfl | hpos
  · rfl
  -- a key before the window
  rw [fence_of_pos hpos (by omega), fence_of_pos hpos (by omega),
    List.getElem_append_left (by simp; omega), List.getElem_append_left (by simp; omega),
    List.getElem_take]

/-- Above the window the fences are the old ones, shifted. -/
theorem fence_replaceKeys_right (p w : Nat) (ts : List Nat) (hw : 1 ≤ w)
    (hpw : p + w ≤ ks.length + 1) (j : Nat) (hj : p + ts.length + 1 ≤ j) :
    fence lo hi (replaceKeys ks p w ts) j = fence lo hi ks (j + w - 1 - ts.length) := by
  have hlen := length_replaceKeys p w ts hw hpw
  rw [replaceKeys] at hlen ⊢
  rcases Nat.lt_or_ge (ks.take p ++ ts ++ ks.drop (p + w - 1)).length j with hgt | hle
  · rcases Nat.lt_or_ge ((ks.take p ++ ts ++ ks.drop (p + w - 1)).length + 1) j with hgt' | heq
    · -- past the end on both sides
      rw [fence_of_gt hgt', fence_of_gt (by omega)]
    · -- the last fence
      rw [fence_of_eq _ _ _ (by omega), fence_of_eq _ _ _ (by omega)]
  · -- a key after the window
    rw [fence_of_pos (by omega) hle, fence_of_pos (by omega) (by omega),
      List.getElem_append_right (by simp; omega), List.getElem_drop]
    congr 1
    simp only [List.length_append, List.length_take]
    omega

/-- Within the window the fences are those of the new keys, between the
window's fences. -/
theorem fence_replaceKeys_mid (p w : Nat) (ts : List Nat) (hw : 1 ≤ w)
    (hpw : p + w ≤ ks.length + 1) (j : Nat) (hj1 : p ≤ j) (hj2 : j ≤ p + ts.length + 1) :
    fence lo hi (replaceKeys ks p w ts) j =
      fence (fence lo hi ks p) (fence lo hi ks (p + w)) ts (j - p) := by
  have hlen := length_replaceKeys p w ts hw hpw
  rcases Nat.eq_or_lt_of_le hj1 with rfl | hlt
  · rw [Nat.sub_self, fence_zero, fence_replaceKeys_left p w ts hw hpw p le_rfl]
  rcases Nat.eq_or_lt_of_le hj2 with rfl | hlt'
  · -- the window's last fence is the one after it
    rw [fence_replaceKeys_right p w ts hw hpw _ le_rfl, fence_of_eq _ _ ts (by omega)]
    congr 1
    omega
  · -- a new key
    rw [replaceKeys] at hlen ⊢
    rw [fence_of_pos (by omega) (by omega), fence_of_pos (by omega) (by omega),
      List.getElem_append_left (by simp; omega), List.getElem_append_right (by simp; omega)]
    congr 1
    simp only [List.length_take]
    omega

/-- The keys between fences `p` and `p + w`. -/
theorem KeysOk.window (h : KeysOk lo hi ks) (p w : Nat) (hw : 1 ≤ w)
    (hpw : p + w ≤ ks.length + 1) :
    KeysOk (fence lo hi ks p) (fence lo hi ks (p + w)) ((ks.drop p).take (w - 1)) := by
  obtain ⟨hpos, hmono⟩ := keysOk_iff_fence.1 h
  refine keysOk_iff_fence.2 ⟨fun k hk => hpos k (List.mem_of_mem_drop (List.mem_of_mem_take hk)),
    fun j hj => ?_⟩
  have hwl : ((ks.drop p).take (w - 1)).length = w - 1 := by simp; omega
  rw [fence_window p w j hw hpw (by omega), fence_window p w (j + 1) hw hpw (by omega)]
  exact hmono (p + j) (by omega)

/-- The keys between fences `p` and `p + w` replaced by others between the
same fences. -/
theorem KeysOk.replace (h : KeysOk lo hi ks) (p w : Nat) (hw : 1 ≤ w)
    (hpw : p + w ≤ ks.length + 1) {ts : List Nat}
    (ht : KeysOk (fence lo hi ks p) (fence lo hi ks (p + w)) ts) :
    KeysOk lo hi (replaceKeys ks p w ts) := by
  obtain ⟨hpos, hmono⟩ := keysOk_iff_fence.1 h
  obtain ⟨hpos', hmono'⟩ := keysOk_iff_fence.1 ht
  have hklen := @length_replaceKeys ks p w ts hw hpw
  refine keysOk_iff_fence.2 ⟨fun k hk => ?_, fun j hj => ?_⟩
  · simp only [replaceKeys, List.mem_append] at hk
    rcases hk with (hk | hk) | hk
    · exact hpos k (List.take_subset _ _ hk)
    · exact hpos' k hk
    · exact hpos k (List.drop_subset _ _ hk)
  · -- the fences are monotone below, inside and above the window
    rcases Nat.lt_or_ge j p with hjp | hjp
    · rw [fence_replaceKeys_left p w ts hw hpw j (by omega),
        fence_replaceKeys_left p w ts hw hpw (j + 1) hjp]
      exact hmono j (by omega)
    rcases Nat.lt_or_ge j (p + ts.length + 1) with hjt | hjt
    · rw [fence_replaceKeys_mid p w ts hw hpw j hjp (by omega),
        fence_replaceKeys_mid p w ts hw hpw (j + 1) (by omega) hjt,
        show j + 1 - p = j - p + 1 by omega]
      exact hmono' (j - p) (by omega)
    · rw [fence_replaceKeys_right p w ts hw hpw j hjt,
        fence_replaceKeys_right p w ts hw hpw (j + 1) (by omega),
        show j + 1 + w - 1 - ts.length = j + w - 1 - ts.length + 1 by omega]
      exact hmono _ (by rw [hklen] at hj; omega)

end Fence

/-! ## Windows of a list -/

section Window

variable {α : Type} (l m : List α) (p w : Nat)

theorem getElem_replace_left (i : Nat) (hi : i < p) (hpl : p ≤ l.length)
    (h : i < (l.take p ++ m ++ l.drop (p + w)).length) (hil : i < l.length) :
    (l.take p ++ m ++ l.drop (p + w))[i] = l[i] := by
  rw [List.getElem_append_left (by simp at h ⊢; omega), List.getElem_append_left (by simp at h ⊢; omega),
    List.getElem_take]

theorem getElem_replace_mid (i : Nat) (hi1 : p ≤ i) (hpl : p ≤ l.length)
    (h : i < (l.take p ++ m ++ l.drop (p + w)).length) (him : i - p < m.length) :
    (l.take p ++ m ++ l.drop (p + w))[i] = m[i - p] := by
  have hp : (l.take p).length = p := by simp; omega
  rw [List.getElem_append_left (by simp; omega), List.getElem_append_right (by omega)]
  simp only [hp]

theorem getElem_replace_right (i : Nat) (hi : p + m.length ≤ i) (hpl : p ≤ l.length)
    (h : i < (l.take p ++ m ++ l.drop (p + w)).length) (hir : i - m.length + w < l.length) :
    (l.take p ++ m ++ l.drop (p + w))[i] = l[i - m.length + w] := by
  have hp : (l.take p ++ m).length = p + m.length := by simp; omega
  rw [List.getElem_append_right (by omega), List.getElem_drop]
  congr 1
  rw [hp]
  omega

end Window

/-! ## Chains -/

/-- The keys and children of an internal node at `bd`: non-zero keys, sorted
within the bounds, and each child valid between its fences. -/
structure Chain (bd : Bounds) (ks : List Nat) (cs : List Node) : Prop where
  hlen : cs.length = ks.length + 1
  hkeys : KeysOk bd.lo bd.hi ks
  hchild : ∀ i (hi : i < cs.length), Valid cfg (bd.child ks i) cs[i]

/-- The place of the children `[p, p + w)` of a node at `bd` with keys `ks`,
taken together: between fences `p` and `p + w`. -/
def Bounds.window (bd : Bounds) (ks : List Nat) (p w : Nat) : Bounds :=
  ⟨false, bd.height, fence bd.lo bd.hi ks p, fence bd.lo bd.hi ks (p + w)⟩

section Chain

variable {cfg} {bd : Bounds} {b : Nat} {ks : List Nat} {cs : List Node}

theorem InternalOk.chain (h : InternalOk cfg bd b ks cs) : Chain cfg bd ks cs :=
  ⟨h.hlen, h.hkeys, h.hchild⟩

theorem Chain.internalOk (h : Chain cfg bd ks cs) (hb : b ≠ 0)
    (hcap : ks.length ≤ cfg.keyCountInternal) (hne : ks ≠ [])
    (hfill : bd.root = false → cfg.minKeyCount false ≤ ks.length) (hheight : 2 ≤ bd.height) :
    InternalOk cfg bd b ks cs :=
  ⟨hb, h.hlen, hcap, h.hkeys, hne, hfill, hheight, h.hchild⟩

/-- The children `[p, p + w)` with the keys between them. -/
theorem Chain.window (h : Chain cfg bd ks cs) (p w : Nat) (hw : 1 ≤ w) (hpw : p + w ≤ cs.length) :
    Chain cfg (bd.window ks p w) ((ks.drop p).take (w - 1)) ((cs.drop p).take w) := by
  have hlen := h.hlen
  have hfw := fun j (hj : j ≤ w) =>
    @fence_window bd.lo bd.hi ks p w j hw (by omega) hj
  refine ⟨by simp; omega, h.hkeys.window p w hw (by omega), fun i hi => ?_⟩
  · have hi' : i < w := by simp at hi; omega
    have hbd : (bd.window ks p w).child ((ks.drop p).take (w - 1)) i = bd.child ks (p + i) := by
      simp only [Bounds.child, Bounds.window, hfw i (by omega), hfw (i + 1) (by omega)]
      rfl
    rw [hbd, List.getElem_take, List.getElem_drop]
    exact h.hchild (p + i) (by omega)

/-- A window of children replaced by a chain between the same fences: only
the children outside the window need to be valid. -/
theorem chain_replace_of (hlen : cs.length = ks.length + 1) (hkeys : KeysOk bd.lo bd.hi ks)
    (p w : Nat) (hw : 1 ≤ w) (hpw : p + w ≤ cs.length)
    (hout : ∀ i (hi : i < cs.length), (i < p ∨ p + w ≤ i) → Valid cfg (bd.child ks i) cs[i])
    {ts : List Nat} {ms : List Node} (hm : Chain cfg (bd.window ks p w) ts ms) :
    Chain cfg bd (replaceKeys ks p w ts) (cs.take p ++ ms ++ cs.drop (p + w)) := by
  have hmlen := hm.hlen
  have hpw' : p + w ≤ ks.length + 1 := by omega
  have hL := fun j (hj : j ≤ p) =>
    @fence_replaceKeys_left bd.lo bd.hi ks p w ts hw hpw' j hj
  have hM := fun j (hj1 : p ≤ j) (hj2 : j ≤ p + ts.length + 1) =>
    @fence_replaceKeys_mid bd.lo bd.hi ks p w ts hw hpw' j hj1 hj2
  have hR := fun j (hj : p + ts.length + 1 ≤ j) =>
    @fence_replaceKeys_right bd.lo bd.hi ks p w ts hw hpw' j hj
  have hklen := @length_replaceKeys ks p w ts hw hpw'
  refine ⟨by simp; omega, hkeys.replace p w hw hpw' hm.hkeys, fun i hi => ?_⟩
  · simp only [List.length_append, List.length_take, List.length_drop] at hi
    rcases Nat.lt_or_ge i p with hip | hip
    · -- a child left of the window
      have hbd : bd.child (replaceKeys ks p w ts) i = bd.child ks i := by
        simp only [Bounds.child, hL i (by omega), hL (i + 1) hip]
      rw [hbd, getElem_replace_left cs ms p w i hip (by omega) (by simp; omega) (by omega)]
      exact hout i (by omega) (.inl hip)
    rcases Nat.lt_or_ge i (p + ms.length) with hit | hit
    · -- a child of the window
      have hbd : bd.child (replaceKeys ks p w ts) i = (bd.window ks p w).child ts (i - p) := by
        simp only [Bounds.child, Bounds.window, hM i hip (by omega), hM (i + 1) (by omega) (by omega),
          show i + 1 - p = i - p + 1 by omega]
      rw [hbd, getElem_replace_mid cs ms p w i hip (by omega) (by simp; omega) (by omega)]
      exact hm.hchild (i - p) (by omega)
    · -- a child right of the window
      have hbd : bd.child (replaceKeys ks p w ts) i = bd.child ks (i - ms.length + w) := by
        simp only [Bounds.child, hR i (by omega), hR (i + 1) (by omega),
          show i + w - 1 - ts.length = i - ms.length + w by omega,
          show i + 1 + w - 1 - ts.length = i - ms.length + w + 1 by omega]
      rw [hbd, getElem_replace_right cs ms p w i hit (by omega) (by simp; omega) (by omega)]
      exact hout _ (by omega) (.inr (by omega))

/-- A window of children replaced by a chain between the same fences. -/
theorem Chain.replace (h : Chain cfg bd ks cs) (p w : Nat) (hw : 1 ≤ w) (hpw : p + w ≤ cs.length)
    {ts : List Nat} {ms : List Node} (hm : Chain cfg (bd.window ks p w) ts ms) :
    Chain cfg bd (replaceKeys ks p w ts) (cs.take p ++ ms ++ cs.drop (p + w)) :=
  chain_replace_of h.hlen h.hkeys p w hw hpw (fun i hi _ => h.hchild i hi) hm

/-- A separator with the children on either side of it. -/
theorem Chain.pair {root : Bool} {H lo hi k : Nat} {l r : Node}
    (hl : Valid cfg ⟨false, H - 1, lo, k⟩ l) (hr : Valid cfg ⟨false, H - 1, k, hi⟩ r) (hk : 0 < k)
    (hlo : lo ≤ k) (hhi : k ≤ hi) : Chain cfg ⟨root, H, lo, hi⟩ [k] [l, r] := by
  refine ⟨rfl, ⟨by simpa using hk, by simp; omega⟩, fun i hi => ?_⟩
  match i, hi with
  | 0, _ => exact hl
  | 1, _ => exact hr

/-- The first `s + 1` children with the keys between them, and the rest:
the two halves of a split at key `s`, which goes to the parent. -/
theorem Chain.halves (h : Chain cfg bd ks cs) (s : Nat) (hs : s < ks.length) :
    Chain cfg ⟨false, bd.height, bd.lo, ks[s]⟩ (ks.take s) (cs.take (s + 1)) ∧
      Chain cfg ⟨false, bd.height, ks[s], bd.hi⟩ (ks.drop (s + 1)) (cs.drop (s + 1)) := by
  have hlen := h.hlen
  have h1 := h.window 0 (s + 1) (by omega) (by omega)
  have h2 := h.window (s + 1) (cs.length - (s + 1)) (by omega) (by omega)
  have hb1 : bd.window ks 0 (s + 1) = ⟨false, bd.height, bd.lo, ks[s]⟩ := by
    simp only [Bounds.window, fence_zero, Nat.zero_add, fence_succ s hs]
  have hb2 : bd.window ks (s + 1) (cs.length - (s + 1)) = ⟨false, bd.height, ks[s], bd.hi⟩ := by
    simp only [Bounds.window, fence_succ s hs, show s + 1 + (cs.length - (s + 1)) =
      ks.length + 1 by omega, fence_length]
  rw [hb1, List.drop_zero, Nat.add_sub_cancel] at h1
  rw [hb2, List.take_of_length_le (by simp; omega), List.take_of_length_le (by simp)] at h2
  exact ⟨h1, h2⟩

end Chain

/-! ## Leaves -/

/-- The keys and data of a leaf with bounds `[lo, hi]`: sorted keys, and the
first one `lo` unless the leaf is leftmost. -/
structure LeafChain (lo hi : Nat) (ks : List Nat) (ds : List BlockMac) : Prop where
  hlen : ds.length = ks.length
  hkeys : KeysOk lo hi ks
  hfirst : lo ≠ 0 → ∀ k ∈ ks.head?, k = lo

section Leaf

variable {cfg} {bd : Bounds} {b : Nat} {ks : List Nat} {ds : List BlockMac}

theorem LeafOk.leafChain (h : LeafOk cfg bd b ks ds) : LeafChain bd.lo bd.hi ks ds :=
  ⟨h.hlen, h.hkeys, h.hfirst⟩

theorem LeafChain.leafOk (h : LeafChain bd.lo bd.hi ks ds) (hb : b ≠ 0)
    (hcap : ks.length ≤ cfg.keyCountLeaf)
    (hfill : bd.root = false → cfg.minKeyCount true ≤ ks.length) (hheight : bd.height = 1) :
    LeafOk cfg bd b ks ds :=
  ⟨hb, h.hlen, hcap, h.hkeys, h.hfirst, hfill, hheight⟩

theorem keysOk_cons {lo hi k : Nat} {ks : List Nat} :
    KeysOk lo hi (k :: ks) ↔ 0 < k ∧ lo ≤ k ∧ KeysOk k hi ks := by
  constructor
  · intro h
    have hs := h.sorted
    simp only [List.cons_append, List.pairwise_cons, List.mem_cons, List.mem_append] at hs
    exact ⟨h.pos k (by simp), hs.1 k (.inl rfl),
      ⟨fun k' hk' => h.pos k' (by simp [hk']), by simpa using hs.2⟩⟩
  · rintro ⟨hk, hlo, h⟩
    refine ⟨fun k' hk' => ?_, ?_⟩
    · rcases List.mem_cons.1 hk' with rfl | hk'
      · exact hk
      · exact h.pos k' hk'
    · have hs := h.sorted
      simp only [List.cons_append, List.pairwise_cons] at hs ⊢
      refine ⟨fun a ha => ?_, hs⟩
      rcases List.mem_cons.1 ha with rfl | ha
      · exact hlo
      · exact le_trans hlo (hs.1 a ha)

/-- The first `s` entries and the rest: the two halves of a split at entry
`s`, whose key goes to the parent. -/
theorem LeafChain.halves {lo hi : Nat} (h : LeafChain lo hi ks ds) (s : Nat) (hs : s < ks.length) :
    LeafChain lo ks[s] (ks.take s) (ds.take s) ∧ LeafChain ks[s] hi (ks.drop s) (ds.drop s) := by
  have h1 := h.hkeys.window 0 (s + 1) (by omega) (by omega)
  have h2 := h.hkeys.window (s + 1) (ks.length - s) (by omega) (by omega)
  rw [fence_zero, Nat.zero_add, fence_succ s hs, List.drop_zero, Nat.add_sub_cancel] at h1
  rw [fence_succ s hs, show s + 1 + (ks.length - s) = ks.length + 1 by omega, fence_length,
    List.take_of_length_le (by simp; omega)] at h2
  have hpos := h.hkeys.pos _ (List.getElem_mem hs)
  have hlo := (h.hkeys.mem_bounds (List.getElem_mem hs)).1
  have hlen := h.hlen
  refine ⟨⟨by simp; omega, h1, fun hlo0 k hk => ?_⟩, ⟨by simp; omega, ?_, fun _ k hk => ?_⟩⟩
  · -- the left half keeps the first key
    have hne : ks ≠ [] := List.ne_nil_of_length_pos (by omega)
    obtain ⟨k0, ks', rfl⟩ := List.exists_cons_of_ne_nil hne
    rcases s with _ | s
    · simp at hk
    · simp only [List.take_succ_cons, List.head?_cons, Option.mem_def, Option.some.injEq] at hk
      exact h.hfirst hlo0 k (by simp [hk])
  · rw [List.drop_eq_getElem_cons hs]
    exact keysOk_cons.2 ⟨hpos, le_rfl, h2⟩
  · -- the right half starts with the separator
    rw [List.drop_eq_getElem_cons hs, List.head?_cons, Option.mem_def, Option.some.injEq] at hk
    exact hk.symm

/-- A key put into a leaf between the fences around its slot keeps the leaf's
keys in order. -/
theorem LeafChain.insert {lo hi : Nat} (h : LeafChain lo hi ks ds) {i key : Nat} (d : BlockMac)
    (hik : i ≤ ks.length) (hkey : 0 < key) (hle : fence lo hi ks i ≤ key)
    (hge : key ≤ fence lo hi ks (i + 1)) (hfirst : lo ≠ 0 → i = 0 → key = lo) :
    LeafChain lo hi (ks.take i ++ key :: ks.drop i) (ds.take i ++ d :: ds.drop i) := by
  have hlen := h.hlen
  have hrep : ks.take i ++ key :: ks.drop i = replaceKeys ks i 1 [key] := by
    simp [replaceKeys]
  refine ⟨by simp; omega, ?_, fun hlo k hk => ?_⟩
  · rw [hrep]
    exact h.hkeys.replace i 1 le_rfl (by omega)
      (keysOk_cons.2 ⟨hkey, hle, ⟨by simp, by simpa using hge⟩⟩)
  · rcases Nat.eq_zero_or_pos i with rfl | hpos
    · -- the new key comes first
      simp only [List.take_zero, List.drop_zero, List.nil_append, List.head?_cons, Option.mem_def,
        Option.some.injEq] at hk
      rw [← hk]
      exact hfirst hlo rfl
    · -- the first key stays first
      obtain ⟨k0, ks', rfl⟩ :=
        List.exists_cons_of_ne_nil (List.ne_nil_of_length_pos (show 0 < ks.length by omega))
      obtain ⟨j, rfl⟩ : ∃ j, i = j + 1 := ⟨i - 1, by omega⟩
      simp only [List.take_succ_cons, List.cons_append, List.head?_cons, Option.mem_def,
        Option.some.injEq] at hk
      exact h.hfirst hlo k (by simp [hk])

end Leaf

end BlockTree
