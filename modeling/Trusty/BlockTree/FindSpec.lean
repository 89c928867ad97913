import Trusty.BlockTree.Search
import Trusty.BlockTree.Remove

/-!
# Finding the entry to remove

`findEntry` is the search of `block_tree_remove`: `block_tree_walk` to
`key`, and if the slot there does not hold the data block asked for, a
second walk to the greatest key below `key` and `block_tree_path_next` from
there until a slot holds `key` and that block (`searchEntry`, with as many
steps as the leaves have slots).  On a valid tree:

* `findEntry_slot`: every path `findEntry` returns leads to a slot of the
  tree;
* `findEntry_some`: `findEntry` returns a path when the tree holds an entry
  with `key` and the data block `data` (not `0`), even among other entries
  with `key`.

The search loop is proved by induction on its fuel, with the entry sought
among those at and after the slot (`searchEntry_some`).
-/

namespace BlockTree

variable {cfg : Config}

/-! ## The fuel of the search -/

theorem leafSlotsList_eq_sum (cs : List Node) :
    leafSlots.leafSlotsList cs = (cs.map leafSlots).sum := by
  induction cs with
  | nil => rfl
  | cons c cs ih => simp only [leafSlots.leafSlotsList, ih, List.map_cons, List.sum_cons]

/-- A node has no more entries than its leaves have slots: the search of
`findEntry` can step past every entry. -/
theorem length_entries_le_leafSlots : ∀ n : Node, (entries n).length ≤ leafSlots n
  | .empty => le_rfl
  | .leaf _ ks ds => by
    simp only [entries, leafSlots]
    exact (List.takeWhile_sublist _).length_le.trans (by simp)
  | .internal _ _ cs => by
    simp only [entries, entriesList_eq_flatMap, leafSlots, leafSlotsList_eq_sum,
      List.length_flatMap]
    exact List.sum_le_sum fun c _ => length_entries_le_leafSlots c

/-! ## Steps between slots -/

section Steps

variable {t : Tree} {bd : Bounds}

/-- The key of a slot that holds an entry is that entry's key. -/
theorem PathIn.getKey_some (hv : Valid cfg bd t.root) {P : Path} {A B : List (Nat × BlockMac)}
    {e : Nat × BlockMac} (h : PathIn cfg (Spot.top bd t.root) P.entry A (some e) B) :
    P.getKey = e.1 := by
  simpa using h.getKey_eq (Spot.Ok.top_ok hv) P.data

/-- An entry at a slot is an entry of the tree, so its key is not `0`. -/
theorem PathIn.key_pos (hv : Valid cfg bd t.root) {es : List PathEntry} {A B : List (Nat × BlockMac)}
    {x : Option (Nat × BlockMac)} (h : PathIn cfg (Spot.top bd t.root) es A x B) :
    ∀ e ∈ x.toList ++ B, 0 < e.1 := by
  intro e he
  have hE := h.entries_eq
  simp only [Spot.top, List.nil_append, List.append_nil] at hE
  exact (hv.entries_bounds e (by rw [← hE, List.append_assoc]; exact List.mem_append_right _ he)).1

/-- `block_tree_path_next` from a slot with a key leads to a slot. -/
theorem pathNext_slot_of_getKey (hv : Valid cfg bd t.root) {P : Path} {A B : List (Nat × BlockMac)}
    {x : Option (Nat × BlockMac)} (h : PathIn cfg (Spot.top bd t.root) P.entry A x B)
    (hk : P.getKey ≠ 0) :
    ∃ P' A' x' B', pathNext cfg t P = some P' ∧ PathIn cfg (Spot.top bd t.root) P'.entry A' x' B' := by
  cases x with
  | some e =>
    obtain ⟨P', hnext, hcase⟩ := pathNext_entry t hv h
    rcases hcase with ⟨-, hin, -⟩ | ⟨y, B', -, hin, -⟩
    · exact ⟨P', _, _, _, hnext, hin⟩
    · exact ⟨P', _, _, _, hnext, hin⟩
  | none =>
    cases B with
    | nil =>
      -- past the last entry the key is `0`
      have hkey := h.getKey_eq (Spot.Ok.top_ok hv) P.data
      simp only [Option.toList_none, List.append_nil, List.head?_nil, Option.map_none,
        Option.getD_none] at hkey
      exact absurd hkey hk
    | cons y B =>
      obtain ⟨P', hnext, hin, -⟩ := pathNext_slot t hv h
      exact ⟨P', _, _, _, hnext, hin⟩

end Steps

/-! ## The search loop -/

section Loop

variable {t : Tree} {bd : Bounds} {key data : Nat}

/-- The loop stops at a slot it accepts. -/
theorem searchEntry_accept {fuel : Nat} {P : Path} (h : P.data.block = data ∧ P.getKey = key) :
    searchEntry cfg t key data fuel P = some P := by
  unfold searchEntry
  rw [if_pos h]

/-- From a slot with a key it does not accept, the loop goes on at the next
slot, with one unit of fuel less. -/
theorem searchEntry_succ {fuel : Nat} {P : Path} (h : ¬(P.data.block = data ∧ P.getKey = key))
    (hk : P.getKey ≠ 0) :
    searchEntry cfg t key data (fuel + 1) P = (pathNext cfg t P).bind (searchEntry cfg t key data fuel) := by
  conv_lhs => unfold searchEntry
  rw [if_neg h, if_neg hk]

/-- Every path the search loop returns leads to a slot: it only steps on from
a slot with a key. -/
theorem searchEntry_slot (hv : Valid cfg bd t.root) :
    ∀ (fuel : Nat) (P : Path) {A B : List (Nat × BlockMac)} {x : Option (Nat × BlockMac)},
      PathIn cfg (Spot.top bd t.root) P.entry A x B →
      ∀ P', searchEntry cfg t key data fuel P = some P' →
        ∃ A' x' B', PathIn cfg (Spot.top bd t.root) P'.entry A' x' B' := by
  intro fuel
  induction fuel with
  | zero =>
    intro P A B x h P' hs
    by_cases hfound : P.data.block = data ∧ P.getKey = key
    · rw [searchEntry_accept hfound, Option.some.injEq] at hs
      exact ⟨A, x, B, hs ▸ h⟩
    · unfold searchEntry at hs
      rw [if_neg hfound] at hs
      split_ifs at hs
  | succ fuel ih =>
    intro P A B x h P' hs
    by_cases hfound : P.data.block = data ∧ P.getKey = key
    · rw [searchEntry_accept hfound, Option.some.injEq] at hs
      exact ⟨A, x, B, hs ▸ h⟩
    by_cases hk : P.getKey = 0
    · unfold searchEntry at hs
      rw [if_neg hfound, if_pos hk] at hs
      cases hs
    rw [searchEntry_succ hfound hk] at hs
    obtain ⟨P'', A', x', B', hnext, hin⟩ := pathNext_slot_of_getKey hv h hk
    rw [hnext, Option.bind_some] at hs
    exact ih P'' hin P' hs

/-- A slot whose data block and key the search accepts holds an entry with
them: an empty slot has no data block. -/
theorem PathIn.found (hv : Valid cfg bd t.root) {P : Path} {A B : List (Nat × BlockMac)}
    {x : Option (Nat × BlockMac)} (h : PathIn cfg (Spot.top bd t.root) P.entry A x B)
    (hP : P.data = (x.map fun e => e.2.read).getD .zero) (hd : data ≠ 0)
    (hfound : P.data.block = data ∧ P.getKey = key) :
    ∃ e, x = some e ∧ e.1 = key ∧ e.2.block = data := by
  cases x with
  | none =>
    rw [hP] at hfound
    exact absurd hfound.1.symm hd
  | some e =>
    refine ⟨e, rfl, by rw [← h.getKey_some hv, hfound.2], ?_⟩
    rw [hP] at hfound
    by_cases h0 : e.2.block = 0
    · simp only [Option.map_some, Option.getD_some, BlockMac.read, if_pos h0] at hfound
      exact absurd hfound.1.symm hd
    · simpa only [Option.map_some, Option.getD_some, BlockMac.read, if_neg h0] using hfound.1

/-- A slot that holds the entry sought ends the search there. -/
theorem searchEntry_found (hv : Valid cfg bd t.root) (fuel : Nat) {P : Path}
    {A B : List (Nat × BlockMac)} {e : Nat × BlockMac}
    (h : PathIn cfg (Spot.top bd t.root) P.entry A (some e) B) (hP : P.data = e.2.read)
    (hkey : e.1 = key) (hdata : e.2.block = data) (hd : data ≠ 0) :
    searchEntry cfg t key data fuel P = some P := by
  have hread : e.2.read = e.2 := by
    rw [BlockMac.read, if_neg (by omega)]
  exact searchEntry_accept ⟨by rw [hP, hread, hdata], by rw [h.getKey_some hv, hkey]⟩

/-- The search loop finds an entry with `key` and the data block `data` at or
after the slot, given a step for each entry after it.  By induction on the
fuel: a slot without the entry sought has a key, and the step from it leaves
the entry at or after the next slot, one entry fewer after it. -/
theorem searchEntry_some (hv : Valid cfg bd t.root) (hd : data ≠ 0) {target : Nat × BlockMac}
    (hkey : target.1 = key) (hdata : target.2.block = data) :
    ∀ (fuel : Nat) (P : Path) {A B : List (Nat × BlockMac)} {x : Option (Nat × BlockMac)},
      PathIn cfg (Spot.top bd t.root) P.entry A x B → P.data = (x.map fun e => e.2.read).getD .zero →
      target ∈ x.toList ++ B → B.length ≤ fuel →
      ∃ P' A' e B', searchEntry cfg t key data fuel P = some P' ∧
        PathIn cfg (Spot.top bd t.root) P'.entry A' (some e) B' ∧ e.1 = key ∧ e.2.block = data := by
  intro fuel
  induction fuel with
  | zero =>
    intro P A B x h hP hmem hlen
    -- no entry after the slot: the slot holds the entry sought
    rw [List.eq_nil_of_length_eq_zero (Nat.le_zero.mp hlen), List.append_nil] at hmem
    cases x with
    | none => cases hmem
    | some e =>
      obtain rfl : target = e := List.mem_singleton.mp hmem
      exact ⟨P, A, target, B, searchEntry_found hv 0 h hP hkey hdata hd, h, hkey, hdata⟩
  | succ fuel ih =>
    intro P A B x h hP hmem hlen
    have hnext : ∀ P', pathNext cfg t P = some P' →
        (∃ P'' A' e B', searchEntry cfg t key data fuel P' = some P'' ∧
          PathIn cfg (Spot.top bd t.root) P''.entry A' (some e) B' ∧ e.1 = key ∧ e.2.block = data) →
        ∃ P'' A' e B', searchEntry cfg t key data (fuel + 1) P = some P'' ∧
          PathIn cfg (Spot.top bd t.root) P''.entry A' (some e) B' ∧ e.1 = key ∧ e.2.block = data := by
      intro P' hstep hs
      by_cases hfound : P.data.block = data ∧ P.getKey = key
      · -- the search stops at the first slot it accepts
        obtain ⟨e, rfl, he⟩ := h.found hv hP hd hfound
        exact ⟨P, A, e, B, searchEntry_accept hfound, h, he⟩
      -- a slot with entries at or after it has a key
      have hk : P.getKey ≠ 0 := by
        obtain ⟨f, fs, hfs⟩ := List.exists_cons_of_ne_nil (List.ne_nil_of_mem hmem)
        have hpos := h.key_pos hv f (by rw [hfs]; exact List.mem_cons_self)
        rw [h.getKey_eq (Spot.Ok.top_ok hv) P.data, hfs]
        simp only [List.head?_cons, Option.map_some, Option.getD_some]
        omega
      obtain ⟨P'', A', e, B', hs, hin⟩ := hs
      refine ⟨P'', A', e, B', ?_, hin⟩
      rw [searchEntry_succ hfound hk, hstep, Option.bind_some]
      exact hs
    cases x with
    | none =>
      -- an empty slot: the step reaches the first entry after it
      obtain ⟨y, B', rfl⟩ := List.exists_cons_of_ne_nil (List.ne_nil_of_mem hmem)
      obtain ⟨P', hstep, hin, hdata'⟩ := pathNext_slot t hv h
      exact hnext P' hstep (ih P' hin hdata' hmem (by simp only [List.length_cons] at hlen; omega))
    | some e =>
      by_cases he : target = e
      · subst he
        exact ⟨P, A, target, B, searchEntry_found hv _ h hP hkey hdata hd, h, hkey, hdata⟩
      -- the entry sought is after the slot's
      have hmemB : target ∈ B := (List.mem_cons.mp hmem).resolve_left he
      obtain ⟨P', hstep, hcase⟩ := pathNext_entry t hv h
      rcases hcase with ⟨rfl, -, -⟩ | ⟨y, B', rfl, hin, hdata'⟩
      · cases hmemB
      · exact hnext P' hstep (ih P' hin hdata' hmemB (by simp only [List.length_cons] at hlen; omega))

end Loop

/-! ## `findEntry` -/

section Find

variable {t : Tree} {bd : Bounds}

/-- The keys before the slot `leafIndex` picks with `key_is_max` are below
`key`. -/
theorem lt_of_mem_take_leafIndex {ks : List Nat} {key k : Nat}
    (hk : k ∈ ks.take (leafIndex ks key true)) : k < key := by
  obtain ⟨m, hm, rfl⟩ := List.getElem_of_mem hk
  have hle : leafIndex ks key true ≤ ks.findIdx fun k => decide (key ≤ k) := by
    rw [leafIndex_true]
    dsimp only
    split_ifs <;> omega
  rw [List.getElem_take]
  simp only [List.length_take] at hm
  exact lt_of_lt_findIdx ks key m (by omega) (by omega)

/-- `block_tree_walk` with `key_is_max` ends at a slot whose entries before
it have keys at most `key`. -/
theorem walk_greatest_before (hv : Valid cfg bd t.root) (hH : bd.height ≤ maxDepth) (key : Nat) :
    ∃ P A x B, walk cfg t key true = some P ∧ PathIn cfg (Spot.top bd t.root) P.entry A x B ∧
      P.data = (x.map fun e => e.2.read).getD .zero ∧ ∀ f ∈ A, f.1 ≤ key := by
  obtain ⟨pre, u, b, ks, ds, hp, hn, hl, hu, hr, hwalk⟩ := walk_pathTo t hv hH key true
  refine ⟨_, _, _, _, hwalk, ⟨pre, u, b, ks, ds, _, hp, hn, hl, leafIndex_le ks key true, rfl, rfl,
    rfl, rfl⟩, ?_, fun f hf => ?_⟩
  · rw [getData_mkLeaf b ks ds (by rw [hl.hlen]; exact hl.hcap), read_getD_eq hl.hlen]
  rcases List.mem_append.mp hf with hleft | hleaf
  · -- left of the leaf: at most its first key, which is at most `key`
    obtain ⟨h0, h1, h2⟩ := hu.left_le_key hr hl hleft
    omega
  · have hfst : f.1 ∈ ((ks.zip ds).take (leafIndex ks key true)).map Prod.fst :=
      List.mem_map_of_mem hleaf
    rw [List.map_take, List.map_fst_zip (by rw [hl.hlen])] at hfst
    exact (lt_of_mem_take_leafIndex hfst).le

/-- Every path `findEntry` returns leads to a slot of the tree. -/
theorem findEntry_slot (hv : Valid cfg bd t.root) (hH : bd.height ≤ maxDepth) (key data : Nat)
    {P : Path} (h : findEntry cfg t key data = some P) :
    ∃ A x B, PathIn cfg (Spot.top bd t.root) P.entry A x B := by
  obtain ⟨P1, A1, x1, B1, hw1, hin1, -, -⟩ := walk_least t hv hH key
  obtain ⟨P2, A2, x2, B2, hw2, hin2, -, -⟩ := walk_greatest_before hv hH (key - 1)
  simp only [findEntry, hw1, hw2, Option.bind_eq_bind, Option.bind_some] at h
  by_cases hd : P1.data.block = data
  · rw [if_pos hd] at h
    cases h
    exact ⟨A1, x1, B1, hin1⟩
  · rw [if_neg hd] at h
    exact searchEntry_slot hv _ P2 hin2 P h

/-- `findEntry` finds an entry with `key` and the data block `data` (not
`0`) that the tree holds, at a slot holding such an entry: the walk to `key`
reaches the first entry with `key`, or the search from the greatest key
below `key` reaches one, as no entry before that slot has `key`. -/
theorem findEntry_some (hv : Valid cfg bd t.root) (hH : bd.height ≤ maxDepth) {key data : Nat}
    (hd : data ≠ 0) {A B : List (Nat × BlockMac)} {d : BlockMac}
    (hE : entries t.root = A ++ (key, d) :: B) (hdb : d.block = data) :
    ∃ P A' e B', findEntry cfg t key data = some P ∧
      PathIn cfg (Spot.top bd t.root) P.entry A' (some e) B' ∧ e.1 = key ∧ e.2.block = data := by
  have hmemE : (key, d) ∈ entries t.root := by rw [hE]; simp
  have hkey : 0 < key := (hv.entries_bounds (key, d) hmemE).1
  obtain ⟨P1, A1, x1, B1, hw1, hin1, hdata1, hge⟩ := walk_least t hv hH key
  obtain ⟨P2, A2, x2, B2, hw2, hin2, hdata2, hbefore⟩ := walk_greatest_before hv hH (key - 1)
  simp only [findEntry, hw1, hw2, Option.bind_eq_bind, Option.bind_some]
  by_cases hd1 : P1.data.block = data
  · -- the walk to `key` reads `key`, the tree holding it
    have hk1 : P1.getKey = key := by
      rcases hge with hleast | ⟨-, hbelow⟩
      · exact le_antisymm (hleast.2 ⟨List.mem_map_of_mem hmemE, le_rfl⟩) hleast.1.2
      · exact absurd (hbelow key (List.mem_map_of_mem hmemE)) (lt_irrefl key)
    obtain ⟨e, rfl, he⟩ := hin1.found hv hdata1 hd ⟨hd1, hk1⟩
    exact ⟨P1, A1, e, B1, by rw [if_pos hd1]; rfl, hin1, he⟩
  rw [if_neg hd1]
  have hE2 := hin2.entries_eq
  simp only [Spot.top, List.nil_append, List.append_nil] at hE2
  -- the entry sought is at or after the slot
  have hmem : (key, d) ∈ x2.toList ++ B2 := by
    have hin : (key, d) ∈ A2 ++ x2.toList ++ B2 := by rw [hE2, hE]; simp
    rw [List.append_assoc, List.mem_append] at hin
    exact hin.resolve_left fun hA => absurd (hbefore _ hA) (by simp only; omega)
  have hlen : B2.length ≤ leafSlots t.root := by
    have := length_entries_le_leafSlots t.root
    rw [← hE2] at this
    simp only [List.length_append] at this
    omega
  exact searchEntry_some hv hd rfl hdb _ P2 hin2 hdata2 hmem hlen

end Find

end BlockTree
