import Trusty.BlockTree.Search
import Trusty.Lib.Ranges

/-!
# `block_set.c`: a set of blocks as a tree of ranges

A `struct block_set` keeps its blocks as ranges `[start, end)` in a block
tree, each range's start as the key and its end as the data.  A set made by
`block_set_add_initial_range` (the free set of a new file system) holds one
range outside the tree, until the first transaction copies it.

* `blockSetFindNextBlock` is `block_set_find_next_block`; `findRange` is its
  first half: the range the walk to `min_block` ends at, the next one if that
  ends too early, or the initial range when the tree has none.
* `BlockSet.Ok`: the tree is valid and its ranges are sorted, as
  `block_set_check` checks them, and the initial range is clear or the only
  range of the set.
* `findRange_spec`: on such a set, the range found holds `min_block`, or lies
  after it with nothing of the set between, or is clear with nothing of the
  set from `min_block` on (`RangeAt`).
* `blockSetFindNextBlock_in`, `blockSetFindNextBlock_not_in`: the search
  answers the first block at or after `min_block` in the set (`0` when there
  is none), or the first one not in it.
-/

namespace Storage

open BlockTree

/-! ## The model -/

/-- `struct block_range`: the blocks from `start` up to, not including, `end`. -/
structure BlockRange where
  start : Nat
  «end» : Nat
  deriving DecidableEq, Repr

/-- `block_range_clear`, and `BLOCK_RANGE_INITIAL_VALUE`. -/
def BlockRange.clear : BlockRange := ⟨0, 0⟩

/-- `block_range_empty`; `none` where its assert `end >= start` fails. -/
def blockRangeEmpty (range : BlockRange) : Option Bool :=
  if range.start ≤ range.end then some (range.start == range.end) else none

/-- `block_in_range`; `none` where its assert `end >= start` fails. -/
def blockInRange (range : BlockRange) (block : Nat) : Option Bool :=
  if range.start ≤ range.end then some (decide (range.start ≤ block) && decide (block < range.end))
  else none

/-- `struct block_set`, the fields a search reads. -/
structure BlockSet where
  blockTree : Tree
  initialRange : BlockRange

variable (cfg : Config)

/-- `block_range_init_from_path`: the range of the entry a path ends at, clear
for an empty path; `none` where its assert that start and end are both zero
or both not fails. -/
def blockRangeInitFromPath (path : Path) : Option BlockRange :=
  if path.entry = [] then some BlockRange.clear
  else
    let range : BlockRange := ⟨path.getKey, path.data.block⟩
    if (range.end == 0) == (range.start == 0) then some range else none

/-- The first half of `block_set_find_next_block`: the range of the entry
with the greatest start at or below `minBlock`, the next one if that ends by
`minBlock`, and the initial range (cleared if it ends by `minBlock`) when
the tree gives none. -/
def findRange (set : BlockSet) (minBlock : Nat) : Option BlockRange := do
  let path ← walk cfg set.blockTree minBlock true
  let range ← blockRangeInitFromPath path
  let range ←
    if !(← blockRangeEmpty range) && decide (range.end ≤ minBlock) then
      (pathNext cfg set.blockTree path).bind blockRangeInitFromPath
    else pure range
  if ← blockRangeEmpty range then
    pure (if set.initialRange.end ≤ minBlock then BlockRange.clear else set.initialRange)
  else pure range

/-- `block_set_find_next_block`: the first block at or after `minBlock` in the
set (`inSet`) or not in it; `0` when the set has no block from `minBlock` on. -/
def blockSetFindNextBlock (set : BlockSet) (minBlock : Nat) (inSet : Bool) : Option Nat := do
  let range ← findRange cfg set minBlock
  let empty ← blockRangeEmpty range
  -- the tree walk finds no empty range but `0, 0`
  if empty && range.start != 0 then none
  else if (← blockInRange range minBlock) == inSet then some minBlock
  else if !inSet then (if empty then none else some range.end)
  else some range.start

/-! ## The set a block set stands for -/

namespace BlockSet

/-- The ranges of the tree, in key order. -/
def ranges (set : BlockSet) : List (Nat × Nat) :=
  (entries set.blockTree.root).map fun e => (e.1, e.2.block)

/-- Block `b` is in the set: in a range of the tree or in the initial range. -/
def Mem (set : BlockSet) (b : Nat) : Prop :=
  Ranges.Mem set.ranges b ∨ Ranges.InRange (set.initialRange.start, set.initialRange.end) b

/-- A set as `block_set_check` accepts it: no tree yet, or a valid tree; its
ranges sorted; the initial range clear, or the only range of the set. -/
structure Ok (set : BlockSet) : Prop where
  valid : set.blockTree.root = .empty ∨ ∃ bd, Valid cfg bd set.blockTree.root ∧ bd.height ≤ maxDepth
  sorted : Ranges.Sorted set.ranges
  initial : set.initialRange = BlockRange.clear ∨
    (0 < set.initialRange.start ∧ set.initialRange.start < set.initialRange.end ∧ set.ranges = [])

end BlockSet

/-- What the range `findRange` picks says about `b`: it holds `b`, with
its end the first block not in the set; or it starts after `b`, with its
start the first block in the set; or it is clear, with nothing of the set
from `b` on. -/
inductive RangeAt (S : Nat → Prop) (b : Nat) : BlockRange → Prop
  | inside (range : BlockRange) : range.start ≤ b → b < range.end →
      IsLeast {c | b ≤ c ∧ ¬ S c} range.end → RangeAt S b range
  | before (range : BlockRange) : b < range.start → range.start < range.end → ¬ S b →
      IsLeast {c | b ≤ c ∧ S c} range.start → RangeAt S b range
  | past : (∀ c, b ≤ c → ¬ S c) → RangeAt S b BlockRange.clear

/-! ## Ranges on a path -/

section Path

variable {cfg}

theorem read_block (d : BlockMac) : d.read.block = d.block := by
  unfold BlockMac.read
  split_ifs with h
  · rw [h]
    rfl
  · rfl

theorem entry_ne_nil_of_pathIn {s : Spot} {es : List PathEntry} {A B : List (Nat × BlockMac)}
    {x : Option (Nat × BlockMac)} (h : PathIn cfg s es A x B) : es ≠ [] := by
  obtain ⟨pre, t, b, ks, ds, i, -, -, -, -, rfl, -⟩ := h
  simp

/-- A walk in a tree without a root ends at once, with an empty path. -/
theorem walk_of_empty {t : Tree} (h : t.root = .empty) (key : Nat) (keyIsMax : Bool) :
    walk cfg t key keyIsMax = some ⟨[], .zero⟩ := by
  rw [walk, h, walkFrom.eq_def]
  rfl

@[simp] theorem blockRangeInitFromPath_nil (data : BlockMac) :
    blockRangeInitFromPath ⟨[], data⟩ = some BlockRange.clear := rfl

/-- A path to an entry gives the entry's range. -/
theorem blockRangeInitFromPath_entry {s : Spot} (hs : s.Ok cfg) {P : Path}
    {A B : List (Nat × BlockMac)} {e : Nat × BlockMac} (hin : PathIn cfg s P.entry A (some e) B)
    (hdata : P.data = e.2.read) (hk : 0 < e.1) (hd : 0 < e.2.block) :
    blockRangeInitFromPath P = some ⟨e.1, e.2.block⟩ := by
  have hkey : P.getKey = e.1 := by
    have := hin.getKey_eq hs P.data
    simpa using this
  have hk' : e.1 ≠ 0 := by omega
  have hd' : e.2.block ≠ 0 := by omega
  unfold blockRangeInitFromPath
  rw [if_neg (entry_ne_nil_of_pathIn hin)]
  simp [hkey, hdata, read_block, hk', hd']

/-- A path to the empty slot past the last entry gives the clear range. -/
theorem blockRangeInitFromPath_end {s : Spot} (hs : s.Ok cfg) {P : Path}
    {A : List (Nat × BlockMac)} (hin : PathIn cfg s P.entry A none []) (hdata : P.data = .zero) :
    blockRangeInitFromPath P = some BlockRange.clear := by
  have hkey : P.getKey = 0 := by
    have := hin.getKey_eq hs P.data
    simpa using this
  unfold blockRangeInitFromPath
  rw [if_neg (entry_ne_nil_of_pathIn hin)]
  simp [hkey, hdata, BlockMac.zero, BlockRange.clear]

end Path

/-! ## The range `findRange` picks -/

section FindRange

variable {cfg} {set : BlockSet} {b : Nat} {P : Path} {range : BlockRange}

@[simp] theorem clear_start : BlockRange.clear.start = 0 := rfl

@[simp] theorem blockRangeEmpty_clear : blockRangeEmpty BlockRange.clear = some true := rfl

@[simp] theorem blockInRange_clear (b : Nat) : blockInRange BlockRange.clear b = some false := by
  simp [blockInRange, BlockRange.clear]

theorem blockRangeEmpty_of_lt (h : range.start < range.end) : blockRangeEmpty range = some false := by
  simp [blockRangeEmpty, h.le, h.ne]

/-- The walk ends at a range that holds or passes `b`: that range. -/
theorem findRange_of_lt_end (hwalk : walk cfg set.blockTree b true = some P)
    (hr : blockRangeInitFromPath P = some range) (hne : range.start < range.end) (hb : b < range.end) :
    findRange cfg set b = some range := by
  simp [findRange, hwalk, hr, blockRangeEmpty_of_lt hne, Nat.not_le.mpr hb]

/-- The walk ends at a range that ends by `b`: the next one. -/
theorem findRange_of_next {P' : Path} {range' : BlockRange}
    (hwalk : walk cfg set.blockTree b true = some P) (hr : blockRangeInitFromPath P = some range)
    (hne : range.start < range.end) (hb : range.end ≤ b) (hnext : pathNext cfg set.blockTree P = some P')
    (hr' : blockRangeInitFromPath P' = some range') (hne' : range'.start < range'.end) :
    findRange cfg set b = some range' := by
  simp [findRange, hwalk, hr, blockRangeEmpty_of_lt hne, hb, hnext, hr', blockRangeEmpty_of_lt hne']

/-- The walk ends at no range: the initial range, cleared if it ends by `b`. -/
theorem findRange_of_clear (hwalk : walk cfg set.blockTree b true = some P)
    (hr : blockRangeInitFromPath P = some BlockRange.clear) :
    findRange cfg set b =
      some (if set.initialRange.end ≤ b then BlockRange.clear else set.initialRange) := by
  simp [findRange, hwalk, hr]

/-- The walk ends at a range that ends by `b`, the last one: as for no range. -/
theorem findRange_of_next_clear {P' : Path} (hwalk : walk cfg set.blockTree b true = some P)
    (hr : blockRangeInitFromPath P = some range) (hne : range.start < range.end) (hb : range.end ≤ b)
    (hnext : pathNext cfg set.blockTree P = some P')
    (hr' : blockRangeInitFromPath P' = some BlockRange.clear) :
    findRange cfg set b =
      some (if set.initialRange.end ≤ b then BlockRange.clear else set.initialRange) := by
  simp [findRange, hwalk, hr, blockRangeEmpty_of_lt hne, hb, hnext, hr']

end FindRange

/-! ## What `findRange` finds -/

section Spec

variable {cfg} {set : BlockSet} {b : Nat}

theorem RangeAt.congr {S T : Nat → Prop} {range : BlockRange} (h : ∀ c, S c ↔ T c)
    (hr : RangeAt S b range) : RangeAt T b range := by
  have hST : S = T := funext fun c => propext (h c)
  exact hST ▸ hr

/-- With the initial range clear, the set is the ranges of its tree. -/
theorem BlockSet.mem_iff_of_clear (hi : set.initialRange = BlockRange.clear) (c : Nat) :
    set.Mem c ↔ Ranges.Mem set.ranges c := by
  simp [BlockSet.Mem, hi, BlockRange.clear, Ranges.InRange]

/-- With no range in its tree, the set is its initial range. -/
theorem BlockSet.mem_iff_of_nil (hnil : set.ranges = []) (c : Nat) :
    set.Mem c ↔ Ranges.Mem [(set.initialRange.start, set.initialRange.end)] c := by
  simp [BlockSet.Mem, hnil]

/-- A set whose tree holds no range: the initial range, cleared when it ends
by `b`, is where `b` stands. -/
theorem rangeAt_of_nil (hs : set.Ok cfg) (hnil : set.ranges = []) :
    RangeAt set.Mem b
      (if set.initialRange.end ≤ b then BlockRange.clear else set.initialRange) := by
  refine RangeAt.congr (fun c => (BlockSet.mem_iff_of_nil hnil c).symm) ?_
  split_ifs with hend
  · -- the initial range ends by `b`: nothing from `b` on
    refine .past fun c hc hm => ?_
    simp only [Ranges.mem_cons, Ranges.not_mem_nil, or_false, Ranges.InRange] at hm
    omega
  · -- otherwise it is not the clear range, so it is the one range of the set
    obtain ⟨hpos, hlt⟩ : 0 < set.initialRange.start ∧ set.initialRange.start < set.initialRange.end := by
      rcases hs.initial with hclear | ⟨hpos, hlt, -⟩
      · rw [hclear] at hend
        exact absurd (Nat.zero_le b) hend
      · exact ⟨hpos, hlt⟩
    have hsorted : Ranges.Sorted ([] ++ (set.initialRange.start, set.initialRange.end) :: []) :=
      ⟨by simpa using hpos, by simpa using hlt, by simp⟩
    by_cases hsb : set.initialRange.start ≤ b
    · exact .inside _ hsb (by omega) (hsorted.isLeast_not_mem_of_inRange ⟨hsb, by omega⟩)
    · have := hsorted.isLeast_mem_of_before (b := b) (by simp) (by omega)
      exact .before _ (by omega) hlt this.1 this.2

/-- The walk ends at the range `e` with the greatest start at or below `b`:
`b` is inside it, or it ends by `b` and the range after it, if any, is the
first from `b` on. -/
theorem findRange_of_greatest {bd : Bounds} (hv : Valid cfg bd set.blockTree.root)
    (hi : set.initialRange = BlockRange.clear) {P : Path} {A B : List (Nat × BlockMac)}
    {e : Nat × BlockMac} (hwalk : walk cfg set.blockTree b true = some P)
    (hin : PathIn cfg (Spot.top bd set.blockTree.root) P.entry A (some e) B)
    (hent : A ++ e :: B = entries set.blockTree.root)
    (hr : blockRangeInitFromPath P = some ⟨e.1, e.2.block⟩)
    (hsorted : Ranges.Sorted ((A.map fun e => (e.1, e.2.block)) ++ (e.1, e.2.block) ::
      (B.map fun e => (e.1, e.2.block))))
    (hgr : IsGreatest {k | k ∈ (entries set.blockTree.root).map Prod.fst ∧ k ≤ b} e.1) :
    ∃ range, findRange cfg set b = some range ∧ RangeAt (Ranges.Mem
      ((A.map fun e => (e.1, e.2.block)) ++ (e.1, e.2.block) :: (B.map fun e => (e.1, e.2.block))))
      b range := by
  have htop := Spot.Ok.top_ok hv
  have he2 : e.1 < e.2.block := hsorted.nonempty_mid
  have heb : e.1 ≤ b := hgr.1.2
  by_cases hbe : b < e.2.block
  · exact ⟨_, findRange_of_lt_end hwalk hr he2 hbe,
      .inside _ heb hbe (hsorted.isLeast_not_mem_of_inRange ⟨heb, hbe⟩)⟩
  obtain ⟨P', hnext, hcase⟩ := pathNext_entry set.blockTree hv hin
  -- every range up to `e` ends by `b`
  have hA : ∀ r ∈ (A.map fun e => (e.1, e.2.block)) ++ [(e.1, e.2.block)], r.2 ≤ b := by
    intro r hr
    rcases List.mem_append.mp hr with hr | hr
    · have := hsorted.end_lt_of_mem_left hr
      omega
    · rw [List.mem_singleton] at hr
      rw [hr]
      omega
  rcases hcase with ⟨rfl, hin', hdata'⟩ | ⟨y, B', rfl, hin', hdata'⟩
  · -- `e` is the last range: nothing from `b` on
    have hr' := blockRangeInitFromPath_end htop hin' hdata'
    rw [findRange_of_next_clear hwalk hr he2 (show e.2.block ≤ b by omega) hnext hr', hi, ite_self]
    refine ⟨_, rfl, .past (Ranges.not_mem_of_after ?_)⟩
    simpa using hA
  · -- the range after `e` starts above `b`, since the start of `e` is greatest
    have hsplit : (A.map fun e => (e.1, e.2.block)) ++ (e.1, e.2.block) :: (y.1, y.2.block) ::
        (B'.map fun e => (e.1, e.2.block)) = ((A.map fun e => (e.1, e.2.block)) ++
          [(e.1, e.2.block)]) ++ (y.1, y.2.block) :: (B'.map fun e => (e.1, e.2.block)) := by
      simp
    have hsorted' : Ranges.Sorted (((A.map fun e => (e.1, e.2.block)) ++ [(e.1, e.2.block)]) ++
        (y.1, y.2.block) :: (B'.map fun e => (e.1, e.2.block))) := by
      rw [← hsplit]
      simpa using hsorted
    have hy1 : 0 < y.1 := hsorted'.pos (y.1, y.2.block) (by simp)
    have hy2 : y.1 < y.2.block := hsorted'.nonempty_mid
    have hr' := blockRangeInitFromPath_entry htop hin' hdata' hy1 (by omega)
    have hby : b < y.1 := by
      by_contra hyb
      have hyk : y.1 ∈ (entries set.blockTree.root).map Prod.fst := by
        rw [← hent]
        simp
      have := hgr.2 ⟨hyk, by omega⟩
      have := hsorted.end_lt_of_mem_right (r := (y.1, y.2.block)) (by simp)
      omega
    obtain ⟨hnot, hleast⟩ := hsorted'.isLeast_mem_of_before hA hby
    refine ⟨_, findRange_of_next hwalk hr he2 (show e.2.block ≤ b by omega) hnext hr' hy2, ?_⟩
    rw [List.map_cons, hsplit]
    exact .before _ hby hy2 hnot hleast

/-- Every start is above `b` and the walk ends at the range `e` with the
least: it is the first range, and the first one from `b` on. -/
theorem findRange_of_least {P : Path} {A B : List (Nat × BlockMac)} {e : Nat × BlockMac}
    (hwalk : walk cfg set.blockTree b true = some P)
    (hent : A ++ e :: B = entries set.blockTree.root)
    (hr : blockRangeInitFromPath P = some ⟨e.1, e.2.block⟩)
    (hsorted : Ranges.Sorted ((A.map fun e => (e.1, e.2.block)) ++ (e.1, e.2.block) ::
      (B.map fun e => (e.1, e.2.block))))
    (hall : ∀ k ∈ (entries set.blockTree.root).map Prod.fst, b < k)
    (hleast : IsLeast {k | k ∈ (entries set.blockTree.root).map Prod.fst} e.1) :
    ∃ range, findRange cfg set b = some range ∧ RangeAt (Ranges.Mem
      ((A.map fun e => (e.1, e.2.block)) ++ (e.1, e.2.block) :: (B.map fun e => (e.1, e.2.block))))
      b range := by
  have he2 : e.1 < e.2.block := hsorted.nonempty_mid
  -- a range before `e` would start below it
  have hA : A = [] := by
    rcases List.eq_nil_or_concat A with hA | ⟨L, a, rfl⟩
    · exact hA
    · have hak : a.1 ∈ (entries set.blockTree.root).map Prod.fst := by
        rw [← hent]
        simp
      have := hleast.2 hak
      have := hsorted.end_lt_of_mem_left (r := (a.1, a.2.block)) (by simp)
      have := hsorted.nonempty (a.1, a.2.block) (by simp)
      simp only at this
      omega
  subst hA
  have hbe : b < e.1 := hall e.1 (by rw [← hent]; simp)
  obtain ⟨hnot, hleast'⟩ := hsorted.isLeast_mem_of_before (b := b) (by simp) hbe
  exact ⟨_, findRange_of_lt_end hwalk hr he2 (show b < e.2.block by omega),
    .before _ hbe he2 hnot hleast'⟩

/-- A set with a valid tree: the range the walk to `b`, and the step past it,
pick is where `b` stands. -/
theorem findRange_of_valid (hs : set.Ok cfg) {bd : Bounds} (hv : Valid cfg bd set.blockTree.root)
    (hH : bd.height ≤ maxDepth) :
    ∃ range, findRange cfg set b = some range ∧ RangeAt set.Mem b range := by
  have htop := Spot.Ok.top_ok hv
  obtain ⟨P, A, x, B, hwalk, hin, hdata, hle, hnone⟩ := walk_greatest set.blockTree hv hH b
  have hent : A ++ x.toList ++ B = entries set.blockTree.root := by
    simpa [Spot.top] using hin.entries_eq
  cases x with
  | none =>
    -- no entry: the walk ends at the empty slot of an empty root leaf
    have hE := hnone rfl
    have hB : B = [] := by
      rw [hE] at hent
      simp only [Option.toList_none, List.append_nil, List.append_eq_nil_iff] at hent
      exact hent.2
    subst hB
    have hnil : set.ranges = [] := by simp [BlockSet.ranges, hE]
    exact ⟨_, findRange_of_clear hwalk (blockRangeInitFromPath_end htop hin (by simpa using hdata)),
      rangeAt_of_nil hs hnil⟩
  | some e =>
    have hent' : A ++ e :: B = entries set.blockTree.root := by simpa using hent
    have hranges : set.ranges = (A.map fun e => (e.1, e.2.block)) ++ (e.1, e.2.block) ::
        (B.map fun e => (e.1, e.2.block)) := by
      rw [BlockSet.ranges, ← hent']
      simp
    have hsorted := hranges ▸ hs.sorted
    have hi : set.initialRange = BlockRange.clear := by
      rcases hs.initial with hclear | ⟨-, -, hnil⟩
      · exact hclear
      · rw [hranges] at hnil
        simp at hnil
    have he1 : 0 < e.1 := hsorted.pos (e.1, e.2.block) (by simp)
    have he2 : e.1 < e.2.block := hsorted.nonempty_mid
    have hr := blockRangeInitFromPath_entry htop hin (by simpa using hdata) he1 (by omega)
    have hkey : P.getKey = e.1 := by simpa using hin.getKey_eq htop P.data
    rw [hkey] at hle
    -- the ranges of the tree stand for the set, its initial range being clear
    suffices ∃ range, findRange cfg set b = some range ∧ RangeAt (Ranges.Mem set.ranges) b range by
      obtain ⟨range, hf, hat⟩ := this
      exact ⟨range, hf, hat.congr fun c => (BlockSet.mem_iff_of_clear hi c).symm⟩
    rw [hranges]
    rcases hle with hgr | ⟨hall, hleast | ⟨hnil, -⟩⟩
    · exact findRange_of_greatest hv hi hwalk hin hent' hr hsorted hgr
    · exact findRange_of_least hwalk hent' hr hsorted hall hleast
    · rw [← hent'] at hnil
      simp at hnil

/-- On a set as `block_set_check` accepts it, `findRange` picks where `b`
stands. -/
theorem findRange_spec (hs : set.Ok cfg) (b : Nat) :
    ∃ range, findRange cfg set b = some range ∧ RangeAt set.Mem b range := by
  rcases hs.valid with hroot | ⟨bd, hv, hH⟩
  · -- no tree yet: the walk gives an empty path, and the initial range decides
    have hnil : set.ranges = [] := by simp [BlockSet.ranges, hroot, entries]
    exact ⟨_, findRange_of_clear (walk_of_empty hroot b true) (blockRangeInitFromPath_nil _),
      rangeAt_of_nil hs hnil⟩
  · exact findRange_of_valid hs hv hH

/-- `block_set_find_next_block` once its range is a non-empty one. -/
theorem blockSetFindNextBlock_of_lt {range : BlockRange} (hf : findRange cfg set b = some range)
    (hne : range.start < range.end) (inSet : Bool) :
    blockSetFindNextBlock cfg set b inSet =
      some (if (decide (range.start ≤ b) && decide (b < range.end)) = inSet then b
        else if !inSet then range.end else range.start) := by
  have hem := blockRangeEmpty_of_lt hne
  simp only [blockSetFindNextBlock, hf, Option.bind_eq_bind, Option.bind_some, hem,
    blockInRange, hne.le, if_true, Bool.false_and, Bool.false_eq_true, if_false, beq_iff_eq]
  split_ifs <;> rfl

/-- `block_set_find_next_block` once its range is clear: `0` for a block in
the set, `b` itself for one not in it. -/
theorem blockSetFindNextBlock_of_clear (hf : findRange cfg set b = some BlockRange.clear)
    (inSet : Bool) : blockSetFindNextBlock cfg set b inSet = some (if inSet then 0 else b) := by
  cases inSet <;> simp [blockSetFindNextBlock, hf]

/-- Looking for a block in the set: the first one at or after `b`, `0` if
there is none. -/
theorem blockSetFindNextBlock_in (hs : set.Ok cfg) (b : Nat) :
    ∃ r, blockSetFindNextBlock cfg set b true = some r ∧ Ranges.NextIn set.Mem b r := by
  obtain ⟨range, hf, hat⟩ := findRange_spec hs b
  cases hat with
  | inside range hsb hbe hend =>
    -- `b` itself is in the set: the first block not in it is above `b`
    have hmem : set.Mem b := by
      by_contra hnot
      have := hend.2 ⟨le_rfl, hnot⟩
      omega
    rw [blockSetFindNextBlock_of_lt hf (by omega)]
    refine ⟨_, rfl, ?_⟩
    simp only [decide_eq_true hsb, decide_eq_true hbe, Bool.and_self, if_true]
    exact .inl ⟨⟨le_rfl, hmem⟩, fun c hc => hc.1⟩
  | before range hbs hne hnot hstart =>
    rw [blockSetFindNextBlock_of_lt hf hne]
    refine ⟨_, rfl, ?_⟩
    simp only [decide_eq_false (Nat.not_le.mpr hbs), Bool.false_and, Bool.false_eq_true, if_false,
      Bool.not_true]
    exact .inl hstart
  | past hnone =>
    rw [blockSetFindNextBlock_of_clear hf]
    exact ⟨0, rfl, .inr ⟨rfl, hnone⟩⟩

/-- Looking for a block not in the set: the first one at or after `b`. -/
theorem blockSetFindNextBlock_not_in (hs : set.Ok cfg) (b : Nat) :
    ∃ r, blockSetFindNextBlock cfg set b false = some r ∧ IsLeast {c | b ≤ c ∧ ¬ set.Mem c} r := by
  obtain ⟨range, hf, hat⟩ := findRange_spec hs b
  cases hat with
  | inside range hsb hbe hend =>
    rw [blockSetFindNextBlock_of_lt hf (by omega)]
    refine ⟨_, rfl, ?_⟩
    simp only [decide_eq_true hsb, decide_eq_true hbe, Bool.and_self, Bool.true_eq_false, if_false,
      Bool.not_false, if_true]
    exact hend
  | before range hbs hne hnot hstart =>
    rw [blockSetFindNextBlock_of_lt hf hne]
    refine ⟨_, rfl, ?_⟩
    simp only [decide_eq_false (Nat.not_le.mpr hbs), Bool.false_and, if_true]
    exact ⟨⟨le_rfl, hnot⟩, fun c hc => hc.1⟩
  | past hnone =>
    rw [blockSetFindNextBlock_of_clear hf]
    exact ⟨b, rfl, ⟨le_rfl, hnone b le_rfl⟩, fun c hc => hc.1⟩

/-- Block `0` is in no set: every range starts above it. -/
theorem BlockSet.Ok.not_mem_zero (hs : set.Ok cfg) : ¬ set.Mem 0 := by
  rintro (⟨r, hr, hin⟩ | hin)
  · have := hs.sorted.pos r hr
    exact absurd hin.1 (by omega)
  · rcases hs.initial with hclear | ⟨hpos, -, -⟩
    · rw [hclear] at hin
      exact absurd hin.2 (by simp [BlockRange.clear])
    · exact absurd hin.1 (by simp only; omega)

end Spec

end Storage
