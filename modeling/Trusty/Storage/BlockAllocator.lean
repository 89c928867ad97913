import Trusty.Storage.BlockSet
import Trusty.Lib.Ring
import Trusty.Lib.Trace

/-!
# `block_allocator.c`: the queue of set updates and the free-block search

Allocating or freeing a block updates block sets, and updating a set's tree
allocates and frees blocks in turn.  `block_allocate_etc` and
`block_free_etc` therefore put each update on a queue, a ring of
`BLOCK_ALLOCATOR_QUEUE_LEN` entries (`Queue`), and the outermost call applies
the queue (`block_allocator_process_queue`).  An allocation and a free of the
same queued block cancel: the entry is marked removed.

* `Queue.find`, `Queue.add`, `Queue.addDummy`, `Queue.removeHead` and
  `Queue.findFreeBlock` are `block_allocator_queue_find`, `_add`,
  `_add_dummy`, `_remove_head` and `_find_free_block`.
* `findFreeBlock` is `find_free_block`: rounds of searches through the free
  set, every set on `fs->allocated` and the queue, until a round leaves the
  candidate where it was.
* `Queue.Ok`: no block has two live entries that are not removed, and none
  is block `0`; every queue operation keeps it (`Queue.Ok.add`,
  `Queue.addDummy_ok`, `Queue.Ok.removeHead`), so it holds after every run
  of queue operations (`Queue.Ok.of_run`).
* `Queue.add_cancel`: an update of the other kind for a pending block that is
  not the head being applied only marks the pending entry removed;
  `Queue.add_append`: any other update that passes the assert on a pending
  entry is appended, and fails the assert `new_tail != head` exactly on a
  full ring; `allocator_queue_pending` states these facts over every run.
* `Queue.findFreeBlock_spec`: the queue search answers the first block not
  queued for allocation.
* `find_free_block_least`: on sets as `block_set_check` accepts them,
  `find_free_block` ends, and answers the least block from `min_block` on that
  is free, in no set of an active transaction and not queued for allocation,
  or `0` when there is none.
-/

namespace Storage

open BlockTree

/-! ## The queue -/

/-- `BLOCK_SET_MAX_DEPTH`, which is `BLOCK_TREE_MAX_DEPTH`. -/
def blockSetMaxDepth : Nat := maxDepth

/-- `BLOCK_ALLOCATOR_QUEUE_LEN`: room for the worst case update of a tree. -/
def blockAllocatorQueueLen : Nat := blockSetMaxDepth * 2 * blockSetMaxDepth * 2

/-- `struct block_allocator_queue_entry`: a pending update of the sets. -/
structure QueueEntry where
  block : Nat
  tmp : Bool
  free : Bool
  removed : Bool
  deriving DecidableEq, Repr

/-- `struct block_allocator_queue`: the ring of entries, and whether the
sets are being updated. -/
structure Queue extends RingBuf QueueEntry blockAllocatorQueueLen where
  updating : Bool

namespace Queue

/-- `block_allocator_queue_empty`. -/
def empty (q : Queue) : Bool := q.head == q.tail

/-- `block_allocator_queue_find`: the first live entry of `block` that is not
removed. -/
def find (q : Queue) (block : Nat) : Option (Fin blockAllocatorQueueLen) :=
  q.indices.find? fun i => !q.entry[i].removed && q.entry[i].block == block

/-- The append at the end of `block_allocator_queue_add`; `none` where its
assert `new_tail != head` fails. -/
def append (q : Queue) (block : Nat) (isTmp isFree : Bool) : Option Queue :=
  if RingBuf.next q.tail = q.head then none
  else some { q with toRingBuf := q.push ⟨block, isTmp, isFree, false⟩ }

/-- `block_allocator_queue_add`: an update of `block` cancels a queued one of
the other kind, unless that is the head entry being applied; otherwise it is
appended.  `none` where an assert fails. -/
def add (q : Queue) (block : Nat) (isTmp isFree : Bool) : Option Queue :=
  match q.find block with
  | some index =>
    if q.entry[index].tmp != isTmp || q.entry[index].free == isFree then none
    else
      let q' := { q with toRingBuf := q.modify index fun e => { e with removed := true } }
      if index != q.head || !q.updating then some q'
      else q'.append block isTmp isFree
  | none => q.append block isTmp isFree

/-- `block_allocator_queue_add_dummy`: a removed entry, to make an empty queue
non-empty; `none` where its assert that the queue is empty fails. -/
def addDummy (q : Queue) : Option Queue :=
  if q.empty then some { q with toRingBuf := q.push { q.entry[q.tail] with removed := true } }
  else none

/-- `block_allocator_queue_peek_head`; `none` on an empty queue. -/
def peekHead (q : Queue) : Option QueueEntry := if q.empty then none else some q.entry[q.head]

/-- `block_allocator_queue_remove_head`, given the entry that should be at
the head. -/
def removeHead (q : Queue) (entry : QueueEntry) : Option Queue := do
  let head ← q.peekHead
  if head.block ≠ entry.block then none else some { q with toRingBuf := q.pop }

/-- `block_allocator_queue_find_free_block`: the first block from `block` on
that has no live entry, or whose entry is a free. -/
def findFreeBlock (q : Queue) (block : Nat) : Nat :=
  match h : q.find block with
  | none => block
  | some index => if q.entry[index].free then block else q.findFreeBlock (block + 1)
termination_by (q.entry.toList.map QueueEntry.block).sum + 1 - block
decreasing_by
  have hb : q.entry[index].block = block := by
    have := List.find?_some h
    simp only [Bool.and_eq_true, Bool.not_eq_true', beq_iff_eq] at this
    exact this.2
  have hle : q.entry[index].block ≤ (q.entry.toList.map QueueEntry.block).sum :=
    List.le_sum_of_mem (List.mem_map_of_mem (Vector.mem_toList_iff.mpr (Vector.getElem_mem _)))
  omega

end Queue

/-! ## The free-block search -/

/-- What `find_free_block` reads: the committed free set, the sets on
`fs->allocated` (the allocated and tmp_allocated sets of every active
transaction), the queue, and the size of the device. -/
structure AllocState where
  free : BlockSet
  allocated : List BlockSet
  queue : Queue
  blockCount : Nat

variable (cfg : Config)

/-- The loop of `find_free_block` over `fs->allocated`: each set moves the
candidate to the first block from it on that is not in the set; `none`
where a search fails or its assert `block >= min_block` does. -/
def skipAllocated (minBlock : Nat) (sets : List BlockSet) (block : Nat) : Option Nat :=
  sets.foldlM (fun block set => do
    let block ← blockSetFindNextBlock cfg set block false
    if minBlock ≤ block then some block else none) block

/-- The `do`/`while` loop of `find_free_block`, for at most `fuel` rounds: the
first free block from `block` on, moved past the sets of `fs->allocated` and
the queue, until a round leaves it where it was; `0` when the free set has no
block from `minBlock` on. -/
def findFreeBlockLoop (s : AllocState) : Nat → Nat → Nat → Option Nat
  | 0, _, _ => none
  | fuel + 1, block, minBlock => do
    let block ← blockSetFindNextBlock cfg s.free block true
    if block < minBlock then
      -- `assert(!block)`: no free block from `minBlock` on
      if block = 0 then some 0 else none
    else
      let minBlock := block
      -- `assert(!list_is_empty(&tr->fs->allocated))`
      if s.allocated = [] then none
      else
        let block ← skipAllocated cfg minBlock s.allocated block
        let block := s.queue.findFreeBlock block
        if block ≠ minBlock then findFreeBlockLoop s fuel block minBlock else some block

/-- `find_free_block`: its loop, with a round for every block of the device
and one more. -/
def findFreeBlock (s : AllocState) (minBlockIn : Nat) : Option Nat :=
  findFreeBlockLoop cfg s (s.blockCount + 1) minBlockIn minBlockIn

/-! ## The queue invariant -/

namespace Queue

/-- Block `c` is queued for allocation: a live entry of it, not removed, that
is not a free. -/
def QueuedAlloc (q : Queue) (c : Nat) : Prop :=
  ∃ i ∈ q.indices, q.entry[i].removed = false ∧ q.entry[i].block = c ∧ q.entry[i].free = false

/-- No block has two live entries that are not removed, and none is block
`0`. -/
structure Ok (q : Queue) : Prop where
  unique : ∀ i ∈ q.indices, ∀ j ∈ q.indices, q.entry[i].removed = false →
    q.entry[j].removed = false → q.entry[i].block = q.entry[j].block → i = j
  pos : ∀ i ∈ q.indices, q.entry[i].removed = false → 0 < q.entry[i].block

variable {q q' : Queue} {block : Nat}

theorem find_some {i : Fin blockAllocatorQueueLen} (h : q.find block = some i) :
    i ∈ q.indices ∧ q.entry[i].removed = false ∧ q.entry[i].block = block := by
  have hp := List.find?_some h
  simp only [Bool.and_eq_true, Bool.not_eq_true', beq_iff_eq] at hp
  exact ⟨List.mem_of_find?_eq_some h, hp⟩

theorem find_none (h : q.find block = none) :
    ∀ i ∈ q.indices, q.entry[i].removed = false → q.entry[i].block ≠ block := by
  intro i hi hr hb
  apply List.find?_eq_none.mp h i hi
  simp only [Bool.and_eq_true, Bool.not_eq_true', beq_iff_eq]
  exact ⟨hr, hb⟩

/-- A queue whose live entries are live entries of a queue with the
invariant, unchanged, has it too. -/
theorem Ok.of_sub (hq : q.Ok) (hsub : ∀ i ∈ q'.indices, i ∈ q.indices) (hentry : q'.entry = q.entry) :
    q'.Ok := by
  constructor
  · intro i hi j hj hri hrj hij
    rw [hentry] at hri hrj hij
    exact hq.unique i (hsub i hi) j (hsub j hj) hri hrj hij
  · intro i hi hri
    rw [hentry] at hri ⊢
    exact hq.pos i (hsub i hi) hri

/-- A queue whose live entries are all removed has the invariant. -/
theorem ok_of_removed (h : ∀ i ∈ q.indices, q.entry[i].removed = true) : q.Ok := by
  constructor
  · intro i hi j hj hri
    rw [h i hi] at hri
    cases hri
  · intro i hi hri
    rw [h i hi] at hri
    cases hri

/-- The queue search answers the first block from `block` on that is not
queued for allocation. -/
theorem findFreeBlock_spec (hq : q.Ok) (block : Nat) :
    IsLeast {c | block ≤ c ∧ ¬ q.QueuedAlloc c} (q.findFreeBlock block) := by
  fun_induction q.findFreeBlock block with
  | case1 block hnone =>
    -- no live entry of `block`
    refine ⟨⟨le_rfl, ?_⟩, fun c hc => hc.1⟩
    rintro ⟨i, hi, hr, hb, -⟩
    exact find_none hnone i hi hr hb
  | case2 block index hfind hfree =>
    -- its one live entry is a free
    obtain ⟨hi, hr, hb⟩ := find_some hfind
    refine ⟨⟨le_rfl, ?_⟩, fun c hc => hc.1⟩
    rintro ⟨j, hj, hrj, hbj, hfj⟩
    have := hq.unique index hi j hj hr hrj (hb.trans hbj.symm)
    subst this
    rw [hfj] at hfree
    cases hfree
  | case3 block index hfind hfree ih =>
    -- `block` is queued for allocation: the answer is the search from the next block
    obtain ⟨hi, hr, hb⟩ := find_some hfind
    have hq' : q.QueuedAlloc block := ⟨index, hi, hr, hb, by simpa using hfree⟩
    refine ⟨⟨by have := ih.1.1; omega, ih.1.2⟩, fun c hc => ?_⟩
    have hcb : block ≠ c := fun heq => hc.2 (heq ▸ hq')
    exact ih.2 ⟨by have := hc.1; omega, hc.2⟩

end Queue

/-! ## Every queue operation keeps the invariant -/

namespace Queue

variable {q q' : Queue} {block : Nat} {isTmp isFree : Bool}

/-- An entry that is not removed appended for a block with no such live
entry. -/
theorem Ok.append (hq : q.Ok)
    (hfresh : ∀ i ∈ q.indices, q.entry[i].removed = false → q.entry[i].block ≠ block)
    (hb : 0 < block) (h : q.append block isTmp isFree = some q') : q'.Ok := by
  unfold Queue.append at h
  split_ifs at h with hfull
  cases h
  -- the new entry sits at the old tail, which no live entry used
  have hidx := RingBuf.indices_push q.toRingBuf ⟨block, isTmp, isFree, false⟩ hfull
  have hget := RingBuf.get_push q.toRingBuf ⟨block, isTmp, isFree, false⟩
  have htail := RingBuf.tail_not_mem_indices q.toRingBuf
  have hold : ∀ i ∈ q.indices, i ≠ q.tail := fun i hi heq => htail (heq ▸ hi)
  constructor
  · intro i hi j hj hri hrj hij
    simp only [hidx, hget, List.mem_append, List.mem_singleton] at hi hj hri hrj hij
    rcases hi with hi | rfl <;> rcases hj with hj | rfl
    · simp only [hold i hi, hold j hj, if_false] at hri hrj hij
      exact hq.unique i hi j hj hri hrj hij
    · simp only [hold i hi, if_false, if_true] at hri hij
      exact absurd hij (hfresh i hi hri)
    · simp only [hold j hj, if_false, if_true] at hrj hij
      exact absurd hij.symm (hfresh j hj hrj)
    · rfl
  · intro i hi hri
    simp only [hidx, hget, List.mem_append, List.mem_singleton] at hi hri ⊢
    rcases hi with hi | rfl
    · simp only [hold i hi, if_false] at hri ⊢
      exact hq.pos i hi hri
    · simpa using hb

/-- Marking an entry removed keeps the invariant, and leaves no entry of its
block that is not removed. -/
theorem Ok.markRemoved (hq : q.Ok) {index : Fin blockAllocatorQueueLen} (hi : index ∈ q.indices)
    (hr : q.entry[index].removed = false) :
    (Queue.mk (q.modify index fun e => { e with removed := true }) q.updating).Ok ∧
      ∀ i ∈ q.indices, (q.modify index fun e => { e with removed := true }).entry[i].removed = false →
        (q.modify index fun e => { e with removed := true }).entry[i].block ≠ q.entry[index].block := by
  have hget := RingBuf.get_modify q.toRingBuf index fun e => { e with removed := true }
  -- an entry not removed afterwards is another one, unchanged
  have hother : ∀ i, (q.modify index fun e => { e with removed := true }).entry[i].removed = false →
      i ≠ index ∧ (q.modify index fun e => { e with removed := true }).entry[i] = q.entry[i] := by
    intro i hri
    by_cases h : i = index
    · rw [hget, if_pos h] at hri
      simp at hri
    · rw [hget, if_neg h]
      exact ⟨h, rfl⟩
  refine ⟨⟨fun i hi' j hj hri hrj hij => ?_, fun i hi' hri => ?_⟩, fun i hi' hri hb => ?_⟩
  · obtain ⟨-, hei⟩ := hother i hri
    obtain ⟨-, hej⟩ := hother j hrj
    simp only [RingBuf.indices_modify] at hi' hj hri hrj hij
    rw [hei] at hri hij
    rw [hej] at hrj hij
    exact hq.unique i hi' j hj hri hrj hij
  · obtain ⟨-, hei⟩ := hother i hri
    simp only [RingBuf.indices_modify] at hi' hri ⊢
    rw [hei] at hri ⊢
    exact hq.pos i hi' hri
  · obtain ⟨hne, heq⟩ := hother i hri
    rw [heq] at hri hb
    exact hne (hq.unique i hi' index hi hri hr hb)

/-- `block_allocator_queue_add` of a block other than `0` keeps the invariant. -/
theorem Ok.add (hq : q.Ok) (hb : 0 < block) (h : q.add block isTmp isFree = some q') : q'.Ok := by
  unfold Queue.add at h
  split at h
  · rename_i index hfind
    obtain ⟨hi, hr, hblock⟩ := find_some hfind
    obtain ⟨hq₁, hfresh⟩ := hq.markRemoved hi hr
    split_ifs at h with hassert hcancel
    · -- the entry of the other kind is cancelled
      cases h
      exact hq₁
    · -- it is the head being applied: the update is queued again
      refine Ok.append hq₁ ?_ hb h
      intro i hi' hri
      simpa [← hblock] using hfresh i hi' hri
  · rename_i hfind
    exact Ok.append hq (find_none hfind) hb h

/-- After `block_allocator_queue_add_dummy` the invariant holds: its entry,
the only live one, is removed. -/
theorem addDummy_ok (h : q.addDummy = some q') : q'.Ok := by
  unfold Queue.addDummy at h
  split_ifs at h with hempty
  cases h
  have heq : q.head = q.tail := by simpa [empty] using hempty
  have hidx := RingBuf.indices_of_eq heq
  -- the only live entry is the dummy, which is removed
  have hone : ∀ i ∈ (q.push { q.entry[q.tail] with removed := true }).indices, i = q.tail := by
    intro i hi
    rw [RingBuf.mem_indices] at hi
    obtain ⟨k, hk, rfl⟩ := hi
    have hc : (q.push { q.entry[q.tail] with removed := true }).count = 1 := by
      have e := RingBuf.count_eq (q.push { q.entry[q.tail] with removed := true })
      have hh : (q.push { q.entry[q.tail] with removed := true }).head.val = q.head.val := rfl
      have ht : (q.push { q.entry[q.tail] with removed := true }).tail.val = (RingBuf.next q.tail).val := rfl
      rw [heq] at hh
      rcases RingBuf.val_next q.tail with e3 | e3 <;> rcases e with e | e <;>
        simp only [blockAllocatorQueueLen, blockSetMaxDepth, maxDepth] at * <;> omega
    have hk0 : k = 0 := by omega
    subst hk0
    apply Fin.ext
    simp [RingBuf.slot, heq, Nat.mod_eq_of_lt q.tail.isLt]
  apply ok_of_removed
  intro i hi
  rw [hone i hi, RingBuf.get_push, if_pos rfl]

/-- `block_allocator_queue_remove_head` keeps the invariant. -/
theorem Ok.removeHead (hq : q.Ok) {entry : QueueEntry} (h : q.removeHead entry = some q') : q'.Ok := by
  unfold Queue.removeHead Queue.peekHead at h
  split_ifs at h with hempty
  · simp at h
  simp only [Option.bind_eq_bind, Option.bind_some] at h
  split_ifs at h
  cases h
  have hne : q.head ≠ q.tail := by simpa [empty] using hempty
  -- the live entries after the pop are live before it
  refine hq.of_sub (fun i hi => ?_) rfl
  rw [RingBuf.indices_of_ne hne]
  exact List.mem_cons_of_mem _ hi

end Queue

/-! ## Runs of queue operations -/

/-- What changes the queue: `block_allocator_queue_add` from
`block_allocate_etc` (`isFree` clear) or `block_free_etc`, at any depth of
re-entry; `block_allocator_suspend_set_updates`; and, in
`block_allocator_process_queue`, setting `updating`, removing the head entry
once the sets have seen it, and clearing `updating`. -/
inductive QueueOp
  | add (block : Nat) (isTmp isFree : Bool)
  | suspend
  | beginUpdate
  | removeHead
  | endUpdate
  deriving DecidableEq, Repr

/-- The block of an update is a block, not `0`. -/
def QueueOp.Pos : QueueOp → Prop
  | .add block _ _ => 0 < block
  | _ => True

namespace Queue

/-- The queue at boot: zeroed, so empty. -/
def init : Queue :=
  ⟨⟨Vector.replicate _ ⟨0, false, false, false⟩, ⟨0, by decide⟩, ⟨0, by decide⟩⟩, false⟩

/-- One queue operation; removing the head shows the entry the sets saw. -/
def step (q : Queue) : QueueOp → Option (Queue × List QueueEntry)
  | .add block isTmp isFree => (q.add block isTmp isFree).map fun q' => (q', [])
  | .suspend => q.addDummy.map fun q' => (q', [])
  | .beginUpdate => if q.updating then none else some ({ q with updating := true }, [])
  | .removeHead => do
    let entry ← q.peekHead
    let q' ← q.removeHead entry
    pure (q', [entry])
  | .endUpdate => some ({ q with updating := false }, [])

theorem init_ok : init.Ok := by
  apply ok_of_removed
  intro i hi
  rw [RingBuf.indices_of_eq rfl] at hi
  cases hi

theorem Ok.step {q q' : Queue} {op : QueueOp} {out : List QueueEntry} (hq : q.Ok) (hop : op.Pos)
    (h : q.step op = some (q', out)) : q'.Ok := by
  cases op with
  | add block isTmp isFree =>
    obtain ⟨q₁, h₁, heq⟩ := Option.map_eq_some_iff.mp h
    cases heq
    exact hq.add hop h₁
  | suspend =>
    obtain ⟨q₁, h₁, heq⟩ := Option.map_eq_some_iff.mp h
    cases heq
    exact addDummy_ok h₁
  | beginUpdate =>
    simp only [Queue.step] at h
    split_ifs at h
    cases h
    exact hq.of_sub (fun i hi => hi) rfl
  | removeHead =>
    simp only [Queue.step, Option.bind_eq_bind, Option.bind_eq_some_iff, Option.pure_def,
      Option.some.injEq, Prod.mk.injEq] at h
    obtain ⟨entry, -, q₁, h₁, rfl, -⟩ := h
    exact hq.removeHead h₁
  | endUpdate =>
    simp only [Queue.step, Option.some.injEq, Prod.mk.injEq] at h
    obtain ⟨rfl, -⟩ := h
    exact hq.of_sub (fun i hi => hi) rfl

/-- The invariant holds after every run of queue operations on real blocks. -/
theorem Ok.of_run {ops : List QueueOp} {out : List QueueEntry} {q : Queue}
    (hrun : LTS.Run Queue.step init ops out q) (hops : ∀ op ∈ ops, op.Pos) : q.Ok :=
  hrun.induction_of_forall (P := fun q _ => q.Ok) hops init_ok fun hq hop hs => hq.step hop hs

/-- The assert of `block_allocator_queue_add` on a pending entry holds for an
update of the same tmp flag and the other free flag. -/
theorem add_assert_holds {q : Queue} {index : Fin blockAllocatorQueueLen} {isTmp isFree : Bool}
    (htmp : q.entry[index].tmp = isTmp) (hfree : q.entry[index].free ≠ isFree) :
    (q.entry[index].tmp != isTmp || q.entry[index].free == isFree) = false := by
  rw [htmp, bne_self_eq_false, Bool.false_or]
  exact beq_eq_false_iff_ne.mpr hfree

/-- An update of the other kind for a block with a pending entry that is
not the head being applied cancels it: the entry is marked removed, nothing
is appended, and no entry of the block is left pending. -/
theorem add_cancel {q : Queue} (hq : q.Ok) {block : Nat} {isTmp isFree : Bool}
    {index : Fin blockAllocatorQueueLen} (hfind : q.find block = some index)
    (htmp : q.entry[index].tmp = isTmp) (hfree : q.entry[index].free ≠ isFree)
    (hhead : index ≠ q.head ∨ q.updating = false) :
    ∃ q', q.add block isTmp isFree = some q' ∧ q'.indices = q.indices ∧
      ∀ i ∈ q'.indices, q'.entry[i].removed = false → q'.entry[i].block ≠ block := by
  obtain ⟨hi, hr, hblock⟩ := find_some hfind
  obtain ⟨-, hfresh⟩ := hq.markRemoved hi hr
  refine ⟨{ q with toRingBuf := q.modify index fun e => { e with removed := true } }, ?_, rfl,
    fun i hi' hri => by simpa [← hblock] using hfresh i hi' hri⟩
  have hassert := add_assert_holds htmp hfree
  have hcancel : (index != q.head || !q.updating) = true := by
    rcases hhead with h | h <;> simp [h]
  simp only [Queue.add, hfind, hassert, hcancel, Bool.false_eq_true, if_false, if_true]

/-- The append at the end of `block_allocator_queue_add` fails its assert
`new_tail != head` exactly when the ring is full, and otherwise writes the
new entry, not removed, at the old tail, which becomes the last live slot. -/
theorem append_spec (q : Queue) (block : Nat) (isTmp isFree : Bool) :
    (q.append block isTmp isFree = none ↔ RingBuf.next q.tail = q.head) ∧
      ∀ q', q.append block isTmp isFree = some q' →
        q'.indices = q.indices ++ [q.tail] ∧ q'.entry[q.tail] = ⟨block, isTmp, isFree, false⟩ := by
  unfold Queue.append
  split_ifs with hfull
  · simp [hfull]
  · refine ⟨by simp [hfull], ?_⟩
    rintro q' ⟨⟩
    exact ⟨RingBuf.indices_push _ _ hfull, (RingBuf.get_push _ _ _).trans (if_pos rfl)⟩

/-- An update that cancels nothing, because the block has no pending entry
or its entry is the head being applied, is appended: the add fails on a full
ring and only there, and otherwise the new entry is the last live one. -/
theorem add_append {q : Queue} {block : Nat} {isTmp isFree : Bool}
    (h : q.find block = none ∨ ∃ index, q.find block = some index ∧ q.entry[index].tmp = isTmp ∧
      q.entry[index].free ≠ isFree ∧ index = q.head ∧ q.updating = true) :
    (q.add block isTmp isFree = none ↔ RingBuf.next q.tail = q.head) ∧
      ∀ q', q.add block isTmp isFree = some q' →
        q'.indices = q.indices ++ [q.tail] ∧ q'.entry[q.tail] = ⟨block, isTmp, isFree, false⟩ := by
  rcases h with hfind | ⟨index, hfind, htmp, hfree, rfl, hupd⟩
  · simp only [Queue.add, hfind]
    exact append_spec q block isTmp isFree
  · -- the head entry is marked removed, which moves neither end of the ring
    have hassert := add_assert_holds htmp hfree
    have hrequeue : (q.head != q.head || !q.updating) = false := by simp [hupd]
    simp only [Queue.add, hfind, hassert, hrequeue, Bool.false_eq_true, if_false]
    exact append_spec _ block isTmp isFree

end Queue

/-- The allocator queue after every run of queue operations on real blocks,
re-entered updates included: no block has two pending entries; an update
of the other kind for a pending block that is not the head being applied
cancels it, appending nothing and leaving no entry of the block pending; and
an update that cancels nothing fails the assert `new_tail != head` exactly
when the ring is full, and otherwise becomes the last live entry. -/
theorem allocator_queue_pending {ops : List QueueOp} {out : List QueueEntry} {q : Queue}
    (hrun : LTS.Run Queue.step Queue.init ops out q) (hops : ∀ op ∈ ops, op.Pos) :
    (∀ i ∈ q.indices, ∀ j ∈ q.indices, q.entry[i].removed = false → q.entry[j].removed = false →
      q.entry[i].block = q.entry[j].block → i = j) ∧
    (∀ block isTmp isFree index, q.find block = some index → q.entry[index].tmp = isTmp →
      q.entry[index].free ≠ isFree → (index ≠ q.head ∨ q.updating = false) →
      ∃ q', q.add block isTmp isFree = some q' ∧ q'.indices = q.indices ∧
        ∀ i ∈ q'.indices, q'.entry[i].removed = false → q'.entry[i].block ≠ block) ∧
    (∀ block isTmp isFree, (q.find block = none ∨ ∃ index, q.find block = some index ∧
      q.entry[index].tmp = isTmp ∧ q.entry[index].free ≠ isFree ∧ index = q.head ∧
        q.updating = true) →
      (q.add block isTmp isFree = none ↔ RingBuf.next q.tail = q.head) ∧
      ∀ q', q.add block isTmp isFree = some q' →
        q'.indices = q.indices ++ [q.tail] ∧ q'.entry[q.tail] = ⟨block, isTmp, isFree, false⟩) := by
  have hq := Queue.Ok.of_run hrun hops
  exact ⟨hq.unique, fun block isTmp isFree index hfind htmp hfree hhead =>
    Queue.add_cancel hq hfind htmp hfree hhead, fun _ _ _ h => Queue.add_append h⟩

/-- Block `5` queued for allocation on the queue of a new boot. -/
theorem allocator_queue_pending_first :
    (∀ op ∈ [QueueOp.add 5 false false], op.Pos) ∧
      ∃ q out, LTS.Run Queue.step Queue.init [.add 5 false false] out q ∧
        (∀ i ∈ q.indices, ∀ j ∈ q.indices, q.entry[i].removed = false → q.entry[j].removed = false →
          q.entry[i].block = q.entry[j].block → i = j) ∧
        (∀ block isTmp isFree index, q.find block = some index → q.entry[index].tmp = isTmp →
          q.entry[index].free ≠ isFree → (index ≠ q.head ∨ q.updating = false) →
          ∃ q', q.add block isTmp isFree = some q' ∧ q'.indices = q.indices ∧
            ∀ i ∈ q'.indices, q'.entry[i].removed = false → q'.entry[i].block ≠ block) ∧
        (∀ block isTmp isFree, (q.find block = none ∨ ∃ index, q.find block = some index ∧
          q.entry[index].tmp = isTmp ∧ q.entry[index].free ≠ isFree ∧ index = q.head ∧
            q.updating = true) →
          (q.add block isTmp isFree = none ↔ RingBuf.next q.tail = q.head) ∧
          ∀ q', q.add block isTmp isFree = some q' →
            q'.indices = q.indices ++ [q.tail] ∧
              q'.entry[q.tail] = ⟨block, isTmp, isFree, false⟩) := by
  have hpos : ∀ op ∈ [QueueOp.add 5 false false], op.Pos := by
    intro op hop
    rw [List.mem_singleton] at hop
    subst hop
    show 0 < 5
    decide
  have hfind : Queue.init.find 5 = none := by
    rw [Queue.find, RingBuf.indices_of_eq rfl, List.find?_nil]
  have hnext : RingBuf.next Queue.init.tail ≠ Queue.init.head := by decide
  have hstep : Queue.init.step (.add 5 false false) =
      some ({ Queue.init with toRingBuf := Queue.init.push ⟨5, false, false, false⟩ }, []) := by
    simp only [Queue.step, Queue.add, hfind, Queue.append, hnext, if_false, Option.map_some]
  have hrun := LTS.Run.snoc LTS.Run.nil hstep
  exact ⟨hpos, _, _, hrun, allocator_queue_pending hrun hpos⟩

/-! ## What `find_free_block` finds -/

namespace AllocState

/-- Block `c` can be allocated: in the committed free set, in no set of an
active transaction, and not queued for allocation. -/
def Free (s : AllocState) (c : Nat) : Prop :=
  s.free.Mem c ∧ (∀ set ∈ s.allocated, ¬ set.Mem c) ∧ ¬ s.queue.QueuedAlloc c

/-- The allocator between calls: every set as `block_set_check` accepts it,
with the free set inside the device; a transaction active, so that
`fs->allocated` holds its sets; the queue invariant. -/
structure Ok (s : AllocState) : Prop where
  free : s.free.Ok cfg
  allocated : ∀ set ∈ s.allocated, set.Ok cfg
  active : s.allocated ≠ []
  queue : s.queue.Ok
  below : ∀ c, s.free.Mem c → c < s.blockCount

end AllocState

section Search

variable {cfg}

/-- The loop over `fs->allocated` moves the candidate past blocks each in
some set, and leaves it where it was only if it is in none. -/
theorem skipAllocated_spec {sets : List BlockSet} (hsets : ∀ set ∈ sets, set.Ok cfg)
    {minBlock block : Nat} (hmin : minBlock ≤ block) :
    ∃ r, skipAllocated cfg minBlock sets block = some r ∧ block ≤ r ∧
      Ranges.Gap (fun c => ∀ set ∈ sets, ¬ set.Mem c) block r ∧
      ((∀ set ∈ sets, ¬ set.Mem block) ↔ r = block) := by
  induction sets generalizing block with
  | nil =>
    exact ⟨block, rfl, le_rfl, Ranges.Gap.refl _ _, by simp⟩
  | cons set sets ih =>
    obtain ⟨r₁, hfind, hleast⟩ := blockSetFindNextBlock_not_in (hsets set List.mem_cons_self) block
    have hb₁ : block ≤ r₁ := hleast.1.1
    obtain ⟨r, hskip, hr₁, hgap, hfix⟩ :=
      ih (fun set' hs' => hsets set' (List.mem_cons_of_mem set hs')) (le_trans hmin hb₁)
    refine ⟨r, ?_, le_trans hb₁ hr₁, ?_, ?_⟩
    · simp only [skipAllocated, List.foldlM_cons, hfind, Option.bind_eq_bind, Option.bind_some,
        if_pos (le_trans hmin hb₁)]
      exact hskip
    · -- below `r₁` every block is in `set`, from `r₁` on in one of the others
      refine Ranges.Gap.trans ?_ (hgap.mono fun c hc set' hs' => hc set' (List.mem_cons_of_mem set hs'))
      exact (Ranges.gap_of_isLeast hleast).mono fun c hc => by simpa using hc set List.mem_cons_self
    · constructor
      · intro hnone
        -- `block` is in no set: no search moves it
        have h₁ : r₁ = block := le_antisymm (hleast.2 ⟨le_rfl, hnone set List.mem_cons_self⟩) hb₁
        subst h₁
        exact hfix.mp fun set' hs' => hnone set' (List.mem_cons_of_mem set hs')
      · intro hrb
        have h₁ : r₁ = block := by omega
        subst h₁
        intro set' hs'
        rcases List.mem_cons.mp hs' with rfl | hs'
        · exact hleast.1.2
        · exact hfix.mpr (by omega) set' hs'

/-- A round of `find_free_block` past its search of the free set. -/
theorem findFreeBlockLoop_round {s : AllocState} {fuel block minBlock b₁ b₂ : Nat}
    (hfind : blockSetFindNextBlock cfg s.free block true = some b₁) (hmin : minBlock ≤ b₁)
    (hact : s.allocated ≠ []) (hskip : skipAllocated cfg b₁ s.allocated b₁ = some b₂) :
    findFreeBlockLoop cfg s (fuel + 1) block minBlock =
      if s.queue.findFreeBlock b₂ ≠ b₁ then findFreeBlockLoop cfg s fuel (s.queue.findFreeBlock b₂) b₁
      else some (s.queue.findFreeBlock b₂) := by
  simp only [findFreeBlockLoop, hfind, Option.bind_eq_bind, Option.bind_some, if_neg (Nat.not_lt.mpr hmin),
    if_neg hact, hskip]

/-- A round of `find_free_block` whose search of the free set finds nothing
from the block on, below a positive `min_block`: `0`. -/
theorem findFreeBlockLoop_of_zero {s : AllocState} {fuel block minBlock : Nat}
    (hfind : blockSetFindNextBlock cfg s.free block true = some 0) (hmin : 0 < minBlock) :
    findFreeBlockLoop cfg s (fuel + 1) block minBlock = some 0 := by
  simp [findFreeBlockLoop, hfind, hmin]

/-- The loop of `find_free_block` from a candidate `block` below which, from
`minIn` on, nothing can be allocated: given a round for every block left
below the device's end and one more, it ends with the least block from
`minIn` on that can be allocated, or `0` when there is none. -/
theorem findFreeBlockLoop_spec {s : AllocState} (hs : s.Ok cfg) {minIn : Nat} :
    ∀ fuel block minBlock, 0 < fuel → s.blockCount < fuel + block → minIn ≤ block →
      minBlock ≤ block → Ranges.Gap s.Free minIn block →
      ∃ r, findFreeBlockLoop cfg s fuel block minBlock = some r ∧ Ranges.NextIn s.Free minIn r := by
  intro fuel
  induction fuel with
  | zero =>
    intro block minBlock hpos
    omega
  | succ fuel ih =>
    intro block minBlock _ hfuel hin hmb hgap
    obtain ⟨b₁, hfind, hnext⟩ := blockSetFindNextBlock_in hs.free block
    rcases hnext with hleast | ⟨rfl, hnone⟩
    · -- the first free block from `block` on, moved past the sets and the queue
      have hb₁ : block ≤ b₁ := hleast.1.1
      have hlt : b₁ < s.blockCount := hs.below b₁ hleast.1.2
      obtain ⟨b₂, hskip, h₁₂, hgap₂, hfix⟩ := skipAllocated_spec hs.allocated (le_refl b₁)
      have hq₃ := Queue.findFreeBlock_spec hs.queue b₂
      have h₂₃ : b₂ ≤ s.queue.findFreeBlock b₂ := hq₃.1.1
      rw [findFreeBlockLoop_round hfind (le_trans hmb hb₁) hs.active hskip]
      -- nothing from `minIn` up to the new candidate can be allocated
      have hgap₃ : Ranges.Gap s.Free minIn (s.queue.findFreeBlock b₂) :=
        hgap.trans <| ((Ranges.gap_of_isLeast hleast).mono fun c hc => hc.1).trans <|
          (hgap₂.mono fun c hc => hc.2.1).trans <| (Ranges.gap_of_isLeast hq₃).mono fun c hc => hc.2.2
      split_ifs with hne
      · -- the round moved the candidate: another round, with one block fewer left
        exact ih _ _ (by omega) (by omega) (by omega) (by omega) hgap₃
      · -- the round left it at `b₁`: free, in no set, not queued
        have h₃ : s.queue.findFreeBlock b₂ = b₁ := not_not.mp hne
        have hb₂ : b₂ = b₁ := by omega
        have hfree : s.Free b₁ := ⟨hleast.1.2, hfix.mpr hb₂, h₃ ▸ hq₃.1.2⟩
        rw [h₃] at hgap₃ ⊢
        exact ⟨b₁, rfl, .inl (hgap₃.isLeast (by omega) hfree)⟩
    · -- no free block from `block` on: nothing can be allocated from `minIn` on
      have hall : ∀ c, minIn ≤ c → ¬ s.Free c := by
        intro c hc hfree
        rcases Nat.lt_or_ge c block with hcb | hcb
        · exact hgap c hc hcb hfree
        · exact hnone c hcb hfree.1
      rcases Nat.eq_zero_or_pos minBlock with rfl | hm
      · -- `min_block` is `0`: the round goes on with block `0`, in no set and not queued
        obtain ⟨b₂, hskip, -, -, hfix⟩ := skipAllocated_spec hs.allocated (le_refl 0)
        have hb₂ : b₂ = 0 := hfix.mp fun set hs' => (hs.allocated set hs').not_mem_zero
        subst hb₂
        have hq₃ := Queue.findFreeBlock_spec hs.queue 0
        have hnq : ¬ s.queue.QueuedAlloc 0 := by
          rintro ⟨i, hi, hr, hb, -⟩
          have := hs.queue.pos i hi hr
          omega
        have h₃ : s.queue.findFreeBlock 0 = 0 := Nat.le_zero.mp (hq₃.2 ⟨le_rfl, hnq⟩)
        rw [findFreeBlockLoop_round hfind le_rfl hs.active hskip, h₃]
        exact ⟨0, by simp, .inr ⟨rfl, hall⟩⟩
      · exact ⟨0, findFreeBlockLoop_of_zero hfind hm, .inr ⟨rfl, hall⟩⟩

/-- `find_free_block` on the allocator as the transaction code keeps it: it
returns, and answers the least block from `min_block` on that is in the
committed free set, in no allocated or tmp_allocated set of an active
transaction, and not queued for allocation; `0` when there is none. -/
theorem find_free_block_least {s : AllocState} (hs : s.Ok cfg) (minBlock : Nat) :
    ∃ r, findFreeBlock cfg s minBlock = some r ∧ Ranges.NextIn s.Free minBlock r :=
  findFreeBlockLoop_spec hs _ _ _ (Nat.succ_pos _) (by omega) le_rfl le_rfl (Ranges.Gap.refl _ _)

end Search

/-- A new file system's free set, the initial range `[5, 10)` of a device of
ten blocks; one active transaction, with no blocks yet; block `5` queued for
allocation. -/
def newFsState : AllocState where
  free := ⟨⟨.empty, false, false, false⟩, ⟨5, 10⟩⟩
  allocated := [⟨⟨.empty, false, false, false⟩, BlockRange.clear⟩]
  queue := ⟨⟨(Vector.replicate _ ⟨0, false, false, true⟩).set 0 ⟨5, false, false, false⟩ (by decide),
    ⟨0, by decide⟩, ⟨1, by decide⟩⟩, false⟩
  blockCount := 10

theorem find_free_block_least_newFs :
    newFsState.Ok order4 ∧ ∃ r, findFreeBlock order4 newFsState 2 = some r ∧
      Ranges.NextIn newFsState.Free 2 r := by
  have hindices : newFsState.queue.indices = [⟨0, by decide⟩] := by decide
  have hok : newFsState.Ok order4 := by
    refine ⟨⟨.inl rfl, ?_, .inr ⟨by decide, by decide, rfl⟩⟩, ?_, by simp [newFsState], ?_, ?_⟩
    · simp [BlockSet.ranges, newFsState, entries]
      exact ⟨by simp, by simp, by simp⟩
    · intro set hset
      simp only [newFsState, List.mem_singleton] at hset
      subst hset
      exact ⟨.inl rfl, ⟨by simp [BlockSet.ranges, entries], by simp [BlockSet.ranges, entries],
        by simp [BlockSet.ranges, entries]⟩, .inl rfl⟩
    · constructor
      · intro i hi j hj
        rw [hindices, List.mem_singleton] at hi hj
        rw [hi, hj]
        simp
      · intro i hi
        rw [hindices, List.mem_singleton] at hi
        subst hi
        decide
    · intro c hc
      rcases hc with hc | hc
      · simp [BlockSet.ranges, newFsState, entries] at hc
      · exact hc.2
  exact ⟨hok, find_free_block_least hok 2⟩

end Storage
