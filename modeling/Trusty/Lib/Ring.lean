import Mathlib.Data.List.Nodup

/-!
# Ring buffers

A ring buffer of `n` slots is an array with a head and a tail index.  The
live slots run from the head up to, not including, the tail, wrapping at
`n`: a push writes the tail slot and moves the tail on, a pop moves the head
on.  A push must not move the tail onto the head, so at most `n - 1` slots
are live.

* `RingBuf.indices`: the live slots, oldest first.  The loop
  `for (i = head; i != tail; i = (i + 1) % n)` visits exactly these: there
  are none when the head is the tail, else the head and then the live slots
  after a pop (`indices_of_eq`, `indices_of_ne`).
* `indices_push`: a push that keeps the tail off the head adds the old tail
  slot at the end.
* `tail_not_mem_indices`, `nodup_indices`: the tail slot is never live, and
  no slot is live twice.
-/

/-- A ring buffer of `n` slots. -/
structure RingBuf (α : Type) (n : Nat) where
  entry : Vector α n
  head : Fin n
  tail : Fin n

namespace RingBuf

variable {α : Type} {n : Nat}

/-- The slot after `i`: `(i + 1) % n`. -/
def next (i : Fin n) : Fin n := ⟨(i.val + 1) % n, Nat.mod_lt _ i.pos⟩

/-- The number of live slots: `(tail + n - head) % n`. -/
def count (r : RingBuf α n) : Nat := (r.tail.val + n - r.head.val) % n

/-- The slot `k` places after the head. -/
def slot (r : RingBuf α n) (k : Nat) : Fin n := ⟨(r.head.val + k) % n, Nat.mod_lt _ r.head.pos⟩

/-- The live slots, oldest first. -/
def indices (r : RingBuf α n) : List (Fin n) := (List.range r.count).map r.slot

/-- `x` written at the tail, and the tail moved on. -/
def push (r : RingBuf α n) (x : α) : RingBuf α n :=
  ⟨r.entry.set r.tail x, r.head, next r.tail⟩

/-- The head moved on. -/
def pop (r : RingBuf α n) : RingBuf α n := ⟨r.entry, next r.head, r.tail⟩

/-- Slot `i` changed by `f`. -/
def modify (r : RingBuf α n) (i : Fin n) (f : α → α) : RingBuf α n :=
  ⟨r.entry.set i (f r.entry[i]), r.head, r.tail⟩

/-! ## Arithmetic of the indices -/

/-- Below `2 * n`, taking the rest modulo `n` subtracts `n` at most once. -/
theorem mod_of_lt_two_mul {x : Nat} (hx : x < 2 * n) : x % n = if x < n then x else x - n := by
  split_ifs with h
  · exact Nat.mod_eq_of_lt h
  · rw [Nat.mod_eq_sub_mod (by omega), Nat.mod_eq_of_lt (by omega)]

theorem val_next (i : Fin n) :
    (i.val + 1 < n ∧ (next i).val = i.val + 1) ∨ (i.val + 1 = n ∧ (next i).val = 0) := by
  have := i.isLt
  show (i.val + 1 < n ∧ (i.val + 1) % n = i.val + 1) ∨ (i.val + 1 = n ∧ (i.val + 1) % n = 0)
  rw [mod_of_lt_two_mul (by omega)]
  split_ifs <;> omega

theorem count_eq (r : RingBuf α n) :
    (r.head.val ≤ r.tail.val ∧ r.count = r.tail.val - r.head.val) ∨
      (r.tail.val < r.head.val ∧ r.count = r.tail.val + n - r.head.val) := by
  have := r.head.isLt
  rw [count, mod_of_lt_two_mul (by omega)]
  split_ifs <;> omega

theorem count_lt (r : RingBuf α n) : r.count < n := Nat.mod_lt _ r.head.pos

theorem val_slot (r : RingBuf α n) {k : Nat} (hk : k < n) :
    (r.slot k).val = if r.head.val + k < n then r.head.val + k else r.head.val + k - n := by
  have := r.head.isLt
  show (r.head.val + k) % n = _
  rw [mod_of_lt_two_mul (by omega)]

theorem length_indices (r : RingBuf α n) : r.indices.length = r.count := by
  simp [indices]

/-- Slot `count` after the head is the tail. -/
theorem slot_count (r : RingBuf α n) : r.slot r.count = r.tail := by
  have := r.tail.isLt
  rw [Fin.ext_iff, val_slot r (count_lt r)]
  rcases count_eq r with ⟨h1, h2⟩ | ⟨h1, h2⟩ <;> split_ifs <;> omega

theorem mem_indices {r : RingBuf α n} {i : Fin n} : i ∈ r.indices ↔ ∃ k < r.count, r.slot k = i := by
  simp [indices]

/-- No two live places are the same slot. -/
theorem slot_inj (r : RingBuf α n) {k l : Nat} (hk : k < n) (hl : l < n) (h : r.slot k = r.slot l) :
    k = l := by
  rw [Fin.ext_iff, val_slot r hk, val_slot r hl] at h
  split_ifs at h <;> omega

theorem nodup_indices (r : RingBuf α n) : r.indices.Nodup := by
  refine List.Nodup.map_on ?_ List.nodup_range
  intro k hk l hl h
  have := count_lt r
  rw [List.mem_range] at hk hl
  exact slot_inj r (by omega) (by omega) h

/-- The tail slot is never live. -/
theorem tail_not_mem_indices (r : RingBuf α n) : r.tail ∉ r.indices := by
  rw [mem_indices]
  rintro ⟨k, hk, heq⟩
  rw [← slot_count r] at heq
  have := slot_inj r (by have := count_lt r; omega) (count_lt r) heq
  omega

/-! ## Pushing and popping -/

theorem indices_of_eq {r : RingBuf α n} (h : r.head = r.tail) : r.indices = [] := by
  have hc : r.count = 0 := by
    rcases count_eq r with ⟨-, h2⟩ | ⟨h1, -⟩
    · rw [h2, h, Nat.sub_self]
    · rw [h] at h1
      omega
  simp [indices, hc]

/-- From a head that is not the tail, the loop visits the head, then the
live slots of the ring with the head moved on. -/
theorem indices_of_ne {r : RingBuf α n} (h : r.head ≠ r.tail) : r.indices = r.head :: r.pop.indices := by
  have hne : r.head.val ≠ r.tail.val := fun heq => h (Fin.ext heq)
  have hc : r.count = r.pop.count + 1 := by
    have := r.tail.isLt
    have hph : r.pop.head.val = (next r.head).val := rfl
    have hpt : r.pop.tail.val = r.tail.val := rfl
    rcases count_eq r.pop with e2 | e2 <;>
    rcases count_eq r with e1 | e1 <;> rcases val_next r.head with e3 | e3 <;> omega
  have hslot : ∀ k, r.slot (k + 1) = r.pop.slot k := by
    intro k
    simp only [slot, pop, next, Fin.mk.injEq, Nat.mod_add_mod]
    congr 1
    omega
  have hzero : r.slot 0 = r.head := by
    simp [slot, Nat.mod_eq_of_lt r.head.isLt]
  rw [indices, hc, List.range_succ_eq_map, List.map_cons, hzero, List.map_map, indices]
  congr 1
  exact List.map_congr_left fun k _ => hslot k

/-- A push that keeps the tail off the head adds the old tail slot last. -/
theorem indices_push (r : RingBuf α n) (x : α) (h : next r.tail ≠ r.head) :
    (r.push x).indices = r.indices ++ [r.tail] := by
  have hne : (next r.tail).val ≠ r.head.val := fun heq => h (Fin.ext heq)
  have hc : (r.push x).count = r.count + 1 := by
    have := r.tail.isLt
    have := r.head.isLt
    have hph : (r.push x).head.val = r.head.val := rfl
    have hpt : (r.push x).tail.val = (next r.tail).val := rfl
    rcases count_eq (r.push x) with e2 | e2 <;>
    rcases count_eq r with e1 | e1 <;> rcases val_next r.tail with e3 | e3 <;> omega
  have hslot : (r.push x).slot = r.slot := rfl
  rw [indices, hc, List.range_succ, List.map_append, hslot, List.map_singleton, slot_count]
  rfl

theorem get_push (r : RingBuf α n) (x : α) (i : Fin n) :
    (r.push x).entry[i] = if i = r.tail then x else r.entry[i] := by
  simp only [push, Fin.getElem_fin, Vector.getElem_set, Fin.ext_iff]
  split_ifs <;> first | rfl | omega

theorem get_modify (r : RingBuf α n) (j : Fin n) (f : α → α) (i : Fin n) :
    (r.modify j f).entry[i] = if i = j then f r.entry[j] else r.entry[i] := by
  simp only [modify, Fin.getElem_fin, Vector.getElem_set, Fin.ext_iff]
  split_ifs <;> first | rfl | omega

@[simp] theorem indices_modify (r : RingBuf α n) (j : Fin n) (f : α → α) :
    (r.modify j f).indices = r.indices := rfl

@[simp] theorem modify_head (r : RingBuf α n) (j : Fin n) (f : α → α) :
    (r.modify j f).head = r.head := rfl

@[simp] theorem modify_tail (r : RingBuf α n) (j : Fin n) (f : α → α) :
    (r.modify j f).tail = r.tail := rfl

@[simp] theorem push_head (r : RingBuf α n) (x : α) : (r.push x).head = r.head := rfl

@[simp] theorem push_tail (r : RingBuf α n) (x : α) : (r.push x).tail = next r.tail := rfl

@[simp] theorem pop_entry (r : RingBuf α n) : r.pop.entry = r.entry := rfl

@[simp] theorem pop_tail (r : RingBuf α n) : r.pop.tail = r.tail := rfl

end RingBuf
