import Mathlib

/-!
# Fixed-capacity slot arrays

A C array of `n` equally sized slots, of which a prefix is in use and the rest
hold the zero value, changed only by `memcpy`, `memmove` and `memset` of whole
slots.  `writeRange` is one such copy; `shift` is the combined
overflow-copy / move / fill step that opens a gap (insert) or closes one
(delete) inside the array.

On an array that is exactly its used prefix padded with zeros (`pad`), `shift`
is a list operation on the prefix:

    shift zero n (i + 1) i (pad zero n used) [v]           -- insert one entry
    shift zero n (i + m) i (pad zero n used) vs            -- append `m` entries
    shift zero n d s (pad zero n used) []  (d ≤ s)        -- delete `[d, s)`
    shift zero n d s (pad zero n used) []  (n ≤ s)        -- truncate to `d`

On any full-length array, `shift` is an insert or a delete (`shift_shifted`).
-/

namespace Slots

variable {α : Type}

/-- A copy of `vals` over the slots starting at `start` (`memcpy`/`memmove`). -/
def writeRange (arr : List α) (start : Nat) (vals : List α) : List α :=
  arr.take start ++ vals ++ arr.drop (start + vals.length)

/-- The used slots `used` followed by zero slots, `n` slots in all. -/
def pad (zero : α) (n : Nat) (used : List α) : List α :=
  used ++ List.replicate (n - used.length) zero

/-- Entries `[src, n)` move to `dest`.  Inserting (`src < dest`), the
`dest - src` slots pushed off the end are returned, then `newv` fills
`[src, dest)`; deleting, the freed slots at the end are zeroed.  With
`src ≥ n` nothing moves, and `newv` itself is what overflows. -/
def shift (zero : α) (n dest src : Nat) (arr newv : List α) : List α × List α :=
  let overflow :=
    if src < dest then
      if src = n then newv.take (dest - src)
      else (arr.drop (n - (dest - src))).take (dest - src)
    else []
  let moved :=
    if src < n then writeRange arr dest ((arr.drop src).take (n - max src dest)) else arr
  let clearIndex := if src < n then n + dest - src else dest
  let filled :=
    if src < dest then
      if src = n then moved else writeRange moved src (newv.take (dest - src))
    else writeRange moved clearIndex (List.replicate (n - clearIndex) zero)
  (filled, overflow)

theorem length_writeRange (arr vals : List α) (start : Nat)
    (h : start + vals.length ≤ arr.length) :
    (writeRange arr start vals).length = arr.length := by
  simp only [writeRange, List.length_append, List.length_take, List.length_drop]
  omega

@[simp] theorem length_pad (zero : α) (n : Nat) (used : List α) (h : used.length ≤ n) :
    (pad zero n used).length = n := by
  simp [pad]; omega

theorem getD_pad (zero : α) (n : Nat) (used : List α) (i : Nat) :
    (pad zero n used).getD i zero = used.getD i zero := by
  simp only [pad, List.getD_eq_getElem?_getD, List.getElem?_append]
  split_ifs with h
  · rfl
  · rw [List.getElem?_eq_none (by omega : used.length ≤ i)]
    simp only [List.getElem?_replicate, Option.getD_none]
    split_ifs <;> rfl

/-! ## `shift` on a full-length array -/

/-- Opening a gap: `dest - src` entries of `newv` go in at `src`, and the same
number of entries leave at the end. -/
theorem shift_insert (zero : α) (n dest src : Nat) (arr newv : List α)
    (hlen : arr.length = n) (hsd : src < dest) (hdn : dest ≤ n)
    (hnew : dest - src ≤ newv.length) :
    shift zero n dest src arr newv =
      (arr.take src ++ newv.take (dest - src) ++ (arr.drop src).take (n - dest),
        arr.drop (n - (dest - src))) := by
  have hsn : src < n := by omega
  have hsn' : src ≠ n := by omega
  simp only [shift, hsd, hsn, if_true, hsn', if_false, Nat.max_eq_right (Nat.le_of_lt hsd)]
  have h1 : ((arr.drop src).take (n - dest)).length = n - dest := by simp; omega
  have h2 : (newv.take (dest - src)).length = dest - src := by simp; omega
  have hnil : arr.drop (dest + (n - dest)) = [] := List.drop_eq_nil_of_le (by omega)
  have hm : writeRange arr dest ((arr.drop src).take (n - dest)) =
      arr.take dest ++ (arr.drop src).take (n - dest) := by
    rw [writeRange, h1, hnil, List.append_nil]
  have ht : (arr.take dest ++ (arr.drop src).take (n - dest)).take src = arr.take src := by
    rw [List.take_append_of_le_length (by simp; omega), List.take_take,
      Nat.min_eq_left (by omega)]
  have hd : (arr.take dest ++ (arr.drop src).take (n - dest)).drop (src + (dest - src)) =
      (arr.drop src).take (n - dest) := by
    rw [List.drop_append_of_le_length (by simp; omega)]
    simp; omega
  have hov : (arr.drop (n - (dest - src))).take (dest - src) = arr.drop (n - (dest - src)) :=
    List.take_of_length_le (by simp; omega)
  rw [hm, writeRange, h2, ht, hd, hov]

/-- Inserting at the end of the array: the array is unchanged and the new
entries are the overflow. -/
theorem shift_insert_end (zero : α) (n dest : Nat) (arr newv : List α) (hnd : n < dest) :
    shift zero n dest n arr newv = (arr, newv.take (dest - n)) := by
  simp [shift, hnd]

/-- Closing a gap: entries `[dest, src)` leave and zeros fill the end. -/
theorem shift_delete (zero : α) (n dest src : Nat) (arr : List α)
    (hlen : arr.length = n) (hds : dest ≤ src) (hsn : src < n) :
    shift zero n dest src arr [] =
      (arr.take dest ++ arr.drop src ++ List.replicate (src - dest) zero, []) := by
  have hsd : ¬ src < dest := by omega
  simp only [shift, hsd, hsn, if_true, if_false, Nat.max_eq_left hds]
  have h1 : ((arr.drop src).take (n - src)).length = n - src := by simp; omega
  have htk : (arr.drop src).take (n - src) = arr.drop src :=
    List.take_of_length_le (by simp; omega)
  have hnil : arr.drop (dest + (n - src)) = arr.drop (dest + (n - src)) := rfl
  have hm : writeRange arr dest ((arr.drop src).take (n - src)) =
      arr.take dest ++ arr.drop src ++ arr.drop (dest + (n - src)) := by
    rw [writeRange, h1, htk]
  rw [hm]
  have hlm : (arr.take dest ++ arr.drop src).length = n + dest - src := by simp; omega
  have hrep : (List.replicate (n - (n + dest - src)) zero).length = src - dest := by simp; omega
  rw [writeRange, hrep, List.append_assoc, List.take_append_of_le_length (by omega),
    List.take_of_length_le (by omega)]
  have hdrop : (arr.take dest ++ arr.drop src ++ arr.drop (dest + (n - src))).drop
      (n + dest - src + (src - dest)) = [] := List.drop_eq_nil_of_le (by simp; omega)
  rw [← List.append_assoc, hdrop, List.append_nil]
  congr 3
  omega

/-- With `src` past the end nothing moves and the array is zeroed from `dest`. -/
theorem shift_clear (zero : α) (n dest src : Nat) (arr : List α)
    (hlen : arr.length = n) (hds : dest ≤ src) (hns : n ≤ src) (hdn : dest ≤ n) :
    shift zero n dest src arr [] =
      (arr.take dest ++ List.replicate (n - dest) zero, []) := by
  have hsd : ¬ src < dest := by omega
  have hsn : ¬ src < n := by omega
  simp only [shift, hsd, hsn, if_false, writeRange, List.length_replicate]
  rw [List.drop_eq_nil_of_le (by omega), List.append_nil]

/-! ## What a shift does to an array

`Shifted` reads `shift` as an operation on sequences: an insert opening a gap
of new entries, or a delete closing one.  The insert is described only where
its gap ends inside the array; `shift_shifted` proves it of every full-length
array. -/

/-- The array `res` and overflow `ovf` that an insert or a delete leaves in
an array `old` of `n` slots.  Inserting (`src < dest ≤ n`, with `dest - src`
new entries) puts the new entries at `src` and pushes as many entries past the
end into the overflow; inserting at the end (`src = n`) keeps the array and
the new entries overflow; deleting (`dest < src`) drops `[dest, src)` and
fills the end with zeros. -/
structure Shifted (zero : α) (n dest src : Nat) (old newv res ovf : List α) : Prop where
  insert : src < dest → dest ≤ n → dest - src ≤ newv.length →
    res = old.take src ++ newv.take (dest - src) ++ (old.drop src).take (n - dest) ∧
      ovf = old.drop (n - (dest - src))
  insertEnd : src < dest → src = n → res = old ∧ ovf = newv.take (dest - src)
  delete : dest < src → res = pad zero n (old.take dest ++ old.drop src) ∧ ovf = []

/-- Deleting with the source past the end and the destination past it too
leaves the array as it is. -/
theorem shift_delete_past (zero : α) (n dest src : Nat) (arr : List α)
    (hds : dest < src) (hnd : n < dest) :
    shift zero n dest src arr [] = (arr, []) := by
  have hsd : ¬ src < dest := by omega
  have hsn : ¬ src < n := by omega
  have hrep : n - dest = 0 := by omega
  simp only [shift, hsd, hsn, if_false, hrep, List.replicate_zero, writeRange, List.length_nil,
    Nat.add_zero, List.append_nil, List.take_append_drop]

theorem shift_shifted (zero : α) (n dest src : Nat) (arr newv : List α) (hlen : arr.length = n) :
    Shifted zero n dest src arr newv (shift zero n dest src arr newv).1
      (shift zero n dest src arr newv).2 := by
  refine ⟨fun hsd hdn hnew => ?_, fun hsd hsn => ?_, fun hds => ?_⟩
  · rw [shift_insert zero n dest src arr newv hlen hsd hdn hnew]
    exact ⟨rfl, rfl⟩
  · subst hsn
    rw [shift_insert_end zero _ dest arr newv hsd]
    exact ⟨rfl, rfl⟩
  · -- a delete only ever runs with `newv = []`: `shift` reads `newv` on inserts alone
    have hnil : shift zero n dest src arr newv = shift zero n dest src arr [] := by
      simp only [shift, show ¬ src < dest by omega, if_false]
    rw [hnil]
    rcases Nat.lt_or_ge src n with hsn | hns
    · rw [shift_delete zero n dest src arr hlen hds.le hsn]
      refine ⟨?_, rfl⟩
      have hl : (arr.take dest ++ arr.drop src).length = n - (src - dest) := by simp; omega
      rw [pad, hl, show n - (n - (src - dest)) = src - dest by omega]
    · have hdrop : arr.drop src = [] := List.drop_eq_nil_of_le (by omega)
      rcases Nat.lt_or_ge n dest with hnd | hdn
      · rw [shift_delete_past zero n dest src arr hds hnd, hdrop, List.append_nil,
          List.take_of_length_le (by omega), pad, hlen, Nat.sub_self, List.replicate_zero,
          List.append_nil]
        exact ⟨rfl, rfl⟩
      · rw [shift_clear zero n dest src arr hlen hds.le hns hdn, hdrop, List.append_nil, pad,
          List.length_take, hlen, Nat.min_eq_left hdn]
        exact ⟨rfl, rfl⟩

/-! ## `shift` on padded arrays -/

section Pad

variable (zero : α) (n : Nat)

theorem take_pad (used : List α) (i : Nat) (hi : i ≤ used.length) :
    (pad zero n used).take i = used.take i := by
  simp only [pad]
  rw [List.take_append_of_le_length hi]

theorem drop_pad (used : List α) (i : Nat) (hi : i ≤ used.length) :
    (pad zero n used).drop i = used.drop i ++ List.replicate (n - used.length) zero := by
  simp only [pad]
  rw [List.drop_append_of_le_length hi]

theorem take_append_replicate (l : List α) (m k : Nat) (h1 : l.length ≤ k) :
    (l ++ List.replicate m zero).take k = l ++ List.replicate (min (k - l.length) m) zero := by
  rw [List.take_append, List.take_of_length_le h1, List.take_replicate]

/-- One entry inserted at `i` into an array with a free slot. -/
theorem shift_pad_insert (used : List α) (i : Nat) (v : α)
    (hi : i ≤ used.length) (hn : used.length < n) :
    shift zero n (i + 1) i (pad zero n used) [v] =
      (pad zero n (used.take i ++ v :: used.drop i), [zero]) := by
  rw [shift_insert zero n (i + 1) i _ _ (length_pad zero n used (by omega)) (by omega)
    (by omega) (by simp)]
  refine Prod.ext ?_ ?_
  · rw [take_pad zero n used i hi, drop_pad zero n used i hi,
      take_append_replicate zero _ _ _ (by simp; omega)]
    have hc : min (n - (i + 1) - (used.drop i).length) (n - used.length) =
        n - (used.take i ++ v :: used.drop i).length := by simp; omega
    rw [hc]
    simp [pad]
  · have h1 : used.drop (n - 1) = [] := List.drop_eq_nil_of_le (by omega)
    have h2 : n - used.length - (n - 1 - used.length) = 1 := by omega
    simp [pad, List.drop_append, h1, h2]

/-- One entry inserted at `i` into a full array: the last entry of the
extended list is pushed out. -/
theorem shift_pad_insert_full (used : List α) (i : Nat) (v : α)
    (hi : i ≤ used.length) (hn : used.length = n) :
    shift zero n (i + 1) i (pad zero n used) [v] =
      ((used.take i ++ v :: used.drop i).take n, (used.take i ++ v :: used.drop i).drop n) := by
  have hp : pad zero n used = used := by simp [pad, hn]
  rw [hp]
  have hti : (used.take i).length = i := by simp; omega
  rcases Nat.lt_or_ge i n with hin | hin
  · rw [shift_insert zero n (i + 1) i _ _ hn (by omega) (by omega) (by simp)]
    refine Prod.ext ?_ ?_
    · -- the new entry, then the entries after it up to the end
      dsimp only
      rw [List.take_append, List.take_of_length_le (by omega : (used.take i).length ≤ n), hti,
        show n - i = (n - (i + 1)) + 1 by omega, List.take_succ_cons]
      simp
    · -- the last entry of the extended list is pushed out
      dsimp only
      rw [List.drop_append, List.drop_of_length_le (by omega : (used.take i).length ≤ n),
        List.nil_append, hti, show n - i = (n - (i + 1)) + 1 by omega, List.drop_succ_cons,
        List.drop_drop]
      congr 1
      omega
  · subst hn
    obtain rfl : i = used.length := by omega
    rw [shift_insert_end zero _ _ used [v] (by omega)]
    simp

/-- `m` entries appended after the used prefix (`m` may be zero). -/
theorem shift_pad_append (used newv : List α) (m : Nat)
    (hm : used.length + m ≤ n) (hnew : m ≤ newv.length) :
    (shift zero n (used.length + m) used.length (pad zero n used) newv).1 =
      pad zero n (used ++ newv.take m) := by
  have hlen := length_pad zero n used (by omega)
  rcases Nat.eq_zero_or_pos m with rfl | hpos
  · -- nothing to append: the shift moves nothing
    have hnil : shift zero n used.length used.length (pad zero n used) newv =
        shift zero n used.length used.length (pad zero n used) [] := by
      simp only [shift, lt_irrefl, if_false]
    rw [Nat.add_zero, hnil, List.take_zero, List.append_nil]
    rcases Nat.lt_or_ge used.length n with hlt | hge
    · rw [shift_delete zero n _ _ _ hlen le_rfl hlt, List.take_append_drop, Nat.sub_self,
        List.replicate_zero, List.append_nil]
    · rw [shift_clear zero n _ _ _ hlen le_rfl hge (by omega), take_pad zero n used _ le_rfl,
        List.take_length]
      rfl
  · rw [shift_insert zero n _ _ _ _ hlen (by omega) hm (by omega)]
    dsimp only
    rw [Nat.add_sub_cancel_left, take_pad zero n used _ le_rfl, drop_pad zero n used _ le_rfl,
      List.take_length, List.drop_length, List.nil_append, List.take_replicate, pad]
    have hl : (used ++ newv.take m).length = used.length + m := by simp; omega
    rw [hl, Nat.min_eq_left (by omega)]

/-- Entries `[dest, src)` of the used prefix deleted. -/
theorem shift_pad_delete (used : List α) (dest src : Nat)
    (hds : dest ≤ src) (hsu : src ≤ used.length) (hu : used.length ≤ n) :
    (shift zero n dest src (pad zero n used) []).1 =
      pad zero n (used.take dest ++ used.drop src) := by
  have hlen := length_pad zero n used hu
  have hl : (used.take dest ++ used.drop src).length = dest + (used.length - src) := by
    simp; omega
  rcases Nat.lt_or_ge src n with hsn | hsn
  · -- the entries after the gap move down, zeros fill the end
    rw [shift_delete zero n dest src _ hlen hds hsn]
    dsimp only
    rw [take_pad zero n used dest (by omega), drop_pad zero n used src hsu, pad, hl]
    simp only [List.append_assoc, List.replicate_append_replicate]
    rw [show n - used.length + (src - dest) = n - (dest + (used.length - src)) by omega]
  · -- the gap runs to the end: the array is cut at `dest`
    have hdrop : used.drop src = [] := List.drop_eq_nil_of_le (by omega)
    rw [shift_clear zero n dest src _ hlen hds hsn (by omega), take_pad zero n used dest (by omega),
      hdrop, List.append_nil, pad, List.length_take, Nat.min_eq_left (by omega)]

/-- With the source past the end, the array is truncated to `dest` entries. -/
theorem shift_pad_clear (used : List α) (dest src : Nat)
    (hdu : dest ≤ used.length) (hu : used.length ≤ n) (hns : n ≤ src) :
    (shift zero n dest src (pad zero n used) []).1 = pad zero n (used.take dest) := by
  rw [shift_clear zero n dest src _ (length_pad zero n used hu) (by omega) hns (by omega),
    take_pad zero n used dest hdu]
  simp [pad]; omega

end Pad

/-! ## Slots of a mapped array

The slot operations only move whole slots, so they commute with any map
that sends the zero slot to the zero slot. -/

section Map

variable {β : Type} (f : α → β)

theorem map_writeRange (arr : List α) (start : Nat) (vals : List α) :
    (writeRange arr start vals).map f = writeRange (arr.map f) start (vals.map f) := by
  simp only [writeRange, List.map_append, List.map_take, List.map_drop, List.length_map]

theorem map_pad (zero : α) (n : Nat) (used : List α) :
    (pad zero n used).map f = pad (f zero) n (used.map f) := by
  simp only [pad, List.map_append, List.map_replicate, List.length_map]

theorem shift_map (zero : α) (n dest src : Nat) (arr newv : List α) :
    shift (f zero) n dest src (arr.map f) (newv.map f) =
      ((shift zero n dest src arr newv).1.map f, (shift zero n dest src arr newv).2.map f) := by
  simp only [shift]
  split_ifs <;>
    simp only [map_writeRange, List.map_take, List.map_drop, List.map_replicate, List.map_nil]

end Map

/-! ## What the slots can hold

The slot operations only copy slots of the array and of the new values, and
zero slots: a property of all of these holds of every slot afterwards. -/

section Mem

theorem mem_writeRange {arr vals : List α} {start : Nat} {x : α}
    (h : x ∈ writeRange arr start vals) : x ∈ arr ∨ x ∈ vals := by
  simp only [writeRange, List.mem_append] at h
  rcases h with (h | h) | h
  · exact .inl (List.mem_of_mem_take h)
  · exact .inr h
  · exact .inl (List.mem_of_mem_drop h)

theorem mem_shift (zero : α) (n dest src : Nat) (arr newv : List α) {x : α}
    (h : x ∈ (shift zero n dest src arr newv).1 ∨ x ∈ (shift zero n dest src arr newv).2) :
    x ∈ arr ∨ x ∈ newv ∨ x = zero := by
  -- a slot comes from `arr` (moved or kept), from `newv`, or is a cleared one
  have hmoved : ∀ y, y ∈ (if src < n then writeRange arr dest ((arr.drop src).take (n - max src dest))
      else arr) → y ∈ arr := by
    intro y hy
    split_ifs at hy
    · rcases mem_writeRange hy with hy | hy
      · exact hy
      · exact List.mem_of_mem_drop (List.mem_of_mem_take hy)
    · exact hy
  simp only [shift] at h
  generalize hm : (if src < n then writeRange arr dest ((arr.drop src).take (n - max src dest))
    else arr) = moved at h hmoved
  by_cases h1 : src < dest
  · by_cases h2 : src = n
    · subst h2
      simp only [h1, if_true] at h
      rcases h with h | h
      · exact .inl (hmoved x h)
      · exact .inr (.inl (List.mem_of_mem_take h))
    · simp only [h1, h2, if_true, if_false] at h
      rcases h with h | h
      · rcases mem_writeRange h with h | h
        · exact .inl (hmoved x h)
        · exact .inr (.inl (List.mem_of_mem_take h))
      · exact .inl (List.mem_of_mem_drop (List.mem_of_mem_take h))
  · simp only [h1, if_false, List.not_mem_nil, or_false] at h
    rcases mem_writeRange h with h | h
    · exact .inl (hmoved x h)
    · exact .inr (.inr (List.eq_of_mem_replicate h))

end Mem

end Slots
