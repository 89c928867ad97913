import Mathlib.Data.List.Range
import Mathlib.Data.BitVec

/-!
# Bitmaps of `n` bits

lk's `bitmap_set`, `bitmap_clear`, `bitmap_test` and `bitmap_ffz` on an
array of words holding `n` bits, as a `BitVec n`: bit `i` of the array is
bit `i % 64` of word `i / 64`, which is bit `i` of the vector.

* `test_set`, `test_clear`: what a bit reads after a set or a clear.
* `ffz_spec`: `bitmap_ffz` returns the lowest clear bit, or `-1` when all
  `n` bits are set.
-/

namespace Bitmap

variable {n : Nat}

/-- `bitmap_test(bitmap, i)`. -/
def test (b : BitVec n) (i : Nat) : Bool := b.getLsbD i

/-- `bitmap_set(bitmap, i)`. -/
def set (b : BitVec n) (i : Nat) : BitVec n := b ||| BitVec.twoPow n i

/-- `bitmap_clear(bitmap, i)`. -/
def clear (b : BitVec n) (i : Nat) : BitVec n := b &&& ~~~(BitVec.twoPow n i)

/-- `bitmap_ffz(bitmap, n)`: the first clear bit, `-1` if none. -/
def ffz (b : BitVec n) : Int :=
  match (List.range n).find? (fun i => !b.getLsbD i) with
  | some i => i
  | none => -1

@[simp] theorem test_zero (i : Nat) : test (0 : BitVec n) i = false := BitVec.getLsbD_zero

@[simp] theorem test_set (b : BitVec n) {i : Nat} (hi : i < n) (j : Nat) :
    test (set b i) j = (decide (i = j) || test b j) := by
  by_cases hij : i = j
  · subst hij
    simp [test, set, hi]
  · simp [test, set, hij]

@[simp] theorem test_clear (b : BitVec n) (i j : Nat) :
    test (clear b i) j = (!decide (i = j) && test b j) := by
  by_cases hj : j < n
  · by_cases hij : i = j
    · subst hij
      simp [test, clear, hj]
    · simp [test, clear, hij, Ne.symm hij, hj]
  · simp [test, clear, BitVec.getLsbD_of_ge b j (by omega)]

/-- `bitmap_ffz` finds the lowest clear bit, or none. -/
theorem ffz_spec (b : BitVec n) :
    (ffz b = -1 ∧ ∀ i < n, test b i = true) ∨
      ∃ i : Nat, i < n ∧ ffz b = i ∧ test b i = false ∧ ∀ j < i, test b j = true := by
  unfold ffz
  cases hf : (List.range n).find? (fun i => !b.getLsbD i) with
  | none =>
    refine .inl ⟨rfl, fun i hi => ?_⟩
    simpa [test] using List.find?_eq_none.mp hf i (List.mem_range.mpr hi)
  | some i =>
    obtain ⟨hp, hmem, hlow⟩ := List.find?_range_eq_some.mp hf
    exact .inr ⟨i, List.mem_range.mp hmem, rfl, by simpa [test] using hp,
      fun j hj => by simpa [test] using hlow j hj⟩

end Bitmap
