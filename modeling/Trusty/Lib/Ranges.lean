import Mathlib.Order.Bounds.Basic

/-!
# Searching the naturals, and sorted lists of ranges

A search for the least `c ≥ lo` with a property `P` often goes by jumps, each
past numbers known to fail one of the tests that make up `P`.  `Gap P lo hi`
says that no number of `[lo, hi)` has `P`; jumps keep the gap growing
(`Gap.trans`, `Gap.mono`, `gap_of_isLeast`), and a search that stops at a
number with `P` has found the least one (`Gap.isLeast`).  `NextIn p b r` is
what a search for the first `c ≥ b` with `p c` answers: that `c`, or `0` when
there is none.

A set of numbers is often stored as a list of half-open ranges `[start, end)`.
`Sorted` ranges are non-empty, start above `0`, and each ends before the next
one starts, with at least one number between them.  Cut around one range,
the ranges before it lie below it and those after it above it
(`Sorted.end_lt_of_mem_left`, `Sorted.end_lt_of_mem_right`), which settles
the first number after `b` in the set and the first one not in it:

* `Sorted.isLeast_not_mem_of_inRange`: inside a range, the first number not
  in the set is the range's end;
* `Sorted.isLeast_mem_of_before`: below a range that every earlier one ends
  before, the first number in the set is the range's start;
* `not_mem_of_after`: past every range, nothing is in the set.
-/

namespace Ranges

/-! ## Gaps and searches -/

/-- No number of `[lo, hi)` has `P`. -/
def Gap (P : Nat → Prop) (lo hi : Nat) : Prop := ∀ c, lo ≤ c → c < hi → ¬ P c

/-- What a search for the first `c ≥ b` with `p c` answers: the least such
`c`, or `0` when there is none. -/
def NextIn (p : Nat → Prop) (b r : Nat) : Prop :=
  IsLeast {c | b ≤ c ∧ p c} r ∨ (r = 0 ∧ ∀ c, b ≤ c → ¬ p c)

section Gap

variable {P p : Nat → Prop} {lo mid hi b r : Nat}

theorem Gap.refl (P : Nat → Prop) (lo : Nat) : Gap P lo lo := by
  intro c hlo hhi
  omega

theorem Gap.trans (h1 : Gap P lo mid) (h2 : Gap P mid hi) : Gap P lo hi := by
  intro c hlo hhi
  rcases Nat.lt_or_ge c mid with h | h
  · exact h1 c hlo h
  · exact h2 c h hhi

/-- A gap of a test is a gap of every property that implies it. -/
theorem Gap.mono (h : Gap p lo hi) (hP : ∀ c, P c → p c) : Gap P lo hi := by
  intro c hlo hhi hc
  exact h c hlo hhi (hP c hc)

/-- Below the least `c ≥ b` with `p`, nothing from `b` on has `p`. -/
theorem gap_of_isLeast (h : IsLeast {c | b ≤ c ∧ p c} r) : Gap p b r := by
  intro c hb hc hp
  have := h.2 ⟨hb, hp⟩
  omega

/-- A search that stops at `r` with `P`, with nothing from `lo` below it
having `P`, found the least one. -/
theorem Gap.isLeast (h : Gap P lo r) (hlo : lo ≤ r) (hr : P r) :
    IsLeast {c | lo ≤ c ∧ P c} r := by
  refine ⟨⟨hlo, hr⟩, ?_⟩
  intro c hc
  obtain ⟨hlc, hpc⟩ := hc
  by_contra hlt
  exact h c hlc (by omega) hpc

end Gap

/-! ## Range lists -/

/-- `b` lies in `[r.1, r.2)`. -/
def InRange (r : Nat × Nat) (b : Nat) : Prop := r.1 ≤ b ∧ b < r.2

/-- `b` lies in one of the ranges. -/
def Mem (rs : List (Nat × Nat)) (b : Nat) : Prop := ∃ r ∈ rs, InRange r b

instance (r : Nat × Nat) (b : Nat) : Decidable (InRange r b) :=
  inferInstanceAs (Decidable (_ ∧ _))

instance (rs : List (Nat × Nat)) (b : Nat) : Decidable (Mem rs b) :=
  inferInstanceAs (Decidable (∃ r ∈ rs, InRange r b))

/-- Ranges as a set of numbers is kept: each non-empty and starting above
`0`, each ending before every later one starts, never next to it. -/
structure Sorted (rs : List (Nat × Nat)) : Prop where
  pos : ∀ r ∈ rs, 0 < r.1
  nonempty : ∀ r ∈ rs, r.1 < r.2
  ordered : rs.Pairwise fun r s => r.2 < s.1

@[simp] theorem not_mem_nil (b : Nat) : ¬ Mem [] b := by
  simp [Mem]

@[simp] theorem mem_append (A B : List (Nat × Nat)) (b : Nat) :
    Mem (A ++ B) b ↔ Mem A b ∨ Mem B b := by
  simp only [Mem, List.mem_append]
  constructor
  · rintro ⟨r, hr | hr, hb⟩
    · exact .inl ⟨r, hr, hb⟩
    · exact .inr ⟨r, hr, hb⟩
  · rintro (⟨r, hr, hb⟩ | ⟨r, hr, hb⟩)
    · exact ⟨r, .inl hr, hb⟩
    · exact ⟨r, .inr hr, hb⟩

@[simp] theorem mem_cons (x : Nat × Nat) (rs : List (Nat × Nat)) (b : Nat) :
    Mem (x :: rs) b ↔ InRange x b ∨ Mem rs b := by
  simp [Mem]

/-- Past the end of every range, nothing is in the set. -/
theorem not_mem_of_after {rs : List (Nat × Nat)} {b : Nat} (h : ∀ r ∈ rs, r.2 ≤ b) :
    ∀ c, b ≤ c → ¬ Mem rs c := by
  intro c hc hm
  obtain ⟨r, hr, -, hlt⟩ := hm
  have := h r hr
  omega

section Split

variable {A B : List (Nat × Nat)} {x : Nat × Nat} {b : Nat}

theorem Sorted.end_lt_of_mem_left (h : Sorted (A ++ x :: B)) {r : Nat × Nat} (hr : r ∈ A) :
    r.2 < x.1 :=
  (List.pairwise_append.mp h.ordered).2.2 r hr x List.mem_cons_self

theorem Sorted.end_lt_of_mem_right (h : Sorted (A ++ x :: B)) {r : Nat × Nat} (hr : r ∈ B) :
    x.2 < r.1 :=
  (List.pairwise_cons.mp (List.pairwise_append.mp h.ordered).2.1).1 r hr

theorem Sorted.nonempty_mid (h : Sorted (A ++ x :: B)) : x.1 < x.2 :=
  h.nonempty x (List.mem_append_right A List.mem_cons_self)

/-- Inside a range, the first number not in the set is the range's end. -/
theorem Sorted.isLeast_not_mem_of_inRange (h : Sorted (A ++ x :: B)) (hb : InRange x b) :
    IsLeast {c | b ≤ c ∧ ¬ Mem (A ++ x :: B) c} x.2 := by
  have hend : ¬ Mem (A ++ x :: B) x.2 := by
    rw [mem_append, mem_cons]
    rintro (⟨r, hr, hin⟩ | hin | ⟨r, hr, hin⟩)
    · -- every earlier range ends before `x` starts
      have := h.end_lt_of_mem_left hr
      have := h.nonempty_mid
      exact absurd hin.2 (by omega)
    · exact absurd hin.2 (lt_irrefl _)
    · -- every later range starts after `x` ends
      have := h.end_lt_of_mem_right hr
      exact absurd hin.1 (by omega)
  refine Gap.isLeast ?_ hb.2.le hend
  intro c hbc hcx hnot
  have hxb := hb.1
  rw [mem_append, mem_cons] at hnot
  exact hnot (.inr (.inl ⟨by omega, hcx⟩))

/-- Below a range `y` that every earlier range ends at or before `b`: `b` is
not in the set, and the first number in it is `y`'s start. -/
theorem Sorted.isLeast_mem_of_before {y : Nat × Nat} (h : Sorted (A ++ y :: B))
    (hA : ∀ r ∈ A, r.2 ≤ b) (hb : b < y.1) :
    ¬ Mem (A ++ y :: B) b ∧ IsLeast {c | b ≤ c ∧ Mem (A ++ y :: B) c} y.1 := by
  -- nothing of `[b, y.1)` is in a range: those before end by `b`, the rest start from `y.1`
  have hgap : Gap (Mem (A ++ y :: B)) b y.1 := by
    intro c hbc hcy hm
    rw [mem_append, mem_cons] at hm
    rcases hm with ⟨r, hr, hin⟩ | hin | ⟨r, hr, hin⟩
    · have := hA r hr
      exact absurd hin.2 (by omega)
    · exact absurd hin.1 (by omega)
    · have := h.end_lt_of_mem_right hr
      have := h.nonempty_mid
      exact absurd hin.1 (by omega)
  refine ⟨hgap b le_rfl hb, Gap.isLeast hgap hb.le ?_⟩
  rw [mem_append, mem_cons]
  exact .inr (.inl ⟨le_rfl, h.nonempty_mid⟩)

end Split

end Ranges
