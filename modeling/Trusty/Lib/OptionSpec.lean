import Mathlib

/-!
# Postconditions of `Option` programs, with failure accounted for

A program in the `Option` monad returns `none` for a failure: of the
environment it calls (no block left, a failed transaction) or of an
assertion.  `Ok strict P o` says that every result of `o` satisfies `P`, and
that `o` fails only where `strict` does not hold.  With `strict` the condition
under which the environment does not fail, one proof gives both safety
(`Ok.of_eq_some`: whatever is returned satisfies `P`) and progress
(`Ok.exists_some`: under `strict` something is returned, so no assertion of
the program fails).

The rules follow the shape of the program: `Ok.pure`, `Ok.bind`, `Ok.ite`,
`Ok.none`, with `Ok.mono` and `Ok.weaken` to adapt a lemma to its caller.
-/

namespace OptionSpec

variable {α β : Type} {s s' : Prop} {P Q : α → Prop}

/-- Every result of `o` satisfies `P`, and `o` fails only if `strict` does
not hold. -/
def Ok (strict : Prop) (P : α → Prop) : Option α → Prop
  | none => ¬ strict
  | some a => P a

@[simp] theorem ok_some {a : α} : Ok s P (some a) ↔ P a := Iff.rfl

@[simp] theorem ok_none : Ok s P (none : Option α) ↔ ¬ s := Iff.rfl

theorem Ok.pure {a : α} (h : P a) : Ok s P (Pure.pure a) := h

/-- A step that cannot fail, as `do` notation writes it. -/
@[simp] theorem some_bind (a : α) (f : α → Option β) : (some a >>= f) = f a := rfl

theorem Ok.none (hs : ¬ s) : Ok s P (none : Option α) := hs

theorem Ok.bind {m : Option α} {f : α → Option β} {Q : β → Prop} (hm : Ok s P m)
    (hf : ∀ a, P a → Ok s Q (f a)) : Ok s Q (m >>= f) := by
  cases m with
  | none => exact hm
  | some a => exact hf a hm

theorem Ok.ite {c : Prop} [Decidable c] {m₁ m₂ : Option α} (h₁ : c → Ok s P m₁)
    (h₂ : ¬ c → Ok s P m₂) : Ok s P (if c then m₁ else m₂) := by
  by_cases hc : c
  · rw [if_pos hc]; exact h₁ hc
  · rw [if_neg hc]; exact h₂ hc

theorem Ok.mono {m : Option α} (h : Ok s P m) (hPQ : ∀ a, P a → Q a) : Ok s Q m := by
  cases m with
  | none => exact h
  | some a => exact hPQ a h

/-- A program that fails less often than the caller allows. -/
theorem Ok.weaken {m : Option α} (h : Ok s P m) (hs : s' → s) : Ok s' P m := by
  cases m with
  | none => exact fun h' => h (hs h')
  | some a => exact h

theorem Ok.and {m : Option α} (hP : Ok s P m) (hQ : Ok s Q m) : Ok s (fun a => P a ∧ Q a) m := by
  cases m with
  | none => exact hP
  | some a => exact ⟨hP, hQ⟩

/-- Safety: a returned value satisfies the postcondition. -/
theorem Ok.of_eq_some {m : Option α} {a : α} (h : Ok s P m) (hm : m = some a) : P a := by
  subst hm
  exact h

/-- Progress: under `strict` the program returns a value. -/
theorem Ok.exists_some {m : Option α} (h : Ok s P m) (hs : s) : ∃ a, m = some a ∧ P a := by
  cases m with
  | none => exact absurd hs h
  | some a => exact ⟨a, rfl, h⟩

end OptionSpec
