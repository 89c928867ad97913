import Mathlib.Data.List.Basic

/-!
# Runs of a labelled step function

A system given by a partial step function `step : σ → α → Option (σ × List ε)`
(the state after an action, and what the action showed to an observer) runs
through a list of actions.  `Run step s as out t` is such a run from `s` to
`t`, with `out` everything it showed, in order.

Safety proofs about such a system use `Run.induction`: a property of a state
and of the output so far that holds at the start, and that every step keeps,
holds at the end of every run (`Run.induction_of_forall` for runs of some
actions only).  Runs are built step by step (`Run.cons`, `Run.snoc`) and
joined (`Run.append`).  `exec` runs a list of actions, and
`Run.of_exec` turns a computed run into a `Run`, so that a run on fixed
actions is checked by evaluation.
-/

namespace LTS

variable {σ α ε : Type}

/-- A run of `step` from `s`: the actions taken, what they showed, and the
state reached.  Runs grow at their end, as an invariant is proved. -/
inductive Run (step : σ → α → Option (σ × List ε)) (s : σ) :
    List α → List ε → σ → Prop
  | nil : Run step s [] [] s
  | snoc {as : List α} {out : List ε} {t t' : σ} {a : α} {o : List ε} :
      Run step s as out t → step t a = some (t', o) →
      Run step s (as ++ [a]) (out ++ o) t'

variable {step : σ → α → Option (σ × List ε)} {s t : σ} {as : List α} {out : List ε}

/-- The invariant rule: what the start has and every step keeps holds at the
end of every run. -/
theorem Run.induction {P : σ → List ε → Prop} (h : Run step s as out t) (start : P s [])
    (keep : ∀ {u u' : σ} {out' : List ε} {a : α} {o : List ε},
      P u out' → step u a = some (u', o) → P u' (out' ++ o)) :
    P t out := by
  induction h with
  | nil => exact start
  | snoc _ hstep ih => exact keep ih hstep

/-- The invariant rule for runs whose every action satisfies `A`: the
steps to check are those of such actions. -/
theorem Run.induction_of_forall {A : α → Prop} {P : σ → List ε → Prop} (h : Run step s as out t)
    (hA : ∀ a ∈ as, A a) (start : P s [])
    (keep : ∀ {u u' : σ} {out' : List ε} {a : α} {o : List ε},
      P u out' → A a → step u a = some (u', o) → P u' (out' ++ o)) :
    P t out := by
  induction h with
  | nil => exact start
  | snoc _ hstep ih =>
    have hprev : ∀ a ∈ _, A a := fun a ha => hA a (List.mem_append_left _ ha)
    exact keep (ih hprev) (hA _ (List.mem_append_right _ (List.mem_singleton_self _))) hstep

/-- A step followed by a run is a run. -/
theorem Run.cons {a : α} {t' : σ} {o : List ε} (hstep : step s a = some (t, o))
    (h : Run step t as out t') : Run step s (a :: as) (o ++ out) t' := by
  induction h with
  | nil => simpa using Run.snoc .nil hstep
  | snoc _ hstep' ih =>
    rw [← List.cons_append, ← List.append_assoc]
    exact .snoc ih hstep'

/-- A run followed by a run is a run. -/
theorem Run.append {bs : List α} {out' : List ε} {u : σ} (h : Run step s as out t)
    (h' : Run step t bs out' u) : Run step s (as ++ bs) (out ++ out') u := by
  induction h' with
  | nil => simpa using h
  | snoc _ hstep ih =>
    rw [← List.append_assoc, ← List.append_assoc]
    exact .snoc ih hstep

/-- Run `as` from `s`, if every step can be taken. -/
def exec (step : σ → α → Option (σ × List ε)) (s : σ) : List α → Option (σ × List ε)
  | [] => some (s, [])
  | a :: as => (step s a).bind fun r => (exec step r.1 as).map fun r' => (r'.1, r.2 ++ r'.2)

theorem Run.of_exec (h : exec step s as = some (t, out)) : Run step s as out t := by
  induction as generalizing s out with
  | nil =>
    simp only [exec, Option.some.injEq, Prod.mk.injEq] at h
    obtain ⟨rfl, rfl⟩ := h
    exact .nil
  | cons a as ih =>
    simp only [exec, Option.bind_eq_some_iff, Option.map_eq_some_iff] at h
    obtain ⟨⟨u, o⟩, hstep, ⟨t', out'⟩, hrest, heq⟩ := h
    simp only [Prod.mk.injEq] at heq
    obtain ⟨rfl, rfl⟩ := heq
    exact Run.cons hstep (ih hrest)

/-- A run on fixed actions whose end `p` accepts, found by running them. -/
theorem Run.exists_of_exec {p : σ → List ε → Bool}
    (h : (exec step s as).any (fun r => p r.1 r.2) = true) :
    ∃ out t, Run step s as out t ∧ p t out = true := by
  cases hx : exec step s as with
  | none => simp [hx] at h
  | some r =>
    rw [hx] at h
    exact ⟨r.2, r.1, Run.of_exec hx, by simpa using h⟩

end LTS
