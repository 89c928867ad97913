import Mathlib.Data.List.Basic
import Mathlib.Data.List.Infix

/-!
# A bounded mailbox

Messages wait in a FIFO (`pending`) until a receiver takes the oldest one; a
taken message is held under an id, where the receiver can look at it, until
it releases the id.  At most `cap` messages are pending or held.

`Step` is every move of such a mailbox, `Steps` a run.  The facts a
user of a mailbox relies on are about runs:

* `Steps.conserve`: what was pending at the start followed by everything
  sent is what was taken followed by what is pending at the end; so messages
  are taken in the order they were sent, each at most once (`Steps.taken_prefix`);
* `Steps.held_of_take`: a message taken under `i` is what `i` holds until `i`
  is released;
* `Steps.wf`: the bound and distinct ids hold throughout.
-/

namespace Mailbox

variable {ι α : Type}

/-- A mailbox: the messages not yet taken, oldest first, and the taken ones
under their ids. -/
structure Box (ι α : Type) where
  pending : List α
  held : List (ι × α)

/-- What one move of a mailbox does, as its users see it. -/
inductive Event (ι α : Type) where
  | send (m : α)
  | take (i : ι) (m : α)
  | release (i : ι)
  | skip

namespace Event

/-- The message an event appends, if any. -/
def sent : Event ι α → List α
  | send m => [m]
  | _ => []

/-- The message an event takes, if any. -/
def taken : Event ι α → List α
  | take _ m => [m]
  | _ => []

@[simp] theorem sent_send (m : α) : (send m : Event ι α).sent = [m] := rfl
@[simp] theorem sent_take (i : ι) (m : α) : (take i m).sent = [] := rfl
@[simp] theorem sent_release (i : ι) : (release i : Event ι α).sent = [] := rfl
@[simp] theorem sent_skip : (skip : Event ι α).sent = [] := rfl
@[simp] theorem taken_send (m : α) : (send m : Event ι α).taken = [] := rfl
@[simp] theorem taken_take (i : ι) (m : α) : (take i m).taken = [m] := rfl
@[simp] theorem taken_release (i : ι) : (release i : Event ι α).taken = [] := rfl
@[simp] theorem taken_skip : (skip : Event ι α).taken = [] := rfl

end Event

/-- The ids currently held. -/
def Box.ids (b : Box ι α) : List ι := b.held.map Prod.fst

/-- The moves of a mailbox of capacity `cap`. -/
inductive Step (cap : Nat) : Box ι α → Event ι α → Box ι α → Prop
  | send (b : Box ι α) (m : α) (room : b.pending.length + b.held.length < cap) :
      Step cap b (.send m) ⟨b.pending ++ [m], b.held⟩
  | take (b : Box ι α) (i : ι) (m : α) (rest : List α) (head : b.pending = m :: rest)
      (fresh : i ∉ b.ids) :
      Step cap b (.take i m) ⟨rest, b.held ++ [(i, m)]⟩
  | release [DecidableEq ι] (b : Box ι α) (i : ι) (mem : i ∈ b.ids) :
      Step cap b (.release i) ⟨b.pending, b.held.filter (·.1 ≠ i)⟩
  | skip (b : Box ι α) : Step cap b .skip b

/-- A run: the mailbox moves through the events in order. -/
inductive Steps (cap : Nat) : Box ι α → List (Event ι α) → Box ι α → Prop
  | nil (b : Box ι α) : Steps cap b [] b
  | cons {b b' b'' : Box ι α} {e : Event ι α} {es : List (Event ι α)} :
      Step cap b e b' → Steps cap b' es b'' → Steps cap b (e :: es) b''

/-- The mailbox is within its bound and no id is held twice. -/
structure WF (cap : Nat) (b : Box ι α) : Prop where
  bound : b.pending.length + b.held.length ≤ cap
  nodup : b.ids.Nodup

variable {cap : Nat} {b b' b'' : Box ι α} {e : Event ι α} {es : List (Event ι α)}

theorem Step.conserve (h : Step cap b e b') : b.pending ++ e.sent = e.taken ++ b'.pending := by
  cases h with
  | send => rfl
  | take b i m rest head => simp [head]
  | release => simp
  | skip => simp

theorem Steps.conserve (h : Steps cap b es b') :
    b.pending ++ es.flatMap Event.sent = es.flatMap Event.taken ++ b'.pending := by
  induction h with
  | nil => simp
  | @cons b b' b'' e es step _ ih =>
    -- one step moves its own messages, the rest of the run the others
    calc b.pending ++ (e :: es).flatMap Event.sent
        = (b.pending ++ e.sent) ++ es.flatMap Event.sent := by simp
      _ = e.taken ++ (b'.pending ++ es.flatMap Event.sent) := by
          rw [step.conserve, List.append_assoc]
      _ = (e :: es).flatMap Event.taken ++ b''.pending := by
          rw [ih]; simp

/-- Messages are taken in the order they were sent, each at most once. -/
theorem Steps.taken_prefix (h : Steps cap b es b') :
    es.flatMap Event.taken <+: b.pending ++ es.flatMap Event.sent := by
  rw [h.conserve]
  exact List.prefix_append _ _

theorem ids_filter [DecidableEq ι] (l : List (ι × α)) (i : ι) :
    (l.filter (·.1 ≠ i)).map Prod.fst = (l.map Prod.fst).filter (· ≠ i) := by
  rw [List.filter_map]
  rfl

theorem Step.wf (h : Step cap b e b') (hb : WF cap b) : WF cap b' := by
  cases h with
  | send b m room => exact ⟨by simp; omega, hb.nodup⟩
  | take b i m rest head fresh =>
    refine ⟨?_, ?_⟩
    · have := hb.bound
      rw [head] at this
      simp at this ⊢
      omega
    · simp only [Box.ids, List.map_append, List.map_cons, List.map_nil]
      refine List.nodup_append.mpr ⟨hb.nodup, List.nodup_cons.mpr ⟨List.not_mem_nil, List.nodup_nil⟩, ?_⟩
      rintro a ha c hc rfl
      rw [List.mem_singleton] at hc
      exact fresh (hc ▸ ha)
  | release b i mem =>
    refine ⟨?_, ?_⟩
    · have := hb.bound
      have := List.length_filter_le (·.1 ≠ i) b.held
      simp only at this ⊢
      omega
    · simp only [Box.ids, ids_filter]
      exact hb.nodup.filter _
  | skip => exact hb

theorem Steps.wf (h : Steps cap b es b') (hb : WF cap b) : WF cap b' := by
  induction h with
  | nil => exact hb
  | cons step _ ih => exact ih (step.wf hb)

theorem Step.held_keep [DecidableEq ι] {i : ι} {m : α} (h : Step cap b e b')
    (hm : (i, m) ∈ b.held) (hne : e ≠ .release i) : (i, m) ∈ b'.held := by
  cases h with
  | send => exact hm
  | take => exact List.mem_append_left _ hm
  | release b j mem =>
    have hij : i ≠ j := fun hij => hne (by rw [hij])
    exact List.mem_filter.mpr ⟨hm, by simpa using hij⟩
  | skip => exact hm

/-- A held message stays held, unchanged, until its id is released. -/
theorem Steps.held_keep [DecidableEq ι] {i : ι} {m : α} (h : Steps cap b es b')
    (hm : (i, m) ∈ b.held) (hne : Event.release i ∉ es) : (i, m) ∈ b'.held := by
  induction h with
  | nil => exact hm
  | cons step _ ih =>
    rw [List.mem_cons, not_or] at hne
    exact ih (step.held_keep hm (Ne.symm hne.1)) hne.2

theorem Steps.append {es₁ es₂ : List (Event ι α)} (h : Steps cap b (es₁ ++ es₂) b'') :
    ∃ b', Steps cap b es₁ b' ∧ Steps cap b' es₂ b'' := by
  induction es₁ generalizing b with
  | nil => exact ⟨b, .nil b, h⟩
  | cons e es ih =>
    cases h with
    | cons step rest =>
      obtain ⟨b', h₁, h₂⟩ := ih rest
      exact ⟨b', .cons step h₁, h₂⟩

/-- What is taken under `i` is what `i` holds, until `i` is released. -/
theorem Steps.held_of_take [DecidableEq ι] {i : ι} {m : α} {es₁ es₂ : List (Event ι α)}
    (h : Steps cap b (es₁ ++ Event.take i m :: es₂) b'') (hne : Event.release i ∉ es₂) :
    (i, m) ∈ b''.held := by
  obtain ⟨b', -, htake⟩ := h.append
  cases htake with
  | cons step rest =>
    cases step with
    | take => exact rest.held_keep (List.mem_append_right _ (List.mem_singleton_self _)) hne

end Mailbox
