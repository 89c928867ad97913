import Mathlib

/-!
# `handle.c`: handle lists and `handle_list_wait`

A handle list (`handle_list_t`) is an intrusive list of handles, with a lock
and the event of the thread waiting on the list, if any; a handle points to
the event of the thread waiting on it (`handle->wait_event`).  Handles are the
elements of a type `H`, compared as the C code compares pointers, and events
are numbers: the caller's stack event of `handle_list_wait` is `ev`.

`handle_list_wait` prepares each handle for waiting and polls it
(`_hlist_do_poll_locked` with `prepare`), undoing the prepares if a handle is
ready or another waiter has one.  Otherwise it drops the lock and sleeps;
meanwhile other threads may add and delete handles, and after each wake-up it
polls the list again, without `prepare`.  The other threads and the handles'
states are the environment: the `poll` results of each pass, the list changes
made while the lock is dropped, and what `__do_wait` returns (`Round`).  The
`ret` of `_hlist_do_poll_locked` is not initialised: a pass that sets it
nowhere returns what its stack slot held, which the model takes as one more
input of the pass (`Round.stale`).

* `handleListWait_spec`: every return of `handle_list_wait` leaves the list
  without a waiter and no handle on the caller's event.  It returns
  `NO_ERROR` with a handle that polled ready, finalised and referenced once,
  with the list that pass polled rotated so the handles after it come first;
  or an error with no handle and no event.  The errors are `ERR_NOT_FOUND`,
  `ERR_ALREADY_STARTED`, a failed sleep, or the unset `ret`.
* `handleListWait_stale`: a wake-up after which no handle is ready returns
  the unset `ret`, whatever it is (a positive value among them), and with
  `1` there it reads the event of a `NULL` handle.
-/

namespace Ipc

/-! ## The model -/

/-- `ERR_NOT_FOUND`. -/
def errNotFound : Int := -2

/-- `ERR_ALREADY_STARTED`. -/
def errAlreadyStarted : Int := -6

/-- A handle list with the `wait_event` pointers of the handles: `handles` is
`hlist->handles` in list order (a node is on the list once), `waitEvent` is
`hlist->wait_event` and `handleWait h` is `h->wait_event`. -/
structure HandleList (H : Type) where
  handles : List H
  nodup : handles.Nodup
  waitEvent : Option Nat
  handleWait : H → Option Nat

variable {H : Type} [DecidableEq H]

/-- `_prepare_wait_handle(ev, h)`: its result and the wait events after it;
`h` waits on `ev` unless another waiter has it. -/
def prepareWaitHandle (w : H → Option Nat) (ev : Nat) (h : H) : Int × (H → Option Nat) :=
  match w h with
  | some _ => (errAlreadyStarted, w)
  | none => (0, Function.update w h (some ev))

/-- `_finish_wait_handle(h)`. -/
def finishWaitHandle (w : H → Option Nat) (h : H) : H → Option Nat := Function.update w h none

/-- `_hlist_finish_wait_locked(hlist, last)`: `_finish_wait_handle` on the
handles from the head up to `last`, or on all of them for `NULL`. -/
def hlistFinishWaitLocked (last : Option H) : List H → (H → Option Nat) → H → Option Nat
  | [], w => w
  | h :: hs, w =>
    if last = some h then finishWaitHandle w h
    else hlistFinishWaitLocked last hs (finishWaitHandle w h)

omit [DecidableEq H] in
theorem nodup_append_singleton {l : List H} {h : H} (hn : l.Nodup) (hm : h ∉ l) :
    (l ++ [h]).Nodup :=
  hn.append (List.nodup_singleton h) (by simpa using hm)

/-- `handle_list_add(hlist, h)`: `h` at the tail, prepared for the list's
waiter if there is one (the result of `_prepare_wait_handle` is not
checked); `none` for its `DEBUG_ASSERT` that `h` is on no list. -/
def handleListAdd (hl : HandleList H) (h : H) : Option (HandleList H) :=
  if hm : h ∈ hl.handles then none
  else some ⟨hl.handles ++ [h], nodup_append_singleton hl.nodup hm, hl.waitEvent,
    match hl.waitEvent with
    | some ev => (prepareWaitHandle hl.handleWait ev h).2
    | none => hl.handleWait⟩

/-- `handle_list_del(hlist, h)`: `h` unlinked, and its wait finished if the
list has a waiter; `none` for its `DEBUG_ASSERT` that `h` is on the list. -/
def handleListDel (hl : HandleList H) (h : H) : Option (HandleList H) :=
  if h ∈ hl.handles then
    some ⟨hl.handles.erase h, hl.nodup.erase h, hl.waitEvent,
      if hl.waitEvent.isSome then finishWaitHandle hl.handleWait h else hl.handleWait⟩
  else none

/-- Where a pass of `_hlist_do_poll_locked` stands: its `ret` (`none` while
the loop has not set it), the ready handle and its event (`*handle_ptr`,
`*event_ptr`), the last handle prepared, and the wait events. -/
structure PollPass (H : Type) where
  ret : Option Int
  ready : Option (H × UInt32)
  lastPrep : Option H
  handleWait : H → Option Nat

/-- The loop of `_hlist_do_poll_locked` over the handles `hs`, `poll h` being
what `h->ops->poll` returns: prepare (when asked) and poll each handle until
one is ready or a prepare fails. -/
def pollLoop (ev : Nat) (poll : H → UInt32) (prepare : Bool) : List H → PollPass H → PollPass H
  | [], p => p
  | h :: hs, p =>
    if prepare then
      let r := prepareWaitHandle p.handleWait ev h
      if r.1 ≠ 0 then { p with ret := some r.1, handleWait := r.2 }
      else
        let p := { p with ret := some r.1, lastPrep := some h, handleWait := r.2 }
        if poll h ≠ 0 then { p with ret := some 1, ready := some (h, poll h) }
        else pollLoop ev poll prepare hs p
    else if poll h ≠ 0 then { p with ret := some 1, ready := some (h, poll h) }
    else pollLoop ev poll prepare hs p

/-- `_hlist_do_poll_locked` on the list `handles` with wait events `w`, its
`ret` holding `stale` until set: the result, the ready handle and event, and
the wait events once the prepares of a pass that stopped early are undone. -/
def hlistDoPollLocked (handles : List H) (w : H → Option Nat) (ev : Nat) (poll : H → UInt32)
    (prepare : Bool) (stale : Int) : Int × Option (H × UInt32) × (H → Option Nat) :=
  if handles = [] then (errNotFound, none, w)
  else
    let p := pollLoop ev poll prepare handles ⟨none, none, none, w⟩
    let ret := p.ret.getD stale
    if ret ≠ 0 ∧ prepare = true ∧ p.lastPrep.isSome then
      (ret, p.ready, hlistFinishWaitLocked p.lastPrep handles p.handleWait)
    else (ret, p.ready, p.handleWait)

/-- A change another thread makes to the list while the waiter sleeps. -/
inductive Change (H : Type)
  | add (h : H)
  | del (h : H)

/-- The changes made while the lock is dropped, in order. -/
def applyChanges (hl : HandleList H) : List (Change H) → Option (HandleList H)
  | [] => some hl
  | .add h :: cs => (handleListAdd hl h).bind fun hl => applyChanges hl cs
  | .del h :: cs => (handleListDel hl h).bind fun hl => applyChanges hl cs

/-- One sleep of the waiter: the changes other threads make meanwhile, what
`__do_wait` returns, what each handle's `poll` returns in the pass after it,
and what that pass's unset `ret` holds. -/
structure Round (H : Type) where
  changes : List (Change H)
  wake : Int
  poll : H → UInt32
  stale : Int

/-- What `handle_list_wait` returned: `ret`, `*handle_ptr`, `*event_ptr`, the
`finalize_event` calls and references it made, and the list after it. -/
structure WaitResult (H : Type) where
  ret : Int
  handle : Option H
  event : UInt32
  finalized : List (H × UInt32)
  increfs : List H
  hlist : HandleList H

/-- How a call of `handle_list_wait` ends: returned; still sleeping or polling
when the rounds given run out; `ret == 1` with `*handle_ptr` still `NULL`,
whose `ops` it reads; or a failed `DEBUG_ASSERT`. -/
inductive WaitOutcome (H : Type)
  | returned (r : WaitResult H)
  | waiting (hl : HandleList H)
  | nullHandle
  | assertFailed

/-- The list with its head moved after `h`: the handles after `h` first. -/
def rotateAfter (l : List H) (h : H) : List H := l.drop (l.idxOf h + 1) ++ l.take (l.idxOf h + 1)

theorem rotateAfter_perm (l : List H) (h : H) : (rotateAfter l h).Perm l :=
  calc (rotateAfter l h).Perm (l.take (l.idxOf h + 1) ++ l.drop (l.idxOf h + 1)) :=
        List.perm_append_comm
    _ = l := List.take_append_drop _ l

theorem nodup_rotateAfter {l : List H} (hn : l.Nodup) (h : H) : (rotateAfter l h).Nodup :=
  (rotateAfter_perm l h).nodup_iff.mpr hn

/-- The end of `handle_list_wait` once polling is done: on `ret == 1`
`finalize_event`, a reference, and the list head moved after the handle;
then `hlist->wait_event = NULL`. -/
def waitEnd (hl : HandleList H) (ret : Int) (ready : Option (H × UInt32)) : WaitOutcome H :=
  if ret = 1 then
    match ready with
    | none => .nullHandle
    | some (h, e) => .returned ⟨0, some h, e, [(h, e)], [h],
        ⟨rotateAfter hl.handles h, nodup_rotateAfter hl.nodup h, none, hl.handleWait⟩⟩
  else .returned ⟨ret, ready.map Prod.fst, (ready.map Prod.snd).getD 0, [], [],
    { hl with waitEvent := none }⟩

/-- `_hlist_finish_wait_locked(hlist, NULL)` on a list. -/
def HandleList.finishAll (hl : HandleList H) : HandleList H :=
  { hl with handleWait := hlistFinishWaitLocked none hl.handles hl.handleWait }

/-- The `do ... while (!ret)` loop of `handle_list_wait`, one round per sleep,
then `_hlist_finish_wait_locked(hlist, NULL)` and the end of the call. -/
def waitLoop (ev : Nat) : List (Round H) → HandleList H → WaitOutcome H
  | [], hl => .waiting hl
  | r :: rs, hl =>
    match applyChanges hl r.changes with
    | none => .assertFailed
    | some hl =>
      if r.wake < 0 then waitEnd hl.finishAll r.wake none
      else
        let q := hlistDoPollLocked hl.handles hl.handleWait ev r.poll false r.stale
        let hl := { hl with handleWait := q.2.2 }
        if q.1 = 0 then waitLoop ev rs hl
        else waitEnd hl.finishAll q.1 q.2.1

/-- `handle_list_wait(hlist, &h, &event, timeout)` with the caller's stack
event `ev`, the `poll` results of its first pass, that pass's unset `ret`,
and the rounds of sleeping. -/
def handleListWait (hl : HandleList H) (ev : Nat) (poll : H → UInt32) (stale : Int)
    (rounds : List (Round H)) : WaitOutcome H :=
  if hl.waitEvent ≠ none then .assertFailed
  else
    let q := hlistDoPollLocked hl.handles hl.handleWait ev poll true stale
    let hl := { hl with waitEvent := some ev, handleWait := q.2.2 }
    if q.1 < 0 then .returned ⟨q.1, none, 0, [], [], { hl with waitEvent := none }⟩
    else if q.1 = 0 then waitLoop ev rounds hl
    else waitEnd hl q.1 q.2.1

/-! ## Wait events -/

section Events

theorem hlistFinishWaitLocked_none (l : List H) (w : H → Option Nat) (h : H) :
    hlistFinishWaitLocked none l w h = if h ∈ l then none else w h := by
  induction l generalizing w with
  | nil => simp [hlistFinishWaitLocked]
  | cons x xs ih =>
    rw [hlistFinishWaitLocked, if_neg (by simp), ih]
    by_cases hx : h = x
    · simp [finishWaitHandle, hx]
    · simp [finishWaitHandle, hx]

/-- `_hlist_finish_wait_locked` up to `last`, on a list where `last` stands
once: the handles up to it stop waiting, the others keep their events. -/
theorem hlistFinishWaitLocked_upTo (a rest : List H) (last : H) (w : H → Option Nat)
    (hn : (a ++ last :: rest).Nodup) (h : H) :
    hlistFinishWaitLocked (some last) (a ++ last :: rest) w h =
      if h ∈ a ++ [last] then none else w h := by
  induction a generalizing w with
  | nil =>
    by_cases hx : h = last
    · simp [hlistFinishWaitLocked, finishWaitHandle, hx]
    · simp [hlistFinishWaitLocked, finishWaitHandle, hx]
  | cons x a ih =>
    have hx : last ≠ x := by
      intro heq
      subst heq
      simp at hn
    rw [List.cons_append, hlistFinishWaitLocked, if_neg (by simpa using hx),
      ih _ (List.nodup_cons.mp hn).2]
    by_cases hhx : h = x
    · subst hhx
      simp [finishWaitHandle]
    · simp [finishWaitHandle, hhx]

end Events

/-! ## Passes of `_hlist_do_poll_locked` -/

section Passes

variable (ev : Nat) (poll : H → UInt32)

/-- Without `prepare` a pass returns at the first ready handle and touches
nothing else. -/
theorem pollLoop_noPrepare (hs : List H) (p : PollPass H) :
    pollLoop ev poll false hs p =
      match hs.find? (fun h => poll h ≠ 0) with
      | none => p
      | some h => { p with ret := some 1, ready := some (h, poll h) } := by
  induction hs with
  | nil => rfl
  | cons h hs ih =>
    by_cases hp : poll h = 0
    · simp [pollLoop, hp, ih]
    · simp [pollLoop, hp]

/-- A pass without `prepare` on a non-empty list: the first ready handle, or
the unset `ret`. -/
theorem hlistDoPollLocked_noPrepare (l : List H) (w : H → Option Nat) (stale : Int)
    (hne : l ≠ []) :
    hlistDoPollLocked l w ev poll false stale =
      match l.find? (fun h => poll h ≠ 0) with
      | none => (stale, none, w)
      | some h => (1, some (h, poll h), w) := by
  rw [hlistDoPollLocked, if_neg hne, pollLoop_noPrepare]
  cases l.find? (fun h => poll h ≠ 0) <;> simp

/-- How a prepare pass stands after preparing `pre` (each free in `w₀`): those
handles wait on `ev`, the others keep their events, and the last of them is
`last_prep`. -/
structure Prepared (w₀ : H → Option Nat) (pre : List H) (p : PollPass H) : Prop where
  free : ∀ h ∈ pre, w₀ h = none
  waits : p.handleWait = fun h => if h ∈ pre then some ev else w₀ h
  last : p.lastPrep = pre.getLast?

theorem Prepared.congr {w₀ : H → Option Nat} {pre pre' : List H} {p p' : PollPass H}
    (h : Prepared ev w₀ pre p) (hpre : pre' = pre) (hw : p'.handleWait = p.handleWait)
    (hl : p'.lastPrep = p.lastPrep) : Prepared ev w₀ pre' p' := by
  subst hpre
  exact ⟨h.free, by rw [hw, h.waits], by rw [hl, h.last]⟩

/-- A prepare pass prepares a prefix of the list: it stops ready at the last
handle prepared, at a handle another waiter has, or at the end of the list. -/
theorem pollLoop_prepare (w₀ : H → Option Nat) :
    ∀ (hs pre : List H) (p p' : PollPass H), (pre ++ hs).Nodup → Prepared ev w₀ pre p →
    p.ready = none → p.ret = (if pre = [] then none else some 0) →
    pollLoop ev poll true hs p = p' →
    ∃ pre₂ rest, hs = pre₂ ++ rest ∧ Prepared ev w₀ (pre ++ pre₂) p' ∧
      ((p'.ret = some 1 ∧ ∃ h, p'.ready = some (h, poll h) ∧ (pre ++ pre₂).getLast? = some h ∧
          poll h ≠ 0) ∨
        (p'.ret = some errAlreadyStarted ∧ p'.ready = none ∧ ∃ h ∈ rest, w₀ h ≠ none) ∨
        (p'.ret = (if pre ++ pre₂ = [] then none else some 0) ∧ p'.ready = none ∧ rest = [])) := by
  intro hs
  induction hs with
  | nil =>
    intro pre p p' _ hprep hready hret hp'
    have hpp : p' = p := by rw [← hp']; rfl
    subst hpp
    exact ⟨[], [], rfl, hprep.congr ev (List.append_nil pre) rfl rfl,
      .inr (.inr ⟨by simpa using hret, hready, rfl⟩)⟩
  | cons h hs ih =>
    intro pre p p' hn hprep hready hret hp'
    have hh : h ∉ pre := by
      intro hm
      have := List.nodup_append.mp hn
      exact this.2.2 h hm h (by simp) rfl
    have hw : p.handleWait h = w₀ h := by rw [hprep.waits]; simp [hh]
    cases hfree : w₀ h with
    | some e =>
      -- another waiter has `h`: the pass stops with `ERR_ALREADY_STARTED`
      have hstop : pollLoop ev poll true (h :: hs) p =
          { p with ret := some errAlreadyStarted } := by
        simp [pollLoop, prepareWaitHandle, hw, hfree, errAlreadyStarted]
      rw [hstop] at hp'
      subst hp'
      exact ⟨[], h :: hs, rfl, hprep.congr ev (List.append_nil pre) rfl rfl,
        .inr (.inl ⟨rfl, hready, h, by simp, by simp [hfree]⟩)⟩
    | none =>
      -- `h` is prepared, then polled
      let p₁ : PollPass H :=
        { p with ret := some 0, lastPrep := some h, handleWait := Function.update p.handleWait h (some ev) }
      have hprep₁ : Prepared ev w₀ (pre ++ [h]) p₁ := by
        refine ⟨fun x hx => ?_, ?_, by simp [p₁]⟩
        · rcases List.mem_append.mp hx with hx | hx
          · exact hprep.free x hx
          · rw [List.mem_singleton.mp hx]; exact hfree
        · funext x
          by_cases hxh : x = h
          · subst hxh; simp [p₁]
          · simp [p₁, hprep.waits, hxh]
      have hstep : pollLoop ev poll true (h :: hs) p =
          if poll h ≠ 0 then { p₁ with ret := some 1, ready := some (h, poll h) }
          else pollLoop ev poll true hs p₁ := by
        simp [pollLoop, prepareWaitHandle, hw, hfree, p₁]
      by_cases hpoll : poll h ≠ 0
      · rw [hstep, if_pos hpoll] at hp'
        subst hp'
        exact ⟨[h], hs, rfl, ⟨hprep₁.free, hprep₁.waits, hprep₁.last⟩,
          .inl ⟨rfl, h, rfl, by simp, hpoll⟩⟩
      · rw [hstep, if_neg hpoll] at hp'
        obtain ⟨pre₂, rest, rfl, hprep₂, hend⟩ :=
          ih (pre ++ [h]) p₁ p' (by simpa using hn) hprep₁ hready (by simp [p₁]) hp'
        refine ⟨h :: pre₂, rest, rfl, by simpa using hprep₂, ?_⟩
        simpa using hend

/-- The undo of a prepare pass that stopped early: every handle it prepared
gets back its old (empty) event. -/
theorem Prepared.undo {w₀ : H → Option Nat} {pre rest : List H} {p : PollPass H}
    (hprep : Prepared ev w₀ pre p) (hn : (pre ++ rest).Nodup) (hne : pre ≠ []) :
    hlistFinishWaitLocked p.lastPrep (pre ++ rest) p.handleWait = w₀ := by
  obtain ⟨a, last, hpre⟩ := (List.eq_nil_or_concat pre).resolve_left hne
  rw [List.concat_eq_append] at hpre
  subst hpre
  rw [hprep.last]
  funext x
  rw [List.getLast?_concat, List.append_assoc, List.singleton_append,
    hlistFinishWaitLocked_upTo a rest last _ (by simpa using hn), hprep.waits]
  by_cases hx : x ∈ a ++ [last]
  · rw [if_pos hx, hprep.free x hx]
  · simp only [if_neg hx]

/-- The first pass of `handle_list_wait`, with `prepare`, on a non-empty list
whose handles wait on nothing of `ev`: ready, with every prepare undone; a
handle of another waiter, with every prepare undone; or nothing ready, with
every handle waiting on `ev`. -/
theorem hlistDoPollLocked_prepare (l : List H) (hn : l.Nodup) (w₀ : H → Option Nat)
    (stale : Int) (hne : l ≠ []) {ret : Int} {ready : Option (H × UInt32)}
    {w : H → Option Nat} (hq : hlistDoPollLocked l w₀ ev poll true stale = (ret, ready, w)) :
    (ret = 1 ∧ ∃ h, ready = some (h, poll h) ∧ h ∈ l ∧ poll h ≠ 0 ∧ w = w₀) ∨
      (ret = errAlreadyStarted ∧ ready = none ∧ w = w₀ ∧ ∃ h ∈ l, w₀ h ≠ none) ∨
      (ret = 0 ∧ ready = none ∧ w = fun h => if h ∈ l then some ev else w₀ h) := by
  rw [hlistDoPollLocked, if_neg hne] at hq
  dsimp only at hq
  set P := pollLoop ev poll true l ⟨none, none, none, w₀⟩ with hP
  obtain ⟨pre, rest, hl, hprep, hend⟩ :=
    pollLoop_prepare ev poll w₀ l [] ⟨none, none, none, w₀⟩ P (by simpa using hn)
      ⟨by simp, by simp, rfl⟩ rfl rfl hP.symm
  simp only [List.nil_append] at hprep hend
  rcases hend with ⟨hret, h, hready, hlast, hpoll⟩ | ⟨hret, hready, hbusy⟩ | ⟨hret, hready, rfl⟩
  · -- ready: the prepares up to it are undone
    have hpre : pre ≠ [] := by intro h0; simp [h0] at hlast
    rw [hret, Option.getD_some, if_pos ⟨by decide, rfl, by rw [hprep.last, hlast]; rfl⟩,
      Prod.mk.injEq, Prod.mk.injEq, hl, hprep.undo ev (hl ▸ hn) hpre] at hq
    obtain ⟨rfl, rfl, rfl⟩ := hq
    refine .inl ⟨rfl, h, hready, ?_, hpoll, rfl⟩
    rw [hl]
    exact List.mem_append_left _ (List.mem_of_getLast? hlast)
  · -- another waiter: the prepares before it are undone
    have hbusy' : ∃ h ∈ l, w₀ h ≠ none := by
      obtain ⟨h, hm, hh⟩ := hbusy
      exact ⟨h, by rw [hl]; exact List.mem_append_right _ hm, hh⟩
    rw [hret, Option.getD_some] at hq
    by_cases hpre : pre = []
    · subst hpre
      have hlast : P.lastPrep = none := hprep.last
      have hw : P.handleWait = w₀ := by rw [hprep.waits]; simp
      rw [if_neg (by rw [hlast]; simp), Prod.mk.injEq, Prod.mk.injEq, hw] at hq
      obtain ⟨rfl, rfl, rfl⟩ := hq
      exact .inr (.inl ⟨rfl, hready, rfl, hbusy'⟩)
    · rw [if_pos ⟨by decide, rfl, by rw [hprep.last]; simpa using hpre⟩, Prod.mk.injEq,
        Prod.mk.injEq, hl, hprep.undo ev (hl ▸ hn) hpre] at hq
      obtain ⟨rfl, rfl, rfl⟩ := hq
      exact .inr (.inl ⟨rfl, hready, rfl, hbusy'⟩)
  · -- nothing ready: every handle waits on `ev`
    rw [List.append_nil] at hl
    subst hl
    rw [hret, if_neg hne, Option.getD_some, if_neg (by simp), Prod.mk.injEq, Prod.mk.injEq] at hq
    obtain ⟨rfl, rfl, rfl⟩ := hq
    exact .inr (.inr ⟨rfl, hready, by rw [hprep.waits]⟩)

/-- The handle a pass reports ready is one of the list's. -/
theorem hlistDoPollLocked_ready_mem (l : List H) (hn : l.Nodup) (w : H → Option Nat)
    (prepare : Bool) (stale : Int) {x : H} {e : UInt32}
    (hx : (hlistDoPollLocked l w ev poll prepare stale).2.1 = some (x, e)) : x ∈ l := by
  by_cases hne : l = []
  · simp [hlistDoPollLocked, hne] at hx
  · cases prepare with
    | false =>
      rw [hlistDoPollLocked_noPrepare ev poll l w stale hne] at hx
      cases hfind : l.find? (fun h => poll h ≠ 0) with
      | none =>
        rw [hfind] at hx
        cases hx
      | some h =>
        rw [hfind] at hx
        cases hx
        exact List.mem_of_find?_eq_some hfind
    | true =>
      obtain ⟨ret, ready, w', hq⟩ : ∃ ret ready w',
          hlistDoPollLocked l w ev poll true stale = (ret, ready, w') := ⟨_, _, _, rfl⟩
      rw [hq] at hx
      rcases hlistDoPollLocked_prepare ev poll l hn w stale hne hq with
        ⟨-, h, hready, hm, -⟩ | ⟨-, hready, -⟩ | ⟨-, hready, -⟩
      · rw [hready] at hx
        cases hx
        exact hm
      · cases hx.symm.trans hready
      · cases hx.symm.trans hready

end Passes

/-! ## The waiter's list -/

section Waiting

theorem handleListAdd_eq {hl hl' : HandleList H} {h : H} (hadd : handleListAdd hl h = some hl') :
    h ∉ hl.handles ∧ hl'.handles = hl.handles ++ [h] ∧ hl'.waitEvent = hl.waitEvent ∧
      hl'.handleWait = match hl.waitEvent with
        | some ev => (prepareWaitHandle hl.handleWait ev h).2
        | none => hl.handleWait := by
  unfold handleListAdd at hadd
  by_cases hm : h ∈ hl.handles
  · rw [dif_pos hm] at hadd
    cases hadd
  · rw [dif_neg hm] at hadd
    cases hadd
    exact ⟨hm, rfl, rfl, rfl⟩

theorem handleListDel_eq {hl hl' : HandleList H} {h : H} (hdel : handleListDel hl h = some hl') :
    h ∈ hl.handles ∧ hl'.handles = hl.handles.erase h ∧ hl'.waitEvent = hl.waitEvent ∧
      hl'.handleWait =
        if hl.waitEvent.isSome then finishWaitHandle hl.handleWait h else hl.handleWait := by
  unfold handleListDel at hdel
  by_cases hm : h ∈ hl.handles
  · rw [if_pos hm] at hdel
    cases hdel
    exact ⟨hm, rfl, rfl, rfl⟩
  · rw [if_neg hm] at hdel
    cases hdel

theorem prepareWaitHandle_apply (w : H → Option Nat) (ev : Nat) (h x : H) :
    (prepareWaitHandle w ev h).2 x = if x = h ∧ w h = none then some ev else w x := by
  unfold prepareWaitHandle
  cases hw : w h with
  | some e =>
    by_cases hx : x = h
    · subst hx; simp [hw]
    · simp [hx]
  | none =>
    by_cases hx : x = h
    · subst hx; simp
    · simp [hx]

variable (ev : Nat)

/-- While `handle_list_wait` sleeps: the list's waiter is `ev`, and every
handle waiting on `ev` is on the list. -/
structure Waiting (hl : HandleList H) : Prop where
  event : hl.waitEvent = some ev
  listed : ∀ h, hl.handleWait h = some ev → h ∈ hl.handles

/-- A handle another thread adds is prepared for the waiter, and is on the list. -/
theorem Waiting.add {hl hl' : HandleList H} {h : H} (hw : Waiting ev hl)
    (hadd : handleListAdd hl h = some hl') : Waiting ev hl' := by
  obtain ⟨_, hhs, hev, hwait⟩ := handleListAdd_eq hadd
  refine ⟨by rw [hev, hw.event], fun x hx => ?_⟩
  rw [hwait, hw.event] at hx
  dsimp only at hx
  rw [prepareWaitHandle_apply] at hx
  rw [hhs]
  by_cases hxh : x = h ∧ hl.handleWait h = none
  · rw [hxh.1]
    exact List.mem_append_right _ (List.mem_singleton_self h)
  · rw [if_neg hxh] at hx
    exact List.mem_append_left _ (hw.listed x hx)

/-- A handle another thread deletes stops waiting. -/
theorem Waiting.del {hl hl' : HandleList H} {h : H} (hw : Waiting ev hl)
    (hdel : handleListDel hl h = some hl') : Waiting ev hl' := by
  obtain ⟨_, hhs, hev, hwait⟩ := handleListDel_eq hdel
  refine ⟨by rw [hev, hw.event], fun x hx => ?_⟩
  rw [hwait, hw.event, Option.isSome_some, if_pos rfl, finishWaitHandle] at hx
  by_cases hxh : x = h
  · subst hxh
    simp at hx
  · rw [Function.update_of_ne hxh] at hx
    rw [hhs]
    exact (List.mem_erase_of_ne hxh).mpr (hw.listed x hx)

theorem Waiting.applyChanges {hl hl' : HandleList H} {cs : List (Change H)} (hw : Waiting ev hl)
    (h : applyChanges hl cs = some hl') : Waiting ev hl' := by
  induction cs generalizing hl with
  | nil =>
    cases h
    exact hw
  | cons c cs ih =>
    cases c with
    | add x =>
      obtain ⟨hl₁, h₁, h₂⟩ := Option.bind_eq_some_iff.mp h
      exact ih (hw.add ev h₁) h₂
    | del x =>
      obtain ⟨hl₁, h₁, h₂⟩ := Option.bind_eq_some_iff.mp h
      exact ih (hw.del ev h₁) h₂

/-- At the end of the wait every handle of the list stops waiting, so no
handle is left on the caller's event. -/
theorem Waiting.finishAll {hl : HandleList H} (hw : Waiting ev hl) (h : H) :
    hl.finishAll.handleWait h ≠ some ev := by
  show hlistFinishWaitLocked none hl.handles hl.handleWait h ≠ some ev
  rw [hlistFinishWaitLocked_none]
  by_cases hm : h ∈ hl.handles
  · rw [if_pos hm]
    simp
  · rw [if_neg hm]
    exact fun hx => hm (hw.listed h hx)

end Waiting

/-! ## The end of the call -/

section End

variable (ev : Nat)

/-- The handles after the changes `cs` other threads make: `handle_list_add`
puts a handle at the tail, `handle_list_del` unlinks it. -/
def changeHandles : List H → List (Change H) → List H
  | l, [] => l
  | l, .add h :: cs => changeHandles (l ++ [h]) cs
  | l, .del h :: cs => changeHandles (l.erase h) cs

/-- The handles the pass after the rounds `rs` polls, from the handles `l`. -/
def passHandles (l : List H) (rs : List (Round H)) : List H :=
  rs.foldl (fun l rd => changeHandles l rd.changes) l

/-- The changes of a round leave the handles `changeHandles` says. -/
theorem applyChanges_handles {hl hl' : HandleList H} {cs : List (Change H)}
    (h : applyChanges hl cs = some hl') : hl'.handles = changeHandles hl.handles cs := by
  induction cs generalizing hl with
  | nil =>
    cases h
    rfl
  | cons c cs ih =>
    cases c with
    | add x =>
      obtain ⟨hl₁, h₁, h₂⟩ := Option.bind_eq_some_iff.mp h
      rw [ih h₂, (handleListAdd_eq h₁).2.1]
      rfl
    | del x =>
      obtain ⟨hl₁, h₁, h₂⟩ := Option.bind_eq_some_iff.mp h
      rw [ih h₂, (handleListDel_eq h₁).2.1]
      rfl

/-- The end of `handle_list_wait` for the caller's event `ev`, `l` being the
handles the pass that ended the call polled: the list left with no waiter
and no handle on `ev`; with `NO_ERROR` a handle of `l` with a nonzero event,
finalised and referenced once, and the list now `l` rotated so the handles
after it come first; with an error no handle, no event, nothing finalised or
referenced. -/
structure WaitResult.Allowed (l : List H) (r : WaitResult H) : Prop where
  detached : r.hlist.waitEvent = none
  released : ∀ h, r.hlist.handleWait h ≠ some ev
  found : r.ret = 0 → ∃ h pre post, r.handle = some h ∧ r.event ≠ 0 ∧
    r.finalized = [(h, r.event)] ∧ r.increfs = [h] ∧ l = pre ++ h :: post ∧
    r.hlist.handles = post ++ pre ++ [h]
  failed : r.ret ≠ 0 → r.handle = none ∧ r.event = 0 ∧ r.finalized = [] ∧ r.increfs = []

/-- Where a result of the wait loop comes from, for the handles `l₀` it starts
with, the rounds `rs` and the handles `l` of the pass that ended it: a handle
ready in the pass after round `k`, which polled the handles left by the
changes of rounds `0` to `k`; an emptied list; a failed sleep; or an unset
`ret`. -/
def WaitResult.LoopFrom (l₀ : List H) (rs : List (Round H)) (l : List H) (r : WaitResult H) :
    Prop :=
  (r.ret = 0 ∧ ∃ h k rd, r.handle = some h ∧ rs[k]? = some rd ∧
    l = passHandles l₀ (rs.take (k + 1)) ∧ r.event = rd.poll h) ∨
    r.ret = errNotFound ∨ (∃ rd ∈ rs, r.ret = rd.wake ∧ rd.wake < 0) ∨ (∃ rd ∈ rs, r.ret = rd.stale)

/-- Where a result of `handle_list_wait` comes from, for the handles `l₀` and
the `poll` results of its first pass: a handle ready in that pass, which
polled `l₀`; an empty list or a handle of another waiter; or the wait loop. -/
def WaitResult.From (l₀ : List H) (poll : H → UInt32) (rs : List (Round H)) (l : List H)
    (r : WaitResult H) : Prop :=
  (r.ret = 0 ∧ ∃ h, r.handle = some h ∧ l = l₀ ∧ r.event = poll h) ∨
    r.ret = errNotFound ∨ r.ret = errAlreadyStarted ∨ r.LoopFrom l₀ rs l

/-- A result of the loop after the first round is one of the loop from that
round on. -/
theorem WaitResult.LoopFrom.cons {l₀ l : List H} {rs : List (Round H)} {r : WaitResult H}
    (rd : Round H) (h : r.LoopFrom (changeHandles l₀ rd.changes) rs l) :
    r.LoopFrom l₀ (rd :: rs) l := by
  rcases h with ⟨h0, x, k, rd', hx, hk, hl, he⟩ | h | ⟨rd', hrd, hw⟩ | ⟨rd', hrd, hs⟩
  · exact .inl ⟨h0, x, k + 1, rd', hx, hk, hl, he⟩
  · exact .inr (.inl h)
  · exact .inr (.inr (.inl ⟨rd', List.mem_cons_of_mem _ hrd, hw⟩))
  · exact .inr (.inr (.inr ⟨rd', List.mem_cons_of_mem _ hrd, hs⟩))

theorem rotateAfter_of_mem {l : List H} {h : H} (hn : l.Nodup) (hm : h ∈ l) :
    ∃ pre post, l = pre ++ h :: post ∧ rotateAfter l h = post ++ pre ++ [h] := by
  obtain ⟨pre, post, rfl⟩ := List.append_of_mem hm
  have hh : h ∉ pre := by
    intro hp
    have := (List.nodup_append.mp hn).2.2 h hp h (by simp)
    exact this rfl
  refine ⟨pre, post, rfl, ?_⟩
  have hidx : (pre ++ h :: post).idxOf h = pre.length := by
    rw [List.idxOf_append_of_notMem hh, List.idxOf_cons_self, Nat.add_zero]
  rw [rotateAfter, hidx, List.drop_append, List.take_append,
    List.drop_eq_nil_of_le (by omega), List.take_of_length_le (by omega)]
  simp

/-- A handle found ready ends the call with `NO_ERROR`. -/
theorem waitEnd_ready {hl : HandleList H} {h : H} {e : UInt32}
    (hrel : ∀ x, hl.handleWait x ≠ some ev) (hm : h ∈ hl.handles) (he : e ≠ 0) :
    ∃ r, waitEnd hl 1 (some (h, e)) = .returned r ∧ r.Allowed ev hl.handles ∧ r.ret = 0 ∧
      r.handle = some h ∧ r.event = e := by
  obtain ⟨pre, post, hsplit, hrot⟩ := rotateAfter_of_mem hl.nodup hm
  refine ⟨_, rfl, ⟨rfl, hrel, fun _ => ⟨h, pre, post, rfl, he, rfl, rfl, hsplit, hrot⟩,
    fun h0 => ?_⟩, rfl, rfl, rfl⟩
  exact absurd rfl h0

/-- An error ends the call with no handle. -/
theorem waitEnd_error {hl : HandleList H} (ret : Int) (l : List H)
    (hrel : ∀ x, hl.handleWait x ≠ some ev) (h0 : ret ≠ 0) (h1 : ret ≠ 1) :
    ∃ r, waitEnd hl ret none = .returned r ∧ r.Allowed ev l ∧ r.ret = ret ∧ r.handle = none := by
  refine ⟨⟨ret, none, 0, [], [], { hl with waitEvent := none }⟩, by simp [waitEnd, h1],
    ⟨rfl, hrel, fun h => absurd h h0, fun _ => ⟨rfl, rfl, rfl, rfl⟩⟩, rfl, rfl⟩

end End

/-! ## `handle_list_wait` -/

section Wait

variable (ev : Nat)

/-- A pass after a wake-up, on the handles left by the round's changes from
`l₀`: it ends the call as `Allowed` describes, or the loop goes on with the
list as it was. -/
theorem waitPass_spec (l₀ : List H) (rd : Round H) (rs : List (Round H))
    {hl : HandleList H} (hw : Waiting ev hl) (hl₀ : hl.handles = changeHandles l₀ rd.changes) :
    let q := hlistDoPollLocked hl.handles hl.handleWait ev rd.poll false rd.stale
    (q.1 = 0 ∧ q.2.2 = hl.handleWait) ∨
      (q.1 ≠ 0 ∧ ((∀ r, waitEnd { hl with handleWait := q.2.2 }.finishAll q.1 q.2.1 = .returned r →
          ∃ l, r.Allowed ev l ∧ r.LoopFrom l₀ (rd :: rs) l) ∧
        (waitEnd { hl with handleWait := q.2.2 }.finishAll q.1 q.2.1 = .nullHandle →
          ∃ rd' ∈ rd :: rs, rd'.stale = 1))) := by
  intro q
  have hrel : ∀ x, ({ hl with handleWait := hl.handleWait } : HandleList H).finishAll.handleWait x ≠
      some ev := hw.finishAll ev
  by_cases hne : hl.handles = []
  · -- the list emptied while the waiter slept: `ERR_NOT_FOUND`
    have hq : q = (errNotFound, none, hl.handleWait) := by simp [q, hlistDoPollLocked, hne]
    rw [hq]
    obtain ⟨r, hr, hok, hret, -⟩ :=
      waitEnd_error ev errNotFound hl.handles hrel (by decide) (by decide)
    refine .inr ⟨show errNotFound ≠ 0 by decide, fun r' hr' => ?_, fun hn => ?_⟩
    · rw [hr] at hr'
      cases hr'
      exact ⟨hl.handles, hok, .inr (.inl hret)⟩
    · rw [hr] at hn
      cases hn
  · have hq := hlistDoPollLocked_noPrepare ev rd.poll hl.handles hl.handleWait rd.stale hne
    cases hfind : hl.handles.find? (fun h => rd.poll h ≠ 0) with
    | none =>
      -- no handle ready: the pass returns its unset `ret`
      rw [hfind] at hq
      change q = _ at hq
      rw [hq]
      by_cases h0 : rd.stale = 0
      · exact .inl ⟨h0, rfl⟩
      · refine .inr ⟨h0, ?_⟩
        by_cases h1 : rd.stale = 1
        · refine ⟨fun r hr => ?_, fun _ => ⟨rd, List.mem_cons_self, h1⟩⟩
          simp [waitEnd, h1] at hr
        · obtain ⟨r, hr, hok, hret, -⟩ := waitEnd_error ev rd.stale hl.handles hrel h0 h1
          refine ⟨fun r' hr' => ?_, fun hn => ?_⟩
          · rw [hr] at hr'
            cases hr'
            exact ⟨hl.handles, hok, .inr (.inr (.inr ⟨rd, List.mem_cons_self, hret⟩))⟩
          · rw [hr] at hn
            cases hn
    | some h =>
      -- a ready handle: `NO_ERROR`
      rw [hfind] at hq
      change q = _ at hq
      rw [hq]
      obtain ⟨hm, hpoll⟩ : h ∈ hl.handles ∧ rd.poll h ≠ 0 := by
        have := List.find?_some hfind
        exact ⟨List.mem_of_find?_eq_some hfind, by simpa using this⟩
      obtain ⟨r, hr, hok, hret, hh, he⟩ := waitEnd_ready ev hrel hm hpoll
      refine .inr ⟨show (1 : Int) ≠ 0 by decide, fun r' hr' => ?_, fun hn => ?_⟩
      · rw [hr] at hr'
        cases hr'
        -- the pass after the first round polled the handles its changes left
        exact ⟨hl.handles, hok, .inl ⟨hret, h, 0, rd, hh, rfl, hl₀, he⟩⟩
      · rw [hr] at hn
        cases hn

/-- The wait loop, from a list whose waiter is `ev`, ends as `Allowed`
describes, or with a `NULL` handle after an unset `ret` of `1`.  By
induction on the rounds: each round's changes keep `Waiting`. -/
theorem waitLoop_spec :
    ∀ (rs : List (Round H)) (hl : HandleList H), Waiting ev hl →
    (∀ r, waitLoop ev rs hl = .returned r → ∃ l, r.Allowed ev l ∧ r.LoopFrom hl.handles rs l) ∧
    (waitLoop ev rs hl = .nullHandle → ∃ rd ∈ rs, rd.stale = 1) := by
  intro rs
  induction rs with
  | nil =>
    intro hl _
    exact ⟨(fun r h => by cases h), (fun h => by cases h)⟩
  | cons rd rs ih =>
    intro hl hw
    cases hch : applyChanges hl rd.changes with
    | none =>
      have hend : waitLoop ev (rd :: rs) hl = .assertFailed := by simp [waitLoop, hch]
      rw [hend]
      exact ⟨(fun r h => by cases h), (fun h => by cases h)⟩
    | some hl₁ =>
      have hw₁ := hw.applyChanges ev hch
      have hh₁ := applyChanges_handles hch
      by_cases hwake : rd.wake < 0
      · -- the sleep failed: its error
        have hend : waitLoop ev (rd :: rs) hl = waitEnd hl₁.finishAll rd.wake none := by
          simp [waitLoop, hch, hwake]
        obtain ⟨r, hr, hok, hret, -⟩ :=
          waitEnd_error ev rd.wake hl₁.handles (hw₁.finishAll ev) (by omega) (by omega)
        rw [hend, hr]
        refine ⟨fun r' hr' => ?_, (fun h => by cases h)⟩
        cases hr'
        exact ⟨hl₁.handles, hok, .inr (.inr (.inl ⟨rd, List.mem_cons_self, hret, hwake⟩))⟩
      · have hend : waitLoop ev (rd :: rs) hl =
            let q := hlistDoPollLocked hl₁.handles hl₁.handleWait ev rd.poll false rd.stale
            if q.1 = 0 then waitLoop ev rs { hl₁ with handleWait := q.2.2 }
            else waitEnd { hl₁ with handleWait := q.2.2 }.finishAll q.1 q.2.1 := by
          simp [waitLoop, hch, hwake]
        rw [hend]
        rcases waitPass_spec ev hl.handles rd rs hw₁ hh₁ with ⟨h0, hsame⟩ | ⟨h0, hret, hnull⟩
        · -- nothing ready and an unset `ret` of `0`: the loop goes on
          dsimp only
          rw [if_pos h0, hsame]
          obtain ⟨ihr, ihn⟩ := ih hl₁ hw₁
          refine ⟨fun r hr => ?_, fun hn => ?_⟩
          · obtain ⟨l, hok, hfrom⟩ := ihr r hr
            rw [hh₁] at hfrom
            exact ⟨l, hok, hfrom.cons rd⟩
          · obtain ⟨rd', hrd', hs⟩ := ihn hn
            exact ⟨rd', List.mem_cons_of_mem _ hrd', hs⟩
        · dsimp only
          rw [if_neg h0]
          exact ⟨hret, hnull⟩

/-- `handle_list_wait`, called on a list with no waiter and no handle on its
stack event `ev`, returns as `Allowed` describes for the handles of the pass
that ended it, or reads the event of a `NULL` handle after an unset `ret` of
`1`. -/
theorem handleListWait_spec (hl : HandleList H) (poll : H → UInt32) (stale : Int)
    (rounds : List (Round H)) (hfree : hl.waitEvent = none) (hev : ∀ h, hl.handleWait h ≠ some ev) :
    (∀ r, handleListWait hl ev poll stale rounds = .returned r →
      ∃ l, r.Allowed ev l ∧ r.From hl.handles poll rounds l) ∧
    (handleListWait hl ev poll stale rounds = .nullHandle → ∃ rd ∈ rounds, rd.stale = 1) := by
  have hstart : handleListWait hl ev poll stale rounds =
      let q := hlistDoPollLocked hl.handles hl.handleWait ev poll true stale
      let hl' : HandleList H := { hl with waitEvent := some ev, handleWait := q.2.2 }
      if q.1 < 0 then .returned ⟨q.1, none, 0, [], [], { hl' with waitEvent := none }⟩
      else if q.1 = 0 then waitLoop ev rounds hl'
      else waitEnd hl' q.1 q.2.1 := by
    simp [handleListWait, hfree]
  rw [hstart]
  by_cases hne : hl.handles = []
  · -- an empty list: `ERR_NOT_FOUND`
    have hq : hlistDoPollLocked hl.handles hl.handleWait ev poll true stale =
        (errNotFound, none, hl.handleWait) := by simp [hlistDoPollLocked, hne]
    simp only [hq]
    rw [if_pos (show errNotFound < 0 by decide)]
    refine ⟨fun r hr => ?_, (fun h => by cases h)⟩
    cases hr
    exact ⟨hl.handles, ⟨rfl, hev, fun h => absurd h (show errNotFound ≠ 0 by decide),
      fun _ => ⟨rfl, rfl, rfl, rfl⟩⟩, .inr (.inl rfl)⟩
  · obtain ⟨ret, ready, w, hq⟩ : ∃ ret ready w,
        hlistDoPollLocked hl.handles hl.handleWait ev poll true stale = (ret, ready, w) :=
      ⟨_, _, _, rfl⟩
    simp only [hq]
    rcases hlistDoPollLocked_prepare ev poll hl.handles hl.nodup hl.handleWait stale hne hq with
      ⟨rfl, h, rfl, hm, hpoll, rfl⟩ | ⟨rfl, rfl, rfl, -⟩ | ⟨rfl, rfl, rfl⟩
    · -- ready in the first pass, every prepare undone
      rw [if_neg (show ¬(1 : Int) < 0 by decide), if_neg (show (1 : Int) ≠ 0 by decide)]
      obtain ⟨r, hr, hok, hret, hh, he⟩ :=
        @waitEnd_ready _ _ ev ⟨hl.handles, hl.nodup, some ev, hl.handleWait⟩ _ _ hev hm hpoll
      rw [hr]
      refine ⟨fun r' hr' => ?_, (fun h => by cases h)⟩
      cases hr'
      exact ⟨hl.handles, hok, .inl ⟨hret, h, hh, rfl, he⟩⟩
    · -- another waiter has a handle: `ERR_ALREADY_STARTED`, every prepare undone
      rw [if_pos (show errAlreadyStarted < 0 by decide)]
      refine ⟨fun r hr => ?_, (fun h => by cases h)⟩
      cases hr
      exact ⟨hl.handles, ⟨rfl, hev, fun h => absurd h (show errAlreadyStarted ≠ 0 by decide),
        fun _ => ⟨rfl, rfl, rfl, rfl⟩⟩, .inr (.inr (.inl rfl))⟩
    · -- nothing ready: every handle waits on `ev`, and the loop starts
      rw [if_neg (show ¬(0 : Int) < 0 by decide), if_pos rfl]
      have hw : Waiting ev (⟨hl.handles, hl.nodup, some ev,
          fun h => if h ∈ hl.handles then some ev else hl.handleWait h⟩ : HandleList H) := by
        refine ⟨rfl, fun h hh => ?_⟩
        by_cases hm : h ∈ hl.handles
        · exact hm
        · simp only [if_neg hm] at hh
          exact absurd hh (hev h)
      obtain ⟨hr, hn⟩ := waitLoop_spec ev rounds _ hw
      refine ⟨fun r hr' => ?_, hn⟩
      obtain ⟨l, hok, hfrom⟩ := hr r hr'
      exact ⟨l, hok, .inr (.inr (.inr hfrom))⟩

theorem handleListWait_spec_ready :
    (∀ r, handleListWait (⟨[0], by decide, none, fun _ => none⟩ : HandleList Nat) 7 (fun _ => 1) 0
        [] = .returned r → ∃ l, r.Allowed 7 l ∧ r.From [0] (fun _ => 1) [] l) ∧
      (handleListWait (⟨[0], by decide, none, fun _ => none⟩ : HandleList Nat) 7 (fun _ => 1) 0
        [] = .nullHandle → ∃ rd ∈ ([] : List (Round Nat)), rd.stale = 1) :=
  handleListWait_spec 7 ⟨[0], by decide, none, fun _ => none⟩ (fun _ => 1) 0 [] rfl
    (fun _ => by simp)

end Wait

/-! ## The list through a wait -/

section Keeps

/-- What a call of `handle_list_wait` leaves of a list with handles `l`: the
same handles, in some order, and no waiter; the handle it reports is one of
them. -/
def WaitResult.Keeps (l : List H) (r : WaitResult H) : Prop :=
  r.hlist.handles.Perm l ∧ r.hlist.waitEvent = none ∧ ∀ h, r.handle = some h → h ∈ l

/-- The end of the call moves at most the list's head. -/
theorem waitEnd_keeps {hl : HandleList H} {ret : Int} {ready : Option (H × UInt32)}
    {r : WaitResult H} (hr : waitEnd hl ret ready = .returned r)
    (hready : ∀ x e, ready = some (x, e) → x ∈ hl.handles) : r.Keeps hl.handles := by
  unfold waitEnd at hr
  by_cases h1 : ret = 1
  · rw [if_pos h1] at hr
    rcases ready with _ | ⟨x, e⟩
    · cases hr
    · cases hr
      refine ⟨rotateAfter_perm _ _, rfl, fun h hh => ?_⟩
      cases hh
      exact hready x e rfl
  · rw [if_neg h1] at hr
    cases hr
    refine ⟨List.Perm.refl _, rfl, fun h hh => ?_⟩
    obtain ⟨⟨x, e⟩, hx, rfl⟩ := Option.map_eq_some_iff.mp hh
    exact hready x e hx

variable (ev : Nat)

/-- Sleeps in which no other thread changes the list keep its handles, up to
their order (`Keeps`). -/
theorem waitLoop_keeps :
    ∀ (rs : List (Round H)), (∀ rd ∈ rs, rd.changes = []) →
    ∀ (hl : HandleList H) (r : WaitResult H), waitLoop ev rs hl = .returned r → r.Keeps hl.handles := by
  intro rs
  induction rs with
  | nil =>
    intro _ hl r hr
    cases hr
  | cons rd rs ih =>
    intro hch hl r hr
    have hc : applyChanges hl rd.changes = some hl := by
      rw [hch rd List.mem_cons_self]
      rfl
    by_cases hwake : rd.wake < 0
    · -- the sleep failed
      have hend : waitLoop ev (rd :: rs) hl = waitEnd hl.finishAll rd.wake none := by
        simp [waitLoop, hc, hwake]
      rw [hend] at hr
      exact (waitEnd_keeps hr (fun _ _ h => by cases h) :)
    · have hend : waitLoop ev (rd :: rs) hl =
          let q := hlistDoPollLocked hl.handles hl.handleWait ev rd.poll false rd.stale
          if q.1 = 0 then waitLoop ev rs { hl with handleWait := q.2.2 }
          else waitEnd { hl with handleWait := q.2.2 }.finishAll q.1 q.2.1 := by
        simp [waitLoop, hc, hwake]
      rw [hend] at hr
      dsimp only at hr
      split_ifs at hr with h0
      · exact (ih (fun rd' hrd' => hch rd' (List.mem_cons_of_mem _ hrd')) _ r hr :)
      · exact (waitEnd_keeps hr (fun x e hx => hlistDoPollLocked_ready_mem ev rd.poll hl.handles
          hl.nodup hl.handleWait false rd.stale hx) :)

/-- `handle_list_wait` on a list that only its caller changes: the handles
after it are those before it, with no waiter, and the handle it reports is
one of them. -/
theorem handleListWait_keeps (hl : HandleList H) (poll : H → UInt32) (stale : Int)
    (rounds : List (Round H)) (hch : ∀ rd ∈ rounds, rd.changes = []) {r : WaitResult H}
    (hr : handleListWait hl ev poll stale rounds = .returned r) : r.Keeps hl.handles := by
  unfold handleListWait at hr
  by_cases hfree : hl.waitEvent = none
  · rw [if_neg (not_not.mpr hfree)] at hr
    have hready := fun x e hx => hlistDoPollLocked_ready_mem ev poll hl.handles hl.nodup
      hl.handleWait true stale (x := x) (e := e) hx
    dsimp only at hr
    split_ifs at hr with hneg h0
    · cases hr
      exact ⟨List.Perm.refl _, rfl, fun h hh => by cases hh⟩
    · exact (waitLoop_keeps ev rounds hch _ r hr :)
    · exact (waitEnd_keeps hr hready :)
  · rw [if_pos hfree] at hr
    cases hr

end Keeps

/-- A wake-up after which no handle is ready returns the unset `ret` of the
pass, whatever it is, with no handle; with `1` there it reads the event of
`*handle_ptr`, still `NULL`. -/
theorem handleListWait_stale (hl : HandleList H) (ev : Nat) (poll : H → UInt32) (stale : Int)
    (rd : Round H) (rs : List (Round H)) (hfree : hl.waitEvent = none) (hne : hl.handles ≠ [])
    (hown : ∀ h ∈ hl.handles, hl.handleWait h = none) (hidle : ∀ h ∈ hl.handles, poll h = 0)
    (hch : rd.changes = []) (hwake : 0 ≤ rd.wake) (hidle' : ∀ h ∈ hl.handles, rd.poll h = 0) :
    (rd.stale = 1 → handleListWait hl ev poll stale (rd :: rs) = .nullHandle) ∧
    (rd.stale ≠ 0 → rd.stale ≠ 1 → ∃ r, handleListWait hl ev poll stale (rd :: rs) = .returned r ∧
      r.ret = rd.stale ∧ r.handle = none) := by
  -- the first pass finds nothing ready and prepares every handle
  obtain ⟨ret, ready, w, hq⟩ : ∃ ret ready w,
      hlistDoPollLocked hl.handles hl.handleWait ev poll true stale = (ret, ready, w) :=
    ⟨_, _, _, rfl⟩
  obtain ⟨rfl, hw⟩ : ret = 0 ∧ w = fun h => if h ∈ hl.handles then some ev else hl.handleWait h := by
    rcases hlistDoPollLocked_prepare ev poll hl.handles hl.nodup hl.handleWait stale hne hq with
      ⟨-, h, -, hm, hpoll, -⟩ | ⟨-, -, -, h, hm, hbusy⟩ | ⟨hret, -, hw⟩
    · exact absurd (hidle h hm) hpoll
    · exact absurd (hown h hm) hbusy
    · exact ⟨hret, hw⟩
  -- the pass after the wake-up finds nothing ready either
  have hfind : hl.handles.find? (fun h => rd.poll h ≠ 0) = none := by
    rw [List.find?_eq_none]
    intro h hm
    simp [hidle' h hm]
  have hq' : hlistDoPollLocked hl.handles w ev rd.poll false rd.stale = (rd.stale, none, w) := by
    rw [hlistDoPollLocked_noPrepare ev rd.poll hl.handles w rd.stale hne, hfind]
  have hrun : handleListWait hl ev poll stale (rd :: rs) =
      if rd.stale = 0 then waitLoop ev rs { hl with waitEvent := some ev, handleWait := w }
      else waitEnd ({ hl with waitEvent := some ev, handleWait := w } : HandleList H).finishAll
        rd.stale none := by
    simp [handleListWait, hfree, hq, waitLoop, applyChanges, hch, hq', not_lt.mpr hwake]
  refine ⟨fun h1 => ?_, fun h0 h1 => ?_⟩
  · rw [hrun, if_neg (by omega)]
    simp [waitEnd, h1]
  · rw [hrun, if_neg h0]
    simp only [waitEnd, if_neg h1]
    exact ⟨_, rfl, rfl, rfl⟩

/-- One handle, not ready, a wake-up, still not ready, and a stack slot
holding `5`: `handle_list_wait` returns `5`. -/
theorem handleListWait_stale_five :
    ∃ r, handleListWait (⟨[0], by decide, none, fun _ => none⟩ : HandleList Nat) 7 (fun _ => 0) 0
      [⟨[], 0, fun _ => 0, 5⟩] = .returned r ∧ r.ret = 5 ∧ r.handle = none :=
  (handleListWait_stale (⟨[0], by decide, none, fun _ => none⟩ : HandleList Nat) 7 (fun _ => 0) 0
    ⟨[], 0, fun _ => 0, 5⟩ [] rfl (by decide) (by decide) (by decide) rfl (by decide)
    (by decide)).2 (by decide) (by decide)

end Ipc
