import Trusty.Ipc.HandleList
import Trusty.Lib.Bitmap
import Trusty.Lib.Trace

/-!
# `uctx.c`: the handle table of a user context

A user context keeps the handles of an app three times: a bitmap `inuse` of
the ids in use, an array `handles` from id to handle, and the handle list
`handle_list` that `sys_wait_any` waits on.  `uctx_handle_install` takes the
first clear bit; `uctx_handle_get` and `uctx_handle_remove` (as `sys_close`
calls it) check an id with `_check_handle_id`; `sys_wait_any` waits on the
list and turns the handle it gets back into an id by a linear search
(`_handle_to_id_locked`).

An app has one thread, so its syscalls come one after the other: `Uctx.step`
is one syscall on the table, and the handle list changes only through them.
What `sys_wait_any`'s wait sees (poll results, wake-ups, the unset `ret` of
its passes) is the environment of the call.  References (`handle_incref`,
`handle_decref`) and the copy to user space are not modelled.

* `Uctx.Inv`: bit `i` is set exactly when slot `i` holds a handle, and the
  handles in the slots, each in one slot, are exactly those on the list.
* `uctx_handle_table`: every run of syscalls from the empty table keeps
  `Uctx.Inv`; `install` returns the lowest free id, `ERR_NO_RESOURCES`
  exactly when all 64 are in use; `get` and `remove` succeed exactly on the
  ids in use, with `ERR_BAD_HANDLE` from 64 on and `ERR_NOT_FOUND` for free
  ids, and `remove` frees the id and returns its handle; `sys_wait_any`
  reports the id of the handle it got.
-/

namespace Ipc

/-! ## The model -/

/-- `ERR_NO_RESOURCES`. -/
def errNoResources : Int := -41

/-- `ERR_BAD_HANDLE`. -/
def errBadHandle : Int := -42

/-- `INVALID_HANDLE_ID`. -/
def invalidHandleId : UInt32 := 0xFFFFFFFF

/-- `struct uctx`, less `priv`: the `inuse` bitmap (`IPC_MAX_HANDLES = 64`
bits, one `unsigned long`), the `handles` array (`none` for `NULL`) and the
handle list. -/
structure Uctx (H : Type) where
  inuse : BitVec 64
  handles : Vector (Option H) 64
  handleList : HandleList H

variable {H : Type}

/-- The context `uctx_create` allocates with `calloc`. -/
def Uctx.empty : Uctx H := ⟨0, Vector.replicate 64 none, ⟨[], List.nodup_nil, none, fun _ => none⟩⟩

/-- `bitmap_ffz(inuse, IPC_MAX_HANDLES)`: the first clear bit, `-1` if none. -/
def bitmapFfz (b : BitVec 64) : Int :=
  match (List.range 64).find? (fun i => !b.getLsbD i) with
  | some i => i
  | none => -1

/-- `bitmap_set`. -/
def bitmapSet (b : BitVec 64) (i : Nat) : BitVec 64 := b ||| BitVec.twoPow 64 i

/-- `bitmap_clear`. -/
def bitmapClear (b : BitVec 64) (i : Nat) : BitVec 64 := b &&& ~~~(BitVec.twoPow 64 i)

/-- `ctx->handles[i]`, for an `i` below `IPC_MAX_HANDLES`. -/
def Uctx.slot (u : Uctx H) (i : Nat) : Option H := if hi : i < 64 then u.handles[i] else none

/-- `_check_handle_id(ctx, id)`: `NO_ERROR`, `ERR_BAD_HANDLE` or
`ERR_NOT_FOUND`; `none` for its `ASSERT` that a used slot holds a handle. -/
def checkHandleId (u : Uctx H) (id : UInt32) : Option Int :=
  if 64 ≤ id.toNat then some errBadHandle
  else if !u.inuse.getLsbD id.toNat then some errNotFound
  else if u.slot id.toNat = none then none
  else some 0

/-- `uctx_handle_install(ctx, h, &id)`: the new id, or `ERR_NO_RESOURCES`;
`none` for a failed `ASSERT` or `DEBUG_ASSERT`. -/
def uctxHandleInstall [DecidableEq H] (u : Uctx H) (h : H) : Option (Uctx H × Except Int Nat) :=
  let newId := bitmapFfz u.inuse
  if newId < 0 then some (u, .error errNoResources)
  else if hi : newId.toNat < 64 then
    if u.handles[newId.toNat] ≠ none then none
    else (handleListAdd u.handleList h).map fun hl =>
      (⟨bitmapSet u.inuse newId.toNat, u.handles.set newId.toNat (some h), hl⟩, .ok newId.toNat)
  else none

/-- `uctx_handle_get(ctx, id, &h)`: the handle at `id`, or the error. -/
def uctxHandleGet (u : Uctx H) (id : UInt32) : Option (Except Int H) :=
  (checkHandleId u id).bind fun ret =>
    if ret = 0 then (u.slot id.toNat).map .ok else some (.error ret)

/-- `uctx_handle_remove(ctx, id, &h)`, the table half of `sys_close`: the
id freed and its handle off the list and returned, or the error. -/
def uctxHandleRemove [DecidableEq H] (u : Uctx H) (id : UInt32) : Option (Uctx H × Except Int H) :=
  (checkHandleId u id).bind fun ret =>
    if ret = 0 then
      if hi : id.toNat < 64 then
        match u.handles[id.toNat] with
        | none => none
        | some h => (handleListDel u.handleList h).map fun hl =>
            (⟨bitmapClear u.inuse id.toNat, u.handles.set id.toNat none, hl⟩, .ok h)
      else none
    else some (u, .error ret)

/-- `_handle_to_id_locked(ctx, h)`: the first id whose slot holds `h`. -/
def handleToIdLocked [DecidableEq H] (u : Uctx H) (h : H) : UInt32 :=
  match (List.range 64).find? (fun i => u.slot i == some h) with
  | some i => i.toUInt32
  | none => invalidHandleId

/-- A sleep of `sys_wait_any`'s wait: what `__do_wait` returned, the `poll`
results of the pass after it, and that pass's unset `ret`.  No other thread
changes the app's list meanwhile. -/
structure Wake (H : Type) where
  wake : Int
  poll : H → UInt32
  stale : Int

/-- The round of `handle_list_wait` that a sleep of `sys_wait_any` is. -/
def Wake.round (w : Wake H) : Round H := ⟨[], w.wake, w.poll, w.stale⟩

/-- `sys_wait_any(&event, timeout)` with its stack event `ev`, the `poll`
results and unset `ret` of the first pass, and the sleeps: the context after
it, `ret`, and the handle id and event copied out (`none` when nothing is);
`none` for a failed `DEBUG_ASSERT` or a wait that has not returned. -/
def sysWaitAny [DecidableEq H] (u : Uctx H) (ev : Nat) (poll : H → UInt32) (stale : Int) (wakes : List (Wake H)) :
    Option (Uctx H × Int × Option (UInt32 × UInt32)) :=
  match handleListWait u.handleList ev poll stale (wakes.map Wake.round) with
  | .returned r =>
    let u := { u with handleList := r.hlist }
    if r.ret < 0 then some (u, r.ret, none)
    else match r.handle with
      | none => none
      | some h =>
        let id := handleToIdLocked u h
        if id.toNat < 64 then some (u, r.ret, some (id, r.event)) else none
  | _ => none

/-- The syscalls an app makes on its handle table. -/
inductive UctxOp (H : Type)
  | install (h : H)
  | get (id : UInt32)
  | remove (id : UInt32)
  | waitAny (ev : Nat) (poll : H → UInt32) (stale : Int) (wakes : List (Wake H))

/-- What a syscall returned. -/
inductive UctxReply (H : Type)
  | installed (r : Except Int Nat)
  | got (r : Except Int H)
  | removed (r : Except Int H)
  | waited (ret : Int) (event : Option (UInt32 × UInt32))
  deriving DecidableEq

/-- One syscall on the handle table. -/
def Uctx.step [DecidableEq H] (u : Uctx H) : UctxOp H → Option (Uctx H × List (UctxReply H))
  | .install h => (uctxHandleInstall u h).map fun r => (r.1, [.installed r.2])
  | .get id => (uctxHandleGet u id).map fun r => (u, [.got r])
  | .remove id => (uctxHandleRemove u id).map fun r => (r.1, [.removed r.2])
  | .waitAny ev poll stale wakes =>
    (sysWaitAny u ev poll stale wakes).map fun r => (r.1, [.waited r.2.1 r.2.2])

/-! ## Bitmaps and slots -/

/-! The bitmap of a context is lk's bitmap of `IPC_MAX_HANDLES` bits. -/

@[simp] theorem getLsbD_bitmapSet (b : BitVec 64) {i : Nat} (hi : i < 64) (j : Nat) :
    (bitmapSet b i).getLsbD j = (decide (i = j) || b.getLsbD j) :=
  Bitmap.test_set b hi j

@[simp] theorem getLsbD_bitmapClear (b : BitVec 64) (i j : Nat) :
    (bitmapClear b i).getLsbD j = (!decide (i = j) && b.getLsbD j) :=
  Bitmap.test_clear b i j

/-- `bitmap_ffz` finds the lowest clear bit, or none. -/
theorem bitmapFfz_spec (b : BitVec 64) :
    (bitmapFfz b = -1 ∧ ∀ i < 64, b.getLsbD i = true) ∨
      ∃ i : Nat, i < 64 ∧ bitmapFfz b = i ∧ b.getLsbD i = false ∧
        ∀ j < i, b.getLsbD j = true :=
  Bitmap.ffz_spec b

theorem Uctx.slot_of_le {u : Uctx H} {i : Nat} (hi : 64 ≤ i) : u.slot i = none := by
  rw [Uctx.slot, dif_neg (by omega)]

theorem Uctx.lt_of_slot {u : Uctx H} {i : Nat} {h : H} (hs : u.slot i = some h) : i < 64 := by
  by_contra hi
  rw [Uctx.slot_of_le (by omega)] at hs
  cases hs

theorem Uctx.slot_of_lt {u : Uctx H} {i : Nat} (hi : i < 64) : u.slot i = u.handles[i] := by
  rw [Uctx.slot, dif_pos hi]

/-- The slots after `handles[i] = v`. -/
theorem Uctx.slot_set {u u' : Uctx H} {i : Nat} {hi : i < 64} {v : Option H}
    (hs : u'.handles = u.handles.set i v hi) (j : Nat) :
    u'.slot j = if i = j then v else u.slot j := by
  by_cases hj : j < 64
  · rw [Uctx.slot_of_lt hj, Uctx.slot_of_lt hj, hs, Vector.getElem_set]
  · rw [Uctx.slot_of_le (by omega), Uctx.slot_of_le (by omega), if_neg (by omega)]

/-! ## The invariant -/

/-- The three records of a context agree: bit `i` of `inuse` is set exactly
when slot `i` holds a handle, the handles on the list are those in the slots,
each in one slot, and no thread waits on the list between syscalls. -/
structure Uctx.Inv (u : Uctx H) : Prop where
  inuse : ∀ i, u.inuse.getLsbD i = (u.slot i).isSome
  listed : ∀ h, h ∈ u.handleList.handles ↔ ∃ i, u.slot i = some h
  unique : ∀ i j h, u.slot i = some h → u.slot j = some h → i = j
  free : u.handleList.waitEvent = none

theorem Uctx.Inv.empty : (Uctx.empty : Uctx H).Inv where
  inuse i := by
    by_cases hi : i < 64
    · simp [Uctx.empty, Uctx.slot_of_lt hi]
    · rw [Uctx.slot_of_le (by omega)]
      exact BitVec.getLsbD_zero
  listed h := by
    constructor
    · intro hm
      cases hm
    · rintro ⟨i, hs⟩
      rw [Uctx.slot_of_lt (Uctx.lt_of_slot hs)] at hs
      simp [Uctx.empty] at hs
  unique i j h hi := by
    rw [Uctx.slot_of_lt (Uctx.lt_of_slot hi)] at hi
    simp [Uctx.empty] at hi
  free := rfl

/-- `_check_handle_id` on a consistent context: its `ASSERT` holds, and the
id is out of range, unused, or used. -/
theorem checkHandleId_of_inv {u : Uctx H} (hu : u.Inv) (id : UInt32) :
    checkHandleId u id = some (if 64 ≤ id.toNat then errBadHandle
      else if (u.slot id.toNat).isSome then 0 else errNotFound) := by
  unfold checkHandleId
  by_cases h64 : 64 ≤ id.toNat
  · rw [if_pos h64, if_pos h64]
  · rw [if_neg h64, if_neg h64, hu.inuse]
    cases u.slot id.toNat <;> simp

/-! ## The syscalls -/

variable [DecidableEq H]

/-- What `uctx_handle_install` did when it returned: `ERR_NO_RESOURCES` on a
full bitmap, or the lowest clear bit set, the handle in its slot and on the
list. -/
theorem uctxHandleInstall_eq {u u' : Uctx H} {h : H} {r : Except Int Nat}
    (hs : uctxHandleInstall u h = some (u', r)) :
    (u' = u ∧ r = .error errNoResources ∧ ∀ i < 64, u.inuse.getLsbD i = true) ∨
      ∃ i, ∃ hi : i < 64, r = .ok i ∧ u.inuse.getLsbD i = false ∧
        (∀ j < i, u.inuse.getLsbD j = true) ∧ u'.inuse = bitmapSet u.inuse i ∧
        u'.handles = u.handles.set i (some h) hi ∧ handleListAdd u.handleList h = some u'.handleList := by
  unfold uctxHandleInstall at hs
  rcases bitmapFfz_spec u.inuse with ⟨hf, hall⟩ | ⟨i, hi, hf, hfree, hlow⟩
  · rw [hf, if_pos (by decide)] at hs
    cases hs
    exact .inl ⟨rfl, rfl, hall⟩
  · have hi' : (bitmapFfz u.inuse).toNat < 64 := by rw [hf]; simpa using hi
    rw [if_neg (by omega), dif_pos hi'] at hs
    split_ifs at hs
    obtain ⟨hl, hadd, heq⟩ := Option.map_eq_some_iff.mp hs
    cases heq
    simp only [hf, Int.toNat_natCast]
    exact .inr ⟨i, hi, rfl, hfree, hlow, rfl, rfl, hadd⟩

/-- On a consistent context `uctx_handle_install` of a handle not in the table
returns. -/
theorem uctxHandleInstall_isSome {u : Uctx H} (hu : u.Inv) {h : H}
    (hh : h ∉ u.handleList.handles) : (uctxHandleInstall u h).isSome := by
  unfold uctxHandleInstall
  rcases bitmapFfz_spec u.inuse with ⟨hf, -⟩ | ⟨i, hi, hf, hfree, -⟩
  · rw [hf, if_pos (by decide)]
    rfl
  · have hi' : (bitmapFfz u.inuse).toNat < 64 := by rw [hf]; simpa using hi
    have hnull : u.handles[(bitmapFfz u.inuse).toNat] = none := by
      simp only [hf, Int.toNat_natCast]
      rw [hu.inuse, Uctx.slot_of_lt hi] at hfree
      simpa using hfree
    rw [if_neg (by omega), dif_pos hi', if_neg (not_not.mpr hnull)]
    simp [handleListAdd, hh]

/-- What `uctx_handle_remove` did when it returned: the error of
`_check_handle_id`, or the id's bit cleared, its slot emptied and its handle
off the list. -/
theorem uctxHandleRemove_eq {u u' : Uctx H} {id : UInt32} {r : Except Int H}
    (hs : uctxHandleRemove u id = some (u', r)) :
    (u' = u ∧ ∃ e, r = .error e ∧ e ≠ 0 ∧ checkHandleId u id = some e) ∨
      ∃ h, ∃ hi : id.toNat < 64, r = .ok h ∧ u.slot id.toNat = some h ∧
        u'.inuse = bitmapClear u.inuse id.toNat ∧ u'.handles = u.handles.set id.toNat none hi ∧
        handleListDel u.handleList h = some u'.handleList := by
  unfold uctxHandleRemove at hs
  obtain ⟨e, hc, hs⟩ := Option.bind_eq_some_iff.mp hs
  by_cases he : e = 0
  · rw [if_pos he] at hs
    by_cases hi : id.toNat < 64
    · rw [dif_pos hi] at hs
      cases hh : u.handles[id.toNat] with
      | none =>
        rw [hh] at hs
        cases hs
      | some h =>
        rw [hh] at hs
        obtain ⟨hl, hdel, heq⟩ := Option.map_eq_some_iff.mp hs
        cases heq
        exact .inr ⟨h, hi, rfl, by rw [Uctx.slot_of_lt hi, hh], rfl, rfl, hdel⟩
    · rw [dif_neg hi] at hs
      cases hs
  · rw [if_neg he] at hs
    cases hs
    exact .inl ⟨rfl, e, rfl, he, hc⟩

/-- On a consistent context `uctx_handle_remove` returns. -/
theorem uctxHandleRemove_isSome {u : Uctx H} (hu : u.Inv) (id : UInt32) :
    (uctxHandleRemove u id).isSome := by
  unfold uctxHandleRemove
  rw [checkHandleId_of_inv hu]
  by_cases h64 : 64 ≤ id.toNat
  · simp [h64, show errBadHandle ≠ 0 by decide]
  · cases hs : u.slot id.toNat with
    | none => simp [h64, show errNotFound ≠ 0 by decide]
    | some h =>
      -- a used id: its handle is on the list, so `handle_list_del` returns
      have hi : id.toNat < 64 := by omega
      have hh : u.handles[id.toNat] = some h := by rw [← Uctx.slot_of_lt hi, hs]
      have hm : h ∈ u.handleList.handles := (hu.listed h).mpr ⟨_, hs⟩
      simp [h64, hi, hh, handleListDel, hm]

/-- `uctx_handle_install` keeps the records in agreement. -/
theorem Uctx.Inv.install {u u' : Uctx H} {h : H} {r : Except Int Nat} (hu : u.Inv)
    (hs : uctxHandleInstall u h = some (u', r)) : u'.Inv := by
  rcases uctxHandleInstall_eq hs with ⟨rfl, -, -⟩ | ⟨i, hi, -, hfree, -, hbits, hslots, hadd⟩
  · exact hu
  · obtain ⟨hh, hlist, hev, -⟩ := handleListAdd_eq hadd
    have hslot := Uctx.slot_set hslots
    have hnull : u.slot i = none := by simpa [hfree] using (hu.inuse i).symm
    -- the new handle was in no slot
    have hnew : ∀ j, u.slot j ≠ some h := fun j hj => hh ((hu.listed h).mpr ⟨j, hj⟩)
    refine ⟨fun j => ?_, fun x => ?_, fun a b x ha hb => ?_, by rw [hev, hu.free]⟩
    · rw [hbits, getLsbD_bitmapSet _ hi, hslot, hu.inuse]
      by_cases hij : i = j <;> simp [hij]
    · rw [hlist, List.mem_append, hu.listed, List.mem_singleton]
      constructor
      · rintro (⟨j, hj⟩ | rfl)
        · have hij : i ≠ j := by
            rintro rfl
            rw [hnull] at hj
            cases hj
          exact ⟨j, by rw [hslot, if_neg hij, hj]⟩
        · exact ⟨i, by rw [hslot, if_pos rfl]⟩
      · rintro ⟨j, hj⟩
        rw [hslot] at hj
        by_cases hij : i = j
        · rw [if_pos hij] at hj
          exact .inr (Option.some_injective _ hj).symm
        · rw [if_neg hij] at hj
          exact .inl ⟨j, hj⟩
    · rw [hslot] at ha hb
      by_cases hia : i = a <;> by_cases hib : i = b
      · exact hia.symm.trans hib
      · rw [if_pos hia] at ha
        rw [if_neg hib] at hb
        cases ha
        exact absurd hb (hnew b)
      · rw [if_neg hia] at ha
        rw [if_pos hib] at hb
        cases hb
        exact absurd ha (hnew a)
      · rw [if_neg hia] at ha
        rw [if_neg hib] at hb
        exact hu.unique a b x ha hb

/-- `uctx_handle_remove` keeps the records in agreement. -/
theorem Uctx.Inv.remove {u u' : Uctx H} {id : UInt32} {r : Except Int H} (hu : u.Inv)
    (hs : uctxHandleRemove u id = some (u', r)) : u'.Inv := by
  rcases uctxHandleRemove_eq hs with ⟨rfl, -⟩ | ⟨h, hi, -, hslot_id, hbits, hslots, hdel⟩
  · exact hu
  · obtain ⟨-, hlist, hev, -⟩ := handleListDel_eq hdel
    have hslot := Uctx.slot_set hslots
    -- the handle of `id` is in no other slot
    have hother : ∀ j, u.slot j = some h → j = id.toNat := fun j hj => hu.unique j _ h hj hslot_id
    refine ⟨fun j => ?_, fun x => ?_, fun a b x ha hb => ?_, by rw [hev, hu.free]⟩
    · rw [hbits, getLsbD_bitmapClear, hslot, hu.inuse]
      by_cases hij : id.toNat = j <;> simp [hij]
    · rw [hlist, u.handleList.nodup.mem_erase_iff, hu.listed]
      constructor
      · rintro ⟨hxh, j, hj⟩
        have hij : id.toNat ≠ j := by
          rintro rfl
          rw [hslot_id] at hj
          exact hxh (Option.some_injective _ hj).symm
        exact ⟨j, by rw [hslot, if_neg hij, hj]⟩
      · rintro ⟨j, hj⟩
        rw [hslot] at hj
        by_cases hij : id.toNat = j
        · rw [if_pos hij] at hj
          cases hj
        · rw [if_neg hij] at hj
          refine ⟨fun hxh => hij (hother j ?_).symm, j, hj⟩
          rw [← hxh]
          exact hj
    · rw [hslot] at ha hb
      by_cases hia : id.toNat = a
      · rw [if_pos hia] at ha
        cases ha
      · by_cases hib : id.toNat = b
        · rw [if_pos hib] at hb
          cases hb
        · rw [if_neg hia] at ha
          rw [if_neg hib] at hb
          exact hu.unique a b x ha hb

/-- `_handle_to_id_locked` on a consistent context finds the one slot of a
handle in the table. -/
theorem handleToIdLocked_eq {u : Uctx H} (hu : u.Inv) {i : Nat} {h : H}
    (hs : u.slot i = some h) : handleToIdLocked u h = i.toUInt32 := by
  unfold handleToIdLocked
  cases hf : (List.range 64).find? (fun j => u.slot j == some h) with
  | none =>
    have := List.find?_eq_none.mp hf i (List.mem_range.mpr (Uctx.lt_of_slot hs))
    simp [hs] at this
  | some j =>
    have hj : u.slot j = some h := by simpa using List.find?_some hf
    rw [hu.unique j i h hj hs]


omit [DecidableEq H] in
/-- The sleeps of `sys_wait_any` change nothing on the list. -/
theorem changes_of_mem_wakes {wakes : List (Wake H)} :
    ∀ rd ∈ wakes.map Wake.round, rd.changes = [] := by
  intro rd hrd
  obtain ⟨w, -, rfl⟩ := List.mem_map.mp hrd
  rfl

/-- What `sys_wait_any` left of the context when it returned: the list after
its wait. -/
theorem sysWaitAny_eq {u u' : Uctx H} {ev : Nat} {poll : H → UInt32} {stale : Int}
    {wakes : List (Wake H)} {ret : Int} {e : Option (UInt32 × UInt32)}
    (hs : sysWaitAny u ev poll stale wakes = some (u', ret, e)) :
    ∃ r, handleListWait u.handleList ev poll stale (wakes.map Wake.round) = .returned r ∧
      u' = { u with handleList := r.hlist } := by
  unfold sysWaitAny at hs
  cases hw : handleListWait u.handleList ev poll stale (wakes.map Wake.round) with
  | returned r =>
    rw [hw] at hs
    dsimp only at hs
    split_ifs at hs with hneg
    · cases hs
      exact ⟨r, rfl, rfl⟩
    · cases hh : r.handle with
      | none =>
        rw [hh] at hs
        cases hs
      | some h =>
        rw [hh] at hs
        dsimp only at hs
        split_ifs at hs
        cases hs
        exact ⟨r, rfl, rfl⟩
  | waiting hl => rw [hw] at hs; cases hs
  | nullHandle => rw [hw] at hs; cases hs
  | assertFailed => rw [hw] at hs; cases hs

/-- `sys_wait_any` keeps the records in agreement: its wait only moves the
list's head. -/
theorem Uctx.Inv.waitAny {u u' : Uctx H} {ev : Nat} {poll : H → UInt32} {stale : Int}
    {wakes : List (Wake H)} {ret : Int} {e : Option (UInt32 × UInt32)} (hu : u.Inv)
    (hs : sysWaitAny u ev poll stale wakes = some (u', ret, e)) : u'.Inv := by
  obtain ⟨r, hr, rfl⟩ := sysWaitAny_eq hs
  obtain ⟨hperm, hev, -⟩ :=
    handleListWait_keeps ev u.handleList poll stale _ changes_of_mem_wakes hr
  exact ⟨hu.inuse, fun x => hperm.mem_iff.trans (hu.listed x), hu.unique, hev⟩

/-- Every syscall keeps the records in agreement. -/
theorem Uctx.Inv.step {u u' : Uctx H} {op : UctxOp H} {o : List (UctxReply H)} (hu : u.Inv)
    (hs : u.step op = some (u', o)) : u'.Inv := by
  cases op with
  | install h =>
    obtain ⟨⟨u'', r⟩, hi, heq⟩ := Option.map_eq_some_iff.mp hs
    cases heq
    exact hu.install hi
  | get id =>
    obtain ⟨r, -, heq⟩ := Option.map_eq_some_iff.mp hs
    cases heq
    exact hu
  | remove id =>
    obtain ⟨⟨u'', r⟩, hr, heq⟩ := Option.map_eq_some_iff.mp hs
    cases heq
    exact hu.remove hr
  | waitAny ev poll stale wakes =>
    obtain ⟨⟨u'', ret, e⟩, hw, heq⟩ := Option.map_eq_some_iff.mp hs
    cases heq
    exact hu.waitAny hw

/-- The records agree after every run of syscalls from a new context. -/
theorem Uctx.Inv.of_run {ops : List (UctxOp H)} {out : List (UctxReply H)} {u : Uctx H}
    (hrun : LTS.Run Uctx.step Uctx.empty ops out u) : u.Inv :=
  hrun.induction (P := fun u _ => u.Inv) Uctx.Inv.empty fun hu hs => hu.step hs

/-! ## What each syscall returns -/

/-- `uctx_handle_install` of a handle not in the table: `ERR_NO_RESOURCES`
exactly when every id is in use, else the lowest free id, with the handle in
its slot and the other slots as they were. -/
theorem uctxHandleInstall_spec {u : Uctx H} (hu : u.Inv) {h : H} (hh : h ∉ u.handleList.handles) :
    ((∀ i < 64, u.inuse.getLsbD i = true) ∧ uctxHandleInstall u h = some (u, .error errNoResources)) ∨
      ∃ i < 64, u.inuse.getLsbD i = false ∧ (∀ j < i, u.inuse.getLsbD j = true) ∧
        ∃ u', uctxHandleInstall u h = some (u', .ok i) ∧ u'.slot i = some h ∧
          u'.inuse.getLsbD i = true ∧ ∀ j, j ≠ i → u'.slot j = u.slot j := by
  obtain ⟨⟨u', r⟩, hs⟩ := Option.isSome_iff_exists.mp (uctxHandleInstall_isSome hu hh)
  rcases uctxHandleInstall_eq hs with ⟨rfl, rfl, hall⟩ | ⟨i, hi, rfl, hfree, hlow, hbits, hslots, -⟩
  · exact .inl ⟨hall, hs⟩
  · have hslot := Uctx.slot_set hslots
    refine .inr ⟨i, hi, hfree, hlow, u', hs, by rw [hslot, if_pos rfl], ?_,
      fun j hj => by rw [hslot, if_neg (Ne.symm hj)]⟩
    rw [hbits, getLsbD_bitmapSet _ hi]
    simp

omit [DecidableEq H] in
/-- `uctx_handle_get` on a consistent context: `ERR_BAD_HANDLE` from
`IPC_MAX_HANDLES` on, `ERR_NOT_FOUND` for a free id, else the handle in the
slot. -/
theorem uctxHandleGet_of_inv {u : Uctx H} (hu : u.Inv) (id : UInt32) :
    uctxHandleGet u id = some (if 64 ≤ id.toNat then .error errBadHandle
      else match u.slot id.toNat with
        | none => .error errNotFound
        | some h => .ok h) := by
  unfold uctxHandleGet
  rw [checkHandleId_of_inv hu]
  by_cases h64 : 64 ≤ id.toNat
  · simp [h64, show errBadHandle ≠ 0 by decide]
  · cases u.slot id.toNat <;> simp [h64, show errNotFound ≠ 0 by decide]

/-- `uctx_handle_remove` on a consistent context: `ERR_BAD_HANDLE` from
`IPC_MAX_HANDLES` on and `ERR_NOT_FOUND` for a free id, with nothing changed;
for a used id its handle, the id freed, the handle off the list and the other
slots as they were. -/
theorem uctxHandleRemove_spec {u : Uctx H} (hu : u.Inv) (id : UInt32) :
    (64 ≤ id.toNat → uctxHandleRemove u id = some (u, .error errBadHandle)) ∧
    (id.toNat < 64 → u.slot id.toNat = none → uctxHandleRemove u id = some (u, .error errNotFound)) ∧
    ∀ h, u.slot id.toNat = some h → ∃ u', uctxHandleRemove u id = some (u', .ok h) ∧
      u'.slot id.toNat = none ∧ u'.inuse.getLsbD id.toNat = false ∧
      (∀ j, j ≠ id.toNat → u'.slot j = u.slot j) ∧ h ∉ u'.handleList.handles := by
  refine ⟨fun h64 => ?_, fun hi hnone => ?_, fun h hs => ?_⟩
  · unfold uctxHandleRemove
    rw [checkHandleId_of_inv hu]
    simp [h64, show errBadHandle ≠ 0 by decide]
  · unfold uctxHandleRemove
    rw [checkHandleId_of_inv hu]
    simp [not_le.mpr hi, hnone, show errNotFound ≠ 0 by decide]
  · obtain ⟨⟨u', r⟩, hs'⟩ := Option.isSome_iff_exists.mp (uctxHandleRemove_isSome hu id)
    rcases uctxHandleRemove_eq hs' with ⟨-, e, -, he, hc⟩ | ⟨h', hi, rfl, hs'', hbits, hslots, hdel⟩
    · -- a used id passes `_check_handle_id`
      rw [checkHandleId_of_inv hu, if_neg (by have := Uctx.lt_of_slot hs; omega), hs] at hc
      exact absurd (Option.some_injective _ hc).symm he
    · rw [hs] at hs''
      cases hs''
      obtain ⟨-, hlist, -, -⟩ := handleListDel_eq hdel
      have hslot := Uctx.slot_set hslots
      refine ⟨u', hs', by rw [hslot, if_pos rfl], by rw [hbits, getLsbD_bitmapClear]; simp,
        fun j hj => by rw [hslot, if_neg (Ne.symm hj)], ?_⟩
      rw [hlist, u.handleList.nodup.mem_erase_iff]
      exact fun hm => hm.1 rfl

/-- `sys_wait_any` on a consistent context: an error of its wait is passed
on with nothing copied out; a handle it got is reported with its id. -/
theorem sysWaitAny_reports {u : Uctx H} (hu : u.Inv) (ev : Nat) (poll : H → UInt32) (stale : Int)
    (wakes : List (Wake H)) {r : WaitResult H}
    (hr : handleListWait u.handleList ev poll stale (wakes.map Wake.round) = .returned r) :
    (r.ret < 0 → sysWaitAny u ev poll stale wakes = some ({ u with handleList := r.hlist }, r.ret, none)) ∧
    ∀ h, 0 ≤ r.ret → r.handle = some h → ∃ i, u.slot i = some h ∧
      sysWaitAny u ev poll stale wakes =
        some ({ u with handleList := r.hlist }, r.ret, some (i.toUInt32, r.event)) := by
  refine ⟨fun hneg => ?_, fun h hpos hh => ?_⟩
  · simp [sysWaitAny, hr, hneg]
  · obtain ⟨-, -, hmem⟩ :=
      handleListWait_keeps ev u.handleList poll stale _ changes_of_mem_wakes hr
    obtain ⟨i, hi⟩ := (hu.listed h).mp (hmem h hh)
    have hid : handleToIdLocked { u with handleList := r.hlist } h = i.toUInt32 :=
      handleToIdLocked_eq hu hi
    have hlt := Uctx.lt_of_slot hi
    refine ⟨i, hi, ?_⟩
    simp [sysWaitAny, hr, not_lt.mpr hpos, hh, hid]
    omega

/-- The handle table of an app, after every run of its syscalls from a new
context: the three records agree, and each syscall returns as it should. -/
theorem uctx_handle_table {ops : List (UctxOp H)} {out : List (UctxReply H)} {u : Uctx H}
    (hrun : LTS.Run Uctx.step Uctx.empty ops out u) :
    u.Inv ∧
    (∀ h, h ∉ u.handleList.handles →
      ((∀ i < 64, u.inuse.getLsbD i = true) ∧
        uctxHandleInstall u h = some (u, .error errNoResources)) ∨
      ∃ i < 64, u.inuse.getLsbD i = false ∧ (∀ j < i, u.inuse.getLsbD j = true) ∧
        ∃ u', uctxHandleInstall u h = some (u', .ok i) ∧ u'.slot i = some h ∧
          u'.inuse.getLsbD i = true ∧ ∀ j, j ≠ i → u'.slot j = u.slot j) ∧
    (∀ id, uctxHandleGet u id = some (if 64 ≤ id.toNat then .error errBadHandle
      else match u.slot id.toNat with
        | none => .error errNotFound
        | some h => .ok h)) ∧
    (∀ id, (64 ≤ id.toNat → uctxHandleRemove u id = some (u, .error errBadHandle)) ∧
      (id.toNat < 64 → u.slot id.toNat = none →
        uctxHandleRemove u id = some (u, .error errNotFound)) ∧
      ∀ h, u.slot id.toNat = some h → ∃ u', uctxHandleRemove u id = some (u', .ok h) ∧
        u'.slot id.toNat = none ∧ u'.inuse.getLsbD id.toNat = false ∧
        (∀ j, j ≠ id.toNat → u'.slot j = u.slot j) ∧ h ∉ u'.handleList.handles) ∧
    (∀ ev poll stale wakes (r : WaitResult H) h,
      handleListWait u.handleList ev poll stale (wakes.map Wake.round) = .returned r →
      0 ≤ r.ret → r.handle = some h → ∃ i, u.slot i = some h ∧
        sysWaitAny u ev poll stale wakes =
          some ({ u with handleList := r.hlist }, r.ret, some (i.toUInt32, r.event))) := by
  have hu := Uctx.Inv.of_run hrun
  exact ⟨hu, fun h hh => uctxHandleInstall_spec hu hh, uctxHandleGet_of_inv hu,
    uctxHandleRemove_spec hu, fun ev poll stale wakes r h hr =>
      (sysWaitAny_reports hu ev poll stale wakes hr).2 h⟩

/-- Two handles installed, the first closed, and a third installed: the
third takes the id the first freed. -/
theorem uctx_handle_table_reuse :
    ∃ out u, LTS.Run Uctx.step (Uctx.empty : Uctx Nat)
        [.install 5, .install 7, .remove 0, .install 9] out u ∧ u.Inv ∧
      out = [.installed (.ok 0), .installed (.ok 1), .removed (.ok 5), .installed (.ok 0)] := by
  have hexec : (LTS.exec Uctx.step (Uctx.empty : Uctx Nat)
      [.install 5, .install 7, .remove 0, .install 9]).any (fun r => r.2 ==
        [.installed (.ok 0), .installed (.ok 1), .removed (.ok 5), .installed (.ok 0)]) = true := by
    decide
  obtain ⟨out, u, hrun, hout⟩ := LTS.Run.exists_of_exec (p := fun (_ : Uctx Nat) (out : List (UctxReply Nat)) => out ==
    [.installed (.ok 0), .installed (.ok 1), .removed (.ok 5), .installed (.ok 0)]) hexec
  exact ⟨out, u, hrun, (uctx_handle_table hrun).1, by simpa using hout⟩

end Ipc
