import Mathlib
import Trusty.Lib.Trace

/-!
# `vqueue.c`: taking buffers off a ring the non-secure side writes

The secure side takes buffers off the avail ring of a virtqueue and hands
them back on the used ring.  The ring lives in memory the non-secure side can
rewrite at any time, so every read of it is modelled as a read of its own:
`Shared` gives what the `n`-th read sees, and a call counts its reads.  Only
`vring.num`, `vring_addr` and `last_avail_idx` are the secure side's own.

* `vqueueGetAvailBuf`: `_vqueue_get_avail_buf_locked`, with its two panics,
  and `undefined` for its `last_avail_idx % vring.num` on an empty ring.
* `walkChain`: its descriptor loop, total by the iovs left (`VqueueBuf.room`).
* `vqueueAddBuf`: `_vqueue_add_buf_locked`, as the writes it makes.
* `tipcRxThreadStep`: one pass of the loop of `tipc_rx_thread_func`.

Results:
* `walkChain_ok`: the loop makes at most `room + 1` passes, reads only
  descriptors below `vring.num`, follows the chain from its head, and fills
  each iov from one pass, never past `cnt`.
* `vqueueGetAvailBuf_returned`: what a call that returns did.
* `vqueueGetAvailBuf_num_unchecked`: `vring.num` is never checked; with a
  multiple of `65536` the availability check panics on one new entry, and
  with `0` the ring index divides by zero.
* `tipcRxThread_returns_each`: every avail entry the RX thread takes is
  published back once on the used ring, right after it is taken, at
  `used->ring[used->idx % num]`, and `used->idx` is then written one up.
-/

namespace Virtio

/-! ## The model -/

/-- `ERR_NOT_VALID`. -/
def errNotValid : Int := -7

/-- `ERR_NOT_ENOUGH_BUFFER`. -/
def errNotEnoughBuffer : Int := -9

/-- `ERR_CHANNEL_CLOSED`. -/
def errChannelClosed : Int := -15

/-- `ERR_TOO_BIG`. -/
def errTooBig : Int := -25

/-- `VRING_DESC_F_NEXT`. -/
def vringDescFNext : UInt16 := 1

/-- `VRING_DESC_F_WRITE`. -/
def vringDescFWrite : UInt16 := 2

/-- `struct vring_desc`. -/
structure VringDesc where
  addr : UInt64
  len : UInt32
  flags : UInt16
  next : UInt16

/-- The shared ring as one read sees it: `avail->idx`, `avail->ring`, the
descriptor table and `used->idx`. -/
structure RingView where
  availIdx : UInt16
  availRing : Nat → UInt16
  desc : Nat → VringDesc
  usedIdx : UInt16

/-- What the non-secure side shows to the `n`-th read of the ring. -/
abbrev Shared := Nat → RingView

/-- The secure side's fields of `struct vqueue`: `vring.num`, whether
`vring_addr` is set, and `last_avail_idx`. -/
structure Vqueue where
  num : UInt32
  mapped : Bool
  lastAvailIdx : UInt16

/-- `struct vqueue_iovs` (on a 64-bit build): room for `cnt` iovs, `used` of
them filled, their total `len`, and the `iovs[i].len` and `phys[i]` filled. -/
structure VqueueIovs where
  cnt : Nat
  used : Nat
  len : UInt64
  lens : Nat → UInt32
  phys : Nat → UInt64

/-- `struct vqueue_buf`. -/
structure VqueueBuf where
  head : UInt16
  inIovs : VqueueIovs
  outIovs : VqueueIovs

/-- `iovlist`: the out iovs for a descriptor marked `VRING_DESC_F_WRITE`,
else the in iovs. -/
def VqueueBuf.iovs (b : VqueueBuf) (write : Bool) : VqueueIovs :=
  if write then b.outIovs else b.inIovs

/-- The buffer with `iovlist` replaced. -/
def VqueueBuf.setIovs (b : VqueueBuf) (write : Bool) (l : VqueueIovs) : VqueueBuf :=
  if write then { b with outIovs := l } else { b with inIovs := l }

/-- The iov a descriptor fills: `iovs[used].len`, `phys[used]`, `used++`, and
`len += desc->len`, a second read of the length. -/
def VqueueIovs.push (l : VqueueIovs) (len : UInt32) (addr : UInt64) (len' : UInt32) : VqueueIovs :=
  ⟨l.cnt, l.used + 1, l.len + len'.toUInt64, Function.update l.lens l.used len,
    Function.update l.phys l.used addr⟩

/-- The iovs a buffer has left: what bounds the descriptor loop. -/
def VqueueBuf.room (b : VqueueBuf) : Nat :=
  (b.inIovs.cnt - b.inIovs.used) + (b.outIovs.cnt - b.outIovs.used)

theorem VqueueBuf.room_push {b : VqueueBuf} {write : Bool}
    (h : (b.iovs write).used < (b.iovs write).cnt) (len : UInt32) (addr : UInt64) (len' : UInt32) :
    (b.setIovs write ((b.iovs write).push len addr len')).room < b.room := by
  cases write
  · simp only [VqueueBuf.iovs, VqueueBuf.setIovs, VqueueIovs.push, VqueueBuf.room,
      Bool.false_eq_true, ↓reduceIte] at h ⊢
    omega
  · simp only [VqueueBuf.iovs, VqueueBuf.setIovs, VqueueIovs.push, VqueueBuf.room, ↓reduceIte] at h ⊢
    omega

/-- One pass of the descriptor loop: an index out of range, a descriptor
with no iov left for it, or a descriptor taken, with what was read of it. -/
inductive Pass
  | outOfRange (i : Nat)
  | full (i : Nat) (write : Bool)
  | took (i : Nat) (write : Bool) (len : UInt32) (addr : UInt64) (next : UInt16)

/-- The `do ... while (desc->flags & VRING_DESC_F_NEXT)` loop from
`next_idx`, after `t` reads of the ring: the status, the buffer, the reads
made, and the passes.  Each read of `desc[i]` is a read of its own. -/
def walkChain (num : UInt32) (sh : Shared) (nextIdx : UInt16) (t : Nat) (b : VqueueBuf) :
    Int × VqueueBuf × Nat × List Pass :=
  if num.toNat ≤ nextIdx.toNat then (errNotValid, b, t, [.outOfRange nextIdx.toNat])
  else
    let i := nextIdx.toNat
    let write := ((sh t).desc i).flags &&& vringDescFWrite != 0
    if h : (b.iovs write).used < (b.iovs write).cnt then
      let len := ((sh (t + 1)).desc i).len
      let addr := ((sh (t + 2)).desc i).addr
      let b' := b.setIovs write ((b.iovs write).push len addr ((sh (t + 3)).desc i).len)
      let next := ((sh (t + 4)).desc i).next
      if ((sh (t + 5)).desc i).flags &&& vringDescFNext != 0 then
        let r := walkChain num sh next (t + 6) b'
        (r.1, r.2.1, r.2.2.1, .took i write len addr next :: r.2.2.2)
      else (0, b', t + 6, [.took i write len addr next])
    else (errTooBig, b, t + 1, [.full i write])
termination_by b.room
decreasing_by exact VqueueBuf.room_push h _ _ _

/-- How a call of `_vqueue_get_avail_buf_locked` ends: returned, with the
status, the queue, the buffer, the reads made and the passes of its loop; one
of its two panics; or the undefined `% 0`. -/
inductive GetOutcome
  | returned (ret : Int) (vq : Vqueue) (buf : VqueueBuf) (t : Nat) (passes : List Pass)
  | panicked
  | undefined

/-- The buffer as the loop starts it: its head set and both iov lists empty. -/
def VqueueBuf.start (b : VqueueBuf) (head : UInt16) : VqueueBuf :=
  ⟨head, { b.inIovs with used := 0, len := 0 }, { b.outIovs with used := 0, len := 0 }⟩

/-- `_vqueue_get_avail_buf_locked(vq, iovbuf)` after `t` reads of the ring. -/
def vqueueGetAvailBuf (vq : Vqueue) (sh : Shared) (t : Nat) (b : VqueueBuf) : GetOutcome :=
  if !vq.mapped then .returned errChannelClosed vq b t []
  -- `avail_cnt > (uint16_t) vq->vring.num`
  else if vq.num.toUInt16 < (sh t).availIdx - vq.lastAvailIdx then .panicked
  else if vq.lastAvailIdx = (sh (t + 1)).availIdx ∧ vq.lastAvailIdx = (sh (t + 2)).availIdx then
    .returned errNotEnoughBuffer vq b (t + 3) []
  else if vq.num = 0 then .undefined
  else
    let nextIdx := (sh (t + 3)).availRing (vq.lastAvailIdx.toNat % vq.num.toNat)
    if vq.num.toNat ≤ nextIdx.toNat then .panicked
    else
      let r := walkChain vq.num sh nextIdx (t + 4) (b.start nextIdx)
      .returned r.1 { vq with lastAvailIdx := vq.lastAvailIdx + 1 } r.2.1 r.2.2.1 r.2.2.2

/-- A write of `_vqueue_add_buf_locked` to the used ring. -/
inductive UsedWrite
  | ring (slot : Nat) (id : UInt32) (len : UInt32)
  | idx (v : UInt16)

/-- `_vqueue_add_buf_locked(vq, buf, len)` after `t` reads of the ring: the
status, the writes made, and the reads made. -/
def vqueueAddBuf (vq : Vqueue) (sh : Shared) (t : Nat) (b : VqueueBuf) (len : UInt32) :
    Int × List UsedWrite × Nat :=
  if !vq.mapped then (errChannelClosed, [], t)
  else if vq.num.toNat ≤ b.head.toNat then (errNotValid, [], t)
  -- `head < vring.num`, so `used->idx % vring.num` is defined
  else (0, [.ring ((sh t).usedIdx.toNat % vq.num.toNat) b.head.toUInt32 len,
    .idx ((sh (t + 1)).usedIdx + 1)], t + 2)

/-- The RX thread of `tipc_dev.c`: its queue, its one buffer, the reads of
the ring so far, and whether it is still in its loop. -/
structure RxState where
  vq : Vqueue
  buf : VqueueBuf
  t : Nat
  running : Bool

/-- What a pass of the RX loop gets from the rest of the system: whether
`rx_stop` is set, and what `handle_rx_msg` returns. -/
structure RxInput where
  stop : Bool
  handled : Int

/-- What the RX thread does to the ring: an avail entry taken, or a write to
the used ring. -/
inductive RxEvent
  | consumed (head : UInt16)
  | used (w : UsedWrite)

/-- `MAX_RX_IOVS`. -/
def maxRxIovs : Nat := 1

/-- The RX thread as `tipc_rx_thread_func` starts it: its buffer zeroed with
room for `MAX_RX_IOVS` in iovs and no out iov. -/
def tipcRxThreadStart (vq : Vqueue) : RxState :=
  ⟨vq, ⟨0, ⟨maxRxIovs, 0, 0, fun _ => 0, fun _ => 0⟩, ⟨0, 0, 0, fun _ => 0, fun _ => 0⟩⟩, 0, true⟩

/-- One pass of the `while (!dev->rx_stop)` loop of `tipc_rx_thread_func`;
`none` for a panic, the undefined `% 0`, or a thread that has left its loop. -/
def tipcRxThreadStep (sh : Shared) (s : RxState) (inp : RxInput) : Option (RxState × List RxEvent) :=
  if !s.running then none
  else if inp.stop then some ({ s with running := false }, [])
  else
    match vqueueGetAvailBuf s.vq sh s.t s.buf with
    | .returned ret vq buf t _ =>
      if ret = errChannelClosed then some (⟨vq, buf, t, false⟩, [])
      else if ret = errNotEnoughBuffer then some (⟨vq, buf, t, true⟩, [])
      else
        let a := vqueueAddBuf vq sh t buf (UInt32.ofInt (if ret = 0 then inp.handled else ret))
        let o := .consumed buf.head :: a.2.1.map .used
        if a.1 = errChannelClosed then some (⟨vq, buf, a.2.2, false⟩, o)
        else if a.1 ≠ 0 then none
        else some (⟨vq, buf, a.2.2, true⟩, o)
    | _ => none

/-! ## Buffers -/

section Buffers

variable (b : VqueueBuf) (write : Bool) (l : VqueueIovs)

@[simp] theorem VqueueBuf.inIovs_setIovs :
    (b.setIovs write l).inIovs = if write then b.inIovs else l := by
  cases write <;> rfl

@[simp] theorem VqueueBuf.outIovs_setIovs :
    (b.setIovs write l).outIovs = if write then l else b.outIovs := by
  cases write <;> rfl

@[simp] theorem VqueueBuf.head_setIovs : (b.setIovs write l).head = b.head := by
  cases write <;> rfl

@[simp] theorem VqueueIovs.cnt_push (len : UInt32) (addr : UInt64) (len' : UInt32) :
    (l.push len addr len').cnt = l.cnt := rfl

@[simp] theorem VqueueIovs.used_push (len : UInt32) (addr : UInt64) (len' : UInt32) :
    (l.push len addr len').used = l.used + 1 := rfl

/-- The iovs filled so far, in order: `(iovs[j].len, phys[j])` for `j < used`. -/
def VqueueIovs.entries : List (UInt32 × UInt64) :=
  (List.range l.used).map fun j => (l.lens j, l.phys j)

@[simp] theorem VqueueIovs.entries_push (len : UInt32) (addr : UInt64) (len' : UInt32) :
    (l.push len addr len').entries = l.entries ++ [(len, addr)] := by
  unfold VqueueIovs.entries
  rw [VqueueIovs.used_push, List.range_succ, List.map_append]
  -- the slots below `used` keep what they held
  congr 1
  · refine List.map_congr_left fun j hj => ?_
    have hne : j ≠ l.used := (List.mem_range.mp hj).ne
    simp [VqueueIovs.push, Function.update_of_ne hne]
  · simp [VqueueIovs.push]

@[simp] theorem VqueueBuf.head_start (h : UInt16) : (b.start h).head = h := rfl

@[simp] theorem VqueueBuf.inIovs_start (h : UInt16) :
    (b.start h).inIovs = { b.inIovs with used := 0, len := 0 } := rfl

@[simp] theorem VqueueBuf.outIovs_start (h : UInt16) :
    (b.start h).outIovs = { b.outIovs with used := 0, len := 0 } := rfl

@[simp] theorem VqueueBuf.room_start (h : UInt16) :
    (b.start h).room = b.inIovs.cnt + b.outIovs.cnt := by
  simp [VqueueBuf.room]

@[simp] theorem VqueueIovs.entries_of_used_zero (len : UInt64) :
    ({ l with used := 0, len := len } : VqueueIovs).entries = [] := rfl

end Buffers

/-! ## Passes -/

/-- The descriptor a pass reads, if any. -/
def Pass.descIdx : Pass → Option Nat
  | .outOfRange _ => none
  | .full i _ => some i
  | .took i _ _ _ _ => some i

/-- The iov a pass fills in the out iovs (`write`) or the in iovs. -/
def Pass.iov (write : Bool) : Pass → Option (UInt32 × UInt64)
  | .took _ w len addr _ => if w = write then some (len, addr) else none
  | _ => none

/-- The passes follow the chain from `head`: each visits the index the pass
before read as `next`, and only a descriptor taken lets the loop go on. -/
def Follows : UInt16 → List Pass → Prop
  | _, [] => True
  | h, .took i _ _ _ n :: rest => i = h.toNat ∧ Follows n rest
  | h, .full i _ :: rest => i = h.toNat ∧ rest = []
  | h, .outOfRange i :: rest => i = h.toNat ∧ rest = []

/-- What the descriptor loop from `nextIdx` on buffer `b` did, in result `r`:
at most `room + 1` passes, reads of descriptors below `num` only, the chain
followed from `nextIdx`, one iov filled by each descriptor taken and none past
`cnt`, and one of the loop's three statuses. -/
structure WalkOk (num : UInt32) (nextIdx : UInt16) (b : VqueueBuf)
    (r : Int × VqueueBuf × Nat × List Pass) : Prop where
  passes_le : r.2.2.2.length ≤ b.room + 1
  reads_lt : ∀ p ∈ r.2.2.2, ∀ i, p.descIdx = some i → i < num.toNat
  follows : Follows nextIdx r.2.2.2
  inEntries : r.2.1.inIovs.entries = b.inIovs.entries ++ r.2.2.2.filterMap (Pass.iov false)
  outEntries : r.2.1.outIovs.entries = b.outIovs.entries ++ r.2.2.2.filterMap (Pass.iov true)
  inCnt : r.2.1.inIovs.cnt = b.inIovs.cnt
  outCnt : r.2.1.outIovs.cnt = b.outIovs.cnt
  inUsed : b.inIovs.used ≤ b.inIovs.cnt → r.2.1.inIovs.used ≤ b.inIovs.cnt
  outUsed : b.outIovs.used ≤ b.outIovs.cnt → r.2.1.outIovs.used ≤ b.outIovs.cnt
  head : r.2.1.head = b.head
  status : r.1 = 0 ∨ r.1 = errNotValid ∨ r.1 = errTooBig

section WalkOk

variable {num : UInt32} {h : UInt16} {b : VqueueBuf}

/-- A loop that stops here has done nothing more. -/
theorem WalkOk.done (t : Nat) : WalkOk num h b (0, b, t, []) where
  passes_le := Nat.zero_le _
  reads_lt := fun _ hp => by cases hp
  follows := trivial
  inEntries := by simp
  outEntries := by simp
  inCnt := rfl
  outCnt := rfl
  inUsed := id
  outUsed := id
  head := rfl
  status := .inl rfl

/-- A chain index out of range: `ERR_NOT_VALID`, no descriptor read. -/
theorem WalkOk.outOfRange (t : Nat) : WalkOk num h b (errNotValid, b, t, [.outOfRange h.toNat]) where
  passes_le := by simp
  reads_lt := fun p hp i hi => by
    rw [List.mem_singleton] at hp
    subst hp
    cases hi
  follows := ⟨rfl, rfl⟩
  inEntries := by simp [Pass.iov]
  outEntries := by simp [Pass.iov]
  inCnt := rfl
  outCnt := rfl
  inUsed := id
  outUsed := id
  head := rfl
  status := .inr (.inl rfl)

/-- A descriptor with no iov left for it: `ERR_TOO_BIG`, nothing filled. -/
theorem WalkOk.full (hi : ¬num.toNat ≤ h.toNat) (write : Bool) (t : Nat) :
    WalkOk num h b (errTooBig, b, t, [.full h.toNat write]) where
  passes_le := by simp
  reads_lt := fun p hp i hpi => by
    rw [List.mem_singleton] at hp
    subst hp
    cases hpi
    omega
  follows := ⟨rfl, rfl⟩
  inEntries := by simp [Pass.iov]
  outEntries := by simp [Pass.iov]
  inCnt := rfl
  outCnt := rfl
  inUsed := id
  outUsed := id
  head := rfl
  status := .inr (.inr rfl)

/-- A descriptor taken: one iov filled from what this pass read, and the loop
goes on from `next` with one iov less. -/
theorem WalkOk.took {write : Bool} {len : UInt32} {addr : UInt64} {len' : UInt32} {next : UInt16}
    {r : Int × VqueueBuf × Nat × List Pass} (hi : ¬num.toNat ≤ h.toNat)
    (hroom : (b.iovs write).used < (b.iovs write).cnt)
    (hr : WalkOk num next (b.setIovs write ((b.iovs write).push len addr len')) r) :
    WalkOk num h b (r.1, r.2.1, r.2.2.1, .took h.toNat write len addr next :: r.2.2.2) := by
  have hlt := VqueueBuf.room_push hroom len addr len'
  have hinCnt : (b.setIovs write ((b.iovs write).push len addr len')).inIovs.cnt = b.inIovs.cnt := by
    cases write <;> simp [VqueueBuf.iovs]
  have houtCnt : (b.setIovs write ((b.iovs write).push len addr len')).outIovs.cnt = b.outIovs.cnt := by
    cases write <;> simp [VqueueBuf.iovs]
  refine ⟨?_, ?_, ⟨rfl, hr.follows⟩, ?_, ?_, hr.inCnt.trans hinCnt, hr.outCnt.trans houtCnt,
    fun hle => ?_, fun hle => ?_, by rw [hr.head, VqueueBuf.head_setIovs], hr.status⟩
  · have := hr.passes_le
    simp only [List.length_cons]
    omega
  · intro p hp i hpi
    rcases List.mem_cons.mp hp with rfl | hp
    · cases hpi
      omega
    · exact hr.reads_lt p hp i hpi
  · rw [hr.inEntries]
    cases write <;> simp [VqueueBuf.iovs, Pass.iov]
  · rw [hr.outEntries]
    cases write <;> simp [VqueueBuf.iovs, Pass.iov]
  · -- the in iovs gain one only when there was room for it
    rw [← hinCnt]
    refine hr.inUsed ?_
    cases write <;> simp [VqueueBuf.iovs] at hroom ⊢ <;> omega
  · rw [← houtCnt]
    refine hr.outUsed ?_
    cases write <;> simp [VqueueBuf.iovs] at hroom ⊢ <;> omega

end WalkOk

/-- The descriptor loop, whatever the ring shows it. -/
theorem walkChain_ok (num : UInt32) (sh : Shared) (nextIdx : UInt16) (t : Nat) (b : VqueueBuf) :
    WalkOk num nextIdx b (walkChain num sh nextIdx t b) := by
  fun_induction walkChain num sh nextIdx t b with
  | case1 _ t _ _ => exact WalkOk.outOfRange t
  | case2 _ _ _ hi _ _ hroom _ _ _ _ _ _ ih => exact ih.took hi hroom
  | case3 _ t _ hi _ _ hroom _ _ _ _ _ => exact (WalkOk.done (t + 6)).took hi hroom
  | case4 _ t _ hi _ write _ => exact WalkOk.full hi write (t + 1)

/-! ## `vqueue_get_avail_buf` and `vqueue_add_buf` -/

/-- What a call that took an entry off the avail ring left: `last_avail_idx`
one on, a head below `vring.num`, the passes of the chain from it, each iov
filled by one of them and none past `cnt`, and one of three statuses. -/
structure Took (vq vq' : Vqueue) (b b' : VqueueBuf) (ret : Int) (passes : List Pass) : Prop where
  advanced : vq' = { vq with lastAvailIdx := vq.lastAvailIdx + 1 }
  head_lt : b'.head.toNat < vq.num.toNat
  follows : Follows b'.head passes
  inEntries : b'.inIovs.entries = passes.filterMap (Pass.iov false)
  outEntries : b'.outIovs.entries = passes.filterMap (Pass.iov true)
  inUsed : b'.inIovs.used ≤ b.inIovs.cnt
  outUsed : b'.outIovs.used ≤ b.outIovs.cnt
  status : ret = 0 ∨ ret = errNotValid ∨ ret = errTooBig

/-- A call of `vqueue_get_avail_buf` that returns, whatever the ring shows it:
at most `in_iovs.cnt + out_iovs.cnt + 1` passes, descriptors read only below
`vring.num`; `ERR_CHANNEL_CLOSED` with no ring, `ERR_NOT_ENOUGH_BUFFER` when
both reads of `avail->idx` show nothing new, and otherwise one entry taken. -/
theorem vqueueGetAvailBuf_returned {vq vq' : Vqueue} {sh : Shared} {t t' : Nat}
    {b b' : VqueueBuf} {ret : Int} {passes : List Pass}
    (hr : vqueueGetAvailBuf vq sh t b = .returned ret vq' b' t' passes) :
    passes.length ≤ b.inIovs.cnt + b.outIovs.cnt + 1 ∧
    (∀ p ∈ passes, ∀ i, p.descIdx = some i → i < vq.num.toNat) ∧
    ((ret = errChannelClosed ∧ vq.mapped = false ∧ vq' = vq ∧ passes = []) ∨
      (ret = errNotEnoughBuffer ∧ vq' = vq ∧ passes = [] ∧
        vq.lastAvailIdx = (sh (t + 1)).availIdx ∧ vq.lastAvailIdx = (sh (t + 2)).availIdx) ∨
      (vq.mapped = true ∧
        ¬(vq.lastAvailIdx = (sh (t + 1)).availIdx ∧ vq.lastAvailIdx = (sh (t + 2)).availIdx) ∧
        b'.head = (sh (t + 3)).availRing (vq.lastAvailIdx.toNat % vq.num.toNat) ∧
        Took vq vq' b b' ret passes)) := by
  unfold vqueueGetAvailBuf at hr
  cases hmap : vq.mapped with
  | false =>
    rw [hmap] at hr
    cases hr
    exact ⟨by simp, by simp, .inl ⟨rfl, rfl, rfl, rfl⟩⟩
  | true =>
    rw [hmap] at hr
    simp only [Bool.not_true, Bool.false_eq_true, ↓reduceIte] at hr
    by_cases hcnt : vq.num.toUInt16 < (sh t).availIdx - vq.lastAvailIdx
    · rw [if_pos hcnt] at hr
      cases hr
    rw [if_neg hcnt] at hr
    by_cases hnone : vq.lastAvailIdx = (sh (t + 1)).availIdx ∧ vq.lastAvailIdx = (sh (t + 2)).availIdx
    · rw [if_pos hnone] at hr
      cases hr
      exact ⟨by simp, by simp, .inr (.inl ⟨rfl, rfl, rfl, hnone⟩)⟩
    rw [if_neg hnone] at hr
    by_cases hzero : vq.num = 0
    · rw [if_pos hzero] at hr
      cases hr
    rw [if_neg hzero] at hr
    set nextIdx := (sh (t + 3)).availRing (vq.lastAvailIdx.toNat % vq.num.toNat) with hnext
    by_cases hhead : vq.num.toNat ≤ nextIdx.toNat
    · rw [if_pos hhead] at hr
      cases hr
    rw [if_neg hhead] at hr
    cases hr
    -- the loop ran on the started buffer
    have hw := walkChain_ok vq.num sh nextIdx (t + 4) (b.start nextIdx)
    have hhead' := hw.head
    rw [VqueueBuf.head_start] at hhead'
    refine ⟨by simpa using hw.passes_le, hw.reads_lt, .inr (.inr ⟨rfl, hnone, hhead', ?_⟩)⟩
    refine ⟨by rw [hmap], by rw [hhead']; omega, by rw [hhead']; exact hw.follows, by simpa using hw.inEntries,
      by simpa using hw.outEntries, ?_, ?_, hw.status⟩
    · simpa using hw.inUsed (by simp)
    · simpa using hw.outUsed (by simp)

/-- A one-entry ring holding a single read-only descriptor: the call takes
it, in at most two passes. -/
theorem vqueueGetAvailBuf_returned_one : ∃ ret vq' b' t' passes,
    vqueueGetAvailBuf ⟨1, true, 0⟩ (fun _ => ⟨1, fun _ => 0, fun _ => ⟨4096, 64, 0, 0⟩, 0⟩) 0
      (tipcRxThreadStart ⟨1, true, 0⟩).buf = .returned ret vq' b' t' passes ∧ passes.length ≤ 1 + 0 + 1 := by
  cases h : vqueueGetAvailBuf ⟨1, true, 0⟩ (fun _ => ⟨1, fun _ => 0, fun _ => ⟨4096, 64, 0, 0⟩, 0⟩) 0
      (tipcRxThreadStart ⟨1, true, 0⟩).buf with
  | returned ret vq' b' t' passes => exact ⟨ret, vq', b', t', passes, rfl, (vqueueGetAvailBuf_returned h).1⟩
  | panicked => simp [vqueueGetAvailBuf] at h
  | undefined => simp [vqueueGetAvailBuf] at h

/-- `vring.num` comes from the non-secure side's descriptor and is never
checked.  For a multiple of `65536` the availability check compares with
`(uint16_t) vring.num = 0` and panics on a single new entry; for `0` a ring
whose `avail->idx` moves between the first two reads makes the call compute
`last_avail_idx % 0`. -/
theorem vqueueGetAvailBuf_num_unchecked (vq : Vqueue) (b : VqueueBuf) (t : Nat)
    (hmap : vq.mapped = true) (hwrap : vq.num.toUInt16 = 0) :
    (∀ sh : Shared, (sh t).availIdx = vq.lastAvailIdx + 1 → vqueueGetAvailBuf vq sh t b = .panicked) ∧
    (vq.num = 0 → ∃ sh : Shared, vqueueGetAvailBuf vq sh t b = .undefined) := by
  have hne : vq.lastAvailIdx ≠ vq.lastAvailIdx + 1 := by
    intro h
    have := congrArg (· - vq.lastAvailIdx) h
    simp at this
  refine ⟨fun sh hsh => ?_, fun hzero => ?_⟩
  · have hcnt : vq.num.toUInt16 < (sh t).availIdx - vq.lastAvailIdx := by
      rw [hwrap, hsh, add_sub_cancel_left]
      decide
    simp [vqueueGetAvailBuf, hmap, hcnt]
  · -- `avail->idx` reads `last_avail_idx`, then one more
    let view : UInt16 → RingView := fun idx => ⟨idx, fun _ => 0, fun _ => ⟨0, 0, 0, 0⟩, 0⟩
    refine ⟨fun n => if n = t + 1 then view (vq.lastAvailIdx + 1) else view vq.lastAvailIdx, ?_⟩
    simp [vqueueGetAvailBuf, hmap, hzero, view, hne]

/-- A ring of zero entries, and an entry posted between the first two reads
of `avail->idx`: the call divides by zero. -/
theorem vqueueGetAvailBuf_num_zero :
    ∃ sh : Shared, vqueueGetAvailBuf ⟨0, true, 0⟩ sh 0 (tipcRxThreadStart ⟨0, true, 0⟩).buf = .undefined :=
  (vqueueGetAvailBuf_num_unchecked ⟨0, true, 0⟩ _ 0 rfl rfl).2 rfl

/-- `vqueue_add_buf` of a head below `vring.num` on a mapped queue: the head
and length go to `used->ring[used->idx % num]` for the `used->idx` it reads,
then `used->idx` is set one past a second read. -/
theorem vqueueAddBuf_publishes {vq : Vqueue} {b : VqueueBuf} (sh : Shared) (t : Nat) (len : UInt32)
    (hmap : vq.mapped = true) (hhead : b.head.toNat < vq.num.toNat) :
    vqueueAddBuf vq sh t b len = (0, [.ring ((sh t).usedIdx.toNat % vq.num.toNat) b.head.toUInt32 len,
      .idx ((sh (t + 1)).usedIdx + 1)], t + 2) := by
  simp [vqueueAddBuf, hmap, not_le.mpr hhead]

/-! ## The RX thread -/

/-- What a pass of the RX loop does to the ring: nothing, or one entry taken
and its head published back at once, at `used->ring[used->idx % num]` for
the `used->idx` of the `t`-th read, then `used->idx` written one past the
next read. -/
theorem tipcRxThreadStep_cases {sh : Shared} {s s' : RxState} {inp : RxInput} {o : List RxEvent}
    (hs : tipcRxThreadStep sh s inp = some (s', o)) :
    s'.vq.num = s.vq.num ∧
    ((o = [] ∧ s'.vq.lastAvailIdx = s.vq.lastAvailIdx) ∨
      ∃ h t len, o = [.consumed h, .used (.ring ((sh t).usedIdx.toNat % s.vq.num.toNat) h.toUInt32 len),
          .used (.idx ((sh (t + 1)).usedIdx + 1))] ∧
        h.toNat < s.vq.num.toNat ∧ s'.vq.lastAvailIdx = s.vq.lastAvailIdx + 1) := by
  unfold tipcRxThreadStep at hs
  cases hrun : s.running with
  | false =>
    rw [hrun] at hs
    cases hs
  | true =>
    rw [hrun] at hs
    simp only [Bool.not_true, Bool.false_eq_true, ↓reduceIte] at hs
    by_cases hstop : inp.stop = true
    · rw [if_pos hstop] at hs
      cases hs
      exact ⟨rfl, .inl ⟨rfl, rfl⟩⟩
    rw [if_neg hstop] at hs
    cases hg : vqueueGetAvailBuf s.vq sh s.t s.buf with
    | panicked =>
      rw [hg] at hs
      cases hs
    | undefined =>
      rw [hg] at hs
      cases hs
    | returned ret vq buf t passes =>
      rw [hg] at hs
      dsimp only at hs
      obtain ⟨-, -, hclosed | hnone | ⟨hmap, -, -, htook⟩⟩ := vqueueGetAvailBuf_returned hg
      · obtain ⟨rfl, -, rfl, -⟩ := hclosed
        rw [if_pos rfl] at hs
        cases hs
        exact ⟨rfl, .inl ⟨rfl, rfl⟩⟩
      · obtain ⟨rfl, rfl, -⟩ := hnone
        rw [if_neg (by decide), if_pos rfl] at hs
        cases hs
        exact ⟨rfl, .inl ⟨rfl, rfl⟩⟩
      · -- an entry taken: `vqueue_add_buf` hands its head back
        have hret : ret ≠ errChannelClosed ∧ ret ≠ errNotEnoughBuffer := by
          rcases htook.status with rfl | rfl | rfl <;> decide
        rw [if_neg hret.1, if_neg hret.2] at hs
        obtain rfl := htook.advanced
        have hmap' : ({ s.vq with lastAvailIdx := s.vq.lastAvailIdx + 1 } : Vqueue).mapped = true := hmap
        rw [vqueueAddBuf_publishes sh t _ hmap' htook.head_lt] at hs
        simp only [show (0 : Int) ≠ errChannelClosed by decide, ne_eq, not_true_eq_false,
          ↓reduceIte, Option.some.injEq, Prod.mk.injEq, List.map_cons, List.map_nil] at hs
        obtain ⟨rfl, rfl⟩ := hs
        exact ⟨rfl, .inr ⟨buf.head, t, _, rfl, htook.head_lt, rfl⟩⟩

/-- What a run of the RX thread did to the ring, from `s₀`: the entries it took,
each with the reads before its `vqueue_add_buf` and the length it handed
back. -/
def RxPublished (sh : Shared) (s₀ : RxState) (taken : List (UInt16 × Nat × UInt32)) :
    List RxEvent :=
  taken.flatMap fun x =>
    [.consumed x.1, .used (.ring ((sh x.2.1).usedIdx.toNat % s₀.vq.num.toNat) x.1.toUInt32 x.2.2),
      .used (.idx ((sh (x.2.1 + 1)).usedIdx + 1))]

/-- Every run of the RX thread, from any state and whatever the ring shows
it: what it does to the ring is a sequence of entries taken, each followed at
once by one publication of its head at `used->ring[used->idx % num]`, a slot
below `vring.num`, for the `used->idx` its `vqueue_add_buf` read, and then by
the write of `used->idx` one past what the increment read; `last_avail_idx`
has moved on by the number taken. -/
theorem tipcRxThread_returns_each (sh : Shared) {s₀ s : RxState} {ins : List RxInput}
    {out : List RxEvent} (hrun : LTS.Run (tipcRxThreadStep sh) s₀ ins out s) :
    ∃ taken : List (UInt16 × Nat × UInt32),
      out = RxPublished sh s₀ taken ∧
      (∀ x ∈ taken, x.1.toNat < s₀.vq.num.toNat ∧
        (sh x.2.1).usedIdx.toNat % s₀.vq.num.toNat < s₀.vq.num.toNat) ∧
      s.vq.num = s₀.vq.num ∧
      s.vq.lastAvailIdx.toNat = (s₀.vq.lastAvailIdx.toNat + taken.length) % 65536 := by
  refine hrun.induction (P := fun s out => ∃ taken : List (UInt16 × Nat × UInt32),
      out = RxPublished sh s₀ taken ∧
      (∀ x ∈ taken, x.1.toNat < s₀.vq.num.toNat ∧
        (sh x.2.1).usedIdx.toNat % s₀.vq.num.toNat < s₀.vq.num.toNat) ∧
      s.vq.num = s₀.vq.num ∧
      s.vq.lastAvailIdx.toNat = (s₀.vq.lastAvailIdx.toNat + taken.length) % 65536)
    ⟨[], rfl, by simp, rfl, by simp [Nat.mod_eq_of_lt s₀.vq.lastAvailIdx.toNat_lt]⟩ ?_
  intro u u' out' a o ⟨taken, hout, hlt, hnum, hidx⟩ hstep
  obtain ⟨hnum', hnil | ⟨h, t, len, rfl, hh, hadv⟩⟩ := tipcRxThreadStep_cases hstep
  · obtain ⟨rfl, hsame⟩ := hnil
    exact ⟨taken, by rw [hout, List.append_nil], hlt, hnum'.trans hnum, hsame ▸ hidx⟩
  · -- one more entry taken and handed back, `vring.num` as at the start
    refine ⟨taken ++ [(h, t, len)], by simp [hout, RxPublished, hnum], fun x hx => ?_,
      hnum'.trans hnum, ?_⟩
    · rcases List.mem_append.mp hx with hx | hx
      · exact hlt x hx
      · rw [List.mem_singleton] at hx
        subst hx
        rw [← hnum]
        exact ⟨hh, Nat.mod_lt _ (by omega)⟩
    · rw [hadv, UInt16.toNat_add, hidx, List.length_append, List.length_singleton]
      simp only [UInt16.toNat_one]
      omega

/-- A one-entry ring and one pass of the RX loop. -/
theorem tipcRxThread_returns_each_one :
    ∃ out s, LTS.Run (tipcRxThreadStep (fun _ => ⟨1, fun _ => 0, fun _ => ⟨4096, 64, 0, 0⟩, 0⟩))
        (tipcRxThreadStart ⟨1, true, 0⟩) [⟨false, 0⟩] out s ∧
      ∃ taken, out = RxPublished (fun _ => ⟨1, fun _ => 0, fun _ => ⟨4096, 64, 0, 0⟩, 0⟩)
        (tipcRxThreadStart ⟨1, true, 0⟩) taken := by
  obtain ⟨⟨s, out⟩, hstep⟩ : ∃ r, tipcRxThreadStep (fun _ => ⟨1, fun _ => 0, fun _ => ⟨4096, 64, 0, 0⟩, 0⟩)
      (tipcRxThreadStart ⟨1, true, 0⟩) ⟨false, 0⟩ = some r :=
    Option.isSome_iff_exists.mp (by simp [tipcRxThreadStep, tipcRxThreadStart, vqueueGetAvailBuf,
      walkChain, vqueueAddBuf, maxRxIovs, VqueueBuf.iovs, errChannelClosed, errNotEnoughBuffer])
  have hrun := LTS.Run.snoc LTS.Run.nil hstep
  rw [List.nil_append, List.nil_append] at hrun
  obtain ⟨taken, hout, -⟩ := tipcRxThread_returns_each _ hrun
  exact ⟨out, s, hrun, taken, hout⟩

end Virtio
