import Mathlib
import Trusty.Lib.Bitmap
import Trusty.Lib.Trace
import Trusty.Ipc.Iovec
import Trusty.Ipc.Uctx
import Trusty.Virtio.Vqueue

/-!
# `tipc_dev.c`: messages from the non-secure side

The RX thread of a TIPC virtio device takes a buffer off the RX queue and
hands it to `handle_rx_msg`.  Everything in the buffer is the non-secure
side's: the number of iovs and their lengths, the `struct tipc_hdr` with
`src`, `dst` and `len`, and for the control address the message `type`,
`body_len` and body.  A data message goes to the channel of an endpoint of
the device's table (`epts`, `inuse`); a `CONN_REQ` opens a channel and binds
it to a new endpoint; a `DISC_REQ` closes one.

The buffer's bytes are `mem`, from the base of its first in iov.  The code
reads each field of it once, so a fixed `mem` stands for every value the
other side may write meanwhile.  What the rest of the kernel answers (the
mapping of the iovs, `ipc_port_connect_async`, `ipc_send_msg`, the send of a
`CONN_RSP`) is the environment `RxEnv`; what the device does to it is the
list of `Effect`s.  Handle cookies and the TX thread are not modelled.

* `handleRxMsg`: `handle_rx_msg`, with `handleCtrlMsg`, `handleChanMsg`,
  `handleConnReq` and `handleDiscReq`; `none` for a failed `DEBUG_ASSERT` of
  the handle list.
* `parseRx` and `RxSpec`: the wire format, and what the device is to do with
  each message it can hold.
* `Inv`: a slot is in use exactly when it holds a channel, and the handle
  list holds exactly the endpoints' channels, each in one slot.
* `tipc_rx_robust`: in every reachable state, for every buffer, the outcome
  depends only on the bytes inside the first iov and is the one `RxSpec`
  gives, and the call fails only on a channel the kernel handed out twice.
-/

namespace Tipc

open Ipc (HandleList handleListAdd handleListDel handleListAdd_eq handleListDel_eq errInvalidArgs
  errNoResources errNotFound)
open Virtio (VqueueBuf errNotValid)

/-! ## The model -/

/-- `TIPC_CTRL_ADDR`. -/
def tipcCtrlAddr : UInt32 := 53

/-- `TIPC_ADDR_MAX_NUM`. -/
def tipcAddrMaxNum : Nat := 256

/-- `TIPC_ADDR_BASE`. -/
def tipcAddrBase : UInt32 := 1000

/-- `TIPC_MAX_SRV_NAME_LEN`. -/
def tipcMaxSrvNameLen : Nat := 256

/-- `sizeof(struct tipc_hdr)`: `src`, `dst`, `reserved`, `len`, `flags`. -/
def tipcHdrSize : Nat := 16

/-- `sizeof(struct tipc_ctrl_msg_hdr)`: `type`, `body_len`. -/
def ctrlMsgHdrSize : Nat := 8

/-- `sizeof(struct tipc_conn_req_body)`. -/
def connReqBodySize : Nat := tipcMaxSrvNameLen

/-- `sizeof(struct tipc_disc_req_body)`. -/
def discReqBodySize : Nat := 4

/-- `TIPC_CTRL_MSGTYPE_CONN_REQ`. -/
def tipcCtrlMsgtypeConnReq : UInt32 := 3

/-- `TIPC_CTRL_MSGTYPE_DISC_REQ`. -/
def tipcCtrlMsgtypeDiscReq : UInt32 := 5

/-- The little-endian number in `k` bytes at offset `off` of a buffer. -/
def readLe (mem : Nat → UInt8) (off : Nat) : Nat → Nat
  | 0 => 0
  | k + 1 => (mem off).toNat + 256 * readLe mem (off + 1) k

/-- A `uint16_t` field of a buffer. -/
def readU16 (mem : Nat → UInt8) (off : Nat) : UInt16 := (readLe mem off 2).toUInt16

/-- A `uint32_t` field of a buffer. -/
def readU32 (mem : Nat → UInt8) (off : Nat) : UInt32 := (readLe mem off 4).toUInt32

/-- The `len` bytes at offset `off` of a buffer. -/
def readBytes (mem : Nat → UInt8) (off len : Nat) : List UInt8 := (List.range len).map fun i => mem (off + i)

/-- `strncpy(dst, src, n)`: the bytes of `src` before its first NUL, at most
`n`, padded with NULs to `n`. -/
def strncpy (src : List UInt8) (n : Nat) : List UInt8 :=
  let s := (src.take n).takeWhile (· != 0)
  s ++ List.replicate (n - s.length) 0

/-- `struct tipc_ept`: the remote address and the channel (`none` for `NULL`). -/
structure Ept (C : Type) where
  remote : UInt32
  chan : Option C
  deriving DecidableEq

/-- The endpoint table of `struct tipc_dev` and its `handle_list`. -/
structure TipcDev (C : Type) where
  epts : Vector (Ept C) tipcAddrMaxNum
  inuse : BitVec tipcAddrMaxNum
  handleList : HandleList C

variable {C : Type}

/-- The device as `create_tipc_device` allocates it with `calloc`. -/
def TipcDev.init : TipcDev C :=
  ⟨Vector.replicate tipcAddrMaxNum ⟨0, none⟩, 0, ⟨[], List.nodup_nil, none, fun _ => none⟩⟩

/-- `addr_to_slot`: `(uint)(addr - TIPC_ADDR_BASE)`. -/
def addrToSlot (addr : UInt32) : UInt32 := addr - tipcAddrBase

/-- `slot_to_addr`. -/
def slotToAddr (slot : Nat) : UInt32 := slot.toUInt32 + tipcAddrBase

/-- `alloc_local_addr(dev, remote, chan)`: the table with the first free slot
bound, and its address; `0` when none is free.  `none` for a slot past the
array, which `bitmap_ffz` never returns. -/
def allocLocalAddr (dev : TipcDev C) (remote : UInt32) (chan : C) : Option (TipcDev C × UInt32) :=
  let slot := Bitmap.ffz dev.inuse
  if 0 ≤ slot then
    if h : slot.toNat < tipcAddrMaxNum then
      some (⟨dev.epts.set slot.toNat ⟨remote, some chan⟩ h, Bitmap.set dev.inuse slot.toNat,
        dev.handleList⟩, slotToAddr slot.toNat)
    else none
  else some (dev, 0)

/-- `lookup_ept(dev, local)`: the slot of an address, if it is in use. -/
def lookupEpt (dev : TipcDev C) (localAddr : UInt32) : Option (Fin tipcAddrMaxNum) :=
  let slot := addrToSlot localAddr
  if h : slot.toNat < tipcAddrMaxNum then
    if Bitmap.test dev.inuse slot.toNat then some ⟨slot.toNat, h⟩ else none
  else none

/-- `free_local_addr(dev, local)`. -/
def freeLocalAddr (dev : TipcDev C) (localAddr : UInt32) : TipcDev C :=
  let slot := addrToSlot localAddr
  if h : slot.toNat < tipcAddrMaxNum then
    ⟨dev.epts.set slot.toNat ⟨0, none⟩ h, Bitmap.clear dev.inuse slot.toNat, dev.handleList⟩
  else dev

/-- What the rest of the kernel answers to one `handle_rx_msg`:
`vqueue_map_iovs`, `ipc_port_connect_async` for a service name,
`ipc_send_msg` of a message to a channel, and `tipc_send_buf` of a
`CONN_RSP`. -/
structure RxEnv (C : Type) where
  mapIovs : Int
  connect : List UInt8 → Except Int C
  sendMsg : C → List UInt8 → Int
  sendBuf : Int

/-- What the device does outside its table: a connection to a service, a
message sent on a channel, a channel closed, a `CONN_RSP` sent to the other
side with its body `target`, `status`, `remote`, `max_msg_size`,
`max_msg_cnt`. -/
inductive Effect (C : Type)
  | connect (name : List UInt8)
  | sendMsg (chan : C) (data : List UInt8)
  | close (chan : C)
  | connRsp (target status remote maxMsgSize maxMsgCnt : UInt32)
  deriving DecidableEq

/-- `send_conn_rsp(dev, local, remote, ERR_NO_RESOURCES, 0, 0)`. -/
def connRspNoResources (localAddr remote : UInt32) : Effect C :=
  .connRsp remote (UInt32.ofInt errNoResources) localAddr 0 0

/-- `handle_conn_req(dev, remote, ns_req)` with the name copied out of the
request: the table after it, its result, and what it did. -/
def handleConnReq [DecidableEq C] (env : RxEnv C) (dev : TipcDev C) (remote : UInt32) (name : List UInt8) :
    Option (TipcDev C × Int × List (Effect C)) :=
  match env.connect name with
  | .ok chan =>
    (allocLocalAddr dev remote chan).bind fun r =>
      if r.2 = 0 then
        -- no free slot: `handle_close(chan)`, then the response
        some (r.1, env.sendBuf, [.connect name, .close chan, connRspNoResources 0 remote])
      else
        (handleListAdd r.1.handleList chan).map fun hl => ({ r.1 with handleList := hl }, 0, [.connect name])
  | .error _ => some (dev, env.sendBuf, [.connect name, connRspNoResources 0 remote])

/-- The full search of `handle_disc_req`: the first slot in use with remote
`remote`. -/
def findRemote (dev : TipcDev C) (remote : UInt32) : Option (Fin tipcAddrMaxNum) :=
  (List.finRange tipcAddrMaxNum).find? fun slot => Bitmap.test dev.inuse slot && dev.epts[slot].remote == remote

/-- The endpoint `handle_disc_req` picks: the one at `target` if its remote
is `remote`, else the first in use with that remote. -/
def discEpt (dev : TipcDev C) (remote target : UInt32) : Option (Fin tipcAddrMaxNum) :=
  match lookupEpt dev target with
  | some slot => if dev.epts[slot].remote = remote then some slot else findRemote dev remote
  | none => findRemote dev remote

/-- `handle_disc_req(dev, remote, ns_req)` with its `target` read: the
endpoint it picks has its channel taken off the list and closed, and is
freed. -/
def handleDiscReq [DecidableEq C] (dev : TipcDev C) (remote target : UInt32) :
    Option (TipcDev C × Int × List (Effect C)) :=
  match discEpt dev remote target with
  | none => some (dev, 0, [])
  | some slot =>
    match dev.epts[slot].chan with
    | some chan => (handleListDel dev.handleList chan).map fun hl =>
        (freeLocalAddr { dev with handleList := hl } (slotToAddr slot), 0, [.close chan])
    | none => some (freeLocalAddr dev (slotToAddr slot), 0, [])

/-- `handle_ctrl_msg(dev, remote, ns_data, msg_len)`. -/
def handleCtrlMsg [DecidableEq C] (env : RxEnv C) (dev : TipcDev C) (remote : UInt32) (nsData : Nat → UInt8)
    (msgLen : Nat) : Option (TipcDev C × Int × List (Effect C)) :=
  if msgLen < ctrlMsgHdrSize then some (dev, errNotValid, [])
  else
    let msgType := readU32 nsData 0
    let msgBodyLen := (readU32 nsData 4).toNat
    if ctrlMsgHdrSize + msgBodyLen ≠ msgLen then some (dev, errNotValid, [])
    else if msgType = tipcCtrlMsgtypeConnReq then
      if msgBodyLen ≠ connReqBodySize then some (dev, errNotValid, [])
      else handleConnReq env dev remote
        (strncpy (readBytes nsData ctrlMsgHdrSize tipcMaxSrvNameLen) tipcMaxSrvNameLen)
    else if msgType = tipcCtrlMsgtypeDiscReq then
      if msgBodyLen ≠ discReqBodySize then some (dev, errNotValid, [])
      else handleDiscReq dev remote (readU32 nsData ctrlMsgHdrSize)
    else some (dev, errNotValid, [])

/-- `handle_chan_msg(dev, remote, local, ns_data, len)`: its result, and the
message sent, if any. -/
def handleChanMsg (env : RxEnv C) (dev : TipcDev C) (remote localAddr : UInt32) (nsData : Nat → UInt8)
    (len : Nat) : Int × List (Effect C) :=
  match lookupEpt dev localAddr with
  | some slot =>
    if dev.epts[slot].remote = remote then
      match dev.epts[slot].chan with
      | some chan => (env.sendMsg chan (readBytes nsData 0 len), [.sendMsg chan (readBytes nsData 0 len)])
      | none => (errNotFound, [])
    else (errNotFound, [])
  | none => (errNotFound, [])

/-- `handle_rx_msg(dev, buf)`, with `mem` the bytes from the base of the
first in iov. -/
def handleRxMsg [DecidableEq C] (env : RxEnv C) (dev : TipcDev C) (buf : VqueueBuf) (mem : Nat → UInt8) :
    Option (TipcDev C × Int × List (Effect C)) :=
  if buf.inIovs.used = 0 then some (dev, errInvalidArgs, [])
  else if env.mapIovs ≠ 0 then some (dev, env.mapIovs, [])
  else
    let len := (buf.inIovs.lens 0).toNat
    if len < tipcHdrSize then some (dev, errInvalidArgs, [])
    else
      let nsDataLen := (readU16 mem 12).toNat
      let srcAddr := readU32 mem 0
      let dstAddr := readU32 mem 4
      if nsDataLen + tipcHdrSize ≠ len then some (dev, errInvalidArgs, [])
      else if dstAddr = tipcCtrlAddr then
        handleCtrlMsg env dev srcAddr (fun i => mem (tipcHdrSize + i)) nsDataLen
      else
        let r := handleChanMsg env dev srcAddr dstAddr (fun i => mem (tipcHdrSize + i)) nsDataLen
        some (dev, r.1, r.2)

/-- One buffer from the RX queue, with what the kernel answers while it is
handled. -/
structure RxIn (C : Type) where
  env : RxEnv C
  buf : VqueueBuf
  mem : Nat → UInt8

/-- One `handle_rx_msg` on the device: its result and what it did. -/
def rxStep [DecidableEq C] (dev : TipcDev C) (m : RxIn C) : Option (TipcDev C × List (Int × List (Effect C))) :=
  (handleRxMsg m.env dev m.buf m.mem).map fun r => (r.1, [r.2])

/-! ## The wire format and what each message is for -/

/-- A message the RX queue can hold, as the TIPC wire format gives it. -/
inductive RxMsg
  | data (src dst : UInt32) (payload : List UInt8)
  | connReq (src : UInt32) (name : List UInt8)
  | discReq (src target : UInt32)

/-- A control message from `src`, `len` bytes at `body`: a
`tipc_ctrl_msg_hdr` whose `body_len` is the rest, with a whole
`tipc_conn_req_body` for a `CONN_REQ` or a `tipc_disc_req_body` for a
`DISC_REQ`. -/
def parseCtrl (src : UInt32) (body : Nat → UInt8) (len : Nat) : Option RxMsg :=
  if len < ctrlMsgHdrSize ∨ ctrlMsgHdrSize + (readU32 body 4).toNat ≠ len then none
  else if readU32 body 0 = tipcCtrlMsgtypeConnReq ∧ (readU32 body 4).toNat = connReqBodySize then
    some (.connReq src (strncpy (readBytes body ctrlMsgHdrSize tipcMaxSrvNameLen) tipcMaxSrvNameLen))
  else if readU32 body 0 = tipcCtrlMsgtypeDiscReq ∧ (readU32 body 4).toNat = discReqBodySize then
    some (.discReq src (readU32 body ctrlMsgHdrSize))
  else none

/-- The message a buffer holds: an in iov whose length is a `tipc_hdr` and
the `len` bytes it announces, a control message for `TIPC_CTRL_ADDR` and
data for any other `dst`. -/
def parseRx (buf : VqueueBuf) (mem : Nat → UInt8) : Option RxMsg :=
  let len := (buf.inIovs.lens 0).toNat
  if buf.inIovs.used = 0 ∨ len < tipcHdrSize ∨ (readU16 mem 12).toNat + tipcHdrSize ≠ len then none
  else if readU32 mem 4 = tipcCtrlAddr then
    parseCtrl (readU32 mem 0) (fun i => mem (tipcHdrSize + i)) (len - tipcHdrSize)
  else some (.data (readU32 mem 0) (readU32 mem 4) (readBytes mem tipcHdrSize (len - tipcHdrSize)))

/-- The endpoint a data message from `src` to `dst` is for: slot
`dst - TIPC_ADDR_BASE`, below `TIPC_ADDR_MAX_NUM`, in use, with remote `src`
and channel `chan`. -/
def Target (dev : TipcDev C) (src dst : UInt32) (chan : C) : Prop :=
  ∃ h : (dst - tipcAddrBase).toNat < tipcAddrMaxNum, Bitmap.test dev.inuse (dst - tipcAddrBase).toNat ∧
    dev.epts[(dst - tipcAddrBase).toNat].remote = src ∧ dev.epts[(dst - tipcAddrBase).toNat].chan = some chan

/-- Slot `i` is the lowest free slot. -/
def LowestFree (dev : TipcDev C) (i : Nat) : Prop :=
  i < tipcAddrMaxNum ∧ Bitmap.test dev.inuse i = false ∧ ∀ j < i, Bitmap.test dev.inuse j = true

/-- `dev'` is `dev` with slot `i` in use, bound to `remote` and to a channel
`chan` new to the list, which it joins. -/
def Bound (dev dev' : TipcDev C) (i : Nat) (remote : UInt32) (chan : C) : Prop :=
  ∃ h : i < tipcAddrMaxNum, dev'.epts = dev.epts.set i ⟨remote, some chan⟩ h ∧
    dev'.inuse = Bitmap.set dev.inuse i ∧ chan ∉ dev.handleList.handles ∧
    dev'.handleList.handles = dev.handleList.handles ++ [chan]

/-- `dev'` is `dev` with slot `i` free and its channel `chan` off the list. -/
def Released [DecidableEq C] (dev dev' : TipcDev C) (i : Nat) (chan : C) : Prop :=
  ∃ h : i < tipcAddrMaxNum, dev'.epts = dev.epts.set i ⟨0, none⟩ h ∧
    dev'.inuse = Bitmap.clear dev.inuse i ∧ dev'.handleList.handles = dev.handleList.handles.erase chan

/-- A message turned away: an error, and nothing done. -/
def Rejected (dev : TipcDev C) (r : TipcDev C × Int × List (Effect C)) : Prop :=
  r.1 = dev ∧ r.2.1 ≠ 0 ∧ r.2.2 = []

/-- What the device is to do with a well-formed message.  Data goes, as one
message of exactly its payload, to the endpoint it is for, and nowhere if
there is none.  A `CONN_REQ` binds the lowest free slot to `src` and to the
new channel, or answers `ERR_NO_RESOURCES` with the table unchanged and the
channel, if one was opened, closed.  A `DISC_REQ` frees at most one slot in
use, one whose remote is `src`, closing its channel. -/
def MsgSpec [DecidableEq C] (env : RxEnv C) (dev : TipcDev C) : RxMsg → TipcDev C × Int × List (Effect C) → Prop
  | .data src dst payload, r => r.1 = dev ∧
    ((∃ c, Target dev src dst c ∧ r.2 = (env.sendMsg c payload, [.sendMsg c payload])) ∨
      ((∀ c, ¬Target dev src dst c) ∧ r.2 = (errNotFound, [])))
  | .connReq src name, r =>
    (∃ c i, env.connect name = .ok c ∧ LowestFree dev i ∧ Bound dev r.1 i src c ∧ r.2 = (0, [.connect name])) ∨
    (r.1 = dev ∧ r.2.1 = env.sendBuf ∧
      ((∃ e, env.connect name = .error e ∧ r.2.2 = [.connect name, connRspNoResources 0 src]) ∨
        (∃ c, env.connect name = .ok c ∧ (∀ i < tipcAddrMaxNum, Bitmap.test dev.inuse i = true) ∧
          r.2.2 = [.connect name, .close c, connRspNoResources 0 src])))
  | .discReq src _, r => r.2.1 = 0 ∧
    ((r.1 = dev ∧ r.2.2 = [] ∧
        ∀ i (h : i < tipcAddrMaxNum), Bitmap.test dev.inuse i = true → dev.epts[i].remote ≠ src) ∨
      (∃ i, ∃ h : i < tipcAddrMaxNum, ∃ c, Bitmap.test dev.inuse i = true ∧ dev.epts[i].remote = src ∧
        dev.epts[i].chan = some c ∧ Released dev r.1 i c ∧ r.2.2 = [.close c]))

/-- What the device is to do with a buffer: turn it away unless it holds a
well-formed message, and otherwise, once its iovs are mapped, what
`MsgSpec` says. -/
def RxSpec [DecidableEq C] (env : RxEnv C) (dev : TipcDev C) (msg : Option RxMsg) (r : TipcDev C × Int × List (Effect C)) :
    Prop :=
  match msg with
  | none => Rejected dev r
  | some m => (env.mapIovs ≠ 0 ∧ r = (dev, env.mapIovs, [])) ∨ (env.mapIovs = 0 ∧ MsgSpec env dev m r)

/-! ## The endpoint table -/

/-- The table and the list agree: a slot is in use exactly when it holds a
channel, and the list holds exactly the slots' channels, each in one slot. -/
structure Inv (dev : TipcDev C) : Prop where
  inuse : ∀ i (h : i < tipcAddrMaxNum), Bitmap.test dev.inuse i = dev.epts[i].chan.isSome
  listed : ∀ c, c ∈ dev.handleList.handles ↔ ∃ i, ∃ h : i < tipcAddrMaxNum, dev.epts[i].chan = some c
  unique : ∀ i j (hi : i < tipcAddrMaxNum) (hj : j < tipcAddrMaxNum) c,
    dev.epts[i].chan = some c → dev.epts[j].chan = some c → i = j

theorem Inv.init : Inv (TipcDev.init : TipcDev C) where
  inuse i h := by simp [TipcDev.init, Bitmap.test]
  listed c := by simp [TipcDev.init]
  unique i j hi hj c h := by simp [TipcDev.init] at h

section Table

variable {dev dev' : TipcDev C}

/-- A free slot holds no channel. -/
theorem Inv.chan_of_free (hi : Inv dev) {i : Nat} (h : i < tipcAddrMaxNum)
    (hfree : Bitmap.test dev.inuse i = false) : dev.epts[i].chan = none := by
  have hin := hi.inuse i h
  rw [hfree] at hin
  cases hch : dev.epts[i].chan with
  | none => rfl
  | some c =>
    rw [hch] at hin
    cases hin

/-- Binding the lowest free slot to a new channel keeps the table and the
list in agreement. -/
theorem Inv.bound (hi : Inv dev) {i : Nat} {remote : UInt32} {c : C} (hl : LowestFree dev i)
    (hb : Bound dev dev' i remote c) : Inv dev' := by
  obtain ⟨hlt, hfree, -⟩ := hl
  obtain ⟨h, hep, hin, hfresh, hlist⟩ := hb
  have hnone := hi.chan_of_free hlt hfree
  -- the slots after the bind: slot `i` holds `c`, the others are as before
  have hslot : ∀ j (hj : j < tipcAddrMaxNum),
      dev'.epts[j].chan = if i = j then some c else dev.epts[j].chan := by
    intro j hj
    rw [hep, Vector.getElem_set]
    by_cases hij : i = j <;> simp [hij]
  refine ⟨fun j hj => ?_, fun x => ?_, fun j k hj hk x hxj hxk => ?_⟩
  · rw [hin, Bitmap.test_set _ h, hslot j hj, hi.inuse j hj]
    by_cases hij : i = j <;> simp [hij]
  · rw [hlist, List.mem_append, List.mem_singleton, hi.listed]
    constructor
    · rintro (⟨j, hj, hx⟩ | rfl)
      · have hij : i ≠ j := by
          rintro rfl
          rw [hnone] at hx
          cases hx
        exact ⟨j, hj, by rw [hslot j hj, if_neg hij, hx]⟩
      · exact ⟨i, h, by rw [hslot i h, if_pos rfl]⟩
    · rintro ⟨j, hj, hx⟩
      rw [hslot j hj] at hx
      by_cases hij : i = j
      · rw [if_pos hij] at hx
        exact .inr (Option.some_injective _ hx).symm
      · rw [if_neg hij] at hx
        exact .inl ⟨j, hj, hx⟩
  · rw [hslot j hj] at hxj
    rw [hslot k hk] at hxk
    -- the new channel is in no old slot
    have hold : ∀ l (hl : l < tipcAddrMaxNum), dev.epts[l].chan = some x → x ≠ c := by
      rintro l hl hx rfl
      exact hfresh ((hi.listed x).mpr ⟨l, hl, hx⟩)
    by_cases hij : i = j <;> by_cases hik : i = k
    · omega
    · rw [if_neg hik] at hxk
      rw [if_pos hij] at hxj
      exact absurd (Option.some_injective _ hxj).symm (hold k hk hxk)
    · rw [if_neg hij] at hxj
      rw [if_pos hik] at hxk
      exact absurd (Option.some_injective _ hxk).symm (hold j hj hxj)
    · rw [if_neg hij] at hxj
      rw [if_neg hik] at hxk
      exact hi.unique j k hj hk x hxj hxk

/-- Freeing a slot and taking its channel off the list keeps the table and
the list in agreement. -/
theorem Inv.released [DecidableEq C] (hi : Inv dev) {i : Nat} {c : C} (h : i < tipcAddrMaxNum)
    (hc : dev.epts[i].chan = some c) (hr : Released dev dev' i c) : Inv dev' := by
  obtain ⟨h', hep, hin, hlist⟩ := hr
  have hslot : ∀ j (hj : j < tipcAddrMaxNum),
      dev'.epts[j].chan = if i = j then none else dev.epts[j].chan := by
    intro j hj
    rw [hep, Vector.getElem_set]
    by_cases hij : i = j <;> simp [hij]
  refine ⟨fun j hj => ?_, fun x => ?_, fun j k hj hk x hxj hxk => ?_⟩
  · rw [hin, Bitmap.test_clear, hslot j hj, hi.inuse j hj]
    by_cases hij : i = j <;> simp [hij]
  · rw [hlist, dev.handleList.nodup.mem_erase_iff, hi.listed]
    constructor
    · rintro ⟨hne, j, hj, hx⟩
      -- the slot of `x` is not slot `i`, which holds `c`
      have hij : i ≠ j := by
        rintro rfl
        rw [hc] at hx
        exact hne (Option.some_injective _ hx).symm
      exact ⟨j, hj, by rw [hslot j hj, if_neg hij, hx]⟩
    · rintro ⟨j, hj, hx⟩
      rw [hslot j hj] at hx
      by_cases hij : i = j
      · rw [if_pos hij] at hx
        cases hx
      · rw [if_neg hij] at hx
        refine ⟨?_, j, hj, hx⟩
        rintro rfl
        exact hij (hi.unique i j h hj x hc hx)
  · rw [hslot j hj] at hxj
    rw [hslot k hk] at hxk
    by_cases hij : i = j
    · rw [if_pos hij] at hxj
      cases hxj
    · by_cases hik : i = k
      · rw [if_pos hik] at hxk
        cases hxk
      · rw [if_neg hij] at hxj
        rw [if_neg hik] at hxk
        exact hi.unique j k hj hk x hxj hxk

/-- Whatever `MsgSpec` allows keeps the table and the list in agreement. -/
theorem Inv.msgSpec [DecidableEq C] (hi : Inv dev) {env : RxEnv C} {m : RxMsg} {r : TipcDev C × Int × List (Effect C)}
    (hs : MsgSpec env dev m r) : Inv r.1 := by
  cases m with
  | data src dst payload =>
    obtain ⟨h, -⟩ := hs
    rw [h]
    exact hi
  | connReq src name =>
    rcases hs with ⟨c, i, -, hl, hb, -⟩ | ⟨h, -⟩
    · exact hi.bound hl hb
    · rw [h]
      exact hi
  | discReq src target =>
    rcases hs with ⟨-, ⟨h, -⟩ | ⟨i, hlt, c, -, -, hc, hr, -⟩⟩
    · rw [h]
      exact hi
    · exact hi.released hlt hc hr

/-- Whatever `RxSpec` allows keeps the table and the list in agreement. -/
theorem Inv.rxSpec [DecidableEq C] (hi : Inv dev) {env : RxEnv C} {msg : Option RxMsg} {r : TipcDev C × Int × List (Effect C)}
    (hs : RxSpec env dev msg r) : Inv r.1 := by
  cases msg with
  | none =>
    rw [hs.1]
    exact hi
  | some m =>
    rcases hs with ⟨-, rfl⟩ | ⟨-, hs⟩
    · exact hi
    · exact hi.msgSpec hs

end Table

/-! ## Reads of the buffer -/

section Reads

variable {mem mem' : Nat → UInt8}

theorem readLe_congr {off : Nat} :
    ∀ {k : Nat}, (∀ i < k, mem (off + i) = mem' (off + i)) → readLe mem off k = readLe mem' off k := by
  intro k
  induction k generalizing off with
  | zero => intro _; rfl
  | succ k ih =>
    intro h
    have h0 : mem off = mem' off := h 0 (Nat.succ_pos k)
    have hrest : ∀ i < k, mem (off + 1 + i) = mem' (off + 1 + i) := by
      intro i hi
      rw [Nat.add_assoc, Nat.add_comm 1 i]
      exact h (i + 1) (by omega)
    simp only [readLe, h0, ih hrest]

theorem readU16_congr {off : Nat} (h : ∀ i < 2, mem (off + i) = mem' (off + i)) :
    readU16 mem off = readU16 mem' off := by
  rw [readU16, readU16, readLe_congr h]

theorem readU32_congr {off : Nat} (h : ∀ i < 4, mem (off + i) = mem' (off + i)) :
    readU32 mem off = readU32 mem' off := by
  rw [readU32, readU32, readLe_congr h]

theorem readBytes_congr {off len : Nat} (h : ∀ i < len, mem (off + i) = mem' (off + i)) :
    readBytes mem off len = readBytes mem' off len :=
  List.map_congr_left fun i hi => h i (List.mem_range.mp hi)

@[simp] theorem length_readBytes (off len : Nat) : (readBytes mem off len).length = len := by
  simp [readBytes]

end Reads

/-! ## Addresses and slots -/

section Slots

variable {dev : TipcDev C}

theorem slotToAddr_toNat {i : Nat} (h : i < tipcAddrMaxNum) : (slotToAddr i).toNat = i + 1000 := by
  simp only [slotToAddr, tipcAddrBase, UInt32.toNat_add, Nat.toUInt32, UInt32.toNat_ofNat',
    UInt32.reduceToNat]
  simp only [tipcAddrMaxNum] at h
  omega

/-- `slot_to_addr` of a slot is never `0`, the address `alloc_local_addr`
returns when the table is full. -/
theorem slotToAddr_ne_zero {i : Nat} (h : i < tipcAddrMaxNum) : slotToAddr i ≠ 0 := by
  intro h0
  have := slotToAddr_toNat h
  rw [h0] at this
  simp at this

theorem addrToSlot_slotToAddr {i : Nat} (h : i < tipcAddrMaxNum) : (addrToSlot (slotToAddr i)).toNat = i := by
  rw [addrToSlot, UInt32.toNat_sub, slotToAddr_toNat h]
  simp only [tipcAddrBase, UInt32.reduceToNat]
  simp only [tipcAddrMaxNum] at h
  omega

/-- `alloc_local_addr` takes the lowest free slot, or returns `0` with the
table unchanged when all are in use. -/
theorem allocLocalAddr_spec (dev : TipcDev C) (remote : UInt32) (chan : C) :
    ((∀ i < tipcAddrMaxNum, Bitmap.test dev.inuse i = true) ∧ allocLocalAddr dev remote chan = some (dev, 0)) ∨
      ∃ i, LowestFree dev i ∧ ∃ h : i < tipcAddrMaxNum,
        allocLocalAddr dev remote chan = some (⟨dev.epts.set i ⟨remote, some chan⟩ h,
          Bitmap.set dev.inuse i, dev.handleList⟩, slotToAddr i) := by
  rcases Bitmap.ffz_spec dev.inuse with ⟨hf, hall⟩ | ⟨i, hi, hf, hfree, hlow⟩
  · refine .inl ⟨hall, ?_⟩
    simp [allocLocalAddr, hf]
  · refine .inr ⟨i, ⟨hi, hfree, hlow⟩, hi, ?_⟩
    simp [allocLocalAddr, hf, hi]

/-- `lookup_ept` finds the slot of an address exactly when it is in use. -/
theorem lookupEpt_eq_some {a : UInt32} {slot : Fin tipcAddrMaxNum} :
    lookupEpt dev a = some slot ↔ (addrToSlot a).toNat = slot ∧ Bitmap.test dev.inuse slot = true := by
  unfold lookupEpt
  by_cases hlt : (addrToSlot a).toNat < tipcAddrMaxNum
  · rw [dif_pos hlt]
    by_cases hin : Bitmap.test dev.inuse (addrToSlot a).toNat = true
    · rw [if_pos hin]
      constructor
      · rintro ⟨⟩
        exact ⟨rfl, hin⟩
      · rintro ⟨hs, -⟩
        exact congrArg some (Fin.ext hs)
    · rw [if_neg hin]
      simp only [reduceCtorEq, false_iff, not_and]
      rintro hs
      rw [← hs]
      exact hin
  · rw [dif_neg hlt]
    simp only [reduceCtorEq, false_iff, not_and]
    intro hs
    exact absurd (hs ▸ slot.2) hlt

theorem findRemote_some {remote : UInt32} {slot : Fin tipcAddrMaxNum} (h : findRemote dev remote = some slot) :
    Bitmap.test dev.inuse slot = true ∧ dev.epts[slot].remote = remote := by
  have := List.find?_some h
  simpa using this

theorem findRemote_none {remote : UInt32} (h : findRemote dev remote = none) :
    ∀ i (hi : i < tipcAddrMaxNum), Bitmap.test dev.inuse i = true → dev.epts[i].remote ≠ remote := by
  intro i hi huse hrem
  have := List.find?_eq_none.mp h ⟨i, hi⟩ (List.mem_finRange _)
  simp [huse, hrem] at this

/-- The endpoint `handle_disc_req` picks is in use and has remote `remote`;
it picks none only when no endpoint in use has that remote. -/
theorem discEpt_spec (dev : TipcDev C) (remote target : UInt32) :
    (∀ slot, discEpt dev remote target = some slot →
      Bitmap.test dev.inuse slot = true ∧ dev.epts[slot].remote = remote) ∧
    (discEpt dev remote target = none →
      ∀ i (hi : i < tipcAddrMaxNum), Bitmap.test dev.inuse i = true → dev.epts[i].remote ≠ remote) := by
  unfold discEpt
  cases hl : lookupEpt dev target with
  | none => exact ⟨fun _ h => findRemote_some h, findRemote_none⟩
  | some slot =>
    by_cases hrem : dev.epts[slot].remote = remote
    · simp only [if_pos hrem, Option.some.injEq, reduceCtorEq, false_implies, and_true]
      rintro _ rfl
      exact ⟨(lookupEpt_eq_some.mp hl).2, hrem⟩
    · simp only [if_neg hrem]
      exact ⟨fun _ h => findRemote_some h, findRemote_none⟩

/-- `free_local_addr(dev, ept_to_addr(dev, ept))` frees the slot of `ept`. -/
theorem freeLocalAddr_slotToAddr (dev : TipcDev C) (slot : Fin tipcAddrMaxNum) :
    freeLocalAddr dev (slotToAddr slot) =
      ⟨dev.epts.set slot ⟨0, none⟩ slot.2, Bitmap.clear dev.inuse slot, dev.handleList⟩ := by
  unfold freeLocalAddr
  rw [dif_pos (by rw [addrToSlot_slotToAddr slot.2]; exact slot.2)]
  simp only [addrToSlot_slotToAddr slot.2]

end Slots

/-! ## The handlers against the spec -/

section Handlers

variable {dev : TipcDev C} {env : RxEnv C}

/-- `handle_chan_msg` sends the message, all `len` bytes of it, exactly when
the address is that of an endpoint in use with remote `remote` and a
channel, and returns `ERR_NOT_FOUND` otherwise. -/
theorem handleChanMsg_spec (env : RxEnv C) (dev : TipcDev C) (remote dst : UInt32) (d : Nat → UInt8)
    (len : Nat) :
    (∃ c, Target dev remote dst c ∧ handleChanMsg env dev remote dst d len =
        (env.sendMsg c (readBytes d 0 len), [.sendMsg c (readBytes d 0 len)])) ∨
      ((∀ c, ¬Target dev remote dst c) ∧ handleChanMsg env dev remote dst d len = (errNotFound, [])) := by
  unfold handleChanMsg lookupEpt addrToSlot
  by_cases hlt : (dst - tipcAddrBase).toNat < tipcAddrMaxNum
  · rw [dif_pos hlt]
    by_cases huse : Bitmap.test dev.inuse (dst - tipcAddrBase).toNat = true
    · rw [if_pos huse]
      simp only [Fin.getElem_fin]
      by_cases hrem : dev.epts[(dst - tipcAddrBase).toNat].remote = remote
      · rw [if_pos hrem]
        cases hch : dev.epts[(dst - tipcAddrBase).toNat].chan with
        | some c => exact .inl ⟨c, ⟨hlt, huse, hrem, hch⟩, rfl⟩
        | none =>
          refine .inr ⟨?_, rfl⟩
          rintro c ⟨h, -, -, hc⟩
          rw [hch] at hc
          cases hc
      · rw [if_neg hrem]
        refine .inr ⟨?_, rfl⟩
        rintro c ⟨h, -, hr, -⟩
        exact hrem hr
    · rw [if_neg huse]
      refine .inr ⟨?_, rfl⟩
      rintro c ⟨-, hu, -⟩
      exact huse hu
  · rw [dif_neg hlt]
    refine .inr ⟨?_, rfl⟩
    rintro c ⟨h, -⟩
    exact hlt h

variable [DecidableEq C]

/-- Every return of `handle_conn_req` is one `MsgSpec` allows. -/
theorem handleConnReq_some {remote : UInt32} {name : List UInt8} {r : TipcDev C × Int × List (Effect C)}
    (h : handleConnReq env dev remote name = some r) : MsgSpec env dev (.connReq remote name) r := by
  cases hc : env.connect name with
  | error e =>
    simp only [handleConnReq, hc, Option.some.injEq] at h
    subst h
    exact .inr ⟨rfl, rfl, .inl ⟨e, hc, rfl⟩⟩
  | ok c =>
    simp only [handleConnReq, hc] at h
    rcases allocLocalAddr_spec dev remote c with ⟨hall, ha⟩ | ⟨i, hl, hi, ha⟩
    · -- the table is full: the channel is closed again
      rw [ha] at h
      simp only [Option.bind_some, ↓reduceIte, Option.some.injEq] at h
      subst h
      exact .inr ⟨rfl, rfl, .inr ⟨c, hc, hall, rfl⟩⟩
    · rw [ha] at h
      simp only [Option.bind_some, if_neg (slotToAddr_ne_zero hi), Option.map_eq_some_iff] at h
      obtain ⟨hl', hadd, rfl⟩ := h
      obtain ⟨hfresh, hlist, -⟩ := handleListAdd_eq hadd
      exact .inl ⟨c, i, hc, hl, ⟨hi, rfl, rfl, hfresh, hlist⟩, rfl⟩

/-- `handle_conn_req` fails its `DEBUG_ASSERT` only when the kernel hands
out a channel already on the list. -/
theorem handleConnReq_none {remote : UInt32} {name : List UInt8} (h : handleConnReq env dev remote name = none) :
    ∃ c, env.connect name = .ok c ∧ c ∈ dev.handleList.handles := by
  cases hc : env.connect name with
  | error e => simp [handleConnReq, hc] at h
  | ok c =>
    simp only [handleConnReq, hc] at h
    refine ⟨c, rfl, ?_⟩
    rcases allocLocalAddr_spec dev remote c with ⟨-, ha⟩ | ⟨i, -, hi, ha⟩
    · rw [ha] at h
      simp at h
    · rw [ha] at h
      simp only [Option.bind_some, if_neg (slotToAddr_ne_zero hi), Option.map_eq_none_iff] at h
      by_contra hm
      simp [handleListAdd, hm] at h

/-- `handle_disc_req` on a consistent table returns, as `MsgSpec` says. -/
theorem handleDiscReq_spec (env : RxEnv C) (hi : Inv dev) (remote target : UInt32) :
    ∃ r, handleDiscReq dev remote target = some r ∧ MsgSpec env dev (.discReq remote target) r := by
  obtain ⟨hsome, hnone⟩ := discEpt_spec dev remote target
  unfold handleDiscReq
  cases hd : discEpt dev remote target with
  | none => exact ⟨_, rfl, rfl, .inl ⟨rfl, rfl, hnone hd⟩⟩
  | some slot =>
    obtain ⟨huse, hrem⟩ := hsome slot hd
    simp only [Fin.getElem_fin] at hrem ⊢
    -- a slot in use holds a channel, and it is on the list
    have hin := hi.inuse slot slot.2
    rw [huse] at hin
    obtain ⟨c, hc⟩ := Option.isSome_iff_exists.mp hin.symm
    have hmem : c ∈ dev.handleList.handles := (hi.listed c).mpr ⟨slot, slot.2, hc⟩
    obtain ⟨hl, hdel⟩ : ∃ hl, handleListDel dev.handleList c = some hl := by
      simp [handleListDel, hmem]
    simp only [hc, hdel, Option.map_some]
    refine ⟨_, rfl, rfl, .inr ⟨slot, slot.2, c, huse, hrem, hc, ?_, rfl⟩⟩
    obtain ⟨-, hlist, -⟩ := handleListDel_eq hdel
    rw [freeLocalAddr_slotToAddr]
    exact ⟨slot.2, rfl, rfl, hlist⟩

end Handlers

/-! ## `handle_rx_msg` against the spec -/

section Rx

variable {dev : TipcDev C} {env : RxEnv C}

/-- A control message is a `CONN_REQ` or a `DISC_REQ` from its sender. -/
theorem parseCtrl_ne_data (src : UInt32) (body : Nat → UInt8) (len : Nat) (a b : UInt32) (p : List UInt8) :
    parseCtrl src body len ≠ some (.data a b p) := by
  unfold parseCtrl
  split_ifs <;> simp

theorem readBytes_shift (mem : Nat → UInt8) (a n : Nat) :
    readBytes (fun i => mem (a + i)) 0 n = readBytes mem a n := by
  simp [readBytes]

variable [DecidableEq C]

/-- `handle_ctrl_msg` turns away with `ERR_NOT_VALID` what is not a
well-formed control message, and hands the others to their handler. -/
theorem handleCtrlMsg_eq (env : RxEnv C) (dev : TipcDev C) (remote : UInt32) (d : Nat → UInt8) (len : Nat) :
    handleCtrlMsg env dev remote d len =
      match parseCtrl remote d len with
      | some (.connReq s name) => handleConnReq env dev s name
      | some (.discReq s target) => handleDiscReq dev s target
      | _ => some (dev, errNotValid, []) := by
  unfold handleCtrlMsg parseCtrl
  have hcd : tipcCtrlMsgtypeConnReq ≠ tipcCtrlMsgtypeDiscReq := by decide
  by_cases hlen : len < ctrlMsgHdrSize
  · simp [hlen]
  by_cases hbody : ctrlMsgHdrSize + (readU32 d 4).toNat = len
  · by_cases hconn : readU32 d 0 = tipcCtrlMsgtypeConnReq
    · by_cases hb : (readU32 d 4).toNat = connReqBodySize
      · have hbody' : ctrlMsgHdrSize + connReqBodySize = len := hb ▸ hbody
        simp [hlen, hbody', hconn, hb]
      · simp [hlen, hbody, hconn, hb, hcd]
    · by_cases hdisc : readU32 d 0 = tipcCtrlMsgtypeDiscReq
      · by_cases hb : (readU32 d 4).toNat = discReqBodySize
        · have hbody' : ctrlMsgHdrSize + discReqBodySize = len := hb ▸ hbody
          simp [hlen, hbody', hdisc, hb, Ne.symm hcd]
        · simp [hlen, hbody, hdisc, hb, Ne.symm hcd]
      · simp [hlen, hbody, hconn, hdisc]
  · simp [hlen, hbody]

/-- `handle_ctrl_msg` on a consistent table: what `parseCtrl` finds is
handled as `MsgSpec` says, the rest is turned away, and the call fails only
on a channel the kernel handed out twice. -/
theorem handleCtrlMsg_spec (env : RxEnv C) (hi : Inv dev) (remote : UInt32) (d : Nat → UInt8) (len : Nat) :
    (∀ r, handleCtrlMsg env dev remote d len = some r →
      match parseCtrl remote d len with
      | none => Rejected dev r
      | some m => MsgSpec env dev m r) ∧
    (handleCtrlMsg env dev remote d len = none →
      ∃ s name c, parseCtrl remote d len = some (.connReq s name) ∧ env.connect name = .ok c ∧
        c ∈ dev.handleList.handles) := by
  rw [handleCtrlMsg_eq]
  cases hp : parseCtrl remote d len with
  | none =>
    refine ⟨?_, by simp⟩
    rintro r ⟨⟩
    exact ⟨rfl, (by decide : errNotValid ≠ 0), rfl⟩
  | some m =>
    cases m with
    | data a b p => exact absurd hp (parseCtrl_ne_data _ _ _ a b p)
    | connReq s name =>
      refine ⟨fun r h => handleConnReq_some h, fun h => ?_⟩
      obtain ⟨c, hc, hm⟩ := handleConnReq_none h
      exact ⟨s, name, c, rfl, hc, hm⟩
    | discReq s target =>
      obtain ⟨r, hr, hspec⟩ := handleDiscReq_spec env hi s target
      refine ⟨fun r' h => ?_, fun h => ?_⟩
      · simp only at h
        rw [hr, Option.some.injEq] at h
        exact h ▸ hspec
      · simp only at h
        rw [hr] at h
        cases h

/-- `handle_rx_msg` on a consistent table: a buffer that holds no
well-formed message is turned away, one whose iovs cannot be mapped too, and
every other is handled as `MsgSpec` says; the call fails only on a channel
the kernel handed out twice. -/
theorem handleRxMsg_spec (env : RxEnv C) (hi : Inv dev) (buf : VqueueBuf) (mem : Nat → UInt8) :
    (∀ r, handleRxMsg env dev buf mem = some r → RxSpec env dev (parseRx buf mem) r) ∧
    (handleRxMsg env dev buf mem = none →
      ∃ src name c, parseRx buf mem = some (.connReq src name) ∧ env.mapIovs = 0 ∧
        env.connect name = .ok c ∧ c ∈ dev.handleList.handles) := by
  have herr : errInvalidArgs ≠ 0 := by decide
  by_cases hused : buf.inIovs.used = 0
  · -- no iov: turned away before anything is mapped
    have hrx : handleRxMsg env dev buf mem = some (dev, errInvalidArgs, []) := by simp [handleRxMsg, hused]
    have hp : parseRx buf mem = none := by simp [parseRx, hused]
    rw [hrx, hp]
    refine ⟨?_, by simp⟩
    rintro r ⟨⟩
    exact ⟨rfl, herr, rfl⟩
  by_cases hmap : env.mapIovs = 0
  swap
  · have hrx : handleRxMsg env dev buf mem = some (dev, env.mapIovs, []) := by
      simp [handleRxMsg, hused, hmap]
    rw [hrx]
    refine ⟨?_, by simp⟩
    rintro r ⟨⟩
    cases parseRx buf mem with
    | none => exact ⟨rfl, hmap, rfl⟩
    | some m => exact .inl ⟨hmap, rfl⟩
  by_cases hshort : (buf.inIovs.lens 0).toNat < tipcHdrSize
  · have hrx : handleRxMsg env dev buf mem = some (dev, errInvalidArgs, []) := by
      simp [handleRxMsg, hused, hmap, hshort]
    have hp : parseRx buf mem = none := by simp [parseRx, hshort]
    rw [hrx, hp]
    refine ⟨?_, by simp⟩
    rintro r ⟨⟩
    exact ⟨rfl, herr, rfl⟩
  by_cases hlen : (readU16 mem 12).toNat + tipcHdrSize = (buf.inIovs.lens 0).toNat
  swap
  · have hrx : handleRxMsg env dev buf mem = some (dev, errInvalidArgs, []) := by
      simp [handleRxMsg, hused, hmap, hshort, hlen]
    have hp : parseRx buf mem = none := by simp [parseRx, hlen]
    rw [hrx, hp]
    refine ⟨?_, by simp⟩
    rintro r ⟨⟩
    exact ⟨rfl, herr, rfl⟩
  -- the payload is the `len` bytes the header announces
  have hdata : (buf.inIovs.lens 0).toNat - tipcHdrSize = (readU16 mem 12).toNat := by omega
  by_cases hctrl : readU32 mem 4 = tipcCtrlAddr
  · -- a control message
    have hrx : handleRxMsg env dev buf mem =
        handleCtrlMsg env dev (readU32 mem 0) (fun i => mem (tipcHdrSize + i)) (readU16 mem 12).toNat := by
      simp [handleRxMsg, hused, hmap, hshort, hlen, hctrl]
    have hp : parseRx buf mem =
        parseCtrl (readU32 mem 0) (fun i => mem (tipcHdrSize + i)) (readU16 mem 12).toNat := by
      simp only [parseRx, hused, hshort, hlen, hctrl, hdata, ne_eq, not_true_eq_false, or_self,
        if_false, if_true]
    rw [hrx, hp]
    obtain ⟨hsome, hnone⟩ := handleCtrlMsg_spec env hi (readU32 mem 0)
      (fun i => mem (tipcHdrSize + i)) (readU16 mem 12).toNat
    refine ⟨fun r h => ?_, fun h => ?_⟩
    · have := hsome r h
      cases hpc : parseCtrl (readU32 mem 0) (fun i => mem (tipcHdrSize + i)) (readU16 mem 12).toNat with
      | none =>
        rw [hpc] at this
        exact this
      | some m =>
        rw [hpc] at this
        exact .inr ⟨hmap, this⟩
    · obtain ⟨s, name, c, hpc, hc, hm⟩ := hnone h
      exact ⟨s, name, c, hpc, hmap, hc, hm⟩
  · -- a data message
    have hrx : handleRxMsg env dev buf mem = some (dev,
        handleChanMsg env dev (readU32 mem 0) (readU32 mem 4) (fun i => mem (tipcHdrSize + i))
          (readU16 mem 12).toNat) := by
      simp [handleRxMsg, hused, hmap, hshort, hlen, hctrl]
    have hp : parseRx buf mem =
        some (.data (readU32 mem 0) (readU32 mem 4) (readBytes mem tipcHdrSize (readU16 mem 12).toNat)) := by
      simp only [parseRx, hused, hshort, hlen, hctrl, hdata, ne_eq, not_true_eq_false, or_self,
        if_false]
    rw [hrx, hp]
    refine ⟨?_, by simp⟩
    rintro r ⟨⟩
    refine .inr ⟨hmap, rfl, ?_⟩
    rcases handleChanMsg_spec env dev (readU32 mem 0) (readU32 mem 4) (fun i => mem (tipcHdrSize + i))
      (readU16 mem 12).toNat with ⟨c, ht, he⟩ | ⟨hn, he⟩
    · rw [he, readBytes_shift]
      exact .inl ⟨c, ht, rfl⟩
    · rw [he]
      exact .inr ⟨hn, rfl⟩

end Rx

/-! ## Only the first iov is read -/

section Local

variable {dev : TipcDev C} {env : RxEnv C}

theorem handleChanMsg_congr {remote dst : UInt32} {d d' : Nat → UInt8} {len : Nat}
    (h : ∀ i < len, d i = d' i) :
    handleChanMsg env dev remote dst d len = handleChanMsg env dev remote dst d' len := by
  unfold handleChanMsg
  rw [readBytes_congr fun i hi => by simpa using h i hi]

/-- A control message is read within its `len` bytes. -/
theorem parseCtrl_congr (src : UInt32) {d d' : Nat → UInt8} {len : Nat} (h : ∀ i < len, d i = d' i) :
    parseCtrl src d len = parseCtrl src d' len := by
  unfold parseCtrl
  by_cases hlen : len < ctrlMsgHdrSize
  · simp [hlen]
  simp only [ctrlMsgHdrSize] at hlen
  -- the control header lies inside the message
  rw [@readU32_congr d d' 0 fun i hi => h _ (by omega),
    @readU32_congr d d' 4 fun i hi => h _ (by omega)]
  split_ifs with hbad hconn hdisc
  · rfl
  · -- the name lies inside the message
    have hin : ctrlMsgHdrSize + tipcMaxSrvNameLen = len := by
      simp only [connReqBodySize] at hconn
      omega
    rw [readBytes_congr fun i hi => h _ (by omega)]
  · have hin : ctrlMsgHdrSize + 4 = len := by
      simp only [discReqBodySize] at hdisc
      omega
    rw [readU32_congr fun i hi => h _ (by omega)]
  · rfl

variable [DecidableEq C]

theorem handleCtrlMsg_congr {remote : UInt32} {d d' : Nat → UInt8} {len : Nat} (h : ∀ i < len, d i = d' i) :
    handleCtrlMsg env dev remote d len = handleCtrlMsg env dev remote d' len := by
  rw [handleCtrlMsg_eq, handleCtrlMsg_eq, parseCtrl_congr remote h]

/-- `handle_rx_msg` reads only bytes inside the first in iov: two buffers
that agree there are handled alike. -/
theorem handleRxMsg_local (env : RxEnv C) (dev : TipcDev C) (buf : VqueueBuf) {mem mem' : Nat → UInt8}
    (h : ∀ i < (buf.inIovs.lens 0).toNat, mem i = mem' i) :
    handleRxMsg env dev buf mem = handleRxMsg env dev buf mem' := by
  by_cases hused : buf.inIovs.used = 0
  · simp [handleRxMsg, hused]
  by_cases hmap : env.mapIovs = 0
  swap
  · simp [handleRxMsg, hused, hmap]
  by_cases hshort : (buf.inIovs.lens 0).toNat < tipcHdrSize
  · simp [handleRxMsg, hused, hmap, hshort]
  simp only [tipcHdrSize] at hshort
  -- the header lies inside the iov
  have h12 : readU16 mem 12 = readU16 mem' 12 := readU16_congr fun i hi => h _ (by omega)
  have h0 : readU32 mem 0 = readU32 mem' 0 := readU32_congr fun i hi => h _ (by omega)
  have h4 : readU32 mem 4 = readU32 mem' 4 := readU32_congr fun i hi => h _ (by omega)
  simp only [handleRxMsg, hused, hmap, if_false, ne_eq, not_true_eq_false, h12, h0, h4]
  split_ifs with hshort' hlen hctrl
  · rfl
  · -- the payload lies inside the iov
    exact handleCtrlMsg_congr fun i hi => h _ (by simp only [tipcHdrSize] at *; omega)
  · rw [handleChanMsg_congr fun i hi => h _ (by simp only [tipcHdrSize] at *; omega)]
  · rfl

end Local

/-! ## Runs of the RX thread -/

section Runs

variable [DecidableEq C]

/-- Every state the RX thread reaches has its table and list in agreement. -/
theorem Inv.of_run {ins : List (RxIn C)} {outs : List (Int × List (Effect C))} {dev : TipcDev C}
    (hrun : LTS.Run rxStep TipcDev.init ins outs dev) : Inv dev :=
  hrun.induction (P := fun dev _ => Inv dev) Inv.init fun hi hstep => by
    obtain ⟨r, hr, heq⟩ := Option.map_eq_some_iff.mp hstep
    rw [← (Prod.mk.inj heq).1]
    exact hi.rxSpec ((handleRxMsg_spec _ hi _ _).1 r hr)

/-- In every state the RX thread can reach, for every buffer the non-secure
side can put on the RX queue: `handle_rx_msg` reads only bytes inside the
first in iov; what it does is what `RxSpec` says, so that a buffer without a
well-formed message is turned away and changes nothing, data goes only to the
endpoint in use at `dst - TIPC_ADDR_BASE` with remote `src`, a `CONN_REQ`
binds the lowest free slot to a new channel or answers `ERR_NO_RESOURCES`
closing what it opened, and a `DISC_REQ` frees at most one endpoint, one of
`src`; the table and the list stay in agreement; and the call fails only
when the kernel hands out a channel already on the list. -/
theorem tipc_rx_robust {ins : List (RxIn C)} {outs : List (Int × List (Effect C))} {dev : TipcDev C}
    (hrun : LTS.Run rxStep TipcDev.init ins outs dev) (env : RxEnv C) (buf : VqueueBuf)
    (mem : Nat → UInt8) :
    (∀ mem' : Nat → UInt8, (∀ i < (buf.inIovs.lens 0).toNat, mem i = mem' i) →
      handleRxMsg env dev buf mem' = handleRxMsg env dev buf mem) ∧
    (∀ r, handleRxMsg env dev buf mem = some r → RxSpec env dev (parseRx buf mem) r ∧ Inv r.1) ∧
    (handleRxMsg env dev buf mem = none →
      ∃ src name c, parseRx buf mem = some (.connReq src name) ∧ env.mapIovs = 0 ∧
        env.connect name = .ok c ∧ c ∈ dev.handleList.handles) := by
  have hi := Inv.of_run hrun
  obtain ⟨hsome, hnone⟩ := handleRxMsg_spec env hi buf mem
  refine ⟨fun mem' h => (handleRxMsg_local env dev buf h).symm, fun r hr => ?_, hnone⟩
  have hs := hsome r hr
  exact ⟨hs, hi.rxSpec hs⟩

/-- A `DISC_REQ` for nobody, on the fresh device. -/
theorem tipc_rx_robust_init :
    let env : RxEnv Nat := ⟨0, fun _ => .error (-1), fun _ _ => 0, 0⟩
    let buf : VqueueBuf := ⟨0, ⟨1, 1, 28, fun _ => 28, fun _ => 0⟩, ⟨0, 0, 0, fun _ => 0, fun _ => 0⟩⟩
    let mem : Nat → UInt8 := fun i => if i = 4 then 53 else if i = 12 then 12 else if i = 16 then 5
      else if i = 20 then 4 else 0
    (∀ mem' : Nat → UInt8, (∀ i < (buf.inIovs.lens 0).toNat, mem i = mem' i) →
      handleRxMsg env TipcDev.init buf mem' = handleRxMsg env TipcDev.init buf mem) ∧
    (∀ r, handleRxMsg env TipcDev.init buf mem = some r →
      RxSpec env TipcDev.init (parseRx buf mem) r ∧ Inv r.1) ∧
    (handleRxMsg env TipcDev.init buf mem = none →
      ∃ src name c, parseRx buf mem = some (.connReq src name) ∧ env.mapIovs = 0 ∧
        env.connect name = .ok c ∧ c ∈ (TipcDev.init : TipcDev Nat).handleList.handles) :=
  tipc_rx_robust .nil _ _ _

end Runs

end Tipc
