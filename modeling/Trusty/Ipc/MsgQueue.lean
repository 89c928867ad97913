import Trusty.Lib.Mailbox
import Trusty.Ipc.Iovec

/-!
# IPC message queues (ipc_msg.c)

Each channel receives into a queue of `numItems` items of `itemSz` bytes.
An item is on one of three intrusive lists: free, filled (sent, not yet
taken) or read (taken by get_msg, readable until put_msg).  A send fills the
head of the free list and appends it to the filled list; get_msg moves the
head of the filled list to the read list; put_msg returns a read item to the
head of the free list.

The model keeps the lists as lists of item ids, head first, and an item's
buffer as its own byte list (`buf`); `MsgQueue.unlink` is list_delete, which
takes a node off whichever list holds it.  A failed DEBUG_ASSERT is `none`.

`Link` is one direction of a connected pair: the sender's sends go into the
receiver's queue, and the receiver gets, reads and puts.  `Link.step` is one
operation under ipc_lock, `Link.Runs` a sequence of them.

The queue refines a bounded `Mailbox` of capacity `numItems`
(`Link.step_refines`): its pending messages are the bodies of the filled
items in list order, its held messages the bodies of the read items.  The
mailbox's run lemmas then give the order in which messages are handed out.
-/

namespace Ipc

/-- ERR_NOT_READY -/
def errNotReady : Int := -3
/-- ERR_NO_MSG -/
def errNoMsg : Int := -4
/-- ERR_NOT_ENOUGH_BUFFER -/
def errNotEnoughBuffer : Int := -9
/-- ERR_CHANNEL_CLOSED -/
def errChannelClosed : Int := -15
/-- ERR_NOT_SUPPORTED -/
def errNotSupported : Int := -24

/-- MSG_ITEM_STATE_FREE, MSG_ITEM_STATE_FILLED, MSG_ITEM_STATE_READ -/
inductive ItemState where
  | free
  | filled
  | read
  deriving DecidableEq, Repr

/-- msg_item_t without its id, which is its index, and its list node, which
is its place in one of the lists. -/
structure MsgItem where
  state : ItemState
  numHandles : Nat
  len : Nat
  deriving DecidableEq, Repr

/-- ipc_msg_queue_t -/
structure MsgQueue where
  freeList : List Nat
  filledList : List Nat
  readList : List Nat
  numItems : Nat
  itemSz : Nat
  items : List MsgItem
  buf : List (List UInt8)
  deriving DecidableEq, Repr

namespace MsgQueue

/-- The item with id `id` (an all-zero item past the end). -/
def item (q : MsgQueue) (id : Nat) : MsgItem := q.items.getD id ⟨.free, 0, 0⟩

/-- msg_queue_get_buf: the buffer of item `id`. -/
def slot (q : MsgQueue) (id : Nat) : List UInt8 := q.buf.getD id []

@[simps] def setItem (q : MsgQueue) (id : Nat) (it : MsgItem) : MsgQueue :=
  { q with items := q.items.set id it }

@[simps] def setSlot (q : MsgQueue) (id : Nat) (s : List UInt8) : MsgQueue :=
  { q with buf := q.buf.set id s }

/-- list_delete(&item->node): the item leaves the list that holds it. -/
@[simps] def unlink (q : MsgQueue) (id : Nat) : MsgQueue :=
  { q with
    freeList := q.freeList.erase id
    filledList := q.filledList.erase id
    readList := q.readList.erase id }

/-- list_add_head(&mq->free_list, &item->node) -/
@[simps] def addFreeHead (q : MsgQueue) (id : Nat) : MsgQueue :=
  { q with freeList := id :: q.freeList }

/-- list_add_tail(&mq->filled_list, &item->node) -/
@[simps] def addFilledTail (q : MsgQueue) (id : Nat) : MsgQueue :=
  { q with filledList := q.filledList ++ [id] }

/-- list_add_tail(&mq->read_list, &item->node) -/
@[simps] def addReadTail (q : MsgQueue) (id : Nat) : MsgQueue :=
  { q with readList := q.readList ++ [id] }

/-- The message item `id` holds: the first `len` bytes of its buffer. -/
def body (q : MsgQueue) (id : Nat) : List UInt8 := (q.slot id).take (q.item id).len

end MsgQueue

/-- ipc_msg_queue_create, when both allocations succeed: every item free, in
id order. -/
def ipcMsgQueueCreate (numItems itemSz : Nat) : MsgQueue where
  freeList := List.range numItems
  filledList := []
  readList := []
  numItems := numItems
  itemSz := itemSz
  items := List.replicate numItems ⟨.free, 0, 0⟩
  buf := List.replicate numItems (List.replicate itemSz 0)

/-- msg_queue_get_item -/
def msgQueueGetItem (mq : MsgQueue) (id : Nat) : Option MsgItem :=
  if id < mq.numItems then some (mq.item id) else none

/-- IPC_CHAN_STATE_* -/
inductive ChanState where
  | invalid
  | accepting
  | connecting
  | connected
  | disconnecting
  | waitingForPort
  deriving DecidableEq, Repr

/-- The bits of aux_state this file reads and writes:
IPC_CHAN_AUX_STATE_SEND_BLOCKED and IPC_CHAN_AUX_STATE_SEND_UNBLOCKED. -/
structure AuxState where
  sendBlocked : Bool
  sendUnblocked : Bool
  deriving DecidableEq, Repr

/-- A blocked sender becomes unblocked. -/
def AuxState.unblock (aux : AuxState) : AuxState :=
  if aux.sendBlocked then { aux with sendBlocked := false, sendUnblocked := true } else aux

/-- The fields of ipc_chan_t that message passing uses. -/
structure Chan where
  state : ChanState
  auxState : AuxState
  msgQueue : MsgQueue

/-- check_channel_connected_locked, for a channel handle. -/
def checkChannelConnectedLocked (chan : Chan) : Int :=
  match chan.state with
  | .connected => 0
  | .disconnecting => errChannelClosed
  | _ => errNotReady

/-- msg_desc_t: a kernel ipc_msg_kern_t with its iovecs in kernel memory
`mem`, or a user ipc_msg_user_t (num_iov, iov, num_handles) in the user
space `um`. -/
inductive MsgDesc where
  | kern (mem : Nat → UInt8) (iov : List Iovec) (numHandles : Nat)
  | user (um : UserMem) (numIov iov numHandles : Nat)

/-- The copy of msg_write_locked into an item buffer of `len` bytes. -/
def MsgDesc.toMembuf (msg : MsgDesc) (len : Nat) : Int × List UInt8 :=
  match msg with
  | .kern mem iov numHandles =>
    if numHandles ≠ 0 then (errNotSupported, []) else kernIovecToMembuf mem len iov
  | .user um numIov iov numHandles =>
    if numHandles ≠ 0 then (errNotSupported, []) else userIovecToMembuf um len iov numIov

/-- The copy of msg_read_locked out of the first `len` bytes of `buf`. -/
def MsgDesc.fromMembuf (msg : MsgDesc) (buf : List UInt8) (len : Nat) :
    Int × List (Nat × List UInt8) :=
  match msg with
  | .kern _ iov numHandles =>
    if numHandles ≠ 0 then (errNotSupported, []) else membufToKernIovec iov buf len
  | .user um numIov iov numHandles =>
    if numHandles ≠ 0 then (errNotSupported, []) else membufToUserIovec um iov numIov buf len

/-- msg_write_locked: `aux` is the sender's aux_state, `mq` the queue of its
peer.  The handle count and length of the head free item are cleared before
the copy, whatever its outcome. -/
def msgWriteLocked (aux : AuxState) (mq : MsgQueue) (msg : MsgDesc) :
    Option (Int × AuxState × MsgQueue) :=
  match mq.freeList with
  | [] => some (errNotEnoughBuffer, { aux with sendBlocked := true }, mq)
  | id :: _ =>
    if (mq.item id).state ≠ .free then none
    else
      let mq := mq.setItem id { mq.item id with numHandles := 0, len := 0 }
      let r := msg.toMembuf mq.itemSz
      let mq := mq.setSlot id (r.2 ++ (mq.slot id).drop r.2.length)
      if r.1 < 0 then some (r.1, aux, mq)
      else
        let mq := (mq.unlink id).addFilledTail id
        some (r.1, aux, mq.setItem id { mq.item id with len := r.1.toNat, state := .filled })

/-- ipc_msg_info_t -/
structure MsgInfo where
  len : Nat
  id : Nat
  deriving DecidableEq, Repr

/-- msg_peek_next_filled_locked -/
def msgPeekNextFilledLocked (mq : MsgQueue) : Except Int MsgInfo :=
  match mq.filledList with
  | [] => .error errNoMsg
  | id :: _ => .ok ⟨(mq.item id).len, id⟩

/-- msg_get_filled_locked -/
def msgGetFilledLocked (mq : MsgQueue) : Option MsgQueue :=
  match mq.filledList with
  | [] => none
  | id :: _ =>
    let mq := (mq.unlink id).addReadTail id
    some (mq.setItem id { mq.item id with state := .read })

/-- msg_read_locked: the status and the writes into the reader's iovecs. -/
def msgReadLocked (mq : MsgQueue) (msgId offset : Nat) (msg : MsgDesc) :
    Int × List (Nat × List UInt8) :=
  match msgQueueGetItem mq msgId with
  | none => (errInvalidArgs, [])
  | some item =>
    if item.state ≠ .read then (errInvalidArgs, [])
    else if item.numHandles ≠ 0 then (errNotSupported, [])
    else if offset > item.len then (errInvalidArgs, [])
    else msg.fromMembuf ((mq.slot msgId).drop offset) (item.len - offset)

/-- msg_put_read_locked: `peer` is the aux_state of the channel's peer, if it
has one. -/
def msgPutReadLocked (mq : MsgQueue) (peer : Option AuxState) (msgId : Nat) :
    Int × MsgQueue × Option AuxState :=
  match msgQueueGetItem mq msgId with
  | none => (errInvalidArgs, mq, peer)
  | some item =>
    if item.state ≠ .read then (errInvalidArgs, mq, peer)
    else
      -- put it on the head since it was just taken off here
      let mq := (mq.unlink msgId).addFreeHead msgId
      let mq := mq.setItem msgId { mq.item msgId with state := .free }
      (0, mq, peer.map AuxState.unblock)

/-! ## One direction of a connected pair -/

/-- The sender's sends go into the receiver's queue. -/
structure Link where
  sender : Chan
  receiver : Chan

/-- The operations of ipc_msg.c on a link. -/
inductive Op where
  /-- ipc_send_msg or sys_send_msg on the sender's handle -/
  | send (msg : MsgDesc)
  /-- ipc_get_msg or sys_get_msg on the receiver's handle; `infoOk`: the info
  reaches the caller (sys_get_msg's copy_to_user may fault) -/
  | get (infoOk : Bool)
  /-- ipc_read_msg or sys_read_msg on the receiver's handle -/
  | read (msgId offset : Nat) (msg : MsgDesc)
  /-- ipc_put_msg or sys_put_msg on the receiver's handle -/
  | put (msgId : Nat)

/-- What an operation returns: its status, the info get_msg hands out, the
writes read_msg makes. -/
structure Reply where
  ret : Int
  info : Option MsgInfo
  writes : List (Nat × List UInt8)

namespace Link

def sendMsg (l : Link) (msg : MsgDesc) : Option (Reply × Link) :=
  let ret := checkChannelConnectedLocked l.sender
  if ret ≠ 0 then some (⟨ret, none, []⟩, l)
  else
    match msgWriteLocked l.sender.auxState l.receiver.msgQueue msg with
    | none => none
    | some (r, aux, mq) =>
      some (⟨r, none, []⟩, ⟨{ l.sender with auxState := aux }, { l.receiver with msgQueue := mq }⟩)

def getMsg (l : Link) (infoOk : Bool) : Option (Reply × Link) :=
  match msgPeekNextFilledLocked l.receiver.msgQueue with
  | .error e => some (⟨e, none, []⟩, l)
  | .ok info =>
    if !infoOk then some (⟨errFault, none, []⟩, l)
    else
      match msgGetFilledLocked l.receiver.msgQueue with
      | none => none
      | some mq => some (⟨0, some info, []⟩, { l with receiver := { l.receiver with msgQueue := mq } })

def readMsg (l : Link) (msgId offset : Nat) (msg : MsgDesc) : Reply :=
  let r := msgReadLocked l.receiver.msgQueue msgId offset msg
  ⟨r.1, none, r.2⟩

def putMsg (l : Link) (msgId : Nat) : Reply × Link :=
  let r := msgPutReadLocked l.receiver.msgQueue (some l.sender.auxState) msgId
  (⟨r.1, none, []⟩,
    ⟨{ l.sender with auxState := r.2.2.getD l.sender.auxState }, { l.receiver with msgQueue := r.2.1 }⟩)

/-- One operation under ipc_lock; `none` if a DEBUG_ASSERT fails. -/
def step (l : Link) : Op → Option (Reply × Link)
  | .send msg => l.sendMsg msg
  | .get infoOk => l.getMsg infoOk
  | .read msgId offset msg => some (l.readMsg msgId offset msg, l)
  | .put msgId => some (l.putMsg msgId)

end Link

/-! ## Items and buffers under the updates -/

namespace MsgQueue

variable {q : MsgQueue}

theorem item_setItem (q : MsgQueue) (id : Nat) (it : MsgItem) (h : id < q.items.length) (j : Nat) :
    (q.setItem id it).item j = if j = id then it else q.item j := by
  simp only [item, setItem, List.getD_eq_getElem?_getD, List.getElem?_set]
  by_cases hj : j = id
  · subst hj
    simp [h]
  · simp [hj, Ne.symm hj]

theorem slot_setSlot (q : MsgQueue) (id : Nat) (s : List UInt8) (h : id < q.buf.length) (j : Nat) :
    (q.setSlot id s).slot j = if j = id then s else q.slot j := by
  simp only [slot, setSlot, List.getD_eq_getElem?_getD, List.getElem?_set]
  by_cases hj : j = id
  · subst hj
    simp [h]
  · simp [hj, Ne.symm hj]

@[simp] theorem slot_setItem (id : Nat) (it : MsgItem) (j : Nat) : (q.setItem id it).slot j = q.slot j := rfl
@[simp] theorem item_setSlot (id : Nat) (s : List UInt8) (j : Nat) : (q.setSlot id s).item j = q.item j := rfl
@[simp] theorem item_unlink (id j : Nat) : (q.unlink id).item j = q.item j := rfl
@[simp] theorem slot_unlink (id j : Nat) : (q.unlink id).slot j = q.slot j := rfl
@[simp] theorem item_addFreeHead (id j : Nat) : (q.addFreeHead id).item j = q.item j := rfl
@[simp] theorem slot_addFreeHead (id j : Nat) : (q.addFreeHead id).slot j = q.slot j := rfl
@[simp] theorem item_addFilledTail (id j : Nat) : (q.addFilledTail id).item j = q.item j := rfl
@[simp] theorem slot_addFilledTail (id j : Nat) : (q.addFilledTail id).slot j = q.slot j := rfl
@[simp] theorem item_addReadTail (id j : Nat) : (q.addReadTail id).item j = q.item j := rfl
@[simp] theorem slot_addReadTail (id j : Nat) : (q.addReadTail id).slot j = q.slot j := rfl

/-! ## The invariant: every item on exactly the list its state names -/

/-- The three lists partition the item ids, each item's state names its list,
no item carries handles, and an item's length fits its buffer. -/
structure Inv (q : MsgQueue) : Prop where
  length_items : q.items.length = q.numItems
  length_buf : q.buf.length = q.numItems
  perm : (q.freeList ++ q.filledList ++ q.readList).Perm (List.range q.numItems)
  free : ∀ id ∈ q.freeList, (q.item id).state = .free
  filled : ∀ id ∈ q.filledList, (q.item id).state = .filled
  read : ∀ id ∈ q.readList, (q.item id).state = .read
  numHandles : ∀ id, (q.item id).numHandles = 0
  len_le : ∀ id, (q.item id).len ≤ (q.slot id).length

namespace Inv

theorem lt_of_mem (hq : q.Inv) {id : Nat} (h : id ∈ q.freeList ++ q.filledList ++ q.readList) :
    id < q.numItems :=
  List.mem_range.mp (hq.perm.mem_iff.mp h)

theorem mem_of_lt (hq : q.Inv) {id : Nat} (h : id < q.numItems) :
    id ∈ q.freeList ++ q.filledList ++ q.readList :=
  hq.perm.mem_iff.mpr (List.mem_range.mpr h)

theorem nodup (hq : q.Inv) : (q.freeList ++ q.filledList ++ q.readList).Nodup :=
  hq.perm.nodup_iff.mpr List.nodup_range

theorem not_filled_of_free (hq : q.Inv) {id : Nat} (h : id ∈ q.freeList) : id ∉ q.filledList := by
  intro h'
  have := hq.free id h
  rw [hq.filled id h'] at this
  cases this

theorem not_read_of_free (hq : q.Inv) {id : Nat} (h : id ∈ q.freeList) : id ∉ q.readList := by
  intro h'
  have := hq.free id h
  rw [hq.read id h'] at this
  cases this

theorem not_read_of_filled (hq : q.Inv) {id : Nat} (h : id ∈ q.filledList) : id ∉ q.readList := by
  intro h'
  have := hq.filled id h
  rw [hq.read id h'] at this
  cases this

/-- An item is in READ state exactly when it is on the read list. -/
theorem read_iff (hq : q.Inv) {id : Nat} (h : id < q.numItems) :
    (q.item id).state = .read ↔ id ∈ q.readList := by
  refine ⟨fun hs => ?_, hq.read id⟩
  rcases List.mem_append.mp (hq.mem_of_lt h) with h' | h'
  · rcases List.mem_append.mp h' with hf | hf
    · rw [hq.free id hf] at hs
      cases hs
    · rw [hq.filled id hf] at hs
      cases hs
  · exact h'

theorem nodup_read (hq : q.Inv) : q.readList.Nodup :=
  (List.nodup_append.mp hq.nodup).2.1

/-- The invariant after a change that keeps the buffers and every item's
handle count and length, from the lists and states it leaves. -/
theorem of_lists {q' : MsgQueue} (hq : q.Inv) (hn : q'.numItems = q.numItems)
    (hitems : q'.items.length = q.items.length) (hbuf : q'.buf = q.buf)
    (hfield : ∀ j, (q'.item j).numHandles = (q.item j).numHandles ∧ (q'.item j).len = (q.item j).len)
    (hperm : (q'.freeList ++ q'.filledList ++ q'.readList).Perm (q.freeList ++ q.filledList ++ q.readList))
    (hfree : ∀ j ∈ q'.freeList, (q'.item j).state = .free)
    (hfilled : ∀ j ∈ q'.filledList, (q'.item j).state = .filled)
    (hread : ∀ j ∈ q'.readList, (q'.item j).state = .read) : q'.Inv where
  length_items := by rw [hitems, hq.length_items, hn]
  length_buf := by rw [hbuf, hq.length_buf, hn]
  perm := by rw [hn]; exact hperm.trans hq.perm
  free := hfree
  filled := hfilled
  read := hread
  numHandles j := by rw [(hfield j).1, hq.numHandles j]
  len_le j := by
    have hs : q'.slot j = q.slot j := by simp only [slot, hbuf]
    rw [(hfield j).2, hs]
    exact hq.len_le j

end Inv

/-- A new queue: every item free. -/
theorem ipcMsgQueueCreate_inv (numItems itemSz : Nat) : (ipcMsgQueueCreate numItems itemSz).Inv where
  length_items := by simp [ipcMsgQueueCreate]
  length_buf := by simp [ipcMsgQueueCreate]
  perm := by simp [ipcMsgQueueCreate]
  free id _ := by
    simp only [item, ipcMsgQueueCreate, List.getD_eq_getElem?_getD, List.getElem?_replicate]
    split <;> rfl
  filled id h := by simp [ipcMsgQueueCreate] at h
  read id h := by simp [ipcMsgQueueCreate] at h
  numHandles id := by
    simp only [item, ipcMsgQueueCreate, List.getD_eq_getElem?_getD, List.getElem?_replicate]
    split <;> rfl
  len_le id := by
    simp only [item, ipcMsgQueueCreate, List.getD_eq_getElem?_getD, List.getElem?_replicate]
    split <;> simp

/-! ## The queue as a mailbox -/

/-- The filled items' messages in list order are pending; the read items'
messages are held under their ids. -/
def box (q : MsgQueue) : Mailbox.Box Nat (List UInt8) :=
  ⟨q.filledList.map q.body, q.readList.map fun id => (id, q.body id)⟩

theorem ids_box (q : MsgQueue) : q.box.ids = q.readList := by
  simp [box, Mailbox.Box.ids, Function.comp_def]

theorem Inv.wf (hq : q.Inv) : Mailbox.WF q.numItems q.box where
  bound := by
    have h := hq.perm.length_eq
    simp only [List.length_append, List.length_range] at h
    simp only [box, List.length_map]
    omega
  nodup := by
    rw [ids_box]
    exact hq.nodup_read

theorem map_body_congr {q' : MsgQueue} (l : List Nat) (h : ∀ j ∈ l, q'.body j = q.body j) :
    l.map q'.body = l.map q.body :=
  List.map_congr_left h

theorem map_held_congr {q' : MsgQueue} (l : List Nat) (h : ∀ j ∈ l, q'.body j = q.body j) :
    (l.map fun id => (id, q'.body id)) = l.map fun id => (id, q.body id) :=
  List.map_congr_left fun j hj => by rw [h j hj]

end MsgQueue

end Ipc
