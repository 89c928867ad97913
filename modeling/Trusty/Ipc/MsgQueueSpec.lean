import Trusty.Ipc.MsgQueue

/-!
# What each queue operation does

One spec lemma per function of ipc_msg.c, under the queue invariant
`MsgQueue.Inv`: what it returns, that it keeps the invariant, and what it does
to the queue's mailbox `MsgQueue.box`.  The link-level results are built from
these alone.
-/

namespace Ipc

/-- The iovecs a message descriptor names: a kernel message's own array, or
the user descriptors at its iov address. -/
def MsgDesc.Names : MsgDesc → List Iovec → Prop
  | .kern _ iov _, iovs => iov = iovs
  | .user um numIov iov _, iovs => numIov = iovs.length ∧ um.HasIovecs iov iovs

/-- The memory a descriptor's iovecs are in. -/
def MsgDesc.mem : MsgDesc → Nat → UInt8
  | .kern mem _ _ => mem
  | .user um _ _ _ => um.byte

/-! ## The copies of a descriptor -/

namespace MsgDesc

theorem toMembuf_ret (msg : MsgDesc) (len : Nat) (h : 0 ≤ (msg.toMembuf len).1) :
    (msg.toMembuf len).1 = (msg.toMembuf len).2.length := by
  cases msg with
  | kern mem iov numHandles =>
    simp only [toMembuf] at h ⊢
    split
    · rw [if_pos ‹_›] at h
      exact absurd h (by decide)
    · rw [if_neg ‹_›] at h
      exact kernIovecToMembuf_ret mem len iov h
  | user um numIov iov numHandles =>
    simp only [toMembuf] at h ⊢
    split
    · rw [if_pos ‹_›] at h
      exact absurd h (by decide)
    · rw [if_neg ‹_›] at h
      exact userIovecToMembuf_ret um len iov numIov h

/-- A copy into an item buffer never fails for want of a buffer. -/
theorem toMembuf_ne_full (msg : MsgDesc) (len : Nat) : (msg.toMembuf len).1 ≠ errNotEnoughBuffer := by
  cases msg with
  | kern mem iov numHandles =>
    simp only [toMembuf]
    split
    · decide
    · rcases kernIovecToMembuf_ret_cases mem len iov with h | h
      · intro he
        rw [he] at h
        exact absurd h (by decide)
      · rw [h]
        decide
  | user um numIov iov numHandles =>
    simp only [toMembuf]
    split
    · decide
    · rcases userIovecToMembuf_ret_cases um len iov numIov with h | h
      · intro he
        rw [he] at h
        exact absurd h (by decide)
      · rw [h]
        decide

/-- A copy into the item buffer that succeeds holds the first bytes of the
sender's iovecs, as many as fit. -/
theorem toMembuf_of_nonneg {msg : MsgDesc} {iovs : List Iovec} (hn : msg.Names iovs) (len : Nat)
    (h : 0 ≤ (msg.toMembuf len).1) :
    msg.toMembuf len = (((min len (totalLen iovs) : Nat) : Int), (contents msg.mem iovs).take len) := by
  cases msg with
  | kern mem iov numHandles =>
    simp only [Names] at hn
    subst hn
    simp only [toMembuf, MsgDesc.mem] at h ⊢
    split
    · rename_i hh
      rw [if_pos hh] at h
      exact absurd h (by decide)
    · rw [if_neg ‹_›] at h
      exact kernIovecToMembuf_of_nonneg mem len _ h
  | user um numIov iov numHandles =>
    obtain ⟨rfl, hiov⟩ := hn
    simp only [toMembuf, MsgDesc.mem] at h ⊢
    split
    · rename_i hh
      rw [if_pos hh] at h
      exact absurd h (by decide)
    · rw [if_neg ‹_›] at h
      exact userIovecToMembuf_of_nonneg um len iov iovs hiov h

/-- A copy out of `len` bytes of a buffer that succeeds lays them into the
reader's iovecs in order. -/
theorem fromMembuf_of_nonneg {msg : MsgDesc} {iovs : List Iovec} (hn : msg.Names iovs)
    (buf : List UInt8) (len : Nat) (hlen : len ≤ buf.length) (h : 0 ≤ (msg.fromMembuf buf len).1) :
    msg.fromMembuf buf len = (((min len (totalLen iovs) : Nat) : Int), fill iovs (buf.take len)) := by
  cases msg with
  | kern mem iov numHandles =>
    simp only [Names] at hn
    subst hn
    simp only [fromMembuf] at h ⊢
    split
    · rename_i hh
      rw [if_pos hh] at h
      exact absurd h (by decide)
    · rw [if_neg ‹_›] at h
      exact membufToKernIovec_of_nonneg _ buf len hlen h
  | user um numIov iov numHandles =>
    obtain ⟨rfl, hiov⟩ := hn
    simp only [fromMembuf] at h ⊢
    split
    · rename_i hh
      rw [if_pos hh] at h
      exact absurd h (by decide)
    · rw [if_neg ‹_›] at h
      exact membufToUserIovec_of_nonneg um iov iovs buf len hiov hlen h

end MsgDesc

namespace MsgQueue

variable {mq : MsgQueue}

theorem length_body (hq : mq.Inv) (id : Nat) : (mq.body id).length = (mq.item id).len := by
  simp only [body, List.length_take]
  exact Nat.min_eq_left (hq.len_le id)

theorem mem_all_of_free {id : Nat} (h : id ∈ mq.freeList) :
    id ∈ mq.freeList ++ mq.filledList ++ mq.readList :=
  List.mem_append_left _ (List.mem_append_left _ h)

/-! ## msg_write_locked -/

/-- The state a send leaves before it moves the item: the head free item
cleared and the copy written to its buffer. -/
theorem Inv.clearWrite (hq : mq.Inv) {id : Nat} (hid : id ∈ mq.freeList) (bytes : List UInt8) :
    let q1 := (mq.setItem id { mq.item id with numHandles := 0, len := 0 }).setSlot id
      (bytes ++ (mq.slot id).drop bytes.length)
    q1.Inv ∧ q1.box = mq.box ∧ (q1.item id).state = .free := by
  intro q1
  have hlt := hq.lt_of_mem (mem_all_of_free hid)
  have hli : id < mq.items.length := by rw [hq.length_items]; exact hlt
  have hlb : id < (mq.setItem id { mq.item id with numHandles := 0, len := 0 }).buf.length := by
    simp only [setItem_buf, hq.length_buf]; exact hlt
  -- every item but `id` keeps its state, length and buffer
  have hitem (j : Nat) : q1.item j = if j = id then { mq.item id with numHandles := 0, len := 0 } else mq.item j := by
    simp only [q1, item_setSlot]
    exact item_setItem mq id _ hli j
  have hslot (j : Nat) (hj : j ≠ id) : q1.slot j = mq.slot j := by
    simp only [q1]
    rw [slot_setSlot _ _ _ hlb, if_neg hj, slot_setItem]
  have hbody (j : Nat) (hj : j ≠ id) : q1.body j = mq.body j := by
    simp only [body, hslot j hj, hitem, if_neg hj]
  have hne_filled (j : Nat) (hj : j ∈ mq.filledList) : j ≠ id := fun e => hq.not_filled_of_free hid (e ▸ hj)
  have hne_read (j : Nat) (hj : j ∈ mq.readList) : j ≠ id := fun e => hq.not_read_of_free hid (e ▸ hj)
  refine ⟨⟨?_, ?_, ?_, ?_, ?_, ?_, ?_, ?_⟩, ?_, ?_⟩
  · simp only [q1, setSlot_items, setItem_items, List.length_set, hq.length_items, setSlot_numItems,
      setItem_numItems]
  · simp only [q1, setSlot_buf, setItem_buf, List.length_set, hq.length_buf, setSlot_numItems,
      setItem_numItems]
  · exact hq.perm
  · intro j hj
    rw [hitem]
    split
    · subst_vars
      exact hq.free _ hid
    · exact hq.free j hj
  · intro j hj
    rw [hitem, if_neg (hne_filled j hj)]
    exact hq.filled j hj
  · intro j hj
    rw [hitem, if_neg (hne_read j hj)]
    exact hq.read j hj
  · intro j
    rw [hitem]
    split
    · rfl
    · exact hq.numHandles j
  · intro j
    rw [hitem]
    split
    · exact Nat.zero_le _
    · rw [hslot j ‹_›]
      exact hq.len_le j
  · simp only [box, q1, setSlot_filledList, setItem_filledList, setSlot_readList, setItem_readList]
    rw [map_body_congr _ fun j hj => hbody j (hne_filled j hj),
      map_held_congr _ fun j hj => hbody j (hne_read j hj)]
  · rw [hitem, if_pos rfl]
    exact hq.free id hid

/-- The move of a send that succeeds: the head free item goes to the tail of
the filled list, holding the first `n` bytes of its buffer. -/
theorem Inv.fill (hq : mq.Inv) {id : Nat} {rest : List Nat} (hfree : mq.freeList = id :: rest)
    (n : Nat) (hn : n ≤ (mq.slot id).length) (hh : (mq.item id).numHandles = 0) :
    let q2 := ((mq.unlink id).addFilledTail id).setItem id
      { ((mq.unlink id).addFilledTail id).item id with len := n, state := .filled }
    q2.Inv ∧ q2.freeList = rest ∧ q2.body id = (mq.slot id).take n ∧
      q2.box = ⟨mq.box.pending ++ [(mq.slot id).take n], mq.box.held⟩ := by
  intro q2
  have hid : id ∈ mq.freeList := by rw [hfree]; exact List.mem_cons_self
  have hlt := hq.lt_of_mem (mem_all_of_free hid)
  have hli : id < ((mq.unlink id).addFilledTail id).items.length := by
    simp only [addFilledTail_items, unlink_items, hq.length_items]; exact hlt
  have hnf := hq.not_filled_of_free hid
  have hnr := hq.not_read_of_free hid
  have hrest : id ∉ rest := by
    have := hq.nodup
    rw [hfree, List.cons_append, List.cons_append, List.nodup_cons] at this
    exact fun h => this.1 (List.mem_append_left _ (List.mem_append_left _ h))
  have hitem (j : Nat) : q2.item j =
      if j = id then { mq.item id with len := n, state := .filled } else mq.item j := by
    simp only [q2]
    rw [item_setItem _ _ _ hli]
    simp only [item_addFilledTail, item_unlink]
  have hlists : q2.freeList = rest ∧ q2.filledList = mq.filledList ++ [id] ∧ q2.readList = mq.readList := by
    simp only [q2, setItem_freeList, setItem_filledList, setItem_readList, addFilledTail_freeList,
      addFilledTail_filledList, addFilledTail_readList, unlink_freeList, unlink_filledList,
      unlink_readList, hfree, List.erase_cons_head, List.erase_of_not_mem hnf, List.erase_of_not_mem hnr,
      and_self]
  have hbody (j : Nat) (hj : j ≠ id) : q2.body j = mq.body j := by
    simp only [body, hitem, if_neg hj, q2, slot_setItem, slot_addFilledTail, slot_unlink]
  have hbody_id : q2.body id = (mq.slot id).take n := by
    rw [body, hitem, if_pos rfl]
    simp only [q2, slot_setItem, slot_addFilledTail, slot_unlink]
  obtain ⟨hfr, hfl, hrd⟩ := hlists
  refine ⟨⟨?_, ?_, ?_, ?_, ?_, ?_, ?_, ?_⟩, hfr, hbody_id, ?_⟩
  · simp only [q2, setItem_items, List.length_set, addFilledTail_items, unlink_items,
      hq.length_items, setItem_numItems, addFilledTail_numItems, unlink_numItems]
  · simp only [q2, setItem_buf, addFilledTail_buf, unlink_buf, hq.length_buf, setItem_numItems,
      addFilledTail_numItems, unlink_numItems]
  · -- the head of the free list moves to the end of the filled list
    rw [hfr, hfl, hrd]
    simp only [q2, setItem_numItems, addFilledTail_numItems, unlink_numItems]
    refine List.Perm.trans ?_ (hfree ▸ hq.perm)
    simpa only [List.append_assoc, List.cons_append, List.singleton_append, List.nil_append] using
      (@List.perm_middle _ id (rest ++ mq.filledList) mq.readList)
  · intro j hj
    rw [hfr] at hj
    have hj' : j ≠ id := fun e => hrest (e ▸ hj)
    rw [hitem, if_neg hj']
    exact hq.free j (by rw [hfree]; exact List.mem_cons_of_mem _ hj)
  · intro j hj
    rw [hfl, List.mem_append, List.mem_singleton] at hj
    rw [hitem]
    split
    · rfl
    · exact hq.filled j (hj.resolve_right ‹_›)
  · intro j hj
    rw [hrd] at hj
    rw [hitem, if_neg (fun e : j = id => hnr (e ▸ hj))]
    exact hq.read j hj
  · intro j
    rw [hitem]
    split
    · exact hh
    · exact hq.numHandles j
  · intro j
    rw [hitem]
    split
    · simp only [q2, slot_setItem, slot_addFilledTail, slot_unlink]
      subst_vars
      exact hn
    · simp only [q2, slot_setItem, slot_addFilledTail, slot_unlink]
      exact hq.len_le j
  · simp only [box, hfl, hrd, List.map_append, List.map_cons, List.map_nil, hbody_id]
    rw [map_body_congr _ fun j hj => hbody j (fun e : j = id => hnf (e ▸ hj)),
      map_held_congr _ fun j hj => hbody j (fun e : j = id => hnr (e ▸ hj))]

/-- msg_write_locked with no free item: ERR_NOT_ENOUGH_BUFFER, and the sender
is marked blocked. -/
theorem msgWriteLocked_full (h : mq.freeList = []) (aux : AuxState) (msg : MsgDesc) :
    msgWriteLocked aux mq msg = some (errNotEnoughBuffer, { aux with sendBlocked := true }, mq) := by
  simp only [msgWriteLocked, h]

/-- msg_write_locked with a free item: its DEBUG_ASSERT holds, it returns the
status of the copy, and a copy that succeeds appends the copied bytes to the
pending messages as the body of the head free item. -/
theorem msgWriteLocked_free (hq : mq.Inv) {id : Nat} {rest : List Nat} (hfree : mq.freeList = id :: rest)
    (aux : AuxState) (msg : MsgDesc) :
    ∃ q', msgWriteLocked aux mq msg = some ((msg.toMembuf mq.itemSz).1, aux, q') ∧ q'.Inv ∧
      q'.numItems = mq.numItems ∧ q'.itemSz = mq.itemSz ∧
      if (msg.toMembuf mq.itemSz).1 < 0 then q'.box = mq.box
      else q'.box = ⟨mq.box.pending ++ [(msg.toMembuf mq.itemSz).2], mq.box.held⟩ ∧
        q'.body id = (msg.toMembuf mq.itemSz).2 := by
  have hid : id ∈ mq.freeList := by rw [hfree]; exact List.mem_cons_self
  obtain ⟨hq1, hbox1, -⟩ := hq.clearWrite hid (msg.toMembuf mq.itemSz).2
  simp only [msgWriteLocked, hfree]
  rw [if_neg (not_not.mpr (hq.free id hid))]
  simp only [setItem_itemSz, slot_setItem]
  by_cases hneg : (msg.toMembuf mq.itemSz).1 < 0
  · -- the copy failed: the item stays free, cleared
    simp only [hneg, ↓reduceIte]
    exact ⟨_, rfl, hq1, rfl, rfl, hbox1⟩
  · simp only [hneg, ↓reduceIte]
    have hret := msg.toMembuf_ret mq.itemSz (by omega)
    have hfree1 : ((mq.setItem id { mq.item id with numHandles := 0, len := 0 }).setSlot id
        ((msg.toMembuf mq.itemSz).2 ++ (mq.slot id).drop (msg.toMembuf mq.itemSz).2.length)).freeList =
        id :: rest := by
      simp only [setSlot_freeList, setItem_freeList, hfree]
    have hlen : (msg.toMembuf mq.itemSz).1.toNat = (msg.toMembuf mq.itemSz).2.length := by omega
    obtain ⟨hq2, -, hbody2, hbox2⟩ := hq1.fill hfree1 (msg.toMembuf mq.itemSz).1.toNat
      (by
        rw [hlen, slot_setSlot _ _ _ (by simp [hq.length_buf]; exact hq.lt_of_mem (mem_all_of_free hid)),
          if_pos rfl, List.length_append]
        omega)
      (by
        rw [item_setSlot, item_setItem _ _ _ (by rw [hq.length_items]; exact hq.lt_of_mem (mem_all_of_free hid)),
          if_pos rfl])
    have hslot : ((((mq.setItem id { mq.item id with numHandles := 0, len := 0 }).setSlot id
        ((msg.toMembuf mq.itemSz).2 ++ (mq.slot id).drop (msg.toMembuf mq.itemSz).2.length)).slot id).take
        (msg.toMembuf mq.itemSz).1.toNat) = (msg.toMembuf mq.itemSz).2 := by
      rw [slot_setSlot _ _ _ (by simp [hq.length_buf]; exact hq.lt_of_mem (mem_all_of_free hid)), if_pos rfl,
        hlen, List.take_left]
    rw [hslot, hbox1] at hbox2
    rw [hslot] at hbody2
    exact ⟨_, rfl, hq2, rfl, rfl, hbox2, hbody2⟩

/-! ## get_msg -/

theorem msgPeekNextFilledLocked_nil (h : mq.filledList = []) :
    msgPeekNextFilledLocked mq = .error errNoMsg := by
  simp only [msgPeekNextFilledLocked, h]

theorem msgPeekNextFilledLocked_cons {id : Nat} {rest : List Nat} (h : mq.filledList = id :: rest) :
    msgPeekNextFilledLocked mq = .ok ⟨(mq.item id).len, id⟩ := by
  simp only [msgPeekNextFilledLocked, h]

/-- msg_get_filled_locked: the head of the filled list goes to the tail of the
read list; its DEBUG_ASSERT holds after a peek that found it. -/
theorem msgGetFilledLocked_cons (hq : mq.Inv) {id : Nat} {rest : List Nat} (h : mq.filledList = id :: rest) :
    ∃ q', msgGetFilledLocked mq = some q' ∧ q'.Inv ∧ q'.numItems = mq.numItems ∧ q'.itemSz = mq.itemSz ∧
      q'.box = ⟨rest.map mq.body, mq.box.held ++ [(id, mq.body id)]⟩ := by
  have hid : id ∈ mq.filledList := by rw [h]; exact List.mem_cons_self
  have hlt := hq.lt_of_mem (List.mem_append_left _ (List.mem_append_right _ hid))
  have hnf : id ∉ mq.freeList := fun h' => hq.not_filled_of_free h' hid
  have hnr := hq.not_read_of_filled hid
  have hrest : id ∉ rest := by
    have := (List.nodup_append.mp hq.nodup).1
    rw [h, List.nodup_append, List.nodup_cons] at this
    exact this.2.1.1
  simp only [msgGetFilledLocked, h]
  refine ⟨_, rfl, ?_⟩
  set q' := ((mq.unlink id).addReadTail id).setItem id { ((mq.unlink id).addReadTail id).item id with state := .read }
  have hitem (j : Nat) : q'.item j = if j = id then { mq.item id with state := .read } else mq.item j := by
    simp only [q']
    rw [item_setItem _ _ _ (by simp only [addReadTail_items, unlink_items, hq.length_items]; exact hlt)]
    simp only [item_addReadTail, item_unlink]
  have hbody : q'.body = mq.body := by
    funext j
    simp only [body, hitem, q', slot_setItem, slot_addReadTail, slot_unlink]
    split
    · subst_vars
      rfl
    · rfl
  have hfr : q'.freeList = mq.freeList := by
    simp only [q', setItem_freeList, addReadTail_freeList, unlink_freeList, List.erase_of_not_mem hnf]
  have hfl : q'.filledList = rest := by
    simp only [q', setItem_filledList, addReadTail_filledList, unlink_filledList, h, List.erase_cons_head]
  have hrd : q'.readList = mq.readList ++ [id] := by
    simp only [q', setItem_readList, addReadTail_readList, unlink_readList, List.erase_of_not_mem hnr]
  refine ⟨hq.of_lists (by simp [q']) (by simp [q']) (by simp [q']) ?_ ?_ ?_ ?_ ?_, by simp [q'], by simp [q'], ?_⟩
  · intro j
    rw [hitem]
    split
    · subst_vars
      exact ⟨rfl, rfl⟩
    · exact ⟨rfl, rfl⟩
  · -- the head of the filled list moves to the end of the read list
    rw [hfr, hfl, hrd, h]
    have h1 : (mq.freeList ++ rest ++ (mq.readList ++ [id])).Perm (id :: (mq.freeList ++ rest ++ mq.readList)) := by
      rw [← List.append_assoc]
      exact List.perm_append_singleton _ _
    have h2 : (mq.freeList ++ id :: rest ++ mq.readList).Perm (id :: (mq.freeList ++ rest ++ mq.readList)) := by
      simpa only [List.append_assoc, List.cons_append] using
        @List.perm_middle _ id mq.freeList (rest ++ mq.readList)
    exact h1.trans h2.symm
  · intro j hj
    rw [hfr] at hj
    rw [hitem, if_neg (fun e : j = id => hnf (e ▸ hj))]
    exact hq.free j hj
  · intro j hj
    rw [hfl] at hj
    rw [hitem, if_neg (fun e : j = id => hrest (e ▸ hj))]
    exact hq.filled j (by rw [h]; exact List.mem_cons_of_mem _ hj)
  · intro j hj
    rw [hrd, List.mem_append, List.mem_singleton] at hj
    rw [hitem]
    split
    · rfl
    · exact hq.read j (hj.resolve_right ‹_›)
  · simp only [box, hfl, hrd, List.map_append, List.map_cons, List.map_nil, hbody]

/-! ## put_msg -/

theorem msgPutReadLocked_not_read (hq : mq.Inv) {id : Nat} (h : id ∉ mq.readList) (peer : Option AuxState) :
    msgPutReadLocked mq peer id = (errInvalidArgs, mq, peer) := by
  unfold msgPutReadLocked msgQueueGetItem
  by_cases hlt : id < mq.numItems
  · rw [if_pos hlt]
    simp only
    rw [if_pos (fun hs => h ((hq.read_iff hlt).mp hs))]
  · rw [if_neg hlt]

/-- msg_put_read_locked of a read item: it returns to the head of the free
list, and a blocked sender is unblocked. -/
theorem msgPutReadLocked_read (hq : mq.Inv) {id : Nat} (h : id ∈ mq.readList) (peer : Option AuxState) :
    ∃ q', msgPutReadLocked mq peer id = (0, q', peer.map AuxState.unblock) ∧ q'.Inv ∧
      q'.numItems = mq.numItems ∧ q'.itemSz = mq.itemSz ∧ q'.freeList = id :: mq.freeList ∧ (q'.item id).state = .free ∧
      q'.box = ⟨mq.box.pending, mq.box.held.filter (·.1 ≠ id)⟩ := by
  have hlt := hq.lt_of_mem (List.mem_append_right _ h)
  have hnf : id ∉ mq.freeList := fun h' => hq.not_read_of_free h' h
  have hnl : id ∉ mq.filledList := fun h' => hq.not_read_of_filled h' h
  unfold msgPutReadLocked msgQueueGetItem
  rw [if_pos hlt]
  simp only
  rw [if_neg (not_not.mpr (hq.read id h))]
  refine ⟨_, rfl, ?_⟩
  set q' := ((mq.unlink id).addFreeHead id).setItem id { ((mq.unlink id).addFreeHead id).item id with state := .free }
  have hitem (j : Nat) : q'.item j = if j = id then { mq.item id with state := .free } else mq.item j := by
    simp only [q']
    rw [item_setItem _ _ _ (by simp only [addFreeHead_items, unlink_items, hq.length_items]; exact hlt)]
    simp only [item_addFreeHead, item_unlink]
  have hbody : q'.body = mq.body := by
    funext j
    simp only [body, hitem, q', slot_setItem, slot_addFreeHead, slot_unlink]
    split
    · subst_vars
      rfl
    · rfl
  have hfr : q'.freeList = id :: mq.freeList := by
    simp only [q', setItem_freeList, addFreeHead_freeList, unlink_freeList, List.erase_of_not_mem hnf]
  have hfl : q'.filledList = mq.filledList := by
    simp only [q', setItem_filledList, addFreeHead_filledList, unlink_filledList, List.erase_of_not_mem hnl]
  have hrd : q'.readList = mq.readList.erase id := by
    simp only [q', setItem_readList, addFreeHead_readList, unlink_readList]
  have hnd := hq.nodup_read
  refine ⟨hq.of_lists (by simp [q']) (by simp [q']) (by simp [q']) ?_ ?_ ?_ ?_ ?_, by simp [q'], by simp [q'], hfr,
    by rw [hitem, if_pos rfl], ?_⟩
  · intro j
    rw [hitem]
    split
    · subst_vars
      exact ⟨rfl, rfl⟩
    · exact ⟨rfl, rfl⟩
  · -- the item leaves the read list for the head of the free list
    rw [hfr, hfl, hrd]
    have hperm := (List.perm_cons_erase h).append_left (mq.freeList ++ mq.filledList)
    simpa only [List.cons_append, List.append_assoc] using
      (hperm.trans (@List.perm_middle _ id (mq.freeList ++ mq.filledList) (mq.readList.erase id))).symm
  · intro j hj
    rw [hfr, List.mem_cons] at hj
    rw [hitem]
    split
    · rfl
    · exact hq.free j (hj.resolve_left ‹_›)
  · intro j hj
    rw [hfl] at hj
    rw [hitem, if_neg (fun e : j = id => hnl (e ▸ hj))]
    exact hq.filled j hj
  · intro j hj
    rw [hrd] at hj
    have hj' : j ≠ id := fun e => List.Nodup.not_mem_erase hnd (e ▸ hj)
    rw [hitem, if_neg hj']
    exact hq.read j (List.mem_of_mem_erase hj)
  · simp only [box, hfl, hrd, hbody, Mailbox.Box.mk.injEq, true_and]
    rw [hnd.erase_eq_filter, List.filter_map]
    congr 1
    apply List.filter_congr
    intro j _
    simp [bne, beq_eq_decide]

/-! ## read_msg -/

/-- msg_read_locked succeeds only for a read item and an offset within its
message, and then copies out of the message from the offset. -/
theorem msgReadLocked_of_nonneg (hq : mq.Inv) {id off : Nat} {msg : MsgDesc}
    (h : 0 ≤ (msgReadLocked mq id off msg).1) :
    id ∈ mq.readList ∧ off ≤ (mq.body id).length ∧
      msgReadLocked mq id off msg = msg.fromMembuf ((mq.slot id).drop off) ((mq.item id).len - off) := by
  unfold msgReadLocked msgQueueGetItem at h ⊢
  by_cases hlt : id < mq.numItems
  · rw [if_pos hlt] at h ⊢
    simp only at h ⊢
    by_cases hs : (mq.item id).state = .read
    · rw [if_neg (not_not.mpr hs)] at h ⊢
      rw [if_neg (not_not.mpr (hq.numHandles id))] at h ⊢
      by_cases hoff : off > (mq.item id).len
      · rw [if_pos hoff] at h
        exact absurd h (by decide)
      · rw [if_neg hoff]
        exact ⟨(hq.read_iff hlt).mp hs, by rw [length_body hq]; omega, rfl⟩
    · rw [if_pos hs] at h
      exact absurd h (by decide)
  · rw [if_neg hlt] at h
    simp only at h
    exact absurd h (by decide)

end MsgQueue

end Ipc
