import Trusty.Ipc.MsgQueueSpec

/-!
# Message passing on a connected channel, over whole runs

`Link.OpSpec` says what each operation returns and does to the receiver's
mailbox, at any state where the queue invariant holds and the sender is
connected; `Link.step_spec` proves it, with progress (no DEBUG_ASSERT fails).
`Link.OpSpec.refines` reads a mailbox move off it, so every run of the link
is a run of a bounded mailbox (`Link.runs_exist`); the mailbox's run lemmas
then give the order in which messages are handed out.
-/

namespace Ipc

namespace Link

/-- The receiver's mailbox. -/
def box (l : Link) : Mailbox.Box Nat (List UInt8) := l.receiver.msgQueue.box

/-- What an operation did to the mailbox: the bytes a send copied, the
message a get handed out under its id, the id a put released. -/
def event (l : Link) (op : Op) (rep : Reply) : Mailbox.Event Nat (List UInt8) :=
  match op with
  | .send msg => if 0 ≤ rep.ret then .send (msg.toMembuf l.receiver.msgQueue.itemSz).2 else .skip
  | .get _ =>
    match rep.info with
    | some info => .take info.id (l.receiver.msgQueue.body info.id)
    | none => .skip
  | .read .. => .skip
  | .put msgId => if rep.ret = 0 then .release msgId else .skip

/-- What each operation returns and does, at a link `l`. -/
def OpSpec (l : Link) : Op → Reply → Link → Prop
  | .send msg, rep, l' =>
    -- a send fails for want of a buffer exactly when every item is filled or read,
    -- and then marks the sender blocked
    (rep.ret = errNotEnoughBuffer ↔
      l.box.pending.length + l.box.held.length = l.receiver.msgQueue.numItems) ∧
    (rep.ret = errNotEnoughBuffer → l'.sender.auxState.sendBlocked = true) ∧
    (rep.ret < 0 → l'.box = l.box) ∧
    -- a send that succeeds appends the copied bytes: the first `min S total` of the iovecs
    (0 ≤ rep.ret →
      l'.box = ⟨l.box.pending ++ [(msg.toMembuf l.receiver.msgQueue.itemSz).2], l.box.held⟩ ∧
      ∀ iovs, msg.Names iovs →
        rep.ret = min l.receiver.msgQueue.itemSz (totalLen iovs) ∧
        (msg.toMembuf l.receiver.msgQueue.itemSz).2 = (contents msg.mem iovs).take l.receiver.msgQueue.itemSz)
  | .get _, rep, l' =>
    (rep.ret = errNoMsg ↔ l.box.pending = []) ∧
    (rep.info = none → l'.box = l.box) ∧
    -- a get that hands out a message hands out the oldest pending one, with its length
    ∀ info, rep.info = some info → ∃ m rest, l.box.pending = m :: rest ∧ rep.ret = 0 ∧
      info.len = m.length ∧ l.receiver.msgQueue.body info.id = m ∧ info.id ∉ l.box.ids ∧
      l'.box = ⟨rest, l.box.held ++ [(info.id, m)]⟩
  | .read msgId offset msg, rep, l' =>
    l' = l ∧
    -- a read that succeeds is of a held message, from an offset within it, and
    -- lays the message from the offset into the reader's iovecs in order
    (0 ≤ rep.ret → ∃ m, (msgId, m) ∈ l.box.held ∧ offset ≤ m.length ∧
      ∀ iovs, msg.Names iovs → rep.ret = min (m.length - offset) (totalLen iovs) ∧
        rep.writes = fill iovs (m.drop offset))
  | .put msgId, rep, l' =>
    (rep.ret = 0 ↔ msgId ∈ l.box.ids) ∧
    (rep.ret = 0 → l'.box = ⟨l.box.pending, l.box.held.filter (·.1 ≠ msgId)⟩ ∧
      msgId ∈ l'.receiver.msgQueue.freeList ∧ (l'.receiver.msgQueue.item msgId).state = .free ∧
      l'.sender.auxState.sendBlocked = false) ∧
    (rep.ret ≠ 0 → l' = l)

/-- The receiver's queue has its invariant, `numItems` items of `itemSz`
bytes, and the sender is connected. -/
structure Ok (l : Link) (numItems itemSz : Nat) : Prop where
  inv : l.receiver.msgQueue.Inv
  numItems_eq : l.receiver.msgQueue.numItems = numItems
  itemSz_eq : l.receiver.msgQueue.itemSz = itemSz
  connected : l.sender.state = .connected

variable {l : Link} {N S : Nat}

theorem AuxState.unblock_sendBlocked (aux : AuxState) : aux.unblock.sendBlocked = false := by
  unfold AuxState.unblock
  split
  · rfl
  · rename_i hb
    simpa using hb

theorem full_iff (hq : l.receiver.msgQueue.Inv) :
    l.box.pending.length + l.box.held.length = l.receiver.msgQueue.numItems ↔
      l.receiver.msgQueue.freeList = [] := by
  have h := hq.perm.length_eq
  simp only [List.length_append, List.length_range] at h
  simp only [box, MsgQueue.box, List.length_map, ← List.length_eq_zero_iff]
  omega

theorem sendMsg_spec (h : l.Ok N S) (msg : MsgDesc) :
    ∃ rep l', l.sendMsg msg = some (rep, l') ∧ l.OpSpec (.send msg) rep l' ∧ l'.Ok N S := by
  have hq := h.inv
  unfold sendMsg
  rw [show checkChannelConnectedLocked l.sender = 0 by simp [checkChannelConnectedLocked, h.connected]]
  simp only [ne_eq, not_true_eq_false, ↓reduceIte]
  cases hf : l.receiver.msgQueue.freeList with
  | nil =>
    rw [MsgQueue.msgWriteLocked_full hf]
    refine ⟨_, _, rfl, ⟨?_, fun _ => rfl, fun _ => rfl, fun hr => absurd hr (by decide)⟩, ?_⟩
    · exact ⟨fun _ => (full_iff hq).mpr hf, fun _ => rfl⟩
    · exact ⟨hq, h.numItems_eq, h.itemSz_eq, h.connected⟩
  | cons id rest =>
    obtain ⟨q', hw, hq', hn, hs, hbox⟩ := MsgQueue.msgWriteLocked_free hq hf l.sender.auxState msg
    rw [hw]
    refine ⟨_, _, rfl, ⟨?_, ?_, ?_, ?_⟩, ⟨hq', by rw [← h.numItems_eq]; exact hn, by rw [← h.itemSz_eq]; exact hs,
      h.connected⟩⟩
    · -- a free item exists, and a copy never fails for want of a buffer
      refine ⟨fun he => absurd he (msg.toMembuf_ne_full _), fun hfull => ?_⟩
      rw [(full_iff hq).mp hfull] at hf
      cases hf
    · intro he
      exact absurd he (msg.toMembuf_ne_full _)
    · intro hneg
      simp only [hneg, ↓reduceIte] at hbox
      exact hbox
    · intro hpos
      simp only [not_lt.mpr hpos, ↓reduceIte] at hbox
      refine ⟨hbox.1, fun iovs hn => ?_⟩
      have := msg.toMembuf_of_nonneg hn _ hpos
      rw [this]
      exact ⟨rfl, rfl⟩

theorem getMsg_spec (h : l.Ok N S) (infoOk : Bool) :
    ∃ rep l', l.getMsg infoOk = some (rep, l') ∧ l.OpSpec (.get infoOk) rep l' ∧ l'.Ok N S := by
  have hq := h.inv
  unfold getMsg
  cases hf : l.receiver.msgQueue.filledList with
  | nil =>
    rw [MsgQueue.msgPeekNextFilledLocked_nil hf]
    refine ⟨_, _, rfl, ⟨?_, fun _ => rfl, fun _ hi => by simp at hi⟩, h⟩
    simp [box, MsgQueue.box, hf]
  | cons id rest =>
    rw [MsgQueue.msgPeekNextFilledLocked_cons hf]
    have hpend : l.box.pending = l.receiver.msgQueue.body id :: rest.map l.receiver.msgQueue.body := by
      simp [box, MsgQueue.box, hf]
    cases infoOk with
    | false =>
      refine ⟨_, _, rfl, ⟨?_, fun _ => rfl, fun _ hi => by simp at hi⟩, h⟩
      rw [hpend]
      exact ⟨fun he => absurd he (by decide), fun hn => by cases hn⟩
    | true =>
      obtain ⟨q', hg, hq', hn, hs, hbox⟩ := MsgQueue.msgGetFilledLocked_cons hq hf
      simp only [Bool.not_true, Bool.false_eq_true, ↓reduceIte, hg]
      refine ⟨_, _, rfl, ⟨?_, fun hi => by simp at hi, ?_⟩, ⟨hq', by rw [← h.numItems_eq]; exact hn,
        by rw [← h.itemSz_eq]; exact hs, h.connected⟩⟩
      · rw [hpend]
        exact ⟨fun he => by simp [errNoMsg] at he, fun hn => by cases hn⟩
      · intro info hi
        cases hi
        refine ⟨_, _, hpend, rfl, (MsgQueue.length_body hq id).symm, rfl, ?_, hbox⟩
        rw [box, MsgQueue.ids_box]
        exact hq.not_read_of_filled (by rw [hf]; exact List.mem_cons_self)

theorem readMsg_spec (h : l.Ok N S) (msgId offset : Nat) (msg : MsgDesc) :
    l.OpSpec (.read msgId offset msg) (l.readMsg msgId offset msg) l := by
  have hq := h.inv
  refine ⟨rfl, fun hpos => ?_⟩
  obtain ⟨hread, hoff, hr⟩ := MsgQueue.msgReadLocked_of_nonneg hq hpos
  refine ⟨_, List.mem_map.mpr ⟨msgId, hread, rfl⟩, hoff, fun iovs hn => ?_⟩
  have hlen : (l.receiver.msgQueue.item msgId).len - offset ≤
      ((l.receiver.msgQueue.slot msgId).drop offset).length := by
    have := hq.len_le msgId
    simp only [List.length_drop]
    omega
  simp only [readMsg] at hpos ⊢
  rw [hr] at hpos ⊢
  rw [msg.fromMembuf_of_nonneg hn _ _ hlen hpos, MsgQueue.length_body hq]
  refine ⟨rfl, ?_⟩
  simp only [MsgQueue.body, List.drop_take]

theorem putMsg_spec (h : l.Ok N S) (msgId : Nat) :
    l.OpSpec (.put msgId) (l.putMsg msgId).1 (l.putMsg msgId).2 ∧ (l.putMsg msgId).2.Ok N S := by
  have hq := h.inv
  have hids : l.box.ids = l.receiver.msgQueue.readList := MsgQueue.ids_box _
  by_cases hr : msgId ∈ l.receiver.msgQueue.readList
  · obtain ⟨q', hp, hq', hn, hs, hfree, hst, hbox⟩ :=
      MsgQueue.msgPutReadLocked_read hq hr (some l.sender.auxState)
    simp only [putMsg, hp, Option.map_some, Option.getD_some]
    refine ⟨⟨?_, fun _ => ⟨hbox, by rw [hfree]; exact List.mem_cons_self, hst,
      AuxState.unblock_sendBlocked _⟩, fun h0 => absurd rfl h0⟩,
      ⟨hq', by rw [← h.numItems_eq]; exact hn, by rw [← h.itemSz_eq]; exact hs, h.connected⟩⟩
    rw [hids]
    exact ⟨fun _ => hr, fun _ => rfl⟩
  · have hp := MsgQueue.msgPutReadLocked_not_read hq hr (some l.sender.auxState)
    simp only [putMsg, hp, Option.getD_some]
    refine ⟨⟨?_, fun h0 => absurd h0 (by decide), fun _ => rfl⟩, h⟩
    rw [hids]
    exact ⟨fun h0 => absurd h0 (by decide), fun hm => absurd hm hr⟩

/-- At a link whose queue keeps its invariant and whose sender is connected,
every operation completes (no DEBUG_ASSERT fails), does what `OpSpec` says,
and leaves such a link. -/
theorem step_spec (h : l.Ok N S) (op : Op) :
    ∃ rep l', l.step op = some (rep, l') ∧ l.OpSpec op rep l' ∧ l'.Ok N S := by
  cases op with
  | send msg => exact sendMsg_spec h msg
  | get infoOk => exact getMsg_spec h infoOk
  | read msgId offset msg => exact ⟨_, _, rfl, readMsg_spec h msgId offset msg, h⟩
  | put msgId =>
    obtain ⟨hs, hok⟩ := putMsg_spec h msgId
    exact ⟨_, _, rfl, hs, hok⟩

/-- What an operation does is a move of the mailbox. -/
theorem OpSpec.refines {op : Op} {rep : Reply} {l' : Link} (h : l.Ok N S) (hs : l.OpSpec op rep l') :
    Mailbox.Step N l.box (l.event op rep) l'.box := by
  have hwf : Mailbox.WF N l.box := by
    have := h.inv.wf
    rw [h.numItems_eq] at this
    exact this
  cases op with
  | send msg =>
    obtain ⟨hfull, -, hneg, hpos⟩ := hs
    simp only [event]
    by_cases hr : 0 ≤ rep.ret
    · rw [if_pos hr, (hpos hr).1]
      apply Mailbox.Step.send
      -- a send that succeeds found room
      have hne : rep.ret ≠ errNotEnoughBuffer := by
        intro he
        rw [he] at hr
        exact absurd hr (by decide)
      have := hwf.bound
      rw [h.numItems_eq] at hfull
      have hnfull := mt hfull.mpr hne
      omega
    · rw [if_neg hr, hneg (by omega)]
      exact .skip _
  | get infoOk =>
    obtain ⟨-, hnone, hsome⟩ := hs
    simp only [event]
    cases hi : rep.info with
    | none =>
      rw [hnone hi]
      exact .skip _
    | some info =>
      obtain ⟨m, rest, hpend, -, -, hbody, hfresh, hbox⟩ := hsome info hi
      simp only
      rw [hbody, hbox]
      exact .take _ _ _ _ hpend hfresh
  | read msgId offset msg =>
    obtain ⟨rfl, -⟩ := hs
    exact .skip _
  | put msgId =>
    obtain ⟨hiff, hok, hfail⟩ := hs
    simp only [event]
    by_cases hr : rep.ret = 0
    · rw [if_pos hr, (hok hr).1]
      exact .release _ _ (hiff.mp hr)
    · rw [if_neg hr, hfail hr]
      exact .skip _

/-- A run of the link: the operations in order, with their replies and the
mailbox events they make. -/
inductive Runs : Link → List Op → List Reply → List (Mailbox.Event Nat (List UInt8)) → Link → Prop
  | nil (l : Link) : Runs l [] [] [] l
  | cons {l l' l'' : Link} {op : Op} {ops : List Op} {rep : Reply} {reps : List Reply}
      {es : List (Mailbox.Event Nat (List UInt8))} :
      l.step op = some (rep, l') → Runs l' ops reps es l'' →
      Runs l (op :: ops) (rep :: reps) (l.event op rep :: es) l''

/-- Every sequence of operations runs to the end, keeps the link as `Ok`
says, and is a run of the mailbox. -/
theorem runs_exist (h : l.Ok N S) (ops : List Op) :
    ∃ reps es l', l.Runs ops reps es l' ∧ l'.Ok N S ∧ Mailbox.Steps N l.box es l'.box := by
  induction ops generalizing l with
  | nil => exact ⟨[], [], l, .nil l, h, .nil _⟩
  | cons op ops ih =>
    obtain ⟨rep, l₁, hstep, hspec, h₁⟩ := step_spec h op
    obtain ⟨reps, es, l', hruns, h', hsteps⟩ := ih h₁
    exact ⟨rep :: reps, _, l', .cons hstep hruns, h', .cons (hspec.refines h) hsteps⟩

/-- Along every sequence of sends, gets, reads and puts on a link whose queue
has `N` items of `S` bytes and whose sender is connected: the run completes,
the items stay partitioned among the three lists in the states that name
them (`Ok`), messages are handed out in the order their sends succeeded, each
at most once, a message handed out under an id is what reads of the id see
until it is put, and every next operation does what `OpSpec` says. -/
theorem msgQueue_fifo (l : Link) (N S : Nat) (h : l.Ok N S) (ops : List Op) :
    ∃ reps es l', l.Runs ops reps es l' ∧ l'.Ok N S ∧
      es.flatMap Mailbox.Event.taken <+: l.box.pending ++ es.flatMap Mailbox.Event.sent ∧
      (∀ es₁ i m es₂, es = es₁ ++ Mailbox.Event.take i m :: es₂ → Mailbox.Event.release i ∉ es₂ →
        (i, m) ∈ l'.box.held) ∧
      ∀ op, ∃ rep l'', l'.step op = some (rep, l'') ∧ l'.OpSpec op rep l'' := by
  obtain ⟨reps, es, l', hruns, h', hsteps⟩ := runs_exist h ops
  refine ⟨reps, es, l', hruns, h', hsteps.taken_prefix, ?_, fun op => ?_⟩
  · rintro es₁ i m es₂ rfl hne
    exact hsteps.held_of_take hne
  · obtain ⟨rep, l'', hstep, hspec, -⟩ := step_spec h' op
    exact ⟨rep, l'', hstep, hspec⟩

/-- A connected pair whose receiver has a new queue of two 4-byte items. -/
def freshLink : Link :=
  ⟨⟨.connected, ⟨false, false⟩, ipcMsgQueueCreate 1 1⟩, ⟨.connected, ⟨false, false⟩, ipcMsgQueueCreate 2 4⟩⟩

/-- Two kernel sends of four bytes each, a get and a put of the message got. -/
def sendSendGetPut : List Op :=
  [.send (.kern (fun a => a.toUInt8) [⟨0, 4⟩] 0), .send (.kern (fun a => a.toUInt8) [⟨4, 4⟩] 0),
    .get true, .put 0]

/-- On `freshLink`, two sends, then a get and a put: the messages taken are
a prefix of those sent, in order, and a message taken and not yet put is
held. -/
theorem msgQueue_fifo_fresh :
    freshLink.Ok 2 4 ∧ ∃ reps es l', freshLink.Runs sendSendGetPut reps es l' ∧ l'.Ok 2 4 ∧
      es.flatMap Mailbox.Event.taken <+: freshLink.box.pending ++ es.flatMap Mailbox.Event.sent ∧
      (∀ es₁ i m es₂, es = es₁ ++ Mailbox.Event.take i m :: es₂ → Mailbox.Event.release i ∉ es₂ →
        (i, m) ∈ l'.box.held) ∧
      ∀ op, ∃ rep l'', l'.step op = some (rep, l'') ∧ l'.OpSpec op rep l'' :=
  have h : freshLink.Ok 2 4 := ⟨MsgQueue.ipcMsgQueueCreate_inv 2 4, rfl, rfl, rfl⟩
  ⟨h, msgQueue_fifo freshLink 2 4 h sendSendGetPut⟩

end Link

end Ipc
