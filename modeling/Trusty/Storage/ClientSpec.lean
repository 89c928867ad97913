import Trusty.Storage.Client

/-!
# `storage_write` over delivered chunks

A call `storage_write(handle, off, buf, size, opflags)` with
`STORAGE_OP_COMPLETE`, every chunk of which the IPC delivers and answers, the
rest of the system acting on the session in between, is atomic
(`storageWrite_atomic`): the loop sends the requests of `WriteLoop.after` in
order, only the last with `STORAGE_MSG_FLAG_TRANSACT_COMPLETE`, and either
returns `size` with every change the chunks made committed in one
transaction, or returns an error with every such change discarded, never to
be committed.

The proof follows the session through three states (`Progress`): nothing
made yet; the chunks' changes pending in the live transaction, with the file
open for the next chunk (`Pending`); or discarded, with the transaction
failed.  `WriteInv` adds the loop's variables and the requests sent, and
every delivered action keeps it.
-/

namespace StorageClient

open ClientTipc ClientTipc.Session

variable {s s' s₀ s₁ : Session} {handle pos off size offset len i : Nat} {opflags flags : UInt32}
  {disk : List FsAnswer} {e : StorageErr} {rc : Int}

/-! ## The loop -/

/-- The loop's variables before its chunk `i`, the earlier chunks written. -/
def WriteLoop.after (handle off size : Nat) (opflags : UInt32) (i : Nat) : WriteLoop :=
  ⟨handle, off + maxChunkSize * i, size - maxChunkSize * i, maxChunkSize * i, opflags⟩

/-- `ceil(size / MAX_CHUNK_SIZE)`: the number of chunks of a write. -/
def chunkCount (size : Nat) : Nat := (size + maxChunkSize - 1) / maxChunkSize

theorem lt_chunkCount_iff : i < chunkCount size ↔ maxChunkSize * i < size := by
  unfold chunkCount maxChunkSize
  omega

theorem chunkCount_last (h : maxChunkSize * i < size) (hl : size ≤ maxChunkSize * (i + 1)) :
    chunkCount size = i + 1 := by
  unfold chunkCount maxChunkSize at *
  omega

theorem toMsgFlags_complete (hc : opflags &&& storageOpComplete ≠ 0) :
    transactComplete (toMsgFlags opflags) = true := by
  rw [toMsgFlags, if_pos (by simpa using hc)]
  decide

/-- The flags of a chunk before the last. -/
theorem toMsgFlags_clear (opflags : UInt32) :
    transactComplete (toMsgFlags (opflags &&& ~~~storageOpComplete)) = false := by
  have h : opflags &&& ~~~storageOpComplete &&& storageOpComplete = 0 := by
    simp only [storageOpComplete]
    rw [UInt32.and_assoc]
    simp
  rw [toMsgFlags, if_neg (by simp [h])]
  decide

theorem after_size (handle off size : Nat) (opflags : UInt32) (i : Nat) :
    (WriteLoop.after handle off size opflags i).size = size - maxChunkSize * i := rfl

theorem after_chunk_last (h : size ≤ maxChunkSize * (i + 1)) :
    (WriteLoop.after handle off size opflags i).chunk = (size - maxChunkSize * i, toMsgFlags opflags) := by
  have hc : maxChunkSize ≥ (WriteLoop.after handle off size opflags i).size := by
    rw [after_size]; unfold maxChunkSize at *; omega
  rw [WriteLoop.chunk, if_pos hc]
  rfl

theorem after_chunk_full (h : maxChunkSize * (i + 1) < size) :
    (WriteLoop.after handle off size opflags i).chunk =
      (maxChunkSize, toMsgFlags (opflags &&& ~~~storageOpComplete)) := by
  have hc : ¬maxChunkSize ≥ (WriteLoop.after handle off size opflags i).size := by
    rw [after_size]; unfold maxChunkSize at *; omega
  rw [WriteLoop.chunk, if_neg hc]
  rfl

theorem after_chunk_pos (h : maxChunkSize * i < size) :
    0 < (WriteLoop.after handle off size opflags i).chunk.1 := by
  by_cases hl : size ≤ maxChunkSize * (i + 1)
  · rw [after_chunk_last hl]
    exact Nat.sub_pos_of_lt h
  · rw [after_chunk_full (by omega)]
    show 0 < maxChunkSize
    decide

/-- Only the last chunk carries `STORAGE_MSG_FLAG_TRANSACT_COMPLETE`. -/
theorem after_transactComplete (hc : opflags &&& storageOpComplete ≠ 0) (hi : i < chunkCount size) :
    transactComplete (WriteLoop.after handle off size opflags i).chunk.2 = true ↔
      i + 1 = chunkCount size := by
  have hlt := lt_chunkCount_iff.1 hi
  by_cases hl : size ≤ maxChunkSize * (i + 1)
  · rw [after_chunk_last hl, chunkCount_last hlt hl]
    simp [toMsgFlags_complete hc]
  · have hnext : i + 1 < chunkCount size := lt_chunkCount_iff.2 (by omega)
    rw [after_chunk_full (by omega), toMsgFlags_clear]
    simp only [Bool.false_eq_true, false_iff]
    omega

theorem WriteLoop.next_neg (w : WriteLoop) (h : rc < 0) : w.next rc = .returned rc := by
  simp [WriteLoop.next, h]

theorem WriteLoop.next_chunk (w : WriteLoop) :
    w.next w.chunk.1 =
      if w.size - w.chunk.1 = 0 then .returned ((w.written + w.chunk.1 : Nat) : Int)
      else .writing { w with off := w.off + w.chunk.1, size := w.size - w.chunk.1,
                             written := w.written + w.chunk.1 } := by
  simp [WriteLoop.next]

/-- A chunk written in full: the loop returns `size` after the last chunk,
and goes on to the next one before. -/
theorem after_next_chunk (h : maxChunkSize * i < size) :
    (WriteLoop.after handle off size opflags i).next (WriteLoop.after handle off size opflags i).chunk.1 =
      if size ≤ maxChunkSize * (i + 1) then .returned size
      else .writing (WriteLoop.after handle off size opflags (i + 1)) := by
  rw [WriteLoop.next_chunk]
  by_cases hl : size ≤ maxChunkSize * (i + 1)
  · have hrest : (WriteLoop.after handle off size opflags i).size - (size - maxChunkSize * i) = 0 := by
      rw [after_size, Nat.sub_self]
    rw [after_chunk_last hl, if_pos hl, if_pos hrest]
    congr 2
    show maxChunkSize * i + (size - maxChunkSize * i) = size
    omega
  · have hrest : (WriteLoop.after handle off size opflags i).size - maxChunkSize ≠ 0 := by
      rw [after_size]; unfold maxChunkSize at *; omega
    rw [after_chunk_full (Nat.lt_of_not_le hl), if_neg hl, if_neg hrest]
    simp only [Client.writing.injEq, WriteLoop.after, WriteLoop.mk.injEq, true_and, and_true]
    unfold maxChunkSize
    omega

theorem checkResponse_neg (he : e ≠ .noError) : checkResponse e < 0 := by
  cases e with
  | noError => exact absurd rfl he
  | _ => decide

/-! ## The session's side -/

/-- Every change made since `s₀` belongs to a discarded transaction. -/
def DiscardedAll (s₀ s : Session) : Prop :=
  ∀ c ∈ made s₀ s, ∃ e ∈ s.history, e.committed = false ∧ c ∈ e.changes

/-- The changes made since `s₀` were committed together, in one
transaction. -/
def CommittedAll (s₀ s : Session) : Prop :=
  ∃ e ∈ s.history, e.committed = true ∧ made s₀ s ⊆ e.changes

/-- The changes made since `s₀` are pending in the live transaction, which
has the file at `handle` open for a write at `pos`. -/
structure Pending (s₀ : Session) (handle pos : Nat) (s : Session) : Prop where
  live : Live s
  sub : made s₀ s ⊆ s.tr.pending
  written : s.Written handle pos

/-- The session during a write: nothing made yet, the chunks' changes
pending, or discarded with the transaction failed. -/
def Progress (s₀ : Session) (handle pos : Nat) (s : Session) : Prop :=
  made s₀ s = [] ∨ Pending s₀ handle pos s ∨ (s.tr.failed = true ∧ DiscardedAll s₀ s)

theorem DiscardedAll.still (hd : DiscardedAll s₀ s) (hn : s'.next = s.next)
    (hh : s.history <+: s'.history) : DiscardedAll s₀ s' := by
  intro c hc
  rw [made_of_next hn] at hc
  obtain ⟨e, he, hd', hce⟩ := hd c hc
  exact ⟨e, List.IsPrefix.mem he hh, hd', hce⟩

theorem CommittedAll.still (hc : CommittedAll s₀ s) (hn : s'.next = s.next)
    (hh : s.history <+: s'.history) : CommittedAll s₀ s' := by
  obtain ⟨e, he, hc', hsub⟩ := hc
  exact ⟨e, List.IsPrefix.mem he hh, hc', by rw [made_of_next hn]; exact hsub⟩

/-- The changes since `s₀`, pending in `s`, and those made from `s` to `s'`
are those a transaction ending in `s'` ends with. -/
theorem made_sub_append (h₀ : s₀.next ≤ s.next) (hn : s.next ≤ s'.next)
    (hsub : made s₀ s ⊆ s.tr.pending) : made s₀ s' ⊆ s.tr.pending ++ made s s' := by
  intro c hc
  rw [← made_append h₀ hn, List.mem_append] at hc
  rcases hc with hc | hc
  · exact List.mem_append_left _ (hsub hc)
  · exact List.mem_append_right _ hc

theorem DiscardedAll.of_failed (h₀ : s₀.next ≤ s.next) (hsub : made s₀ s ⊆ s.tr.pending)
    (hf : Failed s s') : DiscardedAll s₀ s' := by
  intro c hc
  refine ⟨⟨false, s.tr.pending ++ made s s'⟩, ?_, rfl, made_sub_append h₀ hf.next hsub hc⟩
  rw [hf.history]
  exact List.mem_append_right _ (List.mem_singleton_self _)

theorem CommittedAll.of_committed (h₀ : s₀.next ≤ s.next) (hsub : made s₀ s ⊆ s.tr.pending)
    (hc : Committed s s') : CommittedAll s₀ s' := by
  refine ⟨⟨true, s.tr.pending ++ made s s'⟩, ?_, rfl, made_sub_append h₀ hc.next hsub⟩
  rw [hc.history]
  exact List.mem_append_right _ (List.mem_singleton_self _)

theorem Pending.of_grown (h₀ : s₀.next ≤ s.next) (hl : Live s) (hsub : made s₀ s ⊆ s.tr.pending)
    (hg : Grown s s') (hw : s'.Written handle pos) : Pending s₀ handle pos s' where
  live := hl.grown hg
  sub := by rw [hg.tr]; exact made_sub_append h₀ hg.next hsub
  written := hw

theorem Progress.sub (hp : Progress s₀ handle pos s) (hf : s.tr.failed = false) :
    made s₀ s ⊆ s.tr.pending := by
  rcases hp with h | h | ⟨hf', -⟩
  · rw [h]; exact List.nil_subset _
  · exact h.sub
  · rw [hf] at hf'; cases hf'

theorem Progress.discarded (hp : Progress s₀ handle pos s) (hf : s.tr.failed = true) :
    DiscardedAll s₀ s := by
  rcases hp with h | h | ⟨-, hd⟩
  · intro c hc; rw [h] at hc; cases hc
  · rw [h.live.failed] at hf; cases hf
  · exact hd

/-- The answers the file layer will give do not matter to the write's
state. -/
theorem Progress.withDisk (hp : Progress s₀ handle pos s) :
    Progress s₀ handle pos { s with disk } := by
  rcases hp with h | h | ⟨hf, hd⟩
  · exact .inl h
  · exact .inr (.inl ⟨⟨h.live.failed, h.live.complete, h.live.active⟩, h.sub, h.written⟩)
  · exact .inr (.inr ⟨hf, hd⟩)

/-- Another session's commit fails a transaction that is on the active
list, which discards what the chunks made. -/
theorem Progress.conflict (hi : Inv s) (h₀ : s₀.next ≤ s.next) (hp : Progress s₀ handle pos s)
    (h : s.step .conflict = some (s', o)) : Progress s₀ handle pos s' := by
  simp only [step] at h
  split_ifs at h
  obtain ⟨s₁, h₁, he⟩ := Option.map_eq_some_iff.1 h
  cases he
  rcases transactionFail_cases hi h₁ with ⟨hl, hf⟩ | hm
  · exact .inr (.inr ⟨hf.failed, DiscardedAll.of_failed h₀ (hp.sub hl.failed) hf⟩)
  · rcases hp with hm0 | hpend | ⟨-, hd⟩
    · exact .inl (by rw [made_of_next hm.next]; exact hm0)
    · have ha := hpend.live.active
      rw [hm.idle] at ha
      cases ha
    · exact .inr (.inr ⟨by rw [hm.tr], hd.still hm.next (by rw [hm.history])⟩)

/-- Another session's commit of a file: a file the transaction used fails
it; another one leaves the file written to as it was. -/
theorem Progress.otherCommit (hi : Inv s) (h₀ : s₀.next ≤ s.next) (hp : Progress s₀ handle pos s)
    (h : s.step (.otherCommit handle' size) = some (s', o)) : Progress s₀ handle pos s' := by
  have hn := step_otherCommit_next h
  simp only [step] at h
  split_ifs at h
  obtain ⟨s₁, h₁, he⟩ := Option.map_eq_some_iff.1 h
  cases he
  rcases hp with hm0 | hpend | ⟨hft, hd⟩
  · exact .inl (by rw [made_of_next hn]; exact hm0)
  · rcases otherCommit_written hpend.live hpend.written h₁ with hf | ⟨hq, hw⟩
    · exact .inr (.inr ⟨hf.failed, DiscardedAll.of_failed h₀ hpend.sub hf⟩)
    · refine .inr (.inl ⟨hpend.live.grown hq.grown, ?_, hw⟩)
      rw [hq.tr, made_of_next hq.next]
      exact hpend.sub
  · rcases otherCommit_spec hi h₁ with ⟨hl, -⟩ | hm | hq
    · rw [hl.failed] at hft; cases hft
    · exact .inr (.inr ⟨by rw [hm.tr], hd.still hm.next (by rw [hm.history])⟩)
    · exact .inr (.inr ⟨by rw [hq.tr]; exact hft, hd.still hq.next (by rw [hq.history])⟩)

theorem serve_req {body : Body} (h : serve s (.req flags body) disk = some (s', e)) :
    { s with disk }.clientHandleMsg flags body = some (s', e) := by
  unfold serve at h
  obtain ⟨⟨s₁, o⟩, h₁, h₂⟩ := Option.bind_eq_some_iff.1 h
  obtain ⟨e', rfl, h₃⟩ := step_req h₁
  simp only [Option.some.injEq, Prod.mk.injEq] at h₂
  obtain ⟨rfl, rfl⟩ := h₂
  exact h₃

/-- A chunk's request, from each state of the write: an error leaves the
changes made since `s₀` discarded; `STORAGE_NO_ERROR` leaves them committed
if the chunk asked for it, and else pending with the file open for the next
chunk. -/
theorem clientHandleMsg_chunk (hi : Inv s) (h₀ : s₀.next ≤ s.next) (hp : Progress s₀ handle offset s)
    (hlen : 0 < len) (h : s.clientHandleMsg flags (.fileWrite offset handle len) = some (s', e)) :
    s₀.next ≤ s'.next ∧ (e ≠ .noError → DiscardedAll s₀ s') ∧
      (e = .noError → bif transactComplete flags then CommittedAll s₀ s'
        else Pending s₀ handle (offset + len) s') := by
  unfold clientHandleMsg at h
  rw [if_neg (by simp)] at h
  by_cases hf : s.tr.failed = true
  · -- answered `STORAGE_ERR_TRANSACT`, nothing made
    rw [if_pos hf] at h
    cases h
    have hn : (if transactComplete flags then s.clearFailed else s).next = s.next := by
      split_ifs <;> rfl
    have hh : (if transactComplete flags then s.clearFailed else s).history = s.history := by
      split_ifs <;> rfl
    exact ⟨hn ▸ h₀, fun _ => (hp.discarded hf).still hn (by rw [hh]), fun he => by cases he⟩
  rw [if_neg hf] at h
  have hf' : s.tr.failed = false := by simpa using hf
  obtain ⟨s₁, h₁, h₂⟩ := Option.bind_eq_some_iff.1 h
  obtain ⟨hl₁, -, hpend, -, hnext, hfiles⟩ := activate_spec hi h₁
  have h₀₁ : s₀.next ≤ s₁.next := hnext ▸ h₀
  have hsub : made s₀ s₁ ⊆ s₁.tr.pending := by
    rw [hpend, made_of_next hnext]
    exact hp.sub hf'
  rcases storageFileWrite_spec hl₁ h₂ with ⟨rfl, hs, hbad⟩ | ⟨rfl, hfl⟩ | ⟨rfl, hc⟩
  · -- rejected: only before the first chunk made a change
    rw [hs]
    refine ⟨h₀₁, fun _ => ?_, fun he => by cases he⟩
    have hmade : made s₀ s₁ = [] := by
      rcases hp with hm | hpd | ⟨hft, -⟩
      · rw [made_of_next hnext]; exact hm
      · obtain ⟨f, hfh, -, hle⟩ := hpd.written
        exact absurd ⟨hlen, f, by rw [getFileHandle_of_files hfiles]; exact hfh, hle⟩ hbad
      · rw [hf'] at hft; cases hft
    intro c hc
    rw [hmade] at hc
    cases hc
  · exact ⟨h₀₁.trans hfl.next, fun _ => DiscardedAll.of_failed h₀₁ hsub hfl, fun he => by cases he⟩
  · refine ⟨?_, fun he => absurd rfl he, fun _ => ?_⟩
    · cases htc : transactComplete flags
      · rw [htc] at hc; exact h₀₁.trans hc.1.next
      · rw [htc] at hc; exact h₀₁.trans hc.next
    · cases htc : transactComplete flags
      · rw [htc] at hc; exact Pending.of_grown h₀₁ hl₁ hsub hc.1 hc.2
      · rw [htc] at hc; exact CommittedAll.of_committed h₀₁ hsub hc

/-! ## The write over delivered chunks -/

/-- An action of a run in which every chunk is delivered and answered. -/
def SysAction.delivered : SysAction → Bool
  | .chunk .ok _ | .conflict | .otherCommit _ _ => true
  | _ => false

/-- The client's side of the write: before the chunk `out.length`, every
answer so far `STORAGE_NO_ERROR`; or returned, having sent every chunk and
committed them if the result is not an error, and with what they made
discarded if it is. -/
def WriteState (s₀ : Session) (handle off size : Nat) (opflags : UInt32) (s : Session)
    (out : List (Msg × StorageErr)) : Client → Prop
  | .idle => False
  | .writing w =>
    w = WriteLoop.after handle off size opflags out.length ∧ maxChunkSize * out.length < size ∧
      (∀ p ∈ out, p.2 = .noError) ∧ Progress s₀ handle w.off s
  | .returned rc =>
    (0 ≤ rc → rc = size ∧ out.length = chunkCount size ∧ (∀ p ∈ out, p.2 = .noError) ∧
      (size = 0 ∨ CommittedAll s₀ s)) ∧
    (rc < 0 → out.length ≤ chunkCount size ∧ DiscardedAll s₀ s)

/-- What holds along a run of `storage_write(handle, off, buf, size,
opflags)` from the session `s₀`: the session's invariant, the requests sent
in order, and the state of the write. -/
structure WriteInv (s₀ : Session) (handle off size : Nat) (opflags : UInt32) (t : System)
    (out : List (Msg × StorageErr)) : Prop where
  inv : Inv t.session
  next : s₀.next ≤ t.session.next
  sent : out.map Prod.fst =
    (List.range out.length).map fun i => (WriteLoop.after handle off size opflags i).request
  state : WriteState s₀ handle off size opflags t.session out t.client

theorem WriteInv.start (hi : Inv s₀) :
    WriteInv s₀ handle off size opflags ⟨s₀, storageWrite handle off size opflags⟩ [] where
  inv := hi
  next := le_refl _
  sent := rfl
  state := by
    unfold storageWrite
    split_ifs with h0
    · subst h0
      exact ⟨fun _ => ⟨rfl, rfl, (fun _ h => by cases h), .inl rfl⟩, fun h => absurd h (by decide)⟩
    · refine ⟨?_, ?_, (fun _ h => by cases h), .inl (made_self s₀)⟩
      · simp [WriteLoop.after]
      · simp only [List.length_nil, Nat.mul_zero]
        omega

/-- An action of the rest of the system leaves the client where it was. -/
theorem WriteState.still {c : Client} (hst : WriteState s₀ handle off size opflags s out c)
    (hn : s'.next = s.next) (hh : s.history <+: s'.history)
    (hp : ∀ pos, Progress s₀ handle pos s → Progress s₀ handle pos s') :
    WriteState s₀ handle off size opflags s' out c := by
  cases c with
  | idle => exact hst
  | writing w =>
    obtain ⟨hw, hlt, hok, hpr⟩ := hst
    exact ⟨hw, hlt, hok, hp _ hpr⟩
  | returned rc =>
    obtain ⟨hpos, hneg⟩ := hst
    refine ⟨fun h => ?_, fun h => ?_⟩
    · obtain ⟨hrc, hlen, hok, hcm⟩ := hpos h
      exact ⟨hrc, hlen, hok, hcm.imp id fun hc => hc.still hn hh⟩
    · obtain ⟨hlen, hd⟩ := hneg h
      exact ⟨hlen, hd.still hn hh⟩

theorem WriteInv.conflict (hw : WriteInv s₀ handle off size opflags t out)
    (h : t.step .conflict = some (t', o)) : WriteInv s₀ handle off size opflags t' (out ++ o) := by
  obtain ⟨hi, h₀, hsent, hstate⟩ := hw
  simp only [System.step] at h
  obtain ⟨⟨s', o'⟩, hs, he⟩ := Option.map_eq_some_iff.1 h
  cases he
  have hn := step_conflict_next hs
  rw [List.append_nil]
  exact ⟨hi.step hs, hn ▸ h₀, hsent,
    hstate.still hn (step_spec hi hs).2 fun _ hp => Progress.conflict hi h₀ hp hs⟩

theorem WriteInv.otherCommit (hw : WriteInv s₀ handle off size opflags t out)
    (h : t.step (.otherCommit handle' size') = some (t', o)) :
    WriteInv s₀ handle off size opflags t' (out ++ o) := by
  obtain ⟨hi, h₀, hsent, hstate⟩ := hw
  simp only [System.step] at h
  obtain ⟨⟨s', o'⟩, hs, he⟩ := Option.map_eq_some_iff.1 h
  cases he
  have hn := step_otherCommit_next hs
  rw [List.append_nil]
  exact ⟨hi.step hs, hn ▸ h₀, hsent,
    hstate.still hn (step_spec hi hs).2 fun _ hp => Progress.otherCommit hi h₀ hp hs⟩

/-- A chunk delivered and answered: the loop goes on after `STORAGE_NO_ERROR`
to a non-last chunk, and otherwise returns. -/
theorem WriteInv.chunk (hw : WriteInv s₀ handle off size opflags t out)
    (hc : opflags &&& storageOpComplete ≠ 0) (h : t.step (.chunk .ok disk) = some (t', o)) :
    WriteInv s₀ handle off size opflags t' (out ++ o) := by
  obtain ⟨hi, h₀, hsent, hstate⟩ := hw
  obtain ⟨s, client⟩ := t
  cases client with
  | idle => cases h
  | returned _ => cases h
  | writing w =>
    obtain ⟨rfl, hlt, hok, hp⟩ := hstate
    simp only [System.step] at h
    obtain ⟨⟨s', e⟩, hs, he⟩ := Option.map_eq_some_iff.1 h
    cases he
    have hi' := hi.withDisk disk
    have hreq := serve_req hs
    obtain ⟨hn, herr, hnoerr⟩ := clientHandleMsg_chunk hi' h₀ (Progress.withDisk hp) (after_chunk_pos hlt) hreq
    refine ⟨(clientHandleMsg_spec hi' hreq).inv, hn, ?_, ?_⟩
    · rw [List.map_append, hsent, List.length_append, List.length_singleton, List.range_succ,
        List.map_append]
      rfl
    by_cases he : e = .noError
    · -- the chunk was written: the next one, or the end of the write
      subst he
      have hcm := hnoerr rfl
      have hok' : ∀ p ∈ out ++ [(WriteLoop.request (WriteLoop.after handle off size opflags out.length),
          StorageErr.noError)], p.2 = .noError := by
        intro p hp'
        rcases List.mem_append.1 hp' with hp' | hp'
        · exact hok p hp'
        · rw [List.mem_singleton.1 hp']
      show WriteState _ _ _ _ _ _ _ (WriteLoop.next _ (writeReq _ (checkResponse .noError)))
      rw [show writeReq (WriteLoop.after handle off size opflags out.length).chunk.1
          (checkResponse .noError) = (WriteLoop.after handle off size opflags out.length).chunk.1 by
        simp [writeReq, checkResponse], after_next_chunk hlt]
      by_cases hl : size ≤ maxChunkSize * (out.length + 1)
      · rw [if_pos hl]
        have hlast := chunkCount_last hlt hl
        rw [(after_transactComplete hc (lt_chunkCount_iff.2 hlt)).2 hlast.symm] at hcm
        refine ⟨fun _ => ⟨rfl, by simp [hlast], hok', .inr hcm⟩, fun hneg => ?_⟩
        exact absurd hneg (by simp)
      · rw [if_neg hl]
        have hfull := Nat.lt_of_not_le hl
        rw [after_chunk_full hfull, toMsgFlags_clear] at hcm
        have hoff : (WriteLoop.after handle off size opflags out.length).off + maxChunkSize =
            (WriteLoop.after handle off size opflags (out.length + 1)).off := by
          simp only [WriteLoop.after]
          ring
        refine ⟨by simp, by simpa using hfull, hok', .inr (.inl ?_)⟩
        rw [← hoff]
        exact hcm
    · -- an error answer: the loop returns it
      have hneg := checkResponse_neg he
      show WriteState _ _ _ _ _ _ _ (WriteLoop.next _ (writeReq _ (checkResponse e)))
      rw [show writeReq (WriteLoop.after handle off size opflags out.length).chunk.1
          (checkResponse e) = checkResponse e by simp [writeReq, hneg], WriteLoop.next_neg _ hneg]
      refine ⟨fun hpos => absurd hpos (by omega), fun _ => ⟨?_, herr he⟩⟩
      rw [List.length_append, List.length_singleton]
      exact lt_chunkCount_iff.2 hlt

/-- Every delivered action keeps the invariant of the write. -/
theorem WriteInv.step (hw : WriteInv s₀ handle off size opflags t out)
    (hc : opflags &&& storageOpComplete ≠ 0) (ha : a.delivered = true) (h : t.step a = some (t', o)) :
    WriteInv s₀ handle off size opflags t' (out ++ o) := by
  cases a with
  | chunk ipc disk =>
    cases ipc with
    | ok => exact hw.chunk hc h
    | sendFailed rc => cases ha
    | recvFailed rc => cases ha
  | conflict => exact hw.conflict h
  | otherCommit handle' size' => exact hw.otherCommit h
  | write _ _ _ _ => cases ha
  | request _ _ => cases ha

/-- `storage_write(handle, off, buf, size, opflags)` with
`STORAGE_OP_COMPLETE`, from any session and with every chunk delivered and
answered, the rest of the system acting on the session in between: the loop
sent the requests of `WriteLoop.after` in order, of which only the last of
the `ceil(size / MAX_CHUNK_SIZE)` carries
`STORAGE_MSG_FLAG_TRANSACT_COMPLETE`; and it returned `size` having sent
them all, each answered `STORAGE_NO_ERROR`, with every change they made
committed in one transaction, or it returned an error with every change
they made discarded, never to be committed whatever the session does next. -/
theorem storageWrite_atomic (hi : Inv s₀) (hc : opflags &&& storageOpComplete ≠ 0)
    (hrun : LTS.Run System.step ⟨s₀, storageWrite handle off size opflags⟩ as out t)
    (hdel : ∀ a ∈ as, a.delivered = true) (hret : t.client = .returned rc) :
    out.map Prod.fst =
      (List.range out.length).map (fun i => (WriteLoop.after handle off size opflags i).request) ∧
    (∀ i < chunkCount size,
      transactComplete (WriteLoop.after handle off size opflags i).chunk.2 = true ↔
        i + 1 = chunkCount size) ∧
    ((rc = size ∧ out.length = chunkCount size ∧ (∀ p ∈ out, p.2 = .noError) ∧
        (size = 0 ∨ ∃ e ∈ t.session.history, e.committed = true ∧ made s₀ t.session ⊆ e.changes)) ∨
      (rc < 0 ∧ out.length ≤ chunkCount size ∧
        ∀ c ∈ made s₀ t.session, ∀ (as' : List Action) (out' : List StorageErr) (t' : Session),
          LTS.Run Session.step t.session as' out' t' →
          ∀ e ∈ t'.history, e.committed = true → c ∉ e.changes)) := by
  have hw : WriteInv s₀ handle off size opflags t out :=
    hrun.induction_of_forall hdel (WriteInv.start hi) fun hw ha hstep => hw.step hc ha hstep
  have hstate := hw.state
  rw [hret] at hstate
  obtain ⟨hpos, hneg⟩ := hstate
  refine ⟨hw.sent, fun i hi => after_transactComplete hc hi, ?_⟩
  by_cases hrc : rc < 0
  · -- an error: what the chunks made was discarded
    obtain ⟨hlen, hd⟩ := hneg hrc
    refine .inr ⟨hrc, hlen, fun c hc' as' out' t' ht => ?_⟩
    obtain ⟨e, he, hd', hce⟩ := hd c hc'
    exact hw.inv.never_committed he hd' hce ht
  · exact .inl (hpos (by omega))

/-- A session of `uuidOne` with an empty file open at handle 0 writes 4041
bytes with `STORAGE_OP_COMPLETE`, both chunks delivered: the write returns
4041 after two requests, with its changes committed together. -/
theorem storageWrite_atomic_two_chunks :
    ∃ out t, LTS.Run System.step
        ⟨{ Session.init uuidOne 2048 (by decide) with files := [some FileHandle.zero] },
          storageWrite 0 0 4041 storageOpComplete⟩
        [.chunk .ok [.done, .done, .done], .chunk .ok [.done, .done, .done]] out t ∧
      t.client = .returned 4041 ∧ out.length = 2 ∧
      ∃ e ∈ t.session.history, e.committed = true ∧
        made { Session.init uuidOne 2048 (by decide) with files := [some FileHandle.zero] } t.session ⊆
          e.changes := by
  obtain ⟨out, t, hrun, hret⟩ := @LTS.Run.exists_of_exec _ _ _ System.step
    ⟨{ Session.init uuidOne 2048 (by decide) with files := [some FileHandle.zero] },
      storageWrite 0 0 4041 storageOpComplete⟩
    [.chunk .ok [.done, .done, .done], .chunk .ok [.done, .done, .done]]
    (fun t _ => t.client == .returned 4041) (by decide)
  have hret' : t.client = .returned 4041 := by simpa using hret
  have hi : Inv { Session.init uuidOne 2048 (by decide) with files := [some FileHandle.zero] } :=
    ⟨rfl, fun _ => rfl, fun h => by cases h⟩
  obtain ⟨-, -, hres⟩ := storageWrite_atomic hi (by decide) hrun (by decide) hret'
  rcases hres with ⟨-, hlen, -, hsz | hcm⟩ | ⟨hneg, -⟩
  · exact absurd hsz (by decide)
  · exact ⟨out, t, hrun, hret', by rw [hlen]; rfl, hcm⟩
  · exact absurd hneg (by decide)

/-- `storage_write(fh, 0, buf, 4041, STORAGE_OP_COMPLETE)` on a session of
`uuidOne` that created file `a`: the first chunk is written and answered
`STORAGE_NO_ERROR`, `send_msg` fails on the second with `ERR_FAULT` (its
bytes are not mapped), and the write returns `ERR_FAULT` with the first
chunk's changes 1 to 3 still pending; the session's next
`storage_end_transaction(session, true)` commits them.  And a read carrying
`STORAGE_MSG_FLAG_TRANSACT_COMPLETE` is answered `STORAGE_NO_ERROR` with the
file's creation left pending. -/
theorem storageWrite_fault_commits :
    (∃ t₁ out₁ t₂ out₂ t₃ out₃,
      LTS.Run System.step ⟨Session.init uuidOne 2048 (by decide), .idle⟩
        [.request (.req 0 (.fileOpen storageFileOpenCreate [97])) [.done]] out₁ t₁ ∧
      LTS.Run System.step t₁
        [.write 0 0 4041 storageOpComplete, .chunk .ok [.done, .done, .done],
          .chunk (.sendFailed errFault) []] out₂ t₂ ∧
      t₂.client = .returned errFault ∧ made t₁.session t₂.session = [1, 2, 3] ∧
      LTS.Run System.step t₂
        [.request (.req storageMsgFlagTransactComplete .endTransaction) [.done]] out₃ t₃ ∧
      out₃.map Prod.snd = [.noError] ∧ t₃.session.history = [⟨true, [0, 1, 2, 3]⟩]) ∧
    (∃ s₁ s₂, (Session.init uuidOne 2048 (by decide)).step
        (.msg (.req 0 (.fileOpen storageFileOpenCreate [97])) [.done]) = some (s₁, [.noError]) ∧
      s₁.step (.msg (.req storageMsgFlagTransactComplete (.fileRead 0 16 0)) []) =
        some (s₂, [.noError]) ∧
      s₂.tr.pending = [0] ∧ s₂.history = []) :=
  ⟨⟨_, _, _, _, _, _, LTS.Run.of_exec rfl, LTS.Run.of_exec rfl, rfl, rfl, LTS.Run.of_exec rfl, rfl,
    rfl⟩, ⟨_, _, rfl, rfl, rfl, rfl⟩⟩

end StorageClient
