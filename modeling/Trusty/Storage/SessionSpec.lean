import Trusty.Storage.Session

/-!
# The transactions of a storage session

What a handler can do to the transaction it runs in is said once, by three
relations between the session before and after: `Grown` (changes were made
and are pending), `Failed` (then the transaction failed and discarded them)
and `Committed` (then they were committed).  Each call into the file layer
and each loop of a handler is one of these, and they compose, so every
handler's result is proved one of them (`Effect`), with the answer telling
which (`Post`): `STORAGE_NO_ERROR` means the transaction is live, and
committed where the request asked for it and its handler honours the flag.

* `Inv`: the changes made so far are those of the ended transactions, in
  order, then the pending ones; a transaction off the active list has none
  pending, and one on it is neither failed nor complete.  `Inv.step` keeps
  it over every action, `Inv.run` over every run.
* `step_noError_live`, `step_failed_sticky`, `step_failed_cleared`,
  `step_commit`: what one step does with the failed flag and the answers;
  `session_transaction_protocol` gathers them over every run of a session.
* `storageFileWrite_spec`: a write request is rejected with nothing done,
  fails the transaction, or writes its bytes to the file, which the next
  write at the end offset then finds open (`Written`).
-/

namespace ClientTipc

namespace Session

variable {s s' s₁ s₂ : Session}

/-! ## What a handler does to the transaction -/

/-- The numbers of the changes made from `s` to `s'`. -/
def made (s s' : Session) : List Nat := List.range' s.next (s'.next - s.next)

theorem made_self (s : Session) : made s s = [] := by simp [made]

theorem made_append (h₁ : s.next ≤ s₁.next) (h₂ : s₁.next ≤ s₂.next) :
    made s s₁ ++ made s₁ s₂ = made s s₂ := by
  unfold made
  have hsum : s₂.next - s.next = (s₁.next - s.next) + (s₂.next - s₁.next) := by omega
  have hstart : s₁.next = s.next + 1 * (s₁.next - s.next) := by omega
  conv_rhs => rw [hsum, ← List.range'_append]
  rw [← hstart]

theorem made_of_next (h : s'.next = s.next) (s₀ : Session) : made s₀ s' = made s₀ s := by
  simp [made, h]

/-- Nothing happened to the transaction (the open files and the answers
left may differ). -/
structure Quiet (s s' : Session) : Prop where
  tr : s'.tr = s.tr
  history : s'.history = s.history
  next : s'.next = s.next

/-- From `s` to `s'` changes were made and are pending. -/
structure Grown (s s' : Session) : Prop where
  tr : s'.tr = { s.tr with pending := s.tr.pending ++ made s s' }
  history : s'.history = s.history
  next : s.next ≤ s'.next

/-- From `s` to `s'` changes were made, then the transaction failed and
discarded its changes. -/
structure Failed (s s' : Session) : Prop where
  tr : s'.tr = { s.tr with failed := true, active := false, pending := [] }
  history : s'.history = s.history ++ [⟨false, s.tr.pending ++ made s s'⟩]
  next : s.next ≤ s'.next

/-- From `s` to `s'` changes were made, then the transaction committed. -/
structure Committed (s s' : Session) : Prop where
  tr : s'.tr = { s.tr with complete := true, active := false, pending := [] }
  history : s'.history = s.history ++ [⟨true, s.tr.pending ++ made s s'⟩]
  next : s.next ≤ s'.next

/-- The transaction a handler runs in: on the active list, neither failed nor
complete. -/
structure Live (s : Session) : Prop where
  failed : s.tr.failed = false
  complete : s.tr.complete = false
  active : s.tr.active = true

theorem Quiet.refl (s : Session) : Quiet s s := ⟨rfl, rfl, rfl⟩

theorem Quiet.trans (h₁ : Quiet s s₁) (h₂ : Quiet s₁ s₂) : Quiet s s₂ :=
  ⟨h₂.tr.trans h₁.tr, h₂.history.trans h₁.history, h₂.next.trans h₁.next⟩

theorem Quiet.grown (h : Quiet s s') : Grown s s' where
  tr := by simp [h.tr, made, h.next]
  history := h.history
  next := h.next.ge

theorem Grown.refl (s : Session) : Grown s s := (Quiet.refl s).grown

theorem Grown.trans (h₁ : Grown s s₁) (h₂ : Grown s₁ s₂) : Grown s s₂ where
  tr := by
    rw [h₂.tr, h₁.tr, ← made_append h₁.next h₂.next]
    simp
  history := h₂.history.trans h₁.history
  next := h₁.next.trans h₂.next

theorem Grown.failed (h₁ : Grown s s₁) (h₂ : Failed s₁ s₂) : Failed s s₂ where
  tr := by rw [h₂.tr, h₁.tr]
  history := by
    rw [h₂.history, h₁.history, h₁.tr, ← made_append h₁.next h₂.next]
    simp
  next := h₁.next.trans h₂.next

theorem Grown.committed (h₁ : Grown s s₁) (h₂ : Committed s₁ s₂) : Committed s s₂ where
  tr := by rw [h₂.tr, h₁.tr]
  history := by
    rw [h₂.history, h₁.history, h₁.tr, ← made_append h₁.next h₂.next]
    simp
  next := h₁.next.trans h₂.next

theorem Failed.quiet (h₁ : Failed s s₁) (h₂ : Quiet s₁ s₂) : Failed s s₂ where
  tr := h₂.tr.trans h₁.tr
  history := by rw [h₂.history, h₁.history, made, made, h₂.next]
  next := h₂.next ▸ h₁.next

theorem Committed.quiet (h₁ : Committed s s₁) (h₂ : Quiet s₁ s₂) : Committed s s₂ where
  tr := h₂.tr.trans h₁.tr
  history := by rw [h₂.history, h₁.history, made, made, h₂.next]
  next := h₂.next ▸ h₁.next

theorem Live.grown (hl : Live s) (h : Grown s s') : Live s' :=
  ⟨by rw [h.tr]; exact hl.failed, by rw [h.tr]; exact hl.complete, by rw [h.tr]; exact hl.active⟩

theorem Failed.failed (h : Failed s s') : s'.tr.failed = true := by rw [h.tr]

theorem Committed.not_failed (hl : Live s) (h : Committed s s') : s'.tr.failed = false := by
  rw [h.tr]; exact hl.failed

/-! ## The primitive steps -/

theorem answer_eq (h : s.answer = some (a, s')) : s' = { s with disk := s'.disk } := by
  unfold answer at h
  split at h
  · cases h
  · cases h; rfl

theorem answer_quiet (h : s.answer = some (a, s')) : Quiet s s' := by
  rw [answer_eq h]; exact ⟨rfl, rfl, rfl⟩

@[simp] theorem answer_blockSize (h : s.answer = some (a, s')) : s'.blockSize = s.blockSize := by
  rw [answer_eq h]

theorem change_grown (s : Session) : Grown s s.change where
  tr := by simp [change, made]
  history := rfl
  next := Nat.le_succ _

theorem modifyFile_quiet (s : Session) (handle : Nat) (f : FileHandle → FileHandle) :
    Quiet s (s.modifyFile handle f) := ⟨rfl, rfl, rfl⟩

theorem use_quiet (s : Session) (handle : Nat) : Quiet s (s.use handle) := ⟨rfl, rfl, rfl⟩

theorem setFile_quiet (s : Session) (handle : Nat) (f : FileHandle) : Quiet s (s.setFile handle f) :=
  ⟨rfl, rfl, rfl⟩

theorem freeFileHandle_quiet (s : Session) (handle : Nat) : Quiet s (s.freeFileHandle handle) := by
  unfold freeFileHandle
  split
  · exact ⟨rfl, rfl, rfl⟩
  · exact Quiet.refl s

theorem createFileHandle_quiet (h : s.createFileHandle = some (s', handle)) : Quiet s s' := by
  unfold createFileHandle at h
  dsimp only at h
  split at h
  · cases h; exact ⟨rfl, rfl, rfl⟩
  · split at h
    · cases h
    · cases h; exact ⟨rfl, rfl, rfl⟩

theorem clearFailed_tr (s : Session) : s.clearFailed.tr = { s.tr with failed := false } := rfl

/-! ### The open files -/

theorem getFileHandle_of_files (h : s'.files = s.files) (handle : Nat) :
    s'.getFileHandle handle = s.getFileHandle handle := by
  unfold getFileHandle; rw [h]

theorem answer_files (h : s.answer = some (a, s')) : s'.files = s.files := by
  rw [answer_eq h]

@[simp] theorem getFileHandle_change (s : Session) (handle : Nat) :
    s.change.getFileHandle handle = s.getFileHandle handle := rfl

theorem getFileHandle_modifyFile (s : Session) (handle handle' : Nat) (f : FileHandle → FileHandle) :
    (s.modifyFile handle f).getFileHandle handle' =
      if handle = handle' then (s.getFileHandle handle').map f else s.getFileHandle handle' := by
  unfold getFileHandle modifyFile
  rw [List.getElem?_modify]
  cases s.files[handle']? with
  | none => simp
  | some o => split_ifs <;> simp

theorem getFileHandle_use (s : Session) (handle : Nat) :
    (s.use handle).getFileHandle handle =
      (s.getFileHandle handle).map fun f => { f with usedByTr := true } := by
  simp [use, getFileHandle_modifyFile]

theorem use_files_congr (h : s'.files = s.files) (handle : Nat) :
    (s'.use handle).files = (s.use handle).files := by
  simp [use, modifyFile, h]

theorem use_use_files (s : Session) (handle : Nat) :
    ((s.use handle).use handle).files = (s.use handle).files := by
  simp only [use, modifyFile, List.modify_modify_eq]
  congr 1
  funext o
  cases o <;> rfl

/-- The file at `handle` is open, used by the transaction, and at least
`pos` bytes long: a write at `pos` to it is not rejected. -/
def Written (s : Session) (handle pos : Nat) : Prop :=
  ∃ f, s.getFileHandle handle = some f ∧ f.usedByTr = true ∧ pos ≤ f.size

theorem Written.of_files (hw : s.Written handle pos) (h : s'.files = s.files) :
    s'.Written handle pos := by
  unfold Written; rw [getFileHandle_of_files h]; exact hw

theorem discard_failed (s : Session) : Failed s s.discard where
  tr := rfl
  history := by simp [discard, made]
  next := le_refl _

theorem commit_committed (s : Session) : Committed s s.commit where
  tr := rfl
  history := by simp [commit, made]
  next := le_refl _

theorem transactionFail_live (hl : Live s) : s.transactionFail = some s.discard := by
  simp [transactionFail, hl.failed, hl.complete, hl.active]

/-- `transaction_complete` on a live transaction commits it or fails it. -/
theorem transactionComplete_live (hl : Live s) (h : s.transactionComplete = some s') :
    Committed s s' ∨ Failed s s' := by
  simp only [transactionComplete, hl.complete, hl.failed, hl.active, Bool.false_eq_true,
    if_false, Bool.not_true] at h
  split at h
  · rename_i s₁ ha
    cases h
    exact .inl (Grown.committed (answer_quiet ha).grown (commit_committed s₁))
  · rename_i s₁ ha
    have hq := answer_quiet ha
    have hl₁ : Live s₁ := hl.grown hq.grown
    rw [transactionFail_live hl₁] at h
    cases h
    exact .inr (Grown.failed hq.grown (discard_failed s₁))
  · cases h

theorem transactionComplete_failed (hf : s.tr.failed = true) (hc : s.tr.complete = false) :
    s.transactionComplete = some s := by
  simp [transactionComplete, hf, hc]

theorem fileSetSize_failed (hf : s.tr.failed = true) (handle size : Nat) :
    s.fileSetSize handle size = some s := by
  simp [fileSetSize, hf]

/-- A call of the file layer that can fail the transaction: it made changes,
or failed the transaction. -/
def Either (s s' : Session) : Prop := Grown s s' ∨ Failed s s'

theorem fail_answer_either (hl : Live s) (ha : s.answer = some (.fail, s₁))
    (h : s₁.transactionFail = some s') : Failed s s' := by
  have hq := answer_quiet ha
  rw [transactionFail_live (hl.grown hq.grown)] at h
  cases h
  exact Grown.failed hq.grown (discard_failed s₁)

theorem fileDelete_spec (hl : Live s) (h : s.fileDelete = some (s', deleted)) :
    Grown s s' ∨ (Failed s s' ∧ deleted = false) := by
  unfold fileDelete at h
  split at h
  · rename_i s₁ ha
    cases h
    exact .inl ((answer_quiet ha).grown.trans (change_grown s₁))
  · rename_i s₁ ha
    cases h
    exact .inl (answer_quiet ha).grown
  · rename_i s₁ ha
    obtain ⟨s₂, h₂, he⟩ := Option.map_eq_some_iff.1 h
    cases he
    exact .inr ⟨fail_answer_either hl ha h₂, rfl⟩
  · cases h

theorem fileOpen_spec (hl : Live s) (h : s.fileOpen mode = some (s', file)) :
    Grown s s' ∨ (Failed s s' ∧ file = none) := by
  unfold fileOpen at h
  split at h
  · rename_i s₁ ha
    cases h
    exact .inl (answer_quiet ha).grown
  · rename_i s₁ ha
    split at h
    · cases h
    · cases h
      exact .inl ((answer_quiet ha).grown.trans (change_grown s₁))
  · rename_i s₁ ha
    cases h
    exact .inl (answer_quiet ha).grown
  · rename_i s₁ ha
    obtain ⟨s₂, h₂, he⟩ := Option.map_eq_some_iff.1 h
    cases he
    exact .inr ⟨fail_answer_either hl ha h₂, rfl⟩
  · cases h

theorem fileGetBlock_spec (hl : Live s) (h : s.fileGetBlock handle = some (s', ok)) :
    Grown s s' ∨ (Failed s s' ∧ ok = false) := by
  simp only [fileGetBlock, hl.failed, Bool.false_eq_true, if_false] at h
  split at h
  · rename_i s₁ ha
    cases h
    exact .inl ((answer_quiet ha).trans (use_quiet s₁ handle)).grown
  · rename_i s₁ ha
    cases h
    exact .inl ((answer_quiet ha).trans (use_quiet s₁ handle)).grown
  · rename_i s₁ ha
    obtain ⟨s₂, h₂, he⟩ := Option.map_eq_some_iff.1 h
    cases he
    exact .inr ⟨fail_answer_either hl ha h₂, rfl⟩
  · cases h

/-- A block written is a change; a block not written failed the transaction. -/
theorem fileGetBlockWrite_spec (hl : Live s) (h : s.fileGetBlockWrite handle = some (s', ok)) :
    (Grown s s' ∧ ok = true) ∨ (Failed s s' ∧ ok = false) := by
  simp only [fileGetBlockWrite, hl.failed, Bool.false_eq_true, if_false] at h
  split at h
  · rename_i s₁ ha
    cases h
    exact .inl ⟨((answer_quiet ha).trans (use_quiet s₁ handle)).grown.trans (change_grown _), rfl⟩
  · rename_i s₁ ha
    obtain ⟨s₂, h₂, he⟩ := Option.map_eq_some_iff.1 h
    cases he
    exact .inr ⟨fail_answer_either hl ha h₂, rfl⟩
  · cases h

/-- A block written marks the file used by the transaction. -/
theorem fileGetBlockWrite_files (h : s.fileGetBlockWrite handle = some (s', true)) :
    s'.files = (s.use handle).files := by
  unfold fileGetBlockWrite at h
  split_ifs at h
  · simp at h
  · split at h
    · rename_i s₁ ha
      cases h
      exact use_files_congr (answer_files ha) handle
    · simp at h
    · cases h

theorem fileSetSize_spec (hl : Live s) (h : s.fileSetSize handle size = some s') : Either s s' := by
  simp only [fileSetSize, hl.failed, Bool.false_eq_true, if_false] at h
  split at h
  · rename_i s₁ ha
    split at h
    · cases h
      exact .inl (answer_quiet ha).grown
    · cases h
      exact .inl (((answer_quiet ha).trans (modifyFile_quiet s₁ handle _)).grown.trans
        (change_grown _))
  · rename_i s₁ ha
    exact .inr (fail_answer_either hl ha h)
  · cases h

/-- `file_set_size` on a file of the transaction that did not fail it left
the file at `size` bytes. -/
theorem fileSetSize_written (hl : Live s) (hw : s.Written handle 0)
    (h : s.fileSetSize handle size = some s') (hok : s'.tr.failed = false) :
    s'.Written handle size := by
  obtain ⟨f, hf, hu, -⟩ := hw
  simp only [fileSetSize, hl.failed, Bool.false_eq_true, if_false] at h
  split at h
  · rename_i s₁ ha
    have hf₁ : s₁.getFileHandle handle = some f := by
      rw [getFileHandle_of_files (answer_files ha), hf]
    split at h
    · rename_i hsize
      cases h
      refine ⟨f, hf₁, hu, ?_⟩
      simp only [fileSize, hf₁, Option.map_some, Option.getD_some] at hsize
      omega
    · cases h
      refine ⟨{ f with size }, ?_, hu, le_refl _⟩
      simp [getFileHandle_modifyFile, hf₁]
  · rename_i s₁ ha
    rw [transactionFail_live (hl.grown (answer_quiet ha).grown)] at h
    cases h
    simp [discard] at hok
  · cases h

theorem fileGetSize_spec (hl : Live s) (h : s.fileGetSize handle = some (s', size)) : Quiet s s' := by
  simp only [fileGetSize, hl.failed, Bool.false_eq_true, if_false] at h
  split at h
  · rename_i s₁ ha
    cases h
    exact (answer_quiet ha).trans (use_quiet s₁ handle)
  · rename_i s₁ ha
    cases h
    exact answer_quiet ha
  · cases h

/-! ## The loops -/

/-- The read loop makes no change; it stops early on a block not read, which
may have failed the transaction.  By induction on the loop's iterations. -/
theorem readBlocks_spec (hl : Live s) (h : readBlocks handle fuel offset bytesLeft s = some (s', ok)) :
    Grown s s' ∨ (Failed s s' ∧ ok = false) := by
  induction fuel generalizing s offset bytesLeft with
  | zero =>
    simp only [readBlocks, Option.some.injEq, Prod.mk.injEq] at h
    obtain ⟨rfl, -⟩ := h
    exact .inl (Grown.refl s)
  | succ fuel ih =>
    simp only [readBlocks] at h
    split_ifs at h
    · cases h; exact .inl (Grown.refl _)
    · split at h
      · rename_i s₁ h₁
        rcases fileGetBlock_spec hl h₁ with hg | ⟨-, hok⟩
        · rcases ih (hl.grown hg) h with hg' | ⟨hf, hok'⟩
          · exact .inl (hg.trans hg')
          · exact .inr ⟨hg.failed hf, hok'⟩
        · cases hok
      · rename_i s₁ h₁
        cases h
        rcases fileGetBlock_spec hl h₁ with hg | ⟨hf, -⟩
        · exact .inl hg
        · exact .inr ⟨hf, rfl⟩
      · cases h

/-- The write loop makes changes; it stops early only when a block could not
be written, which failed the transaction. -/
theorem writeBlocks_spec (hl : Live s) (h : writeBlocks handle fuel offset bytesLeft s = some (s', o)) :
    (Grown s s' ∧ o.isSome) ∨ (Failed s s' ∧ o = none) := by
  induction fuel generalizing s offset bytesLeft with
  | zero =>
    simp only [writeBlocks, Option.some.injEq, Prod.mk.injEq] at h
    obtain ⟨rfl, rfl⟩ := h
    exact .inl ⟨Grown.refl s, rfl⟩
  | succ fuel ih =>
    simp only [writeBlocks] at h
    split_ifs at h
    · cases h; exact .inl ⟨Grown.refl _, rfl⟩
    · split at h
      · rename_i s₁ h₁
        rcases fileGetBlockWrite_spec hl h₁ with ⟨hg, -⟩ | ⟨-, hok⟩
        · rcases ih (hl.grown hg) h with ⟨hg', ho⟩ | ⟨hf, ho⟩
          · exact .inl ⟨hg.trans hg', ho⟩
          · exact .inr ⟨hg.failed hf, ho⟩
        · cases hok
      · rename_i s₁ h₁
        cases h
        rcases fileGetBlockWrite_spec hl h₁ with ⟨-, hok⟩ | ⟨hf, -⟩
        · cases hok
        · exact .inr ⟨hf, rfl⟩
      · cases h

theorem blockLen_pos {bs offset bytesLeft : Nat} (hb : 0 < bs) (h : 0 < bytesLeft) :
    0 < blockLen bs offset bytesLeft := by
  unfold blockLen
  have := Nat.mod_lt offset hb
  split_ifs <;> omega

theorem blockLen_le (bs offset bytesLeft : Nat) : blockLen bs offset bytesLeft ≤ bytesLeft := by
  unfold blockLen
  split_ifs <;> omega

theorem writeBlocks_done (handle fuel offset : Nat) (s : Session) :
    writeBlocks handle fuel offset 0 s = some (s, some offset) := by
  cases fuel <;> simp [writeBlocks]

/-- A write loop that ran to its end wrote `[offset, offset + bytesLeft)`
and only marked the file used.  By induction on the fuel, which is at least
the bytes left: every block takes at least one byte. -/
theorem writeBlocks_files (h : writeBlocks handle fuel offset bytesLeft s = some (s', some e))
    (hfuel : bytesLeft ≤ fuel) (hpos : 0 < bytesLeft) :
    e = offset + bytesLeft ∧ s'.files = (s.use handle).files := by
  induction fuel generalizing s offset bytesLeft with
  | zero => omega
  | succ fuel ih =>
    simp only [writeBlocks] at h
    rw [if_neg (Nat.pos_iff_ne_zero.1 hpos)] at h
    split at h
    · rename_i s₁ h₁
      have hf₁ := fileGetBlockWrite_files h₁
      have hlen := @blockLen_pos s₁.blockSize offset bytesLeft s₁.blockSize_pos hpos
      have hle := blockLen_le s₁.blockSize offset bytesLeft
      by_cases hrest : bytesLeft - blockLen s₁.blockSize offset bytesLeft = 0
      · rw [hrest, writeBlocks_done] at h
        cases h
        exact ⟨by omega, hf₁⟩
      · obtain ⟨he, hf⟩ := ih h (by omega) (by omega)
        refine ⟨by omega, ?_⟩
        rw [hf, use_files_congr hf₁, use_use_files]
    · simp at h
    · cases h

/-! ## The handlers -/

/-- What a handler did to the live transaction it ran in. -/
def Effect (s s' : Session) : Prop := Grown s s' ∨ Failed s s' ∨ Committed s s'

/-- A handler's result: its effect, and a `STORAGE_NO_ERROR` answer leaves the
transaction live, committed if the request `asked` for it. -/
def Post (asked : Bool) (s : Session) (r : Session × StorageErr) : Prop :=
  Effect s r.1 ∧ (r.2 = .noError → bif asked then Committed s r.1 else Grown s r.1)

theorem Post.error (he : e ≠ .noError) (hx : Effect s s') : Post asked s (s', e) :=
  ⟨hx, fun h => absurd h he⟩

theorem Post.rejected (he : e ≠ .noError) : Post asked s (s, e) :=
  Post.error he (.inl (Grown.refl s))

theorem Post.failed (hf : Failed s s') (he : e ≠ .noError) : Post asked s (s', e) :=
  Post.error he (.inr (.inl hf))

theorem Post.grown (hg : Grown s s') (hask : asked = false) : Post asked s (s', e) :=
  ⟨.inl hg, fun _ => by rw [hask]; exact hg⟩

theorem Post.committed (hc : Committed s s') (hask : asked = true) : Post asked s (s', e) :=
  ⟨.inr (.inr hc), fun _ => by rw [hask]; exact hc⟩

/-- The end of a request that may commit: committed if asked, else left as
it was; `STORAGE_ERR_GENERIC` if the commit failed the transaction. -/
theorem completeIfAsked_spec (hl : Live s) (h : s.completeIfAsked flags = some (s', e)) :
    (e = .generic ∧ Failed s s') ∨
      (e = .noError ∧ bif transactComplete flags then Committed s s' else s' = s) := by
  unfold completeIfAsked at h
  split_ifs at h with hc
  · obtain ⟨s₂, h₂, he⟩ := Option.map_eq_some_iff.1 h
    simp only [Prod.mk.injEq] at he
    obtain ⟨rfl, rfl⟩ := he
    rcases transactionComplete_live hl h₂ with hcm | hf
    · rw [if_neg (by simp [hcm.not_failed hl]), hc]
      exact .inr ⟨rfl, hcm⟩
    · rw [if_pos hf.failed]
      exact .inl ⟨rfl, hf⟩
  · cases h
    exact .inr ⟨rfl, by simp [hc]⟩

theorem completeIfAsked_post (hl : Live s₁) (hg : Grown s s₁)
    (h : s₁.completeIfAsked flags = some r) : Post (transactComplete flags) s r := by
  obtain ⟨s', e⟩ := r
  rcases completeIfAsked_spec hl h with ⟨rfl, hf⟩ | ⟨rfl, hc⟩
  · exact Post.failed (hg.failed hf) (by decide)
  · cases htc : transactComplete flags
    · rw [htc] at hc
      subst hc
      exact Post.grown hg rfl
    · rw [htc] at hc
      exact Post.committed (hg.committed hc) rfl

theorem storageFileDelete_post (hl : Live s) (h : s.storageFileDelete flags reqFlags name = some r) :
    Post (transactComplete flags) s r := by
  unfold storageFileDelete at h
  split_ifs at h
  · cases h; exact Post.rejected (by decide)
  · cases h; exact Post.rejected (by decide)
  · split at h
    · rename_i s₁ deleted h₁
      rcases fileDelete_spec hl h₁ with hg | ⟨hf, -⟩
      · have hl₁ := hl.grown hg
        rw [if_neg (by simp [hl₁.failed])] at h
        split_ifs at h
        · cases h; exact Post.error (by decide) (.inl hg)
        · exact completeIfAsked_post hl₁ hg h
      · rw [if_pos hf.failed] at h
        cases h
        exact Post.failed hf (by decide)
    · cases h

theorem Post.of_grown (hg : Grown s s₁) (hp : Post asked s₁ r) : Post asked s r := by
  obtain ⟨hx, hok⟩ := hp
  refine ⟨?_, fun he => ?_⟩
  · rcases hx with h | h | h
    · exact .inl (hg.trans h)
    · exact .inr (.inl (hg.failed h))
    · exact .inr (.inr (hg.committed h))
  · have h := hok he
    cases asked
    · exact hg.trans h
    · exact hg.committed h

/-- The truncation of `storage_file_open` and the resizing of
`storage_file_set_size` and `storage_file_write`: a call of `file_set_size`
or none. -/
theorem resize_either (hl : Live s) {c : Prop} [Decidable c]
    (h : (if c then s.fileSetSize handle size else some s) = some s') : Either s s' := by
  split_ifs at h
  · exact fileSetSize_spec hl h
  · cases h; exact .inl (Grown.refl s)

theorem storageFileOpenFound_post (hl : Live s)
    (h : s.storageFileOpenFound flags reqFlags handle file = some r) :
    Post (transactComplete flags) s r := by
  unfold storageFileOpenFound at h
  have hq := setFile_quiet s handle file
  obtain ⟨s₁, h₁, h⟩ := Option.bind_eq_some_iff.1 h
  rcases resize_either (hl.grown hq.grown) h₁ with hg | hf
  · have hg₁ := hq.grown.trans hg
    have hl₁ := hl.grown hg₁
    rw [if_neg (by simp [hl₁.failed])] at h
    split_ifs at h with hc
    · obtain ⟨s₂, h₂, rfl⟩ := Option.map_eq_some_iff.1 h
      rcases transactionComplete_live hl₁ h₂ with hcm | hf₂
      · rw [if_neg (by simp [hcm.not_failed hl₁])]
        exact Post.committed (hg₁.committed hcm) hc
      · rw [if_pos hf₂.failed]
        exact Post.failed ((hg₁.failed hf₂).quiet (freeFileHandle_quiet _ _)) (by decide)
    · cases h
      exact Post.grown hg₁ (by simpa using hc)
  · rw [if_pos hf.failed] at h
    cases h
    exact Post.failed ((hq.grown.failed hf).quiet (freeFileHandle_quiet _ _)) (by decide)

theorem storageFileOpen_post (hl : Live s) (h : s.storageFileOpen flags reqFlags name = some r) :
    Post (transactComplete flags) s r := by
  unfold storageFileOpen at h
  by_cases hmask : (reqFlags &&& ~~~storageFileOpenMask != 0) = true
  · rw [if_pos hmask] at h
    cases h
    exact Post.rejected (by decide)
  rw [if_neg hmask] at h
  by_cases hpath : (requestPath s.uuid name).isNone = true
  · rw [if_pos hpath] at h
    cases h
    exact Post.rejected (by decide)
  rw [if_neg hpath] at h
  · split at h
    · cases h; exact Post.rejected (by decide)
    · rename_i s₁ handle h₁
      have hg₁ := (createFileHandle_quiet h₁).grown
      split at h
      · rename_i s₂ file h₂
        rcases fileOpen_spec (hl.grown hg₁) h₂ with hg₂ | ⟨-, hfile⟩
        · exact Post.of_grown (hg₁.trans hg₂) (storageFileOpenFound_post (hl.grown (hg₁.trans hg₂)) h)
        · cases hfile
      · rename_i s₂ h₂
        cases h
        have hne : (if s₂.tr.failed then StorageErr.generic
            else if reqFlags &&& storageFileOpenCreate != 0 then .exist else .notFound) ≠ .noError := by
          split_ifs <;> decide
        refine Post.error hne ?_
        rcases fileOpen_spec (hl.grown hg₁) h₂ with hg₂ | ⟨hf, -⟩
        · exact .inl ((hg₁.trans hg₂).trans (freeFileHandle_quiet _ _).grown)
        · exact .inr (.inl ((hg₁.failed hf).quiet (freeFileHandle_quiet _ _)))
      · cases h

theorem storageFileClose_post (hl : Live s) (h : s.storageFileClose flags handle = some r) :
    Post (transactComplete flags) s r := by
  unfold storageFileClose at h
  split_ifs at h
  · cases h; exact Post.rejected (by decide)
  · have hg := (freeFileHandle_quiet s handle).grown
    exact completeIfAsked_post (hl.grown hg) hg h

theorem storageFileRead_post (hl : Live s) (h : s.storageFileRead handle size offset = some r) :
    Post false s r := by
  unfold storageFileRead at h
  split at h
  · cases h; exact Post.rejected (by decide)
  · rename_i file hfile
    by_cases hsize : size > storageMaxBufferSize - storageMsgSize
    · rw [if_pos hsize] at h
      cases h
      exact Post.rejected (by decide)
    rw [if_neg hsize] at h
    by_cases hoff : offset > file.size
    · rw [if_pos hoff] at h
      cases h
      exact Post.rejected (by decide)
    rw [if_neg hoff] at h
    obtain ⟨⟨s₁, ok⟩, h₁, rfl⟩ := Option.map_eq_some_iff.1 h
    rcases readBlocks_spec hl h₁ with hg | ⟨hf, rfl⟩
    · exact Post.grown hg rfl
    · exact Post.failed hf (by simp)

/-- The end of `storage_file_write` on a file the transaction used: the
file grown to `offset` if it was shorter, then committed if asked. -/
theorem storageFileWriteEnd_spec (hl : Live s) (hw : s.Written handle 0)
    (h : s.storageFileWriteEnd flags handle offset = some (s', e)) :
    (e = .generic ∧ Failed s s') ∨
      (e = .noError ∧
        bif transactComplete flags then Committed s s' else Grown s s' ∧ s'.Written handle offset) := by
  unfold storageFileWriteEnd at h
  obtain ⟨s₂, h₂, h⟩ := Option.bind_eq_some_iff.1 h
  have hresized : Failed s s₂ ∨ (Grown s s₂ ∧ s₂.Written handle offset) := by
    by_cases hgt : offset > s.fileSize handle
    · rw [if_pos hgt] at h₂
      rcases fileSetSize_spec hl h₂ with hg | hf
      · exact .inr ⟨hg, fileSetSize_written hl hw h₂ (by rw [hg.tr]; exact hl.failed)⟩
      · exact .inl hf
    · rw [if_neg hgt] at h₂
      cases h₂
      obtain ⟨f, hf, hu, -⟩ := hw
      refine .inr ⟨Grown.refl s, f, hf, hu, ?_⟩
      simp only [fileSize, hf, Option.map_some, Option.getD_some] at hgt
      omega
  rcases hresized with hf | ⟨hg, hw₂⟩
  · rw [if_pos hf.failed] at h
    cases h
    exact .inl ⟨rfl, hf⟩
  · have hl₂ := hl.grown hg
    rw [if_neg (by simp [hl₂.failed])] at h
    rcases completeIfAsked_spec hl₂ h with ⟨rfl, hf⟩ | ⟨rfl, hc⟩
    · exact .inl ⟨rfl, hg.failed hf⟩
    · refine .inr ⟨rfl, ?_⟩
      cases htc : transactComplete flags
      · rw [htc] at hc
        subst hc
        exact ⟨hg, hw₂⟩
      · rw [htc] at hc
        exact hg.committed hc

/-- `storage_file_write`, in every case: rejected with nothing done when the
request is empty or the handle is not an open file at least `offset` long;
the transaction failed, answered `STORAGE_ERR_GENERIC`; or the bytes were
written, the file is used by the transaction and at least `offset + len`
long, and the transaction committed if the request asked for it. -/
theorem storageFileWrite_spec (hl : Live s)
    (h : s.storageFileWrite flags offset handle len = some (s', e)) :
    (e = .notValid ∧ s' = s ∧ ¬(0 < len ∧ ∃ f, s.getFileHandle handle = some f ∧ offset ≤ f.size)) ∨
      (e = .generic ∧ Failed s s') ∨
      (e = .noError ∧ bif transactComplete flags then Committed s s'
        else Grown s s' ∧ s'.Written handle (offset + len)) := by
  unfold storageFileWrite at h
  by_cases hlen : len = 0
  · rw [if_pos hlen] at h
    cases h
    exact .inl ⟨rfl, rfl, fun ⟨hpos, _⟩ => by omega⟩
  rw [if_neg hlen] at h
  split at h
  · rename_i hnone
    cases h
    exact .inl ⟨rfl, rfl, fun ⟨_, f, hf, _⟩ => by rw [hnone] at hf; cases hf⟩
  · rename_i file hfile
    by_cases hoff : offset > file.size
    · rw [if_pos hoff] at h
      cases h
      refine .inl ⟨rfl, rfl, fun ⟨_, f, hf, hle⟩ => ?_⟩
      rw [hfile] at hf
      cases hf
      omega
    rw [if_neg hoff] at h
    split at h
    · rename_i s₁ e₁ h₁
      obtain ⟨rfl, hfiles⟩ := writeBlocks_files h₁ (le_refl _) (Nat.pos_of_ne_zero hlen)
      rcases writeBlocks_spec hl h₁ with ⟨hg, -⟩ | ⟨-, ho⟩
      · -- the blocks written marked the file used
        have hw : s₁.Written handle 0 := by
          refine ⟨{ file with usedByTr := true }, ?_, rfl, Nat.zero_le _⟩
          rw [getFileHandle_of_files hfiles, getFileHandle_use, hfile]
          rfl
        rcases storageFileWriteEnd_spec (hl.grown hg) hw h with ⟨rfl, hf⟩ | ⟨rfl, hc⟩
        · exact .inr (.inl ⟨rfl, hg.failed hf⟩)
        · refine .inr (.inr ⟨rfl, ?_⟩)
          cases htc : transactComplete flags
          · rw [htc] at hc
            exact ⟨hg.trans hc.1, hc.2⟩
          · rw [htc] at hc
            exact hg.committed hc
      · cases ho
    · rename_i s₁ h₁
      rcases writeBlocks_spec hl h₁ with ⟨-, ho⟩ | ⟨hf, -⟩
      · cases ho
      · rw [if_pos hf.failed] at h
        cases h
        exact .inr (.inl ⟨rfl, hf⟩)
    · cases h

theorem storageFileWrite_post (hl : Live s) (h : s.storageFileWrite flags offset handle len = some r) :
    Post (transactComplete flags) s r := by
  obtain ⟨s', e⟩ := r
  rcases storageFileWrite_spec hl h with ⟨rfl, rfl, -⟩ | ⟨rfl, hf⟩ | ⟨rfl, hc⟩
  · exact Post.rejected (by decide)
  · exact Post.failed hf (by decide)
  · cases htc : transactComplete flags
    · rw [htc] at hc
      exact Post.grown hc.1 rfl
    · rw [htc] at hc
      exact Post.committed hc rfl

theorem storageFileGetSize_post (hl : Live s) (h : s.storageFileGetSize handle = some r) :
    Post false s r := by
  unfold storageFileGetSize at h
  split_ifs at h
  · cases h; exact Post.rejected (by decide)
  · obtain ⟨⟨s₁, size⟩, h₁, rfl⟩ := Option.map_eq_some_iff.1 h
    exact Post.grown (fileGetSize_spec hl h₁).grown rfl

theorem storageFileSetSize_post (hl : Live s) (h : s.storageFileSetSize flags size handle = some r) :
    Post (transactComplete flags) s r := by
  unfold storageFileSetSize at h
  split at h
  · cases h; exact Post.rejected (by decide)
  · rename_i file hfile
    by_cases hsz : size > file.size
    · rw [if_pos hsz] at h
      cases h
      exact Post.rejected (by decide)
    rw [if_neg hsz] at h
    obtain ⟨s₂, h₂, rfl⟩ := Option.map_eq_some_iff.1 h
    obtain ⟨s₁, h₁, h₂⟩ := Option.bind_eq_some_iff.1 h₂
    rcases resize_either hl h₁ with hg | hf
    · have hl₁ := hl.grown hg
      split_ifs at h₂ with hc
      · rcases transactionComplete_live hl₁ h₂ with hcm | hf₂
        · rw [if_neg (by simp [hcm.not_failed hl₁])]
          exact Post.committed (hg.committed hcm) hc
        · rw [if_pos hf₂.failed]
          exact Post.failed (hg.failed hf₂) (by decide)
      · cases h₂
        rw [if_neg (by simp [hl₁.failed])]
        exact Post.grown hg (by simpa using hc)
    · have hc₁ : s₁.tr.complete = false := by rw [hf.tr]; exact hl.complete
      have hs₂ : s₂ = s₁ := by
        split_ifs at h₂
        · rw [transactionComplete_failed hf.failed hc₁] at h₂
          cases h₂; rfl
        · cases h₂; rfl
      subst hs₂
      rw [if_pos hf.failed]
      exact Post.failed hf (by decide)

/-- The requests whose handler acts on `STORAGE_MSG_FLAG_TRANSACT_COMPLETE`:
all but read and get-size. -/
def honoursComplete : Body → Bool
  | .fileRead .. | .fileGetSize _ => false
  | _ => true

/-- Every handler of the switch: a `STORAGE_NO_ERROR` answer leaves the
transaction live, and committed where the request asked for it and the
handler honours the flag. -/
theorem storageDispatch_post (hl : Live s) (h : s.storageDispatch flags body = some r) :
    Post (transactComplete flags && honoursComplete body) s r := by
  cases body with
  | endTransaction => cases h; exact Post.rejected (by decide)
  | fileDelete reqFlags name => simpa [honoursComplete] using storageFileDelete_post hl h
  | fileOpen reqFlags name => simpa [honoursComplete] using storageFileOpen_post hl h
  | fileClose handle => simpa [honoursComplete] using storageFileClose_post hl h
  | fileRead handle size offset => simpa [honoursComplete] using storageFileRead_post hl h
  | fileWrite offset handle len => simpa [honoursComplete] using storageFileWrite_post hl h
  | fileGetSize handle => simpa [honoursComplete] using storageFileGetSize_post hl h
  | fileSetSize size handle => simpa [honoursComplete] using storageFileSetSize_post hl h
  | badSize cmd => cases h; exact Post.rejected (by decide)
  | unsupported => cases h; exact Post.rejected (by decide)

/-! ## The invariant -/

theorem range_append_made (hn : s.next ≤ s'.next) :
    List.range s.next ++ made s s' = List.range s'.next := by
  unfold made
  rw [List.range_eq_range', List.range_eq_range']
  have hsplit := @List.range'_append 0 s.next (s'.next - s.next) 1
  simp only [zero_add, one_mul] at hsplit
  rw [hsplit]
  congr 1
  omega

/-- The invariant of a session. -/
structure Inv (s : Session) : Prop where
  /-- every change made so far belongs to an ended transaction, in order, or
  is pending -/
  changes : s.history.flatMap Ended.changes ++ s.tr.pending = List.range s.next
  /-- a transaction off the active list has nothing pending -/
  idle : s.tr.active = false → s.tr.pending = []
  /-- a transaction on the active list is neither failed nor complete -/
  live : s.tr.active = true → s.tr.failed = false ∧ s.tr.complete = false

theorem Inv.init (uuid : Uuid) (blockSize : Nat) (h : 0 < blockSize) :
    Inv (Session.init uuid blockSize h) where
  changes := rfl
  idle := fun _ => rfl
  live := fun h => by simp [Session.init] at h

theorem Inv.toLive (hi : Inv s) (ha : s.tr.active = true) : Live s :=
  ⟨(hi.live ha).1, (hi.live ha).2, ha⟩

theorem Inv.quiet (hi : Inv s) (hq : Quiet s s') : Inv s' where
  changes := by rw [hq.tr, hq.history, hq.next]; exact hi.changes
  idle := by rw [hq.tr]; exact hi.idle
  live := by rw [hq.tr]; exact hi.live

/-- The answers the file layer will give do not matter to the invariant. -/
theorem Inv.withDisk (hi : Inv s) (disk : List FsAnswer) : Inv { s with disk } :=
  hi.quiet ⟨rfl, rfl, rfl⟩

theorem Inv.grown (hi : Inv s) (hl : Live s) (hg : Grown s s') : Inv s' where
  changes := by
    rw [hg.tr, hg.history, ← range_append_made hg.next, ← hi.changes, List.append_assoc]
  idle := by rw [hg.tr]; simp [hl.active]
  live := fun _ => by rw [hg.tr]; exact ⟨hl.failed, hl.complete⟩

theorem Inv.failed (hi : Inv s) (hf : Failed s s') : Inv s' where
  changes := by
    rw [hf.tr, hf.history, ← range_append_made hf.next, ← hi.changes]
    simp
  idle := fun _ => by rw [hf.tr]
  live := fun h => by rw [hf.tr] at h; cases h

theorem Inv.committed (hi : Inv s) (hc : Committed s s') : Inv s' where
  changes := by
    rw [hc.tr, hc.history, ← range_append_made hc.next, ← hi.changes]
    simp
  idle := fun _ => by rw [hc.tr]
  live := fun h => by rw [hc.tr] at h; cases h

theorem Inv.effect (hi : Inv s) (hl : Live s) (hx : Effect s s') : Inv s' := by
  rcases hx with hg | hf | hc
  · exact hi.grown hl hg
  · exact hi.failed hf
  · exact hi.committed hc

theorem Inv.clearFailed (hi : Inv s) (ha : s.tr.active = false) : Inv s.clearFailed where
  changes := hi.changes
  idle := hi.idle
  live := fun h => absurd (ha.symm.trans h) (by decide)

theorem Failed.history_prefix (hf : Failed s s') : s.history <+: s'.history := by
  rw [hf.history]; exact List.prefix_append _ _

theorem Committed.history_prefix (hc : Committed s s') : s.history <+: s'.history := by
  rw [hc.history]; exact List.prefix_append _ _

theorem Effect.history (hx : Effect s s') : s.history <+: s'.history := by
  rcases hx with hg | hf | hc
  · rw [hg.history]
  · exact hf.history_prefix
  · exact hc.history_prefix

/-- A discarded change is never part of a committed transaction. -/
theorem Inv.discarded_not_committed (hi : Inv s) (he : e ∈ s.history) (he' : e' ∈ s.history)
    (hd : e.committed = false) (hc : e'.committed = true) (hx : x ∈ e.changes) : x ∉ e'.changes := by
  have hnodup : (s.history.flatMap Ended.changes).Nodup :=
    (List.nodup_append.1 (hi.changes ▸ List.nodup_range)).1
  have hne : e ≠ e' := fun h => by rw [h, hc] at hd; cases hd
  have : Std.Symm (Function.onFun List.Disjoint Ended.changes) := ⟨fun _ _ h => h.symm⟩
  exact (List.nodup_flatMap.1 hnodup).2.forall he he' hne hx

/-! ## `client_handle_msg` -/

/-- The changes pending in `s` (made since the last end of a transaction)
and those made from `s` to `s'` are committed in `s'`: in a new committed
transaction, or there were none. -/
def Commits (s s' : Session) : Prop :=
  s'.tr.pending = [] ∧
    (s'.history = s.history ++ [⟨true, s.tr.pending ++ made s s'⟩] ∨
      (s.tr.pending = [] ∧ s'.next = s.next ∧ s'.history = s.history))

/-- What `client_handle_msg` guarantees of the session `s'` it leaves and its
answer `e`. -/
structure Handled (s : Session) (flags : UInt32) (body : Body) (s' : Session) (e : StorageErr) :
    Prop where
  inv : Inv s'
  history : s.history <+: s'.history
  live : e = .noError → s'.tr.failed = false
  commits : e = .noError → transactComplete flags = true → honoursComplete body = true → Commits s s'

theorem Committed.commits (hc : Committed s s') : Commits s s' :=
  ⟨by rw [hc.tr], .inl hc.history⟩

/-- `STORAGE_END_TRANSACTION` with `STORAGE_MSG_FLAG_TRANSACT_COMPLETE`. -/
theorem handled_endComplete (hi : Inv s)
    (h₁ : (if s.tr.active then s.transactionComplete else some s) = some s₁)
    (h : (if s₁.tr.failed then (s₁.clearFailed, StorageErr.transact) else (s₁, .noError)) = (s', e)) :
    Handled s flags .endTransaction s' e := by
  by_cases ha : s.tr.active = true
  · rw [if_pos ha] at h₁
    have hl := hi.toLive ha
    rcases transactionComplete_live hl h₁ with hcm | hf
    · rw [if_neg (by simp [hcm.not_failed hl])] at h
      cases h
      exact ⟨hi.committed hcm, hcm.history_prefix, fun _ => hcm.not_failed hl,
        fun _ _ _ => hcm.commits⟩
    · rw [if_pos hf.failed] at h
      cases h
      have ha₁ : s₁.tr.active = false := by rw [hf.tr]
      exact ⟨(hi.failed hf).clearFailed ha₁, hf.history_prefix, (fun h => by cases h),
        (fun h => by cases h)⟩
  · rw [if_neg ha] at h₁
    cases h₁
    have hna : s.tr.active = false := by simpa using ha
    split_ifs at h with hf
    · cases h
      exact ⟨hi.clearFailed hna, List.prefix_refl _, (fun h => by cases h), (fun h => by cases h)⟩
    · cases h
      exact ⟨hi, List.prefix_refl _, fun _ => by simpa using hf,
        fun _ _ _ => ⟨hi.idle hna, .inr ⟨hi.idle hna, rfl, rfl⟩⟩⟩

/-- `STORAGE_END_TRANSACTION` without the flag: the transaction is discarded. -/
theorem handled_endDiscard (hi : Inv s) (hc : ¬transactComplete flags = true)
    (h₁ : (if s.tr.active then s.transactionFail else some s) = some s₁) :
    Handled s flags .endTransaction s₁.clearFailed .noError := by
  by_cases ha : s.tr.active = true
  · rw [if_pos ha, transactionFail_live (hi.toLive ha)] at h₁
    cases h₁
    have hf := discard_failed s
    exact ⟨(hi.failed hf).clearFailed rfl, hf.history_prefix, fun _ => rfl,
      fun _ hc' _ => absurd hc' hc⟩
  · rw [if_neg ha] at h₁
    cases h₁
    have hna : s.tr.active = false := by simpa using ha
    exact ⟨hi.clearFailed hna, List.prefix_refl _, fun _ => rfl,
      fun _ _ _ => ⟨hi.idle hna, .inr ⟨hi.idle hna, rfl, rfl⟩⟩⟩

/-- The transaction a request other than `STORAGE_END_TRANSACTION` runs in:
the session's own if it is on the active list, else a new one, with the same
changes pending (none) and the same history. -/
theorem activate_spec (hi : Inv s)
    (h₁ : (if s.tr.active then some s else s.transactionActivate) = some s₁) :
    Live s₁ ∧ Inv s₁ ∧ s₁.tr.pending = s.tr.pending ∧ s₁.history = s.history ∧
      s₁.next = s.next ∧ s₁.files = s.files := by
  by_cases ha : s.tr.active = true
  · rw [if_pos ha] at h₁
    cases h₁
    exact ⟨hi.toLive ha, hi, rfl, rfl, rfl, rfl⟩
  · rw [if_neg ha] at h₁
    simp only [transactionActivate, ha, Bool.false_eq_true, if_false, Option.some.injEq] at h₁
    subst h₁
    have hna : s.tr.active = false := by simpa using ha
    refine ⟨⟨rfl, rfl, rfl⟩, ⟨?_, (fun h => by cases h), (fun _ => ⟨rfl, rfl⟩)⟩,
      (hi.idle hna).symm, rfl, rfl, rfl⟩
    simpa [hi.idle hna] using hi.changes

/-- A request other than `STORAGE_END_TRANSACTION` on a live session: the
transaction is activated if need be, and the handler runs in it. -/
theorem handled_dispatch (hi : Inv s)
    (h₁ : (if s.tr.active then some s else s.transactionActivate) = some s₁)
    (h : s₁.storageDispatch flags body = some (s', e)) : Handled s flags body s' e := by
  obtain ⟨hl₁, hi₁, hpend, hhist, hnext, -⟩ := activate_spec hi h₁
  obtain ⟨hx, hok⟩ := storageDispatch_post hl₁ h
  have hmade : made s₁ s' = made s s' := by simp [made, hnext]
  refine ⟨hi₁.effect hl₁ hx, by rw [← hhist]; exact hx.history, fun he => ?_, fun he hc hh => ?_⟩
  · cases hask : (transactComplete flags && honoursComplete body)
    · have hg : Grown s₁ s' := by simpa [hask] using hok he
      rw [hg.tr]; exact hl₁.failed
    · have hcm : Committed s₁ s' := by simpa [hask] using hok he
      exact hcm.not_failed hl₁
  · have hcm : Committed s₁ s' := by simpa [hc, hh] using hok he
    refine ⟨by rw [hcm.tr], .inl ?_⟩
    rw [hcm.history, hpend, hhist, hmade]

/-- `client_handle_msg`, in every case. -/
theorem clientHandleMsg_spec (hi : Inv s) (h : s.clientHandleMsg flags body = some (s', e)) :
    Handled s flags body s' e := by
  unfold clientHandleMsg at h
  by_cases hend : body = .endTransaction
  · subst hend
    rw [if_pos rfl] at h
    by_cases hc : transactComplete flags = true
    · rw [if_pos hc] at h
      obtain ⟨s₁, h₁, h⟩ := Option.map_eq_some_iff.1 h
      exact handled_endComplete hi h₁ h
    · rw [if_neg hc] at h
      obtain ⟨s₁, h₁, h⟩ := Option.map_eq_some_iff.1 h
      cases h
      exact handled_endDiscard hi hc h₁
  rw [if_neg hend] at h
  by_cases hf : s.tr.failed = true
  · rw [if_pos hf] at h
    cases h
    -- a failed transaction is off the active list
    have hna : s.tr.active = false := by
      cases ha : s.tr.active
      · rfl
      · rw [(hi.live ha).1] at hf; cases hf
    refine ⟨?_, ?_, (fun h => by cases h), (fun h => by cases h)⟩
    · split_ifs
      · exact hi.clearFailed hna
      · exact hi
    · split_ifs <;> exact List.prefix_refl _
  rw [if_neg hf] at h
  obtain ⟨s₁, h₁, h⟩ := Option.bind_eq_some_iff.1 h
  exact handled_dispatch hi h₁ h

/-! ## Steps and runs -/

/-- The failed flag set on a transaction off the active list, nothing else. -/
structure Marked (s s' : Session) : Prop where
  idle : s.tr.active = false
  tr : s'.tr = { s.tr with failed := true }
  history : s'.history = s.history
  next : s'.next = s.next

theorem Inv.marked (hi : Inv s) (hm : Marked s s') : Inv s' where
  changes := by rw [hm.tr, hm.history, hm.next]; exact hi.changes
  idle := fun _ => by rw [hm.tr]; exact hi.idle hm.idle
  live := fun h => by rw [hm.tr] at h; rw [hm.idle] at h; cases h

/-- `transaction_fail` from outside a handler: a live transaction is
discarded; a complete one only gets the failed flag. -/
theorem transactionFail_cases (hi : Inv s) (h : s.transactionFail = some s') :
    (Live s ∧ Failed s s') ∨ Marked s s' := by
  unfold transactionFail at h
  by_cases hf : s.tr.failed = true
  · rw [if_pos hf] at h; cases h
  rw [if_neg hf] at h
  by_cases hc : s.tr.complete = true
  · rw [if_pos hc] at h
    cases h
    have ha : s.tr.active = false := by
      cases ha : s.tr.active
      · rfl
      · rw [(hi.live ha).2] at hc; cases hc
    exact .inr ⟨ha, rfl, rfl, rfl⟩
  rw [if_neg hc] at h
  by_cases ha : s.tr.active = true
  · rw [if_neg (by simp [ha])] at h
    cases h
    exact .inl ⟨hi.toLive ha, discard_failed s⟩
  · rw [if_pos (by simpa using ha)] at h
    cases h

/-- `client_disconnect`: a live transaction is discarded. -/
theorem clientDisconnect_spec (hi : Inv s) (h : s.clientDisconnect = some s') :
    (Live s ∧ Failed s s') ∨ (s.tr.active = false ∧ Quiet s s') := by
  unfold clientDisconnect at h
  obtain ⟨s₁, h₁, h₂⟩ := Option.bind_eq_some_iff.1 h
  by_cases hc : (s.tr.active && !s.tr.failed) = true
  · rw [if_pos hc] at h₁
    have hl : Live s := hi.toLive (by simp_all)
    rw [transactionFail_live hl] at h₁
    cases h₁
    rw [if_neg (by simp [discard])] at h₂
    cases h₂
    exact .inl ⟨hl, (discard_failed s).quiet ⟨rfl, rfl, rfl⟩⟩
  · rw [if_neg hc] at h₁
    cases h₁
    split_ifs at h₂ with ha
    cases h₂
    exact .inr ⟨by simpa using ha, ⟨rfl, rfl, rfl⟩⟩

/-- `file_apply_to_commit` for another session's commit. -/
theorem otherCommit_spec (hi : Inv s) (h : s.otherCommit handle size = some s') :
    (Live s ∧ Failed s s') ∨ Marked s s' ∨ Quiet s s' := by
  unfold otherCommit at h
  split at h
  · cases h
  · rename_i f hfile
    obtain ⟨s₁, h₁, rfl⟩ := Option.map_eq_some_iff.1 h
    split_ifs at h₁
    · rcases transactionFail_cases hi h₁ with ⟨hl, hf⟩ | hm
      · exact .inl ⟨hl, hf.quiet (modifyFile_quiet _ _ _)⟩
      · exact .inr (.inl ⟨hm.idle, hm.tr, hm.history, hm.next⟩)
    · cases h₁
      exact .inr (.inr (modifyFile_quiet _ _ _))

/-- `file_apply_to_commit` while a live transaction writes the file at
`handle`: a file it used fails it; any other file is updated, and the one
written to is left as it was. -/
theorem otherCommit_written (hl : Live s) (hw : s.Written handle pos)
    (h : s.otherCommit handle' size = some s') : Failed s s' ∨ (Quiet s s' ∧ s'.Written handle pos) := by
  unfold otherCommit at h
  split at h
  · cases h
  · rename_i f' hf'
    obtain ⟨s₁, h₁, rfl⟩ := Option.map_eq_some_iff.1 h
    by_cases hu : f'.usedByTr = true
    · rw [if_pos hu, transactionFail_live hl] at h₁
      cases h₁
      exact .inl ((discard_failed s).quiet (modifyFile_quiet _ _ _))
    · rw [if_neg hu] at h₁
      cases h₁
      -- the file written is used by the transaction, so it is another one
      obtain ⟨f, hf, hfu, hle⟩ := hw
      have hne : handle' ≠ handle := by
        rintro rfl
        rw [hf] at hf'
        cases hf'
        exact hu hfu
      refine .inr ⟨modifyFile_quiet _ _ _, f, ?_, hfu, hle⟩
      rw [getFileHandle_modifyFile, if_neg hne, hf]

theorem transactionFail_next (h : s.transactionFail = some s') : s'.next = s.next := by
  unfold transactionFail at h
  split_ifs at h <;> cases h <;> rfl

/-- The rest of the system makes no change: it fails the transaction or
updates an open file. -/
theorem step_conflict_next (h : s.step .conflict = some (s', o)) : s'.next = s.next := by
  simp only [step] at h
  split_ifs at h
  obtain ⟨s₁, h₁, he⟩ := Option.map_eq_some_iff.1 h
  cases he
  exact transactionFail_next h₁

theorem step_otherCommit_next (h : s.step (.otherCommit handle size) = some (s', o)) :
    s'.next = s.next := by
  simp only [step] at h
  split_ifs at h
  obtain ⟨s₁, h₁, he⟩ := Option.map_eq_some_iff.1 h
  cases he
  unfold otherCommit at h₁
  split at h₁
  · cases h₁
  · obtain ⟨s₂, h₂, rfl⟩ := Option.map_eq_some_iff.1 h₁
    show s₂.next = s.next
    split_ifs at h₂
    · exact transactionFail_next h₂
    · cases h₂; rfl

/-- Every step keeps the invariant and only adds to the history. -/
theorem step_spec (hi : Inv s) (h : s.step a = some (s', o)) :
    Inv s' ∧ s.history <+: s'.history := by
  cases a with
  | msg m disk =>
    cases m with
    | short =>
      simp only [step] at h
      split_ifs at h
      obtain ⟨s₁, h₁, he⟩ := Option.map_eq_some_iff.1 h
      cases he
      rcases clientDisconnect_spec hi h₁ with ⟨-, hf⟩ | ⟨-, hq⟩
      · exact ⟨hi.failed hf, hf.history_prefix⟩
      · exact ⟨hi.quiet hq, by rw [hq.history]⟩
    | req flags body =>
      simp only [step] at h
      split_ifs at h
      obtain ⟨⟨s₁, e⟩, h₁, he⟩ := Option.map_eq_some_iff.1 h
      cases he
      have hd := clientHandleMsg_spec (hi.withDisk disk) h₁
      exact ⟨hd.inv, hd.history⟩
  | conflict =>
    simp only [step] at h
    split_ifs at h
    obtain ⟨s₁, h₁, he⟩ := Option.map_eq_some_iff.1 h
    cases he
    rcases transactionFail_cases hi h₁ with ⟨-, hf⟩ | hm
    · exact ⟨hi.failed hf, hf.history_prefix⟩
    · exact ⟨hi.marked hm, by rw [hm.history]⟩
  | otherCommit handle size =>
    simp only [step] at h
    split_ifs at h
    obtain ⟨s₁, h₁, he⟩ := Option.map_eq_some_iff.1 h
    cases he
    rcases otherCommit_spec hi h₁ with ⟨-, hf⟩ | hm | hq
    · exact ⟨hi.failed hf, hf.history_prefix⟩
    · exact ⟨hi.marked hm, by rw [hm.history]⟩
    · exact ⟨hi.quiet hq, by rw [hq.history]⟩
  | disconnect =>
    simp only [step] at h
    split_ifs at h
    obtain ⟨s₁, h₁, he⟩ := Option.map_eq_some_iff.1 h
    cases he
    rcases clientDisconnect_spec hi h₁ with ⟨-, hf⟩ | ⟨-, hq⟩
    · exact ⟨hi.failed hf, hf.history_prefix⟩
    · exact ⟨hi.quiet hq, by rw [hq.history]⟩

theorem Inv.step (hi : Inv s) (h : s.step a = some (s', o)) : Inv s' := (step_spec hi h).1

/-- Every session reached from a new one satisfies the invariant. -/
theorem Inv.run {u : Uuid} {b : Nat} {hb : 0 < b} {as : List Action} {out : List StorageErr}
    (h : LTS.Run Session.step (Session.init u b hb) as out s) : Inv s :=
  h.induction (P := fun s _ => Inv s) (Inv.init u b hb) fun hi hstep => hi.step hstep

/-- Along a run from an invariant state the history only grows. -/
theorem Run.history_prefix {as : List Action} {out : List StorageErr} (hi : Inv s)
    (h : LTS.Run Session.step s as out s') : s.history <+: s'.history :=
  (h.induction (P := fun t _ => Inv t ∧ s.history <+: t.history) ⟨hi, List.prefix_refl _⟩
    fun ⟨hit, hp⟩ hstep => ⟨hit.step hstep, hp.trans (step_spec hit hstep).2⟩).2

/-! ## The failed flag, the answers and the commits, step by step -/

variable {flags : UInt32} {body : Body} {disk : List FsAnswer} {a : Action} {o : List StorageErr}

/-- A request reaches `client_handle_msg` with the answers the file layer
gives for it. -/
theorem step_req (h : s.step (.msg (.req flags body) disk) = some (s', o)) :
    ∃ e, o = [e] ∧ { s with disk }.clientHandleMsg flags body = some (s', e) := by
  simp only [step] at h
  split_ifs at h
  obtain ⟨⟨s₁, e⟩, h₁, he⟩ := Option.map_eq_some_iff.1 h
  cases he
  exact ⟨e, rfl, h₁⟩

/-- Only a request is answered `STORAGE_NO_ERROR`. -/
theorem step_noError_req (h : s.step a = some (s', o)) (hn : StorageErr.noError ∈ o) :
    ∃ flags body disk, a = .msg (.req flags body) disk := by
  cases a with
  | msg m disk =>
    cases m with
    | short =>
      simp only [step] at h
      split_ifs at h
      obtain ⟨s₁, -, he⟩ := Option.map_eq_some_iff.1 h
      cases he
      simp at hn
    | req flags body => exact ⟨flags, body, disk, rfl⟩
  | conflict | otherCommit _ _ | disconnect =>
    simp only [step] at h
    split_ifs at h
    obtain ⟨s₁, -, he⟩ := Option.map_eq_some_iff.1 h
    cases he
    simp at hn

/-- (a) A `STORAGE_NO_ERROR` answer leaves the transaction not failed. -/
theorem step_noError_live (hi : Inv s) (h : s.step a = some (s', o)) (hn : StorageErr.noError ∈ o) :
    s'.tr.failed = false := by
  obtain ⟨flags, body, disk, rfl⟩ := step_noError_req h hn
  obtain ⟨e, rfl, h₁⟩ := step_req h
  exact (clientHandleMsg_spec (hi.withDisk disk) h₁).live
    (List.mem_singleton.1 hn).symm

/-- (b) A request other than `STORAGE_END_TRANSACTION` on a failed
transaction is answered `STORAGE_ERR_TRANSACT` and changes nothing but the
failed flag, which it clears if it carries
`STORAGE_MSG_FLAG_TRANSACT_COMPLETE`. -/
theorem step_failed_sticky (hf : s.tr.failed = true) (hb : body ≠ .endTransaction)
    (h : s.step (.msg (.req flags body) disk) = some (s', o)) :
    o = [.transact] ∧ s' = { s with disk, tr := { s.tr with failed := !transactComplete flags } } := by
  obtain ⟨e, rfl, h₁⟩ := step_req h
  simp only [clientHandleMsg, hb, if_false] at h₁
  rw [if_pos hf] at h₁
  cases htc : transactComplete flags
  · rw [htc] at h₁
    simp only [Bool.false_eq_true, if_false, Option.some.injEq, Prod.mk.injEq] at h₁
    obtain ⟨rfl, rfl⟩ := h₁
    refine ⟨rfl, ?_⟩
    rw [Bool.not_false, ← hf]
  · rw [htc] at h₁
    simp only [if_true, Option.some.injEq, Prod.mk.injEq] at h₁
    obtain ⟨rfl, rfl⟩ := h₁
    exact ⟨rfl, rfl⟩

/-- (b) Only `STORAGE_END_TRANSACTION`, or a request carrying
`STORAGE_MSG_FLAG_TRANSACT_COMPLETE`, clears the failed flag. -/
theorem step_failed_cleared (hi : Inv s) (hf : s.tr.failed = true) (h : s.step a = some (s', o))
    (hc : s'.tr.failed = false) :
    ∃ flags body disk, a = .msg (.req flags body) disk ∧
      (body = .endTransaction ∨ transactComplete flags = true) := by
  -- a step that discards a live transaction cannot start from a failed one,
  -- and the others keep the flag set
  have hnl : ¬Live s := fun hl => by rw [hl.failed] at hf; cases hf
  cases a with
  | msg m disk =>
    cases m with
    | short =>
      simp only [step] at h
      split_ifs at h
      obtain ⟨s₁, h₁, he⟩ := Option.map_eq_some_iff.1 h
      cases he
      rcases clientDisconnect_spec hi h₁ with ⟨hl, -⟩ | ⟨-, hq⟩
      · exact absurd hl hnl
      · rw [hq.tr, hf] at hc; cases hc
    | req flags body =>
      refine ⟨flags, body, disk, rfl, ?_⟩
      by_cases hb : body = .endTransaction
      · exact .inl hb
      · obtain ⟨-, rfl⟩ := step_failed_sticky hf hb h
        exact .inr (by simpa using hc)
  | conflict =>
    simp only [step] at h
    split_ifs at h
    obtain ⟨s₁, h₁, he⟩ := Option.map_eq_some_iff.1 h
    cases he
    rcases transactionFail_cases hi h₁ with ⟨hl, -⟩ | hm
    · exact absurd hl hnl
    · rw [hm.tr] at hc; cases hc
  | otherCommit handle size =>
    simp only [step] at h
    split_ifs at h
    obtain ⟨s₁, h₁, he⟩ := Option.map_eq_some_iff.1 h
    cases he
    rcases otherCommit_spec hi h₁ with ⟨hl, -⟩ | hm | hq
    · exact absurd hl hnl
    · rw [hm.tr] at hc; cases hc
    · rw [hq.tr, hf] at hc; cases hc
  | disconnect =>
    simp only [step] at h
    split_ifs at h
    obtain ⟨s₁, h₁, he⟩ := Option.map_eq_some_iff.1 h
    cases he
    rcases clientDisconnect_spec hi h₁ with ⟨hl, -⟩ | ⟨-, hq⟩
    · exact absurd hl hnl
    · rw [hq.tr, hf] at hc; cases hc

/-- (c) A `STORAGE_NO_ERROR` answer to a request carrying
`STORAGE_MSG_FLAG_TRANSACT_COMPLETE` whose handler honours the flag commits
the changes pending and those the request made. -/
theorem step_commit (hi : Inv s) (h : s.step (.msg (.req flags body) disk) = some (s', [.noError]))
    (hc : transactComplete flags = true) (hh : honoursComplete body = true) : Commits s s' := by
  obtain ⟨e, he, h₁⟩ := step_req h
  simp only [List.cons.injEq, and_true] at he
  subst he
  exact (clientHandleMsg_spec (hi.withDisk disk) h₁).commits rfl hc hh

/-! ## The session protocol -/

theorem Inv.run_from {as : List Action} {out : List StorageErr} (hi : Inv s)
    (h : LTS.Run Session.step s as out s') : Inv s' :=
  h.induction (P := fun t _ => Inv t) hi fun hit hstep => hit.step hstep

/-- A change of a discarded transaction is never committed, whatever the
session does next. -/
theorem Inv.never_committed {as : List Action} {out : List StorageErr} (hi : Inv s)
    (he : e ∈ s.history) (hd : e.committed = false) (hx : x ∈ e.changes)
    (ht : LTS.Run Session.step s as out s') : ∀ e' ∈ s'.history, e'.committed = true → x ∉ e'.changes := by
  intro e' he' hc
  -- the discarded transaction is still in the history of the later state
  have he₂ : e ∈ s'.history := List.IsPrefix.mem he (Run.history_prefix hi ht)
  exact (hi.run_from ht).discarded_not_committed he₂ he' hd hc hx

variable {u : Uuid} {b : Nat} {hb : 0 < b} {as : List Action} {out : List StorageErr}

/-- Over every run of a storage session from `client_connect`, in the state
reached: the pending changes are those made since the last transaction
ended; (a) a `STORAGE_NO_ERROR` answer leaves the transaction not failed;
(b) on a failed transaction a request other than `STORAGE_END_TRANSACTION` is
answered `STORAGE_ERR_TRANSACT` and changes nothing but the failed flag, which
only `STORAGE_END_TRANSACTION` or a request carrying
`STORAGE_MSG_FLAG_TRANSACT_COMPLETE` clears; (c) a `STORAGE_NO_ERROR` answer
to a request carrying the flag, whose handler honours it, commits every
change made since the last transaction ended, and a change of a discarded
transaction is never committed later. -/
theorem session_transaction_protocol (hrun : LTS.Run Session.step (Session.init u b hb) as out s) :
    s.history.flatMap Ended.changes ++ s.tr.pending = List.range s.next ∧
    (∀ a s' o, s.step a = some (s', o) → StorageErr.noError ∈ o → s'.tr.failed = false) ∧
    (∀ flags body disk s' o, s.tr.failed = true → body ≠ .endTransaction →
      s.step (.msg (.req flags body) disk) = some (s', o) →
      o = [.transact] ∧ s' = { s with disk, tr := { s.tr with failed := !transactComplete flags } }) ∧
    (∀ a s' o, s.tr.failed = true → s.step a = some (s', o) → s'.tr.failed = false →
      ∃ flags body disk, a = .msg (.req flags body) disk ∧
        (body = .endTransaction ∨ transactComplete flags = true)) ∧
    (∀ flags body disk s', s.step (.msg (.req flags body) disk) = some (s', [.noError]) →
      transactComplete flags = true → honoursComplete body = true → Commits s s') ∧
    (∀ as' out' t, LTS.Run Session.step s as' out' t → ∀ e ∈ s.history, e.committed = false →
      ∀ x ∈ e.changes, ∀ e' ∈ t.history, e'.committed = true → x ∉ e'.changes) := by
  have hi := Inv.run hrun
  refine ⟨hi.changes, fun a s' o h hn => step_noError_live hi h hn,
    fun flags body disk s' o hf hb h => step_failed_sticky hf hb h,
    fun a s' o hf h hc => step_failed_cleared hi hf h hc,
    fun flags body disk s' h hc hh => step_commit hi h hc hh, ?_⟩
  intro as' out' t ht e he hd x hx
  exact hi.never_committed he hd hx ht

/-- A new session of `uuidOne` creating file `a` with
`STORAGE_MSG_FLAG_TRANSACT_COMPLETE`: the creation is committed. -/
theorem session_transaction_protocol_open :
    ∃ s', (Session.init uuidOne 2048 (by decide)).step
        (.msg (.req 4 (.fileOpen storageFileOpenCreate [97])) [.done, .done]) = some (s', [.noError]) ∧
      Commits (Session.init uuidOne 2048 (by decide)) s' :=
  ⟨_, rfl, (session_transaction_protocol .nil).2.2.2.2.1 4 (.fileOpen storageFileOpenCreate [97])
    [.done, .done] _ rfl rfl rfl⟩

end Session

end ClientTipc
