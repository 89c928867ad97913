import Trusty.Storage.Path
import Trusty.Lib.Trace

/-!
# `client_tipc.c`: the requests of a storage session

A storage session serves one client channel.  `client_handle_msg` handles each
message: `STORAGE_END_TRANSACTION` commits or discards the session's
transaction and clears its failed state; any other request on a failed
transaction is answered `STORAGE_ERR_TRANSACT` (clearing the failed state if
it carries `STORAGE_MSG_FLAG_TRANSACT_COMPLETE`); otherwise the transaction is
activated if need be and the command's handler runs.

The file layer below the session (`file.c`, `block_cache.c`, the commit in
`transaction.c`) is not modelled inside.  Each of its calls takes the next
answer from `disk`, which the environment supplies with the message: the call
did its work, found a file or nothing, or failed the transaction.  What the
session does with each answer, and what `transaction_fail`,
`transaction_complete` and `transaction_activate` do to the transaction, is
modelled: a failure discards the transaction's changes and restores its open
files, a commit makes them part of the file system.  Ghost fields number the
changes made (`next`) and record how each transaction ended (`history`).

Between messages the rest of the system may fail the transaction
(`Action.conflict`: another session's commit found a conflict, or a write-back
of one of its blocks failed) or commit a new version of an open file
(`Action.otherCommit`, `file_apply_to_commit` on this session's handle).
-/

namespace ClientTipc

/-! ## The protocol -/

/-- `enum storage_err`. -/
inductive StorageErr
  | noError
  | generic
  | notValid
  | unimplemented
  | access
  | notFound
  | exist
  | transact
  deriving DecidableEq, Repr

/-- The commands of `client_handle_msg`'s switch. -/
inductive StorageCmd
  | fileDelete
  | fileOpen
  | fileClose
  | fileRead
  | fileWrite
  | fileGetSize
  | fileSetSize
  deriving DecidableEq, Repr

/-- A request's command and payload, the payload as the command's handler
reads it: the fields of its request struct and, for open and delete, the name
that fills the rest.  The `len` bytes of a write are not looked at.  `badSize
cmd` is a payload whose size the handler of `cmd` rejects; `unsupported` is a
command outside the switch (`STORAGE_RPMB_SEND`, an unknown number). -/
inductive Body
  | endTransaction
  | fileDelete (flags : UInt32) (name : List UInt8)
  | fileOpen (flags : UInt32) (name : List UInt8)
  | fileClose (handle : Nat)
  | fileRead (handle size offset : Nat)
  | fileWrite (offset handle len : Nat)
  | fileGetSize (handle : Nat)
  | fileSetSize (size handle : Nat)
  | badSize (cmd : StorageCmd)
  | unsupported
  deriving DecidableEq, Repr

/-- A message on the session's channel: one shorter than `struct
storage_msg`, or a request with its `storage_msg.flags`. -/
inductive Msg
  | short
  | req (flags : UInt32) (body : Body)
  deriving DecidableEq, Repr

/-- `STORAGE_MSG_FLAG_TRANSACT_COMPLETE`. -/
def storageMsgFlagTransactComplete : UInt32 := 4

/-- `STORAGE_FILE_OPEN_CREATE`. -/
def storageFileOpenCreate : UInt32 := 1

/-- `STORAGE_FILE_OPEN_CREATE_EXCLUSIVE`. -/
def storageFileOpenCreateExclusive : UInt32 := 2

/-- `STORAGE_FILE_OPEN_TRUNCATE`. -/
def storageFileOpenTruncate : UInt32 := 4

/-- `STORAGE_FILE_OPEN_MASK`. -/
def storageFileOpenMask : UInt32 := 7

/-- `STORAGE_FILE_DELETE_MASK`. -/
def storageFileDeleteMask : UInt32 := 0

/-- `STORAGE_MAX_OPEN_FILES`. -/
def storageMaxOpenFiles : Nat := 128

/-- `STORAGE_MAX_BUFFER_SIZE`. -/
def storageMaxBufferSize : Nat := 4096

/-- `sizeof(struct storage_msg)`. -/
def storageMsgSize : Nat := 24

/-- `msg->flags & STORAGE_MSG_FLAG_TRANSACT_COMPLETE`. -/
def transactComplete (flags : UInt32) : Bool :=
  flags &&& storageMsgFlagTransactComplete != 0

/-! ## The session -/

/-- What a call into the file layer answered: it did its work, it found an
existing file of `size` (`file_open`), it found no file at the path or no
block at the offset, or it failed the transaction (a read or write error, a
MAC mismatch, no space left). -/
inductive FsAnswer
  | done
  | opened (size : Nat)
  | absent
  | fail
  deriving DecidableEq, Repr

/-- `struct file_handle` as the session sees it. -/
structure FileHandle where
  /-- `file->size` -/
  size : Nat
  /-- the size at the last commit, which `file_transaction_failed` restores -/
  committedSize : Nat
  /-- `file->used_by_tr` -/
  usedByTr : Bool
  deriving DecidableEq, Repr

/-- A slot that `create_file_handle` has filled with a zeroed handle. -/
def FileHandle.zero : FileHandle := ⟨0, 0, false⟩

/-- `file_transaction_failed` on one handle. -/
def FileHandle.restore (f : FileHandle) : FileHandle :=
  { f with size := f.committedSize, usedByTr := false }

/-- `file_apply_to_commit` on a handle of the committing transaction. -/
def FileHandle.apply (f : FileHandle) : FileHandle :=
  { f with committedSize := f.size, usedByTr := false }

/-- `struct transaction`: its flags, whether it is on the file system's active
list (`transaction_is_active`), and the changes made in it since
`transaction_activate`, by number. -/
structure Transaction where
  failed : Bool
  complete : Bool
  active : Bool
  pending : List Nat
  deriving DecidableEq, Repr

/-- How a transaction ended: committed or discarded, with its changes. -/
structure Ended where
  committed : Bool
  changes : List Nat
  deriving DecidableEq, Repr

/-- `struct storage_client_session`, the answers the file layer will give,
and the ghost record of the changes made and of how transactions ended. -/
structure Session where
  uuid : Uuid
  /-- `get_file_block_size(session->tr.fs)` -/
  blockSize : Nat
  blockSize_pos : 0 < blockSize
  tr : Transaction
  /-- `session->files`, `files_count` slots -/
  files : List (Option FileHandle)
  /-- `client_disconnect` has not run -/
  connected : Bool
  disk : List FsAnswer
  history : List Ended
  /-- the number of the next change -/
  next : Nat

/-- The session `client_connect` makes: `transaction_init(..., false)`, no
open files. -/
def Session.init (uuid : Uuid) (blockSize : Nat) (h : 0 < blockSize) : Session :=
  ⟨uuid, blockSize, h, ⟨false, false, false, []⟩, [], true, [], [], 0⟩

namespace Session

/-- The file layer's next answer. -/
def answer (s : Session) : Option (FsAnswer × Session) :=
  match s.disk with
  | [] => none
  | a :: disk => some (a, { s with disk })

/-- A change made in the transaction (a block written, a file created,
deleted or resized), under the next number. -/
def change (s : Session) : Session :=
  { s with tr := { s.tr with pending := s.tr.pending ++ [s.next] }, next := s.next + 1 }

/-- `f` applied to the open file at `handle`. -/
def modifyFile (s : Session) (handle : Nat) (f : FileHandle → FileHandle) : Session :=
  { s with files := s.files.modify handle (Option.map f) }

/-- The file at `handle` read by the transaction (`file->used_by_tr = true`). -/
def use (s : Session) (handle : Nat) : Session :=
  s.modifyFile handle fun f => { f with usedByTr := true }

/-- The transaction discards its changes: `block_cache_discard_transaction`,
`transaction_delete_active`, `file_transaction_failed`. -/
def discard (s : Session) : Session :=
  { s with
    tr := { s.tr with failed := true, active := false, pending := [] }
    files := s.files.map (Option.map FileHandle.restore)
    history := s.history ++ [⟨false, s.tr.pending⟩] }

/-- The transaction's changes become the file system's: the super block is
written, `transaction_delete_active`, `file_transaction_success`. -/
def commit (s : Session) : Session :=
  { s with
    tr := { s.tr with complete := true, active := false, pending := [] }
    files := s.files.map (Option.map FileHandle.apply)
    history := s.history ++ [⟨true, s.tr.pending⟩] }

/-- `session->tr.failed = false`. -/
def clearFailed (s : Session) : Session :=
  { s with tr := { s.tr with failed := false } }

/-! ### `transaction.c` -/

/-- `transaction_fail`; a transaction that is not complete must be on the
active list (the assertion of `transaction_delete_active`). -/
def transactionFail (s : Session) : Option Session :=
  if s.tr.failed then none
  else if s.tr.complete then some { s with tr := { s.tr with failed := true } }
  else if !s.tr.active then none
  else some s.discard

/-- `transaction_complete`: on a failed transaction only the error path; else
the commit, which the file layer may fail. -/
def transactionComplete (s : Session) : Option Session :=
  if s.tr.complete then none
  else if s.tr.failed then some s
  else if !s.tr.active then none
  else
    match s.answer with
    | some (.done, s) => some s.commit
    | some (.fail, s) => s.transactionFail
    | _ => none

/-- `transaction_activate`. -/
def transactionActivate (s : Session) : Option Session :=
  if s.tr.active then none
  else some { s with tr := ⟨false, false, true, []⟩ }

/-! ### `file.c`, as the session calls it -/

/-- `file_delete`: whether a file was found and deleted. -/
def fileDelete (s : Session) : Option (Session × Bool) :=
  match s.answer with
  | some (.done, s) => some (s.change, true)
  | some (.absent, s) => some (s, false)
  | some (.fail, s) => s.transactionFail.map (·, false)
  | _ => none

/-- `enum file_create_mode`. -/
inductive FileCreateMode
  | noCreate
  | create
  | createExclusive
  deriving DecidableEq, Repr

/-- `file_open`: the handle of the file found or created, if any.  A file
found under `FILE_OPEN_CREATE_EXCLUSIVE` is not opened. -/
def fileOpen (s : Session) (mode : FileCreateMode) : Option (Session × Option FileHandle) :=
  match s.answer with
  | some (.opened size, s) =>
    some (s, if mode = .createExclusive then none else some ⟨size, size, false⟩)
  | some (.done, s) => if mode = .noCreate then none else some (s.change, some FileHandle.zero)
  | some (.absent, s) => some (s, none)
  | some (.fail, s) => s.transactionFail.map (·, none)
  | none => none

/-- `file_get_block`: whether the block at the offset was read. -/
def fileGetBlock (s : Session) (handle : Nat) : Option (Session × Bool) :=
  if s.tr.failed then some (s, false)
  else
    match s.answer with
    | some (.done, s) => some (s.use handle, true)
    | some (.absent, s) => some (s.use handle, false)
    | some (.fail, s) => s.transactionFail.map (·, false)
    | _ => none

/-- `file_get_block_write` and `file_block_put_dirty` of one block: whether
the block was written. -/
def fileGetBlockWrite (s : Session) (handle : Nat) : Option (Session × Bool) :=
  if s.tr.failed then some (s, false)
  else
    match s.answer with
    | some (.done, s) => some ((s.use handle).change, true)
    | some (.fail, s) => s.transactionFail.map (·, false)
    | _ => none

/-- `get_file_handle`. -/
def getFileHandle (s : Session) (handle : Nat) : Option FileHandle :=
  s.files[handle]?.join

/-- `file->size` of the file at `handle`. -/
def fileSize (s : Session) (handle : Nat) : Nat :=
  ((s.getFileHandle handle).map FileHandle.size).getD 0

/-- `file_set_size`. -/
def fileSetSize (s : Session) (handle size : Nat) : Option Session :=
  if s.tr.failed then some s
  else
    match s.answer with
    | some (.done, s) =>
      if s.fileSize handle = size then some s
      else some (s.modifyFile handle fun f => { f with size }).change
    | some (.fail, s) => s.transactionFail
    | _ => none

/-- `file_get_size`: the size, unless the transaction failed or the file was
deleted under its handle. -/
def fileGetSize (s : Session) (handle : Nat) : Option (Session × Option Nat) :=
  if s.tr.failed then some (s, none)
  else
    match s.answer with
    | some (.done, s) => some (s.use handle, some (s.fileSize handle))
    | some (.absent, s) => some (s, none)
    | _ => none

/-! ### The file table -/

/-- `create_file_handle`: the first free slot, or a new last one, holding a
zeroed handle; `none` when the table would exceed `STORAGE_MAX_OPEN_FILES`. -/
def createFileHandle (s : Session) : Option (Session × Nat) :=
  let handle := (s.files.findIdx? Option.isNone).getD s.files.length
  if handle < s.files.length then some ({ s with files := s.files.set handle (some .zero) }, handle)
  else if handle + 1 > storageMaxOpenFiles then none
  else some ({ s with files := s.files ++ [some .zero] }, handle)

/-- `free_file_handle`, with `session_shrink_files` dropping the empty slots
at the end. -/
def freeFileHandle (s : Session) (handle : Nat) : Session :=
  if (s.getFileHandle handle).isSome then
    { s with files := ((s.files.set handle none).reverse.dropWhile Option.isNone).reverse }
  else s

/-- The handle `file_open` filled in. -/
def setFile (s : Session) (handle : Nat) (f : FileHandle) : Session :=
  { s with files := s.files.set handle (some f) }

/-! ### The handlers -/

/-- The bytes of `[offset, offset + bytesLeft)` in the block holding `offset`. -/
def blockLen (blockSize offset bytesLeft : Nat) : Nat :=
  if offset % blockSize + bytesLeft > blockSize then blockSize - offset % blockSize else bytesLeft

/-- The block loop of `storage_file_read`: `file_get_block` for each block of
`[offset, offset + bytesLeft)`; `false` at the first one not read. -/
def readBlocks (handle : Nat) : (fuel offset bytesLeft : Nat) → Session → Option (Session × Bool)
  | 0, _, _, s => some (s, true)
  | fuel + 1, offset, bytesLeft, s =>
    if bytesLeft = 0 then some (s, true)
    else
      match s.fileGetBlock handle with
      | some (s, true) =>
        let len := blockLen s.blockSize offset bytesLeft
        readBlocks handle fuel (offset + len) (bytesLeft - len) s
      | some (s, false) => some (s, false)
      | none => none

/-- The block loop of `storage_file_write`: the offset it ends at, or `none`
at the first block not written (`goto err_write`). -/
def writeBlocks (handle : Nat) : (fuel offset bytesLeft : Nat) → Session → Option (Session × Option Nat)
  | 0, offset, _, s => some (s, some offset)
  | fuel + 1, offset, bytesLeft, s =>
    if bytesLeft = 0 then some (s, some offset)
    else
      match s.fileGetBlockWrite handle with
      | some (s, true) =>
        let len := blockLen s.blockSize offset bytesLeft
        writeBlocks handle fuel (offset + len) (bytesLeft - len) s
      | some (s, false) => some (s, none)
      | none => none

/-- The end of `storage_file_delete`, `storage_file_close` and
`storage_file_write`: complete the transaction if the request asks for it,
and answer `STORAGE_ERR_GENERIC` if that failed. -/
def completeIfAsked (s : Session) (flags : UInt32) : Option (Session × StorageErr) :=
  if transactComplete flags then
    s.transactionComplete.map fun s => (s, if s.tr.failed then .generic else .noError)
  else some (s, .noError)

/-- `storage_file_delete`. -/
def storageFileDelete (s : Session) (flags reqFlags : UInt32) (name : List UInt8) :
    Option (Session × StorageErr) :=
  if reqFlags &&& ~~~storageFileDeleteMask != 0 then some (s, .notValid)
  else if (requestPath s.uuid name).isNone then some (s, .notValid)
  else
    match s.fileDelete with
    | some (s, deleted) =>
      if s.tr.failed then some (s, .generic)
      else if !deleted then some (s, .notFound)
      else s.completeIfAsked flags
    | none => none

/-- The `file_create_mode` of `storage_file_open`'s flags. -/
def fileCreateMode (flags : UInt32) : FileCreateMode :=
  if flags &&& storageFileOpenCreate != 0 then
    if flags &&& storageFileOpenCreateExclusive != 0 then .createExclusive else .create
  else .noCreate

/-- `storage_file_open` once `file_open` found or created the file: truncate
if asked, then commit if asked; on a failure `file_close` and
`free_file_handle`. -/
def storageFileOpenFound (s : Session) (flags reqFlags : UInt32) (handle : Nat) (file : FileHandle) :
    Option (Session × StorageErr) :=
  let s := s.setFile handle file
  let truncated :=
    if reqFlags &&& storageFileOpenTruncate != 0 && file.size != 0 then s.fileSetSize handle 0
    else some s
  truncated.bind fun s =>
    if s.tr.failed then some (s.freeFileHandle handle, .generic)
    else if transactComplete flags then
      s.transactionComplete.map fun s =>
        if s.tr.failed then (s.freeFileHandle handle, .generic) else (s, .noError)
    else some (s, .noError)

/-- `storage_file_open`. -/
def storageFileOpen (s : Session) (flags reqFlags : UInt32) (name : List UInt8) :
    Option (Session × StorageErr) :=
  if reqFlags &&& ~~~storageFileOpenMask != 0 then some (s, .notValid)
  else if (requestPath s.uuid name).isNone then some (s, .notValid)
  else
    match s.createFileHandle with
    | none => some (s, .notValid)
    | some (s, handle) =>
      match s.fileOpen (fileCreateMode reqFlags) with
      | some (s, some file) => s.storageFileOpenFound flags reqFlags handle file
      | some (s, none) =>
        let err :=
          if s.tr.failed then StorageErr.generic
          else if reqFlags &&& storageFileOpenCreate != 0 then .exist
          else .notFound
        some (s.freeFileHandle handle, err)
      | none => none

/-- `storage_file_close`. -/
def storageFileClose (s : Session) (flags : UInt32) (handle : Nat) : Option (Session × StorageErr) :=
  if (s.getFileHandle handle).isNone then some (s, .notValid)
  else (s.freeFileHandle handle).completeIfAsked flags

/-- `storage_file_read`. -/
def storageFileRead (s : Session) (handle size offset : Nat) : Option (Session × StorageErr) :=
  match s.getFileHandle handle with
  | none => some (s, .notValid)
  | some file =>
    if size > storageMaxBufferSize - storageMsgSize then some (s, .notValid)
    else if offset > file.size then some (s, .notValid)
    else
      let bytesLeft := if offset + size > file.size then file.size - offset else size
      (readBlocks handle bytesLeft offset bytesLeft s).map fun r =>
        (r.1, if r.2 then .noError else .generic)

/-- `storage_file_write` once the block loop ended at `offset`: grow the
file if it got longer, then commit if asked. -/
def storageFileWriteEnd (s : Session) (flags : UInt32) (handle offset : Nat) :
    Option (Session × StorageErr) :=
  let resized := if offset > s.fileSize handle then s.fileSetSize handle offset else some s
  resized.bind fun s => if s.tr.failed then some (s, .generic) else s.completeIfAsked flags

/-- `storage_file_write`. -/
def storageFileWrite (s : Session) (flags : UInt32) (offset handle len : Nat) :
    Option (Session × StorageErr) :=
  if len = 0 then some (s, .notValid)
  else
    match s.getFileHandle handle with
    | none => some (s, .notValid)
    | some file =>
      if offset > file.size then some (s, .notValid)
      else
        match writeBlocks handle len offset len s with
        | some (s, some offset) => s.storageFileWriteEnd flags handle offset
        | some (s, none) =>
          if s.tr.failed then some (s, .generic) else s.transactionFail.map (·, .generic)
        | none => none

/-- `storage_file_get_size`. -/
def storageFileGetSize (s : Session) (handle : Nat) : Option (Session × StorageErr) :=
  if (s.getFileHandle handle).isNone then some (s, .notValid)
  else (s.fileGetSize handle).map fun r => (r.1, if r.2.isSome then .noError else .notValid)

/-- `storage_file_set_size`. -/
def storageFileSetSize (s : Session) (flags : UInt32) (size handle : Nat) :
    Option (Session × StorageErr) :=
  match s.getFileHandle handle with
  | none => some (s, .notValid)
  | some file =>
    if size > file.size then some (s, .notValid)
    else
      let resized := if size ≠ file.size then s.fileSetSize handle size else some s
      let completed :=
        resized.bind fun s => if transactComplete flags then s.transactionComplete else some s
      completed.map fun s => (s, if s.tr.failed then .generic else .noError)

/-- `client_handle_msg`'s switch. -/
def storageDispatch (s : Session) (flags : UInt32) : Body → Option (Session × StorageErr)
  | .fileDelete reqFlags name => s.storageFileDelete flags reqFlags name
  | .fileOpen reqFlags name => s.storageFileOpen flags reqFlags name
  | .fileClose handle => s.storageFileClose flags handle
  | .fileWrite offset handle len => s.storageFileWrite flags offset handle len
  | .fileRead handle size offset => s.storageFileRead handle size offset
  | .fileGetSize handle => s.storageFileGetSize handle
  | .fileSetSize size handle => s.storageFileSetSize flags size handle
  | .badSize _ => some (s, .notValid)
  | .endTransaction | .unsupported => some (s, .unimplemented)

/-- `client_handle_msg` on a request: the answer it sends. -/
def clientHandleMsg (s : Session) (flags : UInt32) (body : Body) : Option (Session × StorageErr) :=
  if body = .endTransaction then
    if transactComplete flags then
      let completed := if s.tr.active then s.transactionComplete else some s
      completed.map fun s => if s.tr.failed then (s.clearFailed, .transact) else (s, .noError)
    else
      let failed := if s.tr.active then s.transactionFail else some s
      failed.map fun s => (s.clearFailed, .noError)
  else if s.tr.failed then
    some (if transactComplete flags then s.clearFailed else s, .transact)
  else
    let activated := if s.tr.active then some s else s.transactionActivate
    activated.bind fun s => s.storageDispatch flags body

/-- `client_disconnect`: discard a partial transaction, close every file,
`transaction_free`. -/
def clientDisconnect (s : Session) : Option Session :=
  let failed := if s.tr.active && !s.tr.failed then s.transactionFail else some s
  failed.bind fun s =>
    if s.tr.active then none else some { s with files := [], connected := false }

end Session

/-- What happens on a session: a message arrives with the file layer's
answers for it, another session's commit fails the transaction, another
session commits a new `size` of the file open at `handle`, or the channel is
closed. -/
inductive Action
  | msg (m : Msg) (disk : List FsAnswer)
  | conflict
  | otherCommit (handle size : Nat)
  | disconnect
  deriving DecidableEq, Repr

namespace Session

/-- `file_apply_to_commit` on this session's handle for another
transaction's commit: a file the transaction used fails it; the handle then
shows the committed file. -/
def otherCommit (s : Session) (handle size : Nat) : Option Session :=
  match s.getFileHandle handle with
  | none => none
  | some f =>
    let failed := if f.usedByTr then s.transactionFail else some s
    failed.map fun s => s.modifyFile handle fun f => { f with size, committedSize := size }

/-- One step of a session, and the answers it sends.  A message shorter
than `struct storage_msg` is answered `STORAGE_ERR_NOT_VALID`, and the error
`client_handle_msg` returns makes the IPC loop disconnect the channel. -/
def step (s : Session) : Action → Option (Session × List StorageErr)
  | .msg .short _ =>
    if s.connected then s.clientDisconnect.map (·, [.notValid]) else none
  | .msg (.req flags body) disk =>
    if s.connected then
      ({ s with disk }.clientHandleMsg flags body).map fun (r : Session × StorageErr) => (r.1, [r.2])
    else none
  | .conflict => if s.connected && s.tr.active then s.transactionFail.map (·, []) else none
  | .otherCommit handle size => if s.connected then (s.otherCommit handle size).map (·, []) else none
  | .disconnect => if s.connected then s.clientDisconnect.map (·, []) else none

end Session

end ClientTipc
