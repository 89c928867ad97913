import Trusty.Storage.SessionSpec

/-!
# `storage.c`: `storage_write` over a storage session

The client library writes `size` bytes in chunks of at most
`MAX_CHUNK_SIZE`, one `STORAGE_FILE_WRITE` request each, and only the last
chunk carries the caller's `STORAGE_OP_COMPLETE` as
`STORAGE_MSG_FLAG_TRANSACT_COMPLETE`.  It returns at the first chunk whose
`_write_req` fails, whether the server answered with an error or the IPC
calls of `send_reqv` failed.

`System` is the client and its session together.  The client's loop is a
state (`Client.writing`), and each chunk is one step, with what the IPC did
with it (`Ipc`): delivered and answered, lost before the server got it, or
handled by the server with the answer lost.  Between chunks the rest of the
system may act on the session (`SysAction.conflict`, `.otherCommit`).
-/

namespace StorageClient

open ClientTipc ClientTipc.Session

/-! ## The library -/

/-- `MAX_CHUNK_SIZE`. -/
def maxChunkSize : Nat := 4040

/-- `STORAGE_OP_COMPLETE`. -/
def storageOpComplete : UInt32 := 1

/-- `_to_msg_flags`. -/
def toMsgFlags (opflags : UInt32) : UInt32 :=
  if opflags &&& storageOpComplete != 0 then storageMsgFlagTransactComplete else 0

/-- `ERR_GENERIC`. -/
def errGeneric : Int := -1

/-- `ERR_NOT_FOUND`. -/
def errNotFound : Int := -2

/-- `ERR_NOT_VALID`. -/
def errNotValid : Int := -7

/-- `ERR_ALREADY_EXISTS`. -/
def errAlreadyExists : Int := -14

/-- `ERR_IO`. -/
def errIo : Int := -20

/-- `ERR_NOT_IMPLEMENTED`. -/
def errNotImplemented : Int := -27

/-- `ERR_BUSY`. -/
def errBusy : Int := -33

/-- `ERR_FAULT`. -/
def errFault : Int := -40

/-- `ERR_ACCESS_DENIED`. -/
def errAccessDenied : Int := -43

/-- `check_response` on a whole response without payload: the length of the
payload, 0, or the server's result as an lk error. -/
def checkResponse : StorageErr → Int
  | .noError => 0
  | .notFound => errNotFound
  | .exist => errAlreadyExists
  | .notValid => errNotValid
  | .transact => errBusy
  | .access => errAccessDenied
  | .unimplemented => errNotImplemented
  | .generic => errGeneric

/-- `_write_req`'s result: the error, or the size of the chunk. -/
def writeReq (size : Nat) (rc : Int) : Int := if rc < 0 then rc else size

/-- The variables of `storage_write`'s loop: the file handle, `off`, the
bytes left `size`, `bytes_written`, and the caller's `opflags`. -/
structure WriteLoop where
  handle : Nat
  off : Nat
  size : Nat
  written : Nat
  opflags : UInt32
  deriving DecidableEq, Repr

/-- The next chunk and its message flags: the rest, with the caller's flags,
once it fits in `MAX_CHUNK_SIZE`; otherwise `MAX_CHUNK_SIZE` bytes without
`STORAGE_OP_COMPLETE`. -/
def WriteLoop.chunk (w : WriteLoop) : Nat × UInt32 :=
  if maxChunkSize ≥ w.size then (w.size, toMsgFlags w.opflags)
  else (maxChunkSize, toMsgFlags (w.opflags &&& ~~~storageOpComplete))

/-- The request `_write_req` sends for the next chunk. -/
def WriteLoop.request (w : WriteLoop) : Msg :=
  .req w.chunk.2 (.fileWrite w.off w.handle w.chunk.1)

/-- The client program: between library calls, in `storage_write`'s loop,
or back from `storage_write` with its result. -/
inductive Client
  | idle
  | writing (w : WriteLoop)
  | returned (rc : Int)
  deriving DecidableEq, Repr

/-- The loop once `_write_req` returned `rc`. -/
def WriteLoop.next (w : WriteLoop) (rc : Int) : Client :=
  if rc < 0 then .returned rc
  else if rc ≠ w.chunk.1 then .returned errIo
  else
    let w' := { w with off := w.off + w.chunk.1, size := w.size - w.chunk.1,
                       written := w.written + w.chunk.1 }
    if w'.size = 0 then .returned w'.written else .writing w'

/-- `storage_write(fh, off, buf, size, opflags)` entering its loop. -/
def storageWrite (handle off size : Nat) (opflags : UInt32) : Client :=
  if size = 0 then .returned 0 else .writing ⟨handle, off, size, 0, opflags⟩

/-! ## The client and its session -/

/-- What `send_reqv` did with a request: delivered it and read the response,
failed with `rc` before the server got it (`send_msg`, `wait_to_send`), or
failed with `rc` after the server handled it (`wait`, `get_msg` or
`read_msg` of the response). -/
inductive Ipc
  | ok
  | sendFailed (rc : Int)
  | recvFailed (rc : Int)
  deriving DecidableEq, Repr

/-- A client and its storage session. -/
structure System where
  session : Session
  client : Client

/-- What happens: the client calls `storage_write`; its loop sends the next
chunk; the client makes a call of one other request (as
`storage_end_transaction` does); or the rest of the system acts on the
session. -/
inductive SysAction
  | write (handle off size : Nat) (opflags : UInt32)
  | chunk (ipc : Ipc) (disk : List FsAnswer)
  | request (m : Msg) (disk : List FsAnswer)
  | conflict
  | otherCommit (handle size : Nat)
  deriving DecidableEq, Repr

/-- The server handling one message, and its answer. -/
def serve (s : Session) (m : Msg) (disk : List FsAnswer) : Option (Session × StorageErr) :=
  (s.step (.msg m disk)).bind fun r =>
    match r.2 with
    | [e] => some (r.1, e)
    | _ => none

/-- One step of the client and its session, and the requests the server
handled with its answers. -/
def System.step (t : System) : SysAction → Option (System × List (Msg × StorageErr))
  | .write handle off size opflags =>
    match t.client with
    | .writing _ => none
    | _ => some ({ t with client := storageWrite handle off size opflags }, [])
  | .chunk ipc disk =>
    match t.client, ipc with
    | .writing w, .ok =>
      (serve t.session w.request disk).map fun r =>
        (⟨r.1, w.next (writeReq w.chunk.1 (checkResponse r.2))⟩, [(w.request, r.2)])
    | .writing w, .sendFailed rc => if rc < 0 then some ({ t with client := w.next rc }, []) else none
    | .writing w, .recvFailed rc =>
      if rc < 0 then (serve t.session w.request disk).map fun r => (⟨r.1, w.next rc⟩, [(w.request, r.2)])
      else none
    | _, _ => none
  | .request m disk =>
    match t.client with
    | .writing _ => none
    | _ => (serve t.session m disk).map fun r => ({ t with session := r.1 }, [(m, r.2)])
  | .conflict => (t.session.step .conflict).map fun r => ({ t with session := r.1 }, [])
  | .otherCommit handle size =>
    (t.session.step (.otherCommit handle size)).map fun r => ({ t with session := r.1 }, [])

end StorageClient
