import Trusty.Storage.Session

/-!
# `client_tipc.c`: the file handle table of a session

`session->files` holds `files_count` pointers to `struct file_handle`, `NULL`
in a free slot.  Each open file is also on the transaction's `open_files`
list: `file_open` adds it at the head, `file_close` removes it, and
`file_block_map_update` moves a file it writes back to the head.  The table
grows by one slot in `create_file_handle` when no slot is free and shrinks
past its last used slot in `free_file_handle`; each `realloc`, and the
`calloc` of a new handle, may fail.

`Session` (`Session.lean`) keeps the table as the handles' contents, and its
allocations do not fail.  Here each slot holds the address of its handle
(`none` for `NULL`), `open_files` is the list of addresses, and every
allocation may fail.  A request's dealings with the allocator and the file
layer are given with it: whether each `realloc` and the `calloc` succeed
(`Alloc`), what `file_open` and the truncate and commit after it did
(`OpenResult`), whether a handle's file was written.  A new handle gets a
fresh address.

* `Table.Ok`: at most `STORAGE_MAX_OPEN_FILES` slots, no handle in two slots,
  and the handles in the table are exactly the files on `open_files`; every
  request keeps it (`Table.Ok.step`), so it holds after every run from a new
  session (`Table.Ok.of_run`).
* `storageFileOpen_cases`: a successful open puts a new handle in the lowest
  free slot; a failed one leaves every slot and `open_files` as they were
  (`Opened`, `Same`).
* `session_file_table`: after every run from a new session, `Table.Ok`
  holds, an open answers as `storageFileOpen_cases` says, and a request naming
  a handle past `files_count` or a free slot fails and changes nothing.
* `Session.createFileHandle_refines`, `Session.freeFileHandle_refines`: with
  every allocation succeeding, `create_file_handle` and `free_file_handle` of
  `Session` leave the same slots used as this table's (`occupied`), and the
  first fails where this one answers `STORAGE_ERR_NOT_VALID`.
-/

namespace ClientTipc

/-- The index the loop of `create_file_handle` stops at: the first free slot,
or `files_count` when there is none. -/
def firstFree {α : Type} (files : List (Option α)) : Nat :=
  (files.findIdx? Option.isNone).getD files.length

/-- The loop of `session_shrink_files`, from `handle` down: the count of slots
up to the last used one below `handle`. -/
def shrinkIndex {α : Type} (files : List (Option α)) : Nat → Nat
  | 0 => 0
  | handle + 1 => if (files[handle]?.join).isNone then shrinkIndex files handle else handle + 1

/-- `realloc` of the table to `count` slots, the new ones cleared. -/
def resize {α : Type} (files : List (Option α)) (count : Nat) : List (Option α) :=
  files.take count ++ List.replicate (count - files.length) none

/-- `session->files` and `session->tr.open_files` by address, and the next
address `calloc` hands out. -/
structure Table where
  files : List (Option Nat)
  openFiles : List Nat
  next : Nat
  deriving DecidableEq, Repr

namespace Table

/-- The table of a new session: no slots, no open file. -/
def init : Table := ⟨[], [], 0⟩

/-- `get_file_handle`: the handle at `handle`; `NULL` past `files_count` and
at a free slot. -/
def getFileHandle (t : Table) (handle : Nat) : Option Nat := t.files[handle]?.join

/-- `session_set_files_count`: the table resized to `filesCount` slots;
`STORAGE_ERR_NOT_VALID` above `STORAGE_MAX_OPEN_FILES`, `STORAGE_ERR_GENERIC`
when the `realloc` fails (`ok = false`). -/
def sessionSetFilesCount (t : Table) (filesCount : Nat) (ok : Bool) : Except StorageErr Table :=
  if filesCount > storageMaxOpenFiles then .error .notValid
  else if !ok then .error .generic
  else .ok { t with files := resize t.files filesCount }

/-- `session_shrink_files`: the slots after the last used one dropped, unless
the `realloc` fails. -/
def sessionShrinkFiles (t : Table) (ok : Bool) : Table :=
  let handle := shrinkIndex t.files t.files.length
  if handle < t.files.length then
    match t.sessionSetFilesCount handle ok with
    | .ok t' => t'
    | .error _ => t
  else t

/-- `create_file_handle`: the index and address of a new handle; on an error
the table as `session_set_files_count` left it, one slot longer when only the
`calloc` failed. -/
def createFileHandle (t : Table) (grow calloc : Bool) : Table × Except StorageErr (Nat × Nat) :=
  let handle := firstFree t.files
  let grown := if handle ≥ t.files.length then t.sessionSetFilesCount (handle + 1) grow else .ok t
  match grown with
  | .error e => (t, .error e)
  | .ok t =>
    if calloc then ({ t with files := t.files.set handle (some t.next), next := t.next + 1 },
      .ok (handle, t.next))
    else (t, .error .generic)

/-- `free_file_handle`: the slot cleared and the table shrunk; an invalid or
closed handle is only logged. -/
def freeFileHandle (t : Table) (handle : Nat) (shrink : Bool) : Table :=
  if (t.getFileHandle handle).isNone then t
  else { t with files := t.files.set handle none }.sessionShrinkFiles shrink

/-- `file_open` succeeding: the file added at the head of `open_files`. -/
def fileOpen (t : Table) (file : Nat) : Table := { t with openFiles := file :: t.openFiles }

/-- `file_close`: the file taken off `open_files`. -/
def fileClose (t : Table) (file : Nat) : Table := { t with openFiles := t.openFiles.erase file }

/-- `file_block_map_update`: the file moved to the head of `open_files`. -/
def moveToHead (t : Table) (file : Nat) : Table :=
  { t with openFiles := file :: t.openFiles.erase file }

end Table

/-- What the allocator answers in a request: whether the `realloc` growing the
table, the `calloc` of a handle and the `realloc` shrinking the table succeed. -/
structure Alloc where
  grow : Bool
  calloc : Bool
  shrink : Bool
  deriving DecidableEq, Repr

/-- What `storage_file_open` learns from the file layer: `file_open` opened
nothing (not found, already there, already open; `trFailed` when the
transaction failed), or it opened the file, and then the truncate or the
commit failed the transaction or not. -/
inductive OpenResult
  | notOpened (trFailed : Bool)
  | opened (failedAfter : Bool)
  deriving DecidableEq, Repr

/-- A request as the table sees it.  `fileUse` is a read, write, get-size or
set-size request that reached `get_file_handle`, with whether its file was
written and the code its handler answers for an open handle; `other` is a
delete, an end of transaction or a request refused before its handler. -/
inductive TableReq
  | fileOpen (flags : UInt32) (name : List UInt8) (alloc : Alloc) (res : OpenResult)
  | fileClose (handle : UInt32) (shrink commitFailed : Bool)
  | fileUse (handle : UInt32) (written : Bool) (err : StorageErr)
  | other
  deriving DecidableEq, Repr

namespace Table

/-- `storage_file_open`: the code and, on success, the handle it answers. -/
def storageFileOpen (t : Table) (uuid : Uuid) (flags : UInt32) (name : List UInt8) (alloc : Alloc)
    (res : OpenResult) : Table × StorageErr × Option Nat :=
  if flags &&& ~~~storageFileOpenMask != 0 then (t, .notValid, none)
  else if (requestPath uuid name).isNone then (t, .notValid, none)
  else
    match t.createFileHandle alloc.grow alloc.calloc with
    | (t, .error e) => (t, e, none)
    | (t, .ok (handle, file)) =>
      match res with
      | .notOpened trFailed =>
        (t.freeFileHandle handle alloc.shrink,
          if trFailed then .generic
          else if flags &&& storageFileOpenCreate != 0 then .exist else .notFound, none)
      | .opened failedAfter =>
        if failedAfter then (((t.fileOpen file).fileClose file).freeFileHandle handle alloc.shrink,
          .generic, none)
        else (t.fileOpen file, .noError, some handle)

/-- `storage_file_close`: `STORAGE_ERR_GENERIC` when the commit it was asked
for fails. -/
def storageFileClose (t : Table) (handle : Nat) (shrink commitFailed : Bool) :
    Table × StorageErr × Option Nat :=
  match t.getFileHandle handle with
  | none => (t, .notValid, none)
  | some file =>
    ((t.fileClose file).freeFileHandle handle shrink, if commitFailed then .generic else .noError,
      none)

/-- The handle lookup of `storage_file_read`, `_write`, `_get_size` and
`_set_size`. -/
def storageFileUse (t : Table) (handle : Nat) (written : Bool) (err : StorageErr) :
    Table × StorageErr × Option Nat :=
  match t.getFileHandle handle with
  | none => (t, .notValid, none)
  | some file => (if written then t.moveToHead file else t, err, none)

/-- One request on the table, and its answer. -/
def step (uuid : Uuid) (t : Table) : TableReq → Option (Table × List (StorageErr × Option Nat))
  | .fileOpen flags name alloc res =>
    let r := t.storageFileOpen uuid flags name alloc res
    some (r.1, [r.2])
  | .fileClose handle shrink commitFailed =>
    let r := t.storageFileClose handle.toNat shrink commitFailed
    some (r.1, [r.2])
  | .fileUse handle written err =>
    let r := t.storageFileUse handle.toNat written err
    some (r.1, [r.2])
  | .other => some (t, [])

end Table

/-! ## Slots -/

section Slots

variable {α : Type}

/-- The slot `create_file_handle` stops at is free, and every slot before it
is used. -/
theorem firstFree_free (files : List (Option α)) : files[firstFree files]?.join = none := by
  unfold firstFree
  cases h : files.findIdx? Option.isNone with
  | none => simp
  | some i =>
    obtain ⟨hi, hp, -⟩ := List.findIdx?_eq_some_iff_getElem.mp h
    simp only [Option.getD_some, List.getElem?_eq_getElem hi, Option.join_some]
    simpa using hp

theorem used_of_lt_firstFree (files : List (Option α)) {h : Nat} (hlt : h < firstFree files) :
    (files[h]?.join).isSome := by
  unfold firstFree at hlt
  cases hf : files.findIdx? Option.isNone with
  | none =>
    rw [hf, Option.getD_none] at hlt
    have := List.findIdx?_eq_none_iff.mp hf (files[h]) (List.getElem_mem hlt)
    simp only [List.getElem?_eq_getElem hlt, Option.join_some]
    simpa using this
  | some i =>
    rw [hf, Option.getD_some] at hlt
    obtain ⟨hi, -, hbefore⟩ := List.findIdx?_eq_some_iff_getElem.mp hf
    have := hbefore h hlt
    simp only [List.getElem?_eq_getElem (by omega : h < files.length), Option.join_some]
    simpa [Option.isSome_iff_ne_none] using this

/-- The slots the loop of `session_shrink_files` passes over are free. -/
theorem free_of_shrinkIndex_le (files : List (Option α)) (handle : Nat) {j : Nat}
    (hj : shrinkIndex files handle ≤ j) (hjh : j < handle) : files[j]?.join = none := by
  induction handle with
  | zero => omega
  | succ handle ih =>
    simp only [shrinkIndex] at hj
    split_ifs at hj with hfree
    · rcases Nat.lt_or_ge j handle with hlt | hge
      · exact ih hj hlt
      · obtain rfl : j = handle := by omega
        simpa using hfree
    · omega

theorem length_resize (files : List (Option α)) (count : Nat) : (resize files count).length = count := by
  simp only [resize, List.length_append, List.length_take, List.length_replicate]; omega

/-- Resizing past the last used slot keeps every slot's contents. -/
theorem resize_getElem_join {files : List (Option α)} {count : Nat}
    (hfree : ∀ j, count ≤ j → files[j]?.join = none) (h : Nat) :
    (resize files count)[h]?.join = files[h]?.join := by
  rcases Nat.lt_or_ge h count with hlt | hge
  · by_cases hl : h < files.length
    · rw [resize, List.getElem?_append_left (by simp; omega), List.getElem?_take, if_pos hlt]
    · -- a slot the `realloc` added: cleared, as past the end before
      rw [resize, List.getElem?_append_right (by simp; omega), List.getElem?_replicate,
        if_pos (by simp; omega), List.getElem?_eq_none (by omega)]
      rfl
  · rw [hfree h hge, List.getElem?_eq_none (by rw [length_resize]; omega)]
    rfl

/-- One slot set, every other slot's contents kept. -/
theorem set_getElem_join (files : List (Option α)) (i : Nat) (v : Option α) (h : Nat) :
    (files.set i v)[h]?.join = if h = i ∧ i < files.length then v else files[h]?.join := by
  rw [List.getElem?_set]
  split_ifs with h1 h2 h3 <;> first | rfl | simp_all

theorem firstFree_le_length (files : List (Option α)) : firstFree files ≤ files.length := by
  unfold firstFree
  cases h : files.findIdx? Option.isNone with
  | none => exact le_refl _
  | some i => exact (List.findIdx?_eq_some_iff_getElem.mp h).1.le

theorem shrinkIndex_le (files : List (Option α)) (n : Nat) : shrinkIndex files n ≤ n := by
  induction n with
  | zero => exact le_refl 0
  | succ n ih =>
    simp only [shrinkIndex]
    split_ifs <;> omega

/-- The loop of `session_shrink_files` keeps the slots up to the last used
one: it drops the free slots at the end. -/
theorem rdropWhile_take (files : List (Option α)) {n : Nat} (hn : n ≤ files.length) :
    (files.take n).rdropWhile Option.isNone = files.take (shrinkIndex files n) := by
  induction n with
  | zero => simp [shrinkIndex]
  | succ n ih =>
    have hlt : n < files.length := by omega
    rw [List.take_add_one, List.getElem?_eq_getElem hlt, Option.toList_some, shrinkIndex,
      List.getElem?_eq_getElem hlt, Option.join_some]
    by_cases hnone : files[n].isNone = true
    · rw [List.rdropWhile_concat_pos _ _ _ hnone, if_pos hnone, ih (by omega)]
    · rw [List.rdropWhile_concat_neg _ _ _ hnone, if_neg hnone, List.take_add_one,
        List.getElem?_eq_getElem hlt, Option.toList_some]

theorem take_shrinkIndex (files : List (Option α)) :
    files.take (shrinkIndex files files.length) = (files.reverse.dropWhile Option.isNone).reverse := by
  have h := rdropWhile_take files (le_refl _)
  rw [List.take_length] at h
  exact h.symm

/-! ### Which slots are used -/

/-- Which slots of the table are used: what `Session`, which keeps the
handles' contents, and `Table`, which keeps their addresses, share. -/
def occupied (files : List (Option α)) : List Bool := files.map Option.isSome

theorem length_occupied (files : List (Option α)) : (occupied files).length = files.length :=
  List.length_map _

theorem occupied_set (files : List (Option α)) (i : Nat) (v : Option α) :
    occupied (files.set i v) = (occupied files).set i v.isSome :=
  List.map_set

theorem occupied_append (files files' : List (Option α)) :
    occupied (files ++ files') = occupied files ++ occupied files' :=
  List.map_append

theorem isNone_getElem_join (files : List (Option α)) (k : Nat) :
    (files[k]?.join).isNone = !((occupied files)[k]?.getD false) := by
  cases h : files[k]? with
  | none => simp [occupied, h]
  | some x => cases x <;> simp [occupied, h]

/-- The search for a free slot reads only which slots are used. -/
theorem findIdx_isNone_eq (files : List (Option α)) :
    files.findIdx? Option.isNone = (occupied files).findIdx? (!·) := by
  simp only [occupied, List.findIdx?_map]
  congr 1
  funext x
  cases x <;> rfl

section Congr

variable {β : Type} {a : List (Option α)} {b : List (Option β)}

/-- The slot `create_file_handle` picks depends only on which slots are used. -/
theorem firstFree_congr (h : occupied a = occupied b) : firstFree a = firstFree b := by
  rw [firstFree, firstFree, findIdx_isNone_eq, findIdx_isNone_eq, h, ← length_occupied a,
    ← length_occupied b, h]

theorem shrinkIndex_congr (h : occupied a = occupied b) (n : Nat) :
    shrinkIndex a n = shrinkIndex b n := by
  induction n with
  | zero => rfl
  | succ n ih => simp only [shrinkIndex, isNone_getElem_join, h, ih]

/-- Dropping the free slots at the end keeps two tables with the same used
slots alike. -/
theorem occupied_rdrop (h : occupied a = occupied b) :
    occupied (a.reverse.dropWhile Option.isNone).reverse =
      occupied (b.reverse.dropWhile Option.isNone).reverse := by
  rw [← take_shrinkIndex, ← take_shrinkIndex, shrinkIndex_congr h, occupied, occupied,
    List.map_take, List.map_take, ← occupied, ← occupied, h, ← length_occupied a,
    ← length_occupied b, h]

end Congr

end Slots

namespace Table

/-! ## What the helpers do -/

@[simp] theorem getFileHandle_fileOpen (t : Table) (file h : Nat) :
    (t.fileOpen file).getFileHandle h = t.getFileHandle h := rfl

@[simp] theorem getFileHandle_fileClose (t : Table) (file h : Nat) :
    (t.fileClose file).getFileHandle h = t.getFileHandle h := rfl

@[simp] theorem fileOpen_openFiles (t : Table) (file : Nat) :
    (t.fileOpen file).openFiles = file :: t.openFiles := rfl

@[simp] theorem fileClose_openFiles (t : Table) (file : Nat) :
    (t.fileClose file).openFiles = t.openFiles.erase file := rfl

@[simp] theorem fileOpen_files (t : Table) (file : Nat) : (t.fileOpen file).files = t.files := rfl

@[simp] theorem fileClose_files (t : Table) (file : Nat) : (t.fileClose file).files = t.files := rfl

@[simp] theorem fileOpen_next (t : Table) (file : Nat) : (t.fileOpen file).next = t.next := rfl

@[simp] theorem fileClose_next (t : Table) (file : Nat) : (t.fileClose file).next = t.next := rfl

/-- Past `files_count`, `get_file_handle` finds nothing. -/
theorem getFileHandle_of_le {t : Table} {h : Nat} (hh : t.files.length ≤ h) :
    t.getFileHandle h = none := by
  rw [getFileHandle, List.getElem?_eq_none hh]; rfl

theorem sessionSetFilesCount_eq {t t' : Table} {n : Nat} {ok : Bool}
    (h : t.sessionSetFilesCount n ok = .ok t') :
    n ≤ storageMaxOpenFiles ∧ t' = { t with files := resize t.files n } := by
  unfold sessionSetFilesCount at h
  split_ifs at h with h1 h2
  cases h
  exact ⟨by omega, rfl⟩

/-- `session_shrink_files` keeps every slot's handle and `open_files`, and
does not grow the table. -/
theorem sessionShrinkFiles_spec (t : Table) (ok : Bool) :
    (∀ h, (t.sessionShrinkFiles ok).getFileHandle h = t.getFileHandle h) ∧
      (t.sessionShrinkFiles ok).openFiles = t.openFiles ∧ (t.sessionShrinkFiles ok).next = t.next ∧
      (t.sessionShrinkFiles ok).files.length ≤ t.files.length := by
  unfold sessionShrinkFiles
  dsimp only
  split_ifs with hlt
  · cases hs : t.sessionSetFilesCount (shrinkIndex t.files t.files.length) ok with
    | error e => exact ⟨fun _ => rfl, rfl, rfl, le_refl _⟩
    | ok t' =>
      obtain ⟨-, rfl⟩ := sessionSetFilesCount_eq hs
      -- the slots dropped are those the loop passed over
      have hfree : ∀ j, shrinkIndex t.files t.files.length ≤ j → t.files[j]?.join = none := by
        intro j hj
        rcases Nat.lt_or_ge j t.files.length with hjl | hjl
        · exact free_of_shrinkIndex_le t.files t.files.length hj hjl
        · rw [List.getElem?_eq_none hjl]; rfl
      exact ⟨fun h => resize_getElem_join hfree h, rfl, rfl, by simp only [length_resize]; omega⟩
  · exact ⟨fun _ => rfl, rfl, rfl, le_refl _⟩

/-- The table `create_file_handle` puts the handle in: one slot longer when no
slot is free, every slot's handle as before. -/
theorem createFileHandle_grown {t t₁ : Table} {grow : Bool}
    (h : (if firstFree t.files ≥ t.files.length then
      t.sessionSetFilesCount (firstFree t.files + 1) grow else .ok t) = .ok t₁) :
    (∀ h', t₁.getFileHandle h' = t.getFileHandle h') ∧ t₁.openFiles = t.openFiles ∧
      t₁.next = t.next ∧ firstFree t.files < t₁.files.length ∧
      (t.files.length ≤ storageMaxOpenFiles → t₁.files.length ≤ storageMaxOpenFiles) := by
  split_ifs at h with hfull
  · obtain ⟨hmax, rfl⟩ := sessionSetFilesCount_eq h
    have hfree : ∀ j, firstFree t.files + 1 ≤ j → t.files[j]?.join = none := by
      intro j hj
      rw [List.getElem?_eq_none (by omega)]; rfl
    exact ⟨fun h' => resize_getElem_join hfree h', rfl, rfl,
      by simp only [length_resize]; omega, fun _ => by simp only [length_resize]; omega⟩
  · cases h
    exact ⟨fun _ => rfl, rfl, rfl, by omega, id⟩

/-- `create_file_handle` succeeding: a fresh handle in the first free slot,
every other slot as it was. -/
theorem createFileHandle_ok {t t' : Table} {grow calloc : Bool} {handle file : Nat}
    (h : t.createFileHandle grow calloc = (t', .ok (handle, file))) :
    handle = firstFree t.files ∧ file = t.next ∧ t'.getFileHandle handle = some file ∧
      (∀ h', h' ≠ handle → t'.getFileHandle h' = t.getFileHandle h') ∧
      t'.openFiles = t.openFiles ∧ t'.next = t.next + 1 ∧
      (t.files.length ≤ storageMaxOpenFiles → t'.files.length ≤ storageMaxOpenFiles) := by
  unfold createFileHandle at h
  dsimp only at h
  split at h
  · cases h
  · rename_i t₁ hgrown
    obtain ⟨hget, hopen, hnext, hlt, hmax⟩ := createFileHandle_grown hgrown
    split_ifs at h
    swap
    · simp at h
    simp only [Prod.mk.injEq, Except.ok.injEq] at h
    obtain ⟨rfl, rfl, rfl⟩ := h
    refine ⟨rfl, hnext, ?_, fun h' hne => ?_, hopen, by simp [hnext], fun hle => ?_⟩
    · simp only [getFileHandle, set_getElem_join, hlt, and_self, if_true]
    · simp only [getFileHandle, set_getElem_join, hne, false_and, if_false]
      exact hget h'
    · simpa using hmax hle

theorem sessionSetFilesCount_error_ne {t : Table} {n : Nat} {ok : Bool} {e : StorageErr}
    (h : t.sessionSetFilesCount n ok = .error e) : e ≠ .noError := by
  unfold sessionSetFilesCount at h
  split_ifs at h <;> cases h <;> decide

/-- `create_file_handle` failing: an error code, every slot's handle and
`open_files` as they were. -/
theorem createFileHandle_error {t t' : Table} {grow calloc : Bool} {e : StorageErr}
    (h : t.createFileHandle grow calloc = (t', .error e)) :
    e ≠ .noError ∧ (∀ h', t'.getFileHandle h' = t.getFileHandle h') ∧ t'.openFiles = t.openFiles ∧
      t'.next = t.next ∧
      (t.files.length ≤ storageMaxOpenFiles → t'.files.length ≤ storageMaxOpenFiles) := by
  unfold createFileHandle at h
  dsimp only at h
  split at h
  · rename_i e' hgrown
    simp only [Prod.mk.injEq, Except.error.injEq] at h
    obtain ⟨rfl, rfl⟩ := h
    refine ⟨?_, fun _ => rfl, rfl, rfl, id⟩
    -- only the `realloc` growing the table fails with a code of its own
    split_ifs at hgrown
    exact sessionSetFilesCount_error_ne hgrown
  · rename_i t₁ hgrown
    obtain ⟨hget, hopen, hnext, -, hmax⟩ := createFileHandle_grown hgrown
    -- only the `calloc` failed: the grown table stays
    split_ifs at h
    · simp at h
    simp only [Prod.mk.injEq, Except.error.injEq] at h
    obtain ⟨rfl, rfl⟩ := h
    exact ⟨by decide, hget, hopen, hnext, hmax⟩

theorem lt_of_getFileHandle {t : Table} {h a : Nat} (hs : t.getFileHandle h = some a) :
    h < t.files.length := by
  by_contra hge
  rw [getFileHandle_of_le (by omega)] at hs
  cases hs

/-- `free_file_handle`: the slot freed, every other slot's handle and
`open_files` as they were; the table does not grow. -/
theorem freeFileHandle_spec (t : Table) (handle : Nat) (shrink : Bool) :
    (∀ h, (t.freeFileHandle handle shrink).getFileHandle h =
        if h = handle then none else t.getFileHandle h) ∧
      (t.freeFileHandle handle shrink).openFiles = t.openFiles ∧
      (t.freeFileHandle handle shrink).next = t.next ∧
      (t.freeFileHandle handle shrink).files.length ≤ t.files.length := by
  unfold freeFileHandle
  split_ifs with hnone
  · -- an invalid or closed handle: the slot is already free
    refine ⟨fun h => ?_, rfl, rfl, le_refl _⟩
    split_ifs with hh
    · subst hh; exact Option.isNone_iff_eq_none.mp hnone
    · rfl
  · obtain ⟨a, ha⟩ := Option.ne_none_iff_exists'.mp (by simpa using hnone)
    have hlt := lt_of_getFileHandle ha
    obtain ⟨hget, hopen, hnext, hlen⟩ :=
      sessionShrinkFiles_spec { t with files := t.files.set handle none } shrink
    refine ⟨fun h => ?_, hopen, hnext, by simpa using hlen⟩
    rw [hget h]
    simp only [getFileHandle, set_getElem_join]
    split_ifs <;> simp_all

theorem getFileHandle_firstFree (t : Table) : t.getFileHandle (firstFree t.files) = none :=
  firstFree_free t.files

theorem isSome_of_lt_firstFree (t : Table) {h : Nat} (hlt : h < firstFree t.files) :
    (t.getFileHandle h).isSome :=
  used_of_lt_firstFree t.files hlt

/-! ## The invariant -/

/-- The table of a session between requests: at most `STORAGE_MAX_OPEN_FILES`
slots, each handle in one slot, the handles in the table exactly the files on
`open_files`, each once, and every handle's address handed out before. -/
structure Ok (t : Table) : Prop where
  count_le : t.files.length ≤ storageMaxOpenFiles
  distinct : ∀ h h' a, t.getFileHandle h = some a → t.getFileHandle h' = some a → h = h'
  open_iff : ∀ a, a ∈ t.openFiles ↔ ∃ h, t.getFileHandle h = some a
  open_nodup : t.openFiles.Nodup
  fresh : ∀ h a, t.getFileHandle h = some a → a < t.next

@[simp] theorem getFileHandle_init (h : Nat) : Table.init.getFileHandle h = none := rfl

theorem Ok.init : Table.init.Ok where
  count_le := Nat.zero_le _
  distinct h _ a hs := by simp at hs
  open_iff a := ⟨fun hm => absurd hm List.not_mem_nil, fun ⟨h, hh⟩ => by simp at hh⟩
  open_nodup := List.nodup_nil
  fresh h a hs := by simp at hs

/-- `t'` has `t`'s handle in every slot and its `open_files`: what a failed
request leaves. -/
structure Same (t t' : Table) : Prop where
  slots : ∀ h, t'.getFileHandle h = t.getFileHandle h
  openFiles : t'.openFiles = t.openFiles
  next_le : t.next ≤ t'.next
  count : t.files.length ≤ storageMaxOpenFiles → t'.files.length ≤ storageMaxOpenFiles

theorem Same.refl (t : Table) : Same t t := ⟨fun _ => rfl, rfl, le_refl _, id⟩

/-- `t'` is `t` with a new handle `file` in the free slot `handle`, added at the
head of `open_files`. -/
structure Opened (t t' : Table) (handle file : Nat) : Prop where
  free : t.getFileHandle handle = none
  slot : t'.getFileHandle handle = some file
  others : ∀ h, h ≠ handle → t'.getFileHandle h = t.getFileHandle h
  openFiles : t'.openFiles = file :: t.openFiles
  fresh : file = t.next
  next : t'.next = t.next + 1
  count : t.files.length ≤ storageMaxOpenFiles → t'.files.length ≤ storageMaxOpenFiles

/-- `t'` is `t` with the handle `file` in slot `handle` closed: the slot freed
and the file off `open_files`. -/
structure Closed (t t' : Table) (handle file : Nat) : Prop where
  slot : t.getFileHandle handle = some file
  freed : t'.getFileHandle handle = none
  others : ∀ h, h ≠ handle → t'.getFileHandle h = t.getFileHandle h
  openFiles : t'.openFiles = t.openFiles.erase file
  next : t'.next = t.next
  count : t'.files.length ≤ t.files.length

theorem Ok.same {t t' : Table} (ht : t.Ok) (hs : Same t t') : t'.Ok where
  count_le := hs.count ht.count_le
  distinct h h' a := by
    rw [hs.slots, hs.slots]
    exact ht.distinct h h' a
  open_iff a := by
    simp only [hs.slots, hs.openFiles]
    exact ht.open_iff a
  open_nodup := hs.openFiles ▸ ht.open_nodup
  fresh h a ha := by
    rw [hs.slots] at ha
    exact lt_of_lt_of_le (ht.fresh h a ha) hs.next_le

/-- A fresh address is in no slot, hence not on `open_files`. -/
theorem Ok.not_open_next {t : Table} (ht : t.Ok) : t.next ∉ t.openFiles := by
  intro hm
  obtain ⟨h, hh⟩ := (ht.open_iff _).mp hm
  exact lt_irrefl _ (ht.fresh h _ hh)

theorem Ok.opened {t t' : Table} {handle file : Nat} (ht : t.Ok) (ho : Opened t t' handle file) :
    t'.Ok where
  count_le := ho.count ht.count_le
  distinct h h' a hh hh' := by
    -- the new handle is in no other slot: its address is fresh
    have hnew : ∀ g, g ≠ handle → t'.getFileHandle g = some a → a ≠ file := by
      intro g hg hs heq
      rw [ho.others g hg, heq, ho.fresh] at hs
      exact lt_irrefl _ (ht.fresh g _ hs)
    by_cases h1 : h = handle <;> by_cases h2 : h' = handle
    · rw [h1, h2]
    · subst h1
      rw [ho.slot] at hh
      exact absurd (Option.some_injective _ hh).symm (hnew h' h2 hh')
    · subst h2
      rw [ho.slot] at hh'
      exact absurd (Option.some_injective _ hh').symm (hnew h h1 hh)
    · rw [ho.others h h1] at hh
      rw [ho.others h' h2] at hh'
      exact ht.distinct h h' a hh hh'
  open_iff a := by
    rw [ho.openFiles, List.mem_cons, ht.open_iff]
    constructor
    · rintro (rfl | ⟨h, hh⟩)
      · exact ⟨handle, ho.slot⟩
      · have hne : h ≠ handle := by
          rintro rfl
          rw [ho.free] at hh
          cases hh
        exact ⟨h, by rw [ho.others h hne, hh]⟩
    · rintro ⟨h, hh⟩
      by_cases hne : h = handle
      · subst hne
        rw [ho.slot] at hh
        exact .inl (Option.some_injective _ hh).symm
      · exact .inr ⟨h, by rw [← ho.others h hne, hh]⟩
  open_nodup := by
    rw [ho.openFiles, ho.fresh]
    exact List.nodup_cons.mpr ⟨ht.not_open_next, ht.open_nodup⟩
  fresh h a hh := by
    rw [ho.next]
    by_cases hne : h = handle
    · subst hne
      rw [ho.slot] at hh
      cases hh
      rw [ho.fresh]
      exact Nat.lt_succ_self _
    · rw [ho.others h hne] at hh
      exact Nat.lt_succ_of_lt (ht.fresh h a hh)

theorem Ok.closed {t t' : Table} {handle file : Nat} (ht : t.Ok) (hc : Closed t t' handle file) :
    t'.Ok where
  count_le := le_trans hc.count ht.count_le
  distinct h h' a hh hh' := by
    have hne : ∀ g, t'.getFileHandle g = some a → g ≠ handle := by
      rintro g hg rfl
      rw [hc.freed] at hg
      cases hg
    rw [hc.others h (hne h hh)] at hh
    rw [hc.others h' (hne h' hh')] at hh'
    exact ht.distinct h h' a hh hh'
  open_iff a := by
    rw [hc.openFiles, ht.open_nodup.mem_erase_iff, ht.open_iff]
    constructor
    · rintro ⟨hne, h, hh⟩
      -- the slot closed held `file`, not `a`
      have hh' : h ≠ handle := by
        rintro rfl
        rw [hc.slot] at hh
        exact hne (Option.some_injective _ hh).symm
      exact ⟨h, by rw [hc.others h hh', hh]⟩
    · rintro ⟨h, hh⟩
      have hh' : h ≠ handle := by
        rintro rfl
        rw [hc.freed] at hh
        cases hh
      rw [hc.others h hh'] at hh
      refine ⟨fun heq => hh' (ht.distinct h handle a hh ?_), h, hh⟩
      rw [hc.slot, heq]
  open_nodup := hc.openFiles ▸ ht.open_nodup.erase file
  fresh h a hh := by
    rw [hc.next]
    by_cases hne : h = handle
    · subst hne
      rw [hc.freed] at hh
      cases hh
    · rw [hc.others h hne] at hh
      exact ht.fresh h a hh

/-- Moving an open file to the head of `open_files` keeps the invariant. -/
theorem Ok.moveToHead {t : Table} {file : Nat} (ht : t.Ok) (hm : file ∈ t.openFiles) :
    (t.moveToHead file).Ok where
  count_le := ht.count_le
  distinct := ht.distinct
  open_iff a := (List.perm_cons_erase hm).symm.mem_iff.trans (ht.open_iff a)
  open_nodup := (List.perm_cons_erase hm).nodup_iff.mp ht.open_nodup
  fresh := ht.fresh

/-! ## Requests -/

/-- Freeing the slot a new handle went into, once `open_files` is back as it
was, gives back every slot of the table before. -/
theorem Same.freeFileHandle {t t₁ : Table} {handle : Nat} (hfree : t.getFileHandle handle = none)
    (hothers : ∀ h, h ≠ handle → t₁.getFileHandle h = t.getFileHandle h)
    (hopen : t₁.openFiles = t.openFiles) (hnext : t.next ≤ t₁.next)
    (hmax : t.files.length ≤ storageMaxOpenFiles → t₁.files.length ≤ storageMaxOpenFiles)
    (shrink : Bool) : Same t (t₁.freeFileHandle handle shrink) := by
  obtain ⟨hget, hopen', hnext', hlen⟩ := freeFileHandle_spec t₁ handle shrink
  refine ⟨fun h => ?_, hopen'.trans hopen, hnext' ▸ hnext, fun hle => le_trans hlen (hmax hle)⟩
  rw [hget]
  split_ifs with hh
  · rw [hh, hfree]
  · exact hothers h hh

/-- `storage_file_open` answers `STORAGE_NO_ERROR` with the lowest free slot,
which now holds a new handle, or an error code with every slot and
`open_files` as they were. -/
theorem storageFileOpen_cases (t : Table) (uuid : Uuid) (flags : UInt32) (name : List UInt8)
    (alloc : Alloc) (res : OpenResult) :
    (∃ t', t.storageFileOpen uuid flags name alloc res = (t', .noError, some (firstFree t.files)) ∧
      Opened t t' (firstFree t.files) t.next) ∨
    ∃ t' e, t.storageFileOpen uuid flags name alloc res = (t', e, none) ∧ e ≠ .noError ∧
      Same t t' := by
  unfold storageFileOpen
  -- the flags and the name are checked before anything is allocated
  split
  · exact .inr ⟨t, .notValid, rfl, by decide, Same.refl t⟩
  split
  · exact .inr ⟨t, .notValid, rfl, by decide, Same.refl t⟩
  split
  · rename_i t₁ e hc
    obtain ⟨hne, hget, hopen, hnext, hmax⟩ := createFileHandle_error hc
    exact .inr ⟨t₁, e, rfl, hne, ⟨hget, hopen, hnext.ge, hmax⟩⟩
  rename_i t₁ handle file hc
  obtain ⟨rfl, rfl, hslot, hothers, hopen, hnext, hmax⟩ := createFileHandle_ok hc
  have hfree := getFileHandle_firstFree t
  have hnext' : t.next ≤ t₁.next := by omega
  cases res with
  | notOpened trFailed =>
    -- `file_open` opened nothing: the handle is freed again
    refine .inr ⟨_, _, rfl, ?_, Same.freeFileHandle hfree hothers hopen hnext' hmax _⟩
    split_ifs <;> decide
  | opened failedAfter =>
    cases failedAfter with
    | true =>
      -- the truncate or the commit failed: the file is closed and the handle freed
      refine .inr ⟨_, _, rfl, by decide, Same.freeFileHandle hfree (by simpa using hothers)
        (by simp [hopen]) (by simpa using hnext') (by simpa using hmax) _⟩
    | false =>
      exact .inl ⟨_, rfl, ⟨hfree, hslot, hothers, by simp [hopen], rfl, hnext, hmax⟩⟩

/-- `storage_file_close`, `_read`, `_write`, `_get_size` and `_set_size` of a
handle past `files_count` or of a free slot: `STORAGE_ERR_NOT_VALID`, nothing
changed. -/
theorem storageFileClose_none {t : Table} {handle : Nat} (hg : t.getFileHandle handle = none)
    (shrink commitFailed : Bool) : t.storageFileClose handle shrink commitFailed = (t, .notValid, none) := by
  simp [storageFileClose, hg]

theorem storageFileUse_none {t : Table} {handle : Nat} (hg : t.getFileHandle handle = none)
    (written : Bool) (err : StorageErr) : t.storageFileUse handle written err = (t, .notValid, none) := by
  simp [storageFileUse, hg]

/-- `storage_file_close` of an open handle: the slot freed, the file off
`open_files`. -/
theorem storageFileClose_closed {t : Table} {handle file : Nat} (hg : t.getFileHandle handle = some file)
    (shrink commitFailed : Bool) : Closed t (t.storageFileClose handle shrink commitFailed).1 handle file := by
  obtain ⟨hget, hopen, hnext, hlen⟩ := freeFileHandle_spec (t.fileClose file) handle shrink
  simp only [storageFileClose, hg]
  exact ⟨hg, by rw [hget, if_pos rfl], fun h hh => by rw [hget, if_neg hh]; rfl, hopen, hnext, hlen⟩

/-- Every request keeps the table invariant. -/
theorem Ok.step {t t' : Table} {uuid : Uuid} {req : TableReq} {out : List (StorageErr × Option Nat)}
    (ht : t.Ok) (hs : t.step uuid req = some (t', out)) : t'.Ok := by
  cases req with
  | fileOpen flags name alloc res =>
    simp only [Table.step, Option.some.injEq, Prod.mk.injEq] at hs
    rw [← hs.1]
    rcases storageFileOpen_cases t uuid flags name alloc res with ⟨t₁, hr, ho⟩ | ⟨t₁, e, hr, -, hsame⟩
    · rw [hr]; exact ht.opened ho
    · rw [hr]; exact ht.same hsame
  | fileClose handle shrink commitFailed =>
    simp only [Table.step, Option.some.injEq, Prod.mk.injEq] at hs
    rw [← hs.1]
    cases hg : t.getFileHandle handle.toNat with
    | none => rw [storageFileClose_none hg]; exact ht
    | some file => exact ht.closed (storageFileClose_closed hg shrink commitFailed)
  | fileUse handle written err =>
    simp only [Table.step, Option.some.injEq, Prod.mk.injEq] at hs
    rw [← hs.1]
    cases hg : t.getFileHandle handle.toNat with
    | none => rw [storageFileUse_none hg]; exact ht
    | some file =>
      simp only [storageFileUse, hg]
      split_ifs
      · -- a write moves its file to the head of `open_files`
        exact ht.moveToHead ((ht.open_iff file).mpr ⟨_, hg⟩)
      · exact ht
  | other =>
    simp only [Table.step, Option.some.injEq, Prod.mk.injEq] at hs
    rw [← hs.1]
    exact ht

/-- The invariant holds after every run of requests from a new session. -/
theorem Ok.of_run {uuid : Uuid} {reqs : List TableReq} {out : List (StorageErr × Option Nat)}
    {t : Table} (hrun : LTS.Run (Table.step uuid) Table.init reqs out t) : t.Ok :=
  hrun.induction (P := fun t _ => t.Ok) Ok.init fun ht hs => ht.step hs

/-! ## The table after every run -/

/-- The file table of a session after every run of requests: at most
`STORAGE_MAX_OPEN_FILES` slots, each handle in one slot, the handles exactly
the files on `open_files`; the next open answers the lowest free slot when it
succeeds and changes no slot and not `open_files` when it fails; a close or a
read, write or size request naming a handle past `files_count` or a free slot
fails with `STORAGE_ERR_NOT_VALID` and changes nothing. -/
theorem session_file_table {uuid : Uuid} {reqs : List TableReq} {out : List (StorageErr × Option Nat)}
    {t : Table} (hrun : LTS.Run (Table.step uuid) Table.init reqs out t) :
    t.files.length ≤ storageMaxOpenFiles ∧
    (∀ h h' a, t.getFileHandle h = some a → t.getFileHandle h' = some a → h = h') ∧
    (∀ a, a ∈ t.openFiles ↔ ∃ h, t.getFileHandle h = some a) ∧
    (∀ flags name alloc res t' handle,
      t.storageFileOpen uuid flags name alloc res = (t', .noError, some handle) →
        t.getFileHandle handle = none ∧ (∀ h < handle, (t.getFileHandle h).isSome) ∧
        (∃ a, t'.getFileHandle handle = some a ∧ a ∈ t'.openFiles) ∧
        ∀ h, h ≠ handle → t'.getFileHandle h = t.getFileHandle h) ∧
    (∀ flags name alloc res t' e r,
      t.storageFileOpen uuid flags name alloc res = (t', e, r) → e ≠ .noError →
        r = none ∧ (∀ h, t'.getFileHandle h = t.getFileHandle h) ∧ t'.openFiles = t.openFiles) ∧
    (∀ handle : UInt32, t.files.length ≤ handle.toNat ∨ t.getFileHandle handle.toNat = none →
      (∀ shrink commitFailed,
        t.step uuid (.fileClose handle shrink commitFailed) = some (t, [(.notValid, none)])) ∧
      ∀ written err, t.step uuid (.fileUse handle written err) = some (t, [(.notValid, none)])) := by
  have ht := Ok.of_run hrun
  refine ⟨ht.count_le, ht.distinct, ht.open_iff, ?_, ?_, ?_⟩
  · intro flags name alloc res t' handle hr
    rcases storageFileOpen_cases t uuid flags name alloc res with ⟨t₁, hr', ho⟩ | ⟨t₁, e, hr', -, -⟩
    · rw [hr] at hr'
      simp only [Prod.mk.injEq, Option.some.injEq] at hr'
      obtain ⟨rfl, -, rfl⟩ := hr'
      exact ⟨ho.free, fun h hh => isSome_of_lt_firstFree t hh,
        ⟨t.next, ho.slot, by simp [ho.openFiles]⟩, ho.others⟩
    · rw [hr] at hr'
      simp at hr'
  · intro flags name alloc res t' e r hr he
    rcases storageFileOpen_cases t uuid flags name alloc res with ⟨t₁, hr', -⟩ | ⟨t₁, e', hr', -, hs⟩
    · rw [hr] at hr'
      simp only [Prod.mk.injEq] at hr'
      exact absurd hr'.2.1 he
    · rw [hr] at hr'
      simp only [Prod.mk.injEq] at hr'
      obtain ⟨rfl, -, rfl⟩ := hr'
      exact ⟨rfl, hs.slots, hs.openFiles⟩
  · intro handle hbad
    -- past `files_count`, `get_file_handle` answers `NULL` as for a free slot
    have hg : t.getFileHandle handle.toNat = none := hbad.elim getFileHandle_of_le id
    exact ⟨fun shrink commitFailed => by simp [Table.step, storageFileClose_none hg],
      fun written err => by simp [Table.step, storageFileUse_none hg]⟩

/-- Files `a` and `b` opened, `a` closed, an open of `c` whose `calloc`
fails, and `c` opened: it gets slot 0 again. -/
theorem session_file_table_reopen :
    ∃ out t, LTS.Run (Table.step uuidOne) Table.init
        [.fileOpen storageFileOpenCreate [97] ⟨true, true, true⟩ (.opened false),
          .fileOpen storageFileOpenCreate [98] ⟨true, true, true⟩ (.opened false),
          .fileClose 0 true false,
          .fileOpen storageFileOpenCreate [99] ⟨true, false, true⟩ (.opened false),
          .fileOpen storageFileOpenCreate [99] ⟨true, true, true⟩ (.opened false)] out t ∧
      out = [(.noError, some 0), (.noError, some 1), (.noError, none), (.generic, none),
        (.noError, some 0)] ∧
      t.files.length ≤ storageMaxOpenFiles := by
  have hexec : (LTS.exec (Table.step uuidOne) Table.init
      [.fileOpen storageFileOpenCreate [97] ⟨true, true, true⟩ (.opened false),
        .fileOpen storageFileOpenCreate [98] ⟨true, true, true⟩ (.opened false),
        .fileClose 0 true false,
        .fileOpen storageFileOpenCreate [99] ⟨true, false, true⟩ (.opened false),
        .fileOpen storageFileOpenCreate [99] ⟨true, true, true⟩ (.opened false)]).any
      (fun r => r.2 == [(.noError, some 0), (.noError, some 1), (.noError, none), (.generic, none),
        (.noError, some 0)]) = true := by
    decide
  obtain ⟨out, t, hrun, hout⟩ := LTS.Run.exists_of_exec
    (p := fun (_ : Table) (out : List (StorageErr × Option Nat)) => out == [(.noError, some 0),
      (.noError, some 1), (.noError, none), (.generic, none), (.noError, some 0)]) hexec
  exact ⟨out, t, hrun, by simpa using hout, (session_file_table hrun).1⟩

/-- `session_shrink_files` whose `realloc` succeeds, on a table of at most
`STORAGE_MAX_OPEN_FILES` slots, drops the free slots at the end. -/
theorem sessionShrinkFiles_files (t : Table) (hmax : t.files.length ≤ storageMaxOpenFiles) :
    (t.sessionShrinkFiles true).files = (t.files.reverse.dropWhile Option.isNone).reverse := by
  have hle := shrinkIndex_le t.files t.files.length
  unfold sessionShrinkFiles
  dsimp only
  rw [← take_shrinkIndex]
  split_ifs with hlt
  · have hvalid : ¬ shrinkIndex t.files t.files.length > storageMaxOpenFiles := by omega
    simp [sessionSetFilesCount, hvalid, resize, Nat.sub_eq_zero_of_le hlt.le]
  · rw [List.take_of_length_le (by omega)]

end Table

/-! ## The session's table -/

namespace Session

variable {s : Session} {t : Table}

/-- Where the `realloc` and the `calloc` succeed, the session's
`create_file_handle` fills the slot this table's does, leaving the same
slots used, and fails where this one answers `STORAGE_ERR_NOT_VALID`. -/
theorem createFileHandle_refines (hocc : occupied s.files = occupied t.files) :
    (∀ s' handle, s.createFileHandle = some (s', handle) →
      ∃ t', t.createFileHandle true true = (t', .ok (handle, t.next)) ∧
        occupied s'.files = occupied t'.files) ∧
      (s.createFileHandle = none → t.createFileHandle true true = (t, .error .notValid)) := by
  have hlen : s.files.length = t.files.length := by
    rw [← length_occupied, hocc, length_occupied]
  -- `create_file_handle` of the session picks `firstFree` too
  have hfirst : (s.files.findIdx? Option.isNone).getD t.files.length = firstFree t.files :=
    hlen ▸ firstFree_congr hocc
  by_cases hfree : firstFree t.files < t.files.length
  · -- a free slot: both fill it
    have ht : t.createFileHandle true true =
        ({ t with files := t.files.set (firstFree t.files) (some t.next), next := t.next + 1 },
          .ok (firstFree t.files, t.next)) := by
      simp [Table.createFileHandle, Nat.not_le.mpr hfree]
    simp only [createFileHandle, hfirst, hlen, hfree, if_true, Option.some.injEq, Prod.mk.injEq,
      reduceCtorEq, false_implies, and_true]
    rintro s' handle ⟨rfl, rfl⟩
    exact ⟨_, ht, by rw [occupied_set, occupied_set, hocc]; rfl⟩
  · -- no free slot: both grow the table by one, or refuse past the limit
    have hend : firstFree t.files = t.files.length :=
      le_antisymm (firstFree_le_length t.files) (Nat.not_lt.mp hfree)
    by_cases hmax : t.files.length + 1 > storageMaxOpenFiles
    · have ht : t.createFileHandle true true = (t, .error .notValid) := by
        simp [Table.createFileHandle, hend, Table.sessionSetFilesCount, hmax]
      simp [createFileHandle, hfirst, hlen, hend, hmax, ht]
    · have ht : t.createFileHandle true true =
          ({ t with files := t.files ++ [some t.next], next := t.next + 1 },
            .ok (t.files.length, t.next)) := by
        simp [Table.createFileHandle, hend, Table.sessionSetFilesCount, hmax, resize]
      simp only [createFileHandle, hfirst, hlen, hend, lt_self_iff_false, hmax, if_false,
        Option.some.injEq, Prod.mk.injEq, reduceCtorEq, false_implies, and_true]
      rintro s' handle ⟨rfl, rfl⟩
      exact ⟨_, ht, by rw [occupied_append, occupied_append, hocc]; rfl⟩

/-- Where the `realloc` shrinking the table succeeds, the session's
`free_file_handle` leaves the slots used that this table's does. -/
theorem freeFileHandle_refines (hocc : occupied s.files = occupied t.files)
    (hmax : t.files.length ≤ storageMaxOpenFiles) (handle : Nat) :
    occupied (s.freeFileHandle handle).files = occupied (t.freeFileHandle handle true).files := by
  have hused : (s.getFileHandle handle).isSome = !(t.getFileHandle handle).isNone := by
    rw [← Option.not_isNone, getFileHandle, Table.getFileHandle, isNone_getElem_join,
      isNone_getElem_join, hocc]
  unfold freeFileHandle Table.freeFileHandle
  by_cases hnone : (t.getFileHandle handle).isNone = true
  · rw [hnone] at hused
    simp only [hused, hnone, if_true, Bool.not_true, Bool.false_eq_true, if_false]
    exact hocc
  · rw [Bool.not_eq_true] at hnone
    rw [hnone] at hused
    simp only [hused, hnone, Bool.false_eq_true, if_false]
    rw [Table.sessionShrinkFiles_files _ (by simpa using hmax)]
    apply occupied_rdrop
    -- both slots become free: `none.isSome` at the two handle types
    rw [occupied_set, occupied_set, hocc]
    rfl

end Session

end ClientTipc
