import Mathlib

/-!
# `client_tipc.c`: the paths of a storage session's files

A storage session names files by arbitrary bytes.  `storage_file_open` and
`storage_file_delete` serve a name only if `is_valid_name` accepts it and
`get_path` fits `<uuid>/<name>` with its terminator into `FS_PATH_MAX`
bytes, where `<uuid>` is the session's uuid rendered by
`snprintf("%08x%04x%04x%02x…%02x/")`.  `file_tree_lookup` then finds the file
entry whose path string equals that path.

* `requestPath_eq_some`: a request is served exactly when its name is valid
  and the path fits, and its path is then the 32 lowercase hex digits of the
  uuid, `/`, and the name.
* `uuidDir_injective`, `requestPath_injective`: the rendering and `get_path`
  are injective.
* `fileTreeLookup_path`: a file found for a path has exactly that path.
-/

namespace ClientTipc

/-! ## The model -/

/-- `uuid_t`, its eight `clock_seq_and_node` bytes as a list. -/
structure Uuid where
  timeLow : UInt32
  timeMid : UInt16
  timeHiAndVersion : UInt16
  clockSeqAndNode : List UInt8
  clockSeqAndNode_length : clockSeqAndNode.length = 8
  deriving DecidableEq

/-- One byte of a legal name: `[a-z]`, `[A-Z]`, `[0-9]`, `.`, `-` or `_`. -/
def isValidChar (c : UInt8) : Bool :=
  ('a'.toNat ≤ c.toNat && c.toNat ≤ 'z'.toNat) || ('A'.toNat ≤ c.toNat && c.toNat ≤ 'Z'.toNat) ||
    ('0'.toNat ≤ c.toNat && c.toNat ≤ '9'.toNat) ||
    (c.toNat == '.'.toNat || c.toNat == '-'.toNat || c.toNat == '_'.toNat)

/-- `is_valid_name`: a non-empty name of legal bytes. -/
def isValidName (name : List UInt8) : Bool :=
  !name.isEmpty && name.all isValidChar

/-- The lowercase `%x` digit of `d < 16`. -/
def hexDigit (d : Nat) : UInt8 :=
  if d < 10 then ('0'.toNat + d).toUInt8 else ('a'.toNat + (d - 10)).toUInt8

/-- `%0<width>x` of a value below `16 ^ width`: exactly `width` digits, the
most significant first. -/
def hexField : Nat → Nat → List UInt8
  | 0, _ => []
  | width + 1, n => hexField width (n / 16) ++ [hexDigit (n % 16)]

/-- What `get_path`'s `snprintf` renders: the uuid's fields in 32 hex digits,
then `/`. -/
def uuidDir (u : Uuid) : List UInt8 :=
  hexField 8 u.timeLow.toNat ++ hexField 4 u.timeMid.toNat ++ hexField 4 u.timeHiAndVersion.toNat ++
    u.clockSeqAndNode.flatMap (fun b => hexField 2 b.toNat) ++ ['/'.toNat.toUInt8]

/-- `FS_PATH_MAX`. -/
def fsPathMax : Nat := 64 + 128

/-- `get_path`: the path buffer up to its terminating NUL, or `none` for
`STORAGE_ERR_NOT_VALID`; `rc` is what `snprintf` returns, the full length. -/
def getPath (pathOutSize : Nat) (uuid : Uuid) (fileName : List UInt8) : Option (List UInt8) :=
  let rc := (uuidDir uuid).length
  if rc + fileName.length ≥ pathOutSize then none
  else some (uuidDir uuid ++ fileName ++ [0])

/-- The C string in a buffer: its bytes before the first NUL. -/
def cString (buf : List UInt8) : List UInt8 := buf.takeWhile (· != 0)

/-- The path buffer of an open or delete request of session `uuid` for file
`name` (the name check and `get_path` of `storage_file_open` and
`storage_file_delete`), or `none` for `STORAGE_ERR_NOT_VALID`. -/
def requestPath (uuid : Uuid) (name : List UInt8) : Option (List UInt8) :=
  if !isValidName name then none else getPath fsPathMax uuid name

/-- An entry of a files tree: the key `path_hash` gave it and the path
stored in its `struct file_entry`. -/
structure FileEntry where
  key : Nat
  path : List UInt8
  deriving DecidableEq, Repr

/-- `file_tree_lookup` over the entries of a files tree in key order:
`block_tree_walk` to `hash - 1` and `block_tree_path_next` while the key is
below `hash`, then the entries with key `hash` until one whose path
`strcmp` finds equal. -/
def fileTreeLookup (pathHash : List UInt8 → Nat) (entries : List FileEntry)
    (filePath : List UInt8) : Option FileEntry :=
  let hash := pathHash filePath
  ((entries.dropWhile fun e => e.key < hash).takeWhile fun e => e.key == hash).find?
    fun e => e.path == filePath

/-! ## Hex fields -/

/-- The value of a list of lowercase hex digits. -/
def readHex (l : List UInt8) : Nat :=
  l.foldl (fun acc c => acc * 16 + (if c.toNat < 'a'.toNat then c.toNat - '0'.toNat else c.toNat - 'a'.toNat + 10)) 0

theorem readHex_append (l : List UInt8) (c : UInt8) :
    readHex (l ++ [c]) =
      readHex l * 16 + (if c.toNat < 'a'.toNat then c.toNat - '0'.toNat else c.toNat - 'a'.toNat + 10) := by
  simp [readHex, List.foldl_append]

theorem readHex_hexDigit {d : Nat} (hd : d < 16) :
    (if (hexDigit d).toNat < 'a'.toNat then (hexDigit d).toNat - '0'.toNat
      else (hexDigit d).toNat - 'a'.toNat + 10) = d := by
  interval_cases d <;> decide

@[simp] theorem length_hexField (width n : Nat) : (hexField width n).length = width := by
  induction width generalizing n with
  | zero => rfl
  | succ width ih => simp [hexField, ih]

theorem readHex_hexField (width n : Nat) : readHex (hexField width n) = n % 16 ^ width := by
  induction width generalizing n with
  | zero => simp [hexField, readHex, Nat.mod_one]
  | succ width ih =>
    rw [hexField, readHex_append, ih, readHex_hexDigit (Nat.mod_lt _ (by decide)), Nat.pow_succ,
      Nat.mul_comm (16 ^ width) 16, Nat.mod_mul]
    omega

/-- A field below `16 ^ width` is read back from its digits. -/
theorem hexField_inj {width a b : Nat} (ha : a < 16 ^ width) (hb : b < 16 ^ width)
    (h : hexField width a = hexField width b) : a = b := by
  have := congrArg readHex h
  rwa [readHex_hexField, readHex_hexField, Nat.mod_eq_of_lt ha, Nat.mod_eq_of_lt hb] at this

/-- The two-digit fields of a list of bytes, read back. -/
def readBytes : List UInt8 → List UInt8
  | a :: b :: rest => (readHex [a, b]).toUInt8 :: readBytes rest
  | _ => []

theorem readBytes_flatMap (bs : List UInt8) :
    readBytes (bs.flatMap fun b => hexField 2 b.toNat) = bs := by
  induction bs with
  | nil => rfl
  | cons b bs ih =>
    have h2 : hexField 2 b.toNat = [hexDigit (b.toNat / 16 % 16), hexDigit (b.toNat % 16)] := rfl
    have hb : readHex (hexField 2 b.toNat) = b.toNat := by
      rw [readHex_hexField, Nat.mod_eq_of_lt (by have := b.toNat_lt; omega)]
    rw [h2] at hb
    rw [List.flatMap_cons, h2, List.cons_append, List.cons_append, List.nil_append, readBytes, hb,
      ih]
    simp

theorem length_flatMap_hexField (bs : List UInt8) :
    (bs.flatMap fun b => hexField 2 b.toNat).length = 2 * bs.length := by
  induction bs with
  | nil => rfl
  | cons b bs ih => simp only [List.flatMap_cons, List.length_append, length_hexField, ih,
      List.length_cons]; omega

/-! ## `get_path` is injective -/

theorem length_uuidDir (u : Uuid) : (uuidDir u).length = 33 := by
  simp only [uuidDir, List.length_append, length_hexField, length_flatMap_hexField,
    u.clockSeqAndNode_length, List.length_singleton]

/-- The uuid is read back from the rendering: every field keeps its digits. -/
theorem uuidDir_injective {u1 u2 : Uuid} (h : uuidDir u1 = uuidDir u2) : u1 = u2 := by
  obtain ⟨a1, b1, c1, d1, hd1⟩ := u1
  obtain ⟨a2, b2, c2, d2, hd2⟩ := u2
  simp only [uuidDir, List.append_assoc] at h
  obtain ⟨ha, h⟩ := List.append_inj h (by simp)
  obtain ⟨hb, h⟩ := List.append_inj h (by simp)
  obtain ⟨hc, h⟩ := List.append_inj h (by simp)
  obtain ⟨hd, -⟩ := List.append_inj h (by simp only [length_flatMap_hexField, hd1, hd2])
  have ha' := hexField_inj (by have := a1.toNat_lt; omega) (by have := a2.toNat_lt; omega) ha
  have hb' := hexField_inj (by have := b1.toNat_lt; omega) (by have := b2.toNat_lt; omega) hb
  have hc' := hexField_inj (by have := c1.toNat_lt; omega) (by have := c2.toNat_lt; omega) hc
  have hd' := congrArg readBytes hd
  rw [readBytes_flatMap, readBytes_flatMap] at hd'
  rw [UInt32.toNat_inj] at ha'
  rw [UInt16.toNat_inj] at hb' hc'
  subst ha' hb' hc' hd'
  rfl

/-- A served request's path: the name is legal, the path and its terminator
fit, and the buffer holds the uuid's directory, the name and a NUL. -/
theorem requestPath_eq_some {u : Uuid} {name buf : List UInt8} :
    requestPath u name = some buf ↔
      isValidName name = true ∧ 33 + name.length < fsPathMax ∧ buf = uuidDir u ++ name ++ [0] := by
  unfold requestPath getPath
  rw [length_uuidDir]
  by_cases hv : isValidName name = true
  · by_cases hfit : 33 + name.length ≥ fsPathMax
    · simp [hv, hfit]
    · simp only [hv, Bool.not_true, Bool.false_eq_true, if_false, if_neg hfit, Option.some.injEq,
        true_and]
      constructor
      · intro h; exact ⟨by omega, h.symm⟩
      · intro h; exact h.2.symm
  · simp [hv]

/-! ## The path as `strcmp` sees it -/

theorem cString_append_nul {l : List UInt8} (h : ∀ c ∈ l, c ≠ 0) : cString (l ++ [0]) = l := by
  induction l with
  | nil => rfl
  | cons c l ih =>
    have hc : (c != 0) = true := by simpa using h c List.mem_cons_self
    simp only [cString, List.cons_append, List.takeWhile_cons, hc, if_true] at ih ⊢
    rw [ih fun c' hc' => h c' (List.mem_cons_of_mem _ hc')]

theorem isValidChar_ne_zero {c : UInt8} (h : isValidChar c = true) : c ≠ 0 := by
  rintro rfl
  exact absurd h (by decide)

theorem hexDigit_ne_zero {d : Nat} (hd : d < 16) : hexDigit d ≠ 0 := by
  interval_cases d <;> decide

theorem hexField_ne_zero (width n : Nat) : ∀ c ∈ hexField width n, c ≠ 0 := by
  induction width generalizing n with
  | zero => simp [hexField]
  | succ width ih =>
    intro c hc
    simp only [hexField, List.mem_append, List.mem_singleton] at hc
    rcases hc with hc | rfl
    · exact ih _ c hc
    · exact hexDigit_ne_zero (Nat.mod_lt _ (by decide))

theorem uuidDir_ne_zero (u : Uuid) : ∀ c ∈ uuidDir u, c ≠ 0 := by
  intro c hc
  simp only [uuidDir, List.mem_append, List.mem_flatMap, List.mem_singleton] at hc
  rcases hc with (((hc | hc) | hc) | ⟨b, -, hc⟩) | rfl
  · exact hexField_ne_zero _ _ c hc
  · exact hexField_ne_zero _ _ c hc
  · exact hexField_ne_zero _ _ c hc
  · exact hexField_ne_zero _ _ c hc
  · decide

/-- A legal name holds no NUL, so `strcmp` compares the whole path. -/
theorem cString_requestPath {u : Uuid} {name buf : List UInt8} (h : requestPath u name = some buf) :
    cString buf = uuidDir u ++ name := by
  obtain ⟨hv, -, rfl⟩ := requestPath_eq_some.mp h
  simp only [isValidName, Bool.and_eq_true, List.all_eq_true] at hv
  refine cString_append_nul fun c hc => ?_
  rcases List.mem_append.mp hc with hc | hc
  · exact uuidDir_ne_zero u c hc
  · exact isValidChar_ne_zero (hv.2 c hc)

/-- `get_path` after `is_valid_name` is injective, as `strcmp` sees paths. -/
theorem requestPath_injective {u1 u2 : Uuid} {n1 n2 b1 b2 : List UInt8}
    (h1 : requestPath u1 n1 = some b1) (h2 : requestPath u2 n2 = some b2)
    (h : cString b1 = cString b2) : u1 = u2 ∧ n1 = n2 := by
  rw [cString_requestPath h1, cString_requestPath h2] at h
  obtain ⟨hdir, hname⟩ := List.append_inj h (by rw [length_uuidDir, length_uuidDir])
  exact ⟨uuidDir_injective hdir, hname⟩

/-! ## Lookup -/

/-- `file_tree_lookup` finds only an entry whose path is the one looked up. -/
theorem fileTreeLookup_path {pathHash : List UInt8 → Nat} {entries : List FileEntry}
    {filePath : List UInt8} {e : FileEntry} (h : fileTreeLookup pathHash entries filePath = some e) :
    e.path = filePath := by
  have := List.find?_some h
  simpa using this

/-! ## Isolation of sessions -/

section Isolation

variable {u1 u2 : Uuid} {n1 n2 b1 b2 : List UInt8}

/-- Two served requests: each path is its session's directory and its legal
name, the paths are equal only for the same session and name, and a file
created through the first (its entry holds the first path) is found by the
second only if the two sessions have the same uuid. -/
theorem session_paths_isolated (h1 : requestPath u1 n1 = some b1)
    (h2 : requestPath u2 n2 = some b2) :
    (isValidName n1 = true ∧ 33 + n1.length < fsPathMax ∧ cString b1 = uuidDir u1 ++ n1) ∧
      (cString b1 = cString b2 → u1 = u2 ∧ n1 = n2) ∧
      ∀ (pathHash : List UInt8 → Nat) (entries : List FileEntry) (e : FileEntry),
        e.path = cString b1 → fileTreeLookup pathHash entries (cString b2) = some e → u1 = u2 := by
  obtain ⟨hv, hfit, -⟩ := requestPath_eq_some.mp h1
  refine ⟨⟨hv, hfit, cString_requestPath h1⟩, requestPath_injective h1 h2, ?_⟩
  intro pathHash entries e hcreated hfound
  -- the entry found holds the second path, which is the first
  have hpath := fileTreeLookup_path hfound
  exact (requestPath_injective h1 h2 (hcreated.symm.trans hpath)).1

end Isolation

/-- A session with uuid `00000001-0002-0003-0000-000000000004` and file `a`. -/
def uuidOne : Uuid := ⟨1, 2, 3, [0, 0, 0, 0, 0, 0, 0, 4], rfl⟩

/-- The session `uuidOne` creating file `a` and finding it again. -/
theorem session_paths_isolated_one :
    let b := uuidDir uuidOne ++ [97] ++ [0]
    requestPath uuidOne [97] = some b ∧
      ((isValidName [97] = true ∧ 33 + [97].length < fsPathMax ∧ cString b = uuidDir uuidOne ++ [97]) ∧
        (cString b = cString b → uuidOne = uuidOne ∧ ([97] : List UInt8) = [97]) ∧
        ∀ (pathHash : List UInt8 → Nat) (entries : List FileEntry) (e : FileEntry),
          e.path = cString b → fileTreeLookup pathHash entries (cString b) = some e →
            uuidOne = uuidOne) :=
  ⟨by decide, @session_paths_isolated uuidOne uuidOne [97] [97] (uuidDir uuidOne ++ [97] ++ [0])
    (uuidDir uuidOne ++ [97] ++ [0]) (by decide) (by decide)⟩

end ClientTipc
