import Mathlib
import Trusty.Lib.OptionSpec

/-!
# `memlog.c`: log buffers shared with the non-secure world

`SMC_SC_SHARED_LOG_ADD` hands Trusty a physical range `[pa, pa + sz)` from
which the non-secure kernel reads Trusty's log.  `memlog_add` maps it and lays
a `struct log_rb` over it: three 32-bit words `alloc`, `put` and `sz`, then a
ring of `rb_sz` bytes, `rb_sz` the largest power of two below
`sz - offsetof(struct log_rb, data)`.  `__memlog_write` stores byte `i` of a
message at `data[(alloc + i) & (rb_sz - 1)]`, where `alloc` is read back from
the shared header, so the non-secure side may have put any 32-bit value there.

The model is the 64-bit build: `size_t` and `paddr_t` are 64 bits wide, and
`sz` is the 32-bit `params[2]` of the call.  A store is an address and a width;
`Store.Within pa sz` says it lies in `[pa, pa + sz)`.

* `memlogAdd_spec`: a request is rejected with nothing registered, or a log is
  registered with `rb_sz = lower_pow2(sz - 12)` truncated to 32 bits.
* `memlogAdd_rbSz`: above the header size, `rb_sz` is a power of two with
  `12 + rb_sz ≤ sz`.
* `memlogAdd_stores_within` / `memlogWrite_stores_within`: then every store of
  `memlog_add`, and of any `memlog_write` whatever the shared header holds, is
  inside `[pa, pa + sz)`.
* `memlogAdd_below_header`: a size below the header is not rejected: the
  subtraction wraps and the log gets `rb_sz = 2^31`; `memlogAdd_header_size`: at
  exactly the header size `lower_pow2(0)` reaches `__builtin_clz(0)`.
* `memlogAdd_accepts_wrapped`: `memlog_is_mem_registered` compares with
  `pa + sz` in 64 bits, so a range whose end wraps past `2^64` is registered
  over the buffers it contains.
-/

namespace Memlog

/-! ## The model -/

/-- `offsetof(struct log_rb, data)`: `alloc`, `put` and `sz`, 32 bits each. -/
def logRbDataOffset : Nat := 12

/-- `SM_ERR_INVALID_PARAMETERS`. -/
def smErrInvalidParameters : Int := -2

/-- `SM_ERR_INTERNAL_FAILURE`. -/
def smErrInternalFailure : Int := -7

/-- `struct memlog`, less its print callback and list node. -/
structure Log where
  bufPa : Nat
  bufSz : Nat
  rbSz : Nat
  deriving DecidableEq, Repr

/-- `memlog_is_mem_registered`: whether `[pa, pa + sz)` meets a registered
buffer, with the 64-bit sums of the C code. -/
def memlogIsMemRegistered (logs : List Log) (pa sz : Nat) : Bool :=
  logs.any fun log =>
    !decide ((pa + sz) % 2 ^ 64 ≤ log.bufPa) && !decide ((log.bufPa + log.bufSz) % 2 ^ 64 ≤ pa)

/-- `__builtin_clz` of a 32-bit value, undefined (`none`) at `0`. -/
def builtinClz (v : Nat) : Option Nat :=
  if v = 0 then none else some (31 - Nat.log2 v)

/-- `lower_pow2`: `1u << (31 - __builtin_clz(v))`. -/
def lowerPow2 (v : Nat) : Option Nat := do
  let c ← builtinClz v
  pure ((1 <<< (31 - c)) % 2 ^ 32)

/-- `memlog_add` over the list of registered logs; `mapped` is whether
`malloc` and `map_rb` succeed.  A new log goes to the head of `log_list`;
`none` is the undefined `__builtin_clz(0)`. -/
def memlogAdd (logs : List Log) (pa sz : Nat) (mapped : Bool) : Option (Int × List Log) :=
  if memlogIsMemRegistered logs pa sz then some (smErrInvalidParameters, logs)
  else if !mapped then some (smErrInternalFailure, logs)
  else do
    -- `log->buf_sz - offsetof(struct log_rb, data)` in `size_t`, passed as `uint32_t`
    let rbSz ← lowerPow2 ((sz + 2 ^ 64 - logRbDataOffset) % 2 ^ 64 % 2 ^ 32)
    pure (0, ⟨pa, sz, rbSz⟩ :: logs)

/-- A store of `width` bytes at physical address `addr`. -/
structure Store where
  addr : Nat
  width : Nat
  deriving DecidableEq, Repr

/-- The store lies in `[pa, pa + sz)`. -/
def Store.Within (s : Store) (pa sz : Nat) : Prop := pa ≤ s.addr ∧ s.addr + s.width ≤ pa + sz

instance (s : Store) (pa sz : Nat) : Decidable (s.Within pa sz) :=
  inferInstanceAs (Decidable (_ ∧ _))

/-- The stores of `memlog_add` to a new log's header: `rb->sz`, `rb->alloc`
and `rb->put`. -/
def addStores (log : Log) : List Store :=
  [⟨log.bufPa + 8, 4⟩, ⟨log.bufPa, 4⟩, ⟨log.bufPa + 4, 4⟩]

/-- `(log_offset + i) & (log->rb_sz - 1)`, in `size_t` and kept as `uint32_t`. -/
def ringOffset (rbSz logOffset i : Nat) : Nat :=
  ((logOffset + i) % 2 ^ 64 &&& (rbSz + 2 ^ 64 - 1) % 2 ^ 64) % 2 ^ 32

/-- The stores of `__memlog_write(log, str, len)` when the shared header holds
`rb->alloc = logOffset`: the new `alloc`, the data bytes, the new `put`. -/
def memlogWriteChunk (log : Log) (logOffset len : Nat) : List Store :=
  ⟨log.bufPa, 4⟩ ::
    ((List.range len).map fun i => ⟨log.bufPa + logRbDataOffset + ringOffset log.rbSz logOffset i, 1⟩) ++
    [⟨log.bufPa + 4, 4⟩]

/-- The lengths `memlog_write` passes to `__memlog_write`: `len / 128` chunks
of `chunk_size = 128`, then the rest if there is one. -/
def chunkLengths (len : Nat) : List Nat :=
  List.replicate (len / 128) 128 ++
    if len - len / 128 * 128 ≠ 0 then [len - len / 128 * 128] else []

/-- The stores of `memlog_write(log, str, len)`, its `k`th chunk finding
`rb->alloc = logOffsets k` in the shared header. -/
def memlogWrite (log : Log) (logOffsets : Nat → Nat) (len : Nat) : List Store :=
  (chunkLengths len).zipIdx.flatMap fun c => memlogWriteChunk log (logOffsets c.2) c.1

/-! ## `lower_pow2` -/

theorem lowerPow2_zero : lowerPow2 0 = none := rfl

/-- Of a non-zero 32-bit value, `lower_pow2` is its highest power of two. -/
theorem lowerPow2_eq {v : Nat} (hv : v ≠ 0) (hv32 : v < 2 ^ 32) :
    lowerPow2 v = some (2 ^ Nat.log2 v) := by
  have hlog : Nat.log2 v < 32 := (Nat.log2_lt hv).mpr hv32
  have hpow : 2 ^ Nat.log2 v < 2 ^ 32 := Nat.pow_lt_pow_right (by omega) hlog
  simp only [lowerPow2, builtinClz, if_neg hv, OptionSpec.some_bind]
  rw [show 31 - (31 - Nat.log2 v) = Nat.log2 v by omega, Nat.one_shiftLeft,
    Nat.mod_eq_of_lt hpow]
  rfl

theorem two_pow_log2_le {v : Nat} (hv : v ≠ 0) : 2 ^ Nat.log2 v ≤ v := Nat.log2_self_le hv

/-! ## Registration -/

/-- Every outcome of `memlog_add`: a rejection that registers nothing, or a new
log at the head of the list with the ring size `lower_pow2` gives. -/
theorem memlogAdd_spec {logs logs' : List Log} {pa sz : Nat} {mapped : Bool} {status : Int}
    (h : memlogAdd logs pa sz mapped = some (status, logs')) :
    (status ≠ 0 ∧ logs' = logs) ∨
      (status = 0 ∧ memlogIsMemRegistered logs pa sz = false ∧ ∃ rbSz,
        lowerPow2 ((sz + 2 ^ 64 - logRbDataOffset) % 2 ^ 64 % 2 ^ 32) = some rbSz ∧
        logs' = ⟨pa, sz, rbSz⟩ :: logs) := by
  unfold memlogAdd at h
  split_ifs at h with hreg hmap
  · simp only [Option.some.injEq, Prod.mk.injEq] at h
    exact .inl ⟨by rw [← h.1]; decide, h.2.symm⟩
  · simp only [Option.some.injEq, Prod.mk.injEq] at h
    exact .inl ⟨by rw [← h.1]; decide, h.2.symm⟩
  · cases hr : lowerPow2 ((sz + 2 ^ 64 - logRbDataOffset) % 2 ^ 64 % 2 ^ 32) with
    | none => rw [hr] at h; cases h
    | some rbSz =>
      rw [hr] at h
      simp only [OptionSpec.some_bind] at h
      cases h
      exact .inr ⟨rfl, by simpa using hreg, rbSz, rfl, rfl⟩

/-- Above the header size the subtraction does not wrap, and the ring is the
largest power of two that fits after the header. -/
theorem memlogAdd_rbSz {sz rbSz : Nat} (hsz : logRbDataOffset < sz) (hsz32 : sz < 2 ^ 32)
    (h : lowerPow2 ((sz + 2 ^ 64 - logRbDataOffset) % 2 ^ 64 % 2 ^ 32) = some rbSz) :
    (∃ k, rbSz = 2 ^ k) ∧ 0 < rbSz ∧ logRbDataOffset + rbSz ≤ sz := by
  have harg : (sz + 2 ^ 64 - logRbDataOffset) % 2 ^ 64 % 2 ^ 32 = sz - logRbDataOffset := by
    unfold logRbDataOffset at hsz ⊢
    omega
  have hv : sz - logRbDataOffset ≠ 0 := by omega
  rw [harg, lowerPow2_eq hv (by omega), Option.some.injEq] at h
  subst h
  have hle := two_pow_log2_le hv
  exact ⟨⟨_, rfl⟩, Nat.two_pow_pos _, by omega⟩

/-- A size below the header is accepted: `buf_sz - 12` wraps, its low 32 bits
are at least `2^31`, and the ring gets `rb_sz = 2^31`. -/
theorem memlogAdd_below_header (logs : List Log) (pa sz : Nat) (hsz : sz < logRbDataOffset)
    (hfree : memlogIsMemRegistered logs pa sz = false) :
    memlogAdd logs pa sz true = some (0, ⟨pa, sz, 2 ^ 31⟩ :: logs) := by
  have harg : (sz + 2 ^ 64 - logRbDataOffset) % 2 ^ 64 % 2 ^ 32 = 2 ^ 32 - logRbDataOffset + sz := by
    unfold logRbDataOffset at hsz ⊢
    omega
  have hlog : Nat.log2 (2 ^ 32 - logRbDataOffset + sz) = 31 := by
    rw [Nat.log2_eq_iff (by unfold logRbDataOffset; omega)]
    unfold logRbDataOffset at hsz ⊢
    omega
  have hlow := lowerPow2_eq (v := 2 ^ 32 - logRbDataOffset + sz) (by unfold logRbDataOffset; omega)
    (by unfold logRbDataOffset at hsz ⊢; omega)
  rw [hlog] at hlow
  simp only [memlogAdd, hfree, Bool.false_eq_true, if_false, Bool.not_true, harg, hlow,
    OptionSpec.some_bind]
  rfl

/-- Accepted below the header size, the log's own header overruns the buffer:
the store of `rb->sz` ends at `pa + 12`, and so does every log byte. -/
theorem memlogAdd_below_header_outside (logs : List Log) (pa sz : Nat)
    (hsz : sz < logRbDataOffset) (hfree : memlogIsMemRegistered logs pa sz = false) :
    ∃ log, memlogAdd logs pa sz true = some (0, log :: logs) ∧
      (∃ s ∈ addStores log, ¬ s.Within pa sz) ∧
      ∀ logOffsets len, ∀ s ∈ memlogWrite log logOffsets len, s.width = 1 → ¬ s.Within pa sz := by
  refine ⟨_, memlogAdd_below_header logs pa sz hsz hfree, ⟨⟨pa + 8, 4⟩, by simp [addStores], ?_⟩,
    fun logOffsets len s hs hw => ?_⟩
  · unfold logRbDataOffset at hsz
    simp only [Store.Within]
    omega
  · simp only [memlogWrite, List.mem_flatMap, memlogWriteChunk, List.mem_cons, List.mem_append,
      List.mem_map, List.mem_range, List.not_mem_nil, or_false] at hs
    unfold logRbDataOffset at hsz
    -- the data bytes start at `pa + 12`; the header words have width 4
    obtain ⟨c, -, (rfl | ⟨i, -, rfl⟩) | rfl⟩ := hs
    · simp at hw
    · simp only [Store.Within, logRbDataOffset]
      omega
    · simp at hw

/-- The failing input: a zero-sized buffer is registered with a ring of `2^31`
bytes, and `memlog_add` writes `rb->sz` past its end. -/
theorem memlogAdd_zero_size :
    memlogAdd [] 0x80000000 0 true = some (0, [⟨0x80000000, 0, 2 ^ 31⟩]) ∧
      ¬ (⟨0x80000000 + 8, 4⟩ : Store).Within 0x80000000 0 :=
  ⟨memlogAdd_below_header [] 0x80000000 0 (by decide) rfl, by decide⟩

/-- At exactly the header size `lower_pow2(0)` calls `__builtin_clz(0)`. -/
theorem memlogAdd_header_size (logs : List Log) (pa : Nat)
    (hfree : memlogIsMemRegistered logs pa logRbDataOffset = false) :
    memlogAdd logs pa logRbDataOffset true = none := by
  simp only [memlogAdd, hfree, Bool.false_eq_true, if_false, Bool.not_true]
  rfl

/-- The overlap check compares with `pa + sz` in 64 bits: a range whose end
wraps past `2^64` is not found to meet any registered buffer that starts at
or after the wrapped end, though every one of them that starts at or after
`pa` lies inside the range. -/
theorem memlogIsMemRegistered_wrapped {logs : List Log} {pa sz : Nat} (hpa : pa < 2 ^ 64)
    (hsz32 : sz < 2 ^ 32) (hwrap : 2 ^ 64 ≤ pa + sz)
    (hlogs : ∀ log ∈ logs, pa + sz - 2 ^ 64 ≤ log.bufPa) :
    memlogIsMemRegistered logs pa sz = false := by
  have hend : (pa + sz) % 2 ^ 64 = pa + sz - 2 ^ 64 := by omega
  simp only [memlogIsMemRegistered, List.any_eq_false, hend]
  intro log hlog
  have hstart := hlogs log hlog
  simp only [Bool.and_eq_true, Bool.not_eq_eq_eq_not, Bool.not_true, decide_eq_false_iff_not,
    not_and]
  omega

/-- Such a range is registered over the buffers it contains. -/
theorem memlogAdd_accepts_wrapped {logs : List Log} {pa sz : Nat} (hpa : pa < 2 ^ 64)
    (hsz : logRbDataOffset < sz) (hsz32 : sz < 2 ^ 32) (hwrap : 2 ^ 64 ≤ pa + sz)
    (hlogs : ∀ log ∈ logs, pa + sz - 2 ^ 64 ≤ log.bufPa) :
    ∃ rbSz, memlogAdd logs pa sz true = some (0, ⟨pa, sz, rbSz⟩ :: logs) := by
  have harg : (sz + 2 ^ 64 - logRbDataOffset) % 2 ^ 64 % 2 ^ 32 = sz - logRbDataOffset := by
    unfold logRbDataOffset at hsz ⊢
    omega
  have hlow := lowerPow2_eq (v := sz - logRbDataOffset) (by omega) (by omega)
  refine ⟨2 ^ Nat.log2 (sz - logRbDataOffset), ?_⟩
  simp only [memlogAdd, memlogIsMemRegistered_wrapped hpa hsz32 hwrap hlogs, Bool.false_eq_true,
    if_false, Bool.not_true, harg, hlow, OptionSpec.some_bind]
  rfl

/-- A buffer registered in the last page is overrun by a new range that
starts one page below it and wraps. -/
example : ∃ rbSz, memlogAdd [⟨2 ^ 64 - 4096, 4096, 2048⟩] (2 ^ 64 - 8192) 16384 true =
    some (0, [⟨2 ^ 64 - 8192, 16384, rbSz⟩, ⟨2 ^ 64 - 4096, 4096, 2048⟩]) :=
  memlogAdd_accepts_wrapped (by decide) (by decide) (by decide) (by decide)
    (by simp)

/-! ## Stores -/

/-- The masked ring offset is below a power-of-two ring size. -/
theorem ringOffset_lt {k : Nat} (hk : k ≤ 31) (logOffset i : Nat) :
    ringOffset (2 ^ k) logOffset i < 2 ^ k := by
  have hpos : 0 < 2 ^ k := Nat.two_pow_pos k
  have hk32 : 2 ^ k ≤ 2 ^ 31 := Nat.pow_le_pow_right (by omega) hk
  have hmask : (2 ^ k + 2 ^ 64 - 1) % 2 ^ 64 = 2 ^ k - 1 := by omega
  have hmod : (logOffset + i) % 2 ^ 64 % 2 ^ k < 2 ^ k := Nat.mod_lt _ hpos
  unfold ringOffset
  rw [hmask, Nat.and_two_pow_sub_one_eq_mod, Nat.mod_eq_of_lt (by omega)]
  exact hmod

section Within

variable {pa sz k : Nat}

theorem addStores_within (hk : logRbDataOffset + 2 ^ k ≤ sz) :
    ∀ s ∈ addStores ⟨pa, sz, 2 ^ k⟩, s.Within pa sz := by
  have hpos : 0 < 2 ^ k := Nat.two_pow_pos k
  unfold logRbDataOffset at hk
  simp only [addStores, List.mem_cons, List.not_mem_nil, or_false]
  rintro s (rfl | rfl | rfl) <;> simp only [Store.Within] <;> omega

/-- Every store of one `__memlog_write`, whatever `alloc` the shared header
holds and whatever the length. -/
theorem memlogWriteChunk_within (hk : logRbDataOffset + 2 ^ k ≤ sz) (hk31 : k ≤ 31)
    (logOffset len : Nat) :
    ∀ s ∈ memlogWriteChunk ⟨pa, sz, 2 ^ k⟩ logOffset len, s.Within pa sz := by
  have hpos : 0 < 2 ^ k := Nat.two_pow_pos k
  intro s hs
  simp only [memlogWriteChunk, List.mem_cons, List.mem_append, List.mem_map, List.mem_range,
    List.not_mem_nil, or_false] at hs
  unfold logRbDataOffset at hk
  rcases hs with (rfl | ⟨i, -, rfl⟩) | rfl
  · simp only [Store.Within]; omega
  · -- a data byte: the masked offset stays below the ring size
    have hoff := ringOffset_lt hk31 logOffset i
    simp only [Store.Within, logRbDataOffset]
    omega
  · simp only [Store.Within]; omega

/-- Every store of `memlog_write`, whatever the shared header holds before
each chunk. -/
theorem memlogWrite_within (hk : logRbDataOffset + 2 ^ k ≤ sz) (hk31 : k ≤ 31)
    (logOffsets : Nat → Nat) (len : Nat) :
    ∀ s ∈ memlogWrite ⟨pa, sz, 2 ^ k⟩ logOffsets len, s.Within pa sz := by
  intro s hs
  simp only [memlogWrite, List.mem_flatMap] at hs
  obtain ⟨c, -, hs⟩ := hs
  exact memlogWriteChunk_within hk hk31 (logOffsets c.2) c.1 s hs

end Within

/-- Above the header size, the stores of `memlog_add` and of every later
`memlog_write` stay inside the registered buffer. -/
theorem memlogAdd_stores_within {logs logs' : List Log} {pa sz : Nat}
    (hsz : logRbDataOffset < sz) (hsz32 : sz < 2 ^ 32)
    (h : memlogAdd logs pa sz true = some (0, logs')) :
    ∃ log, logs' = log :: logs ∧ log.bufPa = pa ∧ log.bufSz = sz ∧
      (∃ k, log.rbSz = 2 ^ k) ∧ logRbDataOffset + log.rbSz ≤ sz ∧
      (∀ s ∈ addStores log, s.Within pa sz) ∧
      ∀ logOffsets len, ∀ s ∈ memlogWrite log logOffsets len, s.Within pa sz := by
  rcases memlogAdd_spec h with ⟨hne, -⟩ | ⟨-, -, rbSz, hlow, rfl⟩
  · exact absurd rfl hne
  obtain ⟨⟨k, rfl⟩, -, hfit⟩ := memlogAdd_rbSz hsz hsz32 hlow
  have hk31 : k ≤ 31 := by
    by_contra hk
    have : 2 ^ 32 ≤ 2 ^ k := Nat.pow_le_pow_right (by omega) (by omega)
    omega
  exact ⟨_, rfl, rfl, rfl, ⟨k, rfl⟩, hfit, addStores_within hfit, memlogWrite_within hfit hk31⟩

/-- A page registered at `0x80000000` gets a ring of 2048 bytes, and all its
stores stay in the page. -/
theorem memlogAdd_page_within :
    ∃ log, [(⟨0x80000000, 4096, 2048⟩ : Log)] = [log] ∧ log.bufPa = 0x80000000 ∧
      log.bufSz = 4096 ∧ (∃ k, log.rbSz = 2 ^ k) ∧ logRbDataOffset + log.rbSz ≤ 4096 ∧
      (∀ s ∈ addStores log, s.Within 0x80000000 4096) ∧
      ∀ logOffsets len, ∀ s ∈ memlogWrite log logOffsets len, s.Within 0x80000000 4096 :=
  @memlogAdd_stores_within [] _ 0x80000000 4096 (by decide) (by decide) (by decide)

end Memlog
