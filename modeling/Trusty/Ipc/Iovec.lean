import Mathlib

/-!
# Copies between a message buffer and an iovec list (iovec.c)

The four helpers of iovec.c run one loop: for each iovec in order copy
`min len iov.len` bytes, pass over an iovec with nothing to copy, stop with an
error where a copy cannot be made, and stop once `len` bytes are copied.
`copySegments` is that loop.  It returns the status the helper returns and the
segments it copied, in order.  The helpers differ in where the iovecs come
from (an array in the kernel, descriptors fetched one at a time from user
memory), in what makes a copy fail (a NULL base; a fault in user memory) and
in the direction of the copy.

Without a failure the loop copies the plan `cut len iovs`
(`copySegments_eq_cut`), and a nonnegative status means no failure
(`copySegments_of_nonneg`).  Against the plan, a gather returns the first
`min len (totalLen iovs)` bytes of the iovecs' `contents` (`flatMap_cut`), a
scatter lays the buffer into the iovecs in order (`scatter_cut`, `fill`).

Two details of the C are not modelled: a NULL iovec array or message buffer
(no caller passes one), and the bytes a faulting user copy moves before its
fault (the caller returns the fault, and the partial bytes are never read).
-/

namespace Ipc

/-- ERR_INVALID_ARGS -/
def errInvalidArgs : Int := -8

/-- ERR_FAULT, what copy_from_user and copy_to_user return on a fault. -/
def errFault : Int := -40

/-- iovec_kern_t and iovec_user_t: a base address and a length; a kernel base
of `0` is NULL. -/
structure Iovec where
  base : Nat
  len : Nat
  deriving DecidableEq, Repr

/-- The `n` bytes of memory at `addr`. -/
def bytesAt (mem : Nat → UInt8) (addr n : Nat) : List UInt8 :=
  (List.range n).map fun k => mem (addr + k)

/-- The loop of the four helpers: `access iov n` is the error of copying
`n > 0` bytes at `iov`, if the copy fails. -/
def copySegments (access : Iovec → Nat → Option Int) (copied len : Nat) :
    List (Except Int Iovec) → Int × List (Iovec × Nat)
  | [] => (copied, [])
  | .error e :: _ => (e, [])
  | .ok iov :: rest =>
    let toCopy := min len iov.len
    if toCopy = 0 then copySegments access copied len rest
    else
      match access iov toCopy with
      | some e => (e, [])
      | none =>
        if len - toCopy = 0 then (copied + toCopy, [(iov, toCopy)])
        else
          let r := copySegments access (copied + toCopy) (len - toCopy) rest
          (r.1, (iov, toCopy) :: r.2)

/-- The segments a scatter writes: each a base and the bytes written there. -/
def scatter : List (Iovec × Nat) → List UInt8 → List (Nat × List UInt8)
  | [], _ => []
  | (iov, n) :: rest, buf => (iov.base, buf.take n) :: scatter rest (buf.drop n)

/-! ## The kernel helpers -/

/-- A kernel copy fails only at a NULL base. -/
def kernAccess (iov : Iovec) (_ : Nat) : Option Int :=
  if iov.base = 0 then some errInvalidArgs else none

/-- kern_iovec_to_membuf: gather at most `len` bytes from kernel iovecs. -/
def kernIovecToMembuf (mem : Nat → UInt8) (len : Nat) (iov : List Iovec) : Int × List UInt8 :=
  if iov.length = 0 ∨ len = 0 then (0, [])
  else
    let r := copySegments kernAccess 0 len (iov.map .ok)
    (r.1, r.2.flatMap fun s => bytesAt mem s.1.base s.2)

/-- membuf_to_kern_iovec: scatter the first `len` bytes of `buf`. -/
def membufToKernIovec (iov : List Iovec) (buf : List UInt8) (len : Nat) :
    Int × List (Nat × List UInt8) :=
  if iov.length = 0 ∨ len = 0 then (0, [])
  else
    let r := copySegments kernAccess 0 len (iov.map .ok)
    (r.1, scatter r.2 buf)

/-! ## The user helpers -/

/-- A user address space as the copies see it. -/
structure UserMem where
  /-- copy_from_user of an iovec_user_t at an address; `none` on a fault. -/
  iovAt : Nat → Option Iovec
  /-- copy_from_user of `n` bytes at an address does not fault. -/
  readable : Nat → Nat → Bool
  /-- copy_to_user of `n` bytes at an address does not fault. -/
  writable : Nat → Nat → Bool
  byte : Nat → UInt8

/-- sizeof(iovec_user_t): a 32-bit user_addr_t and a uint32_t length. -/
def iovecUserSize : Nat := 8

/-- The descriptor of the `i`-th user iovec; the address is a 32-bit
user_addr_t. -/
def UserMem.fetchIov (um : UserMem) (iovUaddr i : Nat) : Except Int Iovec :=
  match um.iovAt ((iovUaddr + i * iovecUserSize) % 2 ^ 32) with
  | some iov => .ok iov
  | none => .error errFault

/-- The descriptors in the order the loop fetches them. -/
def UserMem.iovecs (um : UserMem) (iovUaddr iovCnt : Nat) : List (Except Int Iovec) :=
  (List.range iovCnt).map (um.fetchIov iovUaddr)

/-- A copy from user memory fails on a fault. -/
def UserMem.readAccess (um : UserMem) (iov : Iovec) (n : Nat) : Option Int :=
  if um.readable iov.base n then none else some errFault

/-- A copy to user memory fails on a fault. -/
def UserMem.writeAccess (um : UserMem) (iov : Iovec) (n : Nat) : Option Int :=
  if um.writable iov.base n then none else some errFault

/-- user_iovec_to_membuf: gather at most `len` bytes from user iovecs. -/
def userIovecToMembuf (um : UserMem) (len iovUaddr iovCnt : Nat) : Int × List UInt8 :=
  if iovCnt = 0 ∨ len = 0 then (0, [])
  else
    let r := copySegments um.readAccess 0 len (um.iovecs iovUaddr iovCnt)
    (r.1, r.2.flatMap fun s => bytesAt um.byte s.1.base s.2)

/-- membuf_to_user_iovec: scatter the first `len` bytes of `buf`. -/
def membufToUserIovec (um : UserMem) (iovUaddr iovCnt : Nat) (buf : List UInt8) (len : Nat) :
    Int × List (Nat × List UInt8) :=
  if iovCnt = 0 ∨ len = 0 then (0, [])
  else
    let r := copySegments um.writeAccess 0 len (um.iovecs iovUaddr iovCnt)
    (r.1, scatter r.2 buf)

/-! ## What a copy should do -/

/-- The total length of an iovec list. -/
def totalLen (iovs : List Iovec) : Nat := (iovs.map Iovec.len).sum

/-- The bytes an iovec list names, in order. -/
def contents (mem : Nat → UInt8) (iovs : List Iovec) : List UInt8 :=
  iovs.flatMap fun v => bytesAt mem v.base v.len

/-- `data` laid into the iovecs in order, each taking as much as it holds;
nothing is written where nothing is left. -/
def fill : List Iovec → List UInt8 → List (Nat × List UInt8)
  | [], _ => []
  | v :: vs, d => if (d.take v.len).isEmpty then fill vs d else (v.base, d.take v.len) :: fill vs (d.drop v.len)

/-- The segments of a copy of `len` bytes that does not fail. -/
def cut : Nat → List Iovec → List (Iovec × Nat)
  | _, [] => []
  | len, v :: vs =>
    if min len v.len = 0 then cut len vs else (v, min len v.len) :: cut (len - min len v.len) vs

/-- The user iovec descriptors at `iovUaddr` are `iovs`. -/
def UserMem.HasIovecs (um : UserMem) (iovUaddr : Nat) (iovs : List Iovec) : Prop :=
  ∀ i (hi : i < iovs.length), um.iovAt ((iovUaddr + i * iovecUserSize) % 2 ^ 32) = some iovs[i]

@[simp] theorem totalLen_nil : totalLen [] = 0 := rfl
@[simp] theorem totalLen_cons (v : Iovec) (vs : List Iovec) :
    totalLen (v :: vs) = v.len + totalLen vs := by simp [totalLen]

@[simp] theorem contents_nil (mem : Nat → UInt8) : contents mem [] = [] := rfl
@[simp] theorem contents_cons (mem : Nat → UInt8) (v : Iovec) (vs : List Iovec) :
    contents mem (v :: vs) = bytesAt mem v.base v.len ++ contents mem vs := rfl

@[simp] theorem length_bytesAt (mem : Nat → UInt8) (a n : Nat) : (bytesAt mem a n).length = n := by
  simp [bytesAt]

@[simp] theorem bytesAt_zero (mem : Nat → UInt8) (a : Nat) : bytesAt mem a 0 = [] := rfl

theorem take_bytesAt (mem : Nat → UInt8) (a n k : Nat) :
    (bytesAt mem a n).take k = bytesAt mem a (min k n) := by
  simp [bytesAt, ← List.map_take, List.take_range]

theorem cut_zero (vs : List Iovec) : cut 0 vs = [] := by
  induction vs with
  | nil => rfl
  | cons v vs ih => simp [cut, ih]

theorem fill_nil_right (vs : List Iovec) : fill vs [] = [] := by
  induction vs with
  | nil => rfl
  | cons v vs ih => simp [fill, ih]

/-! ## The loop against the plan -/

section Loop

variable {access : Iovec → Nat → Option Int}

/-- The loop either copies the plan or fails, with the error of a copy it
could not make. -/
theorem copySegments_cases (copied len : Nat) (vs : List Iovec) :
    copySegments access copied len (vs.map .ok) = (((copied + min len (totalLen vs) : Nat) : Int), cut len vs) ∨
      ∃ v ∈ vs, ∃ n e, 0 < n ∧ n ≤ v.len ∧ access v n = some e ∧
        (copySegments access copied len (vs.map .ok)).1 = e := by
  induction vs generalizing copied len with
  | nil => simp [copySegments, cut]
  | cons v vs ih =>
    simp only [List.map_cons, copySegments, cut, totalLen_cons]
    by_cases h0 : min len v.len = 0
    · -- nothing to copy here: the loop moves on with the same `len`
      rw [if_pos h0, if_pos h0]
      rcases ih copied len with h | ⟨w, hw, n, e, hn, hnw, he, hr⟩
      · left
        rw [h]
        congr 2
        omega
      · exact .inr ⟨w, List.mem_cons_of_mem _ hw, n, e, hn, hnw, he, hr⟩
    rw [if_neg h0, if_neg h0]
    cases hacc : access v (min len v.len) with
    | some e => exact .inr ⟨v, List.mem_cons_self .., _, e, by omega, Nat.min_le_right .., hacc, rfl⟩
    | none =>
      simp only
      by_cases hlast : len - min len v.len = 0
      · -- `len` is used up within `v`: the rest of the plan is empty
        rw [if_pos hlast, hlast, cut_zero]
        left
        congr 2
        omega
      · rw [if_neg hlast]
        rcases ih (copied + min len v.len) (len - min len v.len) with h | ⟨w, hw, n, e, hn, hnw, he, hr⟩
        · left
          rw [h]
          congr 2
          omega
        · exact .inr ⟨w, List.mem_cons_of_mem _ hw, n, e, hn, hnw, he, hr⟩

/-- Where no copy fails, the loop copies the plan. -/
theorem copySegments_eq_cut (copied len : Nat) (vs : List Iovec)
    (hok : ∀ v ∈ vs, ∀ n, 0 < n → n ≤ v.len → access v n = none) :
    copySegments access copied len (vs.map .ok) = (((copied + min len (totalLen vs) : Nat) : Int), cut len vs) := by
  rcases copySegments_cases copied len vs with h | ⟨v, hv, n, e, hn, hnv, he, -⟩
  · exact h
  · rw [hok v hv n hn hnv] at he
    cases he

/-- A nonnegative status means that no copy failed. -/
theorem copySegments_of_nonneg (copied len : Nat) (vs : List Iovec)
    (hneg : ∀ v n e, access v n = some e → e < 0)
    (h : 0 ≤ (copySegments access copied len (vs.map .ok)).1) :
    copySegments access copied len (vs.map .ok) = (((copied + min len (totalLen vs) : Nat) : Int), cut len vs) := by
  rcases copySegments_cases copied len vs with hc | ⟨v, -, n, e, -, -, he, hr⟩
  · exact hc
  · have := hneg v n e he
    omega

/-- A nonnegative status is the number of bytes the segments hold. -/
theorem copySegments_ret (copied len : Nat) (es : List (Except Int Iovec))
    (hneg : ∀ v n e, access v n = some e → e < 0) (hes : ∀ e, Except.error e ∈ es → e < 0)
    (h : 0 ≤ (copySegments access copied len es).1) :
    (copySegments access copied len es).1 =
      ((copied + ((copySegments access copied len es).2.map (·.2)).sum : Nat) : Int) := by
  induction es generalizing copied len with
  | nil => simp [copySegments]
  | cons x es ih =>
    have hes' : ∀ e, Except.error e ∈ es → e < 0 := fun e he => hes e (List.mem_cons_of_mem _ he)
    cases x with
    | error e =>
      have := hes e List.mem_cons_self
      simp only [copySegments] at h
      omega
    | ok v =>
      simp only [copySegments] at h ⊢
      by_cases h0 : min len v.len = 0
      · rw [if_pos h0] at h ⊢
        exact ih copied len hes' h
      rw [if_neg h0] at h ⊢
      cases hacc : access v (min len v.len) with
      | some e =>
        have := hneg v _ e hacc
        rw [hacc] at h
        simp only at h
        omega
      | none =>
        rw [hacc] at h
        simp only at h ⊢
        by_cases hlast : len - min len v.len = 0
        · rw [if_pos hlast]
          simp
        · rw [if_neg hlast] at h ⊢
          simp only at h ⊢
          rw [ih _ _ hes' h]
          simp only [List.map_cons, List.sum_cons]
          omega

/-- A negative status is one of the errors the accesses or the entries give. -/
theorem copySegments_ret_mem (E : Int → Prop) (copied len : Nat) (es : List (Except Int Iovec))
    (hacc : ∀ v n e, access v n = some e → E e) (hes : ∀ e, Except.error e ∈ es → E e) :
    0 ≤ (copySegments access copied len es).1 ∨ E (copySegments access copied len es).1 := by
  induction es generalizing copied len with
  | nil => exact .inl (by simp [copySegments])
  | cons x es ih =>
    have hes' : ∀ e, Except.error e ∈ es → E e := fun e he => hes e (List.mem_cons_of_mem _ he)
    cases x with
    | error e => exact .inr (hes e List.mem_cons_self)
    | ok v =>
      simp only [copySegments]
      by_cases h0 : min len v.len = 0
      · rw [if_pos h0]
        exact ih copied len hes'
      rw [if_neg h0]
      cases hacc' : access v (min len v.len) with
      | some e => exact .inr (hacc v _ e hacc')
      | none =>
        simp only
        by_cases hlast : len - min len v.len = 0
        · rw [if_pos hlast]
          exact .inl (by simp only; omega)
        · rw [if_neg hlast]
          exact ih _ _ hes'

end Loop

/-- A gather of the plan reads the first `len` bytes of the iovecs. -/
theorem flatMap_cut (mem : Nat → UInt8) (len : Nat) (vs : List Iovec) :
    (cut len vs).flatMap (fun s => bytesAt mem s.1.base s.2) = (contents mem vs).take len := by
  induction vs generalizing len with
  | nil => simp [cut]
  | cons v vs ih =>
    simp only [cut, contents_cons, List.take_append, length_bytesAt, take_bytesAt]
    by_cases h0 : min len v.len = 0
    · rw [if_pos h0, ih]
      rcases Nat.eq_zero_or_pos len with hl | hl
      · simp [hl]
      · have hv : v.len = 0 := by omega
        simp [hv, bytesAt]
    · rw [if_neg h0, List.flatMap_cons, ih]
      congr 2
      omega

/-- A scatter of the plan lays the first `len` bytes of the buffer into the
iovecs in order. -/
theorem scatter_cut (len : Nat) (vs : List Iovec) (buf : List UInt8) (hlen : len ≤ buf.length) :
    scatter (cut len vs) buf = fill vs (buf.take len) := by
  induction vs generalizing len buf with
  | nil => simp [cut, scatter, fill]
  | cons v vs ih =>
    simp only [cut, fill, List.take_take]
    by_cases h0 : min len v.len = 0
    · rw [if_pos h0]
      rcases Nat.eq_zero_or_pos len with hl | hl
      · subst hl
        simp [cut_zero, scatter, fill_nil_right]
      · have hv : v.len = 0 := by omega
        simp [hv, ih len buf hlen]
    · rw [if_neg h0]
      have hne : ¬ (buf.take (min v.len len)).isEmpty := by
        rw [List.isEmpty_iff, ← List.length_eq_zero_iff, List.length_take]
        omega
      rw [if_neg hne, scatter, ih _ _ (by simp; omega), List.drop_take, Nat.min_comm v.len len]
      by_cases hle : v.len ≤ len
      · rw [Nat.min_eq_right hle]
      · -- `len` ends inside `v`: nothing is left for the rest
        have h1 : len - v.len = 0 := by omega
        have h2 : len - min len v.len = 0 := by omega
        rw [h1, h2, List.take_zero, List.take_zero]

/-- A fill writes the data, up to what the iovecs hold. -/
theorem flatMap_fill (vs : List Iovec) (d : List UInt8) :
    (fill vs d).flatMap (·.2) = d.take (totalLen vs) := by
  induction vs generalizing d with
  | nil => simp [fill]
  | cons v vs ih =>
    simp only [fill, totalLen_cons]
    by_cases he : (d.take v.len).isEmpty
    · rw [if_pos he, ih]
      rcases List.isEmpty_iff.mp he |> List.take_eq_nil_iff.mp with hv | hd
      · rw [hv, Nat.zero_add]
      · simp [hd]
    · rw [if_neg he, List.flatMap_cons, ih, List.take_add]

theorem length_gather (mem : Nat → UInt8) (segs : List (Iovec × Nat)) :
    (segs.flatMap fun s => bytesAt mem s.1.base s.2).length = (segs.map (·.2)).sum := by
  induction segs with
  | nil => rfl
  | cons s segs ih => simp [ih]

/-! ## The four helpers against the specification -/

theorem kernAccess_neg (v : Iovec) (n : Nat) (e : Int) (h : kernAccess v n = some e) : e < 0 := by
  unfold kernAccess at h
  split at h
  · cases h
    decide
  · cases h

theorem UserMem.readAccess_neg (um : UserMem) (v : Iovec) (n : Nat) (e : Int)
    (h : um.readAccess v n = some e) : e < 0 := by
  unfold UserMem.readAccess at h
  split at h
  · cases h
  · cases h
    decide

theorem UserMem.writeAccess_neg (um : UserMem) (v : Iovec) (n : Nat) (e : Int)
    (h : um.writeAccess v n = some e) : e < 0 := by
  unfold UserMem.writeAccess at h
  split at h
  · cases h
  · cases h
    decide

theorem UserMem.iovecs_eq (um : UserMem) (iovUaddr : Nat) (iovs : List Iovec)
    (h : um.HasIovecs iovUaddr iovs) : um.iovecs iovUaddr iovs.length = iovs.map .ok := by
  apply List.ext_getElem (by simp [UserMem.iovecs])
  intro i hi _
  simp only [UserMem.iovecs, List.getElem_map, List.getElem_range, UserMem.fetchIov]
  rw [h i (by simpa [UserMem.iovecs] using hi)]

/-- kern_iovec_to_membuf: a copy that succeeds gathers the first
`min len (totalLen iov)` bytes of the iovecs, and returns their number. -/
theorem kernIovecToMembuf_of_nonneg (mem : Nat → UInt8) (len : Nat) (iov : List Iovec)
    (h : 0 ≤ (kernIovecToMembuf mem len iov).1) :
    kernIovecToMembuf mem len iov = (((min len (totalLen iov) : Nat) : Int), (contents mem iov).take len) := by
  unfold kernIovecToMembuf at h ⊢
  by_cases h0 : iov.length = 0 ∨ len = 0
  · rw [if_pos h0]
    rcases h0 with h0 | h0
    · simp [List.length_eq_zero_iff.mp h0]
    · simp [h0]
  · rw [if_neg h0] at h ⊢
    rw [copySegments_of_nonneg 0 len iov kernAccess_neg h]
    dsimp only
    rw [flatMap_cut, Nat.zero_add]

/-- membuf_to_kern_iovec: a copy that succeeds lays the first
`min len (totalLen iov)` bytes of the buffer into the iovecs in order. -/
theorem membufToKernIovec_of_nonneg (iov : List Iovec) (buf : List UInt8) (len : Nat)
    (hlen : len ≤ buf.length) (h : 0 ≤ (membufToKernIovec iov buf len).1) :
    membufToKernIovec iov buf len = (((min len (totalLen iov) : Nat) : Int), fill iov (buf.take len)) := by
  unfold membufToKernIovec at h ⊢
  by_cases h0 : iov.length = 0 ∨ len = 0
  · rw [if_pos h0]
    rcases h0 with h0 | h0
    · simp [List.length_eq_zero_iff.mp h0, fill]
    · simp [h0, fill_nil_right]
  · rw [if_neg h0] at h ⊢
    rw [copySegments_of_nonneg 0 len iov kernAccess_neg h]
    dsimp only
    rw [scatter_cut len iov buf hlen, Nat.zero_add]

/-- user_iovec_to_membuf: a copy that succeeds gathers the first
`min len (totalLen iovs)` bytes of the user's iovecs. -/
theorem userIovecToMembuf_of_nonneg (um : UserMem) (len iovUaddr : Nat) (iovs : List Iovec)
    (hiov : um.HasIovecs iovUaddr iovs) (h : 0 ≤ (userIovecToMembuf um len iovUaddr iovs.length).1) :
    userIovecToMembuf um len iovUaddr iovs.length =
      (((min len (totalLen iovs) : Nat) : Int), (contents um.byte iovs).take len) := by
  unfold userIovecToMembuf at h ⊢
  by_cases h0 : iovs.length = 0 ∨ len = 0
  · rw [if_pos h0]
    rcases h0 with h0 | h0
    · simp [List.length_eq_zero_iff.mp h0]
    · simp [h0]
  · rw [if_neg h0] at h ⊢
    rw [um.iovecs_eq iovUaddr iovs hiov] at h ⊢
    rw [copySegments_of_nonneg 0 len iovs um.readAccess_neg h]
    dsimp only
    rw [flatMap_cut, Nat.zero_add]

/-- membuf_to_user_iovec: a copy that succeeds lays the first
`min len (totalLen iovs)` bytes of the buffer into the user's iovecs in order. -/
theorem membufToUserIovec_of_nonneg (um : UserMem) (iovUaddr : Nat) (iovs : List Iovec)
    (buf : List UInt8) (len : Nat) (hiov : um.HasIovecs iovUaddr iovs) (hlen : len ≤ buf.length)
    (h : 0 ≤ (membufToUserIovec um iovUaddr iovs.length buf len).1) :
    membufToUserIovec um iovUaddr iovs.length buf len =
      (((min len (totalLen iovs) : Nat) : Int), fill iovs (buf.take len)) := by
  unfold membufToUserIovec at h ⊢
  by_cases h0 : iovs.length = 0 ∨ len = 0
  · rw [if_pos h0]
    rcases h0 with h0 | h0
    · simp [List.length_eq_zero_iff.mp h0, fill]
    · simp [h0, fill_nil_right]
  · rw [if_neg h0] at h ⊢
    rw [um.iovecs_eq iovUaddr iovs hiov] at h ⊢
    rw [copySegments_of_nonneg 0 len iovs um.writeAccess_neg h]
    dsimp only
    rw [scatter_cut len iovs buf hlen, Nat.zero_add]

/-- A gather that succeeds returns the number of bytes it gathered. -/
theorem kernIovecToMembuf_ret (mem : Nat → UInt8) (len : Nat) (iov : List Iovec)
    (h : 0 ≤ (kernIovecToMembuf mem len iov).1) :
    (kernIovecToMembuf mem len iov).1 = (kernIovecToMembuf mem len iov).2.length := by
  unfold kernIovecToMembuf at h ⊢
  split
  · rfl
  · rename_i h0
    rw [if_neg h0] at h
    have hes : ∀ e, Except.error e ∈ iov.map (Except.ok : Iovec → Except Int Iovec) → e < 0 := by
      intro e he
      simp at he
    dsimp only at h ⊢
    rw [copySegments_ret 0 len _ kernAccess_neg hes h, length_gather, Nat.zero_add]

theorem userIovecToMembuf_ret (um : UserMem) (len iovUaddr iovCnt : Nat)
    (h : 0 ≤ (userIovecToMembuf um len iovUaddr iovCnt).1) :
    (userIovecToMembuf um len iovUaddr iovCnt).1 = (userIovecToMembuf um len iovUaddr iovCnt).2.length := by
  unfold userIovecToMembuf at h ⊢
  split
  · rfl
  · rename_i h0
    rw [if_neg h0] at h
    have hes : ∀ e, Except.error e ∈ um.iovecs iovUaddr iovCnt → e < 0 := by
      intro e he
      obtain ⟨i, -, hi⟩ := List.mem_map.mp he
      unfold UserMem.fetchIov at hi
      split at hi
      · cases hi
      · cases hi
        decide
    dsimp only at h ⊢
    rw [copySegments_ret 0 len _ um.readAccess_neg hes h, length_gather, Nat.zero_add]

/-- kern_iovec_to_membuf fails only at a NULL base. -/
theorem kernIovecToMembuf_ret_cases (mem : Nat → UInt8) (len : Nat) (iov : List Iovec) :
    0 ≤ (kernIovecToMembuf mem len iov).1 ∨ (kernIovecToMembuf mem len iov).1 = errInvalidArgs := by
  unfold kernIovecToMembuf
  split
  · exact .inl le_rfl
  · refine copySegments_ret_mem (· = errInvalidArgs) 0 len _ ?_ ?_
    · intro v n e he
      unfold kernAccess at he
      split at he
      · exact (Option.some.inj he).symm
      · cases he
    · intro e he
      simp at he

/-- user_iovec_to_membuf fails only on a fault. -/
theorem userIovecToMembuf_ret_cases (um : UserMem) (len iovUaddr iovCnt : Nat) :
    0 ≤ (userIovecToMembuf um len iovUaddr iovCnt).1 ∨
      (userIovecToMembuf um len iovUaddr iovCnt).1 = errFault := by
  unfold userIovecToMembuf
  split
  · exact .inl le_rfl
  · refine copySegments_ret_mem (· = errFault) 0 len _ ?_ ?_
    · intro v n e he
      unfold UserMem.readAccess at he
      split at he
      · cases he
      · exact (Option.some.inj he).symm
    · intro e he
      obtain ⟨i, -, hi⟩ := List.mem_map.mp he
      unfold UserMem.fetchIov at hi
      split at hi
      · cases hi
      · exact (Except.error.inj hi).symm

end Ipc
