import Mathlib

/-!
# `block_device_tipc.c`: the size of the RPMB partition

Without a static size, `block_device_tipc_init` asks `rpmb_search_size` how
many blocks the RPMB partition has.  The search reads single blocks: a binary
search between `low` (a `uint32_t`, the first block not known to read) and
`high` (a `uint16_t`, the last block not known to fail), where a probe that
reads back at the hint is followed by a probe of the next block.  `rpmb_check`
answers `0`, `-ENOENT` past the end of the partition, or another error; the
partition is a parameter, `check b` being its answer for block `b`, and a
partition whose readable blocks are `[0, N)` answers `sizeCheck N`.

The loop is a step function over its variables with their C types
(`searchStep`), run for a number of passes (`searchRun`).

* `rpmbSearchSize_exact`: for `1 ≤ N ≤ 65536` and any hint the search returns
  `N` within 34 passes of its loop, one probe each; any other error ends it
  with `0` at once.
* `rpmbSearchSize_empty_loops`: for `N = 0` every probe fails, `low` stays `0`,
  and the loop never ends: `high = curr - 1` at `curr = 0` wraps to `0xFFFF`
  and the search starts again.
-/

namespace BlockDeviceTipc

/-! ## The model -/

/-- `ENOENT`. -/
def enoent : Int := 2

/-- The variables of the loop of `rpmb_search_size`, with their C types. -/
structure SearchState where
  low : UInt32
  high : UInt16
  curr : UInt16
  hint : UInt16
  deriving DecidableEq, Repr

/-- Where `rpmb_search_size` is: in its loop, returned, or stopped by its
`assert`. -/
inductive Search
  | looping (st : SearchState)
  | returned (size : UInt32)
  | assertFailed
  deriving DecidableEq, Repr

/-- The `switch` on what `rpmb_check` answered for `curr`: `low` or `high`
moved past it, or `none` for the `return 0` of any other error. -/
def probe (st : SearchState) (ret : Int) : Option SearchState :=
  if ret = 0 then some { st with low := st.curr.toUInt32 + 1 }
  else if ret = -enoent then some { st with high := st.curr - 1 }
  else none

/-- The next block to probe: the middle of `[low, high]`, which becomes the
hint, after a failed probe or one off the hint; the block after the hint when
the hint read back. -/
def nextCurr (st : SearchState) (ret : Int) : SearchState :=
  if ret ≠ 0 ∨ st.curr ≠ st.hint then
    let curr := (st.low + (st.high.toUInt32 - st.low) / 2).toUInt16
    { st with curr := curr, hint := curr }
  else { st with curr := st.curr + 1 }

/-- One pass of the loop, `check b` being what `rpmb_check` answers for block
`b`; past the loop, its `assert` and `return low`. -/
def searchStep (check : UInt16 → Int) (st : SearchState) : Search :=
  if st.low ≤ st.high.toUInt32 then
    match probe st (check st.curr) with
    | none => .returned 0
    | some st' => .looping (nextCurr st' (check st.curr))
  else if st.high.toUInt32 + 1 = st.low then .returned st.low
  else .assertFailed

/-- `n` passes of the loop. -/
def searchRun (check : UInt16 → Int) : Nat → Search → Search
  | n + 1, .looping st => searchRun check n (searchStep check st)
  | _, s => s

/-- `rpmb_search_size(state, hint)` after `n` passes of its loop. -/
def rpmbSearchSize (check : UInt16 → Int) (hint : UInt16) (n : Nat) : Search :=
  searchRun check n (.looping ⟨0, ~~~0, hint - 1, hint⟩)

/-- What `rpmb_check` answers on a partition whose readable blocks are
`[0, N)`. -/
def sizeCheck (N : Nat) (b : UInt16) : Int := if b.toNat < N then 0 else -enoent

/-! ## Runs -/

section Run

variable {check : UInt16 → Int}

@[simp] theorem searchRun_looping (n : Nat) (st : SearchState) :
    searchRun check (n + 1) (.looping st) = searchRun check n (searchStep check st) := rfl

@[simp] theorem searchRun_returned (n : Nat) (r : UInt32) :
    searchRun check n (.returned r) = .returned r := by
  cases n <;> rfl

end Run

/-! ## The loop's arithmetic, in `Nat` -/

section Arith

theorem toNat_toUInt32_add_one (c : UInt16) : (c.toUInt32 + 1).toNat = c.toNat + 1 := by
  have := c.toNat_lt
  simp only [UInt32.toNat_add, UInt16.toNat_toUInt32, UInt32.toNat_one]
  omega

theorem toNat_sub_one (c : UInt16) (h : 1 ≤ c.toNat) : (c - 1).toNat = c.toNat - 1 := by
  rw [UInt16.toNat_sub_of_le]
  · rfl
  · rw [UInt16.le_iff_toNat_le]
    simpa using h

theorem toNat_add_one (c : UInt16) (h : c.toNat < 65535) : (c + 1).toNat = c.toNat + 1 := by
  rw [UInt16.toNat_add]
  simp only [UInt16.toNat_one]
  omega

/-- The middle of `[low, high]` as the C code computes it, in `uint32_t` and
cut to `uint16_t`. -/
theorem toNat_mid (low : UInt32) (high : UInt16) (h : low.toNat ≤ high.toNat) :
    ((low + (high.toUInt32 - low) / 2).toUInt16).toNat = low.toNat + (high.toNat - low.toNat) / 2 := by
  have hh := high.toNat_lt
  have hsub : (high.toUInt32 - low).toNat = high.toNat - low.toNat := by
    rw [UInt32.toNat_sub_of_le]
    · simp
    · rw [UInt32.le_iff_toNat_le]
      simpa using h
  rw [UInt32.toNat_toUInt16, UInt32.toNat_add, UInt32.toNat_div, hsub]
  simp only [UInt32.toNat_ofNat, Nat.reduceMod, Nat.reducePow]
  omega

theorem low_le_high_iff (st : SearchState) :
    st.low ≤ st.high.toUInt32 ↔ st.low.toNat ≤ st.high.toNat := by
  simp [UInt32.le_iff_toNat_le]

end Arith

/-! ## A partition of `N` blocks -/

/-- The search brackets the size: every block below `low` reads, every block
above `high` does not. -/
structure Brackets (N : Nat) (st : SearchState) : Prop where
  low_le : st.low.toNat ≤ N
  le_high : N ≤ st.high.toNat + 1

/-- The number of blocks in `[low, high]`. -/
def SearchState.width (st : SearchState) : Nat := st.high.toNat + 1 - st.low.toNat

/-- The next probe is the middle of `[low, high]`, which is also the hint. -/
def SearchState.AtMid (st : SearchState) : Prop :=
  st.low.toNat ≤ st.high.toNat →
    st.curr.toNat = st.low.toNat + (st.high.toNat - st.low.toNat) / 2 ∧ st.hint = st.curr

/-- The next probe is in `[low, high]` and off the hint. -/
def SearchState.OffHint (st : SearchState) : Prop :=
  st.low.toNat ≤ st.high.toNat →
    st.low.toNat ≤ st.curr.toNat ∧ st.curr.toNat ≤ st.high.toNat ∧ st.curr ≠ st.hint

section Size

variable {N : Nat} {st : SearchState}

/-- Past the loop `low = high + 1`, which brackets `N`: the `assert` holds and
the search returns `N`. -/
theorem searchStep_exit (hb : Brackets N st) (h : ¬ st.low.toNat ≤ st.high.toNat)
    (check : UInt16 → Int) : searchStep check st = .returned (UInt32.ofNat N) := by
  have hlow : st.low.toNat = N := by have := hb.low_le; have := hb.le_high; omega
  have hsum : st.high.toUInt32 + 1 = st.low := by
    rw [← UInt32.toNat_inj, UInt32.toNat_add, UInt16.toNat_toUInt32, UInt32.toNat_one]
    have := st.high.toNat_lt
    have := hb.le_high
    omega
  rw [searchStep, if_neg (by rwa [low_le_high_iff]), if_pos hsum]
  congr
  rw [← UInt32.toNat_inj, UInt32.toNat_ofNat', hlow]
  have := st.high.toNat_lt
  have := hb.le_high
  omega

/-- A probe moves `low` above it if it reads and `high` below it if not: the
new state still brackets `N`. -/
theorem probe_sizeCheck (hN : 1 ≤ N) (hb : Brackets N st) :
    ∃ st', probe st (sizeCheck N st.curr) = some st' ∧ Brackets N st' ∧
      st'.curr = st.curr ∧ st'.hint = st.hint ∧
      (st.curr.toNat < N → st'.low.toNat = st.curr.toNat + 1 ∧ st'.high = st.high) ∧
      (N ≤ st.curr.toNat → st'.low = st.low ∧ st'.high.toNat + 1 = st.curr.toNat) := by
  by_cases hc : st.curr.toNat < N
  · -- the block reads: `low = curr + 1`
    refine ⟨{ st with low := st.curr.toUInt32 + 1 }, ?_, ?_, rfl, rfl, fun _ => ?_, fun h => ?_⟩
    · simp [probe, sizeCheck, hc]
    · refine ⟨?_, hb.le_high⟩
      show (st.curr.toUInt32 + 1).toNat ≤ N
      rw [toNat_toUInt32_add_one]
      omega
    · exact ⟨toNat_toUInt32_add_one _, rfl⟩
    · omega
  · -- past the end: `high = curr - 1`, with no wrap since block `0` reads
    have hpos : 1 ≤ st.curr.toNat := by omega
    refine ⟨{ st with high := st.curr - 1 }, ?_, ?_, rfl, rfl, fun h => ?_, fun _ => ?_⟩
    · simp [probe, sizeCheck, hc, enoent]
    · refine ⟨hb.low_le, ?_⟩
      show N ≤ (st.curr - 1).toNat + 1
      rw [toNat_sub_one _ hpos]
      omega
    · omega
    · exact ⟨rfl, by show (st.curr - 1).toNat + 1 = _; rw [toNat_sub_one _ hpos]; omega⟩

/-- After a probe that failed or was off the hint, the next probe is the
middle. -/
theorem nextCurr_atMid (st : SearchState) (ret : Int) (h : ret ≠ 0 ∨ st.curr ≠ st.hint) :
    (nextCurr st ret).AtMid := by
  rw [nextCurr, if_pos h]
  intro hle
  exact ⟨toNat_mid _ _ hle, rfl⟩

@[simp] theorem nextCurr_low (st : SearchState) (ret : Int) : (nextCurr st ret).low = st.low := by
  unfold nextCurr
  split_ifs <;> rfl

@[simp] theorem nextCurr_high (st : SearchState) (ret : Int) : (nextCurr st ret).high = st.high := by
  unfold nextCurr
  split_ifs <;> rfl

theorem width_nextCurr (st : SearchState) (ret : Int) : (nextCurr st ret).width = st.width := by
  simp [SearchState.width]

theorem Brackets.nextCurr (h : Brackets N st) (ret : Int) : Brackets N (nextCurr st ret) :=
  ⟨by simpa using h.low_le, by simpa using h.le_high⟩

/-- A probe off the hint: the next state brackets `N`, probes the middle, and
is narrower. -/
theorem searchStep_offHint (hN : 1 ≤ N) (hb : Brackets N st) (hle : st.low.toNat ≤ st.high.toNat)
    (hoff : st.OffHint) :
    ∃ st', searchStep (sizeCheck N) st = .looping st' ∧ Brackets N st' ∧ st'.AtMid ∧
      st'.width + 1 ≤ st.width := by
  obtain ⟨hlo, hhi, hne⟩ := hoff hle
  obtain ⟨st₁, hp, hb₁, hcurr, hhint, hread, hfail⟩ := probe_sizeCheck hN hb
  refine ⟨nextCurr st₁ (sizeCheck N st.curr), ?_, hb₁.nextCurr _, nextCurr_atMid _ _ ?_, ?_⟩
  · rw [searchStep, if_pos (by rwa [low_le_high_iff]), hp]
  · exact .inr (by rw [hcurr, hhint]; exact hne)
  · rw [width_nextCurr]
    simp only [SearchState.width]
    by_cases hc : st.curr.toNat < N
    · obtain ⟨h1, h2⟩ := hread hc
      rw [h1, h2]
      omega
    · obtain ⟨h1, h2⟩ := hfail (by omega)
      rw [h1]
      omega

/-- A probe of the middle halves `[low, high]`.  If the middle reads, the
next probe is the block after it, off the new hint; otherwise the middle of
what is left. -/
theorem searchStep_atMid (hN : 1 ≤ N) (hb : Brackets N st) (hle : st.low.toNat ≤ st.high.toNat)
    (hmid : st.AtMid) :
    ∃ st', searchStep (sizeCheck N) st = .looping st' ∧ Brackets N st' ∧
      st'.width ≤ st.width / 2 ∧ (st'.AtMid ∨ st'.OffHint) := by
  obtain ⟨hcurr, hhint⟩ := hmid hle
  obtain ⟨st₁, hp, hb₁, hcurr₁, hhint₁, hread, hfail⟩ := probe_sizeCheck hN hb
  have hstep : searchStep (sizeCheck N) st = .looping (nextCurr st₁ (sizeCheck N st.curr)) := by
    rw [searchStep, if_pos (by rwa [low_le_high_iff]), hp]
  by_cases hc : st.curr.toNat < N
  · -- the middle reads and was the hint: the next probe is the block after it
    obtain ⟨hlow₁, hhigh₁⟩ := hread hc
    have h0 : sizeCheck N st.curr = 0 := by simp [sizeCheck, hc]
    have hnext : nextCurr st₁ (sizeCheck N st.curr) = { st₁ with curr := st₁.curr + 1 } := by
      rw [h0, nextCurr, if_neg (by rw [hcurr₁, hhint₁, hhint]; simp)]
    refine ⟨_, hstep, hnext ▸ ⟨hb₁.low_le, hb₁.le_high⟩, ?_, .inr ?_⟩
    · rw [hnext]
      simp only [SearchState.width, hlow₁, hhigh₁]
      omega
    · rw [hnext]
      intro hle'
      simp only [hlow₁, hhigh₁] at hle' ⊢
      have hc1 : (st₁.curr + 1).toNat = st.curr.toNat + 1 := by
        rw [hcurr₁, toNat_add_one _ (by have := st.high.toNat_lt; omega)]
      refine ⟨by rw [hc1], by rw [hc1]; omega, ?_⟩
      show st₁.curr + 1 ≠ st₁.hint
      rw [hcurr₁, hhint₁, hhint]
      intro heq
      have := congrArg UInt16.toNat heq
      rw [toNat_add_one _ (by have := st.high.toNat_lt; omega)] at this
      omega
  · -- the middle fails: the next probe is the middle of the lower half
    obtain ⟨hlow₁, hhigh₁⟩ := hfail (by omega)
    have hne : sizeCheck N st.curr ≠ 0 := by simp [sizeCheck, hc, enoent]
    refine ⟨_, hstep, hb₁.nextCurr _, ?_, .inl (nextCurr_atMid _ _ (.inl hne))⟩
    rw [width_nextCurr]
    simp only [SearchState.width, hlow₁]
    omega

/-- From a state that probes the middle (or off the hint, one pass more) of
fewer than `2 ^ k` blocks, the search returns `N` within `2 k + 1` passes. -/
theorem searchRun_width (hN : 1 ≤ N) (k : Nat) :
    (∀ st, Brackets N st → st.AtMid → st.width < 2 ^ k →
      ∀ n, 2 * k + 1 ≤ n → searchRun (sizeCheck N) n (.looping st) = .returned (UInt32.ofNat N)) ∧
    (∀ st, Brackets N st → st.OffHint → st.width < 2 ^ k →
      ∀ n, 2 * k + 2 ≤ n → searchRun (sizeCheck N) n (.looping st) = .returned (UInt32.ofNat N)) := by
  -- a state past the loop returns at the next pass, whatever its mode
  have hexit : ∀ st, Brackets N st → ¬ st.low.toNat ≤ st.high.toNat → ∀ n, 1 ≤ n →
      searchRun (sizeCheck N) n (.looping st) = .returned (UInt32.ofNat N) := by
    intro st hb h n hn
    obtain ⟨n, rfl⟩ : ∃ n', n = n' + 1 := ⟨n - 1, by omega⟩
    rw [searchRun_looping, searchStep_exit hb h, searchRun_returned]
  -- the off-hint case at `k` follows from the middle case at `k`
  have hoff : ∀ k, (∀ st, Brackets N st → st.AtMid → st.width < 2 ^ k →
      ∀ n, 2 * k + 1 ≤ n → searchRun (sizeCheck N) n (.looping st) = .returned (UInt32.ofNat N)) →
      ∀ st, Brackets N st → st.OffHint → st.width < 2 ^ k →
      ∀ n, 2 * k + 2 ≤ n → searchRun (sizeCheck N) n (.looping st) = .returned (UInt32.ofNat N) := by
    intro k hmid st hb ho hw n hn
    by_cases hle : st.low.toNat ≤ st.high.toNat
    · obtain ⟨st', hstep, hb', hmid', hw'⟩ := searchStep_offHint hN hb hle ho
      obtain ⟨n, rfl⟩ : ∃ n', n = n' + 1 := ⟨n - 1, by omega⟩
      rw [searchRun_looping, hstep]
      exact hmid st' hb' hmid' (by omega) n (by omega)
    · exact hexit st hb hle n (by omega)
  induction k with
  | zero =>
    have hmid : ∀ st, Brackets N st → st.AtMid → st.width < 2 ^ 0 →
        ∀ n, 2 * 0 + 1 ≤ n → searchRun (sizeCheck N) n (.looping st) = .returned (UInt32.ofNat N) := by
      intro st hb _ hw n hn
      exact hexit st hb (by simp only [SearchState.width, pow_zero] at hw; omega) n hn
    exact ⟨hmid, hoff 0 hmid⟩
  | succ k ih =>
    have hmid : ∀ st, Brackets N st → st.AtMid → st.width < 2 ^ (k + 1) →
        ∀ n, 2 * (k + 1) + 1 ≤ n →
          searchRun (sizeCheck N) n (.looping st) = .returned (UInt32.ofNat N) := by
      intro st hb hm hw n hn
      by_cases hle : st.low.toNat ≤ st.high.toNat
      · obtain ⟨st', hstep, hb', hw', hmode⟩ := searchStep_atMid hN hb hle hm
        have hhalf : st'.width < 2 ^ k := by rw [pow_succ] at hw; omega
        obtain ⟨n, rfl⟩ : ∃ n', n = n' + 1 := ⟨n - 1, by omega⟩
        rw [searchRun_looping, hstep]
        rcases hmode with hm' | ho'
        · exact ih.1 st' hb' hm' hhalf n (by omega)
        · exact ih.2 st' hb' ho' hhalf n (by omega)
      · exact hexit st hb hle n (by omega)
    exact ⟨hmid, hoff (k + 1) hmid⟩

end Size

/-- On a partition of `1 ≤ N ≤ 65536` blocks, `rpmb_search_size` returns `N`
for any hint, within 34 passes of its loop (33 probes); on a partition that
answers a probe with another error, the pass of that probe returns `0`. -/
theorem rpmbSearchSize_exact (N : Nat) (hN : 1 ≤ N) (hN' : N ≤ 65536) (hint : UInt16) :
    (∀ n, 34 ≤ n → rpmbSearchSize (sizeCheck N) hint n = .returned (UInt32.ofNat N)) ∧
    (∀ (check : UInt16 → Int) (st : SearchState), st.low ≤ st.high.toUInt32 →
      check st.curr ≠ 0 → check st.curr ≠ -enoent → searchStep check st = .returned 0) := by
  refine ⟨fun n hn => ?_, fun check st hle h0 he => ?_⟩
  · -- the first probe is off the hint, anywhere in `[0, 0xFFFF]`
    have hb : Brackets N ⟨0, ~~~0, hint - 1, hint⟩ := ⟨by simp, by simp; omega⟩
    have ho : SearchState.OffHint ⟨0, ~~~0, hint - 1, hint⟩ := by
      intro _
      refine ⟨by simp, by have := (hint - 1).toNat_lt; simp; omega, ?_⟩
      show hint - 1 ≠ hint
      intro heq
      have := congrArg (· + 1) heq
      simp at this
    obtain ⟨st', hstep, hb', hm', hw'⟩ := searchStep_offHint hN hb (by simp) ho
    obtain ⟨n, rfl⟩ : ∃ n', n = n' + 1 := ⟨n - 1, by omega⟩
    rw [rpmbSearchSize, searchRun_looping, hstep]
    exact (searchRun_width hN 16).1 st' hb' hm' (by simp [SearchState.width] at hw' ⊢; omega) n
      (by omega)
  · rw [searchStep, if_pos hle]
    simp [probe, h0, he]

theorem rpmbSearchSize_exact_hundred : rpmbSearchSize (sizeCheck 100) 0 34 = .returned 100 :=
  (rpmbSearchSize_exact 100 (by decide) (by decide) 0).1 34 le_rfl

/-- On a partition with no readable block every probe fails, so `low` stays
`0`, below any `high`, and after any number of passes the search is still in
its loop. -/
theorem rpmbSearchSize_empty_loops (hint : UInt16) (n : Nat) :
    ∃ st, rpmbSearchSize (sizeCheck 0) hint n = .looping st := by
  -- the loop keeps `low = 0`
  have hstep : ∀ st : SearchState, st.low = 0 →
      ∃ st', searchStep (sizeCheck 0) st = .looping st' ∧ st'.low = 0 := by
    intro st hlow
    have hle : st.low ≤ st.high.toUInt32 := by rw [hlow]; exact UInt32.zero_le
    refine ⟨nextCurr { st with high := st.curr - 1 } (-enoent), ?_, ?_⟩
    · simp [searchStep, hle, probe, sizeCheck, enoent]
    · rw [nextCurr_low]
      exact hlow
  have hrun : ∀ n (st : SearchState), st.low = 0 →
      ∃ st', searchRun (sizeCheck 0) n (.looping st) = .looping st' := by
    intro n
    induction n with
    | zero => intro st _; exact ⟨st, rfl⟩
    | succ n ih =>
      intro st hlow
      obtain ⟨st', hs, hlow'⟩ := hstep st hlow
      rw [searchRun_looping, hs]
      exact ih st' hlow'
  exact hrun n _ rfl

end BlockDeviceTipc
