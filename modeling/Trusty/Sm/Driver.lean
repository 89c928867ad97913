import Trusty.Sm.StdCallSpec

/-!
# A standard call from the Linux driver, end to end

`trusty_std_call32` (Linux `drivers/trusty/trusty.c`) makes one standard
call under `smc_lock`, so no other standard call but `SMC_SC_NOP` is made
while it runs.  It answers `SM_ERR_FIQ_INTERRUPTED` with
`SMC_SC_RESTART_FIQ` (the inner loop of `trusty_std_call_inner`), makes the
SMC again on `SM_ERR_BUSY` (`trusty_std_call_inner`,
`trusty_std_call_helper`), answers `SM_ERR_INTERRUPTED` and `SM_ERR_CPU_IDLE`
with `SMC_SC_RESTART_LAST`, and returns any other value.  Interrupts are off
from an SMC until it returns, so each SMC stays on one CPU.

`System` is the secure side with the driver's call and, on the other CPUs,
any number of NOPs; a return on the CPU the driver waits on is the driver's.
`stdCall32_returns`: when the driver returns `r`, its call was taken once,
its handler run once on its arguments and returned `r`, and `r` delivered
once, provided `r` is not one of the codes the driver reads as a request to
call again.  A handler result equal to such a code is answered by a second
call: `trusty_std_call32` cannot tell `ERR_NO_MEMORY` from `SM_ERR_BUSY`, nor
`ERR_NOT_BLOCKED` from `SM_ERR_FIQ_INTERRUPTED`, and `sm_queue_stdcall` takes
the `SMC_SC_RESTART_FIQ` that follows a delivered result for a new call.

The retry counter and the sleeps of the busy loops only pace the retries and
are left out.  The secure side modelled here has no FIQ (`sm_handle_fiq`), so
a `SM_ERR_FIQ_INTERRUPTED` reaches the driver only as a handler's result.
-/

namespace Sm

/-- `ERR_NO_MEMORY` of lk's `err.h`. -/
def errNoMemory : Int := -5

/-- `ERR_NOT_BLOCKED` of lk's `err.h`. -/
def errNotBlocked : Int := -12

/-- `SM_ERR_FIQ_INTERRUPTED`: call back with `SMC_SC_RESTART_FIQ` on the same
CPU. -/
def smErrFiqInterrupted : Int := -12

/-- `SMC_SC_RESTART_FIQ`. -/
def smcScRestartFiq : Nat := smcStdcallNr smcEntitySecureMonitor 2

/-- `SMC_ENTITY_TRUSTED_OS`. -/
def smcEntityTrustedOs : Nat := 50

/-- `SMC_SC_VIRTIO_START`. -/
def smcScVirtioStart : Nat := smcStdcallNr smcEntityTrustedOs 21

/-- `SMC_SC_RESTART_LAST` as `trusty_std_call32` makes it. -/
def restartLastArgs : Smc32Args := ⟨smcScRestartLast, [0, 0, 0]⟩

/-- `SMC_SC_RESTART_FIQ` as `trusty_std_call_inner` makes it. -/
def restartFiqArgs : Smc32Args := ⟨smcScRestartFiq, [0, 0, 0]⟩

/-- `SMC_SC_NOP` as the driver's NOP work makes it. -/
def nopArgs : Smc32Args := ⟨smcScNop, [0, 0, 0]⟩

/-- Where `trusty_std_call32` is: in `trusty_std_call_helper` for `nr` (the
call itself, or `SMC_SC_RESTART_LAST`), at the SMC `nr` or, when `fiq`, at
`SMC_SC_RESTART_FIQ` in the inner loop of `trusty_std_call_inner`; or
returned. -/
inductive Driver where
  /-- About to make the SMC. -/
  | issue (nr : Smc32Args) (fiq : Bool)
  /-- The SMC is in the secure world on `cpu`. -/
  | wait (nr : Smc32Args) (fiq : Bool) (cpu : Nat)
  /-- Returned `ret`. -/
  | returned (ret : Int)
  deriving DecidableEq, Repr

/-- The SMC the driver makes in the helper for `nr`. -/
def smcArgs (nr : Smc32Args) (fiq : Bool) : Smc32Args :=
  if fiq then restartFiqArgs else nr

@[simp] theorem smcArgs_false (nr : Smc32Args) : smcArgs nr false = nr := rfl

/-- What `trusty_std_call32` does next with `ret`, the value an SMC of the
helper for `nr` returned.  After `SMC_SC_RESTART_FIQ` too, `SM_ERR_BUSY`
sends `trusty_std_call_inner` back to `nr`. -/
def stdCallNext (nr : Smc32Args) (ret : Int) : Driver :=
  if ret = smErrFiqInterrupted then .issue nr true
  else if ret = smErrBusy then .issue nr false
  else if ret = smErrInterrupted ∨ ret = smErrCpuIdle then .issue restartLastArgs false
  else .returned ret

/-- The value a step returned to the non-secure world on `cpu`, if any. -/
def returnedOn (cpu : Nat) : List Event → Option Int
  | [] => none
  | .deliver c r :: o => if c = cpu then some r else returnedOn cpu o
  | .ret c r :: o => if c = cpu then some r else returnedOn cpu o
  | _ :: o => returnedOn cpu o

/-- The driver, if it waits on a CPU, takes what returned there. -/
def Driver.take (d : Driver) (o : List Event) : Driver :=
  match d with
  | .wait nr _ cpu =>
    match returnedOn cpu o with
    | some r => stdCallNext nr r
    | none => d
  | d => d

/-- The secure side and the driver's call. -/
structure System where
  machine : Machine
  driver : Driver

/-- What can happen next. -/
inductive SysAction where
  /-- The driver makes its SMC on `cpu`. -/
  | call (cpu : Nat)
  /-- Another thread makes `SMC_SC_NOP` on `cpu`. -/
  | nop (cpu : Nat)
  /-- The secure side moves, or an interrupt comes. -/
  | secure (a : Action)
  deriving DecidableEq, Repr

/-- One step of the system.  The non-secure side makes no SMC but the
driver's and NOPs. -/
def System.step (v : Nat) (s : System) : SysAction → Option (System × List Event)
  | .call cpu =>
    match s.driver with
    | .issue nr fiq =>
      (s.machine.smc cpu (smcArgs nr fiq)).map fun r => (⟨r.1, (Driver.wait nr fiq cpu).take r.2⟩, r.2)
    | _ => none
  | .nop cpu => (s.machine.smc cpu nopArgs).map fun r => (⟨r.1, s.driver.take r.2⟩, r.2)
  | .secure a =>
    match a with
    | .smc _ _ => none
    | a => (s.machine.step v a).map fun r => (⟨r.1, s.driver.take r.2⟩, r.2)

/-! ### The driver's view of a step -/

@[simp] theorem returnedOn_nil (cpu : Nat) : returnedOn cpu [] = none := rfl

theorem returnedOn_ret (c cpu : Nat) (x : Int) :
    returnedOn cpu [.ret c x] = if c = cpu then some x else none := by
  simp [returnedOn]

theorem returnedOn_deliver (c cpu : Nat) (x : Int) :
    returnedOn cpu [.deliver c x] = if c = cpu then some x else none := by
  simp [returnedOn]

@[simp] theorem returnedOn_accept (cpu : Nat) (a : Smc32Args) :
    returnedOn cpu [.accept a] = none := rfl

@[simp] theorem returnedOn_start (cpu : Nat) (a : Smc32Args) :
    returnedOn cpu [.start a] = none := rfl

@[simp] theorem returnedOn_finish (cpu : Nat) (r : Int) :
    returnedOn cpu [.finish r] = none := rfl

theorem Driver.take_of_none {d : Driver} {o : List Event}
    (h : ∀ nr fiq cpu, d = .wait nr fiq cpu → returnedOn cpu o = none) : d.take o = d := by
  cases d with
  | wait nr fiq cpu => simp [Driver.take, h nr fiq cpu rfl]
  | issue nr fiq => rfl
  | returned r => rfl

@[simp] theorem Driver.take_nil (d : Driver) : d.take [] = d :=
  Driver.take_of_none fun _ _ _ _ => rfl

variable {v : Nat} {s s' : System} {o : List Event} {cpu : Nat}

theorem System.step_call (hs : s.step v (.call cpu) = some (s', o)) :
    ∃ nr fiq m', s.driver = .issue nr fiq ∧ s.machine.smc cpu (smcArgs nr fiq) = some (m', o) ∧
      s' = ⟨m', (Driver.wait nr fiq cpu).take o⟩ := by
  cases hd : s.driver with
  | issue nr fiq =>
    simp only [System.step, hd, Option.map_eq_some_iff] at hs
    obtain ⟨⟨m', o'⟩, hr, heq⟩ := hs
    cases heq
    exact ⟨nr, fiq, m', rfl, hr, rfl⟩
  | wait nr fiq cpu' => simp [System.step, hd] at hs
  | returned r => simp [System.step, hd] at hs

theorem System.step_nop (hs : s.step v (.nop cpu) = some (s', o)) :
    ∃ m', s.machine.smc cpu nopArgs = some (m', o) ∧ s' = ⟨m', s.driver.take o⟩ := by
  simp only [System.step, Option.map_eq_some_iff] at hs
  obtain ⟨⟨m', o'⟩, hr, heq⟩ := hs
  cases heq
  exact ⟨m', hr, rfl⟩

theorem System.step_secure {b : Action} (hs : s.step v (.secure b) = some (s', o)) :
    ∃ m', s.machine.step v b = some (m', o) ∧ s' = ⟨m', s.driver.take o⟩ := by
  cases b
  case smc => simp [System.step] at hs
  all_goals
    simp only [System.step, Option.map_eq_some_iff] at hs
    obtain ⟨⟨m', o'⟩, hr, heq⟩ := hs
    cases heq
    exact ⟨m', hr, rfl⟩

/-- Every step of the system is a step of the secure side. -/
theorem System.step_machine {a : SysAction} (hs : s.step v a = some (s', o)) :
    ∃ b, s.machine.step v b = some (s'.machine, o) := by
  cases a with
  | call cpu =>
    obtain ⟨nr, fiq, m', -, hm, rfl⟩ := System.step_call hs
    exact ⟨.smc cpu (smcArgs nr fiq), hm⟩
  | nop cpu =>
    obtain ⟨m', hm, rfl⟩ := System.step_nop hs
    exact ⟨.smc cpu nopArgs, hm⟩
  | secure b =>
    obtain ⟨m', hm, rfl⟩ := System.step_secure hs
    exact ⟨b, hm⟩

/-! ### Where the driver's call is -/

/-- A value the driver cannot take for a request to call again. -/
def Unambiguous (r : Int) : Prop :=
  r ≠ smErrBusy ∧ r ≠ smErrInterrupted ∧ r ≠ smErrCpuIdle ∧ r ≠ smErrFiqInterrupted

theorem stdCallNext_unambiguous {nr : Smc32Args} {r : Int} (h : Unambiguous r) :
    stdCallNext nr r = .returned r := by
  obtain ⟨hbusy, hint, hidle, hfiq⟩ := h
  simp [stdCallNext, hbusy, hint, hidle, hfiq]

/-- What the driver does after being asked to come back. -/
theorem stdCallNext_again {nr : Smc32Args} {r : Int}
    (h : r = smErrInterrupted ∨ r = smErrCpuIdle ∨ (r = smErrBusy ∧ nr = restartLastArgs)) :
    stdCallNext nr r = .issue restartLastArgs false := by
  rcases h with rfl | rfl | ⟨rfl, rfl⟩ <;>
    simp [stdCallNext, smErrBusy, smErrInterrupted, smErrCpuIdle, smErrFiqInterrupted]

/-- The driver's call `args` is in progress on the secure side, which has
recorded `l` of it. -/
def InCall (args : Smc32Args) (m : Machine) (l : List Event) : Prop :=
  ¬ m.state.Free ∧ m.state.args = args ∧ l = current m.state m.loop

/-- Where the driver's call `args` is, against the secure side `m` and the
lifecycle `l` of all that happened since the driver started. -/
def Tracks (args : Smc32Args) (m : Machine) (l : List Event) : Driver → Prop
  | .issue nr false =>
    (nr = args ∧ m.state.Free ∧ l = []) ∨
    (nr = restartLastArgs ∧ m.state.activeCpu = -1 ∧ InCall args m l)
  | .wait nr false cpu =>
    ((nr = args ∧ m.state.restartCount = 0) ∨ nr = restartLastArgs) ∧
      m.mode cpu ≠ .nonsecure ∧ m.state.activeCpu = cpu ∧ InCall args m l
  | .returned r => m.state.Free ∧ ∃ cpu, l = block args r cpu
  -- no return the driver takes is `SM_ERR_FIQ_INTERRUPTED`
  | _ => False

variable {args : Smc32Args} {m m' : Machine} {out l l' : List Event} {d : Driver}

theorem Tracks.issue_fiq {nr : Smc32Args} {fiq : Bool} (ht : Tracks args m l (.issue nr fiq)) :
    fiq = false := by
  cases fiq
  · rfl
  · exact ht.elim

theorem Tracks.wait_fiq {nr : Smc32Args} {fiq : Bool} (ht : Tracks args m l (.wait nr fiq cpu)) :
    fiq = false := by
  cases fiq
  · rfl
  · exact ht.elim

theorem InCall.congr (h : InCall args m l) (hsig : m'.state.signalled = m.state.signalled)
    (hdone : m'.state.done = m.state.done) (hargs : m'.state.args = m.state.args)
    (hret : m'.state.ret = m.state.ret) (hloop : m'.loop = m.loop) : InCall args m' l := by
  obtain ⟨hf, ha, hl⟩ := h
  refine ⟨?_, hargs.trans ha, ?_⟩
  · simpa [SmStdCallState.Free, hsig, hdone] using hf
  · rw [hl, hloop, current_congr _ hsig hdone hargs hret]

/-- No CPU expects the result unless the driver waits on it. -/
theorem Tracks.active (hinv : Inv m out) (ht : Tracks args m l d)
    (hd : ∀ nr fiq cpu, d ≠ .wait nr fiq cpu) : m.state.activeCpu = -1 := by
  cases d with
  | issue nr fiq =>
    obtain rfl := ht.issue_fiq
    rcases ht with ⟨-, hf, -⟩ | ⟨-, hact, -⟩
    · exact hinv.free hf
    · exact hact
  | wait nr fiq cpu => exact absurd rfl (hd nr fiq cpu)
  | returned r => exact hinv.free ht.1

/-- A step that leaves the shared state and the stdcall thread alone, and
keeps the driver's CPU in the secure world. -/
theorem Tracks.frame (ht : Tracks args m l d) (hstate : m'.state = m.state)
    (hloop : m'.loop = m.loop)
    (hmode : ∀ nr fiq cpu, d = .wait nr fiq cpu → m'.mode cpu ≠ .nonsecure) :
    Tracks args m' l d := by
  have hin : ∀ {l}, InCall args m l → InCall args m' l := fun h =>
    h.congr (by rw [hstate]) (by rw [hstate]) (by rw [hstate]) (by rw [hstate]) hloop
  cases d with
  | issue nr fiq =>
    obtain rfl := ht.issue_fiq
    rcases ht with ⟨hnr, hf, hl⟩ | ⟨hnr, hact, hc⟩
    · exact .inl ⟨hnr, hstate ▸ hf, hl⟩
    · exact .inr ⟨hnr, hstate ▸ hact, hin hc⟩
  | wait nr fiq cpu =>
    obtain rfl := ht.wait_fiq
    obtain ⟨hnr, -, hact, hc⟩ := ht
    refine ⟨hstate ▸ hnr, hmode nr false cpu rfl, hstate ▸ hact, hin hc⟩
  | returned r => exact ⟨hstate ▸ ht.1, ht.2⟩

theorem Tracks.wait_active {nr : Smc32Args} {fiq : Bool} (ht : Tracks args m l d)
    (hd : d = .wait nr fiq cpu) : m.state.activeCpu = cpu := by
  subst hd
  obtain rfl := ht.wait_fiq
  exact ht.2.2.1

/-- A CPU other than the driver's changes mode, or the driver's stays in the
secure world. -/
theorem Tracks.update {x : CpuMode} (ht : Tracks args m l d)
    (hx : x ≠ .nonsecure ∨ ∀ nr fiq, d ≠ .wait nr fiq cpu) :
    Tracks args { m with mode := Function.update m.mode cpu x } l d := by
  refine ht.frame rfl rfl fun nr fiq c hd => ?_
  by_cases hc : c = cpu
  · subst hc
    rcases hx with hx | hx
    · simpa using hx
    · exact absurd hd (hx nr fiq)
  · simp only [Function.update_of_ne hc]
    subst hd
    obtain rfl := ht.wait_fiq
    exact ht.2.1

/-- A return on a CPU that does not expect the result is not the driver's. -/
theorem Tracks.take_other (ht : Tracks args m l d) (hact : m.state.activeCpu ≠ cpu) (x : Int) :
    d.take [.ret cpu x] = d :=
  Driver.take_of_none fun nr fiq c hd => by
    have hc : cpu ≠ c := fun h => hact (h ▸ ht.wait_active hd)
    simp [returnedOn_ret, hc]

/-- The secure side moved on with the call, the CPUs staying where they were. -/
theorem Tracks.inCall (ht : Tracks args m l d) (hnf : ¬ m.state.Free)
    (hact : m'.state.activeCpu = m.state.activeCpu)
    (hcount : m'.state.restartCount = m.state.restartCount) (hmode : m'.mode = m.mode)
    (hin : InCall args m l → InCall args m' l') : Tracks args m' l' d := by
  cases d with
  | issue nr fiq =>
    obtain rfl := ht.issue_fiq
    rcases ht with ⟨-, hf, -⟩ | ⟨hnr, hact', hc⟩
    · exact absurd hf hnf
    · exact .inr ⟨hnr, hact.trans hact', hin hc⟩
  | wait nr fiq cpu =>
    obtain rfl := ht.wait_fiq
    obtain ⟨hnr, hm, hact', hc⟩ := ht
    exact ⟨hcount ▸ hnr, hmode ▸ hm, hact.trans hact', hin hc⟩
  | returned r => exact absurd ht.1 hnf

theorem InCall.wake (h : InCall args m l) (hsig : m.state.signalled = true)
    (hloop : m.loop = .waiting) :
    InCall args { m with loop := .running } (l ++ [.start m.state.args]) := by
  obtain ⟨hf, ha, hl⟩ := h
  refine ⟨hf, ha, ?_⟩
  rw [hl, hloop]
  simp [current, hsig]

theorem InCall.finish {r : Int} (h : InCall args m l) (hsig : m.state.signalled = true)
    (hdone : m.state.done = false) (hloop : m.loop = .running) :
    InCall args { m with state := smStdcallDone m.state r, loop := .waiting } (l ++ [.finish r]) := by
  obtain ⟨-, ha, hl⟩ := h
  refine ⟨by simp [SmStdCallState.Free, smStdcallDone], ha, ?_⟩
  rw [hl, hloop]
  simp [current, smStdcallDone, hsig, hdone]

/-! ### Each step keeps `Tracks` -/

section Steps

variable (ht : Tracks args s.machine l s.driver)
include ht

theorem Tracks.call (hinv : Inv s.machine out) (hnop : args.smcNr ≠ smcScNop) (hr : args.smcNr ≠ smcScRestartLast)
    (hs : s.step v (.call cpu) = some (s', o)) :
    Tracks args s'.machine (l ++ life o) s'.driver := by
  obtain ⟨nr, fiq, m', hd, hm, rfl⟩ := System.step_call hs
  rw [hd] at ht
  obtain rfl := ht.issue_fiq
  rw [smcArgs_false] at hm
  rcases ht with ⟨rfl, hf, rfl⟩ | ⟨rfl, hact, hc⟩
  · -- the call itself, taken as a new call
    obtain ⟨-, rfl, rfl⟩ := Machine.smc_new hf hnop hr hm
    refine ⟨.inl ⟨rfl, rfl⟩, by simp, by simp, by simp [SmStdCallState.Free], rfl, ?_⟩
    simp [current, hinv.loop_of_free hf]
  · -- `SMC_SC_RESTART_LAST`, taken as a restart
    obtain ⟨-, rfl, rfl⟩ := Machine.smc_restart hc.1 hact rfl hm
    simp only [life_nil, List.append_nil, Driver.take_nil]
    exact ⟨.inr rfl, by simp, by simp, hc.congr rfl rfl rfl rfl rfl⟩

theorem Tracks.nop (hs : s.step v (.nop cpu) = some (s', o)) :
    Tracks args s'.machine (l ++ life o) s'.driver := by
  obtain ⟨m', hm, rfl⟩ := System.step_nop hs
  obtain ⟨-, rfl, rfl⟩ := Machine.smc_nop rfl hm
  simpa using ht.update (.inl (by simp))

theorem Tracks.idle (hs : s.step v (.secure (.idle cpu)) = some (s', o)) :
    Tracks args s'.machine (l ++ life o) s'.driver := by
  obtain ⟨m', hm, rfl⟩ := System.step_secure hs
  by_cases hact : s.machine.state.activeCpu = cpu
  · obtain ⟨-, rfl, rfl⟩ := Machine.idle_self hact hm
    simpa using ht.update (.inl (by simp))
  · obtain ⟨-, rfl, rfl⟩ := Machine.idle_other hact hm
    rw [ht.take_other hact]
    simpa using ht.update (.inr fun nr fiq hd => hact (ht.wait_active hd))

theorem Tracks.irq (hinv : Inv s.machine out) (hs : s.step v (.secure (.irq cpu)) = some (s', o)) :
    Tracks args s'.machine (l ++ life o) s'.driver := by
  obtain ⟨m', hm, rfl⟩ := System.step_secure hs
  by_cases hact : s.machine.state.activeCpu = cpu
  · -- the driver's SMC is interrupted, and it restarts
    obtain ⟨-, rfl, rfl⟩ := Machine.irq_self hact hm
    cases hd : s.driver with
    | wait nr fiq c =>
      rw [hd] at ht
      obtain rfl := ht.wait_fiq
      obtain ⟨-, -, hc, hin⟩ := ht
      have hcc : c = cpu := by omega
      subst hcc
      have hnext : (Driver.wait nr false c).take [.ret c smErrInterrupted] =
          .issue restartLastArgs false := by
        simp [Driver.take, returnedOn_ret, stdCallNext_again]
      rw [hnext, life_ret, List.append_nil]
      exact .inr ⟨rfl, rfl, hin.congr rfl rfl rfl rfl rfl⟩
    | issue nr fiq =>
      have := ht.active hinv (by simp [hd])
      omega
    | returned r =>
      have := ht.active hinv (by simp [hd])
      omega
  · obtain ⟨-, rfl, rfl⟩ := Machine.irq_other hact hm
    rw [ht.take_other hact]
    simpa using ht.update (.inr fun nr fiq hd => hact (ht.wait_active hd))

theorem Tracks.wake (hs : s.step v (.secure .wake) = some (s', o)) :
    Tracks args s'.machine (l ++ life o) s'.driver := by
  obtain ⟨m', hm, rfl⟩ := System.step_secure hs
  obtain ⟨hloop, hsig, rfl, rfl⟩ := Machine.wake_eq hm
  have hnf : ¬ s.machine.state.Free := fun hf => by simp [hf.1] at hsig
  rw [Driver.take_of_none fun _ _ _ _ => rfl]
  exact ht.inCall hnf rfl rfl rfl fun hin => by simpa using hin.wake hsig hloop

theorem Tracks.finish {r : Int} (hinv : Inv s.machine out) (hs : s.step v (.secure (.finish r)) = some (s', o)) :
    Tracks args s'.machine (l ++ life o) s'.driver := by
  obtain ⟨m', hm, rfl⟩ := System.step_secure hs
  obtain ⟨hloop, rfl, rfl⟩ := Machine.finish_eq hm
  have hsig := hinv.running hloop
  have hnf : ¬ s.machine.state.Free := fun hf => by simp [hf.1] at hsig
  rw [Driver.take_of_none fun _ _ _ _ => rfl]
  exact ht.inCall hnf rfl rfl rfl fun hin => by
    simpa using hin.finish hsig (hinv.notBoth hsig) hloop

/-- Only the driver's CPU expects a result; it collects the call's result
when the call is done, and is otherwise asked to come back. -/
theorem Tracks.collect (hinv : Inv s.machine out)
    (hgood : ∀ r, Event.finish r ∈ l → Unambiguous r)
    (hs : s.step v (.secure (.collect cpu)) = some (s', o)) :
    Tracks args s'.machine (l ++ life o) s'.driver := by
  obtain ⟨m', hm, rfl⟩ := System.step_secure hs
  obtain ⟨hmode, rfl, rfl⟩ := Machine.collect_eq hm
  have hact := hinv.collecting cpu hmode
  cases hd : s.driver with
  | issue nr fiq =>
    have := ht.active hinv (by simp [hd])
    omega
  | returned r =>
    have := ht.active hinv (by simp [hd])
    omega
  | wait nr fiq c =>
    rw [hd] at ht
    obtain rfl := ht.wait_fiq
    obtain ⟨hnr, -, hc, hf, hargs, hl⟩ := ht
    have hcc : c = cpu := by omega
    subst hcc
    cases hdone : s.machine.state.done
    · -- not done: the driver is asked to come back, and restarts
      obtain ⟨hstate, hcode⟩ := smGetStdcallRet_not_done v hact hdone
      have hnext : stdCallNext nr (smGetStdcallRet v s.machine.state c).1 =
          .issue restartLastArgs false := by
        apply stdCallNext_again
        rcases hcode with h | ⟨h, hcount⟩ | h
        · exact .inr (.inl h)
        · exact .inr (.inr ⟨h, hnr.resolve_left fun h' => hcount h'.2⟩)
        · exact .inl h
      simp only [hdone, Bool.false_eq_true, and_false, if_false, Driver.take, returnedOn_ret,
        if_true, hnext, life_ret, List.append_nil, hstate]
      exact .inr ⟨rfl, rfl, InCall.congr ⟨hf, hargs, hl⟩ rfl hdone.symm rfl rfl rfl⟩
    · -- done: the driver takes the call's result and returns it
      have hsig := hinv.not_signalled hdone
      have hl' : l = [.accept args, .start args, .finish s.machine.state.ret] := by
        rw [hl, ← hargs]
        simp [current, hsig, hdone]
      have hret : Unambiguous s.machine.state.ret := hgood _ (by simp [hl'])
      simp only [smGetStdcallRet_done v hact hdone, hact, and_self, if_true, Driver.take,
        returnedOn_deliver, stdCallNext_unambiguous hret, life_deliver]
      refine ⟨⟨hsig, rfl⟩, c, ?_⟩
      rw [hl']
      rfl

theorem Tracks.step (hinv : Inv s.machine out) (hnop : args.smcNr ≠ smcScNop)
    (hr : args.smcNr ≠ smcScRestartLast) (hgood : ∀ r, Event.finish r ∈ l → Unambiguous r)
    {a : SysAction} (hs : s.step v a = some (s', o)) :
    Tracks args s'.machine (l ++ life o) s'.driver := by
  cases a with
  | call cpu => exact ht.call hinv hnop hr hs
  | nop cpu => exact ht.nop hs
  | secure b =>
    cases b with
    | smc c x => simp [System.step] at hs
    | idle cpu => exact ht.idle hs
    | collect cpu => exact ht.collect hinv hgood hs
    | irq cpu => exact ht.irq hinv hs
    | wake => exact ht.wake hs
    | finish r => exact ht.finish hinv hs

end Steps

/-- The driver's call, from a reachable state with no call in progress, in
any interleaving with NOPs, interrupts and the secure side: when it returns
`ret`, its call was taken once, the handler ran once on its arguments and
returned `ret`, and `ret` was delivered once; provided the handler's result
is not a code the driver reads as a request to call again. -/
theorem stdCall32_returns {as0 : List Action} {out0 : List Event} {m0 : Machine}
    (h0 : LTS.Run (Machine.step v) Machine.init as0 out0 m0) (hfree : m0.state.Free)
    (hnop : args.smcNr ≠ smcScNop) (hr : args.smcNr ≠ smcScRestartLast)
    {as : List SysAction} (h : LTS.Run (System.step v) ⟨m0, .issue args false⟩ as out s)
    (hgood : ∀ r, Event.finish r ∈ out → Unambiguous r) {ret : Int}
    (hret : s.driver = .returned ret) :
    ∃ cpu, life out = block args ret cpu := by
  -- the secure side's invariant and the driver's position, over the run
  have key := h.induction
    (P := fun (s : System) (out : List Event) => (∀ r, Event.finish r ∈ out → Unambiguous r) →
      Inv s.machine (out0 ++ out) ∧ Tracks args s.machine (life out) s.driver)
    (fun _ => ⟨by simpa using Inv.run h0, .inl ⟨rfl, hfree, rfl⟩⟩)
    (fun {u u' out' a o} hP hs hgood' => by
      obtain ⟨hinv, ht⟩ := hP fun r hr => hgood' r (List.mem_append_left _ hr)
      obtain ⟨b, hb⟩ := System.step_machine hs
      refine ⟨by simpa using (hinv.step hb).1, ?_⟩
      rw [life_append]
      exact ht.step hinv hnop hr (fun r hr' => hgood' r
        (List.mem_append_left _ (List.mem_filter.mp hr').1)) hs)
  have ht := (key hgood).2
  rw [hret] at ht
  exact ht.2

/-! ### Standard calls run and return exactly once -/

/-- `SMC_SC_VIRTIO_START`, whose handler `virtio_start` returns
`ERR_NO_MEMORY` when `malloc` fails. -/
def virtioStartArgs : Smc32Args := ⟨smcScVirtioStart, [0, 0, 0]⟩

theorem stdcall_exactly_once (v : Nat) :
    (∀ {as : List Action} {out : List Event} {m : Machine},
      LTS.Run (Machine.step v) Machine.init as out m →
      (∃ calls, ∃ n < 4, ∃ args r cpu, life out = blocks calls ++ (block args r cpu).take n) ∧
      (∀ cpu args, m.mode cpu = .nonsecure → args.smcNr ≠ smcScNop →
        args.smcNr ≠ smcScRestartLast → ∃ m', m.step v (.smc cpu args) =
          some (m', if m.state.Free then [.accept args] else [.ret cpu smErrBusy])) ∧
      (∀ cpu params, m.mode cpu = .nonsecure → m.state.Free →
        m.step v (.smc cpu ⟨smcScRestartLast, params⟩) =
          some (m, [.ret cpu smErrUnexpectedRestart])) ∧
      ∀ a m' o, m.step v a = some (m', o) →
        (∀ cpu r, Event.deliver cpu r ∈ o → m.state.activeCpu = cpu ∧ m.state.done = true ∧
          r = m.state.ret ∧ m'.state.Free ∧ m'.state.activeCpu = -1) ∧
        (∀ cpu x, Event.ret cpu x ∈ o →
          x ∈ progressCodes ∨ (x = smErrUnexpectedRestart ∧ m.state.Free))) ∧
    (∀ {as0 : List Action} {out0 : List Event} {m0 : Machine},
      LTS.Run (Machine.step v) Machine.init as0 out0 m0 → m0.state.Free →
      ∀ args : Smc32Args, args.smcNr ≠ smcScNop → args.smcNr ≠ smcScRestartLast →
      ∀ {as : List SysAction} {out : List Event} {s : System},
        LTS.Run (System.step v) ⟨m0, .issue args false⟩ as out s →
        (∀ r, Event.finish r ∈ out →
          r ≠ smErrBusy ∧ r ≠ smErrInterrupted ∧ r ≠ smErrCpuIdle ∧ r ≠ smErrFiqInterrupted) →
        ∀ ret, s.driver = .returned ret → ∃ cpu, life out = block args ret cpu) := by
  refine ⟨fun {_ _ _} h => ?_, fun {_ _ _} h0 hfree args hnop hr {_ _ _} h hgood ret hret =>
    stdCall32_returns h0 hfree hnop hr h hgood hret⟩
  obtain ⟨hlog, hcall, hrestart, hout⟩ := stdcall_run_spec v h
  exact ⟨hlog, hcall, hrestart, fun a m' o hs => ⟨(hout a m' o hs).delivers, (hout a m' o hs).rets⟩⟩

/-- From boot, `SMC_SC_VIRTIO_START` made on CPU 0, its handler returning 0:
the driver returns 0 after one call. -/
theorem stdcall_exactly_once_virtio :
    ∃ as out s, LTS.Run (System.step trustyApiVersionSmp) ⟨Machine.init, .issue virtioStartArgs false⟩
      as out s ∧ s.driver = .returned 0 ∧ ∃ cpu, life out = block virtioStartArgs 0 cpu := by
  obtain ⟨out, s, hrun, hp⟩ := @LTS.Run.exists_of_exec System SysAction Event
    (System.step trustyApiVersionSmp) ⟨Machine.init, .issue virtioStartArgs false⟩
    [.call 0, .secure .wake, .secure (.finish 0), .secure (.idle 0), .secure (.collect 0)]
    (fun s out => s.driver == .returned 0 && out == block virtioStartArgs 0 0) (by decide)
  simp only [Bool.and_eq_true, beq_iff_eq] at hp
  obtain ⟨hret, hout⟩ := hp
  have hgood : ∀ r, Event.finish r ∈ out →
      r ≠ smErrBusy ∧ r ≠ smErrInterrupted ∧ r ≠ smErrCpuIdle ∧ r ≠ smErrFiqInterrupted := by
    intro r hr
    simp only [hout, block, List.mem_cons, reduceCtorEq, Event.finish.injEq, List.not_mem_nil,
      or_false, false_or] at hr
    subst hr
    decide
  exact ⟨_, out, s, hrun, hret, (stdcall_exactly_once trustyApiVersionSmp).2 .nil
    (by decide) virtioStartArgs (by decide) (by decide) hrun hgood 0 hret⟩

/-- `SMC_SC_VIRTIO_START` whose handler returns `r`, followed by the next SMC
of the driver, which the secure side accepts and starts as `nxt`. -/
theorem virtio_result_then_call {r : Int} {nxt : Smc32Args}
    (h : (LTS.exec (System.step trustyApiVersionSmp) ⟨Machine.init, .issue virtioStartArgs false⟩
      [.call 0, .secure .wake, .secure (.finish r), .secure (.idle 0), .secure (.collect 0),
        .call 0, .secure .wake]).any
      (fun x => life x.2 == block virtioStartArgs r 0 ++ [.accept nxt, .start nxt]) = true) :
    ∃ as out s, LTS.Run (System.step trustyApiVersionSmp)
      ⟨Machine.init, .issue virtioStartArgs false⟩ as out s ∧
      life out = block virtioStartArgs r 0 ++ [.accept nxt, .start nxt] := by
  obtain ⟨out, s, hrun, hp⟩ := LTS.Run.exists_of_exec
    (p := fun (_ : System) out => life out == block virtioStartArgs r 0 ++ [.accept nxt, .start nxt]) h
  exact ⟨_, out, s, hrun, by simpa using hp⟩

/-- A handler result the driver reads as a code makes it call again.
`virtio_start` returns `ERR_NO_MEMORY` when `malloc` fails, the value of
`SM_ERR_BUSY`: the driver makes `SMC_SC_VIRTIO_START` again, the secure side
takes it as a new call, and the handler runs a second time for one
`trusty_std_call32`.  A result of `ERR_NOT_BLOCKED`, the value of
`SM_ERR_FIQ_INTERRUPTED`, is answered with `SMC_SC_RESTART_FIQ`, which the
secure side also takes as a new call. -/
theorem stdCall32_code_result_called_again :
    errNoMemory = smErrBusy ∧ errNotBlocked = smErrFiqInterrupted ∧
    (∃ as out s, LTS.Run (System.step trustyApiVersionSmp)
      ⟨Machine.init, .issue virtioStartArgs false⟩ as out s ∧
      life out = block virtioStartArgs errNoMemory 0 ++
        [.accept virtioStartArgs, .start virtioStartArgs]) ∧
    ∃ as out s, LTS.Run (System.step trustyApiVersionSmp)
      ⟨Machine.init, .issue virtioStartArgs false⟩ as out s ∧
      life out = block virtioStartArgs errNotBlocked 0 ++
        [.accept restartFiqArgs, .start restartFiqArgs] := by
  -- the busy code makes the driver repeat the call, the FIQ code restart it
  exact ⟨rfl, rfl, virtio_result_then_call (by decide), virtio_result_then_call (by decide)⟩

end Sm
