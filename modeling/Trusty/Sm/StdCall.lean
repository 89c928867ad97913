import Mathlib.Logic.Function.Basic
import Trusty.Lib.Trace

/-!
# The secure monitor's standard calls

`lib/sm/sm.c` runs one standard call at a time, on the `sm-stdcall` thread.
The non-secure world enters the secure world on any CPU with an SMC; the
state of the call, `stdcallstate`, is shared by the per-CPU return paths
(`sm_wait_for_smcall`, `sm_irq_return_ns`) and by `sm_stdcall_loop`, each of
which holds `stdcallstate.lock` while it looks at it.

The model is the state `SmStdCallState`, the functions that update it under
the lock (`smQueueStdcall`, `smGetStdcallRet`, `smIrqReturnNs`,
`smStdcallDone`), and a machine over them: where each CPU is (`CpuMode`),
where the stdcall thread is (`Loop`), and one `Action` for each thing that
can happen next, in any order.  A critical section is one step.

Each step also says what it showed (`Event`): a return to the non-secure
world, and, as ghost events, a call taken, the handler started and the
handler returned.  A return of a call's result is a `deliver`; any other
return is a `ret`.

The debug-only fields `initial_cpu` and `last_cpu` are left out.  The
handler's result is any value (`Action.finish`): the handlers have state of
their own.  The API version the non-secure side selected is fixed, as
`sm_get_api_version` locks it on first use.
-/

namespace Sm

/-! ### Constants of `sm_err.h` and `smcall.h` -/

/-- `SM_ERR_INTERRUPTED`: call back with `SMC_SC_RESTART_LAST`. -/
def smErrInterrupted : Int := -3
/-- `SM_ERR_UNEXPECTED_RESTART`. -/
def smErrUnexpectedRestart : Int := -4
/-- `SM_ERR_BUSY`: call back with the original arguments. -/
def smErrBusy : Int := -5
/-- `SM_ERR_INTERNAL_FAILURE`. -/
def smErrInternalFailure : Int := -7
/-- `SM_ERR_CPU_IDLE`: the call waits for another CPU. -/
def smErrCpuIdle : Int := -13
/-- `SM_ERR_NOP_INTERRUPTED`. -/
def smErrNopInterrupted : Int := -14
/-- `SM_ERR_NOP_DONE`. -/
def smErrNopDone : Int := -15

/-- `SMC_NR(entity, fn, fastcall, smc64)`. -/
def smcNr (entity fn fastcall smc64 : Nat) : Nat :=
  ((fastcall &&& 0x1) <<< 31) ||| ((smc64 &&& 0x1) <<< 30) |||
    ((entity &&& 0x3F) <<< 24) ||| (fn &&& 0xFFFF)

/-- `SMC_STDCALL_NR(entity, fn)`. -/
def smcStdcallNr (entity fn : Nat) : Nat := smcNr entity fn 0 0

/-- `SMC_ENTITY_SECURE_MONITOR`. -/
def smcEntitySecureMonitor : Nat := 60

/-- `SMC_SC_RESTART_LAST`. -/
def smcScRestartLast : Nat := smcStdcallNr smcEntitySecureMonitor 0

/-- `SMC_SC_NOP`. -/
def smcScNop : Nat := smcStdcallNr smcEntitySecureMonitor 3

/-- `TRUSTY_API_VERSION_SMP`. -/
def trustyApiVersionSmp : Nat := 2

theorem smcScRestartLast_ne_nop : smcScRestartLast ≠ smcScNop := by decide

@[simp] theorem smErrBusy_ne_zero : smErrBusy ≠ 0 := by decide
@[simp] theorem smErrUnexpectedRestart_ne_zero : smErrUnexpectedRestart ≠ 0 := by decide

/-! ### The shared state and its critical sections -/

/-- `smc32_args_t`: the SMC number and its `SMC_NUM_PARAMS` parameters. -/
structure Smc32Args where
  smcNr : Nat
  params : List Nat
  deriving DecidableEq, Repr

/-- `struct sm_std_call_state`, without its lock and debug fields.  The
`event` is only signalled and unsignalled, so its state is one flag. -/
structure SmStdCallState where
  signalled : Bool
  args : Smc32Args
  ret : Int
  done : Bool
  activeCpu : Int
  restartCount : Nat
  deriving DecidableEq, Repr

/-- The initial value of `stdcallstate`. -/
def SmStdCallState.init : SmStdCallState :=
  ⟨false, ⟨0, [0, 0, 0]⟩, 0, false, -1, 0⟩

/-- No call is in progress: not signalled, and no result waits. -/
def SmStdCallState.Free (s : SmStdCallState) : Prop :=
  s.signalled = false ∧ s.done = false

instance (s : SmStdCallState) : Decidable s.Free :=
  inferInstanceAs (Decidable (s.signalled = false ∧ s.done = false))

theorem SmStdCallState.free_iff (s : SmStdCallState) :
    s.Free ↔ (s.signalled || s.done) = false := by
  simp [SmStdCallState.Free]

/-- `sm_queue_stdcall` on `cpu`: take a new call, or restart the one in
progress, or refuse. -/
def smQueueStdcall (s : SmStdCallState) (cpu : Nat) (args : Smc32Args) :
    Int × SmStdCallState :=
  if s.signalled || s.done then
    if args.smcNr = smcScRestartLast ∧ s.activeCpu = -1 then
      (0, { s with restartCount := s.restartCount + 1, activeCpu := cpu })
    else (smErrBusy, s)
  else if args.smcNr = smcScRestartLast then (smErrUnexpectedRestart, s)
  else
    (0, { s with ret := smErrInternalFailure, args := args, restartCount := 0,
                 signalled := true, activeCpu := cpu })

/-- `sm_queue_stdcall` takes a new call when none is in progress, restarts
the one in progress when no CPU expects its result, and otherwise refuses,
leaving the state as it was. -/
theorem smQueueStdcall_spec (s : SmStdCallState) (cpu : Nat) (args : Smc32Args) :
    (s.Free ∧ args.smcNr ≠ smcScRestartLast ∧
      smQueueStdcall s cpu args =
        (0, { s with ret := smErrInternalFailure, args := args, restartCount := 0,
                     signalled := true, activeCpu := cpu })) ∨
    (¬ s.Free ∧ args.smcNr = smcScRestartLast ∧ s.activeCpu = -1 ∧
      smQueueStdcall s cpu args =
        (0, { s with restartCount := s.restartCount + 1, activeCpu := cpu })) ∨
    (¬ s.Free ∧ ¬ (args.smcNr = smcScRestartLast ∧ s.activeCpu = -1) ∧
      smQueueStdcall s cpu args = (smErrBusy, s)) ∨
    (s.Free ∧ args.smcNr = smcScRestartLast ∧
      smQueueStdcall s cpu args = (smErrUnexpectedRestart, s)) := by
  rw [SmStdCallState.free_iff]
  unfold smQueueStdcall
  cases hb : s.signalled || s.done
  · by_cases hr : args.smcNr = smcScRestartLast
    · simp [hr]
    · simp [hr]
  · by_cases hr : args.smcNr = smcScRestartLast ∧ s.activeCpu = -1
    · simp [hr]
    · simp [hr]

/-- `sm_get_stdcall_ret` on `cpu`, with the API version `apiVersion`. -/
def smGetStdcallRet (apiVersion : Nat) (s : SmStdCallState) (cpu : Nat) :
    Int × SmStdCallState :=
  if s.activeCpu ≠ cpu then (smErrInternalFailure, s)
  else
    let s := { s with activeCpu := -1 }
    if s.done then (s.ret, { s with done := false })
    else if apiVersion ≥ trustyApiVersionSmp then (smErrCpuIdle, s)
    else if s.restartCount ≠ 0 then (smErrBusy, s)
    else (smErrInterrupted, s)

/-- On the CPU that expects it, `sm_get_stdcall_ret` returns a finished
call's result, and then no CPU expects it and no result waits. -/
theorem smGetStdcallRet_done (apiVersion : Nat) {s : SmStdCallState} {cpu : Nat}
    (hact : s.activeCpu = cpu) (hdone : s.done = true) :
    smGetStdcallRet apiVersion s cpu = (s.ret, { s with activeCpu := -1, done := false }) := by
  simp [smGetStdcallRet, hact, hdone]

/-- On the CPU that expects it, `sm_get_stdcall_ret` of an unfinished call
asks the caller to come back, and then no CPU expects the result. -/
theorem smGetStdcallRet_not_done (apiVersion : Nat) {s : SmStdCallState} {cpu : Nat}
    (hact : s.activeCpu = cpu) (hdone : s.done = false) :
    (smGetStdcallRet apiVersion s cpu).2 = { s with activeCpu := -1 } ∧
      ((smGetStdcallRet apiVersion s cpu).1 = smErrCpuIdle ∨
        ((smGetStdcallRet apiVersion s cpu).1 = smErrBusy ∧ s.restartCount ≠ 0) ∨
        (smGetStdcallRet apiVersion s cpu).1 = smErrInterrupted) := by
  simp only [smGetStdcallRet, hact, ne_eq, not_true_eq_false, if_false, hdone,
    Bool.false_eq_true]
  split_ifs with hv hr
  · exact ⟨rfl, .inl rfl⟩
  · exact ⟨rfl, .inr (.inr rfl)⟩
  · exact ⟨rfl, .inr (.inl ⟨rfl, hr⟩)⟩

/-- `sm_irq_return_ns` on `cpu`: what a non-secure interrupt returns. -/
def smIrqReturnNs (s : SmStdCallState) (cpu : Nat) : Int × SmStdCallState :=
  if s.activeCpu = cpu then (smErrInterrupted, { s with activeCpu := -1 })
  else (smErrNopInterrupted, s)

/-- The end of an iteration of `sm_stdcall_loop`: the handler returned `ret`. -/
def smStdcallDone (s : SmStdCallState) (ret : Int) : SmStdCallState :=
  { s with ret := ret, done := true, signalled := false }

/-! ### The machine -/

/-- Where `sm_stdcall_loop` is: in `event_wait`, or in the handler. -/
inductive Loop where
  | waiting
  | running
  deriving DecidableEq, Repr

/-- Where a CPU is. -/
inductive CpuMode where
  /-- In the non-secure world, free to make an SMC. -/
  | nonsecure
  /-- In the secure world for an SMC: it returns through the check of
  `sm_wait_for_smcall` or through `sm_irq_return_ns`. -/
  | secure
  /-- In `sm_wait_for_smcall` with interrupts off, having seen `active_cpu`
  equal to itself: it calls `sm_get_stdcall_ret` next. -/
  | collecting
  deriving DecidableEq, Repr

/-- The secure side and the CPUs. -/
structure Machine where
  state : SmStdCallState
  mode : Nat → CpuMode
  loop : Loop

/-- At boot: no call, every CPU in the non-secure world. -/
def Machine.init : Machine := ⟨SmStdCallState.init, fun _ => .nonsecure, .waiting⟩

/-- What can happen next. -/
inductive Action where
  /-- The non-secure world on `cpu` makes the standard call SMC `args`. -/
  | smc (cpu : Nat) (args : Smc32Args)
  /-- `sm_wait_for_smcall` on `cpu` compares `active_cpu` with `cpu`. -/
  | idle (cpu : Nat)
  /-- `sm_wait_for_smcall` on `cpu` calls `sm_get_stdcall_ret`. -/
  | collect (cpu : Nat)
  /-- A non-secure interrupt on `cpu`: `sm_irq_return_ns`. -/
  | irq (cpu : Nat)
  /-- `event_wait` returns in `sm_stdcall_loop`, which calls the handler. -/
  | wake
  /-- The handler returns `ret`. -/
  | finish (ret : Int)
  deriving DecidableEq, Repr

/-- What a step shows. -/
inductive Event where
  /-- `sm_queue_stdcall` took a new call. -/
  | accept (args : Smc32Args)
  /-- The handler was called on `args`. -/
  | start (args : Smc32Args)
  /-- The handler returned `ret`. -/
  | finish (ret : Int)
  /-- `sm_get_stdcall_ret` returned the call's result `ret` on `cpu`. -/
  | deliver (cpu : Nat) (ret : Int)
  /-- Any other return to the non-secure world on `cpu`. -/
  | ret (cpu : Nat) (value : Int)
  deriving DecidableEq, Repr

namespace Machine

/-- The non-secure world on `cpu` makes the SMC `args`, and
`sm_return_and_wait_for_next_stdcall` takes it: a NOP goes back to the
caller's loop; anything else goes to `sm_queue_stdcall`, whose error is
returned at once and whose success also goes back to the loop. -/
def smc (m : Machine) (cpu : Nat) (args : Smc32Args) : Option (Machine × List Event) :=
  if m.mode cpu = .nonsecure then
    if args.smcNr = smcScNop then
      some ({ m with mode := Function.update m.mode cpu .secure }, [])
    else
      let r := smQueueStdcall m.state cpu args
      if r.1 = 0 then
        some ({ m with state := r.2, mode := Function.update m.mode cpu .secure },
          if m.state.Free then [.accept args] else [])
      else some ({ m with state := r.2 }, [.ret cpu r.1])
  else none

/-- `sm_wait_for_smcall` on `cpu`, after `thread_yield`: the CPU expecting
the result goes on to collect it; any other returns `SM_ERR_NOP_DONE`. -/
def idle (m : Machine) (cpu : Nat) : Option (Machine × List Event) :=
  if m.mode cpu = .secure then
    if (cpu : Int) = m.state.activeCpu then
      some ({ m with mode := Function.update m.mode cpu .collecting }, [])
    else some ({ m with mode := Function.update m.mode cpu .nonsecure }, [.ret cpu smErrNopDone])
  else none

/-- `sm_wait_for_smcall` on `cpu` returns what `sm_get_stdcall_ret` gives;
that is the call's result when it found the call done. -/
def collect (apiVersion : Nat) (m : Machine) (cpu : Nat) : Option (Machine × List Event) :=
  if m.mode cpu = .collecting then
    let r := smGetStdcallRet apiVersion m.state cpu
    some ({ m with state := r.2, mode := Function.update m.mode cpu .nonsecure },
      [if m.state.activeCpu = cpu ∧ m.state.done then .deliver cpu r.1 else .ret cpu r.1])
  else none

/-- A non-secure interrupt on `cpu` while it is in the secure world. -/
def irq (m : Machine) (cpu : Nat) : Option (Machine × List Event) :=
  if m.mode cpu = .secure then
    let r := smIrqReturnNs m.state cpu
    some ({ m with state := r.2, mode := Function.update m.mode cpu .nonsecure }, [.ret cpu r.1])
  else none

/-- `sm_stdcall_loop` wakes up for a signalled call and calls its handler on
`stdcallstate.args`. -/
def wake (m : Machine) : Option (Machine × List Event) :=
  if m.loop = .waiting ∧ m.state.signalled = true then
    some ({ m with loop := .running }, [.start m.state.args])
  else none

/-- The handler returned `ret`; `sm_stdcall_loop` records it. -/
def finish (m : Machine) (ret : Int) : Option (Machine × List Event) :=
  if m.loop = .running then
    some ({ m with state := smStdcallDone m.state ret, loop := .waiting }, [.finish ret])
  else none

/-- One step of the machine. -/
def step (apiVersion : Nat) (m : Machine) : Action → Option (Machine × List Event)
  | .smc cpu args => m.smc cpu args
  | .idle cpu => m.idle cpu
  | .collect cpu => m.collect apiVersion cpu
  | .irq cpu => m.irq cpu
  | .wake => m.wake
  | .finish ret => m.finish ret

/-! ### What each action does -/

variable {m m' : Machine} {o : List Event} {cpu : Nat}

theorem smc_nop {args : Smc32Args} (hnop : args.smcNr = smcScNop)
    (hs : m.smc cpu args = some (m', o)) :
    m.mode cpu = .nonsecure ∧ m' = { m with mode := Function.update m.mode cpu .secure } ∧
      o = [] := by
  unfold smc at hs
  by_cases hmode : m.mode cpu = .nonsecure
  · rw [if_pos hmode, if_pos hnop] at hs
    simp only [Option.some.injEq, Prod.mk.injEq] at hs
    exact ⟨hmode, hs.1.symm, hs.2.symm⟩
  · simp [hmode] at hs

/-- A new call with no call in progress is taken. -/
theorem smc_new {args : Smc32Args} (hf : m.state.Free) (hnop : args.smcNr ≠ smcScNop)
    (hr : args.smcNr ≠ smcScRestartLast) (hs : m.smc cpu args = some (m', o)) :
    m.mode cpu = .nonsecure ∧
      m' = { state := { m.state with ret := smErrInternalFailure, args := args,
                                     restartCount := 0, signalled := true, activeCpu := cpu },
             mode := Function.update m.mode cpu .secure, loop := m.loop } ∧
      o = [.accept args] := by
  unfold smc at hs
  by_cases hmode : m.mode cpu = .nonsecure
  · rw [if_pos hmode, if_neg hnop] at hs
    rcases smQueueStdcall_spec m.state cpu args with
      ⟨-, -, hq⟩ | ⟨hf', -⟩ | ⟨hf', -⟩ | ⟨-, hr', -⟩
    · simp only [hq, hf, if_true, Option.some.injEq, Prod.mk.injEq] at hs
      exact ⟨hmode, hs.1.symm, hs.2.symm⟩
    · exact absurd hf hf'
    · exact absurd hf hf'
    · exact absurd hr' hr
  · simp [hmode] at hs

/-- `SMC_SC_RESTART_LAST` while a call is in progress and no CPU expects its
result restarts it on this CPU. -/
theorem smc_restart {args : Smc32Args} (hf : ¬ m.state.Free) (hact : m.state.activeCpu = -1)
    (hr : args.smcNr = smcScRestartLast) (hs : m.smc cpu args = some (m', o)) :
    m.mode cpu = .nonsecure ∧
      m' = { state := { m.state with restartCount := m.state.restartCount + 1, activeCpu := cpu },
             mode := Function.update m.mode cpu .secure, loop := m.loop } ∧
      o = [] := by
  unfold smc at hs
  by_cases hmode : m.mode cpu = .nonsecure
  · have hnop : args.smcNr ≠ smcScNop := hr ▸ smcScRestartLast_ne_nop
    rw [if_pos hmode, if_neg hnop] at hs
    rcases smQueueStdcall_spec m.state cpu args with
      ⟨hf', -⟩ | ⟨-, -, -, hq⟩ | ⟨-, hb, -⟩ | ⟨hf', -⟩
    · exact absurd hf' hf
    · simp only [hq, hf, if_true, if_false, Option.some.injEq, Prod.mk.injEq] at hs
      exact ⟨hmode, hs.1.symm, hs.2.symm⟩
    · exact absurd ⟨hr, hact⟩ hb
    · exact absurd hf' hf
  · simp [hmode] at hs

/-- `sm_wait_for_smcall` on the CPU expecting the result goes on to collect it. -/
theorem idle_self (hact : m.state.activeCpu = cpu) (hs : m.idle cpu = some (m', o)) :
    m.mode cpu = .secure ∧ m' = { m with mode := Function.update m.mode cpu .collecting } ∧
      o = [] := by
  unfold idle at hs
  by_cases hmode : m.mode cpu = .secure
  · rw [if_pos hmode, if_pos hact.symm] at hs
    simp only [Option.some.injEq, Prod.mk.injEq] at hs
    exact ⟨hmode, hs.1.symm, hs.2.symm⟩
  · simp [hmode] at hs

/-- On any other CPU, `sm_wait_for_smcall` returns `SM_ERR_NOP_DONE`. -/
theorem idle_other (hact : m.state.activeCpu ≠ cpu) (hs : m.idle cpu = some (m', o)) :
    m.mode cpu = .secure ∧ m' = { m with mode := Function.update m.mode cpu .nonsecure } ∧
      o = [.ret cpu smErrNopDone] := by
  unfold idle at hs
  by_cases hmode : m.mode cpu = .secure
  · rw [if_pos hmode, if_neg (Ne.symm hact)] at hs
    simp only [Option.some.injEq, Prod.mk.injEq] at hs
    exact ⟨hmode, hs.1.symm, hs.2.symm⟩
  · simp [hmode] at hs

theorem collect_eq {v : Nat} (hs : m.collect v cpu = some (m', o)) :
    m.mode cpu = .collecting ∧
      m' = { state := (smGetStdcallRet v m.state cpu).2,
             mode := Function.update m.mode cpu .nonsecure, loop := m.loop } ∧
      o = [if m.state.activeCpu = cpu ∧ m.state.done then .deliver cpu (smGetStdcallRet v m.state cpu).1
           else .ret cpu (smGetStdcallRet v m.state cpu).1] := by
  unfold collect at hs
  by_cases hmode : m.mode cpu = .collecting
  · simp only [hmode, if_true, Option.some.injEq, Prod.mk.injEq] at hs
    exact ⟨hmode, hs.1.symm, hs.2.symm⟩
  · simp [hmode] at hs

/-- An interrupt on the CPU expecting the result returns `SM_ERR_INTERRUPTED`,
and then no CPU expects it. -/
theorem irq_self (hact : m.state.activeCpu = cpu) (hs : m.irq cpu = some (m', o)) :
    m.mode cpu = .secure ∧
      m' = { state := { m.state with activeCpu := -1 },
             mode := Function.update m.mode cpu .nonsecure, loop := m.loop } ∧
      o = [.ret cpu smErrInterrupted] := by
  unfold irq at hs
  by_cases hmode : m.mode cpu = .secure
  · rw [if_pos hmode, smIrqReturnNs, if_pos hact] at hs
    simp only [Option.some.injEq, Prod.mk.injEq] at hs
    exact ⟨hmode, hs.1.symm, hs.2.symm⟩
  · simp [hmode] at hs

/-- An interrupt on any other CPU returns `SM_ERR_NOP_INTERRUPTED`. -/
theorem irq_other (hact : m.state.activeCpu ≠ cpu) (hs : m.irq cpu = some (m', o)) :
    m.mode cpu = .secure ∧ m' = { m with mode := Function.update m.mode cpu .nonsecure } ∧
      o = [.ret cpu smErrNopInterrupted] := by
  unfold irq at hs
  by_cases hmode : m.mode cpu = .secure
  · rw [if_pos hmode, smIrqReturnNs, if_neg hact] at hs
    simp only [Option.some.injEq, Prod.mk.injEq] at hs
    exact ⟨hmode, hs.1.symm, hs.2.symm⟩
  · simp [hmode] at hs

theorem wake_eq (hs : m.wake = some (m', o)) :
    m.loop = .waiting ∧ m.state.signalled = true ∧ m' = { m with loop := .running } ∧
      o = [.start m.state.args] := by
  unfold wake at hs
  split_ifs at hs with hw
  simp only [Option.some.injEq, Prod.mk.injEq] at hs
  exact ⟨hw.1, hw.2, hs.1.symm, hs.2.symm⟩

theorem finish_eq {r : Int} (hs : m.finish r = some (m', o)) :
    m.loop = .running ∧ m' = { m with state := smStdcallDone m.state r, loop := .waiting } ∧
      o = [.finish r] := by
  unfold finish at hs
  split_ifs at hs with hl
  simp only [Option.some.injEq, Prod.mk.injEq] at hs
  exact ⟨hl, hs.1.symm, hs.2.symm⟩

end Machine

end Sm
