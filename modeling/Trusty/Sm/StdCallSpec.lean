import Trusty.Sm.StdCall

/-!
# Standard calls run and return exactly once

Over every run of `Machine.step` from boot, in any interleaving of SMCs,
interrupts and the stdcall thread on any number of CPUs, the lifecycle events
(`life`) are whole calls one after the other, each taken, run on its own
arguments and its result delivered once (`block`), followed by the part of
the current call that has happened (`current`).

The invariant `Inv` ties this to the shared state, and to where the CPUs are:
with no call in progress `active_cpu` is `-1`; a CPU collecting the result is
`active_cpu`; and `active_cpu` is never a CPU in the non-secure world.  These
are what keep `sm_get_stdcall_ret` from failing, and a NOP from collecting
another CPU's result.  Each action keeps `Inv` (`Inv.smc` … `Inv.finish`),
so every run does (`Inv.run`); `stdcall_run_spec` reads the properties of
the protocol off it.
-/

namespace Sm

/-! ### Lifecycles -/

/-- The life of one call: taken, the handler called on its arguments and
returning `r`, and `r` delivered on `cpu`. -/
def block (args : Smc32Args) (r : Int) (cpu : Nat) : List Event :=
  [.accept args, .start args, .finish r, .deliver cpu r]

/-- The lives of calls that ran to the end, one after the other. -/
def blocks (calls : List (Smc32Args × Int × Nat)) : List Event :=
  calls.flatMap fun c => block c.1 c.2.1 c.2.2

/-- The life so far of the call in progress, as the state records it. -/
def current (s : SmStdCallState) (loop : Loop) : List Event :=
  match s.signalled, s.done, loop with
  | false, false, _ => []
  | true, _, .waiting => [.accept s.args]
  | true, _, .running => [.accept s.args, .start s.args]
  | false, true, _ => [.accept s.args, .start s.args, .finish s.ret]

/-- Lifecycle events are all but the other returns. -/
def Event.isLife : Event → Bool
  | .ret _ _ => false
  | _ => true

/-- The lifecycle events of an output. -/
def life (out : List Event) : List Event := out.filter Event.isLife

/-- What `sm.c` returns to the non-secure world, other than a call's result,
while a call is in progress or on a NOP. -/
def progressCodes : List Int :=
  [smErrInterrupted, smErrCpuIdle, smErrBusy, smErrNopInterrupted, smErrNopDone]

@[simp] theorem blocks_nil : blocks [] = [] := rfl

@[simp] theorem blocks_append (calls calls' : List (Smc32Args × Int × Nat)) :
    blocks (calls ++ calls') = blocks calls ++ blocks calls' := by
  simp [blocks]

@[simp] theorem blocks_singleton (args : Smc32Args) (r : Int) (cpu : Nat) :
    blocks [(args, r, cpu)] = block args r cpu := by
  simp [blocks]

@[simp] theorem life_nil : life [] = [] := rfl

@[simp] theorem life_append (out o : List Event) : life (out ++ o) = life out ++ life o :=
  List.filter_append _ _

@[simp] theorem life_ret (c : Nat) (v : Int) : life [.ret c v] = [] := rfl
@[simp] theorem life_accept (a : Smc32Args) : life [.accept a] = [.accept a] := rfl
@[simp] theorem life_start (a : Smc32Args) : life [.start a] = [.start a] := rfl
@[simp] theorem life_finish (r : Int) : life [.finish r] = [.finish r] := rfl
@[simp] theorem life_deliver (c : Nat) (r : Int) : life [.deliver c r] = [.deliver c r] := rfl

/-- `current` looks at no field but the flags, the arguments and the result. -/
theorem current_congr {s s' : SmStdCallState} (loop : Loop) (hsig : s'.signalled = s.signalled)
    (hdone : s'.done = s.done) (hargs : s'.args = s.args) (hret : s'.ret = s.ret) :
    current s' loop = current s loop := by
  simp only [current, hsig, hdone, hargs, hret]

theorem current_free {s : SmStdCallState} (loop : Loop) (h : s.Free) : current s loop = [] := by
  simp [current, h.1, h.2]

/-- What `current` records is the start of the call's `block`. -/
theorem current_eq_take (s : SmStdCallState) (loop : Loop) (cpu : Nat)
    (h : s.signalled = true → s.done = false) :
    ∃ n < 4, current s loop = (block s.args s.ret cpu).take n := by
  cases hs : s.signalled <;> cases hd : s.done <;> cases loop
  all_goals simp only [hs, hd, Bool.true_eq_false, imp_false, not_true_eq_false] at h
  case false.false.waiting | false.false.running => exact ⟨0, by omega, by simp [current, hs, hd]⟩
  case false.true.waiting | false.true.running => exact ⟨3, by omega, by simp [current, block, hs, hd]⟩
  case true.false.waiting => exact ⟨1, by omega, by simp [current, block, hs, hd]⟩
  case true.false.running => exact ⟨2, by omega, by simp [current, block, hs, hd]⟩

/-! ### The invariant -/

/-- What holds in every reachable machine, with the output `out` so far. -/
structure Inv (m : Machine) (out : List Event) : Prop where
  log : ∃ calls, life out = blocks calls ++ current m.state m.loop
  notBoth : m.state.signalled = true → m.state.done = false
  running : m.loop = .running → m.state.signalled = true
  free : m.state.Free → m.state.activeCpu = -1
  collecting : ∀ c : Nat, m.mode c = .collecting → m.state.activeCpu = c
  active : ∀ c : Nat, m.state.activeCpu = c → m.mode c ≠ .nonsecure

/-- What one step returned to the non-secure world: a call's result only on
the CPU expecting it, once the call is done, leaving no call in progress;
any other return asks the caller to come back, or is
`SM_ERR_UNEXPECTED_RESTART` with no call in progress. -/
structure StepOut (m m' : Machine) (o : List Event) : Prop where
  rets : ∀ cpu x, Event.ret cpu x ∈ o →
    x ∈ progressCodes ∨ (x = smErrUnexpectedRestart ∧ m.state.Free)
  delivers : ∀ cpu r, Event.deliver cpu r ∈ o →
    m.state.activeCpu = cpu ∧ m.state.done = true ∧ r = m.state.ret ∧
      m'.state.Free ∧ m'.state.activeCpu = -1

theorem Inv.init : Inv Machine.init [] where
  log := ⟨[], rfl⟩
  notBoth := by simp [Machine.init, SmStdCallState.init]
  running := by simp [Machine.init]
  free _ := rfl
  collecting c := by simp [Machine.init]
  active c := by simp [Machine.init, SmStdCallState.init]

variable {m m' : Machine} {out o : List Event}

theorem Inv.loop_of_free (h : Inv m out) (hf : m.state.Free) : m.loop = .waiting := by
  cases hl : m.loop with
  | waiting => rfl
  | running => simpa [hf.1] using h.running hl

theorem Inv.not_signalled (h : Inv m out) (hdone : m.state.done = true) :
    m.state.signalled = false := by
  cases hsig : m.state.signalled with
  | false => rfl
  | true => simp [h.notBoth hsig] at hdone

/-- With no call in progress, no CPU is collecting. -/
theorem Inv.not_collecting (h : Inv m out) (hf : m.state.Free) (c : Nat) :
    m.mode c ≠ .collecting := by
  intro hc
  have := h.collecting c hc
  rw [h.free hf] at this
  omega

/-- A CPU's mode changed to one that agrees with `active_cpu`; the other
CPUs agree with it as before. -/
theorem collecting_update {mode : Nat → CpuMode} {act : Int} {cpu : Nat} {x : CpuMode}
    (h : ∀ c : Nat, c ≠ cpu → mode c = .collecting → act = c)
    (hx : x = .collecting → act = cpu) :
    ∀ c : Nat, Function.update mode cpu x c = .collecting → act = c := by
  intro c hc
  by_cases hcpu : c = cpu
  · subst hcpu
    rw [Function.update_self] at hc
    exact hx hc
  · rw [Function.update_of_ne hcpu] at hc
    exact h c hcpu hc

theorem active_update {mode : Nat → CpuMode} {act : Int} {cpu : Nat} {x : CpuMode}
    (h : ∀ c : Nat, c ≠ cpu → act = c → mode c ≠ .nonsecure)
    (hx : act = cpu → x ≠ .nonsecure) :
    ∀ c : Nat, act = c → Function.update mode cpu x c ≠ .nonsecure := by
  intro c hc
  by_cases hcpu : c = cpu
  · subst hcpu
    rw [Function.update_self]
    exact hx hc
  · rw [Function.update_of_ne hcpu]
    exact h c hcpu hc

theorem StepOut.silent (hr : ∀ c x, Event.ret c x ∉ o) (hd : ∀ c r, Event.deliver c r ∉ o) :
    StepOut m m' o where
  rets c x hx := absurd hx (hr c x)
  delivers c r hx := absurd hx (hd c r)

theorem StepOut.ret {cpu : Nat} {x : Int} (hx : x ∈ progressCodes) :
    StepOut m m' [.ret cpu x] where
  rets c y hy := by
    simp only [List.mem_singleton, Event.ret.injEq] at hy
    exact .inl (hy.2 ▸ hx)
  delivers c r hr := by simp at hr

/-! ### Each action keeps the invariant -/

theorem Inv.smc {cpu : Nat} {args : Smc32Args} (h : Inv m out)
    (hs : m.smc cpu args = some (m', o)) : Inv m' (out ++ o) ∧ StepOut m m' o := by
  unfold Machine.smc at hs
  obtain ⟨calls, hlog⟩ := h.log
  by_cases hmode : m.mode cpu = .nonsecure
  swap
  · simp [hmode] at hs
  by_cases hnop : args.smcNr = smcScNop
  · -- a NOP: the CPU enters the secure world, nothing else changes
    simp only [hmode, hnop, if_true, Option.some.injEq, Prod.mk.injEq] at hs
    obtain ⟨rfl, rfl⟩ := hs
    exact ⟨{ h with
        log := ⟨calls, by simpa using hlog⟩
        collecting := collecting_update (fun c _ => h.collecting c) (by simp)
        active := active_update (fun c _ => h.active c) (by simp) },
      .silent (by simp) (by simp)⟩
  rcases smQueueStdcall_spec m.state cpu args with
    ⟨hf, hr, hq⟩ | ⟨hf, hr, ha, hq⟩ | ⟨hf, hr, hq⟩ | ⟨hf, hr, hq⟩
  · -- a new call, taken on this CPU
    simp only [hmode, hnop, hq, hf, if_true, if_false, Option.some.injEq, Prod.mk.injEq] at hs
    obtain ⟨rfl, rfl⟩ := hs
    refine ⟨{
        log := ⟨calls, ?_⟩
        notBoth := fun _ => hf.2
        running := fun _ => rfl
        free := fun hf' => absurd hf'.1 (by simp)
        collecting := ?_
        active := ?_ }, .silent (by simp) (by simp)⟩
    · rw [life_append, hlog, current_free _ hf, h.loop_of_free hf]
      simp [current]
    · exact collecting_update (fun c _ hc => absurd hc (h.not_collecting hf c)) (by simp)
    · exact active_update (fun c hne hc => absurd (by dsimp only at hc; omega) hne) (by simp)
  · -- a restart of the call in progress, on this CPU
    simp only [hmode, hnop, hq, hf, if_true, if_false, Option.some.injEq, Prod.mk.injEq] at hs
    obtain ⟨rfl, rfl⟩ := hs
    refine ⟨{ h with
        log := ⟨calls, ?_⟩
        free := fun hf' => absurd hf' hf
        collecting := ?_
        active := ?_ }, .silent (by simp) (by simp)⟩
    · rw [List.append_nil, hlog]
      rfl
    · refine collecting_update (fun c _ hc => ?_) (by simp)
      have := h.collecting c hc
      omega
    · exact active_update (fun c hne hc => absurd (by dsimp only at hc; omega) hne) (by simp)
  · -- busy: refused, the state is as it was
    simp only [hmode, hnop, hq, if_true, if_false] at hs
    simp only [smErrBusy_ne_zero, if_false, Option.some.injEq, Prod.mk.injEq] at hs
    obtain ⟨rfl, rfl⟩ := hs
    exact ⟨{ h with log := ⟨calls, by simpa using hlog⟩ }, .ret (by simp [progressCodes])⟩
  · -- a restart with no call in progress
    simp only [hmode, hnop, hq, if_true, if_false] at hs
    simp only [smErrUnexpectedRestart_ne_zero, if_false, Option.some.injEq, Prod.mk.injEq] at hs
    obtain ⟨rfl, rfl⟩ := hs
    refine ⟨{ h with log := ⟨calls, by simpa using hlog⟩ }, ⟨?_, by simp⟩⟩
    intro c x hx
    simp only [List.mem_singleton, Event.ret.injEq] at hx
    exact .inr ⟨hx.2, hf⟩

theorem Inv.idle {cpu : Nat} (h : Inv m out) (hs : m.idle cpu = some (m', o)) :
    Inv m' (out ++ o) ∧ StepOut m m' o := by
  unfold Machine.idle at hs
  split_ifs at hs with hmode hact
  all_goals simp only [Option.some.injEq, Prod.mk.injEq] at hs
  all_goals obtain ⟨rfl, rfl⟩ := hs
  · -- the CPU expecting the result goes on to collect it
    exact ⟨{ h with
        log := by simpa using h.log
        collecting := collecting_update (fun c _ => h.collecting c) (fun _ => hact.symm)
        active := active_update (fun c _ => h.active c) (by simp) },
      .silent (by simp) (by simp)⟩
  · -- any other CPU returns `SM_ERR_NOP_DONE`
    exact ⟨{ h with
        log := by simpa using h.log
        collecting := collecting_update (fun c _ => h.collecting c) (by simp)
        active := active_update (fun c _ => h.active c) (fun hc => absurd hc.symm hact) },
      .ret (by simp [progressCodes])⟩

theorem Inv.collect {v cpu : Nat} (h : Inv m out) (hs : m.collect v cpu = some (m', o)) :
    Inv m' (out ++ o) ∧ StepOut m m' o := by
  unfold Machine.collect at hs
  by_cases hmode : m.mode cpu = .collecting
  swap
  · simp [hmode] at hs
  rw [if_pos hmode] at hs
  have hact : m.state.activeCpu = cpu := h.collecting cpu hmode
  -- the only CPU collecting is `active_cpu`, and it leaves
  have hcoll : ∀ c : Nat, Function.update m.mode cpu .nonsecure c = .collecting →
      (-1 : Int) = c := by
    refine collecting_update (fun c _ hc => ?_) (by simp)
    have := h.collecting c hc
    omega
  obtain ⟨calls, hlog⟩ := h.log
  cases hdone : m.state.done
  · -- not done: one of the codes that ask the caller to come back
    obtain ⟨hstate, hcode⟩ := smGetStdcallRet_not_done v hact hdone
    simp only [hdone, Bool.false_eq_true, and_false, if_false, hstate, Option.some.injEq,
      Prod.mk.injEq] at hs
    obtain ⟨rfl, rfl⟩ := hs
    refine ⟨{
        log := ⟨calls, ?_⟩
        notBoth := fun _ => rfl
        running := h.running
        free := fun _ => rfl
        collecting := hcoll
        active := fun c hc => ?_ }, .ret ?_⟩
    · rw [life_append, life_ret, List.append_nil, hlog]
      exact congrArg (blocks calls ++ ·) (current_congr _ rfl hdone rfl rfl)
    · dsimp only at hc
      omega
    · rcases hcode with hc | ⟨hc, -⟩ | hc <;> simp [hc, progressCodes]
  · -- done: the result is delivered here and the state is idle again
    have hsig := h.not_signalled hdone
    have hloop : m.loop = .waiting := by
      cases hl : m.loop with
      | waiting => rfl
      | running => simpa [hsig] using h.running hl
    rw [smGetStdcallRet_done v hact hdone] at hs
    simp only [hact, hdone, and_self, if_true, Option.some.injEq, Prod.mk.injEq] at hs
    obtain ⟨rfl, rfl⟩ := hs
    refine ⟨{
        log := ⟨calls ++ [(m.state.args, m.state.ret, cpu)], ?_⟩
        notBoth := fun hs' => by simp [hsig] at hs'
        running := fun hl => by simp [hloop] at hl
        free := fun _ => rfl
        collecting := hcoll
        active := fun c hc => ?_ }, ⟨by simp, ?_⟩⟩
    · rw [life_append, hlog, hloop]
      simp [current, hsig, hdone, block]
    · dsimp only at hc
      omega
    · intro c r hr
      simp only [List.mem_singleton, Event.deliver.injEq] at hr
      obtain ⟨rfl, rfl⟩ := hr
      exact ⟨hact, hdone, rfl, ⟨hsig, rfl⟩, rfl⟩

theorem Inv.irq {cpu : Nat} (h : Inv m out) (hs : m.irq cpu = some (m', o)) :
    Inv m' (out ++ o) ∧ StepOut m m' o := by
  unfold Machine.irq smIrqReturnNs at hs
  split_ifs at hs with hmode hact
  all_goals simp only [Option.some.injEq, Prod.mk.injEq] at hs
  all_goals obtain ⟨rfl, rfl⟩ := hs
  · -- the interrupted CPU was expecting the result: now no CPU is
    obtain ⟨calls, hlog⟩ := h.log
    refine ⟨{ h with
        log := ⟨calls, ?_⟩
        free := fun _ => rfl
        collecting := ?_
        active := fun c hc => ?_ }, .ret (by simp [progressCodes])⟩
    · rw [life_append, life_ret, List.append_nil, hlog]
      rfl
    · refine collecting_update (fun c _ hc => ?_) (by simp)
      have := h.collecting c hc
      omega
    · dsimp only at hc
      omega
  · -- any other CPU was running a NOP
    exact ⟨{ h with
        log := by simpa using h.log
        collecting := collecting_update (fun c _ => h.collecting c) (by simp)
        active := active_update (fun c _ => h.active c) (fun hc => absurd hc hact) },
      .ret (by simp [progressCodes])⟩

theorem Inv.wake (h : Inv m out) (hs : m.wake = some (m', o)) :
    Inv m' (out ++ o) ∧ StepOut m m' o := by
  unfold Machine.wake at hs
  split_ifs at hs with hw
  simp only [Option.some.injEq, Prod.mk.injEq] at hs
  obtain ⟨rfl, rfl⟩ := hs
  obtain ⟨calls, hlog⟩ := h.log
  refine ⟨{ h with log := ⟨calls, ?_⟩, running := fun _ => hw.2 }, .silent (by simp) (by simp)⟩
  rw [life_append, hlog, hw.1]
  simp [current, hw.2]

theorem Inv.finish {r : Int} (h : Inv m out) (hs : m.finish r = some (m', o)) :
    Inv m' (out ++ o) ∧ StepOut m m' o := by
  unfold Machine.finish at hs
  split_ifs at hs with hl
  simp only [Option.some.injEq, Prod.mk.injEq] at hs
  obtain ⟨rfl, rfl⟩ := hs
  have hsig := h.running hl
  have hdone := h.notBoth hsig
  obtain ⟨calls, hlog⟩ := h.log
  refine ⟨{ h with
      log := ⟨calls, ?_⟩
      notBoth := by simp [smStdcallDone]
      running := by simp
      free := ?_ }, .silent (by simp) (by simp)⟩
  · rw [life_append, hlog, hl]
    simp [current, smStdcallDone, hsig, hdone]
  · simp [SmStdCallState.Free, smStdcallDone]

theorem Inv.step {v : Nat} {a : Action} (h : Inv m out) (hs : m.step v a = some (m', o)) :
    Inv m' (out ++ o) ∧ StepOut m m' o := by
  cases a with
  | smc cpu args => exact h.smc hs
  | idle cpu => exact h.idle hs
  | collect cpu => exact h.collect hs
  | irq cpu => exact h.irq hs
  | wake => exact h.wake hs
  | finish r => exact h.finish hs

theorem Inv.run {v : Nat} {as : List Action} (h : LTS.Run (Machine.step v) Machine.init as out m) :
    Inv m out :=
  h.induction Inv.init fun hi hs => (hi.step hs).1

/-! ### The protocol -/

/-- A new call, from a CPU in the non-secure world, is taken exactly when no
call is in progress, and is otherwise refused as busy. -/
theorem Machine.step_call (v : Nat) (m : Machine) {cpu : Nat} {args : Smc32Args}
    (hmode : m.mode cpu = .nonsecure) (hnop : args.smcNr ≠ smcScNop)
    (hr : args.smcNr ≠ smcScRestartLast) :
    ∃ m', m.step v (.smc cpu args) =
      some (m', if m.state.Free then [.accept args] else [.ret cpu smErrBusy]) := by
  simp only [Machine.step, Machine.smc, hmode, hnop, if_true, if_false]
  rcases smQueueStdcall_spec m.state cpu args with
    ⟨hf, -, hq⟩ | ⟨-, hr', -⟩ | ⟨hf, -, hq⟩ | ⟨-, hr', -⟩
  · -- taken
    exact ⟨_, by simp only [hq, hf, if_true]; rfl⟩
  · exact absurd hr' hr
  · -- refused
    exact ⟨_, by simp only [hq, hf, if_false, smErrBusy_ne_zero]; rfl⟩
  · exact absurd hr' hr

/-- `SMC_SC_RESTART_LAST` with no call in progress is refused, and changes
nothing. -/
theorem Machine.step_restart_free (v : Nat) (m : Machine) {cpu : Nat} (params : List Nat)
    (hmode : m.mode cpu = .nonsecure) (hf : m.state.Free) :
    m.step v (.smc cpu ⟨smcScRestartLast, params⟩) =
      some (m, [.ret cpu smErrUnexpectedRestart]) := by
  rcases smQueueStdcall_spec m.state cpu ⟨smcScRestartLast, params⟩ with
    ⟨-, hr, -⟩ | ⟨hf', -⟩ | ⟨hf', -⟩ | ⟨-, -, hq⟩
  · exact absurd rfl hr
  · exact absurd hf hf'
  · exact absurd hf hf'
  · simp [Machine.step, Machine.smc, hmode, smcScRestartLast_ne_nop, hq]

/-- The standard call protocol over every run from boot: the calls' lives
follow one another whole, then the start of the current one; a new call is
taken exactly when none is in progress; a restart with none in progress is
refused; and every return to the non-secure world is a call's result on the
CPU expecting it, or a code that asks the caller to come back. -/
theorem stdcall_run_spec (v : Nat) {as : List Action}
    (h : LTS.Run (Machine.step v) Machine.init as out m) :
    (∃ calls, ∃ n < 4, ∃ args r cpu, life out = blocks calls ++ (block args r cpu).take n) ∧
    (∀ cpu args, m.mode cpu = .nonsecure → args.smcNr ≠ smcScNop →
      args.smcNr ≠ smcScRestartLast → ∃ m', m.step v (.smc cpu args) =
        some (m', if m.state.Free then [.accept args] else [.ret cpu smErrBusy])) ∧
    (∀ cpu params, m.mode cpu = .nonsecure → m.state.Free →
      m.step v (.smc cpu ⟨smcScRestartLast, params⟩) =
        some (m, [.ret cpu smErrUnexpectedRestart])) ∧
    ∀ a m' o, m.step v a = some (m', o) → StepOut m m' o := by
  have hinv := Inv.run h
  refine ⟨?_, fun cpu args => Machine.step_call v m, fun cpu params =>
    Machine.step_restart_free v m params, fun a m' o hs => (hinv.step hs).2⟩
  obtain ⟨calls, hlog⟩ := hinv.log
  obtain ⟨n, hn, hcur⟩ := current_eq_take m.state m.loop 0 hinv.notBoth
  exact ⟨calls, n, hn, m.state.args, m.state.ret, 0, hcur ▸ hlog⟩

end Sm
