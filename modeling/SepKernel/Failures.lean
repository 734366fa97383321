import SepKernel.Roots

/-!
# Failing calls

A capability call that returns the code of a failure has changed nothing, the register of its
caller that takes the code apart. The capability calls check before they write, and an invocation
that fails has either acquired nobody or, if it is a supervisor's, has released its supervisee as it
was.
-/

namespace SepKernel

open Transition (Reachable)

variable {cfg : Config} {s s' t : Kernel} {st : System} {p q : Nat} {op : CapOp} {α : Type}
  {m : KernelM Outcome} {x : KernelM α} {f : α → KernelM Outcome} {code y : Word}

/-- If the handler returns the code of a failure, all is as before, except that `a0` of the caller
    may have changed. -/
def FailsClean (m : KernelM Outcome) (p : Nat) (s : Kernel) : Prop :=
  ∀ code t, m.run s = .ok (.ret code, t) → code ≠ errorOk → ∃ x, t = s.setReg p .a0 x

theorem Kernel.setReg_self (s : Kernel) (p : Nat) (r : Reg) :
    s.setReg p r ((s.procs p).regs r) = s := by
  simp [Kernel.setReg, Kernel.setProc]

namespace FailsClean

theorem of_run (h : m.run s = .ok (.ret code, s.setReg p .a0 y)) : FailsClean m p s := by
  intro code' t ht _
  rw [h] at ht
  exact ⟨y, (Prod.mk.inj (Except.ok.inj ht)).2.symm⟩

theorem of_same (h : m.run s = .ok (.ret code, s)) : FailsClean m p s :=
  of_run (h.trans (by rw [Kernel.setReg_self]))

/-- A call that does an operation on the capabilities. -/
theorem of_performs (hs : ∃ y, s' = s.setReg p .a0 y)
    (h : Performs s m op fun out t => Returns op out ∧ CapStep cfg s' op t) :
    FailsClean m p s := by
  intro code t ht hcode
  by_cases hh : op.Hangs s
  · rw [h.1 hh] at ht
    cases ht
  · obtain ⟨out, t', hrun, ⟨code', rfl, hor⟩, hstep⟩ := h.2 hh
    rw [hrun] at ht
    obtain ⟨hout, rfl⟩ := Prod.mk.inj (Except.ok.inj ht)
    obtain rfl := Outcome.ret.inj hout
    obtain rfl := hor.resolve_left hcode
    cases hstep
    exact hs

end FailsClean

/-! ## Handlers that cannot fail -/

/-- If it returns, it returns the code of success. -/
def EndsOk (m : KernelM Outcome) : Prop :=
  ∀ s code t, m.run s = .ok (.ret code, t) → code = errorOk

namespace EndsOk

theorem ret : EndsOk (return .ret errorOk) := by
  intro s code t h
  cases h
  rfl

theorem yielded : EndsOk (return .yielded) := by
  intro s code t h
  cases h

/-- Whatever comes first, what ends the call is success. -/
theorem bind (h : ∀ a, EndsOk (f a)) : EndsOk (x >>= f) := by
  intro s code t ht
  obtain ⟨a, s', -, ha⟩ := run_bind_inv ht
  exact h a s' code t ha

theorem yield (p : Nat) : EndsOk (schedYield p) := bind fun _ => yielded

theorem failsClean (h : EndsOk m) : FailsClean m p s :=
  fun code t ht hcode => absurd (h s code t ht) hcode

end EndsOk

theorem FailsClean.congr {m' : KernelM Outcome} (h : m.run s = m'.run s)
    (hm : FailsClean m' p s) : FailsClean m p s := by
  rw [FailsClean, h]
  exact hm

/-! ## The capability calls -/

/-- A move that fails has changed nothing. -/
theorem syscallMoveCap_failsClean (hg : s.Good cfg) (hp : p < cfg.nProc)
    (srcCidx destCidx : Word) : FailsClean (syscallMoveCap cfg p srcCidx destCidx) p s :=
  .of_performs ⟨_, (Kernel.setReg_self s p .a0).symm⟩ (syscallMoveCap_performs srcCidx destCidx hg hp)

/-- Nor has a deletion. -/
theorem syscallDeleteCap_failsClean (hg : s.Good cfg) (cidx : Word) :
    FailsClean (syscallDeleteCap cfg p cidx) p s := by
  by_cases hl : s.Live (.slot p (slotOf cfg cidx))
  · exact .of_performs ⟨_, (Kernel.setReg_self s p .a0).symm⟩ (syscallDeleteCap_performs hg hl)
  · exact .of_same (syscallDeleteCap_run_of_dead hl)

/-- A revocation only `a0`. -/
theorem syscallRevokeCap_failsClean (hg : s.Good cfg) (hp : p < cfg.nProc) (cidx : Word) :
    FailsClean (syscallRevokeCap cfg p cidx) p s := by
  by_cases hl : s.Live (.slot p (slotOf cfg cidx))
  · exact .of_run (syscallRevokeCap_run_of_live hl)
  · exact .of_performs (⟨_, rfl⟩) (syscallRevokeCap_performs hg hp hl)

/-- And a derivation. -/
theorem syscallDeriveCap_failsClean (hg : s.Good cfg) (hp : p < cfg.nProc)
    (srcCidx destCidx word0 word1 : Word) :
    FailsClean (syscallDeriveCap cfg p srcCidx destCidx word0 word1) p s :=
  .of_performs (⟨_, rfl⟩) (syscallDeriveCap_performs srcCidx destCidx word0 word1 hg hp)

/-! ## Supervisors -/

/-- A process that is suspended already stays as it is. -/
theorem or_suspended_of_and {x : Word} (h : x &&& procStateSuspended ≠ 0) :
    x ||| procStateSuspended = x := by
  have h4 : procStateSuspended = BitVec.twoPow 64 2 := by decide
  rw [h4, BitVec.and_twoPow] at h
  have hbit : x.getLsbD 2 = true := by
    by_contra hb
    exact h (if_neg hb)
  rw [h4]
  apply BitVec.eq_of_getLsbD_eq
  intro i hi
  rw [BitVec.getLsbD_or, BitVec.getLsbD_twoPow]
  by_cases h2 : 2 = i
  · subst h2
    simp [hbit]
  · simp [h2]

/-- A suspension that fails has set a bit that was set. -/
theorem suspend_failsClean : FailsClean (do
    return .ret (if ← procSupervisorSuspend q then errorOk else errorFailed)) p s := by
  obtain ⟨b, hb, hor⟩ := procSupervisorSuspend_run q s
  rcases hor with rfl | hset
  · intro code t ht hcode
    rw [run_bind_ok hb] at ht
    cases ht
    exact absurd rfl hcode
  · have hsame : s.setState q (suspended (s.procs q).state) = s := by
      rw [suspended, if_neg fun h => hset h.1]
      exact Kernel.setState_self (or_suspended_of_and hset).symm
    rw [hsame] at hb
    exact .of_same (run_bind_ok hb _)

/-- A resumption of one that is not suspended. -/
theorem resume_failsClean : FailsClean (do
    return .ret (if ← procSupervisorResume q then errorOk else errorFailed)) p s := by
  by_cases hq : (s.procs q).state = procStateSuspended
  · intro code t ht hcode
    rw [run_bind_ok (procSupervisorResume_run hq)] at ht
    cases ht
    exact absurd rfl hcode
  · exact .of_same ((run_bind_ok (procSupervisorResume_run_of_ne hq) _).trans rfl)

/-- A transfer that fails gives the supervisee back as it was. -/
theorem supervisorMove_failsClean {sp dp : Nat} (hg : s.Good cfg) (hdp : dp < cfg.nProc)
    (srcCidx destCidx : Word) :
    FailsClean (supervisorMove cfg q sp srcCidx dp destCidx) p s := by
  by_cases hq : (s.procs q).state = procStateSuspended
  swap
  · exact .of_same ((run_bind_ok (procSupervisorAcquire_run_of_ne hq) _).trans rfl)
  intro code t ht hcode
  rw [supervisorMove, run_bind_ok (procSupervisorAcquire_run hq)] at ht
  simp only [Bool.not_true, Bool.false_eq_true, if_false] at ht
  obtain ⟨code', s₁, hmove, ht⟩ := run_bind_inv ht
  obtain ⟨_, s₂, hrel, ht⟩ := run_bind_inv ht
  obtain ⟨hout, rfl⟩ := Prod.mk.inj (Except.ok.inj ht)
  obtain rfl := Outcome.ret.inj hout
  -- the supervisee is busy while the capability would move
  have hg' : (s.setState q procStateSuspendedBusy).Good cfg := SameCaps.good (.setState _) hg
  obtain ⟨hhang, hrun⟩ := interprocessMove_performs sp srcCidx destCidx hg' hdp
  have hno : ¬ (transferOp cfg (s.setState q procStateSuspendedBusy) sp srcCidx dp
      destCidx).Hangs (s.setState q procStateSuspendedBusy) := by
    intro h
    rw [hhang h] at hmove
    cases hmove
  obtain ⟨code'', s₁', hmove', hor, hstep⟩ := hrun hno
  rw [hmove'] at hmove
  obtain ⟨rfl, rfl⟩ := Prod.mk.inj (Except.ok.inj hmove)
  rw [hor.resolve_left hcode] at hstep
  cases hstep
  rw [procSupervisorRelease_run (Kernel.state_setState _), Kernel.setState_setState,
    Kernel.setState_self hq] at hrel
  obtain rfl := (Prod.mk.inj (Except.ok.inj hrel)).2
  exact ⟨_, (Kernel.setReg_self _ p .a0).symm⟩

/-- What needs the supervisee stopped fails only where it is not. -/
theorem acquire_failsClean (h : EndsOk m) : FailsClean (do
    if !(← procSupervisorAcquire q) then
      return .ret errorSuperviseeBusy
    m) p s := by
  by_cases hq : (s.procs q).state = procStateSuspended
  · intro code t ht hcode
    rw [run_bind_ok (procSupervisorAcquire_run hq)] at ht
    simp only [Bool.not_true, Bool.false_eq_true, if_false] at ht
    exact absurd (h _ code t ht) hcode
  · exact .of_same ((run_bind_ok (procSupervisorAcquire_run_of_ne hq) _).trans rfl)

/-- Every operation of a supervisor. -/
theorem syscallInvokeSupervisor_failsClean {cap : Cap} (hg : s.Good cfg) (hp : p < cfg.nProc)
    (ht : capIsType cap .supervisor = true) (hv : cap.view.Valid cfg) (pid o arg0 arg1 : Word) :
    FailsClean (syscallInvokeSupervisor cfg p cap pid o arg0 arg1) p s := by
  rw [Cap.view_eq ht] at hv
  have hstop : (capSupervisorGetEnd cap).toNat ≤ cfg.nProc := hv.2
  rw [syscallInvokeSupervisor, FailsClean, run_bind_ok (run_kassert ht s),
    run_bind_ok (run_lift_ok (Field.checkedGet_eq ht) s),
    run_bind_ok (run_lift_ok (Field.checkedGet_eq ht) s), ← FailsClean]
  by_cases hb : (decide (capSupervisorGetFree cap > pid) ||
      decide (pid ≥ capSupervisorGetEnd cap)) = true
  · simp only [hb, if_true]
    exact .of_same rfl
  have hq : pid.toNat < cfg.nProc := by
    simp only [Bool.or_eq_true, decide_eq_true_iff, not_or, ge_iff_le, BitVec.le_def,
      Nat.not_le] at hb
    exact hb.2.trans_le hstop
  simp only [Bool.eq_false_iff.mpr hb, Bool.false_eq_true, if_false]
  rw [FailsClean, run_bind_ok (processAt_run hq), ← FailsClean]
  generalize o.toNat = n
  cases n using supervisorOp_cases with
  | suspend => exact suspend_failsClean
  | resume => exact resume_failsClean
  | getState => exact (EndsOk.bind fun _ => .bind fun _ => .ret).failsClean
  | readReg => exact acquire_failsClean (.bind fun _ => .bind fun _ => .bind fun _ => .ret)
  | writeReg => exact acquire_failsClean (.bind fun _ => .bind fun _ => .ret)
  | readCap =>
    exact acquire_failsClean (.bind fun _ => .bind fun _ => .bind fun _ => .bind fun _ => .ret)
  | giveCap => exact supervisorMove_failsClean hg hq _ _
  | takeCap => exact supervisorMove_failsClean hg hp _ _
  | unimplemented n => exact .of_same rfl

/-! ## Messages -/

/-- A receiver invocation cannot fail. -/
theorem receiver_endsOk (cap : Cap) : EndsOk (syscallInvokeReceiver p cap) :=
  .bind fun _ => .bind fun _ => .bind fun _ => .yield p

/-- Nor can a server invocation. -/
theorem server_endsOk (cap : Cap) (msg0 msg1 msg2 msg3 srcCidx : Word) :
    EndsOk (syscallInvokeServer cfg p cap msg0 msg1 msg2 msg3 srcCidx) := by
  refine .bind fun _ => .bind fun channel => .bind fun proc => .bind fun client => ?_
  cases client with
  | none => exact .bind fun _ => .yield p
  | some r => exact .bind fun _ => .bind fun _ => .bind fun _ => .yield p

/-- A message fails where nobody waits, and there the search has touched nothing. -/
theorem acquireReceiver_failsClean {w : Word} {g : Nat → KernelM Outcome}
    (hch : w.toNat < cfg.nChannels) (hg : ∀ r, EndsOk (g r)) : FailsClean (do
      match ← acquireReceiver (← readReceiver cfg w.toNat 0) w with
      | none => return .ret errorNoReceiver
      | some r => g r) p s := by
  rw [FailsClean, run_bind_ok (readReceiver_run hch), ← FailsClean]
  cases hacq : acquired s w.toNat 0 with
  | none => exact .of_same (run_bind_ok (acquireReceiver_run_of_none hacq) _)
  | some r =>
    intro code t ht hcode
    rw [run_bind_ok (acquireReceiver_run_of_some hacq)] at ht
    exact absurd (hg r _ code t ht) hcode

/-- A sender invocation fails before it has touched anything. -/
theorem syscallInvokeSender_failsClean {cap : Cap} (ht : capIsType cap .sender = true)
    (hv : cap.view.Valid cfg) (msg0 msg1 msg2 msg3 srcCidx : Word) :
    FailsClean (syscallInvokeSender cfg p cap msg0 msg1 msg2 msg3 srcCidx) p s := by
  rw [Cap.view_eq ht] at hv
  rw [syscallInvokeSender, FailsClean, run_bind_ok (run_kassert ht s),
    run_bind_ok (run_lift_ok (Field.checkedGet_eq ht) s), ← FailsClean]
  exact acquireReceiver_failsClean hv.2 fun r => .bind fun _ => .bind fun _ => .ret

/-- And a client invocation. -/
theorem syscallInvokeClient_failsClean {cap : Cap} (ht : capIsType cap .client = true)
    (hv : cap.view.Valid cfg) (msg0 msg1 msg2 msg3 srcCidx : Word) :
    FailsClean (syscallInvokeClient cfg p cap msg0 msg1 msg2 msg3 srcCidx) p s := by
  rw [Cap.view_eq ht] at hv
  rw [syscallInvokeClient, FailsClean, run_bind_ok (run_kassert ht s),
    run_bind_ok (run_lift_ok (Field.checkedGet_eq ht) s), ← FailsClean]
  exact acquireReceiver_failsClean hv.2 fun r => .bind fun _ => .bind fun _ => .bind fun _ =>
    .bind fun _ => .bind fun _ => .yield p

/-! ## Invocations -/

/-- So do invocations of any type. -/
theorem syscallInvokeCap_failsClean (hg : s.Good cfg) (hp : p < cfg.nProc)
    (cidx arg1 arg2 arg3 arg4 arg5 : Word) :
    FailsClean (syscallInvokeCap cfg p cidx arg1 arg2 arg3 arg4 arg5) p s := by
  by_cases hl : s.Live (.slot p (slotOf cfg cidx))
  swap
  · have hempty : capIsType nullCap .empty = true := by decide
    exact .of_same (invokeCap_run_of_type (Kernel.capAt_of_dead hl) hempty)
  have hvalid := hg.valid _ _ hl
  have hcap := Kernel.capAt_of_live hl
  generalize s.caps (.slot p (slotOf cfg cidx)) = cap at hvalid hcap
  cases ht : cap.view.type? with
  | none =>
    -- a live capability has a type
    cases hv : cap.view <;> rw [hv] at ht hvalid
    case other => exact absurd hvalid.1 id
    all_goals cases ht
  | some ty =>
    have hty : capIsType cap ty = true := Cap.isType_of_view ht
    refine .congr (invokeCap_run_of_type hcap hty) ?_
    cases ty with
    | receiver => exact (receiver_endsOk cap).failsClean
    | server => exact (server_endsOk cap _ _ _ _ _).failsClean
    | sender => exact syscallInvokeSender_failsClean hty hvalid _ _ _ _ _
    | client => exact syscallInvokeClient_failsClean hty hvalid _ _ _ _ _
    | supervisor => exact syscallInvokeSupervisor_failsClean hg hp hty hvalid _ _ _ _
    | _ => exact .of_same rfl

/-- In every state of every run, a capability call of the process a hart runs that returns the code
    of a failure leaves everything as the trap found it, its caller's `a0` apart. -/
theorem failed_call_changes_nothing {h : Nat} (hr : Reachable (Booted cfg) (Step cfg) st)
    (hcur : st.current h = some p) (user : Reg → Word) :
    (∀ srcCidx destCidx, FailsClean (syscallMoveCap cfg p srcCidx destCidx) p
      (st.kernel.enter p user)) ∧
    (∀ cidx, FailsClean (syscallDeleteCap cfg p cidx) p (st.kernel.enter p user)) ∧
    (∀ cidx, FailsClean (syscallRevokeCap cfg p cidx) p (st.kernel.enter p user)) ∧
    (∀ srcCidx destCidx word0 word1, FailsClean
      (syscallDeriveCap cfg p srcCidx destCidx word0 word1) p (st.kernel.enter p user)) ∧
    ∀ cidx arg1 arg2 arg3 arg4 arg5, FailsClean
      (syscallInvokeCap cfg p cidx arg1 arg2 arg3 arg4 arg5) p (st.kernel.enter p user) := by
  have hgood : st.Good cfg := good_of_reachable (fun _ => Booted.root) hr
  have hg : (st.kernel.enter p user).Good cfg := sameCaps_enter.good hgood.kernel
  have hp : p < cfg.nProc := (hgood.current h p hcur).1
  exact ⟨syscallMoveCap_failsClean hg hp, syscallDeleteCap_failsClean hg,
    syscallRevokeCap_failsClean hg hp, syscallDeriveCap_failsClean hg hp,
    syscallInvokeCap_failsClean hg hp⟩

/-- What a handler leaves, if it returns a given code. -/
def ranTo (code : Word) (m : KernelM Outcome) (s : Kernel) : Option Kernel :=
  match m.run s with
  | .ok (.ret c, t) => if c = code then some t else none
  | _ => none

theorem run_of_ranTo (h : ranTo code m s = some t) : m.run s = .ok (.ret code, t) := by
  unfold ranTo at h
  split at h
  · next heq =>
    obtain ⟨rfl, ht⟩ := Option.ite_none_right_eq_some.mp h
    rw [heq, Option.some.inj ht]
  · cases h

/-- The root process gives process 1 a capability it does not have. -/
def virtGivesNothing : Option Kernel :=
  ranTo errorEmpty (syscallInvokeCap .virt 0 2 1 6 20 20 0)
    ((virtAfter [.schedule 1 0]).kernel.enter 0 (callRegs 6 2 1 6 20 20 0))

/-- The root process gives an empty slot away. -/
theorem failed_call_virtGivesNothing : ∃ t x, virtGivesNothing = some t ∧
    t = ((virtAfter [.schedule 1 0]).kernel.enter 0 (callRegs 6 2 1 6 20 20 0)).setReg 0 .a0 x := by
  have hr : Reachable (Booted .virt) (Step .virt) (virtAfter [.schedule 1 0]) :=
    virtAfter_reachable _
  have hcur : (virtAfter [.schedule 1 0]).current 1 = some 0 := by decide +kernel
  have hsome : virtGivesNothing.isSome = true := by decide +kernel
  obtain ⟨t, ht⟩ := Option.isSome_iff_exists.mp hsome
  obtain ⟨-, -, -, -, hinvoke⟩ := failed_call_changes_nothing hr hcur (callRegs 6 2 1 6 20 20 0)
  obtain ⟨x, hx⟩ := hinvoke 2 1 6 20 20 0 errorEmpty t (run_of_ranTo ht) (by decide)
  exact ⟨t, x, ht, hx⟩

end SepKernel
