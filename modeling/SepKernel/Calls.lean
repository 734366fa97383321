import SepKernel.Moves
import SepKernel.System

/-!
# What the system calls do

Every system call does what `SepKernel.Requests` reads off the state it starts from, and nothing
else: `syscallVector_performs`. The capability calls were settled in `SepKernel.Moves`; here are
the invocations and the table.
-/

namespace SepKernel

variable {cfg : Config} {s s' t : Kernel} {n : NodeRef} {p q r : Nat} {ch w : Word} {op : CapOp}
  {k : Fin 2} {cidx srcCidx msg0 msg1 msg2 msg3 : Word} {user : Reg → Word}

/-! ## Frames -/

/-- Operations on capabilities do not touch the control blocks. -/
theorem CapStep.procs (h : CapStep cfg s op t) : t.procs = s.procs := by
  cases h with
  | derive => exact Kernel.procs_deriveNode
  | transfer => exact Kernel.procs_handOver
  | _ => rfl

/-- Nor who is noted for a reply. -/
theorem CapStep.replies (h : CapStep cfg s op t) (ch : Nat) :
    t.receivers ch 1 = s.receivers ch 1 := by
  cases h with
  | derive => exact Kernel.receivers_assign_one ch
  | transfer => exact Kernel.receivers_assign_one ch
  | _ => rfl

namespace CapEffect

theorem good (h : CapEffect cfg s op t) (hg : s.Good cfg) : t.Good cfg := by
  obtain ⟨s', t', h1, h2, h3⟩ := h
  exact h3.good (h2.good (h1.good hg))

theorem trans_same {t' : Kernel} (h : CapEffect cfg s op t) (h' : SameCaps cfg t t') :
    CapEffect cfg s op t' :=
  let ⟨s₁, t₁, h1, h2, h3⟩ := h
  ⟨s₁, t₁, h1, h2, h3.trans h'⟩

theorem same_trans (h' : SameCaps cfg s s') (h : CapEffect cfg s' op t) :
    CapEffect cfg s op t :=
  let ⟨s₁, t₁, h1, h2, h3⟩ := h
  ⟨s₁, t₁, h'.trans h1, h2, h3⟩

end CapEffect

/-- A call that does an operation on the capabilities and returns. -/
theorem CallEffect.of_capStep {out : Outcome} (hout : Returns op out)
    (hs : s' = s ∨ ∃ r x, s' = s.setReg p r x) (h : CapStep cfg s' op t) :
    CallEffect cfg s p op .none .ret none out t := by
  have hsame : SameCaps cfg s s' := by
    rcases hs with rfl | ⟨r, x, rfl⟩
    · exact .refl _
    · exact .setReg r x
  have hprocs : (∀ q, q ≠ p → s'.procs q = s.procs q) ∧
      (s'.procs p).state = (s.procs p).state := by
    rcases hs with rfl | ⟨r, x, rfl⟩
    · exact ⟨fun _ _ => rfl, rfl⟩
    · exact ⟨fun q hq => Kernel.procs_setReg_of_ne r x hq, Kernel.state_setReg r x⟩
  have hrep : ∀ ch, s'.receivers ch 1 = s.receivers ch 1 := by
    rcases hs with rfl | ⟨r, x, rfl⟩ <;> exact fun _ => rfl
  exact {
    caps := ⟨s', t, hsame, h, .refl t⟩
    others := fun q hq => by rw [h.procs, hprocs.1 q hq]; rfl
    caller := ⟨hout.imp fun _ h => h.1, by rw [h.procs, hprocs.2]; rfl⟩
    replies := fun ch => by simp [h.replies, hrep] }

/-- A call that touches nothing but its caller's registers. -/
theorem CallEffect.of_same {out : Outcome} (hout : ∃ code, out = .ret code)
    (hsame : SameCaps cfg s t) (hothers : ∀ q, q ≠ p → t.procs q = s.procs q)
    (hstate : (t.procs p).state = (s.procs p).state)
    (hrep : ∀ ch, t.receivers ch 1 = s.receivers ch 1) :
    CallEffect cfg s p .skip .none .ret none out t where
  caps := ⟨s, s, .refl s, .skip s, hsame⟩
  others := hothers
  caller := ⟨hout, hstate⟩
  replies ch := by simp [hrep]

/-! ## Messages -/

namespace Kernel

/-- The five writes to the registers of a receiver. -/
def message (s : Kernel) (r : Nat) (msg0 msg1 msg2 msg3 : Word) : Kernel :=
  ((((s.setReg r .a0 errorOk).setReg r .a1 msg0).setReg r .a2 msg1).setReg r .a3 msg2).setReg r
    .a4 msg3

@[simp] theorem nodes_message : (s.message r msg0 msg1 msg2 msg3).nodes = s.nodes := rfl

theorem procs_message_same : (s.message r msg0 msg1 msg2 msg3).procs r =
    { s.procs r with regs := deliveredRegs (s.procs r).regs msg0 msg1 msg2 msg3 } := by
  simp [message, setReg, deliveredRegs]

theorem procs_message_of_ne (h : q ≠ r) :
    (s.message r msg0 msg1 msg2 msg3).procs q = s.procs q := by
  simp [message, procs_setReg_of_ne _ _ h]

@[simp] theorem state_message : ((s.message r msg0 msg1 msg2 msg3).procs q).state =
    (s.procs q).state := by
  simp [message]

/-- A message changes registers only. -/
theorem sameCaps_message : SameCaps cfg s (s.message r msg0 msg1 msg2 msg3) :=
  (((SameCaps.setReg _ _).trans (.setReg _ _)).trans (.setReg _ _)).trans (.setReg _ _) |>.trans
    (.setReg _ _)

end Kernel

theorem deliverOp_setState (q : Nat) (x : Word) :
    deliverOp cfg (s.setState q x) p srcCidx r = deliverOp cfg s p srcCidx r := by
  simp only [deliverOp, Kernel.regs_setState]
  rfl

theorem deliverOp_skip (h : ¬ (srcCidx.toNat < cfg.nCaps ∧
    ((s.procs r).regs .destCidx).toNat < cfg.nCaps)) : deliverOp cfg s p srcCidx r = .skip :=
  if_neg h

/-- The lines that the three message calls share: the capability first, if there is one to pass on,
    then the message. -/
theorem deliver_performs (msg0 msg1 msg2 msg3 srcCidx : Word) (hg : s.Good cfg)
    (hr : r < cfg.nProc) :
    Performs s (deliver cfg p r msg0 msg1 msg2 msg3 srcCidx) (deliverOp cfg s p srcCidx r)
      fun _ t => ∃ t', CapStep cfg s (deliverOp cfg s p srcCidx r) t' ∧
        t = t'.message r msg0 msg1 msg2 msg3 := by
  by_cases hc : srcCidx.toNat < cfg.nCaps ∧ ((s.procs r).regs .destCidx).toNat < cfg.nCaps
  · have hop : deliverOp cfg s p srcCidx r =
        transferOp cfg s p srcCidx r ((s.procs r).regs .destCidx) := if_pos hc
    obtain ⟨hhang, hrun⟩ := interprocessMove_performs p srcCidx
      ((s.procs r).regs .destCidx) hg hr
    rw [hop, deliver, Performs, run_bind_ok (readReg_run r .destCidx s)]
    have hb : (decide (srcCidx.toNat < cfg.nCaps) &&
        decide (((s.procs r).regs .destCidx).toNat < cfg.nCaps)) = true := by simpa using hc
    simp only [hb, if_true]
    refine ⟨fun h => run_bind_error (hhang h) _, fun h => ?_⟩
    obtain ⟨code, t', ht', -, hstep⟩ := hrun h
    exact ⟨(), _, (run_bind_ok ht' _).trans rfl, t', hstep, rfl⟩
  · have hb : (decide (srcCidx.toNat < cfg.nCaps) &&
        decide (((s.procs r).regs .destCidx).toNat < cfg.nCaps)) = false :=
      Bool.eq_false_iff.mpr fun h => hc (by simpa using h)
    rw [deliverOp_skip hc, deliver, Performs, run_bind_ok (readReg_run r .destCidx s)]
    simp only [hb, Bool.false_eq_true, if_false]
    exact ⟨False.elim, fun _ => ⟨(), _, rfl, s, .skip s, rfl⟩⟩

/-- A message is delivered and its receiver made ready: the receiver is as `ProcOp.deliver` says,
    nobody else is touched. -/
theorem delivered_procs {x : Word} (msg0 msg1 msg2 msg3 : Word)
    (ht : t.procs = (s.setState r x).procs) (q : Nat) :
    ((t.message r msg0 msg1 msg2 msg3).setState r procStateReady).procs q =
      (ProcOp.deliver r msg0 msg1 msg2 msg3).apply q (s.procs q) := by
  by_cases hq : q = r
  · subst hq
    have hregs : (t.procs q).regs = (s.procs q).regs := by rw [ht, Kernel.regs_setState]
    have hpid : (t.procs q).pid = (s.procs q).pid := by rw [ht]; simp [Kernel.setState]
    rw [ProcOp.apply, if_pos rfl, Kernel.setState, Kernel.procs_setProc_same,
      Kernel.procs_message_same, hregs]
    simp only [hpid]
  · rw [ProcOp.apply, if_neg hq, Kernel.procs_setState_of_ne _ hq, Kernel.procs_message_of_ne hq,
      ht, Kernel.procs_setState_of_ne _ hq]

/-! ## Acquiring -/

theorem waitWord_toNat (w : Word) : waitWord w.toNat = waitingOn w := by
  rw [waitWord, BitVec.ofNat_toNat, BitVec.setWidth_eq]

/-- Only a process that is noted for the channel and waits on it is acquired. -/
theorem acquired_eq_some (h : acquired s w.toNat k = some r) :
    s.receivers w.toNat k = some r ∧ (s.procs r).state = waitingOn w := by
  unfold acquired at h
  cases hrec : s.receivers w.toNat k with
  | none => simp [hrec] at h
  | some r' =>
    rw [hrec] at h
    by_cases hst : (s.procs r').state = waitWord w.toNat
    · simp only [hst, if_true, Option.some.injEq] at h
      subst h
      exact ⟨rfl, by rw [hst, waitWord_toNat]⟩
    · simp [hst] at h

/-- Who is acquired is marked as receiving until the call is over. -/
theorem acquireReceiver_run_of_some (h : acquired s w.toNat k = some r) :
    (acquireReceiver (s.receivers w.toNat k) w).run s =
      .ok (some r, s.setState r (receivingOn w)) := by
  obtain ⟨hrec, hst⟩ := acquired_eq_some h
  rw [hrec]
  exact (run_bind_ok (casState_run_of_eq hst) _).trans rfl

/-- Otherwise nothing happens. -/
theorem acquireReceiver_run_of_none (h : acquired s w.toNat k = none) :
    (acquireReceiver (s.receivers w.toNat k) w).run s = .ok (none, s) := by
  cases hrec : s.receivers w.toNat k with
  | none => rfl
  | some r' =>
    have hst : (s.procs r').state ≠ waitingOn w := by
      intro hst
      rw [acquired, hrec] at h
      simp [hst, waitWord_toNat] at h
    exact (run_bind_ok (casState_run_of_ne hst) _).trans rfl

theorem readReceiver_run (hch : w.toNat < cfg.nChannels) :
    (readReceiver cfg w.toNat k).run s = .ok (s.receivers w.toNat k, s) := by
  have hcheck : (checkIndex w.toNat cfg.nChannels).run s = .ok ((), s) := by
    rw [checkIndex, if_pos hch]
    rfl
  rw [readReceiver, run_bind_ok hcheck]
  rfl

theorem Kernel.Good.acquired_lt (hg : s.Good cfg) (h : acquired s w.toNat k = some r) :
    r < cfg.nProc := hg.receivers _ _ _ (acquired_eq_some h).1

/-! ## Going to sleep -/

/-- The two steps at the end of a waiting call: to wait, unless suspended in the meantime, and to
    give the hart away. -/
theorem wait_yield_run (h : Running (s.procs p).state) :
    (do let _ ← procReceiverWait p w; schedYield p : KernelM Outcome).run s =
      .ok (.yielded, s.setState p (parked (s.procs p).state w)) := by
  obtain ⟨b, hb⟩ := procReceiverWait_run w h
  rw [run_bind_ok hb]
  by_cases hr : (s.procs p).state = procStateRunning
  · have hw : ((s.setState p (if (s.procs p).state = procStateRunning then waitingOn w
        else (s.procs p).state)).procs p).state = waitingOn w := by
      rw [Kernel.state_setState, if_pos hr]
    rw [schedYield, run_bind_ok (procRelease_run_of_waiting hw), if_pos hr, parked, if_pos hr]
    rfl
  · have hr' : Running ((s.setState p (if (s.procs p).state = procStateRunning then waitingOn w
        else (s.procs p).state)).procs p).state := by
      rw [Kernel.state_setState, if_neg hr]
      exact h
    rw [schedYield, run_bind_ok (procRelease_run hr'), Kernel.state_setState,
      Kernel.setState_setState, if_neg hr, parked, if_neg hr]
    rfl

/-! ## Receiver, sender, server, client -/

theorem hangs_setState (q : Nat) (x : Word) : op.Hangs (s.setState q x) ↔ op.Hangs s := by
  cases op <;> exact Iff.rfl

/-- A call that delivers to a process it has just acquired, and then goes on. -/
theorem deliver_acquired {msg0 msg1 msg2 msg3 srcCidx : Word} {next : Unit → KernelM Outcome}
    {post : Outcome → Kernel → Prop} (hg : s.Good cfg) (h : acquired s w.toNat k = some r)
    (hnext : ∀ t', CapStep cfg (s.setState r (receivingOn w)) (deliverOp cfg s p srcCidx r) t' →
      ∃ out t, (next ()).run (t'.message r msg0 msg1 msg2 msg3) = .ok (out, t) ∧ post out t) :
    ((deliverOp cfg s p srcCidx r).Hangs s →
      (deliver cfg p r msg0 msg1 msg2 msg3 srcCidx >>= next).run (s.setState r (receivingOn w)) =
        .error .assertion) ∧
    (¬ (deliverOp cfg s p srcCidx r).Hangs s → ∃ out t,
      (deliver cfg p r msg0 msg1 msg2 msg3 srcCidx >>= next).run (s.setState r (receivingOn w)) =
        .ok (out, t) ∧ post out t) := by
  have hg' : (s.setState r (receivingOn w)).Good cfg := SameCaps.good (.setState _) hg
  obtain ⟨hhang, hrun⟩ := deliver_performs (p := p) msg0 msg1 msg2 msg3 srcCidx hg'
    (hg.acquired_lt h)
  rw [deliverOp_setState, hangs_setState] at hhang hrun
  refine ⟨fun hh => run_bind_error (hhang hh) _, fun hh => ?_⟩
  obtain ⟨⟨⟩, t, ht, t', hstep, rfl⟩ := hrun hh
  rw [run_bind_ok ht]
  exact hnext t' hstep

theorem receivingOn_message (hstep : CapStep cfg (s.setState r (receivingOn w)) op t) :
    ((t.message r msg0 msg1 msg2 msg3).procs r).state = receivingOn w := by
  rw [Kernel.state_message, hstep.procs, Kernel.state_setState]

/-- The running process is not the one that waits. -/
theorem Running.ne_acquired (hp : Running (s.procs p).state)
    (h : acquired s w.toNat k = some r) : p ≠ r := by
  rintro rfl
  exact hp.ne_waitingOn (acquired_eq_some h).2

/-- What a delivery leaves, before the caller goes on. -/
theorem CallEffect.of_deliver (msg0 msg1 msg2 msg3 : Word)
    (hstep : CapStep cfg (s.setState r (receivingOn w)) op t) :
    CallEffect cfg s p op (.deliver r msg0 msg1 msg2 msg3) .ret none (.ret errorOk)
      ((t.message r msg0 msg1 msg2 msg3).setState r procStateReady) where
  caps := ⟨_, t, .setState _, hstep, Kernel.sameCaps_message.trans (.setState _)⟩
  others q _ := delivered_procs _ _ _ _ hstep.procs q
  caller := ⟨⟨_, rfl⟩, congrArg Proc.state (delivered_procs _ _ _ _ hstep.procs p)⟩
  replies ch := by
    have h1 : ((t.message r msg0 msg1 msg2 msg3).setState r procStateReady).receivers ch 1 =
      t.receivers ch 1 := rfl
    rw [h1, hstep.replies]
    simp [Kernel.setState, Kernel.setProc]

/-- A receiver invocation does nothing but wait. -/
theorem syscallInvokeReceiver_performs {cap : Cap} (ht : capIsType cap .receiver = true)
    (hp : Running (s.procs p).state) (ha0 : (s.procs p).regs .a0 = user .a0) :
    Performs s (syscallInvokeReceiver p cap) .skip
      (CallEffect cfg s p .skip .none (.wait (capReceiverGetChannel cap).toNat (user .a0)) none) := by
  refine ⟨False.elim, fun _ => ⟨.yielded, s.setState p (parked (s.procs p).state
    (capReceiverGetChannel cap)), ?_, ?_⟩⟩
  · rw [syscallInvokeReceiver, run_bind_ok (run_kassert ht s),
      run_bind_ok (run_lift_ok (Field.checkedGet_eq ht) s), wait_yield_run hp]
  · exact {
      caps := ⟨s, s, .refl s, .skip s, .setState _⟩
      others := fun q hq => Kernel.procs_setState_of_ne _ hq
      caller := ⟨rfl, by rw [Kernel.state_setState, BitVec.ofNat_toNat, BitVec.setWidth_eq],
        by rw [Kernel.regs_setState, ha0]⟩
      replies := fun ch => by simp [Kernel.setState, Kernel.setProc] }

/-- A sender invocation delivers, or changes nothing. -/
theorem syscallInvokeSender_performs {cap : Cap} (hg : s.Good cfg)
    (ht : capIsType cap .sender = true)
    (hch : (capSenderGetChannel cap).toNat < cfg.nChannels) :
    Performs s (syscallInvokeSender cfg p cap (user .a1) (user .a2) (user .a3) (user .a4)
        (user .a5)) (invokeCapOp cfg s p user cap.view)
      (CallEffect cfg s p (invokeCapOp cfg s p user cap.view) (invokeProcOp s user cap.view)
        (invokeRest s user cap.view) (invokeReplyTo s cap.view)) := by
  rw [Cap.view_eq ht]
  rw [syscallInvokeSender, Performs, run_bind_ok (run_kassert ht s),
    run_bind_ok (run_lift_ok (Field.checkedGet_eq ht) s), run_bind_ok (readReceiver_run hch)]
  simp only [Cap.viewAs, invokeCapOp, invokeProcOp, invokeRest, invokeReplyTo]
  cases hacq : acquired s (capSenderGetChannel cap).toNat 0 with
  | none =>
    rw [run_bind_ok (acquireReceiver_run_of_none hacq)]
    exact ⟨False.elim, fun _ => ⟨_, s, rfl, .of_same ⟨errorNoReceiver, rfl⟩ (.refl s)
      (fun _ _ => rfl) rfl fun _ => rfl⟩⟩
  | some r =>
    rw [run_bind_ok (acquireReceiver_run_of_some hacq)]
    refine deliver_acquired hg hacq fun t' hstep => ?_
    refine ⟨_, _, ?_, .of_deliver _ _ _ _ hstep⟩
    rw [run_bind_ok (procSenderRelease_run _ (receivingOn_message hstep))]
    rfl

/-- A call that then goes to sleep. -/
theorem CallEffect.wait {pop : ProcOp} {out : Outcome} {a0 : Word} {x : Word}
    (h : CallEffect cfg s p op pop .ret none out t) (hx : x = parked (s.procs p).state ch)
    (ha0 : (t.procs p).regs .a0 = a0) :
    CallEffect cfg s p op pop (.wait ch.toNat a0) none .yielded (t.setState p x) where
  caps := h.caps.trans_same (.setState _)
  others q hq := (Kernel.procs_setState_of_ne _ hq).trans (h.others q hq)
  caller := ⟨rfl, by rw [Kernel.state_setState, BitVec.ofNat_toNat, BitVec.setWidth_eq, hx],
    by rw [Kernel.regs_setState, ha0]⟩
  replies := h.replies

/-- A server invocation delivers if it can, and waits in any case. -/
theorem syscallInvokeServer_performs {cap : Cap} (hg : s.Good cfg)
    (ht : capIsType cap .server = true) (hp : Running (s.procs p).state)
    (hch : (capServerGetChannel cap).toNat < cfg.nChannels)
    (ha0 : (s.procs p).regs .a0 = user .a0) :
    Performs s (syscallInvokeServer cfg p cap (user .a1) (user .a2) (user .a3) (user .a4)
        (user .a5)) (invokeCapOp cfg s p user cap.view)
      (CallEffect cfg s p (invokeCapOp cfg s p user cap.view) (invokeProcOp s user cap.view)
        (invokeRest s user cap.view) (invokeReplyTo s cap.view)) := by
  rw [Cap.view_eq ht]
  rw [syscallInvokeServer, Performs, run_bind_ok (run_kassert ht s),
    run_bind_ok (run_lift_ok (Field.checkedGet_eq ht) s), run_bind_ok (readReceiver_run hch)]
  simp only [Cap.viewAs, invokeCapOp, invokeProcOp, invokeRest, invokeReplyTo]
  cases hacq : acquired s (capServerGetChannel cap).toNat 1 with
  | none =>
    rw [run_bind_ok (acquireReceiver_run_of_none hacq)]
    refine ⟨False.elim, fun _ => ⟨_, _, wait_yield_run hp, ?_⟩⟩
    exact (CallEffect.of_same ⟨errorOk, rfl⟩ (.refl s) (fun _ _ => rfl) rfl fun _ => rfl).wait rfl
      ha0
  | some r =>
    have hne : p ≠ r := hp.ne_acquired hacq
    rw [run_bind_ok (acquireReceiver_run_of_some hacq)]
    refine deliver_acquired hg hacq fun t' hstep => ?_
    have heff := CallEffect.of_deliver (p := p) (user .a1) (user .a2) (user .a3) (user .a4)
      hstep
    have hprocs := delivered_procs (user .a1) (user .a2) (user .a3) (user .a4) hstep.procs p
    rw [ProcOp.apply, if_neg hne] at hprocs
    refine ⟨_, _, ?_, heff.wait (congrArg (parked · _) (congrArg Proc.state hprocs)) ?_⟩
    · rw [run_bind_ok (procSenderRelease_run _ (receivingOn_message hstep)),
        wait_yield_run (hprocs ▸ hp)]
    · rw [hprocs, ha0]

/-- `compare_and_swap(&receivers[channel][1], NULL, current)`. -/
def Kernel.enterReply (s : Kernel) (ch p : Nat) : Kernel :=
  if s.receivers ch 1 = none then s.setReceiver ch 1 (some p) else s

theorem casReceiver_run (hch : w.toNat < cfg.nChannels) :
    ∃ old, (casReceiver cfg w.toNat 1 none (some p)).run s = .ok (old, s.enterReply w.toNat p) := by
  refine ⟨s.receivers w.toNat 1, ?_⟩
  rw [casReceiver, run_bind_ok (readReceiver_run hch), Kernel.enterReply]
  by_cases h : s.receivers w.toNat 1 = none
  · simp only [h, if_true]
    rw [run_bind_ok (writeReceiver_run hch)]
    rfl
  · simp only [h, if_false]
    rfl

theorem procs_enterReply (ch : Nat) : (s.enterReply ch p).procs = s.procs := by
  unfold Kernel.enterReply
  split <;> rfl

/-- The caller is noted, if nobody is. -/
theorem replies_enterReply (ch ch' : Nat) : (s.enterReply ch p).receivers ch' 1 =
    if ch = ch' ∧ s.receivers ch' 1 = none then some p else s.receivers ch' 1 := by
  unfold Kernel.enterReply
  by_cases hch : ch = ch'
  · subst hch
    by_cases h : s.receivers ch 1 = none <;> simp [h, Kernel.setReceiver]
  · have hne : ch' ≠ ch := fun e => hch e.symm
    simp only [hch, false_and, if_false]
    split
    · simp only [Kernel.setReceiver, Function.update_of_ne hne]
    · rfl

theorem sameCaps_enterReply (hp : p < cfg.nProc) (ch : Nat) :
    SameCaps cfg s (s.enterReply ch p) := by
  have hrep := fun ch' => replies_enterReply (s := s) (p := p) ch ch'
  refine ⟨?_, ?_, fun ch' => ?_, fun ch' q h => ?_, ?_, fun q => by rw [procs_enterReply]⟩
  · unfold Kernel.enterReply
    split <;> rfl
  · unfold Kernel.enterReply
    split <;> rfl
  · unfold Kernel.enterReply
    split
    · by_cases hch : ch' = ch
      · subst hch
        simp [Kernel.setReceiver]
      · simp [Kernel.setReceiver, hch]
    · rfl
  · rw [hrep] at h
    split at h
    · exact Or.inr (Option.some.inj h ▸ hp)
    · exact Or.inl h
  · unfold Kernel.enterReply
    split <;> rfl

/-- What the end of a client's call leaves. -/
def Kernel.clientSleep (s : Kernel) (p server : Nat) (w : Word) : Kernel :=
  ((((s.enterReply w.toNat p).setState p (if (s.procs p).state = procStateRunning then waitingOn w
    else (s.procs p).state)).setReg p .a0 errorInterrupted).setState server
      procStateReady).setState p (parked (s.procs p).state w)

theorem Kernel.setState_self {x : Word} (h : (s.procs p).state = x) : s.setState p x = s := by
  subst h
  simp [Kernel.setState, Kernel.setProc]

/-- It enters itself in the reply slot, waits, marks its `a0` and lets the server go. -/
theorem client_sleep_run {server : Nat} (hch : w.toNat < cfg.nChannels)
    (hp : Running (s.procs p).state) (hne : p ≠ server)
    (hserver : (s.procs server).state = receivingOn w) :
    (do
      let _ ← casReceiver cfg w.toNat 1 none (some p)
      let _ ← procReceiverWait p w
      writeReg p .a0 errorInterrupted
      procSenderRelease server
      schedYield p : KernelM Outcome).run s = .ok (.yielded, s.clientSleep p server w) := by
  obtain ⟨old, hcas⟩ := casReceiver_run (s := s) (p := p) hch
  have hp' : Running ((s.enterReply w.toNat p).procs p).state := by rwa [procs_enterReply]
  obtain ⟨b, hwait⟩ := procReceiverWait_run w hp'
  rw [procs_enterReply] at hwait
  rw [run_bind_ok hcas, run_bind_ok hwait, run_bind_ok (writeReg_run _ _ _ _),
    run_bind_ok (procSenderRelease_run w ?hrel)]
  case hrel =>
    rw [Kernel.state_setReg, Kernel.procs_setState_of_ne _ hne.symm, procs_enterReply, hserver]
  generalize hx : (if (s.procs p).state = procStateRunning then waitingOn w
    else (s.procs p).state) = x
  have hstate : (((((s.enterReply w.toNat p).setState p x).setReg p .a0
      errorInterrupted).setState server procStateReady).procs p).state = x := by
    rw [Kernel.procs_setState_of_ne _ hne, Kernel.state_setReg, Kernel.state_setState]
  rw [Kernel.clientSleep, hx]
  by_cases hr : (s.procs p).state = procStateRunning
  · rw [if_pos hr] at hx
    rw [parked, if_pos hr, hx, Kernel.setState_self hstate]
    exact run_bind_ok (procRelease_run_of_waiting (hstate.trans hx.symm)) _
  · rw [if_neg hr] at hx
    rw [parked, if_neg hr, hx]
    have hrun := procRelease_run (p := p) (hstate.symm ▸ hx ▸ hp)
    rw [hstate] at hrun
    exact run_bind_ok hrun _

theorem clientSleep_procs {server : Nat} (hq : q ≠ p) :
    (s.clientSleep p server w).procs q = (s.setState server procStateReady).procs q := by
  rw [Kernel.clientSleep, Kernel.procs_setState_of_ne _ hq]
  by_cases hs : q = server
  · subst hs
    rw [Kernel.procs_setState_same, Kernel.procs_setState_same,
      Kernel.procs_setReg_of_ne _ _ hq, Kernel.procs_setState_of_ne _ hq, procs_enterReply]
  · rw [Kernel.procs_setState_of_ne _ hs, Kernel.procs_setState_of_ne _ hs,
      Kernel.procs_setReg_of_ne _ _ hq, Kernel.procs_setState_of_ne _ hq, procs_enterReply]

theorem sameCaps_clientSleep {server : Nat} (hp : p < cfg.nProc) :
    SameCaps cfg s (s.clientSleep p server w) :=
  ((((sameCaps_enterReply hp _).trans (.setState _)).trans (.setReg _ _)).trans
    (.setState _)).trans (.setState _)

/-- A client invocation delivers, notes its caller and waits, or changes nothing. -/
theorem syscallInvokeClient_performs {cap : Cap} (hg : s.Good cfg) (hpid : p < cfg.nProc)
    (ht : capIsType cap .client = true) (hp : Running (s.procs p).state)
    (hch : (capClientGetChannel cap).toNat < cfg.nChannels) :
    Performs s (syscallInvokeClient cfg p cap (user .a1) (user .a2) (user .a3) (user .a4)
        (user .a5)) (invokeCapOp cfg s p user cap.view)
      (CallEffect cfg s p (invokeCapOp cfg s p user cap.view) (invokeProcOp s user cap.view)
        (invokeRest s user cap.view) (invokeReplyTo s cap.view)) := by
  rw [Cap.view_eq ht]
  rw [syscallInvokeClient, Performs, run_bind_ok (run_kassert ht s),
    run_bind_ok (run_lift_ok (Field.checkedGet_eq ht) s), run_bind_ok (readReceiver_run hch)]
  simp only [Cap.viewAs, invokeCapOp, invokeProcOp, invokeRest, invokeReplyTo]
  cases hacq : acquired s (capClientGetChannel cap).toNat 0 with
  | none =>
    rw [run_bind_ok (acquireReceiver_run_of_none hacq)]
    exact ⟨False.elim, fun _ => ⟨_, s, rfl, .of_same ⟨errorNoReceiver, rfl⟩ (.refl s)
      (fun _ _ => rfl) rfl fun _ => rfl⟩⟩
  | some server =>
    -- the server waits and the caller runs, so they are two
    have hne : p ≠ server := hp.ne_acquired hacq
    rw [run_bind_ok (acquireReceiver_run_of_some hacq)]
    refine deliver_acquired hg hacq fun t' hstep => ?_
    have hstate : ((t'.message server (user .a1) (user .a2) (user .a3) (user .a4)).procs p).state =
        (s.procs p).state := by
      rw [Kernel.state_message, hstep.procs, Kernel.procs_setState_of_ne _ hne]
    refine ⟨.yielded, (t'.message server (user .a1) (user .a2) (user .a3) (user .a4)).clientSleep p
      server (capClientGetChannel cap), ?_, ?_⟩
    · exact client_sleep_run hch (hstate ▸ hp) hne (receivingOn_message hstep)
    · simp only [Option.map_some, Option.getD_some, Option.isSome_some, if_true]
      exact {
        caps := ⟨_, t', .setState _, hstep,
          Kernel.sameCaps_message.trans (sameCaps_clientSleep hpid)⟩
        others := fun q hq => (clientSleep_procs hq).trans (delivered_procs _ _ _ _ hstep.procs q)
        caller := ⟨rfl, by
          rw [Kernel.clientSleep, Kernel.state_setState, hstate, BitVec.ofNat_toNat,
            BitVec.setWidth_eq], by
          rw [Kernel.clientSleep, Kernel.regs_setState, Kernel.regs_setState,
            Kernel.regs_setReg_same]⟩
        replies := fun ch => by
          have h1 : ((t'.message server (user .a1) (user .a2) (user .a3) (user .a4)).clientSleep p
              server (capClientGetChannel cap)).receivers ch 1 =
            ((t'.message server (user .a1) (user .a2) (user .a3) (user .a4)).enterReply
              (capClientGetChannel cap).toNat p).receivers ch 1 := rfl
          have h2 : (t'.message server (user .a1) (user .a2) (user .a3) (user .a4)).receivers ch 1 =
            s.receivers ch 1 := hstep.replies ch
          rw [h1, replies_enterReply, h2]
          simp }

/-! ## Supervisor -/

/-- A supervisee that was held and is let go is as it was. -/
theorem released_procs {m : Kernel} (hq : (s.procs q).state = procStateSuspended)
    (hm : m.procs q = (s.setState q procStateSuspendedBusy).procs q) :
    (m.setState q procStateSuspended).procs q = s.procs q := by
  rw [Kernel.procs_setState_same, hm, Kernel.procs_setState_same, ← hq]

/-- A caller runs, so it is nobody that is suspended. -/
theorem Running.ne_suspended (hp : Running (s.procs p).state)
    (hq : (s.procs q).state = procStateSuspended) : p ≠ q := by
  rintro rfl
  rw [hq] at hp
  exact absurd hp (by decide)

/-- A call that holds the supervisee while it reads from it into a register of its own. -/
theorem CallEffect.of_held {m : Kernel} {out : Outcome} (hout : ∃ code, out = .ret code)
    (hp : Running (s.procs p).state) (hq : (s.procs q).state = procStateSuspended)
    (hsame : SameCaps cfg (s.setState q procStateSuspendedBusy) m)
    (hothers : ∀ q', q' ≠ p → m.procs q' = (s.setState q procStateSuspendedBusy).procs q')
    (hstate : (m.procs p).state = (s.procs p).state)
    (hrep : ∀ ch, m.receivers ch 1 = s.receivers ch 1) :
    CallEffect cfg s p .skip .none .ret none out (m.setState q procStateSuspended) := by
  have hne := hp.ne_suspended hq
  refine .of_same hout (((SameCaps.setState _).trans hsame).trans (.setState _)) ?_ ?_ hrep
  · intro q' hq'
    by_cases hqq : q' = q
    · subst hqq
      exact released_procs hq (hothers q' hq')
    · rw [Kernel.procs_setState_of_ne _ hqq, hothers q' hq', Kernel.procs_setState_of_ne _ hqq]
  · rw [Kernel.procs_setState_of_ne _ hne, hstate]

theorem procReadRegister_run (regi : Word) :
    ∃ v, (procReadRegister q regi).run s = .ok (v, s) := by
  unfold procReadRegister
  split
  · exact ⟨_, rfl⟩
  · exact ⟨0, rfl⟩

theorem procWriteRegister_run_of_some {regi : Word} {r : Reg} (regv : Word)
    (h : Reg.all[regi.toNat]? = some r) :
    ∃ v, (procWriteRegister q regi regv).run s = .ok (v, s.setReg q r regv) := by
  unfold procWriteRegister
  rw [h]
  exact ⟨_, rfl⟩

theorem procWriteRegister_run_of_none {regi : Word} (regv : Word)
    (h : Reg.all[regi.toNat]? = none) :
    ∃ v, (procWriteRegister q regi regv).run s = .ok (v, s) := by
  unfold procWriteRegister
  rw [h]
  exact ⟨0, rfl⟩

/-- A supervisor's move leaves the supervisee suspended, as it was. -/
theorem supervisorMove_performs {sp dp : Nat} {destCidx : Word} (hg : s.Good cfg)
    (hp : Running (s.procs p).state) (hdp : dp < cfg.nProc)
    (hq : (s.procs q).state = procStateSuspended) :
    Performs s (supervisorMove cfg q sp srcCidx dp destCidx)
      (transferOp cfg s sp srcCidx dp destCidx)
      (CallEffect cfg s p (transferOp cfg s sp srcCidx dp destCidx) .none .ret none) := by
  have hg' : (s.setState q procStateSuspendedBusy).Good cfg := SameCaps.good (.setState _) hg
  obtain ⟨hhang, hrun⟩ := interprocessMove_performs sp srcCidx destCidx hg' hdp
  -- holding the supervisee changes nothing the move looks at
  have hop : transferOp cfg (s.setState q procStateSuspendedBusy) sp srcCidx dp destCidx =
      transferOp cfg s sp srcCidx dp destCidx := rfl
  rw [hop, hangs_setState] at hhang hrun
  have hne := hp.ne_suspended hq
  rw [supervisorMove, Performs, run_bind_ok (procSupervisorAcquire_run hq)]
  simp only [Bool.not_true, Bool.false_eq_true, if_false]
  refine ⟨fun h => run_bind_error (hhang h) _, fun h => ?_⟩
  obtain ⟨code, t, ht, -, hstep⟩ := hrun h
  have hbusy : (t.procs q).state = procStateSuspendedBusy := by
    rw [hstep.procs, Kernel.state_setState]
  refine ⟨.ret code, t.setState q procStateSuspended, ?_, ?_⟩
  · rw [run_bind_ok ht, run_bind_ok (procSupervisorRelease_run hbusy)]
    rfl
  · have hprocs : ∀ q', (t.setState q procStateSuspended).procs q' = s.procs q' := by
      intro q'
      by_cases hqq : q' = q
      · subst hqq
        exact released_procs hq (congrFun hstep.procs q')
      · rw [Kernel.procs_setState_of_ne _ hqq, hstep.procs, Kernel.procs_setState_of_ne _ hqq]
    exact {
      caps := ⟨_, t, .setState _, hstep, .setState _⟩
      others := fun q' _ => hprocs q'
      caller := ⟨⟨code, rfl⟩, by rw [hprocs]; rfl⟩
      replies := fun ch => by
        have h1 : (t.setState q procStateSuspended).receivers ch 1 = t.receivers ch 1 := rfl
        have h2 : t.receivers ch 1 = s.receivers ch 1 := hstep.replies ch
        rw [h1, h2]
        simp }

theorem processAt_run (h : w.toNat < cfg.nProc) : (processAt cfg w).run s = .ok (w.toNat, s) := by
  have hcheck : (checkIndex w.toNat cfg.nProc).run s = .ok ((), s) := by
    rw [checkIndex, if_pos h]
    rfl
  rw [processAt, run_bind_ok hcheck]
  rfl

/-- A call on a supervisee that is not suspended. -/
theorem busy_performs {m : KernelM Outcome} (code : Word) {cop : CapOp} {pop : ProcOp}
    (hm : m.run s = .ok (.ret code, s)) (hc : cop = .skip) (hpop : pop = .none) :
    Performs s m cop (CallEffect cfg s p cop pop .ret none) := by
  subst hc hpop
  exact ⟨False.elim, fun _ => ⟨_, s, hm, .of_same ⟨_, rfl⟩ (.refl s) (fun _ _ => rfl) rfl
    fun _ => rfl⟩⟩

/-- A call that is only about the supervisee's process. -/
theorem CallEffect.of_procs {pop : ProcOp} {out : Outcome} (hout : ∃ code, out = .ret code)
    (hsame : SameCaps cfg s t) (hprocs : ∀ q, t.procs q = pop.apply q (s.procs q))
    (hrep : ∀ ch, t.receivers ch 1 = s.receivers ch 1) :
    CallEffect cfg s p .skip pop .ret none out t where
  caps := ⟨s, s, .refl s, .skip s, hsame⟩
  others q _ := hprocs q
  caller := ⟨hout, congrArg Proc.state (hprocs p)⟩
  replies ch := by simp [hrep]

/-- The operation SUSPEND. -/
theorem suspend_performs : Performs s (do
      return .ret (if ← procSupervisorSuspend q then errorOk else errorFailed) : KernelM Outcome)
    .skip (CallEffect cfg s p .skip (.suspend q) .ret none) := by
  obtain ⟨b, hb, -⟩ := procSupervisorSuspend_run q s
  refine ⟨False.elim, fun _ => ⟨_, _, (run_bind_ok hb _).trans rfl, .of_procs ⟨_, rfl⟩
    (.setState _) (fun q' => ?_) fun _ => rfl⟩⟩
  by_cases hq : q' = q
  · subst hq
    rw [Kernel.procs_setState_same, ProcOp.apply, if_pos rfl]
  · rw [Kernel.procs_setState_of_ne _ hq, ProcOp.apply, if_neg hq]

/-- RESUME. -/
theorem resume_performs (cfg : Config) : Performs s (do
      return .ret (if ← procSupervisorResume q then errorOk else errorFailed) : KernelM Outcome)
    .skip (CallEffect cfg s p .skip (if (s.procs q).state = procStateSuspended then .resume q
      else .none) .ret none) := by
  by_cases hq : (s.procs q).state = procStateSuspended
  · rw [if_pos hq]
    refine ⟨False.elim, fun _ => ⟨_, _, (run_bind_ok (procSupervisorResume_run hq) _).trans rfl,
      .of_procs ⟨_, rfl⟩ (.setState _) (fun q' => ?_) fun _ => rfl⟩⟩
    by_cases hqq : q' = q
    · subst hqq
      rw [Kernel.procs_setState_same, ProcOp.apply, if_pos rfl]
    · rw [Kernel.procs_setState_of_ne _ hqq, ProcOp.apply, if_neg hqq]
  · exact busy_performs _ ((run_bind_ok (procSupervisorResume_run_of_ne hq) _).trans rfl) rfl
      (if_neg hq)

/-- Writing a register of a suspended process. -/
theorem write_performs {regi regv : Word} (hp : Running (s.procs p).state)
    (hq : (s.procs q).state = procStateSuspended) : Performs s (do
      if !(← procSupervisorAcquire q) then
        return .ret errorSuperviseeBusy
      let _ ← procWriteRegister q regi regv
      procSupervisorRelease q
      return .ret errorOk : KernelM Outcome)
    .skip (CallEffect cfg s p .skip (match Reg.all[regi.toNat]? with
      | some r => .write q r regv
      | none => .none) .ret none) := by
  rw [Performs, run_bind_ok (procSupervisorAcquire_run hq)]
  refine ⟨False.elim, fun _ => ?_⟩
  cases hr : Reg.all[regi.toNat]? with
  | none =>
    obtain ⟨v, hv⟩ := procWriteRegister_run_of_none (q := q) regv
      (s := s.setState q procStateSuspendedBusy) hr
    refine ⟨.ret errorOk, (s.setState q procStateSuspendedBusy).setState q procStateSuspended, ?_,
      .of_held ⟨_, rfl⟩ hp hq (.refl _) (fun _ _ => rfl) ?_ fun _ => rfl⟩
    · simp only [Bool.not_true, Bool.false_eq_true, if_false]
      rw [run_bind_ok hv,
        run_bind_ok (procSupervisorRelease_run (Kernel.state_setState _))]
      rfl
    · rw [Kernel.procs_setState_of_ne _ (hp.ne_suspended hq)]
  | some r =>
    obtain ⟨v, hv⟩ := procWriteRegister_run_of_some (q := q) regv
      (s := s.setState q procStateSuspendedBusy) hr
    have hbusy : (((s.setState q procStateSuspendedBusy).setReg q r regv).procs q).state =
        procStateSuspendedBusy := by rw [Kernel.state_setReg, Kernel.state_setState]
    refine ⟨.ret errorOk, ((s.setState q procStateSuspendedBusy).setReg q r regv).setState q
      procStateSuspended, ?_, .of_procs ⟨_, rfl⟩ (((SameCaps.setState _).trans
        (.setReg _ _)).trans (.setState _)) (fun q' => ?_) fun _ => rfl⟩
    · simp only [Bool.not_true, Bool.false_eq_true, if_false]
      rw [run_bind_ok hv, run_bind_ok (procSupervisorRelease_run hbusy)]
      rfl
    · by_cases hqq : q' = q
      · subst hqq
        rw [Kernel.procs_setState_same, Kernel.setReg, Kernel.procs_setProc_same,
          Kernel.procs_setState_same, ProcOp.apply, if_pos rfl, ← hq]
      · rw [Kernel.procs_setState_of_ne _ hqq, Kernel.procs_setReg_of_ne _ _ hqq,
          Kernel.procs_setState_of_ne _ hqq, ProcOp.apply, if_neg hqq]

/-- READ_REG tells the caller, and the supervisee nothing. -/
theorem readReg_performs {regi : Word} (hp : Running (s.procs p).state)
    (hq : (s.procs q).state = procStateSuspended) : Performs s (do
      if !(← procSupervisorAcquire q) then
        return .ret errorSuperviseeBusy
      writeReg p .a1 (← procReadRegister q regi)
      procSupervisorRelease q
      return .ret errorOk : KernelM Outcome)
    .skip (CallEffect cfg s p .skip .none .ret none) := by
  have hne := hp.ne_suspended hq
  obtain ⟨v, hv⟩ := procReadRegister_run (q := q) (s := s.setState q procStateSuspendedBusy) regi
  have hbusy : (((s.setState q procStateSuspendedBusy).setReg p .a1 v).procs q).state =
      procStateSuspendedBusy := by rw [Kernel.state_setReg, Kernel.state_setState]
  rw [Performs, run_bind_ok (procSupervisorAcquire_run hq)]
  refine ⟨False.elim, fun _ => ⟨.ret errorOk, _, ?_, .of_held ⟨_, rfl⟩ hp hq (.setReg .a1 v)
    (fun q' hq' => Kernel.procs_setReg_of_ne _ _ hq') ?_ fun _ => rfl⟩⟩
  · simp only [Bool.not_true, Bool.false_eq_true, if_false]
    rw [run_bind_ok hv, run_bind_ok (writeReg_run _ _ _ _),
      run_bind_ok (procSupervisorRelease_run hbusy)]
    rfl
  · rw [Kernel.state_setReg, Kernel.procs_setState_of_ne _ hne]

/-- So does READ_CAP. -/
theorem readCap_performs {arg : Word} (hp : Running (s.procs p).state)
    (hq : (s.procs q).state = procStateSuspended) : Performs s (do
      if !(← procSupervisorAcquire q) then
        return .ret errorSuperviseeBusy
      let cap ← capNodeGetCap (procGetCapNode cfg q arg)
      writeReg p .a1 cap.word0
      writeReg p .a2 cap.word1
      procSupervisorRelease q
      return .ret errorOk : KernelM Outcome)
    .skip (CallEffect cfg s p .skip .none .ret none) := by
  have hne := hp.ne_suspended hq
  generalize hc : (s.setState q procStateSuspendedBusy).capAt (procGetCapNode cfg q arg) = c
  have hbusy : ((((s.setState q procStateSuspendedBusy).setReg p .a1 c.word0).setReg p .a2
      c.word1).procs q).state = procStateSuspendedBusy := by
    rw [Kernel.state_setReg, Kernel.state_setReg, Kernel.state_setState]
  rw [Performs, run_bind_ok (procSupervisorAcquire_run hq)]
  refine ⟨False.elim, fun _ => ⟨.ret errorOk, _, ?_, .of_held ⟨_, rfl⟩ hp hq
    ((SameCaps.setReg (p := p) .a1 c.word0).trans (.setReg (p := p) .a2 c.word1))
      (fun q' hq' => ?_) ?_ fun _ => rfl⟩⟩
  · simp only [Bool.not_true, Bool.false_eq_true, if_false]
    rw [run_bind_ok (capNodeGetCap_run _ _), hc, run_bind_ok (writeReg_run _ _ _ _),
      run_bind_ok (writeReg_run _ _ _ _), run_bind_ok (procSupervisorRelease_run hbusy)]
    rfl
  · rw [Kernel.procs_setReg_of_ne _ _ hq', Kernel.procs_setReg_of_ne _ _ hq']
  · rw [Kernel.state_setReg, Kernel.state_setReg, Kernel.procs_setState_of_ne _ hne]

/-- The operations, by their numbers. -/
theorem supervisorOp_cases {motive : Nat → Prop} (suspend : motive 0) (resume : motive 1)
    (getState : motive 2) (readReg : motive 3) (writeReg : motive 4) (readCap : motive 5)
    (giveCap : motive 6) (takeCap : motive 7) (unimplemented : ∀ n, motive (n + 8)) :
    ∀ o, motive o
  | 0 => suspend
  | 1 => resume
  | 2 => getState
  | 3 => readReg
  | 4 => writeReg
  | 5 => readCap
  | 6 => giveCap
  | 7 => takeCap
  | n + 8 => unimplemented n

/-- All operations of a supervisor, and what is none. -/
theorem syscallInvokeSupervisor_performs {cap : Cap} (hg : s.Good cfg) (hpid : p < cfg.nProc)
    (ht : capIsType cap .supervisor = true) (hv : cap.view.Valid cfg)
    (hp : Running (s.procs p).state) :
    Performs s (syscallInvokeSupervisor cfg p cap (user .a1) (user .a2) (user .a3) (user .a4))
      (invokeCapOp cfg s p user cap.view)
      (CallEffect cfg s p (invokeCapOp cfg s p user cap.view) (invokeProcOp s user cap.view)
        (invokeRest s user cap.view) (invokeReplyTo s cap.view)) := by
  rw [Cap.view_eq ht] at hv ⊢
  have hstop : (capSupervisorGetEnd cap).toNat ≤ cfg.nProc := hv.2
  rw [syscallInvokeSupervisor, Performs, run_bind_ok (run_kassert ht s),
    run_bind_ok (run_lift_ok (Field.checkedGet_eq ht) s),
    run_bind_ok (run_lift_ok (Field.checkedGet_eq ht) s)]
  simp only [Cap.viewAs, invokeCapOp, invokeProcOp, invokeRest, invokeReplyTo, supervisee]
  by_cases hin : (capSupervisorGetFree cap).toNat ≤ (user .a1).toNat ∧
      (user .a1).toNat < (capSupervisorGetEnd cap).toNat
  swap
  · have hb : (decide (capSupervisorGetFree cap > user .a1) ||
        decide (user .a1 ≥ capSupervisorGetEnd cap)) = true := by
      rw [Bool.or_eq_true, decide_eq_true_iff, decide_eq_true_iff, gt_iff_lt, ge_iff_le,
        BitVec.lt_def, BitVec.le_def]
      omega
    rw [if_neg hin]
    simp only [hb, if_true]
    exact ⟨False.elim, fun _ => ⟨_, s, rfl, .of_same ⟨errorInvalidSupervisee, rfl⟩ (.refl s)
      (fun _ _ => rfl) rfl fun _ => rfl⟩⟩
  have hb : (decide (capSupervisorGetFree cap > user .a1) ||
      decide (user .a1 ≥ capSupervisorGetEnd cap)) = false := by
    rw [Bool.or_eq_false_iff, decide_eq_false_iff_not, decide_eq_false_iff_not, gt_iff_lt,
      ge_iff_le, BitVec.lt_def, BitVec.le_def]
    omega
  have hq : (user .a1).toNat < cfg.nProc := hin.2.trans_le hstop
  rw [if_pos hin]
  simp only [hb, Bool.false_eq_true, if_false]
  rw [run_bind_ok (processAt_run hq)]
  simp only [Option.map_some, Option.getD_some, superviseCapOp, superviseProcOp]
  -- by the operation, and by whether the supervisee is suspended
  generalize (user .a1).toNat = q at hq
  generalize (user .a2).toNat = o
  by_cases hst : (s.procs q).state = procStateSuspended
  · simp only [hst, if_true]
    cases o using supervisorOp_cases with
    | suspend => exact suspend_performs
    | resume =>
      have h := resume_performs cfg (s := s) (p := p) (q := q)
      rw [if_pos hst] at h
      exact h
    | getState =>
      exact ⟨False.elim, fun _ => ⟨_, _, rfl, .of_same ⟨errorOk, rfl⟩ (.setReg _ _)
        (fun q' hq' => Kernel.procs_setReg_of_ne _ _ hq') (Kernel.state_setReg _ _) fun _ => rfl⟩⟩
    | readReg => exact readReg_performs hp hst
    | writeReg => exact write_performs hp hst
    | readCap => exact readCap_performs hp hst
    | giveCap => exact supervisorMove_performs hg hp hq hst
    | takeCap => exact supervisorMove_performs hg hp hpid hst
    | unimplemented n => exact busy_performs errorUnimplemented rfl rfl rfl
  · simp only [hst, if_false]
    have hacq := procSupervisorAcquire_run_of_ne hst
    cases o using supervisorOp_cases with
    | suspend => exact suspend_performs
    | resume =>
      have h := resume_performs cfg (s := s) (p := p) (q := q)
      rw [if_neg hst] at h
      exact h
    | getState =>
      exact ⟨False.elim, fun _ => ⟨_, _, rfl, .of_same ⟨errorOk, rfl⟩ (.setReg _ _)
        (fun q' hq' => Kernel.procs_setReg_of_ne _ _ hq') (Kernel.state_setReg _ _) fun _ => rfl⟩⟩
    | readReg => exact busy_performs _ ((run_bind_ok hacq _).trans rfl) rfl rfl
    | writeReg => exact busy_performs _ ((run_bind_ok hacq _).trans rfl) rfl rfl
    | readCap => exact busy_performs _ ((run_bind_ok hacq _).trans rfl) rfl rfl
    | giveCap => exact busy_performs _ ((run_bind_ok hacq _).trans rfl) rfl rfl
    | takeCap => exact busy_performs _ ((run_bind_ok hacq _).trans rfl) rfl rfl
    | unimplemented n => exact busy_performs errorUnimplemented rfl rfl rfl

/-! ## The table -/

/-- A capability that cannot be invoked. -/
theorem uninvokable_performs {m : KernelM Outcome} (code : Word) {c : Capability}
    (hm : m.run s = .ok (.ret code, s)) (h1 : invokeCapOp cfg s p user c = .skip)
    (h2 : invokeProcOp s user c = .none) (h3 : invokeRest s user c = .ret)
    (h4 : invokeReplyTo s c = none) :
    Performs s m (invokeCapOp cfg s p user c) (CallEffect cfg s p (invokeCapOp cfg s p user c)
      (invokeProcOp s user c) (invokeRest s user c) (invokeReplyTo s c)) := by
  rw [h1, h2, h3, h4]
  exact busy_performs _ hm rfl rfl

/-- The handler `syscall_invoke_cap` chooses for a type. -/
def invokeHandler (cfg : Config) (p : Nat) (cap : Cap) (a1 a2 a3 a4 a5 : Word) :
    CapType → KernelM Outcome
  | .empty => return .ret errorEmpty
  | .supervisor => syscallInvokeSupervisor cfg p cap a1 a2 a3 a4
  | .receiver => syscallInvokeReceiver p cap
  | .sender => syscallInvokeSender cfg p cap a1 a2 a3 a4 a5
  | .server => syscallInvokeServer cfg p cap a1 a2 a3 a4 a5
  | .client => syscallInvokeClient cfg p cap a1 a2 a3 a4 a5
  | _ => return .ret errorUnimplemented

/-- The type of the capability decides. -/
theorem invokeCap_run_of_type {cap : Cap} {t : CapType} {a0 a1 a2 a3 a4 a5 : Word}
    (hcap : s.capAt (.slot p (slotOf cfg a0)) = cap) (ht : capIsType cap t = true) :
    (syscallInvokeCap cfg p a0 a1 a2 a3 a4 a5).run s =
      (invokeHandler cfg p cap a1 a2 a3 a4 a5 t).run s := by
  rw [syscallInvokeCap, procGetCapNode_eq, run_bind_ok (capNodeGetCap_run _ s), hcap]
  simp only [capIsType_eq ht]
  cases t <;> rfl

/-- Every invocation has the effects that its capability says. -/
theorem syscallInvokeCap_performs (hg : s.Good cfg) (hpid : p < cfg.nProc)
    (hp : Running (s.procs p).state) (ha0 : (s.procs p).regs .a0 = user .a0) :
    Performs s (syscallInvokeCap cfg p (user .a0) (user .a1) (user .a2) (user .a3) (user .a4)
        (user .a5)) (invokeCapOp cfg s p user (invoked cfg s p user))
      (CallEffect cfg s p (invokeCapOp cfg s p user (invoked cfg s p user))
        (invokeProcOp s user (invoked cfg s p user)) (invokeRest s user (invoked cfg s p user))
        (invokeReplyTo s (invoked cfg s p user))) := by
  rw [invoked]
  by_cases hl : s.Live (.slot p (slotOf cfg (user .a0)))
  swap
  · rw [Kernel.capAt_of_dead hl, nullCap_view]
    refine uninvokable_performs errorEmpty ?_ rfl rfl rfl rfl
    exact (invokeCap_run_of_type (t := .empty) (Kernel.capAt_of_dead hl) (by decide)).trans rfl
  -- the live capability decides the handler, by its type
  have hvalid := hg.valid _ _ hl
  have hcap := Kernel.capAt_of_live hl
  rw [hcap]
  generalize s.caps (.slot p (slotOf cfg (user .a0))) = cap at hvalid hcap
  have hrun : ∀ {t : CapType}, capIsType cap t = true →
      (syscallInvokeCap cfg p (user .a0) (user .a1) (user .a2) (user .a3) (user .a4)
        (user .a5)).run s = (invokeHandler cfg p cap (user .a1) (user .a2) (user .a3) (user .a4)
          (user .a5) t).run s := fun ht => invokeCap_run_of_type hcap ht
  cases hv : cap.view with
  | memory =>
    refine uninvokable_performs errorUnimplemented ?_ rfl rfl rfl rfl
    exact (hrun (Cap.isType_of_view (by rw [hv]; rfl))).trans rfl
  | pmp =>
    refine uninvokable_performs errorUnimplemented ?_ rfl rfl rfl rfl
    exact (hrun (Cap.isType_of_view (by rw [hv]; rfl))).trans rfl
  | time =>
    refine uninvokable_performs errorUnimplemented ?_ rfl rfl rfl rfl
    exact (hrun (Cap.isType_of_view (by rw [hv]; rfl))).trans rfl
  | channels =>
    refine uninvokable_performs errorUnimplemented ?_ rfl rfl rfl rfl
    exact (hrun (Cap.isType_of_view (by rw [hv]; rfl))).trans rfl
  | receiver ch g =>
    have ht : capIsType cap .receiver = true := Cap.isType_of_view (by rw [hv]; rfl)
    have hch : (capReceiverGetChannel cap).toNat = ch := by
      rw [Cap.view_eq ht] at hv
      exact (Capability.receiver.inj hv).1
    rw [Performs, hrun ht]
    simp only [invokeCapOp, invokeProcOp, invokeRest, invokeReplyTo]
    rw [← hch]
    exact syscallInvokeReceiver_performs ht hp ha0
  | sender =>
    have ht : capIsType cap .sender = true := Cap.isType_of_view (by rw [hv]; rfl)
    rw [Performs, hrun ht, ← hv]
    rw [Cap.view_eq ht] at hvalid
    exact syscallInvokeSender_performs hg ht hvalid.2
  | server =>
    have ht : capIsType cap .server = true := Cap.isType_of_view (by rw [hv]; rfl)
    rw [Performs, hrun ht, ← hv]
    rw [Cap.view_eq ht] at hvalid
    exact syscallInvokeServer_performs hg ht hp hvalid.2 ha0
  | client =>
    have ht : capIsType cap .client = true := Cap.isType_of_view (by rw [hv]; rfl)
    rw [Performs, hrun ht, ← hv]
    rw [Cap.view_eq ht] at hvalid
    exact syscallInvokeClient_performs hg hpid ht hp hvalid.2
  | supervisor =>
    have ht : capIsType cap .supervisor = true := Cap.isType_of_view (by rw [hv]; rfl)
    rw [Performs, hrun ht, ← hv]
    exact syscallInvokeSupervisor_performs hg hpid ht hvalid hp
  | other =>
    rw [hv] at hvalid
    exact absurd hvalid.1 id

/-- A call that only reads. -/
theorem read_performs {m : KernelM Outcome} {code : Word} (hm : m.run s = .ok (.ret code, t))
    (ht : t = s ∨ ∃ r x, t = s.setReg p r x ∨ ∃ r' x', t = (s.setReg p r x).setReg p r' x') :
    Performs s m .skip (CallEffect cfg s p .skip .none .ret none) := by
  refine ⟨False.elim, fun _ => ⟨_, t, hm, ?_⟩⟩
  rcases ht with rfl | ⟨r, x, rfl | ⟨r', x', rfl⟩⟩
  · exact .of_same ⟨_, rfl⟩ (.refl _) (fun _ _ => rfl) rfl fun _ => rfl
  · exact .of_same ⟨_, rfl⟩ (.setReg r x) (fun q hq => Kernel.procs_setReg_of_ne _ _ hq)
      (Kernel.state_setReg _ _) fun _ => rfl
  · exact .of_same ⟨_, rfl⟩ ((SameCaps.setReg r x).trans (.setReg r' x'))
      (fun q hq => (Kernel.procs_setReg_of_ne _ _ hq).trans (Kernel.procs_setReg_of_ne _ _ hq))
      ((Kernel.state_setReg _ _).trans (Kernel.state_setReg _ _)) fun _ => rfl

/-- A yield gives the hart away. -/
theorem syscallYield_performs {mtimecmp : Word} (hp : Running (s.procs p).state) :
    Performs s (syscallYield p mtimecmp) .skip (CallEffect cfg s p .skip .none .yield none) := by
  have hst : (((s.setReg p .timeout mtimecmp).setReg p .a0 errorOk).procs p).state =
      (s.procs p).state := by rw [Kernel.state_setReg, Kernel.state_setReg]
  have hrun : (syscallYield p mtimecmp).run s = .ok (.yielded, ((s.setReg p .timeout
      mtimecmp).setReg p .a0 errorOk).setState p ((s.procs p).state &&& 4)) := by
    rw [syscallYield, run_bind_ok (writeReg_run _ _ _ s), run_bind_ok (writeReg_run _ _ _ _),
      schedYield, run_bind_ok (procRelease_run (hst.symm ▸ hp)), hst]
    rfl
  refine ⟨False.elim, fun _ => ⟨_, _, hrun, ?_⟩⟩
  exact {
    caps := ⟨s, s, .refl s, .skip s, ((SameCaps.setReg .timeout mtimecmp).trans
      (.setReg .a0 errorOk)).trans (.setState _)⟩
    others := fun q hq => by
      rw [Kernel.procs_setState_of_ne _ hq, Kernel.procs_setReg_of_ne _ _ hq,
        Kernel.procs_setReg_of_ne _ _ hq]
      rfl
    caller := ⟨rfl, by rw [Kernel.state_setState]⟩
    replies := fun ch => by simp [Kernel.setState, Kernel.setReg, Kernel.setProc] }

/-- The table: every call does what it asks for. -/
theorem syscallVector_performs (mtimecmp : Word) (user : Reg → Word) (hg : s.Good cfg)
    (hpid : p < cfg.nProc)
    (hp : Running (s.procs p).state) (ha0 : (s.procs p).regs .a0 = user .a0) :
    Performs s (syscallVector cfg p mtimecmp user) (capOp cfg s p user)
      (CallEffect cfg s p (capOp cfg s p user) (procOp cfg s p user) (restOf cfg s p user)
        (replyTo cfg s p user)) := by
  unfold syscallVector capOp procOp restOf replyTo
  generalize (user .t0).toNat = nr
  match nr with
  | 0 => exact read_performs rfl (Or.inl rfl)
  | 1 =>
    have hrun : (syscallReadCap cfg p (user .a0)).run s = .ok (.ret errorOk, (s.setReg p .a1
        (s.capAt (.slot p (slotOf cfg (user .a0)))).word0).setReg p .a2
          (s.capAt (.slot p (slotOf cfg (user .a0)))).word1) :=
      (run_bind_ok (capNodeGetCap_run _ s) _).trans rfl
    exact read_performs hrun (Or.inr ⟨.a1, _, Or.inr ⟨.a2, _, rfl⟩⟩)
  | 2 =>
    obtain ⟨hhang, hrun⟩ := syscallMoveCap_performs (user .a0) (user .a1) hg hpid
    refine ⟨hhang, fun h => ?_⟩
    obtain ⟨out, t, ht, hout, hstep⟩ := hrun h
    exact ⟨out, t, ht, .of_capStep hout (Or.inl rfl) hstep⟩
  | 3 =>
    by_cases hl : s.Live (.slot p (slotOf cfg (user .a0)))
    · simp only [hl, if_true]
      obtain ⟨hhang, hrun⟩ := syscallDeleteCap_performs hg hl
      refine ⟨hhang, fun h => ?_⟩
      obtain ⟨out, t, ht, hout, hstep⟩ := hrun h
      exact ⟨out, t, ht, .of_capStep hout (Or.inl rfl) hstep⟩
    · simp only [hl, if_false]
      exact read_performs (syscallDeleteCap_run_of_dead hl) (Or.inl rfl)
  | 4 =>
    by_cases hl : s.Live (.slot p (slotOf cfg (user .a0)))
    · simp only [hl, if_true]
      exact read_performs (syscallRevokeCap_run_of_live hl) (Or.inr ⟨.a0, _, Or.inl rfl⟩)
    · simp only [hl, if_false]
      obtain ⟨hhang, hrun⟩ := syscallRevokeCap_performs hg hpid hl
      refine ⟨hhang, fun h => ?_⟩
      obtain ⟨out, t, ht, hout, hstep⟩ := hrun h
      exact ⟨out, t, ht, .of_capStep hout (Or.inr ⟨_, _, rfl⟩) hstep⟩
  | 5 =>
    obtain ⟨hhang, hrun⟩ := syscallDeriveCap_performs (user .a0) (user .a1) (user .a2)
      (user .a3) hg hpid
    refine ⟨hhang, fun h => ?_⟩
    obtain ⟨out, t, ht, hout, hstep⟩ := hrun h
    exact ⟨out, t, ht, .of_capStep hout (Or.inr ⟨_, _, rfl⟩) hstep⟩
  | 6 => exact syscallInvokeCap_performs hg hpid hp ha0
  | 7 => exact read_performs rfl (Or.inl rfl)
  | 8 =>
    obtain ⟨v, hv⟩ := procReadRegister_run (q := p) (s := s) (user .a0)
    exact read_performs ((run_bind_ok hv _).trans rfl) (Or.inl rfl)
  | 9 =>
    cases hr : Reg.all[(user .a0).toNat]? with
    | none =>
      obtain ⟨v, hv⟩ := procWriteRegister_run_of_none (q := p) (s := s) (user .a1) hr
      exact read_performs ((run_bind_ok hv _).trans rfl) (Or.inl rfl)
    | some r =>
      obtain ⟨v, hv⟩ := procWriteRegister_run_of_some (q := p) (s := s) (user .a1) hr
      exact read_performs ((run_bind_ok hv _).trans rfl) (Or.inr ⟨r, _, Or.inl rfl⟩)
  | 10 => exact syscallYield_performs hp
  | n + 11 => exact read_performs rfl (Or.inl rfl)

end SepKernel
