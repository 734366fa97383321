import SepKernel.Calls

/-!
# Steps of the system

From calls to steps: the trap saves the caller's registers, the call does what it asks for, and
the hart goes on with the process or with the scheduler. `System.Good` is the invariant of the
whole machine; `step_performs` says for every step that it keeps to its request, or hangs just
where the request does.
-/

namespace SepKernel

variable {cfg : Config} {s t : Kernel} {p q : Nat} {user : Reg → Word} {mtimecmp : Word}

/-! ## Entering the kernel -/

/-- The kernel after the trap has saved the registers and moved past the `ecall`. -/
def Kernel.enter (s : Kernel) (p : Nat) (user : Reg → Word) : Kernel :=
  (s.setProc p { s.procs p with
    regs := fun r => if r.isUser then user r else (s.procs p).regs r }).setReg p .pc (user .pc + 4)

theorem enter_procs_of_ne (h : q ≠ p) : (s.enter p user).procs q = s.procs q := by
  rw [Kernel.enter, Kernel.procs_setReg_of_ne _ _ h, Kernel.procs_setProc_of_ne _ h]

theorem enter_state : ((s.enter p user).procs q).state = (s.procs q).state := by
  by_cases h : q = p
  · subst h
    rw [Kernel.enter, Kernel.state_setReg, Kernel.procs_setProc_same]
  · rw [enter_procs_of_ne h]

/-- The registers a trap does not save. -/
theorem enter_regs {r : Reg} (h : r.isUser = false) :
    ((s.enter p user).procs q).regs r = (s.procs q).regs r := by
  by_cases hq : q = p
  · subst hq
    have hpc : r ≠ .pc := by
      rintro rfl
      exact absurd h (by decide)
    rw [Kernel.enter, Kernel.regs_setReg_of_ne _ hpc, Kernel.procs_setProc_same]
    simp [h]
  · rw [enter_procs_of_ne hq]

theorem enter_a0 : ((s.enter p user).procs p).regs .a0 = user .a0 := by
  rw [Kernel.enter, Kernel.regs_setReg_of_ne _ (by decide), Kernel.procs_setProc_same]
  rfl

theorem sameCaps_enter : SameCaps cfg s (s.enter p user) := by
  refine SameCaps.trans (SameCaps.setProc (p := p) ?_) (.setReg _ _)
  rfl

theorem acquired_enter (ch : Nat) (k : Fin 2) : acquired (s.enter p user) ch k = acquired s ch k := by
  have hrec : (s.enter p user).receivers = s.receivers := rfl
  simp only [acquired, hrec, enter_state]

theorem deliverOp_enter (src : Word) (r : Nat) :
    deliverOp cfg (s.enter p user) p src r = deliverOp cfg s p src r := by
  simp only [deliverOp, enter_regs (r := .destCidx) rfl]
  rfl

theorem capOp_enter : capOp cfg (s.enter p user) p user = capOp cfg s p user := by
  have hdel : deliverOp cfg (s.enter p user) p (user .a5) = deliverOp cfg s p (user .a5) :=
    funext fun r => deliverOp_enter _ r
  have hsup : superviseCapOp cfg (s.enter p user) p user = superviseCapOp cfg s p user := by
    funext q
    simp only [superviseCapOp, enter_state]
    rfl
  have hinv : invokeCapOp cfg (s.enter p user) p user = invokeCapOp cfg s p user := by
    funext c
    cases c <;> simp only [invokeCapOp, acquired_enter, hdel, hsup]
  unfold capOp
  rw [hinv]
  rfl

theorem procOp_enter : procOp cfg (s.enter p user) p user = procOp cfg s p user := by
  have hsup : superviseProcOp (s.enter p user) user = superviseProcOp s user := by
    funext q
    simp only [superviseProcOp, enter_state]
  have hinv : invokeProcOp (s.enter p user) user = invokeProcOp s user := by
    funext c
    cases c <;> simp only [invokeProcOp, acquired_enter, hsup]
  unfold procOp
  rw [hinv]
  rfl

theorem restOf_enter : restOf cfg (s.enter p user) p user = restOf cfg s p user := by
  have hinv : invokeRest (s.enter p user) user = invokeRest s user := by
    funext c
    cases c <;> simp only [invokeRest, acquired_enter]
  unfold restOf
  rw [hinv]
  rfl

theorem replyTo_enter : replyTo cfg (s.enter p user) p user = replyTo cfg s p user := by
  have hinv : invokeReplyTo (s.enter p user) = invokeReplyTo s := by
    funext c
    cases c <;> simp only [invokeReplyTo, acquired_enter]
  unfold replyTo
  rw [hinv]
  rfl

/-! ## The trap -/

/-- The effect of a call on the kernel the trap entered is its effect on the one before. -/
theorem CallEffect.of_enter {cop : CapOp} {pop : ProcOp} {rest : Rest} {reply : Option Nat}
    {out : Outcome} (h : CallEffect cfg (s.enter p user) p cop pop rest reply out t) :
    CallEffect cfg s p cop pop rest reply out t where
  caps := CapEffect.same_trans sameCaps_enter h.caps
  others q hq := by rw [h.others q hq, enter_procs_of_ne hq]
  caller := by
    have hcaller := h.caller
    have happly : (pop.apply p ((s.enter p user).procs p)).state =
        (pop.apply p (s.procs p)).state := by
      cases pop with
      | none => exact enter_state
      | suspend q =>
        simp only [ProcOp.apply]
        split
        · exact congrArg suspended enter_state
        · exact enter_state
      | resume q =>
        simp only [ProcOp.apply]
        split
        · rfl
        · exact enter_state
      | write q r x =>
        simp only [ProcOp.apply]
        split <;> exact enter_state
      | deliver q m0 m1 m2 m3 =>
        simp only [ProcOp.apply]
        split
        · rfl
        · exact enter_state
    cases rest with
    | ret => exact ⟨hcaller.1, hcaller.2.trans happly⟩
    | yield => exact ⟨hcaller.1, by rw [hcaller.2, enter_state]⟩
    | wait ch a0 => exact ⟨hcaller.1, by rw [hcaller.2.1, enter_state], hcaller.2.2⟩
  replies := h.replies

/-- The code goes to `a0` of a call that returns. -/
theorem CallEffect.ret {cop : CapOp} {pop : ProcOp} {rest : Rest} {reply : Option Nat}
    {code : Word} (h : CallEffect cfg s p cop pop rest reply (.ret code) t) :
    CallEffect cfg s p cop pop rest reply (.ret code) (t.setReg p .a0 code) where
  caps := h.caps.trans_same (.setReg _ _)
  others q hq := (Kernel.procs_setReg_of_ne _ _ hq).trans (h.others q hq)
  caller := by
    have hcaller := h.caller
    cases rest with
    | ret => exact ⟨hcaller.1, (Kernel.state_setReg _ _).trans hcaller.2⟩
    | yield => exact absurd hcaller.1 (by simp)
    | wait ch a0 => exact absurd hcaller.1 (by simp)
  replies := h.replies

theorem trapSyscall_performs (mtimecmp : Word) (user : Reg → Word) (hg : s.Good cfg)
    (hpid : p < cfg.nProc) (hp : Running (s.procs p).state) :
    Performs s (trapSyscall cfg p mtimecmp user) (capOp cfg s p user)
      (CallEffect cfg s p (capOp cfg s p user) (procOp cfg s p user) (restOf cfg s p user)
        (replyTo cfg s p user)) := by
  have hg' : (s.enter p user).Good cfg := sameCaps_enter.good hg
  have hstate : ((s.enter p user).procs p).state = (s.procs p).state := enter_state
  obtain ⟨hhang, hrun⟩ := syscallVector_performs mtimecmp user hg' hpid (hstate ▸ hp) enter_a0
  rw [capOp_enter, procOp_enter, restOf_enter, replyTo_enter] at hrun
  rw [capOp_enter] at hhang
  have hcaps : ∀ op : CapOp, op.Hangs (s.enter p user) ↔ op.Hangs s := by
    intro op
    cases op <;> exact Iff.rfl
  rw [hcaps] at hhang hrun
  have hsave : (saveContext p user).run s = .ok ((), s.setProc p { s.procs p with
      regs := fun r => if r.isUser then user r else (s.procs p).regs r }) := rfl
  have hpc : (writeReg p .pc (user .pc + 4)).run (s.setProc p { s.procs p with
      regs := fun r => if r.isUser then user r else (s.procs p).regs r }) =
        .ok ((), s.enter p user) := rfl
  rw [trapSyscall, Performs, run_bind_ok hsave, run_bind_ok hpc]
  refine ⟨fun h => run_bind_error (hhang h) _, fun h => ?_⟩
  obtain ⟨out, t, ht, heff⟩ := hrun h
  cases out with
  | ret code =>
    exact ⟨_, _, (run_bind_ok ht _).trans rfl, heff.of_enter.ret⟩
  | yielded =>
    exact ⟨_, _, (run_bind_ok ht _).trans rfl, heff.of_enter⟩

/-! ## The other traps -/

/-- A computation that changes nothing but the registers of the process the hart runs. -/
structure OwnRegs (cfg : Config) (p : Nat) (s t : Kernel) : Prop where
  same : SameCaps cfg s t
  others : ∀ q, q ≠ p → t.procs q = s.procs q
  state : (t.procs p).state = (s.procs p).state
  replies : ∀ ch, t.receivers ch 1 = s.receivers ch 1

namespace OwnRegs

theorem enter (user : Reg → Word) : OwnRegs cfg p s (s.setProc p { s.procs p with
    regs := fun r => if r.isUser then user r else (s.procs p).regs r }) :=
  ⟨.setProc rfl, fun _ hq => Kernel.procs_setProc_of_ne _ hq, by rw [Kernel.procs_setProc_same],
    fun _ => rfl⟩

theorem setReg (r : Reg) (x : Word) : OwnRegs cfg p s (s.setReg p r x) :=
  ⟨.setReg _ _, fun _ hq => Kernel.procs_setReg_of_ne _ _ hq, Kernel.state_setReg _ _,
    fun _ => rfl⟩

theorem trans {s' : Kernel} (h : OwnRegs cfg p s s') (h' : OwnRegs cfg p s' t) :
    OwnRegs cfg p s t :=
  ⟨h.same.trans h'.same, fun q hq => (h'.others q hq).trans (h.others q hq),
    h'.state.trans h.state, fun ch => (h'.replies ch).trans (h.replies ch)⟩

end OwnRegs

theorem trapTimer_run (cfg : Config) (user : Reg → Word) (hp : Running (s.procs p).state) :
    ∃ k, (trapTimer p user).run s = .ok (.yielded, k.setState p ((s.procs p).state &&& 4)) ∧
      OwnRegs cfg p s k := by
  refine ⟨_, ?_, .enter user⟩
  have hsave : (saveContext p user).run s = .ok ((), s.setProc p { s.procs p with
      regs := fun r => if r.isUser then user r else (s.procs p).regs r }) := rfl
  have hrel := procRelease_run (s := s.setProc p { s.procs p with
      regs := fun r => if r.isUser then user r else (s.procs p).regs r })
    (by rw [Kernel.procs_setProc_same]; exact hp)
  rw [Kernel.procs_setProc_same] at hrel
  rw [trapTimer, run_bind_ok hsave, schedYield, run_bind_ok hrel]
  rfl

theorem exceptionHandler_run (cfg : Config) (s : Kernel) (p : Nat) (mcause mtval mepc : Word) :
    ∃ k, (exceptionHandler p mcause mtval mepc).run s = .ok ((), k) ∧ OwnRegs cfg p s k := by
  unfold exceptionHandler
  by_cases h : (mcause == illegalInstruction && mtval == mret) = true
  · rw [if_pos h]
    exact ⟨_, rfl, (((OwnRegs.setReg .sp _).trans (.setReg .pc _)).trans (.setReg .a0 _)).trans
      (.setReg .a1 _)⟩
  · rw [if_neg h]
    exact ⟨_, rfl, (((((((OwnRegs.setReg .ppc _).trans (.setReg .psp _)).trans
      (.setReg .pa0 _)).trans (.setReg .pa1 _)).trans (.setReg .pc _)).trans
        (.setReg .sp _)).trans (.setReg .a0 _)).trans (.setReg .a1 _)⟩

theorem trapException_run (cfg : Config) (s : Kernel) (p : Nat) (user : Reg → Word)
    (mcause mtval : Word) :
    ∃ k, (trapException p user mcause mtval).run s = .ok ((), k) ∧ OwnRegs cfg p s k := by
  have hsave : (saveContext p user).run s = .ok ((), s.setProc p { s.procs p with
      regs := fun r => if r.isUser then user r else (s.procs p).regs r }) := rfl
  obtain ⟨k, hk, hown⟩ := exceptionHandler_run cfg (s.setProc p { s.procs p with
      regs := fun r => if r.isUser then user r else (s.procs p).regs r }) p mcause mtval
    (user .pc)
  exact ⟨k, (run_bind_ok hsave _).trans hk, (OwnRegs.enter user).trans hown⟩

/-! ## The scheduler -/

section

variable {hart quantum : Nat}

theorem schedGet_run (hq : quantum < cfg.nQuantum) (hlo : cfg.minHartid ≤ hart)
    (hhi : hart ≤ cfg.maxHartid) : (schedGet cfg quantum hart).run s =
      .ok (.unpack (s.schedule quantum (hart - cfg.minHartid)), s) := by
  rw [schedGet, run_bind_ok (run_kassert (by simp [hq]) s),
    run_bind_ok (run_kassert (by simp [hlo, hhi]) s)]
  rfl

theorem schedPreempted_run (pid : Word) (hq : quantum < cfg.nQuantum) :
    ∀ {harts : List Nat}, (∀ h ∈ harts, cfg.minHartid ≤ h ∧ h ≤ cfg.maxHartid) →
      ∃ b, (schedPreempted cfg quantum pid harts).run s = .ok (b, s)
  | [], _ => ⟨false, rfl⟩
  | h :: hs, hin => by
    have hh := hin h (by simp)
    obtain ⟨b, hb⟩ := schedPreempted_run pid hq fun h' hm =>
      hin h' (List.mem_cons_of_mem h hm)
    rw [schedPreempted, run_bind_ok (schedGet_run hq hh.1 hh.2)]
    split
    · exact ⟨true, rfl⟩
    · exact ⟨b, hb⟩

/-- The scheduler looks and finds nobody, or an existing process. -/
theorem schedGetProc_run (time : Word) (he : EntriesOk cfg s) (hlo : cfg.minHartid ≤ hart)
    (hhi : hart ≤ cfg.maxHartid) :
    ∃ found, (schedGetProc cfg hart time).run s = .ok (found, s) ∧
      ∀ p len, found = some (p, len) → p < cfg.nProc := by
  have hq : time.toNat % cfg.nQuantum < cfg.nQuantum := Nat.mod_lt _ cfg.nQuantum_pos
  have hharts : ∀ h ∈ List.range' cfg.minHartid (hart - cfg.minHartid),
      cfg.minHartid ≤ h ∧ h ≤ cfg.maxHartid := by
    intro h hm
    obtain ⟨i, hi, rfl⟩ := List.mem_range'.mp hm
    omega
  rw [schedGetProc, run_bind_ok (schedGet_run hq hlo hhi)]
  generalize hent : SchedEntry.unpack (s.schedule (time.toNat % cfg.nQuantum)
    (hart - cfg.minHartid)) = entry
  have hok : PidOk cfg entry.pid := hent ▸ he _ _
  split
  · exact ⟨none, rfl, by simp⟩
  · next hinv =>
    obtain ⟨b, hb⟩ := schedPreempted_run (s := s) entry.pid hq hharts
    rw [run_bind_ok hb]
    split
    · exact ⟨none, rfl, by simp⟩
    · have hlt : entry.pid.toNat < cfg.nProc :=
        hok.resolve_left fun h => hinv (by rw [h]; rfl)
      refine ⟨some (entry.pid.toNat, entry.length), ?_, ?_⟩
      · rw [run_bind_ok (processAt_run hlt)]
        rfl
      · intro p len h
        exact (Prod.mk.inj (Option.some.inj h)).1 ▸ hlt

/-- A round of the scheduler's loop: nothing happens, or a ready process is taken. -/
theorem schedStartRound_run (mtime : Word) (he : EntriesOk cfg s) (hlo : cfg.minHartid ≤ hart)
    (hhi : hart ≤ cfg.maxHartid) :
    (schedStartRound cfg hart mtime).run s = .ok (none, s) ∨
      ∃ d, (schedStartRound cfg hart mtime).run s =
          .ok (some d, s.setState d.proc procStateRunning) ∧
        d.proc < cfg.nProc ∧ (s.procs d.proc).state = procStateReady := by
  obtain ⟨found, hrun, hfound⟩ := schedGetProc_run
    (mtime / BitVec.ofNat 64 cfg.ticks + 1) he hlo hhi
  simp only [schedStartRound]
  rw [run_bind_ok hrun]
  cases found with
  | none => exact Or.inl rfl
  | some d =>
    obtain ⟨p, len⟩ := d
    have hp := hfound p len rfl
    change (readReg p .timeout >>= _ : KernelM (Option Dispatched)).run s = _ ∨
      ∃ d, (readReg p .timeout >>= _ : KernelM (Option Dispatched)).run s = _ ∧ _
    rw [run_bind_ok (readReg_run p .timeout s)]
    split
    · exact Or.inl rfl
    · by_cases hst : (s.procs p).state = procStateReady
      · refine Or.inr ⟨⟨p, _, len, _⟩, (run_bind_ok (casState_run_of_eq hst) _).trans rfl, hp, hst⟩
      · exact Or.inl ((run_bind_ok (casState_run_of_ne hst) _).trans rfl)

theorem procLoadPmpEntry_run (cfg : Config) (s : Kernel) (p : Nat) (out : PmpRegs) (i : Nat) :
    ∃ out', (procLoadPmpEntry cfg p out i).run s = .ok (out', s) := by
  rw [procLoadPmpEntry, run_bind_ok (readReg_run p .pmp s)]
  by_cases hidx : ((s.procs p).regs .pmp &&& 0xFF &&& 0x80 != 0) = true
  · simp only [hidx, if_true]
    exact ⟨out, rfl⟩
  simp only [hidx, Bool.false_eq_true, if_false, procGetCap]
  rw [run_bind_ok (capNodeGetCap_run _ s)]
  generalize s.capAt (procGetCapNode cfg p (BitVec.ofNat 64 i)) = cap
  by_cases ht : capIsType cap .pmp = true
  · simp only [ht, Bool.not_true, Bool.false_eq_true, if_false]
    rw [run_bind_ok (run_lift_ok (Field.checkedGet_eq ht) s),
      run_bind_ok (run_lift_ok (Field.checkedGet_eq ht) s)]
    exact ⟨_, rfl⟩
  · simp only [ht, Bool.not_false, if_true]
    exact ⟨out, rfl⟩

theorem procLoadPmp_run (cfg : Config) (s : Kernel) (p : Nat) :
    ∃ out, (procLoadPmp cfg p).run s = .ok (out, s) := by
  have hfold : ∀ (l : List Nat) (out : PmpRegs),
      ∃ out', (l.foldlM (procLoadPmpEntry cfg p) out).run s = .ok (out', s) := by
    intro l
    induction l with
    | nil => exact fun out => ⟨out, rfl⟩
    | cons i l ih =>
      intro out
      obtain ⟨out', h⟩ := procLoadPmpEntry_run cfg s p out i
      obtain ⟨out'', h'⟩ := ih out'
      exact ⟨out'', by rw [List.foldlM_cons, run_bind_ok h, h']⟩
  exact hfold _ _

end

/-! ## Steps -/

/-- The invariant of the machine: no process on two harts, and the state words tell who runs. -/
structure System.Good (cfg : Config) (s : System) : Prop where
  kernel : s.kernel.Good cfg
  current : ∀ h p, s.current h = some p → p < cfg.nProc ∧ Running (s.kernel.procs p).state
  unique : ∀ h h' p, s.current h = some p → s.current h' = some p → h = h'
  idle : ∀ p, p < cfg.nProc → (∀ h, s.current h ≠ some p) → Idle (s.kernel.procs p).state

/-- What a step does. -/
inductive StepEffect (cfg : Config) (s : System) : Label → System → Prop where
  | call {h p : Nat} {user : Reg → Word} {out : Outcome} {k : Kernel}
      (hcur : s.current h = some p) (hrun : ¬ CallHangs cfg s.kernel p user)
      (heff : CallEffect cfg s.kernel p (capOp cfg s.kernel p user) (procOp cfg s.kernel p user)
        (restOf cfg s.kernel p user) (replyTo cfg s.kernel p user) out k) :
      StepEffect cfg s (.ecall h user) (s.finish h out k)
  | timer {h p : Nat} {user : Reg → Word} {k : Kernel} (hcur : s.current h = some p)
      (hown : OwnRegs cfg p s.kernel k) :
      StepEffect cfg s (.timer h user)
        (s.finish h .yielded (k.setState p ((s.kernel.procs p).state &&& 4)))
  | exception {h p : Nat} {user : Reg → Word} {mcause mtval : Word} {k : Kernel}
      (hcur : s.current h = some p) (hown : OwnRegs cfg p s.kernel k) :
      StepEffect cfg s (.exception h user mcause mtval) { s with kernel := k }
  | idle {h : Nat} {mtime : Word} (hcur : s.current h = none) :
      StepEffect cfg s (.schedule h mtime) s
  | dispatch {h p : Nat} {mtime : Word} {hart : Hart} (hcur : s.current h = none)
      (hp : p < cfg.nProc) (hready : (s.kernel.procs p).state = procStateReady)
      (hhart : hart.current = some p) :
      StepEffect cfg s (.schedule h mtime)
        ⟨s.kernel.setState p procStateRunning, Function.update s.harts h hart⟩

variable {st st' : System} {h hart : Nat} {l : Label} {mtime mcause mtval : Word}

theorem step_ecall (user : Reg → Word) (hg : st.Good cfg) (hcur : st.current h = some p) :
    (CallHangs cfg st.kernel p user → step cfg (.ecall h user) st = some (.error .assertion)) ∧
    (¬ CallHangs cfg st.kernel p user →
      ∃ st', Step cfg st (.ecall h user) st' ∧ StepEffect cfg st (.ecall h user) st') := by
  obtain ⟨hp, hst⟩ := hg.current h p hcur
  obtain ⟨hhang, hrun⟩ := trapSyscall_performs (st.harts h).mtimecmp user hg.kernel hp hst
  refine ⟨fun hh => ?_, fun hh => ?_⟩
  · rw [step, hcur, Option.map_some, hhang hh]
    rfl
  · obtain ⟨out, k, hk, heff⟩ := hrun hh
    refine ⟨st.finish h out k, ?_, .call hcur hh heff⟩
    rw [Step, step, hcur, Option.map_some, hk]
    rfl

theorem step_timer (user : Reg → Word) (hg : st.Good cfg) (hcur : st.current h = some p) :
    ∃ st', Step cfg st (.timer h user) st' ∧ StepEffect cfg st (.timer h user) st' := by
  obtain ⟨k, hk, hown⟩ := trapTimer_run cfg user (hg.current h p hcur).2
  refine ⟨_, ?_, .timer hcur hown⟩
  rw [Step, step, hcur, Option.map_some, hk]
  rfl

theorem step_exception (cfg : Config) (user : Reg → Word) (mcause mtval : Word)
    (hcur : st.current h = some p) :
    ∃ st', Step cfg st (.exception h user mcause mtval) st' ∧
      StepEffect cfg st (.exception h user mcause mtval) st' := by
  obtain ⟨k, hk, hown⟩ := trapException_run cfg st.kernel p user mcause mtval
  refine ⟨_, ?_, .exception hcur hown⟩
  rw [Step, step, hcur, Option.map_some, hk]
  rfl

theorem step_schedule (mtime : Word) (hg : st.Good cfg) (hlo : cfg.minHartid ≤ h)
    (hhi : h ≤ cfg.maxHartid) (hcur : st.current h = none) :
    ∃ st', Step cfg st (.schedule h mtime) st' ∧ StepEffect cfg st (.schedule h mtime) st' := by
  have hin : cfg.minHartid ≤ h ∧ h ≤ cfg.maxHartid ∧ st.current h = none := ⟨hlo, hhi, hcur⟩
  rcases schedStartRound_run mtime hg.kernel.entries hlo hhi with
    hk | ⟨d, hk, hd, hready⟩
  · refine ⟨st, ?_, .idle hcur⟩
    rw [Step, step, if_pos hin, hk]
    rfl
  · have hdisp : ∃ hart, hart.current = some d.proc ∧
        dispatch cfg st h d (st.kernel.setState d.proc procStateRunning) =
          .ok ⟨st.kernel.setState d.proc procStateRunning, Function.update st.harts h hart⟩ := by
      unfold dispatch
      by_cases hm : cfg.memoryProtection = true
      · obtain ⟨out, hout⟩ := procLoadPmp_run cfg
          (st.kernel.setState d.proc procStateRunning) d.proc
        rw [if_pos hm, hout]
        exact ⟨_, rfl, rfl⟩
      · rw [if_neg hm]
        exact ⟨_, rfl, rfl⟩
    obtain ⟨hart, hhart, hd'⟩ := hdisp
    refine ⟨_, ?_, .dispatch hcur hd hready hhart⟩
    rw [Step, step, if_pos hin, hk]
    exact congrArg some hd'

/-- Every step that returns does what its effect says. -/
theorem step_effect (hg : st.Good cfg) (hs : Step cfg st l st') : StepEffect cfg st l st' := by
  have huniq : ∀ {t : System}, Step cfg st l t → st' = t := fun ht =>
    Except.ok.inj (Option.some.inj (hs.symm.trans ht))
  cases l with
  | ecall h user =>
    cases hcur : st.current h with
    | none => simp [Step, step, hcur] at hs
    | some p =>
      obtain ⟨hhang, hrun⟩ := step_ecall user hg hcur
      by_cases hh : CallHangs cfg st.kernel p user
      · rw [Step, hhang hh] at hs
        cases hs
      · obtain ⟨t, ht, heff⟩ := hrun hh
        exact huniq ht ▸ heff
  | timer h user =>
    cases hcur : st.current h with
    | none => simp [Step, step, hcur] at hs
    | some p =>
      obtain ⟨t, ht, heff⟩ := step_timer user hg hcur
      exact huniq ht ▸ heff
  | exception h user mcause mtval =>
    cases hcur : st.current h with
    | none => simp [Step, step, hcur] at hs
    | some p =>
      obtain ⟨t, ht, heff⟩ := step_exception cfg user mcause mtval hcur
      exact huniq ht ▸ heff
  | schedule h mtime =>
    by_cases hin : cfg.minHartid ≤ h ∧ h ≤ cfg.maxHartid ∧ st.current h = none
    · obtain ⟨t, ht, heff⟩ := step_schedule mtime hg hin.1 hin.2.1 hin.2.2
      exact huniq ht ▸ heff
    · rw [Step, step, if_neg hin] at hs
      cases hs

/-- A step fails only where the call of a process hangs, and then in an assert. -/
theorem step_error (hg : st.Good cfg) {e : Halt} :
    step cfg l st = some (.error e) ↔ e = .assertion ∧ ∃ h user p, l = .ecall h user ∧
      st.current h = some p ∧ CallHangs cfg st.kernel p user := by
  constructor
  · intro hs
    -- in every other case the step returns
    have hno : ∀ {t : System}, ¬ Step cfg st l t := fun ht => by
      rw [Step, hs] at ht
      cases ht
    cases l with
    | ecall h user =>
      cases hcur : st.current h with
      | none => simp [step, hcur] at hs
      | some p =>
        obtain ⟨hhang, hrun⟩ := step_ecall user hg hcur
        by_cases hh : CallHangs cfg st.kernel p user
        · rw [hhang hh] at hs
          exact ⟨by cases hs; rfl, h, user, p, rfl, hcur, hh⟩
        · obtain ⟨t, ht, -⟩ := hrun hh
          exact absurd ht hno
    | timer h user =>
      cases hcur : st.current h with
      | none => simp [step, hcur] at hs
      | some p =>
        obtain ⟨t, ht, -⟩ := step_timer user hg hcur
        exact absurd ht hno
    | exception h user mcause mtval =>
      cases hcur : st.current h with
      | none => simp [step, hcur] at hs
      | some p =>
        obtain ⟨t, ht, -⟩ := step_exception cfg user mcause mtval hcur
        exact absurd ht hno
    | schedule h mtime =>
      by_cases hin : cfg.minHartid ≤ h ∧ h ≤ cfg.maxHartid ∧ st.current h = none
      · obtain ⟨t, ht, -⟩ := step_schedule mtime hg hin.1 hin.2.1 hin.2.2
        exact absurd ht hno
      · rw [step, if_neg hin] at hs
        cases hs
  · rintro ⟨rfl, h, user, p, rfl, hcur, hh⟩
    exact (step_ecall user hg hcur).1 hh

/-! ## What a request presupposes -/

/-- The channel, the end of it and the kind of call a message goes by. -/
inductive MessageVia (s : Kernel) (q ch : Nat) : Capability → Prop
  | sender {g : Word} (h : acquired s ch 0 = some q) : MessageVia s q ch (.sender ch g)
  | client {g : Word} (h : acquired s ch 0 = some q) : MessageVia s q ch (.client ch g)
  | server {g : Word} (h : acquired s ch 1 = some q) : MessageVia s q ch (.server ch g)

/-- The calls that ask for an operation on a process, and what each has checked. -/
inductive ProcRequest (cfg : Config) (s : Kernel) (p : Nat) (user : Reg → Word) : ProcOp → Prop
  | none : ProcRequest cfg s p user .none
  | suspend {r : Span} {q : Nat} (hnr : (user .t0).toNat = 6)
      (hinv : invoked cfg s p user = .supervisor r) (hq : supervisee user r = some q) :
      ProcRequest cfg s p user (.suspend q)
  | resume {r : Span} {q : Nat} (hnr : (user .t0).toNat = 6)
      (hinv : invoked cfg s p user = .supervisor r) (hq : supervisee user r = some q)
      (hst : (s.procs q).state = procStateSuspended) : ProcRequest cfg s p user (.resume q)
  | write {r : Span} {q : Nat} {x : Reg} (hnr : (user .t0).toNat = 6)
      (hinv : invoked cfg s p user = .supervisor r) (hq : supervisee user r = some q)
      (hst : (s.procs q).state = procStateSuspended) :
      ProcRequest cfg s p user (.write q x (user .a4))
  | message {q ch : Nat} (hnr : (user .t0).toNat = 6)
      (hvia : MessageVia s q ch (invoked cfg s p user)) :
      ProcRequest cfg s p user (messageOp user q)

theorem superviseProcOp_request {r : Span} (hnr : (user .t0).toNat = 6)
    (hinv : invoked cfg s p user = .supervisor r) (hq : supervisee user r = some q) :
    ProcRequest cfg s p user (superviseProcOp s user q) := by
  unfold superviseProcOp
  split
  · exact .suspend hnr hinv hq
  · split
    · next hst => exact .resume hnr hinv hq hst
    · exact .none
  · split
    · next hst =>
      split
      · exact .write hnr hinv hq hst
      · exact .none
    · exact .none
  · exact .none

theorem messageOp_request (ch : Nat) {o : Option Nat} (hnr : (user .t0).toNat = 6)
    (hvia : ∀ q, o = some q → MessageVia s q ch (invoked cfg s p user)) :
    ProcRequest cfg s p user ((o.map (messageOp user)).getD .none) := by
  cases o with
  | none => exact .none
  | some q => exact .message hnr (hvia q rfl)

theorem procOp_request : ProcRequest cfg s p user (procOp cfg s p user) := by
  unfold procOp
  split
  · next hnr =>
    cases hc : invoked cfg s p user with
    | supervisor r =>
      rw [invokeProcOp]
      cases hq : supervisee user r with
      | none => exact .none
      | some q => exact superviseProcOp_request hnr hc hq
    | sender ch g => exact messageOp_request ch hnr fun q hq => by rw [hc]; exact .sender hq
    | server ch g => exact messageOp_request ch hnr fun q hq => by rw [hc]; exact .server hq
    | client ch g => exact messageOp_request ch hnr fun q hq => by rw [hc]; exact .client hq
    | _ => exact .none
  · exact .none

/-- A message is the work of a sender, client or server call on the channel its receiver waits
    on. -/
theorem procOp_deliver {m0 m1 m2 m3 : Word} (h : procOp cfg s p user = .deliver q m0 m1 m2 m3) :
    (user .t0).toNat = 6 ∧ (∃ ch, MessageVia s q ch (invoked cfg s p user)) ∧ m0 = user .a1 ∧
      m1 = user .a2 ∧ m2 = user .a3 ∧ m3 = user .a4 := by
  have hreq : ProcRequest cfg s p user (procOp cfg s p user) := procOp_request
  rw [h] at hreq
  cases hreq with
  | message hnr hvia => exact ⟨hnr, ⟨_, hvia⟩, rfl, rfl, rfl, rfl⟩

/-- The calls that ask for an operation on the capabilities, and what each has checked. -/
inductive CapRequest (cfg : Config) (s : Kernel) (p : Nat) (user : Reg → Word) : CapOp → Prop
  | skip : CapRequest cfg s p user .skip
  | move (hnr : (user .t0).toNat = 2) : CapRequest cfg s p user
      (.move p (slotOf cfg (user .a0)) (slotOf cfg (user .a1)))
  | delete (hnr : (user .t0).toNat = 3) (hl : s.Live (.slot p (slotOf cfg (user .a0)))) :
      CapRequest cfg s p user (.delete p (slotOf cfg (user .a0)))
  | revoke (hnr : (user .t0).toNat = 4) (hl : ¬ s.Live (.slot p (slotOf cfg (user .a0)))) :
      CapRequest cfg s p user (.wipe p (slotOf cfg (user .a0)))
  | derive (hnr : (user .t0).toNat = 5) : CapRequest cfg s p user
      (.derive p (slotOf cfg (user .a0)) (slotOf cfg (user .a1)) ⟨user .a2, user .a3⟩)
  | give {r : Span} {q : Nat} (hnr : (user .t0).toNat = 6)
      (hinv : invoked cfg s p user = .supervisor r) (hq : supervisee user r = some q)
      (hst : (s.procs q).state = procStateSuspended) (hop : (user .a2).toNat = 6) :
      CapRequest cfg s p user
        (.transfer p (slotOf cfg (user .a3)) q (slotOf cfg (user .a4)))
  | take {r : Span} {q : Nat} (hnr : (user .t0).toNat = 6)
      (hinv : invoked cfg s p user = .supervisor r) (hq : supervisee user r = some q)
      (hst : (s.procs q).state = procStateSuspended) (hop : (user .a2).toNat = 7) :
      CapRequest cfg s p user
        (.transfer q (slotOf cfg (user .a3)) p (slotOf cfg (user .a4)))
  | message {q ch : Nat} (hnr : (user .t0).toNat = 6)
      (hvia : MessageVia s q ch (invoked cfg s p user)) (hsrc : (user .a5).toNat < cfg.nCaps)
      (hdest : ((s.procs q).regs .destCidx).toNat < cfg.nCaps) : CapRequest cfg s p user
        (.transfer p (slotOf cfg (user .a5)) q (slotOf cfg ((s.procs q).regs .destCidx)))

/-- A move that does not go through asks for nothing. -/
theorem CapRequest.moveOp {src dst : NodeRef} {op : CapOp} (h : CapRequest cfg s p user op) :
    CapRequest cfg s p user (moveOp s src dst op) := by
  rw [SepKernel.moveOp]
  split
  · exact h
  · exact .skip

theorem superviseCapOp_request {r : Span} (hnr : (user .t0).toNat = 6)
    (hinv : invoked cfg s p user = .supervisor r) (hq : supervisee user r = some q) :
    CapRequest cfg s p user (superviseCapOp cfg s p user q) := by
  unfold superviseCapOp
  split
  · next hst =>
    split
    · next hop => exact (CapRequest.give hnr hinv hq hst hop).moveOp
    · next hop => exact (CapRequest.take hnr hinv hq hst hop).moveOp
    · exact .skip
  · exact .skip

theorem deliverOp_request (ch : Nat) {o : Option Nat} (hnr : (user .t0).toNat = 6)
    (hvia : ∀ q, o = some q → MessageVia s q ch (invoked cfg s p user)) :
    CapRequest cfg s p user ((o.map (deliverOp cfg s p (user .a5))).getD .skip) := by
  cases o with
  | none => exact .skip
  | some q =>
    rw [Option.map_some, Option.getD_some, deliverOp]
    split
    · next h => exact (CapRequest.message hnr (hvia q rfl) h.1 h.2).moveOp
    · exact .skip

theorem capOp_request : CapRequest cfg s p user (capOp cfg s p user) := by
  unfold capOp
  split
  · next hnr => exact (CapRequest.move hnr).moveOp
  · next hnr =>
    split
    · next hl => exact .delete hnr hl
    · exact .skip
  · next hnr =>
    split
    · exact .skip
    · next hl => exact .revoke hnr hl
  · next hnr =>
    rw [deriveOp]
    split
    · exact (CapRequest.derive hnr).moveOp
    · exact .skip
  · next hnr =>
    cases hc : invoked cfg s p user with
    | supervisor r =>
      rw [invokeCapOp]
      cases hq : supervisee user r with
      | none => exact .skip
      | some q => exact superviseCapOp_request hnr hc hq
    | sender ch g => exact deliverOp_request ch hnr fun q hq => by rw [hc]; exact .sender hq
    | server ch g => exact deliverOp_request ch hnr fun q hq => by rw [hc]; exact .server hq
    | client ch g => exact deliverOp_request ch hnr fun q hq => by rw [hc]; exact .client hq
    | _ => exact .skip
  · exact .skip

theorem acquired_state {ch : Nat} {k : Fin 2} (h : acquired s ch k = some q) :
    s.receivers ch k = some q ∧ (s.procs q).state = waitWord ch := by
  unfold acquired at h
  cases hrec : s.receivers ch k with
  | none => simp [hrec] at h
  | some r =>
    rw [hrec] at h
    by_cases hst : (s.procs r).state = waitWord ch
    · simp only [hst, if_true, Option.some.injEq] at h
      subst h
      exact ⟨rfl, hst⟩
    · simp [hst] at h

theorem acquired_of {ch : Nat} {k : Fin 2} (h : s.receivers ch k = some q)
    (hst : (s.procs q).state = waitWord ch) : acquired s ch k = some q := by
  rw [acquired, h]
  exact if_pos hst

theorem MessageVia.state {ch : Nat} {c : Capability} (h : MessageVia s q ch c) :
    (s.procs q).state = waitWord ch := by
  cases h with
  | sender h => exact (acquired_state h).2
  | client h => exact (acquired_state h).2
  | server h => exact (acquired_state h).2

theorem procOp_resume (h : procOp cfg s p user = .resume q) :
    (s.procs q).state = procStateSuspended := by
  have hreq : ProcRequest cfg s p user (procOp cfg s p user) := procOp_request
  rw [h] at hreq
  cases hreq with
  | resume hnr hinv hq hst => exact hst

/-- A process some hart runs goes on running, whatever call another hart makes. -/
theorem apply_running (hq : Running (s.procs q).state) :
    Running ((procOp cfg s p user).apply q (s.procs q)).state := by
  cases h : procOp cfg s p user with
  | none => exact hq
  | suspend q' =>
    simp only [ProcOp.apply]
    split
    · exact Or.inr (suspended_running hq)
    · exact hq
  | resume q' =>
    simp only [ProcOp.apply]
    split
    · next hqq =>
      subst hqq
      rw [procOp_resume h] at hq
      exact absurd hq (by decide)
    · exact hq
  | write q' r x =>
    simp only [ProcOp.apply]
    split <;> exact hq
  | deliver q' m0 m1 m2 m3 =>
    simp only [ProcOp.apply]
    split
    · next hqq =>
      subst hqq
      obtain ⟨-, ⟨ch, hvia⟩, -⟩ := procOp_deliver h
      exact absurd hvia.state hq.ne_waitingOn
    · exact hq

theorem apply_idle {pop : ProcOp} {x : Proc} (hq : Idle x.state) : Idle (pop.apply q x).state := by
  cases pop with
  | none => exact hq
  | suspend q' =>
    simp only [ProcOp.apply]
    split
    · exact Or.inr (Or.inl (suspended_idle hq))
    · exact hq
  | resume q' =>
    simp only [ProcOp.apply]
    split
    · exact Or.inl rfl
    · exact hq
  | write q' r x =>
    simp only [ProcOp.apply]
    split <;> exact hq
  | deliver q' m0 m1 m2 m3 =>
    simp only [ProcOp.apply]
    split
    · exact Or.inl rfl
    · exact hq

/-- What is invoked is valid, or nothing. -/
theorem invoked_known (p : Nat) (user : Reg → Word) (hg : s.Good cfg) :
    (invoked cfg s p user).Known cfg := by
  rw [invoked]
  by_cases hl : s.Live (.slot p (slotOf cfg (user .a0)))
  · rw [Kernel.capAt_of_live hl]
    exact Or.inr (hg.valid _ _ hl)
  · rw [Kernel.capAt_of_dead hl, nullCap_view]
    exact Or.inl rfl

/-- Who goes to sleep does so on an existing channel, by a call on it. -/
theorem restOf_wait {ch : Nat} {a0 : Word} (h : restOf cfg s p user = .wait ch a0) :
    (user .t0).toNat = 6 ∧
      ((∃ g, invoked cfg s p user = .receiver ch g) ∧ a0 = user .a0 ∨
        (∃ g, invoked cfg s p user = .server ch g) ∧ a0 = user .a0 ∨
          (∃ g, invoked cfg s p user = .client ch g) ∧ (acquired s ch 0).isSome ∧
            a0 = errorInterrupted) := by
  unfold restOf at h
  split at h
  · next h6 =>
    refine ⟨h6, ?_⟩
    cases hc : invoked cfg s p user with
    | receiver ch' g =>
      rw [hc] at h
      obtain ⟨rfl, rfl⟩ := Rest.wait.inj h
      exact Or.inl ⟨⟨g, rfl⟩, rfl⟩
    | server ch' g =>
      rw [hc] at h
      obtain ⟨rfl, rfl⟩ := Rest.wait.inj h
      exact Or.inr (Or.inl ⟨⟨g, rfl⟩, rfl⟩)
    | client ch' g =>
      rw [hc, invokeRest] at h
      split at h
      · next hacq =>
        obtain ⟨rfl, rfl⟩ := Rest.wait.inj h
        exact Or.inr (Or.inr ⟨⟨g, rfl⟩, hacq, rfl⟩)
      · cases h
    | _ => rw [hc] at h; cases h
  · cases h
  · cases h

theorem restOf_wait_lt {ch : Nat} {a0 : Word} (hg : s.Good cfg)
    (h : restOf cfg s p user = .wait ch a0) : ch < cfg.nChannels := by
  have hk := invoked_known p user hg
  obtain ⟨-, ⟨⟨g, hc⟩, -⟩ | ⟨⟨g, hc⟩, -⟩ | ⟨⟨g, hc⟩, -⟩⟩ := restOf_wait h
  · exact (hk.resolve_left (by rw [hc]; simp) |> fun h => (hc ▸ h).2)
  · exact (hk.resolve_left (by rw [hc]; simp) |> fun h => (hc ▸ h).2)
  · exact (hk.resolve_left (by rw [hc]; simp) |> fun h => (hc ▸ h).2)

/-! ## The invariant of the machine -/

theorem finish_kernel (out : Outcome) (k : Kernel) : (st.finish h out k).kernel = k := by
  cases out <;> rfl

theorem finish_yielded_current (k : Kernel) (h' : Nat) :
    (st.finish h .yielded k).current h' = if h' = h then none else st.current h' := by
  by_cases hh : h' = h
  · subst hh
    simp [System.finish, System.current]
  · simp [System.finish, System.current, hh]

namespace System.Good

/-- The hart goes on with the process it has. -/
theorem keep {t : System} (hg : st.Good cfg) (hk : t.kernel.Good cfg)
    (hcur : ∀ h, t.current h = st.current h)
    (hrun : ∀ h p, st.current h = some p → Running (t.kernel.procs p).state)
    (hidle : ∀ p, Idle (st.kernel.procs p).state → Idle (t.kernel.procs p).state) :
    t.Good cfg where
  kernel := hk
  current h p hp := by
    rw [hcur] at hp
    exact ⟨(hg.current h p hp).1, hrun h p hp⟩
  unique h h' p hp hp' := hg.unique h h' p (hcur h ▸ hp) (hcur h' ▸ hp')
  idle p hp hnone := hidle p (hg.idle p hp fun h => hcur h ▸ hnone h)

/-- The hart's process leaves it. -/
theorem leave {t : System} {p : Nat} (hg : st.Good cfg) (hp : st.current h = some p)
    (hk : t.kernel.Good cfg)
    (hcur : ∀ h', t.current h' = if h' = h then none else st.current h')
    (hrun : ∀ q, q ≠ p → Running (st.kernel.procs q).state → Running (t.kernel.procs q).state)
    (hself : Idle (t.kernel.procs p).state)
    (hidle : ∀ q, q ≠ p → Idle (st.kernel.procs q).state → Idle (t.kernel.procs q).state) :
    t.Good cfg where
  kernel := hk
  current h' q hq := by
    rw [hcur] at hq
    split at hq
    · cases hq
    · next hne =>
      have hqp : q ≠ p := fun e => hne (hg.unique h' h p (e ▸ hq) hp)
      exact ⟨(hg.current h' q hq).1, hrun q hqp (hg.current h' q hq).2⟩
  unique h1 h2 q h1q h2q := by
    rw [hcur] at h1q h2q
    split at h1q
    · cases h1q
    · split at h2q
      · cases h2q
      · exact hg.unique h1 h2 q h1q h2q
  idle q hq hnone := by
    by_cases hqp : q = p
    · exact hqp ▸ hself
    · refine hidle q hqp (hg.idle q hq fun h' hh => ?_)
      have := hnone h'
      rw [hcur] at this
      split at this
      · next he => exact hqp (Option.some.inj (hh.symm.trans (he ▸ hp)))
      · exact this hh

end System.Good

theorem StepEffect.good (heff : StepEffect cfg st l st') (hg : st.Good cfg) : st'.Good cfg := by
  cases heff with
  | @call h p user out k hcur hrun heff =>
    have hk : k.Good cfg := heff.caps.good hg.kernel
    have hothers : ∀ q, q ≠ p → Running (st.kernel.procs q).state → Running (k.procs q).state :=
      fun q hq hr => heff.others q hq ▸ apply_running hr
    have hidle : ∀ q, q ≠ p → Idle (st.kernel.procs q).state → Idle (k.procs q).state :=
      fun q hq hi => heff.others q hq ▸ apply_idle hi
    have hcaller := heff.caller
    obtain ⟨hpn, hpr⟩ := hg.current h p hcur
    cases hrest : restOf cfg st.kernel p user with
    | ret =>
      rw [hrest] at hcaller
      obtain ⟨⟨code, rfl⟩, hst⟩ := hcaller
      have hself : Running (k.procs p).state := hst ▸ apply_running hpr
      refine hg.keep hk (fun _ => rfl) (fun h' q hq => ?_) fun q hi => ?_
      · by_cases hqp : q = p
        · exact hqp ▸ hself
        · exact hothers q hqp (hg.current h' q hq).2
      · by_cases hqp : q = p
        · subst hqp
          exact absurd hpr hi.not_running
        · exact hidle q hqp hi
    | yield =>
      rw [hrest] at hcaller
      obtain ⟨rfl, hst⟩ := hcaller
      exact hg.leave hcur hk (finish_yielded_current k) hothers
        (by rw [finish_kernel, hst]; exact released_idle hpr) hidle
    | wait ch a0 =>
      rw [hrest] at hcaller
      obtain ⟨rfl, hst, -⟩ := hcaller
      have hch := restOf_wait_lt hg.kernel hrest
      have hlt : (BitVec.ofNat 64 ch).toNat < 2 ^ 16 := by
        have := cfg.nChannels_le
        rw [BitVec.toNat_ofNat, Nat.mod_eq_of_lt (by omega)]
        omega
      exact hg.leave hcur hk (finish_yielded_current k) hothers
        (by rw [finish_kernel, hst]; exact parked_idle hpr hlt) hidle
  | @timer h p user k hcur hown =>
    obtain ⟨hpn, hpr⟩ := hg.current h p hcur
    refine hg.leave hcur ((hown.same.trans (.setState _)).good hg.kernel)
      (finish_yielded_current _) (fun q hq hr => ?_) ?_ fun q hq hi => ?_
    · rw [finish_kernel, Kernel.procs_setState_of_ne _ hq, hown.others q hq]
      exact hr
    · rw [finish_kernel, Kernel.state_setState]
      exact released_idle hpr
    · rw [finish_kernel, Kernel.procs_setState_of_ne _ hq, hown.others q hq]
      exact hi
  | @exception h p user mcause mtval k hcur hown =>
    have hst : ∀ q, (k.procs q).state = (st.kernel.procs q).state := fun q => by
      by_cases hq : q = p
      · exact hq ▸ hown.state
      · rw [hown.others q hq]
    exact hg.keep (hown.same.good hg.kernel) (fun _ => rfl)
      (fun h' q hq => hst q ▸ (hg.current h' q hq).2) fun q hi => (hst q).symm ▸ hi
  | idle => exact hg
  | @dispatch h p mtime hart hcur hp hready hhart =>
    -- a ready process is on no hart
    have hfree : ∀ h', st.current h' ≠ some p := fun h' hh => by
      have := (hg.current h' p hh).2
      rw [hready] at this
      exact absurd this (by decide)
    have hcur' : ∀ h', (⟨st.kernel.setState p procStateRunning,
        Function.update st.harts h hart⟩ : System).current h' =
          if h' = h then some p else st.current h' := fun h' => by
      by_cases hh : h' = h
      · subst hh
        simp [System.current, hhart]
      · simp [System.current, hh]
    exact {
      kernel := SameCaps.good (.setState _) hg.kernel
      current := fun h' q hq => by
        rw [hcur'] at hq
        split at hq
        · obtain rfl := Option.some.inj hq
          exact ⟨hp, by rw [Kernel.state_setState]; exact Or.inl rfl⟩
        · have hqp : q ≠ p := fun e => hfree h' (e ▸ hq)
          exact ⟨(hg.current h' q hq).1, by
            rw [Kernel.procs_setState_of_ne _ hqp]
            exact (hg.current h' q hq).2⟩
      unique := fun h1 h2 q h1q h2q => by
        rw [hcur'] at h1q h2q
        split at h1q <;> split at h2q
        · next e1 e2 => exact e1.trans e2.symm
        · exact absurd (Option.some.inj h1q ▸ h2q) (hfree h2)
        · exact absurd (Option.some.inj h2q ▸ h1q) (hfree h1)
        · exact hg.unique h1 h2 q h1q h2q
      idle := fun q hq hnone => by
        have hqp : q ≠ p := fun e => by
          have := hnone h
          rw [hcur', if_pos rfl] at this
          exact this (e ▸ rfl)
        rw [Kernel.procs_setState_of_ne _ hqp]
        refine hg.idle q hq fun h' hh => ?_
        have := hnone h'
        rw [hcur'] at this
        split at this
        · next e => exact absurd (e ▸ hh) (by rw [hcur]; simp)
        · exact this hh }

theorem step_good (hg : st.Good cfg) (hs : Step cfg st l st') : st'.Good cfg :=
  (step_effect hg hs).good hg

/-! ## The capability side of a step -/

/-- The operation a step asks for. -/
def stepOp (cfg : Config) (st : System) : Label → CapOp
  | .ecall h user => ((st.current h).map fun p => capOp cfg st.kernel p user).getD .skip
  | _ => .skip

theorem StepEffect.caps (heff : StepEffect cfg st l st') :
    CapEffect cfg st.kernel (stepOp cfg st l) st'.kernel := by
  cases heff with
  | @call h p user out k hcur hrun heff =>
    rw [finish_kernel, stepOp, hcur]
    exact heff.caps
  | timer hcur hown => exact ⟨_, _, .refl _, .skip _, hown.same.trans (.setState _)⟩
  | exception hcur hown => exact ⟨_, _, .refl _, .skip _, hown.same⟩
  | idle => exact ⟨_, _, .refl _, .skip _, .refl _⟩
  | dispatch => exact ⟨_, _, .refl _, .skip _, .setState _⟩

theorem step_caps (hg : st.Good cfg) (hs : Step cfg st l st') :
    CapEffect cfg st.kernel (stepOp cfg st l) st'.kernel := (step_effect hg hs).caps

end SepKernel
