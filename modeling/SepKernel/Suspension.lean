import SepKernel.Frame

/-!
# Suspension

A supervisor that has suspended a process has it until it resumes it. The flag that
`proc_supervisor_suspend` sets outlives everything else that can happen to the process, and with
the flag set no round of the scheduler takes it. A process that is suspended already is not touched
by anybody but its supervisors. After boot this is the case of every process but the first.
-/

namespace SepKernel

open Transition (Reachable Run Steps restrict)

variable {cfg : Config} {s : Kernel} {st st' : System} {l : Label} {p q ch : Nat} {user : Reg → Word}
  {pop : ProcOp} {x : Word}

/-- The flag of a process that a supervisor wants stopped. -/
def Flagged (x : Word) : Prop := x &&& procStateSuspended ≠ 0

instance (x : Word) : Decidable (Flagged x) := inferInstanceAs (Decidable (_ ≠ _))

/-- `p` invokes a capability with which it supervises `q`. -/
structure Supervises (cfg : Config) (s : System) (l : Label) (p q : Nat) (user : Reg → Word) :
    Prop where
  calls : Calls s l p user
  invokes : (user .t0).toNat = 6
  holds : ∃ r, invoked cfg s.kernel p user = .supervisor r ∧ supervisee user r = some q

/-- It resumes it. Only a process that is suspended can be; the call fails for any other. -/
def Resumes (cfg : Config) (s : System) (l : Label) (q : Nat) : Prop :=
  (s.kernel.procs q).state = procStateSuspended ∧
    ∃ p user, Supervises cfg s l p q user ∧ (user .a2).toNat = 1

/-! ## The flag -/

theorem flagged_procStateSuspended : Flagged procStateSuspended := by decide

/-- A suspension leaves the flag set, in whatever state. -/
theorem flagged_suspended (x : Word) : Flagged (suspended x) := by
  rw [suspended]
  split
  · decide
  · intro h
    have hbit := congrArg (BitVec.getLsbD · 2) h
    simp [procStateSuspended] at hbit

/-- Releasing a process keeps the flag, and nothing else. -/
theorem Flagged.released (h : Flagged x) : Flagged (x &&& 4) := by
  rw [Flagged, procStateSuspended, BitVec.and_assoc, BitVec.and_self]
  exact h

/-- A flagged process is not quite running: its word is not that of a running one. -/
theorem Flagged.ne_running (h : Flagged x) : x ≠ procStateRunning := by
  rintro rfl
  exact h (by decide)

/-- It is not ready. -/
theorem Flagged.ne_ready (h : Flagged x) : x ≠ procStateReady := by
  rintro rfl
  exact h (by decide)

/-- And it does not wait. -/
theorem Flagged.ne_waitWord (h : Flagged x) : x ≠ waitWord ch := by
  rintro rfl
  refine h ?_
  rw [waitWord, waitingOn_and (by decide)]
  decide

/-- A process with the flag does not fall asleep on a channel. -/
theorem Flagged.parked {w : Word} (h : Flagged x) : Flagged (parked x w) := by
  rw [SepKernel.parked, if_neg h.ne_running]
  exact h.released

/-- What a resumption needs: a supervisor's invocation, with the operation, for a process that is
    suspended. -/
theorem resume_of_procOp (h : procOp cfg s p user = .resume q) : (user .t0).toNat = 6 ∧
    (∃ r, invoked cfg s p user = .supervisor r ∧ supervisee user r = some q) ∧
      (user .a2).toNat = 1 ∧ (s.procs q).state = procStateSuspended := by
  have hreq : ProcRequest cfg s p user (procOp cfg s p user) := procOp_request
  rw [h] at hreq
  cases hreq with
  | @resume r _ hnr hinv hq hst =>
    refine ⟨hnr, ⟨r, hinv, hq⟩, ?_, hst⟩
    -- no other operation of a supervisor comes to this
    simp only [procOp, hnr, hinv, invokeProcOp, hq, Option.map_some, Option.getD_some] at h
    rw [superviseProcOp] at h
    split at h
    · cases h
    · next hop => exact hop
    · cases hreg : Reg.all[(user .a3).toNat]? with
      | none => simp [hreg] at h
      | some x => simp [hreg, hst] at h
    · cases h

/-- Of what calls ask for, only a resumption takes the flag away. -/
theorem flagged_apply (h : ProcRequest cfg s p user pop) (hf : Flagged (s.procs q).state)
    (hno : pop ≠ .resume q) : Flagged (pop.apply q (s.procs q)).state := by
  cases h with
  | none => exact hf
  | @suspend r q' =>
    rw [ProcOp.apply]
    split
    · exact flagged_suspended _
    · exact hf
  | @resume r q' =>
    rw [ProcOp.apply, if_neg fun e => hno (by rw [e])]
    exact hf
  | write =>
    rw [ProcOp.apply]
    split <;> exact hf
  | @message q' ch hnr hvia =>
    rw [messageOp, ProcOp.apply]
    split
    · next he => exact absurd (he ▸ hvia.state) hf.ne_waitWord
    · exact hf

/-- A step that does not resume the process leaves it its flag. -/
theorem step_flagged (hg : st.Good cfg) (hs : Step cfg st l st')
    (hf : Flagged (st.kernel.procs q).state) (hno : ¬ Resumes cfg st l q) :
    Flagged (st'.kernel.procs q).state := by
  cases step_effect hg hs with
  | @call h p user out k hcur hrun heff =>
    have happ : Flagged ((procOp cfg st.kernel p user).apply q (st.kernel.procs q)).state := by
      refine flagged_apply procOp_request hf fun hop => hno ?_
      obtain ⟨hnr, hsup, hop, hst⟩ := resume_of_procOp hop
      exact ⟨hst, p, user, ⟨⟨h, rfl, hcur⟩, hnr, hsup⟩, hop⟩
    rw [finish_kernel]
    by_cases hqp : q = p
    · subst hqp
      have hcaller := heff.caller
      cases hrest : restOf cfg st.kernel q user with
      | ret =>
        rw [hrest] at hcaller
        rw [hcaller.2]
        exact happ
      | yield =>
        rw [hrest] at hcaller
        rw [hcaller.2]
        exact hf.released
      | wait ch a0 =>
        rw [hrest] at hcaller
        rw [hcaller.2.1]
        exact hf.parked
    · rw [heff.others q hqp]
      exact happ
  | @timer h p user k hcur hown =>
    rw [finish_kernel]
    by_cases hqp : q = p
    · rw [hqp, Kernel.state_setState]
      exact (hqp ▸ hf).released
    · rw [Kernel.procs_setState_of_ne _ hqp, hown.others q hqp]
      exact hf
  | @exception h p user mcause mtval k hcur hown =>
    by_cases hqp : q = p
    · subst hqp
      exact hown.state ▸ hf
    · exact hown.others q hqp ▸ hf
  | idle => exact hf
  | @dispatch h p mtime hart hcur hp hready hhart =>
    have hqp : q ≠ p := by
      rintro rfl
      exact hf.ne_ready hready
    rw [Kernel.procs_setState_of_ne _ hqp]
    exact hf

/-- The scheduler does not take it. -/
theorem step_not_taken (hg : st.Good cfg) (hs : Step cfg st l st')
    (hf : Flagged (st.kernel.procs q).state) {h : Nat} (hcur : st'.current h = some q) :
    st.current h = some q := by
  cases step_effect hg hs with
  | call => exact finish_current hcur
  | timer => exact finish_current hcur
  | exception => exact hcur
  | idle => exact hcur
  | @dispatch h' p mtime hart hidle hp hready hhart =>
    by_cases hh : h = h'
    · subst hh
      have hon : some p = some q := by
        rw [← hhart, ← hcur]
        simp [System.current]
      obtain rfl := Option.some.inj hon
      exact absurd hready hf.ne_ready
    · simpa [System.current, hh] using hcur

/-- In every run, a process that a supervisor wants stopped has its flag until a supervisor resumes
    it, and no hart takes it up in the meantime. -/
theorem suspended_until_resumed (hr : Reachable (Booted cfg) (Step cfg) st)
    (hf : Flagged (st.kernel.procs q).state)
    (hs : Steps (restrict (Step cfg) fun s l => ¬ Resumes cfg s l q) st st') :
    Flagged (st'.kernel.procs q).state ∧ ∀ h, st'.current h = some q → st.current h = some q := by
  refine (hs.invariant (I := fun s => s.Good cfg ∧ Flagged (s.kernel.procs q).state ∧
    ∀ h, s.current h = some q → st.current h = some q) (fun s l s' hI hl => ?_)
    ⟨good_of_reachable (fun _ => Booted.root) hr, hf, fun _ h => h⟩).2
  obtain ⟨hg, hf, hon⟩ := hI
  exact ⟨step_good hg hl.1, step_flagged hg hl.1 hf hl.2,
    fun h hcur => hon h (step_not_taken hg hl.1 hf hcur)⟩

/-! ## Nobody but a supervisor -/

/-- A suspended process is on no hart. -/
theorem off_of_suspended (hg : st.Good cfg)
    (hst : (st.kernel.procs q).state = procStateSuspended) : Off st q :=
  off_of_not_running hg (by rw [hst]; decide)

/-- A call that does not supervise a suspended process does not act on it. -/
theorem not_acts_of_suspended (hcall : Calls st l p user) (hq : Off st q)
    (hst : (st.kernel.procs q).state = procStateSuspended)
    (hno : ¬ Supervises cfg st l p q user) : ¬ Acts cfg st.kernel p user q := by
  intro ha
  have hflag : Flagged (st.kernel.procs q).state := hst ▸ flagged_procStateSuspended
  cases ha with
  | self h => exact hcall.ne_of_off hq h
  | supervises hnr hinv hsup => exact hno ⟨hcall, hnr, _, hinv, hsup⟩
  | messages hnr hvia => exact hflag.ne_waitWord hvia.state

/-- A step in which no supervisor has a call for a suspended process leaves all of it as it is. -/
theorem step_frozen (hg : st.Good cfg) (hs : Step cfg st l st')
    (hst : (st.kernel.procs q).state = procStateSuspended)
    (hno : ∀ p user, ¬ Supervises cfg st l p q user) :
    st'.kernel.procs q = st.kernel.procs q ∧ SameSlots st.kernel st'.kernel q := by
  have hoff := off_of_suspended hg hst
  have hact : ∀ p user, Calls st l p user → ¬ Acts cfg st.kernel p user q := fun p user hcall =>
    not_acts_of_suspended hcall hoff hst (hno p user)
  refine ⟨?_, step_sameSlots hg hs fun hreach => ?_⟩
  · cases step_fate hg hs hoff with
    | same h => exact h
    | called hcall h => exact call_sameProc hg hs hcall (hact _ _ hcall)
    | dispatched hready =>
      rw [hst] at hready
      exact absurd hready (by decide)
  · obtain ⟨p, user, hcall, hreq⟩ := stepOp_request hreach
    exact hact p user hcall (hreq.acts hreach)

/-- In every run, a suspended process keeps its registers and its capabilities as long as no
    supervisor has a call for it, and it stays suspended. -/
theorem frozen_while_suspended (hr : Reachable (Booted cfg) (Step cfg) st)
    (hst : (st.kernel.procs q).state = procStateSuspended)
    (hs : Steps (restrict (Step cfg) fun s l => ∀ p user, ¬ Supervises cfg s l p q user) st st') :
    st'.kernel.procs q = st.kernel.procs q ∧ SameSlots st.kernel st'.kernel q ∧ Off st' q := by
  have hI := hs.invariant (I := fun s => s.Good cfg ∧ s.kernel.procs q = st.kernel.procs q ∧
    SameSlots st.kernel s.kernel q) (fun s l s' hI hl => ?_)
    ⟨good_of_reachable (fun _ => Booted.root) hr, rfl, .refl _ _⟩
  · exact ⟨hI.2.1, hI.2.2, off_of_suspended hI.1 (hI.2.1 ▸ hst)⟩
  · obtain ⟨hg, hproc, hslots⟩ := hI
    obtain ⟨hproc', hslots'⟩ := step_frozen hg hl.1 (hproc ▸ hst) hl.2
    exact ⟨step_good hg hl.1, hproc'.trans hproc, hslots.trans hslots'⟩

/-! ## From boot on -/

/-- All processes but the first are suspended, with zeroed registers. -/
theorem Booted.procs (h : Booted cfg st) (hq : q < cfg.nProc) (h0 : q ≠ 0) :
    st.kernel.procs q = ⟨fun _ => 0, BitVec.ofNat 64 q, procStateSuspended⟩ := by
  obtain ⟨rootPayload, k, hboot, rfl⟩ := h
  have hrun : (do procInit cfg rootPayload; schedInit cfg : KernelM Unit).run .zero =
      .ok ((), k) := by
    unfold boot at hboot
    generalize (do procInit cfg rootPayload; schedInit cfg : KernelM Unit).run .zero = r at hboot
    cases r with
    | error e => cases hboot
    | ok r => exact congrArg (fun k => Except.ok ((), k)) (Except.ok.inj hboot)
  obtain ⟨_, s₁, h1, h2⟩ := run_bind_inv hrun
  obtain ⟨procs, hprocs, hprocs'⟩ := procInitProcs_run (List.range cfg.nProc) .zero
  rw [procInit, run_bind_ok hprocs] at h1
  obtain ⟨nodes, -, rfl⟩ := procInitRoot_inv (s := { Kernel.zero with procs := procs })
    (fun _ => rfl) (fun _ => rfl) h1
  obtain ⟨sched, hsched, -⟩ := schedInitRows_run cfg (List.range cfg.nQuantum)
    (((({ Kernel.zero with procs := procs, nodes := nodes } : Kernel).setReg 0 .pc
      rootPayload).setReg 0 .a0 0).setState 0 procStateReady)
  obtain rfl := (Prod.mk.inj (Except.ok.inj (h2.symm.trans hsched))).2
  have hproc : procs q = ⟨fun _ => 0, BitVec.ofNat 64 q, procStateSuspended⟩ := by
    rw [hprocs', if_pos (List.mem_range.mpr hq)]
    rfl
  rw [← hproc]
  simp [System.start, Kernel.setState, Kernel.setReg, Kernel.procs_setProc_of_ne _ h0]

/-- In every run from boot, whatever process but the first a hart runs at its end, one of the steps
    of the run has resumed it. -/
theorem resumed_before_running {st₀ : System} {es : List (System × Label × System)}
    (hboot : Booted cfg st₀) (hrun : Run (Step cfg) st₀ es st) {h : Nat} (h0 : q ≠ 0)
    (hcur : st.current h = some q) : ∃ s l s', (s, l, s') ∈ es ∧ Resumes cfg s l q := by
  have hg : st.Good cfg := good_of_reachable (fun _ => Booted.root) ⟨st₀, hboot, hrun.steps⟩
  have hq := (hg.current h q hcur).1
  have hproc := hboot.procs hq h0
  have hends := hrun.unless (I := fun s => s.Good cfg ∧ Flagged (s.kernel.procs q).state ∧ Off s q)
    (E := fun s l _ => Resumes cfg s l q) (fun s l s' hI hl => ?_) ⟨hboot.root.good, ?_, ?_⟩
  · rcases hends with hI | hresumed
    · -- flagged to the end, and then no hart runs it
      exact absurd hcur (hI.2.2 h)
    · exact hresumed
  · obtain ⟨hg, hf, hoff⟩ := hI
    by_cases hres : Resumes cfg s l q
    · exact Or.inr hres
    · exact Or.inl ⟨step_good hg hl, step_flagged hg hl hf hres,
        fun h' hcur' => hoff h' (step_not_taken hg hl hf hcur')⟩
  · rw [hproc]
    exact flagged_procStateSuspended
  · refine off_of_suspended hboot.root.good ?_
    rw [hproc]

theorem not_resumes_of_timer {h : Nat} : ¬ Resumes cfg st (.timer h user) q := by
  rintro ⟨-, p, user', ⟨⟨h', heq, -⟩, -, -⟩, -⟩
  cases heq

theorem not_resumes_of_schedule {h : Nat} : ¬ Resumes cfg st (.schedule h x) q := by
  rintro ⟨-, p, user', ⟨⟨h', heq, -⟩, -, -⟩, -⟩
  cases heq

/-! ## Process 1 is resumed and suspended again -/

/-- The root process hands process 1 time and resumes it, and a hart takes it up. -/
def virtResumed : System := virtAfter
  [.schedule 1 0,
    .ecall 1 (callRegs 5 6 11 (capMkTime 4 0 64 0).word0 (capMkTime 4 0 64 0).word1 0 0),
    .ecall 1 (callRegs 6 2 1 6 11 0 0), .ecall 1 (callRegs 6 2 1 1 0 0 0), .schedule 4 0]

/-- The root process resumes process 1, which then runs. -/
theorem virtResumed_runs : ∃ es, Run (Step .virt) virtStart es virtResumed ∧
    ∃ s l s', (s, l, s') ∈ es ∧ Resumes .virt s l 1 := by
  obtain ⟨es, hrun⟩ := (after_steps .virt virtStart _).exists_run
  exact ⟨es, hrun, resumed_before_running (h := 4) virtStart_booted hrun (by decide)
    (by decide +kernel)⟩

/-- The root process suspends it, its time ends, and a round of the scheduler comes by. -/
def virtStopping : System := virtResumed.after .virt [.ecall 1 (callRegs 6 2 1 0 0 0 0)]

/-- The timer of hart 4 ends its time. -/
def virtStopped : System := virtStopping.after .virt [.timer 4 (callRegs 0 0 0 0 0 0 0)]

/-- And the hart does not take it up again. -/
def virtLeft : System := virtStopped.after .virt [.schedule 4 0]

theorem virtStopping_reachable : Reachable (Booted .virt) (Step .virt) virtStopping :=
  (virtAfter_reachable _).steps (after_steps _ _ _)

theorem virtLeft_flagged : Flagged (virtLeft.kernel.procs 1).state ∧
    ∀ h, virtLeft.current h = some 1 → virtStopping.current h = some 1 := by
  have hstop : Step .virt virtStopping (.timer 4 (callRegs 0 0 0 0 0 0 0)) virtStopped :=
    after_step (by decide +kernel)
  have hleft : Step .virt virtStopped (.schedule 4 0) virtLeft := after_step (by decide +kernel)
  exact suspended_until_resumed virtStopping_reachable (by decide +kernel)
    (((Steps.refl _).snoc ⟨hstop, not_resumes_of_timer⟩).snoc ⟨hleft, not_resumes_of_schedule⟩)

/-- The root process derives a capability while process 1 is suspended. -/
theorem virtStopped_frozen : ∃ st, Step .virt virtStopped
      (.ecall 1 (callRegs 5 1 12 (capMkChannels 0 8 0).word0 (capMkChannels 0 8 0).word1 0 0)) st ∧
    st.kernel.procs 1 = virtStopped.kernel.procs 1 ∧
      SameSlots virtStopped.kernel st.kernel 1 ∧ Off st 1 := by
  have hstep : Step .virt virtStopped _ (virtStopped.after .virt
      [.ecall 1 (callRegs 5 1 12 (capMkChannels 0 8 0).word0 (capMkChannels 0 8 0).word1 0 0)]) :=
    after_step (by decide +kernel)
  refine ⟨_, hstep, frozen_while_suspended (virtStopping_reachable.steps (after_steps _ _ _))
    (by decide +kernel) ((Steps.refl _).snoc ⟨hstep, ?_⟩)⟩
  rintro p user ⟨⟨h, heq, -⟩, hnr, -⟩
  obtain ⟨-, rfl⟩ := Label.ecall.inj heq
  exact absurd hnr (by decide)

end SepKernel
