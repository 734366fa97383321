import SepKernel.Roots

/-!
# Messages

What the calls of one process do to another while no hart runs it. A message reaches who waits on
the channel, and nobody else; it leaves its receiver ready, so that no second message follows
before the receiver asks for one. Whether a receiver can tell that it got a message is another
matter: what it finds in `a0` after an interrupted wait is the index it waited with.
-/

namespace SepKernel

open Transition (Reachable Run Steps)

variable {cfg : Config} {s : Kernel} {st st' : System} {l : Label} {p q ch ch' : Nat}
  {user : Reg → Word} {x x' : Proc} {a0 : Word}

/-! ## Calls -/

/-- The step is a system call of `p` with these registers. -/
def Calls (s : System) (l : Label) (p : Nat) (user : Reg → Word) : Prop :=
  ∃ h, l = .ecall h user ∧ s.current h = some p

/-- No hart runs `p`. -/
def Off (s : System) (p : Nat) : Prop := ∀ h, s.current h ≠ some p

/-- A process that is not running is on no hart. -/
theorem off_of_not_running (hg : st.Good cfg) (h : ¬ Running (st.kernel.procs p).state) :
    Off st p := fun h' hcur => h (hg.current h' p hcur).2

theorem Calls.ne_of_off (hc : Calls st l p user) (hq : Off st q) : q ≠ p := by
  rintro rfl
  obtain ⟨h, -, hcur⟩ := hc
  exact hq h hcur

/-- The step is a sender, client or server call of `p` that acquires `q` on the channel. -/
def Messages (cfg : Config) (s : System) (l : Label) (p q ch : Nat) (user : Reg → Word) : Prop :=
  Calls s l p user ∧ (user .t0).toNat = 6 ∧
    MessageVia s.kernel q ch (invoked cfg s.kernel p user)

/-- A message has the caller's registers in it, whatever it goes by. -/
theorem procOp_of_via (hnr : (user .t0).toNat = 6) (hvia : MessageVia s q ch (invoked cfg s p user)) :
    procOp cfg s p user = messageOp user q := by
  simp only [procOp, hnr]
  generalize invoked cfg s p user = c at hvia
  cases hvia with
  | sender h => simp only [invokeProcOp, h, Option.map_some, Option.getD_some]
  | client h => simp only [invokeProcOp, h, Option.map_some, Option.getD_some]
  | server h => simp only [invokeProcOp, h, Option.map_some, Option.getD_some]

/-- How a step leaves a process that no hart runs before it. -/
inductive Fate (cfg : Config) (s : System) (l : Label) (s' : System) (q : Nat) : Prop where
  | same (h : s'.kernel.procs q = s.kernel.procs q)
  | called {p : Nat} {user : Reg → Word} (hcall : Calls s l p user)
      (h : s'.kernel.procs q = (procOp cfg s.kernel p user).apply q (s.kernel.procs q))
  | dispatched {h : Nat} (hready : (s.kernel.procs q).state = procStateReady)
      (hon : s'.current h = some q)

/-- What a step can do to a process that no hart runs. -/
theorem step_fate (hg : st.Good cfg) (hs : Step cfg st l st') (hq : Off st q) :
    Fate cfg st l st' q := by
  cases step_effect hg hs with
  | @call h p user out k hcur hrun heff =>
    have hcall : Calls st (.ecall h user) p user := ⟨h, rfl, hcur⟩
    exact .called hcall (by rw [finish_kernel]; exact heff.others q (hcall.ne_of_off hq))
  | @timer h p user k hcur hown =>
    have hqp : q ≠ p := fun e => hq h (e ▸ hcur)
    refine .same ?_
    rw [finish_kernel, Kernel.procs_setState_of_ne _ hqp]
    exact hown.others q hqp
  | @exception h p user mcause mtval k hcur hown =>
    exact .same (hown.others q fun e => hq h (e ▸ hcur))
  | idle => exact .same rfl
  | @dispatch h p mtime hart hcur hp hready hhart =>
    by_cases hqp : q = p
    · subst hqp
      exact .dispatched (h := h) hready (by simpa [System.current] using hhart)
    · exact .same (Kernel.procs_setState_of_ne _ hqp)

/-- A message is written to `q`, which waits on the channel, and leaves it ready. -/
theorem message_written (hg : st.Good cfg) (hs : Step cfg st l st')
    (hm : Messages cfg st l p q ch user) :
    (st.kernel.procs q).state = waitWord ch ∧ st'.kernel.procs q = { st.kernel.procs q with
      regs := deliveredRegs (st.kernel.procs q).regs (user .a1) (user .a2) (user .a3) (user .a4)
      state := procStateReady } := by
  obtain ⟨⟨h, rfl, hcur⟩, hnr, hvia⟩ := hm
  have hwait := hvia.state
  have hqp : q ≠ p := by
    rintro rfl
    exact absurd hwait (hg.current h q hcur).2.ne_waitingOn
  refine ⟨hwait, ?_⟩
  cases step_effect hg hs with
  | call hcur' hrun heff =>
    obtain rfl := Option.some.inj (hcur.symm.trans hcur')
    rw [finish_kernel, heff.others q hqp, procOp_of_via hnr hvia]
    exact if_pos rfl

/-- A waiting process waits on one channel. -/
theorem waitWord_inj (h : ch < cfg.nChannels) (h' : ch' < cfg.nChannels)
    (heq : waitWord ch = waitWord ch') : ch = ch' := by
  have hle := cfg.nChannels_le
  have hlt : ∀ {c : Nat}, c < cfg.nChannels → (BitVec.ofNat 64 c).toNat = c := fun hc => by
    rw [BitVec.toNat_ofNat, Nat.mod_eq_of_lt (by omega)]
  have := waitingOn_injective (by rw [hlt h]; omega) (by rw [hlt h']; omega) heq
  rw [← hlt h, this, hlt h']

theorem finish_current {out : Outcome} {k : Kernel} {h h' : Nat}
    (hcur : (st.finish h out k).current h' = some q) : st.current h' = some q := by
  cases out with
  | ret code => exact hcur
  | yielded =>
    rw [finish_yielded_current] at hcur
    split at hcur
    · cases hcur
    · exact hcur

/-- A process that a hart runs after a step and none ran before has been dispatched. -/
theorem step_dispatches {h : Nat} (hg : st.Good cfg) (hs : Step cfg st l st') (hq : Off st q)
    (hon : st'.current h = some q) :
    st'.kernel.procs q = { st.kernel.procs q with state := procStateRunning } := by
  cases step_effect hg hs with
  | call hcur hrun heff => exact absurd (finish_current hon) (hq h)
  | timer hcur hown => exact absurd (finish_current hon) (hq h)
  | exception hcur hown => exact absurd hon (hq h)
  | idle => exact absurd hon (hq h)
  | @dispatch h' p mtime hart hcur hp hready hhart =>
    by_cases hh : h = h'
    · subst hh
      have : some p = some q := by
        rw [← hhart, ← hon]
        simp [System.current]
      obtain rfl := Option.some.inj this
      exact Kernel.procs_setState_same _
    · refine absurd ?_ (hq h)
      rw [← hon]
      simp [System.current, hh]

/-! ## Waiting -/

/-- The channel of a call that acquires or waits exists. -/
theorem MessageVia.lt (hg : s.Good cfg) (hvia : MessageVia s q ch (invoked cfg s p user)) :
    ch < cfg.nChannels := by
  have hk := invoked_known p user hg
  generalize invoked cfg s p user = c at hvia hk
  cases hvia with
  | sender => exact (hk.resolve_left (by simp)).2
  | client => exact (hk.resolve_left (by simp)).2
  | server => exact (hk.resolve_left (by simp)).2

/-- Asleep on the channel, or interrupted: suspended, or resumed since. -/
def Asleep (s : Kernel) (p ch : Nat) : Prop :=
  (s.procs p).state = waitWord ch ∨ (s.procs p).state = procStateSuspended ∨
    (s.procs p).state = procStateReady

/-- What a call that waits leaves. -/
theorem step_wait (hg : st.Good cfg) (hs : Step cfg st l st') (hcall : Calls st l p user)
    (hwait : restOf cfg st.kernel p user = .wait ch a0) :
    Off st' p ∧ Asleep st'.kernel p ch ∧ (st'.kernel.procs p).regs .a0 = a0 := by
  obtain ⟨h, rfl, hcur⟩ := hcall
  obtain ⟨-, hrun⟩ := hg.current h p hcur
  cases step_effect hg hs with
  | call hcur' _ heff =>
    obtain rfl := Option.some.inj (hcur.symm.trans hcur')
    have hcaller := heff.caller
    rw [hwait] at hcaller
    obtain ⟨rfl, hst, ha0⟩ := hcaller
    refine ⟨fun h' hon => ?_, ?_, by rw [finish_kernel, ha0]⟩
    · rw [finish_yielded_current] at hon
      split at hon
      · cases hon
      · next hne => exact hne (hg.unique h' h p hon hcur)
    · rw [Asleep, finish_kernel, hst]
      rcases hrun with h | h
      · exact Or.inl (by rw [h]; rfl)
      · exact Or.inr (Or.inl (by rw [h, parked, if_neg (by decide)]; rfl))

/-- In the step no supervisor writes the process's registers, and no hart takes it up. -/
def Undisturbed (cfg : Config) (p : Nat) (s : System) (l : Label) (s' : System) : Prop :=
  Step cfg s l s' ∧ Off s' p ∧
    ∀ q user r x, Calls s l q user → procOp cfg s.kernel q user ≠ .write p r x

/-- What an interrupted wait keeps. -/
structure Interrupted (cfg : Config) (p ch : Nat) (s : System) : Prop where
  good : s.Good cfg
  off : Off s p
  asleep : Asleep s.kernel p ch
  code : (s.kernel.procs p).regs .a0 ≠ errorOk

theorem suspended_ne_waitWord : procStateSuspended ≠ waitWord ch :=
  (waitingOn_ne (by decide)).symm

theorem ready_ne_waitWord : procStateReady ≠ waitWord ch := (waitingOn_ne (by decide)).symm

theorem Asleep.of_waitWord (h : Asleep s p ch) (hst : (s.procs p).state = waitWord ch') :
    waitWord ch = waitWord ch' := by
  rcases h with h | h | h
  · exact h.symm.trans hst
  · exact absurd (h.symm.trans hst) suspended_ne_waitWord
  · exact absurd (h.symm.trans hst) ready_ne_waitWord

/-- A suspension ends the wait. -/
theorem Asleep.suspended (h : Asleep s p ch) (hch : ch < cfg.nChannels) :
    suspended (s.procs p).state = procStateSuspended := by
  have hle := cfg.nChannels_le
  refine suspended_idle ?_
  rcases h with h | h | h
  · exact Or.inr (Or.inr ⟨_, by rw [BitVec.toNat_ofNat, Nat.mod_eq_of_lt (by omega)]; omega, h⟩)
  · exact Or.inr (Or.inl h)
  · exact Or.inl h

/-- A wait goes on, or is interrupted and still looks so, until there is a message. -/
theorem Interrupted.step (hI : Interrupted cfg p ch st) (hch : ch < cfg.nChannels)
    (hs : Undisturbed cfg p st l st') :
    Interrupted cfg p ch st' ∨ ∃ q m, Messages cfg st l q p ch m := by
  obtain ⟨hg, hoff, hasleep, hcode⟩ := hI
  obtain ⟨hs, hoff', hnowrite⟩ := hs
  have hg' := step_good hg hs
  cases step_fate hg hs hoff with
  | same h => exact Or.inl ⟨hg', hoff', by rwa [Asleep, h], by rwa [h]⟩
  | dispatched hready hon => exact absurd hon (hoff' _)
  | @called q user hcall h =>
    cases hop : procOp cfg st.kernel q user with
    | none =>
      rw [hop] at h
      exact Or.inl ⟨hg', hoff', by rwa [Asleep, h], by rwa [h]⟩
    | suspend q' =>
      rw [hop, ProcOp.apply] at h
      split at h
      · refine Or.inl ⟨hg', hoff', Or.inr (Or.inl ?_), by rwa [h]⟩
        rw [h]
        exact hasleep.suspended hch
      · exact Or.inl ⟨hg', hoff', by rwa [Asleep, h], by rwa [h]⟩
    | resume q' =>
      rw [hop, ProcOp.apply] at h
      split at h
      · exact Or.inl ⟨hg', hoff', Or.inr (Or.inr (by rw [h])), by rwa [h]⟩
      · exact Or.inl ⟨hg', hoff', by rwa [Asleep, h], by rwa [h]⟩
    | write q' r x =>
      -- a supervisor may write the code, but not in an undisturbed run
      have hne : p ≠ q' := by
        rintro rfl
        exact hnowrite q user r x hcall hop
      rw [hop, ProcOp.apply, if_neg hne] at h
      exact Or.inl ⟨hg', hoff', by rwa [Asleep, h], by rwa [h]⟩
    | deliver q' m0 m1 m2 m3 =>
      by_cases hne : p = q'
      · subst hne
        -- whoever sends to a sleeper uses the channel it sleeps on
        obtain ⟨hnr, ⟨ch', hvia⟩, -⟩ := procOp_deliver hop
        obtain rfl : ch = ch' := waitWord_inj hch (hvia.lt hg.kernel)
          (hasleep.of_waitWord hvia.state)
        exact Or.inr ⟨q, user, hcall, hnr, hvia⟩
      · rw [hop, ProcOp.apply, if_neg hne] at h
        exact Or.inl ⟨hg', hoff', by rwa [Asleep, h], by rwa [h]⟩

/-- A message on the channel is written to `p`. -/
def Written (cfg : Config) (p ch : Nat) (s : System) (l : Label) (s' : System) : Prop :=
  ∃ q m, Messages cfg s l q p ch m ∧ (s'.kernel.procs p).regs =
    deliveredRegs (s.kernel.procs p).regs (m .a1) (m .a2) (m .a3) (m .a4)

/-- What ends an interrupted wait but a supervisor's write is a message, in the registers too. -/
theorem Interrupted.written (hI : Interrupted cfg p ch st) (hch : ch < cfg.nChannels)
    (hs : Undisturbed cfg p st l st') : Interrupted cfg p ch st' ∨ Written cfg p ch st l st' := by
  rcases hI.step hch hs with hI' | ⟨q, m, hm⟩
  · exact Or.inl hI'
  · exact Or.inr ⟨q, m, hm, congrArg Proc.regs (message_written hI.good hs.1 hm).2⟩

/-- A process that waited with an index that is not zero, or as a client, and finds the code of
    success when it is dispatched again, has received a message on its channel: one of the steps
    since its call has written it. -/
theorem wait_reports_message {s₀ s t t' : System} {l₀ : Label} {es : List (System × Label × System)}
    {h : Nat}
    (hr : Reachable (Booted cfg) (Step cfg) s₀) (hs : Step cfg s₀ l₀ s)
    (hcall : Calls s₀ l₀ p user) (hwait : restOf cfg s₀.kernel p user = .wait ch a0)
    (hindex : user .a0 ≠ 0 ∨ ∃ g, invoked cfg s₀.kernel p user = .client ch g)
    (hrun : Run (Undisturbed cfg p) s es t) (hl : Step cfg t l t') (hon : t'.current h = some p)
    (hok : (t'.kernel.procs p).regs .a0 = errorOk) :
    ∃ u l₁ u', (u, l₁, u') ∈ es ∧ Written cfg p ch u l₁ u' := by
  have hg₀ : s₀.Good cfg := good_of_reachable (fun _ => Booted.root) hr
  obtain ⟨hoff, hasleep, ha0⟩ := step_wait hg₀ hs hcall hwait
  have hcode : a0 ≠ errorOk := by
    obtain ⟨-, ⟨⟨g, hc⟩, rfl⟩ | ⟨⟨g, hc⟩, rfl⟩ | ⟨-, -, rfl⟩⟩ := restOf_wait hwait
    · exact hindex.resolve_right fun ⟨g', hc'⟩ => by rw [hc] at hc'; cases hc'
    · exact hindex.resolve_right fun ⟨g', hc'⟩ => by rw [hc] at hc'; cases hc'
    · decide
  have hI : Interrupted cfg p ch s := ⟨step_good hg₀ hs, hoff, hasleep, by rwa [ha0]⟩
  have hlt := restOf_wait_lt hg₀.kernel hwait
  rcases hrun.unless (fun _ _ _ hI hl => hI.written hlt hl) hI with hI' | hwritten
  · -- interrupted to the end, which the code would tell
    refine absurd ?_ hI'.code
    rw [← hok, step_dispatches hI'.good hl hI'.off hon]
  · exact hwritten

/-- A call that does not write to the process, and does not run it, leaves it undisturbed. -/
theorem undisturbed_of {h : Nat} (hg : st.Good cfg) (hs : Step cfg st (.ecall h user) st')
    (hcur : st.current h = some q) (hop : ∀ r x, procOp cfg st.kernel q user ≠ .write p r x)
    (hrun : ¬ Running (st'.kernel.procs p).state) : Undisturbed cfg p st (.ecall h user) st' := by
  refine ⟨hs, off_of_not_running (step_good hg hs) hrun, ?_⟩
  rintro q' user' r x ⟨h', hl, hcur'⟩
  obtain ⟨rfl, rfl⟩ := Label.ecall.inj hl
  obtain rfl := Option.some.inj (hcur.symm.trans hcur')
  exact hop r x

/-- `Undisturbed`, and without a message on the channel either. -/
def Silent (cfg : Config) (p ch : Nat) (s : System) (l : Label) (s' : System) : Prop :=
  Undisturbed cfg p s l s' ∧ ∀ q m, ¬ Messages cfg s l q p ch m

/-- A suspension and a resumption are no messages. -/
theorem silent_of {h : Nat} (hg : st.Good cfg) (hs : Step cfg st (.ecall h user) st')
    (hcur : st.current h = some q)
    (hop : procOp cfg st.kernel q user = .suspend p ∨ procOp cfg st.kernel q user = .resume p)
    (hrun : ¬ Running (st'.kernel.procs p).state) : Silent cfg p ch st (.ecall h user) st' := by
  refine ⟨undisturbed_of hg hs hcur (fun r x he => ?_) hrun, ?_⟩
  · rcases hop with hop | hop <;> rw [hop] at he <;> cases he
  · rintro q' m ⟨⟨h', hl, hcur'⟩, hnr, hvia⟩
    obtain ⟨rfl, rfl⟩ := Label.ecall.inj hl
    obtain rfl := Option.some.inj (hcur.symm.trans hcur')
    rw [procOp_of_via hnr hvia] at hop
    rcases hop with hop | hop <;> cases hop

/-! ## Two processes -/

/-- The root process derives `c` from its channels and `c'` from that, gives process 1 one of the
    two (from slot 10 or 11) and the time on hart 2, and starts it. -/
def virtStartsOther (c c' : Cap) (given : Word) : List Label :=
  [.schedule 1 0,
   .ecall 1 (callRegs 5 1 10 c.word0 c.word1 0 0),
   .ecall 1 (callRegs 5 10 11 c'.word0 c'.word1 0 0),
   .ecall 1 (callRegs 6 2 1 6 given 0 0),
   .ecall 1 (callRegs 6 2 1 6 4 1 0),
   .ecall 1 (callRegs 6 2 1 1 0 0 0),
   .schedule 2 0]

/-- The root process has the receiver; it waits with index 10; process 1 sends. -/
def virtSender : System := virtAfter (virtStartsOther (capMkReceiver 0 1) (capMkSender 0 1) 11)

/-- And it waits. -/
def virtWaits : System := virtSender.after .virt [.ecall 1 (callRegs 6 10 0 0 0 0 0)]

/-- Process 1 sends 7, 8, 9 and 10, and no capability. -/
def virtSends : System := virtWaits.after .virt [.ecall 2 (callRegs 6 0 7 8 9 10 64)]

/-- When the root process is dispatched, it has got a message: the only step since is process 1's
    call. -/
theorem wait_reports_message_virtSends :
    Written .virt 0 0 virtWaits (.ecall 2 (callRegs 6 0 7 8 9 10 64)) virtSends := by
  have hr : Reachable (Booted .virt) (Step .virt) virtSender := virtAfter_reachable _
  obtain ⟨hwaitOk, hcur, hrest⟩ :
      (stepOk .virt (.ecall 1 (callRegs 6 10 0 0 0 0 0)) virtSender).isSome = true ∧
      virtSender.current 1 = some 0 ∧
      restOf .virt virtSender.kernel 0 (callRegs 6 10 0 0 0 0 0) = .wait 0 10 := by
    decide +kernel
  have hwait : Step .virt virtSender (.ecall 1 (callRegs 6 10 0 0 0 0 0)) virtWaits :=
    after_step hwaitOk
  have hg : virtWaits.Good .virt := good_of_reachable (fun _ => Booted.root) (hr.step hwait)
  -- process 1 sends, and the root process is no longer running
  obtain ⟨hsendOk, hsender, hop, hoff⟩ :
      (stepOk .virt (.ecall 2 (callRegs 6 0 7 8 9 10 64)) virtWaits).isSome = true ∧
      virtWaits.current 2 = some 1 ∧
      procOp .virt virtWaits.kernel 1 (callRegs 6 0 7 8 9 10 64) = .deliver 0 7 8 9 10 ∧
      ¬ Running (virtSends.kernel.procs 0).state := by
    decide +kernel
  have hsend : Undisturbed .virt 0 virtWaits (.ecall 2 (callRegs 6 0 7 8 9 10 64))
      virtSends := by
    refine undisturbed_of (q := 1) hg (after_step hsendOk) hsender (fun r x he => ?_) hoff
    rw [hop] at he
    cases he
  obtain ⟨hdispatch, hon, hok⟩ : (stepOk .virt (.schedule 1 0) virtSends).isSome = true ∧
      (virtSends.after .virt [.schedule 1 0]).current 1 = some 0 ∧
      ((virtSends.after .virt [.schedule 1 0]).kernel.procs 0).regs .a0 = errorOk := by
    decide +kernel
  obtain ⟨u, l₁, u', hmem, hwritten⟩ := wait_reports_message hr hwait ⟨1, rfl, hcur⟩ hrest
    (Or.inl (by decide)) (Run.nil.snoc hsend) (after_step hdispatch) hon hok
  simp only [List.nil_append, List.mem_singleton, Prod.mk.injEq] at hmem
  rwa [hmem.1, hmem.2.1, hmem.2.2] at hwritten

/-- Process 1 has the receiver, in its slot 0; it waits with index 0; the root process suspends it
    and resumes it. -/
def virtReceiver : System := virtAfter (virtStartsOther (capMkReceiver 0 1) (capMkSender 0 1) 10)

/-- And it waits. -/
def virtWaitsZero : System := virtReceiver.after .virt [.ecall 2 (callRegs 6 0 0 0 0 0 0)]

/-- The wait is interrupted. -/
def virtSuspends : System := virtWaitsZero.after .virt [.ecall 1 (callRegs 6 2 1 0 0 0 0)]

/-- And nothing has been sent. -/
def virtResumes : System := virtSuspends.after .virt [.ecall 1 (callRegs 6 2 1 1 0 0 0)]

/-- When process 1 is dispatched, it finds the code of success, with no message on the channel. -/
theorem interrupted_wait_reports_success : ∃ s₀ l₀ s t l t' user,
    Reachable (Booted .virt) (Step .virt) s₀ ∧ Step .virt s₀ l₀ s ∧ Calls s₀ l₀ 1 user ∧
      restOf .virt s₀.kernel 1 user = .wait 0 (user .a0) ∧ Steps (Silent .virt 1 0) s t ∧
        Step .virt t l t' ∧ t'.current 2 = some 1 ∧ (t'.kernel.procs 1).regs .a0 = errorOk := by
  have hr : Reachable (Booted .virt) (Step .virt) virtReceiver := virtAfter_reachable _
  obtain ⟨hwaitOk, hcur, hrest⟩ :
      (stepOk .virt (.ecall 2 (callRegs 6 0 0 0 0 0 0)) virtReceiver).isSome = true ∧
      virtReceiver.current 2 = some 1 ∧
      restOf .virt virtReceiver.kernel 1 (callRegs 6 0 0 0 0 0 0) = .wait 0 0 := by
    decide +kernel
  have hwait : Step .virt virtReceiver (.ecall 2 (callRegs 6 0 0 0 0 0 0))
      virtWaitsZero := after_step hwaitOk
  have hg : virtWaitsZero.Good .virt :=
    good_of_reachable (fun _ => Booted.root) (hr.step hwait)
  obtain ⟨hsuspendOk, hroot, hop, hoff⟩ :
      (stepOk .virt (.ecall 1 (callRegs 6 2 1 0 0 0 0)) virtWaitsZero).isSome = true ∧
      virtWaitsZero.current 1 = some 0 ∧
      procOp .virt virtWaitsZero.kernel 0 (callRegs 6 2 1 0 0 0 0) = .suspend 1 ∧
      ¬ Running (virtSuspends.kernel.procs 1).state := by
    decide +kernel
  have hsuspend : Silent .virt 1 0 virtWaitsZero (.ecall 1 (callRegs 6 2 1 0 0 0 0))
      virtSuspends :=
    silent_of hg (after_step hsuspendOk) hroot (Or.inl hop) hoff
  obtain ⟨hresumeOk, hroot', hop', hoff'⟩ :
      (stepOk .virt (.ecall 1 (callRegs 6 2 1 1 0 0 0)) virtSuspends).isSome = true ∧
      virtSuspends.current 1 = some 0 ∧
      procOp .virt virtSuspends.kernel 0 (callRegs 6 2 1 1 0 0 0) = .resume 1 ∧
      ¬ Running (virtResumes.kernel.procs 1).state := by
    decide +kernel
  have hresume : Silent .virt 1 0 virtSuspends (.ecall 1 (callRegs 6 2 1 1 0 0 0))
      virtResumes :=
    silent_of (step_good hg hsuspend.1.1) (after_step hresumeOk) hroot' (Or.inr hop') hoff'
  obtain ⟨hdispatch, hon, hok⟩ : (stepOk .virt (.schedule 2 0) virtResumes).isSome = true ∧
      (virtResumes.after .virt [.schedule 2 0]).current 2 = some 1 ∧
      ((virtResumes.after .virt [.schedule 2 0]).kernel.procs 1).regs .a0 = errorOk := by
    decide +kernel
  exact ⟨virtReceiver, _, virtWaitsZero, virtResumes, .schedule 2 0,
    virtResumes.after .virt [.schedule 2 0], _, hr, hwait, ⟨2, rfl, hcur⟩, hrest,
    ((Steps.refl _).snoc hsuspend).snoc hresume, after_step hdispatch, hon, hok⟩

end SepKernel
