import SepKernel.Roots

/-!
# Exceptions of user programs

`src/exception.c`: an exception saves four registers and enters the program's own handler, and an
`mret` of the program is to bring the four back. It is recognised by a constant that is not the
encoding of the instruction, so that an `mret` enters the handler again.
-/

namespace SepKernel

open Transition (Reachable)

variable {cfg : Config} {s : Kernel} {st st₁ st₂ st₃ : System} {p h h' : Nat}
  {user user' regs : Reg → Word} {mcause mtval mepc : Word}

/-- `MRET` as RISC-V encodes it. -/
def mretInstruction : Word := 0x30200073

/-! ## The handler -/

/-- The registers with which a program goes on where it was. -/
def leaveHandler (regs : Reg → Word) : Reg → Word :=
  Function.update (Function.update (Function.update (Function.update regs
    .sp (regs .psp)) .pc (regs .ppc)) .a0 (regs .pa0)) .a1 (regs .pa1)

/-- The registers with which it enters its handler. -/
def enterHandler (regs : Reg → Word) (mcause mtval mepc : Word) : Reg → Word :=
  Function.update (Function.update (Function.update (Function.update (Function.update
    (Function.update (Function.update (Function.update regs
      .ppc mepc) .psp (regs .sp)) .pa0 (regs .a0)) .pa1 (regs .a1))
      .pc (regs .tpc)) .sp (regs .tsp)) .a0 mcause) .a1 mtval

/-- What the handler makes of the registers. -/
def afterException (regs : Reg → Word) (mcause mtval mepc : Word) : Reg → Word :=
  if mcause = illegalInstruction ∧ mtval = mret then leaveHandler regs
  else enterHandler regs mcause mtval mepc

/-- The handler always returns. -/
theorem exceptionHandler_run_eq (s : Kernel) (p : Nat) (mcause mtval mepc : Word) :
    (exceptionHandler p mcause mtval mepc).run s = .ok ((), s.setProc p { s.procs p with
      regs := afterException (s.procs p).regs mcause mtval mepc }) := by
  by_cases hm : mcause = illegalInstruction ∧ mtval = mret
  · have hb : (mcause == illegalInstruction && mtval == mret) = true := by simpa using hm
    rw [exceptionHandler, if_pos hb, afterException, if_pos hm]
    refine Eq.trans (b := .ok ((), _)) rfl ?_
    simp [Kernel.setReg, Kernel.setProc, leaveHandler]
  · have hb : ¬ (mcause == illegalInstruction && mtval == mret) = true := by simpa using hm
    rw [exceptionHandler, if_neg hb, afterException, if_neg hm]
    refine Eq.trans (b := .ok ((), _)) rfl ?_
    simp [Kernel.setReg, Kernel.setProc, enterHandler]

/-- The register file a trap saves. -/
def savedRegs (s : Kernel) (p : Nat) (user : Reg → Word) : Reg → Word :=
  fun r => if r.isUser then user r else (s.procs p).regs r

/-- A step with an exception leaves these registers. -/
theorem step_exception_regs (hcur : st.current h = some p)
    (hs : Step cfg st (.exception h user mcause mtval) st₁) :
    (st₁.kernel.procs p).regs =
      afterException (savedRegs st.kernel p user) mcause mtval (user .pc) := by
  have hrun : (trapException p user mcause mtval).run st.kernel = .ok ((), st.kernel.setProc p
      { st.kernel.procs p with
        regs := afterException (savedRegs st.kernel p user) mcause mtval (user .pc) }) := by
    rw [trapException]
    have hsave : (saveContext p user).run st.kernel = .ok ((), st.kernel.setProc p
        { st.kernel.procs p with regs := savedRegs st.kernel p user }) := rfl
    rw [run_bind_ok hsave, exceptionHandler_run_eq]
    simp [Kernel.setProc]
  rw [Step, step, hcur] at hs
  simp only [Option.map_some, hrun] at hs
  cases hs
  rw [Kernel.procs_setProc_same]

/-! ## The instruction is not recognised -/

/-- An `mret` is not the number that the source takes for one. -/
theorem mret_ne : mretInstruction ≠ mret := by decide

/-! ## Returning from a handler -/

/-- Of the registers at the exception, `pc`, `sp`, `a0` and `a1` are back; the others are as they
    were saved at the `mret`. -/
def Resumed (user saved after : Reg → Word) : Prop :=
  after .pc = user .pc ∧ after .sp = user .sp ∧ after .a0 = user .a0 ∧ after .a1 = user .a1 ∧
    ∀ r, r ≠ .pc → r ≠ .sp → r ≠ .a0 → r ≠ .a1 → after r = saved r

/-- Entering the handler is the same as going on: the handler starts where the exception was, with
    its stack, the cause and the instruction were in `a0` and `a1`, and at the `mret` the four
    registers are those in the frame. -/
structure Coincide (user frame saved : Reg → Word) : Prop where
  pc : saved .tpc = user .pc
  sp : saved .tsp = user .sp
  a0 : user .a0 = illegalInstruction
  a1 : user .a1 = mretInstruction
  ppc : frame .ppc = saved .pc
  psp : frame .psp = saved .sp
  pa0 : frame .pa0 = saved .a0
  pa1 : frame .pa1 = saved .a1

theorem enterHandler_apply (regs : Reg → Word) (mcause mtval mepc : Word) (r : Reg) :
    enterHandler regs mcause mtval mepc r =
      match r with
      | .pc => regs .tpc | .sp => regs .tsp | .a0 => mcause | .a1 => mtval
      | .ppc => mepc | .psp => regs .sp | .pa0 => regs .a0 | .pa1 => regs .a1
      | r => regs r := by
  cases r <;> rfl

/-- Taking an `mret` for a fault resumes the process only if its handler would anyway. -/
theorem resumed_iff {saved : Reg → Word} :
    Resumed user saved (enterHandler saved illegalInstruction mretInstruction (saved .pc)) ↔
      Coincide user saved saved := by
  have hat := enterHandler_apply saved illegalInstruction mretInstruction (saved .pc)
  constructor
  · intro h
    obtain ⟨hpc, hsp, ha0, ha1, hrest⟩ := h
    have hkept : ∀ r : Reg, r ≠ .pc → r ≠ .sp → r ≠ .a0 → r ≠ .a1 → saved r = _ :=
      fun r h1 h2 h3 h4 => (hrest r h1 h2 h3 h4).symm.trans (hat r)
    exact ⟨hpc, hsp, ha0.symm, ha1.symm,
      hkept .ppc (by decide) (by decide) (by decide) (by decide),
      hkept .psp (by decide) (by decide) (by decide) (by decide),
      hkept .pa0 (by decide) (by decide) (by decide) (by decide),
      hkept .pa1 (by decide) (by decide) (by decide) (by decide)⟩
  · intro h
    refine ⟨h.pc, h.sp, h.a0.symm, h.a1.symm, fun r h1 h2 h3 h4 => (hat r).trans ?_⟩
    cases r with
    | pc => exact absurd rfl h1
    | sp => exact absurd rfl h2
    | a0 => exact absurd rfl h3
    | a1 => exact absurd rfl h4
    | ppc => exact h.ppc.symm
    | psp => exact h.psp.symm
    | pa0 => exact h.pa0.symm
    | pa1 => exact h.pa1.symm
    | _ => rfl

theorem Coincide.congr {frame frame' saved : Reg → Word}
    (h : ∀ r ∈ [Reg.ppc, .psp, .pa0, .pa1], frame' r = frame r) :
    Coincide user frame saved ↔ Coincide user frame' saved := by
  have hppc : frame' .ppc = frame .ppc := h .ppc (by simp)
  have hpsp : frame' .psp = frame .psp := h .psp (by simp)
  have hpa0 : frame' .pa0 = frame .pa0 := h .pa0 (by simp)
  have hpa1 : frame' .pa1 = frame .pa1 := h .pa1 (by simp)
  constructor <;> rintro ⟨h1, h2, h3, h4, h5, h6, h7, h8⟩
  · exact ⟨h1, h2, h3, h4, hppc.trans h5, hpsp.trans h6, hpa0.trans h7, hpa1.trans h8⟩
  · exact ⟨h1, h2, h3, h4, hppc.symm.trans h5, hpsp.symm.trans h6, hpa0.symm.trans h7,
      hpa1.symm.trans h8⟩

/-- A process raises an exception, does what it likes but for the frame, and executes an `mret`: it
    goes on where it was just if that is what entering its handler again comes to. -/
theorem mret_resumes_iff (hcur : st.current h = some p)
    (hraise : Step cfg st (.exception h user mcause mtval) st₁)
    (hframe : ∀ r ∈ [Reg.ppc, .psp, .pa0, .pa1],
      (st₂.kernel.procs p).regs r = (st₁.kernel.procs p).regs r)
    (hcur' : st₂.current h' = some p)
    (hmret : Step cfg st₂ (.exception h' user' illegalInstruction mretInstruction) st₃) :
    Resumed user (savedRegs st₂.kernel p user') (st₃.kernel.procs p).regs ↔
      Coincide user (afterException (savedRegs st.kernel p user) mcause mtval (user .pc))
        (savedRegs st₂.kernel p user') := by
  have hpc : savedRegs st₂.kernel p user' .pc = user' .pc := rfl
  have hsame : ∀ r ∈ [Reg.ppc, .psp, .pa0, .pa1], savedRegs st₂.kernel p user' r =
      afterException (savedRegs st.kernel p user) mcause mtval (user .pc) r := by
    intro r hr
    have huser : r.isUser = false := by
      revert r
      decide
    rw [← step_exception_regs hcur hraise, ← hframe r hr, savedRegs, huser]
    rfl
  rw [step_exception_regs hcur' hmret, afterException, if_neg fun hm => mret_ne hm.2, ← hpc,
    resumed_iff, Coincide.congr hsame]

/-! ## The root process returns -/

/-- The root process, interrupted at its second instruction. -/
def virtInterrupted : Reg → Word := Function.update (callRegs 0 0 0 0 0 0 0) .pc 0x80010004

/-- The root process runs on hart 1 and raises an exception, with the cause of a load that is not
    let through. -/
def virtRaises : System := (virtAfter [.schedule 1 0]).after .virt [.exception 1 virtInterrupted 5 0]

/-- And its handler returns. -/
def virtMrets : System := virtRaises.after .virt
  [.exception 1 (callRegs 0 0 0 0 0 0 0) illegalInstruction mretInstruction]

/-- The root process runs on hart 1 and raises the exception. -/
theorem virtRaises_step : Step .virt (virtAfter [.schedule 1 0]) (.exception 1 virtInterrupted 5 0)
    virtRaises := after_step (by decide +kernel)

/-- Its handler returns with an `mret`. -/
theorem virtMrets_step : Step .virt virtRaises
    (.exception 1 (callRegs 0 0 0 0 0 0 0) illegalInstruction mretInstruction) virtMrets :=
  after_step (by decide +kernel)

/-- It is in its handler, not where it was. -/
theorem mret_resumes_virtMrets : ¬ Resumed virtInterrupted
    (savedRegs virtRaises.kernel 0 (callRegs 0 0 0 0 0 0 0)) (virtMrets.kernel.procs 0).regs := by
  have hcur : (virtAfter [.schedule 1 0]).current 1 = some 0 := by decide +kernel
  have hcur' : virtRaises.current 1 = some 0 := by decide +kernel
  have hiff := mret_resumes_iff hcur virtRaises_step (fun _ _ => rfl) hcur' virtMrets_step
  exact fun hres => absurd (hiff.mp hres).a0 (by decide)

/-- An `mret` of its handler does not resume an interrupted program. -/
theorem mret_does_not_resume : ∃ s s₁ s₂ s₃ h p user user' mcause mtval,
    Reachable (Booted .virt) (Step .virt) s ∧ s.current h = some p ∧
      Step .virt s (.exception h user mcause mtval) s₁ ∧
      ¬ (mcause = illegalInstruction ∧ mtval = mretInstruction) ∧
      (∀ r ∈ [Reg.ppc, .psp, .pa0, .pa1],
        (s₂.kernel.procs p).regs r = (s₁.kernel.procs p).regs r) ∧ s₂.current h = some p ∧
      Step .virt s₂ (.exception h user' illegalInstruction mretInstruction) s₃ ∧
      ¬ Resumed user (savedRegs s₂.kernel p user') (s₃.kernel.procs p).regs := by
  have hcur : (virtAfter [.schedule 1 0]).current 1 = some 0 := by decide +kernel
  have hcur' : virtRaises.current 1 = some 0 := by decide +kernel
  have hpc : (virtMrets.kernel.procs 0).regs .pc ≠ virtInterrupted .pc := by decide +kernel
  exact ⟨_, virtRaises, virtRaises, virtMrets, 1, 0, virtInterrupted, _, 5, 0,
    virtAfter_reachable _, hcur, virtRaises_step, by decide, fun _ _ => rfl, hcur', virtMrets_step,
    fun hres => hpc hres.1⟩

end SepKernel
