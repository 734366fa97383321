import SepKernel.Atomicity

/-!
# The machine refines the system

What the harts show, instruction by instruction, is what the system does, in which traps are single
steps. And they can do all of it: from a state in which every hart is in its user code or in the
scheduler, the one that makes the step of the system goes through `trap.S` and the C code alone,
and is back in user code, or in the scheduler, with that step done.
-/

namespace SepKernel
namespace Trap

open Instr
open Transition (Traces)

variable {cfg : Config} {lay : Layout} {m m' : Machine} {st st' : System} {h p : Nat}
  {ls : List SepKernel.Label} {l : SepKernel.Label} {mem : Memory} {user : Reg → Word} {x : Hart}

/-! ## The registers of user code -/

/-- What a trap carries, less the registers that user code does not have. -/
def ofUser (user : Reg → Word) : Reg → Word := context (user .pc) fun g => user g.reg

theorem ofUser_eq {r : Reg} (h : r.isUser = true) : ofUser user r = user r := by
  rcases List.mem_cons.mp (mem_userRegs.mpr h) with rfl | hr
  · rfl
  · obtain ⟨g, -, rfl⟩ := List.mem_map.mp hr
    exact context_reg _ _ g

/-- The label, with the registers that user code has and no others. -/
def clip : SepKernel.Label → SepKernel.Label
  | .ecall h user => .ecall h (ofUser user)
  | .timer h user => .timer h (ofUser user)
  | .exception h user mcause mtval => .exception h (ofUser user) mcause mtval
  | .schedule h mtime => .schedule h mtime

/-- The cause of an exception is neither that of an interrupt nor that of a call. -/
def Proper : SepKernel.Label → Prop
  | .exception _ _ mcause _ => mcause.slt 0 = false ∧ mcause ≠ 8
  | _ => True

theorem savedRegs_ofUser (k : Kernel) (p : Nat) (user : Reg → Word) :
    savedRegs k p (ofUser user) = savedRegs k p user := by
  funext r
  unfold savedRegs
  split
  · next hr => exact ofUser_eq hr
  · rfl

/-- What a trap saves is the user registers, whatever else the label carries. -/
theorem saveContext_ofUser (p : Nat) (user : Reg → Word) :
    SepKernel.saveContext p (ofUser user) = SepKernel.saveContext p user := by
  refine StateT.ext fun k => ?_
  rw [saveContext_run, saveContext_run, Kernel.save, Kernel.save, savedRegs_ofUser]

/-- No more is seen of a trap. -/
theorem step_clip (l : SepKernel.Label) (st : System) : step cfg (clip l) st = step cfg l st := by
  cases l with
  | ecall h user =>
    have hvector : ∀ p mtimecmp, syscallVector cfg p mtimecmp (ofUser user) =
        syscallVector cfg p mtimecmp user := fun _ _ => rfl
    have hpc : ofUser user .pc = user .pc := rfl
    simp only [clip, step, SepKernel.trapSyscall, saveContext_ofUser, hvector, hpc]
  | timer h user => simp only [clip, step, SepKernel.trapTimer, saveContext_ofUser]
  | exception h user mcause mtval =>
    have hpc : ofUser user .pc = user .pc := rfl
    simp only [clip, step, SepKernel.trapException, saveContext_ofUser, hpc]
  | schedule h mtime => rfl

/-! ## One hart alone -/

/-- The steps of the hart `h` that store to no memory but the control blocks. -/
def Alone (cfg : Config) (lay : Layout) (h : Nat) (m : Machine) (o : Option SepKernel.Label)
    (m' : Machine) : Prop := m.Step cfg lay h o m' ∧ KeepsOthers lay m.mem m'.mem

/-- A step of the hart that spares the memory of the others is a run of the hart alone. -/
theorem alone {o : Option SepKernel.Label} (h : m.Step cfg lay p o m')
    (hmem : KeepsOthers lay m.mem m'.mem) : Traces (Alone cfg lay p) m o.toList m' := .single ⟨h, hmem⟩

/-- A step of one hart leaves the others where they are. -/
theorem step_others {h' : Nat} {o : Option SepKernel.Label} (hstep : m.Step cfg lay h o m')
    (hh : h' ≠ h) : m'.harts h' = m.harts h' := by
  cases hstep <;> exact Function.update_of_ne hh _ _

/-- So does a run of it alone. -/
theorem alone_others {h' : Nat} (hrun : Traces (Alone cfg lay h) m ls m') (hh : h' ≠ h) :
    m'.harts h' = m.harts h' := by
  induction hrun with
  | refl => rfl
  | snoc _ ho ih => exact (step_others ho.1 hh).trans ih

/-- The system goes with the hart. -/
theorem Sim.follows (hs : Sim cfg lay m st) (hn : lay.nProc = cfg.nProc)
    (hnum : lay.symbol .numOfSysnr = 11) (hrun : Traces (Alone cfg lay h) m ls m') :
    ∃ st', Transition.exec (stepOk cfg) ls st = some st' ∧ Sim cfg lay m' st' :=
  hrun.simulates (fun _ _ _ _ hs hstep => hs.step hn hnum hstep.1) hs

/-- In silence it stays where it is. -/
theorem Sim.silent (hs : Sim cfg lay m st) (hn : lay.nProc = cfg.nProc)
    (hnum : lay.symbol .numOfSysnr = 11) (hrun : Traces (Alone cfg lay h) m [] m') :
    Sim cfg lay m' st := by
  obtain ⟨st', hst, hs'⟩ := hs.follows hn hnum hrun
  obtain rfl : st = st' := Option.some.inj hst
  exact hs'

/-- An instruction stores to no memory but the block of its process. -/
theorem keepsOthers_store {i : Instr} (hp : p < lay.nProc)
    (htp : Accesses i = true → x.gpr .tp = lay.proc p) (mem : Memory) :
    KeepsOthers lay mem (x.store mem i) := by
  intro a ha
  cases i with
  | sd src r =>
    rw [Hart.store, htp rfl]
    exact Function.update_of_ne (ha p hp r) _ _
  | _ => rfl

/-- The assembly, without an interrupt. -/
theorem Sim.runs {y : Hart} {cell' : Reg → Word} (hs : Sim cfg lay m st) (hn : lay.nProc = cfg.nProc)
    (hp : p < lay.nProc) (hcur : st.current h = some p)
    (hrun : Runs lay (m.harts h) (cells m.mem (lay.proc p)) y cell') :
    ∃ m', Traces (Alone cfg lay h) m [] m' ∧ m'.harts h = y ∧ m'.trapped = m.trapped := by
  unfold Runs at hrun
  generalize hx : (m.harts h, cells m.mem (lay.proc p)) = s at hrun
  generalize hy : (y, cell') = s' at hrun
  induction hrun using Relation.ReflTransGen.head_induction_on generalizing m with
  | refl =>
    obtain ⟨hx, -⟩ := Prod.mk.inj (hx.trans hy.symm)
    exact ⟨m, .refl, hx, rfl⟩
  | head hstep _ ih =>
    obtain ⟨-, i, rest, hc, rfl⟩ := hstep
    subst hx
    have hc : (m.harts h).control = .asm (i :: rest) := hc
    have htp := (hs.phase h p hp hcur).tp hc
    have hinstr : m.Step cfg lay h none
        (m.setHart h ((m.harts h).exec lay m.mem rest i) ((m.harts h).store m.mem i)) := .instr hc
    have hs' := hs.instr hn hc
    have hmem : KeepsOthers lay m.mem (m.setHart h ((m.harts h).exec lay m.mem rest i)
        ((m.harts h).store m.mem i)).mem := keepsOthers_store hp htp m.mem
    generalize hm₁ : m.setHart h ((m.harts h).exec lay m.mem rest i) ((m.harts h).store m.mem i) = m₁
      at hinstr hs' hmem
    obtain ⟨m', hrun, hm', htrapped⟩ := ih hs' (by
      rw [← hm₁, m.setHart_same]
      exact congrArg₂ Prod.mk (exec_eq htp m.mem rest) (cells_store htp m.mem))
    refine ⟨m', (alone hinstr hmem).trans hrun, hm', ?_⟩
    rw [htrapped, ← hm₁]
    rfl

/-- The instruction is followed by the next one. -/
def Ahead : Instr → Bool
  | .branch _ _ | .j _ | .call | .tailSchedYield | .mret => false
  | _ => true

/-- The assembly up to an `mret`, without an interrupt. -/
theorem Sim.resumes (hn : lay.nProc = cfg.nProc) (hp : p < lay.nProc)
    (hcur : st.current h = some p) (l : List Instr) (hl : ∀ i ∈ l, Ahead i = true) (hs : Sim cfg lay m st)
    (hc : (m.harts h).control = .asm (l ++ [.mret])) :
    ∃ m' pc, Traces (Alone cfg lay h) m [] m' ∧ (m'.harts h).control = .user pc := by
  induction l generalizing m with
  | nil =>
    have hmret := ((hs.shows hn).mret h p [] hcur hc).1
    have hstep : m.Step cfg lay h none
        (m.setHart h ((m.harts h).exec lay m.mem [] .mret) ((m.harts h).store m.mem .mret)) := .instr hc
    exact ⟨_, (st.kernel.procs p).regs .pc, alone hstep fun _ _ => rfl, (congrArg Hart.control
      (m.setHart_same h _ _)).trans hmret⟩
  | cons i l ih =>
    obtain ⟨hi, hl⟩ := List.forall_mem_cons.mp hl
    have hstep : m.Step cfg lay h none (m.setHart h ((m.harts h).exec lay m.mem (l ++ [.mret]) i)
        ((m.harts h).store m.mem i)) := .instr hc
    have hmem := keepsOthers_store hp ((hs.phase h p hp hcur).tp hc) m.mem
    obtain ⟨m', pc, hrun, hm'⟩ := ih hl (hs.instr hn hc) (by
      rw [m.setHart_same]
      cases i with
      | branch | j | call | tailSchedYield | mret => cases hi
      | _ => rfl)
    exact ⟨m', pc, (alone hstep hmem).trans hrun, hm'⟩

/-! ## Traps -/

/-- User code has some registers and traps. -/
theorem Sim.traps {pc : Word} (hs : Sim cfg lay m st) (hn : lay.nProc = cfg.nProc)
    (hnum : lay.symbol .numOfSysnr = 11) (hp : p < lay.nProc) (hcur : st.current h = some p)
    (hc : (m.harts h).control = .user pc) (user : Reg → Word) (cause tval : Word) :
    ∃ m' cell, Traces (Alone cfg lay h) m [] m' ∧
      m'.trapped h = some ⟨ofUser user, cause, tval⟩ ∧
      Arrived lay (lay.proc p) ⟨ofUser user, cause, tval⟩ (m'.harts h) (st.kernel.procs p).regs
        cell := by
  -- the registers
  have huser : m.Step cfg lay h none (m.setHart h
      { m.harts h with gpr := fun g => user g.reg, control := .user (user .pc) } m.mem) :=
    .user hc fun _ _ _ _ => rfl
  generalize hm₁ : m.setHart h
    { m.harts h with gpr := fun g => user g.reg, control := .user (user .pc) } m.mem = m₁ at huser
  have hx₁ : m₁.harts h =
      { m.harts h with gpr := fun g => user g.reg, control := .user (user .pc) } := by
    rw [← hm₁, m.setHart_same]
  have hmem₁ : KeepsOthers lay m.mem m₁.mem := fun _ _ => by
    rw [← hm₁]
    rfl
  have hs₁ := hs.silent hn hnum (alone huser hmem₁)
  -- the trap
  have htrap : m₁.Step cfg lay h none { m₁.setHart h
      ((m₁.harts h).takeTrap .user (user .pc) cause tval) m₁.mem with
        trapped := Function.update m₁.trapped h
          (some ⟨context (user .pc) (m₁.harts h).gpr, cause, tval⟩) } := .trap (by rw [hx₁])
  generalize hm₂ : ({ m₁.setHart h ((m₁.harts h).takeTrap .user (user .pc) cause tval) m₁.mem with
    trapped := Function.update m₁.trapped h
      (some ⟨context (user .pc) (m₁.harts h).gpr, cause, tval⟩) } : Machine) = m₂ at htrap
  have hmem₂ : KeepsOthers lay m₁.mem m₂.mem := fun _ _ => by
    rw [← hm₂]
    rfl
  have hs₂ := hs₁.silent hn hnum (alone htrap hmem₂)
  have ht₂ : m₂.trapped h = some ⟨ofUser user, cause, tval⟩ := by
    rw [← hm₂, hx₁]
    exact Function.update_self ..
  -- and the assembly
  have hphase := hs₂.phase h p hp hcur
  rw [ht₂] at hphase
  cases hphase with
  | trapped hok hrun hy =>
    obtain ⟨m', hrun', hm', ht'⟩ := hs₂.runs hn hp hcur hrun
    refine ⟨m', _, ((alone huser hmem₁).trans (alone htrap hmem₂)).trans hrun', ?_, hm' ▸ hy⟩
    rw [ht', ht₂]

/-! ## C functions -/

/-- The hart is in the scheduler or in its user code. -/
def Outside (x : Hart) : Prop := x.control = .start ∨ ∃ pc, x.control = .user pc

/-- The way back, after anything else. -/
theorem Sim.back {l : List Instr} (hs : Sim cfg lay m st) (hn : lay.nProc = cfg.nProc)
    (hnum : lay.symbol .numOfSysnr = 11) (hrun : Traces (Alone cfg lay h) m ls m')
    (hholds : (m'.harts h).holds = some p) (hl : ∀ i ∈ l, Ahead i = true)
    (hc : (m'.harts h).control = .asm (l ++ [.mret])) :
    ∃ m', Traces (Alone cfg lay h) m ls m' ∧ Outside (m'.harts h) := by
  obtain ⟨st', -, hs'⟩ := hs.follows hn hnum hrun
  have hcur : st'.current h = some p := (hs'.holds h).symm.trans hholds
  have hp : p < lay.nProc := by
    rw [hn]
    exact (hs'.good.current h p hcur).1
  obtain ⟨m₂, pc, hrun₂, hm₂⟩ := hs'.resumes hn hp hcur l hl hc
  exact ⟨m₂, hrun.trans_nil hrun₂, Or.inr ⟨pc, hm₂⟩⟩

/-- A hart in user code can go through a system call alone, and show what the system does in one
    step. -/
theorem Sim.ecall_alone {pc : Word} (hs : Sim cfg lay m st) (hn : lay.nProc = cfg.nProc)
    (hnum : lay.symbol .numOfSysnr = 11) (hp : p < lay.nProc) (hcur : st.current h = some p)
    (hc : (m.harts h).control = .user pc) (hstep : SepKernel.Step cfg st (.ecall h user) st') :
    ∃ m', Traces (Alone cfg lay h) m [.ecall h (ofUser user)] m' ∧ Outside (m'.harts h) := by
  obtain ⟨m₁, cell, hrun₁, ht₁, hy⟩ := hs.traps hn hnum hp hcur hc user 8 0
  have hs₁ := hs.silent hn hnum hrun₁
  have hself : ¬ RunsElsewhere st h p := not_runsElsewhere hs.good hcur
  have hneg : (8 : Word).slt 0 = false := by decide
  have hc₁ : (m₁.harts h).control = .handler (sd .a0 .a0 :: trapResumeProc) := by
    cases hy.entry with
    | syscall _ hc => exact hc
    | exception _ hne => exact absurd rfl hne
    | timer hcause => exact absurd (hneg.symm.trans hcause) Bool.false_ne_true
  obtain ⟨q, t, ht, hd⟩ := hs₁.called hn hc₁
  obtain rfl : ⟨ofUser user, 8, 0⟩ = t := Option.some.inj (ht₁.symm.trans ht)
  obtain rfl : p = q := Option.some.inj (hcur.symm.trans hd.current)
  -- the system's call, and the hart's
  rw [SepKernel.Step, ← step_clip, clip, SepKernel.step, hcur, Option.map_some, trapSyscall_eq] at hstep
  cases hv : (syscallVector cfg p (st.harts h).mtimecmp (ofUser user)).run
      (st.kernel.enter p (ofUser user)) with
  | error e =>
    rw [hv] at hstep
    cases hstep
  | ok x =>
    obtain ⟨out, k₂⟩ := x
    obtain ⟨k, hk, -⟩ := (hd.unread.syscallVector hself _ _).ok_left hv
    have hlt : (callIndex (ofUser user .t0)).toNat < 11 := by
      rw [callIndex]
      split
      · assumption
      · decide
    obtain ⟨f, hf⟩ : ∃ f, (syscallEntries cfg p (m₁.mtimecmp h))[
        (callIndex (ofUser user .t0)).toNat]? = some f :=
      ⟨_, List.getElem?_eq_getElem (l := syscallEntries cfg p (m₁.mtimecmp h)) hlt⟩
    have hrun : (f (m₁.harts h).gpr).run (m₁.loaded lay) = .ok (out, k) := by
      rw [entry_eq (hd.ra.symm.trans hd.ra) hf hd.args, hs₁.mtimecmp]
      exact hk
    have hmem := represents_blocks lay m₁.mem k
    have hkeeps := keepsOthers_blocks lay m₁.mem k
    have hholds : (m₁.harts h).holds = some p := (hs₁.holds h).trans hcur
    cases out with
    | ret code =>
      have hcall : m₁.Step cfg lay h (m₁.label h fun t => .ecall h t.user) { (m₁.setHart h
          { m₁.harts h with
            gpr := Function.update (m₁.harts h).gpr .a0 code
            mie := (m₁.harts h).mie
            control := .asm (sd .a0 .a0 :: trapResumeProc) } (lay.blocks m₁.mem k)).untrap h with
              kernel := k } :=
        .syscall hc₁ hp hd.tp hd.ra hf hrun rfl rfl hmem
      rw [Machine.label, ht₁] at hcall
      have hx₂ := m₁.setHart_same h { m₁.harts h with
        gpr := Function.update (m₁.harts h).gpr .a0 code
        mie := (m₁.harts h).mie
        control := .asm (sd .a0 .a0 :: trapResumeProc) } (lay.blocks m₁.mem k)
      exact hs.back hn hnum (hrun₁.trans (alone hcall hkeeps)) ((congrArg Hart.holds hx₂).trans hholds)
        (l := sd .a0 .a0 :: trapResumeProc.dropLast) (by decide) (congrArg Hart.control hx₂)
    | yielded =>
      have hcall : m₁.Step cfg lay h (m₁.label h fun t => .ecall h t.user) { (m₁.setHart h
          { m₁.harts h with
            gpr := (m₁.harts h).gpr
            control := .start
            holds := none } (lay.blocks m₁.mem k)).untrap h with kernel := k } :=
        .yields hc₁ hp hd.tp hd.ra hf hrun hmem
      rw [Machine.label, ht₁] at hcall
      exact ⟨_, hrun₁.trans (alone hcall hkeeps),
        Or.inl (congrArg Hart.control (m₁.setHart_same h _ (lay.blocks m₁.mem k)))⟩

/-- The same through an exception. -/
theorem Sim.exception_alone {pc mcause mtval : Word} (hs : Sim cfg lay m st)
    (hn : lay.nProc = cfg.nProc) (hnum : lay.symbol .numOfSysnr = 11) (hp : p < lay.nProc)
    (hcur : st.current h = some p) (hc : (m.harts h).control = .user pc)
    (hcause : mcause.slt 0 = false) (hne : mcause ≠ 8) :
    ∃ m', Traces (Alone cfg lay h) m [.exception h (ofUser user) mcause mtval] m' ∧
      Outside (m'.harts h) := by
  obtain ⟨m₁, cell, hrun₁, ht₁, hy⟩ := hs.traps hn hnum hp hcur hc user mcause mtval
  have hs₁ := hs.silent hn hnum hrun₁
  have hc₁ : (m₁.harts h).control = .handler [.j .trapResumeProc] := by
    cases hy.entry with
    | syscall he => exact absurd he hne
    | exception _ _ hc => exact hc
    | timer he => exact absurd (hcause.symm.trans he) Bool.false_ne_true
  have hholds : (m₁.harts h).holds = some p := (hs₁.holds h).trans hcur
  obtain ⟨k, hrun⟩ : ∃ k, (exceptionHandler p ((m₁.harts h).gpr .a0) ((m₁.harts h).gpr .a1)
      ((m₁.harts h).gpr .a2)).run (m₁.loaded lay) = .ok ((), k) :=
    ⟨_, exceptionHandler_run_eq _ _ _ _ _⟩
  have hmem := represents_blocks lay m₁.mem k
  have hkeeps := keepsOthers_blocks lay m₁.mem k
  have hcall : m₁.Step cfg lay h (m₁.label h fun t => .exception h t.user t.cause t.tval)
      { (m₁.setHart h { m₁.harts h with
        gpr := (m₁.harts h).gpr, control := .asm [.j .trapResumeProc] }
          (lay.blocks m₁.mem k)).untrap h with kernel := k } :=
    .exception hc₁ hp hy.tp hrun rfl hmem
  rw [Machine.label, ht₁] at hcall
  have hrun₂ := hrun₁.trans (alone hcall hkeeps)
  generalize hm₂ : ({ (m₁.setHart h { m₁.harts h with
    gpr := (m₁.harts h).gpr, control := .asm [.j .trapResumeProc] }
      (lay.blocks m₁.mem k)).untrap h with kernel := k } : Machine) = m₂ at hcall hrun₂
  have hx₂ : m₂.harts h = { m₁.harts h with
      gpr := (m₁.harts h).gpr, control := .asm [.j .trapResumeProc] } := by
    rw [← hm₂]
    exact m₁.setHart_same h _ (lay.blocks m₁.mem k)
  have hjump : m₂.Step cfg lay h none (m₂.setHart h
      ((m₂.harts h).exec lay m₂.mem [] (.j .trapResumeProc))
      ((m₂.harts h).store m₂.mem (.j .trapResumeProc))) := .instr (by rw [hx₂])
  have hx₃ := m₂.setHart_same h ((m₂.harts h).exec lay m₂.mem [] (.j .trapResumeProc))
    ((m₂.harts h).store m₂.mem (.j .trapResumeProc))
  have hholds₃ := (congrArg Hart.holds hx₃).trans
    ((exec_holds ..).trans ((congrArg Hart.holds hx₂).trans hholds))
  exact hs.back hn hnum (hrun₂.trans_nil (alone hjump fun _ _ => rfl)) hholds₃
    (l := trapResumeProc.dropLast) (by decide) (congrArg Hart.control hx₃)

/-- The same through a timer interrupt. -/
theorem Sim.timer_alone {pc : Word} (hs : Sim cfg lay m st)
    (hn : lay.nProc = cfg.nProc) (hnum : lay.symbol .numOfSysnr = 11) (hp : p < lay.nProc)
    (hcur : st.current h = some p) (hc : (m.harts h).control = .user pc) :
    ∃ m', Traces (Alone cfg lay h) m [.timer h (ofUser user)] m' ∧ Outside (m'.harts h) := by
  obtain ⟨m₁, cell, hrun₁, ht₁, hy⟩ := hs.traps hn hnum hp hcur hc user timerCause 0
  have hs₁ := hs.silent hn hnum hrun₁
  have hneg : timerCause.slt 0 = true := by decide
  have hc₁ : (m₁.harts h).control = .yield := by
    cases hy.entry with
    | syscall he => exact absurd he (by decide : timerCause ≠ 8)
    | exception he => exact absurd (hneg.symm.trans he) Bool.noConfusion
    | timer _ hc => exact hc
  have hlost : m₁.lost lay h p = ofUser user := by
    rw [Machine.lost, ht₁]
    rfl
  have hu := hs₁.unread_yield hn hp hcur hc₁
  rw [hlost] at hu
  obtain ⟨k₂, hrun₂, -⟩ := trapTimer_run cfg (ofUser user) (hs.good.current h p hcur).2
  rw [SepKernel.trapTimer, run_bind_ok (saveContext_run st.kernel p (ofUser user))] at hrun₂
  obtain ⟨k, hrun, -⟩ := (hu.schedYield (not_runsElsewhere hs.good hcur)).ok_left hrun₂
  have hmem := represents_blocks lay m₁.mem k
  have hkeeps := keepsOthers_blocks lay m₁.mem k
  have hcall : m₁.Step cfg lay h (some (.timer h (m₁.lost lay h p))) { (m₁.setHart h
      { m₁.harts h with
        gpr := (m₁.harts h).gpr
        control := .start
        holds := none } (lay.blocks m₁.mem k)).untrap h with kernel := k } :=
    .yield hc₁ hp hy.tp hrun hmem
  rw [hlost] at hcall
  exact ⟨_, hrun₁.trans (alone hcall hkeeps),
    Or.inl (congrArg Hart.control (m₁.setHart_same h _ (lay.blocks m₁.mem k)))⟩

/-! ## The scheduler -/

/-- And a waiting hart through a round of the scheduler. -/
theorem Sim.schedule_alone {mtime : Word} (hs : Sim cfg lay m st) (hn : lay.nProc = cfg.nProc)
    (hnum : lay.symbol .numOfSysnr = 11) (hlo : cfg.minHartid ≤ h) (hhi : h ≤ cfg.maxHartid)
    (hcur : st.current h = none) :
    ∃ m', Traces (Alone cfg lay h) m [.schedule h mtime] m' ∧ Outside (m'.harts h) := by
  obtain ⟨hc, hscratch, hmie, htrapped⟩ := hs.off h hcur
  have hagrees := (hs.unread_off hn hcur).schedStartRound cfg h mtime
  rcases schedStartRound_run mtime hs.good.kernel.entries hlo hhi with hnone | ⟨d, hsome, -, hready⟩
  · obtain ⟨k, hrun, -⟩ := hagrees.ok_left hnone
    have hmem := represents_blocks lay m.mem k
    have hround : m.Step cfg lay h (some (.schedule h mtime))
        { m.setHart h { m.harts h with gpr := (m.harts h).gpr } (lay.blocks m.mem k) with
          kernel := k } := .idle hc hlo hhi hrun hmem
    exact ⟨_, alone hround (keepsOthers_blocks lay m.mem k),
      Or.inl ((congrArg Hart.control (m.setHart_same h _ (lay.blocks m.mem k))).trans hc)⟩
  · obtain ⟨k, hrun, hu⟩ := hagrees.ok_left hsome
    have hmem := represents_blocks lay m.mem k
    -- the process was ready, so no other hart runs it
    have hd : ¬ RunsElsewhere st h d.proc := by
      rintro ⟨h', hh, hcur'⟩
      have hrunning := (hs.good.current h' _ hcur').2
      rw [hready] at hrunning
      exact absurd hrunning (by decide)
    obtain ⟨pmp, hpmp⟩ : ∃ pmp, if cfg.memoryProtection then
        (procLoadPmp cfg d.proc).run k = .ok (pmp, k) else pmp = m.pmp h := by
      obtain ⟨pmp, hpmp⟩ := procLoadPmp_run cfg k d.proc
      split
      · exact ⟨pmp, hpmp⟩
      · exact ⟨_, rfl⟩
    have hdispatch : m.Step cfg lay h (some (.schedule h mtime)) { m.setHart h { m.harts h with
        gpr := fun _ => lay.proc d.proc
        control := .asm trapResumeProc
        holds := some d.proc } (lay.blocks m.mem k) with
          kernel := k
          pmp := Function.update m.pmp h pmp
          mtimecmp := Function.update m.mtimecmp h
            (waitAndSetTimeout cfg d.time d.length d.timeout).2 } :=
      .dispatch hc hlo hhi hrun hpmp rfl hmem
    have hx := m.setHart_same h { m.harts h with
      gpr := fun _ => lay.proc d.proc
      control := .asm trapResumeProc
      holds := some d.proc } (lay.blocks m.mem k)
    exact hs.back hn hnum (alone hdispatch (keepsOthers_blocks lay m.mem k)) (congrArg Hart.holds hx)
      (l := trapResumeProc.dropLast) (by decide) (congrArg Hart.control hx)

/-! ## Runs -/

/-- Every hart is in the scheduler or in its user code. -/
structure Between (cfg : Config) (lay : Layout) (m : Machine) (st : System) : Prop where
  sim : Sim cfg lay m st
  outside : ∀ h, Outside (m.harts h)

/-- Between two steps a hart that has a process is in its user code. -/
theorem Between.control (hb : Between cfg lay m st) (hn : lay.nProc = cfg.nProc)
    (hcur : st.current h = some p) : p < lay.nProc ∧ ∃ pc, (m.harts h).control = .user pc := by
  have hp : p < lay.nProc := by
    rw [hn]
    exact (hb.sim.good.current h p hcur).1
  rcases hb.outside h with hc | ⟨pc, hc⟩
  · exact absurd hc (hb.sim.phase h p hp hcur).not_start
  · exact ⟨hp, pc, hc⟩

/-- The steps of all harts that store to no memory but the control blocks. -/
def Sparing (cfg : Config) (lay : Layout) (m : Machine) (o : Option SepKernel.Label)
    (m' : Machine) : Prop := m.Next cfg lay o m' ∧ KeepsOthers lay m.mem m'.mem

/-- A run of steps that store to control blocks only keeps all other memory. -/
theorem sparing_keeps (hrun : Traces (Sparing cfg lay) m ls m') : KeepsOthers lay m.mem m'.mem := by
  induction hrun with
  | refl => exact fun _ _ => rfl
  | snoc _ ho ih => exact ih.trans lay ho.2

/-- One step of the system. -/
theorem Between.step (hb : Between cfg lay m st) (hn : lay.nProc = cfg.nProc)
    (hnum : lay.symbol .numOfSysnr = 11) (hl : Proper l) (hstep : stepOk cfg l st = some st') :
    ∃ m', Traces (Sparing cfg lay) m [clip l] m' ∧ Between cfg lay m' st' := by
  have hstep' := stepOk_eq_some.mp hstep
  -- the hart does it alone
  obtain ⟨h, m', hrun, hm'⟩ : ∃ h m', Traces (Alone cfg lay h) m [clip l] m' ∧
      Outside (m'.harts h) := by
    cases l with
    | ecall h user =>
      obtain ⟨p, hcur, -⟩ := Option.map_eq_some_iff.mp hstep'
      obtain ⟨hp, pc, hc⟩ := hb.control hn hcur
      exact ⟨h, hb.sim.ecall_alone hn hnum hp hcur hc hstep'⟩
    | timer h user =>
      obtain ⟨p, hcur, -⟩ := Option.map_eq_some_iff.mp hstep'
      obtain ⟨hp, pc, hc⟩ := hb.control hn hcur
      exact ⟨h, hb.sim.timer_alone hn hnum hp hcur hc⟩
    | exception h user mcause mtval =>
      obtain ⟨p, hcur, -⟩ := Option.map_eq_some_iff.mp hstep'
      obtain ⟨hp, pc, hc⟩ := hb.control hn hcur
      exact ⟨h, hb.sim.exception_alone hn hnum hp hcur hc hl.1 hl.2⟩
    | schedule h mtime =>
      obtain ⟨hlo, hhi, hcur, -⟩ := step_schedule_cases hb.sim.good hstep'
      exact ⟨h, hb.sim.schedule_alone hn hnum hlo hhi hcur⟩
  -- and the system goes with it
  obtain ⟨st₁, hst₁, hs₁⟩ := hb.sim.follows hn hnum hrun
  have hclip : stepOk cfg (clip l) st = some st' := by
    rw [← hstep]
    unfold stepOk
    rw [step_clip]
  have hst' : Transition.exec (stepOk cfg) [clip l] st = some st' := by
    rw [Transition.exec, hclip]
    rfl
  obtain rfl : st₁ = st' := Option.some.inj (hst₁.symm.trans hst')
  refine ⟨m', hrun.mono fun _ _ _ hstep => ⟨⟨h, hstep.1⟩, hstep.2⟩, hs₁, fun h' => ?_⟩
  by_cases hh : h' = h
  · rw [hh]
    exact hm'
  · rw [alone_others hrun hh]
    exact hb.outside h'

/-- To begin with every hart is between two steps. -/
theorem Machine.Initial.between (h₀ : m.Initial cfg lay) : Between cfg lay m (.start m.kernel) :=
  ⟨h₀.sim, fun h => Or.inl (h₀.harts h).1⟩

/-- Each step of the system is a run of one hart, and at its end all are between two steps again. -/
theorem Between.run (hb : Between cfg lay m st) (hn : lay.nProc = cfg.nProc)
    (hnum : lay.symbol .numOfSysnr = 11) (hls : ∀ l ∈ ls, Proper l)
    (hrun : Transition.exec (stepOk cfg) ls st = some st') :
    ∃ m', Traces (Sparing cfg lay) m (ls.map clip) m' ∧ Between cfg lay m' st' :=
  Traces.realizes (fun _ _ _ _ hl hb hstep => hb.step hn hnum hl hstep) hls hrun hb

/-! ## A run -/

/-- Six control blocks. -/
def virtLayout : Layout where
  symbol
    | .numOfSysnr => 11
    | _ => 0
  nProc := 6
  processes := 0x80008000
  processes_ne := by decide
  fits := by decide

/-- A machine in which `k` is the kernel. -/
def Machine.start (lay : Layout) (k : Kernel) : Machine where
  harts := fun _ => oneHart.harts ()
  mem := lay.blocks (fun _ => 0) k
  kernel := k
  pmp := fun _ => ⟨0, fun _ => 0⟩
  mtimecmp := fun _ => 0
  trapped := fun _ => none

theorem Machine.start_kernel (lay : Layout) (k : Kernel) : (Machine.start lay k).kernel = k := rfl

theorem Machine.start_initial {k : Kernel} (hb : Booted cfg (.start k)) :
    (Machine.start lay k).Initial cfg lay where
  harts := fun _ => ⟨rfl, rfl, rfl, rfl⟩
  booted := hb
  represents := represents_blocks lay _ k
  pmp := fun _ => rfl
  mtimecmp := fun _ => rfl
  trapped := fun _ => rfl

theorem virtStart_eq : SepKernel.System.start virtStart.kernel = virtStart := by
  obtain ⟨rootPayload, k, -, hstart⟩ := virtStart_booted
  rw [hstart]
  rfl

/-- The machine as `init.S` leaves it to the scheduler. -/
def virtMachine : Machine := .start virtLayout virtStart.kernel

theorem virtMachine_kernel : virtMachine.kernel = virtStart.kernel := by
  rw [virtMachine, Machine.start_kernel]

theorem virtMachine_initial : virtMachine.Initial .virt virtLayout :=
  Machine.start_initial (virtStart_eq.symm ▸ virtStart_booted)

/-- The first process starts and asks for its number, and is interrupted. -/
def virtLabels : List SepKernel.Label :=
  [.schedule 1 0, .ecall 1 (callRegs 7 0 0 0 0 0 0), .timer 1 (callRegs 0 5 0 0 0 0 0)]

theorem virtLabels_proper : ∀ l ∈ virtLabels, Proper l := by
  intro l hl
  rcases List.mem_cons.mp hl with rfl | hl
  · trivial
  rcases List.mem_cons.mp hl with rfl | hl
  · trivial
  · obtain rfl := List.mem_singleton.mp hl
    trivial

theorem virtLabels_run : Transition.exec (stepOk .virt) virtLabels (.start virtMachine.kernel) =
    some (virtAfter virtLabels) := by
  have hsome : (Transition.exec (stepOk .virt) virtLabels virtStart).isSome = true := by
    decide +kernel
  obtain ⟨st, hst⟩ := Option.isSome_iff_exists.mp hsome
  rw [virtMachine_kernel, virtStart_eq, virtAfter, System.after, hst]
  rfl

/-! ## The machine and the system -/

/-- Whatever the harts do, in whatever order, down to the single instructions of the assembly and
    their interrupts, where a C function is one step: what they show of it is what the system does in
    which traps are single steps. -/
theorem refines_system {m₀ : Machine} (hn : lay.nProc = cfg.nProc)
    (hnum : lay.symbol .numOfSysnr = 11) (h₀ : m₀.Initial cfg lay)
    (hrun : Traces (Machine.Next cfg lay) m₀ ls m) :
    ∃ st, Transition.exec (stepOk cfg) ls (.start m₀.kernel) = some st ∧ Shows lay m st := by
  have hstep : ∀ m st o m', Sim cfg lay m st → Machine.Next cfg lay m o m' →
      ∃ st', Transition.exec (stepOk cfg) o.toList st = some st' ∧ Sim cfg lay m' st' := by
    intro m st o m' hs hnext
    obtain ⟨h, hnext⟩ := hnext
    exact hs.step hn hnum hnext
  obtain ⟨st, hst, hs⟩ := hrun.simulates hstep h₀.sim
  exact ⟨st, hst, hs.shows hn⟩

/-- The root process is dispatched, calls and is interrupted, instruction by instruction: the system
    does the same in three steps. -/
theorem virtMachine_refines : ∃ m, Traces (Machine.Next .virt virtLayout) virtMachine
    (virtLabels.map clip) m ∧ ∃ st, Transition.exec (stepOk .virt) (virtLabels.map clip)
      (.start virtMachine.kernel) = some st ∧ Shows virtLayout m st := by
  obtain ⟨m, hrun, -⟩ := virtMachine_initial.between.run rfl rfl virtLabels_proper virtLabels_run
  have hrun' := hrun.mono fun _ _ _ hstep => hstep.1
  exact ⟨m, hrun', refines_system rfl rfl virtMachine_initial hrun'⟩

/-- The harts can show all that the system can do, and store to no memory but the control blocks. -/
theorem realizes_system (hn : lay.nProc = cfg.nProc) (hnum : lay.symbol .numOfSysnr = 11)
    (h₀ : m.Initial cfg lay) (hls : ∀ l ∈ ls, Proper l)
    (hrun : Transition.exec (stepOk cfg) ls (.start m.kernel) = some st) :
    ∃ m', Traces (Machine.Next cfg lay) m (ls.map clip) m' ∧ Shows lay m' st ∧
      KeepsOthers lay m.mem m'.mem := by
  obtain ⟨m', hrun', hb⟩ := h₀.between.run hn hnum hls hrun
  exact ⟨m', hrun'.mono fun _ _ _ hstep => hstep.1, hb.sim.shows hn, sparing_keeps hrun'⟩

/-- And the other way round. -/
theorem virtMachine_realizes : ∃ m, Traces (Machine.Next .virt virtLayout) virtMachine
    (virtLabels.map clip) m ∧ Shows virtLayout m (virtAfter virtLabels) ∧
      KeepsOthers virtLayout virtMachine.mem m.mem :=
  realizes_system rfl rfl virtMachine_initial virtLabels_proper virtLabels_run

end Trap
end SepKernel
