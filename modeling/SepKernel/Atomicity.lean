import SepKernel.Lib.Traces
import SepKernel.Phases
import SepKernel.Rounds

/-!
# A trap is one step

The system takes a trap for one step, from the user code and back to it or to the scheduler. On the
machine the harts go through `trap.S` one instruction at a time, at any speed against each other,
and are interrupted on their way back to user code. Every step of theirs goes with the system: a call
and an exception happen when their C function does, and an interrupt when its process is released.
An interrupt before what a call returned is stored is for the system one of user code, which has
found in `a0` what the call returned and has put there what the call left in the control block.
-/

namespace SepKernel

/-- The kernels differ in the registers of the first `n` processes alone. -/
structure Kernel.SameButRegs (n : Nat) (k k' : Kernel) : Prop where
  nodes : k.nodes = k'.nodes
  schedule : k.schedule = k'.schedule
  receivers : k.receivers = k'.receivers
  history : k.history = k'.history
  pid : ∀ q, (k.procs q).pid = (k'.procs q).pid
  state : ∀ q, (k.procs q).state = (k'.procs q).state
  regs : ∀ q, n ≤ q → (k.procs q).regs = (k'.procs q).regs

theorem Kernel.SameButRegs.trans {n : Nat} {k k' k'' : Kernel} (h : k.SameButRegs n k')
    (h' : k'.SameButRegs n k'') : k.SameButRegs n k'' where
  nodes := h.nodes.trans h'.nodes
  schedule := h.schedule.trans h'.schedule
  receivers := h.receivers.trans h'.receivers
  history := h.history.trans h'.history
  pid q := (h.pid q).trans (h'.pid q)
  state q := (h.state q).trans (h'.state q)
  regs q hq := (h.regs q hq).trans (h'.regs q hq)

theorem Kernel.SameButRegs.refl (n : Nat) (k : Kernel) : k.SameButRegs n k :=
  ⟨rfl, rfl, rfl, rfl, fun _ => rfl, fun _ => rfl, fun _ _ => rfl⟩

theorem Kernel.SameButRegs.setReg {n p : Nat} (hp : p < n) (k : Kernel) (r : Reg) (x : Word) :
    k.SameButRegs n (k.setReg p r x) where
  nodes := rfl
  schedule := rfl
  receivers := rfl
  history := rfl
  pid q := by
    by_cases hq : q = p
    · rw [hq, Kernel.setReg, Kernel.procs_setProc_same]
    · rw [procs_setReg_of_ne _ _ hq]
  state q := (state_setReg r x).symm
  regs q hq := by rw [procs_setReg_of_ne _ _ (by omega)]

/-- Two kernels that differ in saved registers only are the same but for them. -/
theorem Kernel.SameButRegs.of_unread {R : Nat → Prop} {ρ ρ' : Nat → Reg → Word} {k k₂ : Kernel}
    {n : Nat} (hu : Unread R ρ ρ' k₂ k) (hR : ∀ q, n ≤ q → ¬ R q) :
    k.SameButRegs n k₂ where
  nodes := hu.nodes.symm
  schedule := hu.schedule.symm
  receivers := hu.receivers.symm
  history := hu.history.symm
  pid q := (hu.pid q).symm
  state q := (hu.state q).symm
  regs q hq := (hu.regs q (hR q hq)).symm

/-- What `trap_syscall` has stored before the call. -/
theorem enter_eq (k : Kernel) (p : Nat) (user : Reg → Word) : k.enter p user =
    k.setProc p { k.procs p with
      regs := Function.update (savedRegs k p user) .pc (user .pc + 4) } := by
  rw [Kernel.enter, Kernel.setReg, Kernel.procs_setProc_same]
  simp only [Kernel.setProc, Function.update_idem]
  rfl

/-- The end of `trap_syscall`. -/
def Outcome.store (p : Nat) (k : Kernel) : Outcome → Kernel
  | .ret code => k.setReg p .a0 code
  | .yielded => k

/-- A trap in one piece is the entry, the call and the store of what it returns. -/
theorem trapSyscall_eq (cfg : Config) (k : Kernel) (p : Nat) (mtimecmp : Word) (user : Reg → Word) :
    (trapSyscall cfg p mtimecmp user).run k =
      ((syscallVector cfg p mtimecmp user).run (k.enter p user)).map fun x => (x.1, x.1.store p x.2) := by
  have hpc : (writeReg p .pc (user .pc + 4)).run (k.save p user) = .ok ((), k.enter p user) := rfl
  rw [trapSyscall, run_bind_ok (saveContext_run k p user), run_bind_ok hpc]
  cases hrun : (syscallVector cfg p mtimecmp user).run (k.enter p user) with
  | error e => exact run_bind_error hrun _
  | ok x =>
    obtain ⟨out, k'⟩ := x
    refine (run_bind_ok hrun _).trans ?_
    cases out <;> rfl

namespace Trap

open Instr
open Transition (Reachable Steps)

variable {cfg : Config} {lay : Layout} {m m' : Machine} {st st' : System} {h p : Nat} {k k₂ : Kernel}
  {mem : Memory} {x : Hart}

/-! ## The system that goes with a machine -/

/-- The machine is in the middle of what are single steps of the system, or between them. -/
structure Sim (cfg : Config) (lay : Layout) (m : Machine) (st : System) : Prop where
  good : st.Good cfg
  same : m.kernel.SameButRegs lay.nProc st.kernel
  pmp : ∀ h, m.pmp h = (st.harts h).pmp
  mtimecmp : ∀ h, m.mtimecmp h = (st.harts h).mtimecmp
  holds : ∀ h, (m.harts h).holds = st.current h
  off : ∀ h, st.current h = none → (m.harts h).control = .start ∧ (m.harts h).mscratch = 0 ∧
    (m.harts h).mie = false ∧ m.trapped h = none
  idle : ∀ p < lay.nProc, (∀ h, st.current h ≠ some p) →
    cells m.mem (lay.proc p) = (st.kernel.procs p).regs
  phase : ∀ h p (hp : p < lay.nProc), st.current h = some p →
    Phase lay (lay.proc p) (lay.proc_ne_zero hp) (st.kernel.procs p).regs (m.harts h)
      (cells m.mem (lay.proc p)) (m.trapped h)

/-- Different processes have different control blocks. -/
theorem Layout.proc_injective {q : Nat} (hp : p < lay.nProc) (hq : q < lay.nProc)
    (heq : lay.proc p = lay.proc q) : p = q := by
  by_contra hne
  exact lay.field_ne hq hp hne .pc .pc (by rw [heq])

/-- One hart moves, and with it the system: what has to be known of it, and of the others. -/
theorem Sim.replace {pmp : Nat → PmpRegs} {mtimecmp : Nat → Word} {trapped : Nat → Option Trapped}
    {o : Option Trapped} (hs : Sim cfg lay m st)
    (hg : st'.Good cfg) (hsame : k.SameButRegs lay.nProc st'.kernel)
    (hharts : ∀ h', h' ≠ h → st'.harts h' = st.harts h') (hx : x.holds = st'.current h)
    (hpmp : pmp = Function.update m.pmp h (st'.harts h).pmp)
    (hmtimecmp : mtimecmp = Function.update m.mtimecmp h (st'.harts h).mtimecmp)
    (htrapped : trapped = Function.update m.trapped h o)
    (hothers : ∀ h' q, h' ≠ h → st.current h' = some q → q < lay.nProc →
      cells mem (lay.proc q) = cells m.mem (lay.proc q) ∧
        (st'.kernel.procs q).regs = (st.kernel.procs q).regs)
    (hidle : ∀ q < lay.nProc, (∀ h', st'.current h' ≠ some q) →
      cells mem (lay.proc q) = (st'.kernel.procs q).regs)
    (hoff : st'.current h = none →
      x.control = .start ∧ x.mscratch = 0 ∧ x.mie = false ∧ o = none)
    (hphase : ∀ p (hp : p < lay.nProc), st'.current h = some p →
      Phase lay (lay.proc p) (lay.proc_ne_zero hp) (st'.kernel.procs p).regs x
        (cells mem (lay.proc p)) o) :
    Sim cfg lay ⟨Function.update m.harts h x, mem, k, pmp, mtimecmp, trapped⟩ st' where
  good := hg
  same := hsame
  pmp h' := by
    by_cases hh : h' = h
    · subst hh
      simp only [hpmp, Function.update_self]
    · simp only [hpmp, Function.update_of_ne hh, hharts h' hh, hs.pmp]
  mtimecmp h' := by
    by_cases hh : h' = h
    · subst hh
      simp only [hmtimecmp, Function.update_self]
    · simp only [hmtimecmp, Function.update_of_ne hh, hharts h' hh, hs.mtimecmp]
  holds h' := by
    by_cases hh : h' = h
    · subst hh
      simp only [Function.update_self, hx]
    · simp only [Function.update_of_ne hh, hs.holds]
      rw [System.current, System.current, hharts h' hh]
  off h' hnone := by
    by_cases hh : h' = h
    · subst hh
      simp only [htrapped, Function.update_self]
      exact hoff hnone
    · simp only [htrapped, Function.update_of_ne hh]
      rw [System.current, hharts h' hh] at hnone
      exact hs.off h' hnone
  idle := hidle
  phase h' q hq hcur := by
    by_cases hh : h' = h
    · subst hh
      simp only [htrapped, Function.update_self]
      exact hphase q hq hcur
    · simp only [htrapped, Function.update_of_ne hh]
      rw [System.current, hharts h' hh] at hcur
      obtain ⟨hcells, hregs⟩ := hothers h' q hh hcur hq
      rw [hcells, hregs]
      exact hs.phase h' q hq hcur

/-- What a hart has loaded is what the system says. -/
theorem Sim.pmp_update (hs : Sim cfg lay m st) (h : Nat) :
    m.pmp = Function.update m.pmp h (st.harts h).pmp := by
  rw [← hs.pmp h, Function.update_eq_self]

/-- So is its timer. -/
theorem Sim.mtimecmp_update (hs : Sim cfg lay m st) (h : Nat) :
    m.mtimecmp = Function.update m.mtimecmp h (st.harts h).mtimecmp := by
  rw [← hs.mtimecmp h, Function.update_eq_self]

/-- The hart goes on with its process, and stores to no other block. -/
theorem Sim.own {trapped : Nat → Option Trapped} {o : Option Trapped} (hs : Sim cfg lay m st)
    (hp : p < lay.nProc) (hcur : st.current h = some p) (hx : x.holds = (m.harts h).holds)
    (htrapped : trapped = Function.update m.trapped h o)
    (hmem : ∀ q < lay.nProc, q ≠ p → cells mem (lay.proc q) = cells m.mem (lay.proc q))
    (hphase : Phase lay (lay.proc p) (lay.proc_ne_zero hp) (st.kernel.procs p).regs x
      (cells mem (lay.proc p)) o) :
    Sim cfg lay ⟨Function.update m.harts h x, mem, m.kernel, m.pmp, m.mtimecmp, trapped⟩ st := by
  have hne : ∀ {h' q}, h' ≠ h → st.current h' = some q → q ≠ p := by
    rintro h' q hh hq rfl
    exact hh (hs.good.unique h' h q hq hcur)
  refine hs.replace hs.good hs.same (fun _ _ => rfl) (hx.trans (hs.holds h)) (hs.pmp_update h)
    (hs.mtimecmp_update h) htrapped (fun h' q hh hq hlt => ⟨hmem q hlt (hne hh hq), rfl⟩)
    (fun q hq hnone => ?_) (fun hnone => ?_) fun q hq hcur' => ?_
  · have hqp : q ≠ p := by
      rintro rfl
      exact hnone h hcur
    rw [hmem q hq hqp, hs.idle q hq hnone]
  · rw [hcur] at hnone
    cases hnone
  · obtain rfl : p = q := Option.some.inj (hcur.symm.trans hcur')
    exact hphase

/-- A hart that is not in the scheduler has a process. -/
theorem Sim.exists_current (hs : Sim cfg lay m st) (hn : lay.nProc = cfg.nProc)
    (hc : (m.harts h).control = .start → (m.harts h).mie = true) :
    ∃ p, ∃ hp : p < lay.nProc, st.current h = some p ∧
      Phase lay (lay.proc p) (lay.proc_ne_zero hp) (st.kernel.procs p).regs (m.harts h)
        (cells m.mem (lay.proc p)) (m.trapped h) := by
  cases hcur : st.current h with
  | none =>
    obtain ⟨hstart, -, hmie, -⟩ := hs.off h hcur
    rw [hc hstart] at hmie
    cases hmie
  | some p =>
    have hp : p < lay.nProc := by
      rw [hn]
      exact (hs.good.current h p hcur).1
    exact ⟨p, hp, rfl, hs.phase h p hp hcur⟩

/-! ## What the assembly and the user code do -/

/-- A store through `tp` reaches no other control block. -/
theorem store_elsewhere {q : Nat} {i : Instr} (hp : p < lay.nProc) (hq : q < lay.nProc) (hqp : q ≠ p)
    (htp : Accesses i = true → x.gpr .tp = lay.proc p) (mem : Memory) :
    cells (x.store mem i) (lay.proc q) = cells mem (lay.proc q) := by
  cases i with
  | sd src r =>
    funext r'
    rw [cells, Hart.store, htp rfl, Function.update_of_ne (lay.field_ne hp hq hqp r' r)]
    rfl
  | _ => rfl

/-- An instruction of `trap.S` shows nothing. -/
theorem Sim.instr {i : Instr} {rest : List Instr} (hs : Sim cfg lay m st) (hn : lay.nProc = cfg.nProc)
    (hc : (m.harts h).control = .asm (i :: rest)) :
    Sim cfg lay (m.setHart h ((m.harts h).exec lay m.mem rest i) ((m.harts h).store m.mem i)) st := by
  obtain ⟨p, hp, hcur, hphase⟩ := hs.exists_current hn (h := h) fun hstart => by
    cases hstart.symm.trans hc
  exact hs.own hp hcur (exec_holds ..) (Function.update_eq_self ..).symm
    (fun q hq hqp => store_elsewhere hp hq hqp (hphase.tp hc) m.mem) (hphase.instr hc)

/-- Nor does an interrupt of the kernel, until the scheduler is reached. -/
theorem Sim.timer (hs : Sim cfg lay m st) (hn : lay.nProc = cfg.nProc)
    (hmode : (m.harts h).inMachineMode = true) (hmie : (m.harts h).mie = true) (pc : Word) :
    Sim cfg lay (m.setHart h ((m.harts h).takeTrap .machine pc timerCause 0) m.mem) st := by
  obtain ⟨p, hp, hcur, hphase⟩ := hs.exists_current hn (h := h) fun _ => hmie
  exact hs.own hp hcur rfl (Function.update_eq_self ..).symm (fun _ _ _ => rfl)
    (hphase.timer hmode hmie pc)

/-- Nor does user code. -/
theorem Sim.user {pc pc' : Word} {gpr : Gpr → Word} (hs : Sim cfg lay m st)
    (hn : lay.nProc = cfg.nProc) (hc : (m.harts h).control = .user pc)
    (hmem : KeepsBlocks lay m.mem mem fun _ => false) :
    Sim cfg lay (m.setHart h { m.harts h with gpr := gpr, control := .user pc' } mem) st := by
  obtain ⟨p, hp, hcur, hphase⟩ := hs.exists_current hn (h := h) fun hstart => by
    cases hstart.symm.trans hc
  have hcells : ∀ q < lay.nProc, cells mem (lay.proc q) = cells m.mem (lay.proc q) :=
    fun q hq => funext (hmem q hq rfl)
  obtain ⟨htrapped, hscratch, hrest⟩ := hphase.of_user hc
  refine hs.own hp hcur rfl (Function.update_eq_self ..).symm (fun q hq _ => hcells q hq) ?_
  rw [hcells p hp, htrapped]
  exact .user rfl hscratch hrest

/-- A trap of user code notes what was trapped; it is shown when it is handled. -/
theorem Sim.trap {pc : Word} (hs : Sim cfg lay m st) (hn : lay.nProc = cfg.nProc)
    (hnum : lay.symbol .numOfSysnr = 11) (hc : (m.harts h).control = .user pc) (cause tval : Word) :
    Sim cfg lay { m.setHart h ((m.harts h).takeTrap .user pc cause tval) m.mem with
      trapped := Function.update m.trapped h (some ⟨context pc (m.harts h).gpr, cause, tval⟩) } st := by
  obtain ⟨p, hp, hcur, hphase⟩ := hs.exists_current hn (h := h) fun hstart => by
    cases hstart.symm.trans hc
  exact hs.own hp hcur rfl rfl (fun _ _ _ => rfl) (hphase.trap hc hnum cause tval)

/-! ## C functions -/

/-- What C code finds differs from the system's kernel in the registers of the processes that run
    on other harts. -/
theorem Sim.unread (hs : Sim cfg lay m st) (hsame : k.SameButRegs lay.nProc m.kernel)
    (hρ : ∀ q, RunsElsewhere st h q → (k.procs q).regs = (st.kernel.procs q).regs)
    (hn : lay.nProc = cfg.nProc)
    (hk : ∀ q < lay.nProc, ¬ RunsElsewhere st h q → (k.procs q).regs = cells m.mem (lay.proc q)) :
    Unread (RunsElsewhere st h) (fun q => (st.kernel.procs q).regs)
      (fun q => cells m.mem (lay.proc q)) k (m.loaded lay) := by
  have hlt : ∀ {q}, RunsElsewhere st h q → q < lay.nProc := by
    rintro q ⟨h', -, hcur⟩
    rw [hn]
    exact (hs.good.current h' q hcur).1
  have hregs : ∀ {q}, q < lay.nProc → ((m.loaded lay).procs q).regs = cells m.mem (lay.proc q) :=
    fun hq => by simp only [Machine.loaded, if_pos hq]
  exact {
    nodes := hsame.nodes
    schedule := hsame.schedule
    receivers := hsame.receivers
    history := hsame.history
    pid := fun q => by
      rw [hsame.pid]
      simp only [Machine.loaded]
      split <;> rfl
    state := fun q => by
      rw [hsame.state]
      simp only [Machine.loaded]
      split <;> rfl
    regs := fun q hq => by
      by_cases hqn : q < lay.nProc
      · rw [hk q hqn hq, hregs hqn]
      · simp only [Machine.loaded, if_neg hqn]
        exact hsame.regs q (Nat.not_lt.mp hqn)
    left := hρ
    right := fun q hq => hregs (hlt hq)
    running := fun q hq => by
      rw [hsame.state, hs.same.state]
      obtain ⟨h', -, hcur⟩ := hq
      exact (hs.good.current h' q hcur).2 }

/-- A C function has run, for the process of the hart or for the scheduler. -/
theorem Sim.call {pmp : Nat → PmpRegs} {mtimecmp : Nat → Word} {trapped : Nat → Option Trapped}
    (hs : Sim cfg lay m st) (hn : lay.nProc = cfg.nProc)
    (hu : Unread (RunsElsewhere st h) (fun q => (st.kernel.procs q).regs)
      (fun q => cells m.mem (lay.proc q)) k₂ k) (hmem : Represents lay k mem) (hg : st'.Good cfg)
    (hsame : k₂.SameButRegs lay.nProc st'.kernel)
    (hregs : ∀ q, st'.current h ≠ some q → (st'.kernel.procs q).regs = (k₂.procs q).regs)
    (hharts : ∀ h', h' ≠ h → st'.harts h' = st.harts h') (hx : x.holds = st'.current h)
    (hpmp : pmp = Function.update m.pmp h (st'.harts h).pmp)
    (hmtimecmp : mtimecmp = Function.update m.mtimecmp h (st'.harts h).mtimecmp)
    (htrapped : trapped = Function.update m.trapped h none)
    (hoff : st'.current h = none → x.control = .start ∧ x.mscratch = 0 ∧ x.mie = false)
    (hphase : ∀ p (hp : p < lay.nProc), st'.current h = some p →
      Phase lay (lay.proc p) (lay.proc_ne_zero hp) (st'.kernel.procs p).regs x
        (cells mem (lay.proc p)) none) :
    Sim cfg lay ⟨Function.update m.harts h x, mem, k, pmp, mtimecmp, trapped⟩ st' := by
  have hcurrent : ∀ {h'}, h' ≠ h → st'.current h' = st.current h' := fun hh => by
    rw [System.current, System.current, hharts _ hh]
  have hbeyond : ∀ q, lay.nProc ≤ q → ¬ RunsElsewhere st h q := by
    rintro q hq ⟨h', -, hcur⟩
    rw [hn] at hq
    exact absurd (hs.good.current h' q hcur).1 (Nat.not_lt.mpr hq)
  refine hs.replace hg ((Kernel.SameButRegs.of_unread hu hbeyond).trans hsame) hharts hx hpmp
    hmtimecmp htrapped (fun h' q hh hcur hq => ?_) (fun q hq hnone => ?_)
    (fun hnone => ?_) hphase
  · have hR : RunsElsewhere st h q := ⟨h', hh, hcur⟩
    have hne : st'.current h ≠ some q := fun he =>
      hh (hg.unique h' h q ((hcurrent hh).trans hcur) he)
    rw [hmem q hq, hu.right q hR, hregs q hne, hu.left q hR]
    exact ⟨rfl, rfl⟩
  · have hR : ¬ RunsElsewhere st h q := by
      rintro ⟨h', hh, hcur⟩
      exact hnone h' ((hcurrent hh).trans hcur)
    rw [hmem q hq, ← hu.regs q hR, hregs q (hnone h)]
  · obtain ⟨hc, hscratch, hmie⟩ := hoff hnone
    exact ⟨hc, hscratch, hmie, rfl⟩

/-- The process of the hart has other registers, as they are in its block. -/
theorem Sim.unread_setProc (hs : Sim cfg lay m st) (hn : lay.nProc = cfg.nProc) (hp : p < lay.nProc)
    (hcur : st.current h = some p) :
    Unread (RunsElsewhere st h) (fun q => (st.kernel.procs q).regs)
      (fun q => cells m.mem (lay.proc q))
      (st.kernel.setProc p { st.kernel.procs p with regs := cells m.mem (lay.proc p) })
      (m.loaded lay) := by
  have hself : ¬ RunsElsewhere st h p := not_runsElsewhere hs.good hcur
  refine hs.unread ⟨hs.same.nodes.symm, hs.same.schedule.symm, hs.same.receivers.symm,
    hs.same.history.symm, fun q => ?_, fun q => ?_, fun q hq => ?_⟩ (fun q hq => ?_) hn
      fun q hq hR => ?_
  · rw [hs.same.pid]
    by_cases hqp : q = p
    · rw [hqp, Kernel.procs_setProc_same]
    · rw [Kernel.procs_setProc_of_ne _ hqp]
  · rw [hs.same.state]
    by_cases hqp : q = p
    · rw [hqp, Kernel.procs_setProc_same]
    · rw [Kernel.procs_setProc_of_ne _ hqp]
  · rw [Kernel.procs_setProc_of_ne _ (by omega), hs.same.regs q hq]
  · have hqp : q ≠ p := by
      rintro rfl
      exact hself hq
    rw [Kernel.procs_setProc_of_ne _ hqp]
  · by_cases hqp : q = p
    · rw [hqp, Kernel.procs_setProc_same]
    · rw [Kernel.procs_setProc_of_ne _ hqp]
      refine (hs.idle q hq fun h' hcur' => ?_).symm
      by_cases hh : h' = h
      · subst hh
        exact hqp (Option.some.inj (hcur'.symm.trans hcur))
      · exact hR ⟨h', hh, hcur'⟩

/-- The process of the hart has yielded. -/
theorem Sim.leave {gpr : Gpr → Word} (hs : Sim cfg lay m st) (hn : lay.nProc = cfg.nProc)
    (hu : Unread (RunsElsewhere st h) (fun q => (st.kernel.procs q).regs)
      (fun q => cells m.mem (lay.proc q)) k₂ k) (hmem : Represents lay k mem)
    (hg : (st.finish h .yielded k₂).Good cfg) (hscratch : (m.harts h).mscratch = 0)
    (hmie : (m.harts h).mie = false) :
    Sim cfg lay { (m.setHart h { m.harts h with
      gpr := gpr, control := .start, holds := none } mem).untrap h with kernel := k }
      (st.finish h .yielded k₂) := by
  have hharts : (st.finish h .yielded k₂).harts =
      Function.update st.harts h { st.harts h with current := none } := rfl
  have hcur : (st.finish h .yielded k₂).current h = none := by
    rw [System.current, hharts, Function.update_self]
  refine hs.call hn hu hmem hg (.refl _ _) (fun _ _ => rfl) (fun h' hh => ?_) hcur.symm ?_ ?_ rfl
    (fun _ => ⟨rfl, hscratch, hmie⟩) fun q hq hcur' => ?_
  · rw [hharts, Function.update_of_ne hh]
  · rw [hharts, Function.update_self]
    exact hs.pmp_update h
  · rw [hharts, Function.update_self]
    exact hs.mtimecmp_update h
  · cases hcur.symm.trans hcur'

/-! ## System calls -/

/-- The jump that the call number selects is to the function that the system runs. -/
theorem entry_eq {current : Nat} {mtimecmp i base : Word} {f : (Gpr → Word) → KernelM Outcome}
    {gpr : Gpr → Word} {user : Reg → Word} (hi : base + 4 * callIndex (user .t0) = base + 4 * i)
    (hf : (syscallEntries cfg current mtimecmp)[i.toNat]? = some f)
    (hargs : ∀ g ∈ arguments, gpr g = user g.reg) :
    f gpr = syscallVector cfg current mtimecmp user := by
  have hlt : i.toNat < 11 := (List.getElem?_eq_some_iff.mp hf).1
  have hindex : callIndex (user .t0) = i := by
    have h4 : 4 * callIndex (user .t0) = 4 * i := (BitVec.add_right_inj _).mp hi
    have hlt' : (callIndex (user .t0)).toNat < 11 := by
      rw [callIndex]
      split
      · assumption
      · decide
    have hnat := congrArg BitVec.toNat h4
    have hfour : (4 : Word).toNat = 4 := rfl
    rw [BitVec.toNat_mul, BitVec.toNat_mul, hfour, Nat.mod_eq_of_lt (by omega),
      Nat.mod_eq_of_lt (by omega)] at hnat
    exact BitVec.eq_of_toNat_eq (by omega)
  have ha0 : gpr .a0 = user .a0 := hargs .a0 (by decide)
  have ha1 : gpr .a1 = user .a1 := hargs .a1 (by decide)
  have ha2 : gpr .a2 = user .a2 := hargs .a2 (by decide)
  have ha3 : gpr .a3 = user .a3 := hargs .a3 (by decide)
  have ha4 : gpr .a4 = user .a4 := hargs .a4 (by decide)
  have ha5 : gpr .a5 = user .a5 := hargs .a5 (by decide)
  unfold syscallVector
  by_cases hnr : (user .t0).toNat < 11
  · rw [callIndex, if_pos hnr] at hindex
    rw [← hindex] at hf
    -- one case for each entry
    generalize (user .t0).toNat = n at hf hnr
    rcases n with _ | _ | _ | _ | _ | _ | _ | _ | _ | _ | _ | n
    all_goals first
      | omega
      | obtain rfl := Option.some.inj hf
        simp only [ha0, ha1, ha2, ha3, ha4, ha5]
  · rw [callIndex, if_neg hnr] at hindex
    obtain ⟨n, hn⟩ := Nat.exists_eq_add_of_le' (Nat.not_lt.mp hnr)
    subst hindex
    obtain rfl := Option.some.inj hf
    rw [hn]
    rfl

/-- What a system call finds. -/
structure Called (lay : Layout) (m : Machine) (st : System) (h p : Nat) (user : Reg → Word) :
    Prop where
  current : st.current h = some p
  lt : p < lay.nProc
  tp : (m.harts h).gpr .tp = lay.proc p
  ra : (m.harts h).gpr .ra = lay.symbol .syscallVector + 4 * callIndex (user .t0)
  args : ∀ g ∈ arguments, (m.harts h).gpr g = user g.reg
  mscratch : (m.harts h).mscratch = 0
  mie : (m.harts h).mie = false
  unread : Unread (RunsElsewhere st h) (fun q => (st.kernel.procs q).regs)
    (fun q => cells m.mem (lay.proc q)) (st.kernel.enter p user) (m.loaded lay)

/-- Where a hart is at the call, a trap waits to be handled. -/
theorem Sim.called (hs : Sim cfg lay m st) (hn : lay.nProc = cfg.nProc)
    (hc : (m.harts h).control = .handler (sd .a0 .a0 :: trapResumeProc)) :
    ∃ p t, m.trapped h = some t ∧ Called lay m st h p t.user := by
  obtain ⟨p, hp, hcur, hphase⟩ := hs.exists_current hn (h := h) fun hstart => by
    cases hstart.symm.trans hc
  obtain ⟨t, ht, hy⟩ := hphase.arrived hc
  cases hy.entry with
  | syscall hcause hc' hra hargs hcell =>
    refine ⟨p, t, ht, hcur, hp, hy.tp, hra, hargs, hy.mscratch, hy.mie, ?_⟩
    have hu := hs.unread_setProc hn hp hcur
    rw [hcell] at hu
    rw [enter_eq]
    exact hu
  | exception _ _ hc' => cases hc.symm.trans hc'
  | timer _ hc' => cases hc.symm.trans hc'

/-- The function that the hart calls ends as the system's does. -/
theorem Called.run {user : Reg → Word} {i : Word} {f : (Gpr → Word) → KernelM Outcome} {q : Nat}
    {out : Outcome} (hd : Called lay m st h p user) (hs : Sim cfg lay m st) (hq : q < lay.nProc)
    (htp : (m.harts h).gpr .tp = lay.proc q)
    (hra : (m.harts h).gpr .ra = lay.symbol .syscallVector + 4 * i)
    (hf : (syscallEntries cfg q (m.mtimecmp h))[i.toNat]? = some f)
    (hrun : (f (m.harts h).gpr).run (m.loaded lay) = .ok (out, k)) :
    ∃ k₂, (syscallVector cfg p (st.harts h).mtimecmp user).run (st.kernel.enter p user) =
        .ok (out, k₂) ∧
      Unread (RunsElsewhere st h) (fun q => (st.kernel.procs q).regs)
        (fun q => cells m.mem (lay.proc q)) k₂ k := by
  obtain rfl : q = p := Layout.proc_injective hq hd.lt (htp.symm.trans hd.tp)
  rw [entry_eq (hd.ra.symm.trans hra) hf hd.args, hs.mtimecmp] at hrun
  exact (hd.unread.syscallVector (not_runsElsewhere hs.good hd.current) _ user).ok_right hrun

/-- The call that returns is the whole trap; the rest of `trap.S` stores and loads. -/
theorem Sim.syscall {q : Nat} {i code : Word} {f : (Gpr → Word) → KernelM Outcome}
    {gpr : Gpr → Word} {mie : Bool} (hs : Sim cfg lay m st) (hn : lay.nProc = cfg.nProc)
    (hc : (m.harts h).control = .handler (sd .a0 .a0 :: trapResumeProc)) (hq : q < lay.nProc)
    (htp : (m.harts h).gpr .tp = lay.proc q)
    (hra : (m.harts h).gpr .ra = lay.symbol .syscallVector + 4 * i)
    (hf : (syscallEntries cfg q (m.mtimecmp h))[i.toNat]? = some f)
    (hrun : (f (m.harts h).gpr).run (m.loaded lay) = .ok (.ret code, k))
    (hgpr : gpr .tp = (m.harts h).gpr .tp) (ha0 : gpr .a0 = code) (hmem : Represents lay k mem) :
    ∃ t st', m.trapped h = some t ∧ SepKernel.Step cfg st (.ecall h t.user) st' ∧
      Sim cfg lay { (m.setHart h { m.harts h with
        gpr := gpr
        mie := mie
        control := .asm (sd .a0 .a0 :: trapResumeProc) } mem).untrap h with kernel := k } st' := by
  obtain ⟨p, t, ht, hd⟩ := hs.called hn hc
  obtain ⟨k₂, hrun₂, hu⟩ := hd.run hs hq htp hra hf hrun
  have hstep : SepKernel.Step cfg st (.ecall h t.user) { st with kernel := k₂.setReg p .a0 code } := by
    rw [SepKernel.Step, step, hd.current, Option.map_some, trapSyscall_eq, hrun₂]
    rfl
  have hself : ¬ RunsElsewhere st h p := not_runsElsewhere hs.good hd.current
  have hcell : Function.update (cells mem (lay.proc p)) .a0 (gpr .a0) =
      ((k₂.setReg p .a0 code).procs p).regs := by
    rw [hmem p hd.lt, ← hu.regs p hself, ha0, Kernel.setReg, Kernel.procs_setProc_same]
  refine ⟨t, _, ht, hstep, ?_⟩
  refine hs.call hn hu hmem (step_good hs.good hstep) (.setReg hd.lt k₂ .a0 code) (fun q hq => ?_)
    (fun _ _ => rfl) (hs.holds h) (hs.pmp_update h) (hs.mtimecmp_update h) rfl (fun hnone => ?_)
    fun q hq hcur => ?_
  · have hqp : q ≠ p := by
      rintro rfl
      exact hq hd.current
    rw [Kernel.procs_setReg_of_ne _ _ hqp]
  · cases hd.current.symm.trans hnone
  · obtain rfl : p = q := Option.some.inj (hd.current.symm.trans hcur)
    exact .returning rfl (hgpr.trans hd.tp) hd.mscratch hcell

/-- The call that yields is too. -/
theorem Sim.yields {q : Nat} {i : Word} {f : (Gpr → Word) → KernelM Outcome}
    {gpr : Gpr → Word} (hs : Sim cfg lay m st) (hn : lay.nProc = cfg.nProc)
    (hc : (m.harts h).control = .handler (sd .a0 .a0 :: trapResumeProc)) (hq : q < lay.nProc)
    (htp : (m.harts h).gpr .tp = lay.proc q)
    (hra : (m.harts h).gpr .ra = lay.symbol .syscallVector + 4 * i)
    (hf : (syscallEntries cfg q (m.mtimecmp h))[i.toNat]? = some f)
    (hrun : (f (m.harts h).gpr).run (m.loaded lay) = .ok (.yielded, k))
    (hmem : Represents lay k mem) :
    ∃ t st', m.trapped h = some t ∧ SepKernel.Step cfg st (.ecall h t.user) st' ∧
      Sim cfg lay { (m.setHart h { m.harts h with
        gpr := gpr, control := .start, holds := none } mem).untrap h with kernel := k } st' := by
  obtain ⟨p, t, ht, hd⟩ := hs.called hn hc
  obtain ⟨k₂, hrun₂, hu⟩ := hd.run hs hq htp hra hf hrun
  have hstep : SepKernel.Step cfg st (.ecall h t.user) (st.finish h .yielded k₂) := by
    rw [SepKernel.Step, step, hd.current, Option.map_some, trapSyscall_eq, hrun₂]
    rfl
  exact ⟨t, _, ht, hstep, hs.leave hn hu hmem (step_good hs.good hstep) hd.mscratch hd.mie⟩

/-! ## The other traps -/

/-- So is the handler of exceptions. -/
theorem Sim.exception {q : Nat} {gpr : Gpr → Word} (hs : Sim cfg lay m st) (hn : lay.nProc = cfg.nProc)
    (hc : (m.harts h).control = .handler [.j .trapResumeProc]) (hq : q < lay.nProc)
    (htp : (m.harts h).gpr .tp = lay.proc q)
    (hrun : (exceptionHandler q ((m.harts h).gpr .a0) ((m.harts h).gpr .a1)
      ((m.harts h).gpr .a2)).run (m.loaded lay) = .ok ((), k))
    (hgpr : gpr .tp = (m.harts h).gpr .tp) (hmem : Represents lay k mem) :
    ∃ t st', m.trapped h = some t ∧
      SepKernel.Step cfg st (.exception h t.user t.cause t.tval) st' ∧
      Sim cfg lay { (m.setHart h { m.harts h with
        gpr := gpr, control := .asm [.j .trapResumeProc] } mem).untrap h with kernel := k } st' := by
  obtain ⟨p, hp, hcur, hphase⟩ := hs.exists_current hn (h := h) fun hstart => by
    cases hstart.symm.trans hc
  obtain ⟨t, ht, hy⟩ := hphase.arrived hc
  obtain rfl : q = p := Layout.proc_injective hq hp (htp.symm.trans hy.tp)
  have hself : ¬ RunsElsewhere st h q := not_runsElsewhere hs.good hcur
  cases hy.entry with
  | syscall _ hc' => cases hc.symm.trans hc'
  | timer _ hc' => cases hc.symm.trans hc'
  | exception _ _ _ ha0 ha1 ha2 hcell =>
    have hu₀ := hs.unread_setProc hn hp hcur
    rw [hcell] at hu₀
    rw [ha0, ha1, ha2] at hrun
    obtain ⟨k₂, hrun₂, hu⟩ := (hu₀.exceptionHandler hself _ _ _).ok_right hrun
    have hstep : SepKernel.Step cfg st (.exception h t.user t.cause t.tval) { st with kernel := k₂ } := by
      have htrap : (SepKernel.trapException q t.user t.cause t.tval).run st.kernel = .ok ((), k₂) :=
        (run_bind_ok (saveContext_run st.kernel q t.user) _).trans hrun₂
      rw [SepKernel.Step, step, hcur, Option.map_some, htrap]
      rfl
    have hcells : cells mem (lay.proc q) = (k₂.procs q).regs := by
      rw [hmem q hp, hu.regs q hself]
    refine ⟨t, _, ht, hstep, hs.call hn hu hmem (step_good hs.good hstep) (.refl _ _) (fun _ _ => rfl)
      (fun _ _ => rfl) (hs.holds h) (hs.pmp_update h) (hs.mtimecmp_update h) rfl
      (fun hnone => ?_) fun q' hq' hcur' => ?_⟩
    · cases hcur.symm.trans hnone
    · obtain rfl : q = q' := Option.some.inj (hcur.symm.trans hcur')
      exact phase_resume rfl (by decide) rfl (hgpr.trans htp) hy.mscratch hcells

/-- What `sched_yield` finds. -/
theorem Sim.unread_yield (hs : Sim cfg lay m st) (hn : lay.nProc = cfg.nProc) (hp : p < lay.nProc)
    (hcur : st.current h = some p) (hc : (m.harts h).control = .yield) :
    Unread (RunsElsewhere st h) (fun q => (st.kernel.procs q).regs)
      (fun q => cells m.mem (lay.proc q)) (st.kernel.save p (m.lost lay h p)) (m.loaded lay) := by
  obtain ⟨-, -, -, hcell⟩ := (hs.phase h p hp hcur).yield hc
  have hu := hs.unread_setProc hn hp hcur
  rw [hcell] at hu
  exact hu

/-- Reaching the scheduler from a timer interrupt is the trap, with whatever the interrupt lost. -/
theorem Sim.yield {q : Nat} {gpr : Gpr → Word} (hs : Sim cfg lay m st) (hn : lay.nProc = cfg.nProc)
    (hc : (m.harts h).control = .yield) (hq : q < lay.nProc)
    (htp : (m.harts h).gpr .tp = lay.proc q)
    (hrun : (schedYield q).run (m.loaded lay) = .ok (.yielded, k)) (hmem : Represents lay k mem) :
    ∃ st', SepKernel.Step cfg st (.timer h (m.lost lay h q)) st' ∧
      Sim cfg lay { (m.setHart h { m.harts h with
        gpr := gpr, control := .start, holds := none } mem).untrap h with kernel := k } st' := by
  obtain ⟨p, hp, hcur, hphase⟩ := hs.exists_current hn (h := h) fun hstart => by
    cases hstart.symm.trans hc
  obtain ⟨htp', hscratch, hmie, -⟩ := hphase.yield hc
  obtain rfl : q = p := Layout.proc_injective hq hp (htp.symm.trans htp')
  obtain ⟨k₂, hrun₂, hu⟩ := ((hs.unread_yield hn hp hcur hc).schedYield
    (not_runsElsewhere hs.good hcur)).ok_right hrun
  have hstep : SepKernel.Step cfg st (.timer h (m.lost lay h q)) (st.finish h .yielded k₂) := by
    have htrap : (SepKernel.trapTimer q (m.lost lay h q)).run st.kernel = .ok (.yielded, k₂) :=
      (run_bind_ok (saveContext_run st.kernel q (m.lost lay h q)) _).trans hrun₂
    rw [SepKernel.Step, step, hcur, Option.map_some, htrap]
    rfl
  exact ⟨_, hstep, hs.leave hn hu hmem (step_good hs.good hstep) hscratch hmie⟩

/-! ## The scheduler -/

/-- What the scheduler finds on a hart that has no process. -/
theorem Sim.unread_off (hs : Sim cfg lay m st) (hn : lay.nProc = cfg.nProc)
    (hcur : st.current h = none) :
    Unread (RunsElsewhere st h) (fun q => (st.kernel.procs q).regs)
      (fun q => cells m.mem (lay.proc q)) st.kernel (m.loaded lay) := by
  refine hs.unread ⟨hs.same.nodes.symm, hs.same.schedule.symm, hs.same.receivers.symm,
    hs.same.history.symm, fun q => (hs.same.pid q).symm, fun q => (hs.same.state q).symm,
    fun q hq => (hs.same.regs q hq).symm⟩ (fun _ _ => rfl) hn fun q hq hR => ?_
  refine (hs.idle q hq fun h' hcur' => ?_).symm
  by_cases hh : h' = h
  · subst hh
    cases hcur.symm.trans hcur'
  · exact hR ⟨h', hh, hcur'⟩

/-- A hart in the scheduler has no process. -/
theorem Sim.current_off (hs : Sim cfg lay m st) (hn : lay.nProc = cfg.nProc)
    (hc : (m.harts h).control = .start) : st.current h = none := by
  cases hcur : st.current h with
  | none => rfl
  | some p =>
    have hp : p < lay.nProc := by
      rw [hn]
      exact (hs.good.current h p hcur).1
    exact absurd hc (hs.phase h p hp hcur).not_start

/-- A round that finds nobody. -/
theorem Sim.round {mtime : Word} {gpr : Gpr → Word} (hs : Sim cfg lay m st)
    (hn : lay.nProc = cfg.nProc) (hc : (m.harts h).control = .start) (hlo : cfg.minHartid ≤ h)
    (hhi : h ≤ cfg.maxHartid)
    (hrun : (schedStartRound cfg h mtime).run (m.loaded lay) = .ok (none, k))
    (hmem : Represents lay k mem) :
    ∃ st', SepKernel.Step cfg st (.schedule h mtime) st' ∧
      Sim cfg lay { m.setHart h { m.harts h with gpr := gpr } mem with kernel := k } st' := by
  have hcur := hs.current_off hn hc
  obtain ⟨-, hscratch, hmie, htrapped⟩ := hs.off h hcur
  obtain ⟨k₂, hrun₂, hu⟩ := ((hs.unread_off hn hcur).schedStartRound cfg h mtime).ok_right hrun
  have hstep : SepKernel.Step cfg st (.schedule h mtime) { st with kernel := k₂ } := by
    rw [SepKernel.Step, step, if_pos ⟨hlo, hhi, hcur⟩, hrun₂]
    rfl
  refine ⟨_, hstep, hs.call hn hu hmem (step_good hs.good hstep) (.refl _ _) (fun _ _ => rfl)
    (fun _ _ => rfl) (hs.holds h) (hs.pmp_update h) (hs.mtimecmp_update h) ?_
    (fun _ => ⟨hc, hscratch, hmie⟩) fun q hq hcur' => ?_⟩
  · rw [← htrapped, Function.update_eq_self]
    rfl
  · cases hcur.symm.trans hcur'

/-- A round that finds a process, and what it loads for it. -/
theorem Sim.dispatch {mtime : Word} {d : Dispatched} {pmp : PmpRegs} {gpr : Gpr → Word}
    (hs : Sim cfg lay m st) (hn : lay.nProc = cfg.nProc) (hc : (m.harts h).control = .start)
    (hlo : cfg.minHartid ≤ h) (hhi : h ≤ cfg.maxHartid)
    (hrun : (schedStartRound cfg h mtime).run (m.loaded lay) = .ok (some d, k))
    (hpmp : if cfg.memoryProtection then (procLoadPmp cfg d.proc).run k = .ok (pmp, k)
      else pmp = m.pmp h)
    (htp : gpr .tp = lay.proc d.proc) (hmem : Represents lay k mem) :
    ∃ st', SepKernel.Step cfg st (.schedule h mtime) st' ∧
      Sim cfg lay { m.setHart h { m.harts h with
        gpr := gpr, control := .asm trapResumeProc, holds := some d.proc } mem with
          kernel := k
          pmp := Function.update m.pmp h pmp
          mtimecmp := Function.update m.mtimecmp h
            (waitAndSetTimeout cfg d.time d.length d.timeout).2 } st' := by
  have hcur := hs.current_off hn hc
  obtain ⟨-, hscratch, hmie, htrapped⟩ := hs.off h hcur
  obtain ⟨k₂, hrun₂, hu⟩ := ((hs.unread_off hn hcur).schedStartRound cfg h mtime).ok_right hrun
  -- the process was ready, so no other hart runs it
  have hd : ¬ RunsElsewhere st h d.proc := by
    rintro ⟨h', hh, hcur'⟩
    have hrunning := (hs.good.current h' _ hcur').2
    rcases schedStartRound_run mtime hs.good.kernel.entries hlo hhi with
      hnone | ⟨d', hd', -, hready⟩
    · cases hrun₂.symm.trans hnone
    · obtain ⟨hsome, -⟩ := Prod.mk.inj (Except.ok.inj (hrun₂.symm.trans hd'))
      rw [Option.some.inj hsome, hready] at hrunning
      exact absurd hrunning (by decide)
  obtain ⟨st', hst', hkernel, hharts⟩ : ∃ st', SepKernel.dispatch cfg st h d k₂ = .ok st' ∧
      st'.kernel = k₂ ∧ st'.harts = Function.update st.harts h
        ⟨some d.proc, pmp, (waitAndSetTimeout cfg d.time d.length d.timeout).2⟩ := by
    unfold SepKernel.dispatch
    by_cases hm : cfg.memoryProtection = true
    · rw [if_pos hm] at hpmp ⊢
      obtain ⟨k₃, hpmp₂, -⟩ := (hu.procLoadPmp hd).ok_right hpmp
      rw [hpmp₂]
      exact ⟨_, rfl, rfl, rfl⟩
    · rw [if_neg hm] at hpmp ⊢
      rw [hpmp, hs.pmp h]
      exact ⟨_, rfl, rfl, rfl⟩
  have hstep : SepKernel.Step cfg st (.schedule h mtime) st' := by
    rw [SepKernel.Step, step, if_pos ⟨hlo, hhi, hcur⟩, hrun₂]
    exact congrArg some hst'
  have hcur' : st'.current h = some d.proc := by
    rw [System.current, hharts, Function.update_self]
  refine ⟨st', hstep, hs.call hn hu hmem (step_good hs.good hstep) (hkernel ▸ .refl _ _)
    (fun _ _ => by rw [hkernel]) (fun h' hh => ?_) hcur'.symm ?_ ?_ ?_ (fun hnone => ?_)
    fun q hq hcurq => ?_⟩
  · rw [hharts, Function.update_of_ne hh]
  · rw [hharts, Function.update_self]
  · rw [hharts, Function.update_self]
  · rw [← htrapped, Function.update_eq_self]
    rfl
  · cases hcur'.symm.trans hnone
  · obtain rfl : d.proc = q := Option.some.inj (hcur'.symm.trans hcurq)
    refine phase_resume rfl (Shadow.check_entry .trapResumeProc _ rfl)
      (storesUser_code .trapResumeProc) htp hscratch ?_
    rw [hkernel]
    exact (hmem d.proc hq).trans (hu.regs d.proc hd).symm

/-! ## Runs -/

/-- A step of the machine that shows something is that step of the system, and the others are none. -/
theorem Sim.step {o : Option SepKernel.Label} (hs : Sim cfg lay m st) (hn : lay.nProc = cfg.nProc)
    (hnum : lay.symbol .numOfSysnr = 11) (hstep : m.Step cfg lay h o m') :
    ∃ st', Transition.exec (stepOk cfg) o.toList st = some st' ∧ Sim cfg lay m' st' := by
  have hshown : ∀ {l : SepKernel.Label} {st'}, SepKernel.Step cfg st l st' →
      Transition.exec (stepOk cfg) (some l).toList st = some st' := fun hl => by
    rw [Option.toList_some, Transition.exec, stepOk_eq_some.mpr hl]
    rfl
  cases hstep with
  | user hc hmem => exact ⟨st, rfl, hs.user hn hc hmem⟩
  | trap hc => exact ⟨st, rfl, hs.trap hn hnum hc _ _⟩
  | timer hmode hmie => exact ⟨st, rfl, hs.timer hn hmode hmie _⟩
  | instr hc => exact ⟨st, rfl, hs.instr hn hc⟩
  | syscall hc hp htp hra hf hrun hgpr ha0 hmem =>
    obtain ⟨t, st', ht, hl, hs'⟩ := hs.syscall hn hc hp htp hra hf hrun hgpr ha0 hmem
    rw [Machine.label, ht]
    exact ⟨st', hshown hl, hs'⟩
  | yields hc hp htp hra hf hrun hmem =>
    obtain ⟨t, st', ht, hl, hs'⟩ := hs.yields hn hc hp htp hra hf hrun hmem
    rw [Machine.label, ht]
    exact ⟨st', hshown hl, hs'⟩
  | exception hc hp htp hrun hgpr hmem =>
    obtain ⟨t, st', ht, hl, hs'⟩ := hs.exception hn hc hp htp hrun hgpr hmem
    rw [Machine.label, ht]
    exact ⟨st', hshown hl, hs'⟩
  | yield hc hp htp hrun hmem =>
    obtain ⟨st', hl, hs'⟩ := hs.yield hn hc hp htp hrun hmem
    exact ⟨st', hshown hl, hs'⟩
  | idle hc hlo hhi hrun hmem =>
    obtain ⟨st', hl, hs'⟩ := hs.round hn hc hlo hhi hrun hmem
    exact ⟨st', hshown hl, hs'⟩
  | dispatch hc hlo hhi hrun hpmp htp hmem =>
    obtain ⟨st', hl, hs'⟩ := hs.dispatch hn hc hlo hhi hrun hpmp htp hmem
    exact ⟨st', hshown hl, hs'⟩

/-- The machine and the system begin alike. -/
theorem Machine.Initial.sim (h₀ : m.Initial cfg lay) : Sim cfg lay m (.start m.kernel) where
  good := good_of_reachable (fun _ => Booted.root) (.start h₀.booted)
  same := .refl _ _
  pmp := h₀.pmp
  mtimecmp := h₀.mtimecmp
  holds h := (h₀.harts h).2.1
  off h _ := ⟨(h₀.harts h).1, (h₀.harts h).2.2.1, (h₀.harts h).2.2.2, h₀.trapped h⟩
  idle p hp _ := h₀.represents p hp
  phase h p _ hcur := by cases hcur

/-- What can be seen of the system in the machine. The registers of a process that no hart has are
    in its block, and one that user code is returned to gets those that it has. -/
structure Shows (lay : Layout) (m : Machine) (st : System) : Prop where
  same : m.kernel.SameButRegs lay.nProc st.kernel
  pmp : ∀ h, m.pmp h = (st.harts h).pmp
  mtimecmp : ∀ h, m.mtimecmp h = (st.harts h).mtimecmp
  current : ∀ h, (m.harts h).holds = st.current h
  idle : ∀ p < lay.nProc, (∀ h, st.current h ≠ some p) →
    cells m.mem (lay.proc p) = (st.kernel.procs p).regs
  mret : ∀ h p rest, st.current h = some p → (m.harts h).control = .asm (.mret :: rest) →
    ((m.harts h).exec lay m.mem rest .mret).control = .user ((st.kernel.procs p).regs .pc) ∧
      ∀ g, (m.harts h).gpr g = (st.kernel.procs p).regs g.reg

/-- And alike they end, as far as anything is shown. -/
theorem Sim.shows (hs : Sim cfg lay m st) (hn : lay.nProc = cfg.nProc) : Shows lay m st where
  same := hs.same
  pmp := hs.pmp
  mtimecmp := hs.mtimecmp
  current := hs.holds
  idle := hs.idle
  mret h p rest hcur hc := by
    have hp : p < lay.nProc := by
      rw [hn]
      exact (hs.good.current h p hcur).1
    obtain ⟨hmpp, hmepc, hgpr⟩ := (hs.phase h p hp hcur).mret hc
    refine ⟨?_, hgpr⟩
    rw [Hart.exec, hmpp, ← hmepc]

end Trap
end SepKernel
