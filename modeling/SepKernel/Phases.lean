import SepKernel.Machine

/-!
# Where a hart is with its process

A hart that has a process runs its user code; or it saves the registers, after an interrupt, a call
or an exception; or it brings them back; or it is interrupted in the kernel and gives the process up.
In all of these the block has what it had of the registers that a trap does not save, and it is known
what the next C function will find there.
-/

namespace SepKernel
namespace Trap

open Instr

variable {lay : Layout} {ptr : Word} {hptr : ptr ≠ 0} {regs : Reg → Word} {x y : Hart}
  {cell cell' : Reg → Word} {mem : Memory} {rest : List Instr} {i : Instr} {pc cause tval : Word}
  {o : Option Trapped} {t : Trapped}

/-- The registers that a trap does not save are the same. -/
def SameRest (cell regs : Reg → Word) : Prop := ∀ r, r.isUser = false → cell r = regs r

/-- Only registers that a trap saves are stored to. -/
def StoresUser (l : List Instr) : Bool :=
  l.all fun
    | .sd _ r => r.isUser
    | _ => true

/-- A hart in `sched_yield`, after an interrupt in the kernel. -/
structure Preempted (ptr : Word) (y : Hart) : Prop where
  control : y.control = .yield
  tp : y.gpr .tp = ptr
  mscratch : y.mscratch = 0
  mie : y.mie = false

/-- What a hart does with the process whose block is at `ptr` and has `cell`, and that has `regs` in
    the system. The hart may have a trap to handle. -/
inductive Phase (lay : Layout) (ptr : Word) (hptr : ptr ≠ 0) (regs : Reg → Word) (x : Hart)
    (cell : Reg → Word) : Option Trapped → Prop
  | user {pc : Word} (hc : x.control = .user pc) (hscratch : x.mscratch = ptr)
    (hrest : SameRest cell regs) : Phase lay ptr hptr regs x cell none
  /-- On the way to C code, or there. -/
  | trapped {y : Hart} {cell' : Reg → Word} {t : Trapped} (hok : HartOk ⟨ptr, hptr, none⟩ cell x)
    (hrun : Runs lay x cell y cell') (hy : Arrived lay ptr t y regs cell') :
    Phase lay ptr hptr regs x cell (some t)
  /-- What the call returned is not stored yet, and preemption may be enabled. -/
  | returning (hc : x.control = .asm (sd .a0 .a0 :: trapResumeProc)) (htp : x.gpr .tp = ptr)
    (hscratch : x.mscratch = 0) (hcell : Function.update cell .a0 (x.gpr .a0) = regs) :
    Phase lay ptr hptr regs x cell none
  /-- On the way back to user code, or interrupted there. -/
  | resuming {rest : List Instr} (hc : x.control = .asm rest) (hsd : StoresUser rest = true)
    (hok : HartOk ⟨ptr, hptr, some regs⟩ cell x) (hrest : SameRest cell regs) :
    Phase lay ptr hptr regs x cell none
  /-- Interrupted, and on the way to `sched_yield` or there. The process goes on with the registers
      in its block: what a call returned may be lost. -/
  | preempted {y : Hart} {cell' : Reg → Word} (hok : HartOk ⟨ptr, hptr, none⟩ cell x)
    (hrun : Runs lay x cell y cell') (hy : Preempted ptr y) (hrest : SameRest cell' regs) :
    Phase lay ptr hptr regs x cell none

/-- The registers that a trap saves. -/
theorem mem_userRegs {r : Reg} : r ∈ userRegs ↔ r.isUser = true := by
  cases r <;> decide

theorem SameRest.savedCell_eq (h : SameRest cell regs) (user : Reg → Word) :
    savedCell user cell = savedCell user regs := by
  funext r
  rw [savedCell, savedCell]
  cases hr : r.isUser with
  | true => rfl
  | false => rw [if_neg Bool.false_ne_true, if_neg Bool.false_ne_true, h r hr]

/-- What arrived at the handler depends on the saved registers only. -/
theorem SameRest.arrived (h : SameRest cell regs) (hy : Arrived lay ptr t y cell cell') :
    Arrived lay ptr t y regs cell' where
  entry := by
    cases hy.entry with
    | syscall hcause hc hra hargs hcell =>
      exact .syscall hcause hc hra hargs (h.savedCell_eq t.user ▸ hcell)
    | exception hcause hne hc ha0 ha1 ha2 hcell =>
      exact .exception hcause hne hc ha0 ha1 ha2 (h.savedCell_eq t.user ▸ hcell)
    | timer hcause hc hcell => exact .timer hcause hc (h.savedCell_eq t.user ▸ hcell)
  tp := hy.tp
  mscratch := hy.mscratch
  mie := hy.mie

/-- What is at the end of the assembly is no assembly, and no user code. -/
theorem Arrived.not_asm (hy : Arrived lay ptr t y cell cell') (l : List Instr) :
    y.control ≠ .asm l := by
  intro hl
  cases hy.entry with
  | syscall _ hc | exception _ _ hc | timer _ hc => cases hl.symm.trans hc

theorem Arrived.not_user (hy : Arrived lay ptr t y cell cell') : y.control ≠ .user pc := by
  intro hl
  cases hy.entry with
  | syscall _ hc | exception _ _ hc | timer _ hc => cases hl.symm.trans hc

theorem Preempted.not_asm (hy : Preempted ptr y) (l : List Instr) : y.control ≠ .asm l := by
  rw [hy.control]
  exact Control.noConfusion

theorem Preempted.not_user (hy : Preempted ptr y) : y.control ≠ .user pc := by
  rw [hy.control]
  exact Control.noConfusion

/-- `trap_timer_preempted`. -/
theorem runs_preempted (lay : Layout) (hscratch : x.mscratch = 0) (pc : Word) (cell : Reg → Word) :
    ∃ y, Runs lay (x.takeTrap .machine pc timerCause 0) cell y cell ∧ Preempted (x.gpr .tp) y := by
  -- the pointer that `tp` gets is null, and `mscratch` has the one of the process
  obtain ⟨x₁, hrun₁, hc₁, hscratch₁, hmcause₁, hmie₁⟩ : ∃ x₁,
      Runs lay (x.takeTrap .machine pc timerCause 0) cell x₁ cell ∧
      x₁.control = .asm (if x.mscratch == 0 then code .trapTimerPreempted else
        stored.map (fun g => .sd g g.reg) ++ afterSave) ∧
      x₁.mscratch = x.gpr .tp ∧ x₁.mcause = timerCause ∧ x₁.mie = false :=
    ⟨_, (runs_block [csrrw .tp (some .tp)] (by decide) rfl rfl).trans (runs_branch lay _ rfl rfl),
      rfl, rfl, rfl, rfl⟩
  rw [hscratch, if_pos (by decide)] at hc₁
  -- it comes back, and the cause is an interrupt
  obtain ⟨x₂, hrun₂, hc₂, htp₂, hscratch₂, hmie₂⟩ : ∃ x₂, Runs lay x₁ cell x₂ cell ∧
      x₂.control = .asm (if !x₁.mcause.slt 0 then code .hang else trapTimer) ∧
      x₂.gpr .tp = x₁.mscratch ∧ x₂.mscratch = 0 ∧ x₂.mie = x₁.mie :=
    ⟨_, (runs_block [csrrw .tp none, csrr .t0 .mcause] (by decide) hmie₁ hc₁).trans
      (runs_branch lay _ hmie₁ rfl), rfl, rfl, rfl, rfl⟩
  have hcause : timerCause.slt 0 = true := by decide
  rw [hmcause₁, hcause, if_neg (by decide)] at hc₂
  have hmie : x₂.mie = false := hmie₂.trans hmie₁
  exact ⟨_, (hrun₁.trans hrun₂).trans (.single hmie hc₂), rfl, htp₂.trans hscratch₁, hscratch₂, hmie⟩

/-- All of `trap.S` up to the call stores user registers only. -/
theorem storesUser_code (l : Label) : StoresUser (code l) = true := by
  cases l <;> decide

/-- `mret` leaves the handlers. -/
theorem exec_mret_ne : (∀ rest', (x.exec lay mem rest .mret).control ≠ .asm rest') ∧
    (x.exec lay mem rest .mret).control ≠ .yield := by
  simp only [Hart.exec]
  cases x.mpp <;> exact ⟨by simp, by simp⟩

/-- So does what is left of it after an instruction. -/
theorem storesUser_exec {rest' : List Instr} (h : StoresUser (i :: rest) = true)
    (hc : (x.exec lay mem rest i).control = .asm rest') : StoresUser rest' = true := by
  have htail : StoresUser rest = true := by
    rw [StoresUser, List.all_cons, Bool.and_eq_true] at h
    exact h.2
  cases i with
  | branch c l =>
    have hrest' : (if x.cond c then code l else rest) = rest' := Control.asm.inj hc
    rw [← hrest']
    split
    · exact storesUser_code l
    · exact htail
  | j l =>
    obtain rfl : code l = rest' := Control.asm.inj hc
    exact storesUser_code l
  | call | tailSchedYield => cases hc
  | mret => exact absurd hc (exec_mret_ne.1 rest')
  | _ =>
    obtain rfl : rest = rest' := Control.asm.inj hc
    exact htail

/-- A store to a register that a trap saves. -/
theorem sameRest_store (hsd : StoresUser (i :: rest) = true)
    (htp : Accesses i = true → x.gpr .tp = ptr) (h : SameRest (cells mem ptr) regs) :
    SameRest (cells (x.store mem i) ptr) regs := by
  rw [cells_store htp]
  cases i with
  | sd src r =>
    rw [StoresUser, List.all_cons, Bool.and_eq_true] at hsd
    intro r' hr'
    have hne : r' ≠ r := by
      rintro rfl
      have hsd' : r'.isUser = true := hsd.1
      rw [hr'] at hsd'
      cases hsd'
    change Function.update (cells mem ptr) r (x.gpr src) r' = regs r'
    rw [Function.update_of_ne hne]
    exact h r' hr'
  | _ => exact h

/-- Whoever goes through `tp` has the process's control block in it. -/
theorem HartOk.tp {v : View} (h : HartOk v cell x) (hc : x.control = .asm (i :: rest))
    (hi : Accesses i = true) : x.gpr .tp = v.ptr := by
  obtain ⟨σ, hcheck, hm⟩ := h.asm hc
  have hgpr := hm.gpr .tp
  simp only [Shadow.check, Bool.and_eq_true] at hcheck
  cases i with
  | sd src r =>
    simp only [Bool.and_eq_true, decide_eq_true_eq] at hcheck
    rwa [hcheck.2.1] at hgpr
  | ld dst r =>
    simp only [Bool.and_eq_true, decide_eq_true_eq] at hcheck
    rwa [hcheck.2.1] at hgpr
  | _ => cases hi

/-- An instruction keeps a hart as it should be. -/
theorem HartOk.exec {v : View} (h : HartOk v (cells mem v.ptr) x) (hc : x.control = .asm (i :: rest)) :
    HartOk v (cells (x.store mem i) v.ptr) (x.exec lay mem rest i) := by
  obtain ⟨σ, hcheck, hm⟩ := h.asm hc
  exact exec_ok hcheck hm

/-! ## One instruction -/

/-- The registers are in the block, and the code may bring them back. -/
theorem phase_resume (hc : x.control = .asm rest)
    (hcheck : Shadow.check { Shadow.kernel with mie := true } rest = true)
    (hsd : StoresUser rest = true) (htp : x.gpr .tp = ptr) (hscratch : x.mscratch = 0)
    (hcell : cell = regs) : Phase lay ptr hptr regs x cell none := by
  subst hcell
  refine .resuming hc hsd ?_ fun _ _ => rfl
  have hm : Matches ⟨ptr, hptr, some cell⟩ cell x { Shadow.kernel with mie := true } :=
    matches_resume htp hscratch fun r _ u hu => by
      obtain rfl : cell = u := Option.some.inj hu
      rfl
  unfold HartOk
  rw [hc]
  exact ⟨_, hcheck, hm⟩

/-- On the way back, the next instruction brings registers back, or saves them again. -/
theorem phase_exec (hc : x.control = .asm (i :: rest)) (hsd : StoresUser (i :: rest) = true)
    (hok : HartOk ⟨ptr, hptr, some regs⟩ (cells mem ptr) x) (hrest : SameRest (cells mem ptr) regs) :
    Phase lay ptr hptr regs (x.exec lay mem rest i) (cells (x.store mem i) ptr) none := by
  have hok' : HartOk ⟨ptr, hptr, some regs⟩ (cells (x.store mem i) ptr) (x.exec lay mem rest i) :=
    hok.exec hc
  have hrest' := sameRest_store hsd (hok.tp hc) hrest
  cases hc' : (x.exec lay mem rest i).control with
  | user pc => exact .user hc' (hok'.user hc').1 hrest'
  | asm rest' => exact .resuming hc' (storesUser_exec hsd hc') hok' hrest'
  | handler rest' =>
    have hnone := (hok'.handler hc').2.1
    cases hnone
  | yield =>
    obtain ⟨hscratch, hmie, -⟩ := hok'.yield hc'
    -- it is the jump to `sched_yield`, with the pointer in `tp`
    have htp : (x.exec lay mem rest i).gpr .tp = ptr := by
      obtain ⟨σ, hcheck, hm⟩ := hok.asm hc
      cases i with
      | tailSchedYield =>
        simp only [Shadow.check, Bool.and_eq_true] at hcheck
        exact (hm.of_atHome hcheck.2.1).1
      | mret => exact absurd hc' exec_mret_ne.2
      | _ => cases hc'
    refine .preempted ?_ (.refl _ _) ⟨hc', htp, hscratch, hmie⟩ hrest'
    unfold HartOk
    rw [hc']
    exact ⟨hscratch, hmie, fun _ _ u hu => by cases hu⟩
  | start =>
    unfold HartOk at hok'
    rw [hc'] at hok'
    exact hok'.elim
  | lost =>
    unfold HartOk at hok'
    rw [hc'] at hok'
    exact hok'.elim

/-- An instruction stays in its phase. -/
theorem Phase.instr (h : Phase lay ptr hptr regs x (cells mem ptr) o)
    (hc : x.control = .asm (i :: rest)) :
    Phase lay ptr hptr regs (x.exec lay mem rest i) (cells (x.store mem i) ptr) o := by
  cases h with
  | user hc' => cases hc.symm.trans hc'
  | resuming hc' hsd hok hrest =>
    obtain rfl := Control.asm.inj (hc.symm.trans hc')
    exact phase_exec hc hsd hok hrest
  | trapped hok hrun hy =>
    obtain ⟨-, hrun'⟩ := hrun.next hc hy.not_asm
    rw [← exec_eq (hok.tp hc), ← cells_store (hok.tp hc)] at hrun'
    exact .trapped (hok.exec hc) hrun' hy
  | preempted hok hrun hy hrest =>
    obtain ⟨-, hrun'⟩ := hrun.next hc hy.not_asm
    rw [← exec_eq (hok.tp hc), ← cells_store (hok.tp hc)] at hrun'
    exact .preempted (hok.exec hc) hrun' hy hrest
  | returning hc' htp hscratch hcell =>
    obtain ⟨rfl, rfl⟩ := List.cons.inj (Control.asm.inj (hc.symm.trans hc'))
    exact phase_resume rfl (Shadow.check_entry .trapResumeProc _ rfl) (storesUser_code .trapResumeProc)
      htp hscratch ((cells_store (fun _ => htp) mem).trans hcell)

/-- The pointer is in `tp` where the block is loaded from or stored to. -/
theorem Phase.tp (h : Phase lay ptr hptr regs x cell o) (hc : x.control = .asm (i :: rest))
    (hi : Accesses i = true) : x.gpr .tp = ptr := by
  cases h with
  | user hc' => cases hc.symm.trans hc'
  | resuming hc' hsd hok hrest => exact hok.tp hc hi
  | trapped hok hrun hy => exact hok.tp hc hi
  | preempted hok hrun hy hrest => exact hok.tp hc hi
  | returning hc' htp hscratch hcell => exact htp

/-- In the kernel, with nothing known of the registers of the user code. -/
theorem hartOk_returning (hc : x.control = .asm (sd .a0 .a0 :: trapResumeProc))
    (htp : x.gpr .tp = ptr) (hscratch : x.mscratch = 0) : HartOk ⟨ptr, hptr, none⟩ cell x := by
  have hcheck : Shadow.returned.check (sd .a0 .a0 :: trapResumeProc) = true := by decide +kernel
  have hret : HartOk ⟨ptr, hptr, none⟩ cell
      { x with control := .asm (sd .a0 .a0 :: trapResumeProc) } :=
    HartOk.ret (x := { x with control := .handler (sd .a0 .a0 :: trapResumeProc) })
      ⟨hcheck, rfl, htp, hscratch⟩ rfl
  rwa [← hc] at hret

/-- The timer interrupts the kernel. -/
theorem Phase.timer (h : Phase lay ptr hptr regs x cell o) (hmode : x.inMachineMode = true)
    (hmie : x.mie = true) (pc : Word) :
    Phase lay ptr hptr regs (x.takeTrap .machine pc timerCause 0) cell o := by
  have hoff : x.mie ≠ false := by
    rw [hmie]
    decide
  cases h with
  | user hc =>
    rw [Hart.inMachineMode, hc] at hmode
    cases hmode
  | resuming hc hsd hok hrest =>
    exact .resuming rfl (storesUser_code .trapEntry) (hok.timer hmode hmie pc) hrest
  | trapped hok hrun hy => exact absurd (hrun.mie hy.mie) hoff
  | preempted hok hrun hy hrest => exact absurd (hrun.mie hy.mie) hoff
  | returning hc htp hscratch hcell =>
    -- what the call returned is lost with `a0`
    obtain ⟨y, hrun, hy⟩ := runs_preempted lay hscratch pc cell
    rw [htp] at hy
    refine .preempted ((hartOk_returning hc htp hscratch).timer hmode hmie pc) hrun hy fun r hr => ?_
    have hne : r ≠ .a0 := by
      rintro rfl
      cases hr
    rw [← hcell, Function.update_of_ne hne]

/-! ## User code -/

/-- In user code no trap is open. -/
theorem Phase.of_user (h : Phase lay ptr hptr regs x cell o) (hc : x.control = .user pc) :
    o = none ∧ x.mscratch = ptr ∧ SameRest cell regs := by
  cases h with
  | user hc' hscratch hrest => exact ⟨rfl, hscratch, hrest⟩
  | resuming hc' => cases hc.symm.trans hc'
  | trapped hok hrun hy =>
    obtain ⟨rfl, -⟩ := hrun.eq_of_not_asm fun l hl => by rw [hc] at hl; cases hl
    exact absurd hc hy.not_user
  | preempted hok hrun hy hrest =>
    obtain ⟨rfl, -⟩ := hrun.eq_of_not_asm fun l hl => by rw [hc] at hl; cases hl
    exact absurd hc hy.not_user
  | returning hc' => cases hc.symm.trans hc'

/-- User code traps. -/
theorem Phase.trap (h : Phase lay ptr hptr regs x cell o) (hc : x.control = .user pc)
    (hnum : lay.symbol .numOfSysnr = 11) (cause tval : Word) :
    Phase lay ptr hptr regs (x.takeTrap .user pc cause tval) cell
      (some ⟨context pc x.gpr, cause, tval⟩) := by
  obtain ⟨-, rfl, hrest⟩ := h.of_user hc
  obtain ⟨y, cell', hrun, hy⟩ := runs_trap hptr hnum pc cause tval cell
  refine .trapped (HartOk.trap ?_ hc (fun hn => absurd rfl hn) tval) hrun (hrest.arrived hy)
  unfold HartOk
  rw [hc]
  exact ⟨rfl, fun u hu => by cases hu⟩

/-! ## C code -/

/-- A hart in a function that returns to `trap.S` handles a trap. -/
theorem Phase.arrived (h : Phase lay ptr hptr regs x cell o) (hc : x.control = .handler rest) :
    ∃ t, o = some t ∧ Arrived lay ptr t x regs cell := by
  cases h with
  | user hc' => cases hc.symm.trans hc'
  | resuming hc' => cases hc.symm.trans hc'
  | trapped hok hrun hy =>
    obtain ⟨rfl, rfl⟩ := hrun.eq_of_not_asm fun l hl => by rw [hc] at hl; cases hl
    exact ⟨_, rfl, hy⟩
  | preempted hok hrun hy hrest =>
    obtain ⟨rfl, -⟩ := hrun.eq_of_not_asm fun l hl => by rw [hc] at hl; cases hl
    cases hc.symm.trans hy.control
  | returning hc' => cases hc.symm.trans hc'

/-- The registers of a process that yields are in its block. -/
theorem Phase.yield (h : Phase lay ptr hptr regs x cell o) (hc : x.control = .yield) :
    x.gpr .tp = ptr ∧ x.mscratch = 0 ∧ x.mie = false ∧
      cell = savedCell ((o.map Trapped.user).getD cell) regs := by
  cases h with
  | user hc' => cases hc.symm.trans hc'
  | resuming hc' => cases hc.symm.trans hc'
  | preempted hok hrun hy hrest =>
    obtain ⟨rfl, rfl⟩ := hrun.eq_of_not_asm fun l hl => by rw [hc] at hl; cases hl
    have hcell : savedCell cell cell = cell := funext fun r => ite_self (cell r)
    exact ⟨hy.tp, hy.mscratch, hy.mie, hcell.symm.trans (hrest.savedCell_eq cell)⟩
  | trapped hok hrun hy =>
    obtain ⟨rfl, rfl⟩ := hrun.eq_of_not_asm fun l hl => by rw [hc] at hl; cases hl
    refine ⟨hy.tp, hy.mscratch, hy.mie, ?_⟩
    cases hy.entry with
    | syscall _ hc' | exception _ _ hc' => cases hc.symm.trans hc'
    | timer _ _ hcell => exact hcell
  | returning hc' => cases hc.symm.trans hc'

/-- A hart in a phase has a process. -/
theorem Phase.not_start (h : Phase lay ptr hptr regs x cell o) : x.control ≠ .start := by
  intro hc
  cases h with
  | user hc' => cases hc.symm.trans hc'
  | resuming hc' => cases hc.symm.trans hc'
  | trapped hok hrun hy =>
    unfold HartOk at hok
    rw [hc] at hok
    exact hok.elim
  | preempted hok hrun hy hrest =>
    unfold HartOk at hok
    rw [hc] at hok
    exact hok.elim
  | returning hc' => cases hc.symm.trans hc'

/-- The way back ends with all registers in place. -/
theorem HartOk.mret {v : View} (hok : HartOk v cell x) (hc : x.control = .asm (.mret :: rest)) :
    x.mpp = .user ∧ ∀ u ∈ v.user, x.mepc = u .pc ∧ ∀ g, x.gpr g = u g.reg := by
  obtain ⟨σ, hcheck, hm⟩ := hok.asm hc
  simp only [Shadow.check, Bool.and_eq_true, decide_eq_true_eq] at hcheck
  obtain ⟨-, ⟨⟨hmpp, -⟩, hmepc⟩, hgpr⟩ := hcheck
  have hmepc' := hm.mepc
  rw [hmepc] at hmepc'
  refine ⟨hm.mppUser hmpp, fun u hu => ⟨hmepc' u hu, fun g => ?_⟩⟩
  have hg := hm.gpr g
  rw [of_decide_eq_true (List.all_eq_true.mp hgpr g g.mem_all)] at hg
  exact hg u hu

/-- The assembly on the way to C code has no `mret`. -/
theorem HartOk.runs_mret {v : View} {y : Hart} {cell' : Reg → Word} (hok : HartOk v cell x)
    (hc : x.control = .asm (.mret :: rest)) (hrun : Runs lay x cell y cell')
    (hy : ∀ l, y.control ≠ .asm l) : ∃ pc, y.control = .user pc := by
  obtain ⟨-, hrun'⟩ := hrun.next hc hy
  have hcontrol : (x.execCell lay cell rest .mret).control = .user x.mepc := by
    rw [Hart.execCell, Hart.exec, (hok.mret hc).1]
    exact fun _ _ h => by cases h
  obtain ⟨heq, -⟩ := hrun'.eq_of_not_asm fun l hl => by
    rw [hcontrol] at hl
    cases hl
  rw [heq] at hcontrol
  exact ⟨_, hcontrol⟩

/-- The `mret` at the end of the way back restores the registers that the process has. -/
theorem Phase.mret (h : Phase lay ptr hptr regs x cell o) (hc : x.control = .asm (.mret :: rest)) :
    x.mpp = .user ∧ x.mepc = regs .pc ∧ ∀ g, x.gpr g = regs g.reg := by
  cases h with
  | user hc' => cases hc.symm.trans hc'
  | resuming hc' hsd hok hrest =>
    obtain ⟨hmpp, hregs⟩ := hok.mret hc
    exact ⟨hmpp, hregs regs rfl⟩
  | trapped hok hrun hy =>
    obtain ⟨pc, hcontrol⟩ := hok.runs_mret hc hrun hy.not_asm
    exact absurd hcontrol hy.not_user
  | preempted hok hrun hy hrest =>
    obtain ⟨pc, hcontrol⟩ := hok.runs_mret hc hrun hy.not_asm
    exact absurd hcontrol hy.not_user
  | returning hc' => cases hc.symm.trans hc'

end Trap
end SepKernel
