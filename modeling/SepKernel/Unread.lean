import SepKernel.Exceptions
import SepKernel.Lib.TwoRuns
import SepKernel.Suspension

/-!
# Registers that the kernel does not look at

The registers of a process that a hart runs are in that hart, and what its control block has is out
of date. No call of another process and no round of the scheduler looks at it: run in two kernels
that differ there, they end in the same way, in kernels that differ there, and what was there
before still is. A supervisor and a sender acquire a process before they come to its registers, and
nobody acquires one that runs.
-/

namespace SepKernel

open Transition (Reachable)
open TwoRuns (Agrees Ignores)

variable {R : Nat → Prop} {ρ ρ' : Nat → Reg → Word} {cfg : Config} {s t : Kernel} {cap : Cap}
  {p q ch : Nat} {α β : Type}

/-- The kernels differ in the registers of the processes in `R` alone, and all of these run. -/
structure Unread (R : Nat → Prop) (ρ ρ' : Nat → Reg → Word) (s t : Kernel) : Prop where
  nodes : s.nodes = t.nodes
  schedule : s.schedule = t.schedule
  receivers : s.receivers = t.receivers
  history : s.history = t.history
  pid : ∀ q, (s.procs q).pid = (t.procs q).pid
  state : ∀ q, (s.procs q).state = (t.procs q).state
  regs : ∀ q, ¬ R q → (s.procs q).regs = (t.procs q).regs
  left : ∀ q, R q → (s.procs q).regs = ρ q
  right : ∀ q, R q → (t.procs q).regs = ρ' q
  running : ∀ q, R q → Running (s.procs q).state

/-- The kernel once the registers of the user code are saved. -/
def Kernel.save (k : Kernel) (p : Nat) (user : Reg → Word) : Kernel :=
  k.setProc p { k.procs p with regs := savedRegs k p user }

theorem saveContext_run (k : Kernel) (p : Nat) (user : Reg → Word) :
    (saveContext p user).run k = .ok ((), k.save p user) := rfl

/-- The kernel with other processes. -/
def Kernel.withProcs (ps : Nat → Proc) (s : Kernel) : Kernel := { s with procs := ps }

/-- The computation does not look at the processes. -/
def Procless (m : KernelM α) : Prop := ∀ ps, Ignores (Kernel.withProcs ps) m

/-! ## Nodes and tables -/

namespace Procless

theorem pure (a : α) : Procless (Pure.pure a) := fun _ => .pure a
theorem lift (x : Except Halt α) : Procless (liftM x) := fun _ => .lift x
theorem throw (e : Halt) : Procless (MonadExcept.throw e : KernelM α) := fun _ => .throw e

theorem bind {m : KernelM α} {f : α → KernelM β} (hm : Procless m) (hf : ∀ a, Procless (f a)) :
    Procless (m >>= f) := fun ps => (hm ps).bind fun a => hf a ps

theorem bind_get {f : Kernel → KernelM β} (h : ∀ s ps, f (s.withProcs ps) = f s)
    (hf : ∀ s, Procless (f s)) : Procless (get >>= f) :=
  fun ps => .bind_get (fun s => h s ps) fun s => hf s ps

theorem ite {c : Prop} [Decidable c] {m m' : KernelM α} (h : Procless m) (h' : Procless m') :
    Procless (if c then m else m') := fun ps => (h ps).ite (h' ps)

theorem deref (o : Option α) : Procless (deref o) := by
  cases o with
  | none => exact throw _
  | some a => exact pure a

theorem checkIndex (i len : Nat) : Procless (checkIndex i len) := ite (pure ()) (throw _)

theorem writeCap (n : NodeRef) (c : Cap) : Procless (writeCap n c) := fun _ => .update fun _ => rfl

theorem writeNext (n : NodeRef) (o : Option NodeRef) : Procless (writeNext n o) :=
  fun _ => .update fun _ => rfl

theorem writePrev (n : NodeRef) (o : Option NodeRef) : Procless (writePrev n o) :=
  fun _ => .update fun _ => rfl

theorem casPrev (n : NodeRef) (o o' : Option NodeRef) : Procless (casPrev n o o') :=
  bind_get (fun _ _ => rfl) fun _ => ite ((writePrev n o').bind fun _ => pure true) (pure false)

theorem capNodeIsDeleted (n : NodeRef) : Procless (capNodeIsDeleted n) :=
  bind_get (fun _ _ => rfl) fun _ => pure _

theorem capNodeGetCap (n : NodeRef) : Procless (capNodeGetCap n) :=
  bind_get (fun _ _ => rfl) fun _ => (capNodeIsDeleted n).bind fun _ => ite (pure _) (pure _)

theorem capNodeUnlinkNext (n m : NodeRef) (fuel : Nat) : Procless (capNodeUnlinkNext n m fuel) := by
  induction fuel with
  | zero => exact throw _
  | succ fuel ih =>
    refine bind_get (fun _ _ => rfl) fun s => (deref _).bind fun next => ?_
    exact (casPrev next _ _).bind fun _ => ite (pure next) ih

theorem capNodeDelete2 (n m : NodeRef) : Procless (capNodeDelete2 cfg n m) := by
  refine (casPrev n _ _).bind fun _ => ite (pure false) ?_
  exact (capNodeUnlinkNext n m _).bind fun next => (writeNext m _).bind fun _ => pure true

theorem capNodeDeleteLoop (n : NodeRef) (fuel : Nat) : Procless (capNodeDeleteLoop cfg n fuel) := by
  induction fuel with
  | zero => exact throw _
  | succ fuel ih =>
    refine bind_get (fun _ _ => rfl) fun s => ?_
    cases (s.nodes n).prev with
    | none => exact pure false
    | some prev => exact (capNodeDelete2 n prev).bind fun _ => ite (pure true) ih

theorem capNodeInsertLoop (n m : NodeRef) (fuel : Nat) (next : Option NodeRef) :
    Procless (capNodeInsertLoop n m fuel next) := by
  induction fuel generalizing next with
  | zero => exact throw _
  | succ fuel ih =>
    refine bind_get (fun _ _ => rfl) fun s => ite (pure false) ?_
    refine (writeNext n next).bind fun _ => (deref next).bind fun next' => ?_
    refine (casPrev next' _ _).bind fun _ => ite ?_ (bind_get (fun _ _ => rfl) fun _ => ih _)
    exact (writeNext m _).bind fun _ => (writePrev n _).bind fun _ => pure true

theorem capNodeInsert (c : Cap) (n m : NodeRef) : Procless (capNodeInsert cfg c n m) := by
  refine bind_get (fun _ _ => rfl) fun s => (lift _).bind fun _ => (writeCap n c).bind fun _ => ?_
  exact bind_get (fun _ _ => rfl) fun s => capNodeInsertLoop n m _ _

theorem record (e : CapEvent) : Procless (modify fun s => s.record e) := fun _ => .update fun _ => rfl

theorem capNodeMove (c : Cap) (n m : NodeRef) : Procless (capNodeMove cfg c n m) := by
  refine (capNodeInsert c m n).bind fun _ => ite (pure false) ?_
  exact (record _).bind fun _ => capNodeDeleteLoop n _

theorem schedSet (q hart : Nat) (pid length : Word) : Procless (schedSet cfg q hart pid length) :=
  (lift _).bind fun _ => (lift _).bind fun _ => (lift _).bind fun _ => (lift _).bind fun _ =>
    fun _ => .update fun _ => rfl

theorem schedUpdateLoop (hart stop : Nat) (pid : Word) (n : Nat) :
    Procless (schedUpdateLoop cfg hart stop pid n) := by
  induction n with
  | zero => exact pure ()
  | succ n ih => exact (schedSet _ _ _ _).bind fun _ => ih

theorem schedUpdate (n : NodeRef) (hartid lo hi pid : Word) :
    Procless (schedUpdate cfg n hartid lo hi pid) := by
  refine (lift _).bind fun _ => (lift _).bind fun _ => (lift _).bind fun _ => (lift _).bind fun _ => ?_
  exact (capNodeIsDeleted n).bind fun _ => ite (schedUpdateLoop _ _ _ _) (pure ())

theorem readReceiver (ch : Nat) (k : Fin 2) : Procless (readReceiver cfg ch k) :=
  (checkIndex _ _).bind fun _ => bind_get (fun _ _ => rfl) fun _ => pure _

theorem writeReceiver (ch : Nat) (k : Fin 2) (x : Option Nat) :
    Procless (writeReceiver cfg ch k x) :=
  (checkIndex _ _).bind fun _ => fun _ => .update fun _ => rfl

theorem casReceiver (ch : Nat) (k : Fin 2) (x y : Option Nat) :
    Procless (casReceiver cfg ch k x y) :=
  (readReceiver ch k).bind fun _ => ite ((writeReceiver ch k y).bind fun _ => pure _) (pure _)

theorem processAt (pid : Word) : Procless (processAt cfg pid) :=
  (checkIndex _ _).bind fun _ => pure _

theorem receiversUpdate (proc : Option Nat) (n : NodeRef) (channel : Word) :
    Procless (receiversUpdate cfg proc n channel) := by
  refine (capNodeIsDeleted n).bind fun _ => ite ?_ (pure ())
  exact (writeReceiver _ _ _).bind fun _ => ite (writeReceiver _ _ _) (pure ())

theorem procs_eq {m : KernelM α} {a : α} {s' : Kernel} (hm : Procless m)
    (hrun : m.run s = .ok (a, s')) : s'.procs = s.procs := by
  have h : m.run s = (m.run s).map fun x => (x.1, x.2.withProcs s.procs) := hm s.procs s
  rw [hrun] at h
  have heq : s' = s'.withProcs s.procs := (Prod.mk.inj (Except.ok.inj h)).2
  rw [heq]
  rfl

end Procless

namespace Unread

theorem eq_withProcs (h : Unread R ρ ρ' s t) : t = s.withProcs t.procs := by
  obtain ⟨nodes, procs, schedule, receivers, history⟩ := s
  obtain ⟨nodes', procs', schedule', receivers', history'⟩ := t
  obtain rfl : nodes = nodes' := h.nodes
  obtain rfl : schedule = schedule' := h.schedule
  obtain rfl : receivers = receivers' := h.receivers
  obtain rfl : history = history' := h.history
  rfl

theorem agrees {m : KernelM α} (hm : Procless m) (h : Unread R ρ ρ' s t) :
    Agrees (Unread R ρ ρ') m s t := by
  have ht : m.run t = (m.run s).map fun x => (x.1, x.2.withProcs t.procs) := by
    rw [h.eq_withProcs]
    exact hm t.procs s
  cases hs : m.run s with
  | error e =>
    rw [hs] at ht
    exact .of_errors hs ht
  | ok x =>
    rw [hs] at ht
    have hprocs : x.2.procs = s.procs := hm.procs_eq hs
    exact .of_runs hs ht {
      nodes := rfl
      schedule := rfl
      receivers := rfl
      history := rfl
      pid := fun q => by
        rw [hprocs]
        exact h.pid q
      state := fun q => by
        rw [hprocs]
        exact h.state q
      regs := fun q hq => by
        rw [hprocs]
        exact h.regs q hq
      left := fun q hq => by
        rw [hprocs]
        exact h.left q hq
      right := h.right
      running := fun q hq => by
        rw [hprocs]
        exact h.running q hq }

/-! ## Processes -/

theorem ne_of_not (hp : ¬ R p) (hq : R q) : q ≠ p := by
  rintro rfl
  exact hp hq

/-- A process whose registers are known is replaced in both. -/
theorem setProc {x y : Proc} (h : Unread R ρ ρ' s t) (hp : ¬ R p) (hpid : x.pid = y.pid)
    (hstate : x.state = y.state) (hregs : x.regs = y.regs) :
    Unread R ρ ρ' (s.setProc p x) (t.setProc p y) where
  nodes := h.nodes
  schedule := h.schedule
  receivers := h.receivers
  history := h.history
  pid q := by
    by_cases hq : q = p
    · rw [hq, Kernel.procs_setProc_same, Kernel.procs_setProc_same, hpid]
    · rw [Kernel.procs_setProc_of_ne _ hq, Kernel.procs_setProc_of_ne _ hq, h.pid]
  state q := by
    by_cases hq : q = p
    · rw [hq, Kernel.procs_setProc_same, Kernel.procs_setProc_same, hstate]
    · rw [Kernel.procs_setProc_of_ne _ hq, Kernel.procs_setProc_of_ne _ hq, h.state]
  regs q hR := by
    by_cases hq : q = p
    · rw [hq, Kernel.procs_setProc_same, Kernel.procs_setProc_same, hregs]
    · rw [Kernel.procs_setProc_of_ne _ hq, Kernel.procs_setProc_of_ne _ hq, h.regs q hR]
  left q hR := by
    rw [Kernel.procs_setProc_of_ne _ (ne_of_not hp hR), h.left q hR]
  right q hR := by
    rw [Kernel.procs_setProc_of_ne _ (ne_of_not hp hR), h.right q hR]
  running q hR := by
    rw [Kernel.procs_setProc_of_ne _ (ne_of_not hp hR)]
    exact h.running q hR

theorem setReg (h : Unread R ρ ρ' s t) (hp : ¬ R p) (r : Reg) (x : Word) :
    Unread R ρ ρ' (s.setReg p r x) (t.setReg p r x) :=
  h.setProc hp (h.pid p) (h.state p) (by rw [h.regs p hp])

/-- The state of any process; one in `R` goes on running. -/
theorem setState {x : Word} (h : Unread R ρ ρ' s t) (hx : R p → Running x) :
    Unread R ρ ρ' (s.setState p x) (t.setState p x) := by
  have hregs : ∀ (k : Kernel) (q : Nat), ((k.setState p x).procs q).regs = (k.procs q).regs := by
    intro k q
    by_cases hq : q = p
    · rw [hq, Kernel.setState, Kernel.procs_setProc_same]
    · rw [Kernel.procs_setState_of_ne _ hq]
  have hpid : ∀ (k : Kernel) (q : Nat), ((k.setState p x).procs q).pid = (k.procs q).pid := by
    intro k q
    by_cases hq : q = p
    · rw [hq, Kernel.setState, Kernel.procs_setProc_same]
    · rw [Kernel.procs_setState_of_ne _ hq]
  have hstate : ∀ (k : Kernel) (q : Nat), ((k.setState p x).procs q).state =
      if q = p then x else (k.procs q).state := by
    intro k q
    by_cases hq : q = p
    · rw [hq, if_pos rfl, Kernel.setState, Kernel.procs_setProc_same]
    · rw [if_neg hq, Kernel.procs_setState_of_ne _ hq]
  exact {
    nodes := h.nodes
    schedule := h.schedule
    receivers := h.receivers
    history := h.history
    pid := fun q => by rw [hpid, hpid, h.pid]
    state := fun q => by rw [hstate, hstate, h.state]
    regs := fun q hq => by rw [hregs, hregs, h.regs q hq]
    left := fun q hq => by rw [hregs, h.left q hq]
    right := fun q hq => by rw [hregs, h.right q hq]
    running := fun q hq => by
      rw [hstate]
      split
      · next he => exact hx (he ▸ hq)
      · exact h.running q hq }

theorem readReg (h : Unread R ρ ρ' s t) (hp : ¬ R p) (r : Reg) :
    Agrees (Unread R ρ ρ') (readReg p r) s t := by
  refine .of_runs (readReg_run p r s) ?_ h
  rw [h.regs p hp]
  exact readReg_run p r t

theorem writeReg (h : Unread R ρ ρ' s t) (hp : ¬ R p) (r : Reg) (x : Word) :
    Agrees (Unread R ρ ρ') (writeReg p r x) s t := .update (h.setReg hp r x)

theorem readState (h : Unread R ρ ρ' s t) (p : Nat) :
    Agrees (Unread R ρ ρ') (readState p) s t := by
  refine .of_runs (readState_run p s) ?_ h
  rw [h.state p]
  exact readState_run p t

theorem writeState {x : Word} (h : Unread R ρ ρ' s t) (hx : R p → Running x) :
    Agrees (Unread R ρ ρ') (writeState p x) s t := .update (h.setState hx)

/-- From a word that no running process has. -/
theorem casState {x y : Word} (h : Unread R ρ ρ' s t) (hx : ¬ Running x) :
    Agrees (Unread R ρ ρ') (casState p x y) s t := by
  refine (h.readState p).bind fun z s' t' hs ht h' => .ite (fun hz => ?_) fun _ => .pure false h'
  rw [readState_run] at hs
  obtain ⟨rfl, rfl⟩ := Prod.mk.inj (Except.ok.inj hs)
  refine (h'.writeState fun hR => absurd (hz ▸ h'.running p hR) hx).bind fun _ s t _ _ h => ?_
  exact .pure true h

theorem casState_self {x y : Word} (h : Unread R ρ ρ' s t) (hp : ¬ R p) :
    Agrees (Unread R ρ ρ') (SepKernel.casState p x y) s t := by
  refine (h.readState p).bind fun z s t _ _ h => .ite (fun _ => ?_) fun _ => .pure false h
  exact (h.writeState fun hR => absurd hR hp).bind fun _ s t _ _ h => .pure true h

/-- What a successful exchange says about the process. -/
theorem not_of_cas {x y : Word} {s' : Kernel} (h : Unread R ρ ρ' s t) (hx : ¬ Running x)
    (hs : (SepKernel.casState p x y).run s = .ok (true, s')) : ¬ R p := by
  intro hR
  have hne : (s.procs p).state ≠ x := fun he => hx (he ▸ h.running p hR)
  rw [casState_run_of_ne hne] at hs
  cases hs

theorem fetchAndAndState (h : Unread R ρ ρ' s t) (hp : ¬ R p) (x : Word) :
    Agrees (Unread R ρ ρ') (fetchAndAndState p x) s t := by
  refine (h.readState p).bind fun z s t _ _ h => ?_
  exact (h.writeState fun hR => absurd hR hp).bind fun _ s t _ _ h => .pure z h

theorem not_running_suspended : ¬ Running procStateSuspended := by decide

theorem not_running_waitingOn (ch : Word) : ¬ Running (waitingOn ch) := by
  rintro (h | h)
  · exact waitingOn_ne (by decide) h
  · exact waitingOn_ne (by decide) h

theorem procRelease (h : Unread R ρ ρ' s t) (hp : ¬ R p) :
    Agrees (Unread R ρ ρ') (procRelease p) s t := by
  refine (h.readState p).bind fun z s t _ _ h => .ite (fun _ => ?_) fun _ => .pure _ h
  exact (h.fetchAndAndState hp _).bind fun _ s t _ _ h => .pure _ h

theorem schedYield (h : Unread R ρ ρ' s t) (hp : ¬ R p) :
    Agrees (Unread R ρ ρ') (schedYield p) s t :=
  (h.procRelease hp).bind fun _ _ _ _ _ h => .pure _ h

theorem procSenderRelease (h : Unread R ρ ρ' s t) (hp : ¬ R p) :
    Agrees (Unread R ρ ρ') (procSenderRelease p) s t :=
  (h.fetchAndAndState hp _).bind fun _ _ _ _ _ h => .pure _ h

theorem procSupervisorResume (h : Unread R ρ ρ' s t) :
    Agrees (Unread R ρ ρ') (procSupervisorResume p) s t := by
  refine (h.casState not_running_suspended).bind fun b _ _ hs _ h' => .ite (fun hb => ?_)
    fun _ => .pure _ h'
  subst hb
  have hp : ¬ R p := h.not_of_cas not_running_suspended hs
  exact (h'.writeState fun hR => absurd hR hp).bind fun _ s t _ _ h => .pure _ h

theorem procSupervisorRelease (h : Unread R ρ ρ' s t) (hp : ¬ R p) :
    Agrees (Unread R ρ ρ') (procSupervisorRelease p) s t := by
  refine (h.readState p).bind fun z s t _ _ h => ?_
  exact (Agrees.lift _ h).bind fun _ s t _ _ h => h.writeState fun hR => absurd hR hp

theorem procSupervisorSuspend (h : Unread R ρ ρ' s t) :
    Agrees (Unread R ρ ρ') (procSupervisorSuspend p) s t := by
  refine Agrees.bind (m := fetchAndOrState p procStateSuspended) ?_ fun z s' t' hs _ h' =>
    .ite (fun _ => .pure _ h') fun _ => .ite (fun hz => ?_) fun _ => .pure _ h'
  · refine (h.readState p).bind fun z s' t' hs _ h' => ?_
    rw [readState_run] at hs
    obtain ⟨rfl, rfl⟩ := Prod.mk.inj (Except.ok.inj hs)
    refine (h'.writeState fun hR => Or.inr ?_).bind fun _ s t _ _ h => .pure _ h
    rcases h'.running p hR with he | he
    · rw [he]
      decide
    · rw [he]
      decide
  · -- a process that waits does not run
    have hp : ¬ R p := by
      intro hR
      have hrun : (fetchAndOrState p procStateSuspended).run s =
          .ok ((s.procs p).state, s.setState p ((s.procs p).state ||| procStateSuspended)) := rfl
      obtain ⟨rfl, -⟩ := Prod.mk.inj (Except.ok.inj (hrun.symm.trans hs))
      rcases h.running p hR with he | he
      · rw [he] at hz
        exact absurd hz (by decide)
      · rw [he] at hz
        exact absurd hz (by decide)
    exact (h'.writeState fun hR => absurd hR hp).bind fun _ s t _ _ h => .pure _ h

theorem procReadRegister (h : Unread R ρ ρ' s t) (hp : ¬ R p) (regi : Word) :
    Agrees (Unread R ρ ρ') (procReadRegister p regi) s t := by
  rw [SepKernel.procReadRegister]
  cases Reg.all[regi.toNat]? with
  | none => exact .pure _ h
  | some r => exact h.readReg hp r

theorem procWriteRegister (h : Unread R ρ ρ' s t) (hp : ¬ R p) (regi regv : Word) :
    Agrees (Unread R ρ ρ') (procWriteRegister p regi regv) s t := by
  rw [SepKernel.procWriteRegister]
  cases Reg.all[regi.toNat]? with
  | none => exact .pure _ h
  | some r =>
    refine (h.readReg hp r).bind fun z s t _ _ h => ?_
    exact (h.writeReg hp r _).bind fun _ s t _ _ h => .pure z h

/-! ## The internal functions of `src/syscall.c` -/

theorem capUpdateHook (h : Unread R ρ ρ' s t) (proc : Option Nat) (n : NodeRef) (c : Cap) :
    Agrees (Unread R ρ ρ') (capUpdateHook cfg proc n c) s t := by
  have hrest : Procless (do
      if capIsType c .receiver then
        receiversUpdate cfg proc n (← Gen.capReceiverGetChannel c)
      if capIsType c .server then
        receiversUpdate cfg proc n (← Gen.capServerGetChannel c)) := by
    have hserver : Procless (if capIsType c .server = true then do
        receiversUpdate cfg proc n (← Gen.capServerGetChannel c) else pure ()) :=
      .ite ((Procless.lift _).bind fun ch => .receiversUpdate proc n ch) (.pure ())
    refine .ite ((Procless.lift _).bind fun ch => ?_) hserver
    exact (Procless.receiversUpdate proc n ch).bind fun _ => hserver
  unfold SepKernel.capUpdateHook
  refine .ite (fun _ => ?_) fun _ => h.agrees hrest
  refine (Agrees.lift _ h).bind fun hartid s t _ _ h => (Agrees.lift _ h).bind fun lo s t _ _ h => ?_
  refine (Agrees.lift _ h).bind fun hi s t _ _ h => ?_
  have hupdate : ∀ pid : Word, Procless (do
      schedUpdate cfg n hartid lo hi pid
      if capIsType c .receiver then
        receiversUpdate cfg proc n (← Gen.capReceiverGetChannel c)
      if capIsType c .server then
        receiversUpdate cfg proc n (← Gen.capServerGetChannel c)) :=
    fun pid => (Procless.schedUpdate n hartid lo hi pid).bind fun _ => hrest
  cases proc with
  | none => exact h.agrees (hupdate _)
  | some q =>
    refine .bind_get ?_
    rw [h.pid q]
    exact h.agrees (hupdate _)

theorem interprocessMove (h : Unread R ρ ρ' s t) (p : Nat) (srcCidx : Word) (q : Nat)
    (destCidx : Word) :
    Agrees (Unread R ρ ρ') (interprocessMove cfg p srcCidx q destCidx) s t := by
  unfold SepKernel.interprocessMove
  refine (h.agrees (.capNodeGetCap _)).bind fun c s t _ _ h => ?_
  refine (h.agrees (.capNodeIsDeleted _)).bind fun b s t _ _ h => .ite (fun _ => .pure _ h) fun _ => ?_
  refine (h.agrees (.capNodeIsDeleted _)).bind fun b s t _ _ h => .ite (fun _ => .pure _ h) fun _ => ?_
  refine (h.capUpdateHook _ _ c).bind fun _ s t _ _ h => ?_
  exact (h.agrees (.capNodeMove c _ _)).bind fun b s t _ _ h => .pure _ h

/-! ## Capability calls -/

theorem syscallReadCap (h : Unread R ρ ρ' s t) (hp : ¬ R p) (cidx : Word) :
    Agrees (Unread R ρ ρ') (syscallReadCap cfg p cidx) s t := by
  refine (h.agrees (.capNodeGetCap _)).bind fun c s t _ _ h => ?_
  refine (h.writeReg hp _ _).bind fun _ s t _ _ h => ?_
  exact (h.writeReg hp _ _).bind fun _ s t _ _ h => .pure _ h

theorem syscallMoveCap (h : Unread R ρ ρ' s t) (p : Nat) (srcCidx destCidx : Word) :
    Agrees (Unread R ρ ρ') (syscallMoveCap cfg p srcCidx destCidx) s t := by
  refine (h.agrees (.capNodeGetCap _)).bind fun c s t _ _ h => ?_
  refine (h.agrees (.capNodeIsDeleted _)).bind fun b s t _ _ h => .ite (fun _ => .pure _ h) fun _ => ?_
  refine (h.agrees (.capNodeIsDeleted _)).bind fun b s t _ _ h => .ite (fun _ => .pure _ h) fun _ => ?_
  exact (h.agrees (.capNodeMove c _ _)).bind fun b s t _ _ h => .pure _ h

theorem syscallDeleteCap (h : Unread R ρ ρ' s t) (p : Nat) (cidx : Word) :
    Agrees (Unread R ρ ρ') (syscallDeleteCap cfg p cidx) s t := by
  refine (h.agrees (.capNodeGetCap _)).bind fun c s t _ _ h => ?_
  refine (h.agrees (.capNodeIsDeleted _)).bind fun b s t _ _ h => .ite (fun _ => .pure _ h) fun _ => ?_
  refine (h.agrees (.capNodeDeleteLoop _ _)).bind fun b s t _ _ h => .ite (fun _ => .pure _ h)
    fun _ => ?_
  exact (h.capUpdateHook none _ c).bind fun _ s t _ _ h => .pure _ h

theorem revokeLoop (h : Unread R ρ ρ' s t) (p : Nat) (n : NodeRef) (c : Cap) (fuel : Nat) :
    Agrees (Unread R ρ ρ') (revokeLoop cfg p n c fuel) s t := by
  induction fuel generalizing s t with
  | zero => exact .throw _
  | succ fuel ih =>
    refine (h.agrees (.capNodeIsDeleted _)).bind fun b s t _ _ h => .ite (fun _ => .pure _ h)
      fun _ => .bind_get ?_
    rw [h.nodes]
    refine (h.agrees (.deref _)).bind fun next s t _ _ h => .bind_get ?_
    rw [h.nodes]
    refine (Agrees.lift _ h).bind fun b s t _ _ h => .ite (fun _ => .pure _ h) fun _ => ?_
    refine (h.agrees (.capNodeDelete2 _ _)).bind fun b s t _ _ h => .ite (fun _ => ?_) fun _ => ih h
    exact (h.capUpdateHook _ _ _).bind fun _ s t _ _ h => ih h

theorem syscallRevokeCap (h : Unread R ρ ρ' s t) (hp : ¬ R p) (cidx : Word) :
    Agrees (Unread R ρ ρ') (syscallRevokeCap cfg p cidx) s t := by
  refine (h.writeReg hp _ _).bind fun _ s t _ _ h => .bind_get ?_
  rw [h.nodes]
  refine (h.agrees (.capNodeIsDeleted _)).bind fun b s t _ _ h => .ite (fun _ => .pure _ h) fun _ => ?_
  refine (h.revokeLoop p _ _ _).bind fun _ s t _ _ h => ?_
  refine (Agrees.lift _ h).bind fun c s t _ _ h => (h.agrees (.writeCap _ c)).bind fun _ s t _ _ h => ?_
  exact (h.capUpdateHook _ _ _).bind fun _ s t _ _ h => .pure _ h

theorem syscallDeriveCap (h : Unread R ρ ρ' s t) (hp : ¬ R p)
    (srcCidx destCidx word0 word1 : Word) :
    Agrees (Unread R ρ ρ') (syscallDeriveCap cfg p srcCidx destCidx word0 word1) s t := by
  refine (h.writeReg hp _ _).bind fun _ s t _ _ h => ?_
  refine (h.agrees (.capNodeGetCap _)).bind fun c s t _ _ h => ?_
  refine (h.agrees (.capNodeIsDeleted _)).bind fun b s t _ _ h => .ite (fun _ => .pure _ h) fun _ => ?_
  refine (h.agrees (.capNodeIsDeleted _)).bind fun b s t _ _ h => .ite (fun _ => .pure _ h) fun _ => ?_
  refine (Agrees.lift _ h).bind fun b s t _ _ h => .ite (fun _ => .pure _ h) fun _ => ?_
  refine (Agrees.lift _ h).bind fun c' s t _ _ h => ?_
  refine (h.agrees (.writeCap _ c')).bind fun _ s t _ _ h => ?_
  refine (h.capUpdateHook _ _ _).bind fun _ s t _ _ h => ?_
  refine (h.agrees (.capNodeInsert _ _ _)).bind fun b s t _ _ h => .ite (fun _ => ?_)
    fun _ => .pure _ h
  exact (h.agrees (.record _)).bind fun _ s t _ _ h => .pure _ h

/-! ## Invocations -/

/-- What a supervisor does with a process that it has acquired. -/
theorem bind_supervisorAcquire {f : KernelM Outcome} (h : Unread R ρ ρ' s t)
    (hf : ∀ {s t}, ¬ R q → Unread R ρ ρ' s t → Agrees (Unread R ρ ρ') f s t) :
    Agrees (Unread R ρ ρ') (do
      if !(← procSupervisorAcquire q) then
        return .ret errorSuperviseeBusy
      f) s t := by
  refine (h.casState not_running_suspended).bind fun b s' t' hs _ h' => ?_
  cases b with
  | false => exact .pure _ h'
  | true => exact hf (h.not_of_cas not_running_suspended hs) h'

theorem supervisorMove {r : Nat} (h : Unread R ρ ρ' s t) (p : Nat) (srcCidx : Word) (q : Nat)
    (destCidx : Word) :
    Agrees (Unread R ρ ρ') (supervisorMove cfg r p srcCidx q destCidx) s t := by
  refine h.bind_supervisorAcquire fun hr h => ?_
  refine (h.interprocessMove p _ q _).bind fun code s t _ _ h => ?_
  exact (h.procSupervisorRelease hr).bind fun _ s t _ _ h => .pure _ h

theorem syscallInvokeSupervisor (h : Unread R ρ ρ' s t) (hp : ¬ R p) (c : Cap)
    (pid op arg0 arg1 : Word) :
    Agrees (Unread R ρ ρ') (syscallInvokeSupervisor cfg p c pid op arg0 arg1) s t := by
  refine (Agrees.lift _ h).bind fun _ s t _ _ h => (Agrees.lift _ h).bind fun lo s t _ _ h => ?_
  refine (Agrees.lift _ h).bind fun hi s t _ _ h => .ite (fun _ => .pure _ h) fun _ => ?_
  refine (h.agrees (.processAt pid)).bind fun q s t _ _ h => ?_
  cases op.toNat using supervisorOp_cases with
  | suspend => exact h.procSupervisorSuspend.bind fun b s t _ _ h => .pure _ h
  | resume => exact h.procSupervisorResume.bind fun b s t _ _ h => .pure _ h
  | getState =>
    refine (h.readState q).bind fun x s t _ _ h => ?_
    exact (h.writeReg hp _ x).bind fun _ s t _ _ h => .pure _ h
  | readReg =>
    refine h.bind_supervisorAcquire fun hq h => ?_
    refine (h.procReadRegister hq _).bind fun x s t _ _ h => ?_
    refine (h.writeReg hp _ x).bind fun _ s t _ _ h => ?_
    exact (h.procSupervisorRelease hq).bind fun _ s t _ _ h => .pure _ h
  | writeReg =>
    refine h.bind_supervisorAcquire fun hq h => ?_
    refine (h.procWriteRegister hq _ _).bind fun _ s t _ _ h => ?_
    exact (h.procSupervisorRelease hq).bind fun _ s t _ _ h => .pure _ h
  | readCap =>
    refine h.bind_supervisorAcquire fun hq h => ?_
    refine (h.agrees (.capNodeGetCap _)).bind fun c s t _ _ h => ?_
    refine (h.writeReg hp _ _).bind fun _ s t _ _ h => ?_
    refine (h.writeReg hp _ _).bind fun _ s t _ _ h => ?_
    exact (h.procSupervisorRelease hq).bind fun _ s t _ _ h => .pure _ h
  | giveCap => exact h.supervisorMove p _ q _
  | takeCap => exact h.supervisorMove q _ p _
  | unimplemented n => exact .pure _ h

theorem wait_yield (h : Unread R ρ ρ' s t) (hp : ¬ R p) (channel : Word) :
    Agrees (Unread R ρ ρ') (do
      let _ ← procReceiverWait p channel
      SepKernel.schedYield p) s t :=
  (h.casState_self hp).bind fun _ _ _ _ _ h => h.schedYield hp

theorem syscallInvokeReceiver (h : Unread R ρ ρ' s t) (hp : ¬ R p) (c : Cap) :
    Agrees (Unread R ρ ρ') (syscallInvokeReceiver p c) s t :=
  (Agrees.lift _ h).bind fun _ _ _ _ _ h => (Agrees.lift _ h).bind fun channel _ _ _ _ h =>
    h.wait_yield hp channel

theorem deliver {r : Nat} (h : Unread R ρ ρ' s t) (hr : ¬ R r) (p : Nat)
    (msg0 msg1 msg2 msg3 srcCidx : Word) :
    Agrees (Unread R ρ ρ') (deliver cfg p r msg0 msg1 msg2 msg3 srcCidx) s t := by
  have hmsg : ∀ s t, Unread R ρ ρ' s t → Agrees (Unread R ρ ρ') (do
      SepKernel.writeReg r .a0 errorOk
      SepKernel.writeReg r .a1 msg0
      SepKernel.writeReg r .a2 msg1
      SepKernel.writeReg r .a3 msg2
      SepKernel.writeReg r .a4 msg3) s t := fun s t h => by
    refine (h.writeReg hr _ _).bind fun _ s t _ _ h => ?_
    refine (h.writeReg hr _ _).bind fun _ s t _ _ h => ?_
    refine (h.writeReg hr _ _).bind fun _ s t _ _ h => ?_
    exact (h.writeReg hr _ _).bind fun _ s t _ _ h => h.writeReg hr _ _
  refine (h.readReg hr _).bind fun destCidx s t _ _ h => .ite (fun _ => ?_) fun _ => hmsg s t h
  exact (h.interprocessMove p _ r _).bind fun _ s t _ _ h => hmsg s t h

/-- What an invocation does with a process that it has acquired. -/
theorem bind_acquire {channel : Word} {k : Fin 2} {g : Option Nat → KernelM Outcome}
    (h : Unread R ρ ρ' s t)
    (hg : ∀ o s t, (∀ r, o = some r → ¬ R r) → Unread R ρ ρ' s t →
      Agrees (Unread R ρ ρ') (g o) s t) :
    Agrees (Unread R ρ ρ') (do
      g (← SepKernel.acquireReceiver (← SepKernel.readReceiver cfg channel.toNat k) channel)) s t := by
  refine (h.agrees (.readReceiver _ k)).bind fun proc s t _ _ h => ?_
  cases proc with
  | none => exact hg none s t (fun _ hr => by cases hr) h
  | some r =>
    refine Agrees.bind (R := Unread R ρ ρ') (m := SepKernel.acquireReceiver (some r) channel)
      ((h.casState (not_running_waitingOn channel)).bind fun b s t _ _ h => .pure _ h)
      fun o s' t' hs _ h' => hg o s' t' (fun r' hr => ?_) h'
    subst hr
    obtain ⟨b, s₁, hcas, hb⟩ := run_bind_inv hs
    cases b with
    | false => cases hb
    | true =>
      cases hb
      exact h.not_of_cas (not_running_waitingOn channel) hcas

theorem syscallInvokeSender (h : Unread R ρ ρ' s t) (p : Nat) (c : Cap)
    (msg0 msg1 msg2 msg3 srcCidx : Word) :
    Agrees (Unread R ρ ρ') (syscallInvokeSender cfg p c msg0 msg1 msg2 msg3 srcCidx) s t := by
  refine (Agrees.lift _ h).bind fun _ s t _ _ h => (Agrees.lift _ h).bind fun channel s t _ _ h => ?_
  refine h.bind_acquire fun o s t ho h => ?_
  cases o with
  | none => exact .pure _ h
  | some r =>
    refine (h.deliver (ho r rfl) _ _ _ _ _ _).bind fun _ s t _ _ h => ?_
    exact (h.procSenderRelease (ho r rfl)).bind fun _ s t _ _ h => .pure _ h

theorem syscallInvokeServer (h : Unread R ρ ρ' s t) (hp : ¬ R p) (c : Cap)
    (msg0 msg1 msg2 msg3 srcCidx : Word) :
    Agrees (Unread R ρ ρ') (syscallInvokeServer cfg p c msg0 msg1 msg2 msg3 srcCidx) s t := by
  refine (Agrees.lift _ h).bind fun _ s t _ _ h => (Agrees.lift _ h).bind fun channel s t _ _ h => ?_
  refine h.bind_acquire fun o s t ho h => ?_
  cases o with
  | none => exact h.wait_yield hp _
  | some r =>
    refine (h.deliver (ho r rfl) _ _ _ _ _ _).bind fun _ s t _ _ h => ?_
    exact (h.procSenderRelease (ho r rfl)).bind fun _ s t _ _ h => h.wait_yield hp _

theorem syscallInvokeClient (h : Unread R ρ ρ' s t) (hp : ¬ R p) (c : Cap)
    (msg0 msg1 msg2 msg3 srcCidx : Word) :
    Agrees (Unread R ρ ρ') (syscallInvokeClient cfg p c msg0 msg1 msg2 msg3 srcCidx) s t := by
  refine (Agrees.lift _ h).bind fun _ s t _ _ h => (Agrees.lift _ h).bind fun channel s t _ _ h => ?_
  refine h.bind_acquire fun o s t ho h => ?_
  cases o with
  | none => exact .pure _ h
  | some r =>
    refine (h.deliver (ho r rfl) _ _ _ _ _ _).bind fun _ s t _ _ h => ?_
    refine (h.agrees (.casReceiver _ _ _ _)).bind fun _ s t _ _ h => ?_
    refine (h.casState_self hp).bind fun _ s t _ _ h => (h.writeReg hp _ _).bind fun _ s t _ _ h => ?_
    exact (h.procSenderRelease (ho r rfl)).bind fun _ s t _ _ h => h.schedYield hp

theorem syscallInvokeCap (h : Unread R ρ ρ' s t) (hp : ¬ R p)
    (cidx arg1 arg2 arg3 arg4 arg5 : Word) :
    Agrees (Unread R ρ ρ') (syscallInvokeCap cfg p cidx arg1 arg2 arg3 arg4 arg5) s t := by
  refine (h.agrees (.capNodeGetCap _)).bind fun c s t _ _ h => .ite (fun _ => .pure _ h) fun _ => ?_
  refine .ite (fun _ => h.syscallInvokeSupervisor hp c _ _ _ _) fun _ => ?_
  refine .ite (fun _ => h.syscallInvokeReceiver hp c) fun _ => ?_
  refine .ite (fun _ => h.syscallInvokeSender p c _ _ _ _ _) fun _ => ?_
  refine .ite (fun _ => h.syscallInvokeServer hp c _ _ _ _ _) fun _ => ?_
  exact .ite (fun _ => h.syscallInvokeClient hp c _ _ _ _ _) fun _ => .pure _ h

/-! ## Traps -/

theorem syscallYield (h : Unread R ρ ρ' s t) (hp : ¬ R p) (mtimecmp : Word) :
    Agrees (Unread R ρ ρ') (syscallYield p mtimecmp) s t := by
  refine (h.writeReg hp _ _).bind fun _ s t _ _ h => (h.writeReg hp _ _).bind fun _ s t _ _ h => ?_
  exact h.schedYield hp

/-- A call of a process that is not in `R`. -/
theorem syscallVector (h : Unread R ρ ρ' s t) (hp : ¬ R p) (mtimecmp : Word) (user : Reg → Word) :
    Agrees (Unread R ρ ρ') (syscallVector cfg p mtimecmp user) s t := by
  unfold SepKernel.syscallVector
  split
  · exact h.syscallReadCap hp _
  · exact h.syscallMoveCap p _ _
  · exact h.syscallDeleteCap p _
  · exact h.syscallRevokeCap hp _
  · exact h.syscallDeriveCap hp _ _ _ _
  · exact h.syscallInvokeCap hp _ _ _ _ _ _
  · refine .bind_get ?_
    rw [h.pid p]
    exact Agrees.pure _ h
  · exact (h.procReadRegister hp _).bind fun _ s t _ _ h => .pure _ h
  · exact (h.procWriteRegister hp _ _).bind fun _ s t _ _ h => .pure _ h
  · exact h.syscallYield hp _
  · exact .pure _ h

theorem exceptionHandler (h : Unread R ρ ρ' s t) (hp : ¬ R p) (mcause mtval mepc : Word) :
    Agrees (Unread R ρ ρ') (exceptionHandler p mcause mtval mepc) s t := by
  refine .of_runs (exceptionHandler_run_eq s p mcause mtval mepc)
    (exceptionHandler_run_eq t p mcause mtval mepc) ?_
  exact h.setProc hp (h.pid p) (h.state p) (by rw [h.regs p hp])

theorem save (h : Unread R ρ ρ' s t) (hp : ¬ R p) (user : Reg → Word) :
    Unread R ρ ρ' (s.save p user) (t.save p user) :=
  h.setProc hp (h.pid p) (h.state p) (by unfold savedRegs; rw [h.regs p hp])

theorem trapSyscall (h : Unread R ρ ρ' s t) (hp : ¬ R p) (mtimecmp : Word) (user : Reg → Word) :
    Agrees (Unread R ρ ρ') (trapSyscall cfg p mtimecmp user) s t := by
  refine Agrees.bind (.of_runs (saveContext_run s p user) (saveContext_run t p user) (h.save hp user))
    fun _ s t _ _ h => (h.writeReg hp _ _).bind fun _ s t _ _ h => ?_
  refine (h.syscallVector hp mtimecmp user).bind fun out s t _ _ h => ?_
  cases out with
  | ret code => exact (h.writeReg hp _ _).bind fun _ s t _ _ h => .pure _ h
  | yielded => exact .pure _ h

theorem trapTimer (h : Unread R ρ ρ' s t) (hp : ¬ R p) (user : Reg → Word) :
    Agrees (Unread R ρ ρ') (trapTimer p user) s t :=
  Agrees.bind (.of_runs (saveContext_run s p user) (saveContext_run t p user) (h.save hp user))
    fun _ _ _ _ _ h => h.schedYield hp

theorem trapException (h : Unread R ρ ρ' s t) (hp : ¬ R p) (user : Reg → Word)
    (mcause mtval : Word) : Agrees (Unread R ρ ρ') (trapException p user mcause mtval) s t :=
  Agrees.bind (.of_runs (saveContext_run s p user) (saveContext_run t p user) (h.save hp user))
    fun _ _ _ _ _ h => h.exceptionHandler hp mcause mtval _

/-! ## The scheduler -/

theorem schedGetProc (h : Unread R ρ ρ' s t) (hart : Nat) (time : Word) :
    Agrees (Unread R ρ ρ') (schedGetProc cfg hart time) s t := by
  have hget : ∀ q hart, Procless (schedGet cfg q hart) := fun q hart =>
    (Procless.lift _).bind fun _ => (Procless.lift _).bind fun _ => .bind_get (fun _ _ => rfl)
      fun _ => .pure _
  have hpreempted : ∀ (q : Nat) (pid : Word) (harts : List Nat),
      Procless (schedPreempted cfg q pid harts) := fun q pid harts => by
    induction harts with
    | nil => exact .pure false
    | cons i harts ih => exact (hget q i).bind fun _ => .ite (.pure true) ih
  refine h.agrees ((hget _ _).bind fun entry => .ite (.pure none) ?_)
  exact (hpreempted _ _ _).bind fun _ => .ite (.pure none) ((Procless.processAt _).bind fun _ => .pure _)

/-- The scheduler does read the timeout of a process that runs, and then fails to acquire it. -/
theorem schedStartRound (h : Unread R ρ ρ' s t) (cfg : Config) (hart : Nat) (mtime : Word) :
    Agrees (Unread R ρ ρ') (schedStartRound cfg hart mtime) s t := by
  refine (h.schedGetProc hart _).bind fun found s t _ _ h => ?_
  cases found with
  | none => exact .pure none h
  | some x =>
    obtain ⟨q, length⟩ := x
    by_cases hq : R q
    · have hnone : ∀ k : Kernel, Running (k.procs q).state → ∀ endTime : Word, (do
          let timeout ← SepKernel.readReg q .timeout
          if timeout ≥ endTime then
            return none
          if ← procAcquire q then
            return some ⟨q, mtime / BitVec.ofNat 64 cfg.ticks + 1, length, timeout⟩
          return none : KernelM (Option Dispatched)).run k = .ok (none, k) := by
        intro k hrun endTime
        have hne : (k.procs q).state ≠ procStateReady := by
          rintro he
          rw [he] at hrun
          exact absurd hrun (by decide)
        rw [run_bind_ok (readReg_run q .timeout k)]
        split
        · rfl
        · exact (run_bind_ok (casState_run_of_ne hne) _).trans rfl
      exact .of_runs (hnone s (h.running q hq) _) (hnone t (h.state q ▸ h.running q hq) _) h
    · refine (h.readReg hq _).bind fun timeout s t _ _ h => .ite (fun _ => .pure none h) fun _ => ?_
      exact (h.casState (by decide)).bind fun b s t _ _ h => .ite (fun _ => .pure _ h) fun _ => .pure _ h

theorem procLoadPmp (h : Unread R ρ ρ' s t) (hp : ¬ R p) :
    Agrees (Unread R ρ ρ') (procLoadPmp cfg p) s t := by
  refine Agrees.foldlM h _ fun out i _ s t h => ?_
  refine (h.readReg hp _).bind fun w s t _ _ h => .ite (fun _ => .pure _ h) fun _ => ?_
  refine (h.agrees (.capNodeGetCap _)).bind fun c s t _ _ h => .ite (fun _ => .pure _ h) fun _ => ?_
  exact (Agrees.lift _ h).bind fun _ s t _ _ h => (Agrees.lift _ h).bind fun _ s t _ _ h => .pure _ h

end Unread

/-! ## Steps of one hart -/

/-- The hart that makes the step. -/
def Label.hart : Label → Nat
  | .ecall h _ => h
  | .timer h _ => h
  | .exception h _ _ _ => h
  | .schedule h _ => h

/-- The process runs on another hart. -/
def RunsElsewhere (st : System) (h q : Nat) : Prop := ∃ h', h' ≠ h ∧ st.current h' = some q

variable {st st' : System} {l : Label} {k : Kernel} {h : Nat}

theorem not_runsElsewhere (hg : st.Good cfg) (hcur : st.current h = some p) :
    ¬ RunsElsewhere st h p := by
  rintro ⟨h', hne, hcur'⟩
  exact hne (hg.unique h' h p hcur' hcur)

/-- The end of a call or of an interrupt. -/
theorem finish_unread {m : KernelM Outcome}
    (hm : Agrees (Unread R ρ ρ') m st.kernel k)
    (hs : (do
      let (out, k₁) ← m.run st.kernel
      return st.finish h out k₁ : Except Halt System) = .ok st') :
    ∃ k', (do
      let (out, k₁) ← m.run k
      return ({ st with kernel := k } : System).finish h out k₁ : Except Halt System) =
        .ok { st' with kernel := k' } ∧ Unread R ρ ρ' st'.kernel k' := by
  cases hrun : m.run st.kernel with
  | error e =>
    rw [hrun] at hs
    cases hs
  | ok x =>
    obtain ⟨out, t⟩ := x
    obtain ⟨t', hrun', hu⟩ := hm.ok_left hrun
    rw [hrun] at hs
    obtain rfl : st.finish h out t = st' := Except.ok.inj hs
    refine ⟨t', ?_, ?_⟩
    · rw [hrun']
      cases out <;> rfl
    · cases out <;> exact hu

/-- The end of a round of the scheduler. -/
theorem dispatch_unread {x : Dispatched} {t t' : Kernel} (hu : Unread R ρ ρ' t t')
    (hx : ¬ R x.proc) (hs : dispatch cfg st h x t = .ok st') :
    dispatch cfg { st with kernel := k } h x t' = .ok { st' with kernel := t' } ∧
      Unread R ρ ρ' st'.kernel t' := by
  unfold dispatch at hs ⊢
  by_cases hm : cfg.memoryProtection = true
  · rw [if_pos hm] at hs ⊢
    obtain ⟨pmp, hpmp⟩ := procLoadPmp_run cfg t x.proc
    obtain ⟨t₁, hpmp', -⟩ := (hu.procLoadPmp hx).ok_left hpmp
    rw [hpmp] at hs
    rw [hpmp']
    cases hs
    exact ⟨rfl, hu⟩
  · rw [if_neg hm] at hs ⊢
    cases hs
    exact ⟨rfl, hu⟩

/-- A step of a hart neither reads nor writes the registers of the processes that other harts run:
    where only these differ, it does the same, and they stay as they are. -/
theorem step_unread (hr : Reachable (Booted cfg) (Step cfg) st)
    (hu : Unread (RunsElsewhere st l.hart) ρ ρ' st.kernel k) (hs : Step cfg st l st') :
    ∃ k', Step cfg { st with kernel := k } l { st' with kernel := k' } ∧
      Unread (RunsElsewhere st l.hart) ρ ρ' st'.kernel k' := by
  have hg : st.Good cfg := good_of_reachable (fun _ => Booted.root) hr
  cases l with
  | ecall h user =>
    cases hcur : st.current h with
    | none => simp [Step, step, hcur] at hs
    | some p =>
      rw [Step, step, hcur] at hs
      obtain ⟨k', hs', hu'⟩ := finish_unread (h := h)
        (hu.trapSyscall (not_runsElsewhere hg hcur) (st.harts h).mtimecmp user) (Option.some.inj hs)
      refine ⟨k', ?_, hu'⟩
      rw [Step, step, show ({ st with kernel := k } : System).current h = some p from hcur]
      exact congrArg some hs'
  | timer h user =>
    cases hcur : st.current h with
    | none => simp [Step, step, hcur] at hs
    | some p =>
      rw [Step, step, hcur] at hs
      obtain ⟨k', hs', hu'⟩ := finish_unread (h := h)
        (hu.trapTimer (not_runsElsewhere hg hcur) user) (Option.some.inj hs)
      refine ⟨k', ?_, hu'⟩
      rw [Step, step, show ({ st with kernel := k } : System).current h = some p from hcur]
      exact congrArg some hs'
  | exception h user mcause mtval =>
    cases hcur : st.current h with
    | none => simp [Step, step, hcur] at hs
    | some p =>
      have hcur' : ({ st with kernel := k } : System).current h = some p := hcur
      rw [Step, step, hcur, Option.map_some] at hs
      obtain ⟨t, hrun, -⟩ := trapException_run cfg st.kernel p user mcause mtval
      obtain ⟨t', hrun', hu'⟩ :=
        (hu.trapException (not_runsElsewhere hg hcur) user mcause mtval).ok_left hrun
      rw [hrun] at hs
      obtain rfl : { st with kernel := t } = st' := Except.ok.inj (Option.some.inj hs)
      refine ⟨t', ?_, hu'⟩
      rw [Step, step, hcur', Option.map_some, hrun']
      rfl
  | schedule h mtime =>
    by_cases hin : cfg.minHartid ≤ h ∧ h ≤ cfg.maxHartid ∧ st.current h = none
    · have hin' : cfg.minHartid ≤ h ∧ h ≤ cfg.maxHartid ∧
        ({ st with kernel := k } : System).current h = none := hin
      rw [Step, step, if_pos hin] at hs
      have hagrees := hu.schedStartRound cfg h mtime
      rcases schedStartRound_run mtime hg.kernel.entries hin.1 hin.2.1 with
        hrun | ⟨d, hrun, -, hready⟩
      · obtain ⟨k', hrun', hu'⟩ := hagrees.ok_left hrun
        rw [hrun] at hs
        obtain rfl : st = st' := Except.ok.inj (Option.some.inj hs)
        refine ⟨k', ?_, hu'⟩
        rw [Step, step, if_pos hin', hrun']
        rfl
      · obtain ⟨k', hrun', hu'⟩ := hagrees.ok_left hrun
        rw [hrun] at hs
        have hd : ¬ RunsElsewhere st h d.proc := fun hR => by
          have hrunning := hu.running d.proc hR
          rw [hready] at hrunning
          exact absurd hrunning (by decide)
        obtain ⟨hdisp, hu''⟩ := dispatch_unread (k := k) hu' hd (Option.some.inj hs)
        refine ⟨k', ?_, hu''⟩
        rw [Step, step, if_pos hin', hrun']
        exact congrArg some hdisp
    · rw [Step, step, if_neg hin] at hs
      cases hs

/-! ## Two harts -/

/-- Other registers for a process that runs. -/
theorem Unread.of_setProc (hR : ∀ {q}, R q ↔ q = p) (hp : Running (s.procs p).state)
    (ρ' : Nat → Reg → Word) : Unread R (fun q => (s.procs q).regs) ρ' s
      (s.setProc p { s.procs p with regs := ρ' p }) where
  nodes := rfl
  schedule := rfl
  receivers := rfl
  history := rfl
  pid q := by
    by_cases hq : q = p
    · rw [hq, Kernel.procs_setProc_same]
    · rw [Kernel.procs_setProc_of_ne _ hq]
  state q := by
    by_cases hq : q = p
    · rw [hq, Kernel.procs_setProc_same]
    · rw [Kernel.procs_setProc_of_ne _ hq]
  regs q hq := by
    rw [Kernel.procs_setProc_of_ne _ fun e => hq (hR.mpr e)]
  left _ _ := rfl
  right q hq := by
    rw [hR.mp hq, Kernel.procs_setProc_same]
  running q hq := by
    rwa [hR.mp hq]

/-- Process 1, on its hart, has all its registers changed since they were saved. -/
def virtStale : Kernel := virtResumed.kernel.setProc 1 { virtResumed.kernel.procs 1 with
  regs := fun _ => 7 }

theorem runsElsewhere_virtResumed {q : Nat} : RunsElsewhere virtResumed 1 q ↔ q = 1 := by
  have hg : virtResumed.Good .virt :=
    good_of_reachable (fun _ => Booted.root) (virtAfter_reachable _)
  have hzero : virtResumed.current 1 = some 0 := by decide +kernel
  have hone : virtResumed.current 4 = some 1 := by decide +kernel
  constructor
  · rintro ⟨h, hne, hcur⟩
    obtain ⟨hq, hrun⟩ := hg.current h q hcur
    have hstates : ∀ q < Config.virt.nProc, Running (virtResumed.kernel.procs q).state →
        q = 0 ∨ q = 1 := by decide +kernel
    rcases hstates q hq hrun with rfl | rfl
    · exact absurd (hg.unique h 1 0 hcur hzero) hne
    · rfl
  · rintro rfl
    exact ⟨4, by decide, hone⟩

theorem virtStale_unread : Unread (RunsElsewhere virtResumed 1)
    (fun q => (virtResumed.kernel.procs q).regs) (fun _ _ => 7) virtResumed.kernel virtStale :=
  .of_setProc runsElsewhere_virtResumed (by decide +kernel) _

/-- The root process suspends it. -/
theorem virtStale_suspends : ∃ k', Step .virt { virtResumed with kernel := virtStale }
      (.ecall 1 (callRegs 6 2 1 0 0 0 0)) { virtStopping with kernel := k' } ∧
    Unread (RunsElsewhere virtResumed 1) (fun q => (virtResumed.kernel.procs q).regs)
      (fun _ _ => 7) virtStopping.kernel k' :=
  step_unread (virtAfter_reachable _) virtStale_unread (after_step (by decide +kernel))

end SepKernel
