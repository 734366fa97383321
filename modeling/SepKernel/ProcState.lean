import SepKernel.Lib.LoadReserved
import SepKernel.States

/-!
# `inc/proc_state.h`, one access at a time

The state words of the processes are shared by all harts. Here every load, store, compare and set,
fetch-and-and and fetch-and-or on a word is a step of its own, and the harts take turns in any
order; what a hart does between two accesses touches no state word. A hart that runs a process may
enter any of the calls that work on state words, for any process and channel.
-/

namespace SepKernel

open Interleaving
open LoadReserved (Op)

variable {s : Kernel} {p q : Nat} {ch : Word} {e : Nat → Bool}

/-! ## Where a hart stands -/

/-- The calls that acquire a waiting process: what each does when it has one, or fails to get one,
    is the rest of it. -/
inductive Ipc where
  | sender | server | client
deriving DecidableEq

/-- How such a call goes on when it has released that process. -/
inductive AfterSend where
  | ret
  | wait (channel : Word)
  | yield (waited : Bool)
deriving DecidableEq

/-- The next access of a hart, by the operation it belongs to. The process `p` is the one in `tp`,
    `q` another operand. -/
inductive HartCtl where
  /-- In the loop of `sched_start`, about to look for a process. -/
  | schedule
  | acquire (q : Nat)
  /-- In the process, or in a call that has made all its accesses. -/
  | user (p : Nat)
  | receiverWait (p : Nat) (channel : Word)
  /-- At the load of `proc_release`. Whether a `proc_receiver_wait` has succeeded before is noted
      for the proofs. -/
  | release (p : Nat) (waited : Bool)
  | releaseAnd (p : Nat) (waited : Bool)
  | senderAcquire (p q : Nat) (channel : Word) (call : Ipc)
  | clientWait (p q : Nat) (channel : Word)
  | senderRelease (p q : Nat) (next : AfterSend)
  | suspend (p q : Nat)
  | suspendStore (p q : Nat)
  | supervisorAcquire (p q : Nat) (resume : Bool)
  | resumeStore (p q : Nat)
  /-- At the `kassert` of `proc_supervisor_release`. -/
  | supervisorRelease (p q : Nat)
  | supervisorStore (p q : Nat)
  /-- That `kassert` has failed. -/
  | hung (p q : Nat)
deriving DecidableEq

/-- `executes` notes for the proofs what the hart executes: a process from the `proc_acquire` that
    succeeded to the `proc_receiver_wait` that does, or to the second access of `proc_release`. -/
structure HartState where
  ctl : HartCtl
  executes : Nat → Bool

namespace HartState

variable (g : HartState)

/-- The hart goes on in its function. -/
def goes (c : HartCtl) : HartState := { g with ctl := c }

/-- It has become the one that executes `p`. -/
def begins (p : Nat) (c : HartCtl) : HartState := ⟨c, Function.update g.executes p true⟩

/-- It no longer is. -/
def ends (p : Nat) (c : HartCtl) : HartState := ⟨c, Function.update g.executes p false⟩

end HartState

/-! ## The accesses -/

/-- After `proc_sender_acquire` has succeeded. Only a client goes to wait before it releases the
    other process. -/
def Ipc.acquired (p q : Nat) (channel : Word) : Ipc → HartCtl
  | .sender => .senderRelease p q .ret
  | .server => .senderRelease p q (.wait channel)
  | .client => .clientWait p q channel

/-- After it has failed: `server` goes on without a client. -/
def Ipc.missed (p : Nat) (channel : Word) : Ipc → HartCtl
  | .sender => .user p
  | .server => .receiverWait p channel
  | .client => .user p

/-- Where the caller goes on when the message is delivered: back to user code, to its own wait, or
    to its release. -/
def AfterSend.ctl (p : Nat) : AfterSend → HartCtl
  | .ret => .user p
  | .wait channel => .receiverWait p channel
  | .yield waited => .release p waited

/-- What a hart does next to a state word, in the order of the source. -/
def HartState.op (g : HartState) : Option (Op Nat Word HartState) :=
  match g.ctl with
  | .schedule => none
  | .user _ => none
  | .hung _ _ => none
  | .acquire q => some (.cas ⟨q, procStateReady, procStateRunning, g.begins q (.user q),
      g.goes .schedule⟩)
  | .receiverWait p channel => some (.cas ⟨p, procStateRunning, waitingOn channel,
      g.ends p (.release p true), g.goes (.release p false)⟩)
  | .release p waited => some (.load p fun state =>
      if state &&& procStateWaiting = 0 then g.goes (.releaseAnd p waited) else g.goes .schedule)
  | .releaseAnd p _ => some (.modify p (· &&& procStateSuspended) fun _ => g.ends p .schedule)
  | .senderAcquire p q channel call => some (.cas ⟨q, waitingOn channel, receivingOn channel,
      g.goes (call.acquired p q channel), g.goes (call.missed p channel)⟩)
  | .clientWait p q channel => some (.cas ⟨p, procStateRunning, waitingOn channel,
      g.ends p (.senderRelease p q (.yield true)), g.goes (.senderRelease p q (.yield false))⟩)
  | .senderRelease p q next => some (.modify q (· &&& procStateSuspended) fun _ =>
      g.goes (next.ctl p))
  | .suspend p q => some (.modify q (· ||| procStateSuspended) fun state =>
      if state &&& procStateSuspended ≠ 0 then g.goes (.user p)
      else if state &&& 0x7 = procStateWaiting then g.goes (.suspendStore p q)
      else g.goes (.user p))
  | .suspendStore p q => some (.store q procStateSuspended (g.goes (.user p)))
  | .supervisorAcquire p q resume => some (.cas ⟨q, procStateSuspended, procStateSuspendedBusy,
      g.goes (if resume then .resumeStore p q else .supervisorRelease p q), g.goes (.user p)⟩)
  | .resumeStore p q => some (.store q procStateReady (g.goes (.user p)))
  | .supervisorRelease p q => some (.load q fun state =>
      if state = procStateSuspendedBusy then g.goes (.supervisorStore p q)
      else g.goes (.hung p q))
  | .supervisorStore p q => some (.store q procStateSuspended (g.goes (.user p)))

/-- The accesses of the lr/sc loops as one step each. -/
def HartState.access (g : HartState) : Option (Access Nat Word HartState) := g.op.map Op.access

/-! ## The calls -/

/-- `yield` is `sched_yield`, by the call or by the timer; `supervise` is one of the operations that
    hold the supervisee: read or write a register, read, give or take a capability. -/
inductive HartOp where
  | acquire (q : Nat)
  | yield
  | receive (channel : Word)
  | send (q : Nat) (channel : Word)
  | serve (q : Nat) (channel : Word)
  | call (q : Nat) (channel : Word)
  | suspend (q : Nat)
  | resume (q : Nat)
  | supervise (q : Nat)

/-- A hart in the scheduler tries a process, a hart that runs one makes a call. -/
def HartState.enter (g : HartState) (op : HartOp) : Option HartState :=
  match g.ctl, op with
  | .schedule, .acquire q => some (g.goes (.acquire q))
  | .user p, .yield => some (g.goes (.release p false))
  | .user p, .receive channel => some (g.goes (.receiverWait p channel))
  | .user p, .send q channel => some (g.goes (.senderAcquire p q channel .sender))
  | .user p, .serve q channel => some (g.goes (.senderAcquire p q channel .server))
  | .user p, .call q channel => some (g.goes (.senderAcquire p q channel .client))
  | .user p, .suspend q => some (g.goes (.suspend p q))
  | .user p, .resume q => some (g.goes (.supervisorAcquire p q true))
  | .user p, .supervise q => some (g.goes (.supervisorAcquire p q false))
  | _, _ => none

/-- The state words as a machine: all processes' words, all harts, and the operations that a hart
    may begin. Harts and processes go by their numbers. -/
def hartMachine : Machine Nat Word HartState HartOp := ⟨HartState.enter, HartState.access⟩

/-- All harts, over the state words of the processes. -/
abbrev HartsState := State Nat Nat Word HartState

/-- All harts are in the scheduler, and all processes ready or suspended. -/
def HartsStart (s : HartsState) : Prop :=
  (∀ h, s.ctl h = ⟨.schedule, fun _ => false⟩) ∧
    ∀ p, s.mem p = procStateReady ∨ s.mem p = procStateSuspended

/-! ## One hart alone

Where no other hart comes in between, the accesses of an operation do what the function of
`SepKernel.Proc` does in one go. -/

/-- What the harts share, in the kernel's state: the state word of each process and nothing else of
    it. -/
def Kernel.words (s : Kernel) : Nat → Word := fun p => (s.procs p).state

/-- A write to a state word, seen from the harts. -/
theorem words_setState (s : Kernel) (p : Nat) (x : Word) :
    (s.setState p x).words = Function.update s.words p x := by
  funext q
  by_cases hq : q = p
  · rw [hq, Function.update_self]
    exact Kernel.state_setState x
  · rw [Function.update_of_ne hq, Kernel.words, Kernel.procs_setState_of_ne x hq]
    rfl

/-- From `c`, at most `n` accesses lead where the result of the function says, with the words it
    leaves. -/
def Alone {α : Type} (n : Nat) (c : HartCtl) (m : KernelM α) (goes : α → HartCtl) (s : Kernel) :
    Prop :=
  ∃ a t, m.run s = .ok (a, t) ∧ ∀ e, ∃ e',
    hartMachine.alone n ⟨c, e⟩ s.words = (⟨goes a, e'⟩, t.words)

section

variable {c : HartCtl} {x y : Word} {yes no : (Nat → Bool) → HartState} {goes : Bool → HartCtl}

/-- An operation that is one compare and set. -/
theorem Alone.of_cas (hacc : ∀ e, HartState.access ⟨c, e⟩ = some (.cas q x y (yes e) (no e)))
    (hyes : ∀ e, (yes e).ctl = goes true) (hno : ∀ e, (no e).ctl = goes false) :
    Alone 1 c (casState q x y) goes s := by
  by_cases hx : (s.procs q).state = x
  · refine ⟨true, _, casState_run_of_eq hx, fun e => ⟨(yes e).executes, ?_⟩⟩
    have hfound : s.words q = x := hx
    rw [Machine.alone_cas_of_eq 0 (hacc e) hfound, Machine.alone, words_setState, ← hyes e]
  · refine ⟨false, _, casState_run_of_ne hx, fun e => ⟨(no e).executes, ?_⟩⟩
    have hfound : s.words q ≠ x := hx
    rw [Machine.alone_cas_of_ne 0 (hacc e) hfound, Machine.alone, ← hno e]

end

/-- Each function of the sequential model is what a hart does alone. -/
theorem procAcquire_alone : Alone 1 (.acquire q) (procAcquire q)
    (fun b => if b then .user q else .schedule) s :=
  .of_cas (fun _ => rfl) (fun _ => rfl) fun _ => rfl

theorem procReceiverWait_alone :
    Alone 1 (.receiverWait p ch) (procReceiverWait p ch) (fun b => .release p b) s :=
  .of_cas (fun _ => rfl) (fun _ => rfl) fun _ => rfl

theorem procSenderAcquire_alone (call : Ipc) :
    Alone 1 (.senderAcquire p q ch call) (procSenderAcquire q ch)
      (fun b => if b then call.acquired p q ch else call.missed p ch) s :=
  .of_cas (fun _ => rfl) (fun _ => rfl) fun _ => rfl

theorem procSupervisorAcquire_alone :
    Alone 1 (.supervisorAcquire p q false) (procSupervisorAcquire q)
      (fun b => if b then .supervisorRelease p q else .user p) s :=
  .of_cas (fun _ => rfl) (fun _ => rfl) fun _ => rfl

theorem procSenderRelease_alone (next : AfterSend) :
    Alone 1 (.senderRelease p q next) (procSenderRelease q) (fun _ => next.ctl p) s := by
  refine ⟨(), s.setState q ((s.procs q).state &&& procStateSuspended), rfl, fun e => ⟨e, ?_⟩⟩
  rw [Machine.alone_modify 0 rfl, Machine.alone, words_setState]
  rfl

/-- The release takes two accesses. -/
theorem procRelease_alone (waited : Bool) :
    Alone 2 (.release p waited) (procRelease p) (fun _ => .schedule) s := by
  by_cases h : (s.procs p).state &&& procStateWaiting = 0
  · have hmask : ((s.procs p).state &&& procStateWaiting == 0) = true := beq_iff_eq.mpr h
    refine ⟨(), s.setState p ((s.procs p).state &&& procStateSuspended), ?_,
      fun e => ⟨Function.update e p false, ?_⟩⟩
    · rw [procRelease, run_bind_ok (readState_run p s), hmask]
      rfl
    · have hload : s.words p &&& procStateWaiting = 0 := h
      rw [Machine.alone_load 1 rfl, if_pos hload, Machine.alone_modify 0 rfl, Machine.alone,
        words_setState]
      rfl
  · have hmask : ((s.procs p).state &&& procStateWaiting == 0) = false := beq_eq_false_iff_ne.mpr h
    refine ⟨(), s, ?_, fun e => ⟨e, ?_⟩⟩
    · rw [procRelease, run_bind_ok (readState_run p s), hmask]
      rfl
    · have hload : ¬ s.words p &&& procStateWaiting = 0 := h
      rw [Machine.alone_load 1 rfl, if_neg hload, Machine.alone_none 1 rfl]
      rfl

theorem procSupervisorResume_alone :
    Alone 2 (.supervisorAcquire p q true) (procSupervisorResume q) (fun _ => .user p) s := by
  by_cases h : (s.procs q).state = procStateSuspended
  · refine ⟨true, _, procSupervisorResume_run h, fun e => ⟨e, ?_⟩⟩
    have hfound : s.words q = procStateSuspended := h
    rw [Machine.alone_cas_of_eq 1 rfl hfound, Machine.alone_store 0 rfl, Machine.alone,
      words_setState, Function.update_idem]
    rfl
  · refine ⟨false, _, procSupervisorResume_run_of_ne h, fun e => ⟨e, ?_⟩⟩
    have hfound : s.words q ≠ procStateSuspended := h
    rw [Machine.alone_cas_of_ne 1 rfl hfound, Machine.alone_none 1 rfl]
    rfl

/-- So does a suspension of one that waits. -/
theorem procSupervisorSuspend_alone :
    Alone 2 (.suspend p q) (procSupervisorSuspend q) (fun _ => .user p) s := by
  obtain ⟨b, hrun, -⟩ := procSupervisorSuspend_run q s
  refine ⟨b, _, hrun, fun e => ⟨e, ?_⟩⟩
  rw [Machine.alone_modify 1 rfl, words_setState]
  by_cases h : (s.procs q).state &&& procStateSuspended = 0
  · have hfound : ¬ s.words q &&& procStateSuspended ≠ 0 := not_not_intro h
    rw [if_neg hfound]
    by_cases h7 : (s.procs q).state &&& 0x7 = procStateWaiting
    · have hfound7 : s.words q &&& 0x7 = procStateWaiting := h7
      rw [if_pos hfound7, Machine.alone_store 0 rfl, Machine.alone, Function.update_idem, suspended,
        if_pos ⟨h, h7⟩]
      rfl
    · have hfound7 : ¬ s.words q &&& 0x7 = procStateWaiting := h7
      rw [if_neg hfound7, Machine.alone_none 1 rfl, suspended, if_neg fun h => h7 h.2]
      rfl
  · have hfound : s.words q &&& procStateSuspended ≠ 0 := h
    rw [if_pos hfound, Machine.alone_none 1 rfl, suspended, if_neg fun h' => h h'.1]
    rfl

/-- Where the word is not the expected one, the function stops at its assertion, and so does the
    hart. -/
theorem procSupervisorRelease_alone (h : (s.procs q).state = procStateSuspendedBusy) :
    Alone 2 (.supervisorRelease p q) (procSupervisorRelease q) (fun _ => .user p) s := by
  refine ⟨(), _, procSupervisorRelease_run h, fun e => ⟨e, ?_⟩⟩
  have hfound : s.words q = procStateSuspendedBusy := h
  rw [Machine.alone_load 1 rfl, if_pos hfound, Machine.alone_store 0 rfl, Machine.alone,
    words_setState]
  rfl

end SepKernel
