import SepKernel.States
import SepKernel.Syscall

/-!
# What a system call asks for

A call's effect on the rest of the system, read off the state it starts from: the operation on
the capabilities (`capOp`), the operation on a process (`procOp`), how it leaves its caller
(`restOf`), on which channel it becomes the one to reply to (`replyTo`) and whether it hangs the
hart (`CallHangs`). That the calls do just this is shown in `SepKernel.Calls`.
-/

namespace SepKernel

variable (cfg : Config) (s : Kernel) (p : Nat) (user : Reg → Word)

instance (s : Kernel) (n : NodeRef) : Decidable (s.Live n) := inferInstanceAs (Decidable (_ ≠ _))

/-- The slot a capability index names. -/
def slotOf (cidx : Word) : Nat := cidx.toNat % cfg.nCaps

/-- What `cap_node_get_cap` finds. -/
def Kernel.capAt (n : NodeRef) : Cap := if s.prevs n = none then nullCap else s.caps n

/-- The word of a process that waits on a channel. -/
def waitWord (ch : Nat) : Word := waitingOn (BitVec.ofNat 64 ch)

/-- The process an invocation acquires: who stands in the channel's table, if it waits there. -/
def acquired (ch : Nat) (k : Fin 2) : Option Nat :=
  match s.receivers ch k with
  | some r => if (s.procs r).state = waitWord ch then some r else none
  | none => none

/-- The capability an invocation names. -/
def invoked : Capability := (s.capAt (.slot p (slotOf cfg (user .a0)))).view

/-! ## On the capabilities -/

/-- A move goes through from a live slot to a dead one. -/
def moveOp (src dst : NodeRef) (op : CapOp) : CapOp :=
  if s.Live src ∧ ¬ s.Live dst then op else .skip

/-- A move between two tables, with the indexes as the callers give them. -/
def transferOp (src : Nat) (srcCidx : Word) (dest : Nat) (destCidx : Word) : CapOp :=
  moveOp s (.slot src (slotOf cfg srcCidx)) (.slot dest (slotOf cfg destCidx))
    (.transfer src (slotOf cfg srcCidx) dest (slotOf cfg destCidx))

/-- The capability that goes with a message to `r`. -/
def deliverOp (srcCidx : Word) (r : Nat) : CapOp :=
  if srcCidx.toNat < cfg.nCaps ∧ ((s.procs r).regs .destCidx).toNat < cfg.nCaps then
    transferOp cfg s p srcCidx r ((s.procs r).regs .destCidx)
  else .skip

/-- The supervisee of a supervisor call, if the capability covers it. -/
def supervisee (r : Span) : Option Nat :=
  if r.free ≤ (user .a1).toNat ∧ (user .a1).toNat < r.stop then some (user .a1).toNat else none

/-- The two operations of a supervisor that move a capability; any other changes no table. -/
def superviseCapOp (q : Nat) : CapOp :=
  if (s.procs q).state = procStateSuspended then
    match (user .a2).toNat with
    | 6 => transferOp cfg s p (user .a3) q (user .a4)
    | 7 => transferOp cfg s q (user .a3) p (user .a4)
    | _ => .skip
  else .skip

/-- An invocation moves a capability by a supervisor's word or along with a message. -/
def invokeCapOp : Capability → CapOp
  | .supervisor r => ((supervisee user r).map (superviseCapOp cfg s p user)).getD .skip
  | .sender ch _ => ((acquired s ch 0).map (deliverOp cfg s p (user .a5))).getD .skip
  | .server ch _ => ((acquired s ch 1).map (deliverOp cfg s p (user .a5))).getD .skip
  | .client ch _ => ((acquired s ch 0).map (deliverOp cfg s p (user .a5))).getD .skip
  | _ => .skip

/-- A derivation that is legal puts the new capability into a free slot. -/
def deriveOp (srcCidx destCidx : Word) (c : Cap) : CapOp :=
  if capCanDerive (s.caps (.slot p (slotOf cfg srcCidx))) c then
    moveOp s (.slot p (slotOf cfg srcCidx)) (.slot p (slotOf cfg destCidx))
      (.derive p (slotOf cfg srcCidx) (slotOf cfg destCidx) c)
  else .skip

/-- What a call does to the capabilities, by its number. -/
def capOp : CapOp :=
  match (user .t0).toNat with
  | 2 => moveOp s (.slot p (slotOf cfg (user .a0))) (.slot p (slotOf cfg (user .a1)))
      (.move p (slotOf cfg (user .a0)) (slotOf cfg (user .a1)))
  | 3 =>
    if s.Live (.slot p (slotOf cfg (user .a0))) then .delete p (slotOf cfg (user .a0)) else .skip
  | 4 =>
    if s.Live (.slot p (slotOf cfg (user .a0))) then .skip else .wipe p (slotOf cfg (user .a0))
  | 5 => deriveOp cfg s p (user .a0) (user .a1) ⟨user .a2, user .a3⟩
  | 6 => invokeCapOp cfg s p user (invoked cfg s p user)
  | _ => .skip

/-- The operations in which an assert fails: those that pass a time capability with nothing left
    to the hook, and the reset of stale words that were a channels capability. -/
def CapOp.Hangs (s : Kernel) : CapOp → Prop
  | .transfer srcPid i _ _ => (s.caps (.slot srcPid i)).view.Exhausted
  | .delete pid i => (s.caps (.slot pid i)).view.Exhausted
  | .wipe pid i =>
    capIsType (s.caps (.slot pid i)) .channels = true ∨ (s.caps (.slot pid i)).view.Exhausted
  | _ => False

/-- The call runs into an assert, and the hart stops in it. -/
def CallHangs : Prop := (capOp cfg s p user).Hangs s

/-! ## On the processes -/

/-- What a call can do to a process other than the caller. -/
inductive ProcOp where
  | none
  | suspend (q : Nat)
  | resume (q : Nat)
  | write (q : Nat) (r : Reg) (x : Word)
  | deliver (q : Nat) (msg0 msg1 msg2 msg3 : Word)
deriving DecidableEq

/-- The registers after a message. -/
def deliveredRegs (regs : Reg → Word) (msg0 msg1 msg2 msg3 : Word) : Reg → Word :=
  Function.update (Function.update (Function.update (Function.update (Function.update regs
    .a0 errorOk) .a1 msg0) .a2 msg1) .a3 msg2) .a4 msg3

/-- What an operation makes of process `q`. -/
def ProcOp.apply (q : Nat) (x : Proc) : ProcOp → Proc
  | .none => x
  | .suspend q' => if q = q' then { x with state := suspended x.state } else x
  | .resume q' => if q = q' then { x with state := procStateReady } else x
  | .write q' r y => if q = q' then { x with regs := Function.update x.regs r y } else x
  | .deliver q' m0 m1 m2 m3 =>
    if q = q' then { x with regs := deliveredRegs x.regs m0 m1 m2 m3, state := procStateReady }
    else x

/-- Reading goes unseen by the supervisee, and only one that is suspended is resumed or written
    to. -/
def superviseProcOp (q : Nat) : ProcOp :=
  match (user .a2).toNat with
  | 0 => .suspend q
  | 1 => if (s.procs q).state = procStateSuspended then .resume q else .none
  | 4 =>
    if (s.procs q).state = procStateSuspended then
      match Reg.all[(user .a3).toNat]? with
      | some r => .write q r (user .a4)
      | none => .none
    else .none
  | _ => .none

/-- The message of an invocation. -/
def messageOp (q : Nat) : ProcOp := .deliver q (user .a1) (user .a2) (user .a3) (user .a4)

/-- An invocation acts on a supervisee, or on who gets the message. -/
def invokeProcOp : Capability → ProcOp
  | .supervisor r => ((supervisee user r).map (superviseProcOp s user)).getD .none
  | .sender ch _ => ((acquired s ch 0).map (messageOp user)).getD .none
  | .server ch _ => ((acquired s ch 1).map (messageOp user)).getD .none
  | .client ch _ => ((acquired s ch 0).map (messageOp user)).getD .none
  | _ => .none

/-- No call but an invocation acts on another process. -/
def procOp : ProcOp :=
  match (user .t0).toNat with
  | 6 => invokeProcOp s user (invoked cfg s p user)
  | _ => .none

/-! ## On the caller -/

/-- How a call leaves the caller. -/
inductive Rest where
  | ret
  | yield
  /-- It waits on a channel, and this is in its `a0` meanwhile. -/
  | wait (ch : Nat) (a0 : Word)
deriving DecidableEq

/-- Receivers, servers and clients wait; a client only if its message has gone. -/
def invokeRest : Capability → Rest
  | .receiver ch _ => .wait ch (user .a0)
  | .server ch _ => .wait ch (user .a0)
  | .client ch _ => if (acquired s ch 0).isSome then .wait ch errorInterrupted else .ret
  | _ => .ret

/-- How a call ends for its caller, by its number. -/
def restOf : Rest :=
  match (user .t0).toNat with
  | 6 => invokeRest s user (invoked cfg s p user)
  | 10 => .yield
  | _ => .ret

/-- A client whose message has gone asks for a reply on its channel. -/
def invokeReplyTo : Capability → Option Nat
  | .client ch _ => if (acquired s ch 0).isSome then some ch else none
  | _ => none

/-- The channel on whose reply slot the call enters the caller, if the slot is empty. -/
def replyTo : Option Nat :=
  match (user .t0).toNat with
  | 6 => invokeReplyTo s (invoked cfg s p user)
  | _ => none

/-! ## What a call that asks for all this leaves -/

/-- The operation, up to registers, process states and reply slots. -/
def CapEffect (op : CapOp) (t : Kernel) : Prop :=
  ∃ s' t', SameCaps cfg s s' ∧ CapStep cfg s' op t' ∧ SameCaps cfg t' t

/-- What a caller finds of itself at the end, by how the call ends. -/
def CallerEffect (pop : ProcOp) (out : Outcome) (t : Kernel) : Rest → Prop
  | .ret => (∃ code, out = .ret code) ∧ (t.procs p).state = (pop.apply p (s.procs p)).state
  | .yield => out = .yielded ∧ (t.procs p).state = (s.procs p).state &&& 4
  | .wait ch a0 => out = .yielded ∧
      (t.procs p).state = parked (s.procs p).state (BitVec.ofNat 64 ch) ∧
      (t.procs p).regs .a0 = a0

/-- A call has these effects and no others: on the capabilities, on the other processes, on its
    caller and on who is noted for a reply. -/
structure CallEffect (cop : CapOp) (pop : ProcOp) (rest : Rest) (reply : Option Nat)
    (out : Outcome) (t : Kernel) : Prop where
  caps : CapEffect cfg s cop t
  others : ∀ q, q ≠ p → t.procs q = pop.apply q (s.procs q)
  caller : CallerEffect s p pop out t rest
  replies : ∀ ch, t.receivers ch 1 =
    if reply = some ch ∧ s.receivers ch 1 = none then some p else s.receivers ch 1

/-- The computation hangs where the operation does, and otherwise returns as described. -/
def Performs {α : Type} (m : KernelM α) (op : CapOp) (post : α → Kernel → Prop) : Prop :=
  (op.Hangs s → m.run s = .error .assertion) ∧
    (¬ op.Hangs s → ∃ a t, m.run s = .ok (a, t) ∧ post a t)

/-- The handler of a capability call returns, and with the code of a failure only if the call asks
    for nothing. -/
def Returns (op : CapOp) (out : Outcome) : Prop :=
  ∃ code, out = .ret code ∧ (code = errorOk ∨ op = .skip)

end SepKernel
