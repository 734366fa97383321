import SepKernel.Sched

/-!
# `src/syscall.c`

Every system call, for the process `current`, run from its entry to its return with no other hart
and no interrupt in between. `sched_yield` does not return, and every call to it stands at the end
of a function: a function that may make one says which it was with an `Outcome`.
-/

namespace SepKernel

variable (cfg : Config)

/-! ## Error codes and call numbers: `inc/consts.h` -/

/-- `ERROR_OK`; the codes below follow it in `enum s3k_error`. -/
def errorOk : Word := 0
def errorEmpty : Word := 1
def errorFailed : Word := 2
def errorPreempted : Word := 3
def errorInterrupted : Word := 4
def errorCollision : Word := 5
def errorNoReceiver : Word := 6
def errorIllegalDerivation : Word := 7
def errorInvalidSupervisee : Word := 8
def errorSuperviseeBusy : Word := 9
def errorUnimplemented : Word := -1

/-- How a handler ends: it returns a code, or it has given the hart to the scheduler. -/
inductive Outcome where
  | ret (code : Word)
  | yielded
deriving DecidableEq

/-! ## Internal functions -/

/-- Releases the process; `sched_start` does the rest and never comes back. -/
def schedYield (current : Nat) : KernelM Outcome := do
  procRelease current
  return .yielded

/-- The `receivers` half of `cap_update_hook`, the same for receivers and servers. -/
def receiversUpdate (proc : Option Nat) (node : NodeRef) (channel : Word) : KernelM Unit := do
  if !(← capNodeIsDeleted node) then
    writeReceiver cfg channel.toNat 0 proc
    if proc.isNone then
      writeReceiver cfg channel.toNat 1 none

/-- Brings the schedule and the receivers in line with a capability that `proc` gets, or that nobody
    has any more. Only time, receiver and server capabilities have such effects. -/
def capUpdateHook (proc : Option Nat) (node : NodeRef) (cap : Cap) : KernelM Unit := do
  if capIsType cap .time then
    let hartid ← Gen.capTimeGetHartid cap
    let free ← Gen.capTimeGetFree cap
    let end_ ← Gen.capTimeGetEnd cap
    let pid ← match proc with
      | some p => do pure ((← get).procs p).pid
      | none => pure invalidPid
    schedUpdate cfg node hartid free end_ pid
  if capIsType cap .receiver then
    receiversUpdate cfg proc node (← Gen.capReceiverGetChannel cap)
  if capIsType cap .server then
    receiversUpdate cfg proc node (← Gen.capServerGetChannel cap)

/-- The `CAP_TYPE_CHANNELS` case goes through the accessors of time capabilities. -/
def revokeUpdateCap (cap : Cap) : Except Halt Cap := do
  if capIsType cap .memory then
    let cap ← Gen.capMemorySetFree cap (← Gen.capMemoryGetBegin cap)
    Gen.capMemorySetPmp cap 0
  else if capIsType cap .time then
    Gen.capTimeSetFree cap (← Gen.capTimeGetBegin cap)
  else if capIsType cap .channels then
    Gen.capTimeSetFree cap (← Gen.capTimeGetBegin cap)
  else if capIsType cap .supervisor then
    Gen.capSupervisorSetFree cap (← Gen.capSupervisorGetBegin cap)
  else
    return cap

/-- Marks what a derivation hands out as taken in the source. The types that nothing is derived from
    do not get here. -/
def deriveUpdateCap (srcCap newCap : Cap) : Except Halt Cap := do
  if capIsType srcCap .memory then
    if capIsType newCap .memory then
      Gen.capMemorySetFree srcCap (← Gen.capMemoryGetEnd newCap)
    else
      Gen.capMemorySetPmp srcCap 1
  else if capIsType srcCap .time then
    Gen.capTimeSetFree srcCap (← Gen.capTimeGetEnd newCap)
  else if capIsType srcCap .channels then
    if capIsType newCap .channels then
      Gen.capChannelsSetFree srcCap (← Gen.capChannelsGetEnd newCap)
    else if capIsType newCap .receiver then
      Gen.capChannelsSetFree srcCap ((← Gen.capReceiverGetChannel newCap) + 1)
    else if capIsType newCap .server then
      Gen.capChannelsSetFree srcCap ((← Gen.capServerGetChannel newCap) + 1)
    else
      throw .assertion
  else if capIsType srcCap .receiver then
    return srcCap
  else if capIsType srcCap .server then
    return srcCap
  else if capIsType srcCap .supervisor then
    Gen.capSupervisorSetFree srcCap (← Gen.capSupervisorGetEnd newCap)
  else
    throw .assertion

/-- Moves a capability between two processes' tables. The hook runs before the move, with the source
    slot still live. -/
def interprocessMove (srcProc : Nat) (srcCidx : Word) (destProc : Nat) (destCidx : Word) :
    KernelM Word := do
  let srcNode := procGetCapNode cfg srcProc srcCidx
  let cap ← capNodeGetCap srcNode
  let destNode := procGetCapNode cfg destProc destCidx
  if ← capNodeIsDeleted srcNode then
    return errorEmpty
  if !(← capNodeIsDeleted destNode) then
    return errorCollision
  capUpdateHook cfg (some destProc) srcNode cap
  return if ← capNodeMove cfg cap srcNode destNode then errorOk else errorEmpty

/-! ## Capability calls -/

/-- An empty slot is read as the null capability, with success. -/
def syscallReadCap (current : Nat) (cidx : Word) : KernelM Outcome := do
  let node := procGetCapNode cfg current cidx
  let cap ← capNodeGetCap node
  writeReg current .a1 cap.word0
  writeReg current .a2 cap.word1
  return .ret errorOk

/-- Within one table: the owner stays, and no hook runs. -/
def syscallMoveCap (current : Nat) (srcCidx destCidx : Word) : KernelM Outcome := do
  let srcNode := procGetCapNode cfg current srcCidx
  let cap ← capNodeGetCap srcNode
  let destNode := procGetCapNode cfg current destCidx
  if ← capNodeIsDeleted srcNode then
    return .ret errorEmpty
  if !(← capNodeIsDeleted destNode) then
    return .ret errorCollision
  return .ret (if ← capNodeMove cfg cap srcNode destNode then errorOk else errorEmpty)

/-- The hook runs after the deletion, when the node is deleted already. -/
def syscallDeleteCap (current : Nat) (cidx : Word) : KernelM Outcome := do
  let node := procGetCapNode cfg current cidx
  let cap ← capNodeGetCap node
  if ← capNodeIsDeleted node then
    return .ret errorEmpty
  if !(← capNodeDelete cfg node) then
    return .ret errorEmpty
  capUpdateHook cfg none node cap
  return .ret errorOk

/-- The `while` of `syscall_revoke_cap`: as long as the next node is a child it is unlinked, and
    what it had goes to the revoker. -/
def revokeLoop (current : Nat) (node : NodeRef) (cap : Cap) : Nat → KernelM Unit
  | 0 => throw .outOfFuel
  | fuel + 1 => do
    if ← capNodeIsDeleted node then
      return
    let nextNode ← deref ((← get).nodes node).next
    let nextCap := ((← get).nodes nextNode).cap
    if !(← Gen.capIsChild cap nextCap) then
      return
    if ← capNodeDelete2 cfg nextNode node then
      capUpdateHook cfg (some current) node nextCap
    revokeLoop current node cap fuel

/-- The guard is the source's: it turns back a node that is *not* deleted. -/
def syscallRevokeCap (current : Nat) (cidx : Word) : KernelM Outcome := do
  writeReg current .a0 errorPreempted
  let node := procGetCapNode cfg current cidx
  let cap := ((← get).nodes node).cap
  if !(← capNodeIsDeleted node) then
    return .ret errorEmpty
  revokeLoop cfg current node cap cfg.loopFuel
  writeCap node (← revokeUpdateCap cap)
  capUpdateHook cfg (some current) node cap
  return .ret errorOk

/-- The event is for the history: `dest_node` now holds a capability derived from `src_node`'s. -/
def syscallDeriveCap (current : Nat) (srcCidx destCidx word0 word1 : Word) : KernelM Outcome := do
  writeReg current .a0 errorPreempted
  let srcNode := procGetCapNode cfg current srcCidx
  let srcCap ← capNodeGetCap srcNode
  let destNode := procGetCapNode cfg current destCidx
  let newCap : Cap := ⟨word0, word1⟩
  if ← capNodeIsDeleted srcNode then
    return .ret errorEmpty
  if !(← capNodeIsDeleted destNode) then
    return .ret errorCollision
  if !(← Gen.capCanDerive srcCap newCap) then
    return .ret errorIllegalDerivation
  writeCap srcNode (← deriveUpdateCap srcCap newCap)
  capUpdateHook cfg (some current) srcNode newCap
  if ← capNodeInsert cfg newCap destNode srcNode then
    modify fun s => s.record (.derived srcNode destNode)
    return .ret errorOk
  return .ret errorEmpty

/-! ## Invocations -/

/-- The two operations that move a capability between the supervisor and the supervisee. -/
def supervisorMove (supervisee src : Nat) (srcCidx : Word) (dest : Nat) (destCidx : Word) :
    KernelM Outcome := do
  if !(← procSupervisorAcquire supervisee) then
    return .ret errorSuperviseeBusy
  let code ← interprocessMove cfg src srcCidx dest destCidx
  procSupervisorRelease supervisee
  return .ret code

/-- The range that is checked goes from `free`, not from `begin`: a supervisor has no say over the
    processes it has derived a capability for. -/
def syscallInvokeSupervisor (current : Nat) (cap : Cap) (pid op arg0 arg1 : Word) :
    KernelM Outcome := do
  kassert (capIsType cap .supervisor)
  if (← Gen.capSupervisorGetFree cap) > pid || pid ≥ (← Gen.capSupervisorGetEnd cap) then
    return .ret errorInvalidSupervisee
  let supervisee ← processAt cfg pid
  match op.toNat with
  -- ECALL_SUP_SUSPEND
  | 0 => return .ret (if ← procSupervisorSuspend supervisee then errorOk else errorFailed)
  -- ECALL_SUP_RESUME
  | 1 => return .ret (if ← procSupervisorResume supervisee then errorOk else errorFailed)
  -- ECALL_SUP_GET_STATE
  | 2 => do
    writeReg current .a1 (← readState supervisee)
    return .ret errorOk
  -- ECALL_SUP_READ_REG
  | 3 => do
    if !(← procSupervisorAcquire supervisee) then
      return .ret errorSuperviseeBusy
    writeReg current .a1 (← procReadRegister supervisee arg0)
    procSupervisorRelease supervisee
    return .ret errorOk
  -- ECALL_SUP_WRITE_REG
  | 4 => do
    if !(← procSupervisorAcquire supervisee) then
      return .ret errorSuperviseeBusy
    let _ ← procWriteRegister supervisee arg0 arg1
    procSupervisorRelease supervisee
    return .ret errorOk
  -- ECALL_SUP_READ_CAP
  | 5 => do
    if !(← procSupervisorAcquire supervisee) then
      return .ret errorSuperviseeBusy
    let cap ← capNodeGetCap (procGetCapNode cfg supervisee arg0)
    writeReg current .a1 cap.word0
    writeReg current .a2 cap.word1
    procSupervisorRelease supervisee
    return .ret errorOk
  -- ECALL_SUP_GIVE_CAP
  | 6 => supervisorMove cfg supervisee current arg0 supervisee arg1
  -- ECALL_SUP_TAKE_CAP
  | 7 => supervisorMove cfg supervisee supervisee arg0 current arg1
  | _ => return .ret errorUnimplemented

/-- Waits for a message on the channel; a suspended caller does not get to wait. -/
def syscallInvokeReceiver (current : Nat) (cap : Cap) : KernelM Outcome := do
  kassert (capIsType cap .receiver)
  let channel ← Gen.capReceiverGetChannel cap
  let _ ← procReceiverWait current channel
  schedYield current

/-- The lines sender, server and client have in common, once they have acquired `receiver`: the
    capability, if both sides name a slot, then the message. -/
def deliver (current receiver : Nat) (msg0 msg1 msg2 msg3 srcCidx : Word) : KernelM Unit := do
  let destCidx ← readReg receiver .destCidx
  if srcCidx.toNat < cfg.nCaps && destCidx.toNat < cfg.nCaps then
    let _ ← interprocessMove cfg current srcCidx receiver destCidx
  writeReg receiver .a0 errorOk
  writeReg receiver .a1 msg0
  writeReg receiver .a2 msg1
  writeReg receiver .a3 msg2
  writeReg receiver .a4 msg3

/-- `proc == NULL || !proc_sender_acquire(proc, channel)`, the other way round. -/
def acquireReceiver (proc : Option Nat) (channel : Word) : KernelM (Option Nat) :=
  match proc with
  | none => return none
  | some p => do return if ← procSenderAcquire p channel then some p else none

/-- Sends to who waits as the receiver of the channel, or fails. -/
def syscallInvokeSender (current : Nat) (cap : Cap) (msg0 msg1 msg2 msg3 srcCidx : Word) :
    KernelM Outcome := do
  kassert (capIsType cap .sender)
  let channel ← Gen.capSenderGetChannel cap
  match ← acquireReceiver (← readReceiver cfg channel.toNat 0) channel with
  | none => return .ret errorNoReceiver
  | some receiver => do
    deliver cfg current receiver msg0 msg1 msg2 msg3 srcCidx
    procSenderRelease receiver
    return .ret errorOk

/-- Replies to the client noted for the channel, if it still waits for it, and waits for the next
    one. -/
def syscallInvokeServer (current : Nat) (cap : Cap) (msg0 msg1 msg2 msg3 srcCidx : Word) :
    KernelM Outcome := do
  kassert (capIsType cap .server)
  let channel ← Gen.capServerGetChannel cap
  match ← acquireReceiver (← readReceiver cfg channel.toNat 1) channel with
  | none => pure ()
  | some client => do
    deliver cfg current client msg0 msg1 msg2 msg3 srcCidx
    procSenderRelease client
  let _ ← procReceiverWait current channel
  schedYield current

/-- Calls the server that waits on the channel, notes who called if nobody is noted, and waits for
    the reply. `a0` says that the wait was interrupted, until a reply overwrites it. -/
def syscallInvokeClient (current : Nat) (cap : Cap) (msg0 msg1 msg2 msg3 srcCidx : Word) :
    KernelM Outcome := do
  kassert (capIsType cap .client)
  let channel ← Gen.capClientGetChannel cap
  match ← acquireReceiver (← readReceiver cfg channel.toNat 0) channel with
  | none => return .ret errorNoReceiver
  | some server => do
    deliver cfg current server msg0 msg1 msg2 msg3 srcCidx
    let _ ← casReceiver cfg channel.toNat 1 none (some current)
    let _ ← procReceiverWait current channel
    writeReg current .a0 errorInterrupted
    procSenderRelease server
    schedYield current

/-- An empty slot has the null capability, whose type is the first that is tested. The types with
    nothing to invoke come last. -/
def syscallInvokeCap (current : Nat) (cidx arg1 arg2 arg3 arg4 arg5 : Word) : KernelM Outcome := do
  let node := procGetCapNode cfg current cidx
  let cap ← capNodeGetCap node
  if capIsType cap .empty then
    return .ret errorEmpty
  else if capIsType cap .supervisor then
    syscallInvokeSupervisor cfg current cap arg1 arg2 arg3 arg4
  else if capIsType cap .receiver then
    syscallInvokeReceiver current cap
  else if capIsType cap .sender then
    syscallInvokeSender cfg current cap arg1 arg2 arg3 arg4 arg5
  else if capIsType cap .server then
    syscallInvokeServer cfg current cap arg1 arg2 arg3 arg4 arg5
  else if capIsType cap .client then
    syscallInvokeClient cfg current cap arg1 arg2 arg3 arg4 arg5
  else
    return .ret errorUnimplemented

/-! ## The other calls -/

/-- The number that `proc_init_proc` has given the process; no capability is asked for. -/
def syscallGetPid (current : Nat) : KernelM Outcome := return .ret ((← get).procs current).pid

/-- A process reads any of its registers, the virtual ones included. -/
def syscallReadReg (current : Nat) (regnr : Word) : KernelM Outcome :=
  return .ret (← procReadRegister current regnr)

/-- And writes them; the value before is returned, in place of a code. -/
def syscallWriteReg (current : Nat) (regnr val : Word) : KernelM Outcome :=
  return .ret (← procWriteRegister current regnr val)

/-- `mtimecmp` is what `read_timeout` reads for this hart. -/
def syscallYield (current : Nat) (mtimecmp : Word) : KernelM Outcome := do
  writeReg current .timeout mtimecmp
  writeReg current .a0 errorOk
  schedYield current

end SepKernel
