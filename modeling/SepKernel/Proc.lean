import SepKernel.CapNode

/-!
# Processes: `inc/proc.h`, `inc/proc_state.h` and `proc_load_pmp`

The state of a process is one word, read and changed by single atomic instructions: its low three
bits are the `enum proc_state` of `inc/consts.h`, its top sixteen the channel it waits on.
-/

namespace SepKernel

variable (cfg : Config)

/-! ## The control block -/

/-- `&proc->cap_table[cid % N_CAPS]`; `cap_table` is `cap_tables[pid]` from `proc_init_proc` on. -/
def procGetCapNode (proc : Nat) (cid : Word) : NodeRef := .slot proc (cid.toNat % cfg.nCaps)

/-- The capability in the slot, or the null capability if it is empty. -/
def procGetCap (proc : Nat) (cid : Word) : KernelM Cap := capNodeGetCap (procGetCapNode cfg proc cid)

/-- Numbers past the end of `struct regs` read as zero. -/
def procReadRegister (proc : Nat) (regi : Word) : KernelM Word :=
  match Reg.all[regi.toNat]? with
  | some r => readReg proc r
  | none => return 0

/-- Returns what the register held before; numbers past the end write nothing. -/
def procWriteRegister (proc : Nat) (regi regv : Word) : KernelM Word :=
  match Reg.all[regi.toNat]? with
  | some r => do
    let tmp ← readReg proc r
    writeReg proc r regv
    return tmp
  | none => return 0

/-! ## The state word -/

def procStateReady : Word := 0
def procStateRunning : Word := 1
def procStateWaiting : Word := 2
def procStateReceiving : Word := 3
def procStateSuspended : Word := 4
def procStateRunningThenSuspend : Word := 5
def procStateSuspendedBusy : Word := 6
def procStateReceivingThenSuspend : Word := 7

/-- `channel << 48 | PROC_STATE_WAITING`: the channel is part of the word, so one compare and set
    both finds the process waiting and finds it waiting there. -/
def waitingOn (channel : Word) : Word := (channel <<< 48) ||| procStateWaiting

/-- `channel << 48 | PROC_STATE_RECEIVING`: a sender has it and writes to it. -/
def receivingOn (channel : Word) : Word := (channel <<< 48) ||| procStateReceiving

/-- Back to ready, with the flag of a suspension kept. A process that has just gone to wait keeps
    its state. -/
def procRelease (proc : Nat) : KernelM Unit := do
  if (← readState proc) &&& procStateWaiting == 0 then
    let _ ← fetchAndAndState proc procStateSuspended

/-- A hart takes a process up only if it is ready: not running elsewhere, not waiting, not
    suspended. -/
def procAcquire (proc : Nat) : KernelM Bool := casState proc procStateReady procStateRunning

/-- Locks a suspended process against the other supervisors of it. -/
def procSupervisorAcquire (proc : Nat) : KernelM Bool :=
  casState proc procStateSuspended procStateSuspendedBusy

/-- Unlocks it for the next supervisor, and asserts that it was locked. -/
def procSupervisorRelease (proc : Nat) : KernelM Unit := do
  kassert ((← readState proc) == procStateSuspendedBusy)
  writeState proc procStateSuspended

/-- A process that is not suspended, or that another supervisor has acquired, is not resumed. -/
def procSupervisorResume (proc : Nat) : KernelM Bool := do
  if ← procSupervisorAcquire proc then
    writeState proc procStateReady
    return true
  return false

/-- The flag is set in whatever state. One that waits is suspended at once and no longer waits; one
    that runs is when it is next released. -/
def procSupervisorSuspend (proc : Nat) : KernelM Bool := do
  let state ← fetchAndOrState proc procStateSuspended
  if state &&& procStateSuspended != 0 then
    return false
  if state &&& 0x7 == procStateWaiting then
    writeState proc procStateSuspended
  return true

/-- The source ignores its argument `proc` and acts on `current`. -/
def procReceiverWait (current : Nat) (channel : Word) : KernelM Bool :=
  casState current procStateRunning (waitingOn channel)

/-- Takes a process that waits on this very channel, so that only one sender reaches it. -/
def procSenderAcquire (proc : Nat) (channel : Word) : KernelM Bool :=
  casState proc (waitingOn channel) (receivingOn channel)

/-- Ready, or suspended if the flag has come in the meantime. -/
def procSenderRelease (proc : Nat) : KernelM Unit := do
  let _ ← fetchAndAndState proc procStateSuspended

/-! ## Physical memory protection -/

/-- The value `proc_load_pmp` puts in an address register for a frame. -/
def napotRegister (addr : Word) : Word := (addr <<< 10) ||| 0x3FF

/-- The registers `proc_load_pmp` writes: eight bytes of configuration, and an address for each of
    the entries. -/
structure PmpRegs where
  pmpcfg0 : Word
  pmpaddr : Nat → Word

/-- The body of the loop of `proc_load_pmp`. The selector it tests is always the low byte of
    `regs.pmp`, the slot it reads is always the `i`-th, and the mode bits always go to entry 0. -/
def procLoadPmpEntry (proc : Nat) (out : PmpRegs) (i : Nat) : KernelM PmpRegs := do
  let pmpidx := (← readReg proc .pmp) &&& 0xFF
  if pmpidx &&& 0x80 != 0 then
    return out
  let cap ← procGetCap cfg proc (BitVec.ofNat 64 i)
  if !capIsType cap .pmp then
    return out
  let rwx ← Gen.capPmpGetRwx cap
  let addr ← Gen.capPmpGetAddr cap
  return { pmpcfg0 := out.pmpcfg0 ||| ((rwx <<< (i * 8)) ||| 0x18)
           pmpaddr := Function.update out.pmpaddr i (napotRegister addr) }

/-- The loop over the eight entries that the hardware has, as a hart does it when it enters a
    process. -/
def procLoadPmp (proc : Nat) : KernelM PmpRegs :=
  (List.range 8).foldlM (procLoadPmpEntry cfg proc) ⟨0, fun _ => 0⟩

end SepKernel
