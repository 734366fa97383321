import SepKernel.Syscall

/-!
# `proc_init` and `sched_init`

What the first hart does before any process runs, from zeroed memory.
-/

namespace SepKernel

variable (cfg : Config)

/-- A sentinel begins as a list of its own: it is its own successor and predecessor. -/
def makeSentinel (k : Sentinel) : KernelM Unit :=
  modify fun s => s.setNode (.sentinel k) ⟨some (.sentinel k), some (.sentinel k), nullCap⟩

/-- `cap_node_insert(cap, cn, &sentinel)`, where `cn` is a slot of the root process. -/
def insertRoot (cap : Cap) (cn : Nat) (k : Sentinel) : KernelM Unit := do
  let _ ← capNodeInsert cfg cap (.slot 0 cn) (.sentinel k)

/-- The first frame of the root process: read, write and execute from the page of the payload on, as
    a NAPOT block. `cn` is the first free slot, and what is returned is the next. -/
def procInitMemory (cn : Nat) (rootPayload : Word) : KernelM Nat := do
  makeSentinel .memory
  insertRoot cfg (← Gen.capMkPmp (rootPayload >>> 12) 0x7) cn .memory
  return cn + 1

/-- All channels, none of them derived from yet; what is derived from them goes into the same
    list. -/
def procInitChannels (cn : Nat) : KernelM Nat := do
  makeSentinel .channels
  insertRoot cfg (← Gen.capMkChannels cfg.nChannels 0 (BitVec.ofNat 64 cfg.nChannels) 0) cn
    .channels
  return cn + 1

/-- All processes, the root process itself among them: until it gives some away, the root process
    can suspend and resume any other, and itself. -/
def procInitSupervisor (cn : Nat) : KernelM Nat := do
  makeSentinel .supervisor
  insertRoot cfg (← Gen.capMkSupervisor cfg.nProc 0 (BitVec.ofNat 64 cfg.nProc) 0) cn .supervisor
  return cn + 1

/-- One time capability for each of these harts, over the whole major frame. They all go behind the
    sentinel, so the last hart's comes first in the list. -/
def procInitTimeLoop (cn : Nat) : List Nat → KernelM Nat
  | [] => return cn
  | hartid :: rest => do
    let cap ← Gen.capMkTime cfg.minHartid cfg.maxHartid cfg.nQuantum (BitVec.ofNat 64 hartid) 0
      (BitVec.ofNat 64 cfg.nQuantum) 0
    insertRoot cfg cap cn .time
    procInitTimeLoop (cn + 1) rest

/-- The sentinel is made once, before the harts get their capabilities: a second time would lose the
    ones made so far. -/
def procInitTime (cn : Nat) : KernelM Nat := do
  makeSentinel .time
  procInitTimeLoop cfg cn (List.range' cfg.minHartid cfg.nHarts)

/-- A process is suspended until its supervisor resumes it; its registers are zero already. -/
def procInitProc (proc : Nat) : KernelM Unit :=
  modify fun s => s.setProc proc
    { s.procs proc with pid := BitVec.ofNat 64 proc, state := procStateSuspended }

/-- The loop of `proc_init` over the processes, the root process being the first. -/
def procInitProcs : List Nat → KernelM Unit
  | [] => pure ()
  | i :: is => do
    procInitProc i
    procInitProcs is

/-- Process 0 gets every resource, the capabilities in its first slots one after the other, and is
    the one that is ready to run: `pc` is the start of its payload. -/
def procInitRoot (rootPayload : Word) : KernelM Unit := do
  let cn ← procInitMemory cfg 0 rootPayload
  let cn ← procInitChannels cfg cn
  let cn ← procInitSupervisor cfg cn
  let _ ← procInitTime cfg cn
  writeReg 0 .pc rootPayload
  writeReg 0 .a0 0
  writeState 0 procStateReady

/-- All processes are made alike, as suspended ones; the first then becomes the root process. -/
def procInit (rootPayload : Word) : KernelM Unit := do
  procInitProcs (List.range cfg.nProc)
  procInitRoot cfg rootPayload

/-- Zeroed static memory, as `init.S` leaves it: no node is in a list, no process has a state but
    `PROC_STATE_READY`, which is zero, and nobody receives anything. -/
def Kernel.zero : Kernel where
  nodes := fun _ => ⟨none, none, nullCap⟩
  procs := fun _ => ⟨fun _ => 0, 0, 0⟩
  schedule := fun _ _ => 0
  receivers := fun _ _ => none
  history := []

/-- The kernel `init.S` starts the processes with. Whether it comes to that is for the theorems to
    say: the constructors have asserts. -/
def boot (rootPayload : Word) : Except Halt Kernel := do
  let (_, s) ← (do procInit cfg rootPayload; schedInit cfg : KernelM Unit).run .zero
  return s

end SepKernel
