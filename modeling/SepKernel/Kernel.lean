import SepKernel.Config
import SepKernel.GenCap
import SepKernel.Lib.Lineage
import Mathlib.Logic.Function.Basic

/-!
# The state of the kernel

What the C files keep in static memory: the capability nodes (`cap_tables` and the four
sentinels of `proc_init`), the process control blocks, the schedule and the table of receivers.
A pointer to a node is a `NodeRef`, a pointer to a process its index, and a pointer that may be
null an `Option` of one. The locks are left out: a system call runs atomically here, so it
always finds them free.
-/

namespace SepKernel

/-! ## Capability nodes -/

/-- The four static sentinels of `src/proc.c`, one for each list. -/
inductive Sentinel where
  | memory | time | supervisor | channels
deriving DecidableEq

/-- The address of a node: an entry of a process's table, or a sentinel. -/
inductive NodeRef where
  | slot (pid idx : Nat)
  | sentinel (k : Sentinel)
deriving DecidableEq

/-- `struct cap_node`. A slot with no predecessor is empty. -/
structure CapNode where
  prev : Option NodeRef
  next : Option NodeRef
  cap : Cap

/-! ## Processes -/

/-- The fields of `struct regs`, in its order: the user registers and, from `pmp` on, the virtual
    ones. -/
inductive Reg where
  | pc
  | ra | sp | gp | tp
  | t0 | t1 | t2
  | s0 | s1
  | a0 | a1 | a2 | a3 | a4 | a5 | a6 | a7
  | s2 | s3 | s4 | s5 | s6 | s7 | s8 | s9 | s10 | s11
  | t3 | t4 | t5 | t6
  | pmp
  | timeout
  | destCidx
  | tpc | tsp | cause | tval
  | ppc | psp | pa0 | pa1
deriving DecidableEq

/-- `struct regs` read as an array, which is how the calls and `trap.S` address it. -/
def Reg.all : List Reg :=
  [.pc, .ra, .sp, .gp, .tp, .t0, .t1, .t2, .s0, .s1, .a0, .a1, .a2, .a3, .a4, .a5, .a6, .a7, .s2,
    .s3, .s4, .s5, .s6, .s7, .s8, .s9, .s10, .s11, .t3, .t4, .t5, .t6, .pmp, .timeout, .destCidx,
    .tpc, .tsp, .cause, .tval, .ppc, .psp, .pa0, .pa1]

/-- `N_REGISTERS`. -/
def nRegisters : Nat := Reg.all.length

/-- The registers a trap saves: the 31 general ones and the program counter. -/
def Reg.isUser (r : Reg) : Bool := r ∈ Reg.all.take 32

/-- `struct proc`. The table of its capabilities is the nodes `slot pid _`. -/
structure Proc where
  regs : Reg → Word
  pid : Word
  state : Word

/-! ## The whole -/

/-- What happened to a capability, for the derivation history. -/
abbrev CapEvent := Lineage.Event NodeRef

/-- For the literals of `Fin 2`, the two ends of a channel. -/
instance neZero_two : NeZero 2 := ⟨by decide⟩

/-- All static memory but the locks, and the history of derivations, which stands for nothing in the
    source. -/
structure Kernel where
  nodes : NodeRef → CapNode
  procs : Nat → Proc
  /-- `schedule[N_QUANTUM][N_HARTS]`. -/
  schedule : Nat → Nat → BitVec 16
  /-- `receivers[N_CHANNELS][2]`. -/
  receivers : Nat → Fin 2 → Option Nat
  /-- Every derivation and move so far, newest first. No function reads it: it is there to say
      which capability was derived from which. -/
  history : List CapEvent

/-- A kernel function reads and writes the state, and may stop the hart. -/
abbrev KernelM := StateT Kernel (Except Halt)

namespace Kernel

variable (s : Kernel)

/-- A write to a node leaves all other nodes and all other tables. -/
def setNode (n : NodeRef) (x : CapNode) : Kernel :=
  { s with nodes := Function.update s.nodes n x }

def setPrev (n : NodeRef) (p : Option NodeRef) : Kernel := s.setNode n { s.nodes n with prev := p }
def setNext (n : NodeRef) (p : Option NodeRef) : Kernel := s.setNode n { s.nodes n with next := p }
def setCap (n : NodeRef) (c : Cap) : Kernel := s.setNode n { s.nodes n with cap := c }

/-- A write to a control block leaves the others. -/
def setProc (p : Nat) (x : Proc) : Kernel := { s with procs := Function.update s.procs p x }

/-- The state word alone. -/
def setState (p : Nat) (x : Word) : Kernel := s.setProc p { s.procs p with state := x }

/-- One saved register alone. -/
def setReg (p : Nat) (r : Reg) (x : Word) : Kernel :=
  s.setProc p { s.procs p with regs := Function.update (s.procs p).regs r x }

/-- One entry; the quantum is the first index, as in the source. -/
def setSchedule (q hart : Nat) (x : BitVec 16) : Kernel :=
  { s with schedule := Function.update s.schedule q (Function.update (s.schedule q) hart x) }

/-- One end of one channel. -/
def setReceiver (ch : Nat) (k : Fin 2) (p : Option Nat) : Kernel :=
  { s with receivers := Function.update s.receivers ch (Function.update (s.receivers ch) k p) }

/-- Adds to the history, which no function reads: what is proved of a run may speak of it. -/
def record (e : CapEvent) : Kernel := { s with history := e :: s.history }

end Kernel

/-! ## Memory accesses -/

/-- Following a pointer that may be null: where it is, the run ends with a bad access. -/
def deref {α : Type} : Option α → KernelM α
  | some a => pure a
  | none => throw .badAccess

/-- An index into a table of the given length. -/
def checkIndex (i len : Nat) : KernelM Unit := if i < len then pure () else throw .badAccess

def writeCap (n : NodeRef) (c : Cap) : KernelM Unit := modify fun s => s.setCap n c
def writeNext (n : NodeRef) (p : Option NodeRef) : KernelM Unit := modify fun s => s.setNext n p
def writePrev (n : NodeRef) (p : Option NodeRef) : KernelM Unit := modify fun s => s.setPrev n p

/-- `compare_and_set(&n->prev, expected, desired)`. -/
def casPrev (n : NodeRef) (expected desired : Option NodeRef) : KernelM Bool := do
  if ((← get).nodes n).prev = expected then
    writePrev n desired
    return true
  return false

/-- `proc->regs.{r}`. -/
def readReg (p : Nat) (r : Reg) : KernelM Word := return ((← get).procs p).regs r
def writeReg (p : Nat) (r : Reg) (x : Word) : KernelM Unit := modify fun s => s.setReg p r x

/-- An atomic load. -/
def readState (p : Nat) : KernelM Word := return ((← get).procs p).state
def writeState (p : Nat) (x : Word) : KernelM Unit := modify fun s => s.setState p x

/-- `compare_and_set(&p->state, expected, desired)`. -/
def casState (p : Nat) (expected desired : Word) : KernelM Bool := do
  if (← readState p) = expected then
    writeState p desired
    return true
  return false

/-- `fetch_and_and(&p->state, x)`, with the value before. -/
def fetchAndAndState (p : Nat) (x : Word) : KernelM Word := do
  let old ← readState p
  writeState p (old &&& x)
  return old

/-- `fetch_and_or(&p->state, x)`, with the value before. -/
def fetchAndOrState (p : Nat) (x : Word) : KernelM Word := do
  let old ← readState p
  writeState p (old ||| x)
  return old

/-- `receivers[ch][k]`; the table has `N_CHANNELS` rows. -/
def readReceiver (cfg : Config) (ch : Nat) (k : Fin 2) : KernelM (Option Nat) := do
  checkIndex ch cfg.nChannels
  return (← get).receivers ch k

/-- An assignment to `receivers[ch][k]`. -/
def writeReceiver (cfg : Config) (ch : Nat) (k : Fin 2) (p : Option Nat) : KernelM Unit := do
  checkIndex ch cfg.nChannels
  modify fun s => s.setReceiver ch k p

/-- `compare_and_swap(&receivers[ch][k], expected, desired)`. -/
def casReceiver (cfg : Config) (ch : Nat) (k : Fin 2) (expected desired : Option Nat) :
    KernelM (Option Nat) := do
  let old ← readReceiver cfg ch k
  if old = expected then
    writeReceiver cfg ch k desired
  return old

/-- `&processes[pid]`. -/
def processAt (cfg : Config) (pid : Word) : KernelM Nat := do
  checkIndex pid.toNat cfg.nProc
  return pid.toNat

end SepKernel
