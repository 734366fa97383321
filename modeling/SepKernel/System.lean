import SepKernel.Boot

/-!
# The running system

`src/trap.S`, `src/exception.c` and the harts around the kernel. Between two traps a user program
does with its 31 registers and its program counter what it likes, so a trap carries an arbitrary
register file. A step of the system is a trap, handled to its end, or a round of the scheduler's
loop on an idle hart.
-/

namespace SepKernel

variable (cfg : Config)

/-! ## Traps -/

/-- `save_context`, and the two lines after it for `pc` and `tp`: the user registers as the trap
    found them, and the virtual ones as they were. -/
def saveContext (current : Nat) (user : Reg → Word) : KernelM Unit :=
  modify fun s => s.setProc current
    { s.procs current with regs := fun r => if r.isUser then user r else (s.procs current).regs r }

/-- `syscall_vector`. Numbers past its end go to its first entry. -/
def syscallVector (current : Nat) (mtimecmp : Word) (user : Reg → Word) : KernelM Outcome :=
  match (user .t0).toNat with
  | 1 => syscallReadCap cfg current (user .a0)
  | 2 => syscallMoveCap cfg current (user .a0) (user .a1)
  | 3 => syscallDeleteCap cfg current (user .a0)
  | 4 => syscallRevokeCap cfg current (user .a0)
  | 5 => syscallDeriveCap cfg current (user .a0) (user .a1) (user .a2) (user .a3)
  | 6 => syscallInvokeCap cfg current (user .a0) (user .a1) (user .a2) (user .a3) (user .a4)
      (user .a5)
  | 7 => syscallGetPid current
  | 8 => syscallReadReg current (user .a0)
  | 9 => syscallWriteReg current (user .a0) (user .a1)
  | 10 => syscallYield current mtimecmp
  | _ => return .ret errorUnimplemented

/-- `trap_entry` to `trap_syscall`: the code a handler returns is stored in the saved `a0`. -/
def trapSyscall (current : Nat) (mtimecmp : Word) (user : Reg → Word) : KernelM Outcome := do
  saveContext current user
  writeReg current .pc (user .pc + 4)
  let outcome ← syscallVector cfg current mtimecmp user
  match outcome with
  | .ret code => writeReg current .a0 code
  | .yielded => pure ()
  return outcome

/-- `trap_entry` to `trap_timer`: the process is where it was, and its hart is the scheduler's. -/
def trapTimer (current : Nat) (user : Reg → Word) : KernelM Outcome := do
  saveContext current user
  schedYield current

/-- `MRET` of `src/exception.c`. -/
def mret : Word := 0x0320000073

/-- `ILLEGAL_INSTRUCTION`, the cause that an `mret` of user code has. -/
def illegalInstruction : Word := 2

/-- An exception is handed to the process's own handler, with what it was doing in the virtual
    registers; an `mret` of the handler takes it back there. -/
def exceptionHandler (current : Nat) (mcause mtval mepc : Word) : KernelM Unit := do
  if mcause == illegalInstruction && mtval == mret then
    writeReg current .sp (← readReg current .psp)
    writeReg current .pc (← readReg current .ppc)
    writeReg current .a0 (← readReg current .pa0)
    writeReg current .a1 (← readReg current .pa1)
  else
    writeReg current .ppc mepc
    writeReg current .psp (← readReg current .sp)
    writeReg current .pa0 (← readReg current .a0)
    writeReg current .pa1 (← readReg current .a1)
    writeReg current .pc (← readReg current .tpc)
    writeReg current .sp (← readReg current .tsp)
    writeReg current .a0 mcause
    writeReg current .a1 mtval

/-- `trap_entry` to `trap_exception`: the process goes on at once, in its handler or behind it. -/
def trapException (current : Nat) (user : Reg → Word) (mcause mtval : Word) : KernelM Unit := do
  saveContext current user
  exceptionHandler current mcause mtval (user .pc)

/-! ## Harts -/

/-- What a hart has to itself. While `current` is nothing it is in the loop of `sched_start`. -/
structure Hart where
  /-- The process in `tp`, while one runs. -/
  current : Option Nat
  pmp : PmpRegs
  /-- The hart's timer, as last written. -/
  mtimecmp : Word

/-- The kernel that the harts share, and the harts. The user programs are in it only by the
    registers that their traps bring. -/
structure System where
  kernel : Kernel
  harts : Nat → Hart

/-- The process a hart runs. -/
def System.current (s : System) (h : Nat) : Option Nat := (s.harts h).current

/-- What sets a step off, with what it finds in the registers and in the clock. -/
inductive Label where
  /-- An environment call with the given user registers. -/
  | ecall (hart : Nat) (user : Reg → Word)
  | timer (hart : Nat) (user : Reg → Word)
  | exception (hart : Nat) (user : Reg → Word) (mcause mtval : Word)
  /-- A round of `sched_start` with the given clock. -/
  | schedule (hart : Nat) (mtime : Word)

/-- The hart is the scheduler's once its process has yielded. -/
def System.finish (s : System) (h : Nat) (outcome : Outcome) (k : Kernel) : System :=
  match outcome with
  | .ret _ => { s with kernel := k }
  | .yielded => { kernel := k, harts := Function.update s.harts h { s.harts h with current := none } }

/-- The hart enters the process it found, as the end of `sched_start` does. -/
def dispatch (s : System) (h : Nat) (d : Dispatched) (k : Kernel) : Except Halt System := do
  let pmp ←
    if cfg.memoryProtection then do
      let (pmp, _) ← (procLoadPmp cfg d.proc).run k
      pure pmp
    else pure (s.harts h).pmp
  return { kernel := k
           harts := Function.update s.harts h
             ⟨some d.proc, pmp, (waitAndSetTimeout cfg d.time d.length d.timeout).2⟩ }

/-- What a step does, if the hart is in the state the step starts from. -/
def step (l : Label) (s : System) : Option (Except Halt System) :=
  match l with
  | .ecall h user => (s.current h).map fun p => do
      let (outcome, k) ← (trapSyscall cfg p (s.harts h).mtimecmp user).run s.kernel
      return s.finish h outcome k
  | .timer h user => (s.current h).map fun p => do
      let (outcome, k) ← (trapTimer p user).run s.kernel
      return s.finish h outcome k
  | .exception h user mcause mtval => (s.current h).map fun p => do
      let (_, k) ← (trapException p user mcause mtval).run s.kernel
      return { s with kernel := k }
  | .schedule h mtime =>
    if cfg.minHartid ≤ h ∧ h ≤ cfg.maxHartid ∧ s.current h = none then
      some do
        match ← (schedStartRound cfg h mtime).run s.kernel with
        | (none, k) => return { s with kernel := k }
        | (some d, k) => dispatch cfg s h d k
    else none

/-- The steps that end without the hart stopping. What would stop it is not a step, and is for the
    theorems that say so. -/
def Step (s : System) (l : Label) (s' : System) : Prop := step cfg l s = some (.ok s')

/-- Every hart waits in the scheduler, with nothing loaded. -/
def System.start (k : Kernel) : System := ⟨k, fun _ => ⟨none, ⟨0, fun _ => 0⟩, 0⟩⟩

/-- The states the machine boots into: one for each place of the root process's payload for which
    the boot gets to its end. -/
def Booted (s : System) : Prop := ∃ rootPayload k, boot cfg rootPayload = .ok k ∧ s = .start k

end SepKernel
