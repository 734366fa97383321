import SepKernel.Kernel
import SepKernel.Lib.Transition
import Mathlib.Data.List.Basic

/-!
# `src/trap.S` on its harts

The assembly that user code enters and leaves the kernel through, instruction by instruction, on
any number of harts that share the process control blocks. A program counter in this code is the
list of the instructions from there on. The C code between is left open: a call of it may change
every register but `tp` (`current`, a global register variable), give and take preemption and
write to control blocks; `sched_yield` gives its process up and goes on with one that no hart has.
The timer alone interrupts, as `init.S` sets `mie`: before any instruction in user mode, and in
machine mode while `mstatus.MIE` is set.
-/

namespace SepKernel
namespace Trap

/-! ## Registers -/

/-- The general registers, less the constant `zero`. -/
inductive Gpr where
  | ra | sp | gp | tp
  | t0 | t1 | t2
  | s0 | s1
  | a0 | a1 | a2 | a3 | a4 | a5 | a6 | a7
  | s2 | s3 | s4 | s5 | s6 | s7 | s8 | s9 | s10 | s11
  | t3 | t4 | t5 | t6
deriving DecidableEq

/-- `zero` is not among them: it cannot be written. -/
def Gpr.all : List Gpr :=
  [.ra, .sp, .gp, .tp, .t0, .t1, .t2, .s0, .s1, .a0, .a1, .a2, .a3, .a4, .a5, .a6, .a7, .s2, .s3,
    .s4, .s5, .s6, .s7, .s8, .s9, .s10, .s11, .t3, .t4, .t5, .t6]

/-- The field of `struct regs` of the same name. -/
def Gpr.reg : Gpr → Reg
  | .ra => .ra | .sp => .sp | .gp => .gp | .tp => .tp
  | .t0 => .t0 | .t1 => .t1 | .t2 => .t2
  | .s0 => .s0 | .s1 => .s1
  | .a0 => .a0 | .a1 => .a1 | .a2 => .a2 | .a3 => .a3
  | .a4 => .a4 | .a5 => .a5 | .a6 => .a6 | .a7 => .a7
  | .s2 => .s2 | .s3 => .s3 | .s4 => .s4 | .s5 => .s5 | .s6 => .s6
  | .s7 => .s7 | .s8 => .s8 | .s9 => .s9 | .s10 => .s10 | .s11 => .s11
  | .t3 => .t3 | .t4 => .t4 | .t5 => .t5 | .t6 => .t6

/-- What `csrr` reads here. -/
inductive Csr where
  | mepc | mcause | mtval | mhartid
deriving DecidableEq

/-- `mstatus.MPP`. -/
inductive Mode where
  | user | machine
deriving DecidableEq

/-! ## Instructions -/

/-- What the assembler and the linker fill in. -/
inductive Symbol where
  | globalPointer
  /-- `stack - MIN_HARTID*STACK_SIZE`. -/
  | stackTop
  | syscallVector
  /-- `LOG_STACK_SIZE`. -/
  | logStackSize
  /-- `NUM_OF_SYSNR`. -/
  | numOfSysnr
deriving DecidableEq

/-- Where `trap.S` jumps to. -/
inductive Label where
  | trapEntry | trapException | trapTimerPreempted | trapTimer | trapSyscall
  /-- The local label `2`. -/
  | jumpSyscall
  | trapResumeProc | hang
deriving DecidableEq

/-- An immediate is a number or what the linker puts for a symbol. -/
inductive Imm where
  | lit (w : Word)
  | sym (s : Symbol)
deriving DecidableEq

/-- What an instruction puts into its destination. -/
inductive Operand where
  | imm (i : Imm)
  | reg (g : Gpr)
  | csr (c : Csr)
  | addi (g : Gpr) (i : Imm)
  | add (g g' : Gpr)
  | sub (g g' : Gpr)
  | slli (g : Gpr) (i : Imm)
deriving DecidableEq

/-- The conditions of the branches that `trap.S` has. -/
inductive Cond where
  | eqz (g : Gpr)
  | ltz (g : Gpr)
  | gez (g : Gpr)
  | eq (g g' : Gpr)
  | geu (g g' : Gpr)
deriving DecidableEq

/-- The instructions that `trap.S` is written in. Every store and load goes through `tp`, and none
    goes anywhere but to the process's control block. -/
inductive Instr where
  /-- `sd src,(PROC_REGS + REGS_R)(tp)`. -/
  | sd (src : Gpr) (r : Reg)
  /-- `ld dst,(PROC_REGS + REGS_R)(tp)`. -/
  | ld (dst : Gpr) (r : Reg)
  | set (dst : Gpr) (o : Operand)
  /-- `csrrw dst,mscratch,src`; without a `src` it is `zero`. -/
  | csrrw (dst : Gpr) (src : Option Gpr)
  /-- `csrw mscratch,src`. -/
  | csrwMscratch (src : Gpr)
  /-- `csrw mepc,src`. -/
  | csrwMepc (src : Gpr)
  /-- `csrw mstatus,imm`. -/
  | csrwMstatus (imm : Word)
  | branch (c : Cond) (l : Label)
  | j (l : Label)
  /-- `call` or `jalr` of C code that returns. -/
  | call
  /-- `tail sched_yield`. -/
  | tailSchedYield
  | mret
  | wfi
deriving DecidableEq

namespace Instr

/-- The instructions that set a register, under the assembler's names. -/
def li (dst : Gpr) (i : Imm) : Instr := .set dst (.imm i)
def la (dst : Gpr) (s : Symbol) : Instr := .set dst (.imm (.sym s))
def mv (dst src : Gpr) : Instr := .set dst (.reg src)
def csrr (dst : Gpr) (c : Csr) : Instr := .set dst (.csr c)
def addi (dst src : Gpr) (i : Imm) : Instr := .set dst (.addi src i)
def add (dst src src' : Gpr) : Instr := .set dst (.add src src')
def sub (dst src src' : Gpr) : Instr := .set dst (.sub src src')
def slli (dst src : Gpr) (i : Imm) : Instr := .set dst (.slli src i)

/-- The branches, under theirs. -/
def beqz (g : Gpr) (l : Label) : Instr := .branch (.eqz g) l
def bltz (g : Gpr) (l : Label) : Instr := .branch (.ltz g) l
def bgez (g : Gpr) (l : Label) : Instr := .branch (.gez g) l
def beq (g g' : Gpr) (l : Label) : Instr := .branch (.eq g g') l
def bgeu (g g' : Gpr) (l : Label) : Instr := .branch (.geu g g') l

end Instr

open Instr

/-! ## `src/macros.S` and `src/trap.S` -/

/-- `load_gp`, the macro. -/
def loadGp : List Instr := [la .gp .globalPointer]

/-- Each hart has a stack of its own, below those of the harts before it. -/
def loadSp : List Instr :=
  [la .sp .stackTop, csrr .t1 .mhartid, slli .t1 .t1 (.sym .logStackSize), sub .sp .sp .t1]

/-- All user registers but `tp` and the program counter, which the caller of the macro saves. -/
def saveContext : List Instr :=
  [sd .ra .ra, sd .sp .sp, sd .gp .gp,
    sd .t0 .t0, sd .t1 .t1, sd .t2 .t2, sd .s0 .s0, sd .s1 .s1,
    sd .a0 .a0, sd .a1 .a1, sd .a2 .a2, sd .a3 .a3, sd .a4 .a4, sd .a5 .a5, sd .a6 .a6, sd .a7 .a7,
    sd .s2 .s2, sd .s3 .s3, sd .s4 .s4, sd .s5 .s5, sd .s6 .s6, sd .s7 .s7, sd .s8 .s8, sd .s9 .s9,
    sd .s10 .s10, sd .s11 .s11, sd .t3 .t3, sd .t4 .t4, sd .t5 .t5, sd .t6 .t6]

/-- `sp`, `gp` and `tp` are left to the end, since the loads go through `tp`. -/
def restoreContext : List Instr :=
  [ld .t6 .t6, ld .t5 .t5, ld .t4 .t4, ld .t3 .t3, ld .s11 .s11, ld .s10 .s10, ld .s9 .s9,
    ld .s8 .s8, ld .s7 .s7, ld .s6 .s6, ld .s5 .s5, ld .s4 .s4, ld .s3 .s3, ld .s2 .s2,
    ld .a7 .a7, ld .a6 .a6, ld .a5 .a5, ld .a4 .a4, ld .a3 .a3, ld .a2 .a2, ld .a1 .a1, ld .a0 .a0,
    ld .s1 .s1, ld .s0 .s0, ld .t2 .t2, ld .t1 .t1, ld .t0 .t0, ld .ra .ra]

/-- Interrupts are on in the first part, up to the second write of `mstatus`; what has been loaded
    until then can be lost, and is loaded again. -/
def trapResumeProc : List Instr :=
  [csrwMstatus 8, ld .t0 .pc, csrwMepc .t0] ++ restoreContext ++
    [csrwMstatus 0, csrwMscratch .tp, ld .sp .sp, ld .gp .gp, ld .tp .tp, .mret]

/-- The call, and the store of what it returns. -/
def jumpSyscall : List Instr := [call, sd .a0 .a0] ++ trapResumeProc

/-- The saved program counter is moved behind the `ecall` before the call. The comparison is of
    `t0`; numbers past the end go to the first entry of the vector. -/
def trapSyscall : List Instr :=
  [addi .s0 .s0 (.lit 4), sd .s0 .pc, la .ra .syscallVector, li .t1 (.sym .numOfSysnr),
    bgeu .t0 .t1 .jumpSyscall, slli .t0 .t0 (.lit 2), add .ra .ra .t0] ++ jumpSyscall

/-- Both ways of a timer interrupt end in the scheduler. -/
def trapTimer : List Instr := [tailSchedYield]

/-- An interrupt of the kernel itself: nothing is saved, and `tp` is the process's again. -/
def trapTimerPreempted : List Instr :=
  [csrrw .tp none, csrr .t0 .mcause, bgez .t0 .hang] ++ trapTimer

/-- The handler gets the cause, the value and the program counter; then the process goes on where it
    says. -/
def trapException : List Instr :=
  [mv .a0 .s1, mv .a2 .s0, csrr .a1 .mtval, call, j .trapResumeProc]

/-- `mscratch` is zero while the kernel runs, which tells a trap of user code from one of the
    kernel. -/
def trapEntry : List Instr :=
  [csrrw .tp (some .tp), beqz .tp .trapTimerPreempted] ++ saveContext ++
    [csrr .s0 .mepc, csrrw .t1 none, sd .s0 .pc, sd .t1 .tp] ++ loadGp ++ loadSp ++
    [csrr .s1 .mcause, bltz .s1 .trapTimer, li .t1 (.lit 8), beq .s1 .t1 .trapSyscall] ++
    trapException

/-- The hart waits for ever. -/
def hang : List Instr := [wfi, j .hang]

/-- What stands behind each label, to the next jump. -/
def code : Label → List Instr
  | .trapEntry => trapEntry
  | .trapException => trapException
  | .trapTimerPreempted => trapTimerPreempted
  | .trapTimer => trapTimer
  | .trapSyscall => trapSyscall
  | .jumpSyscall => jumpSyscall
  | .trapResumeProc => trapResumeProc
  | .hang => hang

/-! ## The machine -/

/-- Where the code and the control blocks lie, and what `trap.S` relies on: that the control blocks
    are all within the address space, and none of them at its start. -/
structure Layout where
  symbol : Symbol → Word
  nProc : Nat
  /-- The address of `processes`. -/
  processes : Word
  processes_ne : processes ≠ 0
  /-- The array ends within the address space; `struct proc` has five doublewords after `regs`. -/
  fits : processes.toNat + nProc * (8 * (nRegisters + 5)) ≤ 2 ^ 64

variable (lay : Layout)

/-- What a hart executes. -/
inductive Control where
  /-- User code, at this address. -/
  | user (pc : Word)
  /-- `trap.S`, at these instructions. -/
  | asm (rest : List Instr)
  /-- `exception_handler` or a system call, which returns to these instructions. -/
  | handler (rest : List Instr)
  /-- `sched_yield`, up to its `proc_release`. -/
  | yield
  /-- `sched_start`. -/
  | start
  /-- Any other code in machine mode. -/
  | lost
deriving DecidableEq

/-- The registers of a hart that `trap.S` reads or writes, and where the hart is. -/
structure Hart where
  gpr : Gpr → Word
  mscratch : Word
  mepc : Word
  mcause : Word
  mtval : Word
  mhartid : Word
  mie : Bool
  mpie : Bool
  mpp : Mode
  control : Control
  /-- The process that the hart has acquired and not released. -/
  holds : Option Nat

/-- The address of a control block. -/
def Layout.proc (p : Nat) : Word := lay.processes + BitVec.ofNat 64 (p * (8 * (nRegisters + 5)))

/-- `PROC_REGS + REGS_R`, as `gen/asm_consts.c` has the compiler compute it: `regs` is the first
    member of `struct proc`. -/
def offset (r : Reg) : Word := BitVec.ofNat 64 (8 * Reg.all.idxOf r)

/-- The layout says what the symbols are. -/
def Layout.imm : Imm → Word
  | .lit w => w
  | .sym s => lay.symbol s

/-- The doublewords of the memory, by address. `trap.S` loads and stores nothing else. -/
abbrev Memory := Word → Word

namespace Hart

variable (x : Hart)

/-- A write to one register leaves the others. -/
def setGpr (g : Gpr) (w : Word) : Hart := { x with gpr := Function.update x.gpr g w }

/-- The control registers that are read. -/
def csr : Csr → Word
  | .mepc => x.mepc
  | .mcause => x.mcause
  | .mtval => x.mtval
  | .mhartid => x.mhartid

/-- What the instructions put into their destination. -/
def operand : Operand → Word
  | .imm i => lay.imm i
  | .reg g => x.gpr g
  | .csr c => x.csr c
  | .addi g i => x.gpr g + lay.imm i
  | .add g g' => x.gpr g + x.gpr g'
  | .sub g g' => x.gpr g - x.gpr g'
  | .slli g i => x.gpr g <<< (lay.imm i).toNat

/-- Whether a branch is taken. The ordering is that of signed or of unsigned numbers, by the
    instruction. -/
def cond : Cond → Bool
  | .eqz g => x.gpr g == 0
  | .ltz g => (x.gpr g).slt 0
  | .gez g => !(x.gpr g).slt 0
  | .eq g g' => x.gpr g == x.gpr g'
  | .geu g g' => (x.gpr g').ule (x.gpr g)

/-- `mstatus.MIE`, `MPIE` and `MPP` are the bits 3, 7 and 11 to 12. -/
def setMstatus (w : Word) : Hart :=
  { x with
    mie := w.getLsbD 3
    mpie := w.getLsbD 7
    mpp := if w.extractLsb' 11 2 = 3 then .machine else .user }

/-- A trap from `mode`, where `pc` is. -/
def takeTrap (mode : Mode) (pc cause tval : Word) : Hart :=
  { x with
    mepc := pc
    mcause := cause
    mtval := tval
    mpie := x.mie
    mie := false
    mpp := mode
    control := .asm trapEntry }

/-- Where the instruction `i`, followed by `rest`, leaves the hart. -/
def exec (mem : Memory) (rest : List Instr) : Instr → Hart
  | .sd _ _ => { x with control := .asm rest }
  | .ld dst r => { x.setGpr dst (mem (x.gpr .tp + offset r)) with control := .asm rest }
  | .set dst o => { x.setGpr dst (operand lay x o) with control := .asm rest }
  | .csrrw dst src =>
    { x.setGpr dst x.mscratch with
      mscratch := (src.map x.gpr).getD 0
      control := .asm rest }
  | .csrwMscratch src => { x with mscratch := x.gpr src, control := .asm rest }
  | .csrwMepc src => { x with mepc := x.gpr src, control := .asm rest }
  | .csrwMstatus imm => { x.setMstatus imm with control := .asm rest }
  | .branch c l => { x with control := .asm (if x.cond c then code l else rest) }
  | .j l => { x with control := .asm (code l) }
  | .call => { x with control := .handler rest }
  | .tailSchedYield => { x with control := .yield }
  | .mret =>
    { x with
      mie := x.mpie
      mpie := true
      mpp := .user
      control := match x.mpp with
        | .user => .user x.mepc
        | .machine => .lost }
  | .wfi => { x with control := .asm rest }

/-- What the instruction stores. -/
def store (mem : Memory) : Instr → Memory
  | .sd src r => Function.update mem (x.gpr .tp + offset r) (x.gpr src)
  | _ => mem

/-- Interrupts of user code are always taken, those of the kernel only while `mie` is set. -/
def inMachineMode : Bool :=
  match x.control with
  | .user _ => false
  | _ => true

end Hart

/-- The harts and the memory that they share, at the level of single instructions. -/
structure State (ι : Type) where
  harts : ι → Hart
  mem : Memory

variable {ι : Type} [DecidableEq ι]

/-- What happens on a hart. -/
inductive Event where
  /-- User code goes on. -/
  | user (gpr : Gpr → Word) (pc : Word) (mem : Memory)
  /-- User code is interrupted by the timer, calls the kernel or raises an exception. -/
  | trap (cause tval : Word)
  /-- The timer interrupts the kernel; `pc` is the address of the instruction. -/
  | timer (pc : Word)
  /-- One instruction of `trap.S`. -/
  | instr
  /-- C code goes on; `writes` are the processes whose registers it stores to. -/
  | work (gpr : Gpr → Word) (mie : Bool) (mem : Memory) (writes : Nat → Bool)
  /-- C code returns. -/
  | ret
  /-- A system call yields. -/
  | yield
  /-- `proc_release(current)` in `sched_yield`. -/
  | release (gpr : Gpr → Word) (mem : Memory)
  /-- `sched_start` acquires a process and resumes it. -/
  | dispatch (p : Nat) (gpr : Gpr → Word) (mem : Memory)

/-- `mcause` of a timer interrupt. -/
def timerCause : Word := BitVec.ofNat 64 (2 ^ 63 + 7)

/-- Of the register blocks, only those of `writes` change. -/
def KeepsBlocks (mem mem' : Memory) (writes : Nat → Bool) : Prop :=
  ∀ p, p < lay.nProc → writes p = false →
    ∀ r, mem' (lay.proc p + offset r) = mem (lay.proc p + offset r)

/-- The steps of a hart `h`, which is in state `x`. User code cannot store to the control blocks,
    and the scheduler does not store to their registers. -/
inductive Step (s : State ι) (h : ι) (x : Hart) : Event → State ι → Prop
  | user {pc gpr pc' mem} (hc : x.control = .user pc)
    (hmem : KeepsBlocks lay s.mem mem fun _ => false) :
    Step s h x (.user gpr pc' mem)
      ⟨Function.update s.harts h { x with gpr := gpr, control := .user pc' }, mem⟩
  | trap {pc cause tval} (hc : x.control = .user pc) :
    Step s h x (.trap cause tval)
      ⟨Function.update s.harts h (x.takeTrap .user pc cause tval), s.mem⟩
  | timer {pc} (hmode : x.inMachineMode = true) (hmie : x.mie = true) :
    Step s h x (.timer pc)
      ⟨Function.update s.harts h (x.takeTrap .machine pc timerCause 0), s.mem⟩
  | instr {i rest} (hc : x.control = .asm (i :: rest)) :
    Step s h x .instr ⟨Function.update s.harts h (x.exec lay s.mem rest i), x.store s.mem i⟩
  | work {rest gpr mie mem writes} (hc : x.control = .handler rest) (htp : gpr .tp = x.gpr .tp)
    (hmem : KeepsBlocks lay s.mem mem writes) :
    Step s h x (.work gpr mie mem writes)
      ⟨Function.update s.harts h { x with gpr := gpr, mie := mie }, mem⟩
  | ret {rest} (hc : x.control = .handler rest) :
    Step s h x .ret ⟨Function.update s.harts h { x with control := .asm rest }, s.mem⟩
  /-- No system call yields with preemption enabled. -/
  | yield {rest} (hc : x.control = .handler rest) (hmie : x.mie = false) :
    Step s h x .yield ⟨Function.update s.harts h { x with control := .yield }, s.mem⟩
  | release {gpr mem} (hc : x.control = .yield)
    (hmem : KeepsBlocks lay s.mem mem fun _ => false) :
    Step s h x (.release gpr mem)
      ⟨Function.update s.harts h { x with gpr := gpr, control := .start, holds := none }, mem⟩
  | dispatch {p gpr mem} (hc : x.control = .start) (hp : p < lay.nProc)
    (hfree : ∀ k, (s.harts k).holds ≠ some p) (htp : gpr .tp = lay.proc p)
    (hmem : KeepsBlocks lay s.mem mem fun _ => false) :
    Step s h x (.dispatch p gpr mem) ⟨Function.update s.harts h
      { x with gpr := gpr, control := .asm trapResumeProc, holds := some p }, mem⟩

/-- The steps of all harts, in any order; there is no fairness. -/
def Next (s : State ι) (l : ι × Event) (s' : State ι) : Prop := Step lay s l.1 (s.harts l.1) l.2 s'

/-- Every hart has come to `sched_start`, with `mscratch` and `mstatus` as `init.S` sets them. -/
def Initial (s : State ι) : Prop :=
  ∀ h, (s.harts h).control = .start ∧ (s.harts h).holds = none ∧ (s.harts h).mscratch = 0 ∧
    (s.harts h).mie = false

end Trap
end SepKernel
