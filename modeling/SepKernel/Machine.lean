import SepKernel.Entries
import Mathlib.Data.List.ProdSigma

/-!
# Harts, memory and the kernel

The machine that runs the kernel, as far as the sources have it: every hart executes `trap.S` one
instruction at a time, and the control blocks are in memory. A C function that the assembly calls is
one step, which nothing interrupts, with the registers of all processes as it finds them there. The
timer may interrupt any instruction of user code and, where preemption is enabled, of `trap.S`. User
code may change its registers and whatever memory is not a control block.

A step in which C code runs to its end shows what it was called for, with the registers that the
user code had when it trapped.
-/

namespace SepKernel
namespace Trap

open Instr

variable (cfg : Config) (lay : Layout)

/-- The harts down to their registers, over the memory with the control blocks, and the kernel's
    other variables as the C functions find them. -/
structure Machine where
  harts : Nat → Hart
  mem : Memory
  /-- All memory of the kernel but the registers in the control blocks. -/
  kernel : Kernel
  pmp : Nat → PmpRegs
  mtimecmp : Nat → Word
  /-- Ghost state: the trap that a hart has not handled yet. -/
  trapped : Nat → Option Trapped

/-- The jumps of `syscall_vector`, with the arguments in their registers. -/
def syscallEntries (current : Nat) (mtimecmp : Word) : List ((Gpr → Word) → KernelM Outcome) :=
  [fun _ => return .ret errorUnimplemented,
    fun x => syscallReadCap cfg current (x .a0),
    fun x => syscallMoveCap cfg current (x .a0) (x .a1),
    fun x => syscallDeleteCap cfg current (x .a0),
    fun x => syscallRevokeCap cfg current (x .a0),
    fun x => syscallDeriveCap cfg current (x .a0) (x .a1) (x .a2) (x .a3),
    fun x => syscallInvokeCap cfg current (x .a0) (x .a1) (x .a2) (x .a3) (x .a4) (x .a5),
    fun _ => syscallGetPid current,
    fun x => syscallReadReg current (x .a0),
    fun x => syscallWriteReg current (x .a0) (x .a1),
    fun _ => syscallYield current mtimecmp]

/-- The control blocks have the registers of the kernel's processes. -/
def Represents (k : Kernel) (mem : Memory) : Prop :=
  ∀ p < lay.nProc, cells mem (lay.proc p) = (k.procs p).regs

/-- The process and the register whose place is at this address. -/
def Layout.field (a : Word) : Option (Nat × Reg) :=
  (List.range lay.nProc ×ˢ Reg.all).find? fun f => lay.proc f.1 + offset f.2 = a

/-- The memory `mem`, but for the registers of `k`, which are in their places. -/
def Layout.blocks (mem : Memory) (k : Kernel) : Memory := fun a =>
  match lay.field a with
  | some f => (k.procs f.1).regs f.2
  | none => mem a

/-- All memory but the registers in the control blocks is as it was. -/
def KeepsOthers (mem mem' : Memory) : Prop :=
  ∀ a, (∀ p < lay.nProc, ∀ r, a ≠ lay.proc p + offset r) → mem' a = mem a

theorem KeepsOthers.trans {mem mem' mem'' : Memory} (h : KeepsOthers lay mem mem')
    (h' : KeepsOthers lay mem' mem'') : KeepsOthers lay mem mem'' :=
  fun a ha => (h' a ha).trans (h a ha)

theorem Layout.of_field {a : Word} {f : Nat × Reg} (hf : lay.field a = some f) :
    f.1 < lay.nProc ∧ lay.proc f.1 + offset f.2 = a := by
  have hmem := (List.mem_product.mp (List.mem_of_find?_eq_some hf)).1
  exact ⟨List.mem_range.mp hmem, by simpa using List.find?_some hf⟩

/-- No two registers have the same place. -/
theorem Layout.field_proc {p : Nat} (hp : p < lay.nProc) (r : Reg) :
    lay.field (lay.proc p + offset r) = some (p, r) := by
  cases hf : lay.field (lay.proc p + offset r) with
  | none =>
    have hmem : (p, r) ∈ List.range lay.nProc ×ˢ Reg.all :=
      List.mem_product.mpr ⟨List.mem_range.mpr hp, mem_allRegs r⟩
    exact absurd (decide_eq_true rfl) (List.find?_eq_none.mp hf (p, r) hmem)
  | some f =>
    obtain ⟨hlt, heq⟩ := lay.of_field hf
    have hproc : f.1 = p := by
      by_contra hne
      exact lay.field_ne hp hlt hne f.2 r heq
    rw [hproc] at heq
    rw [← hproc, ← offset_injective ((BitVec.add_right_inj _).mp heq)]

/-- The memory that a C function leaves has the kernel's control blocks in it. -/
theorem represents_blocks (mem : Memory) (k : Kernel) : Represents lay k (lay.blocks mem k) := by
  intro p hp
  funext r
  rw [cells, Layout.blocks, lay.field_proc hp r]

/-- And everything else as it was. -/
theorem keepsOthers_blocks (mem : Memory) (k : Kernel) : KeepsOthers lay mem (lay.blocks mem k) := by
  intro a ha
  rw [Layout.blocks]
  cases hf : lay.field a with
  | none => rfl
  | some f =>
    obtain ⟨hlt, heq⟩ := lay.of_field hf
    exact absurd heq.symm (ha f.1 hlt f.2)

namespace Machine

variable (m : Machine) (h : Nat)

/-- The kernel as C code finds it. -/
def loaded : Kernel := { m.kernel with
  procs := fun p => if p < lay.nProc then
    { m.kernel.procs p with regs := cells m.mem (lay.proc p) } else m.kernel.procs p }

/-- An instruction changes its hart and the memory. -/
def setHart (x : Hart) (mem : Memory) : Machine :=
  { m with harts := Function.update m.harts h x, mem := mem }

theorem setHart_same (x : Hart) (mem : Memory) : (m.setHart h x mem).harts h = x :=
  Function.update_self ..

/-- The trap has been handled. -/
def untrap : Machine := { m with trapped := Function.update m.trapped h none }

/-- What a trap that has been handled shows. -/
def label (f : Trapped → SepKernel.Label) : Option SepKernel.Label := (m.trapped h).map f

/-- The registers that the process `p` has lost the hart with: those of its user code, or those that
    are in its block. Where `trap.S` is interrupted before it stores what a call returned, the
    process goes on with the `a0` that the call left there. -/
def lost (p : Nat) : Reg → Word :=
  ((m.trapped h).map Trapped.user).getD (cells m.mem (lay.proc p))

/-- What the hart `h` may do. C code that returns keeps `tp`, and leaves in `a0` what it returns;
    otherwise it leaves in the registers what it likes. A system call may return with preemption
    enabled, as `syscall_revoke_cap` and `syscall_derive_cap` do with their errors. -/
inductive Step : Option SepKernel.Label → Machine → Prop
  | user {pc gpr pc' mem} (hc : (m.harts h).control = .user pc)
    (hmem : KeepsBlocks lay m.mem mem fun _ => false) :
    Step none (m.setHart h { m.harts h with gpr := gpr, control := .user pc' } mem)
  | trap {pc cause tval} (hc : (m.harts h).control = .user pc) :
    Step none { m.setHart h ((m.harts h).takeTrap .user pc cause tval) m.mem with
      trapped := Function.update m.trapped h (some ⟨context pc (m.harts h).gpr, cause, tval⟩) }
  | timer {pc} (hmode : (m.harts h).inMachineMode = true) (hmie : (m.harts h).mie = true) :
    Step none (m.setHart h ((m.harts h).takeTrap .machine pc timerCause 0) m.mem)
  | instr {i rest} (hc : (m.harts h).control = .asm (i :: rest)) :
    Step none (m.setHart h ((m.harts h).exec lay m.mem rest i) ((m.harts h).store m.mem i))
  /-- A system call that returns. -/
  | syscall {p i f code k gpr mie mem}
    (hc : (m.harts h).control = .handler (sd .a0 .a0 :: trapResumeProc)) (hp : p < lay.nProc)
    (htp : (m.harts h).gpr .tp = lay.proc p)
    (hra : (m.harts h).gpr .ra = lay.symbol .syscallVector + 4 * i)
    (hf : (syscallEntries cfg p (m.mtimecmp h))[i.toNat]? = some f)
    (hrun : (f (m.harts h).gpr).run (m.loaded lay) = .ok (.ret code, k))
    (hgpr : gpr .tp = (m.harts h).gpr .tp) (ha0 : gpr .a0 = code) (hmem : Represents lay k mem) :
    Step (m.label h fun t => .ecall h t.user) { (m.setHart h { m.harts h with
      gpr := gpr
      mie := mie
      control := .asm (sd .a0 .a0 :: trapResumeProc) } mem).untrap h with kernel := k }
  /-- A system call that yields. -/
  | yields {p i f k gpr mem}
    (hc : (m.harts h).control = .handler (sd .a0 .a0 :: trapResumeProc)) (hp : p < lay.nProc)
    (htp : (m.harts h).gpr .tp = lay.proc p)
    (hra : (m.harts h).gpr .ra = lay.symbol .syscallVector + 4 * i)
    (hf : (syscallEntries cfg p (m.mtimecmp h))[i.toNat]? = some f)
    (hrun : (f (m.harts h).gpr).run (m.loaded lay) = .ok (.yielded, k))
    (hmem : Represents lay k mem) :
    Step (m.label h fun t => .ecall h t.user) { (m.setHart h { m.harts h with
      gpr := gpr, control := .start, holds := none } mem).untrap h with kernel := k }
  | exception {p k gpr mem} (hc : (m.harts h).control = .handler [.j .trapResumeProc])
    (hp : p < lay.nProc) (htp : (m.harts h).gpr .tp = lay.proc p)
    (hrun : (exceptionHandler p ((m.harts h).gpr .a0) ((m.harts h).gpr .a1)
      ((m.harts h).gpr .a2)).run (m.loaded lay) = .ok ((), k))
    (hgpr : gpr .tp = (m.harts h).gpr .tp) (hmem : Represents lay k mem) :
    Step (m.label h fun t => .exception h t.user t.cause t.tval) { (m.setHart h { m.harts h with
      gpr := gpr, control := .asm [.j .trapResumeProc] } mem).untrap h with kernel := k }
  /-- `sched_yield`, from `trap_timer`. -/
  | yield {p k gpr mem} (hc : (m.harts h).control = .yield) (hp : p < lay.nProc)
    (htp : (m.harts h).gpr .tp = lay.proc p)
    (hrun : (schedYield p).run (m.loaded lay) = .ok (.yielded, k)) (hmem : Represents lay k mem) :
    Step (some (.timer h (m.lost lay h p))) { (m.setHart h { m.harts h with
      gpr := gpr, control := .start, holds := none } mem).untrap h with kernel := k }
  /-- A round of `sched_start` that finds nothing. -/
  | idle {mtime k gpr mem} (hc : (m.harts h).control = .start)
    (hlo : cfg.minHartid ≤ h) (hhi : h ≤ cfg.maxHartid)
    (hrun : (schedStartRound cfg h mtime).run (m.loaded lay) = .ok (none, k))
    (hmem : Represents lay k mem) :
    Step (some (.schedule h mtime))
      { m.setHart h { m.harts h with gpr := gpr } mem with kernel := k }
  /-- One that finds a process, and the end of `sched_start`. -/
  | dispatch {mtime d k pmp gpr mem} (hc : (m.harts h).control = .start)
    (hlo : cfg.minHartid ≤ h) (hhi : h ≤ cfg.maxHartid)
    (hrun : (schedStartRound cfg h mtime).run (m.loaded lay) = .ok (some d, k))
    (hpmp : if cfg.memoryProtection then (procLoadPmp cfg d.proc).run k = .ok (pmp, k)
      else pmp = m.pmp h)
    (htp : gpr .tp = lay.proc d.proc) (hmem : Represents lay k mem) :
    Step (some (.schedule h mtime)) { m.setHart h { m.harts h with
        gpr := gpr, control := .asm trapResumeProc, holds := some d.proc } mem with
      kernel := k
      pmp := Function.update m.pmp h pmp
      mtimecmp := Function.update m.mtimecmp h
        (waitAndSetTimeout cfg d.time d.length d.timeout).2 }

/-- The steps of all harts, in any order: each goes on in its user program, in `trap.S`, or does a C
    function. -/
def Next (m : Machine) (l : Option SepKernel.Label) (m' : Machine) : Prop :=
  ∃ h, m.Step cfg lay h l m'

/-- `proc_init` and `sched_init` are done, and every hart has come to `sched_start`. -/
structure Initial (m : Machine) : Prop where
  harts : Trap.Initial ⟨m.harts, m.mem⟩
  booted : Booted cfg (.start m.kernel)
  represents : Represents lay m.kernel m.mem
  pmp : ∀ h, m.pmp h = ⟨0, fun _ => 0⟩
  mtimecmp : ∀ h, m.mtimecmp h = 0
  trapped : ∀ h, m.trapped h = none

end Machine

end Trap
end SepKernel
