import SepKernel.Preemption
import SepKernel.Unread

/-!
# From a trap to the C code

`trap_entry`, on a hart that nobody interrupts and for a control block that nobody else stores to:
by the time it calls C code the registers of the user code are in the block, and what the code
called finds in the argument registers is what the user code put there. A system call comes to the
jump that its number selects.
-/

namespace SepKernel
namespace Trap

open Instr

variable {lay : Layout} {x y : Hart} {cell cell' : Reg → Word} {mem : Memory} {rest : List Instr}
  {i : Instr} {pc ptr cause tval : Word}

/-! ## One hart and its block -/

/-- An instruction, where `cell` is what the control block holds. -/
def Hart.execCell (lay : Layout) (x : Hart) (cell : Reg → Word) (rest : List Instr) : Instr → Hart
  | .ld dst r => { x.setGpr dst (cell r) with control := .asm rest }
  | i => x.exec lay (fun _ => 0) rest i

/-- What an instruction does to the control block. -/
def Hart.storeCell (x : Hart) (cell : Reg → Word) : Instr → Reg → Word
  | .sd src r => Function.update cell r (x.gpr src)
  | _ => cell

/-- The instruction loads from the block or stores to it. -/
def Accesses : Instr → Bool
  | .sd _ _ | .ld _ _ => true
  | _ => false

/-- An instruction sees no memory but the control block. -/
theorem exec_eq (htp : Accesses i = true → x.gpr .tp = ptr) (mem : Memory) (rest : List Instr) :
    x.exec lay mem rest i = x.execCell lay (cells mem ptr) rest i := by
  cases i with
  | ld dst r =>
    rw [Hart.exec, htp rfl]
    rfl
  | _ => rfl

/-- And stores to no other. -/
theorem cells_store (htp : Accesses i = true → x.gpr .tp = ptr) (mem : Memory) :
    cells (x.store mem i) ptr = x.storeCell (cells mem ptr) i := by
  cases i with
  | sd src r =>
    rw [Hart.store, htp rfl, cells_update]
    rfl
  | _ => rfl

/-- Instructions with preemption disabled. -/
def Runs (lay : Layout) (x : Hart) (cell : Reg → Word) (y : Hart) (cell' : Reg → Word) : Prop :=
  Relation.ReflTransGen (fun s s' : Hart × (Reg → Word) => s.1.mie = false ∧
    ∃ i rest, s.1.control = .asm (i :: rest) ∧
      s' = (s.1.execCell lay s.2 rest i, s.1.storeCell s.2 i)) (x, cell) (y, cell')

namespace Runs

theorem refl (x : Hart) (cell : Reg → Word) : Runs lay x cell x cell :=
  Relation.ReflTransGen.refl

theorem single (hmie : x.mie = false) (hc : x.control = .asm (i :: rest)) :
    Runs lay x cell (x.execCell lay cell rest i) (x.storeCell cell i) :=
  Relation.ReflTransGen.single ⟨hmie, i, rest, hc, rfl⟩

/-- Runs one after the other. -/
theorem trans {z : Hart} {cell'' : Reg → Word} (h : Runs lay x cell y cell')
    (h' : Runs lay y cell' z cell'') : Runs lay x cell z cell'' :=
  Relation.ReflTransGen.trans h h'

/-- There is only one way to where the assembly ends. -/
theorem next (h : Runs lay x cell y cell') (hx : x.control = .asm (i :: rest))
    (hy : ∀ l, y.control ≠ .asm l) : x.mie = false ∧
      Runs lay (x.execCell lay cell rest i) (x.storeCell cell i) y cell' := by
  rcases Relation.ReflTransGen.cases_head h with heq | ⟨s, ⟨hmie, j, rest', hc, rfl⟩, hs⟩
  · obtain ⟨rfl, -⟩ := Prod.mk.inj heq
    exact absurd hx (hy _)
  · obtain ⟨rfl, rfl⟩ := List.cons.inj (Control.asm.inj (hc.symm.trans hx))
    exact ⟨hmie, hs⟩

/-- What ends with interrupts off has begun so. -/
theorem mie (h : Runs lay x cell y cell') (hy : y.mie = false) : x.mie = false := by
  rcases Relation.ReflTransGen.cases_head h with heq | ⟨s, ⟨hmie, -⟩, -⟩
  · obtain ⟨rfl, -⟩ := Prod.mk.inj heq
    exact hy
  · exact hmie

/-- Where the assembly ends. -/
theorem eq_of_not_asm (h : Runs lay x cell y cell') (hx : ∀ l, x.control ≠ .asm l) :
    x = y ∧ cell = cell' := by
  rcases Relation.ReflTransGen.cases_head h with heq | ⟨s, ⟨-, i, rest, hc, -⟩, -⟩
  · exact Prod.mk.inj heq
  · exact absurd hc (hx _)

end Runs

/-! ## Blocks of instructions -/

/-- The instruction is followed by the next one and leaves preemption as it is. -/
def Straight : Instr → Bool
  | .csrwMstatus _ | .branch _ _ | .j _ | .call | .tailSchedYield | .mret => false
  | _ => true

/-- What such instructions make of a hart and its block. -/
def Hart.block (lay : Layout) : List Instr → Hart → (Reg → Word) → Hart × (Reg → Word)
  | [], x, cell => (x, cell)
  | i :: l, x, cell => Hart.block lay l (x.execCell lay cell [] i) (x.storeCell cell i)

theorem execCell_straight (h : Straight i = true) (x : Hart) (cell : Reg → Word) (rest : List Instr) :
    x.execCell lay cell rest i = { x.execCell lay cell [] i with control := .asm rest } := by
  cases i with
  | csrwMstatus | branch | j | call | tailSchedYield | mret => cases h
  | _ => rfl

theorem mie_straight (h : Straight i = true) (x : Hart) (cell : Reg → Word) (rest : List Instr) :
    (x.execCell lay cell rest i).mie = x.mie := by
  cases i with
  | csrwMstatus | branch | j | call | tailSchedYield | mret => cases h
  | _ => rfl

theorem block_control (lay : Layout) (l : List Instr) (x : Hart) (cell : Reg → Word) (c c' : Control) :
    { (Hart.block lay l { x with control := c } cell).1 with control := c' } =
        { (Hart.block lay l x cell).1 with control := c' } ∧
      (Hart.block lay l { x with control := c } cell).2 = (Hart.block lay l x cell).2 := by
  cases l with
  | nil => exact ⟨rfl, rfl⟩
  | cons i l => cases i <;> exact ⟨rfl, rfl⟩

/-- Straight-line code runs as one. -/
theorem runs_block (l : List Instr) (hl : ∀ i ∈ l, Straight i = true) (hmie : x.mie = false)
    (hc : x.control = .asm (l ++ rest)) :
    Runs lay x cell { (Hart.block lay l x cell).1 with control := .asm rest }
      (Hart.block lay l x cell).2 := by
  induction l generalizing x cell with
  | nil =>
    have hx : { x with control := .asm rest } = x := by
      rw [List.nil_append] at hc
      rw [← hc]
    change Runs lay x cell { x with control := .asm rest } cell
    rw [hx]
    exact .refl x cell
  | cons i l ih =>
    obtain ⟨hi, hl⟩ := List.forall_mem_cons.mp hl
    have hmie' : (x.execCell lay cell [] i).mie = false := (mie_straight hi x cell []).trans hmie
    have hstep := @ih { x.execCell lay cell [] i with control := .asm (l ++ rest) }
      (x.storeCell cell i) hl hmie' rfl
    obtain ⟨hblock, hcell⟩ := block_control lay l (x.execCell lay cell [] i)
      (x.storeCell cell i) (.asm (l ++ rest)) (.asm rest)
    rw [hblock, hcell, ← execCell_straight hi] at hstep
    exact (Runs.single hmie hc).trans hstep

/-- A branch goes to its label or on. -/
theorem runs_branch (lay : Layout) (cell : Reg → Word) {c : Cond} {l : Label} (hmie : x.mie = false)
    (hc : x.control = .asm (.branch c l :: rest)) :
    Runs lay x cell { x with control := .asm (if x.cond c then code l else rest) } cell :=
  .single hmie hc

/-- A list of stores saves a list of registers. -/
theorem runs_stores (l : List Gpr) (hmie : x.mie = false)
    (hc : x.control = .asm (l.map (fun g => .sd g g.reg) ++ rest)) {value : Reg → Word}
    (hvalue : ∀ g ∈ l, value g.reg = x.gpr g) : Runs lay x cell { x with control := .asm rest }
      fun r => if r ∈ l.map Gpr.reg then value r else cell r := by
  induction l generalizing x cell with
  | nil =>
    have hx : { x with control := .asm rest } = x := by
      rw [List.map_nil, List.nil_append] at hc
      rw [← hc]
    rw [hx]
    exact .refl x cell
  | cons g l ih =>
    obtain ⟨hg, hl⟩ := List.forall_mem_cons.mp hvalue
    have hstep := @ih { x with control := .asm (l.map (fun g => .sd g g.reg) ++ rest) }
      (Function.update cell g.reg (x.gpr g)) hmie rfl hl
    have hcell : (fun r => if r ∈ (g :: l).map Gpr.reg then value r else cell r) = fun r =>
        if r ∈ l.map Gpr.reg then value r else Function.update cell g.reg (x.gpr g) r := by
      funext r
      have hcons : r ∈ (g :: l).map Gpr.reg ↔ r = g.reg ∨ r ∈ l.map Gpr.reg := List.mem_cons
      rw [if_congr hcons rfl rfl]
      by_cases hr : r ∈ l.map Gpr.reg
      · rw [if_pos hr, if_pos (Or.inr hr)]
      · rw [if_neg hr]
        by_cases he : r = g.reg
        · rw [if_pos (Or.inl he), he, Function.update_self, hg]
        · rw [if_neg fun h => h.elim he hr, Function.update_of_ne he]
    rw [hcell]
    exact (Runs.single hmie hc).trans hstep

/-! ## Entering -/

/-- What is in the block once the registers `user` of the user code are saved. -/
def savedCell (user cell : Reg → Word) (r : Reg) : Word := if r.isUser then user r else cell r

/-- What `save_context` stores. -/
def stored : List Gpr :=
  [.ra, .sp, .gp, .t0, .t1, .t2, .s0, .s1, .a0, .a1, .a2, .a3, .a4, .a5, .a6, .a7, .s2, .s3, .s4,
    .s5, .s6, .s7, .s8, .s9, .s10, .s11, .t3, .t4, .t5, .t6]

/-- The macro and the two stores behind it save every user register. -/
theorem isUser_iff (r : Reg) : r.isUser = true ↔ r = .tp ∨ r = .pc ∨ r ∈ stored.map Gpr.reg := by
  cases r <;> decide

/-- The code from `save_context` on. -/
def afterSave : List Instr :=
  [csrr .s0 .mepc, csrrw .t1 none, sd .s0 .pc, sd .t1 .tp] ++ loadGp ++ loadSp ++
    [csrr .s1 .mcause, bltz .s1 .trapTimer, li .t1 (.lit 8), beq .s1 .t1 .trapSyscall] ++
    trapException

/-- The registers that `trap_entry` uses before the branch on the sign of `mcause`. -/
def clobbered : List Gpr := [.tp, .s0, .s1, .t1, .gp, .sp]

/-- The hart after the branch on the sign of `mcause`. -/
structure Entered (ptr : Word) (user : Reg → Word) (cause tval : Word) (y : Hart) : Prop where
  control : y.control = .asm (if cause.slt 0 then trapTimer else
    [li .t1 (.lit 8), beq .s1 .t1 .trapSyscall] ++ trapException)
  tp : y.gpr .tp = ptr
  s0 : y.gpr .s0 = user .pc
  s1 : y.gpr .s1 = cause
  gpr : ∀ g, g ∉ clobbered → y.gpr g = user g.reg
  mscratch : y.mscratch = 0
  mtval : y.mtval = tval
  mie : y.mie = false

/-- `trap_entry` saves the context and comes to the place where the causes part. -/
theorem exists_entered (lay : Layout) (hptr : x.mscratch ≠ 0) (pc cause tval : Word) (cell : Reg → Word) :
    ∃ y, Runs lay (x.takeTrap .user pc cause tval) cell y (savedCell (context pc x.gpr) cell) ∧
      Entered x.mscratch (context pc x.gpr) cause tval y := by
  have hne : (x.mscratch == 0) = false := beq_false_of_ne hptr
  -- the pointer is in `tp`, and not null
  obtain ⟨x₁, hrun₁, hc₁, hgpr₁, hmscratch₁, hmepc₁, hmcause₁, hmtval₁, hmie₁⟩ : ∃ x₁,
      Runs lay (x.takeTrap .user pc cause tval) cell x₁ cell ∧
      x₁.control = .asm (if x.mscratch == 0 then code .trapTimerPreempted else
        stored.map (fun g => .sd g g.reg) ++ afterSave) ∧
      x₁.gpr = Function.update x.gpr .tp x.mscratch ∧ x₁.mscratch = x.gpr .tp ∧ x₁.mepc = pc ∧
      x₁.mcause = cause ∧ x₁.mtval = tval ∧ x₁.mie = false :=
    ⟨_, (runs_block [csrrw .tp (some .tp)] (by decide) rfl rfl).trans (runs_branch lay _ rfl rfl), rfl, rfl,
      rfl, rfl, rfl, rfl, rfl⟩
  rw [hne, if_neg Bool.false_ne_true] at hc₁
  -- the registers go to the block
  have hvalue : ∀ g ∈ stored, context pc x.gpr g.reg = x₁.gpr g := fun g hg => by
    rw [context_reg, hgpr₁, Function.update_of_ne (ne_of_mem_of_not_mem hg (by decide))]
  obtain ⟨x₂, hrun₂, hc₂, hgpr₂, hmscratch₂, hmepc₂, hmcause₂, hmtval₂, hmie₂⟩ : ∃ x₂,
      Runs lay x₁ cell x₂ (fun r => if r ∈ stored.map Gpr.reg then context pc x.gpr r else cell r) ∧
      x₂.control = .asm afterSave ∧ x₂.gpr = x₁.gpr ∧ x₂.mscratch = x₁.mscratch ∧
      x₂.mepc = x₁.mepc ∧ x₂.mcause = x₁.mcause ∧ x₂.mtval = x₁.mtval ∧ x₂.mie = x₁.mie :=
    ⟨_, runs_stores stored hmie₁ hc₁ hvalue, rfl, rfl, rfl, rfl, rfl, rfl, rfl⟩
  generalize hcell₂ : (fun r => if r ∈ stored.map Gpr.reg then context pc x.gpr r else cell r) = cell₂
    at hrun₂
  -- `pc` and `tp` too, and the hart gets the kernel's `gp` and `sp`
  obtain ⟨x₃, hrun₃, hc₃, htp₃, hs0₃, hs1₃, hgpr₃, hmscratch₃, hmtval₃, hmie₃⟩ : ∃ x₃,
      Runs lay x₂ cell₂ x₃ (Function.update (Function.update cell₂ .pc x₂.mepc) .tp x₂.mscratch) ∧
      x₃.control = .asm (if x₂.mcause.slt 0 then trapTimer else
        [li .t1 (.lit 8), beq .s1 .t1 .trapSyscall] ++ trapException) ∧
      x₃.gpr .tp = x₂.gpr .tp ∧ x₃.gpr .s0 = x₂.mepc ∧ x₃.gpr .s1 = x₂.mcause ∧
      (∀ g, g ∉ clobbered → x₃.gpr g = x₂.gpr g) ∧ x₃.mscratch = 0 ∧ x₃.mtval = x₂.mtval ∧
      x₃.mie = x₂.mie := by
    have hmie : x₂.mie = false := hmie₂.trans hmie₁
    refine ⟨_, (runs_block ([csrr .s0 .mepc, csrrw .t1 none, sd .s0 .pc, sd .t1 .tp] ++ loadGp ++
      loadSp ++ [csrr .s1 .mcause]) (by decide) hmie hc₂).trans (runs_branch lay _ hmie rfl), rfl, rfl, rfl,
      rfl, fun g hg => ?_, rfl, rfl, rfl⟩
    cases g with
    | tp | s0 | s1 | t1 | gp | sp => exact absurd (by decide) hg
    | _ => rfl
  rw [hmcause₂, hmcause₁] at hc₃
  rw [hmepc₂, hmepc₁, hmscratch₂, hmscratch₁] at hrun₃
  have hcell : Function.update (Function.update cell₂ .pc pc) .tp (x.gpr .tp) =
      savedCell (context pc x.gpr) cell := by
    funext r
    rw [savedCell, if_congr (isUser_iff r) rfl rfl]
    by_cases htp : r = .tp
    · subst htp
      rw [Function.update_self, if_pos (Or.inl rfl)]
      rfl
    rw [Function.update_of_ne htp]
    by_cases hpc : r = .pc
    · subst hpc
      rw [Function.update_self, if_pos (Or.inr (Or.inl rfl))]
      rfl
    rw [Function.update_of_ne hpc, ← hcell₂]
    exact if_congr (by rw [or_iff_right htp, or_iff_right hpc]) rfl rfl
  rw [hcell] at hrun₃
  refine ⟨x₃, (hrun₁.trans hrun₂).trans hrun₃, ?_⟩
  exact {
    control := hc₃
    tp := by rw [htp₃, hgpr₂, hgpr₁, Function.update_self]
    s0 := by
      rw [hs0₃, hmepc₂, hmepc₁]
      rfl
    s1 := by rw [hs1₃, hmcause₂, hmcause₁]
    gpr := fun g hg => by
      rw [hgpr₃ g hg, hgpr₂, hgpr₁, context_reg, Function.update_of_ne]
      rintro rfl
      exact hg List.mem_cons_self
    mscratch := hmscratch₃
    mtval := by rw [hmtval₃, hmtval₂, hmtval₁]
    mie := by rw [hmie₃, hmie₂, hmie₁] }

/-! ## Arriving -/

/-- The registers in which a system call finds its arguments. -/
def arguments : List Gpr := [.a0, .a1, .a2, .a3, .a4, .a5]

/-- The index of the jump in `syscall_vector` that the call number comes to. -/
def callIndex (t0 : Word) : Word := if t0.toNat < 11 then t0 else 0

/-- A trap from user code, and what the registers of that code were. -/
structure Trapped where
  user : Reg → Word
  cause : Word
  tval : Word

/-- Where C code is called, and with what. -/
inductive Entry (lay : Layout) (t : Trapped) (y : Hart) (cell cell' : Reg → Word) : Prop
  | syscall (hcause : t.cause = 8) (hc : y.control = .handler (sd .a0 .a0 :: trapResumeProc))
    (hra : y.gpr .ra = lay.symbol .syscallVector + 4 * callIndex (t.user .t0))
    (hargs : ∀ g ∈ arguments, y.gpr g = t.user g.reg)
    (hcell : cell' = Function.update (savedCell t.user cell) .pc (t.user .pc + 4))
  | exception (hcause : t.cause.slt 0 = false) (hne : t.cause ≠ 8)
    (hc : y.control = .handler [.j .trapResumeProc]) (ha0 : y.gpr .a0 = t.cause)
    (ha1 : y.gpr .a1 = t.tval) (ha2 : y.gpr .a2 = t.user .pc)
    (hcell : cell' = savedCell t.user cell)
  | timer (hcause : t.cause.slt 0 = true) (hc : y.control = .yield)
    (hcell : cell' = savedCell t.user cell)

/-- The end of the assembly that a trap goes through. -/
structure Arrived (lay : Layout) (ptr : Word) (t : Trapped) (y : Hart) (cell cell' : Reg → Word) :
    Prop where
  entry : Entry lay t y cell cell'
  tp : y.gpr .tp = ptr
  mscratch : y.mscratch = 0
  mie : y.mie = false

theorem mul_four (w : Word) : w <<< (2 : Word).toNat = 4 * w := by
  refine BitVec.eq_of_toNat_eq ?_
  have htwo : (2 : Word).toNat = 2 := rfl
  have hfour : (4 : Word).toNat = 4 := rfl
  rw [htwo, BitVec.toNat_shiftLeft, BitVec.toNat_mul, hfour, Nat.shiftLeft_eq, Nat.mul_comm]

/-- The branch on the call number. -/
theorem runs_jump (hmie : x.mie = false)
    (hc : x.control = .asm (.branch (.geu .t0 .t1) .jumpSyscall ::
      ([slli .t0 .t0 (.lit 2), add .ra .ra .t0] ++ jumpSyscall))) (ht1 : x.gpr .t1 = 11)
    (cell : Reg → Word) : ∃ y, Runs lay x cell y cell ∧
      y.control = .handler (sd .a0 .a0 :: trapResumeProc) ∧
      y.gpr .ra = x.gpr .ra + 4 * callIndex (x.gpr .t0) ∧
      (∀ g, g ≠ .t0 → g ≠ .ra → y.gpr g = x.gpr g) ∧ y.mscratch = x.mscratch ∧ y.mie = x.mie := by
  have hcall : ∀ {y : Hart}, y.mie = false → y.control = .asm jumpSyscall →
      Runs lay y cell { y with control := .handler (sd .a0 .a0 :: trapResumeProc) } cell :=
    fun hmie hc => .single hmie hc
  have hrun := runs_branch lay cell hmie hc
  by_cases hge : (11 : Word).ule (x.gpr .t0) = true
  · -- no such number: the jump is to the first entry
    have hindex : callIndex (x.gpr .t0) = 0 :=
      if_neg (Nat.not_lt.mpr (BitVec.ule_iff_toNat_le.mp hge))
    have htaken : x.cond (.geu .t0 .t1) = true := by
      rw [Hart.cond, ht1, hge]
    rw [if_pos htaken] at hrun
    refine ⟨_, hrun.trans (hcall hmie rfl), rfl, ?_, fun _ _ _ => rfl, rfl, rfl⟩
    rw [hindex]
    exact (BitVec.add_zero _).symm
  · have hindex : callIndex (x.gpr .t0) = x.gpr .t0 :=
      if_pos (Nat.lt_of_not_le fun hle => hge (BitVec.ule_iff_toNat_le.mpr hle))
    have htaken : ¬ x.cond (.geu .t0 .t1) = true := by
      rwa [Hart.cond, ht1]
    rw [if_neg htaken] at hrun
    refine ⟨_, (hrun.trans (runs_block [slli .t0 .t0 (.lit 2), add .ra .ra .t0] (by decide) hmie
      rfl)).trans (hcall hmie rfl), rfl, ?_, fun g ht0 hra => ?_, rfl, rfl⟩
    · rw [hindex, ← mul_four]
      rfl
    · exact (Function.update_of_ne hra _ _).trans (Function.update_of_ne ht0 _ _)

/-- The branch on `mcause`. -/
theorem runs_cause (lay : Layout) {t : Trapped} {ptr : Word} (h : Entered ptr t.user t.cause t.tval x)
    (hcause : t.cause.slt 0 = false) (cell : Reg → Word) : ∃ y, Runs lay x cell y cell ∧
      y.control = .asm (if t.cause == 8 then trapSyscall else trapException) ∧
      (∀ g, g ≠ .t1 → y.gpr g = x.gpr g) ∧ y.mscratch = x.mscratch ∧ y.mtval = x.mtval ∧
      y.mie = x.mie := by
  have hc := h.control
  rw [hcause, if_neg Bool.false_ne_true] at hc
  obtain ⟨y, hrun, hc₁, hgpr, hrest⟩ : ∃ y, Runs lay x cell y cell ∧
      y.control = .asm (if x.gpr .s1 == 8 then trapSyscall else trapException) ∧
      y.gpr = Function.update x.gpr .t1 8 ∧ y.mscratch = x.mscratch ∧ y.mtval = x.mtval ∧
      y.mie = x.mie :=
    ⟨_, (runs_block [li .t1 (.lit 8)] (by decide) h.mie hc).trans (runs_branch lay _ h.mie rfl), rfl, rfl,
      rfl, rfl, rfl⟩
  rw [h.s1] at hc₁
  exact ⟨y, hrun, hc₁, fun g hg => by rw [hgpr, Function.update_of_ne hg], hrest⟩

/-- From there to the call of a handler. -/
theorem runs_syscall {t : Trapped} {ptr : Word} (h : Entered ptr t.user t.cause t.tval x)
    (hcause : t.cause = 8) (hnum : lay.symbol .numOfSysnr = 11) (cell : Reg → Word) :
    ∃ y cell', Runs lay x (savedCell t.user cell) y cell' ∧ Arrived lay ptr t y cell cell' := by
  obtain ⟨x₁, hrun₁, hc₁, hgpr₁, hmscratch₁, -, hmie₁⟩ := runs_cause lay h (by rw [hcause]; decide)
    (savedCell t.user cell)
  rw [hcause, if_pos (by decide)] at hc₁
  have hmie : x₁.mie = false := hmie₁.trans h.mie
  -- `pc` moves past the instruction
  obtain ⟨x₂, hrun₂, hc₂, hra₂, ht1₂, hgpr₂, hmscratch₂, hmie₂⟩ : ∃ x₂,
      Runs lay x₁ (savedCell t.user cell) x₂
        (Function.update (savedCell t.user cell) .pc (x₁.gpr .s0 + 4)) ∧
      x₂.control = .asm (.branch (.geu .t0 .t1) .jumpSyscall ::
        ([slli .t0 .t0 (.lit 2), add .ra .ra .t0] ++ jumpSyscall)) ∧
      x₂.gpr .ra = lay.symbol .syscallVector ∧ x₂.gpr .t1 = lay.symbol .numOfSysnr ∧
      (∀ g, g ∉ [Gpr.t1, .ra, .s0] → x₂.gpr g = x₁.gpr g) ∧ x₂.mscratch = x₁.mscratch ∧
      x₂.mie = x₁.mie := by
    refine ⟨_, runs_block [addi .s0 .s0 (.lit 4), sd .s0 .pc, la .ra .syscallVector,
      li .t1 (.sym .numOfSysnr)] (by decide) hmie hc₁, rfl, rfl, rfl, fun g hg => ?_, rfl, rfl⟩
    cases g with
    | t1 | ra | s0 => exact absurd (by decide) hg
    | _ => rfl
  rw [hgpr₁ _ (by decide), h.s0] at hrun₂
  rw [hnum] at ht1₂
  obtain ⟨y, hrun₃, hc₃, hra₃, hgpr₃, hmscratch₃, hmie₃⟩ := runs_jump (hmie₂.trans hmie) hc₂
    ht1₂ (Function.update (savedCell t.user cell) .pc (t.user .pc + 4))
  refine ⟨y, _, (hrun₁.trans hrun₂).trans hrun₃, .syscall hcause hc₃ ?_ (fun g hg => ?_) rfl, ?_, ?_,
    ?_⟩
  · rw [hra₃, hra₂, hgpr₂ _ (by decide), hgpr₁ _ (by decide), h.gpr _ (by decide)]
    rfl
  · have hne : g ∉ [Gpr.t1, .ra, .s0] ∧ g ≠ .t0 ∧ g ≠ .ra ∧ g ≠ .t1 ∧ g ∉ clobbered := by
      revert g
      decide
    obtain ⟨h₁, h₂, h₃, h₄, h₅⟩ := hne
    rw [hgpr₃ g h₂ h₃, hgpr₂ g h₁, hgpr₁ g h₄, h.gpr g h₅]
  · rw [hgpr₃ _ (by decide) (by decide), hgpr₂ _ (by decide), hgpr₁ _ (by decide), h.tp]
  · rw [hmscratch₃, hmscratch₂, hmscratch₁, h.mscratch]
  · rw [hmie₃, hmie₂, hmie]

/-- Or to that of the exception handler. -/
theorem runs_exception {t : Trapped} {ptr : Word} (h : Entered ptr t.user t.cause t.tval x)
    (hcause : t.cause.slt 0 = false) (hne : t.cause ≠ 8) (cell : Reg → Word) :
    ∃ y cell', Runs lay x (savedCell t.user cell) y cell' ∧ Arrived lay ptr t y cell cell' := by
  obtain ⟨x₁, hrun₁, hc₁, hgpr₁, hmscratch₁, hmtval₁, hmie₁⟩ := runs_cause lay h hcause
    (savedCell t.user cell)
  rw [beq_false_of_ne hne, if_neg Bool.false_ne_true] at hc₁
  have hmie : x₁.mie = false := hmie₁.trans h.mie
  obtain ⟨y, hrun₂, hc₂, ha0₂, ha1₂, ha2₂, htp₂, hmscratch₂, hmie₂⟩ : ∃ y,
      Runs lay x₁ (savedCell t.user cell) y (savedCell t.user cell) ∧
      y.control = .handler [.j .trapResumeProc] ∧ y.gpr .a0 = x₁.gpr .s1 ∧
      y.gpr .a1 = x₁.mtval ∧ y.gpr .a2 = x₁.gpr .s0 ∧ y.gpr .tp = x₁.gpr .tp ∧
      y.mscratch = x₁.mscratch ∧ y.mie = x₁.mie := by
    have hcall : ∀ {y : Hart}, y.mie = false → y.control = .asm [.call, .j .trapResumeProc] →
        Runs lay y (savedCell t.user cell) { y with control := .handler [.j .trapResumeProc] }
          (savedCell t.user cell) := fun hmie hc => .single hmie hc
    exact ⟨_, (runs_block [mv .a0 .s1, mv .a2 .s0, csrr .a1 .mtval] (by decide) hmie hc₁).trans
      (hcall hmie rfl), rfl, rfl, rfl, rfl, rfl, rfl, rfl⟩
  refine ⟨y, _, hrun₁.trans hrun₂, .exception hcause hne hc₂ ?_ ?_ ?_ rfl, ?_, ?_, ?_⟩
  · rw [ha0₂, hgpr₁ _ (by decide), h.s1]
  · rw [ha1₂, hmtval₁, h.mtval]
  · rw [ha2₂, hgpr₁ _ (by decide), h.s0]
  · rw [htp₂, hgpr₁ _ (by decide), h.tp]
  · rw [hmscratch₂, hmscratch₁, h.mscratch]
  · rw [hmie₂, hmie]

/-- From a trap to the C code. -/
theorem runs_trap (hptr : x.mscratch ≠ 0) (hnum : lay.symbol .numOfSysnr = 11)
    (pc cause tval : Word) (cell : Reg → Word) :
    ∃ y cell', Runs lay (x.takeTrap .user pc cause tval) cell y cell' ∧
      Arrived lay x.mscratch ⟨context pc x.gpr, cause, tval⟩ y cell cell' := by
  obtain ⟨x₀, hrun, h⟩ := exists_entered lay hptr pc cause tval cell
  cases hcause : cause.slt 0 with
  | true =>
    have hc := h.control
    rw [hcause, if_pos rfl] at hc
    have hyield : Runs lay x₀ (savedCell (context pc x.gpr) cell) { x₀ with control := .yield }
        (savedCell (context pc x.gpr) cell) := .single h.mie hc
    exact ⟨_, _, hrun.trans hyield, .timer hcause rfl rfl, h.tp, h.mscratch, h.mie⟩
  | false =>
    obtain ⟨y, cell', hrun', hy⟩ : ∃ y cell', Runs lay x₀ (savedCell (context pc x.gpr) cell) y cell' ∧
        Arrived lay x.mscratch ⟨context pc x.gpr, cause, tval⟩ y cell cell' := by
      by_cases hecall : cause = 8
      · exact runs_syscall (t := ⟨context pc x.gpr, cause, tval⟩) h hecall hnum cell
      · exact runs_exception (t := ⟨context pc x.gpr, cause, tval⟩) h hcause hecall cell
    exact ⟨y, cell', hrun.trans hrun', hy⟩

end Trap
end SepKernel
