import SepKernel.Trap

/-!
# What the registers hold, instruction by instruction

An abstract interpreter of `trap.S`. It follows which registers still hold the user's value, which
fields of the control block already do, and where the pointer to the control block is; and it
checks at every instruction that stores go to the control block, that the kernel is interrupted
only where the pointer is in `tp` and the registers are saved, and that `mret` finds the registers
restored. That the code passes is a computation; what it means is the soundness theorem.
-/

namespace SepKernel
namespace Trap

/-! ## Abstract values -/

/-- What can be known of a word. -/
inductive Sym where
  | any
  /-- The user's value of a register, or its `pc`. -/
  | user (r : Reg)
  /-- The pointer to the control block. -/
  | proc
  | zero
  /-- Any negative number. -/
  | negative
deriving DecidableEq

/-- A process, as one hart sees it: where its control block is, and the registers of its user
    code, if they are known. -/
structure View where
  ptr : Word
  ptr_ne : ptr ≠ 0
  user : Option (Reg → Word)

/-- A word is as known, where the process's registers were those of the view when it was trapped. -/
def Sym.Holds (v : View) (w : Word) : Sym → Prop
  | .any => True
  | .user r => ∀ u ∈ v.user, w = u r
  | .proc => w = v.ptr
  | .zero => w = 0
  | .negative => w.slt 0 = true

/-- The registers that user code has, and its `pc`. -/
def userRegs : List Reg := .pc :: Gpr.all.map Gpr.reg

/-- What is known of a hart and its control block. -/
structure Shadow where
  gpr : Gpr → Sym
  mscratch : Sym
  mepc : Sym
  mcause : Sym
  /-- The field holds the user's value. -/
  saved : Reg → Bool
  /-- Preemption may be enabled. -/
  mie : Bool
  /-- `mret` returns to user mode. -/
  mppUser : Bool
  /-- Nothing is known of the process's registers. -/
  foreign : Bool

/-- A hart, and the control block of its process, are as a shadow says. -/
structure Matches (v : View) (cell : Reg → Word) (x : Hart) (σ : Shadow) : Prop where
  gpr : ∀ g, (σ.gpr g).Holds v (x.gpr g)
  mscratch : σ.mscratch.Holds v x.mscratch
  mepc : σ.mepc.Holds v x.mepc
  mcause : σ.mcause.Holds v x.mcause
  saved : ∀ r ∈ userRegs, σ.saved r = true → ∀ u ∈ v.user, cell r = u r
  mie : σ.mie = false → x.mie = false
  mppUser : σ.mppUser = true → x.mpp = .user
  foreign : σ.foreign = true → v.user = none

namespace Shadow

/-- The kernel's part: the pointer is in `tp`, and the registers are saved. -/
def kernel : Shadow where
  gpr := Function.update (fun _ => .any) .tp .proc
  mscratch := .zero
  mepc := .any
  mcause := .any
  saved := fun _ => true
  mie := false
  mppUser := false
  foreign := false

/-- On a trap from user code. -/
def fromUser : Shadow where
  gpr := fun g => .user g.reg
  mscratch := .proc
  mepc := .user .pc
  mcause := .any
  saved := fun _ => false
  mie := false
  mppUser := false
  foreign := true

/-- On an interrupt of user code. -/
def interrupted : Shadow := { fromUser with mcause := .negative, foreign := false }

/-- On an interrupt of the kernel. -/
def nested : Shadow := { kernel with mcause := .negative }

/-- What every jump to a label may rely on; there is none to some. -/
def entry : Label → Option Shadow
  | .trapTimerPreempted => some { nested with
      gpr := Function.update (fun _ => .any) .tp .zero
      mscratch := .proc }
  | .trapTimer => some kernel
  | .trapSyscall | .jumpSyscall => some { kernel with foreign := true }
  | .trapResumeProc => some { kernel with mie := true }
  | .trapEntry | .trapException | .hang => none

/-- What a function called from `trap.S` leaves. -/
def returned : Shadow := { kernel with mie := true, foreign := true }

variable (σ τ : Shadow)

/-- What is known of the other registers stays. -/
def setGpr (g : Gpr) (y : Sym) : Shadow := { σ with gpr := Function.update σ.gpr g y }

/-- Only copies are followed; what is computed may be anything. -/
def operand : Operand → Sym
  | .reg g => σ.gpr g
  | .csr .mepc => σ.mepc
  | .csr .mcause => σ.mcause
  | _ => .any

/-- A load from the control block gives back the user's value, if it has been saved. -/
def load (r : Reg) : Sym := if r ∈ userRegs ∧ σ.saved r = true then .user r else .any

/-- The registers are saved, or nobody asks. -/
def isSaved : Bool := σ.foreign || userRegs.all σ.saved

/-- The pointer is where the kernel looks for it when it is interrupted. -/
def atHome : Bool := σ.gpr .tp = .proc && σ.mscratch = .zero && σ.isSaved

/-- The hart `τ` stands for may be one that `σ` stands for. -/
def covers : Bool :=
  Gpr.all.all (fun g => τ.gpr g = .any || σ.gpr g = τ.gpr g) &&
    (τ.mscratch = .any || σ.mscratch = τ.mscratch) && (τ.mepc = .any || σ.mepc = τ.mepc) &&
    (τ.mcause = .any || σ.mcause = τ.mcause) && (σ.foreign || userRegs.all σ.saved) &&
    (τ.mie || !σ.mie) && (!τ.mppUser || σ.mppUser) && (!τ.foreign || σ.foreign)

/-- What is known at a label has to hold wherever the code jumps to it. -/
def jump (l : Label) : Bool :=
  match entry l with
  | some τ => σ.covers τ
  | none => false

/-- Whether a branch may be taken, and whether it may not. -/
def decideCond : Cond → Bool × Bool
  | .eqz g => (σ.gpr g ≠ .proc, σ.gpr g ≠ .zero)
  | .ltz g => (true, σ.gpr g ≠ .negative)
  | .gez g => (σ.gpr g ≠ .negative, true)
  | .eq _ _ | .geu _ _ => (true, true)

/-- The instructions are safe to execute from here on. -/
def check (σ : Shadow) : List Instr → Bool
  | [] => false
  | i :: rest => (!σ.mie || σ.atHome) &&
    match i with
    | .sd src r => σ.gpr .tp = .proc &&
      check { σ with
        saved := Function.update σ.saved r (σ.foreign || σ.gpr src = .user r) } rest
    | .ld dst r => σ.gpr .tp = .proc &&
      check (σ.setGpr dst (σ.load r)) rest
    | .set dst o => check (σ.setGpr dst (σ.operand o)) rest
    | .csrrw dst src => check { σ.setGpr dst σ.mscratch with
        mscratch := (src.map σ.gpr).getD .zero } rest
    | .csrwMscratch src => check { σ with mscratch := σ.gpr src } rest
    | .csrwMepc src => check { σ with mepc := σ.gpr src } rest
    | .csrwMstatus imm => check { σ with
        mie := imm.getLsbD 3
        mppUser := imm.extractLsb' 11 2 ≠ 3 } rest
    | .branch c l => (!(σ.decideCond c).1 || σ.jump l) && (!(σ.decideCond c).2 || check σ rest)
    | .j l => σ.jump l
    | .call => σ.atHome && σ.foreign && check returned rest
    | .tailSchedYield => σ.atHome && !σ.mie
    | .mret => σ.mppUser && σ.mscratch = .proc && σ.mepc = .user .pc &&
      Gpr.all.all fun g => σ.gpr g = .user g.reg
    | .wfi => check σ rest

/-! ## The code passes -/

theorem check_interrupted : check interrupted trapEntry = true := by decide +kernel

theorem check_fromUser : check fromUser trapEntry = true := by decide +kernel

theorem check_nested : check nested trapEntry = true := by decide +kernel

/-- The code behind every label keeps to the shadow that its entry has. -/
theorem check_entry (l : Label) (τ : Shadow) (h : entry l = some τ) : check τ (code l) = true := by
  cases l <;> cases h <;> decide +kernel

end Shadow

/-! ## What passing means -/

variable {lay : Layout} {v : View} {cell cell' : Reg → Word} {x : Hart} {σ τ : Shadow} {g : Gpr}
  {w : Word} {y : Sym} {l : Label} {c : Cond} {i : Instr} {rest : List Instr} {mem : Memory}

/-- What is known of a hart that has a process, wherever it is. -/
def HartOk (v : View) (cell : Reg → Word) (x : Hart) : Prop :=
  match x.control with
  | .user pc => x.mscratch = v.ptr ∧ ∀ u ∈ v.user, pc = u .pc ∧ ∀ g, x.gpr g = u g.reg
  | .asm rest => ∃ σ, Shadow.check σ rest = true ∧ Matches v cell x σ
  | .handler rest =>
    Shadow.returned.check rest = true ∧ v.user = none ∧ x.gpr .tp = v.ptr ∧ x.mscratch = 0
  | .yield => x.mscratch = 0 ∧ x.mie = false ∧ ∀ r ∈ userRegs, ∀ u ∈ v.user, cell r = u r
  | .start | .lost => False

theorem Gpr.mem_all (g : Gpr) : g ∈ Gpr.all := by
  cases g <;> decide

namespace Matches

/-- A jump changes no register. -/
theorem setControl (h : Matches v cell x σ) (k : Control) :
    Matches v cell { x with control := k } σ :=
  ⟨h.gpr, h.mscratch, h.mepc, h.mcause, h.saved, h.mie, h.mppUser, h.foreign⟩

theorem setGpr (h : Matches v cell x σ) (hy : y.Holds v w) :
    Matches v cell (x.setGpr g w) (σ.setGpr g y) where
  gpr := by
    intro g'
    by_cases hg : g' = g
    · subst hg
      simpa [Hart.setGpr, Shadow.setGpr] using hy
    · simpa [Hart.setGpr, Shadow.setGpr, hg] using h.gpr g'
  mscratch := h.mscratch
  mepc := h.mepc
  mcause := h.mcause
  saved := h.saved
  mie := h.mie
  mppUser := h.mppUser
  foreign := h.foreign

theorem operand (h : Matches v cell x σ) (o : Operand) :
    (σ.operand o).Holds v (Hart.operand lay x o) := by
  cases o with
  | reg g => exact h.gpr g
  | csr c =>
    cases c with
    | mepc => exact h.mepc
    | mcause => exact h.mcause
    | mtval => trivial
    | mhartid => trivial
  | imm i => trivial
  | addi g i => trivial
  | add g g' => trivial
  | sub g g' => trivial
  | slli g i => trivial

/-- Weaker knowledge of one value. -/
theorem holds_of_covers {y z : Sym} (h : (z = .any || y = z) = true) (hy : y.Holds v w) :
    z.Holds v w := by
  simp only [Bool.or_eq_true, decide_eq_true_eq] at h
  cases h with
  | inl hz => rw [hz]; trivial
  | inr hz => exact hz ▸ hy

/-- When the shadow says that all is saved, all user registers are in the control block. -/
theorem saved_of_isSaved (h : Matches v cell x σ) (hs : σ.isSaved = true) :
    ∀ r ∈ userRegs, ∀ u ∈ v.user, cell r = u r := by
  intro r hr u hu
  simp only [Shadow.isSaved, Bool.or_eq_true, List.all_eq_true] at hs
  cases hs with
  | inl hf => rw [h.foreign hf] at hu; cases hu
  | inr hall => exact h.saved r hr (hall r hr) u hu

/-- What is known may be forgotten. -/
theorem of_covers (h : Matches v cell x σ) (hc : σ.covers τ = true) : Matches v cell x τ := by
  simp only [Shadow.covers, Bool.and_eq_true] at hc
  obtain ⟨⟨⟨⟨⟨⟨⟨hgpr, hmscratch⟩, hmepc⟩, hmcause⟩, hsaved⟩, hmie⟩, hmpp⟩, hforeign⟩ := hc
  exact {
    gpr := fun g => holds_of_covers (List.all_eq_true.mp hgpr g g.mem_all) (h.gpr g)
    mscratch := holds_of_covers hmscratch h.mscratch
    mepc := holds_of_covers hmepc h.mepc
    mcause := holds_of_covers hmcause h.mcause
    saved := fun r hr _ => h.saved_of_isSaved hsaved r hr
    mie := fun hm => h.mie (by simpa [hm] using hmie)
    mppUser := fun hm => h.mppUser (by simpa [hm] using hmpp)
    foreign := fun hf => h.foreign (by simpa [hf] using hforeign) }

/-- A jump finds what the code at the label relies on. -/
theorem jump (h : Matches v cell x σ) (hj : σ.jump l = true) :
    ∃ τ, Shadow.check τ (code l) = true ∧ Matches v cell x τ := by
  unfold Shadow.jump at hj
  cases hl : Shadow.entry l with
  | none => rw [hl] at hj; cases hj
  | some τ =>
    rw [hl] at hj
    exact ⟨τ, Shadow.check_entry l τ hl, h.of_covers hj⟩

/-- A branch that cannot be taken is not, and one that must be taken is. -/
theorem decideCond (h : Matches v cell x σ) (c : Cond) :
    if x.cond c then (σ.decideCond c).1 = true else (σ.decideCond c).2 = true := by
  cases c with
  | eqz g =>
    have hg := h.gpr g
    split
    · next hc =>
      have hzero : x.gpr g = 0 := by simpa [Hart.cond] using hc
      -- a control block is never at address 0
      have hne : σ.gpr g ≠ .proc := by
        intro he
        rw [he] at hg
        exact v.ptr_ne (hg.symm.trans hzero)
      simpa [Shadow.decideCond] using hne
    · next hc =>
      have hne : σ.gpr g ≠ .zero := by
        intro he
        rw [he] at hg
        exact hc (beq_iff_eq.mpr hg)
      simpa [Shadow.decideCond] using hne
  | ltz g =>
    have hg := h.gpr g
    split
    · rfl
    · next hc =>
      have hne : σ.gpr g ≠ .negative := by
        intro he
        rw [he] at hg
        exact hc hg
      simpa [Shadow.decideCond] using hne
  | gez g =>
    have hg := h.gpr g
    split
    · next hc =>
      have hne : σ.gpr g ≠ .negative := by
        intro he
        rw [he] at hg
        have hpos : (x.gpr g).slt 0 = false := by simpa [Hart.cond] using hc
        exact Bool.false_ne_true (hpos.symm.trans hg)
      simpa [Shadow.decideCond] using hne
    · rfl
  | eq g g' => split <;> rfl
  | geu g g' => split <;> rfl

/-- At home the kernel can be interrupted, or yield. -/
theorem of_atHome (h : Matches v cell x σ) (hh : σ.atHome = true) :
    x.gpr .tp = v.ptr ∧ x.mscratch = 0 ∧ ∀ r ∈ userRegs, ∀ u ∈ v.user, cell r = u r := by
  simp only [Shadow.atHome, Bool.and_eq_true, decide_eq_true_eq] at hh
  obtain ⟨⟨htp, hmscratch⟩, hsaved⟩ := hh
  have hgpr := h.gpr .tp
  have hscratch := h.mscratch
  rw [htp] at hgpr
  rw [hmscratch] at hscratch
  exact ⟨hgpr, hscratch, h.saved_of_isSaved hsaved⟩

end Matches

/-- The fields of the control block. -/
def cells (mem : Memory) (ptr : Word) (r : Reg) : Word := mem (ptr + offset r)

theorem mem_allRegs (r : Reg) : r ∈ Reg.all := by
  cases r <;> decide

theorem idxOf_lt (r : Reg) : Reg.all.idxOf r < 43 := List.idxOf_lt_length_of_mem (mem_allRegs r)

theorem toNat_offset (r : Reg) : (offset r).toNat = 8 * Reg.all.idxOf r := by
  have hlt := idxOf_lt r
  rw [offset, BitVec.toNat_ofNat, Nat.mod_eq_of_lt (by omega)]

/-- The fields of a control block do not overlap. -/
theorem offset_injective : Function.Injective offset := by
  intro r r' h
  have hnat := congrArg BitVec.toNat h
  rw [toNat_offset, toNat_offset] at hnat
  exact (List.idxOf_inj (mem_allRegs r)).mp (by omega)

/-- A store to a field changes that one. -/
theorem cells_update (mem : Memory) (ptr : Word) (r : Reg) (w : Word) :
    cells (Function.update mem (ptr + offset r) w) ptr =
      Function.update (cells mem ptr) r w := by
  funext r'
  by_cases hr : r' = r
  · subst hr
    simp [cells]
  · have hne : ptr + offset r' ≠ ptr + offset r := by
      intro he
      exact hr (offset_injective ((BitVec.add_right_inj _).mp he))
    rw [cells, Function.update_of_ne hne, Function.update_of_ne hr]
    rfl

/-- A register is stored. -/
theorem Matches.sd (h : Matches v cell x σ) (src : Gpr) (r : Reg) :
    Matches v (Function.update cell r (x.gpr src)) x { σ with
      saved := Function.update σ.saved r (σ.foreign || σ.gpr src = .user r) } where
  gpr := h.gpr
  mscratch := h.mscratch
  mepc := h.mepc
  mcause := h.mcause
  saved := by
    intro r' hr' hs u hu
    change Function.update σ.saved r (σ.foreign || decide (σ.gpr src = .user r)) r' = true at hs
    by_cases hr : r' = r
    · subst hr
      rw [Function.update_self] at hs ⊢
      rw [Bool.or_eq_true, decide_eq_true_eq] at hs
      cases hs with
      | inl hf => rw [h.foreign hf] at hu; cases hu
      | inr hsrc =>
        have hg := h.gpr src
        rw [hsrc] at hg
        exact hg u hu
    · rw [Function.update_of_ne hr] at hs ⊢
      exact h.saved r' hr' hs u hu
  mie := h.mie
  mppUser := h.mppUser
  foreign := h.foreign

/-- A register is loaded. -/
theorem Matches.ld (h : Matches v cell x σ) (dst : Gpr) (r : Reg) :
    Matches v cell (x.setGpr dst (cell r)) (σ.setGpr dst (σ.load r)) := by
  refine h.setGpr ?_
  unfold Shadow.load
  split
  · next hr => exact fun u hu => h.saved r hr.1 hr.2 u hu
  · trivial

/-- An instruction that passes leads to one that passes, to C code that may be called there, or
    back to user code with its registers. -/
theorem exec_ok (hcheck : σ.check (i :: rest) = true) (h : Matches v (cells mem v.ptr) x σ) :
    HartOk v (cells (x.store mem i) v.ptr) (x.exec lay mem rest i) := by
  simp only [Shadow.check, Bool.and_eq_true] at hcheck
  obtain ⟨-, hcheck⟩ := hcheck
  have htp : σ.gpr .tp = .proc → x.gpr .tp = v.ptr := by
    intro he
    have hgpr := h.gpr .tp
    rwa [he] at hgpr
  cases i with
  | sd src r =>
    simp only [Bool.and_eq_true, decide_eq_true_eq] at hcheck
    -- stores and loads go through `tp`, which the check wants to hold the pointer
    obtain ⟨hproc, hcheck⟩ := hcheck
    have hcells : cells (x.store mem (.sd src r)) v.ptr =
        Function.update (cells mem v.ptr) r (x.gpr src) := by
      rw [Hart.store, htp hproc, cells_update]
    refine ⟨_, hcheck, Matches.setControl ?_ _⟩
    rw [hcells]
    exact h.sd src r
  | ld dst r =>
    simp only [Bool.and_eq_true, decide_eq_true_eq] at hcheck
    obtain ⟨hproc, hcheck⟩ := hcheck
    refine ⟨_, hcheck, Matches.setControl ?_ _⟩
    rw [htp hproc]
    exact h.ld dst r
  | set dst o =>
    exact ⟨_, hcheck, (h.setGpr (h.operand o)).setControl _⟩
  | csrrw dst src =>
    refine ⟨_, hcheck, ?_⟩
    have hset := h.setGpr (g := dst) h.mscratch
    refine { hset with mscratch := ?_ }
    cases src with
    | none => rfl
    | some g => exact h.gpr g
  | csrwMscratch src =>
    exact ⟨_, hcheck, { h with mscratch := h.gpr src }⟩
  | csrwMepc src =>
    exact ⟨_, hcheck, { h with mepc := h.gpr src }⟩
  | csrwMstatus imm =>
    refine ⟨_, hcheck, { h with mie := fun hm => hm, mppUser := fun hm => ?_ }⟩
    exact if_neg (by simpa using hm)
  | branch c l =>
    simp only [Bool.and_eq_true, Bool.or_eq_true, Bool.not_eq_true'] at hcheck
    obtain ⟨htaken, hnot⟩ := hcheck
    have hcond := h.decideCond c
    cases hc : x.cond c with
    | true =>
      rw [hc, if_pos rfl] at hcond
      -- the branch is taken, so the check has looked at its target
      have hjump : σ.jump l = true := htaken.resolve_left (by simp [hcond])
      obtain ⟨τ, hτ, hmatch⟩ := h.jump hjump
      refine ⟨τ, ?_, hmatch.setControl _⟩
      simpa [hc] using hτ
    | false =>
      rw [hc, if_neg Bool.false_ne_true] at hcond
      -- or at what follows it
      have hfall : σ.check rest = true := hnot.resolve_left (by simp [hcond])
      refine ⟨σ, ?_, h.setControl _⟩
      simpa [hc] using hfall
  | j l =>
    obtain ⟨τ, hτ, hmatch⟩ := h.jump hcheck
    exact ⟨τ, hτ, hmatch.setControl _⟩
  | call =>
    simp only [Bool.and_eq_true] at hcheck
    obtain ⟨⟨hhome, hforeign⟩, hcheck⟩ := hcheck
    obtain ⟨hptr, hscratch, -⟩ := h.of_atHome hhome
    exact ⟨hcheck, h.foreign hforeign, hptr, hscratch⟩
  | tailSchedYield =>
    simp only [Bool.and_eq_true, Bool.not_eq_true'] at hcheck
    obtain ⟨-, hscratch, hsaved⟩ := h.of_atHome hcheck.1
    exact ⟨hscratch, h.mie hcheck.2, hsaved⟩
  | mret =>
    simp only [Bool.and_eq_true, decide_eq_true_eq] at hcheck
    obtain ⟨⟨⟨hmpp, hmscratch⟩, hmepc⟩, hgpr⟩ := hcheck
    -- back in user code: the pointer in `mscratch` and every register its own
    have hscratch := h.mscratch
    have hepc := h.mepc
    rw [hmscratch] at hscratch
    rw [hmepc] at hepc
    have hcontrol : (x.exec lay mem rest .mret).control = .user x.mepc := by
      simp only [Hart.exec, h.mppUser hmpp]
    rw [HartOk, hcontrol]
    refine ⟨hscratch, fun u hu => ⟨hepc u hu, fun g => ?_⟩⟩
    have hg := h.gpr g
    rw [of_decide_eq_true (List.all_eq_true.mp hgpr g g.mem_all)] at hg
    exact hg u hu
  | wfi =>
    exact ⟨_, hcheck, h.setControl _⟩

end Trap
end SepKernel
