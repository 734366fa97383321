import SepKernel.Execution
import SepKernel.Lib.LoadReserved
import SepKernel.NodeRaces

/-!
# `inc/atomic.h`

`compare_and_set` is a loop of `lr.d`, `bne`, `sc.d` and `bnez` on words of eight bytes, and
everything the harts do to the state words of the processes and to the links of the nodes has so
far been told as if it were one access. Here the harts run the loops instruction by instruction.
Whatever they reach is, from outside, a state they reach with the accesses in one piece, so that
what holds of all those states holds of these.
-/

namespace SepKernel

open Interleaving LoadReserved
open Transition (Reachable restrict exec steps_getD_exec)

variable {ι : Type} [DecidableEq ι]

/-! ## State words -/

/-- The functions of `proc_state.h` as the harts execute them, with `compare_and_set` as its
    loop. -/
def hartProgram : Program Nat Word HartState HartOp := ⟨HartState.enter, HartState.op⟩

theorem hartProgram_machine : hartProgram.machine = hartMachine := rfl

/-- In every run of the harts, instruction by instruction, the state words and the places where the
    harts stand are from outside those of a run with an atomic `compare_and_set`. -/
theorem hart_instructions {c : HartsState → Interleaving.Label Nat HartOp → Prop}
    {s : Cpu Nat Nat Word HartState}
    (hr : Reachable (Starts HartsStart hartProgram)
      (restrict hartProgram.Step (Meets hartProgram c)) s) :
    Reachable HartsStart (restrict hartMachine.Step c) (s.outside hartProgram) := by
  rw [← hartProgram_machine]
  exact reachable_outside hr

/-- No reservation is held, and every hart is at the beginning of where it is. -/
def hartsBootCpu : Cpu Nat Nat Word HartState :=
  ⟨hartsBoot.mem, fun _ => none, fun h => .start (hartsBoot.ctl h)⟩

/-- Harts 1 and 2 have both loaded the state of process 0 when hart 1 stores. Hart 2 finds its
    reservation gone, loads the state once more, and finds the process running. -/
def contendedAcquire : List (Instr Nat HartOp) :=
  [.enter 1 (.acquire 0), .enter 2 (.acquire 0), .next 1, .next 2, .next 2, .next 1, .next 1,
    .next 2, .next 2, .next 1, .next 2, .next 2]

theorem hart_instructions_contendedAcquire :
    let s := (exec hartProgram.step contendedAcquire hartsBootCpu).getD hartsBootCpu
    Executes (s.outside hartProgram) 1 0 ∧ ¬ Executes (s.outside hartProgram) 2 0 ∧
      Reachable HartsStart (restrict hartMachine.Step fun _ _ => True) (s.outside hartProgram) := by
  refine ⟨by unfold Executes; decide +kernel, by unfold Executes; decide +kernel,
    hart_instructions ⟨hartsBootCpu, ⟨hartsBoot_start, fun h => ⟨hartsBoot.ctl h, rfl⟩⟩, ?_⟩⟩
  exact steps_getD_exec (fun _ _ _ h => ⟨h, fun _ _ => trivial⟩) _ _

/-! ## Links -/

/-- The functions of `cap_node.h`, in the same way. -/
def nodeProgram : Program LinkCell (Option NodeRef) NodeCtl NodeOp := ⟨NodeCtl.enter, NodeCtl.op⟩

theorem nodeProgram_machine : nodeProgram.machine = nodeMachine := rfl

/-- `ListState` with the loops of `compare_and_set` spelled out. -/
structure NodeCpu (ι : Type) where
  cpu : Cpu ι LinkCell (Option NodeRef) NodeCtl
  present : NodeRef → Bool

namespace NodeCpu

variable {κ : Type} {hd : κ → NodeRef} {s s' : NodeCpu ι} {l : Instr ι NodeOp}

omit [DecidableEq ι] in
/-- What an observer sees who does not look into the lr/sc loops. -/
def outside (s : NodeCpu ι) : ListState ι := ⟨s.cpu.outside nodeProgram, s.present⟩

/-- A node counts as inserted or deleted with the store that does it. -/
def note (s : NodeCpu ι) (l : Instr ι NodeOp) : NodeRef → Bool :=
  match nodeProgram.acts s.cpu l with
  | some l' => s.outside.note l'
  | none => s.present

/-- The deletion marks are noted at the instruction that takes effect. -/
def step (l : Instr ι NodeOp) (s : NodeCpu ι) : Option (NodeCpu ι) :=
  (nodeProgram.step l s.cpu).map fun cpu => ⟨cpu, s.note l⟩

/-- The instructions that can be executed. -/
def Step (s : NodeCpu ι) (l : Instr ι NodeOp) (s' : NodeCpu ι) : Prop := step l s = some s'

/-- Lists that are well formed, and every hart at the beginning of where it is. -/
def Start (hd : κ → NodeRef) (s : NodeCpu ι) : Prop :=
  s.outside.Start hd ∧ ∀ a, ∃ c, s.cpu.pc a = .start c

theorem step_outside (h : s.cpu.Fits nodeProgram) (hl : s.Step l s') :
    s'.cpu.Fits nodeProgram ∧ match nodeProgram.acts s.cpu l with
      | some l' => ListState.Step s.outside l' s'.outside
      | none => s'.outside = s.outside := by
  obtain ⟨cpu, hcpu, rfl⟩ := Option.map_eq_some_iff.mp hl
  refine ⟨Cpu.fits_step h hcpu, ?_⟩
  have heff := LoadReserved.step_outside h hcpu
  cases hacts : nodeProgram.acts s.cpu l with
  | none =>
    rw [hacts] at heff
    simp only [outside, note, hacts]
    exact congrArg (ListState.mk · s.present) heff
  | some l' =>
    rw [hacts] at heff
    have hstep : nodeMachine.step l' s.outside.harts = some (cpu.outside nodeProgram) := by
      rw [← nodeProgram_machine]
      exact heff
    have hnote : s.note l = s.outside.note l' := by
      rw [note, hacts]
    rw [hnote]
    simp only [ListState.Step, ListState.step, hstep, Option.map_some]
    rfl

end NodeCpu

/-- In every run, instruction by instruction, the links, the places of the harts and which nodes are
    inserted are from outside those of a run with an atomic `compare_and_set`. -/
theorem node_instructions {κ : Type} {hd : κ → NodeRef}
    {c : ListState ι → Interleaving.Label ι NodeOp → Prop} {s : NodeCpu ι}
    (hr : Reachable (NodeCpu.Start hd) (restrict NodeCpu.Step fun s l =>
      ∀ l', nodeProgram.acts s.cpu l = some l' → c s.outside l') s) :
    Reachable (ListState.Start hd) (restrict ListState.Step c) s.outside := by
  refine (hr.invariant (I := fun s => s.cpu.Fits nodeProgram ∧
    Reachable (ListState.Start hd) (restrict ListState.Step c) s.outside)
    (fun s hs => ?_) fun s l s' hI hl => ?_).2
  · have hstarts : Starts (fun _ => True) nodeProgram s.cpu := ⟨trivial, hs.2⟩
    exact ⟨hstarts.fits, .start hs.1⟩
  obtain ⟨hfits, heff⟩ := NodeCpu.step_outside hI.1 hl.1
  have hmeets := hl.2
  refine ⟨hfits, ?_⟩
  cases hacts : nodeProgram.acts s.cpu l with
  | none =>
    rw [hacts] at heff
    exact heff ▸ hI.2
  | some l' =>
    rw [hacts] at heff
    exact hI.2.step ⟨heff, hmeets l' hacts⟩

/-- Two harts and a list that is its sentinel alone. -/
def headOnlyCpu : NodeCpu (Fin 2) :=
  ⟨⟨headOnly.harts.mem, fun _ => none, fun h => .start (headOnly.harts.ctl h)⟩, headOnly.present⟩

/-- Both harts insert a node after the head, and hart 1 loads the links before hart 0 stores, so
    that its `sc` fails, the next `lr` finds the other node, and it begins again. -/
def contendedInsert : List (Instr (Fin 2) NodeOp) :=
  [.enter 0 (.insert (.slot 0 0) (.sentinel .memory)),
    .enter 1 (.insert (.slot 1 0) (.sentinel .memory))] ++
  List.replicate 6 (.next 0) ++ List.replicate 6 (.next 1) ++ List.replicate 4 (.next 0) ++
  List.replicate 13 (.next 1)

theorem node_instructions_contendedInsert :
    let s := (exec NodeCpu.step contendedInsert headOnlyCpu).getD headOnlyCpu
    s.outside.next (.sentinel .memory) = some (.slot 1 0) ∧
      s.outside.next (.slot 1 0) = some (.slot 0 0) ∧
      Reachable (ListState.Start oneList) (restrict ListState.Step fun _ _ => True) s.outside := by
  refine ⟨by decide +kernel, by decide +kernel, node_instructions ⟨headOnlyCpu, ⟨headOnly_start,
    fun h => ⟨headOnly.harts.ctl h, rfl⟩⟩, ?_⟩⟩
  exact steps_getD_exec (fun _ _ _ h => ⟨h, fun _ _ => trivial⟩) _ _

end SepKernel
