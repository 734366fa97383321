import Mathlib.Logic.Function.Basic
import SepKernel.Lib.Transition

/-!
# Agents on shared memory

Any number of agents work on cells that they share. An agent is a control state; from some control
states it may enter an operation, and from others it goes on by one access, which reads a cell,
writes it and leads to a next control state that depends on what was found, all at once. The
agents take turns in any order.
-/

namespace Interleaving

open Transition (Steps)

variable {ι κ ν γ ω : Type*}

/-- An atomic access: a load, a store, a compare and swap or any other read and write of a cell. -/
structure Access (κ ν γ : Type*) where
  cell : κ
  write : ν → ν
  next : ν → γ

namespace Access

/-- What is read chooses how the agent goes on; the cell stays. -/
def load (c : κ) (next : ν → γ) : Access κ ν γ := ⟨c, id, next⟩

/-- What was in the cell does not matter. -/
def store (c : κ) (v : ν) (next : γ) : Access κ ν γ := ⟨c, fun _ => v, fun _ => next⟩

/-- Compare and set: to `yes` if it found what it expected. -/
def cas [DecidableEq ν] (c : κ) (expected desired : ν) (yes no : γ) : Access κ ν γ :=
  ⟨c, fun v => if v = expected then desired else v, fun v => if v = expected then yes else no⟩

/-- Fetch and modify. -/
def modify (c : κ) (f : ν → ν) (next : ν → γ) : Access κ ν γ := ⟨c, f, next⟩

end Access

/-- The memory that the agents share, and where each of them is. -/
structure State (ι κ ν γ : Type*) where
  mem : κ → ν
  ctl : ι → γ

/-- A program: the operations that may be entered, and the next access inside one. -/
structure Machine (κ ν γ ω : Type*) where
  enter : γ → ω → Option γ
  access : γ → Option (Access κ ν γ)

/-- An agent begins an operation, or goes on in the one it is in. -/
inductive Label (ι ω : Type*) where
  | enter (a : ι) (o : ω)
  | access (a : ι)

namespace State

variable [DecidableEq ι] {s : State ι κ ν γ} {a b : ι} {g : γ} {x : Access κ ν γ} {c : κ}

/-- One agent moves; no memory changes. -/
def setCtl (s : State ι κ ν γ) (a : ι) (g : γ) : State ι κ ν γ :=
  { s with ctl := Function.update s.ctl a g }

@[simp] theorem ctl_setCtl_same : (s.setCtl a g).ctl a = g := Function.update_self _ _ _

theorem ctl_setCtl_of_ne (h : b ≠ a) : (s.setCtl a g).ctl b = s.ctl b :=
  Function.update_of_ne h _ _

variable [DecidableEq κ]

/-- The cell and the agent change together, and nothing else does. -/
def perform (s : State ι κ ν γ) (a : ι) (x : Access κ ν γ) : State ι κ ν γ :=
  ⟨Function.update s.mem x.cell (x.write (s.mem x.cell)),
    Function.update s.ctl a (x.next (s.mem x.cell))⟩

@[simp] theorem ctl_perform_same : (s.perform a x).ctl a = x.next (s.mem x.cell) :=
  Function.update_self _ _ _

theorem ctl_perform_of_ne (h : b ≠ a) : (s.perform a x).ctl b = s.ctl b :=
  Function.update_of_ne h _ _

@[simp] theorem mem_perform_same : (s.perform a x).mem x.cell = x.write (s.mem x.cell) :=
  Function.update_self _ _ _

theorem mem_perform_of_ne (h : c ≠ x.cell) : (s.perform a x).mem c = s.mem c :=
  Function.update_of_ne h _ _

/-- A change of one cell by nobody in particular. -/
def setMem (s : State ι κ ν γ) (c : κ) (v : ν) : State ι κ ν γ :=
  { s with mem := Function.update s.mem c v }

omit [DecidableEq ι] in
@[simp] theorem mem_setMem_same {v : ν} : (s.setMem c v).mem c = v := Function.update_self _ _ _

omit [DecidableEq ι] in
theorem mem_setMem_of_ne {c' : κ} {v : ν} (h : c' ≠ c) : (s.setMem c v).mem c' = s.mem c' :=
  Function.update_of_ne h _ _

/-- A load moves the agent and nothing else. -/
theorem perform_load (next : ν → γ) :
    s.perform a (.load c next) = s.setCtl a (next (s.mem c)) := by
  simp only [perform, Access.load, setCtl, id_eq, Function.update_eq_self]

theorem perform_store (v : ν) : s.perform a (.store c v g) = (s.setMem c v).setCtl a g := rfl

/-- A comparison that succeeds is a store. -/
theorem perform_cas_of_eq [DecidableEq ν] {u v : ν} {yes no : γ} (h : s.mem c = u) :
    s.perform a (.cas c u v yes no) = (s.setMem c v).setCtl a yes := by
  simp only [perform, Access.cas, setCtl, setMem, if_pos h]

/-- One that fails is a load. -/
theorem perform_cas_of_ne [DecidableEq ν] {u v : ν} {yes no : γ} (h : s.mem c ≠ u) :
    s.perform a (.cas c u v yes no) = s.setCtl a no := by
  simp only [perform, Access.cas, setCtl, if_neg h, Function.update_eq_self]

end State

namespace Machine

variable [DecidableEq ι] [DecidableEq κ] {M : Machine κ ν γ ω} {s s' : State ι κ ν γ}
  {l : Label ι ω}

/-- Nothing, where the agent cannot do what the label says. -/
def step (M : Machine κ ν γ ω) (l : Label ι ω) (s : State ι κ ν γ) : Option (State ι κ ν γ) :=
  match l with
  | .enter a o => (M.enter (s.ctl a) o).map (s.setCtl a)
  | .access a => (M.access (s.ctl a)).map (s.perform a)

/-- The steps that the agents can take, in any order. -/
def Step (M : Machine κ ν γ ω) (s : State ι κ ν γ) (l : Label ι ω) (s' : State ι κ ν γ) : Prop :=
  M.step l s = some s'

/-- All that a step can do. -/
theorem step_cases (h : M.Step s l s') :
    (∃ a o g, l = .enter a o ∧ M.enter (s.ctl a) o = some g ∧ s' = s.setCtl a g) ∨
      ∃ a x, l = .access a ∧ M.access (s.ctl a) = some x ∧ s' = s.perform a x := by
  cases l with
  | enter a o =>
    obtain ⟨g, hg, hs⟩ := Option.map_eq_some_iff.mp h
    exact Or.inl ⟨a, o, g, rfl, hg, hs.symm⟩
  | access a =>
    obtain ⟨x, hx, hs⟩ := Option.map_eq_some_iff.mp h
    exact Or.inr ⟨a, x, rfl, hx, hs.symm⟩

/-- An agent whose operation has an access left is never stuck. -/
theorem step_access {a : ι} {x : Access κ ν γ} (hx : M.access (s.ctl a) = some x) :
    M.step (.access a) s = some (s.perform a x) := by
  rw [step, hx]
  rfl

/-! ## An agent alone -/

/-- At most so many accesses of one agent, with nobody in between. -/
def alone (M : Machine κ ν γ ω) : Nat → γ → (κ → ν) → γ × (κ → ν)
  | 0, g, mem => (g, mem)
  | n + 1, g, mem =>
    match M.access g with
    | none => (g, mem)
    | some x => alone M n (x.next (mem x.cell))
        (Function.update mem x.cell (x.write (mem x.cell)))

theorem alone_succ {x : Access κ ν γ} {g : γ} {mem : κ → ν} (n : Nat) (h : M.access g = some x) :
    M.alone (n + 1) g mem = M.alone n (x.next (mem x.cell))
      (Function.update mem x.cell (x.write (mem x.cell))) := by
  rw [alone, h]

theorem alone_none {g : γ} {mem : κ → ν} (n : Nat) (h : M.access g = none) :
    M.alone n g mem = (g, mem) := by
  cases n with
  | zero => rfl
  | succ n => rw [alone, h]

/-- An agent's run alone can be cut anywhere. -/
theorem alone_add (j k : Nat) (g : γ) (mem : κ → ν) :
    M.alone (j + k) g mem = M.alone k (M.alone j g mem).1 (M.alone j g mem).2 := by
  induction j generalizing g mem with
  | zero => rw [Nat.zero_add, alone]
  | succ j ih =>
    rw [Nat.succ_add]
    cases hx : M.access g with
    | none => rw [alone_none _ hx, alone_none _ hx, alone_none _ hx]
    | some x => rw [alone_succ _ hx, alone_succ _ hx, ih]

section

variable {g yes no : γ} {mem : κ → ν} {c : κ} {u v : ν} {next : ν → γ} {f : ν → ν}

theorem alone_load (n : Nat) (h : M.access g = some (.load c next)) :
    M.alone (n + 1) g mem = M.alone n (next (mem c)) mem := by
  rw [alone_succ n h]
  simp only [Access.load, id_eq, Function.update_eq_self]

theorem alone_store (n : Nat) (h : M.access g = some (.store c v yes)) :
    M.alone (n + 1) g mem = M.alone n yes (Function.update mem c v) := alone_succ n h

theorem alone_modify (n : Nat) (h : M.access g = some (.modify c f next)) :
    M.alone (n + 1) g mem = M.alone n (next (mem c)) (Function.update mem c (f (mem c))) :=
  alone_succ n h

variable [DecidableEq ν]

theorem alone_cas_of_eq (n : Nat) (h : M.access g = some (.cas c u v yes no)) (hu : mem c = u) :
    M.alone (n + 1) g mem = M.alone n yes (Function.update mem c v) := by
  rw [alone_succ n h]
  simp only [Access.cas, hu, if_true]

theorem alone_cas_of_ne (n : Nat) (h : M.access g = some (.cas c u v yes no)) (hu : mem c ≠ u) :
    M.alone (n + 1) g mem = M.alone n no mem := by
  rw [alone_succ n h]
  simp only [Access.cas, if_neg hu, Function.update_eq_self]

end

/-- What an agent does alone is a run. -/
theorem steps_alone (M : Machine κ ν γ ω) (a : ι) (n : Nat) (s : State ι κ ν γ) :
    Steps M.Step s ⟨(M.alone n (s.ctl a) s.mem).2,
      Function.update s.ctl a (M.alone n (s.ctl a) s.mem).1⟩ := by
  induction n generalizing s with
  | zero =>
    rw [alone, Function.update_eq_self]
    exact .refl s
  | succ n ih =>
    cases hx : M.access (s.ctl a) with
    | none =>
      rw [alone_none _ hx, Function.update_eq_self]
      exact .refl s
    | some x =>
      have hstep : M.Step s (.access a) (s.perform a x) := by
        rw [Step, step, hx]
        rfl
      have hrest := ih (s.perform a x)
      rw [alone_succ n hx]
      simp only [State.perform, Function.update_self, Function.update_idem] at hrest
      exact Relation.ReflTransGen.head ⟨_, hstep⟩ hrest

end Machine
end Interleaving
