import SepKernel.Lib.Interleaving

/-!
# Compare and swap by load-reserved and store-conditional

Where a machine has no compare and swap, a loop of four instructions does it: a load that reserves
the cell, a branch on the value, a store that takes place if the reservation has lasted, and a
branch back if it has not. The agents take turns between any two of these instructions, a store to
a cell ends everybody else's reservation of it, and a reservation may be lost at any time for no
reason. A program run in this way does nothing that it could not do with a compare and swap that is
one access.
-/

namespace LoadReserved

open Interleaving
open Transition (Reachable Steps restrict)

variable {ι κ ν γ ω : Type*}

/-! ## Programs -/

/-- A comparison with what is expected, and where the agent goes on in either case. -/
structure Cas (κ ν γ : Type*) where
  cell : κ
  expected : ν
  desired : ν
  yes : γ
  no : γ

/-- What an agent does next: one instruction, or the loop. -/
inductive Op (κ ν γ : Type*) where
  | load (c : κ) (next : ν → γ)
  | modify (c : κ) (f : ν → ν) (next : ν → γ)
  | cas (x : Cas κ ν γ)

/-- A write that does not look. -/
def Op.store (c : κ) (v : ν) (next : γ) : Op κ ν γ := .modify c (fun _ => v) fun _ => next

/-- What agents do, with comparisons as instructions that are not atomic. -/
structure Program (κ ν γ ω : Type*) where
  enter : γ → ω → Option γ
  op : γ → Option (Op κ ν γ)

/-- The operation as one access. -/
def Op.access [DecidableEq ν] : Op κ ν γ → Access κ ν γ
  | .load c next => .load c next
  | .modify c f next => .modify c f next
  | .cas x => .cas x.cell x.expected x.desired x.yes x.no

theorem Op.access_store [DecidableEq ν] (c : κ) (v : ν) (next : γ) :
    (Op.store c v next).access = .store c v next := rfl

/-- The program with all its operations atomic. -/
def Program.machine [DecidableEq ν] (P : Program κ ν γ ω) : Machine κ ν γ ω :=
  ⟨P.enter, fun g => (P.op g).map Op.access⟩

/-- The comparison that the agent is about to make. -/
def Program.cas (P : Program κ ν γ ω) (g : γ) : Option (Cas κ ν γ) :=
  match P.op g with
  | some (.cas x) => some x
  | _ => none

/-! ## Instructions -/

/-- Where an agent is: before an operation, whose first instruction is `lr` if it is the loop, or
    further down in the loop with what it has loaded. -/
inductive Pc (ν γ : Type*) where
  | start (g : γ)
  | bne (g : γ) (loaded : ν)
  | sc (g : γ) (loaded : ν)
  | bnez (g : γ) (loaded : ν) (failed : Bool)

/-- The shared memory, who holds a reservation of what, and where each agent is. -/
structure Cpu (ι κ ν γ : Type*) where
  mem : κ → ν
  reserved : ι → Option κ
  pc : ι → Pc ν γ

/-- An agent begins an operation or executes its next instruction. Reservations get lost at any
    time. -/
inductive Instr (ι ω : Type*) where
  | enter (a : ι) (o : ω)
  | next (a : ι)
  /-- The agent loses its reservation. -/
  | lose (a : ι)

namespace Cpu

variable [DecidableEq ι] {s : Cpu ι κ ν γ} {a b : ι} {g : γ} {c : κ} {v : ν}

/-- The agent goes on to its next instruction. -/
def goes (s : Cpu ι κ ν γ) (a : ι) (i : Pc ν γ) : Cpu ι κ ν γ :=
  { s with pc := Function.update s.pc a i }

/-- The agent has this reservation, or none. -/
def reserve (s : Cpu ι κ ν γ) (a : ι) (r : Option κ) : Cpu ι κ ν γ :=
  { s with reserved := Function.update s.reserved a r }

/-- A store, which ends the reservations that the others have of the cell. -/
def write [DecidableEq κ] (s : Cpu ι κ ν γ) (a : ι) (c : κ) (v : ν) : Cpu ι κ ν γ where
  mem := Function.update s.mem c v
  reserved b := if b ≠ a ∧ s.reserved b = some c then none else s.reserved b
  pc := s.pc

end Cpu

namespace Program

variable [DecidableEq ι] [DecidableEq κ] [DecidableEq ν]

/-- The next instruction of an agent. -/
def instr (P : Program κ ν γ ω) (a : ι) (s : Cpu ι κ ν γ) : Option (Cpu ι κ ν γ) :=
  match s.pc a with
  | .start g => (P.op g).map fun
    | .load c next => s.goes a (.start (next (s.mem c)))
    | .modify c f next => (s.write a c (f (s.mem c))).goes a (.start (next (s.mem c)))
    | .cas x => (s.reserve a (some x.cell)).goes a (.bne g (s.mem x.cell))
  | .bne g loaded => (P.cas g).map fun x =>
    s.goes a (if loaded = x.expected then .sc g loaded else .start x.no)
  | .sc g loaded => (P.cas g).map fun x =>
    if s.reserved a = some x.cell then
      ((s.write a x.cell x.desired).reserve a none).goes a (.bnez g loaded false)
    else (s.reserve a none).goes a (.bnez g loaded true)
  | .bnez g loaded failed => (P.cas g).map fun x =>
    s.goes a (.start (if failed then g else if loaded = x.expected then x.yes else x.no))

/-- Nothing, where the agent cannot do what the label says. -/
def step (P : Program κ ν γ ω) (l : Instr ι ω) (s : Cpu ι κ ν γ) : Option (Cpu ι κ ν γ) :=
  match l with
  | .enter a o =>
    match s.pc a with
    | .start g => (P.enter g o).map fun g => s.goes a (.start g)
    | _ => none
  | .next a => P.instr a s
  | .lose a => some (s.reserve a none)

/-- The instructions that can be executed. -/
def Step (P : Program κ ν γ ω) (s : Cpu ι κ ν γ) (l : Instr ι ω) (s' : Cpu ι κ ν γ) : Prop :=
  P.step l s = some s'

end Program

/-! ## What it looks like from outside -/

section

variable [DecidableEq ν] {P : Program κ ν γ ω}

/-- The access has taken place once the loop can only end in one way: with the load of another
    value, or with the store. -/
def Pc.outside (P : Program κ ν γ ω) : Pc ν γ → γ
  | .start g => g
  | .bne g loaded =>
    match P.cas g with
    | some x => if loaded = x.expected then g else x.no
    | none => g
  | .sc g _ => g
  | .bnez g _ failed =>
    match P.cas g with
    | some x => if failed then g else x.yes
    | none => g

/-- The state of the program with comparisons in one piece. -/
def Cpu.outside (P : Program κ ν γ ω) (s : Cpu ι κ ν γ) : State ι κ ν γ :=
  ⟨s.mem, fun a => (s.pc a).outside P⟩

/-- While a reservation lasts, the cell holds what was loaded. -/
def Pc.Fits (P : Program κ ν γ ω) (mem : κ → ν) (reserved : Option κ) : Pc ν γ → Prop
  | .start _ => True
  | .bne g loaded => ∃ x, P.cas g = some x ∧ (reserved = some x.cell → mem x.cell = loaded)
  | .sc g loaded => ∃ x, P.cas g = some x ∧ loaded = x.expected ∧
    (reserved = some x.cell → mem x.cell = loaded)
  | .bnez g loaded _ => ∃ x, P.cas g = some x ∧ loaded = x.expected

/-- What every agent has in its registers fits the memory, as far as it has a reservation. -/
def Cpu.Fits (P : Program κ ν γ ω) (s : Cpu ι κ ν γ) : Prop :=
  ∀ a, (s.pc a).Fits P s.mem (s.reserved a)

omit [DecidableEq ν] in
theorem op_of_cas {g : γ} {x : Cas κ ν γ} (h : P.cas g = some x) : P.op g = some (.cas x) := by
  rw [Program.cas] at h
  split at h
  · next y hop =>
    obtain rfl := Option.some.inj h
    exact hop
  · cases h

omit [DecidableEq ν] in
theorem cas_of_op {g : γ} {x : Cas κ ν γ} (h : P.op g = some (.cas x)) : P.cas g = some x := by
  rw [Program.cas, h]

omit [DecidableEq ν] in
/-- What fits still does when reservations end, and cells change that are not reserved. -/
theorem Pc.Fits.mono {mem mem' : κ → ν} {r r' : Option κ} {i : Pc ν γ} (h : i.Fits P mem r)
    (hr : ∀ c, r' = some c → r = some c ∧ mem' c = mem c) : i.Fits P mem' r' := by
  cases i with
  | start g => trivial
  | bne g loaded =>
    obtain ⟨x, hx, hm⟩ := h
    exact ⟨x, hx, fun hc => (hr _ hc).2.trans (hm (hr _ hc).1)⟩
  | sc g loaded =>
    obtain ⟨x, hx, hl, hm⟩ := h
    exact ⟨x, hx, hl, fun hc => (hr _ hc).2.trans (hm (hr _ hc).1)⟩
  | bnez g loaded failed => exact h

end

namespace Cpu

variable [DecidableEq ι] {P : Program κ ν γ ω} {s s' : Cpu ι κ ν γ} {a b : ι} {i : Pc ν γ} {c : κ}
  {v : ν} {r : Option κ} {l : Instr ι ω}

/-- The instruction of one agent: it fits what it loaded itself, and does not disturb the others. -/
theorem Fits.update {mem : κ → ν} {reserved : ι → Option κ} (h : s.Fits P)
    (hi : i.Fits P mem (reserved a))
    (hr : ∀ b, b ≠ a → ∀ c, reserved b = some c → s.reserved b = some c ∧ mem c = s.mem c) :
    Fits P ⟨mem, reserved, Function.update s.pc a i⟩ := by
  intro b
  by_cases hb : b = a
  · subst hb
    simpa using hi
  · simp only [Function.update_of_ne hb]
    exact (h b).mono (hr b hb)

theorem Fits.goes (h : s.Fits P) (hi : i.Fits P s.mem (s.reserved a)) : (s.goes a i).Fits P :=
  h.update hi fun _ _ _ hc => ⟨hc, rfl⟩

theorem reserve_of_ne (hb : b ≠ a) : (s.reserve a r).reserved b = s.reserved b :=
  Function.update_of_ne hb _ _

theorem Fits.reserve (h : s.Fits P) (hi : i.Fits P s.mem r) : ((s.reserve a r).goes a i).Fits P := by
  refine h.update ?_ fun b hb c hc => ⟨(reserve_of_ne hb).symm.trans hc, rfl⟩
  have hr : (s.reserve a r).reserved a = r := Function.update_self _ _ _
  rw [hr]
  exact hi

variable [DecidableEq κ]

/-- Who has a reservation after a store has it of another cell. -/
theorem reserved_write (hb : b ≠ a) {c' : κ} (h : (s.write a c v).reserved b = some c') :
    s.reserved b = some c' ∧ (s.write a c v).mem c' = s.mem c' := by
  simp only [write] at h
  split at h
  · cases h
  · next hno =>
    have hc : c' ≠ c := fun e => hno ⟨hb, e ▸ h⟩
    exact ⟨h, Function.update_of_ne hc _ _⟩

/-- A write takes the reservations of its cell away; what was loaded from elsewhere is still
    there. -/
theorem Fits.write (h : s.Fits P)
    (hi : i.Fits P (s.write a c v).mem ((s.write a c v).reserved a)) :
    ((s.write a c v).goes a i).Fits P :=
  h.update hi fun _ hb _ hc => reserved_write hb hc

variable [DecidableEq ν]

/-- No instruction makes a loaded value stale behind a reservation that still stands. -/
theorem fits_step (h : s.Fits P) (hl : P.Step s l s') : s'.Fits P := by
  cases l with
  | enter a o =>
    simp only [Program.Step, Program.step] at hl
    split at hl
    · obtain ⟨g, hg, rfl⟩ := Option.map_eq_some_iff.mp hl
      exact h.goes trivial
    · cases hl
  | lose a =>
    obtain rfl := Option.some.inj hl
    intro b
    by_cases hb : b = a
    · refine (h b).mono fun c hc => ?_
      subst hb
      simp [Cpu.reserve] at hc
    · exact (h b).mono fun c hc => ⟨(reserve_of_ne hb).symm.trans hc, rfl⟩
  | next a =>
    have ha := h a
    simp only [Program.Step, Program.step, Program.instr] at hl
    cases hpc : s.pc a with
    | start g =>
      rw [hpc] at hl
      obtain ⟨o, ho, rfl⟩ := Option.map_eq_some_iff.mp hl
      cases o with
      | load c next => exact h.goes trivial
      | modify c f next => exact h.write trivial
      | cas x => exact h.reserve ⟨x, cas_of_op ho, fun _ => rfl⟩
    | bne g loaded =>
      rw [hpc] at hl ha
      obtain ⟨x, hx, rfl⟩ := Option.map_eq_some_iff.mp hl
      obtain ⟨y, hy, hm⟩ := ha
      obtain rfl : x = y := Option.some.inj (hx.symm.trans hy)
      refine h.goes ?_
      split
      · next heq => exact ⟨x, hx, heq, hm⟩
      · trivial
    | sc g loaded =>
      rw [hpc] at hl ha
      obtain ⟨x, hx, rfl⟩ := Option.map_eq_some_iff.mp hl
      obtain ⟨y, hy, hloaded, hm⟩ := ha
      obtain rfl : x = y := Option.some.inj (hx.symm.trans hy)
      split
      · refine h.update ⟨x, hx, hloaded⟩ fun b hb c hc => ?_
        exact reserved_write (v := x.desired) hb ((reserve_of_ne hb).symm.trans hc)
      · exact h.reserve ⟨x, hx, hloaded⟩
    | bnez g loaded failed =>
      rw [hpc] at hl
      obtain ⟨x, hx, rfl⟩ := Option.map_eq_some_iff.mp hl
      exact h.goes trivial

/-! ## Atomicity -/

omit [DecidableEq κ] in
theorem outside_goes : (s.goes a i).outside P = (s.outside P).setCtl a (i.outside P) := by
  simp only [outside, goes, State.setCtl]
  exact congrArg _ (Function.comp_update (Pc.outside P) s.pc a i)

omit [DecidableEq κ] in
/-- An instruction within the loop. -/
theorem outside_goes_same (h : i.outside P = (s.pc a).outside P) :
    (s.goes a i).outside P = s.outside P := by
  rw [outside_goes, h]
  simp only [outside, State.setCtl, Function.update_eq_self]

end Cpu

variable [DecidableEq ι] [DecidableEq κ] [DecidableEq ν] {P : Program κ ν γ ω} {s s' : Cpu ι κ ν γ}
  {l : Instr ι ω} {c : State ι κ ν γ → Label ι ω → Prop} {init : State ι κ ν γ → Prop}

/-- The step of the machine that takes place with an instruction: the loop's is with the load if
    that finds another value, and otherwise with the store. -/
def Program.acts (P : Program κ ν γ ω) (s : Cpu ι κ ν γ) : Instr ι ω → Option (Label ι ω)
  | .enter a o => some (.enter a o)
  | .lose _ => none
  | .next a =>
    match s.pc a with
    | .start g =>
      match P.cas g with
      | some x => if s.mem x.cell = x.expected then none else some (.access a)
      | none => some (.access a)
    | .sc g _ =>
      match P.cas g with
      | some x => if s.reserved a = some x.cell then some (.access a) else none
      | none => none
    | .bne _ _ => none
    | .bnez _ _ _ => none

/-- What an instruction comes to from outside. -/
def Effect (P : Program κ ν γ ω) (s s' : Cpu ι κ ν γ) : Option (Label ι ω) → Prop
  | none => s'.outside P = s.outside P
  | some l => P.machine.Step (s.outside P) l (s'.outside P)

/-- The first instruction of an operation. -/
theorem effect_start {a : ι} {g : γ} (hpc : s.pc a = .start g)
    (hl : P.Step s (.next a) s') : Effect P s s' (P.acts s (.next a)) := by
  have hctl : (s.outside P).ctl a = g := congrArg (Pc.outside P) hpc
  simp only [Program.Step, Program.step, Program.instr, hpc] at hl
  obtain ⟨o, ho, rfl⟩ := Option.map_eq_some_iff.mp hl
  have hacc : P.machine.access ((s.outside P).ctl a) = some o.access := by
    rw [hctl]
    exact congrArg (Option.map Op.access) ho
  have hstep : P.machine.Step (s.outside P) (.access a) ((s.outside P).perform a o.access) :=
    Machine.step_access hacc
  cases o with
  | load c next =>
    simp only [Program.acts, hpc, Program.cas, ho, Effect]
    rw [Op.access, State.perform_load] at hstep
    rw [Cpu.outside_goes]
    exact hstep
  | modify c f next =>
    simp only [Program.acts, hpc, Program.cas, ho, Effect]
    rw [Cpu.outside_goes]
    exact hstep
  | cas x =>
    by_cases heq : s.mem x.cell = x.expected
    · simp only [Program.acts, hpc, cas_of_op ho, if_pos heq, Effect]
      refine Cpu.outside_goes_same ?_
      change _ = (s.pc a).outside P
      rw [hpc]
      simp only [Pc.outside, cas_of_op ho, if_pos heq]
    · -- with another value loaded, the loop is over
      simp only [Program.acts, hpc, cas_of_op ho, if_neg heq, Effect]
      rw [Op.access, State.perform_cas_of_ne heq] at hstep
      have hno : (Pc.bne g (s.mem x.cell)).outside P = x.no := by
        simp only [Pc.outside, cas_of_op ho, if_neg heq]
      rw [Cpu.outside_goes, hno]
      exact hstep

/-- The conditional store. -/
theorem effect_sc {a : ι} {g : γ} {loaded : ν} (ha : (s.pc a).Fits P s.mem (s.reserved a))
    (hpc : s.pc a = .sc g loaded) (hl : P.Step s (.next a) s') :
    Effect P s s' (P.acts s (.next a)) := by
  have hctl : (s.outside P).ctl a = g := congrArg (Pc.outside P) hpc
  simp only [Program.Step, Program.step, Program.instr, hpc] at hl
  obtain ⟨x, hx, rfl⟩ := Option.map_eq_some_iff.mp hl
  rw [hpc] at ha
  obtain ⟨y, hy, hloaded, hm⟩ := ha
  obtain rfl : x = y := Option.some.inj (hx.symm.trans hy)
  by_cases hr : s.reserved a = some x.cell
  · -- the reservation has lasted, so the cell holds what is expected
    simp only [Program.acts, hpc, hx, if_pos hr, Effect]
    have hfound : (s.outside P).mem x.cell = x.expected := (hm hr).trans hloaded
    have hacc : P.machine.access ((s.outside P).ctl a) =
        some (.cas x.cell x.expected x.desired x.yes x.no) := by
      rw [hctl]
      exact congrArg (Option.map Op.access) (op_of_cas hx)
    have hstep : P.machine.Step (s.outside P) (.access a) _ := Machine.step_access hacc
    rw [State.perform_cas_of_eq hfound] at hstep
    have hyes : (Pc.bnez g loaded false).outside P = x.yes := by
      simp only [Pc.outside, hx, Bool.false_eq_true, if_false]
    rw [Cpu.outside_goes, hyes]
    exact hstep
  · simp only [Program.acts, hpc, hx, if_neg hr, Effect]
    refine Cpu.outside_goes_same ?_
    change _ = (s.pc a).outside P
    rw [hpc]
    simp only [Pc.outside, hx, if_true]

/-- From outside, an instruction is a step of the machine, or nothing. -/
theorem step_outside (h : s.Fits P) (hl : P.Step s l s') : Effect P s s' (P.acts s l) := by
  cases l with
  | enter a o =>
    simp only [Program.Step, Program.step] at hl
    split at hl
    · next g hpc =>
      obtain ⟨g', hg, rfl⟩ := Option.map_eq_some_iff.mp hl
      have hctl : (s.outside P).ctl a = g := congrArg (Pc.outside P) hpc
      rw [Program.acts, Effect, Cpu.outside_goes]
      simp only [Machine.Step, Machine.step, hctl, Program.machine, hg, Option.map_some,
        Pc.outside]
    · cases hl
  | lose a =>
    obtain rfl := Option.some.inj hl
    exact rfl
  | next a =>
    have ha := h a
    cases hpc : s.pc a with
    | start g => exact effect_start hpc hl
    | sc g loaded => exact effect_sc ha hpc hl
    | bne g loaded =>
      simp only [Program.Step, Program.step, Program.instr, hpc] at hl
      obtain ⟨x, hx, rfl⟩ := Option.map_eq_some_iff.mp hl
      simp only [Program.acts, hpc, Effect]
      refine Cpu.outside_goes_same ?_
      rw [hpc]
      by_cases heq : loaded = x.expected
      · simp only [Pc.outside, hx, if_pos heq]
      · simp only [Pc.outside, hx, if_neg heq]
    | bnez g loaded failed =>
      simp only [Program.Step, Program.step, Program.instr, hpc] at hl
      obtain ⟨x, hx, rfl⟩ := Option.map_eq_some_iff.mp hl
      rw [hpc] at ha
      obtain ⟨y, hy, hloaded⟩ := ha
      obtain rfl : x = y := Option.some.inj (hx.symm.trans hy)
      simp only [Program.acts, hpc, Effect]
      refine Cpu.outside_goes_same ?_
      rw [hpc]
      simp only [Pc.outside, hx, hloaded, if_true]

/-- Before anybody does anything. -/
def Starts (init : State ι κ ν γ → Prop) (P : Program κ ν γ ω) (s : Cpu ι κ ν γ) : Prop :=
  init (s.outside P) ∧ ∀ a, ∃ g, s.pc a = .start g

omit [DecidableEq ι] [DecidableEq κ] in
/-- Nobody has loaded anything yet. -/
theorem Starts.fits (h : Starts init P s) : s.Fits P := by
  intro a
  obtain ⟨g, hg⟩ := h.2 a
  rw [hg]
  trivial

/-- The steps that take place meet the condition. -/
def Meets (P : Program κ ν γ ω) (c : State ι κ ν γ → Label ι ω → Prop) (s : Cpu ι κ ν γ)
    (l : Instr ι ω) : Prop := ∀ l', P.acts s l = some l' → c (s.outside P) l'

/-- What the agents reach instruction by instruction is, from outside, what they reach with atomic
    operations, whatever condition there is on the steps. -/
theorem reachable_outside (hr : Reachable (Starts init P) (restrict P.Step (Meets P c)) s) :
    Reachable init (restrict P.machine.Step c) (s.outside P) := by
  refine (hr.invariant (I := fun s => s.Fits P ∧
    Reachable init (restrict P.machine.Step c) (s.outside P))
    (fun s hs => ⟨hs.fits, .start hs.1⟩) fun s l s' hI hl => ⟨Cpu.fits_step hI.1 hl.1, ?_⟩).2
  have heff := step_outside hI.1 hl.1
  have hmeets := hl.2
  rw [Meets] at hmeets
  cases hacts : P.acts s l with
  | none =>
    rw [hacts] at heff
    exact heff ▸ hI.2
  | some l' =>
    rw [hacts] at heff
    exact hI.2.step ⟨heff, hmeets l' hacts⟩

end LoadReserved
