import SepKernel.Ownership
import SepKernel.Lib.OwnerTable

/-!
# The tables and the capabilities

The schedule and the table of receivers each repeat, in a form the kernel can look up, who holds
a certain kind of capability. Only `cap_update_hook` writes them: for a derivation and for a
transfer between processes. Here is what an operation writes, and that it keeps a table right which
tracks some share of what capabilities are for, unless it deletes a part of that share.
-/

namespace SepKernel

open Capability (CanDerive)
open Exclusive (Excl)
open OwnerTable (Assigned Names Covered)

variable {R : Type*} {cfg : Config} {s t : Kernel} {st st' : System} {l : Label} {op : CapOp}
  {H : Holdings} {p : Nat} {c : Capability} {n : NodeRef} {D : Set R} {T T' : R → Option Nat}
  {sh : Capability → Set R}

/-! ## What an operation writes -/

namespace CapOp

/-- The process the hook runs for, and the capability it is passed. -/
def assigned (H : Holdings) : CapOp → Option (Nat × Capability)
  | .derive pid _ _ c => some (pid, c.view)
  | .transfer srcPid i destPid _ => some (destPid, H (.slot srcPid i))
  | _ => none

/-- The kernel once the hook has run. -/
def onTables (cfg : Config) (s : Kernel) (op : CapOp) : Kernel :=
  match op.assigned s.held with
  | some (p, c) => s.assign cfg p c
  | none => s

end CapOp

theorem assign_schedule_congr (hs : t.schedule = s.schedule) (hp : (t.procs p).pid = (s.procs p).pid) :
    (t.assign cfg p c).schedule = (s.assign cfg p c).schedule := by
  cases c <;> simp only [Kernel.assign, Kernel.fillSchedule, Kernel.setReceiver, hs, hp]

theorem assign_receivers_congr {ch : Nat} {k : Fin 2} (hr : t.receivers ch k = s.receivers ch k) :
    (t.assign cfg p c).receivers ch k = (s.assign cfg p c).receivers ch k := by
  have hset : ∀ ch', (t.setReceiver ch' 0 (some p)).receivers ch k =
      (s.setReceiver ch' 0 (some p)).receivers ch k := by
    intro ch'
    by_cases hch : ch = ch'
    · subst hch
      by_cases hk : k = 0
      · simp [Kernel.setReceiver, hk]
      · simp [Kernel.setReceiver, hk, hr]
    · simp [Kernel.setReceiver, hch, hr]
  cases c with
  | receiver ch' g => exact hset ch'
  | server ch' g => exact hset ch'
  | _ => exact hr

/-- The schedule and the receivers after a capability operation are what the hook makes of them. -/
theorem CapStep.tables (h : CapStep cfg s op t) :
    t.schedule = (op.onTables cfg s).schedule ∧
      t.receivers = (op.onTables cfg s).receivers := by
  cases h with
  | @derive pid i j c par q hpid hj hsrc hdst hcan hpar hq =>
    simp only [CapOp.onTables, CapOp.assigned]
    refine ⟨assign_schedule_congr rfl rfl, ?_⟩
    funext ch k
    exact assign_receivers_congr (t := s.setCap (.slot pid i) par) rfl
  | transfer hpid hj hsrc =>
    simp only [CapOp.onTables, CapOp.assigned, held_of_live hsrc]
    exact ⟨rfl, rfl⟩
  | _ => exact ⟨rfl, rfl⟩

/-- What a step writes to the schedule and to the receiving ends. -/
theorem step_tables (hg : st.Good cfg) (hs : Step cfg st l st') :
    st'.kernel.schedule = ((stepOp cfg st l).onTables cfg st.kernel).schedule ∧
      ∀ ch, st'.kernel.receivers ch 0 =
        ((stepOp cfg st l).onTables cfg st.kernel).receivers ch 0 := by
  obtain ⟨s', t', h1, h2, h3⟩ := step_caps hg hs
  obtain ⟨hsched, hrec⟩ := h2.tables
  have hstart : ∀ {op : CapOp}, (op.onTables cfg s').schedule =
      (op.onTables cfg st.kernel).schedule ∧
        ∀ ch, (op.onTables cfg s').receivers ch 0 = (op.onTables cfg st.kernel).receivers ch 0 := by
    intro op
    simp only [CapOp.onTables, h1.held]
    cases op.assigned st.kernel.held with
    | none => exact ⟨h1.schedule, h1.receivers⟩
    | some pc =>
      exact ⟨assign_schedule_congr h1.schedule (h1.pids _),
        fun ch => assign_receivers_congr (h1.receivers ch)⟩
  refine ⟨?_, fun ch => ?_⟩
  · rw [h3.schedule, hsched, hstart.1]
  · rw [h3.receivers, hrec, hstart.2]

/-- The process the hook ran for holds the capability afterwards. -/
theorem CapOp.Enabled.onHeld_assigned (he : op.Enabled H) (h : op.assigned H = some (p, c)) :
    ∃ i, op.onHeld H (.slot p i) = c := by
  cases op with
  | derive pid i j c' =>
    obtain ⟨rfl, rfl⟩ := Prod.mk.inj (Option.some.inj h)
    exact ⟨j, Function.update_self _ _ _⟩
  | transfer srcPid i destPid j =>
    obtain ⟨rfl, rfl⟩ := Prod.mk.inj (Option.some.inj h)
    have hds : (.slot destPid j : NodeRef) ≠ .slot srcPid i := fun e => he.1 (e ▸ he.2)
    refine ⟨j, ?_⟩
    rw [CapOp.onHeld, CapOp.handed, Function.update_of_ne hds, Function.update_self]
  | _ => cases h

/-- What is assigned is a capability of some type. -/
theorem CapOp.Enabled.assigned_ne_other (he : op.Enabled H) (h : op.assigned H = some (p, c)) :
    c ≠ .other := by
  cases op with
  | derive pid i j c' =>
    obtain ⟨rfl, rfl⟩ := Prod.mk.inj (Option.some.inj h)
    intro ho
    have hcan := he.1
    rw [ho] at hcan
    generalize H (.slot pid i) = src at hcan
    cases hcan
  | transfer srcPid i destPid j =>
    obtain ⟨rfl, rfl⟩ := Prod.mk.inj (Option.some.inj h)
    exact he.1
  | _ => cases h

/-- It goes to a process there is, and no exhausted one gets past the assert. -/
theorem CapStep.assigned_lt (hs : CapStep cfg s op t) (h : op.assigned s.held = some (p, c)) :
    p < cfg.nProc ∧ ¬ c.Exhausted := by
  cases hs with
  | derive hpid hj hsrc hdst hcan =>
    obtain ⟨rfl, rfl⟩ := Prod.mk.inj (Option.some.inj h)
    exact ⟨hpid, hcan.not_exhausted⟩
  | transfer hpid hj hsrc hdst hex =>
    obtain ⟨rfl, rfl⟩ := Prod.mk.inj (Option.some.inj h)
    exact ⟨hpid, by rwa [held_of_live hsrc]⟩
  | _ => cases h

/-- So it is for a step of the system, after which the process holds it. -/
theorem step_assigned (hg : st.Good cfg) (hs : Step cfg st l st')
    (h : (stepOp cfg st l).assigned st.kernel.held = some (p, c)) :
    p < cfg.nProc ∧ c.Valid cfg ∧ ¬ c.Exhausted ∧ ∃ i, st'.kernel.held (.slot p i) = c := by
  obtain ⟨he, heq⟩ := step_held hg hs
  obtain ⟨s', t', h1, h2, -⟩ := step_caps hg hs
  obtain ⟨hp, hex⟩ := h2.assigned_lt (h1.held ▸ h)
  obtain ⟨i, hi⟩ := he.onHeld_assigned h
  rw [← heq] at hi
  have hne : st'.kernel.held (.slot p i) ≠ .other := hi ▸ he.assigned_ne_other h
  exact ⟨hp, hi ▸ held_valid (step_good hg hs).kernel hne, hex, i, hi⟩

/-! ## Tables that track a share -/

/-- The process whose table a node is in. -/
def NodeRef.proc : NodeRef → Nat
  | .slot p _ => p
  | .sentinel _ => 0

/-- A derivation gives up no more of the share than the child gets. -/
structure Share (sh : Capability → Set R) : Prop where
  other : sh .other = ∅
  derive : ∀ {p c : Capability} {r : R}, CanDerive p c → r ∉ sh c →
    (r ∈ sh (p.afterDerive c) ↔ r ∈ sh p)

namespace CapOp

/-- Between the tables stands what the hook writes. -/
def Writes (op : CapOp) (H : Holdings) (sh : Capability → Set R) (D : Set R)
    (T T' : R → Option Nat) : Prop :=
  match op.assigned H with
  | some (p, c) => Assigned D (sh c) p T T'
  | none => ∀ r ∈ D, T' r = T r

/-- What the table says of a resource it has said before, or the hook has just written it. -/
theorem Writes.cases {op : CapOp} {H : Holdings} {sh : Capability → Set R} {D : Set R}
    {T T' : R → Option Nat} {r : R} (hT : op.Writes H sh D T T') (hr : r ∈ D) :
    T' r = T r ∨ ∃ p c, op.assigned H = some (p, c) ∧ T' r = some p := by
  rw [Writes] at hT
  split at hT
  · next p c ho =>
    by_cases hc : r ∈ sh c
    · exact Or.inr ⟨p, c, ho, hT.inside r hr hc⟩
    · exact Or.inl (hT.outside r hr hc)
  · exact Or.inl (hT r hr)

/-- The operation deletes nothing of the share. -/
def Spares (H : Holdings) (sh : Capability → Set R) : CapOp → Prop
  | .delete pid i => sh (H (.slot pid i)) = ∅
  | _ => True

/-- Nothing changes for what is not handed over. -/
theorem mem_handed (hsh : Share sh) {src dst n : NodeRef} {r : R} (hd : H dst = .other)
    (hr : r ∉ sh (H src)) : r ∈ sh (handed H src dst n) ↔ r ∈ sh (H n) := by
  have hempty : r ∉ sh .other := by
    rw [hsh.other]
    exact Set.notMem_empty r
  by_cases hns : n = src
  · rw [hns, handed, Function.update_self]
    exact iff_of_false hempty hr
  by_cases hnd : n = dst
  · rw [hnd, handed, Function.update_of_ne (hnd ▸ hns), Function.update_self, hd]
    exact iff_of_false hr hempty
  · rw [handed_of_ne H n hns hnd]

/-- Who holds what the operation does not write held it before in the same process. -/
theorem Enabled.held_before {r : R} (he : op.Enabled H) (hsh : Share sh)
    (hr : ∀ p c, op.assigned H = some (p, c) → r ∉ sh c) (n : NodeRef)
    (hn : r ∈ sh (op.onHeld H n)) : ∃ m, NodeRef.proc m = NodeRef.proc n ∧ r ∈ sh (H m) := by
  have hempty : r ∉ sh .other := by
    rw [hsh.other]
    exact Set.notMem_empty r
  cases op with
  | skip => exact ⟨n, rfl, hn⟩
  | wipe => exact ⟨n, rfl, hn⟩
  | derive pid i j c =>
    refine ⟨n, rfl, ?_⟩
    rw [CapOp.onHeld] at hn
    by_cases hnd : n = .slot pid j
    · rw [hnd, Function.update_self] at hn
      exact absurd hn (hr pid c.view rfl)
    rw [Function.update_of_ne hnd] at hn
    by_cases hns : n = .slot pid i
    · rw [hns, Function.update_self] at hn
      rw [hns]
      exact (hsh.derive he.1 (hr pid c.view rfl)).mp hn
    · rwa [Function.update_of_ne hns] at hn
  | move pid i j =>
    have hne : CapOp.handed H (.slot pid i) (.slot pid j) n ≠ .other := fun ho => by
      rw [CapOp.onHeld, ho] at hn
      exact hempty hn
    rw [CapOp.onHeld, (handed_of_ne_other hne).2] at hn
    by_cases hnd : n = .slot pid j
    · rw [if_pos hnd] at hn
      exact ⟨.slot pid i, by rw [hnd]; rfl, hn⟩
    · rw [if_neg hnd] at hn
      exact ⟨n, rfl, hn⟩
  | transfer srcPid i destPid j =>
    exact ⟨n, rfl, (mem_handed hsh he.2 (hr _ _ rfl)).mp hn⟩
  | delete pid i =>
    rw [CapOp.onHeld] at hn
    rw [dropped_of_ne_other fun ho => hempty (by rwa [ho] at hn)] at hn
    exact ⟨n, rfl, hn⟩

/-- What the operation neither writes nor deletes is still held. -/
theorem Enabled.held_after {r : R} (he : op.Enabled H) (hsh : Share sh)
    (hr : ∀ p c, op.assigned H = some (p, c) → r ∉ sh c) (hspare : op.Spares H sh) (n : NodeRef)
    (hn : r ∈ sh (H n)) : ∃ m, r ∈ sh (op.onHeld H m) := by
  have hempty : r ∉ sh .other := by
    rw [hsh.other]
    exact Set.notMem_empty r
  cases op with
  | skip => exact ⟨n, hn⟩
  | wipe => exact ⟨n, hn⟩
  | derive pid i j c =>
    have hnd : n ≠ .slot pid j := fun e => hempty (by rwa [e, he.2] at hn)
    refine ⟨n, ?_⟩
    rw [CapOp.onHeld, Function.update_of_ne hnd]
    by_cases hns : n = .slot pid i
    · rw [hns] at hn
      rw [hns, Function.update_self]
      exact (hsh.derive he.1 (hr pid c.view rfl)).mpr hn
    · rwa [Function.update_of_ne hns]
  | move pid i j =>
    have hds : (.slot pid j : NodeRef) ≠ .slot pid i := fun e => he.1 (e ▸ he.2)
    by_cases hns : n = .slot pid i
    · refine ⟨.slot pid j, ?_⟩
      rwa [CapOp.onHeld, CapOp.handed, Function.update_of_ne hds, Function.update_self, ← hns]
    · have hnd : n ≠ .slot pid j := fun e => hempty (by rwa [e, he.2] at hn)
      exact ⟨n, by rwa [CapOp.onHeld, handed_of_ne H n hns hnd]⟩
  | transfer srcPid i destPid j =>
    exact ⟨n, (mem_handed hsh he.2 (hr _ _ rfl)).mpr hn⟩
  | delete pid i =>
    have hni : n ≠ .slot pid i := fun e => by
      rw [e, show sh (H (.slot pid i)) = ∅ from hspare] at hn
      exact Set.notMem_empty r hn
    exact ⟨n, by rwa [CapOp.onHeld, Function.update_of_ne hni]⟩

/-- Every operation keeps the holders' names in the table. -/
theorem Enabled.names (he : op.Enabled H) (hsh : Share sh)
    (hex : Excl fun n => sh (op.onHeld H n)) (hT : op.Writes H sh D T T')
    (h : Names D NodeRef.proc (fun n => sh (H n)) T) :
    Names D NodeRef.proc (fun n => sh (op.onHeld H n)) T' := by
  rw [CapOp.Writes] at hT
  split at hT
  · next p c ho =>
    obtain ⟨i, hi⟩ := he.onHeld_assigned ho
    refine Names.assign (i := .slot p i) h hT (fun r hr => hi.symm ▸ hr) hex fun r hr n hn => ?_
    refine he.held_before hsh (fun p' c' ho' => ?_) n hn
    rw [ho] at ho'
    rwa [← (Prod.mk.inj (Option.some.inj ho')).2]
  · next ho =>
    refine h.congr hT fun r n hn => he.held_before hsh (fun p c ho' => ?_) n hn
    rw [ho] at ho'
    cases ho'

/-- Every operation that deletes nothing of the share leaves no name behind. -/
theorem Enabled.covered (he : op.Enabled H) (hsh : Share sh) (hspare : op.Spares H sh)
    (hT : op.Writes H sh D T T') (h : Covered D (fun n => sh (H n)) T) :
    Covered D (fun n => sh (op.onHeld H n)) T' := by
  rw [CapOp.Writes] at hT
  split at hT
  · next p c ho =>
    obtain ⟨i, hi⟩ := he.onHeld_assigned ho
    refine Covered.assign (i := .slot p i) h hT (fun r hr => hi.symm ▸ hr) fun r hr n hn => ?_
    refine he.held_after hsh (fun p' c' ho' => ?_) hspare n hn
    rw [ho] at ho'
    rwa [← (Prod.mk.inj (Option.some.inj ho')).2]
  · next ho =>
    refine h.congr hT fun r n hn => he.held_after hsh (fun p c ho' => ?_) hspare n hn
    rw [ho] at ho'
    cases ho'

end CapOp

end SepKernel
