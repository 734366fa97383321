import SepKernel.Boot
import SepKernel.Hooks
import SepKernel.Sections

/-!
# `sched_update` on many harts

The updates of the schedule, one entry after the other, with other harts that update it at the same
time and delete the capability in question. Behind the lock they come to what the kernel's
`schedUpdate`, which is one step, does to the schedule in the order of the fetch-and-adds.
-/

namespace SepKernel

open Serial
open Transition (Reachable exec steps_getD_exec)

/-- `schedule`. -/
abbrev Table := Nat → Nat → BitVec 16

/-- The arguments of a call, which the asserts before the lock have let through. -/
structure UpdateCall (cfg : Config) where
  cn : NodeRef
  hartid : Word
  begin_ : Word
  end_ : Word
  pid : Word
  lt : begin_ < end_
  hartOk : cfg.minHartid ≤ hartid.toNat ∧ hartid.toNat ≤ cfg.maxHartid
  endOk : end_.toNat ≤ cfg.nQuantum
  pidOk : PidOk cfg pid

namespace UpdateCall

variable {cfg : Config} (c : UpdateCall cfg)

theorem toNat_lt : c.begin_.toNat < c.end_.toNat := c.lt

/-- What `sched_set` stores in the entry of the quantum. -/
def value (q : Nat) : BitVec 16 := packEntry c.pid (BitVec.ofNat 64 (c.end_.toNat - q))

/-- The schedule when the loop has come to quantum `i`. -/
def filled (t : Table) (i : Nat) : Table := fun q k =>
  if k = c.hartid.toNat - cfg.minHartid ∧ c.begin_.toNat ≤ q ∧ q < i then c.value q else t q k

end UpdateCall

/-- Where a hart is in the section. -/
inductive UpdateCtl where
  /-- At `cap_node_is_deleted`. -/
  | check
  | loop (i : Nat)
  /-- The node is deleted. -/
  | skip

/-- A hart's call of `sched_update`, and where it is in it. -/
structure UpdateVars (cfg : Config) where
  call : UpdateCall cfg
  ctl : UpdateCtl

variable {cfg : Config}

/-- The section of `sched_update`. The lock guards the schedule alone: for the rest, each access
    finds the kernel in whatever state the others have left it. -/
def schedUpdateSection (cfg : Config) : Section Table (UpdateCall cfg) (UpdateVars cfg) Kernel where
  begins c := ⟨c, .check⟩
  next g :=
    match g.ctl with
    | .check => some fun rest t => (⟨g.call,
        if (rest.nodes g.call.cn).prev = none then .skip else .loop g.call.begin_.toNat⟩, t)
    | .loop i =>
      if i < g.call.end_.toNat then
        some fun _ t => (⟨g.call, .loop (i + 1)⟩, Function.update t i (Function.update (t i)
          (g.call.hartid.toNat - cfg.minHartid) (g.call.value i)))
      else none
    | .skip => none

/-! ## One update -/

variable {c : UpdateCall cfg} {t t' : Table} {g : UpdateVars cfg} {i q k : Nat}

/-- Before the first round nothing has been filled in. -/
theorem filled_begin : c.filled t c.begin_.toNat = t := by
  funext q k
  rw [UpdateCall.filled, if_neg (by omega)]

/-- A round of the loop. -/
theorem filled_succ (hi : c.begin_.toNat ≤ i) : Function.update (c.filled t i) i
    (Function.update (c.filled t i i) (c.hartid.toNat - cfg.minHartid) (c.value i)) =
      c.filled t (i + 1) := by
  funext q k
  by_cases hq : q = i
  · subst hq
    rw [Function.update_self]
    by_cases hk : k = c.hartid.toNat - cfg.minHartid
    · rw [hk, Function.update_self, UpdateCall.filled, if_pos ⟨rfl, hi, Nat.lt_succ_self q⟩]
    · rw [Function.update_of_ne hk, UpdateCall.filled, UpdateCall.filled,
        if_neg fun h => hk h.1, if_neg fun h => hk h.1]
  · rw [Function.update_of_ne hq, UpdateCall.filled, UpdateCall.filled]
    refine if_congr ?_ rfl rfl
    omega

/-- How far the update has come, and whether the node was deleted when that was checked. -/
def Reached (c : UpdateCall cfg) (t : Table) (g : UpdateVars cfg) (t' : Table) : Prop :=
  g.call = c ∧ match g.ctl with
    | .check => t' = t
    | .loop i => (∃ s : Kernel, s.Live c.cn) ∧ c.begin_.toNat ≤ i ∧ i ≤ c.end_.toNat ∧ t' = c.filled t i
    | .skip => (∃ s : Kernel, ¬ s.Live c.cn) ∧ t' = t

/-- Wherever a hart is in the section, the entries before its index are filled in and the others are
    as before. -/
theorem reached_of_runs (h : (schedUpdateSection cfg).Runs c t g t') : Reached c t g t' := by
  refine h.invariant (I := Reached c t) (fun g t' f o hI hf => ?_) ⟨rfl, rfl⟩
  obtain ⟨call, ctl⟩ := g
  obtain ⟨rfl, hreached⟩ := hI
  cases ctl with
  | check =>
    obtain rfl := Option.some.inj hf
    obtain rfl : t' = t := hreached
    refine ⟨rfl, ?_⟩
    by_cases hdead : (o.nodes call.cn).prev = none
    · simp only [if_pos hdead]
      exact ⟨⟨o, fun hlive => hlive hdead⟩, trivial⟩
    · simp only [if_neg hdead]
      exact ⟨⟨o, hdead⟩, le_refl _, call.toNat_lt.le, filled_begin.symm⟩
  | loop i =>
    obtain ⟨hlive, hlo, -, rfl⟩ := hreached
    simp only [schedUpdateSection] at hf
    split at hf
    · next hlt =>
      obtain rfl := Option.some.inj hf
      exact ⟨rfl, hlive, by omega, hlt, filled_succ hlo⟩
    · cases hf
  | skip => cases hf

/-- The kernel's `schedUpdate`, which is one step, takes the schedule from `t` to `t'`. -/
def Updated (c : UpdateCall cfg) (t t' : Table) : Prop :=
  ∃ s s', s.schedule = t ∧
    (schedUpdate cfg c.cn c.hartid c.begin_ c.end_ c.pid).run s = .ok ((), s') ∧ s'.schedule = t'

/-- One update after the other. -/
inductive Updates (cfg : Config) (t : Table) : List (UpdateCall cfg) → Table → Prop where
  | nil : Updates cfg t [] t
  | snoc {cs : List (UpdateCall cfg)} {c : UpdateCall cfg} {t₁ t₂ : Table} (h : Updates cfg t cs t₁)
      (hc : Updated c t₁ t₂) : Updates cfg t (cs ++ [c]) t₂

theorem updated_of_live {s : Kernel} (hn : s.Live c.cn) (t : Table) :
    Updated c t (c.filled t c.end_.toNat) :=
  ⟨{ s with schedule := t }, _, rfl,
    schedUpdate_run c.lt c.hartOk.1 c.hartOk.2 c.endOk c.pidOk hn, rfl⟩

theorem updated_of_dead {s : Kernel} (hn : ¬ s.Live c.cn) (t : Table) : Updated c t t :=
  ⟨{ s with schedule := t }, _, rfl,
    schedUpdate_run_of_dead c.lt c.hartOk.1 c.hartOk.2 c.endOk c.pidOk hn, rfl⟩

/-- A whole section fills in the entries, or none if the capability is no longer live. -/
theorem updated_of_does (h : (schedUpdateSection cfg).Does c t g t') : Updated c t t' := by
  obtain ⟨hruns, hover⟩ := h
  obtain ⟨hcall, hreached⟩ := reached_of_runs hruns
  obtain ⟨call, ctl⟩ := g
  obtain rfl : call = c := hcall
  cases ctl with
  | check => cases hover
  | loop i =>
    obtain ⟨⟨s, hlive⟩, hlo, hhi, rfl⟩ := hreached
    simp only [schedUpdateSection] at hover
    split at hover
    · cases hover
    · next hge =>
      obtain rfl : i = call.end_.toNat := by omega
      exact updated_of_live hlive t
  | skip =>
    obtain ⟨⟨s, hdead⟩, rfl⟩ := hreached
    exact updated_of_dead hdead t'

/-- In the middle of an update each entry is as before it or as after it. -/
theorem entry_of_runs (h : (schedUpdateSection cfg).Runs c t g t') :
    ∃ t₁, Updated c t t₁ ∧ ∀ q k, t' q k = t q k ∨ t' q k = t₁ q k := by
  obtain ⟨hcall, hreached⟩ := reached_of_runs h
  obtain ⟨call, ctl⟩ := g
  obtain rfl : call = c := hcall
  cases ctl with
  | check =>
    obtain rfl : t' = t := hreached
    exact ⟨t', updated_of_dead (s := .zero) (fun hlive => hlive rfl) t', fun q k => Or.inl rfl⟩
  | loop i =>
    obtain ⟨⟨s, hlive⟩, hlo, hhi, rfl⟩ := hreached
    refine ⟨_, updated_of_live hlive t, fun q k => ?_⟩
    by_cases hq : k = call.hartid.toNat - cfg.minHartid ∧ call.begin_.toNat ≤ q ∧ q < i
    · refine Or.inr ?_
      rw [UpdateCall.filled, UpdateCall.filled, if_pos hq, if_pos ⟨hq.1, hq.2.1, by omega⟩]
    · exact Or.inl (if_neg hq)
  | skip =>
    obtain ⟨⟨s, hdead⟩, rfl⟩ := hreached
    exact ⟨t', updated_of_dead hdead t', fun q k => Or.inl rfl⟩

/-! ## On many harts -/

variable {ι : Type} [DecidableEq ι] [Fintype ι]

/-- Sections one after the other, on the schedule. -/
theorem updates_of_serial {done : List (UpdateCall cfg × UpdateVars cfg)}
    (h : (schedUpdateSection cfg).DoesAll t done t') : Updates cfg t (done.map Prod.fst) t' := by
  induction h with
  | nil => exact .nil
  | snoc h hj ih =>
    rw [List.map_append]
    exact ih.snoc (updated_of_does hj)

/-- In every run of fewer than 2^32 harts, the schedule is what `schedUpdate` in one step, call after
    call in the order of the fetch-and-adds, makes of it; while a hart is in the loop, each entry is
    as before its call or as after it. -/
theorem updates_serial (hcard : Fintype.card ι < 2 ^ 32)
    {s : Guarded ι Table (UpdateCall cfg) (UpdateVars cfg)}
    (hr : Reachable (Guarded.Start t) (Guarded.Step (schedUpdateSection cfg)) s) :
    s.done.map Prod.fst <+: s.lock.asked ∧ ∃ t₁, Updates cfg t (s.done.map fun x => x.2.1) t₁ ∧
      ((∀ h c g, s.stage h ≠ .inside c g) → s.data = t₁) ∧
      ∀ h c g, s.stage h = .inside c g → ∃ t₂, Updated c t₁ t₂ ∧
        ∀ q k, s.data q k = t₁ q k ∨ s.data q k = t₂ q k := by
  have hI := Guarded.serially hcard hr
  refine ⟨hI.asked hcard, ?_⟩
  have hcalls : ∀ t₁, (schedUpdateSection cfg).DoesAll t (s.done.map Prod.snd) t₁ →
      Updates cfg t (s.done.map fun x => x.2.1) t₁ := fun t₁ h => by
    have hupdates := updates_of_serial h
    rwa [List.map_map] at hupdates
  cases hI.progress with
  | free hnone hserial _ =>
    exact ⟨_, hcalls _ hserial, fun _ => rfl, fun h c g hs => absurd hs (hnone h c g)⟩
  | busy h c g t₁ hs hserial hruns _ =>
    refine ⟨t₁, hcalls _ hserial, fun hnone => absurd hs (hnone h c g), fun h' c' g' hs' => ?_⟩
    obtain rfl := hI.unique hcard hs hs'
    cases hs.symm.trans hs'
    exact entry_of_runs hruns

/-- The first hart of the platform is the process's from quantum `lo` to `hi`. -/
def virtUpdate (lo hi pid : Word) (h : lo < hi ∧ hi.toNat ≤ Config.virt.nQuantum ∧
    pid.toNat < Config.virt.nProc) : UpdateCall .virt where
  cn := .slot 0 0
  hartid := 1
  begin_ := lo
  end_ := hi
  pid := pid
  lt := h.1
  hartOk := by decide
  endOk := h.2.1
  pidOk := Or.inr h.2.2

/-- One slot is in the list. -/
def slotLive : Kernel := Kernel.zero.setPrev (.slot 0 0) (some (.sentinel .time))

/-- Two harts, an empty schedule and the lock free. -/
def idleTable : Guarded Bool Table (UpdateCall .virt) (UpdateVars .virt) :=
  ⟨initLock, fun _ _ => 0, fun _ => .idle, []⟩

/-- The second hart updates three quanta of which the first has updated two, and has come to the
    last. -/
def twoUpdates : List (Turn Bool (UpdateCall .virt) Kernel) :=
  .call false (virtUpdate 0 2 1 (by decide)) :: List.replicate 2 (.access false slotLive) ++
    .call true (virtUpdate 0 3 2 (by decide)) :: List.replicate 3 (.access true slotLive) ++
    List.replicate 6 (.access false slotLive) ++ List.replicate 4 (.access true slotLive)

/-- When the first hart has ended its update the second has made part of its own. -/
theorem updates_serial_twoUpdates :
    let s := (exec (Guarded.step (schedUpdateSection .virt)) twoUpdates idleTable).getD idleTable
    (s.data 0 0 = 0x0302 ∧ s.data 1 0 = 0x0202 ∧ s.data 2 0 = 0) ∧
      s.done.map Prod.fst = [false] ∧ s.done.map Prod.fst <+: s.lock.asked :=
  ⟨by decide +kernel, by decide +kernel, (updates_serial (by rw [Fintype.card_bool]; decide)
    ⟨idleTable, ⟨initLock_start, rfl, fun _ => rfl, rfl⟩,
      steps_getD_exec (fun _ _ _ h => h) _ _⟩).1⟩

end SepKernel
