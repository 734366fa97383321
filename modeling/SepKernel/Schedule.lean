import SepKernel.Tables

/-!
# The schedule

`schedule` is looked up by quantum and hart, and is to name the process whose time capability has
the quantum in its active range. It does as long as no time capability is deleted: `syscall_delete_cap`
calls the hook on a node that is gone by then, and the hook leaves a deleted node's quanta as they
are. Whether or not the names are right, the run an entry announces stays with one process.
-/

namespace SepKernel

open Capability (CanDerive)
open Exclusive (Excl)
open OwnerTable (Assigned Tracks Names Covered RunsWithin EndBy Filled)
open Transition (Reachable Steps)

variable {cfg : Config} {s t : Kernel} {st st' : System} {l : Label} {op : CapOp} {H : Holdings}
  {p h q : Nat} {c : Capability}

/-- What `sched_get` reads. -/
def Kernel.entryAt (cfg : Config) (s : Kernel) (q hart : Nat) : SchedEntry :=
  .unpack (s.schedule q (hart - cfg.minHartid))

/-- A quantum of the major frame on a hart of the platform. -/
def ScheduleIndex (cfg : Config) (h q : Nat) : Prop :=
  cfg.minHartid ≤ h ∧ h ≤ cfg.maxHartid ∧ q < cfg.nQuantum

/-! ## The share of time capabilities -/

/-- The hart and the quanta a time capability has left. -/
def Capability.quanta : Capability → Set (Nat × Nat)
  | .time h r => {x | x.1 = h ∧ r.free ≤ x.2 ∧ x.2 < r.stop}
  | _ => ∅

/-- The quanta of a capability are those that it owns. -/
theorem mem_quanta_iff : (h, q) ∈ c.quanta ↔ .quantum h q ∈ c.owned := by
  cases c with
  | time h' r =>
    constructor
    · rintro ⟨rfl, hq⟩
      exact ⟨q, hq, rfl⟩
    · rintro ⟨q', hq', he⟩
      cases he
      exact ⟨rfl, hq'⟩
  | _ => simp [Capability.quanta, Capability.owned]

/-- A derivation divides the quanta of a capability. -/
theorem share_quanta : Share Capability.quanta where
  other := rfl
  derive := by
    rintro p c ⟨h, q⟩ hcan hr
    cases hcan with
    | time hfirst hfree hlt hstop =>
      constructor
      · rintro ⟨rfl, hlo, hhi⟩
        exact ⟨rfl, by simp only [Span.carve] at hlo; omega, hhi⟩
      · rintro ⟨rfl, hlo, hhi⟩
        refine ⟨rfl, ?_, hhi⟩
        simp only [Capability.quanta, Set.mem_ofPred_eq, true_and, not_and, not_lt] at hr
        exact hr (by omega)
    | _ => exact Iff.rfl

/-- Where no resource has two owners no quantum has. -/
theorem excl_quanta (hex : Excl fun n => (H n).owned) : Excl fun n => (H n).quanta :=
  Exclusive.excl_of_eq fun _ _ _ hi hj => hex.eq (mem_quanta_iff.mp hi) (mem_quanta_iff.mp hj)

/-! ## Entries -/

theorem ofNat_toNat_of_lt {n : Nat} (h : n < 256) : (BitVec.ofNat 64 n).toNat = n := by
  rw [BitVec.toNat_ofNat, Nat.mod_eq_of_lt (by omega)]

theorem entryAt_congr (hs : t.schedule = s.schedule) : t.entryAt cfg q h = s.entryAt cfg q h := by
  rw [Kernel.entryAt, hs]
  rfl

/-- The hook writes the process and what is left of its range from the quantum on. -/
theorem entryAt_assign {h' : Nat} {r : Span} (hg : s.Good cfg) (hp : p < cfg.nProc)
    (hv : (Capability.time h' r).Valid cfg) (hlo : cfg.minHartid ≤ h) :
    (s.assign cfg p (.time h' r)).entryAt cfg q h =
      if h = h' ∧ r.free ≤ q ∧ q < r.stop then ⟨BitVec.ofNat 64 p, BitVec.ofNat 64 (r.stop - q)⟩
      else s.entryAt cfg q h := by
  obtain ⟨hwf, hmin, hmax, hstop⟩ := hv
  have hn := cfg.nQuantum_le
  have hcol : h - cfg.minHartid = h' - cfg.minHartid ↔ h = h' := by omega
  have hpid := (hg.pidOk hp).lt
  rw [hookPid, hg.pids p hp] at hpid
  simp only [Kernel.entryAt, Kernel.assign, Kernel.fillSchedule, hcol, hg.pids p hp]
  split
  · have hlen : (BitVec.ofNat 64 (r.stop - q)).toNat < 256 := by
      rw [ofNat_toNat_of_lt (by omega)]
      omega
    exact congrArg₂ SchedEntry.mk (unpack_packEntry_pid hpid) (unpack_packEntry_length hpid hlen)
  · rfl

/-- Where the capability has no quantum, the hook leaves the entry. -/
theorem entryAt_assign_of_not_mem (hg : s.Good cfg) (hp : p < cfg.nProc) (hv : c.Valid cfg)
    (hlo : cfg.minHartid ≤ h) (hq : (h, q) ∉ c.quanta) :
    (s.assign cfg p c).entryAt cfg q h = s.entryAt cfg q h := by
  cases c with
  | time h' r =>
    have hq' : ¬ (h = h' ∧ r.free ≤ q ∧ q < r.stop) := hq
    rw [entryAt_assign hg hp hv hlo, if_neg hq']
  | _ => rfl

/-- The process an entry names. -/
def Kernel.scheduledTo (cfg : Config) (s : Kernel) (x : Nat × Nat) : Option Nat :=
  if (s.entryAt cfg x.2 x.1).pid = invalidPid then none
  else some (s.entryAt cfg x.2 x.1).pid.toNat

/-- Whom an entry names. -/
theorem scheduledTo_eq_some (hne : p ≠ invalidPid.toNat) :
    s.scheduledTo cfg (h, q) = some p ↔ (s.entryAt cfg q h).pid.toNat = p := by
  rw [Kernel.scheduledTo]
  split
  · next he =>
    rw [he]
    exact iff_of_false (by simp) fun e => hne e.symm
  · exact Option.some_inj

/-- No process has the number that says nobody. -/
theorem pid_ne_invalid (hp : p < cfg.nProc) : p ≠ invalidPid.toNat := by
  have := cfg.nProc_le
  have : invalidPid.toNat = 255 := rfl
  omega

/-- What the hook writes, as a table of processes. -/
theorem scheduledTo_assign (hg : s.Good cfg) (hp : p < cfg.nProc) (hv : c.Valid cfg) :
    Assigned {x | ScheduleIndex cfg x.1 x.2} c.quanta p (s.scheduledTo cfg)
      ((s.assign cfg p c).scheduledTo cfg) := by
  constructor
  · rintro ⟨h, q⟩ hx hq
    rw [scheduledTo_eq_some (pid_ne_invalid hp)]
    cases c with
    | time h' r =>
      have hq' : h = h' ∧ r.free ≤ q ∧ q < r.stop := hq
      rw [entryAt_assign hg hp hv hx.1, if_pos hq']
      exact ofNat_toNat_of_lt (by have := cfg.nProc_le; omega)
    | _ => exact absurd hq (Set.notMem_empty _)
  · rintro ⟨h, q⟩ hx hq
    simp only [Kernel.scheduledTo, entryAt_assign_of_not_mem hg hp hv hx.1 hq]

theorem scheduledTo_congr (hs : t.schedule = s.schedule) :
    t.scheduledTo cfg = s.scheduledTo cfg := by
  funext x
  simp only [Kernel.scheduledTo, entryAt_congr hs]

/-- What a step writes to the schedule, for the share of time capabilities. -/
theorem step_writes_quanta (hg : st.Good cfg) (hs : Step cfg st l st') :
    (stepOp cfg st l).Writes st.kernel.held Capability.quanta {x | ScheduleIndex cfg x.1 x.2}
      (st.kernel.scheduledTo cfg) (st'.kernel.scheduledTo cfg) := by
  rw [scheduledTo_congr (step_tables hg hs).1, CapOp.Writes, CapOp.onTables]
  cases hop : (stepOp cfg st l).assigned st.kernel.held with
  | none =>
    intro x _
    rfl
  | some pc =>
    obtain ⟨p, c⟩ := pc
    obtain ⟨hp, hv, -, -⟩ := step_assigned hg hs hop
    exact scheduledTo_assign hg.kernel hp hv

/-! ## The state after boot -/

/-- After boot the root process holds the whole major frame of each hart. -/
theorem BootState.held_time {rootPayload : Word} (hb : BootState cfg rootPayload st)
    (hx : ScheduleIndex cfg h q) :
    st.kernel.held (.slot 0 (h - cfg.minHartid + 3)) = .time h ⟨0, 0, cfg.nQuantum⟩ := by
  obtain ⟨hlo, hhi, -⟩ := hx
  have hn : cfg.nHarts = cfg.maxHartid - cfg.minHartid + 1 := rfl
  rw [hb.held, if_pos ⟨rfl, by omega⟩]
  change Capability.time (cfg.minHartid + (h - cfg.minHartid)) _ = _
  rw [Nat.add_sub_cancel' hlo]

/-- And is in each entry of it, up to its end. -/
theorem BootState.entryAt {rootPayload : Word} (hb : BootState cfg rootPayload st)
    (hx : ScheduleIndex cfg h q) :
    st.kernel.entryAt cfg q h = ⟨0, BitVec.ofNat 64 (cfg.nQuantum - q)⟩ := by
  obtain ⟨hlo, hhi, hq⟩ := hx
  have hn : cfg.nHarts = cfg.maxHartid - cfg.minHartid + 1 := rfl
  rw [Kernel.entryAt, hb.schedule, if_pos ⟨hq, by omega⟩, unpack_bootEntry]

/-- At first the whole schedule is the root process's, and so is all the time. -/
theorem BootState.tracks {rootPayload : Word} (hb : BootState cfg rootPayload st) :
    Tracks {x | ScheduleIndex cfg x.1 x.2} NodeRef.proc (fun n => (st.kernel.held n).quanta)
      (st.kernel.scheduledTo cfg) := by
  rintro ⟨h, q⟩ hx p
  have hx : ScheduleIndex cfg h q := hx
  have hroot : (h, q) ∈ (st.kernel.held (.slot 0 (h - cfg.minHartid + 3))).quanta := by
    rw [hb.held_time hx]
    exact ⟨rfl, Nat.zero_le _, hx.2.2⟩
  have hname : st.kernel.scheduledTo cfg (h, q) = some 0 := by
    rw [scheduledTo_eq_some (pid_ne_invalid cfg.nProc_pos), hb.entryAt hx]
    rfl
  rw [hname, Option.some.injEq]
  constructor
  · rintro rfl
    exact ⟨_, rfl, hroot⟩
  · rintro ⟨n, rfl, hn⟩
    have hex := hb.root.exclusive.eq (mem_quanta_iff.mp hroot) (mem_quanta_iff.mp hn)
    rw [← hex]
    rfl

/-! ## The names -/

/-- An entry names a process just if the process holds the quantum. -/
def Kernel.ScheduleAgrees (cfg : Config) (s : Kernel) : Prop :=
  ∀ h q, ScheduleIndex cfg h q → ∀ p, p ≠ invalidPid.toNat →
    ((s.entryAt cfg q h).pid.toNat = p ↔
      ∃ i, s.Live (.slot p i) ∧ (s.caps (.slot p i)).Owns (.quantum h q))

/-- A process holds a quantum if one of its slots does. -/
theorem exists_owns_iff :
    (∃ i, s.Live (.slot p i) ∧ (s.caps (.slot p i)).Owns (.quantum h q)) ↔
      ∃ n, NodeRef.proc n = p ∧ (h, q) ∈ (s.held n).quanta := by
  have hne : ∀ {n}, (h, q) ∈ (s.held n).quanta → s.held n ≠ .other := fun {n} hn he => by
    rw [he] at hn
    exact Set.notMem_empty _ hn
  constructor
  · rintro ⟨i, hl, ho⟩
    exact ⟨.slot p i, rfl, by rwa [held_of_live hl, mem_quanta_iff, ← Cap.owns_iff]⟩
  · rintro ⟨n, rfl, hn⟩
    obtain ⟨p, i, rfl, hl, he⟩ := live_of_held (hne hn)
    refine ⟨i, hl, Cap.owns_iff.mpr ?_⟩
    rwa [mem_quanta_iff, he] at hn

/-- The schedule as a table of owners. -/
theorem scheduleAgrees_of_tracks (h : Tracks {x | ScheduleIndex cfg x.1 x.2} NodeRef.proc
    (fun n => (s.held n).quanta) (s.scheduledTo cfg)) : s.ScheduleAgrees cfg := by
  intro hart q hx p hp
  rw [← scheduledTo_eq_some hp, exists_owns_iff]
  exact h (hart, q) hx p

/-- The step deletes no time capability. -/
def KeepsTime (cfg : Config) (s : System) (l : Label) : Prop :=
  ∀ pid i, stepOp cfg s l = .delete pid i → capIsType (s.kernel.caps (.slot pid i)) .time = false

/-- A step that deletes no time capability spares the quanta of them all. -/
theorem spares_quanta (hop : KeepsTime cfg st l) :
    (stepOp cfg st l).Spares st.kernel.held Capability.quanta := by
  unfold KeepsTime at hop
  generalize stepOp cfg st l = op at hop
  cases op with
  | delete pid i =>
    refine Set.eq_empty_iff_forall_notMem.mpr fun x hx => ?_
    have hne : st.kernel.held (.slot pid i) ≠ .other := fun he => by
      rw [he] at hx
      exact Set.notMem_empty _ hx
    obtain ⟨pid', i', hslot, -, he⟩ := live_of_held hne
    obtain ⟨rfl, rfl⟩ := NodeRef.slot.inj hslot
    rw [he] at hx
    cases hv : (st.kernel.caps (.slot pid i)).view with
    | time h r =>
      have ht : capIsType (st.kernel.caps (.slot pid i)) .time = true :=
        Cap.isType_of_view (by rw [hv]; rfl)
      rw [hop pid i rfl] at ht
      cases ht
    | _ =>
      rw [hv] at hx
      exact Set.notMem_empty _ hx
  | _ => trivial

/-- As long as no time capability is deleted, the table keeps track of the owners. -/
theorem scheduleAgrees_of_reachable
    (h : Reachable (Booted cfg) (Transition.restrict (Step cfg) (KeepsTime cfg)) st) :
    st.kernel.ScheduleAgrees cfg := by
  refine scheduleAgrees_of_tracks (h.invariant (I := fun s => s.Good cfg ∧
    Excl (fun n => (s.kernel.held n).owned) ∧ Tracks {x | ScheduleIndex cfg x.1 x.2} NodeRef.proc
      (fun n => (s.kernel.held n).quanta) (s.kernel.scheduledTo cfg))
    (fun s hs => ?_) fun s l s' hI hl => ?_).2.2
  · obtain ⟨rootPayload, hb⟩ := hs.state
    exact ⟨hs.root.good, hs.root.exclusive, hb.tracks⟩
  · obtain ⟨hg, hex, htr⟩ := hI
    obtain ⟨he, heq⟩ := step_held hg hl.1
    rw [heq]
    obtain ⟨hn, hc⟩ := OwnerTable.tracks_iff.mp htr
    have hw := step_writes_quanta hg hl.1
    exact ⟨step_good hg hl.1, he.excl hex, OwnerTable.tracks_iff.mpr
      ⟨he.names share_quanta (excl_quanta (he.excl hex)) hw hn,
        he.covered share_quanta (spares_quanta hl.2) hw hc⟩⟩

/-- An entry always names somebody. -/
theorem entry_named (hr : Reachable (Booted cfg) (Step cfg) st) (hx : ScheduleIndex cfg h q) :
    ∃ p, st.kernel.scheduledTo cfg (h, q) = some p := by
  refine (hr.invariant (I := fun s => s.Good cfg ∧ ∃ p, s.kernel.scheduledTo cfg (h, q) = some p)
    (fun s hs => ?_) fun s l s' hI hl => ⟨step_good hI.1 hl, ?_⟩).2
  · obtain ⟨rootPayload, hb⟩ := hs.state
    refine ⟨hs.root.good, 0, ?_⟩
    rw [scheduledTo_eq_some (pid_ne_invalid cfg.nProc_pos), hb.entryAt hx]
    rfl
  · rcases (step_writes_quanta hI.1 hl).cases (r := (h, q)) hx with hsame | ⟨p, -, -, hp⟩
    · rw [hsame]
      exact hI.2
    · exact ⟨p, hp⟩

/-- A quantum nobody holds is nobody's in any later state either. -/
theorem not_scheduleAgrees (hr : Reachable (Booted cfg) (Step cfg) st)
    (hx : ScheduleIndex cfg h q) (hlost : ∀ n, (h, q) ∉ (st.kernel.held n).quanta)
    (hs : Steps (Step cfg) st st') : ¬ st'.kernel.ScheduleAgrees cfg := by
  intro ha
  have hr' := hr.steps hs
  have hg : st.Good cfg := good_of_reachable (fun _ => Booted.root) hr
  obtain ⟨p, hp⟩ := entry_named hr' hx
  have hne : p ≠ invalidPid.toNat := by
    rintro rfl
    rw [Kernel.scheduledTo] at hp
    split at hp
    · cases hp
    · next he => exact he (BitVec.eq_of_toNat_eq (Option.some.inj hp))
  obtain ⟨n, -, hn⟩ := exists_owns_iff.mp ((ha h q hx p hne).mp ((scheduledTo_eq_some hne).mp hp))
  obtain ⟨m, hm, -⟩ := drawnFrom_of_steps hg hs n _ (mem_quanta_iff.mp hn)
  exact hlost m (mem_quanta_iff.mpr hm)

/-- The first quantum of a time capability is lost when it is deleted. -/
theorem lost_of_not_keepsTime (hg : st.Good cfg) (hex : Excl fun n => (st.kernel.held n).owned)
    (hs : Step cfg st l st') (hop : ¬ KeepsTime cfg st l) :
    ∃ h q, ScheduleIndex cfg h q ∧ ∀ n, (h, q) ∉ (st'.kernel.held n).quanta := by
  obtain ⟨-, heq⟩ := step_held hg hs
  obtain ⟨s', t', h1, h2, -⟩ := step_caps hg hs
  simp only [KeepsTime, not_forall, Bool.not_eq_false] at hop
  obtain ⟨pid, i, hdel, ht⟩ := hop
  rw [hdel] at heq h2
  cases h2 with
  | delete hsrc hexh =>
    have hl : st.kernel.Live (.slot pid i) := h1.live.mp hsrc
    rw [h1.caps] at hexh
    have hv := Cap.view_eq ht
    have hheld := held_of_live hl
    obtain ⟨⟨-, hle, -⟩, hmin, hmax, hstop⟩ := hv ▸ hg.kernel.valid _ _ hl
    have hne : (capTimeGetFree (st.kernel.caps (.slot pid i))).toNat ≠
        (capTimeGetEnd (st.kernel.caps (.slot pid i))).toNat := fun he => by
      rw [hv] at hexh
      exact hexh he
    have hlt := lt_of_le_of_ne hle hne
    refine ⟨_, _, ⟨hmin, hmax, hlt.trans_le hstop⟩, fun n hn => ?_⟩
    rw [heq, CapOp.onHeld] at hn
    by_cases hni : n = .slot pid i
    · rw [hni, Function.update_self] at hn
      exact Set.notMem_empty _ hn
    · -- who else had it would have had it at the same time
      rw [Function.update_of_ne hni] at hn
      refine hni (hex.eq (mem_quanta_iff.mp hn) (mem_quanta_iff.mp ?_))
      rw [hheld, hv]
      exact ⟨rfl, le_rfl, hlt⟩

/-- The schedule agrees with the time capabilities in every state of a run as long as none of them
    is deleted, and never again in the run once one has been. -/
theorem schedule_agrees_unless_deleted (cfg : Config) :
    (∀ s, Reachable (Booted cfg) (Transition.restrict (Step cfg) (KeepsTime cfg)) s →
      s.kernel.ScheduleAgrees cfg) ∧
    ∀ s l s' t, Reachable (Booted cfg) (Step cfg) s → Step cfg s l s' → ¬ KeepsTime cfg s l →
      Steps (Step cfg) s' t → ¬ t.kernel.ScheduleAgrees cfg := by
  refine ⟨fun s => scheduleAgrees_of_reachable, fun s l s' t hr hs hop ht => ?_⟩
  have hroot : Reachable (RootState cfg) (Step cfg) s := hr.imp fun _ h => ⟨h.1.root, h.2⟩
  have hg : s.Good cfg := good_of_reachable (fun _ => id) hroot
  obtain ⟨h, q, hx, hlost⟩ := lost_of_not_keepsTime hg (excl_of_reachable hroot) hs hop
  exact not_scheduleAgrees (hr.step hs) hx hlost ht

/-- The root process deletes its time on hart 1. -/
def virtDeletesTime : List Label := [.schedule 1 0, .ecall 1 (callRegs 3 3 0 0 0 0 0)]

/-- The root process goes on being scheduled on hart 1, with no capability for any time of it. -/
theorem deleted_time_scheduled :
    ∃ s, Reachable (Booted .virt) (Step .virt) s ∧ ¬ s.kernel.ScheduleAgrees .virt := by
  refine ⟨virtAfter virtDeletesTime, virtAfter_reachable _, fun h => ?_⟩
  obtain ⟨i, hl, ho⟩ := (h 1 0 ⟨by decide, by decide, by decide⟩ 0 (by decide)).mp
    (by decide +kernel)
  have hg := good_of_reachable (fun _ => Booted.root) (virtAfter_reachable virtDeletesTime)
  have hnone : ∀ i < 64, ¬ ((virtAfter virtDeletesTime).kernel.Live (.slot 0 i) ∧
      ((virtAfter virtDeletesTime).kernel.caps (.slot 0 i)).Owns (.quantum 1 0)) := by
    decide +kernel
  exact hnone i (hg.kernel.bounds 0 i hl).2 ⟨hl, ho⟩

/-! ## The runs -/

/-- The column of a hart: whom the entries name, and for how long. -/
def Kernel.ownerAt (cfg : Config) (s : Kernel) (h : Nat) (q : Nat) : Word := (s.entryAt cfg q h).pid

/-- The quanta that the entry gives its process from here. -/
def Kernel.lengthAt (cfg : Config) (s : Kernel) (h : Nat) (q : Nat) : Nat :=
  (s.entryAt cfg q h).length.toNat

/-- Runs are whole, and where somebody's time starts another's has ended. -/
structure RunsSeparate (cfg : Config) (s : Kernel) (H : Holdings) : Prop where
  runs : ∀ h, cfg.minHartid ≤ h → h ≤ cfg.maxHartid →
    RunsWithin cfg.nQuantum (s.ownerAt cfg h) (s.lengthAt cfg h)
  ends : ∀ n h r, H n = .time h r → r.free < r.stop → EndBy (s.lengthAt cfg h) r.free

/-- Where the time that is held after an operation starts: where some time started before, or at
    the end of what the hook writes from such a place on. -/
theorem CapOp.Enabled.time_start {r : Span} {n : NodeRef} (he : op.Enabled H)
    (hn : op.onHeld H n = .time h r) (hlt : r.free < r.stop) :
    ∃ m r₀, H m = .time h r₀ ∧ r₀.free < r₀.stop ∧ (r₀.free = r.free ∨
      ∃ p r₁, op.assigned H = some (p, .time h r₁) ∧ r₁.free = r₀.free ∧ r₁.stop = r.free ∧
        r₁.free < r₁.stop) := by
  have hhanded : ∀ src dst, CapOp.handed H src dst n = .time h r →
      ∃ m r₀, H m = .time h r₀ ∧ r₀.free < r₀.stop ∧ r₀.free = r.free := by
    intro src dst hn
    rw [(handed_of_ne_other (n := n) (by rw [hn]; simp)).2] at hn
    exact ⟨_, r, hn, hlt, rfl⟩
  cases op with
  | skip => exact ⟨n, r, hn, hlt, Or.inl rfl⟩
  | wipe => exact ⟨n, r, hn, hlt, Or.inl rfl⟩
  | move pid i j =>
    obtain ⟨m, r₀, hm, hlt₀, hfree⟩ := hhanded _ _ hn
    exact ⟨m, r₀, hm, hlt₀, Or.inl hfree⟩
  | transfer srcPid i destPid j =>
    obtain ⟨m, r₀, hm, hlt₀, hfree⟩ := hhanded _ _ hn
    exact ⟨m, r₀, hm, hlt₀, Or.inl hfree⟩
  | delete pid i =>
    rw [CapOp.onHeld] at hn
    rw [dropped_of_ne_other (by rw [hn]; simp)] at hn
    exact ⟨n, r, hn, hlt, Or.inl rfl⟩
  | derive pid i j c =>
    obtain ⟨hcan, hd⟩ := he
    rw [CapOp.onHeld] at hn
    by_cases hnd : n = .slot pid j
    · -- the child starts where its parent did
      rw [hnd, Function.update_self] at hn
      rw [hn] at hcan
      generalize hsrc : H (.slot pid i) = src at hcan
      cases hcan with
      | time hfirst hfree hlt' hstop => exact ⟨_, _, hsrc, by omega, Or.inl (by omega)⟩
    rw [Function.update_of_ne hnd] at hn
    by_cases hns : n = .slot pid i
    · -- the parent goes on where its child ends
      rw [hns, Function.update_self] at hn
      generalize hsrc : H (.slot pid i) = src at hcan hn
      generalize hc : c.view = child at hcan hn
      cases hcan with
      | @time h' r₀ r₁ hfirst hfree hlt' hstop =>
        cases hn
        refine ⟨_, _, hsrc, by omega, Or.inr ⟨pid, r₁, ?_, by omega, rfl, by omega⟩⟩
        rw [CapOp.assigned, hc]
      | _ => cases hn
    · rw [Function.update_of_ne hns] at hn
      exact ⟨n, r, hn, hlt, Or.inl rfl⟩

/-- The hook writes from a place on where some time starts. -/
theorem CapOp.Enabled.assigned_start {r : Span} (he : op.Enabled H)
    (ho : op.assigned H = some (p, .time h r)) (hlt : r.free < r.stop) :
    ∃ m r₀, H m = .time h r₀ ∧ r₀.free = r.free ∧ r₀.free < r₀.stop := by
  cases op with
  | derive pid i j c =>
    have hcan := he.1
    rw [(Prod.mk.inj (Option.some.inj ho)).2] at hcan
    generalize hsrc : H (.slot pid i) = src at hcan
    cases hcan with
    | time hfirst hfree hlt' hstop => exact ⟨_, _, hsrc, by omega, by omega⟩
  | transfer srcPid i destPid j => exact ⟨_, r, (Prod.mk.inj (Option.some.inj ho)).2, rfl, hlt⟩
  | _ => cases ho

/-- What a step does to the column of a hart. -/
theorem step_column (hg : st.Good cfg) (hs : Step cfg st l st') (hlo : cfg.minHartid ≤ h) :
    (∃ p r, (stepOp cfg st l).assigned st.kernel.held = some (p, .time h r) ∧
      r.free < r.stop ∧ r.stop ≤ cfg.nQuantum ∧
      Filled r.free r.stop (BitVec.ofNat 64 p) (st.kernel.ownerAt cfg h) (st'.kernel.ownerAt cfg h)
        (st.kernel.lengthAt cfg h) (st'.kernel.lengthAt cfg h)) ∨
    ((∀ p r, (stepOp cfg st l).assigned st.kernel.held ≠ some (p, .time h r)) ∧
      st'.kernel.ownerAt cfg h = st.kernel.ownerAt cfg h ∧
      st'.kernel.lengthAt cfg h = st.kernel.lengthAt cfg h) := by
  have hentry : ∀ q, st'.kernel.entryAt cfg q h =
      ((stepOp cfg st l).onTables cfg st.kernel).entryAt cfg q h := fun q =>
    entryAt_congr (step_tables hg hs).1
  have hsame : (∀ q, st'.kernel.entryAt cfg q h = st.kernel.entryAt cfg q h) →
      st'.kernel.ownerAt cfg h = st.kernel.ownerAt cfg h ∧
        st'.kernel.lengthAt cfg h = st.kernel.lengthAt cfg h := fun hq =>
    ⟨funext fun q => by simp only [Kernel.ownerAt, hq],
      funext fun q => by simp only [Kernel.lengthAt, hq]⟩
  cases hop : (stepOp cfg st l).assigned st.kernel.held with
  | none => exact Or.inr ⟨by simp, hsame fun q => by rw [hentry, CapOp.onTables, hop]⟩
  | some pc =>
    obtain ⟨p, c⟩ := pc
    obtain ⟨hp, hv, hex, -⟩ := step_assigned hg hs hop
    have hassign : ∀ q, st'.kernel.entryAt cfg q h =
        (st.kernel.assign cfg p c).entryAt cfg q h := fun q => by
      rw [hentry, CapOp.onTables, hop]
    by_cases hc : ∃ r, c = .time h r
    · obtain ⟨r, rfl⟩ := hc
      have hlt : r.free < r.stop := lt_of_le_of_ne hv.1.2.1 hex
      have hstop : r.stop ≤ cfg.nQuantum := hv.2.2.2
      have hn := cfg.nQuantum_le
      have hin : ∀ q, r.free ≤ q → q < r.stop → st'.kernel.entryAt cfg q h =
          ⟨BitVec.ofNat 64 p, BitVec.ofNat 64 (r.stop - q)⟩ := fun q h1 h2 => by
        rw [hassign, entryAt_assign hg.kernel hp hv hlo, if_pos ⟨rfl, h1, h2⟩]
      have hout : ∀ q, ¬ (r.free ≤ q ∧ q < r.stop) →
          st'.kernel.entryAt cfg q h = st.kernel.entryAt cfg q h := fun q hq => by
        rw [hassign, entryAt_assign hg.kernel hp hv hlo, if_neg fun h => hq h.2]
      refine Or.inl ⟨p, r, rfl, hlt, hstop, fun q h1 h2 => ?_, fun q h1 h2 => ?_, fun q hq => ?_,
        fun q hq => ?_⟩
      · rw [Kernel.ownerAt, hin q h1 h2]
      · rw [Kernel.lengthAt, hin q h1 h2]
        exact ofNat_toNat_of_lt (by omega)
      · rw [Kernel.ownerAt, hout q hq, Kernel.ownerAt]
      · rw [Kernel.lengthAt, hout q hq, Kernel.lengthAt]
    · -- time on another hart, or no time at all
      have hq : ∀ q, (h, q) ∉ c.quanta := by
        intro q hq
        cases c with
        | time h' r =>
          obtain ⟨rfl, -⟩ := hq
          exact hc ⟨r, rfl⟩
        | _ => exact Set.notMem_empty _ hq
      exact Or.inr ⟨fun p' r he => hc ⟨r, (Prod.mk.inj (Option.some.inj he)).2⟩, hsame fun q => by
        rw [hassign, entryAt_assign_of_not_mem hg.kernel hp hv hlo (hq q)]⟩

/-- What the entries announce stays within what one process has, over a step. -/
theorem RunsSeparate.step (hr : RunsSeparate cfg st.kernel st.kernel.held) (hg : st.Good cfg)
    (hex : Excl fun n => (st'.kernel.held n).owned) (hs : Step cfg st l st') :
    RunsSeparate cfg st'.kernel st'.kernel.held := by
  obtain ⟨he, heq⟩ := step_held hg hs
  have hg' := step_good hg hs
  constructor
  · intro h hlo hhi
    rcases step_column hg hs hlo with ⟨p, r, ho, hlt, hstop, hfill⟩ | ⟨-, howner, hlen⟩
    · obtain ⟨m, r₀, hm, hfree, hlt₀⟩ := he.assigned_start ho hlt
      exact (hr.runs h hlo hhi).fill hfill (hfree ▸ hr.ends m h r₀ hm hlt₀) hstop
    · rw [howner, hlen]
      exact hr.runs h hlo hhi
  · intro n h r hn hlt
    have hlo : cfg.minHartid ≤ h := by
      have hv := held_valid hg'.kernel (n := n) (by rw [hn]; simp)
      rw [hn] at hv
      exact hv.2.1
    obtain ⟨m, r₀, hm, hlt₀, hstart⟩ := he.time_start (heq ▸ hn) hlt
    have hend := hr.ends m h r₀ hm hlt₀
    rcases step_column hg hs hlo with ⟨p, r₁, ho, hlt₁, hstop, hfill⟩ | ⟨hno, -, hlen⟩
    · rcases hstart with hfree | ⟨p', r₁', ho', hfree, hstop', hlt'⟩
      · refine (hfree ▸ hend).fill hfill ?_
        obtain ⟨-, -, -, i, hi⟩ := step_assigned hg hs ho
        by_cases hni : n = .slot p i
        · rw [hni, hi] at hn
          cases hn
          exact Or.inr le_rfl
        · -- the two ranges have nothing in common
          by_contra hin
          rw [not_or, not_le, not_le] at hin
          refine hni (hex.eq (mem_quanta_iff.mp ?_) (mem_quanta_iff.mp ?_) (r := .quantum h r.free))
          · rw [hn]
            exact ⟨rfl, le_rfl, hlt⟩
          · rw [hi]
            exact ⟨rfl, hin.2.le, hin.1⟩
      · rw [ho] at ho'
        obtain ⟨-, hr₁⟩ := Prod.mk.inj (Option.some.inj ho')
        cases hr₁
        rw [← hstop']
        exact (hfree ▸ hend).fill_end hfill hlt₁.le
    · rw [hlen]
      rcases hstart with hfree | ⟨p', r₁', ho', -⟩
      · exact hfree ▸ hend
      · exact absurd ho' (hno _ _)

/-- After boot that is everything. -/
theorem BootState.runsSeparate {rootPayload : Word} (hb : BootState cfg rootPayload st) :
    RunsSeparate cfg st.kernel st.kernel.held := by
  constructor
  · intro h hlo hhi q hq
    have hn := cfg.nQuantum_le
    simp only [Kernel.ownerAt, Kernel.lengthAt, hb.entryAt ⟨hlo, hhi, hq⟩]
    rw [ofNat_toNat_of_lt (by omega)]
    refine ⟨by omega, by omega, fun k hk => ?_⟩
    rw [hb.entryAt ⟨hlo, hhi, by omega⟩]
  · intro n h r hn hlt q hq
    -- all time starts at the first quantum
    obtain ⟨p, i, rfl, -, -⟩ := live_of_held (n := n) (by rw [hn]; simp)
    rw [hb.held] at hn
    split at hn
    · match i with
      | 0 | 1 | 2 => cases hn
      | i + 3 =>
        cases hn
        exact absurd hq (Nat.not_lt_zero q)
    · cases hn

/-- In every state of every run, an entry announces a run of quanta within the major frame that are
    all one process's. -/
theorem runs_within_owner {p : Word} {len : Word} (hr : Reachable (Booted cfg) (Step cfg) st)
    (hx : ScheduleIndex cfg h q) (he : st.kernel.entryAt cfg q h = ⟨p, len⟩) :
    1 ≤ len.toNat ∧ q + len.toNat ≤ cfg.nQuantum ∧
      ∀ k < len.toNat, (st.kernel.entryAt cfg (q + k) h).pid = p := by
  have hruns : RunsSeparate cfg st.kernel st.kernel.held := by
    refine (hr.invariant (I := fun s => s.Good cfg ∧ Excl (fun n => (s.kernel.held n).owned) ∧
      RunsSeparate cfg s.kernel s.kernel.held) (fun s hs => ?_) fun s l s' hI hl => ?_).2.2
    · obtain ⟨rootPayload, hb⟩ := hs.state
      exact ⟨hs.root.good, hs.root.exclusive, hb.runsSeparate⟩
    · obtain ⟨hg, hex, hrs⟩ := hI
      obtain ⟨hen, heq⟩ := step_held hg hl
      have hex' : Excl fun n => (s'.kernel.held n).owned := heq ▸ hen.excl hex
      exact ⟨step_good hg hl, hex', hrs.step hg hex' hl⟩
  have := hruns.runs h hx.1 hx.2.1 q hx.2.2
  simpa only [Kernel.ownerAt, Kernel.lengthAt, he] using this

/-- After the root process has split its time on hart 1, the run of quantum 0 ends at 10. -/
theorem runs_within_owner_virtDerivesTime :
    ((virtAfter virtDerivesTime).kernel.entryAt .virt 9 1).pid = 0 := by
  have he : (virtAfter virtDerivesTime).kernel.entryAt .virt 0 1 = ⟨0, 10⟩ := by decide +kernel
  have h := (runs_within_owner (virtAfter_reachable virtDerivesTime)
    ⟨by decide, by decide, by decide⟩ he).2.2
  exact h 9 (by decide)

end SepKernel
