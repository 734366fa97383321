import SepKernel.Boot
import SepKernel.Holdings
import SepKernel.Lib.Transition

/-!
# Where runs start

A root state has live slots that hold what the constructors of `inc/gen/cap.h` make, with active
ranges that do not overlap, and no process on any hart. The state `init.S` starts the processes
in is one; the claims about derivation hold from any other as well.
-/

namespace SepKernel

open Capability (page_injective)
open Transition (Reachable Steps)

variable {cfg : Config} {s t : Kernel} {st st' : System} {p i : Nat}

/-- What the invariant of all runs starts from. -/
structure RootState (cfg : Config) (s : System) : Prop where
  lists : ∃ rings, s.kernel.Lists rings
  bounds : ∀ p i, s.kernel.Live (.slot p i) → p < cfg.nProc ∧ i < cfg.nCaps
  constructed : ∀ p i, s.kernel.Live (.slot p i) → Constructed cfg (s.kernel.caps (.slot p i))
  clear : ∀ p i, ¬ s.kernel.Live (.slot p i) → s.kernel.caps (.slot p i) = nullCap
  sentinels : ∀ k, s.kernel.caps (.sentinel k) = nullCap
  exclusive : Exclusive.Excl fun n => (s.kernel.held n).owned
  pids : ∀ p, p < cfg.nProc → (s.kernel.procs p).pid = BitVec.ofNat 64 p
  states : ∀ p, p < cfg.nProc →
    (s.kernel.procs p).state = procStateReady ∨ (s.kernel.procs p).state = procStateSuspended
  receivers : ∀ ch k p, s.kernel.receivers ch k = some p → p < cfg.nProc
  entries : EntriesOk cfg s.kernel
  halted : ∀ h, s.current h = none
  history : s.kernel.history = []

/-- Root capabilities that refer to nothing in common, owned or not. -/
def DisjointRoots (cfg : Config) (s : System) : Prop :=
  RootState cfg s ∧ Exclusive.Excl fun n => (s.kernel.held n).footprint

theorem RootState.good (h : RootState cfg st) : st.Good cfg where
  kernel :=
    { lists := h.lists
      bounds := h.bounds
      valid := fun p i hl => (h.constructed p i hl).valid.1
      known := fun p i => by
        by_cases hl : st.kernel.Live (.slot p i)
        · exact Or.inr (h.constructed p i hl).valid.1
        · rw [h.clear p i hl, nullCap_view]
          exact Or.inl rfl
      pids := h.pids
      receivers := h.receivers
      entries := h.entries }
  current hart p hp := by
    rw [h.halted] at hp
    cases hp
  unique hart hart' p hp := by
    rw [h.halted] at hp
    cases hp
  idle p hp _ := (h.states p hp).imp id Or.inl

/-- The machine's invariant holds in every state reached. -/
theorem good_of_reachable {init : System → Prop} (hinit : ∀ s, init s → RootState cfg s)
    (h : Reachable init (Step cfg) st) : st.Good cfg :=
  h.invariant (fun s hs => (hinit s hs).good) fun _ _ _ => step_good

theorem owned_subset_footprint
    (hwf : ∀ p i, s.Live (.slot p i) → (s.caps (.slot p i)).view.WF) (n : NodeRef) :
    (s.held n).owned ⊆ (s.held n).footprint := by
  by_cases hn : s.held n = .other
  · rw [hn]
    exact Set.empty_subset _
  · obtain ⟨p, i, rfl, hl, he⟩ := live_of_held hn
    rw [he]
    exact Capability.owned_subset_footprint (hwf p i hl)

/-- What refers to nothing in common owns nothing in common. -/
theorem excl_owned (h : Exclusive.Excl fun n => (s.held n).footprint)
    (hwf : ∀ p i, s.Live (.slot p i) → (s.caps (.slot p i)).view.WF) :
    Exclusive.Excl fun n => (s.held n).owned :=
  h.shrink (owned_subset_footprint hwf)

/-! ## The first lists -/

namespace Kernel

/-- What `make_sentinel` does. -/
def addSentinel (s : Kernel) (k : Sentinel) : Kernel :=
  s.setNode (.sentinel k) ⟨some (.sentinel k), some (.sentinel k), nullCap⟩

/-- A new list, with one capability of the root process in it. -/
def addRoot (s : Kernel) (k : Sentinel) (cn : Nat) (cap : Cap) : Kernel :=
  (s.addSentinel k).spliceIn cap (.slot 0 cn) (.sentinel k) (.sentinel k)

@[simp] theorem prevs_addSentinel (k : Sentinel) : (s.addSentinel k).prevs =
    Function.update s.prevs (.sentinel k) (some (.sentinel k)) := by
  funext m
  by_cases h : m = .sentinel k <;> simp [h, prevs, addSentinel, setNode, Function.update]

@[simp] theorem nexts_addSentinel (k : Sentinel) : (s.addSentinel k).nexts =
    Function.update s.nexts (.sentinel k) (some (.sentinel k)) := by
  funext m
  by_cases h : m = .sentinel k <;> simp [h, nexts, addSentinel, setNode, Function.update]

@[simp] theorem caps_addSentinel (k : Sentinel) : (s.addSentinel k).caps =
    Function.update s.caps (.sentinel k) nullCap := by
  funext m
  by_cases h : m = .sentinel k <;> simp [h, caps, addSentinel, setNode, Function.update]

@[simp] theorem prevs_addRoot (k : Sentinel) (cn : Nat) (cap : Cap) :
    (s.addRoot k cn cap).prevs = Function.update (Function.update s.prevs (.sentinel k)
      (some (.slot 0 cn))) (.slot 0 cn) (some (.sentinel k)) := by
  simp [addRoot]

@[simp] theorem nexts_addRoot (k : Sentinel) (cn : Nat) (cap : Cap) :
    (s.addRoot k cn cap).nexts = Function.update (Function.update s.nexts (.slot 0 cn)
      (some (.sentinel k))) (.sentinel k) (some (.slot 0 cn)) := by
  funext m
  by_cases h : m = .sentinel k
  · simp [addRoot, h]
  · by_cases h' : m = .slot 0 cn <;> simp [addRoot, h, h']

@[simp] theorem caps_addRoot (k : Sentinel) (cn : Nat) (cap : Cap) :
    (s.addRoot k cn cap).caps =
      Function.update (Function.update s.caps (.sentinel k) nullCap) (.slot 0 cn) cap := by
  simp [addRoot]

/-- The kernel before the loop over the harts. -/
def beforeTime (s : Kernel) (c₀ c₁ c₂ : Cap) : Kernel :=
  (((s.addRoot .memory 0 c₀).addRoot .channels 1 c₁).addRoot .supervisor 2 c₂).addSentinel .time

end Kernel

/-- The lists before the harts get their time: one capability in each but the last. -/
def ringsBeforeTime : Sentinel → List NodeRef
  | .memory => [.sentinel .memory, .slot 0 0]
  | .channels => [.sentinel .channels, .slot 0 1]
  | .supervisor => [.sentinel .supervisor, .slot 0 2]
  | .time => [.sentinel .time]

theorem live_beforeTime (hp : ∀ n, s.prevs n = none) (c₀ c₁ c₂ : Cap) :
    (s.beforeTime c₀ c₁ c₂).Live (.slot p i) ↔ p = 0 ∧ i < 3 := by
  rw [Kernel.Live, Kernel.beforeTime]
  by_cases h0 : p = 0
  · subst h0
    by_cases h : i = 0 ∨ i = 1 ∨ i = 2
    · rcases h with rfl | rfl | rfl <;> simp [Function.update]
    · obtain ⟨h0, h1, h2⟩ := not_or.mp h |>.imp id not_or.mp
      simp [Function.update, hp, h0, h1, h2]
      omega
  · simp [Function.update, hp, h0]

theorem lists_beforeTime (hp : ∀ n, s.prevs n = none) (c₀ c₁ c₂ : Cap) :
    (s.beforeTime c₀ c₁ c₂).Lists ringsBeforeTime where
  ring k := by
    cases k <;> simp [Ring.IsRing, ringsBeforeTime, Ring.Linked, Kernel.beforeTime, Function.update]
  head k := by cases k <;> rfl
  disjoint k k' x h h' := by
    cases k <;> cases k' <;> simp only [ringsBeforeTime, List.mem_cons, List.not_mem_nil, or_false]
      at h h'
    all_goals first
      | rfl
      | (rcases h with rfl | rfl) <;> simp at h'
  live x := by
    cases x with
    | slot p i =>
      change (s.beforeTime c₀ c₁ c₂).Live _ ↔ _
      rw [live_beforeTime hp]
      constructor
      · rintro ⟨rfl, hi⟩
        obtain rfl | rfl | rfl : i = 0 ∨ i = 1 ∨ i = 2 := by omega
        · exact ⟨.memory, by simp [ringsBeforeTime]⟩
        · exact ⟨.channels, by simp [ringsBeforeTime]⟩
        · exact ⟨.supervisor, by simp [ringsBeforeTime]⟩
      · rintro ⟨k, hk⟩
        cases k <;> simp [ringsBeforeTime] at hk <;> omega
    | sentinel k =>
      refine iff_of_true ?_ ⟨k, by cases k <;> simp [ringsBeforeTime]⟩
      cases k <;> simp [Kernel.beforeTime, Function.update]

/-! ## Running `proc_init` -/

theorem procInitProcs_run : ∀ (l : List Nat) (s : Kernel),
    ∃ procs, (procInitProcs l).run s = .ok ((), { s with procs := procs }) ∧
      ∀ q, procs q = if q ∈ l then
        { s.procs q with pid := BitVec.ofNat 64 q, state := procStateSuspended } else s.procs q
  | [], s => ⟨s.procs, rfl, fun _ => by simp⟩
  | i :: l, s => by
    obtain ⟨procs, hrun, hprocs⟩ := procInitProcs_run l (s.setProc i
      { s.procs i with pid := BitVec.ofNat 64 i, state := procStateSuspended })
    have hi : (procInitProc i).run s = .ok ((), s.setProc i
        { s.procs i with pid := BitVec.ofNat 64 i, state := procStateSuspended }) := rfl
    refine ⟨procs, by rw [procInitProcs, run_bind_ok hi, hrun]; rfl, fun q => ?_⟩
    rw [hprocs]
    by_cases hq : q = i
    · subst hq
      simp
    · simp [hq, Kernel.procs_setProc_of_ne]

theorem newList_run {x : Except Halt Cap} {k : Sentinel} {cn : Nat} {cap : Cap}
    (hd : ¬ s.Live (.slot 0 cn)) (hx : x = .ok cap) :
    (do
      makeSentinel k
      insertRoot cfg (← x) cn k
      return cn + 1 : KernelM Nat).run s = .ok (cn + 1, s.addRoot k cn cap) := by
  have hmake : (makeSentinel k).run s = .ok ((), s.addSentinel k) := rfl
  have hins : (insertRoot cfg cap cn k).run (s.addSentinel k) =
      .ok ((), s.addRoot k cn cap) := by
    rw [insertRoot, run_bind_ok (capNodeInsert_run _ _ _ _)]
    · rfl
    · simpa [Kernel.Live] using hd
    · simp
    · simp
    · simp
  rw [run_bind_ok hmake, run_bind_ok (run_lift_ok hx _), run_bind_ok hins]
  rfl

theorem newList_inv {x : Except Halt Cap} {k : Sentinel} {cn n : Nat}
    (hd : ¬ s.Live (.slot 0 cn))
    (h : (do
      makeSentinel k
      insertRoot cfg (← x) cn k
      return cn + 1 : KernelM Nat).run s = .ok (n, t)) :
    ∃ cap, x = .ok cap ∧ n = cn + 1 ∧ t = s.addRoot k cn cap := by
  obtain ⟨cap, hx⟩ : ∃ cap, x = .ok cap := by
    obtain ⟨_, s₁, -, h⟩ := run_bind_inv h
    obtain ⟨cap, s₂, h, -⟩ := run_bind_inv h
    exact ⟨cap, (run_lift_inv h).1⟩
  rw [newList_run hd hx] at h
  obtain ⟨rfl, rfl⟩ := Prod.mk.inj (Except.ok.inj h)
  exact ⟨cap, hx, rfl, rfl⟩

/-- What the root process starts with, slot by slot. -/
def bootHolding (cfg : Config) (rootPayload : Word) : Nat → Capability
  | 0 => .pmp (pmpNapotBegin (rootPayload >>> 12)).toNat (pmpNapotEnd (rootPayload >>> 12)).toNat 7
  | 1 => .channels ⟨0, 0, cfg.nChannels⟩
  | 2 => .supervisor ⟨0, 0, cfg.nProc⟩
  | k + 3 => .time (cfg.minHartid + k) ⟨0, 0, cfg.nQuantum⟩

/-- The first `n` slots of the root process are filled, and no other. -/
structure BootStage (cfg : Config) (rootPayload : Word) (n : Nat) (s : Kernel) : Prop where
  lists : ∃ rings, s.Lists rings
  live : ∀ p i, s.Live (.slot p i) ↔ p = 0 ∧ i < n
  clear : ∀ p i, ¬ s.Live (.slot p i) → s.caps (.slot p i) = nullCap
  sentinels : ∀ k, s.caps (.sentinel k) = nullCap
  constructed : ∀ i, i < n → Constructed cfg (s.caps (.slot 0 i))
  view : ∀ i, i < n → (s.caps (.slot 0 i)).view = bootHolding cfg rootPayload i

variable {rootPayload : Word} {n : Nat}

/-- One more capability, put into the list of time capabilities. -/
theorem BootStage.insert {cap : Cap} (h : BootStage cfg rootPayload n s)
    (hc : Constructed cfg cap) (hv : cap.view = bootHolding cfg rootPayload n) :
    ∃ nodes, (insertRoot cfg cap n .time).run s = .ok ((), { s with nodes := nodes }) ∧
      BootStage cfg rootPayload (n + 1) { s with nodes := nodes } := by
  obtain ⟨rings, hl⟩ := h.lists
  have hk : (.sentinel .time : NodeRef) ∈ rings .time := hl.head_mem .time
  obtain ⟨q, -, hq⟩ := (hl.ring .time).exists_next hk
  have hdead : ¬ s.Live (.slot 0 n) := fun hn => absurd ((h.live 0 n).mp hn).2 (lt_irrefl n)
  have hlive : ∀ {m}, (s.spliceIn cap (.slot 0 n) (.sentinel .time) q).Live m ↔
      m = .slot 0 n ∨ s.Live m := Kernel.live_spliceIn (live_of_linked hq)
  refine ⟨(s.spliceIn cap (.slot 0 n) (.sentinel .time) q).nodes, ?_, ?_⟩
  · rw [insertRoot, run_bind_ok (capNodeInsert_run (not_not.mp hdead) (hl.live_sentinel .time)
      hq.1 hq.2)]
    rfl
  -- the slots before it keep what the boot put there
  · have hcaps : ∀ i, i ≠ n → (s.spliceIn cap (.slot 0 n) (.sentinel .time) q).caps (.slot 0 i) =
        s.caps (.slot 0 i) := fun i hi => by
      rw [Kernel.caps_spliceIn, Function.update_of_ne (by simpa using hi)]
    refine ⟨⟨_, hl.insert hdead hk hq⟩, fun p i => hlive.trans ?_, fun p i hd => ?_, fun k => ?_,
      fun i hi => ?_, fun i hi => ?_⟩
    · rw [h.live, NodeRef.slot.injEq]
      omega
    · have hd' := mt hlive.mpr hd
      change (s.spliceIn cap (.slot 0 n) (.sentinel .time) q).caps _ = _
      rw [Kernel.caps_spliceIn, Function.update_of_ne fun e => hd' (Or.inl e)]
      exact h.clear p i fun hp => hd' (Or.inr hp)
    · change (s.spliceIn cap (.slot 0 n) (.sentinel .time) q).caps _ = _
      rw [Kernel.caps_spliceIn, Function.update_of_ne (by simp)]
      exact h.sentinels k
    · change Constructed cfg ((s.spliceIn cap (.slot 0 n) (.sentinel .time) q).caps _)
      by_cases hin : i = n
      · rw [hin, Kernel.caps_spliceIn, Function.update_self]
        exact hc
      · rw [hcaps i hin]
        exact h.constructed i (by omega)
    · change ((s.spliceIn cap (.slot 0 n) (.sentinel .time) q).caps _).view = _
      by_cases hin : i = n
      · rw [hin, Kernel.caps_spliceIn, Function.update_self]
        exact hv
      · rw [hcaps i hin]
        exact h.view i (by omega)

/-- The loop over the harts, from the `j`-th on. -/
theorem procInitTimeLoop_inv {m : Nat} : ∀ {j k : Nat} {s : Kernel}, j + k = cfg.nHarts →
    BootStage cfg rootPayload (j + 3) s →
    (procInitTimeLoop cfg (j + 3) (List.range' (cfg.minHartid + j) k)).run s = .ok (m, t) →
    ∃ nodes, t = { s with nodes := nodes } ∧
      BootStage cfg rootPayload (cfg.nHarts + 3) { s with nodes := nodes }
  | j, 0, s, hj, hs, h => by
    obtain ⟨-, rfl⟩ := Prod.mk.inj (Except.ok.inj h)
    obtain rfl : j = cfg.nHarts := hj
    exact ⟨s.nodes, rfl, hs⟩
  | j, k + 1, s, hj, hs, h => by
    rw [List.range'_succ, procInitTimeLoop] at h
    obtain ⟨cap, s₁, h1, h2⟩ := run_bind_inv h
    obtain ⟨hcap, rfl⟩ := run_lift_inv h1
    have hharts : cfg.nHarts = cfg.maxHartid - cfg.minHartid + 1 := rfl
    have hmax := cfg.maxHartid_le
    have hle := cfg.hartid_le
    have hq := cfg.nQuantum_le
    have hview : cap.view = bootHolding cfg rootPayload (j + 3) := by
      obtain ⟨hv, -⟩ := capMkTime_view hcap
      rw [hv, bootHolding, BitVec.toNat_ofNat, BitVec.toNat_ofNat, Nat.mod_eq_of_lt (by omega),
        Nat.mod_eq_of_lt (by omega)]
      rfl
    obtain ⟨nodes, hrun, hstage⟩ := hs.insert (.time _ _ _ _ hcap) hview
    rw [run_bind_ok hrun] at h2
    obtain ⟨nodes', ht, hstage'⟩ := procInitTimeLoop_inv (j := j + 1) (k := k) (by omega)
      (by rwa [show j + 1 + 3 = j + 3 + 1 by omega])
      (by rwa [show j + 1 + 3 = j + 3 + 1 by omega, ← Nat.add_assoc])
    exact ⟨nodes', ht, hstage'⟩

theorem bootStage_beforeTime {c₀ c₁ c₂ : Cap} (hp : ∀ n, s.prevs n = none)
    (hc : ∀ n, s.caps n = nullCap) (h₀ : Gen.capMkPmp (rootPayload >>> 12) 0x7 = .ok c₀)
    (h₁ : Gen.capMkChannels cfg.nChannels 0 (BitVec.ofNat 64 cfg.nChannels) 0 = .ok c₁)
    (h₂ : Gen.capMkSupervisor cfg.nProc 0 (BitVec.ofNat 64 cfg.nProc) 0 = .ok c₂) :
    BootStage cfg rootPayload 3 (s.beforeTime c₀ c₁ c₂) := by
  have hv₀ : c₀.view = bootHolding cfg rootPayload 0 := (capMkPmp_view h₀).1
  have hv₁ : c₁.view = bootHolding cfg rootPayload 1 := by
    have := cfg.nChannels_le
    rw [(capMkChannels_view h₁).1, bootHolding, BitVec.toNat_ofNat, Nat.mod_eq_of_lt (by omega)]
    rfl
  have hv₂ : c₂.view = bootHolding cfg rootPayload 2 := by
    have := cfg.nProc_le
    rw [(capMkSupervisor_view h₂).1, bootHolding, BitVec.toNat_ofNat, Nat.mod_eq_of_lt (by omega)]
    rfl
  have hcaps : ∀ i, i < 3 → (i = 0 ∧ (s.beforeTime c₀ c₁ c₂).caps (.slot 0 i) = c₀) ∨
      (i = 1 ∧ (s.beforeTime c₀ c₁ c₂).caps (.slot 0 i) = c₁) ∨
        (i = 2 ∧ (s.beforeTime c₀ c₁ c₂).caps (.slot 0 i) = c₂) := by
    intro i hi
    obtain rfl | rfl | rfl : i = 0 ∨ i = 1 ∨ i = 2 := by omega
    all_goals simp [Kernel.beforeTime, Function.update]
  refine ⟨⟨_, lists_beforeTime hp c₀ c₁ c₂⟩, fun p i => live_beforeTime hp c₀ c₁ c₂,
    fun p i hd => ?_, fun k => ?_, fun i hi => ?_, fun i hi => ?_⟩
  · rw [live_beforeTime hp] at hd
    have hne : ∀ j, j < 3 → (.slot p i : NodeRef) ≠ .slot 0 j := fun j hj e => by
      obtain ⟨rfl, rfl⟩ := NodeRef.slot.inj e
      exact hd ⟨rfl, hj⟩
    simp [Kernel.beforeTime, Function.update, hc, hne]
  · cases k <;> simp [Kernel.beforeTime, Function.update]
  · obtain ⟨-, h⟩ | ⟨-, h⟩ | ⟨-, h⟩ := hcaps i hi
    · exact h.symm ▸ .pmp _ _ h₀
    · exact h.symm ▸ .channels _ _ _ h₁
    · exact h.symm ▸ .supervisor _ _ _ h₂
  · obtain ⟨rfl, h⟩ | ⟨rfl, h⟩ | ⟨rfl, h⟩ := hcaps i hi
    · rw [h, hv₀]
    · rw [h, hv₁]
    · rw [h, hv₂]

/-- The lists `proc_init` builds. -/
theorem procInitRoot_inv (hp : ∀ n, s.prevs n = none) (hc : ∀ n, s.caps n = nullCap)
    (h : (procInitRoot cfg rootPayload).run s = .ok ((), t)) :
    ∃ nodes, BootStage cfg rootPayload (cfg.nHarts + 3) { s with nodes := nodes } ∧
      t = ((({ s with nodes := nodes } : Kernel).setReg 0 .pc rootPayload).setReg 0 .a0 0).setState
        0 procStateReady := by
  have hdead : ∀ n, ¬ s.Live n := fun n hn => hn (hp n)
  obtain ⟨n₁, s₁, h1, h⟩ := run_bind_inv h
  obtain ⟨c₀, hc₀, rfl, hs₁⟩ := newList_inv (hdead _) h1
  obtain ⟨n₂, s₂, h2, h⟩ := run_bind_inv h
  obtain ⟨c₁, hc₁, rfl, hs₂⟩ := newList_inv (by simp [hs₁, Kernel.Live, hp]) h2
  obtain ⟨n₃, s₃, h3, h⟩ := run_bind_inv h
  obtain ⟨c₂, hc₂, rfl, hs₃⟩ := newList_inv (by simp [hs₁, hs₂, Kernel.Live, hp]) h3
  obtain ⟨n₄, s₄, h4, h⟩ := run_bind_inv h
  obtain ⟨_, s₅, h5, h4⟩ := run_bind_inv h4
  obtain rfl : s₅ = s₃.addSentinel .time := (Prod.mk.inj (Except.ok.inj h5)).2.symm
  have hstage := bootStage_beforeTime hp hc hc₀ hc₁ hc₂
  rw [Kernel.beforeTime, ← hs₁, ← hs₂, ← hs₃] at hstage
  obtain ⟨nodes, rfl, hstage'⟩ := procInitTimeLoop_inv (Nat.zero_add _) hstage h4
  refine ⟨nodes, ?_, ?_⟩
  · subst hs₁ hs₂ hs₃
    exact hstage'
  · subst hs₁ hs₂ hs₃
    exact (Prod.mk.inj (Except.ok.inj h)).2.symm

/-! ## Running `sched_init` -/

/-- The entry `sched_init` writes: process 0, to the end of the frame. -/
def bootEntry (cfg : Config) (q : Nat) : BitVec 16 := BitVec.ofNat 16 (cfg.nQuantum - q) <<< 8

theorem schedInitRow_run (cfg : Config) (q : Nat) : ∀ (l : List Nat) (s : Kernel),
    ∃ sched, (schedInitRow cfg q l).run s = .ok ((), { s with schedule := sched }) ∧
      ∀ q' k, sched q' k =
        if q' = q ∧ ∃ j ∈ l, k = j - cfg.minHartid then bootEntry cfg q else s.schedule q' k
  | [], s => ⟨s.schedule, rfl, fun _ _ => by simp⟩
  | j :: l, s => by
    obtain ⟨sched, hrun, hsched⟩ := schedInitRow_run cfg q l
      (s.setSchedule q (j - cfg.minHartid) (bootEntry cfg q))
    refine ⟨sched, hrun, fun q' k => ?_⟩
    rw [hsched]
    by_cases hq : q' = q
    · subst hq
      by_cases hk : k = j - cfg.minHartid
      · simp [Kernel.setSchedule, hk]
      · simp [Kernel.setSchedule, hk]
    · simp [Kernel.setSchedule, hq]

theorem schedInitRows_run (cfg : Config) : ∀ (l : List Nat) (s : Kernel),
    ∃ sched, (schedInitRows cfg l).run s = .ok ((), { s with schedule := sched }) ∧
      ∀ q k, sched q k = if q ∈ l ∧ k < cfg.nHarts then bootEntry cfg q else s.schedule q k
  | [], s => ⟨s.schedule, rfl, fun _ _ => by simp⟩
  | q :: l, s => by
    obtain ⟨row, hrow, hrow'⟩ := schedInitRow_run cfg q
      (List.range' cfg.minHartid cfg.nHarts) s
    obtain ⟨sched, hrun, hsched⟩ := schedInitRows_run cfg l { s with schedule := row }
    refine ⟨sched, by rw [schedInitRows, run_bind_ok hrow, hrun], fun q' k => ?_⟩
    have hk : (∃ j ∈ List.range' cfg.minHartid cfg.nHarts, k = j - cfg.minHartid) ↔
        k < cfg.nHarts := by
      constructor
      · rintro ⟨j, hj, rfl⟩
        obtain ⟨i, hi, rfl⟩ := List.mem_range'.mp hj
        omega
      · exact fun hk => ⟨cfg.minHartid + k, List.mem_range'.mpr ⟨k, hk, by omega⟩, by omega⟩
    rw [hsched]
    change (if _ then _ else row q' k) = _
    rw [hrow']
    simp only [hk]
    by_cases hq : q' = q
    · subst hq
      by_cases hkn : k < cfg.nHarts <;> simp [hkn]
    · simp [hq]

theorem unpack_bootEntry {q : Nat} :
    SchedEntry.unpack (bootEntry cfg q) = ⟨0, BitVec.ofNat 64 (cfg.nQuantum - q)⟩ := by
  have hn := cfg.nQuantum_le
  generalize hlen : cfg.nQuantum - q = len
  have hl : len < 256 := by omega
  have hpack : bootEntry cfg q = packEntry 0 (BitVec.ofNat 64 len) := by
    apply BitVec.eq_of_toNat_eq
    have hzero : ∀ x : Word, 0 ||| x = x := fun _ => BitVec.zero_or
    rw [bootEntry, hlen, packEntry, hzero, BitVec.toNat_setWidth, BitVec.toNat_shiftLeft,
      BitVec.toNat_shiftLeft, BitVec.toNat_ofNat, BitVec.toNat_ofNat, Nat.mod_eq_of_lt (by omega),
      Nat.mod_eq_of_lt (by omega), Nat.shiftLeft_eq]
    omega
  have hlen' : (BitVec.ofNat 64 len).toNat < 256 := by
    rw [BitVec.toNat_ofNat, Nat.mod_eq_of_lt (by omega)]
    exact hl
  have hpid : (SchedEntry.unpack (packEntry 0 (BitVec.ofNat 64 len))).pid = 0 :=
    unpack_packEntry_pid (by decide)
  have hlength : (SchedEntry.unpack (packEntry 0 (BitVec.ofNat 64 len))).length =
      BitVec.ofNat 64 len := unpack_packEntry_length (by decide) hlen'
  rw [hpack]
  generalize SchedEntry.unpack (packEntry 0 (BitVec.ofNat 64 len)) = e at hpid hlength ⊢
  rw [← hpid, ← hlength]

/-! ## The state after boot -/

/-- Everything that can be said of the kernel after boot, with no hart in a process. -/
structure BootState (cfg : Config) (rootPayload : Word) (s : System) : Prop where
  stage : BootStage cfg rootPayload (cfg.nHarts + 3) s.kernel
  schedule : ∀ q k, s.kernel.schedule q k =
    if q < cfg.nQuantum ∧ k < cfg.nHarts then bootEntry cfg q else 0
  receivers : s.kernel.receivers = fun _ _ => none
  pids : ∀ p, p < cfg.nProc → (s.kernel.procs p).pid = BitVec.ofNat 64 p
  states : ∀ p, p < cfg.nProc →
    (s.kernel.procs p).state = procStateReady ∨ (s.kernel.procs p).state = procStateSuspended
  history : s.kernel.history = []
  halted : ∀ h, s.current h = none

theorem bootState {rootPayload : Word} {k : Kernel} (hboot : boot cfg rootPayload = .ok k) :
    BootState cfg rootPayload (.start k) := by
  -- the two initialisers run one after the other from zeroed memory
  obtain ⟨k', hk'⟩ : ∃ r, (do procInit cfg rootPayload; schedInit cfg : KernelM Unit).run
      .zero = .ok ((), r) ∧ r = k := by
    unfold boot at hboot
    generalize (do procInit cfg rootPayload; schedInit cfg : KernelM Unit).run .zero = r at hboot
    cases r with
    | error e => cases hboot
    | ok r => exact ⟨r.2, rfl, Except.ok.inj hboot⟩
  obtain ⟨hrun, rfl⟩ := hk'
  obtain ⟨_, s₁, h1, h2⟩ := run_bind_inv hrun
  obtain ⟨procs, hprocs, hprocs'⟩ := procInitProcs_run (List.range cfg.nProc) .zero
  rw [procInit, run_bind_ok hprocs] at h1
  obtain ⟨nodes, hstage, rfl⟩ := procInitRoot_inv (s := { Kernel.zero with procs := procs })
    (fun _ => rfl) (fun _ => rfl) h1
  obtain ⟨sched, hsched, hsched'⟩ := schedInitRows_run cfg (List.range cfg.nQuantum)
    (((({ Kernel.zero with procs := procs, nodes := nodes } : Kernel).setReg 0 .pc
      rootPayload).setReg 0 .a0 0).setState 0 procStateReady)
  obtain rfl := (Prod.mk.inj (Except.ok.inj (h2.symm.trans hsched))).2
  have hpids : ∀ p, p < cfg.nProc → (procs p).pid = BitVec.ofNat 64 p ∧
      (procs p).state = procStateSuspended := fun p hp => by
    rw [hprocs', if_pos (List.mem_range.mpr hp)]
    exact ⟨rfl, rfl⟩
  refine ⟨⟨hstage.lists, hstage.live, hstage.clear, hstage.sentinels, hstage.constructed,
    hstage.view⟩, fun q k => ?_, rfl, fun p hp => ?_, fun p hp => ?_, rfl, fun _ => rfl⟩
  · change sched q k = _
    rw [hsched']
    simp only [List.mem_range]
    rfl
  · by_cases h0 : p = 0
    · subst h0
      simpa [System.start, Kernel.setState, Kernel.setReg] using (hpids 0 hp).1
    · simpa [System.start, Kernel.setState, Kernel.setReg, Kernel.procs_setProc_of_ne _ h0] using
        (hpids p hp).1
  · by_cases h0 : p = 0
    · subst h0
      left
      simp [System.start, Kernel.setState]
    · right
      simpa [System.start, Kernel.setState, Kernel.setReg, Kernel.procs_setProc_of_ne _ h0] using
        (hpids p hp).2

theorem Booted.state (h : Booted cfg st) : ∃ rootPayload, BootState cfg rootPayload st := by
  obtain ⟨rootPayload, k, hboot, rfl⟩ := h
  exact ⟨rootPayload, bootState hboot⟩

namespace BootState

variable {rootPayload : Word}

theorem held (h : BootState cfg rootPayload st) (p i : Nat) : st.kernel.held (.slot p i) =
    if p = 0 ∧ i < cfg.nHarts + 3 then bootHolding cfg rootPayload i else .other := by
  by_cases hl : p = 0 ∧ i < cfg.nHarts + 3
  · rw [if_pos hl, held_of_live ((h.stage.live p i).mpr hl), hl.1]
    exact h.stage.view i hl.2
  · rw [if_neg hl, held_of_dead (mt (h.stage.live p i).mp hl)]

/-- No two of them refer to anything in common: their kinds, and for time their harts, differ. -/
theorem bootHolding_disjoint {i j : Nat} (h : i ≠ j) :
    Disjoint (bootHolding cfg rootPayload i).footprint
      (bootHolding cfg rootPayload j).footprint := by
  rw [Set.disjoint_left]
  intro r hi hj
  match i, j with
  | 0, 0 => exact h rfl
  | 1, 1 => exact h rfl
  | 2, 2 => exact h rfl
  | 0, 1 | 1, 0 | 0, 2 | 2, 0 | 0, _ + 3 | _ + 3, 0 | 1, 2 | 2, 1 | 1, _ + 3 | _ + 3, 1 |
    2, _ + 3 | _ + 3, 2 =>
    obtain ⟨x, -, rfl⟩ := hi
    obtain ⟨y, -, hy⟩ := hj
    cases hy
  | i + 3, j + 3 =>
    obtain ⟨x, -, rfl⟩ := hi
    obtain ⟨y, -, hy⟩ := hj
    have := (Resource.quantum.inj hy).1
    omega

theorem disjoint (h : BootState cfg rootPayload st) :
    Exclusive.Excl fun n => (st.kernel.held n).footprint := by
  refine Exclusive.excl_of_eq fun n m r hn hm => ?_
  have hslot : ∀ {n : NodeRef}, r ∈ (st.kernel.held n).footprint →
      ∃ i, n = .slot 0 i ∧ r ∈ (bootHolding cfg rootPayload i).footprint := by
    intro n hr
    cases n with
    | sentinel k => exact absurd hr (Set.notMem_empty _)
    | slot p i =>
      rw [h.held] at hr
      split at hr
      · next hp => exact ⟨i, by rw [hp.1], hr⟩
      · exact absurd hr (Set.notMem_empty _)
  obtain ⟨i, rfl, hi⟩ := hslot hn
  obtain ⟨j, rfl, hj⟩ := hslot hm
  by_contra hne
  exact Set.disjoint_left.mp (bootHolding_disjoint fun e => hne (by rw [e])) hi hj

theorem root (h : BootState cfg rootPayload st) : RootState cfg st where
  lists := h.stage.lists
  bounds p i hl := by
    obtain ⟨rfl, hi⟩ := (h.stage.live p i).mp hl
    have hc := cfg.nCaps_ge
    have hn : cfg.nHarts = cfg.maxHartid - cfg.minHartid + 1 := rfl
    exact ⟨cfg.nProc_pos, by omega⟩
  constructed p i hl := by
    obtain ⟨rfl, hi⟩ := (h.stage.live p i).mp hl
    exact h.stage.constructed i hi
  clear := h.stage.clear
  sentinels := h.stage.sentinels
  exclusive := excl_owned h.disjoint fun p i hl => by
    obtain ⟨rfl, hi⟩ := (h.stage.live p i).mp hl
    exact (h.stage.constructed i hi).valid.1.1
  pids := h.pids
  states := h.states
  receivers ch k p hr := by
    rw [h.receivers] at hr
    cases hr
  entries q k := by
    rw [h.schedule]
    split
    · rw [unpack_bootEntry]
      exact Or.inr cfg.nProc_pos
    · exact Or.inr cfg.nProc_pos
  halted := h.halted
  history := h.history

end BootState

/-- The machine boots into a root state. -/
theorem Booted.root (h : Booted cfg st) : RootState cfg st := by
  obtain ⟨rootPayload, hb⟩ := h.state
  exact hb.root

theorem Booted.disjointRoots (h : Booted cfg st) : DisjointRoots cfg st := by
  obtain ⟨rootPayload, hb⟩ := h.state
  exact ⟨hb.root, hb.disjoint⟩

/-! ## One more root -/

section

variable {cap : Cap} {k : Sentinel} {q : NodeRef}

theorem held_spliceIn (hq : s.Live q) : (s.spliceIn cap (.slot p i) (.sentinel k) q).held =
    Function.update s.held (.slot p i) cap.view := by
  have hlive : ∀ {m}, (s.spliceIn cap (.slot p i) (.sentinel k) q).Live m ↔
      m = .slot p i ∨ s.Live m := Kernel.live_spliceIn hq
  funext m
  cases m with
  | sentinel k' => simp [Kernel.held]
  | slot p' i' =>
    by_cases hm : (.slot p' i' : NodeRef) = .slot p i
    · rw [hm, Function.update_self, held_of_live (hlive.mpr (Or.inl rfl)), Kernel.caps_spliceIn,
        Function.update_self]
    · rw [Function.update_of_ne hm]
      refine held_congr ⟨fun h => (hlive.mp h).resolve_left hm, fun h => hlive.mpr (Or.inr h)⟩ ?_
      rw [Kernel.caps_spliceIn, Function.update_of_ne hm]

/-- A capability put into a free slot, on resources that no root refers to yet. -/
theorem DisjointRoots.insert (h : DisjointRoots cfg st) (hc : Constructed cfg cap)
    (hp : p < cfg.nProc) (hi : i < cfg.nCaps) (hd : ¬ st.kernel.Live (.slot p i))
    (hq : Ring.Linked st.kernel.nexts st.kernel.prevs (.sentinel k) q)
    (hnew : ∀ n, Disjoint (st.kernel.held n).footprint cap.view.footprint) :
    DisjointRoots cfg { st with
      kernel := st.kernel.spliceIn cap (.slot p i) (.sentinel k) q } := by
  obtain ⟨hroot, hdisj⟩ := h
  obtain ⟨rings, hl⟩ := hroot.lists
  have hlive : ∀ {m}, (st.kernel.spliceIn cap (.slot p i) (.sentinel k) q).Live m ↔
      m = .slot p i ∨ st.kernel.Live m := Kernel.live_spliceIn (live_of_linked hq)
  have hcons : ∀ p' i', (st.kernel.spliceIn cap (.slot p i) (.sentinel k) q).Live (.slot p' i') →
      Constructed cfg
        ((st.kernel.spliceIn cap (.slot p i) (.sentinel k) q).caps (.slot p' i')) := by
    intro p' i' hm
    rw [Kernel.caps_spliceIn]
    by_cases he : (.slot p' i' : NodeRef) = .slot p i
    · rwa [he, Function.update_self]
    · rw [Function.update_of_ne he]
      exact hroot.constructed _ _ ((hlive.mp hm).resolve_left he)
  have hdisj' : Exclusive.Excl fun n =>
      ((st.kernel.spliceIn cap (.slot p i) (.sentinel k) q).held n).footprint := by
    rw [held_spliceIn (live_of_linked hq)]
    intro a b hab
    have hold := hdisj hab
    rw [Function.onFun_apply] at hold ⊢
    -- the new one against the old ones
    by_cases ha : a = .slot p i <;> by_cases hb : b = .slot p i
    · exact absurd (ha.trans hb.symm) hab
    · simpa [ha, hb] using (hnew b).symm
    · simpa [ha, hb] using hnew a
    · simpa [ha, hb] using hold
  refine ⟨{
    lists := ⟨_, hl.insert hd (hl.head_mem k) hq⟩
    bounds := fun p' i' hm => ?_
    constructed := hcons
    clear := fun p' i' hm => ?_
    sentinels := fun k' => ?_
    exclusive := excl_owned hdisj' fun p' i' hm => (hcons p' i' hm).valid.1.1
    pids := hroot.pids
    states := hroot.states
    receivers := hroot.receivers
    entries := hroot.entries
    halted := hroot.halted
    history := hroot.history }, hdisj'⟩
  · rcases hlive.mp hm with he | hm
    · obtain ⟨rfl, rfl⟩ := NodeRef.slot.inj he
      exact ⟨hp, hi⟩
    · exact hroot.bounds p' i' hm
  · obtain ⟨hne, hm⟩ := not_or.mp (mt hlive.mpr hm)
    rw [Kernel.caps_spliceIn, Function.update_of_ne hne]
    exact hroot.clear p' i' hm
  · rw [Kernel.caps_spliceIn, Function.update_of_ne (by simp)]
    exact hroot.sentinels k'

end

/-! ## Runs of the kernel as it is configured -/

/-- `step` where the hart does not stop. -/
def stepOk (cfg : Config) (l : Label) (s : System) : Option System :=
  match step cfg l s with
  | some (.ok s') => some s'
  | _ => none

theorem step_of_stepOk {s s' : System} {l : Label} (h : stepOk cfg l s = some s') :
    Step cfg s l s' := by
  unfold stepOk at h
  split at h
  · next heq => exact heq.trans (congrArg (fun x => some (Except.ok x)) (Option.some.inj h))
  · cases h

/-- The harts wait, once the first of them has booted. -/
def System.ofBoot : Except Halt Kernel → System
  | .ok k => .start k
  | .error _ => .start .zero

theorem exists_ofBoot (cfg : Config) (rootPayload : Word)
    (h : (boot cfg rootPayload).toBool = true) :
    ∃ k, boot cfg rootPayload = .ok k ∧ System.ofBoot (boot cfg rootPayload) = .start k := by
  cases hb : boot cfg rootPayload with
  | error e =>
    rw [hb] at h
    cases h
  | ok k => exact ⟨k, rfl, rfl⟩

/-- `config.h` on `bsp/virt.h`, just booted. -/
def virtStart : System := .ofBoot (boot .virt 0x80010000)

theorem virtStart_state : BootState .virt 0x80010000 virtStart := by
  obtain ⟨k, hk, hstart⟩ := exists_ofBoot .virt 0x80010000
    (by decide +kernel)
  rw [virtStart, hstart]
  exact bootState hk

theorem virtStart_booted : Booted .virt virtStart :=
  let ⟨k, hk, hstart⟩ := exists_ofBoot .virt 0x80010000
    (by decide +kernel)
  ⟨_, k, hk, hstart⟩

/-- The system after some steps, if they are possible. -/
def System.after (cfg : Config) (s : System) (ls : List Label) : System :=
  (Transition.exec (stepOk cfg) ls s).getD s

theorem after_steps (cfg : Config) (s : System) (ls : List Label) :
    Steps (Step cfg) s (s.after cfg ls) :=
  Transition.steps_getD_exec (fun _ _ _ => step_of_stepOk) ls s

theorem after_step {l : Label} (h : (stepOk cfg l st).isSome = true) :
    Step cfg st l (st.after cfg [l]) := by
  obtain ⟨st', hst'⟩ := Option.isSome_iff_exists.mp h
  have hafter : st.after cfg [l] = st' := by
    simp [System.after, Transition.exec, hst']
  rw [hafter]
  exact step_of_stepOk hst'

/-- The state after these steps from boot, on the board `virt`. -/
abbrev virtAfter (ls : List Label) : System := virtStart.after .virt ls

theorem virtAfter_reachable (ls : List Label) : Reachable (Booted .virt) (Step .virt) (virtAfter ls) :=
  ⟨virtStart, virtStart_booted, after_steps _ _ ls⟩

/-- The kernel with a memory capability for the pages below 16 besides. -/
def virtMemory : System := { virtStart with
  kernel := virtStart.kernel.spliceIn (capMkMemory 0 16 7 0 0) (.slot 0 20) (.sentinel .memory)
    (.slot 0 0) }

theorem virtMemory_disjointRoots : DisjointRoots .virt virtMemory := by
  have hmk : Gen.capMkMemory 0 16 7 0 0 = .ok (capMkMemory 0 16 7 0 0) := by decide +kernel
  refine virtStart_booted.disjointRoots.insert (k := .memory) (.memory 0 16 7 0 0 hmk) (by decide)
    (by decide) (by decide +kernel) ⟨by decide +kernel, by decide +kernel⟩ fun n => ?_
  rw [(capMkMemory_view hmk).1, Set.disjoint_right]
  rintro _ ⟨x, hx, rfl⟩ hr
  cases n with
  | sentinel k => exact Set.notMem_empty _ hr
  | slot p i =>
    rw [virtStart_state.held] at hr
    split at hr
    · match i with
      | 0 =>
        -- the frame of the root process is far above
        obtain ⟨y, hy, he⟩ := hr
        obtain rfl := page_injective he
        have hlo : (pmpNapotBegin (0x80010000 >>> 12)).toNat = 0x80010 := by decide
        have h1 : (pmpNapotBegin (0x80010000 >>> 12)).toNat ≤ y := hy.1
        have h2 : y < 16 := hx.2
        omega
      | 1 | 2 | i + 3 =>
        obtain ⟨y, -, he⟩ := hr
        cases he
    · exact Set.notMem_empty _ hr

/-- A trap with the given call number and arguments. -/
def callRegs (t0 a0 a1 a2 a3 a4 a5 : Word) : Reg → Word
  | .t0 => t0
  | .a0 => a0
  | .a1 => a1
  | .a2 => a2
  | .a3 => a3
  | .a4 => a4
  | .a5 => a5
  | _ => 0

end SepKernel
