import SepKernel.Windows

/-!
# Rounds of the scheduler

What a round of `sched_start` comes to, in one formula: the process that the schedule has for the
hart in the coming quantum, unless a hart below has the same process then, is taken if it is ready
and its timeout comes before the end of its time. In any quantum a process is up for one hart at
most, the lowest that the schedule gives it.
-/

namespace SepKernel

variable {cfg : Config} {s k : Kernel} {st st' : System} {hart p quantum : Nat}
  {length mtime pid : Word} {harts : List Nat}

theorem stepOk_eq_some {l : Label} : stepOk cfg l st = some st' ↔ Step cfg st l st' := by
  refine ⟨step_of_stepOk, fun hs => ?_⟩
  rw [Step] at hs
  rw [stepOk, hs]

/-! ## Who is up -/

/-- The process that `sched_get_proc` finds for a hart, and the length of its time. -/
def Kernel.upNext (cfg : Config) (s : Kernel) (hart quantum : Nat) : Option (Nat × Word) :=
  let entry := s.entryAt cfg quantum hart
  if entry.pid = invalidPid ∨ ∃ i ∈ List.range' cfg.minHartid (hart - cfg.minHartid),
      (s.entryAt cfg quantum i).pid = entry.pid then none
  else some (entry.pid.toNat, entry.length)

/-- Whether one of the lower harts has the process in the quantum, as the loop finds it. -/
theorem schedPreempted_eq (pid : Word) (hq : quantum < cfg.nQuantum)
    (hin : ∀ h ∈ harts, cfg.minHartid ≤ h ∧ h ≤ cfg.maxHartid) :
    (schedPreempted cfg quantum pid harts).run s =
      .ok (decide (∃ i ∈ harts, (s.entryAt cfg quantum i).pid = pid), s) := by
  induction harts with
  | nil => rfl
  | cons h hs ih =>
    have hh := hin h List.mem_cons_self
    rw [schedPreempted, run_bind_ok (schedGet_run hq hh.1 hh.2)]
    split
    · next he =>
      have hany : ∃ i ∈ h :: hs, (s.entryAt cfg quantum i).pid = pid :=
        ⟨h, List.mem_cons_self, (beq_iff_eq.mp he).symm⟩
      rw [decide_eq_true hany]
      rfl
    · next he =>
      have hany : (∃ i ∈ h :: hs, (s.entryAt cfg quantum i).pid = pid) ↔
          ∃ i ∈ hs, (s.entryAt cfg quantum i).pid = pid := by
        rw [List.exists_mem_cons_iff]
        exact or_iff_right fun e => he (beq_iff_eq.mpr e.symm)
      rw [decide_eq_decide.mpr hany]
      exact ih fun i hi => hin i (List.mem_cons_of_mem h hi)

/-- What `sched_get_proc` returns, in every state whose entries pass the asserts. -/
theorem schedGetProc_eq (time : Word) (he : EntriesOk cfg s) (hlo : cfg.minHartid ≤ hart)
    (hhi : hart ≤ cfg.maxHartid) : (schedGetProc cfg hart time).run s =
      .ok (s.upNext cfg hart (time.toNat % cfg.nQuantum), s) := by
  have hq : time.toNat % cfg.nQuantum < cfg.nQuantum := Nat.mod_lt _ cfg.nQuantum_pos
  have hharts : ∀ h ∈ List.range' cfg.minHartid (hart - cfg.minHartid),
      cfg.minHartid ≤ h ∧ h ≤ cfg.maxHartid := by
    intro h hm
    obtain ⟨i, hi, rfl⟩ := List.mem_range'.mp hm
    omega
  have hok : PidOk cfg (s.entryAt cfg (time.toNat % cfg.nQuantum) hart).pid := he _ _
  rw [schedGetProc, run_bind_ok (schedGet_run hq hlo hhi), Kernel.upNext]
  rw [Kernel.entryAt] at hok ⊢
  generalize SchedEntry.unpack (s.schedule (time.toNat % cfg.nQuantum) (hart - cfg.minHartid)) =
    entry at hok
  split
  · next hinv =>
    rw [if_pos (Or.inl (beq_iff_eq.mp hinv))]
    rfl
  · next hinv =>
    rw [run_bind_ok (schedPreempted_eq entry.pid hq hharts)]
    by_cases hpre : ∃ i ∈ List.range' cfg.minHartid (hart - cfg.minHartid),
        (s.entryAt cfg (time.toNat % cfg.nQuantum) i).pid = entry.pid
    · rw [if_pos (decide_eq_true hpre), if_pos (Or.inr hpre)]
      rfl
    · have hinv' : entry.pid ≠ invalidPid := mt beq_iff_eq.mpr hinv
      rw [if_neg (mt of_decide_eq_true hpre), if_neg (not_or.mpr ⟨hinv', hpre⟩),
        run_bind_ok (processAt_run (hok.resolve_left hinv'))]
      rfl

/-! ## A round -/

/-- Whether the process is taken. -/
def Kernel.Takes (cfg : Config) (s : Kernel) (time : Word) (p : Nat) (length : Word) : Prop :=
  (s.procs p).regs .timeout < endTime cfg time length ∧ (s.procs p).state = procStateReady

instance (s : Kernel) (time : Word) (p : Nat) (length : Word) :
    Decidable (s.Takes cfg time p length) := inferInstanceAs (Decidable (_ ∧ _))

/-- What a round of `sched_start` dispatches. -/
def Kernel.taken (cfg : Config) (s : Kernel) (hart : Nat) (mtime : Word) : Option Dispatched :=
  let time := roundTime cfg mtime
  match s.upNext cfg hart (time.toNat % cfg.nQuantum) with
  | none => none
  | some (p, length) =>
    if s.Takes cfg time p length then some ⟨p, time, length, (s.procs p).regs .timeout⟩ else none

/-- Who is taken: who is up next, if it can be, and with the times of the round. -/
theorem taken_eq_some {x : Dispatched} : s.taken cfg hart mtime = some x ↔
    s.upNext cfg hart ((roundTime cfg mtime).toNat % cfg.nQuantum) = some (x.proc, x.length) ∧
      s.Takes cfg (roundTime cfg mtime) x.proc x.length ∧ x.time = roundTime cfg mtime ∧
      x.timeout = (s.procs x.proc).regs .timeout := by
  rw [Kernel.taken]
  cases s.upNext cfg hart ((roundTime cfg mtime).toNat % cfg.nQuantum) with
  | none => simp
  | some y =>
    obtain ⟨p, length⟩ := y
    obtain ⟨proc, time, length', timeout⟩ := x
    simp only [Option.ite_none_right_eq_some, Option.some.injEq, Prod.mk.injEq, Dispatched.mk.injEq]
    constructor
    · rintro ⟨htakes, rfl, rfl, rfl, rfl⟩
      exact ⟨⟨rfl, rfl⟩, htakes, rfl, rfl⟩
    · rintro ⟨⟨rfl, rfl⟩, htakes, rfl, rfl⟩
      exact ⟨htakes, rfl, rfl, rfl, rfl⟩

/-- A round changes nothing but the state of the process that it takes. -/
theorem schedStartRound_eq (mtime : Word) (he : EntriesOk cfg s) (hlo : cfg.minHartid ≤ hart)
    (hhi : hart ≤ cfg.maxHartid) : (schedStartRound cfg hart mtime).run s =
      .ok (s.taken cfg hart mtime,
        ((s.taken cfg hart mtime).map fun x => s.setState x.proc procStateRunning).getD s) := by
  rw [schedStartRound, Kernel.taken]
  change StateT.run (schedGetProc cfg hart (roundTime cfg mtime) >>= _) s = _
  rw [run_bind_ok (schedGetProc_eq _ he hlo hhi)]
  cases s.upNext cfg hart ((roundTime cfg mtime).toNat % cfg.nQuantum) with
  | none => rfl
  | some x =>
    obtain ⟨p, length⟩ := x
    change StateT.run (readReg p .timeout >>= _) s = _
    rw [run_bind_ok (readReg_run p .timeout s)]
    change StateT.run (if (s.procs p).regs .timeout ≥ endTime cfg (roundTime cfg mtime) length
      then _ else _) s = _
    by_cases hlate : (s.procs p).regs .timeout ≥ endTime cfg (roundTime cfg mtime) length
    · have hnot : ¬ s.Takes cfg (roundTime cfg mtime) p length := fun h =>
        BitVec.not_lt.mpr hlate h.1
      rw [if_pos hlate]
      simp only [if_neg hnot]
      rfl
    · rw [if_neg hlate]
      by_cases hst : (s.procs p).state = procStateReady
      · have htakes : s.Takes cfg (roundTime cfg mtime) p length := ⟨BitVec.not_le.mp hlate, hst⟩
        simp only [if_pos htakes]
        exact (run_bind_ok (casState_run_of_eq hst) _).trans rfl
      · have hnot : ¬ s.Takes cfg (roundTime cfg mtime) p length := fun h => hst h.2
        simp only [if_neg hnot]
        exact (run_bind_ok (casState_run_of_ne hst) _).trans rfl

/-- The step of a hart that waits in the scheduler. -/
theorem step_schedule_eq (mtime : Word) (he : EntriesOk cfg st.kernel)
    (hlo : cfg.minHartid ≤ hart) (hhi : hart ≤ cfg.maxHartid) (hcur : st.current hart = none) :
    step cfg (.schedule hart mtime) st = some (match st.kernel.taken cfg hart mtime with
      | none => .ok st
      | some x => dispatch cfg st hart x (st.kernel.setState x.proc procStateRunning)) := by
  rw [step, if_pos ⟨hlo, hhi, hcur⟩, schedStartRound_eq mtime he hlo hhi]
  cases st.kernel.taken cfg hart mtime <;> rfl

/-! ## Entering -/

/-- The hart has entered a process. -/
def System.enter (cfg : Config) (s : System) (h : Nat) (x : Dispatched) (pmp : PmpRegs)
    (k : Kernel) : System where
  kernel := k
  harts := Function.update s.harts h
    ⟨some x.proc, pmp, (waitAndSetTimeout cfg x.time x.length x.timeout).2⟩

/-- The end of a round always enters the process, and loads its frames if the platform has any
    protection. -/
theorem dispatch_eq (cfg : Config) (st : System) (hart : Nat) (x : Dispatched) (k : Kernel) :
    ∃ pmp, dispatch cfg st hart x k = .ok (st.enter cfg hart x pmp k) ∧
      (cfg.memoryProtection = true → (procLoadPmp cfg x.proc).run k = .ok (pmp, k)) := by
  unfold dispatch
  by_cases hm : cfg.memoryProtection = true
  · obtain ⟨pmp, hpmp⟩ := procLoadPmp_run cfg k x.proc
    rw [if_pos hm, hpmp]
    exact ⟨pmp, rfl, fun _ => rfl⟩
  · rw [if_neg hm]
    exact ⟨_, rfl, fun h => absurd h hm⟩

theorem enter_current_same {x : Dispatched} {pmp : PmpRegs} :
    (st.enter cfg hart x pmp k).current hart = some x.proc := by
  simp [System.enter, System.current]

/-- Entering a process is a matter of one hart. -/
theorem enter_harts_of_ne {x : Dispatched} {pmp : PmpRegs} {h' : Nat} (hh : h' ≠ hart) :
    (st.enter cfg hart x pmp k).harts h' = st.harts h' := Function.update_of_ne hh _ _

/-- What a hart that waits does in a round. -/
theorem step_schedule_cases (hg : st.Good cfg) (hs : Step cfg st (.schedule hart mtime) st') :
    cfg.minHartid ≤ hart ∧ hart ≤ cfg.maxHartid ∧ st.current hart = none ∧
      (st.kernel.taken cfg hart mtime = none ∧ st' = st ∨
        ∃ x pmp, st.kernel.taken cfg hart mtime = some x ∧
          st' = st.enter cfg hart x pmp (st.kernel.setState x.proc procStateRunning)) := by
  by_cases hin : cfg.minHartid ≤ hart ∧ hart ≤ cfg.maxHartid ∧ st.current hart = none
  · refine ⟨hin.1, hin.2.1, hin.2.2, ?_⟩
    rw [Step, step_schedule_eq mtime hg.kernel.entries hin.1 hin.2.1 hin.2.2] at hs
    replace hs := Option.some.inj hs
    cases htaken : st.kernel.taken cfg hart mtime with
    | none =>
      rw [htaken] at hs
      exact Or.inl ⟨rfl, (Except.ok.inj hs).symm⟩
    | some x =>
      rw [htaken] at hs
      obtain ⟨pmp, hdisp, -⟩ := dispatch_eq cfg st hart x
        (st.kernel.setState x.proc procStateRunning)
      exact Or.inr ⟨x, pmp, rfl, (Except.ok.inj (hdisp.symm.trans hs)).symm⟩
  · rw [Step, step, if_neg hin] at hs
    cases hs

/-- A hart that has entered a process in a round has loaded its frames. -/
theorem step_schedule_pmp (hg : st.Good cfg) (hm : cfg.memoryProtection = true)
    (hs : Step cfg st (.schedule hart mtime) st') (hcur : st'.current hart = some p) :
    (procLoadPmp cfg p).run st'.kernel = .ok ((st'.harts hart).pmp, st'.kernel) := by
  obtain ⟨hlo, hhi, hnone, hcases⟩ := step_schedule_cases hg hs
  rcases hcases with ⟨-, rfl⟩ | ⟨x, -, htaken, -⟩
  · cases hnone.symm.trans hcur
  · rw [Step, step_schedule_eq mtime hg.kernel.entries hlo hhi hnone, htaken] at hs
    obtain ⟨pmp, hdisp, hpmp⟩ := dispatch_eq cfg st hart x (st.kernel.setState x.proc procStateRunning)
    obtain rfl := Except.ok.inj (hdisp.symm.trans (Option.some.inj hs))
    obtain rfl : x.proc = p := Option.some.inj (enter_current_same.symm.trans hcur)
    have hloaded : ((st.enter cfg hart x pmp (st.kernel.setState x.proc procStateRunning)).harts
        hart).pmp = pmp := by
      simp [System.enter]
    rw [hloaded]
    exact hpmp hm

end SepKernel
