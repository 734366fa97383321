import SepKernel.Rounds

/-!
# Who gets a quantum

A round of the scheduler in a quantum goes by the entries of the quantum alone, and these are the
holders of the time: whoever holds a quantum of a hart is in its entry, whatever was deleted before,
and is dispatched in it if it is ready. A process that no capability entitles to the quantum is
dispatched in it only where nobody holds the quantum any more. No process gets two harts in one
quantum.
-/

namespace SepKernel

open Exclusive (Excl)
open OwnerTable (Names)
open Transition (Reachable Steps)

variable {cfg : Config} {s : Kernel} {st st' : System} {l : Label} {p q h h' quantum : Nat}
  {mtime length length' : Word} {x : Dispatched}

/-! ## Entries and holders -/

/-- Whoever holds a quantum is in its entry. -/
theorem scheduled_of_holds (hr : Reachable (Booted cfg) (Step cfg) st) (hx : ScheduleIndex cfg h q)
    (n : NodeRef) (hn : (h, q) ∈ (st.kernel.held n).quanta) :
    st.kernel.scheduledTo cfg (h, q) = some n.proc := by
  have hI := hr.invariant (I := fun s => s.Good cfg ∧ Excl (fun n => (s.kernel.held n).owned) ∧
    Names {x | ScheduleIndex cfg x.1 x.2} NodeRef.proc (fun n => (s.kernel.held n).quanta)
      (s.kernel.scheduledTo cfg)) (fun s hs => ?_) fun s l s' hI hl => ?_
  · exact hI.2.2 (h, q) hx n hn
  · obtain ⟨rootPayload, hb⟩ := hs.state
    exact ⟨hs.root.good, hs.root.exclusive, (OwnerTable.tracks_iff.mp hb.tracks).1⟩
  · obtain ⟨hg, hex, hnames⟩ := hI
    obtain ⟨he, heq⟩ := step_held hg hl
    rw [heq]
    exact ⟨step_good hg hl, he.excl hex, he.names share_quanta (excl_quanta (he.excl hex))
      (step_writes_quanta hg hl) hnames⟩

/-! ## One process, one hart -/

/-- A process is up for a hart if the entry names it and no lower hart's does. -/
theorem upNext_eq_some : s.upNext cfg h quantum = some (p, length) ↔
    s.scheduledTo cfg (h, quantum) = some p ∧ (s.entryAt cfg quantum h).length = length ∧
      ∀ i ∈ List.range' cfg.minHartid (h - cfg.minHartid),
        (s.entryAt cfg quantum i).pid ≠ (s.entryAt cfg quantum h).pid := by
  rw [Kernel.upNext, Kernel.scheduledTo]
  by_cases hinv : (s.entryAt cfg quantum h).pid = invalidPid
  · simp [hinv]
  · simp only [hinv, false_or, if_false, Option.ite_none_left_eq_some, Option.some.injEq,
      Prod.mk.injEq, not_exists, not_and]
    tauto

/-- The lowest of the harts has it. -/
theorem upNext_unique (hlo : cfg.minHartid ≤ h) (hlo' : cfg.minHartid ≤ h')
    (hup : s.upNext cfg h quantum = some (p, length))
    (hup' : s.upNext cfg h' quantum = some (p, length')) : h = h' := by
  have hpid : ∀ {i}, s.scheduledTo cfg (i, quantum) = some p →
      (s.entryAt cfg quantum i).pid = BitVec.ofNat 64 p := fun hto => by
    rw [Kernel.scheduledTo] at hto
    split at hto
    · cases hto
    · rw [← Option.some.inj hto, BitVec.ofNat_toNat, BitVec.setWidth_eq]
  obtain ⟨hto, -, hbelow⟩ := upNext_eq_some.mp hup
  obtain ⟨hto', -, hbelow'⟩ := upNext_eq_some.mp hup'
  have hsame : (s.entryAt cfg quantum h).pid = (s.entryAt cfg quantum h').pid :=
    (hpid hto).trans (hpid hto').symm
  rcases lt_trichotomy h h' with hlt | heq | hgt
  · exact absurd hsame (hbelow' h (List.mem_range'_1.mpr ⟨hlo, by omega⟩))
  · exact heq
  · exact absurd hsame.symm (hbelow h' (List.mem_range'_1.mpr ⟨hlo', by omega⟩))

/-! ## Rounds -/

/-- In every run, whom a hart enters in a quantum either holds the quantum by a live time
    capability, or nobody does any more; and no other hart has it up in that quantum. -/
theorem dispatched_by_time (hr : Reachable (Booted cfg) (Step cfg) st)
    (hq : (roundTime cfg mtime).toNat % cfg.nQuantum = q)
    (hs : Step cfg st (.schedule h mtime) st') (hcur : st'.current h = some p) :
    ((∃ i, st.kernel.Live (.slot p i) ∧ (st.kernel.caps (.slot p i)).Owns (.quantum h q)) ∨
      ∀ p' i, st.kernel.Live (.slot p' i) →
        ¬ (st.kernel.caps (.slot p' i)).Owns (.quantum h q)) ∧
    ∀ h', cfg.minHartid ≤ h' → (st.kernel.upNext cfg h' q).map Prod.fst = some p → h' = h := by
  subst hq
  have hg := good_of_reachable (fun _ => Booted.root) hr
  obtain ⟨hlo, hhi, hidle, ⟨-, rfl⟩ | ⟨x, pmp, htaken, rfl⟩⟩ := step_schedule_cases hg hs
  · rw [hidle] at hcur
    cases hcur
  rw [enter_current_same] at hcur
  obtain rfl := Option.some.inj hcur
  have hup := (taken_eq_some.mp htaken).1
  have hx : ScheduleIndex cfg h ((roundTime cfg mtime).toNat % cfg.nQuantum) :=
    ⟨hlo, hhi, Nat.mod_lt _ cfg.nQuantum_pos⟩
  refine ⟨?_, fun h' hlo' hup' => ?_⟩
  · by_cases hheld : ∃ n, (h, (roundTime cfg mtime).toNat % cfg.nQuantum) ∈
        (st.kernel.held n).quanta
    · -- its entry names the holder
      obtain ⟨n, hn⟩ := hheld
      have hto := (scheduled_of_holds hr hx n hn).symm.trans (upNext_eq_some.mp hup).1
      exact Or.inl (exists_owns_iff.mpr ⟨n, Option.some.inj hto, hn⟩)
    · refine Or.inr fun p' i hl ho => hheld ?_
      obtain ⟨n, -, hn⟩ := exists_owns_iff.mp ⟨i, hl, ho⟩
      exact ⟨n, hn⟩
  · obtain ⟨⟨p', length⟩, hup', rfl⟩ := Option.map_eq_some_iff.mp hup'
    exact upNext_unique hlo' hlo hup' hup

/-- The quanta of a valid capability are in the table. -/
theorem quanta_index {c : Capability} (hv : c.Valid cfg) (hq : (h, q) ∈ c.quanta) :
    ScheduleIndex cfg h q := by
  cases c with
  | time h' r =>
    obtain ⟨rfl, -, hlt⟩ := hq
    obtain ⟨-, hlo, hhi, hstop⟩ := hv
    exact ⟨hlo, hhi, hlt.trans_le hstop⟩
  | _ => exact absurd hq (Set.notMem_empty _)

/-- In every run, a ready process that holds a quantum of a waiting hart is entered in the
    quantum, unless a hart below has the process in that quantum or its timeout is not before the
    end of its time. The timer is set to that end. -/
theorem holder_dispatched (hr : Reachable (Booted cfg) (Step cfg) st) {i : Nat}
    (hq : (roundTime cfg mtime).toNat % cfg.nQuantum = q)
    (hl : st.kernel.Live (.slot p i)) (ho : (st.kernel.caps (.slot p i)).Owns (.quantum h q))
    (hidle : st.current h = none) (hready : (st.kernel.procs p).state = procStateReady)
    (hbelow : ∀ h', cfg.minHartid ≤ h' → h' < h → st.kernel.scheduledTo cfg (h', q) ≠ some p)
    (htime : (st.kernel.procs p).regs .timeout <
      endTime cfg (roundTime cfg mtime) (st.kernel.entryAt cfg q h).length) :
    ∃ st', Step cfg st (.schedule h mtime) st' ∧ st'.current h = some p ∧
      (st'.harts h).mtimecmp =
        endTime cfg (roundTime cfg mtime) (st.kernel.entryAt cfg q h).length := by
  have hg := good_of_reachable (fun _ => Booted.root) hr
  obtain ⟨n, rfl, hn⟩ := exists_owns_iff.mp ⟨i, hl, ho⟩
  have hne : st.kernel.held n ≠ .other := fun he => by
    rw [he] at hn
    exact Set.notMem_empty _ hn
  have hx := quanta_index (held_valid hg.kernel hne) hn
  have hto := scheduled_of_holds hr hx n hn
  -- no hart below has it, so it is up for this one
  have hup : st.kernel.upNext cfg h q = some (n.proc, (st.kernel.entryAt cfg q h).length) := by
    refine upNext_eq_some.mpr ⟨hto, rfl, fun j hj hsame => ?_⟩
    obtain ⟨hlo, hlt⟩ := List.mem_range'_1.mp hj
    refine hbelow j hlo (by omega) ?_
    rw [Kernel.scheduledTo, hsame]
    exact hto
  have htaken : st.kernel.taken cfg h mtime = some ⟨n.proc, roundTime cfg mtime,
      (st.kernel.entryAt cfg q h).length, (st.kernel.procs n.proc).regs .timeout⟩ :=
    taken_eq_some.mpr ⟨by rw [hq]; exact hup, ⟨htime, hready⟩, rfl, rfl⟩
  have hstep := step_schedule_eq mtime hg.kernel.entries hx.1 hx.2.1 hidle
  rw [htaken] at hstep
  obtain ⟨pmp, hdisp, -⟩ := dispatch_eq cfg st h ⟨n.proc, roundTime cfg mtime,
    (st.kernel.entryAt cfg q h).length, (st.kernel.procs n.proc).regs .timeout⟩
      (st.kernel.setState n.proc procStateRunning)
  refine ⟨_, hstep.trans (congrArg some hdisp), enter_current_same, ?_⟩
  simp only [System.enter, Function.update_self, waitAndSetTimeout_eq]

/-! ## A quantum of process 1 -/

/-- The root process hands process 1 half of the time of the last hart and resumes it. -/
def virtReady : System := virtAfter
  [.schedule 1 0,
    .ecall 1 (callRegs 5 6 11 (capMkTime 4 0 64 0).word0 (capMkTime 4 0 64 0).word1 0 0),
    .ecall 1 (callRegs 6 2 1 6 11 0 0), .ecall 1 (callRegs 6 2 1 1 0 0 0)]

/-- The round before the first quantum, on the last hart. -/
def virtEntered : System := virtReady.after .virt [.schedule 4 0]

/-- Hart 4 enters process 1 in the first quantum. -/
theorem virtReady_dispatched : ∃ st', Step .virt virtReady (.schedule 4 0) st' ∧
    st'.current 4 = some 1 ∧ (st'.harts 4).mtimecmp =
      endTime .virt (roundTime .virt 0) (virtReady.kernel.entryAt .virt 1 4).length := by
  have hbelow : ∀ h' < 4, virtReady.kernel.scheduledTo .virt (h', 1) ≠ some 1 := by
    decide +kernel
  exact holder_dispatched (i := 0) (virtAfter_reachable _) (by decide) (by decide +kernel)
    (by decide +kernel) (by decide +kernel) (by decide +kernel) (fun h' _ hlt => hbelow h' hlt)
    (by decide +kernel)

/-- And process 1 holds it. -/
theorem virtEntered_by_time :
    ((∃ i, virtReady.kernel.Live (.slot 1 i) ∧
        (virtReady.kernel.caps (.slot 1 i)).Owns (.quantum 4 1)) ∨
      ∀ p' i, virtReady.kernel.Live (.slot p' i) →
        ¬ (virtReady.kernel.caps (.slot p' i)).Owns (.quantum 4 1)) ∧
    ∀ h', Config.virt.minHartid ≤ h' →
      (virtReady.kernel.upNext .virt h' 1).map Prod.fst = some 1 → h' = 4 := by
  have hs : Step .virt virtReady (.schedule 4 0) virtEntered := after_step (by decide +kernel)
  exact dispatched_by_time (virtAfter_reachable _) (by decide) hs (by decide +kernel)

end SepKernel
