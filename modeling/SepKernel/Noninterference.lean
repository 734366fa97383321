import SepKernel.Lib.Unwinding
import SepKernel.Rounds
import SepKernel.Views

/-!
# Noninterference

Separated domains do not learn of each other. A domain takes part in a run with the traps of its
processes and with the rounds of the scheduler in its quanta. What it sees of the system at the end
of a run is what it would see had nothing else happened: no step of another domain changes anything
it sees, makes a step of its own impossible, or has an influence on what such a step does.
-/

namespace SepKernel

open Transition (Reachable exec)
open Unwinding (Unwinds seen)

variable {κ : Type} {dom : Resource → κ} {d : κ} {cfg : Config} {s t k k' : Kernel}
  {st st' st'' other : System} {l : Label} {h p q quantum : Nat} {user : Reg → Word}
  {mtime mcause mtval length : Word} {out : Outcome}

/-! ## What a domain sees of the system -/

/-- The registers of a hart for memory protection count if the kernel is built to set them. -/
structure Hart.Alike (cfg : Config) (x y : Hart) : Prop where
  current : x.current = y.current
  pmp : cfg.memoryProtection = true → x.pmp = y.pmp
  mtimecmp : x.mtimecmp = y.mtimecmp

/-- A domain sees its part of the kernel, and the harts that run a process of it. -/
structure System.Alike (cfg : Config) (dom : Resource → κ) (d : κ) (s t : System) : Prop where
  kernel : s.kernel.Alike cfg dom d t.kernel
  harts : ∀ h p, dom (.process p) = d → s.current h = some p ∨ t.current h = some p →
    (s.harts h).Alike cfg (t.harts h)

/-- The steps that a domain takes part in. -/
def sees [DecidableEq κ] (cfg : Config) (dom : Resource → κ) (d : κ) (s : System) : Label → Bool
  | .ecall h _ | .timer h _ | .exception h _ _ _ =>
    (s.current h).any fun p => dom (.process p) = d
  | .schedule h mtime => dom (.quantum h ((roundTime cfg mtime).toNat % cfg.nQuantum)) = d

/-- No other domain is running. -/
def System.Quiet (dom : Resource → κ) (d : κ) (s : System) : Prop :=
  ∀ h p, s.current h = some p → dom (.process p) = d

theorem Hart.Alike.refl (x : Hart) : x.Alike cfg x := ⟨rfl, fun _ => rfl, rfl⟩

theorem Hart.Alike.trans {x y z : Hart} (h : x.Alike cfg y) (h' : y.Alike cfg z) : x.Alike cfg z :=
  ⟨h.current.trans h'.current, fun hm => (h.pmp hm).trans (h'.pmp hm), h.mtimecmp.trans h'.mtimecmp⟩

theorem Hart.Alike.symm {x y : Hart} (h : x.Alike cfg y) : y.Alike cfg x :=
  ⟨h.current.symm, fun hm => (h.pmp hm).symm, h.mtimecmp.symm⟩

theorem Kernel.Alike.refl (s : Kernel) : s.Alike cfg dom d s :=
  ⟨fun _ _ => rfl, fun _ _ _ => Iff.rfl, fun _ _ _ => rfl, fun _ _ _ => rfl, fun _ _ _ _ => rfl⟩

theorem Kernel.Alike.symm (h : s.Alike cfg dom d t) : t.Alike cfg dom d s where
  procs p hp := (h.procs p hp).symm
  live p i hp := (h.live p i hp).symm
  caps p i hp := (h.caps p i hp).symm
  receivers ch k hch := (h.receivers ch k hch).symm
  schedule h₀ q hlo hq := (h.schedule h₀ q hlo hq).symm

theorem Kernel.Alike.trans {u : Kernel} (h : s.Alike cfg dom d t) (h' : t.Alike cfg dom d u) :
    s.Alike cfg dom d u where
  procs p hp := (h.procs p hp).trans (h'.procs p hp)
  live p i hp := (h.live p i hp).trans (h'.live p i hp)
  caps p i hp := (h.caps p i hp).trans (h'.caps p i hp)
  receivers ch k hch := (h.receivers ch k hch).trans (h'.receivers ch k hch)
  schedule h₀ q hlo hq := (h.schedule h₀ q hlo hq).trans (h'.schedule h₀ q hlo hq)

namespace System.Alike

theorem refl (s : System) : s.Alike cfg dom d s := ⟨.refl _, fun _ _ _ _ => .refl _⟩

theorem trans (h : st.Alike cfg dom d st') (h' : st'.Alike cfg dom d st'') :
    st.Alike cfg dom d st'' where
  kernel := h.kernel.trans h'.kernel
  harts h₀ p hp hcur := by
    rcases hcur with hcur | hcur
    · have ha := h.harts h₀ p hp (Or.inl hcur)
      exact ha.trans (h'.harts h₀ p hp (Or.inl (ha.current.symm.trans hcur)))
    · have ha := h'.harts h₀ p hp (Or.inr hcur)
      exact (h.harts h₀ p hp (Or.inr (ha.current.trans hcur))).trans ha

/-- A hart runs a process of the domain in both or in neither. -/
theorem current (ha : st.Alike cfg dom d st') (hp : dom (.process p) = d) :
    st.current h = some p ↔ st'.current h = some p :=
  ⟨fun hcur => (ha.harts h p hp (Or.inl hcur)).current.symm.trans hcur,
    fun hcur => (ha.harts h p hp (Or.inr hcur)).current.trans hcur⟩

/-- All harts but one are as they were, and that one is not the domain's, before and after. -/
theorem of_hart (hk : st.kernel.Alike cfg dom d st'.kernel)
    (hne : ∀ h', h' ≠ h → st.harts h' = st'.harts h')
    (hst : ∀ p, st.current h = some p → dom (.process p) ≠ d)
    (hst' : ∀ p, st'.current h = some p → dom (.process p) ≠ d) : st.Alike cfg dom d st' where
  kernel := hk
  harts h' p hp hcur := by
    by_cases hh : h' = h
    · subst hh
      rcases hcur with hcur | hcur
      · exact absurd hp (hst p hcur)
      · exact absurd hp (hst' p hcur)
    · rw [hne h' hh]
      exact .refl _

theorem symm (h : st.Alike cfg dom d st') : st'.Alike cfg dom d st :=
  ⟨h.kernel.symm, fun h₀ p hp hcur => (h.harts h₀ p hp hcur.symm).symm⟩

/-- The handlers have ended in the same way on a hart of the domain. -/
theorem finish (ha : st.Alike cfg dom d st') (hk : k.Alike cfg dom d k') :
    (st.finish h out k).Alike cfg dom d (st'.finish h out k') := by
  cases out with
  | ret code => exact ⟨hk, ha.harts⟩
  | yielded =>
    refine ⟨hk, fun h' q hq hcur' => ?_⟩
    rw [finish_yielded_current, finish_yielded_current] at hcur'
    by_cases hh : h' = h
    · rw [if_pos hh, if_pos hh] at hcur'
      rcases hcur' with hcur' | hcur' <;> cases hcur'
    · rw [if_neg hh, if_neg hh] at hcur'
      simp only [System.finish, Function.update_of_ne hh]
      exact ha.harts h' q hq hcur'

end System.Alike

/-! ## Steps that are not seen -/

/-- A kernel with the same tables looks the same, if the processes do. -/
theorem SameCaps.alike (h : SameCaps cfg s t) (hr : ∀ ch, t.receivers ch 1 = s.receivers ch 1)
    (hprocs : ∀ q, dom (.process q) = d → t.procs q = s.procs q) : t.Alike cfg dom d s where
  procs := hprocs
  live p i _ := h.live
  caps p i _ := congrFun h.caps _
  receivers ch k _ :=
    match k with
    | 0 => h.receivers ch
    | 1 => hr ch
  schedule h' q _ _ := by rw [h.schedule]

/-- Whom the hook is called with in a call of another domain is not of this one. -/
theorem assigned_unseen {c : Capability} (hsep : st.kernel.Separated cfg dom)
    (hcall : Calls st l p user) (hp : dom (.process p) ≠ d)
    (ho : (stepOp cfg st l).assigned st.kernel.held = some (q, c)) : dom (.process q) ≠ d := by
  have hreach : (stepOp cfg st l).Reaches q := by
    cases hop : stepOp cfg st l with
    | derive pid i j c' =>
      rw [hop] at ho
      exact (Prod.mk.inj (Option.some.inj ho)).1.symm
    | transfer srcPid i destPid j =>
      rw [hop] at ho
      exact Or.inr (Prod.mk.inj (Option.some.inj ho)).1.symm
    | _ =>
      rw [hop] at ho
      cases ho
  obtain ⟨p', user', hcall', hreq⟩ := stepOp_request hreach
  obtain ⟨rfl, rfl⟩ := hcall.unique hcall'
  exact fun hq => hp ((hsep.acts (hreq.acts hreach)).symm.trans hq)

/-- A call of another domain's process is not seen. -/
theorem call_unseen (hg : st.Good cfg) (hsep : st.kernel.Separated cfg dom)
    (hs : Step cfg st l st') (hcall : Calls st l p user) (hp : dom (.process p) ≠ d) :
    st'.kernel.Alike cfg dom d st.kernel := by
  have hact : ∀ q, dom (.process q) = d → ¬ Acts cfg st.kernel p user q := fun q hq ha =>
    hp ((hsep.acts ha).symm.trans hq)
  have hassigned : ∀ q c x, (stepOp cfg st l).assigned st.kernel.held = some (q, c) →
      x ∈ c.reach → dom x ≠ d := fun q c x ho hx hd => by
    have hdom := HeldWithin.assigned hsep.held reach_divided (step_held hg hs).1 (stays_of_separated hsep) ho x hx
    exact assigned_unseen hsep hcall hp ho (hdom.symm.trans hd)
  refine {
    procs := fun q hq => call_sameProc hg hs hcall (hact q hq)
    live := fun q i hq => (call_sameSlots hg hs hcall (hact q hq)).live i
    caps := fun q i hq => (call_sameSlots hg hs hcall (hact q hq)).caps i
    receivers := fun ch k hch => ?_
    schedule := fun h' q hlo hq => ?_ }
  · match k with
    | 0 =>
      rcases (step_writes_receives hg hs).cases_mem (r := ch) trivial with hsame | ⟨q, c, ho, hc, -⟩
      · exact hsame
      · exact absurd hch (hassigned q c _ ho (channel_mem_reach hc))
    | 1 =>
      rcases step_replies hg hs ch with hsame | ⟨-, hart, user', p', rfl, hcur, hreply, -⟩
      · exact hsame
      · obtain ⟨rfl, rfl⟩ := hcall.unique ⟨hart, rfl, hcur⟩
        obtain ⟨-, ⟨g, hinv⟩, -⟩ := replyTo_some hreply
        -- who enters itself as a client holds a capability for the channel
        have hreach : .channel ch ∈ (invoked cfg st.kernel p' user').reach := by
          rw [hinv]
          exact rfl
        exact absurd ((hsep.invoked _ hreach).symm.trans hch) hp
  · rw [(step_tables hg hs).1, CapOp.onTables]
    cases ho : (stepOp cfg st l).assigned st.kernel.held with
    | none => rfl
    | some pc =>
      obtain ⟨q', c⟩ := pc
      refine assign_schedule_of_not_mem hlo (step_assigned hg hs ho).2.1 fun hmem => ?_
      exact hassigned q' c _ ho (quantum_mem_reach hmem) hq

/-- A process that is up for a hart is in the domain of the quantum. -/
theorem dom_of_upNext (hsep : s.Separated cfg dom) (hlo : cfg.minHartid ≤ h)
    (hhi : h ≤ cfg.maxHartid) (hq : quantum < cfg.nQuantum)
    (hup : s.upNext cfg h quantum = some (p, length)) :
    dom (.process p) = dom (.quantum h quantum) := by
  rw [Kernel.upNext] at hup
  split at hup
  · cases hup
  · next hvalid =>
    obtain ⟨rfl, -⟩ := Prod.mk.inj (Option.some.inj hup)
    exact hsep.schedule h quantum _ ⟨hlo, hhi, hq⟩ (if_neg (not_or.mp hvalid).1)

/-- Nor is a round for another domain's quantum. -/
theorem schedule_unseen (hg : st.Good cfg) (hsep : st.kernel.Separated cfg dom)
    (hs : Step cfg st (.schedule h mtime) st')
    (hd : dom (.quantum h ((roundTime cfg mtime).toNat % cfg.nQuantum)) ≠ d) :
    st'.Alike cfg dom d st := by
  obtain ⟨hlo, hhi, hcur, ⟨-, rfl⟩ | ⟨x, pmp, htaken, rfl⟩⟩ := step_schedule_cases hg hs
  · exact .refl _
  have hx : dom (.process x.proc) ≠ d := fun hx => hd <| by
    rw [← hx]
    exact (dom_of_upNext hsep hlo hhi (Nat.mod_lt _ cfg.nQuantum_pos)
      (taken_eq_some.mp htaken).1).symm
  refine .of_hart (h := h) ?_ (fun h' hh => enter_harts_of_ne hh) (fun p hp => ?_) fun p hp => ?_
  · exact SameCaps.alike (.setState _) (fun _ => rfl) fun q hq =>
      Kernel.procs_setState_of_ne _ fun e => hx (e ▸ hq)
  · rw [enter_current_same] at hp
    exact Option.some.inj hp ▸ hx
  · rw [hcur] at hp
    cases hp

/-- The step of a hart that runs a process leaves the harts of other domains alone. -/
theorem finish_unseen (hk : k.Alike cfg dom d st.kernel) (hcur : st.current h = some p)
    (hp : dom (.process p) ≠ d) : (st.finish h out k).Alike cfg dom d st := by
  have hne : ∀ q, st.current h = some q → dom (.process q) ≠ d := fun q hq =>
    Option.some.inj (hcur.symm.trans hq) ▸ hp
  refine .of_hart (h := h) ?_ (fun h' hh => ?_) (fun q hq => hne q (finish_current hq)) hne
  · rw [finish_kernel]
    exact hk
  · cases out with
    | ret code => rfl
    | yielded => exact Function.update_of_ne hh _ _

/-- Nor what an exception does to its registers. -/
theorem OwnRegs.alike (h : OwnRegs cfg p s t) (hp : dom (.process p) ≠ d) :
    t.Alike cfg dom d s :=
  h.same.alike h.replies fun q hq => h.others q fun e => hp (e ▸ hq)

/-- What a domain does not take part in changes nothing that it sees. -/
theorem step_unseen [DecidableEq κ] (hg : st.Good cfg) (hsep : st.kernel.Separated cfg dom)
    (hs : Step cfg st l st') (hsees : sees cfg dom d st l = false) : st'.Alike cfg dom d st := by
  have hother : ∀ {h p}, st.current h = some p →
      ((st.current h).any fun p => decide (dom (.process p) = d)) = false →
      dom (.process p) ≠ d := fun hcur hany => by
    rw [hcur] at hany
    exact of_decide_eq_false hany
  cases step_effect hg hs with
  | call hcur hrun heff =>
    have hp := hother hcur hsees
    have hk := call_unseen hg hsep hs ⟨_, rfl, hcur⟩ hp
    rw [finish_kernel] at hk
    exact finish_unseen hk hcur hp
  | timer hcur hown =>
    have hp := hother hcur hsees
    refine finish_unseen ?_ hcur hp
    refine .trans (SameCaps.alike (.setState _) (fun _ => rfl) fun q hq => ?_) (hown.alike hp)
    exact Kernel.procs_setState_of_ne _ fun e => hp (e ▸ hq)
  | exception hcur hown =>
    have hp := hother hcur hsees
    exact ⟨hown.alike hp, fun _ _ _ _ => .refl _⟩
  | idle => exact .refl _
  | dispatch => exact schedule_unseen hg hsep hs (of_decide_eq_false hsees)

/-! ## Steps that are seen -/

theorem Kernel.Alike.entryAt (h : s.Alike cfg dom d t) {hart : Nat} (hlo : cfg.minHartid ≤ hart)
    (hd : dom (.quantum hart quantum) = d) :
    s.entryAt cfg quantum hart = t.entryAt cfg quantum hart :=
  congrArg SchedEntry.unpack (h.schedule hart quantum hlo hd)

/-- A hart that has a process of the domain in a quantum has it in both. -/
theorem Kernel.Alike.entry_pid {hart : Nat} {pid : Word} (h : s.Alike cfg dom d t)
    (hsep : s.Separated cfg dom) (hx : ScheduleIndex cfg hart quantum) (hpid : pid ≠ invalidPid)
    (hd : dom (.process pid.toNat) = d) (he : (s.entryAt cfg quantum hart).pid = pid) :
    (t.entryAt cfg quantum hart).pid = pid := by
  have hto : s.scheduledTo cfg (hart, quantum) = some pid.toNat := by
    rw [Kernel.scheduledTo, he, if_neg hpid]
  rw [← h.entryAt hx.1 ((hsep.schedule hart quantum _ hx hto).symm.trans hd), he]

/-- Who is up next in a quantum of the domain is up next in both states. -/
theorem upNext_alike (ha : s.Alike cfg dom d t) (hs : s.Separated cfg dom)
    (ht : t.Separated cfg dom) (hx : ScheduleIndex cfg h quantum)
    (hd : dom (.quantum h quantum) = d) : s.upNext cfg h quantum = t.upNext cfg h quantum := by
  have hent := ha.entryAt hx.1 hd
  rw [Kernel.upNext, Kernel.upNext, hent]
  by_cases hinv : (t.entryAt cfg quantum h).pid = invalidPid
  · simp only [hinv, true_or, if_true]
  · have hto : s.scheduledTo cfg (h, quantum) = some (t.entryAt cfg quantum h).pid.toNat := by
      rw [Kernel.scheduledTo, hent, if_neg hinv]
    have hp := (hs.schedule h quantum _ hx hto).trans hd
    -- only entries of the domain can name the process
    have hpre : (∃ i ∈ List.range' cfg.minHartid (h - cfg.minHartid),
          (s.entryAt cfg quantum i).pid = (t.entryAt cfg quantum h).pid) ↔
        ∃ i ∈ List.range' cfg.minHartid (h - cfg.minHartid),
          (t.entryAt cfg quantum i).pid = (t.entryAt cfg quantum h).pid := by
      refine exists_congr fun i => and_congr_right fun hi => ?_
      obtain ⟨j, hj, rfl⟩ := List.mem_range'.mp hi
      have hix : ScheduleIndex cfg (cfg.minHartid + 1 * j) quantum := by
        obtain ⟨hlo, hhi, hq⟩ := hx
        exact ⟨by omega, by omega, hq⟩
      exact ⟨ha.entry_pid hs hix hinv hp, ha.symm.entry_pid ht hix hinv hp⟩
    simp only [hpre]

/-- So is who is taken. -/
theorem taken_alike (mtime : Word) (ha : s.Alike cfg dom d t) (hs : s.Separated cfg dom)
    (ht : t.Separated cfg dom) (hlo : cfg.minHartid ≤ h) (hhi : h ≤ cfg.maxHartid)
    (hd : dom (.quantum h ((roundTime cfg mtime).toNat % cfg.nQuantum)) = d) :
    s.taken cfg h mtime = t.taken cfg h mtime := by
  have hq : (roundTime cfg mtime).toNat % cfg.nQuantum < cfg.nQuantum :=
    Nat.mod_lt _ cfg.nQuantum_pos
  have hup := upNext_alike ha hs ht ⟨hlo, hhi, hq⟩ hd
  simp only [Kernel.taken, hup]
  cases hnext : t.upNext cfg h ((roundTime cfg mtime).toNat % cfg.nQuantum) with
  | none => rfl
  | some x =>
    obtain ⟨p, length⟩ := x
    have hp := (dom_of_upNext ht hlo hhi hq hnext).trans hd
    have htakes : s.Takes cfg (roundTime cfg mtime) p length ↔
        t.Takes cfg (roundTime cfg mtime) p length := by
      rw [Kernel.Takes, Kernel.Takes, ha.procs p hp]
    simp only [htakes, ha.procs p hp]

/-- Two states that look the same are twins for the calls of the domain. -/
theorem twins_of_good (hg : st.Good cfg) (hg' : st'.Good cfg)
    (ha : st.Alike cfg dom d st') : Twins cfg dom d st.kernel st'.kernel :=
  ⟨ha.kernel, hg.kernel.lists, hg'.kernel.lists⟩

/-- The hart enters the same process in both, with the same registers for memory protection. -/
theorem dispatch_alike {x : Dispatched} (ha : st.Alike cfg dom d other)
    (hk : Twins cfg dom d k k') (hx : dom (.process x.proc) = d)
    (hs : dispatch cfg st h x k = .ok st') : ∃ other' pmp, dispatch cfg other h x k' = .ok other' ∧
      other' = other.enter cfg h x pmp k' ∧ st'.Alike cfg dom d other' := by
  obtain ⟨pmp, hdisp, hpmp⟩ := dispatch_eq cfg st h x k
  obtain ⟨pmp', hdisp', hpmp'⟩ := dispatch_eq cfg other h x k'
  obtain rfl := Except.ok.inj (hdisp.symm.trans hs)
  have hsame : cfg.memoryProtection = true → pmp = pmp' := fun hm => by
    obtain ⟨k₁, hrun, -⟩ := (hk.procLoadPmp hx).ok_left (hpmp hm)
    exact (Prod.mk.inj (Except.ok.inj (hrun.symm.trans (hpmp' hm)))).1
  refine ⟨_, pmp', hdisp', rfl, hk.alike, fun h' p hp hcur => ?_⟩
  by_cases hh : h' = h
  · subst hh
    simp only [System.enter, Function.update_self]
    exact ⟨rfl, hsame, rfl⟩
  · rw [System.current, System.current, enter_harts_of_ne hh, enter_harts_of_ne hh] at hcur
    rw [enter_harts_of_ne hh, enter_harts_of_ne hh]
    exact ha.harts h' p hp hcur

/-- Entering a process of the domain keeps the others out. -/
theorem quiet_enter {x : Dispatched} {pmp : PmpRegs} (hq : st.Quiet dom d)
    (hx : dom (.process x.proc) = d) : (st.enter cfg h x pmp k).Quiet dom d := by
  intro h' p hcur
  by_cases hh : h' = h
  · subst hh
    rw [enter_current_same] at hcur
    exact Option.some.inj hcur ▸ hx
  · rw [System.current, enter_harts_of_ne hh] at hcur
    exact hq h' p hcur

/-- A trap of a process of the domain is handled in both in the same way. -/
theorem trap_shown {m : Nat → KernelM Outcome} (ha : st.Alike cfg dom d other)
    (hq : other.Quiet dom d) (hp : dom (.process p) = d) (hcur : st.current h = some p)
    (hm : TwoRuns.Agrees (Twins cfg dom d) (m p) st.kernel other.kernel)
    (hs : step cfg l st = (st.current h).map fun p => do
      let (out, k) ← (m p).run st.kernel
      return st.finish h out k)
    (ho : step cfg l other = (other.current h).map fun p => do
      let (out, k) ← (m p).run other.kernel
      return other.finish h out k)
    (hstep : Step cfg st l st') : ∃ other', Step cfg other l other' ∧ other'.Quiet dom d ∧
      st'.Alike cfg dom d other' := by
  rw [Step, hs, hcur, Option.map_some] at hstep
  cases hrun : (m p).run st.kernel with
  | error e =>
    rw [hrun] at hstep
    cases hstep
  | ok r =>
    obtain ⟨out, k⟩ := r
    rw [hrun] at hstep
    obtain rfl : st.finish h out k = st' := Except.ok.inj (Option.some.inj hstep)
    obtain ⟨k', hrun', hk⟩ := hm.ok_left hrun
    refine ⟨other.finish h out k', ?_, fun h' q hcur' => hq h' q (finish_current hcur'),
      ha.finish hk.alike⟩
    rw [Step, ho, (ha.current hp).mp hcur, Option.map_some, hrun']
    rfl

/-- An exception of the domain's process does the same in both states. -/
theorem exception_shown (ha : st.Alike cfg dom d other) (hq : other.Quiet dom d)
    (htw : Twins cfg dom d st.kernel other.kernel) (hp : dom (.process p) = d)
    (hcur : st.current h = some p) (hs : Step cfg st (.exception h user mcause mtval) st') :
    ∃ other', Step cfg other (.exception h user mcause mtval) other' ∧ other'.Quiet dom d ∧
      st'.Alike cfg dom d other' := by
  obtain ⟨k, hrun, -⟩ := trapException_run cfg st.kernel p user mcause mtval
  obtain ⟨k', hrun', hk⟩ := (htw.trapException hp user mcause mtval).ok_left hrun
  rw [Step, step, hcur, Option.map_some, hrun] at hs
  obtain rfl : { st with kernel := k } = st' := Except.ok.inj (Option.some.inj hs)
  refine ⟨{ other with kernel := k' }, ?_, hq, hk.alike, ha.harts⟩
  rw [Step, step, (ha.current hp).mp hcur, Option.map_some, hrun']
  rfl

/-- A round for the domain's quantum does the same in both. -/
theorem schedule_shown (hg : st.Good cfg) (hsep : st.kernel.Separated cfg dom)
    (hg' : other.Good cfg) (hsep' : other.kernel.Separated cfg dom) (hq : other.Quiet dom d)
    (ha : st.Alike cfg dom d other) (hs : Step cfg st (.schedule h mtime) st')
    (hd : dom (.quantum h ((roundTime cfg mtime).toNat % cfg.nQuantum)) = d) :
    ∃ other', Step cfg other (.schedule h mtime) other' ∧ other'.Quiet dom d ∧
      st'.Alike cfg dom d other' := by
  by_cases hin : cfg.minHartid ≤ h ∧ h ≤ cfg.maxHartid ∧ st.current h = none
  · obtain ⟨hlo, hhi, hcur⟩ := hin
    -- the hart waits in the other system as well
    have hcur' : other.current h = none := Option.eq_none_iff_forall_ne_some.mpr fun p hp => by
      have hp' := (ha.current (hq h p hp)).mpr hp
      rw [hcur] at hp'
      cases hp'
    have htaken := taken_alike mtime ha.kernel hsep hsep' hlo hhi hd
    have hstep' := step_schedule_eq mtime hg'.kernel.entries hlo hhi hcur'
    rw [Step, step_schedule_eq mtime hg.kernel.entries hlo hhi hcur, htaken] at hs
    replace hs := Option.some.inj hs
    cases hx : other.kernel.taken cfg h mtime with
    | none =>
      rw [hx] at hs hstep'
      obtain rfl := Except.ok.inj hs
      exact ⟨other, hstep', hq, ha⟩
    | some x =>
      rw [hx] at hs hstep'
      have hdom : dom (.process x.proc) = d := (dom_of_upNext hsep' hlo hhi
        (Nat.mod_lt _ cfg.nQuantum_pos) (taken_eq_some.mp hx).1).trans hd
      obtain ⟨other', pmp, hdisp, rfl, ha'⟩ := dispatch_alike ha
        ((twins_of_good hg hg' ha).setState hdom procStateRunning) hdom hs
      exact ⟨_, hstep'.trans (congrArg some hdisp), quiet_enter hq hdom, ha'⟩
  · rw [Step, step, if_neg hin] at hs
    cases hs

/-- What a domain takes part in can happen in a system that looks alike to it too, and then the
    two look alike again. -/
theorem step_shown [DecidableEq κ] (hg : st.Good cfg) (hsep : st.kernel.Separated cfg dom)
    (hg' : other.Good cfg) (hsep' : other.kernel.Separated cfg dom) (hq : other.Quiet dom d)
    (ha : st.Alike cfg dom d other) (hsees : sees cfg dom d st l = true)
    (hs : Step cfg st l st') : ∃ other', Step cfg other l other' ∧ other'.Quiet dom d ∧
      st'.Alike cfg dom d other' := by
  have htw := twins_of_good hg hg' ha
  cases l with
  | schedule h mtime => exact schedule_shown hg hsep hg' hsep' hq ha hs (of_decide_eq_true hsees)
  | ecall h user =>
    obtain ⟨p, hcur, hp⟩ := (Option.any_eq_true _ _).mp hsees
    replace hp := of_decide_eq_true hp
    have htime := (ha.harts h p hp (Or.inl hcur)).mtimecmp
    refine trap_shown (m := fun p => trapSyscall cfg p (st.harts h).mtimecmp user) ha hq hp hcur
      (htw.trapSyscall hp hsep _ user) rfl ?_ hs
    rw [step, htime]
  | timer h user =>
    obtain ⟨p, hcur, hp⟩ := (Option.any_eq_true _ _).mp hsees
    replace hp := of_decide_eq_true hp
    exact trap_shown (m := fun p => trapTimer p user) ha hq hp hcur (htw.trapTimer hp user) rfl rfl
      hs
  | exception h user mcause mtval =>
    obtain ⟨p, hcur, hp⟩ := (Option.any_eq_true _ _).mp hsees
    exact exception_shown ha hq htw (of_decide_eq_true hp) hcur hs

/-! ## Runs -/

/-- The conditions on one step, for a domain. -/
theorem unwinds [DecidableEq κ] (cfg : Config) (dom : Resource → κ) (d : κ) :
    Unwinds (stepOk cfg) (sees cfg dom d)
      (fun s => s.Good cfg ∧ s.kernel.Separated cfg dom) (System.Quiet dom d)
      (System.Alike cfg dom d) where
  keeps _ _ _ hs hl :=
    have hl := stepOk_eq_some.mp hl
    ⟨step_good hs.1 hl, step_separated hs.1 hs.2 hl⟩
  hidden _ _ _ _ hs _ ha hsees hl :=
    (step_unseen hs.1 hs.2 (stepOk_eq_some.mp hl) hsees).trans ha
  shown _ _ _ _ hs ht hq ha hsees hl :=
    let ⟨t', hl', hq', ha'⟩ := step_shown hs.1 hs.2 ht.1 ht.2 hq ha hsees (stepOk_eq_some.mp hl)
    ⟨t', stepOk_eq_some.mpr hl', hq', ha'⟩

/-- A run of separated domains looks to each of them like the run of the steps it takes part in,
    and that run is possible without the others. -/
theorem noninterference [DecidableEq κ] {ls : List Label}
    (hr : Reachable (Booted cfg) (Step cfg) st) (hsep : st.kernel.Separated cfg dom)
    (hr' : Reachable (Booted cfg) (Step cfg) other) (hsep' : other.kernel.Separated cfg dom)
    (hq : other.Quiet dom d) (ha : st.Alike cfg dom d other)
    (hrun : exec (stepOk cfg) ls st = some st') :
    ∃ other', exec (stepOk cfg) (seen (stepOk cfg) (sees cfg dom d) ls st) other = some other' ∧
      st'.Alike cfg dom d other' :=
  (unwinds cfg dom d).run ⟨good_of_reachable (fun _ => Booted.root) hr, hsep⟩
    ⟨good_of_reachable (fun _ => Booted.root) hr', hsep'⟩ hq ha hrun

/-- Where the hart of the root process waits. -/
def virtSplitIdle : System := virtSplit.after .virt [.timer 1 (callRegs 0 0 0 0 0 0 0)]

/-- The root process gives its hart back. -/
theorem virtSplit_timer :
    Step .virt virtSplit (.timer 1 (callRegs 0 0 0 0 0 0 0)) virtSplitIdle :=
  after_step (by decide +kernel)

/-- No process of another domain is running. -/
theorem quiet_of_states (hg : st.Good cfg)
    (h : ∀ p < cfg.nProc, Running (st.kernel.procs p).state → dom (.process p) = d) :
    st.Quiet dom d := fun h' p hcur =>
  have hp := hg.current h' p hcur
  h p hp.1 hp.2

/-- Process 1 has its share of the run, whatever the root process does. -/
theorem virtSplitRun_noninterference : ∃ st' other',
    exec (stepOk .virt) virtSplitRun virtSplit = some st' ∧
      exec (stepOk .virt) (seen (stepOk .virt) (sees .virt virtDomain true) virtSplitRun virtSplit)
        virtSplitIdle = some other' ∧ st'.Alike .virt virtDomain true other' := by
  have hr : Reachable (Booted .virt) (Step .virt) virtSplit := virtAfter_reachable _
  have hr' : Reachable (Booted .virt) (Step .virt) virtSplitIdle := hr.step virtSplit_timer
  have hunseen : sees .virt virtDomain true virtSplit (.timer 1 (callRegs 0 0 0 0 0 0 0)) = false := by
    decide +kernel
  have halike := step_unseen (good_of_reachable (fun _ => Booted.root) hr) virtSplit_separated
    virtSplit_timer hunseen
  obtain ⟨st', hrun⟩ : ∃ st', exec (stepOk .virt) virtSplitRun virtSplit = some st' :=
    Option.isSome_iff_exists.mp (by decide +kernel)
  obtain ⟨other', hrun', ha⟩ := noninterference hr virtSplit_separated hr'
    (step_separated (good_of_reachable (fun _ => Booted.root) hr) virtSplit_separated
      virtSplit_timer) (quiet_of_states (good_of_reachable (fun _ => Booted.root) hr')
        (by decide +kernel)) halike.symm hrun
  exact ⟨st', other', hrun, hrun', ha⟩

end SepKernel
