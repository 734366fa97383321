import SepKernel.Shadow

/-!
# Preemption is transparent

The registers of a process that is preempted are in its control block or on their way there or
back. Following the registers of any set of processes, every step of every hart keeps this, but for
the steps of those processes' own user code, their own calls and exceptions, and the stores of
system calls to their control blocks. So the `mret` that resumes a process finds the registers the
timer interrupt found, whatever the harts have done in between, and nothing else.
-/

namespace SepKernel
namespace Trap

open Transition (Reachable restrict)

variable {lay : Layout} {v : View} {cell cell' : Reg → Word} {x : Hart} {σ : Shadow}
  {i : Instr} {rest : List Instr} {mem mem' : Memory} {pc cause tval : Word} {p q : Nat}
  {r r' : Reg}

/-! ## One hart -/

/-- In `trap.S` a hart is as the shadow execution says. -/
theorem HartOk.asm (h : HartOk v cell x) (hc : x.control = .asm rest) :
    ∃ σ, Shadow.check σ rest = true ∧ Matches v cell x σ := by
  unfold HartOk at h
  rwa [hc] at h

/-- In user code it has what the process had. -/
theorem HartOk.user (h : HartOk v cell x) (hc : x.control = .user pc) :
    x.mscratch = v.ptr ∧ ∀ u ∈ v.user, pc = u .pc ∧ ∀ g, x.gpr g = u g.reg := by
  unfold HartOk at h
  rwa [hc] at h

/-- Behind a call nothing is known of what the C code left, but `tp`. -/
theorem HartOk.handler (h : HartOk v cell x) (hc : x.control = .handler rest) :
    Shadow.returned.check rest = true ∧ v.user = none ∧ x.gpr .tp = v.ptr ∧ x.mscratch = 0 := by
  unfold HartOk at h
  rwa [hc] at h

/-- On the way to the scheduler the context is saved. -/
theorem HartOk.yield (h : HartOk v cell x) (hc : x.control = .yield) :
    x.mscratch = 0 ∧ x.mie = false ∧ ∀ r ∈ userRegs, ∀ u ∈ v.user, cell r = u r := by
  unfold HartOk at h
  rwa [hc] at h

/-- Only the block of a process whose registers are known matters. -/
theorem HartOk.congr (h : HartOk v cell x) (hcell : ∀ u ∈ v.user, ∀ r, cell' r = cell r) :
    HartOk v cell' x := by
  cases hc : x.control with
  | user pc =>
    have huser := h.user hc
    unfold HartOk
    rwa [hc]
  | asm rest =>
    obtain ⟨σ, hcheck, hm⟩ := h.asm hc
    unfold HartOk
    rw [hc]
    refine ⟨σ, hcheck, { hm with saved := fun r hr hs u hu => ?_ }⟩
    rw [hcell u hu r]
    exact hm.saved r hr hs u hu
  | handler rest =>
    have hhandler := h.handler hc
    unfold HartOk
    rwa [hc]
  | yield =>
    obtain ⟨hscratch, hmie, hsaved⟩ := h.yield hc
    unfold HartOk
    rw [hc]
    refine ⟨hscratch, hmie, fun r hr u hu => ?_⟩
    rw [hcell u hu r]
    exact hsaved r hr u hu
  | start =>
    unfold HartOk at h
    rw [hc] at h
    exact h.elim
  | lost =>
    unfold HartOk at h
    rw [hc] at h
    exact h.elim

/-- Whatever else it holds, a hart with the pointer at home and the registers saved. -/
theorem matches_resume (htp : x.gpr .tp = v.ptr) (hscratch : x.mscratch = 0)
    (hsaved : ∀ r ∈ userRegs, ∀ u ∈ v.user, cell r = u r) :
    Matches v cell x { Shadow.kernel with mie := true } where
  gpr := by
    intro g
    by_cases hg : g = .tp
    · subst hg
      exact htp
    · have hany : Function.update (fun _ => Sym.any) Gpr.tp Sym.proc g = .any :=
        Function.update_of_ne hg _ _
      change (Function.update (fun _ => Sym.any) Gpr.tp Sym.proc g).Holds v (x.gpr g)
      rw [hany]
      trivial
  mscratch := hscratch
  mepc := trivial
  mcause := trivial
  saved := fun r hr _ => hsaved r hr
  mie := fun hm => by cases hm
  mppUser := fun hm => by cases hm
  foreign := fun hf => by cases hf

/-- User code traps: with its registers known, it is interrupted. -/
theorem HartOk.trap (h : HartOk v cell x) (hc : x.control = .user pc)
    (hcause : v.user ≠ none → cause.slt 0 = true) (tval : Word) :
    HartOk v cell (x.takeTrap .user pc cause tval) := by
  obtain ⟨hscratch, huser⟩ := h.user hc
  cases hu : v.user with
  | none =>
    -- nothing is claimed of its registers: a call or an exception may be handled
    exact ⟨.fromUser, Shadow.check_fromUser, {
      gpr := fun g u hmem => by rw [hu] at hmem; cases hmem
      mscratch := hscratch
      mepc := fun u hmem => by rw [hu] at hmem; cases hmem
      mcause := trivial
      saved := fun r _ hs => by cases hs
      mie := fun _ => rfl
      mppUser := fun hm => by cases hm
      foreign := fun _ => hu }⟩
  | some u =>
    exact ⟨.interrupted, Shadow.check_interrupted, {
      gpr := fun g u' hmem => (huser u' hmem).2 g
      mscratch := hscratch
      mepc := fun u' hmem => (huser u' hmem).1
      mcause := hcause (by rw [hu]; exact Option.some_ne_none u)
      saved := fun r _ hs => by cases hs
      mie := fun _ => rfl
      mppUser := fun hm => by cases hm
      foreign := fun hf => by cases hf }⟩

/-- The kernel is interrupted. -/
theorem HartOk.timer (h : HartOk v cell x) (hmode : x.inMachineMode = true) (hmie : x.mie = true)
    (pc : Word) : HartOk v cell (x.takeTrap .machine pc timerCause 0) := by
  have hnested : x.gpr .tp = v.ptr → x.mscratch = 0 →
      (∀ r ∈ userRegs, ∀ u ∈ v.user, cell r = u r) →
      HartOk v cell (x.takeTrap .machine pc timerCause 0) := by
    intro htp hscratch hsaved
    have hresume := matches_resume htp hscratch hsaved
    exact ⟨.nested, Shadow.check_nested, {
      gpr := hresume.gpr
      mscratch := hscratch
      mepc := trivial
      mcause := (by decide : timerCause.slt 0 = true)
      saved := hresume.saved
      mie := fun _ => rfl
      mppUser := fun hm => by cases hm
      foreign := fun hf => by cases hf }⟩
  cases hc : x.control with
  | user pc =>
    unfold Hart.inMachineMode at hmode
    rw [hc] at hmode
    cases hmode
  | asm rest =>
    obtain ⟨σ, hcheck, hm⟩ := h.asm hc
    -- the check wants the pointer at home and the registers saved wherever MIE is set
    have hon : σ.mie = true := by
      by_contra hoff
      rw [hm.mie (Bool.eq_false_iff.mpr hoff)] at hmie
      cases hmie
    have hhome : σ.atHome = true := by
      cases rest with
      | nil => cases hcheck
      | cons i rest =>
        simp only [Shadow.check, Bool.and_eq_true] at hcheck
        simpa [hon] using hcheck.1
    obtain ⟨htp, hscratch, hsaved⟩ := hm.of_atHome hhome
    exact hnested htp hscratch hsaved
  | handler rest =>
    -- a system call of a process whose registers are not followed
    obtain ⟨-, hnone, htp, hscratch⟩ := h.handler hc
    refine hnested htp hscratch fun r _ u hu => ?_
    rw [hnone] at hu
    cases hu
  | yield =>
    -- preemption is disabled in `sched_yield`
    rw [(h.yield hc).2.1] at hmie
    cases hmie
  | start =>
    unfold HartOk at h
    rw [hc] at h
    exact h.elim
  | lost =>
    unfold HartOk at h
    rw [hc] at h
    exact h.elim

/-- A called function returns. -/
theorem HartOk.ret (h : HartOk v cell x) (hc : x.control = .handler rest) :
    HartOk v cell { x with control := .asm rest } := by
  obtain ⟨hcheck, hnone, htp, hscratch⟩ := h.handler hc
  have hresume : Matches v cell x { Shadow.kernel with mie := true } :=
    matches_resume htp hscratch fun r _ u hu => by rw [hnone] at hu; cases hu
  have hreturned : Matches v cell x .returned := { hresume with foreign := fun _ => hnone }
  exact ⟨.returned, hcheck, hreturned.setControl _⟩

/-- A process is resumed. -/
theorem hartOk_resume (hc : x.control = .asm trapResumeProc) (htp : x.gpr .tp = v.ptr)
    (hscratch : x.mscratch = 0) (hsaved : ∀ r ∈ userRegs, ∀ u ∈ v.user, cell r = u r) :
    HartOk v cell x := by
  unfold HartOk
  rw [hc]
  exact ⟨_, Shadow.check_entry .trapResumeProc _ rfl, matches_resume htp hscratch hsaved⟩

/-! ## The control blocks -/

/-- The blocks lie one after the other, without a wrap. -/
theorem Layout.toNat_field (lay : Layout) (hp : p < lay.nProc) (r : Reg) :
    (lay.proc p + offset r).toNat =
      lay.processes.toNat + p * (8 * (nRegisters + 5)) + 8 * Reg.all.idxOf r := by
  have hfits := lay.fits
  have hidx := idxOf_lt r
  have hsize : 8 * (nRegisters + 5) = 384 := rfl
  rw [hsize] at hfits ⊢
  -- the last block ends below 2^64, so none of the sums wraps
  have hmul : p * 384 + 384 ≤ lay.nProc * 384 := by
    rw [← Nat.succ_mul]
    exact Nat.mul_le_mul_right 384 hp
  have hproc : (lay.proc p).toNat = lay.processes.toNat + p * 384 := by
    rw [Layout.proc, hsize, BitVec.toNat_add, BitVec.toNat_ofNat, Nat.mod_eq_of_lt (by omega),
      Nat.mod_eq_of_lt (by omega)]
  rw [BitVec.toNat_add, hproc, toNat_offset, Nat.mod_eq_of_lt (by omega)]

/-- Control blocks do not overlap. -/
theorem Layout.field_ne (lay : Layout) (hp : p < lay.nProc) (hq : q < lay.nProc) (hqp : q ≠ p)
    (r r' : Reg) : lay.proc q + offset r ≠ lay.proc p + offset r' := by
  intro he
  have hnat := congrArg BitVec.toNat he
  have hsize : 8 * (nRegisters + 5) = 384 := rfl
  have h1 := idxOf_lt r
  have h2 := idxOf_lt r'
  rw [lay.toNat_field hq, lay.toNat_field hp, hsize] at hnat
  omega

/-- A pointer to a process is not null. -/
theorem Layout.proc_ne_zero (lay : Layout) (hp : p < lay.nProc) : lay.proc p ≠ 0 := by
  intro he
  have hnat := lay.toNat_field hp .pc
  have hoffset : offset .pc = 0 := rfl
  have hpos : lay.processes.toNat ≠ 0 := fun h => lay.processes_ne (BitVec.eq_of_toNat_eq h)
  rw [he, hoffset] at hnat
  change 0 = _ at hnat
  omega

/-- A process as its hart sees it, when the registers of the processes in `track` are known. -/
def Layout.view (lay : Layout) (track : Nat → Option (Reg → Word)) (hp : p < lay.nProc) : View :=
  ⟨lay.proc p, lay.proc_ne_zero hp, track p⟩

theorem exec_holds (mem : Memory) (rest : List Instr) (i : Instr) (x : Hart) :
    (x.exec lay mem rest i).holds = x.holds := by
  cases i <;> rfl

/-- A hart stores to the block of its own process only. -/
theorem store_other {track : Nat → Option (Reg → Word)} (hp : p < lay.nProc) (hq : q < lay.nProc)
    (hqp : q ≠ p) (h : HartOk (lay.view track hp) cell x) (hc : x.control = .asm (i :: rest))
    (mem : Memory) (r : Reg) :
    cells (x.store mem i) (lay.proc q) r = cells mem (lay.proc q) r := by
  obtain ⟨σ, hcheck, hm⟩ := h.asm hc
  cases i with
  | sd src r' =>
    simp only [Shadow.check, Bool.and_eq_true, decide_eq_true_eq] at hcheck
    have htp := hm.gpr .tp
    rw [hcheck.2.1] at htp
    have htp' : x.gpr .tp = lay.proc p := htp
    simp only [cells, Hart.store, htp']
    exact Function.update_of_ne (lay.field_ne hp hq hqp r r') _ _
  | _ => rfl

/-! ## All harts -/

variable {ι : Type} [DecidableEq ι] {s s' : State ι} {h h' : ι} {track : Nat → Option (Reg → Word)}
  {e : Event}

/-- The registers of the processes in `track` are where they should be. -/
structure Keeps (lay : Layout) (track : Nat → Option (Reg → Word)) (s : State ι) : Prop where
  held : ∀ h p, (s.harts h).holds = some p → ∃ hp : p < lay.nProc,
    HartOk (lay.view track hp) (cells s.mem (lay.proc p)) (s.harts h)
  unheld : ∀ h, (s.harts h).holds = none →
    (s.harts h).control = .start ∧ (s.harts h).mscratch = 0 ∧ (s.harts h).mie = false
  once : ∀ h k p, (s.harts h).holds = some p → (s.harts k).holds = some p → h = k
  idle : ∀ p, p < lay.nProc → (∀ h, (s.harts h).holds ≠ some p) →
    ∀ r ∈ userRegs, ∀ u ∈ track p, cells s.mem (lay.proc p) r = u r

/-- The step is one that may change the registers of the process `p`. -/
def Touches (s : State ι) (h : ι) (p : Nat) : Event → Prop
  | .user _ _ _ => (s.harts h).holds = some p
  | .trap cause _ => (s.harts h).holds = some p ∧ cause.slt 0 = false
  | .work _ _ _ writes => writes p = true
  | _ => False

namespace Keeps

/-- A hart is replaced: what has to be known of the new one, and of the blocks of the processes
    that other harts have or nobody has. -/
theorem replace (hs : Keeps lay track s)
    (hheld : ∀ p, x.holds = some p → ∃ hp : p < lay.nProc,
      HartOk (lay.view track hp) (cells mem (lay.proc p)) x)
    (hunheld : x.holds = none → x.control = .start ∧ x.mscratch = 0 ∧ x.mie = false)
    (honce : ∀ p, x.holds = some p → ∀ k, k ≠ h → (s.harts k).holds ≠ some p)
    (hothers : ∀ k, k ≠ h → ∀ q, q < lay.nProc → (s.harts k).holds = some q →
      ∀ u ∈ track q, ∀ r, cells mem (lay.proc q) r = cells s.mem (lay.proc q) r)
    (hidle : ∀ q, q < lay.nProc → x.holds ≠ some q → (∀ k, k ≠ h → (s.harts k).holds ≠ some q) →
      ∀ r ∈ userRegs, ∀ u ∈ track q, cells mem (lay.proc q) r = u r) :
    Keeps lay track ⟨Function.update s.harts h x, mem⟩ where
  held := by
    intro k q hk
    by_cases hkh : k = h
    · subst hkh
      simp only [Function.update_self] at hk ⊢
      exact hheld q hk
    · simp only [Function.update_of_ne hkh] at hk ⊢
      obtain ⟨hq, hold⟩ := hs.held k q hk
      exact ⟨hq, hold.congr (hothers k hkh q hq hk)⟩
  unheld := by
    intro k hk
    by_cases hkh : k = h
    · subst hkh
      simp only [Function.update_self] at hk ⊢
      exact hunheld hk
    · simp only [Function.update_of_ne hkh] at hk ⊢
      exact hs.unheld k hk
  once := by
    intro k k' q hk hk'
    -- the new hart against each of the others, both ways
    by_cases hkh : k = h <;> by_cases hkh' : k' = h
    · rw [hkh, hkh']
    · subst hkh
      simp only [Function.update_self, Function.update_of_ne hkh'] at hk hk'
      exact absurd hk' (honce q hk k' hkh')
    · subst hkh'
      simp only [Function.update_self, Function.update_of_ne hkh] at hk hk'
      exact absurd hk (honce q hk' k hkh)
    · simp only [Function.update_of_ne hkh, Function.update_of_ne hkh'] at hk hk'
      exact hs.once k k' q hk hk'
  idle := by
    intro q hq hfree
    have hself := hfree h
    simp only [Function.update_self] at hself
    refine hidle q hq hself fun k hkh => ?_
    have hk := hfree k
    simp only [Function.update_of_ne hkh] at hk
    exact hk

/-- A hart goes on with its process; of the blocks of the others, those in `track` are as before. -/
theorem update (hs : Keeps lay track s) (hhold : (s.harts h).holds = some p)
    (hx : x.holds = some p)
    (hok : ∀ hp : p < lay.nProc, HartOk (lay.view track hp) (cells mem (lay.proc p)) x)
    (hmem : ∀ q, q < lay.nProc → q ≠ p → ∀ u ∈ track q, ∀ r,
      cells mem (lay.proc q) r = cells s.mem (lay.proc q) r) :
    Keeps lay track ⟨Function.update s.harts h x, mem⟩ := by
  have heq : ∀ {q}, x.holds = some q → p = q := fun hq => Option.some.inj (hx.symm.trans hq)
  refine hs.replace (fun q hq => ?_) (fun hnone => ?_) (fun q hq k hkh hk => ?_)
    (fun k hkh q hq hk => ?_) fun q hq hself hfree r hr u hu => ?_
  · obtain rfl := heq hq
    obtain ⟨hp, -⟩ := hs.held h p hhold
    exact ⟨hp, hok hp⟩
  · rw [hx] at hnone
    cases hnone
  · exact hkh (hs.once k h p (heq hq ▸ hk) hhold)
  · exact hmem q hq fun e => hkh (hs.once k h p (e ▸ hk) hhold)
  · have hqp : q ≠ p := fun e => hself (e ▸ hx)
    rw [hmem q hq hqp u hu]
    refine hs.idle q hq (fun k hk => ?_) r hr u hu
    by_cases hkh : k = h
    · subst hkh
      exact hqp (Option.some.inj (hk.symm.trans hhold))
    · exact hfree k hkh hk

omit [DecidableEq ι] in
/-- A hart that is not in the scheduler has a process. -/
theorem exists_held {c : Control} (hs : Keeps lay track s) (hc : (s.harts h).control = c)
    (hne : c ≠ .start) : ∃ p, (s.harts h).holds = some p ∧ ∃ hp : p < lay.nProc,
      HartOk (lay.view track hp) (cells s.mem (lay.proc p)) (s.harts h) := by
  cases hhold : (s.harts h).holds with
  | none => exact absurd (hc.symm.trans (hs.unheld h hhold).1) hne
  | some p => exact ⟨p, rfl, hs.held h p hhold⟩

/-- A hart has its process's registers in the block when it gives the process up. -/
theorem release (hs : Keeps lay track s) {gpr : Gpr → Word} (hc : (s.harts h).control = .yield)
    (hmem : KeepsBlocks lay s.mem mem fun _ => false) :
    Keeps lay track ⟨Function.update s.harts h
      { s.harts h with gpr := gpr, control := .start, holds := none }, mem⟩ := by
  obtain ⟨p, hhold, hp, hok⟩ := hs.exists_held hc nofun
  obtain ⟨hscratch, hmie, hsaved⟩ := hok.yield hc
  refine hs.replace nofun (fun _ => ⟨rfl, hscratch, hmie⟩) nofun
    (fun k hkh q hq _ u _ r => hmem q hq rfl r) fun q hq _ hfree r hr u hu => ?_
  have hcell : cells mem (lay.proc q) r = cells s.mem (lay.proc q) r := hmem q hq rfl r
  rw [hcell]
  by_cases hqp : q = p
  · subst hqp
    exact hsaved r hr u hu
  · refine hs.idle q hq (fun k hk => ?_) r hr u hu
    by_cases hkh : k = h
    · subst hkh
      exact hqp (Option.some.inj (hk.symm.trans hhold))
    · exact hfree k hkh hk

/-- A hart that takes a process over finds its registers in the block. -/
theorem dispatch (hs : Keeps lay track s) {gpr : Gpr → Word} (hc : (s.harts h).control = .start)
    (hp : p < lay.nProc) (hfree : ∀ k, (s.harts k).holds ≠ some p) (htp : gpr .tp = lay.proc p)
    (hmem : KeepsBlocks lay s.mem mem fun _ => false) :
    Keeps lay track ⟨Function.update s.harts h
      { s.harts h with gpr := gpr, control := .asm trapResumeProc, holds := some p }, mem⟩ := by
  have hnone : (s.harts h).holds = none := by
    cases hhold : (s.harts h).holds with
    | none => rfl
    | some q =>
      obtain ⟨hq, hok⟩ := hs.held h q hhold
      unfold HartOk at hok
      rw [hc] at hok
      exact hok.elim
  obtain ⟨-, hscratch, -⟩ := hs.unheld h hnone
  have hcell : ∀ q, q < lay.nProc → ∀ r,
      cells mem (lay.proc q) r = cells s.mem (lay.proc q) r := fun q hq r => hmem q hq rfl r
  refine hs.replace (fun q hq => ?_) nofun (fun q hq k hkh => ?_)
    (fun k hkh q hq _ u _ r => hcell q hq r) fun q hq _ hothers r hr u hu => ?_
  · obtain rfl : p = q := Option.some.inj hq
    refine ⟨hp, hartOk_resume rfl htp hscratch fun r hr u hu => ?_⟩
    rw [hcell p hp r]
    exact hs.idle p hp hfree r hr u hu
  · obtain rfl : p = q := Option.some.inj hq
    exact hfree k
  · rw [hcell q hq r]
    refine hs.idle q hq (fun k hk => ?_) r hr u hu
    by_cases hkh : k = h
    · subst hkh
      rw [hnone] at hk
      cases hk
    · exact hothers k hkh hk

/-- One step of a hart that does not touch the processes in `track`. -/
theorem step (hs : Keeps lay track s) (hstep : Step lay s h (s.harts h) e s')
    (huntouched : ∀ q, track q ≠ none → ¬ Touches s h q e) : Keeps lay track s' := by
  cases hstep with
  | user hc hmem =>
    obtain ⟨p, hhold, hp, hok⟩ := hs.exists_held hc nofun
    have hnone : track p = none := by
      by_contra htrack
      exact huntouched p htrack hhold
    -- the registers change, but nobody follows them
    refine hs.update hhold hhold (fun hp => ⟨(hok.user hc).1, fun u hu => ?_⟩)
      fun q hq _ u _ r => hmem q hq rfl r
    rw [show (lay.view track hp).user = none from hnone] at hu
    cases hu
  | trap hc =>
    obtain ⟨p, hhold, hp, hok⟩ := hs.exists_held hc nofun
    refine hs.update hhold hhold (fun hp => hok.trap hc (fun htrack => ?_) _) fun _ _ _ _ _ _ => rfl
    exact Bool.eq_true_of_not_eq_false fun hcause => huntouched p htrack ⟨hhold, hcause⟩
  | timer hmode hmie =>
    -- a hart without a process has interrupts off
    have hstart : (s.harts h).holds ≠ none := by
      intro hnone
      rw [(hs.unheld h hnone).2.2] at hmie
      cases hmie
    obtain ⟨p, hhold⟩ := Option.ne_none_iff_exists'.mp hstart
    obtain ⟨hp, hok⟩ := hs.held h p hhold
    exact hs.update hhold hhold (fun _ => hok.timer hmode hmie _) fun _ _ _ _ _ _ => rfl
  | instr hc =>
    obtain ⟨p, hhold, hp, hok⟩ := hs.exists_held hc nofun
    obtain ⟨σ, hcheck, hm⟩ := hok.asm hc
    exact hs.update hhold ((exec_holds ..).trans hhold) (fun _ => exec_ok hcheck hm)
      fun q hq hqp _ _ r => store_other hp hq hqp hok hc _ r
  | @work rest gpr mie mem writes hc htp hmem =>
    obtain ⟨p, hhold, hp, hok⟩ := hs.exists_held hc nofun
    obtain ⟨hcheck, hnone, hptr, hscratch⟩ := hok.handler hc
    refine hs.update hhold hhold (fun hp => ?_) fun q hq _ u hu r => hmem q hq ?_ r
    · unfold HartOk
      simp only [hc]
      exact ⟨hcheck, hnone, htp.trans hptr, hscratch⟩
    · have htrack : track q ≠ none := by
        rw [hu]
        exact Option.some_ne_none u
      exact Bool.eq_false_of_not_eq_true (huntouched q htrack)
  | ret hc =>
    obtain ⟨p, hhold, hp, hok⟩ := hs.exists_held hc nofun
    exact hs.update hhold hhold (fun _ => hok.ret hc) fun _ _ _ _ _ _ => rfl
  | yield hc hmie =>
    obtain ⟨p, hhold, hp, hok⟩ := hs.exists_held hc nofun
    obtain ⟨-, hnone, -, hscratch⟩ := hok.handler hc
    refine hs.update hhold hhold (fun hp => ⟨hscratch, hmie, fun r _ u hu => ?_⟩)
      fun _ _ _ _ _ _ => rfl
    rw [hnone] at hu
    cases hu
  | release hc hmem => exact hs.release hc hmem
  | dispatch hc hp hfree htp hmem => exact hs.dispatch hc hp hfree htp hmem

/-- A run that does not touch the processes in `track`. -/
theorem steps (hs : Keeps lay track s)
    (hrun : Transition.Steps (restrict (Next lay) fun s l =>
      ∀ q, track q ≠ none → ¬ Touches s l.1 q l.2) s s') : Keeps lay track s' :=
  hrun.invariant (fun _ _ _ hs hstep => hs.step hstep.1 hstep.2) hs

omit [DecidableEq ι] in
/-- Nothing is saved for anybody yet. -/
theorem of_initial (hs : Initial s) : Keeps lay (fun _ => none) s where
  held := by
    intro h p hhold
    rw [(hs h).2.1] at hhold
    cases hhold
  unheld := by
    intro h _
    exact ⟨(hs h).1, (hs h).2.2⟩
  once := by
    intro h k p hhold
    rw [(hs h).2.1] at hhold
    cases hhold
  idle := by
    intro p _ _ r _ u hu
    cases hu

/-- In every reachable state what was saved is there. -/
theorem of_reachable (hs : Reachable Initial (Next lay) s) : Keeps lay (fun _ => none) s :=
  hs.invariant (fun _ => of_initial) fun _ _ _ hs hstep =>
    hs.step hstep fun _ htrack => absurd rfl htrack

end Keeps

/-! ## Preemption -/

/-- The registers of user code at `pc`, as the control block has them. -/
def context (pc : Word) (gpr : Gpr → Word) (r : Reg) : Word :=
  match Gpr.all.find? fun g => g.reg = r with
  | some g => gpr g
  | none => pc

theorem context_reg (pc : Word) (gpr : Gpr → Word) (g : Gpr) : context pc gpr g.reg = gpr g := by
  cases g <;> rfl

/-- The registers of the process `p` alone. -/
def only (p : Nat) (u : Reg → Word) (q : Nat) : Option (Reg → Word) := if q = p then some u else none

omit [DecidableEq ι] in
/-- From a state in which its user code runs, a process can be followed. -/
theorem Keeps.follow (hs : Keeps lay (fun _ => none) s) (hhold : (s.harts h).holds = some p)
    (hc : (s.harts h).control = .user pc) :
    Keeps lay (only p (context pc (s.harts h).gpr)) s where
  held := by
    intro k q hk
    obtain ⟨hq, hok⟩ := hs.held k q hk
    refine ⟨hq, ?_⟩
    by_cases hqp : q = p
    · subst hqp
      obtain rfl : k = h := hs.once k h q hk hhold
      have hscratch := (hok.user hc).1
      unfold HartOk
      rw [hc]
      refine ⟨hscratch, fun u hu => ?_⟩
      obtain rfl : context pc (s.harts k).gpr = u := by simpa [Layout.view, only] using hu
      exact ⟨rfl, fun g => (context_reg _ _ g).symm⟩
    · have hview : lay.view (only p (context pc (s.harts h).gpr)) hq =
          lay.view (fun _ => none) hq := by
        simp [Layout.view, only, hqp]
      rw [hview]
      exact hok
  unheld := hs.unheld
  once := hs.once
  idle := by
    intro q hq hfree r hr u hu
    have hqp : q ≠ p := fun e => hfree h (e ▸ hhold)
    rw [only, if_neg hqp] at hu
    cases hu

/-- In `s` the user code of `p` runs on `h` at `pc`. It is interrupted, the harts go on, without
    its own code, its own calls and exceptions and stores to its registers; and in `t` the hart `k`
    has just executed an `mret` with the process in its hands. -/
structure Resumption (lay : Layout) (s : State ι) (h : ι) (p : Nat) (pc : Word) (t : State ι)
    (k : ι) : Prop where
  reachable : Reachable Initial (Next lay) s
  holds : (s.harts h).holds = some p
  control : (s.harts h).control = .user pc
  run : ∃ cause tval s₁ s₂ rest, cause.slt 0 = true ∧
    Step lay s h (s.harts h) (.trap cause tval) s₁ ∧
    Transition.Steps (restrict (Next lay) fun s l => ¬ Touches s l.1 p l.2) s₁ s₂ ∧
    (s₂.harts k).holds = some p ∧ (s₂.harts k).control = .asm (.mret :: rest) ∧
    Step lay s₂ k (s₂.harts k) .instr t

/-- A process that is resumed has the registers that it was interrupted with. -/
theorem Resumption.registers {s t : State ι} {h k : ι} (hr : Resumption lay s h p pc t k) :
    (t.harts k).control = .user pc ∧ (t.harts k).gpr = (s.harts h).gpr := by
  obtain ⟨cause, tval, s₁, s₂, rest, hcause, htrap, hrun, hhold, hmret, hstep⟩ := hr.run
  have hs := (Keeps.of_reachable hr.reachable).follow hr.holds hr.control
  have htracked : ∀ q, only p (context pc (s.harts h).gpr) q ≠ none → q = p := by
    intro q hq
    by_contra hqp
    exact hq (if_neg hqp)
  -- the trap, the run and the `mret`, with the process's registers followed from the first
  have hs₁ := hs.step htrap fun q hq htouch => by
    exact Bool.false_ne_true (htouch.2.symm.trans hcause)
  have hs₂ := hs₁.steps (hrun.mono fun _ _ _ hl =>
    ⟨hl.1, fun q hq => (htracked q hq).symm ▸ hl.2⟩)
  have ht := hs₂.step hstep fun q _ => id
  cases hstep with
  | instr hc =>
    cases hmret.symm.trans hc
    have hhold' : (Function.update s₂.harts k
        ((s₂.harts k).exec lay s₂.mem rest .mret) k).holds = some p := by
      rw [Function.update_self, exec_holds, hhold]
    obtain ⟨hp, hok⟩ := ht.held k p hhold'
    simp only [Function.update_self] at hok ⊢
    cases hmpp : (s₂.harts k).mpp with
    | user =>
      have hcontrol : ((s₂.harts k).exec lay s₂.mem rest .mret).control =
          .user (s₂.harts k).mepc := by
        simp only [Hart.exec, hmpp]
      obtain ⟨hpc, hgpr⟩ := (hok.user hcontrol).2 _ (if_pos rfl)
      have hpc' : (s₂.harts k).mepc = pc := hpc
      refine ⟨by rw [hcontrol, hpc'], funext fun g => ?_⟩
      rw [hgpr g, context_reg]
    | machine =>
      -- the kernel never returns to machine mode by an `mret`
      have hcontrol : ((s₂.harts k).exec lay s₂.mem rest .mret).control = .lost := by
        simp only [Hart.exec, hmpp]
      unfold HartOk at hok
      rw [hcontrol] at hok
      exact hok.elim

/-- Preemption is transparent: the process goes on where it was interrupted with the registers it
    had, on whichever hart, and they depend on nothing else. -/
theorem preemption_transparent {s t : State ι} {h k : ι} (hr : Resumption lay s h p pc t k) :
    ((t.harts k).control = .user pc ∧ (t.harts k).gpr = (s.harts h).gpr) ∧
      ∀ (s' t' : State ι) (h' k' : ι), Resumption lay s' h' p pc t' k' →
        (s'.harts h').gpr = (s.harts h).gpr → (t'.harts k').gpr = (t.harts k).gpr := by
  refine ⟨hr.registers, ?_⟩
  intro s' t' h' k' hr' hgpr
  rw [hr'.registers.2, hgpr, hr.registers.2]

/-! ## A run -/

/-- Two control blocks, and a memory in which every doubleword is its own address. -/
def twoProcs : Layout where
  symbol := fun _ => 0
  nProc := 2
  processes := 0x80010000
  processes_ne := by decide
  fits := by decide

/-- A hart that has just come out of reset. -/
def oneHart : State Unit where
  harts := fun _ => {
    gpr := fun _ => 0
    mscratch := 0
    mepc := 0
    mcause := 0
    mtval := 0
    mhartid := 0
    mie := false
    mpie := false
    mpp := .machine
    control := .start
    holds := none }
  mem := fun a => a

/-- What the one hart does next: the timer interrupts it, it goes on, or it acquires a process. -/
inductive Move where
  | interrupt
  | go
  | acquire (p : Nat)

/-- One step of this one hart; an interrupt comes wherever one may. -/
def move : Move → State Unit → Option (State Unit)
  | .interrupt, s =>
    match (s.harts ()).control with
    | .user pc => some ⟨Function.update s.harts ()
        ((s.harts ()).takeTrap .user pc timerCause 0), s.mem⟩
    | _ =>
      if (s.harts ()).inMachineMode = true ∧ (s.harts ()).mie = true then
        some ⟨Function.update s.harts () ((s.harts ()).takeTrap .machine 0 timerCause 0), s.mem⟩
      else none
  | .go, s =>
    match (s.harts ()).control with
    | .asm (i :: rest) => some ⟨Function.update s.harts ()
        ((s.harts ()).exec twoProcs s.mem rest i), (s.harts ()).store s.mem i⟩
    | .yield => some ⟨Function.update s.harts () { s.harts () with
        gpr := (s.harts ()).gpr, control := .start, holds := none }, s.mem⟩
    | _ => none
  | .acquire p, s =>
    if (s.harts ()).control = .start ∧ p < twoProcs.nProc ∧ (s.harts ()).holds ≠ some p then
      some ⟨Function.update s.harts () { s.harts () with
        gpr := fun _ => twoProcs.proc p, control := .asm trapResumeProc, holds := some p }, s.mem⟩
    else none

/-- A move is a step that does not touch any process. -/
theorem move_next {m : Move} {s s' : State Unit} (hm : move m s = some s') (p : Nat) :
    ∃ l, restrict (Next twoProcs) (fun s l => ¬ Touches s l.1 p l.2) s l s' := by
  cases m with
  | interrupt =>
    simp only [move] at hm
    split at hm
    · next pc hc =>
      cases hm
      exact ⟨((), .trap timerCause 0), .trap hc, fun ht => by cases ht.2⟩
    · split at hm
      · next hmie =>
        cases hm
        exact ⟨((), .timer 0), .timer hmie.1 hmie.2, id⟩
      · cases hm
  | go =>
    simp only [move] at hm
    split at hm
    · next i rest hc =>
      cases hm
      exact ⟨((), .instr), .instr hc, id⟩
    · next hc =>
      cases hm
      exact ⟨((), .release _ s.mem), .release hc fun _ _ _ _ => rfl, id⟩
    · cases hm
  | acquire q =>
    simp only [move] at hm
    split at hm
    · next hq =>
      cases hm
      exact ⟨((), .dispatch q _ s.mem),
        .dispatch hq.1 hq.2.1 (fun _ => hq.2.2) rfl fun _ _ _ _ => rfl, id⟩
    · cases hm

theorem steps_of_moves (ms : List Move) (s : State Unit) (p : Nat) :
    Transition.Steps (restrict (Next twoProcs) fun s l => ¬ Touches s l.1 p l.2) s
      ((Transition.exec move ms s).getD s) := by
  have hmoves : Transition.Steps (fun s (_ : Move) s' => ∃ l, restrict (Next twoProcs)
      (fun s l => ¬ Touches s l.1 p l.2) s l s') s ((Transition.exec move ms s).getD s) :=
    Transition.steps_getD_exec (fun _ _ _ hm => move_next hm p) ms s
  exact Relation.ReflTransGen.mono (fun _ _ ⟨_, l, hl⟩ => ⟨l, hl⟩) _ _ hmoves

/-- The user code of the first process runs. -/
def running : State Unit :=
  (Transition.exec move (.acquire 0 :: List.replicate 37 .go) oneHart).getD oneHart

/-- It is interrupted. -/
def interruptedState : State Unit :=
  ⟨Function.update running.harts () ((running.harts ()).takeTrap .user 0x80010000 timerCause 0),
    running.mem⟩

/-- The second process runs and is interrupted; the first is resumed, the timer interrupts
    `trap_resume_proc` after its tenth instruction, and it is resumed again, up to the `mret`. -/
def resuming : State Unit :=
  (Transition.exec move (List.replicate 45 .go ++ .acquire 1 :: List.replicate 37 .go ++
    .interrupt :: List.replicate 45 .go ++ .acquire 0 :: List.replicate 10 .go ++
    .interrupt :: List.replicate 7 .go ++ .acquire 0 :: List.replicate 36 .go)
    interruptedState).getD interruptedState

/-- After the `mret` at the end of `trap_resume_proc`. -/
def resumed : State Unit :=
  ⟨Function.update resuming.harts () ((resuming.harts ()).exec twoProcs resuming.mem [] .mret),
    resuming.mem⟩

/-- The hart is interrupted, the interrupt handler in turn, and the process goes on. -/
theorem resumption_resumed : Resumption twoProcs running () 0 0x80010000 resumed () where
  reachable := ⟨oneHart, fun _ => ⟨rfl, rfl, rfl, rfl⟩,
    (steps_of_moves _ _ 0).mono fun _ _ _ hl => hl.1⟩
  holds := by decide +kernel
  control := by decide +kernel
  run := ⟨timerCause, 0, interruptedState, resuming, [], by decide,
    .trap (by decide +kernel), steps_of_moves _ _ 0, by decide +kernel, by decide +kernel,
    .instr (by decide +kernel)⟩

/-- It has its registers. -/
theorem preemption_transparent_nested :
    (resumed.harts ()).control = .user 0x80010000 ∧
      (resumed.harts ()).gpr = (running.harts ()).gpr :=
  (preemption_transparent resumption_resumed).1

end Trap
end SepKernel
