import SepKernel.Authority

/-!
# Domains

The system cut into domains: every process, every channel and every quantum of a hart belongs to
one. The domains are separated when no capability that a process can use reaches beyond the
process's own domain, and neither do the tables of receivers and quanta. They stay separated then
in every run, whatever the processes call: a capability gives rise to narrower ones only, and it
goes from one process to another over a channel or by the hand of a supervisor, both of which stay
in the domain.
-/

namespace SepKernel

open Capability (CanDerive)
open Transition (Reachable Steps)

variable {κ : Type} {dom : Resource → κ} {cfg : Config} {s t : Kernel} {st st' : System} {l : Label}
  {op : CapOp} {H : Holdings} {n : NodeRef} {c : Capability} {p q ch : Nat} {user : Reg → Word}
  {x : Resource}

/-! ## What a capability reaches -/

/-- What the holder of the capability, or of one below it, has an effect on through the kernel. -/
def Capability.reach : Capability → Set Resource
  | .time h r => Resource.quantum h '' r.owned
  | .channels r => Resource.channel '' r.owned
  | .receiver ch _ => {.channel ch}
  | .sender ch _ => {.channel ch}
  | .server ch _ => {.channel ch}
  | .client ch _ => {.channel ch}
  | .supervisor r => Resource.process '' r.owned
  | _ => ∅

/-- A child reaches nothing that its parent does not. -/
theorem Capability.CanDerive.reach {p c : Capability} (h : CanDerive p c) : c.reach ⊆ p.reach := by
  cases h with
  | memory => exact subset_rfl
  | pmp => exact subset_rfl
  | time hfirst hfree hlt hstop =>
    refine Set.image_mono fun n hn => ?_
    exact ⟨by have := hn.1; omega, hn.2.trans_le hstop⟩
  | channels hfirst hfree hlt hstop =>
    refine Set.image_mono fun n hn => ?_
    exact ⟨by have := hn.1; omega, hn.2.trans_le hstop⟩
  | receiver hch hlt hg => exact Set.singleton_subset_iff.mpr ⟨_, ⟨hch.ge, hlt⟩, rfl⟩
  | server hch hlt hg => exact Set.singleton_subset_iff.mpr ⟨_, ⟨hch.ge, hlt⟩, rfl⟩
  | sender => exact subset_rfl
  | client => exact subset_rfl
  | supervisor hfirst hfree hlt hstop =>
    refine Set.image_mono fun n hn => ?_
    exact ⟨by have := hn.1; omega, hn.2.trans_le hstop⟩

/-- What is left to the parent it reached before. -/
theorem Capability.CanDerive.reach_afterDerive {p c : Capability} (h : CanDerive p c) :
    (p.afterDerive c).reach ⊆ p.reach := by
  cases h with
  | memory => exact subset_rfl
  | pmp => exact subset_rfl
  | time hfirst hfree hlt hstop =>
    refine Set.image_mono fun n hn => ?_
    exact ⟨by have : _ ≤ n := hn.1; simp only [Span.carve] at this; omega, hn.2⟩
  | channels hfirst hfree hlt hstop =>
    refine Set.image_mono fun n hn => ?_
    exact ⟨by have : _ ≤ n := hn.1; simp only [Span.carve] at this; omega, hn.2⟩
  | receiver hch hlt hg =>
    refine Set.image_mono fun n hn => ?_
    exact ⟨by have : _ ≤ n := hn.1; simp only [Span.carve] at this; omega, hn.2⟩
  | server hch hlt hg =>
    refine Set.image_mono fun n hn => ?_
    exact ⟨by have : _ ≤ n := hn.1; simp only [Span.carve] at this; omega, hn.2⟩
  | sender => exact subset_rfl
  | client => exact subset_rfl
  | supervisor hfirst hfree hlt hstop =>
    refine Set.image_mono fun n hn => ?_
    exact ⟨by have : _ ≤ n := hn.1; simp only [Span.carve] at this; omega, hn.2⟩

/-- A time capability reaches its quanta. -/
theorem quantum_mem_reach {h : Nat} (hq : (h, q) ∈ c.quanta) : .quantum h q ∈ c.reach := by
  cases c with
  | time h' r =>
    obtain ⟨rfl, hq⟩ := hq
    exact ⟨q, hq, rfl⟩
  | _ => exact absurd hq (Set.notMem_empty _)

/-- A receiver or server its channel. -/
theorem channel_mem_reach (hch : ch ∈ c.receives) : .channel ch ∈ c.reach := by
  cases c with
  | receiver ch' g =>
    obtain rfl := hch
    exact rfl
  | server ch' g =>
    obtain rfl := hch
    exact rfl
  | _ => exact absurd hch (Set.notMem_empty _)

/-- It does so for any part of what a capability is for that derivation divides. -/
structure Divided (share : Capability → Set Resource) : Prop where
  child : ∀ {p c}, CanDerive p c → share c ⊆ share p
  parent : ∀ {p c}, CanDerive p c → share (p.afterDerive c) ⊆ share p
  other : share .other = ∅

/-- Derivation divides what is reached. -/
theorem reach_divided : Divided Capability.reach := ⟨fun h => h.reach, fun h => h.reach_afterDerive, rfl⟩

/-! ## Separation -/

/-- What the capabilities of a process are for is in its domain. -/
def HeldWithin (share : Capability → Set Resource) (dom : Resource → κ) (H : Holdings) : Prop :=
  ∀ p i, ∀ x ∈ share (H (.slot p i)), dom x = dom (.process p)

/-- Nothing a process holds reaches beyond its domain. -/
def Within (dom : Resource → κ) (H : Holdings) : Prop := HeldWithin Capability.reach dom H

/-- No capability, receiver entry or schedule entry of a process goes beyond its domain. -/
structure Kernel.Separated (cfg : Config) (dom : Resource → κ) (s : Kernel) : Prop where
  held : Within dom s.held
  receivers : ∀ ch k p, s.receivers ch k = some p → dom (.process p) = dom (.channel ch)
  schedule : ∀ h q p, ScheduleIndex cfg h q → s.scheduledTo cfg (h, q) = some p →
    dom (.process p) = dom (.quantum h q)

/-- The operation does not hand a capability over to another domain. -/
def CapOp.Stays (dom : Resource → κ) : CapOp → Prop
  | .transfer srcPid _ destPid _ => dom (.process srcPid) = dom (.process destPid)
  | _ => True

namespace HeldWithin

variable {share : Capability → Set Resource}

/-- One slot has something new, which is for what its process may have. -/
theorem update (h : HeldWithin share dom H) {i : Nat} (hc : ∀ x ∈ share c, dom x = dom (.process p)) :
    HeldWithin share dom (Function.update H (.slot p i) c) := by
  intro p' i' x hx
  by_cases hn : (.slot p' i' : NodeRef) = .slot p i
  · obtain ⟨rfl, rfl⟩ := NodeRef.slot.inj hn
    rw [Function.update_self] at hx
    exact hc x hx
  · rw [Function.update_of_ne hn] at hx
    exact h p' i' x hx

/-- A slot that is emptied reaches nothing. -/
theorem clear (h : HeldWithin share dom H) (hsh : Divided share) (p i : Nat) :
    HeldWithin share dom (Function.update H (.slot p i) .other) :=
  h.update fun x hx => absurd (hsh.other ▸ hx) (Set.notMem_empty x)

/-- A move within a domain keeps everything within it. -/
theorem handed {q i j : Nat} (h : HeldWithin share dom H) (hsh : Divided share)
    (hpq : dom (.process p) = dom (.process q)) :
    HeldWithin share dom (CapOp.handed H (.slot p i) (.slot q j)) :=
  (h.update fun x hx => (h p i x hx).trans hpq).clear hsh p i

/-- No operation that stays within a domain lets anything out. -/
theorem onHeld (h : HeldWithin share dom H) (hsh : Divided share) (he : op.Enabled H)
    (hs : op.Stays dom) : HeldWithin share dom (op.onHeld H) := by
  cases op with
  | skip => exact h
  | wipe => exact h
  | move pid i j => exact h.handed hsh rfl
  | transfer srcPid i destPid j => exact h.handed hsh hs
  | delete pid i => exact h.clear hsh pid i
  | derive pid i j c =>
    exact (h.update fun x hx => h pid i x (hsh.parent he.1 hx)).update
      fun x hx => h pid i x (hsh.child he.1 hx)

/-- What the hook is called for is for what the process it is called with may have. -/
theorem assigned (h : HeldWithin share dom H) (hsh : Divided share) (he : op.Enabled H)
    (hs : op.Stays dom) (ho : op.assigned H = some (p, c)) :
    ∀ x ∈ share c, dom x = dom (.process p) := by
  cases op with
  | derive pid i j c' =>
    obtain ⟨rfl, rfl⟩ := Prod.mk.inj (Option.some.inj ho)
    exact fun x hx => h pid i x (hsh.child he.1 hx)
  | transfer srcPid i destPid j =>
    obtain ⟨rfl, rfl⟩ := Prod.mk.inj (Option.some.inj ho)
    exact fun x hx => (h srcPid i x hx).trans hs
  | _ => cases ho

end HeldWithin

namespace Kernel.Separated

/-- The channel of an invoked capability, and whom it supervises. -/
theorem invoked (h : s.Separated cfg dom) (user : Reg → Word)
    (hx : x ∈ (SepKernel.invoked cfg s p user).reach) :
    dom x = dom (.process p) :=
  h.held p _ x hx

/-- A supervisor's supervisees are of its domain. -/
theorem supervisee {r : Span} (h : s.Separated cfg dom)
    (hinv : SepKernel.invoked cfg s p user = .supervisor r)
    (hq : SepKernel.supervisee user r = some q) : dom (.process q) = dom (.process p) := by
  refine h.invoked user ?_
  rw [hinv]
  rw [SepKernel.supervisee] at hq
  split at hq
  · next hr =>
    obtain rfl := Option.some.inj hq
    exact ⟨_, hr, rfl⟩
  · cases hq

/-- Whoever is acquired through a channel is of the channel's domain. -/
theorem acquired {k : Fin 2} (h : s.Separated cfg dom) (hq : acquired s ch k = some q) :
    dom (.process q) = dom (.channel ch) := h.receivers ch k q (acquired_state hq).1

/-- A message stays in the domain of who sends it. -/
theorem via (h : s.Separated cfg dom) (hvia : MessageVia s q ch (SepKernel.invoked cfg s p user)) :
    dom (.process q) = dom (.process p) := by
  have hch : .channel ch ∈ (SepKernel.invoked cfg s p user).reach ∧
      dom (.process q) = dom (.channel ch) := by
    generalize SepKernel.invoked cfg s p user = c at hvia
    cases hvia with
    | sender hq => exact ⟨rfl, h.acquired hq⟩
    | client hq => exact ⟨rfl, h.acquired hq⟩
    | server hq => exact ⟨rfl, h.acquired hq⟩
  exact hch.2.trans (h.invoked _ hch.1)

/-- Whom a process is in a position to write to is in its domain. -/
theorem acts (h : s.Separated cfg dom) (ha : Acts cfg s p user q) :
    dom (.process q) = dom (.process p) := by
  cases ha with
  | self h => rw [h]
  | supervises hnr hinv hq => exact h.supervisee hinv hq
  | messages hnr hvia => exact h.via hvia

end Kernel.Separated

/-- So no call hands anything to another domain. -/
theorem stays_of_separated (h : st.kernel.Separated cfg dom) : (stepOp cfg st l).Stays dom := by
  cases hop : stepOp cfg st l with
  | transfer srcPid i destPid j =>
    have hreach : (stepOp cfg st l).Reaches srcPid := by
      rw [hop]
      exact Or.inl rfl
    obtain ⟨p, user, -, hreq⟩ := stepOp_request hreach
    rw [hop] at hreq
    exact (h.acts (hreq.acts (Or.inl rfl))).trans (h.acts (hreq.acts (Or.inr rfl))).symm
  | _ => trivial

/-! ## Separation is kept -/

/-- What a table says of a resource it has said before, or the hook has just written it, for a
    capability that is for the resource. -/
theorem CapOp.Writes.cases_mem {R : Type*} {sh : Capability → Set R} {D : Set R}
    {T T' : R → Option Nat} {r : R} (hT : op.Writes H sh D T T') (hr : r ∈ D) :
    T' r = T r ∨ ∃ p c, op.assigned H = some (p, c) ∧ r ∈ sh c ∧ T' r = some p := by
  rw [CapOp.Writes] at hT
  split at hT
  · next p c ho =>
    by_cases hc : r ∈ sh c
    · exact Or.inr ⟨p, c, ho, hc, hT.inside r hr hc⟩
    · exact Or.inl (hT.outside r hr hc)
  · exact Or.inl (hT r hr)

/-- One step keeps domains separated. -/
theorem step_separated (hg : st.Good cfg) (h : st.kernel.Separated cfg dom)
    (hs : Step cfg st l st') : st'.kernel.Separated cfg dom := by
  obtain ⟨he, hheld⟩ := step_held hg hs
  have hstays : (stepOp cfg st l).Stays dom := stays_of_separated h
  refine ⟨?_, fun ch k p hp => ?_, fun h' q p hx hp => ?_⟩
  · rw [hheld]
    exact HeldWithin.onHeld h.held reach_divided he hstays
  · match k with
    | 0 =>
      rcases (step_writes_receives hg hs).cases_mem (r := ch) trivial with hsame | ⟨p', c, ho, hc, hp'⟩
      · exact h.receivers ch 0 p (hsame.symm.trans hp)
      · obtain rfl : p = p' := Option.some.inj (hp.symm.trans hp')
        exact (HeldWithin.assigned h.held reach_divided he hstays ho _ (channel_mem_reach hc)).symm
    | 1 =>
      rcases step_replies hg hs ch with hsame | ⟨-, hart, user, p', rfl, hcur, hreply, hp'⟩
      · exact h.receivers ch 1 p (hsame ▸ hp)
      · obtain rfl : p = p' := Option.some.inj (hp.symm.trans hp')
        obtain ⟨-, ⟨g, hinv⟩, -⟩ := replyTo_some hreply
        refine (h.invoked user ?_).symm
        rw [hinv]
        exact rfl
  · rcases (step_writes_quanta hg hs).cases_mem (r := (h', q)) hx with hsame | ⟨p', c, ho, hc, hp'⟩
    · exact h.schedule h' q p hx (hsame ▸ hp)
    · obtain rfl : p = p' := Option.some.inj (hp.symm.trans hp')
      exact (HeldWithin.assigned h.held reach_divided he hstays ho _ (quantum_mem_reach hc)).symm

/-- Separated domains stay separated: if at some time each capability, each entry of the schedule
    and each receiver is within a domain, this is so in every state that follows, whatever the
    processes do. -/
theorem separation_kept (hr : Reachable (Booted cfg) (Step cfg) st)
    (h : st.kernel.Separated cfg dom) (hs : Steps (Step cfg) st st') :
    st'.kernel.Separated cfg dom := by
  have hg : st.Good cfg := good_of_reachable (fun _ => Booted.root) hr
  refine (hs.invariant (I := fun s => s.Good cfg ∧ s.kernel.Separated cfg dom)
    (fun s l s' hI hl => ⟨step_good hI.1 hl, step_separated hI.1 hI.2 hl⟩) ⟨hg, h⟩).2

/-! ## Reading separation off the tables -/

/-- What a capability is for, as a list. -/
def Capability.reaches : Capability → List Resource
  | .time h r => (List.range' r.free (r.stop - r.free)).map (.quantum h)
  | .channels r => (List.range' r.free (r.stop - r.free)).map .channel
  | .receiver ch _ => [.channel ch]
  | .sender ch _ => [.channel ch]
  | .server ch _ => [.channel ch]
  | .client ch _ => [.channel ch]
  | .supervisor r => (List.range' r.free (r.stop - r.free)).map .process
  | _ => []

theorem mem_range_iff {r : Span} : q ∈ List.range' r.free (r.stop - r.free) ↔ q ∈ r.owned := by
  rw [List.mem_range'_1]
  exact and_congr_right fun h => by omega

theorem mem_reaches : x ∈ c.reaches ↔ x ∈ c.reach := by
  cases c with
  | time h r =>
    rw [Capability.reaches, List.mem_map]
    exact exists_congr fun q => and_congr_left' mem_range_iff
  | channels r =>
    rw [Capability.reaches, List.mem_map]
    exact exists_congr fun q => and_congr_left' mem_range_iff
  | supervisor r =>
    rw [Capability.reaches, List.mem_map]
    exact exists_congr fun q => and_congr_left' mem_range_iff
  | receiver => exact List.mem_singleton
  | sender => exact List.mem_singleton
  | server => exact List.mem_singleton
  | client => exact List.mem_singleton
  | _ => exact iff_of_false List.not_mem_nil (Set.notMem_empty x)

theorem receives_lt (hv : c.Valid cfg) (hch : ch ∈ c.receives) : ch < cfg.nChannels := by
  cases c with
  | receiver ch' g =>
    obtain rfl := hch
    exact hv.2
  | server ch' g =>
    obtain rfl := hch
    exact hv.2
  | _ => exact absurd hch (Set.notMem_empty _)

/-- Good, and the table of receivers has no entries beyond its end. -/
structure System.Tidy (cfg : Config) (st : System) : Prop where
  good : st.Good cfg
  receivers : ∀ ch, cfg.nChannels ≤ ch → ∀ k, st.kernel.receivers ch k = none

/-- Unused slots and entries are clear after boot. -/
theorem Booted.tidy (h : Booted cfg st) : st.Tidy cfg := by
  refine ⟨h.root.good, fun ch _ k => ?_⟩
  obtain ⟨_, hb⟩ := h.state
  rw [hb.receivers]

/-- They stay so. -/
theorem System.Tidy.step (h : st.Tidy cfg) (hs : Step cfg st l st') : st'.Tidy cfg := by
  refine ⟨step_good h.good hs, fun ch hch k => ?_⟩
  match k with
  | 0 =>
    rcases (step_writes_receives h.good hs).cases_mem (r := ch) trivial with
      hsame | ⟨p, c, ho, hc, -⟩
    · exact hsame.trans (h.receivers ch hch 0)
    · have hv := (step_assigned h.good hs ho).2.1
      exact absurd hch (not_le.mpr (receives_lt hv hc))
  | 1 =>
    rcases step_replies h.good hs ch with hsame | ⟨-, hart, user, p, -, -, hreply, -⟩
    · exact hsame.trans (h.receivers ch hch 1)
    · have hacq := (replyTo_some hreply).2.2
      rw [acquired, h.receivers ch hch 0] at hacq
      cases hacq

theorem tidy_of_reachable {init : System → Prop} (hinit : ∀ s, init s → s.Tidy cfg)
    (hr : Reachable init (Step cfg) st) : st.Tidy cfg :=
  hr.invariant hinit fun _ _ _ => System.Tidy.step

/-- What is to be looked at. -/
theorem heldWithin_of_slots {share : Capability → Set Resource} (hg : st.Good cfg)
    (hsh : Divided share) (h : ∀ p < cfg.nProc, ∀ i < cfg.nCaps,
      ∀ x ∈ share (st.kernel.held (.slot p i)), dom x = dom (.process p)) :
    HeldWithin share dom st.kernel.held := by
  intro p i x hx
  by_cases hl : st.kernel.Live (.slot p i)
  · obtain ⟨hlt, hlt'⟩ := hg.kernel.bounds p i hl
    exact h p hlt i hlt' x hx
  · rw [held_of_dead hl, hsh.other] at hx
    exact absurd hx (Set.notMem_empty x)

/-- Separation can be read off the tables, slot by slot and entry by entry. -/
theorem separated_of_tables (h : st.Tidy cfg)
    (hheld : ∀ p < cfg.nProc, ∀ i < cfg.nCaps, ∀ x ∈ (st.kernel.held (.slot p i)).reaches,
      dom x = dom (.process p))
    (hrec : ∀ ch < cfg.nChannels, ∀ k, ∀ p ∈ st.kernel.receivers ch k,
      dom (.process p) = dom (.channel ch))
    (hsched : ∀ i < cfg.nHarts, ∀ q < cfg.nQuantum,
      ∀ p ∈ st.kernel.scheduledTo cfg (cfg.minHartid + i, q),
        dom (.process p) = dom (.quantum (cfg.minHartid + i) q)) :
    st.kernel.Separated cfg dom := by
  refine ⟨?_, fun ch k p hp => ?_, fun h q p hx hp => ?_⟩
  · exact heldWithin_of_slots h.good reach_divided
      fun p hp i hi x hx => hheld p hp i hi x (mem_reaches.mpr hx)
  · by_cases hch : ch < cfg.nChannels
    · exact hrec ch hch k p hp
    · rw [h.receivers ch (not_lt.mp hch) k] at hp
      cases hp
  · obtain ⟨hlo, hhi, hq⟩ := hx
    obtain ⟨i, rfl⟩ := Nat.exists_eq_add_of_le hlo
    have hn : cfg.nHarts = cfg.maxHartid - cfg.minHartid + 1 := rfl
    exact hsched i (by omega) q hq p hp

/-- The root process hands process 1 half of the time of the last hart, lets it go and gives up the
    capability that it did so with. -/
def virtSplit : System := virtAfter
  [.schedule 1 0,
    .ecall 1 (callRegs 5 2 10 (capMkSupervisor 0 2 0).word0 (capMkSupervisor 0 2 0).word1 0 0),
    .ecall 1 (callRegs 5 6 11 (capMkTime 4 0 64 0).word0 (capMkTime 4 0 64 0).word1 0 0),
    .ecall 1 (callRegs 6 10 1 6 11 0 0), .ecall 1 (callRegs 6 10 1 1 0 0 0),
    .ecall 1 (callRegs 3 10 0 0 0 0 0)]

/-- Process 1 and its time, and all the rest. -/
def virtDomain : Resource → Bool
  | .process p => p == 1
  | .quantum h q => h == 4 && decide (q < 64)
  | _ => false

/-- Process 1 and its half of the last hart's time are a domain of their own. -/
theorem virtSplit_separated : virtSplit.kernel.Separated .virt virtDomain :=
  separated_of_tables (tidy_of_reachable (fun _ => Booted.tidy) (virtAfter_reachable _))
    (by decide +kernel) (by decide +kernel) (by decide +kernel)

/-- Process 1 is dispatched and calls while the root process derives a capability. -/
def virtSplitRun : List Label :=
  [.schedule 4 0, .ecall 1 (callRegs 5 1 12 (capMkChannels 0 8 0).word0
      (capMkChannels 0 8 0).word1 0 0), .ecall 4 (callRegs 1 0 0 0 0 0 0),
    .timer 1 (callRegs 0 0 0 0 0 0 0), .timer 4 (callRegs 0 0 0 0 0 0 0)]

/-- And so it is after this run. -/
theorem virtSplitRun_separated :
    (virtSplit.after .virt virtSplitRun).kernel.Separated .virt virtDomain :=
  separation_kept (virtAfter_reachable _) virtSplit_separated (after_steps _ _ _)

end SepKernel
