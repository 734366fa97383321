import SepKernel.Hooks

/-!
# What a step does to the capabilities

The capability side of the kernel is its nodes, the schedule, the receiving end of each channel
and the history. A step leaves it alone or does one of five things to it: derive, move, hand
over, delete, and the reset that revocation does to a slot. `CapStep` lists them. The invariant
every result rests on is `Kernel.Good`, and both are defined here; which system call requests
which operation is in `SepKernel.Calls`.
-/

namespace SepKernel

open Capability (CanDerive)

variable {cfg : Config} {s s' t : Kernel} {cap : Cap} {n m : NodeRef} {p i : Nat}

/-! ## The invariant -/

/-- The lists are rings, what is live is valid and in its table, processes know their number. -/
structure Kernel.Good (cfg : Config) (s : Kernel) : Prop where
  lists : ∃ rings, s.Lists rings
  bounds : ∀ p i, s.Live (.slot p i) → p < cfg.nProc ∧ i < cfg.nCaps
  valid : ∀ p i, s.Live (.slot p i) → (s.caps (.slot p i)).view.Valid cfg
  known : ∀ p i, (s.caps (.slot p i)).view.Known cfg
  pids : ∀ p, p < cfg.nProc → (s.procs p).pid = BitVec.ofNat 64 p
  receivers : ∀ ch k p, s.receivers ch k = some p → p < cfg.nProc
  entries : EntriesOk cfg s

namespace Kernel.Good

/-- A live slot is between two nodes, and not alone. -/
theorem neighbours (hg : s.Good cfg) (hn : s.Live (.slot p i)) :
    ∃ a b, Ring.Linked s.nexts s.prevs a (.slot p i) ∧ Ring.Linked s.nexts s.prevs (.slot p i) b ∧
      b ≠ .slot p i := by
  obtain ⟨rings, h⟩ := hg.lists
  obtain ⟨-, a, b, -, ha, hb⟩ := h.exists_neighbours hn
  exact ⟨a, b, ha, hb, h.next_ne hn (fun k => by simp) hb.1⟩

theorem pid_toNat (hg : s.Good cfg) (hp : p < cfg.nProc) : (s.procs p).pid.toNat = p := by
  have := cfg.nProc_le
  rw [hg.pids p hp, BitVec.toNat_ofNat, Nat.mod_eq_of_lt (by omega)]

theorem pidOk (hg : s.Good cfg) (hp : p < cfg.nProc) : PidOk cfg (hookPid s (some p)) :=
  Or.inr (by rw [hookPid, hg.pid_toNat hp]; exact hp)

end Kernel.Good

namespace Kernel

theorem lists_congr {rings : Sentinel → List NodeRef} (hn : t.nexts = s.nexts)
    (hp : t.prevs = s.prevs) (h : s.Lists rings) : t.Lists rings := by
  rw [Lists, hn, hp]
  exact h

theorem live_congr (h : t.prevs = s.prevs) : t.Live m ↔ s.Live m := by
  rw [Live, h]
  rfl

end Kernel

/-! ## The part of the state that does not matter -/

/-- The two kernels differ in registers, process states and whom the channels reply to. -/
structure SameCaps (cfg : Config) (s s' : Kernel) : Prop where
  nodes : s'.nodes = s.nodes
  schedule : s'.schedule = s.schedule
  receivers : ∀ ch, s'.receivers ch 0 = s.receivers ch 0
  replies : ∀ ch p, s'.receivers ch 1 = some p → s.receivers ch 1 = some p ∨ p < cfg.nProc
  history : s'.history = s.history
  pids : ∀ p, (s'.procs p).pid = (s.procs p).pid

namespace SameCaps

theorem refl (s : Kernel) : SameCaps cfg s s :=
  ⟨rfl, rfl, fun _ => rfl, fun _ _ h => Or.inl h, rfl, fun _ => rfl⟩

theorem trans (h : SameCaps cfg s s') (h' : SameCaps cfg s' t) : SameCaps cfg s t where
  nodes := h'.nodes.trans h.nodes
  schedule := h'.schedule.trans h.schedule
  receivers ch := (h'.receivers ch).trans (h.receivers ch)
  replies ch p hp := (h'.replies ch p hp).elim (h.replies ch p) Or.inr
  history := h'.history.trans h.history
  pids p := (h'.pids p).trans (h.pids p)

theorem nexts (h : SameCaps cfg s s') : s'.nexts = s.nexts := by
  funext n
  rw [Kernel.nexts, h.nodes]
  rfl

theorem prevs (h : SameCaps cfg s s') : s'.prevs = s.prevs := by
  funext n
  rw [Kernel.prevs, h.nodes]
  rfl

theorem caps (h : SameCaps cfg s s') : s'.caps = s.caps := by
  funext n
  rw [Kernel.caps, h.nodes]
  rfl

theorem live (h : SameCaps cfg s s') : s'.Live n ↔ s.Live n := Kernel.live_congr h.prevs

theorem lists (h : SameCaps cfg s s') {rings : Sentinel → List NodeRef} (hl : s.Lists rings) :
    s'.Lists rings := Kernel.lists_congr h.nexts h.prevs hl

/-- The invariant is about capabilities and constants only. -/
theorem good (h : SameCaps cfg s s') (hg : s.Good cfg) : s'.Good cfg where
  lists := hg.lists.imp fun _ => h.lists
  bounds p i hn := hg.bounds p i (h.live.mp hn)
  valid p i hn := by
    rw [h.caps]
    exact hg.valid p i (h.live.mp hn)
  known p i := by
    rw [h.caps]
    exact hg.known p i
  pids p hp := (h.pids p).trans (hg.pids p hp)
  receivers ch k p hk := by
    match k with
    | 0 => exact hg.receivers ch 0 p ((h.receivers ch).symm.trans hk)
    | 1 => exact (h.replies ch p hk).elim (hg.receivers ch 1 p) id
  entries q k := by
    rw [h.schedule]
    exact hg.entries q k

theorem setProc {x : Proc} (hx : x.pid = (s.procs p).pid) : SameCaps cfg s (s.setProc p x) where
  nodes := rfl
  schedule := rfl
  receivers _ := rfl
  replies _ _ h := Or.inl h
  history := rfl
  pids q := by
    by_cases hq : q = p
    · subst hq
      simpa [Kernel.setProc] using hx
    · simp [Kernel.setProc, hq]

theorem setReg (r : Reg) (x : Word) : SameCaps cfg s (s.setReg p r x) := setProc rfl
theorem setState (x : Word) : SameCaps cfg s (s.setState p x) := setProc rfl

end SameCaps

/-! ## The operations -/

namespace Kernel

/-- What `syscall_derive_cap` leaves: the parent updated, the new capability right behind it. -/
def deriveNode (cfg : Config) (s : Kernel) (pid : Nat) (src dst : NodeRef) (par c : Cap)
    (q : NodeRef) : Kernel :=
  (((s.setCap src par).assign cfg pid c.view).spliceIn c dst src q).record (.derived src dst)

/-- What `interprocess_move` leaves when it succeeds. -/
def handOver (cfg : Config) (s : Kernel) (pid : Nat) (src dst a q : NodeRef) : Kernel :=
  (s.assign cfg pid (s.caps src).view).moveNode (s.caps src) src dst a q

section

variable {pid : Nat} {src dst a q : NodeRef} {par c : Cap}

@[simp] theorem procs_deriveNode : (s.deriveNode cfg pid src dst par c q).procs = s.procs := by
  simp [deriveNode, record, setCap, setNode]

@[simp] theorem procs_handOver : (s.handOver cfg pid src dst a q).procs = s.procs := by
  simp [handOver]

@[simp] theorem caps_deriveNode : (s.deriveNode cfg pid src dst par c q).caps =
    Function.update (Function.update s.caps src par) dst c := by
  simp [deriveNode]

@[simp] theorem caps_handOver :
    (s.handOver cfg pid src dst a q).caps = Function.update s.caps dst (s.caps src) := by
  simp [handOver]

/-- A derivation brings one node to life. -/
theorem live_deriveNode (hq : s.Live q) :
    (s.deriveNode cfg pid src dst par c q).Live m ↔ m = dst ∨ s.Live m := by
  have hprevs : ((s.setCap src par).assign cfg pid c.view).prevs = s.prevs := by simp
  rw [deriveNode, live_record, live_spliceIn ((live_congr hprevs).mpr hq), live_congr hprevs]

/-- A move one, and ends another's. -/
theorem live_handOver (hq : s.Live q) (hne : dst ≠ src) :
    (s.handOver cfg pid src dst a q).Live m ↔ m = dst ∨ m ≠ src ∧ s.Live m := by
  have hprevs : (s.assign cfg pid (s.caps src).view).prevs = s.prevs := by simp
  rw [handOver, live_moveNode ((live_congr hprevs).mpr hq) hne, live_congr hprevs]

end
end Kernel

/-- What a call does to the tables, once it has passed its checks. -/
inductive CapOp where
  | skip
  | derive (pid i j : Nat) (c : Cap)
  | move (pid i j : Nat)
  /-- From a slot of one process to a slot of another. -/
  | transfer (srcPid i destPid j : Nat)
  | delete (pid i : Nat)
  /-- The slot is dead; its stale words are reset. -/
  | wipe (pid i : Nat)

/-- A kernel after the operation, from one in which its checks pass. The new node is linked behind
    its parent, and nothing else moves. -/
inductive CapStep (cfg : Config) : Kernel → CapOp → Kernel → Prop where
  | skip (s : Kernel) : CapStep cfg s .skip s
  | derive {s : Kernel} {pid i j : Nat} {c par : Cap} {q : NodeRef} (hpid : pid < cfg.nProc)
      (hj : j < cfg.nCaps) (hsrc : s.Live (.slot pid i)) (hdst : ¬ s.Live (.slot pid j))
      (hcan : CanDerive (s.caps (.slot pid i)).view c.view)
      (hpar : par.view = (s.caps (.slot pid i)).view.afterDerive c.view)
      (hq : Ring.Linked s.nexts s.prevs (.slot pid i) q) :
      CapStep cfg s (.derive pid i j c)
        (s.deriveNode cfg pid (.slot pid i) (.slot pid j) par c q)
  | move {s : Kernel} {pid i j : Nat} {a q : NodeRef} (hpid : pid < cfg.nProc)
      (hj : j < cfg.nCaps) (hsrc : s.Live (.slot pid i)) (hdst : ¬ s.Live (.slot pid j))
      (ha : Ring.Linked s.nexts s.prevs a (.slot pid i))
      (hq : Ring.Linked s.nexts s.prevs (.slot pid i) q) (hne : q ≠ .slot pid i) :
      CapStep cfg s (.move pid i j)
        (s.moveNode (s.caps (.slot pid i)) (.slot pid i) (.slot pid j) a q)
  | transfer {s : Kernel} {srcPid i destPid j : Nat} {a q : NodeRef} (hpid : destPid < cfg.nProc)
      (hj : j < cfg.nCaps) (hsrc : s.Live (.slot srcPid i)) (hdst : ¬ s.Live (.slot destPid j))
      (hex : ¬ (s.caps (.slot srcPid i)).view.Exhausted)
      (ha : Ring.Linked s.nexts s.prevs a (.slot srcPid i))
      (hq : Ring.Linked s.nexts s.prevs (.slot srcPid i) q) (hne : q ≠ .slot srcPid i) :
      CapStep cfg s (.transfer srcPid i destPid j)
        (s.handOver cfg destPid (.slot srcPid i) (.slot destPid j) a q)
  | delete {s : Kernel} {pid i : Nat} {a q : NodeRef} (hsrc : s.Live (.slot pid i))
      (hex : ¬ (s.caps (.slot pid i)).view.Exhausted)
      (ha : Ring.Linked s.nexts s.prevs a (.slot pid i))
      (hq : Ring.Linked s.nexts s.prevs (.slot pid i) q) (hne : q ≠ .slot pid i) :
      CapStep cfg s (.delete pid i) (s.spliceOut (.slot pid i) a q)
  | wipe {s : Kernel} {pid i : Nat} {c : Cap} (hsrc : ¬ s.Live (.slot pid i))
      (hc : c.view = (s.caps (.slot pid i)).view.reset) :
      CapStep cfg s (.wipe pid i) (s.setCap (.slot pid i) c)

/-! ## The operations keep the invariant -/

theorem live_of_linked {a b : NodeRef} (h : Ring.Linked s.nexts s.prevs a b) : s.Live b := by
  rw [Kernel.Live, h.2]
  exact Option.some_ne_none a

/-- Everything but the lists: what is live is in its table and valid, what is not is known. -/
theorem Kernel.Good.of_slots (hg : s.Good cfg) (hl : ∃ rings, t.Lists rings)
    (hp : t.procs = s.procs) (hr : ∀ ch k p, t.receivers ch k = some p → p < cfg.nProc)
    (he : EntriesOk cfg t)
    (hb : ∀ p i, t.Live (.slot p i) → s.Live (.slot p i) ∨ p < cfg.nProc ∧ i < cfg.nCaps)
    (hv : ∀ p i, t.Live (.slot p i) → (t.caps (.slot p i)).view.Valid cfg)
    (hk : ∀ p i, t.caps (.slot p i) = s.caps (.slot p i) ∨
      (t.caps (.slot p i)).view.Known cfg) : t.Good cfg where
  lists := hl
  bounds p i h := (hb p i h).elim (hg.bounds p i) id
  valid := hv
  known p i := (hk p i).elim (fun h => h ▸ hg.known p i) id
  pids p h := hp ▸ hg.pids p h
  receivers := hr
  entries := he

/-- The hook enters no process that does not exist. -/
theorem receivers_assign_lt (hr : ∀ ch k q, s.receivers ch k = some q → q < cfg.nProc)
    (hp : p < cfg.nProc) (c : Capability) (ch : Nat) (k : Fin 2) (q : Nat)
    (h : (s.assign cfg p c).receivers ch k = some q) : q < cfg.nProc := by
  have hset : ∀ ch', (s.setReceiver ch' 0 (some p)).receivers ch k = some q → q < cfg.nProc := by
    intro ch' h
    by_cases hch : ch = ch'
    · subst hch
      by_cases hk : k = 0
      · subst hk
        simp only [Kernel.setReceiver, Function.update_self, Option.some.injEq] at h
        exact h ▸ hp
      · simp only [Kernel.setReceiver, Function.update_self, Function.update_of_ne hk] at h
        exact hr _ _ _ h
    · simp only [Kernel.setReceiver, Function.update_of_ne hch] at h
      exact hr _ _ _ h
  cases c with
  | receiver ch' g => exact hset ch' h
  | server ch' g => exact hset ch' h
  | _ => exact hr _ _ _ h

/-- A capability that only changes its place stays valid. -/
theorem Kernel.Good.of_moved {srcPid si dp di : Nat} (hg : s.Good cfg)
    (hl : ∃ rings, t.Lists rings) (hp : t.procs = s.procs)
    (hr : ∀ ch k p, t.receivers ch k = some p → p < cfg.nProc) (he : EntriesOk cfg t)
    (hcaps : t.caps = Function.update s.caps (.slot dp di) (s.caps (.slot srcPid si)))
    (hsrc : s.Live (.slot srcPid si))
    (hlive : ∀ {m}, t.Live m → m = .slot dp di ∨ s.Live m)
    (hin : dp < cfg.nProc ∧ di < cfg.nCaps) : t.Good cfg := by
  refine hg.of_slots hl hp hr he ?_ ?_ ?_
  · intro p i h
    rcases hlive h with h | h
    · obtain ⟨rfl, rfl⟩ := NodeRef.slot.inj h
      exact Or.inr hin
    · exact Or.inl h
  · intro p i h
    rw [hcaps]
    by_cases hd : (.slot p i : NodeRef) = .slot dp di
    · rw [hd, Function.update_self]
      exact hg.valid _ _ hsrc
    · rw [Function.update_of_ne hd]
      exact hg.valid _ _ ((hlive h).resolve_left hd)
  · intro p i
    rw [hcaps]
    by_cases hd : (.slot p i : NodeRef) = .slot dp di
    · right
      rw [hd, Function.update_self]
      exact Or.inr (hg.valid _ _ hsrc)
    · exact Or.inl (Function.update_of_ne hd _ _)

/-- What a revocation writes is valid again. -/
theorem Capability.Valid.reset {c : Capability} (h : c.Valid cfg) : c.reset.Valid cfg := by
  obtain ⟨hwf, hin⟩ := h
  have hspan : ∀ {r : Span}, r.WF → (r.carve r.first).WF := fun hr =>
    ⟨le_rfl, hr.1.trans hr.2.1, hr.2.2⟩
  cases c with
  | memory => exact ⟨⟨hspan hwf.1, Or.inl rfl⟩, hin⟩
  | time => exact ⟨hspan hwf, hin⟩
  | channels => exact ⟨hspan hwf, hin⟩
  | supervisor => exact ⟨hspan hwf, hin⟩
  | _ => exact ⟨hwf, hin⟩

theorem Capability.Known.reset {c : Capability} (h : c.Known cfg) : c.reset.Known cfg := by
  rcases h with rfl | h
  · exact Or.inl rfl
  · exact Or.inr h.reset

/-- Every operation keeps the invariant. -/
theorem CapStep.good {op : CapOp} (h : CapStep cfg s op t) (hg : s.Good cfg) : t.Good cfg := by
  obtain ⟨rings, hl⟩ := hg.lists
  cases h with
  | skip => exact hg
  | @derive pid i j c par q hpid hj hsrc hdst hcan hpar hq =>
    have hcv := hcan.valid_child (hg.valid _ _ hsrc)
    have hpv := hcan.valid_parent (hg.valid _ _ hsrc)
    -- the child and the updated parent are valid, and every other capability is as it was
    have hcaps : ∀ m, ((s.deriveNode cfg pid (.slot pid i) (.slot pid j) par c q).caps
        m).view.Valid cfg ∨ (s.deriveNode cfg pid (.slot pid i) (.slot pid j) par c q).caps m =
          s.caps m ∧ m ≠ .slot pid j := by
      intro m
      rw [Kernel.caps_deriveNode]
      by_cases hd : m = .slot pid j
      · left
        rw [hd, Function.update_self]
        exact hcv
      · rw [Function.update_of_ne hd]
        by_cases hs : m = .slot pid i
        · left
          rw [hs, Function.update_self, hpar]
          exact hpv
        · right
          exact ⟨Function.update_of_ne hs _ _, hd⟩
    have hlive : ∀ {m}, (s.deriveNode cfg pid (.slot pid i) (.slot pid j) par c q).Live m ↔
        m = .slot pid j ∨ s.Live m := Kernel.live_deriveNode (live_of_linked hq)
    refine hg.of_slots ?_ Kernel.procs_deriveNode ?_ ?_ ?_ ?_ ?_
    · obtain ⟨k, hk⟩ := hl.live_iff.mp hsrc
      have hl' : ((s.setCap (.slot pid i) par).assign cfg pid c.view).Lists rings :=
        Kernel.lists_congr (by simp) (by simp) hl
      exact ⟨_, hl'.insert (fun h => hdst ((Kernel.live_congr (by simp)).mp h)) hk
        (by simpa using hq)⟩
    · exact receivers_assign_lt (s := s.setCap (.slot pid i) par) hg.receivers hpid c.view
    · exact entriesOk_assign (s := s.setCap (.slot pid i) par) hg.entries (hg.pidOk hpid)
    · intro p' i' h
      rcases hlive.mp h with h | h
      · obtain ⟨rfl, rfl⟩ := NodeRef.slot.inj h
        exact Or.inr ⟨hpid, hj⟩
      · exact Or.inl h
    · intro p' i' h
      refine (hcaps _).elim id fun ⟨heq, hd⟩ => ?_
      rw [heq]
      exact hg.valid _ _ ((hlive.mp h).resolve_left hd)
    · exact fun p' i' => (hcaps _).elim (fun h => Or.inr (Or.inr h)) fun h => Or.inl h.1
  | @move pid i j a q hpid hj hsrc hdst ha hq hne =>
    have hds : (.slot pid j : NodeRef) ≠ .slot pid i := fun e => hdst (e ▸ hsrc)
    have hlive : ∀ {m}, (s.moveNode (s.caps (.slot pid i)) (.slot pid i) (.slot pid j) a q).Live m ↔
        m = .slot pid j ∨ m ≠ .slot pid i ∧ s.Live m :=
      Kernel.live_moveNode (live_of_linked hq) hds
    obtain ⟨k, hk⟩ := hl.live_iff.mp hsrc
    exact hg.of_moved ⟨_, hl.move hdst hk (by simp) ha hq hne⟩ rfl hg.receivers hg.entries
      Kernel.caps_moveNode hsrc (fun h => (hlive.mp h).imp id And.right) ⟨hpid, hj⟩
  | @transfer srcPid i destPid j a q hpid hj hsrc hdst hex ha hq hne =>
    have hds : (.slot destPid j : NodeRef) ≠ .slot srcPid i := fun e => hdst (e ▸ hsrc)
    have hlive : ∀ {m}, (s.handOver cfg destPid (.slot srcPid i) (.slot destPid j) a q).Live m ↔
        m = .slot destPid j ∨ m ≠ .slot srcPid i ∧ s.Live m :=
      Kernel.live_handOver (live_of_linked hq) hds
    obtain ⟨k, hk⟩ := hl.live_iff.mp hsrc
    have hl' : (s.assign cfg destPid (s.caps (.slot srcPid i)).view).Lists rings :=
      Kernel.lists_congr (by simp) (by simp) hl
    have hdst' : ¬ (s.assign cfg destPid (s.caps (.slot srcPid i)).view).Live (.slot destPid j) :=
      fun h => hdst ((Kernel.live_congr (by simp)).mp h)
    exact hg.of_moved ⟨_, hl'.move hdst' hk (by simp) (by simpa using ha) (by simpa using hq) hne⟩
      Kernel.procs_handOver (receivers_assign_lt hg.receivers hpid _)
      (entriesOk_assign hg.entries (hg.pidOk hpid)) Kernel.caps_handOver hsrc
      (fun h => (hlive.mp h).imp id And.right) ⟨hpid, hj⟩
  | @delete pid i a q hsrc hex ha hq hne =>
    have hlive : ∀ {m}, (s.spliceOut (.slot pid i) a q).Live m ↔ m ≠ .slot pid i ∧ s.Live m :=
      Kernel.live_spliceOut (live_of_linked hq) hne
    obtain ⟨k, hk⟩ := hl.live_iff.mp hsrc
    refine hg.of_slots ⟨_, hl.delete hk (by simp) ha hq⟩ rfl hg.receivers hg.entries ?_ ?_ ?_
    · exact fun p' i' h => Or.inl (hlive.mp h).2
    · intro p' i' h
      rw [Kernel.caps_spliceOut]
      exact hg.valid _ _ (hlive.mp h).2
    · exact fun p' i' => Or.inl (by rw [Kernel.caps_spliceOut])
  | @wipe pid i c hsrc hc =>
    have hlive : ∀ {m}, (s.setCap (.slot pid i) c).Live m ↔ s.Live m :=
      Kernel.live_congr (by simp)
    refine hg.of_slots ⟨rings, Kernel.lists_congr (by simp) (by simp) hl⟩ rfl hg.receivers
      hg.entries ?_ ?_ ?_
    · exact fun p' i' h => Or.inl (hlive.mp h)
    · intro p' i' h
      -- the node that is reset is dead, so no live capability changes
      have hne : (.slot p' i' : NodeRef) ≠ .slot pid i := fun e => hsrc (e ▸ hlive.mp h)
      rw [Kernel.caps_setCap, Function.update_of_ne hne]
      exact hg.valid _ _ (hlive.mp h)
    · intro p' i'
      rw [Kernel.caps_setCap]
      by_cases hs : (.slot p' i' : NodeRef) = .slot pid i
      · right
        rw [hs, Function.update_self, hc]
        exact (hg.known _ _).reset
      · exact Or.inl (Function.update_of_ne hs _ _)

end SepKernel
