import SepKernel.Domains
import SepKernel.Exceptions
import SepKernel.Lib.TwoRuns

/-!
# What a domain sees of the kernel

A domain sees its processes with their tables, and its channels and quanta. Two kernels that look
alike to it serve its processes alike: a handler run in both ends in the same way, and they look
alike after it. The links of the nodes are not part of what is seen, as the lists are shared with
other domains; what the operations on them come to depends on no more than which slots are live.
-/

namespace SepKernel

open TwoRuns (Agrees)

variable {κ : Type} {dom : Resource → κ} {d : κ} {cfg : Config} {s t : Kernel} {cap : Cap}
  {p q ch i j : Nat}

/-- Two kernels look the same to a domain: its processes, capabilities, channels and quanta are. -/
structure Kernel.Alike (cfg : Config) (dom : Resource → κ) (d : κ) (s t : Kernel) : Prop where
  procs : ∀ p, dom (.process p) = d → s.procs p = t.procs p
  live : ∀ p i, dom (.process p) = d → (s.Live (.slot p i) ↔ t.Live (.slot p i))
  caps : ∀ p i, dom (.process p) = d → s.caps (.slot p i) = t.caps (.slot p i)
  receivers : ∀ ch k, dom (.channel ch) = d → s.receivers ch k = t.receivers ch k
  schedule : ∀ h q, cfg.minHartid ≤ h → dom (.quantum h q) = d →
    s.schedule q (h - cfg.minHartid) = t.schedule q (h - cfg.minHartid)

/-- Alike, and the lists of both are in order. -/
structure Twins (cfg : Config) (dom : Resource → κ) (d : κ) (s t : Kernel) : Prop where
  alike : s.Alike cfg dom d t
  left : ∃ rings, s.Lists rings
  right : ∃ rings, t.Lists rings

namespace Twins

/-! ## Processes -/

theorem setProc (h : Twins cfg dom d s t) (p : Nat) (x : Proc) :
    Twins cfg dom d (s.setProc p x) (t.setProc p x) where
  alike := { h.alike with
    procs := fun q hq => by
      by_cases hqp : q = p
      · rw [hqp, Kernel.procs_setProc_same, Kernel.procs_setProc_same]
      · rw [Kernel.procs_setProc_of_ne _ hqp, Kernel.procs_setProc_of_ne _ hqp,
          h.alike.procs q hq] }
  left := h.left
  right := h.right

theorem setReg (h : Twins cfg dom d s t) (hp : dom (.process p) = d) (r : Reg) (x : Word) :
    Twins cfg dom d (s.setReg p r x) (t.setReg p r x) := by
  rw [Kernel.setReg, Kernel.setReg, h.alike.procs p hp]
  exact h.setProc p _

theorem setState (h : Twins cfg dom d s t) (hp : dom (.process p) = d) (x : Word) :
    Twins cfg dom d (s.setState p x) (t.setState p x) := by
  rw [Kernel.setState, Kernel.setState, h.alike.procs p hp]
  exact h.setProc p _

theorem readReg (h : Twins cfg dom d s t) (hp : dom (.process p) = d) (r : Reg) :
    Agrees (Twins cfg dom d) (readReg p r) s t := by
  refine .of_runs (readReg_run p r s) ?_ h
  rw [h.alike.procs p hp]
  exact readReg_run p r t

theorem writeReg (h : Twins cfg dom d s t) (hp : dom (.process p) = d) (r : Reg) (x : Word) :
    Agrees (Twins cfg dom d) (writeReg p r x) s t := .update (h.setReg hp r x)

theorem readState (h : Twins cfg dom d s t) (hp : dom (.process p) = d) :
    Agrees (Twins cfg dom d) (readState p) s t := by
  refine .of_runs (readState_run p s) ?_ h
  rw [h.alike.procs p hp]
  exact readState_run p t

theorem writeState (h : Twins cfg dom d s t) (hp : dom (.process p) = d) (x : Word) :
    Agrees (Twins cfg dom d) (writeState p x) s t := .update (h.setState hp x)

theorem casState (h : Twins cfg dom d s t) (hp : dom (.process p) = d) (x y : Word) :
    Agrees (Twins cfg dom d) (casState p x y) s t := by
  refine (h.readState hp).bind fun z s t _ _ h => .ite (fun _ => ?_) fun _ => .pure false h
  exact (h.writeState hp y).bind fun _ s t _ _ h => .pure true h

theorem fetchAndAndState (h : Twins cfg dom d s t) (hp : dom (.process p) = d) (x : Word) :
    Agrees (Twins cfg dom d) (fetchAndAndState p x) s t := by
  refine (h.readState hp).bind fun z s t _ _ h => ?_
  exact (h.writeState hp _).bind fun _ s t _ _ h => .pure z h

theorem fetchAndOrState (h : Twins cfg dom d s t) (hp : dom (.process p) = d) (x : Word) :
    Agrees (Twins cfg dom d) (fetchAndOrState p x) s t := by
  refine (h.readState hp).bind fun z s t _ _ h => ?_
  exact (h.writeState hp _).bind fun _ s t _ _ h => .pure z h

theorem procRelease (h : Twins cfg dom d s t) (hp : dom (.process p) = d) :
    Agrees (Twins cfg dom d) (procRelease p) s t := by
  refine (h.readState hp).bind fun z s t _ _ h => .ite (fun _ => ?_) fun _ => .pure _ h
  exact (h.fetchAndAndState hp _).bind fun _ s t _ _ h => .pure _ h

theorem procSenderRelease (h : Twins cfg dom d s t) (hp : dom (.process p) = d) :
    Agrees (Twins cfg dom d) (procSenderRelease p) s t :=
  (h.fetchAndAndState hp _).bind fun _ _ _ _ _ h => .pure _ h

theorem procSupervisorResume (h : Twins cfg dom d s t) (hp : dom (.process p) = d) :
    Agrees (Twins cfg dom d) (procSupervisorResume p) s t := by
  refine (h.casState hp _ _).bind fun b s t _ _ h => .ite (fun _ => ?_) fun _ => .pure _ h
  exact (h.writeState hp _).bind fun _ s t _ _ h => .pure _ h

theorem procSupervisorRelease (h : Twins cfg dom d s t) (hp : dom (.process p) = d) :
    Agrees (Twins cfg dom d) (procSupervisorRelease p) s t := by
  refine (h.readState hp).bind fun z s t _ _ h => ?_
  exact (Agrees.lift _ h).bind fun _ s t _ _ h => h.writeState hp _

theorem procSupervisorSuspend (h : Twins cfg dom d s t) (hp : dom (.process p) = d) :
    Agrees (Twins cfg dom d) (procSupervisorSuspend p) s t := by
  refine (h.fetchAndOrState hp _).bind fun z s t _ _ h => .ite (fun _ => .pure _ h) fun _ => ?_
  refine .ite (fun _ => ?_) fun _ => .pure _ h
  exact (h.writeState hp _).bind fun _ s t _ _ h => .pure _ h

theorem procReadRegister (h : Twins cfg dom d s t) (hp : dom (.process p) = d) (regi : Word) :
    Agrees (Twins cfg dom d) (procReadRegister p regi) s t := by
  rw [SepKernel.procReadRegister]
  cases Reg.all[regi.toNat]? with
  | none => exact .pure _ h
  | some r => exact h.readReg hp r

theorem procWriteRegister (h : Twins cfg dom d s t) (hp : dom (.process p) = d)
    (regi regv : Word) : Agrees (Twins cfg dom d) (procWriteRegister p regi regv) s t := by
  rw [SepKernel.procWriteRegister]
  cases Reg.all[regi.toNat]? with
  | none => exact .pure _ h
  | some r =>
    refine (h.readReg hp r).bind fun z s t _ _ h => ?_
    exact (h.writeReg hp r _).bind fun _ s t _ _ h => .pure z h

/-! ## Nodes -/

theorem capAt (h : Twins cfg dom d s t) (hp : dom (.process p) = d) :
    s.capAt (.slot p i) = t.capAt (.slot p i) := by
  have hlive := h.alike.live p i hp
  by_cases hl : s.Live (.slot p i)
  · rw [Kernel.capAt_of_live hl, Kernel.capAt_of_live (hlive.mp hl), h.alike.caps p i hp]
  · rw [Kernel.capAt_of_dead hl, Kernel.capAt_of_dead (mt hlive.mpr hl)]

theorem capNodeGetCap (h : Twins cfg dom d s t) (hp : dom (.process p) = d) :
    Agrees (Twins cfg dom d) (capNodeGetCap (.slot p i)) s t := by
  refine .of_runs (capNodeGetCap_run _ s) ?_ h
  rw [h.capAt hp]
  exact capNodeGetCap_run _ t

theorem capNodeIsDeleted (h : Twins cfg dom d s t) (hp : dom (.process p) = d) :
    Agrees (Twins cfg dom d) (capNodeIsDeleted (.slot p i)) s t := by
  have hlive := h.alike.live p i hp
  by_cases hl : s.Live (.slot p i)
  · exact .of_runs (capNodeIsDeleted_of_live hl) (capNodeIsDeleted_of_live (hlive.mp hl)) h
  · exact .of_runs (capNodeIsDeleted_of_dead hl) (capNodeIsDeleted_of_dead (mt hlive.mpr hl)) h

/-- Nothing but the nodes changes, and the slots of the domain change alike. -/
theorem of_nodes {s' t' : Kernel} (h : Twins cfg dom d s t) (hl : ∃ rings, s'.Lists rings)
    (hr : ∃ rings, t'.Lists rings)
    (hs : s'.procs = s.procs ∧ s'.schedule = s.schedule ∧ s'.receivers = s.receivers)
    (ht : t'.procs = t.procs ∧ t'.schedule = t.schedule ∧ t'.receivers = t.receivers)
    (hlive : ∀ p i, dom (.process p) = d → (s'.Live (.slot p i) ↔ t'.Live (.slot p i)))
    (hcaps : ∀ p i, dom (.process p) = d → s'.caps (.slot p i) = t'.caps (.slot p i)) :
    Twins cfg dom d s' t' where
  alike :=
    { procs := fun p hp => by rw [hs.1, ht.1, h.alike.procs p hp]
      live := hlive
      caps := hcaps
      receivers := fun ch k hch => by rw [hs.2.2, ht.2.2, h.alike.receivers ch k hch]
      schedule := fun h' q hlo hq => by rw [hs.2.1, ht.2.1, h.alike.schedule h' q hlo hq] }
  left := hl
  right := hr

theorem update_caps (h : Twins cfg dom d s t) (n : NodeRef) (c : Cap)
    (hp : dom (.process p) = d) : Function.update s.caps n c (.slot p i) =
      Function.update t.caps n c (.slot p i) := by
  by_cases hn : (.slot p i : NodeRef) = n
  · rw [hn, Function.update_self, Function.update_self]
  · rw [Function.update_of_ne hn, Function.update_of_ne hn, h.alike.caps p i hp]

theorem setCap (h : Twins cfg dom d s t) (n : NodeRef) (c : Cap) :
    Twins cfg dom d (s.setCap n c) (t.setCap n c) := by
  have hlists : ∀ {u : Kernel}, (∃ rings, u.Lists rings) → ∃ rings, (u.setCap n c).Lists rings :=
    fun ⟨rings, hu⟩ => ⟨rings, Kernel.lists_congr (by simp) (by simp) hu⟩
  refine h.of_nodes (hlists h.left) (hlists h.right) ⟨rfl, rfl, rfl⟩ ⟨rfl, rfl, rfl⟩
    (fun p i hp => ?_) fun p i hp => ?_
  · rw [Kernel.live_congr (t := s.setCap n c) (s := s) (by simp),
      Kernel.live_congr (t := t.setCap n c) (s := t) (by simp)]
    exact h.alike.live p i hp
  · rw [Kernel.caps_setCap, Kernel.caps_setCap]
    exact h.update_caps n c hp

theorem writeCap (h : Twins cfg dom d s t) (n : NodeRef) (c : Cap) :
    Agrees (Twins cfg dom d) (writeCap n c) s t := .update (h.setCap n c)

end Twins

/-- Insertion between two neighbours, for a kernel whose lists are in order. -/
theorem insert_spec (cfg : Config) (cap : Cap) {n m : NodeRef} (hl : ∃ rings, s.Lists rings) (hn : ¬ s.Live n)
    (hm : s.Live m) : ∃ t, (capNodeInsert cfg cap n m).run s = .ok (true, t) ∧
      (∃ rings, t.Lists rings) ∧
      (t.procs = s.procs ∧ t.schedule = s.schedule ∧ t.receivers = s.receivers) ∧
      (∀ x, t.Live x ↔ x = n ∨ s.Live x) ∧ t.caps = Function.update s.caps n cap := by
  obtain ⟨rings, hl⟩ := hl
  obtain ⟨k, -, q, hk, -, hq⟩ := hl.exists_neighbours hm
  exact ⟨s.spliceIn cap n m q, capNodeInsert_run (not_not.mp hn) hm hq.1 hq.2,
    ⟨_, hl.insert hn hk hq⟩, ⟨rfl, rfl, rfl⟩,
    fun x => Kernel.live_spliceIn (live_of_linked hq), Kernel.caps_spliceIn⟩

/-- Insertion behind a node that has been deleted. -/
theorem insert_behind_dead {n m : NodeRef} (hn : ¬ s.Live n) (hm : ¬ s.Live m) :
    (capNodeInsert cfg cap n m).run s = .ok (false, s.setCap n cap) := by
  obtain ⟨fuel, hfuel⟩ := cfg.exists_loopFuel
  have hdead : (s.nodes n).prev.isNone = true := Option.isNone_iff_eq_none.mpr (not_not.mp hn)
  have hm' : ((s.setCap n cap).nodes m).prev.isNone = true := by
    change ((s.setCap n cap).prevs m).isNone = true
    rw [Kernel.prevs_setCap]
    exact Option.isNone_iff_eq_none.mpr (not_not.mp hm)
  rw [capNodeInsert, run_bind_ok (run_get s), run_bind_ok (run_kassert hdead s),
    run_bind_ok (writeCap_run _ _ _), run_bind_ok (run_get _), hfuel, capNodeInsertLoop,
    run_bind_ok (run_get _), hm']
  rfl

/-- Insertion of a node that is in a list. -/
theorem insert_live {n m : NodeRef} (hn : s.Live n) :
    (capNodeInsert cfg cap n m).run s = .error .assertion := by
  have hlive : kassert (s.nodes n).prev.isNone = .error .assertion := by
    change kassert (s.prevs n).isNone = _
    rw [Option.isNone_eq_false_iff.mpr (Option.isSome_iff_ne_none.mpr hn)]
    rfl
  rw [capNodeInsert, run_bind_ok (run_get s)]
  exact run_bind_error (run_lift_error hlive s) _

theorem delete_spec (cfg : Config) (hl : ∃ rings, s.Lists rings) (hn : s.Live (.slot p i)) :
    ∃ t, (capNodeDelete cfg (.slot p i)).run s = .ok (true, t) ∧ (∃ rings, t.Lists rings) ∧
      (t.procs = s.procs ∧ t.schedule = s.schedule ∧ t.receivers = s.receivers) ∧
      (∀ x, t.Live x ↔ x ≠ .slot p i ∧ s.Live x) ∧ t.caps = s.caps := by
  obtain ⟨rings, hl⟩ := hl
  obtain ⟨k, a, q, hk, ha, hq⟩ := hl.exists_neighbours hn
  have hne : q ≠ .slot p i := hl.next_ne hn (fun k => by simp) hq.1
  exact ⟨s.spliceOut (.slot p i) a q, capNodeDelete_run ha.2 hq.1 hq.2 hne,
    ⟨_, hl.delete hk (by simp) ha hq⟩, ⟨rfl, rfl, rfl⟩,
    fun x => Kernel.live_spliceOut (live_of_linked hq) hne, Kernel.caps_spliceOut⟩

theorem delete_dead {n : NodeRef} (hn : ¬ s.Live n) :
    (capNodeDelete cfg n).run s = .ok (false, s) := by
  obtain ⟨fuel, hfuel⟩ := cfg.exists_loopFuel
  have hnone : (s.nodes n).prev = none := not_not.mp hn
  rw [capNodeDelete, hfuel, capNodeDeleteLoop, run_bind_ok (run_get s), hnone]
  rfl

/-- The index is the pointer. -/
theorem processAt_eq {pid : Word} (h : (processAt cfg pid).run s = .ok (p, t)) :
    p = pid.toNat := by
  obtain ⟨-, s', -, h⟩ := run_bind_inv h
  exact (Prod.mk.inj (Except.ok.inj h)).1.symm

theorem readReceiver_eq {k : Fin 2} {o : Option Nat}
    (h : (readReceiver cfg ch k).run s = .ok (o, t)) : s.receivers ch k = o := by
  obtain ⟨_, s', hcheck, h⟩ := run_bind_inv h
  obtain ⟨rfl, -⟩ := Prod.mk.inj (Except.ok.inj h)
  unfold checkIndex at hcheck
  split at hcheck
  · obtain ⟨-, rfl⟩ := Prod.mk.inj (Except.ok.inj hcheck)
    rfl
  · cases hcheck

/-- Who is acquired is who was looked up. -/
theorem acquireReceiver_eq {proc : Option Nat} {channel : Word}
    (h : (acquireReceiver proc channel).run s = .ok (some p, t)) : proc = some p := by
  cases proc with
  | none => cases (Prod.mk.inj (Except.ok.inj h)).1
  | some r =>
    obtain ⟨b, s', -, h⟩ := run_bind_inv h
    cases b with
    | false => cases (Prod.mk.inj (Except.ok.inj h)).1
    | true => exact (Prod.mk.inj (Except.ok.inj h)).1

namespace Twins

theorem capNodeInsert (h : Twins cfg dom d s t) (c : Cap) (hp : dom (.process p) = d)
    (hq : dom (.process q) = d) :
    Agrees (Twins cfg dom d) (capNodeInsert cfg c (.slot p i) (.slot q j)) s t := by
  have hlive := h.alike.live p i hp
  have hlive' := h.alike.live q j hq
  by_cases hn : s.Live (.slot p i)
  · exact .of_errors (insert_live hn) (insert_live (hlive.mp hn))
  by_cases hm : s.Live (.slot q j)
  · obtain ⟨s', hs, hls, hrs, hls', hcs⟩ := insert_spec cfg c h.left hn hm
    obtain ⟨t', ht, hlt, hrt, hlt', hct⟩ := insert_spec cfg c h.right
      (mt hlive.mpr hn) (hlive'.mp hm)
    refine .of_runs hs ht (h.of_nodes hls hlt hrs hrt (fun p i hp => ?_) fun p i hp => ?_)
    · rw [hls', hlt', h.alike.live p i hp]
    · rw [hcs, hct]
      exact h.update_caps _ c hp
  · exact .of_runs (insert_behind_dead hn hm)
      (insert_behind_dead (mt hlive.mpr hn) (mt hlive'.mpr hm)) (h.setCap _ c)

theorem capNodeDelete (h : Twins cfg dom d s t) (hp : dom (.process p) = d) :
    Agrees (Twins cfg dom d) (capNodeDelete cfg (.slot p i)) s t := by
  have hlive := h.alike.live p i hp
  by_cases hn : s.Live (.slot p i)
  · obtain ⟨s', hs, hls, hrs, hls', hcs⟩ := delete_spec cfg h.left hn
    obtain ⟨t', ht, hlt, hrt, hlt', hct⟩ := delete_spec cfg h.right (hlive.mp hn)
    refine .of_runs hs ht (h.of_nodes hls hlt hrs hrt (fun p i hp => ?_) fun p i hp => ?_)
    · rw [hls', hlt', h.alike.live p i hp]
    · rw [hcs, hct, h.alike.caps p i hp]
  · exact .of_runs (delete_dead hn) (delete_dead (mt hlive.mpr hn)) h

theorem record (h : Twins cfg dom d s t) (e : CapEvent) :
    Twins cfg dom d (s.record e) (t.record e) := ⟨{ h.alike with }, h.left, h.right⟩

theorem capNodeMove (h : Twins cfg dom d s t) (c : Cap) (hp : dom (.process p) = d)
    (hq : dom (.process q) = d) :
    Agrees (Twins cfg dom d) (capNodeMove cfg c (.slot p i) (.slot q j)) s t := by
  refine (h.capNodeInsert c hq hp).bind fun b s t _ _ h => .ite (fun _ => .pure _ h) fun _ => ?_
  exact (Agrees.update (h.record _)).bind fun _ s t _ _ h => h.capNodeDelete hp

/-! ## The tables -/

theorem setSchedule (h : Twins cfg dom d s t) (q hart : Nat) (x : BitVec 16) :
    Twins cfg dom d (s.setSchedule q hart x) (t.setSchedule q hart x) where
  alike := { h.alike with
    schedule := fun h' q' hlo hq => by
      simp only [Kernel.setSchedule]
      by_cases hqq : q' = q
      · subst hqq
        simp only [Function.update_self]
        by_cases hh : h' - cfg.minHartid = hart
        · rw [hh, Function.update_self, Function.update_self]
        · rw [Function.update_of_ne hh, Function.update_of_ne hh, h.alike.schedule h' q' hlo hq]
      · rw [Function.update_of_ne hqq, Function.update_of_ne hqq, h.alike.schedule h' q' hlo hq] }
  left := h.left
  right := h.right

theorem schedSet (h : Twins cfg dom d s t) (q hartid : Nat) (pid length : Word) :
    Agrees (Twins cfg dom d) (schedSet cfg q hartid pid length) s t := by
  refine (Agrees.lift _ h).bind fun _ s t _ _ h => (Agrees.lift _ h).bind fun _ s t _ _ h => ?_
  refine (Agrees.lift _ h).bind fun _ s t _ _ h => (Agrees.lift _ h).bind fun _ s t _ _ h => ?_
  exact .update (h.setSchedule q _ _)

theorem schedUpdateLoop (h : Twins cfg dom d s t) (hartid stop : Nat) (pid : Word) (n : Nat) :
    Agrees (Twins cfg dom d) (schedUpdateLoop cfg hartid stop pid n) s t := by
  induction n generalizing s t with
  | zero => exact .pure _ h
  | succ n ih => exact (h.schedSet _ _ _ _).bind fun _ s t _ _ h => ih h

theorem schedUpdate (h : Twins cfg dom d s t) (hp : dom (.process p) = d)
    (hartid lo hi pid : Word) :
    Agrees (Twins cfg dom d) (schedUpdate cfg (.slot p i) hartid lo hi pid) s t := by
  refine (Agrees.lift _ h).bind fun _ s t _ _ h => (Agrees.lift _ h).bind fun _ s t _ _ h => ?_
  refine (Agrees.lift _ h).bind fun _ s t _ _ h => (Agrees.lift _ h).bind fun _ s t _ _ h => ?_
  refine (h.capNodeIsDeleted hp).bind fun b s t _ _ h => .ite (fun _ => ?_) fun _ => .pure _ h
  exact h.schedUpdateLoop _ _ _ _

theorem setReceiver (h : Twins cfg dom d s t) (ch : Nat) (k : Fin 2) (x : Option Nat) :
    Twins cfg dom d (s.setReceiver ch k x) (t.setReceiver ch k x) where
  alike := { h.alike with
    receivers := fun ch' k' hch => by
      simp only [Kernel.setReceiver]
      by_cases hc : ch' = ch
      · subst hc
        simp only [Function.update_self]
        by_cases hk : k' = k
        · rw [hk, Function.update_self, Function.update_self]
        · rw [Function.update_of_ne hk, Function.update_of_ne hk, h.alike.receivers ch' k' hch]
      · rw [Function.update_of_ne hc, Function.update_of_ne hc, h.alike.receivers ch' k' hch] }
  left := h.left
  right := h.right

theorem readReceiver (h : Twins cfg dom d s t) (hch : dom (.channel ch) = d) (k : Fin 2) :
    Agrees (Twins cfg dom d) (readReceiver cfg ch k) s t := by
  refine Agrees.bind (α := Unit) (.ite (fun _ => .pure _ h) fun _ => .throw _)
    fun _ s t _ _ h => .of_runs rfl ?_ h
  rw [h.alike.receivers ch k hch]
  rfl

theorem writeReceiver (h : Twins cfg dom d s t) (ch : Nat) (k : Fin 2) (x : Option Nat) :
    Agrees (Twins cfg dom d) (writeReceiver cfg ch k x) s t := by
  refine Agrees.bind (α := Unit) (.ite (fun _ => .pure _ h) fun _ => .throw _)
    fun _ s t _ _ h => .update (h.setReceiver ch k x)

theorem casReceiver (h : Twins cfg dom d s t) (hch : dom (.channel ch) = d) (k : Fin 2)
    (x y : Option Nat) : Agrees (Twins cfg dom d) (casReceiver cfg ch k x y) s t := by
  refine (h.readReceiver hch k).bind fun z s t _ _ h => .ite (fun _ => ?_) fun _ => .pure _ h
  exact (h.writeReceiver ch k y).bind fun _ s t _ _ h => .pure _ h

theorem processAt (h : Twins cfg dom d s t) (pid : Word) :
    Agrees (Twins cfg dom d) (processAt cfg pid) s t :=
  Agrees.bind (α := Unit) (.ite (fun _ => .pure _ h) fun _ => .throw _) fun _ _ _ _ _ h => .pure _ h

/-! ## The internal functions of `src/syscall.c` -/

theorem receiversUpdate (h : Twins cfg dom d s t) (hp : dom (.process p) = d) (proc : Option Nat)
    (channel : Word) :
    Agrees (Twins cfg dom d) (receiversUpdate cfg proc (.slot p i) channel) s t := by
  refine (h.capNodeIsDeleted hp).bind fun b s t _ _ h => .ite (fun _ => ?_) fun _ => .pure _ h
  refine (h.writeReceiver _ _ _).bind fun _ s t _ _ h => .ite (fun _ => ?_) fun _ => .pure _ h
  exact h.writeReceiver _ _ _

theorem capUpdateHook (h : Twins cfg dom d s t) (hp : dom (.process p) = d) (proc : Option Nat)
    (hproc : ∀ q, proc = some q → dom (.process q) = d) (c : Cap) :
    Agrees (Twins cfg dom d) (capUpdateHook cfg proc (.slot p i) c) s t := by
  unfold SepKernel.capUpdateHook
  -- the three types, from the last to the first
  have hserver : ∀ s t, Twins cfg dom d s t → Agrees (Twins cfg dom d)
      (if capIsType c .server = true then do
          SepKernel.receiversUpdate cfg proc (.slot p i) (← Gen.capServerGetChannel c)
        else pure () : KernelM Unit) s t := fun s t h =>
    .ite (fun _ => (Agrees.lift _ h).bind fun ch s t _ _ h => h.receiversUpdate hp proc ch)
      fun _ => .pure _ h
  have hreceiver : ∀ s t, Twins cfg dom d s t → Agrees (Twins cfg dom d)
      (do
        if capIsType c .receiver = true then
          SepKernel.receiversUpdate cfg proc (.slot p i) (← Gen.capReceiverGetChannel c)
        if capIsType c .server = true then
          SepKernel.receiversUpdate cfg proc (.slot p i) (← Gen.capServerGetChannel c) :
            KernelM Unit) s t := fun s t h => by
    refine .ite (fun _ => (Agrees.lift _ h).bind fun ch s t _ _ h => ?_) fun _ => hserver s t h
    exact (h.receiversUpdate hp proc ch).bind fun _ s t _ _ h => hserver s t h
  refine .ite (fun _ => ?_) fun _ => hreceiver s t h
  refine (Agrees.lift _ h).bind fun hartid s t _ _ h => (Agrees.lift _ h).bind fun lo s t _ _ h => ?_
  refine (Agrees.lift _ h).bind fun hi s t _ _ h => ?_
  have hupdate : ∀ (pid : Word) s t, Twins cfg dom d s t → Agrees (Twins cfg dom d) (do
      SepKernel.schedUpdate cfg (.slot p i) hartid lo hi pid
      if capIsType c .receiver = true then
        SepKernel.receiversUpdate cfg proc (.slot p i) (← Gen.capReceiverGetChannel c)
      if capIsType c .server = true then
        SepKernel.receiversUpdate cfg proc (.slot p i) (← Gen.capServerGetChannel c) :
          KernelM Unit) s t := fun pid s t h =>
    (h.schedUpdate hp hartid lo hi pid).bind fun _ s t _ _ h => hreceiver s t h
  cases proc with
  | none => exact hupdate _ s t h
  | some q =>
    refine .bind_get ?_
    rw [h.alike.procs q (hproc q rfl)]
    exact hupdate _ s t h

theorem interprocessMove (h : Twins cfg dom d s t) (hp : dom (.process p) = d)
    (hq : dom (.process q) = d) (srcCidx destCidx : Word) :
    Agrees (Twins cfg dom d) (interprocessMove cfg p srcCidx q destCidx) s t := by
  unfold SepKernel.interprocessMove
  refine (h.capNodeGetCap hp).bind fun c s t _ _ h => ?_
  refine (h.capNodeIsDeleted hp).bind fun b s t _ _ h => .ite (fun _ => .pure _ h) fun _ => ?_
  refine (h.capNodeIsDeleted hq).bind fun b s t _ _ h => .ite (fun _ => .pure _ h) fun _ => ?_
  refine (h.capUpdateHook hp _ (fun r hr => Option.some.inj hr ▸ hq) c).bind fun _ s t _ _ h => ?_
  exact (h.capNodeMove c hp hq).bind fun b s t _ _ h => .pure _ h

/-! ## Capability calls -/

theorem syscallReadCap (h : Twins cfg dom d s t) (hp : dom (.process p) = d) (cidx : Word) :
    Agrees (Twins cfg dom d) (syscallReadCap cfg p cidx) s t := by
  refine (h.capNodeGetCap hp).bind fun c s t _ _ h => ?_
  refine (h.writeReg hp _ _).bind fun _ s t _ _ h => ?_
  exact (h.writeReg hp _ _).bind fun _ s t _ _ h => .pure _ h

theorem syscallMoveCap (h : Twins cfg dom d s t) (hp : dom (.process p) = d)
    (srcCidx destCidx : Word) :
    Agrees (Twins cfg dom d) (syscallMoveCap cfg p srcCidx destCidx) s t := by
  refine (h.capNodeGetCap hp).bind fun c s t _ _ h => ?_
  refine (h.capNodeIsDeleted hp).bind fun b s t _ _ h => .ite (fun _ => .pure _ h) fun _ => ?_
  refine (h.capNodeIsDeleted hp).bind fun b s t _ _ h => .ite (fun _ => .pure _ h) fun _ => ?_
  exact (h.capNodeMove c hp hp).bind fun b s t _ _ h => .pure _ h

theorem syscallDeleteCap (h : Twins cfg dom d s t) (hp : dom (.process p) = d) (cidx : Word) :
    Agrees (Twins cfg dom d) (syscallDeleteCap cfg p cidx) s t := by
  refine (h.capNodeGetCap hp).bind fun c s t _ _ h => ?_
  refine (h.capNodeIsDeleted hp).bind fun b s t _ _ h => .ite (fun _ => .pure _ h) fun _ => ?_
  refine (h.capNodeDelete hp).bind fun b s t _ _ h => .ite (fun _ => .pure _ h) fun _ => ?_
  exact (h.capUpdateHook hp none (fun q hq => nomatch hq) c).bind fun _ s t _ _ h => .pure _ h

/-- The loop stands behind a guard that lets only a deleted node pass, and leaves such a node
    alone. -/
theorem revokeLoop (h : Twins cfg dom d s t) (c : Cap) (hn : ¬ s.Live (.slot p i))
    (hn' : ¬ t.Live (.slot p i)) :
    Agrees (Twins cfg dom d) (revokeLoop cfg q (.slot p i) c cfg.loopFuel) s t :=
  .of_runs (revokeLoop_run_of_dead hn) (revokeLoop_run_of_dead hn') h

theorem syscallRevokeCap (h : Twins cfg dom d s t) (hp : dom (.process p) = d) (cidx : Word) :
    Agrees (Twins cfg dom d) (syscallRevokeCap cfg p cidx) s t := by
  refine (h.writeReg hp _ _).bind fun _ s t _ _ h => ?_
  have hcap : (s.nodes (procGetCapNode cfg p cidx)).cap =
      (t.nodes (procGetCapNode cfg p cidx)).cap := h.alike.caps p _ hp
  refine .bind_get ?_
  rw [hcap]
  generalize (t.nodes (procGetCapNode cfg p cidx)).cap = c
  have hlive := h.alike.live p (cidx.toNat % cfg.nCaps) hp
  by_cases hl : s.Live (procGetCapNode cfg p cidx)
  · exact Agrees.of_runs (run_bind_ok (capNodeIsDeleted_of_live hl) _)
      (run_bind_ok (capNodeIsDeleted_of_live (hlive.mp hl)) _) h
  · refine (h.capNodeIsDeleted hp).bind fun b s' t' hs ht h => .ite (fun _ => .pure _ h) fun _ => ?_
    obtain ⟨-, rfl⟩ := Prod.mk.inj (Except.ok.inj ((capNodeIsDeleted_of_dead hl).symm.trans hs))
    obtain ⟨-, rfl⟩ := Prod.mk.inj (Except.ok.inj
      ((capNodeIsDeleted_of_dead (mt hlive.mpr hl)).symm.trans ht))
    refine (h.revokeLoop c hl (mt hlive.mpr hl)).bind fun _ s t _ _ h => ?_
    refine (Agrees.lift _ h).bind fun c' s t _ _ h => (h.writeCap _ c').bind fun _ s t _ _ h => ?_
    exact (h.capUpdateHook hp _ (fun q hq => Option.some.inj hq ▸ hp) c).bind
      fun _ s t _ _ h => .pure _ h

theorem syscallDeriveCap (h : Twins cfg dom d s t) (hp : dom (.process p) = d)
    (srcCidx destCidx word0 word1 : Word) :
    Agrees (Twins cfg dom d) (syscallDeriveCap cfg p srcCidx destCidx word0 word1) s t := by
  refine (h.writeReg hp _ _).bind fun _ s t _ _ h => (h.capNodeGetCap hp).bind fun c s t _ _ h => ?_
  refine (h.capNodeIsDeleted hp).bind fun b s t _ _ h => .ite (fun _ => .pure _ h) fun _ => ?_
  refine (h.capNodeIsDeleted hp).bind fun b s t _ _ h => .ite (fun _ => .pure _ h) fun _ => ?_
  refine (Agrees.lift _ h).bind fun b s t _ _ h => .ite (fun _ => .pure _ h) fun _ => ?_
  refine (Agrees.lift _ h).bind fun c' s t _ _ h => (h.writeCap _ c').bind fun _ s t _ _ h => ?_
  refine (h.capUpdateHook hp _ (fun q hq => Option.some.inj hq ▸ hp) _).bind
    fun _ s t _ _ h => ?_
  refine (h.capNodeInsert _ hp hp).bind fun b s t _ _ h => .ite (fun _ => ?_) fun _ => .pure _ h
  exact (Agrees.update (h.record _)).bind fun _ s t _ _ h => .pure _ h

/-! ## Invocations -/

theorem supervisorMove {q r : Nat} (h : Twins cfg dom d s t) (hp : dom (.process p) = d)
    (hq : dom (.process q) = d) (hr : dom (.process r) = d) (srcCidx destCidx : Word) :
    Agrees (Twins cfg dom d) (supervisorMove cfg r p srcCidx q destCidx) s t := by
  refine (h.casState hr _ _).bind fun b s t _ _ h => .ite (fun _ => .pure _ h) fun _ => ?_
  refine (h.interprocessMove hp hq _ _).bind fun code s t _ _ h => ?_
  exact (h.procSupervisorRelease hr).bind fun _ s t _ _ h => .pure _ h

theorem syscallInvokeSupervisor (h : Twins cfg dom d s t) (hp : dom (.process p) = d) {c : Cap}
    (ht : capIsType c .supervisor = true) (hc : ∀ x ∈ c.view.reach, dom x = d)
    (pid op arg0 arg1 : Word) :
    Agrees (Twins cfg dom d) (syscallInvokeSupervisor cfg p c pid op arg0 arg1) s t := by
  rw [Cap.view_eq ht] at hc
  refine .bind_lift fun _ _ => .bind_lift fun lo hlo => .bind_lift fun hi hhi => ?_
  obtain rfl := Except.ok.inj ((Field.checkedGet_eq ht).symm.trans hlo)
  obtain rfl := Except.ok.inj ((Field.checkedGet_eq ht).symm.trans hhi)
  refine .ite (fun _ => .pure _ h) fun hin => ?_
  rw [Bool.or_eq_true, decide_eq_true_iff, decide_eq_true_iff, gt_iff_lt, ge_iff_le,
    BitVec.lt_def, BitVec.le_def, not_or, not_lt, not_le] at hin
  have hq : dom (.process pid.toNat) = d := hc _ ⟨pid.toNat, hin, rfl⟩
  refine (h.processAt pid).bind fun q s t hs _ h => ?_
  have hq : dom (.process q) = d := processAt_eq hs ▸ hq
  cases op.toNat using supervisorOp_cases with
  | suspend => exact (h.procSupervisorSuspend hq).bind fun b s t _ _ h => .pure _ h
  | resume => exact (h.procSupervisorResume hq).bind fun b s t _ _ h => .pure _ h
  | getState =>
    refine (h.readState hq).bind fun x s t _ _ h => ?_
    exact (h.writeReg hp _ x).bind fun _ s t _ _ h => .pure _ h
  | readReg =>
    refine (h.casState hq _ _).bind fun b s t _ _ h => .ite (fun _ => .pure _ h) fun _ => ?_
    refine (h.procReadRegister hq _).bind fun x s t _ _ h => ?_
    refine (h.writeReg hp _ x).bind fun _ s t _ _ h => ?_
    exact (h.procSupervisorRelease hq).bind fun _ s t _ _ h => .pure _ h
  | writeReg =>
    refine (h.casState hq _ _).bind fun b s t _ _ h => .ite (fun _ => .pure _ h) fun _ => ?_
    refine (h.procWriteRegister hq _ _).bind fun _ s t _ _ h => ?_
    exact (h.procSupervisorRelease hq).bind fun _ s t _ _ h => .pure _ h
  | readCap =>
    refine (h.casState hq _ _).bind fun b s t _ _ h => .ite (fun _ => .pure _ h) fun _ => ?_
    refine (h.capNodeGetCap hq).bind fun c s t _ _ h => ?_
    refine (h.writeReg hp _ _).bind fun _ s t _ _ h => ?_
    refine (h.writeReg hp _ _).bind fun _ s t _ _ h => ?_
    exact (h.procSupervisorRelease hq).bind fun _ s t _ _ h => .pure _ h
  | giveCap => exact h.supervisorMove hp hq hq _ _
  | takeCap => exact h.supervisorMove hq hp hq _ _
  | unimplemented n => exact .pure _ h

theorem wait_yield (h : Twins cfg dom d s t) (hp : dom (.process p) = d) (channel : Word) :
    Agrees (Twins cfg dom d) (do
      let _ ← procReceiverWait p channel
      schedYield p) s t := by
  refine (h.casState hp _ _).bind fun _ s t _ _ h => ?_
  exact (h.procRelease hp).bind fun _ s t _ _ h => .pure _ h

theorem syscallInvokeReceiver (h : Twins cfg dom d s t) (hp : dom (.process p) = d) (c : Cap) :
    Agrees (Twins cfg dom d) (syscallInvokeReceiver p c) s t :=
  .bind_lift fun _ _ => .bind_lift fun channel _ => h.wait_yield hp channel

theorem deliver {r : Nat} (h : Twins cfg dom d s t) (hp : dom (.process p) = d)
    (hr : dom (.process r) = d) (msg0 msg1 msg2 msg3 srcCidx : Word) :
    Agrees (Twins cfg dom d) (deliver cfg p r msg0 msg1 msg2 msg3 srcCidx) s t := by
  have hmsg : ∀ s t, Twins cfg dom d s t → Agrees (Twins cfg dom d) (do
      SepKernel.writeReg r .a0 errorOk
      SepKernel.writeReg r .a1 msg0
      SepKernel.writeReg r .a2 msg1
      SepKernel.writeReg r .a3 msg2
      SepKernel.writeReg r .a4 msg3) s t := fun s t h => by
    refine (h.writeReg hr _ _).bind fun _ s t _ _ h => ?_
    refine (h.writeReg hr _ _).bind fun _ s t _ _ h => ?_
    refine (h.writeReg hr _ _).bind fun _ s t _ _ h => ?_
    exact (h.writeReg hr _ _).bind fun _ s t _ _ h => h.writeReg hr _ _
  refine (h.readReg hr _).bind fun destCidx s t _ _ h => .ite (fun _ => ?_) fun _ => hmsg s t h
  exact (h.interprocessMove hp hr _ _).bind fun _ s t _ _ h => hmsg s t h

theorem acquireReceiver (h : Twins cfg dom d s t) {proc : Option Nat}
    (hproc : ∀ r, proc = some r → dom (.process r) = d) (channel : Word) :
    Agrees (Twins cfg dom d) (acquireReceiver proc channel) s t := by
  cases proc with
  | none => exact .pure _ h
  | some r => exact (h.casState (hproc r rfl) _ _).bind fun b s t _ _ h => .pure _ h

/-- What an invocation of a channel starts with: it looks up who stands there and tries to acquire
    it. -/
theorem bind_acquire {channel : Word} {k : Fin 2} {g : Option Nat → KernelM Outcome}
    (h : Twins cfg dom d s t) (hch : dom (.channel channel.toNat) = d)
    (hrec : ∀ r, s.receivers channel.toNat k = some r → dom (.process r) = d)
    (hg : ∀ o s t, (∀ r, o = some r → dom (.process r) = d) → Twins cfg dom d s t →
      Agrees (Twins cfg dom d) (g o) s t) :
    Agrees (Twins cfg dom d) (do
      g (← SepKernel.acquireReceiver (← SepKernel.readReceiver cfg channel.toNat k) channel)) s t := by
  refine (h.readReceiver hch k).bind fun proc s' t' hs _ h => ?_
  have hproc : ∀ r, proc = some r → dom (.process r) = d := fun r hr =>
    hrec r ((readReceiver_eq hs).trans hr)
  refine (h.acquireReceiver hproc channel).bind fun o s t hs _ h => hg o s t (fun r hr => ?_) h
  exact hproc r (acquireReceiver_eq (hr ▸ hs))

theorem syscallInvokeSender (h : Twins cfg dom d s t) (hp : dom (.process p) = d) {c : Cap}
    (ht : capIsType c .sender = true) (hc : ∀ x ∈ c.view.reach, dom x = d)
    (hrec : ∀ ch k r, dom (.channel ch) = d → s.receivers ch k = some r → dom (.process r) = d)
    (msg0 msg1 msg2 msg3 srcCidx : Word) :
    Agrees (Twins cfg dom d) (syscallInvokeSender cfg p c msg0 msg1 msg2 msg3 srcCidx) s t := by
  rw [Cap.view_eq ht] at hc
  refine .bind_lift fun _ _ => .bind_lift fun channel hchannel => ?_
  obtain rfl := Except.ok.inj ((Field.checkedGet_eq ht).symm.trans hchannel)
  have hch := hc _ rfl
  refine h.bind_acquire hch (fun r => hrec _ 0 r hch) fun o s t ho h => ?_
  cases o with
  | none => exact .pure _ h
  | some r =>
    refine (h.deliver hp (ho r rfl) _ _ _ _ _).bind fun _ s t _ _ h => ?_
    exact (h.procSenderRelease (ho r rfl)).bind fun _ s t _ _ h => .pure _ h

theorem syscallInvokeServer (h : Twins cfg dom d s t) (hp : dom (.process p) = d) {c : Cap}
    (ht : capIsType c .server = true) (hc : ∀ x ∈ c.view.reach, dom x = d)
    (hrec : ∀ ch k r, dom (.channel ch) = d → s.receivers ch k = some r → dom (.process r) = d)
    (msg0 msg1 msg2 msg3 srcCidx : Word) :
    Agrees (Twins cfg dom d) (syscallInvokeServer cfg p c msg0 msg1 msg2 msg3 srcCidx) s t := by
  rw [Cap.view_eq ht] at hc
  refine .bind_lift fun _ _ => .bind_lift fun channel hchannel => ?_
  obtain rfl := Except.ok.inj ((Field.checkedGet_eq ht).symm.trans hchannel)
  have hch := hc _ rfl
  refine h.bind_acquire hch (fun r => hrec _ 1 r hch) fun o s t ho h => ?_
  cases o with
  | none => exact h.wait_yield hp _
  | some r =>
    refine (h.deliver hp (ho r rfl) _ _ _ _ _).bind fun _ s t _ _ h => ?_
    exact (h.procSenderRelease (ho r rfl)).bind fun _ s t _ _ h => h.wait_yield hp _

theorem syscallInvokeClient (h : Twins cfg dom d s t) (hp : dom (.process p) = d) {c : Cap}
    (ht : capIsType c .client = true) (hc : ∀ x ∈ c.view.reach, dom x = d)
    (hrec : ∀ ch k r, dom (.channel ch) = d → s.receivers ch k = some r → dom (.process r) = d)
    (msg0 msg1 msg2 msg3 srcCidx : Word) :
    Agrees (Twins cfg dom d) (syscallInvokeClient cfg p c msg0 msg1 msg2 msg3 srcCidx) s t := by
  rw [Cap.view_eq ht] at hc
  refine .bind_lift fun _ _ => .bind_lift fun channel hchannel => ?_
  obtain rfl := Except.ok.inj ((Field.checkedGet_eq ht).symm.trans hchannel)
  have hch := hc _ rfl
  refine h.bind_acquire hch (fun r => hrec _ 0 r hch) fun o s t ho h => ?_
  cases o with
  | none => exact .pure _ h
  | some r =>
    refine (h.deliver hp (ho r rfl) _ _ _ _ _).bind fun _ s t _ _ h => ?_
    refine (h.casReceiver hch _ _ _).bind fun _ s t _ _ h => ?_
    refine (h.casState hp _ _).bind fun _ s t _ _ h => ?_
    refine (h.writeReg hp _ _).bind fun _ s t _ _ h => ?_
    refine (h.procSenderRelease (ho r rfl)).bind fun _ s t _ _ h => ?_
    exact (h.procRelease hp).bind fun _ s t _ _ h => .pure _ h

theorem syscallInvokeCap (h : Twins cfg dom d s t) (hp : dom (.process p) = d)
    (hs : s.Separated cfg dom) (cidx arg1 arg2 arg3 arg4 arg5 : Word) :
    Agrees (Twins cfg dom d) (syscallInvokeCap cfg p cidx arg1 arg2 arg3 arg4 arg5) s t := by
  refine (h.capNodeGetCap hp).bind fun c s' t' hc _ h => ?_
  rw [capNodeGetCap_run] at hc
  obtain ⟨rfl, rfl⟩ := Prod.mk.inj (Except.ok.inj hc)
  have hreach : ∀ x ∈ (s.capAt (procGetCapNode cfg p cidx)).view.reach, dom x = d :=
    fun x hx => (hs.held p _ x hx).trans hp
  have hrec : ∀ ch k r, dom (.channel ch) = d → s.receivers ch k = some r →
      dom (.process r) = d := fun ch k r hch hr => (hs.receivers ch k r hr).trans hch
  refine .ite (fun _ => .pure _ h) fun _ => ?_
  refine .ite (fun ht => h.syscallInvokeSupervisor hp ht hreach _ _ _ _) fun _ => ?_
  refine .ite (fun _ => h.syscallInvokeReceiver hp _) fun _ => ?_
  refine .ite (fun ht => h.syscallInvokeSender hp ht hreach hrec _ _ _ _ _) fun _ => ?_
  refine .ite (fun ht => h.syscallInvokeServer hp ht hreach hrec _ _ _ _ _) fun _ => ?_
  exact .ite (fun ht => h.syscallInvokeClient hp ht hreach hrec _ _ _ _ _) fun _ => .pure _ h

/-! ## Traps -/

theorem syscallYield (h : Twins cfg dom d s t) (hp : dom (.process p) = d) (mtimecmp : Word) :
    Agrees (Twins cfg dom d) (syscallYield p mtimecmp) s t := by
  refine (h.writeReg hp _ _).bind fun _ s t _ _ h => (h.writeReg hp _ _).bind fun _ s t _ _ h => ?_
  exact (h.procRelease hp).bind fun _ s t _ _ h => .pure _ h

theorem syscallVector (h : Twins cfg dom d s t) (hp : dom (.process p) = d)
    (hs : s.Separated cfg dom) (mtimecmp : Word) (user : Reg → Word) :
    Agrees (Twins cfg dom d) (syscallVector cfg p mtimecmp user) s t := by
  unfold SepKernel.syscallVector
  split
  · exact h.syscallReadCap hp _
  · exact h.syscallMoveCap hp _ _
  · exact h.syscallDeleteCap hp _
  · exact h.syscallRevokeCap hp _
  · exact h.syscallDeriveCap hp _ _ _ _
  · exact h.syscallInvokeCap hp hs _ _ _ _ _ _
  · refine .bind_get ?_
    rw [h.alike.procs p hp]
    exact Agrees.pure _ h
  · exact (h.procReadRegister hp _).bind fun _ s t _ _ h => .pure _ h
  · exact (h.procWriteRegister hp _ _).bind fun _ s t _ _ h => .pure _ h
  · exact h.syscallYield hp mtimecmp
  · exact .pure _ h

theorem saveContext (h : Twins cfg dom d s t) (hp : dom (.process p) = d) (user : Reg → Word) :
    Agrees (Twins cfg dom d) (saveContext p user) s t := by
  refine .update ?_
  rw [h.alike.procs p hp]
  exact h.setProc p _

theorem trapSyscall (h : Twins cfg dom d s t) (hp : dom (.process p) = d)
    (hs : s.Separated cfg dom) (mtimecmp : Word) (user : Reg → Word) :
    Agrees (Twins cfg dom d) (trapSyscall cfg p mtimecmp user) s t := by
  refine (h.saveContext hp user).bind fun _ s' t' hsave _ h => ?_
  refine (h.writeReg hp _ _).bind fun _ s'' t'' hwrite _ h => ?_
  -- saving the registers leaves the domains separated
  have hs'' : s''.Separated cfg dom := by
    cases hsave
    cases hwrite
    exact ⟨hs.held, hs.receivers, hs.schedule⟩
  refine (h.syscallVector hp hs'' mtimecmp user).bind fun out s t _ _ h => ?_
  cases out with
  | ret code => exact (h.writeReg hp _ _).bind fun _ s t _ _ h => .pure _ h
  | yielded => exact .pure _ h

theorem trapTimer (h : Twins cfg dom d s t) (hp : dom (.process p) = d) (user : Reg → Word) :
    Agrees (Twins cfg dom d) (trapTimer p user) s t := by
  refine (h.saveContext hp user).bind fun _ s t _ _ h => ?_
  exact (h.procRelease hp).bind fun _ s t _ _ h => .pure _ h

theorem exceptionHandler (h : Twins cfg dom d s t) (hp : dom (.process p) = d)
    (mcause mtval mepc : Word) :
    Agrees (Twins cfg dom d) (exceptionHandler p mcause mtval mepc) s t := by
  refine .of_runs (exceptionHandler_run_eq s p mcause mtval mepc)
    (exceptionHandler_run_eq t p mcause mtval mepc) ?_
  rw [h.alike.procs p hp]
  exact h.setProc p _

theorem trapException (h : Twins cfg dom d s t) (hp : dom (.process p) = d) (user : Reg → Word)
    (mcause mtval : Word) :
    Agrees (Twins cfg dom d) (trapException p user mcause mtval) s t :=
  (h.saveContext hp user).bind fun _ _ _ _ _ h => h.exceptionHandler hp mcause mtval _

/-! ## Dispatching -/

theorem procLoadPmp (h : Twins cfg dom d s t) (hp : dom (.process p) = d) :
    Agrees (Twins cfg dom d) (procLoadPmp cfg p) s t := by
  refine .foldlM h _ fun out k _ s t h => ?_
  refine (h.readReg hp _).bind fun x s t _ _ h => .ite (fun _ => .pure _ h) fun _ => ?_
  refine (h.capNodeGetCap hp).bind fun c s t _ _ h => .ite (fun _ => .pure _ h) fun _ => ?_
  exact .bind_lift fun rwx _ => .bind_lift fun addr _ => .pure _ h

end Twins
end SepKernel
