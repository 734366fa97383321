import SepKernel.Requests

/-!
# The capability calls

What `move`, `delete`, `revoke`, `derive` and the transfer inside an invocation do, from a state
that meets the invariant: one lemma for each way out of the function.
-/

namespace SepKernel

open Capability (CanDerive)

variable {cfg : Config} {s t : Kernel} {cap c : Cap} {n : NodeRef} {p i j sp dp : Nat}
  {cidx srcCidx destCidx word0 word1 : Word}

/-- An index is cut down to the table. -/
theorem slotOf_lt (cidx : Word) : slotOf cfg cidx < cfg.nCaps := Nat.mod_lt _ cfg.nCaps_pos

theorem procGetCapNode_eq (p : Nat) (cidx : Word) :
    procGetCapNode cfg p cidx = .slot p (slotOf cfg cidx) := rfl

theorem Kernel.capAt_of_live (h : s.Live n) : s.capAt n = s.caps n := if_neg h
theorem Kernel.capAt_of_dead (h : ¬ s.Live n) : s.capAt n = nullCap := if_pos (not_not.mp h)

/-- An empty slot reads as the null capability. -/
theorem capNodeGetCap_run (n : NodeRef) (s : Kernel) :
    (capNodeGetCap n).run s = .ok (s.capAt n, s) := by
  by_cases h : s.Live n
  · rw [capNodeGetCap_of_live h, Kernel.capAt_of_live h]
  · rw [capNodeGetCap_of_dead h, Kernel.capAt_of_dead h]

/-- Which is of no use. -/
theorem nullCap_view : nullCap.view = .other := by
  have h : capIsType nullCap .empty = true := by decide
  rw [Cap.view_eq h]
  rfl

theorem moveOp_of_moves {src dst : NodeRef} (op : CapOp) (hsrc : s.Live src)
    (hdst : ¬ s.Live dst) : moveOp s src dst op = op := if_pos ⟨hsrc, hdst⟩

theorem moveOp_of_dead {src dst : NodeRef} (op : CapOp) (hsrc : ¬ s.Live src) :
    moveOp s src dst op = .skip := if_neg fun h => hsrc h.1

theorem moveOp_of_live {src dst : NodeRef} (op : CapOp) (hdst : s.Live dst) :
    moveOp s src dst op = .skip := if_neg fun h => h.2 hdst

/-! ## Transfer between processes -/

/-- The hook and the move, if both slots are as they must be. -/
theorem interprocessMove_performs (sp : Nat) (srcCidx destCidx : Word) (hg : s.Good cfg)
    (hdp : dp < cfg.nProc) :
    Performs s (interprocessMove cfg sp srcCidx dp destCidx)
      (transferOp cfg s sp srcCidx dp destCidx)
      fun code t => (code = errorOk ∨ transferOp cfg s sp srcCidx dp destCidx = .skip) ∧
        CapStep cfg s (transferOp cfg s sp srcCidx dp destCidx) t := by
  rw [transferOp]
  by_cases hsrc : s.Live (.slot sp (slotOf cfg srcCidx))
  swap
  · rw [moveOp_of_dead _ hsrc]
    refine ⟨False.elim, fun _ => ⟨errorEmpty, s, ?_, Or.inr rfl, .skip s⟩⟩
    rw [interprocessMove, run_bind_ok (capNodeGetCap_run _ s), procGetCapNode_eq,
      procGetCapNode_eq, run_bind_ok (capNodeIsDeleted_of_dead hsrc)]
    rfl
  by_cases hdst : s.Live (.slot dp (slotOf cfg destCidx))
  · rw [moveOp_of_live _ hdst]
    refine ⟨False.elim, fun _ => ⟨errorCollision, s, ?_, Or.inr rfl, .skip s⟩⟩
    rw [interprocessMove, run_bind_ok (capNodeGetCap_run _ s), procGetCapNode_eq,
      procGetCapNode_eq, run_bind_ok (capNodeIsDeleted_of_live hsrc)]
    simp only [Bool.false_eq_true, if_false]
    rw [run_bind_ok (capNodeIsDeleted_of_live hdst)]
    rfl
  -- the capability moves: the hook comes first, and asserts
  rw [moveOp_of_moves _ hsrc hdst, interprocessMove, Performs,
    run_bind_ok (capNodeGetCap_run _ s), procGetCapNode_eq, procGetCapNode_eq,
    run_bind_ok (capNodeIsDeleted_of_live hsrc)]
  simp only [Bool.false_eq_true, if_false]
  rw [run_bind_ok (capNodeIsDeleted_of_dead hdst), Kernel.capAt_of_live hsrc]
  simp only [Bool.not_true, Bool.false_eq_true, if_false]
  refine ⟨fun hex => run_bind_error (capUpdateHook_run_of_exhausted hex) _, fun hex => ?_⟩
  obtain ⟨a, q, ha, hq, hne⟩ := hg.neighbours hsrc
  refine ⟨errorOk, _, ?_, Or.inl rfl,
    .transfer hdp (slotOf_lt _) hsrc hdst hex ha hq hne⟩
  have hdst' : (s.assign cfg dp (s.caps (.slot sp (slotOf cfg srcCidx))).view).prevs
      (.slot dp (slotOf cfg destCidx)) = none := by
    rw [Kernel.prevs_assign]
    exact not_not.mp hdst
  rw [run_bind_ok (capUpdateHook_run_of_live (hg.valid _ _ hsrc) hex (hg.pidOk hdp) hsrc),
    run_bind_ok (capNodeMove_run hdst' (by simpa using ha) (by simpa using hq) hne)]
  rfl

/-! ## `syscall_move_cap` -/

/-- A move within a table. -/
theorem syscallMoveCap_performs (srcCidx destCidx : Word) (hg : s.Good cfg) (hp : p < cfg.nProc) :
    Performs s (syscallMoveCap cfg p srcCidx destCidx)
      (moveOp s (.slot p (slotOf cfg srcCidx)) (.slot p (slotOf cfg destCidx))
        (.move p (slotOf cfg srcCidx) (slotOf cfg destCidx)))
      fun out t => Returns (moveOp s (.slot p (slotOf cfg srcCidx)) (.slot p (slotOf cfg destCidx))
          (.move p (slotOf cfg srcCidx) (slotOf cfg destCidx))) out ∧ CapStep cfg s
        (moveOp s (.slot p (slotOf cfg srcCidx)) (.slot p (slotOf cfg destCidx))
          (.move p (slotOf cfg srcCidx) (slotOf cfg destCidx))) t := by
  by_cases hsrc : s.Live (.slot p (slotOf cfg srcCidx))
  swap
  · rw [moveOp_of_dead _ hsrc]
    refine ⟨False.elim, fun _ => ⟨_, s, ?_, ⟨errorEmpty, rfl, Or.inr rfl⟩, .skip s⟩⟩
    rw [syscallMoveCap, run_bind_ok (capNodeGetCap_run _ s), procGetCapNode_eq,
      procGetCapNode_eq, run_bind_ok (capNodeIsDeleted_of_dead hsrc)]
    rfl
  by_cases hdst : s.Live (.slot p (slotOf cfg destCidx))
  · rw [moveOp_of_live _ hdst]
    refine ⟨False.elim, fun _ => ⟨_, s, ?_, ⟨errorCollision, rfl, Or.inr rfl⟩, .skip s⟩⟩
    rw [syscallMoveCap, run_bind_ok (capNodeGetCap_run _ s), procGetCapNode_eq,
      procGetCapNode_eq, run_bind_ok (capNodeIsDeleted_of_live hsrc)]
    simp only [Bool.false_eq_true, if_false]
    rw [run_bind_ok (capNodeIsDeleted_of_live hdst)]
    rfl
  rw [moveOp_of_moves _ hsrc hdst]
  obtain ⟨a, q, ha, hq, hne⟩ := hg.neighbours hsrc
  refine ⟨False.elim, fun _ => ⟨_, _, ?_, ⟨errorOk, rfl, Or.inl rfl⟩,
    .move hp (slotOf_lt _) hsrc hdst ha hq hne⟩⟩
  rw [syscallMoveCap, run_bind_ok (capNodeGetCap_run _ s), procGetCapNode_eq,
    procGetCapNode_eq, run_bind_ok (capNodeIsDeleted_of_live hsrc)]
  simp only [Bool.false_eq_true, if_false]
  rw [run_bind_ok (capNodeIsDeleted_of_dead hdst), Kernel.capAt_of_live hsrc]
  simp only [Bool.not_true, Bool.false_eq_true, if_false]
  rw [run_bind_ok (capNodeMove_run (not_not.mp hdst) ha hq hne)]
  rfl

/-! ## `syscall_delete_cap` -/

/-- There is nothing to delete. -/
theorem syscallDeleteCap_run_of_dead (h : ¬ s.Live (.slot p (slotOf cfg cidx))) :
    (syscallDeleteCap cfg p cidx).run s = .ok (.ret errorEmpty, s) := by
  rw [syscallDeleteCap, run_bind_ok (capNodeGetCap_run _ s), procGetCapNode_eq,
    run_bind_ok (capNodeIsDeleted_of_dead h)]
  rfl

/-- The node is gone when the hook asks, so the hook does nothing but assert. -/
theorem syscallDeleteCap_performs (hg : s.Good cfg) (h : s.Live (.slot p (slotOf cfg cidx))) :
    Performs s (syscallDeleteCap cfg p cidx) (.delete p (slotOf cfg cidx))
      fun out t => Returns (.delete p (slotOf cfg cidx)) out ∧
        CapStep cfg s (.delete p (slotOf cfg cidx)) t := by
  obtain ⟨a, q, ha, hq, hne⟩ := hg.neighbours h
  have hdead : ¬ (s.spliceOut (.slot p (slotOf cfg cidx)) a q).Live (.slot p (slotOf cfg cidx)) :=
    fun hl => ((Kernel.live_spliceOut (live_of_linked hq) hne).mp hl).1 rfl
  rw [syscallDeleteCap, Performs, run_bind_ok (capNodeGetCap_run _ s), procGetCapNode_eq,
    run_bind_ok (capNodeIsDeleted_of_live h)]
  simp only [Bool.false_eq_true, if_false]
  rw [run_bind_ok (capNodeDelete_run ha.2 hq.1 hq.2 hne), Kernel.capAt_of_live h]
  simp only [Bool.not_true, Bool.false_eq_true, if_false]
  refine ⟨fun hex => run_bind_error (capUpdateHook_run_of_exhausted hex) _, fun hex =>
    ⟨_, _, ?_, ⟨errorOk, rfl, Or.inl rfl⟩, .delete h hex ha hq hne⟩⟩
  rw [run_bind_ok (capUpdateHook_run_of_dead (Or.inr (hg.valid _ _ h)) hex (Or.inl rfl) hdead)]
  rfl

/-! ## `syscall_revoke_cap` -/

/-- The guard turns a live slot back. -/
theorem syscallRevokeCap_run_of_live (h : s.Live (.slot p (slotOf cfg cidx))) :
    (syscallRevokeCap cfg p cidx).run s = .ok (.ret errorEmpty, s.setReg p .a0 errorPreempted) := by
  have h' : (s.setReg p .a0 errorPreempted).Live (.slot p (slotOf cfg cidx)) := h
  rw [syscallRevokeCap, run_bind_ok (writeReg_run _ _ _ s), run_bind_ok (run_get _),
    procGetCapNode_eq, run_bind_ok (capNodeIsDeleted_of_live h')]
  rfl

/-- The loop of a revocation ends at once where the node is deleted. -/
theorem revokeLoop_run_of_dead (h : ¬ s.Live n) :
    (revokeLoop cfg p n cap cfg.loopFuel).run s = .ok ((), s) := by
  obtain ⟨fuel, hfuel⟩ := cfg.exists_loopFuel
  rw [hfuel, revokeLoop, run_bind_ok (capNodeIsDeleted_of_dead h)]
  rfl

/-- With its guard the wrong way round, a revocation gets past it only on an empty slot. -/
theorem syscallRevokeCap_run_of_dead (h : ¬ s.Live (.slot p (slotOf cfg cidx))) :
    (syscallRevokeCap cfg p cidx).run s = (do
      writeCap (.slot p (slotOf cfg cidx))
        (← revokeUpdateCap (s.caps (.slot p (slotOf cfg cidx))))
      capUpdateHook cfg (some p) (.slot p (slotOf cfg cidx)) (s.caps (.slot p (slotOf cfg cidx)))
      return .ret errorOk : KernelM Outcome).run (s.setReg p .a0 errorPreempted) := by
  have h' : ¬ (s.setReg p .a0 errorPreempted).Live (.slot p (slotOf cfg cidx)) := h
  rw [syscallRevokeCap, run_bind_ok (writeReg_run _ _ _ s), run_bind_ok (run_get _),
    procGetCapNode_eq, run_bind_ok (capNodeIsDeleted_of_dead h')]
  simp only [Bool.not_true, Bool.false_eq_true, if_false]
  rw [run_bind_ok (revokeLoop_run_of_dead h')]
  rfl

/-- So all it does is write to the empty slot. -/
theorem syscallRevokeCap_performs (hg : s.Good cfg) (hp : p < cfg.nProc)
    (h : ¬ s.Live (.slot p (slotOf cfg cidx))) :
    Performs s (syscallRevokeCap cfg p cidx) (.wipe p (slotOf cfg cidx))
      fun out t => Returns (.wipe p (slotOf cfg cidx)) out ∧
        CapStep cfg (s.setReg p .a0 errorPreempted) (.wipe p (slotOf cfg cidx)) t := by
  rw [Performs, syscallRevokeCap_run_of_dead h]
  by_cases hch : capIsType (s.caps (.slot p (slotOf cfg cidx))) .channels = true
  · exact ⟨fun _ => run_bind_error (run_lift_error (revokeUpdateCap_channels hch) _) _,
      fun hh => absurd (Or.inl hch) hh⟩
  rw [Bool.not_eq_true] at hch
  obtain ⟨c', hc', hview⟩ := revokeUpdateCap_spec hch
  have hsame : SameCaps cfg s (s.setReg p .a0 errorPreempted) := .setReg _ _
  have hdead : ¬ ((s.setReg p .a0 errorPreempted).setCap (.slot p (slotOf cfg cidx)) c').Live
      (.slot p (slotOf cfg cidx)) := fun hl =>
    h (hsame.live.mp ((Kernel.live_congr (Kernel.prevs_setCap _)).mp hl))
  rw [run_bind_ok (run_lift_ok hc' _), run_bind_ok (writeCap_run _ _ _)]
  refine ⟨fun hh => run_bind_error (capUpdateHook_run_of_exhausted
    (hh.resolve_left (by rw [hch]; decide))) _, fun hh => ⟨_, _, ?_, ⟨errorOk, rfl, Or.inl rfl⟩,
      .wipe h hview⟩⟩
  have hhook : (capUpdateHook cfg (some p) (.slot p (slotOf cfg cidx))
      (s.caps (.slot p (slotOf cfg cidx)))).run
        ((s.setReg p .a0 errorPreempted).setCap (.slot p (slotOf cfg cidx)) c') =
          .ok ((), (s.setReg p .a0 errorPreempted).setCap (.slot p (slotOf cfg cidx)) c') :=
    capUpdateHook_run_of_dead (hg.known _ _) (fun he => hh (Or.inr he))
      ((hsame.good hg).pidOk hp) hdead
  rw [run_bind_ok hhook]
  rfl

/-! ## `syscall_derive_cap` -/

/-- A capability that can be derived has something left. -/
theorem Capability.CanDerive.not_exhausted {a b : Capability} (h : CanDerive a b) : ¬ b.Exhausted := by
  cases h with
  | time hfirst hfree hlt => exact fun he => absurd (hfree ▸ he : _ = _) (Nat.ne_of_lt hlt)
  | _ => exact id

/-- A derivation marks the source and fills the destination, or does nothing. -/
theorem syscallDeriveCap_performs (srcCidx destCidx word0 word1 : Word) (hg : s.Good cfg)
    (hp : p < cfg.nProc) :
    Performs s (syscallDeriveCap cfg p srcCidx destCidx word0 word1)
      (deriveOp cfg s p srcCidx destCidx ⟨word0, word1⟩)
      fun out t => Returns (deriveOp cfg s p srcCidx destCidx ⟨word0, word1⟩) out ∧
        CapStep cfg (s.setReg p .a0 errorPreempted)
        (deriveOp cfg s p srcCidx destCidx ⟨word0, word1⟩) t := by
  have hnohang : ¬ (deriveOp cfg s p srcCidx destCidx ⟨word0, word1⟩).Hangs s := by
    unfold deriveOp moveOp
    split
    · split <;> exact id
    · exact id
  have hg' : (s.setReg p .a0 errorPreempted).Good cfg := SameCaps.good (.setReg _ _) hg
  have hop : deriveOp cfg s p srcCidx destCidx ⟨word0, word1⟩ =
      deriveOp cfg (s.setReg p .a0 errorPreempted) p srcCidx destCidx ⟨word0, word1⟩ := rfl
  refine ⟨fun h => absurd h hnohang, fun _ => ?_⟩
  rw [hop]
  generalize hs : s.setReg p .a0 errorPreempted = s' at hg'
  rw [syscallDeriveCap, run_bind_ok (writeReg_run _ _ _ s), hs, procGetCapNode_eq,
    procGetCapNode_eq, run_bind_ok (capNodeGetCap_run _ s')]
  have hskip : ∀ {b : Bool}, (if b = true then CapOp.skip else .skip) = .skip := by
    intro b
    cases b <;> rfl
  by_cases hsrc : s'.Live (.slot p (slotOf cfg srcCidx))
  swap
  · rw [deriveOp, moveOp_of_dead _ hsrc, hskip]
    refine ⟨_, s', ?_, ⟨errorEmpty, rfl, Or.inr rfl⟩, .skip s'⟩
    rw [run_bind_ok (capNodeIsDeleted_of_dead hsrc)]
    rfl
  rw [run_bind_ok (capNodeIsDeleted_of_live hsrc), Kernel.capAt_of_live hsrc]
  simp only [Bool.false_eq_true, if_false]
  by_cases hdst : s'.Live (.slot p (slotOf cfg destCidx))
  · rw [deriveOp, moveOp_of_live _ hdst, hskip]
    refine ⟨_, s', ?_, ⟨errorCollision, rfl, Or.inr rfl⟩, .skip s'⟩
    rw [run_bind_ok (capNodeIsDeleted_of_live hdst)]
    rfl
  rw [run_bind_ok (capNodeIsDeleted_of_dead hdst)]
  simp only [Bool.not_true, Bool.false_eq_true, if_false]
  rw [run_bind_ok (run_lift_ok (Gen.capCanDerive_eq _ _) s')]
  by_cases hcan : capCanDerive (s'.caps (.slot p (slotOf cfg srcCidx))) ⟨word0, word1⟩ = true
  swap
  · rw [deriveOp, if_neg hcan]
    rw [Bool.not_eq_true] at hcan
    refine ⟨_, s', ?_, ⟨errorIllegalDerivation, rfl, Or.inr rfl⟩, .skip s'⟩
    rw [hcan]
    rfl
  -- the derivation goes through
  rw [deriveOp, if_pos hcan, moveOp_of_moves _ hsrc hdst]
  obtain ⟨par, hpar, hview⟩ := deriveUpdateCap_spec hcan
  have hcan' := canDerive_of_capCanDerive hcan
  have hvalid := hcan'.valid_child (hg'.valid _ _ hsrc)
  obtain ⟨a, q, ha, hq, hne⟩ := hg'.neighbours hsrc
  refine ⟨_, _, ?_, ⟨errorOk, rfl, Or.inl rfl⟩, .derive hp (slotOf_lt _) hsrc hdst hcan' hview hq⟩
  have hlive : (s'.setCap (.slot p (slotOf cfg srcCidx)) par).Live
      (.slot p (slotOf cfg srcCidx)) := (Kernel.live_congr (by simp)).mpr hsrc
  have hhook := capUpdateHook_run_of_live (p := p) hvalid hcan'.not_exhausted
    (s := s'.setCap (.slot p (slotOf cfg srcCidx)) par) (hg'.pidOk hp) hlive
  rw [hcan]
  simp only [Bool.not_true, Bool.false_eq_true, if_false]
  rw [run_bind_ok (run_lift_ok hpar s'), run_bind_ok (writeCap_run _ _ _), run_bind_ok hhook,
    run_bind_ok (capNodeInsert_run (p := .slot p (slotOf cfg srcCidx)) (q := q) ?_ ?_ ?_ ?_)]
  · rfl
  · rw [Kernel.prevs_assign, Kernel.prevs_setCap]
    exact not_not.mp hdst
  · rw [Kernel.prevs_assign, Kernel.prevs_setCap]
    exact hsrc
  · rw [Kernel.nexts_assign, Kernel.nexts_setCap]
    exact hq.1
  · rw [Kernel.prevs_assign, Kernel.prevs_setCap]
    exact hq.2

end SepKernel
