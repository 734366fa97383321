import Mathlib.Data.Finset.Prod
import SepKernel.Revocation
import SepKernel.Schedule

/-!
# What revocation takes back

Behind its guard `syscall_revoke_cap` walks down the list from its node, deletes every child it
meets and, at each of them, has the hook write the tables for the revoker; in the end it resets
the capability and calls the hook once more. This file follows that code from a live node.

The hook writes what a capability has left, never what it has handed out. So quanta come back from
the descendants that still hold them and from nowhere else, and a time capability that has
nothing left stops the kernel wherever it is met. For channels the code cannot end at all.
-/

namespace SepKernel

open Lineage (DerivedFrom)
open OwnerTable (Assigned)
open Transition (Reachable)

variable {cfg : Config} {s t : Kernel} {st : System} {cap : Cap} {n x : NodeRef} {p i fuel : Nat}
  {k : Sentinel} {rings : Sentinel → List NodeRef} {pre post : List NodeRef}

/-! ## The code -/

/-- `syscall_revoke_cap` from its `while` to its return. -/
def revokeRest (cfg : Config) (current : Nat) (node : NodeRef) (cap : Cap) : KernelM Outcome := do
  revokeLoop cfg current node cap cfg.loopFuel
  writeCap node (← revokeUpdateCap cap)
  capUpdateHook cfg (some current) node cap
  return .ret errorOk

/-- All that stands before it is the guard. -/
theorem syscallRevokeCap_eq (cfg : Config) (current : Nat) (cidx : Word) :
    syscallRevokeCap cfg current cidx = (do
      writeReg current .a0 errorPreempted
      let node := procGetCapNode cfg current cidx
      let cap := ((← get).nodes node).cap
      if !(← capNodeIsDeleted node) then
        return .ret errorEmpty
      revokeRest cfg current node cap) := rfl

/-! ## A round of the loop -/

/-- The node behind `n` on its list, or the sentinel. -/
theorem linked_next (hl : s.Lists rings) (hk : tailsOf rings k = pre ++ n :: post) :
    Ring.Linked s.nexts s.prevs n (post.head?.getD (.sentinel k)) := by
  refine (hl.ring k).linked ?_
  rw [hl.cons_tail k, hk]
  cases post with
  | nil => exact ⟨.sentinel k :: pre, [], by simp⟩
  | cons x post => exact ⟨.sentinel k :: pre, post ++ [.sentinel k], by simp⟩

theorem live_of_tail (hl : s.Lists rings) (hk : tailsOf rings k = pre ++ n :: post) : s.Live n := by
  refine hl.live_iff.mpr ⟨k, List.mem_of_mem_tail (?_ : n ∈ tailsOf rings k)⟩
  rw [hk]
  simp

/-- What a round sees, up to its test. -/
theorem revokeLoop_run_succ {y : NodeRef} (hn : s.Live n) (hy : s.nexts n = some y) :
    (revokeLoop cfg p n cap (fuel + 1)).run s = (do
      if !capIsChild cap (s.caps y) then
        return
      if ← capNodeDelete2 cfg y n then
        capUpdateHook cfg (some p) n (s.caps y)
      revokeLoop cfg p n cap fuel : KernelM Unit).run s := by
  rw [revokeLoop, run_bind_ok (capNodeIsDeleted_of_live hn)]
  simp only [Bool.false_eq_true, if_false]
  rw [run_bind_ok (run_get s)]
  change (deref (s.nexts n) >>= _).run s = _
  rw [hy, run_bind_ok (deref_run y s), run_bind_ok (run_get s)]
  change (liftM (Gen.capIsChild cap (s.caps y)) >>= _ : KernelM Unit).run s = _
  rw [run_bind_ok (run_lift_ok (Gen.capIsChild_eq _ _) s)]
  rfl

/-- The loop ends at a node that is no child. -/
theorem revokeLoop_run_stop {y : NodeRef} (hn : s.Live n) (hy : s.nexts n = some y)
    (hc : ¬ capIsChild cap (s.caps y) = true) :
    (revokeLoop cfg p n cap (fuel + 1)).run s = .ok ((), s) := by
  rw [Bool.not_eq_true] at hc
  rw [revokeLoop_run_succ hn hy, hc]
  rfl

namespace Kernel

/-- The state after a round that took `x` out from between `n` and `q`. -/
def takeBack (cfg : Config) (s : Kernel) (p : Nat) (n x q : NodeRef) : Kernel :=
  (s.spliceOut x n q).assign cfg p (s.caps x).view

@[simp] theorem caps_takeBack {q : NodeRef} : (s.takeBack cfg p n x q).caps = s.caps := by
  simp [takeBack]

/-- The hook keeps the invariant. -/
theorem Good.assign {c : Capability} (hg : s.Good cfg) (hp : p < cfg.nProc) :
    (s.assign cfg p c).Good cfg where
  lists := hg.lists.imp fun rings hl => lists_congr nexts_assign prevs_assign hl
  bounds q j hl := hg.bounds q j ((live_congr prevs_assign).mp hl)
  valid q j hl := by
    rw [caps_assign]
    exact hg.valid q j ((live_congr prevs_assign).mp hl)
  known q j := by
    rw [caps_assign]
    exact hg.known q j
  pids q hq := by
    rw [procs_assign]
    exact hg.pids q hq
  receivers := receivers_assign_lt hg.receivers hp c
  entries := entriesOk_assign hg.entries (hg.pidOk hp)

end Kernel

/-- The child behind `n`, and where it stands. -/
structure ChildBehind (s : Kernel) (n x q : NodeRef) : Prop where
  prev : Ring.Linked s.nexts s.prevs n x
  next : Ring.Linked s.nexts s.prevs x q
  next_ne : q ≠ x

/-- What stands behind a node can be swept. -/
theorem exists_childBehind (hl : s.Lists rings) (hk : tailsOf rings k = pre ++ n :: x :: post) :
    ∃ q, ChildBehind s n x q := by
  have hk' : tailsOf rings k = (pre ++ [n]) ++ x :: post := by
    rw [hk]
    simp
  have hx : s.Live x := live_of_tail hl hk'
  have hns : ∀ k', x ≠ .sentinel k' := by
    rintro k' rfl
    exact hl.sentinel_notMem k k' (by rw [hk]; simp)
  have hprev : Ring.Linked s.nexts s.prevs n x := linked_next hl hk
  -- the child is no sentinel, so its list has a node beside it
  obtain ⟨-, _, q, -, -, hq⟩ := hl.exists_neighbours hx
  exact ⟨q, hprev, hq, hl.next_ne hx hns hq.1⟩

section

variable {q : NodeRef}

/-- A child with nothing left stops the kernel. -/
theorem revokeLoop_run_exhausted (hn : s.Live n) (hx : ChildBehind s n x q)
    (hc : capIsChild cap (s.caps x) = true) (he : (s.caps x).view.Exhausted) :
    (revokeLoop cfg p n cap (fuel + 1)).run s = .error .assertion := by
  rw [revokeLoop_run_succ hn hx.prev.1, hc]
  simp only [Bool.not_true, Bool.false_eq_true, if_false]
  rw [run_bind_ok (capNodeDelete2_run hx.prev.2 hx.next.1 hx.next.2 hx.next_ne)]
  simp only [if_true]
  exact run_bind_error (capUpdateHook_run_of_exhausted he) _

/-- Any other child is taken back. -/
theorem revokeLoop_run_child (hg : s.Good cfg) (hp : p < cfg.nProc) (hn : s.Live n) (hnx : n ≠ x)
    (hx : ChildBehind s n x q) (hv : (s.caps x).view.Valid cfg)
    (hc : capIsChild cap (s.caps x) = true) (he : ¬ (s.caps x).view.Exhausted) :
    (revokeLoop cfg p n cap (fuel + 1)).run s =
      (revokeLoop cfg p n cap fuel).run (s.takeBack cfg p n x q) := by
  have hlive : (s.spliceOut x n q).Live n :=
    (Kernel.live_spliceOut (live_of_linked hx.next) hx.next_ne).mpr ⟨hnx, hn⟩
  rw [revokeLoop_run_succ hn hx.prev.1, hc]
  simp only [Bool.not_true, Bool.false_eq_true, if_false]
  rw [run_bind_ok (capNodeDelete2_run hx.prev.2 hx.next.1 hx.next.2 hx.next_ne)]
  simp only [if_true]
  rw [run_bind_ok (capUpdateHook_run_of_live (s := s.spliceOut x n q) hv he (hg.pidOk hp) hlive)]
  rfl

theorem mem_tail (hk : tailsOf rings k = pre ++ n :: x :: post) : x ∈ tailsOf rings k := by
  rw [hk]
  simp

/-- To take a child out is to delete it. -/
theorem ChildBehind.good (hx : ChildBehind s n x q) (hg : s.Good cfg) (hl : s.Lists rings)
    (hmem : x ∈ tailsOf rings k) (he : ¬ (s.caps x).view.Exhausted) :
    (s.spliceOut x n q).Good cfg := by
  obtain ⟨d, j, rfl, hlive⟩ := hl.slot_of_mem hg hmem
  exact (CapStep.delete hlive he hx.prev hx.next hx.next_ne).good hg

/-- Behind `n`, the list goes on where the child's went on. -/
theorem ChildBehind.lists (hx : ChildBehind s n x q) (hg : s.Good cfg) (hl : s.Lists rings)
    (hk : tailsOf rings k = pre ++ n :: x :: post) :
    ∃ rings', (s.takeBack cfg p n x q).Lists rings' ∧ tailsOf rings' k = pre ++ n :: post := by
  have hmem := mem_tail hk
  obtain ⟨d, j, rfl, -⟩ := hl.slot_of_mem hg hmem
  refine ⟨_, Kernel.lists_congr Kernel.nexts_assign Kernel.prevs_assign
    (hl.delete (List.mem_of_mem_tail hmem) (by simp) hx.prev hx.next), ?_⟩
  have hhead : (rings k).head? ≠ some (.slot d j) := by
    rw [hl.head k]
    simp
  have hsplit : tailsOf rings k = (pre ++ [n]) ++ .slot d j :: post := by
    rw [hk]
    simp
  rw [tailsOf, Function.update_self, tail_erase hhead]
  change (tailsOf rings k).erase _ = _
  rw [hsplit, List.erase_append_right _ (hl.notMem_of_split hsplit).1, List.erase_cons_head]
  simp

/-- The child is no longer live. -/
theorem live_takeBack {m : NodeRef} (hx : ChildBehind s n x q) :
    (s.takeBack cfg p n x q).Live m ↔ m ≠ x ∧ s.Live m :=
  (Kernel.live_congr Kernel.prevs_assign).trans
    (Kernel.live_spliceOut (live_of_linked hx.next) hx.next_ne)

end

/-! ## The loop -/

/-- The nodes of `run` are deleted, and the schedule names `p` for what they had left. -/
structure Swept (cfg : Config) (p : Nat) (run : List NodeRef) (s t : Kernel) : Prop where
  good : t.Good cfg
  caps : t.caps = s.caps
  live : ∀ m, t.Live m ↔ s.Live m ∧ m ∉ run
  schedule : Assigned {x | ScheduleIndex cfg x.1 x.2} {x | ∃ m ∈ run, x ∈ (s.caps m).view.quanta} p
    (s.scheduledTo cfg) (t.scheduledTo cfg)

/-- To begin with nothing is swept. -/
theorem Swept.nil (hg : s.Good cfg) : Swept cfg p [] s s where
  good := hg
  caps := rfl
  live m := by simp
  schedule := by
    have hnone : {y : Nat × Nat | ∃ m ∈ ([] : List NodeRef), y ∈ (s.caps m).view.quanta} = ∅ := by
      simp
    rw [hnone]
    exact .empty

/-- One child, and then the rest. -/
theorem Swept.cons {q : NodeRef} {run : List NodeRef} (hp : p < cfg.nProc)
    (hx : ChildBehind s n x q) (hv : (s.caps x).view.Valid cfg)
    (hgood : (s.spliceOut x n q).Good cfg) (h : Swept cfg p run (s.takeBack cfg p n x q) t) :
    Swept cfg p (x :: run) s t where
  good := h.good
  caps := h.caps.trans Kernel.caps_takeBack
  live m := by
    rw [h.live, live_takeBack hx, List.mem_cons, not_or]
    tauto
  schedule := by
    have hsched := h.schedule
    rw [Kernel.caps_takeBack] at hsched
    have hsplit : {y : Nat × Nat | ∃ m ∈ x :: run, y ∈ (s.caps m).view.quanta} =
        (s.caps x).view.quanta ∪ {y | ∃ m ∈ run, y ∈ (s.caps m).view.quanta} := by
      ext y
      simp
    rw [hsplit]
    exact (scheduledTo_assign hgood hp hv).union hsched

/-- How a loop over `run` ends: at a capability that has nothing left, or with all of it swept. -/
def Sweeps (cfg : Config) (p : Nat) (run : List NodeRef) (s : Kernel) (m : KernelM Unit) : Prop :=
  ((∃ x ∈ run, (s.caps x).view.Exhausted) → m.run s = .error .assertion) ∧
    ((∀ x ∈ run, ¬ (s.caps x).view.Exhausted) →
      ∃ t, m.run s = .ok ((), t) ∧ Swept cfg p run s t)

/-- The loop sweeps the run of children behind its node, by induction on what stands there. -/
theorem revokeLoop_sweeps (hp : p < cfg.nProc) {C : NodeRef → Cap}
    (hsent : ¬ capIsChild (C n) (C (.sentinel k)) = true) :
    ∀ {post s rings fuel}, s.caps = C → s.Good cfg → s.Lists rings →
      tailsOf rings k = pre ++ n :: post →
      (post.takeWhile fun z => decide (capIsChild (C n) (C z) = true)).length < fuel →
      Sweeps cfg p (post.takeWhile fun z => decide (capIsChild (C n) (C z) = true)) s
        (revokeLoop cfg p n (C n) fuel)
  | _, _, _, 0, _, _, _, _, hfuel => absurd hfuel (Nat.not_lt_zero _)
  | [], s, rings, fuel + 1, hC, hg, hl, hk, _ => by
    refine ⟨fun ⟨x, hx, _⟩ => absurd hx List.not_mem_nil, fun _ => ⟨s, ?_, .nil hg⟩⟩
    exact revokeLoop_run_stop (live_of_tail hl hk) (linked_next hl hk).1 (by rwa [hC])
  | x :: post, s, rings, fuel + 1, hC, hg, hl, hk, hfuel => by
    have hn := live_of_tail hl hk
    by_cases hc : capIsChild (C n) (C x) = true
    swap
    -- the run ends before the list does
    · rw [List.takeWhile_cons_of_neg (by simpa using hc)]
      refine ⟨fun ⟨x, hx, _⟩ => absurd hx List.not_mem_nil, fun _ => ⟨s, ?_, .nil hg⟩⟩
      exact revokeLoop_run_stop hn (linked_next hl hk).1 (by rwa [hC])
    rw [List.takeWhile_cons_of_pos (by simpa using hc)] at hfuel ⊢
    obtain ⟨q, hx⟩ := exists_childBehind hl hk
    have hc' : capIsChild (C n) (s.caps x) = true := by rwa [hC]
    by_cases he : (s.caps x).view.Exhausted
    · have hrun : (revokeLoop cfg p n (C n) (fuel + 1)).run s = .error .assertion :=
        revokeLoop_run_exhausted hn hx hc' he
      exact ⟨fun _ => hrun, fun hno => absurd he (hno x List.mem_cons_self)⟩
    -- one child less, and the rest as before
    have hmem := mem_tail hk
    have hv : (s.caps x).view.Valid cfg := by
      obtain ⟨d, j, rfl, hlive⟩ := hl.slot_of_mem hg hmem
      exact hg.valid d j hlive
    have hnx : n ≠ x := fun e => (hl.notMem_of_split hk).2 (e ▸ List.mem_cons_self)
    have hgood := hx.good hg hl hmem he
    obtain ⟨rings', hl', hk'⟩ := hx.lists (p := p) hg hl hk
    have ih := revokeLoop_sweeps hp hsent (Kernel.caps_takeBack.trans hC)
      (hgood.assign hp) hl' hk' (Nat.lt_of_succ_lt_succ hfuel)
    rw [Sweeps, Kernel.caps_takeBack] at ih
    rw [Sweeps, revokeLoop_run_child hg hp hn hnx hx hv hc' he]
    constructor
    · rintro ⟨y, hy, hye⟩
      rcases List.mem_cons.mp hy with rfl | hy
      · exact absurd hye he
      · exact ih.1 ⟨y, hy, hye⟩
    · intro hno
      obtain ⟨t, hrun, ht⟩ := ih.2 fun y hy => hno y (List.mem_cons_of_mem x hy)
      exact ⟨t, hrun, ht.cons hp hx hv hgood⟩

/-- A list holds no more nodes than there are slots. -/
theorem length_tail_le (hg : s.Good cfg) (hl : s.Lists rings) (k : Sentinel) :
    (tailsOf rings k).length ≤ cfg.nProc * cfg.nCaps := by
  let slots : Finset NodeRef :=
    (Finset.range cfg.nProc ×ˢ Finset.range cfg.nCaps).image fun a => .slot a.1 a.2
  have hsub : (tailsOf rings k).toFinset ⊆ slots := by
    intro n hn
    obtain ⟨d, j, rfl, hlive⟩ := hl.slot_of_mem hg (List.mem_toFinset.mp hn)
    obtain ⟨hd, hj⟩ := hg.bounds d j hlive
    exact Finset.mem_image.mpr ⟨(d, j), by simp [hd, hj], rfl⟩
  calc (tailsOf rings k).length
      = (tailsOf rings k).toFinset.card := (List.toFinset_card_of_nodup (hl.ring k).nodup.tail).symm
    _ ≤ slots.card := Finset.card_le_card hsub
    _ ≤ (Finset.range cfg.nProc ×ˢ Finset.range cfg.nCaps).card := Finset.card_image_le
    _ = cfg.nProc * cfg.nCaps := by simp

/-- The loop has fuel for every list there can be. -/
theorem revokeLoop_sweeps_childRun (hg : s.Good cfg) (hd : s.Derived) (hn : s.Live (.slot p i)) :
    ∃ run, (∀ x, x ∈ run ↔ x ∈ s.childRun (.slot p i)) ∧ .slot p i ∉ run ∧
      Sweeps cfg p run s
        (revokeLoop cfg p (.slot p i) (s.caps (.slot p i)) cfg.loopFuel) := by
  obtain ⟨rings, hl, -⟩ := hd.ordered
  obtain ⟨k, hk⟩ := hl.live_iff.mp hn
  obtain ⟨pre, post, hsplit⟩ := List.append_of_mem (hl.mem_tail_iff.mpr hk)
  have hsent : ¬ capIsChild (s.caps (.slot p i)) (s.caps (.sentinel k)) = true := by
    rw [hd.sentinels]
    exact not_capIsChild_null
  have hsub := List.takeWhile_sublist (l := post)
    fun z => decide (capIsChild (s.caps (.slot p i)) (s.caps z) = true)
  refine ⟨_, fun x => ?_, fun hmem => ?_,
    revokeLoop_sweeps (hg.bounds p i hn).1 hsent rfl hg hl hsplit ?_⟩
  · rw [childRun_eq hl hd.sentinels hsplit]
    exact Iff.rfl
  · exact (hl.notMem_of_split hsplit).2 (hsub.subset hmem)
  · have hlen := length_tail_le hg hl k
    rw [hsplit, List.length_append, List.length_cons] at hlen
    have hfuel := cfg.loopFuel_gt
    have hle := hsub.length_le
    omega

/-! ## What stops it -/

section

variable (hg : s.Good cfg) (hd : s.Derived) (hn : s.Live (.slot p i))
include hg hd hn

/-- No frame descends from time, so the run behind a time capability is all of its descendants. -/
theorem childRun_eq_subtree_of_time (ht : capIsType (s.caps (.slot p i)) .time = true) :
    s.childRun (.slot p i) = s.subtree (.slot p i) := by
  refine (childRun_eq_subtree_iff hg hd hn).mpr fun x hx hpmp => ?_
  obtain ⟨⟨d, j, rfl⟩, hlive, hD⟩ := hx
  have hbelow := hd.forest.below _ _ (held_ne_other hg hn) (held_ne_other hg hlive) hD
  rw [held_of_live hn, held_of_live hlive, Cap.view_eq ht, Cap.view_eq hpmp] at hbelow
  rcases hbelow with ⟨hchild, -⟩ | ⟨hnested, -⟩
  · cases hchild
  · cases hnested

/-- Only time capabilities have time among their descendants. -/
theorem time_of_exhausted_below (hx : x ∈ s.subtree (.slot p i))
    (he : (s.caps x).view.Exhausted) : capIsType (s.caps (.slot p i)) .time = true := by
  obtain ⟨⟨d, j, rfl⟩, hlive, hD⟩ := hx
  have hbelow := hd.forest.below _ _ (held_ne_other hg hn) (held_ne_other hg hlive) hD
  rw [held_of_live hn, held_of_live hlive] at hbelow
  apply Cap.isType_of_view
  generalize (s.caps (.slot p i)).view = c at hbelow
  generalize (s.caps (.slot d j)).view = c' at hbelow he
  cases c' with
  | time h r =>
    -- only time is ever exhausted, and only time recognises time
    have hchild := hbelow.isChild_iff.mpr (Or.inl id)
    cases hchild
    rfl
  | _ => exact he.elim

/-- Where an exhausted capability can be among what is swept. -/
theorem exists_exhausted_iff : (∃ x ∈ s.childRun (.slot p i), (s.caps x).view.Exhausted) ↔
    ∃ x ∈ s.subtree (.slot p i), (s.caps x).view.Exhausted := by
  constructor
  · rintro ⟨x, hx, he⟩
    exact ⟨x, childRun_subset_subtree hg hd hn hx, he⟩
  · rintro ⟨x, hx, he⟩
    have ht := time_of_exhausted_below hg hd hn hx he
    exact ⟨x, by rwa [childRun_eq_subtree_of_time hg hd hn ht], he⟩

end

/-- A capability with which the code does not get to its return: one for channels, whose reset
    fails, or one that has no time left, itself or in a descendant. -/
def Kernel.Stuck (s : Kernel) (n : NodeRef) : Prop :=
  capIsType (s.caps n) .channels = true ∨ (s.caps n).view.Exhausted ∨
    ∃ x ∈ s.subtree n, (s.caps x).view.Exhausted

/-- What the code leaves: the run behind the node deleted, the capability reset, and in the
    schedule `p` for all that one of them had left. -/
structure TookBack (cfg : Config) (s : Kernel) (p : Nat) (n : NodeRef) (t : Kernel) : Prop where
  live : ∀ m, t.Live m ↔ s.Live m ∧ m ∉ s.childRun n
  caps : ∀ m, m ≠ n → t.caps m = s.caps m
  reset : (t.caps n).view = (s.caps n).view.reset
  schedule : Assigned {x | ScheduleIndex cfg x.1 x.2}
    ({x | ∃ m ∈ s.childRun n, x ∈ (s.caps m).view.quanta} ∪ (s.caps n).view.quanta) p
    (s.scheduledTo cfg) (t.scheduledTo cfg)

section

variable (hg : s.Good cfg) (hd : s.Derived) (hn : s.Live (.slot p i))
include hg hd hn

/-- There the revocation runs into the assert of the schedule. -/
theorem revokeRest_run_stuck (h : s.Stuck (.slot p i)) :
    (revokeRest cfg p (.slot p i) (s.caps (.slot p i))).run s = .error .assertion := by
  obtain ⟨run, hrun, -, hstop, hgo⟩ := revokeLoop_sweeps_childRun hg hd hn
  rw [revokeRest]
  by_cases he : ∃ x ∈ run, (s.caps x).view.Exhausted
  · exact run_bind_error (hstop he) _
  have hno : ∀ x ∈ run, ¬ (s.caps x).view.Exhausted := fun x hx hxe => he ⟨x, hx, hxe⟩
  obtain ⟨t, ht, -⟩ := hgo hno
  rw [run_bind_ok ht]
  by_cases hch : capIsType (s.caps (.slot p i)) .channels = true
  · exact run_bind_error (run_lift_error (revokeUpdateCap_channels hch) _) _
  rw [Bool.not_eq_true] at hch
  obtain ⟨c', hc', -⟩ := revokeUpdateCap_spec hch
  rw [run_bind_ok (run_lift_ok hc' _), run_bind_ok (writeCap_run _ _ _)]
  rcases h with h | h | h
  · rw [hch] at h
    cases h
  · exact run_bind_error (capUpdateHook_run_of_exhausted h) _
  · -- the loop would have met the descendant
    obtain ⟨x, hx, hxe⟩ := (exists_exhausted_iff hg hd hn).mpr h
    exact absurd hxe (hno x ((hrun x).mpr hx))

/-- And nowhere else. -/
theorem revokeRest_run (h : ¬ s.Stuck (.slot p i)) :
    ∃ t, (revokeRest cfg p (.slot p i) (s.caps (.slot p i))).run s = .ok (.ret errorOk, t) ∧
      TookBack cfg s p (.slot p i) t := by
  obtain ⟨hch, he, hbelow⟩ : capIsType (s.caps (.slot p i)) .channels = false ∧
      ¬ (s.caps (.slot p i)).view.Exhausted ∧
        ¬ ∃ x ∈ s.subtree (.slot p i), (s.caps x).view.Exhausted := by
    simpa [Kernel.Stuck] using h
  have hp := (hg.bounds p i hn).1
  have hv := hg.valid p i hn
  obtain ⟨run, hrun, hself, -, hgo⟩ := revokeLoop_sweeps_childRun hg hd hn
  obtain ⟨t, ht, hswept⟩ := hgo fun x hx hxe =>
    hbelow ((exists_exhausted_iff hg hd hn).mp ⟨x, (hrun x).mp hx, hxe⟩)
  obtain ⟨c', hc', hreset⟩ := revokeUpdateCap_spec hch
  have hprevs : (t.setCap (.slot p i) c').prevs = t.prevs := Kernel.prevs_setCap _
  have hlive : (t.setCap (.slot p i) c').Live (.slot p i) :=
    (Kernel.live_congr hprevs).mpr ((hswept.live _).mpr ⟨hn, hself⟩)
  -- the hook is given the capability from before the reset
  have hhook : (capUpdateHook cfg (some p) (.slot p i) (s.caps (.slot p i))).run
      (t.setCap (.slot p i) c') = .ok ((), (t.setCap (.slot p i) c').assign cfg p
        (s.caps (.slot p i)).view) :=
    capUpdateHook_run_of_live hv he (hswept.good.pidOk hp) hlive
  refine ⟨(t.setCap (.slot p i) c').assign cfg p (s.caps (.slot p i)).view, ?_, ?_⟩
  · rw [revokeRest, run_bind_ok ht, run_bind_ok (run_lift_ok hc' t),
      run_bind_ok (writeCap_run _ _ _), run_bind_ok hhook]
    rfl
  have hnodes : {x : Nat × Nat | ∃ m ∈ run, x ∈ (s.caps m).view.quanta} =
      {x | ∃ m ∈ s.childRun (.slot p i), x ∈ (s.caps m).view.quanta} := by
    simp only [hrun]
  constructor
  · intro m
    rw [Kernel.live_congr (Kernel.prevs_assign.trans hprevs), hswept.live, hrun]
  · intro m hm
    rw [Kernel.caps_assign, Kernel.caps_setCap, Function.update_of_ne hm, hswept.caps]
  · rw [Kernel.caps_assign, Kernel.caps_setCap, Function.update_self, hreset]
  · have hsched : ((t.setCap (.slot p i) c').assign cfg p (s.caps (.slot p i)).view).schedule =
        (t.assign cfg p (s.caps (.slot p i)).view).schedule := by
      cases (s.caps (.slot p i)).view <;> rfl
    rw [← hnodes, scheduledTo_congr hsched]
    exact hswept.schedule.union (scheduledTo_assign hswept.good hp hv)

end

/-! ## What comes back -/

/-- What revocation is there for: it returns, all of the time goes to the process in the schedule,
    and no channel has a receiver or a caller any more. -/
structure Reclaims (cfg : Config) (s : Kernel) (p : Nat) (n : NodeRef) (t : Kernel) : Prop where
  run : (revokeRest cfg p n (s.caps n)).run s = .ok (.ret errorOk, t)
  time : ∀ h r, (s.caps n).view = .time h r → ∀ q, r.first ≤ q → q < r.stop →
    t.scheduledTo cfg (h, q) = some p
  channels : ∀ r, (s.caps n).view = .channels r → ∀ ch, r.first ≤ ch → ch < r.stop → ∀ k,
    t.receivers ch k = none

/-- Every quantum it has handed out is somebody's to whom it came from here, or the schedule
    names the process for it all the same. -/
def Kernel.Accounted (cfg : Config) (s : Kernel) (p : Nat) (n : NodeRef) : Prop :=
  ∀ h r, (s.caps n).view = .time h r → ∀ q, r.first ≤ q → q < r.free →
    (∃ x ∈ s.subtree n, (h, q) ∈ (s.caps x).view.quanta) ∨ s.scheduledTo cfg (h, q) = some p

/-- The entries of the slot's own hart, afterwards. -/
theorem TookBack.scheduledTo_iff {h q : Nat} {r : Span}
    (hback : TookBack cfg s p (.slot p i) t) (hg : s.Good cfg) (hd : s.Derived)
    (hn : s.Live (.slot p i)) (hview : (s.caps (.slot p i)).view = .time h r) (hq : q < r.stop) :
    t.scheduledTo cfg (h, q) = some p ↔
      ((∃ x ∈ s.subtree (.slot p i), (h, q) ∈ (s.caps x).view.quanta) ∨ r.free ≤ q) ∨
        s.scheduledTo cfg (h, q) = some p := by
  have hv := hg.valid p i hn
  rw [hview] at hv
  obtain ⟨-, hmin, hmax, hstop⟩ := hv
  have hx : (h, q) ∈ {x : Nat × Nat | ScheduleIndex cfg x.1 x.2} :=
    ⟨hmin, hmax, hq.trans_le hstop⟩
  have ht : capIsType (s.caps (.slot p i)) .time = true :=
    Cap.isType_of_view (by rw [hview]; rfl)
  -- what it has left is all the hook writes for the slot itself
  have hown : (h, q) ∈ (s.caps (.slot p i)).view.quanta ↔ r.free ≤ q := by
    rw [hview]
    exact ⟨fun hm => hm.2.1, fun hm => ⟨rfl, hm, hq⟩⟩
  rw [hback.schedule.eq_some_iff hx, childRun_eq_subtree_of_time hg hd hn ht, Set.mem_union, hown]
  exact Iff.rfl

/-- In every reachable state and for every live slot, the rest of `syscall_revoke_cap` takes
    everything back if and only if nothing stops it and every quantum handed out is accounted
    for. -/
theorem revokeRest_reclaims_iff (hr : Reachable (DisjointRoots cfg) (Step cfg) st)
    (hn : st.kernel.Live (.slot p i)) : (∃ t, Reclaims cfg st.kernel p (.slot p i) t) ↔
      ¬ st.kernel.Stuck (.slot p i) ∧ st.kernel.Accounted cfg p (.slot p i) := by
  obtain ⟨hgood, hd⟩ := derived_of_reachable hr
  have hg := hgood.kernel
  by_cases hstuck : st.kernel.Stuck (.slot p i)
  · refine iff_of_false ?_ fun h => h.1 hstuck
    rintro ⟨t, ht⟩
    have hrun := ht.run
    rw [revokeRest_run_stuck hg hd hn hstuck] at hrun
    cases hrun
  obtain ⟨t, hrun, hback⟩ := revokeRest_run hg hd hn hstuck
  constructor
  · rintro ⟨t', ht'⟩
    obtain rfl : t' = t := (Prod.mk.inj (Except.ok.inj (ht'.run.symm.trans hrun))).2
    refine ⟨hstuck, fun h r hview q hlo hhi => ?_⟩
    have hv := hg.valid p i hn
    rw [hview] at hv
    have hq : q < r.stop := hhi.trans_le hv.1.2.1
    have hname := ht'.time h r hview q hlo hq
    rcases (hback.scheduledTo_iff hg hd hn hview hq).mp hname with (hx | hfree) | hsame
    · exact Or.inl hx
    · exact absurd hhi (not_lt.mpr hfree)
    · exact Or.inr hsame
  · rintro ⟨-, hacc⟩
    refine ⟨t, hrun, fun h r hview q hlo hq => ?_, fun r hview => ?_⟩
    · rw [hback.scheduledTo_iff hg hd hn hview hq]
      by_cases hfree : r.free ≤ q
      · exact Or.inl (Or.inr hfree)
      · exact (hacc h r hview q hlo (not_le.mp hfree)).imp Or.inl id
    · exact absurd (Or.inl (Cap.isType_of_view (by rw [hview]; rfl))) hstuck

/-- One time capability derived from another, and nothing else: it is all accounted for. -/
theorem accounted_of_derived_once {src dst : NodeRef} {h lo mid hi : Nat} (hne : src ≠ dst)
    (hhist : s.history = [.derived src dst]) (hsrc : (s.caps src).view = .time h ⟨lo, mid, hi⟩)
    (hdst : (s.caps dst).view = .time h ⟨lo, lo, mid⟩) (hmid : mid < hi) (hlo : lo < mid)
    (hslot : ∃ d j, dst = .slot d j) (hlive : s.Live dst) :
    ¬ s.Stuck src ∧ s.Accounted cfg p src := by
  constructor
  · rintro (hch | he | ⟨x, ⟨-, -, hD⟩, he⟩)
    · rw [Cap.view_eq hch] at hsrc
      cases hsrc
    · rw [hsrc] at he
      exact absurd he (Nat.ne_of_lt hmid)
    · -- nothing else descends from it
      have hx : x = dst := by
        by_contra hxd
        rw [hhist] at hD
        exact Lineage.not_derivedFrom_nil ((Lineage.derivedFrom_derived hne hxd).mp hD)
      rw [hx, hdst] at he
      exact absurd he (Nat.ne_of_lt hlo)
  · intro h' r hview q hfirst hq
    rw [hsrc] at hview
    cases hview
    have hD : DerivedFrom s.history src dst := by
      rw [hhist]
      exact (Lineage.derivedFrom_derived_dst hne).mpr (Or.inl rfl)
    refine Or.inl ⟨dst, ⟨hslot, hlive, hD⟩, ?_⟩
    rw [hdst]
    exact ⟨rfl, hfirst, hq⟩

/-- The root process has derived the first ten quanta of hart 1, and still holds them. -/
theorem revokeRest_reclaims_virtDerivesTime :
    ∃ t, Reclaims .virt (virtAfter virtDerivesTime).kernel 0 (.slot 0 3) t := by
  have hr : Reachable (DisjointRoots .virt) (Step .virt) (virtAfter virtDerivesTime) :=
    (virtAfter_reachable _).imp fun _ h => ⟨h.1.disjointRoots, h.2⟩
  have hhist : (virtAfter virtDerivesTime).kernel.history =
      [.derived (.slot 0 3) (.slot 0 10)] := by
    decide +kernel
  have hparent : ((virtAfter virtDerivesTime).kernel.caps (.slot 0 3)).view =
      .time 1 ⟨0, 10, 128⟩ := by
    decide +kernel
  have hchild : ((virtAfter virtDerivesTime).kernel.caps (.slot 0 10)).view =
      .time 1 ⟨0, 0, 10⟩ := by
    decide +kernel
  exact (revokeRest_reclaims_iff hr (by decide +kernel)).mpr
    (accounted_of_derived_once (by decide) hhist hparent hchild (by decide) (by decide)
      ⟨0, 10, rfl⟩ (by decide +kernel))

/-- The root process derives the first ten quanta of hart 1 and gives them, and all of hart 2, to
    process 1; process 1 is dispatched on hart 2 and deletes what it got of hart 1. -/
def virtDropsTime : List Label :=
  [.schedule 1 0,
   .ecall 1 (callRegs 5 3 10 (capMkTime 1 0 10 0).word0 (capMkTime 1 0 10 0).word1 0 0),
   .ecall 1 (callRegs 6 2 1 6 10 0 0),
   .ecall 1 (callRegs 6 2 1 6 4 1 0),
   .ecall 1 (callRegs 6 2 1 1 0 0 0),
   .schedule 2 7810,
   .ecall 2 (callRegs 3 0 0 0 0 0 0)]

/-- Its parent is revoked, and process 1 goes on being scheduled in what it deleted: the sweep finds
    no capability there. -/
theorem dropped_time_not_reclaimed : ∃ s, Reachable (Booted .virt) (Step .virt) s ∧
    s.kernel.Live (.slot 0 3) ∧ ¬ ∃ t, Reclaims .virt s.kernel 0 (.slot 0 3) t := by
  refine ⟨virtAfter virtDropsTime, virtAfter_reachable _, by decide +kernel, ?_⟩
  rintro ⟨t, ht⟩
  have hview : ((virtAfter virtDropsTime).kernel.caps (.slot 0 3)).view = .time 1 ⟨0, 10, 128⟩ := by
    decide +kernel
  have hname : ((revokeRest .virt 0 (.slot 0 3)
      ((virtAfter virtDropsTime).kernel.caps (.slot 0 3))).run
        (virtAfter virtDropsTime).kernel).toOption.map (fun r => r.2.scheduledTo .virt (1, 5)) =
          some (some 1) := by
    decide +kernel
  rw [ht.run] at hname
  have hother : t.scheduledTo .virt (1, 5) = some 1 := Option.some.inj hname
  rw [ht.time 1 ⟨0, 10, 128⟩ hview 5 (Nat.zero_le 5) (by decide)] at hother
  cases hother

end SepKernel
