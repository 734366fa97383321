import SepKernel.Boot
import SepKernel.Links

/-!
# The list operations as operations on sequences

Over any collection of circular lists that share no node, wherever they start: `cap_node_insert`,
`cap_node_delete` and `cap_node_move` put a node in behind another, take one out and replace one by
another. The one node that `cap_node_delete` does not get off its list is a node that is alone on
it, as the sentinel of an empty list is: the node waits for itself.
-/

namespace SepKernel

open Kernel

variable {cfg : Config} {κ : Type} [DecidableEq κ] {hd : κ → NodeRef} {rings : κ → List NodeRef}
  {caps : NodeRef → Cap} {s : Kernel} {cap : Cap} {n p q d : NodeRef} {k : κ}

/-- The nodes of `s` that are not deleted lie on the lists `rings`, which start at their sentinels
    `hd`, and its nodes hold `caps`. -/
structure Represents (s : Kernel) (hd : κ → NodeRef) (rings : κ → List NodeRef)
    (caps : NodeRef → Cap) : Prop where
  family : Ring.Family s.nexts s.prevs hd rings
  caps : s.caps = caps

/-! ## One node alone -/

/-- Nobody else is there to store what `cap_node_delete2` waits for. -/
theorem capNodeUnlinkNext_run_alone (hn : s.nexts n = some n) (hp : s.prevs n = none) (fuel : Nat) :
    (capNodeUnlinkNext n p fuel).run s = .error .outOfFuel := by
  induction fuel with
  | zero => rfl
  | succ fuel ih =>
    have hcas : (casPrev n (some n) (some p)).run s = .ok (false, s) := by
      rw [casPrev_run, if_neg (by rw [hp]; exact (Option.some_ne_none n).symm)]
    rw [capNodeUnlinkNext, run_bind_ok (run_get s)]
    change (deref (s.nexts n) >>= _).run s = _
    rw [hn, run_bind_ok (deref_run n s), run_bind_ok hcas]
    exact ih

/-- In a list of one the loop of `cap_node_delete2` never gets its exchange. -/
theorem capNodeDelete2_run_alone (hn : s.nexts n = some n) (hp : s.prevs n = some p) :
    (capNodeDelete2 cfg n p).run s = .error .outOfFuel := by
  have hcas : (casPrev n (some p) none).run s = .ok (true, s.setPrev n none) := by
    rw [casPrev_run, if_pos hp]
  have hdead : (s.setPrev n none).prevs n = none := by
    rw [prevs_setPrev, Function.update_self]
  rw [capNodeDelete2, run_bind_ok hcas]
  exact run_bind_error (capNodeUnlinkNext_run_alone (by rw [nexts_setPrev, hn]) hdead _) _

/-- `cap_node_delete` of a node that is alone on its list does not return. -/
theorem capNodeDelete_run_alone (hn : s.nexts n = some n) (hp : s.prevs n = some p) :
    (capNodeDelete cfg n).run s = .error .outOfFuel := by
  obtain ⟨fuel, hfuel⟩ := cfg.exists_loopFuel
  rw [capNodeDelete, hfuel, capNodeDeleteLoop, run_bind_ok (run_get s)]
  have hp' : (s.nodes n).prev = some p := hp
  rw [hp']
  exact run_bind_error (capNodeDelete2_run_alone hn hp) _

/-! ## The operations -/

namespace Represents

omit [DecidableEq κ] in
/-- A node has a predecessor if it is in one of the lists. -/
theorem live_iff (h : Represents s hd rings caps) : s.prevs n ≠ none ↔ ∃ k, n ∈ rings k :=
  h.family.live n

/-- Links set for an insertion, on the sequences. -/
theorem spliceIn (cap : Cap) (h : Represents s hd rings caps) (hn : s.prevs n = none)
    (hp : p ∈ rings k) (hq : s.nexts p = some q) :
    Represents (s.spliceIn cap n p q) hd
      (Function.update rings k (Ring.insertAfter p n (rings k))) (Function.update caps n cap) where
  family := h.family.insertAfter hp hn hq nexts_spliceIn prevs_spliceIn
  caps := by rw [caps_spliceIn, h.caps]

/-- An insertion behind an element, on the sequences. -/
theorem insert (cfg : Config) (cap : Cap) (h : Represents s hd rings caps)
    (hn : s.prevs n = none) (hp : p ∈ rings k) :
    ∃ t, (capNodeInsert cfg cap n p).run s = .ok (true, t) ∧
      Represents t hd (Function.update rings k (Ring.insertAfter p n (rings k)))
        (Function.update caps n cap) := by
  obtain ⟨q, -, hq⟩ := (h.family.ring k).exists_next hp
  exact ⟨s.spliceIn cap n p q, capNodeInsert_run hn (h.live_iff.mpr ⟨k, hp⟩) hq.1 hq.2,
    h.spliceIn cap hn hp hq.1⟩

/-- `cap_node_delete` and `cap_node_delete2` with the right predecessor do the same. -/
theorem delete (cfg : Config) (h : Represents s hd rings caps) (hn : n ∈ rings k)
    (halone : rings k ≠ [n]) (hp : s.prevs n = some p) : ∃ t hd',
      (capNodeDelete cfg n).run s = .ok (true, t) ∧
      (capNodeDelete2 cfg n p).run s = .ok (true, t) ∧
      Represents t hd' (Function.update rings k ((rings k).erase n)) caps ∧
      (n ≠ hd k → hd' = hd) := by
  obtain ⟨q, -, hq⟩ := (h.family.ring k).exists_next hn
  have hqn : q ≠ n := (h.family.ring k).next_ne hn halone hq.1
  have hnexts : (s.spliceOut n p q).nexts = _ := nexts_spliceOut
  have hprevs : (s.spliceOut n p q).prevs = _ := prevs_spliceOut
  obtain ⟨hd', hfamily, hhd⟩ := h.family.exists_erase hn halone hp hq.1 hnexts hprevs
  refine ⟨s.spliceOut n p q, hd', capNodeDelete_run hp hq.1 hq.2 hqn,
    capNodeDelete2_run hp hq.1 hq.2 hqn, ⟨hfamily, ?_⟩, hhd⟩
  rw [caps_spliceOut, h.caps]

/-- An insertion behind the node and its deletion: at that point the node is not alone. -/
theorem move (h : Represents s hd rings caps) (hn : n ∈ rings k) (hdead : s.prevs d = none) :
    ∃ t hd', (capNodeMove cfg cap n d).run s = .ok (true, t) ∧
      Represents t hd' (Function.update rings k ((rings k).replace n d))
        (Function.update caps d cap) ∧ (n ≠ hd k → hd' = hd) := by
  have hdn : d ≠ n := fun e => h.live_iff.mpr ⟨k, hn⟩ (e ▸ hdead)
  obtain ⟨t, hinsert, ht⟩ := h.insert cfg cap hdead hn
  have ht' : Represents (t.record (.moved n d)) hd _ _ := ⟨ht.family, ht.caps⟩
  have hmem : n ∈ Function.update rings k (Ring.insertAfter n d (rings k)) k := by
    rw [Function.update_self]
    exact (Ring.mem_insertAfter hn).mpr (Or.inr hn)
  have halone : Function.update rings k (Ring.insertAfter n d (rings k)) k ≠ [n] := by
    rw [Function.update_self]
    intro e
    have hd : d ∈ [n] := e ▸ (Ring.mem_insertAfter hn).mpr (Or.inl rfl)
    exact hdn (List.mem_singleton.mp hd)
  obtain ⟨p, -, hp⟩ := (ht'.family.ring k).exists_prev hmem
  obtain ⟨t', hd', hdelete, -, hrep, hhd⟩ := ht'.delete cfg hmem halone hp.2
  rw [Function.update_self, Function.update_idem, Ring.erase_insertAfter] at hrep
  refine ⟨t', hd', ?_, hrep, hhd⟩
  have hrecord : (modify fun s : Kernel => s.record (.moved n d) : KernelM Unit).run t =
      .ok ((), t.record (.moved n d)) := rfl
  rw [capNodeMove, run_bind_ok hinsert]
  exact (run_bind_ok hrecord _).trans hdelete

end Represents

/-- What the operations do, run in `s`, to the lists and to what the nodes hold. The heads stay
    where they are, unless the node taken out or replaced is one itself. -/
structure OnSequences (cfg : Config) (s : Kernel) (hd : κ → NodeRef) (rings : κ → List NodeRef)
    (caps : NodeRef → Cap) : Prop where
  insert : ∀ cap n p k, s.prevs n = none → p ∈ rings k →
    ∃ t, (capNodeInsert cfg cap n p).run s = .ok (true, t) ∧
      Represents t hd (Function.update rings k (Ring.insertAfter p n (rings k)))
        (Function.update caps n cap)
  delete : ∀ n k, n ∈ rings k → rings k ≠ [n] →
    ∃ t hd', (capNodeDelete cfg n).run s = .ok (true, t) ∧
      Represents t hd' (Function.update rings k ((rings k).erase n)) caps ∧ (n ≠ hd k → hd' = hd)
  delete2 : ∀ n p k, Ring.Precedes (rings k) p n → rings k ≠ [n] →
    ∃ t hd', (capNodeDelete2 cfg n p).run s = .ok (true, t) ∧
      Represents t hd' (Function.update rings k ((rings k).erase n)) caps ∧ (n ≠ hd k → hd' = hd)
  delete2_other : ∀ n p, (∀ k, ¬ Ring.Precedes (rings k) p n) →
    (capNodeDelete2 cfg n p).run s = .ok (false, s)
  move : ∀ cap n d k, n ∈ rings k → s.prevs d = none →
    ∃ t hd', (capNodeMove cfg cap n d).run s = .ok (true, t) ∧
      Represents t hd' (Function.update rings k ((rings k).replace n d))
        (Function.update caps d cap) ∧ (n ≠ hd k → hd' = hd)

/-- The list operations do what insertion behind an element, removal and replacement do to
    sequences: whatever lists the nodes represent before, they represent the changed ones after. -/
theorem capNode_onSequences (cfg : Config) (h : Represents s hd rings caps) :
    OnSequences cfg s hd rings caps where
  insert := by
    intro cap n p k hn hp
    exact h.insert cfg cap hn hp
  delete := by
    intro n k hn halone
    obtain ⟨p, -, hp⟩ := (h.family.ring k).exists_prev hn
    obtain ⟨t, hd', hrun, -, hrep⟩ := h.delete cfg hn halone hp.2
    exact ⟨t, hd', hrun, hrep⟩
  delete2 := by
    intro n p k hpn halone
    have hp := ((h.family.ring k).linked hpn).2
    obtain ⟨t, hd', -, hrun, hrep⟩ := h.delete cfg (Ring.mem_of_precedes hpn) halone hp
    exact ⟨t, hd', hrun, hrep⟩
  delete2_other := by
    intro n p hnone
    refine capNodeDelete2_run_of_ne fun hp => ?_
    obtain ⟨k, hn⟩ := h.live_iff.mp (by rw [hp]; exact Option.some_ne_none p)
    exact hnone k (((h.family.ring k).precedes_iff hn).mpr hp)
  move := by
    intro cap n d k hn hdead
    exact h.move hn hdead

/-! ## Lists with nodes and without -/

/-- The four sentinels as `make_sentinel` leaves them, and no other node alive. -/
def emptyLists : Kernel where
  nodes
    | .sentinel k => ⟨some (.sentinel k), some (.sentinel k), nullCap⟩
    | .slot _ _ => ⟨none, none, nullCap⟩
  procs := Kernel.zero.procs
  schedule := Kernel.zero.schedule
  receivers := Kernel.zero.receivers
  history := []

/-- The empty lists have their sentinel each. -/
theorem represents_emptyLists : Represents emptyLists NodeRef.sentinel (fun k => [.sentinel k])
    (fun _ => nullCap) where
  family := {
    ring := fun k => ⟨List.nodup_singleton _, .sentinel k, rfl,
      List.isChain_cons_cons.mpr ⟨⟨rfl, rfl⟩, List.isChain_singleton _⟩⟩
    head := fun k => rfl
    disjoint := by
      intro k k' x hk hk'
      have he := (List.mem_singleton.mp hk).symm.trans (List.mem_singleton.mp hk')
      exact NodeRef.sentinel.inj he
    live := by
      intro x
      cases x with
      | slot p i => simp [prevs, emptyLists]
      | sentinel k => simp [prevs, emptyLists] }
  caps := by
    funext n
    cases n <;> rfl

/-- The sentinel of an empty list is not deleted, however long `cap_node_delete` runs. -/
theorem lone_sentinel_not_deleted :
    Represents emptyLists NodeRef.sentinel (fun k => [.sentinel k]) (fun _ => nullCap) ∧
      emptyLists.Live (.sentinel .time) ∧
      ∀ cfg r, (capNodeDelete cfg (.sentinel .time)).run emptyLists ≠ .ok r := by
  refine ⟨represents_emptyLists, Option.some_ne_none _, ?_⟩
  intro cfg r
  rw [capNodeDelete_run_alone rfl rfl]
  intro h
  cases h

/-- Three entries of tables in the list of memory, and one in that of time. -/
def tableLists : Kernel :=
  (((emptyLists.spliceIn ⟨1, 0⟩ (.slot 0 0) (.sentinel .memory) (.sentinel .memory)).spliceIn
    ⟨2, 0⟩ (.slot 0 1) (.slot 0 0) (.sentinel .memory)).spliceIn
    ⟨3, 0⟩ (.slot 1 0) (.slot 0 1) (.sentinel .memory)).spliceIn
    ⟨4, 0⟩ (.slot 0 2) (.sentinel .time) (.sentinel .time)

/-- Their lists, from the sentinels on. -/
def tableRings : Sentinel → List NodeRef
  | .memory => [.sentinel .memory, .slot 0 0, .slot 0 1, .slot 1 0]
  | .time => [.sentinel .time, .slot 0 2]
  | k => [.sentinel k]

/-- The entries stand in the order in which they have been inserted. -/
theorem represents_tableLists :
    Represents tableLists NodeRef.sentinel tableRings tableLists.caps where
  family := by
    have h₁ := represents_emptyLists.spliceIn (k := .memory) ⟨1, 0⟩ (n := .slot 0 0) rfl
      List.mem_cons_self rfl
    have h₂ := h₁.spliceIn (k := .memory) ⟨2, 0⟩ (n := .slot 0 1) (p := .slot 0 0) rfl (by decide) rfl
    have h₃ := h₂.spliceIn (k := .memory) ⟨3, 0⟩ (n := .slot 1 0) (p := .slot 0 1) rfl (by decide) rfl
    have h₄ := h₃.spliceIn (k := .time) ⟨4, 0⟩ (n := .slot 0 2) rfl List.mem_cons_self rfl
    obtain ⟨rings, hfamily, rfl⟩ : ∃ rings, Ring.Family tableLists.nexts tableLists.prevs
        NodeRef.sentinel rings ∧ rings = tableRings :=
      ⟨_, h₄.family, funext fun k => by cases k <;> rfl⟩
    exact hfamily
  caps := rfl

/-- In these lists the one of memory gets a fourth entry, loses its second one and has it moved. -/
theorem capNode_onSequences_tables :
    (∃ t, (capNodeInsert .virt ⟨5, 0⟩ (.slot 1 1) (.slot 0 0)).run tableLists = .ok (true, t) ∧
      Represents t NodeRef.sentinel (Function.update tableRings .memory
        [.sentinel .memory, .slot 0 0, .slot 1 1, .slot 0 1, .slot 1 0])
        (Function.update tableLists.caps (.slot 1 1) ⟨5, 0⟩)) ∧
    (∃ t, (capNodeDelete .virt (.slot 0 1)).run tableLists = .ok (true, t) ∧
      Represents t NodeRef.sentinel (Function.update tableRings .memory
        [.sentinel .memory, .slot 0 0, .slot 1 0]) tableLists.caps) ∧
    (∃ t, (capNodeDelete2 .virt (.slot 0 1) (.slot 0 0)).run tableLists = .ok (true, t) ∧
      Represents t NodeRef.sentinel (Function.update tableRings .memory
        [.sentinel .memory, .slot 0 0, .slot 1 0]) tableLists.caps) ∧
    (capNodeDelete2 .virt (.slot 0 1) (.slot 1 0)).run tableLists = .ok (false, tableLists) ∧
    ∃ t, (capNodeMove .virt ⟨6, 0⟩ (.slot 0 1) (.slot 1 1)).run tableLists = .ok (true, t) ∧
      Represents t NodeRef.sentinel (Function.update tableRings .memory
        [.sentinel .memory, .slot 0 0, .slot 1 1, .slot 1 0])
        (Function.update tableLists.caps (.slot 1 1) ⟨6, 0⟩) := by
  have h := capNode_onSequences .virt represents_tableLists
  refine ⟨h.insert ⟨5, 0⟩ _ _ .memory rfl (by decide), ?_, ?_, h.delete2_other _ _ ?_, ?_⟩
  · obtain ⟨t, hd', hrun, hrep, hhd⟩ := h.delete (.slot 0 1) .memory (by decide) (by decide)
    obtain rfl := hhd (by decide)
    exact ⟨t, hrun, hrep⟩
  · obtain ⟨t, hd', hrun, hrep, hhd⟩ := h.delete2 (.slot 0 1) (.slot 0 0) .memory
      ⟨[.sentinel .memory], [.slot 1 0, .sentinel .memory], rfl⟩ (by decide)
    obtain rfl := hhd (by decide)
    exact ⟨t, hrun, hrep⟩
  · intro k hk
    cases k with
    | memory =>
      have hprev := ((represents_tableLists.family.ring .memory).precedes_iff (by decide)).mp hk
      exact absurd hprev (by decide)
    | time | supervisor | channels => exact absurd (Ring.mem_of_precedes hk) (by decide)
  · obtain ⟨t, hd', hrun, hrep, hhd⟩ := h.move ⟨6, 0⟩ (.slot 0 1) (.slot 1 1) .memory (by decide) rfl
    obtain rfl := hhd (by decide)
    exact ⟨t, hrun, hrep⟩

end SepKernel
