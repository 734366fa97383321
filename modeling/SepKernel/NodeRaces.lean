import Mathlib.Data.Fintype.Basic
import SepKernel.NodeLists

/-!
# Races on the list

Which node stands after which is decided by the compare and sets on `prev`; `next` follows by a
plain store. While such a store is outstanding another hart may already have unlinked the node it
is about to store, or have inserted one behind the same predecessor, and then the store leaves
`next` at a dead node. And a node may be inserted again as soon as its `prev` is null, while the
hart that deletes it has yet to look at its `next`. Where neither happens the lists are well
formed whenever no operation is in flight, however the harts take turns.
-/

namespace SepKernel

open Interleaving
open Transition (Reachable restrict exec guarded steps_getD_exec restrict_of_guarded)

variable {ι κ : Type} {hd : κ → NodeRef}

/-! ## What is said of every run -/

namespace NodeCtl

/-- The node that is being inserted. -/
def inserts : NodeCtl → Option NodeRef
  | .insertAssert node _ => some node
  | .insertLoad node _ => some node
  | .insertCheck node _ _ => some node
  | .insertNext node _ _ => some node
  | .insertCas node _ _ => some node
  | .insertStore node _ _ => some node
  | .insertPublish node _ => some node
  | _ => none

/-- The node it is being inserted after. -/
def parent : NodeCtl → Option NodeRef
  | .insertAssert _ prev => some prev
  | .insertLoad _ prev => some prev
  | .insertCheck _ prev _ => some prev
  | .insertNext _ prev _ => some prev
  | .insertCas _ prev _ => some prev
  | .insertStore _ prev _ => some prev
  | .insertPublish _ prev => some prev
  | _ => none

/-- The nodes whose pointers a deletion has still to read or write, once it cannot fail any more. -/
def unlinks : NodeCtl → List NodeRef
  | .unlinkLoad node _ => [node]
  | .unlinkCas node _ _ => [node]
  | .unlinkStore node prev _ => [node, prev]
  | _ => []

/-- At the last store of a deletion: the node, and the one whose `next` is stored. -/
def lastStore : NodeCtl → Option (NodeRef × NodeRef)
  | .unlinkStore node prev _ => some (node, prev)
  | _ => none

/-- At the first access of an insertion. -/
def begins : NodeCtl → Option NodeRef
  | .insertAssert node _ => some node
  | _ => none

end NodeCtl

/-- The node that is to be deleted. -/
def deletes {ι : Type} : Label ι NodeOp → Option NodeRef
  | .enter _ (.delete node) => some node
  | .enter _ (.delete2 node _) => some node
  | _ => none

namespace ListState

/-- No operation is in flight. -/
def Quiet (s : ListState ι) : Prop := ∀ h, s.ctl h = .idle

/-- Circular doubly linked lists with the given heads, of just the nodes that have been inserted
    and not deleted. -/
def WellFormed (hd : κ → NodeRef) (s : ListState ι) : Prop :=
  ∃ rings, Ring.Family s.next s.prev hd rings ∧ ∀ n, s.prev n ≠ none ↔ s.present n = true

/-- No hart is in a call, and the links are circular lists. -/
def Start (hd : κ → NodeRef) (s : ListState ι) : Prop := s.Quiet ∧ s.WellFormed hd

/-- What the callers see to: a dead node is inserted by one hart at a time, a live one inserted
    after by one hart at a time, and no head is deleted. -/
def Usage (hd : κ → NodeRef) (s : ListState ι) (l : Label ι NodeOp) : Prop :=
  (∀ h k, ∀ n ∈ (s.ctl h).inserts, n ∈ (s.ctl k).inserts → s.prev n = none → h = k) ∧
  (∀ h k, ∀ p ∈ (s.ctl h).parent, p ∈ (s.ctl k).parent → s.prev p ≠ none → h = k) ∧
  ∀ n ∈ deletes l, ∀ k, n ≠ hd k

/-- The last store of a deletion replaces the node that was deleted, and the insertion of a node
    does not begin while a deletion is at work on it. -/
def Timely (s : ListState ι) : Label ι NodeOp → Prop
  | .enter _ _ => True
  | .access h => (∀ x ∈ (s.ctl h).lastStore, s.next x.2 = some x.1) ∧
      ∀ n ∈ (s.ctl h).begins, ∀ k, n ∉ (s.ctl k).unlinks

instance [DecidableEq ι] [Fintype ι] [Fintype κ] (s : ListState ι) (l : Label ι NodeOp) :
    Decidable (s.Usage hd l) := by
  unfold Usage
  infer_instance

instance [Fintype ι] (s : ListState ι) : ∀ l, Decidable (s.Timely l)
  | .enter _ _ => inferInstanceAs (Decidable True)
  | .access h => inferInstanceAs (Decidable ((∀ x ∈ (s.ctl h).lastStore, s.next x.2 = some x.1) ∧
      ∀ n ∈ (s.ctl h).begins, ∀ k, n ∉ (s.ctl k).unlinks))

end ListState

/-! ## Every run -/

section

variable {s s' : ListState ι} {h : ι} {n p : NodeRef}
  {next prev : NodeRef → Option NodeRef} {rings : κ → List NodeRef}

/-- Whoever owns a node is deleting or inserting it. -/
theorem NodeCtl.unlinks_or_inserts {c : NodeCtl} (h : c.owns = some n) :
    n ∈ c.unlinks ∨ n ∈ c.inserts := by
  cases c with
  | unlinkLoad _ _ => cases h; exact Or.inl (by simp [unlinks])
  | unlinkCas _ _ _ => cases h; exact Or.inl (by simp [unlinks])
  | unlinkStore _ _ _ => cases h; exact Or.inl (by simp [unlinks])
  | _ => first | exact Or.inr h | cases h

namespace ListState

/-- With no hart at work the lists are what the memory says. -/
theorem follows_of_start (hs : s.Start hd) :
    ∃ next prev rings, Follows hd s next prev rings := by
  obtain ⟨hquiet, rings, hfamily, hpresent⟩ := hs
  refine ⟨s.next, s.prev, rings, hfamily, fun h => ?_, fun h k _ => ?_, fun n _ => ?_,
    fun x y hxy => ?_⟩
  · rw [hquiet h]
    trivial
  · rw [hquiet h, hquiet k]
    exact ⟨fun _ => nofun, fun _ _ _ => nofun, fun _ _ _ _ _ => nofun⟩
  · exact ⟨rfl, (hpresent n).symm⟩
  · obtain ⟨q, hq⟩ := hfamily.exists_prev (p := y) (by rw [hxy]; exact Option.some_ne_none x)
    obtain rfl : q = x := Option.some.inj (hq.2.symm.trans hxy)
    exact ⟨y, hq.1, .refl⟩

/-- When nothing is in flight, no store is owed. -/
theorem wellFormed_of_follows (hs : Follows hd s next prev rings) (hquiet : s.Quiet) :
    s.WellFormed hd := by
  have hplain : ∀ n, s.prev n = prev n ∧ (s.present n = true ↔ prev n ≠ none) := by
    intro n
    refine hs.plain n fun h => ?_
    rw [hquiet h]
    exact nofun
  have hprev : s.prev = prev := funext fun n => (hplain n).1
  have hnext : ∀ x y, prev y = some x → s.next x = some y := by
    intro x y hxy
    obtain ⟨a, ha, hpath⟩ := hs.leads x y hxy
    rcases Relation.ReflTransGen.cases_head hpath with rfl | ⟨b, ⟨k, hk⟩, -⟩
    · exact ha
    · rw [hquiet k] at hk
      cases hk
  refine ⟨rings, ⟨fun k => ?_, hs.family.head, hs.family.disjoint, ?_⟩, fun n => ?_⟩
  · refine (hs.family.ring k).congr (fun x hx => ?_) fun y _ => (hplain y).1
    obtain ⟨y, -, hy⟩ := (hs.family.ring k).exists_next hx
    rw [hnext x y hy.2, hy.1]
  · rw [hprev]
    exact hs.family.live
  · rw [(hplain n).1, (hplain n).2]

/-- A node nobody unlinks and only one hart is about to insert. -/
theorem not_owned_of_begins (hn : ∀ k, n ∉ (s.ctl k).unlinks)
    (hinserts : ∀ k, n ∈ (s.ctl k).inserts → h = k) (hc : s.ctl h = .insertAssert n p) (k : ι) :
    (s.ctl k).owns ≠ some n := by
  intro ho
  have hi := (NodeCtl.unlinks_or_inserts ho).resolve_left (hn k)
  rw [← hinserts k hi, hc] at ho
  cases ho

/-- A step that the callers see to and that is timely. -/
theorem follows_of_step [DecidableEq ι] [DecidableEq κ] {l : Label ι NodeOp}
    (hs : Follows hd s next prev rings) (hl : s.Step l s') (husage : s.Usage hd l)
    (htimely : s.Timely l) : ∃ next' prev' rings', Follows hd s' next' prev' rings' := by
  cases l with
  | enter h op =>
    obtain ⟨c, henter, rfl⟩ := enter_inv hl
    have hhead := husage.2.2
    cases hc : s.ctl h with
    | idle =>
      rw [hc] at henter
      cases op with
      | insert n p =>
        cases henter
        exact ⟨_, _, _, hs.pass hc trivial rfl rfl rfl rfl⟩
      | delete n =>
        cases henter
        exact ⟨_, _, _, hs.pass hc (hhead n rfl) rfl rfl rfl rfl⟩
      | delete2 n p =>
        cases henter
        exact ⟨_, _, _, hs.pass hc (hhead n rfl) rfl rfl rfl rfl⟩
    | _ =>
      rw [hc] at henter
      cases henter
  | access h =>
    have hknows := hs.knows h
    cases hc : s.ctl h with
    | idle => exact absurd (by rw [hc]; rfl) (access_none hl)
    | stopped => exact absurd (by rw [hc]; rfl) (access_none hl)
    | deleteLoad n =>
      rw [hc] at hknows
      obtain rfl := access_load hl (by rw [hc]; rfl) (by rw [hc]; rfl)
      cases s.harts.mem (n, .prev) with
      -- a dead node: the deletion ends without a write
      | none => exact ⟨_, _, _, hs.pass hc trivial rfl rfl rfl rfl⟩
      | some p => exact ⟨_, _, _, hs.pass hc hknows rfl rfl rfl rfl⟩
    | deleteCas n p loop =>
      rw [hc] at hknows
      rcases access_cas hl (by rw [hc]; rfl) (by rw [hc]; rfl) with ⟨hp, rfl⟩ | ⟨-, rfl⟩
      -- from here on the node is this hart's, until it is off its list
      · exact ⟨_, _, _, hs.claim hc hp⟩
      · cases loop with
        | true => exact ⟨_, _, _, hs.pass hc hknows rfl rfl rfl rfl⟩
        | false => exact ⟨_, _, _, hs.pass hc trivial rfl rfl rfl rfl⟩
    | unlinkLoad n p =>
      rw [hc] at hknows
      obtain rfl := access_load hl (by rw [hc]; rfl) (by rw [hc]; rfl)
      obtain ⟨a, ha⟩ := hs.exists_next hknows.2.2.1
      have hfound : s.harts.mem (n, .next) = some a := ha
      rw [hfound]
      exact ⟨_, _, _, hs.pass hc hknows rfl rfl rfl rfl⟩
    | unlinkCas n p m =>
      rw [hc] at hknows
      rcases access_cas hl (by rw [hc]; rfl) (by rw [hc]; rfl) with ⟨hm, rfl⟩ | ⟨-, rfl⟩
      -- the list loses the node at this access, before the store to its predecessor
      · exact hs.unlink hc hm
      · exact ⟨_, _, _, hs.pass hc hknows rfl rfl rfl rfl⟩
    | unlinkStore n p m =>
      obtain rfl := access_unlinkStore hl hc
      exact ⟨_, _, _, hs.settle hc (htimely.1 (n, p) (by rw [hc]; rfl))⟩
    | insertAssert n p =>
      obtain rfl := access_load hl (by rw [hc]; rfl) (by rw [hc]; rfl)
      cases hn : s.harts.mem (n, .prev) with
      | none =>
        -- nobody else is at work on a dead node, so it becomes this hart's
        have hunlinks := htimely.2 n (by rw [hc]; rfl)
        have hfree := not_owned_of_begins hunlinks
          (fun k hk => husage.1 h k n (by rw [hc]; rfl) hk hn) hc
        refine ⟨_, _, _, hs.bring hc hn hfree fun k n' m hk => hunlinks k ?_⟩
        rw [hk]
        simp [NodeCtl.unlinks]
      | some q => exact ⟨_, _, _, hs.pass hc trivial rfl rfl rfl rfl⟩
    | insertLoad n p =>
      rw [hc] at hknows
      obtain rfl := access_load hl (by rw [hc]; rfl) (by rw [hc]; rfl)
      exact ⟨_, _, _, hs.pass hc hknows rfl rfl rfl rfl⟩
    | insertCheck n p o =>
      rw [hc] at hknows
      obtain rfl := access_load hl (by rw [hc]; rfl) (by rw [hc]; rfl)
      cases s.harts.mem (p, .prev) with
      -- the predecessor has been deleted meanwhile: the node is given up
      | none =>
        refine ⟨_, _, _, hs.silent trivial nofun nofun (fun n' ho => Or.inr ?_)
          (by rw [hc]; rfl) rfl⟩
        rw [hc] at ho ⊢
        exact ho
      | some q => exact ⟨_, _, _, hs.pass hc hknows rfl rfl rfl rfl⟩
    | insertNext n p o =>
      obtain rfl := access_store_next hl (by rw [hc]; rfl) (by rw [hc]; rfl)
      cases o with
      | none => exact ⟨_, _, _, hs.write hc⟩
      | some m => exact ⟨_, _, _, hs.write hc⟩
    | insertCas n p m =>
      rw [hc] at hknows
      rcases access_cas hl (by rw [hc]; rfl) (by rw [hc]; rfl) with ⟨hm, rfl⟩ | ⟨-, rfl⟩
      -- the list gains the node here
      · exact hs.splice hc hm
      · obtain ⟨hn, hnone, habsent, -⟩ := hknows
        exact ⟨_, _, _, hs.pass hc ⟨hn, hnone, habsent⟩ rfl rfl rfl rfl⟩
    | insertStore n p m =>
      obtain rfl := access_store_next hl (by rw [hc]; rfl) (by rw [hc]; rfl)
      exact ⟨_, _, _, hs.link hc⟩
    | insertPublish n p =>
      obtain rfl := access_insertPublish hl hc
      exact ⟨_, _, _, hs.publish hc⟩

end ListState

end

variable [DecidableEq ι] [DecidableEq κ]

/-- In every run, of any number of harts, whose last stores and insertions are timely, the lists are
    well formed whenever no operation is in flight, and they hold what has been inserted and not
    deleted. -/
theorem lists_survive {s : ListState ι} (hs : Reachable (ListState.Start hd)
    (restrict ListState.Step fun s l => s.Usage hd l ∧ s.Timely l) s) (hquiet : s.Quiet) :
    s.WellFormed hd := by
  obtain ⟨next, prev, rings, hfollows⟩ := hs.invariant
    (I := fun s => ∃ next prev rings, Follows hd s next prev rings)
    (fun s h => ListState.follows_of_start h) fun s l s' h hl => by
      obtain ⟨next, prev, rings, hf⟩ := h
      exact ListState.follows_of_step hf hl.1 hl.2.1 hl.2.2
  exact ListState.wellFormed_of_follows hfollows hquiet

/-! ## Two harts on one list -/

/-- The races need no more than one list. -/
def oneList : Unit → NodeRef := fun _ => .sentinel .memory

/-- The head alone. -/
def headOnly : ListState (Fin 2) :=
  ⟨⟨fun c => if c.1 = .sentinel .memory then some (.sentinel .memory) else none, fun _ => .idle⟩,
    fun n => n = .sentinel .memory⟩

/-- A list of its sentinel alone. -/
theorem headOnly_start : headOnly.Start oneList := by
  have hprev : ∀ n, headOnly.prev n =
      if n = .sentinel .memory then some (.sentinel .memory) else none := fun _ => rfl
  refine ⟨fun _ => rfl, fun _ => [.sentinel .memory], ⟨fun _ => ⟨List.nodup_singleton _, _, rfl,
    ?_⟩, fun _ => rfl, fun _ _ _ _ _ => rfl, fun n => ?_⟩, fun n => ?_⟩
  · exact List.isChain_pair.mpr ⟨rfl, rfl⟩
  · rw [hprev]
    by_cases hn : n = .sentinel .memory <;> simp [hn]
  · rw [hprev]
    by_cases hn : n = .sentinel .memory <;> simp [hn, headOnly]

/-- Hart 0 inserts two nodes. -/
def twoNodes : List (Label (Fin 2) NodeOp) :=
  .enter 0 (.insert (.slot 0 0) (.sentinel .memory)) :: List.replicate 7 (.access 0) ++
    .enter 0 (.insert (.slot 0 1) (.slot 0 0)) :: List.replicate 7 (.access 0)

/-- Hart 0 deletes the first, and before its last store hart 1 deletes the second. -/
def neighboursDeleted : List (Label (Fin 2) NodeOp) :=
  twoNodes ++ .enter 0 (.delete (.slot 0 0)) :: List.replicate 4 (.access 0) ++
    .enter 1 (.delete (.slot 0 1)) :: List.replicate 5 (.access 1) ++ [.access 0]

/-- Hart 0 deletes the first while hart 1 inserts one after the second. -/
def insertedMeanwhile : List (Label (Fin 2) NodeOp) :=
  twoNodes ++ [.enter 0 (.delete (.slot 0 0)), .enter 1 (.insert (.slot 1 0) (.slot 0 1)),
    .access 1, .access 0, .access 1, .access 0, .access 1, .access 0, .access 1, .access 0,
    .access 1, .access 0, .access 1, .access 1]

omit [DecidableEq ι] [DecidableEq κ] in
/-- A next pointer to a deleted node is not well formed. -/
theorem not_wellFormed {s : ListState ι} {n q : NodeRef} (hn : s.prev n ≠ none)
    (hnext : s.next n = some q) (hq : s.prev q = none) : ¬ s.WellFormed hd := by
  intro h
  obtain ⟨rings, hfamily, -⟩ := h
  obtain ⟨q', hq1, hq2⟩ := hfamily.exists_next hn
  obtain rfl : q' = q := Option.some.inj (hq1.symm.trans hnext)
  rw [hq] at hq2
  cases hq2

/-- With both harts done the head points to a deleted node. -/
theorem list_broken : ∃ s : ListState (Fin 2), Reachable (ListState.Start oneList)
    (restrict ListState.Step fun s l => s.Usage oneList l) s ∧ s.Quiet ∧
      ¬ s.WellFormed oneList := by
  refine ⟨(exec (guarded ListState.step fun s l => s.Usage oneList l) neighboursDeleted
    headOnly).getD headOnly, ⟨headOnly, headOnly_start, steps_getD_exec
      (restrict_of_guarded fun _ _ _ h => h) _ _⟩, by unfold ListState.Quiet; decide +kernel, ?_⟩
  exact not_wellFormed (n := .sentinel .memory) (q := .slot 0 1) (by decide +kernel)
    (by decide +kernel) (by decide +kernel)

/-- Hart 0 has begun to delete the first when hart 1 inserts it again, after the second. -/
def insertedAgain : List (Label (Fin 2) NodeOp) :=
  twoNodes ++ [.enter 0 (.delete (.slot 0 0)), .access 0, .access 0] ++
    .enter 1 (.insert (.slot 0 0) (.slot 0 1)) :: List.replicate 7 (.access 1) ++
    [.access 0, .access 0, .access 0]

-- Then the head points to itself, and the second node is lost.
example : let s := (exec (guarded ListState.step fun s l => s.Usage oneList l) insertedAgain
      headOnly).getD headOnly
    s.Quiet ∧ s.next (.sentinel .memory) = some (.sentinel .memory) ∧
      s.prev (.slot 0 1) = some (.slot 0 0) := by
  unfold ListState.Quiet
  decide +kernel

/-- An insertion at one place goes with a deletion at another. -/
theorem lists_survive_insertedMeanwhile :
    let s := (exec (guarded ListState.step fun s l => s.Usage oneList l ∧ s.Timely l)
      insertedMeanwhile headOnly).getD headOnly
    s.present (.slot 1 0) = true ∧ s.WellFormed oneList :=
  ⟨by decide +kernel, lists_survive ⟨headOnly, headOnly_start, steps_getD_exec
    (restrict_of_guarded fun _ _ _ h => h) _ _⟩ (by unfold ListState.Quiet; decide +kernel)⟩

end SepKernel