import SepKernel.Lib.LoadReserved
import SepKernel.Links

/-!
# `inc/cap_node.h`, one access at a time

The list of capabilities is shared by all harts and guarded by no lock. Here every load, store and
compare and set on the two pointers of a node is a step of its own, and the harts take turns in
any order. The store of the capability itself touches no pointer and is left out.
-/

namespace SepKernel

open Interleaving Kernel
open LoadReserved (Op)

variable {cfg : Config} {s t : Kernel} {n p m : NodeRef}

/-! ## Where a hart stands -/

/-- The two pointers of a node. A null `prev` says that the node is in no list. -/
inductive Link where
  | prev | next
deriving DecidableEq

/-- Each pointer is a word of memory of its own. -/
abbrev LinkCell := NodeRef × Link

/-- The next access of a hart, with the local variables of the function it is in: `node` is the
    argument, `prev` and `next` are what the function has read of its neighbours. -/
inductive NodeCtl where
  | idle
  /-- In the loop of `cap_node_delete`. -/
  | deleteLoad (node : NodeRef)
  /-- At the first access of `cap_node_delete2`; whether `cap_node_delete` has called it. -/
  | deleteCas (node prev : NodeRef) (loop : Bool)
  | unlinkLoad (node prev : NodeRef)
  | unlinkCas (node prev next : NodeRef)
  | unlinkStore (node prev next : NodeRef)
  | insertAssert (node prev : NodeRef)
  | insertLoad (node prev : NodeRef)
  /-- At the condition of the loop of `cap_node_insert`. -/
  | insertCheck (node prev : NodeRef) (next : Option NodeRef)
  | insertNext (node prev : NodeRef) (next : Option NodeRef)
  | insertCas (node prev next : NodeRef)
  | insertStore (node prev next : NodeRef)
  | insertPublish (node prev : NodeRef)
  /-- An assertion has failed, or a null pointer was followed. -/
  | stopped
deriving DecidableEq

/-! ## The accesses -/

/-- What a hart does next to a link, in the order of the source. The comparisons of
    `compare_and_set` are all with the pointer back: it is what a hart has to own to change the list
    there. -/
def NodeCtl.op : NodeCtl → Option (Op LinkCell (Option NodeRef) NodeCtl)
  | .idle => none
  | .stopped => none
  | .deleteLoad node => some (.load (node, .prev) fun
    | none => .idle
    | some prev => .deleteCas node prev true)
  | .deleteCas node prev loop => some (.cas ⟨(node, .prev), some prev, none,
      .unlinkLoad node prev, if loop then .deleteLoad node else .idle⟩)
  | .unlinkLoad node prev => some (.load (node, .next) fun
    | none => .stopped
    | some next => .unlinkCas node prev next)
  | .unlinkCas node prev next => some (.cas ⟨(next, .prev), some node, some prev,
      .unlinkStore node prev next, .unlinkLoad node prev⟩)
  | .unlinkStore _ prev next => some (.store (prev, .next) (some next) .idle)
  | .insertAssert node prev => some (.load (node, .prev) fun
    | none => .insertLoad node prev
    | some _ => .stopped)
  | .insertLoad node prev => some (.load (prev, .next) (.insertCheck node prev))
  | .insertCheck node prev next => some (.load (prev, .prev) fun
    | none => .idle
    | some _ => .insertNext node prev next)
  | .insertNext node prev next => some (.store (node, .next) next
      (match next with
        | none => .stopped
        | some next => .insertCas node prev next))
  | .insertCas node prev next => some (.cas ⟨(next, .prev), some prev, some node,
      .insertStore node prev next, .insertLoad node prev⟩)
  | .insertStore node prev _ => some (.store (prev, .next) (some node) (.insertPublish node prev))
  | .insertPublish node prev => some (.store (node, .prev) (some prev) .idle)

/-- The same with each lr/sc loop as one step, which is how the invariants see it;
    `SepKernel.Atomics` justifies it. -/
def NodeCtl.access (c : NodeCtl) : Option (Access LinkCell (Option NodeRef) NodeCtl) :=
  c.op.map Op.access

/-- The calls that race: a move is an insertion and a deletion, one after the other. -/
inductive NodeOp where
  | insert (node prev : NodeRef)
  | delete (node : NodeRef)
  | delete2 (node prev : NodeRef)
deriving DecidableEq

/-- A call begins on a hart that is in none; where it begins is the first access that others can
    see. -/
def NodeCtl.enter : NodeCtl → NodeOp → Option NodeCtl
  | .idle, .insert node prev => some (.insertAssert node prev)
  | .idle, .delete node => some (.deleteLoad node)
  | .idle, .delete2 node prev => some (.deleteCas node prev false)
  | _, _ => none

/-- The lists as a machine of their links and any harts: which operations a hart may begin, and what
    it does next in one. No lock guards them. -/
def nodeMachine : Machine LinkCell (Option NodeRef) NodeCtl NodeOp :=
  ⟨NodeCtl.enter, NodeCtl.access⟩

/-- The pointers and where each hart stands. `present` notes which nodes have been inserted and
    not deleted: an operation counts when it returns `true`. -/
structure ListState (ι : Type) where
  harts : State ι LinkCell (Option NodeRef) NodeCtl
  present : NodeRef → Bool

/-- What the last access of a successful operation has done. -/
def NodeCtl.returns : NodeCtl → Option (NodeRef × Bool)
  | .unlinkStore node _ _ => some (node, false)
  | .insertPublish node _ => some (node, true)
  | _ => none

namespace ListState

variable {ι : Type} {s s' : ListState ι} {h : ι} {o x y : Option NodeRef} {c yes no : NodeCtl}
  {b : Bool} {cell : LinkCell} {f : Option NodeRef → NodeCtl} {l : Label ι NodeOp}

/-- `n->next`. -/
def next (s : ListState ι) (n : NodeRef) : Option NodeRef := s.harts.mem (n, .next)

/-- `n->prev`. -/
def prev (s : ListState ι) (n : NodeRef) : Option NodeRef := s.harts.mem (n, .prev)

/-- Where the hart is in its call. -/
def ctl (s : ListState ι) (h : ι) : NodeCtl := s.harts.ctl h

/-- Insertions and deletions count from the step on in which they return. -/
def note (s : ListState ι) : Label ι NodeOp → NodeRef → Bool
  | .enter _ _ => s.present
  | .access h => match (s.ctl h).returns with
    | none => s.present
    | some (node, b) => Function.update s.present node b

/-- A store to one link; the harts and the other links stay. -/
def setPrev (s : ListState ι) (n : NodeRef) (o : Option NodeRef) : ListState ι :=
  { s with harts := s.harts.setMem (n, .prev) o }

/-- The same for the other link. -/
def setNext (s : ListState ι) (n : NodeRef) (o : Option NodeRef) : ListState ι :=
  { s with harts := s.harts.setMem (n, .next) o }

/-- The node counts as inserted, or as deleted, which is noted and not read. -/
def setPresent (s : ListState ι) (n : NodeRef) (b : Bool) : ListState ι :=
  { s with present := Function.update s.present n b }

@[simp] theorem next_setPrev : (s.setPrev n o).next = s.next := by
  funext m
  exact Function.update_of_ne (by simp) _ _

@[simp] theorem prev_setPrev : (s.setPrev n o).prev = Function.update s.prev n o :=
  Function.update_comp_eq_of_injective s.harts.mem (Prod.mk_left_injective Link.prev) n o

@[simp] theorem present_setPrev : (s.setPrev n o).present = s.present := rfl
@[simp] theorem ctl_setPrev : (s.setPrev n o).ctl = s.ctl := rfl

@[simp] theorem prev_setNext : (s.setNext n o).prev = s.prev := by
  funext m
  exact Function.update_of_ne (by simp) _ _

@[simp] theorem next_setNext : (s.setNext n o).next = Function.update s.next n o :=
  Function.update_comp_eq_of_injective s.harts.mem (Prod.mk_left_injective Link.next) n o

@[simp] theorem present_setNext : (s.setNext n o).present = s.present := rfl
@[simp] theorem ctl_setNext : (s.setNext n o).ctl = s.ctl := rfl

@[simp] theorem next_setPresent : (s.setPresent n b).next = s.next := rfl
@[simp] theorem prev_setPresent : (s.setPresent n b).prev = s.prev := rfl
@[simp] theorem ctl_setPresent : (s.setPresent n b).ctl = s.ctl := rfl
@[simp] theorem present_setPresent :
    (s.setPresent n b).present = Function.update s.present n b := rfl

variable [DecidableEq ι]

/-- The access, with what it says of the nodes that are in a list. -/
def step (l : Label ι NodeOp) (s : ListState ι) : Option (ListState ι) :=
  (nodeMachine.step l s.harts).map fun harts => ⟨harts, s.note l⟩

/-- The steps that the harts can take. -/
def Step (s : ListState ι) (l : Label ι NodeOp) (s' : ListState ι) : Prop := step l s = some s'

/-- The hart goes on in its call. -/
def moved (s : ListState ι) (h : ι) (c : NodeCtl) : ListState ι :=
  { s with harts := s.harts.setCtl h c }

@[simp] theorem next_moved : (s.moved h c).next = s.next := rfl
@[simp] theorem prev_moved : (s.moved h c).prev = s.prev := rfl
@[simp] theorem present_moved : (s.moved h c).present = s.present := rfl
@[simp] theorem ctl_moved : (s.moved h c).ctl = Function.update s.ctl h c := rfl

/-! What a step does, by the kind of its access. -/

/-- To begin a call moves the hart and nothing else. -/
theorem enter_inv {op : NodeOp} (hl : s.Step (.enter h op) s') :
    ∃ c, (s.ctl h).enter op = some c ∧ s' = s.moved h c := by
  obtain ⟨harts, hstep, rfl⟩ := Option.map_eq_some_iff.mp hl
  obtain ⟨c, hc, rfl⟩ := Option.map_eq_some_iff.mp hstep
  exact ⟨c, hc, rfl⟩

/-- An access determines the state after it. -/
theorem access_inv {a : Access LinkCell (Option NodeRef) NodeCtl} (hl : s.Step (.access h) s')
    (ha : (s.ctl h).access = some a) : s' = ⟨s.harts.perform h a, s.note (.access h)⟩ := by
  rw [Step, step, Machine.step_access ha] at hl
  exact (Option.some.inj hl).symm

theorem access_load (hl : s.Step (.access h) s') (ha : (s.ctl h).access = some (.load cell f))
    (hr : (s.ctl h).returns = none) : s' = s.moved h (f (s.harts.mem cell)) := by
  rw [access_inv hl ha, State.perform_load, note, hr]
  rfl

/-- The exchange of a pointer back succeeds or does nothing. -/
theorem access_cas (hl : s.Step (.access h) s')
    (ha : (s.ctl h).access = some (.cas (n, .prev) x y yes no)) (hr : (s.ctl h).returns = none) :
    (s.prev n = x ∧ s' = (s.setPrev n y).moved h yes) ∨ (s.prev n ≠ x ∧ s' = s.moved h no) := by
  rw [access_inv hl ha, note, hr]
  by_cases hx : s.harts.mem (n, .prev) = x
  · exact Or.inl ⟨hx, by rw [State.perform_cas_of_eq hx]; rfl⟩
  · exact Or.inr ⟨hx, by rw [State.perform_cas_of_ne hx]; rfl⟩

theorem access_none (hl : s.Step (.access h) s') : (s.ctl h).access ≠ none := by
  intro ha
  obtain ⟨harts, hstep, rfl⟩ := Option.map_eq_some_iff.mp hl
  obtain ⟨a, ha', rfl⟩ := Option.map_eq_some_iff.mp hstep
  exact Option.some_ne_none a (ha'.symm.trans ha)

theorem access_store_next (hl : s.Step (.access h) s')
    (ha : (s.ctl h).access = some (.store (n, .next) x c)) (hr : (s.ctl h).returns = none) :
    s' = (s.setNext n x).moved h c := by
  rw [access_inv hl ha, State.perform_store, note, hr]
  rfl

/-! The two last stores. -/

/-- With its last store a deletion has taken place. -/
theorem access_unlinkStore (hl : s.Step (.access h) s') (hc : s.ctl h = .unlinkStore n p m) :
    s' = ((s.setNext p (some m)).setPresent n false).moved h .idle := by
  rw [access_inv hl (by rw [hc]; rfl), Op.access_store, State.perform_store, note, hc]
  rfl

/-- And an insertion. -/
theorem access_insertPublish (hl : s.Step (.access h) s') (hc : s.ctl h = .insertPublish n p) :
    s' = ((s.setPrev n (some p)).setPresent n true).moved h .idle := by
  rw [access_inv hl (by rw [hc]; rfl), Op.access_store, State.perform_store, note, hc]
  rfl

end ListState

/-! ## One hart alone -/

/-- The links in the kernel's state, as the harts find them. -/
def Kernel.links (s : Kernel) : LinkCell → Option NodeRef
  | (n, .prev) => s.prevs n
  | (n, .next) => s.nexts n

theorem links_setPrev (n : NodeRef) (x : Option NodeRef) (s : Kernel) :
    (s.setPrev n x).links = Function.update s.links (n, .prev) x := by
  funext ⟨m, f⟩
  cases f with
  | prev =>
    show (s.setPrev n x).prevs m = _
    rw [prevs_setPrev]
    by_cases hm : m = n
    · rw [hm, Function.update_self, Function.update_self]
    · rw [Function.update_of_ne hm, Function.update_of_ne (by simp [hm])]
      rfl
  | next =>
    show (s.setPrev n x).nexts m = _
    rw [nexts_setPrev, Function.update_of_ne (by simp)]
    rfl

theorem links_setNext (n : NodeRef) (x : Option NodeRef) (s : Kernel) :
    (s.setNext n x).links = Function.update s.links (n, .next) x := by
  funext ⟨m, f⟩
  cases f with
  | prev =>
    show (s.setNext n x).prevs m = _
    rw [prevs_setNext, Function.update_of_ne (by simp)]
    rfl
  | next =>
    show (s.setNext n x).nexts m = _
    rw [nexts_setNext]
    by_cases hm : m = n
    · rw [hm, Function.update_self, Function.update_self]
    · rw [Function.update_of_ne hm, Function.update_of_ne (by simp [hm])]
      rfl

/-- The accesses lead from one control state to another, alone. -/
def LeadsTo (c : NodeCtl) (s : Kernel) (c' : NodeCtl) (t : Kernel) : Prop :=
  ∃ k, nodeMachine.alone k c s.links = (c', t.links)

namespace LeadsTo

variable {c c' c'' : NodeCtl} {u : Kernel}

/-- A hart alone goes on from where it got. -/
theorem trans (h : LeadsTo c s c' t) (h' : LeadsTo c' t c'' u) : LeadsTo c s c'' u := by
  obtain ⟨j, hj⟩ := h
  obtain ⟨k, hk⟩ := h'
  exact ⟨j + k, by rw [Machine.alone_add, hj, hk]⟩

/-- A load, alone. -/
theorem load {cell : LinkCell} {next : Option NodeRef → NodeCtl}
    (h : c.access = some (.load cell next)) : LeadsTo c s (next (s.links cell)) s :=
  ⟨1, Machine.alone_load 0 h⟩

/-- A store. -/
theorem store_next {x : Option NodeRef} (h : c.access = some (.store (n, .next) x c')) :
    LeadsTo c s c' (s.setNext n x) :=
  ⟨1, by rw [Machine.alone_store 0 h, Machine.alone, links_setNext]⟩

theorem store_prev {x : Option NodeRef} (h : c.access = some (.store (n, .prev) x c')) :
    LeadsTo c s c' (s.setPrev n x) :=
  ⟨1, by rw [Machine.alone_store 0 h, Machine.alone, links_setPrev]⟩

/-- A compare and set does what `compare_and_set` of the sequential model does. -/
theorem cas {x y : Option NodeRef} {yes no : NodeCtl} {b : Bool}
    (h : c.access = some (.cas (n, .prev) x y yes no)) (hrun : (casPrev n x y).run s = .ok (b, t)) :
    LeadsTo c s (if b then yes else no) t := by
  rw [casPrev_run] at hrun
  by_cases hx : s.prevs n = x
  · rw [if_pos hx] at hrun
    obtain ⟨rfl, rfl⟩ := Prod.mk.inj (Except.ok.inj hrun)
    have hfound : s.links (n, .prev) = x := hx
    refine ⟨1, ?_⟩
    rw [Machine.alone_cas_of_eq 0 h hfound, Machine.alone, links_setPrev]
    rfl
  · rw [if_neg hx] at hrun
    obtain ⟨rfl, rfl⟩ := Prod.mk.inj (Except.ok.inj hrun)
    have hfound : s.links (n, .prev) ≠ x := hx
    refine ⟨1, ?_⟩
    rw [Machine.alone_cas_of_ne 0 h hfound]
    rfl

end LeadsTo

theorem deref_inv {o : Option NodeRef} (h : (deref o).run s = .ok (m, t)) : o = some m ∧ s = t := by
  cases o with
  | none => cases h
  | some a =>
    obtain ⟨rfl, rfl⟩ := Prod.mk.inj (Except.ok.inj h)
    exact ⟨rfl, rfl⟩

/-- The functions of the sequential model are what a hart does alone, access by access. -/
theorem capNodeUnlinkNext_alone {fuel : Nat}
    (h : (capNodeUnlinkNext n p fuel).run s = .ok (m, t)) :
    LeadsTo (.unlinkLoad n p) s (.unlinkStore n p m) t := by
  induction fuel generalizing s with
  | zero => cases h
  | succ fuel ih =>
    rw [capNodeUnlinkNext, run_bind_ok (run_get s)] at h
    obtain ⟨q, _, hderef, h1⟩ := run_bind_inv h
    obtain ⟨hq, rfl⟩ := deref_inv hderef
    obtain ⟨b, s₁, hcas, h2⟩ := run_bind_inv h1
    have hload := LeadsTo.load (c := .unlinkLoad n p) (s := s) rfl
    have hfound : s.links (n, .next) = some q := hq
    rw [hfound] at hload
    have hset := hload.trans (.cas rfl hcas)
    cases b with
    | true =>
      obtain ⟨rfl, rfl⟩ := Prod.mk.inj (Except.ok.inj h2)
      exact hset
    | false => exact hset.trans (ih h2)

/-- So for `cap_node_delete2`, in the loop of `cap_node_delete` or not. -/
theorem capNodeDelete2_alone {b : Bool} (loop : Bool)
    (h : (capNodeDelete2 cfg n p).run s = .ok (b, t)) :
    LeadsTo (.deleteCas n p loop) s (if b then .idle else if loop then .deleteLoad n else .idle)
      t := by
  rw [capNodeDelete2] at h
  obtain ⟨d, s₁, hcas, h1⟩ := run_bind_inv h
  have hset : LeadsTo (.deleteCas n p loop) _ _ _ := .cas rfl hcas
  cases d with
  | false =>
    obtain ⟨rfl, rfl⟩ := Prod.mk.inj (Except.ok.inj h1)
    exact hset
  | true =>
    obtain ⟨q, s₂, hunlink, h2⟩ := run_bind_inv h1
    rw [run_bind_ok (writeNext_run _ _ _)] at h2
    obtain ⟨rfl, rfl⟩ := Prod.mk.inj (Except.ok.inj h2)
    exact (hset.trans (capNodeUnlinkNext_alone hunlink)).trans (.store_next rfl)

/-- So for `cap_node_delete`. -/
theorem capNodeDelete_alone {b : Bool} (h : (capNodeDelete cfg n).run s = .ok (b, t)) :
    LeadsTo (.deleteLoad n) s .idle t := by
  rw [capNodeDelete] at h
  generalize cfg.loopFuel = fuel at h
  induction fuel generalizing s with
  | zero => cases h
  | succ fuel ih =>
    rw [capNodeDeleteLoop, run_bind_ok (run_get s)] at h
    have hload := LeadsTo.load (c := .deleteLoad n) (s := s) rfl
    have hlinks : s.links (n, .prev) = (s.nodes n).prev := rfl
    rw [hlinks] at hload
    cases hp : (s.nodes n).prev with
    | none =>
      rw [hp] at h hload
      obtain ⟨rfl, rfl⟩ := Prod.mk.inj (Except.ok.inj h)
      exact hload
    | some p =>
      rw [hp] at h hload
      obtain ⟨d, s₁, hdel, h1⟩ := run_bind_inv h
      have hdone := hload.trans (capNodeDelete2_alone true hdel)
      cases d with
      | true =>
        obtain ⟨rfl, rfl⟩ := Prod.mk.inj (Except.ok.inj h1)
        exact hdone
      | false => exact hdone.trans (ih h1)

/-- So for the loop of an insertion. -/
theorem capNodeInsertLoop_alone {fuel : Nat} {x : Option NodeRef} {b : Bool}
    (h : (capNodeInsertLoop n p fuel x).run s = .ok (b, t)) :
    LeadsTo (.insertCheck n p x) s .idle t := by
  induction fuel generalizing s x with
  | zero => cases h
  | succ fuel ih =>
    rw [capNodeInsertLoop, run_bind_ok (run_get s)] at h
    have hload := LeadsTo.load (c := .insertCheck n p x) (s := s) rfl
    have hlinks : s.links (p, .prev) = (s.nodes p).prev := rfl
    rw [hlinks] at hload
    cases hp : (s.nodes p).prev with
    | none =>
      rw [hp] at h hload
      obtain ⟨rfl, rfl⟩ := Prod.mk.inj (Except.ok.inj h)
      exact hload
    | some p' =>
      rw [hp] at h hload
      have hloop : (writeNext n x >>= fun _ => deref x >>= fun q =>
          casPrev q (some p) (some n) >>= fun d => if d then (do
            writeNext p (some n)
            writePrev n (some p)
            return true)
          else (get >>= fun s => capNodeInsertLoop n p fuel (s.nodes p).next)).run s =
          .ok (b, t) := h
      rw [run_bind_ok (writeNext_run n x s)] at hloop
      obtain ⟨q, _, hderef, h1⟩ := run_bind_inv hloop
      obtain ⟨rfl, rfl⟩ := deref_inv hderef
      -- run alone, the loop is the accesses of one round after the other
      obtain ⟨d, s₁, hcas, h2⟩ := run_bind_inv h1
      have hstore : LeadsTo (.insertNext n p (some q)) s (.insertCas n p q) _ := .store_next rfl
      have hset := (hload.trans hstore).trans (.cas rfl hcas)
      cases d with
      | true =>
        obtain ⟨rfl, rfl⟩ := Prod.mk.inj (Except.ok.inj h2)
        have hlink : LeadsTo (.insertStore n p q) s₁ (.insertPublish n p) _ := .store_next rfl
        exact (hset.trans hlink).trans (.store_prev rfl)
      | false =>
        rw [if_neg (by decide), run_bind_ok (run_get _)] at h2
        have hnext := LeadsTo.load (c := .insertLoad n p) (s := s₁) rfl
        exact (hset.trans hnext).trans (ih h2)

/-- And for the insertion. -/
theorem capNodeInsert_alone {cap : Cap} {b : Bool}
    (h : (capNodeInsert cfg cap n p).run s = .ok (b, t)) :
    LeadsTo (.insertAssert n p) s .idle t := by
  rw [capNodeInsert, run_bind_ok (run_get s)] at h
  have hload := LeadsTo.load (c := .insertAssert n p) (s := s) rfl
  have hlinks : s.links (n, .prev) = (s.nodes n).prev := rfl
  rw [hlinks] at hload
  cases hn : (s.nodes n).prev with
  | some q =>
    rw [hn] at h
    cases h
  | none =>
    rw [hn, Option.isNone_none, run_bind_ok (run_kassert rfl s),
      run_bind_ok (writeCap_run _ _ _), run_bind_ok (run_get _)] at h
    rw [hn] at hload
    have hcap : (s.setCap n cap).links = s.links := by
      funext c
      obtain ⟨m, f⟩ := c
      cases f with
      | prev => exact congrFun (prevs_setCap cap) m
      | next => exact congrFun (nexts_setCap cap) m
    have hnext := LeadsTo.load (c := .insertLoad n p) (s := s.setCap n cap) rfl
    have hstart : LeadsTo (.insertAssert n p) s (.insertLoad n p) (s.setCap n cap) := by
      obtain ⟨k, hk⟩ := hload
      exact ⟨k, by rw [hk, hcap]⟩
    exact (hstart.trans hnext).trans (capNodeInsertLoop_alone h)

end SepKernel
