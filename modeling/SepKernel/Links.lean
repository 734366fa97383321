import SepKernel.CapNode
import SepKernel.Lib.Ring

/-!
# The capability lists

Every node of the kernel is dead or on one of the four rings that start at the sentinels. Under
this invariant the operations of `inc/cap_node.h` never get stuck in their loops, and each has
one closed form: splicing a node in, splicing a node out, or nothing.
-/

namespace SepKernel

/-! ## Running kernel code -/

section Run

variable {α β : Type} {s s' t : Kernel} {a : α} {b : β}

@[simp] theorem ok_bind (a : α) (f : α → Except Halt β) : (Except.ok a >>= f) = f a := rfl
@[simp] theorem error_bind (e : Halt) (f : α → Except Halt β) :
    ((Except.error e : Except Halt α) >>= f) = .error e := rfl

theorem run_get (s : Kernel) : (get : KernelM Kernel).run s = .ok (s, s) := rfl
theorem run_lift_ok {x : Except Halt α} (h : x = .ok a) (s : Kernel) :
    (liftM x : KernelM α).run s = .ok (a, s) := by
  rw [h]
  rfl

theorem run_lift_error {x : Except Halt α} {e : Halt} (h : x = .error e) (s : Kernel) :
    (liftM x : KernelM α).run s = .error e := by
  rw [h]
  rfl

/-- An assert that holds does nothing. -/
theorem run_kassert {b : Bool} (h : b = true) (s : Kernel) :
    (liftM (kassert b) : KernelM Unit).run s = .ok ((), s) := by
  rw [h]
  rfl

/-- What a computation does first when it returns. -/
theorem run_bind_ok {m : KernelM α} (h : m.run s = .ok (a, s')) (f : α → KernelM β) :
    (m >>= f).run s = (f a).run s' := by
  rw [StateT.run_bind, h]
  rfl

theorem run_bind_error {m : KernelM α} {e : Halt} (h : m.run s = .error e) (f : α → KernelM β) :
    (m >>= f).run s = .error e := by
  rw [StateT.run_bind, h]
  rfl

/-- What a computation that returned did first. -/
theorem run_bind_inv {m : KernelM α} {f : α → KernelM β} (h : (m >>= f).run s = .ok (b, t)) :
    ∃ a s', m.run s = .ok (a, s') ∧ (f a).run s' = .ok (b, t) := by
  rw [StateT.run_bind] at h
  cases hm : m.run s with
  | error e => rw [hm] at h; cases h
  | ok r => exact ⟨r.1, r.2, rfl, by rw [hm] at h; exact h⟩

/-- What does not touch the state leaves it. -/
theorem run_lift_inv {x : Except Halt α} (h : (liftM x : KernelM α).run s = .ok (a, t)) :
    x = .ok a ∧ t = s := by
  cases x with
  | error e => cases h
  | ok r =>
    obtain ⟨rfl, rfl⟩ := Prod.mk.inj (Except.ok.inj h)
    exact ⟨rfl, rfl⟩

end Run

namespace Kernel

variable (s : Kernel)

/-- The next pointers alone, which the ring lemmas are about. -/
def nexts (n : NodeRef) : Option NodeRef := (s.nodes n).next

/-- The pointers back. -/
def prevs (n : NodeRef) : Option NodeRef := (s.nodes n).prev

/-- What the nodes hold; it counts only where the node is live. -/
def caps (n : NodeRef) : Cap := (s.nodes n).cap

/-- Not deleted. -/
def Live (n : NodeRef) : Prop := s.prevs n ≠ none

/-- The four lists. -/
def Lists (rings : Sentinel → List NodeRef) : Prop :=
  Ring.Family s.nexts s.prevs NodeRef.sentinel rings

/-- The node `n`, holding `cap`, is put between `p` and its successor `q`. -/
def spliceIn (cap : Cap) (n p q : NodeRef) : Kernel :=
  ((((s.setCap n cap).setNext n (some q)).setPrev q (some n)).setNext p (some n)).setPrev n (some p)

/-- The node `n` is taken out from between `p` and `q`. -/
def spliceOut (n p q : NodeRef) : Kernel := ((s.setPrev n none).setPrev q (some p)).setNext p (some q)

variable {s} {cap : Cap} {n p q m : NodeRef}

/-! ## Updates of nodes, field by field -/

@[simp] theorem prevs_setPrev (x : Option NodeRef) :
    (s.setPrev n x).prevs = Function.update s.prevs n x := by
  funext m
  by_cases h : m = n <;> simp [h, prevs, setPrev, setNode, Function.update]

@[simp] theorem nexts_setPrev (x : Option NodeRef) : (s.setPrev n x).nexts = s.nexts := by
  funext m
  by_cases h : m = n <;> simp [h, nexts, setPrev, setNode, Function.update]

@[simp] theorem caps_setPrev (x : Option NodeRef) : (s.setPrev n x).caps = s.caps := by
  funext m
  by_cases h : m = n <;> simp [h, caps, setPrev, setNode, Function.update]

@[simp] theorem prevs_setNext (x : Option NodeRef) : (s.setNext n x).prevs = s.prevs := by
  funext m
  by_cases h : m = n <;> simp [h, prevs, setNext, setNode, Function.update]

@[simp] theorem nexts_setNext (x : Option NodeRef) :
    (s.setNext n x).nexts = Function.update s.nexts n x := by
  funext m
  by_cases h : m = n <;> simp [h, nexts, setNext, setNode, Function.update]

@[simp] theorem caps_setNext (x : Option NodeRef) : (s.setNext n x).caps = s.caps := by
  funext m
  by_cases h : m = n <;> simp [h, caps, setNext, setNode, Function.update]

@[simp] theorem prevs_setCap (x : Cap) : (s.setCap n x).prevs = s.prevs := by
  funext m
  by_cases h : m = n <;> simp [h, prevs, setCap, setNode, Function.update]

@[simp] theorem nexts_setCap (x : Cap) : (s.setCap n x).nexts = s.nexts := by
  funext m
  by_cases h : m = n <;> simp [h, nexts, setCap, setNode, Function.update]

@[simp] theorem caps_setCap (x : Cap) : (s.setCap n x).caps = Function.update s.caps n x := by
  funext m
  by_cases h : m = n <;> simp [h, caps, setCap, setNode, Function.update]

@[simp] theorem prevs_spliceIn : (s.spliceIn cap n p q).prevs =
    Function.update (Function.update s.prevs q (some n)) n (some p) := by
  simp [spliceIn]

@[simp] theorem nexts_spliceIn : (s.spliceIn cap n p q).nexts =
    Function.update (Function.update s.nexts n (some q)) p (some n) := by
  simp [spliceIn]

@[simp] theorem caps_spliceIn : (s.spliceIn cap n p q).caps = Function.update s.caps n cap := by
  simp [spliceIn]

@[simp] theorem prevs_spliceOut : (s.spliceOut n p q).prevs =
    Function.update (Function.update s.prevs n none) q (some p) := by
  simp [spliceOut]

@[simp] theorem nexts_spliceOut :
    (s.spliceOut n p q).nexts = Function.update s.nexts p (some q) := by
  simp [spliceOut]

@[simp] theorem caps_spliceOut : (s.spliceOut n p q).caps = s.caps := by
  simp [spliceOut]

/-! Nothing but the nodes changes. -/

@[simp] theorem procs_spliceIn : (s.spliceIn cap n p q).procs = s.procs := rfl
@[simp] theorem schedule_spliceIn : (s.spliceIn cap n p q).schedule = s.schedule := rfl
@[simp] theorem receivers_spliceIn : (s.spliceIn cap n p q).receivers = s.receivers := rfl
@[simp] theorem history_spliceIn : (s.spliceIn cap n p q).history = s.history := rfl
@[simp] theorem procs_spliceOut : (s.spliceOut n p q).procs = s.procs := rfl
@[simp] theorem schedule_spliceOut : (s.spliceOut n p q).schedule = s.schedule := rfl
@[simp] theorem receivers_spliceOut : (s.spliceOut n p q).receivers = s.receivers := rfl
@[simp] theorem history_spliceOut : (s.spliceOut n p q).history = s.history := rfl

end Kernel

/-! ## The operations -/

variable {cfg : Config} {s : Kernel} {cap : Cap} {n p q : NodeRef} {fuel : Nat}

open Kernel

theorem capNodeIsDeleted_run (n : NodeRef) (s : Kernel) :
    (capNodeIsDeleted n).run s = .ok ((s.prevs n).isNone, s) := rfl

theorem capNodeIsDeleted_of_live (h : s.Live n) : (capNodeIsDeleted n).run s = .ok (false, s) := by
  rw [capNodeIsDeleted_run, Option.isNone_eq_false_iff.mpr (Option.isSome_iff_ne_none.mpr h)]

theorem capNodeIsDeleted_of_dead (h : ¬ s.Live n) : (capNodeIsDeleted n).run s = .ok (true, s) := by
  rw [capNodeIsDeleted_run, not_not.mp h]
  rfl

theorem capNodeGetCap_of_live (h : s.Live n) : (capNodeGetCap n).run s = .ok (s.caps n, s) := by
  rw [capNodeGetCap, run_bind_ok (run_get s), run_bind_ok (capNodeIsDeleted_of_live h)]
  rfl

theorem capNodeGetCap_of_dead (h : ¬ s.Live n) : (capNodeGetCap n).run s = .ok (nullCap, s) := by
  rw [capNodeGetCap, run_bind_ok (run_get s), run_bind_ok (capNodeIsDeleted_of_dead h)]
  rfl

/-- The exchange happens if the pointer is as expected. -/
theorem casPrev_run (n : NodeRef) (x y : Option NodeRef) (s : Kernel) :
    (casPrev n x y).run s = if s.prevs n = x then .ok (true, s.setPrev n y) else .ok (false, s) := by
  rw [casPrev, run_bind_ok (run_get s)]
  change StateT.run (if s.prevs n = x then _ else _) s = _
  by_cases h : s.prevs n = x
  · rw [if_pos h, if_pos h]
    rfl
  · rw [if_neg h, if_neg h]
    rfl

theorem writeCap_run (n : NodeRef) (c : Cap) (s : Kernel) :
    (writeCap n c).run s = .ok ((), s.setCap n c) := rfl

theorem writeNext_run (n : NodeRef) (x : Option NodeRef) (s : Kernel) :
    (writeNext n x).run s = .ok ((), s.setNext n x) := rfl

theorem deref_run (a : NodeRef) (s : Kernel) : (deref (some a)).run s = .ok (a, s) := rfl

/-- Unlinking `n` from between `p` and `q` takes one round of each loop. -/
theorem capNodeDelete2_run (hp : s.prevs n = some p) (hq : s.nexts n = some q)
    (hqp : s.prevs q = some n) (hqn : q ≠ n) :
    (capNodeDelete2 cfg n p).run s = .ok (true, s.spliceOut n p q) := by
  obtain ⟨fuel, hfuel⟩ := cfg.exists_loopFuel
  have hcas : (casPrev n (some p) none).run s = .ok (true, s.setPrev n none) := by
    rw [casPrev_run, if_pos hp]
  have hnext : (s.setPrev n none).nexts n = some q := by rw [nexts_setPrev, hq]
  have hprev : (s.setPrev n none).prevs q = some n := by
    rw [prevs_setPrev, Function.update_of_ne hqn, hqp]
  have hcas' : (casPrev q (some n) (some p)).run (s.setPrev n none) =
      .ok (true, (s.setPrev n none).setPrev q (some p)) := by
    rw [casPrev_run, if_pos hprev]
  have hunlink : (capNodeUnlinkNext n p (fuel + 1)).run (s.setPrev n none) =
      .ok (q, (s.setPrev n none).setPrev q (some p)) := by
    rw [capNodeUnlinkNext, run_bind_ok (run_get _)]
    change (deref ((s.setPrev n none).nexts n) >>= _).run _ = _
    rw [hnext, run_bind_ok (deref_run q _), run_bind_ok hcas']
    rfl
  rw [capNodeDelete2, run_bind_ok hcas, hfuel]
  change (capNodeUnlinkNext n p (fuel + 1) >>= _).run _ = _
  rw [run_bind_ok hunlink]
  rfl

/-- `cap_node_delete2` compares first. -/
theorem capNodeDelete2_run_of_ne (hp : s.prevs n ≠ some p) :
    (capNodeDelete2 cfg n p).run s = .ok (false, s) := by
  have hcas : (casPrev n (some p) none).run s = .ok (false, s) := by
    rw [casPrev_run, if_neg hp]
  rw [capNodeDelete2, run_bind_ok hcas]
  rfl

/-- A node between two others is taken out, in the first round of both loops. -/
theorem capNodeDelete_run (hp : s.prevs n = some p) (hq : s.nexts n = some q)
    (hqp : s.prevs q = some n) (hqn : q ≠ n) :
    (capNodeDelete cfg n).run s = .ok (true, s.spliceOut n p q) := by
  obtain ⟨fuel, hfuel⟩ := cfg.exists_loopFuel
  rw [capNodeDelete, hfuel, capNodeDeleteLoop, run_bind_ok (run_get s)]
  have hp' : (s.nodes n).prev = some p := hp
  rw [hp']
  change (capNodeDelete2 cfg n p >>= _).run s = _
  rw [run_bind_ok (capNodeDelete2_run hp hq hqp hqn)]
  rfl

/-- `cap_node_insert` between `p` and `q` takes one round of its loop. -/
theorem capNodeInsert_run (hn : s.prevs n = none) (hp : s.prevs p ≠ none) (hq : s.nexts p = some q)
    (hqp : s.prevs q = some p) :
    (capNodeInsert cfg cap n p).run s = .ok (true, s.spliceIn cap n p q) := by
  obtain ⟨fuel, hfuel⟩ := cfg.exists_loopFuel
  have hcas : (casPrev q (some p) (some n)).run ((s.setCap n cap).setNext n (some q)) =
      .ok (true, ((s.setCap n cap).setNext n (some q)).setPrev q (some n)) := by
    rw [casPrev_run, if_pos]
    simp [hqp]
  have hloop : (capNodeInsertLoop n p (fuel + 1) (some q)).run (s.setCap n cap) =
      .ok (true, s.spliceIn cap n p q) := by
    have hlive : ((s.setCap n cap).nodes p).prev.isNone = false := by
      change ((s.setCap n cap).prevs p).isNone = false
      rw [prevs_setCap]
      exact Option.isNone_eq_false_iff.mpr (Option.isSome_iff_ne_none.mpr hp)
    rw [capNodeInsertLoop, run_bind_ok (run_get _), hlive]
    change (writeNext n (some q) >>= _).run _ = _
    rw [run_bind_ok (writeNext_run _ _ _), run_bind_ok (deref_run q _), run_bind_ok hcas]
    rfl
  have hdead : (s.nodes n).prev.isNone = true := Option.isNone_iff_eq_none.mpr hn
  rw [capNodeInsert, run_bind_ok (run_get s), run_bind_ok (run_kassert hdead s),
    run_bind_ok (writeCap_run _ _ _), run_bind_ok (run_get _), hfuel]
  have hnext : ((s.setCap n cap).nodes p).next = some q := by
    change (s.setCap n cap).nexts p = some q
    rw [nexts_setCap, hq]
  rw [hnext, hloop]

/-! ## The operations on the four lists -/

namespace Kernel

variable {rings : Sentinel → List NodeRef} {k : Sentinel} {d : NodeRef}

namespace Lists

/-- To be live is to be in a list. -/
theorem live_iff (h : s.Lists rings) : s.Live n ↔ ∃ k, n ∈ rings k := h.live n

/-- Every sentinel is in its list. -/
theorem live_sentinel (h : s.Lists rings) (k : Sentinel) : s.Live (.sentinel k) :=
  h.live_iff.mpr ⟨k, h.head_mem k⟩

/-- A live node and what is left and right of it. -/
theorem exists_neighbours (h : s.Lists rings) (hn : s.Live n) :
    ∃ k p q, n ∈ rings k ∧ Ring.Linked s.nexts s.prevs p n ∧ Ring.Linked s.nexts s.prevs n q := by
  obtain ⟨k, hk⟩ := h.live_iff.mp hn
  obtain ⟨p, -, hp⟩ := (h.ring k).exists_prev hk
  obtain ⟨q, -, hq⟩ := (h.ring k).exists_next hk
  exact ⟨k, p, q, hk, hp, hq⟩

/-- Only a sentinel can follow itself. -/
theorem next_ne (h : s.Lists rings) (hn : s.Live n) (hns : ∀ k, n ≠ .sentinel k)
    (hq : s.nexts n = some q) : q ≠ n := by
  obtain ⟨k, hk⟩ := h.live_iff.mp hn
  exact Ring.Family.next_ne h hk (hns k) hq

/-- What `cap_node_insert` writes is an insertion into one list. -/
theorem insert (h : s.Lists rings) (hn : ¬ s.Live n) (hk : p ∈ rings k)
    (hq : Ring.Linked s.nexts s.prevs p q) :
    (s.spliceIn cap n p q).Lists (Function.update rings k (Ring.insertAfter p n (rings k))) :=
  Ring.Family.insertAfter h hk (not_not.mp hn) hq.1 nexts_spliceIn prevs_spliceIn

/-- What `cap_node_delete` writes is a deletion from one. -/
theorem delete (h : s.Lists rings) (hk : n ∈ rings k) (hns : n ≠ .sentinel k)
    (hp : Ring.Linked s.nexts s.prevs p n) (hq : Ring.Linked s.nexts s.prevs n q) :
    (s.spliceOut n p q).Lists (Function.update rings k ((rings k).erase n)) :=
  Ring.Family.erase h hk hns hp.2 hq.1 nexts_spliceOut prevs_spliceOut

end Lists

/-- One node more is live. -/
theorem live_spliceIn (hq : s.Live q) : (s.spliceIn cap n p q).Live m ↔ m = n ∨ s.Live m := by
  rw [Live, prevs_spliceIn]
  by_cases hmn : m = n
  · simp [hmn]
  · rw [Function.update_of_ne hmn]
    by_cases hmq : m = q
    · simp [hmq, hq]
    · simp [hmn, hmq, Live]

/-- One less. -/
theorem live_spliceOut (hq : s.Live q) (hqn : q ≠ n) :
    (s.spliceOut n p q).Live m ↔ m ≠ n ∧ s.Live m := by
  rw [Live, prevs_spliceOut]
  by_cases hmq : m = q
  · simp [hmq, hq, hqn]
  · rw [Function.update_of_ne hmq]
    by_cases hmn : m = n
    · simp [hmn]
    · simp [hmn, Live]

/-- What `cap_node_move` leaves: `d` stands where `n` stood, and the history says so. -/
def moveNode (s : Kernel) (cap : Cap) (n d p q : NodeRef) : Kernel :=
  ((s.spliceIn cap d n q).record (.moved n d)).spliceOut n p d

@[simp] theorem nexts_record {e : CapEvent} : (s.record e).nexts = s.nexts := rfl
@[simp] theorem prevs_record {e : CapEvent} : (s.record e).prevs = s.prevs := rfl
@[simp] theorem caps_record {e : CapEvent} : (s.record e).caps = s.caps := rfl
@[simp] theorem live_record {e : CapEvent} : (s.record e).Live m ↔ s.Live m := Iff.rfl

@[simp] theorem procs_moveNode : (s.moveNode cap n d p q).procs = s.procs := rfl
@[simp] theorem schedule_moveNode : (s.moveNode cap n d p q).schedule = s.schedule := rfl
@[simp] theorem receivers_moveNode : (s.moveNode cap n d p q).receivers = s.receivers := rfl
@[simp] theorem history_moveNode :
    (s.moveNode cap n d p q).history = .moved n d :: s.history := rfl

@[simp] theorem caps_moveNode : (s.moveNode cap n d p q).caps = Function.update s.caps d cap := by
  simp [moveNode]

/-- One for another. -/
theorem live_moveNode (hq : s.Live q) (hdn : d ≠ n) :
    (s.moveNode cap n d p q).Live m ↔ m = d ∨ m ≠ n ∧ s.Live m := by
  have hd : ((s.spliceIn cap d n q).record (.moved n d)).Live d :=
    live_record.mpr ((live_spliceIn hq).mpr (Or.inl rfl))
  rw [moveNode, live_spliceOut hd hdn, live_record, live_spliceIn hq]
  constructor
  · rintro ⟨hm, rfl | hl⟩
    · exact Or.inl rfl
    · exact Or.inr ⟨hm, hl⟩
  · rintro (rfl | ⟨hm, hl⟩)
    · exact ⟨hdn, Or.inl rfl⟩
    · exact ⟨hm, Or.inr hl⟩

/-- On the ring, `d` takes the place of `n`. -/
theorem Lists.move (h : s.Lists rings) (hd : ¬ s.Live d) (hk : n ∈ rings k)
    (hns : n ≠ .sentinel k) (hp : Ring.Linked s.nexts s.prevs p n)
    (hq : Ring.Linked s.nexts s.prevs n q) (hqn : q ≠ n) :
    (s.moveNode cap n d p q).Lists
      (Function.update rings k ((Ring.insertAfter n d (rings k)).erase n)) := by
  have hdn : d ≠ n := fun e => hd (e ▸ h.live_iff.mpr ⟨k, hk⟩)
  have hpn : p ≠ n := by
    rintro rfl
    exact hqn (Option.some.inj (hq.1.symm.trans hp.1))
  have hpd : p ≠ d := by
    obtain ⟨p', hp', hl⟩ := (h.ring k).exists_prev hk
    obtain rfl : p' = p := Option.some.inj (hl.2.symm.trans hp.2)
    exact fun e => hd (e ▸ h.live_iff.mpr ⟨k, hp'⟩)
  have hin : ((s.spliceIn cap d n q).record (.moved n d)).Lists _ := h.insert hd hk hq
  have hp' : Ring.Linked (s.spliceIn cap d n q).nexts (s.spliceIn cap d n q).prevs p n :=
    ⟨by rw [nexts_spliceIn, Function.update_of_ne hpn, Function.update_of_ne hpd, hp.1],
     by rw [prevs_spliceIn, Function.update_of_ne hdn.symm, Function.update_of_ne hqn.symm, hp.2]⟩
  have hd' : Ring.Linked (s.spliceIn cap d n q).nexts (s.spliceIn cap d n q).prevs n d :=
    ⟨by rw [nexts_spliceIn, Function.update_self], by rw [prevs_spliceIn, Function.update_self]⟩
  have hmem : n ∈ Function.update rings k (Ring.insertAfter n d (rings k)) k := by
    rw [Function.update_self]
    exact (Ring.mem_insertAfter hk).mpr (Or.inr hk)
  have hout := hin.delete hmem hns hp' hd'
  rwa [Function.update_self, Function.update_idem] at hout

end Kernel

variable {d : NodeRef}

/-- A move is an insertion behind the old node and the deletion of that. -/
theorem capNodeMove_run (hd : s.prevs d = none) (hp : Ring.Linked s.nexts s.prevs p n)
    (hq : Ring.Linked s.nexts s.prevs n q) (hqn : q ≠ n) :
    (capNodeMove cfg cap n d).run s = .ok (true, s.moveNode cap n d p q) := by
  have hdn : d ≠ n := by
    rintro rfl
    exact Option.some_ne_none _ (hp.2.symm.trans hd)
  have hn : s.prevs n ≠ none := by rw [hp.2]; exact Option.some_ne_none _
  have hinsert : (capNodeInsert cfg cap d n).run s = .ok (true, s.spliceIn cap d n q) :=
    capNodeInsert_run hd hn hq.1 hq.2
  have hdelete : (capNodeDelete cfg n).run ((s.spliceIn cap d n q).record (.moved n d)) =
      .ok (true, s.moveNode cap n d p q) := by
    apply capNodeDelete_run
    · change (s.spliceIn cap d n q).prevs n = some p
      rw [Kernel.prevs_spliceIn, Function.update_of_ne hdn.symm, Function.update_of_ne hqn.symm,
        hp.2]
    · change (s.spliceIn cap d n q).nexts n = some d
      rw [Kernel.nexts_spliceIn, Function.update_self]
    · change (s.spliceIn cap d n q).prevs d = some n
      rw [Kernel.prevs_spliceIn, Function.update_self]
    · exact hdn
  have hrecord : (modify fun s : Kernel => s.record (.moved n d) : KernelM Unit).run
      (s.spliceIn cap d n q) = .ok ((), (s.spliceIn cap d n q).record (.moved n d)) := rfl
  rw [capNodeMove, run_bind_ok hinsert]
  exact (run_bind_ok hrecord _).trans hdelete

end SepKernel
