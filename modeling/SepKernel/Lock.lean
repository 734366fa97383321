import Mathlib.Algebra.Group.Nat.Defs
import Mathlib.Data.Fintype.Card
import SepKernel.Lib.FairLock
import SepKernel.Lib.Interleaving

/-!
# `inc/lock.h`, one access at a time

The ticket lock that guards the schedule, the receivers and the console. The fetch-and-add of
`lock_acquire`, every turn of its loop and the load and the store of `lock_release` are steps of
their own, and the harts take turns in any order. Nothing in the code keeps a hart from acquiring a
lock that it has, and here it may; it then waits for ever.

The counters are 32 bits wide and wrap. Behind them stands a fair lock: the tickets are the places
in its queue, counted from the hart that was served first, and two places that are waited for at
the same time differ by less than the number of harts.
-/

namespace SepKernel

open Interleaving
open Transition (Reachable restrict)

/-! ## Where a hart stands -/

/-- A `volatile int`. It wraps; the comparison of two counters is for equality, so this does no harm
    while there are fewer harts than values. -/
abbrev Counter := BitVec 32

/-- The members of a `lock_t`. -/
inductive LockCell where
  | nowServing | nextTicket
deriving DecidableEq

/-- The next access of a hart, with the local variable of the function it is in. A hart in its own
    code is `idle`. -/
inductive LockCtl where
  | idle
  | acquireTicket
  /-- At the condition of the loop. -/
  | acquireSpin (ticket : Counter)
  | releaseLoad
  | releaseStore (serving : Counter)
deriving DecidableEq

/-- `inside` notes that the hart is past the end of a `lock_acquire` and not past the store of the
    next `lock_release`. -/
structure LockHart where
  ctl : LockCtl
  inside : Bool
deriving DecidableEq

/-! ## The accesses -/

/-- The accesses of `lock_acquire` and `lock_release`. Taking a ticket is one atomic addition; the
    release is a load and a store, which nobody else interferes with as long as only the holder
    releases. -/
def LockHart.access : LockHart → Option (Access LockCell Counter LockHart)
  | ⟨.idle, _⟩ => none
  | ⟨.acquireTicket, inside⟩ => some (.modify .nextTicket (· + 1) fun ticket =>
      ⟨.acquireSpin ticket, inside⟩)
  | ⟨.acquireSpin ticket, inside⟩ => some (.load .nowServing fun serving =>
      if ticket ≠ serving then ⟨.acquireSpin ticket, inside⟩ else ⟨.idle, true⟩)
  | ⟨.releaseLoad, inside⟩ => some (.load .nowServing fun serving =>
      ⟨.releaseStore serving, inside⟩)
  | ⟨.releaseStore serving, _⟩ => some (.store .nowServing (serving + 1) ⟨.idle, false⟩)

/-- The two functions of `lock.h`. A hart that has called one goes through it to its end. -/
inductive LockOp where
  | acquire | release
deriving DecidableEq

/-- A hart calls either function whenever it is in neither. Nothing keeps it from releasing a lock
    that it does not hold. -/
def LockHart.enter : LockHart → LockOp → Option LockHart
  | ⟨.idle, inside⟩, .acquire => some ⟨.acquireTicket, inside⟩
  | ⟨.idle, inside⟩, .release => some ⟨.releaseLoad, inside⟩
  | _, _ => none

/-- The lock as a machine of its two counters and any harts: which calls a hart may begin, and what
    it does next in one. -/
def lockMachine : Machine LockCell Counter LockHart LockOp := ⟨LockHart.enter, LockHart.access⟩

/-- The lock and where each hart stands. `asked` has the harts in the order of their fetch-and-adds
    and `entered` in the order in which they ended their `lock_acquire`. -/
structure LockState (ι : Type) where
  harts : State ι LockCell Counter LockHart
  asked : List ι
  entered : List ι

namespace LockState

variable {ι : Type}

/-- The ticket that may enter. -/
def nowServing (s : LockState ι) : Counter := s.harts.mem .nowServing

/-- The ticket that is given out next. -/
def nextTicket (s : LockState ι) : Counter := s.harts.mem .nextTicket

/-- Where the hart is in the lock's functions, and whether it is inside. -/
def hart (s : LockState ι) (h : ι) : LockHart := s.harts.ctl h

/-- The step is a fetch-and-add: with it the hart takes its place in the queue, and the history
    notes it. -/
def asks (s : LockState ι) : Label ι LockOp → Option ι
  | .enter _ _ => none
  | .access h => match (s.hart h).ctl with
    | .acquireTicket => some h
    | _ => none

/-- The step is the last of a `lock_acquire`, the turn of the loop that finds the ticket served. -/
def enters (s : LockState ι) : Label ι LockOp → Option ι
  | .enter _ _ => none
  | .access h => match (s.hart h).ctl with
    | .acquireSpin ticket => if ticket ≠ s.nowServing then none else some h
    | _ => none

/-- `INIT_LOCK`, both counters zero, and no hart has called anything. -/
def Start (s : LockState ι) : Prop :=
  s.nowServing = 0 ∧ s.nextTicket = 0 ∧ (∀ h, s.hart h = ⟨.idle, false⟩) ∧
    s.asked = [] ∧ s.entered = []

/-- A hart releases only after it acquired. The code does not check it; every caller in the kernel
    keeps to it. -/
def Usage (s : LockState ι) : Label ι LockOp → Prop
  | .enter h .release => (s.hart h).inside = true
  | _ => True

instance (s : LockState ι) : ∀ l, Decidable (s.Usage l)
  | .enter h .release => inferInstanceAs (Decidable ((s.hart h).inside = true))
  | .enter _ .acquire => inferInstanceAs (Decidable True)
  | .access _ => inferInstanceAs (Decidable True)

variable [DecidableEq ι]

/-- An access, and what it adds to the two histories: who has asked, and who has entered. -/
def step (l : Label ι LockOp) (s : LockState ι) : Option (LockState ι) :=
  (lockMachine.step l s.harts).map fun harts =>
    ⟨harts, s.asked ++ (s.asks l).toList, s.entered ++ (s.enters l).toList⟩

/-- The steps that the harts can take. -/
def Step (s : LockState ι) (l : Label ι LockOp) (s' : LockState ι) : Prop := step l s = some s'

/-- Hart `h` goes on at `x`. -/
def moved (s : LockState ι) (h : ι) (x : LockHart) : LockState ι :=
  { s with harts := s.harts.setCtl h x }

/-- The store of a release. -/
def setNowServing (s : LockState ι) (v : Counter) : LockState ι :=
  { s with harts := s.harts.setMem .nowServing v }

/-- The addition of an acquisition. -/
def setNextTicket (s : LockState ι) (v : Counter) : LockState ι :=
  { s with harts := s.harts.setMem .nextTicket v }

variable {s s' : LockState ι} {h k : ι} {x : LockHart} {v : Counter} {l : Label ι LockOp}
  {inside : Bool} {ticket serving : Counter}

@[simp] theorem hart_moved : (s.moved h x).hart = Function.update s.hart h x := rfl
@[simp] theorem nowServing_moved : (s.moved h x).nowServing = s.nowServing := rfl
@[simp] theorem nextTicket_moved : (s.moved h x).nextTicket = s.nextTicket := rfl

omit [DecidableEq ι] in
@[simp] theorem nowServing_setNowServing : (s.setNowServing v).nowServing = v :=
  State.mem_setMem_same

omit [DecidableEq ι] in
@[simp] theorem nextTicket_setNowServing : (s.setNowServing v).nextTicket = s.nextTicket :=
  State.mem_setMem_of_ne (by decide)

omit [DecidableEq ι] in
@[simp] theorem nowServing_setNextTicket : (s.setNextTicket v).nowServing = s.nowServing :=
  State.mem_setMem_of_ne (by decide)

omit [DecidableEq ι] in
@[simp] theorem nextTicket_setNextTicket : (s.setNextTicket v).nextTicket = v :=
  State.mem_setMem_same

/-- Everything a step can do, by the access it makes. The invariants are proved over these cases and
    do not look at the functions again. -/
inductive Effect (s : LockState ι) : Label ι LockOp → LockState ι → Prop where
  | acquire {h : ι} {inside : Bool} (hc : s.hart h = ⟨.idle, inside⟩) :
      Effect s (.enter h .acquire) (s.moved h ⟨.acquireTicket, inside⟩)
  | release {h : ι} {inside : Bool} (hc : s.hart h = ⟨.idle, inside⟩) :
      Effect s (.enter h .release) (s.moved h ⟨.releaseLoad, inside⟩)
  | ticket {h : ι} {inside : Bool} (hc : s.hart h = ⟨.acquireTicket, inside⟩) :
      Effect s (.access h) { (s.setNextTicket (s.nextTicket + 1)).moved h
        ⟨.acquireSpin s.nextTicket, inside⟩ with asked := s.asked ++ [h] }
  | spin {h : ι} {inside : Bool} {ticket : Counter}
      (hc : s.hart h = ⟨.acquireSpin ticket, inside⟩) (hne : ticket ≠ s.nowServing) :
      Effect s (.access h) (s.moved h ⟨.acquireSpin ticket, inside⟩)
  | served {h : ι} {inside : Bool} (hc : s.hart h = ⟨.acquireSpin s.nowServing, inside⟩) :
      Effect s (.access h) { s.moved h ⟨.idle, true⟩ with entered := s.entered ++ [h] }
  | load {h : ι} {inside : Bool} (hc : s.hart h = ⟨.releaseLoad, inside⟩) :
      Effect s (.access h) (s.moved h ⟨.releaseStore s.nowServing, inside⟩)
  | store {h : ι} {inside : Bool} {serving : Counter}
      (hc : s.hart h = ⟨.releaseStore serving, inside⟩) :
      Effect s (.access h) ((s.setNowServing (serving + 1)).moved h ⟨.idle, false⟩)

/-- The access determines the state after it. -/
theorem access_inv {a : Access LockCell Counter LockHart} (hl : s.Step (.access h) s')
    (ha : (s.hart h).access = some a) :
    s' = ⟨s.harts.perform h a, s.asked ++ (s.asks (.access h)).toList,
      s.entered ++ (s.enters (.access h)).toList⟩ := by
  rw [Step, step, Machine.step_access ha] at hl
  exact (Option.some.inj hl).symm

/-- All that a step can do to the counters and the queue. -/
theorem step_effect (hl : s.Step l s') : Effect s l s' := by
  cases l with
  | enter h op =>
    obtain ⟨harts, hstep, rfl⟩ := Option.map_eq_some_iff.mp hl
    obtain ⟨x, hx, rfl⟩ := Option.map_eq_some_iff.mp hstep
    have henter : (s.hart h).enter op = some x := hx
    simp only [asks, enters, Option.toList_none, List.append_nil]
    cases hc : s.hart h with
    | mk ctl inside =>
      rw [hc] at henter
      cases ctl with
      | idle =>
        cases op with
        | acquire =>
          cases henter
          exact .acquire hc
        | release =>
          cases henter
          exact .release hc
      | _ => cases henter
  | access h =>
    cases hc : s.hart h with
    | mk ctl inside =>
      cases ctl with
      | idle =>
        obtain ⟨harts, hstep, rfl⟩ := Option.map_eq_some_iff.mp hl
        obtain ⟨a, ha, rfl⟩ := Option.map_eq_some_iff.mp hstep
        have hidle : (s.hart h).access = some a := ha
        rw [hc] at hidle
        cases hidle
      | acquireTicket =>
        rw [access_inv hl (by rw [hc]; rfl)]
        simp only [asks, enters, hc, Option.toList_none, List.append_nil]
        exact .ticket hc
      | acquireSpin ticket =>
        rw [access_inv hl (by rw [hc]; rfl), State.perform_load]
        simp only [asks, enters, hc, Option.toList_none, List.append_nil]
        by_cases hne : ticket ≠ s.nowServing
        · rw [if_pos hne, if_pos (show ticket ≠ s.harts.mem .nowServing from hne)]
          simp only [Option.toList_none, List.append_nil]
          exact .spin hc hne
        · obtain rfl := not_not.mp hne
          rw [if_neg hne, if_neg (show ¬ s.nowServing ≠ s.harts.mem .nowServing from hne)]
          exact .served hc
      | releaseLoad =>
        rw [access_inv hl (by rw [hc]; rfl), State.perform_load]
        simp only [asks, enters, hc, Option.toList_none, List.append_nil]
        exact .load hc
      | releaseStore serving =>
        rw [access_inv hl (by rw [hc]; rfl), State.perform_store]
        simp only [asks, enters, hc, Option.toList_none, List.append_nil]
        exact .store hc

end LockState

end SepKernel
