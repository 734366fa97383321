import SepKernel.Lib.Custody
import SepKernel.ProcState

/-!
# Who executes a process

The low bits of a state word say what is being done with its process: nothing, a hart executes it,
a sender writes to it, a supervisor holds it, or a supervisor is about to suspend it. Every access
of the calls respects that but one. A hart that has made its process waiting still goes through
`proc_release`; if it finds the word without the waiting bit, because a sender was quicker, its
`fetch_and_and` may come when another hart executes the process already.
-/

namespace SepKernel

open Interleaving Custody
open Transition (Reachable restrict exec guarded steps_getD_exec restrict_of_guarded)

variable {s : HartsState} {g : HartState} {p q : Nat} {v x t : Word} {r : Option Role} {h : Nat}

/-! ## What is said of every run -/

/-- The hart has taken the process up and not let go of it yet. -/
def Executes (s : HartsState) (h p : Nat) : Prop := (s.ctl h).executes p = true

/-- From a `proc_supervisor_acquire` that has succeeded to the release or the resumption. -/
def HoldsSupervisee (s : HartsState) (h p : Nat) : Prop :=
  match (s.ctl h).ctl with
  | .resumeStore _ q => q = p
  | .supervisorRelease _ q => q = p
  | .supervisorStore _ q => q = p
  | .hung _ q => q = p
  | _ => False

/-- A process executes on at most one hart, and on none while a supervisor holds it. -/
def ExecutesOnce (s : HartsState) : Prop :=
  ∀ p, (∀ h h', Executes s h p → Executes s h' p → h = h') ∧
    ∀ h h', Executes s h p → ¬ HoldsSupervisee s h' p

/-- `x & 0x7` is that of a process with which nothing is being done. -/
def Free (x : Word) : Prop :=
  x &&& 0x7 = procStateReady ∨ x &&& 0x7 = procStateWaiting ∨ x &&& 0x7 = procStateSuspended

instance (x : Word) : Decidable (Free x) := inferInstanceAs (Decidable (_ ∨ _))

/-- A hart whose `proc_receiver_wait` has succeeded, at the `fetch_and_and` of `proc_release`. -/
def HartCtl.lateRelease : HartCtl → Option Nat
  | .releaseAnd p true => some p
  | _ => none

/-- Such a hart goes on only where nothing is being done with the process. -/
def Clean (s : HartsState) : Label Nat HartOp → Prop
  | .enter _ _ => True
  | .access h => ∀ p ∈ (s.ctl h).ctl.lateRelease, Free (s.mem p)

instance (s : HartsState) : ∀ l, Decidable (Clean s l)
  | .enter _ _ => inferInstanceAs (Decidable True)
  | .access h => inferInstanceAs (Decidable (∀ p ∈ (s.ctl h).ctl.lateRelease, Free (s.mem p)))

/-! ## The low bits -/

/-- A suspension sets one bit of the state. -/
theorem or_tag (x : Word) : (x ||| procStateSuspended) &&& 0x7 = x &&& 0x7 ||| procStateSuspended :=
  BitVec.and_or_distrib_right

/-- A mask of one bit leaves all of it or nothing. -/
theorem and_bit (x : Word) (k : Nat) :
    x &&& BitVec.twoPow 64 k = 0 ∨ x &&& BitVec.twoPow 64 k = BitVec.twoPow 64 k := by
  rw [BitVec.and_twoPow]
  by_cases h : x.getLsbD k
  · exact Or.inr (if_pos h)
  · exact Or.inl (if_neg h)

theorem and_waiting (x : Word) : x &&& procStateWaiting = x &&& 0x7 &&& procStateWaiting := by
  rw [BitVec.and_assoc]
  rfl

theorem and_suspended (x : Word) :
    x &&& procStateSuspended = x &&& 0x7 &&& procStateSuspended := by
  rw [BitVec.and_assoc]
  rfl

theorem waitingOn_tag (ch : Word) : waitingOn ch &&& 0x7 = procStateWaiting :=
  waitingOn_and (by decide)

theorem receivingOn_tag (ch : Word) : receivingOn ch &&& 0x7 = procStateReceiving :=
  receivingOn_and (by decide)

/-! ## Roles -/

/-- What a hart does with a process. -/
inductive Role where
  | exec | send | hold | suspend
deriving DecidableEq

/-- The processes a hart has to do with, by where it stands. -/
def HartCtl.claims : HartCtl → Nat → Role → Prop
  | .schedule, _, _ => False
  | .acquire _, _, _ => False
  | .user p, c, r => c = p ∧ r = .exec
  | .receiverWait p _, c, r => c = p ∧ r = .exec
  | .release p waited, c, r => c = p ∧ r = .exec ∧ waited = false
  | .releaseAnd p waited, c, r => c = p ∧ r = .exec ∧ waited = false
  | .senderAcquire p _ _ _, c, r => c = p ∧ r = .exec
  | .clientWait p q _, c, r => (c = p ∧ r = .exec) ∨ (c = q ∧ r = .send)
  | .senderRelease p q next, c, r =>
    (c = p ∧ r = .exec ∧ next ≠ .yield true) ∨ (c = q ∧ r = .send)
  | .suspend p _, c, r => c = p ∧ r = .exec
  | .suspendStore p q, c, r => (c = p ∧ r = .exec) ∨ (c = q ∧ r = .suspend)
  | .supervisorAcquire p _ _, c, r => c = p ∧ r = .exec
  | .resumeStore p q, c, r => (c = p ∧ r = .exec) ∨ (c = q ∧ r = .hold)
  | .supervisorRelease p q, c, r => (c = p ∧ r = .exec) ∨ (c = q ∧ r = .hold)
  | .supervisorStore p q, c, r => (c = p ∧ r = .exec) ∨ (c = q ∧ r = .hold)
  | .hung p q, c, r => (c = p ∧ r = .exec) ∨ (c = q ∧ r = .hold)

/-- The place of a hart says what it claims; the note does not enter. -/
def HartState.claims (g : HartState) : Nat → Role → Prop := g.ctl.claims

/-- The low bits of a word, by what is done with the process. -/
def Role.tags : Option Role → List Word
  | none => [procStateReady, procStateWaiting, procStateSuspended]
  | some .exec => [procStateRunning, procStateRunningThenSuspend]
  | some .send => [procStateReceiving, procStateReceivingThenSuspend]
  | some .hold => [procStateSuspendedBusy]
  | some .suspend => [procStateSuspendedBusy]

/-- The state word is one that allows the role. -/
def Role.Fits (r : Option Role) (x : Word) : Prop := x &&& 0x7 ∈ tags r

namespace Role

/-- The process with which nothing is done is in no role. -/
theorem eq_none_of_fits (h : Fits r x) (hx : Free x) : r = none := by
  cases r with
  | none => rfl
  | some r =>
    rcases hx with hx | hx | hx
    all_goals
      rw [Fits, hx] at h
      cases r <;> exact absurd h (by decide)

/-- The mask of the two releases frees any word. -/
theorem fits_and (x : Word) : Fits none (x &&& procStateSuspended) := by
  have htag : (x &&& procStateSuspended) &&& 0x7 = x &&& procStateSuspended := by
    rw [BitVec.and_assoc]
    rfl
  have hcases : x &&& procStateSuspended = 0 ∨ x &&& procStateSuspended = procStateSuspended :=
    and_bit x 2
  rw [Fits, htag]
  rcases hcases with h | h <;> rw [h] <;> decide

theorem and_waiting_of_exec (h : Fits (some .exec) x) : x &&& procStateWaiting = 0 := by
  rw [and_waiting]
  rw [Fits] at h
  generalize x &&& 0x7 = t at h
  simp only [tags, List.mem_cons, List.not_mem_nil, or_false] at h
  rcases h with rfl | rfl <;> rfl

/-- A suspension changes the role of no word but a waiting one. -/
theorem fits_or (hx : x &&& 0x7 ≠ procStateWaiting) (h : Fits r x) :
    Fits r (x ||| procStateSuspended) := by
  rw [Fits, or_tag]
  rw [Fits] at h
  generalize x &&& 0x7 = t at h hx
  rcases r with _ | _ | _ | _ | _
  all_goals
    simp only [tags, List.mem_cons, List.not_mem_nil, or_false] at h
    revert hx
    rcases h with rfl | rfl | rfl <;> decide

/-- The low bits of the state say whether it allows a role. -/
theorem fits_of_tag (hx : x &&& 0x7 = t) (ht : t ∈ tags r) : Fits r x := by
  rw [Fits, hx]
  exact ht

end Role

/-! ## The accesses are lawful -/

/-- What is left of two claims when the second is given up. -/
theorem exec_iff_given {c : Nat} {r x : Role} (hx : x ≠ .exec) : c = p ∧ r = .exec ↔
    ((c = p ∧ r = .exec) ∨ (c = q ∧ r = x)) ∧ ¬ (c = q ∧ r = x) := by
  constructor
  · rintro ⟨rfl, rfl⟩
    exact ⟨Or.inl ⟨rfl, rfl⟩, fun h => hx h.2.symm⟩
  · rintro ⟨h, hnot⟩
    exact h.resolve_right hnot

/-- After an acquisition the hart has a sender's claim on top of its own. -/
theorem claims_acquired (p q : Nat) (ch : Word) (call : Ipc) (c : Nat) (r : Role) :
    (call.acquired p q ch).claims c r ↔ (c = p ∧ r = .exec) ∨ (c = q ∧ r = .send) := by
  cases call <;> simp [Ipc.acquired, HartCtl.claims]

/-- After a failed one only its own. -/
theorem claims_missed (p : Nat) (ch : Word) (call : Ipc) (c : Nat) (r : Role) :
    (call.missed p ch).claims c r ↔ c = p ∧ r = .exec := by
  cases call <;> rfl

theorem claims_next (p : Nat) (next : AfterSend) (c : Nat) (r : Role) :
    (next.ctl p).claims c r ↔ c = p ∧ r = .exec ∧ next ≠ .yield true := by
  cases next with
  | ret => simp [AfterSend.ctl, HartCtl.claims]
  | wait channel => simp [AfterSend.ctl, HartCtl.claims]
  | yield waited => simp [AfterSend.ctl, HartCtl.claims]

/-- Each access keeps to the roles, unless it is a release that comes late. -/
theorem lawful_of_clean {a : Access Nat Word HartState} (ha : g.access = some a)
    (hclean : ∀ p ∈ g.ctl.lateRelease, Free v) : Lawful HartState.claims Role.Fits g a v := by
  obtain ⟨c, e⟩ := g
  cases c with
  | schedule => cases ha
  | user p => cases ha
  | hung p q => cases ha
  | acquire q =>
    cases ha
    refine .cas (.take .exec (fun c r => ?_) (fun o ho => ?_) ?_) fun c r => Iff.rfl
    · show c = q ∧ r = .exec ↔ False ∨ c = q ∧ r = .exec
      rw [false_or]
    · exact Role.eq_none_of_fits ho (show Free procStateReady by decide)
    · exact Role.fits_of_tag (x := procStateRunning) rfl (by decide)
  | receiverWait p channel =>
    cases ha
    refine .cas (.give .exec ⟨rfl, rfl⟩ (fun c r => ?_) fun _ => ?_) fun c r => ?_
    · show c = p ∧ r = .exec ∧ true = false ↔ (c = p ∧ r = .exec) ∧ ¬ (c = p ∧ r = .exec)
      simp
    · exact Role.fits_of_tag (waitingOn_tag channel) (by decide)
    · show c = p ∧ r = .exec ∧ false = false ↔ c = p ∧ r = .exec
      simp
  | release p waited =>
    cases ha
    cases waited with
    | true =>
      refine .keep (fun c r => ?_) fun o ho _ => ho
      show (if v &&& procStateWaiting = 0 then _ else _ : HartState).claims c r ↔ _
      split <;> simp [HartState.claims, HartState.goes, HartCtl.claims]
    | false =>
      by_cases hv : v &&& procStateWaiting = 0
      · refine .keep (fun c r => ?_) fun o ho _ => ho
        show (if v &&& procStateWaiting = 0 then _ else _ : HartState).claims c r ↔ _
        rw [if_pos hv]
        exact Iff.rfl
      · -- The hart executes the process, so the word is no waiting one.
        intro o ho hmine
        obtain rfl := hmine .exec ⟨rfl, rfl, rfl⟩
        exact absurd (Role.and_waiting_of_exec ho) hv
  | releaseAnd p waited =>
    cases ha
    cases waited with
    | false =>
      refine .give .exec ⟨rfl, rfl, rfl⟩ (fun c r => ?_) fun ho => ?_
      · show False ↔ (c = p ∧ r = .exec ∧ false = false) ∧ ¬ (c = p ∧ r = .exec)
        simp
      · exact Role.fits_and v
    | true =>
      refine .keep (fun c r => ?_) fun o ho _ => ?_
      · show False ↔ (c = p ∧ r = .exec ∧ true = false)
        simp
      · obtain rfl := Role.eq_none_of_fits ho (hclean p rfl)
        exact Role.fits_and v
  | senderAcquire p q channel call =>
    cases ha
    refine .cas (.take .send (fun c r => ?_) (fun o ho => ?_) ?_) fun c r => ?_
    · exact claims_acquired p q channel call c r
    · exact Role.eq_none_of_fits ho (Or.inr (Or.inl (waitingOn_tag channel)))
    · exact Role.fits_of_tag (receivingOn_tag channel) (by decide)
    · exact claims_missed p channel call c r
  | clientWait p q channel =>
    cases ha
    refine .cas (.give .exec (Or.inl ⟨rfl, rfl⟩) (fun c r => ?_) fun _ => ?_) fun c r => ?_
    · show (c = p ∧ r = .exec ∧ AfterSend.yield true ≠ .yield true) ∨ (c = q ∧ r = .send) ↔
        ((c = p ∧ r = .exec) ∨ (c = q ∧ r = .send)) ∧ ¬ (c = p ∧ r = .exec)
      grind
    · exact Role.fits_of_tag (waitingOn_tag channel) (by decide)
    · show (c = p ∧ r = .exec ∧ AfterSend.yield false ≠ .yield true) ∨ (c = q ∧ r = .send) ↔
        (c = p ∧ r = .exec) ∨ (c = q ∧ r = .send)
      simp
  | senderRelease p q next =>
    cases ha
    refine .give .send (Or.inr ⟨rfl, rfl⟩) (fun c r => ?_) fun ho => ?_
    · show (next.ctl p).claims c r ↔ ((c = p ∧ r = .exec ∧ next ≠ .yield true) ∨
        (c = q ∧ r = .send)) ∧ ¬ (c = q ∧ r = .send)
      rw [claims_next]
      grind
    · exact Role.fits_and v
  | suspend p q =>
    cases ha
    by_cases h4 : v &&& procStateSuspended ≠ 0
    · refine .keep (fun c r => ?_) fun o ho _ => Role.fits_or (fun hw => h4 ?_) ho
      · show (if v &&& procStateSuspended ≠ 0 then _ else _ : HartState).claims c r ↔ _
        rw [if_pos h4]
        exact Iff.rfl
      · rw [and_suspended, hw]
        rfl
    · have hnext : ∀ a b : HartState, (if v &&& procStateSuspended ≠ 0 then a else b) = b :=
        fun _ _ => if_neg h4
      by_cases hw : v &&& 0x7 = procStateWaiting
      · refine .take .suspend (fun c r => ?_) (fun o ho => ?_) ?_
        · show (if v &&& procStateSuspended ≠ 0 then _ else if v &&& 0x7 = procStateWaiting then _
            else _ : HartState).claims c r ↔ _
          rw [hnext, if_pos hw]
          exact Iff.rfl
        · exact Role.eq_none_of_fits ho (Or.inr (Or.inl hw))
        · show Role.Fits _ (v ||| procStateSuspended)
          rw [Role.Fits, or_tag, hw]
          decide
      · refine .keep (fun c r => ?_) fun o ho _ => Role.fits_or hw ho
        show (if v &&& procStateSuspended ≠ 0 then _ else if v &&& 0x7 = procStateWaiting then _
          else _ : HartState).claims c r ↔ _
        rw [hnext, if_neg hw]
        exact Iff.rfl
  | suspendStore p q =>
    cases ha
    exact .give .suspend (Or.inr ⟨rfl, rfl⟩) (fun c r => exec_iff_given nofun) fun _ =>
      Role.fits_of_tag (x := procStateSuspended) rfl (by decide)
  | supervisorAcquire p q resume =>
    cases ha
    refine .cas (.take .hold (fun c r => ?_) (fun o ho => ?_) ?_) fun c r => Iff.rfl
    · cases resume <;> exact Iff.rfl
    · exact Role.eq_none_of_fits ho (show Free procStateSuspended by decide)
    · exact Role.fits_of_tag (x := procStateSuspendedBusy) rfl (by decide)
  | resumeStore p q =>
    cases ha
    exact .give .hold (Or.inr ⟨rfl, rfl⟩) (fun c r => exec_iff_given nofun) fun _ =>
      Role.fits_of_tag (x := procStateReady) rfl (by decide)
  | supervisorRelease p q =>
    cases ha
    refine .keep (fun c r => ?_) fun o ho _ => ho
    show (if v = procStateSuspendedBusy then _ else _ : HartState).claims c r ↔ _
    split <;> exact Iff.rfl
  | supervisorStore p q =>
    cases ha
    exact .give .hold (Or.inr ⟨rfl, rfl⟩) (fun c r => exec_iff_given nofun) fun _ =>
      Role.fits_of_tag (x := procStateSuspended) rfl (by decide)

/-! ## What a hart executes -/

/-- The note of what a hart executes agrees with where it stands. -/
def HartState.Tidy (g : HartState) : Prop := ∀ p, g.executes p = true ↔ g.claims p .exec

namespace HartState.Tidy

theorem goes {c : HartCtl} (hg : g.Tidy) (hc : ∀ p, c.claims p .exec ↔ g.claims p .exec) :
    (g.goes c).Tidy := fun p => (hg p).trans (hc p).symm

theorem begins {c : HartCtl} (hg : g.Tidy) (hnone : ∀ p, ¬ g.claims p .exec)
    (hc : ∀ p, c.claims p .exec ↔ p = q) : (g.begins q c).Tidy := by
  intro p
  show Function.update g.executes q true p = true ↔ c.claims p .exec
  rw [hc p]
  by_cases hp : p = q
  · rw [hp, Function.update_self]
    exact iff_of_true rfl rfl
  · rw [Function.update_of_ne hp, hg p]
    exact iff_of_false (hnone p) hp

theorem ends {c : HartCtl} (hg : g.Tidy) (hone : ∀ p, g.claims p .exec → p = q)
    (hc : ∀ p, ¬ c.claims p .exec) : (g.ends q c).Tidy := by
  intro p
  show Function.update g.executes q false p = true ↔ c.claims p .exec
  by_cases hp : p = q
  · rw [hp, Function.update_self]
    exact iff_of_false Bool.false_ne_true (hc q)
  · rw [Function.update_of_ne hp, hg p]
    exact iff_of_false (fun h => hp (hone p h)) (hc p)

/-- A hart's note is right when it begins a function. -/
theorem enter {g' : HartState} {op : HartOp} (hg : g.Tidy) (h : g.enter op = some g') :
    g'.Tidy := by
  obtain ⟨c, e⟩ := g
  cases c <;> cases op <;> cases h
  all_goals exact hg.goes fun p => by simp [HartState.claims, HartCtl.claims]

/-- A hart that executes a process finds no waiting bit at the load of `proc_release`. -/
theorem access {a : Access Nat Word HartState} (hg : g.Tidy) (ha : g.access = some a)
    (hv : ∀ p, g.ctl = .release p false → v &&& procStateWaiting = 0) : (a.next v).Tidy := by
  obtain ⟨c, e⟩ := g
  cases c with
  | schedule => cases ha
  | user p => cases ha
  | hung p q => cases ha
  | acquire q =>
    cases ha
    -- only here does a hart begin to execute a process
    show (if v = procStateReady then _ else _ : HartState).Tidy
    split
    · exact hg.begins (fun p h => h) fun p => and_iff_left rfl
    · exact hg.goes fun p => Iff.rfl
  | receiverWait q channel =>
    cases ha
    show (if v = procStateRunning then _ else _ : HartState).Tidy
    split
    · exact hg.ends (fun p h => h.1) fun p h => by cases h.2.2
    · exact hg.goes fun p => by simp [HartState.claims, HartCtl.claims]
  | release q waited =>
    cases ha
    show (if v &&& procStateWaiting = 0 then _ else _ : HartState).Tidy
    split
    · exact hg.goes fun p => Iff.rfl
    · rename_i hw
      cases waited with
      | true => exact hg.goes fun p => by simp [HartState.claims, HartCtl.claims]
      -- the first round of the loop, by a hart that still executes the process
      | false => exact absurd (hv q rfl) hw
  | releaseAnd q waited =>
    cases ha
    exact hg.ends (fun p h => h.1) fun p h => h
  | senderAcquire q q' channel call =>
    cases ha
    show (if v = waitingOn channel then _ else _ : HartState).Tidy
    split
    -- the receiver is claimed, not executed: it is released with the message
    · refine hg.goes fun p => ?_
      rw [claims_acquired]
      simp [HartState.claims, HartCtl.claims]
    · exact hg.goes fun p => claims_missed q channel call p .exec
  | clientWait q q' channel =>
    cases ha
    show (if v = procStateRunning then _ else _ : HartState).Tidy
    split
    -- the client leaves its hart, which still claims the server
    · refine hg.ends (fun p h => ?_) fun p h => ?_
      · exact (h.resolve_right fun h => by cases h.2).1
      · exact (h.resolve_right fun h => by cases h.2).2.2 rfl
    · exact hg.goes fun p => by simp [HartState.claims, HartCtl.claims]
  | senderRelease q q' next =>
    cases ha
    refine hg.goes fun p => ?_
    rw [claims_next]
    simp [HartState.claims, HartCtl.claims]
  | suspend q q' =>
    cases ha
    show (if v &&& procStateSuspended ≠ 0 then _ else if v &&& 0x7 = procStateWaiting then _
      else _ : HartState).Tidy
    split
    · exact hg.goes fun p => Iff.rfl
    · split
      · exact hg.goes fun p => by simp [HartState.claims, HartCtl.claims]
      · exact hg.goes fun p => Iff.rfl
  | suspendStore q q' =>
    cases ha
    exact hg.goes fun p => by simp [HartState.claims, HartCtl.claims]
  | supervisorAcquire q q' resume =>
    cases ha
    show (if v = procStateSuspended then _ else _ : HartState).Tidy
    split
    · exact hg.goes fun p => by cases resume <;> simp [HartState.claims, HartCtl.claims]
    · exact hg.goes fun p => Iff.rfl
  | resumeStore q q' =>
    cases ha
    exact hg.goes fun p => by simp [HartState.claims, HartCtl.claims]
  | supervisorRelease q q' =>
    cases ha
    show (if v = procStateSuspendedBusy then _ else _ : HartState).Tidy
    split
    · exact hg.goes fun p => Iff.rfl
    · exact hg.goes fun p => Iff.rfl
  | supervisorStore q q' =>
    cases ha
    exact hg.goes fun p => by simp [HartState.claims, HartCtl.claims]

end HartState.Tidy

/-! ## Every run -/

/-- Entering a call changes no role. -/
theorem claims_enter {g' : HartState} {op : HartOp} (h : g.enter op = some g') (c : Nat)
    (r : Role) : g'.claims c r ↔ g.claims c r := by
  obtain ⟨ctl, e⟩ := g
  cases ctl <;> cases op <;> cases h <;> simp [HartState.claims, HartState.goes, HartCtl.claims]

theorem claims_hold {h : Nat} (hp : HoldsSupervisee s h p) : (s.ctl h).claims p .hold := by
  rw [HoldsSupervisee] at hp
  rw [HartState.claims]
  cases hc : (s.ctl h).ctl
  all_goals
    rw [hc] at hp
    first
      | exact False.elim hp
      | exact Or.inr ⟨hp.symm, rfl⟩

/-- A process that is being released is still executed. -/
theorem claims_release (hp : g.ctl = .release p false) : g.claims p .exec := by
  rw [HartState.claims, hp]
  exact ⟨rfl, rfl, rfl⟩

theorem cell_of_release {a : Access Nat Word HartState} (ha : g.access = some a)
    (hp : g.ctl = .release p false) : a.cell = p := by
  rw [HartState.access, HartState.op, hp] at ha
  cases ha
  rfl

theorem cell_of_lateRelease {a : Access Nat Word HartState} (ha : g.access = some a)
    (hp : p ∈ g.ctl.lateRelease) : a.cell = p := by
  obtain ⟨c, e⟩ := g
  cases c with
  | releaseAnd q waited =>
    cases ha
    cases waited with
    | true => exact Option.some.inj hp
    | false => cases hp
  | _ => cases hp

/-- To begin with claims and states agree. -/
theorem held_of_start (hs : HartsStart s) : ∃ owner, Held HartState.claims Role.Fits s owner := by
  obtain ⟨hctl, hmem⟩ := hs
  refine ⟨fun _ => none, fun a c r => ?_, fun c => ?_⟩
  · rw [hctl a]
    exact iff_of_false (fun h => h) (by simp)
  · rcases hmem c with h | h
    · rw [h]
      exact Role.fits_of_tag (x := procStateReady) rfl (by decide)
    · rw [h]
      exact Role.fits_of_tag (x := procStateSuspended) rfl (by decide)

/-- And in every clean run they do. -/
theorem held_of_clean (hs : Reachable HartsStart (restrict hartMachine.Step Clean) s) :
    ∃ owner, Held HartState.claims Role.Fits s owner := by
  refine held_of_reachable (fun s hs => held_of_start hs) (fun g op g' h => claims_enter h)
    (fun s h a hclean ha => lawful_of_clean ha fun p hp => ?_) hs
  rw [cell_of_lateRelease ha hp]
  exact hclean p hp

/-- So does every hart's note with where it is. -/
theorem tidy_of_clean (hs : Reachable HartsStart (restrict hartMachine.Step Clean) s) :
    ∀ h, (s.ctl h).Tidy := by
  refine (hs.invariant (I := fun s => Reachable HartsStart (restrict hartMachine.Step Clean) s ∧
    ∀ h, (s.ctl h).Tidy) (fun s hs => ⟨.start hs, fun h p => ?_⟩) ?_).2
  · rw [hs.1 h]
    exact iff_of_false Bool.false_ne_true fun h => h
  · intro s l s' ⟨hreach, htidy⟩ hl
    refine ⟨hreach.step hl, fun h => ?_⟩
    obtain ⟨owner, hheld⟩ := held_of_clean hreach
    rcases hartMachine.step_cases hl.1 with ⟨a, o, g, rfl, hg, rfl⟩ | ⟨a, x, rfl, hx, rfl⟩
    · by_cases ha : h = a
      · subst ha
        rw [State.ctl_setCtl_same]
        exact (htidy h).enter hg
      · rw [State.ctl_setCtl_of_ne ha]
        exact htidy h
    · by_cases ha : h = a
      · subst ha
        rw [State.ctl_perform_same]
        refine (htidy h).access hx fun p hp => ?_
        have hmine := (hheld.claims h p .exec).mp (claims_release hp)
        have hfits := hheld.fits p
        rw [hmine] at hfits
        rw [cell_of_release hx hp]
        exact Role.and_waiting_of_exec hfits
      · rw [State.ctl_perform_of_ne ha]
        exact htidy h

/-- In every run whose late releases find the process free, a process executes on at most one
    hart, and on none while a supervisor holds it. -/
theorem executes_once (hs : Reachable HartsStart (restrict hartMachine.Step Clean) s) :
    ExecutesOnce s := by
  obtain ⟨owner, hheld⟩ := held_of_clean hs
  have htidy := tidy_of_clean hs
  intro p
  constructor
  · intro h h' hp hp'
    exact (hheld.unique ((htidy h p).mp hp) ((htidy h' p).mp hp')).1
  · intro h h' hp hp'
    have hrole := (hheld.unique ((htidy h p).mp hp) (claims_hold hp')).2
    cases hrole

/-! ## A release that comes late -/

/-- Process 0 is ready, the others are suspended. -/
def hartsBoot : HartsState :=
  ⟨fun p => if p = 0 then procStateReady else procStateSuspended,
    fun _ => ⟨.schedule, fun _ => false⟩⟩

/-- All harts in the scheduler and one process ready. -/
theorem hartsBoot_start : HartsStart hartsBoot := by
  refine ⟨fun _ => rfl, fun p => ?_⟩
  show (if p = 0 then procStateReady else procStateSuspended) = procStateReady ∨ _
  split
  · exact Or.inl rfl
  · exact Or.inr (if_neg ‹_›)

/-- Hart 1 runs process 0, resumes process 1 and, once that waits on hart 2, sends to it: all
    before hart 2 has made the first access of `proc_release`. -/
def quickSend : List (Label Nat HartOp) :=
  [.enter 1 (.acquire 0), .access 1, .enter 1 (.resume 1), .access 1, .access 1,
    .enter 2 (.acquire 1), .access 2, .enter 2 (.receive 5), .access 2,
    .enter 1 (.send 1 5), .access 1, .access 1, .access 2]

/-- Hart 2 makes the second at once, and hart 3 takes the process. -/
def promptRelease : List (Label Nat HartOp) :=
  quickSend ++ [.access 2, .enter 3 (.acquire 1), .access 3]

/-- Hart 3 takes the process first, and hart 2 finds it ready again after its own second access. -/
def tardyRelease : List (Label Nat HartOp) :=
  quickSend ++ [.enter 3 (.acquire 1), .access 3, .access 2, .enter 2 (.acquire 1), .access 2]

/-- In the end two harts execute process 1. -/
theorem executes_twice : ∃ s, Reachable HartsStart hartMachine.Step s ∧ ¬ ExecutesOnce s := by
  refine ⟨(exec hartMachine.step tardyRelease hartsBoot).getD hartsBoot,
    ⟨hartsBoot, hartsBoot_start, steps_getD_exec (fun _ _ _ h => h) _ _⟩, fun h => ?_⟩
  have htwo : (2 : Nat) = 3 := (h 1).1 2 3 (by unfold Executes; decide +kernel)
    (by unfold Executes; decide +kernel)
  exact absurd htwo (by decide)

/-- Two harts take one process up, one after the other. -/
theorem executes_once_promptRelease :
    let s := (exec (guarded hartMachine.step Clean) promptRelease hartsBoot).getD hartsBoot
    Executes s 3 1 ∧ ExecutesOnce s :=
  ⟨by unfold Executes; decide +kernel, executes_once ⟨hartsBoot, hartsBoot_start,
    steps_getD_exec (restrict_of_guarded fun _ _ _ h => h) _ _⟩⟩

end SepKernel
