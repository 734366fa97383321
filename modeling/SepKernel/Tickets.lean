import SepKernel.Lock

/-!
# The ticket lock is fair

Every step of the ticket lock is a step of a fair lock, or none, in every interleaving of fewer
than 2^32 harts. So it excludes, and it serves the harts in the order of their fetch-and-adds.
-/

namespace SepKernel

open Interleaving
open Transition (Reachable Steps exec guarded restrict restrict_of_guarded steps_getD_exec)

/-! ## What the counters stand for -/

/-- What a hart in `lock_release` knows. -/
def LockHart.Knows (serving : Counter) : LockHart → Prop
  | ⟨.releaseLoad, inside⟩ => inside = true
  | ⟨.releaseStore v, inside⟩ => inside = true ∧ v = serving
  | _ => True

theorem LockHart.Knows.of_outside {v w : Counter} {x : LockHart} (h : x.Knows v)
    (hx : x.inside = false) : x.Knows w := by
  obtain ⟨ctl, inside⟩ := x
  obtain rfl : inside = false := hx
  cases ctl with
  | releaseLoad => exact h
  | releaseStore u => exact absurd h.1 Bool.false_ne_true
  | _ => trivial

namespace LockState

variable {ι : Type} {s s' : LockState ι} {f f' : FairLock.State ι} {h k : ι} {x : LockHart}
  {l : Interleaving.Label ι LockOp}

/-- A hart spins just if it waits, and its ticket is its place. -/
def Waits (f : FairLock.State ι) (h : ι) (x : LockHart) : Prop :=
  ∀ ticket, x.ctl = .acquireSpin ticket ↔ ∃ n, f.Place h n ∧ ticket = BitVec.ofNat 32 n

/-- The ticket lock as the fair lock `f`: the counters count who has left and who has asked. -/
structure Follows (s : LockState ι) (f : FairLock.State ι) : Prop where
  serving : s.nowServing = BitVec.ofNat 32 f.left.length
  next : s.nextTicket = BitVec.ofNat 32 f.asked.length
  asked : s.asked = f.asked
  entered : s.entered = f.entered
  inside : ∀ h, (s.hart h).inside = true ↔ f.holder = some h
  waits : ∀ h, Waits f h (s.hart h)
  knows : ∀ h, (s.hart h).Knows s.nowServing
  once : f.waiting.Nodup

/-- A hart that does not spin and has no place in the queue. -/
theorem Waits.of_not_place (hx : ∀ ticket, x.ctl ≠ .acquireSpin ticket)
    (hn : ∀ n, ¬ f.Place h n) : Waits f h x := fun ticket =>
  iff_of_false (hx ticket) fun ⟨n, hplace, _⟩ => hn n hplace

/-- At the start both queues are empty. -/
theorem follows_of_start (hs : s.Start) : s.Follows .start := by
  obtain ⟨hserving, hnext, hharts, hasked, hentered⟩ := hs
  refine ⟨hserving, hnext, hasked, hentered, fun h => ?_, fun h => ?_, fun h => ?_, .nil⟩
  · rw [hharts]
    exact iff_of_false Bool.false_ne_true nofun
  · rw [hharts]
    exact .of_not_place nofun fun n hn => absurd (FairLock.State.exists_place_iff.mp ⟨n, hn⟩)
      List.not_mem_nil
  · rw [hharts]
    trivial

namespace Follows

/-- A hart that has not asked, or is served, has no place in the queue. -/
theorem not_place {c : LockCtl} {inside : Bool} (hs : s.Follows f) (hc : s.hart h = ⟨c, inside⟩)
    (hbefore : ∀ ticket, c ≠ .acquireSpin ticket) (n : Nat) : ¬ f.Place h n := by
  intro hn
  have hwaits := hs.waits h
  rw [hc] at hwaits
  exact hbefore _ ((hwaits _).mpr ⟨n, hn, rfl⟩)

/-- Fewer than 2^32 harts: of two tickets in use, and the one after, no two are equal. -/
theorem served [Fintype ι] (hs : s.Follows f) (hcard : Fintype.card ι < 2 ^ 32)
    (hc : (s.hart h).ctl = .acquireSpin s.nowServing) :
    f.holder = none ∧ ∃ rest, f.waiting = h :: rest := by
  obtain ⟨n, hplace, hn⟩ := (hs.waits h _).mp hc
  have hlen : f.waiting.length ≤ Fintype.card ι := hs.once.length_le_card
  have hlt := hplace.lt
  have hle := hplace.1
  have hholder : f.entered.length ≤ f.left.length + 1 := by
    rw [FairLock.State.entered, List.length_append]
    have := Option.length_toList_le (o := f.holder)
    omega
  have hleft : f.left.length ≤ f.entered.length := by
    rw [FairLock.State.entered, List.length_append]
    exact Nat.le_add_right _ _
  have hnat : f.left.length % 2 ^ 32 = n % 2 ^ 32 := by
    rw [hs.serving] at hn
    exact congrArg BitVec.toNat hn
  obtain rfl : n = f.left.length := by omega
  exact hplace.first

variable [DecidableEq ι]

/-- One hart goes on at `x`, and the others see no change. -/
theorem of_hart (hs : s.Follows f) (hhart : s'.hart = Function.update s.hart h x)
    (hserving : s'.nowServing = BitVec.ofNat 32 f'.left.length)
    (hnext : s'.nextTicket = BitVec.ofNat 32 f'.asked.length)
    (hasked : s'.asked = f'.asked) (hentered : s'.entered = f'.entered)
    (hinside : x.inside = true ↔ f'.holder = some h) (hwaits : Waits f' h x)
    (hknows : x.Knows s'.nowServing) (honce : f'.waiting.Nodup)
    (hothers : ∀ k, k ≠ h → (f'.holder = some k ↔ f.holder = some k) ∧
      (∀ n, f'.Place k n ↔ f.Place k n) ∧ (s.hart k).Knows s'.nowServing) : s'.Follows f' := by
  refine ⟨hserving, hnext, hasked, hentered, fun k => ?_, fun k => ?_, fun k => ?_, honce⟩
  all_goals
    rw [hhart]
    by_cases hk : k = h
  · rw [hk, Function.update_self]
    exact hinside
  · rw [Function.update_of_ne hk, hs.inside, (hothers k hk).1]
  · rw [hk, Function.update_self]
    exact hwaits
  · rw [Function.update_of_ne hk]
    intro ticket
    simp only [hs.waits k ticket, (hothers k hk).2.1]
  · rw [hk, Function.update_self]
    exact hknows
  · rw [Function.update_of_ne hk]
    exact (hothers k hk).2.2

/-- A hart that neither waits nor begins to, and goes on without a write. -/
theorem moved {c c' : LockCtl} {inside : Bool} (hs : s.Follows f) (hc : s.hart h = ⟨c, inside⟩)
    (hbefore : ∀ ticket, c ≠ .acquireSpin ticket) (hafter : ∀ ticket, c' ≠ .acquireSpin ticket)
    (hknows : LockHart.Knows s.nowServing ⟨c', inside⟩) :
    (s.moved h ⟨c', inside⟩).Follows f := by
  refine hs.of_hart rfl hs.serving hs.next hs.asked hs.entered ?_ ?_ hknows hs.once
    fun k _ => ⟨Iff.rfl, fun n => Iff.rfl, hs.knows k⟩
  · have hinside := hs.inside h
    rwa [hc] at hinside
  · exact .of_not_place hafter (hs.not_place hc hbefore)

/-- A fetch-and-add: the ticket is the place behind all that have asked. -/
theorem ask {left waiting : List ι} {holder : Option ι} {inside : Bool}
    (hs : s.Follows ⟨left, holder, waiting⟩) (hc : s.hart h = ⟨.acquireTicket, inside⟩) :
    Follows { (s.setNextTicket (s.nextTicket + 1)).moved h ⟨.acquireSpin s.nextTicket, inside⟩ with
      asked := s.asked ++ [h] } ⟨left, holder, waiting ++ [h]⟩ := by
  have hnot : ∀ n, ¬ FairLock.State.Place ⟨left, holder, waiting⟩ h n := hs.not_place hc nofun
  have hserving : (s.setNextTicket (s.nextTicket + 1)).nowServing = s.nowServing :=
    nowServing_setNextTicket
  have hnext : (s.setNextTicket (s.nextTicket + 1)).nextTicket = s.nextTicket + 1 :=
    nextTicket_setNextTicket
  refine hs.of_hart rfl (hserving.trans hs.serving) ?_ ?_ hs.entered ?_ ?_ trivial ?_
    fun k hk => ⟨Iff.rfl, fun n => ?_, hserving.symm ▸ hs.knows k⟩
  · rw [FairLock.State.asked_ask, List.length_append, List.length_singleton, BitVec.ofNat_add,
      ← hs.next]
    exact hnext
  · rw [FairLock.State.asked_ask, ← hs.asked]
  · have hinside := hs.inside h
    rwa [hc] at hinside
  · intro ticket
    simp only [FairLock.State.place_ask, hnot, false_or, true_and, exists_eq_left, ← hs.next]
    exact ⟨fun he => (LockCtl.acquireSpin.inj he).symm, fun he => he ▸ rfl⟩
  · have hmem : h ∉ waiting := fun hm => by
      obtain ⟨n, hn⟩ := FairLock.State.exists_place_iff.mpr
        (show h ∈ (⟨left, holder, waiting⟩ : FairLock.State ι).waiting from hm)
      exact hnot n hn
    have honce := hs.once.concat hmem
    rwa [List.concat_eq_append] at honce
  · rw [FairLock.State.place_ask]
    exact or_iff_left fun he => hk he.1

/-- The last turn of the loop, by the first that waits. -/
theorem enter {left waiting : List ι} (hs : s.Follows ⟨left, none, h :: waiting⟩) :
    Follows { s.moved h ⟨.idle, true⟩ with entered := s.entered ++ [h] }
      ⟨left, some h, waiting⟩ := by
  obtain ⟨hmem, honce⟩ := List.nodup_cons.mp hs.once
  refine hs.of_hart rfl hs.serving ?_ (hs.asked.trans FairLock.State.asked_enter.symm) ?_ ?_ ?_
    trivial honce fun k hk => ⟨?_, fun n => ?_, hs.knows k⟩
  · rw [FairLock.State.asked_enter]
    exact hs.next
  · rw [FairLock.State.entered_enter, ← hs.entered]
  · exact iff_of_true rfl rfl
  · exact .of_not_place nofun fun n hn => hmem (FairLock.State.exists_place_iff.mp ⟨n, hn⟩)
  · exact iff_of_false (fun he => hk (Option.some.inj he).symm) nofun
  · rw [FairLock.State.place_enter]
    exact (or_iff_left fun he => hk he.1).symm

/-- The store of `lock_release`, by the hart that is inside. -/
theorem leave {left waiting : List ι} {inside : Bool} (hs : s.Follows ⟨left, some h, waiting⟩)
    (hc : s.hart h = ⟨.releaseStore s.nowServing, inside⟩) :
    Follows ((s.setNowServing (s.nowServing + 1)).moved h ⟨.idle, false⟩)
      ⟨left ++ [h], none, waiting⟩ := by
  have hnot : ∀ n, ¬ FairLock.State.Place ⟨left, some h, waiting⟩ h n := hs.not_place hc nofun
  have hserving : (s.setNowServing (s.nowServing + 1)).nowServing = s.nowServing + 1 :=
    nowServing_setNowServing
  have hnext : (s.setNowServing (s.nowServing + 1)).nextTicket = s.nextTicket :=
    nextTicket_setNowServing
  refine hs.of_hart rfl ?_ ?_ (hs.asked.trans FairLock.State.asked_leave.symm)
    (hs.entered.trans FairLock.State.entered_leave.symm) ?_ ?_ trivial hs.once
    fun k hk => ⟨?_, fun n => FairLock.State.place_leave, ?_⟩
  · rw [List.length_append, List.length_singleton, BitVec.ofNat_add, ← hs.serving]
    exact hserving
  · rw [FairLock.State.asked_leave]
    exact hnext.trans hs.next
  · exact iff_of_false Bool.false_ne_true nofun
  · exact .of_not_place nofun fun n hn => hnot n (FairLock.State.place_leave.mp hn)
  · exact iff_of_false nofun fun he => hk (Option.some.inj he).symm
  · -- no other hart is inside, so none is in `lock_release`
    refine (hs.knows k).of_outside (Bool.eq_false_iff.mpr fun hin => ?_)
    exact hk (Option.some.inj ((hs.inside k).mp hin)).symm

/-- A step of the ticket lock is a step of the fair lock, or none. -/
theorem step [Fintype ι] (hcard : Fintype.card ι < 2 ^ 32) (hs : s.Follows f)
    (hl : s.Step l s') (husage : s.Usage l) :
    ∃ f', Steps FairLock.Step f f' ∧ s'.Follows f' := by
  cases step_effect hl with
  | @acquire h inside hc => exact ⟨f, .refl f, hs.moved hc nofun nofun trivial⟩
  | @release h inside hc =>
    have hin : (s.hart h).inside = true := husage
    rw [hc] at hin
    exact ⟨f, .refl f, hs.moved hc nofun nofun hin⟩
  | @ticket h inside hc =>
    obtain ⟨left, holder, waiting⟩ := f
    exact ⟨_, Steps.snoc (.refl _) (.ask h), hs.ask hc⟩
  | @spin h inside ticket hc hne =>
    have hsame : s.moved h ⟨.acquireSpin ticket, inside⟩ = s := by
      rw [LockState.moved, State.setCtl, ← hc]
      exact congrArg (fun c => LockState.mk ⟨s.harts.mem, c⟩ s.asked s.entered)
        (Function.update_eq_self h s.harts.ctl)
    exact ⟨f, .refl f, hsame.symm ▸ hs⟩
  | @served h inside hc =>
    obtain ⟨hnone, rest, hwaiting⟩ := hs.served hcard (congrArg LockHart.ctl hc)
    obtain ⟨left, holder, waiting⟩ := f
    obtain rfl : holder = none := hnone
    obtain rfl : waiting = h :: rest := hwaiting
    exact ⟨_, Steps.snoc (.refl _) (.enter h), hs.enter⟩
  | @load h inside hc =>
    have hknows := hs.knows h
    rw [hc] at hknows
    exact ⟨f, .refl f, hs.moved hc nofun (fun _ h => LockCtl.noConfusion h) ⟨hknows, rfl⟩⟩
  | @store h inside serving hc =>
    have hknows := hs.knows h
    rw [hc] at hknows
    obtain ⟨hin, rfl⟩ := hknows
    have hholder : f.holder = some h := (hs.inside h).mp (by rw [hc]; exact hin)
    obtain ⟨left, holder, waiting⟩ := f
    obtain rfl : holder = some h := hholder
    exact ⟨_, Steps.snoc (.refl _) (.leave h), hs.leave hc⟩

end Follows

/-! ## Every run -/

variable [DecidableEq ι] [Fintype ι]

/-- The ticket lock refines the fair lock. -/
theorem refines (hcard : Fintype.card ι < 2 ^ 32)
    (hr : Reachable Start (restrict Step Usage) s) :
    ∃ f, Reachable (· = .start) FairLock.Step f ∧ s.Follows f :=
  hr.simulates (fun _ hs => ⟨.start, rfl, follows_of_start hs⟩)
    fun _ _ _ _ hs hl => hs.step hcard hl.1 hl.2

/-- In every run of fewer than 2^32 harts that release only what they acquired, and however often
    the counters have wrapped: one hart is inside at most, and the harts enter in the order of
    their fetch-and-adds. -/
theorem excludes_in_order (hcard : Fintype.card ι < 2 ^ 32)
    (hr : Reachable Start (restrict Step Usage) s) :
    (∀ h k, (s.hart h).inside = true → (s.hart k).inside = true → h = k) ∧
      s.entered <+: s.asked := by
  obtain ⟨f, -, hs⟩ := refines hcard hr
  constructor
  · intro h k hh hk
    have hholder := (hs.inside h).mp hh
    exact Option.some.inj (hholder.symm.trans ((hs.inside k).mp hk))
  · rw [hs.entered, hs.asked]
    exact f.entered_prefix

end LockState

/-! ## A run -/

/-- Two harts, and a lock that nobody has asked for. -/
def initLock : LockState Bool := ⟨⟨fun _ => 0, fun _ => ⟨.idle, false⟩⟩, [], []⟩

theorem initLock_start : initLock.Start := ⟨rfl, rfl, fun _ => rfl, rfl, rfl⟩

/-- Hart `k` asks while hart `h` is inside, and enters when `h` has released the lock. -/
def handedOver {ι : Type} (h k : ι) : List (Interleaving.Label ι LockOp) :=
  .enter h .acquire :: List.replicate 2 (.access h) ++
    .enter k .acquire :: List.replicate 2 (.access k) ++
    .enter h .release :: List.replicate 2 (.access h) ++ [.access k]

/-- The second hart asks while the first is inside, and enters when that one has left. -/
theorem excludes_in_order_handedOver :
    let s := (exec (guarded LockState.step LockState.Usage) (handedOver false true)
      initLock).getD initLock
    s.entered = [false, true] ∧
      (∀ h k, (s.hart h).inside = true → (s.hart k).inside = true → h = k) ∧
      s.entered <+: s.asked :=
  ⟨by decide +kernel, LockState.excludes_in_order (by rw [Fintype.card_bool]; decide)
    ⟨initLock, initLock_start, steps_getD_exec (restrict_of_guarded fun _ _ _ h => h) _ _⟩⟩

end SepKernel
