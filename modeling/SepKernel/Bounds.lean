import SepKernel.Forest
import SepKernel.Roots

/-!
# Live capabilities are well formed

The fields of a live capability stay within the bounds its constructor asserts, and what is derived
from a receiver or a server keeps its channel and its grant. No user program gets round them, so
no table of the kernel is indexed past its end.
-/

namespace SepKernel

open Capability (CanDerive)
open Lineage (Ident Parent ident)
open Transition (Reachable Steps)

variable {cfg : Config} {s t : Kernel} {st st' : System} {l : Label} {op : CapOp} {H : Holdings}
  {es : List CapEvent} {src dst n : NodeRef} {c p : Capability} {cap : Cap}

/-! ## Fields -/

/-- What the fields of a capability of a type in use are bound to; nothing in use is empty. -/
def Cap.FieldsOk (cfg : Config) (cap : Cap) : CapType → Prop
  | .empty => False
  | .memory => (capMemoryGetBegin cap ≤ capMemoryGetFree cap ∧
      capMemoryGetFree cap ≤ capMemoryGetEnd cap ∧ capMemoryGetBegin cap < capMemoryGetEnd cap) ∧
      (capMemoryGetEnd cap).toNat ≤ 2 ^ 32 - 1 ∧ (capMemoryGetPmp cap = 0 ∨ capMemoryGetPmp cap = 1)
  | .pmp => True
  | .time => (capTimeGetBegin cap ≤ capTimeGetFree cap ∧
      capTimeGetFree cap ≤ capTimeGetEnd cap ∧ capTimeGetBegin cap < capTimeGetEnd cap) ∧
      (capTimeGetEnd cap).toNat ≤ cfg.nQuantum ∧
      cfg.minHartid ≤ (capTimeGetHartid cap).toNat ∧ (capTimeGetHartid cap).toNat ≤ cfg.maxHartid
  | .channels => (capChannelsGetBegin cap ≤ capChannelsGetFree cap ∧
      capChannelsGetFree cap ≤ capChannelsGetEnd cap ∧
      capChannelsGetBegin cap < capChannelsGetEnd cap) ∧
      (capChannelsGetEnd cap).toNat ≤ cfg.nChannels
  | .receiver => (capReceiverGetChannel cap).toNat < cfg.nChannels
  | .sender => (capSenderGetChannel cap).toNat < cfg.nChannels
  | .server => (capServerGetChannel cap).toNat < cfg.nChannels
  | .client => (capClientGetChannel cap).toNat < cfg.nChannels
  | .supervisor => (capSupervisorGetBegin cap ≤ capSupervisorGetFree cap ∧
      capSupervisorGetFree cap ≤ capSupervisorGetEnd cap ∧
      capSupervisorGetBegin cap < capSupervisorGetEnd cap) ∧
      (capSupervisorGetEnd cap).toNat ≤ cfg.nProc

/-- A valid capability has a type, and its fields keep to it. -/
theorem fieldsOk_of_valid (h : cap.view.Valid cfg) :
    ∃ ty, capIsType cap ty = true ∧ cap.FieldsOk cfg ty := by
  cases hty : cap.view.type? with
  | none =>
    cases hv : cap.view <;> rw [hv] at hty h
    case other => exact absurd h.1 id
    all_goals cases hty
  | some ty =>
    have ht : capIsType cap ty = true := Cap.isType_of_view hty
    refine ⟨ty, ht, ?_⟩
    rw [Cap.view_eq ht] at h
    obtain ⟨hwf, hin⟩ := h
    cases ty with
    | empty => exact hwf
    | memory =>
      refine ⟨hwf.1, Nat.le_sub_one_of_lt (Field.get_lt (f := memoryEnd) (by decide)), ?_⟩
      exact hwf.2.imp BitVec.eq_of_toNat_eq BitVec.eq_of_toNat_eq
    | pmp => trivial
    | time => exact ⟨hwf, hin.2.2, hin.1, hin.2.1⟩
    | channels => exact ⟨hwf, hin⟩
    | receiver => exact hin
    | sender => exact hin
    | server => exact hin
    | client => exact hin
    | supervisor => exact ⟨hwf, hin⟩

/-! ## Grants -/

namespace Capability

/-- The channel and the grant of a capability to send or to receive. -/
def port : Capability → Option (Nat × Word)
  | .receiver ch g => some (ch, g)
  | .sender ch g => some (ch, g)
  | .server ch g => some (ch, g)
  | .client ch g => some (ch, g)
  | _ => none

/-- A derivation does not touch its source's channel or grant. -/
theorem port_afterDerive : (p.afterDerive c).port = p.port := by
  cases p <;> cases c <;> rfl

/-- And hands them on. -/
theorem CanDerive.port (h : CanDerive p c) {x : Nat × Word} (hp : p.port = some x) :
    c.port = some x := by
  cases h with
  | sender => exact hp
  | client => exact hp
  | _ => cases hp

end Capability

/-- `gr` is the port of every capability there ever was, and a child has its parent's. -/
structure Ported (gr : Ident NodeRef → Option (Nat × Word)) (H : Holdings) (es : List CapEvent) :
    Prop where
  held : ∀ n, H n ≠ .other → (H n).port = gr (ident es n)
  parent : ∀ i j x, Parent es i j → gr i = some x → gr j = some x

/-- A new object has the port of its first capability. -/
theorem Ported.derive {gr : Ident NodeRef → Option (Nat × Word)} (h : Ported gr H es)
    (hcan : CanDerive (H src) c) :
    Ported (Function.update gr (.derived es.length) c.port)
      (Function.update (Function.update H src ((H src).afterDerive c)) dst c)
      (.derived src dst :: es) := by
  have hold : ∀ m, Function.update gr (.derived es.length) c.port (ident es m) =
      gr (ident es m) := fun m => Function.update_of_ne Lineage.ident_ne_new _ _
  constructor
  · intro m hm
    by_cases hmd : m = dst
    · rw [hmd, Function.update_self, Lineage.ident_derived_dst, Function.update_self]
    rw [Lineage.ident_derived_of_ne hmd, hold]
    rw [Function.update_of_ne hmd] at hm ⊢
    by_cases hms : m = src
    · subst hms
      rw [Function.update_self, Capability.port_afterDerive]
      exact h.held m hcan.ne_other
    · rw [Function.update_of_ne hms] at hm ⊢
      exact h.held m hm
  · intro i j x hp hx
    rcases Lineage.parent_derived.mp hp with ⟨rfl, rfl⟩ | hp
    · rw [hold, ← h.held src hcan.ne_other] at hx
      rw [Function.update_self]
      exact hcan.port hx
    · obtain ⟨hi, hj⟩ := hp.ne_new
      rw [Function.update_of_ne hi] at hx
      rw [Function.update_of_ne hj]
      exact h.parent i j x hp hx

/-- A move does not change it. -/
theorem Ported.handed {gr : Ident NodeRef → Option (Nat × Word)} (h : Ported gr H es) :
    Ported gr (CapOp.handed H src dst) (.moved src dst :: es) := by
  constructor
  · intro m hm
    obtain ⟨-, he⟩ := handed_of_ne_other hm
    rw [he] at hm ⊢
    rw [Lineage.ident_moved]
    exact h.held _ hm
  · intro i j x hp
    exact h.parent i j x (Lineage.parent_moved.mp hp)

/-- An operation leaves the ports of what was there. -/
theorem CapOp.Enabled.ported {gr : Ident NodeRef → Option (Nat × Word)} (he : op.Enabled H)
    (h : Ported gr H es) : ∃ gr', Ported gr' (op.onHeld H) (op.onHistory es) ∧
      ∀ i, i.rank ≤ es.length → gr' i = gr i := by
  cases op with
  | derive pid i j c =>
    refine ⟨_, h.derive he.1, fun i hi => Function.update_of_ne ?_ _ _⟩
    intro h
    rw [h] at hi
    exact absurd hi (Nat.not_succ_le_self _)
  | move pid i j => exact ⟨gr, h.handed, fun _ _ => rfl⟩
  | transfer srcPid i destPid j => exact ⟨gr, h.handed, fun _ _ => rfl⟩
  | skip => exact ⟨gr, h, fun _ _ => rfl⟩
  | wipe => exact ⟨gr, h, fun _ _ => rfl⟩
  | delete pid i =>
    refine ⟨gr, ⟨fun m hm => ?_, h.parent⟩, fun _ _ => rfl⟩
    have he := dropped_of_ne_other hm
    rw [CapOp.onHeld, he] at hm ⊢
    exact h.held m hm

/-- The history only grows. -/
theorem CapOp.length_onHistory : es.length ≤ (op.onHistory es).length := by
  cases op <;> simp [CapOp.onHistory]

/-- Along a run too. -/
theorem steps_ported {gr : Ident NodeRef → Option (Nat × Word)} (hr : Steps (Step cfg) st st')
    (hg : st.Good cfg) (h : Ported gr st.kernel.held st.kernel.history) :
    ∃ gr', Ported gr' st'.kernel.held st'.kernel.history ∧
      ∀ i, i.rank ≤ st.kernel.history.length → gr' i = gr i := by
  have hI : st'.Good cfg ∧ st.kernel.history.length ≤ st'.kernel.history.length ∧
      ∃ gr', Ported gr' st'.kernel.held st'.kernel.history ∧
        ∀ i, i.rank ≤ st.kernel.history.length → gr' i = gr i := by
    refine hr.invariant (I := fun t : System => t.Good cfg ∧
      st.kernel.history.length ≤ t.kernel.history.length ∧
        ∃ gr', Ported gr' t.kernel.held t.kernel.history ∧
          ∀ i, i.rank ≤ st.kernel.history.length → gr' i = gr i)
      (fun t l t' hI hl => ?_) ⟨hg, le_rfl, gr, h, fun _ _ => rfl⟩
    obtain ⟨hgt, hlen, gr₁, hgr₁, hext⟩ := hI
    obtain ⟨hen, heq⟩ := step_held hgt hl
    obtain ⟨gr₂, hgr₂, hext₂⟩ := hen.ported hgr₁
    rw [heq, step_history hgt hl]
    exact ⟨step_good hgt hl, hlen.trans CapOp.length_onHistory, gr₂, hgr₂,
      fun i hi => (hext₂ i (hi.trans hlen)).trans (hext i hi)⟩
  exact hI.2.2

/-! ## Initial states -/

/-- A kernel that waits in the scheduler, whose live capabilities have passed the asserts of their
    constructors. What they refer to may overlap. -/
structure AssertedState (cfg : Config) (s : System) : Prop where
  lists : ∃ rings, s.kernel.Lists rings
  bounds : ∀ p i, s.kernel.Live (.slot p i) → p < cfg.nProc ∧ i < cfg.nCaps
  constructed : ∀ p i, s.kernel.Live (.slot p i) → Constructed cfg (s.kernel.caps (.slot p i))
  clear : ∀ p i, ¬ s.kernel.Live (.slot p i) → s.kernel.caps (.slot p i) = nullCap
  pids : ∀ p, p < cfg.nProc → (s.kernel.procs p).pid = BitVec.ofNat 64 p
  states : ∀ p, p < cfg.nProc →
    (s.kernel.procs p).state = procStateReady ∨ (s.kernel.procs p).state = procStateSuspended
  receivers : ∀ ch k p, s.kernel.receivers ch k = some p → p < cfg.nProc
  entries : EntriesOk cfg s.kernel
  halted : ∀ h, s.current h = none
  history : s.kernel.history = []

/-- The states after boot are among those with constructed capabilities. -/
theorem RootState.asserted (h : RootState cfg st) : AssertedState cfg st :=
  ⟨h.lists, h.bounds, h.constructed, h.clear, h.pids, h.states, h.receivers, h.entries, h.halted,
    h.history⟩

namespace AssertedState

/-- What the constructors assert is enough for the invariant of the calls. -/
theorem good (h : AssertedState cfg st) : st.Good cfg where
  kernel :=
    { lists := h.lists
      bounds := h.bounds
      valid := fun p i hl => (h.constructed p i hl).valid.1
      known := fun p i => by
        by_cases hl : st.kernel.Live (.slot p i)
        · exact Or.inr (h.constructed p i hl).valid.1
        · rw [h.clear p i hl, nullCap_view]
          exact Or.inl rfl
      pids := h.pids
      receivers := h.receivers
      entries := h.entries }
  current hart p hp := by
    rw [h.halted] at hp
    cases hp
  unique hart hart' p hp := by
    rw [h.halted] at hp
    cases hp
  idle p hp _ := (h.states p hp).imp id Or.inl

/-- To begin with every object has the port that its slot has. -/
theorem ported (h : AssertedState cfg st) :
    ∃ gr, Ported gr st.kernel.held st.kernel.history := by
  refine ⟨fun | .root n => (st.kernel.held n).port | .derived _ => none, fun n _ => ?_,
    fun i j x hp => ?_⟩
  · rw [h.history]
    rfl
  · rw [h.history] at hp
    cases hp

end AssertedState

/-! ## Runs -/

/-- In every run from a state whose capabilities have passed their asserts, live capabilities have
    a type and keep to its bounds, what is derived from a receiver or a server has its channel and
    its grant, even when the parent is gone, and no step makes an access out of bounds. -/
theorem live_caps_wellFormed {init : System → Prop} (hinit : ∀ s, init s → AssertedState cfg s)
    (hr : Reachable init (Step cfg) st) :
    (∀ p i, st.kernel.Live (.slot p i) → ∃ ty, capIsType (st.kernel.caps (.slot p i)) ty = true ∧
      (st.kernel.caps (.slot p i)).FieldsOk cfg ty) ∧
    (∀ st', Steps (Step cfg) st st' → ∀ p i q j x, st.kernel.Live (.slot p i) →
      st'.kernel.Live (.slot q j) →
        Parent st'.kernel.history (ident st.kernel.history (.slot p i))
          (ident st'.kernel.history (.slot q j)) →
        (st.kernel.caps (.slot p i)).view.port = some x →
          (st'.kernel.caps (.slot q j)).view.port = some x) ∧
    ∀ l e, step cfg l st = some (.error e) → e ≠ .badAccess ∧ ∃ h user, l = .ecall h user := by
  obtain ⟨st₀, h₀, hrun⟩ := hr
  have hg₀ : st₀.Good cfg := (hinit st₀ h₀).good
  have hg : st.Good cfg := hrun.invariant (fun _ _ _ => step_good) hg₀
  refine ⟨fun p i hl => fieldsOk_of_valid (hg.kernel.valid p i hl), ?_, fun l e he => ?_⟩
  · intro st' hrun' p i q j x hl hl' hp hx
    have hg' : st'.Good cfg := hrun'.invariant (fun _ _ _ => step_good) hg
    obtain ⟨gr₀, hgr₀⟩ := (hinit st₀ h₀).ported
    obtain ⟨gr, hgr, -⟩ := steps_ported hrun hg₀ hgr₀
    obtain ⟨gr', hgr', hext⟩ := steps_ported hrun' hg hgr
    have hport := hgr.held _ (held_ne_other hg.kernel hl)
    have hport' := hgr'.held _ (held_ne_other hg'.kernel hl')
    rw [held_of_live hl, hx] at hport
    rw [held_of_live hl'] at hport'
    rw [hport']
    refine hgr'.parent _ _ x hp ?_
    rw [hext _ Lineage.rank_ident_le, ← hport]
  · obtain ⟨rfl, h, user, p, hlabel, -⟩ := (step_error hg).mp he
    exact ⟨by simp, h, user, hlabel⟩

/-- The root process has derived a receiver with a grant; then a sender from it, and has deleted the
    receiver. -/
def virtWithReceiver : System := virtAfter [.schedule 1 0, .ecall 1 (callRegs 5 1 10
  (capMkReceiver 0 1).word0 (capMkReceiver 0 1).word1 0 0)]

/-- The sender is still there, with no receiver that it was derived from. -/
def virtOrphan : System := virtWithReceiver.after .virt [.ecall 1 (callRegs 5 10 11
  (capMkSender 0 1).word0 (capMkSender 0 1).word1 0 0), .ecall 1 (callRegs 3 10 0 0 0 0 0)]

/-- The sender has the grant of the receiver that is gone. -/
theorem live_caps_wellFormed_virtOrphan :
    (virtOrphan.kernel.caps (.slot 0 11)).view.port = some (0, 1) := by
  have hr : Reachable (Booted .virt) (Step .virt) virtWithReceiver := virtAfter_reachable _
  obtain ⟨-, h, -⟩ := live_caps_wellFormed (fun _ h => h.root.asserted) hr
  have hhist : virtOrphan.kernel.history =
      [.derived (.slot 0 10) (.slot 0 11), .derived (.slot 0 1) (.slot 0 10)] := by decide +kernel
  have hhist' : virtWithReceiver.kernel.history = [.derived (.slot 0 1) (.slot 0 10)] := by
    decide +kernel
  have hp : Parent virtOrphan.kernel.history (ident virtWithReceiver.kernel.history (.slot 0 10))
      (ident virtOrphan.kernel.history (.slot 0 11)) := by
    rw [hhist, hhist']
    exact .here
  exact h virtOrphan (after_steps _ _ _) 0 10 0 11 _ (by decide +kernel) (by decide +kernel) hp
    (by decide +kernel)

end SepKernel
