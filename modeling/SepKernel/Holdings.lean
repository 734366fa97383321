import SepKernel.Lib.Exclusive
import SepKernel.Steps

/-!
# Who holds what

The abstract model of the capability side: a holding of every node, nothing for the dead ones and
for the sentinels. Each operation is a function on holdings with a condition under which it is
enabled, and every step of the system acts on its holdings as the operation it asks for.
-/

namespace SepKernel

open Capability (CanDerive)

/-- What each node holds. -/
abbrev Holdings := NodeRef → Capability

/-- The words of a deleted slot are nobody's. -/
def Kernel.held (s : Kernel) : Holdings
  | .slot p i => (s.capAt (.slot p i)).view
  | .sentinel _ => .other

variable {cfg : Config} {s s' t : Kernel} {st st' : System} {l : Label} {n : NodeRef} {p i : Nat}
  {op : CapOp} {H : Holdings}

/-- A live slot holds what its words say. -/
theorem held_of_live (h : s.Live (.slot p i)) :
    s.held (.slot p i) = (s.caps (.slot p i)).view := by
  rw [Kernel.held, Kernel.capAt_of_live h]

/-- A dead one holds nothing, whatever is in its words. -/
theorem held_of_dead (h : ¬ s.Live (.slot p i)) : s.held (.slot p i) = .other := by
  rw [Kernel.held, Kernel.capAt_of_dead h, nullCap_view]

theorem held_congr {p' i' : Nat} (hl : t.Live (.slot p i) ↔ s.Live (.slot p' i'))
    (hc : t.caps (.slot p i) = s.caps (.slot p' i')) :
    t.held (.slot p i) = s.held (.slot p' i') := by
  by_cases h : t.Live (.slot p i)
  · rw [held_of_live h, held_of_live (hl.mp h), hc]
  · rw [held_of_dead h, held_of_dead (mt hl.mpr h)]

/-- A node that holds something is a live slot. -/
theorem live_of_held (h : s.held n ≠ .other) :
    ∃ p i, n = .slot p i ∧ s.Live (.slot p i) ∧ s.held n = (s.caps (.slot p i)).view := by
  cases n with
  | slot p i =>
    have hl : s.Live (.slot p i) := by
      by_contra hd
      exact h (held_of_dead hd)
    exact ⟨p, i, rfl, hl, held_of_live hl⟩
  | sentinel k => exact absurd rfl h

/-- And every live slot holds something. -/
theorem held_ne_other (hg : s.Good cfg) (h : s.Live (.slot p i)) :
    s.held (.slot p i) ≠ .other := by
  intro he
  have hv := hg.valid p i h
  rw [held_of_live h] at he
  rw [he] at hv
  exact hv.1

/-- Everything that is held is valid. -/
theorem held_valid (hg : s.Good cfg) (h : s.held n ≠ .other) : (s.held n).Valid cfg := by
  obtain ⟨p, i, rfl, hl, -⟩ := live_of_held h
  rw [held_of_live hl]
  exact hg.valid p i hl

theorem SameCaps.held (h : SameCaps cfg s t) : t.held = s.held := by
  funext n
  cases n with
  | slot p i => exact held_congr h.live (by rw [h.caps])
  | sentinel k => rfl

/-! ## The operations on holdings -/

namespace CapOp

/-- What was in `src` is in `dst` now. -/
def handed (H : Holdings) (src dst : NodeRef) : Holdings :=
  Function.update (Function.update H dst (H src)) src .other

/-- The same operations on what the slots hold, without the lists. -/
def onHeld (H : Holdings) : CapOp → Holdings
  | .derive pid i j c =>
    Function.update
      (Function.update H (.slot pid i) ((H (.slot pid i)).afterDerive c.view)) (.slot pid j) c.view
  | .move pid i j => handed H (.slot pid i) (.slot pid j)
  | .transfer srcPid i destPid j => handed H (.slot srcPid i) (.slot destPid j)
  | .delete pid i => Function.update H (.slot pid i) .other
  | .skip => H
  | .wipe _ _ => H

/-- What an operation requires of the holdings. -/
def Enabled (H : Holdings) : CapOp → Prop
  | .derive pid i j c => CanDerive (H (.slot pid i)) c.view ∧ H (.slot pid j) = .other
  | .move pid i j => H (.slot pid i) ≠ .other ∧ H (.slot pid j) = .other
  | .transfer srcPid i destPid j => H (.slot srcPid i) ≠ .other ∧ H (.slot destPid j) = .other
  | .delete pid i => H (.slot pid i) ≠ .other
  | .skip => True
  | .wipe _ _ => True

end CapOp

/-- The words of a node that the operation leaves alone. -/
theorem held_handed {src dst : NodeRef} (hds : dst ≠ src)
    (hsrc : s.Live src) (hs : ∃ p i, src = .slot p i) (hd : ∃ p i, dst = .slot p i)
    (hlive : ∀ {m}, t.Live m ↔ m = dst ∨ m ≠ src ∧ s.Live m)
    (hcaps : t.caps = Function.update s.caps dst (s.caps src)) :
    t.held = CapOp.handed s.held src dst := by
  obtain ⟨ps, is, rfl⟩ := hs
  obtain ⟨pd, id, rfl⟩ := hd
  funext m
  cases m with
  | sentinel k => simp [CapOp.handed, Kernel.held]
  | slot p i =>
    rw [CapOp.handed]
    by_cases hms : (.slot p i : NodeRef) = .slot ps is
    · rw [hms, Function.update_self]
      exact held_of_dead fun h => (hlive.mp h).elim (fun e => hds e.symm) fun h => h.1 rfl
    rw [Function.update_of_ne hms]
    by_cases hmd : (.slot p i : NodeRef) = .slot pd id
    · rw [hmd, Function.update_self]
      refine held_congr ⟨fun _ => hsrc, fun _ => hlive.mpr (Or.inl rfl)⟩ ?_
      rw [hcaps, Function.update_self]
    · rw [Function.update_of_ne hmd]
      refine held_congr ⟨fun h => ((hlive.mp h).resolve_left hmd).2,
        fun h => hlive.mpr (Or.inr ⟨hms, h⟩)⟩ ?_
      rw [hcaps, Function.update_of_ne hmd]

/-- An operation on the kernel is the operation on what it holds. -/
theorem CapStep.held (h : CapStep cfg s op t) : t.held = op.onHeld s.held := by
  cases h with
  | skip => rfl
  | @derive pid i j c par q hpid hj hsrc hdst hcan hpar hq =>
    -- the child at its slot, the parent with less, the rest as before
    have hlive : ∀ {m}, (s.deriveNode cfg pid (.slot pid i) (.slot pid j) par c q).Live m ↔
        m = .slot pid j ∨ s.Live m := Kernel.live_deriveNode (live_of_linked hq)
    have hds : (.slot pid j : NodeRef) ≠ .slot pid i := fun e => hdst (e ▸ hsrc)
    funext m
    cases m with
    | sentinel k => simp [CapOp.onHeld, Kernel.held]
    | slot p' i' =>
      rw [CapOp.onHeld]
      by_cases hmd : (.slot p' i' : NodeRef) = .slot pid j
      · rw [hmd, Function.update_self, held_of_live (hlive.mpr (Or.inl rfl)),
          Kernel.caps_deriveNode, Function.update_self]
      rw [Function.update_of_ne hmd]
      by_cases hms : (.slot p' i' : NodeRef) = .slot pid i
      · rw [hms, Function.update_self, held_of_live (hlive.mpr (Or.inr hsrc)), held_of_live hsrc,
          Kernel.caps_deriveNode, Function.update_of_ne hds.symm, Function.update_self, hpar]
      · rw [Function.update_of_ne hms]
        refine held_congr ⟨fun h => (hlive.mp h).resolve_left hmd,
          fun h => hlive.mpr (Or.inr h)⟩ ?_
        rw [Kernel.caps_deriveNode, Function.update_of_ne hmd, Function.update_of_ne hms]
  | @move pid i j a q hpid hj hsrc hdst ha hq hne =>
    have hds : (.slot pid j : NodeRef) ≠ .slot pid i := fun e => hdst (e ▸ hsrc)
    exact held_handed hds hsrc ⟨_, _, rfl⟩ ⟨_, _, rfl⟩
      (Kernel.live_moveNode (live_of_linked hq) hds) Kernel.caps_moveNode
  | @transfer srcPid i destPid j a q hpid hj hsrc hdst hex ha hq hne =>
    have hds : (.slot destPid j : NodeRef) ≠ .slot srcPid i := fun e => hdst (e ▸ hsrc)
    exact held_handed hds hsrc ⟨_, _, rfl⟩ ⟨_, _, rfl⟩
      (Kernel.live_handOver (live_of_linked hq) hds) Kernel.caps_handOver
  | @delete pid i a q hsrc hex ha hq hne =>
    have hlive : ∀ {m}, (s.spliceOut (.slot pid i) a q).Live m ↔ m ≠ .slot pid i ∧ s.Live m :=
      Kernel.live_spliceOut (live_of_linked hq) hne
    funext m
    cases m with
    | sentinel k => simp [CapOp.onHeld, Kernel.held]
    | slot p' i' =>
      rw [CapOp.onHeld]
      by_cases hms : (.slot p' i' : NodeRef) = .slot pid i
      · rw [hms, Function.update_self]
        exact held_of_dead fun h => (hlive.mp h).1 rfl
      · rw [Function.update_of_ne hms]
        exact held_congr ⟨fun h => (hlive.mp h).2, fun h => hlive.mpr ⟨hms, h⟩⟩
          (by rw [Kernel.caps_spliceOut])
  | @wipe pid i c hsrc hc =>
    have hlive : ∀ {m}, (s.setCap (.slot pid i) c).Live m ↔ s.Live m :=
      Kernel.live_congr (by simp)
    funext m
    cases m with
    | sentinel k => rfl
    | slot p' i' =>
      rw [CapOp.onHeld]
      by_cases hms : (.slot p' i' : NodeRef) = .slot pid i
      -- a dead node holds nothing, whatever its capability is
      · rw [hms, held_of_dead hsrc, held_of_dead (mt hlive.mp hsrc)]
      · refine held_congr hlive ?_
        rw [Kernel.caps_setCap, Function.update_of_ne hms]

/-- What an operation of the kernel does is possible for what the slots hold. -/
theorem CapStep.enabled (h : CapStep cfg s op t) (hg : s.Good cfg) : op.Enabled s.held := by
  cases h with
  | skip => trivial
  | derive hpid hj hsrc hdst hcan =>
    exact ⟨by rw [held_of_live hsrc]; exact hcan, held_of_dead hdst⟩
  | move hpid hj hsrc hdst => exact ⟨held_ne_other hg hsrc, held_of_dead hdst⟩
  | transfer hpid hj hsrc hdst => exact ⟨held_ne_other hg hsrc, held_of_dead hdst⟩
  | delete hsrc => exact held_ne_other hg hsrc
  | wipe => trivial

/-- Every step of the system is, on the holdings, the operation it asks for. -/
theorem step_held (hg : st.Good cfg) (hs : Step cfg st l st') :
    (stepOp cfg st l).Enabled st.kernel.held ∧
      st'.kernel.held = (stepOp cfg st l).onHeld st.kernel.held := by
  obtain ⟨s', t', h1, h2, h3⟩ := step_caps hg hs
  refine ⟨?_, ?_⟩
  · have := h2.enabled (h1.good hg.kernel)
    rwa [h1.held] at this
  · rw [h3.held, h2.held, h1.held]

/-! ## Provenance -/

/-- What is held after a derivation, the new place apart, was held before. -/
theorem derived_of_ne_other {src dst : NodeRef} {c x : Capability} (hs : H src ≠ .other)
    (hnd : n ≠ dst) (hn : Function.update (Function.update H src x) dst c n ≠ .other) :
    H n ≠ .other := by
  rw [Function.update_of_ne hnd] at hn
  by_cases hns : n = src
  · exact hns ▸ hs
  · rwa [Function.update_of_ne hns] at hn

theorem handed_of_ne (H : Holdings) {src dst : NodeRef} (m : NodeRef) (h : m ≠ src)
    (h' : m ≠ dst) : CapOp.handed H src dst m = H m := by
  rw [CapOp.handed, Function.update_of_ne h, Function.update_of_ne h']

/-- What is held after a move was held under its old name. -/
theorem handed_of_ne_other {src dst : NodeRef} (hn : CapOp.handed H src dst n ≠ .other) :
    n ≠ src ∧ CapOp.handed H src dst n = H (if n = dst then src else n) := by
  have hns : n ≠ src := by
    rintro rfl
    exact hn (Function.update_self _ _ _)
  refine ⟨hns, ?_⟩
  by_cases hnd : n = dst
  · subst hnd
    rw [if_pos rfl, CapOp.handed, Function.update_of_ne hns, Function.update_self]
  · rw [if_neg hnd, handed_of_ne H n hns hnd]

theorem dropped_of_ne_other {src : NodeRef} (hn : Function.update H src .other n ≠ .other) :
    Function.update H src .other n = H n := by
  have hns : n ≠ src := by
    rintro rfl
    exact hn (Function.update_self _ _ _)
  exact Function.update_of_ne hns _ _

/-- Where a capability that is held after an operation comes from. -/
inductive Arises (H : Holdings) (n : NodeRef) : Capability → Prop where
  | kept : Arises H n (H n)
  | narrowed {c : Capability} (h : CanDerive (H n) c) : Arises H n ((H n).afterDerive c)
  | derived {c : Capability} (h : CanDerive (H n) c) : Arises H n c

/-- Every holding after an operation comes from a holding before it. -/
theorem CapOp.Enabled.arises (he : op.Enabled H) (n : NodeRef) :
    op.onHeld H n = .other ∨ ∃ m, Arises H m (op.onHeld H n) := by
  have hhanded : ∀ src dst, CapOp.handed H src dst n = .other ∨
      ∃ m, Arises H m (CapOp.handed H src dst n) := by
    intro src dst
    by_cases hs : n = src
    · left
      rw [hs, CapOp.handed, Function.update_self]
    right
    by_cases hd : n = dst
    · refine ⟨src, ?_⟩
      rw [CapOp.handed, Function.update_of_ne hs, hd, Function.update_self]
      exact .kept
    · refine ⟨n, ?_⟩
      rw [handed_of_ne H n hs hd]
      exact .kept
  cases op with
  | skip => exact Or.inr ⟨n, .kept⟩
  | wipe => exact Or.inr ⟨n, .kept⟩
  | move pid i j => exact hhanded _ _
  | transfer srcPid i destPid j => exact hhanded _ _
  | delete pid i =>
    by_cases hs : n = .slot pid i
    · left
      rw [CapOp.onHeld, hs, Function.update_self]
    · right
      refine ⟨n, ?_⟩
      rw [CapOp.onHeld, Function.update_of_ne hs]
      exact .kept
  | derive pid i j c =>
    right
    rw [CapOp.onHeld]
    by_cases hd : n = .slot pid j
    · refine ⟨.slot pid i, ?_⟩
      rw [hd, Function.update_self]
      exact .derived he.1
    rw [Function.update_of_ne hd]
    by_cases hs : n = .slot pid i
    · refine ⟨.slot pid i, ?_⟩
      rw [hs, Function.update_self]
      exact .narrowed he.1
    · refine ⟨n, ?_⟩
      rw [Function.update_of_ne hs]
      exact .kept

end SepKernel
