import SepKernel.Roots

/-!
# Exclusive ownership and conservation

What a live capability owns, read off its words, and the two facts every run keeps: no resource
has two owners, and none is owned that no root capability owned. On holdings the step from one
state to the next is one of the three cases of exclusive ownership, a share split, handed over or
dropped.
-/

namespace SepKernel

open Capability (CanDerive)
open Exclusive (Excl)
open Transition (Reachable Steps)

variable {cfg : Config} {s₀ s st st' : System} {H H₀ : Holdings} {op : CapOp} {c : Capability}
  {n : NodeRef} {cap : Cap} {r : Resource}

/-! ## Ownership by the words -/

/-- The capability is of the kind that owns such resources, and has this one in its active
    range. -/
def Cap.Owns (cap : Cap) : Resource → Prop
  | .page n => capIsType cap .memory = true ∧
      (capMemoryGetFree cap).toNat ≤ n ∧ n < (capMemoryGetEnd cap).toNat
  | .quantum h q => capIsType cap .time = true ∧ (capTimeGetHartid cap).toNat = h ∧
      (capTimeGetFree cap).toNat ≤ q ∧ q < (capTimeGetEnd cap).toNat
  | .channel ch =>
      (capIsType cap .channels = true ∧
        (capChannelsGetFree cap).toNat ≤ ch ∧ ch < (capChannelsGetEnd cap).toNat) ∨
      (capIsType cap .receiver = true ∧ (capReceiverGetChannel cap).toNat = ch) ∨
      (capIsType cap .server = true ∧ (capServerGetChannel cap).toNat = ch)
  | .process pid => capIsType cap .supervisor = true ∧
      (capSupervisorGetFree cap).toNat ≤ pid ∧ pid < (capSupervisorGetEnd cap).toNat

instance (cap : Cap) (r : Resource) : Decidable (cap.Owns r) := by
  cases r <;> unfold Cap.Owns <;> infer_instance

/-- It is ownership by the capability the words stand for. -/
theorem Cap.owns_iff : cap.Owns r ↔ r ∈ cap.view.owned := by
  by_cases hsome : ∃ t, capIsType cap t = true
  · obtain ⟨t, ht⟩ := hsome
    rw [Cap.view_eq ht]
    cases r <;> simp only [Cap.Owns, capIsType_eq ht, decide_eq_true_eq] <;> cases t <;>
      simp [Cap.viewAs, Capability.owned, Span.owned, eq_comm, and_comm]
  · have hnone : ∀ t, capIsType cap t = false := fun t => by
      simpa using fun ht => hsome ⟨t, ht⟩
    have hv : cap.view = .other := by
      rw [Cap.view, Cap.type?, List.find?_eq_none.mpr fun t _ => by rw [hnone]; decide]
      rfl
    rw [hv]
    cases r <;> simp [Cap.Owns, hnone, Capability.owned]

/-! ## Exclusive ownership -/

theorem Capability.CanDerive.ne_other {p : Capability} (h : CanDerive p c) : p ≠ .other := by
  rintro rfl
  cases h

/-- An operation that is enabled gives no resource a second owner. -/
theorem CapOp.Enabled.excl (he : op.Enabled H) (h : Excl fun n => (H n).owned) :
    Excl fun n => (op.onHeld H n).owned := by
  have hhanded : ∀ src dst, H dst = .other →
      Excl fun n => (CapOp.handed H src dst n).owned := by
    intro src dst hd
    refine h.transfer src dst ?_ ?_ fun n hs hd' => ?_
    · simp [CapOp.handed, Capability.owned]
    · by_cases hds : dst = src
      · simp [CapOp.handed, hds, Capability.owned]
      · simp [CapOp.handed, hds]
    · rw [handed_of_ne H n hs hd']
  cases op with
  | skip => exact h
  | wipe => exact h
  | move pid i j => exact hhanded _ _ he.2
  | transfer srcPid i destPid j => exact hhanded _ _ he.2
  | delete pid i =>
    refine h.shrink fun n => ?_
    by_cases hn : n = .slot pid i
    · simp [CapOp.onHeld, hn, Capability.owned]
    · simp [CapOp.onHeld, hn]
  | derive pid i j c =>
    obtain ⟨hcan, hd⟩ := he
    have hne : (.slot pid i : NodeRef) ≠ .slot pid j := fun e => hcan.ne_other (e ▸ hd)
    refine h.split (.slot pid i) (.slot pid j) hne ?_ ?_ ?_ ?_ ?_
    · simp [hd, Capability.owned]
    · simpa [CapOp.onHeld, hne] using hcan.parent_owned
    · simpa [CapOp.onHeld] using hcan.child_owned
    · simpa [CapOp.onHeld, hne] using hcan.disjoint
    · intro n hs hd'
      simp [CapOp.onHeld, hs, hd']

/-- In every state reached from a root state, no resource has two owners. -/
theorem excl_of_reachable (h : Reachable (RootState cfg) (Step cfg) s) :
    Excl fun n => (s.kernel.held n).owned := by
  refine (h.invariant (I := fun s => s.Good cfg ∧ Excl fun n => (s.kernel.held n).owned)
    (fun s hs => ⟨hs.good, hs.exclusive⟩) fun s l s' hs hl => ⟨step_good hs.1 hl, ?_⟩).2
  obtain ⟨he, heq⟩ := step_held hs.1 hl
  rw [heq]
  exact he.excl hs.2

/-! ## Conservation -/

/-- The access rights to what is owned; only memory has any. -/
def Capability.rights : Capability → Word
  | .memory _ w _ => w
  | _ => 0

theorem rwxSub_zero (w : Word) : RwxSub 0 w := BitVec.zero_and

/-- A derivation passes on no more rights than there are. -/
theorem Capability.CanDerive.rights {p : Capability} (h : CanDerive p c) : RwxSub c.rights p.rights := by
  cases h with
  | memory hfirst hfree hlt hstop hrwx => exact hrwx
  | _ => exact rwxSub_zero _

theorem rights_afterDerive (p c : Capability) : (p.afterDerive c).rights = p.rights := by
  cases p <;> cases c <;> rfl

/-- What comes from a holding owns no more, with no more rights. -/
theorem Arises.narrow (h : Arises H n c) : c.owned ⊆ (H n).owned ∧ RwxSub c.rights (H n).rights := by
  cases h with
  | kept => exact ⟨subset_rfl, .refl _⟩
  | narrowed h => exact ⟨h.parent_owned, by rw [rights_afterDerive]; exact .refl _⟩
  | derived h => exact ⟨h.child_owned, h.rights⟩

/-- Every resource owned in `H` is owned in `H₀`, with at least the rights. -/
def DrawnFrom (H₀ H : Holdings) : Prop := ∀ n r, r ∈ (H n).owned →
  ∃ m, r ∈ (H₀ m).owned ∧ RwxSub (H n).rights (H₀ m).rights

/-- Whatever is owned after an operation was owned before. -/
theorem CapOp.Enabled.drawnFrom (he : op.Enabled H) (h : DrawnFrom H₀ H) :
    DrawnFrom H₀ (op.onHeld H) := by
  intro n r hr
  rcases he.arises n with ho | ⟨m, hm⟩
  · rw [ho] at hr
    exact absurd hr (Set.notMem_empty _)
  · obtain ⟨m₀, hm₀, hw⟩ := h m r (hm.narrow.1 hr)
    exact ⟨m₀, hm₀, hm.narrow.2.trans hw⟩

/-- And before a whole run. -/
theorem drawnFrom_of_steps (hg : s₀.Good cfg) (hs : Steps (Step cfg) s₀ s) :
    DrawnFrom s₀.kernel.held s.kernel.held := by
  refine (hs.invariant (I := fun s => s.Good cfg ∧ DrawnFrom s₀.kernel.held s.kernel.held)
    (fun s l s' hI hl => ⟨step_good hI.1 hl, ?_⟩) ⟨hg, fun n r hr => ⟨n, hr, .refl _⟩⟩).2
  obtain ⟨he, heq⟩ := step_held hI.1 hl
  rw [heq]
  exact he.drawnFrom hI.2

/-! ## On the words of the live slots -/

/-- Ownership in words and in abstract capabilities is the same. -/
theorem owns_held {p i : Nat} (hl : s.kernel.Live (.slot p i)) :
    (s.kernel.caps (.slot p i)).Owns r ↔ r ∈ (s.kernel.held (.slot p i)).owned := by
  rw [held_of_live hl, Cap.owns_iff]

/-- The rights of a capability that owns a page are its `rwx` field. -/
theorem rights_of_owns {k : Nat} (h : cap.Owns (.page k)) :
    cap.view.rights = capMemoryGetRwx cap := by
  rw [Cap.view_eq h.1]
  rfl

/-- In every state of a run from root capabilities, a resource has at most one owner, and one of
    the root capabilities owned it before, a page with at least the same rights. -/
theorem owned_once_since_roots (h₀ : RootState cfg s₀) (hs : Steps (Step cfg) s₀ s) :
    (∀ r p i p' i', s.kernel.Live (.slot p i) → s.kernel.Live (.slot p' i') →
      (s.kernel.caps (.slot p i)).Owns r → (s.kernel.caps (.slot p' i')).Owns r →
        p = p' ∧ i = i') ∧
    ∀ r p i, s.kernel.Live (.slot p i) → (s.kernel.caps (.slot p i)).Owns r →
      ∃ p₀ i₀, s₀.kernel.Live (.slot p₀ i₀) ∧ (s₀.kernel.caps (.slot p₀ i₀)).Owns r ∧
        ∀ k, r = .page k → RwxSub (capMemoryGetRwx (s.kernel.caps (.slot p i)))
          (capMemoryGetRwx (s₀.kernel.caps (.slot p₀ i₀))) := by
  refine ⟨fun r p i p' i' hl hl' ho ho' => ?_, fun r p i hl ho => ?_⟩
  · have hexcl := excl_of_reachable ⟨s₀, h₀, hs⟩
    exact NodeRef.slot.inj (hexcl.eq ((owns_held hl).mp ho) ((owns_held hl').mp ho'))
  · obtain ⟨m, hm, hw⟩ := drawnFrom_of_steps h₀.good hs _ r ((owns_held hl).mp ho)
    have hne : s₀.kernel.held m ≠ .other := fun he => by
      rw [he] at hm
      exact Set.notMem_empty _ hm
    obtain ⟨p₀, i₀, rfl, hl₀, hv⟩ := live_of_held hne
    have ho₀ := (owns_held hl₀).mpr hm
    refine ⟨p₀, i₀, hl₀, ho₀, ?_⟩
    rintro k rfl
    rwa [held_of_live hl, hv, rights_of_owns ho, rights_of_owns ho₀] at hw

/-- The root process gives up the first ten quanta of hart 1, to a capability in its slot 10. -/
def virtDerivesTime : List Label :=
  [.schedule 1 0, .ecall 1 (callRegs 5 3 10 (capMkTime 1 0 10 0).word0 (capMkTime 1 0 10 0).word1
    0 0)]

/-- The root process has derived some time: the quantum is the new capability's, and no longer the
    old one's. -/
theorem owned_once_virtDerivesTime :
    ((virtAfter virtDerivesTime).kernel.caps (.slot 0 10)).Owns (.quantum 1 5) ∧
    ¬ ((virtAfter virtDerivesTime).kernel.caps (.slot 0 3)).Owns (.quantum 1 5) ∧
    ∃ p₀ i₀, virtStart.kernel.Live (.slot p₀ i₀) ∧
      (virtStart.kernel.caps (.slot p₀ i₀)).Owns (.quantum 1 5) := by
  obtain ⟨honce, hroot⟩ :=
    owned_once_since_roots virtStart_booted.root (after_steps _ _ virtDerivesTime)
  have ho : ((virtAfter virtDerivesTime).kernel.caps (.slot 0 10)).Owns (.quantum 1 5) := by
    decide +kernel
  refine ⟨ho, fun ho' => ?_, ?_⟩
  · exact absurd (honce _ 0 3 0 10 (by decide +kernel) (by decide +kernel) ho' ho).2 (by decide)
  · obtain ⟨p₀, i₀, hl, ho₀, -⟩ := hroot _ 0 10 (by decide +kernel) ho
    exact ⟨p₀, i₀, hl, ho₀⟩

end SepKernel
