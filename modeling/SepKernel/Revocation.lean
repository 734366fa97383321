import SepKernel.DerivationList

/-!
# Revocation

What `syscall_revoke_cap` is there for, and what it does. Its guard is the wrong way round: it
returns from a live slot at once and goes on with a deleted one, so it does for no slot what it
should.
-/

namespace SepKernel

open Transition (Reachable)

variable {cfg : Config} {s : Kernel} {p : Nat} {cidx : Word}

/-- Everything derived from the slot's capability goes, everything else stays, and the capability
    has its resources back. -/
structure RevokesLive (cfg : Config) (s : Kernel) (p : Nat) (cidx : Word) (t : Kernel) :
    Prop where
  run : (syscallRevokeCap cfg p cidx).run s = .ok (.ret errorOk, t)
  complete : ∀ x ∈ s.subtree (.slot p (slotOf cfg cidx)), ¬ t.Live x
  precise : ∀ q j, s.Live (.slot q j) → (.slot q j : NodeRef) ≠ .slot p (slotOf cfg cidx) →
    .slot q j ∉ s.subtree (.slot p (slotOf cfg cidx)) →
      t.Live (.slot q j) ∧ t.caps (.slot q j) = s.caps (.slot q j)
  kept : t.Live (.slot p (slotOf cfg cidx))
  reset : (t.caps (.slot p (slotOf cfg cidx))).view =
    (s.caps (.slot p (slotOf cfg cidx))).view.reset

/-- A deleted slot is reported, and nothing happens to any capability. -/
structure RevokesDead (cfg : Config) (s : Kernel) (p : Nat) (cidx : Word) (t : Kernel) :
    Prop where
  run : (syscallRevokeCap cfg p cidx).run s = .ok (.ret errorEmpty, t)
  live : ∀ n, t.Live n ↔ s.Live n
  caps : t.caps = s.caps

/-- Both halves of what `README.md` and the comments ask of a revocation: of a live slot and of an
    empty one. -/
def RevokeSpec (cfg : Config) (s : Kernel) (p : Nat) (cidx : Word) : Prop :=
  (s.Live (.slot p (slotOf cfg cidx)) → ∃ t, RevokesLive cfg s p cidx t) ∧
    (¬ s.Live (.slot p (slotOf cfg cidx)) → ∃ t, RevokesDead cfg s p cidx t)

/-- A live slot is reported as empty. -/
theorem not_revokesLive (h : s.Live (.slot p (slotOf cfg cidx))) (t : Kernel) :
    ¬ RevokesLive cfg s p cidx t := by
  intro hr
  have hrun := hr.run
  rw [syscallRevokeCap_run_of_live h] at hrun
  have hcode := Outcome.ret.inj (Prod.mk.inj (Except.ok.inj hrun)).1
  exact absurd hcode (by decide)

/-- A deleted slot is not. -/
theorem not_revokesDead (h : ¬ s.Live (.slot p (slotOf cfg cidx))) (t : Kernel) :
    ¬ RevokesDead cfg s p cidx t := by
  intro hr
  have hrun := hr.run
  rw [syscallRevokeCap_run_of_dead h] at hrun
  obtain ⟨_, _, -, hrun⟩ := run_bind_inv hrun
  obtain ⟨_, _, -, hrun⟩ := run_bind_inv hrun
  obtain ⟨_, _, -, hrun⟩ := run_bind_inv hrun
  have hcode := Outcome.ret.inj (Prod.mk.inj (Except.ok.inj hrun)).1
  exact absurd hcode (by decide)

/-- There is no kernel, no process and no index for which revocation does what it should: on a live
    slot it does nothing, and on an empty one it does not say so. -/
theorem revoke_never_meets_spec (cfg : Config) (s : Kernel) (p : Nat) (cidx : Word) :
    ¬ RevokeSpec cfg s p cidx := by
  rintro ⟨hlive, hdead⟩
  by_cases h : s.Live (.slot p (slotOf cfg cidx))
  · obtain ⟨t, ht⟩ := hlive h
    exact not_revokesLive h t ht
  · obtain ⟨t, ht⟩ := hdead h
    exact not_revokesDead h t ht

/-- Just booted and dispatched, the root process cannot revoke its channels. -/
theorem revoke_fails_on_channels :
    ∃ s, Reachable (Booted .virt) (Step .virt) s ∧ s.current 1 = some 0 ∧
      s.kernel.Live (.slot 0 (slotOf .virt 1)) ∧ ¬ RevokeSpec .virt s.kernel 0 1 := by
  have hlive : (virtAfter [.schedule 1 0]).kernel.Live (.slot 0 (slotOf .virt 1)) := by
    decide +kernel
  refine ⟨virtAfter [.schedule 1 0], virtAfter_reachable _, by decide +kernel, hlive, fun h => ?_⟩
  obtain ⟨t, ht⟩ := h.1 hlive
  exact not_revokesLive hlive t ht

end SepKernel
