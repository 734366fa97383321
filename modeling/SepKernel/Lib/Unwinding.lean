import SepKernel.Lib.Transition

/-!
# What an observer cannot tell

A system whose steps have one outcome at most, and an observer who sees some of them. Which steps
are seen depends on the state they start from. When a step that is not seen leaves two states alike
that were alike, and a step that is seen can be taken in the other state too and leads to states
that are alike again, then a whole run looks to the observer like the run of the steps it sees.
-/

namespace Unwinding

open Transition (exec)

variable {σ ι : Type*} {next : ι → σ → Option σ} {sees : σ → ι → Bool} {inv quiet : σ → Prop}
  {alike : σ → σ → Prop} {s s' t : σ} {l : ι} {ls : List ι}

/-- The steps of a run that are seen. -/
def seen (next : ι → σ → Option σ) (sees : σ → ι → Bool) : List ι → σ → List ι
  | [], _ => []
  | l :: ls, s =>
    match next l s with
    | none => []
    | some t => if sees s l then l :: seen next sees ls t else seen next sees ls t

/-- The observer's part of a run has the step, if it is seen. -/
theorem seen_cons_of_sees (hl : next l s = some t) (hs : sees s l = true) :
    seen next sees (l :: ls) s = l :: seen next sees ls t := by
  rw [seen, hl]
  exact if_pos hs

/-- And skips it otherwise, with the state that it leads to. -/
theorem seen_cons_of_not_sees (hl : next l s = some t) (hs : sees s l = false) :
    seen next sees (l :: ls) s = seen next sees ls t := by
  rw [seen, hl]
  exact if_neg (hs ▸ Bool.false_ne_true)

/-- The conditions on one step. `quiet` is what the other state needs for the steps that are seen
    to be possible in it. -/
structure Unwinds (next : ι → σ → Option σ) (sees : σ → ι → Bool) (inv quiet : σ → Prop)
    (alike : σ → σ → Prop) : Prop where
  keeps : ∀ s l s', inv s → next l s = some s' → inv s'
  hidden : ∀ s t l s', inv s → inv t → alike s t → sees s l = false → next l s = some s' →
    alike s' t
  shown : ∀ s t l s', inv s → inv t → quiet t → alike s t → sees s l = true →
    next l s = some s' → ∃ t', next l t = some t' ∧ quiet t' ∧ alike s' t'

/-- A run, and the run of what is seen of it from a state that is alike. -/
theorem Unwinds.run (h : Unwinds next sees inv quiet alike) (hs : inv s) (ht : inv t)
    (hq : quiet t) (ha : alike s t) (hrun : exec next ls s = some s') :
    ∃ t', exec next (seen next sees ls s) t = some t' ∧ alike s' t' := by
  induction ls generalizing s t with
  | nil =>
    obtain rfl : s = s' := Option.some.inj hrun
    exact ⟨t, rfl, ha⟩
  | cons l ls ih =>
    obtain ⟨s₁, hl, hls⟩ := Option.bind_eq_some_iff.mp hrun
    have hs₁ : inv s₁ := h.keeps s l s₁ hs hl
    cases hsees : sees s l with
    | false =>
      rw [seen_cons_of_not_sees hl hsees]
      exact ih hs₁ ht hq (h.hidden s t l s₁ hs ht ha hsees hl) hls
    | true =>
      obtain ⟨t₁, hl', hq₁, ha₁⟩ := h.shown s t l s₁ hs ht hq ha hsees hl
      obtain ⟨t', hts, ha'⟩ := ih hs₁ (h.keeps t l t₁ ht hl') hq₁ ha₁ hls
      refine ⟨t', ?_, ha'⟩
      rw [seen_cons_of_sees hl hsees, exec, hl']
      exact hts

end Unwinding
