import SepKernel.Lib.Transition

/-!
# Traces

A step of a labelled system may be seen from outside, by its label, or be silent. The trace of a
run is the list of the labels that are seen. A detailed system refines a plainer one, given by a
partial function, if the plainer one can follow each of its traces, and is no coarser than needed if
it can go through each trace that the plainer one has.
-/

namespace Transition

variable {σ τ ι : Type*}

/-- A run and the labels of its steps, of those that have one. -/
inductive Traces (R : σ → Option ι → σ → Prop) (s : σ) : List ι → σ → Prop
  | refl : Traces R s [] s
  | snoc {ls o s' s''} (h : Traces R s ls s') (ho : R s' o s'') : Traces R s (ls ++ o.toList) s''

variable {R : σ → Option ι → σ → Prop} {f : ι → τ → Option τ} {rel : σ → τ → Prop} {s s' s'' : σ}
  {o : Option ι} {ls ls' : List ι}

namespace Traces

theorem single (h : R s o s') : Traces R s o.toList s' := .snoc .refl h

/-- Runs are put together, and so are their labels. -/
theorem trans (h : Traces R s ls s') (h' : Traces R s' ls' s'') : Traces R s (ls ++ ls') s'' := by
  induction h' with
  | refl =>
    rw [List.append_nil]
    exact h
  | snoc _ ho ih =>
    rw [← List.append_assoc]
    exact ih.snoc ho

/-- More steps allow the same labels. -/
theorem mono {R' : σ → Option ι → σ → Prop} (hR : ∀ s o s', R s o s' → R' s o s')
    (h : Traces R s ls s') : Traces R' s ls s' := by
  induction h with
  | refl => exact .refl
  | snoc _ ho ih => exact ih.snoc (hR _ _ _ ho)

/-- Two runs of which the second shows nothing. -/
theorem trans_nil (h : Traces R s ls s') (h' : Traces R s' [] s'') : Traces R s ls s'' := by
  have hs := h.trans h'
  rwa [List.append_nil] at hs

end Traces

/-- The abstract side is executed piece by piece. -/
theorem exec_append (f : ι → τ → Option τ) (ls ls' : List ι) (t : τ) :
    exec f (ls ++ ls') t = (exec f ls t).bind (exec f ls') := by
  induction ls generalizing t with
  | nil => rfl
  | cons l ls ih =>
    rw [List.cons_append, exec, exec, Option.bind_assoc]
    exact congrArg _ (funext ih)

/-- Each step of the one system is a step of the other with its label, or none if it is silent. -/
theorem Traces.simulates
    (hR : ∀ s t o s', rel s t → R s o s' → ∃ t', exec f o.toList t = some t' ∧ rel s' t')
    (h : Traces R s ls s') {t : τ} (hrel : rel s t) : ∃ t', exec f ls t = some t' ∧ rel s' t' := by
  induction h with
  | refl => exact ⟨t, rfl, hrel⟩
  | snoc _ ho ih =>
    obtain ⟨t₁, ht₁, hrel₁⟩ := ih
    obtain ⟨t₂, ht₂, hrel₂⟩ := hR _ t₁ _ _ hrel₁ ho
    refine ⟨t₂, ?_, hrel₂⟩
    rw [exec_append, ht₁]
    exact ht₂

/-- Each step of the other is a run of the one that shows the label `g l` and nothing else. -/
theorem Traces.realizes {κ : Type*} {f : κ → τ → Option τ} {g : κ → ι} {c : κ → Prop}
    (hf : ∀ s t l t', c l → rel s t → f l t = some t' → ∃ s', Traces R s [g l] s' ∧ rel s' t') :
    ∀ {ls s t t'}, (∀ l ∈ ls, c l) → exec f ls t = some t' → rel s t →
      ∃ s', Traces R s (ls.map g) s' ∧ rel s' t'
  | [], s, t, t', _, h, hrel => by
    obtain rfl : t = t' := Option.some.inj h
    exact ⟨s, .refl, hrel⟩
  | l :: ls, s, t, t', hc, h, hrel => by
    obtain ⟨hl, hls⟩ := List.forall_mem_cons.mp hc
    obtain ⟨t₁, ht₁, h⟩ := Option.bind_eq_some_iff.mp h
    obtain ⟨s₁, hs₁, hrel₁⟩ := hf s t l t₁ hl hrel ht₁
    obtain ⟨s₂, hs₂, hrel₂⟩ := realizes hf hls h hrel₁
    exact ⟨s₂, hs₁.trans hs₂, hrel₂⟩

end Transition
