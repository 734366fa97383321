import Mathlib.Logic.Relation

/-!
# Labelled transition systems

A system is a relation `R s l s'` — in state `s` the step `l` may lead to `s'`. This file has the
runs of a system, the states a run from an initial state reaches, and the two rules by which
everything about runs is proved: a property that each step keeps holds at the end, and a property
that each step either keeps or ends with some event holds at the end unless the event is among the
steps of the run. For the second rule a run comes with the list of its steps.
-/

namespace Transition

variable {σ ι : Type*} {R R' : σ → ι → σ → Prop} {init : σ → Prop} {I : σ → Prop}
  {s s' s'' : σ} {l : ι}

/-- A run of any length. -/
def Steps (R : σ → ι → σ → Prop) : σ → σ → Prop := Relation.ReflTransGen fun s s' => ∃ l, R s l s'

/-- The states reached from an initial state. -/
def Reachable (init : σ → Prop) (R : σ → ι → σ → Prop) (s : σ) : Prop :=
  ∃ s₀, init s₀ ∧ Steps R s₀ s

/-- Only the steps that meet a condition on the state before and the label. -/
def restrict (R : σ → ι → σ → Prop) (c : σ → ι → Prop) (s : σ) (l : ι) (s' : σ) : Prop :=
  R s l s' ∧ c s l

theorem Steps.refl (s : σ) : Steps R s s := Relation.ReflTransGen.refl

theorem Steps.snoc (h : Steps R s s') (hl : R s' l s'') : Steps R s s'' :=
  Relation.ReflTransGen.tail h ⟨l, hl⟩

theorem Steps.trans (h : Steps R s s') (h' : Steps R s' s'') : Steps R s s'' :=
  Relation.ReflTransGen.trans h h'

/-- A run of fewer kinds of steps is a run. -/
theorem Steps.mono (hR : ∀ s l s', R s l s' → R' s l s') (h : Steps R s s') : Steps R' s s' :=
  Relation.ReflTransGen.mono (fun _ _ ⟨l, hl⟩ => ⟨l, hR _ l _ hl⟩) _ _ h

/-- What each step keeps, a run keeps. -/
theorem Steps.invariant (hI : ∀ s l s', I s → R s l s' → I s') (h : Steps R s s') (hs : I s) :
    I s' := by
  induction h with
  | refl => exact hs
  | tail _ hl ih =>
    obtain ⟨l, hl⟩ := hl
    exact hI _ l _ ih hl

/-- A run together with its steps, each with the state before it, its label and the state after
    it. -/
inductive Run (R : σ → ι → σ → Prop) (s : σ) : List (σ × ι × σ) → σ → Prop
  | nil : Run R s [] s
  | snoc {es s' l s''} (h : Run R s es s') (hl : R s' l s'') : Run R s (es ++ [(s', l, s'')]) s''

/-- Forgetting which steps were taken. -/
theorem Run.steps {es : List (σ × ι × σ)} (h : Run R s es s') : Steps R s s' := by
  induction h with
  | nil => exact .refl s
  | snoc _ hl ih => exact ih.snoc hl

/-- Every run has its list of steps. -/
theorem Steps.exists_run (h : Steps R s s') : ∃ es, Run R s es s' := by
  induction h with
  | refl => exact ⟨[], .nil⟩
  | tail _ hl ih =>
    obtain ⟨es, hes⟩ := ih
    obtain ⟨l, hl⟩ := hl
    exact ⟨_, hes.snoc hl⟩

/-- What each step keeps or ends with an event, a run keeps, or the event is among its steps. -/
theorem Run.unless {es : List (σ × ι × σ)} {E : σ → ι → σ → Prop}
    (hI : ∀ s l s', I s → R s l s' → I s' ∨ E s l s') (h : Run R s es s') (hs : I s) :
    I s' ∨ ∃ t l t', (t, l, t') ∈ es ∧ E t l t' := by
  induction h with
  | nil => exact Or.inl hs
  | @snoc es s' l s'' _ hl ih =>
    rcases ih with ih | ⟨t, l', t', hmem, hE⟩
    · rcases hI s' l s'' ih hl with hkept | hE
      · exact Or.inl hkept
      · exact Or.inr ⟨s', l, s'', by simp, hE⟩
    · exact Or.inr ⟨t, l', t', by simp [hmem], hE⟩

theorem Reachable.start (h : init s) : Reachable init R s := ⟨s, h, .refl s⟩

theorem Reachable.step (h : Reachable init R s) (hl : R s l s') : Reachable init R s' :=
  let ⟨s₀, h₀, hs⟩ := h
  ⟨s₀, h₀, hs.snoc hl⟩

theorem Reachable.steps (h : Reachable init R s) (h' : Steps R s s') : Reachable init R s' :=
  let ⟨s₀, h₀, hs⟩ := h
  ⟨s₀, h₀, hs.trans h'⟩

/-- With more kinds of steps more is reachable. -/
theorem Reachable.mono (hR : ∀ s l s', R s l s' → R' s l s') (h : Reachable init R s) :
    Reachable init R' s :=
  let ⟨s₀, h₀, hs⟩ := h
  ⟨s₀, h₀, hs.mono hR⟩

/-- Dropping the condition on the steps. -/
theorem Reachable.unrestrict {c : σ → ι → Prop} (h : Reachable init (restrict R c) s) :
    Reachable init R s := h.mono fun _ _ _ hl => hl.1

/-- An inductive invariant holds in every reachable state. -/
theorem Reachable.invariant (h₀ : ∀ s, init s → I s) (hI : ∀ s l s', I s → R s l s' → I s')
    (h : Reachable init R s) : I s :=
  let ⟨s₀, hs₀, hs⟩ := h
  hs.invariant hI (h₀ s₀ hs₀)

/-- A system that goes with another: each of its steps is some steps of the other, or none. -/
theorem Reachable.simulates {τ κ : Type*} {A : τ → κ → τ → Prop} {start : τ → Prop}
    {rel : σ → τ → Prop} (h₀ : ∀ s, init s → ∃ t, start t ∧ rel s t)
    (hR : ∀ s t l s', rel s t → R s l s' → ∃ t', Steps A t t' ∧ rel s' t')
    (h : Reachable init R s) : ∃ t, Reachable start A t ∧ rel s t := by
  refine h.invariant (I := fun s => ∃ t, Reachable start A t ∧ rel s t) (fun s hs => ?_)
    fun s l s' hI hl => ?_
  · obtain ⟨t, ht, hrel⟩ := h₀ s hs
    exact ⟨t, .start ht, hrel⟩
  · obtain ⟨t, ht, hrel⟩ := hI
    obtain ⟨t', hsteps, hrel'⟩ := hR s t l s' hrel hl
    exact ⟨t', ht.steps hsteps, hrel'⟩

/-- A fixed sequence of steps of a system given by a partial function. -/
def exec (f : ι → σ → Option σ) : List ι → σ → Option σ
  | [], s => some s
  | l :: ls, s => (f l s).bind (exec f ls)

/-- An execution of a list of labels is a run. -/
theorem steps_of_exec {f : ι → σ → Option σ} (hf : ∀ s l s', f l s = some s' → R s l s') :
    ∀ {ls : List ι} {s s' : σ}, exec f ls s = some s' → Steps R s s'
  | [], s, s', h => by
    obtain rfl : s = s' := by simpa [exec] using h
    exact .refl s
  | l :: ls, s, s', h => by
    obtain ⟨t, ht, hts⟩ := Option.bind_eq_some_iff.mp h
    exact Relation.ReflTransGen.head ⟨l, hf s l t ht⟩ (steps_of_exec hf hts)

/-- Where a sequence of steps leads, if it is possible, is reached. -/
theorem steps_getD_exec {f : ι → σ → Option σ} (hf : ∀ s l s', f l s = some s' → R s l s')
    (ls : List ι) (s : σ) : Steps R s ((exec f ls s).getD s) := by
  cases h : exec f ls s with
  | none => exact .refl s
  | some s' => exact steps_of_exec hf h

/-- The steps of a partial function that meet a condition. -/
def guarded (f : ι → σ → Option σ) (c : σ → ι → Prop) [∀ s l, Decidable (c s l)] (l : ι) (s : σ) :
    Option σ := if c s l then f l s else none

theorem restrict_of_guarded {f : ι → σ → Option σ} {c : σ → ι → Prop} [∀ s l, Decidable (c s l)]
    (hf : ∀ s l s', f l s = some s' → R s l s') (s : σ) (l : ι) (s' : σ)
    (h : guarded f c l s = some s') : restrict R c s l s' := by
  rw [guarded] at h
  split at h
  · rename_i hc
    exact ⟨hf s l s' h, hc⟩
  · cases h

end Transition
