import Mathlib.Logic.Basic

/-!
# Two runs of one program

A program with a state that may fail, run from two states that are related: both runs fail with
the same error, or both return the same value and leave related states. Such an agreement is put
together along the program, one rule for each way of making a program from smaller ones.
-/

namespace TwoRuns

variable {σ ε α β : Type} {R : σ → σ → Prop} {s t s' t' : σ} {a b : α}

/-- How the two runs end. -/
inductive Ends (R : σ → σ → Prop) : Except ε (α × σ) → Except ε (α × σ) → Prop where
  | ok (a : α) {s t : σ} (h : R s t) : Ends R (.ok (a, s)) (.ok (a, t))
  | error (e : ε) : Ends R (.error e) (.error e)

/-- The program agrees from `s` and `t`. -/
def Agrees (R : σ → σ → Prop) (m : StateT σ (Except ε) α) (s t : σ) : Prop :=
  Ends R (m.run s) (m.run t)

namespace Agrees

variable {m : StateT σ (Except ε) α} {f : α → StateT σ (Except ε) β}

/-- Two computations that are known agree if they return one value and related states. -/
theorem of_runs (hs : m.run s = .ok (a, s')) (ht : m.run t = .ok (a, t')) (h : R s' t') :
    Agrees R m s t := by
  rw [Agrees, hs, ht]
  exact .ok a h

/-- Or fail in the same way. -/
theorem of_errors {e : ε} (hs : m.run s = .error e) (ht : m.run t = .error e) :
    Agrees R m s t := by
  rw [Agrees, hs, ht]
  exact .error e

theorem pure (a : α) (h : R s t) : Agrees R (Pure.pure a : StateT σ (Except ε) α) s t := .ok a h

/-- A computation that neither reads nor writes the state. -/
theorem lift (x : Except ε α) (h : R s t) :
    Agrees R (liftM x : StateT σ (Except ε) α) s t := by
  cases x with
  | ok a => exact .ok a h
  | error e => exact .error e

theorem throw (e : ε) : Agrees R (MonadExcept.throw e : StateT σ (Except ε) α) s t := .error e

theorem update {g : σ → σ} (h : R (g s) (g t)) :
    Agrees R (modify g : StateT σ (Except ε) Unit) s t := .ok () h

/-- One after the other. What the first returned is there for the second. -/
theorem bind (hm : Agrees R m s t)
    (hf : ∀ a s' t', m.run s = .ok (a, s') → m.run t = .ok (a, t') → R s' t' →
      Agrees R (f a) s' t') : Agrees R (m >>= f) s t := by
  rw [Agrees, StateT.run_bind, StateT.run_bind]
  rw [Agrees] at hm
  generalize hx : m.run s = x at hm
  generalize hy : m.run t = y at hm
  cases hm with
  | ok a h => exact hf a _ _ hx hy h
  | error e => exact .error e

/-- A program that first computes without the state. -/
theorem bind_lift {x : Except ε α} (hf : ∀ a, x = .ok a → Agrees R (f a) s t) :
    Agrees R (liftM x >>= f) s t := by
  cases x with
  | ok a => exact hf a rfl
  | error e => exact .error e

/-- A program that reads the state. -/
theorem bind_get {g : σ → StateT σ (Except ε) β} (h : Ends R ((g s).run s) ((g t).run t)) :
    Agrees R (get >>= g) s t := by
  rw [Agrees, StateT.run_bind, StateT.run_bind]
  exact h

/-- A condition that does not depend on the state. -/
theorem ite {c : Prop} [Decidable c] {m' : StateT σ (Except ε) α} (h : c → Agrees R m s t)
    (h' : ¬ c → Agrees R m' s t) : Agrees R (if c then m else m') s t := by
  by_cases hc : c
  · rw [if_pos hc]
    exact h hc
  · rw [if_neg hc]
    exact h' hc

/-- The two runs end alike in the second, if it is known how they end in the first. -/
theorem ok_left (h : Agrees R m s t) (hs : m.run s = .ok (a, s')) :
    ∃ t', m.run t = .ok (a, t') ∧ R s' t' := by
  rw [Agrees, hs] at h
  generalize hy : m.run t = y at h
  cases h with
  | ok a h => exact ⟨_, rfl, h⟩

/-- And the other way round. -/
theorem ok_right (h : Agrees R m s t) (ht : m.run t = .ok (a, t')) :
    ∃ s', m.run s = .ok (a, s') ∧ R s' t' := by
  rw [Agrees, ht] at h
  generalize hx : m.run s = x at h
  cases h with
  | ok a h => exact ⟨_, rfl, h⟩

/-- A loop whose body agrees from related states agrees. -/
theorem foldlM {γ : Type} {g : β → γ → StateT σ (Except ε) β} {l : List γ} (h : R s t) (b : β)
    (hg : ∀ b c, c ∈ l → ∀ s t, R s t → Agrees R (g b c) s t) :
    Agrees R (l.foldlM g b) s t := by
  induction l generalizing s t b with
  | nil => exact pure b h
  | cons c l ih =>
    rw [List.foldlM_cons]
    refine bind (hg b c (List.mem_cons_self ..) s t h) fun b' s' t' _ _ h' => ?_
    exact ih h' b' fun b c hc => hg b c (List.mem_cons_of_mem _ hc)

end Agrees

/-! ## What a program does not look at -/

/-- Whether the state is changed by `g` before the program or after it is all the same. -/
def Ignores (g : σ → σ) (m : StateT σ (Except ε) α) : Prop :=
  ∀ s, m.run (g s) = (m.run s).map fun x => (x.1, g x.2)

namespace Ignores

variable {m : StateT σ (Except ε) α} {f : α → StateT σ (Except ε) β} {g : σ → σ}

theorem pure (a : α) : Ignores g (Pure.pure a : StateT σ (Except ε) α) := fun _ => rfl

theorem lift (x : Except ε α) : Ignores g (liftM x : StateT σ (Except ε) α) := fun _ => by
  cases x <;> rfl

theorem throw (e : ε) : Ignores g (MonadExcept.throw e : StateT σ (Except ε) α) := fun _ => rfl

theorem update {f : σ → σ} (h : ∀ s, f (g s) = g (f s)) :
    Ignores g (modify f : StateT σ (Except ε) Unit) := fun s => by
  change Except.ok ((), f (g s)) = Except.ok ((), g (f s))
  rw [h]

/-- What is ignored by both parts is ignored by the whole. -/
theorem bind (hm : Ignores g m) (hf : ∀ a, Ignores g (f a)) : Ignores g (m >>= f) := fun s => by
  rw [StateT.run_bind, StateT.run_bind, hm]
  cases m.run s with
  | ok x => exact hf x.1 x.2
  | error e => rfl

/-- Reading the state is harmless if what follows does not use what was changed. -/
theorem bind_get {f : σ → StateT σ (Except ε) β} (h : ∀ s, f (g s) = f s)
    (hf : ∀ s, Ignores g (f s)) : Ignores g (get >>= f) := fun s => by
  rw [StateT.run_bind, StateT.run_bind]
  change (f (g s)).run (g s) = ((f s).run s).map _
  rw [h]
  exact hf s s

theorem ite {c : Prop} [Decidable c] {m' : StateT σ (Except ε) α} (h : Ignores g m)
    (h' : Ignores g m') : Ignores g (if c then m else m') := by
  by_cases hc : c
  · rw [if_pos hc]
    exact h
  · rw [if_neg hc]
    exact h'

end Ignores
end TwoRuns
