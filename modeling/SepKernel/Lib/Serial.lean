import SepKernel.Lib.Transition
import Mathlib.Data.List.Basic

/-!
# Sections of code and their serial runs

A section does a job on some data, one access after the other, and agents that run sections of the
same data want the outcome to be that of running them one after the other. This file says what
that is: the run of one section by itself, and a list of jobs done in this way. What every section
keeps then holds after all of them, and where a section has the effect of a function, the jobs have
that of the functions in turn.
-/

namespace Serial

open Transition (Steps)

variable {σ δ γ ω : Type*}

/-- A job begins with some local variables. Each access may use something that is read outside of
    the data, and there is none at the end. -/
structure Section (σ δ γ ω : Type*) where
  begins : δ → γ
  next : γ → Option (ω → σ → γ × σ)

namespace Section

variable (S : Section σ δ γ ω)

/-- One access, on the local variables and the data. -/
def Access (x : γ × σ) (o : ω) (x' : γ × σ) : Prop := ∃ f, S.next x.1 = some f ∧ f o x.2 = x'

/-- The job `j` on the data `d`, up to some point. -/
def Runs (j : δ) (d : σ) (g : γ) (d' : σ) : Prop := Steps S.Access (S.begins j, d) (g, d')

/-- The job `j` to its end. -/
def Does (j : δ) (d : σ) (g : γ) (d' : σ) : Prop := S.Runs j d g d' ∧ S.next g = none

/-- Jobs done one after the other, each with the local variables at its end. -/
inductive DoesAll (d : σ) : List (δ × γ) → σ → Prop where
  | nil : DoesAll d [] d
  | snoc {done : List (δ × γ)} {d₁ d₂ : σ} {j : δ} {g : γ} (h : DoesAll d done d₁)
      (hj : S.Does j d₁ g d₂) : DoesAll d (done ++ [(j, g)]) d₂

variable {S} {d d' d'' : σ} {g g' : γ} {j : δ} {o : ω} {done : List (δ × γ)}

theorem Runs.refl (j : δ) (d : σ) : S.Runs j d (S.begins j) d := Steps.refl _

/-- One more access of the same call. -/
theorem Runs.access {f : ω → σ → γ × σ} (h : S.Runs j d g d') (hf : S.next g = some f) (o : ω) :
    S.Runs j d (f o d').1 (f o d').2 :=
  Steps.snoc h (l := o) ⟨f, hf, rfl⟩

/-- What holds at the beginning and is kept by each access holds all the way. -/
theorem Runs.invariant {I : γ → σ → Prop}
    (hI : ∀ g d f o, I g d → S.next g = some f → I (f o d).1 (f o d).2)
    (h : S.Runs j d g d') (hs : I (S.begins j) d) : I g d' := by
  refine Steps.invariant (I := fun x => I x.1 x.2) (fun x o x' hx hl => ?_) h hs
  obtain ⟨f, hf, rfl⟩ := hl
  exact hI _ _ f o hx hf

/-- Where every job has the effect of a function, the jobs have that of the functions in turn. -/
theorem DoesAll.foldl {f : σ → δ × γ → σ}
    (hf : ∀ j d g d', S.Does j d g d' → d' = f d (j, g)) (h : S.DoesAll d done d') :
    d' = done.foldl f d := by
  induction h with
  | nil => rfl
  | snoc h hj ih => rw [List.foldl_append, ← ih, hf _ _ _ _ hj, List.foldl_cons, List.foldl_nil]

/-- What every call makes of itself holds of all that have been made. -/
theorem DoesAll.forall_mem {P : δ → γ → Prop} (hP : ∀ j d g d', S.Does j d g d' → P j g)
    (h : S.DoesAll d done d') : ∀ x ∈ done, P x.1 x.2 := by
  induction h with
  | nil => exact List.forall_mem_nil _
  | snoc h hj ih => exact List.forall_mem_append.mpr ⟨ih, List.forall_mem_singleton.mpr (hP _ _ _ _ hj)⟩

end Section
end Serial
