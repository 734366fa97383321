import Mathlib.Data.Set.Function
import Mathlib.Data.Set.Lattice
import Mathlib.Logic.Pairwise
import Mathlib.Order.CompletePartialOrder

/-!
# Exclusive ownership

Holders `i` own sets of resources. Ownership is exclusive when no resource has two owners. What
preserves it is provenance: if after a step each holder owns only what some holder owned before,
and two holders that draw on the same former owner draw on disjoint parts, no resource gained
a second owner. Splitting a share, handing it over and dropping it are the three cases.
-/

namespace Exclusive

variable {ι R : Type*} {own own' : ι → Set R} {i j src dst : ι} {r : R}

/-- No resource has two owners. -/
def Excl (own : ι → Set R) : Prop := Pairwise (Function.onFun Disjoint own)

theorem Excl.eq (h : Excl own) (hi : r ∈ own i) (hj : r ∈ own j) : i = j := by
  by_contra hij
  exact Set.disjoint_left.mp (h hij) hi hj

theorem excl_of_eq (h : ∀ i j r, r ∈ own i → r ∈ own j → i = j) : Excl own := fun _ _ hij =>
  Set.disjoint_left.mpr fun r hi hj => hij (h _ _ r hi hj)

/-- The provenance rule. -/
theorem Excl.of_provenance (h : Excl own) (f : ι → ι) (hf : ∀ i, own' i ⊆ own (f i))
    (hd : ∀ i j, f i = f j → i ≠ j → Disjoint (own' i) (own' j)) : Excl own' := by
  intro i j hij
  by_cases hfij : f i = f j
  · exact hd i j hfij hij
  · exact Disjoint.mono (hf i) (hf j) (h hfij)

section

variable [DecidableEq ι]

/-- `dst`, which owned nothing, gets a part of what `src` owns; `src` keeps a disjoint part. -/
theorem Excl.split (h : Excl own) (src dst : ι) (hne : src ≠ dst) (hdst : own dst = ∅)
    (hs : own' src ⊆ own src) (hd : own' dst ⊆ own src) (hdisj : Disjoint (own' src) (own' dst))
    (ho : ∀ i, i ≠ src → i ≠ dst → own' i = own i) : Excl own' := by
  refine h.of_provenance (Function.update id dst src) (fun i => ?_) fun i j hij hne' => ?_
  · by_cases hi : i = dst
    · subst hi
      simpa using hd
    · rw [Function.update_of_ne hi]
      by_cases hi' : i = src
      · exact hi' ▸ hs
      · exact (ho i hi' hi).subset
  · by_cases hi : i = dst <;> by_cases hj : j = dst
    · exact absurd (hi.trans hj.symm) hne'
    · rw [hi, Function.update_self, Function.update_of_ne hj, id] at hij
      rw [hi, ← hij]
      exact hdisj.symm
    · rw [hj, Function.update_self, Function.update_of_ne hi, id] at hij
      rw [hj, hij]
      exact hdisj
    · rw [Function.update_of_ne hi, Function.update_of_ne hj] at hij
      exact absurd hij hne'

/-- `dst` takes over what `src` owns. -/
theorem Excl.transfer (h : Excl own) (src dst : ι) (hs : own' src = ∅) (hd : own' dst ⊆ own src)
    (ho : ∀ i, i ≠ src → i ≠ dst → own' i ⊆ own i) : Excl own' := by
  refine h.of_provenance (Function.update id dst src) (fun i => ?_) fun i j hij hne' => ?_
  · by_cases hi : i = dst
    · subst hi
      simpa using hd
    · rw [Function.update_of_ne hi]
      by_cases hi' : i = src
      · simp [hi', hs]
      · exact ho i hi' hi
  · by_cases hi : i = dst <;> by_cases hj : j = dst
    · exact absurd (hi.trans hj.symm) hne'
    · rw [hi, Function.update_self, Function.update_of_ne hj, id] at hij
      simp [← hij, hs]
    · rw [hj, Function.update_self, Function.update_of_ne hi, id] at hij
      simp [hij, hs]
    · rw [Function.update_of_ne hi, Function.update_of_ne hj] at hij
      exact absurd hij hne'

end

/-- Shares only shrink. -/
theorem Excl.shrink (h : Excl own) (ho : ∀ i, own' i ⊆ own i) : Excl own' :=
  h.of_provenance id ho fun _ _ hij hne => absurd hij hne

end Exclusive
