import Mathlib.Algebra.BigOperators.Fin
import Mathlib.Data.Fintype.Basic

/-!
# Packing into bins

Items of given sizes and bins of given capacities. A distribution of the items over the bins
respects the capacities if no bin has more in it than it can hold; whether there is one can be
decided item by item, by trying the bins for the first item and going on with what is left.
-/

namespace BinPacking

variable {κ : Type*} [DecidableEq κ] {capacity : κ → ℕ} {s : ℕ} {sizes : List ℕ} {k : κ}

/-- The distribution `bin` puts no more into a bin than it can hold. -/
def Respects (capacity : κ → ℕ) (sizes : List ℕ) (bin : Fin sizes.length → κ) : Prop :=
  ∀ k, ∑ j with bin j = k, sizes.get j ≤ capacity k

/-- Some distribution respects the capacities. -/
def Packable (capacity : κ → ℕ) (sizes : List ℕ) : Prop := ∃ bin, Respects capacity sizes bin

theorem packable_nil : Packable capacity [] := ⟨nofun, fun _ => Nat.zero_le _⟩

/-- What a distribution puts into a bin, the first item apart. -/
theorem sum_cons (bin : Fin (s :: sizes).length → κ) (k : κ) :
    ∑ j with bin j = k, (s :: sizes).get j =
      (if bin 0 = k then s else 0) + ∑ j with bin j.succ = k, sizes.get j := by
  rw [Finset.sum_filter, Finset.sum_filter]
  exact Fin.sum_univ_succ _

/-- The first item goes into a bin that has room for it, and the rest into what is left. -/
theorem packable_cons : Packable capacity (s :: sizes) ↔
    ∃ k, s ≤ capacity k ∧ Packable (Function.update capacity k (capacity k - s)) sizes := by
  constructor
  · rintro ⟨bin, hbin⟩
    have hfirst := hbin (bin 0)
    rw [sum_cons, if_pos rfl] at hfirst
    refine ⟨bin 0, (Nat.le_add_right _ _).trans hfirst, fun j => bin j.succ, fun k => ?_⟩
    by_cases hk : k = bin 0
    · rw [hk, Function.update_self]
      exact Nat.le_sub_of_add_le' hfirst
    · have hrest := hbin k
      rw [sum_cons, if_neg (Ne.symm hk), Nat.zero_add] at hrest
      rwa [Function.update_of_ne hk]
  · rintro ⟨k₀, hroom, bin, hbin⟩
    refine ⟨Fin.cons k₀ bin, fun k => ?_⟩
    have hrest := hbin k
    rw [sum_cons, Fin.cons_zero]
    simp only [Fin.cons_succ]
    by_cases hk : k = k₀
    · rw [hk, Function.update_self] at hrest
      rw [if_pos hk.symm, hk]
      omega
    · rw [Function.update_of_ne hk] at hrest
      rwa [if_neg (Ne.symm hk), Nat.zero_add]

end BinPacking
