import Mathlib.Data.Nat.Digits.Lemmas

/-!
# Numerals

A number as it is written down: its digits in some base from the most significant on, with one
digit for zero. Mathlib's `Nat.digits` has the same digits in the other order and none for zero.
-/

namespace Numeral

variable {base n k : Nat}

/-- The digits of `n`, in the order they are written. -/
def digits (base n : Nat) : List Nat := if n = 0 then [0] else (Nat.digits base n).reverse

/-- The number that a sequence of digits is read as. -/
def value (base : Nat) (ds : List Nat) : Nat := Nat.ofDigits base ds.reverse

theorem digits_of_lt (h : n < base) : digits base n = [n] := by
  by_cases hn : n = 0
  · rw [digits, if_pos hn, hn]
  · rw [digits, if_neg hn, Nat.digits_of_lt base n hn h]
    rfl

/-- The last digit comes off the end, as a printer finds it. -/
theorem digits_of_le (hb : 1 < base) (h : base ≤ n) :
    digits base n = digits base (n / base) ++ [n % base] := by
  have hn : 0 < n := by omega
  have hdiv : n / base ≠ 0 := by
    have := Nat.div_pos h (by omega)
    omega
  rw [digits, if_neg hn.ne', digits, if_neg hdiv, Nat.digits_def' hb hn, List.reverse_cons]

theorem digits_ne_nil : digits base n ≠ [] := by
  unfold digits
  split
  · simp
  · simpa [Nat.digits_eq_nil_iff_eq_zero]

theorem length_pos : 0 < (digits base n).length := List.length_pos_iff.mpr digits_ne_nil

/-- A number below a power has no more digits than the exponent. -/
theorem length_le (hb : 1 < base) (hk : 0 < k) (h : n < base ^ k) :
    (digits base n).length ≤ k := by
  unfold digits
  split
  · exact hk
  · rw [List.length_reverse]
    exact (Nat.digits_length_le_iff hb n).mpr h

/-- Digits are below the base. -/
theorem lt_of_mem (hb : 1 < base) {d : Nat} (h : d ∈ digits base n) : d < base := by
  unfold digits at h
  split at h
  · rw [List.mem_singleton.mp h]
    omega
  · exact Nat.digits_lt_base hb (List.mem_reverse.mp h)

/-- What is written is read back. -/
theorem value_digits (base n : Nat) : value base (digits base n) = n := by
  unfold value digits
  split
  · next h => simp [h]
  · rw [List.reverse_reverse, Nat.ofDigits_digits]

theorem value_cons (base d : Nat) (ds : List Nat) :
    value base (d :: ds) = d * base ^ ds.length + value base ds := by
  rw [value, List.reverse_cons, Nat.ofDigits_append, List.length_reverse, Nat.ofDigits_singleton,
    value]
  ring

/-- Leading zeros are read as nothing. -/
theorem value_zeros_append (base m : Nat) (ds : List Nat) :
    value base (List.replicate m 0 ++ ds) = value base ds := by
  rw [value, List.reverse_append, List.reverse_replicate, Nat.ofDigits_append_replicate_zero]
  rfl

end Numeral
