import Mathlib.Data.Nat.Bitwise

/-!
# Naturally aligned powers of two

A number encodes an aligned block by its trailing ones: `y · 2^(k+1) + (2^k - 1)` stands for the
`2^(k+1)` numbers from `y · 2^(k+1)`. Clearing the trailing ones, `a &&& (a + 1)`, gives the first
number of the block; setting the lowest zero, `a ||| (a + 1)`, gives the last one. Both facts are
proved by peeling one trailing one at a time.
-/

namespace Napot

/-- `a` is `y` followed by a zero and `k` ones. -/
def Encodes (a y k : Nat) : Prop := a = y * 2 ^ (k + 1) + (2 ^ k - 1)

/-- First and last number of the block `a` encodes. -/
def first (a : Nat) : Nat := a &&& (a + 1)

/-- The trailing zeros that were cleared, filled up. -/
def last (a : Nat) : Nat := a ||| (a + 1)

theorem Encodes.even (b : Nat) : Encodes (2 * b) b 0 := by
  unfold Encodes
  omega

/-- One more trailing one. -/
theorem Encodes.odd {b y k : Nat} (h : Encodes b y k) : Encodes (2 * b + 1) y (k + 1) := by
  unfold Encodes at *
  have hk : 0 < 2 ^ k := Nat.two_pow_pos k
  have h1 : 2 ^ (k + 1) = 2 * 2 ^ k := by rw [Nat.pow_succ, Nat.mul_comm]
  have h2 : y * 2 ^ (k + 1 + 1) = 2 * (y * 2 ^ (k + 1)) := by
    rw [Nat.pow_succ 2 (k + 1), ← Nat.mul_assoc, Nat.mul_comm]
  rw [h2, h]
  omega

/-- Every number encodes a block. -/
theorem exists_encodes (a : Nat) : ∃ y k, Encodes a y k := by
  induction a using Nat.strongRecOn with
  | ind a ih =>
    rcases Nat.even_or_odd' a with ⟨b, rfl | rfl⟩
    · exact ⟨b, 0, .even b⟩
    · obtain ⟨y, k, h⟩ := ih b (by omega)
      exact ⟨y, k + 1, h.odd⟩

/-! ## First and last -/

/-- An even number is a block of two, itself and the next. -/
theorem first_even (b : Nat) : first (2 * b) = 2 * b := by
  apply Nat.eq_of_testBit_eq
  intro i
  cases i with
  | zero => simp [first]
  | succ i =>
    rw [first, Nat.testBit_and, Nat.testBit_succ, Nat.testBit_succ,
      show (2 * b + 1) / 2 = b by omega, show 2 * b / 2 = b by omega, Bool.and_self]

theorem last_even (b : Nat) : last (2 * b) = 2 * b + 1 := by
  apply Nat.eq_of_testBit_eq
  intro i
  cases i with
  | zero => simp [last]
  | succ i =>
    rw [last, Nat.testBit_or, Nat.testBit_succ, Nat.testBit_succ,
      show (2 * b + 1) / 2 = b by omega, show 2 * b / 2 = b by omega, Bool.or_self]

/-- A trailing one doubles the block of the number in front of it. -/
theorem first_odd (b : Nat) : first (2 * b + 1) = 2 * first b := by
  apply Nat.eq_of_testBit_eq
  intro i
  cases i with
  | zero => simp [first]; omega
  | succ i =>
    rw [first, first, Nat.testBit_and, Nat.testBit_succ, Nat.testBit_succ, Nat.testBit_succ,
      show (2 * b + 1) / 2 = b by omega, show (2 * b + 1 + 1) / 2 = b + 1 by omega,
      show 2 * (b &&& (b + 1)) / 2 = b &&& (b + 1) by omega, Nat.testBit_and]

theorem last_odd (b : Nat) : last (2 * b + 1) = 2 * last b + 1 := by
  apply Nat.eq_of_testBit_eq
  intro i
  cases i with
  | zero => simp [last]
  | succ i =>
    rw [last, last, Nat.testBit_or, Nat.testBit_succ, Nat.testBit_succ, Nat.testBit_succ,
      show (2 * b + 1) / 2 = b by omega, show (2 * b + 1 + 1) / 2 = b + 1 by omega,
      show (2 * (b ||| (b + 1)) + 1) / 2 = b ||| (b + 1) by omega, Nat.testBit_or]

/-- The first number of a block. -/
theorem Encodes.first_eq {a y k : Nat} (h : Encodes a y k) : first a = y * 2 ^ (k + 1) := by
  induction k generalizing a with
  | zero =>
    obtain rfl : a = 2 * y := by unfold Encodes at h; omega
    rw [first_even]
    omega
  | succ k ih =>
    obtain ⟨b, hb, rfl⟩ : ∃ b, Encodes b y k ∧ a = 2 * b + 1 :=
      ⟨_, rfl, h.trans (Encodes.odd rfl).symm⟩
    rw [first_odd, ih hb, Nat.pow_succ 2 (k + 1), Nat.mul_comm (2 ^ (k + 1)) 2,
      Nat.mul_left_comm]

/-- And the last. -/
theorem Encodes.last_eq {a y k : Nat} (h : Encodes a y k) :
    last a = y * 2 ^ (k + 1) + (2 ^ (k + 1) - 1) := by
  induction k generalizing a with
  | zero =>
    obtain rfl : a = 2 * y := by unfold Encodes at h; omega
    rw [last_even]
    omega
  | succ k ih =>
    obtain ⟨b, hb, rfl⟩ : ∃ b, Encodes b y k ∧ a = 2 * b + 1 :=
      ⟨_, rfl, h.trans (Encodes.odd rfl).symm⟩
    have hk : 0 < 2 ^ (k + 1) := Nat.two_pow_pos _
    have h1 : 2 ^ (k + 1 + 1) = 2 * 2 ^ (k + 1) := by rw [Nat.pow_succ, Nat.mul_comm]
    have h2 : y * 2 ^ (k + 1 + 1) = 2 * (y * 2 ^ (k + 1)) := by
      rw [h1, Nat.mul_left_comm]
    rw [last_odd, ih hb, h2, h1]
    omega

/-- Only an even number is the first of the block it encodes. -/
theorem first_eq_self_iff {a : Nat} : first a = a ↔ a % 2 = 0 := by
  obtain ⟨b, rfl | rfl⟩ := Nat.even_or_odd' a
  · rw [first_even]
    omega
  · rw [first_odd]
    have hle : first b ≤ b := Nat.and_le_left
    omega

/-- Every number is in the block it encodes. -/
theorem mem_block (a : Nat) : first a ≤ a ∧ a ≤ last a :=
  ⟨Nat.and_le_left, Nat.left_le_or⟩

/-- A block has at least two numbers. -/
theorem first_lt_last (a : Nat) : first a < last a := by
  obtain ⟨y, k, h⟩ := exists_encodes a
  have hk : 2 ≤ 2 ^ (k + 1) := by
    rw [Nat.pow_succ]
    have := Nat.two_pow_pos k
    omega
  rw [h.first_eq, h.last_eq]
  omega

/-- Appending `j` trailing ones scales the block by `2 ^ j`. -/
theorem Encodes.append_ones {a y k : Nat} (h : Encodes a y k) (j : Nat) :
    Encodes (a * 2 ^ j + (2 ^ j - 1)) y (k + j) := by
  induction j with
  | zero => simpa using h
  | succ j ih =>
    have hj : 0 < 2 ^ j := Nat.two_pow_pos j
    have h1 : a * 2 ^ (j + 1) + (2 ^ (j + 1) - 1) = 2 * (a * 2 ^ j + (2 ^ j - 1)) + 1 := by
      rw [Nat.pow_succ 2 j, ← Nat.mul_assoc]
      omega
    rw [h1]
    exact ih.odd

/-- The encoding is unambiguous. -/
theorem Encodes.unique {a y k y' k' : Nat} (h : Encodes a y k) (h' : Encodes a y' k') :
    y = y' ∧ k = k' := by
  induction k generalizing a k' with
  | zero =>
    obtain rfl : a = 2 * y := by unfold Encodes at h; omega
    cases k' with
    | zero => unfold Encodes at h'; omega
    | succ k' =>
      have : 2 * y = 2 * (y' * 2 ^ (k' + 1) + (2 ^ k' - 1)) + 1 := h'.trans (Encodes.odd rfl).symm
      omega
  | succ k ih =>
    obtain ⟨b, hb, rfl⟩ : ∃ b, Encodes b y k ∧ a = 2 * b + 1 :=
      ⟨_, rfl, h.trans (Encodes.odd rfl).symm⟩
    cases k' with
    | zero => unfold Encodes at h'; omega
    | succ k' =>
      have h2 : 2 * b + 1 = 2 * (y' * 2 ^ (k' + 1) + (2 ^ k' - 1)) + 1 :=
        h'.trans (Encodes.odd rfl).symm
      obtain ⟨hy, hk⟩ := ih hb (show Encodes b y' k' by unfold Encodes; omega)
      exact ⟨hy, by rw [hk]⟩

end Napot
