import Mathlib.Data.Nat.Bitwise

/-!
# Bit fields of a machine word

A packed record keeps each of its fields in `n` consecutive bits of a word, from bit `off` up.
Reading a field is a shift and a mask; writing one clears the bits under the shifted mask and
ors the shifted value in. This file has the three laws every packed record needs — a write is
read back, a write leaves the other fields alone, and a field holds numbers below `2 ^ n` — for
words of any width.
-/

namespace BitField

variable {w : Nat} {off n off' n' : Nat} {x v : BitVec w}

/-- The word whose low `n` bits are set. -/
def lowMask (w n : Nat) : BitVec w := BitVec.ofNat w (2 ^ n - 1)

/-- The field of `n` bits from bit `off` of a word. -/
def extract (off n : Nat) (x : BitVec w) : BitVec w := (x >>> off) &&& lowMask w n

/-- The word with the field of `n` bits from bit `off` overwritten by `v`. -/
def replace (off n : Nat) (x v : BitVec w) : BitVec w :=
  (x &&& ~~~(lowMask w n <<< off)) ||| (v <<< off)

/-- `v` has no bit above the low `n`, in the form the generated asserts test it. -/
def Fits (n : Nat) (v : BitVec w) : Prop := v &&& lowMask w n = v

instance : Decidable (Fits n v) := inferInstanceAs (Decidable (_ = _))

/-- Two bit ranges of one word share no bit. -/
def Apart (off n off' n' : Nat) : Prop := off + n ≤ off' ∨ off' + n' ≤ off

instance : Decidable (Apart off n off' n') := inferInstanceAs (Decidable (_ ∨ _))

/-! ## Bit by bit -/

theorem getLsbD_lowMask (w n i : Nat) :
    (lowMask w n).getLsbD i = (decide (i < w) && decide (i < n)) := by
  rw [lowMask, BitVec.getLsbD_ofNat, Nat.testBit_two_pow_sub_one]

theorem getLsbD_extract (off n i : Nat) (x : BitVec w) :
    (extract off n x).getLsbD i = (decide (i < n) && x.getLsbD (off + i)) := by
  rw [extract, BitVec.getLsbD_and, BitVec.getLsbD_ushiftRight, getLsbD_lowMask]
  by_cases hi : i < w
  · simp [hi, Bool.and_comm]
  · simp [hi, BitVec.getLsbD_of_ge x (off + i) (by omega)]

/-- A value that fits has every bit from `n` up clear. -/
theorem Fits.getLsbD_of_ge (hv : Fits n v) {i : Nat} (hi : n ≤ i) : v.getLsbD i = false := by
  rw [← hv, BitVec.getLsbD_and, getLsbD_lowMask]
  simp [Nat.not_lt.mpr hi]

theorem getLsbD_replace (off n i : Nat) (x v : BitVec w) :
    (replace off n x v).getLsbD i =
      ((x.getLsbD i && !(decide (off ≤ i) && decide (i < off + n))) ||
        (decide (i < w) && decide (off ≤ i) && v.getLsbD (i - off))) := by
  rw [replace, BitVec.getLsbD_or, BitVec.getLsbD_and, BitVec.getLsbD_not,
    BitVec.getLsbD_shiftLeft, BitVec.getLsbD_shiftLeft, getLsbD_lowMask]
  by_cases hi : i < w
  · by_cases hoff : off ≤ i
    · have h1 : i - off < w := by omega
      have h2 : (i - off < n) ↔ (i < off + n) := by omega
      simp [hi, hoff, Nat.not_lt.mpr hoff, h1, h2]
    · simp [hi, hoff, Nat.lt_of_not_le hoff]
  · simp [hi, BitVec.getLsbD_of_ge x i (by omega)]

/-- Writing a field leaves the bits outside it. -/
theorem getLsbD_replace_of_not_mem {i : Nat} (hv : Fits n v) (hi : ¬ (off ≤ i ∧ i < off + n)) :
    (replace off n x v).getLsbD i = x.getLsbD i := by
  rw [getLsbD_replace]
  by_cases hoff : off ≤ i
  · have hge : ¬ i < off + n := fun h => hi ⟨hoff, h⟩
    have hclear : v.getLsbD (i - off) = false := hv.getLsbD_of_ge (by omega)
    simp [hge, hclear]
  · simp [hoff]

/-! ## The three laws -/

/-- A field that lies inside the word reads back what was written to it. -/
theorem extract_replace_same (hv : Fits n v) (hw : off + n ≤ w) :
    extract off n (replace off n x v) = v := by
  apply BitVec.eq_of_getLsbD_eq
  intro i _
  rw [getLsbD_extract, getLsbD_replace]
  by_cases hi : i < n
  · have h1 : off + i < w := by omega
    simp [hi, h1]
  · simp [hi, hv.getLsbD_of_ge (Nat.le_of_not_lt hi)]

/-- Writing one field does not change another. -/
theorem extract_replace_of_apart (hv : Fits n v) (hd : Apart off n off' n') :
    extract off' n' (replace off n x v) = extract off' n' x := by
  apply BitVec.eq_of_getLsbD_eq
  intro i _
  rw [getLsbD_extract, getLsbD_replace, getLsbD_extract]
  by_cases hi : i < n'
  · rcases hd with hd | hd
    -- the written field ends below the one read: the value has no bit left up here
    · have h1 : v.getLsbD (off' + i - off) = false := hv.getLsbD_of_ge (by omega)
      simp [h1, show ¬ off' + i < off + n by omega]
    -- the written field starts above the one read
    · simp [show ¬ off ≤ off' + i by omega]
  · simp [hi]

/-- Writing back what a field holds changes nothing. -/
theorem replace_extract : replace off n x (extract off n x) = x := by
  apply BitVec.eq_of_getLsbD_eq
  intro i hi
  rw [getLsbD_replace, getLsbD_extract]
  by_cases hoff : off ≤ i
  · have h1 : off + (i - off) = i := by omega
    by_cases hn : i < off + n
    · simp [hi, hoff, hn, h1, show i - off < n by omega]
    · simp [hn, show ¬ i - off < n by omega]
  · simp [hoff]

/-- Oring a value into a field that is still clear, as a constructor does. -/
theorem extract_or_same (hv : Fits n v) (hw : off + n ≤ w) (hx : extract off n x = 0) :
    extract off n (x ||| (v <<< off)) = v := by
  apply BitVec.eq_of_getLsbD_eq
  intro i _
  have h0 : (extract off n x).getLsbD i = false := by rw [hx]; exact BitVec.getLsbD_zero
  rw [getLsbD_extract] at h0 ⊢
  rw [BitVec.getLsbD_or, BitVec.getLsbD_shiftLeft]
  by_cases hi : i < n
  · have h1 : off + i < w := by omega
    simp only [hi, decide_true, Bool.true_and] at h0
    rw [h0]
    simp [hi, h1, show ¬ off + i < off by omega]
  · simp [hi, hv.getLsbD_of_ge (Nat.le_of_not_lt hi)]

/-- Oring a value in leaves the fields it does not reach. -/
theorem extract_or_of_apart (hv : Fits n v) (hd : Apart off n off' n') :
    extract off' n' (x ||| (v <<< off)) = extract off' n' x := by
  apply BitVec.eq_of_getLsbD_eq
  intro i _
  rw [getLsbD_extract, getLsbD_extract, BitVec.getLsbD_or, BitVec.getLsbD_shiftLeft]
  by_cases hi : i < n'
  · rcases hd with hd | hd
    · have h1 : v.getLsbD (off' + i - off) = false := hv.getLsbD_of_ge (by omega)
      simp [h1]
    · simp [show off' + i < off by omega]
  · simp [hi]

/-! ## Accumulating fields -/

theorem extract_or (off n : Nat) (x y : BitVec w) :
    extract off n (x ||| y) = extract off n x ||| extract off n y := by
  apply BitVec.eq_of_getLsbD_eq
  intro i _
  rw [BitVec.getLsbD_or, getLsbD_extract, getLsbD_extract, getLsbD_extract, BitVec.getLsbD_or,
    Bool.and_or_distrib_left]

theorem extract_zero (off n : Nat) : extract off n (0 : BitVec w) = 0 := by
  simp [extract]

/-- A value that fits comes back from its place. -/
theorem extract_shiftLeft_same (hv : Fits n v) (hw : off + n ≤ w) :
    extract off n (v <<< off) = v := by
  have h := extract_or_same hv hw (extract_zero off n)
  simpa using h

theorem extract_shiftLeft_of_apart (hv : Fits n v) (hd : Apart off n off' n') :
    extract off' n' (v <<< off) = 0 := by
  have h := (extract_or_of_apart (x := 0) hv hd).trans (extract_zero off' n')
  simpa using h

/-! ## Fields as numbers -/

theorem toNat_lowMask (hn : n ≤ w) : (lowMask w n).toNat = 2 ^ n - 1 := by
  rw [lowMask, BitVec.toNat_ofNat]
  have h : 2 ^ n ≤ 2 ^ w := Nat.pow_le_pow_right (by decide) hn
  have hpos : 0 < 2 ^ n := Nat.two_pow_pos n
  exact Nat.mod_eq_of_lt (by omega)

/-- A field of `n` bits holds a number below `2 ^ n`. -/
theorem toNat_extract_lt (hn : n ≤ w) : (extract off n x).toNat < 2 ^ n := by
  rw [extract, BitVec.toNat_and, toNat_lowMask hn]
  have h : (x >>> off).toNat &&& (2 ^ n - 1) ≤ 2 ^ n - 1 := Nat.and_le_right
  have hpos : 0 < 2 ^ n := Nat.two_pow_pos n
  omega

/-- A value fits in `n` bits if it is below `2 ^ n`. -/
theorem fits_iff (hn : n ≤ w) : Fits n v ↔ v.toNat < 2 ^ n := by
  have hmod : (v &&& lowMask w n).toNat = v.toNat % 2 ^ n := by
    rw [BitVec.toNat_and, toNat_lowMask hn, Nat.and_two_pow_sub_one_eq_mod]
  rw [Fits, ← BitVec.toNat_inj, hmod]
  constructor
  · intro h
    rw [← h]
    exact Nat.mod_lt _ (Nat.two_pow_pos n)
  · exact Nat.mod_eq_of_lt

end BitField
