import SepKernel.Lib.Numeral
import SepKernel.Snprintf

/-!
# What the number printers write

The contents of the scratch array in closed form: the sign, as many padding characters as the width
asks for, the digits. They fit just if the larger of the width and the number of digits and sign
is below the size of the array, for a base that is one. `%x` asks `output32` for base 1, in which
the digits of no number but zero come to an end.
-/

namespace SepKernel
namespace Snprintf

variable {w c size k : Nat} {n i base : BitVec w} {paddWidth : CInt} {chars : List Byte}
  {padding b : Byte} {sig : Bool}

/-! ## The loops -/

/-- The digits of a number as bytes. -/
def digitBytes (base n : Nat) : List Byte := (Numeral.digits base n).map digitByte

theorem length_digitBytes (base n : Nat) :
    (digitBytes base n).length = (Numeral.digits base n).length := List.length_map _

/-- The loop writes the digits, if there is room. -/
theorem digitLoop_eq (hb : 1 < base.toNat) (c : Nat) (i : BitVec w) (paddWidth : CInt)
    (chars : List Byte) : digitLoop base c i paddWidth chars =
      if (digitBytes base.toNat i.toNat).length ≤ c then
        .ok (c - (digitBytes base.toNat i.toNat).length,
          paddWidth - BitVec.ofNat 32 (digitBytes base.toNat i.toNat).length,
          digitBytes base.toNat i.toNat ++ chars)
      else .error .scratch := by
  induction c generalizing i paddWidth chars with
  | zero =>
    have hpos : ¬ (digitBytes base.toNat i.toNat).length ≤ 0 := by
      rw [length_digitBytes]
      exact Nat.not_le.mpr Numeral.length_pos
    rw [digitLoop, if_neg hpos]
  | succ c ih =>
    have hdiv : (i / base).toNat = i.toNat / base.toNat := BitVec.toNat_udiv
    have hmod : (i % base).toNat = i.toNat % base.toNat := BitVec.toNat_umod
    -- the loop goes on just as long as there is another digit
    have hzero : i / base ≠ 0 ↔ base.toNat ≤ i.toNat := by
      rw [Ne, ← BitVec.toNat_inj, hdiv]
      change ¬ i.toNat / base.toNat = 0 ↔ _
      rw [Nat.div_eq_zero_iff]
      omega
    simp only [digitLoop]
    by_cases hlast : base.toNat ≤ i.toNat
    · have hdigits : digitBytes base.toNat i.toNat =
          digitBytes base.toNat (i.toNat / base.toNat) ++ [digitByte (i.toNat % base.toNat)] := by
        rw [digitBytes, Numeral.digits_of_le hb hlast, List.map_append]
        rfl
      rw [if_pos (hzero.mpr hlast), ih, hdiv, hmod, hdigits, List.length_append]
      generalize digitBytes base.toNat (i.toNat / base.toNat) = ds
      by_cases hroom : ds.length ≤ c
      · have hroom' : ds.length + 1 ≤ c + 1 := Nat.succ_le_succ hroom
        rw [if_pos hroom, if_pos (by simpa using hroom)]
        simp [BitVec.ofNat_add, BitVec.sub_sub, BitVec.add_comm]
      · rw [if_neg hroom, if_neg (by simpa using hroom)]
    · have hlt : i.toNat < base.toNat := Nat.lt_of_not_le hlast
      have hdigits : digitBytes base.toNat i.toNat = [digitByte i.toNat] := by
        rw [digitBytes, Numeral.digits_of_lt hlt]
        rfl
      rw [if_neg (mt hzero.mp hlast), hmod, Nat.mod_eq_of_lt hlt, hdigits]
      simp

/-- In base 1 nothing but zero is ever divided down. -/
theorem digitLoop_one (hi : i ≠ 0) (c : Nat) (paddWidth : CInt) (chars : List Byte) :
    digitLoop 1 c i paddWidth chars = .error .scratch := by
  induction c generalizing paddWidth chars with
  | zero => rfl
  | succ c ih =>
    have hdiv : i / 1 = i := BitVec.udiv_one
    simp only [digitLoop, hdiv]
    rw [if_pos hi]
    exact ih _ _

/-- The loop ends at zero, with the digit of the zero. -/
theorem digitLoop_zero (base : BitVec w) (c : Nat) (paddWidth : CInt) (chars : List Byte) :
    digitLoop base (c + 1) 0 paddWidth chars =
      .ok (c, paddWidth - 1, digitByte 0 :: chars) := by
  simp [digitLoop]

/-- The loop writes what is left of the width. -/
theorem padLoop_eq (padding : Byte) (c : Nat) (paddWidth : CInt) (chars : List Byte) :
    padLoop padding c paddWidth chars =
      if paddWidth.toInt.toNat ≤ c then
        .ok (c - paddWidth.toInt.toNat, List.replicate paddWidth.toInt.toNat padding ++ chars)
      else .error .scratch := by
  induction c generalizing paddWidth chars with
  | zero =>
    rw [padLoop]
    by_cases hpos : paddWidth.toInt > 0
    · rw [if_pos hpos, if_neg (by omega)]
    · have hzero : paddWidth.toInt.toNat = 0 := by omega
      rw [if_neg hpos, hzero]
      rfl
  | succ c ih =>
    rw [padLoop]
    by_cases hpos : paddWidth.toInt > 0
    · have hsub : (paddWidth - 1).toInt.toNat = paddWidth.toInt.toNat - 1 := by
        have hone : (1 : CInt).toInt = 1 := rfl
        have hlt : paddWidth.toInt < 2 ^ 31 := BitVec.toInt_lt
        have htoInt : (paddWidth - 1).toInt = paddWidth.toInt - 1 := by
          rw [BitVec.toInt_sub, hone, Int.bmod_eq_of_le (by omega) (by omega)]
        omega
      obtain ⟨m, hm⟩ : ∃ m, paddWidth.toInt.toNat = m + 1 := ⟨paddWidth.toInt.toNat - 1, by omega⟩
      simp only [if_pos hpos, ih, hsub, hm, Nat.add_sub_cancel]
      by_cases hroom : m ≤ c
      · rw [if_pos hroom, if_pos (Nat.succ_le_succ hroom)]
        simp [List.replicate_succ', List.append_assoc]
      · rw [if_neg hroom, if_neg (by omega)]
    · have hzero : paddWidth.toInt.toNat = 0 := by omega
      rw [if_neg hpos, hzero]
      rfl

/-! ## The scratch array -/

/-- Whether the printers put a sign. -/
def isNegative (n : BitVec w) (sig : Bool) : Bool := n.slt 0 && sig

/-- The sign stands in front of the digits, if the number is read as a signed one. -/
def signBytes (n : BitVec w) (sig : Bool) : List Byte :=
  if isNegative n sig then [ascii '-'] else []

/-- The number whose digits are written. -/
def magnitude (n : BitVec w) (sig : Bool) : BitVec w := if isNegative n sig then -n else n

/-- How many bytes the sign and the digits take. -/
def significant (base : Nat) (n : BitVec w) (sig : Bool) : Nat :=
  (signBytes n sig).length + (digitBytes base (magnitude n sig).toNat).length

/-- A number has a digit. -/
theorem significant_pos (base : Nat) (n : BitVec w) (sig : Bool) : 0 < significant base n sig := by
  rw [significant, length_digitBytes]
  exact Nat.add_pos_right _ Numeral.length_pos

/-- How many padding characters the printers add to `d` bytes. -/
def padCount (d : Nat) (paddWidth : CInt) : Nat := (paddWidth - BitVec.ofNat 32 d).toInt.toNat

/-- What the scratch array holds from `c` on. -/
def numberBytes (base : Nat) (n : BitVec w) (sig : Bool) (padding : Byte) (paddWidth : CInt) :
    List Byte :=
  signBytes n sig ++ List.replicate (padCount (significant base n sig) paddWidth) padding ++
    digitBytes base (magnitude n sig).toNat

/-- Its digits, its sign and its padding. -/
theorem length_numberBytes (base : Nat) (n : BitVec w) (sig : Bool) (padding : Byte)
    (paddWidth : CInt) : (numberBytes base n sig padding paddWidth).length =
      significant base n sig + padCount (significant base n sig) paddWidth := by
  simp only [numberBytes, significant, List.length_append, List.length_replicate]
  omega

/-- The two loops one after the other. -/
theorem digitLoop_padLoop {digits : List Byte} {count : Nat} (hb : 1 < base.toNat)
    (hdigits : digitBytes base.toNat i.toNat = digits)
    (paddWidth : CInt) (hcount : padCount digits.length paddWidth = count) (room : Nat)
    (padding : Byte) :
    (digitLoop base room i paddWidth [] >>= fun r => padLoop padding r.1 r.2.1 r.2.2) =
      if digits.length + count ≤ room then
        .ok (room - (digits.length + count), List.replicate count padding ++ digits)
      else .error .scratch := by
  rw [digitLoop_eq hb, hdigits]
  by_cases hlen : digits.length ≤ room
  · rw [if_pos hlen]
    change padLoop padding (room - digits.length) (paddWidth - BitVec.ofNat 32 digits.length)
      (digits ++ []) = _
    have hpad : (paddWidth - BitVec.ofNat 32 digits.length).toInt.toNat = count := hcount
    rw [padLoop_eq, List.append_nil, hpad]
    by_cases hroom : digits.length + count ≤ room
    · have hrest : count ≤ room - digits.length := by omega
      rw [if_pos hroom, if_pos hrest, Nat.sub_sub]
    · have hrest : ¬ count ≤ room - digits.length := by omega
      rw [if_neg hroom, if_neg hrest]
  · have hroom : ¬ digits.length + count ≤ room := by omega
    rw [if_neg hlen, if_neg hroom]
    rfl

/-- Both loops and the sign. -/
theorem printNumber_eq_loops (size : Nat) (n : BitVec w) (sig : Bool) (base : BitVec w)
    (padding : Byte) (paddWidth : CInt) : printNumber size n sig base padding paddWidth =
      ((digitLoop base (size - 1) (magnitude n sig)
          (paddWidth - BitVec.ofNat 32 (signBytes n sig).length) [] >>=
        fun r => padLoop padding r.1 r.2.1 r.2.2) >>= fun r =>
        if (signBytes n sig).length ≤ r.1 then .ok (signBytes n sig ++ r.2)
        else .error .scratch) := by
  unfold printNumber magnitude signBytes isNegative
  cases n.slt 0 && sig with
  | true =>
    rw [bind_assoc]
    refine bind_congr fun r => bind_congr fun r' => ?_
    obtain ⟨c, chars⟩ := r'
    cases c <;> rfl
  | false =>
    have hwidth : paddWidth - BitVec.ofNat 32 0 = paddWidth := by simp
    simp only [Bool.false_eq_true, if_false, List.length_nil, hwidth, bind_assoc]
    refine bind_congr fun r => bind_congr fun r' => ?_
    rfl

/-- The printers write the number where it fits, and overrun the scratch array elsewhere. -/
theorem printNumber_eq (hb : 1 < base.toNat) (size : Nat) (n : BitVec w) (sig : Bool)
    (padding : Byte) (paddWidth : CInt) : printNumber size n sig base padding paddWidth =
      if (numberBytes base.toNat n sig padding paddWidth).length ≤ size - 1 then
        .ok (numberBytes base.toNat n sig padding paddWidth)
      else .error .scratch := by
  rw [length_numberBytes, printNumber_eq_loops, numberBytes]
  generalize hcount : padCount (significant base.toNat n sig) paddWidth = count
  have hwidth : padCount (digitBytes base.toNat (magnitude n sig).toNat).length
      (paddWidth - BitVec.ofNat 32 (signBytes n sig).length) = count := by
    rw [← hcount, padCount, padCount, significant, BitVec.ofNat_add, BitVec.sub_sub]
  rw [digitLoop_padLoop hb rfl _ hwidth, significant]
  generalize digitBytes base.toNat (magnitude n sig).toNat = digits
  generalize signBytes n sig = sign
  by_cases hroom : digits.length + count ≤ size - 1
  · rw [if_pos hroom]
    change (if sign.length ≤ size - 1 - (digits.length + count) then _ else _) = _
    by_cases hsign : sign.length + digits.length + count ≤ size - 1
    · rw [if_pos hsign, if_pos (by omega), List.append_assoc]
    · rw [if_neg hsign, if_neg (by omega)]
  · rw [if_neg hroom, if_neg (by omega)]
    rfl

/-! ## Base 1

The remainder by 1 is 0 and the quotient is the number, so that the loop stops at zero only. -/

/-- In base 1 no number but zero has an end. -/
theorem printNumber_one (hn : n ≠ 0) (size : Nat) (padding : Byte) (paddWidth : CInt) :
    printNumber size n false 1 padding paddWidth = .error .scratch := by
  have hmagnitude : magnitude n false = n := by simp [magnitude, isNegative]
  rw [printNumber_eq_loops, hmagnitude, digitLoop_one hn]
  rfl

/-- Zero has the same digit in every base. -/
theorem printNumber_zero (size : Nat) (hsize : 1 < size) (base base' : BitVec w) (padding : Byte)
    (paddWidth : CInt) : printNumber size (0 : BitVec w) false base padding paddWidth =
      printNumber size (0 : BitVec w) false base' padding paddWidth := by
  obtain ⟨c, hc⟩ : ∃ c, size - 1 = c + 1 := ⟨size - 2, by omega⟩
  have hmagnitude : magnitude (0 : BitVec w) false = 0 := by simp [magnitude, isNegative]
  simp only [printNumber_eq_loops, hmagnitude, hc, digitLoop_zero]

/-! ## Widths -/

/-- The width leaves the printers within the scratch array: at most `room`, and not so far below
    zero that taking the `d` bytes off it wraps around. -/
def Fits (room d : Nat) (paddWidth : CInt) : Prop :=
  -2 ^ 31 + (d : Int) ≤ paddWidth.toInt ∧ paddWidth.toInt ≤ room

/-- What fits is padded to the width. -/
theorem padCount_of_fits {room d : Nat} (h : Fits room d paddWidth) (hd : d < 2 ^ 31) :
    padCount d paddWidth = paddWidth.toInt.toNat - d := by
  obtain ⟨hlo, -⟩ := h
  have hlt : paddWidth.toInt < 2 ^ 31 := BitVec.toInt_lt
  have htoInt : (BitVec.ofNat 32 d).toInt = d := by
    rw [BitVec.toInt_ofNat', Int.bmod_eq_of_le (by omega) (by omega)]
  rw [padCount, BitVec.toInt_sub, htoInt, Int.bmod_eq_of_le (by omega) (by omega)]
  omega

/-- Fitting in terms of the width as an `int`. -/
theorem fits_iff {room d : Nat} (hd : d ≤ room) (hroom : room < 2 ^ 31) :
    d + padCount d paddWidth ≤ room ↔ Fits room d paddWidth := by
  constructor
  · intro h
    have hlo : -2 ^ 31 ≤ paddWidth.toInt := BitVec.le_toInt paddWidth
    have hlt : paddWidth.toInt < 2 ^ 31 := BitVec.toInt_lt
    have htoInt : (BitVec.ofNat 32 d).toInt = d := by
      rw [BitVec.toInt_ofNat', Int.bmod_eq_of_le (by omega) (by omega)]
    rw [padCount, BitVec.toInt_sub, htoInt, Int.bmod_def] at h
    split at h
    · unfold Fits
      omega
    · unfold Fits
      omega
  · intro h
    rw [padCount_of_fits h (by omega)]
    have := h.2
    omega

/-- The longer of the width and the number. -/
theorem length_numberBytes_of_fits {room base : Nat} (hd : significant base n sig < 2 ^ 31)
    (h : Fits room (significant base n sig) paddWidth) :
    (numberBytes base n sig padding paddWidth).length =
      max paddWidth.toInt.toNat (significant base n sig) := by
  rw [length_numberBytes, padCount_of_fits h hd]
  omega

/-- A number of `w` bits has at most as many digits as `2 ^ w`. -/
theorem significant_le {base : Nat} (hb : 1 < base) (hk : 0 < k) (hw : 2 ^ w ≤ base ^ k)
    (n : BitVec w) (sig : Bool) : significant base n sig ≤ 1 + k := by
  have hsign : (signBytes n sig).length ≤ 1 := by
    unfold signBytes
    split <;> simp
  have hdigits : (digitBytes base (magnitude n sig).toNat).length ≤ k := by
    rw [length_digitBytes]
    exact Numeral.length_le hb hk (lt_of_lt_of_le (magnitude n sig).isLt hw)
  exact Nat.add_le_add hsign hdigits

end Snprintf
end SepKernel
