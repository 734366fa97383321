import SepKernel.Formats

/-!
# What `vsnprintf` keeps to

Within its buffers, and to the value of the numbers it prints. The first fails for a width the
scratch array is too small for, and both for `%x`, whose base is 1: its sibling `%lx` has 16.
-/

namespace SepKernel
namespace Snprintf

variable {n : Nat} {items : List Item} {mem : Nat → Byte}

/-! ## The buffers -/

/-- `vsnprintf` returns, having written nothing outside `buf[0..n-1]` and left a NUL inside. -/
def StaysWithin (n : Nat) (format : List Byte) (args : List Arg) : Prop :=
  ∀ mem, ∃ mem' r, vsnprintf n format args mem = .ok (mem', r) ∧ (∀ i, n ≤ i → mem' i = mem i) ∧
    ∃ i < n, mem' i = 0

/-- There is always room for the zero. -/
theorem printed_pos_lt (hn : 1 ≤ n) (items : List Item) (mem : Nat → Byte) :
    (printed n items mem).pos < n := by
  have hle : (printed n items mem).pos ≤ n - 1 := Out.write_pos_le _
  omega

/-- Nothing from the last byte of the buffer on is written by the loop. -/
theorem printed_mem (n : Nat) (items : List Item) (mem : Nat → Byte) {i : Nat} (hi : n ≤ i) :
    (printed n items mem).mem i = mem i := by
  have hout : ¬ i < n - 1 := by omega
  simp [printed, Out.write, hout]

/-- A format that is not safe leaves the scratch array. -/
theorem not_staysWithin (hn : 1 ≤ n) (h : ¬ SafeFrom (n - 1) items) :
    ¬ StaysWithin n (text items) (arguments items) := by
  intro hstays
  obtain ⟨mem', r, hrun, -⟩ := hstays fun _ => 0
  rw [vsnprintf_eq hn, if_neg h] at hrun
  cases hrun

/-- `vsnprintf` stays within its buffers just if no number that it gets to is too wide for the
    scratch array, or one other than zero printed with `%x`. -/
theorem staysWithin_iff (hn : 1 ≤ n) (items : List Item) :
    StaysWithin n (text items) (arguments items) ↔ SafeFrom (n - 1) items := by
  constructor
  · intro hstays
    by_contra hunsafe
    exact not_staysWithin hn hunsafe hstays
  · intro hsafe mem
    refine ⟨_, _, (vsnprintf_eq hn items mem).trans (if_pos hsafe), ?_, ?_⟩
    · intro i hi
      have hne : i ≠ (printed n items mem).pos := by
        have := printed_pos_lt hn items mem
        omega
      rw [Function.update_of_ne hne]
      exact printed_mem n items mem hi
    · exact ⟨_, printed_pos_lt hn items mem, Function.update_self ..⟩

/-- `%x` with the argument 1. -/
def hexOne : Directive where
  zero := false
  width := []
  head := by decide
  body := .int .x 1

/-- `%16d` with the argument 0. -/
def wideZero : Directive where
  zero := false
  width := [1, 6]
  head := by decide
  body := .int .d 0

/-- `%015d` with the argument -1. -/
def paddedMinusOne : Directive where
  zero := true
  width := [1, 5]
  head := by decide
  body := .int .d (-1)

/-- A negative number, padded to a width. -/
theorem staysWithin_padded : StaysWithin 128 (text [.directive paddedMinusOne])
    (arguments [.directive paddedMinusOne]) :=
  (staysWithin_iff (by decide) _).mpr (by decide +kernel)

/-- A hexadecimal number, and a width that is too big. -/
theorem scratch_overrun :
    ¬ StaysWithin 128 (text [.directive hexOne]) (arguments [.directive hexOne]) ∧
      ¬ StaysWithin 128 (text [.directive wideZero]) (arguments [.directive wideZero]) :=
  ⟨not_staysWithin (by decide) (by decide +kernel), not_staysWithin (by decide) (by decide +kernel)⟩

/-! ## The numbers -/

/-- A number to print, with the letter of its directive. -/
inductive Number where
  | int (l : Letter) (x : CInt)
  | longLong (l : Letter) (x : Word)

/-- The directives that print numbers. -/
def Number.body : Number → Body
  | .int l x => .int l x
  | .longLong l x => .longLong l x

/-- The base its digits are in. -/
def Number.base : Number → Nat
  | .int l _ => l.base
  | .longLong l _ => l.base

/-- The bytes before the NUL in its scratch array. -/
def Number.room : Number → Nat
  | .int _ _ => 15
  | .longLong _ _ => 31

/-- How many bytes its sign and digits take. -/
def Number.significant : Number → Nat
  | .int l x => Snprintf.significant l.base x l.sig
  | .longLong l x => Snprintf.significant l.base x l.sig

/-- A word as the letter reads it. -/
def Letter.reading {w : Nat} (l : Letter) (x : BitVec w) : Int := if l.sig then x.toInt else x.toNat

/-- The argument under the directive's reading. -/
def Number.reading : Number → Int
  | .int l x => l.reading x
  | .longLong l x => l.reading x

/-- The digit that a byte stands for. -/
def digitValue (base : Nat) (b : Byte) : Option Nat :=
  let d := if ascii '0' ≤ b ∧ b ≤ ascii '9' then b.toNat - (ascii '0').toNat
    else if ascii 'a' ≤ b then b.toNat - (ascii 'a').toNat + 10 else base
  if d < base then some d else none

/-- Reading a number back: its digits, and whether there is a sign. -/
def readNumber (base : Nat) (s : List Byte) : Int :=
  let v : Int := Numeral.value base (s.filterMap (digitValue base))
  if ascii '-' ∈ s then -v else v

/-- An optional minus sign, padding and digits. -/
def Shape (base : Nat) (padding : Byte) (s : List Byte) : Prop :=
  ∃ sign pads digits, s = sign ++ pads ++ digits ∧ (sign = [] ∨ sign = [ascii '-']) ∧
    (∀ b ∈ pads, b = padding) ∧ digits ≠ [] ∧ ∀ b ∈ digits, (digitValue base b).isSome

/-- The output is the number, in the width asked for at least. -/
def PrintsValue (n : Nat) (dir : Directive) (num : Number) : Prop :=
  ∀ mem, ∃ mem' r s,
    vsnprintf n (text [.directive dir]) (arguments [.directive dir]) mem = .ok (mem', r) ∧
    (∀ i (h : i < s.length), mem' i = s[i]) ∧ mem' s.length = 0 ∧ dir.widthValue ≤ s.length ∧
    Shape num.base dir.padding s ∧ readNumber num.base s = num.reading

theorem digitValue_digitByte (l : Letter) {d : Nat} (h : d < l.base) :
    digitValue l.base (digitByte d) = some d := by
  have hten : ∀ d : Fin 10, digitValue 10 (digitByte d.val) = some d.val := by decide
  have hsixteen : ∀ d : Fin 16, digitValue 16 (digitByte d.val) = some d.val := by decide
  cases l with
  | d => exact hten ⟨d, h⟩
  | u => exact hten ⟨d, h⟩
  | x => exact hsixteen ⟨d, h⟩

theorem digitValue_minus (l : Letter) : digitValue l.base (ascii '-') = none := by
  cases l <;> decide

/-- Padding is read as zeros or not at all. -/
theorem digitValue_padding (l : Letter) (dir : Directive) :
    digitValue l.base dir.padding = none ∨ digitValue l.base dir.padding = some 0 := by
  unfold Directive.padding
  cases dir.zero <;> cases l <;> decide

/-- Reading digits back. -/
theorem filterMap_digitBytes (l : Letter) (m : Nat) :
    (digitBytes l.base m).filterMap (digitValue l.base) = Numeral.digits l.base m := by
  rw [digitBytes, List.filterMap_map]
  have hall : ∀ d ∈ Numeral.digits l.base m, (digitValue l.base ∘ digitByte) d = some d :=
    fun d hd => digitValue_digitByte l (Numeral.lt_of_mem l.one_lt_base hd)
  rw [List.filterMap_congr hall, List.filterMap_some]

theorem filterMap_signBytes {w : Nat} (l : Letter) (x : BitVec w) :
    (signBytes x l.sig).filterMap (digitValue l.base) = [] := by
  unfold signBytes
  split
  · simp [digitValue_minus]
  · rfl

/-- Padding does not count. -/
theorem value_padding (l : Letter) (dir : Directive) (k : Nat) (ds : List Nat) :
    Numeral.value l.base ((List.replicate k dir.padding).filterMap (digitValue l.base) ++ ds) =
      Numeral.value l.base ds := by
  cases digitValue_padding l dir with
  | inl h => simp [h]
  | inr h =>
    have hzeros : (List.replicate k dir.padding).filterMap (digitValue l.base) =
        List.replicate k 0 := by
      simp [h]
    rw [hzeros, Numeral.value_zeros_append]

/-- What is read is the magnitude. -/
theorem value_numberBytes {w : Nat} (l : Letter) (x : BitVec w) (dir : Directive) :
    Numeral.value l.base ((numberBytes l.base x l.sig dir.padding dir.paddWidth).filterMap
      (digitValue l.base)) = (magnitude x l.sig).toNat := by
  rw [numberBytes, List.filterMap_append, List.filterMap_append, filterMap_signBytes,
    List.nil_append, value_padding, filterMap_digitBytes, Numeral.value_digits]

/-- And the sign. -/
theorem minus_mem_numberBytes {w : Nat} (l : Letter) (x : BitVec w) (dir : Directive) :
    ascii '-' ∈ numberBytes l.base x l.sig dir.padding dir.paddWidth ↔ isNegative x l.sig := by
  have hpads : ascii '-' ∉ List.replicate (padCount (significant l.base x l.sig) dir.paddWidth)
      dir.padding := by
    intro h
    have hpadding := List.eq_of_mem_replicate h
    unfold Directive.padding at hpadding
    split at hpadding <;> exact absurd hpadding (by decide)
  have hdigits : ascii '-' ∉ digitBytes l.base (magnitude x l.sig).toNat := by
    intro h
    obtain ⟨d, hd, hminus⟩ := List.mem_map.mp h
    have hvalue := digitValue_digitByte l (Numeral.lt_of_mem l.one_lt_base hd)
    rw [hminus, digitValue_minus] at hvalue
    cases hvalue
  rw [numberBytes, List.mem_append, List.mem_append]
  simp only [hpads, hdigits, or_false]
  unfold signBytes
  split
  · next h => simp [h]
  · next h => simp [h]

/-- Two's complement, the most negative value included. -/
theorem reading_eq {w : Nat} (l : Letter) (x : BitVec w) : l.reading x =
    if isNegative x l.sig then -((magnitude x l.sig).toNat : Int) else (magnitude x l.sig).toNat := by
  unfold Letter.reading magnitude isNegative
  cases l.sig with
  | false => simp
  | true =>
    have hslt : x.slt 0 = decide (x.toInt < 0) := by simp [BitVec.slt]
    have htoInt := BitVec.toInt_eq_toNat_cond x
    have hlt := x.isLt
    rw [if_pos rfl, Bool.and_true, hslt]
    by_cases hneg : x.toInt < 0
    · have hsplit : ¬ 2 * x.toNat < 2 ^ w := by
        intro h
        rw [if_pos h] at htoInt
        omega
      have hmod : (2 ^ w - x.toNat) % 2 ^ w = 2 ^ w - x.toNat := Nat.mod_eq_of_lt (by omega)
      rw [if_neg hsplit] at htoInt
      rw [decide_eq_true hneg, if_pos rfl, if_pos rfl, BitVec.toNat_neg, hmod, htoInt,
        Nat.cast_sub hlt.le]
      push_cast
      ring
    · rw [decide_eq_false hneg, if_neg Bool.false_ne_true, if_neg Bool.false_ne_true]
      split at htoInt <;> omega

/-- So the number is read back. -/
theorem readNumber_numberBytes {w : Nat} (l : Letter) (x : BitVec w) (dir : Directive) :
    readNumber l.base (numberBytes l.base x l.sig dir.padding dir.paddWidth) = l.reading x := by
  simp only [readNumber, value_numberBytes, minus_mem_numberBytes, reading_eq]

/-- The text has the shape of a number. -/
theorem shape_numberBytes {w : Nat} (l : Letter) (x : BitVec w) (dir : Directive) :
    Shape l.base dir.padding (numberBytes l.base x l.sig dir.padding dir.paddWidth) := by
  refine ⟨_, _, _, rfl, ?_, fun b hb => List.eq_of_mem_replicate hb, ?_, ?_⟩
  · unfold signBytes
    split <;> simp
  · simpa [digitBytes] using Numeral.digits_ne_nil
  · intro b hb
    obtain ⟨d, hd, rfl⟩ := List.mem_map.mp hb
    rw [digitValue_digitByte l (Numeral.lt_of_mem l.one_lt_base hd)]
    rfl

/-- A width that the scratch array has room for is the one `vsnprintf` computes. -/
theorem paddWidth_toInt (dir : Directive) (h : dir.widthValue < 2 ^ 31) :
    dir.paddWidth.toInt = dir.widthValue := by
  rw [Directive.paddWidth, BitVec.toInt_ofNat', Int.bmod_eq_of_le (by omega) (by omega)]

/-! ## A format of one number -/

theorem Number.room_le (num : Number) : num.room ≤ 31 := by
  cases num <;> simp [Number.room]

/-- For numbers, safety is a matter of the width and of the base. -/
theorem safe_number {num : Number} {dir : Directive} (hbody : dir.body = num.body)
    (hwidth : dir.widthValue ≤ num.room) :
    dir.body.Safe dir.paddWidth ↔ ∀ x, num = .int .x x → x = 0 := by
  have hroom := num.room_le
  have htoInt := paddWidth_toInt dir (by omega)
  rw [hbody]
  cases num with
  | int l x =>
    have hfits : Fits 15 (significant l.base x l.sig) dir.paddWidth := by
      have hd := significant_int_le l x
      have hle : dir.widthValue ≤ 15 := hwidth
      unfold Fits
      omega
    constructor
    · intro h x' hx
      cases hx
      exact h.1 rfl
    · intro h
      refine ⟨fun hl => ?_, hfits⟩
      subst hl
      exact h x rfl
  | longLong l x =>
    have hfits : Fits 31 (significant l.base x l.sig) dir.paddWidth := by
      have hd := significant_longLong_le l x
      have hle : dir.widthValue ≤ 31 := hwidth
      unfold Fits
      omega
    exact iff_of_true hfits fun x' hx => by cases hx

/-- The bytes of a number that fits are its numeral, of the larger of the two lengths. -/
theorem bytes_number {num : Number} {dir : Directive} (hbody : dir.body = num.body)
    (hwidth : dir.widthValue ≤ num.room) (hsafe : dir.body.Safe dir.paddWidth) :
    (dir.body.bytes dir.padding dir.paddWidth).length = max dir.widthValue num.significant ∧
      Shape num.base dir.padding (dir.body.bytes dir.padding dir.paddWidth) ∧
      readNumber num.base (dir.body.bytes dir.padding dir.paddWidth) = num.reading := by
  have hroom := num.room_le
  have htoInt := paddWidth_toInt dir (by omega)
  rw [Body.length_bytes hsafe, hbody]
  cases num with
  | int l x =>
    refine ⟨?_, shape_numberBytes l x dir, readNumber_numberBytes l x dir⟩
    simp only [Number.body, Body.length, Number.significant, htoInt, Int.toNat_natCast]
  | longLong l x =>
    refine ⟨?_, shape_numberBytes l x dir, readNumber_numberBytes l x dir⟩
    simp only [Number.body, Body.length, Number.significant, htoInt, Int.toNat_natCast]

/-- The buffer of a format of one directive that there is room for. -/
theorem printed_directive (dir : Directive) (mem : Nat → Byte)
    (hroom : (dir.body.bytes dir.padding dir.paddWidth).length < n) :
    (printed n [.directive dir] mem).pos = (dir.body.bytes dir.padding dir.paddWidth).length ∧
      ∀ i (h : i < (dir.body.bytes dir.padding dir.paddWidth).length),
        (printed n [.directive dir] mem).mem i = (dir.body.bytes dir.padding dir.paddWidth)[i] := by
  have hbytes : [Item.directive dir].flatMap Item.bytes =
      dir.body.bytes dir.padding dir.paddWidth := List.append_nil _
  rw [printed, hbytes]
  generalize dir.body.bytes dir.padding dir.paddWidth = s at hroom
  constructor
  · change min (0 + s.length) (n - 1) = s.length
    omega
  · intro i hi
    have hin : i < n - 1 := by omega
    simp [Out.write, hin, hi]

/-- What is not safe is not printed. -/
theorem not_printsValue {num : Number} {dir : Directive} (hn : 1 < n)
    (h : ¬ dir.body.Safe dir.paddWidth) : ¬ PrintsValue n dir num := by
  intro hprints
  have hunsafe : ¬ SafeFrom (n - 1) [.directive dir] := by
    intro hsafe
    cases hsafe with
    | inl hzero => omega
    | inr hitem => exact h hitem.1
  obtain ⟨mem', r, s, hrun, -⟩ := hprints fun _ => 0
  rw [vsnprintf_eq hn.le, if_neg hunsafe] at hrun
  cases hrun

/-- A number that the scratch array and the buffer have room for is printed as its value, but for
    what is printed with `%x`. -/
theorem printsValue_iff {num : Number} {dir : Directive} (hbody : dir.body = num.body)
    (hwidth : dir.widthValue ≤ num.room) (hn : max dir.widthValue num.significant < n) :
    PrintsValue n dir num ↔ ∀ x, num = .int .x x → x = 0 := by
  rw [← safe_number hbody hwidth]
  constructor
  · intro hprints
    by_contra hunsafe
    have hpos : 0 < num.significant := by
      cases num with
      | int l x => exact significant_pos l.base x l.sig
      | longLong l x => exact significant_pos l.base x l.sig
    exact not_printsValue (by omega) hunsafe hprints
  · intro hsafe mem
    obtain ⟨hlen, hshape, hvalue⟩ := bytes_number hbody hwidth hsafe
    have hroom : (dir.body.bytes dir.padding dir.paddWidth).length < n := hlen ▸ hn
    obtain ⟨hpos, hmem⟩ := printed_directive dir mem hroom
    refine ⟨_, _, _, (vsnprintf_eq (by omega) _ mem).trans
      (if_pos (Or.inr ⟨hsafe, trivial⟩)), ?_, ?_, ?_, hshape, hvalue⟩
    · intro i hi
      rw [Function.update_of_ne (hpos ▸ hi.ne)]
      exact hmem i hi
    · rw [hpos, Function.update_self]
    · exact hlen ▸ le_max_left _ _

/-- A negative number, padded to a width. -/
theorem printsValue_padded : PrintsValue 128 paddedMinusOne (.int .d (-1)) :=
  (printsValue_iff rfl (by decide +kernel) (by decide +kernel)).mpr fun x hx => by cases hx

/-- `%x` of one. -/
theorem hexOne_not_printed : ¬ PrintsValue 128 hexOne (.int .x 1) :=
  not_printsValue (by decide) (by decide +kernel)

end Snprintf
end SepKernel
