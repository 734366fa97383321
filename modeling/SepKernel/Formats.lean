import SepKernel.Numbers

/-!
# Formats and what they print

A format as the list of its literal characters and directives, each directive with the argument it
takes. `vsnprintf` reads the text of such a list back as what it was written from, and what it does
with it is closed here: every directive whose number fits the scratch array appends its bytes to
the buffer, cut off at the end, and the first one that does not fit ends the run.
-/

namespace SepKernel
namespace Snprintf

/-! ## Directives -/

/-- The letter of a number's directive. -/
inductive Letter where
  | d | u | x
deriving DecidableEq

/-- Whether the argument is read as signed. -/
def Letter.sig : Letter → Bool
  | .d => true
  | .u | .x => false

/-- The base the letter stands for. -/
def Letter.base : Letter → Nat
  | .d | .u => 10
  | .x => 16

/-- A conversion with its argument. -/
inductive Body where
  | int (l : Letter) (x : CInt)
  | longLong (l : Letter) (x : Word)
  | string (s : List Byte) (hs : 0 ∉ s)
  | char (x : CInt)
  | percent

/-- The letters that ask for it. -/
def Body.conversion : Body → Conversion
  | .int .d _ => .d
  | .int .u _ => .u
  | .int .x _ => .x
  | .longLong .d _ => .ld
  | .longLong .u _ => .lu
  | .longLong .x _ => .lx
  | .string _ _ => .s
  | .char _ => .c
  | .percent => .percent

/-- The arguments that it takes; `%%` takes none. -/
def Body.args : Body → List Arg
  | .int _ x => [.int x]
  | .longLong _ x => [.longLong x]
  | .string s _ => [.string s]
  | .char x => [.int x]
  | .percent => []

/-- A directive: the `0` flag, the digits of the width, and the conversion. Without the flag the
    width has no leading zero, for that would be the flag. -/
structure Directive where
  zero : Bool
  width : List (Fin 10)
  head : zero = false → width.head? ≠ some 0
  body : Body

/-- Zeros, if the width begins with one. -/
def Directive.padding (dir : Directive) : Byte := if dir.zero then ascii '0' else ascii ' '

/-- The width that is asked for. -/
def Directive.widthValue (dir : Directive) : Nat := Numeral.value 10 (dir.width.map Fin.val)

/-- `padd_width`. -/
def Directive.paddWidth (dir : Directive) : CInt := BitVec.ofNat 32 dir.widthValue

/-- A format is a list of bytes that stand for themselves and of directives. -/
inductive Item where
  | literal (b : Byte) (hb : b ≠ 0 ∧ b ≠ ascii '%')
  | directive (dir : Directive)

/-- A byte that stands for itself takes no argument. -/
def Item.args : Item → List Arg
  | .literal _ _ => []
  | .directive dir => dir.body.args

/-! ## Their text -/

/-- How it is written. -/
def Conversion.text : Conversion → List Byte
  | .d => [ascii 'd']
  | .u => [ascii 'u']
  | .x => [ascii 'x']
  | .s => [ascii 's']
  | .c => [ascii 'c']
  | .percent => [ascii '%']
  | .ld => [ascii 'l', ascii 'd']
  | .lu => [ascii 'l', ascii 'u']
  | .lx => [ascii 'l', ascii 'x']

/-- The width, digit by digit, as it is written. -/
def widthText (width : List (Fin 10)) : List Byte :=
  width.map fun d => ascii '0' + BitVec.ofNat 8 d.val

/-- What follows the percent sign. -/
def Directive.text (dir : Directive) : List Byte :=
  (if dir.zero then [ascii '0'] else []) ++ (widthText dir.width ++ dir.body.conversion.text)

/-- How an item stands in the format. -/
def Item.text : Item → List Byte
  | .literal b _ => [b]
  | .directive dir => ascii '%' :: dir.text

/-- A format's text and its arguments. -/
def text (items : List Item) : List Byte := items.flatMap Item.text

/-- The arguments of a whole format, from the first item to the last. -/
def arguments (items : List Item) : List Arg := items.flatMap Item.args

theorem text_cons (item : Item) (items : List Item) :
    text (item :: items) = item.text ++ text items := List.flatMap_cons

theorem arguments_cons (item : Item) (items : List Item) :
    arguments (item :: items) = item.args ++ arguments items := List.flatMap_cons

/-! ## Reading them back -/

theorem ok_bind {ε α β : Type} (a : α) (f : α → Except ε β) : (Except.ok a >>= f) = f a := rfl

variable {n ebuf : Nat} {out : Out} {b : Byte} {s s' : List Byte} {args : List Arg}
  {padding : Byte} {paddWidth : CInt}

/-- A conversion is read as it was written. -/
theorem readConversion_text (conv : Conversion) (f : List Byte) :
    readConversion (conv.text ++ f) = some (conv, f) := by
  cases conv <;> rfl

/-- A conversion starts with a letter or a percent sign. -/
theorem text_eq_cons (conv : Conversion) : ∃ b s, conv.text = b :: s ∧ isDecimal b = false := by
  cases conv <;> exact ⟨_, _, rfl, by decide⟩

theorem isDecimal_digit (d : Fin 10) : isDecimal (ascii '0' + BitVec.ofNat 8 d.val) = true := by
  revert d
  decide

theorem digit_eq_zero {d : Fin 10} (h : ascii '0' + BitVec.ofNat 8 d.val = ascii '0') : d = 0 := by
  revert d
  decide

theorem digit_sub (d : Fin 10) : (ascii '0' + BitVec.ofNat 8 d.val - ascii '0').setWidth 32 =
    BitVec.ofNat 32 d.val := by
  revert d
  decide

/-- So is a width, modulo the overflow of an `int`. -/
theorem readWidth_text (width : List (Fin 10)) (conv : Conversion) (f : List Byte) (m : Nat) :
    readWidth (BitVec.ofNat 32 m) (widthText width ++ (conv.text ++ f)) =
      (BitVec.ofNat 32 (m * 10 ^ width.length + Numeral.value 10 (width.map Fin.val)),
        conv.text ++ f) := by
  induction width generalizing m with
  | nil =>
    obtain ⟨b, s, hconv, hb⟩ := text_eq_cons conv
    have hvalue : Numeral.value 10 [] = 0 := rfl
    simp [widthText, hconv, readWidth, hb, hvalue]
  | cons d width ih =>
    have hstep : BitVec.ofNat 32 m * 10 + BitVec.ofNat 32 d.val =
        BitVec.ofNat 32 (m * 10 + d.val) := by
      rw [BitVec.ofNat_add, BitVec.ofNat_mul]
      rfl
    change readWidth _ ((ascii '0' + BitVec.ofNat 8 d.val) :: (widthText width ++ _)) = _
    rw [readWidth, if_pos (isDecimal_digit d), digit_sub, hstep, ih, List.map_cons,
      Numeral.value_cons, List.length_map, List.length_cons, Nat.pow_succ]
    ring_nf

/-- Without the flag the directive does not start with a `0`. -/
theorem text_head_ne (dir : Directive) (hzero : dir.zero = false) (f : List Byte) :
    ∃ b s, widthText dir.width ++ (dir.body.conversion.text ++ f) = b :: s ∧ b ≠ ascii '0' := by
  have hhead := dir.head hzero
  cases hwidth : dir.width with
  | nil =>
    obtain ⟨b, s, hconv, hb⟩ := text_eq_cons dir.body.conversion
    refine ⟨b, s ++ f, by simp [widthText, hconv], ?_⟩
    intro h
    rw [h] at hb
    exact absurd hb (by decide)
  | cons d width =>
    refine ⟨_, _, rfl, ?_⟩
    intro h
    rw [hwidth, digit_eq_zero h] at hhead
    exact hhead rfl

/-- And the flag. -/
theorem readFlag_text (dir : Directive) (f : List Byte) : readFlag (dir.text ++ f) =
    (dir.padding, widthText dir.width ++ (dir.body.conversion.text ++ f)) := by
  unfold Directive.text Directive.padding
  cases hzero : dir.zero with
  | true =>
    simp [readFlag]
  | false =>
    obtain ⟨b, s, hs, hb⟩ := text_head_ne dir hzero f
    simp [readFlag, hs, hb]

/-- A directive up to its conversion. -/
theorem readWidth_directive (dir : Directive) (f : List Byte) :
    readWidth 0 (readFlag (dir.text ++ f)).2 =
      (dir.paddWidth, dir.body.conversion.text ++ f) := by
  have h := readWidth_text dir.width dir.body.conversion f 0
  rw [Nat.zero_mul, Nat.zero_add] at h
  rw [readFlag_text]
  exact h

/-! ## The buffer -/

/-- `bytes` appended to the output, as far as there is room before `ebuf`. -/
def Out.write (ebuf : Nat) (out : Out) (bytes : List Byte) : Out where
  pos := min (out.pos + bytes.length) ebuf
  mem i := if i < ebuf ∧ out.pos ≤ i then bytes.getD (i - out.pos) (out.mem i) else out.mem i

theorem Out.write_nil (h : out.pos ≤ ebuf) : out.write ebuf [] = out := by
  simp [Out.write, h]

theorem Out.write_full (h : out.pos = ebuf) (bytes : List Byte) : out.write ebuf bytes = out := by
  obtain ⟨pos, mem⟩ := out
  subst h
  have hmem : ∀ i, ¬ (i < pos ∧ pos ≤ i) := by
    intro i hi
    exact absurd hi.1 (Nat.not_lt.mpr hi.2)
  simp [Out.write, hmem]

/-- Writing in two pieces is writing the whole, cut where the buffer is full. -/
theorem Out.write_append (bytes bytes' : List Byte) :
    (out.write ebuf bytes).write ebuf bytes' = out.write ebuf (bytes ++ bytes') := by
  simp only [Out.write, List.length_append, Out.mk.injEq]
  constructor
  · omega
  · funext i
    by_cases hi : i < ebuf
    · by_cases hbefore : i < out.pos
      · simp only [hi, true_and]
        rw [if_neg (by omega), if_neg (by omega), if_neg (by omega)]
      · by_cases hfirst : i < out.pos + bytes.length
        · simp only [hi, true_and]
          rw [if_neg (by omega), if_pos (by omega), if_pos (by omega),
            List.getD_append _ _ _ _ (by omega)]
        · have hpos : i - min (out.pos + bytes.length) ebuf = i - out.pos - bytes.length := by omega
          simp only [hi, true_and]
          rw [if_pos (by omega), if_pos (by omega), if_pos (by omega), hpos,
            List.getD_append_right _ _ _ _ (by omega),
            List.getD_eq_default bytes _ (by omega)]
    · simp [hi]

/-- The position never passes the end. -/
theorem Out.write_pos_le (bytes : List Byte) : (out.write ebuf bytes).pos ≤ ebuf :=
  Nat.min_le_right _ _

/-- A byte that is stored within the buffer. -/
theorem Out.put_eq (hpos : out.pos < ebuf) (hn : ebuf < n) (b : Byte) :
    out.put n b = .ok (out.write ebuf [b]) := by
  have hput : out.put n b = .ok ⟨out.pos + 1, Function.update out.mem out.pos b⟩ := by
    rw [Out.put, Out.set, if_pos (hpos.trans hn)]
    rfl
  rw [hput, Out.write, List.length_singleton, Nat.min_eq_left hpos]
  congr 2
  funext i
  by_cases hi : i = out.pos
  · subst hi
    simp [hpos]
  · rw [Function.update_of_ne hi]
    split
    · next h => rw [List.getD_eq_default _ _ (by simp; omega)]
    · rfl

/-- A string is written as far as there is room. -/
theorem outputStr_eq (hn : ebuf < n) (hs : 0 ∉ s) (hpos : out.pos ≤ ebuf) :
    outputStr n ebuf out s = .ok (out.write ebuf s) := by
  induction s generalizing out with
  | nil => rw [Out.write_nil hpos]; rfl
  | cons b s ih =>
    have hb : b ≠ 0 := fun h => hs (h ▸ List.mem_cons_self)
    have hs' : 0 ∉ s := fun h => hs (List.mem_cons_of_mem _ h)
    rw [outputStr]
    by_cases hfull : out.pos = ebuf
    · rw [if_neg (fun h => h.1 hfull), Out.write_full hfull]
      rfl
    · rw [if_pos ⟨hfull, hb⟩, Out.put_eq (by omega) hn, ok_bind,
        ih hs' (Out.write_pos_le _), Out.write_append]
      rfl

/-! ## What is printed -/

/-- What is printed for it. A string is printed as it is, without padding. -/
def Body.bytes (padding : Byte) (paddWidth : CInt) : Body → List Byte
  | .int l x => numberBytes l.base x l.sig padding paddWidth
  | .longLong l x => numberBytes l.base x l.sig padding paddWidth
  | .string s _ => s
  | .char x => [x.setWidth 8]
  | .percent => [ascii '%']

/-- The number fits its scratch array, of 15 bytes before the NUL for an `int` and 31 for a
    `long long`, and is not one that `%x` never ends on. -/
def Body.Safe (paddWidth : CInt) : Body → Prop
  | .int l x => (l = .x → x = 0) ∧ Fits 15 (significant l.base x l.sig) paddWidth
  | .longLong l x => Fits 31 (significant l.base x l.sig) paddWidth
  | .string _ _ | .char _ | .percent => True

/-- How many bytes are printed. -/
def Body.length (paddWidth : CInt) : Body → Nat
  | .int l x => max paddWidth.toInt.toNat (significant l.base x l.sig)
  | .longLong l x => max paddWidth.toInt.toNat (significant l.base x l.sig)
  | .string s _ => s.length
  | .char _ | .percent => 1

/-- What an item adds to the text. -/
def Item.bytes : Item → List Byte
  | .literal b _ => [b]
  | .directive dir => dir.body.bytes dir.padding dir.paddWidth

/-- A directive is printed without a store outside of the scratch array. -/
def Item.Safe : Item → Prop
  | .literal _ _ => True
  | .directive dir => dir.body.Safe dir.paddWidth

/-- How many bytes an item adds. -/
def Item.length : Item → Nat
  | .literal _ _ => 1
  | .directive dir => dir.body.length dir.paddWidth

/-- Every item that is reached before the `room` is used up is one that can be printed. -/
def SafeFrom : Nat → List Item → Prop
  | _, [] => True
  | room, item :: items => room = 0 ∨ item.Safe ∧ SafeFrom (room - item.length) items

instance (room d : Nat) (paddWidth : CInt) : Decidable (Fits room d paddWidth) :=
  inferInstanceAs (Decidable (_ ∧ _))

instance (paddWidth : CInt) : (body : Body) → Decidable (body.Safe paddWidth)
  | .int _ _ => inferInstanceAs (Decidable (_ ∧ _))
  | .longLong _ _ => inferInstanceAs (Decidable (Fits _ _ _))
  | .string _ _ => inferInstanceAs (Decidable True)
  | .char _ => inferInstanceAs (Decidable True)
  | .percent => inferInstanceAs (Decidable True)

instance : (item : Item) → Decidable item.Safe
  | .literal _ _ => inferInstanceAs (Decidable True)
  | .directive dir => inferInstanceAs (Decidable (dir.body.Safe dir.paddWidth))

instance decidableSafeFrom : (room : Nat) → (items : List Item) → Decidable (SafeFrom room items)
  | _, [] => inferInstanceAs (Decidable True)
  | room, item :: items =>
    have := decidableSafeFrom (room - item.length) items
    inferInstanceAs (Decidable (room = 0 ∨ item.Safe ∧ SafeFrom (room - item.length) items))

theorem Letter.one_lt_base (l : Letter) : 1 < l.base := by
  cases l <;> decide

/-- An `int` has at most ten digits and a sign. -/
theorem significant_int_le (l : Letter) (x : CInt) : significant l.base x l.sig ≤ 11 := by
  refine significant_le (k := 10) l.one_lt_base (by decide) ?_ x l.sig
  cases l <;> decide

theorem significant_longLong_le (l : Letter) (x : Word) : significant l.base x l.sig ≤ 21 := by
  refine significant_le (k := 20) l.one_lt_base (by decide) ?_ x l.sig
  cases l <;> decide

/-- As many bytes as the length says. -/
theorem Body.length_bytes {body : Body} (h : body.Safe paddWidth) (padding : Byte) :
    (body.bytes padding paddWidth).length = body.length paddWidth := by
  cases body with
  | int l x =>
    have hle := significant_int_le l x
    exact length_numberBytes_of_fits (by omega) h.2
  | longLong l x =>
    have hle := significant_longLong_le l x
    exact length_numberBytes_of_fits (by omega) h
  | string s hs => rfl
  | char x => rfl
  | percent => rfl

theorem Item.length_bytes {item : Item} (h : item.Safe) : item.bytes.length = item.length := by
  cases item with
  | literal b hb => rfl
  | directive dir => exact Body.length_bytes h _

/-! ## The number printers -/

theorem digitByte_ne_zero {j : Nat} (h : j < 16) : digitByte j ≠ 0 := by
  have hall : ∀ j : Fin 16, digitByte j.val ≠ 0 := by decide
  exact hall ⟨j, h⟩

/-- No number has a zero byte in it, which would end the text. -/
theorem zero_not_mem_numberBytes (l : Letter) (x : BitVec w) (sig : Bool) (hpadding : padding ≠ 0)
    (paddWidth : CInt) : 0 ∉ numberBytes l.base x sig padding paddWidth := by
  intro h
  rw [numberBytes, List.mem_append, List.mem_append] at h
  obtain (h | h) | h := h
  · unfold signBytes at h
    split at h
    · exact absurd (List.mem_singleton.mp h) (by decide)
    · exact absurd h List.not_mem_nil
  · exact hpadding (List.eq_of_mem_replicate h).symm
  · obtain ⟨j, hj, hzero⟩ := List.mem_map.mp h
    have hbase : l.base ≤ 16 := by cases l <;> decide
    exact digitByte_ne_zero ((Numeral.lt_of_mem l.one_lt_base hj).trans_le hbase) hzero

/-- A number that fits its scratch array is printed whole. -/
theorem printNumber_letter {w room : Nat} {base : BitVec w} (l : Letter) (x : BitVec w)
    (hbase : base.toNat = l.base) (hd : significant l.base x l.sig ≤ room) (hroom : room < 2 ^ 31)
    (padding : Byte) (paddWidth : CInt) :
    printNumber (room + 1) x l.sig base padding paddWidth =
      if Fits room (significant l.base x l.sig) paddWidth then
        .ok (numberBytes l.base x l.sig padding paddWidth)
      else .error .scratch := by
  have hb : 1 < base.toNat := hbase ▸ l.one_lt_base
  rw [printNumber_eq hb, hbase, length_numberBytes, Nat.add_sub_cancel]
  simp only [fits_iff hd hroom]

/-- What the printers do with the scratch array's contents. -/
theorem bind_outputStr {c : Prop} [Decidable c] (hn : ebuf < n) (hpos : out.pos ≤ ebuf)
    (hs : 0 ∉ s) : ((if c then Except.ok s else .error .scratch) >>= outputStr n ebuf out) =
      if c then .ok (out.write ebuf s) else .error .scratch := by
  split
  · exact outputStr_eq hn hs hpos
  · rfl

/-- The two functions of the source, on a position within the buffer. -/
theorem output32_eq {base : CInt} (hn : ebuf < n) (hpos : out.pos ≤ ebuf) (hpadding : padding ≠ 0)
    (l : Letter) (x : CInt) (hbase : base.toNat = l.base) (paddWidth : CInt) :
    output32 n ebuf out x l.sig base padding paddWidth =
      if Fits 15 (significant l.base x l.sig) paddWidth then
        .ok (out.write ebuf (numberBytes l.base x l.sig padding paddWidth))
      else .error .scratch := by
  have hd : significant l.base x l.sig ≤ 15 := (significant_int_le l x).trans (by decide)
  rw [output32, printNumber_letter l x hbase hd (by decide)]
  exact bind_outputStr hn hpos (zero_not_mem_numberBytes l x l.sig hpadding paddWidth)

theorem output64_eq {base : Word} (hn : ebuf < n) (hpos : out.pos ≤ ebuf) (hpadding : padding ≠ 0)
    (l : Letter) (x : Word) (hbase : base.toNat = l.base) (paddWidth : CInt) :
    output64 n ebuf out x l.sig base padding paddWidth =
      if Fits 31 (significant l.base x l.sig) paddWidth then
        .ok (out.write ebuf (numberBytes l.base x l.sig padding paddWidth))
      else .error .scratch := by
  have hd : significant l.base x l.sig ≤ 31 := (significant_longLong_le l x).trans (by decide)
  rw [output64, printNumber_letter l x hbase hd (by decide)]
  exact bind_outputStr hn hpos (zero_not_mem_numberBytes l x l.sig hpadding paddWidth)

/-- `%x` prints nothing but zero. -/
theorem output32_one (hn : ebuf < n) (hpos : out.pos ≤ ebuf) (hpadding : padding ≠ 0) (x : CInt)
    (paddWidth : CInt) : output32 n ebuf out x false 1 padding paddWidth =
      if (Body.int .x x).Safe paddWidth then
        .ok (out.write ebuf ((Body.int .x x).bytes padding paddWidth))
      else .error .scratch := by
  by_cases hx : x = 0
  · subst hx
    have hbase : output32 n ebuf out 0 false 1 padding paddWidth =
        output32 n ebuf out 0 Letter.x.sig 16 padding paddWidth := by
      rw [output32, output32, printNumber_zero 16 (by decide) 1 16]
      rfl
    rw [hbase, output32_eq hn hpos hpadding .x 0 rfl]
    simp [Body.Safe, Body.bytes]
  · have hunsafe : ¬ (Body.int .x x).Safe paddWidth := fun h => hx (h.1 rfl)
    rw [if_neg hunsafe, output32, printNumber_one hx]
    rfl

/-! ## The loop over the format -/

/-- The scratch array of an `int` has room for fifteen bytes and a zero. -/
theorem safe_int_iff {l : Letter} (hl : l ≠ .x) (x : CInt) :
    (Body.int l x).Safe paddWidth ↔ Fits 15 (significant l.base x l.sig) paddWidth :=
  and_iff_right fun h => absurd h hl

theorem bind_arguments {c : Prop} [Decidable c] {e : Fault} (out : Out) (args : List Arg) :
    ((if c then Except.ok out else .error e) >>= fun out => .ok (out, args)) =
      if c then .ok (out, args) else .error e := by
  split <;> rfl

/-- A conversion appends its bytes, or overruns the scratch array. -/
theorem convert_eq (hn : ebuf < n) (hpos : out.pos < ebuf) (hpadding : padding ≠ 0) (body : Body)
    (args : List Arg) : convert n ebuf padding paddWidth out (body.args ++ args) body.conversion =
      if body.Safe paddWidth then .ok (out.write ebuf (body.bytes padding paddWidth), args)
      else .error .scratch := by
  have hle : out.pos ≤ ebuf := hpos.le
  rw [← bind_arguments]
  cases body with
  | int l x =>
    cases l with
    | d =>
      change (output32 n ebuf out x Letter.d.sig 10 padding paddWidth >>= _) = _
      rw [output32_eq hn hle hpadding .d x rfl]
      simp only [safe_int_iff (show Letter.d ≠ .x by decide)]
      rfl
    | u =>
      change (output32 n ebuf out x Letter.u.sig 10 padding paddWidth >>= _) = _
      rw [output32_eq hn hle hpadding .u x rfl]
      simp only [safe_int_iff (show Letter.u ≠ .x by decide)]
      rfl
    | x =>
      -- base 1, and not 16 as for `%lx`
      change (output32 n ebuf out x false 1 padding paddWidth >>= _) = _
      rw [output32_one hn hle hpadding]
      rfl
  | longLong l x =>
    cases l with
    | d =>
      change (output64 n ebuf out x Letter.d.sig 10 padding paddWidth >>= _) = _
      rw [output64_eq hn hle hpadding .d x rfl]
      rfl
    | u =>
      change (output64 n ebuf out x Letter.u.sig 10 padding paddWidth >>= _) = _
      rw [output64_eq hn hle hpadding .u x rfl]
      rfl
    | x =>
      change (output64 n ebuf out x Letter.x.sig 16 padding paddWidth >>= _) = _
      rw [output64_eq hn hle hpadding .x x rfl]
      rfl
  | string s hs =>
    change (outputStr n ebuf out s >>= _) = _
    rw [outputStr_eq hn hs hle, if_pos (show (Body.string s hs).Safe paddWidth from trivial)]
    rfl
  | char x =>
    change (out.put n (x.setWidth 8) >>= _) = _
    rw [Out.put_eq hpos hn, if_pos (show (Body.char x).Safe paddWidth from trivial)]
    rfl
  | percent =>
    change (out.put n (ascii '%') >>= _) = _
    rw [Out.put_eq hpos hn, if_pos (show Body.percent.Safe paddWidth from trivial)]
    rfl

theorem padding_ne_zero (dir : Directive) : dir.padding ≠ 0 := by
  unfold Directive.padding
  split <;> decide

/-- One item of the format: nothing more is read once the buffer is full. -/
theorem vsnprintfLoop_item (hn : ebuf < n) (hpos : out.pos ≤ ebuf) (item : Item) (f : List Byte)
    (args : List Arg) : vsnprintfLoop n ebuf (item.text ++ f) (item.args ++ args) out =
      if out.pos = ebuf then .ok out
      else if item.Safe then vsnprintfLoop n ebuf f args (out.write ebuf item.bytes)
      else .error .scratch := by
  by_cases hfull : out.pos = ebuf
  · rw [if_pos hfull]
    cases item <;> simp [Item.text, vsnprintfLoop, hfull] <;> rfl
  · have hlt : out.pos < ebuf := lt_of_le_of_ne hpos hfull
    rw [if_neg hfull]
    cases item with
    | literal b hb =>
      rw [if_pos (show (Item.literal b hb).Safe from trivial)]
      change vsnprintfLoop n ebuf (b :: f) args out = _
      rw [vsnprintfLoop, if_neg (not_or.mpr ⟨hb.1, hfull⟩), if_pos hb.2, Out.put_eq hlt hn,
        ok_bind]
      rfl
    | directive dir =>
      change vsnprintfLoop n ebuf (ascii '%' :: (dir.text ++ f)) (dir.body.args ++ args) out = _
      have hpercent : ascii '%' ≠ 0 := by decide
      -- what is read of a directive ends where its text does
      have hread : readConversion (readWidth 0 (readFlag (dir.text ++ f)).2).2 =
          some (dir.body.conversion, f) := by
        rw [readWidth_directive, readConversion_text]
      rw [vsnprintfLoop, if_neg (not_or.mpr ⟨hpercent, hfull⟩), if_neg (not_not.mpr rfl)]
      split
      · next hnone => rw [hread] at hnone; cases hnone
      · next conv rest hsome =>
        rw [hread] at hsome
        cases hsome
        rw [readWidth_directive, readFlag_text]
        change (convert n ebuf dir.padding dir.paddWidth out (dir.body.args ++ args)
          dir.body.conversion >>= fun r => vsnprintfLoop n ebuf f r.2 r.1) = _
        rw [convert_eq hn hlt (padding_ne_zero dir)]
        by_cases hsafe : dir.body.Safe dir.paddWidth
        · rw [if_pos hsafe, if_pos (show (Item.directive dir).Safe from hsafe)]
          rfl
        · rw [if_neg hsafe, if_neg (show ¬ (Item.directive dir).Safe from hsafe)]
          rfl

/-- The whole format, item by item. -/
theorem vsnprintfLoop_eq (hn : ebuf < n) (items : List Item) (hpos : out.pos ≤ ebuf) :
    vsnprintfLoop n ebuf (text items) (arguments items) out =
      if SafeFrom (ebuf - out.pos) items then .ok (out.write ebuf (items.flatMap Item.bytes))
      else .error .scratch := by
  induction items generalizing out with
  | nil =>
    rw [if_pos (show SafeFrom _ [] from trivial)]
    change vsnprintfLoop n ebuf [] [] out = .ok (out.write ebuf [])
    rw [vsnprintfLoop, Out.write_nil hpos]
    rfl
  | cons item items ih =>
    rw [text_cons, arguments_cons, vsnprintfLoop_item hn hpos]
    by_cases hfull : out.pos = ebuf
    · rw [if_pos hfull, if_pos (show SafeFrom _ (item :: items) from Or.inl (by omega)),
        Out.write_full hfull]
    · rw [if_neg hfull]
      have hroom : ebuf - out.pos ≠ 0 := by omega
      by_cases hsafe : item.Safe
      · have hleft : ebuf - (out.write ebuf item.bytes).pos = ebuf - out.pos - item.length := by
          change ebuf - min (out.pos + item.bytes.length) ebuf = _
          rw [Item.length_bytes hsafe]
          omega
        rw [if_pos hsafe, ih (Out.write_pos_le _), hleft, Out.write_append]
        simp [SafeFrom, hroom, hsafe]
      · have hunsafe : ¬ SafeFrom (ebuf - out.pos) (item :: items) := by
          simp [SafeFrom, hroom, hsafe]
        rw [if_neg hsafe, if_neg hunsafe]

/-- The buffer after the loop. -/
def printed (n : Nat) (items : List Item) (mem : Nat → Byte) : Out :=
  (Out.mk 0 mem).write (n - 1) (items.flatMap Item.bytes)

/-- What `vsnprintf` does with a format of directives. -/
theorem vsnprintf_eq (hn : 1 ≤ n) (items : List Item) (mem : Nat → Byte) :
    vsnprintf n (text items) (arguments items) mem =
      if SafeFrom (n - 1) items then
        .ok (Function.update (printed n items mem).mem (printed n items mem).pos 0,
          BitVec.ofNat 32 (n - 1 - (printed n items mem).pos))
      else .error .scratch := by
  have hebuf : n - 1 < n := by omega
  rw [vsnprintf, if_neg (by omega)]
  change (vsnprintfLoop n (n - 1) (text items) (arguments items) ⟨0, mem⟩ >>= _) = _
  rw [vsnprintfLoop_eq hebuf items (Nat.zero_le _)]
  change ((if SafeFrom (n - 1) items then Except.ok (printed n items mem) else _) >>= _) = _
  by_cases hsafe : SafeFrom (n - 1) items
  · have hset : (printed n items mem).set n 0 = .ok { printed n items mem with
        mem := Function.update (printed n items mem).mem (printed n items mem).pos 0 } :=
      if_pos (lt_of_le_of_lt (Out.write_pos_le _) hebuf)
    rw [if_pos hsafe, if_pos hsafe, ok_bind, hset]
    rfl
  · rw [if_neg hsafe, if_neg hsafe]
    rfl

end Snprintf
end SepKernel
