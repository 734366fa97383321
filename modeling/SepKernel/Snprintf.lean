import SepKernel.Cap

/-!
# `src/snprintf.c`

The formatter of the kernel's messages. Its two number printers write the digits of a number, the
padding and the sign from the end of a scratch array towards its start, and copy what they have
written to the buffer. Every store of the model checks its index: one outside the buffer or the
scratch array ends the run with a fault, and so does a conversion the source calls unreachable.
-/

namespace SepKernel
namespace Snprintf

/-- `char`. -/
abbrev Byte := BitVec 8

/-- `int`. -/
abbrev CInt := BitVec 32

/-- The characters of a format are bytes. -/
def ascii (c : Char) : Byte := BitVec.ofNat 8 c.toNat

/-- What C leaves undefined, or the function cannot be asked for. -/
inductive Fault where
  /-- A store outside `buf[0..n-1]`. -/
  | buffer
  /-- A store outside the scratch array. -/
  | scratch
  /-- `__builtin_unreachable()`. -/
  | unreachable
  /-- `va_arg` with a type other than that of the next argument, or with no argument left. -/
  | argument
deriving DecidableEq

/-- What `va_arg` finds. Only these types are asked for. -/
inductive Arg where
  | int (n : CInt)
  | longLong (n : Word)
  /-- The bytes before the NUL. -/
  | string (s : List Byte)

/-- The destination: how far `buf` has advanced, and the memory it points into. -/
structure Out where
  pos : Nat
  mem : Nat → Byte

/-- `*buf = b`, in a buffer of `n` bytes. -/
def Out.set (n : Nat) (out : Out) (b : Byte) : Except Fault Out :=
  if out.pos < n then .ok { out with mem := Function.update out.mem out.pos b }
  else .error .buffer

/-- `*buf++ = b`, with the check of the model on the index. -/
def Out.put (n : Nat) (out : Out) (b : Byte) : Except Fault Out := do
  let out ← out.set n b
  return { out with pos := out.pos + 1 }

/-- `outputStr`: up to the NUL of `s`, or until there is room for nothing but the NUL of the
    buffer. -/
def outputStr (n ebuf : Nat) (out : Out) : List Byte → Except Fault Out
  | [] => return out
  | b :: s => do
    if out.pos ≠ ebuf ∧ b ≠ 0 then
      outputStr n ebuf (← out.put n b) s
    else
      return out

/-! ## Numbers

`c` is the index in the scratch array that the last store went to, `chars` what lies from there to
the NUL at its end. -/

/-- `j >= 10 ? 'a' + j - 10 : '0' + j`. -/
def digitByte (j : Nat) : Byte :=
  if j ≥ 10 then ascii 'a' + BitVec.ofNat 8 j - 10 else ascii '0' + BitVec.ofNat 8 j

/-- The `do ... while (i != 0)` loop: digits from the last one on, each at the index before, and the
    width less by one for each. In base 1 no division ever makes `i` smaller. -/
def digitLoop {w : Nat} (base : BitVec w) (c : Nat) (i : BitVec w) (paddWidth : CInt)
    (chars : List Byte) : Except Fault (Nat × CInt × List Byte) :=
  match c with
  | 0 => .error .scratch
  | c + 1 =>
    let j := i % base
    let chars := digitByte j.toNat :: chars
    let i := i / base
    let paddWidth := paddWidth - 1
    if i ≠ 0 then digitLoop base c i paddWidth chars else .ok (c, paddWidth, chars)

/-- `while (padd_width > 0)`: what is left of the width is filled up, whether the array has room for
    it or not. -/
def padLoop (padding : Byte) (c : Nat) (paddWidth : CInt) (chars : List Byte) :
    Except Fault (Nat × List Byte) :=
  if paddWidth.toInt > 0 then
    match c with
    | 0 => .error .scratch
    | c + 1 => padLoop padding c (paddWidth - 1) (padding :: chars)
  else .ok (c, chars)

/-- What the two printers have in their scratch array, of `size` bytes, when they call
    `outputStr`. The negation is that of two's complement, in which the most negative number is
    its own. -/
def printNumber {w : Nat} (size : Nat) (n : BitVec w) (sig : Bool) (base : BitVec w)
    (padding : Byte) (paddWidth : CInt) : Except Fault (List Byte) := do
  let neg := n.slt 0 && sig
  let paddWidth := if neg then paddWidth - 1 else paddWidth
  let i := if neg then -n else n
  let (c, paddWidth, chars) ← digitLoop base (size - 1) i paddWidth []
  let (c, chars) ← padLoop padding c paddWidth chars
  if neg then
    match c with
    | 0 => .error .scratch
    | _ + 1 => return ascii '-' :: chars
  else
    return chars

/-- `output64`, whose scratch array has 32 bytes: room for any number in base 10, not for any
    width. -/
def output64 (n ebuf : Nat) (out : Out) (x : Word) (sig : Bool) (base : Word) (padding : Byte)
    (paddWidth : CInt) : Except Fault Out := do
  outputStr n ebuf out (← printNumber 32 x sig base padding paddWidth)

/-- `output32`, whose scratch array has 16 bytes: room for any number in base 10, not for any
    width. -/
def output32 (n ebuf : Nat) (out : Out) (x : CInt) (sig : Bool) (base : CInt) (padding : Byte)
    (paddWidth : CInt) : Except Fault Out := do
  outputStr n ebuf out (← printNumber 16 x sig base padding paddWidth)

/-! ## Directives -/

/-- `if (*f == '0')`: the padding, and where `f` is then. -/
def readFlag : List Byte → Byte × List Byte
  | b :: f => if b = ascii '0' then (ascii '0', f) else (ascii ' ', b :: f)
  | [] => (ascii ' ', [])

/-- The digits of a width. -/
def isDecimal (b : Byte) : Bool := ascii '0' ≤ b && b ≤ ascii '9'

/-- `while (*f >= '0' && *f <= '9')`. -/
def readWidth (paddWidth : CInt) : List Byte → CInt × List Byte
  | b :: f =>
    if isDecimal b then readWidth (paddWidth * 10 + (b - ascii '0').setWidth 32) f
    else (paddWidth, b :: f)
  | [] => (paddWidth, [])

/-- What may stand behind the width. Any other letter is unreachable to the source. -/
inductive Conversion where
  | d | u | x | s | c | percent | ld | lu | lx

/-- The `if` chain over `*f`, and where `f` is after it. -/
def readConversion : List Byte → Option (Conversion × List Byte)
  | b :: f =>
    if b = ascii 'd' then some (.d, f)
    else if b = ascii 'u' then some (.u, f)
    else if b = ascii 'x' then some (.x, f)
    else if b = ascii 's' then some (.s, f)
    else if b = ascii 'c' then some (.c, f)
    else if b = ascii '%' then some (.percent, f)
    else if b = ascii 'l' then
      match f with
      | b :: f =>
        if b = ascii 'd' then some (.ld, f)
        else if b = ascii 'u' then some (.lu, f)
        else if b = ascii 'x' then some (.lx, f)
        else none
      | [] => none
    else none
  | [] => none

/-- `va_arg(args, int)`. -/
def vaInt : List Arg → Except Fault (CInt × List Arg)
  | .int n :: args => .ok (n, args)
  | _ => .error .argument

/-- `va_arg(args, long long)`, for `%ld`, `%lu` and `%lx`. -/
def vaLongLong : List Arg → Except Fault (Word × List Arg)
  | .longLong n :: args => .ok (n, args)
  | _ => .error .argument

/-- `va_arg(args, char*)`, with the bytes of the string. -/
def vaString : List Arg → Except Fault (List Byte × List Arg)
  | .string s :: args => .ok (s, args)
  | _ => .error .argument

/-- The bodies of the `if` chain. For `%x` the base that is passed is 1. -/
def convert (n ebuf : Nat) (padding : Byte) (paddWidth : CInt) (out : Out) (args : List Arg) :
    Conversion → Except Fault (Out × List Arg)
  | .d => do
    let (x, args) ← vaInt args
    return (← output32 n ebuf out x true 10 padding paddWidth, args)
  | .u => do
    let (x, args) ← vaInt args
    return (← output32 n ebuf out x false 10 padding paddWidth, args)
  | .x => do
    let (x, args) ← vaInt args
    return (← output32 n ebuf out x false 1 padding paddWidth, args)
  | .s => do
    let (s, args) ← vaString args
    return (← outputStr n ebuf out s, args)
  | .c => do
    let (x, args) ← vaInt args
    return (← out.put n (x.setWidth 8), args)
  | .percent => return (← out.put n (ascii '%'), args)
  | .ld => do
    let (x, args) ← vaLongLong args
    return (← output64 n ebuf out x true 10 padding paddWidth, args)
  | .lu => do
    let (x, args) ← vaLongLong args
    return (← output64 n ebuf out x false 10 padding paddWidth, args)
  | .lx => do
    let (x, args) ← vaLongLong args
    return (← output64 n ebuf out x false 16 padding paddWidth, args)

theorem readFlag_length (f : List Byte) : (readFlag f).2.length ≤ f.length := by
  cases f with
  | nil => exact le_rfl
  | cons b f =>
    simp only [readFlag]
    split
    · exact Nat.le_succ _
    · exact le_rfl

theorem readWidth_length (w : CInt) (f : List Byte) : (readWidth w f).2.length ≤ f.length := by
  induction f generalizing w with
  | nil => exact le_rfl
  | cons b f ih =>
    simp only [readWidth]
    split
    · exact (ih _).trans (Nat.le_succ _)
    · exact le_rfl

/-- A test of the chain found the result, or one further on did. -/
theorem ite_some_inv {α : Type} {c : Prop} [Decidable c] {a r : α} {x : Option α}
    (h : (if c then some a else x) = some r) : r = a ∨ x = some r := by
  by_cases hc : c
  · rw [if_pos hc] at h
    exact Or.inl (Option.some.inj h).symm
  · rw [if_neg hc] at h
    exact Or.inr h

/-- A conversion is at least one letter, so the loop ends. -/
theorem readConversion_length {f f' : List Byte} {conv : Conversion}
    (h : readConversion f = some (conv, f')) : f'.length < f.length := by
  cases f with
  | nil => cases h
  | cons b f =>
    unfold readConversion at h
    dsimp only at h
    iterate 6
      rcases ite_some_inv h with h | h
      · cases h
        exact Nat.lt_succ_self _
    by_cases hl : b = ascii 'l'
    swap
    · rw [if_neg hl] at h
      cases h
    rw [if_pos hl] at h
    -- a long integer's letter is the second one
    cases f with
    | nil => cases h
    | cons b f =>
      iterate 3
        rcases ite_some_inv h with h | h
        · cases h
          exact (Nat.lt_succ_self _).trans (Nat.lt_succ_self _)
      cases h

/-- The `for` loop over the format. -/
def vsnprintfLoop (n ebuf : Nat) (f : List Byte) (args : List Arg) (out : Out) :
    Except Fault Out :=
  match f with
  | [] => return out
  | b :: f => do
    if b = 0 ∨ out.pos = ebuf then
      return out
    if b ≠ ascii '%' then
      vsnprintfLoop n ebuf f args (← out.put n b)
    else
      match _h : readConversion (readWidth 0 (readFlag f).2).2 with
      | none => throw .unreachable
      | some (conv, rest) =>
        let padding := (readFlag f).1
        let paddWidth := (readWidth 0 (readFlag f).2).1
        let (out, args) ← convert n ebuf padding paddWidth out args conv
        vsnprintfLoop n ebuf rest args out
termination_by f.length
decreasing_by
  · simp
  · have h₁ := readConversion_length _h
    have h₂ := readWidth_length 0 (readFlag f).2
    have h₃ := readFlag_length f
    simp only [List.length_cons]
    omega

/-- The memory from `buf` on, and the value returned. `format` is without its NUL. -/
def vsnprintf (n : Nat) (format : List Byte) (args : List Arg) (mem : Nat → Byte) :
    Except Fault ((Nat → Byte) × CInt) := do
  if n = 0 then
    return (mem, 0)
  let ebuf := n - 1
  let out ← vsnprintfLoop n ebuf format args ⟨0, mem⟩
  let out ← out.set n 0
  return (out.mem, BitVec.ofNat 32 (ebuf - out.pos))

end Snprintf
end SepKernel
