import SepKernel.GenCap

/-!
# The C that the generator prints

The functions that `scripts/cap_gen.py` prints are made of few kinds of lines. Here are the lines
with the names that stand in them, what a compiler asks before it accepts a function of such lines,
and what the function does. A name stands for the last thing that was declared with it, and may be
declared once in a scope: the parameters of a function and what its body declares are in one scope,
and hide what the rest of the program has declared.

Whether a name can be declared at all depends on the compiler and on the macros where the header is
included. `declarable` says so; a keyword is not declarable, and neither is a name that a macro
replaces.
-/

namespace SepKernel
namespace CapGen

/-! ## Lines -/

/-- The expressions that stand in printed lines. -/
inductive CExpr where
  | ident (x : String)
  /-- `0x{digits}ull`. -/
  | hex (digits : List Nat)
  | zero
  /-- `{x}.word{i}`. -/
  | word (x : String) (i : Nat)
  /-- `({ty}){e}`. -/
  | cast (ty : String) (e : CExpr)
  | not (e : CExpr)
  | and (e e' : CExpr)
  | or (e e' : CExpr)
  | shl (e : CExpr) (n : Nat)
  | shr (e : CExpr) (n : Nat)

/-- What is asserted. -/
inductive CCond where
  /-- `{f}({x}, {t})`, of a capability and a type. -/
  | call (f x t : String)
  /-- `{e} == {e'}`. -/
  | eq (e e' : CExpr)
  /-- An assert of the schema, which says something of the parameters. -/
  | given (a : (String → Word) → Bool)

/-- The lines. -/
inductive CStmt where
  | kassert (c : CCond)
  /-- `{ty} {x};`. -/
  | decl (ty x : String)
  /-- `{x}.word{i} = {e};`. -/
  | assign (x : String) (i : Nat) (e : CExpr)
  /-- `{x}.word{i} |= {e};`. -/
  | orAssign (x : String) (i : Nat) (e : CExpr)

/-- What is returned. -/
inductive CResult where
  | word (e : CExpr)
  | cap (x : String)

/-- A printed function. Its own name stands in none of its lines. -/
structure CFun where
  /-- The types and names of the parameters. -/
  params : List (String × String)
  body : List CStmt
  result : CResult

/-! ## What the compiler accepts -/

/-- The two types that values have. -/
inductive CType where
  | cap | word
deriving DecidableEq

/-- What a name can stand for. -/
inductive Entity where
  | type (t : CType)
  | function
  | constant
  | var (t : CType)
deriving DecidableEq

/-- `CAP_TYPE_{cap_name.upper()}`. -/
def capTypeName (capName : String) : String := "CAP_TYPE_" ++ capName.toUpper

/-- What the printed lines name that is declared outside of the functions. `kassert` is a macro, whose
    text names the functions `kprintf` and `hang`. -/
def globals (capName : String) : List (String × Entity) :=
  [("uint64_t", .type .word), ("cap_t", .type .cap), ("cap_is_type", .function),
    ("kprintf", .function), ("hang", .function), (capTypeName capName, .constant)]

/-- What looks like a name and is none. -/
def keywords : List String :=
  ["auto", "break", "case", "char", "const", "continue", "default", "do", "double", "else", "enum",
    "extern", "float", "for", "goto", "if", "inline", "int", "long", "register", "restrict",
    "return", "short", "signed", "sizeof", "static", "struct", "switch", "typedef", "union",
    "unsigned", "void", "volatile", "while", "asm", "typeof", "_Alignas", "_Alignof", "_Atomic",
    "_Bool", "_Complex", "_Generic", "_Imaginary", "_Noreturn", "_Static_assert", "_Thread_local"]

/-- What can be declared where no macro is in the way. -/
def isName (x : String) : Bool :=
  match x.toList with
  | [] => false
  | ch :: chs => (ch.isAlpha || ch == '_') && chs.all (fun ch => ch.isAlphanum || ch == '_') &&
    !keywords.contains x

/-- The parameters and what the body has declared so far. -/
abbrev Locals := List (String × CType)

section

variable (declarable : String → Bool) (capName : String)

/-- What a name stands for in a function. -/
def entity (ls : Locals) (x : String) : Option Entity :=
  match ls.lookup x with
  | some t => some (.var t)
  | none => (globals capName).lookup x

/-- The declaration `{ty} {x}`. -/
def declare (ls : Locals) (ty x : String) : Option Locals :=
  match entity capName ls ty with
  | some (.type t) => if declarable x = true ∧ ls.lookup x = none then some ((x, t) :: ls) else none
  | _ => none

/-- `{x}.word{i}` is a member of a capability. -/
def isMember (ls : Locals) (x : String) (i : Nat) : Bool :=
  entity capName ls x = some (.var .cap) && decide (i < 2)

/-- Every name stands for what it is used as. -/
def CExpr.check (ls : Locals) : CExpr → Bool
  | .ident x => entity capName ls x = some (.var .word) || entity capName ls x = some .constant
  | .hex _ | .zero => true
  | .word x i => isMember capName ls x i
  | .cast ty e => entity capName ls ty = some (.type .word) && e.check ls
  | .not e | .shl e _ | .shr e _ => e.check ls
  | .and e e' | .or e e' => e.check ls && e'.check ls

/-- The asserts of the schema are taken as they are: what they may name is the schema's affair. -/
def CCond.check (ls : Locals) : CCond → Bool
  | .call f x t => entity capName ls f = some .function && entity capName ls x = some (.var .cap) &&
    (CExpr.ident t).check capName ls
  | .eq e e' => e.check capName ls && e'.check capName ls
  | .given _ => true

/-- A line is accepted, with these declarations behind it. -/
def CStmt.check (ls : Locals) : CStmt → Option Locals
  | .kassert c =>
    if c.check capName ls = true ∧ entity capName ls "kprintf" = some .function ∧
      entity capName ls "hang" = some .function then some ls else none
  | .decl ty x => declare declarable capName ls ty x
  | .assign x i e | .orAssign x i e =>
    if isMember capName ls x i = true ∧ e.check capName ls = true then some ls else none

/-- What is returned is of the function's type. -/
def CResult.check (ls : Locals) : CResult → Bool
  | .word e => e.check capName ls
  | .cap x => entity capName ls x = some (.var .cap)

/-- The parameters are declared from the first to the last. -/
def declareAll (ls : Locals) : List (String × String) → Option Locals
  | [] => some ls
  | (ty, x) :: params => (declare declarable capName ls ty x).bind (declareAll · params)

/-- A line sees what those before it have declared. -/
def checkAll (ls : Locals) : List CStmt → Option Locals
  | [] => some ls
  | s :: body => (s.check declarable capName ls).bind (checkAll · body)

/-- The compiler accepts the function. -/
def CFun.Compiles (fn : CFun) : Prop :=
  ∃ ls ls', declareAll declarable capName [] fn.params = some ls ∧
    checkAll declarable capName ls fn.body = some ls' ∧ fn.result.check capName ls' = true

end

/-! ## What a function does -/

/-- The values of the names that stand for words and capabilities. -/
structure CEnv where
  words : String → Word
  caps : String → Cap

/-- A getter returns a word, the others return a capability. -/
inductive CValue where
  | word (w : Word)
  | cap (cap : Cap)

/-- The digits `'ff'*size`. -/
def ffs (size : Nat) : List Nat := List.replicate (2 * size) 0xf

/-- The digits `'00'*n`. -/
def zeros (n : Nat) : List Nat := List.replicate (2 * n) 0

/-- The literal `0x{digits}ull`. -/
def hexLiteral (digits : List Nat) : Word :=
  BitVec.ofNat 64 (digits.foldl (fun acc d => 16 * acc + d) 0)

/-- `cap.word{i}`. -/
def capWord (cap : Cap) (i : Nat) : Word := if i == 0 then cap.word0 else cap.word1

/-- `cap.word{i} = x`. -/
def setCapWord (cap : Cap) (i : Nat) (x : Word) : Cap :=
  if i == 0 then { cap with word0 := x } else { cap with word1 := x }

/-- An assignment to one word of one capability. -/
def CEnv.setWord (env : CEnv) (x : String) (i : Nat) (w : Word) : CEnv :=
  { env with caps := Function.update env.caps x (setCapWord (env.caps x) i w) }

/-- Words are of 64 bits, so that what is shifted out is lost. -/
def CExpr.eval (env : CEnv) : CExpr → Word
  | .ident x => env.words x
  | .hex digits => hexLiteral digits
  | .zero => 0
  | .word x i => capWord (env.caps x) i
  | .cast _ e => e.eval env
  | .not e => ~~~(e.eval env)
  | .and e e' => e.eval env &&& e'.eval env
  | .or e e' => e.eval env ||| e'.eval env
  | .shl e n => e.eval env <<< n
  | .shr e n => e.eval env >>> n

/-- The one function that is called is `cap_is_type`. Its second parameter is an enumeration, of 32
    bits. -/
def CCond.eval (env : CEnv) : CCond → Bool
  | .call _ x t => capGetType (env.caps x) == ((env.words t).setWidth 32).setWidth 64
  | .eq e e' => e.eval env == e'.eval env
  | .given a => a env.words

/-- A capability that is declared has any value to begin with. -/
def CStmt.exec (env : CEnv) : CStmt → Except Halt CEnv
  | .kassert c => do
    SepKernel.kassert (c.eval env)
    return env
  | .decl _ _ => .ok env
  | .assign x i e => .ok (env.setWord x i (e.eval env))
  | .orAssign x i e => .ok (env.setWord x i (capWord (env.caps x) i ||| e.eval env))

/-- What the caller gets. -/
def CResult.eval (env : CEnv) : CResult → CValue
  | .word e => .word (e.eval env)
  | .cap x => .cap (env.caps x)

/-- From the first line to the last, or to the first assert that fails. -/
def execAll (env : CEnv) : List CStmt → Except Halt CEnv
  | [] => .ok env
  | s :: body => do execAll (← s.exec env) body

/-- A name that is no parameter stands for the number of the capability's type, if for any word. -/
def CFun.enter (fn : CFun) (tag : BitVec 8) (args : CEnv) : CEnv where
  words x := if x ∈ fn.params.map Prod.snd then args.words x else tag.setWidth 64
  caps := args.caps

/-- A call of the function. Parameters go by their names, as in the text. -/
def CFun.run (fn : CFun) (tag : BitVec 8) (args : CEnv) : Except Halt CValue := do
  return fn.result.eval (← execAll (fn.enter tag args) fn.body)

/-- A call with one capability, and a word if there is a parameter for one. -/
def CFun.call (fn : CFun) (tag : BitVec 8) (cap : Cap) (v : Word) : Except Halt CValue :=
  fn.run tag ⟨fun _ => v, fun _ => cap⟩

/-! ## Scopes -/

variable {declarable : String → Bool} {capName ty x y : String} {ls ls' : Locals}
  {l l' : List CStmt} {env env' : CEnv} {params : List (String × String)} {ent : Entity} {t : CType}

/-- The names that the printed lines need to stand for what is declared outside of the functions. -/
def needed (capName : String) : List String :=
  ["uint64_t", "cap_t", "cap_is_type", "kprintf", "hang", capTypeName capName]

theorem lookup_eq_none {α : Type} {m : List (String × α)} : m.lookup x = none ↔ x ∉ m.map Prod.fst := by
  rw [List.lookup_eq_none_iff, List.mem_map]
  constructor
  · rintro h ⟨p, hp, rfl⟩
    simpa using h p hp
  · intro h p hp
    rw [bne_iff_ne]
    rintro rfl
    exact h ⟨p, hp, rfl⟩

/-- What is declared in a function hides what is declared outside. -/
theorem entity_of_mem (h : x ∈ ls.map Prod.fst) : ∃ t, entity capName ls x = some (.var t) := by
  rw [entity]
  cases hl : ls.lookup x with
  | some t => exact ⟨t, rfl⟩
  | none => exact absurd h (lookup_eq_none.mp hl)

/-- Where everything that is declared has one type. -/
theorem entity_of_forall (hls : ∀ p ∈ ls, p.2 = t) (h : x ∈ ls.map Prod.fst) :
    entity capName ls x = some (.var t) := by
  rw [entity]
  cases hl : ls.lookup x with
  | none => exact absurd h (lookup_eq_none.mp hl)
  | some t' =>
    obtain ⟨l₁, l₂, rfl, -⟩ := List.lookup_eq_some_iff.mp hl
    have ht : t' = t := hls (x, t') (List.mem_append_right _ List.mem_cons_self)
    rw [ht]

/-- What is not declared in a function stands for what it does outside. -/
theorem entity_of_not_mem (h : x ∉ ls.map Prod.fst) :
    entity capName ls x = (globals capName).lookup x := by
  rw [entity, lookup_eq_none.mpr h]

/-- What is declared outside is not hidden where it is found. -/
theorem not_mem_of_entity (h : entity capName ls x = some ent) (hent : ∀ t, ent ≠ .var t) :
    x ∉ ls.map Prod.fst := by
  intro hx
  obtain ⟨t, ht⟩ := entity_of_mem hx
  exact hent t (Option.some.inj (h.symm.trans ht))

/-- The constant begins with a capital letter, unlike everything else that is needed. -/
theorem capTypeName_ne (capName : String) (h : x.toList.head? ≠ some 'C') : capTypeName capName ≠ x := by
  rintro rfl
  exact h (by rw [capTypeName, String.toList_append]; rfl)

/-- None of the needed names is hidden. -/
def Clear (capName : String) (ls : Locals) : Prop := ∀ x ∈ needed capName, x ∉ ls.map Prod.fst

/-- Nor does one more declaration hide any, of a name that is not needed. -/
theorem Clear.cons (h : Clear capName ls) (hx : x ∉ needed capName) :
    Clear capName ((x, t) :: ls) := by
  intro y hy hmem
  rcases List.mem_cons.mp hmem with rfl | hmem
  · exact hx hy
  · exact h y hy hmem

theorem Clear.uint64 (h : Clear capName ls) : entity capName ls "uint64_t" = some (.type .word) := by
  rw [entity_of_not_mem (h _ (by simp [needed]))]
  rfl

theorem Clear.cap (h : Clear capName ls) : entity capName ls "cap_t" = some (.type .cap) := by
  rw [entity_of_not_mem (h _ (by simp [needed]))]
  rfl

theorem Clear.isType (h : Clear capName ls) : entity capName ls "cap_is_type" = some .function := by
  rw [entity_of_not_mem (h _ (by simp [needed]))]
  rfl

theorem Clear.kassert (h : Clear capName ls) : entity capName ls "kprintf" = some .function ∧
    entity capName ls "hang" = some .function := by
  rw [entity_of_not_mem (h _ (by simp [needed])), entity_of_not_mem (h _ (by simp [needed]))]
  exact ⟨rfl, rfl⟩

theorem Clear.constant (h : Clear capName ls) :
    entity capName ls (capTypeName capName) = some .constant := by
  rw [entity_of_not_mem (h _ (by simp [needed]))]
  have hne : ∀ {x : String}, x.toList.head? ≠ some 'C' → (capTypeName capName == x) = false :=
    fun hx => beq_false_of_ne (capTypeName_ne capName hx)
  simp only [globals, List.lookup_cons, hne (x := "uint64_t") (by decide),
    hne (x := "cap_t") (by decide), hne (x := "cap_is_type") (by decide),
    hne (x := "kprintf") (by decide), hne (x := "hang") (by decide), beq_self_eq_true]

/-! ## What is accepted -/

/-- When a declaration is accepted. -/
theorem declare_eq_some : declare declarable capName ls ty x = some ls' ↔
    ∃ t, entity capName ls ty = some (.type t) ∧ declarable x = true ∧ x ∉ ls.map Prod.fst ∧
      ls' = (x, t) :: ls := by
  rw [declare]
  split
  · next t ht =>
    rw [ht]
    constructor
    · intro h
      split at h
      · next hx => exact ⟨t, rfl, hx.1, lookup_eq_none.mp hx.2, (Option.some.inj h).symm⟩
      · cases h
    · rintro ⟨t', ht', hd, hx, rfl⟩
      obtain rfl := Entity.type.inj (Option.some.inj ht')
      rw [if_pos ⟨hd, lookup_eq_none.mpr hx⟩]
  · next hnone =>
    constructor
    · intro h
      cases h
    · rintro ⟨t, ht, -⟩
      exact absurd ht (hnone t)

/-- All parameters are declared, each once. -/
theorem declareAll_inv (h : declareAll declarable capName ls params = some ls')
    (hnd : (ls.map Prod.fst).Nodup) :
    ls'.map Prod.fst = (params.map Prod.snd).reverse ++ ls.map Prod.fst ∧
      (ls'.map Prod.fst).Nodup ∧ ∀ p ∈ params, declarable p.2 = true := by
  induction params generalizing ls with
  | nil =>
    obtain rfl := Option.some.inj h
    exact ⟨rfl, hnd, List.forall_mem_nil _⟩
  | cons p params ih =>
    obtain ⟨ls₁, h₁, h₂⟩ := Option.bind_eq_some_iff.mp h
    obtain ⟨t, -, hd, hp, rfl⟩ := declare_eq_some.mp h₁
    obtain ⟨hfst, hnd', hrest⟩ := ih h₂ (List.nodup_cons.mpr ⟨hp, hnd⟩)
    refine ⟨?_, hnd', List.forall_mem_cons.mpr ⟨hd, hrest⟩⟩
    rw [hfst, List.map_cons, List.map_cons, List.reverse_cons, List.append_assoc]
    rfl

/-- Words of different names, none of which is that of their type. -/
theorem declareAll_words (xs : List String) (hnd : xs.Nodup) (hls : ∀ x ∈ xs, x ∉ ls.map Prod.fst)
    (hd : ∀ x ∈ xs, declarable x = true) (hty : "uint64_t" ∉ xs) (hty' : "uint64_t" ∉ ls.map Prod.fst) :
    declareAll declarable capName ls (xs.map fun x => ("uint64_t", x)) =
      some ((xs.map fun x => (x, CType.word)).reverse ++ ls) := by
  induction xs generalizing ls with
  | nil => rfl
  | cons x xs ih =>
    obtain ⟨hx, hnd⟩ := List.nodup_cons.mp hnd
    obtain ⟨hxls, hls⟩ := List.forall_mem_cons.mp hls
    obtain ⟨hdx, hd⟩ := List.forall_mem_cons.mp hd
    obtain ⟨htx, hty⟩ := not_or.mp (mt List.mem_cons.mpr hty)
    have hfirst : declare declarable capName ls "uint64_t" x = some ((x, .word) :: ls) :=
      declare_eq_some.mpr ⟨.word, by rw [entity_of_not_mem hty']; rfl, hdx, hxls, rfl⟩
    have hrest := @ih ((x, .word) :: ls) hnd (fun y hy hmem => ?_) hd hty ?_
    · rw [List.map_cons, declareAll, hfirst, Option.bind_some, hrest, List.map_cons, List.reverse_cons,
        List.append_assoc]
      rfl
    · rcases List.mem_cons.mp hmem with rfl | hmem
      · exact hx hy
      · exact hls y hy hmem
    · exact mt List.mem_cons.mp (not_or.mpr ⟨htx, hty'⟩)

/-- Line by line. -/
theorem checkAll_append : checkAll declarable capName ls (l ++ l') =
    (checkAll declarable capName ls l).bind fun ls' => checkAll declarable capName ls' l' := by
  induction l generalizing ls with
  | nil => rfl
  | cons s l ih =>
    rw [List.cons_append, checkAll, checkAll, Option.bind_assoc]
    exact congrArg _ (funext fun ls' => ih)

/-- Lines that declare nothing. -/
theorem checkAll_of_forall (h : ∀ s ∈ l, s.check declarable capName ls = some ls) :
    checkAll declarable capName ls l = some ls := by
  induction l with
  | nil => rfl
  | cons s l ih =>
    obtain ⟨hs, hl⟩ := List.forall_mem_cons.mp h
    rw [checkAll, hs]
    exact ih hl

/-- What an accepted assert needs. -/
theorem check_kassert_inv {c : CCond} (h : (CStmt.kassert c).check declarable capName ls = some ls') :
    ls' = ls ∧ c.check capName ls = true ∧ entity capName ls "kprintf" = some .function ∧
      entity capName ls "hang" = some .function := by
  rw [CStmt.check] at h
  split at h
  · next hc => exact ⟨(Option.some.inj h).symm, hc⟩
  · cases h

theorem check_kassert {c : CCond} (hls : Clear capName ls) (h : c.check capName ls = true) :
    (CStmt.kassert c).check declarable capName ls = some ls := by
  rw [CStmt.check, if_pos ⟨h, hls.kassert⟩]

/-- Asserts declare nothing. -/
theorem checkAll_kasserts {cs : List CCond}
    (h : checkAll declarable capName ls (cs.map .kassert) = some ls') : ls' = ls := by
  induction cs generalizing ls with
  | nil => exact (Option.some.inj h).symm
  | cons c cs ih =>
    obtain ⟨ls₁, h₁, h₂⟩ := Option.bind_eq_some_iff.mp h
    obtain ⟨rfl, -⟩ := check_kassert_inv h₁
    exact ih h₂

/-! ## What is done -/

theorem enter_words_of_mem {fn : CFun} {tag : BitVec 8} {args : CEnv}
    (h : x ∈ fn.params.map Prod.snd) : (fn.enter tag args).words x = args.words x := if_pos h

theorem enter_words_of_not_mem {fn : CFun} {tag : BitVec 8} {args : CEnv}
    (h : x ∉ fn.params.map Prod.snd) : (fn.enter tag args).words x = tag.setWidth 64 := if_neg h

/-- An assert that fails ends the function. -/
theorem execAll_kassert (c : CCond) (body : List CStmt) :
    execAll env (.kassert c :: body) =
      (SepKernel.kassert (c.eval env)).bind fun _ => execAll env body := by
  rw [execAll, CStmt.exec]
  cases c.eval env <;> rfl

theorem execAll_append : execAll env (l ++ l') = (execAll env l).bind fun env' => execAll env' l' := by
  induction l generalizing env with
  | nil => rfl
  | cons s l ih =>
    rw [List.cons_append, execAll, execAll]
    cases hs : s.exec env with
    | error e => rfl
    | ok env' => exact ih

/-- Asserts that hold. -/
theorem execAll_kasserts {cs : List CCond} (h : ∀ c ∈ cs, c.eval env = true) :
    execAll env (cs.map .kassert) = .ok env := by
  induction cs with
  | nil => rfl
  | cons c cs ih =>
    obtain ⟨hc, hcs⟩ := List.forall_mem_cons.mp h
    rw [List.map_cons, execAll, CStmt.exec, hc]
    exact ih hcs

end CapGen
end SepKernel
