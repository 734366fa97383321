import Mathlib.Data.List.Pairwise
import Mathlib.Tactic.Ring
import SepKernel.Binpack
import SepKernel.CapUpdate
import SepKernel.PrintedC

/-!
# The accessors the generator prints

`make_getter`, `make_setter` and `make_constructor` of `scripts/cap_gen.py`, for any list of
fields. Each of the three works out the place of a field for itself, from the bins. All three
arrive at the place that `layout` gives it, and the layout has the fields one after the other
from the low end of each word, above the tag in the first, so that the laws of packed fields
apply.

The names of the fields are names in the C that is printed, beside those that the generator puts
there itself, and the accessors work as long as the two do not meet.
-/

namespace SepKernel
namespace CapGen

/-! ## The printers -/

/-- The names that get accessors. -/
def names (fields : List FieldSpec) : List String := (fields.map Prod.fst).filter (· != "padd")

/-- `cap_is_type(cap, CAP_TYPE_...)`. -/
def typeCond (capName : String) : CCond := .call "cap_is_type" "cap" (capTypeName capName)

/-- `({name} & 0x{'ff'*size}ull) == {name}`. -/
def widthCond (name : String) (size : Nat) : CCond :=
  .eq (.and (.ident name) (.hex (ffs size))) (.ident name)

/-- `if i == 0: offset += 8`. -/
def skipTag (i offset : Nat) : Nat := if i == 0 then offset + 8 else offset

/-- The getter of a field at this place. -/
def getterAt (capName : String) (i offset size : Nat) : CFun where
  params := [("cap_t", "cap")]
  body := [.kassert (typeCond capName)]
  result := .word (
    if offset ≠ 0 then .and (.shr (.word "cap" i) offset) (.hex (ffs size))
    else .and (.word "cap" i) (.hex (ffs size)))

/-- Padding has no getter. -/
def makeGetter (capName name : String) (size : Nat) (bins : List (List FieldSpec)) : Option CFun :=
  if name == "padd" then none
  else do
    let (i, b) ← getBin bins name
    let offset := skipTag i (← getOffset b name)
    some (getterAt capName i offset size)

/-- The setter of a field at this place. The mask has zeros behind the field's own digits. -/
def setterAt (capName name : String) (i offset size : Nat) : CFun :=
  let mask := ffs size ++ zeros (offset / 8)
  { params := [("cap_t", "cap"), ("uint64_t", name)]
    body := [.kassert (typeCond capName), .kassert (widthCond name size),
      .assign "cap" i (
        if offset ≠ 0 then
          .or (.and (.word "cap" i) (.not (.hex mask))) (.shl (.ident name) offset)
        else .or (.and (.word "cap" i) (.not (.hex mask))) (.ident name))]
    result := .cap "cap" }

/-- Padding has no setter. -/
def makeSetter (capName name : String) (size : Nat) (bins : List (List FieldSpec)) : Option CFun :=
  if name == "padd" then none
  else do
    let (i, b) ← getBin bins name
    let offset := skipTag i (← getOffset b name)
    some (setterAt capName name i offset size)

/-- A line of the constructor that puts a field in its place. -/
structure Store where
  i : Nat
  offset : Nat
  name : String

/-- As the generator prints it: a shift by zero is left out. -/
def Store.line (st : Store) : CStmt :=
  if st.offset ≠ 0 then .orAssign "c" st.i (.shl (.ident st.name) st.offset)
  else .orAssign "c" st.i (.ident st.name)

/-- The inner loop of the constructor, over the rest of a bin. -/
def storesOfBin (i : Nat) (b : List FieldSpec) : List FieldSpec → Option (List Store)
  | [] => some []
  | (f, _) :: rest =>
    if f == "padd" then storesOfBin i b rest
    else do
      let offset := skipTag i (← getOffset b f)
      let stores ← storesOfBin i b rest
      some (⟨i, offset, f⟩ :: stores)

/-- The outer loop, from the bin with this number on. -/
def storesFrom (i : Nat) : List (List FieldSpec) → Option (List Store)
  | [] => some []
  | b :: bins => do
    let stores ← storesOfBin i b b
    let rest ← storesFrom (i + 1) bins
    some (stores ++ rest)

/-- What the constructor asserts: the widths of its arguments, and what the schema says of them. -/
def argConds (fields : List FieldSpec) (asserts : List ((String → Word) → Bool)) : List CCond :=
  (fields.filter (·.1 != "padd")).map (fun x => widthCond x.1 x.2) ++ asserts.map .given

/-- The constructor, with these lines behind those that clear the capability. -/
def constructorOf (capName : String) (fields : List FieldSpec)
    (asserts : List ((String → Word) → Bool)) (stores : List Store) : CFun where
  params := (names fields).map fun name => ("uint64_t", name)
  body := (argConds fields asserts).map .kassert ++
    [.decl "cap_t" "c", .assign "c" 0 (.cast "uint64_t" (.ident (capTypeName capName))),
      .assign "c" 1 .zero] ++ stores.map Store.line
  result := .cap "c"

/-- The bins are gone through in order, so that the lines are those of the first word and then those
    of the second. -/
def makeConstructor (capName : String) (fields : List FieldSpec)
    (asserts : List ((String → Word) → Bool)) (bins : List (List FieldSpec)) : Option CFun := do
  let stores ← storesFrom 0 bins
  some (constructorOf capName fields asserts stores)

variable {declarable : String → Bool} {capName : String} {tag : BitVec 8} {i k offset size s : Nat}
  {w : Bool} {f g x : String} {fld : Field} {fields b b₀ b₁ : List FieldSpec}
  {bins : List (List FieldSpec)} {asserts : List ((String → Word) → Bool)} {stores : List Store}
  {vals : String → Word} {caps : String → Cap} {cap : Cap} {v : Word}

/-! ## Literals -/

/-- What stands in front of digits is moved up by their number. -/
theorem foldl_hex (acc d n : Nat) :
    (List.replicate n d).foldl (fun acc d => 16 * acc + d) acc =
      (List.replicate n d).foldl (fun acc d => 16 * acc + d) 0 + acc * 16 ^ n := by
  induction n generalizing acc with
  | zero => simp
  | succ n ih =>
    rw [List.replicate_succ, List.foldl_cons, List.foldl_cons, ih (16 * acc + d),
      ih (16 * 0 + d), Nat.pow_succ]
    ring

/-- `'ff'*size` is a mask of `size` bytes. -/
theorem hexLiteral_ffs (size : Nat) :
    hexLiteral (ffs size) = BitField.lowMask 64 (8 * size) := by
  have hdigits : ∀ n, (List.replicate n 0xf).foldl (fun acc d => 16 * acc + d) 0 = 16 ^ n - 1 := by
    intro n
    induction n with
    | zero => rfl
    | succ n ih =>
      have hpos : 0 < 16 ^ n := Nat.pow_pos (by decide)
      rw [List.replicate_succ, List.foldl_cons, foldl_hex, ih, Nat.pow_succ]
      omega
  rw [hexLiteral, ffs, hdigits, BitField.lowMask, Nat.pow_mul, Nat.pow_mul]

/-- The zeros shift the mask to the place of the field. -/
theorem hexLiteral_mask (size n : Nat) :
    hexLiteral (ffs size ++ zeros n) = BitField.lowMask 64 (8 * size) <<< (8 * n) := by
  have hzeros : ∀ n, (List.replicate n 0).foldl (fun acc d => 16 * acc + d) 0 = 0 := by
    intro n
    induction n with
    | zero => rfl
    | succ n ih => rw [List.replicate_succ, List.foldl_cons, ih]
  rw [← hexLiteral_ffs, hexLiteral, hexLiteral, List.foldl_append, zeros, foldl_hex, hzeros,
    Nat.zero_add]
  apply BitVec.eq_of_toNat_eq
  simp [Nat.shiftLeft_eq, Nat.pow_mul]

/-! ## The layout -/

/-- The fields of a bin but the padding, one after the other. -/
def layoutFrom (w : Bool) (offset : Nat) : List FieldSpec → List (String × Field)
  | [] => []
  | (f, s) :: b =>
    if f == "padd" then layoutFrom w (offset + s * 8) b
    else (f, ⟨w, offset, s⟩) :: layoutFrom w (offset + s * 8) b

/-- The low byte of the first word is the tag. -/
def layout (b₀ b₁ : List FieldSpec) : List (String × Field) :=
  layoutFrom false 8 b₀ ++ layoutFrom true 0 b₁

theorem map_layoutFrom (w : Bool) (offset : Nat) (b : List FieldSpec) :
    (layoutFrom w offset b).map Prod.fst = names b := by
  induction b generalizing offset with
  | nil => rfl
  | cons x b ih =>
    obtain ⟨f, s⟩ := x
    rw [layoutFrom, names, List.map_cons, List.filter_cons]
    by_cases hf : f = "padd"
    · simpa [hf, names] using ih _
    · simpa [hf, names] using ih _

/-- The layout has the fields that get accessors, in the order of the bins. -/
theorem map_layout : (layout b₀ b₁).map Prod.fst = names (b₀ ++ b₁) := by
  rw [layout, List.map_append, map_layoutFrom, map_layoutFrom, names, names, names, List.map_append,
    List.filter_append]

/-- A field of the bin gets the size that the schema says. -/
theorem mem_layoutFrom (h : (f, s) ∈ b) (hf : f ≠ "padd") :
    ∃ fld, (f, fld) ∈ layoutFrom w offset b ∧ fld.size = s := by
  induction b generalizing offset with
  | nil => cases h
  | cons x b ih =>
    obtain ⟨f', s'⟩ := x
    rw [layoutFrom]
    rcases List.mem_cons.mp h with he | h
    · obtain ⟨rfl, rfl⟩ := Prod.mk.inj he
      exact ⟨⟨w, offset, s⟩, by simp [hf], rfl⟩
    · obtain ⟨fld, hmem, hsize⟩ := ih h
      refine ⟨fld, ?_, hsize⟩
      split
      · exact hmem
      · exact List.mem_cons_of_mem _ hmem

/-- Where the fields of a bin lie. -/
theorem layoutFrom_bounds (h : (f, fld) ∈ layoutFrom w offset b) :
    fld.inWord1 = w ∧ offset ≤ fld.offset ∧
      fld.offset + 8 * fld.size ≤ offset + 8 * totalSize b := by
  induction b generalizing offset with
  | nil => cases h
  | cons x b ih =>
    obtain ⟨f', s⟩ := x
    have htotal : totalSize ((f', s) :: b) = s + totalSize b := rfl
    rw [layoutFrom] at h
    have hrest : (f, fld) ∈ layoutFrom w (offset + s * 8) b → _ := ih
    split at h
    · obtain ⟨hw, hlo, hhi⟩ := hrest h
      exact ⟨hw, by omega, by omega⟩
    · rcases List.mem_cons.mp h with he | h
      · obtain ⟨rfl, rfl⟩ := Prod.mk.inj he
        exact ⟨rfl, le_rfl, by simp only; omega⟩
      · obtain ⟨hw, hlo, hhi⟩ := hrest h
        exact ⟨hw, by omega, by omega⟩

/-- Behind one another, and so apart. -/
theorem layoutFrom_apart (w : Bool) (offset : Nat) (b : List FieldSpec) :
    (layoutFrom w offset b).Pairwise fun x y => x.2.Apart y.2 := by
  induction b generalizing offset with
  | nil => exact .nil
  | cons x b ih =>
    obtain ⟨f, s⟩ := x
    rw [layoutFrom]
    split
    · exact ih _
    · refine List.Pairwise.cons (fun y hy => ?_) (ih _)
      obtain ⟨-, hlo, -⟩ := layoutFrom_bounds hy
      refine Or.inr (Or.inl ?_)
      simp only [Field.bits]
      omega

/-- No two fields share a bit. -/
theorem layout_apart : (layout b₀ b₁).Pairwise fun x y => x.2.Apart y.2 := by
  rw [layout, List.pairwise_append]
  refine ⟨layoutFrom_apart _ _ _, layoutFrom_apart _ _ _, fun x hx y hy => Or.inl ?_⟩
  rw [(layoutFrom_bounds hx).1, (layoutFrom_bounds hy).1]
  decide

/-- Every field is inside its word and apart from the tag. -/
theorem layout_inside (h : Packing 7 8 fields b₀ b₁) (hmem : (f, fld) ∈ layout b₀ b₁) :
    fld.Inside ∧ fld.Apart .tag := by
  have h₀ := h.size₀
  have h₁ := h.size₁
  rcases List.mem_append.mp hmem with hmem | hmem
  · obtain ⟨-, hlo, hhi⟩ := layoutFrom_bounds hmem
    refine ⟨?_, Or.inr (Or.inr hlo)⟩
    unfold Field.Inside Field.bits
    omega
  · obtain ⟨hw, -, hhi⟩ := layoutFrom_bounds hmem
    refine ⟨?_, Or.inl (by rw [hw]; decide)⟩
    unfold Field.Inside Field.bits
    omega

/-- Offsets are in whole bytes, as the mask of a setter needs it. -/
theorem layout_aligned (h : (f, fld) ∈ layout b₀ b₁) : fld.offset % 8 = 0 := by
  have hbin : ∀ {w offset} {b : List FieldSpec}, offset % 8 = 0 →
      (f, fld) ∈ layoutFrom w offset b → fld.offset % 8 = 0 := by
    intro w offset b hoff h
    induction b generalizing offset with
    | nil => cases h
    | cons x b ih =>
      obtain ⟨f', s⟩ := x
      rw [layoutFrom] at h
      have hrest : (offset + s * 8) % 8 = 0 := by omega
      split at h
      · exact ih hrest h
      · rcases List.mem_cons.mp h with he | h
        · obtain ⟨rfl, rfl⟩ := Prod.mk.inj he
          exact hoff
        · exact ih hrest h
  rcases List.mem_append.mp h with h | h
  · exact hbin (by decide) h
  · exact hbin (by decide) h

theorem mem_names : f ∈ names b ↔ f ∈ b.map Prod.fst ∧ f ≠ "padd" := by
  simp [names, List.mem_filter]

theorem mem_names_of_layoutFrom (h : (f, fld) ∈ layoutFrom w offset b) : f ∈ names b := by
  rw [← map_layoutFrom w offset b]
  exact List.mem_map_of_mem h

theorem names_cons (hf : f ≠ "padd") : names ((f, s) :: b) = f :: names b := by
  simp [names, hf]

theorem names_of_cons (h : (names ((f, s) :: b)).Nodup) : (names b).Nodup := by
  by_cases hf : f = "padd"
  · simpa [names, hf] using h
  · rw [names_cons hf] at h
    exact (List.nodup_cons.mp h).2

/-- `get_offset` finds the field where the layout has it. -/
theorem getOffsetFrom_layout (h : (f, fld) ∈ layoutFrom w (offset + k) b) (hnd : (names b).Nodup) :
    ∃ off, getOffsetFrom offset f b = some off ∧ fld.offset = off + k := by
  induction b generalizing offset with
  | nil => cases h
  | cons x b ih =>
    obtain ⟨f', s⟩ := x
    have hname : f ≠ "padd" := (mem_names.mp (mem_names_of_layoutFrom h)).2
    rw [layoutFrom] at h
    by_cases hf : f' = f
    · subst hf
      simp only [beq_iff_eq, hname, if_false, List.mem_cons] at h
      rcases h with he | h
      · obtain ⟨-, rfl⟩ := Prod.mk.inj he
        exact ⟨offset, by simp [getOffsetFrom], rfl⟩
      · -- the name would come twice
        rw [names_cons hname] at hnd
        exact absurd (mem_names_of_layoutFrom h) (List.nodup_cons.mp hnd).1
    · have hrest : (f, fld) ∈ layoutFrom w (offset + s * 8 + k) b := by
        rw [Nat.add_right_comm]
        split at h
        · exact h
        · refine (List.mem_cons.mp h).resolve_left fun he => ?_
          exact hf (Prod.mk.inj he).1.symm
      obtain ⟨off, hoff, he⟩ := ih hrest (names_of_cons hnd)
      exact ⟨off, by simpa [getOffsetFrom, hf] using hoff, he⟩

theorem any_name (hf : f ≠ "padd") :
    (b.any fun (ff, _) => ff == f) = decide (f ∈ names b) := by
  rw [Bool.eq_iff_iff, decide_eq_true_iff, mem_names, List.any_eq_true, List.mem_map]
  constructor
  · intro ⟨x, hx, he⟩
    exact ⟨⟨x, hx, beq_iff_eq.mp he⟩, hf⟩
  · intro ⟨⟨x, hx, he⟩, _⟩
    exact ⟨x, hx, beq_iff_eq.mpr he⟩

/-- The layout skips the padding. -/
theorem ne_padd_of_mem_layout (h : (f, fld) ∈ layout b₀ b₁) : f ≠ "padd" := by
  have hmem : f ∈ (layout b₀ b₁).map Prod.fst := List.mem_map_of_mem h
  rw [map_layout] at hmem
  exact (mem_names.mp hmem).2

theorem names_append : names (b₀ ++ b₁) = names b₀ ++ names b₁ := by
  rw [names, names, names, List.map_append, List.filter_append]

/-- The generator looks a field up where the layout has it. -/
theorem exists_place (hnd : (names (b₀ ++ b₁)).Nodup) (h : (f, fld) ∈ layout b₀ b₁) :
    ∃ i b off, getBin [b₀, b₁] f = some (i, b) ∧ getOffset b f = some off ∧
      i = (if fld.inWord1 then 1 else 0) ∧ skipTag i off = fld.offset := by
  rw [names_append] at hnd
  obtain ⟨hnd₀, hnd₁, hdisj⟩ := List.nodup_append.mp hnd
  have hfind : getBin [b₀, b₁] f = if f ∈ names b₀ then some (0, b₀)
      else if f ∈ names b₁ then some (1, b₁) else none := by
    simp only [getBin, getBinFrom, any_name (ne_padd_of_mem_layout h), decide_eq_true_eq]
  rw [hfind]
  rcases List.mem_append.mp h with h | h
  · have hmem := mem_names_of_layoutFrom h
    have h₀ : (f, fld) ∈ layoutFrom false (0 + 8) b₀ := h
    obtain ⟨off, hoff, he⟩ := getOffsetFrom_layout h₀ hnd₀
    refine ⟨0, b₀, off, if_pos hmem, hoff, ?_, he.symm⟩
    rw [(layoutFrom_bounds h).1]
    rfl
  · have hmem := mem_names_of_layoutFrom h
    have hnot : f ∉ names b₀ := fun h₀ => hdisj f h₀ f hmem rfl
    have h₁ : (f, fld) ∈ layoutFrom true (0 + 0) b₁ := h
    obtain ⟨off, hoff, he⟩ := getOffsetFrom_layout h₁ hnd₁
    refine ⟨1, b₁, off, by rw [if_neg hnot, if_pos hmem], hoff, ?_, he.symm⟩
    rw [(layoutFrom_bounds h).1]
    rfl

/-! ## The header -/

/-- The fields of `gen/cap.yml`. -/
def schema : CapType → List FieldSpec
  | .empty => []
  | .memory => [("begin", 4), ("end", 4), ("rwx", 1), ("free", 4), ("pmp", 1)]
  | .pmp => [("addr", 4), ("rwx", 1)]
  | .time => [("hartid", 1), ("begin", 2), ("end", 2), ("free", 2)]
  | .channels => [("begin", 2), ("end", 2), ("free", 2)]
  | .receiver => [("channel", 2), ("grant", 1)]
  | .sender => [("channel", 2), ("grant", 1)]
  | .server => [("channel", 2), ("grant", 1)]
  | .client => [("channel", 2), ("grant", 1)]
  | .supervisor => [("begin", 1), ("end", 1), ("free", 1)]

/-- The fields of the generated header, by their names in `gen/cap.yml`. -/
def headerFields : CapType → List (String × Field)
  | .empty => []
  | .memory => [("pmp", memoryPmp), ("rwx", memoryRwx), ("begin", memoryBegin),
      ("free", memoryFree), ("end", memoryEnd)]
  | .pmp => [("rwx", pmpRwx), ("addr", pmpAddr)]
  | .time => [("free", timeFree), ("end", timeEnd), ("begin", timeBegin), ("hartid", timeHartid)]
  | .channels => [("free", channelsFree), ("end", channelsEnd), ("begin", channelsBegin)]
  | .receiver => [("grant", receiverGrant), ("channel", receiverChannel)]
  | .sender => [("grant", senderGrant), ("channel", senderChannel)]
  | .server => [("grant", serverGrant), ("channel", serverChannel)]
  | .client => [("grant", clientGrant), ("channel", clientChannel)]
  | .supervisor => [("free", supervisorFree), ("end", supervisorEnd), ("begin", supervisorBegin)]

/-- The offsets in the generated header are those of the generator. -/
theorem header_layout (ty : CapType) : ∃ b₀ b₁,
    binpack [7, 8] (schema ty) = some [b₀, b₁] ∧ layout b₀ b₁ = headerFields ty := by
  cases ty
  all_goals exact ⟨_, _, rfl, rfl⟩

/-! ## The printed functions -/

/-- The number of the word that a field is in. -/
def wordIndex (fld : Field) : Nat := if fld.inWord1 then 1 else 0

theorem capWord_eq (fld : Field) (cap : Cap) :
    capWord cap (wordIndex fld) = fld.word cap := by
  cases h : fld.inWord1 <;> simp [capWord, wordIndex, Field.word, h]

theorem setCapWord_eq (fld : Field) (cap : Cap) (x : Word) :
    setCapWord cap (wordIndex fld) x = fld.setWord cap x := by
  cases h : fld.inWord1 <;> simp [setCapWord, wordIndex, Field.setWord, h]

/-- So the getter that is printed is the one of the layout's place. -/
theorem makeGetter_eq (capName : String) (hnd : (names (b₀ ++ b₁)).Nodup)
    (h : (f, fld) ∈ layout b₀ b₁) :
    makeGetter capName f fld.size [b₀, b₁] =
      some (getterAt capName (wordIndex fld) fld.offset fld.size) := by
  obtain ⟨i, b, off, hbin, hoff, rfl, hskip⟩ := exists_place hnd h
  have hname := ne_padd_of_mem_layout h
  rw [makeGetter, if_neg (by simpa using hname), hbin]
  simp only [Option.bind_eq_bind, Option.bind_some, hoff, hskip]
  rfl

/-- And the setter. -/
theorem makeSetter_eq (capName : String) (hnd : (names (b₀ ++ b₁)).Nodup)
    (h : (f, fld) ∈ layout b₀ b₁) :
    makeSetter capName f fld.size [b₀, b₁] =
      some (setterAt capName f (wordIndex fld) fld.offset fld.size) := by
  obtain ⟨i, b, off, hbin, hoff, rfl, hskip⟩ := exists_place hnd h
  have hname := ne_padd_of_mem_layout h
  rw [makeSetter, if_neg (by simpa using hname), hbin]
  simp only [Option.bind_eq_bind, Option.bind_some, hoff, hskip]
  rfl

/-- The lines for a bin are those of its part of the layout. -/
theorem storesOfBin_eq {rest : List FieldSpec}
    (h : ∀ x ∈ layoutFrom w offset rest, ∃ off, getOffset b x.1 = some off ∧
      skipTag i off = x.2.offset) :
    storesOfBin i b rest =
      some ((layoutFrom w offset rest).map fun x => ⟨i, x.2.offset, x.1⟩) := by
  induction rest generalizing offset with
  | nil => rfl
  | cons x rest ih =>
    obtain ⟨f, s⟩ := x
    rw [layoutFrom] at h ⊢
    rw [storesOfBin]
    by_cases hf : f = "padd"
    · simp only [hf, beq_self_eq_true, if_true] at h ⊢
      exact ih h
    · simp only [beq_iff_eq, hf, if_false] at h ⊢
      obtain ⟨off, hoff, hskip⟩ := h _ List.mem_cons_self
      have hrest := ih fun y hy => h y (List.mem_cons_of_mem _ hy)
      simp [hoff, hrest, hskip]

/-- The lines of the constructor, one for each field of the layout. -/
theorem storesFrom_eq (hnd : (names (b₀ ++ b₁)).Nodup) : storesFrom 0 [b₀, b₁] =
    some ((layout b₀ b₁).map fun x => ⟨wordIndex x.2, x.2.offset, x.1⟩) := by
  rw [names_append] at hnd
  obtain ⟨hnd₀, hnd₁, -⟩ := List.nodup_append.mp hnd
  have h₀ : storesOfBin 0 b₀ b₀ =
      some ((layoutFrom false 8 b₀).map fun x => ⟨0, x.2.offset, x.1⟩) :=
    storesOfBin_eq fun x hx => by
      have hx₀ : (x.1, x.2) ∈ layoutFrom false (0 + 8) b₀ := hx
      obtain ⟨off, hoff, he⟩ := getOffsetFrom_layout hx₀ hnd₀
      exact ⟨off, hoff, he.symm⟩
  have h₁ : storesOfBin 1 b₁ b₁ =
      some ((layoutFrom true 0 b₁).map fun x => ⟨1, x.2.offset, x.1⟩) :=
    storesOfBin_eq fun x hx => by
      have hx₁ : (x.1, x.2) ∈ layoutFrom true (0 + 0) b₁ := hx
      obtain ⟨off, hoff, he⟩ := getOffsetFrom_layout hx₁ hnd₁
      exact ⟨off, hoff, he.symm⟩
  have hmap₀ : (layoutFrom false 8 b₀).map (fun x => (⟨0, x.2.offset, x.1⟩ : Store)) =
      (layoutFrom false 8 b₀).map fun x => ⟨wordIndex x.2, x.2.offset, x.1⟩ :=
    List.map_congr_left fun x hx => by rw [wordIndex, (layoutFrom_bounds hx).1]; rfl
  have hmap₁ : (layoutFrom true 0 b₁).map (fun x => (⟨1, x.2.offset, x.1⟩ : Store)) =
      (layoutFrom true 0 b₁).map fun x => ⟨wordIndex x.2, x.2.offset, x.1⟩ :=
    List.map_congr_left fun x hx => by rw [wordIndex, (layoutFrom_bounds hx).1]; rfl
  simp only [storesFrom, h₀, h₁, hmap₀, hmap₁, layout, List.map_append, List.append_nil,
    Option.bind_eq_bind, Option.bind_some]

/-! ## What the printed functions do -/

/-- `cap_is_type(cap, CAP_TYPE_...)`, for a type whose number is a byte. -/
def isTag (tag : BitVec 8) (cap : Cap) : Bool := capGetType cap == tag.setWidth 64

/-- The assert on the type, where the name stands for the type's number. -/
theorem typeCond_eval {env : CEnv} (h : env.words (capTypeName capName) = tag.setWidth 64) :
    (typeCond capName).eval env = isTag tag (env.caps "cap") := by
  have hnarrow : ((tag.setWidth 64).setWidth 32).setWidth 64 = tag.setWidth 64 := by
    apply BitVec.eq_of_toNat_eq
    simp only [BitVec.toNat_setWidth]
    omega
  rw [typeCond, CCond.eval, h, hnarrow, isTag]

/-- The assert on a width. -/
theorem widthCond_eval {env : CEnv} (f : String) (s : Nat) : (widthCond f s).eval env =
    (env.words f &&& BitField.lowMask 64 (8 * s) == env.words f) := by
  simp only [widthCond, CCond.eval, CExpr.eval, hexLiteral_ffs]

/-- A getter reads its field. -/
theorem getterAt_call (capName : String) (tag : BitVec 8) (fld : Field) (cap : Cap) (v : Word) :
    (getterAt capName (wordIndex fld) fld.offset fld.size).call tag cap v = do
      kassert (isTag tag cap)
      return .word (fld.get cap) := by
  generalize hfn : getterAt capName (wordIndex fld) fld.offset fld.size = fn
  have hparam : capTypeName capName ∉ fn.params.map Prod.snd := by
    rw [← hfn, getterAt, List.map_singleton, List.mem_singleton]
    exact capTypeName_ne capName (by decide)
  have hcond : (typeCond capName).eval (fn.enter tag ⟨fun _ => v, fun _ => cap⟩) = isTag tag cap :=
    typeCond_eval (enter_words_of_not_mem hparam)
  have hresult : ∀ env : CEnv, env.caps "cap" = cap → fn.result.eval env = .word (fld.get cap) := by
    intro env henv
    by_cases h0 : fld.offset = 0
    · simp [← hfn, getterAt, CResult.eval, CExpr.eval, h0, henv, capWord_eq, hexLiteral_ffs,
        Field.get, Field.bits, BitField.extract]
    · simp [← hfn, getterAt, CResult.eval, CExpr.eval, h0, henv, capWord_eq, hexLiteral_ffs,
        Field.get, Field.bits, BitField.extract]
  have hbody : fn.body = [.kassert (typeCond capName)] := by
    rw [← hfn]
    rfl
  rw [CFun.call, CFun.run, hbody, execAll_kassert, hcond]
  cases isTag tag cap with
  | false => rfl
  | true => exact congrArg _ (hresult _ rfl)

/-- The last two lines of a setter, where its parameters are these. -/
theorem setterAt_stores {env : CEnv} (capName : String) (fld : Field) {cap : Cap} {v : Word}
    (hal : fld.offset % 8 = 0) (hcap : env.caps = fun _ => cap) (hv : env.words f = v) :
    ∃ env', execAll env
        ((setterAt capName f (wordIndex fld) fld.offset fld.size).body.drop 2) = .ok env' ∧
      (setterAt capName f (wordIndex fld) fld.offset fld.size).result.eval env' =
        .cap (fld.set cap v) := by
  have halign : 8 * (fld.offset / 8) = fld.offset :=
    Nat.mul_div_cancel' (Nat.dvd_of_mod_eq_zero hal)
  have hmask := hexLiteral_mask fld.size (fld.offset / 8)
  rw [halign] at hmask
  refine ⟨_, rfl, ?_⟩
  by_cases h0 : fld.offset = 0
  · have hmask0 : hexLiteral (ffs fld.size ++ zeros 0) = BitField.lowMask 64 (8 * fld.size) := by
      simpa using hexLiteral_mask fld.size 0
    simp [setterAt, CResult.eval, CExpr.eval, CEnv.setWord, h0, hcap, hv, capWord_eq, setCapWord_eq,
      hmask0, Field.set, Field.bits, BitField.replace]
  · simp [setterAt, CResult.eval, CExpr.eval, CEnv.setWord, h0, hcap, hv, capWord_eq, setCapWord_eq,
      hmask, Field.set, Field.bits, BitField.replace]

/-- A setter checks that the value fits, and overwrites its field. -/
theorem setterAt_call (capName : String) (tag : BitVec 8) (fld : Field) (cap : Cap) (v : Word)
    (hf : capTypeName capName ≠ f) (hal : fld.offset % 8 = 0) :
    (setterAt capName f (wordIndex fld) fld.offset fld.size).call tag cap v = do
      kassert (isTag tag cap)
      fld.checkFits v
      return .cap (fld.set cap v) := by
  generalize henv : (setterAt capName f (wordIndex fld) fld.offset fld.size).enter tag
    ⟨fun _ => v, fun _ => cap⟩ = env
  have hcap : env.caps = fun _ => cap := by
    rw [← henv]
    rfl
  have hv : env.words f = v := by
    rw [← henv]
    exact enter_words_of_mem (by simp [setterAt])
  obtain ⟨env', hexec, hresult⟩ := setterAt_stores capName fld hal hcap hv
  generalize hfn : setterAt capName f (wordIndex fld) fld.offset fld.size = fn at henv hexec hresult
  have hparam : capTypeName capName ∉ fn.params.map Prod.snd := by
    have hcapt := capTypeName_ne capName (x := "cap") (by decide)
    simp [← hfn, setterAt, hf, hcapt]
  have hcond : (typeCond capName).eval env = isTag tag cap := by
    rw [typeCond_eval (by rw [← henv]; exact enter_words_of_not_mem hparam), hcap]
  have hfits : SepKernel.kassert ((widthCond f fld.size).eval env) = fld.checkFits v := by
    rw [widthCond_eval, hv]
    rfl
  have hbody : fn.body =
      .kassert (typeCond capName) :: .kassert (widthCond f fld.size) :: fn.body.drop 2 := by
    rw [← hfn]
    rfl
  rw [CFun.call, CFun.run, henv, hbody, execAll_kassert, execAll_kassert, hcond, hfits, hexec]
  cases isTag tag cap with
  | false => rfl
  | true =>
    cases fld.checkFits v with
    | error e => rfl
    | ok u => exact congrArg _ hresult

/-- A line of the constructor ors the argument in. -/
theorem store_exec (x : String × Field) (env : CEnv) :
    (Store.line ⟨wordIndex x.2, x.2.offset, x.1⟩).exec env = .ok { env with
      caps := Function.update env.caps "c" (x.2.put (env.caps "c") (env.words x.1)) } := by
  by_cases h0 : x.2.offset = 0
  · simp [Store.line, CStmt.exec, CExpr.eval, CEnv.setWord, capWord_eq, setCapWord_eq, Field.put, h0]
  · simp [Store.line, CStmt.exec, CExpr.eval, CEnv.setWord, capWord_eq, setCapWord_eq, Field.put, h0]

/-- All lines, one after the other. -/
theorem execAll_stores (l : List (String × Field)) (env : CEnv) :
    execAll env ((l.map fun x => ⟨wordIndex x.2, x.2.offset, x.1⟩).map Store.line) = .ok { env with
      caps := Function.update env.caps "c"
        (l.foldl (fun c x => x.2.put c (env.words x.1)) (env.caps "c")) } := by
  induction l generalizing env with
  | nil =>
    rw [List.foldl_nil, Function.update_eq_self]
    rfl
  | cons x l ih =>
    rw [List.map_cons, List.map_cons, execAll, store_exec]
    refine (ih _).trans ?_
    simp only [Function.update_self, Function.update_idem, List.foldl_cons]

/-- The capability a constructor returns. -/
def built (tag : BitVec 8) (b₀ b₁ : List FieldSpec) (vals : String → Word) : Cap :=
  (layout b₀ b₁).foldl (fun c x => x.2.put c (vals x.1)) ⟨tag.setWidth 64, 0⟩

theorem constructorOf_params (capName : String) (fields : List FieldSpec)
    (asserts : List ((String → Word) → Bool)) (stores : List Store) :
    (constructorOf capName fields asserts stores).params.map Prod.snd = names fields := by
  rw [constructorOf, List.map_map]
  exact List.map_id _

/-- A constructor whose asserts hold puts every field in its place. -/
theorem constructorOf_run {args env : CEnv}
    (hstores : stores = (layout b₀ b₁).map fun x => ⟨wordIndex x.2, x.2.offset, x.1⟩)
    (henv : (constructorOf capName fields asserts stores).enter tag args = env)
    (hty : capTypeName capName ∉ names fields)
    (hconds : ∀ c ∈ argConds fields asserts, c.eval env = true) :
    (constructorOf capName fields asserts stores).run tag args =
      .ok (.cap (built tag b₀ b₁ env.words)) := by
  have htag : env.words (capTypeName capName) = tag.setWidth 64 := by
    rw [← henv]
    exact enter_words_of_not_mem (by rwa [constructorOf_params])
  -- the declaration, and the two lines that clear the capability
  have hclear : execAll env
      [.decl "cap_t" "c", .assign "c" 0 (.cast "uint64_t" (.ident (capTypeName capName))),
        .assign "c" 1 .zero] =
      .ok { env with caps := Function.update env.caps "c" ⟨tag.setWidth 64, 0⟩ } := by
    change Except.ok ((env.setWord "c" 0 (env.words (capTypeName capName))).setWord "c" 1 0) = _
    simp [CEnv.setWord, setCapWord, htag]
  have hexec : execAll env (constructorOf capName fields asserts stores).body = .ok { env with
      caps := Function.update env.caps "c" (built tag b₀ b₁ env.words) } := by
    rw [constructorOf, execAll_append, execAll_append, execAll_kasserts hconds]
    change ((execAll env _).bind _ : Except Halt CEnv) = _
    rw [hclear, hstores]
    refine (execAll_stores _ _).trans ?_
    simp only [Function.update_self, Function.update_idem, built]
  rw [CFun.run, henv, hexec]
  exact congrArg (fun cap => Except.ok (CValue.cap cap)) (Function.update_self "c" _ env.caps)

/-- Oring values into fields that share no bit leaves every other field. -/
theorem get_foldl_put_of_apart {l : List (String × Field)} {c : Cap}
    (hfits : ∀ x ∈ l, BitField.Fits x.2.bits (vals x.1)) (hap : ∀ x ∈ l, x.2.Apart fld) :
    fld.get (l.foldl (fun c x => x.2.put c (vals x.1)) c) = fld.get c := by
  induction l generalizing c with
  | nil => rfl
  | cons x l ih =>
    rw [List.foldl_cons, ih (fun y hy => hfits y (List.mem_cons_of_mem _ hy))
      (fun y hy => hap y (List.mem_cons_of_mem _ hy))]
    exact Field.get_put_of_apart (hfits x List.mem_cons_self) (hap x List.mem_cons_self)

/-- And makes each field hold its value, if it was clear. -/
theorem get_foldl_put {l : List (String × Field)} {c : Cap}
    (hfits : ∀ x ∈ l, BitField.Fits x.2.bits (vals x.1)) (hin : ∀ x ∈ l, x.2.Inside)
    (hap : l.Pairwise fun x y => x.2.Apart y.2) (hclear : ∀ x ∈ l, x.2.get c = 0)
    {x : String × Field} (hx : x ∈ l) :
    x.2.get (l.foldl (fun c x => x.2.put c (vals x.1)) c) = vals x.1 := by
  induction l generalizing c with
  | nil => cases hx
  | cons y l ih =>
    obtain ⟨hy, hap⟩ := List.pairwise_cons.mp hap
    have hfit := hfits y List.mem_cons_self
    rw [List.foldl_cons]
    rcases List.mem_cons.mp hx with rfl | hx
    · rw [get_foldl_put_of_apart (fun z hz => hfits z (List.mem_cons_of_mem _ hz))
        fun z hz => (hy z hz).imp Ne.symm Or.symm]
      exact Field.get_put_same (hin x List.mem_cons_self) hfit (hclear x List.mem_cons_self)
    · refine ih (fun z hz => hfits z (List.mem_cons_of_mem _ hz))
        (fun z hz => hin z (List.mem_cons_of_mem _ hz)) hap (fun z hz => ?_) hx
      rw [Field.get_put_of_apart hfit (hy z hz)]
      exact hclear z (List.mem_cons_of_mem _ hz)

/-! ## Names -/

/-- The names that the generator puts into the text itself. -/
def reserved (capName : String) : List String := "c" :: "cap" :: needed capName

/-- A field may have this name. -/
structure Usable (declarable : String → Bool) (capName f : String) : Prop where
  declarable : declarable f = true
  unreserved : f ∉ reserved capName

theorem cap_not_needed (capName : String) : "cap" ∉ needed capName := by
  have hne := capTypeName_ne (x := "cap") capName (by decide)
  simp [needed, hne.symm]

theorem c_not_needed (capName : String) : "c" ∉ needed capName := by
  have hne := capTypeName_ne (x := "c") capName (by decide)
  simp [needed, hne.symm]

/-- Getters and setters have the capability as their first parameter. -/
theorem clear_cap (capName : String) : Clear capName [("cap", .cap)] :=
  Clear.cons (fun _ _ => List.not_mem_nil) (cap_not_needed capName)

/-- The first line of a getter and a setter. -/
theorem check_typeCond {ls : Locals} (hls : Clear capName ls)
    (hcap : entity capName ls "cap" = some (.var .cap)) :
    (CStmt.kassert (typeCond capName)).check declarable capName ls = some ls := by
  refine check_kassert hls ?_
  simp [typeCond, CCond.check, CExpr.check, hls.isType, hls.constant, hcap]

theorem declareAll_cap (hcap : declarable "cap" = true) (params : List (String × String)) :
    declareAll declarable capName [] (("cap_t", "cap") :: params) =
      declareAll declarable capName [("cap", .cap)] params := by
  have hfirst : declare declarable capName [] "cap_t" "cap" = some [("cap", .cap)] :=
    declare_eq_some.mpr ⟨.cap, rfl, hcap, List.not_mem_nil, rfl⟩
  rw [declareAll, hfirst, Option.bind_some]

/-- A getter has no name in it that a schema chooses. -/
theorem getterAt_compiles (hcap : declarable "cap" = true) (hi : i < 2) :
    (getterAt capName i offset size).Compiles declarable capName := by
  have hmember : isMember capName [("cap", .cap)] "cap" i = true := by
    simp [isMember, entity, hi]
  refine ⟨[("cap", .cap)], [("cap", .cap)], declareAll_cap hcap [],
    checkAll_of_forall (List.forall_mem_singleton.mpr (check_typeCond (clear_cap capName) rfl)), ?_⟩
  rw [getterAt, CResult.check]
  split <;> simp [CExpr.check, hmember]

/-- A setter has one. -/
theorem setterAt_compiles (hcap : declarable "cap" = true) (hf : Usable declarable capName f)
    (hi : i < 2) : (setterAt capName f i offset size).Compiles declarable capName := by
  obtain ⟨hc, hf'⟩ := not_or.mp (mt List.mem_cons.mpr hf.unreserved)
  obtain ⟨hne, hneeded⟩ := not_or.mp (mt List.mem_cons.mpr hf')
  let ls : Locals := [(f, .word), ("cap", .cap)]
  have hclear : Clear capName ls := (clear_cap capName).cons hneeded
  have hentity : entity capName ls "cap" = some (.var .cap) := by
    simp [entity, ls, List.lookup_cons, beq_false_of_ne (Ne.symm hne)]
  have hname : entity capName ls f = some (.var .word) := by
    simp [entity, ls]
  have hmember : isMember capName ls "cap" i = true := by
    simp [isMember, hentity, hi]
  have hty : "uint64_t" ∉ [f] := by
    rw [List.mem_singleton]
    rintro rfl
    exact hneeded List.mem_cons_self
  have hsecond : declareAll declarable capName [("cap", .cap)] [("uint64_t", f)] = some ls :=
    declareAll_words [f] (List.nodup_singleton f) (by simpa using hne)
      (by simpa using hf.declarable) hty (by decide)
  refine ⟨ls, ls, (declareAll_cap hcap _).trans hsecond, checkAll_of_forall ?_, ?_⟩
  · intro st hst
    simp only [setterAt, List.mem_cons, List.not_mem_nil, or_false] at hst
    rcases hst with rfl | rfl | rfl
    · exact check_typeCond hclear hentity
    · refine check_kassert hclear ?_
      simp [widthCond, CCond.check, CExpr.check, hname]
    · refine if_pos ⟨hmember, ?_⟩
      split <;> simp [CExpr.check, hmember, hname]
  · simp [setterAt, CResult.check, hentity]

/-- The names that a setter cannot do without are not that of its field. -/
theorem of_setterAt_compiles
    (h : (setterAt capName f i offset size).Compiles declarable capName) :
    declarable f = true ∧ f ≠ "cap" ∧ f ≠ "cap_is_type" ∧ f ≠ "kprintf" ∧ f ≠ "hang" := by
  obtain ⟨ls, ls', hparams, hbody, -⟩ := h
  obtain ⟨hfst, hnd, hd⟩ := declareAll_inv hparams List.nodup_nil
  have hfst : ls.map Prod.fst = [f, "cap"] := hfst
  obtain ⟨ls₁, hfirst, -⟩ := Option.bind_eq_some_iff.mp hbody
  obtain ⟨-, hcond, hkprintf, hhang⟩ := check_kassert_inv hfirst
  have htype : entity capName ls "cap_is_type" = some .function := by
    simp only [typeCond, CCond.check, Bool.and_eq_true, decide_eq_true_eq] at hcond
    exact hcond.1.1
  have hmem : ∀ {y : String}, entity capName ls y = some .function → f ≠ y := by
    rintro y hy rfl
    refine not_mem_of_entity hy (by intro _ h; cases h) ?_
    rw [hfst]
    exact List.mem_cons_self
  refine ⟨hd ("uint64_t", f) (by simp [setterAt]), ?_, hmem htype, hmem hkprintf, hmem hhang⟩
  rw [hfst] at hnd
  simpa using hnd

/-- Nor are those that a constructor cannot do without. -/
theorem of_constructorOf_compiles
    (h : (constructorOf capName fields asserts stores).Compiles declarable capName)
    (hf : f ∈ names fields) : f ≠ "c" ∧ f ≠ "cap_t" ∧ f ≠ "uint64_t" := by
  obtain ⟨ls, ls', hparams, hbody, -⟩ := h
  obtain ⟨hfst, -, -⟩ := declareAll_inv hparams List.nodup_nil
  have hls : f ∈ ls.map Prod.fst := by
    rw [hfst, constructorOf_params]
    simpa using hf
  -- the asserts declare nothing
  rw [constructorOf, checkAll_append, checkAll_append, Option.bind_assoc] at hbody
  obtain ⟨ls₁, hconds, hrest⟩ := Option.bind_eq_some_iff.mp hbody
  obtain rfl := checkAll_kasserts hconds
  obtain ⟨ls₂, hclear, -⟩ := Option.bind_eq_some_iff.mp hrest
  obtain ⟨ls₃, hdecl, hassign⟩ := Option.bind_eq_some_iff.mp hclear
  obtain ⟨t, hcapt, -, hc, rfl⟩ := declare_eq_some.mp hdecl
  obtain ⟨ls₄, hfirst, -⟩ := Option.bind_eq_some_iff.mp hassign
  have huint : entity capName (("c", t) :: ls₁) "uint64_t" = some (.type .word) := by
    rw [CStmt.check] at hfirst
    split at hfirst
    · next hcheck =>
      simp only [CExpr.check, Bool.and_eq_true, decide_eq_true_eq] at hcheck
      exact hcheck.2.1
    · cases hfirst
  refine ⟨?_, ?_, ?_⟩
  · rintro rfl
    exact hc hls
  · rintro rfl
    exact not_mem_of_entity hcapt (by intro _ h; cases h) hls
  · rintro rfl
    exact not_mem_of_entity huint (by intro _ h; cases h) (List.mem_cons_of_mem _ hls)

/-- The asserts of the constructor, where its parameters are words. -/
theorem checkAll_argConds {ls : Locals} (hls : Clear capName ls)
    (hword : ∀ x ∈ names fields, entity capName ls x = some (.var .word)) :
    checkAll declarable capName ls ((argConds fields asserts).map .kassert) = some ls := by
  refine checkAll_of_forall fun st hst => ?_
  obtain ⟨cond, hcond, rfl⟩ := List.mem_map.mp hst
  refine check_kassert hls ?_
  rcases List.mem_append.mp hcond with hcond | hcond
  · obtain ⟨y, hy, rfl⟩ := List.mem_map.mp hcond
    have hname : y.1 ∈ names fields := by
      obtain ⟨hy, hpadd⟩ := List.mem_filter.mp hy
      exact mem_names.mpr ⟨List.mem_map_of_mem hy, by simpa using hpadd⟩
    simp [widthCond, CCond.check, CExpr.check, hword _ hname]
  · obtain ⟨a, -, rfl⟩ := List.mem_map.mp hcond
    rfl

/-- The variable of the constructor has two words. -/
theorem isMember_c {ls : Locals} (hi : i < 2) :
    isMember capName (("c", .cap) :: ls) "c" i = true := by
  simp [isMember, entity, hi]

/-- The lines in which the constructor declares its variable and clears it. -/
theorem checkAll_cleared {ls : Locals} (hc : declarable "c" = true) (hls : Clear capName ls)
    (hfree : "c" ∉ ls.map Prod.fst) : checkAll declarable capName ls
      [.decl "cap_t" "c", .assign "c" 0 (.cast "uint64_t" (.ident (capTypeName capName))),
        .assign "c" 1 .zero] = some (("c", .cap) :: ls) := by
  have hclear : Clear capName (("c", .cap) :: ls) := hls.cons (c_not_needed capName)
  have hdecl : declare declarable capName ls "cap_t" "c" = some (("c", .cap) :: ls) :=
    declare_eq_some.mpr ⟨.cap, hls.cap, hc, hfree, rfl⟩
  have htag : (CStmt.assign "c" 0 (.cast "uint64_t" (.ident (capTypeName capName)))).check
      declarable capName (("c", .cap) :: ls) = some (("c", .cap) :: ls) :=
    if_pos ⟨isMember_c (by decide), by simp [CExpr.check, hclear.uint64, hclear.constant]⟩
  have hzero : (CStmt.assign "c" 1 .zero).check declarable capName (("c", .cap) :: ls) =
      some (("c", .cap) :: ls) := by
    rw [CStmt.check, if_pos ⟨isMember_c (by decide), rfl⟩]
  rw [checkAll, CStmt.check, hdecl, Option.bind_some]
  exact checkAll_of_forall (List.forall_mem_cons.mpr ⟨htag, List.forall_mem_singleton.mpr hzero⟩)

/-- Its last lines, which store the fields. -/
theorem checkAll_stores {ls : Locals}
    (hstores : ∀ st ∈ stores, entity capName (("c", .cap) :: ls) st.name = some (.var .word) ∧
      st.i < 2) :
    checkAll declarable capName (("c", .cap) :: ls) (stores.map Store.line) =
      some (("c", .cap) :: ls) := by
  refine checkAll_of_forall fun line hline => ?_
  obtain ⟨st, hst, rfl⟩ := List.mem_map.mp hline
  obtain ⟨hword, hi⟩ := hstores st hst
  rw [Store.line]
  split
  · exact if_pos ⟨isMember_c hi, by simp [CExpr.check, hword]⟩
  · exact if_pos ⟨isMember_c hi, by simp [CExpr.check, hword]⟩

/-- The constructor compiles where all its fields have names that they may have. -/
theorem constructorOf_compiles (hc : declarable "c" = true) (hnd : (names fields).Nodup)
    (hf : ∀ f ∈ names fields, Usable declarable capName f)
    (hstores : ∀ st ∈ stores, st.name ∈ names fields ∧ st.i < 2) :
    (constructorOf capName fields asserts stores).Compiles declarable capName := by
  have hunneeded : ∀ x ∈ needed capName, x ∉ names fields := fun x hx hmem =>
    (hf x hmem).unreserved (List.mem_cons_of_mem _ (List.mem_cons_of_mem _ hx))
  have hc' : "c" ∉ names fields := fun hmem => (hf "c" hmem).unreserved List.mem_cons_self
  let ls : Locals := ((names fields).map fun x => (x, CType.word)).reverse
  have hmem : ∀ {x : String}, x ∈ ls.map Prod.fst ↔ x ∈ names fields := by
    simp [ls, Function.comp_def]
  have hclear : Clear capName ls := fun x hx => mt hmem.mp (hunneeded x hx)
  have hword : ∀ x ∈ names fields, entity capName ls x = some (.var .word) := fun x hx =>
    entity_of_forall (by simp [ls]) (hmem.mpr hx)
  have hword' : ∀ x ∈ names fields, entity capName (("c", .cap) :: ls) x = some (.var .word) := by
    intro x hx
    have hne : (x == "c") = false := beq_false_of_ne fun he => hc' (he ▸ hx)
    have hlookup := hword x hx
    rw [entity] at hlookup ⊢
    rwa [List.lookup_cons, hne]
  have hparams : declareAll declarable capName []
      ((names fields).map fun name => ("uint64_t", name)) = some ls := by
    rw [declareAll_words _ hnd (by simp) (fun x hx => (hf x hx).declarable)
      (hunneeded _ (by simp [needed])) (by simp), List.append_nil]
  have hlines : checkAll declarable capName (("c", .cap) :: ls) (stores.map Store.line) =
      some (("c", .cap) :: ls) :=
    checkAll_stores fun st hst => (hstores st hst).imp_left (hword' st.name)
  have hresult : (CResult.cap "c").check capName (("c", .cap) :: ls) = true := by
    simp [CResult.check, entity]
  refine ⟨ls, ("c", .cap) :: ls, hparams, ?_, hresult⟩
  rw [constructorOf, checkAll_append, checkAll_append, checkAll_argConds hclear hword,
    Option.bind_some, checkAll_cleared hc hclear (mt hmem.mp hc'), Option.bind_some, hlines]

/-! ## The codec -/

theorem fits_tag (tag : BitVec 8) : BitField.Fits Field.tag.bits (tag.setWidth 64) := by
  rw [BitField.fits_iff (by decide), BitVec.toNat_setWidth]
  have hlt : tag.toNat < 2 ^ 8 := tag.isLt
  have hmod : tag.toNat % 2 ^ 64 ≤ tag.toNat := Nat.mod_le _ _
  exact lt_of_le_of_lt hmod hlt

theorem put_tag (tag : BitVec 8) :
    (⟨tag.setWidth 64, 0⟩ : Cap) = Field.tag.put ⟨0, 0⟩ (tag.setWidth 64) := by
  simp [Field.put, Field.tag, Field.setWord, Field.word]

/-- The constructor starts from a capability that has its tag and nothing else. -/
theorem get_tagged (h : fld.Apart .tag) : fld.get ⟨tag.setWidth 64, 0⟩ = 0 := by
  rw [put_tag, Field.get_put_of_apart (fits_tag tag) (h.imp Ne.symm Or.symm), Field.get, Field.word]
  cases fld.inWord1 <;> simp [BitField.extract]

/-- What a constructor starts from is of its type already. -/
theorem capGetType_tagged : capGetType ⟨tag.setWidth 64, 0⟩ = tag.setWidth 64 := by
  rw [capGetType_eq, put_tag]
  refine Field.get_put_same (by decide) (fits_tag tag) ?_
  simp [Field.get, Field.word, Field.tag, BitField.extract]

/-- Every field with accessors has its place in the layout. -/
theorem mem_layout (h : Packing 7 8 fields b₀ b₁) (hmem : (f, s) ∈ fields) (hf : f ≠ "padd") :
    ∃ fld, (f, fld) ∈ layout b₀ b₁ ∧ fld.size = s := by
  rcases List.mem_append.mp (h.perm.mem_iff.mpr hmem) with hb | hb
  · obtain ⟨fld, hfld, hsize⟩ : ∃ fld, (f, fld) ∈ layoutFrom false 8 b₀ ∧ fld.size = s :=
      mem_layoutFrom hb hf
    exact ⟨fld, List.mem_append_left _ hfld, hsize⟩
  · obtain ⟨fld, hfld, hsize⟩ : ∃ fld, (f, fld) ∈ layoutFrom true 0 b₁ ∧ fld.size = s :=
      mem_layoutFrom hb hf
    exact ⟨fld, List.mem_append_right _ hfld, hsize⟩

/-- And the layout has no other. -/
theorem mem_of_layout (h : Packing 7 8 fields b₀ b₁) (hmem : (f, fld) ∈ layout b₀ b₁) :
    (f, fld.size) ∈ fields ∧ f ≠ "padd" := by
  have hbin : ∀ {w offset} {b : List FieldSpec}, (f, fld) ∈ layoutFrom w offset b →
      (f, fld.size) ∈ b ∧ f ≠ "padd" := by
    intro w offset b h
    refine ⟨?_, (mem_names.mp (mem_names_of_layoutFrom h)).2⟩
    induction b generalizing offset with
    | nil => cases h
    | cons x b ih =>
      obtain ⟨f', s⟩ := x
      rw [layoutFrom] at h
      split at h
      · exact List.mem_cons_of_mem _ (ih h)
      · rcases List.mem_cons.mp h with he | h
        · obtain ⟨rfl, rfl⟩ := Prod.mk.inj he
          exact List.mem_cons_self
        · exact List.mem_cons_of_mem _ (ih h)
  rcases List.mem_append.mp hmem with hb | hb
  · obtain ⟨hb, hf⟩ := hbin hb
    exact ⟨h.perm.mem_iff.mp (List.mem_append_left _ hb), hf⟩
  · obtain ⟨hb, hf⟩ := hbin hb
    exact ⟨h.perm.mem_iff.mp (List.mem_append_right _ hb), hf⟩

/-- Two fields of different names share no bit. -/
theorem apart_of_ne {fld' : Field} (h : (f, fld) ∈ layout b₀ b₁) (h' : (g, fld') ∈ layout b₀ b₁)
    (hne : f ≠ g) : fld.Apart fld' := by
  have hsymm : Std.Symm fun x y : String × Field => x.2.Apart y.2 :=
    ⟨fun _ _ h => h.imp Ne.symm Or.symm⟩
  exact layout_apart.forall h h' fun he => hne (Prod.mk.inj he).1

/-- What the setter of the field `f` returns, read through the getters. -/
structure SetterLaws (capName : String) (tag : BitVec 8) (fields : List FieldSpec)
    (bins : List (List FieldSpec)) (f : String) (get : CFun) (c c' : Cap) (v : Word) : Prop where
  type : capGetType c' = capGetType c
  same : get.call tag c' 0 = .ok (.word v)
  others : ∀ g s, (g, s) ∈ fields → g ≠ "padd" → g ≠ f →
    ∃ get', makeGetter capName g s bins = some get' ∧
      ∃ x, get'.call tag c 0 = .ok (.word x) ∧ get'.call tag c' 0 = .ok (.word x)

/-- The functions that are printed for a capability compile, and are a codec: what the constructor is
    given is what the getters read from its result, a setter changes its own field and no other,
    writing back what was read changes nothing, and none of them touches the tag. -/
structure Codec (declarable : String → Bool) (capName : String) (tag : BitVec 8)
    (fields : List FieldSpec) (asserts : List ((String → Word) → Bool))
    (bins : List (List FieldSpec)) : Prop where
  constructor : ∃ mk, makeConstructor capName fields asserts bins = some mk ∧
    mk.Compiles declarable capName ∧
    ∀ args : CEnv, (∀ x ∈ fields, x.1 ≠ "padd" → BitField.Fits (8 * x.2) (args.words x.1)) →
      (∀ a ∈ asserts, a (mk.enter tag args).words = true) →
        ∃ c, mk.run tag args = .ok (.cap c) ∧ capGetType c = tag.setWidth 64 ∧
          ∀ f s, (f, s) ∈ fields → f ≠ "padd" →
            ∃ get, makeGetter capName f s bins = some get ∧
              get.call tag c 0 = .ok (.word (args.words f))
  accessors : ∀ f s, (f, s) ∈ fields → f ≠ "padd" → ∃ get set,
    makeGetter capName f s bins = some get ∧ makeSetter capName f s bins = some set ∧
    get.Compiles declarable capName ∧ set.Compiles declarable capName ∧
    ∀ c, isTag tag c = true →
      (∃ x, get.call tag c 0 = .ok (.word x) ∧ set.call tag c x = .ok (.cap c)) ∧
      ∀ v, BitField.Fits (8 * s) v → ∃ c', set.call tag c v = .ok (.cap c') ∧
        SetterLaws capName tag fields bins f get c c' v

theorem wordIndex_lt (fld : Field) : wordIndex fld < 2 := by
  rw [wordIndex]
  split <;> decide

/-- On a capability of its type a getter returns. -/
theorem getterAt_ok (hc : isTag tag cap = true) (fld : Field) :
    (getterAt capName (wordIndex fld) fld.offset fld.size).call tag cap 0 =
      .ok (.word (fld.get cap)) := by
  rw [getterAt_call, hc]
  rfl

/-- And a setter, of a value that fits. -/
theorem setterAt_ok (hf : capTypeName capName ≠ f) (hal : fld.offset % 8 = 0)
    (hc : isTag tag cap = true) (hv : BitField.Fits fld.bits v) :
    (setterAt capName f (wordIndex fld) fld.offset fld.size).call tag cap v =
      .ok (.cap (fld.set cap v)) := by
  rw [setterAt_call capName tag fld cap v hf hal, hc, Field.checkFits, decide_eq_true hv]
  rfl

/-- What a setter returns is as it should be, whatever the other fields are. -/
theorem setterLaws (h : Packing 7 8 fields b₀ b₁) (hnd : (names (b₀ ++ b₁)).Nodup)
    (hmem : (f, fld) ∈ layout b₀ b₁) (hc : isTag tag cap = true) (hv : BitField.Fits fld.bits v) :
    SetterLaws capName tag fields [b₀, b₁] f
      (getterAt capName (wordIndex fld) fld.offset fld.size) cap (fld.set cap v) v := by
  obtain ⟨hin, htag⟩ := layout_inside h hmem
  have htype : capGetType (fld.set cap v) = capGetType cap := by
    rw [capGetType_eq, capGetType_eq, Field.get_set_of_apart hv htag]
  -- so the getters' assert on the type passes after the setter too
  have hset : isTag tag (fld.set cap v) = true := by
    rw [isTag, htype]
    exact hc
  constructor
  · exact htype
  · rw [getterAt_ok hset, Field.get_set_same hin hv]
  · intro g s hg hname hne
    obtain ⟨fld', hmem', rfl⟩ := mem_layout h hg hname
    -- fields with different names have no bit in common
    have hap := apart_of_ne hmem hmem' hne.symm
    refine ⟨_, makeGetter_eq capName hnd hmem', fld'.get cap, getterAt_ok hc fld', ?_⟩
    rw [getterAt_ok hset, Field.get_set_of_apart hv hap]

theorem Usable.ne_capTypeName (h : Usable declarable capName f) : capTypeName capName ≠ f := by
  rintro rfl
  exact h.unreserved (by simp [reserved, needed])

/-- Arguments that fit, and of which the schema's asserts hold, pass the asserts of the constructor. -/
theorem argConds_eval {env : CEnv}
    (hfits : ∀ x ∈ fields, x.1 ≠ "padd" → BitField.Fits (8 * x.2) (env.words x.1))
    (hasserts : ∀ a ∈ asserts, a env.words = true) :
    ∀ c ∈ argConds fields asserts, c.eval env = true := by
  intro cond hcond
  rcases List.mem_append.mp hcond with hcond | hcond
  · obtain ⟨x, hx, rfl⟩ := List.mem_map.mp hcond
    obtain ⟨hx, hpadd⟩ := List.mem_filter.mp hx
    rw [widthCond_eval]
    exact beq_iff_eq.mpr (hfits x hx (by simpa using hpadd))
  · obtain ⟨a, ha, rfl⟩ := List.mem_map.mp hcond
    exact hasserts a ha

/-- The constructor's part. -/
theorem constructor_codec (hc : declarable "c" = true) (hnames : (names fields).Nodup)
    (hp : Packing 7 8 fields b₀ b₁) (hf : ∀ f ∈ names fields, Usable declarable capName f) :
    ∃ mk, makeConstructor capName fields asserts [b₀, b₁] = some mk ∧
      mk.Compiles declarable capName ∧
      ∀ args : CEnv, (∀ x ∈ fields, x.1 ≠ "padd" → BitField.Fits (8 * x.2) (args.words x.1)) →
        (∀ a ∈ asserts, a (mk.enter tag args).words = true) →
          ∃ c, mk.run tag args = .ok (.cap c) ∧ capGetType c = tag.setWidth 64 ∧
            ∀ f s, (f, s) ∈ fields → f ≠ "padd" →
              ∃ get, makeGetter capName f s [b₀, b₁] = some get ∧
                get.call tag c 0 = .ok (.word (args.words f)) := by
  have hnd : (names (b₀ ++ b₁)).Nodup :=
    ((hp.perm.map Prod.fst).filter _).nodup_iff.mpr hnames
  have hmem : ∀ {x : String × Nat}, x ∈ fields → x.1 ≠ "padd" → x.1 ∈ names fields :=
    fun hx hname => mem_names.mpr ⟨List.mem_map_of_mem hx, hname⟩
  generalize hst : (layout b₀ b₁).map (fun x => (⟨wordIndex x.2, x.2.offset, x.1⟩ : Store)) = stores
  refine ⟨constructorOf capName fields asserts stores, ?_, ?_, fun args hvals hasserts => ?_⟩
  · rw [makeConstructor, storesFrom_eq hnd, hst]
    rfl
  · refine constructorOf_compiles hc hnames hf fun st hmemst => ?_
    rw [← hst] at hmemst
    obtain ⟨x, hx, rfl⟩ := List.mem_map.mp hmemst
    obtain ⟨hx, hname⟩ := mem_of_layout hp hx
    exact ⟨hmem hx hname, wordIndex_lt x.2⟩
  generalize henv : (constructorOf capName fields asserts stores).enter tag args = env at hasserts
  have hwords : ∀ x ∈ names fields, env.words x = args.words x := fun x hx => by
    rw [← henv]
    exact enter_words_of_mem (by rwa [constructorOf_params])
  have hty : capTypeName capName ∉ names fields := fun hty => (hf _ hty).ne_capTypeName rfl
  have hconds : ∀ c ∈ argConds fields asserts, c.eval env = true := by
    refine argConds_eval (fun x hx hname => ?_) hasserts
    rw [hwords _ (hmem hx hname)]
    exact hvals x hx hname
  have hfits : ∀ x ∈ layout b₀ b₁, BitField.Fits x.2.bits (env.words x.1) := fun x hx => by
    obtain ⟨hx, hname⟩ := mem_of_layout hp hx
    rw [hwords _ (hmem hx hname)]
    exact hvals _ hx hname
  have hin : ∀ x ∈ layout b₀ b₁, x.2.Inside := fun x hx => (layout_inside hp hx).1
  have htag : ∀ x ∈ layout b₀ b₁, x.2.Apart .tag := fun x hx => (layout_inside hp hx).2
  -- the constructor ors the fields into a word that has the tag alone
  have hclear : ∀ x ∈ layout b₀ b₁, x.2.get ⟨tag.setWidth 64, 0⟩ = 0 := fun x hx =>
    get_tagged (htag x hx)
  have htype : capGetType (built tag b₀ b₁ env.words) = tag.setWidth 64 := by
    rw [capGetType_eq, built, get_foldl_put_of_apart hfits htag, ← capGetType_eq,
      capGetType_tagged]
  refine ⟨_, constructorOf_run hst.symm henv hty hconds, htype, fun f s hfs hname => ?_⟩
  obtain ⟨fld, hfld, rfl⟩ := mem_layout hp hfs hname
  have hget : fld.get (built tag b₀ b₁ env.words) = env.words f :=
    get_foldl_put hfits hin layout_apart hclear hfld
  refine ⟨_, makeGetter_eq capName hnd hfld, ?_⟩
  rw [getterAt_ok (beq_iff_eq.mpr htype), hget, hwords _ (hmem hfs hname)]

/-- Where every name is usable the printed functions are a codec. -/
theorem codec_of_usable (hcap : declarable "cap" = true) (hc : declarable "c" = true)
    (hnames : (names fields).Nodup) (hpack : binpack [7, 8] fields = some bins)
    (hf : ∀ f ∈ names fields, Usable declarable capName f) :
    Codec declarable capName tag fields asserts bins := by
  obtain ⟨b₀, b₁, rfl, hp⟩ := packing_of_binpack hpack
  have hnd : (names (b₀ ++ b₁)).Nodup :=
    ((hp.perm.map Prod.fst).filter _).nodup_iff.mpr hnames
  refine ⟨constructor_codec hc hnames hp hf, fun f s hmem hname => ?_⟩
  obtain ⟨fld, hfld, rfl⟩ := mem_layout hp hmem hname
  have husable : Usable declarable capName f := hf f (mem_names.mpr ⟨List.mem_map_of_mem hmem, hname⟩)
  have hset : ∀ {c : Cap} {v : Word}, isTag tag c = true → BitField.Fits fld.bits v →
      (setterAt capName f (wordIndex fld) fld.offset fld.size).call tag c v =
        .ok (.cap (fld.set c v)) := fun htag hv =>
    setterAt_ok husable.ne_capTypeName (layout_aligned hfld) htag hv
  refine ⟨_, _, makeGetter_eq capName hnd hfld, makeSetter_eq capName hnd hfld,
    getterAt_compiles hcap (wordIndex_lt fld), setterAt_compiles hcap husable (wordIndex_lt fld),
    fun c htag => ⟨?_, fun v hv => ?_⟩⟩
  · obtain ⟨hin, -⟩ := layout_inside hp hfld
    refine ⟨fld.get c, getterAt_ok htag fld, ?_⟩
    rw [hset htag (Field.fits_get hin hin le_rfl), Field.set_get]
  · exact ⟨fld.set c v, hset htag hv, setterLaws hp hnd hfld htag hv⟩

/-- Whatever the bins are, the setter is of this form. -/
theorem makeSetter_inv {set : CFun} (h : makeSetter capName f s bins = some set) :
    ∃ i off, set = setterAt capName f i off s := by
  rw [makeSetter] at h
  split at h
  · cases h
  · obtain ⟨⟨i, b⟩, -, h⟩ := Option.bind_eq_some_iff.mp h
    obtain ⟨off, -, h⟩ := Option.bind_eq_some_iff.mp h
    exact ⟨i, skipTag i off, (Option.some.inj h).symm⟩

/-- And the constructor of this. -/
theorem makeConstructor_inv {mk : CFun} (h : makeConstructor capName fields asserts bins = some mk) :
    ∃ stores, mk = constructorOf capName fields asserts stores := by
  obtain ⟨stores, -, h⟩ := Option.bind_eq_some_iff.mp h
  exact ⟨stores, (Option.some.inj h).symm⟩

/-- A parameter in the place of the type's number is what a capability's type is compared to. -/
theorem setter_capTypeName (h : capGetType cap ≠ (v.setWidth 32).setWidth 64) (r : CValue) :
    (setterAt capName (capTypeName capName) i offset size).call tag cap v ≠ .ok r := by
  generalize hfn : setterAt capName (capTypeName capName) i offset size = fn
  generalize henv : fn.enter tag ⟨fun _ => v, fun _ => cap⟩ = env
  have hv : env.words (capTypeName capName) = v := by
    rw [← henv]
    exact enter_words_of_mem (by simp [← hfn, setterAt])
  have hcond : (typeCond capName).eval env = false := by
    rw [typeCond, CCond.eval, hv, ← henv]
    exact beq_false_of_ne h
  have hbody : fn.body = .kassert (typeCond capName) :: fn.body.drop 1 := by
    rw [← hfn]
    rfl
  rw [CFun.call, CFun.run, henv, hbody, execAll_kassert, hcond]
  intro hok
  cases hok

/-- A bit fits any field. -/
theorem fits_bit (hs : 1 ≤ s) : BitField.Fits (8 * s) (1 : Word) := by
  apply BitVec.eq_of_getLsbD_eq
  intro i hi
  rw [BitVec.getLsbD_and, BitField.getLsbD_lowMask]
  by_cases h0 : i = 0
  · simp [h0, Nat.lt_of_lt_of_le Nat.zero_lt_one hs]
  · have hbit : (1 : Word).getLsbD i = false := by
      rw [BitVec.ofNat_eq_ofNat, BitVec.getLsbD_one]
      simp [h0]
    rw [hbit, Bool.false_and]

/-- A field has a value that is not this type. -/
theorem exists_ne_type (hs : 1 ≤ s) (w : Word) :
    ∃ v : Word, BitField.Fits (8 * s) v ∧ w ≠ (v.setWidth 32).setWidth 64 := by
  by_cases hw : w = 0
  · exact ⟨1, fits_bit hs, by rw [hw]; decide⟩
  · exact ⟨0, BitVec.zero_and, hw⟩

/-- Any other name makes one of the functions unusable. -/
theorem usable_of_codec (hsizes : ∀ x ∈ fields, 1 ≤ x.2)
    (h : Codec declarable capName tag fields asserts bins) (hf : f ∈ names fields) :
    Usable declarable capName f := by
  obtain ⟨hmem, hname⟩ := mem_names.mp hf
  obtain ⟨⟨f, s⟩, hfs, rfl⟩ := List.mem_map.mp hmem
  obtain ⟨mk, hmk, hcompiles, -⟩ := h.constructor
  obtain ⟨stores, rfl⟩ := makeConstructor_inv hmk
  obtain ⟨hc, hcapt, huint⟩ := of_constructorOf_compiles hcompiles hf
  obtain ⟨get, set, -, hset, -, hcompiles, hlaws⟩ := h.accessors f s hfs hname
  obtain ⟨i, off, rfl⟩ := makeSetter_inv hset
  obtain ⟨hd, hcap, htype, hkprintf, hhang⟩ := of_setterAt_compiles hcompiles
  have hconstant : f ≠ capTypeName capName := by
    rintro rfl
    obtain ⟨v, hv, hne⟩ := exists_ne_type (hsizes _ hfs) (tag.setWidth 64)
    have hnew : capGetType ⟨tag.setWidth 64, 0⟩ = tag.setWidth 64 := capGetType_tagged
    obtain ⟨c', hok, -⟩ := (hlaws ⟨tag.setWidth 64, 0⟩ (beq_iff_eq.mpr hnew)).2 v hv
    exact setter_capTypeName (by rwa [hnew]) _ hok
  exact ⟨hd, by simp [reserved, needed, *]⟩

/-- For any fields with different names that `binpack` finds room for, the printed functions compile
    and are a codec if and only if every name can be declared and is none of those that the generator
    uses itself. -/
theorem accessors_codec_iff (hcap : declarable "cap" = true) (hc : declarable "c" = true)
    (capName : String) (tag : BitVec 8) (fields : List FieldSpec)
    (asserts : List ((String → Word) → Bool)) (bins : List (List FieldSpec))
    (hnames : (names fields).Nodup) (hsizes : ∀ x ∈ fields, 1 ≤ x.2)
    (hpack : binpack [7, 8] fields = some bins) :
    Codec declarable capName tag fields asserts bins ↔
      ∀ f ∈ names fields, Usable declarable capName f :=
  ⟨fun h _ hf => usable_of_codec hsizes h hf, codec_of_usable hcap hc hnames hpack⟩

/-- The accessors of time capabilities, with two of their asserts. -/
theorem accessors_codec_time : Codec isName "time" 3 (schema .time)
    [fun words => words "begin" == words "free", fun words => decide (words "begin" < words "end")]
    [(schema .time).reverse, []] := by
  refine (accessors_codec_iff (by decide +kernel) (by decide +kernel) "time" 3 (schema .time) _ _
    (by decide +kernel) (by decide) (by decide +kernel)).mpr fun f hf => ?_
  have hnames : ∀ f ∈ names (schema .time), isName f = true ∧ f ∉ reserved "time" := by
    decide +kernel
  exact ⟨(hnames f hf).1, (hnames f hf).2⟩

/-- The constructor of a field called `c` has a parameter and a variable of that name, so it does
    not compile. -/
theorem codec_field_c : (names [("c", 2)]).Nodup ∧ binpack [7, 8] [("c", 2)] = some [[("c", 2)], []] ∧
    isName "c" = true ∧ ¬ Codec isName "time" 3 [("c", 2)] [] [[("c", 2)], []] := by
  refine ⟨by decide +kernel, by decide +kernel, by decide +kernel, fun h => ?_⟩
  obtain ⟨mk, hmk, hcompiles, -⟩ := h.constructor
  obtain ⟨stores, rfl⟩ := makeConstructor_inv hmk
  exact (of_constructorOf_compiles hcompiles (f := "c") (by decide +kernel)).1 rfl

end CapGen
end SepKernel
