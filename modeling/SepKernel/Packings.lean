import SepKernel.Binpack

/-!
# `binpack`, with the lists it makes and changes

`binpack` of `CapGen` hands values around. The lists of the script are objects: `bins.copy()` makes
one, `new_bins[i] -= s` changes it, and each level of the recursion appends to a bin of the packing
that comes back from the level below. Here the objects live in a heap, and the two agree: the bins
that a caller passes are not touched, because all that is changed has been made by the call.
-/

namespace SepKernel
namespace CapGen

open BinPacking (Packable)

/-- An object, by its number among those of its type in the order they were made. -/
abbrev Ref := Nat

/-- A list index is out of range. -/
inductive IndexError where
  | indexError
deriving DecidableEq

/-- The lists of capacities, the bins, and the packings, which are lists of bins. -/
structure Heap where
  capacities : List (List Nat)
  bins : List (List FieldSpec)
  packings : List (List Ref)
deriving DecidableEq

namespace Heap

/-- Python's `l[i]` for an index that is not negative. -/
def at? {α : Type} (l : List α) (i : Nat) : Except IndexError α :=
  match l[i]? with
  | some x => .ok x
  | none => .error .indexError

/-- `bins.copy()` -/
def copy (h : Heap) (bins : Ref) : Except IndexError (Ref × Heap) := do
  let l ← at? h.capacities bins
  return (h.capacities.length, { h with capacities := h.capacities ++ [l] })

/-- `new_bins[i] -= s` -/
def subtract (h : Heap) (newBins : Ref) (i s : Nat) : Except IndexError Heap := do
  let l ← at? h.capacities newBins
  let b ← at? l i
  return { h with capacities := h.capacities.set newBins (l.set i (b - s)) }

/-- `[[],[]]` -/
def emptyPacking (h : Heap) : Ref × Heap :=
  (h.packings.length, { h with
    bins := h.bins ++ [[], []]
    packings := h.packings ++ [[h.bins.length, h.bins.length + 1]] })

/-- `packing[i].append(x)` -/
def append (h : Heap) (packing : Ref) (i : Nat) (x : FieldSpec) : Except IndexError Heap := do
  let bin ← at? (← at? h.packings packing) i
  let b ← at? h.bins bin
  return { h with bins := h.bins.set bin (b ++ [x]) }

/-- `if packing:` and what is under it. An empty list is as false as `None`. -/
def place (i : Nat) (x : FieldSpec) : Option Ref × Heap → Except IndexError (Option Ref × Heap)
  | (none, h) => return (none, h)
  | (some packing, h) => do
    if (← at? h.packings packing).isEmpty then
      return (none, h)
    let h ← h.append packing i x
    return (some packing, h)

/-- The body of the loop, and whether it returns a packing. -/
def tryBin (recurse : Ref → Heap → Except IndexError (Option Ref × Heap)) (bins : Ref)
    (f : String) (s i : Nat) (h : Heap) : Except IndexError (Option Ref × Heap) := do
  let b ← at? (← at? h.capacities bins) i
  if s > b then
    return (none, h)
  let (newBins, h) ← h.copy bins
  let h ← h.subtract newBins i s
  place i (f, s) (← recurse newBins h)

/-- The loop over the indices that are left. -/
def tryBins (recurse : Ref → Heap → Except IndexError (Option Ref × Heap)) (bins : Ref)
    (f : String) (s : Nat) : List Nat → Heap → Except IndexError (Option Ref × Heap)
  | [], h => return (none, h)
  | i :: indices, h => do
    match ← h.tryBin recurse bins f s i with
    | (some packing, h) => return (some packing, h)
    | (none, h) => tryBins recurse bins f s indices h

/-- `bins` keeps its length, so `enumerate` goes over the indices it has at the start. -/
def binpack (bins : Ref) : List FieldSpec → Heap → Except IndexError (Option Ref × Heap)
  | [], h => return h.emptyPacking.map some id
  | (f, s) :: fields, h => do
    let l ← at? h.capacities bins
    tryBins (fun newBins => binpack newBins fields) bins f s (List.range l.length) h

/-- What a packing looks like to who reads it: bin by bin. -/
def contents (h : Heap) (packing : Ref) : Option (List (List FieldSpec)) := do
  (← h.packings[packing]?).mapM fun bin => h.bins[bin]?

variable {h h' h'' : Heap} {bins i b s c₀ c₁ : Nat} {f : String} {x : FieldSpec}
  {fields : List FieldSpec} {indices : List Nat} {r : Option Ref}
  {o o' : Option (List (List FieldSpec))}

/-! ## Objects that stay -/

/-- An index that is there. -/
theorem at?_bind {α β : Type} {l : List α} {y : α} {next : α → Except IndexError β}
    (hy : l[i]? = some y) : at? l i >>= next = next y := by
  rw [at?, hy]
  rfl

theorem getElem?_of_prefix {α : Type} {l l' : List α} {y : α} (hl : l <+: l')
    (hy : l[i]? = some y) : l'[i]? = some y := by
  obtain ⟨hi, rfl⟩ := List.getElem?_eq_some_iff.mp hy
  exact List.prefix_iff_getElem?.mp hl i hi

/-- A write behind what was there before leaves it. -/
theorem prefix_set {α : Type} {l l' : List α} {y : α} (hl : l <+: l') (hi : l.length ≤ i) :
    l <+: l'.set i y := by
  obtain ⟨l', rfl⟩ := hl
  rw [List.set_append_right _ _ hi]
  exact List.prefix_append _ _

/-- Each object of `h` is in `h'`, as it was. -/
structure Extends (h h' : Heap) : Prop where
  capacities : h.capacities <+: h'.capacities
  bins : h.bins <+: h'.bins
  packings : h.packings <+: h'.packings

theorem Extends.refl (h : Heap) : h.Extends h :=
  ⟨List.prefix_rfl, List.prefix_rfl, List.prefix_rfl⟩

/-- Heaps grow. -/
theorem Extends.trans (h₁ : h.Extends h') (h₂ : h'.Extends h'') : h.Extends h'' :=
  ⟨h₁.capacities.trans h₂.capacities, h₁.bins.trans h₂.bins, h₁.packings.trans h₂.packings⟩

/-! ## What a call returns -/

/-- The answer `r` in `h'` stands for the value `o`. The bins of its packing are two different
    objects and have been made since `h`, so that to append to one changes nothing else. -/
inductive Returns (h h' : Heap) : Option Ref → Option (List (List FieldSpec)) → Prop where
  | none : Returns h h' none none
  | some {p l₀ l₁ : Ref} {b₀ b₁ : List FieldSpec} (packing : h'.packings[p]? = some [l₀, l₁])
      (ne : l₀ ≠ l₁) (new₀ : h.bins.length ≤ l₀) (new₁ : h.bins.length ≤ l₁)
      (bin₀ : h'.bins[l₀]? = some b₀) (bin₁ : h'.bins[l₁]? = some b₁) :
      Returns h h' (some p) (some [b₀, b₁])

/-- The call ends without an error, changes no object of `h`, and answers as `o` says. -/
def Answers (h : Heap) (call : Except IndexError (Option Ref × Heap))
    (o : Option (List (List FieldSpec))) : Prop :=
  ∃ r h', call = .ok (r, h') ∧ h.Extends h' ∧ Returns h h' r o

/-- What was returned since an earlier heap. -/
theorem Returns.since (hr : Returns h' h'' r o) (hext : h.Extends h') : Returns h h'' r o := by
  have hle := hext.bins.length_le
  cases hr with
  | none => exact .none
  | some packing ne new₀ new₁ bin₀ bin₁ =>
    exact .some packing ne (hle.trans new₀) (hle.trans new₁) bin₀ bin₁

theorem Returns.isSome_eq (hr : Returns h h' r o) : r.isSome = o.isSome := by
  cases hr <;> rfl

/-- What the reference leads to. -/
theorem Returns.contents_eq {p : Ref} (hr : Returns h h' (Option.some p) o) :
    h'.contents p = o := by
  cases hr with
  | some packing ne new₀ new₁ bin₀ bin₁ =>
    simp [contents, packing, bin₀, bin₁]

/-- An append changes one bin, for all who refer to it. -/
theorem append_eq {p bin : Ref} {l : List Ref} {b : List FieldSpec}
    (hl : h.packings[p]? = some l) (hbin : l[i]? = some bin) (hb : h.bins[bin]? = some b) :
    h.append p i x = .ok { h with bins := h.bins.set bin (b ++ [x]) } := by
  rw [append, at?_bind hl, at?_bind hbin, at?_bind hb]
  rfl

/-- A packing that has come back can be appended to, at either of its bins. -/
theorem Returns.append {p : Ref} {packing : List (List FieldSpec)} (hi : i < 2)
    (hext : h.Extends h') (hr : Returns h h' (Option.some p) (Option.some packing)) :
    ∃ h'', h'.append p i x = .ok h'' ∧ h.Extends h'' ∧
      Returns h h'' (Option.some p) (Option.some (packing.modify i (· ++ [x]))) := by
  cases hr with
  | @some _ l₀ l₁ b₀ b₁ hp ne new₀ new₁ bin₀ bin₁ =>
    obtain ⟨hlt₀, -⟩ := List.getElem?_eq_some_iff.mp bin₀
    obtain ⟨hlt₁, -⟩ := List.getElem?_eq_some_iff.mp bin₁
    obtain rfl | rfl : i = 0 ∨ i = 1 := by omega
    · exact ⟨_, append_eq hp rfl bin₀,
        ⟨hext.capacities, prefix_set hext.bins new₀, hext.packings⟩,
        .some hp ne new₀ new₁ (List.getElem?_set_self hlt₀)
          ((List.getElem?_set_ne ne).trans bin₁)⟩
    · exact ⟨_, append_eq hp rfl bin₁,
        ⟨hext.capacities, prefix_set hext.bins new₁, hext.packings⟩,
        .some hp ne new₀ new₁ ((List.getElem?_set_ne ne.symm).trans bin₀)
          (List.getElem?_set_self hlt₁)⟩

/-- The field goes on top of what the level below has packed, if it has packed anything. -/
theorem place_answers (hi : i < 2) (hext : h.Extends h') (hr : Returns h h' r o) :
    h.Answers (place i x (r, h')) (o.map (·.modify i (· ++ [x]))) := by
  cases hr with
  | none => exact ⟨none, h', rfl, hext, .none⟩
  | some packing ne new₀ new₁ bin₀ bin₁ =>
    have hr : Returns h h' _ _ := .some packing ne new₀ new₁ bin₀ bin₁
    obtain ⟨h'', happend, hext', hr'⟩ := hr.append (x := x) hi hext
    refine ⟨_, h'', ?_, hext', hr'⟩
    rw [place, at?_bind packing, happend]
    rfl

/-! ## The loop -/

/-- The two empty bins of the base case are new ones. -/
theorem emptyPacking_answers : h.Answers (.ok (h.emptyPacking.map some id)) (some [[], []]) := by
  refine ⟨_, _, rfl, ⟨List.prefix_rfl, List.prefix_append _ _, List.prefix_append _ _⟩, ?_⟩
  exact .some List.getElem?_concat_length (Nat.ne_of_lt (Nat.lt_succ_self _)) (le_refl _)
    (Nat.le_succ _) (by simp) (by simp)

variable {recurse : Ref → Heap → Except IndexError (Option Ref × Heap)} {l : List Nat}

/-- `bins.copy()` makes a new list. -/
theorem copy_eq (hl : h.capacities[bins]? = some l) :
    h.copy bins = .ok (h.capacities.length, { h with capacities := h.capacities ++ [l] }) := by
  rw [copy, at?_bind hl]
  rfl

/-- And the subtraction changes the copy. -/
theorem subtract_eq (hb : l[i]? = some b) :
    subtract { h with capacities := h.capacities ++ [l] } h.capacities.length i s =
      .ok { h with capacities := h.capacities ++ [l.set i (b - s)] } := by
  have hl : (h.capacities ++ [l])[h.capacities.length]? = some l := List.getElem?_concat_length
  have hset : (h.capacities ++ [l]).set h.capacities.length (l.set i (b - s)) =
      h.capacities ++ [l.set i (b - s)] := by
    rw [List.set_append_right _ _ (le_refl _), Nat.sub_self, List.set_cons_zero]
  rw [subtract, at?_bind hl, at?_bind hb, ← hset]
  rfl

/-- A bin without room is passed over. -/
theorem tryBin_of_gt (hl : h.capacities[bins]? = some l) (hb : l[i]? = some b) (hs : s > b) :
    h.tryBin recurse bins f s i = .ok (none, h) := by
  rw [tryBin, at?_bind hl, at?_bind hb, if_pos hs]
  rfl

/-- With room in the bin, the level below gets what is left. -/
theorem tryBin_of_le (hl : h.capacities[bins]? = some l) (hb : l[i]? = some b) (hs : s ≤ b) :
    h.tryBin recurse bins f s i =
      (recurse h.capacities.length { h with capacities := h.capacities ++ [l.set i (b - s)] } >>=
        place i (f, s)) := by
  rw [tryBin, at?_bind hl, at?_bind hb, if_neg (Nat.not_lt.mpr hs), copy_eq hl]
  change (do let h ← subtract { h with capacities := h.capacities ++ [l] } _ i s; _) = _
  rw [subtract_eq hb]
  rfl

/-- One bin, as `binpack` on values tries it. -/
theorem tryBin_answers (hl : h.capacities[bins]? = some l) (hb : l[i]? = some b) (hi : i < 2)
    (hrec : ∀ (newBins : Ref) (h : Heap), h.capacities[newBins]? = some (l.set i (b - s)) →
      h.Answers (recurse newBins h) o) :
    h.Answers (h.tryBin recurse bins f s i)
      (if s > b then none else o.map (·.modify i (· ++ [(f, s)]))) := by
  by_cases hs : s > b
  · rw [tryBin_of_gt hl hb hs, if_pos hs]
    exact ⟨none, h, rfl, .refl h, .none⟩
  · rw [tryBin_of_le hl hb (Nat.le_of_not_lt hs), if_neg hs]
    have hcopy : h.Extends { h with capacities := h.capacities ++ [l.set i (b - s)] } :=
      ⟨List.prefix_append _ _, List.prefix_rfl, List.prefix_rfl⟩
    obtain ⟨r, h', hrun, hext, hr⟩ := hrec h.capacities.length
      { h with capacities := h.capacities ++ [l.set i (b - s)] } List.getElem?_concat_length
    rw [hrun]
    exact place_answers hi (hcopy.trans hext) (hr.since hcopy)

/-- The loop ends at the first bin that gives a packing. -/
theorem tryBins_answers (hfirst : h.Answers (h.tryBin recurse bins f s i) o)
    (hrest : ∀ h', h.Extends h' → h'.Answers (tryBins recurse bins f s indices h') o') :
    h.Answers (tryBins recurse bins f s (i :: indices) h) (o.or o') := by
  obtain ⟨r, h', hrun, hext, hr⟩ := hfirst
  rw [tryBins, hrun]
  cases hr with
  | none =>
    obtain ⟨r, h'', hrun', hext', hr'⟩ := hrest h' hext
    exact ⟨r, h'', hrun', hext.trans hext', hr'.since hext⟩
  | some packing ne new₀ new₁ bin₀ bin₁ =>
    exact ⟨_, h', rfl, hext, .some packing ne new₀ new₁ bin₀ bin₁⟩

/-- The two `binpack` agree. -/
theorem binpack_answers (hbins : h.capacities[bins]? = some [c₀, c₁]) :
    h.Answers (Heap.binpack bins fields h) (CapGen.binpack [c₀, c₁] fields) := by
  induction fields generalizing h bins c₀ c₁ with
  | nil => exact emptyPacking_answers
  | cons x fields ih =>
    obtain ⟨f, s⟩ := x
    have hrun : Heap.binpack bins ((f, s) :: fields) h =
        tryBins (fun newBins => Heap.binpack newBins fields) bins f s [0, 1] h := by
      rw [Heap.binpack, at?_bind hbins]
      rfl
    rw [hrun, binpack_cons, Option.orElse_eq_orElse, Option.orElse_eq_or]
    apply tryBins_answers (tryBin_answers hbins rfl Nat.zero_lt_two fun newBins h => ih)
    intro h₁ hext₁
    -- the search that failed has left `bins` as it was
    have hbins₁ := getElem?_of_prefix hext₁.capacities hbins
    -- after the second bin the loop has ended
    rw [← Option.or_none (o := if s > c₁ then none else _)]
    apply tryBins_answers (tryBin_answers hbins₁ rfl Nat.one_lt_two fun newBins h => ih)
    intro h₂ _
    exact ⟨none, h₂, rfl, .refl h₂, .none⟩

end Heap

/-- The search is sound and complete: it finds a packing just if there is one, what it finds has
    each field once, and it changes no list that it has not made itself. -/
theorem binpack_searches {h : Heap} {bins : Ref} {c₀ c₁ : Nat} (fields : List FieldSpec)
    (hbins : h.capacities[bins]? = some [c₀, c₁]) :
    ∃ packing h', Heap.binpack bins fields h = .ok (packing, h') ∧
      h.Extends h' ∧ h'.capacities[bins]? = some [c₀, c₁] ∧
      (packing.isSome = true ↔ Packable ![c₀, c₁] (fields.map Prod.snd)) ∧
      ∀ p ∈ packing, ∃ b₀ b₁, h'.contents p = some [b₀, b₁] ∧ Packing c₀ c₁ fields b₀ b₁ := by
  have hanswers : h.Answers (Heap.binpack bins fields h) (CapGen.binpack [c₀, c₁] fields) :=
    Heap.binpack_answers hbins
  obtain ⟨r, h', hrun, hext, hr⟩ := hanswers
  refine ⟨r, h', hrun, hext, Heap.getElem?_of_prefix hext.capacities hbins, ?_, fun p hp => ?_⟩
  · rw [hr.isSome_eq]
    exact isSome_binpack_iff
  · obtain rfl := Option.mem_def.mp hp
    cases ho : CapGen.binpack [c₀, c₁] fields with
    | none =>
      rw [ho] at hr
      cases hr
    | some packing =>
      obtain ⟨b₀, b₁, rfl, hpacking⟩ := packing_of_binpack ho
      exact ⟨b₀, b₁, (Heap.Returns.contents_eq hr).trans ho, hpacking⟩

/-- The first bin with room is not always right: once the first two fields are in the first bin,
    the last field has no room. -/
theorem binpack_stepsBack :
    ∃ p h', Heap.binpack 0 [("a", 3), ("b", 3), ("c", 4), ("d", 5)] ⟨[[7, 8]], [], []⟩ =
        .ok (some p, h') ∧
      h'.contents p = some [[("c", 4), ("a", 3)], [("d", 5), ("b", 3)]] ∧
      h'.capacities[0]? = some [7, 8] ∧ Packable ![7, 8] [3, 3, 4, 5] := by
  have hbins : (⟨[[7, 8]], [], []⟩ : Heap).capacities[0]? = some [7, 8] := rfl
  have hfound : (Heap.binpack 0 [("a", 3), ("b", 3), ("c", 4), ("d", 5)] ⟨[[7, 8]], [], []⟩).map
      (fun (r, h) => (r, r.bind h.contents)) =
      .ok (some 0, some [[("c", 4), ("a", 3)], [("d", 5), ("b", 3)]]) := by
    decide +kernel
  obtain ⟨r, h', hrun, -, hkept, hpack, -⟩ :=
    binpack_searches [("a", 3), ("b", 3), ("c", 4), ("d", 5)] hbins
  rw [hrun] at hfound
  obtain ⟨rfl, hcontents⟩ := Prod.mk.inj (Except.ok.inj hfound)
  exact ⟨0, h', hrun, hcontents, hkept, hpack.mp rfl⟩

end CapGen
end SepKernel
