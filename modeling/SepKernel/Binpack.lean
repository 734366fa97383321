import Mathlib.Data.Fin.VecNotation
import Mathlib.Data.List.Nodup
import Mathlib.Data.List.Perm.Basic
import SepKernel.Lib.BinPacking

/-!
# `binpack`, `get_offset` and `get_bin`

Where `scripts/cap_gen.py` puts the fields of a capability. `binpack` distributes them over the
two words, whose capacities in bytes are `[7, 8]` because the low byte of the first is the tag; the
generator asks `get_bin` and `get_offset` where a field has ended up each time it needs to know.
-/

namespace SepKernel
namespace CapGen

open BinPacking (Packable packable_nil packable_cons)

/-- A field of `gen/cap.yml`: its name and its size in bytes. -/
abbrev FieldSpec := String × Nat

/-- The room that the fields of a bin take, in bytes. -/
def totalSize (b : List FieldSpec) : Nat := (b.map Prod.snd).sum

/-- The inner loop goes over the bins, and the first one from which the rest can be packed takes
    the field. `None` is the only false value: a packing has two elements. -/
def binpack : List Nat → List FieldSpec → Option (List (List FieldSpec))
  | _, [] => some [[], []]
  | bins, (f, s) :: fields =>
    bins.zipIdx.findSome? fun (b, i) =>
      if s > b then none
      else (binpack (bins.set i (b - s)) fields).map fun packing =>
        packing.modify i (· ++ [(f, s)])

/-- The loop of `get_offset`, with the offset so far. -/
def getOffsetFrom (offset : Nat) (f : String) : List FieldSpec → Option Nat
  | [] => none
  | (ff, s) :: b => if ff == f then some offset else getOffsetFrom (offset + s * 8) f b

/-- `get_offset`, in bits from the start of the bin. -/
def getOffset (b : List FieldSpec) (f : String) : Option Nat := getOffsetFrom 0 f b

/-- The loop of `get_bin`, with the number of the bin. -/
def getBinFrom (i : Nat) (f : String) : List (List FieldSpec) → Option (Nat × List FieldSpec)
  | [] => none
  | b :: bins =>
    if b.any fun (ff, _) => ff == f then some (i, b) else getBinFrom (i + 1) f bins

/-- `get_bin`: the number of the bin that has the field, and the bin. -/
def getBin (bins : List (List FieldSpec)) (f : String) : Option (Nat × List FieldSpec) :=
  getBinFrom 0 f bins

variable {c₀ c₁ s offset : Nat} {f : String} {fields b b₀ b₁ : List FieldSpec}
  {bins : List (List FieldSpec)}

/-! ## Packings -/

/-- The two ways to place the first field, in the order they are tried. -/
theorem binpack_cons : binpack [c₀, c₁] ((f, s) :: fields) =
    ((if s > c₀ then none
      else (binpack [c₀ - s, c₁] fields).map fun packing => packing.modify 0 (· ++ [(f, s)])) <|>
    (if s > c₁ then none
      else (binpack [c₀, c₁ - s] fields).map fun packing => packing.modify 1 (· ++ [(f, s)]))) := by
  rw [binpack]
  simp only [List.zipIdx_cons, List.zipIdx_nil, List.findSome?_cons, List.findSome?_nil,
    List.set_cons_zero, List.set_cons_succ]
  generalize (if s > c₀ then none
    else (binpack [c₀ - s, c₁] fields).map fun packing => packing.modify 0 (· ++ [(f, s)])) = x
  generalize (if s > c₁ then none
    else (binpack [c₀, c₁ - s] fields).map fun packing => packing.modify 1 (· ++ [(f, s)])) = y
  cases x with
  | none => cases y <;> rfl
  | some packing => rfl

/-- A distribution of the fields over two bins that keeps to their capacities. -/
structure Packing (c₀ c₁ : Nat) (fields b₀ b₁ : List FieldSpec) : Prop where
  perm : (b₀ ++ b₁).Perm fields
  size₀ : totalSize b₀ ≤ c₀
  size₁ : totalSize b₁ ≤ c₁

theorem totalSize_append_singleton : totalSize (b ++ [(f, s)]) = totalSize b + s := by
  simp [totalSize]

theorem Packing.cons₀ (h : Packing (c₀ - s) c₁ fields b₀ b₁) (hs : s ≤ c₀) :
    Packing c₀ c₁ ((f, s) :: fields) (b₀ ++ [(f, s)]) b₁ where
  perm := by
    have hmove : (b₀ ++ [(f, s)] ++ b₁).Perm ((f, s) :: (b₀ ++ b₁)) := by
      rw [List.append_assoc]
      exact List.perm_middle
    exact hmove.trans (h.perm.cons _)
  size₀ := by
    have := h.size₀
    rw [totalSize_append_singleton]
    omega
  size₁ := h.size₁

theorem Packing.cons₁ (h : Packing c₀ (c₁ - s) fields b₀ b₁) (hs : s ≤ c₁) :
    Packing c₀ c₁ ((f, s) :: fields) b₀ (b₁ ++ [(f, s)]) where
  perm := by
    have hmove : (b₀ ++ (b₁ ++ [(f, s)])).Perm ((f, s) :: (b₀ ++ b₁)) := by
      rw [← List.append_assoc]
      exact List.perm_append_singleton _ _
    exact hmove.trans (h.perm.cons _)
  size₀ := h.size₀
  size₁ := by
    have := h.size₁
    rw [totalSize_append_singleton]
    omega

/-- One turn of the loop: there is room in the bin, and the rest can be packed. -/
theorem attempt_eq_some_iff {c : Nat} {o : Option (List (List FieldSpec))}
    {g : List (List FieldSpec) → List (List FieldSpec)} :
    (if s > c then none else o.map g) = some bins ↔
      s ≤ c ∧ ∃ packing, o = some packing ∧ g packing = bins := by
  by_cases hs : s > c
  · rw [if_pos hs]
    exact iff_of_false nofun fun h => absurd h.1 (Nat.not_le.mpr hs)
  · rw [if_neg hs, Option.map_eq_some_iff]
    exact (and_iff_right (Nat.le_of_not_lt hs)).symm

/-- What `binpack` returns is a packing. -/
theorem packing_of_binpack (h : binpack [c₀, c₁] fields = some bins) :
    ∃ b₀ b₁, bins = [b₀, b₁] ∧ Packing c₀ c₁ fields b₀ b₁ := by
  induction fields generalizing c₀ c₁ bins with
  | nil =>
    rw [binpack] at h
    obtain rfl := Option.some.inj h
    exact ⟨[], [], rfl, .refl _, Nat.zero_le _, Nat.zero_le _⟩
  | cons x fields ih =>
    obtain ⟨f, s⟩ := x
    rw [binpack_cons, Option.orElse_eq_orElse, Option.orElse_eq_or, Option.or_eq_some_iff] at h
    rcases h with hfirst | ⟨-, hsecond⟩
    · obtain ⟨hs, packing, hpack, rfl⟩ := attempt_eq_some_iff.mp hfirst
      obtain ⟨b₀, b₁, rfl, hp⟩ := ih hpack
      exact ⟨_, _, rfl, hp.cons₀ hs⟩
    · -- the search has stepped back
      obtain ⟨hs, packing, hpack, rfl⟩ := attempt_eq_some_iff.mp hsecond
      obtain ⟨b₀, b₁, rfl, hp⟩ := ih hpack
      exact ⟨_, _, rfl, hp.cons₁ hs⟩

/-! ## When there is one -/

theorem attempt_isSome_iff {c s : Nat} {o : Option (List (List FieldSpec))}
    {g : List (List FieldSpec) → List (List FieldSpec)} :
    (if s > c then none else o.map g).isSome = true ↔ s ≤ c ∧ o.isSome = true := by
  by_cases hs : s > c
  · rw [if_pos hs]
    exact iff_of_false Bool.false_ne_true fun h => absurd h.1 (Nat.not_le.mpr hs)
  · rw [if_neg hs, Option.isSome_map]
    exact (and_iff_right (Nat.le_of_not_lt hs)).symm

/-- The search misses nothing: it fails just if no distribution of the fields over the two bins
    respects the capacities. -/
theorem isSome_binpack_iff : (binpack [c₀, c₁] fields).isSome = true ↔
    Packable ![c₀, c₁] (fields.map Prod.snd) := by
  induction fields generalizing c₀ c₁ with
  | nil =>
    rw [binpack]
    exact iff_of_true rfl packable_nil
  | cons x fields ih =>
    obtain ⟨f, s⟩ := x
    have hfirst : Function.update ![c₀, c₁] 0 (c₀ - s) = ![c₀ - s, c₁] :=
      funext (Fin.forall_fin_two.mpr ⟨rfl, rfl⟩)
    have hsecond : Function.update ![c₀, c₁] 1 (c₁ - s) = ![c₀, c₁ - s] :=
      funext (Fin.forall_fin_two.mpr ⟨rfl, rfl⟩)
    rw [List.map_cons, packable_cons, Fin.exists_fin_two]
    change _ ↔ s ≤ c₀ ∧ Packable (Function.update ![c₀, c₁] 0 (c₀ - s)) _ ∨
      s ≤ c₁ ∧ Packable (Function.update ![c₀, c₁] 1 (c₁ - s)) _
    rw [hfirst, hsecond, binpack_cons, Option.orElse_eq_orElse, Option.orElse_eq_or,
      Option.isSome_or, Bool.or_eq_true, attempt_isSome_iff, attempt_isSome_iff, ih, ih]

end CapGen
end SepKernel
