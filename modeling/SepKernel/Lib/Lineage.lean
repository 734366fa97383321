import Mathlib.Data.Set.Function
import Mathlib.Logic.Relation

/-!
# Lineage

Objects live in places. An object is made from another one, in a new place, or moves from one
place to another, and a history lists these events, newest first. From the history one reads off
the identity of the object in a place and which object was made from which; this file has the
rules by which the two relations change when an event is added.
-/

namespace Lineage

variable {α : Type*}

/-- What can happen to an object. -/
inductive Event (α : Type*) where
  /-- From the object in `src` a new one was made, in `dst`. -/
  | derived (src dst : α)
  | moved (src dst : α)
deriving DecidableEq

/-- An object was there from the start, or it is the one that a derivation made. -/
inductive Ident (α : Type*) where
  | root (n : α)
  | derived (k : Nat)
deriving DecidableEq

/-- How old an object is. -/
def Ident.rank : Ident α → Nat
  | .root _ => 0
  | .derived k => k + 1

section

variable [DecidableEq α] {es : List (Event α)} {e : Event α} {i j : Ident α} {a x n src dst : α}
  {k : Nat}

/-- The object in a place. -/
def ident : List (Event α) → α → Ident α
  | [], n => .root n
  | .derived _ dst :: es, n => if n = dst then .derived es.length else ident es n
  | .moved src dst :: es, n => if n = dst then ident es src else ident es n

/-- `j` was made from `i`. -/
inductive Parent : List (Event α) → Ident α → Ident α → Prop
  | here {es : List (Event α)} {src dst : α} :
      Parent (.derived src dst :: es) (ident es src) (.derived es.length)
  | there {es : List (Event α)} {e : Event α} {i j : Ident α} (h : Parent es i j) :
      Parent (e :: es) i j

/-- One or more generations. -/
def Descends (es : List (Event α)) : Ident α → Ident α → Prop := Relation.TransGen (Parent es)

/-- What is in `x` was made from what is in `a`. -/
def ChildOf (es : List (Event α)) (a x : α) : Prop := Parent es (ident es a) (ident es x)

/-- The same in any number of steps, at least one. -/
def DerivedFrom (es : List (Event α)) (a x : α) : Prop := Descends es (ident es a) (ident es x)

/-! ## Identities are older than the history is long -/

/-- No object is younger than the history. -/
theorem rank_ident_le : ∀ {es : List (Event α)} {n : α}, (ident es n).rank ≤ es.length
  | [], n => le_rfl
  | .derived src dst :: es, n => by
    rw [ident]
    split
    · exact le_rfl
    · exact rank_ident_le.trans (Nat.le_succ _)
  | .moved src dst :: es, n => by
    rw [ident]
    split <;> exact rank_ident_le.trans (Nat.le_succ _)

/-- Parents are older than their children, and both are in the history. -/
theorem Parent.rank_lt (h : Parent es i j) : i.rank < j.rank ∧ j.rank ≤ es.length := by
  induction h with
  | here => exact ⟨Nat.lt_succ_of_le rank_ident_le, le_rfl⟩
  | there _ ih => exact ⟨ih.1, ih.2.trans (Nat.le_succ _)⟩

theorem Descends.rank_lt (h : Descends es i j) : i.rank < j.rank := by
  induction h with
  | single h => exact h.rank_lt.1
  | tail _ h ih => exact ih.trans h.rank_lt.1

/-- Nothing is made from itself. -/
theorem DerivedFrom.irrefl : ¬ DerivedFrom es a a := fun h => absurd h.rank_lt (lt_irrefl _)

/-- The object that the next event makes is new. -/
theorem ident_ne_new : ident es n ≠ .derived es.length := fun h => by
  have : (ident es n).rank ≤ es.length := rank_ident_le
  rw [h] at this
  exact absurd this (Nat.not_succ_le_self _)

/-- So it is in no relation yet. -/
theorem Parent.ne_new (h : Parent es i j) : i ≠ .derived es.length ∧ j ≠ .derived es.length := by
  obtain ⟨h1, h2⟩ := h.rank_lt
  constructor
  · rintro rfl
    exact absurd (h1.trans_le h2) (not_lt.mpr (Nat.le_succ _))
  · rintro rfl
    exact absurd h2 (Nat.not_succ_le_self _)

/-- A derivation leaves all other places alone. -/
theorem ident_derived_of_ne (h : n ≠ dst) : ident (.derived src dst :: es) n = ident es n :=
  if_neg h

theorem ident_derived_dst : ident (.derived src dst :: es) dst = .derived es.length := if_pos rfl

/-- After a move the place `dst` stands for what `src` stood for. -/
theorem ident_moved :
    ident (.moved src dst :: es) n = ident es (if n = dst then src else n) := by
  rw [ident]
  split <;> rfl

/-! ## One more object -/

/-- It adds one pair to the relation. -/
theorem parent_derived : Parent (.derived src dst :: es) i j ↔
    (i = ident es src ∧ j = .derived es.length) ∨ Parent es i j := by
  constructor
  · intro h
    cases h with
    | here => exact Or.inl ⟨rfl, rfl⟩
    | there h => exact Or.inr h
  · rintro (⟨rfl, rfl⟩ | h)
    · exact .here
    · exact .there h

theorem parent_ident_derived_of_ne (hn : n ≠ dst) : Parent (.derived src dst :: es) i
    (ident (.derived src dst :: es) n) ↔ Parent es i (ident es n) := by
  rw [ident_derived_of_ne hn, parent_derived]
  exact or_iff_right fun h => ident_ne_new h.2

theorem parent_ident_derived_dst : Parent (.derived src dst :: es) i
    (ident (.derived src dst :: es) dst) ↔ i = ident es src := by
  rw [ident_derived_dst, parent_derived]
  exact ⟨fun h => h.elim And.left fun h => absurd rfl h.ne_new.2, fun h => Or.inl ⟨h, rfl⟩⟩

/-- What is older keeps its ancestors. -/
theorem descends_derived_of_ne (hj : j ≠ .derived es.length) :
    Descends (.derived src dst :: es) i j ↔ Descends es i j := by
  constructor
  · intro h
    induction h with
    | single h => exact .single ((parent_derived.mp h).resolve_left fun h => hj h.2)
    | tail _ h ih =>
      have h' := (parent_derived.mp h).resolve_left fun h => hj h.2
      exact .tail (ih h'.ne_new.1) h'
  · exact Relation.TransGen.mono (fun _ _ => Parent.there) _ _

/-- The ancestors of the new object are its source and the ancestors of that. -/
theorem descends_new : Descends (.derived src dst :: es) i (.derived es.length) ↔
    i = ident es src ∨ Descends es i (ident es src) := by
  have hlast : ∀ {b : Ident α}, Parent (.derived src dst :: es) b (.derived es.length) →
      b = ident es src := fun h => by
    rcases parent_derived.mp h with h | h
    · exact h.1
    · exact absurd rfl h.ne_new.2
  constructor
  · intro h
    obtain ⟨b, hb, hlast'⟩ := Relation.TransGen.tail'_iff.mp h
    obtain rfl := hlast hlast'
    rcases Relation.reflTransGen_iff_eq_or_transGen.mp hb with h | h
    · exact Or.inl h.symm
    · exact Or.inr ((descends_derived_of_ne ident_ne_new).mp h)
  · rintro (rfl | h)
    · exact .single .here
    · exact .tail ((descends_derived_of_ne ident_ne_new).mpr h) .here

/-- And it has no descendants. -/
theorem not_descends_from_new : ¬ Descends (.derived src dst :: es) (.derived es.length) j := by
  intro h
  obtain ⟨b, hb, -⟩ := Relation.TransGen.head'_iff.mp h
  rcases parent_derived.mp hb with h | h
  · exact ident_ne_new h.1.symm
  · exact h.ne_new.1 rfl

/-! ## Places after an event -/

/-- Between two other places nothing changes. -/
theorem derivedFrom_derived (ha : a ≠ dst) (hx : x ≠ dst) :
    DerivedFrom (.derived src dst :: es) a x ↔ DerivedFrom es a x := by
  rw [DerivedFrom, ident_derived_of_ne ha, ident_derived_of_ne hx,
    descends_derived_of_ne ident_ne_new]
  rfl

/-- What is in the new place descends from what is in the source, and from its ancestors. -/
theorem derivedFrom_derived_dst (ha : a ≠ dst) : DerivedFrom (.derived src dst :: es) a dst ↔
    ident es a = ident es src ∨ DerivedFrom es a src := by
  rw [DerivedFrom, ident_derived_of_ne ha, ident_derived_dst, descends_new]
  rfl

theorem not_derivedFrom_dst : ¬ DerivedFrom (.derived src dst :: es) dst x := by
  rw [DerivedFrom, ident_derived_dst]
  exact not_descends_from_new

theorem childOf_derived (ha : a ≠ dst) (hx : x ≠ dst) :
    ChildOf (.derived src dst :: es) a x ↔ ChildOf es a x := by
  rw [ChildOf, ident_derived_of_ne ha, ident_derived_of_ne hx, parent_derived]
  exact or_iff_right fun h => ident_ne_new h.2

theorem childOf_derived_dst (ha : a ≠ dst) :
    ChildOf (.derived src dst :: es) a dst ↔ ident es a = ident es src := by
  rw [ChildOf, ident_derived_of_ne ha, ident_derived_dst, parent_derived]
  constructor
  · rintro (h | h)
    · exact h.1
    · exact absurd rfl h.ne_new.2
  · exact fun h => Or.inl ⟨h, rfl⟩

/-- A move makes no object. -/
theorem parent_moved : Parent (.moved src dst :: es) i j ↔ Parent es i j := by
  constructor
  · intro h
    cases h with
    | there h => exact h
  · exact .there

/-- The place of the moved object is its new one. -/
theorem derivedFrom_moved : DerivedFrom (.moved src dst :: es) a x ↔
    DerivedFrom es (if a = dst then src else a) (if x = dst then src else x) := by
  have hpar : Parent (.moved src dst :: es) = Parent es := by
    funext i j
    exact propext parent_moved
  rw [DerivedFrom, DerivedFrom, Descends, hpar, ident_moved, ident_moved]
  rfl

theorem childOf_moved : ChildOf (.moved src dst :: es) a x ↔
    ChildOf es (if a = dst then src else a) (if x = dst then src else x) := by
  rw [ChildOf, ChildOf, parent_moved, ident_moved, ident_moved]

theorem not_derivedFrom_nil : ¬ DerivedFrom [] a x := by
  intro h
  obtain ⟨b, -, hb⟩ := Relation.TransGen.tail'_iff.mp h
  cases hb

/-! ## No object is in two places -/

variable {L L' : Set α}

theorem injOn_nil : Set.InjOn (ident ([] : List (Event α))) L := fun _ _ _ _ h => Ident.root.inj h

/-- A new object in a free place is in no other. -/
theorem injOn_derived (h : Set.InjOn (ident es) L) (hL : ∀ n ∈ L', n = dst ∨ n ∈ L) :
    Set.InjOn (ident (.derived src dst :: es)) L' := by
  intro a ha b hb hab
  by_cases had : a = dst <;> by_cases hbd : b = dst
  · exact had.trans hbd.symm
  · rw [had, ident_derived_dst, ident_derived_of_ne hbd] at hab
    exact absurd hab.symm ident_ne_new
  · rw [hbd, ident_derived_dst, ident_derived_of_ne had] at hab
    exact absurd hab ident_ne_new
  · rw [ident_derived_of_ne had, ident_derived_of_ne hbd] at hab
    exact h ((hL a ha).resolve_left had) ((hL b hb).resolve_left hbd) hab

/-- A moved one leaves its old place. -/
theorem injOn_moved (h : Set.InjOn (ident es) L) (hs : src ∈ L)
    (hL : ∀ n ∈ L', n = dst ∨ n ≠ src ∧ n ∈ L) :
    Set.InjOn (ident (.moved src dst :: es)) L' := by
  intro a ha b hb hab
  rw [ident_moved, ident_moved] at hab
  by_cases had : a = dst <;> by_cases hbd : b = dst
  · exact had.trans hbd.symm
  · rw [if_pos had, if_neg hbd] at hab
    obtain ⟨hne, hbL⟩ := (hL b hb).resolve_left hbd
    exact absurd (h hs hbL hab).symm hne
  · rw [if_neg had, if_pos hbd] at hab
    obtain ⟨hne, haL⟩ := (hL a ha).resolve_left had
    exact absurd (h haL hs hab) hne
  · rw [if_neg had, if_neg hbd] at hab
    exact h ((hL a ha).resolve_left had).2 ((hL b hb).resolve_left hbd).2 hab

end
end Lineage
