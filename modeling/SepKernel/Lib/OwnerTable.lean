import SepKernel.Lib.Exclusive

/-!
# Tables of owners

Holders have a home and own sets of resources. A table tracks them if it names for each resource
the home of its owner, and nothing for one that nobody owns. Writing a holder's home for what that
holder owns keeps the table right as long as nothing changed elsewhere.

A table over an interval can also say how far each entry's owner goes on. The runs stay within
their owners as long as no run that starts before a place where the table is rewritten reaches past
it.
-/

namespace OwnerTable

open Exclusive (Excl)

/-! ## Names -/

section

variable {ι P R : Type*} {D A : Set R} {home : ι → P} {own own' : ι → Set R}
  {T T' : R → Option P} {i : ι} {r : R} {p : P}

/-- For the resources in `D`, the table names the homes of the owners. -/
def Tracks (D : Set R) (home : ι → P) (own : ι → Set R) (T : R → Option P) : Prop :=
  ∀ r ∈ D, ∀ p, T r = some p ↔ ∃ i, home i = p ∧ r ∈ own i

/-- The half of it that no loss of a resource can hurt. -/
def Names (D : Set R) (home : ι → P) (own : ι → Set R) (T : R → Option P) : Prop :=
  ∀ r ∈ D, ∀ i, r ∈ own i → T r = some (home i)

/-- The other half: no entry is left behind. -/
def Covered (D : Set R) (own : ι → Set R) (T : R → Option P) : Prop :=
  ∀ r ∈ D, T r ≠ none → ∃ i, r ∈ own i

/-- A table tracks its owners if it names only owners, and all of them. -/
theorem tracks_iff : Tracks D home own T ↔ Names D home own T ∧ Covered D own T := by
  constructor
  · refine fun h => ⟨fun r hr i hi => (h r hr _).mpr ⟨i, rfl, hi⟩, fun r hr ht => ?_⟩
    obtain ⟨p, hp⟩ := Option.ne_none_iff_exists'.mp ht
    obtain ⟨i, -, hi⟩ := (h r hr p).mp hp
    exact ⟨i, hi⟩
  · rintro ⟨hn, hc⟩ r hr p
    constructor
    · intro hp
      obtain ⟨i, hi⟩ := hc r hr (by rw [hp]; simp)
      exact ⟨i, Option.some.inj ((hn r hr i hi).symm.trans hp), hi⟩
    · rintro ⟨i, rfl, hi⟩
      exact hn r hr i hi

/-- The table with `p` written for the resources in `A`. -/
structure Assigned (D A : Set R) (p : P) (T T' : R → Option P) : Prop where
  inside : ∀ r ∈ D, r ∈ A → T' r = some p
  outside : ∀ r ∈ D, r ∉ A → T' r = T r

namespace Assigned

variable {B : Set R} {T'' : R → Option P}

/-- Nothing is written for no resources. -/
theorem empty : Assigned D ∅ p T T where
  inside r _ hr := absurd hr (Set.notMem_empty r)
  outside _ _ _ := rfl

/-- Writing `p` for `A` and then for `B` is writing it for both. -/
theorem union (h : Assigned D A p T T') (h' : Assigned D B p T' T'') :
    Assigned D (A ∪ B) p T T'' where
  inside r hr hAB := by
    by_cases hB : r ∈ B
    · exact h'.inside r hr hB
    · rw [h'.outside r hr hB]
      exact h.inside r hr (hAB.resolve_right hB)
  outside r hr hAB := by
    rw [h'.outside r hr fun hB => hAB (Or.inr hB)]
    exact h.outside r hr fun hA => hAB (Or.inl hA)

/-- What has the name now was written or had it before. -/
theorem eq_some_iff (h : Assigned D A p T T') (hr : r ∈ D) :
    T' r = some p ↔ r ∈ A ∨ T r = some p := by
  by_cases hA : r ∈ A
  · exact iff_of_true (h.inside r hr hA) (Or.inl hA)
  · rw [h.outside r hr hA]
    exact (or_iff_right hA).symm

end Assigned

/-- An assignment to what its owner owns afterwards, where the rest stays with whom it was. -/
theorem Names.assign (h : Names D home own T) (hT : Assigned D A (home i) T T') (hA : A ⊆ own' i)
    (hex : Excl own')
    (hrest : ∀ r ∉ A, ∀ j, r ∈ own' j → ∃ j', home j' = home j ∧ r ∈ own j') :
    Names D home own' T' := by
  intro r hr j hj
  by_cases hrA : r ∈ A
  · rw [hT.inside r hr hrA, hex.eq (hA hrA) hj]
  · obtain ⟨j', hhome, hj'⟩ := hrest r hrA j hj
    rw [hT.outside r hr hrA, h r hr j' hj', hhome]

/-- Ownership may shrink, or move within a home, without an assignment. -/
theorem Names.congr (h : Names D home own T) (hT : ∀ r ∈ D, T' r = T r)
    (hrest : ∀ r j, r ∈ own' j → ∃ j', home j' = home j ∧ r ∈ own j') :
    Names D home own' T' := by
  intro r hr j hj
  obtain ⟨j', hhome, hj'⟩ := hrest r j hj
  rw [hT r hr, h r hr j' hj', hhome]

/-- What was assigned is covered, and the rest is as it was. -/
theorem Covered.assign (h : Covered D own T) (hT : Assigned D A p T T') (hA : A ⊆ own' i)
    (hrest : ∀ r ∉ A, ∀ j, r ∈ own j → ∃ j', r ∈ own' j') : Covered D own' T' := by
  intro r hr ht
  by_cases hrA : r ∈ A
  · exact ⟨i, hA hrA⟩
  · rw [hT.outside r hr hrA] at ht
    obtain ⟨j, hj⟩ := h r hr ht
    exact hrest r hrA j hj

theorem Covered.congr (h : Covered D own T) (hT : ∀ r ∈ D, T' r = T r)
    (hrest : ∀ r j, r ∈ own j → ∃ j', r ∈ own' j') : Covered D own' T' := by
  intro r hr ht
  rw [hT r hr] at ht
  obtain ⟨j, hj⟩ := h r hr ht
  exact hrest r j hj

end

/-! ## Runs -/

section

variable {P : Type*} {owner owner' : Nat → P} {len len' : Nat → Nat} {n lo hi b : Nat} {p : P}

/-- Every run is not empty, ends by `n` and stays with its owner. -/
def RunsWithin (n : Nat) (owner : Nat → P) (len : Nat → Nat) : Prop :=
  ∀ q < n, 1 ≤ len q ∧ q + len q ≤ n ∧ ∀ k < len q, owner (q + k) = owner q

/-- No run that starts before `b` goes on behind it. -/
def EndBy (len : Nat → Nat) (b : Nat) : Prop := ∀ q < b, q + len q ≤ b

/-- From `lo` to `hi` everything is one run of `p`, entered at every place. -/
structure Filled (lo hi : Nat) (p : P) (owner owner' : Nat → P) (len len' : Nat → Nat) :
    Prop where
  owner_in : ∀ q, lo ≤ q → q < hi → owner' q = p
  len_in : ∀ q, lo ≤ q → q < hi → len' q = hi - q
  owner_out : ∀ q, ¬ (lo ≤ q ∧ q < hi) → owner' q = owner q
  len_out : ∀ q, ¬ (lo ≤ q ∧ q < hi) → len' q = len q

/-- Filling a run of entries keeps the others' runs within their owners, if none of them reaches
    into it. -/
theorem RunsWithin.fill (h : RunsWithin n owner len) (hf : Filled lo hi p owner owner' len len')
    (hlo : EndBy len lo) (hhi : hi ≤ n) : RunsWithin n owner' len' := by
  intro q hq
  by_cases hin : lo ≤ q ∧ q < hi
  · rw [hf.len_in q hin.1 hin.2, hf.owner_in q hin.1 hin.2]
    exact ⟨by omega, by omega, fun k hk => hf.owner_in _ (by omega) (by omega)⟩
  · obtain ⟨h1, h2, h3⟩ := h q hq
    rw [hf.len_out q hin, hf.owner_out q hin]
    refine ⟨h1, h2, fun k hk => ?_⟩
    -- a run that starts in front of the rewritten part ends there
    have hout : ¬ (lo ≤ q + k ∧ q + k < hi) := by
      by_cases hql : q < lo
      · have := hlo q hql
        omega
      · omega
    rw [hf.owner_out _ hout, h3 k hk]

/-- A bound that the filled part does not straddle stays one. -/
theorem EndBy.fill (h : EndBy len b) (hf : Filled lo hi p owner owner' len len')
    (hb : hi ≤ b ∨ b ≤ lo) : EndBy len' b := by
  intro q hq
  by_cases hin : lo ≤ q ∧ q < hi
  · rw [hf.len_in q hin.1 hin.2]
    omega
  · rw [hf.len_out q hin]
    exact h q hq

/-- The end of the rewritten part is an end of runs if its start is. -/
theorem EndBy.fill_end (h : EndBy len lo) (hf : Filled lo hi p owner owner' len len')
    (hle : lo ≤ hi) : EndBy len' hi := by
  intro q hq
  by_cases hql : q < lo
  · rw [hf.len_out q (by omega)]
    exact (h q hql).trans hle
  · rw [hf.len_in q (by omega) hq]
    omega

end

end OwnerTable
