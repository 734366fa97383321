import SepKernel.Lib.Interleaving

/-!
# Custody of shared cells

An agent may have a cell in its custody, in some role, and which ones it has can be read off its
control state. No cell is in two custodies, and the value of a cell is one that fits the custody it
is in. To keep this in every interleaving it is enough to look at each access by itself: it leaves
the custody of its cell alone, takes a cell that is in nobody's, or gives up one that the agent has.
-/

namespace Custody

open Interleaving
open Transition (Reachable restrict)

variable {ι κ ν γ ω ρ : Type*} [DecidableEq ι] [DecidableEq κ] {claims : γ → κ → ρ → Prop}
  {fits : Option ρ → ν → Prop} {s : State ι κ ν γ} {owner : κ → Option (ι × ρ)} {a b : ι} {c : κ}
  {r r' : ρ} {g g' : γ} {x : Access κ ν γ}

/-- Each cell has at most one owner, and the agents claim what they own. -/
structure Held (claims : γ → κ → ρ → Prop) (fits : Option ρ → ν → Prop) (s : State ι κ ν γ)
    (owner : κ → Option (ι × ρ)) : Prop where
  claims : ∀ a c r, claims (s.ctl a) c r ↔ owner c = some (a, r)
  fits : ∀ c, fits ((owner c).map Prod.snd) (s.mem c)

/-- What an access may do to the custody of its cell, from `g` to `g'`. -/
inductive Change (claims : γ → κ → ρ → Prop) (g g' : γ) (c : κ) : Option ρ → Option ρ → Prop where
  | keep {o : Option ρ} (h : ∀ r, claims g' c r ↔ claims g c r) : Change claims g g' c o o
  | take {r : ρ} (h : ∀ r', claims g' c r' ↔ r' = r) : Change claims g g' c none (some r)
  | give {r : ρ} (hr : claims g c r) (h : ∀ r', ¬ claims g' c r') :
      Change claims g g' c (some r) none

/-- An access that finds `v`, whatever the custody of its cell can be. -/
def Lawful (claims : γ → κ → ρ → Prop) (fits : Option ρ → ν → Prop) (g : γ) (x : Access κ ν γ)
    (v : ν) : Prop :=
  ∀ o, fits o v → (∀ r, claims g x.cell r → o = some r) →
    (∃ o', fits o' (x.write v) ∧ Change claims g (x.next v) x.cell o o') ∧
      ∀ c, c ≠ x.cell → ∀ r, claims (x.next v) c r ↔ claims g c r

namespace Lawful

variable {v : ν}

omit [DecidableEq κ] in
/-- An access that leaves all claims as they are. -/
theorem keep (hk : ∀ c r, claims (x.next v) c r ↔ claims g c r)
    (hw : ∀ o, fits o v → (∀ r, claims g x.cell r → o = some r) → fits o (x.write v)) :
    Lawful claims fits g x v :=
  fun o ho hmine => ⟨⟨o, hw o ho hmine, .keep (hk x.cell)⟩, fun c _ => hk c⟩

omit [DecidableEq κ] in
/-- An access that claims its cell, which is nobody's. -/
theorem take (r : ρ) (hk : ∀ c r', claims (x.next v) c r' ↔ claims g c r' ∨ c = x.cell ∧ r' = r)
    (hfree : ∀ o, fits o v → o = none) (hw : fits (some r) (x.write v)) :
    Lawful claims fits g x v := by
  intro o ho hmine
  obtain rfl := hfree o ho
  refine ⟨⟨some r, hw, .take fun r' => ?_⟩, fun c hc r' => ?_⟩
  · rw [hk]
    constructor
    · intro h
      rcases h with h | h
      · exact absurd (hmine r' h) (by simp)
      · exact h.2
    · intro h
      exact Or.inr ⟨rfl, h⟩
  · rw [hk]
    exact or_iff_left fun h => hc h.1

omit [DecidableEq κ] in
/-- An access that gives its cell up. -/
theorem give (r : ρ) (hr : claims g x.cell r)
    (hk : ∀ c r', claims (x.next v) c r' ↔ claims g c r' ∧ ¬ (c = x.cell ∧ r' = r))
    (hw : fits (some r) v → fits none (x.write v)) : Lawful claims fits g x v := by
  intro o ho hmine
  obtain rfl := hmine r hr
  refine ⟨⟨none, hw ho, .give hr fun r' h => ?_⟩, fun c hc r' => ?_⟩
  · obtain ⟨h, hne⟩ := (hk _ _).mp h
    exact hne ⟨rfl, (Option.some.inj (hmine r' h)).symm⟩
  · rw [hk]
    exact and_iff_left fun h => hc h.1

omit [DecidableEq κ] in
/-- A compare and set that leaves all claims as they are when it fails. -/
theorem cas [DecidableEq ν] {u w : ν} {yes no : γ}
    (hyes : Lawful claims fits g (.store c w yes) u) (hno : ∀ c r, claims no c r ↔ claims g c r) :
    Lawful claims fits g (.cas c u w yes no) v := by
  by_cases hv : v = u
  · subst hv
    intro o ho hmine
    rw [show (Access.cas c v w yes no).write v = w from if_pos rfl,
      show (Access.cas c v w yes no).next v = yes from if_pos rfl]
    exact hyes o ho hmine
  · refine keep (fun c r => ?_) fun o ho _ => ?_
    · rw [show (Access.cas _ u w yes no).next v = no from if_neg hv]
      exact hno c r
    · rw [show (Access.cas _ u w yes no).write v = v from if_neg hv]
      exact ho

end Lawful

namespace Held

omit [DecidableEq ι] [DecidableEq κ] in
theorem unique (h : Held claims fits s owner) (ha : claims (s.ctl a) c r)
    (hb : claims (s.ctl b) c r') : a = b ∧ r = r' := by
  have heq := ((h.claims a c r).mp ha).symm.trans ((h.claims b c r').mp hb)
  exact Prod.mk.inj (Option.some.inj heq)

omit [DecidableEq κ] in
theorem setCtl (h : Held claims fits s owner) (hg : ∀ c r, claims g c r ↔ claims (s.ctl a) c r) :
    Held claims fits (s.setCtl a g) owner where
  claims b c r := by
    by_cases hb : b = a
    · subst hb
      rw [State.ctl_setCtl_same, hg]
      exact h.claims b c r
    · rw [State.ctl_setCtl_of_ne hb]
      exact h.claims b c r
  fits := h.fits

/-- With the custody of the cell changed, and all else as before. -/
theorem of_cell {owner' : κ → Option (ι × ρ)} (h : Held claims fits s owner)
    (hcell : ∀ b r, claims ((s.perform a x).ctl b) x.cell r ↔ owner' x.cell = some (b, r))
    (hothers : ∀ c, c ≠ x.cell → ∀ r, claims (x.next (s.mem x.cell)) c r ↔ claims (s.ctl a) c r)
    (howner : ∀ c, c ≠ x.cell → owner' c = owner c)
    (hfits : fits ((owner' x.cell).map Prod.snd) (x.write (s.mem x.cell))) :
    Held claims fits (s.perform a x) owner' where
  claims b c r := by
    by_cases hc : c = x.cell
    · subst hc
      exact hcell b r
    rw [howner c hc, ← h.claims b c r]
    by_cases hb : b = a
    · subst hb
      rw [State.ctl_perform_same]
      exact hothers c hc r
    · rw [State.ctl_perform_of_ne hb]
  fits c := by
    by_cases hc : c = x.cell
    · subst hc
      rw [State.mem_perform_same]
      exact hfits
    · rw [howner c hc, State.mem_perform_of_ne hc]
      exact h.fits c

/-- A lawful access. -/
theorem perform (h : Held claims fits s owner)
    (hx : Lawful claims fits (s.ctl a) x (s.mem x.cell)) :
    ∃ owner', Held claims fits (s.perform a x) owner' := by
  have hmine : ∀ r, claims (s.ctl a) x.cell r → (owner x.cell).map Prod.snd = some r := by
    intro r hr
    rw [(h.claims a x.cell r).mp hr]
    rfl
  obtain ⟨⟨o', hfits, hchange⟩, hothers⟩ := hx _ (h.fits x.cell) hmine
  generalize ho : (owner x.cell).map Prod.snd = o at hchange
  cases hchange with
  | keep hk =>
    refine ⟨owner, h.of_cell (fun b r => ?_) hothers (fun _ _ => rfl) (ho ▸ hfits)⟩
    by_cases hb : b = a
    · subst hb
      rw [State.ctl_perform_same, hk]
      exact h.claims b x.cell r
    · rw [State.ctl_perform_of_ne hb]
      exact h.claims b x.cell r
  | @take r hk =>
    -- a cell nobody has becomes this actor's
    have hnone : owner x.cell = none := Option.map_eq_none_iff.mp ho
    refine ⟨Function.update owner x.cell (some (a, r)), h.of_cell (fun b r' => ?_) hothers
      (fun c hc => Function.update_of_ne hc _ _) (by rw [Function.update_self]; exact hfits)⟩
    rw [Function.update_self]
    by_cases hb : b = a
    · subst hb
      rw [State.ctl_perform_same, hk]
      constructor
      · intro h
        rw [h]
      · intro h
        exact (Prod.mk.inj (Option.some.inj h)).2.symm
    · rw [State.ctl_perform_of_ne hb, h.claims b x.cell r', hnone]
      exact iff_of_false (by simp) fun h => hb (Prod.mk.inj (Option.some.inj h)).1.symm
  | @give r hr hk =>
    -- its own cell becomes nobody's
    have hsome : owner x.cell = some (a, r) := (h.claims a x.cell r).mp hr
    refine ⟨Function.update owner x.cell none, h.of_cell (fun b r' => ?_) hothers
      (fun c hc => Function.update_of_ne hc _ _) (by rw [Function.update_self]; exact hfits)⟩
    rw [Function.update_self]
    by_cases hb : b = a
    · subst hb
      rw [State.ctl_perform_same]
      exact iff_of_false (hk r') (by simp)
    · rw [State.ctl_perform_of_ne hb, h.claims b x.cell r', hsome]
      exact iff_of_false (fun h => hb (Prod.mk.inj (Option.some.inj h)).1.symm) (by simp)

end Held

/-- If entering an operation changes no claim and every access that the condition lets through is
    lawful, the cells are held in every state of every run. -/
theorem held_of_reachable {M : Machine κ ν γ ω} {init : State ι κ ν γ → Prop}
    {cond : State ι κ ν γ → Label ι ω → Prop}
    (hinit : ∀ s, init s → ∃ owner, Held claims fits s owner)
    (henter : ∀ g o g', M.enter g o = some g' → ∀ c r, claims g' c r ↔ claims g c r)
    (haccess : ∀ s a x, cond s (.access a) → M.access (s.ctl a) = some x →
      Lawful claims fits (s.ctl a) x (s.mem x.cell))
    (h : Reachable init (restrict M.Step cond) s) : ∃ owner, Held claims fits s owner := by
  refine h.invariant (I := fun s => ∃ owner, Held claims fits s owner) hinit
    fun s l s' hs hl => ?_
  obtain ⟨hl, hcond⟩ := hl
  obtain ⟨owner, hs⟩ := hs
  rcases M.step_cases hl with ⟨a, o, g, rfl, hg, rfl⟩ | ⟨a, x, rfl, hx, rfl⟩
  · exact ⟨owner, hs.setCtl fun c r => henter _ o g hg c r⟩
  · exact hs.perform (haccess s a x hcond hx)

end Custody
