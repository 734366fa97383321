import SepKernel.NodeAccess

/-!
# The lists behind the pointers

What the pointers say while operations are in flight is compared with lists in which an insertion
and a deletion are one step each: that of the compare and set on the `prev` of the node behind. A
node that is being unlinked or inserted is in one hart's hands only, and the `next` of a node leads
to the one behind it by the stores that are still owed. Each access of each operation keeps this,
two of them under a condition: the store of `prev->next` that ends a deletion, and the assertion
that begins an insertion.
-/

namespace SepKernel

open Interleaving

variable {ι κ : Type} {hd : κ → NodeRef}

/-! ## What a hart knows -/

namespace NodeCtl

/-- The node that a hart has to itself. -/
def owns : NodeCtl → Option NodeRef
  | .unlinkLoad node _ => some node
  | .unlinkCas node _ _ => some node
  | .unlinkStore node _ _ => some node
  | .insertLoad node _ => some node
  | .insertCheck node _ _ => some node
  | .insertNext node _ _ => some node
  | .insertCas node _ _ => some node
  | .insertStore node _ _ => some node
  | .insertPublish node _ => some node
  | _ => none

/-- The same, before an insertion has got it into a list. -/
def brings : NodeCtl → Option NodeRef
  | .insertLoad node _ => some node
  | .insertCheck node _ _ => some node
  | .insertNext node _ _ => some node
  | .insertCas node _ _ => some node
  | _ => none

/-- A store of `x->next` that the lists are ahead of, as `(x, a, b)`: `b` is to replace `a`. -/
def owes : NodeCtl → Option (NodeRef × NodeRef × NodeRef)
  | .unlinkStore node prev next => some (prev, node, next)
  | .insertStore node prev next => some (prev, next, node)
  | _ => none

/-- What two harts that stand there do not have in common. -/
structure Compatible (c c' : NodeCtl) : Prop where
  owns : ∀ n, c.owns = some n → c'.owns ≠ some n
  brings : ∀ n p m, c = .unlinkStore n p m → c'.brings ≠ some p
  from_ne : ∀ z p a n m, c = .insertStore z p a → c' = .unlinkStore n p m → n ≠ a

end NodeCtl

/-- The stores that are owed lead from `a` to `b`. -/
def OwedPath (s : ListState ι) (x : NodeRef) : NodeRef → NodeRef → Prop :=
  Relation.ReflTransGen fun a b => ∃ h, (s.ctl h).owes = some (x, a, b)

/-- What a hart knows of the node it works on; `prev` is that of the lists. -/
def Knows (hd : κ → NodeRef) (s : ListState ι) (prev : NodeRef → Option NodeRef) : NodeCtl → Prop
  | .deleteLoad n => ∀ k, n ≠ hd k
  | .deleteCas n _ _ => ∀ k, n ≠ hd k
  | .unlinkLoad n p =>
    (∀ k, n ≠ hd k) ∧ s.prev n = none ∧ prev n = some p ∧ s.present n = true
  | .unlinkCas n p _ =>
    (∀ k, n ≠ hd k) ∧ s.prev n = none ∧ prev n = some p ∧ s.present n = true
  | .unlinkStore n _ _ => s.prev n = none ∧ prev n = none ∧ s.present n = true
  | .insertLoad n _ => s.prev n = none ∧ prev n = none ∧ s.present n = false
  | .insertCheck n _ _ => s.prev n = none ∧ prev n = none ∧ s.present n = false
  | .insertNext n _ _ => s.prev n = none ∧ prev n = none ∧ s.present n = false
  | .insertCas n _ m =>
    s.prev n = none ∧ prev n = none ∧ s.present n = false ∧ s.next n = some m
  | .insertStore n p _ => s.prev n = none ∧ prev n = some p ∧ s.present n = false
  | .insertPublish n p => s.prev n = none ∧ prev n = some p ∧ s.present n = false
  | _ => True

/-- The state follows the lists that `next` and `prev` link. -/
structure Follows (hd : κ → NodeRef) (s : ListState ι) (next prev : NodeRef → Option NodeRef)
    (rings : κ → List NodeRef) : Prop where
  family : Ring.Family next prev hd rings
  knows : ∀ h, Knows hd s prev (s.ctl h)
  compatible : ∀ h k, h ≠ k → (s.ctl h).Compatible (s.ctl k)
  plain : ∀ n, (∀ h, (s.ctl h).owns ≠ some n) →
    s.prev n = prev n ∧ (s.present n = true ↔ prev n ≠ none)
  leads : ∀ x y, prev y = some x → ∃ a, s.next x = some a ∧ OwedPath s x a y

section

variable {s s' : ListState ι} {h k : ι} {n m p q x y a b : NodeRef} {c c' : NodeCtl}
  {next prev next' prev' : NodeRef → Option NodeRef} {rings rings' : κ → List NodeRef}

namespace NodeCtl

/-- A hart owns the node that it brings. -/
theorem owns_of_brings (h : c.brings = some n) : c.owns = some n := by
  cases c <;> first | exact h | cases h

/-- A store is owed at two points: after a node has been unlinked, and after a new one has been
    linked from behind. -/
theorem owes_cases (h : c.owes = some (x, a, b)) :
    c = .unlinkStore a x b ∨ c = .insertStore b x a := by
  cases c with
  | unlinkStore _ _ _ => cases h; exact Or.inl rfl
  | insertStore _ _ _ => cases h; exact Or.inr rfl
  | _ => cases h

/-- A hart that owes no store. -/
theorem Compatible.of_owns (howns : ∀ n, c.owns = some n → c'.owns ≠ some n)
    (hbrings : ∀ n p m, c' = .unlinkStore n p m → c.brings ≠ some p)
    (howes : c.owes = none) : c.Compatible c' ∧ c'.Compatible c where
  left := {
    owns := howns
    brings := by
      intro n p m hc
      subst hc
      cases howes
    from_ne := by
      intro z p a n m hc
      subst hc
      cases howes }
  right := {
    owns := fun n hn h => howns n h hn
    brings := hbrings
    from_ne := by
      intro z p a n m _ hc
      subst hc
      cases howes }

/-- One that has no more to itself than before. -/
theorem Compatible.mono {d : NodeCtl} (hc : c.Compatible c' ∧ c'.Compatible c)
    (howns : ∀ n, d.owns = some n → c.owns = some n)
    (hbrings : ∀ n, d.brings = some n → c.brings = some n) (howes : d.owes = none) :
    d.Compatible c' ∧ c'.Compatible d :=
  Compatible.of_owns (fun n hn => hc.1.owns n (howns n hn))
    (fun n p m h hp => hc.2.brings n p m h (hbrings p hp)) howes

end NodeCtl

namespace Knows

/-- What a hart knows is about its own node only. -/
theorem congr (hc : Knows hd s prev c)
    (hown : ∀ n, c.owns = some n →
      s'.prev n = s.prev n ∧ prev' n = prev n ∧ s'.present n = s.present n)
    (hnext : ∀ n, c.brings = some n → s'.next n = s.next n) : Knows hd s' prev' c := by
  cases c with
  | insertCas n p m =>
    obtain ⟨h1, h2, h3⟩ := hown n rfl
    simpa only [Knows, h1, h2, h3, hnext n rfl] using hc
  | _ =>
    first
      | exact hc
      | obtain ⟨h1, h2, h3⟩ := hown _ rfl
        simpa only [Knows, h1, h2, h3] using hc

/-- An owned node looks deleted to the others. -/
theorem prev_eq_none (hc : Knows hd s prev c) (hn : c.owns = some n) : s.prev n = none := by
  cases c with
  | unlinkLoad _ _ => cases hn; exact hc.2.1
  | unlinkCas _ _ _ => cases hn; exact hc.2.1
  | _ => cases hn <;> exact hc.1

theorem of_brings (hc : Knows hd s prev c) (hn : c.brings = some n) :
    prev n = none ∧ s.present n = false := by
  cases c with
  | insertLoad _ _ => cases hn; exact hc.2
  | insertCheck _ _ _ => cases hn; exact hc.2
  | insertNext _ _ _ => cases hn; exact hc.2
  | insertCas _ _ _ => cases hn; exact ⟨hc.2.1, hc.2.2.1⟩
  | _ => cases hn

end Knows

namespace Follows

/-- A node with a predecessor is nobody's. -/
theorem not_owned (hs : Follows hd s next prev rings) (hn : s.prev n ≠ none) (h : ι) :
    (s.ctl h).owns ≠ some n := fun ho => hn ((hs.knows h).prev_eq_none ho)

/-- A node that is not deleted stands in the lists as its pointer says. -/
theorem prev_eq (hs : Follows hd s next prev rings) (hn : s.prev n = some p) : prev n = some p := by
  have hplain := (hs.plain n (hs.not_owned (by rw [hn]; exact Option.some_ne_none p))).1
  rw [← hplain, hn]

/-- Where the pointer back leads, the next pointer leads here, in the lists that are meant. -/
theorem linked (hs : Follows hd s next prev rings) (hn : prev n = some p) :
    Ring.Linked next prev p n := by
  obtain ⟨q, hq⟩ := hs.family.exists_prev (by rw [hn]; exact Option.some_ne_none p)
  obtain rfl : q = p := Option.some.inj (hq.2.symm.trans hn)
  exact hq

/-- Only one node stands behind another. -/
theorem unique (hs : Follows hd s next prev rings) (hn : prev n = some p) (hm : prev m = some p) :
    n = m := Option.some.inj ((hs.linked hn).1.symm.trans (hs.linked hm).1)

/-- A node of the lists points at something. -/
theorem exists_next (hs : Follows hd s next prev rings) (hn : prev n = some p) :
    ∃ a, s.next n = some a := by
  obtain ⟨q, hq⟩ := hs.family.exists_next (p := n) (by rw [hn]; exact Option.some_ne_none p)
  obtain ⟨a, ha, -⟩ := hs.leads n q hq.2
  exact ⟨a, ha⟩

/-- A predecessor is in a list. -/
theorem prev_ne_none (hs : Follows hd s next prev rings) (hn : prev n = some p) :
    prev p ≠ none := by
  obtain ⟨k, hk⟩ := hs.family.exists_ring (by rw [hn]; exact Option.some_ne_none p)
  obtain ⟨q, hqk, hq⟩ := (hs.family.ring k).exists_prev hk
  obtain rfl : q = p := Option.some.inj (hq.2.symm.trans hn)
  exact (hs.family.live q).mpr ⟨k, hqk⟩

/-- No two harts own a node between them. -/
theorem compat (hs : Follows hd s next prev rings) (hk : k ≠ h) :
    (s.ctl h).Compatible (s.ctl k) ∧ (s.ctl k).Compatible (s.ctl h) :=
  ⟨hs.compatible h k hk.symm, hs.compatible k h hk⟩

/-- Two harts do not own one node. -/
theorem owns_ne (hs : Follows hd s next prev rings) (hk : k ≠ h) (ho : (s.ctl h).owns = some n)
    (ho' : (s.ctl k).owns = some m) : m ≠ n := by
  rintro rfl
  exact (hs.compat hk).2.owns m ho' ho

/-- Nobody owns a node that is not deleted. -/
theorem owns_ne_of_live (hs : Follows hd s next prev rings) (hn : s.prev n ≠ none)
    (ho : (s.ctl k).owns = some m) : m ≠ n := by
  rintro rfl
  exact hs.not_owned hn k ho

variable [DecidableEq ι]

/-- After a step of one hart. -/
theorem of_hart (hs : Follows hd s next prev rings) (hctl : s'.ctl = Function.update s.ctl h c')
    (hfamily : Ring.Family next' prev' hd rings') (hknows : Knows hd s' prev' c')
    (hown : ∀ k, k ≠ h → ∀ n, (s.ctl k).owns = some n →
      s'.prev n = s.prev n ∧ prev' n = prev n ∧ s'.present n = s.present n)
    (hnext : ∀ k, k ≠ h → ∀ n, (s.ctl k).brings = some n → s'.next n = s.next n)
    (hcompat : ∀ k, k ≠ h → c'.Compatible (s.ctl k) ∧ (s.ctl k).Compatible c')
    (hplain : ∀ n, (∀ k, k ≠ h → (s.ctl k).owns ≠ some n) → c'.owns ≠ some n →
      s'.prev n = prev' n ∧ (s'.present n = true ↔ prev' n ≠ none))
    (hleads : ∀ x y, prev' y = some x → ∃ a, s'.next x = some a ∧ OwedPath s' x a y) :
    Follows hd s' next' prev' rings' where
  family := hfamily
  knows k := by
    rw [hctl]
    by_cases hk : k = h
    · rw [hk, Function.update_self]
      exact hknows
    · rw [Function.update_of_ne hk]
      exact (hs.knows k).congr (hown k hk) (hnext k hk)
  compatible j k hjk := by
    rw [hctl]
    by_cases hj : j = h
    · have hk : k ≠ h := fun e => hjk (hj.trans e.symm)
      rw [hj, Function.update_self, Function.update_of_ne hk]
      exact (hcompat k hk).1
    · rw [Function.update_of_ne hj]
      by_cases hk : k = h
      · rw [hk, Function.update_self]
        exact (hcompat j hj).2
      · rw [Function.update_of_ne hk]
        exact hs.compatible j k hjk
  plain n hn := by
    refine hplain n (fun k hk => ?_) ?_
    · have hnk := hn k
      rwa [hctl, Function.update_of_ne hk] at hnk
    · have hnh := hn h
      rwa [hctl, Function.update_self] at hnh
  leads := hleads

end Follows

/-- A step of another hart does not touch what is owed. -/
theorem OwedPath.mono [DecidableEq ι] (hctl : s'.ctl = Function.update s.ctl h c')
    (hno : ∀ a b, (s.ctl h).owes ≠ some (x, a, b)) (hp : OwedPath s x a b) : OwedPath s' x a b := by
  refine Relation.ReflTransGen.mono (fun a b hab => ?_) _ _ hp
  obtain ⟨k, hk⟩ := hab
  refine ⟨k, ?_⟩
  rw [hctl]
  by_cases hkh : k = h
  · exact absurd (hkh ▸ hk) (hno a b)
  · rw [Function.update_of_ne hkh]
    exact hk

/-- A path that goes by the store a hart makes can be taken from there. -/
theorem owedPath_cut [DecidableEq ι] (hc : s.ctl h = .unlinkStore n p m)
    (hctl : s'.ctl = Function.update s.ctl h c') (hpath : OwedPath s p a y) :
    OwedPath s' p a y ∨ OwedPath s' p m y := by
  refine Relation.ReflTransGen.head_induction_on hpath (Or.inl .refl) fun {a b} hab _ ih => ?_
  obtain ⟨k, hk⟩ := hab
  rcases ih with hby | hmy
  · by_cases hkh : k = h
    · rw [hkh, hc] at hk
      cases hk
      exact Or.inr hby
    · refine Or.inl (hby.head ⟨k, ?_⟩)
      rw [hctl, Function.update_of_ne hkh]
      exact hk
  · exact Or.inr hmy

namespace Follows

variable [DecidableEq ι] {loop : Bool}

/-- Where no hart is at work the lists are as they are meant. -/
theorem plain_of (hs : Follows hd s next prev rings)
    (hn : ∀ k, k ≠ h → (s.ctl k).owns ≠ some n) (hmine : (s.ctl h).owns ≠ some n) :
    s.prev n = prev n ∧ (s.present n = true ↔ prev n ≠ none) := by
  refine hs.plain n fun k => ?_
  by_cases hk : k = h
  · rw [hk]
    exact hmine
  · exact hn k hk

/-- A pointer that nobody owes leads to the node behind, over nodes that are being unlinked. -/
theorem leads_of (hs : Follows hd s next prev rings) (hctl : s'.ctl = Function.update s.ctl h c')
    (hno : ∀ a b, (s.ctl h).owes ≠ some (x, a, b)) (hnext : s'.next x = s.next x)
    (hxy : prev y = some x) :
    ∃ a, s'.next x = some a ∧ OwedPath s' x a y := by
  obtain ⟨a, ha, hp⟩ := hs.leads x y hxy
  exact ⟨a, hnext.trans ha, hp.mono hctl hno⟩

/-- A hart that goes on without a write, or gives up a node it has not brought into a list. -/
theorem silent (hs : Follows hd s next prev rings) (hknows : Knows hd s prev c')
    (howns : ∀ n, c'.owns = some n → (s.ctl h).owns = some n)
    (hbrings : ∀ n, c'.brings = some n → (s.ctl h).brings = some n)
    (hdrop : ∀ n, (s.ctl h).owns = some n → c'.owns = some n ∨ (s.ctl h).brings = some n)
    (howes : (s.ctl h).owes = none) (howes' : c'.owes = none) :
    Follows hd (s.moved h c') next prev rings := by
  refine hs.of_hart rfl hs.family (hknows.congr (fun _ _ => ⟨rfl, rfl, rfl⟩) fun _ _ => rfl)
    (fun _ _ _ _ => ⟨rfl, rfl, rfl⟩) (fun _ _ _ _ => rfl)
    (fun k hk => NodeCtl.Compatible.mono (hs.compat hk) howns hbrings howes') (fun n hn hn' => ?_)
    fun x y hxy => hs.leads_of rfl (by rw [howes]; exact nofun) rfl hxy
  show s.prev n = prev n ∧ (s.present n = true ↔ prev n ≠ none)
  by_cases hmine : (s.ctl h).owns = some n
  · have hb := (hdrop n hmine).resolve_left hn'
    obtain ⟨h1, h2⟩ := (hs.knows h).of_brings hb
    rw [(hs.knows h).prev_eq_none hmine, h1, h2]
    simp
  · exact hs.plain_of hn hmine

/-- A hart that goes on without a write, with the same node to itself. -/
theorem pass (hs : Follows hd s next prev rings) (hc : s.ctl h = c) (hknows : Knows hd s prev c')
    (howns : c'.owns = c.owns) (hbrings : c'.brings = c.brings) (howes : c.owes = none)
    (howes' : c'.owes = none) : Follows hd (s.moved h c') next prev rings := by
  subst hc
  refine hs.silent hknows (fun n hn => ?_) (fun n hn => ?_) (fun n hn => ?_) howes howes'
  · rw [← howns, hn]
  · rw [← hbrings, hn]
  · exact Or.inl (howns.trans hn)

/-- The compare and set of `cap_node_delete2` on the node itself. -/
theorem claim (hs : Follows hd s next prev rings) (hc : s.ctl h = .deleteCas n p loop)
    (hp : s.prev n = some p) :
    Follows hd ((s.setPrev n none).moved h (.unlinkLoad n p)) next prev rings := by
  have hlive : s.prev n ≠ none := by
    rw [hp]
    exact Option.some_ne_none p
  have hplain := hs.plain n (hs.not_owned hlive)
  have hpresent : s.present n = true := by
    rw [hplain.2, ← hplain.1]
    exact hlive
  have hknows := hs.knows h
  rw [hc] at hknows
  have hne : ∀ k n', (s.ctl k).owns = some n' → n' ≠ n := fun k n' => hs.owns_ne_of_live hlive
  refine hs.of_hart rfl hs.family ⟨hknows, by simp, hs.prev_eq hp, hpresent⟩
    (fun k _ n' ho => ⟨by simp [hne k n' ho], rfl, rfl⟩) (fun _ _ _ _ => by simp)
    (fun k _ => NodeCtl.Compatible.of_owns (fun n' ho => ?_) (fun _ _ _ _ => nofun) rfl)
    (fun n' hn' hn => ?_) fun x y hxy => hs.leads_of rfl ?_ (by simp) hxy
  · obtain rfl : n = n' := Option.some.inj ho
    exact hs.not_owned hlive k
  · have hnn : n' ≠ n := fun e => hn (e ▸ rfl)
    have hplain' := hs.plain_of hn' (by rw [hc]; exact nofun)
    simpa [hnn] using hplain'
  · rw [hc]
    exact nofun

/-- The first access of an insertion, of a node that is in nobody's hands. -/
theorem bring (hs : Follows hd s next prev rings) (hc : s.ctl h = .insertAssert n p)
    (hn : s.prev n = none) (hfree : ∀ k, (s.ctl k).owns ≠ some n)
    (hstore : ∀ k n' m, s.ctl k ≠ .unlinkStore n' n m) :
    Follows hd (s.moved h (.insertLoad n p)) next prev rings := by
  obtain ⟨hprev, hpresent⟩ := hs.plain n hfree
  have hnone : prev n = none := hprev.symm.trans hn
  have habsent : s.present n = false := by
    rw [← Bool.not_eq_true, hpresent, hnone]
    simp
  refine hs.of_hart rfl hs.family ⟨hn, hnone, habsent⟩ (fun _ _ _ _ => ⟨rfl, rfl, rfl⟩)
    (fun _ _ _ _ => rfl)
    (fun k _ => NodeCtl.Compatible.of_owns (fun n' ho => ?_) (fun n' p' m hk hb => ?_) rfl)
    (fun n' hn' _ => ?_) fun x y hxy => hs.leads_of rfl ?_ rfl hxy
  · obtain rfl : n = n' := Option.some.inj ho
    exact hfree k
  · obtain rfl : n = p' := Option.some.inj hb
    exact hstore k n' m hk
  · exact hs.plain_of hn' (by rw [hc]; exact nofun)
  · rw [hc]
    exact nofun

/-- The store of `node->next` in an insertion. -/
theorem write {o : Option NodeRef} (hs : Follows hd s next prev rings)
    (hc : s.ctl h = .insertNext n p o) :
    Follows hd ((s.setNext n o).moved h (o.elim .stopped (.insertCas n p))) next prev rings := by
  have hknows := hs.knows h
  rw [hc] at hknows
  obtain ⟨hn, hnone, habsent⟩ := hknows
  have hbrings : (s.ctl h).brings = some n := by
    rw [hc]
    rfl
  have hne : ∀ k, k ≠ h → ∀ n', (s.ctl k).owns = some n' → n' ≠ n := fun k hk n' =>
    hs.owns_ne hk (NodeCtl.owns_of_brings hbrings)
  have hfam : ∀ x y, prev y = some x → x ≠ n := by
    rintro x y hxy rfl
    exact hs.prev_ne_none hxy hnone
  refine hs.of_hart rfl hs.family ?_ (fun _ _ _ _ => by simp)
    (fun k hk n' hb => by simp [hne k hk n' (NodeCtl.owns_of_brings hb)])
    (fun k hk => NodeCtl.Compatible.mono (hs.compat hk) ?_ ?_ ?_) (fun n' hn' hmine => ?_)
    fun x y hxy => hs.leads_of rfl ?_ (by simp [hfam x y hxy]) hxy
  · cases o with
    | none => trivial
    | some m => exact ⟨by simpa using hn, hnone, habsent, by simp⟩
  · intro n' ho
    rw [hc]
    cases o <;> first | exact ho | cases ho
  · intro n' ho
    rw [hc]
    cases o <;> first | exact ho | cases ho
  · cases o <;> rfl
  · by_cases hnn : n' = n
    · subst hnn
      simp [hn, hnone, habsent]
    · have hplain := hs.plain_of hn' (by rw [hc]; exact fun e => hnn (Option.some.inj e).symm)
      simpa using hplain
  · rw [hc]
    exact nofun

/-- The store of `prev->next` in an insertion. -/
theorem link (hs : Follows hd s next prev rings) (hc : s.ctl h = .insertStore n p m) :
    Follows hd ((s.setNext p (some n)).moved h (.insertPublish n p)) next prev rings := by
  have hknows := hs.knows h
  rw [hc] at hknows
  obtain ⟨hn, hp, habsent⟩ := hknows
  refine hs.of_hart rfl hs.family ⟨by simpa using hn, hp, habsent⟩ (fun _ _ _ _ => by simp)
    (fun k hk n' hb => ?_)
    (fun k hk => NodeCtl.Compatible.mono (hs.compat hk) (fun n' ho => ?_) (fun _ => nofun) rfl)
    (fun n' hn' hmine => ?_) fun x y hxy => ?_
  · have hne : n' ≠ p := by
      rintro rfl
      exact hs.prev_ne_none hp ((hs.knows k).of_brings hb).1
    simp [hne]
  · rw [hc]
    exact ho
  · have hplain := hs.plain_of hn' (by rw [hc]; exact hmine)
    simpa using hplain
  · by_cases hx : x = p
    · subst hx
      obtain rfl : n = y := hs.unique hp hxy
      exact ⟨n, by simp, .refl⟩
    · refine hs.leads_of rfl (fun a b ho => ?_) (by simp [hx]) hxy
      rw [hc] at ho
      cases ho
      exact hx rfl

/-- The last store of an insertion. -/
theorem publish (hs : Follows hd s next prev rings) (hc : s.ctl h = .insertPublish n p) :
    Follows hd (((s.setPrev n (some p)).setPresent n true).moved h .idle) next prev rings := by
  have hknows := hs.knows h
  rw [hc] at hknows
  obtain ⟨hn, hp, habsent⟩ := hknows
  have hne : ∀ k, k ≠ h → ∀ n', (s.ctl k).owns = some n' → n' ≠ n := fun k hk n' =>
    hs.owns_ne hk (by rw [hc]; rfl)
  refine hs.of_hart rfl hs.family trivial (fun k hk n' ho => by simp [hne k hk n' ho])
    (fun _ _ _ _ => by simp)
    (fun k hk => NodeCtl.Compatible.of_owns (fun _ => nofun) (fun _ _ _ _ => nofun) rfl)
    (fun n' hn' _ => ?_) fun x y hxy => hs.leads_of rfl ?_ (by simp) hxy
  · by_cases hnn : n' = n
    · subst hnn
      simp [hp]
    · have hplain := hs.plain_of hn' (by rw [hc]; exact fun e => hnn (Option.some.inj e).symm)
      simpa [hnn] using hplain
  · rw [hc]
    exact nofun

/-- The compare and set of `cap_node_delete2` on the node behind: the lists lose the node. -/
theorem unlink [DecidableEq κ] (hs : Follows hd s next prev rings)
    (hc : s.ctl h = .unlinkCas n p m) (hm : s.prev m = some n) :
    ∃ next' prev' rings', Follows hd ((s.setPrev m (some p)).moved h (.unlinkStore n p m))
      next' prev' rings' := by
  have hknows := hs.knows h
  rw [hc] at hknows
  obtain ⟨hhead, hn, hp, hpresent⟩ := hknows
  have hlive : s.prev m ≠ none := by
    rw [hm]
    exact Option.some_ne_none n
  have hmn : m ≠ n := fun e => hlive (e ▸ hn)
  obtain ⟨k₀, hk₀⟩ := hs.family.exists_ring (p := n) (by rw [hp]; exact Option.some_ne_none p)
  have hfamily := hs.family.erase hk₀ (hhead k₀) hp (hs.linked (hs.prev_eq hm)).1 rfl rfl
  have hne : ∀ k, k ≠ h → ∀ n', (s.ctl k).owns = some n' → n' ≠ n := fun k hk n' =>
    hs.owns_ne hk (by rw [hc]; rfl)
  have hnm : ∀ k n', (s.ctl k).owns = some n' → n' ≠ m := fun k n' => hs.owns_ne_of_live hlive
  have hno : ∀ x a b, (s.ctl h).owes ≠ some (x, a, b) := by
    rw [hc]
    exact nofun
  refine ⟨_, _, _, hs.of_hart rfl hfamily ⟨?_, ?_, hpresent⟩ (fun k hk n' ho => ?_)
    (fun _ _ _ _ => by simp) (fun k hk => ⟨⟨fun n' ho => ?_, ?_, fun _ _ _ _ _ => nofun⟩,
      ⟨fun n' ho => ?_, fun _ _ _ _ => nofun, ?_⟩⟩) (fun n' hn' hmine => ?_) fun x y hxy => ?_⟩
  · simpa [hmn.symm] using hn
  · simp [hmn.symm]
  · simp [hne k hk n' ho, hnm k n' ho]
  · exact (hs.compat hk).1.owns n' (by rw [hc]; exact ho)
  · rintro n' p' m' ⟨⟩ hb
    exact hs.prev_ne_none hp ((hs.knows k).of_brings hb).1
  · exact fun e => hne k hk n' ho (Option.some.inj e).symm
  · -- Two nodes behind `p` would be one, and it has one owner.
    rintro z p' a n' m' hk' ⟨⟩
    have hz := hs.knows k
    rw [hk'] at hz
    have hzn : z = n := hs.unique hz.2.1 hp
    exact absurd hzn (hne k hk z (by rw [hk']; rfl))
  · have hnn : n' ≠ n := fun e => hmine (e ▸ rfl)
    have hplain := hs.plain_of hn' (by rw [hc]; exact hmine)
    by_cases hnm' : n' = m
    · subst hnm'
      rw [hs.prev_eq hm] at hplain
      simpa using hplain.2
    · simpa [hnn, hnm'] using hplain
  · by_cases hy : y = m
    · subst hy
      rw [Function.update_self] at hxy
      obtain rfl : p = x := Option.some.inj hxy
      obtain ⟨a, ha, hpath⟩ := hs.leads p n hp
      refine ⟨a, by simpa using ha, (hpath.mono rfl (hno p)).tail ⟨h, ?_⟩⟩
      rw [ListState.ctl_moved, Function.update_self]
      rfl
    · have hyn : y ≠ n := by
        rintro rfl
        simp [hy] at hxy
      rw [Function.update_of_ne hy, Function.update_of_ne hyn] at hxy
      exact hs.leads_of rfl (hno x) (by simp) hxy

/-- The compare and set of `cap_node_insert`: the lists gain the node. -/
theorem splice [DecidableEq κ] (hs : Follows hd s next prev rings)
    (hc : s.ctl h = .insertCas n p m) (hm : s.prev m = some p) :
    ∃ next' prev' rings', Follows hd ((s.setPrev m (some n)).moved h (.insertStore n p m))
      next' prev' rings' := by
  have hknows := hs.knows h
  rw [hc] at hknows
  obtain ⟨hn, hnone, habsent, hnext⟩ := hknows
  have hlive : s.prev m ≠ none := by
    rw [hm]
    exact Option.some_ne_none p
  have hmn : m ≠ n := fun e => hlive (e ▸ hn)
  have hpm := hs.prev_eq hm
  have hpn : p ≠ n := fun e => hs.prev_ne_none hpm (e ▸ hnone)
  obtain ⟨k₀, hk₀⟩ := hs.family.exists_ring (hs.prev_ne_none hpm)
  have hfamily := hs.family.insertAfter hk₀ hnone (hs.linked hpm).1 rfl rfl
  -- no other hart owns the node, nor anyone the live neighbour
  have hne : ∀ k, k ≠ h → ∀ n', (s.ctl k).owns = some n' → n' ≠ n := fun k hk n' =>
    hs.owns_ne hk (by rw [hc]; rfl)
  have hnm : ∀ k n', (s.ctl k).owns = some n' → n' ≠ m := fun k n' => hs.owns_ne_of_live hlive
  have hno : ∀ x a b, (s.ctl h).owes ≠ some (x, a, b) := by
    rw [hc]
    exact nofun
  refine ⟨_, _, _, hs.of_hart rfl hfamily ⟨?_, ?_, habsent⟩ (fun k hk n' ho => ?_)
    (fun _ _ _ _ => by simp) (fun k hk => ⟨⟨fun n' ho => ?_, fun _ _ _ => nofun, ?_⟩,
      ⟨fun n' ho => ?_, fun _ _ _ _ => nofun, fun _ _ _ _ _ _ => nofun⟩⟩)
    (fun n' hn' hmine => ?_) fun x y hxy => ?_⟩
  · simpa [hmn.symm] using hn
  · simp
  · simp [hne k hk n' ho, hnm k n' ho]
  · exact (hs.compat hk).1.owns n' (by rw [hc]; exact ho)
  · rintro z p' a n' m' ⟨⟩ hk'
    exact hnm k n' (by rw [hk']; rfl)
  · exact fun e => hne k hk n' ho (Option.some.inj e).symm
  · have hnn : n' ≠ n := fun e => hmine (e ▸ rfl)
    have hplain := hs.plain_of hn' (by rw [hc]; exact hmine)
    by_cases hnm' : n' = m
    · subst hnm'
      rw [hpm] at hplain
      simpa [hnn] using hplain.2
    · simpa [hnn, hnm'] using hplain
  · by_cases hy : y = n
    · subst hy
      rw [Function.update_self] at hxy
      obtain rfl : p = x := Option.some.inj hxy
      -- `p` still points past the node, by the store this hart now owes
      obtain ⟨a, ha, hpath⟩ := hs.leads p m hpm
      refine ⟨a, by simpa using ha, (hpath.mono rfl (hno p)).tail ⟨h, ?_⟩⟩
      rw [ListState.ctl_moved, Function.update_self]
      rfl
    · rw [Function.update_of_ne hy] at hxy
      by_cases hym : y = m
      · subst hym
        rw [Function.update_self] at hxy
        obtain rfl : n = x := Option.some.inj hxy
        exact ⟨y, by simpa using hnext, .refl⟩
      · rw [Function.update_of_ne hym] at hxy
        exact hs.leads_of rfl (hno x) (by simp) hxy

/-- The last store of a deletion, where it replaces the node that was deleted. -/
theorem settle (hs : Follows hd s next prev rings) (hc : s.ctl h = .unlinkStore n p m)
    (hn : s.next p = some n) :
    Follows hd (((s.setNext p (some m)).setPresent n false).moved h .idle) next prev rings := by
  have hknows := hs.knows h
  rw [hc] at hknows
  obtain ⟨hdead, hnone, hpresent⟩ := hknows
  have hne : ∀ k, k ≠ h → ∀ n', (s.ctl k).owns = some n' → n' ≠ n := fun k hk n' =>
    hs.owns_ne hk (by rw [hc]; rfl)
  refine hs.of_hart rfl hs.family trivial (fun k hk n' ho => by simp [hne k hk n' ho])
    (fun k hk n' hb => ?_)
    (fun k hk => NodeCtl.Compatible.of_owns (fun _ => nofun) (fun _ _ _ _ => nofun) rfl)
    (fun n' hn' _ => ?_) fun x y hxy => ?_
  · have hnp : n' ≠ p := fun e => (hs.compat hk).1.brings n p m hc (e ▸ hb)
    simp [hnp]
  · by_cases hnn : n' = n
    · subst hnn
      simp [hdead, hnone]
    · have hplain := hs.plain_of hn' (by rw [hc]; exact fun e => hnn (Option.some.inj e).symm)
      simpa [hnn] using hplain
  · by_cases hx : x = p
    · subst hx
      obtain ⟨a, ha, hpath⟩ := hs.leads x y hxy
      obtain rfl : a = n := Option.some.inj (ha.symm.trans hn)
      refine ⟨m, by simp, ?_⟩
      have hctl : (((s.setNext x (some m)).setPresent a false).moved h .idle).ctl =
          Function.update s.ctl h .idle := rfl
      rcases owedPath_cut hc hctl hpath with hcut | hcut
      · -- Nobody else owes `x` a store from the deleted node.
        rcases Relation.ReflTransGen.cases_head hcut with rfl | ⟨b, ⟨k, hk⟩, -⟩
        · rw [hnone] at hxy
          cases hxy
        · rw [ListState.ctl_moved] at hk
          by_cases hkh : k = h
          · rw [hkh, Function.update_self] at hk
            cases hk
          · rw [Function.update_of_ne hkh, ListState.ctl_setPresent, ListState.ctl_setNext] at hk
            generalize hck : s.ctl k = d at hk
            rcases NodeCtl.owes_cases hk with rfl | rfl
            · exact absurd rfl (hne k hkh a (by rw [hck]; rfl))
            · exact absurd rfl ((hs.compat hkh).2.from_ne _ _ _ _ _ hck hc)
      · exact hcut
    · refine hs.leads_of rfl (fun a b ho => ?_) (by simp [hx]) hxy
      rw [hc] at ho
      cases ho
      exact hx rfl

end Follows

end

end SepKernel
