import SepKernel.Descent
import SepKernel.Ownership

/-!
# The derivation forest on holdings

The holdings and the history together: who holds what, and which of it was derived from which. An
operation keeps that descendants stand in the relation `Below` to their ancestors and that
what is unrelated refers to different resources.
-/

namespace SepKernel

open Capability (CanDerive Below)
open Lineage (DerivedFrom ChildOf ident)

variable {cfg : Config} {s t : Kernel} {st st' : System} {l : Label} {op : CapOp} {H : Holdings}
  {es : List CapEvent} {src dst a x n : NodeRef} {c : Capability}

/-- The event an operation adds to the history. -/
def CapOp.onHistory (es : List CapEvent) : CapOp → List CapEvent
  | .derive pid i j _ => .derived (.slot pid i) (.slot pid j) :: es
  | .move pid i j => .moved (.slot pid i) (.slot pid j) :: es
  | .transfer srcPid i destPid j => .moved (.slot srcPid i) (.slot destPid j) :: es
  | .skip => es
  | .delete _ _ => es
  | .wipe _ _ => es

/-- The history gets what the operation adds to it. -/
theorem CapStep.history (h : CapStep cfg s op t) : t.history = op.onHistory s.history := by
  cases h with
  | derive => simp [Kernel.deriveNode, CapOp.onHistory, Kernel.record, Kernel.setCap, Kernel.setNode]
  | transfer => simp [Kernel.handOver, CapOp.onHistory]
  | _ => rfl

theorem step_history (hg : st.Good cfg) (hs : Step cfg st l st') :
    st'.kernel.history = (stepOp cfg st l).onHistory st.kernel.history := by
  obtain ⟨s', t', h1, h2, h3⟩ := step_caps hg hs
  rw [h3.history, h2.history, h1.history]

/-! ## No object is in two places -/

/-- Different live places hold different objects. -/
def Distinct (H : Holdings) (es : List CapEvent) : Prop := Set.InjOn (ident es) {n | H n ≠ .other}

/-- A derived capability is a new object in a free slot. -/
theorem Distinct.derive (h : Distinct H es) (hs : H src ≠ .other) :
    Distinct (Function.update (Function.update H src ((H src).afterDerive c)) dst c)
      (.derived src dst :: es) := by
  refine Lineage.injOn_derived h fun n hn => ?_
  by_cases hnd : n = dst
  · exact Or.inl hnd
  · exact Or.inr (derived_of_ne_other hs hnd hn)

/-- A moved one is in one slot only. -/
theorem Distinct.handed (h : Distinct H es) (hs : H src ≠ .other) :
    Distinct (CapOp.handed H src dst) (.moved src dst :: es) := by
  refine Lineage.injOn_moved h hs fun n hn => ?_
  obtain ⟨hns, he⟩ := handed_of_ne_other hn
  by_cases hnd : n = dst
  · exact Or.inl hnd
  · exact Or.inr ⟨hns, fun ho => hn (by rw [he, if_neg hnd, ho])⟩

theorem Distinct.mono {H' : Holdings} (h : Distinct H es) (hH : ∀ n, H' n ≠ .other → H' n = H n) :
    Distinct H' es := Set.InjOn.mono (fun n hn => (hH n hn ▸ hn : H n ≠ .other)) h

/-- No operation puts an object into two slots. -/
theorem CapOp.Enabled.distinct (he : op.Enabled H) (h : Distinct H es) :
    Distinct (op.onHeld H) (op.onHistory es) := by
  cases op with
  | skip => exact h
  | wipe => exact h
  | derive pid i j c => exact h.derive he.1.ne_other
  | move pid i j => exact h.handed he.1
  | transfer srcPid i destPid j => exact h.handed he.1
  | delete pid i =>
    exact h.mono fun n hn => dropped_of_ne_other hn

/-! ## The invariant -/

/-- Descendants are below what they were derived from, and all others have nothing in common with
    it. -/
structure Forest (H : Holdings) (es : List CapEvent) : Prop where
  inj : Distinct H es
  below : ∀ a x, H a ≠ .other → H x ≠ .other → DerivedFrom es a x →
    Below (ChildOf es a x) (H a) (H x)
  apart : ∀ a x, H a ≠ .other → H x ≠ .other → a ≠ x → ¬ DerivedFrom es a x →
    ¬ DerivedFrom es x a → Disjoint (H a).extent (H x).mark

namespace Forest

/-- What the new place descends from, among what is held. -/
theorem derivedFrom_dst_iff (hf : Forest H es) (hs : H src ≠ .other) (ha : H a ≠ .other)
    (had : a ≠ dst) :
    DerivedFrom (.derived src dst :: es) a dst ↔ a = src ∨ DerivedFrom es a src := by
  rw [Lineage.derivedFrom_derived_dst had]
  exact or_congr_left ⟨fun h => hf.inj ha hs h, fun h => h ▸ rfl⟩

/-- A derivation adds a leaf, below its source and apart from its siblings. -/
theorem derive (hf : Forest H es) (hwf : (H src).WF) (hcan : CanDerive (H src) c)
    (hd : H dst = .other) :
    Forest (Function.update (Function.update H src ((H src).afterDerive c)) dst c)
      (.derived src dst :: es) := by
  have hs : H src ≠ .other := hcan.ne_other
  have hsd : src ≠ dst := fun e => hs (e ▸ hd)
  set H' := Function.update (Function.update H src ((H src).afterDerive c)) dst c with hH'
  have hdst : H' dst = c := by simp [hH']
  have hsrc : H' src = (H src).afterDerive c := by simp [hH', hsd]
  have hold : ∀ {n}, n ≠ src → n ≠ dst → H' n = H n := fun h h' => by simp [hH', h, h']
  have hheld : ∀ {n}, n ≠ dst → H' n ≠ .other → H n ≠ .other := derived_of_ne_other hs
  have hextent : ∀ {n}, n ≠ dst → (H' n).extent = (H n).extent := fun {n} h => by
    by_cases he : n = src
    · rw [he, hsrc, Capability.extent_afterDerive]
    · rw [hold he h]
  have hmark : ∀ {n}, n ≠ dst → (H' n).mark = (H n).mark := fun {n} h => by
    by_cases he : n = src
    · rw [he, hsrc, Capability.mark_afterDerive]
    · rw [hold he h]
  refine ⟨hf.inj.derive hs, fun a x ha hx hD => ?_, fun a x ha hx hne h1 h2 => ?_⟩
  · have had : a ≠ dst := by
      rintro rfl
      exact Lineage.not_derivedFrom_dst hD
    have ha' := hheld had ha
    by_cases hxd : x = dst
    · -- the new capability: its parent, or what the parent descends from
      subst hxd
      rw [hdst]
      rcases (hf.derivedFrom_dst_iff hs ha' had).mp hD with rfl | hDs
      · rw [hsrc]
        exact Or.inl ⟨hcan.isChild hwf.ordered, Or.inl ((Lineage.childOf_derived_dst had).mpr rfl)⟩
      · have has : a ≠ src := by
          rintro rfl
          exact Lineage.DerivedFrom.irrefl hDs
        rw [hold has had]
        have hno : ¬ ChildOf (.derived src x :: es) a x := fun h =>
          has (hf.inj ha' hs ((Lineage.childOf_derived_dst had).mp h))
        rw [eq_false hno]
        exact (hf.below a src ha' hs hDs).trans_derive hcan hwf
    · have hx' := hheld hxd hx
      rw [Lineage.derivedFrom_derived had hxd] at hD
      have hb := hf.below a x ha' hx' hD
      have hchild : ChildOf (.derived src dst :: es) a x ↔ ChildOf es a x :=
        Lineage.childOf_derived had hxd
      rw [← propext hchild] at hb
      by_cases has : a = src
      · subst has
        have hxs : x ≠ a := by
          rintro rfl
          exact Lineage.DerivedFrom.irrefl hD
        rw [hsrc, hold hxs hxd]
        exact hb.derive_again hcan
      · rw [hold has had]
        by_cases hxs : x = src
        · subst hxs
          rw [hsrc]
          exact hb.of_derive hcan
        · rwa [hold hxs hxd]
  · by_cases had : a = dst
    · subst had
      have hx' := hheld hne.symm hx
      have hnot := mt (hf.derivedFrom_dst_iff hs hx' hne.symm).mpr h2
      obtain ⟨hxs, hDx⟩ := not_or.mp hnot
      rw [hdst, hold hxs hne.symm]
      by_cases hDs : DerivedFrom es src x
      · exact ((hf.below src x hs hx' hDs).siblings_disjoint hcan).2
      · exact (hf.apart src x hs hx' (Ne.symm hxs) hDs hDx).mono_left (hcan.extent_subset hwf)
    have ha' := hheld had ha
    by_cases hxd : x = dst
    · subst hxd
      have hnot := mt (hf.derivedFrom_dst_iff hs ha' had).mpr h1
      obtain ⟨has, hDa⟩ := not_or.mp hnot
      rw [hdst, hold has had]
      by_cases hDs : DerivedFrom es src a
      · exact ((hf.below src a hs ha' hDs).siblings_disjoint hcan).1
      · exact (hf.apart a src ha' hs has hDa hDs).mono_right (hcan.mark_subset hwf)
    · rw [Lineage.derivedFrom_derived had hxd] at h1
      rw [Lineage.derivedFrom_derived hxd had] at h2
      rw [hextent had, hmark hxd]
      exact hf.apart a x ha' (hheld hxd hx) hne h1 h2

/-- A move keeps the forest and renames a node. -/
theorem handed (hf : Forest H es) (hs : H src ≠ .other) (hd : H dst = .other) :
    Forest (CapOp.handed H src dst) (.moved src dst :: es) := by
  have hsd : src ≠ dst := fun e => hs (e ▸ hd)
  refine ⟨hf.inj.handed hs, fun a x ha hx hD => ?_, fun a x ha hx hne h1 h2 => ?_⟩
  · obtain ⟨-, hea⟩ := handed_of_ne_other ha
    obtain ⟨-, hex⟩ := handed_of_ne_other hx
    rw [hea] at ha ⊢
    rw [hex] at hx ⊢
    rw [Lineage.derivedFrom_moved] at hD
    rw [propext Lineage.childOf_moved]
    exact hf.below _ _ ha hx hD
  · obtain ⟨has, hea⟩ := handed_of_ne_other ha
    obtain ⟨hxs, hex⟩ := handed_of_ne_other hx
    rw [hea] at ha ⊢
    rw [hex] at hx ⊢
    rw [Lineage.derivedFrom_moved] at h1 h2
    refine hf.apart _ _ ha hx (fun he => hne ?_) h1 h2
    by_cases had : a = dst <;> by_cases hxd : x = dst
    · exact had.trans hxd.symm
    · rw [if_pos had, if_neg hxd] at he
      exact absurd he.symm hxs
    · rw [if_neg had, if_pos hxd] at he
      exact absurd he has
    · rwa [if_neg had, if_neg hxd] at he

/-- Holding less. -/
theorem mono {H' : Holdings} (hf : Forest H es) (h : ∀ n, H' n ≠ .other → H' n = H n) :
    Forest H' es := by
  have hheld : ∀ {n}, H' n ≠ .other → H n ≠ .other := fun {n} hn => h n hn ▸ hn
  refine ⟨hf.inj.mono h, fun a x ha hx hD => ?_,
    fun a x ha hx hne h1 h2 => ?_⟩
  · rw [h a ha, h x hx]
    exact hf.below a x (hheld ha) (hheld hx) hD
  · rw [h a ha, h x hx]
    exact hf.apart a x (hheld ha) (hheld hx) hne h1 h2

end Forest

/-- Every operation keeps the forest. -/
theorem CapOp.Enabled.forest (he : op.Enabled H) (hwf : ∀ n, H n ≠ .other → (H n).WF)
    (hf : Forest H es) : Forest (op.onHeld H) (op.onHistory es) := by
  cases op with
  | skip => exact hf
  | wipe => exact hf
  | derive pid i j c => exact hf.derive (hwf _ he.1.ne_other) he.1 he.2
  | move pid i j => exact hf.handed he.1 he.2
  | transfer srcPid i destPid j => exact hf.handed he.1 he.2
  | delete pid i =>
    exact hf.mono fun n hn => dropped_of_ne_other hn

/-! ## Frames right below the capability that derived them -/

/-- Whoever a frame descends from derived it itself. -/
def ShallowFrames (H : Holdings) (es : List CapEvent) : Prop :=
  ∀ a x, H a ≠ .other → (H x).IsFrame → DerivedFrom es a x → ChildOf es a x

/-- The operation derives no frame from a capability that has a live ancestor itself. -/
def CapOp.Shallow (H : Holdings) (es : List CapEvent) : CapOp → Prop
  | .derive pid i _ c => c.view.IsFrame → ∀ a, H a ≠ .other → ¬ DerivedFrom es a (.slot pid i)
  | _ => True

theorem ne_other_of_isFrame (h : c.IsFrame) : c ≠ .other := by
  rintro rfl
  exact h

/-- A frame derived from a root is shallow. -/
theorem ShallowFrames.derive (hsh : ShallowFrames H es) (hf : Forest H es)
    (hcan : CanDerive (H src) c) (hd : H dst = .other)
    (hop : c.IsFrame → ∀ a, H a ≠ .other → ¬ DerivedFrom es a src) :
    ShallowFrames (Function.update (Function.update H src ((H src).afterDerive c)) dst c)
      (.derived src dst :: es) := by
  have hs : H src ≠ .other := hcan.ne_other
  intro a x ha hx hD
  have had : a ≠ dst := by
    rintro rfl
    exact Lineage.not_derivedFrom_dst hD
  have ha' : H a ≠ .other := derived_of_ne_other hs had ha
  by_cases hxd : x = dst
  · rw [hxd, Function.update_self] at hx
    rw [hxd, hf.derivedFrom_dst_iff hs ha' had] at hD
    rw [hxd, Lineage.childOf_derived_dst had, hD.resolve_right (hop hx a ha')]
  · rw [Function.update_of_ne hxd] at hx
    have hxs : x ≠ src := by
      rintro rfl
      rw [Function.update_self] at hx
      exact hcan.not_isFrame_after hx
    rw [Function.update_of_ne hxs] at hx
    rw [Lineage.derivedFrom_derived had hxd] at hD
    rw [Lineage.childOf_derived had hxd]
    exact hsh a x ha' hx hD

/-- Moving a frame does not make it deep. -/
theorem ShallowFrames.handed (hsh : ShallowFrames H es) :
    ShallowFrames (CapOp.handed H src dst) (.moved src dst :: es) := by
  intro a x ha hx hD
  rw [(handed_of_ne_other (ne_other_of_isFrame hx)).2] at hx
  rw [(handed_of_ne_other ha).2] at ha
  rw [Lineage.derivedFrom_moved] at hD
  rw [Lineage.childOf_moved]
  exact hsh _ _ ha hx hD

/-- No operation but the derivation of a deep frame makes one. -/
theorem CapOp.Enabled.shallowFrames (he : op.Enabled H) (hf : Forest H es)
    (hop : op.Shallow H es) (hsh : ShallowFrames H es) :
    ShallowFrames (op.onHeld H) (op.onHistory es) := by
  cases op with
  | skip => exact hsh
  | wipe => exact hsh
  | derive pid i j c => exact hsh.derive hf he.1 he.2 hop
  | move pid i j => exact hsh.handed
  | transfer srcPid i destPid j => exact hsh.handed
  | delete pid i =>
    intro a x ha hx hD
    rw [CapOp.onHeld, dropped_of_ne_other (ne_other_of_isFrame hx)] at hx
    rw [CapOp.onHeld, dropped_of_ne_other ha] at ha
    exact hsh a x ha hx hD

end SepKernel
