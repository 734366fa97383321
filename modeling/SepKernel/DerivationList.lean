import Mathlib.Data.List.TakeWhile
import SepKernel.Forest
import SepKernel.Lib.Listing

/-!
# The derivation lists

The four lists of nodes, without their sentinels, list the derivation forest: behind each node
stand its descendants, before anything else. Together with what the ranges tell, this makes the
run of nodes that `syscall_revoke_cap` would walk the descendants of the node it starts from, up
to the frames that `cap_is_child` does not recognise.
-/

namespace SepKernel

open Capability (CanDerive Below)
open Lineage (DerivedFrom ChildOf ident)
open Listing (Listed Leads)
open Transition (Reachable Steps)

variable {cfg : Config} {s t : Kernel} {st st' : System} {l : Label} {op : CapOp} {H : Holdings}
  {es : List CapEvent} {a x n : NodeRef} {k k' : Sentinel} {rings : Sentinel → List NodeRef}

/-! ## The operations on lists -/

/-- The nodes of each list, in order. -/
abbrev Tails := Sentinel → List NodeRef

namespace CapOp

/-- `dst` instead of `src`. -/
def rename (src dst n : NodeRef) : NodeRef := if n = src then dst else n

/-- A new capability goes behind the one that it is derived from, a moved one takes the place of the
    old, and a deleted one leaves a gap that closes. -/
def onTails (tails : Tails) : CapOp → Tails
  | .derive pid i j _ => fun k => Ring.insertAfter (.slot pid i) (.slot pid j) (tails k)
  | .move pid i j => fun k => (tails k).map (rename (.slot pid i) (.slot pid j))
  | .transfer srcPid i destPid j => fun k =>
      (tails k).map (rename (.slot srcPid i) (.slot destPid j))
  | .delete pid i => fun k => (tails k).erase (.slot pid i)
  | .skip => tails
  | .wipe _ _ => tails

end CapOp

/-- Right behind each node its descendants, and no descendant on another list. -/
structure Ordered (es : List CapEvent) (tails : Tails) : Prop where
  listed : ∀ k, Listed (DerivedFrom es) (tails k)
  together : ∀ k k' a x, a ∈ tails k → x ∈ tails k' → DerivedFrom es a x → k = k'

/-- The lists hold what is held, each node once. -/
structure Filed (H : Holdings) (tails : Tails) : Prop where
  nodup : ∀ k, (tails k).Nodup
  disjoint : ∀ k k' n, n ∈ tails k → n ∈ tails k' → k = k'
  held : ∀ n, H n ≠ .other ↔ ∃ k, n ∈ tails k

variable {tails : Tails} {src dst : NodeRef}

/-- The new node stands right behind its parent, in front of the other descendants. -/
theorem Ordered.derive (ho : Ordered es tails) (hfiled : Filed H tails) (hf : Forest H es)
    (hs : H src ≠ .other) (hd : H dst = .other) :
    Ordered (.derived src dst :: es) fun k => Ring.insertAfter src dst (tails k) := by
  have hdst : ∀ k, dst ∉ tails k := fun k hm => (hfiled.held dst).mpr ⟨k, hm⟩ hd
  have hne : ∀ {k n}, n ∈ tails k → n ≠ dst := fun hm e => hdst _ (e ▸ hm)
  have hheld : ∀ {k n}, n ∈ tails k → H n ≠ .other := fun hm => (hfiled.held _).mpr ⟨_, hm⟩
  have hsd : src ≠ dst := fun e => hs (e ▸ hd)
  -- among the nodes there were, nothing has changed
  have hold : ∀ {k k' a x}, a ∈ tails k → x ∈ tails k' →
      (DerivedFrom es a x ↔ DerivedFrom (.derived src dst :: es) a x) := fun ha hx =>
    (Lineage.derivedFrom_derived (hne ha) (hne hx)).symm
  have hnew : ∀ {k a}, a ∈ tails k → (DerivedFrom (.derived src dst :: es) a dst ↔
      a = src ∨ DerivedFrom es a src) := fun ha =>
    hf.derivedFrom_dst_iff hs (hheld ha) (hne ha)
  refine ⟨fun k => ?_, fun k k' a x ha hx hD => ?_⟩
  · refine ((ho.listed k).congr fun a ha x hx => hold ha hx).insertAfter (hfiled.nodup k) (hdst k)
      (fun a ha => ?_) fun x => Lineage.not_derivedFrom_dst
    rw [hnew ha, Lineage.derivedFrom_derived (hne ha) hsd]
  · have ha' : a ∈ tails k := (Listing.mem_of_mem_insertAfter ha).resolve_left fun e =>
      Lineage.not_derivedFrom_dst (e ▸ hD)
    rcases Listing.mem_of_mem_insertAfter hx with rfl | hx'
    · -- the new node is on its parent's list
      have hsk' : src ∈ tails k' := by
        by_contra hsk
        exact hdst k' (by rwa [Ring.insertAfter_of_notMem hsk] at hx)
      rcases (hnew ha').mp hD with rfl | hDs
      · exact hfiled.disjoint k k' a ha' hsk'
      · exact ho.together k k' a src ha' hsk' hDs
    · exact ho.together k k' a x ha' hx' ((hold ha' hx').mpr hD)

/-- A moved node takes its place, with its descendants behind it. -/
theorem Ordered.rename (ho : Ordered es tails) (hdst : ∀ k, dst ∉ tails k) :
    Ordered (.moved src dst :: es) fun k => (tails k).map (CapOp.rename src dst) := by
  have hback : ∀ {k n}, n ∈ tails k →
      (if CapOp.rename src dst n = dst then src else CapOp.rename src dst n) = n := by
    intro k n hn
    have hnd : n ≠ dst := fun e => hdst k (e ▸ hn)
    by_cases hns : n = src
    · simp [CapOp.rename, hns]
    · simp [CapOp.rename, hns, hnd]
  have hiff : ∀ {k k' a x}, a ∈ tails k → x ∈ tails k' → (DerivedFrom es a x ↔
      DerivedFrom (.moved src dst :: es) (CapOp.rename src dst a) (CapOp.rename src dst x)) := by
    intro k k' a x ha hx
    rw [Lineage.derivedFrom_moved, hback ha, hback hx]
  refine ⟨fun k => (ho.listed k).map fun a ha x hx => hiff ha hx, fun k k' a x ha hx hD => ?_⟩
  obtain ⟨b, hb, rfl⟩ := List.mem_map.mp ha
  obtain ⟨y, hy, rfl⟩ := List.mem_map.mp hx
  exact ho.together k k' b y hb hy ((hiff hb hy).mpr hD)

/-- Deletion keeps the order of the rest. -/
theorem Ordered.erase (ho : Ordered es tails) (n : NodeRef) :
    Ordered es fun k => (tails k).erase n :=
  ⟨fun k => (ho.listed k).sublist List.erase_sublist, fun k k' a x ha hx =>
    ho.together k k' a x (List.mem_of_mem_erase ha) (List.mem_of_mem_erase hx)⟩

/-- Every operation keeps the lists in order. -/
theorem CapOp.Enabled.ordered (he : op.Enabled H) (hfiled : Filed H tails) (hf : Forest H es)
    (ho : Ordered es tails) : Ordered (op.onHistory es) (op.onTails tails) := by
  have hdst : ∀ {dst}, H dst = .other → ∀ k, dst ∉ tails k := fun hd k hm =>
    (hfiled.held _).mpr ⟨k, hm⟩ hd
  cases op with
  | skip => exact ho
  | wipe => exact ho
  | derive pid i j c => exact ho.derive hfiled hf he.1.ne_other he.2
  | move pid i j => exact ho.rename (hdst he.2)
  | transfer srcPid i destPid j => exact ho.rename (hdst he.2)
  | delete pid i => exact ho.erase _

/-! ## The lists of the kernel -/

/-- The lists without their sentinels. -/
def tailsOf (rings : Sentinel → List NodeRef) : Tails := fun k => (rings k).tail

namespace Kernel.Lists

theorem cons_tail (h : s.Lists rings) (k : Sentinel) : rings k = .sentinel k :: tailsOf rings k := by
  have hhead := h.head k
  cases hr : rings k with
  | nil => rw [hr] at hhead; cases hhead
  | cons y r =>
    rw [hr] at hhead
    rw [tailsOf, hr, Option.some.inj hhead]
    rfl

theorem sentinel_notMem (h : s.Lists rings) (k k' : Sentinel) : .sentinel k' ∉ tailsOf rings k := by
  intro hm
  have hk : (.sentinel k' : NodeRef) ∈ rings k := List.mem_of_mem_tail hm
  obtain rfl := h.disjoint k k' _ hk (h.head_mem k')
  have hnd := (h.ring k).nodup
  rw [h.cons_tail k] at hnd
  exact (List.nodup_cons.mp hnd).1 hm

/-- The slots of a list are all but its head. -/
theorem mem_tail_iff {p i : Nat} (h : s.Lists rings) :
    .slot p i ∈ tailsOf rings k ↔ .slot p i ∈ rings k := by
  rw [h.cons_tail k]
  simp

/-- A list of nodes holds what is held. -/
theorem filed (h : s.Lists rings) (hg : s.Good cfg) : Filed s.held (tailsOf rings) where
  nodup k := (h.ring k).nodup.tail
  disjoint k k' n hn hn' := h.disjoint k k' n (List.mem_of_mem_tail hn) (List.mem_of_mem_tail hn')
  held n := by
    cases n with
    | sentinel k' =>
      refine iff_of_false (fun hne => hne rfl) ?_
      rintro ⟨k, hk⟩
      exact h.sentinel_notMem k k' hk
    | slot p i =>
      constructor
      · intro hne
        obtain ⟨p', i', he, hl, -⟩ := live_of_held hne
        rw [← he] at hl
        obtain ⟨k, hk⟩ := h.live_iff.mp hl
        exact ⟨k, h.mem_tail_iff.mpr hk⟩
      · rintro ⟨k, hk⟩
        exact held_ne_other hg (h.live_iff.mpr ⟨k, h.mem_tail_iff.mp hk⟩)

/-- On the lists behind the sentinels there are slots only. -/
theorem slot_of_mem (h : s.Lists rings) (hg : s.Good cfg) (hn : n ∈ tailsOf rings k) :
    ∃ p i, n = .slot p i ∧ s.Live (.slot p i) := by
  obtain ⟨p, i, rfl, hl, -⟩ := live_of_held (((h.filed hg).held n).mpr ⟨k, hn⟩)
  exact ⟨p, i, rfl, hl⟩

/-- No node stands twice on a list. -/
theorem notMem_of_split {pre post : List NodeRef} (h : s.Lists rings)
    (hk : tailsOf rings k = pre ++ n :: post) : n ∉ pre ∧ n ∉ post := by
  have hnd : (tailsOf rings k).Nodup := (h.ring k).nodup.tail
  rw [hk] at hnd
  obtain ⟨-, hcons, hdisj⟩ := List.nodup_append.mp hnd
  exact ⟨fun hm => hdisj n hm n List.mem_cons_self rfl, (List.nodup_cons.mp hcons).1⟩

end Kernel.Lists

theorem tail_insertAfter {r : List NodeRef} {p : NodeRef} (h : r.head? ≠ some p) :
    (Ring.insertAfter p n r).tail = Ring.insertAfter p n r.tail := by
  cases r with
  | nil => rfl
  | cons y r =>
    have hy : y ≠ p := fun e => h (by rw [e]; rfl)
    rw [Ring.insertAfter, if_neg hy]
    rfl

theorem tail_erase {r : List NodeRef} (h : r.head? ≠ some n) : (r.erase n).tail = r.tail.erase n := by
  cases r with
  | nil => rfl
  | cons y r =>
    have hy : y ≠ n := fun e => h (by rw [e]; rfl)
    rw [List.erase_cons_tail (by simpa using hy)]
    rfl

/-- What is done to the one list that has the node is done to all. -/
theorem tailsOf_update {r : List NodeRef} {f : List NodeRef → List NodeRef}
    (hr : r.tail = f (tailsOf rings k)) (hf : ∀ k', k' ≠ k → f (tailsOf rings k') = tailsOf rings k') :
    tailsOf (Function.update rings k r) = fun k' => f (tailsOf rings k') := by
  funext k'
  by_cases hk : k' = k
  · subst hk
    rw [tailsOf, Function.update_self, hr]
  · rw [tailsOf, Function.update_of_ne hk, ← tailsOf, hf k' hk]

theorem map_rename_of_notMem {r : List NodeRef} {src dst : NodeRef} (h : src ∉ r) :
    r.map (CapOp.rename src dst) = r := by
  refine (List.map_congr_left fun y hy => if_neg ?_).trans (List.map_id r)
  rintro rfl
  exact h hy

section

variable {p i : Nat} {q : NodeRef}

/-- A move puts the new node where the old one stood. -/
theorem tailsOf_move (h : s.Lists rings) (hk : .slot p i ∈ rings k) (hd : ¬ s.Live q) :
    tailsOf (Function.update rings k ((Ring.insertAfter (.slot p i) q (rings k)).erase (.slot p i)))
      = fun k' => (tailsOf rings k').map (CapOp.rename (.slot p i) q) := by
  have hq : q ∉ rings k := fun hm => hd (h.live_iff.mpr ⟨k, hm⟩)
  refine tailsOf_update (f := List.map (CapOp.rename (.slot p i) q)) ?_ fun k' hk' =>
    map_rename_of_notMem fun hm => hk' (h.disjoint k' k _ (List.mem_of_mem_tail hm) hk)
  rw [Listing.insertAfter_erase (h.ring k).nodup hq, ← List.map_tail]
  rfl

/-- The kernel's lists follow the operation. -/
theorem CapStep.onTails (hs : CapStep cfg s op t) (h : s.Lists rings) :
    ∃ rings', t.Lists rings' ∧ tailsOf rings' = op.onTails (tailsOf rings) := by
  have hhead : ∀ {p i : Nat} {k}, (rings k).head? ≠ some (.slot p i) := fun {p i k} => by
    rw [h.head k]
    simp
  -- a slot on one list is on no other
  have hother : ∀ {p i : Nat} {k k'}, .slot p i ∈ rings k → k' ≠ k →
      .slot p i ∉ tailsOf rings k' := fun hk hk' hm =>
    hk' (h.disjoint _ _ _ (List.mem_of_mem_tail hm) hk)
  cases hs with
  | skip => exact ⟨rings, h, rfl⟩
  | wipe => exact ⟨rings, Kernel.lists_congr (by simp) (by simp) h, rfl⟩
  | @derive pid i j c par q hpid hj hsrc hdst hcan hpar hq =>
    obtain ⟨k, hk⟩ := h.live_iff.mp hsrc
    have h' : ((s.setCap (.slot pid i) par).assign cfg pid c.view).Lists rings :=
      Kernel.lists_congr (by simp) (by simp) h
    have hdst' : ¬ ((s.setCap (.slot pid i) par).assign cfg pid c.view).Live (.slot pid j) :=
      fun hl => hdst ((Kernel.live_congr (by simp)).mp hl)
    have hq' : Ring.Linked ((s.setCap (.slot pid i) par).assign cfg pid c.view).nexts
        ((s.setCap (.slot pid i) par).assign cfg pid c.view).prevs (.slot pid i) q := by
      simpa using hq
    refine ⟨_, h'.insert hdst' hk hq', ?_⟩
    exact tailsOf_update (f := Ring.insertAfter (.slot pid i) (.slot pid j))
      (tail_insertAfter hhead) fun k' hk' => Ring.insertAfter_of_notMem (hother hk hk')
  | @move pid i j a q hpid hj hsrc hdst ha hq hne =>
    obtain ⟨k, hk⟩ := h.live_iff.mp hsrc
    exact ⟨_, h.move hdst hk (by simp) ha hq hne, tailsOf_move h hk hdst⟩
  | @transfer srcPid i destPid j a q hpid hj hsrc hdst hex ha hq hne =>
    obtain ⟨k, hk⟩ := h.live_iff.mp hsrc
    have h' : (s.assign cfg destPid (s.caps (.slot srcPid i)).view).Lists rings :=
      Kernel.lists_congr (by simp) (by simp) h
    have hdst' : ¬ (s.assign cfg destPid (s.caps (.slot srcPid i)).view).Live (.slot destPid j) :=
      fun hl => hdst ((Kernel.live_congr (by simp)).mp hl)
    exact ⟨_, h'.move hdst' hk (by simp) (by simpa using ha) (by simpa using hq) hne,
      tailsOf_move h hk hdst⟩
  | @delete pid i a q hsrc hex ha hq hne =>
    obtain ⟨k, hk⟩ := h.live_iff.mp hsrc
    refine ⟨_, h.delete hk (by simp) ha hq, ?_⟩
    exact tailsOf_update (f := fun r => r.erase (.slot pid i)) (tail_erase hhead) fun k' hk' =>
      List.erase_of_not_mem (hother hk hk')

end

/-! ## The invariant of a run -/

/-- What holds of a kernel whose capabilities come from disjoint roots. -/
structure Kernel.Derived (s : Kernel) : Prop where
  forest : Forest s.held s.history
  ordered : ∃ rings, s.Lists rings ∧ Ordered s.history (tailsOf rings)
  sentinels : ∀ k, s.caps (.sentinel k) = nullCap

/-- Nothing is derived from anything yet. -/
theorem DisjointRoots.derived (h : DisjointRoots cfg st) : st.kernel.Derived := by
  obtain ⟨hroot, hexcl⟩ := h
  have hnone : ∀ a x, ¬ DerivedFrom st.kernel.history a x := by
    rw [hroot.history]
    exact fun a x => Lineage.not_derivedFrom_nil
  refine ⟨⟨?_, fun a x _ _ hD => absurd hD (hnone a x), fun a x ha hx hne _ _ => ?_⟩, ?_,
    hroot.sentinels⟩
  · rw [hroot.history]
    exact Lineage.injOn_nil
  · have hwf : ∀ {n}, st.kernel.held n ≠ .other → (st.kernel.held n).WF := fun hn =>
      (held_valid hroot.good.kernel hn).1
    exact (hexcl hne).mono ((Capability.extent_subset_mark _).trans
      (Capability.mark_subset_footprint (hwf ha))) (Capability.mark_subset_footprint (hwf hx))
  · obtain ⟨rings, hl⟩ := hroot.lists
    exact ⟨rings, hl, fun k => .of_forall_not hnone _, fun k k' a x _ _ hD => absurd hD (hnone a x)⟩

theorem SameCaps.derived (h : SameCaps cfg s t) (hd : s.Derived) : t.Derived where
  forest := by
    rw [h.held, h.history]
    exact hd.forest
  ordered := by
    rw [h.history]
    exact hd.ordered.imp fun rings hr => ⟨h.lists hr.1, hr.2⟩
  sentinels k := by
    rw [h.caps]
    exact hd.sentinels k

theorem CapStep.caps_sentinel (h : CapStep cfg s op t) (k : Sentinel) :
    t.caps (.sentinel k) = s.caps (.sentinel k) := by
  cases h with
  | skip => rfl
  | derive => simp
  | move => simp
  | transfer => simp
  | delete => simp
  | wipe => simp

/-- What an operation does to the lists is what it does to the forest. -/
theorem CapStep.derived (h : CapStep cfg s op t) (hg : s.Good cfg) (hd : s.Derived) :
    t.Derived where
  forest := by
    rw [h.held, h.history]
    exact (h.enabled hg).forest (fun n hn => (held_valid hg hn).1) hd.forest
  ordered := by
    obtain ⟨rings, hl, ho⟩ := hd.ordered
    obtain ⟨rings', hl', htails⟩ := h.onTails hl
    refine ⟨rings', hl', ?_⟩
    rw [htails, h.history]
    exact (h.enabled hg).ordered (hl.filed hg) hd.forest ho
  sentinels k := (h.caps_sentinel k).trans (hd.sentinels k)

/-- So does a step. -/
theorem step_derived (hg : st.Good cfg) (hd : st.kernel.Derived) (hs : Step cfg st l st') :
    st'.kernel.Derived := by
  obtain ⟨s', t', h1, h2, h3⟩ := step_caps hg hs
  exact h3.derived (h2.derived (h1.good hg.kernel) (h1.derived hd))

/-! ## The run behind a node -/

/-- The leaves by their words. -/
theorem isFrame_view {c : Cap} : c.view.IsFrame ↔ capIsType c .pmp = true := by
  constructor
  · intro h
    apply Cap.isType_of_view
    cases hv : c.view <;> rw [hv] at h <;> first | exact h.elim | rfl
  · intro h
    rw [Cap.view_eq h]
    trivial

namespace Kernel

/-- The nodes behind `n` up to the first that `cap_is_child` does not take for a child of its
    capability. -/
def childRun (s : Kernel) (n : NodeRef) : Set NodeRef :=
  {x | Relation.TransGen
    (fun y z => s.nexts y = some z ∧ capIsChild (s.caps n) (s.caps z) = true) n x}

/-- The live capabilities derived from the one in `n`, directly or not. -/
def subtree (s : Kernel) (n : NodeRef) : Set NodeRef :=
  {x | (∃ p i, x = .slot p i) ∧ s.Live x ∧ DerivedFrom s.history n x}

end Kernel

section

variable {p i : Nat}

/-- A sentinel is nobody's child. -/
theorem not_capIsChild_null {c : Cap} : ¬ capIsChild c nullCap = true := by
  rw [capIsChild_iff, nullCap_view]
  generalize c.view = v
  intro h
  cases h

/-- The part of the list behind a node, and the run in it. -/
theorem childRun_eq (hl : s.Lists rings) (hsent : ∀ k, s.caps (.sentinel k) = nullCap)
    {pre post : List NodeRef} (hk : tailsOf rings k = pre ++ n :: post) :
    s.childRun n =
      {x | x ∈ post.takeWhile fun z => decide (capIsChild (s.caps n) (s.caps z) = true)} := by
  obtain ⟨-, s', hs', hchain⟩ := hl.ring k
  obtain rfl : s' = .sentinel k := Option.some.inj (hs'.symm.trans (hl.head k))
  rw [hl.cons_tail k, hk] at hchain
  have hsplit : .sentinel k :: (pre ++ n :: post) ++ [.sentinel k] =
      (.sentinel k :: pre) ++ n :: (post ++ [.sentinel k]) := by simp
  rw [hsplit] at hchain
  have hend : ¬ capIsChild (s.caps n) (s.caps (.sentinel k)) = true := by
    rw [hsent]
    exact not_capIsChild_null
  ext x
  exact Ring.transGen_next_iff (C := fun z => capIsChild (s.caps n) (s.caps z) = true) hend
    (List.isChain_split.mp hchain).2

/-- The run of nodes behind one that `cap_is_child` accepts has its descendants in it, and all of
    them. -/
theorem mem_subtree_iff (hl : s.Lists rings) (hg : s.Good cfg)
    (ho : Ordered s.history (tailsOf rings)) {pre post : List NodeRef}
    (hk : tailsOf rings k = pre ++ n :: post) (x : NodeRef) :
    x ∈ s.subtree n ↔ x ∈ post ∧ DerivedFrom s.history n x := by
  have hfiled := hl.filed hg
  have hn : n ∈ tailsOf rings k := by
    rw [hk]
    simp
  constructor
  · rintro ⟨⟨p, i, rfl⟩, hlive, hD⟩
    obtain ⟨k', hk'⟩ := (hfiled.held _).mp (held_ne_other hg hlive)
    obtain rfl := ho.together k k' n _ hn hk' hD
    rw [hk] at hk'
    have hlisted := ho.listed k
    rw [hk] at hlisted
    exact ⟨hlisted.mem_post hD hk' Lineage.DerivedFrom.irrefl, hD⟩
  · rintro ⟨hx, hD⟩
    obtain ⟨p, i, rfl, hlive, -⟩ := live_of_held ((hfiled.held x).mpr ⟨k, by rw [hk]; simp [hx]⟩)
    exact ⟨⟨p, i, rfl⟩, hlive, hD⟩

/-- A node behind `n` is taken for a child if and only if it descends from `n` and is no frame
    that another capability derived. -/
theorem capIsChild_iff_derived (hl : s.Lists rings) (hg : s.Good cfg) (hd : s.Derived)
    (ho : Ordered s.history (tailsOf rings)) {pre post : List NodeRef}
    (hk : tailsOf rings k = pre ++ n :: post) {x : NodeRef} (hx : x ∈ post) :
    capIsChild (s.caps n) (s.caps x) = true ↔ DerivedFrom s.history n x ∧
      (capIsType (s.caps x) .pmp = true → ChildOf s.history n x) := by
  have hfiled := hl.filed hg
  have hheld : ∀ {y}, y ∈ n :: post → s.held y ≠ .other := fun hy =>
    (hfiled.held _).mpr ⟨k, by rw [hk]; exact List.mem_append_right _ hy⟩
  have hview : ∀ {y}, s.held y ≠ .other → s.held y = (s.caps y).view := fun hy => by
    obtain ⟨p, i, rfl, -, he⟩ := live_of_held hy
    exact he
  have hn := hheld List.mem_cons_self
  have hx' := hheld (List.mem_cons_of_mem n hx)
  have hframe : (s.held x).IsFrame ↔ capIsType (s.caps x) .pmp = true := by
    rw [hview hx', isFrame_view]
  rw [capIsChild_iff, ← hview hn, ← hview hx']
  by_cases hD : DerivedFrom s.history n x
  · rw [(hd.forest.below n x hn hx' hD).isChild_iff, ← hframe]
    tauto
  · refine iff_of_false (fun hc => ?_) fun h => hD h.1
    have hlisted := ho.listed k
    rw [hk] at hlisted
    have hne : n ≠ x := fun e => (hl.notMem_of_split hk).2 (e ▸ hx)
    exact hc.not_disjoint (held_valid hg hx').1 (held_valid hg hn).1
      (hd.forest.apart n x hn hx' hne hD (hlisted.at.1 x hx))

/-- Nothing else is ever taken for a descendant. -/
theorem childRun_subset_subtree (hg : s.Good cfg) (hd : s.Derived)
    (hn : s.Live (.slot p i)) : s.childRun (.slot p i) ⊆ s.subtree (.slot p i) := by
  obtain ⟨rings, hl, ho⟩ := hd.ordered
  obtain ⟨k, hk⟩ := hl.live_iff.mp hn
  obtain ⟨pre, post, hsplit⟩ := List.append_of_mem (hl.mem_tail_iff.mpr hk)
  intro x hx
  rw [childRun_eq hl hd.sentinels hsplit, Set.mem_ofPred_eq] at hx
  have hpost : x ∈ post := (List.takeWhile_sublist _).subset hx
  have hchild : capIsChild (s.caps (.slot p i)) (s.caps x) = true := by
    simpa using List.mem_takeWhile_imp hx
  rw [mem_subtree_iff hl hg ho hsplit]
  exact ⟨hpost, ((capIsChild_iff_derived hl hg hd ho hsplit hpost).mp hchild).1⟩

/-- The run behind a live capability is its subtree if and only if it derived every frame in it
    itself. -/
theorem childRun_eq_subtree_iff (hg : s.Good cfg) (hd : s.Derived) (hn : s.Live (.slot p i)) :
    s.childRun (.slot p i) = s.subtree (.slot p i) ↔ ∀ x ∈ s.subtree (.slot p i),
      capIsType (s.caps x) .pmp = true → ChildOf s.history (.slot p i) x := by
  obtain ⟨rings, hl, ho⟩ := hd.ordered
  obtain ⟨k, hk⟩ := hl.live_iff.mp hn
  obtain ⟨pre, post, hsplit⟩ := List.append_of_mem (hl.mem_tail_iff.mpr hk)
  have hiff := fun {x} hx => capIsChild_iff_derived hl hg hd ho hsplit (x := x) hx
  have hmem := mem_subtree_iff hl hg ho hsplit
  constructor
  · intro heq x hx hpmp
    have hx' := heq ▸ hx
    rw [childRun_eq hl hd.sentinels hsplit, Set.mem_ofPred_eq] at hx'
    have hchild : capIsChild (s.caps (.slot p i)) (s.caps x) = true := by
      simpa using List.mem_takeWhile_imp hx'
    exact ((hiff ((hmem x).mp hx).1).mp hchild).2 hpmp
  · intro hall
    refine (childRun_subset_subtree hg hd hn).antisymm fun x hx => ?_
    rw [childRun_eq hl hd.sentinels hsplit, Set.mem_ofPred_eq]
    -- the descendants are an initial part of what stands behind, all of it recognised
    have hlisted := ho.listed k
    rw [hsplit] at hlisted
    obtain ⟨run, rest, hpost, hrun, hrest⟩ := hlisted.at.2
    obtain ⟨hxp, hD⟩ := (hmem x).mp hx
    have hxrun : x ∈ run := by
      rw [hpost] at hxp
      exact (List.mem_append.mp hxp).resolve_right fun h => hrest x h hD
    have hok : ∀ z ∈ run, decide (capIsChild (s.caps (.slot p i)) (s.caps z) = true) = true := by
      intro z hz
      have hzp : z ∈ post := by
        rw [hpost]
        exact List.mem_append_left _ hz
      exact decide_eq_true ((hiff hzp).mpr
        ⟨hrun z hz, hall z ((hmem z).mpr ⟨hzp, hrun z hz⟩)⟩)
    rw [hpost, List.takeWhile_append_of_pos hok]
    exact List.mem_append_left _ hxrun

end

/-! ## Over whole runs -/

/-- The lists encode the derivation forest: behind every live capability runs just what was
    derived from it. -/
def Kernel.ListsEncodeForest (s : Kernel) : Prop :=
  ∀ p i, s.Live (.slot p i) → s.childRun (.slot p i) = s.subtree (.slot p i)

/-- If the step derives a frame, then from a capability that no other live one has given rise
    to. -/
def ShallowStep (cfg : Config) (s : System) (l : Label) : Prop :=
  ∀ pid i j c, stepOp cfg s l = .derive pid i j c → capIsType c .pmp = true →
    ∀ p k, s.kernel.Live (.slot p k) →
      ¬ DerivedFrom s.kernel.history (.slot p k) (.slot pid i)

/-- The condition in the words of the call. -/
theorem shallow_iff (hg : st.Good cfg) :
    ShallowStep cfg st l ↔ (stepOp cfg st l).Shallow st.kernel.held st.kernel.history := by
  have hheld : ∀ {a}, st.kernel.held a ≠ .other ↔ ∃ p k, a = .slot p k ∧ st.kernel.Live a := by
    intro a
    constructor
    · intro h
      obtain ⟨p, k, rfl, hl, -⟩ := live_of_held h
      exact ⟨p, k, rfl, hl⟩
    · rintro ⟨p, k, rfl, hl⟩
      exact held_ne_other hg.kernel hl
  unfold ShallowStep CapOp.Shallow
  cases stepOp cfg st l with
  | derive pid i j c =>
    simp only [CapOp.derive.injEq]
    constructor
    · intro h hf a ha
      obtain ⟨p, k, rfl, hl⟩ := hheld.mp ha
      exact h pid i j c ⟨rfl, rfl, rfl, rfl⟩ (isFrame_view.mp hf) p k hl
    · rintro h pid' i' j' c' ⟨rfl, rfl, rfl, rfl⟩ hf p k hl
      exact h (isFrame_view.mpr hf) _ (held_ne_other hg.kernel hl)
  | _ => exact iff_of_true (fun pid i j c h => by cases h) trivial

/-- The lists and the predicate give the forest, if and only if no frame is below a memory
    capability that is itself derived. -/
theorem listsEncodeForest_iff (hg : s.Good cfg) (hd : s.Derived) :
    s.ListsEncodeForest ↔ ShallowFrames s.held s.history := by
  have hframe : ∀ {x}, s.held x ≠ .other →
      ((s.held x).IsFrame ↔ capIsType (s.caps x) .pmp = true) := by
    intro x hx
    obtain ⟨p, i, rfl, -, he⟩ := live_of_held hx
    rw [he, isFrame_view]
  constructor
  · intro h a x ha hx hD
    obtain ⟨p, i, rfl, hl, -⟩ := live_of_held ha
    have hx' := ne_other_of_isFrame hx
    obtain ⟨p', i', rfl, hl', -⟩ := live_of_held hx'
    exact (childRun_eq_subtree_iff hg hd hl).mp (h p i hl) _ ⟨⟨p', i', rfl⟩, hl', hD⟩
      ((hframe hx').mp hx)
  · intro h p i hl
    refine (childRun_eq_subtree_iff hg hd hl).mpr fun x hx hpmp => ?_
    obtain ⟨⟨p', i', rfl⟩, hl', hD⟩ := hx
    exact h _ _ (held_ne_other hg hl) ((hframe (held_ne_other hg hl')).mpr hpmp) hD

/-- In every reachable state the lists hold the forest in order. -/
theorem derived_of_reachable (h : Reachable (DisjointRoots cfg) (Step cfg) st) :
    st.Good cfg ∧ st.kernel.Derived :=
  h.invariant (I := fun s => s.Good cfg ∧ s.kernel.Derived)
    (fun _ hs => ⟨hs.1.good, hs.derived⟩) fun _ _ _ hs hl =>
    ⟨step_good hs.1 hl, step_derived hs.1 hs.2 hl⟩

/-- And frames stay shallow as long as no call derives a deep one. -/
theorem step_shallowFrames (hg : st.Good cfg) (hd : st.kernel.Derived) (hs : Step cfg st l st')
    (hsh : ShallowFrames st.kernel.held st.kernel.history) (hop : ShallowStep cfg st l) :
    ShallowFrames st'.kernel.held st'.kernel.history := by
  obtain ⟨he, heq⟩ := step_held hg hs
  rw [heq, step_history hg hs]
  exact he.shallowFrames hd.forest ((shallow_iff hg).mp hop) hsh

/-- A deep frame is missed as soon as it is derived. -/
theorem not_shallowFrames (hg : st.Good cfg) (hs : Step cfg st l st')
    (hop : ¬ ShallowStep cfg st l) : ¬ ShallowFrames st'.kernel.held st'.kernel.history := by
  obtain ⟨he, heq⟩ := step_held hg hs
  rw [heq, step_history hg hs]
  rw [shallow_iff hg] at hop
  generalize stepOp cfg st l = op at he hop
  cases op with
  | derive pid i j c =>
    simp only [CapOp.Shallow, not_forall, not_not] at hop
    obtain ⟨hf, a, ha, hD⟩ := hop
    have hsd : (.slot pid i : NodeRef) ≠ .slot pid j := fun e => he.1.ne_other (e ▸ he.2)
    have had : a ≠ .slot pid j := fun e => ha (e ▸ he.2)
    have has : a ≠ .slot pid i := by
      rintro rfl
      exact Lineage.DerivedFrom.irrefl hD
    intro h
    have hchild := h a (.slot pid j) (by simpa [CapOp.onHeld, had, has] using ha)
      (by simpa [CapOp.onHeld] using hf) ((Lineage.derivedFrom_derived_dst had).mpr (Or.inr hD))
    have hsame := (Lineage.childOf_derived_dst had).mp hchild
    -- nothing is its own ancestor, whatever place it is in
    rw [DerivedFrom, hsame] at hD
    exact absurd hD.rank_lt (lt_irrefl _)
  | _ => exact absurd trivial hop

/-- The lists encode the forest in all states of a run just if no step of it derives a frame below
    a capability that another live one has given rise to. -/
theorem lists_encode_forest (cfg : Config) :
    (∀ s, Reachable (DisjointRoots cfg) (Transition.restrict (Step cfg) (ShallowStep cfg)) s →
      s.kernel.ListsEncodeForest) ∧
    ∀ s l s', Reachable (DisjointRoots cfg) (Step cfg) s → Step cfg s l s' →
      ¬ ShallowStep cfg s l → ¬ s'.kernel.ListsEncodeForest := by
  refine ⟨fun s h => ?_, fun s l s' h hs hop => ?_⟩
  · obtain ⟨hg, hd, hsh⟩ := h.invariant
      (I := fun s => s.Good cfg ∧ s.kernel.Derived ∧ ShallowFrames s.kernel.held s.kernel.history)
      (fun s hs => ⟨hs.1.good, hs.derived, fun a x _ _ hD => by
        rw [hs.1.history] at hD
        exact absurd hD Lineage.not_derivedFrom_nil⟩)
      fun s l s' hI hl => ⟨step_good hI.1 hl.1, step_derived hI.1 hI.2.1 hl.1,
        step_shallowFrames hI.1 hI.2.1 hl.1 hI.2.2 hl.2⟩
    exact (listsEncodeForest_iff hg.kernel hd).mpr hsh
  · obtain ⟨hg, hd⟩ := derived_of_reachable (h.step hs)
    rw [listsEncodeForest_iff hg.kernel hd]
    exact not_shallowFrames (derived_of_reachable h).1 hs hop

/-- From pages below 16 the root process derives those below 8, and from these a frame of two. -/
def virtDerivesFrame : List Label :=
  [.schedule 1 0,
   .ecall 1 (callRegs 5 20 21 (capMkMemory 0 8 7 0 0).word0 (capMkMemory 0 8 7 0 0).word1 0 0),
   .ecall 1 (callRegs 5 21 22 (capMkPmp 0 7).word0 (capMkPmp 0 7).word1 0 0)]

/-- The frame is the first capability's grandchild and does not follow it. -/
theorem deep_frame_missed :
    ∃ s, Reachable (DisjointRoots .virt) (Step .virt) s ∧ ¬ s.kernel.ListsEncodeForest := by
  have hr : Reachable (DisjointRoots .virt) (Step .virt)
      (virtMemory.after .virt virtDerivesFrame) :=
    ⟨virtMemory, virtMemory_disjointRoots, after_steps .virt virtMemory virtDerivesFrame⟩
  refine ⟨_, hr, fun h => ?_⟩
  have hhist : (virtMemory.after .virt virtDerivesFrame).kernel.history =
      [.derived (.slot 0 21) (.slot 0 22), .derived (.slot 0 20) (.slot 0 21)] := by
    decide +kernel
  have hD : DerivedFrom (virtMemory.after .virt virtDerivesFrame).kernel.history (.slot 0 20)
      (.slot 0 22) := by
    rw [hhist]
    exact (Lineage.derivedFrom_derived_dst (by decide)).mpr (Or.inr
      ((Lineage.derivedFrom_derived_dst (by decide)).mpr (Or.inl rfl)))
  have hmem : .slot 0 22 ∈
      (virtMemory.after .virt virtDerivesFrame).kernel.childRun (.slot 0 20) := by
    rw [h 0 20 (by decide +kernel)]
    exact ⟨⟨0, 22, rfl⟩, by decide +kernel, hD⟩
  obtain ⟨y, -, hy⟩ := Relation.TransGen.tail'_iff.mp hmem
  exact absurd hy.2 (by decide +kernel)

end SepKernel
