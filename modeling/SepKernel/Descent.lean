import SepKernel.Capability

/-!
# Telling descendants by their ranges

No node of the kernel's lists says what it was derived from. `cap_is_child` guesses it from the
ranges, and this file has what the guess rests on: a child is recognised when it is made, whoever
recognised its parent recognises it too, with one exception, and what is derived next to it
lies apart. The exception is a frame below a memory capability that was itself derived: it lies
where the ancestor has handed out its pages, and the rule for frames looks at what is left.
-/

namespace SepKernel
namespace Capability

variable {n p c x : Capability} {direct : Prop}

/-- A frame among the pages that its ancestor has handed out. -/
inductive Nested : Capability → Capability → Prop where
  | mk {r : Span} {w w' : Word} {m lo hi : Nat} (hfirst : r.first ≤ lo) (hlt : lo < r.free) :
      Nested (.memory r w m) (.pmp lo hi w')

/-- Frames are the leaves: nothing is derived from them. -/
def IsFrame : Capability → Prop
  | .pmp .. => True
  | _ => False

instance : DecidablePred IsFrame := fun c => by
  cases c <;> unfold IsFrame <;> infer_instance

/-- The ancestor `n` recognises its descendant `x`, unless that is a frame it did not itself
    derive. -/
def Below (direct : Prop) (n x : Capability) : Prop :=
  IsChild n x ∧ (direct ∨ ¬ x.IsFrame) ∨ Nested n x ∧ ¬ direct

theorem Nested.isFrame (h : Nested n x) : x.IsFrame := by
  cases h
  trivial

/-- Such a frame is not recognised. -/
theorem Nested.not_isChild (h : Nested n x) : ¬ IsChild n x := by
  intro hc
  cases h with
  | mk _ hlt =>
    cases hc with
    | pmp hlo => exact absurd hlt (not_lt.mpr hlo)

/-- Exactly the frames of other memory capabilities are missed. -/
theorem Below.isChild_iff (h : Below direct n x) : IsChild n x ↔ ¬ x.IsFrame ∨ direct := by
  rcases h with ⟨hc, hd⟩ | ⟨hn, hd⟩
  · exact iff_of_true hc hd.symm
  · exact iff_of_false hn.not_isChild (not_or.mpr ⟨not_not.mpr hn.isFrame, hd⟩)

/-! ## A new child -/

/-- What has been handed out is a part of the range. -/
def Ordered : Capability → Prop
  | .memory r _ _ => r.first ≤ r.free ∧ r.free ≤ r.stop
  | .time _ r => r.first ≤ r.free ∧ r.free ≤ r.stop
  | .channels r => r.first ≤ r.free ∧ r.free ≤ r.stop
  | .supervisor r => r.first ≤ r.free ∧ r.free ≤ r.stop
  | _ => True

/-- The bounds of a well-formed capability are in order. -/
theorem WF.ordered (h : c.WF) : c.Ordered := by
  cases c with
  | memory => exact ⟨h.1.1, h.1.2.1⟩
  | time => exact ⟨h.1, h.2.1⟩
  | channels => exact ⟨h.1, h.2.1⟩
  | supervisor => exact ⟨h.1, h.2.1⟩
  | _ => trivial

/-- A capability that has just been derived is recognised as a child. -/
theorem CanDerive.isChild (h : CanDerive p c) (hp : p.Ordered) : IsChild (p.afterDerive c) c := by
  cases h with
  | memory hfirst hfree hlt hstop hrwx => exact .memory (hfirst ▸ hp.1) le_rfl hrwx
  | pmp hlo hlt hhi hrwx => exact .pmp hlo hhi hrwx
  | time hfirst hfree hlt hstop => exact .time (hfirst ▸ hp.1) le_rfl
  | channels hfirst hfree hlt hstop => exact .channels (hfirst ▸ hp.1) le_rfl
  | receiver hch hlt => exact .receiver (hch ▸ hp.1) (Nat.lt_succ_self _)
  | server hch hlt => exact .server (hch ▸ hp.1) (Nat.lt_succ_self _)
  | sender => exact .receiverSender
  | client => exact .serverClient
  | supervisor hfirst hfree hlt hstop => exact .supervisor (hp.1.trans hfirst) le_rfl

/-- What recognises the parent recognises the child, unless it is a frame. -/
theorem IsChild.trans_derive (h : IsChild n p) (hc : CanDerive p c) (hp : p.WF) :
    if c.IsFrame then Nested n c else IsChild n c := by
  cases hc with
  | memory hfirst hfree hlt hstop hrwx =>
    obtain ⟨⟨h1, h2, h3⟩, -⟩ := hp
    cases h with
    | memory hf hs hw => exact .memory (by omega) (by omega) (hrwx.trans hw)
  | pmp hlo hlt hhi hrwx =>
    obtain ⟨⟨h1, h2, h3⟩, -⟩ := hp
    cases h with
    -- a frame of its memory, which the grandparent does not recognise
    | memory hf hs hw => exact .mk (by omega) (by omega)
  | time hfirst hfree hlt hstop =>
    obtain ⟨h1, h2, h3⟩ := hp
    cases h with
    | time hf hs => exact .time (by omega) (by omega)
  | channels hfirst hfree hlt hstop =>
    obtain ⟨h1, h2, h3⟩ := hp
    cases h with
    | channels hf hs => exact .channels (by omega) (by omega)
  | receiver hch hlt =>
    obtain ⟨h1, h2, h3⟩ := hp
    cases h with
    | channels hf hs => exact .receiver (by omega) (by omega)
  | server hch hlt =>
    obtain ⟨h1, h2, h3⟩ := hp
    cases h with
    | channels hf hs => exact .server (by omega) (by omega)
  | sender =>
    cases h with
    | receiver hf hs => exact .sender hf hs
  | client =>
    cases h with
    | server hf hs => exact .client hf hs
  | supervisor hfirst hfree hlt hstop =>
    obtain ⟨h1, h2, h3⟩ := hp
    cases h with
    | supervisor hf hs => exact .supervisor (by omega) (by omega)

/-- Frames have no children. -/
theorem CanDerive.not_isFrame (h : CanDerive p c) : ¬ p.IsFrame := by
  intro hf
  cases h <;> exact hf

theorem CanDerive.not_isFrame_after (h : CanDerive p c) : ¬ (p.afterDerive c).IsFrame := by
  cases h <;> exact id

/-- Descendants of descendants. -/
theorem Below.trans_derive (h : Below direct n p) (hc : CanDerive p c) (hp : p.WF) :
    Below False n c := by
  rcases h with ⟨h, -⟩ | ⟨h, -⟩
  · have := h.trans_derive hc hp
    split at this
    · exact Or.inr ⟨this, id⟩
    · next hf => exact Or.inl ⟨this, Or.inr hf⟩
  · exact absurd h.isFrame hc.not_isFrame

/-! ## The parent after it -/

/-- Handing out more channels loses no child. -/
theorem IsChild.channels_mono {r : Span} {b : Nat} (h : IsChild (.channels r) x)
    (hb : r.free ≤ b) : IsChild (.channels (r.carve b)) x := by
  cases h with
  | channels hf hs => exact .channels hf (hs.trans hb)
  | receiver hf hs => exact .receiver hf (hs.trans_le hb)
  | sender hf hs => exact .sender hf (hs.trans_le hb)
  | server hf hs => exact .server hf (hs.trans_le hb)
  | client hf hs => exact .client hf (hs.trans_le hb)

/-- A memory capability with frames derives no memory any more, so its frames stay among the
    pages that are left to it; all others only hand out more. -/
theorem IsChild.derive_again (h : IsChild p x) (hc : CanDerive p c) :
    IsChild (p.afterDerive c) x := by
  cases hc with
  | memory hfirst hfree hlt hstop =>
    cases h with
    | memory hf hs hw => exact .memory hf (by simp only [Span.carve]; omega) hw
  | pmp hlo hlt hhi hrwx =>
    cases h with
    | memory hf hs hw => exact .memory hf hs hw
    | pmp hlo' hhi' hw => exact .pmp hlo' hhi' hw
  | time hfirst hfree hlt hstop =>
    cases h with
    | time hf hs => exact .time hf (by simp only [Span.carve]; omega)
  | channels hfirst hfree hlt hstop => exact h.channels_mono (by omega)
  | receiver hch hlt => exact h.channels_mono (by omega)
  | server hch hlt => exact h.channels_mono (by omega)
  | sender => exact h
  | client => exact h
  | supervisor hfirst hfree hlt hstop =>
    cases h with
    | supervisor hf hs => exact .supervisor hf (by simp only [Span.carve]; omega)

/-- A later derivation from the same source does not change that. -/
theorem Nested.derive_again (h : Nested p x) (hc : CanDerive p c) :
    Nested (p.afterDerive c) x := by
  cases h with
  | mk hf hlt =>
    cases hc with
    | memory hfirst hfree hlt' hstop => exact .mk hf (by simp only [Span.carve]; omega)
    | pmp => exact .mk hf hlt

/-- Nor what is below it. -/
theorem Below.derive_again (h : Below direct p x) (hc : CanDerive p c) :
    Below direct (p.afterDerive c) x :=
  h.imp (And.imp (fun h => h.derive_again hc) id) (And.imp (fun h => h.derive_again hc) id)

/-- To its own ancestors the parent looks as before. -/
theorem IsChild.of_derive (h : IsChild n p) (hc : CanDerive p c) :
    IsChild n (p.afterDerive c) := by
  cases hc with
  | memory => cases h with | memory hf hs hw => exact .memory hf hs hw
  | pmp => cases h with | memory hf hs hw => exact .memory hf hs hw
  | time => cases h with | time hf hs => exact .time hf hs
  | channels => cases h with | channels hf hs => exact .channels hf hs
  | receiver => cases h with | channels hf hs => exact .channels hf hs
  | server => cases h with | channels hf hs => exact .channels hf hs
  | sender => exact h
  | client => exact h
  | supervisor => cases h with | supervisor hf hs => exact .supervisor hf hs

/-- What was below the source is, whatever is derived from the source's own descendants. -/
theorem Below.of_derive (h : Below direct n p) (hc : CanDerive p c) :
    Below direct n (p.afterDerive c) := by
  rcases h with ⟨h, hd⟩ | ⟨h, -⟩
  · exact Or.inl ⟨h.of_derive hc, Or.inr hc.not_isFrame_after⟩
  · exact absurd h.isFrame hc.not_isFrame

/-! ## What lies apart -/

theorem span_subset {f : Nat → Resource} {r : Span} {a b : Nat} (ha : r.first ≤ a)
    (hb : b ≤ r.stop) : f '' Set.Ico a b ⊆ f '' r.whole :=
  Set.image_mono (Set.Ico_subset_Ico ha hb)

theorem mem_whole {f : Nat → Resource} {r : Span} {a : Nat} (ha : r.first ≤ a)
    (hb : a < r.stop) : {f a} ⊆ f '' r.whole :=
  Set.singleton_subset_iff.mpr ⟨a, ⟨ha, hb⟩, rfl⟩

/-- A capability derived from `p` refers to a part of what `p` refers to. -/
theorem CanDerive.mark_subset (h : CanDerive p c) (hp : p.WF) : c.mark ⊆ p.mark := by
  cases h with
  | memory hfirst hfree hlt hstop => exact span_subset (hfirst ▸ hp.1.1) hstop
  | pmp hlo hlt hhi => exact mem_whole (hp.1.1.trans hlo) (hlt.trans_le hhi)
  | time hfirst hfree hlt hstop => exact span_subset (hfirst ▸ hp.1) hstop
  | channels hfirst hfree hlt hstop => exact span_subset (hfirst ▸ hp.1) hstop
  | receiver hch hlt => exact mem_whole (hch ▸ hp.1) hlt
  | server hch hlt => exact mem_whole (hch ▸ hp.1) hlt
  | sender => exact subset_rfl
  | client => exact subset_rfl
  | supervisor hfirst hfree hlt hstop => exact span_subset (hp.1.trans hfirst) hstop

/-- A child reaches no further than its parent. -/
theorem CanDerive.extent_subset (h : CanDerive p c) (hp : p.WF) : c.extent ⊆ p.extent := by
  cases h with
  | memory hfirst hfree hlt hstop => exact span_subset (hfirst ▸ hp.1.1) hstop
  | pmp => exact Set.empty_subset _
  | time hfirst hfree hlt hstop => exact span_subset (hfirst ▸ hp.1) hstop
  | channels hfirst hfree hlt hstop => exact span_subset (hfirst ▸ hp.1) hstop
  | receiver hch hlt => exact mem_whole (hch ▸ hp.1) hlt
  | server hch hlt => exact mem_whole (hch ▸ hp.1) hlt
  | sender => exact Set.empty_subset _
  | client => exact Set.empty_subset _
  | supervisor hfirst hfree hlt hstop => exact span_subset (hp.1.trans hfirst) hstop

theorem extent_afterDerive : (p.afterDerive c).extent = p.extent := by
  cases p <;> cases c <;> rfl

theorem mark_afterDerive : (p.afterDerive c).mark = p.mark := by
  cases p <;> cases c <;> rfl

/-- A child is within reach of what recognises it. -/
theorem IsChild.not_disjoint (h : IsChild n x) (hx : x.WF) (hn : n.WF) :
    ¬ Disjoint n.extent x.mark := by
  -- a page, quantum, channel or process that both refer to
  have hmeet : ∀ {f : Nat → Resource} {r : Span} {m : Set Resource} {a : Nat},
      r.first ≤ a → a < r.stop → f a ∈ m → ¬ Disjoint (f '' r.whole) m :=
    fun h1 h2 hm hd => Set.disjoint_left.mp hd ⟨_, ⟨h1, h2⟩, rfl⟩ hm
  have hspan : ∀ {f : Nat → Resource} {r c : Span}, r.first ≤ c.first → c.stop ≤ r.free →
      r.WF → c.WF → ¬ Disjoint (f '' r.whole) (f '' c.whole) := fun h1 h2 hr hc =>
    hmeet h1 (hc.2.2.trans_le (h2.trans hr.2.1)) ⟨_, ⟨le_rfl, hc.2.2⟩, rfl⟩
  cases h with
  | memory hf hs => exact hspan hf hs hn.1 hx.1
  | pmp hlo hhi => exact hmeet (hn.1.1.trans hlo) (lt_of_lt_of_le hx hhi) rfl
  | time hf hs => exact hspan hf hs hn hx
  | channels hf hs => exact hspan hf hs hn hx
  | receiver hf hs => exact hmeet hf (hs.trans_le hn.2.1) rfl
  | sender hf hs => exact hmeet hf (hs.trans_le hn.2.1) rfl
  | server hf hs => exact hmeet hf (hs.trans_le hn.2.1) rfl
  | client hf hs => exact hmeet hf (hs.trans_le hn.2.1) rfl
  | receiverSender => exact fun hd => Set.disjoint_left.mp hd rfl rfl
  | serverClient => exact fun hd => Set.disjoint_left.mp hd rfl rfl
  | supervisor hf hs => exact hspan hf hs hn hx

/-- The part that has been handed out. -/
def handed : Capability → Set Resource
  | .memory r _ _ => Resource.page '' Set.Ico r.first r.free
  | .time h r => Resource.quantum h '' Set.Ico r.first r.free
  | .channels r => Resource.channel '' Set.Ico r.first r.free
  | .supervisor r => Resource.process '' Set.Ico r.first r.free
  | _ => ∅

theorem handed_span {f : Nat → Resource} {r c : Span} (hf : r.first ≤ c.first)
    (hs : c.stop ≤ r.free) : f '' c.whole ⊆ f '' Set.Ico r.first r.free :=
  Set.image_mono (Set.Ico_subset_Ico hf hs)

theorem handed_mem {f : Nat → Resource} {r : Span} {a : Nat} (hf : r.first ≤ a)
    (hs : a < r.free) : {f a} ⊆ f '' Set.Ico r.first r.free :=
  Set.singleton_subset_iff.mpr ⟨a, ⟨hf, hs⟩, rfl⟩

/-- What a capability is for is what it was made for. -/
theorem extent_subset_mark (c : Capability) : c.extent ⊆ c.mark := by
  cases c <;> first | exact subset_rfl | exact Set.empty_subset _

/-- Descendants own parts of what was handed out. -/
theorem IsChild.extent_subset (h : IsChild p x) : x.extent ⊆ p.handed := by
  cases h with
  | memory hf hs => exact handed_span hf hs
  | pmp => exact Set.empty_subset _
  | time hf hs => exact handed_span hf hs
  | channels hf hs => exact handed_span hf hs
  | receiver hf hs => exact handed_mem hf hs
  | sender => exact Set.empty_subset _
  | server hf hs => exact handed_mem hf hs
  | client => exact Set.empty_subset _
  | receiverSender => exact Set.empty_subset _
  | serverClient => exact Set.empty_subset _
  | supervisor hf hs => exact handed_span hf hs

/-- A descendant is within what was handed out. -/
theorem Below.extent_subset (h : Below direct p x) : x.extent ⊆ p.handed := by
  rcases h with ⟨h, -⟩ | ⟨h, -⟩
  · exact h.extent_subset
  · cases h
    exact Set.empty_subset _

/-- What is derived lies beyond it. -/
theorem CanDerive.handed_disjoint (h : CanDerive p c) : Disjoint p.handed c.mark := by
  have hspan : ∀ {f : Nat → Resource} {r c : Span}, Function.Injective f → r.free ≤ c.first →
      Disjoint (f '' Set.Ico r.first r.free) (f '' c.whole) := fun hf hle =>
    (Set.disjoint_image_iff hf).mpr (Set.Ico_disjoint_Ico.mpr (by omega))
  have hmem : ∀ {f : Nat → Resource} {r : Span} {k : Nat}, Function.Injective f → r.free ≤ k →
      Disjoint (f '' Set.Ico r.first r.free) {f k} := by
    intro f r k hf hle
    rw [Set.disjoint_singleton_right]
    rintro ⟨y, hy, he⟩
    exact absurd (hf he ▸ hy.2) (not_lt.mpr hle)
  cases h with
  | memory hfirst => exact hspan page_injective hfirst.ge
  | pmp hlo => exact hmem page_injective hlo
  | time hfirst => exact hspan (quantum_injective _) hfirst.ge
  | channels hfirst => exact hspan channel_injective hfirst.ge
  | receiver hch => exact hmem channel_injective hch.ge
  | server hch => exact hmem channel_injective hch.ge
  | sender => exact Set.empty_disjoint _
  | client => exact Set.empty_disjoint _
  | supervisor hfirst => exact hspan process_injective hfirst

/-- Next to a capability that owns something, all descendants refer to what was handed out. A
    memory capability has its own frames beside that, but then it derives only frames. -/
theorem Below.mark_subset (h : Below direct p x) (hc : CanDerive p c) :
    c.extent = ∅ ∨ x.mark ⊆ p.handed := by
  rcases h with ⟨h, -⟩ | ⟨h, -⟩
  · cases hc with
    | pmp => exact Or.inl rfl
    | sender => exact Or.inl rfl
    | client => exact Or.inl rfl
    | memory => cases h with | memory hf hs => exact Or.inr (handed_span hf hs)
    | time => cases h with | time hf hs => exact Or.inr (handed_span hf hs)
    | supervisor => cases h with | supervisor hf hs => exact Or.inr (handed_span hf hs)
    | channels | receiver | server =>
      right
      cases h with
      | channels hf hs => exact handed_span hf hs
      | receiver hf hs => exact handed_mem hf hs
      | sender hf hs => exact handed_mem hf hs
      | server hf hs => exact handed_mem hf hs
      | client hf hs => exact handed_mem hf hs
  · cases h with
    | mk hf hlt => exact Or.inr (handed_mem hf hlt)

/-- Siblings lie apart. -/
theorem Below.siblings_disjoint (h : Below direct p x) (hc : CanDerive p c) :
    Disjoint x.extent c.mark ∧ Disjoint c.extent x.mark := by
  refine ⟨hc.handed_disjoint.mono_left h.extent_subset, ?_⟩
  rcases h.mark_subset hc with he | hm
  · rw [he]
    exact Set.empty_disjoint _
  · exact (hc.handed_disjoint.mono hm (extent_subset_mark c)).symm

end Capability
end SepKernel
