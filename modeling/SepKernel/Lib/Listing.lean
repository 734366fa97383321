import SepKernel.Lib.Ring

/-!
# Listing a forest

A forest is given by the relation `D a x`, "`x` descends from `a`". A list of its nodes lists it
when right after each node stand all of its descendants, before anything else, and no ancestor of
it stands behind it. Such a list stays one when a new child is put right after its parent and
when a node is dropped, whatever becomes of its children.
-/

namespace Listing

variable {α : Type*} {D D' : α → α → Prop} {l : List α} {a x p n : α}

/-- The descendants of `a` are an initial part of `l`. -/
def Leads (D : α → α → Prop) (a : α) (l : List α) : Prop :=
  ∃ run post, l = run ++ post ∧ (∀ x ∈ run, D a x) ∧ ∀ x ∈ post, ¬ D a x

/-- Nobody comes behind a descendant, and the descendants of each come right behind it. -/
def Listed (D : α → α → Prop) : List α → Prop
  | [] => True
  | a :: l => (∀ x ∈ l, ¬ D x a) ∧ Leads D a l ∧ Listed D l

/-- Taking nodes out keeps the rest together. -/
theorem Leads.sublist {l' : List α} (h : Leads D a l) (hl : l'.Sublist l) : Leads D a l' := by
  obtain ⟨run, post, rfl, hr, hp⟩ := h
  obtain ⟨run', post', rfl, hr', hp'⟩ := List.sublist_append_iff.mp hl
  exact ⟨run', post', rfl, fun x hx => hr x (hr'.subset hx), fun x hx => hp x (hp'.subset hx)⟩

theorem Leads.congr (h : Leads D a l) (hD : ∀ x ∈ l, D a x ↔ D' a x) : Leads D' a l := by
  obtain ⟨run, post, rfl, hr, hp⟩ := h
  exact ⟨run, post, rfl, fun x hx => (hD x (by simp [hx])).mp (hr x hx),
    fun x hx => fun h => hp x hx ((hD x (by simp [hx])).mpr h)⟩

/-- Where nothing descends from anything, any list will do. -/
theorem Listed.of_forall_not (h : ∀ a x, ¬ D a x) : ∀ l : List α, Listed D l
  | [] => trivial
  | a :: l => ⟨fun x _ => h x a, ⟨[], l, rfl, by simp, fun x _ => h a x⟩, .of_forall_not h l⟩

/-- Dropping nodes. -/
theorem Listed.sublist : ∀ {l l' : List α}, Listed D l → l'.Sublist l → Listed D l'
  | _, _, _, .slnil => trivial
  | _ :: _, _, h, .cons _ hl => h.2.2.sublist hl
  | _ :: _, _ :: _, h, .cons_cons _ hl =>
    ⟨fun x hx => h.1 x (hl.subset hx), h.2.1.sublist hl, h.2.2.sublist hl⟩

theorem Listed.congr : ∀ {l : List α}, Listed D l → (∀ a ∈ l, ∀ x ∈ l, D a x ↔ D' a x) →
    Listed D' l
  | [], _, _ => trivial
  | a :: l, h, hD =>
    ⟨fun x hx => fun hxa => h.1 x hx ((hD x (by simp [hx]) a (by simp)).mpr hxa),
     h.2.1.congr fun x hx => hD a (by simp) x (by simp [hx]),
     h.2.2.congr fun b hb x hx => hD b (by simp [hb]) x (by simp [hx])⟩

/-- Renaming the nodes. -/
theorem Listed.map {f : α → α} : ∀ {l : List α}, Listed D l →
    (∀ a ∈ l, ∀ x ∈ l, D a x ↔ D' (f a) (f x)) → Listed D' (l.map f)
  | [], _, _ => trivial
  | a :: l, ⟨hback, ⟨run, post, hl, hr, hp⟩, hrest⟩, hD => by
    refine ⟨fun x hx => ?_, ⟨run.map f, post.map f, by rw [hl, List.map_append], fun x hx => ?_,
      fun x hx => ?_⟩, hrest.map fun b hb x hx => hD b (by simp [hb]) x (by simp [hx])⟩
    · obtain ⟨y, hy, rfl⟩ := List.mem_map.mp hx
      exact fun h => hback y hy ((hD y (by simp [hy]) a (by simp)).mpr h)
    · obtain ⟨y, hy, rfl⟩ := List.mem_map.mp hx
      exact (hD a (by simp) y (by simp [hl, hy])).mp (hr y hy)
    · obtain ⟨y, hy, rfl⟩ := List.mem_map.mp hx
      exact fun h => hp y hy ((hD a (by simp) y (by simp [hl, hy])).mpr h)

/-- What the list says about one of its nodes. -/
theorem Listed.at {pre post : List α} (h : Listed D (pre ++ a :: post)) :
    (∀ x ∈ post, ¬ D x a) ∧ Leads D a post := by
  induction pre with
  | nil => exact ⟨h.1, h.2.1⟩
  | cons _ pre ih => exact ih h.2.2

/-- The descendants of a node are all behind it. -/
theorem Listed.mem_post {pre post : List α} (h : Listed D (pre ++ a :: post)) (hD : D a x)
    (hx : x ∈ pre ++ a :: post) (ha : ¬ D a a) : x ∈ post := by
  rcases List.mem_append.mp hx with hx | hx
  · obtain ⟨pre₁, pre₂, rfl⟩ := List.append_of_mem hx
    rw [List.append_assoc, List.cons_append] at h
    exact absurd hD (h.at.1 a (by simp))
  · rcases List.mem_cons.mp hx with rfl | hx
    · exact absurd hD ha
    · exact hx

section

variable [DecidableEq α]

theorem mem_of_mem_insertAfter (h : x ∈ Ring.insertAfter p n l) : x = n ∨ x ∈ l := by
  by_cases hp : p ∈ l
  · exact (Ring.mem_insertAfter hp).mp h
  · right
    induction l with
    | nil => exact h
    | cons y l ih =>
      have hy : y ≠ p := fun e => hp (e ▸ List.mem_cons_self)
      rw [Ring.insertAfter, if_neg hy] at h
      rcases List.mem_cons.mp h with h | h
      · exact h ▸ List.mem_cons_self
      · exact List.mem_cons_of_mem _ (ih h fun hm => hp (List.mem_cons_of_mem _ hm))

/-- A node goes into the part of the list that has the one it is put behind. -/
theorem insertAfter_append {l' : List α} :
    Ring.insertAfter p n (l ++ l') =
      if p ∈ l then Ring.insertAfter p n l ++ l' else l ++ Ring.insertAfter p n l' := by
  induction l with
  | nil => simp
  | cons y l ih =>
    by_cases hy : y = p
    · simp [Ring.insertAfter, hy]
    · have hyp : ¬ p = y := fun e => hy e.symm
      by_cases hp : p ∈ l <;> simp [Ring.insertAfter, hy, hyp, ih, hp]

/-- Putting a new child of `p` right after `p`. -/
theorem Listed.insertAfter (hnd : l.Nodup) (hn : n ∉ l) (h : Listed D l)
    (hD : ∀ a ∈ l, D a n ↔ a = p ∨ D a p) (hDn : ∀ x, ¬ D n x) :
    Listed D (Ring.insertAfter p n l) := by
  induction l with
  | nil => trivial
  | cons a l ih =>
    obtain ⟨hal, hnd⟩ := List.nodup_cons.mp hnd
    obtain ⟨hback, hlead, hrest⟩ := h
    by_cases ha : a = p
    · -- the parent itself: the child heads the descendants it already has
      subst ha
      have hna : D a n := (hD a (by simp)).mpr (Or.inl rfl)
      obtain ⟨run, post, rfl, hr, hp⟩ := hlead
      rw [Ring.insertAfter, if_pos rfl]
      refine ⟨fun x hx => ?_, ⟨n :: run, post, rfl, ?_, hp⟩, ?_, ?_, hrest⟩
      · rcases List.mem_cons.mp hx with rfl | hx
        · exact hDn a
        · exact hback x hx
      · intro x hx
        rcases List.mem_cons.mp hx with rfl | hx
        · exact hna
        · exact hr x hx
      · intro x hx hxn
        rcases (hD x (by simp [hx])).mp hxn with rfl | hxa
        · exact hal hx
        · exact hback x hx hxa
      · exact ⟨[], run ++ post, rfl, by simp, fun x _ => hDn x⟩
    · rw [Ring.insertAfter, if_neg ha]
      refine ⟨fun x hx => ?_, ?_, ih hnd (fun hm => hn (by simp [hm])) hrest
        fun b hb => hD b (by simp [hb])⟩
      · rcases mem_of_mem_insertAfter hx with rfl | hx
        · exact hDn a
        · exact hback x hx
      · -- below `a` the child stands where its parent does: in the run, or behind it
        obtain ⟨run, post, rfl, hr, hp⟩ := hlead
        rw [insertAfter_append]
        split
        · next hpr =>
          refine ⟨_, post, rfl, fun x hx => ?_, hp⟩
          rcases mem_of_mem_insertAfter hx with rfl | hx
          · exact (hD a (by simp)).mpr (Or.inr (hr p hpr))
          · exact hr x hx
        · next hpr =>
          refine ⟨run, _, rfl, hr, fun x hx => ?_⟩
          by_cases hpp : p ∈ post
          · rcases (Ring.mem_insertAfter hpp).mp hx with rfl | hx
            · exact fun h => ((hD a (by simp)).mp h).elim ha (hp p hpp)
            · exact hp x hx
          · rw [Ring.insertAfter_of_notMem hpp] at hx
            exact hp x hx

/-- A node that takes the place of another. -/
theorem insertAfter_erase (hnd : l.Nodup) (hn : n ∉ l) :
    (Ring.insertAfter p n l).erase p = l.map fun x => if x = p then n else x := by
  have hid : ∀ {l : List α}, p ∉ l → (l.map fun x => if x = p then n else x) = l := by
    intro l hp
    refine (List.map_congr_left fun x hx => if_neg ?_).trans (List.map_id l)
    rintro rfl
    exact hp hx
  induction l with
  | nil => rfl
  | cons a l ih =>
    obtain ⟨hal, hnd⟩ := List.nodup_cons.mp hnd
    by_cases ha : a = p
    · subst ha
      rw [Ring.insertAfter, if_pos rfl, List.erase_cons_head, List.map_cons, if_pos rfl, hid hal]
    · rw [Ring.insertAfter, if_neg ha, List.erase_cons_tail (by simpa using ha), List.map_cons,
        if_neg ha, ih hnd fun hm => hn (List.mem_cons_of_mem _ hm)]

end
end Listing
