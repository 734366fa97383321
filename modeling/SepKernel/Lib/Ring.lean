import Mathlib.Data.List.Chain
import Mathlib.Data.List.Nodup
import Mathlib.Logic.Relation

/-!
# Circular doubly linked lists

A heap of nodes linked by two partial functions `next` and `prev`. A ring is a list of nodes, its
head being the sentinel, in which each node points to the one after it and back, and the last to
the head. The file shows that splicing a node in after another and unlinking a node turn rings
into rings, for one ring and for a family of rings that share no node.

The two proofs rest on one remark: links are functions, so a link `x → y` survives a change
of `next` off `x` and of `prev` off `y`, and it leads into a given node for one `x` only.
-/

namespace Ring

variable {α : Type*} {next prev next' prev' : α → Option α} {l r a b : List α}
  {n p q s x y : α}

/-- `x` points to `y` and `y` back to `x`. -/
def Linked (next prev : α → Option α) (x y : α) : Prop := next x = some y ∧ prev y = some x

/-- A list of different nodes, each linked to the one behind it and the last to the first. -/
def IsRing (next prev : α → Option α) (r : List α) : Prop :=
  r.Nodup ∧ ∃ s, r.head? = some s ∧ List.IsChain (Linked next prev) (r ++ [s])

/-- `n` comes right after `p`, or is the head and `p` the last. -/
def Precedes (r : List α) (p n : α) : Prop := ∃ a b, r ++ r.head?.toList = a ++ p :: n :: b

/-- In a ring everything has something in front of it. -/
theorem exists_precedes (hn : n ∈ r) : ∃ p ∈ r, Precedes r p n := by
  obtain ⟨a, b, rfl⟩ := List.append_of_mem hn
  rcases List.eq_nil_or_concat' a with rfl | ⟨a, p, rfl⟩
  · rcases List.eq_nil_or_concat' b with rfl | ⟨b, p, rfl⟩
    · exact ⟨n, by simp, [], [], rfl⟩
    · exact ⟨p, by simp, n :: b, [], by simp⟩
  · exact ⟨p, by simp, a, b ++ (a ++ [p] ++ n :: b).head?.toList, by simp⟩

theorem mem_of_precedes (h : Precedes r p n) : n ∈ r := by
  obtain ⟨a, b, hab⟩ := h
  have hn : n ∈ r ++ r.head?.toList := by
    rw [hab]
    simp
  cases List.mem_append.mp hn with
  | inl hmem => exact hmem
  | inr hhead => exact List.mem_of_head? (Option.mem_toList.mp hhead)

/-! ## Chains -/

/-- A chain that ends in `s`, under another relation: only pairs that start before `s` count. -/
theorem isChain_imp {R S : α → α → Prop} :
    ∀ {l : List α}, List.IsChain R (l ++ [s]) → (∀ x ∈ l, ∀ y ∈ l ++ [s], R x y → S x y) →
      List.IsChain S (l ++ [s])
  | [], _, _ => List.isChain_singleton s
  | [x], h, hRS => by
    simp only [List.cons_append, List.nil_append, List.isChain_cons_cons] at h ⊢
    exact ⟨hRS x (by simp) s (by simp) h.1, List.isChain_singleton s⟩
  | x :: y :: l, h, hRS => by
    obtain ⟨h1, h2⟩ := List.isChain_cons_cons.mp h
    exact List.isChain_cons_cons.mpr ⟨hRS x (by simp) y (by simp) h1,
      isChain_imp h2 fun z hz w hw => hRS z (by simp [hz]) w (List.mem_cons_of_mem _ hw)⟩

/-- The chain around `p` is cut at the link that leaves `p`. -/
theorem exists_link (h : List.IsChain (Linked next prev) (a ++ p :: (b ++ [s]))) :
    ∃ q, q ∈ b ++ [s] ∧ Linked next prev p q ∧ List.IsChain (Linked next prev) (a ++ [p]) ∧
      List.IsChain (Linked next prev) (b ++ [s]) ∧
      ∀ {R : α → α → Prop} {x : α}, R x q → List.IsChain R (b ++ [s]) →
        List.IsChain R (x :: (b ++ [s])) := by
  obtain ⟨h1, h2⟩ := List.isChain_split.mp h
  cases hb : b ++ [s] with
  | nil => simp at hb
  | cons q c =>
    rw [hb] at h2
    obtain ⟨h3, h4⟩ := List.isChain_cons_cons.mp h2
    exact ⟨q, by simp, h3, h1, h4, fun hx hc => List.isChain_cons_cons.mpr ⟨hx, hc⟩⟩

/-- The nodes behind `n` up to the first that fails a test, when the end fails it. -/
theorem transGen_next_iff {C : α → Prop} [DecidablePred C] (hs : ¬ C s) :
    ∀ {l : List α} {n : α}, List.IsChain (Linked next prev) (n :: (l ++ [s])) →
      (Relation.TransGen (fun y z => next y = some z ∧ C z) n x ↔ x ∈ l.takeWhile (C ·))
  | [], n, h => by
    have hn : next n = some s := (List.isChain_cons_cons.mp h).1.1
    refine iff_of_false (fun ht => ?_) List.not_mem_nil
    obtain ⟨z, hz, -⟩ := Relation.TransGen.head'_iff.mp ht
    exact hs (Option.some.inj (hz.1.symm.trans hn) ▸ hz.2)
  | y :: l, n, h => by
    obtain ⟨h1, h2⟩ := List.isChain_cons_cons.mp h
    have ih := transGen_next_iff hs h2
    rw [Relation.TransGen.head'_iff]
    by_cases hy : C y
    · rw [List.takeWhile_cons_of_pos (by simpa using hy), List.mem_cons, ← ih]
      constructor
      · rintro ⟨z, hz, ht⟩
        obtain rfl := Option.some.inj (hz.1.symm.trans h1.1)
        exact (Relation.reflTransGen_iff_eq_or_transGen.mp ht).imp id id
      · rintro (rfl | ht)
        · exact ⟨x, ⟨h1.1, hy⟩, .refl⟩
        · exact ⟨y, ⟨h1.1, hy⟩, ht.to_reflTransGen⟩
    · rw [List.takeWhile_cons_of_neg (by simpa using hy)]
      refine iff_of_false ?_ List.not_mem_nil
      rintro ⟨z, hz, -⟩
      exact hy (Option.some.inj (hz.1.symm.trans h1.1) ▸ hz.2)

/-! ## One ring -/

namespace IsRing

theorem nodup (h : IsRing next prev r) : r.Nodup := h.1

/-- The chain around a node of the ring. -/
theorem split (h : IsRing next prev r) (hp : p ∈ r) :
    ∃ a b s, r = a ++ p :: b ∧ p ∉ a ∧ p ∉ b ∧ r.head? = some s ∧
      List.IsChain (Linked next prev) (a ++ p :: (b ++ [s])) := by
  obtain ⟨hnd, s, hs, hchain⟩ := h
  obtain ⟨a, b, rfl⟩ := List.append_of_mem hp
  obtain ⟨-, h2, h3⟩ := List.nodup_append.mp hnd
  exact ⟨a, b, s, rfl, fun hm => h3 p hm p (by simp) rfl, (List.nodup_cons.mp h2).1, hs,
    by simpa using hchain⟩

theorem mem_of_head (hs : r.head? = some s) : s ∈ r := List.mem_of_head? hs

/-- Every node of a ring has a successor in it. -/
theorem exists_next (h : IsRing next prev r) (hp : p ∈ r) : ∃ q ∈ r, Linked next prev p q := by
  obtain ⟨a, b, s, rfl, -, -, hs, hchain⟩ := h.split hp
  obtain ⟨q, hq, hl, -⟩ := exists_link hchain
  refine ⟨q, ?_, hl⟩
  rcases List.mem_append.mp hq with hq | hq
  · simp [hq]
  · exact List.mem_singleton.mp hq ▸ mem_of_head hs

/-- What the list says of two neighbours, the pointers say too. -/
theorem linked (h : IsRing next prev r) (hpn : Precedes r p n) : Linked next prev p n := by
  obtain ⟨-, s, hs, hchain⟩ := h
  obtain ⟨a, b, hab⟩ := hpn
  rw [hs, Option.toList_some] at hab
  rw [hab] at hchain
  exact (List.isChain_cons_cons.mp (List.isChain_split.mp hchain).2).1

/-- Every node of a ring has a predecessor in it. -/
theorem exists_prev (h : IsRing next prev r) (hp : p ∈ r) : ∃ q ∈ r, Linked next prev q p := by
  obtain ⟨q, hq, hqp⟩ := exists_precedes hp
  exact ⟨q, hq, h.linked hqp⟩

/-- The pointer back is the predecessor in the list, around the end too. -/
theorem precedes_iff (h : IsRing next prev r) (hn : n ∈ r) :
    Precedes r p n ↔ prev n = some p := by
  constructor
  · intro hpn
    exact (h.linked hpn).2
  · intro hp
    obtain ⟨q, -, hqn⟩ := exists_precedes hn
    have hqp : q = p := Option.some.inj ((h.linked hqn).2.symm.trans hp)
    exact hqp ▸ hqn

/-- Links changed off the ring only. -/
theorem congr (h : IsRing next prev r) (hn : ∀ y ∈ r, next' y = next y)
    (hp : ∀ y ∈ r, prev' y = prev y) : IsRing next' prev' r := by
  obtain ⟨hnd, s, hs, hchain⟩ := h
  refine ⟨hnd, s, hs, isChain_imp hchain fun x hx y hy hxy => ⟨(hn x hx).trans hxy.1, ?_⟩⟩
  rcases List.mem_append.mp hy with hy | hy
  · exact (hp y hy).trans hxy.2
  · have hyr : y ∈ r := List.mem_singleton.mp hy ▸ mem_of_head hs
    exact (hp y hyr).trans hxy.2

/-- Only a node that is alone on its ring follows itself. -/
theorem next_ne (h : IsRing next prev r) (hn : n ∈ r) (halone : r ≠ [n]) (hq : next n = some q) :
    q ≠ n := by
  intro he
  obtain ⟨a, b, s, rfl, hna, hnb, hs, hchain⟩ := h.split hn
  obtain ⟨q', hq', hl, -⟩ := exists_link hchain
  obtain rfl : q' = q := Option.some.inj (hl.1.symm.trans hq)
  have hsn : s = n := by
    cases List.mem_append.mp hq' with
    | inl hm => exact absurd (he ▸ hm) hnb
    | inr hm => exact (List.mem_singleton.mp hm).symm.trans he
  -- the head is `n`, so nothing stands before it, and what stands behind it is linked to
  cases a with
  | cons y a =>
    have hy : y = n := (Option.some.inj hs).trans hsn
    exact hna (hy ▸ List.mem_cons_self)
  | nil =>
    cases b with
    | nil => exact halone rfl
    | cons y b =>
      have hy : next n = some y := (List.isChain_cons_cons.mp hchain).1.1
      have hyn : y = n := (Option.some.inj (hy.symm.trans hq)).trans he
      exact hnb (hyn ▸ List.mem_cons_self)

/-- A ring may as well start at the node behind its head. -/
theorem rotate (h : IsRing next prev (x :: y :: l)) : IsRing next prev (y :: l ++ [x]) := by
  obtain ⟨hnd, s, hs, hchain⟩ := h
  obtain rfl : x = s := Option.some.inj hs
  obtain ⟨hxy, hrest⟩ := List.isChain_cons_cons.mp hchain
  refine ⟨List.nodup_middle.mpr (by simpa using hnd), y, rfl, ?_⟩
  have hclose : List.IsChain (Linked next prev) (y :: l ++ x :: [y]) :=
    List.isChain_split.mpr ⟨hrest, List.isChain_cons_cons.mpr ⟨hxy, List.isChain_singleton y⟩⟩
  simpa using hclose

end IsRing

/-! ## Splicing a node in -/

section Insert

variable [DecidableEq α]

/-- The list with `n` right after the first occurrence of `p`. -/
def insertAfter (p n : α) : List α → List α
  | [] => []
  | x :: l => if x = p then x :: n :: l else x :: insertAfter p n l

theorem insertAfter_split (h : p ∉ a) : insertAfter p n (a ++ p :: b) = a ++ p :: n :: b := by
  induction a with
  | nil => simp [insertAfter]
  | cons x a ih =>
    have hx : x ≠ p := fun e => h (e ▸ List.mem_cons_self)
    simp [insertAfter, hx, ih fun hm => h (List.mem_cons_of_mem _ hm)]

theorem insertAfter_of_notMem (h : p ∉ l) : insertAfter p n l = l := by
  induction l with
  | nil => rfl
  | cons x l ih =>
    have hx : x ≠ p := fun e => h (e ▸ List.mem_cons_self)
    simp [insertAfter, hx, ih fun hm => h (List.mem_cons_of_mem _ hm)]

theorem mem_insertAfter (h : p ∈ l) : x ∈ insertAfter p n l ↔ x = n ∨ x ∈ l := by
  induction l with
  | nil => simp at h
  | cons y l ih =>
    by_cases hy : y = p
    · simp [insertAfter, hy, or_left_comm]
    · have hp : p ∈ l := (List.mem_cons.mp h).resolve_left fun e => hy e.symm
      simp [insertAfter, hy, ih hp, or_left_comm]

/-- After `next.prev := n; p.next := n; n.prev := p`, with `n.next` already set to `p.next`. -/
theorem IsRing.insertAfter (h : IsRing next prev r) (hp : p ∈ r) (hn : n ∉ r)
    (hq : next p = some q)
    (hnext : next' = Function.update (Function.update next n (some q)) p (some n))
    (hprev : prev' = Function.update (Function.update prev q (some n)) n (some p)) :
    IsRing next' prev' (insertAfter p n r) := by
  obtain ⟨a, b, s, rfl, hpa, hpb, hs, hchain⟩ := h.split hp
  obtain ⟨q', hq', hl, h1, h2, hcons⟩ := exists_link hchain
  obtain rfl : q' = q := Option.some.inj (hl.1.symm.trans hq)
  rw [insertAfter_split hpa]
  have hne : ∀ y ∈ a ++ p :: b, y ≠ n := fun y hy e => hn (e ▸ hy)
  have hsn : s ≠ n := hne s (mem_of_head hs)
  have hpn : p ≠ n := hne p (by simp)
  -- An old link that does not leave `p` is still there: one that enters `q'` leaves `p`.
  have hkeep : ∀ x y, x ≠ p → x ≠ n → y ≠ n → Linked next prev x y → Linked next' prev' x y := by
    intro x y hxp hxn hyn hxy
    have hyq : y ≠ q' := by
      rintro rfl
      exact hxp (Option.some.inj (hxy.2.symm.trans hl.2))
    rw [hnext, hprev, Linked, Function.update_of_ne hxp, Function.update_of_ne hxn,
      Function.update_of_ne hyn, Function.update_of_ne hyq]
    exact hxy
  have h1' : List.IsChain (Linked next' prev') (a ++ [p]) := by
    refine isChain_imp h1 fun x hx y hy => hkeep x y (fun e => hpa (e ▸ hx)) (hne x (by simp [hx]))
      (hne y ?_)
    simp at hy ⊢
    tauto
  have h2' : List.IsChain (Linked next' prev') (b ++ [s]) := by
    refine isChain_imp h2 fun x hx y hy => hkeep x y (fun e => hpb (e ▸ hx)) (hne x (by simp [hx])) ?_
    rcases List.mem_append.mp hy with hy | hy
    · exact hne y (by simp [hy])
    · exact List.mem_singleton.mp hy ▸ hsn
  have hq'n : q' ≠ n := by
    rcases List.mem_append.mp hq' with hm | hm
    · exact hne q' (by simp [hm])
    · exact List.mem_singleton.mp hm ▸ hsn
  have hnew1 : Linked next' prev' p n := ⟨by rw [hnext]; simp, by rw [hprev]; simp⟩
  have hnew2 : Linked next' prev' n q' :=
    ⟨by rw [hnext, Function.update_of_ne hpn.symm]; simp,
     by rw [hprev, Function.update_of_ne hq'n]; simp⟩
  refine ⟨?_, s, ?_, ?_⟩
  · have hnd := h.nodup
    simp only [List.nodup_append, List.nodup_cons, List.mem_cons, List.mem_append,
      not_or] at hnd hn ⊢
    grind
  · cases a <;> simpa using hs
  · have hfull : List.IsChain (Linked next' prev') (a ++ p :: n :: (b ++ [s])) :=
      List.isChain_split.mpr ⟨h1', List.isChain_cons_cons.mpr ⟨hnew1, hcons hnew2 h2'⟩⟩
    simpa using hfull

end Insert

/-! ## Unlinking a node -/

section Remove

variable [DecidableEq α]

/-- After `n.prev := NULL; next.prev := p; p.next := next`. -/
theorem IsRing.erase (h : IsRing next prev r) (hn : n ∈ r) (hs : r.head? = some s) (hns : n ≠ s)
    (hp : prev n = some p) (hq : next n = some q)
    (hnext : next' = Function.update next p (some q))
    (hprev : prev' = Function.update (Function.update prev n none) q (some p)) :
    IsRing next' prev' (r.erase n) := by
  obtain ⟨a, b, s', rfl, hna, hnb, hs', hchain⟩ := h.split hn
  obtain rfl : s' = s := Option.some.inj (hs'.symm.trans hs)
  obtain ⟨q', hq', hl, -, h2, hcons⟩ := exists_link hchain
  obtain rfl : q' = q := Option.some.inj (hl.1.symm.trans hq)
  -- `n` is not the head, so something stands before it
  rcases List.eq_nil_or_concat' a with rfl | ⟨a, p', rfl⟩
  · exact absurd (by simpa using hs) hns
  have hchain' : List.IsChain (Linked next prev) (a ++ p' :: (n :: b ++ [s'])) := by
    simpa using hchain
  obtain ⟨n', hn', hl', h1, -, -⟩ := exists_link hchain'
  obtain rfl : n' = n := by
    have h3 := (List.isChain_cons_cons.mp (List.isChain_split.mp hchain').2).1
    exact Option.some.inj (hl'.1.symm.trans h3.1)
  obtain rfl : p' = p := Option.some.inj (hl'.2.symm.trans hp)
  have hnd := h.nodup
  have hsn : s' ∈ a ++ [p'] := by
    have : (a ++ [p'] ++ n' :: b).head? = (a ++ [p']).head? := by
      cases a <;> simp
    exact List.mem_of_head? (this ▸ hs)
  have hkeep : ∀ x y, x ≠ p' → x ≠ n' → y ≠ n' → Linked next prev x y → Linked next' prev' x y := by
    intro x y hxp hxn hyn hxy
    have hyq : y ≠ q' := by
      rintro rfl
      exact hxn (Option.some.inj (hxy.2.symm.trans hl.2))
    rw [hnext, hprev, Linked, Function.update_of_ne hxp, Function.update_of_ne hyq,
      Function.update_of_ne hyn]
    exact hxy
  have hmem : ∀ y ∈ a ++ [p'], y ≠ n' := fun y hy e => hna (e ▸ hy)
  have hpa : p' ∉ a := fun hm => by
    simp only [List.nodup_append] at hnd
    exact hnd.1.2.2 p' hm p' (by simp) rfl
  have hpb : p' ∉ b := fun hm => by
    simp only [List.nodup_append] at hnd
    exact hnd.2.2 p' (by simp) p' (by simp [hm]) rfl
  have h1' : List.IsChain (Linked next' prev') (a ++ [p']) :=
    isChain_imp h1 fun x hx y hy => hkeep x y (fun e => hpa (e ▸ hx)) (hmem x (by simp [hx]))
      (hmem y hy)
  have h2' : List.IsChain (Linked next' prev') (b ++ [s']) := by
    refine isChain_imp h2 fun x hx y hy => hkeep x y (fun e => hpb (e ▸ hx)) (fun e => hnb (e ▸ hx)) ?_
    rcases List.mem_append.mp hy with hy | hy
    · exact fun e => hnb (e ▸ hy)
    · exact List.mem_singleton.mp hy ▸ hmem s' hsn
  have hnew : Linked next' prev' p' q' := ⟨by rw [hnext]; simp, by rw [hprev]; simp⟩
  have herase : (a ++ [p'] ++ n' :: b).erase n' = a ++ p' :: b := by
    rw [List.erase_append_right _ hna]
    simp
  rw [herase]
  refine ⟨?_, s', ?_, ?_⟩
  · exact herase ▸ hnd.erase n'
  · cases a <;> simpa using hs
  · have hfull : List.IsChain (Linked next' prev') (a ++ p' :: (b ++ [s'])) :=
      List.isChain_split.mpr ⟨h1', hcons hnew h2'⟩
    simpa using hfull

end Remove

/-! ## A family of rings -/

section Family

variable {κ : Type*} {hd : κ → α} {rings : κ → List α} {k : κ}

/-- Rings with the given heads that share no node; exactly their nodes have a predecessor. -/
structure Family (next prev : α → Option α) (hd : κ → α) (rings : κ → List α) : Prop where
  ring : ∀ k, IsRing next prev (rings k)
  head : ∀ k, (rings k).head? = some (hd k)
  disjoint : ∀ k k' x, x ∈ rings k → x ∈ rings k' → k = k'
  live : ∀ x, prev x ≠ none ↔ ∃ k, x ∈ rings k

namespace Family

/-- Every node with a pointer back is in one of the lists. -/
theorem exists_ring (h : Family next prev hd rings) (hp : prev p ≠ none) : ∃ k, p ∈ rings k :=
  (h.live p).mp hp

theorem exists_next (h : Family next prev hd rings) (hp : prev p ≠ none) :
    ∃ q, Linked next prev p q := by
  obtain ⟨k, hk⟩ := h.exists_ring hp
  obtain ⟨q, -, hq⟩ := (h.ring k).exists_next hk
  exact ⟨q, hq⟩

theorem exists_prev (h : Family next prev hd rings) (hp : prev p ≠ none) :
    ∃ q, Linked next prev q p := by
  obtain ⟨k, hk⟩ := h.exists_ring hp
  obtain ⟨q, -, hq⟩ := (h.ring k).exists_prev hk
  exact ⟨q, hq⟩

theorem head_mem (h : Family next prev hd rings) (k : κ) : hd k ∈ rings k :=
  List.mem_of_head? (h.head k)

/-- A ring with a node besides its head has no node that follows itself. -/
theorem next_ne (h : Family next prev hd rings) (hn : n ∈ rings k) (hns : n ≠ hd k)
    (hq : next n = some q) : q ≠ n := by
  rintro rfl
  obtain ⟨a, b, s, hr, hna, hnb, hs, hchain⟩ := (h.ring k).split hn
  obtain ⟨z, hz, hlz, -⟩ := exists_link hchain
  obtain rfl : z = q := Option.some.inj (hlz.1.symm.trans hq)
  rcases List.mem_append.mp hz with hz | hz
  · exact hnb hz
  · exact hns (Option.some.inj ((List.mem_singleton.mp hz ▸ hs).symm.trans (h.head k)))

variable [DecidableEq α] [DecidableEq κ]

/-- Four stores put a free node behind one of a list; the other lists stay. -/
theorem insertAfter (h : Family next prev hd rings) (hp : p ∈ rings k) (hn : prev n = none)
    (hq : next p = some q)
    (hnext : next' = Function.update (Function.update next n (some q)) p (some n))
    (hprev : prev' = Function.update (Function.update prev q (some n)) n (some p)) :
    Family next' prev' hd (Function.update rings k (Ring.insertAfter p n (rings k))) := by
  have hnr : ∀ k', n ∉ rings k' := fun k' hm => (h.live n).mpr ⟨k', hm⟩ hn
  obtain ⟨q', hq'k, hl⟩ := (h.ring k).exists_next hp
  obtain rfl : q' = q := Option.some.inj (hl.1.symm.trans hq)
  have hmem : ∀ k' x, x ∈ Function.update rings k (Ring.insertAfter p n (rings k)) k' ↔
      (x ∈ rings k' ∨ (k' = k ∧ x = n)) := by
    intro k' x
    by_cases hk : k' = k
    · subst hk
      rw [Function.update_self, mem_insertAfter hp]
      simp [or_comm]
    · simp [hk]
  constructor
  · intro k'
    by_cases hk : k' = k
    · subst hk
      rw [Function.update_self]
      exact (h.ring k').insertAfter hp (hnr k') hq hnext hprev
    -- the pointers that change belong to the ring of `p`, or to `n`, which is on none
    · rw [Function.update_of_ne hk]
      refine (h.ring k').congr (fun y hy => ?_) fun y hy => ?_
      · have hyp : y ≠ p := fun e => hk (h.disjoint k' k y hy (e ▸ hp))
        have hyn : y ≠ n := fun e => hnr k' (e ▸ hy)
        rw [hnext, Function.update_of_ne hyp, Function.update_of_ne hyn]
      · have hyq : y ≠ q' := fun e => hk (h.disjoint k' k y hy (e ▸ hq'k))
        have hyn : y ≠ n := fun e => hnr k' (e ▸ hy)
        rw [hprev, Function.update_of_ne hyn, Function.update_of_ne hyq]
  · intro k'
    by_cases hk : k' = k
    · subst hk
      rw [Function.update_self, ← h.head k']
      cases rings k' with
      | nil => rfl
      | cons x l => simp only [Ring.insertAfter]; split <;> rfl
    · rw [Function.update_of_ne hk, h.head]
  · intro k1 k2 x h1 h2
    rw [hmem] at h1 h2
    rcases h1 with h1 | ⟨rfl, rfl⟩ <;> rcases h2 with h2 | ⟨rfl, e⟩
    · exact h.disjoint k1 k2 x h1 h2
    · exact absurd (e ▸ h1) (hnr k1)
    · exact absurd h2 (hnr k2)
    · rfl
  · intro x
    simp only [hmem]
    rw [hprev]
    by_cases hxn : x = n
    · subst hxn
      simp
    · by_cases hxq : x = q'
      · subst hxq
        have hm : ∃ k', x ∈ rings k' := ⟨k, hq'k⟩
        simp [hxn, hm]
      · rw [Function.update_of_ne hxn, Function.update_of_ne hxq, h.live]
        simp [hxn]

/-- Three take it out again. The head stays. -/
theorem erase (h : Family next prev hd rings) (hn : n ∈ rings k) (hns : n ≠ hd k)
    (hp : prev n = some p) (hq : next n = some q)
    (hnext : next' = Function.update next p (some q))
    (hprev : prev' = Function.update (Function.update prev n none) q (some p)) :
    Family next' prev' hd (Function.update rings k ((rings k).erase n)) := by
  obtain ⟨q', hqk, hlq⟩ := (h.ring k).exists_next hn
  obtain rfl : q' = q := Option.some.inj (hlq.1.symm.trans hq)
  obtain ⟨p', hpk, hlp⟩ := (h.ring k).exists_prev hn
  obtain rfl : p' = p := Option.some.inj (hlp.2.symm.trans hp)
  have hnd := (h.ring k).nodup
  -- a node that is not the head is not alone
  have hqn : q' ≠ n := h.next_ne hn hns hlq.1
  have hmem : ∀ k' x, x ∈ Function.update rings k ((rings k).erase n) k' ↔
      (x ∈ rings k' ∧ x ≠ n) := by
    intro k' x
    by_cases hk : k' = k
    · subst hk
      rw [Function.update_self, hnd.mem_erase_iff, and_comm]
    · rw [Function.update_of_ne hk]
      exact ⟨fun hx => ⟨hx, fun e => hk (h.disjoint k' k x hx (e ▸ hn))⟩, And.left⟩
  constructor
  · intro k'
    by_cases hk : k' = k
    · subst hk
      rw [Function.update_self]
      exact (h.ring k').erase hn (h.head k') hns hp hq hnext hprev
    · rw [Function.update_of_ne hk]
      refine (h.ring k').congr (fun y hy => ?_) fun y hy => ?_
      · have hyp : y ≠ p' := fun e => hk (h.disjoint k' k y hy (e ▸ hpk))
        rw [hnext, Function.update_of_ne hyp]
      · have hyq : y ≠ q' := fun e => hk (h.disjoint k' k y hy (e ▸ hqk))
        have hyn : y ≠ n := fun e => hk (h.disjoint k' k y hy (e ▸ hn))
        rw [hprev, Function.update_of_ne hyq, Function.update_of_ne hyn]
  · intro k'
    by_cases hk : k' = k
    · subst hk
      have hhead := h.head k'
      rw [Function.update_self]
      cases hr : rings k' with
      | nil => simp [hr] at hhead
      | cons x l =>
        rw [hr, List.head?_cons, Option.some.injEq] at hhead
        subst hhead
        rw [List.erase_cons_tail (by simpa using hns.symm), List.head?_cons]
    · rw [Function.update_of_ne hk, h.head]
  · intro k1 k2 x h1 h2
    exact h.disjoint k1 k2 x ((hmem k1 x).mp h1).1 ((hmem k2 x).mp h2).1
  · intro x
    simp only [hmem]
    rw [hprev]
    by_cases hxq : x = q'
    · subst hxq
      simp only [Function.update_self, ne_eq, reduceCtorEq, not_false_eq_true, true_iff]
      exact ⟨k, hqk, hqn⟩
    · by_cases hxn : x = n
      · subst hxn
        simp [Function.update_of_ne hxq]
      · rw [Function.update_of_ne hxq, Function.update_of_ne hxn, h.live]
        simp [hxn]

omit [DecidableEq α] in
/-- The ring of `k` read from the node behind its head on. -/
theorem rotate (h : Family next prev hd rings) (hr : rings k = x :: y :: l) :
    Family next prev (Function.update hd k y) (Function.update rings k (y :: l ++ [x])) := by
  have hmem : ∀ k' z, z ∈ Function.update rings k (y :: l ++ [x]) k' ↔ z ∈ rings k' := by
    intro k' z
    by_cases hk : k' = k
    · subst hk
      rw [Function.update_self, hr]
      simp only [List.mem_append, List.mem_cons, List.not_mem_nil, or_false]
      tauto
    · rw [Function.update_of_ne hk]
  constructor
  · intro k'
    by_cases hk : k' = k
    · subst hk
      rw [Function.update_self]
      exact IsRing.rotate (hr ▸ h.ring k')
    · rw [Function.update_of_ne hk]
      exact h.ring k'
  · intro k'
    by_cases hk : k' = k
    · subst hk
      rw [Function.update_self, Function.update_self]
      rfl
    · rw [Function.update_of_ne hk, Function.update_of_ne hk]
      exact h.head k'
  · intro k1 k2 z h1 h2
    exact h.disjoint k1 k2 z ((hmem k1 z).mp h1) ((hmem k2 z).mp h2)
  · intro z
    simp only [hmem]
    exact h.live z

/-- Unlinking any node that is not alone: where it is the head, the next one takes its place. -/
theorem exists_erase (h : Family next prev hd rings) (hn : n ∈ rings k) (halone : rings k ≠ [n])
    (hp : prev n = some p) (hq : next n = some q)
    (hnext : next' = Function.update next p (some q))
    (hprev : prev' = Function.update (Function.update prev n none) q (some p)) :
    ∃ hd', Family next' prev' hd' (Function.update rings k ((rings k).erase n)) ∧
      (n ≠ hd k → hd' = hd) := by
  by_cases hns : n = hd k
  · obtain ⟨y, l, hr⟩ : ∃ y l, rings k = n :: y :: l := by
      have hhead := h.head k
      cases hr : rings k with
      | nil => rw [hr] at hn; cases hn
      | cons x l =>
        rw [hr, List.head?_cons, ← hns, Option.some.injEq] at hhead
        subst hhead
        cases l with
        | nil => exact absurd hr halone
        | cons y l => exact ⟨y, l, rfl⟩
    have hnd : (n :: y :: l).Nodup := hr ▸ (h.ring k).nodup
    have hnotMem : n ∉ y :: l := (List.nodup_cons.mp hnd).1
    have hrotated := h.rotate hr
    have herased := hrotated.erase (k := k) (n := n) (by simp)
      (by rw [Function.update_self]; exact fun e => hnotMem (e ▸ List.mem_cons_self)) hp hq
      hnext hprev
    refine ⟨Function.update hd k y, ?_, fun hne => absurd hns hne⟩
    have herase : (y :: l ++ [n]).erase n = (rings k).erase n := by
      rw [List.erase_append_right _ hnotMem, hr]
      simp
    rw [Function.update_self, Function.update_idem, herase] at herased
    exact herased
  · exact ⟨hd, h.erase hn hns hp hq hnext hprev, fun _ => rfl⟩

end Family
end Family

/-- Putting a node in behind another and taking that one out puts it in its place. -/
theorem erase_insertAfter [DecidableEq α] (p n : α) (l : List α) :
    (insertAfter p n l).erase p = l.replace p n := by
  induction l with
  | nil => rfl
  | cons x l ih =>
    by_cases hx : x = p
    · simp [insertAfter, hx]
    · have hpx : (p == x) = false := beq_false_of_ne fun e => hx e.symm
      rw [insertAfter, if_neg hx, List.erase_cons_tail (by simpa using hx), ih, List.replace_cons,
        hpx]

end Ring
