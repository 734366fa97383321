import SepKernel.Lib.Transition

/-!
# A fair lock

A lock that is taken in turns, as its users see it: agents ask for it, the one that has waited
longest gets it when nobody has it, and the one that has it leaves. Nobody ever has it beside
another, and the agents enter in the order in which they asked, since there is no other way to move.
A lock made of counters and accesses is as good if every one of its steps is one of these or none.
-/

namespace FairLock

variable {ι : Type*}

/-- Who has left the lock, who has it and who waits for it, each in the order of asking. -/
structure State (ι : Type*) where
  left : List ι
  holder : Option ι
  waiting : List ι

/-- What an agent does to the lock. -/
inductive Label (ι : Type*) where
  | ask (a : ι)
  | enter (a : ι)
  | leave (a : ι)

/-- Who asks goes to the end of the queue, and only its head enters, once nobody is inside. -/
inductive Step : State ι → Label ι → State ι → Prop where
  | ask {left waiting : List ι} {holder : Option ι} (a : ι) :
      Step ⟨left, holder, waiting⟩ (.ask a) ⟨left, holder, waiting ++ [a]⟩
  | enter {left waiting : List ι} (a : ι) :
      Step ⟨left, none, a :: waiting⟩ (.enter a) ⟨left, some a, waiting⟩
  | leave {left waiting : List ι} (a : ι) :
      Step ⟨left, some a, waiting⟩ (.leave a) ⟨left ++ [a], none, waiting⟩

namespace State

variable {f : State ι} {a b : ι} {n : Nat}

/-- Nobody has ever asked. -/
def start : State ι := ⟨[], none, []⟩

/-- All that have entered, in the order of entering. -/
def entered (f : State ι) : List ι := f.left ++ f.holder.toList

/-- All that have asked, in the order of asking. -/
def asked (f : State ι) : List ι := f.entered ++ f.waiting

/-- First come, first served: whoever has entered did so in the order of asking. -/
theorem entered_prefix (f : State ι) : f.entered <+: f.asked := List.prefix_append _ _

variable {left waiting : List ι} {holder : Option ι}

theorem asked_ask : asked ⟨left, holder, waiting ++ [a]⟩ = asked ⟨left, holder, waiting⟩ ++ [a] :=
  (List.append_assoc _ _ _).symm

theorem entered_enter :
    entered ⟨left, some a, waiting⟩ = entered ⟨left, none, a :: waiting⟩ ++ [a] := by
  simp [entered]

/-- Entering is no asking. -/
theorem asked_enter :
    asked ⟨left, some a, waiting⟩ = asked ⟨left, none, a :: waiting⟩ := by
  simp [asked, entered]

/-- Leaving is no entering. -/
theorem entered_leave :
    entered ⟨left ++ [a], none, waiting⟩ = entered ⟨left, some a, waiting⟩ := by
  simp [entered]

theorem asked_leave :
    asked ⟨left ++ [a], none, waiting⟩ = asked ⟨left, some a, waiting⟩ :=
  congrArg (· ++ waiting) entered_leave

/-! ## Places -/

/-- The agent `a` waits and is the `n`-th to have asked, counted from 0. -/
def Place (f : State ι) (a : ι) (n : Nat) : Prop := f.entered.length ≤ n ∧ f.asked[n]? = some a

/-- The place of one who waits is the number of those who came before. -/
theorem place_iff : f.Place a n ↔ ∃ i, f.waiting[i]? = some a ∧ n = f.entered.length + i := by
  constructor
  · rintro ⟨hle, hn⟩
    rw [asked, List.getElem?_append_right hle] at hn
    exact ⟨n - f.entered.length, hn, by omega⟩
  · rintro ⟨i, hi, rfl⟩
    refine ⟨Nat.le_add_right _ _, ?_⟩
    rw [asked, List.getElem?_append_right (Nat.le_add_right _ _), Nat.add_sub_cancel_left]
    exact hi

/-- Only who waits has a place. -/
theorem exists_place_iff : (∃ n, f.Place a n) ↔ a ∈ f.waiting := by
  rw [List.mem_iff_getElem?]
  constructor
  · rintro ⟨n, hn⟩
    obtain ⟨i, hi, -⟩ := place_iff.mp hn
    exact ⟨i, hi⟩
  · rintro ⟨i, hi⟩
    exact ⟨_, place_iff.mpr ⟨i, hi, rfl⟩⟩

/-- All places are among those that have been given out. -/
theorem Place.lt (h : f.Place a n) : n < f.entered.length + f.waiting.length := by
  obtain ⟨i, hi, rfl⟩ := place_iff.mp h
  obtain ⟨hlt, -⟩ := List.getElem?_eq_some_iff.mp hi
  omega

/-- Whoever has the place after the last that has left is the next to enter. -/
theorem Place.first (h : f.Place a f.left.length) :
    f.holder = none ∧ ∃ rest, f.waiting = a :: rest := by
  obtain ⟨i, hi, hn⟩ := place_iff.mp h
  rw [entered, List.length_append] at hn
  obtain ⟨hholder, rfl⟩ : f.holder.toList.length = 0 ∧ i = 0 := by omega
  refine ⟨Option.toList_eq_nil_iff.mp (List.length_eq_zero_iff.mp hholder), ?_⟩
  exact List.head?_eq_some_iff.mp (List.head?_eq_getElem?.trans hi)

/-- Who asks gets a new place, and the others keep theirs. -/
theorem place_ask : Place ⟨left, holder, waiting ++ [b]⟩ a n ↔
    Place ⟨left, holder, waiting⟩ a n ∨ a = b ∧ n = (asked ⟨left, holder, waiting⟩).length := by
  rw [place_iff, place_iff, asked, List.length_append]
  constructor
  · rintro ⟨i, hi, rfl⟩
    rcases Nat.lt_trichotomy i waiting.length with hlt | rfl | hgt
    · rw [List.getElem?_append_left hlt] at hi
      exact Or.inl ⟨i, hi, rfl⟩
    · rw [List.getElem?_concat_length, Option.some.injEq] at hi
      exact Or.inr ⟨hi.symm, rfl⟩
    · have hout : (waiting ++ [b]).length ≤ i := by
        rw [List.length_append]
        exact hgt
      rw [List.getElem?_eq_none hout] at hi
      cases hi
  · rintro (⟨i, hi, rfl⟩ | ⟨rfl, rfl⟩)
    · obtain ⟨hlt, -⟩ := List.getElem?_eq_some_iff.mp hi
      exact ⟨i, by rwa [List.getElem?_append_left hlt], rfl⟩
    · exact ⟨waiting.length, List.getElem?_concat_length, rfl⟩

/-- The places of those who still wait do not change when the first enters. -/
theorem place_enter : Place ⟨left, none, b :: waiting⟩ a n ↔
    Place ⟨left, some b, waiting⟩ a n ∨ a = b ∧ n = left.length := by
  have hlength : (entered ⟨left, some b, waiting⟩).length =
      (entered ⟨left, none, b :: waiting⟩).length + 1 := by
    rw [entered_enter, List.length_append, List.length_singleton]
  have hleft : (entered ⟨left, none, b :: waiting⟩).length = left.length := by simp [entered]
  rw [place_iff, place_iff, hlength, hleft]
  constructor
  · rintro ⟨i, hi, rfl⟩
    cases i with
    | zero => exact Or.inr ⟨(Option.some.inj hi).symm, rfl⟩
    | succ i => exact Or.inl ⟨i, hi, by omega⟩
  · rintro (⟨i, hi, rfl⟩ | ⟨rfl, rfl⟩)
    · exact ⟨i + 1, hi, by omega⟩
    · exact ⟨0, rfl, rfl⟩

theorem place_leave : Place ⟨left ++ [b], none, waiting⟩ a n ↔
    Place ⟨left, some b, waiting⟩ a n := by
  rw [place_iff, place_iff, entered_leave]

end State
end FairLock
