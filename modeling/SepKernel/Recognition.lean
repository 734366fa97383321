import SepKernel.CapUpdate
import SepKernel.Descent

/-!
# Parents recognise their children

`cap_can_derive` lets a child be made, `derive_update_cap` writes down on the parent that it was,
and `cap_is_child` is how the parent finds it again when it revokes. The three agree on all words
whose range is in order: a new child is recognised, and no later derivation from the same parent
loses one that was. The update touches one field of the parent, `free` or, for a frame, `pmp`.
-/

namespace SepKernel

open Capability (CanDerive IsChild)

variable {p p' c d : Cap}

/-! ## One field -/

/-- The fields of a capability that record what it has handed out. -/
def CapType.freeOrPmp : CapType → List Field
  | .memory => [memoryFree, memoryPmp]
  | .time => [timeFree]
  | .channels => [channelsFree]
  | .supervisor => [supervisorFree]
  | _ => []

/-- The bit of a capability is one of the field. -/
def Field.Covers (f : Field) (inWord1 : Bool) (i : Nat) : Prop :=
  f.inWord1 = inWord1 ∧ f.offset ≤ i ∧ i < f.offset + f.bits

/-- Every bit in which the two differ is one of the field. -/
def Cap.ChangesOnly (f : Field) (p p' : Cap) : Prop :=
  ∀ i, (p'.word0.getLsbD i ≠ p.word0.getLsbD i → f.Covers false i) ∧
    (p'.word1.getLsbD i ≠ p.word1.getLsbD i → f.Covers true i)

/-- The update of a derivation leaves the parent as it is, or writes one of the fields that are
    there for it. -/
def Cap.UpdatesOne (p p' : Cap) : Prop :=
  p' = p ∨ ∃ ty f, capIsType p ty = true ∧ f ∈ ty.freeOrPmp ∧ p.ChangesOnly f p'

/-- A setter changes its field only. -/
theorem Field.changesOnly_set {f : Field} {v : Word} (hv : BitField.Fits f.bits v) :
    p.ChangesOnly f (f.set p v) := by
  intro i
  have hsame : (BitField.replace f.offset f.bits (f.word p) v).getLsbD i ≠
      (f.word p).getLsbD i → f.offset ≤ i ∧ i < f.offset + f.bits := by
    intro hne
    by_contra hi
    exact hne (BitField.getLsbD_replace_of_not_mem hv hi)
  cases hw : f.inWord1 with
  | true =>
    simp only [Field.set, Field.setWord, Field.word, hw, if_true] at hsame ⊢
    exact ⟨fun hne => absurd rfl hne, fun hne => ⟨hw, hsame hne⟩⟩
  | false =>
    simp only [Field.set, Field.setWord, Field.word, hw, Bool.false_eq_true, if_false] at hsame ⊢
    exact ⟨fun hne => ⟨hw, hsame hne⟩, fun hne => absurd rfl hne⟩

/-- A setter that returns has written its field of a capability of its type. -/
theorem Field.updatesOne_of_checkedSet {f : Field} {ty : CapType} {v : Word}
    (hf : f ∈ ty.freeOrPmp) (h : f.checkedSet ty p v = .ok p') : p.UpdatesOne p' := by
  simp only [Field.checkedSet, kassert_bind, checkFits_bind] at h
  obtain ⟨hty, hv, h⟩ := h
  obtain rfl := Except.ok.inj h
  exact Or.inr ⟨ty, f, hty, hf, Field.changesOnly_set hv⟩

theorem bind_ok_inv {α β : Type} {x : Except Halt α} {f : α → Except Halt β} {b : β}
    (h : x >>= f = .ok b) : ∃ a, x = .ok a ∧ f a = .ok b := by
  cases x with
  | error e => cases h
  | ok a => exact ⟨a, rfl, h⟩

/-- So has one whose value is computed first. -/
theorem Field.updatesOne_of_bind {α : Type} {f : Field} {ty : CapType} {x : Except Halt α}
    {g : α → Word} (hf : f ∈ ty.freeOrPmp) (h : (x >>= fun a => f.checkedSet ty p (g a)) = .ok p') :
    p.UpdatesOne p' := by
  obtain ⟨a, -, h⟩ := bind_ok_inv h
  exact Field.updatesOne_of_checkedSet hf h

/-- Whatever it returns, `derive_update_cap` has changed no more than that. -/
theorem deriveUpdateCap_updatesOne (h : deriveUpdateCap p d = .ok p') : p.UpdatesOne p' := by
  unfold deriveUpdateCap at h
  split at h
  · split at h
    · exact Field.updatesOne_of_bind (by simp [CapType.freeOrPmp]) h
    · exact Field.updatesOne_of_checkedSet (by simp [CapType.freeOrPmp]) h
  split at h
  · exact Field.updatesOne_of_bind (by simp [CapType.freeOrPmp]) h
  split at h
  · split at h
    · exact Field.updatesOne_of_bind (by simp [CapType.freeOrPmp]) h
    split at h
    · exact Field.updatesOne_of_bind (by simp [CapType.freeOrPmp]) h
    split at h
    · exact Field.updatesOne_of_bind (by simp [CapType.freeOrPmp]) h
    · cases h
  split at h
  · exact Or.inl (Except.ok.inj h).symm
  split at h
  · exact Or.inl (Except.ok.inj h).symm
  split at h
  · exact Field.updatesOne_of_bind (by simp [CapType.freeOrPmp]) h
  · cases h

/-! ## Recognition -/

/-- `begin <= free <= end`, whatever the type of the capability. -/
def Cap.Ordered (p : Cap) : Prop :=
  (capIsType p .memory = true →
    capMemoryGetBegin p ≤ capMemoryGetFree p ∧ capMemoryGetFree p ≤ capMemoryGetEnd p) ∧
  (capIsType p .time = true →
    capTimeGetBegin p ≤ capTimeGetFree p ∧ capTimeGetFree p ≤ capTimeGetEnd p) ∧
  (capIsType p .channels = true →
    capChannelsGetBegin p ≤ capChannelsGetFree p ∧ capChannelsGetFree p ≤ capChannelsGetEnd p) ∧
  (capIsType p .supervisor = true →
    capSupervisorGetBegin p ≤ capSupervisorGetFree p ∧
      capSupervisorGetFree p ≤ capSupervisorGetEnd p)

instance (p : Cap) : Decidable p.Ordered := inferInstanceAs (Decidable (_ ∧ _))

/-- The words in order are the capability in order. -/
theorem Cap.Ordered.view (h : p.Ordered) : p.view.Ordered := by
  obtain ⟨hmemory, htime, hchannels, hsupervisor⟩ := h
  cases hty : p.view.type? with
  | none => cases hv : p.view <;> first | trivial | (rw [hv] at hty; cases hty)
  | some ty =>
    have ht : capIsType p ty = true := Cap.isType_of_view hty
    rw [Cap.view_eq ht]
    cases ty with
    | memory => exact hmemory ht
    | time => exact htime ht
    | channels => exact hchannels ht
    | supervisor => exact hsupervisor ht
    | _ => trivial

/-- A derivation that is allowed ends with a parent that recognises the new child, and every child
    it recognised before; the update of the parent returns, and writes one field at most. -/
theorem derive_keeps_children (p c d : Cap) (hp : p.Ordered) :
    (capCanDerive p c = true →
      ∃ p', deriveUpdateCap p c = .ok p' ∧ capIsChild p' c = true ∧ p.UpdatesOne p') ∧
    (capIsChild p c = true → capCanDerive p d = true →
      ∃ p', deriveUpdateCap p d = .ok p' ∧ capIsChild p' c = true ∧ p.UpdatesOne p') := by
  constructor
  · intro hc
    obtain ⟨p', hp', hview⟩ := deriveUpdateCap_spec hc
    refine ⟨p', hp', capIsChild_iff.mpr ?_, deriveUpdateCap_updatesOne hp'⟩
    rw [hview]
    exact (canDerive_of_capCanDerive hc).isChild hp.view
  · intro hc hd
    obtain ⟨p', hp', hview⟩ := deriveUpdateCap_spec hd
    refine ⟨p', hp', capIsChild_iff.mpr ?_, deriveUpdateCap_updatesOne hp'⟩
    rw [hview]
    exact (isChild_of_capIsChild hc).derive_again (canDerive_of_capCanDerive hd)

/-- The channels of the root process, a receiver for the first and a server for the second. -/
def rootChannels : Cap := capMkChannels 0 30 0

/-- For channel 0, with the right to grant. -/
def firstReceiver : Cap := capMkReceiver 0 1

/-- For channel 1. -/
def secondServer : Cap := capMkServer 1 0

/-- The first channel is handed out. -/
def channelsAfterReceiver : Cap := capMkChannels 0 30 1

/-- The receiver is recognised after its derivation, and after that of the server. -/
theorem derive_keeps_children_channels :
    (∃ p', deriveUpdateCap rootChannels firstReceiver = .ok p' ∧
      capIsChild p' firstReceiver = true ∧ rootChannels.UpdatesOne p') ∧
    ∃ p', deriveUpdateCap channelsAfterReceiver secondServer = .ok p' ∧
      capIsChild p' firstReceiver = true ∧ channelsAfterReceiver.UpdatesOne p' :=
  ⟨(derive_keeps_children rootChannels firstReceiver secondServer (by decide)).1 (by decide),
    (derive_keeps_children channelsAfterReceiver firstReceiver secondServer (by decide)).2
      (by decide) (by decide)⟩

end SepKernel
