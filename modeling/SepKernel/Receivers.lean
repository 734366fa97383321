import SepKernel.Schedule

/-!
# The table of receivers

`receivers[ch][0]` is to be the process with the receiver or server capability for a channel, and
`receivers[ch][1]` the client that waits for a reply. As with the schedule, the first is right as
long as no receiver or server capability is deleted: the hook of `syscall_delete_cap` finds a deleted
node and leaves the table as it is.
-/

namespace SepKernel

open Capability (CanDerive)
open Exclusive (Excl)
open OwnerTable (Tracks Names Covered)
open Transition (Reachable Steps)

variable {cfg : Config} {s t : Kernel} {st st' : System} {l : Label} {H : Holdings} {p ch : Nat}
  {c : Capability} {user : Reg → Word}

/-! ## The share of receivers and servers -/

/-- The channel a capability receives on. -/
def Capability.receives : Capability → Set Nat
  | .receiver ch _ => {ch}
  | .server ch _ => {ch}
  | _ => ∅

/-- The channel of a receiver or a server is its own. -/
theorem owned_of_receives (h : ch ∈ c.receives) : .channel ch ∈ c.owned := by
  cases c with
  | receiver ch' g => exact congrArg Resource.channel h
  | server ch' g => exact congrArg Resource.channel h
  | _ => exact absurd h (Set.notMem_empty _)

/-- Derivation divides who receives. -/
theorem share_receives : Share Capability.receives where
  other := rfl
  derive := by
    intro p c ch hcan _
    cases hcan <;> exact Iff.rfl

/-- So nobody receives for another. -/
theorem excl_receives (hex : Excl fun n => (H n).owned) : Excl fun n => (H n).receives :=
  Exclusive.excl_of_eq fun _ _ _ hi hj => hex.eq (owned_of_receives hi) (owned_of_receives hj)

/-- By the words: a receiver or a server capability for the channel. -/
def Cap.Receives (cap : Cap) (ch : Nat) : Prop :=
  (capIsType cap .receiver = true ∧ (capReceiverGetChannel cap).toNat = ch) ∨
    (capIsType cap .server = true ∧ (capServerGetChannel cap).toNat = ch)

instance (cap : Cap) (ch : Nat) : Decidable (cap.Receives ch) :=
  inferInstanceAs (Decidable (_ ∨ _))

/-- In words and in abstract capabilities. -/
theorem Cap.receives_iff {cap : Cap} : cap.Receives ch ↔ ch ∈ cap.view.receives := by
  constructor
  · rintro (⟨ht, rfl⟩ | ⟨ht, rfl⟩)
    · rw [Cap.view_eq ht]
      rfl
    · rw [Cap.view_eq ht]
      rfl
  · intro h
    cases hv : cap.view with
    | receiver ch' g =>
      have ht : capIsType cap .receiver = true := Cap.isType_of_view (by rw [hv]; rfl)
      rw [Cap.view_eq ht] at h
      exact Or.inl ⟨ht, h.symm⟩
    | server ch' g =>
      have ht : capIsType cap .server = true := Cap.isType_of_view (by rw [hv]; rfl)
      rw [Cap.view_eq ht] at h
      exact Or.inr ⟨ht, h.symm⟩
    | _ =>
      rw [hv] at h
      exact absurd h (Set.notMem_empty _)

/-! ## What a step writes -/

/-- The hook enters the process. -/
theorem assign_receivers_of_mem (h : ch ∈ c.receives) :
    (s.assign cfg p c).receivers ch 0 = some p := by
  cases c with
  | receiver ch' g =>
    obtain rfl := h
    simp [Kernel.assign, Kernel.setReceiver]
  | server ch' g =>
    obtain rfl := h
    simp [Kernel.assign, Kernel.setReceiver]
  | _ => exact absurd h (Set.notMem_empty _)

/-- And changes no other channel. -/
theorem assign_receivers_of_not_mem (h : ch ∉ c.receives) {k : Fin 2} :
    (s.assign cfg p c).receivers ch k = s.receivers ch k := by
  cases c with
  | receiver ch' g => simp [Kernel.assign, Kernel.setReceiver, show ch ≠ ch' from h]
  | server ch' g => simp [Kernel.assign, Kernel.setReceiver, show ch ≠ ch' from h]
  | _ => rfl

/-- Receivers are written as capabilities move. -/
theorem step_writes_receives (hg : st.Good cfg) (hs : Step cfg st l st') :
    (stepOp cfg st l).Writes st.kernel.held Capability.receives Set.univ
      (fun ch => st.kernel.receivers ch 0) (fun ch => st'.kernel.receivers ch 0) := by
  have hrec := (step_tables hg hs).2
  rw [CapOp.Writes]
  cases hop : (stepOp cfg st l).assigned st.kernel.held with
  | none =>
    intro ch _
    rw [hrec, CapOp.onTables, hop]
  | some pc =>
    simp only [hrec, CapOp.onTables, hop]
    exact ⟨fun ch _ h => assign_receivers_of_mem h, fun ch _ h => assign_receivers_of_not_mem h⟩

/-- Nobody is ever taken off the table. -/
theorem step_receivers_none (hg : st.Good cfg) (hs : Step cfg st l st')
    (h : st'.kernel.receivers ch 0 = none) : st.kernel.receivers ch 0 = none := by
  rcases (step_writes_receives hg hs).cases (r := ch) trivial with hsame | ⟨p, -, -, hp⟩
  · exact hsame.symm.trans h
  · cases h.symm.trans hp

/-! ## Whom the channels reply to -/

theorem replyTo_some (h : replyTo cfg s p user = some ch) : (user .t0).toNat = 6 ∧
    (∃ g, invoked cfg s p user = .client ch g) ∧ (acquired s ch 0).isSome := by
  unfold replyTo at h
  split at h
  · next h6 =>
    refine ⟨h6, ?_⟩
    cases hc : invoked cfg s p user with
    | client ch' g =>
      rw [hc, invokeReplyTo] at h
      split at h
      · next hacq =>
        obtain rfl := Option.some.inj h
        exact ⟨⟨g, rfl⟩, hacq⟩
      · cases h
    | _ => rw [hc] at h; cases h
  · cases h

/-- A step leaves the reply slot of a channel alone, or it is a client's call that finds the slot
    empty. -/
theorem step_replies (hg : st.Good cfg) (hs : Step cfg st l st') (ch : Nat) :
    st'.kernel.receivers ch 1 = st.kernel.receivers ch 1 ∨
      st.kernel.receivers ch 1 = none ∧ ∃ h user p, l = .ecall h user ∧ st.current h = some p ∧
        replyTo cfg st.kernel p user = some ch ∧ st'.kernel.receivers ch 1 = some p := by
  cases step_effect hg hs with
  | @call h p user out k hcur hrun heff =>
    rw [finish_kernel, heff.replies ch]
    split
    · next hreply => exact Or.inr ⟨hreply.2, h, user, p, rfl, hcur, hreply.1, rfl⟩
    · exact Or.inl rfl
  | timer hcur hown => exact Or.inl (hown.replies ch)
  | exception hcur hown => exact Or.inl (hown.replies ch)
  | idle => exact Or.inl rfl
  | dispatch => exact Or.inl rfl

theorem acquired_isSome (h : (acquired s ch 0).isSome) : s.receivers ch 0 ≠ none := by
  obtain ⟨q, hq⟩ := Option.isSome_iff_exists.mp h
  rw [(acquired_state hq).1]
  exact Option.some_ne_none q

/-- A channel without a receiver has nobody to reply to. -/
theorem replies_none (hr : Reachable (Booted cfg) (Step cfg) st)
    (h : st.kernel.receivers ch 0 = none) : st.kernel.receivers ch 1 = none := by
  refine (hr.invariant (I := fun s => s.Good cfg ∧
    (s.kernel.receivers ch 0 = none → s.kernel.receivers ch 1 = none)) (fun s hs => ?_)
    fun s l s' hI hl => ⟨step_good hI.1 hl, fun h0 => ?_⟩).2 h
  · obtain ⟨rootPayload, hb⟩ := hs.state
    refine ⟨hs.root.good, fun _ => ?_⟩
    rw [hb.receivers]
  · have h0 := step_receivers_none hI.1 hl h0
    rcases step_replies hI.1 hl ch with heq | ⟨-, h, user, p, -, -, hreply, -⟩
    · rw [heq]
      exact hI.2 h0
    · exact absurd h0 (acquired_isSome (replyTo_some hreply).2.2)

/-! ## The names -/

/-- The receiving end of a channel is who holds it, and a channel without one has no client either. -/
def Kernel.ReceiversAgree (cfg : Config) (s : Kernel) : Prop :=
  ∀ ch, ch < cfg.nChannels →
    (∀ p, s.receivers ch 0 = some p ↔
      ∃ i, s.Live (.slot p i) ∧ (s.caps (.slot p i)).Receives ch) ∧
    ((∀ p i, s.Live (.slot p i) → ¬ (s.caps (.slot p i)).Receives ch) →
      s.receivers ch 0 = none ∧ s.receivers ch 1 = none)

/-- A process receives if one of its slots does. -/
theorem exists_receives_iff :
    (∃ i, s.Live (.slot p i) ∧ (s.caps (.slot p i)).Receives ch) ↔
      ∃ n, NodeRef.proc n = p ∧ ch ∈ (s.held n).receives := by
  have hne : ∀ {n}, ch ∈ (s.held n).receives → s.held n ≠ .other := fun {n} hn he => by
    rw [he] at hn
    exact Set.notMem_empty _ hn
  constructor
  · rintro ⟨i, hl, hr⟩
    exact ⟨.slot p i, rfl, by rwa [held_of_live hl, ← Cap.receives_iff]⟩
  · rintro ⟨n, rfl, hn⟩
    obtain ⟨p, i, rfl, hl, he⟩ := live_of_held (hne hn)
    refine ⟨i, hl, Cap.receives_iff.mpr ?_⟩
    rwa [he] at hn

/-- The step deletes no receiver and no server capability. -/
def KeepsReceivers (cfg : Config) (s : System) (l : Label) : Prop :=
  ∀ pid i, stepOp cfg s l = .delete pid i →
    capIsType (s.kernel.caps (.slot pid i)) .receiver = false ∧
      capIsType (s.kernel.caps (.slot pid i)) .server = false

/-- A step that deletes no receiver spares those that are. -/
theorem spares_receives (hop : KeepsReceivers cfg st l) :
    (stepOp cfg st l).Spares st.kernel.held Capability.receives := by
  unfold KeepsReceivers at hop
  generalize stepOp cfg st l = op at hop
  cases op with
  | delete pid i =>
    refine Set.eq_empty_iff_forall_notMem.mpr fun ch hch => ?_
    obtain ⟨hr, hs⟩ := hop pid i rfl
    have hne : st.kernel.held (.slot pid i) ≠ .other := fun he => by
      rw [he] at hch
      exact Set.notMem_empty _ hch
    obtain ⟨pid', i', hslot, -, he⟩ := live_of_held hne
    obtain ⟨rfl, rfl⟩ := NodeRef.slot.inj hslot
    rw [he, ← Cap.receives_iff] at hch
    rcases hch with ⟨ht, -⟩ | ⟨ht, -⟩
    · rw [hr] at ht
      cases ht
    · rw [hs] at ht
      cases ht
  | _ => trivial

/-- After boot nobody receives. -/
theorem BootState.receives {rootPayload : Word} (hb : BootState cfg rootPayload st) (n : NodeRef) :
    ch ∉ (st.kernel.held n).receives := by
  cases n with
  | sentinel k => exact Set.notMem_empty _
  | slot p i =>
    rw [hb.held]
    split
    · match i with
      | 0 | 1 | 2 | _ + 3 => exact Set.notMem_empty _
    · exact Set.notMem_empty _

/-- In every reachable state whoever holds the receiver or the server of a channel is its
    receiver. -/
theorem names_of_reachable (hr : Reachable (Booted cfg) (Step cfg) st) :
    Names Set.univ NodeRef.proc (fun n => (st.kernel.held n).receives)
      (fun ch => st.kernel.receivers ch 0) := by
  refine (hr.invariant (I := fun s => s.Good cfg ∧ Excl (fun n => (s.kernel.held n).owned) ∧
    Names Set.univ NodeRef.proc (fun n => (s.kernel.held n).receives)
      (fun ch => s.kernel.receivers ch 0)) (fun s hs => ?_) fun s l s' hI hl => ?_).2.2
  · obtain ⟨rootPayload, hb⟩ := hs.state
    exact ⟨hs.root.good, hs.root.exclusive, fun ch _ n hn => absurd hn (hb.receives n)⟩
  · obtain ⟨hg, hex, hn⟩ := hI
    obtain ⟨he, heq⟩ := step_held hg hl
    rw [heq]
    exact ⟨step_good hg hl, he.excl hex,
      he.names share_receives (excl_receives (he.excl hex)) (step_writes_receives hg hl) hn⟩

/-- And names nobody else, as long as none is deleted. -/
theorem receiversAgree_of_reachable
    (h : Reachable (Booted cfg) (Transition.restrict (Step cfg) (KeepsReceivers cfg)) st) :
    st.kernel.ReceiversAgree cfg := by
  have hr := h.unrestrict
  have hcov : Covered Set.univ (fun n => (st.kernel.held n).receives)
      (fun ch => st.kernel.receivers ch 0) := by
    refine (h.invariant (I := fun s => s.Good cfg ∧ Covered Set.univ
      (fun n => (s.kernel.held n).receives) (fun ch => s.kernel.receivers ch 0))
      (fun s hs => ?_) fun s l s' hI hl => ?_).2
    · obtain ⟨rootPayload, hb⟩ := hs.state
      refine ⟨hs.root.good, fun ch _ hch => ?_⟩
      rw [hb.receivers] at hch
      exact absurd rfl hch
    · obtain ⟨he, heq⟩ := step_held hI.1 hl.1
      rw [heq]
      exact ⟨step_good hI.1 hl.1, he.covered share_receives (spares_receives hl.2)
        (step_writes_receives hI.1 hl.1) hI.2⟩
  have htr := OwnerTable.tracks_iff.mpr ⟨names_of_reachable hr, hcov⟩
  intro ch _
  refine ⟨fun p => (htr ch trivial p).trans exists_receives_iff.symm, fun hnone => ?_⟩
  have h0 : st.kernel.receivers ch 0 = none := by
    by_contra h0
    obtain ⟨n, hn⟩ := hcov ch trivial h0
    obtain ⟨i, hl, hi⟩ := exists_receives_iff.mpr ⟨n, rfl, hn⟩
    exact hnone _ i hl hi
  exact ⟨h0, replies_none hr h0⟩

/-- The channel of a receiver or server is lost with it, and the table still names its holder. -/
theorem lost_of_not_keepsReceivers (hr : Reachable (Booted cfg) (Step cfg) st)
    (hs : Step cfg st l st') (hop : ¬ KeepsReceivers cfg st l) :
    ∃ ch, ch < cfg.nChannels ∧ st'.kernel.receivers ch 0 ≠ none ∧
      ∀ n, .channel ch ∉ (st'.kernel.held n).owned := by
  have hroot : Reachable (RootState cfg) (Step cfg) st := hr.imp fun _ h => ⟨h.1.root, h.2⟩
  have hg : st.Good cfg := good_of_reachable (fun _ => id) hroot
  have hex := excl_of_reachable hroot
  obtain ⟨he, heq⟩ := step_held hg hs
  have hw := step_writes_receives hg hs
  simp only [KeepsReceivers, not_forall] at hop
  obtain ⟨pid, i, hdel, ht⟩ := hop
  rw [hdel] at he heq hw
  obtain ⟨pid', i', hslot, hl, hheld⟩ := live_of_held he
  obtain ⟨rfl, rfl⟩ := NodeRef.slot.inj hslot
  have hrcv : ∃ ch, (st.kernel.caps (.slot pid i)).Receives ch := by
    simp only [not_and_or, Bool.not_eq_false] at ht
    exact ht.elim (fun h => ⟨_, Or.inl ⟨h, rfl⟩⟩) fun h => ⟨_, Or.inr ⟨h, rfl⟩⟩
  obtain ⟨ch, hch⟩ := hrcv
  rw [Cap.receives_iff, ← hheld] at hch
  refine ⟨ch, ?_, ?_, fun n hn => ?_⟩
  · have hv := held_valid hg.kernel he
    generalize st.kernel.held (.slot pid i) = c at hv hch
    cases c with
    | receiver ch' g => exact hch ▸ hv.2
    | server ch' g => exact hch ▸ hv.2
    | _ => exact absurd hch (Set.notMem_empty _)
  · have hname : st.kernel.receivers ch 0 = some pid := names_of_reachable hr ch trivial _ hch
    -- the deletion of a receiver or server calls no hook
    rw [show st'.kernel.receivers ch 0 = st.kernel.receivers ch 0 from hw ch trivial, hname]
    exact Option.some_ne_none _
  · rw [heq, CapOp.onHeld] at hn
    by_cases hni : n = .slot pid i
    · rw [hni, Function.update_self] at hn
      exact Set.notMem_empty _ hn
    · rw [Function.update_of_ne hni] at hn
      exact hni (hex.eq hn (owned_of_receives hch))

/-- The table of receivers agrees with the capabilities in every state of a run as long as no
    receiver or server is deleted, and never again in the run once one has been. -/
theorem receivers_agree_unless_deleted (cfg : Config) :
    (∀ s, Reachable (Booted cfg) (Transition.restrict (Step cfg) (KeepsReceivers cfg)) s →
      s.kernel.ReceiversAgree cfg) ∧
    ∀ s l s' t, Reachable (Booted cfg) (Step cfg) s → Step cfg s l s' →
      ¬ KeepsReceivers cfg s l → Steps (Step cfg) s' t → ¬ t.kernel.ReceiversAgree cfg := by
  refine ⟨fun s => receiversAgree_of_reachable, fun s l s' t hr hs hop ht ha => ?_⟩
  obtain ⟨ch, hch, hne, hlost⟩ := lost_of_not_keepsReceivers hr hs hop
  have hg' : s'.Good cfg := good_of_reachable (fun _ => Booted.root) (hr.step hs)
  have hstays : t.kernel.receivers ch 0 ≠ none := by
    refine (ht.invariant (I := fun s => s.Good cfg ∧ s.kernel.receivers ch 0 ≠ none)
      (fun s l s' hI hl => ⟨step_good hI.1 hl, fun h0 => ?_⟩) ⟨hg', hne⟩).2
    exact hI.2 (step_receivers_none hI.1 hl h0)
  obtain ⟨p, hp⟩ := Option.ne_none_iff_exists'.mp hstays
  obtain ⟨n, -, hn⟩ := exists_receives_iff.mp (((ha ch hch).1 p).mp hp)
  obtain ⟨m, hm, -⟩ := drawnFrom_of_steps hg' ht n _ (owned_of_receives hn)
  exact hlost m hm

/-- The root process derives a receiver for channel 0 and deletes it. -/
def virtDeletesReceiver : List Label :=
  [.schedule 1 0,
   .ecall 1 (callRegs 5 1 10 (capMkReceiver 0 1).word0 (capMkReceiver 0 1).word1 0 0),
   .ecall 1 (callRegs 3 10 0 0 0 0 0)]

/-- The root process still receives what is sent on the channel, with no capability to receive on
    it. -/
theorem deleted_receiver_receives :
    ∃ s, Reachable (Booted .virt) (Step .virt) s ∧ ¬ s.kernel.ReceiversAgree .virt := by
  refine ⟨virtAfter virtDeletesReceiver, virtAfter_reachable _, fun h => ?_⟩
  obtain ⟨i, hl, hrcv⟩ := ((h 0 (by decide)).1 0).mp (by decide +kernel)
  have hg := good_of_reachable (fun _ => Booted.root) (virtAfter_reachable virtDeletesReceiver)
  have hnone : ∀ i < 64, ¬ ((virtAfter virtDeletesReceiver).kernel.Live (.slot 0 i) ∧
      ((virtAfter virtDeletesReceiver).kernel.caps (.slot 0 i)).Receives 0) := by
    decide +kernel
  exact hnone i (hg.kernel.bounds 0 i hl).2 ⟨hl, hrcv⟩

end SepKernel
