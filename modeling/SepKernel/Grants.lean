import SepKernel.Deliveries

/-!
# Passing capabilities on

A capability gets from the table of one process into that of another in two ways: a supervisor
gives it or takes it, or it goes with a message. The capability by which the message is sent has a
field for the right to do so, which derivation hands down and nothing else ever reads.
-/

namespace SepKernel

open Transition (Reachable)

variable {cfg : Config} {s s' t : Kernel} {st st' : System} {l : Label} {op : CapOp}
  {p q r ch i j : Nat} {user : Reg → Word}

/-- The capability in slot `i` of `q` leaves, and is in slot `j` of `r`, which was free. -/
structure Passes (s t : Kernel) (q i r j : Nat) : Prop where
  live : s.Live (.slot q i)
  left : ¬ t.Live (.slot q i)
  free : ¬ s.Live (.slot r j)
  entered : t.Live (.slot r j)
  caps : t.caps (.slot r j) = s.caps (.slot q i)

/-- The calls of `p` by which a capability gets from `q` to `r`. -/
inductive PassedBy (cfg : Config) (s : Kernel) (p : Nat) (user : Reg → Word) (q r : Nat) :
    Prop where
  | give {u : Span} (hnr : (user .t0).toNat = 6) (hinv : invoked cfg s p user = .supervisor u)
      (hop : (user .a2).toNat = 6) (hq : q = p) (hr : supervisee user u = some r)
  | take {u : Span} (hnr : (user .t0).toNat = 6) (hinv : invoked cfg s p user = .supervisor u)
      (hop : (user .a2).toNat = 7) (hq : supervisee user u = some q) (hr : r = p)
  | message {ch : Nat} (hnr : (user .t0).toNat = 6)
      (hvia : MessageVia s r ch (invoked cfg s p user)) (hq : q = p)
      (hsrc : (user .a5).toNat < cfg.nCaps)
      (hdest : ((s.procs r).regs .destCidx).toNat < cfg.nCaps)

/-- Only the tables matter. -/
theorem Passes.congr {t' : Kernel} (h : Passes s t q i r j) (hs : SameCaps cfg s' s)
    (ht : SameCaps cfg t t') : Passes s' t' q i r j where
  live := hs.live.mp h.live
  left := mt ht.live.mp h.left
  free := mt hs.live.mpr h.free
  entered := ht.live.mpr h.entered
  caps := by rw [ht.caps, h.caps, hs.caps]

/-- A capability that moves goes from one node to the other, and no other does. -/
theorem Passes.of_moved {src dst : NodeRef} (h : Passes s t q i r j)
    (hlive : ∀ {m}, t.Live m ↔ m = dst ∨ m ≠ src ∧ s.Live m) :
    src = .slot q i ∧ dst = .slot r j := by
  constructor
  · by_contra hne
    exact h.left (hlive.mpr (Or.inr ⟨Ne.symm hne, h.live⟩))
  · exact ((hlive.mp h.entered).resolve_right fun hr => h.free hr.2).symm

/-- Only a transfer lets a capability pass between processes. -/
theorem CapStep.eq_transfer (h : CapStep cfg s op t) (hqr : q ≠ r) (hp : Passes s t q i r j) :
    op = .transfer q i r j := by
  cases h with
  | skip => exact absurd hp.live hp.left
  | derive hpid hj hsrc hdst hcan hpar hr =>
    exact absurd ((Kernel.live_deriveNode (live_of_linked hr)).mpr (Or.inr hp.live)) hp.left
  | move hpid hj hsrc hdst ha hr hne =>
    obtain ⟨h1, h2⟩ := hp.of_moved
      (Kernel.live_moveNode (live_of_linked hr) fun e => hdst (e ▸ hsrc))
    cases h1
    cases h2
    exact absurd rfl hqr
  | transfer hpid hj hsrc hdst hex ha hr hne =>
    obtain ⟨h1, h2⟩ := hp.of_moved
      (Kernel.live_handOver (live_of_linked hr) fun e => hdst (e ▸ hsrc))
    cases h1
    cases h2
    rfl
  | delete hsrc hex ha hr hne =>
    exact absurd ((Kernel.live_spliceOut (live_of_linked hr) hne).mp hp.entered).2 hp.free
  | wipe => exact absurd ((Kernel.live_congr (by simp)).mp hp.entered) hp.free

/-- A transfer is a supervisor's or goes with a message. -/
theorem CapRequest.passedBy (h : CapRequest cfg s p user (.transfer q i r j)) :
    PassedBy cfg s p user q r := by
  cases h with
  | give hnr hinv hq hst hop => exact .give hnr hinv hop rfl hq
  | take hnr hinv hq hst hop => exact .take hnr hinv hop hq rfl
  | message hnr hvia hsrc hdest => exact .message hnr hvia rfl hsrc hdest

/-- And nothing else takes a capability from one process to another. -/
theorem step_passedBy (hg : st.Good cfg) (hs : Step cfg st l st') (hqr : q ≠ r)
    (hp : Passes st.kernel st'.kernel q i r j) :
    ∃ p user, Calls st l p user ∧ PassedBy cfg st.kernel p user q r := by
  obtain ⟨s', t', h1, h2, h3⟩ := step_caps hg hs
  have hop : stepOp cfg st l = .transfer q i r j := by
    refine h2.eq_transfer hqr ⟨h1.live.mpr hp.live, mt h3.live.mpr hp.left, mt h1.live.mp hp.free,
      h3.live.mp hp.entered, ?_⟩
    rw [← h3.caps, hp.caps, h1.caps]
  have hreach : (stepOp cfg st l).Reaches q := by
    rw [hop]
    exact Or.inl rfl
  obtain ⟨p, user, hcall, hreq⟩ := stepOp_request hreach
  rw [hop] at hreq
  exact ⟨p, user, hcall, hreq.passedBy⟩

/-! ## With a message -/

/-- The operation of a step is that of its call. -/
theorem stepOp_of_calls (hcall : Calls st l p user) :
    stepOp cfg st l = capOp cfg st.kernel p user := by
  obtain ⟨hart, rfl, hcur⟩ := hcall
  rw [stepOp, hcur, Option.map_some, Option.getD_some]

/-- A transfer empties one slot and fills the other. -/
theorem CapStep.passes (h : CapStep cfg s (.transfer q i r j) t) : Passes s t q i r j := by
  cases h with
  | @transfer _ _ _ _ a b hpid hj hsrc hdst hex ha hr hne =>
    have hds : (.slot r j : NodeRef) ≠ .slot q i := fun e => hdst (e ▸ hsrc)
    have hlive : ∀ {m}, (s.handOver cfg r (.slot q i) (.slot r j) a b).Live m ↔
        m = .slot r j ∨ m ≠ .slot q i ∧ s.Live m := Kernel.live_handOver (live_of_linked hr) hds
    refine ⟨hsrc, fun h => ?_, hdst, hlive.mpr (Or.inl rfl), ?_⟩
    · exact (hlive.mp h).elim (fun e => hds e.symm) fun h => h.1 rfl
    · rw [Kernel.caps_handOver, Function.update_self]

/-- What a message takes along is taken from the sender and gets to the receiver. -/
theorem message_passes (hg : st.Good cfg) (hs : Step cfg st l st')
    (hm : Messages cfg st l p q ch user) (hsend : SendsCap cfg st.kernel p q user) :
    Passes st.kernel st'.kernel p (slotOf cfg (user .a5)) q
      (slotOf cfg ((st.kernel.procs q).regs .destCidx)) := by
  obtain ⟨hcall, hnr, hvia⟩ := hm
  obtain ⟨s', t', h1, h2, h3⟩ := step_caps hg hs
  rw [stepOp_of_calls hcall, capOp_of_via hnr hvia, hsend.deliverOp] at h2
  exact h2.passes.congr h1 h3

/-- A call for a message that takes nothing along changes no table. -/
theorem ipc_sameSlots (hg : st.Good cfg) (hs : Step cfg st l st') (hipc : IpcCall cfg st l p)
    (hno : ∀ q ch user, Messages cfg st l p q ch user → ¬ SendsCap cfg st.kernel p q user) :
    ∀ r, SameSlots st.kernel st'.kernel r := by
  obtain ⟨user, ch, g, hcall, hnr, hinv⟩ := hipc
  intro r
  refine step_sameSlots hg hs fun hreach => ?_
  obtain ⟨p', user', hcall', hreq⟩ := stepOp_request hreach
  obtain ⟨rfl, rfl⟩ := hcall.unique hcall'
  generalize hop : stepOp cfg st l = op at hreq hreach
  cases hreq with
  | skip => exact hreach
  | @message q ch' _ hvia =>
    rw [stepOp_of_calls hcall, capOp_of_via hnr hvia,
      deliverOp_of_not_sendsCap (hno q ch' _ ⟨hcall, hnr, hvia⟩)] at hop
    cases hop
  | move hnr' => rw [hnr] at hnr'; cases hnr'
  | delete hnr' => rw [hnr] at hnr'; cases hnr'
  | revoke hnr' => rw [hnr] at hnr'; cases hnr'
  | derive hnr' => rw [hnr] at hnr'; cases hnr'
  | give _ hsup => rw [hsup] at hinv; rcases hinv with h | h | h | h <;> cases h
  | take _ hsup => rw [hsup] at hinv; rcases hinv with h | h | h | h <;> cases h

/-- A call for a message that takes nothing along does not stop in an assert. -/
theorem IpcCall.exists_step (hg : st.Good cfg) (hipc : IpcCall cfg st l p)
    (hno : ∀ q ch user, Messages cfg st l p q ch user → ¬ SendsCap cfg st.kernel p q user) :
    ∃ st', Step cfg st l st' := by
  obtain ⟨user, ch, g, ⟨hart, rfl, hcur⟩, hnr, hinv⟩ := hipc
  have hrun : ¬ CallHangs cfg st.kernel p user := by
    intro hhang
    have hreq : CapRequest cfg st.kernel p user (capOp cfg st.kernel p user) := capOp_request
    rw [CallHangs] at hhang
    generalize hop : capOp cfg st.kernel p user = op at hhang hreq
    cases hreq with
    | @message q ch' _ hvia =>
      rw [capOp_of_via hnr hvia,
        deliverOp_of_not_sendsCap (hno q ch' user ⟨⟨hart, rfl, hcur⟩, hnr, hvia⟩)] at hop
      cases hop
    | delete hnr' => rw [hnr] at hnr'; cases hnr'
    | revoke hnr' => rw [hnr] at hnr'; cases hnr'
    | give _ hsup => rw [hsup] at hinv; rcases hinv with h | h | h | h <;> cases h
    | take _ hsup => rw [hsup] at hinv; rcases hinv with h | h | h | h <;> cases h
    | _ => exact hhang.elim
  obtain ⟨st', hs, -⟩ := (step_ecall user hg hcur).2 hrun
  exact ⟨st', hs⟩

/-- In every reachable state: a capability passes from one process to another only because a
    supervisor gives or takes it or because it goes with a message. It does go with a message,
    whatever the grant of the capability invoked, if the two indexes name a capability and a free
    slot and the capability is no exhausted time capability. A call for a message that passes
    nothing on ends, and changes no table. -/
theorem capability_passes_by (hr : Reachable (Booted cfg) (Step cfg) st) :
    (∀ l st' q i r j, Step cfg st l st' → q ≠ r → Passes st.kernel st'.kernel q i r j →
      ∃ p user, Calls st l p user ∧ PassedBy cfg st.kernel p user q r) ∧
    (∀ l p q ch user, Messages cfg st l p q ch user → SendsCap cfg st.kernel p q user →
      ¬ SendsExhausted cfg st.kernel p q user → ∃ st', Step cfg st l st' ∧
        Passes st.kernel st'.kernel p (slotOf cfg (user .a5)) q
          (slotOf cfg ((st.kernel.procs q).regs .destCidx))) ∧
    ∀ l p, IpcCall cfg st l p →
      (∀ q ch user, Messages cfg st l p q ch user → ¬ SendsCap cfg st.kernel p q user) →
        ∃ st', Step cfg st l st' ∧ ∀ r, SameSlots st.kernel st'.kernel r := by
  have hg : st.Good cfg := good_of_reachable (fun _ => Booted.root) hr
  refine ⟨fun l st' q i r j hs hqr hp => step_passedBy hg hs hqr hp,
    fun l p q ch user hm hsend hex => ?_, fun l p hipc hno => ?_⟩
  · obtain ⟨st', hs⟩ := step_of_not_sendsExhausted hg hm hex
    exact ⟨st', hs, message_passes hg hs hm hsend⟩
  · obtain ⟨st', hs⟩ := hipc.exists_step hg hno
    exact ⟨st', hs, ipc_sameSlots hg hs hipc hno⟩

/-- Process 1 waits for what the root process sends, with slot 5 for a capability; neither end of
    the channel has the right to grant. -/
def virtGrantless : System := virtAfter
  (virtStartsOther (capMkReceiver 0 0) (capMkSender 0 0) 10 ++
    [.ecall 2 (callRegs 9 34 5 0 0 0 0), .ecall 2 (callRegs 6 0 0 0 0 0 0)])

/-- It sends slot 1 along. -/
def virtGrants : System := virtGrantless.after .virt [.ecall 1 (callRegs 6 11 7 8 9 10 1)]

/-- Here the call ends. -/
theorem virtGrants_step : Step .virt virtGrantless (.ecall 1 (callRegs 6 11 7 8 9 10 1))
    virtGrants := after_step (by decide +kernel)

/-- It is made through a sender without a grant. -/
theorem virtGrants_invoked :
    invoked .virt virtGrantless.kernel 0 (callRegs 6 11 7 8 9 10 1) = .sender 0 0 := by
  decide +kernel

/-- To a receiver that waits. -/
theorem virtGrants_messages : Messages .virt virtGrantless
    (.ecall 1 (callRegs 6 11 7 8 9 10 1)) 0 1 0 (callRegs 6 11 7 8 9 10 1) := by
  obtain ⟨hcur, hacq⟩ : virtGrantless.current 1 = some 0 ∧
      acquired virtGrantless.kernel 0 0 = some 1 := by
    decide +kernel
  exact ⟨⟨1, rfl, hcur⟩, by decide, virtGrants_invoked ▸ .sender hacq⟩

/-- And a capability goes along. -/
theorem virtGrants_sendsCap :
    SendsCap .virt virtGrantless.kernel 0 1 (callRegs 6 11 7 8 9 10 1) := by
  obtain ⟨hdest, hlive, hfree⟩ :
      ((virtGrantless.kernel.procs 1).regs .destCidx).toNat < Config.virt.nCaps ∧
      virtGrantless.kernel.Live (.slot 0 (slotOf .virt 1)) ∧
      ¬ virtGrantless.kernel.Live (.slot 1 (slotOf .virt
        ((virtGrantless.kernel.procs 1).regs .destCidx))) := by
    decide +kernel
  exact ⟨by decide, hdest, hlive, hfree⟩

/-- What the root process sends along gets there. -/
theorem capability_passes_by_virtGrants : ∃ st',
    Step .virt virtGrantless (.ecall 1 (callRegs 6 11 7 8 9 10 1)) st' ∧
      Passes virtGrantless.kernel st'.kernel 0 (slotOf .virt (callRegs 6 11 7 8 9 10 1 .a5)) 1
        (slotOf .virt ((virtGrantless.kernel.procs 1).regs .destCidx)) := by
  have hr : Reachable (Booted .virt) (Step .virt) virtGrantless := virtAfter_reachable _
  have hspent : ¬ (virtGrantless.kernel.caps
      (.slot 0 (slotOf .virt (callRegs 6 11 7 8 9 10 1 .a5)))).TimeExhausted := by decide +kernel
  obtain ⟨-, h, -⟩ := capability_passes_by hr
  exact h _ 0 1 0 _ virtGrants_messages virtGrants_sendsCap fun hex => hspent hex.exhausted

/-- A sender capability without the right to grant passes a capability on, all the same. -/
theorem passes_without_grant : ∃ s l s' p q ch user i j, Reachable (Booted .virt) (Step .virt) s ∧
    Step .virt s l s' ∧ Messages .virt s l p q ch user ∧
      invoked .virt s.kernel p user = .sender ch 0 ∧ p ≠ q ∧ Passes s.kernel s'.kernel p i q j := by
  have hr : Reachable (Booted .virt) (Step .virt) virtGrantless := virtAfter_reachable _
  have hg : virtGrantless.Good .virt := good_of_reachable (fun _ => Booted.root) hr
  exact ⟨_, _, _, 0, 1, 0, _, _, _, hr, virtGrants_step, virtGrants_messages, virtGrants_invoked,
    by decide, message_passes hg virtGrants_step virtGrants_messages virtGrants_sendsCap⟩

end SepKernel
