import SepKernel.Frame
import SepKernel.Schedule
import SepKernel.Receivers

/-!
# The authority of a call

What a call can change is bounded by what its caller holds: its own process, the processes it
supervises or that stand on the channel it invokes, the quanta of the time capabilities that all of
these hold, and the channels they hold something for. The tables are written only by the hook, for
a capability that one of them held before or that is derived from one.
-/

namespace SepKernel

open Transition (Reachable)

variable {cfg : Config} {s : Kernel} {st st' : System} {l : Label} {op : CapOp} {H : Holdings}
  {p q r h ch : Nat} {user : Reg → Word} {c : Capability} {cap : Cap}

/-! ## The scope of a call -/

/-- The processes besides the caller that an invocation has to do with. -/
def Capability.scope (s : Kernel) : Capability → Set Nat
  | .supervisor r => Set.Ico r.free r.stop
  | .sender ch _ => {q | s.receivers ch 0 = some q ∨ s.receivers ch 1 = some q}
  | .server ch _ => {q | s.receivers ch 0 = some q ∨ s.receivers ch 1 = some q}
  | .client ch _ => {q | s.receivers ch 0 = some q ∨ s.receivers ch 1 = some q}
  | _ => ∅

/-- Only an invocation has others to act on. -/
def callScope (cfg : Config) (s : Kernel) (p : Nat) (user : Reg → Word) : Set Nat :=
  if (user .t0).toNat = 6 then (invoked cfg s p user).scope s else ∅

/-- The caller, or a process in the scope of its call. -/
def Involved (cfg : Config) (s : Kernel) (p : Nat) (user : Reg → Word) (q : Nat) : Prop :=
  q = p ∨ q ∈ callScope cfg s p user

/-- Whoever is acted on is in the call's scope. -/
theorem Acts.involved (h : Acts cfg s p user q) : Involved cfg s p user q := by
  cases h with
  | self h => exact Or.inl h
  | supervises hnr hinv hq =>
    refine Or.inr ?_
    rw [callScope, if_pos hnr, hinv]
    unfold supervisee at hq
    split at hq
    · next hr =>
      obtain rfl := Option.some.inj hq
      exact hr
    · cases hq
  | messages hnr hvia =>
    refine Or.inr ?_
    rw [callScope, if_pos hnr]
    generalize invoked cfg s p user = c at hvia
    cases hvia with
    | sender h => exact Or.inl (acquired_state h).1
    | client h => exact Or.inl (acquired_state h).1
    | server h => exact Or.inr (acquired_state h).1

/-! ## By the words -/

/-- A time capability whose quanta, used or not, include this one. -/
def Cap.SpansTime (cap : Cap) (h q : Nat) : Prop :=
  capIsType cap .time = true ∧ (capTimeGetHartid cap).toNat = h ∧
    (capTimeGetBegin cap).toNat ≤ q ∧ q < (capTimeGetEnd cap).toNat

/-- A channels, receiver, server or client capability for the channel. -/
def Cap.ForChannel (cap : Cap) (ch : Nat) : Prop :=
  (capIsType cap .channels = true ∧ (capChannelsGetBegin cap).toNat ≤ ch ∧
      ch < (capChannelsGetEnd cap).toNat) ∨
    (capIsType cap .receiver = true ∧ (capReceiverGetChannel cap).toNat = ch) ∨
    (capIsType cap .server = true ∧ (capServerGetChannel cap).toNat = ch) ∨
    (capIsType cap .client = true ∧ (capClientGetChannel cap).toNat = ch)

/-- A capability owns only quanta within its range. -/
theorem Cap.spansTime_of_owns (hv : cap.view.Valid cfg) (h : cap.Owns (.quantum r q)) :
    cap.SpansTime r q := by
  obtain ⟨ht, hh, hlo, hhi⟩ := h
  rw [Cap.view_eq ht] at hv
  exact ⟨ht, hh, hv.1.1.trans hlo, hhi⟩

/-- And only channels that it is for. -/
theorem Cap.forChannel_of_owns (hv : cap.view.Valid cfg) (h : cap.Owns (.channel ch)) :
    cap.ForChannel ch := by
  rcases h with ⟨ht, hlo, hhi⟩ | h | h
  · rw [Cap.view_eq ht] at hv
    exact Or.inl ⟨ht, hv.1.1.trans hlo, hhi⟩
  · exact Or.inr (Or.inl h)
  · exact Or.inr (Or.inr (Or.inl h))

/-! ## What the hook is called for -/

/-- The hook runs for a capability that a slot the operation writes held, or for a part of one. -/
theorem CapOp.Enabled.assigned_from (he : op.Enabled H) (h : op.assigned H = some (p, c)) :
    ∃ q i, op.Reaches q ∧ c.owned ⊆ (H (.slot q i)).owned := by
  cases op with
  | derive pid i j c' =>
    obtain ⟨rfl, rfl⟩ := Prod.mk.inj (Option.some.inj h)
    exact ⟨pid, i, rfl, he.1.child_owned⟩
  | transfer srcPid i destPid j =>
    obtain ⟨rfl, rfl⟩ := Prod.mk.inj (Option.some.inj h)
    exact ⟨srcPid, i, Or.inl rfl, subset_rfl⟩
  | _ => cases h

/-- What is handed over in a call, a process involved owned before. -/
theorem call_assigned (hg : st.Good cfg) (hs : Step cfg st l st') (hcall : Calls st l p user)
    {r' : Nat} (ho : (stepOp cfg st l).assigned st.kernel.held = some (r', c)) {x : Resource}
    (hx : x ∈ c.owned) : ∃ q i, Involved cfg st.kernel p user q ∧
      st.kernel.Live (.slot q i) ∧ (st.kernel.caps (.slot q i)).Owns x := by
  obtain ⟨q, i, hreach, hsub⟩ := (step_held hg hs).1.assigned_from ho
  obtain ⟨p', user', hcall', hreq⟩ := stepOp_request hreach
  obtain ⟨rfl, rfl⟩ := hcall.unique hcall'
  have hne : st.kernel.held (.slot q i) ≠ .other := fun he => by
    have := hsub hx
    rw [he] at this
    exact Set.notMem_empty _ this
  obtain ⟨q', i', hslot, hl, heq⟩ := live_of_held hne
  obtain ⟨rfl, rfl⟩ := NodeRef.slot.inj hslot
  refine ⟨q, i, (hreq.acts hreach).involved, hl, Cap.owns_iff.mpr ?_⟩
  rw [← heq]
  exact hsub hx

/-- A capability is assigned in its own quanta alone. -/
theorem assign_schedule_of_not_mem (hlo : cfg.minHartid ≤ h) (hv : c.Valid cfg)
    (hq : (h, q) ∉ c.quanta) : (s.assign cfg p c).schedule q (h - cfg.minHartid) =
      s.schedule q (h - cfg.minHartid) := by
  cases c with
  | time h' b =>
    have hcol : ¬ (h - cfg.minHartid = h' - cfg.minHartid ∧ b.free ≤ q ∧ q < b.stop) := by
      rintro ⟨hh, hlo', hhi⟩
      have hmin : cfg.minHartid ≤ h' := hv.2.1
      exact hq ⟨by simp only; omega, hlo', hhi⟩
    exact if_neg hcol
  | _ => rfl

/-! ## Confinement -/

/-- Nobody involved holds time that spans the quantum. -/
def NoTime (cfg : Config) (s : Kernel) (p : Nat) (user : Reg → Word) (h q : Nat) : Prop :=
  ∀ r i, Involved cfg s p user r → s.Live (.slot r i) → ¬ (s.caps (.slot r i)).SpansTime h q

/-- Nobody involved holds a capability for the channel. -/
def NoChannel (cfg : Config) (s : Kernel) (p : Nat) (user : Reg → Word) (ch : Nat) : Prop :=
  ∀ r i, Involved cfg s p user r → s.Live (.slot r i) → ¬ (s.caps (.slot r i)).ForChannel ch

/-- Without time there is no way to the schedule. -/
theorem call_sameEntry (hg : st.Good cfg) (hs : Step cfg st l st') (hcall : Calls st l p user)
    (hlo : cfg.minHartid ≤ h) (hno : NoTime cfg st.kernel p user h q) :
    st'.kernel.schedule q (h - cfg.minHartid) = st.kernel.schedule q (h - cfg.minHartid) := by
  rw [(step_tables hg hs).1, CapOp.onTables]
  cases ho : (stepOp cfg st l).assigned st.kernel.held with
  | none => rfl
  | some pc =>
    obtain ⟨r', c⟩ := pc
    refine assign_schedule_of_not_mem hlo (step_assigned hg hs ho).2.1 fun hq => ?_
    obtain ⟨r, i, hr, hl, hown⟩ := call_assigned hg hs hcall ho (mem_quanta_iff.mp hq)
    exact hno r i hr hl (Cap.spansTime_of_owns (hg.kernel.valid r i hl) hown)

/-- And without the channel none to its receiver. -/
theorem call_sameReceiver (hg : st.Good cfg) (hs : Step cfg st l st') (hcall : Calls st l p user)
    (hno : NoChannel cfg st.kernel p user ch) :
    st'.kernel.receivers ch 0 = st.kernel.receivers ch 0 := by
  rw [(step_tables hg hs).2, CapOp.onTables]
  cases ho : (stepOp cfg st l).assigned st.kernel.held with
  | none => rfl
  | some pc =>
    obtain ⟨r', c⟩ := pc
    refine assign_receivers_of_not_mem fun hch => ?_
    obtain ⟨r, i, hr, hl, hown⟩ := call_assigned hg hs hcall ho (owned_of_receives hch)
    exact hno r i hr hl (Cap.forChannel_of_owns (hg.kernel.valid r i hl) hown)

/-- A capability that is invoked is in a live slot of the caller. -/
theorem live_of_invoked (h : invoked cfg s p user ≠ .other) :
    s.Live (.slot p (slotOf cfg (user .a0))) ∧
      (s.caps (.slot p (slotOf cfg (user .a0)))).view = invoked cfg s p user := by
  rw [invoked] at h ⊢
  by_cases hl : s.Live (.slot p (slotOf cfg (user .a0)))
  · exact ⟨hl, by rw [Kernel.capAt_of_live hl]⟩
  · rw [Kernel.capAt_of_dead hl, nullCap_view] at h
    exact absurd rfl h

theorem call_sameReply (hg : st.Good cfg) (hs : Step cfg st l st') (hcall : Calls st l p user)
    (hno : NoChannel cfg st.kernel p user ch) :
    st'.kernel.receivers ch 1 = st.kernel.receivers ch 1 := by
  rcases step_replies hg hs ch with h | ⟨-, hart, user', p', hl, hcur, hreply, -⟩
  · exact h
  · obtain ⟨rfl, rfl⟩ := hcall.unique ⟨hart, hl, hcur⟩
    obtain ⟨-, ⟨g, hinv⟩, -⟩ := replyTo_some hreply
    have hne : invoked cfg st.kernel p' user' ≠ .other := by simp [hinv]
    obtain ⟨hlive, hview⟩ := live_of_invoked hne
    rw [hinv] at hview
    have ht : capIsType (st.kernel.caps (.slot p' (slotOf cfg (user' .a0)))) .client = true :=
      Cap.isType_of_view (by rw [hview]; rfl)
    rw [Cap.view_eq ht] at hview
    have hch := (Capability.client.inj hview).1
    exact absurd (Or.inr (Or.inr (Or.inr ⟨ht, hch⟩))) (hno p' _ (Or.inl rfl) hlive)

/-- In every run, a call leaves the processes it does not involve alone, with their slots, the
    entries of time that nobody it involves holds, and the receivers of channels for which nobody it
    involves holds anything. -/
theorem call_confined (hr : Reachable (Booted cfg) (Step cfg) st) (hs : Step cfg st l st')
    (hcall : Calls st l p user) :
    (∀ q, ¬ Involved cfg st.kernel p user q →
      st'.kernel.procs q = st.kernel.procs q ∧ SameSlots st.kernel st'.kernel q) ∧
    (∀ h q, ScheduleIndex cfg h q → NoTime cfg st.kernel p user h q →
      st'.kernel.schedule q (h - cfg.minHartid) = st.kernel.schedule q (h - cfg.minHartid)) ∧
    ∀ ch, NoChannel cfg st.kernel p user ch → ∀ k,
      st'.kernel.receivers ch k = st.kernel.receivers ch k := by
  have hg : st.Good cfg := good_of_reachable (fun _ => Booted.root) hr
  refine ⟨fun q hq => ?_, fun h q hx hno => ?_, fun ch hno k => ?_⟩
  · have hacts : ¬ Acts cfg st.kernel p user q := mt Acts.involved hq
    exact ⟨call_sameProc hg hs hcall hacts, call_sameSlots hg hs hcall hacts⟩
  · exact call_sameEntry hg hs hcall hx.1 hno
  · match k with
    | 0 => exact call_sameReceiver hg hs hcall hno
    | 1 => exact call_sameReply hg hs hcall hno

/-- The root process, dispatched, and after it has derived some time. -/
def virtRoot : System := virtAfter [.schedule 1 0]

/-- It has given the first ten quanta of hart 1 away, to itself. -/
def virtRootDerives : System := virtRoot.after .virt [.ecall 1 (callRegs 5 3 10
  (capMkTime 1 0 10 0).word0 (capMkTime 1 0 10 0).word1 0 0)]

/-- Process 1 has what it had. -/
theorem call_confined_virtRoot :
    virtRootDerives.kernel.procs 1 = virtRoot.kernel.procs 1 ∧
      SameSlots virtRoot.kernel virtRootDerives.kernel 1 := by
  have hr : Reachable (Booted .virt) (Step .virt) virtRoot := virtAfter_reachable _
  have hs : Step .virt virtRoot (.ecall 1 (callRegs 5 3 10 (capMkTime 1 0 10 0).word0
      (capMkTime 1 0 10 0).word1 0 0)) virtRootDerives := after_step (by decide +kernel)
  have hcur : virtRoot.current 1 = some 0 := by decide +kernel
  refine (call_confined hr hs ⟨1, rfl, hcur⟩).1 1 ?_
  rintro (h | h)
  · exact absurd h (by decide)
  · exact h

end SepKernel
