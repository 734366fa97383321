import SepKernel.Messages
import SepKernel.Tables

/-!
# What a step leaves alone

An operation on the capabilities rewrites slots of its caller, and of one other process when it
hands a capability over. The nodes of all processes hang on shared lists, so their links change;
what is in the slots of a third process, and whether they are live, does not.
-/

namespace SepKernel

variable {cfg : Config} {s s' t : Kernel} {st st' : System} {l : Label} {op : CapOp} {p q : Nat}
  {user : Reg → Word}

/-- The table of `q` is as before: the words in every slot, and which slots are live. -/
structure SameSlots (s t : Kernel) (q : Nat) : Prop where
  live : ∀ i, t.Live (.slot q i) ↔ s.Live (.slot q i)
  caps : ∀ i, t.caps (.slot q i) = s.caps (.slot q i)

namespace SameSlots

theorem refl (s : Kernel) (q : Nat) : SameSlots s s q := ⟨fun _ => Iff.rfl, fun _ => rfl⟩

theorem trans (h : SameSlots s s' q) (h' : SameSlots s' t q) : SameSlots s t q :=
  ⟨fun i => (h'.live i).trans (h.live i), fun i => (h'.caps i).trans (h.caps i)⟩

end SameSlots

/-- Where no capability changed no slot did. -/
theorem SameCaps.sameSlots (h : SameCaps cfg s t) (q : Nat) : SameSlots s t q :=
  ⟨fun _ => h.live, fun i => congrFun h.caps (.slot q i)⟩

/-- The operation writes slots of `q`. -/
def CapOp.Reaches (q : Nat) : CapOp → Prop
  | .skip => False
  | .derive pid _ _ _ => q = pid
  | .move pid _ _ => q = pid
  | .transfer srcPid _ destPid _ => q = srcPid ∨ q = destPid
  | .delete pid _ => q = pid
  | .wipe pid _ => q = pid

theorem slot_ne {i j : Nat} (h : q ≠ p) : (.slot q i : NodeRef) ≠ .slot p j := by
  rintro ⟨⟩
  exact h rfl

/-- A capability that moves from one node to another passes by the rest. -/
theorem sameSlots_of_moved {src dst : NodeRef} (hsrc : ∀ i, .slot q i ≠ src)
    (hdst : ∀ i, .slot q i ≠ dst) (hlive : ∀ {m}, t.Live m ↔ m = dst ∨ m ≠ src ∧ s.Live m)
    (hcaps : t.caps = Function.update s.caps dst (s.caps src)) : SameSlots s t q where
  live i := by
    rw [hlive]
    exact ⟨fun h => (h.resolve_left (hdst i)).2, fun h => Or.inr ⟨hsrc i, h⟩⟩
  caps i := by rw [hcaps, Function.update_of_ne (hdst i)]

/-- An operation touches no tables but those it names. -/
theorem CapStep.sameSlots (h : CapStep cfg s op t) (hq : ¬ op.Reaches q) : SameSlots s t q := by
  cases h with
  | skip => exact .refl s q
  | @derive pid i j c par r hpid hj hsrc hdst hcan hpar hr =>
    have hlive : ∀ {m}, (s.deriveNode cfg pid (.slot pid i) (.slot pid j) par c r).Live m ↔
        m = .slot pid j ∨ s.Live m := Kernel.live_deriveNode (live_of_linked hr)
    refine ⟨fun k => ?_, fun k => ?_⟩
    · rw [hlive]
      exact or_iff_right (slot_ne hq)
    · rw [Kernel.caps_deriveNode, Function.update_of_ne (slot_ne hq),
        Function.update_of_ne (slot_ne hq)]
  | move hpid hj hsrc hdst ha hr hne =>
    exact sameSlots_of_moved (fun _ => slot_ne hq) (fun _ => slot_ne hq)
      (Kernel.live_moveNode (live_of_linked hr) fun e => hdst (e ▸ hsrc)) Kernel.caps_moveNode
  | transfer hpid hj hsrc hdst hex ha hr hne =>
    exact sameSlots_of_moved (fun _ => slot_ne fun e => hq (Or.inl e))
      (fun _ => slot_ne fun e => hq (Or.inr e))
      (Kernel.live_handOver (live_of_linked hr) fun e => hdst (e ▸ hsrc)) Kernel.caps_handOver
  | @delete pid i a r hsrc hex ha hr hne =>
    have hlive : ∀ {m}, (s.spliceOut (.slot pid i) a r).Live m ↔ m ≠ .slot pid i ∧ s.Live m :=
      Kernel.live_spliceOut (live_of_linked hr) hne
    refine ⟨fun k => ?_, fun k => by rw [Kernel.caps_spliceOut]⟩
    rw [hlive]
    exact and_iff_right (slot_ne hq)
  | @wipe pid i c hsrc hc =>
    have hlive : ∀ {m}, (s.setCap (.slot pid i) c).Live m ↔ s.Live m :=
      Kernel.live_congr (by simp)
    exact ⟨fun _ => hlive, fun k => by rw [Kernel.caps_setCap, Function.update_of_ne (slot_ne hq)]⟩

/-- Nor does a step. -/
theorem step_sameSlots (hg : st.Good cfg) (hs : Step cfg st l st')
    (hq : ¬ (stepOp cfg st l).Reaches q) : SameSlots st.kernel st'.kernel q := by
  obtain ⟨s', t', h1, h2, h3⟩ := step_caps hg hs
  exact ((h1.sameSlots q).trans (h2.sameSlots hq)).trans (h3.sameSlots q)

/-! ## Whose slots a call writes -/

/-- `p` is in a position to write to `q`: it is `q`, it supervises `q`, or it has a message for
    it. -/
inductive Acts (cfg : Config) (s : Kernel) (p : Nat) (user : Reg → Word) (q : Nat) : Prop where
  | self (h : q = p)
  | supervises {r : Span} (hnr : (user .t0).toNat = 6)
      (hinv : invoked cfg s p user = .supervisor r) (hq : supervisee user r = some q)
  | messages {ch : Nat} (hnr : (user .t0).toNat = 6)
      (hvia : MessageVia s q ch (invoked cfg s p user))

/-- Whose table is touched is acted on by the call. -/
theorem CapRequest.acts (h : CapRequest cfg s p user op) (hq : op.Reaches q) :
    Acts cfg s p user q := by
  cases h with
  | skip => exact hq.elim
  | give hnr hinv hsup =>
    rcases hq with rfl | rfl
    · exact .self rfl
    · exact .supervises hnr hinv hsup
  | take hnr hinv hsup =>
    rcases hq with rfl | rfl
    · exact .supervises hnr hinv hsup
    · exact .self rfl
  | message hnr hvia =>
    rcases hq with rfl | rfl
    · exact .self rfl
    · exact .messages hnr hvia
  | _ => exact .self hq

/-- Whoever is not acted on stays as it is. -/
theorem ProcRequest.apply_of_not_acts {pop : ProcOp} (h : ProcRequest cfg s p user pop)
    (hq : ¬ Acts cfg s p user q) (x : Proc) : pop.apply q x = x := by
  have hsup : ∀ {r : Span} {q' : Nat}, (user .t0).toNat = 6 → invoked cfg s p user = .supervisor r →
      supervisee user r = some q' → q ≠ q' := by
    rintro r q' hnr hinv hs rfl
    exact hq (.supervises hnr hinv hs)
  cases h with
  | none => rfl
  | suspend hnr hinv hs => exact if_neg (hsup hnr hinv hs)
  | resume hnr hinv hs => exact if_neg (hsup hnr hinv hs)
  | write hnr hinv hs => exact if_neg (hsup hnr hinv hs)
  | @message q' ch hnr hvia =>
    have hne : q ≠ q' := by
      rintro rfl
      exact hq (.messages hnr hvia)
    exact if_neg hne

/-- Only a call asks for an operation. -/
theorem stepOp_request (h : (stepOp cfg st l).Reaches q) : ∃ p user, Calls st l p user ∧
    CapRequest cfg st.kernel p user (stepOp cfg st l) := by
  cases l with
  | ecall hart user =>
    cases hcur : st.current hart with
    | none =>
      rw [stepOp, hcur] at h
      exact h.elim
    | some p =>
      refine ⟨p, user, ⟨hart, rfl, hcur⟩, ?_⟩
      rw [stepOp, hcur, Option.map_some, Option.getD_some]
      exact capOp_request
  | _ => exact h.elim

/-- A step is one call, by one process. -/
theorem Calls.unique {p' : Nat} {user' : Reg → Word} (h : Calls st l p user)
    (h' : Calls st l p' user') : p' = p ∧ user' = user := by
  obtain ⟨hart, rfl, hcur⟩ := h
  obtain ⟨hart', heq, hcur'⟩ := h'
  obtain ⟨rfl, rfl⟩ := Label.ecall.inj heq
  exact ⟨Option.some.inj (hcur'.symm.trans hcur), rfl⟩

/-- A call leaves the slots of every process alone that it does not act on. -/
theorem call_sameSlots (hg : st.Good cfg) (hs : Step cfg st l st') (hcall : Calls st l p user)
    (hq : ¬ Acts cfg st.kernel p user q) : SameSlots st.kernel st'.kernel q := by
  refine step_sameSlots hg hs fun hr => hq ?_
  obtain ⟨p', user', hcall', hreq⟩ := stepOp_request hr
  obtain ⟨rfl, rfl⟩ := hcall.unique hcall'
  exact hreq.acts hr

/-- And its registers and its state. -/
theorem call_sameProc (hg : st.Good cfg) (hs : Step cfg st l st') (hcall : Calls st l p user)
    (hq : ¬ Acts cfg st.kernel p user q) : st'.kernel.procs q = st.kernel.procs q := by
  have hqp : q ≠ p := fun e => hq (.self e)
  obtain ⟨hart, rfl, hcur⟩ := hcall
  cases step_effect hg hs with
  | call hcur' hrun heff =>
    obtain rfl := Option.some.inj (hcur.symm.trans hcur')
    rw [finish_kernel, heff.others q hqp]
    exact procOp_request.apply_of_not_acts hq _

end SepKernel
