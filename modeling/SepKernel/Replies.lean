import SepKernel.Deliveries
import SepKernel.Receivers

/-!
# Replies

A client that is accepted enters itself on the reply slot of its channel, if that is empty; and no
server ever clears it. So a server replies to the first client that ever called, as long as that one
waits for it, whoever else it has been serving meanwhile. And the reply itself may stop in an assert,
as any message does that takes an exhausted time capability along.
-/

namespace SepKernel

open Transition (Reachable Steps)

variable {cfg : Config} {s : Kernel} {st st' : System} {l : Label} {p q v ch : Nat}
  {c : Capability} {user : Reg → Word}

/-- The process for which the hook runs makes the call, is suspended or gets a message. -/
theorem assigned_proc (h : (stepOp cfg st l).assigned st.kernel.held = some (q, c)) :
    ∃ p user, Calls st l p user ∧ (q = p ∨ (st.kernel.procs q).state = procStateSuspended ∨
      ∃ ch, Messages cfg st l p q ch user) := by
  cases l with
  | ecall hart user =>
    cases hcur : st.current hart with
    | none =>
      rw [stepOp, hcur] at h
      cases h
    | some p =>
      have hcall : Calls st (.ecall hart user) p user := ⟨hart, rfl, hcur⟩
      rw [stepOp, hcur, Option.map_some, Option.getD_some] at h
      have hreq : CapRequest cfg st.kernel p user (capOp cfg st.kernel p user) := capOp_request
      generalize capOp cfg st.kernel p user = op at h hreq
      refine ⟨p, user, hcall, ?_⟩
      cases hreq with
      | derive => exact Or.inl (Prod.mk.inj (Option.some.inj h)).1.symm
      | give hnr hinv hq hst => exact Or.inr (Or.inl ((Prod.mk.inj (Option.some.inj h)).1 ▸ hst))
      | take => exact Or.inl (Prod.mk.inj (Option.some.inj h)).1.symm
      | message hnr hvia =>
        obtain ⟨rfl, -⟩ := Prod.mk.inj (Option.some.inj h)
        exact Or.inr (Or.inr ⟨_, hcall, hnr, hvia⟩)
      | _ => cases h
  | _ => cases h

/-- A client's call hands over capabilities only to the server it acquires. -/
theorem assigned_client {h : Nat} {g : Word} (hcur : st.current h = some p)
    (hnr : (user .t0).toNat = 6) (hinv : invoked cfg st.kernel p user = .client ch g)
    (ho : (stepOp cfg st (.ecall h user)).assigned st.kernel.held = some (q, c)) :
    (st.kernel.procs q).state = waitWord ch := by
  rw [stepOp, hcur, Option.map_some, Option.getD_some] at ho
  have hreq : CapRequest cfg st.kernel p user (capOp cfg st.kernel p user) := capOp_request
  generalize capOp cfg st.kernel p user = op at ho hreq
  cases hreq with
  | derive hnr' => rw [hnr] at hnr'; cases hnr'
  | give _ hinv' => rw [hinv] at hinv'; cases hinv'
  | take _ hinv' => rw [hinv] at hinv'; cases hinv'
  | message _ hvia =>
    obtain ⟨rfl, -⟩ := Prod.mk.inj (Option.some.inj ho)
    rw [hinv] at hvia
    cases hvia with
    | client hacq => exact (acquired_state hacq).2
  | _ => cases ho

/-! ## A client that waits -/

/-- The step is an accepted client call of `p`: the server is acquired, and `p` waits. -/
structure Accepted (cfg : Config) (p ch : Nat) (s : System) (l : Label) (s' : System) : Prop where
  step : Step cfg s l s'
  call : ∃ user, Calls s l p user ∧ (user .t0).toNat = 6 ∧
    (∃ g, invoked cfg s.kernel p user = .client ch g) ∧ (acquired s.kernel ch 0).isSome
  waits : (s'.kernel.procs p).state = waitWord ch

/-- The step is a server call of `v` on the channel. -/
def ServerCall (cfg : Config) (v ch : Nat) (s : System) (l : Label) (user : Reg → Word) : Prop :=
  Calls s l v user ∧ (user .t0).toNat = 6 ∧ ∃ g, invoked cfg s.kernel v user = .server ch g

/-- The step neither suspends `p` nor is a server call on the channel. -/
def Pending (cfg : Config) (p ch : Nat) (s : System) (l : Label) (s' : System) : Prop :=
  Step cfg s l s' ∧ (∀ q user, Calls s l q user → procOp cfg s.kernel q user ≠ .suspend p) ∧
    ∀ v user, ¬ ServerCall cfg v ch s l user

/-- The step writes the caller's message to `p`, makes it ready and leaves everybody else alone. -/
def RepliesTo (p v : Nat) (user : Reg → Word) (s s' : System) : Prop :=
  s'.kernel.procs p = { s.kernel.procs p with
    regs := deliveredRegs (s.kernel.procs p).regs (user .a1) (user .a2) (user .a3) (user .a4)
    state := procStateReady } ∧ ∀ q, q ≠ p → q ≠ v → s'.kernel.procs q = s.kernel.procs q

/-- What a waiting client can rely on until the server replies. -/
structure Client (cfg : Config) (p ch : Nat) (reply : Option Nat) (s : System) : Prop where
  good : s.Good cfg
  waits : (s.kernel.procs p).state = waitWord ch
  receiver : s.kernel.receivers ch 0 ≠ some p
  reply : s.kernel.receivers ch 1 = reply

/-- A process that waits is on no hart. -/
theorem off_of_waiting (hg : st.Good cfg) (h : (st.kernel.procs p).state = waitWord ch) :
    Off st p := off_of_not_running hg fun hr => hr.ne_waitingOn h

/-- Only a server call reaches a client that is no receiver itself. -/
theorem Client.serverCall {r : Option Nat} (hc : Client cfg p ch r st) (hch : ch < cfg.nChannels)
    {ch' : Nat} (hm : Messages cfg st l v p ch' user) : ServerCall cfg v ch st l user := by
  obtain ⟨hcall, hnr, hvia⟩ := hm
  obtain rfl : ch = ch' := waitWord_inj hch (hvia.lt hc.good.kernel) (hc.waits.symm.trans hvia.state)
  refine ⟨hcall, hnr, ?_⟩
  generalize invoked cfg st.kernel v user = c at hvia
  cases hvia with
  | sender h => exact absurd (acquired_state h).1 hc.receiver
  | client h => exact absurd (acquired_state h).1 hc.receiver
  | server h => exact ⟨_, rfl⟩

/-- A waiting client stays one, with the same reply slot, until the server calls or somebody
    suspends it. -/
theorem Client.step {r : Nat} (hc : Client cfg p ch (some r) st) (hch : ch < cfg.nChannels)
    (hs : Pending cfg p ch st l st') : Client cfg p ch (some r) st' := by
  obtain ⟨hs, hnosuspend, hnoserver⟩ := hs
  have hoff := off_of_waiting hc.good hc.waits
  refine ⟨step_good hc.good hs, ?_, ?_, ?_⟩
  · cases step_fate hc.good hs hoff with
    | same h => rw [h, hc.waits]
    | dispatched hready =>
      rw [hc.waits] at hready
      exact absurd hready.symm ready_ne_waitWord
    | @called q user hcall h =>
      have hkeep : ∀ {q'}, p ≠ q' → ∀ {x y : Proc}, (if p = q' then x else y) = y := fun hne =>
        if_neg hne
      rw [h]
      cases hop : procOp cfg st.kernel q user with
      | none => exact hc.waits
      | suspend q' =>
        rw [ProcOp.apply, hkeep fun e => hnosuspend q user hcall (by rw [hop, e])]
        exact hc.waits
      | resume q' =>
        have hne : p ≠ q' := by
          rintro rfl
          exact suspended_ne_waitWord ((procOp_resume hop).symm.trans hc.waits)
        rw [ProcOp.apply, hkeep hne]
        exact hc.waits
      | write q' reg x =>
        rw [ProcOp.apply]
        split <;> exact hc.waits
      | deliver q' m0 m1 m2 m3 =>
        have hne : p ≠ q' := by
          rintro rfl
          obtain ⟨hnr, ⟨ch', hvia⟩, -⟩ := procOp_deliver hop
          exact hnoserver q user (hc.serverCall hch ⟨hcall, hnr, hvia⟩)
        rw [ProcOp.apply, hkeep hne]
        exact hc.waits
  · -- the receiving end goes to a caller, to a suspended process, or with a message
    intro hp
    rcases (step_writes_receives hc.good hs).cases (r := ch) trivial with hsame | ⟨q, c, ho, hq⟩
    · exact hc.receiver (hsame.symm.trans hp)
    · obtain rfl := Option.some.inj (hp.symm.trans hq)
      obtain ⟨v, user, hcall, rfl | hst | ⟨ch', hm⟩⟩ := assigned_proc ho
      · exact hcall.ne_of_off hoff rfl
      · exact suspended_ne_waitWord (hst.symm.trans hc.waits)
      · exact hnoserver v user (hc.serverCall hch hm)
  · rcases step_replies hc.good hs ch with h | ⟨hnone, -⟩
    · rw [h, hc.reply]
    · rw [hc.reply] at hnone
      cases hnone

/-- An accepted client relies on its own name on the reply slot, or whoever is there already. -/
theorem Accepted.client (hg : st.Good cfg) (ha : Accepted cfg p ch st l st') :
    ch < cfg.nChannels ∧
      ∃ r, (st.kernel.receivers ch 1 = none ∧ r = p ∨ st.kernel.receivers ch 1 = some r) ∧
        Client cfg p ch (some r) st' := by
  obtain ⟨hs, ⟨user, ⟨h, rfl, hcur⟩, hnr, ⟨g, hinv⟩, hacq⟩, hwaits⟩ := ha
  have hg' := step_good hg hs
  have hch : ch < cfg.nChannels := by
    have hk := invoked_known p user hg.kernel
    rw [hinv] at hk
    exact (hk.resolve_left (by simp)).2
  have hreply : replyTo cfg st.kernel p user = some ch := by
    simp only [replyTo, hnr, hinv, invokeReplyTo, hacq, if_true]
  -- the server waits, so it is not the client, and stays the channel's receiver unless it hands
  -- the server capability to somebody who is not the client either
  obtain ⟨v, hv⟩ := Option.isSome_iff_exists.mp hacq
  have hvp : v ≠ p := by
    rintro rfl
    exact (hg.current h v hcur).2.ne_waitingOn (acquired_state hv).2
  have hrec : st'.kernel.receivers ch 0 ≠ some p := by
    intro hp
    rcases (step_writes_receives hg hs).cases (r := ch) trivial with hsame | ⟨q, c, ho, hq⟩
    · exact hvp (Option.some.inj ((acquired_state hv).1.symm.trans (hsame.symm.trans hp)))
    · obtain rfl := Option.some.inj (hp.symm.trans hq)
      exact (hg.current h p hcur).2.ne_waitingOn (assigned_client hcur hnr hinv ho)
  refine ⟨hch, ?_⟩
  cases step_effect hg hs with
  | call hcur' _ heff =>
    obtain rfl := Option.some.inj (hcur.symm.trans hcur')
    have hslot := heff.replies ch
    rw [hreply] at hslot
    rw [finish_kernel] at hwaits hrec
    cases hold : st.kernel.receivers ch 1 with
    | none =>
      rw [hold, if_pos ⟨rfl, rfl⟩] at hslot
      exact ⟨p, Or.inl ⟨rfl, rfl⟩, hg', by rwa [finish_kernel], by rwa [finish_kernel],
        by rwa [finish_kernel]⟩
    | some r =>
      rw [hold, if_neg (by simp)] at hslot
      exact ⟨r, Or.inr rfl, hg', by rwa [finish_kernel], by rwa [finish_kernel],
        by rwa [finish_kernel]⟩

/-- What a server's call does to a client it acquires, and to everybody else. -/
theorem repliesTo_iff {r : Nat} (hc : Client cfg p ch (some r) st) (hs : Step cfg st l st')
    (hcall : ServerCall cfg v ch st l user) : RepliesTo p v user st st' ↔ r = p := by
  obtain ⟨⟨h, rfl, hcur⟩, hnr, ⟨g, hinv⟩⟩ := hcall
  have hcalls : Calls st (.ecall h user) v user := ⟨h, rfl, hcur⟩
  have hpv : p ≠ v := hcalls.ne_of_off (off_of_waiting hc.good hc.waits)
  cases step_effect hc.good hs with
  | call hcur' _ heff =>
    obtain rfl := Option.some.inj (hcur.symm.trans hcur')
    have hop : procOp cfg st.kernel v user =
        ((acquired st.kernel ch 1).map (messageOp user)).getD .none := by
      simp only [procOp, hnr, hinv, invokeProcOp]
    have hothers := heff.others
    rw [hop] at hothers
    constructor
    · rintro ⟨hp, -⟩
      rw [finish_kernel] at hp
      by_contra hrp
      -- somebody else is on the reply slot, and the client is left waiting
      have hsame : ProcOp.apply p (st.kernel.procs p)
          (((acquired st.kernel ch 1).map (messageOp user)).getD .none) = st.kernel.procs p := by
        cases hacq : acquired st.kernel ch 1 with
        | none => rfl
        | some r' =>
          obtain rfl : r = r' := Option.some.inj (hc.reply.symm.trans (acquired_state hacq).1)
          exact if_neg fun e => hrp e.symm
      have hwait := congrArg Proc.state ((hothers p hpv).symm.trans hp)
      rw [hsame, hc.waits] at hwait
      exact ready_ne_waitWord hwait.symm
    · rintro rfl
      rw [acquired_of hc.reply hc.waits] at hothers
      refine ⟨?_, fun q hqp hqv => ?_⟩
      · rw [finish_kernel, hothers r hpv]
        exact if_pos rfl
      · rw [finish_kernel, hothers q hqv]
        exact if_neg hqp

/-- A server's call is a message to the client that is on the reply slot. -/
theorem Client.messages (hc : Client cfg p ch (some p) st) (hcall : ServerCall cfg v ch st l user) :
    Messages cfg st l v p ch user := by
  obtain ⟨hcalls, hnr, ⟨g, hinv⟩⟩ := hcall
  refine ⟨hcalls, hnr, ?_⟩
  rw [hinv]
  exact .server (acquired_of hc.reply hc.waits)

/-- The server's call ends, with its message written to the client, just if the client is on the
    reply slot and the message takes no exhausted time capability along. -/
theorem replies_iff {r : Nat} (hc : Client cfg p ch (some r) st)
    (hcall : ServerCall cfg v ch st l user) :
    (∃ st', Step cfg st l st' ∧ RepliesTo p v user st st') ↔
      r = p ∧ ¬ SendsExhausted cfg st.kernel v p user := by
  constructor
  · rintro ⟨st', hs, hreplies⟩
    obtain rfl := (repliesTo_iff hc hs hcall).mp hreplies
    refine ⟨rfl, fun hex => ?_⟩
    rw [Step, step_of_sendsExhausted hc.good (hc.messages hcall) hex] at hs
    cases hs
  · rintro ⟨rfl, hex⟩
    obtain ⟨st', hs⟩ := step_of_not_sendsExhausted hc.good (hc.messages hcall) hex
    exact ⟨st', hs, (repliesTo_iff hc hs hcall).mpr rfl⟩

/-- At its server's next call on the channel a client that has not been suspended gets its reply just
    if the reply slot was empty, or its own, when it called, and the reply takes no exhausted time
    capability along. -/
theorem reply_reaches_client_iff {s₀ s t : System} {l₀ : Label}
    (hr : Reachable (Booted cfg) (Step cfg) s₀) (ha : Accepted cfg p ch s₀ l₀ s)
    (hrun : Steps (Pending cfg p ch) s t) (hcall : ServerCall cfg v ch t l user) :
    (∃ t', Step cfg t l t' ∧ RepliesTo p v user t t') ↔
      (s₀.kernel.receivers ch 1 = none ∨ s₀.kernel.receivers ch 1 = some p) ∧
        ¬ SendsExhausted cfg t.kernel v p user := by
  have hg₀ : s₀.Good cfg := good_of_reachable (fun _ => Booted.root) hr
  obtain ⟨hch, r, hr, hclient⟩ := ha.client hg₀
  have hclient' : Client cfg p ch (some r) t := hrun.invariant
    (I := Client cfg p ch (some r)) (fun _ _ _ hc hl => hc.step hch hl) hclient
  rw [replies_iff hclient' hcall]
  refine and_congr_left' ?_
  rcases hr with ⟨hnone, rfl⟩ | hsome
  · exact iff_of_true rfl (Or.inl hnone)
  · rw [hsome]
    simp

/-! ## Two clients -/

/-- A call of the server, by what its registers say. -/
theorem serverCall_of {h : Nat} {g : Word} (hcur : st.current h = some v)
    (hnr : (user .t0).toNat = 6) (hinv : invoked cfg st.kernel v user = .server ch g) :
    ServerCall cfg v ch st (.ecall h user) user := ⟨⟨h, rfl, hcur⟩, hnr, g, hinv⟩

/-- A round of the scheduler disturbs no client. -/
theorem pending_schedule {h : Nat} {mtime : Word} (hs : Step cfg st (.schedule h mtime) st') :
    Pending cfg p ch st (.schedule h mtime) st' := by
  refine ⟨hs, ?_, ?_⟩
  · rintro q user ⟨h', hl, -⟩
    cases hl
  · rintro v user ⟨⟨h', hl, -⟩, -⟩
    cases hl

/-- Process 1 serves channel 0, to the root process and to process 2. -/
def virtStartsServer : List Label :=
  [.schedule 1 0,
   .ecall 1 (callRegs 5 1 10 (capMkServer 0 1).word0 (capMkServer 0 1).word1 0 0),
   .ecall 1 (callRegs 5 10 11 (capMkClient 0 1).word0 (capMkClient 0 1).word1 0 0),
   .ecall 1 (callRegs 5 10 12 (capMkClient 0 1).word0 (capMkClient 0 1).word1 0 0),
   .ecall 1 (callRegs 6 2 1 6 10 0 0),
   .ecall 1 (callRegs 6 2 1 6 4 1 0),
   .ecall 1 (callRegs 6 2 1 1 0 0 0),
   .ecall 1 (callRegs 6 2 2 6 12 0 0),
   .ecall 1 (callRegs 6 2 2 6 5 1 0),
   .ecall 1 (callRegs 6 2 2 1 0 0 0),
   .schedule 2 0, .schedule 3 0,
   .ecall 2 (callRegs 6 0 0 0 0 0 64)]

/-- The server waits; process 2 calls it; it is dispatched; it replies. -/
def virtServes : System := virtAfter virtStartsServer

/-- The client's call. -/
def virtCalls : System := virtServes.after .virt [.ecall 3 (callRegs 6 0 0 0 0 0 64)]

/-- The server runs again. -/
def virtCalled : System := virtCalls.after .virt [.schedule 2 0]

/-- The server's next call, which replies. -/
def virtReplies : System := virtCalled.after .virt [.ecall 2 (callRegs 6 0 1 2 3 4 64)]

/-- The server waits, the client is entered and calls, the server replies. -/
theorem virtReplies_steps :
    Step .virt virtServes (.ecall 3 (callRegs 6 0 0 0 0 0 64)) virtCalls ∧
      Step .virt virtCalls (.schedule 2 0) virtCalled ∧
      Step .virt virtCalled (.ecall 2 (callRegs 6 0 1 2 3 4 64)) virtReplies := by
  have hok : (stepOk .virt (.ecall 3 (callRegs 6 0 0 0 0 0 64)) virtServes).isSome = true ∧
      (stepOk .virt (.schedule 2 0) virtCalls).isSome = true ∧
      (stepOk .virt (.ecall 2 (callRegs 6 0 1 2 3 4 64)) virtCalled).isSome = true := by
    decide +kernel
  exact ⟨after_step hok.1, after_step hok.2.1, after_step hok.2.2⟩

/-- The reply that the server then makes reaches its client. -/
theorem reply_reaches_client_virtReplies : ∃ t',
    Step .virt virtCalled (.ecall 2 (callRegs 6 0 1 2 3 4 64)) t' ∧
      RepliesTo 2 1 (callRegs 6 0 1 2 3 4 64) virtCalled t' := by
  obtain ⟨hcalls, hcalled, -⟩ := virtReplies_steps
  have hr : Reachable (Booted .virt) (Step .virt) virtServes := virtAfter_reachable _
  -- what the client finds, and then what the server does
  obtain ⟨hcur, hinv, hacq, hnone⟩ : virtServes.current 3 = some 2 ∧
      invoked .virt virtServes.kernel 2 (callRegs 6 0 0 0 0 0 64) = .client 0 1 ∧
      (acquired virtServes.kernel 0 0).isSome = true ∧
      virtServes.kernel.receivers 0 1 = none := by
    decide +kernel
  obtain ⟨hwaits, hcur', hinv'⟩ : (virtCalls.kernel.procs 2).state = waitWord 0 ∧
      virtCalled.current 2 = some 1 ∧
      invoked .virt virtCalled.kernel 1 (callRegs 6 0 1 2 3 4 64) = .server 0 1 := by
    decide +kernel
  have ha : Accepted .virt 2 0 virtServes (.ecall 3 (callRegs 6 0 0 0 0 0 64)) virtCalls :=
    ⟨hcalls, ⟨_, ⟨3, rfl, hcur⟩, by decide, ⟨1, hinv⟩, hacq⟩, hwaits⟩
  exact (reply_reaches_client_iff hr ha ((Steps.refl _).snoc (pending_schedule hcalled))
    (serverCall_of hcur' (by decide) hinv')).mpr
      ⟨Or.inl hnone, fun hex => absurd hex.src (by decide)⟩

/-- Now the root process calls; the server is dispatched; its next call. -/
def virtCallsToo : System := virtReplies.after .virt [.ecall 1 (callRegs 6 11 0 0 0 0 64)]

/-- The server runs again. -/
def virtCalledToo : System := virtCallsToo.after .virt [.schedule 2 0]

/-- The server's next call, which finds process 2 noted. -/
def virtServesOn : System := virtCalledToo.after .virt [.ecall 2 (callRegs 6 0 1 2 3 4 64)]

/-- The reply slot still says process 2, and the root process is left waiting, though the server's
    call ends. -/
theorem second_client_not_replied : ∃ s₀ l₀ s t l t' user,
    Reachable (Booted .virt) (Step .virt) s₀ ∧ Accepted .virt 0 0 s₀ l₀ s ∧
      Steps (Pending .virt 0 0) s t ∧ Step .virt t l t' ∧ ServerCall .virt 1 0 t l user ∧
        ¬ RepliesTo 0 1 user t t' := by
  obtain ⟨hcalls, hcalled, hreplies⟩ := virtReplies_steps
  have hr := (((virtAfter_reachable virtStartsServer).step hcalls).step hcalled).step hreplies
  have hok : (stepOk .virt (.ecall 1 (callRegs 6 11 0 0 0 0 64)) virtReplies).isSome = true ∧
      (stepOk .virt (.schedule 2 0) virtCallsToo).isSome = true ∧
      (stepOk .virt (.ecall 2 (callRegs 6 0 1 2 3 4 64)) virtCalledToo).isSome = true := by
    decide +kernel
  obtain ⟨hcur, hinv, hacq⟩ : virtReplies.current 1 = some 0 ∧
      invoked .virt virtReplies.kernel 0 (callRegs 6 11 0 0 0 0 64) = .client 0 1 ∧
      (acquired virtReplies.kernel 0 0).isSome = true := by
    decide +kernel
  obtain ⟨hwaits, hcur', hinv', hlast⟩ : (virtCallsToo.kernel.procs 0).state = waitWord 0 ∧
      virtCalledToo.current 2 = some 1 ∧
      invoked .virt virtCalledToo.kernel 1 (callRegs 6 0 1 2 3 4 64) = .server 0 1 ∧
      (virtServesOn.kernel.procs 0).state ≠ procStateReady := by
    decide +kernel
  have ha : Accepted .virt 0 0 virtReplies (.ecall 1 (callRegs 6 11 0 0 0 0 64)) virtCallsToo :=
    ⟨after_step hok.1, ⟨_, ⟨1, rfl, hcur⟩, by decide, ⟨1, hinv⟩, hacq⟩, hwaits⟩
  have hrun : Pending .virt 0 0 virtCallsToo (.schedule 2 0) virtCalledToo :=
    pending_schedule (after_step hok.2.1)
  exact ⟨virtReplies, _, virtCallsToo, virtCalledToo, _, virtServesOn, _, hr, ha,
    (Steps.refl _).snoc hrun, after_step hok.2.2, serverCall_of hcur' (by decide) hinv',
    fun h => hlast (congrArg Proc.state h.1)⟩

end SepKernel
