import SepKernel.Assertions
import SepKernel.Frame

/-!
# Deliveries

A message is written once, to the one process that waits for it, and that process is awake from
then on: no word it can have looks like waiting before it asks for the next message itself. So no
other message, and no capability that comes with one, can follow. What can go wrong is the
delivery: with the message goes a capability, and if that is a time capability with nothing left
the call stops in an assert, its receiver acquired and nothing written.
-/

namespace SepKernel

open Transition (Reachable Steps)

variable {cfg : Config} {s : Kernel} {st st' : System} {l : Label} {p q ch : Nat}
  {user : Reg → Word} {x : Proc} {pop : ProcOp}

/-! ## Awake -/

/-- The words of a process that runs, or that is ready or suspended: it waits for nothing. -/
def Awake (x : Word) : Prop := Running x ∨ x = procStateReady ∨ x = procStateSuspended

theorem Awake.ne_waitWord {x : Word} (h : Awake x) : x ≠ waitWord ch := by
  rcases h with h | rfl | rfl
  · exact h.ne_waitingOn
  · exact ready_ne_waitWord
  · exact suspended_ne_waitWord

/-- Nothing another process asks for puts it to sleep. -/
theorem Awake.apply (h : Awake x.state) : Awake (pop.apply q x).state := by
  cases pop with
  | none => exact h
  | suspend q' =>
    rw [ProcOp.apply]
    split
    · rcases h with h | h | h
      · exact Or.inl (Or.inr (suspended_running h))
      · exact Or.inr (Or.inr (suspended_idle (Or.inl h)))
      · exact Or.inr (Or.inr (suspended_idle (Or.inr (Or.inl h))))
    · exact h
  | resume q' =>
    rw [ProcOp.apply]
    split
    · exact Or.inr (Or.inl rfl)
    · exact h
  | write q' r y =>
    rw [ProcOp.apply]
    split <;> exact h
  | deliver q' m0 m1 m2 m3 =>
    rw [ProcOp.apply]
    split
    · exact Or.inr (Or.inl rfl)
    · exact h

/-- The word `proc_release` leaves. -/
theorem Awake.released {x : Word} (h : Running x) : Awake (x &&& 4) := by
  rcases h with rfl | rfl
  · exact Or.inr (Or.inl (by decide))
  · exact Or.inr (Or.inr (by decide))

/-- `q` invokes a receiver, a server or a client capability: it asks for a message. -/
def AsksAgain (cfg : Config) (s : System) (l : Label) (q : Nat) : Prop :=
  ∃ user ch g, Calls s l q user ∧ (user .t0).toNat = 6 ∧
    (invoked cfg s.kernel q user = .receiver ch g ∨ invoked cfg s.kernel q user = .server ch g ∨
      invoked cfg s.kernel q user = .client ch g)

/-- A step in which `q` asks for no message. -/
def Resting (cfg : Config) (q : Nat) (s : System) (l : Label) (s' : System) : Prop :=
  Step cfg s l s' ∧ ¬ AsksAgain cfg s l q

/-- A call that waits is a new wait. -/
theorem asksAgain_of_wait {a0 : Word} (hcall : Calls st l q user)
    (hw : restOf cfg st.kernel q user = .wait ch a0) : AsksAgain cfg st l q := by
  obtain ⟨hnr, ⟨⟨g, hc⟩, -⟩ | ⟨⟨g, hc⟩, -⟩ | ⟨⟨g, hc⟩, -⟩⟩ := restOf_wait hw
  · exact ⟨user, ch, g, hcall, hnr, Or.inl hc⟩
  · exact ⟨user, ch, g, hcall, hnr, Or.inr (Or.inl hc)⟩
  · exact ⟨user, ch, g, hcall, hnr, Or.inr (Or.inr hc)⟩

/-- Who is awake stays so until it asks. -/
theorem Awake.step (hg : st.Good cfg) (hs : Resting cfg q st l st')
    (h : Awake (st.kernel.procs q).state) : Awake (st'.kernel.procs q).state := by
  obtain ⟨hs, hrest⟩ := hs
  cases step_effect hg hs with
  | @call hart p user out k hcur hrun heff =>
    have hcall : Calls st (.ecall hart user) p user := ⟨hart, rfl, hcur⟩
    rw [finish_kernel]
    by_cases hqp : q = p
    · subst hqp
      have hcaller := heff.caller
      cases hr : restOf cfg st.kernel q user with
      | ret =>
        rw [hr] at hcaller
        exact hcaller.2 ▸ h.apply
      | yield =>
        rw [hr] at hcaller
        exact hcaller.2 ▸ Awake.released (hg.current hart q hcur).2
      -- to wait is to ask again
      | wait ch a0 => exact absurd (asksAgain_of_wait hcall hr) hrest
    · exact heff.others q hqp ▸ h.apply
  | @timer hart p user k hcur hown =>
    rw [finish_kernel]
    by_cases hqp : q = p
    · subst hqp
      rw [Kernel.state_setState]
      exact Awake.released (hg.current hart q hcur).2
    · rw [Kernel.procs_setState_of_ne _ hqp, hown.others q hqp]
      exact h
  | @exception hart p user mcause mtval k hcur hown =>
    by_cases hqp : q = p
    · subst hqp
      exact hown.state ▸ h
    · exact hown.others q hqp ▸ h
  | idle => exact h
  | @dispatch hart p mtime hart' hcur hp hready hhart =>
    by_cases hqp : q = p
    · subst hqp
      rw [Kernel.state_setState]
      exact Or.inl (Or.inl rfl)
    · rw [Kernel.procs_setState_of_ne _ hqp]
      exact h

/-! ## What goes with a message -/

/-- A capability goes with the message to `q`: both processes name a slot by its index, there is a
    capability in the one and none in the other. -/
structure SendsCap (cfg : Config) (s : Kernel) (p q : Nat) (user : Reg → Word) : Prop where
  src : (user .a5).toNat < cfg.nCaps
  dest : ((s.procs q).regs .destCidx).toNat < cfg.nCaps
  live : s.Live (.slot p (slotOf cfg (user .a5)))
  free : ¬ s.Live (.slot q (slotOf cfg ((s.procs q).regs .destCidx)))

/-- And it is a time capability with nothing left. -/
structure SendsExhausted (cfg : Config) (s : Kernel) (p q : Nat) (user : Reg → Word) : Prop
    extends SendsCap cfg s p q user where
  exhausted : (s.caps (.slot p (slotOf cfg (user .a5)))).TimeExhausted

/-- Whatever the message goes by, the capability that goes along is the same. -/
theorem capOp_of_via (hnr : (user .t0).toNat = 6)
    (hvia : MessageVia s q ch (invoked cfg s p user)) :
    capOp cfg s p user = deliverOp cfg s p (user .a5) q := by
  simp only [capOp, hnr]
  generalize invoked cfg s p user = c at hvia
  cases hvia with
  | sender h => simp only [invokeCapOp, h, Option.map_some, Option.getD_some]
  | client h => simp only [invokeCapOp, h, Option.map_some, Option.getD_some]
  | server h => simp only [invokeCapOp, h, Option.map_some, Option.getD_some]

/-- It goes from the sender's slot to the receiver's. -/
theorem SendsCap.deliverOp (h : SendsCap cfg s p q user) : deliverOp cfg s p (user .a5) q =
    .transfer p (slotOf cfg (user .a5)) q (slotOf cfg ((s.procs q).regs .destCidx)) := by
  rw [SepKernel.deliverOp, if_pos ⟨h.src, h.dest⟩]
  exact if_pos ⟨h.live, h.free⟩

theorem deliverOp_of_not_sendsCap (h : ¬ SendsCap cfg s p q user) :
    deliverOp cfg s p (user .a5) q = .skip := by
  rw [deliverOp]
  split
  · next hc => exact if_neg fun hl => h ⟨hc.1, hc.2, hl.1, hl.2⟩
  · rfl

/-- The one way for a message to stop the hart. -/
theorem callHangs_iff_sendsExhausted (hnr : (user .t0).toNat = 6)
    (hvia : MessageVia s q ch (invoked cfg s p user)) :
    CallHangs cfg s p user ↔ SendsExhausted cfg s p q user := by
  rw [CallHangs, capOp_of_via hnr hvia]
  by_cases hc : SendsCap cfg s p q user
  · rw [hc.deliverOp]
    exact ⟨fun h => ⟨hc, Cap.timeExhausted_iff.mpr h⟩, fun h => Cap.timeExhausted_iff.mp h.exhausted⟩
  · rw [deliverOp_of_not_sendsCap hc]
    exact ⟨False.elim, fun h => hc h.toSendsCap⟩

/-! ## Delivered once -/

/-- `p` invokes a receiver, sender, server or client capability. -/
def IpcCall (cfg : Config) (s : System) (l : Label) (p : Nat) : Prop :=
  ∃ user ch g, Calls s l p user ∧ (user .t0).toNat = 6 ∧
    (invoked cfg s.kernel p user = .receiver ch g ∨ invoked cfg s.kernel p user = .sender ch g ∨
      invoked cfg s.kernel p user = .server ch g ∨ invoked cfg s.kernel p user = .client ch g)

/-- The call of `p` writes its message to `q`, which waits on the channel, and to nobody else; and
    until `q` asks again no such call of another process touches what `q` has. -/
structure DeliveredOnce (cfg : Config) (s : System) (s' : System) (p q ch : Nat)
    (user : Reg → Word) : Prop where
  waits : (s.kernel.procs q).state = waitWord ch
  other : q ≠ p
  written : s'.kernel.procs q = { s.kernel.procs q with
    regs := deliveredRegs (s.kernel.procs q).regs (user .a1) (user .a2) (user .a3) (user .a4)
    state := procStateReady }
  others : ∀ r, r ≠ p → r ≠ q → s'.kernel.procs r = s.kernel.procs r
  lasts : ∀ t l t' p', Steps (Resting cfg q) s' t → Step cfg t l t' → IpcCall cfg t l p' →
    p' ≠ q → t'.kernel.procs q = t.kernel.procs q ∧ SameSlots t.kernel t'.kernel q

/-- A call has one receiver. -/
theorem MessageVia.unique {c : Capability} {q' ch' : Nat} (h : MessageVia s q ch c)
    (h' : MessageVia s q' ch' c) : q = q' := by
  cases h with
  | sender h => cases h' with | sender h' => exact Option.some.inj (h.symm.trans h')
  | client h => cases h' with | client h' => exact Option.some.inj (h.symm.trans h')
  | server h => cases h' with | server h' => exact Option.some.inj (h.symm.trans h')

/-- Such a call acts on nobody who is awake, its caller apart. -/
theorem IpcCall.not_acts (hipc : IpcCall cfg st l p) (hcall : Calls st l p user) (hqp : p ≠ q)
    (hq : Awake (st.kernel.procs q).state) : ¬ Acts cfg st.kernel p user q := by
  obtain ⟨user', ch, g, hcall', hnr, hinv⟩ := hipc
  obtain ⟨-, rfl⟩ := hcall.unique hcall'
  intro h
  cases h with
  | self h => exact hqp h.symm
  | supervises _ hsup =>
    rw [hsup] at hinv
    rcases hinv with h | h | h | h <;> cases h
  | messages _ hvia => exact hq.ne_waitWord hvia.state

/-- A call for a message that ends has delivered it, once. -/
theorem DeliveredOnce.of_step (hg : st.Good cfg) (hs : Step cfg st l st')
    (hm : Messages cfg st l p q ch user) : DeliveredOnce cfg st st' p q ch user := by
  obtain ⟨hwait, hwritten⟩ := message_written hg hs hm
  obtain ⟨hcall, hnr, hvia⟩ := hm
  have hqp : q ≠ p := hcall.ne_of_off (off_of_not_running hg fun h => h.ne_waitingOn hwait)
  refine ⟨hwait, hqp, hwritten, fun r hrp hrq => ?_, fun t l' t' p' hrun hl hipc hp' => ?_⟩
  · refine call_sameProc hg hs hcall fun hacts => ?_
    cases hacts with
    | self h => exact hrp h
    | supervises _ hsup => rw [hsup] at hvia; cases hvia
    | messages _ hvia' => exact hrq (hvia'.unique hvia)
  · have hg' : st'.Good cfg := step_good hg hs
    have ht : t.Good cfg ∧ Awake (t.kernel.procs q).state :=
      hrun.invariant (I := fun u => u.Good cfg ∧ Awake (u.kernel.procs q).state)
        (fun u _ u' hu hl => ⟨step_good hu.1 hl.1, hu.2.step hu.1 hl⟩)
        ⟨hg', by rw [hwritten]; exact Or.inr (Or.inl rfl)⟩
    obtain ⟨user', _, _, hcall', -⟩ := id hipc
    have hno := hipc.not_acts hcall' hp' ht.2
    exact ⟨call_sameProc ht.1 hl hcall' hno, call_sameSlots ht.1 hl hcall' hno⟩

/-- And the one that does not end is this. -/
theorem step_of_sendsExhausted (hg : st.Good cfg) (hm : Messages cfg st l p q ch user)
    (hex : SendsExhausted cfg st.kernel p q user) : step cfg l st = some (.error .assertion) := by
  obtain ⟨⟨hart, rfl, hcur⟩, hnr, hvia⟩ := hm
  exact (step_ecall user hg hcur).1 ((callHangs_iff_sendsExhausted hnr hvia).mpr hex)

/-- Without one it does not stop. -/
theorem step_of_not_sendsExhausted (hg : st.Good cfg) (hm : Messages cfg st l p q ch user)
    (hex : ¬ SendsExhausted cfg st.kernel p q user) : ∃ st', Step cfg st l st' := by
  obtain ⟨⟨hart, rfl, hcur⟩, hnr, hvia⟩ := hm
  obtain ⟨st', hs, -⟩ := (step_ecall user hg hcur).2
    (mt (callHangs_iff_sendsExhausted hnr hvia).mp hex)
  exact ⟨st', hs⟩

/-- In every run, a call that gets past its acquire delivers its message, once, just if it does not
    send an exhausted time capability along. -/
theorem delivered_once_iff (hr : Reachable (Booted cfg) (Step cfg) st)
    (hm : Messages cfg st l p q ch user) :
    (∃ st', Step cfg st l st' ∧ DeliveredOnce cfg st st' p q ch user) ↔
      ¬ SendsExhausted cfg st.kernel p q user := by
  have hg : st.Good cfg := good_of_reachable (fun _ => Booted.root) hr
  constructor
  · rintro ⟨st', hs, -⟩ hex
    rw [Step, step_of_sendsExhausted hg hm hex] at hs
    cases hs
  · intro hex
    obtain ⟨st', hs⟩ := step_of_not_sendsExhausted hg hm hex
    exact ⟨st', hs, .of_step hg hs hm⟩

/-- Process 1 sends the message the root process waits for, and no capability. -/
theorem delivered_once_virtWaits : ∃ st',
    Step .virt virtWaits (.ecall 2 (callRegs 6 0 7 8 9 10 64)) st' ∧
      DeliveredOnce .virt virtWaits st' 1 0 0 (callRegs 6 0 7 8 9 10 64) := by
  have hr : Reachable (Booted .virt) (Step .virt) virtWaits :=
    (virtAfter_reachable _).steps (after_steps _ _ _)
  obtain ⟨hinv, hcur, hacq⟩ :
      invoked .virt virtWaits.kernel 1 (callRegs 6 0 7 8 9 10 64) = .sender 0 1 ∧
      virtWaits.current 2 = some 1 ∧ acquired virtWaits.kernel 0 0 = some 0 := by
    decide +kernel
  have hm : Messages .virt virtWaits (.ecall 2 (callRegs 6 0 7 8 9 10 64)) 1 0 0
      (callRegs 6 0 7 8 9 10 64) := ⟨⟨2, rfl, hcur⟩, by decide, hinv ▸ .sender hacq⟩
  exact (delivered_once_iff hr hm).mpr fun h => absurd h.src (by decide)

/-- Process 1 waits, with slot 5 for what it may get; the root process has handed out all of hart
    1's time and kept the empty capability, in slot 3. -/
def virtSpends : List Label :=
  virtStartsOther (capMkReceiver 0 1) (capMkSender 0 1) 10 ++
    [.ecall 2 (callRegs 9 34 5 0 0 0 0),
     .ecall 2 (callRegs 6 0 0 0 0 0 0),
     .ecall 1 (callRegs 5 3 12 (capMkTime 1 0 128 0).word0 (capMkTime 1 0 128 0).word1 0 0)]

/-- The root process sends it; its message is acquired for and never written. -/
theorem acquired_not_delivered : ∃ s l p q ch user, Reachable (Booted .virt) (Step .virt) s ∧
    Messages .virt s l p q ch user ∧ step .virt l s = some (.error .assertion) := by
  have hr : Reachable (Booted .virt) (Step .virt) (virtAfter virtSpends) := virtAfter_reachable _
  have hg : (virtAfter virtSpends).Good .virt := good_of_reachable (fun _ => Booted.root) hr
  obtain ⟨hcur, hinv, hacq⟩ : (virtAfter virtSpends).current 1 = some 0 ∧
      invoked .virt (virtAfter virtSpends).kernel 0 (callRegs 6 11 7 8 9 10 3) = .sender 0 1 ∧
      acquired (virtAfter virtSpends).kernel 0 0 = some 1 := by
    decide +kernel
  have hex : SendsExhausted .virt (virtAfter virtSpends).kernel 0 1
      (callRegs 6 11 7 8 9 10 3) := by
    obtain ⟨hdest, hlive, hfree, hspent⟩ :
        (((virtAfter virtSpends).kernel.procs 1).regs .destCidx).toNat < Config.virt.nCaps ∧
        (virtAfter virtSpends).kernel.Live (.slot 0 (slotOf .virt 3)) ∧
        ¬ (virtAfter virtSpends).kernel.Live (.slot 1 (slotOf .virt
          (((virtAfter virtSpends).kernel.procs 1).regs .destCidx))) ∧
        ((virtAfter virtSpends).kernel.caps (.slot 0 (slotOf .virt 3))).TimeExhausted := by
      decide +kernel
    exact ⟨⟨by decide, hdest, hlive, hfree⟩, hspent⟩
  have hm : Messages .virt (virtAfter virtSpends) (.ecall 1 (callRegs 6 11 7 8 9 10 3)) 0 1 0
      (callRegs 6 11 7 8 9 10 3) := ⟨⟨1, rfl, hcur⟩, by decide, hinv ▸ .sender hacq⟩
  exact ⟨_, _, 0, 1, 0, _, hr, hm, step_of_sendsExhausted hg hm hex⟩

end SepKernel
