import SepKernel.Proc
import SepKernel.Invariant

/-!
# State words

What the operations of `inc/proc_state.h` do to the state word of a process, and the few facts
about its bits that make them fit together: a waiting word is no running one, it names its
channel, and releasing a receiver leaves it ready.
-/

namespace SepKernel

variable {cfg : Config} {s : Kernel} {p q : Nat} {ch ch' x y : Word}

/-! ## Bits -/

/-- The words of a process that a hart runs. -/
def Running (x : Word) : Prop := x = procStateRunning ∨ x = procStateRunningThenSuspend

/-- The words a process has while no hart runs it. -/
def Idle (x : Word) : Prop :=
  x = procStateReady ∨ x = procStateSuspended ∨
    ∃ ch : Word, ch.toNat < 2 ^ 16 ∧ x = waitingOn ch

instance (x : Word) : Decidable (Running x) := inferInstanceAs (Decidable (_ ∨ _))

/-- The channel stands above bit 48, so the low bits are the tag's. -/
theorem shifted_and (ch : Word) {m : Word} (hm : m.toNat < 2 ^ 48) : (ch <<< 48) &&& m = 0 := by
  apply BitVec.eq_of_getLsbD_eq
  intro i _
  rw [BitVec.getLsbD_and, BitVec.getLsbD_shiftLeft]
  by_cases hi : i < 48
  · simp [hi]
  · have hmi : m.getLsbD i = false := by
      have : (2 : Nat) ^ 48 ≤ 2 ^ i := Nat.pow_le_pow_right (by decide) (by omega)
      exact Nat.testBit_lt_two_pow (by omega)
    simp [hmi]

theorem tagged_and (ch tag : Word) {m : Word} (hm : m.toNat < 2 ^ 48) :
    ((ch <<< 48) ||| tag) &&& m = tag &&& m := by
  apply BitVec.eq_of_getLsbD_eq
  intro i _
  have h0 : ((ch <<< 48) &&& m).getLsbD i = false := by rw [shifted_and ch hm]; simp
  rw [BitVec.getLsbD_and] at h0
  rw [BitVec.getLsbD_and, BitVec.getLsbD_and, BitVec.getLsbD_or, Bool.and_or_distrib_right, h0,
    Bool.false_or]

theorem waitingOn_and {m : Word} (hm : m.toNat < 2 ^ 48) : waitingOn ch &&& m = 2 &&& m :=
  tagged_and ch procStateWaiting hm

theorem receivingOn_and {m : Word} (hm : m.toNat < 2 ^ 48) : receivingOn ch &&& m = 3 &&& m :=
  tagged_and ch procStateReceiving hm

theorem waitingOn_ne (hx : x &&& 7 ≠ 2) : waitingOn ch ≠ x := by
  rintro rfl
  rw [waitingOn_and (by decide)] at hx
  exact hx rfl

/-- The word tells the channel. -/
theorem waitingOn_injective (h : ch.toNat < 2 ^ 16) (h' : ch'.toNat < 2 ^ 16)
    (heq : waitingOn ch = waitingOn ch') : ch = ch' := by
  have hsh : ∀ {c : Word}, c.toNat < 2 ^ 16 → (waitingOn c) >>> 48 = c := by
    intro c hc
    apply BitVec.eq_of_toNat_eq
    have hc' : c.toNat * 2 ^ 48 < 2 ^ 64 := by omega
    rw [waitingOn, procStateWaiting, BitVec.toNat_ushiftRight, BitVec.toNat_or,
      BitVec.toNat_shiftLeft, Nat.shiftLeft_eq, Nat.mod_eq_of_lt hc', Nat.shiftRight_or_distrib,
      Nat.shiftRight_eq_div_pow, Nat.shiftRight_eq_div_pow,
      Nat.mul_div_cancel _ (Nat.two_pow_pos 48)]
    simp
  rw [← hsh h, heq, hsh h']

theorem Running.ne_waitingOn (h : Running x) : x ≠ waitingOn ch := by
  rcases h with rfl | rfl
  · exact (waitingOn_ne (by decide)).symm
  · exact (waitingOn_ne (by decide)).symm

/-! ## Running the operations -/

theorem readState_run (p : Nat) (s : Kernel) : (readState p).run s = .ok ((s.procs p).state, s) := rfl

theorem writeState_run (p : Nat) (x : Word) (s : Kernel) :
    (writeState p x).run s = .ok ((), s.setState p x) := rfl

theorem readReg_run (p : Nat) (r : Reg) (s : Kernel) :
    (readReg p r).run s = .ok ((s.procs p).regs r, s) := rfl

theorem writeReg_run (p : Nat) (r : Reg) (x : Word) (s : Kernel) :
    (writeReg p r x).run s = .ok ((), s.setReg p r x) := rfl

theorem casState_run_of_eq (h : (s.procs p).state = x) :
    (casState p x y).run s = .ok (true, s.setState p y) := by
  rw [casState, run_bind_ok (readState_run p s), if_pos h]
  rfl

theorem casState_run_of_ne (h : (s.procs p).state ≠ x) :
    (casState p x y).run s = .ok (false, s) := by
  rw [casState, run_bind_ok (readState_run p s), if_neg h]
  rfl

namespace Kernel

@[simp] theorem procs_setProc_same (x : Proc) : (s.setProc p x).procs p = x := by simp [setProc]

theorem procs_setProc_of_ne (x : Proc) (h : q ≠ p) : (s.setProc p x).procs q = s.procs q := by
  simp [setProc, h]

@[simp] theorem state_setState (x : Word) : ((s.setState p x).procs p).state = x := by
  simp [setState]

theorem procs_setState_same (x : Word) :
    (s.setState p x).procs p = { s.procs p with state := x } := procs_setProc_same _

@[simp] theorem regs_setState (x : Word) :
    ((s.setState p x).procs q).regs = (s.procs q).regs := by
  by_cases h : q = p
  · subst h
    simp [setState]
  · rw [setState, procs_setProc_of_ne _ h]

theorem procs_setState_of_ne (x : Word) (h : q ≠ p) : (s.setState p x).procs q = s.procs q :=
  procs_setProc_of_ne _ h

@[simp] theorem state_setReg (r : Reg) (x : Word) :
    ((s.setReg p r x).procs q).state = (s.procs q).state := by
  by_cases h : q = p
  · subst h
    simp [setReg]
  · rw [setReg, procs_setProc_of_ne _ h]

theorem procs_setReg_of_ne (r : Reg) (x : Word) (h : q ≠ p) :
    (s.setReg p r x).procs q = s.procs q := procs_setProc_of_ne _ h

@[simp] theorem regs_setReg_same (r : Reg) (x : Word) :
    ((s.setReg p r x).procs p).regs r = x := by
  simp [setReg]

theorem regs_setReg_of_ne {r r' : Reg} (x : Word) (h : r' ≠ r) :
    ((s.setReg p r x).procs q).regs r' = (s.procs q).regs r' := by
  by_cases hq : q = p
  · subst hq
    simp [setReg, h]
  · rw [procs_setReg_of_ne _ _ hq]

@[simp] theorem setState_setState (x y : Word) :
    (s.setState p x).setState p y = s.setState p y := by
  simp [setState, setProc]

end Kernel

/-- Releasing the process a hart runs. -/
theorem procRelease_run (h : Running (s.procs p).state) :
    (procRelease p).run s = .ok ((), s.setState p ((s.procs p).state &&& 4)) := by
  have hmask : ((s.procs p).state &&& procStateWaiting == 0) = true := by
    rcases h with h | h <;> rw [h] <;> decide
  rw [procRelease, run_bind_ok (readState_run p s), hmask]
  rfl

/-- A process that already waits is not touched. -/
theorem procRelease_run_of_waiting (h : (s.procs p).state = waitingOn ch) :
    (procRelease p).run s = .ok ((), s) := by
  have hmask : ((s.procs p).state &&& procStateWaiting == 0) = false := by
    rw [h, waitingOn_and (by decide)]
    decide
  rw [procRelease, run_bind_ok (readState_run p s), hmask]
  rfl

/-- The word `proc_receiver_wait` and `proc_release`, one after the other, leave. -/
def parked (x ch : Word) : Word := if x = procStateRunning then waitingOn ch else x &&& 4

theorem procReceiverWait_run (ch : Word) (h : Running (s.procs p).state) :
    ∃ b, (procReceiverWait p ch).run s = .ok (b, s.setState p
      (if (s.procs p).state = procStateRunning then waitingOn ch else (s.procs p).state)) := by
  rcases h with h | h
  · exact ⟨true, by rw [procReceiverWait, casState_run_of_eq h, if_pos h]⟩
  · have hne : (s.procs p).state ≠ procStateRunning := by rw [h]; decide
    refine ⟨false, ?_⟩
    rw [procReceiverWait, casState_run_of_ne hne, if_neg hne]
    simp [Kernel.setState, Kernel.setProc]

theorem procSupervisorAcquire_run (h : (s.procs p).state = procStateSuspended) :
    (procSupervisorAcquire p).run s = .ok (true, s.setState p procStateSuspendedBusy) :=
  casState_run_of_eq h

theorem procSupervisorAcquire_run_of_ne (h : (s.procs p).state ≠ procStateSuspended) :
    (procSupervisorAcquire p).run s = .ok (false, s) := casState_run_of_ne h

theorem procSupervisorRelease_run (h : (s.procs p).state = procStateSuspendedBusy) :
    (procSupervisorRelease p).run s = .ok ((), s.setState p procStateSuspended) := by
  rw [procSupervisorRelease, run_bind_ok (readState_run p s),
    run_bind_ok (run_kassert (by rw [h]; rfl) s)]
  rfl

theorem procSupervisorResume_run (h : (s.procs p).state = procStateSuspended) :
    (procSupervisorResume p).run s = .ok (true, s.setState p procStateReady) := by
  rw [procSupervisorResume, run_bind_ok (procSupervisorAcquire_run h)]
  simp only [if_true]
  rw [run_bind_ok (writeState_run _ _ _), Kernel.setState_setState]
  rfl

theorem procSupervisorResume_run_of_ne (h : (s.procs p).state ≠ procStateSuspended) :
    (procSupervisorResume p).run s = .ok (false, s) := by
  rw [procSupervisorResume, run_bind_ok (procSupervisorAcquire_run_of_ne h)]
  rfl

/-- The word a suspension leaves. -/
def suspended (x : Word) : Word :=
  if x &&& procStateSuspended = 0 ∧ x &&& 0x7 = procStateWaiting then procStateSuspended
  else x ||| procStateSuspended

theorem procSupervisorSuspend_run (p : Nat) (s : Kernel) :
    ∃ b, (procSupervisorSuspend p).run s = .ok (b, s.setState p (suspended (s.procs p).state)) ∧
      (b = true ∨ (s.procs p).state &&& procStateSuspended ≠ 0) := by
  have hor : (fetchAndOrState p procStateSuspended).run s =
      .ok ((s.procs p).state, s.setState p ((s.procs p).state ||| procStateSuspended)) := rfl
  rw [procSupervisorSuspend, run_bind_ok hor]
  by_cases h1 : (s.procs p).state &&& procStateSuspended = 0
  · have hbne : ((s.procs p).state &&& procStateSuspended != 0) = false := bne_eq_false_iff_eq.mpr h1
    by_cases h2 : (s.procs p).state &&& 0x7 = procStateWaiting
    · have hword : suspended (s.procs p).state = procStateSuspended := if_pos ⟨h1, h2⟩
      have hbeq : ((s.procs p).state &&& 0x7 == procStateWaiting) = true := beq_iff_eq.mpr h2
      refine ⟨true, ?_, Or.inl rfl⟩
      rw [hbne, hbeq, hword, ← Kernel.setState_setState (s := s) (p := p)
        ((s.procs p).state ||| procStateSuspended) procStateSuspended]
      rfl
    · have hword : suspended (s.procs p).state = (s.procs p).state ||| procStateSuspended :=
        if_neg fun h => h2 h.2
      have hbeq : ((s.procs p).state &&& 0x7 == procStateWaiting) = false :=
        beq_eq_false_iff_ne.mpr h2
      exact ⟨true, by rw [hbne, hbeq, hword]; rfl, Or.inl rfl⟩
  · have hword : suspended (s.procs p).state = (s.procs p).state ||| procStateSuspended :=
      if_neg fun h => h1 h.1
    have hbne : ((s.procs p).state &&& procStateSuspended != 0) = true := bne_iff_ne.mpr h1
    exact ⟨false, by rw [hbne, hword]; rfl, Or.inr h1⟩

theorem procSenderRelease_run (ch : Word) (h : (s.procs p).state = receivingOn ch) :
    (procSenderRelease p).run s = .ok ((), s.setState p procStateReady) := by
  have hor : (fetchAndAndState p procStateSuspended).run s =
      .ok ((s.procs p).state, s.setState p ((s.procs p).state &&& procStateSuspended)) := rfl
  have hmask : (s.procs p).state &&& procStateSuspended = procStateReady := by
    rw [h, receivingOn_and (by decide)]
    decide
  rw [procSenderRelease, run_bind_ok hor, hmask]
  rfl

/-! ## Words over a step -/

theorem Idle.not_running (h : Idle x) : ¬ Running x := by
  rcases h with rfl | rfl | ⟨ch, -, rfl⟩
  · decide
  · decide
  · exact fun h => h.ne_waitingOn rfl

theorem suspended_running (h : Running x) : suspended x = procStateRunningThenSuspend := by
  rcases h with rfl | rfl <;> decide

theorem suspended_idle (h : Idle x) : suspended x = procStateSuspended := by
  rcases h with rfl | rfl | ⟨ch, -, rfl⟩
  · decide
  · decide
  · rw [suspended, if_pos]
    exact ⟨by rw [waitingOn_and (by decide)]; decide, by rw [waitingOn_and (by decide)]; decide⟩

theorem parked_idle (h : Running x) (hch : ch.toNat < 2 ^ 16) : Idle (parked x ch) := by
  rcases h with rfl | rfl
  · exact Or.inr (Or.inr ⟨ch, hch, by rw [parked, if_pos rfl]⟩)
  · exact Or.inr (Or.inl (by rw [parked, if_neg (by decide)]; decide))

theorem released_idle (h : Running x) : Idle (x &&& 4) := by
  rcases h with rfl | rfl
  · exact Or.inl (by decide)
  · exact Or.inr (Or.inl (by decide))

end SepKernel
