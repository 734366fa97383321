import SepKernel.Ownership

/-!
# Failing asserts

A kernel assert that fails hangs the hart. User programs can make one fail in two ways only: by
having the hook called for a time capability with nothing left to schedule, and by revoking a
slot that is deleted and whose old words are those of a channels capability.
-/

namespace SepKernel

open Transition (Reachable)

variable {cfg : Config} {s : Kernel} {st : System} {l : Label} {op : CapOp} {p : Nat}
  {user : Reg → Word} {cap : Cap}

/-- By the words: a time capability that has handed out all its quanta. -/
def Cap.TimeExhausted (cap : Cap) : Prop :=
  capIsType cap .time = true ∧ capTimeGetFree cap = capTimeGetEnd cap

instance (cap : Cap) : Decidable cap.TimeExhausted := inferInstanceAs (Decidable (_ ∧ _))

/-- In the terms of the abstract capability: nothing is left to hand out. -/
theorem Cap.timeExhausted_iff : cap.TimeExhausted ↔ cap.view.Exhausted := by
  constructor
  · rintro ⟨ht, he⟩
    rw [Cap.view_eq ht]
    exact congrArg BitVec.toNat he
  · intro h
    have ht : capIsType cap .time = true := by
      apply Cap.isType_of_view
      cases hv : cap.view with
      | time => rfl
      | _ => rw [hv] at h; exact h.elim
    rw [Cap.view_eq ht] at h
    exact ⟨ht, BitVec.eq_of_toNat_eq h⟩

/-- The caller asks to delete an exhausted time capability, to have it transferred, or to revoke a
    deleted slot that still has the words of one or of a channels capability. -/
inductive AsksForHang (cfg : Config) (s : Kernel) (p : Nat) (user : Reg → Word) : Prop where
  | delete {i : Nat} (hop : capOp cfg s p user = .delete p i)
      (h : (s.caps (.slot p i)).TimeExhausted)
  | transfer {srcPid i destPid j : Nat} (hop : capOp cfg s p user = .transfer srcPid i destPid j)
      (h : (s.caps (.slot srcPid i)).TimeExhausted)
  | revoke {i : Nat} (hop : capOp cfg s p user = .wipe p i)
      (h : capIsType (s.caps (.slot p i)) .channels = true ∨ (s.caps (.slot p i)).TimeExhausted)

/-- The calls that stop a hart, by their arguments. -/
theorem callHangs_iff : CallHangs cfg s p user ↔ AsksForHang cfg s p user := by
  constructor
  · intro h
    have hreq : CapRequest cfg s p user (capOp cfg s p user) := capOp_request
    rw [CallHangs] at h
    generalize hop : capOp cfg s p user = op at h hreq
    cases hreq with
    | delete => exact .delete hop (Cap.timeExhausted_iff.mpr h)
    | revoke => exact .revoke hop (h.imp id Cap.timeExhausted_iff.mpr)
    | give => exact .transfer hop (Cap.timeExhausted_iff.mpr h)
    | take => exact .transfer hop (Cap.timeExhausted_iff.mpr h)
    | message => exact .transfer hop (Cap.timeExhausted_iff.mpr h)
    | _ => exact h.elim
  · intro h
    rw [CallHangs]
    cases h with
    | delete hop h =>
      rw [hop]
      exact Cap.timeExhausted_iff.mp h
    | transfer hop h =>
      rw [hop]
      exact Cap.timeExhausted_iff.mp h
    | revoke hop h =>
      rw [hop]
      exact h.imp id Cap.timeExhausted_iff.mp

/-- And they do stop it. -/
theorem step_of_asks {h : Nat} (hg : st.Good cfg) (hcur : st.current h = some p)
    (hask : AsksForHang cfg st.kernel p user) :
    step cfg (.ecall h user) st = some (.error .assertion) :=
  (step_error hg).mpr ⟨rfl, h, user, p, rfl, hcur, callHangs_iff.mpr hask⟩

/-- In every state of every run, a step stops the hart just if it is such a call, and then in an
    assert. -/
theorem assert_fails_iff (hr : Reachable (Booted cfg) (Step cfg) st) (l : Label) {e : Halt} :
    step cfg l st = some (.error e) ↔ e = .assertion ∧ ∃ h user p, l = .ecall h user ∧
      st.current h = some p ∧ AsksForHang cfg st.kernel p user := by
  have hg : st.Good cfg := good_of_reachable (fun _ => Booted.root) hr
  rw [step_error hg]
  simp only [callHangs_iff]

/-- The root process has handed out all of hart 1's time. -/
def virtExhausts : List Label :=
  [.schedule 1 0, .ecall 1 (callRegs 5 3 10 (capMkTime 1 0 128 0).word0
    (capMkTime 1 0 128 0).word1 0 0)]

theorem capOp_delete (hnr : (user .t0).toNat = 3) (hl : s.Live (.slot p (slotOf cfg (user .a0)))) :
    capOp cfg s p user = .delete p (slotOf cfg (user .a0)) := by
  simp only [capOp, hnr, if_pos hl]

/-- It asks to delete what is left of the capability. -/
theorem virtExhausts_asks : (virtAfter virtExhausts).current 1 = some 0 ∧
    AsksForHang .virt (virtAfter virtExhausts).kernel 0 (callRegs 3 3 0 0 0 0 0) :=
  ⟨by decide +kernel, .delete (capOp_delete (by decide) (by decide +kernel)) (by decide +kernel)⟩

/-- The root process deletes a time capability that it has handed out whole. -/
theorem assert_fails_virtExhausts :
    step .virt (.ecall 1 (callRegs 3 3 0 0 0 0 0)) (virtAfter virtExhausts) =
      some (.error .assertion) := by
  obtain ⟨hcur, hask⟩ := virtExhausts_asks
  exact (assert_fails_iff (virtAfter_reachable virtExhausts) _).mpr
    ⟨rfl, 1, _, 0, rfl, hcur, hask⟩

/-- So a user program hangs the hart it runs on, and no step of the hart follows. -/
theorem user_program_hangs_hart : ∃ s l, Reachable (Booted .virt) (Step .virt) s ∧
    step .virt l s = some (.error .assertion) := by
  obtain ⟨hcur, hask⟩ := virtExhausts_asks
  have hr := virtAfter_reachable virtExhausts
  have hg : (virtAfter virtExhausts).Good .virt := good_of_reachable (fun _ => Booted.root) hr
  exact ⟨_, .ecall 1 (callRegs 3 3 0 0 0 0 0), hr, step_of_asks hg hcur hask⟩

end SepKernel
