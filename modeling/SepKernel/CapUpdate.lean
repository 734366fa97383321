import SepKernel.CapView
import SepKernel.Syscall

/-!
# Making and updating capabilities

The constructors build the capability their name says and accept only valid ones, and
`derive_update_cap` and `revoke_update_cap` do to the words what `afterDerive` and `reset` do to
the capability. The second one fails on channels, whose free pointer it looks for through the
accessors of time.
-/

namespace SepKernel

variable {cfg : Config} {p c cap : Cap} {v : Word}

/-! ## Setters -/

/-- A setter changes its own component of the capability. -/
theorem memory_set_free (hp : capIsType p .memory = true) (hv : BitField.Fits memoryFree.bits v) :
    (memoryFree.set p v).view = .memory ⟨(capMemoryGetBegin p).toNat, v.toNat,
      (capMemoryGetEnd p).toNat⟩ (capMemoryGetRwx p) (capMemoryGetPmp p).toNat := by
  have ht : capIsType (memoryFree.set p v) .memory = true := by
    rw [capIsType_set (by decide) hv, hp]
  rw [Cap.view_eq ht]
  simp (disch := first | assumption | decide) only [Cap.viewAs, capMemoryGetBegin,
    capMemoryGetFree, capMemoryGetEnd, capMemoryGetRwx, capMemoryGetPmp, Field.get_set_same,
    Field.get_set_of_apart]

theorem memory_set_pmp (hp : capIsType p .memory = true) (hv : BitField.Fits memoryPmp.bits v) :
    (memoryPmp.set p v).view = .memory ⟨(capMemoryGetBegin p).toNat, (capMemoryGetFree p).toNat,
      (capMemoryGetEnd p).toNat⟩ (capMemoryGetRwx p) v.toNat := by
  have ht : capIsType (memoryPmp.set p v) .memory = true := by
    rw [capIsType_set (by decide) hv, hp]
  rw [Cap.view_eq ht]
  simp (disch := first | assumption | decide) only [Cap.viewAs, capMemoryGetBegin,
    capMemoryGetFree, capMemoryGetEnd, capMemoryGetRwx, capMemoryGetPmp, Field.get_set_same,
    Field.get_set_of_apart]

theorem time_set_free (hp : capIsType p .time = true) (hv : BitField.Fits timeFree.bits v) :
    (timeFree.set p v).view = .time (capTimeGetHartid p).toNat ⟨(capTimeGetBegin p).toNat,
      v.toNat, (capTimeGetEnd p).toNat⟩ := by
  have ht : capIsType (timeFree.set p v) .time = true := by
    rw [capIsType_set (by decide) hv, hp]
  rw [Cap.view_eq ht]
  simp (disch := first | assumption | decide) only [Cap.viewAs, capTimeGetHartid, capTimeGetBegin,
    capTimeGetFree, capTimeGetEnd, Field.get_set_same, Field.get_set_of_apart]

theorem channels_set_free (hp : capIsType p .channels = true)
    (hv : BitField.Fits channelsFree.bits v) :
    (channelsFree.set p v).view = .channels ⟨(capChannelsGetBegin p).toNat, v.toNat,
      (capChannelsGetEnd p).toNat⟩ := by
  have ht : capIsType (channelsFree.set p v) .channels = true := by
    rw [capIsType_set (by decide) hv, hp]
  rw [Cap.view_eq ht]
  simp (disch := first | assumption | decide) only [Cap.viewAs, capChannelsGetBegin,
    capChannelsGetFree, capChannelsGetEnd, Field.get_set_same, Field.get_set_of_apart]

theorem supervisor_set_free (hp : capIsType p .supervisor = true)
    (hv : BitField.Fits supervisorFree.bits v) :
    (supervisorFree.set p v).view = .supervisor ⟨(capSupervisorGetBegin p).toNat, v.toNat,
      (capSupervisorGetEnd p).toNat⟩ := by
  have ht : capIsType (supervisorFree.set p v) .supervisor = true := by
    rw [capIsType_set (by decide) hv, hp]
  rw [Cap.view_eq ht]
  simp (disch := first | assumption | decide) only [Cap.viewAs, capSupervisorGetBegin,
    capSupervisorGetFree, capSupervisorGetEnd, Field.get_set_same, Field.get_set_of_apart]

/-! ## `derive_update_cap` -/

/-- `channel + 1` fits the free field: the parent's end does. -/
theorem channel_succ {g : Field} (h : g.get c < capChannelsGetEnd p) :
    BitField.Fits channelsFree.bits (g.get c + 1) ∧
      (g.get c + 1).toNat = (g.get c).toNat + 1 := by
  have hlt : (g.get c).toNat < (capChannelsGetEnd p).toNat := h
  have hend : (capChannelsGetEnd p).toNat < 2 ^ 16 := Field.get_lt (f := channelsEnd) (by decide)
  have hadd : (g.get c + 1).toNat = (g.get c).toNat + 1 := by
    rw [BitVec.toNat_add, Nat.mod_eq_of_lt]
    · rfl
    · have : (1 : Word).toNat = 1 := rfl
      omega
  refine ⟨(BitField.fits_iff (by decide)).mpr ?_, hadd⟩
  have : channelsFree.bits = 16 := rfl
  rw [this]
  omega

/-- A derivation that is allowed updates the parent without an assert failing, and as
    `afterDerive` says. -/
theorem deriveUpdateCap_spec (h : capCanDerive p c = true) :
    ∃ p', deriveUpdateCap p c = .ok p' ∧ p'.view = p.view.afterDerive c.view := by
  unfold capCanDerive at h
  repeat' refine ite_cases h (fun ht h => ?_) fun h => ?_
  all_goals first
    | exact absurd h (by decide)
    | obtain ⟨hp, hc⟩ := Gen.types_of_and ht
      rw [Cap.view_eq hp, Cap.view_eq hc]
      simp only [deriveUpdateCap, capIsType_eq hp, capIsType_eq hc, reduceCtorEq, decide_false,
        decide_true, Bool.false_eq_true, if_false, if_true]
  -- memory from memory, and from here on in the order of `cap_can_derive`
  · have hv : BitField.Fits memoryFree.bits (memoryEnd.get c) :=
      Field.fits_get (by decide) (by decide) (by decide)
    refine ⟨memoryFree.set p (memoryEnd.get c), ?_, memory_set_free hp hv⟩
    simp only [Field.checkedGet_eq hc]
    exact Field.checkedSet_eq hp hv
  · exact ⟨_, Field.checkedSet_eq hp (by decide), memory_set_pmp hp (by decide)⟩
  · have hv : BitField.Fits timeFree.bits (timeEnd.get c) :=
      Field.fits_get (by decide) (by decide) (by decide)
    refine ⟨timeFree.set p (timeEnd.get c), ?_, time_set_free hp hv⟩
    simp only [Field.checkedGet_eq hc]
    exact Field.checkedSet_eq hp hv
  · have hv : BitField.Fits channelsFree.bits (channelsEnd.get c) :=
      Field.fits_get (by decide) (by decide) (by decide)
    refine ⟨channelsFree.set p (channelsEnd.get c), ?_, channels_set_free hp hv⟩
    simp only [Field.checkedGet_eq hc]
    exact Field.checkedSet_eq hp hv
  · simp only [Bool.and_eq_true, decide_eq_true_eq] at h
    obtain ⟨hv, hadd⟩ := channel_succ h.1.2
    refine ⟨channelsFree.set p (receiverChannel.get c + 1), ?_, ?_⟩
    · simp only [Field.checkedGet_eq hc]
      exact Field.checkedSet_eq hp hv
    · rw [channels_set_free hp hv, hadd]
      rfl
  · exact ⟨p, rfl, Cap.view_eq hp⟩
  · simp only [Bool.and_eq_true, decide_eq_true_eq] at h
    obtain ⟨hv, hadd⟩ := channel_succ h.1.2
    refine ⟨channelsFree.set p (serverChannel.get c + 1), ?_, ?_⟩
    · simp only [Field.checkedGet_eq hc]
      exact Field.checkedSet_eq hp hv
    · rw [channels_set_free hp hv, hadd]
      rfl
  · exact ⟨p, rfl, Cap.view_eq hp⟩
  · have hv : BitField.Fits supervisorFree.bits (supervisorEnd.get c) :=
      Field.fits_get (by decide) (by decide) (by decide)
    refine ⟨supervisorFree.set p (supervisorEnd.get c), ?_, supervisor_set_free hp hv⟩
    simp only [Field.checkedGet_eq hc]
    exact Field.checkedSet_eq hp hv

/-! ## `revoke_update_cap` -/

/-- On channels the first getter's assert fails. -/
theorem revokeUpdateCap_channels (hp : capIsType p .channels = true) :
    revokeUpdateCap p = .error .assertion := by
  simp only [revokeUpdateCap, capIsType_eq hp, reduceCtorEq, decide_false, decide_true,
    Bool.false_eq_true, if_false, if_true, Gen.capTimeGetBegin, Field.checkedGet]
  rfl

/-- What was handed out comes back, but for channels, which the source updates through the wrong
    accessors. -/
theorem revokeUpdateCap_spec (hp : capIsType p .channels = false) :
    ∃ p', revokeUpdateCap p = .ok p' ∧ p'.view = p.view.reset := by
  by_cases hm : capIsType p .memory = true
  · have hv : BitField.Fits memoryFree.bits (memoryBegin.get p) :=
      Field.fits_get (by decide) (by decide) (by decide)
    -- the only type with two fields to set: the second setter asserts the type again
    have ht : capIsType (memoryFree.set p (memoryBegin.get p)) .memory = true := by
      rw [capIsType_set (by decide) hv, hm]
    refine ⟨memoryPmp.set (memoryFree.set p (memoryBegin.get p)) 0, ?_, ?_⟩
    · simp only [revokeUpdateCap, hm, if_true, Field.checkedGet_eq hm]
      change (memoryFree.checkedSet .memory p (memoryBegin.get p) >>= _) = _
      rw [Field.checkedSet_eq hm hv]
      exact Field.checkedSet_eq ht (by decide)
    · rw [memory_set_pmp ht (by decide), Cap.view_eq hm]
      simp (disch := first | assumption | decide) only [Cap.viewAs, Capability.reset, Span.carve,
        capMemoryGetBegin, capMemoryGetFree, capMemoryGetEnd, capMemoryGetRwx,
        Field.get_set_same, Field.get_set_of_apart]
      rfl
  by_cases htm : capIsType p .time = true
  · have hv : BitField.Fits timeFree.bits (timeBegin.get p) :=
      Field.fits_get (by decide) (by decide) (by decide)
    refine ⟨timeFree.set p (timeBegin.get p), ?_, ?_⟩
    · simp only [revokeUpdateCap, hm, htm, if_true, Field.checkedGet_eq htm]
      exact Field.checkedSet_eq htm hv
    · rw [time_set_free htm hv, Cap.view_eq htm]
      rfl
  by_cases hs : capIsType p .supervisor = true
  · have hv : BitField.Fits supervisorFree.bits (supervisorBegin.get p) :=
      Field.fits_get (by decide) (by decide) (by decide)
    refine ⟨supervisorFree.set p (supervisorBegin.get p), ?_, ?_⟩
    · simp only [revokeUpdateCap, hm, htm, hp, hs, if_true, Field.checkedGet_eq hs]
      exact Field.checkedSet_eq hs hv
    · rw [supervisor_set_free hs hv, Cap.view_eq hs]
      rfl
  · refine ⟨p, ?_, ?_⟩
    · simp only [revokeUpdateCap, hm, htm, hp, hs]
      rfl
    · cases hv : p.view with
      | memory => exact absurd (Cap.isType_of_view (by rw [hv]; rfl)) hm
      | time => exact absurd (Cap.isType_of_view (by rw [hv]; rfl)) htm
      | channels => exact absurd (Cap.isType_of_view (by rw [hv]; rfl)) (by simp [hp])
      | supervisor => exact absurd (Cap.isType_of_view (by rw [hv]; rfl)) hs
      | _ => rfl

/-! ## Constructors -/

/-- What stands behind an assert is done only if it holds. -/
@[simp] theorem kassert_bind {α : Type} {b : Bool} {x : Except Halt α} {a : α} :
    (kassert b >>= fun _ => x) = .ok a ↔ b = true ∧ x = .ok a := by
  cases b
  · simp [kassert, bind, Except.bind]
  · simp [kassert, bind, Except.bind]

@[simp] theorem checkFits_bind {α : Type} {f : Field} {x : Except Halt α} {a : α} :
    (f.checkFits v >>= fun _ => x) = .ok a ↔ BitField.Fits f.bits v ∧ x = .ok a := by
  rw [Field.checkFits, kassert_bind, decide_eq_true_iff]

/-- A constructor starts with its fields clear. -/
theorem get_blank {f : Field} {t : CapType} (h : f.Apart .tag) : f.get t.blank = 0 := by
  have hput : t.blank = Field.tag.put ⟨0, 0⟩ t.code := by
    cases t <;> rfl
  have hfits : BitField.Fits Field.tag.bits t.code := by cases t <;> decide
  have hapart : Field.tag.Apart f := h.imp Ne.symm Or.symm
  rw [hput, Field.get_put_of_apart hfits hapart, Field.get, Field.word]
  have hzero : (0 : Word) >>> f.offset = 0 := BitVec.zero_ushiftRight
  cases f.inWord1 <;> simp [BitField.extract]

theorem capIsType_blank (t : CapType) : capIsType t.blank t = true := by
  cases t <;> decide

/-- What a constructor makes is what its arguments say, and they pass its asserts. -/
theorem capMkMemory_view {b e r f m : Word} (h : Gen.capMkMemory b e r f m = .ok cap) :
    cap.view = .memory ⟨b.toNat, b.toNat, e.toNat⟩ r 0 ∧ b < e := by
  simp only [Gen.capMkMemory, kassert_bind, checkFits_bind, beq_iff_eq, decide_eq_true_eq] at h
  obtain ⟨hb, he, hr, hf, hm, rfl, hlt, rfl, -, h⟩ := h
  obtain rfl := Except.ok.inj h
  refine ⟨?_, hlt⟩
  have ht : capIsType (capMkMemory b e r b 0) .memory = true := by
    simp (disch := first | assumption | decide) only [capMkMemory, capIsType_put,
      capIsType_blank]
  rw [Cap.view_eq ht]
  -- a field is still clear when it is written, which is what the inner `simp` is for
  simp (disch := first | assumption | decide |
    simp (disch := first | assumption | decide) only [Field.get_put_of_apart, get_blank]) only
    [Cap.viewAs, capMkMemory, capMemoryGetBegin, capMemoryGetFree, capMemoryGetEnd,
    capMemoryGetRwx, capMemoryGetPmp, Field.get_put_same, Field.get_put_of_apart]
  rfl

theorem capMkPmp_view {addr r : Word} (h : Gen.capMkPmp addr r = .ok cap) :
    cap.view = .pmp (pmpNapotBegin addr).toNat (pmpNapotEnd addr).toNat r ∧
      addr.toNat < 2 ^ 32 := by
  simp only [Gen.capMkPmp, kassert_bind, checkFits_bind] at h
  obtain ⟨ha, hr, -, h⟩ := h
  obtain rfl := Except.ok.inj h
  refine ⟨?_, (BitField.fits_iff (by decide)).mp ha⟩
  have ht : capIsType (capMkPmp addr r) .pmp = true := by
    simp (disch := first | assumption | decide) only [capMkPmp, capIsType_put, capIsType_blank]
  rw [Cap.view_eq ht]
  simp (disch := first | assumption | decide |
    simp (disch := first | assumption | decide) only [Field.get_put_of_apart, get_blank]) only
    [Cap.viewAs, capMkPmp, capPmpGetAddr, capPmpGetRwx, Field.get_put_same,
    Field.get_put_of_apart]

theorem capMkTime_view {lo hi n : Nat} {hart b e f : Word}
    (h : Gen.capMkTime lo hi n hart b e f = .ok cap) :
    cap.view = .time hart.toNat ⟨b.toNat, b.toNat, e.toNat⟩ ∧ lo ≤ hart.toNat ∧ hart.toNat ≤ hi ∧
      b < e ∧ e.toNat ≤ n := by
  simp only [Gen.capMkTime, kassert_bind, checkFits_bind, beq_iff_eq, decide_eq_true_eq] at h
  obtain ⟨hh, hb, he, hf, hlo, hhi, rfl, hlt, hn, h⟩ := h
  obtain rfl := Except.ok.inj h
  refine ⟨?_, hlo, hhi, hlt, hn⟩
  have ht : capIsType (capMkTime hart b e b) .time = true := by
    simp (disch := first | assumption | decide) only [capMkTime, capIsType_put, capIsType_blank]
  rw [Cap.view_eq ht]
  simp (disch := first | assumption | decide |
    simp (disch := first | assumption | decide) only [Field.get_put_of_apart, get_blank]) only
    [Cap.viewAs, capMkTime, capTimeGetHartid, capTimeGetBegin, capTimeGetFree, capTimeGetEnd,
    Field.get_put_same, Field.get_put_of_apart]

theorem capMkChannels_view {n : Nat} {b e f : Word} (h : Gen.capMkChannels n b e f = .ok cap) :
    cap.view = .channels ⟨b.toNat, b.toNat, e.toNat⟩ ∧ b < e ∧ e.toNat ≤ n := by
  simp only [Gen.capMkChannels, kassert_bind, checkFits_bind, beq_iff_eq, decide_eq_true_eq] at h
  obtain ⟨hb, he, hf, rfl, hlt, hn, h⟩ := h
  obtain rfl := Except.ok.inj h
  refine ⟨?_, hlt, hn⟩
  have ht : capIsType (capMkChannels b e b) .channels = true := by
    simp (disch := first | assumption | decide) only [capMkChannels, capIsType_put,
      capIsType_blank]
  rw [Cap.view_eq ht]
  simp (disch := first | assumption | decide |
    simp (disch := first | assumption | decide) only [Field.get_put_of_apart, get_blank]) only
    [Cap.viewAs, capMkChannels, capChannelsGetBegin, capChannelsGetFree, capChannelsGetEnd,
    Field.get_put_same, Field.get_put_of_apart]

theorem capMkSupervisor_view {n : Nat} {b e f : Word}
    (h : Gen.capMkSupervisor n b e f = .ok cap) :
    cap.view = .supervisor ⟨b.toNat, b.toNat, e.toNat⟩ ∧ b < e ∧ e.toNat ≤ n := by
  simp only [Gen.capMkSupervisor, kassert_bind, checkFits_bind, beq_iff_eq,
    decide_eq_true_eq] at h
  obtain ⟨hb, he, hf, rfl, hlt, hn, h⟩ := h
  obtain rfl := Except.ok.inj h
  refine ⟨?_, hlt, hn⟩
  have ht : capIsType (capMkSupervisor b e b) .supervisor = true := by
    simp (disch := first | assumption | decide) only [capMkSupervisor, capIsType_put,
      capIsType_blank]
  rw [Cap.view_eq ht]
  simp (disch := first | assumption | decide |
    simp (disch := first | assumption | decide) only [Field.get_put_of_apart, get_blank]) only
    [Cap.viewAs, capMkSupervisor, capSupervisorGetBegin, capSupervisorGetFree,
    capSupervisorGetEnd, Field.get_put_same, Field.get_put_of_apart]

/-- The four endpoints: a type, the place of the channel, the place of the grant. -/
theorem capMkEndpoint_view {chan grant : Field} {t : CapType} {n : Nat} {ch g : Word}
    (h : Gen.capMkEndpoint chan grant (fun a b => chan.put (grant.put t.blank b) a) n ch g = .ok cap)
    (hc : chan.Inside) (hg : grant.Inside) (hct : chan.Apart .tag) (hgt : grant.Apart .tag)
    (hgc : grant.Apart chan) :
    capIsType cap t = true ∧ chan.get cap = ch ∧ grant.get cap = g ∧ ch.toNat < n := by
  simp only [Gen.capMkEndpoint, kassert_bind, checkFits_bind, decide_eq_true_eq] at h
  obtain ⟨hch, hgr, hn, h⟩ := h
  obtain rfl := Except.ok.inj h
  have hcg : chan.Apart grant := hgc.imp Ne.symm Or.symm
  have hclear : chan.get (grant.put t.blank g) = 0 := by
    rw [Field.get_put_of_apart hgr hgc, get_blank hct]
  refine ⟨?_, Field.get_put_same hc hch hclear, ?_, hn⟩
  · rw [capIsType_put hct hch, capIsType_put hgt hgr, capIsType_blank]
  · rw [Field.get_put_of_apart hch hcg, Field.get_put_same hg hgr (get_blank hgt)]

/-- The words a constructor may return. -/
inductive Constructed (cfg : Config) : Cap → Prop where
  | memory {cap : Cap} (b e r f m : Word) (h : Gen.capMkMemory b e r f m = .ok cap) :
      Constructed cfg cap
  | pmp {cap : Cap} (addr r : Word) (h : Gen.capMkPmp addr r = .ok cap) : Constructed cfg cap
  | time {cap : Cap} (hart b e f : Word)
      (h : Gen.capMkTime cfg.minHartid cfg.maxHartid cfg.nQuantum hart b e f = .ok cap) :
      Constructed cfg cap
  | channels {cap : Cap} (b e f : Word) (h : Gen.capMkChannels cfg.nChannels b e f = .ok cap) :
      Constructed cfg cap
  | receiver {cap : Cap} (ch g : Word) (h : Gen.capMkReceiver cfg.nChannels ch g = .ok cap) :
      Constructed cfg cap
  | sender {cap : Cap} (ch g : Word) (h : Gen.capMkSender cfg.nChannels ch g = .ok cap) :
      Constructed cfg cap
  | server {cap : Cap} (ch g : Word) (h : Gen.capMkServer cfg.nChannels ch g = .ok cap) :
      Constructed cfg cap
  | client {cap : Cap} (ch g : Word) (h : Gen.capMkClient cfg.nChannels ch g = .ok cap) :
      Constructed cfg cap
  | supervisor {cap : Cap} (b e f : Word) (h : Gen.capMkSupervisor cfg.nProc b e f = .ok cap) :
      Constructed cfg cap

/-- Every constructor makes valid capabilities that have handed nothing out. -/
theorem Constructed.valid (h : Constructed cfg cap) :
    cap.view.Valid cfg ∧ cap.view.reset = cap.view := by
  have hwf : ∀ {b e : Word}, b < e → (⟨b.toNat, b.toNat, e.toNat⟩ : Span).WF := fun hlt =>
    ⟨le_rfl, le_of_lt hlt, hlt⟩
  cases h with
  | memory b e r f m h =>
    obtain ⟨hv, hlt⟩ := capMkMemory_view h
    rw [hv]
    exact ⟨⟨⟨hwf hlt, Or.inl rfl⟩, trivial⟩, rfl⟩
  | pmp addr r h =>
    obtain ⟨hv, ha⟩ := capMkPmp_view h
    rw [hv]
    refine ⟨⟨?_, trivial⟩, rfl⟩
    change (pmpNapotBegin addr).toNat < (pmpNapotEnd addr).toNat
    rw [pmpNapotBegin_toNat ha, pmpNapotEnd_toNat ha]
    exact Napot.first_lt_last _
  | time hart b e f h =>
    obtain ⟨hv, hlo, hhi, hlt, hn⟩ := capMkTime_view h
    rw [hv]
    exact ⟨⟨hwf hlt, hlo, hhi, hn⟩, rfl⟩
  | channels b e f h =>
    obtain ⟨hv, hlt, hn⟩ := capMkChannels_view h
    rw [hv]
    exact ⟨⟨hwf hlt, hn⟩, rfl⟩
  | supervisor b e f h =>
    obtain ⟨hv, hlt, hn⟩ := capMkSupervisor_view h
    rw [hv]
    exact ⟨⟨hwf hlt, hn⟩, rfl⟩
  | receiver ch g h =>
    obtain ⟨ht, rfl, -, hn⟩ := capMkEndpoint_view (t := .receiver) h (by decide) (by decide)
      (by decide) (by decide) (by decide)
    rw [Cap.view_eq ht]
    exact ⟨⟨trivial, hn⟩, rfl⟩
  | sender ch g h =>
    obtain ⟨ht, rfl, -, hn⟩ := capMkEndpoint_view (t := .sender) h (by decide) (by decide)
      (by decide) (by decide) (by decide)
    rw [Cap.view_eq ht]
    exact ⟨⟨trivial, hn⟩, rfl⟩
  | server ch g h =>
    obtain ⟨ht, rfl, -, hn⟩ := capMkEndpoint_view (t := .server) h (by decide) (by decide)
      (by decide) (by decide) (by decide)
    rw [Cap.view_eq ht]
    exact ⟨⟨trivial, hn⟩, rfl⟩
  | client ch g h =>
    obtain ⟨ht, rfl, -, hn⟩ := capMkEndpoint_view (t := .client) h (by decide) (by decide)
      (by decide) (by decide) (by decide)
    rw [Cap.view_eq ht]
    exact ⟨⟨trivial, hn⟩, rfl⟩

end SepKernel
