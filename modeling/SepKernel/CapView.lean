import SepKernel.GenCap
import SepKernel.Capability
import SepKernel.Lib.Napot

/-!
# From words to capabilities

The laws of the fields of `gen/cap.yml`, and the capability that a pair of words stands for. The
generated predicates and the update functions of `src/syscall.c` are the relations and functions
of `SepKernel.Capability` seen through this view; nothing after this file looks at bits.
-/

namespace SepKernel

/-! ## Laws of the fields -/

namespace Field

/-- The tag, which `CAP_GET_TYPE` reads. -/
def tag : Field := ⟨false, 0, 1⟩

/-- The field lies inside its word. -/
def Inside (f : Field) : Prop := f.offset + f.bits ≤ 64

/-- The fields share no bit. -/
def Apart (f g : Field) : Prop :=
  f.inWord1 ≠ g.inWord1 ∨ BitField.Apart f.offset f.bits g.offset g.bits

instance (f : Field) : Decidable f.Inside := inferInstanceAs (Decidable (_ ≤ _))
instance (f g : Field) : Decidable (f.Apart g) := inferInstanceAs (Decidable (_ ∨ _))

variable {f g : Field} {cap : Cap} {v : Word}

@[simp] theorem word_setWord_same (x : Word) : f.word (f.setWord cap x) = x := by
  cases h : f.inWord1 <;> simp [word, setWord, h]

@[simp] theorem setWord_word : f.setWord cap (f.word cap) = cap := by
  cases h : f.inWord1 <;> simp [word, setWord, h]

theorem word_setWord_of_eq (x : Word) (h : f.inWord1 = g.inWord1) :
    g.word (f.setWord cap x) = x := by
  rw [word, ← h]
  exact word_setWord_same x

theorem word_setWord_of_ne (x : Word) (h : f.inWord1 ≠ g.inWord1) :
    g.word (f.setWord cap x) = g.word cap := by
  cases hf : f.inWord1 <;> cases hg : g.inWord1 <;> simp_all [word, setWord]

theorem word_of_eq (h : f.inWord1 = g.inWord1) : f.word cap = g.word cap := by
  rw [word, word, h]

/-- A setter writes what the getter reads. -/
theorem get_set_same (hf : f.Inside) (hv : BitField.Fits f.bits v) : f.get (f.set cap v) = v := by
  rw [get, set, word_setWord_same]
  exact BitField.extract_replace_same hv hf

/-- And nothing that another getter reads. -/
theorem get_set_of_apart (hv : BitField.Fits f.bits v) (h : f.Apart g) :
    g.get (f.set cap v) = g.get cap := by
  rw [get, get, set]
  by_cases hw : f.inWord1 = g.inWord1
  · rw [word_setWord_of_eq _ hw, word_of_eq hw]
    exact BitField.extract_replace_of_apart hv (h.resolve_left fun hn => hn hw)
  · rw [word_setWord_of_ne _ hw]

/-- Writing back what was read changes nothing. -/
theorem set_get : f.set cap (f.get cap) = cap := by
  rw [set, get, BitField.replace_extract, setWord_word]

/-- The same for the lines of a constructor, if the field was clear. -/
theorem get_put_same (hf : f.Inside) (hv : BitField.Fits f.bits v) (h0 : f.get cap = 0) :
    f.get (f.put cap v) = v := by
  rw [get, put, word_setWord_same]
  exact BitField.extract_or_same hv hf h0

theorem get_put_of_apart (hv : BitField.Fits f.bits v) (h : f.Apart g) :
    g.get (f.put cap v) = g.get cap := by
  rw [get, get, put]
  by_cases hw : f.inWord1 = g.inWord1
  · rw [word_setWord_of_eq _ hw, word_of_eq hw]
    exact BitField.extract_or_of_apart hv (h.resolve_left fun hn => hn hw)
  · rw [word_setWord_of_ne _ hw]

/-- What a getter returns fits the field. -/
theorem get_lt (hf : f.Inside) : (f.get cap).toNat < 2 ^ f.bits :=
  BitField.toNat_extract_lt ((Nat.le_add_left _ _).trans hf)

/-- The value of a field fits every field that is as large. -/
theorem fits_get (hf : f.Inside) (hg : g.Inside) (h : f.bits ≤ g.bits) :
    BitField.Fits g.bits (f.get cap) :=
  (BitField.fits_iff ((Nat.le_add_left _ _).trans hg)).mpr
    ((get_lt hf).trans_le (Nat.pow_le_pow_right (by decide) h))

end Field

/-! ## Types -/

theorem capGetType_eq (cap : Cap) : capGetType cap = Field.tag.get cap := by
  change 0xff &&& cap.word0 = (cap.word0 >>> 0) &&& BitField.lowMask 64 8
  rw [BitVec.ushiftRight_zero, BitVec.and_comm]
  rfl

theorem capIsType_iff {cap : Cap} {t : CapType} : capIsType cap t = true ↔ capGetType cap = t.code :=
  beq_iff_eq

theorem CapType.code_injective : Function.Injective CapType.code := by
  intro s t h
  cases s <;> cases t <;> first | rfl | exact absurd h (by decide)

theorem capIsType_eq {cap : Cap} {t : CapType} (h : capIsType cap t = true) (s : CapType) :
    capIsType cap s = decide (s = t) := by
  rw [Bool.eq_iff_iff, capIsType_iff, capIsType_iff.mp h, decide_eq_true_iff,
    CapType.code_injective.eq_iff, eq_comm]

/-- No setter touches the type. -/
theorem capIsType_set {f : Field} {cap : Cap} {v : Word} {t : CapType} (ht : f.Apart .tag)
    (hv : BitField.Fits f.bits v) : capIsType (f.set cap v) t = capIsType cap t := by
  rw [capIsType, capIsType, capGetType_eq, capGetType_eq, Field.get_set_of_apart hv ht]

theorem capIsType_put {f : Field} {cap : Cap} {v : Word} {t : CapType} (ht : f.Apart .tag)
    (hv : BitField.Fits f.bits v) : capIsType (f.put cap v) t = capIsType cap t := by
  rw [capIsType, capIsType, capGetType_eq, capGetType_eq, Field.get_put_of_apart hv ht]

/-! ## The view -/

/-- The capability the words stand for if they are read as one of a given type. -/
def Cap.viewAs (cap : Cap) : CapType → Capability
  | .empty => .other
  | .memory =>
    .memory ⟨(capMemoryGetBegin cap).toNat, (capMemoryGetFree cap).toNat,
      (capMemoryGetEnd cap).toNat⟩ (capMemoryGetRwx cap) (capMemoryGetPmp cap).toNat
  | .pmp =>
    .pmp (pmpNapotBegin (capPmpGetAddr cap)).toNat (pmpNapotEnd (capPmpGetAddr cap)).toNat
      (capPmpGetRwx cap)
  | .time =>
    .time (capTimeGetHartid cap).toNat ⟨(capTimeGetBegin cap).toNat, (capTimeGetFree cap).toNat,
      (capTimeGetEnd cap).toNat⟩
  | .channels =>
    .channels ⟨(capChannelsGetBegin cap).toNat, (capChannelsGetFree cap).toNat,
      (capChannelsGetEnd cap).toNat⟩
  | .receiver => .receiver (capReceiverGetChannel cap).toNat (capReceiverGetGrant cap)
  | .sender => .sender (capSenderGetChannel cap).toNat (capSenderGetGrant cap)
  | .server => .server (capServerGetChannel cap).toNat (capServerGetGrant cap)
  | .client => .client (capClientGetChannel cap).toNat (capClientGetGrant cap)
  | .supervisor =>
    .supervisor ⟨(capSupervisorGetBegin cap).toNat, (capSupervisorGetFree cap).toNat,
      (capSupervisorGetEnd cap).toNat⟩

/-- Every type, for a case distinction by computation. -/
def CapType.all : List CapType :=
  [.empty, .memory, .pmp, .time, .channels, .receiver, .sender, .server, .client, .supervisor]

/-- The type a tag stands for, if it is one. -/
def Cap.type? (cap : Cap) : Option CapType := CapType.all.find? (capIsType cap)

/-- The capability the words stand for. -/
def Cap.view (cap : Cap) : Capability := (cap.type?.map cap.viewAs).getD .other

theorem Cap.type?_eq {cap : Cap} {t : CapType} (h : capIsType cap t = true) :
    cap.type? = some t := by
  have hfun : capIsType cap = fun s => decide (s = t) := funext (capIsType_eq h)
  rw [Cap.type?, hfun]
  cases t <;> rfl

/-- The type says how the words are read. -/
theorem Cap.view_eq {cap : Cap} {t : CapType} (h : capIsType cap t = true) :
    cap.view = cap.viewAs t := by
  rw [Cap.view, Cap.type?_eq h]
  rfl

/-- The type of a capability, if it has one. -/
def Capability.type? : Capability → Option CapType
  | .memory .. => some .memory
  | .pmp .. => some .pmp
  | .time .. => some .time
  | .channels .. => some .channels
  | .receiver .. => some .receiver
  | .sender .. => some .sender
  | .server .. => some .server
  | .client .. => some .client
  | .supervisor .. => some .supervisor
  | .other => none

theorem Cap.type?_viewAs {cap : Cap} {t s : CapType} (h : (cap.viewAs t).type? = some s) :
    t = s := by
  cases t <;> simp [Cap.viewAs, Capability.type?] at h <;> exact h

/-- The words have the tag of the capability they stand for. -/
theorem Cap.isType_of_view {cap : Cap} {t : CapType} (h : cap.view.type? = some t) :
    capIsType cap t = true := by
  rw [Cap.view] at h
  cases hs : cap.type? with
  | none => simp [hs, Capability.type?] at h
  | some s =>
    rw [hs] at h
    obtain rfl := Cap.type?_viewAs h
    exact List.find?_some hs

/-! ## Frames -/

theorem capPmpGetAddr_lt (cap : Cap) : (capPmpGetAddr cap).toNat < 2 ^ 32 :=
  Field.get_lt (f := pmpAddr) (by decide)

/-- The block that the hardware sees. -/
theorem pmpNapotBegin_toNat {addr : Word} (h : addr.toNat < 2 ^ 32) :
    (pmpNapotBegin addr).toNat = Napot.first addr.toNat := by
  rw [pmpNapotBegin, BitVec.toNat_and, BitVec.toNat_add, Nat.mod_eq_of_lt]
  · rfl
  · have : (1 : Word).toNat = 1 := rfl
    omega

theorem pmpNapotEnd_toNat {addr : Word} (h : addr.toNat < 2 ^ 32) :
    (pmpNapotEnd addr).toNat = Napot.last addr.toNat := by
  rw [pmpNapotEnd, BitVec.toNat_or, BitVec.toNat_add, Nat.mod_eq_of_lt]
  · rfl
  · have : (1 : Word).toNat = 1 := rfl
    omega

/-- A frame has at least two pages. -/
theorem pmpNapot_lt (cap : Cap) :
    (pmpNapotBegin (capPmpGetAddr cap)).toNat < (pmpNapotEnd (capPmpGetAddr cap)).toNat := by
  rw [pmpNapotBegin_toNat (capPmpGetAddr_lt cap), pmpNapotEnd_toNat (capPmpGetAddr_lt cap)]
  exact Napot.first_lt_last _

/-! ## The predicates -/

open Capability (CanDerive IsChild)

variable {p c : Cap}

theorem ite_cases {b x y : Bool} {P : Prop} (h : (if b = true then x else y) = true)
    (h1 : b = true → x = true → P) (h2 : y = true → P) : P := by
  cases b with
  | true => exact h1 rfl h
  | false => exact h2 h

/-- `cap_can_derive` holds only where the abstract relation does. -/
theorem canDerive_of_capCanDerive (h : capCanDerive p c = true) : CanDerive p.view c.view := by
  have hnat : ∀ {a b : Word}, a = b → a.toNat = b.toNat := fun h => h ▸ rfl
  unfold capCanDerive at h
  repeat' refine ite_cases h (fun ht h => ?_) fun h => ?_
  all_goals first
    | exact absurd h (by decide)
    | obtain ⟨hp, hc⟩ := Gen.types_of_and ht
      rw [Cap.view_eq hp, Cap.view_eq hc]
      simp only [Bool.and_eq_true, Bool.or_eq_true, beq_iff_eq, decide_eq_true_eq] at h
      simp only [Cap.viewAs]
  · obtain ⟨⟨⟨⟨⟨⟨hpm, hpm'⟩, hfirst⟩, hstop⟩, hrwx⟩, hfree⟩, hlt⟩ := h
    rw [hpm, hpm']
    exact .memory (hnat hfirst.symm) (hnat hfree) hlt hstop hrwx
  · obtain ⟨⟨hlo, hhi⟩, hrwx⟩ := h
    exact .pmp hlo (pmpNapot_lt c) hhi hrwx
  · obtain ⟨⟨⟨⟨hfirst, hstop⟩, hhart⟩, hfree⟩, hlt⟩ := h
    rw [hhart]
    exact .time (hnat hfirst.symm) (hnat hfree) hlt hstop
  · obtain ⟨⟨⟨hfirst, hstop⟩, hfree⟩, hlt⟩ := h
    exact .channels (hnat hfirst.symm) (hnat hfree) hlt hstop
  · obtain ⟨⟨hch, hlt⟩, hg⟩ := h
    exact .receiver (hnat hch.symm) hlt hg
  · obtain ⟨hch, hg⟩ := h
    rw [hch, hg]
    exact .sender
  · obtain ⟨⟨hch, hlt⟩, hg⟩ := h
    exact .server (hnat hch.symm) hlt hg
  · obtain ⟨hch, hg⟩ := h
    rw [hch, hg]
    exact .client
  · obtain ⟨⟨⟨hfirst, hstop⟩, hfree⟩, hlt⟩ := h
    exact .supervisor hfirst (hnat hfree) hlt hstop

/-- What the predicate on words accepts, the one on capabilities does. -/
theorem isChild_of_capIsChild (h : capIsChild p c = true) : IsChild p.view c.view := by
  unfold capIsChild at h
  repeat' refine ite_cases h (fun ht h => ?_) fun h => ?_
  all_goals first
    | exact absurd h (by decide)
    | obtain ⟨hp, hc⟩ := Gen.types_of_and ht
      rw [Cap.view_eq hp, Cap.view_eq hc]
      simp only [Bool.and_eq_true, beq_iff_eq, decide_eq_true_eq] at h
      simp only [Cap.viewAs]
  · exact .memory h.1.1 h.1.2 h.2
  · obtain ⟨⟨⟨hlo, hhi⟩, hpm⟩, hrwx⟩ := h
    rw [hpm]
    exact .pmp hlo hhi hrwx
  · obtain ⟨⟨hfirst, hstop⟩, hhart⟩ := h
    rw [hhart]
    exact .time hfirst hstop
  · exact .channels h.1 h.2
  · exact .receiver h.1 h.2
  · exact .sender h.1 h.2
  · exact .server h.1 h.2
  · exact .client h.1 h.2
  · rw [h]
    exact .receiverSender
  · rw [h]
    exact .serverClient
  · exact .supervisor h.1 h.2

/-- `cap_is_child` is the abstract relation. -/
theorem capIsChild_iff : capIsChild p c = true ↔ IsChild p.view c.view := by
  refine ⟨isChild_of_capIsChild, fun h => ?_⟩
  generalize hv : p.view = v at h
  generalize hw : c.view = w at h
  have hnat : ∀ {a b : Word}, a.toNat = b.toNat → a = b := fun h => BitVec.eq_of_toNat_eq h
  have htypes : ∀ {s t : CapType}, v.type? = some s → w.type? = some t →
      capIsType p s = true ∧ capIsType c t = true := fun hs ht =>
    ⟨Cap.isType_of_view (hv ▸ hs), Cap.isType_of_view (hw ▸ ht)⟩
  cases h
  all_goals
    obtain ⟨hp, hc⟩ := htypes rfl rfl
    rw [Cap.view_eq hp] at hv
    rw [Cap.view_eq hc] at hw
    simp only [Cap.viewAs, Capability.memory.injEq, Capability.pmp.injEq, Capability.time.injEq,
      Capability.channels.injEq, Capability.receiver.injEq, Capability.sender.injEq,
      Capability.server.injEq, Capability.client.injEq, Capability.supervisor.injEq] at hv hw
    simp only [capIsChild, capIsType_eq hp, capIsType_eq hc, reduceCtorEq, decide_false,
      decide_true, Bool.and_self, Bool.and_false, Bool.false_and, Bool.false_eq_true, if_false,
      if_true]
    simp only [Bool.and_eq_true, beq_iff_eq, decide_eq_true_eq]
  case memory hfirst hstop hrwx =>
    obtain ⟨rfl, rfl, -⟩ := hv
    obtain ⟨rfl, rfl, -⟩ := hw
    exact ⟨⟨hfirst, hstop⟩, hrwx⟩
  case pmp hlo hhi hrwx =>
    obtain ⟨rfl, rfl, hpmp⟩ := hv
    obtain ⟨rfl, rfl, rfl⟩ := hw
    exact ⟨⟨⟨hlo, hhi⟩, hnat hpmp⟩, hrwx⟩
  case time hfirst hstop =>
    obtain ⟨hhart, rfl⟩ := hv
    obtain ⟨hhart', rfl⟩ := hw
    exact ⟨⟨hfirst, hstop⟩, hnat (hhart.trans hhart'.symm)⟩
  case receiverSender => exact hnat (hv.1.trans hw.1.symm)
  case serverClient => exact hnat (hv.1.trans hw.1.symm)
  case channels hfirst hstop =>
    subst hv hw
    exact ⟨hfirst, hstop⟩
  case supervisor hfirst hstop =>
    subst hv hw
    exact ⟨hfirst, hstop⟩
  all_goals
    obtain ⟨rfl, -⟩ := hw
    subst hv
    exact ⟨‹_›, ‹_›⟩

end SepKernel
