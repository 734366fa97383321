import SepKernel.Roots

/-!
# Loading the PMP registers

`proc_load_pmp` is to program the eight PMP entries of a hart with the frames that the process has
selected, one byte of `regs.pmp` for each entry. It looks at one byte for all of them, at the first
eight slots whatever they select, and puts the mode of every entry into entry 0.
-/

namespace SepKernel

variable {cfg : Config} {s : Kernel} {p i j n : Nat} {x y : Word} {c : Cap} {out : PmpRegs}
  {st : System}

/-- Byte `i` of a word. -/
def byte (i : Nat) (x : Word) : Word := BitField.extract (8 * i) 8 x

/-- The frame a process has in a slot. -/
def Kernel.frameAt (cfg : Config) (s : Kernel) (p : Nat) (cidx : Word) : Option Cap :=
  if capIsType (s.capAt (.slot p (slotOf cfg cidx))) .pmp then
    some (s.capAt (.slot p (slotOf cfg cidx)))
  else none

/-! ## What is loaded -/

/-- The selector the loop tests in every round. -/
def loadsPmp (s : Kernel) (p : Nat) : Bool := byte 0 ((s.procs p).regs .pmp) &&& 0x80 == 0

/-- The frame that round `i` of the loop loads. -/
def loadedFrame (cfg : Config) (s : Kernel) (p i : Nat) : Option Cap :=
  if loadsPmp s p then s.frameAt cfg p (BitVec.ofNat 64 i) else none

/-- A round of the loop. -/
def loadEntry (cfg : Config) (s : Kernel) (p : Nat) (out : PmpRegs) (i : Nat) : PmpRegs :=
  match loadedFrame cfg s p i with
  | none => out
  | some c =>
    ⟨out.pmpcfg0 ||| ((capPmpGetRwx c <<< (i * 8)) ||| 0x18),
      Function.update out.pmpaddr i (napotRegister (capPmpGetAddr c))⟩

theorem procLoadPmpEntry_run_eq (cfg : Config) (s : Kernel) (p : Nat) (out : PmpRegs) (i : Nat) :
    (procLoadPmpEntry cfg p out i).run s = .ok (loadEntry cfg s p out i, s) := by
  have hbyte : byte 0 ((s.procs p).regs .pmp) = (s.procs p).regs .pmp &&& 0xFF := by
    simp [byte, BitField.extract, BitField.lowMask]
  rw [procLoadPmpEntry, run_bind_ok (readReg_run p .pmp s), loadEntry, loadedFrame, loadsPmp, hbyte]
  by_cases hsel : ((s.procs p).regs .pmp &&& 0xFF &&& 0x80 == 0) = true
  swap
  · have hne : ((s.procs p).regs .pmp &&& 0xFF &&& 0x80 != 0) = true := by
      rw [bne, Bool.eq_false_iff.mpr hsel]
      rfl
    simp only [hne, hsel, if_true, Bool.false_eq_true, if_false]
    rfl
  have hne : ((s.procs p).regs .pmp &&& 0xFF &&& 0x80 != 0) = false := by rw [bne, hsel]; rfl
  simp only [hne, hsel, if_true, Bool.false_eq_true, if_false, procGetCap]
  rw [run_bind_ok (capNodeGetCap_run _ s), procGetCapNode_eq, Kernel.frameAt]
  generalize s.capAt (.slot p (slotOf cfg (BitVec.ofNat 64 i))) = cap
  by_cases ht : capIsType cap .pmp = true
  · simp only [ht, Bool.not_true, Bool.false_eq_true, if_false, if_true]
    rw [run_bind_ok (run_lift_ok (Field.checkedGet_eq ht) s),
      run_bind_ok (run_lift_ok (Field.checkedGet_eq ht) s)]
    rfl
  · simp only [ht, Bool.not_false, if_true, Bool.false_eq_true, if_false]
    rfl

/-- The loop always ends, and changes no kernel state. -/
theorem procLoadPmp_run_eq (cfg : Config) (s : Kernel) (p : Nat) :
    (procLoadPmp cfg p).run s =
      .ok ((List.range 8).foldl (loadEntry cfg s p) ⟨0, fun _ => 0⟩, s) := by
  have hfold : ∀ (is : List Nat) (out : PmpRegs),
      (is.foldlM (procLoadPmpEntry cfg p) out).run s = .ok (is.foldl (loadEntry cfg s p) out, s) := by
    intro is
    induction is with
    | nil => exact fun out => rfl
    | cons i is ih =>
      intro out
      rw [List.foldlM_cons, run_bind_ok (procLoadPmpEntry_run_eq cfg s p out i), ih]
      rfl
  exact hfold _ _

/-! ## The registers, byte by byte -/

theorem byte_or (i : Nat) (x y : Word) : byte i (x ||| y) = byte i x ||| byte i y :=
  BitField.extract_or _ _ _ _

/-- A value below 256 that is shifted to byte `i`. -/
theorem byte_shiftLeft (hx : BitField.Fits 8 x) (hi : i < 8) :
    byte j (x <<< (i * 8)) = if j = i then x else 0 := by
  rw [Nat.mul_comm, byte]
  split
  · next h =>
    rw [h]
    exact BitField.extract_shiftLeft_same hx (by omega)
  · refine BitField.extract_shiftLeft_of_apart hx ?_
    unfold BitField.Apart
    omega

/-- The mode bits, which are not shifted. -/
theorem byte_mode (hj : j < 8) : byte j 0x18 = if j = 0 then 0x18 else 0 := by
  revert j
  decide

/-- Where frames are concerned, rights fit their byte. -/
theorem fits_rwx (c : Cap) : BitField.Fits 8 (capPmpGetRwx c) :=
  Field.fits_get (f := pmpRwx) (g := pmpRwx) (by decide) (by decide) le_rfl

/-- The permission byte a loaded frame accounts for. -/
def rwxOf : Option Cap → Word
  | some c => capPmpGetRwx c
  | none => 0

/-- The address register that a loaded frame accounts for. -/
def addrOf : Option Cap → Word
  | some c => napotRegister (capPmpGetAddr c)
  | none => 0

/-- The mode bits of the frames below `n`, which all end up in byte 0. -/
def modeBelow (cfg : Config) (s : Kernel) (p n : Nat) : Word :=
  if ∃ i < n, loadedFrame cfg s p i ≠ none then 0x18 else 0

/-- One more frame, one more time the mode in entry 0. -/
theorem modeBelow_succ (cfg : Config) (s : Kernel) (p n : Nat) : modeBelow cfg s p (n + 1) =
    modeBelow cfg s p n ||| if loadedFrame cfg s p n = none then 0 else 0x18 := by
  have hex : (∃ i < n + 1, loadedFrame cfg s p i ≠ none) ↔
      (∃ i < n, loadedFrame cfg s p i ≠ none) ∨ loadedFrame cfg s p n ≠ none :=
    Nat.exists_lt_succ_right
  rw [modeBelow, modeBelow]
  simp only [hex]
  by_cases hn : loadedFrame cfg s p n = none <;>
    by_cases hb : ∃ i < n, loadedFrame cfg s p i ≠ none <;> simp [hn, hb]

/-- The registers after the rounds below `n`: each frame's rights in its own byte, the mode bits of
    all in byte 0. -/
structure LoadedBelow (cfg : Config) (s : Kernel) (p n : Nat) (out : PmpRegs) : Prop where
  cfgByte : ∀ j, j < 8 → byte j out.pmpcfg0 =
    (if j < n then rwxOf (loadedFrame cfg s p j) else 0) |||
      if j = 0 then modeBelow cfg s p n else 0
  addr : ∀ j, out.pmpaddr j = if j < n then addrOf (loadedFrame cfg s p j) else 0

/-- Before the loop nothing is programmed. -/
theorem LoadedBelow.zero : LoadedBelow cfg s p 0 ⟨0, fun _ => 0⟩ := by
  constructor
  · intro j hj
    simp [byte, BitField.extract, modeBelow]
  · intro j
    rfl

/-- One more round, for an entry whose value is the default where there is no frame. -/
theorem ite_lt_succ (f : Nat → Word) (j n : Nat) : (if j < n + 1 then f j else 0) =
    if j = n then f n else if j < n then f j else 0 := by
  by_cases hj : j = n
  · subst hj
    simp
  · have hlt : j < n + 1 ↔ j < n := by omega
    simp only [hj, hlt, if_false]

/-- What one round adds. -/
theorem LoadedBelow.succ (h : LoadedBelow cfg s p n out) (hn : n < 8) :
    LoadedBelow cfg s p (n + 1) (loadEntry cfg s p out n) := by
  rw [loadEntry]
  cases hl : loadedFrame cfg s p n with
  | none =>
    constructor
    · intro j hj
      rw [h.cfgByte j hj, ite_lt_succ fun j => rwxOf (loadedFrame cfg s p j), modeBelow_succ, hl]
      by_cases hjn : j = n
      · simp [hjn, rwxOf]
      · simp [hjn]
    · intro j
      rw [h.addr j, ite_lt_succ fun j => addrOf (loadedFrame cfg s p j), hl]
      by_cases hjn : j = n
      · simp [hjn, addrOf]
      · simp [hjn]
  | some c =>
    constructor
    · intro j hj
      rw [byte_or, byte_or, byte_shiftLeft (fits_rwx c) hn, byte_mode hj, h.cfgByte j hj,
        ite_lt_succ fun j => rwxOf (loadedFrame cfg s p j), modeBelow_succ, hl]
      -- the mode is not shifted to its entry, so it lands in the byte of entry 0
      have hmode : (if j = 0 then modeBelow cfg s p n ||| 0x18 else 0) =
          (if j = 0 then modeBelow cfg s p n else 0) ||| if j = 0 then 0x18 else 0 := by
        by_cases hj0 : j = 0 <;> simp [hj0]
      rw [if_neg (Option.some_ne_none c), hmode]
      generalize (if j = 0 then modeBelow cfg s p n else 0) = mode
      generalize (if j = 0 then (0x18 : Word) else 0) = bits
      by_cases hjn : j = n
      · have hzero : (0 : Word) ||| mode = mode := BitVec.zero_or
        simp only [hjn, lt_irrefl, if_true, if_false, rwxOf, hzero]
        ac_rfl
      · have hzero : (0 : Word) ||| bits = bits := BitVec.zero_or
        simp only [hjn, if_false, hzero]
        ac_rfl
    · intro j
      rw [ite_lt_succ fun j => addrOf (loadedFrame cfg s p j), hl]
      by_cases hjn : j = n
      · simp [hjn, addrOf]
      · simp [hjn, h.addr j]

/-- What the loop has programmed after so many rounds. -/
theorem loadedBelow (hn : n ≤ 8) :
    LoadedBelow cfg s p n ((List.range n).foldl (loadEntry cfg s p) ⟨0, fun _ => 0⟩) := by
  induction n with
  | zero => exact .zero
  | succ n ih =>
    rw [List.range_succ, List.foldl_append]
    exact (ih (by omega)).succ (by omega)

/-! ## What ought to be loaded -/

/-- The frame that byte `i` of `regs.pmp` selects. -/
def selectedFrame (cfg : Config) (s : Kernel) (p i : Nat) : Option Cap :=
  if byte i ((s.procs p).regs .pmp) &&& 0x80 == 0 then
    s.frameAt cfg p (byte i ((s.procs p).regs .pmp))
  else none

/-- Every entry is the frame selected for it, or off. -/
def Programmed (cfg : Config) (s : Kernel) (p : Nat) (out : PmpRegs) : Prop :=
  ∀ i, i < 8 → match selectedFrame cfg s p i with
    | some c => byte i out.pmpcfg0 = 0x18 ||| capPmpGetRwx c ∧
        out.pmpaddr i = (capPmpGetAddr c <<< 10) ||| 0x3FF
    | none => byte i out.pmpcfg0 = 0

/-- The selection that the loop gets right: nothing above entry 0, and there the frame that slot 0
    holds too, or nothing. -/
structure OnlyFirst (cfg : Config) (s : Kernel) (p : Nat) : Prop where
  others : ∀ i, 0 < i → i < 8 → selectedFrame cfg s p i = none ∧
    ∀ c, loadedFrame cfg s p i = some c → capPmpGetRwx c = 0
  first : match selectedFrame cfg s p 0 with
    | some c => ∃ c', loadedFrame cfg s p 0 = some c' ∧ capPmpGetRwx c' = capPmpGetRwx c ∧
        capPmpGetAddr c' = capPmpGetAddr c
    | none => ∀ i, i < 8 → loadedFrame cfg s p i = none

/-! ## When it is -/

theorem and_seven {r : Word} (hr : r ≤ 7) : r &&& 7 = r :=
  (BitField.fits_iff (n := 3) (by decide)).mpr (Nat.lt_succ_of_le hr)

/-- Rights to read, write and execute are no mode bits. -/
theorem and_mode {r : Word} (hr : r ≤ 7) : r &&& 0x18 = 0 := by
  rw [← and_seven hr, BitVec.and_assoc]
  simp

/-- Permissions and mode do not overlap. -/
theorem or_mode_injective {r r' : Word} (hr : r ≤ 7) (hr' : r' ≤ 7)
    (h : r ||| 0x18 = 0x18 ||| r') : r = r' := by
  have hlow : ∀ {x : Word}, x ≤ 7 → (x ||| 0x18) &&& 7 = x := fun {x} hx => by
    rw [BitVec.and_or_distrib_right, and_seven hx]
    simp
  rw [BitVec.or_comm 0x18] at h
  rw [← hlow hr, h, hlow hr']

/-- No value with the mode bits is one of rights alone. -/
theorem ne_or_mode {r : Word} (hr : r ≤ 7) (r' : Word) : r ≠ 0x18 ||| r' := by
  intro h
  have hmode := and_mode hr
  rw [h, BitVec.and_or_distrib_right] at hmode
  exact absurd (BitVec.or_eq_zero_iff.mp hmode).1 (by decide)

/-- A loaded frame is not an empty register. -/
theorem napotRegister_ne_zero (a : Word) : napotRegister a ≠ 0 := fun h =>
  absurd (BitVec.or_eq_zero_iff.mp h).2 (by decide)

/-- A register tells its frame. -/
theorem napotRegister_injective {a b : Word} (ha : BitField.Fits 32 a) (hb : BitField.Fits 32 b)
    (h : napotRegister a = napotRegister b) : a = b := by
  have hfield : ∀ {x : Word}, BitField.Fits 32 x →
      BitField.extract 10 32 (napotRegister x) = x := fun {x} hx => by
    rw [napotRegister, BitField.extract_or, BitField.extract_shiftLeft_same hx (by decide)]
    simp [BitField.extract, BitField.lowMask]
  rw [← hfield ha, h, hfield hb]

theorem fits_addr (c : Cap) : BitField.Fits 32 (capPmpGetAddr c) :=
  Field.fits_get (f := pmpAddr) (g := pmpAddr) (by decide) (by decide) le_rfl

/-- The frames in the slots of a process give no more than rights to read, write and execute. -/
def RwxOnly (s : Kernel) (p : Nat) : Prop :=
  ∀ i, s.Live (.slot p i) → capIsType (s.caps (.slot p i)) .pmp = true →
    capPmpGetRwx (s.caps (.slot p i)) ≤ 7

theorem RwxOnly.frameAt (h : RwxOnly s p) (hc : s.frameAt cfg p x = some c) :
    capPmpGetRwx c ≤ 7 := by
  obtain ⟨ht, he⟩ := Option.ite_none_right_eq_some.mp hc
  rw [← Option.some.inj he]
  by_cases hl : s.Live (.slot p (slotOf cfg x))
  · rw [Kernel.capAt_of_live hl] at ht ⊢
    exact h _ hl ht
  · rw [Kernel.capAt_of_dead hl] at ht
    exact absurd ht (by decide)

/-- A loaded frame has no mode bits of its own. -/
theorem RwxOnly.loaded (h : RwxOnly s p) (i : Nat) : rwxOf (loadedFrame cfg s p i) ≤ 7 := by
  cases hl : loadedFrame cfg s p i with
  | none => exact BitVec.le_def.mpr (Nat.zero_le _)
  | some c => exact h.frameAt (Option.ite_none_right_eq_some.mp hl).2

theorem RwxOnly.selected (h : RwxOnly s p) (hc : selectedFrame cfg s p i = some c) :
    capPmpGetRwx c ≤ 7 := h.frameAt (Option.ite_none_right_eq_some.mp hc).2

/-- Above entry 0 a byte has rights only. -/
theorem LoadedBelow.other (h : LoadedBelow cfg s p 8 out) (hi : 0 < i) (hi8 : i < 8) :
    byte i out.pmpcfg0 = rwxOf (loadedFrame cfg s p i) := by
  rw [h.cfgByte i hi8, if_pos hi8, if_neg hi.ne']
  exact BitVec.or_zero

theorem LoadedBelow.first (h : LoadedBelow cfg s p 8 out) :
    byte 0 out.pmpcfg0 = rwxOf (loadedFrame cfg s p 0) ||| modeBelow cfg s p 8 := by
  rw [h.cfgByte 0 (by decide), if_pos (by decide), if_pos rfl]

/-- With no mode in entry 0 no frame has been loaded. -/
theorem modeBelow_eq_zero (h : modeBelow cfg s p n = 0) (hi : i < n) :
    loadedFrame cfg s p i = none := by
  by_contra hne
  rw [modeBelow, if_pos ⟨i, hi, hne⟩] at h
  exact absurd h (by decide)

/-- If all is as it should be, nothing but the first entry is in use. -/
theorem OnlyFirst.of_programmed (hrwx : RwxOnly s p) (hl : LoadedBelow cfg s p 8 out)
    (h : Programmed cfg s p out) : OnlyFirst cfg s p := by
  constructor
  · intro i hi hi8
    have hbyte := h i hi8
    rw [hl.other hi hi8] at hbyte
    cases hsel : selectedFrame cfg s p i with
    | some c =>
      rw [hsel] at hbyte
      -- only entry 0 ever gets its mode
      exact absurd hbyte.1 (ne_or_mode (hrwx.loaded i) _)
    | none =>
      rw [hsel] at hbyte
      refine ⟨rfl, fun c hc => ?_⟩
      rw [hc] at hbyte
      exact hbyte
  · have hbyte := h 0 (by decide)
    rw [hl.first] at hbyte
    cases hsel : selectedFrame cfg s p 0 with
    | some c =>
      rw [hsel] at hbyte
      obtain ⟨hcfg, haddr⟩ := hbyte
      rw [hl.addr 0, if_pos (by decide)] at haddr
      cases hload : loadedFrame cfg s p 0 with
      | none =>
        rw [hload] at haddr
        exact absurd haddr.symm (napotRegister_ne_zero _)
      | some c' =>
        have hmode : modeBelow cfg s p 8 = 0x18 := if_pos ⟨0, by decide, by simp [hload]⟩
        have hle : rwxOf (loadedFrame cfg s p 0) ≤ 7 := hrwx.loaded 0
        rw [hload] at haddr hcfg hle
        rw [hmode] at hcfg
        exact ⟨c', rfl, or_mode_injective hle (hrwx.selected hsel) hcfg,
          napotRegister_injective (fits_addr c') (fits_addr c) haddr⟩
    | none =>
      rw [hsel] at hbyte
      exact fun i hi => modeBelow_eq_zero (BitVec.or_eq_zero_iff.mp hbyte).2 hi

/-- And then all is as it should be. -/
theorem OnlyFirst.programmed (hl : LoadedBelow cfg s p 8 out) (h : OnlyFirst cfg s p) :
    Programmed cfg s p out := by
  intro i hi8
  rcases Nat.eq_zero_or_pos i with rfl | hi
  · have hfirst := h.first
    rw [hl.first, hl.addr 0, if_pos (by decide)]
    cases hsel : selectedFrame cfg s p 0 with
    | some c =>
      rw [hsel] at hfirst
      obtain ⟨c', hload, hr, ha⟩ := hfirst
      have hmode : modeBelow cfg s p 8 = 0x18 := if_pos ⟨0, by decide, by simp [hload]⟩
      rw [hload, hmode]
      simp only [rwxOf, addrOf, hr, ha]
      exact ⟨BitVec.or_comm _ _, rfl⟩
    | none =>
      rw [hsel] at hfirst
      have hmode : modeBelow cfg s p 8 = 0 := if_neg fun ⟨i, hi, hne⟩ => hne (hfirst i hi)
      simp only
      rw [hfirst 0 (by decide), hmode]
      rfl
  · obtain ⟨hsel, hload⟩ := h.others i hi hi8
    rw [hsel, hl.other hi hi8]
    simp only
    cases hl' : loadedFrame cfg s p i with
    | none => rfl
    | some c => exact hload c hl'

/-- `proc_load_pmp` always returns, and the registers are what the process has selected just if it
    has selected nothing above entry 0 and, there, what slot 0 holds. -/
theorem load_pmp_iff (cfg : Config) (s : Kernel) (p : Nat) (hrwx : RwxOnly s p) :
    ∃ out, (procLoadPmp cfg p).run s = .ok (out, s) ∧
      (Programmed cfg s p out ↔ OnlyFirst cfg s p) := by
  exact ⟨_, procLoadPmp_run_eq cfg s p, .of_programmed hrwx (loadedBelow le_rfl),
    fun h => h.programmed (loadedBelow le_rfl)⟩

/-- The root process has selected its own frame for entry 0 and switched the others off. -/
def virtSelects : System :=
  virtAfter [.schedule 1 0, .ecall 1 (callRegs 9 32 0x8080808080808000 0 0 0 0)]

theorem rwxOnly_of_good (hg : st.Good .virt)
    (h : ∀ i < 64, st.kernel.Live (.slot p i) → capIsType (st.kernel.caps (.slot p i)) .pmp = true →
      capPmpGetRwx (st.kernel.caps (.slot p i)) ≤ 7) : RwxOnly st.kernel p :=
  fun i hl => h i (hg.kernel.bounds p i hl).2 hl

/-- The root process's frames have permissions only. -/
theorem virtSelects_rwxOnly : RwxOnly virtSelects.kernel 0 :=
  rwxOnly_of_good (good_of_reachable (fun _ => Booted.root) (virtAfter_reachable _))
    (by decide +kernel)

/-- Slot 0 selected for entry 0, the others off. -/
theorem OnlyFirst.of_same {c : Cap} (hfirst : selectedFrame cfg s p 0 = some c)
    (hload : loadedFrame cfg s p 0 = some c)
    (h : ∀ i < 8, 0 < i → selectedFrame cfg s p i = none ∧ loadedFrame cfg s p i = none) :
    OnlyFirst cfg s p where
  others i hi hi8 := by
    obtain ⟨h1, h2⟩ := h i hi8 hi
    refine ⟨h1, fun c hc => ?_⟩
    rw [h2] at hc
    cases hc
  first := by
    rw [hfirst]
    exact ⟨c, hload, rfl, rfl⟩

/-- The root process selects its first frame, and nothing else. -/
theorem load_pmp_virtSelects : ∃ out,
    (procLoadPmp .virt 0).run virtSelects.kernel = .ok (out, virtSelects.kernel) ∧
      Programmed .virt virtSelects.kernel 0 out := by
  have hsame : loadedFrame .virt virtSelects.kernel 0 0 =
      selectedFrame .virt virtSelects.kernel 0 0 := by decide +kernel
  have hsome : (selectedFrame .virt virtSelects.kernel 0 0).isSome = true := by decide +kernel
  obtain ⟨c, hc⟩ := Option.isSome_iff_exists.mp hsome
  have honly : OnlyFirst .virt virtSelects.kernel 0 :=
    .of_same hc (hsame.trans hc) (by decide +kernel)
  obtain ⟨out, hout, hiff⟩ := load_pmp_iff .virt virtSelects.kernel 0 virtSelects_rwxOnly
  exact ⟨out, hout, hiff.mpr honly⟩

/-- With the selectors it boots with, the root process has its frame in every entry, and only entry
    0 is switched on. -/
theorem load_pmp_misses : ∃ s p out, Booted .virt s ∧ RwxOnly s.kernel p ∧
    (procLoadPmp .virt p).run s.kernel = .ok (out, s.kernel) ∧
      ¬ Programmed .virt s.kernel p out := by
  have hr : RwxOnly virtStart.kernel 0 :=
    rwxOnly_of_good (virtStart_booted.root.good) (by decide +kernel)
  have hsome : (selectedFrame .virt virtStart.kernel 0 1).isSome = true := by decide +kernel
  refine ⟨virtStart, 0, _, virtStart_booted, hr, procLoadPmp_run_eq .virt virtStart.kernel 0,
    fun h => ?_⟩
  have hnone := ((OnlyFirst.of_programmed hr (loadedBelow le_rfl) h).others 1 (by decide)
    (by decide)).1
  rw [hnone] at hsome
  cases hsome

end SepKernel
