import SepKernel.Forest
import SepKernel.Proc

/-!
# Spatial confinement

What a frame opens to its holder, by the decoding of address registers in the RISC-V manual, and
how it relates to the pages of the memory capability the frame was derived from. The pages of a
memory capability end before `end`, those of a frame at `pmp_napot_end`; `cap_can_derive` lets the
two be equal, so a frame may reach one page too far. Where none does, no page that a frame opens
is owned by a memory capability other than the one it was derived from.
-/

namespace SepKernel

open Capability (CanDerive page_injective)
open Exclusive (Excl)
open Lineage (Parent ident)
open Transition (Reachable)

variable {cfg : Config} {s : Kernel} {st st' : System} {l : Label} {op : CapOp} {H : Holdings}
  {es : List CapEvent} {src dst a x n m : NodeRef} {c : Capability} {cap p : Cap}

/-! ## What a frame opens -/

/-- NAPOT decoding: `y…y01…1` with `k` ones stands for the `2 ^ (k + 3)` bytes from `y…y0…0`, the
    register being in units of four bytes. -/
def NapotOpens (pmpaddr : Word) (byte : Nat) : Prop :=
  ∃ y k, Napot.Encodes pmpaddr.toNat y k ∧ y * 2 ^ (k + 3) ≤ byte ∧ byte < (y + 1) * 2 ^ (k + 3)

/-- The 4-KiB pages with a byte that the register `proc_load_pmp` writes for the frame opens. -/
def openedPages (cap : Cap) : Set Nat :=
  {n | ∃ byte, NapotOpens (napotRegister (capPmpGetAddr cap)) byte ∧ byte / 4096 = n}

/-- Ten more trailing ones. -/
theorem napotRegister_toNat {addr : Word} (h : addr.toNat < 2 ^ 32) :
    (napotRegister addr).toNat = addr.toNat * 2 ^ 10 + (2 ^ 10 - 1) := by
  have hlow : (0x3FF : Word).toNat = 2 ^ 10 - 1 := rfl
  rw [napotRegister, BitVec.toNat_or, BitVec.toNat_shiftLeft, Nat.shiftLeft_eq,
    Nat.mod_eq_of_lt (by omega), hlow, Nat.mul_comm _ (2 ^ 10),
    ← Nat.two_pow_add_eq_or_of_lt (by decide)]

/-- A frame opens its pages from the first to the last, which is among them. -/
theorem openedPages_eq (cap : Cap) : openedPages cap =
    Set.Icc (pmpNapotBegin (capPmpGetAddr cap)).toNat (pmpNapotEnd (capPmpGetAddr cap)).toNat := by
  have haddr := capPmpGetAddr_lt cap
  obtain ⟨y, k, henc⟩ := Napot.exists_encodes (capPmpGetAddr cap).toNat
  have hreg : Napot.Encodes (napotRegister (capPmpGetAddr cap)).toNat y (k + 10) := by
    rw [napotRegister_toNat haddr]
    exact henc.append_ones 10
  have hpow : 2 ^ (k + 10 + 3) = 4096 * 2 ^ (k + 1) := by
    rw [show k + 10 + 3 = 12 + (k + 1) by omega, Nat.pow_add]
  have hpos : 0 < 2 ^ (k + 1) := Nat.two_pow_pos _
  rw [pmpNapotBegin_toNat haddr, pmpNapotEnd_toNat haddr, henc.first_eq, henc.last_eq]
  generalize hsize : 2 ^ (k + 1) = size at hpow hpos ⊢
  ext n
  constructor
  · rintro ⟨byte, ⟨y', k', henc', hlo, hhi⟩, rfl⟩
    obtain ⟨rfl, rfl⟩ := hreg.unique henc'
    rw [hpow, Nat.mul_left_comm] at hlo hhi
    rw [Nat.add_mul, Nat.one_mul] at hhi
    constructor
    · omega
    · change byte / 4096 ≤ _
      omega
  · rintro ⟨hlo, hhi⟩
    refine ⟨4096 * n, ⟨y, k + 10, hreg, ?_, ?_⟩, by omega⟩
    · rw [hpow, Nat.mul_left_comm]
      omega
    · rw [hpow, Nat.mul_left_comm, Nat.add_mul, Nat.one_mul]
      omega

/-! ## One derivation -/

/-- What `cap_can_derive` requires of a frame, in terms of the words. -/
theorem frame_bounds (hp : capIsType p .memory = true) (hc : capIsType cap .pmp = true)
    (h : capCanDerive p cap = true) :
    (capMemoryGetFree p).toNat ≤ (pmpNapotBegin (capPmpGetAddr cap)).toNat ∧
    (pmpNapotEnd (capPmpGetAddr cap)).toNat ≤ (capMemoryGetEnd p).toNat ∧
    RwxSub (capPmpGetRwx cap) (capMemoryGetRwx p) := by
  have hcan := canDerive_of_capCanDerive h
  rw [Cap.view_eq hp, Cap.view_eq hc] at hcan
  simp only [Cap.viewAs] at hcan
  generalize hm : (capMemoryGetPmp p).toNat = m at hcan
  cases hcan with
  | pmp hlo hlt hhi hrwx => exact ⟨hlo, hhi, hrwx⟩

/-- The pages of a frame are its parent's if and only if the last of them is not `end`. -/
theorem opened_subset_iff (hp : capIsType p .memory = true) (hc : capIsType cap .pmp = true)
    (h : capCanDerive p cap = true) :
    openedPages cap ⊆ Set.Ico (capMemoryGetFree p).toNat (capMemoryGetEnd p).toNat ↔
      (pmpNapotEnd (capPmpGetAddr cap)).toNat < (capMemoryGetEnd p).toNat := by
  obtain ⟨hlo, hhi, -⟩ := frame_bounds hp hc h
  have hlt := pmpNapot_lt cap
  rw [openedPages_eq]
  constructor
  · exact fun hsub => (hsub ⟨le_of_lt hlt, le_rfl⟩).2
  · exact fun hend n hn => ⟨hlo.trans hn.1, lt_of_le_of_lt hn.2 hend⟩

/-! ## Frames and owners over a run -/

/-- The pages of every derived frame are still its parent's, if that lives, and nobody else's. -/
structure Framed (H : Holdings) (es : List CapEvent) : Prop where
  parent : ∀ x lo hi w m, H x = .pmp lo hi w → H m ≠ .other → Parent es (ident es m) (ident es x) →
    ∃ r w', H m = .memory r w' 1 ∧ r.free ≤ lo ∧ hi < r.stop
  others : ∀ x lo hi w i m, H x = .pmp lo hi w → Parent es i (ident es x) → ident es m ≠ i →
    H m ≠ .other → Disjoint (H m).owned (Resource.page '' Set.Icc lo hi)

/-- The operation derives only frames that end before their parent. -/
def CapOp.Fits (H : Holdings) : CapOp → Prop
  | .derive pid i _ c => ∀ r w m lo hi w', H (.slot pid i) = .memory r w m →
      c.view = .pmp lo hi w' → hi < r.stop
  | _ => True

/-- A memory capability with frames only derives more of them, and stays as it is. -/
theorem derive_of_framed {r : Span} {w : Word} (h : CanDerive (.memory r w 1) c) :
    (∃ lo hi w', c = .pmp lo hi w') ∧ Capability.afterDerive (.memory r w 1) c = .memory r w 1 := by
  cases h with
  | pmp => exact ⟨⟨_, _, _, rfl⟩, rfl⟩

/-- Pages in the rest of a memory capability are its own. -/
theorem pages_subset_owned {r : Span} {w : Word} {k lo hi : Nat} (hlo : r.free ≤ lo)
    (hhi : hi < r.stop) : Resource.page '' Set.Icc lo hi ⊆ (Capability.memory r w k).owned :=
  Set.image_mono fun _ hn => ⟨hlo.trans hn.1, lt_of_le_of_lt hn.2 hhi⟩

/-- A frame that fits is within what its memory capability owns. -/
theorem Framed.derive (hfr : Framed H es) (hinj : Distinct H es)
    (hexcl : Excl fun n => (H n).owned) (hcan : CanDerive (H src) c) (hd : H dst = .other)
    (hfit : ∀ r w m lo hi w', H src = .memory r w m → c = .pmp lo hi w' → hi < r.stop) :
    Framed (Function.update (Function.update H src ((H src).afterDerive c)) dst c)
      (.derived src dst :: es) := by
  have hs : H src ≠ .other := hcan.ne_other
  have hsd : src ≠ dst := fun e => hs (e ▸ hd)
  set H' := Function.update (Function.update H src ((H src).afterDerive c)) dst c with hH'
  have hdst : H' dst = c := by simp [hH']
  have hsrc : H' src = (H src).afterDerive c := by simp [hH', hsd]
  have hold : ∀ {n}, n ≠ src → n ≠ dst → H' n = H n := fun h h' => by simp [hH', h, h']
  have hheld : ∀ {n}, n ≠ dst → H' n ≠ .other → H n ≠ .other := derived_of_ne_other hs
  -- a frame of before is one still, at its old place
  have hframe : ∀ {x lo hi w}, x ≠ dst → H' x = .pmp lo hi w → H x = .pmp lo hi w := by
    intro x lo hi w hxd hx
    have hxs : x ≠ src := by
      rintro rfl
      rw [hsrc] at hx
      exact hcan.not_isFrame_after (hx ▸ trivial)
    rwa [hold hxs hxd] at hx
  have hpar : ∀ {i x}, x ≠ dst → (Parent (.derived src dst :: es) i
      (ident (.derived src dst :: es) x) ↔ Parent es i (ident es x)) :=
    Lineage.parent_ident_derived_of_ne
  have hparnew : ∀ {i}, Parent (.derived src dst :: es) i
      (ident (.derived src dst :: es) dst) ↔ i = ident es src := Lineage.parent_ident_derived_dst
  constructor
  · intro x lo hi w m hx hm hp
    by_cases hxd : x = dst
    · subst hxd
      rw [hparnew] at hp
      have hmd : m ≠ x := by
        rintro rfl
        rw [Lineage.ident_derived_dst] at hp
        exact Lineage.ident_ne_new hp.symm
      rw [Lineage.ident_derived_of_ne hmd] at hp
      obtain rfl := hinj (hheld hmd hm) hs hp
      rw [hdst] at hx
      subst hx
      rw [hsrc]
      cases hmem : H m <;> rw [hmem] at hcan <;> cases hcan
      next hlo hlt hhi hrwx => exact ⟨_, _, rfl, hlo, hfit _ _ _ _ _ _ hmem rfl⟩
    · rw [hpar hxd] at hp
      have hmd : m ≠ dst := by
        rintro rfl
        rw [Lineage.ident_derived_dst] at hp
        exact hp.ne_new.1 rfl
      rw [Lineage.ident_derived_of_ne hmd] at hp
      obtain ⟨r, w', hmem, h1, h2⟩ := hfr.parent x lo hi w m (hframe hxd hx) (hheld hmd hm) hp
      refine ⟨r, w', ?_, h1, h2⟩
      by_cases hms : m = src
      · subst hms
        rw [hsrc, hmem]
        exact (derive_of_framed (hmem ▸ hcan)).2
      · rw [hold hms hmd, hmem]
  · intro x lo hi w i m hx hp hm hlive
    by_cases hxd : x = dst
    · subst hxd
      rw [hparnew] at hp
      subst hp
      rw [hdst] at hx
      subst hx
      by_cases hmd : m = x
      · rw [hmd, hdst]
        exact Set.empty_disjoint _
      · rw [Lineage.ident_derived_of_ne hmd] at hm
        have hms : m ≠ src := fun e => hm (e ▸ rfl)
        rw [hold hms hmd]
        -- the new frame lies in its parent's pages, and these are its parent's alone
        cases hmem : H src <;> rw [hmem] at hcan <;> cases hcan
        next hlo hlt hhi hrwx =>
          have hsub := hexcl hms
          rw [Function.onFun_apply, hmem] at hsub
          exact hsub.mono_right (pages_subset_owned hlo (hfit _ _ _ _ _ _ hmem rfl))
    · rw [hpar hxd] at hp
      have hx' := hframe hxd hx
      by_cases hmd : m = dst
      · -- what is derived owns a part of what its parent owned, or nothing
        subst hmd
        rw [hdst]
        by_cases hsi : ident es src = i
        · obtain ⟨r, w', hmem, -⟩ := hfr.parent x lo hi w src hx' hs (hsi.symm ▸ hp)
          obtain ⟨⟨_, _, _, rfl⟩, -⟩ := derive_of_framed (hmem ▸ hcan)
          exact Set.empty_disjoint _
        · exact (hfr.others x lo hi w i src hx' hp hsi hs).mono_left hcan.child_owned
      · rw [Lineage.ident_derived_of_ne hmd] at hm
        have hold' := hfr.others x lo hi w i m hx' hp hm (hheld hmd hlive)
        by_cases hms : m = src
        · subst hms
          rw [hsrc]
          exact hold'.mono_left hcan.parent_owned
        · rwa [hold hms hmd]

/-- Moving changes no pages. -/
theorem Framed.handed (hfr : Framed H es) :
    Framed (CapOp.handed H src dst) (.moved src dst :: es) := by
  -- who is at a place now, under the name it had before
  have hrename : ∀ n, ident (.moved src dst :: es) n = ident es (if n = dst then src else n) :=
    fun n => Lineage.ident_moved
  constructor
  · intro x lo hi w m hx hm hp
    have hex := (handed_of_ne_other (n := x) (by rw [hx]; simp)).2
    have hem := (handed_of_ne_other hm).2
    rw [hex] at hx
    rw [hem] at hm
    rw [Lineage.parent_moved, hrename, hrename] at hp
    obtain ⟨r, w', hmem, h⟩ := hfr.parent _ lo hi w _ hx hm hp
    exact ⟨r, w', by rw [hem, hmem], h⟩
  · intro x lo hi w i m hx hp hm hlive
    have hex := (handed_of_ne_other (n := x) (by rw [hx]; simp)).2
    have hem := (handed_of_ne_other hlive).2
    rw [hex] at hx
    rw [hem] at hlive ⊢
    rw [Lineage.parent_moved, hrename] at hp
    rw [hrename] at hm
    exact hfr.others _ lo hi w i _ hx hp hm hlive

/-- Holding less. -/
theorem Framed.mono {H' : Holdings} (hfr : Framed H es)
    (h : ∀ n, H' n ≠ .other → H' n = H n) : Framed H' es := by
  have hframe : ∀ {x lo hi w}, H' x = .pmp lo hi w → H x = .pmp lo hi w := fun {x lo hi w} hx => by
    rw [← h x (by rw [hx]; simp), hx]
  constructor
  · intro x lo hi w m hx hm hp
    rw [h m hm]
    exact hfr.parent x lo hi w m (hframe hx) (h m hm ▸ hm) hp
  · intro x lo hi w i m hx hp hm hlive
    rw [h m hlive]
    exact hfr.others x lo hi w i m (hframe hx) hp hm (h m hlive ▸ hlive)

/-- Every operation that derives fitting frames only keeps the frames apart from other owners. -/
theorem CapOp.Enabled.framed (he : op.Enabled H) (hinj : Distinct H es)
    (hexcl : Excl fun n => (H n).owned) (hop : op.Fits H) (hfr : Framed H es) :
    Framed (op.onHeld H) (op.onHistory es) := by
  cases op with
  | skip => exact hfr
  | wipe => exact hfr
  | derive pid i j c => exact hfr.derive hinj hexcl he.1 he.2 hop
  | move pid i j => exact hfr.handed
  | transfer srcPid i destPid j => exact hfr.handed
  | delete pid i => exact hfr.mono fun n hn => dropped_of_ne_other hn

/-! ## Runs -/

/-- If the step derives a frame, then one whose last page is not the `end` of its parent. -/
def FramesFit (cfg : Config) (s : System) (l : Label) : Prop :=
  ∀ pid i j c, stepOp cfg s l = .derive pid i j c → capIsType c .pmp = true →
    (pmpNapotEnd (capPmpGetAddr c)).toNat <
      (capMemoryGetEnd (s.kernel.caps (.slot pid i))).toNat

/-- The condition in the words of the call. -/
theorem fits_of_framesFit (h : FramesFit cfg st l) : (stepOp cfg st l).Fits st.kernel.held := by
  unfold FramesFit at h
  generalize stepOp cfg st l = op at h ⊢
  cases op with
  | derive pid i j c =>
    intro r w m lo hi w' hmem hc
    obtain ⟨p', i', hslot, -, hv⟩ := live_of_held (n := .slot pid i) (by rw [hmem]; simp)
    obtain ⟨rfl, rfl⟩ := NodeRef.slot.inj hslot
    have hpmp : capIsType c .pmp = true := Cap.isType_of_view (by rw [hc]; rfl)
    have hlt := h pid i j c rfl hpmp
    rw [Cap.view_eq hpmp] at hc
    have hmt : capIsType (st.kernel.caps (.slot pid i)) .memory = true :=
      Cap.isType_of_view (by rw [← hv, hmem]; rfl)
    rw [hv, Cap.view_eq hmt] at hmem
    cases hmem
    cases hc
    exact hlt
  | _ => trivial

/-- In every state of a run that derives fitting frames only, a page that a frame opens is owned by
    nobody but the memory capability the frame was derived from. -/
theorem framed_of_reachable
    (h : Reachable (RootState cfg) (Transition.restrict (Step cfg) (FramesFit cfg)) st) :
    Framed st.kernel.held st.kernel.history := by
  refine (h.invariant (I := fun s => s.Good cfg ∧ Distinct s.kernel.held s.kernel.history ∧
    Excl (fun n => (s.kernel.held n).owned) ∧ Framed s.kernel.held s.kernel.history)
    (fun s hs => ?_) fun s l s' hI hl => ?_).2.2.2
  · have hroots : ∀ {i j}, ¬ Parent s.kernel.history i j := fun {i j} hp => by
      rw [hs.history] at hp
      cases hp
    refine ⟨hs.good, ?_, hs.exclusive, ⟨fun x lo hi w m _ _ hp => absurd hp hroots,
      fun x lo hi w i m _ hp => absurd hp hroots⟩⟩
    rw [Distinct, hs.history]
    exact Lineage.injOn_nil
  · obtain ⟨hg, hinj, hexcl, hfr⟩ := hI
    obtain ⟨hl, hfit⟩ := hl
    obtain ⟨he, heq⟩ := step_held hg hl
    rw [heq, step_history hg hl]
    exact ⟨step_good hg hl, he.distinct hinj, he.excl hexcl,
      he.framed hinj hexcl (fits_of_framesFit hfit) hfr⟩

/-- `cap_can_derive` confines a frame to its parent's pages and rights just if its last page is not
    `end`; and where no step derives one that reaches it, no page of a derived frame belongs to a
    capability that the frame was not derived from. -/
theorem frames_confined (cfg : Config) :
    (∀ p c : Cap, capIsType p .memory = true →
      (capMemoryGetFree p).toNat ≤ (capMemoryGetEnd p).toNat → capIsType c .pmp = true →
      capCanDerive p c = true →
        (openedPages c ⊆ Set.Ico (capMemoryGetFree p).toNat (capMemoryGetEnd p).toNat ∧
          RwxSub (capPmpGetRwx c) (capMemoryGetRwx p) ↔
            (pmpNapotEnd (capPmpGetAddr c)).toNat < (capMemoryGetEnd p).toNat)) ∧
    ∀ s, Reachable (RootState cfg) (Transition.restrict (Step cfg) (FramesFit cfg)) s →
      ∀ pid i pid' i' n j, s.kernel.Live (.slot pid i) → s.kernel.Live (.slot pid' i') →
        capIsType (s.kernel.caps (.slot pid i)) .pmp = true →
        n ∈ openedPages (s.kernel.caps (.slot pid i)) →
        Parent s.kernel.history j (ident s.kernel.history (.slot pid i)) →
        (s.kernel.caps (.slot pid' i')).Owns (.page n) →
          ident s.kernel.history (.slot pid' i') = j := by
  refine ⟨fun p c hp _ hc h => ?_, fun s hs pid i pid' i' n j hl hl' hpmp hn hpar hown => ?_⟩
  · rw [opened_subset_iff hp hc h]
    exact and_iff_left (frame_bounds hp hc h).2.2
  · have hfr := framed_of_reachable hs
    by_contra hne
    rw [openedPages_eq] at hn
    have hx := held_of_live hl
    rw [Cap.view_eq hpmp] at hx
    have hown' := (owns_held hl').mp hown
    have hlive : s.kernel.held (.slot pid' i') ≠ .other := fun he => by
      rw [he] at hown'
      exact Set.notMem_empty _ hown'
    exact Set.disjoint_left.mp (hfr.others _ _ _ _ _ _ hx hpar hne hlive) hown' ⟨n, hn, rfl⟩

/-- From pages below 16 the root process derives page 0, and from that a frame of pages 0 and 1. -/
def virtDerivesPastEnd : List Label :=
  [.schedule 1 0,
   .ecall 1 (callRegs 5 20 21 (capMkMemory 0 1 7 0 0).word0 (capMkMemory 0 1 7 0 0).word1 0 0),
   .ecall 1 (callRegs 5 21 22 (capMkPmp 0 7).word0 (capMkPmp 0 7).word1 0 0)]

/-- The frame is not within the capability that it comes from: page 1, which it opens, is still the
    root's. -/
theorem frame_reaches_past_end :
    (∃ p c : Cap, capIsType p .memory = true ∧ capMemoryGetFree p ≤ capMemoryGetEnd p ∧
      capIsType c .pmp = true ∧ capCanDerive p c = true ∧
      ¬ openedPages c ⊆ Set.Ico (capMemoryGetFree p).toNat (capMemoryGetEnd p).toNat) ∧
    ∃ s, Reachable (RootState .virt) (Step .virt) s ∧
      s.kernel.Live (.slot 0 22) ∧ capIsType (s.kernel.caps (.slot 0 22)) .pmp = true ∧
      1 ∈ openedPages (s.kernel.caps (.slot 0 22)) ∧
      Parent s.kernel.history (ident s.kernel.history (.slot 0 21))
        (ident s.kernel.history (.slot 0 22)) ∧
      s.kernel.Live (.slot 0 20) ∧ (s.kernel.caps (.slot 0 20)).Owns (.page 1) := by
  constructor
  · refine ⟨capMkMemory 0 1 7 0 0, capMkPmp 0 7, by decide, by decide, by decide, by decide,
      fun h => ?_⟩
    have hmem : 1 ∈ openedPages (capMkPmp 0 7) := by
      rw [openedPages_eq]
      exact ⟨by decide, by decide⟩
    exact absurd (h hmem).2 (by decide)
  · refine ⟨virtMemory.after .virt virtDerivesPastEnd,
      ⟨virtMemory, virtMemory_disjointRoots.1, after_steps _ _ _⟩, by decide +kernel,
      by decide +kernel, ?_, ?_, by decide +kernel, by decide +kernel⟩
    · rw [openedPages_eq]
      exact ⟨by decide +kernel, by decide +kernel⟩
    · have hhist : (virtMemory.after .virt virtDerivesPastEnd).kernel.history =
          [.derived (.slot 0 21) (.slot 0 22), .derived (.slot 0 20) (.slot 0 21)] := by
        decide +kernel
      rw [hhist]
      exact (Lineage.childOf_derived_dst (by decide)).mpr rfl

end SepKernel
