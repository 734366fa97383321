import SepKernel.Bounds

/-!
# What derivation lets in

`gen/cap.yml` says twice which capabilities are legal: in the asserts of the constructors, which the
kernel's own capabilities have to pass, and in the conditions of `can_derive`, which are all that
stands between a user program and the tables. The two agree on everything but the rights of
memory. The constructors want the bit for reading, `can_derive` only that the child has no right
the parent lacks, so a child may have lost it.
-/

namespace SepKernel

open Capability (CanDerive)
open Transition (Reachable)

variable {cfg : Config} {s : System} {st : System} {p i : Nat} {n : NodeRef} {c : Cap} {w : Word}
  {op : CapOp} {H : Holdings} {v : Capability}

/-! ## The two descriptions -/

/-- The constructor of a type, called on the fields of a capability. -/
def Cap.rebuild (cfg : Config) (c : Cap) : CapType → Except Halt Cap
  | .empty => throw .assertion
  | .memory => Gen.capMkMemory (capMemoryGetBegin c) (capMemoryGetEnd c) (capMemoryGetRwx c)
      (capMemoryGetFree c) (capMemoryGetPmp c)
  | .pmp => Gen.capMkPmp (capPmpGetAddr c) (capPmpGetRwx c)
  | .time => Gen.capMkTime cfg.minHartid cfg.maxHartid cfg.nQuantum (capTimeGetHartid c)
      (capTimeGetBegin c) (capTimeGetEnd c) (capTimeGetFree c)
  | .channels => Gen.capMkChannels cfg.nChannels (capChannelsGetBegin c) (capChannelsGetEnd c)
      (capChannelsGetFree c)
  | .receiver => Gen.capMkReceiver cfg.nChannels (capReceiverGetChannel c) (capReceiverGetGrant c)
  | .sender => Gen.capMkSender cfg.nChannels (capSenderGetChannel c) (capSenderGetGrant c)
  | .server => Gen.capMkServer cfg.nChannels (capServerGetChannel c) (capServerGetGrant c)
  | .client => Gen.capMkClient cfg.nChannels (capClientGetChannel c) (capClientGetGrant c)
  | .supervisor => Gen.capMkSupervisor cfg.nProc (capSupervisorGetBegin c) (capSupervisorGetEnd c)
      (capSupervisorGetFree c)

/-- The fields of the capability pass every assert of the constructor of its type. -/
def Cap.Admitted (cfg : Config) (c : Cap) : Prop :=
  ∃ ty cap, capIsType c ty = true ∧ c.rebuild cfg ty = .ok cap

/-- A capability for memory or for a frame that has the bit for reading. -/
def Cap.Readable (c : Cap) : Prop :=
  (capIsType c .memory = true → capMemoryGetRwx c &&& 4 ≠ 0) ∧
    (capIsType c .pmp = true → capPmpGetRwx c &&& 4 ≠ 0)

instance (c : Cap) : Decidable c.Readable := inferInstanceAs (Decidable (_ ∧ _))

/-! ## Rights -/

/-- The rights of memory are among those to read, to write and to execute. -/
def Capability.RwxOnly : Capability → Prop
  | .memory _ w _ => RwxSub w 7
  | .pmp _ _ w => RwxSub w 7
  | _ => True

/-- Derivation passes on no bits but the three of a permission. -/
theorem Capability.CanDerive.rwxOnly {p c : Capability} (h : CanDerive p c) (hp : p.RwxOnly) :
    c.RwxOnly ∧ (p.afterDerive c).RwxOnly := by
  cases h with
  | memory hfirst hfree hlt hstop hrwx => exact ⟨hrwx.trans hp, hp⟩
  | pmp hlo hlt hhi hrwx => exact ⟨hrwx.trans hp, hp⟩
  | _ => exact ⟨trivial, trivial⟩

/-- No operation makes rights of its own. -/
theorem CapOp.Enabled.rwxOnly (he : op.Enabled H) (h : ∀ n, (H n).RwxOnly) (n : NodeRef) :
    (op.onHeld H n).RwxOnly := by
  rcases he.arises n with hother | ⟨m, ha⟩
  · rw [hother]
    trivial
  · generalize op.onHeld H n = v at ha ⊢
    cases ha with
    | kept => exact h m
    | narrowed hcan => exact (hcan.rwxOnly (h m)).2
    | derived hcan => exact (hcan.rwxOnly (h m)).1

/-- Other types have no rights to memory. -/
theorem Cap.rwxOnly_of_type {ty : CapType} (ht : capIsType c ty = true) (hmemory : ty ≠ .memory)
    (hpmp : ty ≠ .pmp) : c.view.RwxOnly := by
  rw [Cap.view_eq ht]
  cases ty with
  | memory => exact absurd rfl hmemory
  | pmp => exact absurd rfl hpmp
  | _ => trivial

theorem Cap.readable_of_type {ty : CapType} (ht : capIsType c ty = true) (hmemory : ty ≠ .memory)
    (hpmp : ty ≠ .pmp) : c.Readable := by
  have hother : ∀ {t : CapType}, t ≠ ty → ¬ capIsType c t = true := by
    intro t hne
    rw [capIsType_eq ht, decide_eq_true_iff]
    exact hne
  exact ⟨fun h => absurd h (hother hmemory.symm), fun h => absurd h (hother hpmp.symm)⟩

theorem rwxOnly_of_rwxOk (h : Gen.rwxOk w = true) : RwxSub w 7 := by
  simp only [Gen.rwxOk, Bool.or_eq_true, beq_iff_eq] at h
  rcases h with ((rfl | rfl) | rfl) | rfl <;> rfl

/-- Among the eight sets of rights, the constructors take those with the bit for reading. -/
theorem rwxOk_iff (h : RwxSub w 7) : Gen.rwxOk w = true ↔ w &&& 4 ≠ 0 := by
  have hlt : w.toNat < 8 := by
    rw [← h, BitVec.toNat_and]
    exact Nat.lt_succ_of_le Nat.and_le_right
  obtain ⟨k, hk, rfl⟩ : ∃ k < 8, w = BitVec.ofNat 64 k := ⟨w.toNat, hlt, by simp⟩
  clear h hlt
  revert k
  decide

/-- And no constructor makes others. -/
theorem Constructed.rwxOnly (h : Constructed cfg c) : c.view.RwxOnly := by
  have hendpoint : ∀ (ty : CapType) {chan grant : Field} {n : Nat} {ch g : Word},
      Gen.capMkEndpoint chan grant (fun a b => chan.put (grant.put ty.blank b) a) n ch g = .ok c →
      chan.Inside → grant.Inside → chan.Apart .tag → grant.Apart .tag → grant.Apart chan →
      ty ≠ .memory → ty ≠ .pmp → c.view.RwxOnly := by
    intro ty chan grant n ch g h hc hg hct hgt hgc hmemory hpmp
    exact Cap.rwxOnly_of_type (capMkEndpoint_view h hc hg hct hgt hgc).1 hmemory hpmp
  cases h with
  | memory b e r f m h =>
    have hview := (capMkMemory_view h).1
    simp only [Gen.capMkMemory, kassert_bind, checkFits_bind] at h
    rw [hview]
    exact rwxOnly_of_rwxOk h.2.2.2.2.2.2.2.2.1
  | pmp addr r h =>
    have hview := (capMkPmp_view h).1
    simp only [Gen.capMkPmp, kassert_bind, checkFits_bind] at h
    rw [hview]
    exact rwxOnly_of_rwxOk h.2.2.1
  | time hart b e f h => rw [(capMkTime_view h).1]; trivial
  | channels b e f h => rw [(capMkChannels_view h).1]; trivial
  | supervisor b e f h => rw [(capMkSupervisor_view h).1]; trivial
  | receiver ch g h =>
    exact hendpoint .receiver h (by decide) (by decide) (by decide) (by decide) (by decide)
      (by decide) (by decide)
  | sender ch g h =>
    exact hendpoint .sender h (by decide) (by decide) (by decide) (by decide) (by decide)
      (by decide) (by decide)
  | server ch g h =>
    exact hendpoint .server h (by decide) (by decide) (by decide) (by decide) (by decide)
      (by decide) (by decide)
  | client ch g h =>
    exact hendpoint .client h (by decide) (by decide) (by decide) (by decide) (by decide)
      (by decide) (by decide)

/-- So in a state of constructed capabilities there are none. -/
theorem AssertedState.rwxOnly (h : AssertedState cfg s) (n : NodeRef) :
    (s.kernel.held n).RwxOnly := by
  by_cases hn : s.kernel.held n = .other
  · rw [hn]
    trivial
  · obtain ⟨p, i, -, hl, hheld⟩ := live_of_held hn
    rw [hheld]
    exact (h.constructed p i hl).rwxOnly

/-- In every run nothing but rights to read, to write and to execute is ever held. -/
theorem rwxOnly_of_reachable {init : System → Prop} (hinit : ∀ s, init s → AssertedState cfg s)
    (hr : Reachable init (Step cfg) st) : ∀ n, (st.kernel.held n).RwxOnly := by
  have hI : st.Good cfg ∧ ∀ n, (st.kernel.held n).RwxOnly := by
    refine hr.invariant (I := fun t : System => t.Good cfg ∧ ∀ n, (t.kernel.held n).RwxOnly)
      (fun s hs => ⟨(hinit s hs).good, (hinit s hs).rwxOnly⟩) fun s l t hI hs => ?_
    obtain ⟨hg, hrwx⟩ := hI
    obtain ⟨hen, heq⟩ := step_held hg hs
    refine ⟨step_good hg hs, fun n => ?_⟩
    rw [heq]
    exact hen.rwxOnly hrwx n
  exact hI.2

/-! ## What the asserts say -/

/-- What is derived has handed nothing out. -/
theorem Capability.CanDerive.fresh {p c : Capability} (h : CanDerive p c) : c.reset = c := by
  have hcarve : ∀ {r : Span}, r.free = r.first → r.carve r.first = r := by
    intro ⟨first, free, stop⟩ hr
    obtain rfl : free = first := hr
    rfl
  cases h with
  | memory hfirst hfree => rw [Capability.reset, hcarve hfree]
  | time hfirst hfree => rw [Capability.reset, hcarve hfree]
  | channels hfirst hfree => rw [Capability.reset, hcarve hfree]
  | supervisor hfirst hfree => rw [Capability.reset, hcarve hfree]
  | _ => rfl

/-- Of arguments that pass the asserts a constructor makes a capability. -/
theorem capMkEndpoint_ok {chan grant : Field} {mk : Word → Word → Cap} {m : Nat} {ch g : Word}
    (hch : BitField.Fits chan.bits ch) (hg : BitField.Fits grant.bits g) (hlt : ch.toNat < m) :
    Gen.capMkEndpoint chan grant mk m ch g = .ok (mk ch g) := by
  simp only [Gen.capMkEndpoint, kassert_bind, checkFits_bind, decide_eq_true_eq]
  exact ⟨hch, hg, hlt, rfl⟩

/-- The asserts hold of a valid capability that has handed nothing out, if its rights are among
    those they list. -/
theorem rebuild_ok_iff {ty : CapType} (ht : capIsType c ty = true) (hv : c.view.Valid cfg)
    (hfresh : c.view.reset = c.view) (hrwx : c.view.RwxOnly) :
    (∃ cap, c.rebuild cfg ty = .ok cap) ↔ c.Readable := by
  -- what a getter returns passes the width assert of its field
  have hfits : ∀ {f : Field}, f.Inside → BitField.Fits f.bits (f.get c) := fun hf =>
    Field.fits_get hf hf le_rfl
  have hword : ∀ {a b : Word}, a.toNat = b.toNat → a = b := BitVec.eq_of_toNat_eq
  have hreadable := Cap.readable_of_type ht
  rw [Cap.view_eq ht] at hv hfresh hrwx
  cases ty with
  | empty => exact absurd hv.1 id
  | memory =>
    obtain ⟨⟨⟨-, -, hlt⟩, -⟩, -⟩ := hv
    simp only [Cap.viewAs, Capability.reset, Span.carve, Capability.memory.injEq, Span.mk.injEq,
      true_and, and_true] at hfresh
    -- the assert on the rights is the only one left to decide
    have hread : c.Readable ↔ Gen.rwxOk (capMemoryGetRwx c) = true := by
      simp [Cap.Readable, capIsType_eq ht, rwxOk_iff hrwx]
    rw [hread]
    simp only [Cap.rebuild, Gen.capMkMemory, kassert_bind, checkFits_bind, beq_iff_eq,
      decide_eq_true_eq]
    constructor
    · rintro ⟨cap, -, -, -, -, -, -, -, -, hok, -⟩
      exact hok
    · intro hok
      exact ⟨_, hfits (by decide), hfits (by decide), hfits (by decide), hfits (by decide),
        hfits (by decide), hword hfresh.1, hlt, hword hfresh.2.symm, hok, rfl⟩
  | pmp =>
    have hread : c.Readable ↔ Gen.rwxOk (capPmpGetRwx c) = true := by
      simp [Cap.Readable, capIsType_eq ht, rwxOk_iff hrwx]
    rw [hread]
    simp only [Cap.rebuild, Gen.capMkPmp, kassert_bind, checkFits_bind]
    constructor
    · rintro ⟨cap, -, -, hok, -⟩
      exact hok
    · intro hok
      exact ⟨_, hfits (by decide), hfits (by decide), hok, rfl⟩
  | time =>
    obtain ⟨⟨-, -, hlt⟩, hlo, hhi, hn⟩ := hv
    simp only [Cap.viewAs, Capability.reset, Span.carve, Capability.time.injEq, Span.mk.injEq,
      true_and, and_true] at hfresh
    refine iff_of_true ?_ (hreadable (by decide) (by decide))
    simp only [Cap.rebuild, Gen.capMkTime, kassert_bind, checkFits_bind, beq_iff_eq,
      decide_eq_true_eq]
    exact ⟨_, hfits (by decide), hfits (by decide), hfits (by decide), hfits (by decide), hlo, hhi,
      hword hfresh, hlt, hn, rfl⟩
  | channels =>
    obtain ⟨⟨-, -, hlt⟩, hn⟩ := hv
    simp only [Cap.viewAs, Capability.reset, Span.carve, Capability.channels.injEq, Span.mk.injEq,
      true_and, and_true] at hfresh
    refine iff_of_true ?_ (hreadable (by decide) (by decide))
    simp only [Cap.rebuild, Gen.capMkChannels, kassert_bind, checkFits_bind, beq_iff_eq,
      decide_eq_true_eq]
    exact ⟨_, hfits (by decide), hfits (by decide), hfits (by decide), hword hfresh, hlt, hn, rfl⟩
  | supervisor =>
    obtain ⟨⟨-, -, hlt⟩, hn⟩ := hv
    simp only [Cap.viewAs, Capability.reset, Span.carve, Capability.supervisor.injEq,
      Span.mk.injEq, true_and, and_true] at hfresh
    refine iff_of_true ?_ (hreadable (by decide) (by decide))
    simp only [Cap.rebuild, Gen.capMkSupervisor, kassert_bind, checkFits_bind, beq_iff_eq,
      decide_eq_true_eq]
    exact ⟨_, hfits (by decide), hfits (by decide), hfits (by decide), hword hfresh, hlt, hn, rfl⟩
  | receiver =>
    exact iff_of_true ⟨_, capMkEndpoint_ok (hfits (by decide)) (hfits (by decide)) hv.2⟩
      (hreadable (by decide) (by decide))
  | sender =>
    exact iff_of_true ⟨_, capMkEndpoint_ok (hfits (by decide)) (hfits (by decide)) hv.2⟩
      (hreadable (by decide) (by decide))
  | server =>
    exact iff_of_true ⟨_, capMkEndpoint_ok (hfits (by decide)) (hfits (by decide)) hv.2⟩
      (hreadable (by decide) (by decide))
  | client =>
    exact iff_of_true ⟨_, capMkEndpoint_ok (hfits (by decide)) (hfits (by decide)) hv.2⟩
      (hreadable (by decide) (by decide))

/-! ## Derivation -/

/-- What a live capability lets a user program derive passes the asserts of its constructor if and
    only if, where it is for memory or for a frame, it has the bit for reading. -/
theorem derive_admits_iff {init : System → Prop} (hinit : ∀ s, init s → AssertedState cfg s)
    (hr : Reachable init (Step cfg) st) (hl : st.kernel.Live (.slot p i))
    (hcan : capCanDerive (st.kernel.caps (.slot p i)) c = true) :
    c.Admitted cfg ↔ c.Readable := by
  have hg : st.Good cfg := hr.invariant (fun s hs => (hinit s hs).good) fun _ _ _ => step_good
  have hder : CanDerive (st.kernel.caps (.slot p i)).view c.view := canDerive_of_capCanDerive hcan
  have hparent : (st.kernel.caps (.slot p i)).view.RwxOnly := by
    rw [← held_of_live hl]
    exact rwxOnly_of_reachable hinit hr _
  have hvalid : c.view.Valid cfg := hder.valid_child (hg.kernel.valid p i hl)
  -- the bounds come down from the parent, which keeps its own by induction over the run
  obtain ⟨ty, ht, -⟩ := fieldsOk_of_valid hvalid
  have hiff := rebuild_ok_iff ht hvalid hder.fresh (hder.rwxOnly hparent).1
  constructor
  · intro ⟨ty', cap, ht', hok⟩
    obtain rfl : ty' = ty := by simpa [capIsType_eq ht] using ht'
    exact hiff.mp ⟨cap, hok⟩
  · intro hread
    obtain ⟨cap, hok⟩ := hiff.mpr hread
    exact ⟨ty, cap, ht, hok⟩

/-- Two children of the memory capability of `virtMemory`: one to read and write, one that only
    executes. -/
def readWriteChild : Cap := capMkMemory 0 8 6 0 0

/-- No constructor takes this permission, but a derivation admits it. -/
def executeOnlyChild : Cap := capMkMemory 0 8 1 0 0

/-- Reading and writing is admitted, as it is readable. -/
theorem derive_admits_readWrite : readWriteChild.Admitted .virt ↔ readWriteChild.Readable := by
  have hr : Reachable (DisjointRoots .virt) (Step .virt) virtMemory :=
    ⟨virtMemory, virtMemory_disjointRoots, .refl _⟩
  have hl : virtMemory.kernel.Live (.slot 0 20) := by decide +kernel
  exact derive_admits_iff (fun _ h => h.1.asserted) hr hl (by decide +kernel)

/-- The second is derived, though no constructor makes it. -/
theorem derive_admits_executeOnly : ∃ st, Reachable (DisjointRoots .virt) (Step .virt) st ∧
    st.kernel.Live (.slot 0 20) ∧
    capCanDerive (st.kernel.caps (.slot 0 20)) executeOnlyChild = true ∧
    ¬ executeOnlyChild.Admitted .virt := by
  have hr : Reachable (DisjointRoots .virt) (Step .virt) virtMemory :=
    ⟨virtMemory, virtMemory_disjointRoots, .refl _⟩
  have hl : virtMemory.kernel.Live (.slot 0 20) := by decide +kernel
  have hcan : capCanDerive (virtMemory.kernel.caps (.slot 0 20)) executeOnlyChild = true := by
    decide +kernel
  refine ⟨virtMemory, hr, hl, hcan, fun hadm => ?_⟩
  have hread := (derive_admits_iff (fun _ h => h.1.asserted) hr hl hcan).mp hadm
  exact absurd hread (by decide)

end SepKernel
