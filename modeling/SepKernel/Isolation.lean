import SepKernel.Admission
import SepKernel.Confinement
import SepKernel.Domains
import SepKernel.Pmp
import SepKernel.Rounds

/-!
# Memory isolation

The kernel programs the PMP registers of a hart when it enters a process, and not again while the
process runs: a frame that is revoked or given away in the meantime stays open on that hart. Pages
belong to domains too. If no capability of a process is for a page outside its domain, none is in any
later state, and no hart ever opens a page of another domain to its user code, with registers that
are out of date or not. A memory capability has to be kept away from `end` as well, for a frame of
it may reach that page.
-/

namespace SepKernel

open Capability (CanDerive)
open Transition (Reachable Steps)

variable {κ : Type} {dom : Resource → κ} {cfg : Config} {s : Kernel} {st st' : System} {l : Label}
  {c : Cap} {x : Word} {p h i b : Nat} {out : PmpRegs}

/-! ## The pages of a capability -/

/-- The first and the last page that a frame may open which is the capability or is derived from it. -/
def Capability.pageBounds : Capability → Option (Nat × Nat)
  | .memory r _ _ => some (r.free, r.stop)
  | .pmp lo hi _ => some (lo, hi)
  | _ => none

/-- All pages in between. -/
def Capability.pages (c : Capability) : Set Resource :=
  {x | ∃ lo hi n, c.pageBounds = some (lo, hi) ∧ lo ≤ n ∧ n ≤ hi ∧ x = .page n}

/-- Wider bounds, more pages. -/
theorem pages_mono {v w : Capability} (h : ∀ lo hi, v.pageBounds = some (lo, hi) →
    ∃ lo' hi', w.pageBounds = some (lo', hi') ∧ lo' ≤ lo ∧ hi ≤ hi') : v.pages ⊆ w.pages := by
  rintro x ⟨lo, hi, n, hv, hlo, hhi, rfl⟩
  obtain ⟨lo', hi', hw, hlo', hhi'⟩ := h lo hi hv
  exact ⟨lo', hi', n, hw, hlo'.trans hlo, hhi.trans hhi', rfl⟩

/-- Derivation divides the pages, in the same sense as the other resources. -/
theorem pages_divided : Divided Capability.pages where
  child h := by
    refine pages_mono fun lo hi hc => ?_
    cases h with
    | memory hfirst hfree hlt hstop =>
      obtain ⟨rfl, rfl⟩ := Prod.mk.inj (Option.some.inj hc)
      exact ⟨_, _, rfl, by omega, hstop⟩
    | pmp hlo hlt hhi =>
      obtain ⟨rfl, rfl⟩ := Prod.mk.inj (Option.some.inj hc)
      exact ⟨_, _, rfl, hlo, hhi⟩
    | _ => cases hc
  parent h := by
    refine pages_mono fun lo hi hc => ?_
    cases h with
    | memory hfirst hfree hlt hstop =>
      obtain ⟨rfl, rfl⟩ := Prod.mk.inj (Option.some.inj hc)
      exact ⟨_, _, rfl, by simp only [Span.carve]; omega, le_rfl⟩
    | pmp =>
      obtain ⟨rfl, rfl⟩ := Prod.mk.inj (Option.some.inj hc)
      exact ⟨_, _, rfl, le_rfl, le_rfl⟩
    | _ => cases hc
  other := by
    ext x
    refine ⟨?_, False.elim⟩
    rintro ⟨lo, hi, n, hc, -⟩
    cases hc

/-! ## What the registers allow -/

namespace PmpRegs

/-- The field `A` of entry `i`, where it is. -/
def mode (out : PmpRegs) (i : Nat) : Word := byte i out.pmpcfg0 &&& 0x18

/-- Entry `i` matches the byte at the address `b`. -/
def Matches (out : PmpRegs) (i b : Nat) : Prop :=
  if out.mode i = 0x18 then NapotOpens (out.pmpaddr i) b
  else if out.mode i = 0x10 then
    (out.pmpaddr i).toNat * 4 ≤ b ∧ b < ((out.pmpaddr i).toNat + 1) * 4
  else if out.mode i = 0x08 then
    (if i = 0 then 0 else (out.pmpaddr (i - 1)).toNat * 4) ≤ b ∧ b < (out.pmpaddr i).toNat * 4
  else False

/-- User code may read, write or execute the byte: the first entry that matches it decides. -/
def Allows (out : PmpRegs) (b : Nat) : Prop :=
  ∃ i < 8, out.Matches i b ∧ (∀ j < i, ¬ out.Matches j b) ∧ byte i out.pmpcfg0 &&& 7 ≠ 0

end PmpRegs

/-- The mode byte is off or NAPOT. -/
theorem modeBelow_cases (cfg : Config) (s : Kernel) (p n : Nat) :
    modeBelow cfg s p n = 0 ∨ modeBelow cfg s p n = 0x18 := by
  unfold modeBelow
  split
  · exact Or.inr rfl
  · exact Or.inl rfl

/-- An entry that allows something is one in which a frame has been loaded. -/
theorem LoadedBelow.allows (hl : LoadedBelow cfg s p 8 out) (hrwx : RwxOnly s p)
    (ha : out.Allows b) : ∃ i c, loadedFrame cfg s p i = some c ∧ b / 4096 ∈ openedPages c := by
  obtain ⟨i, hi, hm, -, hright⟩ := ha
  have hbyte : ∃ m : Word, (m = 0 ∨ m = 0x18) ∧
      byte i out.pmpcfg0 = rwxOf (loadedFrame cfg s p i) ||| m := by
    refine ⟨if i = 0 then modeBelow cfg s p 8 else 0, ?_, ?_⟩
    · split
      · exact modeBelow_cases cfg s p 8
      · exact Or.inl rfl
    · rw [hl.cfgByte i hi, if_pos hi]
  obtain ⟨m, hm', hbyte⟩ := hbyte
  have hle : rwxOf (loadedFrame cfg s p i) ≤ 7 := hrwx.loaded i
  cases hc : loadedFrame cfg s p i with
  | none =>
    -- nothing but mode bits
    rw [hbyte, hc] at hright
    rcases hm' with rfl | rfl <;> exact absurd (by decide) hright
  | some c =>
    refine ⟨i, c, hc, b, ?_, rfl⟩
    have hmode : out.mode i = m := by
      rw [PmpRegs.mode, hbyte, BitVec.and_or_distrib_right, and_mode hle]
      rcases hm' with rfl | rfl <;> rfl
    have haddr : out.pmpaddr i = napotRegister (capPmpGetAddr c) := by
      rw [hl.addr i, if_pos hi, hc]
      rfl
    rw [PmpRegs.Matches, hmode, haddr] at hm
    rcases hm' with rfl | rfl
    · exact absurd hm id
    · exact hm

/-- What is loaded is held. -/
theorem held_of_loaded (hc : loadedFrame cfg s p i = some c) :
    ∃ j, s.held (.slot p j) = .pmp (pmpNapotBegin (capPmpGetAddr c)).toNat
      (pmpNapotEnd (capPmpGetAddr c)).toNat (capPmpGetRwx c) := by
  obtain ⟨ht, he⟩ := Option.ite_none_right_eq_some.mp (Option.ite_none_right_eq_some.mp hc).2
  refine ⟨slotOf cfg (BitVec.ofNat 64 i), ?_⟩
  rw [Kernel.held, ← Option.some.inj he, Cap.view_eq ht]
  rfl

/-! ## Isolation -/

/-- Nothing a process holds is for a resource outside its domain, a page that a frame may reach
    included, and no hart opens a page outside the domain of the process it runs. -/
structure System.Isolated (cfg : Config) (dom : Resource → κ) (st : System) : Prop where
  separated : st.kernel.Separated cfg dom
  held : HeldWithin Capability.pages dom st.kernel.held
  harts : ∀ h p b, st.current h = some p → (st.harts h).pmp.Allows b →
    dom (.page (b / 4096)) = dom (.process p)

theorem rwxOnly_of_held (h : ∀ n, (s.held n).RwxOnly) (p : Nat) : RwxOnly s p := by
  intro i hl ht
  have hview := h (.slot p i)
  rw [held_of_live hl, Cap.view_eq ht] at hview
  have hsub : capPmpGetRwx (s.caps (.slot p i)) &&& 7 = capPmpGetRwx (s.caps (.slot p i)) := hview
  rw [← hsub, BitVec.le_def, BitVec.toNat_and]
  exact Nat.and_le_right

/-- The registers a process is entered with open what it holds frames for. -/
theorem HeldWithin.allows (h : HeldWithin Capability.pages dom s.held)
    (hrwx : ∀ n, (s.held n).RwxOnly) (hout : (procLoadPmp cfg p).run s = .ok (out, s))
    (ha : out.Allows b) : dom (.page (b / 4096)) = dom (.process p) := by
  rw [procLoadPmp_run_eq] at hout
  obtain rfl := (Prod.mk.inj (Except.ok.inj hout)).1
  obtain ⟨i, c, hc, hb⟩ := (loadedBelow le_rfl).allows (rwxOnly_of_held hrwx p) ha
  obtain ⟨j, hj⟩ := held_of_loaded hc
  rw [openedPages_eq] at hb
  refine h p j _ ?_
  rw [hj]
  exact ⟨_, _, _, rfl, hb.1, hb.2, rfl⟩

/-- A hart has the registers it had, for the process it had, or it has just entered one. -/
theorem step_pmp (hg : st.Good cfg) (hs : Step cfg st l st') (hcur : st'.current h = some p) :
    st.current h = some p ∧ (st'.harts h).pmp = (st.harts h).pmp ∨
      ∃ mtime, l = .schedule h mtime := by
  have hfinish : ∀ (h' : Nat) (out : Outcome) (k : Kernel),
      ((st.finish h' out k).harts h).pmp = (st.harts h).pmp := by
    intro h' out k
    cases out with
    | ret => rfl
    | yielded =>
      by_cases hh : h = h'
      · subst hh
        simp [System.finish]
      · simp [System.finish, hh]
  cases step_effect hg hs with
  | call => exact Or.inl ⟨finish_current hcur, hfinish _ _ _⟩
  | timer => exact Or.inl ⟨finish_current hcur, hfinish _ _ _⟩
  | exception => exact Or.inl ⟨hcur, rfl⟩
  | idle => exact Or.inl ⟨hcur, rfl⟩
  | @dispatch h' q mtime hart =>
    by_cases hh : h = h'
    · exact Or.inr ⟨mtime, by rw [hh]⟩
    · have hsame : Function.update st.harts h' hart h = st.harts h := Function.update_of_ne hh _ _
      exact Or.inl ⟨(congrArg Hart.current hsame).symm.trans hcur, congrArg Hart.pmp hsame⟩

/-- One step keeps pages apart. Only a round of the scheduler loads registers. -/
theorem step_isolated (hm : cfg.memoryProtection = true) (hg : st.Good cfg)
    (hrwx : ∀ n, (st'.kernel.held n).RwxOnly) (h : st.Isolated cfg dom)
    (hs : Step cfg st l st') : st'.Isolated cfg dom := by
  obtain ⟨he, hheld⟩ := step_held hg hs
  have hpages : HeldWithin Capability.pages dom st'.kernel.held := by
    rw [hheld]
    exact h.held.onHeld pages_divided he (stays_of_separated h.separated)
  refine ⟨step_separated hg h.separated hs, hpages, fun hart p b hcur ha => ?_⟩
  rcases step_pmp hg hs hcur with ⟨hcur', hsame⟩ | ⟨mtime, rfl⟩
  · -- out of date or not, the registers are those of the process
    rw [hsame] at ha
    exact h.harts hart p b hcur' ha
  · exact hpages.allows hrwx (step_schedule_pmp hg hm hs hcur) ha

/-- In every run the harts open pages of the domain of the process they run only, if at some time
    they do and nothing that is held goes beyond its domain. -/
theorem memory_isolated {init : System → Prop} (hinit : ∀ s, init s → AssertedState cfg s)
    (hm : cfg.memoryProtection = true) (hr : Reachable init (Step cfg) st)
    (h : st.Isolated cfg dom) (hs : Steps (Step cfg) st st') : st'.Isolated cfg dom := by
  refine (hs.invariant (I := fun t => Reachable init (Step cfg) t ∧ t.Isolated cfg dom)
    (fun t l t' hI hl => ?_) ⟨hr, h⟩).2
  have hr' : Reachable init (Step cfg) t' := hI.1.step hl
  exact ⟨hr', step_isolated hm (hI.1.invariant (fun s hs => (hinit s hs).good)
    fun _ _ _ => step_good) (rwxOnly_of_reachable hinit hr') hI.2 hl⟩

/-! ## A frame that outlives its capability -/

/-- The same as a list. -/
def Capability.pageList (c : Capability) : List Resource :=
  match c.pageBounds with
  | some (lo, hi) => (List.range' lo (hi + 1 - lo)).map .page
  | none => []

theorem mem_pageList {c : Capability} {x : Resource} (hx : x ∈ c.pages) : x ∈ c.pageList := by
  obtain ⟨lo, hi, n, hc, hlo, hhi, rfl⟩ := hx
  rw [Capability.pageList, hc]
  exact List.mem_map_of_mem (List.mem_range'_1.mpr ⟨hlo, by omega⟩)

/-- `config.h` on `bsp/virt.h` with the line for `MEMORY_PROTECTION` switched on. -/
def Config.virtProtected : Config := { Config.virt with memoryProtection := true }

theorem Constructed.virtProtected (h : Constructed .virt c) : Constructed .virtProtected c := by
  cases h with
  | memory b e r f m h => exact .memory b e r f m h
  | pmp addr r h => exact .pmp addr r h
  | time hart b e f h => exact .time hart b e f h
  | channels b e f h => exact .channels b e f h
  | receiver ch g h => exact .receiver ch g h
  | sender ch g h => exact .sender ch g h
  | server ch g h => exact .server ch g h
  | client ch g h => exact .client ch g h
  | supervisor b e f h => exact .supervisor b e f h

/-- The root process with a memory capability, which boot does not give it. -/
theorem virtMemory_asserted : AssertedState .virtProtected virtMemory := by
  have h : AssertedState .virt virtMemory := virtMemory_disjointRoots.1.asserted
  exact ⟨h.lists, h.bounds, fun p i hl => (h.constructed p i hl).virtProtected, h.clear, h.pids,
    h.states, h.receivers, h.entries, h.halted, h.history⟩

/-- Of its memory the root process keeps the pages from 5 on. Process 1 gets a frame of the first
    two and some time. Nobody has the rest, page 4 among it, which a frame from either side of the
    border might reach. -/
def virtFramed : System := virtMemory.after .virtProtected
  [.schedule 1 0,
    .ecall 1 (callRegs 5 2 10 (capMkSupervisor 0 2 0).word0 (capMkSupervisor 0 2 0).word1 0 0),
    .ecall 1 (callRegs 5 20 21 (capMkMemory 0 4 7 0 0).word0 (capMkMemory 0 4 7 0 0).word1 0 0),
    .ecall 1 (callRegs 5 20 22 (capMkMemory 4 5 7 4 0).word0 (capMkMemory 4 5 7 4 0).word1 0 0),
    .ecall 1 (callRegs 5 6 11 (capMkTime 4 0 64 0).word0 (capMkTime 4 0 64 0).word1 0 0),
    .ecall 1 (callRegs 5 21 23 (capMkPmp 0 7).word0 (capMkPmp 0 7).word1 0 0),
    .ecall 1 (callRegs 6 10 1 6 23 0 0), .ecall 1 (callRegs 6 10 1 6 11 1 0),
    .ecall 1 (callRegs 6 10 1 1 0 0 0), .ecall 1 (callRegs 3 21 0 0 0 0 0),
    .ecall 1 (callRegs 3 22 0 0 0 0 0), .ecall 1 (callRegs 3 10 0 0 0 0 0),
    .timer 1 (callRegs 0 0 0 0 0 0 0)]

/-- Process 1 with its time and the pages of its frame, and all the rest. -/
def virtFrameDomain : Resource → Bool
  | .process p => p == 1
  | .quantum h q => h == 4 && decide (q < 64)
  | .page n => decide (n < 2)
  | .channel _ => false

theorem virtFramed_reachable :
    Reachable (AssertedState .virtProtected) (Step .virtProtected) virtFramed :=
  ⟨virtMemory, virtMemory_asserted, after_steps _ _ _⟩

theorem virtMemory_tidy : virtMemory.Tidy .virtProtected where
  good := virtMemory_asserted.good
  receivers ch hch k := by
    simp only [virtMemory, Kernel.receivers_spliceIn]
    exact virtStart_booted.tidy.receivers ch hch k

theorem virtFramed_good : virtFramed.Good .virtProtected :=
  virtFramed_reachable.invariant (fun _ hs => hs.good) fun _ _ _ => step_good

/-- The two domains have no page in common. -/
theorem virtFramed_isolated : virtFramed.Isolated .virtProtected virtFrameDomain where
  separated := by
    have htidy : virtFramed.Tidy .virtProtected :=
      tidy_of_reachable (fun _ hs => hs) ⟨virtMemory, virtMemory_tidy, after_steps _ _ _⟩
    exact separated_of_tables htidy (by decide +kernel) (by decide +kernel) (by decide +kernel)
  held := by
    have hslots : ∀ p < Config.virtProtected.nProc, ∀ i < Config.virtProtected.nCaps,
        ∀ x ∈ (virtFramed.kernel.held (.slot p i)).pageList,
          virtFrameDomain x = virtFrameDomain (.process p) := by decide +kernel
    exact heldWithin_of_slots virtFramed_good pages_divided
      fun p hp i hi x hx => hslots p hp i hi x (mem_pageList hx)
  harts h p b hcur := by
    obtain ⟨hp, hrun⟩ := virtFramed_good.current h p hcur
    have hoff : ∀ p < Config.virtProtected.nProc, ¬ Running (virtFramed.kernel.procs p).state := by
      decide +kernel
    exact absurd hrun (hoff p hp)

/-- Process 1 is dispatched and deletes the frame that it has been dispatched with. -/
def virtFrameDeleted : System := virtFramed.after .virtProtected
  [.schedule 4 0, .schedule 1 0, .ecall 4 (callRegs 3 0 0 0 0 0 0)]

/-- The frame stays open on the hart. -/
theorem virtFrameDeleted_isolated : virtFrameDeleted.Isolated .virtProtected virtFrameDomain ∧
    (virtFrameDeleted.harts 4).pmp.Allows 0 := by
  refine ⟨memory_isolated (fun _ h => h) rfl virtFramed_reachable virtFramed_isolated
    (after_steps _ _ _), ?_⟩
  have hcfg : (virtFrameDeleted.harts 4).pmp.pmpcfg0 = 0x1F := by decide +kernel
  have haddr : (virtFrameDeleted.harts 4).pmp.pmpaddr 0 = 0x3FF := by decide +kernel
  have hmode : (virtFrameDeleted.harts 4).pmp.mode 0 = 0x18 := by
    rw [PmpRegs.mode, hcfg]
    decide
  refine ⟨0, by decide, ?_, by simp, by rw [hcfg]; decide⟩
  rw [PmpRegs.Matches, if_pos hmode, haddr]
  exact ⟨0, 10, rfl, by decide, by decide⟩

end SepKernel
