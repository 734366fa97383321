import Mathlib.Algebra.Order.BigOperators.Group.Finset
import SepKernel.Lib.Transition
import SepKernel.Links
import SepKernel.System

/-!
# `src/init.S`

All harts enter the kernel at the same place. One of them clears the static memory, calls the C code
that sets the kernel up and then sets the software interrupts of the harts that are to run
processes, its own among them; all others wait for their interrupt first. Every access to the memory
is a step, and the harts take turns in any order. What a hart does from `sched_start` on is not part
of this.
-/

namespace SepKernel
namespace Startup

open Transition (Reachable Steps exec steps_getD_exec)

variable (cfg : Config)

/-! ## Where things are -/

/-- The registers of the CLINT are not in the memory. -/
def clint : Word := 0x2000000

/-- What `config.lds` makes of `_bss` and `_ebss`, and the harts of the platform. -/
structure Layout where
  bss : Word
  ebss : Word
  /-- The words of four bytes that are cleared. -/
  words : Nat
  ebss_eq : ebss.toNat = bss.toNat + 4 * words
  origin_le : 0x80000000 ≤ bss.toNat
  /-- `N_CORES`; the CLINT has 4095 software interrupts. -/
  nCores : Nat
  maxHartid_lt : cfg.maxHartid < nCores
  nCores_le : nCores ≤ 4095
  /-- The variables of the kernel, as far as they lie between `_bss` and `_ebss`. -/
  read : (Word → BitVec 32) → Kernel
  read_zero : ∀ mem, (∀ i < words, mem (bss + 4 * BitVec.ofNat 64 i) = 0) → read mem = .zero

/-! ## The instructions -/

/-- Where a hart is: at an access to the memory, a branch that depends on one, or a call. The
    registers that count are kept with it. -/
inductive Ctl where
  /-- `csrr t0,mhartid`. -/
  | start
  /-- `2: bne t0,t1,1b`. -/
  | clearTest (t0 : Word)
  /-- `1: sw x0,0(t0)`. -/
  | clear (t0 : Word)
  | procInit
  | schedInit
  /-- `1: sw t2,0(t0)`. -/
  | wake (t0 : Word)
  /-- `bgeu t1,t0,1b`. -/
  | wakeTest (t0 : Word)
  /-- `csrr t0,mip`, after `wfi`. -/
  | wait
  /-- `sw x0,(t0)`. -/
  | disable
  | schedStart
  /-- In an assert of the C code. -/
  | hung
deriving DecidableEq

/-- The words of the memory and of the CLINT, and the variables of the kernel once the C code has
    written to them. -/
structure State (n : Nat) where
  mem : Word → BitVec 32
  kernel : Option Kernel
  ctl : Fin n → Ctl

/-- The software interrupt of a hart, as an address in the CLINT. -/
def msip (h : Nat) : Word := clint + BitVec.ofNat 64 h <<< 2

namespace State

variable {n : Nat} (s : State n)

/-- The hart goes on to its next instruction. -/
def goes (h : Fin n) (c : Ctl) : State n := { s with ctl := Function.update s.ctl h c }

/-- A store to a word of memory. -/
def store (a : Word) (v : BitVec 32) : State n := { s with mem := Function.update s.mem a v }

/-- A call that returns at `c`, or a failed assert, from which there is no return. -/
def calls (h : Fin n) (run : Except Halt (Unit × Kernel)) (c : Ctl) : State n :=
  match run with
  | .ok x => { s.goes h c with kernel := some x.2 }
  | .error _ => s.goes h .hung

/-- `mip.MSIP`: the bit in the CLINT, seen from the hart. -/
def pending (h : Fin n) : Bool := (s.mem (msip h)).getLsbD 0

end State

variable {cfg} (lay : Layout cfg) (rootPayload : Word)

/-- The next instruction of a hart, with a C function as one. Only the first hart clears the memory
    and wakes the others. -/
def step (h : Fin lay.nCores) (s : State lay.nCores) : Option (State lay.nCores) :=
  match s.ctl h with
  | .start => some (s.goes h (if h.val = cfg.minHartid then .clearTest lay.bss else .wait))
  | .clearTest t0 => some (s.goes h (if t0 ≠ lay.ebss then .clear t0 else .procInit))
  | .clear t0 => some ((s.store t0 0).goes h (.clearTest (t0 + 4)))
  | .procInit => some (s.calls h ((procInit cfg rootPayload).run (lay.read s.mem)) .schedInit)
  | .schedInit => s.kernel.map fun k =>
    s.calls h ((schedInit cfg).run k) (.wake (msip cfg.minHartid))
  | .wake t0 => some ((s.store t0 1).goes h (.wakeTest (t0 + 4)))
  | .wakeTest t0 => some (s.goes h (if t0 ≤ msip cfg.maxHartid then .wake t0 else .wait))
  | .wait => some (s.goes h (if s.pending h then .disable else .wait))
  | .disable => some ((s.store (msip h) 0).goes h .schedStart)
  | .schedStart => none
  | .hung => none

/-- The steps that the harts can take, in any order. -/
def Step (s : State lay.nCores) (h : Fin lay.nCores) (s' : State lay.nCores) : Prop :=
  step lay rootPayload h s = some s'

/-- Out of reset. No software interrupt is set; the memory holds anything. -/
def Reset (s : State lay.nCores) : Prop :=
  (∀ h, s.ctl h = .start) ∧ (∀ h : Fin lay.nCores, s.mem (msip h) = 0) ∧ s.kernel = none

/-! ## Addresses -/

theorem toNat_msip {h : Nat} (hh : h ≤ 4095) : (msip h).toNat = 0x2000000 + 4 * h := by
  have hclint : clint.toNat = 0x2000000 := rfl
  rw [msip, BitVec.toNat_add, BitVec.toNat_shiftLeft, BitVec.toNat_ofNat, Nat.shiftLeft_eq, hclint]
  omega

theorem msip_inj {h k : Nat} (hh : h ≤ 4095) (hk : k ≤ 4095) (he : msip h = msip k) : h = k := by
  have hnat := congrArg BitVec.toNat he
  rw [toNat_msip hh, toNat_msip hk] at hnat
  omega

theorem msip_succ {h : Nat} (hh : h + 1 ≤ 4095) : msip h + 4 = msip (h + 1) := by
  have hfour : (4 : Word).toNat = 4 := rfl
  apply BitVec.eq_of_toNat_eq
  rw [BitVec.toNat_add, toNat_msip (by omega), toNat_msip hh, hfour]
  omega

theorem msip_le_iff {h k : Nat} (hh : h ≤ 4095) (hk : k ≤ 4095) : msip h ≤ msip k ↔ h ≤ k := by
  rw [BitVec.le_def, toNat_msip hh, toNat_msip hk]
  omega

namespace Layout

/-- The word `i` of the static memory. -/
def word (i : Nat) : Word := lay.bss + 4 * BitVec.ofNat 64 i

variable {lay}

theorem toNat_word {i : Nat} (hi : i ≤ lay.words) : (lay.word i).toNat = lay.bss.toNat + 4 * i := by
  have hebss := lay.ebss.isLt
  have heq := lay.ebss_eq
  have hfour : (4 : Word).toNat = 4 := rfl
  rw [word, BitVec.toNat_add, BitVec.toNat_mul, BitVec.toNat_ofNat, hfour]
  omega

theorem word_zero : lay.word 0 = lay.bss := by simp [word]

theorem word_succ (i : Nat) : lay.word i + 4 = lay.word (i + 1) := by
  have hsucc : BitVec.ofNat 64 (i + 1) = BitVec.ofNat 64 i + 1 := BitVec.ofNat_add ..
  have hone : (4 : Word) * 1 = 4 := rfl
  rw [word, word, hsucc, BitVec.mul_add, hone, BitVec.add_assoc]

theorem word_eq_ebss_iff {i : Nat} (hi : i ≤ lay.words) : lay.word i = lay.ebss ↔ i = lay.words := by
  rw [← BitVec.toNat_inj, toNat_word hi, lay.ebss_eq]
  omega

theorem word_inj {i j : Nat} (hi : i ≤ lay.words) (hj : j ≤ lay.words)
    (he : lay.word i = lay.word j) : i = j := by
  have hnat := congrArg BitVec.toNat he
  rw [toNat_word hi, toNat_word hj] at hnat
  omega

theorem msip_ne_word {h i : Nat} (hh : h ≤ 4095) (hi : i ≤ lay.words) : msip h ≠ lay.word i := by
  intro he
  have hnat := congrArg BitVec.toNat he
  have horigin := lay.origin_le
  rw [toNat_msip hh, toNat_word hi] at hnat
  omega

theorem hart_le (h : Fin lay.nCores) : h.val ≤ 4095 := h.isLt.le.trans lay.nCores_le

theorem minHartid_lt (lay : Layout cfg) : cfg.minHartid < lay.nCores :=
  cfg.hartid_le.trans_lt lay.maxHartid_lt

/-- The hart that initializes. -/
def first (lay : Layout cfg) : Fin lay.nCores := ⟨cfg.minHartid, lay.minHartid_lt⟩

end Layout

/-! ## Before the interrupts and after -/

/-- The hart waits for its software interrupt, or has had it. -/
def Ctl.Waits (c : Ctl) : Prop := c = .start ∨ c = .wait ∨ c = .disable ∨ c = .schedStart

/-- The hart is one that runs processes. -/
def Usable (cfg : Config) (h : Nat) : Prop := cfg.minHartid ≤ h ∧ h ≤ cfg.maxHartid

section

variable {s s' : State lay.nCores} {h k : Fin lay.nCores} {c : Ctl} {a : Word} {v : BitVec 32}

/-- Nobody's interrupt is set, and nobody has gone on. -/
structure Quiet (s : State lay.nCores) : Prop where
  msip : ∀ h : Fin lay.nCores, s.mem (msip h) = 0
  others : ∀ h, h ≠ lay.first → s.ctl h = .start ∨ s.ctl h = .wait

/-- The kernel is set up, and whoever has or had an interrupt is to run processes. -/
structure Ready (s : State lay.nCores) : Prop where
  kernel : ∃ k, s.kernel = some k ∧ boot cfg rootPayload = .ok k
  others : ∀ h, h ≠ lay.first → (s.ctl h).Waits
  usable : ∀ h : Fin lay.nCores, s.pending h = true ∨ s.ctl h = .disable ∨ s.ctl h = .schedStart →
    Usable cfg h

/-- The words of the static memory up to `m` have been cleared. -/
def Cleared (s : State lay.nCores) (m : Nat) : Prop := ∀ i < m, s.mem (lay.word i) = 0

/-- The harts below `m` that are to run processes have their interrupt or have had it. -/
def Woken (s : State lay.nCores) (m : Nat) : Prop :=
  ∀ h : Fin lay.nCores, cfg.minHartid ≤ h.val → h.val < m →
    s.ctl h = .schedStart ∨ s.pending h = true

/-- What has been done when the first hart is somewhere before `wake`. -/
def Before (s : State lay.nCores) : Ctl → Prop
  | .start => True
  | .clearTest t0 => ∃ i ≤ lay.words, t0 = lay.word i ∧ Cleared lay s i
  | .clear t0 => ∃ i < lay.words, t0 = lay.word i ∧ Cleared lay s i
  | .procInit => Cleared lay s lay.words
  | .schedInit => ∃ k, s.kernel = some k ∧ (procInit cfg rootPayload).run .zero = .ok ((), k)
  | .hung => ∀ k, boot cfg rootPayload ≠ .ok k
  | _ => False

/-- What the first hart has done when it is somewhere from `wake` on. -/
def After (s : State lay.nCores) : Ctl → Prop
  | .wake t0 => ∃ m, Usable cfg m ∧ t0 = msip m ∧ Woken lay s m
  | .wakeTest t0 => ∃ m, Usable cfg m ∧ t0 = msip (m + 1) ∧ Woken lay s (m + 1)
  | .wait | .disable | .schedStart => Woken lay s (cfg.maxHartid + 1)
  | _ => False

/-- The first hart is still at work and the others wait, or it has woken them and the kernel is
    ready. -/
inductive Good (s : State lay.nCores) : Prop where
  | before (hquiet : Quiet lay s) (hfirst : Before lay rootPayload s (s.ctl lay.first))
  | after (hready : Ready lay rootPayload s) (hfirst : After lay s (s.ctl lay.first))

variable {lay rootPayload}

@[simp] theorem ctl_goes_same : (s.goes h c).ctl h = c := Function.update_self _ _ _

theorem ctl_goes_of_ne (hk : k ≠ h) : (s.goes h c).ctl k = s.ctl k := Function.update_of_ne hk _ _

theorem ctl_calls_ok {x : Unit × Kernel} : (s.calls h (.ok x) c).ctl h = c := ctl_goes_same

theorem ctl_calls_error {e : Halt} : (s.calls h (.error e) c).ctl h = .hung := ctl_goes_same

@[simp] theorem mem_goes : (s.goes h c).mem = s.mem := rfl
@[simp] theorem kernel_goes : (s.goes h c).kernel = s.kernel := rfl
@[simp] theorem pending_goes : (s.goes h c).pending k = s.pending k := rfl
@[simp] theorem ctl_store : (s.store a v).ctl = s.ctl := rfl
@[simp] theorem kernel_store : (s.store a v).kernel = s.kernel := rfl
@[simp] theorem mem_store_same : (s.store a v).mem a = v := Function.update_self _ _ _

theorem mem_store_of_ne {b : Word} (hb : b ≠ a) : (s.store a v).mem b = s.mem b :=
  Function.update_of_ne hb _ _

theorem pending_store_of_ne (ha : msip k ≠ a) : (s.store a v).pending k = s.pending k := by
  rw [State.pending, State.pending, mem_store_of_ne ha]

theorem pending_store_same : (s.store (msip h) v).pending h = v.getLsbD 0 := by
  rw [State.pending, mem_store_same]

theorem msip_ne (hk : k ≠ h) : msip k ≠ msip h := fun he =>
  hk (Fin.ext (msip_inj (Layout.hart_le k) (Layout.hart_le h) he))

theorem Quiet.not_pending (hq : Quiet lay s) (h : Fin lay.nCores) : s.pending h = false := by
  rw [State.pending, hq.msip h]
  rfl

theorem usable_first (lay : Layout cfg) : Usable cfg lay.first := ⟨le_refl _, cfg.hartid_le⟩

theorem good_of_reset (hs : Reset lay s) : Good lay rootPayload s := by
  refine .before ⟨hs.2.1, fun h _ => Or.inl (hs.1 h)⟩ ?_
  rw [hs.1]
  trivial

/-! ## A hart that waits -/

theorem Woken.goes {m : Nat} (hw : Woken lay s m) (hc : s.ctl h ≠ .schedStart) :
    Woken lay (s.goes h c) m := by
  intro k hlo hhi
  refine (hw k hlo hhi).imp_left fun hk => ?_
  have hne : k ≠ h := by
    rintro rfl
    exact hc hk
  rw [ctl_goes_of_ne hne]
  exact hk

/-- The last store of a hart: it does not need the interrupt any more. -/
theorem Woken.disable {m : Nat} (hw : Woken lay s m) :
    Woken lay ((s.store (msip h) 0).goes h .schedStart) m := by
  intro k hlo hhi
  by_cases hk : k = h
  · exact Or.inl (hk ▸ ctl_goes_same)
  · rw [ctl_goes_of_ne hk, pending_goes, pending_store_of_ne (msip_ne hk)]
    exact hw k hlo hhi

theorem After.congr (hc : After lay s c) (hw : ∀ m, Woken lay s m → Woken lay s' m) :
    After lay s' c := by
  cases c with
  | wake t0 =>
    obtain ⟨m, hm, ht0, hwoken⟩ := hc
    exact ⟨m, hm, ht0, hw m hwoken⟩
  | wakeTest t0 =>
    obtain ⟨m, hm, ht0, hwoken⟩ := hc
    exact ⟨m, hm, ht0, hw _ hwoken⟩
  | wait => exact hw _ hc
  | disable => exact hw _ hc
  | schedStart => exact hw _ hc
  | _ => exact hc.elim

/-- What a hart does that waits. -/
theorem waits_cases (hc : (s.ctl h).Waits) (hne : s.ctl h ≠ .start ∨ h ≠ lay.first)
    (hl : Step lay rootPayload s h s') :
    (s.ctl h = .start ∧ s' = s.goes h .wait) ∨
    (s.ctl h = .wait ∧ s.pending h = false ∧ s' = s.goes h .wait) ∨
    (s.ctl h = .wait ∧ s.pending h = true ∧ s' = s.goes h .disable) ∨
    (s.ctl h = .disable ∧ s' = (s.store (msip h) 0).goes h .schedStart) := by
  rcases hc with hc | hc | hc | hc
  all_goals
    rw [Step, step, hc] at hl
    dsimp only at hl
  · have hid : h.val ≠ cfg.minHartid := fun e => hne.elim (absurd hc) fun hne => hne (Fin.ext e)
    rw [if_neg hid] at hl
    exact Or.inl ⟨hc, (Option.some.inj hl).symm⟩
  · cases hp : s.pending h with
    | false =>
      rw [hp] at hl
      exact Or.inr (Or.inl ⟨hc, rfl, (Option.some.inj hl).symm⟩)
    | true =>
      rw [hp] at hl
      exact Or.inr (Or.inr (Or.inl ⟨hc, rfl, (Option.some.inj hl).symm⟩))
  · exact Or.inr (Or.inr (Or.inr ⟨hc, (Option.some.inj hl).symm⟩))
  · cases hl

/-- From `wait` on. -/
def Ctl.Passed (c : Ctl) : Prop := c = .wait ∨ c = .disable ∨ c = .schedStart

theorem Ready.goes (hr : Ready lay rootPayload s) (hc : c.Passed) (hstart : c ≠ .schedStart)
    (hp : c = .disable → s.pending h = true) : Ready lay rootPayload (s.goes h c) := by
  refine ⟨hr.kernel, fun k hk => ?_, fun k hk => ?_⟩
  · by_cases hkh : k = h
    · rw [hkh, ctl_goes_same]
      exact Or.inr hc
    · rw [ctl_goes_of_ne hkh]
      exact hr.others k hk
  · by_cases hkh : k = h
    · subst hkh
      rw [ctl_goes_same, pending_goes] at hk
      rcases hk with hk | hk | hk
      · exact hr.usable k (Or.inl hk)
      · exact hr.usable k (Or.inl (hp hk))
      · exact absurd hk hstart
    · rw [ctl_goes_of_ne hkh, pending_goes] at hk
      exact hr.usable k hk

theorem Ready.disable (hr : Ready lay rootPayload s) (hc : s.ctl h = .disable) :
    Ready lay rootPayload ((s.store (msip h) 0).goes h .schedStart) := by
  refine ⟨hr.kernel, fun k hk => ?_, fun k hk => ?_⟩
  · by_cases hkh : k = h
    · rw [hkh, ctl_goes_same]
      exact Or.inr (Or.inr (Or.inr rfl))
    · rw [ctl_goes_of_ne hkh]
      exact hr.others k hk
  · by_cases hkh : k = h
    · exact hkh ▸ hr.usable h (Or.inr (Or.inl hc))
    · rw [ctl_goes_of_ne hkh, pending_goes, pending_store_of_ne (msip_ne hkh)] at hk
      exact hr.usable k hk

/-- Once the kernel is set up, a hart that waits keeps it so. -/
theorem Ready.waits (hr : Ready lay rootPayload s) (hc : (s.ctl h).Waits)
    (hne : s.ctl h ≠ .start ∨ h ≠ lay.first) (hl : Step lay rootPayload s h s') :
    Ready lay rootPayload s' ∧ (s'.ctl h).Passed ∧
      (∀ k, k ≠ h → s'.ctl k = s.ctl k) ∧ ∀ m, Woken lay s m → Woken lay s' m := by
  have hgoes : ∀ c, Ctl.Passed c → c ≠ .schedStart → (c = .disable → s.pending h = true) →
      s.ctl h ≠ .schedStart → Ready lay rootPayload (s.goes h c) ∧ ((s.goes h c).ctl h).Passed ∧
        (∀ k, k ≠ h → (s.goes h c).ctl k = s.ctl k) ∧
          ∀ m, Woken lay s m → Woken lay (s.goes h c) m := by
    intro c hpassed hstart hp hcur
    refine ⟨hr.goes hpassed hstart hp, ?_, fun k hk => ctl_goes_of_ne hk, fun m hw => hw.goes hcur⟩
    rw [ctl_goes_same]
    exact hpassed
  rcases waits_cases hc hne hl with ⟨hc, rfl⟩ | ⟨hc, hp, rfl⟩ | ⟨hc, hp, rfl⟩ | ⟨hc, rfl⟩
  · exact hgoes .wait (Or.inl rfl) nofun nofun (by rw [hc]; nofun)
  · exact hgoes .wait (Or.inl rfl) nofun nofun (by rw [hc]; nofun)
  · exact hgoes .disable (Or.inr (Or.inl rfl)) nofun (fun _ => hp) (by rw [hc]; nofun)
  · refine ⟨hr.disable hc, ?_, fun k hk => ctl_goes_of_ne hk, fun m hw => hw.disable⟩
    rw [ctl_goes_same]
    exact Or.inr (Or.inr rfl)

/-- A hart that is not the first. -/
theorem Good.step_other (hg : Good lay rootPayload s) (hne : h ≠ lay.first)
    (hl : Step lay rootPayload s h s') : Good lay rootPayload s' := by
  cases hg with
  | before hquiet hfirst =>
    have hp := hquiet.not_pending h
    have hwait : s' = s.goes h .wait := by
      have hc : (s.ctl h).Waits := (hquiet.others h hne).imp_right Or.inl
      rcases waits_cases hc (Or.inr hne) hl with ⟨-, hs'⟩ | ⟨-, -, hs'⟩ | ⟨-, hp', -⟩ | ⟨hc, -⟩
      · exact hs'
      · exact hs'
      · rw [hp] at hp'
        cases hp'
      · rcases hquiet.others h hne with hc' | hc' <;> rw [hc] at hc' <;> cases hc'
    subst hwait
    refine .before ⟨hquiet.msip, fun k hk => ?_⟩ ?_
    · by_cases hkh : k = h
      · exact Or.inr (hkh ▸ ctl_goes_same)
      · rw [ctl_goes_of_ne hkh]
        exact hquiet.others k hk
    · rw [ctl_goes_of_ne hne.symm]
      cases hc : s.ctl lay.first <;> rw [hc] at hfirst <;> exact hfirst
  | after hready hfirst =>
    obtain ⟨hready', -, hctl, hwoken⟩ := hready.waits (hready.others h hne) (Or.inr hne) hl
    refine .after hready' ?_
    rw [hctl _ hne.symm]
    exact hfirst.congr hwoken

/-! ## The first hart -/

theorem Quiet.goes_first (hq : Quiet lay s) : Quiet lay (s.goes lay.first c) :=
  ⟨hq.msip, fun k hk => by
    rw [ctl_goes_of_ne hk]
    exact hq.others k hk⟩

theorem Quiet.store_word {i : Nat} (hq : Quiet lay s) (hi : i ≤ lay.words) :
    Quiet lay (s.store (lay.word i) v) :=
  ⟨fun k => by
    rw [mem_store_of_ne (Layout.msip_ne_word (Layout.hart_le k) hi)]
    exact hq.msip k, hq.others⟩

theorem Cleared.store {i : Nat} (hcl : Cleared lay s i) (hi : i < lay.words) :
    Cleared lay (s.store (lay.word i) 0) (i + 1) := by
  intro j hj
  by_cases he : j = i
  · subst he
    exact mem_store_same
  · rw [mem_store_of_ne fun hw => he (Layout.word_inj (by omega) hi.le hw)]
    exact hcl j (by omega)

/-- The store that wakes the hart `m`. -/
theorem Woken.wake {m : Nat} (hw : Woken lay s m) (hm : Usable cfg m) :
    Woken lay (s.store (msip m) 1) (m + 1) := by
  intro k hlo hhi
  by_cases hk : k.val = m
  · subst hk
    exact Or.inr (pending_store_same)
  · have hmle : m ≤ 4095 := hm.2.trans (lay.maxHartid_lt.le.trans lay.nCores_le)
    rw [pending_store_of_ne fun he => hk (msip_inj (Layout.hart_le k) hmle he)]
    exact hw k hlo (by omega)

theorem Ready.wake {m : Nat} (hr : Ready lay rootPayload s) (hm : Usable cfg m) :
    Ready lay rootPayload (s.store (msip m) 1) := by
  refine ⟨hr.kernel, hr.others, fun k hk => ?_⟩
  by_cases hkm : k.val = m
  · exact hkm ▸ hm
  · have hmle : m ≤ 4095 := hm.2.trans (lay.maxHartid_lt.le.trans lay.nCores_le)
    rw [pending_store_of_ne fun he => hkm (msip_inj (Layout.hart_le k) hmle he)] at hk
    exact hr.usable k hk

/-- The first hart, where it does not wait. -/
theorem Ready.goes_first (hr : Ready lay rootPayload s) :
    Ready lay rootPayload (s.goes lay.first c) := by
  refine ⟨hr.kernel, fun k hk => ?_, fun k hk => ?_⟩
  · rw [ctl_goes_of_ne hk]
    exact hr.others k hk
  · by_cases hkf : k = lay.first
    · exact hkf ▸ usable_first lay
    · rw [ctl_goes_of_ne hkf, pending_goes] at hk
      exact hr.usable k hk

theorem boot_of_procInit {k : Kernel} (hproc : (procInit cfg rootPayload).run .zero = .ok ((), k)) :
    boot cfg rootPayload = ((schedInit cfg).run k).map Prod.snd := by
  have hrun : (do procInit cfg rootPayload; schedInit cfg : KernelM Unit).run .zero =
      (schedInit cfg).run k := run_bind_ok hproc _
  rw [boot, hrun]
  rfl

theorem boot_of_error {e : Halt} (hproc : (procInit cfg rootPayload).run .zero = .error e) :
    boot cfg rootPayload = .error e := by
  have hrun : (do procInit cfg rootPayload; schedInit cfg : KernelM Unit).run .zero = .error e := by
    exact run_bind_error hproc _
  rw [boot, hrun]
  rfl

/-- The first hart, when all have been woken. -/
theorem Ready.step_passed (hr : Ready lay rootPayload s) (hc : (s.ctl lay.first).Passed)
    (hfirst : After lay s (s.ctl lay.first)) (hl : Step lay rootPayload s lay.first s') :
    Good lay rootPayload s' := by
  have hwoken : Woken lay s (cfg.maxHartid + 1) := by
    rcases hc with hc | hc | hc
    all_goals
      rw [hc] at hfirst
      exact hfirst
  have hstart : s.ctl lay.first ≠ .start := fun he => by
    rcases hc with hc | hc | hc <;> cases he.symm.trans hc
  obtain ⟨hr', hpassed, -, hw⟩ := hr.waits (Or.inr hc) (Or.inl hstart) hl
  refine .after hr' ?_
  rcases hpassed with hc' | hc' | hc'
  all_goals
    rw [hc']
    exact hw _ hwoken

theorem Good.step_first (hg : Good lay rootPayload s)
    (hl : Step lay rootPayload s lay.first s') : Good lay rootPayload s' := by
  cases hg with
  | before hq hfirst =>
    rw [Step, step] at hl
    cases hc : s.ctl lay.first with
    | start =>
      rw [hc] at hl hfirst
      obtain rfl := Option.some.inj hl
      refine .before hq.goes_first ?_
      rw [ctl_goes_same, if_pos (show lay.first.val = cfg.minHartid from rfl)]
      exact ⟨0, Nat.zero_le _, Layout.word_zero.symm, fun i hi => absurd hi (Nat.not_lt_zero i)⟩
    | clearTest t0 =>
      rw [hc] at hl hfirst
      obtain rfl := Option.some.inj hl
      obtain ⟨i, hi, rfl, hcl⟩ := hfirst
      refine .before hq.goes_first ?_
      rw [ctl_goes_same]
      by_cases hend : i = lay.words
      · rw [if_neg (not_not.mpr ((Layout.word_eq_ebss_iff hi).mpr hend))]
        subst hend
        exact hcl
      · rw [if_pos (fun he => hend ((Layout.word_eq_ebss_iff hi).mp he))]
        exact ⟨i, by omega, rfl, hcl⟩
    | clear t0 =>
      rw [hc] at hl hfirst
      obtain rfl := Option.some.inj hl
      obtain ⟨i, hi, rfl, hcl⟩ := hfirst
      refine .before (hq.store_word hi.le).goes_first ?_
      rw [ctl_goes_same]
      exact ⟨i + 1, hi, Layout.word_succ i, hcl.store hi⟩
    | procInit =>
      rw [hc] at hl hfirst
      obtain rfl := Option.some.inj hl
      have hzero : lay.read s.mem = .zero := lay.read_zero s.mem hfirst
      rw [hzero]
      generalize hproc : (procInit cfg rootPayload).run .zero = run
      cases run with
      | ok x =>
        refine .before ⟨hq.msip, hq.goes_first.others⟩ ?_
        rw [ctl_calls_ok]
        exact ⟨x.2, rfl, hproc⟩
      | error e =>
        have hne : ∀ k, boot cfg rootPayload ≠ .ok k := fun k hk => by
          rw [boot_of_error hproc] at hk
          cases hk
        refine .before hq.goes_first ?_
        rw [ctl_calls_error]
        exact hne
    | schedInit =>
      rw [hc] at hl hfirst
      obtain ⟨k, hk, hproc⟩ := hfirst
      have hboot := boot_of_procInit hproc
      rw [hk] at hl
      have hs : s' = s.calls lay.first ((schedInit cfg).run k) (.wake (msip cfg.minHartid)) :=
        (Option.some.inj hl).symm
      subst hs
      cases hsched : (schedInit cfg).run k with
      | ok x =>
        rw [hsched] at hboot
        refine .after ⟨⟨x.2, rfl, hboot⟩, fun h hh => ?_, fun h hh => ?_⟩ ?_
        · have hwait := (hq.goes_first (c := .wake (msip cfg.minHartid))).others h hh
          exact hwait.imp_right Or.inl
        · by_cases hf : h = lay.first
          · exact hf ▸ usable_first lay
          · rcases hh with hh | hh
            · exact absurd ((hq.not_pending h).symm.trans hh) Bool.false_ne_true
            · rcases (hq.goes_first (c := .wake (msip cfg.minHartid))).others h hf with hw | hw
              all_goals
                rcases hh with hh | hh <;> cases hw.symm.trans hh
        · rw [ctl_calls_ok]
          exact ⟨cfg.minHartid, usable_first lay, rfl, fun h hlo hhi => absurd hlo (by omega)⟩
      | error e =>
        rw [hsched] at hboot
        have hne : ∀ k, boot cfg rootPayload ≠ .ok k := fun k hk => by
          rw [hboot] at hk
          cases hk
        refine .before hq.goes_first ?_
        rw [ctl_calls_error]
        exact hne
    | hung =>
      rw [hc] at hl
      cases hl
    | _ =>
      rw [hc] at hfirst
      exact hfirst.elim
  | after hr hfirst =>
    have hmax : cfg.maxHartid ≤ 4095 := lay.maxHartid_lt.le.trans lay.nCores_le
    cases hc : s.ctl lay.first with
    | wake t0 =>
      rw [Step, step, hc] at hl
      rw [hc] at hfirst
      obtain rfl := Option.some.inj hl
      obtain ⟨m, hm, rfl, hw⟩ := hfirst
      refine .after (hr.wake hm).goes_first ?_
      rw [ctl_goes_same]
      refine ⟨m, hm, msip_succ ?_, (hw.wake hm).goes ?_⟩
      · exact (Nat.succ_le_succ hm.2).trans (lay.maxHartid_lt.trans_le lay.nCores_le)
      · rw [ctl_store, hc]
        nofun
    | wakeTest t0 =>
      rw [Step, step, hc] at hl
      rw [hc] at hfirst
      obtain rfl := Option.some.inj hl
      obtain ⟨m, hm, rfl, hw⟩ := hfirst
      have hw' : ∀ c, Woken lay (s.goes lay.first c) (m + 1) := fun c =>
        hw.goes (by rw [hc]; nofun)
      have hle : m + 1 ≤ 4095 :=
        (Nat.succ_le_succ hm.2).trans (lay.maxHartid_lt.trans_le lay.nCores_le)
      refine .after hr.goes_first ?_
      rw [ctl_goes_same]
      by_cases hmore : m + 1 ≤ cfg.maxHartid
      · rw [if_pos ((msip_le_iff hle hmax).mpr hmore)]
        exact ⟨m + 1, ⟨hm.1.trans (Nat.le_succ m), hmore⟩, rfl, hw' _⟩
      · -- all harts have been woken
        rw [if_neg fun h => hmore ((msip_le_iff hle hmax).mp h)]
        have hlast : m = cfg.maxHartid := by
          have := hm.2
          omega
        subst hlast
        exact hw' _
    | wait => exact hr.step_passed (Or.inl hc) hfirst hl
    | disable => exact hr.step_passed (Or.inr (Or.inl hc)) hfirst hl
    | schedStart => exact hr.step_passed (Or.inr (Or.inr hc)) hfirst hl
    | _ =>
      rw [hc] at hfirst
      exact hfirst.elim

theorem Good.step (hg : Good lay rootPayload s) (hl : Step lay rootPayload s h s') :
    Good lay rootPayload s' := by
  by_cases hh : h = lay.first
  · subst hh
    exact hg.step_first hl
  · exact hg.step_other hh hl

theorem good_of_reachable (hr : Reachable (Reset lay) (Step lay rootPayload) s) :
    Good lay rootPayload s :=
  hr.invariant (fun _ hs => good_of_reset hs) fun _ _ _ hg hl => hg.step hl

/-! ## Every run -/

/-- Not yet at `wake`. -/
def Ctl.Initializes : Ctl → Prop
  | .start | .clearTest _ | .clear _ | .procInit | .schedInit | .hung => True
  | _ => False

theorem After.not_initializes (hc : After lay s c) : ¬ c.Initializes := by
  cases c with
  | wake t0 => exact not_false
  | wakeTest t0 => exact not_false
  | wait => exact not_false
  | disable => exact not_false
  | schedStart => exact not_false
  | _ => exact hc.elim

/-- In every run, from any content of the memory: a hart that comes to `sched_start` is one of
    those that run processes, the first hart has initialized, and the kernel is as `boot` makes
    it. -/
theorem starts_booted (hr : Reachable (Reset lay) (Step lay rootPayload) s)
    (hs : s.ctl h = .schedStart) : Usable cfg h ∧ ¬ (s.ctl lay.first).Initializes ∧
      ∃ k, s.kernel = some k ∧ Booted cfg (.start k) := by
  cases good_of_reachable hr with
  | before hquiet hfirst =>
    by_cases hh : h = lay.first
    · subst hh
      rw [hs] at hfirst
      exact hfirst.elim
    · rcases hquiet.others h hh with hc | hc <;> cases hc.symm.trans hs
  | after hready hfirst =>
    obtain ⟨k, hk, hboot⟩ := hready.kernel
    exact ⟨hready.usable h (Or.inr (Or.inr hs)), hfirst.not_initializes, k, hk,
      rootPayload, k, hboot, rfl⟩

/-! ## No interrupt is lost -/

variable (lay) in
/-- How far a hart still is from `sched_start`. -/
def Ctl.left : Ctl → Nat
  | .schedStart | .hung => 0
  | .disable => 1
  | .wait => 2
  | .wakeTest t0 => 5 + 2 * ((msip (cfg.maxHartid + 1)).toNat - t0.toNat)
  | .wake t0 => 4 + 2 * ((msip (cfg.maxHartid + 1)).toNat - t0.toNat)
  | .schedInit => 8 * (cfg.maxHartid + 2)
  | .procInit => 8 * (cfg.maxHartid + 2) + 1
  | .clear t0 => 8 * (cfg.maxHartid + 2) + 1 + (lay.ebss.toNat - t0.toNat)
  | .clearTest t0 => 8 * (cfg.maxHartid + 2) + 2 + (lay.ebss.toNat - t0.toNat)
  | .start => 8 * (cfg.maxHartid + 2) + 3 + (lay.ebss.toNat - lay.bss.toNat)

/-- A step that takes its hart nearer. -/
def Nearer (rootPayload : Word) (s : State lay.nCores) : Prop :=
  ∃ h s', Step lay rootPayload s h s' ∧ (s'.ctl h).left lay < (s.ctl h).left lay ∧
    ∀ k, k ≠ h → s'.ctl k = s.ctl k

theorem nearer_goes (hl : Step lay rootPayload s h (s.goes h c))
    (hlt : c.left lay < (s.ctl h).left lay) : Nearer rootPayload s :=
  ⟨h, _, hl, ctl_goes_same (s := s) ▸ hlt, fun _ hk => ctl_goes_of_ne hk⟩

theorem nearer_store (hl : Step lay rootPayload s h ((s.store a v).goes h c))
    (hlt : c.left lay < (s.ctl h).left lay) : Nearer rootPayload s :=
  ⟨h, _, hl, ctl_goes_same (s := s.store a v) ▸ hlt, fun _ hk => ctl_goes_of_ne hk⟩

theorem nearer_calls {x : Unit × Kernel} (hl : Step lay rootPayload s h (s.calls h (.ok x) c))
    (hlt : c.left lay < (s.ctl h).left lay) : Nearer rootPayload s :=
  ⟨h, _, hl, ctl_calls_ok (s := s) (x := x) ▸ hlt, fun _ hk => ctl_goes_of_ne hk⟩

theorem nearer_of_before (hfirst : Before lay rootPayload s (s.ctl lay.first)) {k : Kernel}
    (hboot : boot cfg rootPayload = .ok k) : Nearer rootPayload s := by
  have hebss := lay.ebss_eq
  cases hc : s.ctl lay.first with
  | start =>
    refine nearer_goes (h := lay.first) (c := .clearTest lay.bss) ?_ ?_
    · rw [Step, step, hc]
      exact congrArg some (congrArg _ (if_pos rfl))
    · rw [hc, Ctl.left, Ctl.left]
      omega
  | clearTest t0 =>
    rw [hc] at hfirst
    obtain ⟨i, hi, rfl, -⟩ := hfirst
    by_cases hend : lay.word i = lay.ebss
    · refine nearer_goes (h := lay.first) (c := .procInit) ?_ ?_
      · rw [Step, step, hc]
        exact congrArg some (congrArg _ (if_neg (not_not.mpr hend)))
      · rw [hc, Ctl.left, Ctl.left]
        omega
    · refine nearer_goes (h := lay.first) (c := .clear (lay.word i)) ?_ ?_
      · rw [Step, step, hc]
        exact congrArg some (congrArg _ (if_pos hend))
      · rw [hc, Ctl.left, Ctl.left]
        omega
  | clear t0 =>
    rw [hc] at hfirst
    obtain ⟨i, hi, rfl, -⟩ := hfirst
    refine nearer_store (h := lay.first) (a := lay.word i) (v := 0)
      (c := .clearTest (lay.word i + 4)) ?_ ?_
    · rw [Step, step, hc]
    · rw [hc, Ctl.left, Ctl.left, Layout.word_succ, Layout.toNat_word hi.le, Layout.toNat_word hi]
      omega
  | procInit =>
    rw [hc] at hfirst
    generalize hproc : (procInit cfg rootPayload).run .zero = run
    cases run with
    | error e =>
      rw [boot_of_error hproc] at hboot
      cases hboot
    | ok x =>
      refine nearer_calls (h := lay.first) (x := x) (c := .schedInit) ?_ ?_
      · rw [Step, step, hc]
        dsimp only
        rw [lay.read_zero s.mem hfirst, hproc]
      · rw [hc, Ctl.left, Ctl.left]
        omega
  | schedInit =>
    rw [hc] at hfirst
    obtain ⟨k', hk, hproc⟩ := hfirst
    have hsched := boot_of_procInit hproc
    rw [hboot] at hsched
    generalize hrun : (schedInit cfg).run k' = run at hsched
    cases run with
    | error e => cases hsched
    | ok x =>
      refine nearer_calls (h := lay.first) (x := x) (c := .wake (msip cfg.minHartid)) ?_ ?_
      · rw [Step, step, hc]
        dsimp only
        rw [hk, Option.map_some, hrun]
      · have hmin : cfg.minHartid ≤ 4095 := Layout.hart_le lay.first
        have hmax : cfg.maxHartid + 1 ≤ 4095 := lay.maxHartid_lt.trans_le lay.nCores_le
        rw [hc, Ctl.left, Ctl.left, toNat_msip hmax, toNat_msip hmin]
        omega
  | hung =>
    rw [hc] at hfirst
    exact absurd hboot (hfirst k)
  | _ =>
    rw [hc] at hfirst
    exact hfirst.elim

theorem nearer_of_after (hr : Ready lay rootPayload s) (hfirst : After lay s (s.ctl lay.first))
    (husable : Usable cfg h) (hs : s.ctl h ≠ .schedStart) : Nearer rootPayload s := by
  have hmax : cfg.maxHartid + 1 ≤ 4095 := lay.maxHartid_lt.trans_le lay.nCores_le
  by_cases hpassed : (s.ctl lay.first).Passed
  · -- all have been woken
    have hwoken : Woken lay s (cfg.maxHartid + 1) := by
      rcases hpassed with hc | hc | hc
      all_goals
        rw [hc] at hfirst
        exact hfirst
    have hwaits : (s.ctl h).Waits ∧ (s.ctl h ≠ .start ∨ h ≠ lay.first) := by
      by_cases hh : h = lay.first
      · rw [hh]
        refine ⟨Or.inr hpassed, Or.inl fun he => ?_⟩
        rcases hpassed with hc | hc | hc <;> cases he.symm.trans hc
      · exact ⟨hr.others h hh, Or.inr hh⟩
    obtain ⟨hc | hc | hc | hc, hne⟩ := hwaits
    · have hid : h.val ≠ cfg.minHartid := fun e =>
        hne.elim (absurd hc) fun hne => hne (Fin.ext e)
      refine nearer_goes (h := h) (c := .wait) ?_ ?_
      · rw [Step, step, hc]
        exact congrArg some (congrArg _ (if_neg hid))
      · rw [hc, Ctl.left, Ctl.left]
        omega
    · have hp := (hwoken h husable.1 (Nat.lt_succ_of_le husable.2)).resolve_left hs
      refine nearer_goes (h := h) (c := .disable) ?_ ?_
      · rw [Step, step, hc]
        exact congrArg some (congrArg _ (if_pos hp))
      · rw [hc, Ctl.left, Ctl.left]
        omega
    · refine nearer_store (h := h) (a := msip h) (v := 0) (c := .schedStart) ?_ ?_
      · rw [Step, step, hc]
      · rw [hc, Ctl.left, Ctl.left]
        omega
    · exact absurd hc hs
  · cases hc : s.ctl lay.first with
    | wake t0 =>
      rw [hc] at hfirst
      obtain ⟨m, hm, rfl, -⟩ := hfirst
      have hle : m + 1 ≤ 4095 := (Nat.succ_le_succ hm.2).trans hmax
      refine nearer_store (h := lay.first) (a := msip m) (v := 1) (c := .wakeTest (msip m + 4)) ?_ ?_
      · rw [Step, step, hc]
      · have hmle := hm.2
        rw [hc, Ctl.left, Ctl.left, msip_succ hle, toNat_msip hmax, toNat_msip hle,
          toNat_msip (by omega)]
        omega
    | wakeTest t0 =>
      rw [hc] at hfirst
      obtain ⟨m, hm, rfl, -⟩ := hfirst
      have hle : m + 1 ≤ 4095 := (Nat.succ_le_succ hm.2).trans hmax
      by_cases hmore : msip (m + 1) ≤ msip cfg.maxHartid
      · refine nearer_goes (h := lay.first) (c := .wake (msip (m + 1))) ?_ ?_
        · rw [Step, step, hc]
          exact congrArg some (congrArg _ (if_pos hmore))
        · rw [hc, Ctl.left, Ctl.left]
          omega
      · refine nearer_goes (h := lay.first) (c := .wait) ?_ ?_
        · rw [Step, step, hc]
          exact congrArg some (congrArg _ (if_neg hmore))
        · rw [hc, Ctl.left, Ctl.left]
          omega
    | wait => exact absurd (Or.inl hc) hpassed
    | disable => exact absurd (Or.inr (Or.inl hc)) hpassed
    | schedStart => exact absurd (Or.inr (Or.inr hc)) hpassed
    | _ =>
      rw [hc] at hfirst
      exact hfirst.elim

theorem Nearer.sum (hn : Nearer rootPayload s) : ∃ h s', Step lay rootPayload s h s' ∧
    ∑ k, (s'.ctl k).left lay < ∑ k, (s.ctl k).left lay := by
  obtain ⟨h, s', hl, hlt, hsame⟩ := hn
  refine ⟨h, s', hl, Finset.sum_lt_sum (fun k _ => ?_) ⟨h, Finset.mem_univ h, hlt⟩⟩
  by_cases hk : k = h
  · exact hk ▸ hlt.le
  · rw [hsame k hk]

/-- From every state of every run, all the harts that run processes can still come to `sched_start`,
    if the C code sets the kernel up. -/
theorem all_start {k : Kernel} (hboot : boot cfg rootPayload = .ok k)
    (hr : Reachable (Reset lay) (Step lay rootPayload) s) :
    ∃ s', Steps (Step lay rootPayload) s s' ∧ ∀ h : Fin lay.nCores, Usable cfg h →
      s'.ctl h = .schedStart := by
  generalize hm : ∑ h, (s.ctl h).left lay = m
  induction m using Nat.strong_induction_on generalizing s with
  | _ m ih =>
    subst hm
    by_cases hall : ∀ h : Fin lay.nCores, Usable cfg h → s.ctl h = .schedStart
    · exact ⟨s, .refl s, hall⟩
    · push Not at hall
      obtain ⟨h, husable, hs⟩ := hall
      have hnearer : Nearer rootPayload s := by
        cases good_of_reachable hr with
        | before hquiet hfirst => exact nearer_of_before hfirst hboot
        | after hready hfirst => exact nearer_of_after hready hfirst husable hs
      obtain ⟨h', s', hl, hlt⟩ := hnearer.sum
      obtain ⟨s'', hsteps, hall'⟩ := ih _ hlt (hr.step hl) rfl
      exact ⟨s'', Steps.trans (Steps.snoc (.refl s) hl) hsteps, hall'⟩

end

/-! ## A run -/

/-- Two words of static memory, the first of which has the first entry of the schedule in it. -/
def virtLayout : Layout .virt where
  bss := 0x80001000
  ebss := 0x80001008
  words := 2
  ebss_eq := by decide
  origin_le := by decide
  nCores := 5
  maxHartid_lt := by decide
  nCores_le := by decide
  read mem := Kernel.zero.setSchedule 0 0 ((mem 0x80001000).setWidth 16)
  read_zero mem hmem := by
    have hword : mem 0x80001000 = 0 := hmem 0 (by decide)
    rw [hword]
    simp [Kernel.setSchedule, Kernel.zero]

/-- Nothing but the interrupts is cleared. -/
def virtReset : State virtLayout.nCores :=
  ⟨fun a => if a.toNat < 0x80000000 then 0 else 0xFFFFFFFF, none, fun _ => .start⟩

theorem virtReset_reset : Reset virtLayout virtReset := by
  refine ⟨fun _ => rfl, fun h => if_pos ?_, rfl⟩
  have hle := Layout.hart_le h
  rw [toNat_msip hle]
  omega

/-- Hart 2 waits before hart 1 begins, and starts while hart 1 is still waking the others. -/
def earlyStart : List (Fin virtLayout.nCores) :=
  let first : Fin virtLayout.nCores := ⟨1, by decide⟩
  let second : Fin virtLayout.nCores := ⟨2, by decide⟩
  [second, second] ++ List.replicate 12 first ++ [second, second]

theorem starts_booted_earlyStart :
    let s := (exec (step virtLayout 0x80002000) earlyStart virtReset).getD virtReset
    s.ctl virtLayout.first = .wake (msip 3) ∧ ∃ k, s.kernel = some k ∧ Booted .virt (.start k) :=
  ⟨by decide +kernel, (starts_booted (h := ⟨2, by decide⟩) ⟨virtReset, virtReset_reset,
    steps_getD_exec (fun _ _ _ h => h) _ _⟩ (by decide +kernel)).2.2⟩

theorem all_start_earlyStart :
    let s := (exec (step virtLayout 0x80002000) earlyStart virtReset).getD virtReset
    s.ctl ⟨3, by decide⟩ = .start ∧ ∃ s', Steps (Step virtLayout 0x80002000) s s' ∧
      s'.ctl ⟨3, by decide⟩ = .schedStart := by
  obtain ⟨k, hboot⟩ : ∃ k, boot .virt 0x80002000 = .ok k := by
    cases hrun : boot .virt 0x80002000 with
    | ok k => exact ⟨k, rfl⟩
    | error e =>
      have hok : (boot .virt 0x80002000).isOk = true := by decide +kernel
      rw [hrun] at hok
      cases hok
  obtain ⟨s', hsteps, hall⟩ := all_start hboot ⟨virtReset, virtReset_reset,
    steps_getD_exec (fun _ _ _ h => h) earlyStart _⟩
  exact ⟨by decide +kernel, s', hsteps, hall _ ⟨by decide, by decide⟩⟩

end Startup
end SepKernel
