import Mathlib.Data.Nat.ModEq
import Mathlib.Data.Set.Lattice
import Mathlib.Order.CompletePartialOrder
import SepKernel.Cap

/-!
# Kernel stacks

`src/stack.S` reserves `STACK_SIZE` bytes for every hart below the label `stack`, and `load_sp`
computes where the stack of a hart ends, at boot and at every trap. Stacks grow down, so the hart
with the lowest identifier should end at the label itself. `load_sp` takes the offset of that
identifier away from the label where it should add it, and all stacks lie lower than they should.
-/

namespace SepKernel

/-- What `load_sp` and `stack.S` are assembled with, and where the linker puts the label. -/
structure StackConfig where
  minHartid : Nat
  maxHartid : Nat
  logStackSize : Nat
  /-- The address of the label. -/
  stack : Word
  hartid_le : minHartid ≤ maxHartid
  /-- The reserved bytes come before the label. -/
  reserved_le : (maxHartid - minHartid + 1) * 2 ^ logStackSize ≤ stack.toNat

namespace StackConfig

variable (c : StackConfig)

/-- `STACK_SIZE`. -/
def stackSize : Nat := 2 ^ c.logStackSize

/-- `N_HARTS`. -/
def nHarts : Nat := c.maxHartid - c.minHartid + 1

/-- `load_sp`: `la sp,(stack - MIN_HARTID*STACK_SIZE)`, `csrr t1,mhartid`,
    `slli t1,t1,LOG_STACK_SIZE`, `sub sp,sp,t1`. -/
def loadSp (mhartid : Word) : Word :=
  c.stack - BitVec.ofNat 64 (c.minHartid * c.stackSize) - (mhartid <<< c.logStackSize)

/-- The `n` bytes below an address. -/
def bytesBelow (a : Word) (n : Nat) : Set Word := {x | ∃ i < n, x = a - BitVec.ofNat 64 (i + 1)}

/-- `.fill ((MAX_HARTID - MIN_HARTID + 1) * STACK_SIZE)`. -/
def reserved : Set Word := bytesBelow c.stack (c.nHarts * c.stackSize)

/-- `[sp_h - STACK_SIZE, sp_h)`. -/
def stackOf (h : Nat) : Set Word := bytesBelow (c.loadSp (BitVec.ofNat 64 h)) c.stackSize

/-- The harts that run the kernel. -/
def IsHart (h : Nat) : Prop := c.minHartid ≤ h ∧ h ≤ c.maxHartid

/-- Every hart has its stack inside the reserved bytes, and no two harts share a byte. -/
def StacksOk : Prop :=
  (∀ h, c.IsHart h → c.stackOf h ⊆ c.reserved) ∧
    ∀ h h', c.IsHart h → c.IsHart h' → h ≠ h' → Disjoint (c.stackOf h) (c.stackOf h')

variable {c} {h h' : Nat}

/-! ## Offsets from the label -/

/-- Two addresses below one are the same modulo the address space. -/
theorem below_inj {a : Word} {m n : Nat} :
    a - BitVec.ofNat 64 m = a - BitVec.ofNat 64 n ↔ m % 2 ^ 64 = n % 2 ^ 64 := by
  constructor
  · intro h
    have h' : BitVec.ofNat 64 m = BitVec.ofNat 64 n := by simpa using h
    simpa using congrArg BitVec.toNat h'
  · intro h
    rw [show BitVec.ofNat 64 m = BitVec.ofNat 64 n from BitVec.eq_of_toNat_eq (by simpa using h)]

/-- The stacks are so many stack sizes below the label. -/
theorem loadSp_eq (h : Nat) : c.loadSp (BitVec.ofNat 64 h) =
    c.stack - BitVec.ofNat 64 ((c.minHartid + h) * c.stackSize) := by
  have hshift : BitVec.ofNat 64 h <<< c.logStackSize = BitVec.ofNat 64 (h * c.stackSize) := by
    apply BitVec.eq_of_toNat_eq
    simp [BitVec.toNat_shiftLeft, Nat.shiftLeft_eq, stackSize]
  rw [loadSp, hshift, Nat.add_mul, BitVec.ofNat_add, BitVec.sub_sub]

/-- The bytes of a hart's stack, counted from the top. -/
theorem mem_stackOf {x : Word} : x ∈ c.stackOf h ↔ ∃ i < c.stackSize,
    x = c.stack - BitVec.ofNat 64 ((c.minHartid + h) * c.stackSize + i + 1) := by
  unfold stackOf bytesBelow
  simp only [loadSp_eq, BitVec.sub_sub, ← BitVec.ofNat_add, Set.mem_ofPred_eq, Nat.add_assoc]

/-- The address space is a number of stack sizes, more than there are harts. -/
theorem exists_slots (c : StackConfig) :
    ∃ m, 2 ^ 64 = m * c.stackSize ∧ c.nHarts < m ∧ 0 < c.stackSize := by
  have hpos : 0 < c.stackSize := Nat.two_pow_pos _
  have hfit : c.nHarts * c.stackSize < 2 ^ 64 := lt_of_le_of_lt c.reserved_le c.stack.isLt
  have hlog : c.logStackSize < 64 := by
    have hle : c.stackSize ≤ c.nHarts * c.stackSize :=
      Nat.le_mul_of_pos_left _ (Nat.succ_pos _)
    exact (Nat.pow_lt_pow_iff_right (by decide)).mp (hle.trans_lt hfit)
  have hm : 2 ^ 64 = 2 ^ (64 - c.logStackSize) * c.stackSize := by
    rw [stackSize, ← Nat.pow_add, Nat.sub_add_cancel hlog.le]
  refine ⟨_, hm, ?_, hpos⟩
  rw [hm] at hfit
  exact Nat.lt_of_mul_lt_mul_right hfit

/-- A stack is inside the reserved bytes when its slot is one of theirs. -/
theorem stackOf_subset_iff {m : Nat} (hm : 2 ^ 64 = m * c.stackSize) (hn : c.nHarts < m)
    (hpos : 0 < c.stackSize) :
    c.stackOf h ⊆ c.reserved ↔ (c.minHartid + h) % m < c.nHarts := by
  have hslot : (c.minHartid + h) * c.stackSize % 2 ^ 64 = (c.minHartid + h) % m * c.stackSize := by
    rw [hm, Nat.mul_mod_mul_right]
  have hlt : (c.minHartid + h) % m < m := Nat.mod_lt _ (by omega)
  generalize hr : (c.minHartid + h) % m = r at hslot hlt
  have hend : (r + 1) * c.stackSize ≤ 2 ^ 64 := hm ▸ Nat.mul_le_mul_right _ hlt
  have hfit : c.nHarts * c.stackSize < 2 ^ 64 := hm ▸ Nat.mul_lt_mul_of_pos_right hn hpos
  constructor
  · intro hsub
    -- the highest byte of the stack lies below the reserved ones when the slot does
    obtain ⟨j, hj, he⟩ := hsub (mem_stackOf.mpr ⟨0, hpos, rfl⟩)
    rw [below_inj, Nat.add_mod, Nat.add_zero, hslot] at he
    by_contra hge
    have hle : c.nHarts * c.stackSize ≤ r * c.stackSize :=
      Nat.mul_le_mul_right _ (Nat.le_of_not_lt hge)
    rw [Nat.add_mul] at hend
    omega
  · intro hr' x hx
    obtain ⟨i, hi, rfl⟩ := mem_stackOf.mp hx
    have hle : (r + 1) * c.stackSize ≤ c.nHarts * c.stackSize := Nat.mul_le_mul_right _ hr'
    rw [Nat.add_mul] at hle
    refine ⟨r * c.stackSize + i, by omega, ?_⟩
    rw [below_inj, Nat.add_assoc, Nat.add_mod, hslot]
    omega

/-! ## The two halves -/

/-- Whatever the configuration, no two harts share a byte. -/
theorem stackOf_disjoint (hh : c.IsHart h) (hh' : c.IsHart h') (hne : h ≠ h') :
    Disjoint (c.stackOf h) (c.stackOf h') := by
  obtain ⟨m, hm, hn, hpos⟩ := exists_slots c
  have hharts : c.nHarts = c.maxHartid - c.minHartid + 1 := rfl
  rw [Set.disjoint_left]
  intro x hx hx'
  obtain ⟨i, hi, rfl⟩ := mem_stackOf.mp hx
  obtain ⟨j, hj, he⟩ := mem_stackOf.mp hx'
  have hbyte : (c.minHartid + h) * c.stackSize + i ≡ (c.minHartid + h') * c.stackSize + j
      [MOD 2 ^ 64] := Nat.ModEq.add_right_cancel' 1 (below_inj.mp he)
  have hslot : c.minHartid + h ≡ c.minHartid + h' [MOD m] := by
    rw [hm, Nat.mul_comm m] at hbyte
    have hdiv : ∀ {a k : Nat}, k < c.stackSize →
        (a * c.stackSize + k) % (c.stackSize * m) / c.stackSize = a % m := fun {a k} hk => by
      rw [Nat.mod_mul_right_div_self, Nat.mul_comm a, Nat.mul_add_div hpos, Nat.div_eq_of_lt hk,
        Nat.add_zero]
    have hquot := congrArg (· / c.stackSize) hbyte
    simp only [hdiv hi, hdiv hj] at hquot
    exact hquot
  have hsame : h ≡ h' [MOD m] := Nat.ModEq.add_left_cancel' _ hslot
  obtain ⟨hlo, hhi⟩ := hh
  obtain ⟨hlo', hhi'⟩ := hh'
  have hsame' : h - c.minHartid ≡ h' - c.minHartid [MOD m] := by
    refine Nat.ModEq.add_right_cancel' c.minHartid ?_
    rwa [Nat.sub_add_cancel hlo, Nat.sub_add_cancel hlo']
  have := hsame'.eq_of_lt_of_lt (by omega) (by omega)
  omega

/-- As many slots in a row as there are harts are the first ones only if they start with the
    first. -/
theorem slots_lt_iff {m n k : Nat} (hn : 0 < n) (hnm : n < m) :
    (∀ d < n, (k + d) % m < n) ↔ m ∣ k := by
  constructor
  · intro hall
    have h0 : k % m < n := hall 0 hn
    by_contra hk
    have hpos : 0 < k % m := Nat.pos_of_ne_zero fun h => hk (Nat.dvd_of_mod_eq_zero h)
    have hd := hall (n - k % m) (by omega)
    rw [Nat.add_mod, Nat.mod_eq_of_lt (show n - k % m < m by omega),
      show k % m + (n - k % m) = n by omega, Nat.mod_eq_of_lt hnm] at hd
    exact absurd hd (lt_irrefl n)
  · rintro ⟨q, rfl⟩ d hd
    rw [Nat.mul_add_mod, Nat.mod_eq_of_lt (hd.trans hnm)]
    exact hd

/-- The stacks are where they should be exactly when twice the offset of the first hart vanishes
    in 64 bits, as it does when that is hart 0. -/
theorem stacksOk_iff (c : StackConfig) :
    c.StacksOk ↔ 2 ^ 64 ∣ 2 * c.minHartid * c.stackSize := by
  obtain ⟨m, hm, hn, hpos⟩ := exists_slots c
  have hharts : c.nHarts = c.maxHartid - c.minHartid + 1 := rfl
  have hle := c.hartid_le
  have hdvd : 2 ^ 64 ∣ 2 * c.minHartid * c.stackSize ↔ m ∣ 2 * c.minHartid := by
    rw [hm]
    exact Nat.mul_dvd_mul_iff_right hpos
  have hslots : (∀ h, c.IsHart h → c.stackOf h ⊆ c.reserved) ↔
      ∀ d < c.nHarts, (2 * c.minHartid + d) % m < c.nHarts := by
    constructor
    · intro hall d hd
      have hsub := hall (c.minHartid + d) ⟨by omega, by omega⟩
      rw [stackOf_subset_iff hm hn hpos, ← Nat.add_assoc, ← Nat.two_mul] at hsub
      exact hsub
    · intro hall h hh
      obtain ⟨hlo, hhi⟩ := hh
      rw [stackOf_subset_iff hm hn hpos]
      have hd := hall (h - c.minHartid) (by omega)
      rwa [show 2 * c.minHartid + (h - c.minHartid) = c.minHartid + h by omega] at hd
  rw [hdvd, ← slots_lt_iff (by omega) hn, ← hslots]
  exact ⟨fun h => h.1, fun h => ⟨h, fun _ _ hh hh' hne => stackOf_disjoint hh hh' hne⟩⟩

/-! ## The bundled platforms -/

theorem virt_hartid_le : 1 ≤ 4 := by decide

/-- `bsp/virt.h`, with the label somewhere in RAM. -/
def virt : StackConfig where
  minHartid := 1
  maxHartid := 4
  logStackSize := 10
  stack := 0x80010000
  hartid_le := virt_hartid_le
  reserved_le := by decide

/-- The stack of the last hart on `virt` is not inside the reserved bytes. -/
theorem stack_outside_reserved : virt.IsHart 4 ∧ ¬ virt.stackOf 4 ⊆ virt.reserved ∧
    ¬ virt.StacksOk := by
  have hm : 2 ^ 64 = 2 ^ 54 * virt.stackSize := by decide
  have hout : ¬ virt.stackOf 4 ⊆ virt.reserved := by
    rw [stackOf_subset_iff hm (by decide) (by decide)]
    decide
  have hhart : virt.IsHart 4 := ⟨by decide, by decide⟩
  exact ⟨hhart, hout, fun hok => hout (hok.1 4 hhart)⟩

end StackConfig
end SepKernel
