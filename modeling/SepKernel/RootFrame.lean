import SepKernel.Confinement

/-!
# The frame of the root process

`proc_init_memory` gives the root process a frame for the page its payload starts at, and puts the
number of that page in the address field as it is. The field is a NAPOT encoding: an even number
stands for the page and the next one, an odd number for a larger block that starts further down.
The linker script aligns the payload to one page only, so it is the size of the kernel that
decides whether the frame starts at the payload or among the sections of the kernel below it.
-/

namespace SepKernel

variable {cfg : Config} {rootPayload : Word} {s : Kernel} {cap : Cap} {cn : Nat}

/-- `RAM` of `src/config.lds`. -/
def InRam (addr : Word) : Prop := 0x80000000 ≤ addr.toNat ∧ addr.toNat < 0x80000000 + 0x80000000

instance (addr : Word) : Decidable (InRam addr) := inferInstanceAs (Decidable (_ ∧ _))

/-- The frame opens the first page of the payload and no page below it. -/
def StartsAtPayload (rootPayload : Word) (cap : Cap) : Prop :=
  rootPayload.toNat / 4096 ∈ openedPages cap ∧
    ∀ n ∈ openedPages cap, rootPayload.toNat / 4096 ≤ n

/-! ## What `proc_init_memory` makes -/

theorem page_toNat (rootPayload : Word) :
    (rootPayload >>> 12).toNat = rootPayload.toNat / 4096 := by
  rw [BitVec.toNat_ushiftRight, Nat.shiftRight_eq_div_pow]

/-- The page number of an address in RAM fits the field. -/
theorem page_lt (h : InRam rootPayload) : (rootPayload >>> 12).toNat < 2 ^ 32 := by
  have hlt := h.2
  rw [page_toNat]
  omega

/-- In RAM every page has a frame that passes the asserts of the constructor. -/
theorem capMkPmp_ok (h : InRam rootPayload) : ∃ cap, Gen.capMkPmp (rootPayload >>> 12) 0x7 =
    .ok cap := by
  have haddr : BitField.Fits pmpAddr.bits (rootPayload >>> 12) :=
    (BitField.fits_iff (by decide)).mpr (page_lt h)
  refine ⟨capMkPmp (rootPayload >>> 12) 0x7, ?_⟩
  simp only [Gen.capMkPmp, kassert_bind, checkFits_bind]
  exact ⟨haddr, by decide, by decide, rfl⟩

/-- All that `proc_init_memory` does, given the frame that it makes. -/
theorem procInitMemory_run (hd : ¬ s.Live (.slot 0 cn))
    (h : Gen.capMkPmp (rootPayload >>> 12) 0x7 = .ok cap) :
    (procInitMemory cfg cn rootPayload).run s = .ok (cn + 1, s.addRoot .memory cn cap) :=
  newList_run hd h

/-- The pages from the first of the block on. -/
theorem openedPages_root (hram : InRam rootPayload)
    (h : Gen.capMkPmp (rootPayload >>> 12) 0x7 = .ok cap) : openedPages cap =
      Set.Icc (Napot.first (rootPayload.toNat / 4096)) (Napot.last (rootPayload.toNat / 4096)) := by
  have hpage := page_lt hram
  have hview := (capMkPmp_view h).1
  have ht : capIsType cap .pmp = true := Cap.isType_of_view (by rw [hview]; rfl)
  rw [Cap.view_eq ht] at hview
  obtain ⟨hbegin, hend, -⟩ := Capability.pmp.inj hview
  rw [openedPages_eq, hbegin, hend, pmpNapotBegin_toNat hpage, pmpNapotEnd_toNat hpage, page_toNat]

/-- The frame starts where the payload does just if that is an even page. -/
theorem startsAtPayload_iff (hal : rootPayload.toNat % 4096 = 0) (hram : InRam rootPayload)
    (h : Gen.capMkPmp (rootPayload >>> 12) 0x7 = .ok cap) :
    StartsAtPayload rootPayload cap ↔ rootPayload.toNat % 8192 = 0 := by
  have hblock := Napot.mem_block (rootPayload.toNat / 4096)
  have heven : Napot.first (rootPayload.toNat / 4096) = rootPayload.toNat / 4096 ↔
      rootPayload.toNat % 8192 = 0 := by
    rw [Napot.first_eq_self_iff]
    omega
  rw [← heven, StartsAtPayload, openedPages_root hram h]
  constructor
  · intro hstart
    have hle := hstart.2 _ ⟨le_rfl, hblock.1.trans hblock.2⟩
    exact le_antisymm hblock.1 hle
  · intro hfirst
    refine ⟨hblock, fun n hn => ?_⟩
    rw [← hfirst]
    exact hn.1

/-- In any kernel in which the slot is free, for every payload the linker can place,
    `proc_init_memory` fills it with a frame that keeps to the payload exactly when the payload
    starts on an even page. -/
theorem root_frame_iff (cfg : Config) (s : Kernel) (cn : Nat) (rootPayload : Word)
    (hd : ¬ s.Live (.slot 0 cn)) (hal : rootPayload.toNat % 4096 = 0) (hram : InRam rootPayload) :
    ∃ t, (procInitMemory cfg cn rootPayload).run s = .ok (cn + 1, t) ∧
      (StartsAtPayload rootPayload (t.caps (.slot 0 cn)) ↔ rootPayload.toNat % 8192 = 0) := by
  obtain ⟨cap, hcap⟩ := capMkPmp_ok hram
  refine ⟨_, procInitMemory_run hd hcap, ?_⟩
  have hslot : (s.addRoot .memory cn cap).caps (.slot 0 cn) = cap := by simp
  rw [hslot]
  exact startsAtPayload_iff hal hram hcap

/-- A payload on an even page, one megabyte into RAM. -/
theorem root_frame_iff_even : ∃ t,
    (procInitMemory .virt 0 0x80100000).run .zero = .ok (1, t) ∧
      (StartsAtPayload 0x80100000 (t.caps (.slot 0 0)) ↔
        (0x80100000 : Word).toNat % 8192 = 0) :=
  root_frame_iff .virt .zero 0 0x80100000 (fun h => h rfl) (by decide) (by decide)

/-- With the payload behind nine pages of the kernel, the frame opens the last one of them too. -/
theorem root_frame_opens_kernel : ∃ t,
    (procInitMemory .virt 0 0x80009000).run .zero = .ok (1, t) ∧
      (0x80009000 : Word).toNat % 4096 = 0 ∧ InRam 0x80009000 ∧
      ¬ StartsAtPayload 0x80009000 (t.caps (.slot 0 0)) := by
  have hram : InRam 0x80009000 := by decide
  obtain ⟨cap, hcap⟩ := capMkPmp_ok hram
  refine ⟨_, procInitMemory_run (fun h => h rfl) hcap, by decide, hram, ?_⟩
  have hslot : (Kernel.zero.addRoot .memory 0 cap).caps (.slot 0 0) = cap := by simp
  rw [hslot, startsAtPayload_iff (by decide) hram hcap]
  decide

end SepKernel
