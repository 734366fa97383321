/-!
# Build-time configuration

The kernel is compiled against `config.h` and one `bsp/*.h`; every table size in it is a macro
of one of the two. A `Config` is one such choice, together with the bounds the macros have to
respect for the kernel to boot: the asserts of the `cap_mk_*` calls in `proc_init` and the byte
widths of the fields those calls fill.
-/

namespace SepKernel

/-- The constants of `config.h` and of the board's header. -/
structure Config where
  nProc : Nat
  nCaps : Nat
  nQuantum : Nat
  nChannels : Nat
  minHartid : Nat
  maxHartid : Nat
  ticks : Nat
  schedulerTicks : Nat
  /-- Whether `MEMORY_PROTECTION` is defined. -/
  memoryProtection : Bool
  /-- How often the model goes round a C loop that has no bound of its own before it gives up.
      Every result below is for every such number, as long as one walk over all the
      capability slots fits. -/
  loopFuel : Nat
  nProc_pos : 0 < nProc
  nProc_le : nProc ≤ 255
  nQuantum_pos : 0 < nQuantum
  nQuantum_le : nQuantum ≤ 255
  nChannels_pos : 0 < nChannels
  nChannels_le : nChannels ≤ 65535
  hartid_le : minHartid ≤ maxHartid
  maxHartid_le : maxHartid ≤ 255
  ticks_pos : 0 < ticks
  /-- The root process holds a PMP frame, the channels, the supervisor and a time capability for
      each hart. -/
  nCaps_ge : 3 + (maxHartid - minHartid + 1) ≤ nCaps
  loopFuel_gt : nProc * nCaps < loopFuel

namespace Config

variable (cfg : Config)

/-- `N_HARTS`. -/
def nHarts : Nat := cfg.maxHartid - cfg.minHartid + 1

theorem nCaps_pos : 0 < cfg.nCaps := by
  have := cfg.nCaps_ge
  omega

/-- A loop of the source goes round once at least. -/
theorem exists_loopFuel : ∃ fuel, cfg.loopFuel = fuel + 1 :=
  Nat.exists_eq_add_one_of_ne_zero (Nat.ne_zero_of_lt cfg.loopFuel_gt)

/-- `config.h` as it stands, on the platform `bsp/virt.h`. -/
def virt : Config where
  nProc := 6
  nCaps := 64
  nQuantum := 128
  nChannels := 30
  minHartid := 1
  maxHartid := 4
  ticks := 781
  schedulerTicks := 2000
  memoryProtection := false
  loopFuel := 385
  nProc_pos := by decide
  nProc_le := by decide
  nQuantum_pos := by decide
  nQuantum_le := by decide
  nChannels_pos := by decide
  nChannels_le := by decide
  hartid_le := by decide
  maxHartid_le := by decide
  ticks_pos := by decide
  nCaps_ge := by decide
  loopFuel_gt := by decide

/-- The same on the platform `bsp/sifive_u.h`, whose clock is ten times slower. -/
def sifiveU : Config := { virt with
  ticks := 78
  ticks_pos := by decide }

end Config
end SepKernel
