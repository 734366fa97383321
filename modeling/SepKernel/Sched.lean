import SepKernel.Proc

/-!
# `src/sched.c`

The schedule has one 16-bit entry for each quantum of the major frame and each hart: a process
identifier in the low byte and, in the high byte, how many quanta the process has from there.
-/

namespace SepKernel

variable (cfg : Config)

/-- `INVALID_PID`. -/
def invalidPid : Word := 0xFF

/-- `struct sched_entry`: a process and the quanta it has from here. -/
structure SchedEntry where
  pid : Word
  length : Word
deriving DecidableEq

/-- The two bytes of an entry, as `sched_get` unpacks them. -/
def SchedEntry.unpack (val : BitVec 16) : SchedEntry :=
  ⟨(val &&& 0xFF).setWidth 64, ((val >>> 8) &&& 0xFF).setWidth 64⟩

/-- `pid | (length << 8)`, truncated to the 16 bits of the table. -/
def packEntry (pid length : Word) : BitVec 16 := (pid ||| (length <<< 8)).setWidth 16

/-- The table has a column for each hart from `MIN_HARTID` on. -/
def schedGet (q hartid : Nat) : KernelM SchedEntry := do
  kassert (q < cfg.nQuantum)
  kassert (cfg.minHartid ≤ hartid && hartid ≤ cfg.maxHartid)
  return .unpack ((← get).schedule q (hartid - cfg.minHartid))

/-- Writes an entry after checking every argument against the tables. -/
def schedSet (q hartid : Nat) (pid length : Word) : KernelM Unit := do
  kassert (cfg.minHartid ≤ hartid && hartid ≤ cfg.maxHartid)
  kassert (q < cfg.nQuantum)
  kassert (pid == invalidPid || pid.toNat < cfg.nProc)
  kassert (length &&& 0xFF == length)
  modify fun s => s.setSchedule q (hartid - cfg.minHartid) (packEntry pid length)

/-- `for (int i = begin; i < end; ++i) sched_set(i, hartid, pid, end - i);`, with `n` rounds to
    go. -/
def schedUpdateLoop (hartid end_ : Nat) (pid : Word) : Nat → KernelM Unit
  | 0 => pure ()
  | n + 1 => do
    schedSet cfg (end_ - (n + 1)) hartid pid (BitVec.ofNat 64 (n + 1))
    schedUpdateLoop hartid end_ pid n

/-- The entries of the quanta `begin` to `end`, each with the quanta that are left, unless the
    capability has been deleted in the meantime. -/
def schedUpdate (cn : NodeRef) (hartid begin_ end_ pid : Word) : KernelM Unit := do
  kassert (begin_ < end_)
  kassert (cfg.minHartid ≤ hartid.toNat && hartid.toNat ≤ cfg.maxHartid)
  kassert (end_.toNat ≤ cfg.nQuantum)
  kassert (pid == invalidPid || pid.toNat < cfg.nProc)
  if !(← capNodeIsDeleted cn) then
    schedUpdateLoop cfg hartid.toNat end_.toNat pid (end_.toNat - begin_.toNat)

/-- Whether a hart below the given one runs the process in the same quantum. -/
def schedPreempted (quantum : Nat) (pid : Word) : List Nat → KernelM Bool
  | [] => return false
  | i :: is => do
    if pid == (← schedGet cfg quantum i).pid then
      return true
    schedPreempted quantum pid is

/-- The process up next and its length, or nothing where the source returns `false`: no process has
    the quantum, or a lower hart has the same one in it. -/
def schedGetProc (hartid : Nat) (time : Word) : KernelM (Option (Nat × Word)) := do
  let quantum := time.toNat % cfg.nQuantum
  let entry ← schedGet cfg quantum hartid
  if entry.pid == invalidPid then
    return none
  if ← schedPreempted cfg quantum entry.pid
      (List.range' cfg.minHartid (hartid - cfg.minHartid)) then
    return none
  return some (← processAt cfg entry.pid, entry.length)

/-- What a round of `sched_start` dispatches: a process, the quantum it starts at, the number of
    quanta and its timeout register. -/
structure Dispatched where
  proc : Nat
  time : Word
  length : Word
  timeout : Word

/-- One round of the loop of `sched_start`, with the clock at `mtime`. -/
def schedStartRound (hartid : Nat) (mtime : Word) : KernelM (Option Dispatched) := do
  let time := mtime / BitVec.ofNat 64 cfg.ticks + 1
  match ← schedGetProc cfg hartid time with
  | none => return none
  | some (proc, length) =>
    let timeout ← readReg proc .timeout
    let endTime := (time + length) * BitVec.ofNat 64 cfg.ticks - BitVec.ofNat 64 cfg.schedulerTicks
    if timeout ≥ endTime then
      return none
    if ← procAcquire proc then
      return some ⟨proc, time, length, timeout⟩
    return none

/-- The two values `wait_and_set_timeout` writes to the timer, in order. -/
def waitAndSetTimeout (time length timeout : Word) : Word × Word :=
  let startTime := time * BitVec.ofNat 64 cfg.ticks
  let endTime := startTime + length * BitVec.ofNat 64 cfg.ticks - BitVec.ofNat 64 cfg.schedulerTicks
  (if timeout > startTime then timeout else startTime, endTime)

/-- The entries of one quantum: process 0 on every hart, to the end of the major frame. -/
def schedInitRow (i : Nat) : List Nat → KernelM Unit
  | [] => pure ()
  | j :: js => do
    modify fun s => s.setSchedule i (j - cfg.minHartid) (BitVec.ofNat 16 (cfg.nQuantum - i) <<< 8)
    schedInitRow i js

/-- The outer loop of `sched_init`, over the quanta. -/
def schedInitRows : List Nat → KernelM Unit
  | [] => pure ()
  | i :: is => do
    schedInitRow cfg i (List.range' cfg.minHartid cfg.nHarts)
    schedInitRows is

/-- The root process has all the time of all harts. -/
def schedInit : KernelM Unit := schedInitRows cfg (List.range cfg.nQuantum)

end SepKernel
