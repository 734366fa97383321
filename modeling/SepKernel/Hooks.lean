import SepKernel.Links
import SepKernel.CapUpdate

/-!
# `cap_update_hook`

The two global tables follow the capabilities through one function, called wherever a capability
changes hands. On a live node it writes the schedule for a time capability and the table of
receivers for a receiver or a server; on a deleted node it writes nothing. Before it knows which
it is, it asserts that a time capability has something left to schedule.
-/

namespace SepKernel

variable {cfg : Config} {s : Kernel} {cap : Cap} {n : NodeRef} {p : Nat} {pid : Word}

/-- A time capability that has handed out all its quanta. -/
def Capability.Exhausted : Capability → Prop
  | .time _ r => r.free = r.stop
  | _ => False

instance : DecidablePred Capability.Exhausted
  | .time _ r => inferInstanceAs (Decidable (r.free = r.stop))
  | .memory .. | .pmp .. | .channels _ | .receiver .. | .sender .. | .server .. | .client ..
  | .supervisor _ | .other => inferInstanceAs (Decidable False)

namespace Kernel

/-- The quanta from `lo` to `hi` of a hart's column, all one process's. -/
def fillSchedule (s : Kernel) (col lo hi : Nat) (pid : Word) : Kernel :=
  { s with schedule := fun q k =>
      if k = col ∧ lo ≤ q ∧ q < hi then packEntry pid (BitVec.ofNat 64 (hi - q))
      else s.schedule q k }

/-- What the hook does for a process that comes to hold a capability in a live node. -/
def assign (cfg : Config) (s : Kernel) (p : Nat) : Capability → Kernel
  | .time h r => s.fillSchedule (h - cfg.minHartid) r.free r.stop (s.procs p).pid
  | .receiver ch _ => s.setReceiver ch 0 (some p)
  | .server ch _ => s.setReceiver ch 0 (some p)
  | _ => s

variable {c : Capability}

@[simp] theorem nodes_assign : (s.assign cfg p c).nodes = s.nodes := by cases c <;> rfl
@[simp] theorem nexts_assign : (s.assign cfg p c).nexts = s.nexts := by cases c <;> rfl
@[simp] theorem prevs_assign : (s.assign cfg p c).prevs = s.prevs := by cases c <;> rfl
@[simp] theorem caps_assign : (s.assign cfg p c).caps = s.caps := by cases c <;> rfl
@[simp] theorem procs_assign : (s.assign cfg p c).procs = s.procs := by cases c <;> rfl
@[simp] theorem history_assign : (s.assign cfg p c).history = s.history := by cases c <;> rfl

/-- The reply slot of a channel is not the hook's. -/
@[simp] theorem receivers_assign_one (ch : Nat) :
    (s.assign cfg p c).receivers ch 1 = s.receivers ch 1 := by
  cases c
  case receiver ch' _ =>
    by_cases h : ch = ch' <;> simp [assign, setReceiver, Function.update, h]
  case server ch' _ =>
    by_cases h : ch = ch' <;> simp [assign, setReceiver, Function.update, h]
  all_goals rfl

end Kernel

/-! ## The schedule -/

section

variable {len : Word} {i : Nat}

theorem getLsbD_of_lt_256 {x : Word} (hx : x.toNat < 256) (hi : 8 ≤ i) : x.getLsbD i = false := by
  have : (2 : Nat) ^ 8 ≤ 2 ^ i := Nat.pow_le_pow_right (by decide) hi
  exact Nat.testBit_lt_two_pow (by omega)

/-- The low byte of an entry is the process, whatever is above. -/
theorem unpack_packEntry_pid (hp : pid.toNat < 256) :
    (SchedEntry.unpack (packEntry pid len)).pid = pid := by
  apply BitVec.eq_of_getLsbD_eq
  intro i hi
  have hmask : (0xFF : BitVec 16) = BitField.lowMask 16 8 := rfl
  simp only [SchedEntry.unpack, packEntry, BitVec.getLsbD_setWidth, BitVec.getLsbD_and,
    BitVec.getLsbD_or, BitVec.getLsbD_shiftLeft, hmask, BitField.getLsbD_lowMask]
  by_cases h8 : i < 8
  · simp [h8, hi, show i < 16 by omega]
  · simp [h8, getLsbD_of_lt_256 hp (by omega : 8 ≤ i)]

/-- An entry comes back from its sixteen bits. -/
theorem unpack_packEntry_length (hp : pid.toNat < 256) (hl : len.toNat < 256) :
    (SchedEntry.unpack (packEntry pid len)).length = len := by
  apply BitVec.eq_of_getLsbD_eq
  intro i hi
  have hmask : (0xFF : BitVec 16) = BitField.lowMask 16 8 := rfl
  simp only [SchedEntry.unpack, packEntry, BitVec.getLsbD_setWidth, BitVec.getLsbD_and,
    BitVec.getLsbD_or, BitVec.getLsbD_shiftLeft, BitVec.getLsbD_ushiftRight, hmask,
    BitField.getLsbD_lowMask]
  rw [getLsbD_of_lt_256 hp (by omega : 8 ≤ 8 + i)]
  by_cases h8 : i < 8
  · simp [h8, hi, show i < 16 by omega, show 8 + i < 16 by omega, show 8 + i < 64 by omega]
  · simp [h8, getLsbD_of_lt_256 hl (by omega : 8 ≤ i)]

end

/-- A process identifier the schedule may hold. -/
def PidOk (cfg : Config) (pid : Word) : Prop := pid = invalidPid ∨ pid.toNat < cfg.nProc

/-- A process identifier fits its byte. -/
theorem PidOk.lt (h : PidOk cfg pid) : pid.toNat < 256 := by
  have := cfg.nProc_le
  rcases h with rfl | h
  · decide
  · omega

/-- Every entry of the schedule names a process or none. -/
def EntriesOk (cfg : Config) (s : Kernel) : Prop :=
  ∀ q k, PidOk cfg (SchedEntry.unpack (s.schedule q k)).pid

/-- The hook writes valid entries. -/
theorem entriesOk_assign {c : Capability} (h : EntriesOk cfg s) (hp : PidOk cfg (s.procs p).pid) :
    EntriesOk cfg (s.assign cfg p c) := by
  intro q k
  cases c with
  | time hart r =>
    simp only [Kernel.assign, Kernel.fillSchedule]
    split
    · rw [unpack_packEntry_pid hp.lt]
      exact hp
    · exact h q k
  | _ => exact h q k

theorem kassert_pid (h : PidOk cfg pid) :
    (pid == invalidPid || decide (pid.toNat < cfg.nProc)) = true := by
  rcases h with h | h <;> simp [h]

/-- One entry, if the asserts hold. -/
theorem schedSet_run {q hart len : Nat} (hq : q < cfg.nQuantum)
    (hlo : cfg.minHartid ≤ hart) (hhi : hart ≤ cfg.maxHartid) (hpid : PidOk cfg pid)
    (hlen : len < 256) :
    (schedSet cfg q hart pid (BitVec.ofNat 64 len)).run s =
      .ok ((), s.setSchedule q (hart - cfg.minHartid) (packEntry pid (BitVec.ofNat 64 len))) := by
  have hlen' : (BitVec.ofNat 64 len &&& 0xFF == BitVec.ofNat 64 len) = true := by
    rw [beq_iff_eq]
    exact (BitField.fits_iff (n := 8) (by decide)).mpr (by
      rw [BitVec.toNat_ofNat, Nat.mod_eq_of_lt (by omega)]
      exact hlen)
  rw [schedSet, run_bind_ok (run_kassert (by simp [hlo, hhi]) s),
    run_bind_ok (run_kassert (by simp [hq]) s), run_bind_ok (run_kassert (kassert_pid hpid) s),
    run_bind_ok (run_kassert hlen' s)]
  rfl

/-- The loop fills the rest of the range. -/
theorem schedUpdateLoop_run {hart stop : Nat} (hlo : cfg.minHartid ≤ hart)
    (hhi : hart ≤ cfg.maxHartid) (hstop : stop ≤ cfg.nQuantum) (hpid : PidOk cfg pid) :
    ∀ (k : Nat) (s : Kernel), k ≤ stop → (schedUpdateLoop cfg hart stop pid k).run s =
      .ok ((), s.fillSchedule (hart - cfg.minHartid) (stop - k) stop pid)
  | 0, s, _ => by
    have hnone : s.fillSchedule (hart - cfg.minHartid) (stop - 0) stop pid = s := by
      cases s
      simp only [Kernel.fillSchedule, Kernel.mk.injEq, true_and, and_true]
      funext q j
      rw [if_neg (by omega)]
    rw [hnone]
    rfl
  | k + 1, s, hk => by
    have hn := cfg.nQuantum_le
    rw [schedUpdateLoop, run_bind_ok (schedSet_run (by omega) hlo hhi hpid (by omega)),
      schedUpdateLoop_run hlo hhi hstop hpid k _ (by omega)]
    congr 2
    simp only [Kernel.fillSchedule, Kernel.setSchedule, Kernel.mk.injEq, true_and, and_true]
    funext q j
    by_cases hq : q = stop - (k + 1)
    · subst hq
      by_cases hj : j = hart - cfg.minHartid
      · rw [if_neg (by omega), if_pos (by omega), hj, Function.update_self, Function.update_self,
          show stop - (stop - (k + 1)) = k + 1 by omega]
      · rw [if_neg (by omega), if_neg (by omega), Function.update_self, Function.update_of_ne hj]
    · rw [Function.update_of_ne hq]
      by_cases hc : j = hart - cfg.minHartid ∧ stop - k ≤ q ∧ q < stop
      · rw [if_pos hc, if_pos (by omega)]
      · rw [if_neg hc, if_neg (by omega)]

section

variable {hart lo hi : Word}

/-- So the whole range is the process's, if the node is live. -/
theorem schedUpdate_run (hlt : lo < hi) (hmin : cfg.minHartid ≤ hart.toNat)
    (hmax : hart.toNat ≤ cfg.maxHartid) (hstop : hi.toNat ≤ cfg.nQuantum) (hpid : PidOk cfg pid)
    (hn : s.Live n) : (schedUpdate cfg n hart lo hi pid).run s =
      .ok ((), s.fillSchedule (hart.toNat - cfg.minHartid) lo.toNat hi.toNat pid) := by
  have hle : lo.toNat < hi.toNat := hlt
  rw [schedUpdate, run_bind_ok (run_kassert (by simp [hlt]) s),
    run_bind_ok (run_kassert (by simp [hmin, hmax]) s),
    run_bind_ok (run_kassert (by simp [hstop]) s), run_bind_ok (run_kassert (kassert_pid hpid) s),
    run_bind_ok (capNodeIsDeleted_of_live hn)]
  simp only [Bool.not_false, if_true]
  rw [schedUpdateLoop_run hmin hmax hstop hpid _ s (by omega),
    show hi.toNat - (hi.toNat - lo.toNat) = lo.toNat by omega]

/-- And nothing is, if it has been deleted. -/
theorem schedUpdate_run_of_dead (hlt : lo < hi) (hmin : cfg.minHartid ≤ hart.toNat)
    (hmax : hart.toNat ≤ cfg.maxHartid) (hstop : hi.toNat ≤ cfg.nQuantum) (hpid : PidOk cfg pid)
    (hn : ¬ s.Live n) : (schedUpdate cfg n hart lo hi pid).run s = .ok ((), s) := by
  rw [schedUpdate, run_bind_ok (run_kassert (by simp [hlt]) s),
    run_bind_ok (run_kassert (by simp [hmin, hmax]) s),
    run_bind_ok (run_kassert (by simp [hstop]) s), run_bind_ok (run_kassert (kassert_pid hpid) s),
    run_bind_ok (capNodeIsDeleted_of_dead hn)]
  rfl

/-- The assert that a range is not empty. -/
theorem schedUpdate_run_of_empty (hge : ¬ lo < hi) :
    (schedUpdate cfg n hart lo hi pid).run s = .error .assertion := by
  rw [schedUpdate, decide_eq_false hge]
  rfl

end

/-! ## The hook -/

/-- The process identifier the hook enters. -/
def hookPid (s : Kernel) : Option Nat → Word
  | some p => (s.procs p).pid
  | none => invalidPid

variable {proc : Option Nat}

/-- The hook of a time capability is an update of the schedule. -/
theorem capUpdateHook_run_time (ht : capIsType cap .time = true) :
    (capUpdateHook cfg proc n cap).run s = (schedUpdate cfg n (capTimeGetHartid cap)
      (capTimeGetFree cap) (capTimeGetEnd cap) (hookPid s proc)).run s := by
  simp only [capUpdateHook, capIsType_eq ht, reduceCtorEq, decide_true, decide_false,
    Bool.false_eq_true, if_true, if_false, Field.checkedGet_eq ht]
  cases proc with
  | none =>
    simp only [bind_pure_unit, pure_bind]
    rw [run_bind_ok (run_lift_ok rfl s), run_bind_ok (run_lift_ok rfl s),
      run_bind_ok (run_lift_ok rfl s)]
    rfl
  | some p =>
    simp only [bind_pure_unit, pure_bind]
    rw [run_bind_ok (run_lift_ok rfl s), run_bind_ok (run_lift_ok rfl s),
      run_bind_ok (run_lift_ok rfl s), run_bind_ok (run_get s)]
    rfl

theorem writeReceiver_run {ch : Nat} {k : Fin 2} {x : Option Nat} (h : ch < cfg.nChannels) :
    (writeReceiver cfg ch k x).run s = .ok ((), s.setReceiver ch k x) := by
  have hcheck : (checkIndex ch cfg.nChannels).run s = .ok ((), s) := by
    rw [checkIndex, if_pos h]
    rfl
  rw [writeReceiver, run_bind_ok hcheck]
  rfl

/-- The process is the channel's receiver. -/
theorem receiversUpdate_run {ch : Word} (hl : s.Live n) (h : ch.toNat < cfg.nChannels) :
    (receiversUpdate cfg (some p) n ch).run s = .ok ((), s.setReceiver ch.toNat 0 (some p)) := by
  rw [receiversUpdate, run_bind_ok (capNodeIsDeleted_of_live hl)]
  simp only [Bool.not_false, if_true]
  rw [run_bind_ok (writeReceiver_run h)]
  rfl

/-- Nothing, where the node has been deleted. -/
theorem receiversUpdate_run_of_dead {ch : Word} (hl : ¬ s.Live n) :
    (receiversUpdate cfg proc n ch).run s = .ok ((), s) := by
  rw [receiversUpdate, run_bind_ok (capNodeIsDeleted_of_dead hl)]
  rfl

/-- The hook on a capability that is neither for time nor a receiving end. -/
theorem capUpdateHook_run_other (h1 : capIsType cap .time = false)
    (h2 : capIsType cap .receiver = false) (h3 : capIsType cap .server = false) :
    (capUpdateHook cfg proc n cap).run s = .ok ((), s) := by
  simp only [capUpdateHook, h1, h2, h3, Bool.false_eq_true, if_false]
  rfl

/-- The hook of a receiver. -/
theorem capUpdateHook_run_receiver (ht : capIsType cap .receiver = true) :
    (capUpdateHook cfg proc n cap).run s =
      (receiversUpdate cfg proc n (capReceiverGetChannel cap)).run s := by
  simp only [capUpdateHook, capIsType_eq ht, reduceCtorEq, decide_true, decide_false,
    Bool.false_eq_true, if_true, if_false, Field.checkedGet_eq ht, bind_pure_unit, pure_bind]
  rw [run_bind_ok (run_lift_ok rfl s)]

/-- And that of a server. -/
theorem capUpdateHook_run_server (ht : capIsType cap .server = true) :
    (capUpdateHook cfg proc n cap).run s =
      (receiversUpdate cfg proc n (capServerGetChannel cap)).run s := by
  simp only [capUpdateHook, capIsType_eq ht, reduceCtorEq, decide_true, decide_false,
    Bool.false_eq_true, if_true, if_false, Field.checkedGet_eq ht, pure_bind]
  rw [run_bind_ok (run_lift_ok rfl s)]

/-- Words that are on no live node may also be clear. -/
def Capability.Known (cfg : Config) (c : Capability) : Prop := c = .other ∨ c.Valid cfg

/-- The case that hangs, whatever the node. -/
theorem capUpdateHook_run_of_exhausted (he : cap.view.Exhausted) :
    (capUpdateHook cfg proc n cap).run s = .error .assertion := by
  have ht : capIsType cap .time = true := by
    apply Cap.isType_of_view
    cases hv : cap.view <;> simp_all [Capability.Exhausted, Capability.type?]
  rw [Cap.view_eq ht] at he
  have hge : ¬ capTimeGetFree cap < capTimeGetEnd cap := fun hlt =>
    absurd (he : (capTimeGetFree cap).toNat = (capTimeGetEnd cap).toNat) (Nat.ne_of_lt hlt)
  rw [capUpdateHook_run_time ht, schedUpdate_run_of_empty hge]

/-- What a time capability that is not exhausted passes to `sched_update`. -/
theorem time_bounds (ht : capIsType cap .time = true) (hv : cap.view.Valid cfg)
    (he : ¬ cap.view.Exhausted) :
    capTimeGetFree cap < capTimeGetEnd cap ∧ cfg.minHartid ≤ (capTimeGetHartid cap).toNat ∧
      (capTimeGetHartid cap).toNat ≤ cfg.maxHartid ∧
      (capTimeGetEnd cap).toNat ≤ cfg.nQuantum := by
  rw [Cap.view_eq ht] at hv he
  obtain ⟨⟨-, hle, -⟩, hmin, hmax, hstop⟩ := hv
  exact ⟨lt_of_le_of_ne hle he, hmin, hmax, hstop⟩

/-- The hook on a live node assigns what the capability is for. -/
theorem capUpdateHook_run_of_live (hv : cap.view.Valid cfg) (he : ¬ cap.view.Exhausted)
    (hp : PidOk cfg (hookPid s (some p))) (hn : s.Live n) :
    (capUpdateHook cfg (some p) n cap).run s = .ok ((), s.assign cfg p cap.view) := by
  by_cases ht : capIsType cap .time = true
  · obtain ⟨hlt, hmin, hmax, hstop⟩ := time_bounds ht hv he
    rw [capUpdateHook_run_time ht, schedUpdate_run hlt hmin hmax hstop hp hn, Cap.view_eq ht]
    rfl
  by_cases hr : capIsType cap .receiver = true
  · rw [Cap.view_eq hr] at hv ⊢
    rw [capUpdateHook_run_receiver hr, receiversUpdate_run hn hv.2]
    rfl
  by_cases hs : capIsType cap .server = true
  · rw [Cap.view_eq hs] at hv ⊢
    rw [capUpdateHook_run_server hs, receiversUpdate_run hn hv.2]
    rfl
  · rw [Bool.not_eq_true] at ht hr hs
    rw [capUpdateHook_run_other ht hr hs]
    cases hc : cap.view with
    | time => exact absurd (Cap.isType_of_view (by rw [hc]; rfl)) (by rw [ht]; decide)
    | receiver => exact absurd (Cap.isType_of_view (by rw [hc]; rfl)) (by rw [hr]; decide)
    | server => exact absurd (Cap.isType_of_view (by rw [hc]; rfl)) (by rw [hs]; decide)
    | _ => rfl

/-- On a deleted node it does nothing, which is the defect of the calls that delete first. -/
theorem capUpdateHook_run_of_dead (hv : cap.view.Known cfg) (he : ¬ cap.view.Exhausted)
    (hp : PidOk cfg (hookPid s proc)) (hn : ¬ s.Live n) :
    (capUpdateHook cfg proc n cap).run s = .ok ((), s) := by
  by_cases ht : capIsType cap .time = true
  · have hv' : cap.view.Valid cfg := hv.resolve_left fun h => by
      rw [Cap.view_eq ht] at h
      cases h
    obtain ⟨hlt, hmin, hmax, hstop⟩ := time_bounds ht hv' he
    rw [capUpdateHook_run_time ht, schedUpdate_run_of_dead hlt hmin hmax hstop hp hn]
  by_cases hr : capIsType cap .receiver = true
  · rw [capUpdateHook_run_receiver hr, receiversUpdate_run_of_dead hn]
  by_cases hs : capIsType cap .server = true
  · rw [capUpdateHook_run_server hs, receiversUpdate_run_of_dead hn]
  · rw [Bool.not_eq_true] at ht hr hs
    rw [capUpdateHook_run_other ht hr hs]

end SepKernel
