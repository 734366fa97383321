import SepKernel.Schedule

/-!
# Dispatch windows

When a hart dispatches a process it sets its timer twice, to the start and to the end of the window
in which the process runs. The end is `SCHEDULER_TICKS` before the end of the process's time, and a
process with less time than that gets a window that is empty or does not end.
-/

namespace SepKernel

open Transition (Reachable)

variable {cfg : Config} {s t : Kernel} {hart p : Nat} {mtime time length timeout : Word}
  {d : Dispatched}

/-! ## What a round dispatches -/

theorem kassert_inv {b : Bool} {u : Unit} (h : (liftM (kassert b) : KernelM Unit).run s = .ok (u, t)) :
    t = s := (run_lift_inv h).2

theorem schedGet_inv {q : Nat} {e : SchedEntry} (h : (schedGet cfg q hart).run s = .ok (e, t)) :
    e = s.entryAt cfg q hart ∧ t = s := by
  obtain ⟨_, s₁, h₁, h'⟩ := run_bind_inv h
  obtain ⟨_, s₂, h₂, h''⟩ := run_bind_inv h'
  cases h''
  exact ⟨by rw [kassert_inv h₂, kassert_inv h₁]; rfl, (kassert_inv h₂).trans (kassert_inv h₁)⟩

/-- A look at the lower harts changes nothing. -/
theorem schedPreempted_inv {q : Nat} {pid : Word} {harts : List Nat} {b : Bool}
    (h : (schedPreempted cfg q pid harts).run s = .ok (b, t)) : t = s := by
  induction harts with
  | nil =>
    cases h
    rfl
  | cons i is ih =>
    obtain ⟨e, s₁, h₁, h'⟩ := run_bind_inv h
    rw [(schedGet_inv h₁).2] at h'
    split at h'
    · cases h'
      rfl
    · exact ih h'

/-- The process found has the length of the entry. -/
theorem schedGetProc_inv (h : (schedGetProc cfg hart time).run s = .ok (some (p, length), t)) :
    length = (s.entryAt cfg (time.toNat % cfg.nQuantum) hart).length ∧ t = s := by
  obtain ⟨e, s₁, h₁, h'⟩ := run_bind_inv h
  obtain ⟨he, hs₁⟩ := schedGet_inv h₁
  rw [he, hs₁] at h'
  split at h'
  · cases h'
  obtain ⟨b, s₂, h₂, h''⟩ := run_bind_inv h'
  rw [schedPreempted_inv h₂] at h''
  split at h''
  · cases h''
  obtain ⟨p', s₃, h₃, h₄⟩ := run_bind_inv h''
  cases h₄
  obtain ⟨_, s₄, h₅, h₆⟩ := run_bind_inv h₃
  cases h₆
  unfold checkIndex at h₅
  split at h₅
  · cases h₅
    exact ⟨rfl, rfl⟩
  · cases h₅

/-- The quantum for which `sched_start` looks when the clock is at `mtime`. -/
def roundTime (cfg : Config) (mtime : Word) : Word := mtime / BitVec.ofNat 64 cfg.ticks + 1

/-- `end_time`, the same in both functions that compute it. -/
def endTime (cfg : Config) (time length : Word) : Word :=
  (time + length) * BitVec.ofNat 64 cfg.ticks - BitVec.ofNat 64 cfg.schedulerTicks

/-- The process's time is that of the entry, and its timeout comes before the end. -/
theorem round_dispatched (h : (schedStartRound cfg hart mtime).run s = .ok (some d, t)) :
    d.time = roundTime cfg mtime ∧
      d.length = (s.entryAt cfg (d.time.toNat % cfg.nQuantum) hart).length ∧
      d.timeout < endTime cfg d.time d.length := by
  obtain ⟨found, s₁, h₁, h'⟩ := run_bind_inv h
  cases found with
  | none => cases h'
  | some x =>
    obtain ⟨p, length⟩ := x
    obtain ⟨hlen, hs₁⟩ := schedGetProc_inv h₁
    obtain ⟨timeout, s₂, h₂, h''⟩ := run_bind_inv h'
    change StateT.run (if timeout ≥ endTime cfg (roundTime cfg mtime) length then pure none
      else _) s₂ = _ at h''
    split at h''
    · cases h''
    · next hlate =>
      obtain ⟨b, s₃, h₃, h₄⟩ := run_bind_inv h''
      split at h₄
      · cases h₄
        exact ⟨rfl, hlen, BitVec.not_le.mp hlate⟩
      · cases h₄

/-! ## The window -/

/-- The timer is set to a start that is in the process's time and not before its timeout, then to an
    end after it and `SCHEDULER_TICKS` before the time is over, as numbers. -/
structure Window (cfg : Config) (d : Dispatched) (start stop : Word) : Prop where
  time_le : d.time.toNat * cfg.ticks ≤ start.toNat
  timeout_le : d.timeout ≤ start
  lt : start < stop
  stop_le : stop.toNat ≤ (d.time.toNat + d.length.toNat) * cfg.ticks
  no_wrap : stop.toNat + cfg.schedulerTicks = (d.time.toNat + d.length.toNat) * cfg.ticks

/-- Subtraction wraps. -/
theorem toNat_sub_ofNat {x : Word} {n : Nat} (hn : n < 2 ^ 64) :
    (x - BitVec.ofNat 64 n).toNat = if n ≤ x.toNat then x.toNat - n else 2 ^ 64 + x.toNat - n := by
  have hx := x.isLt
  rw [BitVec.toNat_sub, BitVec.toNat_ofNat, Nat.mod_eq_of_lt hn]
  split <;> omega

theorem toNat_mul_ofNat {x : Word} {n : Nat} (h : x.toNat * n < 2 ^ 64) (hn : n < 2 ^ 64) :
    (x * BitVec.ofNat 64 n).toNat = x.toNat * n := by
  rw [BitVec.toNat_mul, BitVec.toNat_ofNat, Nat.mod_eq_of_lt hn, Nat.mod_eq_of_lt h]

/-- The end of the window, which has wrapped if the entry is shorter than the scheduler takes. -/
theorem endTime_toNat (hticks : cfg.ticks < 2 ^ 64) (hsched : cfg.schedulerTicks < 2 ^ 64)
    (hfit : (time.toNat + length.toNat) * cfg.ticks < 2 ^ 64) :
    (endTime cfg time length).toNat =
      if cfg.schedulerTicks ≤ (time.toNat + length.toNat) * cfg.ticks
      then (time.toNat + length.toNat) * cfg.ticks - cfg.schedulerTicks
      else 2 ^ 64 + (time.toNat + length.toNat) * cfg.ticks - cfg.schedulerTicks := by
  have hsum : (time + length).toNat = time.toNat + length.toNat := by
    rw [BitVec.toNat_add, Nat.mod_eq_of_lt]
    exact (Nat.le_mul_of_pos_right _ cfg.ticks_pos).trans_lt hfit
  rw [endTime, toNat_sub_ofNat hsched, toNat_mul_ofNat (hsum ▸ hfit) hticks, hsum]

/-- The two values for the timer: the later of the start and the timeout, and the end. -/
theorem waitAndSetTimeout_eq (cfg : Config) (time length timeout : Word) :
    waitAndSetTimeout cfg time length timeout =
      (if timeout > time * BitVec.ofNat 64 cfg.ticks then timeout
        else time * BitVec.ofNat 64 cfg.ticks, endTime cfg time length) := by
  rw [waitAndSetTimeout, endTime, BitVec.add_mul]

/-- The window is right just if the process has more time than the scheduler takes. -/
theorem window_iff (hticks : cfg.ticks < 2 ^ 64) (hsched : cfg.schedulerTicks < 2 ^ 64)
    (hfit : (d.time.toNat + d.length.toNat) * cfg.ticks < 2 ^ 64)
    (hlate : d.timeout < endTime cfg d.time d.length) :
    Window cfg d (waitAndSetTimeout cfg d.time d.length d.timeout).1
        (waitAndSetTimeout cfg d.time d.length d.timeout).2 ↔
      cfg.schedulerTicks < d.length.toNat * cfg.ticks := by
  have hend := endTime_toNat hticks hsched hfit
  have hstart : (d.time * BitVec.ofNat 64 cfg.ticks).toNat = d.time.toNat * cfg.ticks :=
    toNat_mul_ofNat ((Nat.mul_le_mul_right _ (Nat.le_add_right _ _)).trans_lt hfit) hticks
  rw [waitAndSetTimeout_eq]
  generalize endTime cfg d.time d.length = stop at hend hlate
  generalize d.time * BitVec.ofNat 64 cfg.ticks = start at hstart
  -- from here on it is arithmetic of naturals: neither product wraps
  rw [add_mul] at hend hfit
  have hl := BitVec.lt_def.mp hlate
  constructor
  · rintro ⟨h1, h2, h3, h4, h5⟩
    have h3' := BitVec.lt_def.mp h3
    simp only at h1 h3' h5
    rw [add_mul] at h5
    omega
  · intro hlt
    have hle : cfg.schedulerTicks ≤ d.time.toNat * cfg.ticks + d.length.toNat * cfg.ticks := by omega
    rw [if_pos hle] at hend
    refine ⟨?_, ?_, ?_, ?_, ?_⟩
    · simp only
      split
      · next hgt =>
        have hgt' := BitVec.lt_def.mp hgt
        omega
      · exact hstart.symm.le
    · simp only
      split
      · exact BitVec.le_refl _
      · next hgt => exact BitVec.not_lt.mp hgt
    · simp only
      split
      · exact hlate
      · exact BitVec.lt_def.mpr (by omega)
    · rw [add_mul]
      simp only
      omega
    · rw [add_mul]
      simp only
      omega

/-- The platforms that come with the kernel. -/
def Bundled (cfg : Config) : Prop := cfg = .virt ∨ cfg = .sifiveU

/-- When a hart finds a process at any clock and dispatches it, the window is right just if the
    entry of the schedule has more time left than the scheduler takes. -/
theorem dispatch_window_iff (hcfg : Bundled cfg)
    (h : (schedStartRound cfg hart mtime).run s = .ok (some d, t))
    (hfit : (d.time.toNat + d.length.toNat) * cfg.ticks < 2 ^ 64) :
    Window cfg d (waitAndSetTimeout cfg d.time d.length d.timeout).1
        (waitAndSetTimeout cfg d.time d.length d.timeout).2 ↔
      cfg.schedulerTicks < (s.entryAt cfg
        ((roundTime cfg mtime).toNat % cfg.nQuantum) hart).length.toNat * cfg.ticks := by
  obtain ⟨htime, hlen, hlate⟩ := round_dispatched h
  rw [← htime, ← hlen]
  rcases hcfg with rfl | rfl
  · exact window_iff (by decide) (by decide) hfit hlate
  · exact window_iff (by decide) (by decide) hfit hlate

/-! ## Two windows of the root process -/

/-- What hart 1 dispatches, just after the boot, with the clock at `mtime`. -/
def virtDispatched (mtime : Word) : Option Dispatched :=
  match (schedStartRound .virt 1 mtime).run virtStart.kernel with
  | .ok (found, _) => found
  | .error _ => none

theorem virtDispatched_run (h : virtDispatched mtime = some d) :
    ∃ t, (schedStartRound .virt 1 mtime).run virtStart.kernel = .ok (some d, t) := by
  unfold virtDispatched at h
  split at h
  · next found t heq => exact ⟨t, by rw [heq, h]⟩
  · cases h

theorem virtDispatched_eq {p : Nat} {time length timeout : Word}
    (h : (virtDispatched mtime).map (fun d => (d.proc, d.time, d.length, d.timeout)) =
      some (p, time, length, timeout)) : virtDispatched mtime = some ⟨p, time, length, timeout⟩ := by
  obtain ⟨d, hd, heq⟩ := Option.map_eq_some_iff.mp h
  cases heq
  exact hd

/-- From the first quantum on, with nearly the whole frame. -/
theorem dispatch_window_virtStart : Window .virt ⟨0, 1, 127, 0⟩
    (waitAndSetTimeout .virt 1 127 0).1 (waitAndSetTimeout .virt 1 127 0).2 := by
  have hd : virtDispatched 0 = some ⟨0, 1, 127, 0⟩ := virtDispatched_eq (by decide +kernel)
  obtain ⟨t, ht⟩ := virtDispatched_run hd
  exact (dispatch_window_iff (Or.inl rfl) ht (by decide)).mpr (by decide +kernel)

/-- In the last quantum of the frame the window ends before it starts. -/
theorem dispatch_window_empty : ∃ s hart mtime d t, Booted .virt s ∧
    (schedStartRound .virt hart mtime).run s.kernel = .ok (some d, t) ∧
      (d.time.toNat + d.length.toNat) * Config.virt.ticks < 2 ^ 64 ∧
      ¬ Window .virt d (waitAndSetTimeout .virt d.time d.length d.timeout).1
        (waitAndSetTimeout .virt d.time d.length d.timeout).2 := by
  have hd : virtDispatched (126 * 781) = some ⟨0, 127, 1, 0⟩ := virtDispatched_eq (by decide +kernel)
  obtain ⟨t, ht⟩ := virtDispatched_run hd
  exact ⟨virtStart, 1, 126 * 781, ⟨0, 127, 1, 0⟩, t, virtStart_booted, ht, by decide,
    fun hw => absurd hw.lt (by decide)⟩

end SepKernel
