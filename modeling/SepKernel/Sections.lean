import SepKernel.Lib.Serial
import SepKernel.Tickets

/-!
# Sections behind a ticket lock

`puts` and `sched_update` acquire a lock, make one access after the other and release it. Here any
number of harts run such a section, every access of the lock and of the data a step of its own, in
any order. What comes of it is what comes of the sections one after the other, in the order of the
fetch-and-adds, and a part of the one that is under way.
-/

namespace SepKernel

open Interleaving Serial
open Transition (Reachable restrict)

/-- Where a hart is with its job. -/
inductive Stage (δ γ : Type) where
  | idle
  | acquiring (j : δ)
  | inside (j : δ) (g : γ)
  | releasing

/-- A hart calls the function that has the section, or goes on by one access, to the lock or to the
    data. -/
inductive Turn (ι δ ω : Type) where
  | call (h : ι) (j : δ)
  | access (h : ι) (o : ω)

/-- `done` has the jobs whose section is over, with the local variables at its end. -/
structure Guarded (ι σ δ γ : Type) where
  lock : LockState ι
  data : σ
  stage : ι → Stage δ γ
  done : List (ι × δ × γ)

namespace Guarded

variable {ι σ δ γ ω : Type}

/-- Nobody has called anything. -/
def Start (d : σ) (s : Guarded ι σ δ γ) : Prop :=
  s.lock.Start ∧ s.data = d ∧ (∀ h, s.stage h = .idle) ∧ s.done = []

variable [DecidableEq ι]

/-- The hart has made an access to the lock. -/
def locked (s : Guarded ι σ δ γ) (h : ι) (lock : LockState ι) (x : Stage δ γ) : Guarded ι σ δ γ :=
  { s with lock := lock, stage := Function.update s.stage h x }

/-- The hart has made an access to the data. -/
def accessed (s : Guarded ι σ δ γ) (h : ι) (d : σ) (x : Stage δ γ) : Guarded ι σ δ γ :=
  { s with data := d, stage := Function.update s.stage h x }

/-- A hart asks for the lock, works while it has it, and gives it back. Only the accesses of the
    lock can make it wait. -/
def step (S : Section σ δ γ ω) (l : Turn ι δ ω) (s : Guarded ι σ δ γ) :
    Option (Guarded ι σ δ γ) :=
  match l with
  | .call h j =>
    match s.stage h with
    | .idle => (LockState.step (.enter h .acquire) s.lock).map fun lock =>
        s.locked h lock (.acquiring j)
    | _ => none
  | .access h o =>
    match s.stage h with
    | .idle => none
    | .acquiring j => (LockState.step (.access h) s.lock).map fun lock =>
        s.locked h lock (if (lock.hart h).inside then .inside j (S.begins j) else .acquiring j)
    | .inside j g =>
      match S.next g with
      | some f => some (s.accessed h (f o s.data).2 (.inside j (f o s.data).1))
      | none => (LockState.step (.enter h .release) s.lock).map fun lock =>
          { s.locked h lock .releasing with done := s.done ++ [(h, j, g)] }
    | .releasing => (LockState.step (.access h) s.lock).map fun lock =>
        s.locked h lock (if (lock.hart h).inside then .releasing else .idle)

/-- The steps that the harts can take. -/
def Step (S : Section σ δ γ ω) (s : Guarded ι σ δ γ) (l : Turn ι δ ω) (s' : Guarded ι σ δ γ) :
    Prop := step S l s = some s'

end Guarded

/-! ## What the lock knows of a stage -/

/-- The stage of a hart and where it stands in the lock. -/
def Stage.Fits {δ γ : Type} (x : LockHart) : Stage δ γ → Prop
  | .idle => x = ⟨.idle, false⟩
  | .acquiring _ => x = ⟨.acquireTicket, false⟩ ∨ ∃ ticket, x = ⟨.acquireSpin ticket, false⟩
  | .inside _ _ => x = ⟨.idle, true⟩
  | .releasing => x = ⟨.releaseLoad, true⟩ ∨ ∃ serving, x = ⟨.releaseStore serving, true⟩

namespace LockState

variable {ι : Type} [DecidableEq ι] {s s' : LockState ι} {h k : ι} {l : Interleaving.Label ι LockOp}

/-- Whose step it is. -/
def agent : Interleaving.Label ι LockOp → ι
  | .enter h _ => h
  | .access h => h

/-- A step moves one hart only. -/
theorem hart_of_ne (hl : s.Step l s') (hk : k ≠ agent l) : s'.hart k = s.hart k := by
  cases step_effect hl <;> exact Function.update_of_ne hk _ _

/-- A hart that was in neither function is now before its fetch-and-add. -/
theorem after_acquire (hl : s.Step (.enter h .acquire) s') (hidle : s.hart h = ⟨.idle, false⟩) :
    s'.hart h = ⟨.acquireTicket, false⟩ ∧ s'.entered = s.entered := by
  cases step_effect hl with
  | acquire hc =>
    obtain rfl := congrArg LockHart.inside (hc.symm.trans hidle)
    exact ⟨Function.update_self _ _ _, rfl⟩

/-- A hart that was inside is now at the load of its release. -/
theorem after_release (hl : s.Step (.enter h .release) s') (hin : s.hart h = ⟨.idle, true⟩) :
    s'.hart h = ⟨.releaseLoad, true⟩ ∧ s'.entered = s.entered := by
  cases step_effect hl with
  | release hc =>
    obtain rfl := congrArg LockHart.inside (hc.symm.trans hin)
    exact ⟨Function.update_self _ _ _, rfl⟩

/-- An access in `lock_acquire`. -/
theorem after_acquiring (hl : s.Step (.access h) s')
    (hc : s.hart h = ⟨.acquireTicket, false⟩ ∨ ∃ ticket, s.hart h = ⟨.acquireSpin ticket, false⟩) :
    (∃ ticket, s'.hart h = ⟨.acquireSpin ticket, false⟩) ∧ s'.entered = s.entered ∨
      s'.hart h = ⟨.idle, true⟩ ∧ s'.entered = s.entered ++ [h] := by
  have hout : (s.hart h).inside = false := by
    obtain hc | ⟨ticket, hc⟩ := hc <;> rw [hc]
  cases step_effect hl with
  | ticket hc =>
    obtain rfl := (congrArg LockHart.inside hc).symm.trans hout
    exact Or.inl ⟨⟨_, Function.update_self _ _ _⟩, rfl⟩
  | spin hc hne =>
    obtain rfl := (congrArg LockHart.inside hc).symm.trans hout
    exact Or.inl ⟨⟨_, Function.update_self _ _ _⟩, rfl⟩
  | served hc => exact Or.inr ⟨Function.update_self _ _ _, rfl⟩
  | load hc' =>
    rw [hc'] at hc
    obtain hc | ⟨ticket, hc⟩ := hc <;> cases hc
  | store hc' =>
    rw [hc'] at hc
    obtain hc | ⟨ticket, hc⟩ := hc <;> cases hc

/-- An access in `lock_release`. -/
theorem after_releasing (hl : s.Step (.access h) s')
    (hc : s.hart h = ⟨.releaseLoad, true⟩ ∨ ∃ serving, s.hart h = ⟨.releaseStore serving, true⟩) :
    ((∃ serving, s'.hart h = ⟨.releaseStore serving, true⟩) ∨ s'.hart h = ⟨.idle, false⟩) ∧
      s'.entered = s.entered := by
  cases step_effect hl with
  | load hc' =>
    have hin : (s.hart h).inside = true := by
      obtain hc | ⟨serving, hc⟩ := hc <;> rw [hc]
    obtain rfl := (congrArg LockHart.inside hc').symm.trans hin
    exact ⟨Or.inl ⟨_, Function.update_self _ _ _⟩, rfl⟩
  | store hc' => exact ⟨Or.inr (Function.update_self _ _ _), rfl⟩
  | ticket hc' =>
    rw [hc'] at hc
    obtain hc | ⟨serving, hc⟩ := hc <;> cases hc
  | spin hc' hne =>
    rw [hc'] at hc
    obtain hc | ⟨serving, hc⟩ := hc <;> cases hc
  | served hc' =>
    rw [hc'] at hc
    obtain hc | ⟨serving, hc⟩ := hc <;> cases hc

end LockState

/-! ## Serial -/

namespace Guarded

variable {ι σ δ γ ω : Type} [DecidableEq ι] {S : Section σ δ γ ω} {d d' : σ}
  {s s' : Guarded ι σ δ γ} {l : Turn ι δ ω} {h k : ι} {lock : LockState ι}

/-- Everything a step can do. -/
inductive Effect (S : Section σ δ γ ω) (s : Guarded ι σ δ γ) : Turn ι δ ω → Guarded ι σ δ γ → Prop where
  | call {h : ι} {j : δ} {lock : LockState ι} (hs : s.stage h = .idle)
      (hl : s.lock.Step (.enter h .acquire) lock) :
      Effect S s (.call h j) (s.locked h lock (.acquiring j))
  | acquire {h : ι} {j : δ} {o : ω} {lock : LockState ι} (hs : s.stage h = .acquiring j)
      (hl : s.lock.Step (.access h) lock) :
      Effect S s (.access h o) (s.locked h lock
        (if (lock.hart h).inside then .inside j (S.begins j) else .acquiring j))
  | data {h : ι} {j : δ} {g : γ} {o : ω} {f : ω → σ → γ × σ} (hs : s.stage h = .inside j g)
      (hf : S.next g = some f) :
      Effect S s (.access h o) (s.accessed h (f o s.data).2 (.inside j (f o s.data).1))
  | finish {h : ι} {j : δ} {g : γ} {o : ω} {lock : LockState ι} (hs : s.stage h = .inside j g)
      (hg : S.next g = none) (hl : s.lock.Step (.enter h .release) lock) :
      Effect S s (.access h o) { s.locked h lock .releasing with done := s.done ++ [(h, j, g)] }
  | release {h : ι} {o : ω} {lock : LockState ι} (hs : s.stage h = .releasing)
      (hl : s.lock.Step (.access h) lock) :
      Effect S s (.access h o) (s.locked h lock
        (if (lock.hart h).inside then .releasing else .idle))

/-- All that a step can do to the lock, the shared data and the calls. -/
theorem step_effect (hl : Step S s l s') : Effect S s l s' := by
  cases l with
  | call h j =>
    simp only [Step, step] at hl
    split at hl
    · next hs =>
      obtain ⟨lock, hlock, rfl⟩ := Option.map_eq_some_iff.mp hl
      exact .call hs hlock
    · cases hl
  | access h o =>
    simp only [Step, step] at hl
    split at hl
    · cases hl
    · next j hs =>
      obtain ⟨lock, hlock, rfl⟩ := Option.map_eq_some_iff.mp hl
      exact .acquire hs hlock
    · next j g hs =>
      split at hl
      · next f hf =>
        obtain rfl := Option.some.inj hl
        exact .data hs hf
      · next hg =>
        obtain ⟨lock, hlock, rfl⟩ := Option.map_eq_some_iff.mp hl
        exact .finish hs hg hlock
    · next hs =>
      obtain ⟨lock, hlock, rfl⟩ := Option.map_eq_some_iff.mp hl
      exact .release hs hlock

/-- What the harts have done with the data: the jobs that are over, and the part of one that a hart
    has got to. -/
inductive Progress (S : Section σ δ γ ω) (d : σ) (s : Guarded ι σ δ γ) : Prop where
  | free (hnone : ∀ h j g, s.stage h ≠ .inside j g)
      (hserial : S.DoesAll d (s.done.map Prod.snd) s.data)
      (hentered : s.lock.entered = s.done.map Prod.fst)
  | busy (h : ι) (j : δ) (g : γ) (d' : σ) (hs : s.stage h = .inside j g)
      (hserial : S.DoesAll d (s.done.map Prod.snd) d') (hruns : S.Runs j d' g s.data)
      (hentered : s.lock.entered = s.done.map Prod.fst ++ [h])

/-- The lock is used as it is meant to be, every hart is where the lock has it, and what has been
    done is serial so far. -/
structure Serially (S : Section σ δ γ ω) (d : σ) (s : Guarded ι σ δ γ) : Prop where
  lock : Reachable LockState.Start (restrict LockState.Step LockState.Usage) s.lock
  fits : ∀ h, (s.stage h).Fits (s.lock.hart h)
  progress : Progress S d s

/-- Nobody has done anything yet. -/
theorem serially_of_start (hs : s.Start d) : Serially S d s := by
  obtain ⟨hlock, rfl, hidle, hdone⟩ := hs
  refine ⟨.start hlock, fun h => ?_, .free (fun h j g => ?_) ?_ ?_⟩
  · rw [hidle h]
    exact hlock.2.2.1 h
  · rw [hidle h]
    nofun
  · rw [hdone]
    exact .nil
  · rw [hdone]
    exact hlock.2.2.2.2

omit [DecidableEq ι] in
/-- A step that neither begins nor ends a section, nor makes an access in one. -/
theorem Progress.congr (h : Progress S d s) (hdata : s'.data = s.data) (hdone : s'.done = s.done)
    (hentered : s'.lock.entered = s.lock.entered)
    (hstage : ∀ k j g, s'.stage k = .inside j g ↔ s.stage k = .inside j g) : Progress S d s' := by
  cases h with
  | free hnone hserial he =>
    refine .free (fun k j g hk => hnone k j g ((hstage k j g).mp hk)) ?_ ?_
    · rw [hdone, hdata]
      exact hserial
    · rw [hentered, hdone]
      exact he
  | busy k j g d' hs hserial hruns he =>
    refine .busy k j g d' ((hstage k j g).mpr hs) (hdone ▸ hserial) (hdata ▸ hruns) ?_
    rw [hentered, hdone]
    exact he

theorem inside_locked {x : Stage δ γ} (hx : ∀ j g, x ≠ .inside j g)
    (hs : ∀ j g, s.stage h ≠ .inside j g) (k : ι) (j : δ) (g : γ) :
    (s.locked h lock x).stage k = .inside j g ↔ s.stage k = .inside j g := by
  by_cases hk : k = h
  · subst hk
    simp only [locked, Function.update_self]
    exact iff_of_false (hx j g) (hs j g)
  · simp only [locked, Function.update_of_ne hk]

namespace Serially

/-- The stage of the hart that moves, and of the others. -/
theorem fits_locked {x : Stage δ γ} {l : Interleaving.Label ι LockOp} (hI : Serially S d s)
    (hl : s.lock.Step l lock) (hx : x.Fits (lock.hart (LockState.agent l))) (k : ι) :
    ((s.locked (LockState.agent l) lock x).stage k).Fits (lock.hart k) := by
  by_cases hk : k = LockState.agent l
  · rw [hk]
    simp only [locked, Function.update_self]
    exact hx
  · simp only [locked, Function.update_of_ne hk]
    rw [LockState.hart_of_ne hl hk]
    exact hI.fits k

/-- A hart in its section has acquired the lock. -/
theorem hart_eq {j : δ} {g : γ} (hI : Serially S d s) (hs : s.stage h = .inside j g) :
    s.lock.hart h = ⟨.idle, true⟩ := by
  have hfits := hI.fits h
  rwa [hs] at hfits

variable [Fintype ι]

/-- So at most one hart is in its section. -/
theorem unique {j j' : δ} {g g' : γ} (hI : Serially S d s) (hcard : Fintype.card ι < 2 ^ 32)
    (hs : s.stage h = .inside j g) (hs' : s.stage k = .inside j' g') : h = k := by
  obtain ⟨f, -, hf⟩ := LockState.refines hcard hI.lock
  have hh := (hf.inside h).mp (congrArg LockHart.inside (hI.hart_eq hs))
  have hk := (hf.inside k).mp (congrArg LockHart.inside (hI.hart_eq hs'))
  exact Option.some.inj (hh.symm.trans hk)

/-- The part of the section that a hart is in. -/
theorem busy {j : δ} {g : γ} (hI : Serially S d s) (hcard : Fintype.card ι < 2 ^ 32)
    (hs : s.stage h = .inside j g) : ∃ d', S.DoesAll d (s.done.map Prod.snd) d' ∧
      S.Runs j d' g s.data ∧ s.lock.entered = s.done.map Prod.fst ++ [h] := by
  cases hI.progress with
  | free hnone _ _ => exact absurd hs (hnone h j g)
  | busy k j' g' d' hs' hserial hruns hentered =>
    obtain rfl := hI.unique hcard hs hs'
    cases hs.symm.trans hs'
    exact ⟨d', hserial, hruns, hentered⟩

/-- Nobody is in a section when a hart gets in. -/
theorem free {j : δ} (hI : Serially S d s) (hcard : Fintype.card ι < 2 ^ 32)
    (hs : s.stage h = .acquiring j) (hl : s.lock.Step (.access h) lock)
    (hin : (lock.hart h).inside = true) :
    S.DoesAll d (s.done.map Prod.snd) s.data ∧ s.lock.entered = s.done.map Prod.fst := by
  cases hI.progress with
  | free _ hserial hentered => exact ⟨hserial, hentered⟩
  | busy k j' g' d' hs' _ _ _ =>
    have hne : k ≠ h := fun e => by
      rw [e, hs] at hs'
      cases hs'
    have hk : (lock.hart k).inside = true := by
      rw [LockState.hart_of_ne hl hne, hI.hart_eq hs']
    obtain ⟨f, -, hf⟩ := LockState.refines hcard (hI.lock.step ⟨hl, trivial⟩)
    exact absurd (Option.some.inj (((hf.inside k).mp hk).symm.trans ((hf.inside h).mp hin))) hne

theorem step (hI : Serially S d s) (hcard : Fintype.card ι < 2 ^ 32) (hl : Step S s l s') :
    Serially S d s' := by
  cases step_effect hl with
  | @call h j lock hs hlock =>
    have hfits := hI.fits h
    rw [hs] at hfits
    obtain ⟨hhart, hentered⟩ := LockState.after_acquire hlock hfits
    refine ⟨hI.lock.step ⟨hlock, trivial⟩, hI.fits_locked hlock (Or.inl hhart), ?_⟩
    refine hI.progress.congr rfl rfl hentered (inside_locked nofun fun j g => ?_)
    rw [hs]
    nofun
  | @acquire h j o lock hs hlock =>
    have hfits := hI.fits h
    rw [hs] at hfits
    have hlock' := hI.lock.step ⟨hlock, trivial⟩
    rcases LockState.after_acquiring hlock hfits with ⟨⟨ticket, hhart⟩, hentered⟩ | ⟨hhart, hentered⟩
    · rw [hhart]
      refine ⟨hlock', hI.fits_locked hlock (Or.inr ⟨ticket, hhart⟩), ?_⟩
      refine hI.progress.congr rfl rfl hentered (inside_locked nofun fun j g => ?_)
      rw [hs]
      nofun
    · rw [hhart]
      refine ⟨hlock', hI.fits_locked hlock hhart, ?_⟩
      obtain ⟨hserial, he⟩ := hI.free hcard hs hlock (congrArg LockHart.inside hhart)
      refine .busy h j (S.begins j) s.data (Function.update_self _ _ _) hserial (.refl j s.data) ?_
      exact hentered.trans (congrArg (· ++ [h]) he)
  | @data h j g o f hs hf =>
    obtain ⟨d', hserial, hruns, hentered⟩ := hI.busy hcard hs
    refine ⟨hI.lock, fun k => ?_, .busy h j _ d' (Function.update_self _ _ _) hserial
      (hruns.access hf o) hentered⟩
    by_cases hk : k = h
    · subst hk
      simp only [accessed, Function.update_self]
      exact hI.hart_eq hs
    · simp only [accessed, Function.update_of_ne hk]
      exact hI.fits k
  | @finish h j g o lock hs hg hlock =>
    have hhart := hI.hart_eq hs
    obtain ⟨d', hserial, hruns, hentered⟩ := hI.busy hcard hs
    obtain ⟨hhart', hentered'⟩ := LockState.after_release hlock hhart
    have hlock' := hI.lock.step ⟨hlock, congrArg LockHart.inside hhart⟩
    refine ⟨hlock', hI.fits_locked hlock (Or.inl hhart'), .free (fun k j' g' hk => ?_) ?_ ?_⟩
    · by_cases hne : k = h
      · subst hne
        simp only [locked, Function.update_self] at hk
        cases hk
      · simp only [locked, Function.update_of_ne hne] at hk
        exact hne (hI.unique hcard hk hs)
    · simp only [List.map_append]
      exact .snoc hserial ⟨hruns, hg⟩
    · simp only [List.map_append]
      exact hentered'.trans hentered
  | @release h o lock hs hlock =>
    have hfits := hI.fits h
    rw [hs] at hfits
    obtain ⟨hhart, hentered⟩ := LockState.after_releasing hlock hfits
    have hnot : ∀ j g, s.stage h ≠ .inside j g := fun j g => by
      rw [hs]
      nofun
    have hlock' := hI.lock.step ⟨hlock, trivial⟩
    rcases hhart with ⟨serving, hhart⟩ | hhart
    · rw [hhart]
      exact ⟨hlock', hI.fits_locked hlock (Or.inr ⟨serving, hhart⟩),
        hI.progress.congr rfl rfl hentered (inside_locked nofun hnot)⟩
    · rw [hhart]
      exact ⟨hlock', hI.fits_locked hlock hhart,
        hI.progress.congr rfl rfl hentered (inside_locked nofun hnot)⟩

end Serially

/-- In every run, the data is what the jobs that are over have made of it one after the other, and
    a part of the one that a hart is in. -/
theorem serially [Fintype ι] (hcard : Fintype.card ι < 2 ^ 32)
    (hr : Reachable (Start d) (Step S) s) : Serially S d s :=
  hr.invariant (fun _ hs => serially_of_start hs) fun _ _ _ hI hl => hI.step hcard hl

/-- The jobs are over in the order of the fetch-and-adds. -/
theorem Serially.asked [Fintype ι] (hcard : Fintype.card ι < 2 ^ 32) (hI : Serially S d s) :
    s.done.map Prod.fst <+: s.lock.asked := by
  obtain ⟨f, -, hf⟩ := LockState.refines hcard hI.lock
  have hentered : s.lock.entered <+: s.lock.asked := by
    rw [hf.entered, hf.asked]
    exact f.entered_prefix
  refine List.IsPrefix.trans ?_ hentered
  cases hI.progress with
  | free _ _ he => exact he ▸ List.prefix_refl _
  | busy h j g d' _ _ _ he => exact he ▸ List.prefix_append _ _

end Guarded

end SepKernel
