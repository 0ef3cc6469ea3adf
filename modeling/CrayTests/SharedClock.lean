import Mathlib.Tactic

/-!
# The shared clock

`ct_start_clock` and `ct_stop_clock` of `ct_utils.h` as a machine. Any number of threads call
`ct_start_clock`, which takes one access or one call of the thread library at a time;
`ct_stop_clock` is called when all of them have returned, and ends a phase.

`calls` and `starts` record history and are read by no step: how often `ct_start_clock` was called
in the phase, and how often `start` was assigned.
-/

namespace CrayTests.SharedClock

inductive Mutex
  | uninit
  | unlocked
  | locked
deriving DecidableEq

inductive Pc
  | outside
  | testInit
  | initLock
  | setInit
  | lock
  | testStarted
  | assignStart
  | assignStarted
  | unlock
  | unlockFailed
deriving DecidableEq

structure State (ι : Type) where
  isClockLockInit : Bool
  clockLock : Mutex
  clockStarted : Bool
  pc : ι → Pc
  calls : ℕ := 0
  starts : ℕ := 0

variable {ι : Type}

def initial : State ι where
  isClockLockInit := false
  clockLock := .uninit
  clockStarted := false
  pc := fun _ => .outside

def Mutex.unlock : Mutex → Mutex
  | .uninit => .uninit
  | _ => .unlocked

/-- `ct_stop_clock`, or nothing where it blocks. -/
def ctStopClock (s : State ι) : Option (State ι) :=
  let destroy (s : State ι) : State ι :=
    if s.isClockLockInit then { s with clockLock := .uninit, isClockLockInit := false } else s
  match s.clockLock with
  | .locked => none
  | .unlocked => some (destroy { s with clockStarted := false, calls := 0, starts := 0 })
  | .uninit => some (destroy { s with calls := 0, starts := 0 })

section

variable [DecidableEq ι]

def State.goto (s : State ι) (t : ι) (pc : Pc) : State ι :=
  { s with pc := Function.update s.pc t pc }

/-- Thread `t` executes its next statement of `ct_start_clock`, or nothing where it blocks.
`pthread_mutex_init` leaves the mutex unlocked, whoever holds it. A thread that waited may then go
on, where a real one can have lost its wake-up. -/
def ctStartClock (s : State ι) (t : ι) : Option (State ι) :=
  match s.pc t with
  | .outside => some ({ s with calls := s.calls + 1 }.goto t .testInit)
  | .testInit => some (s.goto t (if s.isClockLockInit then .lock else .initLock))
  | .initLock => some ({ s with clockLock := .unlocked }.goto t .setInit)
  | .setInit => some ({ s with isClockLockInit := true }.goto t .lock)
  | .lock =>
    match s.clockLock with
    | .locked => none
    | .unlocked => some ({ s with clockLock := .locked }.goto t .testStarted)
    | .uninit => some (s.goto t .unlockFailed)
  | .testStarted => some (s.goto t (if s.clockStarted then .unlock else .assignStart))
  | .assignStart => some ({ s with starts := s.starts + 1 }.goto t .assignStarted)
  | .assignStarted => some ({ s with clockStarted := true }.goto t .unlock)
  | .unlock => some ({ s with clockLock := s.clockLock.unlock }.goto t .outside)
  | .unlockFailed => some ({ s with clockLock := s.clockLock.unlock }.goto t .outside)

/-- The states of the runs whose statements all meet `ok`. -/
inductive Run (ok : State ι → ι → Prop) : State ι → Prop
  | initial : Run ok initial
  | start {s s' : State ι} {t : ι} (h : Run ok s) (hok : ok s t)
      (hstep : ctStartClock s t = some s') : Run ok s'
  | stop {s s' : State ι} (h : Run ok s) (hout : ∀ t, s.pc t = .outside)
      (hstep : ctStopClock s = some s') : Run ok s'

end

def Pc.Holds : Pc → Prop
  | .testStarted | .assignStart | .assignStarted | .unlock => True
  | _ => False

instance (pc : Pc) : Decidable pc.Holds :=
  match pc with
  | .testStarted | .assignStart | .assignStarted | .unlock => isTrue trivial
  | .outside | .testInit | .initLock | .setInit | .lock | .unlockFailed => isFalse id

/-- At most one thread holds the lock, and `start` is assigned once in every phase with a call. -/
structure Safe (s : State ι) : Prop where
  exclusive : ∀ t u, (s.pc t).Holds → (s.pc u).Holds → t = u
  starts_le : s.starts ≤ 1
  starts_eq : (∀ t, s.pc t = .outside) → s.calls ≠ 0 → s.starts = 1

/-- `pthread_mutex_init` is not executed while a thread holds the lock. -/
def QuietInit (s : State ι) (t : ι) : Prop :=
  s.pc t = .initLock → ∀ u, ¬ (s.pc u).Holds

instance [Fintype ι] (s : State ι) (t : ι) : Decidable (QuietInit s t) :=
  inferInstanceAs (Decidable (s.pc t = .initLock → ∀ u, ¬ (s.pc u).Holds))

def Pc.Knows (s : State ι) : Pc → Prop
  | .outside | .testInit | .initLock => True
  | .setInit | .lock => s.clockLock ≠ .uninit
  | .testStarted => s.clockLock = .locked
  | .assignStart => s.clockLock = .locked ∧ ¬ s.clockStarted ∧ s.starts = 0
  | .assignStarted => s.clockLock = .locked ∧ ¬ s.clockStarted ∧ s.starts = 1
  | .unlock => s.clockLock = .locked ∧ s.clockStarted
  | .unlockFailed => False

structure Inv (s : State ι) : Prop where
  exclusive : ∀ t u, (s.pc t).Holds → (s.pc u).Holds → t = u
  knows : ∀ t, (s.pc t).Knows s
  flag : s.isClockLockInit → s.clockLock ≠ .uninit
  started : s.clockStarted → s.clockLock ≠ .uninit ∧ s.starts = 1
  not_started : ¬ s.clockStarted → (∀ t, s.pc t ≠ .assignStarted) → s.starts = 0
  called : s.calls ≠ 0 → s.clockStarted ∨ ∃ t, s.pc t ≠ .outside

variable {s s' : State ι} {t u : ι}

theorem Inv.safe (h : Inv s) : Safe s where
  exclusive := h.exclusive
  starts_le := by
    by_cases hs : s.clockStarted
    · exact (h.started hs).2.le
    · by_cases hpc : ∃ t, s.pc t = .assignStarted
      · obtain ⟨t, ht⟩ := hpc
        have hknows := h.knows t
        rw [ht] at hknows
        exact hknows.2.2.le
      · rw [h.not_started hs fun t ht => hpc ⟨t, ht⟩]
        exact Nat.zero_le _
  starts_eq := by
    intro hout hcalls
    rcases h.called hcalls with hs | ⟨t, ht⟩
    · exact (h.started hs).2
    · exact absurd (hout t) ht

theorem Inv.locked (h : Inv s) (hholds : (s.pc t).Holds) : s.clockLock = .locked := by
  have hknows := h.knows t
  cases hpc : s.pc t <;> rw [hpc] at hholds hknows <;>
    first | exact hholds.elim | exact hknows | exact hknows.1

/-- Between two phases. -/
theorem inv_of_outside (hout : ∀ t, s.pc t = .outside)
    (hflag : s.isClockLockInit → s.clockLock ≠ .uninit) (hstopped : s.clockStarted = false)
    (hcalls : s.calls = 0) (hstarts : s.starts = 0) : Inv s where
  exclusive t _ ht := by
    rw [hout t] at ht
    exact ht.elim
  knows t := by
    rw [hout t]
    trivial
  flag := hflag
  started hs := by
    rw [hstopped] at hs
    cases hs
  not_started _ _ := hstarts
  called hc := absurd hcalls hc

theorem inv_initial : Inv (initial : State ι) :=
  inv_of_outside (fun _ => rfl) (fun h => absurd h Bool.false_ne_true) rfl rfl rfl

theorem Inv.stop (h : Inv s) (hout : ∀ t, s.pc t = .outside) (hstep : ctStopClock s = some s') :
    Inv s' := by
  unfold ctStopClock at hstep
  cases hl : s.clockLock with
  | locked =>
    rw [hl] at hstep
    cases hstep
  | unlocked =>
    rw [hl] at hstep
    obtain rfl := Option.some.inj hstep
    dsimp only
    split_ifs with hflag
    · exact inv_of_outside hout (fun hf => absurd hf Bool.false_ne_true) rfl rfl rfl
    · exact inv_of_outside hout (fun hf => absurd hf hflag) rfl rfl rfl
  | uninit =>
    rw [hl] at hstep
    obtain rfl := Option.some.inj hstep
    have hflag : ¬ s.isClockLockInit := fun hf => h.flag hf hl
    have hstopped : s.clockStarted = false := by
      by_contra hs
      exact (h.started (by simpa using hs)).1 hl
    dsimp only
    rw [if_neg hflag]
    exact inv_of_outside hout (fun hf => absurd hf hflag) hstopped rfl rfl

/-- The others do not hold the lock while thread `t` does. -/
theorem Inv.alone (h : Inv s) (hholds : (s.pc t).Holds) (u : ι) (hu : u ≠ t) :
    ¬ (s.pc u).Holds := fun hu' => hu (h.exclusive u t hu' hholds)

/-- A thread that does not hold the lock only knows that it was initialised. -/
theorem Pc.Knows.of_not_holds {pc : Pc} {s₁ : State ι} (hk : pc.Knows s) (hn : ¬ pc.Holds)
    (hl : s.clockLock ≠ .uninit → s₁.clockLock ≠ .uninit) : pc.Knows s₁ := by
  cases pc <;> first | trivial | exact hl hk

variable [DecidableEq ι]

@[simp] theorem goto_pc (s : State ι) (t u : ι) (pc : Pc) :
    (s.goto t pc).pc u = if u = t then pc else s.pc u := Function.update_apply _ _ _ _

@[simp] theorem knows_goto (s : State ι) (t : ι) (pc pc' : Pc) :
    pc'.Knows (s.goto t pc) ↔ pc'.Knows s := by
  cases pc' <;> rfl

/-- The invariant after the shared variables became those of `s₁` and thread `t` went to `pc`. -/
theorem Inv.goto (h : Inv s) {s₁ : State ι} {pc : Pc} (hpc : s₁.pc = s.pc)
    (hexclusive : pc.Holds → ∀ u, u ≠ t → ¬ (s.pc u).Holds) (hself : pc.Knows s₁)
    (hothers : ∀ u, u ≠ t → (s.pc u).Knows s₁)
    (hflag : s₁.isClockLockInit → s₁.clockLock ≠ .uninit)
    (hstarted : s₁.clockStarted → s₁.clockLock ≠ .uninit ∧ s₁.starts = 1)
    (hnot_started : ¬ s₁.clockStarted → pc ≠ .assignStarted →
      (∀ u, u ≠ t → s.pc u ≠ .assignStarted) → s₁.starts = 0)
    (hcalled : s₁.calls ≠ 0 → s₁.clockStarted ∨ pc ≠ .outside) :
    Inv (s₁.goto t pc) where
  exclusive := by
    intro u v hu hv
    simp only [goto_pc, hpc] at hu hv
    split_ifs at hu hv with hut hvt hvt
    · rw [hut, hvt]
    · exact absurd hv (hexclusive hu v hvt)
    · exact absurd hu (hexclusive hv u hut)
    · exact h.exclusive u v hu hv
  knows := by
    intro u
    rw [knows_goto, goto_pc, hpc]
    split_ifs with hut
    · exact hself
    · exact hothers u hut
  flag := hflag
  started := hstarted
  not_started := by
    intro hs hnone
    refine hnot_started hs ?_ fun u hu => ?_
    · simpa using hnone t
    · simpa [hu, hpc] using hnone u
  called := by
    intro hc
    rcases hcalled hc with hs | hout
    · exact .inl hs
    · exact .inr ⟨t, by simpa using hout⟩

/-- While `t` does not assign `start`, who does is another thread. -/
theorem Inv.starts_eq_zero (h : Inv s) (hne : s.pc t ≠ .assignStarted) (hs : ¬ s.clockStarted)
    (hnone : ∀ u, u ≠ t → s.pc u ≠ .assignStarted) : s.starts = 0 := by
  refine h.not_started hs fun u => ?_
  by_cases hu : u = t
  · rw [hu]
    exact hne
  · exact hnone u hu

/-- A statement that changes no shared variable. -/
theorem Inv.move (h : Inv s) {pc : Pc} (hne : s.pc t ≠ .assignStarted)
    (hexclusive : pc.Holds → ∀ u, u ≠ t → ¬ (s.pc u).Holds) (hself : pc.Knows s)
    (hout : pc ≠ .outside) : Inv (s.goto t pc) :=
  h.goto rfl hexclusive hself (fun u _ => h.knows u) h.flag h.started
    (fun hs _ => h.starts_eq_zero hne hs) fun _ => .inr hout

theorem Inv.outside (h : Inv s) (hpc : s.pc t = .outside) :
    Inv ({ s with calls := s.calls + 1 }.goto t .testInit) :=
  h.goto rfl (fun hf => hf.elim) trivial (fun u _ => h.knows u) h.flag h.started
    (fun hs _ => h.starts_eq_zero (by simp [hpc]) hs) fun _ => .inr nofun

theorem Inv.testInit (h : Inv s) (hpc : s.pc t = .testInit) :
    Inv (s.goto t (if s.isClockLockInit then .lock else .initLock)) := by
  refine h.move (by simp [hpc]) ?_ ?_ ?_
  · split_ifs <;> exact fun hf => hf.elim
  · split_ifs with hflag
    · exact h.flag hflag
    · trivial
  · split_ifs <;> decide

theorem Inv.initLock (h : Inv s) (hpc : s.pc t = .initLock) (hnone : ∀ u, ¬ (s.pc u).Holds) :
    Inv ({ s with clockLock := .unlocked }.goto t .setInit) := by
  have hne : Mutex.unlocked ≠ .uninit := by decide
  exact h.goto rfl (fun hf => hf.elim) hne
    (fun u _ => (h.knows u).of_not_holds (hnone u) fun _ => hne) (fun _ => hne)
    (fun hs => ⟨hne, (h.started hs).2⟩)
    (fun hs _ => h.starts_eq_zero (by simp [hpc]) hs) fun _ => .inr nofun

theorem Inv.setInit (h : Inv s) (hpc : s.pc t = .setInit) :
    Inv ({ s with isClockLockInit := true }.goto t .lock) := by
  have hknows := h.knows t
  rw [hpc] at hknows
  refine h.goto rfl (fun hf => hf.elim) hknows (fun u _ => ?_) (fun _ => hknows) h.started
    (fun hs _ => h.starts_eq_zero (by simp [hpc]) hs) fun _ => .inr nofun
  have := h.knows u
  cases hu : s.pc u <;> rw [hu] at this <;> exact this

theorem Inv.lock (h : Inv s) (hpc : s.pc t = .lock) (hl : s.clockLock = .unlocked) :
    Inv ({ s with clockLock := .locked }.goto t .testStarted) := by
  have hne : Mutex.locked ≠ .uninit := by decide
  have hnone (u : ι) : ¬ (s.pc u).Holds := by
    intro hu
    have := h.locked hu
    rw [hl] at this
    cases this
  exact h.goto rfl (fun _ u _ => hnone u) rfl
    (fun u _ => (h.knows u).of_not_holds (hnone u) fun _ => hne) (fun _ => hne)
    (fun hs => ⟨hne, (h.started hs).2⟩)
    (fun hs _ => h.starts_eq_zero (by simp [hpc]) hs) fun _ => .inr nofun

theorem Inv.testStarted (h : Inv s) (hpc : s.pc t = .testStarted) :
    Inv (s.goto t (if s.clockStarted then .unlock else .assignStart)) := by
  have hknows := h.knows t
  rw [hpc] at hknows
  have hne : s.pc t ≠ .assignStarted := by rw [hpc]; decide
  have halone := h.alone (t := t) (by rw [hpc]; trivial)
  refine h.move hne (fun _ => halone) ?_ ?_
  · split_ifs with hs
    · exact ⟨hknows, hs⟩
    · refine ⟨hknows, hs, h.starts_eq_zero hne hs fun u hu hpu => ?_⟩
      exact halone u hu (by rw [hpu]; trivial)
  · split_ifs <;> decide

theorem Inv.assignStart (h : Inv s) (hpc : s.pc t = .assignStart) :
    Inv ({ s with starts := s.starts + 1 }.goto t .assignStarted) := by
  have hknows := h.knows t
  rw [hpc] at hknows
  obtain ⟨hl, hs, hstarts⟩ := hknows
  have halone := h.alone (t := t) (by rw [hpc]; trivial)
  exact h.goto rfl (fun _ => halone) ⟨hl, hs, by simp [hstarts]⟩
    (fun u hu => (h.knows u).of_not_holds (halone u hu) id) h.flag
    (fun hs' => absurd hs' hs) (fun _ hne => absurd rfl hne) fun _ => .inr nofun

theorem Inv.assignStarted (h : Inv s) (hpc : s.pc t = .assignStarted) :
    Inv ({ s with clockStarted := true }.goto t .unlock) := by
  have hknows := h.knows t
  rw [hpc] at hknows
  obtain ⟨hl, hs, hstarts⟩ := hknows
  have halone := h.alone (t := t) (by rw [hpc]; trivial)
  have hne : s.clockLock ≠ .uninit := by rw [hl]; decide
  exact h.goto rfl (fun _ => halone) ⟨hl, rfl⟩
    (fun u hu => (h.knows u).of_not_holds (halone u hu) id) (fun _ => hne)
    (fun _ => ⟨hne, hstarts⟩) (fun hs' => absurd rfl hs') fun _ => .inr nofun

theorem Inv.unlock (h : Inv s) (hpc : s.pc t = .unlock) :
    Inv ({ s with clockLock := s.clockLock.unlock }.goto t .outside) := by
  have hknows := h.knows t
  rw [hpc] at hknows
  obtain ⟨hl, hs⟩ := hknows
  have halone := h.alone (t := t) (by rw [hpc]; trivial)
  have hne : s.clockLock.unlock ≠ .uninit := by rw [hl]; decide
  exact h.goto rfl (fun hf => hf.elim) trivial
    (fun u hu => (h.knows u).of_not_holds (halone u hu) fun _ => hne) (fun _ => hne)
    (fun _ => ⟨hne, (h.started hs).2⟩) (fun hs' => absurd hs hs') fun _ => .inl hs

omit [DecidableEq ι] in
theorem Inv.of_some {s₁ : State ι} (h : Inv s₁) (hstep : some s₁ = some s') : Inv s' := by
  obtain rfl := Option.some.inj hstep
  exact h

theorem Inv.start (h : Inv s) (hquiet : QuietInit s t) (hstep : ctStartClock s t = some s') :
    Inv s' := by
  unfold ctStartClock at hstep
  have hknows := h.knows t
  cases hpc : s.pc t with
  | outside => exact (h.outside hpc).of_some (by simpa only [hpc] using hstep)
  | testInit => exact (h.testInit hpc).of_some (by simpa only [hpc] using hstep)
  | initLock => exact (h.initLock hpc (hquiet hpc)).of_some (by simpa only [hpc] using hstep)
  | setInit => exact (h.setInit hpc).of_some (by simpa only [hpc] using hstep)
  | lock =>
    simp only [hpc] at hstep hknows
    cases hl : s.clockLock with
    | locked =>
      rw [hl] at hstep
      cases hstep
    | uninit => exact absurd hl hknows
    | unlocked =>
      rw [hl] at hstep
      exact (h.lock hpc hl).of_some hstep
  | testStarted => exact (h.testStarted hpc).of_some (by simpa only [hpc] using hstep)
  | assignStart => exact (h.assignStart hpc).of_some (by simpa only [hpc] using hstep)
  | assignStarted => exact (h.assignStarted hpc).of_some (by simpa only [hpc] using hstep)
  | unlock => exact (h.unlock hpc).of_some (by simpa only [hpc] using hstep)
  | unlockFailed =>
    rw [hpc] at hknows
    exact hknows.elim

theorem inv_of_run {ok : State ι → ι → Prop}
    (hquiet : ∀ s t, Run ok s → ok s t → QuietInit s t) (h : Run ok s) : Inv s := by
  induction h with
  | initial => exact inv_initial
  | start hrun hok hstep ih => exact ih.start (hquiet _ _ hrun hok) hstep
  | stop _ hout hstep ih => exact ih.stop hout hstep

/-- In every run in which the lock is only initialised while no thread holds it, one thread at a
time holds it, and `start` is assigned once in every phase. -/
theorem safe_of_quietInit {ι : Type} [DecidableEq ι] (s : State ι) (h : Run QuietInit s) :
    Safe s :=
  (inv_of_run (fun _ _ _ hok => hok) h).safe

/-- The threads of the list execute one statement each, as long as these meet `ok`. -/
def schedule (ok : State ι → ι → Prop) [∀ s t, Decidable (ok s t)] :
    State ι → List ι → Option (State ι)
  | s, [] => some s
  | s, t :: ts => if ok s t then (ctStartClock s t).bind (schedule ok · ts) else none

theorem Run.schedule {ok : State ι → ι → Prop} [∀ s t, Decidable (ok s t)] {ts : List ι}
    (h : Run ok s) (hrun : schedule ok s ts = some s') : Run ok s' := by
  induction ts generalizing s with
  | nil =>
    obtain rfl := Option.some.inj hrun
    exact h
  | cons t ts ih =>
    rw [SharedClock.schedule] at hrun
    split_ifs at hrun with hok
    obtain ⟨s₁, hstep, hrest⟩ := Option.bind_eq_some_iff.mp hrun
    exact ih (h.start hok hstep) hrest

/-- A thread that initialises the lock while another one holds it can take it too. -/
theorem two_holders_of_initLock {ok : State ι → ι → Prop} [∀ s t, Decidable (ok s t)]
    (hok : ok s t) (hfree : ∀ s t, s.pc t ≠ .initLock → ok s t) (hinit : s.pc t = .initLock)
    (hholds : (s.pc u).Holds) :
    ∃ s', schedule ok s [t, t, t] = some s' ∧ (s'.pc t).Holds ∧ (s'.pc u).Holds := by
  have hut : u ≠ t := by
    rintro rfl
    rw [hinit] at hholds
    exact hholds
  let s₁ := { s with clockLock := .unlocked }.goto t .setInit
  let s₂ := { s₁ with isClockLockInit := true }.goto t .lock
  let s₃ := { s₂ with clockLock := .locked }.goto t .testStarted
  have hstep : ctStartClock s t = some s₁ := by simp [ctStartClock, hinit, s₁]
  have hstep₁ : ctStartClock s₁ t = some s₂ := by simp [ctStartClock, s₁, s₂]
  have hstep₂ : ctStartClock s₂ t = some s₃ := by simp [ctStartClock, s₁, s₂, s₃, State.goto]
  have hok₁ : ok s₁ t := hfree s₁ t (by simp [s₁])
  have hok₂ : ok s₂ t := hfree s₂ t (by simp [s₂])
  refine ⟨s₃, ?_, ?_, ?_⟩
  · rw [schedule, if_pos hok, hstep, Option.bind_some, schedule, if_pos hok₁, hstep₁,
      Option.bind_some, schedule, if_pos hok₂, hstep₂]
    rfl
  · simp [s₃, Pc.Holds]
  · simpa [s₃, s₂, s₁, State.goto, hut] using hholds

/-- Where only the initialisation of the lock is restricted, the clock is safe exactly if no
thread holds the lock at any of them. -/
theorem safe_iff_quiet {ok : State ι → ι → Prop} [∀ s t, Decidable (ok s t)]
    (hfree : ∀ s t, s.pc t ≠ .initLock → ok s t) :
    (∀ s, Run ok s → Safe s) ↔ ∀ s t, Run ok s → ok s t → QuietInit s t := by
  constructor
  · intro hsafe s t hrun hok hinit u hholds
    have hut : u ≠ t := by
      rintro rfl
      rw [hinit] at hholds
      exact hholds
    obtain ⟨s', hs', ht, hu⟩ := two_holders_of_initLock hok hfree hinit hholds
    exact hut ((hsafe s' (hrun.schedule hs')).exclusive u t hu ht)
  · intro hquiet s hrun
    exact (inv_of_run hquiet hrun).safe

/-- Two threads find the flag clear and initialise the lock before either takes it. -/
theorem safe_of_quietInit_twice :
    ∃ s : State (Fin 2), schedule QuietInit initial
        [0, 0, 1, 1, 0, 1, 0, 1, 0, 0, 0, 0, 0, 1, 1, 1] = some s ∧ Safe s := by
  have hrun : schedule QuietInit (initial : State (Fin 2))
      [0, 0, 1, 1, 0, 1, 0, 1, 0, 0, 0, 0, 0, 1, 1, 1] = some _ := rfl
  exact ⟨_, hrun, safe_of_quietInit _ (Run.schedule .initial hrun)⟩

/-- Both threads find the flag clear. The second one initialises the lock that the first one
holds, both are within it, and both assign `start`. -/
theorem not_safe_twoInits :
    ∃ s : State (Fin 2), Run (fun _ _ => True) s ∧ (s.pc 0).Holds ∧ (s.pc 1).Holds ∧
      s.starts = 2 ∧ ¬ Safe s := by
  have hrun : schedule (fun _ _ => True) (initial : State (Fin 2))
      [0, 0, 1, 1, 0, 0, 0, 1, 1, 1, 0, 1, 0, 1] = some _ := rfl
  refine ⟨_, Run.schedule .initial hrun, trivial, trivial, rfl, ?_⟩
  intro h
  exact absurd (h.exclusive 0 1 trivial trivial) (by decide)

end CrayTests.SharedClock
