import CrayTests.LockTests

/-!
# The invariant of the lock tests

What the threads of `rwlock_test` hold and have counted at each of their statements, with the
statements of `ct_start_clock` that they are in.
-/

namespace CrayTests.LockTests

open CInteger

section Clock

open SharedClock (ctStartClock)

variable {c c' : SharedClock.State ℕ} {t u : ℕ}

def clockRank : SharedClock.Pc → ℕ
  | .outside => 0
  | .unlock => 1
  | .unlockFailed => 1
  | .assignStarted => 2
  | .assignStart => 3
  | .testStarted => 4
  | .lock => 5
  | .setInit => 6
  | .initLock => 7
  | .testInit => 8

structure ClockMove (c c' : SharedClock.State ℕ) (t : ℕ) : Prop where
  others : ∀ u, u ≠ t → c'.pc u = c.pc u
  called : c.pc t = .outside → c'.pc t = .testInit
  less : c.pc t ≠ .outside → clockRank (c'.pc t) < clockRank (c.pc t)
  locks : c'.clockLock = .locked → (c'.pc t).Holds ∨ c.clockLock = .locked ∧ ¬ (c.pc t).Holds

theorem clockMove_goto {pc : SharedClock.Pc} {d : SharedClock.State ℕ} (hpc : d.pc = c.pc)
    (hcalled : c.pc t = .outside → pc = .testInit)
    (hless : c.pc t ≠ .outside → clockRank pc < clockRank (c.pc t))
    (hlocks : d.clockLock = .locked → pc.Holds ∨ c.clockLock = .locked ∧ ¬ (c.pc t).Holds) :
    ClockMove c (d.goto t pc) t where
  others u hu := by rw [SharedClock.goto_pc, if_neg hu, hpc]
  called h := by rw [SharedClock.goto_pc, if_pos rfl, hcalled h]
  less h := by
    rw [SharedClock.goto_pc, if_pos rfl]
    exact hless h
  locks h := by
    rw [SharedClock.goto_pc, if_pos rfl]
    exact hlocks h

theorem clockMove_of_start (h : ctStartClock c t = some c') : ClockMove c c' t := by
  unfold ctStartClock at h
  cases hpc : c.pc t with
  | outside =>
    simp only [hpc, Option.some.injEq] at h
    subst h
    exact clockMove_goto rfl (fun _ => rfl) (fun hne => absurd hpc hne)
      fun hl => .inr ⟨hl, by rw [hpc]; exact id⟩
  | testInit =>
    simp only [hpc, Option.some.injEq] at h
    subst h
    refine clockMove_goto rfl (by simp [hpc]) (fun _ => ?_)
      fun hl => .inr ⟨hl, by rw [hpc]; exact id⟩
    rw [hpc]
    split_ifs <;> decide
  | initLock =>
    simp only [hpc, Option.some.injEq] at h
    subst h
    exact clockMove_goto rfl (by simp [hpc]) (fun _ => by rw [hpc]; decide) nofun
  | setInit =>
    simp only [hpc, Option.some.injEq] at h
    subst h
    exact clockMove_goto rfl (by simp [hpc]) (fun _ => by rw [hpc]; decide)
      fun hl => .inr ⟨hl, by rw [hpc]; exact id⟩
  | lock =>
    simp only [hpc] at h
    cases hl : c.clockLock with
    | locked => simp [hl] at h
    | unlocked =>
      simp only [hl, Option.some.injEq] at h
      subst h
      exact clockMove_goto rfl (by simp [hpc]) (fun _ => by rw [hpc]; decide)
        fun _ => .inl trivial
    | uninit =>
      simp only [hl, Option.some.injEq] at h
      subst h
      exact clockMove_goto rfl (by simp [hpc]) (fun _ => by rw [hpc]; decide)
        fun hlocked => by rw [hl] at hlocked; cases hlocked
  | testStarted =>
    simp only [hpc, Option.some.injEq] at h
    subst h
    refine clockMove_goto rfl (by simp [hpc]) (fun _ => ?_) fun _ => .inl ?_
    · rw [hpc]
      split_ifs <;> decide
    · split_ifs <;> trivial
  | assignStart =>
    simp only [hpc, Option.some.injEq] at h
    subst h
    exact clockMove_goto rfl (by simp [hpc]) (fun _ => by rw [hpc]; decide) fun _ => .inl trivial
  | assignStarted =>
    simp only [hpc, Option.some.injEq] at h
    subst h
    exact clockMove_goto rfl (by simp [hpc]) (fun _ => by rw [hpc]; decide) fun _ => .inl trivial
  | unlock =>
    simp only [hpc, Option.some.injEq] at h
    subst h
    refine clockMove_goto rfl (by simp [hpc]) (fun _ => by rw [hpc]; decide) fun hl => ?_
    cases hlock : c.clockLock <;> simp [hlock, SharedClock.Mutex.unlock] at hl
  | unlockFailed =>
    simp only [hpc, Option.some.injEq] at h
    subst h
    refine clockMove_goto rfl (by simp [hpc]) (fun _ => by rw [hpc]; decide) fun hl => ?_
    cases hlock : c.clockLock <;> simp [hlock, SharedClock.Mutex.unlock] at hl

/-- Only a thread in front of a locked lock blocks. -/
theorem start_isSome (h : c.pc t = .lock → c.clockLock ≠ .locked) :
    ∃ c', ctStartClock c t = some c' := by
  unfold ctStartClock
  cases hpc : c.pc t with
  | lock =>
    cases hl : c.clockLock with
    | locked => exact absurd hl (h hpc)
    | unlocked => simp
    | uninit => simp
  | _ => simp

/-- A locked lock is held, also where it was initialised while it was held. -/
theorem holder_of_locked {ok : SharedClock.State ℕ → ℕ → Prop} (h : SharedClock.Run ok c)
    (hl : c.clockLock = .locked) : ∃ t, (c.pc t).Holds := by
  induction h with
  | initial => cases hl
  | @start c c' t hrun _ hstep ih =>
    have hmove := clockMove_of_start hstep
    rcases hmove.locks hl with hholds | ⟨hlocked, hnot⟩
    · exact ⟨t, hholds⟩
    · obtain ⟨u, hu⟩ := ih hlocked
      have hne : u ≠ t := by
        rintro rfl
        exact hnot hu
      exact ⟨u, by rwa [hmove.others u hne]⟩
  | @stop c c' hrun hout hstep ih =>
    unfold SharedClock.ctStopClock at hstep
    cases hlock : c.clockLock with
    | locked => simp [hlock] at hstep
    | unlocked =>
      simp only [hlock, Option.some.injEq] at hstep
      subst hstep
      split_ifs at hl
    | uninit =>
      simp only [hlock, Option.some.injEq] at hstep
      subst hstep
      split_ifs at hl

theorem stop_isSome (h : c.clockLock ≠ .locked) : ∃ c', SharedClock.ctStopClock c = some c' := by
  unfold SharedClock.ctStopClock
  cases hl : c.clockLock with
  | locked => exact absurd hl h
  | unlocked => exact ⟨_, rfl⟩
  | uninit => exact ⟨_, rfl⟩

theorem pc_of_stop (h : SharedClock.ctStopClock c = some c') : c'.pc = c.pc := by
  unfold SharedClock.ctStopClock at h
  cases hl : c.clockLock with
  | locked => simp [hl] at h
  | unlocked =>
    simp only [hl, Option.some.injEq] at h
    subst h
    split_ifs <;> rfl
  | uninit =>
    simp only [hl, Option.some.injEq] at h
    subst h
    split_ifs <;> rfl

end Clock

section Moves

variable {s s' : State} {t : ℕ}

inductive Move (s : State) (t : ℕ) : State → Prop
  | barrier (hpc : (s.thread t).pc = .barrier) :
      Move s t (s.setThread t { s.thread t with pc := .arrived })
  | arrived (hpc : (s.thread t).pc = .arrived) (hall : s.allArrived) :
      Move s t (s.setThread t { s.thread t with pc := .callClock })
  | callClock (hpc : (s.thread t).pc = .callClock) (clock : SharedClock.State ℕ)
      (hclock : SharedClock.ctStartClock s.clock t = some clock) :
      Move s t { s.setThread t { s.thread t with pc := .inClock } with clock }
  | inClock (hpc : (s.thread t).pc = .inClock) (clock : SharedClock.State ℕ)
      (hclock : SharedClock.ctStartClock s.clock t = some clock) :
      Move s t { s.setThread t { s.thread t with
        pc := if clock.pc t = .outside then s.test.head t (s.thread t).i else .inClock } with
        clock }
  | acquire (hpc : (s.thread t).pc = .acquire) (hfree : s.lock = none) :
      Move s t { s.setThread t { s.thread t with pc := .spin } with lock := some t }
  | spin (hpc : (s.thread t).pc = .spin) (tmp : ℤ) (htmp : tmp = int32 ((s.thread t).tmp + 1)) :
      Move s t (s.setThread t { s.thread t with
        tmp, pc := if tmp.tmod (s.test.period t) ≠ 0 then .spin else .release })
  | release (hpc : (s.thread t).pc = .release) :
      Move s t { s.setThread t { s.thread t with
        i := (s.thread t).i + 1, pc := s.test.head t ((s.thread t).i + 1) } with lock := none }

theorem move_of_threadStep (h : threadStep s t = some s') : Move s t s' := by
  unfold threadStep at h
  cases hpc : (s.thread t).pc with
  | unborn => simp [hpc] at h
  | returned => simp [hpc] at h
  | barrier =>
    simp only [hpc, Option.some.injEq] at h
    exact h ▸ .barrier hpc
  | arrived =>
    simp only [hpc] at h
    split_ifs at h with hall
    exact Option.some.inj h ▸ .arrived hpc hall
  | callClock =>
    simp only [hpc, Option.map_eq_some_iff] at h
    obtain ⟨clock, hclock, rfl⟩ := h
    exact .callClock hpc clock hclock
  | inClock =>
    simp only [hpc, Option.map_eq_some_iff] at h
    obtain ⟨clock, hclock, rfl⟩ := h
    exact .inClock hpc clock hclock
  | acquire =>
    simp only [hpc] at h
    split_ifs at h with hfree
    exact Option.some.inj h ▸ .acquire hpc hfree
  | spin =>
    simp only [hpc, Option.some.injEq] at h
    exact h ▸ .spin hpc _ rfl
  | release =>
    simp only [hpc, Option.some.injEq] at h
    exact h ▸ .release hpc

inductive MainMove (s : State) : State → Prop
  | create (k : ℕ) (hmain : s.main = .create k) (hk : k < s.test.threads) :
      MainMove s { s.setThread k { pc := .barrier } with main := .create (k + 1) }
  | created (k : ℕ) (hmain : s.main = .create k) (hk : ¬ k < s.test.threads) :
      MainMove s { s with main := .join 0 }
  | join (k : ℕ) (hmain : s.main = .join k) (hk : k < s.test.threads)
      (hreturned : (s.thread k).pc = .returned) : MainMove s { s with main := .join (k + 1) }
  | joined (k : ℕ) (hmain : s.main = .join k) (hk : ¬ k < s.test.threads)
      (clock : SharedClock.State ℕ) (hclock : SharedClock.ctStopClock s.clock = some clock) :
      MainMove s { s with clock, main := .done }
  | next (test : Test) (rest : List Test) (hmain : s.main = .done) (hrest : s.rest = test :: rest) :
      MainMove s { s with test, rest, main := .create 0, thread := fun _ => {} }

theorem mainMove_of_mainStep (h : mainStep s = some s') : MainMove s s' := by
  unfold mainStep at h
  cases hmain : s.main with
  | create k =>
    simp only [hmain] at h
    split_ifs at h with hk
    · exact Option.some.inj h ▸ .create k hmain hk
    · exact Option.some.inj h ▸ .created k hmain hk
  | join k =>
    simp only [hmain] at h
    split_ifs at h with hk hreturned
    · exact Option.some.inj h ▸ .join k hmain hk hreturned
    · obtain ⟨clock, hclock, rfl⟩ := Option.map_eq_some_iff.mp h
      exact .joined k hmain hk clock hclock
  | done =>
    cases hrest : s.rest with
    | nil => simp [hmain, hrest] at h
    | cons test rest =>
      simp only [hmain, hrest, Option.some.injEq] at h
      exact h ▸ .next test rest hmain hrest

end Moves

def Pc.Holds : Pc → Prop
  | .spin | .release => True
  | _ => False

def Pc.Past : Pc → Prop
  | .unborn | .barrier | .arrived => False
  | _ => True

def Thread.Counts (test : Test) (t : ℕ) (th : Thread) : Prop :=
  match th.pc with
  | .acquire => th.i < test.sections t ∧ th.tmp = test.period t * th.i
  | .spin => th.i < test.sections t ∧ test.period t * th.i ≤ th.tmp ∧
      th.tmp < test.period t * (th.i + 1)
  | .release => th.i < test.sections t ∧ th.tmp = test.period t * (th.i + 1)
  | .returned => th.i = test.sections t ∧ th.tmp = test.period t * th.i
  | _ => th.i = 0 ∧ th.tmp = 0

def State.created (s : State) : ℕ :=
  match s.main with
  | .create k => k
  | _ => s.test.threads

def State.joined (s : State) : ℕ :=
  match s.main with
  | .create _ => 0
  | .join k => k
  | .done => s.test.threads

structure Inv (s : State) : Prop where
  counts : ∀ t, (s.thread t).Counts s.test t
  holder : ∀ t, s.lock = some t ↔ (s.thread t).pc.Holds
  unborn : ∀ t, (s.thread t).pc = .unborn ↔ s.created ≤ t
  created_le : s.created ≤ s.test.threads
  past : ∀ t, (s.thread t).pc.Past → s.allArrived
  returned : ∀ t < s.joined, (s.thread t).pc = .returned
  joined_le : s.joined ≤ s.test.threads
  clock : SharedClock.Run (fun _ _ => True) s.clock
  inClock : ∀ t, s.clock.pc t ≠ .outside ↔ (s.thread t).pc = .inClock

variable {s s' : State} {t u : ℕ}

@[simp] theorem setThread_thread (s : State) (t u : ℕ) (th : Thread) :
    (s.setThread t th).thread u = if u = t then th else s.thread u := Function.update_apply _ _ _ _

@[simp] theorem setThread_test (s : State) (t : ℕ) (th : Thread) :
    (s.setThread t th).test = s.test := rfl

@[simp] theorem setThread_lock (s : State) (t : ℕ) (th : Thread) :
    (s.setThread t th).lock = s.lock := rfl

@[simp] theorem setThread_clock (s : State) (t : ℕ) (th : Thread) :
    (s.setThread t th).clock = s.clock := rfl

theorem Inv.outside (h : Inv s) (hpc : (s.thread t).pc ≠ .inClock) : s.clock.pc t = .outside := by
  by_contra hne
  exact hpc ((h.inClock t).mp hne)

/-- The invariant after thread `t` became `th`, and the lock and the clock `lock` and `clock`. -/
theorem Inv.set (h : Inv s) (th : Thread) (lock : Option ℕ) (clock : SharedClock.State ℕ)
    (hcounts : th.Counts s.test t) (hborn : (s.thread t).pc ≠ .unborn)
    (hlive : (s.thread t).pc ≠ .returned) (hlater : th.pc ≠ .unborn ∧ th.pc ≠ .barrier)
    (hpast : th.pc.Past → s.allArrived)
    (hself : lock = some t ↔ th.pc.Holds) (hothers : ∀ u, u ≠ t → (lock = some u ↔ s.lock = some u))
    (hclock : SharedClock.Run (fun _ _ => True) clock)
    (hin : clock.pc t ≠ .outside ↔ th.pc = .inClock)
    (hpcs : ∀ u, u ≠ t → clock.pc u = s.clock.pc u) :
    Inv { s.setThread t th with lock, clock } where
  counts u := by
    rw [setThread_thread]
    split_ifs with hu
    · exact hu ▸ hcounts
    · exact h.counts u
  holder u := by
    rw [setThread_thread]
    split_ifs with hu
    · exact hu ▸ hself
    · exact (hothers u hu).trans (h.holder u)
  unborn u := by
    rw [setThread_thread]
    split_ifs with hu
    · subst hu
      exact ⟨fun hpc => absurd hpc hlater.1, fun hle => absurd ((h.unborn u).mpr hle) hborn⟩
    · exact h.unborn u
  created_le := h.created_le
  past u hu := by
    have hall : s.allArrived := by
      rw [setThread_thread] at hu
      split_ifs at hu
      · exact hpast hu
      · exact h.past u hu
    intro v hv
    rw [setThread_thread]
    split_ifs
    · exact hlater
    · exact hall v hv
  returned u hu := by
    have hpc := h.returned u hu
    have hne : u ≠ t := by
      rintro rfl
      exact hlive hpc
    rw [setThread_thread, if_neg hne]
    exact hpc
  joined_le := h.joined_le
  clock := hclock
  inClock u := by
    rw [setThread_thread]
    split_ifs with hu
    · exact hu ▸ hin
    · change clock.pc u ≠ _ ↔ _
      rw [hpcs u hu]
      exact h.inClock u

/-- A move that leaves the lock and the clock alone. -/
theorem Inv.setPc (h : Inv s) {th : Thread} (hcounts : th.Counts s.test t)
    (hborn : (s.thread t).pc ≠ .unborn) (hlive : (s.thread t).pc ≠ .returned)
    (hlater : th.pc ≠ .unborn ∧ th.pc ≠ .barrier) (hpast : th.pc.Past → s.allArrived)
    (hself : (s.thread t).pc.Holds ↔ th.pc.Holds)
    (hin : (s.thread t).pc = .inClock ↔ th.pc = .inClock) : Inv (s.setThread t th) :=
  h.set th s.lock s.clock hcounts hborn hlive hlater hpast
    ((h.holder t).trans hself) (fun _ _ => Iff.rfl) h.clock ((h.inClock t).trans hin) fun _ _ => rfl

theorem period_cases (test : Test) (t : ℕ) :
    test.period t = 64 ∧ 64 * test.sections t < 2 ^ 31 ∨
      test.period t = 128 ∧ 128 * test.sections t < 2 ^ 31 := by
  unfold Test.period Test.sections
  split_ifs
  · exact .inl ⟨rfl, test.reads_int⟩
  · exact .inr ⟨rfl, test.writes_int⟩

/-- The increment that a thread spins with does not overflow, and ends the section just when the
counter is the next multiple of the period. -/
theorem Thread.Counts.increment {test : Test} {th : Thread} (h : th.Counts test t)
    (hpc : th.pc = .spin) : int32 (th.tmp + 1) = th.tmp + 1 ∧
      ((th.tmp + 1).tmod (test.period t) = 0 ↔ th.tmp + 1 = test.period t * (th.i + 1)) := by
  simp only [Thread.Counts, hpc] at h
  obtain ⟨hi, hlo, hhi⟩ := h
  rcases period_cases test t with ⟨hp, hfit⟩ | ⟨hp, hfit⟩
  · rw [hp] at hlo hhi ⊢
    refine ⟨int32_eq_self (by omega) (by omega), ?_⟩
    rw [Int.tmod_eq_emod_of_nonneg (by omega)]
    omega
  · rw [hp] at hlo hhi ⊢
    refine ⟨int32_eq_self (by omega) (by omega), ?_⟩
    rw [Int.tmod_eq_emod_of_nonneg (by omega)]
    omega

theorem counts_head {test : Test} {th : Thread} (hle : th.i ≤ test.sections t)
    (htmp : th.tmp = test.period t * th.i) (hpc : th.pc = test.head t th.i) :
    th.Counts test t := by
  unfold Test.head at hpc
  split_ifs at hpc with hi
  · simp only [Thread.Counts, hpc]
    exact ⟨hi, htmp⟩
  · simp only [Thread.Counts, hpc]
    exact ⟨by omega, htmp⟩

theorem head_free (test : Test) (t i : ℕ) : ¬ (test.head t i).Holds ∧ test.head t i ≠ .inClock ∧
    test.head t i ≠ .unborn ∧ test.head t i ≠ .barrier := by
  unfold Test.head
  split_ifs <;> simp [Pc.Holds]

theorem Inv.move (h : Inv s) (hmove : Move s t s') : Inv s' := by
  have hc := h.counts t
  have hp := h.past t
  cases hmove with
  | barrier hpc =>
    simp only [Thread.Counts, hpc] at hc
    exact h.setPc (by simpa [Thread.Counts] using hc) (by simp [hpc]) (by simp [hpc]) (by simp)
      (fun hf => hf.elim) (by simp [hpc, Pc.Holds]) (by simp [hpc])
  | arrived hpc hall =>
    simp only [Thread.Counts, hpc] at hc
    exact h.setPc (by simpa [Thread.Counts] using hc) (by simp [hpc]) (by simp [hpc]) (by simp)
      (fun _ => hall) (by simp [hpc, Pc.Holds]) (by simp [hpc])
  | callClock hpc clock hclock =>
    have hmove := clockMove_of_start hclock
    simp only [Thread.Counts, hpc] at hc
    rw [hpc] at hp
    have hout := h.outside (t := t) (by simp [hpc])
    have hself : s.lock = some t ↔ Pc.inClock.Holds := by
      rw [h.holder t, hpc]
      rfl
    refine h.set { s.thread t with pc := .inClock } s.lock clock
      (by simpa [Thread.Counts] using hc) (by simp [hpc]) (by simp [hpc]) (by simp)
      (fun _ => hp trivial) hself (fun _ _ => Iff.rfl) (h.clock.start trivial hclock) ?_
      hmove.others
    simp [hmove.called hout]
  | inClock hpc clock hclock =>
    have hmove := clockMove_of_start hclock
    simp only [Thread.Counts, hpc] at hc
    rw [hpc] at hp
    have hself (pc : Pc) (hpc' : ¬ pc.Holds) : s.lock = some t ↔ pc.Holds := by
      rw [h.holder t, hpc]
      exact ⟨fun hf => hf.elim, fun hf => absurd hf hpc'⟩
    by_cases hout : clock.pc t = .outside
    · rw [if_pos hout]
      obtain ⟨hfree, hnot, hlater⟩ := head_free s.test t (s.thread t).i
      refine h.set { s.thread t with pc := s.test.head t (s.thread t).i } s.lock clock
        (counts_head (by simp [hc.1]) (by simp [hc.1, hc.2]) rfl) (by simp [hpc]) (by simp [hpc])
        hlater (fun _ => hp trivial) (hself _ hfree) (fun _ _ => Iff.rfl)
        (h.clock.start trivial hclock) ?_ hmove.others
      simp [hout, hnot]
    · rw [if_neg hout]
      refine h.set { s.thread t with pc := .inClock } s.lock clock
        (by simpa [Thread.Counts] using hc) (by simp [hpc]) (by simp [hpc]) (by simp)
        (fun _ => hp trivial) (hself _ id) (fun _ _ => Iff.rfl)
        (h.clock.start trivial hclock) ?_ hmove.others
      simp [hout]
  | acquire hpc hfree =>
    simp only [Thread.Counts, hpc] at hc
    rw [hpc] at hp
    have hin := h.outside (t := t) (by simp [hpc])
    refine h.set { s.thread t with pc := .spin } (some t) s.clock
      ?_ (by simp [hpc]) (by simp [hpc]) (by simp) (fun _ => hp trivial)
      (by simp [Pc.Holds]) (fun u hu => by simp [hfree, Ne.symm hu]) h.clock (by simp [hin])
      fun _ _ => rfl
    simp only [Thread.Counts]
    rcases period_cases s.test t with ⟨hper, -⟩ | ⟨hper, -⟩
    · rw [hper] at hc ⊢
      omega
    · rw [hper] at hc ⊢
      omega
  | spin hpc tmp htmp =>
    obtain ⟨hint, hiff⟩ := hc.increment hpc
    simp only [Thread.Counts, hpc] at hc
    rw [hpc] at hp
    rw [hint] at htmp
    subst htmp
    by_cases hend : ((s.thread t).tmp + 1).tmod (s.test.period t) ≠ 0
    · rw [if_pos hend]
      refine h.setPc ?_ (by simp [hpc]) (by simp [hpc]) (by simp) (fun _ => hp trivial)
        (by simp [hpc, Pc.Holds]) (by simp [hpc])
      have hne := mt hiff.mpr hend
      simp only [Thread.Counts]
      omega
    · rw [if_neg hend]
      refine h.setPc ?_ (by simp [hpc]) (by simp [hpc]) (by simp) (fun _ => hp trivial)
        (by simp [hpc, Pc.Holds]) (by simp [hpc])
      exact ⟨hc.1, hiff.mp (not_not.mp hend)⟩
  | release hpc =>
    simp only [Thread.Counts, hpc] at hc
    rw [hpc] at hp
    have hin := h.outside (t := t) (by simp [hpc])
    have hlock : s.lock = some t := (h.holder t).mpr (by rw [hpc]; trivial)
    obtain ⟨hfree, hnot, hlater⟩ := head_free s.test t ((s.thread t).i + 1)
    refine h.set { s.thread t with
        i := (s.thread t).i + 1, pc := s.test.head t ((s.thread t).i + 1) } none s.clock
      (counts_head hc.1 (by push_cast; exact hc.2) rfl) (by simp [hpc]) (by simp [hpc])
      hlater (fun _ => hp trivial) (by simp [hfree])
      (fun u hu => by simp [hlock, Ne.symm hu]) h.clock (by simp [hin, hnot]) fun _ _ => rfl

/-- Once all threads have returned, no thread is anywhere else. -/
theorem Inv.idle (h : Inv s) (hjoined : s.joined = s.test.threads)
    (hcreated : s.created = s.test.threads) (t : ℕ) :
    (s.thread t).pc = .returned ∨ (s.thread t).pc = .unborn := by
  by_cases ht : t < s.test.threads
  · exact .inl (h.returned t (hjoined ▸ ht))
  · exact .inr ((h.unborn t).mpr (by omega))

theorem Inv.idle_outside (h : Inv s) (hjoined : s.joined = s.test.threads)
    (hcreated : s.created = s.test.threads) (t : ℕ) : s.clock.pc t = .outside := by
  refine h.outside ?_
  rcases h.idle hjoined hcreated t with hpc | hpc <;> simp [hpc]

theorem Inv.idle_lock (h : Inv s) (hjoined : s.joined = s.test.threads)
    (hcreated : s.created = s.test.threads) : s.lock = none := by
  cases hlock : s.lock with
  | none => rfl
  | some t =>
    have hholds := (h.holder t).mp hlock
    rcases h.idle hjoined hcreated t with hpc | hpc <;> rw [hpc] at hholds <;> exact hholds.elim

theorem Inv.create (h : Inv s) {k : ℕ} (hmain : s.main = .create k) (hk : k < s.test.threads) :
    Inv { s.setThread k { pc := .barrier } with main := .create (k + 1) } := by
  have hcreated : s.created = k := by simp [State.created, hmain]
  have hunborn : (s.thread k).pc = .unborn := (h.unborn k).mpr hcreated.le
  have hout := h.outside (t := k) (by simp [hunborn])
  exact {
    counts := by
      intro u
      rw [setThread_thread]
      split_ifs
      · simp [Thread.Counts]
      · exact h.counts u
    holder := by
      intro u
      rw [setThread_thread]
      split_ifs with hu
      · subst hu
        exact (h.holder u).trans (by simp [hunborn, Pc.Holds])
      · exact h.holder u
    unborn := by
      intro u
      have hu := h.unborn u
      rw [setThread_thread]
      simp only [State.created]
      split_ifs with huk
      · simp [huk]
      · rw [hu, hcreated]
        omega
    created_le := hk
    past := by
      intro u hu
      have hpast : (s.thread u).pc.Past := by
        rw [setThread_thread] at hu
        split_ifs at hu
        · exact hu.elim
        · exact hu
      exact absurd hunborn (h.past u hpast k hk).1
    returned := by
      intro u hu
      simp [State.joined] at hu
    joined_le := Nat.zero_le _
    clock := h.clock
    inClock := by
      intro u
      rw [setThread_thread]
      split_ifs with hu
      · simp [hu, hout]
      · exact h.inClock u }

/-- The main thread goes on where it changes nothing else. -/
theorem Inv.goMain (h : Inv s) (main : MainPc)
    (hcreated : State.created { s with main } = s.created)
    (hreturned : ∀ t < State.joined { s with main }, (s.thread t).pc = .returned)
    (hjoined : State.joined { s with main } ≤ s.test.threads) : Inv { s with main } where
  counts := h.counts
  holder := h.holder
  unborn t := hcreated ▸ h.unborn t
  created_le := hcreated ▸ h.created_le
  past := h.past
  returned := hreturned
  joined_le := hjoined
  clock := h.clock
  inClock := h.inClock

theorem Inv.mainMove (h : Inv s) (hmove : MainMove s s') : Inv s' := by
  cases hmove with
  | create k hmain hk => exact h.create hmain hk
  | created k hmain hk =>
    have hle := h.created_le
    refine h.goMain (.join 0) ?_ (fun t ht => by simp [State.joined] at ht) (Nat.zero_le _)
    simp only [State.created, hmain] at hle ⊢
    omega
  | join k hmain hk hreturned =>
    refine h.goMain (.join (k + 1)) (by simp [State.created, hmain]) (fun t ht => ?_) hk
    have hjoined : s.joined = k := by simp [State.joined, hmain]
    rcases Nat.lt_succ_iff_lt_or_eq.mp ht with ht | rfl
    · exact h.returned t (hjoined ▸ ht)
    · exact hreturned
  | joined k hmain hk clock hclock =>
    have hjoined : s.joined = s.test.threads := by
      have hle := h.joined_le
      simp only [State.joined, hmain] at hle ⊢
      omega
    have hcreated : s.created = s.test.threads := by simp [State.created, hmain]
    have hout := h.idle_outside hjoined hcreated
    exact {
      h.goMain .done (by simp [State.created, hmain])
        (fun t ht => h.returned t (ht.trans_eq hjoined.symm)) le_rfl with
      clock := h.clock.stop hout hclock
      inClock := fun t => by rw [pc_of_stop hclock]; exact h.inClock t }
  | next test rest hmain hrest =>
    have hjoined : s.joined = s.test.threads := by simp [State.joined, hmain]
    have hcreated : s.created = s.test.threads := by simp [State.created, hmain]
    exact {
      counts := fun t => by simp [Thread.Counts]
      holder := fun t => by simp [h.idle_lock hjoined hcreated, Pc.Holds]
      unborn := fun t => by simp [State.created]
      created_le := Nat.zero_le _
      past := fun t ht => ht.elim
      returned := fun t ht => by simp [State.joined] at ht
      joined_le := Nat.zero_le _
      clock := h.clock
      inClock := fun t => by simp [h.idle_outside hjoined hcreated t] }

theorem inv_start (test : Test) (rest : List Test) : Inv (start test rest) where
  counts t := by simp [start, Thread.Counts]
  holder t := by simp [start, Pc.Holds]
  unborn t := by simp [start, State.created]
  created_le := Nat.zero_le _
  past t ht := ht.elim
  returned t ht := by simp [start, State.joined] at ht
  joined_le := Nat.zero_le _
  clock := .initial
  inClock t := by simp [start, SharedClock.initial]

theorem Inv.step (h : Inv s) (hstep : Step s s') : Inv s' := by
  cases hstep with
  | thread t ht hstep => exact h.move (move_of_threadStep hstep)
  | main hstep => exact h.mainMove (mainMove_of_mainStep hstep)

end CrayTests.LockTests
