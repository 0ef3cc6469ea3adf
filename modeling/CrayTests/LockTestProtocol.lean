import CrayTests.BoundedRuns
import CrayTests.LockTestInvariant

/-!
# The protocol of the lock tests

In every run, however the threads are scheduled, at most one thread is in a critical section, no
thread starts its clock before all have been created, each goes through its number of sections, and
`ct_stop_clock` is called when no thread is in `ct_start_clock`, so that the shared clock goes
through a run of its own machine, and no run goes on forever. A run in which the lock of the clock
is only initialised while no thread holds it or waits for it does not block before the last test is
over.
-/

namespace CrayTests.LockTests

open Relation

variable {s s' : State} {t u : ℕ}

theorem Inv.lt_threads (h : Inv s) (hcreated : s.created = s.test.threads)
    (hborn : (s.thread t).pc ≠ .unborn) : t < s.test.threads := by
  by_contra hle
  exact hborn ((h.unborn t).mpr (by omega))

/-- Where a thread can wait: at the barrier, at the lock of the clock, and at the lock. -/
theorem exists_threadStep (hborn : (s.thread t).pc ≠ .unborn)
    (hlive : (s.thread t).pc ≠ .returned) (hbarrier : (s.thread t).pc = .arrived → s.allArrived)
    (hclock : s.clock.pc t = .lock → s.clock.clockLock ≠ .locked)
    (hlock : (s.thread t).pc = .acquire → s.lock = none) : ∃ s', threadStep s t = some s' := by
  obtain ⟨clock, hclock⟩ := start_isSome hclock
  unfold threadStep
  cases hpc : (s.thread t).pc with
  | unborn => exact absurd hpc hborn
  | returned => exact absurd hpc hlive
  | arrived => simp [hpc, hbarrier hpc]
  | callClock => simp [hpc, hclock]
  | inClock => simp [hpc, hclock]
  | acquire => simp [hpc, hlock hpc]
  | barrier => simp [hpc]
  | spin => simp [hpc]
  | release => simp [hpc]

theorem freshInit_of_ne (hpc : s.clock.pc t ≠ .initLock) : FreshInit s t :=
  fun hinit => absurd hinit hpc

/-- A thread that holds the lock, or is in front of the barrier, does not wait. -/
theorem Inv.step_of_free (h : Inv s) (hcreated : s.created = s.test.threads)
    (hpc : (s.thread t).pc.Holds ∨ (s.thread t).pc = .barrier) : ∃ s', FreshStep s s' := by
  have hout : s.clock.pc t = .outside := by
    refine h.outside ?_
    rintro hin
    simp [hin, Pc.Holds] at hpc
  have hborn : (s.thread t).pc ≠ .unborn := by
    intro hunborn
    simp [hunborn, Pc.Holds] at hpc
  obtain ⟨s', hstep⟩ : ∃ s', threadStep s t = some s' := by
    refine exists_threadStep hborn ?_ ?_ ?_ ?_
    · intro hreturned
      simp [hreturned, Pc.Holds] at hpc
    · intro harrived
      simp [harrived, Pc.Holds] at hpc
    · simp [hout]
    · intro hacquire
      simp [hacquire, Pc.Holds] at hpc
  exact ⟨s', .thread t (h.lt_threads hcreated hborn) (freshInit_of_ne (by simp [hout])) hstep⟩

/-- A thread of the clock that does not wait, and does not initialise the lock, goes on. -/
theorem Inv.step_of_inClock (h : Inv s) (hcreated : s.created = s.test.threads)
    (hin : s.clock.pc t ≠ .outside) (hinit : s.clock.pc t ≠ .initLock)
    (hlock : s.clock.pc t = .lock → s.clock.clockLock ≠ .locked) : ∃ s', FreshStep s s' := by
  have hpc := (h.inClock t).mp hin
  have hborn : (s.thread t).pc ≠ .unborn := by simp [hpc]
  obtain ⟨s', hstep⟩ : ∃ s', threadStep s t = some s' :=
    exists_threadStep hborn (by simp [hpc]) (by simp [hpc]) hlock (by simp [hpc])
  exact ⟨s', .thread t (h.lt_threads hcreated hborn) (freshInit_of_ne hinit) hstep⟩

theorem Inv.step_of_clockHolds (h : Inv s) (hcreated : s.created = s.test.threads)
    (hholds : (s.clock.pc t).Holds) : ∃ s', FreshStep s s' := by
  refine h.step_of_inClock (t := t) hcreated ?_ ?_ ?_ <;> intro hpc <;> rw [hpc] at hholds <;>
    exact hholds.elim

/-- While a created thread has not returned, some thread goes on, and does not initialise the lock
of the clock while it is used. -/
theorem Inv.step_of_live (h : Inv s) (hcreated : s.created = s.test.threads)
    (ht : t < s.test.threads) (hlive : (s.thread t).pc ≠ .returned) : ∃ s', FreshStep s s' := by
  have hborn (u : ℕ) (hu : u < s.test.threads) : (s.thread u).pc ≠ .unborn := by
    intro hunborn
    have := (h.unborn u).mp hunborn
    omega
  by_cases hbarrier : ∃ u < s.test.threads, (s.thread u).pc = .barrier
  · obtain ⟨u, hu, hpc⟩ := hbarrier
    exact h.step_of_free hcreated (.inr hpc)
  have hall : s.allArrived := fun u hu => ⟨hborn u hu, fun hpc => hbarrier ⟨u, hu, hpc⟩⟩
  by_cases hholder : ∃ u, (s.clock.pc u).Holds
  · obtain ⟨u, hholds⟩ := hholder
    exact h.step_of_clockHolds hcreated hholds
  have hfree : s.clock.clockLock ≠ .locked := fun hl => hholder (holder_of_locked h.clock hl)
  by_cases hwaiter : ∃ u, s.clock.pc u = .lock
  · obtain ⟨u, hpc⟩ := hwaiter
    exact h.step_of_inClock (t := u) hcreated (by simp [hpc]) (by simp [hpc]) fun _ => hfree
  cases hlock : s.lock with
  | some u => exact h.step_of_free hcreated (.inl ((h.holder u).mp hlock))
  | none =>
    obtain ⟨s', hstep⟩ := exists_threadStep (hborn t ht) hlive (fun _ => hall)
      (fun _ => hfree) fun _ => hlock
    exact ⟨s', .thread t ht (fun _ u => ⟨fun hu => hholder ⟨u, hu⟩, fun hu => hwaiter ⟨u, hu⟩⟩) hstep⟩

/-- `ct_stop_clock` finds the lock of the clock free. -/
theorem Inv.stop_isSome (h : Inv s) (hjoined : s.joined = s.test.threads)
    (hcreated : s.created = s.test.threads) :
    ∃ clock, SharedClock.ctStopClock s.clock = some clock := by
  refine LockTests.stop_isSome fun hlocked => ?_
  obtain ⟨t, hholds⟩ := holder_of_locked h.clock hlocked
  rw [h.idle_outside hjoined hcreated t] at hholds
  exact hholds

theorem Inv.progress (h : Inv s) (hfinal : ∀ s', ¬ FreshStep s s') :
    s.main = .done ∧ s.rest = [] := by
  have hmain (hstep : ∃ s', mainStep s = some s') : False := by
    obtain ⟨s', hstep⟩ := hstep
    exact hfinal s' (.main hstep)
  cases hpc : s.main with
  | create k => exact (hmain (by unfold mainStep; rw [hpc]; dsimp only; split_ifs <;> simp)).elim
  | join k =>
    have hcreated : s.created = s.test.threads := by simp [State.created, hpc]
    by_cases hk : k < s.test.threads
    · by_cases hreturned : (s.thread k).pc = .returned
      · exact (hmain (by simp [mainStep, hpc, hk, hreturned])).elim
      · obtain ⟨s', hstep⟩ := h.step_of_live hcreated hk hreturned
        exact (hfinal s' hstep).elim
    · have hjoined : s.joined = s.test.threads := by
        have hle := h.joined_le
        simp only [State.joined, hpc] at hle ⊢
        omega
      obtain ⟨clock, hclock⟩ := h.stop_isSome hjoined hcreated
      exact (hmain (by simp [mainStep, hpc, hk, hclock])).elim
  | done =>
    cases hrest : s.rest with
    | nil => exact ⟨rfl, rfl⟩
    | cons test rest => exact (hmain (by simp [mainStep, hpc, hrest])).elim

/-- The statements that a thread has in front of it, or more. -/
def Thread.work (test : Test) (t : ℕ) (th : Thread) (clock : SharedClock.Pc) : ℕ :=
  let sections := (test.sections t - th.i) * (test.period t + 2)
  match th.pc with
  | .returned => 0
  | .release => (test.sections t - (th.i + 1)) * (test.period t + 2) + 1
  | .spin => (test.sections t - (th.i + 1)) * (test.period t + 2) + 1 +
      (test.period t * (th.i + 1) - th.tmp).toNat
  | .acquire => sections
  | .inClock => sections + 1 + clockRank clock
  | .callClock => sections + 10
  | .arrived => sections + 11
  | .barrier => sections + 12
  | .unborn => sections + 13

def State.threadWork (s : State) (t : ℕ) : ℕ := (s.thread t).work s.test t (s.clock.pc t)

def MainPc.work (test : Test) : MainPc → ℕ
  | .create k => (test.threads - k) + (test.threads + 2)
  | .join k => (test.threads - k) + 1
  | .done => 0

def Test.work (test : Test) : ℕ :=
  ∑ t ∈ Finset.range test.threads, Thread.work test t {} .outside + (MainPc.create 0).work test + 1

def State.work (s : State) : ℕ :=
  ∑ t ∈ Finset.range s.test.threads, s.threadWork t + s.main.work s.test +
    (s.rest.map Test.work).sum

theorem work_head (test : Test) (t : ℕ) (th : Thread) (clock : SharedClock.Pc) (i : ℕ) :
    Thread.work test t { th with i, pc := test.head t i } clock ≤
      (test.sections t - i) * (test.period t + 2) := by
  unfold Test.head
  split_ifs
  · exact le_rfl
  · exact Nat.zero_le _

/-- One section more. -/
theorem sections_succ (test : Test) {t i : ℕ} (hi : i < test.sections t) :
    (test.sections t - i) * (test.period t + 2) =
      (test.sections t - (i + 1)) * (test.period t + 2) + (test.period t + 2) := by
  rw [← Nat.succ_mul]
  congr 1
  omega

/-- A move leaves the other threads alone, and less to do for the thread itself. -/
theorem Move.threadWork (h : Inv s) (hmove : Move s t s') :
    (∀ u, u ≠ t → s'.threadWork u = s.threadWork u) ∧ s'.threadWork t < s.threadWork t ∧
      s'.test = s.test ∧ s'.main = s.main ∧ s'.rest = s.rest := by
  have hc := h.counts t
  cases hmove with
  | barrier hpc =>
    refine ⟨fun u hu => ?_, ?_, rfl, rfl, rfl⟩
    · simp [State.threadWork, State.setThread, hu]
    · simp [State.threadWork, State.setThread, Thread.work, hpc]
  | arrived hpc hall =>
    refine ⟨fun u hu => ?_, ?_, rfl, rfl, rfl⟩
    · simp [State.threadWork, State.setThread, hu]
    · simp [State.threadWork, State.setThread, Thread.work, hpc]
  | callClock hpc clock hclock =>
    have hmove := clockMove_of_start hclock
    have hout := h.outside (t := t) (by simp [hpc])
    refine ⟨fun u hu => ?_, ?_, rfl, rfl, rfl⟩
    · simp [State.threadWork, State.setThread, hu, hmove.others u hu]
    · simp [State.threadWork, State.setThread, Thread.work, hpc, hmove.called hout, clockRank]
  | inClock hpc clock hclock =>
    have hmove := clockMove_of_start hclock
    have hin := hmove.less ((h.inClock t).mpr hpc)
    refine ⟨fun u hu => ?_, ?_, rfl, rfl, rfl⟩
    · simp [State.threadWork, State.setThread, hu, hmove.others u hu]
    · have hhead := work_head s.test t (s.thread t) (clock.pc t) (s.thread t).i
      simp only [State.threadWork, State.setThread, Function.update_self]
      split_ifs with hout
      · refine hhead.trans_lt ?_
        simp only [Thread.work, hpc]
        omega
      · simp only [Thread.work, hpc]
        omega
  | acquire hpc hfree =>
    simp only [Thread.Counts, hpc] at hc
    refine ⟨fun u hu => ?_, ?_, rfl, rfl, rfl⟩
    · simp [State.threadWork, State.setThread, hu]
    · have hsucc := sections_succ s.test hc.1
      simp only [State.threadWork, State.setThread, Function.update_self, Thread.work, hpc, hsucc]
      have hspin : ((s.test.period t : ℤ) * ((s.thread t).i + 1) - (s.thread t).tmp).toNat =
          s.test.period t := by
        rw [hc.2]
        ring_nf
        simp
      omega
  | spin hpc tmp htmp =>
    obtain ⟨hint, hiff⟩ := hc.increment hpc
    simp only [Thread.Counts, hpc] at hc
    rw [hint] at htmp
    subst htmp
    refine ⟨fun u hu => ?_, ?_, rfl, rfl, rfl⟩
    · simp [State.threadWork, State.setThread, hu]
    · simp only [State.threadWork, State.setThread, Function.update_self]
      split_ifs with hend
      · simp only [Thread.work, hpc]
        omega
      · simp only [Thread.work, hpc]
        omega
  | release hpc =>
    refine ⟨fun u hu => ?_, ?_, rfl, rfl, rfl⟩
    · simp [State.threadWork, State.setThread, hu]
    · have hhead := work_head s.test t (s.thread t) (s.clock.pc t) ((s.thread t).i + 1)
      simp only [State.threadWork, State.setThread, Function.update_self]
      simp only [Thread.work, hpc] at hhead ⊢
      omega

theorem work_lt_of_move (h : Inv s) (ht : t < s.test.threads) (hmove : Move s t s') :
    s'.work < s.work := by
  obtain ⟨hothers, hself, htest, hmain, hrest⟩ := hmove.threadWork h
  have hsum : ∑ u ∈ Finset.range s.test.threads, s'.threadWork u <
      ∑ u ∈ Finset.range s.test.threads, s.threadWork u := by
    refine Finset.sum_lt_sum (fun u _ => ?_) ⟨t, Finset.mem_range.mpr ht, hself⟩
    by_cases hu : u = t
    · exact hu ▸ hself.le
    · exact (hothers u hu).le
  unfold State.work
  rw [htest, hmain, hrest]
  omega

/-- The main thread goes on, and leaves no thread more to do. -/
theorem work_lt_of_main (hthreads : ∀ u, s'.threadWork u ≤ s.threadWork u)
    (htest : s'.test = s.test) (hrest : s'.rest = s.rest)
    (hmain : s'.main.work s.test < s.main.work s.test) : s'.work < s.work := by
  have hsum := Finset.sum_le_sum fun u (_ : u ∈ Finset.range s.test.threads) => hthreads u
  unfold State.work
  rw [htest, hrest]
  omega

theorem work_lt_of_mainMove (h : Inv s) (hmove : MainMove s s') : s'.work < s.work := by
  cases hmove with
  | create k hmain hk =>
    have hunborn : (s.thread k).pc = .unborn := (h.unborn k).mpr (by simp [State.created, hmain])
    have hc := h.counts k
    simp only [Thread.Counts, hunborn] at hc
    refine work_lt_of_main (fun u => ?_) rfl rfl ?_
    · simp only [State.threadWork, setThread_thread]
      split_ifs with hu
      · subst hu
        simp [Thread.work, hunborn, hc.1]
      · exact le_rfl
    · simp only [hmain, MainPc.work]
      omega
  | created k hmain hk =>
    refine work_lt_of_main (fun u => le_rfl) rfl rfl ?_
    simp only [hmain, MainPc.work]
    omega
  | join k hmain hk hreturned =>
    refine work_lt_of_main (fun u => le_rfl) rfl rfl ?_
    simp only [hmain, MainPc.work]
    omega
  | joined k hmain hk clock hclock =>
    refine work_lt_of_main (fun u => ?_) rfl rfl ?_
    · simp [State.threadWork, pc_of_stop hclock]
    · simp [hmain, MainPc.work]
  | next test rest hmain hrest =>
    have hout := h.idle_outside (by simp [State.joined, hmain]) (by simp [State.created, hmain])
    have hsum : ∀ u, State.threadWork
        { s with test, rest, main := .create 0, thread := fun _ => {} } u =
          Thread.work test u {} .outside := by
      intro u
      simp [State.threadWork, hout]
    unfold State.work
    simp only [hmain, hrest, List.map_cons, List.sum_cons, Test.work, hsum]
    omega

theorem work_lt (h : Inv s) (hstep : Step s s') : s'.work < s.work := by
  cases hstep with
  | thread t ht hstep => exact work_lt_of_move h ht (move_of_threadStep hstep)
  | main hstep => exact work_lt_of_mainMove h (mainMove_of_mainStep hstep)

theorem FreshStep.step (h : FreshStep s s') : Step s s' := by
  cases h with
  | thread t ht _ hstep => exact .thread t ht hstep
  | main hstep => exact .main hstep

/-- Where the lock of the clock is only initialised while it is unused, the invariant of the shared
clock is kept. -/
theorem FreshStep.clock (h : Inv s) (hclock : SharedClock.Inv s.clock) (hstep : FreshStep s s') :
    SharedClock.Inv s'.clock := by
  cases hstep with
  | thread t _ hfresh hstep =>
    have hquiet : SharedClock.QuietInit s.clock t := fun hinit u => (hfresh hinit u).1
    cases move_of_threadStep hstep with
    | callClock _ clock hclock' => exact hclock.start hquiet hclock'
    | inClock _ clock hclock' => exact hclock.start hquiet hclock'
    | _ => exact hclock
  | main hstep =>
    cases mainMove_of_mainStep hstep with
    | joined k hmain hk clock hclock' =>
      have hle := h.joined_le
      have hjoined : s.joined = s.test.threads := by
        simp only [State.joined, hmain] at hle ⊢
        omega
      exact hclock.stop (h.idle_outside hjoined (by simp [State.created, hmain])) hclock'
    | _ => exact hclock

structure LockProtocol (s : State) : Prop where
  /-- One thread at a time is in a critical section. -/
  exclusive : ∀ t u, (s.thread t).pc.Holds → (s.thread u).pc.Holds → t = u
  /-- No thread calls `ct_start_clock` before all have arrived at the barrier. -/
  barrier : ∀ t, (s.thread t).pc.Past → s.allArrived
  /-- A thread returns after all of its sections; its counter has not overflowed. -/
  sections : ∀ t, (s.thread t).pc = .returned →
    (s.thread t).i = s.test.sections t ∧ (s.thread t).tmp = s.test.period t * s.test.sections t
  /-- When `ct_stop_clock` is called, all threads have returned, and the call does not block. -/
  stop : s.main = .join s.test.threads → (∀ t < s.test.threads, (s.thread t).pc = .returned) ∧
    (∀ t, s.clock.pc t = .outside) ∧ ∃ clock, SharedClock.ctStopClock s.clock = some clock
  /-- The shared clock goes through a run of its own machine. -/
  clock : SharedClock.Run (fun _ _ => True) s.clock
  terminates : ¬ ∃ run : ℕ → State, run 0 = s ∧ ∀ i, Step (run i) (run (i + 1))

/-- What holds in addition where the lock of the clock was only initialised while it was unused. -/
structure FreshProtocol (s : State) : Prop where
  clockSafe : SharedClock.Safe s.clock
  /-- A state that cannot go on in this way is behind the last test. -/
  deadlockFree : (∀ s', ¬ FreshStep s s') → s.main = .done ∧ s.rest = []
  finishes : ∃ s', ReflTransGen FreshStep s s' ∧ s'.main = .done ∧ s'.rest = []

/-- Every state of every run of a sequence of lock tests is one of the protocol. The run can be
finished unless the lock of the clock was initialised while a thread held it or waited for it. -/
theorem rwlockTest_lockProtocol (test : Test) (rest : List Test) (s : State) :
    (Reachable test rest s → LockProtocol s) ∧
      (FreshReachable test rest s → FreshProtocol s) := by
  have hstep : ∀ s s', Inv s → Step s s' → Inv s' := fun _ _ h => h.step
  have hless : ∀ s s', Inv s → Step s s' → s'.work < s.work := fun _ _ h => work_lt h
  constructor
  · intro hrun
    have hs : Inv s := BoundedRuns.inv_of_run hstep (inv_start test rest) hrun
    exact {
      exclusive := fun t u ht hu => by
        have := (hs.holder t).mpr ht
        rw [(hs.holder u).mpr hu] at this
        exact (Option.some.inj this).symm
      barrier := hs.past
      sections := fun t ht => by
        have hc := hs.counts t
        simp only [Thread.Counts, ht] at hc
        exact ⟨hc.1, hc.1 ▸ hc.2⟩
      stop := fun hmain => by
        have hjoined : s.joined = s.test.threads := by simp [State.joined, hmain]
        have hcreated : s.created = s.test.threads := by simp [State.created, hmain]
        exact ⟨fun t ht => hs.returned t (hjoined ▸ ht), hs.idle_outside hjoined hcreated,
          hs.stop_isSome hjoined hcreated⟩
      clock := hs.clock
      terminates := BoundedRuns.no_infinite_run hstep hless hs }
  · intro hrun
    have hstep' : ∀ s s', Inv s ∧ SharedClock.Inv s.clock → FreshStep s s' →
        Inv s' ∧ SharedClock.Inv s'.clock := fun _ _ h hfresh =>
      ⟨h.1.step hfresh.step, hfresh.clock h.1 h.2⟩
    have hless' : ∀ s s', Inv s ∧ SharedClock.Inv s.clock → FreshStep s s' → s'.work < s.work :=
      fun _ _ h hfresh => work_lt h.1 hfresh.step
    have hs := BoundedRuns.inv_of_run hstep' ⟨inv_start test rest, SharedClock.inv_initial⟩ hrun
    exact {
      clockSafe := hs.2.safe
      deadlockFree := hs.1.progress
      finishes := by
        obtain ⟨s', hrun, hs', hfinal⟩ := BoundedRuns.exists_final hstep' hless' hs
        exact ⟨s', hrun, hs'.1.progress hfinal⟩ }

/-- In front of the tests of `main`. -/
theorem rwlockTest_lockProtocol_main :
    LockProtocol (start mainTests.1 mainTests.2) ∧ FreshProtocol (start mainTests.1 mainTests.2) :=
  ⟨(rwlockTest_lockProtocol mainTests.1 mainTests.2 _).1 .refl,
    (rwlockTest_lockProtocol mainTests.1 mainTests.2 _).2 .refl⟩

end CrayTests.LockTests
