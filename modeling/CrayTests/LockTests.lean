import CrayTests.CInteger
import CrayTests.SharedClock

/-!
# The lock tests

`rwlock_test` of `lock_tests.c` and the calls of `main`, as a machine of the main thread and the
threads it creates. Both kinds of lock are one `pthread_mutex_t`. The threads go through
`ct_start_clock` one statement at a time, as in the machine of the shared clock. The allocation of
the arrays of threads, and what `main` prints, are left out.
-/

namespace CrayTests.LockTests

open CInteger

/-- The arguments of `rwlock_test`. The counters that the threads spin on are `int`s. -/
structure Test where
  nreaders : ℕ
  nreadsPerReader : ℕ
  nwriters : ℕ
  nwritesPerWriter : ℕ
  reads_int : 64 * nreadsPerReader < 2 ^ 31
  writes_int : 128 * nwritesPerWriter < 2 ^ 31

namespace Test

variable (test : Test)

/-- The threads, readers first; the barrier is for as many. -/
def threads : ℕ := test.nreaders + test.nwriters

def sections (t : ℕ) : ℕ :=
  if t < test.nreaders then test.nreadsPerReader else test.nwritesPerWriter

/-- A thread increments its counter up to the next multiple of this. -/
def period (t : ℕ) : ℕ := if t < test.nreaders then 64 else 128

end Test

inductive Pc
  | unborn
  | barrier
  | arrived
  | callClock
  | inClock
  | acquire
  | spin
  | release
  | returned
deriving DecidableEq

structure Thread where
  pc : Pc := .unborn
  i : ℕ := 0
  tmp : ℤ := 0

/-- The main thread creates or joins its `k`-th thread, or has stopped the clock. -/
inductive MainPc
  | create (k : ℕ)
  | join (k : ℕ)
  | done
deriving DecidableEq

structure State where
  test : Test
  rest : List Test
  main : MainPc
  thread : ℕ → Thread
  lock : Option ℕ
  clock : SharedClock.State ℕ

namespace State

variable (s : State)

def setThread (t : ℕ) (th : Thread) : State := { s with thread := Function.update s.thread t th }

def allArrived : Prop :=
  ∀ t < s.test.threads, (s.thread t).pc ≠ .unborn ∧ (s.thread t).pc ≠ .barrier

instance : Decidable s.allArrived :=
  inferInstanceAs (Decidable (∀ t < s.test.threads, _ ∧ _))

end State

def Test.head (test : Test) (t i : ℕ) : Pc := if i < test.sections t then .acquire else .returned

/-- A thread executes its next statement, or nothing where it blocks. -/
def threadStep (s : State) (t : ℕ) : Option State :=
  let th := s.thread t
  match th.pc with
  | .unborn => none
  | .barrier => some (s.setThread t { th with pc := .arrived })
  | .arrived => if s.allArrived then some (s.setThread t { th with pc := .callClock }) else none
  | .callClock => (SharedClock.ctStartClock s.clock t).map fun clock =>
    { s.setThread t { th with pc := .inClock } with clock }
  | .inClock => (SharedClock.ctStartClock s.clock t).map fun clock =>
    { s.setThread t { th with
        pc := if clock.pc t = .outside then s.test.head t th.i else .inClock } with clock }
  | .acquire =>
    if s.lock = none then some { s.setThread t { th with pc := .spin } with lock := some t }
    else none
  | .spin =>
    let tmp := int32 (th.tmp + 1)
    some (s.setThread t
      { th with tmp, pc := if tmp.tmod (s.test.period t) ≠ 0 then .spin else .release })
  | .release =>
    some { s.setThread t { th with i := th.i + 1, pc := s.test.head t (th.i + 1) } with
      lock := none }
  | .returned => none

/-- The main thread executes its next statement. After a call of `rwlock_test` comes the next. -/
def mainStep (s : State) : Option State :=
  match s.main with
  | .create k =>
    if k < s.test.threads then
      some { s.setThread k { pc := .barrier } with main := .create (k + 1) }
    else some { s with main := .join 0 }
  | .join k =>
    if k < s.test.threads then
      if (s.thread k).pc = .returned then some { s with main := .join (k + 1) } else none
    else (SharedClock.ctStopClock s.clock).map fun clock => { s with clock, main := .done }
  | .done =>
    match s.rest with
    | [] => none
    | test :: rest => some { s with test, rest, main := .create 0, thread := fun _ => {} }

inductive Step (s s' : State) : Prop
  | thread (t : ℕ) (ht : t < s.test.threads) (hstep : threadStep s t = some s')
  | main (hstep : mainStep s = some s')

/-- `pthread_mutex_init` finds no thread that holds the lock of the clock or waits for it. A thread
that sleeps on a mutex which is initialised anew is not woken any more; the machine lets it go on. -/
def FreshInit (s : State) (t : ℕ) : Prop :=
  s.clock.pc t = .initLock → ∀ u, ¬ (s.clock.pc u).Holds ∧ s.clock.pc u ≠ .lock

inductive FreshStep (s s' : State) : Prop
  | thread (t : ℕ) (ht : t < s.test.threads) (hfresh : FreshInit s t)
      (hstep : threadStep s t = some s')
  | main (hstep : mainStep s = some s')

def start (test : Test) (rest : List Test) : State where
  test := test
  rest := rest
  main := .create 0
  thread := fun _ => {}
  lock := none
  clock := SharedClock.initial

abbrev Reachable (test : Test) (rest : List Test) (s : State) : Prop :=
  Relation.ReflTransGen Step (start test rest) s

abbrev FreshReachable (test : Test) (rest : List Test) (s : State) : Prop :=
  Relation.ReflTransGen FreshStep (start test rest) s

def mainTests : Test × List Test :=
  (⟨2 ^ 7, 2 ^ 14, 2 ^ 7, 2 ^ 14, by decide, by decide⟩,
    [⟨2 ^ 7, 2 ^ 14, 1, 2 ^ 14, by decide, by decide⟩,
      ⟨2 ^ 7, 2 ^ 14, 0, 2 ^ 14, by decide, by decide⟩])

end CrayTests.LockTests
