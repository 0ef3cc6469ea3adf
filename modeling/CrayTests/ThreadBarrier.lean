import Mathlib.Tactic

/-!
# The thread barrier

`ct_tbarrier.h` as a machine whose threads take one atomic access or one local statement at a time.
Any list of threads is a schedule; a thread that makes no further call is not scheduled any more.
Counters stay below the number of threads, so `int` arithmetic is exact.

`increments`, `returns` and `stores` record history and are read by no step: how often a thread has
done its `atomic_fetch_add` and has returned, and how often the signal has been stored.
-/

namespace CrayTests.ThreadBarrier

/-- `fabtests_tbar_t`; its pointers lead to the shared arrays. -/
structure Tbar where
  phase : Fin 2 → ℤ
  slot : Fin 2
  njoiners : ℤ

inductive Pc
  | outside
  | fetchAdd
  | compare
  | storeCounter
  | storeSignal
  | loadSignal
  | testVal
  | toggle
  deriving DecidableEq

structure Thread where
  tbar : Tbar
  pc : Pc := .outside
  njoiners : ℤ := 0
  val : ℤ := 0
  increments : ℕ := 0
  returns : ℕ := 0

structure State (N : ℕ) where
  counter : Fin 2 → ℤ
  signal : Fin 2 → ℤ
  thread : Fin N → Thread
  stores : ℕ := 0

variable {N : ℕ}

def ctTbarrierInit (njoiners : ℤ) : Tbar := ⟨fun _ => 0, 0, njoiners⟩

def init (N : ℕ) : State N :=
  { counter := fun _ => 0, signal := fun _ => 0, thread := fun _ => { tbar := ctTbarrierInit N } }

def Tbar.toggle (tbar : Tbar) : Tbar :=
  { tbar with
    phase := Function.update tbar.phase tbar.slot (1 - tbar.phase tbar.slot)
    slot := 1 - tbar.slot }

def State.set (s : State N) (t : Fin N) (th : Thread) : State N :=
  { s with thread := Function.update s.thread t th }

def step (s : State N) (t : Fin N) : State N :=
  let th := s.thread t
  let slot := th.tbar.slot
  match th.pc with
  | .outside => s.set t { th with pc := .fetchAdd }
  | .fetchAdd =>
    { s with counter := Function.update s.counter slot (s.counter slot + 1) }.set t
      { th with pc := .compare, njoiners := s.counter slot, increments := th.increments + 1 }
  | .compare =>
    s.set t { th with
      pc := if th.njoiners + 1 = th.tbar.njoiners then .storeCounter else .loadSignal }
  | .storeCounter =>
    { s with counter := Function.update s.counter slot 0 }.set t { th with pc := .storeSignal }
  | .storeSignal =>
    { s with
      signal := Function.update s.signal slot (1 - th.tbar.phase slot)
      stores := s.stores + 1 }.set t { th with pc := .toggle }
  | .loadSignal => s.set t { th with pc := .testVal, val := s.signal slot }
  | .testVal =>
    s.set t { th with pc := if th.val = th.tbar.phase slot then .loadSignal else .toggle }
  | .toggle =>
    s.set t { th with pc := .outside, tbar := th.tbar.toggle, returns := th.returns + 1 }

def run (s : State N) (schedule : List (Fin N)) : State N := schedule.foldl step s

def Reachable (s : State N) : Prop := ∃ schedule, run (init N) schedule = s

def Thread.Inside (th : Thread) : Prop := th.pc ≠ .outside

def Thread.Spinning (th : Thread) : Prop := th.pc = .loadSignal ∨ th.pc = .testVal

/-- The word the thread waits for has not changed since it entered the loop. -/
def Unchanged (s : State N) (t : Fin N) : Prop :=
  s.signal (s.thread t).tbar.slot = (s.thread t).tbar.phase (s.thread t).tbar.slot

/-- The thread can only read an unchanged signal once more. -/
def OnlyRereads (s : State N) (t : Fin N) : Prop :=
  Unchanged s t ∧ ((s.thread t).pc = .loadSignal ∨
    (s.thread t).pc = .testVal ∧
      (s.thread t).val = (s.thread t).tbar.phase (s.thread t).tbar.slot)

variable {s : State N} {t u : Fin N} {th : Thread}

@[simp] theorem State.set_counter : (s.set t th).counter = s.counter := rfl

@[simp] theorem State.set_signal : (s.set t th).signal = s.signal := rfl

@[simp] theorem State.set_stores : (s.set t th).stores = s.stores := rfl

@[simp] theorem State.set_thread_self : (s.set t th).thread t = th := by simp [State.set]

@[simp] theorem State.set_thread_ne (h : u ≠ t) : (s.set t th).thread u = s.thread u := by
  simp [State.set, h]

theorem State.forall_set {P : Fin N → Thread → Prop} (hself : P t th)
    (hother : ∀ u, u ≠ t → P u (s.thread u)) (u : Fin N) : P u ((s.set t th).thread u) := by
  by_cases hu : u = t
  · subst hu
    rwa [State.set_thread_self]
  · rw [State.set_thread_ne hu]
    exact hother u hu

theorem run_append (s : State N) (l l' : List (Fin N)) : run s (l ++ l') = run (run s l) l' :=
  List.foldl_append

theorem Reachable.run (h : Reachable s) (l : List (Fin N)) :
    Reachable (ThreadBarrier.run s l) := by
  obtain ⟨l', rfl⟩ := h
  exact ⟨l' ++ l, run_append _ _ _⟩

/-- The slot that a thread uses next after `e` calls. -/
def slotOf : ℕ → Fin 2
  | 0 => 0
  | e + 1 => 1 - slotOf e

/-- The phase words of such a thread. The signal words are those of the number of signal stores. -/
def sense : ℕ → Fin 2 → ℤ
  | 0 => fun _ => 0
  | e + 1 => Function.update (sense e) (slotOf e) (1 - sense e (slotOf e))

theorem slotOf_succ_ne (e : ℕ) : slotOf (e + 1) ≠ slotOf e := by
  rw [slotOf]
  generalize slotOf e = i
  revert i
  decide

theorem slotOf_add_two (e : ℕ) : slotOf (e + 2) = slotOf e := by
  rw [slotOf, slotOf]
  generalize slotOf e = i
  revert i
  decide

theorem sense_succ (e : ℕ) : sense (e + 1) (slotOf e) = 1 - sense e (slotOf e) := by
  rw [sense, Function.update_self]

theorem sense_ne (e : ℕ) : sense (e + 1) (slotOf e) ≠ sense e (slotOf e) := by
  rw [sense_succ]
  omega

end CrayTests.ThreadBarrier
