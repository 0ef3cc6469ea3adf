import CrayTests.TestRunner

/-!
# Waiting for a batch of processes

`craytests.waitall` of `run_cray_tests.py`. The clock, `select`, the reads from the pipes and the exit
statuses are answers of the environment; the reads, waits and kills are logged. What a name refers to
is looked up when an expression with the name is evaluated, and a name that is not defined raises a
`NameError`.
-/

namespace CrayTests.WaitAll
open TestRunner (Launcher)

abbrev Text := List Char

structure Proc where
  launcher : Option Launcher
  endTime : ℚ

/-- The answers in the `k`-th round of the loop for the process at each place of the batch, and what
`p.wait`, `communicate` and `returncode` give. -/
structure Env where
  now : ℕ → ℚ
  ready : ℕ → ℕ → Bool
  read : ℕ → ℕ → Text
  wait : ℕ → ℤ
  communicate : ℕ → Text
  returncode : ℕ → ℤ

inductive Exn
  | nameError (name : String)
  | valueError
  | readTimeout (message : String)
deriving DecidableEq

inductive Syscall
  | read (i : ℕ) (bytes : Text)
  | wait (i : ℕ)
  | kill (i : ℕ)
deriving DecidableEq

structure State where
  buffers : ℕ → Text
  done : ℕ → Bool
  retvals : ℕ → ℤ
  log : List Syscall

def sigalrm : ℤ := 14

/-- The names that the script defines at its top level. -/
def scriptNames : List String :=
  ["argparse", "subprocess", "sys", "socket", "os", "select", "fcntl", "time", "SIGALRM",
    "testlist", "craytests", "ct_default_timeout", "_main"]

def lookup (names : List String) (name : String) : Option Exn :=
  if name ∈ names then none else some (.nameError name)

variable (names : List String) (env : Env) (plist : List Proc)

def raiseTimeout (message : String) : Exn := (lookup names "fabtest").getD (.readTimeout message)

def hasStream (i : ℕ) : Bool := (plist[i]?.map fun p => p.launcher.isNone).getD false

def endTime (i : ℕ) : ℚ := (plist[i]?.map Proc.endTime).getD 0

def initState : State where
  buffers _ := []
  done i := !hasStream plist i
  retvals _ := -sigalrm
  log := []

def State.readEof (st : State) (i : ℕ) (status : ℤ) : State :=
  { st with
    done := Function.update st.done i true
    retvals := Function.update st.retvals i status
    log := st.log ++ [.read i [], .wait i] }

def State.readChunk (st : State) (i : ℕ) (bytes : Text) : State :=
  { st with
    buffers := Function.update st.buffers i (st.buffers i ++ bytes)
    log := st.log ++ [.read i bytes] }

def checkTime (k i : ℕ) (st : State) : State × Option Exn :=
  if endTime plist i ≤ env.now k then
    (st, some (raiseTimeout names ("Timeout: process " ++ toString i)))
  else (st, none)

/-- The body of the loop over the processes, with the exception it ends in. -/
def pollProc (k i : ℕ) (st : State) : State × Option Exn :=
  if hasStream plist i then
    if env.ready k i then
      if env.read k i = [] then (st.readEof i (env.wait i), none)
      else checkTime names env plist k i (st.readChunk i (env.read k i))
    else checkTime names env plist k i st
  else (st, none)

def pollProcs (k : ℕ) : List ℕ → State → State × Option Exn
  | [], st => (st, none)
  | i :: rest, st =>
    match pollProc names env plist k i st with
    | (st, some exn) => (st, some exn)
    | (st, none) => pollProcs k rest st

/-- `sum(d for d in done) != num_procs`, negated. -/
def State.allDone (st : State) : Prop := ∀ i < plist.length, st.done i = true

instance (st : State) : Decidable (st.allDone plist) :=
  inferInstanceAs (Decidable (∀ i < plist.length, st.done i = true))

/-- The loop of `waitall` within a number of rounds: the state and the exception in which it ends,
or nothing while it is running. -/
def waitLoop : ℕ → ℕ → State → Option (State × Option Exn)
  | 0, _, _ => none
  | fuel + 1, k, st =>
    if st.allDone plist then some (st, none)
    else
      match pollProcs names env plist k (List.range plist.length) st with
      | (st, some exn) => some (st, some exn)
      | (st, none) => waitLoop fuel (k + 1) st

def State.killAll (st : State) : State :=
  { st with log := st.log ++ (List.range plist.length).map .kill }

/-- `except fabtest.ReadTimeoutException`, with the exception that the clause does not take. -/
def handle (exn : Exn) (st : State) : State × Option Exn :=
  match lookup names "fabtest", exn with
  | some nameError, _ => (st, some nameError)
  | none, .readTimeout _ => (st.killAll plist, none)
  | none, exn => (st, some exn)

/-- The processes whose time limit is enforced by their launcher. -/
def communicateAll (st : State) : State :=
  { st with
    buffers := fun i =>
      if i < plist.length ∧ !hasStream plist i then st.buffers i ++ env.communicate i
      else st.buffers i
    retvals := fun i =>
      if i < plist.length ∧ !hasStream plist i then env.returncode i else st.retvals i }

/-- A call of `waitall`: still in its loop, or ended. -/
inductive Call
  | running
  | returned (st : State)
  | raised (exn : Exn)

def waitall (fuel : ℕ) : Call :=
  if plist = [] then .raised .valueError
  else
    match waitLoop names env plist fuel 0 (initState plist) with
    | none => .running
    | some (st, none) => .returned (communicateAll env plist st)
    | some (st, some exn) =>
      match handle names plist exn st with
      | (st, none) => .returned (communicateAll env plist st)
      | (_, some exn) => .raised exn

def chunks (i : ℕ) (log : List Syscall) : Text :=
  log.flatMap fun
    | .read j bytes => if j = i then bytes else []
    | _ => []

variable {names env plist}

def Env.Eof (env : Env) (k i : ℕ) : Prop := env.ready k i = true ∧ env.read k i = []

instance (k i : ℕ) : Decidable (env.Eof k i) := inferInstanceAs (Decidable (_ ∧ _))

variable (env plist)

/-- In some round that is not after the end of all streams, a process whose stream is not at its end
is past its time. -/
def TimesOut : Prop :=
  ∃ k, ∃ i < plist.length, endTime plist i ≤ env.now k ∧ ¬ env.Eof k i ∧
    ¬ ∀ j < plist.length, ∃ k' < k, env.Eof k' j

structure Reports (st : State) : Prop where
  buffers : ∀ i < plist.length, st.buffers i = chunks i st.log
  retvals : ∀ i < plist.length,
    st.retvals i = if Syscall.read i [] ∈ st.log then env.wait i else -sigalrm
  killed : TimesOut env plist → ∀ i < plist.length, Syscall.kill i ∈ st.log

variable (names)

/-- No exception is propagated, and what is returned reports all processes. -/
structure ReportsBatch : Prop where
  no_raise : ∀ fuel exn, waitall names env plist fuel ≠ .raised exn
  reports : ∀ fuel st, waitall names env plist fuel = .returned st → Reports env plist st

variable {names env plist}

def Late (env : Env) (plist : List Proc) (k i : ℕ) : Prop :=
  endTime plist i ≤ env.now k ∧ ¬ env.Eof k i

instance (k i : ℕ) : Decidable (Late env plist k i) := inferInstanceAs (Decidable (_ ∧ _))

def State.poll (env : Env) (k : ℕ) (st : State) (i : ℕ) : State :=
  if env.Eof k i then st.readEof i (env.wait i)
  else if env.ready k i then st.readChunk i (env.read k i) else st

theorem pollProc_eq {i : ℕ} (hstream : hasStream plist i = true) (k : ℕ) (st : State) :
    pollProc names env plist k i st = (st.poll env k i, if Late env plist k i then
      some (raiseTimeout names ("Timeout: process " ++ toString i)) else none) := by
  unfold pollProc State.poll Late Env.Eof checkTime
  rw [if_pos hstream]
  by_cases hready : env.ready k i
  · by_cases hread : env.read k i = []
    · simp [hready, hread]
    · by_cases htime : endTime plist i ≤ env.now k <;> simp [hready, hread, htime]
  · by_cases htime : endTime plist i ≤ env.now k <;> simp [hready, htime]

structure Logged (env : Env) (st : State) : Prop where
  buffers : ∀ i, st.buffers i = chunks i st.log
  retvals : ∀ i, st.retvals i = if Syscall.read i [] ∈ st.log then env.wait i else -sigalrm

theorem chunks_append (i : ℕ) (a b : List Syscall) :
    chunks i (a ++ b) = chunks i a ++ chunks i b := List.flatMap_append

theorem Logged.readEof {st : State} (h : Logged env st) (i : ℕ) :
    Logged env (st.readEof i (env.wait i)) where
  buffers j := by
    change st.buffers j = chunks j (st.log ++ [.read i [], .wait i])
    rw [chunks_append, h.buffers]
    simp [chunks]
  retvals j := by
    change Function.update st.retvals i (env.wait i) j =
      if Syscall.read j [] ∈ st.log ++ [.read i [], .wait i] then env.wait j else -sigalrm
    by_cases hj : j = i
    · subst hj
      simp
    · rw [Function.update_of_ne hj, h.retvals]
      simp [hj]

theorem Logged.readChunk {st : State} (h : Logged env st) (i : ℕ) {bytes : Text}
    (hbytes : bytes ≠ []) : Logged env (st.readChunk i bytes) where
  buffers j := by
    change Function.update st.buffers i (st.buffers i ++ bytes) j =
      chunks j (st.log ++ [.read i bytes])
    rw [chunks_append, ← h.buffers]
    by_cases hj : j = i
    · subst hj
      simp [chunks]
    · rw [Function.update_of_ne hj]
      simp [chunks, Ne.symm hj]
  retvals j := by
    change st.retvals j =
      if Syscall.read j [] ∈ st.log ++ [.read i bytes] then env.wait j else -sigalrm
    rw [h.retvals]
    simp [Ne.symm hbytes]

theorem Logged.poll {st : State} (h : Logged env st) (k i : ℕ) : Logged env (st.poll env k i) := by
  unfold State.poll
  split_ifs with heof hready
  · exact h.readEof i
  · exact h.readChunk i fun hread => heof ⟨hready, hread⟩
  · exact h

theorem Logged.killAll {st : State} (h : Logged env st) (plist : List Proc) :
    Logged env (st.killAll plist) where
  buffers i := by
    change st.buffers i = chunks i (st.log ++ (List.range plist.length).map .kill)
    rw [chunks_append, h.buffers]
    simp [chunks]
  retvals i := by
    change st.retvals i = if Syscall.read i [] ∈ st.log ++ (List.range plist.length).map .kill
      then env.wait i else -sigalrm
    rw [h.retvals]
    simp

theorem done_poll (st : State) (k i j : ℕ) :
    (st.poll env k i).done j = true ↔ st.done j = true ∨ i = j ∧ env.Eof k j := by
  unfold State.poll
  split_ifs with heof hready
  · change Function.update st.done i true j = true ↔ _
    by_cases hj : j = i
    · subst hj
      simp [heof]
    · rw [Function.update_of_ne hj]
      simp [Ne.symm hj]
  · change st.done j = true ↔ _
    constructor
    · exact Or.inl
    · rintro (h | ⟨rfl, h⟩)
      · exact h
      · exact absurd h heof
  · constructor
    · exact Or.inl
    · rintro (h | ⟨rfl, h⟩)
      · exact h
      · exact absurd h heof

theorem Logged.polls {st : State} (h : Logged env st) (k : ℕ) (is : List ℕ) :
    Logged env (is.foldl (fun st i => st.poll env k i) st) := by
  induction is generalizing st with
  | nil => exact h
  | cons i is ih => exact ih (h.poll k i)

theorem done_polls (st : State) (k j : ℕ) (is : List ℕ) :
    (is.foldl (fun st i => st.poll env k i) st).done j = true ↔
      st.done j = true ∨ j ∈ is ∧ env.Eof k j := by
  induction is generalizing st with
  | nil => simp
  | cons i is ih =>
    rw [List.foldl_cons, ih, done_poll, List.mem_cons]
    constructor
    · rintro ((h | ⟨rfl, h⟩) | ⟨hmem, h⟩)
      · exact .inl h
      · exact .inr ⟨.inl rfl, h⟩
      · exact .inr ⟨.inr hmem, h⟩
    · rintro (h | ⟨rfl | hmem, h⟩)
      · exact .inl (.inl h)
      · exact .inl (.inr ⟨rfl, h⟩)
      · exact .inr ⟨hmem, h⟩

theorem pollProcs_of_not_late {k : ℕ} {is : List ℕ} (hstream : ∀ i ∈ is, hasStream plist i = true)
    (h : ∀ i ∈ is, ¬ Late env plist k i) (st : State) :
    pollProcs names env plist k is st = (is.foldl (fun st i => st.poll env k i) st, none) := by
  induction is generalizing st with
  | nil => rfl
  | cons i is ih =>
    rw [pollProcs, pollProc_eq (hstream i List.mem_cons_self), if_neg (h i List.mem_cons_self)]
    exact ih (fun j hj => hstream j (List.mem_cons_of_mem i hj))
      (fun j hj => h j (List.mem_cons_of_mem i hj)) _

/-- The first late process raises the exception. -/
theorem pollProcs_of_late (names : List String) {k i : ℕ} {is : List ℕ}
    (hstream : ∀ i ∈ is, hasStream plist i = true) (hmem : i ∈ is)
    (hlate : Late env plist k i) {st : State} (hst : Logged env st) :
    ∃ st' message, pollProcs names env plist k is st = (st', some (raiseTimeout names message)) ∧
      Logged env st' := by
  induction is generalizing st with
  | nil => cases hmem
  | cons j is ih =>
    rw [pollProcs, pollProc_eq (hstream j List.mem_cons_self)]
    by_cases hj : Late env plist k j
    · rw [if_pos hj]
      exact ⟨_, _, rfl, hst.poll k j⟩
    · rw [if_neg hj]
      have hrest : i ∈ is := by
        rcases List.mem_cons.mp hmem with rfl | hrest
        · exact absurd hlate hj
        · exact hrest
      exact ih (fun l hl => hstream l (List.mem_cons_of_mem j hl)) hrest (hst.poll k j)

section Loop

variable (hnone : ∀ p ∈ plist, p.launcher = none)
include hnone

theorem hasStream_of_lt {i : ℕ} (hi : i < plist.length) : hasStream plist i = true := by
  unfold hasStream
  rw [List.getElem?_eq_getElem hi, Option.map_some, Option.getD_some,
    hnone _ (List.getElem_mem hi)]
  rfl

omit hnone in
def afterRounds (env : Env) (plist : List Proc) : ℕ → State
  | 0 => initState plist
  | k + 1 => (List.range plist.length).foldl (fun st i => st.poll env k i)
      (afterRounds env plist k)

omit hnone in
theorem logged_afterRounds (plist : List Proc) (k : ℕ) : Logged env (afterRounds env plist k) := by
  induction k with
  | zero => exact ⟨fun _ => rfl, fun i => by simp [afterRounds, initState]⟩
  | succ k ih => exact ih.polls k _

theorem done_afterRounds (k : ℕ) {i : ℕ} (hi : i < plist.length) :
    (afterRounds env plist k).done i = true ↔ ∃ k' < k, env.Eof k' i := by
  induction k with
  | zero => simp [afterRounds, initState, hasStream_of_lt hnone hi]
  | succ k ih =>
    rw [afterRounds, done_polls, ih]
    simp only [List.mem_range, hi, true_and]
    constructor
    · rintro (⟨k', hk', h⟩ | h)
      · exact ⟨k', by omega, h⟩
      · exact ⟨k, Nat.lt_succ_self k, h⟩
    · rintro ⟨k', hk', h⟩
      rcases Nat.lt_succ_iff_lt_or_eq.mp hk' with hlt | rfl
      · exact .inl ⟨k', hlt, h⟩
      · exact .inr h

theorem allDone_afterRounds (k : ℕ) : (afterRounds env plist k).allDone plist ↔
    ∀ i < plist.length, ∃ k' < k, env.Eof k' i :=
  forall_congr' fun _ => forall_congr' fun hi => done_afterRounds hnone k hi

/-- How the loop ends: with all streams at their end, or with the exception of a round in which a
process is late. -/
theorem waitLoop_ends {fuel k : ℕ} {r : State × Option Exn}
    (h : waitLoop names env plist fuel k (afterRounds env plist k) = some r) :
    (∃ m, r = (afterRounds env plist m, none) ∧ (afterRounds env plist m).allDone plist ∧
        ∀ l, k ≤ l → l < m → ∀ i < plist.length, ¬ Late env plist l i) ∨
      TimesOut env plist ∧ ∃ message, r.2 = some (raiseTimeout names message) ∧ Logged env r.1 := by
  induction fuel generalizing k with
  | zero => cases h
  | succ fuel ih =>
    rw [waitLoop] at h
    have hstream : ∀ i ∈ List.range plist.length, hasStream plist i = true :=
      fun i hi => hasStream_of_lt hnone (List.mem_range.mp hi)
    by_cases hdone : (afterRounds env plist k).allDone plist
    · rw [if_pos hdone] at h
      obtain rfl := Option.some.inj h
      exact .inl ⟨k, rfl, hdone, fun l hle hlt => absurd hle (by omega)⟩
    rw [if_neg hdone] at h
    by_cases hlate : ∃ i ∈ List.range plist.length, Late env plist k i
    · obtain ⟨i, hi, hlate⟩ := hlate
      obtain ⟨st, message, hpoll, hlogged⟩ := pollProcs_of_late names hstream hi hlate
        (logged_afterRounds plist k)
      rw [hpoll] at h
      obtain rfl := Option.some.inj h
      refine .inr ⟨⟨k, i, List.mem_range.mp hi, hlate.1, hlate.2, ?_⟩, message, rfl, hlogged⟩
      rwa [← allDone_afterRounds hnone]
    · have hintime : ∀ i ∈ List.range plist.length, ¬ Late env plist k i :=
        fun i hi hl => hlate ⟨i, hi, hl⟩
      rw [pollProcs_of_not_late hstream hintime] at h
      rcases ih (k := k + 1) h with ⟨m, hr, hm, hrounds⟩ | hend
      · refine .inl ⟨m, hr, hm, fun l hle hlt => ?_⟩
        rcases Nat.eq_or_lt_of_le hle with rfl | hgt
        · exact fun i hi => hintime i (List.mem_range.mpr hi)
        · exact hrounds l hgt hlt
      · exact .inr hend

/-- A round in which a process is late is not passed. -/
theorem waitLoop_ne_none (names : List String) {m i : ℕ} (hi : i < plist.length)
    (hlate : Late env plist m i) {k : ℕ} (hk : k ≤ m) :
    waitLoop names env plist (m - k + 1) k (afterRounds env plist k) ≠ none := by
  have hstream : ∀ i ∈ List.range plist.length, hasStream plist i = true :=
    fun i hi => hasStream_of_lt hnone (List.mem_range.mp hi)
  induction hd : m - k generalizing k with
  | zero =>
    obtain rfl : k = m := by omega
    rw [waitLoop]
    split_ifs
    · simp
    · obtain ⟨st, message, hpoll, -⟩ := pollProcs_of_late names hstream
        (List.mem_range.mpr hi) hlate (logged_afterRounds plist k)
      rw [hpoll]
      simp
  | succ d ih =>
    rw [waitLoop]
    split_ifs
    · simp
    by_cases hround : ∃ j ∈ List.range plist.length, Late env plist k j
    · obtain ⟨j, hj, hlate⟩ := hround
      obtain ⟨st, message, hpoll, -⟩ := pollProcs_of_late names hstream hj hlate
        (logged_afterRounds plist k)
      rw [hpoll]
      simp
    · rw [pollProcs_of_not_late hstream fun j hj hl => hround ⟨j, hj, hl⟩]
      exact ih (k := k + 1) (by omega) (by omega)

/-- A loop that ends with all streams at their end was not timed out. -/
theorem not_timesOut {m : ℕ} (hdone : (afterRounds env plist m).allDone plist)
    (hrounds : ∀ l < m, ∀ i < plist.length, ¬ Late env plist l i) : ¬ TimesOut env plist := by
  rintro ⟨k, i, hi, htime, heof, hopen⟩
  by_cases hk : k < m
  · exact hrounds k hk i hi ⟨htime, heof⟩
  · apply hopen
    intro j hj
    obtain ⟨k', hk', h⟩ := (allDone_afterRounds hnone m).mp hdone j hj
    exact ⟨k', by omega, h⟩

theorem Logged.reports {st : State} (h : Logged env st)
    (hkilled : TimesOut env plist → ∀ i < plist.length, Syscall.kill i ∈ st.log) :
    Reports env plist (communicateAll env plist st) where
  buffers i hi := by
    simp only [communicateAll, hasStream_of_lt hnone hi, Bool.not_true, Bool.false_eq_true,
      and_false, if_false]
    exact h.buffers i
  retvals i hi := by
    simp only [communicateAll, hasStream_of_lt hnone hi, Bool.not_true, Bool.false_eq_true,
      and_false, if_false]
    exact h.retvals i
  killed := hkilled

variable (hne : plist ≠ [])
include hne

/-- A call in which the timeout can be caught, or does not come, is in its loop or has returned. -/
theorem running_or_reports (h : "fabtest" ∈ names ∨ ¬ TimesOut env plist) (fuel : ℕ) :
    waitall names env plist fuel = .running ∨
      ∃ st, waitall names env plist fuel = .returned st ∧ Reports env plist st := by
  unfold waitall
  rw [if_neg hne]
  cases hloop : waitLoop names env plist fuel 0 (initState plist) with
  | none => exact .inl rfl
  | some r =>
    rcases waitLoop_ends hnone (k := 0) hloop with
      ⟨m, rfl, hdone, hrounds⟩ | ⟨htimes, message, hexn, hlogged⟩
    · have hnot := not_timesOut hnone hdone fun l hl => hrounds l (Nat.zero_le l) hl
      exact .inr ⟨_, rfl, (logged_afterRounds plist m).reports hnone fun ht => absurd ht hnot⟩
    · have hname : lookup names "fabtest" = none :=
        if_pos (h.resolve_right (not_not_intro htimes))
      obtain ⟨st, exn⟩ := r
      obtain rfl : exn = some (raiseTimeout names message) := hexn
      have hraise : raiseTimeout names message = .readTimeout message := by
        rw [raiseTimeout, hname]
        rfl
      rw [hraise]
      simp only [handle, hname]
      refine .inr ⟨_, rfl, (hlogged.killAll plist).reports hnone fun _ i hi => ?_⟩
      exact List.mem_append_right _ (List.mem_map_of_mem (List.mem_range.mpr hi))

theorem reportsBatch_of (h : "fabtest" ∈ names ∨ ¬ TimesOut env plist) :
    ReportsBatch names env plist where
  no_raise fuel exn hraised := by
    rcases running_or_reports hnone hne h fuel with hrun | ⟨st, hret, -⟩
    · rw [hrun] at hraised
      cases hraised
    · rw [hret] at hraised
      cases hraised
  reports fuel st hret := by
    rcases running_or_reports hnone hne h fuel with hrun | ⟨st', hret', hreports⟩
    · rw [hrun] at hret
      cases hret
    · rw [hret'] at hret
      cases hret
      exact hreports

/-- Where the name is not defined, a timeout ends in a `NameError`. -/
theorem exists_raised (names : List String) (hname : "fabtest" ∉ names) (h : TimesOut env plist) :
    ∃ fuel, waitall names env plist fuel = .raised (.nameError "fabtest") := by
  obtain ⟨k, i, hi, htime, heof, -⟩ := id h
  have hlookup : lookup names "fabtest" = some (.nameError "fabtest") := if_neg hname
  refine ⟨k + 1, ?_⟩
  have hends := waitLoop_ne_none hnone names hi ⟨htime, heof⟩ (Nat.zero_le k)
  obtain ⟨⟨st, exn⟩, hloop⟩ := Option.ne_none_iff_exists'.mp hends
  rcases waitLoop_ends hnone hloop with ⟨m, -, hdone, hrounds⟩ | ⟨-, message, rfl, -⟩
  · exact absurd h (not_timesOut hnone hdone fun l hl => hrounds l (Nat.zero_le l) hl)
  · rw [Nat.sub_zero] at hloop
    unfold waitall
    rw [if_neg hne, show initState plist = afterRounds env plist 0 from rfl, hloop]
    simp only [handle, hlookup]

omit hnone hne

/-- For every batch started without a launcher and all answers of the environment, `waitall` reports
the batch exactly when it does not time out. -/
theorem reportsBatch_iff (env : Env) (plist : List Proc) (hne : plist ≠ [])
    (hnone : ∀ p ∈ plist, p.launcher = none) :
    ReportsBatch scriptNames env plist ↔ ¬ TimesOut env plist := by
  constructor
  · intro h htimes
    obtain ⟨fuel, hraised⟩ := exists_raised hnone hne scriptNames (by decide) htimes
    exact h.no_raise fuel _ hraised
  · exact fun h => reportsBatch_of hnone hne (.inr h)

end Loop

/-- One process with a time of 60 seconds, which prints nothing and does not end; the clock is read
at 0 and at 60. -/
def silent : Env where
  now k := 60 * k
  ready _ _ := false
  read _ _ := []
  wait _ := 0
  communicate _ := []
  returncode _ := 0

def oneProc : List Proc := [⟨none, 60⟩]

theorem reportsBatch_iff_silent :
    ReportsBatch scriptNames silent oneProc ↔ ¬ TimesOut silent oneProc :=
  reportsBatch_iff silent oneProc (by decide) (by simp [oneProc])

/-- The second round raises the exception, and the call ends in a `NameError`. -/
theorem not_reportsBatch_silent :
    (∃ fuel, waitall scriptNames silent oneProc fuel = .raised (.nameError "fabtest")) ∧
      ¬ ReportsBatch scriptNames silent oneProc := by
  have htimes : TimesOut silent oneProc := by
    refine ⟨1, 0, by decide, ?_, ?_, ?_⟩
    · norm_num [endTime, oneProc, silent]
    · simp [Env.Eof, silent]
    · intro h
      obtain ⟨k, -, hk⟩ := h 0 (by decide)
      simp [Env.Eof, silent] at hk
  obtain ⟨fuel, hraised⟩ := exists_raised (by simp [oneProc]) (by simp [oneProc]) scriptNames
    (by decide) htimes
  exact ⟨⟨fuel, hraised⟩, fun h => h.no_raise fuel _ hraised⟩

end CrayTests.WaitAll
