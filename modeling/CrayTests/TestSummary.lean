import Mathlib.Tactic
import CrayTests.TestCollection

/-!
# The summary of a run

The runner prints three numbers last. The first one is counted where a test is started, the
second one where its exit status is collected, so that a test that fails is counted by both.
-/

namespace CrayTests.TestRunner

structure Counts where
  passed : ℤ
  failed : ℤ
  notRun : ℤ
deriving DecidableEq

def Counts.total (c : Counts) : ℤ := c.passed + c.failed + c.notRun

def Counts.lines (c : Counts) : List String :=
  ["###\n### " ++ toString c.passed ++ " PASSSED\n",
    "### " ++ toString c.failed ++ " FAILED\n",
    "### " ++ toString c.notRun ++ " NOT RUN\n"]

def printed (total : ℕ) (st : State) : Counts :=
  ⟨st.runTests, st.failedTests.length, (total : ℤ) - st.runTests⟩

def setsName (p : String) : Bool := (splitAt '=' p).head? = some "name"

def named (tparams : List String) : Bool := tparams.any setsName

/-- The tests of `testlist` that are never started: the unnamed configurations, and those whose
`start` fails. -/
def neverStarted (env : Env) (testlist : List (List String)) (ctlist : List Craytests) : ℕ :=
  testlist.countP (fun tparams => !named tparams) +
    ctlist.zipIdx.countP fun p => (start env p.2 p.1).1 ≠ 0

def outcomes (env : Env) (testlist : List (List String)) (ctlist : List Craytests) : Counts where
  passed := (startedJobs env ctlist).countP fun job => env.status job.idx = 0
  failed := (startedJobs env ctlist).countP fun job => env.status job.idx ≠ 0
  notRun := neverStarted env testlist ctlist

/-- The lines that follow the output of the tests count how these ended, and the numbers in them
add up to the number of tests. -/
def SummaryPartitions (env : Env) (opts : Options) (testlist : List (List String)) : Prop :=
  ∀ out ctlist, buildTests opts testlist = .ok (out, ctlist) →
    (∃ failedLines, (main env opts testlist).out =
      (runTests env opts.jobs out ctlist).out ++
        ((outcomes env testlist ctlist).lines ++ failedLines)) ∧
    (outcomes env testlist ctlist).total = testlist.length

def AllPass (env : Env) (opts : Options) (testlist : List (List String)) : Prop :=
  ∀ out ctlist, buildTests opts testlist = .ok (out, ctlist) →
    ∀ job ∈ startedJobs env ctlist, env.status job.idx = 0

variable {env : Env} {opts : Options} {testlist : List (List String)} {ctlist : List Craytests}

theorem Counts.passed_of_lines {c c' : Counts} {p p' : ℕ} {rest rest' : List String}
    (hp : c.passed = p) (hp' : c'.passed = p') (h : c.lines ++ rest = c'.lines ++ rest') :
    p = p' := by
  have hhead : "###\n### " ++ toString c.passed ++ " PASSSED\n" =
      "###\n### " ++ toString c'.passed ++ " PASSSED\n" := (List.cons.inj h).1
  have hrepr : Nat.repr p = Nat.repr p' := by
    have hstring := (String.append_right_inj _).mp ((String.append_left_inj _).mp hhead)
    rwa [hp, hp'] at hstring
  have hdigits := congrArg String.toList hrepr
  rw [Nat.toList_repr, Nat.toList_repr] at hdigits
  rw [← Nat.ofDigitChars_ten_toDigits (n := p), hdigits, Nat.ofDigitChars_ten_toDigits]

theorem summary_eq (total : ℕ) (st : State) :
    ∃ failedLines, summary total st = (printed total st).lines ++ failedLines :=
  ⟨_, rfl⟩

theorem tname_of_ok {tp tp' : Params} {tname : Option String}
    (h : (.ok tp : Except (List String) Params) = .ok tp') (hkeep : tp.tname = tname) :
    tp'.tname = tname := by
  cases h
  exact hkeep

theorem tname_of_ite {tp : Params} {tname : Option String} {c : Prop} [Decidable c]
    {a b : Except (List String) Params} (h : (if c then a else b) = .ok tp)
    (ha : a = .ok tp → tp.tname = tname) (hb : b = .ok tp → tp.tname = tname) :
    tp.tname = tname := by
  by_cases hc : c
  · rw [if_pos hc] at h
    exact ha h
  · rw [if_neg hc] at h
    exact hb h

theorem setParam_tname {tp tp' : Params} {p : String} (h : setParam tp p = .ok tp') :
    tp'.tname.isSome = (tp.tname.isSome || setsName p) := by
  unfold setParam at h
  split at h
  · next param val hsplit =>
    have hsets : setsName p = decide (param = "name") := by simp [setsName, hsplit]
    rw [hsets]
    by_cases hname : param = "name"
    · rw [if_pos hname] at h
      cases h
      rw [decide_eq_true hname, Bool.or_true]
      rfl
    · rw [if_neg hname] at h
      rw [decide_eq_false hname, Bool.or_false]
      -- no other parameter touches the name, and a malformed timeout raises
      have hsame : tp'.tname = tp.tname := by
        refine tname_of_ite h (tname_of_ok · rfl) fun h => ?_
        refine tname_of_ite h (tname_of_ok · rfl) fun h => ?_
        refine tname_of_ite h (tname_of_ok · rfl) fun h => ?_
        refine tname_of_ite h (tname_of_ok · rfl) fun h => ?_
        refine tname_of_ite h (tname_of_ok · rfl) fun h => ?_
        refine tname_of_ite h (fun htimeout => ?_) fun h => ?_
        · cases hval : parseInt val with
          | none =>
            rw [hval] at htimeout
            cases htimeout
          | some t =>
            rw [hval] at htimeout
            exact tname_of_ok htimeout rfl
        refine tname_of_ite h (tname_of_ok · rfl) fun h => ?_
        refine tname_of_ite h (tname_of_ok · rfl) fun h => ?_
        refine tname_of_ite h (tname_of_ok · rfl) fun h => ?_
        exact tname_of_ok h rfl
      rw [hsame]
  · cases h

theorem foldlM_cons_ok {ε σ ι : Type} {f : σ → ι → Except ε σ} {s s' : σ} {x : ι} {xs : List ι}
    (h : (x :: xs).foldlM f s = .ok s') : ∃ s₁, f s x = .ok s₁ ∧ xs.foldlM f s₁ = .ok s' := by
  rw [List.foldlM_cons] at h
  cases hx : f s x with
  | error e =>
    rw [hx] at h
    cases h
  | ok s₁ =>
    rw [hx] at h
    exact ⟨s₁, rfl, h⟩

theorem foldlM_setParam_tname (tparams : List String) {tp tp' : Params}
    (h : tparams.foldlM setParam tp = .ok tp') :
    tp'.tname.isSome = (tp.tname.isSome || named tparams) := by
  induction tparams generalizing tp with
  | nil =>
    cases h
    simp [named]
  | cons p tparams ih =>
    obtain ⟨tp₁, hp, hrest⟩ := foldlM_cons_ok h
    rw [ih hrest, setParam_tname hp, Bool.or_assoc]
    rfl

theorem buildTest_length {acc acc' : List String × List Craytests} {tparams : List String}
    (h : buildTest opts acc tparams = .ok acc') :
    acc'.2.length + (if named tparams then 0 else 1) = acc.2.length + 1 := by
  unfold buildTest at h
  cases hp : tparams.foldlM setParam (defaultParams opts acc.1) with
  | error out => simp [hp, bind, Except.bind] at h
  | ok tp =>
    have hnamed : tp.tname.isSome = named tparams := by
      rw [foldlM_setParam_tname tparams hp]
      rfl
    simp only [hp, bind, Except.bind] at h
    rw [← hnamed]
    cases hname : tp.tname with
    | none =>
      rw [hname] at h
      cases h
      simp
    | some name =>
      rw [hname] at h
      cases h
      simp

theorem foldlM_buildTest_length (testlist : List (List String))
    {acc acc' : List String × List Craytests}
    (h : testlist.foldlM (buildTest opts) acc = .ok acc') :
    acc'.2.length + testlist.countP (fun tparams => !named tparams) =
      acc.2.length + testlist.length := by
  induction testlist generalizing acc with
  | nil =>
    cases h
    simp
  | cons tparams testlist ih =>
    obtain ⟨acc₁, hfirst, hrest⟩ := foldlM_cons_ok h
    have hstep := buildTest_length hfirst
    have hlength := ih hrest
    rw [List.countP_cons, List.length_cons]
    cases hn : named tparams <;> simp [hn] at hstep ⊢ <;> omega

theorem buildTests_length {out : List String}
    (h : buildTests opts testlist = .ok (out, ctlist)) :
    ctlist.length + testlist.countP (fun tparams => !named tparams) = testlist.length := by
  simpa using foldlM_buildTest_length testlist h

theorem length_jobsOf (env : Env) (ps : List (Craytests × ℕ)) :
    (jobsOf env ps).length = ps.countP fun p => (start env p.2 p.1).1 = 0 := by
  unfold jobsOf
  induction ps with
  | nil => rfl
  | cons p ps ih => by_cases hp : (start env p.2 p.1).1 = 0 <;> simp [hp, ih]

theorem length_startedJobs (env : Env) (ctlist : List Craytests) :
    (startedJobs env ctlist).length +
      (ctlist.zipIdx.countP fun p => (start env p.2 p.1).1 ≠ 0) = ctlist.length := by
  have hsplit := List.length_eq_countP_add_countP
    (fun p : Craytests × ℕ => decide ((start env p.2 p.1).1 = 0)) (l := ctlist.zipIdx)
  rw [List.length_zipIdx] at hsplit
  unfold startedJobs
  rw [length_jobsOf, hsplit]
  simp

/-- Started tests that are never waited for included. -/
theorem outcomes_total {out : List String} (h : buildTests opts testlist = .ok (out, ctlist)) :
    (outcomes env testlist ctlist).total = testlist.length := by
  have hsplit : (startedJobs env ctlist).length =
      (startedJobs env ctlist).countP (fun job => env.status job.idx = 0) +
        (startedJobs env ctlist).countP (fun job => env.status job.idx ≠ 0) := by
    simpa using List.length_eq_countP_add_countP (l := startedJobs env ctlist)
      fun job => decide (env.status job.idx = 0)
  have hstarted := length_startedJobs env ctlist
  have hbuilt := buildTests_length h
  simp only [Counts.total, outcomes, neverStarted]
  omega

theorem runTest_runTests (env : Env) (maxJobs : ℤ) (n : ℕ) (st : State) (p : Craytests × ℕ) :
    (runTest env maxJobs n st p).runTests =
      st.runTests + if (start env p.2 p.1).1 = 0 then 1 else 0 := by
  by_cases hp : (start env p.2 p.1).1 = 0
  · rw [runTest_started hp, if_pos hp]
    split_ifs
    · rw [collect_eq]
      rfl
    · rfl
  · rw [runTest_skipped hp, if_neg hp]
    rfl

theorem foldl_runTests (env : Env) (maxJobs : ℤ) (n : ℕ) (ps : List (Craytests × ℕ))
    (st : State) :
    (ps.foldl (runTest env maxJobs n) st).runTests = st.runTests + (jobsOf env ps).length := by
  induction ps generalizing st with
  | nil => rfl
  | cons p ps ih =>
    rw [List.foldl_cons, ih, runTest_runTests, length_jobsOf, length_jobsOf, List.countP_cons]
    simp only [decide_eq_true_eq]
    omega

theorem runTests_eq (env : Env) (maxJobs : ℤ) (out : List String) (ctlist : List Craytests) :
    (runTests env maxJobs out ctlist).runTests = (startedJobs env ctlist).length := by
  unfold runTests startedJobs
  rw [foldl_runTests, Nat.zero_add]

/-- The number printed as passed counts every started test. -/
theorem printed_passed (env : Env) (maxJobs : ℤ) (out : List String) (ctlist : List Craytests)
    (total : ℕ) :
    (printed total (runTests env maxJobs out ctlist)).passed =
      (startedJobs env ctlist).length := by
  unfold printed
  rw [runTests_eq]

theorem failedTests_eq_nil (hpass : ∀ job ∈ startedJobs env ctlist, env.status job.idx = 0)
    (maxJobs : ℤ) (out : List String) :
    (runTests env maxJobs out ctlist).failedTests = [] := by
  have hran : Ran env ctlist.zipIdx (runTests env maxJobs out ctlist) :=
    ran_foldl env maxJobs ctlist.length out ctlist.zipIdx
  rw [hran.failed, List.filterMap_eq_nil_iff]
  intro job hjob
  have hmem : job ∈ startedJobs env ctlist := by
    unfold startedJobs
    rw [← hran.items]
    exact List.mem_append_left _ hjob
  simp [failure, hpass job hmem]

theorem printed_eq_outcomes {out : List String}
    (hbuild : buildTests opts testlist = .ok (out, ctlist))
    (hpass : ∀ job ∈ startedJobs env ctlist, env.status job.idx = 0) (maxJobs : ℤ) :
    printed testlist.length (runTests env maxJobs out ctlist) = outcomes env testlist ctlist := by
  have hpassed : (startedJobs env ctlist).countP (fun job => env.status job.idx = 0) =
      (startedJobs env ctlist).length := by
    rw [List.countP_eq_length]
    simpa using hpass
  have hfailed : (startedJobs env ctlist).countP (fun job => env.status job.idx ≠ 0) = 0 := by
    rw [List.countP_eq_zero]
    simpa using hpass
  have htotal : (outcomes env testlist ctlist).total = testlist.length := outcomes_total hbuild
  simp only [Counts.total, outcomes, hpassed, hfailed] at htotal
  simp only [printed, outcomes, runTests_eq, failedTests_eq_nil hpass, hpassed, hfailed,
    List.length_nil, Counts.mk.injEq, true_and]
  omega

/-- For every list of configurations, the summary counts how the tests ended if and only if no
started test exits with a nonzero status. -/
theorem summaryPartitions_iff (env : Env) (opts : Options) (testlist : List (List String)) :
    SummaryPartitions env opts testlist ↔ AllPass env opts testlist := by
  unfold SummaryPartitions AllPass
  apply forall_congr'
  intro out
  apply forall_congr'
  intro ctlist
  apply imp_congr_right
  intro hbuild
  obtain ⟨failedLines, hsummary⟩ :=
    summary_eq testlist.length (runTests env opts.jobs out ctlist)
  have hmain : (main env opts testlist).out = (runTests env opts.jobs out ctlist).out ++
      ((printed testlist.length (runTests env opts.jobs out ctlist)).lines ++ failedLines) := by
    rw [← hsummary]
    unfold main
    rw [hbuild]
  rw [hmain]
  constructor
  · rintro ⟨⟨failedLines', hout⟩, -⟩
    have hcount := Counts.passed_of_lines (printed_passed _ _ _ _ _) rfl
      (List.append_cancel_left hout)
    simpa using List.countP_eq_length.mp hcount.symm
  · intro hpass
    rw [printed_eq_outcomes hbuild hpass]
    exact ⟨⟨failedLines, rfl⟩, outcomes_total hbuild⟩

def oneFails : Env where
  popen _ _ := none
  status _ := 1
  output _ := ""

/-- The test is counted both as passed and as failed. -/
theorem not_summaryPartitions_oneFails :
    (main oneFails { twoJobs with jobs := 1 } [["name=./a"]]).out.drop 4 =
      ["###\n### 1 PASSSED\n", "### 1 FAILED\n", "### 0 NOT RUN\n",
        "###\n### FAILED TESTS\n###\n", "\t./a: 1\n"] ∧
      ¬ SummaryPartitions oneFails { twoJobs with jobs := 1 } [["name=./a"]] := by
  constructor
  · decide
  · intro h
    obtain ⟨failedLines, hout⟩ := (h _ _ rfl).1
    have hhead : some "###\n### 1 PASSSED\n" = some "###\n### 0 PASSSED\n" :=
      congrArg (fun lines => (lines.drop 4).head?) hout
    exact absurd hhead (by decide)

end CrayTests.TestRunner
