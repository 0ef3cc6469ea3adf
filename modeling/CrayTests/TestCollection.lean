import CrayTests.TestRunner

/-!
# Collecting the started tests

The batches that `_main` passes to `waitall` are those of a `Batch` of size `jobs`, closed once
more after the last test of the list if that test started. A last test that does not start
leaves the pending batch where it is.
-/

namespace CrayTests.TestRunner

open Batches

def jobsOf (env : Env) (ps : List (Craytests × ℕ)) : List Job :=
  ps.filterMap fun p => if (start env p.2 p.1).1 = 0 then some ⟨p.2, p.1⟩ else none

def startedJobs (env : Env) (ctlist : List Craytests) : List Job := jobsOf env ctlist.zipIdx

def jobReport (env : Env) (job : Job) : List String :=
  report job (env.status job.idx) (env.output job.idx)

def failure (env : Env) (job : Job) : Option (String × ℤ) :=
  if env.status job.idx ≠ 0 then some (job.ct.name, env.status job.idx) else none

/-- Every started test is passed to `waitall` once and reported, and `_main` returns 0 only if
each of them exited with 0. -/
structure Collected (env : Env) (ctlist : List Craytests) (o : Outcome) : Prop where
  waited_once : ∀ job ∈ startedJobs env ctlist,
    (o.waits.flatten.map Job.idx).count job.idx = 1
  reported : ∀ job ∈ startedJobs env ctlist, jobReport env job <:+: o.out
  ret_zero : o.ret = some 0 → ∀ job ∈ startedJobs env ctlist, env.status job.idx = 0

def CollectsAll (env : Env) (opts : Options) (testlist : List (List String)) : Prop :=
  ∀ out ctlist, buildTests opts testlist = .ok (out, ctlist) →
    Collected env ctlist (main env opts testlist)

/-- The last test starts, or the number of tests that start is a multiple of `jobs`. -/
def NoLeftover (env : Env) (opts : Options) (testlist : List (List String)) : Prop :=
  ∀ out ctlist, buildTests opts testlist = .ok (out, ctlist) →
    (∃ pre ct, ctlist = pre ++ [ct] ∧ (start env pre.length ct).1 = 0) ∨
      opts.jobs ∣ (startedJobs env ctlist).length

def State.batch (st : State) : Batch Job := ⟨st.waits, st.plist⟩

/-- The loop after the tests `ps`. -/
structure Ran (env : Env) (ps : List (Craytests × ℕ)) (st : State) : Prop where
  items : st.batch.items = jobsOf env ps
  job_num : st.jobNum = st.plist.length
  reported : ∀ job ∈ st.waits.flatten, jobReport env job <:+: st.out
  failed : st.failedTests = st.waits.flatten.filterMap (failure env)

variable {env : Env} {maxJobs : ℤ} {n : ℕ} {st : State} {ps : List (Craytests × ℕ)}
  {p : Craytests × ℕ} {ctlist : List Craytests}

theorem jobsOf_snoc (env : Env) (ps : List (Craytests × ℕ)) (p : Craytests × ℕ) :
    jobsOf env (ps ++ [p]) =
      jobsOf env ps ++ if (start env p.2 p.1).1 = 0 then [⟨p.2, p.1⟩] else [] := by
  unfold jobsOf
  rw [List.filterMap_append]
  by_cases h : (start env p.2 p.1).1 = 0 <;> simp [h]

theorem foldl_collectOne (env : Env) (jobs : List Job) (st : State) :
    (jobs.map fun job => (job, env.status job.idx, env.output job.idx)).foldl collectOne st =
      { st with
        out := st.out ++ jobs.flatMap (jobReport env)
        failedTests := st.failedTests ++ jobs.filterMap (failure env) } := by
  induction jobs generalizing st with
  | nil => simp
  | cons job jobs ih =>
    rw [List.map_cons, List.foldl_cons, ih]
    unfold collectOne
    by_cases h : env.status job.idx = 0 <;> simp [h, failure, jobReport]

theorem collect_eq (env : Env) (st : State) :
    collect env st =
      { st with
        out := st.out ++ st.plist.flatMap (jobReport env)
        failedTests := st.failedTests ++ st.plist.filterMap (failure env)
        waits := st.waits ++ [st.plist]
        jobNum := 0
        plist := [] } := by
  have hzip : st.plist.zip ((waitall env st.plist).1.zip (waitall env st.plist).2) =
      st.plist.map fun job => (job, env.status job.idx, env.output job.idx) := by
    unfold waitall
    induction st.plist with
    | nil => rfl
    | cons job jobs ih => simpa using ih
  unfold collect
  simp only [hzip, foldl_collectOne]

theorem Ran.collect (h : Ran env ps st) : Ran env ps (collect env st) := by
  rw [collect_eq]
  constructor
  · rw [← h.items]
    exact items_close (b := st.batch)
  · simp
  · intro job hjob
    simp only [List.flatten_append, List.flatten_singleton, List.mem_append] at hjob
    rcases hjob with hwaited | hpending
    · exact (h.reported job hwaited).trans (List.prefix_append _ _).isInfix
    · exact (List.infix_of_mem_flatten (List.mem_map_of_mem hpending)).trans
        (List.suffix_append _ _).isInfix
  · simp [h.failed]

def started (env : Env) (st : State) (p : Craytests × ℕ) : State :=
  { st with
    out := st.out ++ (start env p.2 p.1).2
    plist := st.plist ++ [⟨p.2, p.1⟩]
    jobNum := st.jobNum + 1
    runTests := st.runTests + 1 }

theorem runTest_started (h : (start env p.2 p.1).1 = 0) :
    runTest env maxJobs n st p =
      if (started env st p).jobNum = maxJobs ∨ p.2 + 1 = n then collect env (started env st p)
      else started env st p := by
  unfold runTest
  rw [if_neg (not_not_intro h)]
  rfl

theorem runTest_skipped (h : (start env p.2 p.1).1 ≠ 0) :
    runTest env maxJobs n st p =
      { st with out := st.out ++ (start env p.2 p.1).2 ++ ["Skipping " ++ p.1.name ++ "\n"] } := by
  unfold runTest
  rw [if_pos h]

theorem Ran.started (h : Ran env ps st) (hp : (start env p.2 p.1).1 = 0) :
    Ran env (ps ++ [p]) (started env st p) := by
  constructor
  · rw [jobsOf_snoc, if_pos hp, ← h.items]
    exact items_push (b := st.batch)
  · simp [TestRunner.started, h.job_num]
  · intro job hjob
    exact (h.reported job hjob).trans (List.prefix_append _ _).isInfix
  · exact h.failed

theorem Ran.runTest (h : Ran env ps st) (maxJobs : ℤ) (n : ℕ) (p : Craytests × ℕ) :
    Ran env (ps ++ [p]) (runTest env maxJobs n st p) := by
  by_cases hp : (start env p.2 p.1).1 = 0
  · rw [runTest_started hp]
    split_ifs
    · exact (h.started hp).collect
    · exact h.started hp
  · rw [runTest_skipped hp]
    constructor
    · rw [jobsOf_snoc, if_neg hp, List.append_nil]
      exact h.items
    · exact h.job_num
    · intro job hjob
      exact (h.reported job hjob).trans
        (by rw [List.append_assoc]; exact (List.prefix_append _ _).isInfix)
    · exact h.failed

/-- Before the last test of the list, a started test is added to the batch. -/
theorem runTest_batch {m : ℕ} (h : Ran env ps st) (hlast : p.2 + 1 ≠ n) :
    (runTest env m n st p).batch =
      if (start env p.2 p.1).1 = 0 then st.batch.add m ⟨p.2, p.1⟩ else st.batch := by
  by_cases hp : (start env p.2 p.1).1 = 0
  · have hfull : ((started env st p).jobNum = m ∨ p.2 + 1 = n) ↔
        (st.batch.push ⟨p.2, p.1⟩).pending.length = m := by
      rw [(h.started hp).job_num, Nat.cast_inj]
      simp only [hlast, or_false]
      rfl
    rw [runTest_started hp, if_pos hp, Batch.add]
    by_cases hm : (st.batch.push ⟨p.2, p.1⟩).pending.length = m
    · rw [if_pos (hfull.mpr hm), if_pos hm, collect_eq]
      rfl
    · rw [if_neg (fun hc => hm (hfull.mp hc)), if_neg hm]
      rfl
  · rw [runTest_skipped hp, if_neg hp]
    rfl

def initState (out : List String) : State where
  plist := []
  failedTests := []
  runTests := 0
  jobNum := 0
  out := out
  waits := []

theorem ran_foldl (env : Env) (maxJobs : ℤ) (n : ℕ) (out : List String)
    (ps : List (Craytests × ℕ)) :
    Ran env ps (ps.foldl (runTest env maxJobs n) (initState out)) := by
  induction ps using List.reverseRecOn with
  | nil => exact ⟨rfl, rfl, by simp [initState], rfl⟩
  | append_singleton ps p ih =>
    rw [List.foldl_append]
    exact ih.runTest maxJobs n p

theorem even_foldl (env : Env) {m : ℕ} (hm : 0 < m) (n : ℕ) (out : List String)
    (ps : List (Craytests × ℕ)) (hlast : ∀ p ∈ ps, p.2 + 1 ≠ n) :
    (ps.foldl (runTest env m n) (initState out)).batch.Even m := by
  induction ps using List.reverseRecOn with
  | nil => simp [initState, State.batch, Batch.Even, Batch.items]
  | append_singleton ps p ih =>
    have heven := ih fun q hq => hlast q (by simp [hq])
    rw [List.foldl_append, List.foldl_cons, List.foldl_nil,
      runTest_batch (ran_foldl env m n out ps) (hlast p (by simp))]
    split_ifs
    · exact heven.add hm _
    · exact heven

/-- After the loop nothing is pending exactly where the last test started or the started tests
fill their batches. -/
theorem plist_eq_nil_iff (env : Env) {m : ℕ} (hm : 0 < m) (out : List String)
    (ctlist : List Craytests) :
    (runTests env m out ctlist).plist = [] ↔
      (∃ pre ct, ctlist = pre ++ [ct] ∧ (start env pre.length ct).1 = 0) ∨
        (m : ℤ) ∣ (startedJobs env ctlist).length := by
  rcases List.eq_nil_or_concat' ctlist with rfl | ⟨pre, ct, rfl⟩
  · simp [runTests, startedJobs, jobsOf]
  have hsplit : (pre ++ [ct]).zipIdx = pre.zipIdx ++ [(ct, pre.length)] := by
    simp [List.zipIdx_append]
  have hearlier : ∀ p ∈ pre.zipIdx, p.2 + 1 ≠ pre.length + 1 := by
    intro p hp
    have := List.mem_zipIdx' (x := p.1) (i := p.2) hp
    omega
  have hran := ran_foldl env m (pre.length + 1) out pre.zipIdx
  have heven := even_foldl env hm (pre.length + 1) out pre.zipIdx hearlier
  have hlast : (∃ pre' ct', pre ++ [ct] = pre' ++ [ct'] ∧ (start env pre'.length ct').1 = 0) ↔
      (start env pre.length ct).1 = 0 := by
    constructor
    · rintro ⟨pre', ct', heq, h⟩
      obtain ⟨rfl, hct⟩ := List.append_inj' heq rfl
      rwa [List.singleton_inj.mp hct]
    · intro h
      exact ⟨pre, ct, rfl, h⟩
  rw [hlast, startedJobs, hsplit, jobsOf_snoc]
  have hrun : runTests env m out (pre ++ [ct]) = runTest env m (pre.length + 1)
      (pre.zipIdx.foldl (runTest env m (pre.length + 1)) (initState out)) (ct, pre.length) := by
    unfold runTests
    rw [hsplit, List.foldl_append, List.length_append]
    rfl
  rw [hrun]
  by_cases hct : (start env pre.length ct).1 = 0
  · rw [runTest_started hct, if_pos (.inr rfl), collect_eq]
    simp [hct]
  · rw [runTest_skipped hct, if_neg hct, List.append_nil, ← hran.items]
    have hnil := heven.pending_eq_nil_iff
    simp only [hct, false_or, Int.natCast_dvd_natCast]
    exact hnil

theorem nodup_startedJobs (env : Env) (ctlist : List Craytests) :
    ((startedJobs env ctlist).map Job.idx).Nodup := by
  have hsub : ((startedJobs env ctlist).map Job.idx).Sublist (ctlist.zipIdx.map Prod.snd) := by
    unfold startedJobs jobsOf
    induction ctlist.zipIdx with
    | nil => simp
    | cons p ps ih =>
      by_cases hp : (start env p.2 p.1).1 = 0
      · simpa [hp] using ih
      · simpa [hp] using ih.cons p.2
  apply hsub.nodup
  rw [List.zipIdx_map_snd]
  exact List.nodup_range'

/-- Where nothing is left pending the started tests are collected, and only there. -/
theorem collected_iff (env : Env) {m : ℕ} (out : List String) (ctlist : List Craytests)
    (total : ℕ) :
    let st := runTests env m out ctlist
    Collected env ctlist ⟨some (if st.failedTests ≠ [] then -1 else 0),
      st.out ++ summary total st, st.waits⟩ ↔ st.plist = [] := by
  intro st
  have hran : Ran env ctlist.zipIdx st := ran_foldl env m ctlist.length out ctlist.zipIdx
  have hitems : st.waits.flatten ++ st.plist = startedJobs env ctlist := hran.items
  constructor
  · intro h
    by_contra hne
    obtain ⟨job, hjob⟩ := List.exists_mem_of_ne_nil _ hne
    have hstarted : job ∈ startedJobs env ctlist := by
      rw [← hitems]
      exact List.mem_append_right _ hjob
    have hnodup := nodup_startedJobs env ctlist
    rw [← hitems, List.map_append] at hnodup
    have hwaited : job.idx ∈ st.waits.flatten.map Job.idx := by
      apply List.count_pos_iff.mp
      rw [h.waited_once job hstarted]
      exact Nat.one_pos
    exact List.disjoint_of_nodup_append hnodup hwaited (List.mem_map_of_mem hjob)
  · intro hnil
    have hall : st.waits.flatten = startedJobs env ctlist := by
      rw [← hitems, hnil, List.append_nil]
    constructor
    · intro job hjob
      rw [← hall] at hjob
      apply List.count_eq_one_of_mem
      · rw [hall]
        exact nodup_startedJobs env ctlist
      · exact List.mem_map_of_mem hjob
    · intro job hjob
      rw [← hall] at hjob
      exact (hran.reported job hjob).trans (List.prefix_append _ _).isInfix
    · intro hret job hjob
      rw [← hall] at hjob
      have hfailed : st.failedTests = [] := by
        by_contra hne
        simp [hne] at hret
      rw [hran.failed, List.filterMap_eq_nil_iff] at hfailed
      have := hfailed job hjob
      unfold failure at this
      by_contra hstatus
      simp [hstatus] at this

/-- For every list of configurations and every pattern of failing starts, the started tests are
collected if and only if no batch is left over at the end of the list. -/
theorem collectsAll_iff (env : Env) (opts : Options) (hjobs : 1 ≤ opts.jobs)
    (testlist : List (List String)) :
    CollectsAll env opts testlist ↔ NoLeftover env opts testlist := by
  obtain ⟨m, hm⟩ := Int.eq_ofNat_of_zero_le (show 0 ≤ opts.jobs by omega)
  have hpos : 0 < m := by omega
  unfold CollectsAll NoLeftover
  apply forall_congr'
  intro out
  apply forall_congr'
  intro ctlist
  apply imp_congr_right
  intro hbuild
  unfold main
  rw [hbuild, hm]
  exact (collected_iff env out ctlist testlist.length).trans (plist_eq_nil_iff env hpos out ctlist)

def secondMissing : Env where
  popen i _ := if i = 1 then some "[Errno 2] No such file or directory" else none
  status _ := 1
  output _ := ""

def twoJobs : Options where
  launcher := none
  nodelist := none
  cpuBind := none
  provider := none
  jobs := 2

theorem collectsAll_iff_two :
    CollectsAll secondMissing twoJobs [["name=./a"], ["name=./b"]] ↔
      NoLeftover secondMissing twoJobs [["name=./a"], ["name=./b"]] :=
  collectsAll_iff secondMissing twoJobs (by decide) [["name=./a"], ["name=./b"]]

/-- The first test is started and never waited for, and its failure is not seen. -/
theorem not_collectsAll_secondMissing :
    (main secondMissing twoJobs [["name=./a"], ["name=./b"]]).ret = some 0 ∧
      ¬ CollectsAll secondMissing twoJobs [["name=./a"], ["name=./b"]] := by
  constructor
  · decide
  · intro h
    have hjob := (h _ _ rfl).ret_zero rfl _ (List.mem_singleton.mpr rfl)
    exact absurd hjob (by decide)

end CrayTests.TestRunner
