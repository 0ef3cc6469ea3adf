import Mathlib.Tactic
import CrayTests.Batches

/-!
# The test runner

`_main` of `run_cray_tests.py` after its options are parsed: it builds the list of tests from
`testlist`, starts them, and waits for them in batches of `jobs`. The environment says which
`Popen` calls fail, and the exit status and the output of each process; `waitall` returns these.
-/

namespace CrayTests.TestRunner

inductive Launcher
  | aprun
  | srun
deriving DecidableEq

structure Options where
  launcher : Option Launcher
  nodelist : Option String
  cpuBind : Option String
  provider : Option String
  jobs : ℤ

structure Craytests where
  name : String
  args : Option String
  provider : Option String
  timeout : ℤ
  nnodes : String
  ntasks : String
  cpusPerTask : String
  nthreads : Option String
  launcher : Option Launcher
  nodelist : Option String
  cpuBind : Option String

/-- The answers of the operating system for the test at each place of `ctlist`: the text of the
exception that `Popen` raises, and the exit status and the output of the process. -/
structure Env where
  popen : ℕ → List String → Option String
  status : ℕ → ℤ
  output : ℕ → String

def isSpace (c : Char) : Bool := c = ' ' ∨ (9 ≤ c.toNat ∧ c.toNat ≤ 13)

def pieces (p : Char → Bool) : List Char → List (List Char)
  | [] => [[]]
  | c :: cs =>
    match p c, pieces p cs with
    | true, rest => [] :: rest
    | false, [] => [[c]]
    | false, piece :: rest => (c :: piece) :: rest

def splitAt (c : Char) (s : String) : List String :=
  (pieces (· = c) s.toList).map String.ofList

def words (s : String) : List String :=
  ((pieces isSpace s.toList).filter (· ≠ [])).map String.ofList

def stripChars (cs : List Char) : List Char :=
  ((cs.dropWhile isSpace).reverse.dropWhile isSpace).reverse

def strip (s : String) : String := String.ofList (stripChars s.toList)

def digits (cs : List Char) : Option ℕ :=
  if cs ≠ [] ∧ cs.all Char.isDigit then
    some (cs.foldl (fun n c => 10 * n + (c.toNat - 48)) 0)
  else
    none

/-- `int (s)`, or nothing for a `ValueError`. -/
def parseInt (s : String) : Option ℤ :=
  match stripChars s.toList with
  | '-' :: cs => (digits cs).map fun n => -(n : ℤ)
  | '+' :: cs => (digits cs).map fun n => (n : ℤ)
  | cs => (digits cs).map fun n => (n : ℤ)

def pad2 (n : ℤ) : String := if 0 ≤ n ∧ n < 10 then "0" ++ toString n else toString n

def formattedTimeout (ct : Craytests) : String :=
  if ct.launcher = some .srun then
    pad2 (ct.timeout / 3600) ++ ":" ++ pad2 (ct.timeout % 3600 / 60) ++ ":" ++
      pad2 (ct.timeout % 60)
  else
    toString ct.timeout

/-- An option with its value, or nothing for `None`. -/
def optArg (flag : String) : Option String → List String
  | none => []
  | some val => [flag ++ val]

def launcherArgs (ct : Craytests) : List String :=
  match ct.launcher with
  | some .srun =>
    ["srun", "--nodes=" ++ ct.nnodes, "--exclusive", "-t" ++ formattedTimeout ct,
      "--ntasks-per-node=" ++ ct.ntasks, "--cpus-per-task=" ++ ct.cpusPerTask] ++
      optArg "--cpus-per-task=" ct.nthreads ++ optArg "-nodelist=" ct.nodelist ++
      optArg "--cpu_bind=" ct.cpuBind
  | some .aprun =>
    ["aprun", "-n" ++ ct.nnodes, "-t" ++ toString ct.timeout, "-N" ++ ct.ntasks,
      "-d" ++ ct.cpusPerTask] ++ optArg "-d" ct.nthreads ++ optArg "-L" ct.nodelist
  | none => []

def Craytests.cmd (ct : Craytests) : List String :=
  launcherArgs ct ++ [ct.name] ++ optArg "-p" (ct.provider.map strip) ++
    (ct.args.map words).getD []

def Craytests.cmdLine (ct : Craytests) : String := " ".intercalate ct.cmd

def start (env : Env) (i : ℕ) (ct : Craytests) : ℤ × List String :=
  match env.popen i ct.cmd with
  | none => (0, ["Starting: " ++ ct.cmdLine ++ "\n"])
  | some ex => (-1, ["Starting: " ++ ct.cmdLine ++ "\n", "Failed to start: " ++ ex ++ "\n"])

def ctDefaultTimeout : ℤ := 60

structure Params where
  tname : Option String
  targs : Option String
  tnnodes : String
  tntasks : String
  tcpusPerTask : String
  tnthreads : Option String
  ttimeout : ℤ
  tnodelist : Option String
  tcpuBind : Option String
  tprovider : Option String
  out : List String

def defaultParams (opts : Options) (out : List String) : Params where
  tname := none
  targs := none
  tnnodes := "1"
  tntasks := "1"
  tcpusPerTask := "1"
  tnthreads := none
  ttimeout := ctDefaultTimeout
  tnodelist := opts.nodelist
  tcpuBind := opts.cpuBind
  tprovider := opts.provider
  out := out

/-- One parameter of a test; an uncaught `ValueError` comes with what was printed before it. -/
def setParam (tp : Params) (p : String) : Except (List String) Params :=
  match splitAt '=' p with
  | [param, val] =>
    if param = "name" then .ok { tp with tname := some val }
    else if param = "args" then .ok { tp with targs := some val }
    else if param = "nnodes" then .ok { tp with tnnodes := val }
    else if param = "ntasks" then .ok { tp with tntasks := val }
    else if param = "cpus_per_task" then .ok { tp with tcpusPerTask := val }
    else if param = "nthreads" then .ok { tp with tnthreads := some val }
    else if param = "timeout" then
      match parseInt val with
      | some t => .ok { tp with ttimeout := t }
      | none => .error tp.out
    else if param = "provider" then .ok { tp with tprovider := some val }
    else if param = "nodelist" then .ok { tp with tnodelist := some val }
    else if param = "cpu_bind" then .ok { tp with tcpuBind := some val }
    else .ok { tp with
      out := tp.out ++ ["Ignoring unrecogized parameter type: " ++ param ++ "\n"] }
  | _ => .error tp.out

/-- The loop over `testlist`, with what was printed and `ctlist` so far. -/
def buildTest (opts : Options) (acc : List String × List Craytests) (tparams : List String) :
    Except (List String) (List String × List Craytests) := do
  let tp ← tparams.foldlM setParam (defaultParams opts acc.1)
  match tp.tname with
  | none => .ok (tp.out ++ ["Skipping unnamed test configuration\n"], acc.2)
  | some name =>
    .ok (tp.out, acc.2 ++
      [{ name := name, args := tp.targs, provider := tp.tprovider, timeout := tp.ttimeout,
         nnodes := tp.tnnodes, ntasks := tp.tntasks, cpusPerTask := tp.tcpusPerTask,
         nthreads := tp.tnthreads, launcher := opts.launcher, nodelist := tp.tnodelist,
         cpuBind := tp.tcpuBind }])

def buildTests (opts : Options) (testlist : List (List String)) :
    Except (List String) (List String × List Craytests) :=
  testlist.foldlM (buildTest opts) ([], [])

structure Job where
  idx : ℕ
  ct : Craytests

structure State where
  plist : List Job
  failedTests : List (String × ℤ)
  runTests : ℕ
  jobNum : ℤ
  out : List String
  /-- The arguments of the calls of `waitall`. -/
  waits : List (List Job)

def waitall (env : Env) (plist : List Job) : List ℤ × List String :=
  (plist.map fun job => env.status job.idx, plist.map fun job => env.output job.idx)

def report (job : Job) (retval : ℤ) (output : String) : List String :=
  ["###\n### " ++ job.ct.cmdLine ++ "\n###\n", output,
    "###\n### EXIT STATUS: " ++ toString retval ++ "\n###\n\n"]

def collectOne (st : State) (r : Job × ℤ × String) : State :=
  { st with
    out := st.out ++ report r.1 r.2.1 r.2.2
    failedTests :=
      if r.2.1 ≠ 0 then st.failedTests ++ [(r.1.ct.name, r.2.1)] else st.failedTests }

def collect (env : Env) (st : State) : State :=
  let ret := waitall env st.plist
  { (st.plist.zip (ret.1.zip ret.2)).foldl collectOne { st with waits := st.waits ++ [st.plist] }
    with jobNum := 0, plist := [] }

/-- The body of the loop over `enumerate (ctlist)`, for a list of `n` tests. -/
def runTest (env : Env) (maxJobs : ℤ) (n : ℕ) (st : State) (p : Craytests × ℕ) : State :=
  let ret := start env p.2 p.1
  if ret.1 ≠ 0 then
    { st with out := st.out ++ ret.2 ++ ["Skipping " ++ p.1.name ++ "\n"] }
  else
    let st := { st with
      out := st.out ++ ret.2
      plist := st.plist ++ [⟨p.2, p.1⟩]
      jobNum := st.jobNum + 1
      runTests := st.runTests + 1 }
    if st.jobNum = maxJobs ∨ p.2 + 1 = n then collect env st else st

def runTests (env : Env) (maxJobs : ℤ) (out : List String) (ctlist : List Craytests) : State :=
  ctlist.zipIdx.foldl (runTest env maxJobs ctlist.length)
    { plist := [], failedTests := [], runTests := 0, jobNum := 0, out := out, waits := [] }

def summary (total : ℕ) (st : State) : List String :=
  ["###\n### " ++ toString st.runTests ++ " PASSSED\n",
    "### " ++ toString st.failedTests.length ++ " FAILED\n",
    "### " ++ toString ((total : ℤ) - st.runTests) ++ " NOT RUN\n"] ++
  (if st.failedTests ≠ [] then
    "###\n### FAILED TESTS\n###\n" ::
      st.failedTests.map fun t => "\t" ++ t.1 ++ ": " ++ toString t.2 ++ "\n"
  else [])

/-- The result of `_main`, or nothing where an exception ends it. -/
structure Outcome where
  ret : Option ℤ
  out : List String
  waits : List (List Job)

def main (env : Env) (opts : Options) (testlist : List (List String)) : Outcome :=
  match buildTests opts testlist with
  | .error out => ⟨none, out, []⟩
  | .ok (out, ctlist) =>
    let st := runTests env opts.jobs out ctlist
    ⟨some (if st.failedTests ≠ [] then -1 else 0), st.out ++ summary testlist.length st, st.waits⟩

end CrayTests.TestRunner
