import CrayTests.CInteger
import CrayTests.EpochLog

/-!
# The authorization key test

`main` of `auth_key_test.c` after its options are parsed, with `init_gnix_prov`, `random_access` and
`fini_gnix_prov`, as the programs of the ranks. `drc_acquire`, `drc_access` and the allocation of the
table may fail; the calls of the provider succeed. `exit` ends the program of a rank. The addresses
and keys that are gathered, and the memory that is only freed, are left out.
-/

namespace CrayTests.AuthKeyTest

open CInteger RankProgram

inductive Obj (n : ℕ)
  | fab
  | dom
  | av
  | ep (i : Fin n)
  | scq (i : Fin n)
  | rcq (i : Fin n)
deriving DecidableEq

inductive Mr
  | table
  | authKey
deriving DecidableEq

inductive Call (n : ℕ)
  | drcAcquire
  | drcAccess (credential : ℤ)
  | drcRelease (credential : ℤ)
  | fiOpen (obj : Obj n)
  | fiClose (obj : Obj n)
  | callocTable
  | freeTable
  /-- With the protection key, if an authorization key is passed. -/
  | fiMrRegattr (mr : Mr) (key : Option ℕ)
  | fiCloseMr (mr : Mr)
deriving DecidableEq

@[reducible] def Call.Resp {n : ℕ} : Call n → Type
  | .drcAcquire => Option ℤ
  | .drcAccess _ => Option ℕ
  | .callocTable => Bool
  | _ => Unit

inductive Exchange
  | barrier
  | bcast (val : ℤ)
  | allgather (val : ℤ)

def Exchange.val : Exchange → ℤ
  | .barrier => 0
  | .bcast val => val
  | .allgather val => val

@[reducible] def authInterface (n : ℕ) : Interface := ⟨Call n, Call.Resp, Exchange⟩

/-- What a run finds: the credential that rank 0 acquires, the first cookie that a rank gets for it,
whether its table is allocated, what its uninitialised `credential` holds, and what it brings to the
other collective calls. -/
structure Setup (n : ℕ) where
  acquired : Option ℤ
  cookie : Fin n → Option ℕ
  allocates : Fin n → Bool
  stack : Fin n → ℤ
  address : Fin n → ℤ
  tableKey : Fin n → ℤ
  tableAddr : Fin n → ℤ
  ranks_pos : 0 < n
  ranks_int : n < 2 ^ 31

variable {n : ℕ} (E : Setup n)

def Setup.head : Fin n := ⟨0, E.ranks_pos⟩

def Setup.answer (r : Fin n) : (o : Call n) → o.Resp
  | .drcAcquire => E.acquired
  | .drcAccess _ => E.cookie r
  | .callocTable => E.allocates r
  | .drcRelease _ => ()
  | .fiOpen _ => ()
  | .fiClose _ => ()
  | .freeTable => ()
  | .fiMrRegattr _ _ => ()
  | .fiCloseMr _ => ()

abbrev Rank (n : ℕ) (α : Type) := Program (authInterface n) n α

def call (o : Call n) : Rank n o.Resp := .op (I := authInterface n) o .pure

def ctpmBarrier : Rank n Unit := .sync .barrier fun _ => .pure ()

/-- Every rank is left with the value of rank 0. -/
def ctpmBcast (E : Setup n) (val : ℤ) : Rank n ℤ :=
  .sync (.bcast val) fun vals => .pure (vals E.head).val

def ctpmAllgather (val : ℤ) : Rank n (Fin n → ℤ) :=
  .sync (.allgather val) fun vals => .pure fun r => (vals r).val

def ctAllreduceIntSum (src : ℤ) : Rank n ℤ := do
  let vals ← ctpmAllgather src
  let valAt := fun i => if h : i < n then vals ⟨i, h⟩ else 0
  let ret := (List.range (n - 1)).foldl (fun ret i => int32 (ret + valAt (i + 1))) (valAt 0)
  ctpmBarrier
  pure ret

def callAll : List (Call n) → Rank n Unit
  | [] => .pure ()
  | o :: os => do
    let _ ← call o
    callAll os

def initEndpoint (i : Fin n) : List (Call n) := [.fiOpen (.ep i), .fiOpen (.scq i), .fiOpen (.rcq i)]

def initGnixProv (rank : Fin n) : Rank n Unit := do
  callAll [.fiOpen .fab, .fiOpen .dom]
  callAll [.fiOpen .av]
  callAll ((List.finRange n).flatMap initEndpoint)
  let _ ← ctpmAllgather (E.address rank)
  pure ()

def freeEpRes (i : Fin n) : List (Call n) := [.fiClose (.rcq i), .fiClose (.scq i)]

def finiGnixProv : Rank n Unit := do
  callAll ((List.finRange n).flatMap fun i => freeEpRes i ++ [.fiClose (.ep i)])
  callAll [.fiClose .av, .fiClose .dom, .fiClose .fab]

def exchangeRegistrationData (rank : Fin n) : Rank n Unit := do
  ctpmBarrier
  let _ ← ctpmAllgather (E.tableKey rank)
  ctpmBarrier
  let _ ← ctpmAllgather (E.tableAddr rank)
  ctpmBarrier
  ctpmBarrier
  ctpmBarrier

/-- `key` is the protection key in `auth_key`. -/
def randomAccess (rank : Fin n) (key : ℕ) : Rank n ℤ := do
  let localDataTable ← call .callocTable
  let sendAbort : ℤ := if !localDataTable then 1 else 0
  ctpmBarrier
  let recvAbort ← ctAllreduceIntSum sendAbort
  ctpmBarrier
  if recvAbort > 0 then
    if localDataTable then callAll [.freeTable]
    pure (-1)
  else
    callAll [.fiMrRegattr .table none, .fiMrRegattr .authKey (some key)]
    exchangeRegistrationData E rank
    callAll [.fiCloseMr .table, .fiCloseMr .authKey]
    ctpmBarrier
    pure 0

def headRelease (rank : Fin n) (credential : ℤ) : Rank n Unit :=
  if rank = E.head then callAll [.drcRelease credential] else pure ()

/-- `main` once the credential is accessed. -/
def useKey (rank : Fin n) (credential : ℤ) (key : ℕ) : Rank n ℤ := do
  initGnixProv E rank
  ctpmBarrier
  let _ ← randomAccess E rank key
  ctpmBarrier
  finiGnixProv
  headRelease E rank credential
  ctpmBarrier
  pure 0

/-- `main` from `ctpm_Bcast` on. -/
def shareKey (rank : Fin n) (credential : ℤ) : Rank n ℤ := do
  let credential ← ctpmBcast E credential
  let ret ← call (.drcAccess credential)
  match ret with
  | none =>
    headRelease E rank credential
    pure (-1)
  | some key => useKey E rank credential key

def main (rank : Fin n) : Rank n ℤ := do
  if rank = E.head then
    let ret ← call .drcAcquire
    match ret with
    | none => pure (-1)
    | some credential => shareKey E rank credential
  else shareKey E rank (E.stack rank)

end CrayTests.AuthKeyTest
