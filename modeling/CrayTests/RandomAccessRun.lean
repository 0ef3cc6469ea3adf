import CrayTests.RandomAccess
import CrayTests.RankContract

/-!
# A whole call of `random_access`

`random_access` from the allocation of `hpcc_table` and `hpcc_lock` to its end, with every collective
call and its length; between the exchange of the registration data and the end of the verification
phase it is `RandomAccess.randomAccess`. Any allocation of any rank may fail, and an operation on a
block that is not allocated is not carried out. What is stored about the peers in the exchange is
left out: the updates take the addresses from `Buffers`. So is the region `scratch`, which is not
allocated.
-/

namespace CrayTests.RandomAccessRun
open CInteger RankProgram XorStore RandomAccess

inductive Block
  | hpccTable
  | hpccLock
  deriving DecidableEq

inductive Pointer
  | null
  | valid
  | dangling
  deriving DecidableEq

/-- Contributions to the collective calls, with the number of bytes passed. -/
inductive Exchange
  | barrier
  | bcast (len : ℕ)
  | allgather (len : ℕ) (val : ℤ)

inductive Kind
  | barrier
  | bcast (len : ℕ)
  | allgather (len : ℕ)
  deriving DecidableEq

def Exchange.kind : Exchange → Kind
  | .barrier => .barrier
  | .bcast len => .bcast len
  | .allgather len _ => .allgather len

def Exchange.val : Exchange → ℤ
  | .allgather _ val => val
  | _ => 0

inductive RunOp (l : Layout)
  /-- Answered with whether the result is not null. -/
  | malloc (b : Block)
  | free (b : Block)
  | setRecvAbort (val : ℤ)
  | storeLock (index : ℕ)
  | fiMrReg (b : Block)
  | access (o : Op 64 l.numRanks ℕ Label)

@[reducible] def RunOp.Resp {l : Layout} : RunOp l → Type
  | .malloc _ => Bool
  | .access o => o.Resp
  | _ => Unit

@[reducible] def runInterface (l : Layout) : Interface := ⟨RunOp l, RunOp.Resp, Exchange⟩

variable {l : Layout}

/-- The blocks an operation of rank `r` works on, each with the rank it is allocated by. -/
def RunOp.uses (r : Fin l.numRanks) : RunOp l → List (Fin l.numRanks × Block)
  | .free b => [(r, b)]
  | .storeLock _ => [(r, .hpccLock)]
  | .fiMrReg b => [(r, b)]
  | .access (.write _ _) => [(r, .hpccTable)]
  | .access (.read _) => [(r, .hpccTable)]
  | .access (.xor _ q _ _) => [(q, .hpccTable)]
  | _ => []

/-- The static variables of a rank; `recvAbort` is `none` until it is assigned. -/
structure Statics where
  block : Block → Pointer := fun _ => .null
  recvAbort : Option ℤ := none

structure RunMem (l : Layout) where
  words : Words 64 l.numRanks
  statics : Fin l.numRanks → Statics

def RunMem.set (mem : RunMem l) (r : Fin l.numRanks) (st : Statics) : RunMem l :=
  { mem with statics := Function.update mem.statics r st }

def Statics.point (st : Statics) (b : Block) (p : Pointer) : Statics :=
  { st with block := Function.update st.block b p }

/-- What a run finds: where the tables are, which allocations succeed, the keys of the registered
regions, and the updates that get lost. -/
structure Setup (l : Layout) where
  buffers : Buffers l
  allocates : Fin l.numRanks → Block → Bool
  key : Fin l.numRanks → Block → ℤ
  lockAddr : Fin l.numRanks → ℤ
  lost : Finset (Fin l.numRanks × Label)

variable (E : Setup l)

def Setup.effect (r : Fin l.numRanks) (e : ℕ) :
    (o : RunOp l) → RunMem l → o.Resp → RunMem l → Prop
  | .malloc b, mem, x, mem' =>
    x = E.allocates r b ∧
      mem' = mem.set r ((mem.statics r).point b (if E.allocates r b then .valid else .null))
  | .free b, mem, _, mem' => mem' = mem.set r ((mem.statics r).point b .dangling)
  | .setRecvAbort val, mem, _, mem' =>
    mem' = mem.set r { mem.statics r with recvAbort := some val }
  | .storeLock index, mem, _, mem' => index < l.numRanks ∧ mem' = mem
  | .fiMrReg _, mem, _, mem' => mem' = mem
  | .access o, mem, x, mem' => ∃ words,
    (machine 64 Collective (fabric E.buffers E.lost)).perform r e o mem.words x words ∧
      mem' = { mem with words := words }

def RunMem.Allocated (mem : RunMem l) (u : Fin l.numRanks × Block) : Prop :=
  (mem.statics u.1).block u.2 = .valid

@[reducible] def Setup.machine : Machine (runInterface l) l.numRanks where
  Mem := RunMem l
  perform r e o mem x mem' := (∀ u ∈ o.uses r, mem.Allocated u) ∧ E.effect r e o mem x mem'
  drift _ _ := False

abbrev Run (l : Layout) (α : Type) := Program (runInterface l) l.numRanks α

def malloc (b : Block) : Run l Bool := .op (RunOp.malloc b) .pure

def free (b : Block) : Run l Unit := .op (RunOp.free b) .pure

def setRecvAbort (val : ℤ) : Run l Unit := .op (RunOp.setRecvAbort val) .pure

def storeLock (index : ℕ) : Run l Unit := .op (RunOp.storeLock index) .pure

def fiMrReg (b : Block) : Run l Unit := .op (RunOp.fiMrReg b) .pure

def ctpmBarrier : Run l Unit := .sync .barrier (fun _ => .pure ())

def ctpmAllgather (len : ℕ) (src : ℤ) : Run l (Fin l.numRanks → ℤ) :=
  .sync (.allgather len src) (fun vals => .pure (fun r => (vals r).val))

/-- Every call in `RandomAccess.randomAccess` passes eight bytes. -/
def accessEmbedding (l : Layout) :
    Embedding (store 64 l.numRanks ℕ Label Collective) (runInterface l) where
  op := .access
  resp _ x := x
  coll
    | .barrier => .barrier
    | .bcast => .bcast 8
    | .allgather val => .allgather 8 val
  back
    | .barrier => .barrier
    | .bcast _ => .bcast
    | .allgather _ val => .allgather val

def ctAllreduceIntSum (src : ℤ) : Run l ℤ := do
  let vals ← ctpmAllgather 4 src
  let valAt := fun i => if h : i < l.numRanks then vals ⟨i, h⟩ else 0
  let ret := (List.range (l.numRanks - 1)).foldl (fun ret i => int32 (ret + valAt (i + 1)))
    (valAt 0)
  ctpmBarrier
  pure ret

def exchangeRegistrationData (rank : Fin l.numRanks) : Run l Unit := do
  ctpmBarrier
  let _ ← ctpmAllgather 8 (E.key rank .hpccTable)
  ctpmBarrier
  let _ ← ctpmAllgather 8 (E.key rank .hpccLock)
  ctpmBarrier
  let _ ← ctpmAllgather 8 (E.buffers.hpccTable rank)
  ctpmBarrier
  ctpmBarrier
  let _ ← ctpmAllgather 8 (E.lockAddr rank)
  ctpmBarrier

def initLock : Run l Unit := Program.loop (fun i _ => storeLock i) 0 l.numRanks ()

/-- On which of its two paths `random_access` returned; it returns 0 on both. -/
inductive Ended
  | failedTable
  | completed
  deriving DecidableEq

def failedTable (ended : Ended) : Run l Ended := do
  ctpmBarrier
  pure ended

def randomAccess (rank : Fin l.numRanks) : Run l Ended := do
  let sendAbort := 0
  let hpccTable ← malloc .hpccTable
  let sendAbort := if !hpccTable then 1 else sendAbort
  let hpccLock ← malloc .hpccLock
  let sendAbort := if !hpccLock then 1 else sendAbort
  ctpmBarrier
  let recvAbort ← ctAllreduceIntSum sendAbort
  setRecvAbort recvAbort
  ctpmBarrier
  if recvAbort > 0 then
    if hpccTable then free .hpccTable
    failedTable .failedTable
  else
    initLock
    fiMrReg .hpccTable
    fiMrReg .hpccLock
    exchangeRegistrationData E rank
    let _ ← (RandomAccess.randomAccess E.buffers rank).embed (accessEmbedding l)
    free .hpccTable
    free .hpccLock
    failedTable .completed

abbrev RunState := State E.machine Ended

def RunReachable (words : Words 64 l.numRanks) (s : RunState E) : Prop :=
  Reachable (m := E.machine) ⟨words, fun _ => {}⟩ (randomAccess E) s

def Setup.failing : Finset (Fin l.numRanks) :=
  Finset.univ.filter fun r => ¬ (E.allocates r .hpccTable ∧ E.allocates r .hpccLock)

def openingCalls : List Kind := [.barrier, .allgather 4, .barrier, .barrier]

def exchangeCalls : List Kind :=
  [.barrier, .allgather 8, .barrier, .allgather 8, .barrier, .allgather 8, .barrier, .barrier,
    .allgather 8, .barrier]

def accessCalls : List Kind :=
  [.barrier, .barrier, .barrier, .bcast 8, .barrier, .barrier, .barrier, .barrier, .allgather 8,
    .barrier, .barrier]

def failedCalls : List Kind := openingCalls ++ [Kind.barrier]

def completedCalls : List Kind := openingCalls ++ exchangeCalls ++ accessCalls ++ [Kind.barrier]

def Setup.calls : List Kind := if 0 < E.failing.card then failedCalls else completedCalls

def Setup.ended : Ended := if 0 < E.failing.card then .failedTable else .completed

end CrayTests.RandomAccessRun
