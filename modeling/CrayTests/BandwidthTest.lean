import CrayTests.CInteger
import CrayTests.Messaging

/-!
# The bandwidth test

`calc_bw` of `rdm_mbw_mr.c` and `wait_for_comp`, as programs of the ranks over messages with
completions. A message is known by the buffer it is sent from or received into, the data buffers or
`s_fin` and `r_fin`, and by its length; the contents are left out. Reads of a queue or a counter
that find nothing are left out too: a rank waits until it reads what it waits for. The result is
`maxtime`, from which rank 0 computes the bandwidth in floating point.
-/

namespace CrayTests.BandwidthTest

open CInteger RankProgram Messaging

def defaultWindow : ℕ := 64
def itersSmall : ℕ := 100
def warmupItersSmall : ℕ := 10
def itersLarge : ℕ := 20
def warmupItersLarge : ℕ := 2
def largeThreshold : ℕ := 8192

inductive SendRecvType
  | sendRecv
  | sendvRecvv
  | sendRecvv
  | sendvRecv
deriving DecidableEq

inductive TestType
  | cqTest
  | cntrTest
deriving DecidableEq

inductive Kind
  | data
  | fin
deriving DecidableEq

structure Message where
  kind : Kind
  len : ℕ
deriving DecidableEq

inductive Collective
  | barrier
  | allgather (t : ℕ)

def Collective.val : Collective → ℕ
  | .allgather t => t
  | .barrier => 0

/-- The arguments of `calc_bw`, the same on all ranks, and `test_type`. Entry `c` of an iovec has
length `sIov c` or `rIov c`. `main` rejects more than `numprocs / 2` pairs. -/
structure Args (numprocs : ℕ) where
  numPairs : ℕ
  windowSize : ℕ
  sIov : ℕ → ℕ
  rIov : ℕ → ℕ
  iovCnt : ℕ
  sBufLen : ℕ
  rBufLen : ℕ
  type : SendRecvType
  testType : TestType
  numPairs_le : numPairs ≤ numprocs / 2
  windowSize_int : windowSize < 2 ^ 31
  iovCnt_int : iovCnt < 2 ^ 31

/-- The receiver of a sender. -/
theorem Args.receiver_lt {numprocs : ℕ} (a : Args numprocs) (rank : Fin numprocs)
    (hs : rank.val < a.numPairs) : rank + a.numPairs < numprocs := by
  have := a.numPairs_le
  omega

theorem Args.sender_lt {numprocs : ℕ} (a : Args numprocs) (rank : Fin numprocs) :
    rank - a.numPairs < numprocs := (Nat.sub_le _ _).trans_lt rank.isLt

abbrev Rank (numprocs : ℕ) (α : Type) :=
  Program (interface numprocs Message Collective) numprocs α

variable {numprocs : ℕ}

def ctpmBarrier : Rank numprocs Unit := .sync .barrier fun _ => .pure ()

def ctpmAllgather (t : ℕ) : Rank numprocs (Fin numprocs → ℕ) :=
  .sync (.allgather t) fun ts => .pure fun r => (ts r).val

def fiSend (len : ℕ) (kind : Kind) (target : Fin numprocs) : Rank numprocs Unit :=
  .op (Op.send target ⟨kind, len⟩) .pure

def fiRecv (len : ℕ) (kind : Kind) (target : Fin numprocs) : Rank numprocs Unit :=
  .op (Op.recv target ⟨kind, len⟩) .pure

def iovLen (iov : ℕ → ℕ) (count : ℕ) : ℕ := ((List.range count).map iov).sum

def fiSendv (iov : ℕ → ℕ) (count : ℕ) (target : Fin numprocs) : Rank numprocs Unit :=
  fiSend (iovLen iov count) .data target

def fiRecvv (iov : ℕ → ℕ) (count : ℕ) (target : Fin numprocs) : Rank numprocs Unit :=
  fiRecv (iovLen iov count) .data target

def getTimeUsec (k : ℕ) : Rank numprocs ℕ := .op (Op.clock k) .pure

/-- A counter is compared with `num_completions` as a `uint64_t`. -/
def waitForComp (testType : TestType) (queue : Queue) (numCompletions : ℤ) :
    Rank numprocs Unit :=
  match testType with
  | .cqTest => Program.loop (fun _ _ => .op (Op.take queue) .pure) 0 numCompletions.toNat ()
  | .cntrTest => .op (Op.await queue (uint64 numCompletions)) .pure

def resetCntr (testType : TestType) (queue : Queue) : Rank numprocs Unit :=
  match testType with
  | .cqTest => .pure ()
  | .cntrTest => .op (Op.reset queue) .pure

def waitAndReset (testType : TestType) (queue : Queue) (numCompletions : ℤ) :
    Rank numprocs Unit := do
  waitForComp testType queue numCompletions
  resetCntr testType queue

namespace Args

variable (a : Args numprocs)

def mult : ℕ := if defaultWindow / a.windowSize > 0 then defaultWindow / a.windowSize else 1

def cumSize : ℕ := uint64 (iovLen a.rIov a.iovCnt)

def loop : ℕ := if a.cumSize > largeThreshold then itersLarge * a.mult else itersSmall * a.mult

def skip : ℕ :=
  if a.cumSize > largeThreshold then warmupItersLarge * a.mult else warmupItersSmall * a.mult

/-- The completions awaited for a window: a product of two `int`s, or one `int`. -/
def windowCompletions : ℤ :=
  if a.type = .sendRecv then int32 (a.windowSize * a.iovCnt) else a.windowSize

end Args

variable (a : Args numprocs)

def postSends (target : Fin numprocs) : Rank numprocs Unit :=
  Program.loop (fun _ _ =>
    match a.type with
    | .sendRecv => Program.loop (fun c _ => fiSend (a.sIov c) .data target) 0 a.iovCnt ()
    | .sendvRecvv => fiSendv a.sIov a.iovCnt target
    | .sendvRecv => fiSendv a.sIov a.iovCnt target
    | .sendRecvv => fiSend a.sBufLen .data target) 0 a.windowSize ()

def postRecvs (target : Fin numprocs) : Rank numprocs Unit :=
  Program.loop (fun _ _ =>
    match a.type with
    | .sendRecv => Program.loop (fun c _ => fiRecv (a.rIov c) .data target) 0 a.iovCnt ()
    | .sendvRecvv => fiRecvv a.rIov a.iovCnt target
    | .sendRecvv => fiRecvv a.rIov a.iovCnt target
    | .sendvRecv => fiRecv a.rBufLen .data target) 0 a.windowSize ()

/-- `if (i == skip)`, the barrier that starts the measurement. -/
def skipBarrier (i : ℕ) : Rank numprocs Unit := if i = a.skip then ctpmBarrier else .pure ()

def startTimer (i tStart : ℕ) : Rank numprocs ℕ :=
  if i = a.skip then getTimeUsec 0 else .pure tStart

def senderRound (target : Fin numprocs) (i tStart : ℕ) : Rank numprocs ℕ := do
  skipBarrier a i
  let tStart ← startTimer a i tStart
  postSends a target
  waitAndReset a.testType .send a.windowCompletions
  fiRecv 4 .fin target
  waitAndReset a.testType .recv 1
  pure tStart

def receiverRound (target : Fin numprocs) (i : ℕ) : Rank numprocs Unit := do
  skipBarrier a i
  postRecvs a target
  waitAndReset a.testType .recv a.windowCompletions
  fiSend 4 .fin target
  waitAndReset a.testType .send 1

def sender (target : Fin numprocs) : Rank numprocs ℕ := do
  let tStart ← Program.loop (senderRound a target) 0 (a.loop + a.skip) 0
  let tEnd ← getTimeUsec 1
  pure (uint64 (tEnd - tStart))

def receiver (target : Fin numprocs) : Rank numprocs ℕ := do
  Program.loop (fun i _ => receiverRound a target i) 0 (a.loop + a.skip) ()
  pure 0

def idle : Rank numprocs ℕ := do
  ctpmBarrier
  pure 0

/-- The part of `calc_bw` between the first barrier and the exchange of the times. -/
def exchange (rank : Fin numprocs) : Rank numprocs ℕ :=
  if hs : rank.val < a.numPairs then
    sender a ⟨rank + a.numPairs, a.receiver_lt rank hs⟩
  else if rank.val < a.numPairs * 2 then
    receiver a ⟨rank - a.numPairs, a.sender_lt rank⟩
  else idle

/-- `maxtime`, which stays 0 on every rank but 0. -/
def maxTime (rank : Fin numprocs) (ts : Fin numprocs → ℕ) : ℕ :=
  if rank.val = 0 then
    (List.ofFn ts).foldl (fun maxtime t => if t > maxtime then t else maxtime) 0
  else 0

def calcBw (rank : Fin numprocs) : Rank numprocs ℕ := do
  ctpmBarrier
  let t ← exchange a rank
  let ts ← ctpmAllgather t
  pure (maxTime rank ts)

end CrayTests.BandwidthTest
