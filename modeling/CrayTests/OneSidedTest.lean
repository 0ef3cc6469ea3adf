import CrayTests.PingpongTest
import CrayTests.ThreadBarrier

/-!
# The bandwidth test with one-sided writes

`thread_fn` and `wait_for_comp` of `rdm_one_sided.c`, and `main` from the loop over the sizes on,
after an initialisation without failures. The parties are the threads of the two ranks, as in the
latency test; what `main` does for a thread is part of the thread. The statements of `ct_tbarrier`
after the call are moves of the memory, and so are those of the provider: it places the bytes of
writes in any order, and reports a write when its bytes are placed or earlier (`early`), and a send
when it is matched or earlier (`eager`). The posting calls succeed. Reads of a queue that find
nothing, the latencies and the bandwidth, and what `main` prints, are left out.
-/

namespace CrayTests.OneSidedTest

open CInteger RankProgram
open PingpongTest (rank peer)

variable {threads : ℕ}

abbrev Buffer := ℕ → Char

namespace Buffer

variable (buf : Buffer)

def fill (size : ℕ) (c : Char) : Buffer := fun i => if i < size then c else buf i

def put (bytes : List Char) : Buffer := fun i => bytes.getD i (buf i)

def first (size : ℕ) : List Char := (List.range size).map buf

end Buffer

/-- The endpoint of a thread with its buffers. `flying` are the writes that are not placed, `writing`
and `sending` count the writes and sends that are not reported, `arrived` are the messages that have
met no receive, and `recvs` counts the receives that have met no message. -/
structure Endpoint where
  sBuf : Buffer
  rBuf : Buffer
  flying : List (List Char) := []
  writing : ℕ := 0
  sending : ℕ := 0
  arrived : List (List Char) := []
  recvs : ℕ := 0
  scq : ℕ := 0
  rcq : ℕ := 0

/-- Whatever was posted has been reported and read. A write reported early may still be flying. -/
structure Endpoint.Idle (ep : Endpoint) : Prop where
  writing : ep.writing = 0
  sending : ep.sending = 0
  arrived : ep.arrived = []
  recvs : ep.recvs = 0
  scq : ep.scq = 0
  rcq : ep.rcq = 0

inductive Op
  /-- `main` fills the buffers up to `size`. -/
  | touch (size : ℕ)
  | callTbarrier
  | returnTbarrier
  /-- The `k`-th reading of the clock. -/
  | getTimeUsec (k : ℕ)
  | fiWrite (size : ℕ)
  | fiSend
  | fiRecv
  /-- Reads of the queue up to one that finds a completion. -/
  | readScq
  | readRcq
  /-- `fini_per_thread_data`. -/
  | fini
  deriving DecidableEq

@[reducible] def Op.Resp : Op → Type
  | .getTimeUsec _ => ℕ
  | _ => Unit

@[reducible] def interface : Interface := ⟨Op, Op.Resp, Unit⟩

structure Setup (threads : ℕ) where
  early : Bool
  eager : Bool
  clock : Fin (2 * threads) → ℕ → ℕ

def number (p : Fin (2 * threads)) : Fin threads :=
  ⟨p.val % threads, Nat.mod_lt _ (by have := p.isLt; omega)⟩

/-- `tbar` holds the barrier of each rank. -/
structure Mem (threads : ℕ) where
  ep : Fin (2 * threads) → Endpoint
  tbar : ℕ → ThreadBarrier.State threads

namespace Mem

variable (mem : Mem threads) (p : Fin (2 * threads))

def setEp (ep : Endpoint) : Mem threads := { mem with ep := Function.update mem.ep p ep }

def waiter : ThreadBarrier.Thread := (mem.tbar (rank p)).thread (number p)

def stepTbar : Mem threads where
  ep := mem.ep
  tbar := Function.update mem.tbar (rank p) (ThreadBarrier.step (mem.tbar (rank p)) (number p))

end Mem

def handshakeLen : ℕ := 4

def perform (E : Setup threads) (p : Fin (2 * threads)) (_ : ℕ) :
    (o : Op) → Mem threads → o.Resp → Mem threads → Prop
  | .touch size, mem, _, mem' => mem' = mem.setEp p { mem.ep p with
      sBuf := (mem.ep p).sBuf.fill size 'a', rBuf := (mem.ep p).rBuf.fill size 'b' }
  | .callTbarrier, mem, _, mem' => (mem.waiter p).pc = .outside ∧ mem' = mem.stepTbar p
  | .returnTbarrier, mem, _, mem' => (mem.waiter p).pc = .outside ∧ mem' = mem
  | .getTimeUsec k, mem, x, mem' => x = E.clock p k ∧ mem' = mem
  | .fiWrite size, mem, _, mem' => mem' = mem.setEp p { mem.ep p with
      flying := (mem.ep p).flying ++ [(mem.ep p).sBuf.first size]
      writing := (mem.ep p).writing + 1 }
  | .fiSend, mem, _, mem' =>
      mem' = (mem.setEp p { mem.ep p with sending := (mem.ep p).sending + 1 }).setEp (peer p)
        { mem.ep (peer p) with
          arrived := (mem.ep (peer p)).arrived ++ [(mem.ep p).sBuf.first handshakeLen] }
  | .fiRecv, mem, _, mem' =>
      mem' = mem.setEp p { mem.ep p with recvs := (mem.ep p).recvs + 1 }
  | .readScq, mem, _, mem' =>
      0 < (mem.ep p).scq ∧ mem' = mem.setEp p { mem.ep p with scq := (mem.ep p).scq - 1 }
  | .readRcq, mem, _, mem' =>
      0 < (mem.ep p).rcq ∧ mem' = mem.setEp p { mem.ep p with rcq := (mem.ep p).rcq - 1 }
  | .fini, mem, _, mem' => mem' = mem

inductive Drift (E : Setup threads) (mem : Mem threads) : Mem threads → Prop
  | place (p : Fin (2 * threads)) (bytes : List Char) (hfly : bytes ∈ (mem.ep p).flying) :
      Drift E mem ((mem.setEp p { mem.ep p with
        flying := (mem.ep p).flying.erase bytes }).setEp (peer p)
          { mem.ep (peer p) with rBuf := (mem.ep (peer p)).rBuf.put bytes })
  | reportWrite (p : Fin (2 * threads)) (hwrite : 0 < (mem.ep p).writing)
      (hplaced : E.early = true ∨ (mem.ep p).flying.length < (mem.ep p).writing) :
      Drift E mem (mem.setEp p { mem.ep p with
        writing := (mem.ep p).writing - 1, scq := (mem.ep p).scq + 1 })
  | reportSend (p : Fin (2 * threads)) (hsend : 0 < (mem.ep p).sending)
      (hmet : E.eager = true ∨ (mem.ep (peer p)).arrived.length < (mem.ep p).sending) :
      Drift E mem (mem.setEp p { mem.ep p with
        sending := (mem.ep p).sending - 1, scq := (mem.ep p).scq + 1 })
  | meet (p : Fin (2 * threads)) (bytes : List Char) (rest : List (List Char))
      (harrived : (mem.ep p).arrived = bytes :: rest) (hrecv : 0 < (mem.ep p).recvs) :
      Drift E mem (mem.setEp p { mem.ep p with
        sBuf := (mem.ep p).sBuf.put bytes, arrived := rest, recvs := (mem.ep p).recvs - 1,
        rcq := (mem.ep p).rcq + 1 })
  | tbarrier (p : Fin (2 * threads)) (hin : (mem.waiter p).Inside) : Drift E mem (mem.stepTbar p)

@[reducible] def machine (E : Setup threads) : Machine interface (2 * threads) where
  Mem := Mem threads
  perform := perform E
  drift := Drift E

def Mem.init (sBuf rBuf : Fin (2 * threads) → Buffer) : Mem threads where
  ep p := { sBuf := sBuf p, rBuf := rBuf p }
  tbar _ := ThreadBarrier.init threads

/-- What the options set, with the default values. `main` rejects values that are not positive, and
counts the rounds in an `int`. -/
structure Options where
  loop : ℕ := 1000
  skip : ℕ := 10
  windowSize : ℕ := 64
  loopLarge : ℕ := 20
  skipLarge : ℕ := 2
  loop_pos : 0 < loop ∧ 0 < loopLarge := by decide
  windowSize_pos : 0 < windowSize := by decide
  rounds_int : loop + skip < 2 ^ 31 ∧ loopLarge + skipLarge < 2 ^ 31 := by decide

/-- The option `-i` sets both window sizes, and their default values are the same. -/
def Options.windowSizeLarge (o : Options) : ℕ := o.windowSize

def largeMessageSize : ℕ := 8192
def maxMsgSize : ℕ := 2 ^ 22

/-- The sizes are the powers of two up to `MAX_MSG_SIZE`. -/
def numSizes : ℕ := Nat.log2 maxMsgSize + 1

abbrev Thread (threads : ℕ) (α : Type) := Program interface (2 * threads) α

def touch (size : ℕ) : Thread threads Unit := .op (Op.touch size) .pure

def ctpmBarrier : Thread threads Unit := .sync () fun _ => .pure ()

def ctTbarrier : Thread threads Unit := do
  .op Op.callTbarrier .pure
  .op Op.returnTbarrier .pure

def getTimeUsec (k : ℕ) : Thread threads ℕ := .op (Op.getTimeUsec k) .pure

def fiWrite (size : ℕ) : Thread threads Unit := .op (Op.fiWrite size) .pure

def fiSend : Thread threads Unit := .op Op.fiSend .pure

def fiRecv : Thread threads Unit := .op Op.fiRecv .pure

def waitForComp (read : Thread threads Unit) (numCompletions : ℕ) : Thread threads Unit :=
  Program.loop (fun _ _ => read) 0 numCompletions ()

def readScq : Thread threads Unit := .op Op.readScq .pure

def readRcq : Thread threads Unit := .op Op.readRcq .pure

structure Counts where
  loop : ℕ
  skip : ℕ
  windowSize : ℕ

/-- `t_start` and `bytes_sent`, a `uint64_t`. -/
structure Meter where
  tStart : ℕ := 0
  bytesSent : ℕ := 0

structure Result where
  timeStart : ℕ
  timeEnd : ℕ
  bytesSent : ℕ
  deriving DecidableEq

def startTimer (skip k i : ℕ) (m : Meter) : Thread threads Meter :=
  if i = skip then do
    let tStart ← getTimeUsec (2 * k)
    pure { tStart, bytesSent := 0 }
  else pure m

def writeRound (size : ℕ) (c : Counts) (k i : ℕ) (m : Meter) : Thread threads Meter := do
  let m ← startTimer c.skip k i m
  let m ← Program.loop (fun _ m => do
    fiWrite size
    pure { m with bytesSent := uint64 (m.bytesSent + size) }) 0 c.windowSize m
  waitForComp readScq c.windowSize
  pure m

/-- `thread_fn` for the `k`-th size. -/
def threadFn (p : Fin (2 * threads)) (size : ℕ) (c : Counts) (k : ℕ) : Thread threads Result := do
  ctTbarrier
  let result ← if rank p = 0 then do
      let m ← Program.loop (writeRound size c k) 0 (c.loop + c.skip) {}
      fiSend
      waitForComp readScq 1
      fiRecv
      waitForComp readRcq 1
      let tEnd ← getTimeUsec (2 * k + 1)
      pure ⟨m.tStart, tEnd, m.bytesSent⟩
    else do
      fiRecv
      waitForComp readRcq 1
      fiSend
      waitForComp readScq 1
      pure ⟨0, 0, 0⟩
  ctTbarrier
  pure result

structure Sizes where
  size : ℕ
  counts : Counts
  results : List Result

namespace Sizes

def init (o : Options) : Sizes := ⟨1, ⟨o.loop, o.skip, o.windowSize⟩, []⟩

def latch (o : Options) (st : Sizes) : Sizes :=
  if st.size > largeMessageSize then
    { st with counts := ⟨o.loopLarge, o.skipLarge, o.windowSizeLarge⟩ }
  else st

def next (st : Sizes) (result : Result) : Sizes :=
  { st with size := st.size * 2, results := st.results ++ [result] }

end Sizes

def measure (o : Options) (p : Fin (2 * threads)) (k : ℕ) (st : Sizes) : Thread threads Sizes := do
  touch st.size
  ctpmBarrier
  let result ← threadFn p st.size (st.latch o).counts k
  ctpmBarrier
  pure ((st.latch o).next result)

/-- From the loop over the sizes up to the barrier at the end of `main`. -/
def bandwidths (o : Options) (p : Fin (2 * threads)) : Thread threads (List Result) := do
  let st ← Program.loop (measure o p) 0 numSizes (Sizes.init o)
  .op Op.fini .pure
  ctpmBarrier
  pure st.results

end CrayTests.OneSidedTest
