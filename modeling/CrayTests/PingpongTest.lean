import CrayTests.CInteger
import CrayTests.Messaging

/-!
# The latency test

`thread_fn` of `rdm_pingpong.c`, `wait_for_comp`, and the loop over the sizes in `main`. The parties
are the threads of the two ranks: a barrier of the ranks comes before their threads are created and
after these are joined, so it is one of all threads, and thread `i` of a rank exchanges messages
with thread `i` of the other. A message is known by its length. Reads of a queue that find nothing
are left out, and so is the division of an elapsed time by `2.0 * loop`.
-/

namespace CrayTests.PingpongTest

open CInteger RankProgram Messaging

def largeMessageSize : ℕ := 8192
def maxMsgSize : ℕ := 8 * 1024

def large (count : ℕ) : ℕ := if count / 100 = 0 then 1 else count / 100

/-- What the options set. `main` rejects a `loop` or `skip` that is not positive, and counts the
rounds in an `int`. -/
structure Options where
  loop : ℕ
  skip : ℕ
  loop_pos : 0 < loop
  rounds_int : loop + skip < 2 ^ 31

variable {threads : ℕ}

/-- `myid`: the first threads are those of rank 0. -/
def rank (p : Fin (2 * threads)) : ℕ := if p.val < threads then 0 else 1

def peer (p : Fin (2 * threads)) : Fin (2 * threads) :=
  if h : p.val < threads then ⟨p + threads, by omega⟩ else ⟨p - threads, by omega⟩

abbrev Thread (threads : ℕ) (α : Type) := Program (interface (2 * threads) ℕ Unit) (2 * threads) α

def ctpmBarrier : Thread threads Unit := .sync () fun _ => .pure ()

def fiTsend (size : ℕ) (p : Fin (2 * threads)) : Thread threads Unit :=
  .op (Op.send (peer p) size) .pure

def fiTrecv (size : ℕ) (p : Fin (2 * threads)) : Thread threads Unit :=
  .op (Op.recv (peer p) size) .pure

def getTimeUsec (k : ℕ) : Thread threads ℕ := .op (Op.clock k) .pure

def waitForComp (queue : Queue) (numCompletions : ℕ) : Thread threads Unit :=
  Program.loop (fun _ _ => .op (Op.take queue) .pure) 0 numCompletions ()

def startTimer (skip k i tStart : ℕ) : Thread threads ℕ :=
  if i = skip then getTimeUsec (2 * k) else .pure tStart

def pingRound (p : Fin (2 * threads)) (size skip k i tStart : ℕ) : Thread threads ℕ := do
  let tStart ← startTimer skip k i tStart
  fiTsend size p
  waitForComp .send 1
  fiTrecv size p
  waitForComp .recv 1
  pure tStart

def pongRound (p : Fin (2 * threads)) (size : ℕ) : Thread threads Unit := do
  fiTrecv size p
  waitForComp .recv 1
  fiTsend size p
  waitForComp .send 1

/-- `thread_fn` for the `k`-th size. The result is `t_end - t_start`, a `uint64_t`. -/
def threadFn (p : Fin (2 * threads)) (size loop skip k : ℕ) : Thread threads ℕ :=
  if rank p = 0 then do
    let tStart ← Program.loop (pingRound p size skip k) 0 (loop + skip) 0
    let tEnd ← getTimeUsec (2 * k + 1)
    pure (uint64 (tEnd - tStart))
  else do
    Program.loop (fun _ _ => pongRound p size) 0 (loop + skip) ()
    pure 0

structure Sizes where
  size : ℕ
  loop : ℕ
  skip : ℕ
  times : List ℕ

namespace Sizes

def init (o : Options) : Sizes := ⟨1, o.loop, o.skip, []⟩

/-- `if (size > large_message_size)`, with `loop_large` and `skip_large` as the options set them. -/
def counts (o : Options) (st : Sizes) : Sizes :=
  if st.size > largeMessageSize then { st with loop := large o.loop, skip := large o.skip } else st

def next (st : Sizes) (t : ℕ) : Sizes :=
  { st with size := if st.size ≠ 0 then st.size * 2 else 1, times := st.times ++ [t] }

end Sizes

def measure (o : Options) (p : Fin (2 * threads)) (k : ℕ) (st : Sizes) : Thread threads Sizes := do
  ctpmBarrier
  let t ← threadFn p (st.counts o).size (st.counts o).loop (st.counts o).skip k
  ctpmBarrier
  pure ((st.counts o).next t)

def numSizes : ℕ := Nat.log2 maxMsgSize + 1

/-- From the loop over the sizes up to the barrier after it. -/
def latencies (o : Options) (p : Fin (2 * threads)) : Thread threads (List ℕ) := do
  let st ← Program.loop (measure o p) 0 numSizes (Sizes.init o)
  ctpmBarrier
  pure st.times

end CrayTests.PingpongTest
