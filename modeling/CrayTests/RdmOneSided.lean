import CrayTests.KvsReceive
import CrayTests.RankContract

/-!
# The initialisation of `rdm_one_sided`

`main` of `rdm_one_sided` from the loop over `init_per_thread_data` on, for two ranks with any number
of threads. Every call of libfabric returns what the run has for this rank, thread and call. A null
pointer that is used stops the rank. The threads of a size are one step: what they send is not
modelled, and they need not come to an end.

Collective calls are paired by their number. `PMI_Allgather` puts its bytes under a key with its
running count, and every collective call contains one `PMI_Barrier`; a rank that finds no value under
the key of a peer, because the peer is in a call of another kind, fails its assertion.
-/

namespace CrayTests.RdmOneSided
open Kvs RankProgram

/-- There are two ranks, 0 and 1. -/
scoped instance neZero_ranks : NeZero 2 := ⟨two_ne_zero⟩

/-- `r_mr` and `l_mr`, for the registrations of `r_buf` and `s_buf`. -/
inductive Mr
  | rMr
  | lMr
  deriving DecidableEq

inductive FiCall
  | fiEndpoint
  | fiCqOpenScq
  | fiCqOpenRcq
  | fiAvOpen
  | fiEpBindScq
  | fiEpBindRcq
  | fiEpBindAv
  | fiEnable
  | fiGetnameLength
  | fiGetname
  | fiAvInsert
  | fiMrReg (mr : Mr)
  deriving DecidableEq

inductive FiObject
  | dom
  | fab
  | ep (i : ℕ)
  | av (i : ℕ)
  | rcq (i : ℕ)
  | scq (i : ℕ)
  | mr (i : ℕ) (mr : Mr)
  deriving DecidableEq

/-- The place of a collective call in the program. It has no effect on the run. -/
inductive Stage
  | addrs (i : ℕ)
  | descs (i : ℕ)
  | start (size : ℕ)
  | finish (size : ℕ)
  | last
  deriving DecidableEq

/-- Contributions to the collective calls: the length passed and the value put, if any. -/
structure Exchange where
  stage : Stage
  len : ℕ
  put : Option (List Byte)

inductive Op
  | fi (i : ℕ) (call : FiCall)
  | fiClose (o : FiObject)
  | storeAddrs (i : ℕ) (addrs : Fin 2 → List Byte)
  | setBufs (i : ℕ)
  | storeDescs (i : ℕ) (descs : Fin 2 → List Byte)
  /-- Answered with whether the pointer is not null. -/
  | readMr (i : ℕ) (mr : Mr)
  | touchBufs (i : ℕ)
  | runThreads (size : ℕ)
  /-- A failed assertion. -/
  | abort

@[reducible] def Op.Resp : Op → Type
  | .fi _ _ => ℤ
  | .readMr _ _ => Bool
  | _ => Unit

@[reducible] def jobInterface : Interface := ⟨Op, Op.Resp, Exchange⟩

/-- `struct per_thread_data`, zeroed by `calloc`. The bytes of `rbuf_descs` are not looked into. -/
structure PerThreadData where
  addrs : Option (Fin 2 → List Byte) := none
  bufs : Bool := false
  rbufDescs : Option (Fin 2 → List Byte) := none
  mr : Mr → Bool := fun _ => false

def sizeofBufDesc : ℕ := 16

/-- What a run finds: the values returned by libfabric, the names of the endpoints, all of one
length, and the addresses and keys of the registered buffers. -/
structure Setup where
  threads : ℕ
  ret : Fin 2 → ℕ → FiCall → ℤ
  addrlen : ℕ
  name : Fin 2 → ℕ → List Byte
  bufDesc : Fin 2 → ℕ → List Byte
  addrlen_lt : addrlen < 2 ^ 30
  length_name : ∀ r i, (name r i).length = addrlen
  length_bufDesc : ∀ r i, (bufDesc r i).length = sizeofBufDesc

variable (E : Setup)

abbrev ThreadMem := ℕ → PerThreadData

def ThreadMem.set (mem : Fin 2 → ThreadMem) (r : Fin 2) (i : ℕ) (ptd : PerThreadData) :
    Fin 2 → ThreadMem := Function.update mem r (Function.update (mem r) i ptd)

def PerThreadData.register (ptd : PerThreadData) (ret : ℤ) : FiCall → PerThreadData
  | .fiMrReg mr => if ret = 0 then { ptd with mr := Function.update ptd.mr mr true } else ptd
  | _ => ptd

@[reducible] def Setup.machine : Machine jobInterface 2 where
  Mem := Fin 2 → ThreadMem
  perform r _
    | .fi i call, mem, x, mem' => x = E.ret r i call ∧
        mem' = ThreadMem.set mem r i ((mem r i).register (E.ret r i call) call)
    | .fiClose _, mem, _, mem' => mem' = mem
    | .storeAddrs i addrs, mem, _, mem' =>
        mem' = ThreadMem.set mem r i { mem r i with addrs := some addrs }
    | .setBufs i, mem, _, mem' => mem' = ThreadMem.set mem r i { mem r i with bufs := true }
    | .storeDescs i descs, mem, _, mem' =>
        mem' = ThreadMem.set mem r i { mem r i with rbufDescs := some descs }
    | .readMr i mr, mem, x, mem' => x = (mem r i).mr mr ∧ mem' = mem
    | .touchBufs i, mem, _, mem' => (mem r i).bufs = true ∧ mem' = mem
    -- only the threads of rank 0 look into `rbuf_descs`
    | .runThreads _, mem, _, mem' =>
        (r = 0 → ∀ i < E.threads, (mem r i).rbufDescs ≠ none) ∧ mem' = mem
    | .abort, _, _, _ => False
  drift _ _ := False

abbrev Job (α : Type) := Program jobInterface 2 α

def fi (i : ℕ) (call : FiCall) : Job ℤ := .op (Op.fi i call) .pure

def fiClose (o : FiObject) : Job Unit := .op (Op.fiClose o) .pure

def ctpmBarrier (stage : Stage) : Job Unit := .sync ⟨stage, 0, none⟩ (fun _ => .pure ())

/-- What is received from a peer into a zeroed block. -/
def received (len : ℕ) (x : Exchange) : Option (List Byte) :=
  x.put.bind fun value => receiveValue value (List.replicate len 0) len

def ctpmAllgather (stage : Stage) (src : List Byte) (len : ℕ) : Job (Fin 2 → List Byte) :=
  match storedValue (src.take len) with
  | none => .op Op.abort (fun _ => .pure fun _ => [])
  | some value => .sync ⟨stage, len, some value⟩ fun xs =>
    if ∀ i, (received len (xs i)).isSome then .pure fun i => (received len (xs i)).getD []
    else .op Op.abort (fun _ => .pure fun _ => [])

def allocEpRes (i : ℕ) : Job ℤ := do
  let ret ← fi i .fiCqOpenScq
  if ret ≠ 0 then pure ret
  else
    let ret ← fi i .fiCqOpenRcq
    if ret ≠ 0 then do
      fiClose (.scq i)
      pure ret
    else
      let ret ← fi i .fiAvOpen
      if ret ≠ 0 then do
        fiClose (.rcq i)
        fiClose (.scq i)
        pure ret
      else pure 0

def freeEpRes (i : ℕ) : Job Unit := do
  fiClose (.av i)
  fiClose (.rcq i)
  fiClose (.scq i)

def bindEpRes (i : ℕ) : Job ℤ := do
  let ret ← fi i .fiEpBindScq
  if ret ≠ 0 then pure ret
  else
    let ret ← fi i .fiEpBindRcq
    if ret ≠ 0 then pure ret
    else
      let ret ← fi i .fiEpBindAv
      if ret ≠ 0 then pure ret
      else fi i .fiEnable

def initEndpoint (i : ℕ) : Job ℤ := do
  let ret ← fi i .fiEndpoint
  if ret ≠ 0 then do
    fiClose .dom
    pure ret
  else
    let ret ← allocEpRes i
    if ret ≠ 0 then do
      fiClose (.ep i)
      fiClose .dom
      pure ret
    else
      let ret ← bindEpRes i
      if ret ≠ 0 then do
        freeEpRes i
        fiClose (.ep i)
        fiClose .dom
        pure ret
      else pure 0

/-- `numprocs` is 2. -/
def initAv (rank : Fin 2) (i : ℕ) : Job ℤ := do
  let _ ← fi i .fiGetnameLength
  let ret ← fi i .fiGetname
  if ret ≠ 0 then pure ret
  else
    let addrs ← ctpmAllgather (.addrs i) (E.name rank i) E.addrlen
    .op (Op.storeAddrs i addrs) .pure
    let ret ← fi i .fiAvInsert
    if ret ≠ 2 then pure ret else pure 0

def initPerThreadData (rank : Fin 2) (i : ℕ) : Job ℤ := do
  let ret ← initEndpoint i
  if ret ≠ 0 then pure ret
  else
    let ret ← initAv E rank i
    if ret ≠ 0 then pure ret
    else
      .op (Op.setBufs i) .pure
      let ret ← fi i (.fiMrReg .rMr)
      if ret ≠ 0 then pure (-1)
      else
        let descs ← ctpmAllgather (.descs i) (E.bufDesc rank i) sizeofBufDesc
        .op (Op.storeDescs i descs) .pure
        let ret ← fi i (.fiMrReg .lMr)
        if ret ≠ 0 then pure (-1) else pure 0

def finiPerThreadData (i : ℕ) : Job Unit := do
  let lMr ← .op (Op.readMr i .lMr) .pure
  if lMr then fiClose (.mr i .lMr)
  let rMr ← .op (Op.readMr i .rMr) .pure
  if rMr then fiClose (.mr i .rMr)
  freeEpRes i
  fiClose (.ep i)

def measure (size : ℕ) : Job Unit := do
  Program.loop (fun i _ => .op (Op.touchBufs i) .pure) 0 E.threads ()
  ctpmBarrier (.start size)
  .op (Op.runThreads size) .pure
  ctpmBarrier (.finish size)

def numSizes : ℕ := 23

def main (rank : Fin 2) : Job Unit := do
  Program.loop (fun i _ => do
    let _ ← initPerThreadData E rank i
    pure ()) 0 E.threads ()
  Program.loop (fun k _ => measure E (2 ^ k)) 0 numSizes ()
  Program.loop (fun i _ => finiPerThreadData i) 0 E.threads ()
  fiClose .dom
  fiClose .fab
  ctpmBarrier .last

abbrev JobState := State E.machine Unit

def JobReachable (s : JobState E) : Prop :=
  Reachable (m := E.machine) (fun _ _ => {}) (main E) s

section Calls

variable (ret : FiCall → ℤ)

def Opened : Prop :=
  ret .fiEndpoint = 0 ∧ ret .fiCqOpenScq = 0 ∧ ret .fiCqOpenRcq = 0 ∧ ret .fiAvOpen = 0 ∧
    ret .fiEpBindScq = 0 ∧ ret .fiEpBindRcq = 0 ∧ ret .fiEpBindAv = 0 ∧ ret .fiEnable = 0

def Named : Prop := Opened ret ∧ ret .fiGetname = 0

/-- The thread gets to the assignment of `s_buf` and `r_buf`. A `fi_av_insert` that inserts nothing
returns 0, which `init_av` hands on. -/
def Inserted : Prop := Named ret ∧ (ret .fiAvInsert = 2 ∨ ret .fiAvInsert = 0)

def Registered : Prop := Inserted ret ∧ ret (.fiMrReg .rMr) = 0

instance : Decidable (Opened ret) := inferInstanceAs (Decidable (_ ∧ _))

instance : Decidable (Named ret) := inferInstanceAs (Decidable (_ ∧ _))

instance : Decidable (Inserted ret) := inferInstanceAs (Decidable (_ ∧ _))

instance : Decidable (Registered ret) := inferInstanceAs (Decidable (_ ∧ _))

def exchanges : ℕ := if Named ret then if Registered ret then 2 else 1 else 0

def threadCalls (i : ℕ) : List Stage := [Stage.addrs i, Stage.descs i].take (exchanges ret)

end Calls

def roundCalls (k : ℕ) : List Stage := [.start (2 ^ k), .finish (2 ^ k)]

/-- The calls after the initialisation. A rank stops in front of them when the buffers of a thread
are not set, and rank 0 stops in the first round when the keys of a thread are not there. -/
def Setup.roundsCalls (r : Fin 2) : List Stage :=
  if ∀ i < E.threads, Inserted (E.ret r i) then
    if r = 0 ∧ ¬ ∀ i < E.threads, Registered (E.ret r i) then [.start 1]
    else (List.range numSizes).flatMap roundCalls ++ [.last]
  else []

def Setup.calls (r : Fin 2) : List Stage :=
  (List.range E.threads).flatMap (fun i => threadCalls (E.ret r i) i) ++ E.roundsCalls r

end CrayTests.RdmOneSided
