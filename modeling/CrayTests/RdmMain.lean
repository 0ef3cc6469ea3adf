import CrayTests.ObjectLog
import CrayTests.ProcessRuns
import CrayTests.RdmPingpong
import CrayTests.RdmRuns

/-!
# The objects of libfabric in `rdm_one_sided` and `rdm_pingpong`

`main` of the two programs from `init_fabric` on, as a process of its own whose log says which
objects are passed to libfabric and which are closed. What the other rank brings to a collective call
is left open.
-/

namespace CrayTests.RdmMain
open RankProgram RdmOneSided

inductive FabricCall
  | fiGetinfo
  | fiFabric
  | fiDomain
  deriving DecidableEq

inductive MainOp
  | fabric (call : FabricCall)
  | job (o : Op)

@[reducible] def MainOp.Resp : MainOp → Type
  | .fabric _ => ℤ
  | .job o => o.Resp

@[reducible] def mainInterface : Interface := ⟨MainOp, MainOp.Resp, Exchange⟩

abbrev Main (α : Type) := Program mainInterface 2 α

def fabric (call : FabricCall) : Main ℤ := .op (MainOp.fabric call) .pure

def initFabric : Main ℤ := do
  let ret ← fabric .fiGetinfo
  if ret ≠ 0 then pure ret
  else
    let ret ← fabric .fiFabric
    if ret ≠ 0 then pure ret
    else
      let ret ← fabric .fiDomain
      if ret ≠ 0 then do
        .op (MainOp.job (.fiClose .fab)) .pure
        pure ret
      else pure 0

def jobEmbedding : Embedding jobInterface mainInterface where
  op := .job
  resp _ x := x
  coll c := c
  back c := c

/-- `afterFabric` is `main` after `init_fabric`. -/
def main (afterFabric : Job Unit) : Main Unit := do
  let ret ← initFabric
  if ret ≠ 0 then pure ()
  else afterFabric.embed jobEmbedding

abbrev Event := ObjectLog.Event FiObject

def passed (i : ℕ) : FiCall → List FiObject
  | .fiEndpoint => [.dom]
  | .fiCqOpenScq => [.dom]
  | .fiCqOpenRcq => [.dom]
  | .fiAvOpen => [.dom]
  | .fiEpBindScq => [.ep i, .scq i]
  | .fiEpBindRcq => [.ep i, .rcq i]
  | .fiEpBindAv => [.ep i, .av i]
  | .fiEnable => [.ep i]
  | .fiGetnameLength => [.ep i]
  | .fiGetname => [.ep i]
  | .fiAvInsert => [.av i]
  | .fiMrReg _ => [.dom]

def FabricCall.passed : FabricCall → List FiObject
  | .fiGetinfo => []
  | .fiFabric => []
  | .fiDomain => [.fab]

/-- The process of a rank. The threads of a size run on a memory that is `ready` for them. -/
def process (E : Setup) (r : Fin 2) (ready : ThreadMem → Prop) :
    Process jobInterface ThreadMem Event where
  perform
    | .fi i call, mem, x, mem' => x = E.ret r i call ∧
        mem' = Function.update mem i ((mem i).register (E.ret r i call) call)
    | .fiClose _, mem, _, mem' => mem' = mem
    | .storeAddrs i addrs, mem, _, mem' =>
        mem' = Function.update mem i { mem i with addrs := some addrs }
    | .setBufs i, mem, _, mem' => mem' = Function.update mem i { mem i with bufs := true }
    | .storeDescs i descs, mem, _, mem' =>
        mem' = Function.update mem i { mem i with rbufDescs := some descs }
    | .readMr i mr, mem, x, mem' => x = (mem i).mr mr ∧ mem' = mem
    | .touchBufs i, mem, _, mem' => (mem i).bufs = true ∧ mem' = mem
    | .runThreads _, mem, _, mem' => ready mem ∧ mem' = mem
    | .abort, _, _, _ => False
  emits
    | .fi i call, _ => (passed i call).map .used
    | .fiClose o, _ => [.closed o]
    | _, _ => []

/-- The threads of rank 0 of `rdm_one_sided` look into `rbuf_descs`. -/
def oneSided (E : Setup) (r : Fin 2) : Process jobInterface ThreadMem Event :=
  process E r fun mem => r = 0 → ∀ i < E.threads, (mem i).rbufDescs ≠ none

def pingpong (E : Setup) (r : Fin 2) : Process jobInterface ThreadMem Event :=
  process E r fun _ => True

def mainProcess (ret : FabricCall → ℤ) (P : Process jobInterface ThreadMem Event) :
    Process mainInterface ThreadMem Event where
  perform
    | .fabric call, mem, x, mem' => x = ret call ∧ mem' = mem
    | .job o, mem, x, mem' => P.perform o mem x mem'
  emits
    | .fabric call, _ => call.passed.map .used
    | .job o, x => P.emits o x

/-- In every run `fi_close` is called at most once on `dom`, and no call is passed `dom` after it. -/
def DomRetired (P : Process mainInterface ThreadMem Event) (r : Fin 2) (p : Main Unit) : Prop :=
  ∀ s, P.Run r ⟨p, fun _ => {}, []⟩ s → ObjectLog.Retired .dom s.log

/-- A rank of the two-rank job is such a process from the threads on. -/
theorem run_of_jobReachable {E : Setup} {s : JobState E} (hs : JobReachable E s) (r : Fin 2) :
    (oneSided E r).Run r ⟨RdmOneSided.main E r, fun _ => {}, []⟩
      ((oneSided E r).seen E.view r s) := by
  have hset (m : Fin 2 → ThreadMem) (i : ℕ) (ptd : PerThreadData) :
      ThreadMem.set m r i ptd r = Function.update (m r) i ptd := Function.update_self ..
  have hperform (e : ℕ) (o : Op) (mem : Fin 2 → ThreadMem) (x : o.Resp) (mem' : Fin 2 → ThreadMem)
      (h : E.machine.perform r e o mem x mem') : (oneSided E r).perform o (mem r) x (mem' r) := by
    cases o with
    | fi i call => exact ⟨h.1, (congrFun h.2 r).trans (hset mem i _)⟩
    | storeAddrs i addrs => exact (congrFun h r).trans (hset mem i _)
    | setBufs i => exact (congrFun h r).trans (hset mem i _)
    | storeDescs i descs => exact (congrFun h r).trans (hset mem i _)
    | fiClose o => exact congrFun h r
    | readMr i mr => exact ⟨h.1, congrFun h.2 r⟩
    | touchBufs i => exact ⟨h.1, congrFun h.2 r⟩
    | runThreads size => exact ⟨h.1, congrFun h.2 r⟩
    | abort => exact h
  exact Process.run_of_reachable E.view hperform hs

end CrayTests.RdmMain
