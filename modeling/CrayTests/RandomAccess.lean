import CrayTests.CInteger
import CrayTests.XorStore
import CrayTests.UpdateStreams

/-!
# RandomAccess over remote atomics

The part of `random_access` from the initialisation of `hpcc_table` to the reduction of the error
counts, with `update_table` and `lf_atomic_xor`, as programs of the ranks over a store with remote
atomic exclusive ors. An update is labelled with the call of `update_table` it belongs to and its
iteration; the fabric decides by the label whether the update is applied, and `lf_atomic_xor` does
not look at the outcome.
-/

namespace CrayTests.RandomAccess
open CInteger RankProgram XorSum XorStore

/-- Contributions to the collective calls. The value broadcast is not looked at. -/
inductive Collective
  | barrier
  | bcast
  | allgather (val : ℤ)

def Collective.val : Collective → ℤ
  | .allgather val => val
  | _ => 0

/-- The call of `update_table` and the iteration in it. -/
abbrev Label := Bool × ℕ

/-- The addresses of the ranks' tables, each inside a 64-bit address space. -/
structure Buffers (l : Layout) where
  hpccTable : Fin l.numRanks → ℕ
  fits : ∀ r : Fin l.numRanks, hpccTable r + 8 * l.localTableSize r ≤ 2 ^ 64

variable {l : Layout}

def Layout.offset (l : Layout) (ran : Word) : ℕ := (ran &&& BitVec.ofNat 64 (l.tableSize - 1)).toNat

/-- The word of rank `q` at a remote address, in the registered table of that rank. -/
def Buffers.locate (b : Buffers l) (q : Fin l.numRanks) (addr : ℕ) : Option ℕ :=
  if b.hpccTable q ≤ addr ∧ addr < b.hpccTable q + 8 * l.localTableSize q ∧
      (addr - b.hpccTable q) % 8 = 0 then
    some ((addr - b.hpccTable q) / 8)
  else none

abbrev Access (l : Layout) (α : Type) :=
  Program (store 64 l.numRanks ℕ Label Collective) l.numRanks α

def storeWord (index : ℕ) (val : Word) : Access l Unit := .op (Op.write index val) .pure

def loadWord (index : ℕ) : Access l Word := .op (Op.read index) .pure

def abort : Access l Unit := .op Op.abort .pure

def ctpmBarrier : Access l Unit := .sync .barrier (fun _ => .pure ())

def ctpmBcast : Access l Unit := .sync .bcast (fun _ => .pure ())

def ctpmAllgather (src : ℤ) : Access l (Fin l.numRanks → ℤ) :=
  .sync (.allgather src) (fun vals => .pure (fun r => (vals r).val))

/-- `addr` points into the caller's table; tables are taken to have identical offsets. -/
def lfAtomicXor (b : Buffers l) (rank : Fin l.numRanks) (label : Label) (addr : ℕ) (val : Word)
    (remoteRank : ℤ) : Access l Unit :=
  if h : 0 ≤ remoteRank ∧ remoteRank < l.numRanks then
    let peer : Fin l.numRanks := ⟨remoteRank.toNat, by omega⟩
    let remAddr := uint64 (b.hpccTable peer + uint64 (addr - b.hpccTable rank))
    .op (Op.xor label peer remAddr val) .pure
  else abort

def updateRound (b : Buffers l) (rank : Fin l.numRanks) (second : Bool) (i : ℕ) (ran : Word) :
    Access l Word := do
  let ran := nextRan ran
  let globalOffset := l.offset ran
  let remotePe := (l.route globalOffset).1
  let index := (l.route globalOffset).2
  let addr := uint64 (b.hpccTable rank + 8 * index)
  lfAtomicXor b rank (second, i) addr ran remotePe
  pure ran

def updateTable (b : Buffers l) (rank : Fin l.numRanks) (second : Bool) : Access l Unit := do
  ctpmBarrier
  let _ ← Program.loop (updateRound b rank second) 0 (l.procNumUpdates rank)
    (l.savedInitialRanVal rank)
  ctpmBarrier

def ownOffset (rank : Fin l.numRanks) (i : ℕ) : Word := BitVec.ofNat 64 (i + l.globalStart rank)

def initTable (rank : Fin l.numRanks) : Access l Unit :=
  Program.loop (fun i _ => storeWord i (ownOffset rank i)) 0 (l.localTableSize rank) ()

def countErrors (rank : Fin l.numRanks) : Access l ℤ :=
  Program.loop (fun i numErrors => do
    let word ← loadWord i
    pure (if word ≠ ownOffset rank i then int64 (numErrors + 1) else numErrors))
    0 (l.localTableSize rank) 0

def ctAllreduceInt64Sum (src : ℤ) : Access l ℤ := do
  let vals ← ctpmAllgather src
  let valAt := fun i => if h : i < l.numRanks then vals ⟨i, h⟩ else 0
  let ret := (List.range (l.numRanks - 1)).foldl (fun ret i => int64 (ret + valAt (i + 1)))
    (valAt 0)
  ctpmBarrier
  pure ret

/-- Up to the end of the first call of `update_table`. -/
def firstUpdate (b : Buffers l) (rank : Fin l.numRanks) : Access l Unit := do
  initTable rank
  updateTable b rank false

/-- Up to the reduction of the error counts; the result is `global_num_errors`. -/
def randomAccess (b : Buffers l) (rank : Fin l.numRanks) : Access l ℤ := do
  firstUpdate b rank
  ctpmBarrier
  ctpmBcast
  ctpmBarrier
  updateTable b rank true
  let numErrors ← countErrors rank
  ctpmBarrier
  let globalNumErrors ← ctAllreduceInt64Sum numErrors
  ctpmBarrier
  pure globalNumErrors

/-- The fabric of a run in which the updates in `D` (rank, call, iteration) fail. -/
def fabric (b : Buffers l) (D : Finset (Fin l.numRanks × Label)) :
    Fabric l.numRanks ℕ Label where
  size r := l.localTableSize r
  locate := b.locate
  lost r label := (r, label) ∈ D

abbrev AccessState (b : Buffers l) (D : Finset (Fin l.numRanks × Label)) (α : Type) :=
  State (machine 64 Collective (fabric b D)) α

def AccessReachable (b : Buffers l) (D : Finset (Fin l.numRanks × Label))
    (mem : Words 64 l.numRanks) {α : Type} (code : Fin l.numRanks → Access l α)
    (s : AccessState b D α) : Prop :=
  Reachable (m := machine 64 Collective (fabric b D)) mem code s

def concatTables (l : Layout) (mem : Words 64 l.numRanks) : List Word :=
  (List.finRange l.numRanks).flatMap
    (fun r : Fin l.numRanks => (List.range (l.localTableSize r)).map (mem r))

end CrayTests.RandomAccess
