import CrayTests.AllgatherOrder
import CrayTests.Linking
import CrayTests.PmiStages

/-!
# The collective operations of `ct_utils.h`

`ctpm_Barrier`, `ctpm_Allgather` and `ctpm_Bcast` twice. In the abstract layer each of them is one
collective step, which hands a rank what the ranks have brought. In the code of a build without the
collectives of the PMI library they are the functions of `ct_utils.c`: `allgather` runs over
`PMI_Allgather`, and this one and `PMI_Bcast` over the key-value space. `ctUtils` is that code as a
library, with its static variables as state.
-/

namespace CrayTests.Ctpm
open CInteger RankProgram CommittedStore Scatter
open Kvs (Byte Pmi PmiInterface pmiAllgather pmiBcast pmiBarrier)

variable {n : ℕ} {α : Type}

/-- What a rank brings to a collective operation. In a broadcast only rank 0 brings bytes, the
others bring the length of their buffers. -/
inductive Contribution
  | barrier
  | allgather (src : List Byte)
  | bcast (buffer : List Byte)
  | receive (len : ℕ)

instance : Inhabited Contribution := ⟨.barrier⟩

def Contribution.bytes : Contribution → List Byte
  | .allgather src => src
  | .bcast buffer => buffer
  | _ => []

@[reducible] def ctpm : Interface := ⟨Empty, fun _ => Unit, Contribution⟩

abbrev Collective (n : ℕ) (α : Type) := Program ctpm n α

def ctpmBarrier : Collective n Unit := .sync .barrier fun _ => .pure ()

def ctpmAllgather (src : List Byte) : Collective n (List Byte) :=
  .sync (.allgather src) fun v => .pure ((List.finRange n).flatMap fun q => (v q).bytes)

def broadcast (buffer : List Byte) : Fin n → Contribution := fun q =>
  if (q : ℕ) = 0 then .bcast buffer else .receive buffer.length

def rootBytes (v : Fin n → Contribution) : List Byte :=
  ((List.finRange n).head?.map fun q => (v q).bytes).getD []

def ctpmBcast (myRank : ℕ) (buffer : List Byte) : Collective n (List Byte) :=
  .sync (if myRank = 0 then .bcast buffer else .receive buffer.length) fun v =>
    .pure (rootBytes v)

@[reducible] def abstractMachine (n : ℕ) : Machine ctpm n where
  Mem := Unit
  perform _ _ o _ _ _ := o.elim
  drift _ _ := False

/-- The static variables of `ct_utils.c`. `calls` counts the calls of `PMI_Allgather` and
`PMI_Bcast`; it only labels their puts and gets. -/
structure Static where
  calls : ℕ := 0
  allgCnt : ℤ := 0
  bcstCnt : ℤ := 0
  gather : Allgather.Static := {}

/-- What memory holds before call number `calls` fills it: memory from `malloc` and memory of the
caller. -/
structure Contents where
  heap : ℕ → ℤ → Byte
  caller : ℕ → ℤ → Byte

def region (cells : ℤ → Byte) (start : ℤ) (len : ℕ) : List Byte :=
  (List.range len).map fun k : ℕ => cells (start + k)

section Code

variable (mem : Contents) (myRank : ℕ)

/-- `PMI_Allgather` of `ct_utils.c`, with the blocks of the array it fills. -/
def gatherBlocks (block : List Byte) (st : Static) : Pmi n ((Fin n → List Byte) × Static) := do
  let len := block.length
  let (targ, allgCnt) ← pmiAllgather st.calls myRank st.allgCnt block
    (region (mem.heap st.calls) 0 (n * len)) len
  pure (fun q => (targ.drop (q * len)).take len,
    { st with calls := st.calls + 1, allgCnt := allgCnt })

/-- What `allgather` finds under the name `PMI_Allgather`. -/
def pmiLibrary : Library Allgather.pmi PmiInterface n Static where
  op
    | .observe _ _, st => .pure ((), st)
    | .abort, st => .op Op.abort fun _ => .pure ((), st)
  sync := gatherBlocks mem myRank

/-- This `PMI_Allgather` lays down the blocks in rank order. -/
def linkedAllgather (src : List Byte) (st : Static) : Pmi n ((Fin n → Contribution) × Static) := do
  let ((gather, targ), st) ← (Allgather.ctpmAllgather (Equiv.refl _) myRank st.gather src
    src.length ⟨mem.caller st.calls, []⟩).link (pmiLibrary mem myRank) st
  pure (fun q => .allgather (region targ.cell ((q * src.length : ℕ) : ℤ) src.length),
    { st with gather := gather })

def linkedBcast (buffer : List Byte) (len : ℕ) (st : Static) :
    Pmi n ((Fin n → Contribution) × Static) := do
  let (buffer, bcstCnt) ← pmiBcast st.calls myRank st.bcstCnt buffer (int32 len)
  pure (broadcast buffer, { st with calls := st.calls + 1, bcstCnt := bcstCnt })

def ctUtils : Library ctpm PmiInterface n Static where
  op o := o.elim
  sync
    | .barrier, st => do
      pmiBarrier
      pure (fun _ => .barrier, st)
    | .allgather src, st => linkedAllgather mem myRank src st
    | .bcast buffer, st => linkedBcast myRank buffer buffer.length st
    | .receive len, st => linkedBcast myRank (region (mem.caller st.calls) 0 len) len st

def linked (code : Collective n α) : Pmi n (α × Static) := do
  pmiBarrier
  code.link (ctUtils mem myRank) {}

end Code

def job (mem : Fin n → Contents) (code : Fin n → Collective n α) : Fin n → Pmi n (α × Static) :=
  fun r => linked (mem r) r (code r)

inductive Round (n : ℕ)
  | barrier
  | allgather (len : ℕ) (src : Fin n → List Byte) (length_src : ∀ q, (src q).length = len)
  | bcast (buffer : List Byte)

instance : Inhabited (Round n) := ⟨.barrier⟩

def Round.contribution : Round n → Fin n → Contribution
  | .barrier => fun _ => .barrier
  | .allgather _ src _ => fun q => .allgather (src q)
  | .bcast buffer => broadcast buffer

/-- The lengths and positions of a round fit an `int`, and so do those of the encoded bytes. -/
def Round.Fits : Round n → Prop
  | .barrier => True
  | .allgather len _ _ => len < 2 ^ 30 ∧ n * len < 2 ^ 31
  | .bcast buffer => buffer.length < 2 ^ 30

/-- The abstract runs in which the ranks go through `rounds`. -/
def oracle (rounds : List (Round n)) : Oracle ctpm n where
  resp _ o := o.elim
  gathered e := (rounds[e]?.getD default).contribution

end CrayTests.Ctpm
