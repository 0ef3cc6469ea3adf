import CrayTests.CInteger
import CrayTests.KvsCodec
import CrayTests.OptionLoop
import CrayTests.RankProgram
import CrayTests.Scatter

/-!
# `ctpm_Allgather` puts the blocks in rank order

`PMI_Allgather` lays the blocks of the ranks end to end in an order of its own, `σ`, the same in all
calls of a job. The first call of `allgather` therefore gathers the ranks themselves into
`ivec_ptr`, and every call copies the `i`-th block to place `ivec_ptr[i]`. The static variables are
passed in and out; an access outside the gathered blocks ends the rank like a failed assertion.
-/

namespace CrayTests.Allgather
open CInteger RankProgram Scatter
open Kvs (Byte mallocFits)

variable {n : ℕ} {α : Type}

inductive Op
  | observe (call : ℕ) (out : Memory Byte)
  | abort

/-- The only collective call is `PMI_Allgather`, to which a rank brings its bytes. -/
@[reducible] def pmi : Interface := ⟨Op, fun _ => Unit, List Byte⟩

abbrev Rank (n : ℕ) (α : Type) := Program pmi n α

def observe (call : ℕ) (out : Memory Byte) : Rank n Unit := .op (Op.observe call out) .pure

def abort [Inhabited α] : Rank n α := .op Op.abort fun _ => .pure default

def intBytes (x : ℤ) : List Byte := (List.range 4).map fun k => BitVec.ofInt 8 (x / 256 ^ k)

def readInts : List Byte → List ℤ
  | b₀ :: b₁ :: b₂ :: b₃ :: bs =>
    int32 (b₀.toNat + 256 * b₁.toNat + 256 ^ 2 * b₂.toNat + 256 ^ 3 * b₃.toNat) :: readInts bs
  | _ => []

structure Static where
  ivecPtr : List ℤ := []
  alreadyCalled : Bool := false
  jobSize : ℤ := 0

instance : Inhabited Static := ⟨{}⟩

instance : Inhabited (Memory Byte) := ⟨⟨fun _ => 0, []⟩⟩

/-- The `i`-th of the gathered blocks, all of which must fit `size` bytes, is that of rank `σ i`. -/
def pmiAllgather (σ : Equiv.Perm (Fin n)) (block : List Byte) (size : ℕ) : Rank n (List Byte) :=
  .sync block fun blocks =>
    let gathered := (List.finRange n).flatMap fun i => blocks (σ i)
    if gathered.length ≤ size then .pure gathered else abort

/-- `memcpy(&out_ptr[len * ivec_ptr[i]], &tmp_buf[i * len], len)`. -/
def copyBlock (ivecPtr : List ℤ) (tmpBuf : List Byte) (len : ℤ) (out : Memory Byte) (i : ℕ) :
    Option (Memory Byte) := do
  let rank ← ivecPtr[i]?
  let offset := int32 (i * len)
  if 0 ≤ offset ∧ offset.toNat + uint64 len ≤ tmpBuf.length then
    some (out.copy (int32 (len * rank)) ((tmpBuf.drop offset.toNat).take (uint64 len)))
  else none

/-- Gathers the ranks unless an earlier call has. -/
def learnRanks (σ : Equiv.Perm (Fin n)) (myRank : ℕ) (st : Static) : Rank n Static :=
  let jobSize : ℤ := n
  if st.alreadyCalled then pure st
  else if mallocFits (4 * uint64 jobSize) then do
    let ivec ← pmiAllgather σ (intBytes myRank) (4 * uint64 jobSize)
    pure ⟨readInts ivec, true, jobSize⟩
  else abort

def allgather (σ : Equiv.Perm (Fin n)) (myRank : ℕ) (st : Static) (inp : List Byte)
    (out : Memory Byte) (len : ℤ) : Rank n (Static × Memory Byte) := do
  let st ← learnRanks σ myRank st
  let size := uint64 (int32 (st.jobSize * len))
  if mallocFits size then do
    let tmpBuf ← pmiAllgather σ (inp.take (uint64 len)) size
    match (List.range st.jobSize.toNat).foldlM (copyBlock st.ivecPtr tmpBuf len) out with
    | none => abort
    | some out => pure (st, out)
  else abort

def ctpmAllgather (σ : Equiv.Perm (Fin n)) (myRank : ℕ) (st : Static) (src : List Byte)
    (lenPerRank : ℕ) (targ : Memory Byte) : Rank n (Static × Memory Byte) :=
  allgather σ myRank st src targ (int32 lenPerRank)

/-- What the ranks pass to their calls: rank `i` passes the bytes `data i j` to its `j`-th call, and
its output array there lies in the memory `targ i j`, from address 0 on. -/
structure Payload (n : ℕ) (lens : List ℕ) where
  data : ℕ → ℕ → List Byte
  targ : ℕ → ℕ → ℤ → Byte
  length_data : ∀ i < n, ∀ j len, lens[j]? = some len → (data i j).length = len

def runCalls (σ : Equiv.Perm (Fin n)) (data : ℕ → ℕ → List Byte) (targ : ℕ → ℕ → ℤ → Byte)
    (myRank : ℕ) : List ℕ → ℕ → Static → Rank n Unit
  | [], _, _ => pure ()
  | len :: lens, j, st => do
    let (st, out) ← ctpmAllgather σ myRank st (data myRank j) len ⟨targ myRank j, []⟩
    observe j out
    runCalls σ data targ myRank lens (j + 1) st

def job (σ : Equiv.Perm (Fin n)) (lens : List ℕ) (p : Payload n lens) : Fin n → Rank n Unit :=
  fun r => runCalls σ p.data p.targ r lens 0 {}

/-- The operations have no effect; a rank whose assertion fails makes no further step. -/
@[reducible] def machine (n : ℕ) : Machine pmi n where
  Mem := Unit
  perform _ _ o _ _ _ := match o with
    | .observe _ _ => True
    | .abort => False
  drift _ _ := False

abbrev JobState (n : ℕ) := State (machine n) Unit

def JobReachable (σ : Equiv.Perm (Fin n)) (lens : List ℕ) (p : Payload n lens) (s : JobState n) :
    Prop :=
  Reachable (m := machine n) () (job σ lens p) s

abbrev Ev := ℕ × Event pmi

abbrev observeEvent (j : ℕ) (out : Memory Byte) : Event pmi := .op (Op.observe j out : pmi.Op) ()

def returned (done : List Ev) : List ℕ :=
  done.filterMap fun
    | (_, .op (.observe j _) _) => some j
    | _ => none

/-- What a call leaves behind in the memory `before` that holds its output array. -/
structure InRankOrder (data : ℕ → ℕ → List Byte) (n len j : ℕ) (before : ℤ → Byte)
    (out : Memory Byte) : Prop where
  block : ∀ q < n, ∀ k (hk : k < (data q j).length),
    out.cell (((len * q + k : ℕ) : ℤ)) = (data q j)[k]
  /-- Every byte of the array is stored to once and nothing else is. -/
  once : out.written.Perm ((List.range (n * len)).map fun x : ℕ => (x : ℤ))
  outside : ∀ x, x < 0 ∨ ((n * len : ℕ) : ℤ) ≤ x → out.cell x = before x

structure RanksInOrder (σ : Equiv.Perm (Fin n)) (lens : List ℕ) (p : Payload n lens) : Prop where
  ordered : ∀ s : JobState n, JobReachable σ lens p s → ∀ r e j out,
    (e, observeEvent j out) ∈ (s.proc r).done →
      ∃ len, lens[j]? = some len ∧ InRankOrder p.data n len j (p.targ r j) out
  completes : ∀ s : JobState n, JobReachable σ lens p s →
    ∃ t, JobReachable σ lens p t ∧ Relation.ReflTransGen Step s t ∧ Halted t
  returns : ∀ s : JobState n, JobReachable σ lens p s → Halted s →
    ∀ r, returned (s.proc r).done = List.range lens.length
  bounded : ∃ bound, ∀ (run : ℕ → JobState n) (k : ℕ), run 0 = start () (job σ lens p) →
    (∀ i < k, Step (run i) (run (i + 1))) → k ≤ bound

end CrayTests.Allgather
