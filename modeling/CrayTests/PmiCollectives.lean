import CrayTests.CommittedStore
import CrayTests.KvsCodec

/-!
# Collective operations over the PMI key-value space

`PMI_Allgather` and `PMI_Bcast` of `ct_utils.c` as programs of a rank over a store that is made
visible by `PMI_Barrier`. The static counter of each function is passed in and out. Every put and
get is labelled with the call it belongs to and the rank whose bytes it carries, and every call
ends by showing the caller's buffer; neither has an effect on the run.
-/

namespace CrayTests.Kvs
open CInteger RankProgram CommittedStore

/-- The position of a collective call in the program, and the rank whose bytes are meant. -/
abbrev Label := ℕ × ℕ

abbrev PmiInterface : Interface := store (List Char) (List Byte) (ℕ × List Byte) Label

abbrev Pmi (n : ℕ) (α : Type) := Program PmiInterface n α

variable {n : ℕ} {α : Type}

def kvsPut (l : Label) (key : List Char) (value : List Byte) : Pmi n Unit :=
  .op (Op.put l key value) .pure

def kvsCommit : Pmi n Unit := .op Op.commit .pure

def kvsGet (l : Label) (key : List Char) : Pmi n (List Byte) := .op (Op.get l key) .pure

def pmiBarrier : Pmi n Unit := .sync () (fun _ => .pure ())

def observe (call : ℕ) (buf : List Byte) : Pmi n Unit := .op (Op.observe (call, buf)) .pure

/-- A failed assertion. The continuation is never reached. -/
def abort [Inhabited α] : Pmi n α := .op Op.abort (fun _ => .pure default)

def decimal (z : ℤ) : List Char :=
  if z < 0 then '-' :: Nat.toDigits 10 z.natAbs else Nat.toDigits 10 z.toNat

def snprintf64 (s : List Char) : List Char := s.take 63

def rankKey (kvs : List Char) (rank : ℕ) : List Char :=
  snprintf64 (kvs ++ ['_', 'r', 'a', 'n', 'k'] ++ decimal rank)

def gniPmiSend (call : ℕ) (kvs : List Char) (myRank : ℕ) (buffer : List Byte) (len : ℕ) :
    Pmi n Unit :=
  match encode (buffer.take len) with
  | none => abort
  | some ebuf => do
    kvsPut (call, myRank) (rankKey kvs myRank) (cString ebuf)
    kvsCommit

def gniPmiReceive (call : ℕ) (kvs : List Char) (rank : ℕ) (buffer : List Byte) (len : ℕ) :
    Pmi n (List Byte) := do
  let value ← kvsGet (call, rank) (rankKey kvs rank)
  match receiveValue value buffer len with
  | none => abort
  | some buffer => pure buffer

def allgName (cnt : ℤ) : List Char := snprintf64 (['a', 'l', 'l', 'g'] ++ decimal cnt)

def bcstName (cnt : ℤ) : List Char := snprintf64 (['b', 'c', 's', 't'] ++ decimal cnt)

/-- The part of `targ` one receive writes to is cut out and put back. -/
def receiveBlock (call : ℕ) (idstr : List Char) (len i : ℕ) (targ : List Byte) :
    Pmi n (List Byte) := do
  let block ← gniPmiReceive call idstr i ((targ.drop (i * len)).take len) len
  pure (targ.take (i * len) ++ block ++ targ.drop (i * len + len))

def pmiAllgather (call myRank : ℕ) (cnt : ℤ) (src targ : List Byte) (len : ℕ) :
    Pmi n (List Byte × ℤ) := do
  let idstr := allgName cnt
  gniPmiSend call idstr myRank src len
  pmiBarrier
  let targ ← Program.loop (receiveBlock call idstr len) 0 n targ
  pure (targ, int32 (cnt + 1))

/-- The buffer and the counter after the call; `len` is an `int`. -/
def pmiBcast (call myRank : ℕ) (cnt : ℤ) (buf : List Byte) (len : ℤ) :
    Pmi n (List Byte × ℤ) := do
  let idstr := bcstName cnt
  let buf ← if myRank = 0 then do
      gniPmiSend call idstr myRank buf (uint64 len)
      pmiBarrier
      pure buf
    else do
      pmiBarrier
      gniPmiReceive call idstr 0 buf (uint64 len)
  pmiBarrier
  pure (buf, int32 (cnt + 1))

inductive Call
  | allgather (len : ℕ)
  | bcast (len : ℕ)

def Call.len : Call → ℕ
  | .allgather len => len
  | .bcast len => len

/-- What the ranks pass to their collective calls: rank `i` passes `data i j` to its `j`-th call,
and `targ i j` is its output array there. -/
structure Payload (n : ℕ) (calls : List Call) where
  data : ℕ → ℕ → List Byte
  targ : ℕ → ℕ → List Byte
  length_data : ∀ i < n, ∀ j c, calls[j]? = some c → (data i j).length = c.len
  length_targ : ∀ i < n, ∀ j len, calls[j]? = some (.allgather len) →
    (targ i j).length = n * len

def runCalls (data targ : ℕ → ℕ → List Byte) (myRank : ℕ) :
    List Call → ℕ → ℤ → ℤ → Pmi n Unit
  | [], _, _, _ => pure ()
  | .allgather len :: calls, j, allgCnt, bcstCnt => do
    let (buf, allgCnt) ← pmiAllgather j myRank allgCnt (data myRank j) (targ myRank j) len
    observe j buf
    runCalls data targ myRank calls (j + 1) allgCnt bcstCnt
  | .bcast len :: calls, j, allgCnt, bcstCnt => do
    let (buf, bcstCnt) ← pmiBcast j myRank bcstCnt (data myRank j) (int32 len)
    observe j buf
    runCalls data targ myRank calls (j + 1) allgCnt bcstCnt

def job (calls : List Call) (p : Payload n calls) : Fin n → Pmi n Unit :=
  fun r => runCalls p.data p.targ r calls 0 0 0

abbrev PmiState (n : ℕ) :=
  State (machine (List Char) (List Byte) (ℕ × List Byte) Label n) Unit

def JobReachable (calls : List Call) (p : Payload n calls) (s : PmiState n) : Prop :=
  Reachable (m := machine (List Char) (List Byte) (ℕ × List Byte) Label n) empty (job calls p) s

theorem toDigits_ten_injective {a b : ℕ} (h : Nat.toDigits 10 a = Nat.toDigits 10 b) : a = b := by
  rw [← Nat.ofDigitChars_ten_toDigits (n := a), h, Nat.ofDigitChars_ten_toDigits]

theorem decimal_natCast (a : ℕ) : decimal a = Nat.toDigits 10 a := by
  simp [decimal]

theorem length_toDigits_le {a : ℕ} (h : a < 2 ^ 31) : (Nat.toDigits 10 a).length ≤ 10 :=
  (Nat.length_toDigits_le_iff (by norm_num) (by norm_num)).mpr (by omega)

def longKey (name : List Char) (cnt rank : ℕ) : List Char :=
  name ++ Nat.toDigits 10 cnt ++ '_' :: (['r', 'a', 'n', 'k'] ++ Nat.toDigits 10 rank)

/-- With counters and ranks in the range of `int` no key is cut off. -/
theorem rankKey_eq {name : List Char} {cnt rank : ℕ} (hname : name.length = 4)
    (hcnt : cnt < 2 ^ 31) (hrank : rank < 2 ^ 31) :
    rankKey (snprintf64 (name ++ decimal cnt)) rank = longKey name cnt rank := by
  have hc := length_toDigits_le hcnt
  have hr := length_toDigits_le hrank
  have hshort : snprintf64 (name ++ decimal cnt) = name ++ Nat.toDigits 10 cnt := by
    rw [snprintf64, decimal_natCast, List.take_of_length_le]
    simp only [List.length_append]
    omega
  rw [rankKey, hshort, snprintf64, decimal_natCast, List.take_of_length_le]
  · simp [longKey]
  · simp only [List.length_append, List.length_cons, List.length_nil]
    omega

theorem longKey_inj {name name' : List Char} {cnt cnt' rank rank' : ℕ}
    (hname : name.length = 4) (hname' : name'.length = 4)
    (h : longKey name cnt rank = longKey name' cnt' rank') :
    name = name' ∧ cnt = cnt' ∧ rank = rank' := by
  rw [longKey, longKey, List.append_assoc, List.append_assoc] at h
  obtain ⟨hn, h⟩ := List.append_inj h (hname.trans hname'.symm)
  -- digits are not underscores, so the counter ends at the first one
  have hdigit (a : ℕ) : ∀ c ∈ Nat.toDigits 10 a, (c != '_') = true := by
    intro c hc
    have : c ≠ '_' := by
      rintro rfl
      exact Nat.underscore_not_in_toDigits hc
    simpa using this
  have hcut (a : ℕ) (l : List Char) :
      (Nat.toDigits 10 a ++ '_' :: l).takeWhile (· != '_') = Nat.toDigits 10 a := by
    rw [List.takeWhile_append_of_pos (hdigit a)]
    simp
  have hc := congrArg (List.takeWhile (· != '_')) h
  rw [hcut, hcut] at hc
  obtain rfl := toDigits_ten_injective hc
  have hr := List.append_cancel_left (List.cons.inj (List.append_cancel_left h)).2
  exact ⟨hn, rfl, toDigits_ten_injective hr⟩

end CrayTests.Kvs
