import CrayTests.PmiCollectives
import CrayTests.Tiling

/-!
# The events of one collective call

Along the oracle `expected`, which answers the get labelled `(j, i)` with the encoding of what rank
`i` passed to call `j`, each call of `PMI_Allgather` and `PMI_Bcast` performs its `callEvents` and
leaves the gathered blocks, or the bytes of rank 0, in the caller's buffer.
-/

namespace CrayTests.Kvs
open CInteger RankProgram CommittedStore

variable {n : ℕ}

def expected (n : ℕ) (data : ℕ → ℕ → List Byte) : Oracle PmiInterface n where
  resp _
    | .put _ _ _ => ()
    | .commit => ()
    | .get l _ => encodeChars (data l.2 l.1)
    | .observe _ => ()
    | .abort => ()
  gathered _ _ := ()

abbrev Ev := ℕ × Event PmiInterface

abbrev observeEvent (j : ℕ) (buf : List Byte) : Event PmiInterface :=
  .op (Op.observe (j, buf) : Op (List Char) (List Byte) (ℕ × List Byte) Label) ()

variable {data : ℕ → ℕ → List Byte} {r : Fin n} {e : ℕ}

theorem runs_kvsCommit : Runs (expected n data) r e kvsCommit [(e, commitEvent)] () e :=
  .op _ (.pure ())

theorem runs_pmiBarrier : Runs (expected n data) r e pmiBarrier [(e, .sync ())] () (e + 1) :=
  Runs.sync (I := PmiInterface) () (.pure ())

variable (data) in
theorem runs_gniPmiSend (call myRank : ℕ) (kvs : List Char) {len : ℕ} {buffer : List Byte}
    (hbuf : buffer.length = len) (hlen : len ≤ 2 ^ 30) :
    Runs (expected n data) r e (gniPmiSend call kvs myRank buffer len)
      [(e, putEvent (call, myRank) (rankKey kvs myRank) (encodeChars buffer)), (e, commitEvent)]
      () e := by
  have henc : encode (buffer.take len) = some (encodeChars buffer ++ [0]) := by
    rw [List.take_of_length_le hbuf.le, encode_eq (by omega)]
  have hput : Runs (expected n data) r e
      (kvsPut (call, myRank) (rankKey kvs myRank) (encodeChars buffer))
      [(e, putEvent (call, myRank) (rankKey kvs myRank) (encodeChars buffer))] () e :=
    .op _ (.pure ())
  rw [gniPmiSend, henc]
  dsimp only
  rw [cString_encodeChars]
  exact hput.bind runs_kvsCommit

theorem runs_gniPmiReceive {call : ℕ} (rank : ℕ) (kvs : List Char) {len : ℕ} {buffer : List Byte}
    (hbuf : buffer.length = len) (hdata : (data rank call).length = len) (hlen : len < 2 ^ 30) :
    Runs (expected n data) r e (gniPmiReceive call kvs rank buffer len)
      [(e, getEvent (call, rank) (rankKey kvs rank) (encodeChars (data rank call)))]
      (data rank call) e := by
  have hval : receiveValue (encodeChars (data rank call)) buffer len =
      some (data rank call) := by
    subst hdata
    exact receiveValue_encodeChars hlen hbuf
  have hget : Runs (expected n data) r e (kvsGet (call, rank) (rankKey kvs rank))
      [(e, getEvent (call, rank) (rankKey kvs rank) (encodeChars (data rank call)))]
      (encodeChars (data rank call)) e := .op _ (.pure _)
  refine hget.bind ?_
  rw [hval]
  exact .pure _

def blocks (data : ℕ → ℕ → List Byte) (j k : ℕ) : List Byte :=
  (List.range k).flatMap (fun i => data i j)

theorem blocks_succ (j k : ℕ) : blocks data j (k + 1) = blocks data j k ++ data k j := by
  simp [blocks, List.range_succ]

theorem length_blocks {j k len : ℕ} (h : ∀ i < k, (data i j).length = len) :
    (blocks data j k).length = k * len := by
  rw [blocks, Tiling.length_flatMap_of_length_eq fun i hi => h i (List.mem_range.mp hi),
    List.length_range]

/-- Block `i` of a gathered array is what rank `i` passed. -/
theorem block_of_blocks {j k len : ℕ} (h : ∀ i < k, (data i j).length = len) {i : ℕ} (hi : i < k) :
    ((blocks data j k).drop (i * len)).take len = data i j := by
  have hcut := Tiling.take_drop_flatMap (fun i hi => h i (List.mem_range.mp hi))
    (by rwa [List.length_range])
  rwa [List.getElem_range] at hcut

/-- The gets of one `PMI_Allgather` fill `targ` block by block. -/
theorem runs_receiveBlocks {call len : ℕ} (idstr : List Char) {targ : List Byte}
    (hdata : ∀ i < n, (data i call).length = len) (htarg : targ.length = n * len)
    (hlen : len < 2 ^ 30) :
    Runs (expected n data) r e (Program.loop (receiveBlock call idstr len) 0 n targ)
      ((List.range n).flatMap (fun i =>
        [(e, getEvent (call, i) (rankKey idstr i) (encodeChars (data i call)))]))
      (blocks data call n) e := by
  have hloop := Runs.loop (Ω := expected n data) (r := r) (e := e)
    (receiveBlock call idstr len) (i := 0) n
    (fun k => blocks data call k ++ targ.drop (k * len))
    (fun i => [(e, getEvent (call, i) (rankKey idstr i) (encodeChars (data i call)))])
    (fun k hk => by
      have hb : (blocks data call k).length = k * len :=
        length_blocks (fun i hi => hdata i (hi.trans hk))
      have hroom : k * len + len ≤ targ.length := by
        rw [htarg, ← Nat.succ_mul]
        exact Nat.mul_le_mul_right len hk
      have hcut : (((blocks data call k ++ targ.drop (k * len)).drop (k * len)).take len).length =
          len := by
        rw [List.drop_left' hb, List.length_take, List.length_drop]
        omega
      have hst : (blocks data call k ++ targ.drop (k * len)).take (k * len) ++ data k call ++
          (blocks data call k ++ targ.drop (k * len)).drop (k * len + len) =
          blocks data call (k + 1) ++ targ.drop ((k + 1) * len) := by
        rw [List.take_left' hb, ← List.drop_drop, List.drop_left' hb, List.drop_drop,
          ← blocks_succ, ← Nat.succ_mul]
      have hrun := runs_gniPmiReceive k idstr (r := r) (e := e) hcut
        (hdata k hk) hlen
      rw [Nat.zero_add, ← hst]
      exact hrun.bind (.pure _))
  have hend : targ.drop (n * len) = [] := List.drop_of_length_le htarg.le
  simpa [hend, blocks] using hloop

def Call.isAllgather : Call → Bool
  | .allgather _ => true
  | .bcast _ => false

/-- The value of the static counter a call uses: the number of calls of its kind before it. -/
def counter (pre : List Call) (c : Call) : ℕ :=
  pre.countP (fun c' => c'.isAllgather == c.isAllgather)

def Call.name : Call → List Char
  | .allgather _ => ['a', 'l', 'l', 'g']
  | .bcast _ => ['b', 'c', 's', 't']

/-- The key under which call `c`, issued after the calls `pre`, stores the bytes of `rank`. -/
def callKey (pre : List Call) (c : Call) (rank : ℕ) : List Char :=
  longKey c.name (counter pre c) rank

def barriers (calls : List Call) : ℕ := (calls.map (fun c => if c.isAllgather then 1 else 2)).sum

def callResult (n : ℕ) (data : ℕ → ℕ → List Byte) (j : ℕ) : Call → List Byte
  | .allgather _ => blocks data j n
  | .bcast _ => data 0 j

def callPut (data : ℕ → ℕ → List Byte) (pre : List Call) (c : Call) (rank : ℕ) :
    Event PmiInterface :=
  putEvent (pre.length, rank) (callKey pre c rank) (encodeChars (data rank pre.length))

def callGet (data : ℕ → ℕ → List Byte) (pre : List Call) (c : Call) (rank : ℕ) :
    Event PmiInterface :=
  getEvent (pre.length, rank) (callKey pre c rank) (encodeChars (data rank pre.length))

/-- The events of a call on one rank, between its first event and the last barrier. -/
def callBody (n : ℕ) (data : ℕ → ℕ → List Byte) (myRank : ℕ) (pre : List Call) (c : Call) :
    List Ev :=
  let e := barriers pre
  match c with
  | .allgather _ =>
    [(e, callPut data pre c myRank), (e, commitEvent), (e, .sync ())] ++
      (List.range n).flatMap (fun i => [(e + 1, callGet data pre c i)])
  | .bcast _ =>
    if myRank = 0 then
      [(e, callPut data pre c myRank), (e, commitEvent), (e, .sync ()), (e + 1, .sync ())]
    else [(e, .sync ()), (e + 1, callGet data pre c 0), (e + 1, .sync ())]

def callEvents (n : ℕ) (data : ℕ → ℕ → List Byte) (myRank : ℕ) (pre : List Call) (c : Call) :
    List Ev :=
  callBody n data myRank pre c ++
    [(barriers (pre ++ [c]), observeEvent pre.length (callResult n data pre.length c))]

def eventsFrom (n : ℕ) (data : ℕ → ℕ → List Byte) (myRank : ℕ) : List Call → List Call → List Ev
  | _, [] => []
  | pre, c :: calls => callEvents n data myRank pre c ++ eventsFrom n data myRank (pre ++ [c]) calls

theorem barriers_append (pre : List Call) (c : Call) :
    barriers (pre ++ [c]) = barriers pre + if c.isAllgather then 1 else 2 := by
  simp [barriers]

theorem counter_lt {pre calls : List Call} {c : Call} (h : (pre ++ c :: calls).length < 2 ^ 31) :
    counter pre c < 2 ^ 31 := by
  have : counter pre c ≤ pre.length := List.countP_le_length
  simp only [List.length_append] at h
  omega

theorem rankKey_allgName {pre : List Call} {len rank : ℕ} (hrank : rank < 2 ^ 31)
    (hcnt : counter pre (.allgather len) < 2 ^ 31) :
    rankKey (allgName (counter pre (.allgather len))) rank =
      callKey pre (.allgather len) rank :=
  rankKey_eq rfl hcnt hrank

theorem rankKey_bcstName {pre : List Call} {len rank : ℕ} (hrank : rank < 2 ^ 31)
    (hcnt : counter pre (.bcast len) < 2 ^ 31) :
    rankKey (bcstName (counter pre (.bcast len))) rank = callKey pre (.bcast len) rank :=
  rankKey_eq rfl hcnt hrank

theorem runs_pmiAllgather {pre : List Call} (len : ℕ) {targ : List Byte} (hn : n < 2 ^ 31)
    (hdata : ∀ i < n, (data i pre.length).length = len) (htarg : targ.length = n * len)
    (hlen : len < 2 ^ 30) (hcnt : counter pre (.allgather len) < 2 ^ 31) :
    Runs (expected n data) r (barriers pre)
      (pmiAllgather pre.length r (counter pre (.allgather len)) (data r pre.length) targ len)
      (callBody n data r pre (.allgather len))
      (blocks data pre.length n, int32 (counter pre (.allgather len) + 1))
      (barriers (pre ++ [.allgather len])) := by
  have hsend := runs_gniPmiSend data (r := r) (e := barriers pre) pre.length r
    (allgName (counter pre (.allgather len))) (hdata r r.isLt) hlen.le
  have hloop := runs_receiveBlocks (r := r) (e := barriers pre + 1)
    (allgName (counter pre (.allgather len))) hdata htarg hlen
  have hgets : (List.range n).flatMap (fun i => [(barriers pre + 1,
        getEvent (pre.length, i) (rankKey (allgName (counter pre (.allgather len))) i)
          (encodeChars (data i pre.length)))]) =
      (List.range n).flatMap (fun i => [(barriers pre + 1,
        callGet data pre (.allgather len) i)]) := by
    refine List.flatMap_congr (fun i hi => ?_)
    rw [rankKey_allgName ((List.mem_range.mp hi).trans hn) hcnt]
    rfl
  rw [rankKey_allgName (r.isLt.trans hn) hcnt] at hsend
  rw [hgets] at hloop
  rw [barriers_append]
  refine Runs.congr ?_ (Runs.bind hsend (Runs.bind runs_pmiBarrier (Runs.bind hloop (.pure _))))
  rw [List.append_nil]
  rfl

theorem runs_pmiBcast {pre : List Call} (len : ℕ) (hn : n < 2 ^ 31)
    (hdata : ∀ i < n, (data i pre.length).length = len)
    (hlen : len < 2 ^ 30) (hcnt : counter pre (.bcast len) < 2 ^ 31) :
    Runs (expected n data) r (barriers pre)
      (pmiBcast pre.length r (counter pre (.bcast len)) (data r pre.length) (int32 len))
      (callBody n data r pre (.bcast len))
      (data 0 pre.length, int32 (counter pre (.bcast len) + 1))
      (barriers (pre ++ [.bcast len])) := by
  have hcast : uint64 (int32 len) = len := by
    rw [int32_natCast (by omega), uint64_natCast (by omega)]
  rw [barriers_append]
  by_cases hr : (r : ℕ) = 0
  · have hsend := runs_gniPmiSend data (r := r) (e := barriers pre) pre.length r
      (bcstName (counter pre (.bcast len))) (hdata r r.isLt) hlen.le
    rw [rankKey_bcstName (r.isLt.trans hn) hcnt] at hsend
    unfold pmiBcast
    rw [hcast, if_pos hr]
    have hbuf : Runs (expected n data) r (barriers pre + 1) (pure (data r pre.length)) []
        (data 0 pre.length) (barriers pre + 1) := by
      rw [← hr]
      exact .pure _
    refine Runs.congr ?_ (Runs.bind hsend (Runs.bind runs_pmiBarrier
      (Runs.bind hbuf (Runs.bind runs_pmiBarrier (.pure _)))))
    simp [callBody, callPut, hr]
  · have hrecv := runs_gniPmiReceive (r := r) (e := barriers pre + 1) 0
      (bcstName (counter pre (.bcast len)))
      (hdata r r.isLt) (hdata 0 (by omega)) hlen
    rw [rankKey_bcstName (by norm_num) hcnt] at hrecv
    unfold pmiBcast
    rw [hcast, if_neg hr]
    refine Runs.congr ?_ (Runs.bind runs_pmiBarrier (Runs.bind hrecv
      (Runs.bind runs_pmiBarrier (.pure _))))
    simp [callBody, callGet, hr]

end CrayTests.Kvs
