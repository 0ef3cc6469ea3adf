import CrayTests.MessagingTurns
import CrayTests.PingpongTest

/-!
# The protocol of the latency test

The threads of `rdm_pingpong` go through columns: for each size a barrier, the rounds, the last
reading of the clock and a barrier. So the two threads of a pair take turns, every thread returns,
and between the two readings of the clock for a size lie exactly `loop` messages in each direction.
-/

namespace CrayTests.PingpongTest

open CInteger RankProgram Messaging

variable {threads : ℕ} {o : Options} {clock : Fin (2 * threads) → ℕ → ℕ}

abbrev ThreadColumn (threads : ℕ) := Column (2 * threads) ℕ Unit

theorem peer_peer (p : Fin (2 * threads)) : peer (peer p) = p := by
  unfold peer
  by_cases h : p.val < threads
  · simp [h]
  · have hlt : p.val - threads < threads := by omega
    simp only [h, dif_neg, not_false_iff, hlt, dif_pos]
    exact Fin.ext (by simp only; omega)

def pairing (threads : ℕ) : Pairing (2 * threads) where
  leads p := p.val < threads
  partner := peer
  partner_partner := peer_peer
  leads_partner p := by
    unfold peer
    by_cases h : p.val < threads
    · simp [h]
    · have hlt : p.val - threads < threads := by omega
      simp [h, hlt]

theorem leads_iff {p : Fin (2 * threads)} : (pairing threads).leads p = true ↔ rank p = 0 := by
  simp [pairing, rank]

/-- The threads of rank 0 read their clocks. -/
def clockOps (cond : Bool) (k : ℕ) (p : Fin (2 * threads)) : List (Op (2 * threads) ℕ) :=
  if rank p = 0 ∧ cond then [.clock k] else []

theorem clockOps_cases (cond : Bool) (k : ℕ) (p : Fin (2 * threads)) :
    clockOps cond k p = [] ∨ ∃ i, clockOps cond k p = [.clock i] := by
  unfold clockOps
  split_ifs
  · exact .inr ⟨k, rfl⟩
  · exact .inl rfl

theorem quiet_clockOps (cond : Bool) (k : ℕ) (p : Fin (2 * threads)) :
    ∀ op ∈ clockOps cond k p, op.postsOn = none := by
  unfold clockOps
  split_ifs <;> simp [Op.postsOn]

def clockColumn (threads : ℕ) (cond : Bool) (k : ℕ) : ThreadColumn threads :=
  .quiet (clockOps cond k) (quiet_clockOps cond k)

def roundColumns (threads : ℕ) (o : Options) (k i : ℕ) : List (ThreadColumn threads) :=
  clockColumn threads (i = o.skip) (2 * k) :: (pairing threads).volley Unit (2 ^ k)

def sizeColumns (threads : ℕ) (o : Options) (k : ℕ) : List (ThreadColumn threads) :=
  [.sync fun _ => ()] ++
    ((List.range (o.loop + o.skip)).flatMap (roundColumns threads o k) ++
      [clockColumn threads true (2 * k + 1)] ++ [.sync fun _ => ()])

def columns (threads : ℕ) (o : Options) : List (ThreadColumn threads) :=
  (List.range numSizes).flatMap (sizeColumns threads o) ++ [.sync fun _ => ()]

theorem alternates_clockColumn (cond : Bool) (k : ℕ) :
    (pairing threads).Alternates [clockColumn threads cond k] :=
  .clocks (clockOps_cases cond k) (quiet_clockOps cond k)

theorem alternates_columns (threads : ℕ) (o : Options) :
    (pairing threads).Alternates (columns threads o) := by
  have hround (k i : ℕ) : (pairing threads).Alternates (roundColumns threads o k i) :=
    (alternates_clockColumn _ _).append (.volley (2 ^ k))
  have hsize (k : ℕ) : (pairing threads).Alternates (sizeColumns threads o k) :=
    (Pairing.Alternates.sync _).append (((Pairing.Alternates.flatMap fun i _ => hround k i).append
      (alternates_clockColumn _ _)).append (.sync _))
  exact (Pairing.Alternates.flatMap fun k _ => hsize k).append (.sync _)

def elapsed (clock : Fin (2 * threads) → ℕ → ℕ) (p : Fin (2 * threads)) (k : ℕ) : ℕ :=
  if rank p = 0 then uint64 ((clock p (2 * k + 1) : ℤ) - clock p (2 * k)) else 0

def predicted (clock : Fin (2 * threads) → ℕ → ℕ) :
    Oracle (interface (2 * threads) ℕ Unit) (2 * threads) where
  resp p
    | .send _ _ => ()
    | .recv _ _ => ()
    | .take _ => ()
    | .await _ _ => ()
    | .reset _ => ()
    | .clock k => clock p k
  gathered _ _ := ()

section Performs

variable {Ω : Oracle (interface (2 * threads) ℕ Unit) (2 * threads)} {p : Fin (2 * threads)} {e : ℕ}

theorem performs_waitForComp (q : Queue) :
    Performs Ω p e (waitForComp q 1 : Thread threads Unit) [.take q] () :=
  Performs.op _ (.pure _)

theorem performs_pongRound (size : ℕ) :
    Performs Ω p e (pongRound p size) (answer (peer p) size) () := by
  have hrecv : Performs Ω p e (fiTrecv size p) [.recv (peer p) size] () := .op _ (.pure _)
  have hsend : Performs Ω p e (fiTsend size p) [.send (peer p) size] () := .op _ (.pure _)
  exact hrecv.bind ((performs_waitForComp .recv).bind (hsend.bind (performs_waitForComp .send)))

theorem performs_exchange (size t : ℕ) : Performs Ω p e
    (do
      fiTsend size p
      waitForComp .send 1
      fiTrecv size p
      waitForComp .recv 1
      pure t : Thread threads ℕ) (call (peer p) size) t := by
  have hrecv : Performs Ω p e (fiTrecv size p) [.recv (peer p) size] () := .op _ (.pure _)
  have hsend : Performs Ω p e (fiTsend size p) [.send (peer p) size] () := .op _ (.pure _)
  exact hsend.bind ((performs_waitForComp .send).bind
    (hrecv.bind ((performs_waitForComp .recv).bind (.pure t))))

end Performs

section Goes

variable {p : Fin (2 * threads)} {e : ℕ}

def startedAt (skip reading i : ℕ) : ℕ := if i ≤ skip then 0 else reading

theorem goes_pingRound (hp : rank p = 0) (k i : ℕ) :
    Goes (predicted clock) p e
      (pingRound p (2 ^ k) o.skip k i (startedAt o.skip (clock p (2 * k)) i))
      (roundColumns threads o k i) (startedAt o.skip (clock p (2 * k)) (i + 1)) := by
  have hnext : (if i = o.skip then clock p (2 * k) else startedAt o.skip (clock p (2 * k)) i) =
      startedAt o.skip (clock p (2 * k)) (i + 1) := by
    unfold startedAt
    split_ifs <;> omega
  have htimer : Goes (predicted clock) p e
      (startTimer o.skip k i (startedAt o.skip (clock p (2 * k)) i))
      [clockColumn threads (i = o.skip) (2 * k)] (startedAt o.skip (clock p (2 * k)) (i + 1)) := by
    rw [← hnext]
    apply Goes.ops (l := clockOps (i = o.skip) (2 * k) p) rfl
    unfold startTimer clockOps
    by_cases h : i = o.skip
    · simp only [h, hp, if_true, decide_true, and_self]
      exact .op _ (.pure _)
    · simp only [h, hp, if_false, decide_false, Bool.false_eq_true, and_false]
      exact .pure _
  apply htimer.bind
  apply Pairing.goes_volley
  rw [if_pos (leads_iff.mpr hp)]
  exact performs_exchange _ _

theorem goes_pongRound (hp : rank p ≠ 0) (k i : ℕ) :
    Goes (predicted clock) p e (pongRound p (2 ^ k)) (roundColumns threads o k i) () := by
  have hnone : clockOps (decide (i = o.skip)) (2 * k) p = [] := by simp [clockOps, hp]
  have htimer : Goes (predicted clock) p e (.pure ()) [clockColumn threads (i = o.skip) (2 * k)]
      () := Goes.ops (congrArg Stage.ops hnone) (.pure ())
  refine htimer.bind (f := fun _ => pongRound p (2 ^ k)) ?_
  apply Pairing.goes_volley
  rw [if_neg (mt leads_iff.mp hp)]
  exact performs_pongRound _

theorem goes_threadFn (k : ℕ) :
    Goes (predicted clock) p e (threadFn p (2 ^ k) o.loop o.skip k)
      ((List.range (o.loop + o.skip)).flatMap (roundColumns threads o k) ++
        [clockColumn threads true (2 * k + 1)]) (elapsed clock p k) := by
  unfold threadFn elapsed
  by_cases hp : rank p = 0
  · rw [if_pos hp, if_pos hp]
    have hloop := Goes.loop (Ω := predicted clock) (r := p) (e := e) (o.loop + o.skip)
      (startedAt o.skip (clock p (2 * k))) (roundColumns threads o k)
      fun i _ _ => goes_pingRound hp k i
    have hstarted : startedAt o.skip (clock p (2 * k)) (o.loop + o.skip) = clock p (2 * k) := by
      have := o.loop_pos
      unfold startedAt
      rw [if_neg (by omega)]
    rw [hstarted] at hloop
    apply hloop.bind
    apply Goes.ops (l := [.clock (2 * k + 1)])
    · simp [clockColumn, Column.quiet, clockOps, hp]
    · exact .op _ (.pure _)
  · rw [if_neg hp, if_neg hp]
    have hloop : Goes (predicted clock) p e
        (Program.loop (fun _ _ => pongRound p (2 ^ k)) 0 (o.loop + o.skip) ())
        ((List.range (o.loop + o.skip)).flatMap (roundColumns threads o k)) () :=
      Goes.loop _ (fun _ => ()) _ fun i _ _ => goes_pongRound hp k i
    apply hloop.bind
    apply Goes.ops (l := [])
    · simp [clockColumn, Column.quiet, clockOps, hp]
    · exact .pure 0

def sizesAt (o : Options) (clock : Fin (2 * threads) → ℕ → ℕ) (p : Fin (2 * threads)) (k : ℕ) :
    Sizes :=
  ⟨2 ^ k, o.loop, o.skip, (List.range k).map (elapsed clock p)⟩

/-- No size is large. -/
theorem counts_sizesAt {k : ℕ} (hk : k < numSizes) :
    (sizesAt o clock p k).counts o = sizesAt o clock p k := by
  have hle : 2 ^ k ≤ 2 ^ 13 := Nat.pow_le_pow_right (by decide) (Nat.le_of_lt_succ hk)
  exact if_neg (not_lt.mpr hle)

theorem next_sizesAt (k : ℕ) :
    (sizesAt o clock p k).next (elapsed clock p k) = sizesAt o clock p (k + 1) := by
  simp [sizesAt, Sizes.next, pow_succ, List.range_succ]

theorem goes_ctpmBarrier :
    Goes (predicted clock) p e ctpmBarrier [.sync fun _ => ()] () :=
  Goes.sync (c := fun _ => ()) rfl

theorem goes_measure {k : ℕ} (hk : k < numSizes) :
    Goes (predicted clock) p e (measure o p k (sizesAt o clock p k)) (sizeColumns threads o k)
      (sizesAt o clock p (k + 1)) := by
  unfold measure
  rw [counts_sizesAt hk, ← next_sizesAt]
  apply goes_ctpmBarrier.bind
  apply (goes_threadFn k).bind
  exact goes_ctpmBarrier.map rfl

theorem goes_latencies (p : Fin (2 * threads)) :
    Goes (predicted clock) p 0 (latencies o p) (columns threads o)
      ((List.range numSizes).map (elapsed clock p)) := by
  have hloop := Goes.loop (Ω := predicted clock) (r := p) (e := 0) numSizes (sizesAt o clock p)
    (sizeColumns threads o) fun k hk _ => goes_measure hk
  exact hloop.bind (goes_ctpmBarrier.map rfl)

end Goes

theorem predicted_latencies : Predicted clock (predicted clock) (@latencies threads o) where
  coherent _ _ _ _ := rfl
  clocks _ _ := rfl

theorem staged_latencies (o : Options) (clock : Fin (2 * threads) → ℕ → ℕ) :
    Staged clock (predicted clock) (latencies o) (fun p => numbered p 0 (columns threads o))
      (epochAt (columns threads o)) :=
  staged_of_goes predicted_latencies goes_latencies
    fun p => ((alternates_columns threads o).inTurn p).closed

theorem columnOps_roundColumns (p : Fin (2 * threads)) (k i : ℕ) :
    columnOps p (roundColumns threads o k i) = clockOps (i = o.skip) (2 * k) p ++
      if rank p = 0 then call (peer p) (2 ^ k) else answer (peer p) (2 ^ k) := by
  have hcons : columnOps p (roundColumns threads o k i) =
      clockOps (i = o.skip) (2 * k) p ++ columnOps p ((pairing threads).volley Unit (2 ^ k)) :=
    List.flatMap_cons
  rw [hcons, Pairing.columnOps_volley]
  simp only [leads_iff]
  rfl

/-- `count` messages to a partner, each answered. -/
def calls (x : Fin (2 * threads)) (size count : ℕ) : List (Op (2 * threads) ℕ) :=
  (List.range count).flatMap fun _ => call x size

theorem traffic_calls (x : Fin (2 * threads)) (size count : ℕ) :
    sendsTo x (calls x size count) = List.replicate count size ∧
      recvsFrom x (calls x size count) = List.replicate count size := by
  unfold calls
  induction count with
  | zero => exact ⟨rfl, rfl⟩
  | succ count ih =>
    rw [List.range_succ, List.flatMap_append, List.flatMap_singleton, sendsTo_append,
      recvsFrom_append, ih.1, ih.2, List.replicate_succ']
    simp [call, sendsTo, recvsFrom]

/-- The rounds of a thread of rank 0: those skipped, the reading, and those measured. -/
theorem columnOps_rounds {p : Fin (2 * threads)} (hp : rank p = 0) (k : ℕ) :
    columnOps p ((List.range (o.loop + o.skip)).flatMap (roundColumns threads o k)) =
      calls (peer p) (2 ^ k) o.skip ++ .clock (2 * k) :: calls (peer p) (2 ^ k) o.loop := by
  have hround (i : ℕ) (hi : i ≠ o.skip) :
      columnOps p (roundColumns threads o k i) = call (peer p) (2 ^ k) := by
    rw [columnOps_roundColumns, if_pos hp]
    simp [clockOps, hi]
  have hfirst : columnOps p (roundColumns threads o k o.skip) =
      .clock (2 * k) :: call (peer p) (2 ^ k) := by
    rw [columnOps_roundColumns, if_pos hp]
    simp [clockOps, hp]
  obtain ⟨rest, hrest⟩ := Nat.exists_eq_add_of_lt o.loop_pos
  have hloop : o.loop = rest + 1 := by omega
  have hskipped : (List.range o.skip).flatMap (fun i => columnOps p (roundColumns threads o k i)) =
      calls (peer p) (2 ^ k) o.skip := by
    apply List.flatMap_congr
    intro i hi
    exact hround i (List.mem_range.mp hi).ne
  have hothers : (List.range rest).flatMap
      (fun i => columnOps p (roundColumns threads o k (o.skip + (i + 1)))) =
      calls (peer p) (2 ^ k) rest := by
    apply List.flatMap_congr
    intro i _
    exact hround _ (by omega)
  have hcalls : calls (peer p) (2 ^ k) o.loop =
      call (peer p) (2 ^ k) ++ calls (peer p) (2 ^ k) rest := by
    unfold calls
    rw [hloop, List.range_succ_eq_map, List.flatMap_cons, List.flatMap_map]
  rw [hcalls, ← hskipped, ← hothers, ← List.cons_append, ← hfirst, Nat.add_comm, List.range_add,
    hloop, List.range_succ_eq_map]
  simp [columnOps, List.flatMap_assoc, List.flatMap_map]

/-- For each size the operations of a thread of rank 0 between the two readings of its clock are
`loop` messages in each direction. -/
theorem measured (o : Options) {p : Fin (2 * threads)} (hp : rank p = 0) {k : ℕ}
    (hk : k < numSizes) : ∃ before after, columnOps p (columns threads o) =
      before ++ .clock (2 * k) :: (calls (peer p) (2 ^ k) o.loop ++ .clock (2 * k + 1) :: after) := by
  obtain ⟨before, after, hrange⟩ := List.append_of_mem (List.mem_range.mpr hk)
  have hend : columnOps p [clockColumn threads true (2 * k + 1)] = [.clock (2 * k + 1)] := by
    simp [columnOps, clockColumn, Column.quiet, clockOps, hp]
  refine ⟨columnOps p (before.flatMap (sizeColumns threads o)) ++ calls (peer p) (2 ^ k) o.skip,
    columnOps p (after.flatMap (sizeColumns threads o)), ?_⟩
  have hsync : columnOps p [(Column.sync fun _ => () : ThreadColumn threads)] = [] := rfl
  have hsize : columnOps p (sizeColumns threads o k) = calls (peer p) (2 ^ k) o.skip ++
      .clock (2 * k) :: (calls (peer p) (2 ^ k) o.loop ++ [.clock (2 * k + 1)]) := by
    rw [sizeColumns, columnOps_append, columnOps_append, columnOps_append, columnOps_rounds hp,
      hsync, hend, List.nil_append, List.append_nil, List.append_assoc, List.cons_append]
  rw [columns, hrange, List.flatMap_append, List.flatMap_cons, columnOps_append, columnOps_append,
    columnOps_append, hsync, hsize, List.append_nil]
  simp only [List.append_assoc, List.cons_append, List.nil_append]

abbrev PingpongState (clock : Fin (2 * threads) → ℕ → ℕ) :=
  State (machine ℕ Unit clock) (List ℕ)

abbrev PingpongReachable (o : Options) (clock : Fin (2 * threads) → ℕ → ℕ)
    (s : PingpongState clock) : Prop :=
  Reachable Mem.empty (latencies o) s

structure PingpongProtocol (o : Options) (clock : Fin (2 * threads) → ℕ → ℕ)
    (s : PingpongState clock) : Prop where
  turns : TakeTurns (pairing threads) s
  met : ∀ x y m eager ms q qs, s.mem.chan x y = (m, eager) :: ms → s.mem.posted x y = q :: qs →
    m = q
  returned : ∀ p ts, (s.proc p).code = .pure ts →
    s.mem = Mem.empty ∧ ts = (List.range numSizes).map (elapsed clock p)
  measured : ∀ p ts, (s.proc p).code = .pure ts → rank p = 0 → ∀ k < numSizes,
    ∃ before between after, opsOf (s.proc p).done =
      before ++ .clock (2 * k) :: (between ++ .clock (2 * k + 1) :: after) ∧
      sendsTo (peer p) between = List.replicate o.loop (2 ^ k) ∧
      recvsFrom (peer p) between = List.replicate o.loop (2 ^ k)
  completes : ∃ s', Relation.ReflTransGen Step s s' ∧ Halted s'

/-- The protocol of the latency test holds in every reachable state. -/
theorem latencies_pingpongProtocol (o : Options) (clock : Fin (2 * threads) → ℕ → ℕ)
    {s : PingpongState clock} (hs : PingpongReachable o clock s) : PingpongProtocol o clock s := by
  have hstaged := staged_latencies o clock
  have hsched := hstaged.scheduled
  have hclosed (p : Fin (2 * threads)) : Closed (columnOps p (columns threads o)) :=
    ((alternates_columns threads o).inTurn p).closed
  obtain ⟨s', hrun, hfinal⟩ := exists_final hsched.predicted hs
  have hhalted : Halted s' := (hsched.progress (hs.trans hrun)).resolve_right hfinal
  refine ⟨takeTurns_of_staged hstaged (alternates_columns threads o) hs,
    fun _ _ _ _ _ _ _ => hsched.head_eq hs, fun p ts hp => ?_, fun p ts hp hrank k hk => ?_,
    s', hrun, hhalted⟩
  · obtain ⟨hmem, hts, -⟩ := returned_of_goes hsched.predicted goes_latencies hclosed hs hp
    exact ⟨hmem, hts⟩
  · obtain ⟨-, -, hdone⟩ := returned_of_goes hsched.predicted goes_latencies hclosed hs hp
    obtain ⟨before, after, hops⟩ := measured o hrank hk
    obtain ⟨hsends, hrecvs⟩ := traffic_calls (peer p) (2 ^ k) o.loop
    exact ⟨before, _, after, (hdone p).trans hops, hsends, hrecvs⟩

/-- With one thread for each rank, a job that measures two rounds after one runs to an end. -/
theorem latencies_pingpongProtocol_oneThread :
    ∃ s : PingpongState fun _ : Fin (2 * 1) => fun k => 5 * k,
      PingpongReachable ⟨2, 1, by decide, by decide⟩ _ s ∧ Halted s ∧ s.mem = Mem.empty ∧
      ∀ p, (s.proc p).code = .pure (if p.val = 0 then List.replicate 14 5 else
        List.replicate 14 0) := by
  have hstart : PingpongReachable ⟨2, 1, by decide, by decide⟩
      (fun (_ : Fin (2 * 1)) k => 5 * k) (start Mem.empty (latencies _)) := .refl
  obtain ⟨s, hrun, hhalted⟩ := (latencies_pingpongProtocol _ _ hstart).completes
  have hreturned := (latencies_pingpongProtocol _ _ hrun).returned
  obtain ⟨ts, hts⟩ := hhalted 0
  refine ⟨s, hrun, hhalted, (hreturned 0 ts hts).1, fun p => ?_⟩
  obtain ⟨ts, hts⟩ := hhalted p
  rw [hts, (hreturned p ts hts).2]
  congr 1
  fin_cases p <;> decide

end CrayTests.PingpongTest
