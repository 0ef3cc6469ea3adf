import CrayTests.BandwidthTest
import CrayTests.MessagingStages

/-!
# The stages of the bandwidth test

A round has six stages: the barrier before the first measured round, the reading of the clock
there, the posting of a window, its completions, the fin and its completion. A rank outside every
pair has the same stages without operations.
-/

namespace CrayTests.BandwidthTest

open CInteger RankProgram Messaging

variable {numprocs : ℕ} (a : Args numprocs)

abbrev Operation (numprocs : ℕ) := Op numprocs Message

abbrev RoundStage (numprocs : ℕ) := Stage numprocs Message Collective

/-- The messages of a window, as the sender and as the receiver of a pair posts them. -/
def sendWindow : List Message :=
  (List.range a.windowSize).flatMap fun _ =>
    match a.type with
    | .sendRecv => (List.range a.iovCnt).flatMap fun c => [⟨.data, a.sIov c⟩]
    | .sendvRecvv => [⟨.data, iovLen a.sIov a.iovCnt⟩]
    | .sendvRecv => [⟨.data, iovLen a.sIov a.iovCnt⟩]
    | .sendRecvv => [⟨.data, a.sBufLen⟩]

def recvWindow : List Message :=
  (List.range a.windowSize).flatMap fun _ =>
    match a.type with
    | .sendRecv => (List.range a.iovCnt).flatMap fun c => [⟨.data, a.rIov c⟩]
    | .sendvRecvv => [⟨.data, iovLen a.rIov a.iovCnt⟩]
    | .sendRecvv => [⟨.data, iovLen a.rIov a.iovCnt⟩]
    | .sendvRecv => [⟨.data, a.rBufLen⟩]

def finMessage : Message := ⟨.fin, 4⟩

def TestType.isCntr : TestType → Bool
  | .cqTest => false
  | .cntrTest => true

def TestType.wanted : TestType → ℤ → ℕ
  | .cqTest, k => k.toNat
  | .cntrTest, k => uint64 k

def awaits (testType : TestType) (q : Queue) (k : ℤ) : List (Operation numprocs) :=
  consume testType.isCntr q (testType.wanted k)

/-- The operations of a rank in a round, with those at the start and the end of the time. -/
structure Script (numprocs : ℕ) where
  timer : List (Operation numprocs)
  posts : List (Operation numprocs)
  waits : List (Operation numprocs)
  reply : List (Operation numprocs)
  replyWaits : List (Operation numprocs)
  finish : List (Operation numprocs)

def senderScript (target : Fin numprocs) : Script numprocs where
  timer := [.clock 0]
  posts := (sendWindow a).map (.send target)
  waits := awaits a.testType .send a.windowCompletions
  reply := [.recv target finMessage]
  replyWaits := awaits a.testType .recv 1
  finish := [.clock 1]

def receiverScript (target : Fin numprocs) : Script numprocs where
  timer := []
  posts := (recvWindow a).map (.recv target)
  waits := awaits a.testType .recv a.windowCompletions
  reply := [.send target finMessage]
  replyWaits := awaits a.testType .send 1
  finish := []

def idleScript : Script numprocs := ⟨[], [], [], [], [], []⟩

def script (rank : Fin numprocs) : Script numprocs :=
  if hs : rank.val < a.numPairs then
    senderScript a ⟨rank + a.numPairs, a.receiver_lt rank hs⟩
  else if rank.val < a.numPairs * 2 then
    receiverScript a ⟨rank - a.numPairs, a.sender_lt rank⟩
  else idleScript

def roundStages (S : Script numprocs) (i : ℕ) : List (ℕ × RoundStage numprocs) :=
  [(6 * i + 1, if i = a.skip then .sync .barrier else .ops []),
    (6 * i + 2, .ops (if i = a.skip then S.timer else [])),
    (6 * i + 3, .ops S.posts),
    (6 * i + 4, .ops S.waits),
    (6 * i + 5, .ops S.reply),
    (6 * i + 6, .ops S.replyWaits)]

def Args.rounds : ℕ := a.loop + a.skip

def exchangeStages (S : Script numprocs) : List (ℕ × RoundStage numprocs) :=
  (List.range a.rounds).flatMap (roundStages a S) ++ [(6 * a.rounds + 1, .ops S.finish)]

theorem Args.skip_lt_rounds : a.skip < a.rounds := by
  have hmult : 0 < a.mult := by
    unfold Args.mult
    split_ifs with h
    · exact h
    · exact Nat.one_pos
  have hloop : 0 < a.loop := by
    unfold Args.loop
    split_ifs
    · exact Nat.mul_pos (by decide) hmult
    · exact Nat.mul_pos (by decide) hmult
  unfold Args.rounds
  omega

def elapsed (clock : Fin numprocs → ℕ → ℕ) (rank : Fin numprocs) : ℕ :=
  if rank.val < a.numPairs then uint64 ((clock rank 1 : ℤ) - clock rank 0) else 0

def stages (clock : Fin numprocs → ℕ → ℕ) (rank : Fin numprocs) :
    List (ℕ × RoundStage numprocs) :=
  (0, .sync .barrier) :: (exchangeStages a (script a rank) ++
    [(6 * a.rounds + 2, .sync (.allgather (elapsed a clock rank)))])

def epoch (t : ℕ) : ℕ := if t = 0 then 0 else if t ≤ 6 * a.skip + 1 then 1 else 2

def predicted (clock : Fin numprocs → ℕ → ℕ) :
    Oracle (interface numprocs Message Collective) numprocs where
  resp r
    | .send _ _ => ()
    | .recv _ _ => ()
    | .take _ => ()
    | .await _ _ => ()
    | .reset _ => ()
    | .clock k => clock r k
  gathered e r := if e < 2 then .barrier else .allgather (elapsed a clock r)

section Performs

variable {a} {Ω : Oracle (interface numprocs Message Collective) numprocs} {r target : Fin numprocs}
  {e : ℕ}

theorem performs_fiSend (len : ℕ) (kind : Kind) :
    Performs Ω r e (fiSend len kind target) [.send target ⟨kind, len⟩] () := .op _ (.pure _)

theorem performs_fiRecv (len : ℕ) (kind : Kind) :
    Performs Ω r e (fiRecv len kind target) [.recv target ⟨kind, len⟩] () := .op _ (.pure _)

theorem performs_postSends :
    Performs Ω r e (postSends a target) ((sendWindow a).map (.send target)) () := by
  unfold postSends sendWindow
  rw [List.map_flatMap]
  apply Performs.loop
  intro _
  cases a.type with
  | sendRecv =>
    simp only [List.map_flatMap]
    apply Performs.loop
    intro c
    rw [Nat.zero_add]
    exact performs_fiSend _ _
  | sendvRecvv => exact performs_fiSend _ _
  | sendRecvv => exact performs_fiSend _ _
  | sendvRecv => exact performs_fiSend _ _

theorem performs_postRecvs :
    Performs Ω r e (postRecvs a target) ((recvWindow a).map (.recv target)) () := by
  unfold postRecvs recvWindow
  rw [List.map_flatMap]
  apply Performs.loop
  intro _
  cases a.type with
  | sendRecv =>
    simp only [List.map_flatMap]
    apply Performs.loop
    intro c
    rw [Nat.zero_add]
    exact performs_fiRecv _ _
  | sendvRecvv => exact performs_fiRecv _ _
  | sendRecvv => exact performs_fiRecv _ _
  | sendvRecv => exact performs_fiRecv _ _

theorem performs_waitAndReset (testType : TestType) (q : Queue) (k : ℤ) :
    Performs Ω r e (waitAndReset testType q k) (awaits testType q k) () := by
  cases testType with
  | cqTest =>
    have htakes : Performs Ω r e (waitForComp .cqTest q k)
        ((List.range k.toNat).flatMap fun _ => [.take q]) () :=
      Performs.loop _ _ fun _ => .op _ (.pure _)
    have hboth := htakes.bind (f := fun _ => resetCntr .cqTest q) (Performs.pure ())
    apply hboth.congr
    simp [awaits, consume, TestType.isCntr, TestType.wanted, List.eq_replicate_iff]
  | cntrTest => exact (Performs.op _ (.pure _)).bind (.op _ (.pure _))

theorem performs_startTimer (i tStart : ℕ) :
    Performs Ω r e (startTimer a i tStart) (if i = a.skip then [.clock 0] else [])
      (if i = a.skip then Ω.resp r (.clock 0) else tStart) := by
  unfold startTimer
  split_ifs
  · exact .op _ (.pure _)
  · exact .pure _

theorem epoch_barrier (i : ℕ) : epoch a (6 * i + 1) = if i ≤ a.skip then 1 else 2 := by
  unfold epoch
  split_ifs <;> omega

theorem epoch_round (i k : ℕ) (hlo : 2 ≤ k) (hhi : k ≤ 6) :
    epoch a (6 * i + k) = if i + 1 ≤ a.skip then 1 else 2 := by
  unfold epoch
  split_ifs <;> omega

theorem runs_skipBarrier (i : ℕ) :
    Runs Ω r (if i ≤ a.skip then 1 else 2) (skipBarrier a i)
      (((if i = a.skip then .sync .barrier else .ops [] : RoundStage numprocs).events Ω r).map
        (Prod.mk (if i ≤ a.skip then 1 else 2))) () (if i + 1 ≤ a.skip then 1 else 2) := by
  unfold skipBarrier
  by_cases h : i = a.skip
  · subst h
    simp only [if_true, le_refl, Nat.not_succ_le_self, if_false]
    exact Runs.sync (I := interface numprocs Message Collective) .barrier (.pure ())
  · have hsame : (if i ≤ a.skip then 1 else 2) = if i + 1 ≤ a.skip then 1 else 2 := by
      split_ifs <;> omega
    simp only [h, if_false, hsame]
    exact Runs.pure ()

theorem flatten_roundStages (S : Script numprocs) (i : ℕ) :
    flatten (epoch a) Ω r (roundStages a S i) =
      ((if i = a.skip then .sync .barrier else .ops [] : RoundStage numprocs).events Ω r).map
        (Prod.mk (if i ≤ a.skip then 1 else 2)) ++
      ((Stage.ops ((if i = a.skip then S.timer else []) ++ (S.posts ++ (S.waits ++ (S.reply ++
        S.replyWaits)))) : RoundStage numprocs).events Ω r).map
        (Prod.mk (if i + 1 ≤ a.skip then 1 else 2)) := by
  simp only [flatten, roundStages, List.flatMap_cons, List.flatMap_nil, epoch_barrier,
    epoch_round i _ (by omega : 2 ≤ 2) (by omega), epoch_round i _ (by omega : 2 ≤ 3) (by omega),
    epoch_round i _ (by omega : 2 ≤ 4) (by omega), epoch_round i _ (by omega : 2 ≤ 5) (by omega),
    epoch_round i _ (by omega : 2 ≤ 6) (by omega), map_ops_append, List.map_append,
    List.append_nil]

theorem runs_senderRound (i tStart : ℕ) :
    Runs Ω r (if i ≤ a.skip then 1 else 2) (senderRound a target i tStart)
      (flatten (epoch a) Ω r (roundStages a (senderScript a target) i))
      (if i = a.skip then Ω.resp r (.clock 0) else tStart) (if i + 1 ≤ a.skip then 1 else 2) := by
  rw [flatten_roundStages]
  apply (runs_skipBarrier i).bind
  apply (performs_startTimer i tStart).bind
  apply performs_postSends.bind
  apply (performs_waitAndReset _ _ _).bind
  apply (performs_fiRecv 4 .fin).bind
  apply Performs.congr (List.append_nil _)
  apply (performs_waitAndReset _ _ _).bind
  exact Performs.pure _

theorem runs_receiverRound (i : ℕ) :
    Runs Ω r (if i ≤ a.skip then 1 else 2) (receiverRound a target i)
      (flatten (epoch a) Ω r (roundStages a (receiverScript a target) i))
      () (if i + 1 ≤ a.skip then 1 else 2) := by
  rw [flatten_roundStages, receiverScript, ite_self, List.nil_append]
  apply (runs_skipBarrier i).bind
  apply performs_postRecvs.bind
  apply (performs_waitAndReset _ _ _).bind
  apply (performs_fiSend 4 .fin).bind
  exact performs_waitAndReset _ _ _

theorem flatten_exchangeStages (S : Script numprocs) :
    flatten (epoch a) Ω r (exchangeStages a S) =
      (List.range a.rounds).flatMap (fun i => flatten (epoch a) Ω r (roundStages a S i)) ++
        ((Stage.ops S.finish : RoundStage numprocs).events Ω r).map (Prod.mk 2) := by
  have hloop : epoch a (6 * a.rounds + 1) = 2 := by
    rw [epoch_barrier, if_neg (by have := a.skip_lt_rounds; omega)]
  simp [exchangeStages, flatten, List.flatMap_append, List.flatMap_assoc, hloop]

def startedAt (a : Args numprocs) (reading k : ℕ) : ℕ := if k ≤ a.skip then 0 else reading

theorem startedAt_succ (reading k : ℕ) :
    (if k = a.skip then reading else startedAt a reading k) = startedAt a reading (k + 1) := by
  unfold startedAt
  split_ifs <;> omega

theorem runs_sender :
    Runs Ω r 1 (sender a target) (flatten (epoch a) Ω r (exchangeStages a (senderScript a target)))
      (uint64 ((Ω.resp r (.clock 1) : ℕ) - (Ω.resp r (.clock 0) : ℕ))) 2 := by
  have hlast := a.skip_lt_rounds
  have hloop := Runs.loopEpochs (Ω := Ω) (r := r) (senderRound a target) (i := 0) a.rounds
    (startedAt a (Ω.resp r (.clock 0))) (fun k => if k ≤ a.skip then 1 else 2)
    (fun i => flatten (epoch a) Ω r (roundStages a (senderScript a target) i)) (fun k _ => by
      rw [Nat.zero_add, ← startedAt_succ]
      exact runs_senderRound k _)
  simp only [Nat.zero_le, if_true, not_le.mpr hlast, if_false] at hloop
  rw [flatten_exchangeStages]
  apply hloop.bind
  rw [startedAt, if_neg (not_le.mpr hlast)]
  exact Performs.op _ (.pure _)

theorem runs_receiver :
    Runs Ω r 1 (receiver a target)
      (flatten (epoch a) Ω r (exchangeStages a (receiverScript a target))) 0 2 := by
  have hlast := a.skip_lt_rounds
  have hloop := Runs.loopEpochs (Ω := Ω) (r := r) (fun i _ => receiverRound a target i) (i := 0)
    a.rounds (fun _ => ()) (fun k => if k ≤ a.skip then 1 else 2)
    (fun i => flatten (epoch a) Ω r (roundStages a (receiverScript a target) i)) (fun k _ => by
      rw [Nat.zero_add]
      exact runs_receiverRound k)
  simp only [Nat.zero_le, if_true, not_le.mpr hlast, if_false] at hloop
  rw [flatten_exchangeStages]
  exact hloop.bind (Performs.pure 0)

theorem flatMap_range_eq {β : Type*} (f : ℕ → List β) {count k : ℕ} (hk : k < count)
    (hf : ∀ i < count, i ≠ k → f i = []) : (List.range count).flatMap f = f k := by
  induction count with
  | zero => omega
  | succ count ih =>
    rw [List.range_succ, List.flatMap_append, List.flatMap_singleton]
    by_cases h : k = count
    · subst h
      have hnil : (List.range k).flatMap f = [] := by
        apply List.flatMap_eq_nil_iff.mpr
        intro i hi
        have hlt := List.mem_range.mp hi
        exact hf i (by omega) (by omega)
      rw [hnil, List.nil_append]
    · rw [ih (by omega) fun i hi => hf i (by omega), hf count (by omega) (Ne.symm h),
        List.append_nil]

theorem runs_idle :
    Runs Ω r 1 idle (flatten (epoch a) Ω r (exchangeStages a idleScript)) 0 2 := by
  have hround (i : ℕ) : flatten (epoch a) Ω r (roundStages a idleScript i) =
      if i = a.skip then [(1, .sync .barrier)] else [] := by
    rw [flatten_roundStages]
    by_cases h : i = a.skip
    · simp [h, idleScript, Stage.events]
    · simp [h, idleScript, Stage.events]
  have hevents : flatten (epoch a) Ω r (exchangeStages a idleScript) = [(1, .sync .barrier)] := by
    rw [flatten_exchangeStages, flatMap_range_eq _ a.skip_lt_rounds]
    · rw [hround, if_pos rfl]
      rfl
    · intro i _ hi
      rw [hround, if_neg hi]
  rw [hevents]
  exact Runs.sync (I := interface numprocs Message Collective) .barrier (.pure 0)

end Performs

variable {a} {clock : Fin numprocs → ℕ → ℕ}

theorem runs_exchange (r : Fin numprocs) :
    Runs (predicted a clock) r 1 (exchange a r)
      (flatten (epoch a) (predicted a clock) r (exchangeStages a (script a r)))
      (elapsed a clock r) 2 := by
  unfold exchange script elapsed
  split_ifs with hs hr
  · exact runs_sender
  · exact runs_receiver
  · exact runs_idle

def outcome (a : Args numprocs) (clock : Fin numprocs → ℕ → ℕ) (rank : Fin numprocs) : ℕ :=
  maxTime rank (elapsed a clock)

theorem runs_calcBw (r : Fin numprocs) :
    Runs (predicted a clock) r 0 (calcBw a r)
      (flatten (epoch a) (predicted a clock) r (stages a clock r)) (outcome a clock r) 3 := by
  have hlast : epoch a (6 * a.rounds + 2) = 2 := by
    have := a.skip_lt_rounds
    unfold epoch
    split_ifs <;> omega
  have hbarrier : Runs (predicted a clock) r 0 ctpmBarrier [(0, .sync .barrier)] () 1 :=
    Runs.sync (I := interface numprocs Message Collective) .barrier (.pure ())
  have hgather : Runs (predicted a clock) r 2
      ((ctpmAllgather (elapsed a clock r)).bind fun ts => .pure (maxTime r ts))
      [(2, .sync (.allgather (elapsed a clock r)))] (outcome a clock r) 3 :=
    Runs.sync (I := interface numprocs Message Collective) _ (.pure _)
  have hall := hbarrier.bind (f := fun _ => (exchange a r).bind fun t =>
    (ctpmAllgather t).bind fun ts => .pure (maxTime r ts)) ((runs_exchange r).bind hgather)
  apply hall.congr
  have hfirst : epoch a 0 = 0 := rfl
  simp [stages, flatten, hfirst, hlast, Stage.events]

end CrayTests.BandwidthTest
