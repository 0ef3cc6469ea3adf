import CrayTests.OneSidedBuffers

/-!
# The protocol of `rdm_one_sided`

In every state of every run, for all threads, options and behaviours of the provider: a thread has
at most a window of writes that it has not read from its queues and does everything else with none;
buffers are filled and given up only when everything posted at any endpoint is reported and read;
and if the provider reports a write when its bytes are placed, the bytes of a size are in the target
buffers, and no others, when the barrier after the size is left. Between the two times that a thread
reports it has written the bytes that it reports, and every run can be finished.
-/

namespace CrayTests.OneSidedTest

open CInteger RankProgram
open PingpongTest (rank peer peer_peer)

variable {threads : ℕ} {E : Setup threads} {o : Options} {p q : Fin (2 * threads)} {e k : ℕ}
variable {s : State (machine E) (List Result)} {sBuf rBuf : Fin (2 * threads) → Buffer}
variable {op : Op} {next : op.Resp → Thread threads (List Result)} {c : Counts}

/-- A queue holds no more than a window, the other one no more than a message, and one of them
nothing. -/
structure Due.Bounded (w : ℕ) (d : Due) : Prop where
  scq : d.scq ≤ w
  rcq : d.rcq ≤ 1
  either : d.scq = 0 ∨ d.rcq = 0

theorem Due.Bounded.step {w : ℕ} {d : Due} (h : d.Bounded w) (hw : 0 < w) (hop : d.Allows w op) :
    (d.step op).Bounded w := by
  cases op with
  | fiWrite size =>
    obtain ⟨hlt, hrcq, -⟩ := hop
    exact ⟨hlt, h.rcq, .inr hrcq⟩
  | fiSend =>
    obtain rfl : d = {} := hop
    exact ⟨hw, Nat.zero_le _, .inr rfl⟩
  | fiRecv =>
    obtain rfl : d = {} := hop
    exact ⟨Nat.zero_le _, le_rfl, .inl rfl⟩
  | readScq =>
    refine ⟨(Nat.sub_le _ _).trans h.scq, h.rcq, h.either.imp (fun hzero => ?_) id⟩
    simp [Due.step, hzero]
  | readRcq =>
    refine ⟨h.scq, (Nat.sub_le _ _).trans h.rcq, h.either.imp id fun hzero => ?_⟩
    simp [Due.step, hzero]
  | _ => exact ⟨h.scq, h.rcq, h.either⟩

theorem Due.Bounded.after {w : ℕ} {d : Due} {l : List Op} (h : d.Bounded w) (hw : 0 < w)
    (hl : Due.Legal w d l) : (d.after l).Bounded w := by
  induction l generalizing d with
  | nil => exact h
  | cons op l ih => exact ih (h.step hw hl.1) hl.2

theorem bounded_due (hs : Run E o sBuf rBuf s) (p : Fin (2 * threads)) :
    (due s p).Bounded o.windowSize :=
  Due.Bounded.after ⟨Nat.zero_le _, Nat.zero_le _, .inl rfl⟩ o.windowSize_pos
    ((orderly_bandwidths E o).legal hs p)

/-- Everything that the thread has posted is reported and read. -/
structure Endpoint.Settled (ep : Endpoint) : Prop where
  writing : ep.writing = 0
  sending : ep.sending = 0
  recvs : ep.recvs = 0
  scq : ep.scq = 0
  rcq : ep.rcq = 0

theorem settled_of_due (hs : Run E o sBuf rBuf s) (hscq : (due s p).scq = 0)
    (hrcq : (due s p).rcq = 0) : (s.mem.ep p).Settled := by
  obtain ⟨hscq', hrcq'⟩ := (orderly_bandwidths E o).due_eq hs p
  constructor <;> omega

/-- Only writes, and reads of the queues, are done while something is due. -/
theorem settled_of_op (hs : Run E o sBuf rBuf s) (hcode : (s.proc p).code = .op op next)
    (hwrite : op.isWrite = false) (hscq : op ≠ .readScq) (hrcq : op ≠ .readRcq) :
    (s.mem.ep p).Settled := by
  have hallows := (orderly_bandwidths E o).allows hs hcode
  have hdue : (due s p).scq = 0 ∧ (due s p).rcq = 0 := by
    cases op with
    | fiWrite size => cases hwrite
    | readScq => exact absurd rfl hscq
    | readRcq => exact absurd rfl hrcq
    | _ =>
      rw [show due s p = _ from hallows]
      exact ⟨rfl, rfl⟩
  exact settled_of_due hs hdue.1 hdue.2

/-- Between the sizes everything posted at any endpoint is reported and read. -/
theorem idle_of_even (hs : Run E o sBuf rBuf s) (hcode : (s.proc p).code = .op op next)
    (he : (s.proc p).epoch = 2 * k) (hk : k ≤ numSizes) (q : Fin (2 * threads)) :
    (s.mem.ep q).Idle := by
  have hsettled (q : Fin (2 * threads)) : (s.mem.ep q).Settled := by
    have hdue := due_of_even hs hcode he q
    exact settled_of_due hs (congrArg Due.scq hdue) (congrArg Due.rcq hdue)
  have hcount {x : Op} (hx : x = .fiSend ∨ x = .fiRecv) (q : Fin (2 * threads)) :
      (performed s q).count x = k := by
    obtain ⟨part, hat⟩ := together hs (sent_eq_epoch hs hcode) q
    rw [he] at hat
    rw [List.count, hat.countP_even, ← List.count, handshake_before hx hk]
    · rcases hx with rfl | rfl <;> exact fun _ => rfl
    · rcases hx with rfl | rfl <;> rfl
  have harrived := (accounts_of_reachable hs).arrived q
  have hsends := hcount (.inl rfl) (peer q)
  have hrecvs := hcount (.inr rfl) q
  rw [performed] at hsends hrecvs
  obtain ⟨hwriting, hsending, hrecv, hscq, hrcq⟩ := hsettled q
  exact ⟨hwriting, hsending, List.eq_nil_of_length_eq_zero (by omega), hrecv, hscq, hrcq⟩

/-- The rounds: `skip` windows, the first reading of the clock, and `loop` windows. -/
theorem writeOps_eq (hloop : 0 < c.loop) : writeOps c k =
    (List.range c.skip).flatMap (fun _ => windowOps c k) ++
      .getTimeUsec (2 * k) :: (List.range c.loop).flatMap fun _ => windowOps c k := by
  have hround {i : ℕ} (hi : i ≠ c.skip) : roundOps c k i = windowOps c k := by
    rw [roundOps, if_neg hi, List.nil_append]
  have hfirst : roundOps c k c.skip = .getTimeUsec (2 * k) :: windowOps c k := by
    rw [roundOps, if_pos rfl]
    rfl
  obtain ⟨loop, hl⟩ := Nat.exists_eq_succ_of_ne_zero hloop.ne'
  rw [writeOps, Nat.add_comm, List.range_add, List.flatMap_append, List.flatMap_map]
  congr 1
  · exact List.flatMap_congr fun i hi => hround (List.mem_range.mp hi).ne
  · rw [hl, List.range_succ_eq_map, List.flatMap_cons, List.flatMap_cons, List.flatMap_map,
      List.flatMap_map, Nat.add_zero, hfirst, List.cons_append]
    congr 2
    exact List.flatMap_congr fun i _ => hround (by omega)

theorem filter_windows (c : Counts) (k m : ℕ) :
    ((List.range m).flatMap fun _ => windowOps c k).filter Op.isWrite =
      List.replicate (m * c.windowSize) (.fiWrite (2 ^ k)) := by
  have hwindow : (windowOps c k).filter Op.isWrite =
      List.replicate c.windowSize (.fiWrite (2 ^ k)) := by
    simp [windowOps, Op.isWrite]
  induction m with
  | zero => simp
  | succ m ih =>
    rw [List.range_succ, List.flatMap_append, List.filter_append, ih, List.flatMap_singleton,
      hwindow, List.replicate_append_replicate, Nat.succ_mul]

/-- Between the two readings of its clock for a size, a thread of rank 0 posts the writes of `loop`
windows. -/
theorem measured (o : Options) (hp : rank p = 0) (hk : k < numSizes) :
    ∃ before between after, (plan o p).map Prod.snd =
      before ++ .getTimeUsec (2 * k) :: (between ++ .getTimeUsec (2 * k + 1) :: after) ∧
      between.filter Op.isWrite =
        List.replicate ((o.counts k).loop * o.windowSize) (.fiWrite (2 ^ k)) := by
  obtain ⟨before, after, hrange⟩ := List.append_of_mem
    (List.mem_range.mpr (by omega : 2 * k + 1 < 2 * numSizes + 1))
  have hplan : (plan o p).map Prod.snd = before.flatMap (stage o p) ++
      (threadOps (o.counts k) k p ++ after.flatMap (stage o p)) := by
    rw [plan, map_snd_flatMap, hrange, List.flatMap_append, List.flatMap_cons, stage_odd hk]
  have hthread : threadOps (o.counts k) k p = [.callTbarrier, .returnTbarrier] ++
      (writeOps (o.counts k) k ++ [.fiSend, .readScq, .fiRecv, .readRcq, .getTimeUsec (2 * k + 1)]
        ++ [.callTbarrier, .returnTbarrier]) := by
    rw [threadOps, transferOps, if_pos hp]
  refine ⟨before.flatMap (stage o p) ++ [.callTbarrier, .returnTbarrier] ++
      (List.range (o.counts k).skip).flatMap (fun _ => windowOps (o.counts k) k),
    (List.range (o.counts k).loop).flatMap (fun _ => windowOps (o.counts k) k) ++
      [.fiSend, .readScq, .fiRecv, .readRcq],
    [.callTbarrier, .returnTbarrier] ++ after.flatMap (stage o p), ?_, ?_⟩
  · rw [hplan, hthread, writeOps_eq (counts_loop_pos o k)]
    simp only [List.append_assoc, List.cons_append, List.nil_append]
  · rw [List.filter_append, filter_windows, counts_windowSize]
    exact List.append_nil _

/-- When the barrier behind the `k`-th size is left and nothing is touched again, the target buffer
of every pair holds the bytes of that size, the other one is as it was touched, and the rest of both
as it was in the beginning. -/
theorem delivered (hearly : E.early = false) (hs : Run E o sBuf rBuf s)
    (hcode : (s.proc p).code = .op op next) (he : (s.proc p).epoch = 2 * (k + 1)) (x : ℕ) :
    (s.mem.ep p).rBuf x =
      if x < 2 ^ k then if rank p = 0 then 'b' else 'a' else rBuf p x := by
  have hplaced := placed_of_reachable hearly hs
  obtain ⟨hk, hat⟩ : k + 1 ≤ numSizes ∧ At o s p (2 * (k + 1)) [] := by
    obtain ⟨part, hpart, hat⟩ := position_op hs hcode
    rw [he] at hpart hat
    rcases mem_stage (hpart.subset List.mem_concat_self) with
      ⟨k', hk', he', -⟩ | ⟨k', -, he', -⟩ | ⟨he', -⟩
    · obtain rfl : k + 1 = k' := by omega
      rw [stage_even hk'] at hpart
      exact ⟨hk'.le, eq_nil_of_isPrefix hpart ▸ hat⟩
    · omega
    · obtain hlast : k + 1 = numSizes := by omega
      rw [hlast, stage_last] at hpart
      exact ⟨hlast.le, eq_nil_of_isPrefix hpart ▸ hat⟩
  have htouches : (performed s p).countP Op.isTouch = k + 1 := by
    rw [hat.performed_eq, List.append_nil, touches_before hk]
  split_ifs with hx hp
  · exact hplaced.blank p hp (htouches ▸ Nat.succ_pos k) x (by rwa [htouches])
  · refine hplaced.target p (peer p) (peer_peer p).symm (htouches ▸ Nat.succ_pos k) ?_ x
      (by rwa [htouches])
    -- the peer has posted the writes of the size, and all are placed
    obtain ⟨part, hpeer⟩ := together hs (sent_eq_epoch hs hcode) (peer p)
    rw [he] at hpeer
    rw [htouches, Nat.add_sub_cancel, hpeer.countP_even (fun _ => rfl) rfl, writes_before_succ hk,
      if_pos (rank_peer.mpr hp), flying_eq_nil hearly hs (due_of_even hs hcode he (peer p))]
    refine Nat.add_lt_add_left (Nat.mul_pos ?_ o.windowSize_pos) _
    exact Nat.add_pos_left (counts_loop_pos o k) _
  · refine hplaced.rest p x fun _ => ?_
    rw [htouches]
    exact not_lt.mp hx

structure OneSidedProtocol (E : Setup threads) (o : Options)
    (rBuf : Fin (2 * threads) → Buffer) (s : State (machine E) (List Result)) : Prop where
  window : ∀ p, (s.mem.ep p).writing + (s.mem.ep p).sending + (s.mem.ep p).scq ≤ o.windowSize ∧
    (s.mem.ep p).recvs + (s.mem.ep p).rcq ≤ 1
  settled : ∀ p op next, (s.proc p).code = .op op next → op.isWrite = false → op ≠ .readScq →
    op ≠ .readRcq → (s.mem.ep p).Settled
  idle : ∀ p op next, (s.proc p).code = .op op next → (op.isTouch ∨ op = .fini) →
    ∀ q, (s.mem.ep q).Idle
  delivered : E.early = false → ∀ p op next, (s.proc p).code = .op op next →
    ∀ k, (s.proc p).epoch = 2 * (k + 1) → ∀ x, (s.mem.ep p).rBuf x =
      if x < 2 ^ k then if rank p = 0 then 'b' else 'a' else rBuf p x
  returned : ∀ p results, (s.proc p).code = .pure results →
    results = (List.range numSizes).map (resultOf E o p)
  measured : ∀ p results, (s.proc p).code = .pure results → rank p = 0 → ∀ k < numSizes,
    ∃ before between after, performed s p =
      before ++ .getTimeUsec (2 * k) :: (between ++ .getTimeUsec (2 * k + 1) :: after) ∧
      between.filter Op.isWrite =
        List.replicate ((o.counts k).loop * o.windowSize) (.fiWrite (2 ^ k))
  completes : ∃ s', Relation.ReflTransGen Step s s' ∧ Halted s'

/-- The protocol of the bandwidth test holds in every reachable state. -/
theorem bandwidths_oneSidedProtocol (hs : Run E o sBuf rBuf s) :
    OneSidedProtocol E o rBuf s := by
  have horderly := orderly_bandwidths E o
  refine ⟨fun p => ?_, fun p op next => settled_of_op hs, fun p op next hcode hop => ?_,
    fun hearly p op next hcode k he => delivered hearly hs hcode he, fun p results hcode => ?_,
    fun p results hcode hrank k hk => ?_, horderly.exists_halted hs⟩
  · obtain ⟨hscq, hrcq⟩ := horderly.due_eq hs p
    obtain ⟨hwindow, hone, -⟩ := bounded_due hs p
    omega
  · cases op with
    | touch size =>
      obtain ⟨k, hk, he, -⟩ := at_touch hs hcode
      exact idle_of_even hs hcode he hk.le
    | fini => exact idle_of_even hs hcode (at_fini hs hcode).1 le_rfl
    | _ => simp [Op.isTouch] at hop
  · have houtcome := (horderly.follows hs).outcome p
    rw [hcode, result_pure, (conforms_bandwidths E o p).result_eq] at houtcome
    exact houtcome
  · have hops := horderly.opsOf_append hs p
    rw [hcode] at hops
    obtain ⟨before, between, after, hplan, hfilter⟩ := measured o hrank hk
    refine ⟨before, between, after, ?_, hfilter⟩
    rw [performed, ← hplan, ← hops]
    exact congrArg _ (List.append_nil _).symm

/-- With one thread for each rank, windows of three writes, and two rounds after a first one (one
for large messages), the threads report that many bytes. -/
theorem bandwidths_oneSidedProtocol_oneThread :
    ∃ s : State (machine (⟨false, false, fun _ k => 5 * k⟩ : Setup 1)) (List Result),
      Run _ ⟨2, 1, 3, 1, 1, by decide, by decide, by decide⟩ (fun _ _ => 'x') (fun _ _ => 'y') s ∧
        Halted s ∧ ∀ p, (s.proc p).code = .pure ((List.range 23).map fun k =>
          if p.val = 0 then ⟨10 * k, 10 * k + 5, (if k < 14 then 6 else 3) * 2 ^ k⟩
          else ⟨0, 0, 0⟩) := by
  let o : Options := ⟨2, 1, 3, 1, 1, by decide, by decide, by decide⟩
  let E : Setup 1 := ⟨false, false, fun _ k => 5 * k⟩
  have hstart : Run E o (fun _ _ => 'x') (fun _ _ => 'y') (start (Mem.init _ _) (bandwidths o)) :=
    .refl
  obtain ⟨s, hrun, hhalted⟩ := (bandwidths_oneSidedProtocol hstart).completes
  refine ⟨s, hrun, hhalted, fun p => ?_⟩
  obtain ⟨results, hresults⟩ := hhalted p
  rw [hresults, (bandwidths_oneSidedProtocol (hstart.trans hrun)).returned p results hresults]
  congr 1
  fin_cases p <;> decide

end CrayTests.OneSidedTest
