import CrayTests.BandwidthSchedule

/-!
# The window protocol of the bandwidth test

What `calc_bw` keeps in every reachable state: a sender has at most one window of data messages
that no fin has acknowledged, a message and the receive that it meets are equal, every completion
is counted once, nothing is left when a rank returns, and no state is stuck.
-/

namespace CrayTests.BandwidthTest

open CInteger RankProgram Messaging

variable {numprocs : ℕ} {a : Args numprocs} {size : ℕ} {clock : Fin numprocs → ℕ → ℕ}

abbrev BandwidthState (clock : Fin numprocs → ℕ → ℕ) :=
  State (machine Message Collective clock) ℕ

abbrev BandwidthReachable (a : Args numprocs) (clock : Fin numprocs → ℕ → ℕ)
    (s : BandwidthState clock) : Prop :=
  Reachable Mem.empty (calcBw a) s

def opsDone (s : BandwidthState clock) (r : Fin numprocs) : List (Operation numprocs) :=
  opsOf (s.proc r).done

def sent (s : BandwidthState clock) (kind : Kind) (x y : Fin numprocs) : ℕ :=
  (sendsTo y (opsDone s x)).countP fun m => m.kind = kind

/-- Those of them that have met a receive. -/
def delivered (s : BandwidthState clock) (kind : Kind) (x y : Fin numprocs) : ℕ :=
  sent s kind x y - (s.mem.chan x y).countP fun m => m.1.kind = kind

def calls (a : Args numprocs) (clock : Fin numprocs → ℕ → ℕ) (r : Fin numprocs) :
    List Collective :=
  [.barrier, .barrier, .allgather (elapsed a clock r)]

structure WindowProtocol (a : Args numprocs) (s : BandwidthState clock) : Prop where
  window : ∀ x y : Fin numprocs, x.val < a.numPairs → y.val = x + a.numPairs →
    sent s .data x y ≤ a.perWindow * delivered s .fin y x + a.perWindow
  acknowledged : ∀ x y : Fin numprocs, x.val < a.numPairs → y.val = x + a.numPairs →
    a.perWindow * sent s .fin y x ≤ delivered s .data x y
  met : ∀ x y m eager ms p ps, s.mem.chan x y = (m, eager) :: ms → s.mem.posted x y = p :: ps →
    m = p
  counted : ∀ r q, posts q (opsDone s r) =
    Acct.start.counted q (opsDone s r) + s.mem.due r q
  reset : ∀ r q next, (s.proc r).code = .op (.reset q) next →
    (Acct.start.after (opsDone s r)).awaited q = some (s.mem.ready r q)
  collective : ∀ r, (s.proc r).sent <+: calls a clock r
  returned : ∀ r t, (s.proc r).code = .pure t →
    s.mem = Mem.empty ∧ (s.proc r).sent = calls a clock r
  progress : Halted s ∨ ∃ s', Step s s'
  completes : ∃ s', Relation.ReflTransGen Step s s' ∧ Halted s'

theorem posts_map_send (q : Queue) (target : Fin numprocs) (ms : List Message) :
    posts q (ms.map (.send target)) = if q = .send then ms.length else 0 := by
  unfold posts
  rw [List.countP_map]
  cases q <;> simp [Function.comp_def, Op.postsOn]

theorem posts_map_recv (q : Queue) (target : Fin numprocs) (ms : List Message) :
    posts q (ms.map (.recv target)) = if q = .recv then ms.length else 0 := by
  unfold posts
  rw [List.countP_map]
  cases q <;> simp [Function.comp_def, Op.postsOn]

theorem posts_front {S : Script numprocs} (hS : S.Quiet) (q : Queue) (i : ℕ) :
    posts q ((if i = a.skip then S.timer else []) ++ (S.posts ++ S.waits)) = posts q S.posts := by
  rw [posts_append, posts_append, posts_eq_zero (postsOn_timer hS i), posts_eq_zero hS.waits,
    Nat.zero_add, Nat.add_zero]

theorem posts_back {S : Script numprocs} (hS : S.Quiet) (q : Queue) :
    posts q (S.reply ++ S.replyWaits) = posts q S.reply := by
  rw [posts_append, posts_eq_zero hS.replyWaits, Nat.add_zero]

theorem posts_roundOps {S : Script numprocs} (hS : S.Quiet) (q : Queue) (i : ℕ) :
    posts q (roundOps a S i) = posts q S.posts + posts q S.reply := by
  rw [roundOps, posts_append, posts_front hS, posts_back hS]

theorem mem_stageOps (hfit : a.Fits) {r : Fin numprocs} {o : Operation numprocs}
    (ho : o ∈ stageOps (stages a clock r)) (hpost : o.postsOn ≠ none) :
    o ∈ (script a r).posts ∨ o ∈ (script a r).reply := by
  have hS := sound_script hfit r
  rw [stageOps_stages] at ho
  rcases List.mem_append.mp ho with ho | ho
  · obtain ⟨i, -, ho⟩ := List.mem_flatMap.mp ho
    simp only [roundOps, List.mem_append] at ho
    rcases ho with (ho | ho | ho) | ho | ho
    · exact absurd (postsOn_timer hS.toQuiet i o ho) hpost
    · exact .inl ho
    · exact absurd (hS.waits o ho) hpost
    · exact .inr ho
    · exact absurd (hS.replyWaits o ho) hpost
  · exact absurd (postsOn_finish hS.toQuiet o ho) hpost

section Sender

variable {r target : Fin numprocs} (hscript : script a r = senderScript a target)
include hscript

theorem onlyWith_sender (hfit : a.Fits) : OnlyWith target (stageOps (stages a clock r)) := by
  intro o ho
  constructor
  · rintro b m rfl
    have := mem_stageOps hfit ho (by simp [Op.postsOn])
    simp only [hscript, senderScript, List.mem_map, List.mem_singleton, Op.send.injEq,
      reduceCtorEq, or_false] at this
    obtain ⟨_, -, rfl, -⟩ := this
    rfl
  · rintro b m rfl
    have := mem_stageOps hfit ho (by simp [Op.postsOn])
    simp only [hscript, senderScript, List.mem_map, List.mem_singleton, Op.recv.injEq,
      reduceCtorEq, and_false, exists_false, false_or] at this
    exact this.1

theorem kind_sender (hfit : a.Fits) {b : Fin numprocs} {m : Message}
    (hm : m ∈ sendsTo b (stageOps (stages a clock r))) : m.kind = .data := by
  have := mem_stageOps hfit (mem_sendsTo.mp hm) (by simp [Op.postsOn])
  simp only [hscript, senderScript, List.mem_map, List.mem_singleton, Op.send.injEq,
    reduceCtorEq, or_false] at this
  obtain ⟨_, hmem, -, rfl⟩ := this
  exact kind_of_mem_sendWindow hmem

theorem posts_sender (i : ℕ) :
    posts .send (roundOps a (script a r) i) = a.perWindow ∧
      posts .recv (roundOps a (script a r) i) = 1 := by
  have hS := quiet_senderScript (a := a) target
  have hreply (q : Queue) : posts q (senderScript a target).reply = if q = .recv then 1 else 0 :=
    posts_map_recv q target [finMessage]
  have hposts (q : Queue) : posts q (senderScript a target).posts =
      if q = .send then a.perWindow else 0 := by
    rw [← length_sendWindow]
    exact posts_map_send q target _
  rw [hscript, posts_roundOps hS, posts_roundOps hS, hreply, hreply, hposts, hposts]
  exact ⟨rfl, rfl⟩

/-- A sender has counted a fin for every window but the last. -/
theorem sender_counts (hfit : a.Fits) {ops : List (Operation numprocs)}
    (hops : ops <+: stageOps (stages a clock r)) :
    posts .send ops ≤ a.perWindow * Acct.start.counted .recv ops + a.perWindow := by
  have hS := sound_script hfit r
  rw [stageOps_stages] at hops
  obtain ⟨i, part, rfl, hpart⟩ := prefix_rounds hops
  have hlast : posts .send part ≤ a.perWindow := by
    rcases hpart with hpart | hpart
    · exact (posts_le_of_isPrefix hpart).trans (posts_sender hscript i).1.le
    · refine (posts_le_of_isPrefix hpart).trans ?_
      rw [posts_eq_zero (postsOn_finish hS.toQuiet)]
      exact Nat.zero_le _
  have hcounted : i ≤ Acct.start.counted .recv
      ((List.range i).flatMap (roundOps a (script a r)) ++ part) := by
    have hclosed : Closed ((List.range i).flatMap (roundOps a (script a r))) :=
      Closed.flatMap fun j _ => closed_roundOps hS j
    have hle := hclosed.posts_le_counted .recv part
    rwa [posts_flatMap_range fun j => (posts_sender hscript j).2, Nat.mul_one] at hle
  rw [posts_append, posts_flatMap_range fun j => (posts_sender hscript j).1]
  have := Nat.mul_le_mul_left a.perWindow hcounted
  rw [Nat.mul_comm i]
  omega

end Sender

section Receiver

variable {r target : Fin numprocs} (hscript : script a r = receiverScript a target)
include hscript

theorem onlyWith_receiver (hfit : a.Fits) : OnlyWith target (stageOps (stages a clock r)) := by
  intro o ho
  constructor
  · rintro b m rfl
    have := mem_stageOps hfit ho (by simp [Op.postsOn])
    simp only [hscript, receiverScript, List.mem_map, List.mem_singleton, Op.send.injEq,
      reduceCtorEq, and_false, exists_false, false_or] at this
    exact this.1
  · rintro b m rfl
    have := mem_stageOps hfit ho (by simp [Op.postsOn])
    simp only [hscript, receiverScript, List.mem_map, List.mem_singleton, Op.recv.injEq,
      reduceCtorEq, or_false] at this
    obtain ⟨_, -, rfl, -⟩ := this
    rfl

theorem kind_receiver (hfit : a.Fits) {b : Fin numprocs} {m : Message}
    (hm : m ∈ sendsTo b (stageOps (stages a clock r))) : m.kind = .fin := by
  have := mem_stageOps hfit (mem_sendsTo.mp hm) (by simp [Op.postsOn])
  simp only [hscript, receiverScript, List.mem_map, List.mem_singleton, Op.send.injEq,
    reduceCtorEq, and_false, exists_false, false_or] at this
  rw [this.2]
  rfl

theorem posts_receiver (q : Queue) :
    posts q (script a r).posts = (if q = .recv then a.perWindow else 0) ∧
      posts q (script a r).reply = if q = .send then 1 else 0 := by
  rw [hscript, ← length_recvWindow]
  exact ⟨posts_map_recv q target _, posts_map_send q target [finMessage]⟩

/-- A receiver has counted a whole window before each fin. -/
theorem receiver_counts (hfit : a.Fits) {ops : List (Operation numprocs)}
    (hops : ops <+: stageOps (stages a clock r)) :
    a.perWindow * posts .send ops ≤ Acct.start.counted .recv ops := by
  have hS := sound_script hfit r
  have hp (q : Queue) := posts_receiver hscript q
  have hround (i : ℕ) : posts .send (roundOps a (script a r) i) = 1 ∧
      posts .recv (roundOps a (script a r) i) = a.perWindow := by
    rw [posts_roundOps hS.toQuiet, posts_roundOps hS.toQuiet, (hp .send).1, (hp .send).2,
      (hp .recv).1, (hp .recv).2]
    exact ⟨rfl, rfl⟩
  rw [stageOps_stages] at hops
  obtain ⟨i, part, rfl, hpart⟩ := prefix_rounds hops
  have hclosed : Closed ((List.range i).flatMap (roundOps a (script a r))) :=
    Closed.flatMap fun j _ => closed_roundOps hS j
  -- the fins of the finished rounds, and as many counted windows
  have hfins : posts .send ((List.range i).flatMap (roundOps a (script a r))) = i := by
    rw [posts_flatMap_range fun j => (hround j).1, Nat.mul_one]
  have hwindows := posts_flatMap_range (fun j => (hround j).2) i
  have hquiet (hnone : posts .send part = 0) : a.perWindow *
      posts .send ((List.range i).flatMap (roundOps a (script a r)) ++ part) ≤
      Acct.start.counted .recv ((List.range i).flatMap (roundOps a (script a r)) ++ part) := by
    have hle := hclosed.posts_le_counted .recv part
    rw [hwindows] at hle
    rw [posts_append, hfins, hnone, Nat.add_zero, Nat.mul_comm]
    exact hle
  rcases hpart with hpart | hpart
  · rcases prefix_append_cases hpart with hfront | ⟨back, hback, rfl⟩
    · apply hquiet
      have hle := posts_le_of_isPrefix (q := .send) hfront
      rw [posts_front hS.toQuiet, (hp .send).1] at hle
      exact Nat.le_zero.mp hle
    · -- the fin of this round follows the window that the round has counted
      have hone : posts .send back ≤ 1 := by
        have hle := posts_le_of_isPrefix (q := .send) hback
        rwa [posts_back hS.toQuiet, (hp .send).2] at hle
      have hle := (hclosed.append (closed_front (a := a) hS i)).posts_le_counted .recv back
      rw [posts_append, hwindows, posts_front hS.toQuiet, (hp .recv).1, if_pos rfl,
        List.append_assoc] at hle
      rw [posts_append, posts_append, hfins, posts_front hS.toQuiet, (hp .send).1,
        if_neg (by decide), Nat.zero_add]
      calc a.perWindow * (i + posts .send back)
          ≤ a.perWindow * (i + 1) := Nat.mul_le_mul_left _ (by omega)
        _ = i * a.perWindow + a.perWindow := by ring
        _ ≤ _ := hle
  · apply hquiet
    have hle := posts_le_of_isPrefix (q := .send) hpart
    rw [posts_eq_zero (postsOn_finish hS.toQuiet)] at hle
    exact Nat.le_zero.mp hle

end Receiver

theorem countP_kind {kind : Kind} {ms : List Message} (h : ∀ m ∈ ms, m.kind = kind) :
    ms.countP (fun m => m.kind = kind) = ms.length := by
  apply List.countP_eq_length.mpr
  intro m hm
  simp [h m hm]

section Reachable

variable {s : BandwidthState clock}

theorem opsDone_isPrefix (hs : BandwidthReachable a clock s) (r : Fin numprocs) :
    opsDone s r <+: stageOps (stages a clock r) := by
  have hprefix := prefix_of_follows (predicted_calcBw.follows hs) r
  rwa [(runs_calcBw r).trace_eq, opsOf_flatten] at hprefix

/-- What a receiver has counted is delivered. -/
theorem counted_le_delivered (hu : a.Uniform size) (hfit : a.Fits)
    (hs : BandwidthReachable a clock s) {x y : Fin numprocs} {kind : Kind}
    (honly : OnlyWith x (stageOps (stages a clock y)))
    (hkind : ∀ m ∈ sendsTo y (stageOps (stages a clock x)), m.kind = kind) :
    sent s kind x y = (sendsTo y (opsDone s x)).length ∧
      Acct.start.counted .recv (opsDone s y) ≤ delivered s kind x y := by
  have hstaged := (staged clock hu hfit).scheduled
  have hsent : sent s kind x y = (sendsTo y (opsDone s x)).length := by
    apply countP_kind
    intro m hm
    exact hkind m (mem_sendsTo.mpr ((opsDone_isPrefix hs x).subset (mem_sendsTo.mp hm)))
  refine ⟨hsent, ?_⟩
  have hle := counted_add_chan_le hstaged.predicted hstaged.balanced hs (r := y) (x := x)
    (honly.of_isPrefix (opsDone_isPrefix hs y))
  have hchan : (s.mem.chan x y).countP (fun m => m.1.kind = kind) ≤ (s.mem.chan x y).length :=
    List.countP_le_length
  unfold delivered
  rw [hsent]
  change Acct.start.counted .recv (opsDone s y) + (s.mem.chan x y).length ≤
    (sendsTo y (opsDone s x)).length at hle
  omega

theorem window_of_reachable (hu : a.Uniform size) (hfit : a.Fits)
    (hs : BandwidthReachable a clock s) {x y : Fin numprocs} (hx : x.val < a.numPairs)
    (hy : y.val = x + a.numPairs) :
    sent s .data x y ≤ a.perWindow * delivered s .fin y x + a.perWindow ∧
      a.perWindow * sent s .fin y x ≤ delivered s .data x y := by
  have hsender : script a x = senderScript a y := by
    cases role a x with
    | sender target _ ht hscript =>
      obtain rfl : target = y := Fin.ext (by omega)
      exact hscript
    | receiver _ _ hr _ => omega
    | idle hr _ => omega
  have hreceiver : script a y = receiverScript a x := by
    cases role a y with
    | sender _ hr _ _ => omega
    | receiver target ht hr hscript =>
      obtain rfl : target = x := Fin.ext (by omega)
      exact hscript
    | idle hr _ => omega
  have honlyX : OnlyWith y (stageOps (stages a clock x)) := onlyWith_sender hsender hfit
  have honlyY : OnlyWith x (stageOps (stages a clock y)) := onlyWith_receiver hreceiver hfit
  obtain ⟨hdata, hdelivered⟩ := counted_le_delivered hu hfit hs honlyY
    fun m hm => kind_sender hsender hfit hm
  obtain ⟨hfin, hacked⟩ := counted_le_delivered hu hfit hs honlyX
    fun m hm => kind_receiver hreceiver hfit hm
  have hsends := (honlyX.of_isPrefix (opsDone_isPrefix hs x)).posts_send
  have hfins := (honlyY.of_isPrefix (opsDone_isPrefix hs y)).posts_send
  have hwindow := sender_counts hsender hfit (opsDone_isPrefix hs x)
  have hwhole := receiver_counts hreceiver hfit (opsDone_isPrefix hs y)
  rw [hdata, hfin, ← hsends, ← hfins]
  refine ⟨hwindow.trans ?_, hwhole.trans hdelivered⟩
  exact Nat.add_le_add_right (Nat.mul_le_mul_left _ hacked) _

theorem collective_of_reachable (hs : BandwidthReachable a clock s) (r : Fin numprocs) :
    (s.proc r).sent <+: calls a clock r := by
  have hprefix := sent_isPrefix (predicted_calcBw.follows hs) r
  rw [(runs_calcBw r).lastEpoch_eq] at hprefix
  exact hprefix

theorem returned_of_reachable (hu : a.Uniform size) (hfit : a.Fits)
    (hs : BandwidthReachable a clock s) {r : Fin numprocs} {t : ℕ}
    (hr : (s.proc r).code = .pure t) :
    s.mem = Mem.empty ∧ (s.proc r).sent = calls a clock r := by
  have hstaged := staged clock hu hfit
  have hf := hstaged.predicted.follows hs
  have hlast (q : Fin numprocs) : lastEpoch (predicted a clock) q 0 (calcBw a q) = 3 :=
    (runs_calcBw q).lastEpoch_eq
  constructor
  · apply hstaged.scheduled.mem_eq_empty hs
    · intro q
      apply ops_done hf hr
      intro x hx _
      rw [hstaged.trace_eq] at hx
      obtain ⟨⟨t, st⟩, -, hev⟩ := List.mem_flatMap.mp hx
      obtain ⟨ev, -, rfl⟩ := List.mem_map.mp hev
      rw [hlast]
      change epoch a t < 3
      unfold epoch
      split_ifs <;> omega
    · intro q
      rw [hstaged.opsOf_trace]
      exact (closed_stages hfit q _ Acct.clear_start).2
  · apply (collective_of_reachable hs r).eq_of_length
    have hhor := hf.horizon r
    rw [hr, lastEpoch_pure, hlast] at hhor
    rcases hf.waits r with hw | ⟨c, next, hcode, -⟩
    · rw [hw, hhor]
      rfl
    · rw [hr] at hcode
      cases hcode

end Reachable

/-- The window protocol holds in every reachable state. -/
theorem calcBw_windowProtocol (hu : a.Uniform size) (hfit : a.Fits) {s : BandwidthState clock}
    (hs : BandwidthReachable a clock s) : WindowProtocol a s := by
  have hstaged := (staged clock hu hfit).scheduled
  have hmet {x y m eager ms p ps} (hchan : s.mem.chan x y = (m, eager) :: ms)
      (hposted : s.mem.posted x y = p :: ps) : m = p := hstaged.head_eq hs hchan hposted
  obtain ⟨s', hrun, hfinal⟩ := exists_final hstaged.predicted hs
  have hhalted : Halted s' := (hstaged.progress (hs.trans hrun)).resolve_right hfinal
  exact {
    window := fun x y hx hy => (window_of_reachable hu hfit hs hx hy).1
    acknowledged := fun x y hx hy => (window_of_reachable hu hfit hs hx hy).2
    met := fun _ _ _ _ _ _ _ => hmet
    counted := posts_eq_counted_add_due hstaged.predicted hstaged.balanced hs
    reset := fun _ _ _ => awaited_of_reset hstaged.predicted hstaged.balanced hs
    collective := collective_of_reachable hs
    returned := fun _ _ => returned_of_reachable hu hfit hs
    progress := hstaged.progress hs
    completes := ⟨s', hrun, hhalted⟩ }

def onePair : Args 2 where
  numPairs := 1
  windowSize := 1
  sIov _ := 1
  rIov _ := 1
  iovCnt := 2
  sBufLen := 2
  rBufLen := 2
  type := .sendRecv
  testType := .cntrTest
  numPairs_le := by decide
  windowSize_int := by decide
  iovCnt_int := by decide

/-- The job of one pair runs to an end with an empty memory. -/
theorem calcBw_windowProtocol_onePair : ∃ s : BandwidthState fun _ : Fin 2 => fun k => k,
    BandwidthReachable onePair _ s ∧ Halted s ∧ s.mem = Mem.empty := by
  have hu : onePair.Uniform 1 := ⟨by decide, by decide, by decide, fun _ _ => rfl, fun _ _ => rfl,
    rfl, rfl⟩
  have hfit : onePair.Fits := fun _ => by decide
  have hstart : BandwidthReachable onePair (fun _ k => k) (start Mem.empty (calcBw onePair)) :=
    Relation.ReflTransGen.refl
  obtain ⟨s, hrun, hhalted⟩ := (calcBw_windowProtocol hu hfit hstart).completes
  obtain ⟨t, ht⟩ := hhalted 0
  exact ⟨s, hrun, hhalted, ((calcBw_windowProtocol hu hfit hrun).returned 0 t ht).1⟩

/-- The number awaited by a sender, if its program returns, is at most that of its messages. -/
theorem wanted_le_of_halted {s : BandwidthState clock} (hs : BandwidthReachable a clock s)
    (hcntr : a.testType = .cntrTest) {r target : Fin numprocs} {t : ℕ}
    (hscript : script a r = senderScript a target) (hr : (s.proc r).code = .pure t) :
    uint64 a.windowCompletions ≤ a.rounds * a.perWindow := by
  have hf := predicted_calcBw.follows hs
  have hops : opsOf (s.proc r).done = (List.range a.rounds).flatMap
      (roundOps a (script a r)) ++ [.clock 1] := by
    rw [(hf.done_of_halted hr).1, (runs_calcBw r).trace_eq, opsOf_flatten, stageOps_stages, hscript]
    rfl
  have hmem : Op.await .send (uint64 a.windowCompletions) ∈ opsOf (s.proc r).done := by
    rw [hops]
    apply List.mem_append_left
    refine List.mem_flatMap.mpr ⟨a.skip, List.mem_range.mpr a.skip_lt_rounds, ?_⟩
    simp [roundOps, hscript, senderScript, awaits, consume, hcntr, TestType.isCntr, TestType.wanted]
  have hle := await_le_posts hs hmem
  rwa [hops, posts_append, posts_flatMap_range fun i => (posts_sender hscript i).1] at hle

/-- A product of window size and entries that is `2 ^ 31`. -/
def longWindow : Args 2 where
  numPairs := 1
  windowSize := 2 ^ 28
  sIov _ := 1
  rIov _ := 1
  iovCnt := 8
  sBufLen := 8
  rBufLen := 8
  type := .sendRecv
  testType := .cntrTest
  numPairs_le := by decide
  windowSize_int := by decide
  iovCnt_int := by decide

/-- The `int` product is taken to wrap, to a number that the counter never reaches. -/
theorem not_windowProtocol_longWindow : longWindow.Uniform 1 ∧
    ∃ s : BandwidthState fun _ : Fin 2 => fun k => k,
      BandwidthReachable longWindow _ s ∧ ¬ (Halted s ∨ ∃ s', Step s s') := by
  refine ⟨⟨by decide, by decide, by decide, fun _ _ => rfl, fun _ _ => rfl, rfl, rfl⟩, ?_⟩
  have hstart : BandwidthReachable longWindow (fun _ k => k)
    (start Mem.empty (calcBw longWindow)) := Relation.ReflTransGen.refl
  obtain ⟨s, hrun, hfinal⟩ := exists_final predicted_calcBw hstart
  refine ⟨s, hrun, not_or.mpr ⟨fun hhalted => ?_, hfinal⟩⟩
  obtain ⟨t, ht⟩ := hhalted 0
  have hscript : script longWindow 0 = senderScript longWindow 1 := rfl
  have hle := wanted_le_of_halted hrun rfl hscript ht
  revert hle
  decide

end CrayTests.BandwidthTest
