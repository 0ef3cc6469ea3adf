import CrayTests.BandwidthPlan
import CrayTests.MessagingRuns

/-!
# The schedule of the bandwidth test

When all entries of the iovecs have one size, the window of a sender is the window that its
receiver posts, and when the product of the window size and the number of entries is an `int`,
a rank waits for as many completions as it has posted. The stages of the ranks are then a schedule.
-/

namespace CrayTests.BandwidthTest

open CInteger RankProgram Messaging

variable {numprocs : ℕ} {a : Args numprocs} {size : ℕ}

/-- Something is sent, and all buffers match entries of one size. -/
structure Args.Uniform (a : Args numprocs) (size : ℕ) : Prop where
  numPairs_pos : 1 ≤ a.numPairs
  windowSize_pos : 1 ≤ a.windowSize
  iovCnt_pos : 1 ≤ a.iovCnt
  sIov : ∀ c < a.iovCnt, a.sIov c = size
  rIov : ∀ c < a.iovCnt, a.rIov c = size
  sBufLen : a.sBufLen = a.iovCnt * size
  rBufLen : a.rBufLen = a.iovCnt * size

/-- `window_size * iov_cnt` is an `int` where it is computed. -/
def Args.Fits (a : Args numprocs) : Prop :=
  a.type = .sendRecv → a.windowSize * a.iovCnt < 2 ^ 31

def Args.perWindow (a : Args numprocs) : ℕ :=
  if a.type = .sendRecv then a.windowSize * a.iovCnt else a.windowSize

theorem iovLen_eq {iov : ℕ → ℕ} {count : ℕ} (h : ∀ c < count, iov c = size) :
    iovLen iov count = count * size := by
  unfold iovLen
  rw [List.map_congr_left fun c hc => h c (List.mem_range.mp hc), List.map_const',
    List.sum_replicate, List.length_range, smul_eq_mul]

theorem sendWindow_eq_recvWindow (hu : a.Uniform size) : sendWindow a = recvWindow a := by
  unfold sendWindow recvWindow
  congr 1
  funext _
  rw [iovLen_eq hu.sIov, iovLen_eq hu.rIov, hu.sBufLen, hu.rBufLen]
  cases a.type with
  | sendRecv =>
    apply List.flatMap_congr
    intro c hc
    rw [hu.sIov c (List.mem_range.mp hc), hu.rIov c (List.mem_range.mp hc)]
  | _ => rfl

theorem length_sendWindow : (sendWindow a).length = a.perWindow := by
  unfold sendWindow Args.perWindow
  cases a.type <;> simp [List.length_flatMap]

theorem length_recvWindow : (recvWindow a).length = a.perWindow := by
  unfold recvWindow Args.perWindow
  cases a.type <;> simp [List.length_flatMap]

theorem kind_of_mem_sendWindow {m : Message} (h : m ∈ sendWindow a) : m.kind = .data := by
  unfold sendWindow at h
  obtain ⟨_, -, hm⟩ := List.mem_flatMap.mp h
  cases htype : a.type <;> simp only [htype, List.mem_flatMap, List.mem_singleton] at hm
  · obtain ⟨c, -, rfl⟩ := hm
    rfl
  all_goals exact hm ▸ rfl

theorem wanted_natCast (testType : TestType) {k : ℕ} (hk : k < 2 ^ 31) :
    testType.wanted k = k := by
  cases testType with
  | cqTest => rfl
  | cntrTest => exact uint64_natCast (by omega)

theorem Args.perWindow_int (hfit : a.Fits) : a.perWindow < 2 ^ 31 := by
  unfold perWindow
  split_ifs with h
  · exact hfit h
  · exact a.windowSize_int

theorem wanted_windowCompletions (hfit : a.Fits) :
    a.testType.wanted a.windowCompletions = a.perWindow := by
  have hcompletions : a.windowCompletions = a.perWindow := by
    unfold Args.windowCompletions Args.perWindow
    split_ifs with h
    · exact_mod_cast int32_natCast (hfit h)
    · rfl
  rw [hcompletions, wanted_natCast _ (Args.perWindow_int hfit)]

/-- Only the window and the reply are posted. -/
structure Script.Quiet (S : Script numprocs) : Prop where
  timer : ∀ o ∈ S.timer, ∃ k, o = .clock k
  posts : ∀ o ∈ S.posts, ∃ q, o.postsOn = some q
  waits : ∀ o ∈ S.waits, o.postsOn = none
  reply : ∀ o ∈ S.reply, ∃ q, o.postsOn = some q
  replyWaits : ∀ o ∈ S.replyWaits, o.postsOn = none
  finish : ∀ o ∈ S.finish, ∃ k, o = .clock k

structure Script.Sound (S : Script numprocs) : Prop extends S.Quiet where
  window : Closed (S.posts ++ S.waits)
  fin : Closed (S.reply ++ S.replyWaits)

theorem postsOn_of_mem_awaits {testType : TestType} {q : Queue} {k : ℤ} {o : Operation numprocs}
    (h : o ∈ awaits testType q k) : o.postsOn = none := by
  cases testType with
  | cqTest =>
    rw [awaits, consume, TestType.isCntr, if_neg Bool.false_ne_true] at h
    rw [List.eq_of_mem_replicate h]
    rfl
  | cntrTest =>
    simp only [awaits, consume, TestType.isCntr, if_true, List.mem_cons, List.not_mem_nil,
      or_false] at h
    rcases h with rfl | rfl <;> rfl

theorem quiet_senderScript (target : Fin numprocs) : (senderScript a target).Quiet where
  timer o ho := ⟨0, List.mem_singleton.mp ho⟩
  posts o ho := by
    obtain ⟨m, -, rfl⟩ := List.mem_map.mp ho
    exact ⟨.send, rfl⟩
  waits _ := postsOn_of_mem_awaits
  reply o ho := ⟨.recv, List.mem_singleton.mp ho ▸ rfl⟩
  replyWaits _ := postsOn_of_mem_awaits
  finish o ho := ⟨1, List.mem_singleton.mp ho⟩

theorem sound_senderScript (hfit : a.Fits) (target : Fin numprocs) :
    (senderScript a target).Sound where
  toQuiet := quiet_senderScript target
  window := by
    apply closed_round
    · intro o ho
      obtain ⟨m, -, rfl⟩ := List.mem_map.mp ho
      rfl
    · rw [wanted_windowCompletions hfit, senderScript, List.length_map, length_sendWindow]
  fin := by
    apply closed_round
    · intro o ho
      rw [List.mem_singleton.mp ho]
      rfl
    · exact (wanted_natCast (k := 1) a.testType (by decide)).symm

theorem sound_receiverScript (hfit : a.Fits) (target : Fin numprocs) :
    (receiverScript a target).Sound where
  timer o ho := by cases ho
  posts o ho := by
    obtain ⟨m, -, rfl⟩ := List.mem_map.mp ho
    exact ⟨.recv, rfl⟩
  waits _ := postsOn_of_mem_awaits
  reply o ho := ⟨.send, List.mem_singleton.mp ho ▸ rfl⟩
  replyWaits _ := postsOn_of_mem_awaits
  finish o ho := by cases ho
  window := by
    apply closed_round
    · intro o ho
      obtain ⟨m, -, rfl⟩ := List.mem_map.mp ho
      rfl
    · rw [wanted_windowCompletions hfit, receiverScript, List.length_map, length_recvWindow]
  fin := by
    apply closed_round
    · intro o ho
      rw [List.mem_singleton.mp ho]
      rfl
    · exact (wanted_natCast (k := 1) a.testType (by decide)).symm

theorem sound_idleScript : (idleScript : Script numprocs).Sound where
  timer o ho := by cases ho
  posts o ho := by cases ho
  waits o ho := by cases ho
  reply o ho := by cases ho
  replyWaits o ho := by cases ho
  finish o ho := by cases ho
  window := closed_nil
  fin := closed_nil

inductive Role (a : Args numprocs) (r : Fin numprocs) : Prop
  | sender (target : Fin numprocs) (hr : r.val < a.numPairs) (ht : target.val = r + a.numPairs)
      (hscript : script a r = senderScript a target)
  | receiver (target : Fin numprocs) (ht : target.val < a.numPairs)
      (hr : r.val = target + a.numPairs) (hscript : script a r = receiverScript a target)
  | idle (hr : 2 * a.numPairs ≤ r.val) (hscript : script a r = idleScript)

theorem role (a : Args numprocs) (r : Fin numprocs) : Role a r := by
  by_cases hs : r.val < a.numPairs
  · exact .sender _ hs rfl (by rw [script, dif_pos hs])
  · by_cases hr : r.val < a.numPairs * 2
    · refine .receiver ⟨r - a.numPairs, by omega⟩ ?_ ?_ (by rw [script, dif_neg hs, if_pos hr])
      · change r - a.numPairs < a.numPairs
        omega
      · change r.val = r - a.numPairs + a.numPairs
        omega
    · exact .idle (by omega) (by rw [script, dif_neg hs, if_neg hr])

theorem sound_script (hfit : a.Fits) (r : Fin numprocs) : (script a r).Sound := by
  cases role a r with
  | sender target _ _ hscript => exact hscript ▸ sound_senderScript hfit target
  | receiver target _ _ hscript => exact hscript ▸ sound_receiverScript hfit target
  | idle _ hscript => exact hscript ▸ sound_idleScript

theorem sendsTo_map_send (b target : Fin numprocs) (ms : List Message) :
    sendsTo b (ms.map (.send target)) = if target = b then ms else [] := by
  split_ifs with h <;> simp [sendsTo, List.filterMap_map, h]

theorem sendsTo_map_recv (b target : Fin numprocs) (ms : List Message) :
    sendsTo b (ms.map (.recv target)) = [] := by
  simp [sendsTo]

theorem recvsFrom_map_recv (b target : Fin numprocs) (ms : List Message) :
    recvsFrom b (ms.map (.recv target)) = if target = b then ms else [] := by
  split_ifs with h <;> simp [recvsFrom, List.filterMap_map, h]

theorem recvsFrom_map_send (b target : Fin numprocs) (ms : List Message) :
    recvsFrom b (ms.map (.send target)) = [] := by
  simp [recvsFrom]

theorem senderScript_traffic (target z : Fin numprocs) :
    sendsTo z (senderScript a target).posts = (if target = z then sendWindow a else []) ∧
      recvsFrom z (senderScript a target).posts = [] ∧
      sendsTo z (senderScript a target).reply = [] ∧
      recvsFrom z (senderScript a target).reply = if target = z then [finMessage] else [] :=
  ⟨sendsTo_map_send z target _, recvsFrom_map_send z target _, sendsTo_map_recv z target [_],
    recvsFrom_map_recv z target [_]⟩

theorem receiverScript_traffic (target z : Fin numprocs) :
    sendsTo z (receiverScript a target).posts = [] ∧
      recvsFrom z (receiverScript a target).posts = (if target = z then recvWindow a else []) ∧
      sendsTo z (receiverScript a target).reply = (if target = z then [finMessage] else []) ∧
      recvsFrom z (receiverScript a target).reply = [] :=
  ⟨sendsTo_map_recv z target _, recvsFrom_map_recv z target _, sendsTo_map_send z target [_],
    recvsFrom_map_send z target [_]⟩

/-- In every round, what a rank sends to another is what the other receives from it. -/
theorem paired_scripts (hu : a.Uniform size) (x y : Fin numprocs) :
    sendsTo y (script a x).posts = recvsFrom x (script a y).posts ∧
      sendsTo y (script a x).reply = recvsFrom x (script a y).reply := by
  have hwin := sendWindow_eq_recvWindow hu
  cases role a x with
  | sender t hx ht hscript =>
    cases role a y with
    | sender t' hy ht' hscript' =>
      have hne : t ≠ y := by
        rintro rfl
        omega
      have hne' : t' ≠ x := by
        rintro rfl
        omega
      simp [hscript, hscript', senderScript_traffic, hne, hne']
    | receiver t' ht' hy hscript' =>
      have hiff : t = y ↔ t' = x := by
        rw [Fin.ext_iff, Fin.ext_iff]
        omega
      simp [hscript, hscript', senderScript_traffic, receiverScript_traffic, hiff, hwin]
    | idle hy hscript' =>
      have hne : t ≠ y := by
        rintro rfl
        omega
      simp [hscript, hscript', senderScript_traffic, hne, idleScript, recvsFrom]
  | receiver t ht hx hscript =>
    cases role a y with
    | sender t' hy ht' hscript' =>
      have hiff : t = y ↔ t' = x := by
        rw [Fin.ext_iff, Fin.ext_iff]
        omega
      simp [hscript, hscript', senderScript_traffic, receiverScript_traffic, hiff]
    | receiver t' ht' hy hscript' =>
      have hne : t ≠ y := by
        rintro rfl
        omega
      have hne' : t' ≠ x := by
        rintro rfl
        omega
      simp [hscript, hscript', receiverScript_traffic, hne, hne']
    | idle hy hscript' =>
      have hne : t ≠ y := by
        rintro rfl
        omega
      simp [hscript, hscript', receiverScript_traffic, hne, idleScript, recvsFrom]
  | idle hx hscript =>
    cases role a y with
    | sender t' hy ht' hscript' =>
      have hne' : t' ≠ x := by
        rintro rfl
        omega
      simp [hscript, hscript', senderScript_traffic, hne', idleScript, sendsTo]
    | receiver t' ht' hy hscript' =>
      have hne' : t' ≠ x := by
        rintro rfl
        omega
      simp [hscript, hscript', receiverScript_traffic, hne', idleScript, sendsTo]
    | idle hy hscript' => simp [hscript, hscript', idleScript, sendsTo, recvsFrom]

def roundOps (a : Args numprocs) (S : Script numprocs) (i : ℕ) : List (Operation numprocs) :=
  (if i = a.skip then S.timer else []) ++ (S.posts ++ S.waits) ++ (S.reply ++ S.replyWaits)

theorem opList_barrier (i : ℕ) :
    (if i = a.skip then .sync .barrier else .ops [] : RoundStage numprocs).opList = [] := by
  split_ifs <;> rfl

variable {clock : Fin numprocs → ℕ → ℕ}

theorem stageOps_stages (r : Fin numprocs) : stageOps (stages a clock r) =
    (List.range a.rounds).flatMap (roundOps a (script a r)) ++ (script a r).finish := by
  have hround (i : ℕ) : (roundStages a (script a r) i).flatMap (fun x => x.2.opList) =
      roundOps a (script a r) i := by
    simp [roundStages, roundOps, opList_barrier]
  simp [stageOps, stages, exchangeStages, List.flatMap_assoc, hround]

/-- A round up to the wait for its window. -/
theorem closed_front {S : Script numprocs} (hS : S.Sound) (i : ℕ) :
    Closed ((if i = a.skip then S.timer else []) ++ (S.posts ++ S.waits)) := by
  have htimer : Closed (if i = a.skip then S.timer else []) := by
    split_ifs
    · exact closed_clocks hS.timer
    · exact closed_nil
  exact htimer.append hS.window

theorem closed_roundOps {S : Script numprocs} (hS : S.Sound) (i : ℕ) :
    Closed (roundOps a S i) := (closed_front hS i).append hS.fin

theorem closed_stages (hfit : a.Fits) (r : Fin numprocs) : Closed (stageOps (stages a clock r)) := by
  have hS := sound_script hfit r
  rw [stageOps_stages]
  exact (Closed.flatMap fun i _ => closed_roundOps hS i).append (closed_clocks hS.finish)

theorem sorted_stages (r : Fin numprocs) :
    ((stages a clock r).map Prod.fst).Pairwise (· < ·) := by
  have hround (i : ℕ) : (roundStages a (script a r) i).Pairwise (fun x y => x.1 < y.1) ∧
      ∀ x ∈ roundStages a (script a r) i, 6 * i < x.1 ∧ x.1 ≤ 6 * i + 6 := by
    simp [roundStages]
  have hrounds : ((List.range a.rounds).flatMap (roundStages a (script a r))).Pairwise
      fun x y => x.1 < y.1 := by
    rw [List.pairwise_flatMap]
    refine ⟨fun i _ => (hround i).1, List.pairwise_lt_range.imp fun {i j} hij x hx y hy => ?_⟩
    have := (hround i).2 x hx
    have := (hround j).2 y hy
    omega
  have hbound : ∀ x ∈ (List.range a.rounds).flatMap (roundStages a (script a r)),
      0 < x.1 ∧ x.1 ≤ 6 * a.rounds := by
    intro x hx
    obtain ⟨i, hi, hxi⟩ := List.mem_flatMap.mp hx
    have hlt := List.mem_range.mp hi
    have := (hround i).2 x hxi
    omega
  rw [List.pairwise_map, stages, exchangeStages, List.pairwise_cons, List.append_assoc]
  constructor
  · intro y hy
    rcases List.mem_append.mp hy with hy | hy
    · exact (hbound y hy).1
    · simp only [List.cons_append, List.nil_append, List.mem_cons, List.not_mem_nil,
        or_false] at hy
      rcases hy with rfl | rfl <;> exact Nat.succ_pos _
  · apply List.pairwise_append.mpr
    refine ⟨hrounds, by simp, fun x hx y hy => ?_⟩
    have := (hbound x hx).2
    simp only [List.cons_append, List.nil_append, List.mem_cons, List.not_mem_nil,
      or_false] at hy
    rcases hy with rfl | rfl
    · exact Nat.lt_succ_of_le this
    · exact Nat.lt_succ_of_le (Nat.le_succ_of_le this)

theorem mem_stages {r : Fin numprocs} {x : ℕ × RoundStage numprocs}
    (h : x ∈ stages a clock r) : x = (0, .sync .barrier) ∨
      (∃ i < a.rounds, x ∈ roundStages a (script a r) i) ∨
      x = (6 * a.rounds + 1, .ops (script a r).finish) ∨
      x = (6 * a.rounds + 2, .sync (.allgather (elapsed a clock r))) := by
  simpa [stages, exchangeStages, or_assoc] using h

theorem level_stages (hfit : a.Fits) (r : Fin numprocs) : ∀ x ∈ stages a clock r, x.2.Level := by
  have hS := sound_script hfit r
  have hclocks {ops : List (Operation numprocs)} (h : ∀ o ∈ ops, ∃ k, o = .clock k) :
      (.ops ops : RoundStage numprocs).Level := by
    refine .inr fun o ho => ?_
    obtain ⟨k, rfl⟩ := h o ho
    rfl
  intro x hx
  rcases mem_stages hx with rfl | ⟨i, -, hx⟩ | rfl | rfl
  · trivial
  · simp only [roundStages, List.mem_cons, List.not_mem_nil, or_false] at hx
    rcases hx with rfl | rfl | rfl | rfl | rfl | rfl
    · simp only
      split_ifs
      · trivial
      · exact .inr fun o ho => by cases ho
    · simp only
      split_ifs
      · exact hclocks hS.timer
      · exact .inr fun o ho => by cases ho
    · exact .inl hS.posts
    · exact .inr hS.waits
    · exact .inl hS.reply
    · exact .inr hS.replyWaits
  · exact hclocks hS.finish
  · trivial

theorem sync_mem_stages {r : Fin numprocs} {t : ℕ} {c : Collective}
    (h : (t, .sync c) ∈ stages a clock r) : t = 0 ∧ c = .barrier ∨
      t = 6 * a.skip + 1 ∧ c = .barrier ∨
      t = 6 * a.rounds + 2 ∧ c = .allgather (elapsed a clock r) := by
  rcases mem_stages h with h | ⟨i, -, h⟩ | h | h
  · simp only [Prod.mk.injEq, Stage.sync.injEq] at h
    exact .inl h
  · by_cases hi : i = a.skip
    · subst hi
      simp only [roundStages, if_true, List.mem_cons, Prod.mk.injEq, Stage.sync.injEq, reduceCtorEq,
        and_false, List.not_mem_nil, or_false] at h
      exact .inr (.inl h)
    · simp [roundStages, hi] at h
  · simp at h
  · simp only [Prod.mk.injEq, Stage.sync.injEq] at h
    exact .inr (.inr h)

theorem stageSyncs_stages (r : Fin numprocs) : stageSyncs (stages a clock r) =
    0 :: ((List.range a.rounds).flatMap (fun i => if i = a.skip then [6 * i + 1] else []) ++
      [6 * a.rounds + 2]) := by
  have hround (i : ℕ) : (roundStages a (script a r) i).flatMap
      (fun x => if x.2.isSync then [x.1] else []) = if i = a.skip then [6 * i + 1] else [] := by
    by_cases hi : i = a.skip
    · simp [roundStages, hi]
    · simp [roundStages, hi]
  simp [stageSyncs, stages, exchangeStages, List.flatMap_assoc, hround]

theorem postsOn_timer {S : Script numprocs} (hS : S.Quiet) (i : ℕ) :
    ∀ o ∈ if i = a.skip then S.timer else [], o.postsOn = none := by
  intro o ho
  split_ifs at ho
  · obtain ⟨k, rfl⟩ := hS.timer o ho
    rfl
  · cases ho

theorem postsOn_finish {S : Script numprocs} (hS : S.Quiet) : ∀ o ∈ S.finish, o.postsOn = none := by
  intro o ho
  obtain ⟨k, rfl⟩ := hS.finish o ho
  rfl

theorem stageSends_stages (hfit : a.Fits) (r y : Fin numprocs) :
    stageSends y (stages a clock r) = (List.range a.rounds).flatMap fun i =>
      (sendsTo y (script a r).posts).map (Prod.mk (6 * i + 3)) ++
        (sendsTo y (script a r).reply).map (Prod.mk (6 * i + 5)) := by
  have hS := sound_script hfit r
  have hround (i : ℕ) : (roundStages a (script a r) i).flatMap
      (fun x => (sendsTo y x.2.opList).map (Prod.mk x.1)) =
        (sendsTo y (script a r).posts).map (Prod.mk (6 * i + 3)) ++
          (sendsTo y (script a r).reply).map (Prod.mk (6 * i + 5)) := by
    simp [roundStages, opList_barrier, sendsTo_eq_nil (postsOn_timer hS.toQuiet i),
      sendsTo_eq_nil hS.waits, sendsTo_eq_nil hS.replyWaits]
  simp [stageSends, stages, exchangeStages, List.flatMap_assoc, hround,
    sendsTo_eq_nil (postsOn_finish hS.toQuiet)]

theorem stageRecvs_stages (hfit : a.Fits) (r x : Fin numprocs) :
    stageRecvs x (stages a clock r) = (List.range a.rounds).flatMap fun i =>
      (recvsFrom x (script a r).posts).map (Prod.mk (6 * i + 3)) ++
        (recvsFrom x (script a r).reply).map (Prod.mk (6 * i + 5)) := by
  have hS := sound_script hfit r
  have hround (i : ℕ) : (roundStages a (script a r) i).flatMap
      (fun s => (recvsFrom x s.2.opList).map (Prod.mk s.1)) =
        (recvsFrom x (script a r).posts).map (Prod.mk (6 * i + 3)) ++
          (recvsFrom x (script a r).reply).map (Prod.mk (6 * i + 5)) := by
    simp [roundStages, opList_barrier, recvsFrom_eq_nil (postsOn_timer hS.toQuiet i),
      recvsFrom_eq_nil hS.waits, recvsFrom_eq_nil hS.replyWaits]
  simp [stageRecvs, stages, exchangeStages, List.flatMap_assoc, hround,
    recvsFrom_eq_nil (postsOn_finish hS.toQuiet)]

theorem predicted_calcBw : Predicted clock (predicted a clock) (calcBw a) where
  coherent r e c h := by
    rw [(runs_calcBw r).trace_eq, sync_mem_flatten] at h
    obtain ⟨t, ht, rfl⟩ := h
    have hlast := a.skip_lt_rounds
    rcases sync_mem_stages ht with ⟨rfl, rfl⟩ | ⟨rfl, rfl⟩ | ⟨rfl, rfl⟩
    · rfl
    · have he : epoch a (6 * a.skip + 1) = 1 := by
        rw [epoch_barrier, if_pos le_rfl]
      rw [he]
      rfl
    · have he : epoch a (6 * a.rounds + 2) = 2 := by
        unfold epoch
        split_ifs <;> omega
      rw [he]
      rfl
  clocks _ _ := rfl

theorem staged (clock : Fin numprocs → ℕ → ℕ) (hu : a.Uniform size) (hfit : a.Fits) :
    Staged clock (predicted a clock) (calcBw a) (stages a clock) (epoch a) where
  predicted := predicted_calcBw
  trace_eq r := (runs_calcBw r).trace_eq
  balanced r := (closed_stages hfit r).balanced
  sorted := sorted_stages
  level := level_stages hfit
  paired x y := by
    obtain ⟨hposts, hreply⟩ := paired_scripts hu x y
    rw [stageSends_stages hfit, stageRecvs_stages hfit, hposts, hreply]
  syncs x y := by rw [stageSyncs_stages, stageSyncs_stages]

end CrayTests.BandwidthTest
