import CrayTests.KvsReceive
import CrayTests.PmiJobEvents

/-!
# The collective operations deliver the right data

The keys of all puts of a job are different and every get comes a barrier after its put, so the
programs are disciplined and every run follows the oracle: each call fills its buffer with what the
ranks passed to the same call, whatever the order of steps, and every run ends.
-/

namespace CrayTests.Kvs
open CInteger RankProgram CommittedStore

variable {n : ℕ} {calls : List Call} {data : ℕ → ℕ → List Byte} {r : Fin n} {e : ℕ}

def putKeys (done : List Ev) : List (List Char) :=
  done.filterMap fun
    | (_, .op (.put _ k _) _) => some k
    | _ => none

def returned (done : List Ev) : List ℕ :=
  done.filterMap fun
    | (_, .op (.observe (j, _)) _) => some j
    | _ => none

/-- What may be seen in a state: buffers of returned calls, keys and values of puts and gets. -/
structure Delivered (calls : List Call) (p : Payload n calls) (s : PmiState n) : Prop where
  allgather : ∀ r e j buf len, (e, observeEvent j buf) ∈ (s.proc r).done →
    calls[j]? = some (.allgather len) →
      buf.length = n * len ∧ ∀ i < n, (buf.drop (i * len)).take len = p.data i j
  bcast : ∀ r e j buf len, (e, observeEvent j buf) ∈ (s.proc r).done →
    calls[j]? = some (.bcast len) → buf = p.data 0 j
  putOnce : ((List.finRange n).flatMap (fun r => putKeys (s.proc r).done)).Nodup
  /-- The value of a get was put by the rank and in the call the get is meant for. -/
  ownPut : ∀ r e j i k v, (e, getEvent (j, i) k v) ∈ (s.proc r).done →
    ∃ (hi : i < n) (e' : ℕ), e' < e ∧ (e', putEvent (j, i) k v) ∈ (s.proc ⟨i, hi⟩).done

/-- Every reachable state shows delivered data only and can be run to an end where all calls have
returned, and no run goes on forever. -/
structure CollectivesDeliver (n : ℕ) (calls : List Call) (p : Payload n calls) : Prop where
  delivered : ∀ s : PmiState n, JobReachable calls p s → Delivered calls p s
  completes : ∀ s : PmiState n, JobReachable calls p s →
    ∃ t, JobReachable calls p t ∧ Relation.ReflTransGen Step s t ∧ Halted t
  returns : ∀ s : PmiState n, JobReachable calls p s → Halted s →
    ∀ r, returned (s.proc r).done = List.range calls.length
  bounded : ∃ bound, ∀ (run : ℕ → PmiState n) (k : ℕ), run 0 = start empty (job calls p) →
    (∀ i < k, Step (run i) (run (i + 1))) → k ≤ bound

theorem split_of_mem_trace {p : Payload n calls} {ev : Ev}
    (hruns : Runs (expected n p.data) r 0 (job calls p r) (eventsFrom n p.data r [] calls) () e)
    (h : ev ∈ trace (expected n p.data) r 0 (job calls p r)) :
    ∃ l c l', calls = l ++ c :: l' ∧ ev ∈ callEvents n p.data r l c := by
  rw [hruns.trace_eq] at h
  exact mem_eventsFrom h

theorem job_disciplined (hn : n < 2 ^ 31) (hcalls : calls.length < 2 ^ 31)
    (hlen : ∀ c ∈ calls, c.len < 2 ^ 30) (p : Payload n calls) :
    Disciplined (expected n p.data) (job calls p) where
  unique r q e e' l l' k v v' h h' := by
    obtain ⟨a, c, b, hsplit, h⟩ := split_of_mem_trace (runs_job hn hcalls hlen p r) h
    obtain ⟨a', c', b', hsplit', h'⟩ := split_of_mem_trace (runs_job hn hcalls hlen p q) h'
    obtain ⟨-, hk, hv⟩ := put_of_mem_callEvents h
    obtain ⟨-, hk', hv'⟩ := put_of_mem_callEvents h'
    obtain ⟨rfl, -, hrank⟩ := callKey_inj hsplit hsplit' (hk.symm.trans hk')
    rw [hv, hv', hrank]
  published r e l k v h := by
    obtain ⟨a, c, b, hsplit, h⟩ := split_of_mem_trace (runs_job hn hcalls hlen p r) h
    obtain ⟨i, hi, hkind, he, hl, hk, hv⟩ := get_of_mem_callEvents r.isLt h
    obtain ⟨C, hC⟩ := eventsFrom_published (n := n) p.data hsplit hkind
    refine ⟨⟨i, hi⟩, barriers a, (a.length, i), eventsFrom n p.data i [] a, C, by omega, ?_⟩
    rw [(runs_job hn hcalls hlen p ⟨i, hi⟩).trace_eq, hk, hv]
    exact hC
  safe r e h := by
    obtain ⟨a, c, b, -, h⟩ := split_of_mem_trace (runs_job hn hcalls hlen p r) h
    exact abort_not_mem_callEvents _ _ _ h
  even r q := by
    rw [(runs_job hn hcalls hlen p r).lastEpoch_eq, (runs_job hn hcalls hlen p q).lastEpoch_eq]

theorem mem_putKeys {done : List Ev} {k : List Char} :
    k ∈ putKeys done ↔ ∃ e l v, (e, putEvent l k v) ∈ done := by
  constructor
  · intro h
    obtain ⟨⟨e, ev⟩, hmem, hk⟩ := List.mem_filterMap.mp h
    cases ev with
    | sync c => cases hk
    | op o x =>
      cases o with
      | put l k' v =>
        obtain rfl := Option.some.inj hk
        exact ⟨e, l, v, hmem⟩
      | _ => cases hk
  · rintro ⟨e, l, v, hmem⟩
    exact List.mem_filterMap.mpr ⟨_, hmem, rfl⟩

theorem putKeys_append (a b : List Ev) : putKeys (a ++ b) = putKeys a ++ putKeys b :=
  List.filterMap_append

theorem returned_append (a b : List Ev) : returned (a ++ b) = returned a ++ returned b :=
  List.filterMap_append

variable (data) in
theorem putKeys_callEvents (myRank : ℕ) (pre : List Call) (c : Call) :
    putKeys (callEvents n data myRank pre c) = [] ∨
      putKeys (callEvents n data myRank pre c) = [callKey pre c myRank] := by
  cases c with
  | allgather len =>
    right
    simp [callEvents, callBody, callPut, callGet, putKeys, List.filterMap_flatMap]
  | bcast len =>
    by_cases h : myRank = 0
    · right
      simp [callEvents, callBody, callPut, putKeys, h]
    · left
      simp [callEvents, callBody, callGet, putKeys, h]

theorem returned_callEvents (myRank : ℕ) (pre : List Call) (c : Call) :
    returned (callEvents n data myRank pre c) = [pre.length] := by
  cases c with
  | allgather len =>
    simp [callEvents, callBody, callPut, callGet, returned, List.filterMap_flatMap]
  | bcast len =>
    by_cases h : myRank = 0 <;>
      simp [callEvents, callBody, callPut, callGet, returned, h]

theorem returned_eventsFrom (myRank : ℕ) (pre post : List Call) :
    returned (eventsFrom n data myRank pre post) = List.range' pre.length post.length := by
  induction post generalizing pre with
  | nil => rfl
  | cons c post ih =>
    rw [eventsFrom, returned_append, returned_callEvents, ih, List.length_append,
      List.length_singleton, List.length_cons, List.range'_succ, List.singleton_append]

theorem nodup_putKeys_eventsFrom (myRank : ℕ) (pre post : List Call) :
    (putKeys (eventsFrom n data myRank pre post)).Nodup := by
  induction post generalizing pre with
  | nil => exact List.nodup_nil
  | cons c post ih =>
    rw [eventsFrom, putKeys_append]
    rcases putKeys_callEvents (n := n) data myRank pre c with h | h
    · rw [h]
      exact ih _
    · rw [h, List.singleton_append, List.nodup_cons]
      refine ⟨fun hmem => ?_, ih _⟩
      obtain ⟨e, l, v, hput⟩ := mem_putKeys.mp hmem
      obtain ⟨a, c', b, rfl, hcall⟩ := mem_eventsFrom hput
      obtain ⟨-, hk, -⟩ := put_of_mem_callEvents hcall
      have hsplit : pre ++ c :: (a ++ c' :: b) = pre ++ [c] ++ a ++ c' :: b := by simp
      have hpre := congrArg List.length (callKey_inj rfl hsplit hk).1
      simp only [List.length_append, List.length_singleton] at hpre
      omega

theorem nodup_putKeys_job (calls : List Call) (data : ℕ → ℕ → List Byte) :
    ((List.finRange n).flatMap
      (fun r : Fin n => putKeys (eventsFrom n data r [] calls))).Nodup := by
  refine List.nodup_flatMap.mpr ⟨fun r _ => nodup_putKeys_eventsFrom _ _ _, ?_⟩
  refine (List.nodup_finRange n).imp (fun {r q} hne => ?_)
  intro k hr hq
  obtain ⟨e, l, v, hput⟩ := mem_putKeys.mp hr
  obtain ⟨e', l', v', hput'⟩ := mem_putKeys.mp hq
  obtain ⟨a, c, b, hsplit, hput⟩ := mem_eventsFrom hput
  obtain ⟨a', c', b', hsplit', hput'⟩ := mem_eventsFrom hput'
  obtain ⟨-, hk, -⟩ := put_of_mem_callEvents hput
  obtain ⟨-, hk', -⟩ := put_of_mem_callEvents hput'
  exact hne (Fin.ext (callKey_inj hsplit hsplit' (hk.symm.trans hk')).2.2)

theorem Delivered.of_follows {p : Payload n calls} {s : PmiState n}
    (hruns : ∀ r : Fin n, Runs (expected n p.data) r 0 (job calls p r)
      (eventsFrom n p.data r [] calls) () (barriers calls))
    (hf : Follows (expected n p.data) (job calls p) s) : Delivered calls p s := by
  have observed {r : Fin n} {e j : ℕ} {buf : List Byte} {c : Call}
      (h : (e, observeEvent j buf) ∈ (s.proc r).done) (hc : calls[j]? = some c) :
      buf = callResult n p.data j c := by
    obtain ⟨l, c', l', rfl, hev⟩ := split_of_mem_trace (hruns r) (hf.mem_trace_of_done h)
    obtain ⟨rfl, hbuf⟩ := observe_of_mem_callEvents hev
    obtain rfl : c' = c := by simpa using hc
    exact hbuf
  constructor
  · intro r e j buf len h hc
    have hdata : ∀ i < n, (p.data i j).length = len := fun i hi => p.length_data i hi j _ hc
    rw [observed h hc]
    exact ⟨length_blocks hdata, fun i hi => block_of_blocks hdata hi⟩
  · intro r e j buf len h hc
    exact observed h hc
  · have hsub : ((List.finRange n).flatMap (fun r => putKeys (s.proc r).done)).Sublist
        ((List.finRange n).flatMap
          (fun r : Fin n => putKeys (eventsFrom n p.data r [] calls))) := by
      refine List.Sublist.flatMap_right _ (fun r _ => ?_)
      rw [← (hruns r).trace_eq, ← hf.path r, putKeys_append]
      exact List.sublist_append_left _ _
    exact (nodup_putKeys_job calls p.data).sublist hsub
  · intro r e j i k v h
    obtain ⟨a, c, b, hsplit, hev⟩ := split_of_mem_trace (hruns r) (hf.mem_trace_of_done h)
    obtain ⟨i', hi, hkind, he, hl, hk, hv⟩ := get_of_mem_callEvents r.isLt hev
    obtain ⟨rfl, rfl⟩ := Prod.mk.inj hl
    have hpast := hf.past r _ _ h
    refine ⟨hi, barriers a, by omega, hf.op_done r ⟨i, hi⟩ ?_ (by omega)⟩
    obtain ⟨C, hC⟩ := eventsFrom_published (n := n) p.data hsplit hkind
    rw [(hruns ⟨i, hi⟩).trace_eq, hk, hv]
    change _ ∈ eventsFrom n p.data i [] calls
    rw [hC]
    exact List.mem_append_right _ List.mem_cons_self

/-- The collective operations deliver the right data for all numbers of ranks and calls that fit an
`int` and lengths whose encoding has an `int` length. -/
theorem collectives_deliver (hn : n < 2 ^ 31) (hcalls : calls.length < 2 ^ 31)
    (hlen : ∀ c ∈ calls, c.len < 2 ^ 30) (p : Payload n calls) : CollectivesDeliver n calls p := by
  have hp := (job_disciplined hn hcalls hlen p).predicts
  have hruns := runs_job hn hcalls hlen p
  refine ⟨fun s hs => .of_follows hruns (hp.follows hs), fun s hs => hp.exists_halted hs, ?_,
    ⟨_, fun run k h0 hrun => hp.run_length_le run k h0 hrun⟩⟩
  intro s hs hhalt r
  obtain ⟨a, ha⟩ := hhalt r
  rw [((hp.follows hs).done_of_halted ha).1, (hruns r).trace_eq, returned_eventsFrom]
  exact List.range_eq_range'.symm

def pairPayload : Payload 2 [.allgather 1, .bcast 2, .allgather 2] where
  data i j := if j = 0 then [BitVec.ofNat 8 i] else [BitVec.ofNat 8 (16 * i + j), 255]
  targ _ j := if j = 0 then [0, 0] else [0, 0, 0, 0]
  length_data := by
    intro i _ j c h
    match j, h with
    | 0, h | 1, h | 2, h =>
      obtain rfl := Option.some.inj h
      rfl
  length_targ := by
    intro i _ j len h
    match j, h with
    | 0, h | 2, h =>
      obtain ⟨rfl⟩ := Option.some.inj h
      rfl
    | 1, h => cases h

theorem collectives_deliver_pair :
    (2 < 2 ^ 31 ∧ ∀ c ∈ [Call.allgather 1, .bcast 2, .allgather 2], c.len < 2 ^ 30) ∧
      CollectivesDeliver 2 [.allgather 1, .bcast 2, .allgather 2] pairPayload :=
  ⟨by decide, collectives_deliver (by decide) (by decide) (by decide) pairPayload⟩

/-- The string of these bytes has `2 ^ 31` characters, a number that `decode` keeps in an `int`. -/
def longPayload : Payload 1 [.allgather (2 ^ 30)] where
  data _ _ := List.replicate (2 ^ 30) 0
  targ _ _ := List.replicate (2 ^ 30) 0
  length_data := by
    intro i _ j c h
    match j, h with
    | 0, h =>
      rw [← Option.some.inj h]
      exact List.length_replicate
  length_targ := by
    intro i _ j len h
    match j, h with
    | 0, h =>
      rw [← Call.allgather.inj (Option.some.inj h), List.length_replicate, Nat.one_mul]

theorem runs_gniPmiReceive_long {call rank len : ℕ} (kvs : List Char) (buffer : List Byte)
    (hdata : (data rank call).length = len) (hlen : len = 2 ^ 30) :
    Runs (expected n data) r e (gniPmiReceive call kvs rank buffer len)
      [(e, getEvent (call, rank) (rankKey kvs rank) (encodeChars (data rank call))),
        (e, abortEvent)] default e := by
  have hget : Runs (expected n data) r e (kvsGet (call, rank) (rankKey kvs rank))
      [(e, getEvent (call, rank) (rankKey kvs rank) (encodeChars (data rank call)))]
      (encodeChars (data rank call)) e := .op _ (.pure _)
  refine hget.bind ?_
  rw [receiveValue_eq_none (hdata.trans hlen) hdata.le]
  exact .op _ (.pure _)

/-- The only rank puts its string and cannot decode it. -/
theorem runs_job_long {len : ℕ} (p : Payload 1 [.allgather len]) (hlen : len = 2 ^ 30)
    (r : Fin 1) : ∃ key value buf, Runs (expected 1 p.data) r 0 (job _ p r)
      [(0, putEvent (0, 0) key value), (0, commitEvent), (0, .sync ()),
        (1, getEvent (0, 0) key value), (1, abortEvent), (1, observeEvent 0 buf)] () 1 := by
  obtain rfl : r = 0 := Subsingleton.elim _ _
  have hdata : (p.data 0 0).length = len := p.length_data 0 one_pos 0 _ rfl
  have hsend := runs_gniPmiSend p.data (r := (0 : Fin 1)) (e := 0) 0 0 (allgName 0) hdata hlen.le
  have hreceive := runs_gniPmiReceive_long (r := (0 : Fin 1)) (e := 1) (allgName 0)
    (((p.targ 0 0).drop (0 * len)).take len) hdata hlen
  have hblock : Runs (expected 1 p.data) 0 1
      (receiveBlock 0 (allgName 0) len 0 (p.targ 0 0)) _ _ 1 := hreceive.bind (.pure _)
  have hloop : Runs (expected 1 p.data) 0 1
      (Program.loop (receiveBlock 0 (allgName 0) len) 0 1 (p.targ 0 0)) _ _ 1 :=
    hblock.bind (.pure _)
  have hcall : Runs (expected 1 p.data) 0 0
      (pmiAllgather 0 0 0 (p.data 0 0) (p.targ 0 0) len) _ _ _ :=
    hsend.bind (runs_pmiBarrier.bind (hloop.bind (.pure _)))
  exact ⟨_, _, _, hcall.bind ((runs_observe _ _).bind (.pure ()))⟩

theorem putsBeforeGets_long {len : ℕ} (p : Payload 1 [.allgather len]) (hlen : len = 2 ^ 30) :
    PutsBeforeGets (expected 1 p.data) (job _ p) := by
  obtain ⟨key, value, buf, hruns⟩ := runs_job_long p hlen 0
  have htrace (r : Fin 1) := (congrArg (fun r => trace (expected 1 p.data) r 0 (job _ p r))
    (Subsingleton.elim r 0)).trans hruns.trace_eq
  refine ⟨fun r q e e' l l' k v v' h h' => ?_, fun r e l k v h => ?_⟩
  · rw [htrace] at h h'
    have hv : e = 0 ∧ l = (0, 0) ∧ k = key ∧ v = value := by simpa using h
    have hv' : e' = 0 ∧ l' = (0, 0) ∧ k = key ∧ v' = value := by simpa using h'
    rw [hv.2.2.2, hv'.2.2.2]
  · rw [htrace] at h
    have hget : e = 1 ∧ (l = (0, 0) ∧ k = key) ∧ v = value := by simpa using h
    obtain ⟨rfl, ⟨-, rfl⟩, rfl⟩ := hget
    exact ⟨0, 0, (0, 0), [], _, one_pos, htrace 0⟩

theorem not_collectives_deliver_long :
    ¬ ∀ (n : ℕ) (calls : List Call) (p : Payload n calls), n < 2 ^ 31 →
      calls.length < 2 ^ 31 → CollectivesDeliver n calls p := by
  intro h
  obtain ⟨key, value, buf, hruns⟩ := runs_job_long longPayload rfl 0
  obtain ⟨t, ht, -, hhalt⟩ := (h 1 _ longPayload (by norm_num) (by norm_num)).completes _ .refl
  refine (putsBeforeGets_long longPayload rfl).not_halted ht (r := 0) (e := 1) ?_ hhalt
  rw [hruns.trace_eq]
  simp

end CrayTests.Kvs
