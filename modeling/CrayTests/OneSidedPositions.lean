import CrayTests.OneSidedPlan

/-!
# Positions in `rdm_one_sided`

Every thread has done all operations of the epochs before its own and the first ones of that epoch.
When one thread is in front of an operation all threads are in the same epoch, so the operations of
a thread can be counted by the position of any other one.
-/

namespace CrayTests.OneSidedTest

open CInteger RankProgram
open PingpongTest (rank peer peer_peer)

variable {threads : ℕ} {E : Setup threads} {o : Options} {p q : Fin (2 * threads)} {e k : ℕ}
variable {s s' : State (machine E) (List Result)} {sBuf rBuf : Fin (2 * threads) → Buffer}
variable {op : Op} {next : op.Resp → Thread threads (List Result)} {part : List Op}

abbrev Run (E : Setup threads) (o : Options) (sBuf rBuf : Fin (2 * threads) → Buffer)
    (s : State (machine E) (List Result)) : Prop :=
  Reachable (Mem.init sBuf rBuf) (bandwidths o) s

def before (o : Options) (p : Fin (2 * threads)) (e : ℕ) : List (ℕ × Op) :=
  (List.range e).flatMap fun d => inEpoch d (stage o p d)

/-- The thread has done `part` of epoch `e` after the epochs before. -/
structure At (o : Options) (s : State (machine E) (List Result)) (p : Fin (2 * threads)) (e : ℕ)
    (part : List Op) : Prop where
  isPrefix : part <+: stage o p e
  ops_eq : opsOf s p = before o p e ++ inEpoch e part

theorem before_succ (e : ℕ) : before o p (e + 1) = before o p e ++ inEpoch e (stage o p e) := by
  unfold before
  rw [List.range_succ, List.flatMap_append, List.flatMap_singleton]

theorem stage_eq_nil (he : 2 * numSizes < e) : stage o p e = [] := by
  unfold stage
  rw [if_neg (by omega), if_neg (by omega)]

/-- The stages after the last one are empty. -/
theorem plan_eq_before : plan o p = before o p (2 * numSizes + 2) := by
  rw [before_succ, stage_eq_nil (by omega)]
  exact (List.append_nil _).symm

theorem epoch_le (hs : Run E o sBuf rBuf s) (p : Fin (2 * threads)) :
    (s.proc p).epoch ≤ 2 * numSizes + 1 := by
  have hhorizon := ((orderly_bandwidths E o).follows hs).horizon p
  rw [(conforms_bandwidths E o p).lastEpoch_eq] at hhorizon
  exact (le_lastEpoch _ _ _ _).trans_eq hhorizon

theorem fst_le_of_mem_opsOf (hs : Run E o sBuf rBuf s) {x : ℕ × Op} (hx : x ∈ opsOf s p) :
    x.1 ≤ (s.proc p).epoch := by
  obtain ⟨y, hy⟩ := mem_opsIn.mp hx
  exact ((orderly_bandwidths E o).follows hs).past p _ _ hy

theorem le_fst_of_mem_rest {x : ℕ × Op} (hx : x ∈ opsIn (trace (predicted E) p (s.proc p).epoch
    (s.proc p).code)) : (s.proc p).epoch ≤ x.1 := by
  obtain ⟨y, hy⟩ := mem_opsIn.mp hx
  exact le_of_mem_trace _ _ hy

/-- A thread that has entered `e` barriers is in epoch `e`, and has done nothing of it if it still
waits in the barrier. -/
theorem position (hs : Run E o sBuf rBuf s) (p : Fin (2 * threads)) :
    ∃ part, At o s p (s.proc p).sent.length part ∧
      ((s.proc p).sent.length = (s.proc p).epoch ∨
        (s.proc p).sent.length = (s.proc p).epoch + 1 ∧ part = []) := by
  have hsplit := (orderly_bandwidths E o).opsOf_append hs p
  rw [plan_eq_before] at hsplit
  have hlt := epoch_le hs p
  rcases ((orderly_bandwidths E o).follows hs).waits p with hw | ⟨c, next, hcode, hw⟩
  · obtain ⟨part, hpart, hops⟩ := split_at_epoch hsplit (e := (s.proc p).epoch) (by omega)
      (fun x hx => fst_le_of_mem_opsOf hs hx) fun x hx => le_fst_of_mem_rest hx
    rw [hw]
    exact ⟨part, ⟨hpart, hops⟩, .inl rfl⟩
  · have hhorizon := ((orderly_bandwidths E o).follows hs).horizon p
    rw [(conforms_bandwidths E o p).lastEpoch_eq, hcode, lastEpoch] at hhorizon
    have hle := le_lastEpoch (predicted E) p ((s.proc p).epoch + 1)
      (next ((predicted E).gathered (s.proc p).epoch))
    obtain ⟨part, hpart, hops⟩ := split_at_epoch hsplit (e := (s.proc p).epoch + 1) (by omega)
      (fun x hx => (fst_le_of_mem_opsOf hs hx).trans (Nat.le_succ _)) fun x hx => by
        obtain ⟨y, hy⟩ := mem_opsIn.mp hx
        rw [hcode, trace] at hy
        rcases List.mem_cons.mp hy with heq | hy
        · exact absurd (Prod.mk.inj heq).2 (by simp)
        · exact le_of_mem_trace _ _ hy
    have hnil : part = [] := by
      refine List.eq_nil_iff_forall_not_mem.mpr fun x hx => ?_
      have hmem : ((s.proc p).epoch + 1, x) ∈ opsOf s p := by
        rw [hops]
        exact List.mem_append_right _ (List.mem_map_of_mem hx)
      have := fst_le_of_mem_opsOf hs hmem
      omega
    rw [hw]
    exact ⟨part, ⟨hpart, hops⟩, .inr ⟨rfl, hnil⟩⟩

/-- When a thread does not wait in a barrier, every thread is in its epoch. -/
theorem together (hs : Run E o sBuf rBuf s) (hp : (s.proc p).sent.length = (s.proc p).epoch)
    (q : Fin (2 * threads)) : ∃ part, At o s q (s.proc p).epoch part := by
  have hf := (orderly_bandwidths E o).follows hs
  have hpq := hf.behind p q
  have hqp := hf.behind q p
  obtain ⟨part, hat, hsent⟩ := position hs q
  rcases hpq.eq_or_lt with heq | hlt
  · rw [← heq] at hat
    exact ⟨part, hat⟩
  · -- it waits in the barrier behind that epoch
    obtain ⟨hsucc, rfl⟩ := hsent.resolve_left (by omega)
    have hepoch : (s.proc q).sent.length = (s.proc p).epoch + 1 := by omega
    rw [hepoch] at hat
    refine ⟨stage o q (s.proc p).epoch, List.prefix_refl _, ?_⟩
    rw [hat.ops_eq, before_succ]
    exact List.append_nil _

theorem sent_eq_epoch (hs : Run E o sBuf rBuf s) (hcode : (s.proc p).code = .op op next) :
    (s.proc p).sent.length = (s.proc p).epoch := by
  rcases ((orderly_bandwidths E o).follows hs).waits p with hw | ⟨c, next', hcode', -⟩
  · exact hw
  · rw [hcode] at hcode'
    cases hcode'

/-- The next operation of a thread follows those it has done in its epoch. -/
theorem position_op (hs : Run E o sBuf rBuf s) (hcode : (s.proc p).code = .op op next) :
    ∃ part, part ++ [op] <+: stage o p (s.proc p).epoch ∧ At o s p (s.proc p).epoch part := by
  have hsplit := (orderly_bandwidths E o).opsOf_append hs p
  rw [plan_eq_before, hcode] at hsplit
  have htrace : opsIn (trace (predicted E) p (s.proc p).epoch (.op op next)) =
      [((s.proc p).epoch, op)] ++ opsIn (trace (predicted E) p (s.proc p).epoch
        (next ((predicted E).resp p op))) := rfl
  rw [htrace, ← List.append_assoc] at hsplit
  have hlt := epoch_le hs p
  obtain ⟨part, hpart, hops⟩ := split_at_epoch hsplit (e := (s.proc p).epoch) (by omega)
    (fun x hx => by
      rcases List.mem_append.mp hx with hx | hx
      · exact fst_le_of_mem_opsOf hs hx
      · rw [List.mem_singleton.mp hx])
    (fun x hx => by
      obtain ⟨y, hy⟩ := mem_opsIn.mp hx
      exact le_of_mem_trace _ _ hy)
  rcases List.eq_nil_or_concat part with rfl | ⟨part', op', rfl⟩
  · -- then the operation were one of an earlier epoch
    have hmem : ((s.proc p).epoch, op) ∈ opsOf s p ++ [((s.proc p).epoch, op)] := by simp
    rw [hops] at hmem
    simp at hmem
  · rw [List.concat_eq_append] at hops hpart
    unfold inEpoch at hops
    rw [List.map_append, ← List.append_assoc] at hops
    obtain ⟨hinit, hop⟩ := List.append_inj' hops rfl
    obtain ⟨-, rfl⟩ := Prod.mk.inj (List.singleton_inj.mp hop)
    exact ⟨part', hpart, (List.prefix_append _ _).trans hpart, hinit⟩

theorem closed_before (o : Options) (p : Fin (2 * threads)) (e : ℕ) :
    Due.Closed o.windowSize ((before o p e).map Prod.snd) := by
  unfold before
  rw [map_snd_flatMap]
  exact Due.Closed.flatMap fun d _ => closed_stage o p d

namespace At

theorem due_eq (h : At o s p e part) : due s p = Due.after {} part := by
  unfold due
  rw [h.ops_eq, List.map_append, Due.after_append, (closed_before o p e).2, map_snd_inEpoch]

theorem legal (h : At o s p e part) : Due.Legal o.windowSize {} part := by
  obtain ⟨rest, hrest⟩ := h.isPrefix
  have hclosed := (closed_stage o p e).1
  rw [← hrest, Due.legal_append] at hclosed
  exact hclosed.1

/-- Filling buffers and giving them up leave nothing due. -/
theorem due_even (h : At o s p (2 * k) part) : due s p = {} := by
  rw [h.due_eq]
  have hsingle : ∀ x : Op, Due.step {} x = {} → part <+: [x] → Due.after {} part = {} := by
    intro x hx hpre
    rw [← List.nil_append [x]] at hpre
    rcases List.prefix_concat_iff.mp hpre with rfl | hnil
    · exact hx
    · rw [List.prefix_nil.mp hnil]
      rfl
  have hpre := h.isPrefix
  rcases lt_trichotomy k numSizes with hk | rfl | hk
  · rw [stage_even hk] at hpre
    exact hsingle _ rfl hpre
  · rw [stage_last] at hpre
    exact hsingle _ rfl hpre
  · rw [stage_eq_nil (by omega)] at hpre
    rw [List.prefix_nil.mp hpre]
    rfl

end At

/-- While something is due to a thread, every thread is at the same size. -/
theorem exists_size (hs : Run E o sBuf rBuf s) (hp : due s p ≠ {}) :
    ∃ k < numSizes, ∀ q, ∃ part, At o s q (2 * k + 1) part := by
  obtain ⟨part, hat, hsent⟩ := position hs p
  have hne : part ≠ [] := fun hnil => hp (by rw [hat.due_eq, hnil]; rfl)
  have hsent := hsent.resolve_right fun h => hne h.2
  obtain ⟨k, hk⟩ | ⟨k, hk⟩ := Nat.even_or_odd (s.proc p).epoch
  · rw [hsent, hk, ← two_mul] at hat
    exact absurd hat.due_even hp
  · refine ⟨k, ?_, fun q => ?_⟩
    · by_contra hlt
      have hpre := hat.isPrefix
      rw [stage_eq_nil (by omega)] at hpre
      exact hne (List.prefix_nil.mp hpre)
    · rw [← hk]
      exact together hs hsent q

def Op.isTouch : Op → Bool
  | .touch _ => true
  | _ => false

def performed (s : State (machine E) (List Result)) (p : Fin (2 * threads)) : List Op :=
  (opsOf s p).map Prod.snd

def performedBefore (o : Options) (p : Fin (2 * threads)) (e : ℕ) : List Op :=
  (before o p e).map Prod.snd

theorem performed_answer (mem : Mem threads) (x : op.Resp) (rest : Thread threads (List Result)) :
    performed (s.set p mem ((s.proc p).answer op x rest)) = addOp (performed s) p op :=
  opsOf_answer mem x rest

theorem performed_enter (c : Unit) :
    performed (s.set p s.mem ((s.proc p).enter c)) = performed s := by
  unfold performed
  rw [opsOf_enter]

theorem performed_leave (c : Unit) (rest : Thread threads (List Result)) :
    performed (s.set p s.mem ((s.proc p).leave c rest)) = performed s := by
  unfold performed
  rw [opsOf_leave]

section Counts

variable {c : Counts} {kind : Op → Bool}

theorem performedBefore_succ (e : ℕ) :
    performedBefore o p (e + 1) = performedBefore o p e ++ stage o p e := by
  unfold performedBefore
  rw [before_succ, List.map_append, map_snd_inEpoch]

theorem performedBefore_double (k : ℕ) : performedBefore o p (2 * (k + 1)) =
    performedBefore o p (2 * k) ++ (stage o p (2 * k) ++ stage o p (2 * k + 1)) := by
  have hdouble : 2 * (k + 1) = 2 * k + 1 + 1 := by omega
  rw [hdouble, performedBefore_succ, performedBefore_succ, List.append_assoc]

/-- What every size has equally many of. -/
theorem performedBefore_two_mul {a : ℕ} (hsize : ∀ k < numSizes,
    (stage o p (2 * k)).countP kind + (stage o p (2 * k + 1)).countP kind = a)
    (hk : k ≤ numSizes) : (performedBefore o p (2 * k)).countP kind = k * a := by
  induction k with
  | zero => simp [performedBefore, before]
  | succ k ih =>
    rw [performedBefore_double, List.countP_append, List.countP_append, ih (by omega),
      hsize k (by omega), Nat.succ_mul]

theorem At.performed_eq (h : At o s p e part) :
    performed s p = performedBefore o p e ++ part := by
  unfold performed performedBefore
  rw [h.ops_eq, List.map_append, map_snd_inEpoch]

theorem mem_writeOps (h : op ∈ writeOps c k) :
    op = .getTimeUsec (2 * k) ∨ op = .fiWrite (2 ^ k) ∨ op = .readScq := by
  obtain ⟨i, -, hop⟩ := List.mem_flatMap.mp h
  unfold roundOps windowOps at hop
  rcases List.mem_append.mp hop with hop | hop
  · split_ifs at hop
    · exact .inl (List.mem_singleton.mp hop)
    · cases hop
  · rcases List.mem_append.mp hop with hop | hop
    · exact .inr (.inl (List.eq_of_mem_replicate hop))
    · exact .inr (.inr (List.eq_of_mem_replicate hop))

theorem countP_writeOps (hclock : kind (.getTimeUsec (2 * k)) = false)
    (hwrite : kind (.fiWrite (2 ^ k)) = false) (hread : kind .readScq = false) :
    (writeOps c k).countP kind = 0 := by
  refine List.countP_eq_zero.mpr fun op hop => ?_
  rcases mem_writeOps hop with rfl | rfl | rfl
  · simp [hclock]
  · simp [hwrite]
  · simp [hread]

theorem countP_isWrite_writeOps (c : Counts) (k : ℕ) :
    (writeOps c k).countP Op.isWrite = (c.loop + c.skip) * c.windowSize := by
  have hround (i : ℕ) : (roundOps c k i).countP Op.isWrite = c.windowSize := by
    unfold roundOps windowOps
    rw [List.countP_append, List.countP_append, List.countP_replicate, List.countP_replicate]
    split_ifs <;> simp_all [Op.isWrite]
  unfold writeOps
  rw [List.countP_flatMap]
  simp [Function.comp_def, hround]

theorem touches_threadOps (c : Counts) (k : ℕ) (p : Fin (2 * threads)) :
    (threadOps c k p).countP Op.isTouch = 0 := by
  have hwrites : (writeOps c k).countP Op.isTouch = 0 := countP_writeOps rfl rfl rfl
  unfold threadOps transferOps
  split_ifs <;> simp only [List.countP_append, hwrites] <;> rfl

/-- Every thread sends and receives once for a size. -/
theorem handshake_threadOps {x : Op} (hx : x = .fiSend ∨ x = .fiRecv) (c : Counts) (k : ℕ)
    (p : Fin (2 * threads)) : (threadOps c k p).count x = 1 := by
  have hwrites : (writeOps c k).count x = 0 := by
    rcases hx with rfl | rfl <;> exact countP_writeOps rfl rfl rfl
  unfold threadOps transferOps
  rcases hx with rfl | rfl
  · split_ifs <;> simp only [List.count_append, hwrites] <;> rfl
  · split_ifs <;> simp only [List.count_append, hwrites] <;> rfl

theorem writes_threadOps (c : Counts) (k : ℕ) (p : Fin (2 * threads)) :
    (threadOps c k p).countP Op.isWrite =
      if rank p = 0 then (c.loop + c.skip) * c.windowSize else 0 := by
  unfold threadOps transferOps
  split_ifs
  · simp [countP_isWrite_writeOps, Op.isWrite]
  · rfl

theorem touches_before (hk : k ≤ numSizes) :
    (performedBefore o p (2 * k)).countP Op.isTouch = k := by
  rw [performedBefore_two_mul (a := 1) (fun k hk => ?_) hk, Nat.mul_one]
  rw [stage_even hk, stage_odd hk, touches_threadOps]
  rfl

theorem handshake_before {x : Op} (hx : x = .fiSend ∨ x = .fiRecv) (hk : k ≤ numSizes) :
    (performedBefore o p (2 * k)).count x = k := by
  rw [List.count, performedBefore_two_mul (a := 1) (fun k hk => ?_) hk, Nat.mul_one]
  have hthread := handshake_threadOps hx (o.counts k) k p
  rw [List.count] at hthread
  rw [stage_even hk, stage_odd hk, hthread]
  rcases hx with rfl | rfl <;> rfl

theorem writes_before_succ (hk : k < numSizes) :
    (performedBefore o p (2 * (k + 1))).countP Op.isWrite =
      (performedBefore o p (2 * k)).countP Op.isWrite +
      if rank p = 0 then ((o.counts k).loop + (o.counts k).skip) * o.windowSize else 0 := by
  rw [performedBefore_double, List.countP_append, List.countP_append, stage_even hk,
    stage_odd hk, writes_threadOps, counts_windowSize]
  simp [Op.isWrite]

end Counts

namespace At

/-- Nothing of a kind that the stage has none of. -/
theorem countP_of_stage {kind : Op → Bool} (h : At o s p e part)
    (hstage : (stage o p e).countP kind = 0) :
    (performed s p).countP kind = (performedBefore o p e).countP kind := by
  have hpart : part.countP kind = 0 :=
    Nat.eq_zero_of_le_zero (h.isPrefix.sublist.countP_le.trans_eq hstage)
  rw [h.performed_eq, List.countP_append, hpart, Nat.add_zero]

theorem touches_odd (h : At o s p (2 * k + 1) part) (hk : k < numSizes) :
    (performed s p).countP Op.isTouch = k + 1 := by
  rw [h.countP_of_stage (by rw [stage_odd hk, touches_threadOps]), performedBefore_succ,
    List.countP_append, touches_before hk.le, stage_even hk]
  rfl

theorem recvs_odd (h : At o s p (2 * k + 1) part) (hk : k < numSizes) :
    (performed s p).count .fiRecv = k + part.count .fiRecv := by
  rw [h.performed_eq, List.count_append, performedBefore_succ, List.count_append,
    handshake_before (.inr rfl) hk.le, stage_even hk]
  rfl

/-- Only buffers are filled and given up in the even epochs. -/
theorem countP_even {kind : Op → Bool} (h : At o s p (2 * k) part)
    (htouch : ∀ size, kind (.touch size) = false) (hfini : kind .fini = false) :
    (performed s p).countP kind = (performedBefore o p (2 * k)).countP kind := by
  refine h.countP_of_stage ?_
  unfold stage
  rw [if_pos (by omega : 2 * k % 2 = 0)]
  split_ifs <;> simp [htouch, hfini]

end At

end CrayTests.OneSidedTest
