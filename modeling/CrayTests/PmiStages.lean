import CrayTests.PmiDelivery

/-!
# Collective calls mixed with barriers

`eventsFrom` describes a job of calls only. A program that uses `ct_utils.c` also waits in plain
barriers between its calls, which moves the epochs of the calls behind them. A `Stage` is what all
ranks do together next, a barrier or a call with the bytes each of them brings. Programs whose
events are those of a list of stages are disciplined.
-/

namespace CrayTests.Kvs
open CInteger RankProgram CommittedStore

variable {n : ℕ} {α : Type} {r : Fin n} {e : ℕ}

inductive Stage (n : ℕ)
  | barrier
  | call (c : Call) (data : Fin n → List Byte)

def Stage.call? : Stage n → Option (Call × (Fin n → List Byte))
  | .barrier => none
  | .call c data => some (c, data)

def callsOf (stages : List (Stage n)) : List Call :=
  (stages.filterMap Stage.call?).map Prod.fst

def payload (stages : List (Stage n)) (i j : ℕ) : List Byte :=
  if h : i < n then ((stages.filterMap Stage.call?)[j]?.map fun c => c.2 ⟨i, h⟩).getD [] else []

def Stage.isBarrier : Stage n → Bool
  | .barrier => true
  | .call _ _ => false

def plainBarriers (stages : List (Stage n)) : ℕ := stages.countP Stage.isBarrier

def epochAfter (stages : List (Stage n)) : ℕ := barriers (callsOf stages) + plainBarriers stages

def later (k : ℕ) (evs : List Ev) : List Ev := evs.map fun ev => (ev.1 + k, ev.2)

def stageEvents (data : ℕ → ℕ → List Byte) (myRank : ℕ) (pre : List (Stage n)) :
    Stage n → List Ev
  | .barrier => [(epochAfter pre, .sync ())]
  | .call c _ => later (plainBarriers pre) (callBody n data myRank (callsOf pre) c)

/-- The events of the stages `stages` that come after the stages `pre`. -/
def stagesEvents (data : ℕ → ℕ → List Byte) (myRank : ℕ) :
    List (Stage n) → List (Stage n) → List Ev
  | _, [] => []
  | pre, s :: stages =>
    stageEvents data myRank pre s ++ stagesEvents data myRank (pre ++ [s]) stages

@[simp] theorem callsOf_append (a b : List (Stage n)) :
    callsOf (a ++ b) = callsOf a ++ callsOf b := by
  simp [callsOf]

@[simp] theorem callsOf_call (c : Call) (data : Fin n → List Byte) :
    callsOf [Stage.call c data] = [c] := rfl

@[simp] theorem callsOf_barrier : callsOf [(Stage.barrier : Stage n)] = [] := rfl

theorem epochAfter_barrier (pre : List (Stage n)) :
    epochAfter (pre ++ [.barrier]) = epochAfter pre + 1 := by
  simp [epochAfter, plainBarriers, Stage.isBarrier, Nat.add_assoc]

theorem epochAfter_call (pre : List (Stage n)) (c : Call) (data : Fin n → List Byte) :
    epochAfter (pre ++ [.call c data]) = barriers (callsOf pre ++ [c]) + plainBarriers pre := by
  simp [epochAfter, plainBarriers, Stage.isBarrier]

/-- What the payload says about a call of the list. -/
theorem payload_eq (pre post : List (Stage n)) (c : Call) (data : Fin n → List Byte) (q : Fin n) :
    payload (pre ++ .call c data :: post) q (callsOf pre).length = data q := by
  have hcall : ((pre ++ .call c data :: post).filterMap Stage.call?)[(callsOf pre).length]? =
      some (c, data) := by
    rw [List.filterMap_append, callsOf, List.length_map]
    simp [Stage.call?]
  rw [payload, dif_pos q.isLt, hcall]
  rfl

theorem stagesEvents_append (data : ℕ → ℕ → List Byte) (myRank : ℕ) (pre a b : List (Stage n)) :
    stagesEvents data myRank pre (a ++ b) =
      stagesEvents data myRank pre a ++ stagesEvents data myRank (pre ++ a) b := by
  induction a generalizing pre with
  | nil => simp [stagesEvents]
  | cons s a ih => simp [stagesEvents, ih, List.append_assoc]

variable {data : ℕ → ℕ → List Byte} {myRank : ℕ} {pre stages : List (Stage n)}

theorem mem_stagesEvents {ev : Ev} (h : ev ∈ stagesEvents data myRank pre stages) :
    ∃ a s b, stages = a ++ s :: b ∧ ev ∈ stageEvents data myRank (pre ++ a) s := by
  induction stages generalizing pre with
  | nil => cases h
  | cons s stages ih =>
    rcases List.mem_append.mp h with h | h
    · exact ⟨[], s, stages, rfl, by rwa [List.append_nil]⟩
    · obtain ⟨a, s', b, rfl, hev⟩ := ih h
      exact ⟨s :: a, s', b, rfl, by rwa [List.append_assoc] at hev⟩

/-- An operation in the events of a stage is one of its call. -/
theorem op_of_mem_stageEvents {s : Stage n} {o : PmiInterface.Op} {x : PmiInterface.Resp o}
    (h : (e, .op o x) ∈ stageEvents data myRank pre s) :
    ∃ c d e₀, s = .call c d ∧ e = e₀ + plainBarriers pre ∧
      (e₀, .op o x) ∈ callEvents n data myRank (callsOf pre) c := by
  cases s with
  | barrier => cases (Prod.mk.inj (List.mem_singleton.mp h)).2
  | call c d =>
    obtain ⟨⟨e₀, ev⟩, hmem, heq⟩ := List.mem_map.mp h
    obtain ⟨rfl, rfl⟩ := Prod.mk.inj heq
    exact ⟨c, d, e₀, rfl, rfl, List.mem_append_left _ hmem⟩

theorem op_of_mem_stagesEvents {o : PmiInterface.Op} {x : PmiInterface.Resp o}
    (h : (e, .op o x) ∈ stagesEvents data myRank [] stages) :
    ∃ a c d b e₀, stages = a ++ .call c d :: b ∧ e = e₀ + plainBarriers a ∧
      (e₀, .op o x) ∈ callEvents n data myRank (callsOf a) c := by
  obtain ⟨a, s, b, rfl, hev⟩ := mem_stagesEvents h
  rw [List.nil_append] at hev
  obtain ⟨c, d, e₀, rfl, he, hmem⟩ := op_of_mem_stageEvents hev
  exact ⟨a, c, d, b, e₀, rfl, he, hmem⟩

theorem callBody_eq_put_cons (data : ℕ → ℕ → List Byte) {myRank : ℕ} (pre : List Call) {c : Call}
    (h : c.isAllgather = true ∨ myRank = 0) :
    ∃ C, callBody n data myRank pre c =
      (barriers pre, callPut data pre c myRank) :: (barriers pre, commitEvent) :: C := by
  cases c with
  | allgather len => exact ⟨_, rfl⟩
  | bcast len =>
    obtain rfl := h.resolve_left (by simp [Call.isAllgather])
    exact ⟨_, rfl⟩

variable (data) in
/-- A rank commits its bytes in the stage itself. -/
theorem stagesEvents_published {a b : List (Stage n)} {c : Call} {d : Fin n → List Byte}
    (hsplit : stages = a ++ .call c d :: b) (h : c.isAllgather = true ∨ myRank = 0) :
    ∃ C, stagesEvents data myRank [] stages = stagesEvents data myRank [] a ++
      (epochAfter a, putEvent ((callsOf a).length, myRank) (callKey (callsOf a) c myRank)
        (encodeChars (data myRank (callsOf a).length))) :: (epochAfter a, commitEvent) :: C := by
  obtain ⟨C, hC⟩ := callBody_eq_put_cons (n := n) data (callsOf a) h
  refine ⟨later (plainBarriers a) C ++ stagesEvents data myRank (a ++ [.call c d]) b, ?_⟩
  rw [hsplit, stagesEvents_append, List.nil_append, stagesEvents, stageEvents, hC]
  rfl

theorem callsOf_split {a b : List (Stage n)} {c : Call} {d : Fin n → List Byte}
    (hsplit : stages = a ++ .call c d :: b) :
    callsOf stages = callsOf a ++ c :: callsOf b := by
  rw [hsplit, ← List.singleton_append, callsOf_append, callsOf_append, callsOf_call,
    List.singleton_append]

section Functions

variable {P : ℕ → ℕ → List Byte} {d : Fin n → List Byte} {len : ℕ}

theorem runs_stage {p : Pmi n α} {a : α} {c : Call}
    (h : Runs (expected n P) r (barriers (callsOf pre)) p (callBody n P r (callsOf pre) c) a
      (barriers (callsOf pre ++ [c]))) :
    Runs (expected n P) r (epochAfter pre) p (stageEvents P r pre (.call c d)) a
      (epochAfter (pre ++ [.call c d])) := by
  rw [epochAfter_call]
  exact h.delay (fun _ _ => rfl) (plainBarriers pre)

variable (hn : n < 2 ^ 31) (hP : ∀ q : Fin n, P q (callsOf pre).length = d q)
  (hd : ∀ q, (d q).length = len) (hlen : len < 2 ^ 30)

include hn hP hd hlen

theorem runs_stage_allgather {targ : List Byte} (htarg : targ.length = n * len)
    (hcnt : counter (callsOf pre) (.allgather len) < 2 ^ 31) :
    Runs (expected n P) r (epochAfter pre)
      (pmiAllgather (callsOf pre).length r (counter (callsOf pre) (.allgather len)) (d r) targ len)
      (stageEvents P r pre (.call (.allgather len) d))
      (blocks P (callsOf pre).length n, int32 (counter (callsOf pre) (.allgather len) + 1))
      (epochAfter (pre ++ [.call (.allgather len) d])) := by
  refine runs_stage ?_
  rw [← hP r]
  exact runs_pmiAllgather len hn (fun i hi => (congrArg _ (hP ⟨i, hi⟩)).trans (hd _)) htarg hlen hcnt

theorem runs_stage_bcast (hcnt : counter (callsOf pre) (.bcast len) < 2 ^ 31) :
    Runs (expected n P) r (epochAfter pre)
      (pmiBcast (callsOf pre).length r (counter (callsOf pre) (.bcast len)) (d r) (int32 len))
      (stageEvents P r pre (.call (.bcast len) d))
      (P 0 (callsOf pre).length, int32 (counter (callsOf pre) (.bcast len) + 1))
      (epochAfter (pre ++ [.call (.bcast len) d])) := by
  refine runs_stage ?_
  rw [← hP r]
  exact runs_pmiBcast len hn (fun i hi => (congrArg _ (hP ⟨i, hi⟩)).trans (hd _)) hlen hcnt

end Functions

/-- Two calls of a list under one key are the same call. -/
theorem split_eq_of_callKey {a a' b b' : List (Stage n)} {c c' : Call}
    {d d' : Fin n → List Byte} {i i' : ℕ} (hsplit : stages = a ++ .call c d :: b)
    (hsplit' : stages = a' ++ .call c' d' :: b')
    (h : callKey (callsOf a) c i = callKey (callsOf a') c' i') :
    (callsOf a).length = (callsOf a').length ∧ i = i' := by
  obtain ⟨hpre, -, hi⟩ := callKey_inj (callsOf_split hsplit) (callsOf_split hsplit') h
  exact ⟨congrArg List.length hpre, hi⟩

/-- Programs that run through the same stages are disciplined. -/
theorem disciplined_of_stages {code : Fin n → Pmi n α}
    (hruns : ∀ r : Fin n, ∃ a, Runs (expected n data) r 0 (code r)
      (stagesEvents data r [] stages) a (epochAfter stages)) :
    Disciplined (expected n data) code where
  unique r q e e' l l' k v v' h h' := by
    obtain ⟨_, hr⟩ := hruns r
    obtain ⟨_, hq⟩ := hruns q
    rw [hr.trace_eq] at h
    rw [hq.trace_eq] at h'
    obtain ⟨a, c, d, b, _, hsplit, -, h⟩ := op_of_mem_stagesEvents h
    obtain ⟨a', c', d', b', _, hsplit', -, h'⟩ := op_of_mem_stagesEvents h'
    obtain ⟨-, hk, hv⟩ := put_of_mem_callEvents h
    obtain ⟨-, hk', hv'⟩ := put_of_mem_callEvents h'
    obtain ⟨hlen, hrank⟩ := split_eq_of_callKey hsplit hsplit' (hk.symm.trans hk')
    rw [hv, hv', hrank, hlen]
  published r e l k v h := by
    obtain ⟨_, hr⟩ := hruns r
    rw [hr.trace_eq] at h
    obtain ⟨a, c, d, b, e₀, hsplit, rfl, hget⟩ := op_of_mem_stagesEvents h
    obtain ⟨i, hi, hkind, rfl, rfl, rfl, rfl⟩ := get_of_mem_callEvents r.isLt hget
    obtain ⟨C, hC⟩ := stagesEvents_published data hsplit hkind
    obtain ⟨_, hq⟩ := hruns ⟨i, hi⟩
    refine ⟨⟨i, hi⟩, epochAfter a, ((callsOf a).length, i), _, C, ?_, hq.trace_eq.trans hC⟩
    rw [epochAfter]
    omega
  safe r e h := by
    obtain ⟨_, hr⟩ := hruns r
    rw [hr.trace_eq] at h
    obtain ⟨a, c, d, b, e₀, -, -, h⟩ := op_of_mem_stagesEvents h
    exact abort_not_mem_callEvents _ _ _ h
  even r q := by
    obtain ⟨_, hr⟩ := hruns r
    obtain ⟨_, hq⟩ := hruns q
    rw [hr.lastEpoch_eq, hq.lastEpoch_eq]

end CrayTests.Kvs
