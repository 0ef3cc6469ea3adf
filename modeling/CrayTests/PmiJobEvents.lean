import CrayTests.PmiCallEvents

/-!
# The events of a whole job

Along `expected` the program of a rank performs the events of its calls one call after the other.
A put, get or observation in a trace therefore belongs to one call, whose position, kind and rank
the label and the key name: two puts of a job under one key are the same put.
-/

namespace CrayTests.Kvs
open CInteger RankProgram CommittedStore

variable {n : ℕ} {calls : List Call} {data : ℕ → ℕ → List Byte} {r : Fin n} {e : ℕ}

theorem counter_append_self (pre : List Call) (c : Call) :
    counter (pre ++ [c]) c = counter pre c + 1 := by
  simp [counter]

theorem counter_append_other {pre : List Call} {c : Call} (c' : Call)
    (h : c.isAllgather ≠ c'.isAllgather) : counter (pre ++ [c]) c' = counter pre c' := by
  simp [counter, h]

theorem int32_counter_succ {pre post : List Call} {c : Call}
    (h : (pre ++ c :: post).length < 2 ^ 31) :
    int32 (counter pre c + 1) = counter (pre ++ [c]) c := by
  have hle : counter pre c ≤ pre.length := List.countP_le_length
  simp only [List.length_append, List.length_cons] at h
  rw [counter_append_self, int32_eq_self (by omega) (by omega)]
  push_cast
  rfl

theorem runs_observe (j : ℕ) (buf : List Byte) :
    Runs (expected n data) r e (observe j buf) [(e, observeEvent j buf)] () e :=
  .op _ (.pure ())

theorem runs_runCalls {targ : ℕ → ℕ → List Byte} (hn : n < 2 ^ 31) (pre post : List Call)
    (hcalls : (pre ++ post).length < 2 ^ 31) (hlen : ∀ c ∈ post, c.len < 2 ^ 30)
    (hdata : ∀ i < n, ∀ j c, (pre ++ post)[j]? = some c → (data i j).length = c.len)
    (htarg : ∀ i < n, ∀ j len, (pre ++ post)[j]? = some (.allgather len) →
      (targ i j).length = n * len) :
    Runs (expected n data) r (barriers pre)
      (runCalls data targ r post pre.length (counter pre (.allgather 0)) (counter pre (.bcast 0)))
      (eventsFrom n data r pre post) () (barriers (pre ++ post)) := by
  induction post generalizing pre with
  | nil =>
    rw [List.append_nil]
    exact .pure ()
  | cons c post ih =>
    have hhere : (pre ++ c :: post)[pre.length]? = some c := by simp
    have hd : ∀ i < n, (data i pre.length).length = c.len := fun i hi => hdata i hi _ c hhere
    have hcnt : counter pre c < 2 ^ 31 := counter_lt hcalls
    have hc := hlen c List.mem_cons_self
    have hint := int32_counter_succ hcalls
    rw [List.append_cons] at hcalls hdata htarg
    have hrest := ih (pre ++ [c]) hcalls (fun c' h => hlen c' (List.mem_cons_of_mem _ h)) hdata htarg
    rw [← List.append_cons, List.length_append, List.length_singleton] at hrest
    cases c with
    | allgather len =>
      have hcall := runs_pmiAllgather (r := r) len hn hd
        (htarg r r.isLt _ len (by rw [← List.append_cons]; exact hhere)) hc hcnt
      rw [hint] at hcall
      rw [counter_append_other (.bcast 0) (by simp [Call.isAllgather])] at hrest
      refine Runs.congr ?_ (Runs.bind hcall (Runs.bind (runs_observe _ _) hrest))
      simp [eventsFrom, callEvents, callResult]
    | bcast len =>
      have hcall := runs_pmiBcast (r := r) len hn hd hc hcnt
      rw [hint] at hcall
      rw [counter_append_other (.allgather 0) (by simp [Call.isAllgather])] at hrest
      refine Runs.congr ?_ (Runs.bind hcall (Runs.bind (runs_observe _ _) hrest))
      simp [eventsFrom, callEvents, callResult]

theorem runs_job (hn : n < 2 ^ 31) (hcalls : calls.length < 2 ^ 31)
    (hlen : ∀ c ∈ calls, c.len < 2 ^ 30) (p : Payload n calls) (r : Fin n) :
    Runs (expected n p.data) r 0 (job calls p r) (eventsFrom n p.data r [] calls) ()
      (barriers calls) :=
  runs_runCalls hn [] calls hcalls hlen p.length_data p.length_targ

theorem mem_eventsFrom {myRank : ℕ} {pre post : List Call} {ev : Ev}
    (h : ev ∈ eventsFrom n data myRank pre post) :
    ∃ l c l', post = l ++ c :: l' ∧ ev ∈ callEvents n data myRank (pre ++ l) c := by
  induction post generalizing pre with
  | nil => cases h
  | cons c post ih =>
    rcases List.mem_append.mp h with h | h
    · exact ⟨[], c, post, rfl, by simpa using h⟩
    · obtain ⟨l, c', l', rfl, hev⟩ := ih h
      exact ⟨c :: l, c', l', rfl, by simpa using hev⟩

variable (data) in
theorem eventsFrom_split (myRank : ℕ) (pre l l' : List Call) (c : Call) :
    ∃ C, eventsFrom n data myRank pre (l ++ c :: l') =
      eventsFrom n data myRank pre l ++ callEvents n data myRank (pre ++ l) c ++ C := by
  induction l generalizing pre with
  | nil => exact ⟨eventsFrom n data myRank (pre ++ [c]) l', by simp [eventsFrom]⟩
  | cons c' l ih =>
    obtain ⟨C, hC⟩ := ih (pre ++ [c'])
    exact ⟨C, by simp [eventsFrom, hC]⟩

theorem put_of_mem_callEvents {myRank : ℕ} {pre : List Call} {c : Call} {l : Label}
    {k : List Char} {v : List Byte} (h : (e, putEvent l k v) ∈ callEvents n data myRank pre c) :
    l = (pre.length, myRank) ∧ k = callKey pre c myRank ∧
      v = encodeChars (data myRank pre.length) := by
  cases c with
  | allgather len =>
    have h' : e = barriers pre ∧ l = (pre.length, myRank) ∧
        k = callKey pre (.allgather len) myRank ∧ v = encodeChars (data myRank pre.length) := by
      simpa [callEvents, callBody, callPut, callGet] using h
    exact h'.2
  | bcast len =>
    by_cases hr : myRank = 0
    · have h' : e = barriers pre ∧ l = (pre.length, 0) ∧ k = callKey pre (.bcast len) 0 ∧
          v = encodeChars (data 0 pre.length) := by
        simpa [callEvents, callBody, callPut, hr] using h
      rw [hr]
      exact h'.2
    · simp [callEvents, callBody, callGet, hr] at h

theorem get_of_mem_callEvents {myRank : ℕ} {pre : List Call} {c : Call} {l : Label}
    {k : List Char} {v : List Byte} (hr : myRank < n)
    (h : (e, getEvent l k v) ∈ callEvents n data myRank pre c) :
    ∃ i < n, (c.isAllgather = true ∨ i = 0) ∧ e = barriers pre + 1 ∧ l = (pre.length, i) ∧
      k = callKey pre c i ∧ v = encodeChars (data i pre.length) := by
  cases c with
  | allgather len =>
    have h' : ∃ i < n, e = barriers pre + 1 ∧ l = (pre.length, i) ∧
        k = callKey pre (.allgather len) i ∧ v = encodeChars (data i pre.length) := by
      simpa [callEvents, callBody, callPut, callGet, and_assoc] using h
    obtain ⟨i, hi, he, hl⟩ := h'
    exact ⟨i, hi, Or.inl rfl, he, hl⟩
  | bcast len =>
    by_cases h0 : myRank = 0
    · simp [callEvents, callBody, callPut, h0] at h
    · have h' : e = barriers pre + 1 ∧ l = (pre.length, 0) ∧ k = callKey pre (.bcast len) 0 ∧
          v = encodeChars (data 0 pre.length) := by
        simpa [callEvents, callBody, callGet, h0, and_assoc] using h
      exact ⟨0, by omega, Or.inr rfl, h'⟩

theorem observe_of_mem_callEvents {myRank : ℕ} {pre : List Call} {c : Call} {j : ℕ}
    {buf : List Byte} (h : (e, observeEvent j buf) ∈ callEvents n data myRank pre c) :
    j = pre.length ∧ buf = callResult n data pre.length c := by
  have hbody : (e, observeEvent j buf) ∉ callBody n data myRank pre c := by
    cases c with
    | allgather len => simp [callBody, callPut, callGet]
    | bcast len =>
      by_cases h0 : myRank = 0 <;> simp [callBody, callPut, callGet, h0]
  have hlast := (List.mem_append.mp h).resolve_left hbody
  have h' : e = barriers (pre ++ [c]) ∧ j = pre.length ∧
      buf = callResult n data pre.length c := by
    simpa [observeEvent] using hlast
  exact h'.2

theorem abort_not_mem_callEvents (myRank : ℕ) (pre : List Call) (c : Call) :
    (e, abortEvent) ∉ callEvents n data myRank pre c := by
  cases c with
  | allgather len => simp [callEvents, callBody, callPut, callGet]
  | bcast len =>
    by_cases h0 : myRank = 0 <;>
      simp [callEvents, callBody, callPut, callGet, h0]

variable (data) in
/-- A rank other than 0 puts nothing in a broadcast; in all other cases a call starts with the put
of the rank's own bytes and its commit. -/
theorem callEvents_eq_put_cons {myRank : ℕ} (pre : List Call) {c : Call}
    (h : c.isAllgather = true ∨ myRank = 0) :
    ∃ C, callEvents n data myRank pre c =
      (barriers pre, callPut data pre c myRank) :: (barriers pre, commitEvent) :: C := by
  cases c with
  | allgather len => exact ⟨_, rfl⟩
  | bcast len =>
    obtain rfl := h.resolve_left (by simp [Call.isAllgather])
    exact ⟨_, rfl⟩

variable (data) in
/-- A rank commits its bytes in the call itself. -/
theorem eventsFrom_published {myRank : ℕ} {l l' : List Call} {c : Call}
    (hsplit : calls = l ++ c :: l') (h : c.isAllgather = true ∨ myRank = 0) :
    ∃ C, eventsFrom n data myRank [] calls = eventsFrom n data myRank [] l ++
      (barriers l, putEvent (l.length, myRank) (callKey l c myRank)
        (encodeChars (data myRank l.length))) :: (barriers l, commitEvent) :: C := by
  obtain ⟨C, hC⟩ := eventsFrom_split (n := n) data myRank [] l l' c
  obtain ⟨D, hD⟩ := callEvents_eq_put_cons (n := n) data l h
  refine ⟨D ++ C, ?_⟩
  rw [hsplit, hC, List.nil_append, hD]
  simp [callPut]

theorem Call.name_inj {c c' : Call} (h : c.name = c'.name) : c.isAllgather = c'.isAllgather := by
  cases c <;> cases c' <;> first | rfl | simp [Call.name] at h

theorem counter_lt_of_prefix {pre pre' : List Call} {c c' : Call} (h : pre ++ [c] <+: pre')
    (hc : c.isAllgather = c'.isAllgather) : counter pre c < counter pre' c' := by
  obtain ⟨l, rfl⟩ := h
  simp only [counter, List.countP_append, List.countP_cons, hc, beq_self_eq_true, if_true]
  omega

theorem callKey_inj {l l' m m' : List Call} {c c' : Call} {i i' : ℕ}
    (hl : calls = l ++ c :: m) (hl' : calls = l' ++ c' :: m')
    (h : callKey l c i = callKey l' c' i') : l = l' ∧ c = c' ∧ i = i' := by
  obtain ⟨hname, hcnt, hi⟩ := longKey_inj (by cases c <;> rfl) (by cases c' <;> rfl) h
  have hkind := Call.name_inj hname
  have hp : l ++ [c] <+: calls := ⟨m, by rw [hl, List.append_assoc, List.singleton_append]⟩
  have hp' : l' ++ [c'] <+: calls := ⟨m', by rw [hl', List.append_assoc, List.singleton_append]⟩
  rcases lt_trichotomy l.length l'.length with hlt | heq | hlt
  · have hpre : l ++ [c] <+: l' := List.prefix_of_prefix_length_le hp
      ((List.prefix_append l' [c']).trans hp') (by simpa using hlt)
    have := counter_lt_of_prefix hpre hkind
    omega
  · obtain ⟨rfl, htail⟩ := List.append_inj (hl.symm.trans hl') heq
    exact ⟨rfl, (List.cons.inj htail).1, hi⟩
  · have hpre : l' ++ [c'] <+: l := List.prefix_of_prefix_length_le hp'
      ((List.prefix_append l [c]).trans hp) (by simpa using hlt)
    have := counter_lt_of_prefix hpre hkind.symm
    omega

end CrayTests.Kvs
