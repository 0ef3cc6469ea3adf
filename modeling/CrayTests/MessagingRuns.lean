import CrayTests.MessagingRounds

/-!
# Runs of message programs

Every run ends: a drift lowers the load of the memory, and every other step is one of the finitely
many of the traces and adds at most three to it. On a schedule a matched message and its receive
are equal, and when all operations are done and all completions counted, the memory is empty.
-/

namespace Messaging

open RankProgram

variable {n : ℕ} {M C α : Type} {clock : Fin n → ℕ → ℕ}
  {code : Fin n → Program (interface n M C) n α} {Ω : Oracle (interface n M C) n}
  {s s' : State (machine M C clock) α}

/-- A bound on the moves that the memory can make on its own. -/
def Mem.load (s : Mem n M) : ℕ :=
  2 * ∑ a, ∑ b, (s.chan a b).length + 2 * ∑ a, ∑ b, (s.posted a b).length +
    ∑ r, ∑ q, s.pending r q

theorem load_drift {s s' : Mem n M} (h : Drift s s') : s'.load < s.load := by
  cases h with
  | meet a b m eager ms q qs hchan hposted =>
    have hc := sum_sum_update₂ s.chan List.length a b ms
    have hp := sum_sum_update₂ s.posted List.length a b qs
    have hs := sum_sum_update₂ s.pending id a .send (s.pending a .send + (!eager).toNat)
    have hr := sum_sum_update₂ (update₂ s.pending a .send (s.pending a .send + (!eager).toNat)) id
      b .recv (s.pending b .recv + 1)
    have hother : update₂ s.pending a .send (s.pending a .send + (!eager).toNat) b .recv =
        s.pending b .recv := update₂_ne (by simp)
    have heager := (!eager).toNat_le
    simp only [hchan, hposted, hother, List.length_cons, id] at hc hp hs hr
    simp only [Mem.load, Mem.meet]
    omega
  | report r q hpending =>
    have hp := sum_sum_update₂ s.pending id r q (s.pending r q - 1)
    simp only [id] at hp
    simp only [Mem.load, Mem.report]
    omega

theorem load_perform {s s' : Mem n M} {r : Fin n} {e : ℕ} {o : Op n M} {x : Resp o}
    (h : perform clock r e o s x s') : s'.load ≤ s.load + 3 := by
  cases o with
  | send b m =>
    obtain ⟨eager, rfl⟩ := h
    have hc := sum_sum_update₂ s.chan List.length r b (s.chan r b ++ [(m, eager)])
    have hp := sum_sum_update₂ s.pending id r .send (s.pending r .send + eager.toNat)
    have heager := eager.toNat_le
    simp only [id, List.length_append, List.length_singleton] at hc hp
    simp only [Mem.load, Mem.send]
    omega
  | recv a m =>
    obtain rfl := h
    have hp := sum_sum_update₂ s.posted List.length a r (s.posted a r ++ [m])
    simp only [List.length_append, List.length_singleton] at hp
    simp only [Mem.load, Mem.recv]
    omega
  | take q =>
    obtain ⟨-, rfl⟩ := h
    exact Nat.le_add_right _ _
  | await q k =>
    obtain ⟨-, rfl⟩ := h
    exact Nat.le_add_right _ _
  | reset q =>
    obtain rfl := h
    exact Nat.le_add_right _ _
  | clock k =>
    obtain ⟨-, rfl⟩ := h
    exact Nat.le_add_right _ _

/-- What is left of a run: four for each step of the traces, and the load of the memory. -/
def fuel (Ω : Oracle (interface n M C) n) (code : Fin n → Program (interface n M C) n α)
    (s : State (machine M C clock) α) : ℕ :=
  4 * (workBound Ω code - s.work) + s.mem.load

theorem fuel_lt (hΩ : Predicted clock Ω code) (hs : Reachable Mem.empty code s)
    (hstep : Step s s') : fuel Ω code s' < fuel Ω code s := by
  have hbound := (hΩ.follows (hs.tail hstep)).work_le
  have hrank (r : Fin n) (mem : Mem n M) (p : Proc (interface n M C) n α)
      (hp : p.done.length + p.sent.length =
        (s.proc r).done.length + (s.proc r).sent.length + 1)
      (hmem : mem.load ≤ s.mem.load + 3) (hle : (s.set r mem p).work ≤ workBound Ω code) :
      fuel Ω code (s.set r mem p) < fuel Ω code s := by
    have hwork := s.work_set r mem p hp
    simp only [fuel, State.set_mem]
    omega
  cases hstep with
  | op r o next x mem _ hperform =>
    apply hrank r mem _ _ (load_perform (r := r) (e := (s.proc r).epoch) hperform) hbound
    simp only [Proc.answer, List.length_append, List.length_singleton]
    omega
  | enter r c next _ _ =>
    apply hrank r s.mem _ _ (Nat.le_add_right _ _) hbound
    simp only [Proc.enter, List.length_append, List.length_singleton]
    omega
  | leave r c next v _ _ _ =>
    apply hrank r s.mem _ _ (Nat.le_add_right _ _) hbound
    simp only [Proc.leave, List.length_append, List.length_singleton]
    omega
  | drift mem hdrift =>
    have hload := load_drift hdrift
    have hwork : (⟨mem, s.proc⟩ : State (machine M C clock) α).work = s.work := rfl
    simp only [fuel, hwork]
    omega

/-- Every reachable state can be run until no step is left. -/
theorem exists_final (hΩ : Predicted clock Ω code) (hs : Reachable Mem.empty code s) :
    ∃ s', Relation.ReflTransGen Step s s' ∧ ¬ ∃ s'', Step s' s'' := by
  induction hk : fuel Ω code s using Nat.strongRecOn generalizing s with
  | ind k ih =>
    by_cases hstep : ∃ s', Step s s'
    · obtain ⟨s', hstep⟩ := hstep
      obtain ⟨t, hrun, hfinal⟩ := ih _ (hk ▸ fuel_lt hΩ hs hstep) (hs.tail hstep) rfl
      exact ⟨t, hrun.head hstep, hfinal⟩
    · exact ⟨s, .refl, hstep⟩

/-- When a rank has returned, the operations of the others that precede its last collective call
are done. -/
theorem ops_done (hf : Follows Ω code s) {r q : Fin n} {a : α} (hr : (s.proc r).code = .pure a)
    (hbefore : ∀ x ∈ trace Ω q 0 (code q), x.2.isSync = false → x.1 < lastEpoch Ω r 0 (code r)) :
    opsOf (s.proc q).done = opsOf (trace Ω q 0 (code q)) := by
  have hhor := hf.horizon r
  rw [hr, lastEpoch_pure] at hhor
  have hrest : opsOf (trace Ω q (s.proc q).epoch (s.proc q).code) = [] := by
    apply List.filterMap_eq_nil_iff.mpr
    rintro ⟨e, o | c⟩ hx
    · have hle := hf.epoch_le_of_pending r q hx
      have hlt := hbefore _ (hf.path q ▸ List.mem_append_right _ hx) rfl
      simp only at hlt
      omega
    · rfl
  rw [← hf.path q, opsOf_append, hrest, List.append_nil]

/-- The contributions that a rank has brought are the first of the predicted ones. -/
theorem sent_isPrefix (hf : Follows Ω code s) (r : Fin n) :
    (s.proc r).sent <+:
      (List.range (lastEpoch Ω r 0 (code r))).map fun e => Ω.gathered e r := by
  have hlen : (s.proc r).sent.length ≤ lastEpoch Ω r 0 (code r) := by
    have hhor := hf.horizon r
    rcases hf.waits r with hw | ⟨c, next, hcode, hw⟩
    · rw [hw, ← hhor]
      exact le_lastEpoch Ω r _ _
    · rw [hcode, lastEpoch] at hhor
      rw [hw, ← hhor]
      exact le_lastEpoch Ω r _ _
  rw [List.prefix_iff_getElem?]
  intro e he
  rw [List.getElem?_map, List.getElem?_range (by omega), Option.map_some]
  exact congrArg some (hf.sent r e _ (List.getElem?_eq_getElem he)).symm

namespace Scheduled

variable {plan : Fin n → List (ℕ × Event (interface n M C))} (h : Scheduled clock Ω code plan)
include h

theorem paired_traces (a b : Fin n) :
    sendsTo b (opsOf (trace Ω a 0 (code a))) = recvsFrom a (opsOf (trace Ω b 0 (code b))) := by
  rw [← opsOf_congr (h.stamps a), ← opsOf_congr (h.stamps b), ← map_stampedSends,
    ← map_stampedRecvs, h.schedule.paired]

/-- A message and the receive that it meets are equal. -/
theorem head_eq (hs : Reachable Mem.empty code s) {a b : Fin n} {m p : M} {eager : Bool}
    {ms : List (M × Bool)} {ps : List M} (hchan : s.mem.chan a b = (m, eager) :: ms)
    (hposted : s.mem.posted a b = p :: ps) : m = p := by
  have hf := h.predicted.follows hs
  have hfifo := (inv_of_reachable h.predicted h.balanced hs).fifo a b
  rw [hchan, hposted] at hfifo
  obtain ⟨-, k, hsend, hrecv⟩ := hfifo.meet
  have hpair := h.paired_traces a b
  rw [← hf.path a, ← hf.path b, opsOf_append, opsOf_append, sendsTo_append,
    recvsFrom_append] at hpair
  have hk := congrArg (fun l : List M => l[k]?) hpair
  rw [List.getElem?_append_left (List.getElem?_eq_some_iff.mp hsend).1,
    List.getElem?_append_left (List.getElem?_eq_some_iff.mp hrecv).1, hsend, hrecv] at hk
  exact Option.some.inj hk

/-- When all operations are done and all completions counted, nothing is left. -/
theorem mem_eq_empty (hs : Reachable Mem.empty code s)
    (hdone : ∀ r, opsOf (s.proc r).done = opsOf (trace Ω r 0 (code r)))
    (hclear : ∀ r, (Acct.start.after (opsOf (trace Ω r 0 (code r)))).Clear) :
    s.mem = Mem.empty := by
  have hinv := inv_of_reachable h.predicted h.balanced hs
  have hdue (r : Fin n) (q : Queue) : s.mem.due r q = 0 := by
    rw [← (hinv.acct r).total q, hdone r]
    exact hclear r q
  have hposted (a b : Fin n) : s.mem.posted a b = [] := by
    have hb : ∑ a, (s.mem.posted a b).length + s.mem.pending b .recv + s.mem.ready b .recv = 0 :=
      hdue b .recv
    have hsum : ∑ a, (s.mem.posted a b).length = 0 := by omega
    exact List.length_eq_zero_iff.mp (Finset.sum_eq_zero_iff.mp hsum a (Finset.mem_univ a))
  have hchan (a b : Fin n) : s.mem.chan a b = [] := by
    obtain ⟨k, hks, hkr, hsends, hrecvs⟩ := hinv.fifo a b
    rw [hposted a b] at hrecvs
    have hk := List.drop_eq_nil_iff.mp hrecvs.symm
    have hlen := congrArg List.length (h.paired_traces a b)
    rw [← hdone a, ← hdone b] at hlen
    rw [List.drop_eq_nil_of_le (by omega)] at hsends
    exact List.map_eq_nil_iff.mp hsends
  have hcounts (r : Fin n) (q : Queue) : s.mem.pending r q = 0 ∧ s.mem.ready r q = 0 := by
    have hq := hdue r q
    unfold Mem.due at hq
    omega
  cases hmem : s.mem with
  | mk chan posted pending ready =>
    simp only [hmem] at hposted hchan hcounts
    simp only [Mem.empty, Mem.mk.injEq]
    refine ⟨?_, ?_, ?_, ?_⟩
    · exact funext fun a => funext fun b => hchan a b
    · exact funext fun a => funext fun b => hposted a b
    · exact funext fun r => funext fun q => (hcounts r q).1
    · exact funext fun r => funext fun q => (hcounts r q).2

end Scheduled

end Messaging
