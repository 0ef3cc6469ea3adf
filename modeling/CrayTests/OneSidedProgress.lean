import CrayTests.OneSidedRuns

/-!
# Progress of one-sided programs

Where nothing can happen any more but looks at an unchanged signal, all threads have returned: of
the threads in front of an operation, the one with the fewest calls and handshakes behind it does
not wait for another one. As every other step leaves less to do, every state can be run to the end.
-/

namespace CrayTests.OneSidedTest

open RankProgram
open PingpongTest (rank peer peer_peer)

variable {threads : ℕ} {E : Setup threads} {α : Type}
variable {s s' : State (machine E) α} {code : Fin (2 * threads) → Thread threads α}
variable {Ω : Oracle interface (2 * threads)} {plan : Fin (2 * threads) → List (ℕ × Op)} {w : ℕ}
variable {sBuf rBuf : Fin (2 * threads) → Buffer} {p q : Fin (2 * threads)}
variable {o : Op} {next : o.Resp → Thread threads α}

@[reducible] def still (E : Setup threads) : Machine interface (2 * threads) :=
  { machine E with drift := fun _ _ => False }

def frozen (s : State (machine E) α) : State (still E) α := ⟨s.mem, s.proc⟩

theorem step_of_frozen {t : State (still E) α} (h : Step (frozen s) t) :
    Step s ⟨t.mem, t.proc⟩ := by
  cases h with
  | op r o next x mem hcode hperform => exact Step.op (s := s) r o next x mem hcode hperform
  | enter r c next hcode hout => exact Step.enter (s := s) r c next hcode hout
  | leave r c next v hcode hin hall => exact Step.leave (s := s) r c next v hcode hin hall
  | drift mem hdrift => exact hdrift.elim

theorem follows_frozen (hf : Follows Ω code s) : Follows Ω code (frozen s) :=
  ⟨hf.path, hf.outcome, hf.horizon, hf.waits, hf.sent, hf.behind, hf.past⟩

def behind (s : State (machine E) α) (p : Fin (2 * threads)) : List (ℕ × Mark) :=
  marks p (opsOf s p)

namespace Orderly

variable (h : Orderly E Ω code plan w) (hs : Reachable (Mem.init sBuf rBuf) code s)
include h hs

theorem behind_append (p : Fin (2 * threads)) :
    behind s p ++ marks p (opsIn (trace Ω p (s.proc p).epoch (s.proc p).code)) =
      marks p (plan p) := by
  rw [← h.opsOf_append hs p, marks_append]
  rfl

theorem behind_isPrefix (hle : (behind s p).length ≤ (behind s q).length) :
    behind s p <+: behind s q := by
  have hp : behind s p <+: marks p (plan p) := ⟨_, h.behind_append hs p⟩
  have hq : behind s q <+: marks p (plan p) := by
    rw [h.marks_eq p q]
    exact ⟨_, h.behind_append hs q⟩
  exact List.prefix_of_prefix_length_le hp hq hle

/-- A thread that has no mark in front of it in the epochs up to that of `p` is not behind `p`. -/
theorem length_behind_le (hlate : ∀ x ∈ marks q (opsIn (trace Ω q (s.proc q).epoch
    (s.proc q).code)), (s.proc p).epoch < x.1) : (behind s p).length ≤ (behind s q).length := by
  by_contra hlt
  have hp : behind s p <+: behind s q ++ marks q (opsIn (trace Ω q (s.proc q).epoch
      (s.proc q).code)) := by
    rw [h.behind_append hs q, h.marks_eq q p]
    exact ⟨_, h.behind_append hs p⟩
  obtain ⟨t, ht⟩ := h.behind_isPrefix hs (p := q) (q := p) (by omega)
  rw [← ht, List.prefix_append_right_inj] at hp
  cases t with
  | nil =>
    rw [List.append_nil] at ht
    exact hlt (congrArg List.length ht).ge
  | cons x t =>
    have hmem : x ∈ behind s p := ht ▸ List.mem_append_right _ List.mem_cons_self
    obtain ⟨o, ho⟩ := fst_mem_of_mem_marks hmem
    obtain ⟨y, hy⟩ := mem_opsIn.mp ho
    have hpast := (h.follows hs).past p _ _ hy
    have := hlate x (hp.subset List.mem_cons_self)
    omega

/-- A thread that has returned, or that waits in a collective call, is not behind one in front of an
operation. -/
theorem length_behind_le_of_idle (hfinal : Final (frozen s))
    (hq : ∀ o next, (s.proc q).code ≠ .op o next) :
    (behind s p).length ≤ (behind s q).length := by
  refine h.length_behind_le hs fun x hx => ?_
  obtain ⟨o, ho⟩ := fst_mem_of_mem_marks hx
  obtain ⟨y, hy⟩ := mem_opsIn.mp ho
  cases hcode : (s.proc q).code with
  | pure a =>
    rw [hcode] at hy
    exact absurd hy List.not_mem_nil
  | op o next => exact absurd hcode (hq o next)
  | sync c next =>
    have hf := follows_frozen (h.follows hs)
    obtain ⟨-, r, hr⟩ := hfinal.exists_behind hf.paced (r := q) hcode
    have hle := hf.behind p r
    rw [hcode, trace] at hy
    rcases List.mem_cons.mp hy with heq | hy
    · exact absurd (Prod.mk.inj heq).2 (by simp)
    · exact Nat.lt_of_lt_of_le (Nat.lt_succ_of_le (hle.trans hr)) (le_of_mem_trace Ω q hy)

/-- What a thread in front of an operation can rely on when no other one is behind it. -/
theorem not_waiting (hrest : AtRest E s.mem) (hcode : (s.proc p).code = .op o next)
    (hmin : ∀ q, (behind s p).length ≤ (behind s q).length) :
    ∃ x mem, perform E p (s.proc p).epoch o s.mem x mem := by
  have hallows := h.allows hs hcode
  have hacc := accounts_of_reachable hs
  obtain ⟨hscq, hrcq⟩ := h.due_eq hs p
  have hpeer := (counts_le_of_marks (h.behind_isPrefix hs (hmin (peer p)))).2 rfl
  cases o with
  | touch size => exact ⟨(), _, rfl⟩
  | getTimeUsec k => exact ⟨_, _, rfl, rfl⟩
  | fiWrite size => exact ⟨(), _, rfl⟩
  | fiSend => exact ⟨(), _, rfl⟩
  | fiRecv => exact ⟨(), _, rfl⟩
  | fini => exact ⟨(), _, rfl⟩
  | readScq =>
    refine ⟨(), _, ?_, rfl⟩
    by_contra hempty
    -- a send is due, its message has arrived, and no receive is posted that could meet it
    have hwriting := hrest.writing p
    have hsending := hrest.sending p
    simp only [Due.Allows] at hallows
    have harrived := hacc.arrived (peer p)
    simp only [peer_peer] at harrived
    rcases hrest.arrived (peer p) with hnil | hrecvs
    · rw [hnil, List.length_nil] at hsending
      omega
    · omega
  | readRcq =>
    refine ⟨(), _, ?_, rfl⟩
    by_contra hempty
    -- a receive is due, and every message that was sent has met one
    simp only [Due.Allows] at hallows
    have harrived := hacc.arrived p
    rcases hrest.arrived p with hnil | hrecvs
    · rw [hnil, List.length_nil] at harrived
      omega
    · omega
  | callTbarrier =>
    refine ⟨(), _, ?_, rfl⟩
    by_contra hin
    have hpos := inside_pos hs hin
    simp only [Due.Allows] at hallows
    rw [hallows] at hpos
    exact absurd hpos (by decide)
  | returnTbarrier =>
    refine ⟨(), _, ?_, rfl⟩
    by_contra hin
    obtain ⟨order, hinv⟩ := ThreadBarrier.inv_of_reachable (hacc.tbar (rank p))
    obtain ⟨u, -, hu⟩ := hinv.exists_absent (t := number p) hin fun u hu => by
      obtain ⟨q, hq, rfl⟩ := exists_party p u
      have := hrest.inside q
      rw [Mem.waiter, hq] at this
      exact this hu
    obtain ⟨q, hq, rfl⟩ := exists_party p u
    have hcalls := (counts_le_of_marks (h.behind_isPrefix hs (hmin q))).1
    have hp := hacc.calls p
    have hq' := hacc.calls q
    rw [Mem.waiter, hq] at hq'
    rw [Mem.waiter] at hp
    omega

theorem halted_of_stuck (hfinal : Final (frozen s)) (hrest : AtRest E s.mem) : Halted s := by
  by_contra hnot
  have hf := follows_frozen (h.follows hs)
  by_cases hop : ∃ p o next, (s.proc p).code = .op o next
  · obtain ⟨p, ⟨o, next, hcode⟩, hmin⟩ : ∃ p, (∃ o next, (s.proc p).code = .op o next) ∧
        ∀ q, (∃ o next, (s.proc q).code = .op o next) →
          (behind s p).length ≤ (behind s q).length := by
      classical
      obtain ⟨r, hr⟩ := hop
      obtain ⟨p, hp, hmin⟩ := Finset.exists_min_image
        (Finset.univ.filter fun p => ∃ o next, (s.proc p).code = .op o next)
        (fun p => (behind s p).length) ⟨r, by simpa using hr⟩
      exact ⟨p, by simpa using hp, fun q hq => hmin q (by simpa using hq)⟩
    have hall (q : Fin (2 * threads)) : (behind s p).length ≤ (behind s q).length := by
      by_cases hq : ∃ o next, (s.proc q).code = .op o next
      · exact hmin q hq
      · exact h.length_behind_le_of_idle hs hfinal fun o next hcode => hq ⟨o, next, hcode⟩
    obtain ⟨x, mem, hperform⟩ := h.not_waiting hs hrest hcode hall
    exact hfinal.not_op (r := p) hcode x mem hperform
  · have hat (p : Fin (2 * threads)) : (∃ a, (s.proc p).code = .pure a) ∨
        ∃ c next, (s.proc p).code = .sync c next := by
      cases hcode : (s.proc p).code with
      | pure a => exact .inl ⟨a, rfl⟩
      | op o next => exact absurd ⟨p, o, next, hcode⟩ hop
      | sync c next => exact .inr ⟨c, next, rfl⟩
    obtain ⟨t, hstep⟩ := hf.sync_progress h.even hat hnot
    exact hfinal t hstep

end Orderly

/-- An upper bound on the steps that are left, without looks at an unchanged signal. -/
def stepsLeft (Ω : Oracle interface (2 * threads)) (code : Fin (2 * threads) → Thread threads α)
    (s : State (machine E) α) : ℕ :=
  9 * (workBound Ω code - s.work) + s.mem.pending

theorem pending_frozen {t : State (still E) α}
    {ops : Fin (2 * threads) → List Op} (hacc : Accounts E s.mem ops) (h : Step (frozen s) t) :
    Mem.pending t.mem ≤ s.mem.pending + 8 := by
  cases h with
  | op r o next x mem' hcode hperform => exact pending_perform (e := 0) hacc hperform
  | enter r c next hcode hout => exact Nat.le_add_right _ _
  | leave r c next v hcode hin hall => exact Nat.le_add_right _ _
  | drift mem hdrift => exact hdrift.elim

namespace Orderly

variable (h : Orderly E Ω code plan w)
include h

theorem exists_halted (hs : Reachable (Mem.init sBuf rBuf) code s) :
    ∃ t, Relation.ReflTransGen Step s t ∧ Halted t := by
  let advance (s s' : State (machine E) α) : Prop :=
    Step s s' ∧ stepsLeft Ω code s' < stepsLeft Ω code s
  obtain ⟨t, hrun, ht, hlast⟩ : ∃ t, Relation.ReflTransGen advance s t ∧
      Reachable (Mem.init sBuf rBuf) code t ∧ ∀ t', ¬ advance t t' :=
    BoundedRuns.exists_final (fun _ _ hs hstep => hs.tail hstep.1) (fun _ _ _ hstep => hstep.2) hs
  refine ⟨t, Relation.ReflTransGen.mono (fun _ _ hstep => hstep.1) _ _ hrun,
    h.halted_of_stuck ht ?_ ?_⟩
  · intro t' hstep
    have hstep' := step_of_frozen hstep
    have hwork : State.work t' = t.work + 1 := work_step (fun _ _ => id) hstep
    have hbound : State.work t' ≤ workBound Ω code := (h.follows (ht.tail hstep')).work_le
    have hpending := pending_frozen (accounts_of_reachable ht) hstep
    refine hlast _ ⟨hstep', ?_⟩
    change 9 * (workBound Ω code - State.work t') + Mem.pending t'.mem <
      9 * (workBound Ω code - t.work) + t.mem.pending
    omega
  · refine atRest_of_pending (accounts_of_reachable ht) fun mem hdrift => ?_
    by_contra hlt
    refine hlast ⟨mem, t.proc⟩ ⟨Step.drift (s := t) mem hdrift, ?_⟩
    exact Nat.add_lt_add_left (not_le.mp hlt) _

end Orderly

end CrayTests.OneSidedTest
