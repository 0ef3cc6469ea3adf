import CrayTests.BoundedRuns
import CrayTests.EpochLog
import CrayTests.OneSidedAccounts

/-!
# Runs of one-sided programs

Programs whose threads read their queues only for completions that are due, and make their calls of
the barrier and their handshakes in the same order, follow the oracle and can always be run to
their end, whatever the provider does. Of the threads in front of an operation, the one with the
fewest calls and handshakes behind it never waits for another one.
-/

namespace CrayTests.OneSidedTest

open RankProgram
open PingpongTest (rank peer peer_peer)

variable {threads : ℕ} {E : Setup threads} {p q : Fin (2 * threads)} {α : Type}

/-- Completions that are due in the two queues, and calls of the barrier that have not returned. -/
structure Due where
  scq : ℕ := 0
  rcq : ℕ := 0
  inside : ℕ := 0
deriving DecidableEq

namespace Due

def step (d : Due) : Op → Due
  | .fiWrite _ | .fiSend => { d with scq := d.scq + 1 }
  | .fiRecv => { d with rcq := d.rcq + 1 }
  | .readScq => { d with scq := d.scq - 1 }
  | .readRcq => { d with rcq := d.rcq - 1 }
  | .callTbarrier => { d with inside := d.inside + 1 }
  | .returnTbarrier => { d with inside := d.inside - 1 }
  | _ => d

/-- Writes fill a window of `w`, completions are read when they are due, and everything else is done
when nothing is due. -/
def Allows (w : ℕ) (d : Due) : Op → Prop
  | .fiWrite _ => d.scq < w ∧ d.rcq = 0 ∧ d.inside = 0
  | .readScq => 0 < d.scq
  | .readRcq => 0 < d.rcq
  | .returnTbarrier => d = ⟨0, 0, 1⟩
  | _ => d = {}

def after (d : Due) (l : List Op) : Due := l.foldl step d

def Legal (w : ℕ) : Due → List Op → Prop
  | _, [] => True
  | d, o :: l => d.Allows w o ∧ Legal w (d.step o) l

variable {d : Due} {w : ℕ} {l l' : List Op} {o : Op}

theorem after_append : d.after (l ++ l') = (d.after l).after l' := List.foldl_append

theorem legal_append : Legal w d (l ++ l') ↔ Legal w d l ∧ Legal w (d.after l) l' := by
  induction l generalizing d with
  | nil => simp [Legal, after]
  | cons o l ih =>
    rw [List.cons_append, Legal, Legal, ih, and_assoc]
    rfl

def Closed (w : ℕ) (l : List Op) : Prop := Legal w {} l ∧ after {} l = {}

theorem Closed.nil : Closed w [] := ⟨trivial, rfl⟩

theorem Closed.append (h : Closed w l) (h' : Closed w l') : Closed w (l ++ l') := by
  constructor
  · rw [legal_append, h.2]
    exact ⟨h.1, h'.1⟩
  · rw [after_append, h.2, h'.2]

theorem Closed.flatMap {ι : Type} {f : ι → List Op} {is : List ι} (h : ∀ i ∈ is, Closed w (f i)) :
    Closed w (is.flatMap f) := by
  induction is with
  | nil => exact .nil
  | cons i is ih =>
    rw [List.flatMap_cons]
    exact (h i List.mem_cons_self).append (ih fun j hj => h j (List.mem_cons_of_mem i hj))

theorem counts_after (h : Legal w d l) :
    (d.after l).scq + l.count .readScq = d.scq + (l.countP Op.isWrite + l.count .fiSend) ∧
      (d.after l).rcq + l.count .readRcq = d.rcq + l.count .fiRecv ∧
      (d.after l).inside + l.count .returnTbarrier = d.inside + l.count .callTbarrier := by
  induction l generalizing d with
  | nil => simp [after]
  | cons o l ih =>
    obtain ⟨hallows, hlegal⟩ := h
    have hrest := ih hlegal
    have hafter : d.after (o :: l) = (d.step o).after l := rfl
    simp only [hafter, List.count_cons, List.countP_cons]
    cases o with
    | readScq =>
      simp only [step, Allows] at hrest hallows ⊢
      simp [Op.isWrite]
      omega
    | readRcq =>
      simp only [step, Allows] at hrest hallows ⊢
      simp [Op.isWrite]
      omega
    | returnTbarrier =>
      have hinside : d.inside = 1 := congrArg Due.inside hallows
      simp only [step] at hrest ⊢
      simp [Op.isWrite]
      omega
    | _ =>
      simp only [step] at hrest ⊢
      simp [Op.isWrite]
      omega

end Due

/-- Calls of the barrier, and the two messages of a handshake, the first from rank 0. -/
inductive Mark
  | call
  | first
  | second
deriving DecidableEq

def Op.mark (p : Fin (2 * threads)) : Op → Option Mark
  | .callTbarrier => some .call
  | .fiSend => some (if rank p = 0 then .first else .second)
  | .fiRecv => some (if rank p = 0 then .second else .first)
  | _ => none

def marks (p : Fin (2 * threads)) (l : List (ℕ × Op)) : List (ℕ × Mark) :=
  l.filterMap fun x => (x.2.mark p).map (x.1, ·)

theorem marks_append (l l' : List (ℕ × Op)) : marks p (l ++ l') = marks p l ++ marks p l' :=
  List.filterMap_append

theorem fst_mem_of_mem_marks {l : List (ℕ × Op)} {x : ℕ × Mark} (h : x ∈ marks p l) :
    ∃ o, (x.1, o) ∈ l := by
  obtain ⟨⟨e, o⟩, hmem, hmark⟩ := List.mem_filterMap.mp h
  obtain ⟨m, -, rfl⟩ := Option.map_eq_some_iff.mp hmark
  exact ⟨o, hmem⟩

/-- The calls, sends and receives of a list are marks. -/
theorem count_marks (p : Fin (2 * threads)) (l : List (ℕ × Op)) :
    (marks p l).countP (fun x => x.2 = .call) = (l.map Prod.snd).count .callTbarrier ∧
      (marks p l).countP (fun x => x.2 = if rank p = 0 then .first else .second) =
        (l.map Prod.snd).count .fiSend ∧
      (marks p l).countP (fun x => x.2 = if rank p = 0 then .second else .first) =
        (l.map Prod.snd).count .fiRecv := by
  induction l with
  | nil => exact ⟨rfl, rfl, rfl⟩
  | cons x l ih =>
    obtain ⟨hcall, hsend, hrecv⟩ := ih
    obtain ⟨e, o⟩ := x
    have hcons : marks p ((e, o) :: l) = ((o.mark p).map (e, ·)).toList ++ marks p l := by
      cases h : o.mark p <;> simp [marks, h]
    rw [hcons]
    simp only [List.countP_append, List.map_cons, List.count_cons, hcall, hsend, hrecv]
    cases o <;> by_cases hp : rank p = 0 <;> simp [Op.mark, hp, Nat.add_comm]

theorem rank_peer : rank (peer p) = 0 ↔ rank p ≠ 0 := by
  unfold rank peer
  by_cases h : p.val < threads
  · simp [h]
  · have hlt : p.val - threads < threads := by omega
    simp [h, hlt]

/-- A thread with no fewer marks has made as many calls, has received what the other one sent, and
has sent what the other one waits for. -/
theorem counts_le_of_marks {l l' : List (ℕ × Op)} (hcalls : marks p l <+: marks q l') :
    (l.map Prod.snd).count .callTbarrier ≤ (l'.map Prod.snd).count .callTbarrier ∧
      (q = peer p → (l.map Prod.snd).count .fiSend ≤ (l'.map Prod.snd).count .fiRecv ∧
        (l.map Prod.snd).count .fiRecv ≤ (l'.map Prod.snd).count .fiSend) := by
  obtain ⟨hcall, hsend, hrecv⟩ := count_marks p l
  obtain ⟨hcall', hsend', hrecv'⟩ := count_marks q l'
  refine ⟨?_, ?_⟩
  · rw [← hcall, ← hcall']
    exact hcalls.sublist.countP_le
  · rintro rfl
    rw [← hsend, ← hrecv, ← hsend', ← hrecv']
    by_cases hp : rank p = 0
    · have hpeer : rank (peer p) ≠ 0 := fun h => rank_peer.mp h hp
      simp only [if_pos hp, if_neg hpeer]
      exact ⟨hcalls.sublist.countP_le, hcalls.sublist.countP_le⟩
    · have hpeer : rank (peer p) = 0 := rank_peer.mpr hp
      simp only [if_neg hp, if_pos hpeer]
      exact ⟨hcalls.sublist.countP_le, hcalls.sublist.countP_le⟩

section Waiters

variable {mem mem' : Mem threads} {o : Op} {x : o.Resp} {e : ℕ}

/-- Only a call moves a thread into the barrier. -/
theorem waiter_perform (h : perform E p e o mem x mem') (q : Fin (2 * threads)) :
    mem'.waiter q = mem.waiter q ∨ o = .callTbarrier ∧ q = p := by
  cases o with
  | callTbarrier =>
    obtain ⟨-, rfl⟩ := h
    by_cases hq : q = p
    · exact .inr ⟨rfl, hq⟩
    · exact .inl (stepTbar_waiter_ne hq)
  | returnTbarrier => exact .inl (by rw [h.2])
  | getTimeUsec k => exact .inl (by rw [h.2])
  | readScq => exact .inl (by rw [h.2]; rfl)
  | readRcq => exact .inl (by rw [h.2]; rfl)
  | fini => exact .inl (congrArg (·.waiter q) h)
  | touch size => exact .inl (congrArg (·.waiter q) h)
  | fiWrite size => exact .inl (congrArg (·.waiter q) h)
  | fiSend => exact .inl (congrArg (·.waiter q) h)
  | fiRecv => exact .inl (congrArg (·.waiter q) h)

theorem inside_of_drift (h : Drift E mem mem') (hin : (mem'.waiter q).Inside) :
    (mem.waiter q).Inside := by
  cases h with
  | tbarrier p hp =>
    by_cases hq : q = p
    · exact hq ▸ hp
    · rwa [stepTbar_waiter_ne hq] at hin
  | _ => exact hin

end Waiters

def Endpoint.load (ep : Endpoint) : ℕ :=
  ep.flying.length + ep.writing + ep.sending + ep.arrived.length

/-- An upper bound on the moves that the memory makes on its own, without looks at an unchanged
signal. -/
def Mem.pending (mem : Mem threads) : ℕ :=
  ∑ p, (mem.ep p).load + ∑ r ∈ Finset.range 2, ∑ u, ThreadBarrier.remaining (mem.tbar r) u

section Pending

variable {mem mem' : Mem threads} {ops : Fin (2 * threads) → List Op} {o : Op} {x : o.Resp} {e : ℕ}

theorem pending_setEp (mem : Mem threads) (p : Fin (2 * threads)) (ep : Endpoint) :
    (mem.setEp p ep).pending + (mem.ep p).load = mem.pending + ep.load := by
  have hrest : ∑ q ∈ Finset.univ.erase p, ((mem.setEp p ep).ep q).load =
      ∑ q ∈ Finset.univ.erase p, (mem.ep q).load := by
    refine Finset.sum_congr rfl fun q hq => ?_
    rw [setEp_ep, if_neg (Finset.ne_of_mem_erase hq)]
  have hself : ((mem.setEp p ep).ep p).load = ep.load := by rw [setEp_ep, if_pos rfl]
  unfold Mem.pending
  rw [← Finset.add_sum_erase _ (fun q => ((mem.setEp p ep).ep q).load) (Finset.mem_univ p),
    ← Finset.add_sum_erase _ (fun q => (mem.ep q).load) (Finset.mem_univ p), hrest, hself,
    setEp_tbar]
  omega

theorem pending_setEp_le {p : Fin (2 * threads)} {ep : Endpoint} (k : ℕ)
    (h : ep.load ≤ (mem.ep p).load + k) : (mem.setEp p ep).pending ≤ mem.pending + k := by
  have := pending_setEp mem p ep
  omega

theorem pending_setEp_lt {p : Fin (2 * threads)} {ep : Endpoint}
    (h : ep.load < (mem.ep p).load) : (mem.setEp p ep).pending < mem.pending := by
  have := pending_setEp mem p ep
  omega

theorem rank_mem_range (p : Fin (2 * threads)) : rank p ∈ Finset.range 2 := by
  unfold rank
  split_ifs <;> simp

theorem pending_stepTbar (mem : Mem threads) (p : Fin (2 * threads)) :
    (mem.stepTbar p).pending + ∑ u, ThreadBarrier.remaining (mem.tbar (rank p)) u = mem.pending +
      ∑ u, ThreadBarrier.remaining (ThreadBarrier.step (mem.tbar (rank p)) (number p)) u := by
  have hrest : ∑ r ∈ (Finset.range 2).erase (rank p),
        ∑ u, ThreadBarrier.remaining ((mem.stepTbar p).tbar r) u =
      ∑ r ∈ (Finset.range 2).erase (rank p), ∑ u, ThreadBarrier.remaining (mem.tbar r) u := by
    refine Finset.sum_congr rfl fun r hr => ?_
    have hother : (mem.stepTbar p).tbar r = mem.tbar r :=
      Function.update_of_ne (Finset.ne_of_mem_erase hr) _ _
    rw [hother]
  have hself : (mem.stepTbar p).tbar (rank p) =
      ThreadBarrier.step (mem.tbar (rank p)) (number p) := Function.update_self ..
  unfold Mem.pending
  rw [← Finset.add_sum_erase _ (fun r => ∑ u, ThreadBarrier.remaining ((mem.stepTbar p).tbar r) u)
      (rank_mem_range p),
    ← Finset.add_sum_erase _ (fun r => ∑ u, ThreadBarrier.remaining (mem.tbar r) u)
      (rank_mem_range p), hrest, hself, stepTbar_ep]
  omega

theorem pending_perform (hacc : Accounts E mem ops) (h : perform E p e o mem x mem') :
    mem'.pending ≤ mem.pending + 8 := by
  cases o with
  | callTbarrier =>
    obtain ⟨hout, rfl⟩ := h
    obtain ⟨order, hinv⟩ := ThreadBarrier.inv_of_reachable (hacc.tbar (rank p))
    have hcall := hinv.sum_remaining_call hout
    have hstep := pending_stepTbar mem p
    omega
  | returnTbarrier =>
    obtain ⟨-, rfl⟩ := h
    exact Nat.le_add_right _ _
  | getTimeUsec k =>
    obtain ⟨-, rfl⟩ := h
    exact Nat.le_add_right _ _
  | fini =>
    obtain rfl := h
    exact Nat.le_add_right _ _
  | readScq =>
    obtain ⟨-, rfl⟩ := h
    exact pending_setEp_le 8 (Nat.le_add_right _ _)
  | readRcq =>
    obtain ⟨-, rfl⟩ := h
    exact pending_setEp_le 8 (Nat.le_add_right _ _)
  | touch size =>
    obtain rfl := h
    exact pending_setEp_le 8 (Nat.le_add_right _ _)
  | fiRecv =>
    obtain rfl := h
    exact pending_setEp_le 8 (Nat.le_add_right _ _)
  | fiWrite size =>
    obtain rfl := h
    refine pending_setEp_le 8 ?_
    simp only [Endpoint.load, List.length_append, List.length_singleton]
    omega
  | fiSend =>
    obtain rfl := h
    refine (pending_setEp_le 1 ?_).trans (Nat.add_le_add_right (pending_setEp_le 1 ?_) 1) |>.trans ?_
    · rw [setEp_ep, if_neg (peer_ne p)]
      simp only [Endpoint.load, List.length_append, List.length_singleton]
      omega
    · simp only [Endpoint.load]
      omega
    · omega

/-- No move of the memory, other than a look at an unchanged signal, is possible. -/
structure AtRest (E : Setup threads) (mem : Mem threads) : Prop where
  writing : ∀ p, (mem.ep p).writing = 0
  sending : ∀ p, (mem.ep p).sending ≤ (mem.ep (peer p)).arrived.length
  arrived : ∀ p, (mem.ep p).arrived = [] ∨ (mem.ep p).recvs = 0
  inside : ∀ p, (mem.waiter p).Inside →
    ThreadBarrier.OnlyRereads (mem.tbar (rank p)) (number p)

theorem atRest_of_pending (hacc : Accounts E mem ops)
    (h : ∀ mem', Drift E mem mem' → mem.pending ≤ mem'.pending) : AtRest E mem := by
  have hflying (p : Fin (2 * threads)) : (mem.ep p).flying = [] := by
    by_contra hne
    obtain ⟨bytes, hfly⟩ := List.exists_mem_of_ne_nil _ hne
    refine (h _ (.place p bytes hfly)).not_gt ?_
    refine (pending_setEp_le 0 ?_).trans_lt (pending_setEp_lt ?_)
    · rw [setEp_ep, if_neg (peer_ne p)]
      exact le_rfl
    · have hlen := List.length_erase_of_mem hfly
      have hpos := List.length_pos_of_mem hfly
      simp only [Endpoint.load]
      omega
  refine ⟨fun p => ?_, fun p => ?_, fun p => ?_, fun p hin => ?_⟩
  · by_contra hne
    have hpos : 0 < (mem.ep p).writing := Nat.pos_of_ne_zero hne
    refine (h _ (.reportWrite p hpos (.inr (by rw [hflying p]; exact hpos)))).not_gt ?_
    refine pending_setEp_lt ?_
    simp only [Endpoint.load]
    omega
  · by_contra hlt
    have hpos : 0 < (mem.ep p).sending := by omega
    refine (h _ (.reportSend p hpos (.inr (by omega)))).not_gt ?_
    refine pending_setEp_lt ?_
    simp only [Endpoint.load]
    omega
  · by_contra hnone
    obtain ⟨hne, hrecvs⟩ := not_or.mp hnone
    obtain ⟨bytes, rest, harrived⟩ := List.exists_cons_of_ne_nil hne
    refine (h _ (.meet p bytes rest harrived (Nat.pos_of_ne_zero hrecvs))).not_gt ?_
    refine pending_setEp_lt ?_
    simp only [Endpoint.load, harrived, List.length_cons]
    omega
  · by_contra hnot
    obtain ⟨order, hinv⟩ := ThreadBarrier.inv_of_reachable (hacc.tbar (rank p))
    have hle := h _ (.tbarrier p hin)
    have hlt := hinv.sum_remaining_lt hin hnot
    have hstep := pending_stepTbar mem p
    omega

end Pending

section Runs

variable {s s' : State (machine E) α} {code : Fin (2 * threads) → Thread threads α}
variable {Ω : Oracle interface (2 * threads)} {plan : Fin (2 * threads) → List (ℕ × Op)} {w : ℕ}
variable {sBuf rBuf : Fin (2 * threads) → Buffer} {o : Op} {next : o.Resp → Thread threads α}

def opsOf (s : State (machine E) α) (p : Fin (2 * threads)) : List (ℕ × Op) :=
  opsIn (s.proc p).done

def due (s : State (machine E) α) (p : Fin (2 * threads)) : Due :=
  Due.after {} ((opsOf s p).map Prod.snd)

theorem opsOf_answer (mem : Mem threads) (x : o.Resp) (rest : Thread threads α) :
    (fun q => (opsOf (s.set p mem ((s.proc p).answer o x rest)) q).map Prod.snd) =
      addOp (fun q => (opsOf s q).map Prod.snd) p o := by
  funext q
  rw [addOp_apply]
  unfold opsOf
  by_cases hq : q = p
  · subst hq
    rw [if_pos rfl, State.set_proc_self, Proc.answer, opsIn_append, List.map_append]
    rfl
  · rw [if_neg hq, State.set_proc_ne p s mem _ hq]

theorem due_answer (mem : Mem threads) (x : o.Resp) (rest : Thread threads α)
    (q : Fin (2 * threads)) : due (s.set p mem ((s.proc p).answer o x rest)) q =
      if q = p then (due s p).step o else due s q := by
  have hops := congrFun (opsOf_answer (s := s) (p := p) mem x rest) q
  unfold due
  rw [hops, addOp_apply]
  split_ifs with hq
  · rw [Due.after_append]
    rfl
  · rfl

theorem opsOf_enter (c : Unit) : opsOf (s.set p s.mem ((s.proc p).enter c)) = opsOf s := by
  funext q
  unfold opsOf
  rw [State.done_set_enter]

theorem opsOf_leave (c : Unit) (rest : Thread threads α) :
    opsOf (s.set p s.mem ((s.proc p).leave c rest)) = opsOf s := by
  funext q
  unfold opsOf
  by_cases hq : q = p
  · subst hq
    rw [State.set_proc_self, Proc.leave, opsIn_append]
    exact List.append_nil _
  · rw [State.set_proc_ne p s _ _ hq]

theorem accounts_of_reachable (hs : Reachable (Mem.init sBuf rBuf) code s) :
    Accounts E s.mem fun q => (opsOf s q).map Prod.snd := by
  induction hs with
  | refl => exact accounts_init sBuf rBuf
  | tail _ hstep ih =>
    cases hstep with
    | op p o next x mem hcode hperform =>
      rw [opsOf_answer]
      exact ih.perform (e := 0) hperform
    | enter p c next hcode hout =>
      rw [opsOf_enter]
      exact ih
    | leave p c next v hcode hin hall =>
      rw [opsOf_leave]
      exact ih
    | drift mem hdrift => exact ih.drift hdrift

/-- A thread inside `ct_tbarrier` has not returned from its last call. -/
theorem inside_pos (hs : Reachable (Mem.init sBuf rBuf) code s) (hin : (s.mem.waiter p).Inside) :
    0 < (due s p).inside := by
  induction hs with
  | refl => exact absurd rfl hin
  | @tail s s' hs hstep ih =>
    cases hstep with
    | op q o next x mem hcode hperform =>
      rw [due_answer]
      rw [State.set_mem] at hin
      rcases waiter_perform (e := 0) hperform p with hsame | ⟨rfl, rfl⟩
      · rw [hsame] at hin
        have hpos := ih hin
        split_ifs with hp
        · subst hp
          cases o with
          | returnTbarrier => exact absurd hperform.1 hin
          | callTbarrier => exact Nat.succ_pos _
          | _ => exact hpos
        · exact hpos
      · rw [if_pos rfl]
        exact Nat.succ_pos _
    | enter q c next hcode hout =>
      rw [due, opsOf_enter]
      exact ih hin
    | leave q c next v hcode hin' hall =>
      rw [due, opsOf_leave]
      exact ih hin
    | drift mem hdrift => exact ih (inside_of_drift hdrift hin)

/-- The programs follow the oracle, do what is planned, and make their calls and handshakes in the
same order. -/
structure Orderly (E : Setup threads) (Ω : Oracle interface (2 * threads))
    (code : Fin (2 * threads) → Thread threads α) (plan : Fin (2 * threads) → List (ℕ × Op))
    (w : ℕ) : Prop where
  coherent : Coherent Ω code
  clocks : ∀ p k, Ω.resp p (.getTimeUsec k) = E.clock p k
  plan_eq : ∀ p, opsIn (trace Ω p 0 (code p)) = plan p
  even : ∀ p q, lastEpoch Ω p 0 (code p) = lastEpoch Ω q 0 (code q)
  closed : ∀ p, Due.Closed w ((plan p).map Prod.snd)
  marks_eq : ∀ p q, marks p (plan p) = marks q (plan q)

namespace Orderly

variable (h : Orderly E Ω code plan w) (hs : Reachable (Mem.init sBuf rBuf) code s)
include h hs

theorem follows : Follows Ω code s := by
  refine (follows_of_reachable h.coherent ?_ hs).2
  intro s _ _ p o next x mem _ hperform
  cases o with
  | getTimeUsec k => exact hperform.1.trans (h.clocks p k).symm
  | _ => rfl

/-- What a thread has done and what it still has to do. -/
theorem opsOf_append (p : Fin (2 * threads)) :
    opsOf s p ++ opsIn (trace Ω p (s.proc p).epoch (s.proc p).code) = plan p := by
  rw [← h.plan_eq p, ← (h.follows hs).path p, opsIn_append]
  rfl

theorem legal (p : Fin (2 * threads)) : Due.Legal w {} ((opsOf s p).map Prod.snd) := by
  have hclosed := (h.closed p).1
  rw [← h.opsOf_append hs p, List.map_append, Due.legal_append] at hclosed
  exact hclosed.1

/-- The next operation is allowed. -/
theorem allows (hcode : (s.proc p).code = .op o next) : (due s p).Allows w o := by
  have hclosed := (h.closed p).1
  rw [← h.opsOf_append hs p, hcode, List.map_append, Due.legal_append] at hclosed
  exact hclosed.2.1

theorem due_eq (p : Fin (2 * threads)) :
    (due s p).scq = (s.mem.ep p).scq + (s.mem.ep p).writing + (s.mem.ep p).sending ∧
      (due s p).rcq = (s.mem.ep p).rcq + (s.mem.ep p).recvs := by
  obtain ⟨hscq, hrcq, -⟩ := Due.counts_after (h.legal hs p)
  have hacc := (accounts_of_reachable hs).balanced p
  have hscq' := hacc.scq
  have hrcq' := hacc.rcq
  unfold due
  dsimp only at hscq hrcq
  constructor <;> omega

end Orderly

end Runs

end CrayTests.OneSidedTest
