import CrayTests.RankProgram

/-!
# The log of all operations

A machine that answers every operation from a table and keeps a log. In every reachable state the
log is sorted by epochs, and the entries of a rank are the first of its trace. The ranks need not
make equally many collective calls: when one stops after its `limit`-th call, the others get as far
as their next one, and each has done exactly the operations of its trace up to there.
-/

namespace RankProgram

variable {I : Interface} {n : ℕ} {α : Type}

/-- An operation with the rank that performed it and the epoch that rank was in. -/
structure Entry (I : Interface) (n : ℕ) where
  rank : Fin n
  epoch : ℕ
  op : I.Op

@[reducible] def recorder (answer : Fin n → (o : I.Op) → I.Resp o) : Machine I n where
  Mem := List (Entry I n)
  perform r e o log x log' := x = answer r o ∧ log' = log ++ [⟨r, e, o⟩]
  drift _ _ := False

def opsIn (l : List (ℕ × Event I)) : List (ℕ × I.Op) :=
  l.filterMap fun x =>
    match x.2 with
    | .op o _ => some (x.1, o)
    | .sync _ => none

@[simp] theorem opsIn_append (xs ys : List (ℕ × Event I)) :
    opsIn (xs ++ ys) = opsIn xs ++ opsIn ys := List.filterMap_append

theorem mem_opsIn {l : List (ℕ × Event I)} {e : ℕ} {o : I.Op} :
    (e, o) ∈ opsIn l ↔ ∃ x, (e, Event.op o x) ∈ l := by
  unfold opsIn
  rw [List.mem_filterMap]
  constructor
  · rintro ⟨⟨d, ev | c⟩, hmem, hev⟩
    · obtain ⟨rfl, rfl⟩ := Prod.mk.inj (Option.some.inj hev)
      exact ⟨_, hmem⟩
    · cases hev
  · rintro ⟨x, hmem⟩
    exact ⟨_, hmem, rfl⟩

abbrev inEpoch {O : Type} (e : ℕ) (ops : List O) : List (ℕ × O) := ops.map (Prod.mk e)

/-- Where the operations are listed by epochs, the first of them up to some point of epoch `e` are
those of the epochs before, and the first ones of that epoch. -/
theorem split_at_epoch {O : Type} {stage : ℕ → List O} {m e : ℕ} {done rest : List (ℕ × O)}
    (h : done ++ rest = (List.range m).flatMap fun d => inEpoch d (stage d)) (he : e < m)
    (hdone : ∀ x ∈ done, x.1 ≤ e) (hrest : ∀ x ∈ rest, e ≤ x.1) :
    ∃ part, part <+: stage e ∧
      done = ((List.range e).flatMap fun d => inEpoch d (stage d)) ++ inEpoch e part := by
  have hrange : List.range m = List.range e ++ e :: (List.range (m - (e + 1))).map (e + 1 + ·) := by
    rw [← Nat.add_sub_of_le (Nat.succ_le_of_lt he), List.range_add, List.range_succ]
    simp
  rw [hrange, List.flatMap_append, List.flatMap_cons] at h
  rcases List.append_eq_append_iff.mp h with ⟨before, hbefore, hrest'⟩ | ⟨done', rfl, hmid⟩
  · -- nothing of the epochs before is left
    cases before with
    | nil =>
      refine ⟨[], List.nil_prefix, ?_⟩
      rw [hbefore]
      simp
    | cons x before =>
      have hx : x ∈ (List.range e).flatMap fun d => inEpoch d (stage d) :=
        hbefore ▸ List.mem_append_right _ List.mem_cons_self
      obtain ⟨d, hd, hx⟩ := List.mem_flatMap.mp hx
      obtain ⟨o, -, rfl⟩ := List.mem_map.mp hx
      have hle := hrest (d, o) (by rw [hrest']; exact List.mem_cons_self)
      exact absurd (List.mem_range.mp hd) (not_lt.mpr hle)
  · rcases List.append_eq_append_iff.mp hmid.symm with ⟨after, hafter, -⟩ | ⟨late, rfl, hlate⟩
    · obtain ⟨part, after', hstage, hpart, -⟩ := List.map_eq_append_iff.mp hafter
      exact ⟨part, ⟨after', hstage.symm⟩, by rw [← hpart]⟩
    · -- and nothing of the epochs after is done
      cases late with
      | nil => exact ⟨stage e, List.prefix_refl _, by rw [List.append_nil]⟩
      | cons x late =>
        have hx : x ∈ ((List.range (m - (e + 1))).map (e + 1 + ·)).flatMap
            fun d => inEpoch d (stage d) := hlate ▸ List.mem_append_left _ List.mem_cons_self
        obtain ⟨d, hd, hx⟩ := List.mem_flatMap.mp hx
        obtain ⟨i, -, rfl⟩ := List.mem_map.mp hd
        obtain ⟨o, -, rfl⟩ := List.mem_map.mp hx
        have := hdone (e + 1 + i, o) (by simp)
        dsimp only at this
        omega

/-- Entered in epoch `e`, the program performs `ops` and returns `a` in epoch `e'`, and brings to
its collective calls what the oracle gathers. -/
structure Conforms (Ω : Oracle I n) (r : Fin n) (e : ℕ) (p : Program I n α)
    (ops : List (ℕ × I.Op)) (a : α) (e' : ℕ) : Prop where
  ops_eq : opsIn (trace Ω r e p) = ops
  result_eq : result Ω r e p = a
  lastEpoch_eq : lastEpoch Ω r e p = e'
  brings : ∀ d c, (d, Event.sync c) ∈ trace Ω r e p → c = Ω.gathered d r

namespace Conforms

variable {β : Type} {Ω : Oracle I n} {r : Fin n} {e e' e'' : ℕ} {ops ops' : List (ℕ × I.Op)}

theorem congr {p : Program I n α} {a : α} (hops : ops = ops') (hp : Conforms Ω r e p ops a e') :
    Conforms Ω r e p ops' a e' := hops ▸ hp

theorem pure (a : α) : Conforms Ω r e (.pure a) [] a e := ⟨rfl, rfl, rfl, fun _ _ h => by cases h⟩

theorem bind {p : Program I n α} {f : α → Program I n β} {a : α} {b : β}
    (hp : Conforms Ω r e p ops a e') (hf : Conforms Ω r e' (f a) ops' b e'') :
    Conforms Ω r e (p.bind f) (ops ++ ops') b e'' where
  ops_eq := by
    rw [trace_bind, opsIn_append, hp.ops_eq, hp.lastEpoch_eq, hp.result_eq, hf.ops_eq]
  result_eq := by rw [result_bind, hp.lastEpoch_eq, hp.result_eq, hf.result_eq]
  lastEpoch_eq := by rw [lastEpoch_bind, hp.lastEpoch_eq, hp.result_eq, hf.lastEpoch_eq]
  brings d c h := by
    rw [trace_bind, hp.lastEpoch_eq, hp.result_eq] at h
    exact (List.mem_append.mp h).elim (hp.brings d c) (hf.brings d c)

/-- What comes first performs no operation. -/
theorem silent {p : Program I n α} {f : α → Program I n β} {a : α} {b : β}
    (hp : Conforms Ω r e p [] a e') (hf : Conforms Ω r e' (f a) ops b e'') :
    Conforms Ω r e (p.bind f) ops b e'' := hp.bind hf

theorem op {o : I.Op} {next : I.Resp o → Program I n α} {a : α}
    (h : Conforms Ω r e (next (Ω.resp r o)) ops a e') :
    Conforms Ω r e (.op o next) ((e, o) :: ops) a e' where
  ops_eq := congrArg (List.cons (e, o)) h.ops_eq
  result_eq := h.result_eq
  lastEpoch_eq := h.lastEpoch_eq
  brings d c hmem := by
    rcases List.mem_cons.mp hmem with heq | hmem
    · cases heq
    · exact h.brings d c hmem

theorem sync {c : I.Coll} {next : (Fin n → I.Coll) → Program I n α} {a : α}
    (hc : c = Ω.gathered e r) (h : Conforms Ω r (e + 1) (next (Ω.gathered e)) ops a e') :
    Conforms Ω r e (.sync c next) ops a e' where
  ops_eq := h.ops_eq
  result_eq := h.result_eq
  lastEpoch_eq := h.lastEpoch_eq
  brings d c' hmem := by
    rcases List.mem_cons.mp hmem with heq | hmem
    · obtain ⟨rfl, hev⟩ := Prod.mk.inj heq
      cases hev
      exact hc
    · exact h.brings d c' hmem

/-- Two parts of one epoch. -/
theorem stay {p : Program I n α} {f : α → Program I n β} {a : α} {b : β} {os os' : List I.Op}
    (hp : Conforms Ω r e p (inEpoch e os) a e) (hf : Conforms Ω r e (f a) (inEpoch e os') b e) :
    Conforms Ω r e (p.bind f) (inEpoch e (os ++ os')) b e :=
  congr List.map_append.symm (hp.bind hf)

/-- A loop by an invariant `st` on the loop state; `ep k` is the epoch before round `k`. -/
theorem loopEpochs (body : ℕ → α → Program I n α) {i : ℕ} (count : ℕ) (st : ℕ → α) (ep : ℕ → ℕ)
    (ops : ℕ → List (ℕ × I.Op))
    (hbody : ∀ k < count,
      Conforms Ω r (ep k) (body (i + k) (st k)) (ops k) (st (k + 1)) (ep (k + 1))) :
    Conforms Ω r (ep 0) (Program.loop body i count (st 0)) ((List.range count).flatMap ops)
      (st count) (ep count) := by
  induction count generalizing i st ep ops with
  | zero => exact .pure _
  | succ count ih =>
    have hrest := ih (i := i + 1) (fun k => st (k + 1)) (fun k => ep (k + 1))
      (fun k => ops (k + 1)) (fun k hk => by
        have := hbody (k + 1) (by omega)
        rwa [← Nat.add_assoc, Nat.add_right_comm] at this)
    have := (hbody 0 (Nat.succ_pos _)).bind hrest
    rwa [List.range_succ_eq_map, List.flatMap_cons, List.flatMap_map]

/-- A loop within one epoch. -/
theorem loop (body : ℕ → α → Program I n α) {i : ℕ} (count : ℕ) (st : ℕ → α)
    (os : ℕ → List I.Op)
    (hbody : ∀ k < count, Conforms Ω r e (body (i + k) (st k)) (inEpoch e (os k)) (st (k + 1)) e) :
    Conforms Ω r e (Program.loop body i count (st 0)) (inEpoch e ((List.range count).flatMap os))
      (st count) e :=
  congr List.map_flatMap.symm (loopEpochs body count st (fun _ => e) _ hbody)

end Conforms

theorem coherent_of_conforms {Ω : Oracle I n} {code : Fin n → Program I n α}
    {ops : Fin n → List (ℕ × I.Op)} {a : Fin n → α} {e : Fin n → ℕ}
    (h : ∀ r, Conforms Ω r 0 (code r) (ops r) (a r) (e r)) : Coherent Ω code :=
  fun r => (h r).brings

def entriesOf (r : Fin n) (log : List (Entry I n)) : List (ℕ × I.Op) :=
  (log.filter fun x => x.rank = r).map fun x => (x.epoch, x.op)

theorem entriesOf_append (r : Fin n) (log log' : List (Entry I n)) :
    entriesOf r (log ++ log') = entriesOf r log ++ entriesOf r log' := by
  simp [entriesOf]

theorem mem_entriesOf {r : Fin n} {log : List (Entry I n)} {e : ℕ} {o : I.Op} :
    (e, o) ∈ entriesOf r log ↔ ⟨r, e, o⟩ ∈ log := by
  unfold entriesOf
  simp only [List.mem_map, List.mem_filter, decide_eq_true_eq, Prod.mk.injEq]
  constructor
  · rintro ⟨⟨r', e', o'⟩, ⟨hmem, rfl⟩, rfl, rfl⟩
    exact hmem
  · intro hmem
    exact ⟨_, ⟨hmem, rfl⟩, rfl, rfl⟩

/-- When one rank has all entries that satisfy a condition, they can be counted there. -/
theorem countP_entriesOf {r : Fin n} {log : List (Entry I n)} {p : I.Op → Bool}
    (h : ∀ x ∈ log, p x.op = true → x.rank = r) :
    log.countP (fun x => p x.op) = (entriesOf r log).countP fun y => p y.2 := by
  unfold entriesOf
  rw [List.countP_map, List.countP_filter]
  apply List.countP_congr
  intro x hx
  simp only [Function.comp_apply, Bool.and_eq_true, decide_eq_true_eq]
  exact ⟨fun hp => ⟨hp, h x hx hp⟩, And.left⟩

theorem Follows.length_sent_le {m : Machine I n} {Ω : Oracle I n} {code : Fin n → Program I n α}
    {s : State m α} (hf : Follows Ω code s) (r : Fin n) :
    (s.proc r).sent.length ≤ lastEpoch Ω r 0 (code r) := by
  have hhor := hf.horizon r
  rcases hf.waits r with hw | ⟨c, next, hcode, hw⟩
  · have := le_lastEpoch Ω r (s.proc r).epoch (s.proc r).code
    omega
  · rw [hcode, lastEpoch] at hhor
    have := le_lastEpoch Ω r ((s.proc r).epoch + 1) (next (Ω.gathered (s.proc r).epoch))
    omega

section Recorder

variable {answer : Fin n → (o : I.Op) → I.Resp o} {Ω : Oracle I n}
  {code : Fin n → Program I n α} {s : State (recorder answer) α}

structure Recorded (s : State (recorder answer) α) : Prop where
  sorted : s.mem.Pairwise fun x y => x.epoch ≤ y.epoch
  entries : ∀ r, entriesOf r s.mem = opsIn (s.proc r).done

theorem recorder_follows (hΩ : Coherent Ω code) (hresp : Ω.resp = answer)
    (hs : Reachable [] code s) : Follows Ω code s := by
  refine (follows_of_reachable hΩ ?_ hs).2
  rintro s _ _ r o next x mem _ ⟨rfl, -⟩
  rw [hresp]

/-- The log is sorted, and the entries of a rank are the operations that it has done. -/
theorem recorded_of_reachable (hΩ : Coherent Ω code) (hresp : Ω.resp = answer)
    (hs : Reachable [] code s) : Recorded s := by
  induction hs with
  | refl => exact ⟨List.Pairwise.nil, fun _ => rfl⟩
  | @tail s s' hreach hstep ih =>
    have hf := recorder_follows hΩ hresp hreach
    cases hstep with
    | op r o next x log hcode hperform =>
      obtain ⟨rfl, rfl⟩ := hperform
      refine ⟨?_, fun q => ?_⟩
      · simp only [State.set_mem]
        rw [List.pairwise_append]
        refine ⟨ih.sorted, List.pairwise_singleton _ _, ?_⟩
        rintro ⟨q, e, o'⟩ hmem y hy
        rw [List.mem_singleton.mp hy]
        -- the rank of an earlier entry is not past the epoch of this one
        have hentry := mem_entriesOf.mpr hmem
        rw [ih.entries] at hentry
        obtain ⟨x, hdone⟩ := mem_opsIn.mp hentry
        exact (hf.past q e _ hdone).trans (hf.epoch_le_of_op hcode)
      · rw [State.set_mem, entriesOf_append, ih.entries q]
        by_cases hq : q = r
        · subst hq
          simp only [State.set_proc_self, Proc.answer, opsIn_append]
          congr 1
          simp [entriesOf, opsIn]
        · simp [State.set_proc_ne r s _ _ hq, entriesOf, Ne.symm hq]
    | enter r c next hcode hout =>
      refine ⟨ih.sorted, fun q => ?_⟩
      rw [State.set_mem, State.done_set_enter, ih.entries]
    | leave r c next v hcode hin hall =>
      refine ⟨ih.sorted, fun q => ?_⟩
      rw [State.set_mem, ih.entries]
      by_cases hq : q = r
      · subst hq
        simp [Proc.leave, opsIn]
      · rw [State.set_proc_ne r s _ _ hq]
    | drift log hdrift => exact hdrift.elim

namespace Recorded

variable (h : Recorded s)
include h

theorem mem_log {r : Fin n} {e : ℕ} {o : I.Op} :
    ⟨r, e, o⟩ ∈ s.mem ↔ (e, o) ∈ opsIn (s.proc r).done := by
  rw [← h.entries, mem_entriesOf]

theorem mem_trace (hf : Follows Ω code s) {r : Fin n} {e : ℕ} {o : I.Op}
    (hmem : ⟨r, e, o⟩ ∈ s.mem) : (e, o) ∈ opsIn (trace Ω r 0 (code r)) := by
  obtain ⟨x, hdone⟩ := mem_opsIn.mp (h.mem_log.mp hmem)
  exact mem_opsIn.mpr ⟨x, hf.mem_trace_of_done hdone⟩

/-- What comes in front of an entry in another rank's trace, by epochs, comes in front of it in the
log, and nothing earlier comes after it. -/
theorem split (hf : Follows Ω code s) {pre post : List (Entry I n)} {x : Entry I n}
    (hlog : s.mem = pre ++ x :: post) :
    (∀ r e o, (e, o) ∈ opsIn (trace Ω r 0 (code r)) → e < x.epoch → ⟨r, e, o⟩ ∈ pre) ∧
      ∀ y ∈ post, x.epoch ≤ y.epoch := by
  have hsorted := h.sorted
  rw [hlog, List.pairwise_append, List.pairwise_cons] at hsorted
  obtain ⟨-, ⟨hpost, -⟩, -⟩ := hsorted
  refine ⟨fun r e o hmem hlt => ?_, hpost⟩
  have hx : x ∈ s.mem := hlog ▸ List.mem_append_right _ List.mem_cons_self
  have hpast : x.epoch ≤ (s.proc x.rank).epoch := by
    obtain ⟨v, hdone⟩ := mem_opsIn.mp (h.mem_log.mp hx)
    exact hf.past _ _ _ hdone
  obtain ⟨v, htrace⟩ := mem_opsIn.mp hmem
  have hdone := hf.op_done x.rank r htrace (hlt.trans_le hpast)
  have hin := h.mem_log.mpr (mem_opsIn.mpr ⟨v, hdone⟩)
  rw [hlog] at hin
  rcases List.mem_append.mp hin with hin | hin
  · exact hin
  · rcases List.mem_cons.mp hin with rfl | hin
    · exact absurd hlt (lt_irrefl _)
    · have := hpost _ hin
      simp only at this
      omega

/-- The entries of a rank that satisfy a condition are at most those of its trace. -/
theorem countP_le (hf : Follows Ω code s) (r : Fin n) (p : ℕ × I.Op → Bool) :
    (entriesOf r s.mem).countP p ≤ (opsIn (trace Ω r 0 (code r))).countP p := by
  rw [h.entries, ← hf.path r, opsIn_append, List.countP_append]
  exact Nat.le_add_right _ _

end Recorded

theorem recorder_not_op (hfinal : Final s) {r : Fin n} {o : I.Op}
    {next : I.Resp o → Program I n α} (hcode : (s.proc r).code = .op o next) : False :=
  hfinal.not_op hcode (answer r o) _ ⟨rfl, rfl⟩

/-- When some rank stops after its `limit`-th collective call and none before, all ranks leave
exactly `limit` calls. -/
theorem epoch_of_final (hf : Follows Ω code s) (hfinal : Final s) {limit : ℕ}
    (hall : ∀ r, limit ≤ lastEpoch Ω r 0 (code r)) {q : Fin n}
    (hq : lastEpoch Ω q 0 (code q) = limit) (r : Fin n) : (s.proc r).epoch = limit := by
  have hgo (r : Fin n) (hr : (s.proc r).epoch < limit) :
      ∃ c next, (s.proc r).code = .sync c next := by
    cases hcode : (s.proc r).code with
    | pure a =>
      have hhor := hf.horizon r
      have hle := hall r
      rw [hcode, lastEpoch_pure] at hhor
      omega
    | op o next => exact (recorder_not_op hfinal hcode).elim
    | sync c next => exact ⟨c, next, rfl⟩
  have hsent := hfinal.le_sent hf.paced hgo
  have hupper : (s.proc r).epoch ≤ limit := (hf.behind r q).trans ((hf.length_sent_le q).trans hq.le)
  refine hupper.antisymm (not_lt.mp fun hlt => ?_)
  obtain ⟨c, next, hcode⟩ := hgo r hlt
  obtain ⟨-, p, hp⟩ := hfinal.exists_behind hf.paced hcode
  have := hsent p
  omega

/-- Then a rank has returned if it makes no further call, and has done the operations of its trace
in front of that call. -/
theorem done_of_final (hf : Follows Ω code s) (hfinal : Final s) {limit : ℕ} {r : Fin n}
    (hr : (s.proc r).epoch = limit) :
    opsIn (s.proc r).done = (opsIn (trace Ω r 0 (code r))).filter (fun x => x.1 ≤ limit) ∧
      ∀ a, (s.proc r).code = .pure a ↔
        lastEpoch Ω r 0 (code r) = limit ∧ result Ω r 0 (code r) = a := by
  have hhor := hf.horizon r
  have hout := hf.outcome r
  have hkeep : (opsIn (s.proc r).done).filter (fun x => decide (x.1 ≤ limit)) =
      opsIn (s.proc r).done := by
    apply List.filter_eq_self.mpr
    rintro ⟨e, o⟩ hmem
    obtain ⟨x, hdone⟩ := mem_opsIn.mp hmem
    simpa [hr] using hf.past r e _ hdone
  have hsplit : opsIn (trace Ω r 0 (code r)) = opsIn (s.proc r).done ++
      opsIn (trace Ω r limit (s.proc r).code) := by
    rw [← hf.path r, opsIn_append, hr]
  rw [hr] at hhor hout
  rw [hsplit, List.filter_append, hkeep]
  cases hcode : (s.proc r).code with
  | pure a =>
    rw [hcode, lastEpoch_pure] at hhor
    rw [hcode, result_pure] at hout
    refine ⟨by simp [opsIn], fun b => ?_⟩
    rw [← hhor, ← hout]
    simp
  | op o next => exact (recorder_not_op hfinal hcode).elim
  | sync c next =>
    rw [hcode, lastEpoch] at hhor
    have hle := le_lastEpoch Ω r (limit + 1) (next (Ω.gathered limit))
    refine ⟨?_, fun b => ?_⟩
    · have hrest : (opsIn (trace Ω r limit (.sync c next))).filter
          (fun x => decide (x.1 ≤ limit)) = [] := by
        apply List.filter_eq_nil_iff.mpr
        rintro ⟨e, o⟩ hmem
        obtain ⟨x, htrace⟩ := mem_opsIn.mp hmem
        rw [trace] at htrace
        have hle := le_of_mem_trace Ω r ((List.mem_cons.mp htrace).resolve_left (by simp))
        simp only [decide_eq_true_eq]
        omega
      rw [hrest, List.append_nil]
    · constructor
      · intro h
        cases h
      · rintro ⟨hlast, -⟩
        omega

/-- Every reachable state can be run until no step is left. -/
theorem recorder_exists_final (hΩ : Coherent Ω code) (hresp : Ω.resp = answer)
    (hs : Reachable [] code s) : ∃ s', Relation.ReflTransGen Step s s' ∧ Final s' := by
  induction hk : workBound Ω code - s.work using Nat.strongRecOn generalizing s with
  | ind k ih =>
    by_cases hstep : ∃ s', Step s s'
    · obtain ⟨s', hstep⟩ := hstep
      have hs' : Reachable [] code s' := hs.tail hstep
      have hw := work_step (m := recorder answer) (fun _ _ h => h) hstep
      have hb := (recorder_follows hΩ hresp hs').work_le
      obtain ⟨t, hrun, hfinal⟩ := ih _ (by omega) hs' rfl
      exact ⟨t, hrun.head hstep, hfinal⟩
    · exact ⟨s, .refl, not_exists.mp hstep⟩

end Recorder

end RankProgram
