import CrayTests.MessagingSchedule

/-!
# Rounds of completions

A round posts operations on one queue of a rank and then consumes as many completions. `counted`
is what the operations of a rank consume: one completion for each `take`, and at a reset the
number that was awaited. In every reachable state, the posted operations of a rank are those
counted and those still due.
-/

namespace Messaging

open RankProgram

variable {n : ℕ} {M C α : Type} {clock : Fin n → ℕ → ℕ}
  {code : Fin n → Program (interface n M C) n α} {Ω : Oracle (interface n M C) n}
  {s : State (machine M C clock) α}

def Op.postsOn : Op n M → Option Queue
  | .send _ _ => some .send
  | .recv _ _ => some .recv
  | _ => none

def posts (q : Queue) (ops : List (Op n M)) : ℕ := ops.countP fun o => o.postsOn = some q

@[simp] theorem posts_append (q : Queue) (xs ys : List (Op n M)) :
    posts q (xs ++ ys) = posts q xs + posts q ys := List.countP_append

@[simp] theorem posts_nil (q : Queue) : posts q ([] : List (Op n M)) = 0 := rfl

@[simp] theorem posts_cons (q : Queue) (o : Op n M) (ops : List (Op n M)) :
    posts q (o :: ops) = posts q ops + if o.postsOn = some q then 1 else 0 := by
  simp [posts, List.countP_cons]

theorem posts_eq_zero {q : Queue} {ops : List (Op n M)} (h : ∀ o ∈ ops, o.postsOn = none) :
    posts q ops = 0 := by
  apply List.countP_eq_zero.mpr
  intro o ho
  simp [h o ho]

theorem mem_sendsTo {b : Fin n} {m : M} {ops : List (Op n M)} :
    m ∈ sendsTo b ops ↔ .send b m ∈ ops := by
  unfold sendsTo
  rw [List.mem_filterMap]
  constructor
  · rintro ⟨o, ho, hm⟩
    cases o <;> simp at hm
    obtain ⟨rfl, rfl⟩ := hm
    exact ho
  · intro h
    exact ⟨_, h, by simp⟩

theorem sendsTo_eq_nil {x : Fin n} {ops : List (Op n M)} (h : ∀ o ∈ ops, o.postsOn = none) :
    sendsTo x ops = [] := by
  apply List.filterMap_eq_nil_iff.mpr
  intro o ho
  have := h o ho
  cases o <;> simp_all [Op.postsOn]

theorem recvsFrom_eq_nil {x : Fin n} {ops : List (Op n M)} (h : ∀ o ∈ ops, o.postsOn = none) :
    recvsFrom x ops = [] := by
  apply List.filterMap_eq_nil_iff.mpr
  intro o ho
  have := h o ho
  cases o <;> simp_all [Op.postsOn]

namespace Acct

variable {a : Acct} {o : Op n M} {ops xs ys : List (Op n M)}

def counts (a : Acct) (q : Queue) : Op n M → ℕ
  | .take p => if p = q then 1 else 0
  | .reset p => if p = q then (a.awaited q).getD 0 else 0
  | _ => 0

def counted (a : Acct) (q : Queue) : List (Op n M) → ℕ
  | [] => 0
  | o :: ops => a.counts q o + (a.step o).counted q ops

theorem counted_append (q : Queue) :
    a.counted q (xs ++ ys) = a.counted q xs + (a.after xs).counted q ys := by
  induction xs generalizing a with
  | nil => simp [counted, after]
  | cons o xs ih =>
    rw [List.cons_append, counted, counted, ih, Nat.add_assoc]
    rfl

/-- An awaited number is the number of completions due. -/
def Exact (a : Acct) : Prop := ∀ q k, a.awaited q = some k → a.out q = k

theorem exact_start : start.Exact := by
  intro q k h
  simp [start] at h

theorem Exact.step (ha : a.Exact) (ho : a.Allows o) : (a.step o).Exact := by
  intro q k hk
  have hkeep (p : Queue) (v : ℕ) (h : Function.update a.awaited p none q = some k) :
      Function.update a.out p v q = k := by
    by_cases hq : q = p
    · simp [hq] at h
    · rw [Function.update_of_ne hq] at h ⊢
      exact ha q k h
  cases o with
  | send b m => exact hkeep _ _ hk
  | recv b m => exact hkeep _ _ hk
  | take p => exact hkeep _ _ hk
  | reset p => exact hkeep _ _ hk
  | clock i => exact ha q k hk
  | await p i =>
    by_cases hq : q = p
    · subst hq
      have hi : i = a.out q := ho
      simp only [Acct.step, Function.update_self, Option.some.injEq] at hk
      exact hi.symm.trans hk
    · simp only [Acct.step, Function.update_of_ne hq] at hk
      exact ha q k hk

theorem Exact.posts_add_out_step (ha : a.Exact) (ho : a.Allows o) (q : Queue) :
    posts q [o] + a.out q = a.counts q o + (a.step o).out q := by
  cases o with
  | send b m =>
    by_cases hq : q = .send
    · simp [hq, posts, Op.postsOn, counts, Acct.step, post, Nat.add_comm]
    · simp [Ne.symm hq, hq, posts, Op.postsOn, counts, Acct.step, post]
  | recv b m =>
    by_cases hq : q = .recv
    · simp [hq, posts, Op.postsOn, counts, Acct.step, post, Nat.add_comm]
    · simp [Ne.symm hq, hq, posts, Op.postsOn, counts, Acct.step, post]
  | take p =>
    have hp : 0 < a.out p := ho
    by_cases hq : q = p
    · subst hq
      simp only [posts, Op.postsOn, counts, Acct.step, Function.update_self, if_true,
        List.countP_singleton, reduceCtorEq, decide_false, Bool.false_eq_true, if_false]
      omega
    · simp [Ne.symm hq, hq, posts, Op.postsOn, counts, Acct.step]
  | await p i => simp [posts, Op.postsOn, counts, Acct.step]
  | reset p =>
    obtain ⟨k, hk⟩ := Option.ne_none_iff_exists'.mp ho
    by_cases hq : q = p
    · subst hq
      simp [posts, Op.postsOn, counts, Acct.step, hk, ha q k hk]
    · simp [Ne.symm hq, hq, posts, Op.postsOn, counts, Acct.step]
  | clock i => simp [posts, Op.postsOn, counts, Acct.step]

/-- Every posted operation is counted once or still due. -/
theorem Exact.posts_add_out (ha : a.Exact) (hb : a.Balanced ops) (q : Queue) :
    posts q ops + a.out q = a.counted q ops + (a.after ops).out q := by
  induction ops generalizing a with
  | nil => simp [posts, counted, after]
  | cons o ops ih =>
    have hstep := ha.posts_add_out_step hb.1 q
    have hrest := ih (ha.step hb.1) hb.2
    have hcons : posts q (o :: ops) = posts q [o] + posts q ops := posts_append q [o] ops
    have hafter : a.after (o :: ops) = (a.step o).after ops := rfl
    rw [hcons, counted, hafter]
    omega

def Clear (a : Acct) : Prop := ∀ q, a.out q = 0

theorem clear_start : start.Clear := fun _ => rfl

end Acct

/-- From an account without due completions, the operations are balanced and leave none due. -/
def Closed (ops : List (Op n M)) : Prop :=
  ∀ a : Acct, a.Clear → a.Balanced ops ∧ (a.after ops).Clear

theorem closed_nil : Closed ([] : List (Op n M)) := fun _ ha => ⟨trivial, ha⟩

theorem Closed.append {xs ys : List (Op n M)} (hx : Closed xs) (hy : Closed ys) :
    Closed (xs ++ ys) := by
  intro a ha
  obtain ⟨hbx, hcx⟩ := hx a ha
  obtain ⟨hby, hcy⟩ := hy _ hcx
  rw [Acct.balanced_append, Acct.after_append]
  exact ⟨⟨hbx, hby⟩, hcy⟩

theorem closed_clocks {ops : List (Op n M)} (h : ∀ o ∈ ops, ∃ k, o = .clock k) : Closed ops := by
  induction ops with
  | nil => exact closed_nil
  | cons o ops ih =>
    obtain ⟨k, rfl⟩ := h o List.mem_cons_self
    have hclock : Closed [(.clock k : Op n M)] := fun _ ha => ⟨⟨trivial, trivial⟩, ha⟩
    exact hclock.append (ih fun o ho => h o (List.mem_cons_of_mem _ ho))

theorem Closed.flatMap {β : Type*} {l : List β} {f : β → List (Op n M)}
    (h : ∀ x ∈ l, Closed (f x)) : Closed (l.flatMap f) := by
  induction l with
  | nil => exact closed_nil
  | cons x l ih =>
    rw [List.flatMap_cons]
    exact (h x List.mem_cons_self).append (ih fun y hy => h y (List.mem_cons_of_mem x hy))

theorem Closed.balanced {ops : List (Op n M)} (h : Closed ops) : Acct.start.Balanced ops :=
  (h _ Acct.clear_start).1

/-- What closed operations post is counted whatever comes after them. -/
theorem Closed.posts_le_counted {xs : List (Op n M)} (h : Closed xs) (q : Queue)
    (ys : List (Op n M)) :
    posts q xs ≤ Acct.start.counted q (xs ++ ys) := by
  obtain ⟨hb, hc⟩ := h _ Acct.clear_start
  have := Acct.exact_start.posts_add_out hb q
  rw [hc q, Acct.clear_start q] at this
  rw [Acct.counted_append]
  omega

/-- The operations that consume `k` completions: a counter is awaited and reset, a queue is taken
from one by one. -/
def consume (counter : Bool) (q : Queue) (k : ℕ) : List (Op n M) :=
  if counter then [.await q k, .reset q] else List.replicate k (.take q)

theorem out_after_posts {q : Queue} {ps : List (Op n M)} (hps : ∀ o ∈ ps, o.postsOn = some q)
    (a : Acct) :
    a.Balanced ps ∧ (a.after ps).out = Function.update a.out q (a.out q + ps.length) := by
  induction ps generalizing a with
  | nil => simp [Acct.Balanced, Acct.after]
  | cons o ps ih =>
    have hstep : a.Allows o ∧ a.step o = a.post q := by
      have ho := hps o List.mem_cons_self
      cases o <;> simp only [Op.postsOn, Option.some.injEq, reduceCtorEq] at ho
      all_goals exact ⟨trivial, ho ▸ rfl⟩
    obtain ⟨hb, hout⟩ := ih (fun o ho => hps o (List.mem_cons_of_mem _ ho)) (a.step o)
    refine ⟨⟨hstep.1, hb⟩, ?_⟩
    have hafter : a.after (o :: ps) = (a.step o).after ps := rfl
    rw [hafter, hout, hstep.2]
    simp only [Acct.post, Function.update_self, Function.update_idem, List.length_cons]
    congr 1
    omega

theorem out_after_consume (counter : Bool) {q : Queue} {k : ℕ} (a : Acct) (ha : a.out q = k) :
    a.Balanced (consume counter q k : List (Op n M)) ∧
      (a.after (consume counter q k : List (Op n M))).out = Function.update a.out q 0 := by
  cases counter with
  | true =>
    refine ⟨⟨ha.symm, ?_, trivial⟩, rfl⟩
    simp [Acct.Allows, Acct.step]
  | false =>
    induction k generalizing a with
    | zero =>
      refine ⟨trivial, ?_⟩
      change a.out = Function.update a.out q 0
      rw [← ha, Function.update_eq_self]
    | succ k ih =>
      have hout : (a.step (.take q : Op n M)).out q = k := by simp [Acct.step, ha]
      obtain ⟨hb, hafter⟩ := ih _ hout
      refine ⟨⟨?_, hb⟩, ?_⟩
      · change 0 < a.out q
        omega
      · have hcons : a.after (consume false q (k + 1) : List (Op n M)) =
            (a.step (.take q : Op n M)).after (consume false q k : List (Op n M)) := rfl
        rw [hcons, hafter]
        simp [Acct.step]

/-- A round: operations posted on a queue, then as many completions consumed. -/
theorem closed_round (counter : Bool) (q : Queue) {ps : List (Op n M)} {k : ℕ}
    (hps : ∀ o ∈ ps, o.postsOn = some q) (hk : ps.length = k) :
    Closed (ps ++ consume counter q k) := by
  intro a ha
  obtain ⟨hb, hout⟩ := out_after_posts hps a
  have hq : (a.after ps).out q = k := by rw [hout, Function.update_self, ha q, hk, Nat.zero_add]
  obtain ⟨hb', hout'⟩ := out_after_consume (M := M) (n := n) counter (a.after ps) hq
  rw [Acct.balanced_append, Acct.after_append]
  refine ⟨⟨hb, hb'⟩, fun p => ?_⟩
  rw [hout', hout]
  by_cases hp : p = q
  · simp [hp]
  · simp [hp, ha p]

theorem prefix_append_cases {β : Type*} {p xs ys : List β} (h : p <+: xs ++ ys) :
    p <+: xs ∨ ∃ p', p' <+: ys ∧ p = xs ++ p' := by
  rcases List.prefix_or_prefix_of_prefix h (List.prefix_append xs ys) with hp | ⟨p', rfl⟩
  · exact .inl hp
  · exact .inr ⟨p', (List.prefix_append_right_inj xs).mp h, rfl⟩

/-- A prefix of a concatenation ends inside one of the parts. -/
theorem prefix_flatMap {β : Type*} {f : ℕ → List β} {count : ℕ} {p : List β}
    (h : p <+: (List.range count).flatMap f) :
    p = (List.range count).flatMap f ∨
      ∃ i < count, ∃ p', p' <+: f i ∧ p = (List.range i).flatMap f ++ p' := by
  induction count with
  | zero => exact .inl (List.prefix_nil.mp h)
  | succ count ih =>
    rw [List.range_succ, List.flatMap_append, List.flatMap_singleton] at h ⊢
    rcases prefix_append_cases h with hfirst | ⟨p', hlast, rfl⟩
    · rcases ih hfirst with rfl | ⟨i, hi, p', hp', hp⟩
      · exact .inr ⟨count, Nat.lt_succ_self _, [], List.nil_prefix, (List.append_nil _).symm⟩
      · exact .inr ⟨i, hi.trans (Nat.lt_succ_self _), p', hp', hp⟩
    · exact .inr ⟨count, Nat.lt_succ_self _, p', hlast, rfl⟩

/-- A prefix of rounds and a tail ends inside a round or in the tail. -/
theorem prefix_rounds {β : Type*} {f : ℕ → List β} {count : ℕ} {p tail : List β}
    (h : p <+: (List.range count).flatMap f ++ tail) :
    ∃ i p', p = (List.range i).flatMap f ++ p' ∧ (p' <+: f i ∨ p' <+: tail) := by
  rcases prefix_append_cases h with hrounds | ⟨p', htail, rfl⟩
  · rcases prefix_flatMap hrounds with rfl | ⟨i, -, p', hp', rfl⟩
    · exact ⟨count, [], (List.append_nil _).symm, .inr List.nil_prefix⟩
    · exact ⟨i, p', rfl, .inl hp'⟩
  · exact ⟨count, p', rfl, .inr htail⟩

theorem posts_le_of_isPrefix {q : Queue} {xs ys : List (Op n M)} (h : xs <+: ys) :
    posts q xs ≤ posts q ys := h.sublist.countP_le

theorem posts_flatMap_range {q : Queue} {f : ℕ → List (Op n M)} {k : ℕ}
    (h : ∀ i, posts q (f i) = k) (count : ℕ) :
    posts q ((List.range count).flatMap f) = count * k := by
  induction count with
  | zero => simp
  | succ count ih =>
    rw [List.range_succ, List.flatMap_append, List.flatMap_singleton, posts_append, ih, h,
      Nat.succ_mul]

def OnlyWith (x : Fin n) (ops : List (Op n M)) : Prop :=
  ∀ o ∈ ops, (∀ b m, o = .send b m → b = x) ∧ ∀ a m, o = .recv a m → a = x

theorem OnlyWith.of_isPrefix {x : Fin n} {xs ys : List (Op n M)} (h : OnlyWith x ys)
    (hp : xs <+: ys) : OnlyWith x xs := fun o ho => h o (hp.subset ho)

theorem OnlyWith.posts_send {x : Fin n} {ops : List (Op n M)} (h : OnlyWith x ops) :
    posts .send ops = (sendsTo x ops).length := by
  induction ops with
  | nil => rfl
  | cons o ops ih =>
    have hrest := ih fun o ho => h o (List.mem_cons_of_mem _ ho)
    have hsplit : sendsTo x (o :: ops) = sendsTo x [o] ++ sendsTo x ops := sendsTo_append x [o] ops
    rw [posts_cons, hrest, hsplit, List.length_append]
    cases o with
    | send b m =>
      obtain rfl := (h _ List.mem_cons_self).1 b m rfl
      simp [Op.postsOn, sendsTo, Nat.add_comm]
    | _ => simp [Op.postsOn, sendsTo]

theorem OnlyWith.posts_recv {x : Fin n} {ops : List (Op n M)} (h : OnlyWith x ops) :
    posts .recv ops = (recvsFrom x ops).length := by
  induction ops with
  | nil => rfl
  | cons o ops ih =>
    have hrest := ih fun o ho => h o (List.mem_cons_of_mem _ ho)
    have hsplit : recvsFrom x (o :: ops) = recvsFrom x [o] ++ recvsFrom x ops :=
      recvsFrom_append x [o] ops
    rw [posts_cons, hrest, hsplit, List.length_append]
    cases o with
    | recv a m =>
      obtain rfl := (h _ List.mem_cons_self).2 a m rfl
      simp [Op.postsOn, recvsFrom, Nat.add_comm]
    | _ => simp [Op.postsOn, recvsFrom]

theorem prefix_of_follows (hf : Follows Ω code s) (r : Fin n) :
    opsOf (s.proc r).done <+: opsOf (trace Ω r 0 (code r)) := by
  rw [← hf.path r, opsOf_append]
  exact List.prefix_append _ _

/-- Every posted operation of a rank is counted once or still due. -/
theorem posts_eq_counted_add_due (hΩ : Predicted clock Ω code) (hbal : BalancedTraces Ω code)
    (hs : Reachable Mem.empty code s) (r : Fin n) (q : Queue) :
    posts q (opsOf (s.proc r).done) =
      Acct.start.counted q (opsOf (s.proc r).done) + s.mem.due r q := by
  obtain ⟨rest, hrest⟩ := prefix_of_follows (hΩ.follows hs) r
  have hb := hbal r
  rw [← hrest, Acct.balanced_append] at hb
  rw [← ((inv_of_reachable hΩ hbal hs).acct r).total q]
  exact Acct.exact_start.posts_add_out hb.1 q

/-- The receives that a rank has counted met messages of its only partner. -/
theorem counted_add_chan_le (hΩ : Predicted clock Ω code) (hbal : BalancedTraces Ω code)
    (hs : Reachable Mem.empty code s) {r x : Fin n}
    (hx : OnlyWith x (opsOf (s.proc r).done)) :
    Acct.start.counted .recv (opsOf (s.proc r).done) + (s.mem.chan x r).length ≤
      (sendsTo r (opsOf (s.proc x).done)).length := by
  have hposts := posts_eq_counted_add_due hΩ hbal hs r .recv
  obtain ⟨k, hks, hkr, hsends, hrecvs⟩ := (inv_of_reachable hΩ hbal hs).fifo x r
  have hchan := congrArg List.length hsends
  rw [List.length_map, List.length_drop] at hchan
  have hposted : (s.mem.posted x r).length ≤ s.mem.due r .recv := by
    have hsum : (s.mem.posted x r).length ≤ ∑ y, (s.mem.posted y r).length :=
      Finset.single_le_sum (f := fun y => (s.mem.posted y r).length) (fun _ _ => Nat.zero_le _)
        (Finset.mem_univ x)
    exact hsum.trans ((Nat.le_add_right _ _).trans (Nat.le_add_right _ _))
  rw [hrecvs, List.length_drop] at hposted
  rw [hx.posts_recv] at hposts
  omega

/-- What a rank is about to reset is the number that it has just awaited. -/
theorem awaited_of_reset (hΩ : Predicted clock Ω code) (hbal : BalancedTraces Ω code)
    (hs : Reachable Mem.empty code s) {r : Fin n} {q : Queue}
    {next : Unit → Program (interface n M C) n α} (hcode : (s.proc r).code = .op (.reset q) next) :
    (Acct.start.after (opsOf (s.proc r).done)).awaited q = some (s.mem.ready r q) := by
  obtain ⟨k, hk⟩ := Option.ne_none_iff_exists'.mp (allows_next hbal (hΩ.follows hs) hcode)
  rw [hk, ((inv_of_reachable hΩ hbal hs).acct r).awaited q k hk |>.1]

theorem due_perform {o : Op n M} {v : Resp o} {x : Fin n} {e : ℕ} {mem mem' : Mem n M}
    (h : perform clock x e o mem v mem') (r : Fin n) (q : Queue) :
    mem'.due r q ≤ mem.due r q + if r = x ∧ o.postsOn = some q then 1 else 0 := by
  have hset (p : Queue) (k : ℕ) (hk : k ≤ mem.ready x p) :
      (mem.setReady x p k).due r q ≤ mem.due r q := by
    rw [Mem.due_setReady]
    split_ifs with hrq
    · obtain ⟨rfl, rfl⟩ := hrq
      unfold Mem.due
      omega
    · exact le_rfl
  cases o with
  | send b m =>
    obtain ⟨eager, rfl⟩ := h
    simp [Mem.due_send, Op.postsOn, eq_comm]
  | recv a m =>
    obtain rfl := h
    simp [Mem.due_recv, Op.postsOn, eq_comm]
  | take p =>
    obtain ⟨-, rfl⟩ := h
    exact (hset p _ (Nat.sub_le _ _)).trans (Nat.le_add_right _ _)
  | await p k =>
    obtain ⟨-, rfl⟩ := h
    exact Nat.le_add_right _ _
  | reset p =>
    obtain rfl := h
    exact (hset p 0 (Nat.zero_le _)).trans (Nat.le_add_right _ _)
  | clock k =>
    obtain ⟨-, rfl⟩ := h
    exact Nat.le_add_right _ _

/-- Without any assumption on the program, an awaited number is at most that of the posted
operations. -/
theorem await_le_posts (hs : Reachable Mem.empty code s) {r : Fin n} {q : Queue} {k : ℕ}
    (h : .await q k ∈ opsOf (s.proc r).done) : k ≤ posts q (opsOf (s.proc r).done) := by
  have hinv : ∀ r q, s.mem.due r q ≤ posts q (opsOf (s.proc r).done) ∧
      ∀ k, .await q k ∈ opsOf (s.proc r).done → k ≤ posts q (opsOf (s.proc r).done) := by
    apply ops_induction (P := fun mem ops => ∀ r q, mem.due r q ≤ posts q (ops r) ∧
      ∀ k, .await q k ∈ ops r → k ≤ posts q (ops r)) _ _ _ hs
    · intro r q
      cases q <;> simp [Mem.due, Mem.unfinished, Mem.empty]
    · intro s x o next v mem _ _ hperform ih r q
      obtain ⟨hdue, hawait⟩ := ih r q
      dsimp only at hdue hawait
      have hgrow := due_perform hperform r q
      by_cases hr : r = x
      · subst hr
        simp only [addOp, Function.update_self, posts_append, posts_cons, posts_nil, List.mem_append,
          List.mem_singleton, true_and] at hgrow ⊢
        refine ⟨by omega, fun k hk => ?_⟩
        rcases hk with hk | rfl
        · exact (hawait k hk).trans (Nat.le_add_right _ _)
        · have hready : k ≤ s.mem.ready r q := hperform.1
          unfold Mem.due at hdue
          omega
      · simp only [addOp, Function.update_of_ne hr, hr, false_and, if_false] at hgrow ⊢
        exact ⟨hgrow.trans hdue, hawait⟩
    · intro mem mem' ops hdrift ih r q
      rw [due_drift hdrift]
      exact ih r q
  exact (hinv r q).2 k h

end Messaging
