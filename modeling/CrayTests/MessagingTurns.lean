import CrayTests.MessagingColumns
import CrayTests.MessagingRuns

/-!
# Partners that take turns

Ranks are paired. The leader of a pair sends a message, waits until the send has completed and
receives one; its partner receives first and answers. `InTurn` is what such a rank keeps in every
prefix of its operations: it has sent at most one message more than it has received, a follower
none, and at most one of its operations is outstanding. Both sides together leave at most one
message of the pair in flight.
-/

namespace Messaging

open RankProgram

variable {n : ℕ} {M C α : Type}

namespace Acct

structure Settled (a : Acct) : Prop where
  clear : a.Clear
  exact : a.Exact

theorem settled_start : start.Settled := ⟨clear_start, exact_start⟩

theorem Exact.after {a : Acct} {ops : List (Op n M)} (ha : a.Exact) (hb : a.Balanced ops) :
    (a.after ops).Exact := by
  induction ops generalizing a with
  | nil => exact ha
  | cons o ops ih => exact ih (ha.step hb.1) hb.2

end Acct

def Acct.outstanding (a : Acct) : ℕ := a.out .send + a.out .recv

structure InTurn (lead : ℕ) (ops : List (Op n M)) : Prop where
  closed : Closed ops
  even : posts .send ops = posts .recv ops
  ahead : ∀ a : Acct, a.Settled → ∀ ys, ys <+: ops →
    posts .send ys ≤ a.counted .recv ys + lead
  single : ∀ a : Acct, a.Settled → ∀ ys, ys <+: ops → (a.after ys).outstanding ≤ 1

namespace InTurn

variable {lead : ℕ} {xs ys : List (Op n M)}

theorem after_settled (hx : InTurn lead xs) {a : Acct} (ha : a.Settled) :
    (a.after xs).Settled := by
  obtain ⟨hb, hc⟩ := hx.closed a ha.clear
  exact ⟨hc, ha.exact.after hb⟩

/-- A settled account has received as much as it has sent. -/
theorem counted_eq (hx : InTurn lead xs) {a : Acct} (ha : a.Settled) :
    a.counted .recv xs = posts .send xs := by
  obtain ⟨hb, hc⟩ := hx.closed a ha.clear
  have hposts := ha.exact.posts_add_out hb .recv
  rw [ha.clear, hc] at hposts
  rw [hx.even]
  omega

theorem append (hx : InTurn lead xs) (hy : InTurn lead ys) : InTurn lead (xs ++ ys) where
  closed := hx.closed.append hy.closed
  even := by rw [posts_append, posts_append, hx.even, hy.even]
  ahead a ha zs hzs := by
    rcases prefix_append_cases hzs with hfirst | ⟨zs, hlast, rfl⟩
    · exact hx.ahead a ha zs hfirst
    · have hle := hy.ahead _ (hx.after_settled ha) zs hlast
      rw [posts_append, Acct.counted_append, hx.counted_eq ha]
      omega
  single a ha zs hzs := by
    rcases prefix_append_cases hzs with hfirst | ⟨zs, hlast, rfl⟩
    · exact hx.single a ha zs hfirst
    · rw [Acct.after_append]
      exact hy.single _ (hx.after_settled ha) zs hlast

theorem nil : InTurn lead ([] : List (Op n M)) where
  closed := closed_nil
  even := rfl
  ahead a _ zs hzs := by
    rw [List.prefix_nil.mp hzs]
    exact Nat.zero_le _
  single a ha zs hzs := by
    rw [List.prefix_nil.mp hzs]
    have hsend := ha.clear .send
    have hrecv := ha.clear .recv
    simp [Acct.outstanding, Acct.after, hsend, hrecv]

theorem flatMap {β : Type*} {l : List β} {f : β → List (Op n M)}
    (h : ∀ x ∈ l, InTurn lead (f x)) : InTurn lead (l.flatMap f) := by
  induction l with
  | nil => exact nil
  | cons x l ih =>
    rw [List.flatMap_cons]
    exact (h x List.mem_cons_self).append (ih fun y hy => h y (List.mem_cons_of_mem x hy))

theorem clock (k : ℕ) : InTurn lead [(.clock k : Op n M)] where
  closed := closed_clocks fun o ho => ⟨k, List.mem_singleton.mp ho⟩
  even := rfl
  ahead a _ zs hzs := by
    have hposts := posts_le_of_isPrefix (q := .send) hzs
    exact hposts.trans (Nat.zero_le _)
  single a ha zs hzs := by
    have hsend := ha.clear .send
    have hrecv := ha.clear .recv
    rcases List.prefix_cons_iff.mp hzs with rfl | ⟨t, rfl, ht⟩
    · simp [Acct.outstanding, Acct.after, hsend, hrecv]
    · rw [List.prefix_nil.mp ht]
      simp [Acct.outstanding, Acct.after, Acct.step, hsend, hrecv]

end InTurn

def call (x : Fin n) (m : M) : List (Op n M) := [.send x m, .take .send, .recv x m, .take .recv]

def answer (x : Fin n) (m : M) : List (Op n M) := [.recv x m, .take .recv, .send x m, .take .send]

theorem closed_one (o : Op n M) {q : Queue} (ho : o.postsOn = some q) :
    Closed [o, (.take q : Op n M)] := by
  have hposts : ∀ p ∈ [o], p.postsOn = some q := fun p hp => List.mem_singleton.mp hp ▸ ho
  exact closed_round false q hposts rfl

theorem inTurn_call (x : Fin n) (m : M) : InTurn 1 (call x m) where
  closed := (closed_one (.send x m) rfl).append
    (closed_one (.recv x m) rfl)
  even := by simp [call, Op.postsOn]
  ahead a _ zs hzs := by
    have hposts := posts_le_of_isPrefix (q := .send) hzs
    have hone : posts .send (call x m) = 1 := by simp [call, Op.postsOn]
    omega
  single a ha zs hzs := by
    have hsend := ha.clear .send
    have hrecv := ha.clear .recv
    simp only [call, List.prefix_cons_iff, List.prefix_nil] at hzs
    rcases hzs with rfl | ⟨_, rfl, rfl | ⟨_, rfl, rfl | ⟨_, rfl, rfl | ⟨_, rfl, rfl⟩⟩⟩⟩
    all_goals
      simp [Acct.outstanding, Acct.after, Acct.step, Acct.post, hsend, hrecv]

theorem inTurn_answer (x : Fin n) (m : M) : InTurn 0 (answer x m) where
  closed := (closed_one (.recv x m) rfl).append
    (closed_one (.send x m) rfl)
  even := by simp [answer, Op.postsOn]
  ahead a _ zs hzs := by
    simp only [answer, List.prefix_cons_iff, List.prefix_nil] at hzs
    rcases hzs with rfl | ⟨_, rfl, rfl | ⟨_, rfl, rfl | ⟨_, rfl, rfl | ⟨_, rfl, rfl⟩⟩⟩⟩
    all_goals
      simp [Op.postsOn, Acct.counted, Acct.counts]
  single a ha zs hzs := by
    have hsend := ha.clear .send
    have hrecv := ha.clear .recv
    simp only [answer, List.prefix_cons_iff, List.prefix_nil] at hzs
    rcases hzs with rfl | ⟨_, rfl, rfl | ⟨_, rfl, rfl | ⟨_, rfl, rfl | ⟨_, rfl, rfl⟩⟩⟩⟩
    all_goals
      simp [Acct.outstanding, Acct.after, Acct.step, Acct.post, hsend, hrecv]

/-- Every leader has a partner that follows it. -/
structure Pairing (n : ℕ) where
  leads : Fin n → Bool
  partner : Fin n → Fin n
  partner_partner : ∀ r, partner (partner r) = r
  leads_partner : ∀ r, leads (partner r) = !leads r

namespace Pairing

variable (P : Pairing n)

theorem partner_eq_iff {a b : Fin n} : P.partner a = b ↔ P.partner b = a := by
  constructor
  · rintro rfl
    exact P.partner_partner a
  · rintro rfl
    exact P.partner_partner b

def serve (m : M) (r : Fin n) : List (Op n M) :=
  if P.leads r then [.send (P.partner r) m] else [.recv (P.partner r) m]

def serveWaits (r : Fin n) : List (Op n M) :=
  if P.leads r then [.take .send] else [.take .recv]

def reply (m : M) (r : Fin n) : List (Op n M) :=
  if P.leads r then [.recv (P.partner r) m] else [.send (P.partner r) m]

def replyWaits (r : Fin n) : List (Op n M) :=
  if P.leads r then [.take .recv] else [.take .send]

theorem paired_serve (m : M) (a b : Fin n) :
    sendsTo b (P.serve m a) = recvsFrom a (P.serve m b) := by
  unfold serve
  by_cases hab : P.partner a = b
  · have hba := P.partner_eq_iff.mp hab
    have hleads := P.leads_partner a
    rw [hab] at hleads
    cases ha : P.leads a <;> simp [hleads, ha, sendsTo, recvsFrom, hab, hba]
  · have hba : ¬ P.partner b = a := fun h => hab (P.partner_eq_iff.mp h)
    cases ha : P.leads a <;> cases hb : P.leads b <;> simp [sendsTo, recvsFrom, hab, hba]

theorem paired_reply (m : M) (a b : Fin n) :
    sendsTo b (P.reply m a) = recvsFrom a (P.reply m b) := by
  unfold reply
  by_cases hab : P.partner a = b
  · have hba := P.partner_eq_iff.mp hab
    have hleads := P.leads_partner a
    rw [hab] at hleads
    cases ha : P.leads a <;> simp [hleads, ha, sendsTo, recvsFrom, hab, hba]
  · have hba : ¬ P.partner b = a := fun h => hab (P.partner_eq_iff.mp h)
    cases ha : P.leads a <;> cases hb : P.leads b <;> simp [sendsTo, recvsFrom, hab, hba]

theorem posts_serve (m : M) (r : Fin n) : ∀ o ∈ P.serve m r, ∃ q, o.postsOn = some q := by
  unfold serve
  cases P.leads r <;> simp [Op.postsOn]

theorem posts_reply (m : M) (r : Fin n) : ∀ o ∈ P.reply m r, ∃ q, o.postsOn = some q := by
  unfold reply
  cases P.leads r <;> simp [Op.postsOn]

theorem quiet_serveWaits (r : Fin n) :
    ∀ o ∈ (P.serveWaits r : List (Op n M)), o.postsOn = none := by
  unfold serveWaits
  cases P.leads r <;> simp [Op.postsOn]

theorem quiet_replyWaits (r : Fin n) :
    ∀ o ∈ (P.replyWaits r : List (Op n M)), o.postsOn = none := by
  unfold replyWaits
  cases P.leads r <;> simp [Op.postsOn]

def volley (C : Type) (m : M) : List (Column n M C) :=
  [.posting (P.serve m) (P.posts_serve m) (P.paired_serve m),
    .quiet P.serveWaits P.quiet_serveWaits,
    .posting (P.reply m) (P.posts_reply m) (P.paired_reply m),
    .quiet P.replyWaits P.quiet_replyWaits]

theorem columnOps_volley (m : M) (r : Fin n) : columnOps r (P.volley C m) =
    if P.leads r then call (P.partner r) m else answer (P.partner r) m := by
  have h : columnOps r (P.volley C m) =
      P.serve m r ++ (P.serveWaits r ++ (P.reply m r ++ P.replyWaits r)) := by
    simp [columnOps, volley, Column.posting, Column.quiet]
  rw [h]
  unfold serve serveWaits reply replyWaits
  cases P.leads r <;> rfl

theorem goes_volley {Ω : Oracle (interface n M C) n} {r : Fin n} {e : ℕ}
    {p : Program (interface n M C) n α} {a : α} {m : M}
    (hp : Performs Ω r e p (if P.leads r then call (P.partner r) m else answer (P.partner r) m) a) :
    Goes Ω r e p (P.volley C m) a := by
  have hsyncs : syncsIn (P.volley C m) = 0 := rfl
  have hevents : columnEvents Ω r e (P.volley C m) =
      ((Stage.ops (columnOps r (P.volley C m)) : Stage n M C).events Ω r).map (Prod.mk e) := by
    simp only [volley, columnEvents, columnOps, List.flatMap_cons, List.flatMap_nil,
      Column.posting, Column.quiet, Stage.opList, map_ops_append, List.map_append]
    rfl
  unfold Goes
  rw [hsyncs, hevents, columnOps_volley]
  exact hp

/-- What every rank of a pairing keeps in its part of the columns. -/
structure Alternates (cols : List (Column n M C)) : Prop where
  only : ∀ r, OnlyWith (P.partner r) (columnOps r cols)
  inTurn : ∀ r, InTurn (P.leads r).toNat (columnOps r cols)

variable {P} {cols cols' : List (Column n M C)}

namespace Alternates

theorem append (h : P.Alternates cols) (h' : P.Alternates cols') :
    P.Alternates (cols ++ cols') where
  only r o ho := by
    rw [columnOps_append] at ho
    exact (List.mem_append.mp ho).elim (h.only r o) (h'.only r o)
  inTurn r := by
    rw [columnOps_append]
    exact (h.inTurn r).append (h'.inTurn r)

theorem nil : P.Alternates ([] : List (Column n M C)) where
  only _ _ ho := (List.not_mem_nil ho).elim
  inTurn _ := InTurn.nil

theorem flatMap {β : Type*} {l : List β} {f : β → List (Column n M C)}
    (h : ∀ x ∈ l, P.Alternates (f x)) : P.Alternates (l.flatMap f) := by
  induction l with
  | nil => exact nil
  | cons x l ih =>
    rw [List.flatMap_cons]
    exact (h x List.mem_cons_self).append (ih fun y hy => h y (List.mem_cons_of_mem x hy))

theorem sync (c : Fin n → C) : P.Alternates [(Column.sync c : Column n M C)] where
  only _ _ ho := (List.not_mem_nil ho).elim
  inTurn _ := InTurn.nil

theorem volley (m : M) : P.Alternates (P.volley C m) where
  only r o ho := by
    rw [columnOps_volley] at ho
    split_ifs at ho with hl
    all_goals
      simp only [call, answer, List.mem_cons, List.not_mem_nil, or_false] at ho
      rcases ho with rfl | rfl | rfl | rfl <;> simp
  inTurn r := by
    rw [columnOps_volley]
    cases P.leads r with
    | false => exact inTurn_answer _ m
    | true => exact inTurn_call _ m

/-- Some ranks read their clocks. -/
theorem clocks {ops : Fin n → List (Op n M)} (h : ∀ r, ops r = [] ∨ ∃ k, ops r = [.clock k])
    (hquiet : ∀ r, ∀ o ∈ ops r, o.postsOn = none) :
    P.Alternates [(Column.quiet ops hquiet : Column n M C)] where
  only r o ho := by
    have hops : columnOps r [(Column.quiet ops hquiet : Column n M C)] = ops r :=
      List.append_nil _
    rw [hops] at ho
    rcases h r with hr | ⟨k, hr⟩
    · rw [hr] at ho
      cases ho
    · rw [hr, List.mem_singleton] at ho
      subst ho
      simp
  inTurn r := by
    have hops : columnOps r [(Column.quiet ops hquiet : Column n M C)] = ops r :=
      List.append_nil _
    rw [hops]
    rcases h r with hr | ⟨k, hr⟩
    · rw [hr]
      exact InTurn.nil
    · rw [hr]
      exact InTurn.clock k

end Alternates

end Pairing

section Runs

variable {clock : Fin n → ℕ → ℕ} {code : Fin n → Program (interface n M C) n α}
  {Ω : Oracle (interface n M C) n} {P : Pairing n} {cols : List (Column n M C)}
  {s : State (machine M C clock) α}

def sentTo (s : State (machine M C clock) α) (x y : Fin n) : ℕ :=
  (sendsTo y (opsOf (s.proc x).done)).length

/-- A leader is at most one message ahead of its partner, of the messages of both at most one is
in flight, and every rank has at most one operation outstanding. -/
structure TakeTurns (P : Pairing n) (s : State (machine M C clock) α) : Prop where
  follow : ∀ x, P.leads x = true → sentTo s (P.partner x) x ≤ sentTo s x (P.partner x) ∧
    sentTo s x (P.partner x) ≤ sentTo s (P.partner x) x + 1
  inFlight : ∀ x, (s.mem.chan x (P.partner x)).length + (s.mem.chan (P.partner x) x).length ≤ 1
  apart : ∀ x y, P.partner x ≠ y → s.mem.chan x y = [] ∧ s.mem.posted x y = []
  single : ∀ r, s.mem.due r .send + s.mem.due r .recv ≤ 1

theorem sendsTo_eq_nil_of_onlyWith {x y : Fin n} {ops : List (Op n M)} (h : OnlyWith x ops)
    (hy : x ≠ y) : sendsTo y ops = [] := by
  apply List.eq_nil_iff_forall_not_mem.mpr
  intro m hm
  exact hy ((h _ (mem_sendsTo.mp hm)).1 y m rfl).symm

theorem recvsFrom_eq_nil_of_onlyWith {x y : Fin n} {ops : List (Op n M)} (h : OnlyWith x ops)
    (hy : x ≠ y) : recvsFrom y ops = [] := by
  apply List.filterMap_eq_nil_iff.mpr
  intro o ho
  cases o with
  | recv a m =>
    have ha := (h _ ho).2 a m rfl
    simp [ha, hy]
  | _ => rfl

/-- Programs that go through alternating columns take turns in every reachable state. -/
theorem takeTurns_of_staged {epoch : ℕ → ℕ}
    (hst : Staged clock Ω code (fun r => numbered r 0 cols) epoch) (halt : P.Alternates cols)
    (hs : Reachable Mem.empty code s) : TakeTurns P s := by
  have hsched := hst.scheduled
  have hf := hsched.predicted.follows hs
  have hinv := inv_of_reachable hsched.predicted hsched.balanced hs
  have hpre (r : Fin n) : opsOf (s.proc r).done <+: columnOps r cols := by
    have h := prefix_of_follows hf r
    rwa [hst.opsOf_trace, stageOps_numbered] at h
  have honly (r : Fin n) : OnlyWith (P.partner r) (opsOf (s.proc r).done) :=
    (halt.only r).of_isPrefix (hpre r)
  have hsends (r : Fin n) : posts .send (opsOf (s.proc r).done) = sentTo s r (P.partner r) :=
    (honly r).posts_send
  have hahead (r : Fin n) := (halt.inTurn r).ahead _ Acct.settled_start _ (hpre r)
  -- what a rank has counted was sent by its partner and is not in flight
  have hcounted (r : Fin n) : Acct.start.counted .recv (opsOf (s.proc r).done) +
      (s.mem.chan (P.partner r) r).length ≤ sentTo s (P.partner r) r :=
    counted_add_chan_le hsched.predicted hsched.balanced hs (honly r)
  have hpair (x : Fin n) (hx : P.leads x = true) :
      sentTo s (P.partner x) x + (s.mem.chan x (P.partner x)).length ≤ sentTo s x (P.partner x) ∧
      sentTo s x (P.partner x) + (s.mem.chan (P.partner x) x).length ≤
        sentTo s (P.partner x) x + 1 := by
    have hlead := hahead x
    have hfollow := hahead (P.partner x)
    have hcx := hcounted x
    have hcy := hcounted (P.partner x)
    rw [hsends] at hlead hfollow
    rw [P.leads_partner] at hfollow
    rw [P.partner_partner] at hfollow hcy
    rw [hx] at hlead hfollow
    simp only [Bool.toNat_true, Bool.not_true, Bool.toNat_false] at hlead hfollow
    omega
  refine ⟨fun x hx => ?_, fun x => ?_, fun x y hxy => ?_, fun r => ?_⟩
  · have h := hpair x hx
    omega
  · cases hx : P.leads x with
    | true =>
      have h := hpair x hx
      omega
    | false =>
      have h := hpair (P.partner x) (by rw [P.leads_partner, hx]; rfl)
      rw [P.partner_partner] at h
      omega
  · have hyx : P.partner y ≠ x := fun h => hxy (P.partner_eq_iff.mp h)
    obtain ⟨k, -, -, hchan, hposted⟩ := hinv.fifo x y
    rw [sendsTo_eq_nil_of_onlyWith (honly x) hxy, List.drop_nil] at hchan
    rw [recvsFrom_eq_nil_of_onlyWith (honly y) hyx, List.drop_nil] at hposted
    exact ⟨List.map_eq_nil_iff.mp hchan, hposted⟩
  · have hle := (halt.inTurn r).single _ Acct.settled_start _ (hpre r)
    rw [Acct.outstanding, (hinv.acct r).total, (hinv.acct r).total] at hle
    exact hle

end Runs

end Messaging
