import CrayTests.Messaging

/-!
# Schedules of message programs

The operations of a rank are those of its trace, and the memory invariant holds along every
run. A plan gives the events of the traces time stamps. When it is a schedule (stamps grow
along each trace, strictly from a posted operation to a wait and to a collective call, and both
sides of a message and all ranks' calls agree on their stamps), no reachable state is stuck:
the unfinished rank with the earliest next event can move, or something that it waits for can.
-/

namespace Messaging

open RankProgram

variable {n : ℕ} {M C α : Type} {clock : Fin n → ℕ → ℕ}
  {code : Fin n → Program (interface n M C) n α} {Ω : Oracle (interface n M C) n}
  {s s' : State (machine M C clock) α}

def opsOf (l : List (ℕ × Event (interface n M C))) : List (Op n M) :=
  l.filterMap fun x =>
    match x.2 with
    | .op o _ => some o
    | .sync _ => none

@[simp] theorem opsOf_append (xs ys : List (ℕ × Event (interface n M C))) :
    opsOf (xs ++ ys) = opsOf xs ++ opsOf ys := List.filterMap_append

/-- The oracle predicts the contributions and the clocks. -/
structure Predicted (clock : Fin n → ℕ → ℕ) (Ω : Oracle (interface n M C) n)
    (code : Fin n → Program (interface n M C) n α) : Prop where
  coherent : Coherent Ω code
  clocks : ∀ r k, Ω.resp r (.clock k) = clock r k

theorem Predicted.follows (hΩ : Predicted clock Ω code)
    (hs : Reachable Mem.empty code s) : Follows Ω code s := by
  refine (follows_of_reachable hΩ.coherent ?_ hs).2
  intro s _ _ r o next x mem _ hperform
  cases o with
  | clock k => exact hperform.1.trans (hΩ.clocks r k).symm
  | _ => rfl

def BalancedTraces (Ω : Oracle (interface n M C) n)
    (code : Fin n → Program (interface n M C) n α) : Prop :=
  ∀ r, Acct.start.Balanced (opsOf (trace Ω r 0 (code r)))

theorem allows_next (hbal : BalancedTraces Ω code) (hf : Follows Ω code s) {r : Fin n}
    {o : Op n M} {next : Resp o → Program (interface n M C) n α}
    (hcode : (s.proc r).code = .op o next) :
    (Acct.start.after (opsOf (s.proc r).done)).Allows o := by
  have hb := hbal r
  rw [← hf.path r, hcode, trace, opsOf_append, Acct.balanced_append] at hb
  exact hb.2.1

/-- What holds of the memory and the operations done, kept by the operations and the drift, holds
in every reachable state. -/
theorem ops_induction {P : Mem n M → (Fin n → List (Op n M)) → Prop}
    (h0 : P Mem.empty fun _ => [])
    (hop : ∀ (s : State (machine M C clock) α) r o next x mem, Reachable Mem.empty code s →
      (s.proc r).code = .op o next → perform clock r (s.proc r).epoch o s.mem x mem →
      P s.mem (fun q => opsOf (s.proc q).done) → P mem (addOp (fun q => opsOf (s.proc q).done) r o))
    (hdrift : ∀ mem mem' ops, Drift mem mem' → P mem ops → P mem' ops)
    (hs : Reachable Mem.empty code s) : P s.mem fun r => opsOf (s.proc r).done := by
  induction hs with
  | refl => exact h0
  | @tail s s' hreach hstep ih =>
    cases hstep with
    | op r o next x mem hcode hperform =>
      have hops : (fun q => opsOf ((s.set r mem ((s.proc r).answer o x (next x))).proc q).done) =
          addOp (fun q => opsOf (s.proc q).done) r o := by
        funext q
        by_cases hq : q = r
        · subst hq
          simp only [State.set_proc_self, Proc.answer, opsOf_append, addOp, Function.update_self]
          rfl
        · simp only [State.set_proc_ne r s mem _ hq, addOp, Function.update_of_ne hq]
      rw [hops]
      exact hop s r o next x mem hreach hcode hperform ih
    | enter r c next hcode hout =>
      simpa only [State.set_mem, State.done_set_enter] using ih
    | leave r c next v hcode hin hall =>
      have hops : (fun q => opsOf ((s.set r s.mem ((s.proc r).leave c (next v))).proc q).done) =
          fun q => opsOf (s.proc q).done := by
        funext q
        by_cases hq : q = r
        · subst hq
          simp only [State.set_proc_self, Proc.leave, opsOf_append]
          exact List.append_nil _
        · simp only [State.set_proc_ne r s s.mem _ hq]
      rw [hops]
      exact ih
    | drift mem hd => exact hdrift _ _ _ hd ih

/-- The memory invariant holds in every reachable state. -/
theorem inv_of_reachable (hΩ : Predicted clock Ω code) (hbal : BalancedTraces Ω code)
    (hs : Reachable Mem.empty code s) : Inv s.mem fun r => opsOf (s.proc r).done := by
  apply ops_induction (P := Inv) inv_empty _ _ hs
  · intro s r o next x mem hreach hcode hperform hinv
    exact hinv.perform hperform (allows_next hbal (hΩ.follows hreach) hcode)
  · intro mem mem' ops hdrift hinv
    exact hinv.drift hdrift

def IsPost : Event (interface n M C) → Prop
  | .op (.send _ _) _ => True
  | .op (.recv _ _) _ => True
  | _ => False

def IsWait : Event (interface n M C) → Prop
  | .op (.take _) _ => True
  | .op (.await _ _) _ => True
  | _ => False

/-- How the stamps of an earlier and a later event of a trace compare. -/
def Before (x y : ℕ × Event (interface n M C)) : Prop :=
  x.1 ≤ y.1 ∧ (IsPost x.2 ∧ IsWait y.2 ∨ y.2.isSync = true → x.1 < y.1)

def stampedSends (b : Fin n) (l : List (ℕ × Event (interface n M C))) : List (ℕ × M) :=
  l.filterMap fun x =>
    match x.2 with
    | .op (.send c m) _ => if c = b then some (x.1, m) else none
    | _ => none

def stampedRecvs (a : Fin n) (l : List (ℕ × Event (interface n M C))) : List (ℕ × M) :=
  l.filterMap fun x =>
    match x.2 with
    | .op (.recv c m) _ => if c = a then some (x.1, m) else none
    | _ => none

def syncStamps (l : List (ℕ × Event (interface n M C))) : List ℕ :=
  (l.filter fun x => x.2.isSync).map Prod.fst

structure Schedule (plan : Fin n → List (ℕ × Event (interface n M C))) : Prop where
  ordered : ∀ r, (plan r).Pairwise Before
  paired : ∀ a b, stampedSends b (plan a) = stampedRecvs a (plan b)
  syncs : ∀ a b, syncStamps (plan a) = syncStamps (plan b)

/-- The plan stamps the events of the traces. -/
def Stamps (plan : Fin n → List (ℕ × Event (interface n M C))) (Ω : Oracle (interface n M C) n)
    (code : Fin n → Program (interface n M C) n α) : Prop :=
  ∀ r, (plan r).map Prod.snd = (trace Ω r 0 (code r)).map Prod.snd

/-- A program whose traces are balanced and follow a schedule. -/
structure Scheduled (clock : Fin n → ℕ → ℕ) (Ω : Oracle (interface n M C) n)
    (code : Fin n → Program (interface n M C) n α)
    (plan : Fin n → List (ℕ × Event (interface n M C))) : Prop where
  predicted : Predicted clock Ω code
  balanced : BalancedTraces Ω code
  schedule : Schedule plan
  stamps : Stamps plan Ω code

section Lists

variable {l l' : List (ℕ × Event (interface n M C))} {t : ℕ} {m : M} {a b : Fin n}

theorem opsOf_congr (h : l.map Prod.snd = l'.map Prod.snd) : opsOf l = opsOf l' := by
  have hops : ∀ l : List (ℕ × Event (interface n M C)), opsOf l =
      (l.map Prod.snd).filterMap fun ev => match ev with
        | .op o _ => some o
        | .sync _ => none := by
    intro l
    rw [List.filterMap_map]
    rfl
  rw [hops, hops, h]

theorem map_stampedSends (b : Fin n) (l : List (ℕ × Event (interface n M C))) :
    (stampedSends b l).map Prod.snd = sendsTo b (opsOf l) := by
  unfold stampedSends sendsTo opsOf
  rw [List.map_filterMap, List.filterMap_filterMap]
  apply List.filterMap_congr
  rintro ⟨t, ev⟩ _
  rcases ev with ⟨o, x⟩ | c
  · cases o <;> simp [Option.map_if]
  · rfl

theorem map_stampedRecvs (a : Fin n) (l : List (ℕ × Event (interface n M C))) :
    (stampedRecvs a l).map Prod.snd = recvsFrom a (opsOf l) := by
  unfold stampedRecvs recvsFrom opsOf
  rw [List.map_filterMap, List.filterMap_filterMap]
  apply List.filterMap_congr
  rintro ⟨t, ev⟩ _
  rcases ev with ⟨o, x⟩ | c
  · cases o <;> simp [Option.map_if]
  · rfl

theorem mem_of_stampedSends (h : (t, m) ∈ stampedSends b l) :
    ∃ ev, (t, ev) ∈ l ∧ IsPost ev := by
  obtain ⟨⟨u, ev⟩, hmem, hev⟩ := List.mem_filterMap.mp h
  rcases ev with ⟨o, x⟩ | c
  · cases o <;> simp at hev
    obtain ⟨-, rfl, -⟩ := hev
    exact ⟨_, hmem, trivial⟩
  · simp at hev

theorem mem_of_stampedRecvs (h : (t, m) ∈ stampedRecvs a l) :
    ∃ ev, (t, ev) ∈ l ∧ IsPost ev := by
  obtain ⟨⟨u, ev⟩, hmem, hev⟩ := List.mem_filterMap.mp h
  rcases ev with ⟨o, x⟩ | c
  · cases o <;> simp at hev
    obtain ⟨-, rfl, -⟩ := hev
    exact ⟨_, hmem, trivial⟩
  · simp at hev

theorem mem_of_syncStamps (h : t ∈ syncStamps l) : ∃ ev, (t, ev) ∈ l ∧ ev.isSync = true := by
  obtain ⟨⟨u, ev⟩, hmem, rfl⟩ := List.mem_map.mp h
  obtain ⟨hl, hsync⟩ := List.mem_filter.mp hmem
  exact ⟨ev, hl, hsync⟩

theorem stampedSends_append :
    stampedSends b (l ++ l') = stampedSends b l ++ stampedSends b l' := List.filterMap_append

theorem stampedRecvs_append :
    stampedRecvs a (l ++ l') = stampedRecvs a l ++ stampedRecvs a l' := List.filterMap_append

theorem syncStamps_append : syncStamps (l ++ l') = syncStamps l ++ syncStamps l' := by
  simp [syncStamps]

theorem length_syncStamps (l : List (ℕ × Event (interface n M C))) :
    (syncStamps l).length = l.countP fun x => x.2.isSync := by
  simp [syncStamps, List.countP_eq_length_filter]

theorem exists_mem_of_append_eq {β : Type*} {xs xs' ys ys' : List β} (h : xs ++ xs' = ys ++ ys')
    (hlt : ys.length < xs.length) : ∃ x ∈ xs, x ∈ ys' := by
  have hright : (xs ++ xs')[ys.length]? = ys'[0]? := by
    rw [h, List.getElem?_append_right le_rfl, Nat.sub_self]
  rw [List.getElem?_append_left hlt, List.getElem?_eq_getElem hlt] at hright
  exact ⟨xs.get ⟨ys.length, hlt⟩, List.get_mem _ _, List.mem_of_getElem? hright.symm⟩

end Lists

namespace Scheduled

variable {plan : Fin n → List (ℕ × Event (interface n M C))}

def front (plan : Fin n → List (ℕ × Event (interface n M C))) (s : State (machine M C clock) α)
    (r : Fin n) : List (ℕ × Event (interface n M C)) :=
  (plan r).take (s.proc r).done.length

def rest (plan : Fin n → List (ℕ × Event (interface n M C))) (s : State (machine M C clock) α)
    (r : Fin n) : List (ℕ × Event (interface n M C)) :=
  (plan r).drop (s.proc r).done.length

theorem front_append_rest (plan : Fin n → List (ℕ × Event (interface n M C)))
    (s : State (machine M C clock) α) (r : Fin n) :
    front plan s r ++ rest plan s r = plan r := List.take_append_drop _ _

variable (h : Scheduled clock Ω code plan) (hs : Reachable Mem.empty code s)
include h hs

theorem map_front (r : Fin n) :
    (front plan s r).map Prod.snd = (s.proc r).done.map Prod.snd := by
  have hpath := (h.predicted.follows hs).path r
  rw [front, List.map_take, h.stamps r, ← hpath, List.map_append]
  exact List.take_left' (List.length_map _)

theorem map_rest (r : Fin n) :
    (rest plan s r).map Prod.snd =
      (trace Ω r (s.proc r).epoch (s.proc r).code).map Prod.snd := by
  have hpath := (h.predicted.follows hs).path r
  rw [rest, List.map_drop, h.stamps r, ← hpath, List.map_append]
  exact List.drop_left' (List.length_map _)

theorem code_of_rest {r : Fin n} {t : ℕ} {ev : Event (interface n M C)}
    {l : List (ℕ × Event (interface n M C))} (hrest : rest plan s r = (t, ev) :: l) :
    match ev with
    | .op o _ => ∃ next, (s.proc r).code = .op o next
    | .sync c => ∃ next, (s.proc r).code = .sync c next := by
  have hmap := h.map_rest hs r
  rw [hrest] at hmap
  cases hcode : (s.proc r).code with
  | pure a => simp [hcode] at hmap
  | op o next =>
    rw [hcode, trace, List.map_cons, List.map_cons] at hmap
    obtain ⟨rfl, -⟩ := List.cons_eq_cons.mp hmap
    exact ⟨next, rfl⟩
  | sync c next =>
    rw [hcode, trace, List.map_cons, List.map_cons] at hmap
    obtain ⟨rfl, -⟩ := List.cons_eq_cons.mp hmap
    exact ⟨next, rfl⟩

theorem rest_ne_nil {r : Fin n} (hr : ¬ ∃ a, (s.proc r).code = .pure a) :
    rest plan s r ≠ [] := by
  intro hnil
  have hmap := h.map_rest hs r
  rw [hnil] at hmap
  cases hcode : (s.proc r).code with
  | pure a => exact hr ⟨a, hcode⟩
  | op o next => simp [hcode, trace] at hmap
  | sync c next => simp [hcode, trace] at hmap

/-- Among the next events of the unfinished ranks one is earliest. -/
theorem exists_earliest (hnot : ¬ Halted s) :
    ∃ r t ev l, rest plan s r = (t, ev) :: l ∧ ∀ q x, x ∈ rest plan s q → t ≤ x.1 := by
  classical
  let stamp (r : Fin n) : ℕ := ((rest plan s r).head?.map Prod.fst).getD 0
  have hne : (Finset.univ.filter fun r => rest plan s r ≠ []).Nonempty := by
    simp only [Halted, not_forall] at hnot
    obtain ⟨r, hr⟩ := hnot
    exact ⟨r, by simpa using h.rest_ne_nil hs hr⟩
  obtain ⟨r, hr, hmin⟩ := Finset.exists_min_image _ stamp hne
  obtain ⟨⟨t, ev⟩, l, hrest⟩ := List.exists_cons_of_ne_nil (Finset.mem_filter.mp hr).2
  refine ⟨r, t, ev, l, hrest, ?_⟩
  intro q x hx
  obtain ⟨y, l', hq⟩ := List.exists_cons_of_ne_nil (List.ne_nil_of_mem hx)
  have hty : t ≤ y.1 := by
    have := hmin q (Finset.mem_filter.mpr ⟨Finset.mem_univ q, List.ne_nil_of_mem hx⟩)
    simpa [stamp, hrest, hq] using this
  have hord := h.schedule.ordered q
  rw [← front_append_rest plan s q, hq, List.pairwise_append] at hord
  rw [hq] at hx
  rcases List.mem_cons.mp hx with rfl | hx
  · exact hty
  · exact hty.trans ((List.pairwise_cons.mp hord.2.1).1 x hx).1

omit hs in
theorem before_of_rest {r : Fin n} {t : ℕ} {ev : Event (interface n M C)}
    {l : List (ℕ × Event (interface n M C))} (hrest : rest plan s r = (t, ev) :: l)
    {x : ℕ × Event (interface n M C)} (hx : x ∈ front plan s r) : Before x (t, ev) := by
  have hord := h.schedule.ordered r
  rw [← front_append_rest plan s r, hrest, List.pairwise_append] at hord
  exact hord.2.2 x hx _ List.mem_cons_self

theorem sendsTo_done (r b : Fin n) :
    (stampedSends b (front plan s r)).length = (sendsTo b (opsOf (s.proc r).done)).length := by
  rw [← opsOf_congr (h.map_front hs r), ← map_stampedSends, List.length_map]

theorem recvsFrom_done (r a : Fin n) :
    (stampedRecvs a (front plan s r)).length = (recvsFrom a (opsOf (s.proc r).done)).length := by
  rw [← opsOf_congr (h.map_front hs r), ← map_stampedRecvs, List.length_map]

omit hs in
theorem stamps_paired (a b : Fin n) :
    stampedSends b (front plan s a) ++ stampedSends b (rest plan s a) =
      stampedRecvs a (front plan s b) ++ stampedRecvs a (rest plan s b) := by
  rw [← stampedSends_append, ← stampedRecvs_append, front_append_rest, front_append_rest]
  exact h.schedule.paired a b

section Waiting

variable {r : Fin n} {t : ℕ} {ev : Event (interface n M C)}
  {l : List (ℕ × Event (interface n M C))} (hrest : rest plan s r = (t, ev) :: l)
  (hmin : ∀ q x, x ∈ rest plan s q → t ≤ x.1) (hwait : IsWait ev)
include hrest hmin hwait

omit hs hmin in
theorem post_early {x : ℕ × Event (interface n M C)} (hx : x ∈ front plan s r)
    (hpost : IsPost x.2) : x.1 < t := (h.before_of_rest hrest hx).2 (.inl ⟨hpost, hwait⟩)

/-- What the earliest waiting rank has sent was received before. -/
theorem sends_le_recvs (b : Fin n) : (sendsTo b (opsOf (s.proc r).done)).length ≤
    (recvsFrom r (opsOf (s.proc b).done)).length := by
  by_contra hlt
  obtain ⟨⟨u, m⟩, hfront, hcome⟩ := exists_mem_of_append_eq (h.stamps_paired r b)
    (by rw [h.recvsFrom_done hs, h.sendsTo_done hs]; exact not_le.mp hlt)
  obtain ⟨ev', hev', hpost⟩ := mem_of_stampedSends hfront
  obtain ⟨ev'', hev'', -⟩ := mem_of_stampedRecvs hcome
  have hearly := h.post_early hrest hwait hev' hpost
  have hlater := hmin b _ hev''
  simp only at hearly hlater
  omega

theorem recvs_le_sends (a : Fin n) : (recvsFrom a (opsOf (s.proc r).done)).length ≤
    (sendsTo r (opsOf (s.proc a).done)).length := by
  by_contra hlt
  obtain ⟨⟨u, m⟩, hfront, hcome⟩ := exists_mem_of_append_eq (h.stamps_paired a r).symm
    (by rw [h.recvsFrom_done hs, h.sendsTo_done hs]; exact not_le.mp hlt)
  obtain ⟨ev', hev', hpost⟩ := mem_of_stampedRecvs hfront
  obtain ⟨ev'', hev'', -⟩ := mem_of_stampedSends hcome
  have hearly := h.post_early hrest hwait hev' hpost
  have hlater := hmin a _ hev''
  simp only at hearly hlater
  omega

/-- What the earliest waiting rank waits for is posted and can be matched. -/
theorem meet_of_unfinished {q : Queue} (hun : 0 < s.mem.unfinished r q) :
    ∃ a b, s.mem.chan a b ≠ [] ∧ s.mem.posted a b ≠ [] := by
  have hinv := inv_of_reachable h.predicted h.balanced hs
  cases q with
  | send =>
    obtain ⟨b, -, hb⟩ := Finset.exists_ne_zero_of_sum_ne_zero hun.ne'
    have hchan : s.mem.chan r b ≠ [] := by
      intro hnil
      simp [hnil] at hb
    refine ⟨r, b, hchan, fun hnil => ?_⟩
    -- all posted receives are matched, so more was sent than received
    obtain ⟨k, hks, hkr, hsends, hrecvs⟩ := hinv.fifo r b
    rw [hnil] at hrecvs
    have hk := List.drop_eq_nil_iff.mp hrecvs.symm
    have hle := h.sends_le_recvs hs hrest hmin hwait b
    rw [List.drop_eq_nil_of_le (by omega)] at hsends
    exact hchan (List.map_eq_nil_iff.mp hsends)
  | recv =>
    obtain ⟨a, -, ha⟩ := Finset.exists_ne_zero_of_sum_ne_zero hun.ne'
    have hposted : s.mem.posted a r ≠ [] := by
      intro hnil
      simp [hnil] at ha
    refine ⟨a, r, fun hnil => ?_, hposted⟩
    obtain ⟨k, hks, hkr, hsends, hrecvs⟩ := hinv.fifo a r
    rw [hnil] at hsends
    have hk := List.drop_eq_nil_iff.mp hsends.symm
    have hle := h.recvs_le_sends hs hrest hmin hwait a
    rw [List.drop_eq_nil_of_le (by omega)] at hrecvs
    exact hposted hrecvs

end Waiting

/-- A completion that is due and not reported lets the memory move. -/
theorem drift_of_due {r : Fin n} {t : ℕ} {ev : Event (interface n M C)}
    {l : List (ℕ × Event (interface n M C))} (hrest : rest plan s r = (t, ev) :: l)
    (hmin : ∀ q x, x ∈ rest plan s q → t ≤ x.1) (hwait : IsWait ev) {q : Queue}
    (hdue : s.mem.ready r q < s.mem.due r q) : ∃ s', Step s s' := by
  by_cases hpending : 0 < s.mem.pending r q
  · exact ⟨_, .drift _ (.report r q hpending)⟩
  · have hun : 0 < s.mem.unfinished r q := by
      unfold Mem.due at hdue
      omega
    obtain ⟨a, b, hchan, hposted⟩ := h.meet_of_unfinished hs hrest hmin hwait hun
    obtain ⟨⟨m, eager⟩, ms, hms⟩ := List.exists_cons_of_ne_nil hchan
    obtain ⟨p, qs, hqs⟩ := List.exists_cons_of_ne_nil hposted
    exact ⟨_, .drift _ (.meet a b m eager ms p qs hms hqs)⟩

/-- The earliest next event, if it is an operation, can be performed or is waited for. -/
theorem progress_op {r : Fin n} {t : ℕ} {o : Op n M} {x : Resp o}
    {l : List (ℕ × Event (interface n M C))} (hrest : rest plan s r = (t, .op o x) :: l)
    (hmin : ∀ q x, x ∈ rest plan s q → t ≤ x.1) : ∃ s', Step s s' := by
  have hinv := inv_of_reachable h.predicted h.balanced hs
  obtain ⟨next, hcode⟩ := h.code_of_rest hs hrest
  have hallows := allows_next h.balanced (h.predicted.follows hs) hcode
  cases o with
  | send b m =>
    exact ⟨_, .op r _ next () (Mem.send s.mem r b m false) hcode ⟨false, rfl⟩⟩
  | recv a m =>
    have hp : perform clock r (s.proc r).epoch (.recv a m) s.mem () (Mem.recv s.mem a r m) := rfl
    exact ⟨_, .op r _ next () _ hcode hp⟩
  | take q =>
    by_cases hready : 0 < s.mem.ready r q
    · exact ⟨_, .op r _ next () (Mem.setReady s.mem r q (s.mem.ready r q - 1)) hcode ⟨hready, rfl⟩⟩
    · have hdue : 0 < (Acct.start.after (opsOf (s.proc r).done)).out q := hallows
      rw [(hinv.acct r).total q] at hdue
      exact h.drift_of_due hs (q := q) hrest hmin trivial (by omega)
  | await q k =>
    by_cases hready : k ≤ s.mem.ready r q
    · exact ⟨_, .op r _ next () s.mem hcode ⟨hready, rfl⟩⟩
    · have hdue : k = (Acct.start.after (opsOf (s.proc r).done)).out q := hallows
      rw [(hinv.acct r).total q] at hdue
      exact h.drift_of_due hs (q := q) hrest hmin trivial (by omega)
  | reset q =>
    have hp : perform clock r (s.proc r).epoch (.reset q) s.mem () (Mem.setReady s.mem r q 0) :=
      rfl
    exact ⟨_, .op r _ next () _ hcode hp⟩
  | clock k =>
    exact ⟨_, .op r _ next (clock r k) s.mem hcode ⟨rfl, rfl⟩⟩

theorem length_syncStamps_front (r : Fin n) :
    (syncStamps (front plan s r)).length = (s.proc r).epoch := by
  rw [length_syncStamps, ← (h.predicted.follows hs).countP_done r]
  have hmap : ∀ l : List (ℕ × Event (interface n M C)),
      l.countP (fun x => x.2.isSync) = (l.map Prod.snd).countP fun ev => ev.isSync := by
    intro l
    rw [List.countP_map]
    rfl
  rw [hmap, hmap, h.map_front hs r]

/-- Where a rank is in front of a collective call, the other ranks still have this call at the same
time. -/
theorem getElem?_syncStamps_rest {r q : Fin n} {t : ℕ} {c : C}
    {l : List (ℕ × Event (interface n M C))} (hrest : rest plan s r = (t, .sync c) :: l)
    (hle : (s.proc q).epoch ≤ (s.proc r).epoch) :
    (syncStamps (rest plan s q))[(s.proc r).epoch - (s.proc q).epoch]? = some t := by
  have hr := h.length_syncStamps_front hs r
  have hq := h.length_syncStamps_front hs q
  have hsyncs : (syncStamps (front plan s q) ++ syncStamps (rest plan s q))[(s.proc r).epoch]? =
      some t := by
    rw [← syncStamps_append, front_append_rest, h.schedule.syncs q r,
      ← front_append_rest plan s r, syncStamps_append, hrest,
      List.getElem?_append_right hr.le, hr, Nat.sub_self]
    simp [syncStamps, Event.isSync]
  rwa [List.getElem?_append_right (by omega), hq] at hsyncs

omit hs in
/-- A call at the earliest time is the next event of every rank that still has it. -/
theorem head_of_syncStamps {q : Fin n} {t t' k : ℕ} {ev : Event (interface n M C)}
    {l : List (ℕ × Event (interface n M C))} (hrest : rest plan s q = (t', ev) :: l)
    (hle : t ≤ t') (hk : (syncStamps (rest plan s q))[k]? = some t) :
    k = 0 ∧ ev.isSync = true := by
  have hord := h.schedule.ordered q
  rw [← front_append_rest plan s q, hrest, List.pairwise_append] at hord
  have hlater {i : ℕ} (hi : (syncStamps l)[i]? = some t) : False := by
    obtain ⟨ev', hev', hsync⟩ := mem_of_syncStamps (List.mem_of_getElem? hi)
    have hstrict := ((List.pairwise_cons.mp hord.2.1).1 _ hev').2 (.inr hsync)
    simp only at hstrict
    omega
  rw [hrest] at hk
  cases hsync : ev.isSync with
  | false =>
    have hskip : syncStamps ((t', ev) :: l) = syncStamps l := by simp [syncStamps, hsync]
    rw [hskip] at hk
    exact (hlater hk).elim
  | true =>
    refine ⟨?_, rfl⟩
    have hcons : syncStamps ((t', ev) :: l) = t' :: syncStamps l := by simp [syncStamps, hsync]
    rw [hcons] at hk
    cases k with
    | zero => rfl
    | succ k => exact (hlater hk).elim

/-- The earliest next event, if it is a collective call, can be entered or left. -/
theorem progress_sync {r : Fin n} {t : ℕ} {c : C}
    {l : List (ℕ × Event (interface n M C))} (hrest : rest plan s r = (t, .sync c) :: l)
    (hmin : ∀ q x, x ∈ rest plan s q → t ≤ x.1) : ∃ s', Step s s' := by
  by_contra hstuck
  have hfinal : Final s := not_exists.mp hstuck
  have hf := h.predicted.follows hs
  obtain ⟨next, hcode⟩ := h.code_of_rest hs hrest
  -- a rank that has not entered this call has nothing else to do before it
  obtain ⟨-, q, hq⟩ := hfinal.exists_behind hf.paced hcode
  have hle := (hf.behind q q).trans hq
  have hstamp := h.getElem?_syncStamps_rest hs hrest hle
  obtain ⟨ev, hev, -⟩ := mem_of_syncStamps (List.mem_of_getElem? hstamp)
  obtain ⟨⟨t', ev'⟩, l', hq'⟩ := List.exists_cons_of_ne_nil (List.ne_nil_of_mem hev)
  have hearliest := hmin q (t', ev') (by rw [hq']; exact List.mem_cons_self)
  obtain ⟨hzero, hsync⟩ := h.head_of_syncStamps hq' hearliest hstamp
  cases ev' with
  | op o x => simp [Event.isSync] at hsync
  | sync c' =>
    obtain ⟨next', hcode'⟩ := h.code_of_rest hs hq'
    have hbehind := hf.behind q q
    exact hfinal _ (.enter q c' next' hcode' (by omega))

/-- No reachable state is stuck. -/
theorem progress : Halted s ∨ ∃ s', Step s s' := by
  by_cases hhalted : Halted s
  · exact .inl hhalted
  · obtain ⟨r, t, ev, l, hrest, hmin⟩ := h.exists_earliest hs hhalted
    cases ev with
    | op o x => exact .inr (h.progress_op hs hrest hmin)
    | sync c => exact .inr (h.progress_sync hs hrest hmin)

end Scheduled

end Messaging
