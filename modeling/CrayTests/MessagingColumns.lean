import CrayTests.MessagingRuns
import CrayTests.MessagingStages

/-!
# Plans in columns

Where the ranks go through equally many stages, a plan is a list of columns, each with one stage for
every rank. A column is a collective call of all ranks, or operations that match: what one rank sends
another receives. `Goes` says that a program goes through the columns of a list, and programs that go
through the same columns follow a schedule.
-/

namespace Messaging

open RankProgram

variable {n : ℕ} {M C α β : Type}

structure Column (n : ℕ) (M C : Type) where
  stage : Fin n → Stage n M C
  isSync : Bool
  isSync_stage : ∀ r, (stage r).isSync = isSync
  level : ∀ r, (stage r).Level
  paired : ∀ a b, sendsTo b (stage a).opList = recvsFrom a (stage b).opList

namespace Column

def sync (c : Fin n → C) : Column n M C where
  stage r := .sync (c r)
  isSync := true
  isSync_stage _ := rfl
  level _ := trivial
  paired _ _ := rfl

def quiet (ops : Fin n → List (Op n M)) (h : ∀ r, ∀ o ∈ ops r, o.postsOn = none) :
    Column n M C where
  stage r := .ops (ops r)
  isSync := false
  isSync_stage _ := rfl
  level r := .inr (h r)
  paired a b := (sendsTo_eq_nil (h a)).trans (recvsFrom_eq_nil (h b)).symm

/-- All ranks post sends and receives that match. -/
def posting (ops : Fin n → List (Op n M)) (h : ∀ r, ∀ o ∈ ops r, ∃ q, o.postsOn = some q)
    (hpaired : ∀ a b, sendsTo b (ops a) = recvsFrom a (ops b)) : Column n M C where
  stage r := .ops (ops r)
  isSync := false
  isSync_stage _ := rfl
  level r := .inl (h r)
  paired := hpaired

end Column

variable {cols cols' : List (Column n M C)} {Ω : Oracle (interface n M C) n} {r : Fin n}

def numbered (r : Fin n) : ℕ → List (Column n M C) → List (ℕ × Stage n M C)
  | _, [] => []
  | t, c :: cols => (t, c.stage r) :: numbered r (t + 1) cols

def syncsIn (cols : List (Column n M C)) : ℕ := cols.countP Column.isSync

/-- The events of a rank that goes through the columns from epoch `e` on. -/
def columnEvents (Ω : Oracle (interface n M C) n) (r : Fin n) :
    ℕ → List (Column n M C) → List (ℕ × Event (interface n M C))
  | _, [] => []
  | e, c :: cols =>
    ((c.stage r).events Ω r).map (Prod.mk e) ++ columnEvents Ω r (e + syncsIn [c]) cols

def columnOps (r : Fin n) (cols : List (Column n M C)) : List (Op n M) :=
  cols.flatMap fun c => (c.stage r).opList

@[simp] theorem syncsIn_append : syncsIn (cols ++ cols') = syncsIn cols + syncsIn cols' :=
  List.countP_append

@[simp] theorem columnOps_append :
    columnOps r (cols ++ cols') = columnOps r cols ++ columnOps r cols' := List.flatMap_append

theorem columnEvents_append (e : ℕ) :
    columnEvents Ω r e (cols ++ cols') =
      columnEvents Ω r e cols ++ columnEvents Ω r (e + syncsIn cols) cols' := by
  induction cols generalizing e with
  | nil => rfl
  | cons c cols ih =>
    have hsyncs : syncsIn (c :: cols) = syncsIn [c] + syncsIn cols  := by
      rw [← syncsIn_append]
      rfl
    rw [List.cons_append, columnEvents, columnEvents, ih, List.append_assoc, hsyncs, Nat.add_assoc]

/-- Entered in epoch `e`, the program goes through the columns and returns `a`. -/
def Goes (Ω : Oracle (interface n M C) n) (r : Fin n) (e : ℕ) (p : Program (interface n M C) n α)
    (cols : List (Column n M C)) (a : α) : Prop :=
  Runs Ω r e p (columnEvents Ω r e cols) a (e + syncsIn cols)

namespace Goes

variable {e : ℕ}

theorem pure (a : α) : Goes Ω r e (.pure a) [] a := Runs.pure a

theorem bind {p : Program (interface n M C) n α} {f : α → Program (interface n M C) n β} {a : α}
    {b : β} (hp : Goes Ω r e p cols a) (hf : Goes Ω r (e + syncsIn cols) (f a) cols' b) :
    Goes Ω r e (p.bind f) (cols ++ cols') b := by
  have h := Runs.bind hp hf
  rwa [← columnEvents_append, Nat.add_assoc, ← syncsIn_append] at h

/-- The last step of a program only computes. -/
theorem map {p : Program (interface n M C) n α} {f : α → Program (interface n M C) n β} {a : α}
    {b : β} (hp : Goes Ω r e p cols a) (hf : f a = .pure b) : Goes Ω r e (p.bind f) cols b := by
  have h := hp.bind (hf ▸ Goes.pure b)
  rwa [List.append_nil] at h

theorem sync {c : Fin n → C} {next : (Fin n → C) → Program (interface n M C) n α} {a : α}
    (h : next (Ω.gathered e) = .pure a) : Goes Ω r e (.sync (c r) next) [.sync c] a :=
  Runs.sync (I := interface n M C) (c r) (h ▸ .pure a)

/-- A rank performs its operations in a column. -/
theorem ops {c : Column n M C} {l : List (Op n M)} {p : Program (interface n M C) n α} {a : α}
    (hstage : c.stage r = .ops l) (hp : Performs Ω r e p l a) : Goes Ω r e p [c] a := by
  have hsync : syncsIn [c] = 0 := by
    have := c.isSync_stage r
    rw [hstage] at this
    simp [syncsIn, ← this]
  unfold Goes columnEvents columnEvents
  rw [hstage, hsync, List.append_nil]
  exact hp

/-- A loop by an invariant on the loop state. -/
theorem loop {body : ℕ → α → Program (interface n M C) n α} (count : ℕ) (st : ℕ → α)
    (col : ℕ → List (Column n M C))
    (hbody : ∀ k < count, ∀ e, Goes Ω r e (body k (st k)) (col k) (st (k + 1))) :
    Goes Ω r e (Program.loop body 0 count (st 0)) ((List.range count).flatMap col) (st count) := by
  have hrun := Runs.loopEpochs (Ω := Ω) (r := r) body (i := 0) count st
    (fun k => e + syncsIn ((List.range k).flatMap col))
    (fun k => columnEvents Ω r (e + syncsIn ((List.range k).flatMap col)) (col k)) (fun k hk => by
      have h := hbody k hk (e + syncsIn ((List.range k).flatMap col))
      rw [Nat.zero_add, List.range_succ, List.flatMap_append, List.flatMap_singleton,
        syncsIn_append, ← Nat.add_assoc]
      exact h)
  have hevents : columnEvents Ω r e ((List.range count).flatMap col) =
      (List.range count).flatMap fun k =>
        columnEvents Ω r (e + syncsIn ((List.range k).flatMap col)) (col k) := by
    clear hrun hbody
    induction count with
    | zero => rfl
    | succ count ih =>
      rw [List.range_succ, List.flatMap_append, List.flatMap_singleton, columnEvents_append, ih,
        List.flatMap_append, List.flatMap_singleton]
  unfold Goes
  rw [hevents]
  exact hrun

end Goes

def epochAt (cols : List (Column n M C)) (t : ℕ) : ℕ := syncsIn (cols.take t)

theorem flatten_numbered (Ω : Oracle (interface n M C) n) (r : Fin n)
    (pre cols : List (Column n M C)) :
    flatten (epochAt (pre ++ cols)) Ω r (numbered r pre.length cols) =
      columnEvents Ω r (syncsIn pre) cols := by
  induction cols generalizing pre with
  | nil => rfl
  | cons c cols ih =>
    have hhere : epochAt (pre ++ c :: cols) pre.length = syncsIn pre := by
      rw [epochAt, List.take_left']
      rfl
    have hrest := ih (pre ++ [c])
    rw [List.append_assoc, List.singleton_append, List.length_append, List.length_singleton,
      syncsIn_append] at hrest
    rw [numbered, columnEvents, ← hrest, flatten, List.flatMap_cons]
    dsimp only
    rw [hhere]
    rfl

theorem map_fst_numbered (r : Fin n) (t : ℕ) (cols : List (Column n M C)) :
    (numbered r t cols).map Prod.fst = List.range' t cols.length := by
  induction cols generalizing t with
  | nil => rfl
  | cons c cols ih => rw [numbered, List.map_cons, ih, List.length_cons, List.range'_succ]

theorem level_numbered (r : Fin n) (t : ℕ) (cols : List (Column n M C)) :
    ∀ x ∈ numbered r t cols, x.2.Level := by
  induction cols generalizing t with
  | nil => exact fun x hx => by cases hx
  | cons c cols ih =>
    intro x hx
    rcases List.mem_cons.mp hx with rfl | hx
    · exact c.level r
    · exact ih _ x hx

theorem stageOps_numbered (r : Fin n) (t : ℕ) (cols : List (Column n M C)) :
    stageOps (numbered r t cols) = columnOps r cols := by
  induction cols generalizing t with
  | nil => rfl
  | cons c cols ih =>
    have hcons : stageOps (numbered r t (c :: cols)) =
        (c.stage r).opList ++ stageOps (numbered r (t + 1) cols) := List.flatMap_cons
    rw [hcons, ih]
    rfl

theorem paired_numbered (a b : Fin n) (t : ℕ) (cols : List (Column n M C)) :
    stageSends b (numbered a t cols) = stageRecvs a (numbered b t cols) := by
  induction cols generalizing t with
  | nil => rfl
  | cons c cols ih =>
    unfold stageSends stageRecvs at ih ⊢
    rw [numbered, numbered, List.flatMap_cons, List.flatMap_cons, ih]
    dsimp only
    rw [c.paired a b]

theorem syncs_numbered (a b : Fin n) (t : ℕ) (cols : List (Column n M C)) :
    stageSyncs (numbered a t cols) = stageSyncs (numbered b t cols) := by
  induction cols generalizing t with
  | nil => rfl
  | cons c cols ih =>
    unfold stageSyncs at ih ⊢
    rw [numbered, numbered, List.flatMap_cons, List.flatMap_cons, ih]
    dsimp only
    rw [c.isSync_stage a, c.isSync_stage b]

/-- Columns in front of a collective call are passed before it. -/
theorem fst_lt_of_mem_columnEvents {e : ℕ} {c : Fin n → C} {x : ℕ × Event (interface n M C)}
    (hx : x ∈ columnEvents Ω r e (cols ++ [.sync c])) (hop : x.2.isSync = false) :
    x.1 < e + syncsIn (cols ++ [Column.sync c]) := by
  induction cols generalizing e with
  | nil =>
    obtain rfl : x = (e, .sync (c r)) := List.mem_singleton.mp hx
    cases hop
  | cons d cols ih =>
    have hsyncs : syncsIn (d :: cols ++ [Column.sync c]) =
        syncsIn [d] + syncsIn (cols ++ [Column.sync c]) := by
      rw [← syncsIn_append]
      rfl
    have hlast : syncsIn (cols ++ [Column.sync c]) = syncsIn cols + 1 := syncsIn_append
    rw [hsyncs]
    rcases List.mem_append.mp hx with hx | hx
    · obtain ⟨ev, -, rfl⟩ := List.mem_map.mp hx
      dsimp only
      omega
    · have hlt := ih hx
      omega

/-- Programs that go through the same columns, and consume what they post, follow a schedule. -/
theorem staged_of_goes {clock : Fin n → ℕ → ℕ} {code : Fin n → Program (interface n M C) n α}
    {a : Fin n → α} (hpredicted : Predicted clock Ω code)
    (hgoes : ∀ r, Goes Ω r 0 (code r) cols (a r)) (hclosed : ∀ r, Closed (columnOps r cols)) :
    Staged clock Ω code (fun r => numbered r 0 cols) (epochAt cols) where
  predicted := hpredicted
  trace_eq r := by
    have hflat := flatten_numbered Ω r [] cols
    exact (hgoes r).trace_eq.trans hflat.symm
  balanced r := by
    rw [stageOps_numbered]
    exact (hclosed r).balanced
  sorted r := by
    rw [map_fst_numbered]
    exact List.pairwise_lt_range'
  level r := level_numbered r 0 cols
  paired a b := paired_numbered a b 0 cols
  syncs a b := syncs_numbered a b 0 cols

/-- When a rank has returned from columns that end with a collective call, all ranks have done
their operations, and no message and no completion is left. -/
theorem returned_of_goes {clock : Fin n → ℕ → ℕ} {code : Fin n → Program (interface n M C) n α}
    {a : Fin n → α} {c : Fin n → C} (hpredicted : Predicted clock Ω code)
    (hgoes : ∀ r, Goes Ω r 0 (code r) (cols ++ [.sync c]) (a r))
    (hclosed : ∀ r, Closed (columnOps r (cols ++ [Column.sync c])))
    {s : State (machine M C clock) α} (hs : Reachable Mem.empty code s) {r : Fin n} {x : α}
    (hr : (s.proc r).code = .pure x) :
    s.mem = Mem.empty ∧ x = a r ∧
      ∀ q, opsOf (s.proc q).done = columnOps q (cols ++ [Column.sync c]) := by
  have hstaged := staged_of_goes hpredicted hgoes hclosed
  have hf := hpredicted.follows hs
  have htrace (q : Fin n) :
      opsOf (trace Ω q 0 (code q)) = columnOps q (cols ++ [Column.sync c]) := by
    rw [hstaged.opsOf_trace, stageOps_numbered]
  have hdone (q : Fin n) : opsOf (s.proc q).done = opsOf (trace Ω q 0 (code q)) := by
    apply ops_done hf hr
    intro y hy hop
    rw [(hgoes q).trace_eq] at hy
    rw [(hgoes r).lastEpoch_eq]
    exact fst_lt_of_mem_columnEvents hy hop
  refine ⟨?_, ?_, fun q => (hdone q).trans (htrace q)⟩
  · apply hstaged.scheduled.mem_eq_empty hs hdone
    intro q
    rw [htrace]
    exact (hclosed q _ Acct.clear_start).2
  · rw [(hf.done_of_halted hr).2, (hgoes r).result_eq]

end Messaging
