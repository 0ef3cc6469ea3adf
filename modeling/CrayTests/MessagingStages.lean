import CrayTests.MessagingRounds

/-!
# Plans in stages

A stage of a rank is a collective call or a list of operations with one stamp. When the stages of
the ranks have growing stamps, no stage posts and waits, and the ranks' stages agree on messages
and calls, the flattened stages are a schedule.
-/

namespace Messaging

open RankProgram

variable {n : ℕ} {M C α : Type}

inductive Stage (n : ℕ) (M C : Type)
  | ops (l : List (Op n M))
  | sync (c : C)

namespace Stage

def opList : Stage n M C → List (Op n M)
  | .ops l => l
  | .sync _ => []

@[simp] theorem opList_ops (l : List (Op n M)) : (.ops l : Stage n M C).opList = l := rfl

@[simp] theorem opList_sync (c : C) : (.sync c : Stage n M C).opList = [] := rfl

def isSync : Stage n M C → Bool
  | .ops _ => false
  | .sync _ => true

@[simp] theorem isSync_ops (l : List (Op n M)) : (.ops l : Stage n M C).isSync = false := rfl

@[simp] theorem isSync_sync (c : C) : (.sync c : Stage n M C).isSync = true := rfl

def events (Ω : Oracle (interface n M C) n) (r : Fin n) :
    Stage n M C → List (Event (interface n M C))
  | .ops l => l.map fun o => .op o (Ω.resp r o)
  | .sync c => [.sync c]

/-- The stage does not wait, or posts nothing. -/
def Level : Stage n M C → Prop
  | .ops l => (∀ o ∈ l, ∃ q, o.postsOn = some q) ∨ ∀ o ∈ l, o.postsOn = none
  | .sync _ => True

end Stage

variable {stages : List (ℕ × Stage n M C)} {Ω : Oracle (interface n M C) n} {r : Fin n}
  {label : ℕ → ℕ}

def flatten (label : ℕ → ℕ) (Ω : Oracle (interface n M C) n) (r : Fin n)
    (stages : List (ℕ × Stage n M C)) : List (ℕ × Event (interface n M C)) :=
  stages.flatMap fun x => (x.2.events Ω r).map (Prod.mk (label x.1))

def stageOps (stages : List (ℕ × Stage n M C)) : List (Op n M) :=
  stages.flatMap fun x => x.2.opList

def stageSends (b : Fin n) (stages : List (ℕ × Stage n M C)) : List (ℕ × M) :=
  stages.flatMap fun x => (sendsTo b x.2.opList).map (Prod.mk x.1)

def stageRecvs (a : Fin n) (stages : List (ℕ × Stage n M C)) : List (ℕ × M) :=
  stages.flatMap fun x => (recvsFrom a x.2.opList).map (Prod.mk x.1)

def stageSyncs (stages : List (ℕ × Stage n M C)) : List ℕ :=
  stages.flatMap fun x => if x.2.isSync then [x.1] else []

theorem map_ops_append (xs ys : List (Op n M)) :
    (Stage.ops (xs ++ ys) : Stage n M C).events Ω r =
      (Stage.ops xs : Stage n M C).events Ω r ++ (Stage.ops ys : Stage n M C).events Ω r :=
  List.map_append

theorem map_snd_flatten :
    (flatten label Ω r stages).map Prod.snd = stages.flatMap fun x => x.2.events Ω r := by
  simp [flatten, List.map_flatMap, Function.comp_def]

theorem opsOf_flatten : opsOf (flatten label Ω r stages) = stageOps stages := by
  unfold opsOf flatten stageOps
  rw [List.filterMap_flatMap]
  apply List.flatMap_congr
  rintro ⟨t, l | c⟩ _
  · simp [Stage.events, Stage.opList, List.filterMap_map]
  · rfl

theorem sync_mem_flatten {e : ℕ} {c : C} :
    (e, .sync c) ∈ flatten label Ω r stages ↔ ∃ t, (t, .sync c) ∈ stages ∧ label t = e := by
  unfold flatten
  rw [List.mem_flatMap]
  constructor
  · rintro ⟨⟨t, l | c'⟩, hmem, hev⟩
    · simp [Stage.events] at hev
    · simp only [Stage.events, List.map_cons, List.map_nil, List.mem_singleton, Prod.mk.injEq,
        Event.sync.injEq] at hev
      obtain ⟨rfl, rfl⟩ := hev
      exact ⟨t, hmem, rfl⟩
  · rintro ⟨t, hmem, rfl⟩
    exact ⟨_, hmem, List.mem_singleton.mpr rfl⟩

theorem stampedSends_flatten (b : Fin n) :
    stampedSends b (flatten id Ω r stages) = stageSends b stages := by
  unfold stampedSends flatten stageSends
  rw [List.filterMap_flatMap]
  apply List.flatMap_congr
  rintro ⟨t, l | c⟩ _
  · simp only [Stage.events, Stage.opList, sendsTo, List.filterMap_map, List.map_filterMap]
    apply List.filterMap_congr
    intro o _
    cases o <;> simp [Option.map_if]
  · rfl

theorem stampedRecvs_flatten (a : Fin n) :
    stampedRecvs a (flatten id Ω r stages) = stageRecvs a stages := by
  unfold stampedRecvs flatten stageRecvs
  rw [List.filterMap_flatMap]
  apply List.flatMap_congr
  rintro ⟨t, l | c⟩ _
  · simp only [Stage.events, Stage.opList, recvsFrom, List.filterMap_map, List.map_filterMap]
    apply List.filterMap_congr
    intro o _
    cases o <;> simp [Option.map_if]
  · rfl

theorem syncStamps_flatten : syncStamps (flatten id Ω r stages) = stageSyncs stages := by
  unfold syncStamps flatten stageSyncs
  rw [List.filter_flatMap, List.map_flatMap]
  apply List.flatMap_congr
  rintro ⟨t, l | c⟩ _
  · simp [Stage.events, Stage.isSync, List.filter_map, Event.isSync, Function.comp_def]
  · rfl

theorem ordered_flatten (hsorted : (stages.map Prod.fst).Pairwise (· < ·))
    (hlevel : ∀ x ∈ stages, x.2.Level) : (flatten id Ω r stages).Pairwise Before := by
  unfold flatten
  rw [List.pairwise_flatMap]
  constructor
  · rintro ⟨t, l | c⟩ hx
    · simp only [Stage.events, List.map_map, List.pairwise_map]
      apply List.pairwise_of_forall_mem_list
      intro o ho p hp
      refine ⟨le_rfl, ?_⟩
      rintro (⟨hpost, hwait⟩ | hsync)
      · rcases hlevel _ hx with hall | hnone
        · obtain ⟨q, hq⟩ := hall p hp
          cases p <;> simp [Op.postsOn] at hq <;> exact hwait.elim
        · have hq := hnone o ho
          cases o <;> simp [Op.postsOn] at hq <;> exact hpost.elim
      · cases hsync
    · exact List.pairwise_singleton _ _
  · rw [List.pairwise_map] at hsorted
    apply hsorted.imp
    intro x y hlt u hu v hv
    obtain ⟨ev, -, rfl⟩ := List.mem_map.mp hu
    obtain ⟨ev', -, rfl⟩ := List.mem_map.mp hv
    exact ⟨hlt.le, fun _ => hlt⟩

/-- In epoch `e` the program performs exactly `ops` and returns `x`. -/
def Performs (Ω : Oracle (interface n M C) n) (r : Fin n) (e : ℕ) {β : Type}
    (p : Program (interface n M C) n β) (ops : List (Op n M)) (x : β) : Prop :=
  Runs Ω r e p (((Stage.ops ops : Stage n M C).events Ω r).map (Prod.mk e)) x e

namespace Performs

variable {e : ℕ} {β γ : Type} {ops ops' : List (Op n M)}

theorem congr {p : Program (interface n M C) n β} {x : β} (hops : ops = ops')
    (hp : Performs Ω r e p ops x) : Performs Ω r e p ops' x := hops ▸ hp

theorem pure (x : β) : Performs Ω r e (.pure x) [] x := Runs.pure x

theorem op (o : Op n M) {next : Resp o → Program (interface n M C) n β} {x : β}
    (h : Performs Ω r e (next (Ω.resp r o)) ops x) :
    Performs Ω r e (.op o next) (o :: ops) x :=
  Runs.op (I := interface n M C) o h

theorem bind {p : Program (interface n M C) n β} {f : β → Program (interface n M C) n γ} {x : β}
    {y : γ} (hp : Performs Ω r e p ops x) (hf : Performs Ω r e (f x) ops' y) :
    Performs Ω r e (p.bind f) (ops ++ ops') y := by
  have := Runs.bind hp hf
  rw [← List.map_append, ← map_ops_append] at this
  exact this

/-- A loop without a state. -/
theorem loop {body : ℕ → Unit → Program (interface n M C) n Unit} {i : ℕ} (count : ℕ)
    (ops : ℕ → List (Op n M)) (hbody : ∀ k, Performs Ω r e (body (i + k) ()) (ops k) ()) :
    Performs Ω r e (Program.loop body i count ()) ((List.range count).flatMap ops) () := by
  have := Runs.loop (Ω := Ω) (r := r) (e := e) body (i := i) count (fun _ => ()) _
    fun k _ => hbody k
  apply this.congr
  simp [Stage.events, List.map_flatMap]

end Performs

/-- A program whose traces are given by stages that the ranks agree on. -/
structure Staged (clock : Fin n → ℕ → ℕ) (Ω : Oracle (interface n M C) n)
    (code : Fin n → Program (interface n M C) n α) (stages : Fin n → List (ℕ × Stage n M C))
    (epoch : ℕ → ℕ) : Prop where
  predicted : Predicted clock Ω code
  trace_eq : ∀ r, trace Ω r 0 (code r) = flatten epoch Ω r (stages r)
  balanced : ∀ r, Acct.start.Balanced (stageOps (stages r))
  sorted : ∀ r, ((stages r).map Prod.fst).Pairwise (· < ·)
  level : ∀ r, ∀ x ∈ stages r, x.2.Level
  paired : ∀ a b, stageSends b (stages a) = stageRecvs a (stages b)
  syncs : ∀ a b, stageSyncs (stages a) = stageSyncs (stages b)

theorem Staged.opsOf_trace {clock : Fin n → ℕ → ℕ} {code : Fin n → Program (interface n M C) n α}
    {stages : Fin n → List (ℕ × Stage n M C)} {epoch : ℕ → ℕ}
    (h : Staged clock Ω code stages epoch) (r : Fin n) :
    opsOf (trace Ω r 0 (code r)) = stageOps (stages r) := by
  rw [h.trace_eq, opsOf_flatten]

theorem Staged.scheduled {clock : Fin n → ℕ → ℕ} {code : Fin n → Program (interface n M C) n α}
    {stages : Fin n → List (ℕ × Stage n M C)} {epoch : ℕ → ℕ}
    (h : Staged clock Ω code stages epoch) :
    Scheduled clock Ω code fun r => flatten id Ω r (stages r) where
  predicted := h.predicted
  balanced r := by
    rw [h.opsOf_trace]
    exact h.balanced r
  schedule :=
    { ordered := fun r => ordered_flatten (h.sorted r) (h.level r)
      paired := fun a b => by rw [stampedSends_flatten, stampedRecvs_flatten, h.paired]
      syncs := fun a b => by rw [syncStamps_flatten, syncStamps_flatten, h.syncs a b] }
  stamps r := by rw [h.trace_eq, map_snd_flatten, map_snd_flatten]

end Messaging
