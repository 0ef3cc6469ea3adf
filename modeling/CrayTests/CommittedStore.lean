import CrayTests.RankProgram

/-!
# A key-value store made visible by barriers

Ranks put values under keys, commit what they have put, and get values. All the store promises is
that a value committed before its writer enters a barrier is returned by gets issued after that
barrier; before that a get may return anything. Labels on puts and gets say on whose behalf they
are issued and have no effect.

`Disciplined.predicts` is the rule of use: when no key is written with two values and every get
comes at least one barrier after the put of the value it expects, every get of every run returns
the expected value.
-/

namespace CommittedStore
open RankProgram

variable {κ ν ω L : Type}

inductive Op (κ ν ω L : Type)
  | put (l : L) (k : κ) (v : ν)
  | commit
  | get (l : L) (k : κ)
  /-- A value shown to the outside. -/
  | observe (w : ω)
  /-- A failed assertion: the rank makes no further step. -/
  | abort

@[reducible] def Op.Resp : Op κ ν ω L → Type
  | .get _ _ => ν
  | _ => Unit

/-- The interface of the store. Its only collective call is the barrier. -/
@[reducible] def store (κ ν ω L : Type) : Interface := ⟨Op κ ν ω L, Op.Resp, Unit⟩

abbrev putEvent (l : L) (k : κ) (v : ν) : Event (store κ ν ω L) :=
  .op (Op.put l k v : Op κ ν ω L) ()

abbrev getEvent (l : L) (k : κ) (v : ν) : Event (store κ ν ω L) :=
  .op (Op.get l k : Op κ ν ω L) v

abbrev commitEvent : Event (store κ ν ω L) := .op (Op.commit : Op κ ν ω L) ()

abbrev abortEvent : Event (store κ ν ω L) := .op (Op.abort : Op κ ν ω L) ()

/-- The puts of one rank not yet committed, and the committed ones with their epochs. -/
structure Held (κ ν : Type) where
  staged : List (κ × ν) := []
  committed : List (ℕ × κ × ν) := []

namespace Held

def put (h : Held κ ν) (k : κ) (v : ν) : Held κ ν := { h with staged := h.staged ++ [(k, v)] }

def commit (h : Held κ ν) (e : ℕ) : Held κ ν :=
  ⟨[], h.committed ++ h.staged.map (fun p => (e, p))⟩

def apply (h : Held κ ν) : ℕ × Event (store κ ν ω L) → Held κ ν
  | (_, .op (.put _ k v) _) => h.put k v
  | (e, .op .commit _) => h.commit e
  | _ => h

end Held

def replay (done : List (ℕ × Event (store κ ν ω L))) : Held κ ν := done.foldl Held.apply {}

variable {n : ℕ}

/-- What a get in epoch `e` may return: a value committed for the key in an earlier epoch or, when
there is none, anything. -/
def Returned (mem : Fin n → Held κ ν) (e : ℕ) (k : κ) (v : ν) : Prop :=
  (∃ q e', e' < e ∧ (e', k, v) ∈ (mem q).committed) ∨
    ∀ q e' v', (e', k, v') ∈ (mem q).committed → e ≤ e'

@[reducible] def machine (κ ν ω L : Type) (n : ℕ) : Machine (store κ ν ω L) n where
  Mem := Fin n → Held κ ν
  perform r e
    | .put _ k v, mem, _, mem' => mem' = Function.update mem r ((mem r).put k v)
    | .commit, mem, _, mem' => mem' = Function.update mem r ((mem r).commit e)
    | .get _ k, mem, x, mem' => mem' = mem ∧ Returned mem e k x
    | .observe _, mem, _, mem' => mem' = mem
    | .abort, _, _, _ => False
  drift _ _ := False

def empty : Fin n → Held κ ν := fun _ => {}

variable {α : Type} {code : Fin n → Program (store κ ν ω L) n α}
  {s : State (machine κ ν ω L n) α}

theorem replay_append (done : List (ℕ × Event (store κ ν ω L))) (ev : ℕ × Event (store κ ν ω L)) :
    replay (done ++ [ev]) = (replay done).apply ev := by simp [replay]

/-- The memory is the ranks' histories, replayed. -/
theorem mem_eq_replay (hs : Reachable (empty : Fin n → Held κ ν) code s) (r : Fin n) :
    s.mem r = replay (s.proc r).done := by
  induction hs generalizing r with
  | refl => rfl
  | @tail s t _ hstep ih =>
    have sync_case {p : Proc (store κ ν ω L) n α} {q : Fin n} (hq : replay p.done = s.mem q) :
        s.mem r = replay ((s.set q s.mem p).proc r).done := by
      by_cases h : r = q
      · subst h; rw [State.set_proc_self, hq]
      · rw [State.set_proc_ne q s s.mem p h, ih r]
    cases hstep with
    | op q o next x mem hcode hperform =>
      have hmem : mem = Function.update s.mem q ((s.mem q).apply ((s.proc q).epoch, .op o x)) := by
        cases o with
        | put l k v => exact hperform
        | commit => exact hperform
        | get l k => simpa [Held.apply] using hperform.1
        | observe w => simpa [Held.apply] using hperform
        | abort => exact hperform.elim
      by_cases h : r = q
      · subst h
        rw [State.set_mem, State.set_proc_self, hmem, Function.update_self, Proc.answer,
          replay_append, ih r]
      · rw [State.set_mem, State.set_proc_ne q s mem _ h, hmem, Function.update_of_ne h, ih r]
    | enter q c next hcode hout => exact sync_case (ih q).symm
    | leave q c next v hcode hin hall =>
      refine sync_case ?_
      rw [Proc.leave, replay_append, ← ih q]
      rfl
    | drift mem hd => exact hd.elim

theorem Held.committed_subset_apply (h : Held κ ν) (ev : ℕ × Event (store κ ν ω L)) :
    h.committed ⊆ (h.apply ev).committed := by
  obtain ⟨e, ev⟩ := ev
  cases ev with
  | sync c => exact fun _ h => h
  | op o x =>
    cases o with
    | commit => exact List.subset_append_left _ _
    | _ => exact fun _ h => h

theorem committed_subset_foldl (done : List (ℕ × Event (store κ ν ω L))) (h : Held κ ν) :
    h.committed ⊆ (done.foldl Held.apply h).committed := by
  induction done generalizing h with
  | nil => exact fun _ h => h
  | cons ev done ih => exact fun x hx => ih _ (h.committed_subset_apply ev hx)

/-- A put directly followed by its commit is held for good. -/
theorem mem_replay_of_published {A C : List (ℕ × Event (store κ ν ω L))} {e : ℕ} {l : L} {k : κ}
    {v : ν} :
    (e, k, v) ∈ (replay (A ++ (e, putEvent l k v) :: (e, commitEvent) :: C)).committed := by
  rw [replay, List.foldl_append, List.foldl_cons, List.foldl_cons]
  apply committed_subset_foldl
  simp [Held.apply, Held.put, Held.commit]

/-- Everything held was put by an event of the history. -/
theorem put_of_mem_replay (done : List (ℕ × Event (store κ ν ω L))) :
    (∀ k v, (k, v) ∈ (replay done).staged → ∃ e l, (e, putEvent l k v) ∈ done) ∧
      ∀ e k v, (e, k, v) ∈ (replay done).committed →
        ∃ e' l, (e', putEvent l k v) ∈ done := by
  induction done using List.reverseRecOn with
  | nil => simp [replay]
  | append_singleton done ev ih =>
    rw [replay_append]
    obtain ⟨ihs, ihc⟩ := ih
    have old {k : κ} {v : ν} (h : ∃ e l, (e, putEvent l k v) ∈ done) :
        ∃ e l, (e, putEvent l k v) ∈ done ++ [ev] := by
      obtain ⟨e, l, h⟩ := h
      exact ⟨e, l, List.mem_append_left _ h⟩
    obtain ⟨e₀, ev⟩ := ev
    cases ev with
    | sync c => exact ⟨fun k v h => old (ihs k v h), fun e k v h => old (ihc e k v h)⟩
    | op o x =>
      cases o with
      | put l k₀ v₀ =>
        refine ⟨fun k v h => ?_, fun e k v h => old (ihc e k v h)⟩
        rcases List.mem_append.mp h with h | h
        · exact old (ihs k v h)
        · obtain ⟨rfl, rfl⟩ := Prod.mk.inj (List.mem_singleton.mp h)
          exact ⟨e₀, l, List.mem_append_right _ (List.mem_singleton_self _)⟩
      | commit =>
        refine ⟨fun k v h => (List.not_mem_nil h).elim, fun e k v h => ?_⟩
        rcases List.mem_append.mp h with h | h
        · exact old (ihc e k v h)
        · obtain ⟨p, hp, heq⟩ := List.mem_map.mp h
          obtain ⟨-, rfl⟩ := Prod.mk.inj heq
          exact old (ihs k v hp)
      | get l k₀ => exact ⟨fun k v h => old (ihs k v h), fun e k v h => old (ihc e k v h)⟩
      | observe w => exact ⟨fun k v h => old (ihs k v h), fun e k v h => old (ihc e k v h)⟩
      | abort => exact ⟨fun k v h => old (ihs k v h), fun e k v h => old (ihc e k v h)⟩

variable (Ω : Oracle (store κ ν ω L) n)

structure PutsBeforeGets (code : Fin n → Program (store κ ν ω L) n α) : Prop where
  /-- No key is written with two values. -/
  unique : ∀ r q e e' l l' k v v', (e, putEvent l k v) ∈ trace Ω r 0 (code r) →
    (e', putEvent l' k v') ∈ trace Ω q 0 (code q) → v = v'
  /-- The value a get expects is put and committed at least one barrier earlier. -/
  published : ∀ r e l k v, (e, getEvent l k v) ∈ trace Ω r 0 (code r) →
    ∃ q e' l' A C, e' < e ∧
      trace Ω q 0 (code q) = A ++ (e', putEvent l' k v) :: (e', commitEvent) :: C

structure Disciplined (code : Fin n → Program (store κ ν ω L) n α) : Prop
    extends PutsBeforeGets Ω code where
  safe : ∀ r e, (e, abortEvent) ∉ trace Ω r 0 (code r)
  even : ∀ r q, lastEpoch Ω r 0 (code r) = lastEpoch Ω q 0 (code q)

variable {Ω}

/-- What is published before a barrier is visible to a rank that has left the barrier. -/
theorem published_visible (hs : Reachable (empty : Fin n → Held κ ν) code s)
    (hf : Follows Ω code s) {r q : Fin n} {e : ℕ} {l : L} {k : κ} {v : ν}
    {A C : List (ℕ × Event (store κ ν ω L))} (he : e < (s.proc r).epoch)
    (htrace : trace Ω q 0 (code q) = A ++ (e, putEvent l k v) :: (e, commitEvent) :: C) :
    (e, k, v) ∈ (s.mem q).committed := by
  rw [mem_eq_replay hs q]
  have hpath := hf.path q
  rw [htrace] at hpath
  have pending {o : Op κ ν ω L} {x : Op.Resp o}
      (h : (e, Event.op o x) ∈ trace Ω q (s.proc q).epoch (s.proc q).code) : False := by
    have := hf.epoch_le_of_pending r q h
    omega
  rcases List.append_eq_append_iff.mp hpath with ⟨B, -, hrest⟩ | ⟨B, hdone, hrest⟩
  · refine (pending (o := .put l k v) (x := ()) ?_).elim
    rw [hrest]
    exact List.mem_append_right _ List.mem_cons_self
  · -- neither the put nor the commit can be pending, so the history covers both
    rcases B with - | ⟨b, - | ⟨b', B⟩⟩
    · refine (pending (o := .put l k v) (x := ()) ?_).elim
      rw [List.nil_append] at hrest
      rw [← hrest]
      exact List.mem_cons_self
    · refine (pending (o := .commit) (x := ()) ?_).elim
      rw [List.singleton_append] at hrest
      rw [← (List.cons.inj hrest).2]
      exact List.mem_cons_self
    · obtain ⟨hb, hrest⟩ := List.cons.inj hrest
      obtain ⟨hb', -⟩ := List.cons.inj hrest
      rw [hdone, ← hb, ← hb']
      exact mem_replay_of_published

theorem PutsBeforeGets.resp_get (hd : PutsBeforeGets Ω code)
    (hs : Reachable (empty : Fin n → Held κ ν) code s) (hf : Follows Ω code s) {r : Fin n} {l : L}
    {k : κ} {next : ν → Program (store κ ν ω L) n α} {x : ν}
    (hcode : (s.proc r).code = .op (.get l k) next)
    (hx : Returned s.mem (s.proc r).epoch k x) : x = Ω.resp r (.get l k) := by
  obtain ⟨q, e', l', A, C, he, htrace⟩ := hd.published r _ l k _ (hf.head_mem_trace hcode)
  have hvis := published_visible hs hf he htrace
  rcases hx with ⟨q', e'', -, hmem⟩ | hnone
  · rw [mem_eq_replay hs q'] at hmem
    obtain ⟨e₁, l₁, hput⟩ := (put_of_mem_replay _).2 _ _ _ hmem
    refine hd.unique q' q e₁ e' l₁ l' k _ _ (hf.mem_trace_of_done hput) ?_
    rw [htrace]
    exact List.mem_append_right _ List.mem_cons_self
  · have := hnone q e' _ hvis
    omega

theorem PutsBeforeGets.follows (hd : PutsBeforeGets Ω code)
    (hs : Reachable (empty : Fin n → Held κ ν) code s) : Follows Ω code s := by
  refine (follows_of_reachable (fun _ _ _ _ => rfl) ?_ hs).2
  intro t hguided hf r o next x mem hcode hperform
  cases o with
  | get l k => exact hd.resp_get hguided.reachable hf hcode hperform.2
  | _ => rfl

/-- Disciplined programs run as the oracle predicts. -/
theorem Disciplined.predicts (hd : Disciplined Ω code) :
    Predicts (m := machine κ ν ω L n) Ω empty code where
  coherent _ _ _ _ := rfl
  resp s hs hf r o next x mem hcode hperform := by
    cases o with
    | get l k => exact hd.toPutsBeforeGets.resp_get hs.reachable hf hcode hperform.2
    | _ => rfl
  answers s hs hf r o next hcode := by
    cases o with
    | put l k v => exact ⟨(), _, rfl⟩
    | commit => exact ⟨(), _, rfl⟩
    | get l k =>
      by_cases h : ∃ v q e', e' < (s.proc r).epoch ∧ (e', k, v) ∈ (s.mem q).committed
      · obtain ⟨v, h⟩ := h
        exact ⟨v, _, rfl, Or.inl h⟩
      · refine ⟨Ω.resp r (.get l k), _, rfl, Or.inr (fun q e' v' hmem => ?_)⟩
        by_contra hlt
        exact h ⟨v', q, e', by omega, hmem⟩
    | observe w => exact ⟨(), _, rfl⟩
    | abort => exact (hd.safe r _ (hf.head_mem_trace hcode)).elim
  even := hd.even
  still _ _ h := h

theorem abort_not_mem_done (hs : Reachable (empty : Fin n → Held κ ν) code s) (r : Fin n) (e : ℕ) :
    (e, abortEvent) ∉ (s.proc r).done := by
  induction hs generalizing r with
  | refl => exact List.not_mem_nil
  | @tail s t _ hstep ih =>
    have kept {p : Proc (store κ ν ω L) n α} {q : Fin n} {ev : ℕ × Event (store κ ν ω L)}
        (hdone : p.done = (s.proc q).done ++ [ev]) (hev : (e, abortEvent) ≠ ev) (mem) :
        (e, abortEvent) ∉ ((s.set q mem p).proc r).done := by
      refine State.forall_set (P := fun _ p => (e, abortEvent) ∉ p.done) ?_ (fun q _ => ih q) r
      rw [hdone, List.mem_append, List.mem_singleton]
      exact not_or.mpr ⟨ih q, hev⟩
    cases hstep with
    | op q o next x mem hcode hperform =>
      refine kept rfl ?_ mem
      intro heq
      obtain ⟨rfl, -⟩ := Event.op.inj (Prod.mk.inj heq).2
      exact hperform
    | enter q c next hcode hout =>
      rw [State.done_set_enter]
      exact ih r
    | leave q c next v hcode hin hall =>
      refine kept rfl ?_ s.mem
      intro heq
      cases (Prod.mk.inj heq).2
    | drift mem hd => exact hd.elim

/-- A program whose trace runs into a failed assertion never ends. -/
theorem PutsBeforeGets.not_halted (hd : PutsBeforeGets Ω code)
    (hs : Reachable (empty : Fin n → Held κ ν) code s) {r : Fin n} {e : ℕ}
    (habort : (e, abortEvent) ∈ trace Ω r 0 (code r)) : ¬ Halted s := by
  intro hhalt
  obtain ⟨a, ha⟩ := hhalt r
  rw [← ((hd.follows hs).done_of_halted ha).1] at habort
  exact abort_not_mem_done hs r e habort

end CommittedStore
