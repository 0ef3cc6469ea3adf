import CrayTests.ProcessRuns

/-!
# Programs linked with a library

A `Library` implements the operations and collective calls of one interface over another one. It
keeps a state of its own, the static variables of the linked code. `Program.link` replaces the calls
of a program by their implementations. When each call gives, along an oracle of the lower interface,
what an oracle of the upper interface predicts, the linked program computes what the program
computes (`Runs.link`).

The prediction can be taken from a run: where operations have predictable responses, the
contributions seen in one halted state are an oracle for all runs (`predicts_of_halted`).
-/

namespace RankProgram

variable {I J : Interface} {n : ℕ} {α S : Type}

structure Library (I J : Interface) (n : ℕ) (S : Type) where
  op : (o : I.Op) → S → Program J n (I.Resp o × S)
  sync : I.Coll → S → Program J n ((Fin n → I.Coll) × S)

def Program.link (lib : Library I J n S) : Program I n α → S → Program J n (α × S)
  | .pure a, st => .pure (a, st)
  | .op o next, st => (lib.op o st).bind fun x => link lib (next x.1) x.2
  | .sync c next, st => (lib.sync c st).bind fun x => link lib (next x.1) x.2

section Along

variable {κ σ : Type} (contribution : κ → Fin n → I.Coll) (r : Fin n)

/-- The events of a program that makes the collective calls `calls` and does nothing else. -/
def callEvents (e : ℕ) (calls : List κ) : List (ℕ × Event I) :=
  calls.mapIdx fun k c => (e + k, .sync (contribution c r))

/-- The events of the lower program, which each call moves from one position to the next. -/
def eventsAlong (move : σ → κ → σ) (evs : σ → κ → List (ℕ × Event J)) :
    σ → List κ → List (ℕ × Event J)
  | _, [] => []
  | x, c :: calls => evs x c ++ eventsAlong move evs (move x c) calls

theorem callEvents_cons (e : ℕ) (c : κ) (calls : List κ) :
    (callEvents contribution r e (c :: calls) : List (ℕ × Event I)) =
      (e, .sync (contribution c r)) :: callEvents contribution r (e + 1) calls := by
  simp only [callEvents, List.mapIdx_cons, Nat.add_zero, Nat.add_assoc, Nat.add_comm 1]

variable {contribution r} {lib : Library I J n S} {Ω : Oracle I n} {Ω' : Oracle J n}
  {move : σ → κ → σ} {ep : σ → ℕ} {st : σ → S} {evs : σ → κ → List (ℕ × Event J)}

/-- Along an oracle that agrees with `calls` a program without operations makes these calls. -/
theorem trace_eq_callEvents [IsEmpty I.Op] {Ω : Oracle I n} {p : Program I n α} {e : ℕ}
    {calls : List κ} (hlast : lastEpoch Ω r e p = e + calls.length)
    (hgathered : ∀ k c, calls[k]? = some c → Ω.gathered (e + k) = contribution c)
    (hcoherent : ∀ e' c, (e', .sync c) ∈ trace Ω r e p → c = Ω.gathered e' r) :
    trace Ω r e p = callEvents contribution r e calls := by
  induction p generalizing e calls with
  | pure a =>
    obtain rfl : calls = [] := List.length_eq_zero_iff.mp (by rw [lastEpoch_pure] at hlast; omega)
    rfl
  | op o next ih => exact (IsEmpty.false o).elim
  | sync c next ih =>
    have hle := le_lastEpoch Ω r (e + 1) (next (Ω.gathered e))
    rw [lastEpoch] at hlast
    cases calls with
    | nil =>
      rw [List.length_nil] at hlast
      omega
    | cons call calls =>
      have hhere : Ω.gathered e = contribution call := hgathered 0 call rfl
      have hc : c = contribution call r := by
        rw [hcoherent e c List.mem_cons_self, hhere]
      rw [trace, callEvents_cons, ← hc, ih (Ω.gathered e) ?_ ?_ ?_]
      · rw [hlast, List.length_cons]
        omega
      · intro k c' hc'
        rw [Nat.add_assoc, Nat.add_comm 1]
        exact hgathered (k + 1) c' hc'
      · exact fun e' c' h => hcoherent e' c' (List.mem_cons_of_mem _ h)

variable (lib Ω' move ep st evs) in
/-- When the library performs every call from a good position and moves to a good position, it
performs all calls of a program and computes what the program computes. -/
theorem Runs.link {Good : σ → List κ → Prop}
    (hgood : ∀ x c calls, Good x (c :: calls) →
      Runs Ω' r (ep x) (lib.sync (contribution c r) (st x)) (evs x c)
        (contribution c, st (move x c)) (ep (move x c)) ∧ Good (move x c) calls)
    {p : Program I n α} {a : α} {e e' : ℕ} {x : σ} {calls : List κ} (hx : Good x calls)
    (hup : Runs Ω r e p (callEvents contribution r e calls) a e')
    (hgathered : ∀ k c, calls[k]? = some c → Ω.gathered (e + k) = contribution c) :
    Runs Ω' r (ep x) (p.link lib (st x)) (eventsAlong move evs x calls)
      (a, st (calls.foldl move x)) (ep (calls.foldl move x)) := by
  induction p generalizing e x calls with
  | pure b =>
    obtain ⟨htrace, rfl, -⟩ := hup
    obtain rfl : calls = [] := List.mapIdx_eq_nil_iff.mp htrace.symm
    exact .pure _
  | op o next ih =>
    have htrace := hup.trace_eq
    cases calls with
    | nil => cases htrace
    | cons c calls =>
      rw [callEvents_cons] at htrace
      cases (Prod.mk.inj (List.cons.inj htrace).1).2
  | sync c next ih =>
    obtain ⟨htrace, hresult, hlast⟩ := hup
    cases calls with
    | nil => cases htrace
    | cons call calls =>
      rw [callEvents_cons] at htrace
      obtain ⟨hhead, htail⟩ := List.cons.inj htrace
      obtain rfl : c = contribution call r := Event.sync.inj (Prod.mk.inj hhead).2
      obtain ⟨hhere, hnext⟩ := hgood x call calls hx
      have hv : Ω.gathered e = contribution call := hgathered 0 call rfl
      have hrest := ih (Ω.gathered e) hnext ⟨htail, hresult, hlast⟩ fun k c hc => by
        rw [Nat.add_assoc, Nat.add_comm 1]
        exact hgathered (k + 1) c hc
      rw [hv] at hrest
      exact hhere.bind hrest

end Along

section Halted

variable {m : Machine I n} {mem₀ : m.Mem} {code : Fin n → Program I n α} {s t : State m α}

theorem sent_isPrefix_step (h : Step s t) (q : Fin n) : (s.proc q).sent <+: (t.proc q).sent := by
  have others {r : Fin n} {mem : m.Mem} {p : Proc I n α} (hp : (s.proc r).sent <+: p.sent) :
      (s.proc q).sent <+: ((s.set r mem p).proc q).sent :=
    State.forall_set (P := fun q p => (s.proc q).sent <+: p.sent) hp
      (fun _ _ => List.prefix_refl _) q
  cases h with
  | op r o next x mem hcode hperform => exact others (List.prefix_refl _)
  | enter r c next hcode hout => exact others (List.prefix_append _ _)
  | leave r c next v hcode hin hall => exact others (List.prefix_refl _)
  | drift mem hdrift => exact List.prefix_refl _

/-- Contributions once brought stay. -/
theorem sent_isPrefix_run (h : Relation.ReflTransGen Step s t) (q : Fin n) :
    (s.proc q).sent <+: (t.proc q).sent := by
  induction h with
  | refl => exact List.prefix_refl _
  | tail _ hstep ih => exact ih.trans (sent_isPrefix_step hstep q)

theorem getElem?_of_isPrefix {l l' : List I.Coll} (h : l <+: l') {e : ℕ} {c : I.Coll}
    (he : l[e]? = some c) : l'[e]? = some c := by
  obtain ⟨k, rfl⟩ := h
  rwa [List.getElem?_append_left (length_of_getElem? he)]

/-- The calls in the history of a rank are those it has brought its contributions to. -/
theorem sent_of_mem_done (h : Reachable mem₀ code s) (q : Fin n) {e : ℕ} {c : I.Coll}
    (hmem : (e, .sync c) ∈ (s.proc q).done) : (s.proc q).sent[e]? = some c := by
  induction h generalizing q with
  | refl => cases hmem
  | @tail s t hs hstep ih =>
    cases hstep with
    | op r o next x mem hcode hperform =>
      revert hmem
      refine State.forall_set (P := fun _ p => (e, .sync c) ∈ p.done → p.sent[e]? = some c)
        (fun hmem => ?_) (fun q _ => ih q) q
      rcases List.mem_append.mp hmem with hmem | hmem
      · exact ih r hmem
      · cases (Prod.mk.inj (List.mem_singleton.mp hmem)).2
    | enter r c' next hcode hout =>
      rw [State.done_set_enter] at hmem
      exact getElem?_of_isPrefix (sent_isPrefix_step (.enter r c' next hcode hout) q) (ih q hmem)
    | leave r c' next v hcode hin hall =>
      revert hmem
      refine State.forall_set (P := fun _ p => (e, .sync c) ∈ p.done → p.sent[e]? = some c)
        (fun hmem => ?_) (fun q _ => ih q) q
      rcases List.mem_append.mp hmem with hmem | hmem
      · exact ih r hmem
      · obtain ⟨rfl, hc⟩ := Prod.mk.inj (List.mem_singleton.mp hmem)
        cases hc
        exact (owns_of_reachable hs).2 r c next hcode hin
    | drift mem hdrift => exact ih q hmem

def contributions [Inhabited I.Coll] (resp : Fin n → (o : I.Op) → I.Resp o) (t : State m α) :
    Oracle I n where
  resp := resp
  gathered e q := ((t.proc q).sent[e]?).getD default

/-- A rank has come along its trace as far as its record says. -/
structure Proc.OnTrace (Ω : Oracle I n) (r : Fin n) (p₀ : Program I n α) (p : Proc I n α) :
    Prop where
  path : p.done ++ trace Ω r p.epoch p.code = trace Ω r 0 p₀
  outcome : result Ω r p.epoch p.code = result Ω r 0 p₀
  horizon : lastEpoch Ω r p.epoch p.code = lastEpoch Ω r 0 p₀

variable [Inhabited I.Coll] {resp : Fin n → (o : I.Op) → I.Resp o}
  (hresp : ∀ r e o mem x mem', m.perform r e o mem x mem' → x = resp r o)

include hresp in
theorem onTrace_step (hto : Relation.ReflTransGen Step s t) {s' : State m α}
    (hstep : Step s s') (h : ∀ q, (s.proc q).OnTrace (contributions resp t) q (code q))
    (q : Fin n) : (s'.proc q).OnTrace (contributions resp t) q (code q) := by
  have others {r : Fin n} {mem : m.Mem} {p : Proc I n α}
      (hp : p.OnTrace (contributions resp t) r (code r)) :
      ((s.set r mem p).proc q).OnTrace (contributions resp t) q (code q) :=
    State.forall_set (P := fun q p => p.OnTrace (contributions resp t) q (code q)) hp
      (fun q _ => h q) q
  cases hstep with
  | op r o next x mem hcode hperform =>
    obtain ⟨hpath, hout, hhor⟩ := h r
    rw [hcode] at hpath hout hhor
    obtain rfl := hresp _ _ _ _ _ _ hperform
    refine others ⟨?_, hout, hhor⟩
    rw [Proc.answer, List.append_assoc]
    exact hpath
  | enter r c next hcode hout => exact others ⟨(h r).path, (h r).outcome, (h r).horizon⟩
  | leave r c next v hcode hin hall =>
    obtain ⟨hpath, hout, hhor⟩ := h r
    rw [hcode] at hpath hout hhor
    have hv : v = (contributions resp t).gathered (s.proc r).epoch := funext fun q => by
      change v q = ((t.proc q).sent[(s.proc r).epoch]?).getD default
      rw [getElem?_of_isPrefix (sent_isPrefix_run hto q) (hall q), Option.getD_some]
    subst hv
    refine others ⟨?_, hout, hhor⟩
    simpa only [Proc.leave, trace, List.append_assoc, List.singleton_append] using hpath
  | drift mem hdrift => exact h q

include hresp in
theorem onTrace_of_reachable (hs : Reachable mem₀ code s)
    (hto : Relation.ReflTransGen Step s t) (q : Fin n) :
    (s.proc q).OnTrace (contributions resp t) q (code q) := by
  induction hs generalizing q with
  | refl => exact ⟨rfl, rfl, rfl⟩
  | tail hs hstep ih => exact onTrace_step hresp (hto.head hstep) hstep (ih (hto.head hstep)) q

variable (resp) in
/-- One halted run predicts all runs of a machine whose operations are always answered and answered
predictably. -/
theorem predicts_of_halted (hresp : ∀ r e o mem x mem', m.perform r e o mem x mem' → x = resp r o)
    (hans : ∀ r e o mem, ∃ x mem', m.perform r e o mem x mem')
    (hstill : ∀ mem mem', ¬ m.drift mem mem') (ht : Reachable mem₀ code t) (hhalt : Halted t) :
    Predicts (contributions resp t) mem₀ code := by
  have htrace := onTrace_of_reachable hresp ht .refl
  have hpaced := (owns_of_reachable ht).1
  have hlast (r : Fin n) :
      lastEpoch (contributions resp t) r 0 (code r) = (t.proc r).sent.length := by
    obtain ⟨a, ha⟩ := hhalt r
    have hhor := (htrace r).horizon
    rw [ha, lastEpoch_pure] at hhor
    rw [← hhor]
    rcases hpaced.waits r with hout | ⟨c, next, hcode, -⟩
    · exact hout.symm
    · rw [ha] at hcode
      cases hcode
  have hepoch (r : Fin n) : (t.proc r).epoch = (t.proc r).sent.length := by
    obtain ⟨a, ha⟩ := hhalt r
    rw [← hlast r, ← (htrace r).horizon, ha, lastEpoch_pure]
  refine ⟨fun r e c h => ?_, fun s _ _ r o next x mem _ hp => hresp _ _ _ _ _ _ hp,
    fun s _ _ r o next _ => hans _ _ _ _, fun r q => ?_, hstill⟩
  · obtain ⟨a, ha⟩ := hhalt r
    rw [← (htrace r).path, ha, trace_pure, List.append_nil] at h
    change c = ((t.proc r).sent[e]?).getD default
    rw [sent_of_mem_done ht r h, Option.getD_some]
  · rw [hlast, hlast]
    refine Nat.le_antisymm ?_ ?_
    · rw [← hepoch r]
      exact hpaced.behind r q
    · rw [← hepoch q]
      exact hpaced.behind q r

end Halted

end RankProgram
