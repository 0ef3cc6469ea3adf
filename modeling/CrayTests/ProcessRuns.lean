import CrayTests.RankContract

/-!
# A rank on its own

A `Process` runs the program of one rank on the rank's own part of the memory and writes a log. The
other ranks are not there: a collective call is left with any contributions of theirs, or never.

`Always` is what holds of the log in every run, with its rules for programs; `CanEnd` says that some
run comes to the end. `run_of_reachable` says that a rank of a machine, seen through a `View`, is a
process of this kind.
-/

namespace RankProgram
open Relation

variable {I J : Interface} {n : ℕ} {α β γ σ ε : Type}

theorem Program.bind_assoc (p : Program I n α) (f : α → Program I n β) (g : β → Program I n γ) :
    (p.bind f).bind g = p.bind fun a => (f a).bind g := by
  induction p with
  | pure a => rfl
  | op o next ih => simp only [bind, ih]
  | sync c next ih => simp only [bind, ih]

theorem Program.loop_add (body : ℕ → α → Program I n α) (i k count : ℕ) (a : α) :
    loop body i (k + count) a = (loop body i k a).bind (loop body (i + k) count) := by
  induction k generalizing i a with
  | zero => rw [Nat.zero_add, loop, bind, Nat.add_zero]
  | succ k ih =>
    rw [Nat.succ_add, loop, loop, bind_assoc]
    refine congrArg (bind (body i a)) (funext fun b => ?_)
    rw [ih, Nat.add_assoc, Nat.add_comm 1 k]

/-- The effect of an operation on the rank's own memory, and what it adds to the log. -/
structure Process (I : Interface) (σ ε : Type) where
  perform : (o : I.Op) → σ → I.Resp o → σ → Prop
  emits : (o : I.Op) → I.Resp o → List ε

namespace Process

structure State (I : Interface) (n : ℕ) (α σ ε : Type) where
  code : Program I n α
  mem : σ
  log : List ε := []

variable (P : Process I σ ε) (r : Fin n)

/-- The rank finds its own contribution among those it leaves a call with. -/
inductive Step : State I n α σ ε → State I n α σ ε → Prop
  | op {mem mem' : σ} {log : List ε} (o : I.Op) (next : I.Resp o → Program I n α) (x : I.Resp o)
      (hperform : P.perform o mem x mem') :
      Step ⟨.op o next, mem, log⟩ ⟨next x, mem', log ++ P.emits o x⟩
  | sync {mem : σ} {log : List ε} (c : I.Coll) (next : (Fin n → I.Coll) → Program I n α)
      (v : Fin n → I.Coll) (hown : v r = c) : Step ⟨.sync c next, mem, log⟩ ⟨next v, mem, log⟩

abbrev Run : State I n α σ ε → State I n α σ ε → Prop := ReflTransGen (P.Step r)

variable {P r} {p : Program I n α} {f : α → Program I n β} {a : α} {mem mem' : σ} {log log' : List ε}

theorem Step.bind {s t : State I n α σ ε} (h : P.Step r s t) :
    P.Step r ⟨s.code.bind f, s.mem, s.log⟩ ⟨t.code.bind f, t.mem, t.log⟩ := by
  cases h with
  | op o next x hperform => exact .op o _ x hperform
  | sync c next v hown => exact .sync c _ v hown

theorem Run.bind {s t : State I n α σ ε} (h : P.Run r s t) :
    P.Run r ⟨s.code.bind f, s.mem, s.log⟩ ⟨t.code.bind f, t.mem, t.log⟩ := by
  induction h with
  | refl => exact .refl
  | tail _ hstep ih => exact ih.tail hstep.bind

/-- From here on `Φ` holds of the log in every run, and `Q` of the result, the memory and the log
where it ends. -/
def Always (P : Process I σ ε) (r : Fin n) (Φ : List ε → Prop) (Q : α → σ → List ε → Prop) :
    Program I n α → σ → List ε → Prop
  | .pure a, mem, log => Φ log ∧ Q a mem log
  | .op o next, mem, log => Φ log ∧ ∀ x mem', P.perform o mem x mem' →
      Always P r Φ Q (next x) mem' (log ++ P.emits o x)
  | .sync c next, mem, log => Φ log ∧ ∀ v, v r = c → Always P r Φ Q (next v) mem log

section Always

variable {Φ : List ε → Prop} {Q R : α → σ → List ε → Prop}

theorem Always.now (h : P.Always r Φ Q p mem log) : Φ log := by
  cases p with
  | pure a => exact h.1
  | op o next => exact h.1
  | sync c next => exact h.1

theorem Always.mono (hQ : ∀ a mem log, Q a mem log → R a mem log)
    (h : P.Always r Φ Q p mem log) : P.Always r Φ R p mem log := by
  induction p generalizing mem log with
  | pure a => exact ⟨h.1, hQ _ _ _ h.2⟩
  | op o next ih => exact ⟨h.1, fun x mem' hperform => ih x (h.2 x mem' hperform)⟩
  | sync c next ih => exact ⟨h.1, fun v hown => ih v (h.2 v hown)⟩

theorem Always.bind {S : β → σ → List ε → Prop} (h : P.Always r Φ Q p mem log)
    (hf : ∀ a mem log, Φ log → Q a mem log → P.Always r Φ S (f a) mem log) :
    P.Always r Φ S (p.bind f) mem log := by
  induction p generalizing mem log with
  | pure a => exact hf a _ _ h.1 h.2
  | op o next ih => exact ⟨h.1, fun x mem' hperform => ih x (h.2 x mem' hperform)⟩
  | sync c next ih => exact ⟨h.1, fun v hown => ih v (h.2 v hown)⟩

/-- A loop by an invariant on the rounds done, the loop state, the memory and the log. -/
theorem Always.loop {body : ℕ → α → Program I n α} (inv : ℕ → α → σ → List ε → Prop) {i count : ℕ}
    (hbody : ∀ k < count, ∀ a mem log, Φ log → inv k a mem log →
      P.Always r Φ (inv (k + 1)) (body (i + k) a) mem log)
    (hnow : Φ log) (h : inv 0 a mem log) :
    P.Always r Φ (inv count) (Program.loop body i count a) mem log := by
  induction count generalizing i inv a mem log with
  | zero => exact ⟨hnow, h⟩
  | succ count ih =>
    refine (hbody 0 (Nat.succ_pos _) a mem log hnow h).bind fun a' mem' log' hnow' h' => ?_
    refine ih (fun k => inv (k + 1)) (fun k hk a mem log hΦ hinv => ?_) hnow' h'
    have := hbody (k + 1) (by omega) a mem log hΦ hinv
    rwa [show i + (k + 1) = i + 1 + k by omega] at this

theorem Always.step {s t : State I n α σ ε} (h : P.Always r Φ Q s.code s.mem s.log)
    (hstep : P.Step r s t) : P.Always r Φ Q t.code t.mem t.log := by
  cases hstep with
  | op o next x hperform => exact h.2 x _ hperform
  | sync c next v hown => exact h.2 v hown

theorem Always.run {s t : State I n α σ ε} (h : P.Always r Φ Q s.code s.mem s.log)
    (hrun : P.Run r s t) : P.Always r Φ Q t.code t.mem t.log := by
  induction hrun with
  | refl => exact h
  | tail _ hstep ih => exact ih.step hstep

end Always

/-- From every memory some run comes to the end of the program. -/
def CanEnd (P : Process I σ ε) (r : Fin n) (p : Program I n α) : Prop :=
  ∀ mem log, ∃ a mem' log', P.Run r ⟨p, mem, log⟩ ⟨.pure a, mem', log'⟩

theorem CanEnd.pure (a : α) : P.CanEnd r (.pure a : Program I n α) :=
  fun mem log => ⟨a, mem, log, .refl⟩

theorem CanEnd.op {o : I.Op} {next : I.Resp o → Program I n α}
    (hperform : ∀ mem, ∃ x mem', P.perform o mem x mem') (h : ∀ x, P.CanEnd r (next x)) :
    P.CanEnd r (.op o next) := by
  intro mem log
  obtain ⟨x, mem', hx⟩ := hperform mem
  obtain ⟨a, mem'', log', hrun⟩ := h x mem' (log ++ P.emits o x)
  exact ⟨a, mem'', log', .head (.op o next x hx) hrun⟩

theorem CanEnd.sync {c : I.Coll} {next : (Fin n → I.Coll) → Program I n α} (v : Fin n → I.Coll)
    (hown : v r = c) (h : P.CanEnd r (next v)) : P.CanEnd r (.sync c next) := by
  intro mem log
  obtain ⟨a, mem', log', hrun⟩ := h mem log
  exact ⟨a, mem', log', .head (.sync c next v hown) hrun⟩

theorem CanEnd.bind (h : P.CanEnd r p) (hf : ∀ a, P.CanEnd r (f a)) : P.CanEnd r (p.bind f) := by
  intro mem log
  obtain ⟨a, mem', log', hrun⟩ := h mem log
  obtain ⟨b, mem'', log'', hrest⟩ := hf a mem' log'
  exact ⟨b, mem'', log'', hrun.bind.trans hrest⟩

theorem CanEnd.loop {body : ℕ → α → Program I n α} (hbody : ∀ i a, P.CanEnd r (body i a))
    (i count : ℕ) (a : α) : P.CanEnd r (Program.loop body i count a) := by
  induction count generalizing i a with
  | zero => exact .pure a
  | succ count ih => exact (hbody i a).bind fun a' => ih (i + 1) a'

/-- A program that can end does so in what always holds at the end. -/
theorem CanEnd.exists_always {Φ : List ε → Prop} {Q : α → σ → List ε → Prop} (h : P.CanEnd r p)
    (halways : P.Always r Φ Q p mem log) :
    ∃ a mem' log', P.Run r ⟨p, mem, log⟩ ⟨.pure a, mem', log'⟩ ∧ Q a mem' log' := by
  obtain ⟨a, mem', log', hrun⟩ := h mem log
  exact ⟨a, mem', log', hrun, (halways.run hrun).2⟩

structure Extends (E : Embedding I J) (P' : Process J σ ε) (P : Process I σ ε) : Prop where
  back_coll : ∀ c, E.back (E.coll c) = c
  perform_iff : ∀ o mem x mem',
    P.perform o mem x mem' ↔ ∃ y, E.resp o y = x ∧ P'.perform (E.op o) mem y mem'
  emits_eq : ∀ o y, P'.emits (E.op o) y = P.emits o (E.resp o y)

section Extends

variable {E : Embedding I J} {P' : Process J σ ε} (hE : Extends E P' P)

include hE

theorem Always.embed {Φ : List ε → Prop} {Q : α → σ → List ε → Prop}
    (h : P.Always r Φ Q p mem log) : P'.Always r Φ Q (p.embed E) mem log := by
  induction p generalizing mem log with
  | pure a => exact h
  | op o next ih =>
    refine ⟨h.1, fun y mem' hperform => ?_⟩
    rw [hE.emits_eq]
    exact ih _ (h.2 _ mem' ((hE.perform_iff o mem _ mem').mpr ⟨y, rfl, hperform⟩))
  | sync c next ih =>
    refine ⟨h.1, fun v hown => ih _ (h.2 _ ?_)⟩
    rw [hown, hE.back_coll]

theorem Step.embed {s t : State I n α σ ε} (h : P.Step r s t) :
    P'.Step r ⟨s.code.embed E, s.mem, s.log⟩ ⟨t.code.embed E, t.mem, t.log⟩ := by
  cases h with
  | op o next x hperform =>
    obtain ⟨y, rfl, hy⟩ := (hE.perform_iff o _ x _).mp hperform
    rw [← hE.emits_eq]
    exact .op (E.op o) _ y hy
  | @sync mem log c next v hown =>
    have hnext : next v = next fun q => E.back (E.coll (v q)) := by simp only [hE.back_coll]
    rw [hnext]
    exact .sync (E.coll c) (fun v => (next fun q => E.back (v q)).embed E) (fun q => E.coll (v q))
      (by rw [hown])

theorem Run.embed {s t : State I n α σ ε} (h : P.Run r s t) :
    P'.Run r ⟨s.code.embed E, s.mem, s.log⟩ ⟨t.code.embed E, t.mem, t.log⟩ := by
  induction h with
  | refl => exact .refl
  | tail _ hstep ih => exact ih.tail (hstep.embed hE)

end Extends

end Process

section Machine

variable {m : Machine I n} {r : Fin n} {code : Fin n → Program I n α} {s s' : RankProgram.State m α}

/-- Inside a call the last contribution of a rank is the one of its code. -/
def Owns (p : Proc I n α) : Prop := ∀ c next, p.code = .sync c next →
  p.sent.length = p.epoch + 1 → p.sent[p.epoch]? = some c

theorem owns_step (hpaced : Paced s) (h : ∀ q, Owns (s.proc q)) (hstep : RankProgram.Step s s')
    (q : Fin n) : Owns (s'.proc q) := by
  cases hstep with
  | op r o next x mem hcode hperform =>
    refine RankProgram.State.forall_set (P := fun _ p => Owns p) (fun c next' _ hlen => ?_)
      (fun q _ => h q) q
    have := hpaced.epoch_eq hcode
    change (s.proc r).sent.length = (s.proc r).epoch + 1 at hlen
    omega
  | enter r c next hcode hout =>
    refine RankProgram.State.forall_set (P := fun _ p => Owns p) (fun c' next' hcode' _ => ?_)
      (fun q _ => h q) q
    change (s.proc r).code = _ at hcode'
    rw [hcode] at hcode'
    obtain ⟨rfl, -⟩ := Program.sync.inj hcode'
    change ((s.proc r).sent ++ [c])[(s.proc r).epoch]? = some c
    rw [← hout, List.getElem?_concat_length]
  | leave r c next v hcode hin hall =>
    refine RankProgram.State.forall_set (P := fun _ p => Owns p) (fun c' next' _ hlen => ?_)
      (fun q _ => h q) q
    change (s.proc r).sent.length = (s.proc r).epoch + 1 + 1 at hlen
    omega
  | drift mem hdrift => exact h q

theorem owns_of_reachable {mem : m.Mem} (hs : RankProgram.Reachable mem code s) :
    Paced s ∧ ∀ q, Owns (s.proc q) := by
  induction hs with
  | refl => exact ⟨⟨fun _ => .inl rfl, fun _ _ => Nat.zero_le _⟩, fun _ _ _ _ h => by cases h⟩
  | tail _ hstep ih => exact ⟨ih.1.step hstep, owns_step ih.1 ih.2 hstep⟩

namespace Process

variable (P : Process I σ ε) (view : View m σ)

def logOf (done : List (ℕ × Event I)) : List ε :=
  done.flatMap fun
    | (_, .op o x) => P.emits o x
    | (_, .sync _) => []

theorem logOf_answer (p : Proc I n α) (o : I.Op) (x : I.Resp o) (next : Program I n α) :
    P.logOf (p.answer o x next).done = P.logOf p.done ++ P.emits o x := by
  simp only [logOf, Proc.answer, List.flatMap_append, List.flatMap_singleton]

theorem logOf_leave (p : Proc I n α) (c : I.Coll) (next : Program I n α) :
    P.logOf (p.leave c next).done = P.logOf p.done := by
  simp only [logOf, Proc.leave, List.flatMap_append, List.flatMap_singleton, List.append_nil]

def seen (r : Fin n) (s : RankProgram.State m α) : State I n α σ ε :=
  ⟨(s.proc r).code, view.part s.mem r, P.logOf (s.proc r).done⟩

variable {P view} (hperform : ∀ e o mem x mem', m.perform r e o mem x mem' →
  P.perform o (view.part mem r) x (view.part mem' r))

include hperform

theorem run_step (howns : Owns (s.proc r)) (hstep : RankProgram.Step s s') :
    P.Run r (P.seen view r s) (P.seen view r s') := by
  cases hstep with
  | op q o next x mem hcode hp =>
    by_cases hq : r = q
    · subst hq
      rw [seen, hcode, seen, State.set_proc_self, State.set_mem, logOf_answer]
      exact .single (.op o next x (hperform _ o _ x _ hp))
    · rw [seen, seen, State.set_proc_ne q s _ _ hq, State.set_mem, view.frame hp hq]
  | enter q c next hcode hout =>
    by_cases hq : r = q
    · subst hq
      rw [seen, seen, State.set_proc_self]
      exact .refl
    · rw [seen, seen, State.set_proc_ne q s _ _ hq, State.set_mem]
  | leave q c next v hcode hin hall =>
    by_cases hq : r = q
    · subst hq
      have hown : v r = c :=
        Option.some.inj ((hall r).symm.trans (howns c next hcode hin))
      rw [seen, hcode, seen, State.set_proc_self, State.set_mem, logOf_leave]
      exact .single (.sync c next v hown)
    · rw [seen, seen, State.set_proc_ne q s _ _ hq, State.set_mem]
  | drift mem hdrift =>
    rw [seen, seen, view.still hdrift]

variable (view)

/-- What a rank of a reachable state has done is a run of the process. -/
theorem run_of_reachable {mem : m.Mem} (hs : RankProgram.Reachable mem code s) :
    P.Run r ⟨code r, view.part mem r, []⟩ (P.seen view r s) := by
  induction hs with
  | refl => exact .refl
  | tail hs hstep ih => exact ih.trans (run_step hperform ((owns_of_reachable hs).2 r) hstep)

end Process

end Machine

end RankProgram
