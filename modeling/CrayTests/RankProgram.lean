import Mathlib.Tactic
import Mathlib.Logic.Relation
import Mathlib.Algebra.BigOperators.Fin

/-!
# Programs of communicating ranks

A rank runs a `Program`: operations on a shared memory, each answered with a response, and
collective calls. In a collective call every rank brings one contribution and, once all ranks have
entered the call, leaves it with the vector of all contributions. A barrier is a collective call
whose contributions are not looked at.

`Step` interleaves the ranks' operations, entries and exits arbitrarily. All ranks are `Paced`, so
that in a `Final` state somebody is behind every rank that waits in a call.

An `Oracle` predicts every response and every gathered vector; along it each program has one `trace`
and one `result`. The rule of this module, `follows_of_reachable`, says that when every response
given along the way is the predicted one, all ranks follow their traces, and a rank that has left its
`e`-th collective call knows that every operation of the other ranks before their `e`-th call is
done.
-/

namespace RankProgram

/-- What a rank can do: operations with their responses, and contributions to collective calls. -/
structure Interface where
  Op : Type
  Resp : Op → Type
  Coll : Type

variable {I : Interface} {n : ℕ} {α β : Type}

inductive Program (I : Interface) (n : ℕ) (α : Type) : Type
  | pure (a : α)
  | op (o : I.Op) (next : I.Resp o → Program I n α)
  | sync (c : I.Coll) (next : (Fin n → I.Coll) → Program I n α)

namespace Program

def bind : Program I n α → (α → Program I n β) → Program I n β
  | .pure a, f => f a
  | .op o next, f => .op o (fun x => bind (next x) f)
  | .sync c next, f => .sync c (fun v => bind (next v) f)

instance : Monad (Program I n) where
  pure := .pure
  bind := bind

@[simp] theorem pure_eq (a : α) : (Pure.pure a : Program I n α) = .pure a := rfl

@[simp] theorem bind_eq (p : Program I n α) (f : α → Program I n β) :
    p >>= f = Program.bind p f := rfl

/-- `for (i = start; i < start + count; i++) body(i)`, carrying a loop state. -/
def loop (body : ℕ → α → Program I n α) : ℕ → ℕ → α → Program I n α
  | _, 0, a => .pure a
  | i, count + 1, a => bind (body i a) (loop body (i + 1) count)

end Program

inductive Event (I : Interface)
  | op (o : I.Op) (x : I.Resp o)
  | sync (c : I.Coll)

structure Oracle (I : Interface) (n : ℕ) where
  resp : Fin n → (o : I.Op) → I.Resp o
  gathered : ℕ → Fin n → I.Coll

variable (Ω : Oracle I n) (r : Fin n)

/-- The events of a program along the oracle, each with the number of collective calls before it. -/
def trace : ℕ → Program I n α → List (ℕ × Event I)
  | _, .pure _ => []
  | e, .op o next => (e, .op o (Ω.resp r o)) :: trace e (next (Ω.resp r o))
  | e, .sync c next => (e, .sync c) :: trace (e + 1) (next (Ω.gathered e))

def result : ℕ → Program I n α → α
  | _, .pure a => a
  | e, .op o next => result e (next (Ω.resp r o))
  | e, .sync _ next => result (e + 1) (next (Ω.gathered e))

/-- The number of collective calls made when a program entered at epoch `e` ends. -/
def lastEpoch : ℕ → Program I n α → ℕ
  | e, .pure _ => e
  | e, .op o next => lastEpoch e (next (Ω.resp r o))
  | e, .sync _ next => lastEpoch (e + 1) (next (Ω.gathered e))

@[simp] theorem result_bind (e : ℕ) (p : Program I n α) (f : α → Program I n β) :
    result Ω r e (p.bind f) = result Ω r (lastEpoch Ω r e p) (f (result Ω r e p)) := by
  induction p generalizing e with
  | pure a => rfl
  | op o next ih => exact ih _ _
  | sync c next ih => exact ih _ _

@[simp] theorem lastEpoch_bind (e : ℕ) (p : Program I n α) (f : α → Program I n β) :
    lastEpoch Ω r e (p.bind f) = lastEpoch Ω r (lastEpoch Ω r e p) (f (result Ω r e p)) := by
  induction p generalizing e with
  | pure a => rfl
  | op o next ih => exact ih _ _
  | sync c next ih => exact ih _ _

@[simp] theorem trace_bind (e : ℕ) (p : Program I n α) (f : α → Program I n β) :
    trace Ω r e (p.bind f) =
      trace Ω r e p ++ trace Ω r (lastEpoch Ω r e p) (f (result Ω r e p)) := by
  induction p generalizing e with
  | pure a => rfl
  | op o next ih => simp only [Program.bind, trace, lastEpoch, result, ih, List.cons_append]
  | sync c next ih => simp only [Program.bind, trace, lastEpoch, result, ih, List.cons_append]

@[simp] theorem trace_pure (e : ℕ) (a : α) : trace Ω r e (.pure a : Program I n α) = [] := rfl

@[simp] theorem result_pure (e : ℕ) (a : α) : result Ω r e (.pure a : Program I n α) = a := rfl

@[simp] theorem lastEpoch_pure (e : ℕ) (a : α) :
    lastEpoch Ω r e (.pure a : Program I n α) = e := rfl

theorem le_of_mem_trace {e e' : ℕ} {ev : Event I} {p : Program I n α}
    (h : (e', ev) ∈ trace Ω r e p) : e ≤ e' := by
  induction p generalizing e with
  | pure a => cases h
  | op o next ih =>
    rcases List.mem_cons.mp h with heq | hmem
    · exact (congrArg Prod.fst heq).ge
    · exact ih _ hmem
  | sync c next ih =>
    rcases List.mem_cons.mp h with heq | hmem
    · exact (congrArg Prod.fst heq).ge
    · exact (Nat.le_succ e).trans (ih _ hmem)

theorem le_lastEpoch (e : ℕ) (p : Program I n α) : e ≤ lastEpoch Ω r e p := by
  induction p generalizing e with
  | pure a => exact le_rfl
  | op o next ih => exact ih _ _
  | sync c next ih => exact (Nat.le_succ e).trans (ih _ _)

def Event.isSync : Event I → Bool
  | .op _ _ => false
  | .sync _ => true

theorem lastEpoch_eq (e : ℕ) (p : Program I n α) :
    lastEpoch Ω r e p = e + (trace Ω r e p).countP fun x => x.2.isSync := by
  induction p generalizing e with
  | pure a => rfl
  | op o next ih =>
    rw [lastEpoch, ih, trace, List.countP_cons]
    rfl
  | sync c next ih =>
    rw [lastEpoch, ih, trace, List.countP_cons]
    simp only [Event.isSync, if_true]
    omega

/-- Entered in epoch `e`, the program performs `evs`, returns `a` and ends in epoch `e'`. -/
structure Runs (e : ℕ) (p : Program I n α) (evs : List (ℕ × Event I)) (a : α) (e' : ℕ) :
    Prop where
  trace_eq : trace Ω r e p = evs
  result_eq : result Ω r e p = a
  lastEpoch_eq : lastEpoch Ω r e p = e'

namespace Runs

variable {Ω r} {e e' e'' : ℕ} {evs evs' : List (ℕ × Event I)}

theorem congr {p : Program I n α} {a : α} (hevs : evs = evs') (hp : Runs Ω r e p evs a e') :
    Runs Ω r e p evs' a e' := hevs ▸ hp

theorem pure (a : α) : Runs Ω r e (.pure a : Program I n α) [] a e := ⟨rfl, rfl, rfl⟩

theorem bind {p : Program I n α} {f : α → Program I n β} {a : α} {b : β}
    (hp : Runs Ω r e p evs a e') (hf : Runs Ω r e' (f a) evs' b e'') :
    Runs Ω r e (p.bind f) (evs ++ evs') b e'' where
  trace_eq := by rw [trace_bind, hp.trace_eq, hp.lastEpoch_eq, hp.result_eq, hf.trace_eq]
  result_eq := by rw [result_bind, hp.lastEpoch_eq, hp.result_eq, hf.result_eq]
  lastEpoch_eq := by rw [lastEpoch_bind, hp.lastEpoch_eq, hp.result_eq, hf.lastEpoch_eq]

theorem op (o : I.Op) {next : I.Resp o → Program I n α} {a : α}
    (h : Runs Ω r e (next (Ω.resp r o)) evs a e') :
    Runs Ω r e (.op o next) ((e, .op o (Ω.resp r o)) :: evs) a e' where
  trace_eq := by rw [trace, h.trace_eq]
  result_eq := h.result_eq
  lastEpoch_eq := h.lastEpoch_eq

theorem sync (c : I.Coll) {next : (Fin n → I.Coll) → Program I n α} {a : α}
    (h : Runs Ω r (e + 1) (next (Ω.gathered e)) evs a e') :
    Runs Ω r e (.sync c next) ((e, .sync c) :: evs) a e' where
  trace_eq := by rw [trace, h.trace_eq]
  result_eq := h.result_eq
  lastEpoch_eq := h.lastEpoch_eq

/-- Where all calls gather the same, a program can be entered `k` calls later. -/
theorem delay {p : Program I n α} {a : α} (hsame : ∀ d d', Ω.gathered d = Ω.gathered d') (k : ℕ)
    (hp : Runs Ω r e p evs a e') :
    Runs Ω r (e + k) p (evs.map fun ev => (ev.1 + k, ev.2)) a (e' + k) := by
  obtain ⟨rfl, rfl, rfl⟩ := hp
  induction p generalizing e with
  | pure a => exact .pure a
  | op o next ih => exact .op o (ih _)
  | sync c next ih =>
    refine .sync c ?_
    rw [hsame (e + k) e, Nat.add_right_comm]
    exact ih _

/-- A loop by an invariant `st` on the loop state; `ep k` is the epoch before round `k`. -/
theorem loopEpochs (body : ℕ → α → Program I n α) {i : ℕ} (count : ℕ) (st : ℕ → α) (ep : ℕ → ℕ)
    (evs : ℕ → List (ℕ × Event I))
    (hbody : ∀ k < count, Runs Ω r (ep k) (body (i + k) (st k)) (evs k) (st (k + 1)) (ep (k + 1))) :
    Runs Ω r (ep 0) (Program.loop body i count (st 0)) ((List.range count).flatMap evs) (st count)
      (ep count) := by
  induction count generalizing i st ep evs with
  | zero => exact .pure _
  | succ count ih =>
    have hrest := ih (i := i + 1) (fun k => st (k + 1)) (fun k => ep (k + 1))
      (fun k => evs (k + 1)) (fun k hk => by
        have := hbody (k + 1) (by omega)
        rwa [← Nat.add_assoc, Nat.add_right_comm] at this)
    have := (hbody 0 (Nat.succ_pos _)).bind hrest
    rwa [List.range_succ_eq_map, List.flatMap_cons, List.flatMap_map]

/-- A loop whose body makes no collective call. -/
theorem loop (body : ℕ → α → Program I n α) {i : ℕ} (count : ℕ) (st : ℕ → α)
    (evs : ℕ → List (ℕ × Event I))
    (hbody : ∀ k < count, Runs Ω r e (body (i + k) (st k)) (evs k) (st (k + 1)) e) :
    Runs Ω r e (Program.loop body i count (st 0)) ((List.range count).flatMap evs) (st count) e :=
  loopEpochs body count st (fun _ => e) evs hbody

end Runs

/-- A shared memory with the effect of each operation (by a rank, in an epoch), and the moves the
memory makes on its own. -/
structure Machine (I : Interface) (n : ℕ) where
  Mem : Type
  perform : Fin n → ℕ → (o : I.Op) → Mem → I.Resp o → Mem → Prop
  drift : Mem → Mem → Prop

/-- One rank: the code left to run, the contributions it has brought to collective calls, the
number of calls it has left, and its history. -/
structure Proc (I : Interface) (n : ℕ) (α : Type) where
  code : Program I n α
  sent : List I.Coll := []
  epoch : ℕ := 0
  done : List (ℕ × Event I) := []

namespace Proc

variable (p : Proc I n α)

def answer (o : I.Op) (x : I.Resp o) (next : Program I n α) : Proc I n α :=
  { p with code := next, done := p.done ++ [(p.epoch, .op o x)] }

def enter (c : I.Coll) : Proc I n α := { p with sent := p.sent ++ [c] }

def leave (c : I.Coll) (next : Program I n α) : Proc I n α :=
  { p with code := next, epoch := p.epoch + 1, done := p.done ++ [(p.epoch, .sync c)] }

end Proc

structure State (m : Machine I n) (α : Type) where
  mem : m.Mem
  proc : Fin n → Proc I n α

variable {m : Machine I n}

def State.set (s : State m α) (r : Fin n) (mem : m.Mem) (p : Proc I n α) : State m α :=
  ⟨mem, Function.update s.proc r p⟩

@[simp] theorem State.set_mem (s : State m α) (mem : m.Mem) (p : Proc I n α) :
    (s.set r mem p).mem = mem := rfl

@[simp] theorem State.set_proc_self (s : State m α) (mem : m.Mem) (p : Proc I n α) :
    (s.set r mem p).proc r = p := by simp [State.set]

@[simp] theorem State.set_proc_ne (s : State m α) (mem : m.Mem) (p : Proc I n α) {q : Fin n}
    (h : q ≠ r) : (s.set r mem p).proc q = s.proc q := by simp [State.set, h]

theorem State.done_set_enter (s : State m α) (c : I.Coll) (q : Fin n) :
    ((s.set r s.mem ((s.proc r).enter c)).proc q).done = (s.proc q).done := by
  by_cases h : q = r
  · subst h
    rw [State.set_proc_self]
    rfl
  · rw [State.set_proc_ne r s _ _ h]

inductive Step : State m α → State m α → Prop
  | op {s : State m α} (r : Fin n) (o : I.Op) (next : I.Resp o → Program I n α) (x : I.Resp o)
      (mem : m.Mem) (hcode : (s.proc r).code = .op o next)
      (hperform : m.perform r (s.proc r).epoch o s.mem x mem) :
      Step s (s.set r mem ((s.proc r).answer o x (next x)))
  | enter {s : State m α} (r : Fin n) (c : I.Coll) (next : (Fin n → I.Coll) → Program I n α)
      (hcode : (s.proc r).code = .sync c next) (hout : (s.proc r).sent.length = (s.proc r).epoch) :
      Step s (s.set r s.mem ((s.proc r).enter c))
  | leave {s : State m α} (r : Fin n) (c : I.Coll) (next : (Fin n → I.Coll) → Program I n α)
      (v : Fin n → I.Coll) (hcode : (s.proc r).code = .sync c next)
      (hin : (s.proc r).sent.length = (s.proc r).epoch + 1)
      (hall : ∀ q, (s.proc q).sent[(s.proc r).epoch]? = some (v q)) :
      Step s (s.set r s.mem ((s.proc r).leave c (next v)))
  | drift {s : State m α} (mem : m.Mem) (hdrift : m.drift s.mem mem) : Step s ⟨mem, s.proc⟩

def start (mem : m.Mem) (code : Fin n → Program I n α) : State m α :=
  ⟨mem, fun r => { code := code r }⟩

def Reachable (mem : m.Mem) (code : Fin n → Program I n α) (s : State m α) : Prop :=
  Relation.ReflTransGen Step (start mem code) s

def Halted (s : State m α) : Prop := ∀ r, ∃ a, (s.proc r).code = .pure a

section Pace

variable {r}

theorem State.forall_set {s : State m α} {mem : m.Mem} {p : Proc I n α}
    {P : Fin n → Proc I n α → Prop} (hr : P r p) (hq : ∀ q, q ≠ r → P q (s.proc q)) (q : Fin n) :
    P q ((s.set r mem p).proc q) := by
  by_cases h : q = r
  · subst h
    rwa [State.set_proc_self]
  · rw [State.set_proc_ne r s mem p h]
    exact hq q h

/-- No rank has left a call that another one has not entered. -/
structure Paced (s : State m α) : Prop where
  waits : ∀ r, (s.proc r).sent.length = (s.proc r).epoch ∨
    ∃ c next, (s.proc r).code = .sync c next ∧ (s.proc r).sent.length = (s.proc r).epoch + 1
  behind : ∀ r q, (s.proc r).epoch ≤ (s.proc q).sent.length

theorem length_of_getElem? {l : List I.Coll} {i : ℕ} {c : I.Coll} (h : l[i]? = some c) :
    i < l.length := (List.getElem?_eq_some_iff.mp h).1

/-- The last contribution is the one just brought. -/
theorem Proc.getElem?_enter {p : Proc I n α} {c c' : I.Coll} {e : ℕ}
    (h : (p.enter c).sent[e]? = some c') :
    p.sent[e]? = some c' ∨ (e = p.sent.length ∧ c' = c) := by
  change (p.sent ++ [c])[e]? = some c' at h
  by_cases he : e < p.sent.length
  · rw [List.getElem?_append_left he] at h
    exact .inl h
  · have hlt := length_of_getElem? h
    rw [List.length_append, List.length_singleton] at hlt
    obtain rfl : e = p.sent.length := by omega
    rw [List.getElem?_concat_length] at h
    exact .inr ⟨rfl, (Option.some.inj h).symm⟩

namespace Paced

variable {s s' : State m α}

theorem epoch_eq (h : Paced s) {o : I.Op} {next : I.Resp o → Program I n α}
    (hcode : (s.proc r).code = .op o next) : (s.proc r).sent.length = (s.proc r).epoch := by
  rcases h.waits r with heq | ⟨c, next', hc, -⟩
  · exact heq
  · rw [hcode] at hc
    cases hc

theorem le_epoch_succ (h : Paced s) (r : Fin n) :
    (s.proc r).sent.length ≤ (s.proc r).epoch + 1 := by
  rcases h.waits r with heq | ⟨-, -, -, heq⟩ <;> omega

theorem set (h : Paced s) (mem : m.Mem) (p : Proc I n α)
    (hwaits : p.sent.length = p.epoch ∨
      ∃ c next, p.code = .sync c next ∧ p.sent.length = p.epoch + 1)
    (hself : p.epoch ≤ p.sent.length) (hahead : ∀ q, p.epoch ≤ (s.proc q).sent.length)
    (hgrow : (s.proc r).sent.length ≤ p.sent.length) : Paced (s.set r mem p) where
  waits := State.forall_set
    (P := fun _ p => p.sent.length = p.epoch ∨
      ∃ c next, p.code = .sync c next ∧ p.sent.length = p.epoch + 1)
    hwaits (fun q _ => h.waits q)
  behind := by
    refine State.forall_set
      (P := fun _ p' => ∀ q, p'.epoch ≤ ((s.set r mem p).proc q).sent.length) ?_ ?_
    · exact State.forall_set (P := fun _ p' => p.epoch ≤ p'.sent.length) hself
        (fun q _ => hahead q)
    · intro q _
      exact State.forall_set (P := fun _ p' => (s.proc q).epoch ≤ p'.sent.length)
        ((h.behind q r).trans hgrow) (fun q' _ => h.behind q q')

theorem answer (h : Paced s) {o : I.Op} {next : I.Resp o → Program I n α} (mem : m.Mem)
    (hcode : (s.proc r).code = .op o next) (x : I.Resp o) :
    Paced (s.set r mem ((s.proc r).answer o x (next x))) :=
  h.set mem _ (Or.inl (h.epoch_eq hcode)) (h.epoch_eq hcode).ge (h.behind r) le_rfl

theorem enter (h : Paced s) {c : I.Coll} {next : (Fin n → I.Coll) → Program I n α}
    (hcode : (s.proc r).code = .sync c next) (hout : (s.proc r).sent.length = (s.proc r).epoch) :
    Paced (s.set r s.mem ((s.proc r).enter c)) := by
  have hlen : ((s.proc r).enter c).sent.length = (s.proc r).epoch + 1 := by
    simp [Proc.enter, hout]
  exact h.set s.mem _ (Or.inr ⟨c, next, hcode, hlen⟩) ((Nat.le_succ _).trans hlen.ge) (h.behind r)
    (by rw [hlen, hout]; exact Nat.le_succ _)

theorem leave (h : Paced s) {c : I.Coll} {next : (Fin n → I.Coll) → Program I n α}
    {v : Fin n → I.Coll} (hin : (s.proc r).sent.length = (s.proc r).epoch + 1)
    (hall : ∀ q, (s.proc q).sent[(s.proc r).epoch]? = some (v q)) :
    Paced (s.set r s.mem ((s.proc r).leave c (next v))) :=
  h.set s.mem _ (Or.inl hin) hin.ge (fun q => length_of_getElem? (hall q)) le_rfl

theorem step (h : Paced s) (hstep : Step s s') : Paced s' := by
  cases hstep with
  | op r o next x mem hcode _ => exact h.answer mem hcode x
  | enter r c next hcode hout => exact h.enter hcode hout
  | leave r c next v hcode hin hall => exact h.leave hin hall
  | drift mem _ => exact ⟨h.waits, h.behind⟩

end Paced

def Final (s : State m α) : Prop := ∀ t, ¬ Step s t

namespace Final

variable {s : State m α}

/-- A rank waits in a call only for a rank that has not entered it. -/
theorem exists_behind (hfinal : Final s) (h : Paced s) {c : I.Coll}
    {next : (Fin n → I.Coll) → Program I n α} (hcode : (s.proc r).code = .sync c next) :
    (s.proc r).sent.length = (s.proc r).epoch + 1 ∧
      ∃ q, (s.proc q).sent.length ≤ (s.proc r).epoch := by
  have hin : (s.proc r).sent.length = (s.proc r).epoch + 1 := by
    rcases h.waits r with hout | ⟨-, -, -, hin⟩
    · exact absurd (.enter r c next hcode hout) (hfinal _)
    · exact hin
  refine ⟨hin, ?_⟩
  by_contra hall
  have hlt : ∀ q, (s.proc r).epoch < (s.proc q).sent.length := by simpa using hall
  exact hfinal _ (.leave r c next (fun q => (s.proc q).sent.get ⟨(s.proc r).epoch, hlt q⟩) hcode
    hin fun q => List.getElem?_eq_getElem (hlt q))

/-- When no rank stops before its `N`-th call, all of them get there. -/
theorem le_sent (hfinal : Final s) (h : Paced s) {N : ℕ}
    (hgo : ∀ r, (s.proc r).epoch < N → ∃ c next, (s.proc r).code = .sync c next) (r : Fin n) :
    N ≤ (s.proc r).sent.length := by
  obtain ⟨q, -, hmin⟩ := Finset.exists_min_image Finset.univ
    (fun q => (s.proc q).sent.length) ⟨r, Finset.mem_univ r⟩
  refine le_trans ?_ (hmin r (Finset.mem_univ r))
  by_contra hlt
  obtain ⟨c, next, hcode⟩ := hgo q ((h.behind q q).trans_lt (not_le.mp hlt))
  obtain ⟨hin, p, hp⟩ := hfinal.exists_behind h hcode
  have := hmin p (Finset.mem_univ p)
  omega

theorem not_op (hfinal : Final s) {o : I.Op} {next : I.Resp o → Program I n α}
    (hcode : (s.proc r).code = .op o next) (x : I.Resp o) (mem : m.Mem) :
    ¬ m.perform r (s.proc r).epoch o s.mem x mem :=
  fun hperform => hfinal _ (.op r o next x mem hcode hperform)

end Final
end Pace

def Coherent (code : Fin n → Program I n α) : Prop :=
  ∀ r e c, (e, Event.sync c) ∈ trace Ω r 0 (code r) → c = Ω.gathered e r

structure Follows (code : Fin n → Program I n α) (s : State m α) : Prop where
  path : ∀ r, (s.proc r).done ++ trace Ω r (s.proc r).epoch (s.proc r).code =
    trace Ω r 0 (code r)
  outcome : ∀ r, result Ω r (s.proc r).epoch (s.proc r).code = result Ω r 0 (code r)
  horizon : ∀ r, lastEpoch Ω r (s.proc r).epoch (s.proc r).code = lastEpoch Ω r 0 (code r)
  waits : ∀ r, (s.proc r).sent.length = (s.proc r).epoch ∨
    ∃ c next, (s.proc r).code = .sync c next ∧ (s.proc r).sent.length = (s.proc r).epoch + 1
  sent : ∀ r e c, (s.proc r).sent[e]? = some c → c = Ω.gathered e r
  behind : ∀ r q, (s.proc r).epoch ≤ (s.proc q).sent.length
  past : ∀ r e ev, (e, ev) ∈ (s.proc r).done → e ≤ (s.proc r).epoch

variable {Ω} {code : Fin n → Program I n α} {mem₀ : m.Mem} {s s' : State m α}

theorem follows_start : Follows Ω code (start mem₀ code) where
  path _ := rfl
  outcome _ := rfl
  horizon _ := rfl
  waits _ := Or.inl rfl
  sent r e c h := by simp [start] at h
  behind _ _ := Nat.zero_le _
  past r e ev h := by simp [start] at h

theorem Follows.paced (hf : Follows Ω code s) : Paced s := ⟨hf.waits, hf.behind⟩

/-- Changing one rank's record keeps the invariant when the clauses about that rank hold. -/
theorem Follows.set (hf : Follows Ω code s) (mem : m.Mem) (p : Proc I n α)
    (hpath : p.done ++ trace Ω r p.epoch p.code = trace Ω r 0 (code r))
    (houtcome : result Ω r p.epoch p.code = result Ω r 0 (code r))
    (hhorizon : lastEpoch Ω r p.epoch p.code = lastEpoch Ω r 0 (code r))
    (hpaced : Paced (s.set r mem p))
    (hsent : ∀ e c, p.sent[e]? = some c → c = Ω.gathered e r)
    (hpast : ∀ e ev, (e, ev) ∈ p.done → e ≤ p.epoch) : Follows Ω code (s.set r mem p) where
  path := State.forall_set
    (P := fun q p => p.done ++ trace Ω q p.epoch p.code = trace Ω q 0 (code q)) hpath
    (fun q _ => hf.path q)
  outcome := State.forall_set
    (P := fun q p => result Ω q p.epoch p.code = result Ω q 0 (code q)) houtcome
    (fun q _ => hf.outcome q)
  horizon := State.forall_set
    (P := fun q p => lastEpoch Ω q p.epoch p.code = lastEpoch Ω q 0 (code q)) hhorizon
    (fun q _ => hf.horizon q)
  waits := hpaced.waits
  sent := State.forall_set (P := fun q p => ∀ e c, p.sent[e]? = some c → c = Ω.gathered e q) hsent
    (fun q _ => hf.sent q)
  behind := hpaced.behind
  past := State.forall_set (P := fun _ p => ∀ e ev, (e, ev) ∈ p.done → e ≤ p.epoch) hpast
    (fun q _ => hf.past q)

theorem Follows.answer (hf : Follows Ω code s) {r : Fin n} {o : I.Op}
    {next : I.Resp o → Program I n α} (mem : m.Mem) (hcode : (s.proc r).code = .op o next) :
    Follows Ω code (s.set r mem ((s.proc r).answer o (Ω.resp r o) (next (Ω.resp r o)))) := by
  have hpath := hf.path r
  have hout := hf.outcome r
  have hhor := hf.horizon r
  rw [hcode] at hpath hout hhor
  refine hf.set r mem _ ?_ hout hhor (hf.paced.answer mem hcode _) (hf.sent r) ?_
  · simpa only [Proc.answer, trace, List.append_assoc, List.singleton_append] using hpath
  · intro e ev h
    rcases List.mem_append.mp h with h | h
    · exact hf.past r e ev h
    · exact (congrArg Prod.fst (List.mem_singleton.mp h)).le

theorem Follows.enter (hΩ : Coherent Ω code) (hf : Follows Ω code s) {r : Fin n} {c : I.Coll}
    {next : (Fin n → I.Coll) → Program I n α} (hcode : (s.proc r).code = .sync c next)
    (hout : (s.proc r).sent.length = (s.proc r).epoch) :
    Follows Ω code (s.set r s.mem ((s.proc r).enter c)) := by
  refine hf.set r s.mem _ (hf.path r) (hf.outcome r) (hf.horizon r) (hf.paced.enter hcode hout) ?_
    (hf.past r)
  intro e c' h
  rcases Proc.getElem?_enter h with hbefore | ⟨rfl, rfl⟩
  · exact hf.sent r e c' hbefore
  · -- the contribution just brought is the one of the call at the head of the trace
    have hmem : ((s.proc r).epoch, Event.sync c') ∈ trace Ω r 0 (code r) := by
      rw [← hf.path r, hcode, trace]
      exact List.mem_append_right _ List.mem_cons_self
    rw [hout]
    exact hΩ r _ c' hmem

theorem Follows.leave (hf : Follows Ω code s) {r : Fin n} {c : I.Coll}
    {next : (Fin n → I.Coll) → Program I n α} {v : Fin n → I.Coll}
    (hcode : (s.proc r).code = .sync c next)
    (hin : (s.proc r).sent.length = (s.proc r).epoch + 1)
    (hall : ∀ q, (s.proc q).sent[(s.proc r).epoch]? = some (v q)) :
    Follows Ω code (s.set r s.mem ((s.proc r).leave c (next v))) := by
  have hv : v = Ω.gathered (s.proc r).epoch := funext (fun q => hf.sent q _ _ (hall q))
  have hpath := hf.path r
  have hout := hf.outcome r
  have hhor := hf.horizon r
  rw [hcode] at hpath hout hhor
  subst hv
  refine hf.set r s.mem _ ?_ hout hhor (hf.paced.leave hin hall) (hf.sent r) ?_
  · simpa only [Proc.leave, trace, List.append_assoc, List.singleton_append] using hpath
  · intro e ev h
    rcases List.mem_append.mp h with h | h
    · exact (hf.past r e ev h).trans (Nat.le_succ _)
    · exact (congrArg Prod.fst (List.mem_singleton.mp h)).le.trans (Nat.le_succ _)

def Guided (Ω : Oracle I n) (mem : m.Mem) (code : Fin n → Program I n α) (s : State m α) : Prop :=
  Relation.ReflTransGen (fun a b => Follows Ω code a ∧ Step a b) (start mem code) s

theorem Guided.reachable (h : Guided Ω mem₀ code s) : Reachable mem₀ code s :=
  Relation.ReflTransGen.mono (fun _ _ => And.right) _ _ h

/-- The oracle rule: when responses given in guided states that follow the oracle are the predicted
ones, every reachable state follows it. -/
theorem follows_of_reachable (hΩ : Coherent Ω code)
    (hresp : ∀ s : State m α, Guided Ω mem₀ code s → Follows Ω code s →
      ∀ r o next x mem, (s.proc r).code = .op o next →
        m.perform r (s.proc r).epoch o s.mem x mem → x = Ω.resp r o)
    (hs : Reachable mem₀ code s) : Guided Ω mem₀ code s ∧ Follows Ω code s := by
  induction hs with
  | refl => exact ⟨.refl, follows_start⟩
  | tail hreach hstep ih =>
    obtain ⟨hguided, ih⟩ := ih
    refine ⟨hguided.tail ⟨ih, hstep⟩, ?_⟩
    cases hstep with
    | op r o next x mem hcode hperform =>
      have hx := hresp _ hguided ih r o next x mem hcode hperform
      subst hx
      exact ih.answer mem hcode
    | enter r c next hcode hout => exact ih.enter hΩ hcode hout
    | leave r c next v hcode hin hall => exact ih.leave hcode hin hall
    | drift mem hdrift =>
      exact ⟨ih.path, ih.outcome, ih.horizon, ih.waits, ih.sent, ih.behind, ih.past⟩

/-- An operation a rank still has to do does not precede a collective call another rank has left. -/
theorem Follows.epoch_le_of_pending (hf : Follows Ω code s) (r q : Fin n) {e : ℕ} {o : I.Op}
    {x : I.Resp o} (h : (e, Event.op o x) ∈ trace Ω q (s.proc q).epoch (s.proc q).code) :
    (s.proc r).epoch ≤ e := by
  have hle := le_of_mem_trace Ω q h
  have hb := hf.behind r q
  rcases hf.waits q with hw | ⟨c, next, hcode, hw⟩
  · omega
  · rw [hcode, trace] at h
    rcases List.mem_cons.mp h with heq | hmem
    · cases heq
    · have := le_of_mem_trace Ω q hmem
      omega

theorem Follows.op_done (hf : Follows Ω code s) (r q : Fin n) {e : ℕ} {o : I.Op} {x : I.Resp o}
    (h : (e, Event.op o x) ∈ trace Ω q 0 (code q)) (he : e < (s.proc r).epoch) :
    (e, Event.op o x) ∈ (s.proc q).done := by
  rw [← hf.path q] at h
  rcases List.mem_append.mp h with hd | hp
  · exact hd
  · have := hf.epoch_le_of_pending r q hp
    omega

theorem Follows.mem_trace_of_done (hf : Follows Ω code s) {q : Fin n} {ev : ℕ × Event I}
    (h : ev ∈ (s.proc q).done) : ev ∈ trace Ω q 0 (code q) := by
  rw [← hf.path q]
  exact List.mem_append_left _ h

/-- The operation a rank is about to perform is an event of its trace. -/
theorem Follows.head_mem_trace (hf : Follows Ω code s) {r : Fin n} {o : I.Op}
    {next : I.Resp o → Program I n α} (hcode : (s.proc r).code = .op o next) :
    ((s.proc r).epoch, Event.op o (Ω.resp r o)) ∈ trace Ω r 0 (code r) := by
  rw [← hf.path r, hcode, trace]
  exact List.mem_append_right _ List.mem_cons_self

/-- While a rank is about to perform an operation, no rank is past the next collective call. -/
theorem Follows.epoch_le_of_op (hf : Follows Ω code s) {r q : Fin n} {o : I.Op}
    {next : I.Resp o → Program I n α} (hcode : (s.proc r).code = .op o next) :
    (s.proc q).epoch ≤ (s.proc r).epoch :=
  (hf.behind q r).trans (hf.paced.epoch_eq hcode).le

theorem Follows.done_of_halted (hf : Follows Ω code s) {q : Fin n} {a : α}
    (h : (s.proc q).code = .pure a) :
    (s.proc q).done = trace Ω q 0 (code q) ∧ a = result Ω q 0 (code q) := by
  have hp := hf.path q
  have ho := hf.outcome q
  rw [h] at hp ho
  exact ⟨by simpa using hp, ho⟩

theorem Follows.countP_done (hf : Follows Ω code s) (q : Fin n) :
    (s.proc q).done.countP (fun x => x.2.isSync) = (s.proc q).epoch := by
  have hpath := congrArg (List.countP fun x => x.2.isSync) (hf.path q)
  have hhor := hf.horizon q
  rw [lastEpoch_eq, lastEpoch_eq] at hhor
  rw [List.countP_append] at hpath
  omega

/-- When every rank is in front of a collective call or finished, and all traces have the same
number of calls, somebody can enter or leave. -/
theorem Follows.sync_progress (hf : Follows Ω code s)
    (heven : ∀ r q, lastEpoch Ω r 0 (code r) = lastEpoch Ω q 0 (code q))
    (hat : ∀ r, (∃ a, (s.proc r).code = .pure a) ∨ ∃ c next, (s.proc r).code = .sync c next)
    (hnot : ¬ Halted s) : ∃ s', Step s s' := by
  by_contra hstuck
  have hfinal : Final s := not_exists.mp hstuck
  obtain ⟨r, hr⟩ := not_forall.mp hnot
  obtain ⟨c, next, hcode⟩ := (hat r).resolve_left hr
  have hall := hfinal.le_sent hf.paced (N := lastEpoch Ω r 0 (code r)) fun q hq => by
    refine (hat q).resolve_left ?_
    rintro ⟨a, ha⟩
    -- a finished rank has left all its calls
    have hhq := hf.horizon q
    rw [ha, lastEpoch_pure, heven q r] at hhq
    omega
  -- the call in which `r` waits is one of these
  obtain ⟨-, q, hq⟩ := hfinal.exists_behind hf.paced hcode
  have hhr := hf.horizon r
  rw [hcode, lastEpoch] at hhr
  have hle := le_lastEpoch Ω r ((s.proc r).epoch + 1) (next (Ω.gathered (s.proc r).epoch))
  have := hall q
  omega

/-- A machine that answers every operation is never stuck. -/
theorem Follows.progress (hf : Follows Ω code s)
    (heven : ∀ r q, lastEpoch Ω r 0 (code r) = lastEpoch Ω q 0 (code q))
    (hans : ∀ r o next, (s.proc r).code = .op o next →
      ∃ x mem, m.perform r (s.proc r).epoch o s.mem x mem) :
    Halted s ∨ ∃ s', Step s s' := by
  by_cases hop : ∃ r o next, (s.proc r).code = .op o next
  · obtain ⟨r, o, next, hcode⟩ := hop
    obtain ⟨x, mem, hp⟩ := hans r o next hcode
    exact Or.inr ⟨_, .op r o next x mem hcode hp⟩
  · by_cases hh : Halted s
    · exact Or.inl hh
    · refine Or.inr (hf.sync_progress heven (fun r => ?_) hh)
      cases hc : (s.proc r).code with
      | pure a => exact Or.inl ⟨a, rfl⟩
      | op o next => exact absurd ⟨r, o, next, hc⟩ hop
      | sync c next => exact Or.inr ⟨c, next, rfl⟩

/-- Every step other than a drift adds one, up to a bound that the traces give. -/
def State.work (s : State m α) : ℕ := ∑ r, ((s.proc r).done.length + (s.proc r).sent.length)

theorem State.work_set (s : State m α) (r : Fin n) (mem : m.Mem) (p : Proc I n α)
    (h : p.done.length + p.sent.length = (s.proc r).done.length + (s.proc r).sent.length + 1) :
    (s.set r mem p).work = s.work + 1 := by
  have hrest : ∑ q ∈ Finset.univ.erase r, (((s.set r mem p).proc q).done.length +
        ((s.set r mem p).proc q).sent.length) =
      ∑ q ∈ Finset.univ.erase r, ((s.proc q).done.length + (s.proc q).sent.length) := by
    refine Finset.sum_congr rfl (fun q hq => ?_)
    rw [State.set_proc_ne r s mem p (Finset.ne_of_mem_erase hq)]
  unfold State.work
  rw [← Finset.add_sum_erase _ _ (Finset.mem_univ r),
    ← Finset.add_sum_erase _ (fun q => (s.proc q).done.length + (s.proc q).sent.length)
      (Finset.mem_univ r), hrest, State.set_proc_self, h]
  omega

theorem work_step (hstill : ∀ mem mem', ¬ m.drift mem mem') (h : Step s s') :
    s'.work = s.work + 1 := by
  cases h with
  | op r o next x mem _ _ =>
    apply s.work_set
    simp only [Proc.answer, List.length_append, List.length_singleton]
    omega
  | enter r c next _ _ =>
    apply s.work_set
    simp only [Proc.enter, List.length_append, List.length_singleton]
    omega
  | leave r c next v _ _ _ =>
    apply s.work_set
    simp only [Proc.leave, List.length_append, List.length_singleton]
    omega
  | drift mem hd => exact absurd hd (hstill _ _)

def workBound (Ω : Oracle I n) (code : Fin n → Program I n α) : ℕ :=
  ∑ r, ((trace Ω r 0 (code r)).length + lastEpoch Ω r 0 (code r))

theorem Follows.work_le (hf : Follows Ω code s) : s.work ≤ workBound Ω code := by
  refine Finset.sum_le_sum (fun r _ => Nat.add_le_add ?_ ?_)
  · rw [← hf.path r, List.length_append]
    exact Nat.le_add_right _ _
  · have hh := hf.horizon r
    rcases hf.waits r with hw | ⟨c, next, hcode, hw⟩
    · rw [hw, ← hh]
      exact le_lastEpoch Ω r _ _
    · rw [hcode, lastEpoch] at hh
      rw [hw, ← hh]
      exact le_lastEpoch Ω r _ _

/-- What a machine without drift has to satisfy for its runs to be the predicted ones: coherent
contributions, predicted responses, every operation answered, and as many collective calls on
every rank. -/
structure Predicts (Ω : Oracle I n) (mem₀ : m.Mem) (code : Fin n → Program I n α) : Prop where
  coherent : Coherent Ω code
  resp : ∀ s : State m α, Guided Ω mem₀ code s → Follows Ω code s →
    ∀ r o next x mem, (s.proc r).code = .op o next →
      m.perform r (s.proc r).epoch o s.mem x mem → x = Ω.resp r o
  answers : ∀ s : State m α, Reachable mem₀ code s → Follows Ω code s →
    ∀ r o next, (s.proc r).code = .op o next →
      ∃ x mem, m.perform r (s.proc r).epoch o s.mem x mem
  even : ∀ r q, lastEpoch Ω r 0 (code r) = lastEpoch Ω q 0 (code q)
  still : ∀ mem mem', ¬ m.drift mem mem'

namespace Predicts

variable (hp : Predicts Ω mem₀ code)
include hp

theorem guided (hs : Reachable mem₀ code s) : Guided Ω mem₀ code s :=
  (follows_of_reachable hp.coherent hp.resp hs).1

theorem follows (hs : Reachable mem₀ code s) : Follows Ω code s :=
  (follows_of_reachable hp.coherent hp.resp hs).2

theorem progress (hs : Reachable mem₀ code s) : Halted s ∨ ∃ s', Step s s' :=
  (hp.follows hs).progress hp.even (hp.answers s hs (hp.follows hs))

/-- Every reachable state can be run to a halted one. -/
theorem exists_halted (hs : Reachable mem₀ code s) :
    ∃ s', Reachable mem₀ code s' ∧ Relation.ReflTransGen Step s s' ∧ Halted s' := by
  induction hk : workBound Ω code - s.work using Nat.strongRecOn generalizing s with
  | ind k ih =>
    rcases hp.progress hs with hh | ⟨s', hstep⟩
    · exact ⟨s, hs, .refl, hh⟩
    · have hs' : Reachable mem₀ code s' := hs.tail hstep
      have hw := work_step hp.still hstep
      have hb := (hp.follows hs').work_le
      obtain ⟨t, ht, hst, hh⟩ := ih _ (by omega) hs' rfl
      exact ⟨t, ht, hst.head hstep, hh⟩

/-- No run is longer than the bound given by the traces. -/
theorem run_length_le (run : ℕ → State m α) (k : ℕ) (h0 : run 0 = start mem₀ code)
    (hrun : ∀ i < k, Step (run i) (run (i + 1))) : k ≤ workBound Ω code := by
  have key : ∀ j ≤ k, Reachable mem₀ code (run j) ∧ (run j).work = (run 0).work + j := by
    intro j
    induction j with
    | zero => exact fun _ => ⟨h0 ▸ .refl, rfl⟩
    | succ j ih =>
      intro hj
      obtain ⟨hr, hw⟩ := ih (by omega)
      have hstep := hrun j (by omega)
      exact ⟨hr.tail hstep, by rw [work_step hp.still hstep, hw]; omega⟩
  obtain ⟨hr, hw⟩ := key k le_rfl
  have hb := (hp.follows hr).work_le
  omega

end Predicts

end RankProgram
