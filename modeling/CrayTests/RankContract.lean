import CrayTests.RankProgram
import Mathlib.Logic.Hydra

/-!
# Contracts of communicating ranks

A `Contract` says what a rank may bring to its `e`-th collective call, which operations it may be
about to perform, and what holds of its own part of the memory. A program `Obeys` the contract when
it keeps to it whatever the machine answers, as long as the contributions of the other ranks keep to
it. The rule is `keeps_of_reachable`: when the programs of all ranks obey, every reachable state
keeps the contract.

Without drift every run ends, `exists_final`.
-/

namespace RankProgram
open Relation

variable {I J : Interface} {n : ℕ} {α β σ : Type} {m : Machine I n}

/-- A part of the memory for each rank, which only the operations of this rank change. -/
structure View (m : Machine I n) (σ : Type) where
  part : m.Mem → Fin n → σ
  frame : ∀ {r q e o mem x mem'}, m.perform r e o mem x mem' → q ≠ r → part mem' q = part mem q
  still : ∀ {mem mem'}, m.drift mem mem' → part mem' = part mem

structure Contract (I : Interface) (n : ℕ) (σ : Type) where
  brings : ℕ → Fin n → I.Coll → Prop
  may : Fin n → ℕ → σ → I.Op → Prop
  holds : Fin n → ℕ → σ → Prop

variable (view : View m σ) (C : Contract I n σ)

/-- From epoch `e` and local state `st` the program of rank `r` keeps the contract, and `Q` holds of
the epoch, the result and the local state in which it ends. -/
def Obeys (r : Fin n) (Q : ℕ → α → σ → Prop) : ℕ → Program I n α → σ → Prop
  | e, .pure a, st => C.holds r e st ∧ Q e a st
  | e, .op o next, st => C.holds r e st ∧ C.may r e st o ∧
      ∀ mem x mem', view.part mem r = st → m.perform r e o mem x mem' →
        Obeys r Q e (next x) (view.part mem' r)
  | e, .sync c next, st => C.holds r e st ∧ C.brings e r c ∧
      ∀ v, (∀ q, C.brings e q (v q)) → Obeys r Q (e + 1) (next v) st

variable {view C} {r : Fin n} {Q R : ℕ → α → σ → Prop} {e : ℕ} {st : σ}

theorem Obeys.holds {p : Program I n α} (h : Obeys view C r Q e p st) : C.holds r e st := by
  cases p with
  | pure a => exact h.1
  | op o next => exact h.1
  | sync c next => exact h.1

theorem Obeys.mono {p : Program I n α} (hQ : ∀ e a st, Q e a st → R e a st)
    (h : Obeys view C r Q e p st) : Obeys view C r R e p st := by
  induction p generalizing e st with
  | pure a => exact ⟨h.1, hQ _ _ _ h.2⟩
  | op o next ih =>
    exact ⟨h.1, h.2.1, fun mem x mem' hpart hperform => ih x (h.2.2 mem x mem' hpart hperform)⟩
  | sync c next ih => exact ⟨h.1, h.2.1, fun v hv => ih v (h.2.2 v hv)⟩

theorem Obeys.bind {p : Program I n α} {f : α → Program I n β} {S : ℕ → β → σ → Prop}
    (h : Obeys view C r Q e p st)
    (hf : ∀ e a st, C.holds r e st → Q e a st → Obeys view C r S e (f a) st) :
    Obeys view C r S e (p.bind f) st := by
  induction p generalizing e st with
  | pure a => exact hf e a st h.1 h.2
  | op o next ih =>
    exact ⟨h.1, h.2.1, fun mem x mem' hpart hperform => ih x (h.2.2 mem x mem' hpart hperform)⟩
  | sync c next ih => exact ⟨h.1, h.2.1, fun v hv => ih v (h.2.2 v hv)⟩

/-- A loop by an invariant on the rounds done, the epoch, the loop state and the local state. -/
theorem Obeys.loop {body : ℕ → α → Program I n α} (inv : ℕ → ℕ → α → σ → Prop) {i count : ℕ}
    (hbody : ∀ k < count, ∀ e a st, C.holds r e st → inv k e a st →
      Obeys view C r (inv (k + 1)) e (body (i + k) a) st)
    {a : α} (hholds : C.holds r e st) (h : inv 0 e a st) :
    Obeys view C r (inv count) e (Program.loop body i count a) st := by
  induction count generalizing i inv e a st with
  | zero => exact ⟨hholds, h⟩
  | succ count ih =>
    refine (hbody 0 (Nat.succ_pos _) e a st hholds h).bind fun e' a' st' hholds' h' => ?_
    refine ih (fun k => inv (k + 1)) (fun k hk e a st hh hinv => ?_) hholds' h'
    have := hbody (k + 1) (by omega) e a st hh hinv
    rwa [show i + (k + 1) = i + 1 + k by omega] at this

structure Embedding (I J : Interface) where
  op : I.Op → J.Op
  resp : ∀ o, J.Resp (op o) → I.Resp o
  coll : I.Coll → J.Coll
  back : J.Coll → I.Coll

def Program.embed (E : Embedding I J) : Program I n α → Program J n α
  | .pure a => .pure a
  | .op o next => .op (E.op o) (fun x => embed E (next (E.resp o x)))
  | .sync c next => .sync (E.coll c) (fun v => embed E (next (fun q => E.back (v q))))

namespace Program

variable (E : Embedding I J)

theorem embed_bind (p : Program I n α) (f : α → Program I n β) :
    (p.bind f).embed E = (p.embed E).bind (fun a => (f a).embed E) := by
  induction p with
  | pure a => rfl
  | op o next ih => simp only [bind, embed, ih]
  | sync c next ih => simp only [bind, embed, ih]

theorem embed_loop (body : ℕ → α → Program I n α) (i count : ℕ) (a : α) :
    (loop body i count a).embed E = loop (fun i a => (body i a).embed E) i count a := by
  induction count generalizing i a with
  | zero => rfl
  | succ count ih => simp only [loop, embed_bind, ih]

end Program

/-- What the contract says of a state in which all ranks have kept to it so far. -/
structure Keeps (view : View m σ) (C : Contract I n σ) (Q : Fin n → ℕ → α → σ → Prop)
    (s : State m α) : Prop extends Paced s where
  obeys : ∀ r, Obeys view C r (Q r) (s.proc r).epoch (s.proc r).code (view.part s.mem r)
  brings : ∀ r e c, (s.proc r).sent[e]? = some c → C.brings e r c

section Rule

variable {Q : Fin n → ℕ → α → σ → Prop} {s s' : State m α}

theorem keeps_start {mem : m.Mem} {code : Fin n → Program I n α}
    (h : ∀ r, Obeys view C r (Q r) 0 (code r) (view.part mem r)) :
    Keeps view C Q (start mem code) where
  waits _ := Or.inl rfl
  behind _ _ := Nat.zero_le _
  obeys := h
  brings r e c hc := by simp [start] at hc

/-- Changing one rank's record and its part of the memory. -/
theorem Keeps.set (h : Keeps view C Q s) {mem : m.Mem} {p : Proc I n α}
    (hpaced : Paced (s.set r mem p))
    (hframe : ∀ q, q ≠ r → view.part mem q = view.part s.mem q)
    (hobeys : Obeys view C r (Q r) p.epoch p.code (view.part mem r))
    (hbrings : ∀ e c, p.sent[e]? = some c → C.brings e r c) :
    Keeps view C Q (s.set r mem p) where
  toPaced := hpaced
  obeys := by
    refine State.forall_set
      (P := fun q p => Obeys view C q (Q q) p.epoch p.code (view.part mem q)) hobeys ?_
    intro q hq
    rw [hframe q hq]
    exact h.obeys q
  brings := State.forall_set (P := fun q p => ∀ e c, p.sent[e]? = some c → C.brings e q c)
    hbrings (fun q _ => h.brings q)

theorem Keeps.step (h : Keeps view C Q s) (hstep : Step s s') : Keeps view C Q s' := by
  have hpaced := h.toPaced.step hstep
  cases hstep with
  | op r o next x mem hcode hperform =>
    refine h.set hpaced (fun q hq => view.frame hperform hq) ?_ (h.brings r)
    have hobeys := h.obeys r
    rw [hcode] at hobeys
    exact hobeys.2.2 s.mem x mem rfl hperform
  | enter r c next hcode hout =>
    refine h.set hpaced (fun _ _ => rfl) (h.obeys r) fun e c' hc' => ?_
    have hobeys := h.obeys r
    rw [hcode] at hobeys
    rcases Proc.getElem?_enter hc' with hbefore | ⟨rfl, rfl⟩
    · exact h.brings r e c' hbefore
    · rw [hout]
      exact hobeys.2.1
  | leave r c next v hcode hin hall =>
    refine h.set hpaced (fun _ _ => rfl) ?_ (h.brings r)
    have hobeys := h.obeys r
    rw [hcode] at hobeys
    exact hobeys.2.2 v fun q => h.brings q _ _ (hall q)
  | drift mem hdrift =>
    refine ⟨hpaced, fun r => ?_, h.brings⟩
    rw [view.still hdrift]
    exact h.obeys r

/-- The contract rule: when every program obeys the contract, every reachable state keeps it. -/
theorem keeps_of_reachable {mem : m.Mem} {code : Fin n → Program I n α}
    (h : ∀ r, Obeys view C r (Q r) 0 (code r) (view.part mem r)) (hs : Reachable mem code s) :
    Keeps view C Q s := by
  induction hs with
  | refl => exact keeps_start h
  | tail _ hstep ih => exact ih.step hstep

namespace Keeps

theorem holds (h : Keeps view C Q s) (r : Fin n) :
    C.holds r (s.proc r).epoch (view.part s.mem r) := (h.obeys r).holds

theorem may (h : Keeps view C Q s) {o : I.Op} {next : I.Resp o → Program I n α}
    (hcode : (s.proc r).code = .op o next) :
    C.may r (s.proc r).epoch (view.part s.mem r) o := by
  have hobeys := h.obeys r
  rw [hcode] at hobeys
  exact hobeys.2.1

theorem next_brings (h : Keeps view C Q s) {c : I.Coll}
    {next : (Fin n → I.Coll) → Program I n α} (hcode : (s.proc r).code = .sync c next) :
    C.brings (s.proc r).epoch r c := by
  have hobeys := h.obeys r
  rw [hcode] at hobeys
  exact hobeys.2.1

theorem outcome (h : Keeps view C Q s) {a : α} (hcode : (s.proc r).code = .pure a) :
    Q r (s.proc r).epoch a (view.part s.mem r) := by
  have hobeys := h.obeys r
  rw [hcode] at hobeys
  exact hobeys.2

end Keeps
end Rule

inductive Program.Next : Program I n α → Program I n α → Prop
  | op (o : I.Op) (next : I.Resp o → Program I n α) (x : I.Resp o) : Next (next x) (.op o next)
  | sync (c : I.Coll) (next : (Fin n → I.Coll) → Program I n α) (v : Fin n → I.Coll) :
      Next (next v) (.sync c next)

theorem Program.wellFounded_next : WellFounded (Program.Next : Program I n α → _ → Prop) := by
  refine ⟨fun p => ?_⟩
  induction p with
  | pure a => exact ⟨_, fun q hq => by cases hq⟩
  | op o next ih =>
    refine ⟨_, fun q hq => ?_⟩
    cases hq with
    | op _ _ x => exact ih x
  | sync c next ih =>
    refine ⟨_, fun q hq => ?_⟩
    cases hq with
    | sync _ _ v => exact ih v

/-- How far a rank still has to go: its code, and whether it has to enter a call first. -/
def Proc.left (p : Proc I n α) : Program I n α × ℕ := (p.code, p.epoch + 1 - p.sent.length)

abbrev Proc.Closer : Program I n α × ℕ → Program I n α × ℕ → Prop :=
  Prod.Lex Program.Next (· < ·)

def State.left (s : State m α) : Multiset (Program I n α × ℕ) :=
  Finset.univ.val.map fun r => (s.proc r).left

theorem State.left_set (s : State m α) (mem : m.Mem) (p : Proc I n α)
    (h : Proc.Closer p.left (s.proc r).left) :
    CutExpand Proc.Closer (s.set r mem p).left s.left := by
  have hsplit (t : State m α) :
      t.left = (Finset.univ.erase r).val.map (fun q => (t.proc q).left) + {(t.proc r).left} := by
    rw [State.left, ← Finset.insert_erase (Finset.mem_univ r),
      Finset.insert_val_of_notMem (Finset.notMem_erase r _), Multiset.map_cons,
      Finset.erase_insert (Finset.notMem_erase r _), add_comm, Multiset.singleton_add]
  have hrest : (Finset.univ.erase r).val.map (fun q => ((s.set r mem p).proc q).left) =
      (Finset.univ.erase r).val.map (fun q => (s.proc q).left) := by
    refine Multiset.map_congr rfl fun q hq => ?_
    rw [State.set_proc_ne r s mem p (Finset.ne_of_mem_erase (Finset.mem_val.mp hq))]
  rw [hsplit, hsplit s, hrest, State.set_proc_self]
  exact cutExpand_add_single _ h

theorem State.left_step (hstill : ∀ mem mem', ¬ m.drift mem mem') {s s' : State m α}
    (h : Step s s') : CutExpand Proc.Closer s'.left s.left := by
  cases h with
  | op r o next x mem hcode _ =>
    refine s.left_set mem _ (.left _ _ ?_)
    rw [hcode]
    exact .op o next x
  | enter r c next hcode hout =>
    refine s.left_set s.mem _ (.right _ ?_)
    simp only [Proc.enter, List.length_append, List.length_singleton]
    omega
  | leave r c next v hcode _ _ =>
    refine s.left_set s.mem _ (.left _ _ ?_)
    rw [hcode]
    exact .sync c next v
  | drift mem hdrift => exact absurd hdrift (hstill _ _)

theorem exists_final (hstill : ∀ mem mem', ¬ m.drift mem mem') (s : State m α) :
    ∃ t, ReflTransGen Step s t ∧ Final t := by
  have hwf : WellFounded fun t s : State m α => CutExpand Proc.Closer t.left s.left :=
    InvImage.wf State.left
      (WellFounded.prod_lex Program.wellFounded_next Nat.lt_wfRel.wf).cutExpand
  induction s using hwf.induction with
  | _ s ih =>
    by_cases hfinal : Final s
    · exact ⟨s, .refl, hfinal⟩
    · obtain ⟨t, hstep⟩ := not_forall_not.mp hfinal
      obtain ⟨u, htu, hu⟩ := ih t (State.left_step hstill hstep)
      exact ⟨u, .head hstep htu, hu⟩

end RankProgram
