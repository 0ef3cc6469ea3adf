import Mathlib.Tactic

/-!
# What a computation does to its state

A computation with a state and exceptions `Keeps` a relation between states when its last state is
in the relation to its first one, whichever way it ends. For a preorder the rules follow the
computation: in a sequence each part has to keep the relation on the values the one before returns.
-/

namespace StateContract

variable {ε σ α β : Type} {R : σ → σ → Prop}

def last : EStateM.Result ε σ α → σ
  | .ok _ s => s
  | .error _ s => s

theorem pure_apply (a : α) (s : σ) : (Pure.pure a : EStateM ε σ α) s = .ok a s := rfl

theorem get_apply (s : σ) : (get : EStateM ε σ σ) s = .ok s s := rfl

theorem modify_apply (f : σ → σ) (s : σ) : (modify f : EStateM ε σ PUnit) s = .ok ⟨⟩ (f s) := rfl

theorem bind_apply (x : EStateM ε σ α) (f : α → EStateM ε σ β) (s : σ) :
    (x >>= f) s = match x s with
      | .ok a t => f a t
      | .error e t => .error e t := by
  change EStateM.bind x f s = _
  rw [EStateM.bind]
  cases x s <;> rfl

theorem map_apply (f : α → β) (x : EStateM ε σ α) (s : σ) :
    (f <$> x) s = match x s with
      | .ok a t => .ok (f a) t
      | .error e t => .error e t := by
  change EStateM.map f x s = _
  rw [EStateM.map]
  cases x s <;> rfl

theorem bind_of_ok {x : EStateM ε σ α} {f : α → EStateM ε σ β} {s t : σ} {a : α}
    (h : x s = .ok a t) : (x >>= f) s = f a t := by
  rw [bind_apply, h]

theorem bind_of_error {x : EStateM ε σ α} {f : α → EStateM ε σ β} {e : ε} {s t : σ}
    (h : x s = .error e t) : (x >>= f) s = .error e t := by
  rw [bind_apply, h]

theorem bind_congr_of_eq {x y : EStateM ε σ α} {f : α → EStateM ε σ β} {s t : σ}
    (h : x s = y t) : (x >>= f) s = (y >>= f) t := by
  rw [bind_apply, bind_apply, h]

theorem bind_ok {x : EStateM ε σ α} {f : α → EStateM ε σ β} {s t : σ} {b : β} :
    (x >>= f) s = .ok b t ↔ ∃ a m, x s = .ok a m ∧ f a m = .ok b t := by
  rw [bind_apply]
  cases x s with
  | ok a m => simp
  | error e m => simp

@[simp] theorem pure_ok {a b : α} {s t : σ} :
    (Pure.pure a : EStateM ε σ α) s = .ok b t ↔ a = b ∧ s = t := by
  rw [pure_apply]
  simp

@[simp] theorem throw_ok {e : ε} {b : α} {s t : σ} :
    (throw e : EStateM ε σ α) s ≠ .ok b t := by
  change EStateM.Result.error e s ≠ _
  simp

/-- The states are related, and a value that is returned satisfies `Q`. -/
structure Keeps (R : σ → σ → Prop) (x : EStateM ε σ α) (Q : α → Prop) : Prop where
  rel : ∀ s, R s (last (x s))
  value : ∀ s a t, x s = .ok a t → Q a

namespace Keeps

variable {x : EStateM ε σ α} {f : α → EStateM ε σ β} {Q Q' : α → Prop} {P : β → Prop}

theorem ok (h : Keeps R x Q) {s t : σ} {a : α} (hx : x s = .ok a t) : R s t := by
  have := h.rel s
  rwa [hx] at this

theorem mono (h : Keeps R x Q) (hQ : ∀ a, Q a → Q' a) : Keeps R x Q' :=
  ⟨h.rel, fun s a t hx => hQ a (h.value s a t hx)⟩

theorem ite {c : Prop} [Decidable c] {y : EStateM ε σ α} (hx : c → Keeps R x Q)
    (hy : ¬ c → Keeps R y Q) : Keeps R (if c then x else y) Q := by
  split_ifs with hc
  · exact hx hc
  · exact hy hc

variable [IsPreorder σ R]

theorem pure {a : α} (h : Q a) : Keeps R (Pure.pure a : EStateM ε σ α) Q where
  rel s := refl_of R s
  value s b t hx := by
    obtain ⟨rfl, -⟩ := EStateM.Result.ok.inj (hx : EStateM.Result.ok a s = .ok b t)
    exact h

theorem throw (e : ε) : Keeps R (MonadExcept.throw e : EStateM ε σ α) Q where
  rel s := refl_of R s
  value s b t hx := by cases (show EStateM.Result.error e s = .ok b t from hx)

theorem bind (hx : Keeps R x Q) (hf : ∀ a, Q a → Keeps R (f a) P) : Keeps R (x >>= f) P where
  rel s := by
    have hrel := hx.rel s
    rw [bind_apply]
    cases hs : x s with
    | ok a t =>
      rw [hs] at hrel
      exact trans_of R hrel ((hf a (hx.value s a t hs)).rel t)
    | error e t =>
      rw [hs] at hrel
      exact hrel
  value s b u h := by
    rw [bind_apply] at h
    cases hs : x s with
    | ok a t =>
      rw [hs] at h
      exact (hf a (hx.value s a t hs)).value t b u h
    | error e t =>
      rw [hs] at h
      cases h

/-- A part of a sequence is followed by what keeps the relation. -/
theorem last_bind (x : EStateM ε σ α) (hf : ∀ a, Keeps R (f a) P) (s : σ) :
    R (last (x s)) (last ((x >>= f) s)) := by
  rw [bind_apply]
  cases x s with
  | ok a t => exact (hf a).rel t
  | error e t => exact refl_of R t

theorem forM {τ : Type} {g : τ → EStateM ε σ PUnit} (hg : ∀ y, Keeps R (g y) fun _ => True) :
    ∀ l : List τ, Keeps R (ForM.forM l g) fun _ => True
  | [] => pure trivial
  | y :: l => by
    rw [List.forM_cons]
    exact (hg y).bind fun _ _ => forM hg l

theorem foldlM {τ : Type} {g : α → τ → EStateM ε σ α} (hg : ∀ a, Q a → ∀ y, Keeps R (g a y) Q) :
    ∀ (l : List τ) {a : α}, Q a → Keeps R (l.foldlM g a) Q
  | [], _, ha => pure ha
  | y :: l, _, ha => (hg _ ha y).bind fun _ hb => foldlM hg l hb

end Keeps

end StateContract
