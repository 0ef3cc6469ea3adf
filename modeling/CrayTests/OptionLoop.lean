import Mathlib.Tactic

/-!
# Loops that may fail

A loop over `0, …, n - 1` in `Option` along the states it goes through. The state before each round
is given by the user; the rule asks that every round leads to the next one.
-/

namespace OptionLoop

variable {σ τ : Type*}

theorem foldlM_range (f : σ → ℕ → Option σ) (st : ℕ → σ) (n : ℕ)
    (hbody : ∀ k < n, f (st k) k = some (st (k + 1))) :
    (List.range n).foldlM f (st 0) = some (st n) := by
  induction n with
  | zero => rfl
  | succ n ih =>
    rw [List.range_succ, List.foldlM_append, ih fun k hk => hbody k (by omega)]
    simpa using hbody n (Nat.lt_succ_self n)

/-- A loop that appends one block in each round. -/
theorem foldlM_range_append (f : List τ → ℕ → Option (List τ)) (block : ℕ → List τ) (n : ℕ)
    (hbody : ∀ k < n, ∀ out, f out k = some (out ++ block k)) (out : List τ) :
    (List.range n).foldlM f out = some (out ++ (List.range n).flatMap block) := by
  have h := foldlM_range f (fun k => out ++ (List.range k).flatMap block) n fun k hk => by
    rw [hbody k hk, List.range_succ, List.flatMap_append, List.flatMap_singleton,
      List.append_assoc]
  simpa using h

theorem mapM_range (f : ℕ → Option τ) (val : ℕ → τ) (n : ℕ)
    (h : ∀ k < n, f k = some (val k)) : (List.range n).mapM f = some ((List.range n).map val) := by
  induction n with
  | zero => rfl
  | succ n ih =>
    rw [List.range_succ, List.mapM_append, ih fun k hk => h k (by omega)]
    simp [h n (Nat.lt_succ_self n)]

end OptionLoop
