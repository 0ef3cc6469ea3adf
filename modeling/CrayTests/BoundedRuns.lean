import Mathlib.Logic.Relation
import Mathlib.Tactic

/-!
# Systems whose runs are bounded

Where an invariant is kept by every step and every step lowers a measure, every state with the
invariant can be run until no step is left, and no run goes on forever.
-/

namespace BoundedRuns

open Relation

variable {σ : Type*} {step : σ → σ → Prop} {Inv : σ → Prop} {μ : σ → ℕ}

theorem inv_of_run (hinv : ∀ s s', Inv s → step s s' → Inv s') {s s' : σ} (hs : Inv s)
    (hrun : ReflTransGen step s s') : Inv s' := by
  induction hrun with
  | refl => exact hs
  | tail _ hstep ih => exact hinv _ _ ih hstep

theorem exists_final (hinv : ∀ s s', Inv s → step s s' → Inv s')
    (hless : ∀ s s', Inv s → step s s' → μ s' < μ s) {s : σ} (hs : Inv s) :
    ∃ s', ReflTransGen step s s' ∧ Inv s' ∧ ∀ s'', ¬ step s' s'' := by
  induction hk : μ s using Nat.strongRecOn generalizing s with
  | ind k ih =>
    by_cases hstep : ∃ s', step s s'
    · obtain ⟨s', hstep⟩ := hstep
      obtain ⟨t, hrun, ht, hfinal⟩ := ih _ (hk ▸ hless s s' hs hstep) (hinv s s' hs hstep) rfl
      exact ⟨t, hrun.head hstep, ht, hfinal⟩
    · exact ⟨s, .refl, hs, not_exists.mp hstep⟩

/-- A run of `k` steps takes at least `k` off the measure. -/
theorem add_le_of_run (hinv : ∀ s s', Inv s → step s s' → Inv s')
    (hless : ∀ s s', Inv s → step s s' → μ s' < μ s) (run : ℕ → σ) (h0 : Inv (run 0)) (k : ℕ)
    (hrun : ∀ i < k, step (run i) (run (i + 1))) : Inv (run k) ∧ μ (run k) + k ≤ μ (run 0) := by
  induction k with
  | zero => exact ⟨h0, le_rfl⟩
  | succ k ih =>
    obtain ⟨hk, hle⟩ := ih fun i hi => hrun i (by omega)
    have hstep := hrun k (Nat.lt_succ_self k)
    have hlt := hless _ _ hk hstep
    exact ⟨hinv _ _ hk hstep, by omega⟩

theorem no_infinite_run (hinv : ∀ s s', Inv s → step s s' → Inv s')
    (hless : ∀ s s', Inv s → step s s' → μ s' < μ s) {s : σ} (hs : Inv s) :
    ¬ ∃ run : ℕ → σ, run 0 = s ∧ ∀ i, step (run i) (run (i + 1)) := by
  rintro ⟨run, rfl, hrun⟩
  have hle := (add_le_of_run hinv hless run hs (μ (run 0) + 1) fun i _ => hrun i).2
  omega

end BoundedRuns
