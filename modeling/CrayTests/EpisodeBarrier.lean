import Mathlib.Tactic
import Mathlib.Logic.Relation

/-!
# What a reusable barrier is for

A barrier used over and over by a set of parties. A party joins an episode and leaves it; the only
rule is that nobody leaves an episode that some party has not joined. Whatever implements this
keeps all parties within one episode of each other.
-/

namespace EpisodeBarrier

variable {ι : Type} [DecidableEq ι]

/-- How many episodes every party has joined and left. -/
structure Progress (ι : Type) where
  joined : ι → ℕ
  left : ι → ℕ

def zero : Progress ι := ⟨fun _ => 0, fun _ => 0⟩

inductive Step : Progress ι → Progress ι → Prop
  | join {p : Progress ι} (t : ι) (hin : p.joined t = p.left t) :
      Step p ⟨Function.update p.joined t (p.joined t + 1), p.left⟩
  | leave {p : Progress ι} (t : ι) (hall : ∀ u, p.left t < p.joined u) :
      Step p ⟨p.joined, Function.update p.left t (p.left t + 1)⟩

def Reachable (p : Progress ι) : Prop := Relation.ReflTransGen Step zero p

/-- Nobody has left more episodes than any other party has joined, and nobody has joined more than
one episode without leaving it. -/
structure Sound (p : Progress ι) : Prop where
  left_le : ∀ t u, p.left t ≤ p.joined u
  joined_le : ∀ t, p.joined t ≤ p.left t + 1

variable {p q : Progress ι}

theorem Sound.step (h : Sound p) (hstep : Step p q) : Sound q := by
  cases hstep with
  | join t hin =>
    refine ⟨fun u v => ?_, fun u => ?_⟩
    · by_cases hv : v = t
      · subst hv
        simpa using (h.left_le u v).trans (Nat.le_succ _)
      · simpa [hv] using h.left_le u v
    · by_cases hu : u = t
      · subst hu
        simp [hin]
      · simpa [hu] using h.joined_le u
  | leave t hall =>
    refine ⟨fun u v => ?_, fun u => ?_⟩
    · by_cases hu : u = t
      · subst hu
        simpa using hall v
      · simpa [hu] using h.left_le u v
    · by_cases hu : u = t
      · subst hu
        simpa using (h.joined_le u).trans (Nat.le_succ _)
      · simpa [hu] using h.joined_le u

theorem sound_of_reachable (h : Reachable p) : Sound p := by
  induction h with
  | refl => exact ⟨fun _ _ => le_rfl, fun _ => Nat.zero_le _⟩
  | tail _ hstep ih => exact ih.step hstep

omit [DecidableEq ι] in
theorem Sound.joined_le_joined (h : Sound p) (t u : ι) : p.joined t ≤ p.joined u + 1 :=
  (h.joined_le t).trans (Nat.succ_le_succ (h.left_le t u))

omit [DecidableEq ι] in
theorem Sound.left_le_left (h : Sound p) (t u : ι) : p.left t ≤ p.left u + 1 :=
  (h.left_le t u).trans (h.joined_le u)

end EpisodeBarrier
