import Mathlib.Tactic
import Mathlib.Algebra.BigOperators.Group.Finset.Basic

/-!
# Intervals laid end to end

A table is cut into tiles: tile `r` has `len r` entries and starts where tile `r - 1` ends. What is
summed or listed tile by tile is summed or listed over the table.
-/

namespace Tiling

/-- `start` gives the starts of tiles with lengths `len`. -/
structure Tiles (start len : ℕ → ℕ) : Prop where
  zero : start 0 = 0
  succ : ∀ r, start (r + 1) = start r + len r

namespace Tiles

variable {start len : ℕ → ℕ} (h : Tiles start len)
include h

theorem mul (c : ℕ) : Tiles (fun r => c * start r) (fun r => c * len r) where
  zero := by rw [h.zero, Nat.mul_zero]
  succ r := by rw [h.succ, Nat.mul_add]

theorem monotone : Monotone start := monotone_nat_of_le_succ (fun r => by
  rw [h.succ]
  exact Nat.le_add_right _ _)

theorem sum_eq {M : Type} [AddCommMonoid M] (F : ℕ → M) (n : ℕ) :
    ∑ r ∈ Finset.range n, ∑ i ∈ Finset.range (len r), F (start r + i) =
      ∑ m ∈ Finset.range (start n), F m := by
  induction n with
  | zero => simp [h.zero]
  | succ n ih => rw [Finset.sum_range_succ, ih, h.succ, Finset.sum_range_add]

theorem flatMap_eq {α : Type} (f : ℕ → α) (n : ℕ) :
    (List.range n).flatMap (fun r => (List.range (len r)).map (fun i => f (start r + i))) =
      (List.range (start n)).map f := by
  induction n with
  | zero => simp [h.zero]
  | succ n ih =>
    rw [List.range_succ, List.flatMap_append, ih, h.succ, List.range_add, List.map_append,
      List.map_map]
    simp only [List.flatMap_cons, List.flatMap_nil, List.append_nil]
    rfl

/-- Every entry lies in a tile. -/
theorem exists_tile {g n : ℕ} (hg : g < start n) :
    ∃ r < n, start r ≤ g ∧ g < start r + len r := by
  induction n with
  | zero => rw [h.zero] at hg; omega
  | succ n ih =>
    by_cases hn : g < start n
    · obtain ⟨r, hr, hin⟩ := ih hn
      exact ⟨r, hr.trans (Nat.lt_succ_self n), hin⟩
    · refine ⟨n, Nat.lt_succ_self n, by omega, ?_⟩
      rw [← h.succ]
      exact hg

/-- An entry lies in one tile only. -/
theorem tile_unique {g r q : ℕ} (hr : start r ≤ g ∧ g < start r + len r)
    (hq : start q ≤ g ∧ g < start q + len q) : r = q := by
  rcases lt_trichotomy r q with hlt | heq | hlt
  · have := h.monotone (Nat.succ_le_of_lt hlt)
    rw [Nat.succ_eq_add_one, h.succ] at this
    omega
  · exact heq
  · have := h.monotone (Nat.succ_le_of_lt hlt)
    rw [Nat.succ_eq_add_one, h.succ] at this
    omega

end Tiles

section Blocks

variable {α β : Type*} {f : α → List β} {len : ℕ} {l : List α}

theorem length_flatMap_of_length_eq (h : ∀ a ∈ l, (f a).length = len) :
    (l.flatMap f).length = l.length * len := by
  induction l with
  | nil => simp
  | cons a l ih =>
    rw [List.flatMap_cons, List.length_append, h a List.mem_cons_self,
      ih fun b hb => h b (List.mem_cons_of_mem a hb), List.length_cons]
    ring

/-- Block `i` is cut out of the blocks laid end to end. -/
theorem take_drop_flatMap (h : ∀ a ∈ l, (f a).length = len) {i : ℕ} (hi : i < l.length) :
    ((l.flatMap f).drop (i * len)).take len = f l[i] := by
  induction l generalizing i with
  | nil => cases hi
  | cons a l ih =>
    have ha := h a List.mem_cons_self
    rw [List.flatMap_cons]
    cases i with
    | zero =>
      rw [Nat.zero_mul, List.drop_zero, List.take_left' ha]
      rfl
    | succ i =>
      rw [Nat.succ_mul, Nat.add_comm, ← List.drop_drop, List.drop_left' ha,
        ih (fun b hb => h b (List.mem_cons_of_mem a hb)) (Nat.lt_of_succ_lt_succ hi)]
      rfl

end Blocks

end Tiling
