import Mathlib.Tactic

/-!
# A buffer that doubles when it is full

A full buffer doubles its size up to a bound, or is emptied where it may not double or the
allocation fails. Either way its size says how much it takes next, so the outcomes of the
allocations determine how much text fills it for the `k`-th time.
-/

namespace DoublingBuffer

/-- The size when the buffer is full for the `k`-th time, with `ok` the outcomes of the
allocations from now on. -/
def sizeAt (bound : ℕ) (ok : ℕ → Bool) (sz k : ℕ) : ℕ :=
  min bound (sz * 2 ^ Nat.count (fun j => ok j) k)

def GrowsAt (bound : ℕ) (ok : ℕ → Bool) (sz k : ℕ) : Prop := sizeAt bound ok sz k < bound ∧ ok k

instance (bound : ℕ) (ok : ℕ → Bool) (sz k : ℕ) : Decidable (GrowsAt bound ok sz k) :=
  inferInstanceAs (Decidable (_ ∧ _))

/-- What the buffer takes, from empty, until it is full for the `k`-th time. -/
def roomUntil (bound : ℕ) (ok : ℕ → Bool) (sz k : ℕ) : ℕ :=
  sz + ∑ j ∈ Finset.range k, sizeAt bound ok sz j

/-- How often the buffer was emptied before it is full for the `k`-th time. -/
def emptied (bound : ℕ) (ok : ℕ → Bool) (sz k : ℕ) : ℕ :=
  Nat.count (fun j => ¬ GrowsAt bound ok sz j) k

variable {bound sz : ℕ} (ok : ℕ → Bool)

theorem sizeAt_zero (hsz : sz ≤ bound) : sizeAt bound ok sz 0 = sz := by
  simp [sizeAt, hsz]

theorem growsAt_zero (hsz : sz ≤ bound) : GrowsAt bound ok sz 0 ↔ sz < bound ∧ ok 0 := by
  rw [GrowsAt, sizeAt_zero ok hsz]

theorem le_roomUntil (bound sz k : ℕ) : sz ≤ roomUntil bound ok sz k := Nat.le_add_right _ _

section Grown

variable {ok} (hsz : 2 * sz ≤ bound) (hpos : 0 < sz) (hok : ok 0)
include hsz hpos hok

omit hsz hpos in
theorem sizeAt_succ_of_grown (bound sz k : ℕ) :
    sizeAt bound ok sz (k + 1) = sizeAt bound (fun j => ok (j + 1)) (2 * sz) k := by
  unfold sizeAt
  rw [Nat.count_succ', if_pos hok, pow_succ']
  congr 1
  ring

omit hsz hpos in
theorem growsAt_succ_of_grown (bound sz k : ℕ) :
    GrowsAt bound ok sz (k + 1) ↔ GrowsAt bound (fun j => ok (j + 1)) (2 * sz) k := by
  rw [GrowsAt, GrowsAt, sizeAt_succ_of_grown hok]

omit hpos in
theorem roomUntil_succ_of_grown (k : ℕ) :
    roomUntil bound ok sz (k + 1) = roomUntil bound (fun j => ok (j + 1)) (2 * sz) k := by
  unfold roomUntil
  rw [Finset.sum_range_succ']
  simp only [sizeAt_succ_of_grown hok]
  rw [sizeAt_zero ok (by omega)]
  omega

theorem emptied_succ_of_grown (k : ℕ) :
    emptied bound ok sz (k + 1) = emptied bound (fun j => ok (j + 1)) (2 * sz) k := by
  have hgrows : GrowsAt bound ok sz 0 := (growsAt_zero ok (by omega)).mpr ⟨by omega, hok⟩
  unfold emptied
  rw [Nat.count_succ', if_neg (not_not_intro hgrows), Nat.add_zero]
  simp only [growsAt_succ_of_grown hok]

end Grown

section Emptied

variable {ok} (hsz : sz ≤ bound) (hne : ¬ (sz < bound ∧ ok 0))
include hsz hne

theorem sizeAt_succ_of_emptied (k : ℕ) :
    sizeAt bound ok sz (k + 1) = sizeAt bound (fun j => ok (j + 1)) sz k := by
  unfold sizeAt
  rw [Nat.count_succ']
  by_cases hok : ok 0
  · obtain rfl : sz = bound := le_antisymm hsz (not_lt.mp fun hlt => hne ⟨hlt, hok⟩)
    rw [min_eq_left (Nat.le_mul_of_pos_right _ (by positivity)),
      min_eq_left (Nat.le_mul_of_pos_right _ (by positivity))]
  · rw [if_neg hok, Nat.add_zero]

theorem growsAt_succ_of_emptied (k : ℕ) :
    GrowsAt bound ok sz (k + 1) ↔ GrowsAt bound (fun j => ok (j + 1)) sz k := by
  rw [GrowsAt, GrowsAt, sizeAt_succ_of_emptied hsz hne]

theorem roomUntil_succ_of_emptied (k : ℕ) :
    roomUntil bound ok sz (k + 1) = sz + roomUntil bound (fun j => ok (j + 1)) sz k := by
  unfold roomUntil
  rw [Finset.sum_range_succ']
  simp only [sizeAt_succ_of_emptied hsz hne]
  rw [sizeAt_zero ok hsz]
  omega

theorem emptied_succ_of_emptied (k : ℕ) :
    emptied bound ok sz (k + 1) = emptied bound (fun j => ok (j + 1)) sz k + 1 := by
  have hgrows : ¬ GrowsAt bound ok sz 0 := fun h => hne ((growsAt_zero ok hsz).mp h)
  unfold emptied
  rw [Nat.count_succ', if_pos hgrows]
  simp only [growsAt_succ_of_emptied hsz hne]

end Emptied

end DoublingBuffer
