import Mathlib.Tactic

/-!
# Conversions between C integer types

Values are mathematical integers. `int32` is the conversion to `int` and the two's complement
result of arithmetic on `int`, `int64` the same for `int64_t`; `uint64` is the conversion to
`uint64_t` and `size_t`.
-/

namespace CInteger

def int32 (x : ℤ) : ℤ := Int.bmod x (2 ^ 32)

def int64 (x : ℤ) : ℤ := Int.bmod x (2 ^ 64)

def uint64 (x : ℤ) : ℕ := (x % 2 ^ 64).toNat

/-- `int32 x` is the only `int` congruent to `x` modulo `2 ^ 32`. -/
theorem int32_eq_iff {x y : ℤ} :
    int32 x = y ↔ -2 ^ 31 ≤ y ∧ y < 2 ^ 31 ∧ (2 ^ 32 : ℤ) ∣ x - y := by
  unfold int32
  rw [Int.bmod_def]
  push_cast
  split_ifs <;> omega

theorem int32_range (x : ℤ) : -2 ^ 31 ≤ int32 x ∧ int32 x < 2 ^ 31 :=
  ⟨(int32_eq_iff.mp rfl).1, (int32_eq_iff.mp rfl).2.1⟩

theorem int32_eq_self {x : ℤ} (hlo : -2 ^ 31 ≤ x) (hhi : x < 2 ^ 31) : int32 x = x :=
  int32_eq_iff.mpr ⟨hlo, hhi, by simp⟩

theorem int32_natCast {x : ℕ} (h : x < 2 ^ 31) : int32 x = x :=
  int32_eq_self (by omega) (by exact_mod_cast h)

theorem int64_eq_self {x : ℤ} (hlo : -2 ^ 63 ≤ x) (hhi : x < 2 ^ 63) : int64 x = x := by
  unfold int64
  rw [Int.bmod_def]
  push_cast
  split_ifs <;> omega

theorem uint64_natCast {x : ℕ} (h : x < 2 ^ 64) : uint64 x = x := by
  unfold uint64
  omega

theorem natCast_uint64 (x : ℤ) : (uint64 x : ℤ) = x % 2 ^ 64 := by
  unfold uint64
  omega

end CInteger
