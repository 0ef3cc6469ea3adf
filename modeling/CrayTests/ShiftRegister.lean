import Mathlib.Tactic
import Mathlib.Dynamics.PeriodicPts.Defs

/-!
# Linear feedback shift registers

`step poly` multiplies a word, read as a polynomial over the field with two elements, by `x`
modulo `x ^ w + poly`. It is additive, so squaring is as well and can be done bit by bit from the
even powers of `x`. Only one equation about `poly` is needed for this to be right on all powers of
`x`: that squaring gives the right answer on `poly` itself.
-/

namespace ShiftRegister

variable {w : ℕ} (poly : BitVec w)

def step (v : BitVec w) : BitVec w := (v <<< 1) ^^^ (if v.msb then poly else 0)

/-- The sum of the words `m j` over the bits `j < k` that are set in `v`. -/
def select (m : ℕ → BitVec w) (v : BitVec w) : ℕ → BitVec w
  | 0 => 0
  | k + 1 => select m v k ^^^ (if v.getLsbD k then m k else 0)

def square (v : BitVec w) : BitVec w := select (fun j => (step poly)^[2 * j] 1) v w

theorem xor_ite_xor (a b : Bool) (m : BitVec w) :
    (if (a ^^ b) = true then m else 0) =
      (if a = true then m else 0) ^^^ (if b = true then m else 0) := by
  cases a <;> cases b <;> simp

theorem step_zero : step poly 0 = 0 := by
  simp [step]

theorem step_xor (a b : BitVec w) : step poly (a ^^^ b) = step poly a ^^^ step poly b := by
  unfold step
  rw [BitVec.shiftLeft_xor_distrib, BitVec.msb_xor, xor_ite_xor]
  ac_rfl

theorem iterate_zero (n : ℕ) : (step poly)^[n] 0 = 0 :=
  Function.iterate_fixed (step_zero poly) n

theorem iterate_xor (n : ℕ) (a b : BitVec w) :
    (step poly)^[n] (a ^^^ b) = (step poly)^[n] a ^^^ (step poly)^[n] b := by
  induction n generalizing a b with
  | zero => rfl
  | succ n ih => rw [Function.iterate_succ_apply, step_xor, ih]; rfl

theorem select_zero (m : ℕ → BitVec w) (k : ℕ) : select m 0 k = 0 := by
  induction k with
  | zero => rfl
  | succ k ih => simpa [select] using ih

theorem select_xor (m : ℕ → BitVec w) (a b : BitVec w) (k : ℕ) :
    select m (a ^^^ b) k = select m a k ^^^ select m b k := by
  induction k with
  | zero => simp [select]
  | succ k ih =>
    rw [select, select, select, ih, BitVec.getLsbD_xor, xor_ite_xor]
    ac_rfl

/-- Selecting from stepped words steps the selection. -/
theorem select_iterate (m : ℕ → BitVec w) (n : ℕ) (v : BitVec w) (k : ℕ) :
    select (fun j => (step poly)^[n] (m j)) v k = (step poly)^[n] (select m v k) := by
  induction k with
  | zero => exact (iterate_zero poly n).symm
  | succ k ih =>
    rw [select, select, ih, iterate_xor]
    split_ifs
    · rfl
    · rw [iterate_zero]

/-- The lowest bit of the image tells whether `poly` was added. -/
theorem getLsbD_zero_step (hpoly : poly.getLsbD 0 = true) (v : BitVec w) :
    (step poly v).getLsbD 0 = v.msb := by
  unfold step
  rw [BitVec.getLsbD_xor, BitVec.getLsbD_shiftLeft]
  cases v.msb <;> simp [hpoly]

theorem getLsbD_shiftLeft_one {v : BitVec w} {i : ℕ} (h : i + 1 < w) :
    (v <<< 1).getLsbD (i + 1) = v.getLsbD i := by
  rw [BitVec.getLsbD_shiftLeft]
  simp [h]

theorem step_injective (hpoly : poly.getLsbD 0 = true) : Function.Injective (step poly) := by
  intro a b h
  have hmsb : a.msb = b.msb := by
    rw [← getLsbD_zero_step poly hpoly a, h, getLsbD_zero_step poly hpoly b]
  have hshift : a <<< 1 = b <<< 1 := by
    have h' := congrArg (· ^^^ (if b.msb = true then poly else 0)) h
    simpa [step, hmsb, BitVec.xor_assoc] using h'
  apply BitVec.eq_of_getLsbD_eq
  intro i hi
  by_cases htop : i + 1 < w
  · have hbit := congrArg (BitVec.getLsbD · (i + 1)) hshift
    simpa only [getLsbD_shiftLeft_one htop] using hbit
  · have hlast : i = w - 1 := by omega
    rw [BitVec.msb_eq_getLsbD_last, BitVec.msb_eq_getLsbD_last] at hmsb
    rw [hlast, hmsb]

theorem iterate_ne_zero (hpoly : poly.getLsbD 0 = true) {v : BitVec w} (hv : v ≠ 0) (n : ℕ) :
    (step poly)^[n] v ≠ 0 := by
  intro h
  rw [← iterate_zero poly n] at h
  exact hv ((step_injective poly hpoly).iterate n h)

theorem select_shiftLeft (m : ℕ → BitVec w) (v : BitVec w) (k : ℕ) (hk : k < w) :
    select m (v <<< 1) (k + 1) = select (fun j => m (j + 1)) v k := by
  induction k with
  | zero => simp [select]
  | succ k ih =>
    rw [select, ih (by omega), select]
    rw [getLsbD_shiftLeft_one hk]

/-- Squaring turns one step into two. -/
theorem square_step (hsq : square poly poly = (step poly)^[2 * w] 1) (v : BitVec w) :
    square poly (step poly v) = (step poly)^[2] (square poly v) := by
  cases w with
  | zero => exact Subsingleton.elim _ _
  | succ k =>
    have hshift : square poly (v <<< 1) =
        (step poly)^[2] (select (fun j => (step poly)^[2 * j] 1) v k) := by
      rw [square, select_shiftLeft _ _ _ (Nat.lt_succ_self k), ← select_iterate]
      congr 1
      funext j
      rw [← Function.iterate_add_apply]
      congr 1
      ring
    have hpoly : square poly (if v.msb = true then poly else 0) =
        (step poly)^[2] (if v.getLsbD k = true then (step poly)^[2 * k] 1 else 0) := by
      rw [BitVec.msb_eq_getLsbD_last, Nat.add_sub_cancel]
      split_ifs
      · rw [hsq, ← Function.iterate_add_apply]
        congr 1
        ring
      · rw [iterate_zero]
        exact select_zero _ _
    calc square poly (step poly v)
        = square poly (v <<< 1) ^^^ square poly (if v.msb = true then poly else 0) :=
          select_xor _ _ _ _
      _ = (step poly)^[2] (square poly v) := by
          rw [hshift, hpoly, ← iterate_xor]
          rfl

theorem square_one : square poly 1 = 1 := by
  cases w with
  | zero => exact Subsingleton.elim _ _
  | succ k =>
    have key (l : ℕ) : select (fun j => (step poly)^[2 * j] 1) 1 (l + 1) = 1 := by
      induction l with
      | zero => simp [select]
      | succ l ih =>
        rw [select, ih]
        simp [BitVec.getLsbD_one]
    exact key k

theorem square_iterate (hsq : square poly poly = (step poly)^[2 * w] 1) (n : ℕ) :
    square poly ((step poly)^[n] 1) = (step poly)^[2 * n] 1 := by
  induction n with
  | zero => exact square_one poly
  | succ n ih =>
    rw [Function.iterate_succ_apply', square_step poly hsq, ih, ← Function.iterate_add_apply]
    congr 1
    ring

theorem eq_of_dvd_of_not_dvd_div {d n : ℕ} (hn : n ≠ 0) (hd : d ∣ n)
    (h : ∀ p, p.Prime → p ∣ n → ¬ d ∣ n / p) : d = n := by
  obtain ⟨q, rfl⟩ := hd
  by_cases hq : q = 1
  · rw [hq, mul_one]
  · obtain ⟨p, hp, c, rfl⟩ := Nat.exists_prime_and_dvd hq
    refine (h p hp ⟨d * c, by ring⟩ ⟨c, ?_⟩).elim
    rw [show d * (p * c) = p * (d * c) by ring, Nat.mul_div_cancel_left _ hp.pos]

/-- A period is exact when no quotient by a prime is one. -/
theorem iterate_eq_iff_dvd {α : Type} {f : α → α} {a : α} {n : ℕ} (hn : n ≠ 0)
    (hper : f^[n] a = a) (hprime : ∀ p, p.Prime → p ∣ n → f^[n / p] a ≠ a) (m : ℕ) :
    f^[m] a = a ↔ n ∣ m := by
  have hmin : Function.minimalPeriod f a = n := by
    refine eq_of_dvd_of_not_dvd_div hn ?_ (fun p hp hpn hdvd => ?_)
    · exact Function.IsPeriodicPt.minimalPeriod_dvd hper
    · exact hprime p hp hpn (Function.isPeriodicPt_iff_minimalPeriod_dvd.mpr hdvd)
  rw [← hmin]
  exact Function.isPeriodicPt_iff_minimalPeriod_dvd

end ShiftRegister
