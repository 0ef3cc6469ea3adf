import CrayTests.ShiftRegister

/-!
# The random number stream

`POLY`, `PERIOD` and `generate_initial_xor_val` of `random_access.c`. `nextRan` is the statement by
which both the generator and `update_table` go from one number of the stream to the next; the
generator jumps to a given element by repeated squaring.
-/

namespace CrayTests.RandomAccess
open ShiftRegister

abbrev Word := BitVec 64

def poly : Word := 7

def period : ℕ := 1317624576693539401

def nextRan (ran : Word) : Word := (ran <<< 1) ^^^ (if ran.toInt < 0 then poly else 0)

def reduceSeed (seed : ℕ) : ℕ :=
  if period < seed then reduceSeed (seed - period) else seed
termination_by seed
decreasing_by
  have : 0 < period := by decide
  omega

/-- The entries of `m2` from `temp` on. -/
def squaresFrom : ℕ → Word → List Word
  | 0, _ => []
  | n + 1, temp => temp :: squaresFrom n (nextRan (nextRan temp))

def m2 : List Word := squaresFrom 64 1

/-- `for (i = n - 1; i >= 0; i--) if ((seed >> i) & 1) break;` -/
def topBit (seed : ℕ) : ℕ → ℤ
  | 0 => -1
  | i + 1 => if (seed >>> i) &&& 1 = 1 then i else topBit seed i

def squareLoop (ret : Word) : ℕ → Word
  | 0 => 0
  | j + 1 => squareLoop ret j ^^^ (if (ret >>> j) &&& 1 = 1 then m2.getD j 0 else 0)

def jumpLoop (seed : ℕ) : ℕ → Word → Word
  | 0, ret => ret
  | i + 1, ret =>
    let ret := squareLoop ret 64
    jumpLoop seed i (if (seed >>> i) &&& 1 = 1 then nextRan ret else ret)

/-- The loops of `generate_initial_xor_val` for a reduced nonzero seed. -/
def jump (seed : ℕ) : Word := jumpLoop seed (topBit seed 63).toNat 2

def generateInitialXorVal (seed : ℕ) : Word :=
  let seed := reduceSeed seed
  if seed = 0 then 1 else jump seed

theorem nextRan_eq_step : nextRan = step poly := by
  funext v
  rw [nextRan, step, BitVec.msb_eq_toInt]
  simp

theorem poly_getLsbD_zero : poly.getLsbD 0 = true := by decide

/-- The one equation about `POLY` that squaring rests on. -/
theorem square_poly : square poly poly = (step poly)^[2 * 64] 1 := by decide +kernel

theorem squaresFrom_eq (n : ℕ) (temp : Word) :
    squaresFrom n temp = (List.range n).map (fun j => (step poly)^[2 * j] temp) := by
  induction n generalizing temp with
  | zero => rfl
  | succ n ih =>
    rw [squaresFrom, ih, List.range_succ_eq_map, List.map_cons, List.map_map, nextRan_eq_step]
    congr 1

theorem getD_m2 {j : ℕ} (hj : j < 64) : m2.getD j 0 = (step poly)^[2 * j] 1 := by
  rw [m2, squaresFrom_eq, List.getD_eq_getElem?_getD, List.getElem?_map]
  simp [hj]

/-- `(ret >> j) & 1` reads bit `j`. -/
theorem shiftRight_and_one (v : Word) (j : ℕ) :
    (v >>> j) &&& 1 = 1 ↔ v.getLsbD j = true := by
  constructor
  · intro h
    have hbit := congrArg (BitVec.getLsbD · 0) h
    simpa using hbit
  · intro h
    apply BitVec.eq_of_getLsbD_eq
    intro i hi
    by_cases h0 : i = 0
    · subst h0
      simpa using h
    · simp [BitVec.getLsbD_one, h0]

theorem squareLoop_eq (ret : Word) {n : ℕ} (hn : n ≤ 64) :
    squareLoop ret n = select (fun j => (step poly)^[2 * j] 1) ret n := by
  induction n with
  | zero => rfl
  | succ j ih =>
    rw [squareLoop, select, ih (by omega), getD_m2 (by omega)]
    simp only [shiftRight_and_one]

theorem squareLoop_iterate (n : ℕ) :
    squareLoop ((step poly)^[n] 1) 64 = (step poly)^[2 * n] 1 := by
  rw [squareLoop_eq _ le_rfl]
  exact square_iterate poly square_poly n

/-- While the loop runs, `ret` is the power given by the leading bits of the seed. -/
theorem jumpLoop_eq (seed i : ℕ) :
    jumpLoop seed i ((step poly)^[seed >>> i] 1) = (step poly)^[seed] 1 := by
  induction i with
  | zero => rfl
  | succ i ih =>
    have hbits : seed >>> i = 2 * (seed >>> (i + 1)) + (seed >>> i) % 2 := by
      rw [Nat.shiftRight_succ]
      omega
    rw [jumpLoop, squareLoop_iterate, Nat.and_one_is_mod]
    split_ifs with hbit
    · rw [nextRan_eq_step, ← Function.iterate_succ_apply' (step poly)]
      rw [show (2 * (seed >>> (i + 1))).succ = seed >>> i by omega]
      exact ih
    · rw [show 2 * (seed >>> (i + 1)) = seed >>> i by omega]
      exact ih

theorem topBit_eq {seed n : ℕ} (h0 : seed ≠ 0) (hn : seed < 2 ^ n) :
    0 ≤ topBit seed n ∧ seed >>> (topBit seed n).toNat = 1 := by
  induction n with
  | zero => omega
  | succ n ih =>
    have hlt : seed >>> n < 2 := by
      rw [Nat.shiftRight_eq_div_pow]
      exact Nat.div_lt_of_lt_mul (by rw [← pow_succ]; exact hn)
    rw [topBit, Nat.and_one_is_mod]
    rcases Nat.lt_succ_iff_lt_or_eq.mp hlt with hzero | hone
    · rw [Nat.lt_one_iff] at hzero
      rw [hzero, if_neg (by decide)]
      rw [Nat.shiftRight_eq_div_pow] at hzero
      exact ih ((Nat.div_eq_zero_iff_lt (by positivity)).mp hzero)
    · rw [hone, if_pos rfl]
      exact ⟨Int.natCast_nonneg n, hone⟩

theorem jump_eq {seed : ℕ} (h0 : seed ≠ 0) (h : seed < 2 ^ 63) :
    jump seed = (step poly)^[seed] 1 := by
  have htop := (topBit_eq h0 h).2
  have hloop := jumpLoop_eq seed (topBit seed 63).toNat
  rw [htop] at hloop
  exact hloop

theorem iterate_period : (step poly)^[period] 1 = 1 := by
  rw [← jump_eq (by decide) (by decide)]
  decide +kernel

theorem reduceSeed_spec (seed : ℕ) :
    reduceSeed seed ≤ period ∧ ∃ q, seed = reduceSeed seed + q * period := by
  induction seed using Nat.strongRecOn with
  | ind seed ih =>
    rw [reduceSeed]
    split_ifs with h
    · have hpos : 0 < period := by decide
      obtain ⟨hle, q, hq⟩ := ih (seed - period) (by omega)
      refine ⟨hle, q + 1, ?_⟩
      rw [Nat.add_mul, Nat.one_mul]
      omega
    · exact ⟨by omega, 0, by omega⟩

/-- The generator jumps to element `seed` of the stream, for every `uint64_t` seed. -/
theorem generateInitialXorVal_eq (seed : ℕ) :
    generateInitialXorVal seed = (step poly)^[seed] 1 := by
  obtain ⟨hle, q, hq⟩ := reduceSeed_spec seed
  have hcycle : (step poly)^[seed] 1 = (step poly)^[reduceSeed seed] 1 := by
    conv_lhs => rw [hq]
    rw [Function.iterate_add_apply, Nat.mul_comm, Function.iterate_mul,
      Function.iterate_fixed iterate_period]
  rw [hcycle]
  unfold generateInitialXorVal
  by_cases h0 : reduceSeed seed = 0
  · rw [if_pos h0, h0]
    rfl
  · rw [if_neg h0]
    exact jump_eq h0 (hle.trans_lt (by decide))

/-- Jumping ahead is the same as drawing one number after the other. -/
theorem jumpAhead_eq_iterate (seed : ℕ) : generateInitialXorVal seed = nextRan^[seed] 1 := by
  rw [generateInitialXorVal_eq, nextRan_eq_step]

end CrayTests.RandomAccess
