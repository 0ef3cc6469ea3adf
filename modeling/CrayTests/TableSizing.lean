import CrayTests.TableLayout
import Mathlib.Algebra.Order.Floor.Semifield

/-!
# The size of the distributed table

`random_access` takes the table size from the memory of all ranks: it doubles the size as often as
`total_mem`, a number of words, can be halved before it drops below 1. `total_mem` is a `double`. For
memories below `2 ^ 53` bytes each of its values is exact, so it is a rational number here.
-/

namespace CrayTests.RandomAccess
open CInteger Finset

/-- The bytes per PE: `total_mem_opt`, or the default where it is not set. -/
def effectiveMem (totalMemOpt : ℕ) : ℕ := if totalMemOpt ≠ 0 then totalMemOpt else 200000

/-- `total_mem` in words, before the loop. -/
def totalMem (totalMemOpt numRanks : ℕ) : ℚ := (effectiveMem totalMemOpt : ℚ) * numRanks / 8

/-- The rounds of the loop; the results are `log_table_size` and `table_size`. -/
def sizingLoop (totalMem : ℚ) (logTableSize tableSize : ℕ) : ℕ × ℕ :=
  if 1 ≤ totalMem then
    sizingLoop (totalMem * (1 / 2)) (uint64 (logTableSize + 1 : ℕ)) (uint64 (2 * tableSize : ℕ))
  else (logTableSize, tableSize)
termination_by ⌊totalMem⌋₊
decreasing_by
  rename_i h
  have hfloor : 1 ≤ ⌊totalMem⌋₊ := Nat.le_floor (by exact_mod_cast h)
  rw [Nat.floor_lt (by linarith)]
  have := Nat.lt_floor_add_one totalMem
  have : (1 : ℚ) ≤ ⌊totalMem⌋₊ := by exact_mod_cast hfloor
  linarith

/-- `total_mem` is halved once before it is tested. -/
def tableSizes (totalMemOpt numRanks : ℕ) : ℕ × ℕ :=
  sizingLoop (totalMem totalMemOpt numRanks * (1 / 2)) 0 1

def sizedLayout (totalMemOpt numRanks : ℕ) (hpos : 0 < numRanks) (hint : numRanks < 2 ^ 31) :
    Layout where
  numRanks := numRanks
  logTableSize := (tableSizes totalMemOpt numRanks).1
  ranks_pos := hpos
  ranks_int := hint

/-- The loop doubles the size as often as the memory can be halved. -/
theorem sizingLoop_eq (x : ℚ) (log size : ℕ) (hx : 0 < x) (hsize : size = 2 ^ log)
    (hfits : x * 2 ^ log < 2 ^ 62) :
    ∃ k, sizingLoop x log size = (log + k, 2 ^ (log + k)) ∧ x < 2 ^ k ∧
      (0 < k → (2 : ℚ) ^ k ≤ 2 * x) := by
  fun_induction sizingLoop x log size with
  | case1 x log size hle ih =>
    subst hsize
    have hpow : (2 : ℚ) ^ log < 2 ^ 62 := by
      have : (0 : ℚ) < 2 ^ log := by positivity
      nlinarith
    have hlog : log < 62 := (pow_lt_pow_iff_right₀ one_lt_two).mp hpow
    have hlog64 : uint64 (log + 1 : ℕ) = log + 1 := uint64_natCast (by omega)
    have hsize64 : uint64 (2 * 2 ^ log : ℕ) = 2 ^ (log + 1) := by
      rw [← Nat.pow_succ']
      exact uint64_natCast (Nat.pow_lt_pow_right (by norm_num) (by omega))
    rw [hlog64, hsize64] at ih ⊢
    obtain ⟨k, hloop, hlt, hhalf⟩ := ih (by linarith) rfl (by rw [pow_succ]; linarith)
    refine ⟨k + 1, by rw [hloop]; simp only [Nat.add_assoc, Nat.add_comm 1], ?_, fun _ => ?_⟩
    · rw [pow_succ]
      linarith
    · rcases Nat.eq_zero_or_pos k with rfl | hk
      · simpa using hle
      · have := hhalf hk
        rw [pow_succ]
        linarith
  | case2 x log size hlt =>
    subst hsize
    exact ⟨0, rfl, by simpa using hlt, fun h => absurd h (Nat.lt_irrefl 0)⟩

variable {totalMemOpt numRanks : ℕ}

theorem one_le_effectiveMem (totalMemOpt : ℕ) : 1 ≤ effectiveMem totalMemOpt := by
  unfold effectiveMem
  split_ifs <;> omega

theorem totalMem_pos (totalMemOpt : ℕ) {numRanks : ℕ} (hpos : 0 < numRanks) :
    0 < totalMem totalMemOpt numRanks := by
  have hm : (0 : ℚ) < effectiveMem totalMemOpt := by exact_mod_cast one_le_effectiveMem _
  have hr : (0 : ℚ) < numRanks := by exact_mod_cast hpos
  unfold totalMem
  positivity

/-- The exponent is the largest one whose power of two does not exceed the memory in words, or 0. -/
theorem tableSizes_eq (hpos : 0 < numRanks) (hfits : effectiveMem totalMemOpt * numRanks < 2 ^ 53) :
    ∃ k, tableSizes totalMemOpt numRanks = (k, 2 ^ k) ∧
      totalMem totalMemOpt numRanks < 2 ^ (k + 1) ∧
      (0 < k → (2 : ℚ) ^ k ≤ totalMem totalMemOpt numRanks) := by
  have hmem := totalMem_pos totalMemOpt hpos
  have hbound : totalMem totalMemOpt numRanks < 2 ^ 50 := by
    have : (effectiveMem totalMemOpt : ℚ) * numRanks < 2 ^ 53 := by exact_mod_cast hfits
    unfold totalMem
    linarith
  obtain ⟨k, hloop, hlt, hhalf⟩ := sizingLoop_eq (totalMem totalMemOpt numRanks * (1 / 2)) 0 1
    (by linarith) rfl (by linarith)
  refine ⟨k, by simpa [tableSizes] using hloop, ?_, fun hk => ?_⟩
  · rw [pow_succ]
    linarith
  · have := hhalf hk
    linarith

theorem isGreatest_power {x : ℚ} {k : ℕ} (hle : 2 ^ k ≤ x) (hlt : x < 2 ^ (k + 1)) :
    IsGreatest {p : ℕ | (∃ j, p = 2 ^ j) ∧ (p : ℚ) ≤ x} (2 ^ k) := by
  refine ⟨⟨⟨k, rfl⟩, by exact_mod_cast hle⟩, ?_⟩
  rintro p ⟨⟨j, rfl⟩, hj⟩
  push_cast at hj
  have hexp : j < k + 1 := (pow_lt_pow_iff_right₀ one_lt_two).mp (hj.trans_lt hlt)
  exact Nat.pow_le_pow_right (by norm_num) (by omega)

namespace Layout

variable (l : Layout)

theorem sum_localTableSize : ∑ rank ∈ range l.numRanks, l.localTableSize rank = l.tableSize := by
  have h := l.tiles.sum_eq (fun _ => 1) l.numRanks
  simpa [l.globalStart_numRanks] using h

theorem localTableSize_le_succ (rank peer : ℕ) :
    l.localTableSize rank ≤ l.localTableSize peer + 1 := by
  unfold localTableSize
  split_ifs <;> omega

/-- No rank has more words than its share, rounded up. -/
theorem localTableSize_le_of_share {words : ℕ} (rank : ℕ)
    (h : l.tableSize ≤ l.numRanks * words) : l.localTableSize rank ≤ words := by
  have hmin := l.min_mul_add_remainder
  rw [Nat.mul_comm l.numRanks] at h
  unfold localTableSize
  split_ifs with hrank
  · by_contra hlt
    have hle : words * l.numRanks ≤ l.minLocalTableSize * l.numRanks :=
      Nat.mul_le_mul_right _ (by omega)
    omega
  · exact Nat.le_of_mul_le_mul_right (by omega) l.ranks_pos

end Layout

/-- The words that the ranks have room for, each rounded up, cover the table. -/
theorem power_le_share {k : ℕ} (hpos : 0 < numRanks)
    (hle : 0 < k → (2 : ℚ) ^ k ≤ totalMem totalMemOpt numRanks) :
    2 ^ k ≤ numRanks * ⌈(effectiveMem totalMemOpt : ℚ) / 8⌉₊ := by
  have hmem : (1 : ℚ) ≤ effectiveMem totalMemOpt := by exact_mod_cast one_le_effectiveMem _
  rcases Nat.eq_zero_or_pos k with rfl | hk
  · exact Nat.mul_le_mul hpos (Nat.one_le_ceil_iff.mpr (by linarith))
  · have hceil : (2 : ℚ) ^ k ≤ numRanks * ⌈(effectiveMem totalMemOpt : ℚ) / 8⌉₊ := by
      calc (2 : ℚ) ^ k ≤ totalMem totalMemOpt numRanks := hle hk
        _ = numRanks * ((effectiveMem totalMemOpt : ℚ) / 8) := by rw [totalMem]; ring
        _ ≤ numRanks * ⌈(effectiveMem totalMemOpt : ℚ) / 8⌉₊ :=
            mul_le_mul_of_nonneg_left (Nat.le_ceil _) (Nat.cast_nonneg _)
    exact_mod_cast hceil

/-- What the sizes of a run promise about the memory of its ranks. -/
structure RespectsMemory (mem : ℕ) (l : Layout) (tableSize : ℕ) : Prop where
  power : tableSize = 2 ^ l.logTableSize
  largest : 8 ≤ mem * l.numRanks →
    IsGreatest {p : ℕ | (∃ k, p = 2 ^ k) ∧ (p : ℚ) ≤ mem * l.numRanks / 8} tableSize
  smallest : mem * l.numRanks < 8 → tableSize = 1
  sum : ∑ rank ∈ range l.numRanks, l.localTableSize rank = tableSize
  balanced : ∀ rank < l.numRanks, ∀ peer < l.numRanks,
    l.localTableSize rank ≤ l.localTableSize peer + 1
  bounded : ∀ rank < l.numRanks, l.localTableSize rank ≤ ⌈(mem : ℚ) / 8⌉₊

/-- For every memory per PE and every number of ranks for which the arithmetic on `total_mem` is
exact, the table fits the memory of the ranks. -/
theorem sizes_respect_memory (totalMemOpt numRanks : ℕ) (hpos : 0 < numRanks)
    (hint : numRanks < 2 ^ 31) (hexact : effectiveMem totalMemOpt * numRanks < 2 ^ 53) :
    RespectsMemory (effectiveMem totalMemOpt) (sizedLayout totalMemOpt numRanks hpos hint)
      (tableSizes totalMemOpt numRanks).2 := by
  obtain ⟨k, hsizes, hlt, hle⟩ := tableSizes_eq hpos hexact
  have hlog : (sizedLayout totalMemOpt numRanks hpos hint).logTableSize = k := by
    rw [sizedLayout, hsizes]
  have htable : (sizedLayout totalMemOpt numRanks hpos hint).tableSize = 2 ^ k := by
    rw [Layout.tableSize, hlog]
  have hranks : (sizedLayout totalMemOpt numRanks hpos hint).numRanks = numRanks := rfl
  rw [hsizes]
  constructor
  · rw [hlog]
  · intro hbig
    have hone : (1 : ℚ) ≤ totalMem totalMemOpt numRanks := by
      have : (8 : ℚ) ≤ effectiveMem totalMemOpt * numRanks := by exact_mod_cast hbig
      unfold totalMem
      linarith
    refine isGreatest_power (x := totalMem totalMemOpt numRanks) ?_ hlt
    rcases Nat.eq_zero_or_pos k with rfl | hk
    · rwa [pow_zero]
    · exact hle hk
  · intro hsmall
    rcases Nat.eq_zero_or_pos k with rfl | hk
    · rfl
    · have hone : (1 : ℚ) ≤ 2 ^ k := one_le_pow₀ (by norm_num)
      have : (effectiveMem totalMemOpt : ℚ) * numRanks < 8 := by exact_mod_cast hsmall
      have := hle hk
      unfold totalMem at this
      linarith
  · rw [Layout.sum_localTableSize, htable]
  · exact fun rank _ peer _ => Layout.localTableSize_le_succ _ rank peer
  · intro rank _
    apply Layout.localTableSize_le_of_share
    rw [htable, hranks]
    exact power_le_share hpos hle

/-- Three ranks with 100 bytes each. -/
theorem sizes_respect_memory_threeRanks :
    RespectsMemory (effectiveMem 100) (sizedLayout 100 3 (by decide) (by decide))
      (tableSizes 100 3).2 :=
  sizes_respect_memory 100 3 (by decide) (by decide) (by decide)

end CrayTests.RandomAccess
