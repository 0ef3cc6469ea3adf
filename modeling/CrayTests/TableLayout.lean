import CrayTests.CInteger
import CrayTests.Tiling

/-!
# The distributed table

The sizes computed at the start of `random_access`, and the routing of `update_table` from an
offset in the whole table to a rank and an index into its `hpcc_table`. The sizes are `uint64_t`
and stay in range for tables of at most `2 ^ 61` words; the rank, its start and the index are held
in `int`, where the start wraps for large tables.
-/

namespace CrayTests.RandomAccess
open CInteger Tiling

structure Layout where
  numRanks : ℕ
  logTableSize : ℕ
  ranks_pos : 0 < numRanks
  ranks_int : numRanks < 2 ^ 31

namespace Layout

variable (l : Layout)

def tableSize : ℕ := 2 ^ l.logTableSize

def minLocalTableSize : ℕ := l.tableSize / l.numRanks

def remainder : ℕ := l.tableSize - l.minLocalTableSize * l.numRanks

def numTopTableEntries : ℕ := (l.minLocalTableSize + 1) * l.remainder

def localTableSize (rank : ℕ) : ℕ :=
  if rank < l.remainder then l.minLocalTableSize + 1 else l.minLocalTableSize

/-- `global_start_my_proc` of a rank. -/
def globalStart (rank : ℕ) : ℕ :=
  if rank < l.remainder then (l.minLocalTableSize + 1) * rank
  else l.minLocalTableSize * rank + l.remainder

/-- `remote_pe` and `index` of a global offset. -/
def route (globalOffset : ℕ) : ℤ × ℤ :=
  let (remotePe, globalStartAtPe) :=
    if globalOffset < l.numTopTableEntries then
      let remotePe := int32 (globalOffset / (l.minLocalTableSize + 1) : ℕ)
      (remotePe, int32 (uint64 ((l.minLocalTableSize + 1 : ℕ) * uint64 remotePe)))
    else
      let remotePe := int32 (uint64 (globalOffset - l.remainder) / l.minLocalTableSize : ℕ)
      (remotePe, int32 (uint64 (uint64 (l.minLocalTableSize * uint64 remotePe) + l.remainder)))
  (remotePe, int32 (uint64 (globalOffset - uint64 globalStartAtPe)))

theorem tableSize_pos : 0 < l.tableSize := Nat.two_pow_pos _

theorem remainder_eq_mod : l.remainder = l.tableSize % l.numRanks := by
  have h := Nat.div_add_mod l.tableSize l.numRanks
  rw [Nat.mul_comm] at h
  unfold remainder minLocalTableSize
  omega

theorem remainder_lt : l.remainder < l.numRanks := by
  rw [remainder_eq_mod]
  exact Nat.mod_lt _ l.ranks_pos

theorem min_mul_add_remainder : l.minLocalTableSize * l.numRanks + l.remainder = l.tableSize := by
  have h := Nat.div_mul_le_self l.tableSize l.numRanks
  unfold remainder minLocalTableSize
  omega

/-- The local tables tile the table. -/
theorem tiles : Tiles l.globalStart l.localTableSize where
  zero := by
    unfold globalStart
    split_ifs <;> omega
  succ r := by
    unfold globalStart localTableSize
    rcases lt_trichotomy (r + 1) l.remainder with hlt | heq | hgt
    · rw [if_pos hlt, if_pos (by omega), if_pos (by omega)]
      ring
    · rw [if_neg (by omega), if_pos (by omega), if_pos (by omega), ← heq]
      ring
    · rw [if_neg (by omega), if_neg (by omega), if_neg (by omega)]
      ring

theorem globalStart_numRanks : l.globalStart l.numRanks = l.tableSize := by
  have h := l.remainder_lt
  rw [globalStart, if_neg (by omega), min_mul_add_remainder]

theorem globalStart_le {rank : ℕ} (h : rank ≤ l.numRanks) : l.globalStart rank ≤ l.tableSize := by
  rw [← l.globalStart_numRanks]
  exact l.tiles.monotone h

/-- An offset of a large tile is below the top, and the division finds the tile. -/
theorem div_of_lt_remainder {g rank : ℕ} (htop : rank < l.remainder) (hle : l.globalStart rank ≤ g)
    (hlt : g < l.globalStart rank + l.localTableSize rank) :
    g < l.numTopTableEntries ∧ g / (l.minLocalTableSize + 1) = rank := by
  have hstart : l.globalStart rank = (l.minLocalTableSize + 1) * rank := if_pos htop
  have hlen : l.localTableSize rank = l.minLocalTableSize + 1 := if_pos htop
  constructor
  · have : (l.minLocalTableSize + 1) * (rank + 1) ≤ l.numTopTableEntries :=
      Nat.mul_le_mul_left _ htop
    rw [Nat.mul_succ] at this
    omega
  · rw [Nat.div_eq_iff (by omega)]
    rw [Nat.mul_comm] at hstart
    omega

/-- An offset of a small tile is not below the top, and the division finds the tile. -/
theorem div_of_remainder_le {g rank : ℕ} (htop : ¬ rank < l.remainder)
    (hle : l.globalStart rank ≤ g) (hlt : g < l.globalStart rank + l.localTableSize rank) :
    ¬ g < l.numTopTableEntries ∧ l.remainder ≤ g ∧
      (g - l.remainder) / l.minLocalTableSize = rank := by
  have hstart : l.globalStart rank = l.minLocalTableSize * rank + l.remainder := if_neg htop
  have hlen : l.localTableSize rank = l.minLocalTableSize := if_neg htop
  refine ⟨?_, by omega, ?_⟩
  · have : l.minLocalTableSize * l.remainder ≤ l.minLocalTableSize * rank :=
      Nat.mul_le_mul_left _ (by omega)
    rw [numTopTableEntries, Nat.succ_mul]
    omega
  · rw [Nat.div_eq_iff (by omega)]
    rw [Nat.mul_comm] at hstart
    omega

/-- The rank is found for tables of any size. -/
theorem route_fst {g rank : ℕ} (hrank : rank < l.numRanks) (hg : g < 2 ^ 64)
    (hle : l.globalStart rank ≤ g) (hlt : g < l.globalStart rank + l.localTableSize rank) :
    (l.route g).1 = rank := by
  have hcast : int32 (rank : ℕ) = rank := by
    have hint := l.ranks_int
    exact int32_natCast (by omega)
  by_cases htop : rank < l.remainder
  · obtain ⟨hbelow, hpe⟩ := l.div_of_lt_remainder htop hle hlt
    simp only [route, if_pos hbelow, hpe, hcast]
  · obtain ⟨habove, hrem, hpe⟩ := l.div_of_remainder_le htop hle hlt
    have hsub : uint64 ((g : ℤ) - l.remainder) = g - l.remainder := by
      rw [← Nat.cast_sub hrem]
      exact uint64_natCast (by omega)
    simp only [route, if_neg habove, hsub, hpe, hcast]

/-- Arithmetic on `int` finds the `int` of the index although the start may not fit an `int`. -/
theorem int32_index {g start : ℕ} (hle : start ≤ g) :
    int32 (uint64 (g - uint64 (int32 (start : ℕ)))) = int32 ((g - start : ℕ) : ℤ) := by
  have hstart := (int32_eq_iff.mp (rfl : int32 (start : ℕ) = _)).2.2
  have hindex := int32_eq_iff.mp (rfl : int32 ((g - start : ℕ) : ℤ) = _)
  rw [int32_eq_iff, natCast_uint64, natCast_uint64]
  push_cast [hle] at hindex ⊢
  omega

/-- The routing of an offset is the rank whose tile holds it and the `int` of its index there. -/
theorem route_eq_int32 {g rank : ℕ} (hrank : rank < l.numRanks) (hsize : l.tableSize ≤ 2 ^ 63)
    (hle : l.globalStart rank ≤ g) (hlt : g < l.globalStart rank + l.localTableSize rank) :
    l.route g = ((rank : ℤ), int32 ((g - l.globalStart rank : ℕ) : ℤ)) := by
  have hint := l.ranks_int
  have hend : l.globalStart rank + l.localTableSize rank ≤ l.tableSize := by
    rw [← l.tiles.succ]
    exact l.globalStart_le hrank
  have hcast : int32 (rank : ℕ) = rank := int32_natCast (by omega)
  have hcast' : uint64 (rank : ℕ) = rank := uint64_natCast (by omega)
  have hindex := int32_index hle
  by_cases htop : rank < l.remainder
  · have hstart : l.globalStart rank = (l.minLocalTableSize + 1) * rank := if_pos htop
    obtain ⟨hg, hpe⟩ := l.div_of_lt_remainder htop hle hlt
    have hfit : uint64 ((l.minLocalTableSize + 1 : ℕ) * (rank : ℕ)) = l.globalStart rank := by
      rw [← Nat.cast_mul, ← hstart]
      exact uint64_natCast (by omega)
    simp only [route, if_pos hg, hpe, hcast, hcast', hfit, hindex]
  · have hstart : l.globalStart rank = l.minLocalTableSize * rank + l.remainder := if_neg htop
    obtain ⟨hg, hrem, hpe⟩ := l.div_of_remainder_le htop hle hlt
    have hsub : uint64 ((g : ℤ) - l.remainder) = g - l.remainder := by
      rw [← Nat.cast_sub hrem]
      exact uint64_natCast (by omega)
    have hmul : uint64 ((l.minLocalTableSize : ℤ) * (rank : ℕ)) = l.minLocalTableSize * rank := by
      rw [← Nat.cast_mul]
      exact uint64_natCast (by omega)
    have hfit : uint64 (((l.minLocalTableSize * rank : ℕ) : ℤ) + l.remainder) =
        l.globalStart rank := by
      rw [← Nat.cast_add, ← hstart]
      exact uint64_natCast (by omega)
    simp only [route, if_neg hg, hsub, hpe, hcast, hcast', hmul, hfit, hindex]

/-- When the local table is small enough, the index is found as well. -/
theorem route_eq {g rank : ℕ} (hrank : rank < l.numRanks) (hsize : l.tableSize ≤ 2 ^ 63)
    (hlocal : l.localTableSize rank ≤ 2 ^ 31) (hle : l.globalStart rank ≤ g)
    (hlt : g < l.globalStart rank + l.localTableSize rank) :
    l.route g = ((rank : ℤ), ((g - l.globalStart rank : ℕ) : ℤ)) := by
  rw [l.route_eq_int32 hrank hsize hle hlt, int32_natCast (by omega)]

end Layout

end CrayTests.RandomAccess
