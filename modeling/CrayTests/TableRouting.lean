import CrayTests.RandomAccessEvents
import Mathlib.Data.BitVec

/-!
# Routing without widths

What `update_table` and `lf_atomic_xor` compute in unbounded integers. The routing inverts the
layout of the table for every number of ranks, and the remote address is that of the routed word.
With the C types, the routing differs from this exactly where the index leaves `int`.
-/

namespace CrayTests.RandomAccess
open CInteger Tiling

namespace Layout

variable (l : Layout)

def offsetExact (ran : Word) : ℕ := ran.toNat &&& (l.tableSize - 1)

/-- `remote_pe` and `index` of a global offset in unbounded integers. -/
def routeExact (globalOffset : ℤ) : ℤ × ℤ :=
  let (remotePe, globalStartAtPe) :=
    if globalOffset < l.numTopTableEntries then
      let remotePe := globalOffset.tdiv (l.minLocalTableSize + 1)
      (remotePe, (l.minLocalTableSize + 1) * remotePe)
    else
      let remotePe := (globalOffset - l.remainder).tdiv l.minLocalTableSize
      (remotePe, l.minLocalTableSize * remotePe + l.remainder)
  (remotePe, globalOffset - globalStartAtPe)

/-- `rem_addr` in unbounded integers, from the address of the peer's table, the address of the
word in the caller's table and the caller's `hpcc_table`. -/
def remAddrExact (rTableAddr addr hpccTable : ℤ) : ℤ := rTableAddr + (addr - hpccTable)

def Owns (rank g : ℕ) : Prop :=
  l.globalStart rank ≤ g ∧ g < l.globalStart rank + l.localTableSize rank

variable {l}

theorem offsetExact_lt (ran : Word) : l.offsetExact ran < l.tableSize := by
  rw [offsetExact, tableSize, Nat.and_two_pow_sub_one_eq_mod]
  exact Nat.mod_lt _ (Nat.two_pow_pos _)

theorem exists_owner {g : ℕ} (hg : g < l.tableSize) : ∃ rank < l.numRanks, l.Owns rank g := by
  rw [← l.globalStart_numRanks] at hg
  exact l.tiles.exists_tile hg

/-- The exact routing finds the owner and the index there. -/
theorem routeExact_eq {g rank : ℕ} (h : l.Owns rank g) :
    l.routeExact g = ((rank : ℤ), ((g - l.globalStart rank : ℕ) : ℤ)) := by
  obtain ⟨hle, hlt⟩ := h
  by_cases htop : rank < l.remainder
  · have hstart : l.globalStart rank = (l.minLocalTableSize + 1) * rank := if_pos htop
    obtain ⟨hg, hdiv⟩ := l.div_of_lt_remainder htop hle hlt
    have hpe : (g : ℤ).tdiv (l.minLocalTableSize + 1) = rank := by
      rw [Int.tdiv_eq_ediv_of_nonneg (Int.natCast_nonneg g)]
      exact_mod_cast congrArg (Nat.cast : ℕ → ℤ) hdiv
    simp only [routeExact, if_pos (Int.ofNat_lt.mpr hg), hpe]
    rw [Nat.cast_sub hle, hstart]
    push_cast
    rfl
  · have hstart : l.globalStart rank = l.minLocalTableSize * rank + l.remainder := if_neg htop
    obtain ⟨hg, hrem, hdiv⟩ := l.div_of_remainder_le htop hle hlt
    have hpe : ((g : ℤ) - l.remainder).tdiv l.minLocalTableSize = rank := by
      rw [← Nat.cast_sub hrem, Int.tdiv_eq_ediv_of_nonneg (Int.natCast_nonneg _)]
      exact_mod_cast congrArg (Nat.cast : ℕ → ℤ) hdiv
    simp only [routeExact, if_neg (mt Int.ofNat_lt.mp hg), hpe]
    rw [Nat.cast_sub hle, hstart]
    push_cast
    rfl

/-- The divisor of the second case is not zero. -/
theorem minLocalTableSize_pos {g : ℕ} (hg : g < l.tableSize) (htop : l.numTopTableEntries ≤ g) :
    0 < l.minLocalTableSize := by
  by_contra hzero
  have hmin : l.minLocalTableSize = 0 := by omega
  have hall := l.min_mul_add_remainder
  rw [numTopTableEntries, hmin] at htop
  rw [hmin] at hall
  omega

/-- Where the exact routing takes an offset: to its owner, and to the word there that is meant. -/
structure RoutedTo (l : Layout) (g : ℕ) (owner : Fin l.numRanks) : Prop where
  owns : l.Owns owner g
  remotePe : (l.routeExact g).1 = (owner : ℕ)
  index_nonneg : 0 ≤ (l.routeExact g).2
  index_lt : (l.routeExact g).2 < l.localTableSize owner
  index_eq : (l.globalStart owner : ℤ) + (l.routeExact g).2 = g

theorem routedTo_of_owns {g : ℕ} {owner : Fin l.numRanks} (h : l.Owns owner g) :
    l.RoutedTo g owner := by
  obtain ⟨hle, hlt⟩ := id h
  refine ⟨h, ?_, ?_, ?_, ?_⟩ <;> rw [routeExact_eq h] <;> dsimp only <;> omega

/-- The tables of the ranks: where they are, and the addresses that the caller has of them. -/
structure Addresses (l : Layout) where
  hpccTable : Fin l.numRanks → ℤ
  rTableAddr : Fin l.numRanks → ℤ
  exchanged : ∀ i, rTableAddr i = hpccTable i

def Addresses.remAddr (t : Addresses l) (caller owner : Fin l.numRanks) (g : ℕ) : ℤ :=
  remAddrExact (t.rTableAddr owner) (t.hpccTable caller + 8 * (l.routeExact g).2)
    (t.hpccTable caller)

theorem remAddr_eq (t : Addresses l) (caller : Fin l.numRanks) {owner : Fin l.numRanks} {g : ℕ}
    (h : l.RoutedTo g owner) :
    t.remAddr caller owner g = t.hpccTable owner + 8 * (g - l.globalStart owner) ∧
      t.hpccTable owner ≤ t.remAddr caller owner g ∧
      t.remAddr caller owner g + 8 ≤ t.hpccTable owner + 8 * l.localTableSize owner := by
  have hindex := h.index_eq
  have hnonneg := h.index_nonneg
  have hlt := h.index_lt
  unfold Addresses.remAddr remAddrExact
  rw [t.exchanged owner]
  refine ⟨?_, ?_, ?_⟩ <;> omega

/-- The layout of the table and the routing of its offsets are inverse to each other. -/
structure RoutingAgrees (l : Layout) : Prop where
  first : l.globalStart 0 = 0
  next : ∀ rank, rank + 1 < l.numRanks →
    l.globalStart (rank + 1) = l.globalStart rank + l.localTableSize rank
  last : l.globalStart (l.numRanks - 1) + l.localTableSize (l.numRanks - 1) = l.tableSize
  owner : ∀ g < l.tableSize, ∃! rank : Fin l.numRanks, l.Owns rank g
  divisor : ∀ ran, ¬ l.offsetExact ran < l.numTopTableEntries → l.minLocalTableSize ≠ 0
  routed : ∀ ran, ∃ owner, l.RoutedTo (l.offsetExact ran) owner ∧
    ∀ (t : Addresses l) (caller : Fin l.numRanks),
      t.remAddr caller owner (l.offsetExact ran) =
        t.hpccTable owner + 8 * (l.offsetExact ran - l.globalStart owner) ∧
      t.hpccTable owner ≤ t.remAddr caller owner (l.offsetExact ran) ∧
      t.remAddr caller owner (l.offsetExact ran) + 8 ≤
        t.hpccTable owner + 8 * l.localTableSize owner

theorem routing_agrees (l : Layout) : l.RoutingAgrees where
  first := l.tiles.zero
  next rank _ := l.tiles.succ rank
  last := by
    have hpos := l.ranks_pos
    rw [← l.tiles.succ, Nat.sub_add_cancel hpos, l.globalStart_numRanks]
  owner g hg := by
    obtain ⟨rank, hrank, howns⟩ := exists_owner hg
    refine ⟨⟨rank, hrank⟩, howns, fun other hother => ?_⟩
    exact Fin.ext (l.tiles.tile_unique hother howns)
  divisor ran hnot := (minLocalTableSize_pos (offsetExact_lt ran) (not_lt.mp hnot)).ne'
  routed ran := by
    obtain ⟨rank, hrank, howns⟩ := exists_owner (offsetExact_lt (l := l) ran)
    have hrouted : l.RoutedTo (l.offsetExact ran) ⟨rank, hrank⟩ := routedTo_of_owns howns
    exact ⟨⟨rank, hrank⟩, hrouted, fun t caller => remAddr_eq t caller hrouted⟩

theorem offset_eq_offsetExact (hk : l.logTableSize < 64) (ran : Word) :
    l.offset ran = l.offsetExact ran := by
  have hsize : l.tableSize ≤ 2 ^ 63 := Nat.pow_le_pow_right (by norm_num) (by omega)
  have hmask : (BitVec.ofNat 64 (l.tableSize - 1)).toNat = l.tableSize - 1 := by
    rw [BitVec.toNat_ofNat]
    exact Nat.mod_eq_of_lt (by omega)
  rw [offset, BitVec.toNat_and, hmask, offsetExact]

/-- The C code routes as unbounded integers do, and not before the table. -/
def RoutesExactly (l : Layout) (ran : Word) : Prop :=
  l.route (l.offset ran) = l.routeExact (l.offsetExact ran) ∧ 0 ≤ (l.route (l.offset ran)).2

/-- The routing is exact where the index within the owner's table is an `int`. -/
theorem routesExactly_iff (hk : l.logTableSize < 64) (ran : Word) :
    l.RoutesExactly ran ↔ ∃ rank < l.numRanks, l.Owns rank (l.offsetExact ran) ∧
      l.offsetExact ran < l.globalStart rank + 2 ^ 31 := by
  have hsize : l.tableSize ≤ 2 ^ 63 := Nat.pow_le_pow_right (by norm_num) (by omega)
  obtain ⟨rank, hrank, howns⟩ := exists_owner (offsetExact_lt (l := l) ran)
  obtain ⟨hle, hlt⟩ := id howns
  unfold RoutesExactly
  rw [offset_eq_offsetExact hk, l.route_eq_int32 hrank hsize hle hlt, routeExact_eq howns]
  constructor
  · rintro ⟨hroute, -⟩
    have hindex : int32 ((l.offsetExact ran - l.globalStart rank : ℕ) : ℤ) =
        ((l.offsetExact ran - l.globalStart rank : ℕ) : ℤ) := (Prod.mk.inj hroute).2
    have hrange := (int32_range ((l.offsetExact ran - l.globalStart rank : ℕ) : ℤ)).2
    exact ⟨rank, hrank, howns, by omega⟩
  · rintro ⟨other, -, hother, hint⟩
    obtain rfl := l.tiles.tile_unique hother howns
    rw [int32_natCast (by omega)]
    exact ⟨rfl, Int.natCast_nonneg _⟩

/-- Two ranks that share a table of four words. -/
theorem routesExactly_iff_fourWords : (⟨2, 2, by decide, by decide⟩ : Layout).RoutesExactly 7 :=
  (routesExactly_iff (by decide) 7).mpr ⟨1, by decide, ⟨by decide, by decide⟩, by decide⟩

/-- All numbers are routed exactly when no local table is larger than an `int` can index. -/
theorem routesExactly_all_iff (hk : l.logTableSize < 64) :
    (∀ ran, l.RoutesExactly ran) ↔ ∀ rank < l.numRanks, l.localTableSize rank ≤ 2 ^ 31 := by
  constructor
  · intro h rank hrank
    by_contra hlarge
    have hend : l.globalStart rank + l.localTableSize rank ≤ l.tableSize := by
      rw [← l.tiles.succ]
      exact l.globalStart_le hrank
    have hsize : l.tableSize ≤ 2 ^ 63 := Nat.pow_le_pow_right (by norm_num) (by omega)
    -- the first word beyond the range of `int` in this table
    have hran : l.offsetExact (BitVec.ofNat 64 (l.globalStart rank + 2 ^ 31)) =
        l.globalStart rank + 2 ^ 31 := by
      rw [offsetExact, tableSize, Nat.and_two_pow_sub_one_eq_mod, BitVec.toNat_ofNat,
        Nat.mod_eq_of_lt (by omega : l.globalStart rank + 2 ^ 31 < 2 ^ 64)]
      exact Nat.mod_eq_of_lt (by change _ < l.tableSize; omega)
    obtain ⟨other, -, hother, hint⟩ := (routesExactly_iff hk _).mp (h _)
    rw [hran] at hother hint
    have howns : l.Owns rank (l.globalStart rank + 2 ^ 31) := ⟨by omega, by omega⟩
    obtain rfl := l.tiles.tile_unique hother howns
    omega
  · intro h ran
    obtain ⟨rank, hrank, howns⟩ := exists_owner (offsetExact_lt (l := l) ran)
    have hlen := h rank hrank
    exact (routesExactly_iff hk ran).mpr ⟨rank, hrank, howns, by have := howns.2; omega⟩

/-- One rank with a table of `2 ^ 32` words: the index is `-2 ^ 31`. -/
theorem not_routesExactly_largeTable :
    (⟨1, 32, by decide, by decide⟩ : Layout).route (2 ^ 31) = (0, -2 ^ 31) ∧
      ¬ (⟨1, 32, by decide, by decide⟩ : Layout).RoutesExactly (2 ^ 31) := by
  have hroute : (⟨1, 32, by decide, by decide⟩ : Layout).route (2 ^ 31) = (0, -2 ^ 31) := by
    decide
  refine ⟨hroute, fun h => ?_⟩
  have hoff : (⟨1, 32, by decide, by decide⟩ : Layout).offset (2 ^ 31) = 2 ^ 31 := by decide
  have hnonneg := h.2
  rw [hoff, hroute] at hnonneg
  revert hnonneg
  decide

end Layout

end CrayTests.RandomAccess
