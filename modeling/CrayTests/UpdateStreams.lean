import CrayTests.RandomStream
import CrayTests.TableLayout
import Mathlib.Tactic.NormNum.Prime

/-!
# The update streams of the ranks

Each rank draws four numbers per entry of its local table, starting from the element of the stream
that belongs to the start of its table. Together the ranks draw a prefix of the stream, and the
stream has period `PERIOD`, so no number is drawn twice.
-/

namespace CrayTests.RandomAccess
open ShiftRegister Tiling

/-- The values of `ran` in `iterations` rounds of the loop of `update_table`. -/
def draws : ℕ → Word → List Word
  | 0, _ => []
  | iterations + 1, ran => nextRan ran :: draws iterations (nextRan ran)

namespace Layout

variable (l : Layout)

def procNumUpdates (rank : ℕ) : ℕ := 4 * l.localTableSize rank

def savedInitialRanVal (rank : ℕ) : Word := generateInitialXorVal (4 * l.globalStart rank)

def phaseDraws (rank : ℕ) : List Word := draws (l.procNumUpdates rank) (l.savedInitialRanVal rank)

end Layout

/-- The elements of the stream: `1` is element 0. -/
def streamElement (m : ℕ) : Word := (step poly)^[m] 1

theorem nextRan_streamElement (m : ℕ) : nextRan (streamElement m) = streamElement (m + 1) := by
  rw [nextRan_eq_step, streamElement, streamElement, Function.iterate_succ_apply']

theorem draws_eq (n m : ℕ) :
    draws n (streamElement m) = (List.range n).map (fun i => streamElement (m + i + 1)) := by
  induction n generalizing m with
  | zero => rfl
  | succ n ih =>
    rw [draws, nextRan_streamElement, ih, List.range_succ_eq_map, List.map_cons, List.map_map]
    congr 1
    refine List.map_congr_left (fun i _ => ?_)
    simp only [Function.comp_apply]
    congr 1
    omega

namespace Layout

variable (l : Layout)

theorem savedInitialRanVal_eq (rank : ℕ) :
    l.savedInitialRanVal rank = streamElement (4 * l.globalStart rank) :=
  generateInitialXorVal_eq _

theorem phaseDraws_eq (rank : ℕ) : l.phaseDraws rank =
    (List.range (4 * l.localTableSize rank)).map
      (fun i => streamElement (4 * l.globalStart rank + i + 1)) := by
  rw [phaseDraws, savedInitialRanVal_eq, draws_eq]
  rfl

/-- Together the ranks draw the elements `1 .. 4 * table_size`, each once and in order. -/
theorem flatMap_phaseDraws : (List.range l.numRanks).flatMap l.phaseDraws =
    (List.range (4 * l.tableSize)).map (fun m => streamElement (m + 1)) := by
  have h := (l.tiles.mul 4).flatMap_eq (fun m => streamElement (m + 1)) l.numRanks
  rw [l.globalStart_numRanks] at h
  rw [funext l.phaseDraws_eq]
  exact h

end Layout

def periodFactors : List ℕ := [7, 73, 127, 337, 92737, 649657]

theorem period_eq_prod : period = periodFactors.prod := by decide

theorem prime_of_mem_periodFactors {p : ℕ} (h : p ∈ periodFactors) : p.Prime := by
  simp only [periodFactors, List.mem_cons, List.not_mem_nil, or_false] at h
  rcases h with rfl | rfl | rfl | rfl | rfl | rfl <;> norm_num

theorem mem_periodFactors_of_dvd {p : ℕ} (hp : p.Prime) (h : p ∣ period) :
    p ∈ periodFactors := by
  rw [period_eq_prod, hp.prime.dvd_prod_iff] at h
  obtain ⟨q, hq, hpq⟩ := h
  rwa [(Nat.prime_dvd_prime_iff_eq hp (prime_of_mem_periodFactors hq)).mp hpq]

theorem jump_cofactor_ne_one : ∀ p ∈ periodFactors, jump (period / p) ≠ 1 := by decide +kernel

theorem streamElement_cofactor_ne_one {p : ℕ} (hp : p.Prime) (h : p ∣ period) :
    streamElement (period / p) ≠ 1 := by
  have hdiv : period / p ≠ 0 := (Nat.div_pos (Nat.le_of_dvd (by decide) h) hp.pos).ne'
  have hlt : period / p < 2 ^ 63 := (Nat.div_le_self _ _).trans_lt (by decide)
  rw [streamElement, ← jump_eq hdiv hlt]
  exact jump_cofactor_ne_one p (mem_periodFactors_of_dvd hp h)

theorem streamElement_eq_one_iff (n : ℕ) : streamElement n = 1 ↔ period ∣ n :=
  iterate_eq_iff_dvd (by decide) iterate_period
    (fun _ hp h => streamElement_cofactor_ne_one hp h) n

theorem streamElement_ne_zero (n : ℕ) : streamElement n ≠ 0 :=
  iterate_ne_zero poly poly_getLsbD_zero (by decide) n

/-- Two elements of the stream less than a period apart differ. -/
theorem streamElement_inj {m n : ℕ} (hmn : m ≤ n) (hlt : n < m + period)
    (h : streamElement m = streamElement n) : m = n := by
  obtain ⟨d, rfl⟩ := Nat.exists_eq_add_of_le hmn
  have hd : streamElement d = 1 := by
    rw [streamElement, streamElement, Function.iterate_add_apply] at h
    exact ((step_injective poly poly_getLsbD_zero).iterate m h).symm
  have hdvd := (streamElement_eq_one_iff d).mp hd
  have hzero := Nat.eq_zero_of_dvd_of_lt hdvd (by omega)
  omega

theorem nodup_stream {count : ℕ} (h : count ≤ period) :
    ((List.range count).map (fun m => streamElement (m + 1))).Nodup := by
  refine List.Nodup.map_on ?_ List.nodup_range
  intro a ha b hb hab
  rw [List.mem_range] at ha hb
  rcases Nat.le_total a b with hle | hle
  · have := streamElement_inj (by omega) (by omega) hab
    omega
  · have := streamElement_inj (by omega) (by omega) hab.symm
    omega

/-- The numbers drawn in one call of `update_table` are nonzero and all different, within a rank
and across ranks, and `PERIOD` is the exact period of the stream. -/
theorem streams_never_repeat (l : Layout) (hk : l.logTableSize ≤ 58) :
    (∀ rank < l.numRanks, ∀ ran ∈ l.phaseDraws rank, ran ≠ 0) ∧
      ((List.range l.numRanks).flatMap l.phaseDraws).Nodup ∧
      ∀ n, nextRan^[n] 1 = 1 ↔ period ∣ n := by
  have hfit : 4 * l.tableSize ≤ period := by
    have hpow : l.tableSize ≤ 2 ^ 58 := Nat.pow_le_pow_right (by norm_num) hk
    refine (Nat.mul_le_mul_left 4 hpow).trans ?_
    decide
  refine ⟨fun rank _ ran hran => ?_, ?_, fun n => ?_⟩
  · rw [l.phaseDraws_eq] at hran
    obtain ⟨i, -, rfl⟩ := List.mem_map.mp hran
    exact streamElement_ne_zero _
  · rw [l.flatMap_phaseDraws]
    exact nodup_stream hfit
  · rw [nextRan_eq_step]
    exact streamElement_eq_one_iff n

def threeRanks : Layout := ⟨3, 3, by decide, by decide⟩

theorem streams_never_repeat_threeRanks :
    threeRanks.logTableSize ≤ 58 ∧ ((List.range 3).flatMap threeRanks.phaseDraws).Nodup ∧
      ¬ nextRan^[period - 1] 1 = 1 := by
  have h := streams_never_repeat threeRanks (by decide)
  exact ⟨by decide, h.2.1, fun heq => absurd ((h.2.2 _).mp heq) (by decide)⟩

end CrayTests.RandomAccess
