import CrayTests.Tiling
import Mathlib.Data.List.FinRange

/-!
# Scattering blocks over a memory

A `Memory` has a cell at every address and remembers the addresses stored to. Blocks are copied to
it one after the other; where they do not overlap, each is found where it was put, and the memory
around them is left alone.
-/

namespace Scatter

variable {β : Type*}

structure Memory (β : Type*) where
  cell : ℤ → β
  written : List ℤ

namespace Memory

def store (m : Memory β) (a : ℤ) (b : β) : Memory β :=
  ⟨Function.update m.cell a b, m.written ++ [a]⟩

def copy (m : Memory β) (a : ℤ) : List β → Memory β
  | [] => m
  | b :: bs => copy (m.store a b) (a + 1) bs

theorem store_cell_ne (m : Memory β) {a x : ℤ} (b : β) (h : x ≠ a) :
    (m.store a b).cell x = m.cell x := Function.update_of_ne h _ _

theorem copy_cell_outside (m : Memory β) {a x : ℤ} (bs : List β)
    (h : x < a ∨ a + bs.length ≤ x) : (m.copy a bs).cell x = m.cell x := by
  induction bs generalizing m a with
  | nil => rfl
  | cons b bs ih =>
    rw [List.length_cons] at h
    rw [copy, ih _ (by omega), store_cell_ne _ _ (by omega)]

theorem copy_cell_inside (m : Memory β) (a : ℤ) {bs : List β} {k : ℕ} (h : k < bs.length) :
    (m.copy a bs).cell (a + k) = bs[k] := by
  induction bs generalizing m a k with
  | nil => cases h
  | cons b bs ih =>
    rw [copy]
    cases k with
    | zero =>
      rw [copy_cell_outside _ _ (by omega)]
      simp [store]
    | succ k =>
      have hrest := ih (m.store a b) (a + 1) (Nat.lt_of_succ_lt_succ h)
      rw [Nat.cast_succ, ← add_assoc, add_right_comm, hrest]
      rfl

theorem copy_written (m : Memory β) (a : ℤ) (bs : List β) :
    (m.copy a bs).written = m.written ++ (List.range bs.length).map fun k : ℕ => a + k := by
  induction bs generalizing m a with
  | nil => simp [copy]
  | cons b bs ih =>
    rw [copy, ih, List.length_cons, List.range_succ_eq_map, List.map_cons, List.map_map]
    simp only [store, List.append_assoc, List.singleton_append, Nat.cast_zero, add_zero]
    congr 2
    apply List.map_congr_left
    intro k _
    simp only [Function.comp_apply, Nat.cast_succ]
    ring

end Memory

/-- Block `i` is copied to address `pos i`. -/
def scatter (m : Memory β) (pos : ℕ → ℤ) (block : ℕ → List β) (n : ℕ) : Memory β :=
  (List.range n).foldl (fun m i => m.copy (pos i) (block i)) m

variable {m : Memory β} {pos : ℕ → ℤ} {block : ℕ → List β} {n : ℕ}

theorem scatter_succ :
    scatter m pos block (n + 1) = (scatter m pos block n).copy (pos n) (block n) := by
  simp [scatter, List.range_succ]

theorem scatter_cell_outside {x : ℤ}
    (h : ∀ i < n, x < pos i ∨ pos i + (block i).length ≤ x) :
    (scatter m pos block n).cell x = m.cell x := by
  induction n with
  | zero => rfl
  | succ n ih =>
    rw [scatter_succ, Memory.copy_cell_outside _ _ (h n (Nat.lt_succ_self n))]
    exact ih fun i hi => h i (Nat.lt_succ_of_lt hi)

/-- A block is found where it was put unless another one was put over it. -/
theorem scatter_cell_inside (m : Memory β) (pos : ℕ → ℤ) (block : ℕ → List β) {n i k : ℕ}
    (hi : i < n) (hk : k < (block i).length)
    (h : ∀ j < n, j ≠ i → pos i + k < pos j ∨ pos j + (block j).length ≤ pos i + k) :
    (scatter m pos block n).cell (pos i + k) = (block i)[k] := by
  induction n with
  | zero => cases hi
  | succ n ih =>
    rw [scatter_succ]
    rcases Nat.lt_succ_iff_lt_or_eq.mp hi with hlt | rfl
    · rw [Memory.copy_cell_outside _ _ (h n (Nat.lt_succ_self n) (Nat.ne_of_gt hlt))]
      exact ih hlt fun j hj => h j (Nat.lt_succ_of_lt hj)
    · exact Memory.copy_cell_inside _ _ hk

theorem scatter_written :
    (scatter m pos block n).written = m.written ++
      (List.range n).flatMap fun i => (List.range (block i).length).map fun k : ℕ => pos i + k := by
  induction n with
  | zero => simp [scatter]
  | succ n ih =>
    rw [scatter_succ, Memory.copy_written, ih, List.range_succ, List.flatMap_append,
      List.flatMap_singleton, List.append_assoc]

section Permuted

variable {len : ℕ} (σ : Equiv.Perm (Fin n)) {blocks : Fin n → List β}

/-- The `i`-th block goes to place `σ i`. -/
structure Places (σ : Equiv.Perm (Fin n)) (len : ℕ) (blocks : Fin n → List β) (pos : ℕ → ℤ)
    (block : ℕ → List β) : Prop where
  pos_eq : ∀ i : Fin n, pos i = len * (σ i : ℕ)
  block_eq : ∀ i : Fin n, block i = blocks (σ i)
  length_eq : ∀ q, (blocks q).length = len

variable {σ} (h : Places σ len blocks pos block)
include h

theorem Places.apart {i : Fin n} {j k : ℕ} (hj : j < n) (hne : j ≠ i) (hk : k < len) :
    pos i + k < pos j ∨ pos j + (block j).length ≤ pos i + k := by
  have hjpos := h.pos_eq ⟨j, hj⟩
  have hjlen : (block j).length = len := by
    rw [show j = ((⟨j, hj⟩ : Fin n) : ℕ) from rfl, h.block_eq, h.length_eq]
  have hσ : (σ i : ℕ) ≠ σ ⟨j, hj⟩ := fun heq =>
    hne (congrArg Fin.val (σ.injective (Fin.ext heq.symm)))
  rw [h.pos_eq i, hjlen, show pos j = _ from hjpos]
  rcases Nat.lt_or_gt_of_ne hσ with hlt | hgt
  · have := Nat.mul_le_mul_left len (Nat.succ_le_of_lt hlt)
    left
    rw [Nat.mul_succ] at this
    exact_mod_cast (by omega)
  · have := Nat.mul_le_mul_left len (Nat.succ_le_of_lt hgt)
    right
    rw [Nat.mul_succ] at this
    exact_mod_cast (by omega)

/-- Every block ends up at its own place. -/
theorem Places.cell_eq (q : Fin n) {k : ℕ} (hk : k < (blocks q).length) :
    (scatter m pos block n).cell (len * (q : ℕ) + k) = (blocks q)[k] := by
  have hlen := h.length_eq q
  have hpos : pos (σ.symm q) = len * (q : ℕ) := by rw [h.pos_eq, Equiv.apply_symm_apply]
  have hblock : block (σ.symm q) = blocks q := by rw [h.block_eq, Equiv.apply_symm_apply]
  have := scatter_cell_inside m pos block (σ.symm q).isLt
    (by rw [hblock]; exact hk) fun j hj hne => h.apart hj hne (by omega)
  rw [hpos] at this
  rw [this]
  exact List.getElem_of_eq hblock _

theorem Places.cell_outside {x : ℤ} (hx : x < 0 ∨ ((n * len : ℕ) : ℤ) ≤ x) :
    (scatter m pos block n).cell x = m.cell x := by
  refine scatter_cell_outside fun i hi => ?_
  have hpos := h.pos_eq ⟨i, hi⟩
  have hlen : (block i).length = len := by
    rw [show i = ((⟨i, hi⟩ : Fin n) : ℕ) from rfl, h.block_eq, h.length_eq]
  have hle := Nat.mul_le_mul_left len (Nat.succ_le_of_lt (σ ⟨i, hi⟩).isLt)
  rw [Nat.mul_succ, Nat.mul_comm len n] at hle
  rw [hlen, show pos i = _ from hpos]
  rcases hx with hx | hx
  · exact .inl (lt_of_lt_of_le hx (by positivity))
  · refine .inr (le_trans ?_ hx)
    exact_mod_cast hle

/-- Every address of the table is stored to once. -/
theorem Places.written_perm :
    ((scatter ⟨m.cell, []⟩ pos block n).written).Perm
      ((List.range (n * len)).map fun x : ℕ => (x : ℤ)) := by
  let tile : Fin n → List ℤ := fun q =>
    (List.range len).map fun k : ℕ => ((q * len + k : ℕ) : ℤ)
  have hwritten : (scatter ⟨m.cell, []⟩ pos block n).written =
      ((List.finRange n).map σ).flatMap tile := by
    rw [scatter_written, List.nil_append, ← List.map_coe_finRange_eq_range, List.flatMap_map,
      List.flatMap_map]
    refine List.flatMap_congr fun i _ => ?_
    rw [h.block_eq, h.length_eq]
    apply List.map_congr_left
    intro k _
    rw [h.pos_eq]
    push_cast
    ring
  have htiles : Tiling.Tiles (fun r => r * len) (fun _ => len) :=
    ⟨Nat.zero_mul len, fun r => Nat.succ_mul r len⟩
  have hall : (List.range (n * len)).map (fun x : ℕ => (x : ℤ)) =
      (List.finRange n).flatMap tile := by
    rw [← htiles.flatMap_eq]
    simp only [tile]
    rw [← List.map_coe_finRange_eq_range (n := n), List.flatMap_map]
  rw [hwritten, hall]
  exact (Equiv.Perm.map_finRange_perm σ).flatMap_right tile

end Permuted

end Scatter
