import Mathlib.Tactic

/-!
# Collecting items in batches

Items are pushed one at a time, and a batch is closed when it holds `m` of them. What is still
pending is the remainder of the number of items modulo `m`.
-/

namespace Batches

structure Batch (α : Type*) where
  closed : List (List α)
  pending : List α

variable {α : Type*} {m : ℕ} {b : Batch α} {x : α}

def Batch.items (b : Batch α) : List α := b.closed.flatten ++ b.pending

def Batch.push (b : Batch α) (x : α) : Batch α := ⟨b.closed, b.pending ++ [x]⟩

def Batch.close (b : Batch α) : Batch α := ⟨b.closed ++ [b.pending], []⟩

def Batch.add (m : ℕ) (b : Batch α) (x : α) : Batch α :=
  if (b.push x).pending.length = m then (b.push x).close else b.push x

@[simp] theorem items_push : (b.push x).items = b.items ++ [x] := by
  simp [Batch.items, Batch.push]

@[simp] theorem items_close : b.close.items = b.items := by
  simp [Batch.items, Batch.close]

@[simp] theorem items_add : (b.add m x).items = b.items ++ [x] := by
  unfold Batch.add
  split_ifs <;> simp

/-- The pending items are those after the last full batch. -/
def Batch.Even (m : ℕ) (b : Batch α) : Prop := b.pending.length = b.items.length % m

theorem Batch.Even.add (hm : 0 < m) (h : b.Even m) (x : α) : (b.add m x).Even m := by
  have hlen : (b.push x).pending.length = b.items.length % m + 1 := by
    rw [← show b.pending.length = _ from h]
    simp [Batch.push]
  have hlt := Nat.mod_lt b.items.length hm
  have hmod : (b.items.length + 1) % m = (b.items.length % m + 1) % m := by
    rw [Nat.mod_add_mod]
  unfold Batch.Even
  rw [items_add, List.length_append, List.length_singleton, hmod]
  unfold Batch.add
  by_cases hfull : (b.push x).pending.length = m
  · rw [if_pos hfull, ← hlen, hfull, Nat.mod_self]
    rfl
  · rw [if_neg hfull, Nat.mod_eq_of_lt (by omega), hlen]

theorem Batch.Even.pending_eq_nil_iff (h : b.Even m) :
    b.pending = [] ↔ m ∣ b.items.length := by
  rw [← List.length_eq_zero_iff, Nat.dvd_iff_mod_eq_zero, ← show b.pending.length = _ from h]

end Batches
