import Mathlib.Tactic

/-!
# Logs of opened and closed objects

A program opens objects, uses and closes them, and its `log` lists what it did in order. `Balanced`
asks that what was opened is closed exactly once and nothing else is closed; `Retired` that an object
is closed at most once and never used after that.
-/

namespace ObjectLog

variable {ω : Type*}

inductive Event (ω : Type*)
  | opened (o : ω)
  | used (o : ω)
  | closed (o : ω)
deriving DecidableEq

variable [DecidableEq ω]

structure Balanced (log : List (Event ω)) : Prop where
  once : ∀ o, .opened o ∈ log → log.count (.closed o) = 1
  opened : ∀ pre o post, log = pre ++ .closed o :: post → .opened o ∈ pre

structure Retired (o : ω) (log : List (Event ω)) : Prop where
  once : log.count (.closed o) ≤ 1
  unused : ∀ pre post, log = pre ++ .closed o :: post → .used o ∉ post

variable {log : List (Event ω)} {o : ω}

/-- All objects are opened before the first is closed, and closed in any order. -/
theorem balanced_of_perm (os cs : List ω) (hnodup : os.Nodup) (hperm : cs.Perm os)
    (hlog : log = os.map .opened ++ cs.map .closed) : Balanced log := by
  subst hlog
  constructor
  · intro o ho
    have hmem : o ∈ os := by simpa using ho
    have hopened : (os.map Event.opened).count (.closed o) = 0 := by
      rw [List.count_eq_zero]
      simp
    rw [List.count_append, hopened, Nat.zero_add,
      List.count_map_of_injective cs _ fun _ _ h => Event.closed.inj h, hperm.count_eq]
    exact List.count_eq_one_of_mem hnodup hmem
  · intro pre o post hsplit
    have hmem : o ∈ os := by
      have : Event.closed o ∈ os.map .opened ++ cs.map .closed := by
        rw [hsplit]
        simp
      exact hperm.mem_iff.mp (by simpa using this)
    rcases List.append_eq_append_iff.mp hsplit with ⟨rest, rfl, -⟩ | ⟨rest, hos, hrest⟩
    · exact List.mem_append_left _ (List.mem_map_of_mem hmem)
    · cases rest with
      | nil =>
        rw [List.append_nil] at hos
        rw [← hos]
        exact List.mem_map_of_mem hmem
      | cons ev rest =>
        -- the first close cannot be among the opens
        obtain ⟨rfl, -⟩ := List.cons.inj hrest
        have : Event.closed o ∈ os.map .opened := by
          rw [hos]
          simp
        simp at this

theorem retired_of_not_mem (h : .closed o ∉ log) : Retired o log where
  once := by
    rw [List.count_eq_zero.mpr h]
    exact Nat.zero_le 1
  unused pre post hsplit := by
    rw [hsplit] at h
    simp at h

/-- Events of other objects do not matter. -/
theorem Retired.append {evs : List (Event ω)} (h : Retired o log) (hclosed : .closed o ∉ evs)
    (hused : .used o ∉ evs) : Retired o (log ++ evs) where
  once := by
    rw [List.count_append, List.count_eq_zero.mpr hclosed]
    exact h.once
  unused pre post hsplit := by
    rcases List.append_eq_append_iff.mp hsplit with ⟨rest, -, hrest⟩ | ⟨rest, hlog, hrest⟩
    · rw [hrest] at hclosed
      simp at hclosed
    · cases rest with
      | nil =>
        rw [List.nil_append] at hrest
        rw [← hrest] at hclosed
        simp at hclosed
      | cons ev rest =>
        obtain ⟨rfl, hpost⟩ := List.cons.inj (hrest.trans List.cons_append)
        rw [hpost, List.mem_append, not_or]
        exact ⟨h.unused pre rest hlog, hused⟩

theorem retired_concat_closed (h : .closed o ∉ log) : Retired o (log ++ [.closed o]) where
  once := by
    rw [List.count_append, List.count_eq_zero.mpr h, List.count_singleton_self]
  unused pre post hsplit := by
    obtain rfl : post = [] := by
      rcases List.append_eq_append_iff.mp hsplit with ⟨rest, -, hrest⟩ | ⟨rest, hlog, hrest⟩
      · have hlen := congrArg List.length hrest
        simp only [List.length_append, List.length_cons, List.length_nil] at hlen
        exact List.length_eq_zero_iff.mp (by omega)
      · cases rest with
        | nil => exact (List.cons.inj hrest).2
        | cons ev rest =>
          -- the split is not inside `log`
          obtain ⟨rfl, -⟩ := List.cons.inj hrest
          rw [hlog] at h
          simp at h
    exact List.not_mem_nil

theorem not_retired_of_used_after {evs : List (Event ω)} (hclosed : .closed o ∈ log)
    (hused : .used o ∈ evs) : ¬ Retired o (log ++ evs) := by
  intro h
  obtain ⟨pre, post, rfl⟩ := List.append_of_mem hclosed
  refine h.unused pre (post ++ evs) (by simp) ?_
  exact List.mem_append_right _ hused

theorem not_balanced_of_not_mem (hopened : .opened o ∈ log) (h : .closed o ∉ log) :
    ¬ Balanced log := by
  intro hb
  have := hb.once o hopened
  rw [List.count_eq_zero.mpr h] at this
  omega

theorem not_balanced_of_twice (hopened : .opened o ∈ log) (h : 2 ≤ log.count (.closed o)) :
    ¬ Balanced log := by
  intro hb
  have := hb.once o hopened
  omega

end ObjectLog
