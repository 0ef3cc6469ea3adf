import CrayTests.EpisodeBarrier
import CrayTests.ThreadBarrierInvariant

/-!
# Safety and liveness of the thread barrier

Counting increments as joining and returns as leaving, every run of `ct_tbarrier` is a run of the
reusable barrier. A thread that waits in its loop is either behind a stored signal, which it will
see, or waits for a last joiner that still has statements to execute.
-/

namespace CrayTests.ThreadBarrier

variable {N : ℕ} {s : State N} {t u : Fin N}

def Thread.calls (th : Thread) : ℕ := th.returns + if th.pc = .outside then 0 else 1

/-- The thread has joined its episode and is not the one to store the signal. -/
def Waiting (N : ℕ) (th : Thread) : Prop :=
  th.pc = .compare ∧ th.njoiners + 1 ≠ N ∨ th.Spinning

def progress (s : State N) : EpisodeBarrier.Progress (Fin N) :=
  ⟨fun t => (s.thread t).increments, fun t => (s.thread t).returns⟩

variable {order : List (Fin N)}

theorem Inv.le_increments (h : Inv order s) (t : Fin N) :
    s.stores ≤ (s.thread t).increments ∧ (s.thread t).returns ≤ s.stores := by
  have hpos := (h.placed t).position
  unfold Thread.Position at hpos
  cases hpc : (s.thread t).pc <;> simp only [hpc] at hpos <;> omega

theorem progress_set {th : Thread} (hinc : th.increments = (s.thread t).increments)
    (hret : th.returns = (s.thread t).returns) : progress (s.set t th) = progress s := by
  have hthread (u : Fin N) : ((s.set t th).thread u).increments = (s.thread u).increments ∧
      ((s.set t th).thread u).returns = (s.thread u).returns := by
    by_cases hu : u = t
    · subst hu
      simp [hinc, hret]
    · simp [hu]
  simp only [progress, fun u => (hthread u).1, fun u => (hthread u).2]

/-- A step joins an episode, leaves one, or does neither. -/
theorem Inv.step_refines (h : Inv order s) (t : Fin N) :
    EpisodeBarrier.Step (progress s) (progress (step s t)) ∨
      progress (step s t) = progress s := by
  have hpos := (h.placed t).position
  unfold Thread.Position at hpos
  cases hpc : (s.thread t).pc with
  | fetchAdd =>
    left
    simp only [hpc] at hpos
    have hjoin := EpisodeBarrier.Step.join (p := progress s) t (hpos.2.trans hpos.1.symm)
    convert hjoin using 1
    simp only [step, hpc, progress, EpisodeBarrier.Progress.mk.injEq]
    constructor <;> funext u <;> by_cases hu : u = t <;> simp [hu]
  | toggle =>
    left
    simp only [hpc] at hpos
    have hleave := EpisodeBarrier.Step.leave (p := progress s) t (fun u => by
      have := (h.le_increments u).1
      simp only [progress]
      omega)
    convert hleave using 1
    simp only [step, hpc, progress, EpisodeBarrier.Progress.mk.injEq]
    constructor <;> funext u <;> by_cases hu : u = t <;> simp [hu]
  | _ =>
    right
    simp only [step, hpc]
    exact progress_set rfl rfl

theorem run_refines (schedule : List (Fin N)) (h : Inv order s)
    (hs : EpisodeBarrier.Reachable (progress s)) :
    EpisodeBarrier.Reachable (progress (run s schedule)) := by
  induction schedule generalizing s order with
  | nil => exact hs
  | cons t schedule ih =>
    obtain ⟨order', h'⟩ := h.next t
    refine ih h' ?_
    rcases h.step_refines t with hstep | heq
    · exact hs.tail hstep
    · rw [heq]
      exact hs

theorem reachable_refines (hs : Reachable s) : EpisodeBarrier.Reachable (progress s) := by
  obtain ⟨schedule, rfl⟩ := hs
  exact run_refines schedule Inv.initially .refl

theorem Inv.calls_range (h : Inv order s) (t : Fin N) :
    s.stores ≤ (s.thread t).calls ∧ (s.thread t).calls ≤ s.stores + 1 := by
  have hpos := (h.placed t).position
  unfold Thread.Position at hpos
  unfold Thread.calls
  cases hpc : (s.thread t).pc <;> simp only [hpc] at hpos <;> simp <;> omega

/-- A thread that has returned from its `e`-th call knows that all threads have done the increment
of theirs, and no thread is more than one episode ahead of another. -/
theorem tbarrier_safe (hs : Reachable s) :
    (∀ t e, e ≤ (s.thread t).returns → ∀ u, e ≤ (s.thread u).increments) ∧
      ∀ t u, (s.thread t).calls ≤ (s.thread u).calls + 1 ∧
        (s.thread t).increments ≤ (s.thread u).increments + 1 ∧
        (s.thread t).returns ≤ (s.thread u).returns + 1 := by
  have hsound := EpisodeBarrier.sound_of_reachable (reachable_refines hs)
  obtain ⟨order, h⟩ := inv_of_reachable hs
  refine ⟨fun t e he u => he.trans (hsound.left_le t u), fun t u => ⟨?_, ?_, ?_⟩⟩
  · exact (h.calls_range t).2.trans (Nat.succ_le_succ (h.calls_range u).1)
  · exact hsound.joined_le_joined t u
  · exact hsound.left_le_left t u

/-- Thread 0 waits while thread 1 ends the first episode and joins the second. -/
theorem tbarrier_safe_pair :
    ((run (init 2) [0, 0, 0, 1, 1, 1, 1, 1, 1, 1, 1]).thread 1).returns = 1 ∧
      1 ≤ ((run (init 2) [0, 0, 0, 1, 1, 1, 1, 1, 1, 1, 1]).thread 0).increments ∧
      ((run (init 2) [0, 0, 0, 1, 1, 1, 1, 1, 1, 1, 1]).thread 1).calls ≤
        ((run (init 2) [0, 0, 0, 1, 1, 1, 1, 1, 1, 1, 1]).thread 0).calls + 1 :=
  ⟨by decide, (tbarrier_safe ⟨_, rfl⟩).1 1 1 (by decide) 0, ((tbarrier_safe ⟨_, rfl⟩).2 1 0).1⟩

/-- The first thread to join an episode finds a counter of 0. -/
theorem Inv.counter_first (h : Inv order s) (hpc : (s.thread t).pc = .fetchAdd)
    (hfirst : ∀ u, (s.thread u).increments ≤ (s.thread t).increments) :
    s.counter (s.thread t).tbar.slot = 0 := by
  have hpos : (s.thread t).returns = s.stores ∧ (s.thread t).increments = s.stores := by
    simpa only [Thread.Position, hpc] using (h.placed t).position
  have hempty : order = [] := by
    refine List.eq_nil_iff_forall_not_mem.mpr (fun u hu => ?_)
    have := (h.mem_order u).mp hu
    have := hfirst u
    omega
  rw [h.slot_eq hpos.1, h.counter, hempty]
  simp

/-- A thread waiting in an episode whose signal is stored will see it. -/
theorem Inv.signal_ne (h : Inv order s) (hwait : Waiting N (s.thread t))
    (hstored : (s.thread t).returns < s.stores) : ¬ Unchanged s t := by
  have hp := h.placed t
  have hpos := hp.position
  unfold Thread.Position at hpos
  have hbehind : s.stores = (s.thread t).returns + 1 := by
    rcases hwait with ⟨hpc, -⟩ | hpc | hpc <;> simp only [hpc] at hpos <;> omega
  rw [Unchanged, h.signal, hp.phase, hp.slot, hbehind]
  exact sense_ne _

theorem stores_le_step (s : State N) (t : Fin N) : s.stores ≤ (step s t).stores := by
  cases hpc : (s.thread t).pc <;> simp [step, hpc]

theorem stores_le_run (s : State N) (schedule : List (Fin N)) :
    s.stores ≤ (run s schedule).stores := by
  induction schedule generalizing s with
  | nil => exact le_rfl
  | cons t schedule ih => exact (stores_le_step s t).trans (ih _)

/-- After the signal of an episode is stored, threads still waiting in it can leave for good. -/
theorem Inv.signal_ne_of_store (h : Inv order s) (hpc : (s.thread t).pc = .storeSignal)
    (schedule : List (Fin N))
    (hwait : Waiting N ((run (step s t) schedule).thread u))
    (hsame : ((run (step s t) schedule).thread u).returns = (s.thread t).returns) :
    ¬ Unchanged (run (step s t) schedule) u := by
  obtain ⟨-, -, hret, -⟩ := h.joined_of_last (Or.inr hpc)
  obtain ⟨order', h'⟩ := (h.storeSignal hpc).along schedule
  refine h'.signal_ne hwait ?_
  have hstores : (step s t).stores = s.stores + 1 := by simp [step, hpc]
  have := stores_le_run (step s t) schedule
  omega

/-- Threads that only reread their signal are not all there are. -/
theorem Inv.not_all_onlyRereads (h : Inv order s) (hN : 1 ≤ N) : ¬ ∀ t, OnlyRereads s t := by
  intro hall
  have hspin (t : Fin N) : t ∈ order ∧ (s.thread t).njoiners + 1 ≠ N := by
    obtain ⟨hsame, hpc⟩ := hall t
    have hloop : (s.thread t).Spinning := hpc.imp_right And.left
    have hnot : ¬ (s.thread t).returns < s.stores := fun hlt =>
      h.signal_ne (Or.inr hloop) hlt hsame
    have hpos := (h.placed t).position
    unfold Thread.Position at hpos
    rcases hloop with hpc | hpc <;> simp only [hpc] at hpos <;>
      exact ⟨h.mem_of_position (by omega), hpos.2.1⟩
  have hfull : order.length = N := by
    refine le_antisymm h.length_le ?_
    have hcard := Finset.card_le_card (fun t _ => List.mem_toFinset.mpr (hspin t).1 :
      (Finset.univ : Finset (Fin N)) ⊆ order.toFinset)
    rw [Finset.card_univ, Fintype.card_fin] at hcard
    exact hcard.trans order.toFinset_card_le
  obtain ⟨t, -, hlast⟩ := h.exists_last hN hfull
  exact (hspin t).2 hlast

/-- A thread that only rereads stays in its loop and changes no shared word. -/
theorem onlyRereads_step (h : OnlyRereads s t) :
    OnlyRereads (step s t) t ∧ (step s t).signal = s.signal ∧
      (step s t).counter = s.counter := by
  obtain ⟨hsame, hpc | ⟨hpc, hval⟩⟩ := h
  · simp only [step, hpc]
    refine ⟨⟨?_, Or.inr ⟨?_, ?_⟩⟩, rfl, rfl⟩ <;> simp [Unchanged]
    · exact hsame
    · exact hsame
  · simp only [step, hpc, if_pos hval]
    refine ⟨⟨?_, Or.inl ?_⟩, rfl, rfl⟩ <;> simp [Unchanged]
    exact hsame

/-- No lost wake-up and no deadlock. -/
theorem tbarrier_live (hN : 1 ≤ N) (hs : Reachable s) :
    (∀ t, (s.thread t).pc = .fetchAdd →
      (∀ u, (s.thread u).increments ≤ (s.thread t).increments) →
        s.counter (s.thread t).tbar.slot = 0) ∧
    (∀ t, (s.thread t).pc = .storeSignal → ∀ schedule u,
      Waiting N ((run (step s t) schedule).thread u) →
      ((run (step s t) schedule).thread u).returns = (s.thread t).returns →
        ¬ Unchanged (run (step s t) schedule) u) ∧
    ¬ ∀ t, (s.thread t).Inside ∧ OnlyRereads s t := by
  obtain ⟨order, h⟩ := inv_of_reachable hs
  refine ⟨fun t hpc hfirst => h.counter_first hpc hfirst,
    fun t hpc schedule u hwait hsame => h.signal_ne_of_store hpc schedule hwait hsame,
    fun hall => h.not_all_onlyRereads hN (fun t => (hall t).2)⟩

/-- Thread 1 is the last joiner of the first episode and thread 0 waits for it. -/
theorem tbarrier_live_pair :
    ¬ Unchanged (run (step (run (init 2) [0, 0, 0, 1, 1, 1, 1]) 1) [0]) 0 ∧
      ¬ ∀ t, ((run (init 2) [0, 0, 0, 1, 1, 1, 1]).thread t).Inside ∧
        OnlyRereads (run (init 2) [0, 0, 0, 1, 1, 1, 1]) t := by
  have hlive := tbarrier_live (N := 2) (by decide) ⟨[0, 0, 0, 1, 1, 1, 1], rfl⟩
  exact ⟨hlive.2.1 1 (by decide) [0] 0 (Or.inr (Or.inr (by decide))) (by decide), hlive.2.2⟩

end CrayTests.ThreadBarrier
