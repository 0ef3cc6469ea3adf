import CrayTests.ThreadBarrierSafety

/-!
# Waiting at the thread barrier

What callers of `ct_tbarrier` rely on. A statement of a thread that is inside, other than one more
look at an unchanged signal, lowers the number of statements that the threads have in front of
them; and where all threads inside only look, some thread has not called yet.
-/

namespace CrayTests.ThreadBarrier

variable {N : ℕ} {s : State N} {t u : Fin N} {order : List (Fin N)}

theorem Reachable.step (h : Reachable s) (t : Fin N) : Reachable (ThreadBarrier.step s t) :=
  h.run [t]

theorem step_thread_ne (s : State N) (h : u ≠ t) : (step s t).thread u = s.thread u := by
  cases hpc : (s.thread t).pc <;> simp [step, hpc, h]

/-- A thread calls with its first statement. -/
theorem calls_call (h : (s.thread t).pc = .outside) :
    ((step s t).thread t).calls = (s.thread t).calls + 1 ∧ ((step s t).thread t).Inside := by
  simp [step, h, Thread.calls, Thread.Inside]

theorem calls_inside (h : (s.thread t).Inside) :
    ((step s t).thread t).calls = (s.thread t).calls := by
  cases hpc : (s.thread t).pc with
  | outside => exact absurd hpc h
  | compare =>
    simp only [step, hpc, State.set_thread_self, Thread.calls]
    split_ifs <;> simp_all
  | testVal =>
    simp only [step, hpc, State.set_thread_self, Thread.calls]
    split_ifs <;> simp_all
  | _ => simp [step, hpc, Thread.calls]

/-- The statements up to the return, at most, without looks at an unchanged signal. -/
def remaining (s : State N) (t : Fin N) : ℕ :=
  let th := s.thread t
  match th.pc with
  | .outside => 0
  | .fetchAdd => 8
  | .compare => 7
  | .storeCounter => 6
  | .storeSignal => 5
  | .loadSignal => if s.signal th.tbar.slot = th.tbar.phase th.tbar.slot then 4 else 3
  | .testVal => if th.val = th.tbar.phase th.tbar.slot then 4 else 2
  | .toggle => 1

theorem remaining_call (h : (s.thread t).pc = .outside) : remaining (step s t) t = 8 := by
  simp [step, h, remaining]

/-- The thread itself. -/
theorem remaining_lt (hin : (s.thread t).Inside) (hnot : ¬ OnlyRereads s t) :
    remaining (step s t) t < remaining s t := by
  cases hpc : (s.thread t).pc with
  | outside => exact absurd hpc hin
  | fetchAdd => simp [remaining, step, hpc]
  | compare =>
    by_cases hlast : (s.thread t).njoiners + 1 = (s.thread t).tbar.njoiners
    · simp [remaining, step, hpc, hlast]
    · simp only [remaining, step, hpc, if_neg hlast, State.set_thread_self]
      split_ifs <;> omega
  | storeCounter => simp [remaining, step, hpc]
  | storeSignal => simp [remaining, step, hpc]
  | loadSignal =>
    have hchanged : ¬ s.signal (s.thread t).tbar.slot =
        (s.thread t).tbar.phase (s.thread t).tbar.slot := fun h => hnot ⟨h, .inl hpc⟩
    simp [remaining, step, hpc, hchanged]
  | testVal =>
    by_cases hval : (s.thread t).val = (s.thread t).tbar.phase (s.thread t).tbar.slot
    · have hchanged : ¬ s.signal (s.thread t).tbar.slot =
          (s.thread t).tbar.phase (s.thread t).tbar.slot := fun h => hnot ⟨h, .inr ⟨hpc, hval⟩⟩
      simp [remaining, step, hpc, hval, hchanged]
    · simp [remaining, step, hpc, hval]
  | toggle => simp [remaining, step, hpc]

/-- The others. Only a store of the signal is seen by them, and it sets them free. -/
theorem Inv.remaining_le (h : Inv order s) (hu : u ≠ t) :
    remaining (step s t) u ≤ remaining s u := by
  have hthread := step_thread_ne s hu
  have hsame (hsignal : (step s t).signal = s.signal) : remaining (step s t) u ≤ remaining s u := by
    simp [remaining, hthread, hsignal]
  cases hpc : (s.thread t).pc with
  | storeSignal =>
    cases hupc : (s.thread u).pc with
    | loadSignal =>
      obtain ⟨-, -, hret, hall⟩ := h.joined_of_last (.inr hpc)
      have hinc := (h.mem_order u).mp (hall u)
      have hpos : (s.thread u).increments = (s.thread u).returns + 1 := by
        have hpos := (h.placed u).position
        simp only [Thread.Position, hupc] at hpos
        exact hpos.1
      have hequal : (s.thread u).returns = (s.thread t).returns := by omega
      have hslot : (s.thread u).tbar.slot = (s.thread t).tbar.slot := by
        rw [(h.placed u).slot, (h.placed t).slot, hequal]
      have hphase : (s.thread u).tbar.phase = (s.thread t).tbar.phase := by
        rw [(h.placed u).phase, (h.placed t).phase, hequal]
      have hchanged : ¬ (step s t).signal (s.thread u).tbar.slot =
          (s.thread u).tbar.phase (s.thread u).tbar.slot := by
        have hsense := sense_ne (s.thread t).returns
        rw [sense_succ] at hsense
        simpa [hslot, hphase, step, hpc, (h.placed t).slot, (h.placed t).phase] using hsense
      simp only [remaining, hthread, hupc, if_neg hchanged]
      split_ifs <;> omega
    | _ => simp [remaining, hthread, hupc]
  | _ => exact hsame (by simp [step, hpc])

theorem Inv.sum_remaining_lt (h : Inv order s) (hin : (s.thread t).Inside)
    (hnot : ¬ OnlyRereads s t) : ∑ u, remaining (step s t) u < ∑ u, remaining s u := by
  refine Finset.sum_lt_sum (fun u _ => ?_) ⟨t, Finset.mem_univ t, remaining_lt hin hnot⟩
  by_cases hu : u = t
  · exact hu ▸ (remaining_lt hin hnot).le
  · exact h.remaining_le hu

theorem Inv.sum_remaining_call (h : Inv order s) (hout : (s.thread t).pc = .outside) :
    ∑ u, remaining (step s t) u ≤ ∑ u, remaining s u + 8 := by
  have hrest : ∑ u ∈ Finset.univ.erase t, remaining (step s t) u ≤
      ∑ u ∈ Finset.univ.erase t, remaining s u :=
    Finset.sum_le_sum fun u hu => h.remaining_le (Finset.ne_of_mem_erase hu)
  have hself : remaining s t = 0 := by simp [remaining, hout]
  rw [← Finset.add_sum_erase _ _ (Finset.mem_univ t),
    ← Finset.add_sum_erase _ (remaining s) (Finset.mem_univ t), remaining_call hout, hself]
  omega

/-- Where the threads inside only look at the signal, one of the others has called less often. -/
theorem Inv.exists_absent (h : Inv order s) (hin : (s.thread t).Inside)
    (hall : ∀ u, (s.thread u).Inside → OnlyRereads s u) :
    ∃ u, (s.thread u).pc = .outside ∧ (s.thread u).calls < (s.thread t).calls := by
  obtain ⟨u, hu⟩ : ∃ u, (s.thread u).pc = .outside := by
    by_contra hnone
    have hN : 1 ≤ N := t.pos
    exact h.not_all_onlyRereads hN fun u => hall u fun hout => hnone ⟨u, hout⟩
  refine ⟨u, hu, ?_⟩
  have hcalls : (s.thread u).calls = s.stores := by
    have hpos := (h.placed u).position
    simp only [Thread.Position, hu] at hpos
    simp [Thread.calls, hu, hpos.1]
  obtain ⟨hsame, hpc⟩ := hall t hin
  have hloop : (s.thread t).Spinning := hpc.imp_right And.left
  have hnot : ¬ (s.thread t).returns < s.stores := fun hlt => h.signal_ne (.inr hloop) hlt hsame
  have hout : (s.thread t).pc ≠ .outside := hin
  rw [hcalls, Thread.calls, if_neg hout]
  omega

end CrayTests.ThreadBarrier
