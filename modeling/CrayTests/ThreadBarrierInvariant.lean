import CrayTests.ThreadBarrier

/-!
# The invariant of the thread barrier

Let `K` be the number of signal stores. Every thread is in its call number `K` or has not left its
call number `K - 1` yet; the counter of the slot in use counts the threads that have joined call
`K` until the last of them resets it, and the signal words tell for which calls a thread may leave
its loop.
-/

namespace CrayTests.ThreadBarrier

variable {N : ℕ} {s : State N} {t u : Fin N} {th : Thread}

def Thread.Position (N stores : ℕ) (th : Thread) : Prop :=
  match th.pc with
  | .outside | .fetchAdd => th.returns = stores ∧ th.increments = stores
  | .compare => th.increments = th.returns + 1 ∧
      (th.returns = stores ∨ th.returns + 1 = stores ∧ th.njoiners + 1 ≠ N)
  | .storeCounter | .storeSignal =>
    th.returns = stores ∧ th.increments = stores + 1 ∧ th.njoiners + 1 = N
  | .loadSignal => th.increments = th.returns + 1 ∧ th.njoiners + 1 ≠ N ∧
      (th.returns = stores ∨ th.returns + 1 = stores)
  | .testVal => th.increments = th.returns + 1 ∧ th.njoiners + 1 ≠ N ∧
      (th.returns = stores ∧ th.val = th.tbar.phase th.tbar.slot ∨ th.returns + 1 = stores)
  | .toggle => th.returns + 1 = stores ∧ th.increments = stores

structure Thread.Placed (N stores : ℕ) (th : Thread) : Prop where
  size : th.tbar.njoiners = N
  slot : th.tbar.slot = slotOf th.returns
  phase : th.tbar.phase = sense th.returns
  position : th.Position N stores

/-- `order` lists the threads that have done the increment of the current episode, in the order of
their increments. -/
structure Inv (order : List (Fin N)) (s : State N) : Prop where
  placed : ∀ t, (s.thread t).Placed N s.stores
  signal : s.signal = sense s.stores
  nodup : order.Nodup
  mem_order : ∀ t, t ∈ order ↔ (s.thread t).increments = s.stores + 1
  ticket : ∀ (k : ℕ) (t : Fin N), order[k]? = some t → (s.thread t).njoiners = k
  counter : s.counter (slotOf s.stores) =
    if ∃ t, (s.thread t).pc = .storeSignal then 0 else (order.length : ℤ)
  idle : s.counter (slotOf (s.stores + 1)) = 0

namespace Inv

variable {order : List (Fin N)}

theorem length_le (h : Inv order s) : order.length ≤ N := by
  simpa using h.nodup.length_le_card

theorem mem_of_position (h : Inv order s)
    (ht : (s.thread t).increments = s.stores + 1) : t ∈ order := (h.mem_order t).mpr ht

/-- The tickets of the current episode are different. -/
theorem ticket_inj (h : Inv order s) (ht : t ∈ order) (hu : u ∈ order)
    (heq : (s.thread t).njoiners = (s.thread u).njoiners) : t = u := by
  obtain ⟨k, hk⟩ := List.mem_iff_getElem?.mp ht
  obtain ⟨l, hl⟩ := List.mem_iff_getElem?.mp hu
  have hkl : k = l := by
    have := h.ticket k t hk
    have := h.ticket l u hl
    omega
  subst hkl
  exact Option.some.inj (hk.symm.trans hl)

/-- When the last ticket is out, all threads have joined. -/
theorem length_of_last (h : Inv order s) (ht : t ∈ order)
    (hlast : (s.thread t).njoiners + 1 = N) : order.length = N := by
  obtain ⟨k, hk⟩ := List.mem_iff_getElem?.mp ht
  have hticket := h.ticket k t hk
  have hlt : k < order.length := (List.getElem?_eq_some_iff.mp hk).1
  have := h.length_le
  omega

theorem mem_of_full (h : Inv order s) (hfull : order.length = N) (u : Fin N) : u ∈ order := by
  have hcard : order.toFinset.card = Fintype.card (Fin N) := by
    rw [List.toFinset_card_of_nodup h.nodup, hfull, Fintype.card_fin]
  have huniv := (Finset.card_eq_iff_eq_univ _).mp hcard
  rw [← List.mem_toFinset, huniv]
  exact Finset.mem_univ u

theorem exists_last (h : Inv order s) (hN : 0 < N) (hfull : order.length = N) :
    ∃ t ∈ order, (s.thread t).njoiners + 1 = N := by
  have hlt : N - 1 < order.length := by omega
  refine ⟨order[N - 1], List.getElem_mem hlt, ?_⟩
  have := h.ticket (N - 1) order[N - 1] (List.getElem?_eq_getElem hlt)
  omega

/-- The last joiner finds all threads in the current episode. -/
theorem joined_of_last (h : Inv order s) (hpc : (s.thread t).pc = .storeCounter ∨
    (s.thread t).pc = .storeSignal) :
    t ∈ order ∧ (s.thread t).njoiners + 1 = N ∧ (s.thread t).returns = s.stores ∧
      ∀ u, u ∈ order := by
  have hpos := (h.placed t).position
  have hplace : (s.thread t).returns = s.stores ∧ (s.thread t).increments = s.stores + 1 ∧
      (s.thread t).njoiners + 1 = N := by
    rcases hpc with hpc | hpc <;> simpa only [Thread.Position, hpc] using hpos
  obtain ⟨hret, hinc, hlast⟩ := hplace
  have ht := h.mem_of_position hinc
  exact ⟨ht, hlast, hret, h.mem_of_full (h.length_of_last ht hlast)⟩

theorem initially : Inv [] (init N) where
  placed _ := ⟨rfl, rfl, rfl, rfl, rfl⟩
  signal := rfl
  nodup := List.nodup_nil
  mem_order t := by simp [init]
  ticket k t ht := by cases ht
  counter := by simp [init]
  idle := rfl

/-- A step that touches neither the shared words nor the thread's ticket keeps the invariant when
the thread's new position is a legal one. -/
theorem set_thread (h : Inv order s) (hplaced : th.Placed N s.stores)
    (hinc : th.increments = (s.thread t).increments)
    (hticket : th.njoiners = (s.thread t).njoiners)
    (hpc : (s.thread t).pc ≠ .storeSignal) (hpc' : th.pc ≠ .storeSignal) :
    Inv order (s.set t th) := by
  have same (u : Fin N) : ((s.set t th).thread u).increments = (s.thread u).increments ∧
      ((s.set t th).thread u).njoiners = (s.thread u).njoiners ∧
      (((s.set t th).thread u).pc = .storeSignal ↔ (s.thread u).pc = .storeSignal) := by
    by_cases hu : u = t
    · subst hu
      simp [hinc, hticket, hpc, hpc']
    · simp [hu]
  refine ⟨?_, h.signal, h.nodup, fun u => ?_, fun k u hk => ?_, ?_, h.idle⟩
  · exact State.forall_set (P := fun _ th => th.Placed N s.stores) hplaced fun u _ => h.placed u
  · rw [h.mem_order u, (same u).1, State.set_stores]
  · rw [(same u).2.1]
    exact h.ticket k u hk
  · simp only [fun u => (same u).2.2]
    exact h.counter

theorem slot_eq (h : Inv order s) (hret : (s.thread t).returns = s.stores) :
    (s.thread t).tbar.slot = slotOf s.stores := by
  rw [(h.placed t).slot, hret]

/-- Nobody resets the counter while a thread is still to join. -/
theorem not_storeSignal_of_not_mem (h : Inv order s) (ht : t ∉ order) :
    ¬ ∃ u, (s.thread u).pc = .storeSignal := by
  rintro ⟨u, hu⟩
  obtain ⟨-, -, -, hall⟩ := h.joined_of_last (Or.inr hu)
  exact ht (hall t)

theorem fetchAdd (h : Inv order s) (hpc : (s.thread t).pc = .fetchAdd) :
    Inv (order ++ [t]) (step s t) := by
  have hpos : (s.thread t).returns = s.stores ∧ (s.thread t).increments = s.stores := by
    simpa only [Thread.Position, hpc] using (h.placed t).position
  obtain ⟨hret, hinc⟩ := hpos
  have hnot : t ∉ order := by
    rw [h.mem_order, hinc]
    omega
  have hquiet := h.not_storeSignal_of_not_mem hnot
  have hslot := h.slot_eq hret
  have hcount : s.counter (slotOf s.stores) = order.length := by
    rw [h.counter, if_neg hquiet]
  have hstep : step s t =
      { s with
        counter := Function.update s.counter (slotOf s.stores) (order.length + 1) }.set t
        { s.thread t with
          pc := .compare, njoiners := order.length, increments := s.stores + 1 } := by
    simp only [step, hpc, hslot, hcount, hinc]
  rw [hstep]
  have hp := h.placed t
  refine ⟨?_, h.signal, ?_, fun u => ?_, fun k u hk => ?_, ?_, ?_⟩
  · refine State.forall_set (P := fun _ th => th.Placed N s.stores) ?_ fun u _ => h.placed u
    exact ⟨hp.size, hp.slot, hp.phase, by simp [Thread.Position, hret]⟩
  · exact List.nodup_append.mpr ⟨h.nodup, List.nodup_singleton t, fun a ha b hb => by
      rintro rfl
      obtain rfl := List.mem_singleton.mp hb
      exact hnot ha⟩
  · by_cases hu : u = t
    · subst hu
      simp
    · simp [hu, h.mem_order u]
  · by_cases hlt : k < order.length
    · rw [List.getElem?_append_left hlt] at hk
      have hu : u ≠ t := by
        rintro rfl
        exact hnot (List.mem_of_getElem? hk)
      simpa [hu] using h.ticket k u hk
    · obtain ⟨rfl, rfl⟩ : k = order.length ∧ t = u := by
        rw [List.getElem?_append_right (by omega), List.getElem?_singleton] at hk
        split_ifs at hk with hz
        exact ⟨by omega, Option.some.inj hk⟩
      simp
  · rw [if_neg]
    · simp
    · refine not_exists.mpr ?_
      exact State.forall_set (P := fun _ th => th.pc ≠ .storeSignal) nofun
        fun u _ hu => hquiet ⟨u, hu⟩
  · simpa [slotOf_succ_ne] using h.idle

theorem storeCounter (h : Inv order s) (hpc : (s.thread t).pc = .storeCounter) :
    Inv order (step s t) := by
  obtain ⟨ht, hlast, hret, -⟩ := h.joined_of_last (Or.inl hpc)
  have hinc := (h.mem_order t).mp ht
  have hslot := h.slot_eq hret
  have hstep : step s t =
      { s with counter := Function.update s.counter (slotOf s.stores) 0 }.set t
        { s.thread t with pc := .storeSignal } := by
    simp only [step, hpc, hslot]
  rw [hstep]
  have hp := h.placed t
  refine ⟨?_, h.signal, h.nodup, ?_, fun k => ?_, ?_, ?_⟩
  · refine State.forall_set (P := fun _ th => th.Placed N s.stores) ?_ fun u _ => h.placed u
    exact ⟨hp.size, hp.slot, hp.phase, by simp [Thread.Position, hret, hinc, hlast]⟩
  · exact State.forall_set (P := fun u th => u ∈ order ↔ th.increments = s.stores + 1)
      (h.mem_order t) fun u _ => h.mem_order u
  · exact State.forall_set (P := fun u th => order[k]? = some u → th.njoiners = k)
      (h.ticket k t) fun u _ => h.ticket k u
  · rw [if_pos ⟨t, by simp⟩]
    simp
  · simpa [slotOf_succ_ne] using h.idle

/-- A thread in the episode that is not its last joiner waits, and goes on waiting in the next. -/
theorem placed_succ (h : Inv order s) (hu : u ∈ order) (hnl : (s.thread u).njoiners + 1 ≠ N) :
    (s.thread u).Placed N (s.stores + 1) ∧ (s.thread u).pc ≠ .storeSignal := by
  have hp := h.placed u
  have hui := (h.mem_order u).mp hu
  have hpos := hp.position
  unfold Thread.Position at hpos
  refine ⟨⟨hp.size, hp.slot, hp.phase, ?_⟩, ?_⟩
  · unfold Thread.Position
    cases hupc : (s.thread u).pc <;> simp only [hupc] at hpos ⊢ <;> omega
  · intro hupc
    simp only [hupc] at hpos
    omega

/-- Storing the signal ends the episode: the threads in it are now one call behind. -/
theorem storeSignal (h : Inv order s) (hpc : (s.thread t).pc = .storeSignal) :
    Inv [] (step s t) := by
  obtain ⟨ht, hlast, hret, hall⟩ := h.joined_of_last (Or.inr hpc)
  have hinc := (h.mem_order t).mp ht
  have hslot := h.slot_eq hret
  have hphase : (s.thread t).tbar.phase (slotOf s.stores) = sense s.stores (slotOf s.stores) := by
    rw [(h.placed t).phase, hret]
  have hstep : step s t =
      { s with signal := sense (s.stores + 1), stores := s.stores + 1 }.set t
        { s.thread t with pc := .toggle } := by
    simp only [step, hpc, hslot, hphase, sense, h.signal]
  have hp := h.placed t
  have others (u : Fin N) (hu : u ≠ t) := h.placed_succ (hall u) fun hlast' =>
    hu (h.ticket_inj (hall u) ht (by omega))
  rw [hstep]
  refine ⟨?_, rfl, List.nodup_nil, ?_, fun k u hk => ?_, ?_, ?_⟩
  · refine State.forall_set (P := fun _ th => th.Placed N (s.stores + 1)) ?_
      fun u hu => (others u hu).1
    exact ⟨hp.size, hp.slot, hp.phase, by simp [Thread.Position, hret, hinc]⟩
  · refine State.forall_set (P := fun u th => u ∈ ([] : List (Fin N)) ↔
      th.increments = s.stores + 1 + 1) (by simp [hinc]) fun u _ => ?_
    simp [(h.mem_order u).mp (hall u)]
  · cases hk
  · rw [if_neg]
    · simpa using h.idle
    · refine not_exists.mpr ?_
      exact State.forall_set (P := fun _ th => th.pc ≠ .storeSignal)
        (fun htoggle => by cases htoggle) fun u hu => (others u hu).2
  · have hreset := h.counter
    rw [if_pos ⟨t, hpc⟩] at hreset
    simpa [slotOf_add_two] using hreset

/-- What one step preserves. -/
theorem next (h : Inv order s) (t : Fin N) :
    ∃ order', Inv order' (step s t) := by
  have hp := h.placed t
  have hpos := hp.position
  unfold Thread.Position at hpos
  cases hpc : (s.thread t).pc with
  | outside =>
    simp only [hpc] at hpos
    simp only [step, hpc]
    exact ⟨order, h.set_thread ⟨hp.size, hp.slot, hp.phase, hpos⟩ rfl rfl (by simp [hpc])
      (by simp)⟩
  | fetchAdd => exact ⟨_, h.fetchAdd hpc⟩
  | compare =>
    simp only [hpc] at hpos
    simp only [step, hpc, hp.size]
    refine ⟨order, h.set_thread ⟨hp.size, hp.slot, hp.phase, ?_⟩ rfl rfl (by simp [hpc]) ?_⟩
    · by_cases hlast : (s.thread t).njoiners + 1 = N
      · simp only [if_pos hlast, Thread.Position]
        omega
      · simp only [if_neg hlast, Thread.Position]
        omega
    · simp only []
      split_ifs <;> simp
  | storeCounter => exact ⟨_, h.storeCounter hpc⟩
  | storeSignal => exact ⟨_, h.storeSignal hpc⟩
  | loadSignal =>
    simp only [hpc] at hpos
    simp only [step, hpc]
    refine ⟨order, h.set_thread ⟨hp.size, hp.slot, hp.phase, ?_⟩ rfl rfl (by simp [hpc])
      (by simp)⟩
    obtain ⟨hinc, hlast, hret⟩ := hpos
    refine ⟨hinc, hlast, hret.imp_left (fun hret => ⟨hret, ?_⟩)⟩
    -- the signal of the current episode is not stored yet
    change (s.thread t).returns = s.stores at hret
    simp only [h.signal, hp.phase, hret]
  | testVal =>
    simp only [hpc] at hpos
    simp only [step, hpc]
    refine ⟨order, h.set_thread ⟨hp.size, hp.slot, hp.phase, ?_⟩ rfl rfl (by simp [hpc]) ?_⟩
    · obtain ⟨hinc, hlast, hret⟩ := hpos
      by_cases hval : (s.thread t).val = (s.thread t).tbar.phase (s.thread t).tbar.slot
      · simp only [if_pos hval, Thread.Position]
        omega
      · simp only [if_neg hval, Thread.Position]
        have := hret.resolve_left (fun hc => hval hc.2)
        omega
    · simp only []
      split_ifs <;> simp
  | toggle =>
    simp only [hpc] at hpos
    simp only [step, hpc]
    refine ⟨order, h.set_thread ⟨hp.size, ?_, ?_, hpos⟩ rfl rfl (by simp [hpc]) (by simp)⟩
    · simp only [Tbar.toggle, hp.slot, slotOf]
    · simp only [Tbar.toggle, hp.slot, hp.phase, sense]

theorem along (h : Inv order s) (schedule : List (Fin N)) :
    ∃ order', Inv order' (run s schedule) := by
  induction schedule generalizing s order with
  | nil => exact ⟨order, h⟩
  | cons t schedule ih =>
    obtain ⟨order', h'⟩ := h.next t
    exact ih h'

end Inv

theorem inv_of_reachable (hs : Reachable s) : ∃ order, Inv order s := by
  obtain ⟨schedule, rfl⟩ := hs
  exact Inv.initially.along schedule

end CrayTests.ThreadBarrier
