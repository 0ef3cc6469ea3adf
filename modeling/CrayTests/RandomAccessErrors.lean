import CrayTests.RandomAccessTable

/-!
# What the verification phase measures

The second call of `update_table` draws the numbers of the first once more, so applied updates
cancel and a word differs from its initial value by the updates to it that were lost in either
call. Each rank counts such words in its own table, and the counts are summed.
-/

namespace CrayTests.RandomAccess
open CInteger RankProgram XorSum XorStore

variable {l : Layout} {b : Buffers l} {word : Fin l.numRanks → ℕ → Word} {r : Fin l.numRanks}
  {e : ℕ} {D : Finset (Fin l.numRanks × Label)}

theorem runs_countErrors (hsmall : l.SmallTables) :
    Runs (predicted word) r e (countErrors r) (checkEvents word r e) (errorCount word r) e := by
  have hlocal := hsmall r r.isLt
  refine Runs.loop _ (l.localTableSize r)
    (fun k => (((Finset.range k).filter (fun i => word r i ≠ ownOffset r i)).card : ℤ)) _
    (fun k hk => ?_)
  rw [Nat.zero_add]
  have hcard : ((Finset.range k).filter (fun i => word r i ≠ ownOffset r i)).card ≤ k :=
    (Finset.card_filter_le _ _).trans (Finset.card_range k).le
  have hnext : (((Finset.range (k + 1)).filter (fun i => word r i ≠ ownOffset r i)).card : ℤ) =
      if word r k ≠ ownOffset r k then
        int64 (((Finset.range k).filter (fun i => word r i ≠ ownOffset r i)).card + 1)
      else (((Finset.range k).filter (fun i => word r i ≠ ownOffset r i)).card : ℤ) := by
    rw [int64_eq_self (by omega) (by omega), Finset.card_filter, Finset.sum_range_succ,
      ← Finset.card_filter]
    split_ifs <;> push_cast <;> ring
  rw [hnext]
  exact Runs.op _ (.pure _)

/-- Summing counts in an integer type is exact while the total fits. -/
theorem foldl_wrap_sum {wrap : ℤ → ℤ} {bound : ℤ} (hwrap : ∀ x, 0 ≤ x → x < bound → wrap x = x)
    {valAt : ℕ → ℤ} (m : ℕ) (hpos : ∀ i, 0 ≤ valAt i)
    (hfit : ∑ i ∈ Finset.range (m + 1), valAt i < bound) :
    (List.range m).foldl (fun ret i => wrap (ret + valAt (i + 1))) (valAt 0) =
      ∑ i ∈ Finset.range (m + 1), valAt i := by
  induction m with
  | zero => simp
  | succ m ih =>
    rw [Finset.sum_range_succ] at hfit ⊢
    have hnonneg : 0 ≤ ∑ i ∈ Finset.range (m + 1), valAt i :=
      Finset.sum_nonneg (fun i _ => hpos i)
    have hlast := hpos (m + 1)
    rw [List.range_succ, List.foldl_append, ih (by omega)]
    exact hwrap _ (by omega) hfit

def totalErrors (word : Fin l.numRanks → ℕ → Word) : ℕ := ∑ q, errorCount word q

theorem totalErrors_le (word : Fin l.numRanks → ℕ → Word) : totalErrors word ≤ l.tableSize := by
  have hsum := l.tiles.sum_eq (fun _ => 1) l.numRanks
  simp only [Finset.sum_const, Finset.card_range, smul_eq_mul, mul_one] at hsum
  rw [l.globalStart_numRanks, Finset.sum_range] at hsum
  rw [← hsum]
  exact Finset.sum_le_sum (fun q _ => (Finset.card_filter_le _ _).trans (Finset.card_range _).le)

theorem runs_ctAllreduceInt64Sum (hsmall : l.SmallTables) :
    Runs (predicted word) r 8 (ctAllreduceInt64Sum (errorCount word r))
      ((8, .sync (.allgather (errorCount word r))) :: barrierAt l 9) (totalErrors word) 10 := by
  let valAt : ℕ → ℤ := fun i => if h : i < l.numRanks then (errorCount word ⟨i, h⟩ : ℤ) else 0
  have hpos (i : ℕ) : 0 ≤ valAt i := by
    simp only [valAt]
    split_ifs <;> omega
  have hranks : l.numRanks - 1 + 1 = l.numRanks := Nat.sub_add_cancel l.ranks_pos
  have htotal : ∑ i ∈ Finset.range l.numRanks, valAt i = totalErrors word := by
    rw [Finset.sum_range, totalErrors]
    push_cast
    exact Finset.sum_congr rfl (fun q _ => dif_pos q.isLt)
  have hle := totalErrors_le word
  have hsize := hsmall.tableSize_lt
  have hwrap (x : ℤ) (hx : 0 ≤ x) (hlt : x < 2 ^ 63) : int64 x = x := int64_eq_self (by omega) hlt
  have hfold := foldl_wrap_sum hwrap (l.numRanks - 1) hpos (by rw [hranks, htotal]; omega)
  rw [hranks, htotal] at hfold
  have hgather : Runs (predicted word) r 8 (ctpmAllgather (errorCount word r))
      [(8, .sync (.allgather (errorCount word r)))] (fun q => (errorCount word q : ℤ)) 9 :=
    Runs.sync (I := store 64 l.numRanks ℕ Label Collective) _ (.pure _)
  rw [← hfold]
  refine Runs.congr ?_ (Runs.bind hgather (Runs.bind runs_ctpmBarrier (.pure _)))
  rw [List.append_nil]
  rfl

def accessEvents (b : Buffers l) (word : Fin l.numRanks → ℕ → Word) (rank : Fin l.numRanks) :
    List (AccessEvent l) :=
  firstUpdateEvents b rank ++ (barrierAt l 2 ++ ([(3, .sync .bcast)] ++ (barrierAt l 4 ++
    ((barrierAt l 5 ++ (updateEvents b rank true 6 ++ barrierAt l 6)) ++
      (checkEvents word rank 7 ++ (barrierAt l 7 ++
        (((8, .sync (.allgather (errorCount word rank))) :: barrierAt l 9) ++ barrierAt l 10)))))))

theorem runs_randomAccess (hsmall : l.SmallTables) :
    Runs (predicted word) r 0 (randomAccess b r) (accessEvents b word r) (totalErrors word) 11 := by
  have hbcast : Runs (predicted word) r 3 ctpmBcast [(3, .sync .bcast)] () 4 :=
    Runs.sync (I := store 64 l.numRanks ℕ Label Collective) .bcast (.pure ())
  refine Runs.congr ?_ (Runs.bind (runs_firstUpdate hsmall) (Runs.bind runs_ctpmBarrier
    (Runs.bind hbcast (Runs.bind runs_ctpmBarrier (Runs.bind (runs_updateTable hsmall true)
      (Runs.bind (runs_countErrors hsmall) (Runs.bind runs_ctpmBarrier
        (Runs.bind (runs_ctAllreduceInt64Sum hsmall) (Runs.bind runs_ctpmBarrier
          (.pure _))))))))))
  simp [accessEvents]

theorem placed_accessEvents {ev : AccessEvent l} (h : ev ∈ accessEvents b word r) :
    Placed word r ev := by
  simp only [accessEvents, List.mem_append, List.mem_cons, List.not_mem_nil, or_false] at h
  rcases h with h | h | rfl | h | (h | h | h) | h | h | (rfl | h) | h
  · exact placed_firstUpdateEvents h
  · exact placed_barrierAt (by decide) (by decide) h
  · rfl
  · exact placed_barrierAt (by decide) (by decide) h
  · exact placed_barrierAt (by decide) (by decide) h
  · exact placed_updateEvents (Or.inr rfl) h
  · exact placed_barrierAt (by decide) (by decide) h
  · exact placed_checkEvents h
  · exact placed_barrierAt (by decide) (by decide) h
  · rfl
  · exact placed_barrierAt (by decide) (by decide) h
  · exact placed_barrierAt (by decide) (by decide) h

/-- The number an update (rank, call, iteration) xors into the table. -/
def ran (l : Layout) (u : Fin l.numRanks × Label) : Word := (l.phaseDraws u.1).getD u.2.2 0

/-- The xor of the lost updates addressed to a global offset. -/
def lostAt (l : Layout) (D : Finset (Fin l.numRanks × Label)) (g : ℕ) : Xored 64 :=
  ∑ u ∈ D with l.offset (ran l u) = g, xored (ran l u)

/-- The number of global offsets whose lost updates do not cancel. -/
def uncancelled (l : Layout) (D : Finset (Fin l.numRanks × Label)) : ℕ :=
  ((Finset.range l.tableSize).filter (fun g => lostAt l D g ≠ 0)).card

def AreUpdates (l : Layout) (D : Finset (Fin l.numRanks × Label)) : Prop :=
  ∀ u ∈ D, u.2.2 < l.procNumUpdates u.1

theorem ran_eq_drawn {u : Fin l.numRanks × Label} (h : u.2.2 < l.procNumUpdates u.1) :
    ran l u = drawn l u.1 u.2.2 := by
  have h' : u.2.2 < 4 * l.localTableSize u.1 := h
  rw [ran, l.phaseDraws_eq, List.getD_eq_getElem?_getD, List.getElem?_map,
    List.getElem?_range h']
  rfl

theorem lostAt_eq (g : ℕ) : lostAt l D g = ∑ u ∈ D, addressed l g (ran l u) :=
  Finset.sum_filter _ _

/-- Sums over the lost updates of one call, rank by rank. -/
theorem sum_lost_call (hD : AreUpdates l D) (second : Bool) (g : ℕ) :
    ∑ r : Fin l.numRanks, ∑ i ∈ Finset.range (l.procNumUpdates r),
        (if (r, (second, i)) ∈ D then addressed l g (drawn l r i) else 0) =
      ∑ u ∈ D, if u.2.1 = second then addressed l g (ran l u) else 0 := by
  have hpoint (r : Fin l.numRanks) (i : ℕ) :
      (if (r, (second, i)) ∈ D then addressed l g (drawn l r i) else 0) =
        ∑ u ∈ D, if u = (r, (second, i)) then addressed l g (drawn l u.1 u.2.2) else 0 := by
    rw [Finset.sum_ite_eq']
  simp only [hpoint]
  rw [Finset.sum_congr rfl (fun r _ => Finset.sum_comm), Finset.sum_comm]
  refine Finset.sum_congr rfl (fun u hu => ?_)
  obtain ⟨r, call, i⟩ := u
  have hi : i ∈ Finset.range (l.procNumUpdates r) := Finset.mem_range.mpr (hD _ hu)
  by_cases hcall : call = second
  · subst hcall
    rw [if_pos rfl, Finset.sum_eq_single r, Finset.sum_eq_single i, if_pos rfl,
      ran_eq_drawn (hD _ hu)]
    · intro j _ hj
      exact if_neg (fun h => hj (by simpa using h.symm))
    · exact fun h => (h hi).elim
    · intro q _ hq
      refine Finset.sum_eq_zero fun j _ => if_neg fun h => hq ?_
      simpa using (congrArg Prod.fst h).symm
    · exact fun h => (h (Finset.mem_univ r)).elim
  · rw [if_neg hcall]
    exact Finset.sum_eq_zero (fun q _ => Finset.sum_eq_zero (fun j _ =>
      if_neg (fun h => hcall (by simpa using congrArg (fun u => u.2.1) h))))

/-- The applied updates of one call are all its updates and the lost ones once more. -/
theorem sum_applied_call (hD : AreUpdates l D) (second : Bool) (g : ℕ) :
    ∑ r : Fin l.numRanks, ∑ i ∈ Finset.range (l.procNumUpdates r),
        (if (r, (second, i)) ∈ D then 0 else addressed l g (drawn l r i)) =
      ∑ r : Fin l.numRanks, ∑ i ∈ Finset.range (l.procNumUpdates r),
          addressed l g (drawn l r i) +
        ∑ u ∈ D, if u.2.1 = second then addressed l g (ran l u) else 0 := by
  rw [← sum_lost_call hD, ← Finset.sum_add_distrib]
  refine Finset.sum_congr rfl (fun r _ => ?_)
  rw [← Finset.sum_add_distrib]
  refine Finset.sum_congr rfl (fun i _ => ?_)
  split_ifs
  · exact (add_self _).symm
  · exact (add_zero _).symm

/-- Over both calls only the lost updates remain. -/
theorem sum_applied (hD : AreUpdates l D) (g : ℕ) :
    ∑ r : Fin l.numRanks, ∑ i ∈ Finset.range (l.procNumUpdates r),
        (if (r, (false, i)) ∈ D then 0 else addressed l g (drawn l r i)) +
      ∑ r : Fin l.numRanks, ∑ i ∈ Finset.range (l.procNumUpdates r),
        (if (r, (true, i)) ∈ D then 0 else addressed l g (drawn l r i)) = lostAt l D g := by
  rw [sum_applied_call hD, sum_applied_call hD, add_add_add_comm, add_self, zero_add,
    ← Finset.sum_add_distrib, lostAt_eq]
  refine Finset.sum_congr rfl (fun u _ => ?_)
  cases u.2.1 <;> simp

theorem written_accessEvents {j : ℕ} (hj : j < l.localTableSize r) (init : Word) :
    written j init (accessEvents b word r) = ownOffset r j := by
  rw [accessEvents, written_append, written_firstUpdateEvents hj]
  refine written_of_forall_ne (fun e j' v h => ?_)
  simp [barrierAt, checkEvents, no_write_updateEvents] at h

theorem received_accessEvents (hsmall : l.SmallTables) (hD : AreUpdates l D)
    {q : Fin l.numRanks} {j : ℕ} (hj : j < l.localTableSize q) :
    received (fabric b D) (accessEvents b word) q j = lostAt l D (l.globalStart q + j) := by
  rw [← sum_applied hD, ← Finset.sum_add_distrib]
  refine Finset.sum_congr rfl (fun r _ => ?_)
  have hfirst : ((firstUpdateEvents b r).map (contribution (fabric b D) r q j)).sum =
      ∑ i ∈ Finset.range (l.procNumUpdates r),
        if (r, (false, i)) ∈ D then 0 else addressed l (l.globalStart q + j) (drawn l r i) := by
    simp only [firstUpdateEvents, List.map_append, List.sum_append, sum_contribution_initEvents,
      sum_contribution_barrierAt, zero_add, add_zero]
    exact sum_updateEvents hsmall r false 1 hj
  have hcheck : ((checkEvents word r 7).map (contribution (fabric b D) r q j)).sum = 0 :=
    sum_contribution_eq_zero (fun _ _ _ _ _ h => by simp [checkEvents] at h)
  simp only [accessEvents, List.map_append, List.sum_append, sum_contribution_barrierAt, hcheck,
    hfirst, sum_updateEvents hsmall r true 6 hj]
  simp [contribution, sum_contribution_barrierAt]

def finalTable (D : Finset (Fin l.numRanks × Label)) (q : Fin l.numRanks) (j : ℕ) : Word :=
  unxored (xored (ownOffset q j) + lostAt l D (l.globalStart q + j))

theorem finalTable_ne_iff (q : Fin l.numRanks) (j : ℕ) :
    finalTable D q j ≠ ownOffset q j ↔ lostAt l D (l.globalStart q + j) ≠ 0 := by
  rw [not_iff_not, ← xored_inj, finalTable, xored_unxored]
  exact add_eq_left

/-- The ranks' counts add up to a count over the whole table. -/
theorem totalErrors_finalTable : totalErrors (finalTable D) = uncancelled l D := by
  have htiles := l.tiles.sum_eq (fun g => if lostAt l D g ≠ 0 then 1 else 0) l.numRanks
  rw [l.globalStart_numRanks, Finset.sum_range, ← Finset.card_filter] at htiles
  rw [uncancelled, ← htiles]
  refine Finset.sum_congr rfl (fun q _ => ?_)
  rw [errorCount, Finset.card_filter]
  exact Finset.sum_congr rfl (fun j _ => by simp only [finalTable_ne_iff])

theorem randomAccess_phased (hsmall : l.SmallTables) (b : Buffers l) (mem : Words 64 l.numRanks)
    (hD : AreUpdates l D) :
    Phased (fabric b D) mem (predicted (finalTable D)) (randomAccess b) :=
  phased_of_placed (fun _ => runs_randomAccess hsmall) (fun _ _ => placed_accessEvents)
    (fun q j hj => by
      rw [written_accessEvents hj, received_accessEvents hsmall hD hj]
      rfl)

theorem uncancelled_empty : uncancelled l ∅ = 0 := by
  simp [uncancelled, lostAt]

/-- Every offset that counts is the address of a lost update. -/
theorem uncancelled_le_card (D : Finset (Fin l.numRanks × Label)) : uncancelled l D ≤ D.card := by
  have hsub : (Finset.range l.tableSize).filter (fun g => lostAt l D g ≠ 0) ⊆
      D.image (fun u => l.offset (ran l u)) := by
    intro g hg
    obtain ⟨u, hu, -⟩ := Finset.exists_ne_zero_of_sum_ne_zero (Finset.mem_filter.mp hg).2
    obtain ⟨hmem, hoff⟩ := Finset.mem_filter.mp hu
    exact Finset.mem_image.mpr ⟨u, hmem, hoff⟩
  exact (Finset.card_le_card hsub).trans Finset.card_image_le

/-- A single lost update is always found. -/
theorem uncancelled_singleton {u : Fin l.numRanks × Label}
    (hu : u.2.2 < l.procNumUpdates u.1) : uncancelled l {u} = 1 := by
  have hoff : l.offset (ran l u) ∈ Finset.range l.tableSize :=
    Finset.mem_range.mpr (Layout.offset_lt _)
  have hne : xored (ran l u) ≠ 0 := by
    rw [ran_eq_drawn hu]
    exact streamElement_ne_zero _
  have hfilter : (Finset.range l.tableSize).filter (fun g => lostAt l {u} g ≠ 0) =
      {l.offset (ran l u)} := by
    ext g
    rw [Finset.mem_filter, Finset.mem_singleton, lostAt_eq, Finset.sum_singleton, addressed]
    constructor
    · rintro ⟨-, hg⟩
      by_contra hother
      exact hg (if_neg (fun h => hother h.symm))
    · rintro rfl
      rw [if_pos rfl]
      exact ⟨hoff, hne⟩
  rw [uncancelled, hfilter, Finset.card_singleton]

/-- When the updates in `D` are lost, every rank that finishes obtains the number of offsets whose
lost updates do not cancel; every run can be finished. -/
theorem randomAccess_counts_uncancelled (hsmall : l.SmallTables) (b : Buffers l)
    (mem : Words 64 l.numRanks) (hD : AreUpdates l D) :
    (∀ s : AccessState b D ℤ, AccessReachable b D mem (randomAccess b) s →
      ∀ r globalNumErrors, (s.proc r).code = .pure globalNumErrors →
        globalNumErrors = uncancelled l D) ∧
    (∀ s : AccessState b D ℤ, AccessReachable b D mem (randomAccess b) s →
      ∃ t, AccessReachable b D mem (randomAccess b) t ∧ Relation.ReflTransGen Step s t ∧
        Halted t) ∧
    (D = ∅ → uncancelled l D = 0) ∧ uncancelled l D ≤ D.card := by
  have hphased := randomAccess_phased hsmall b mem hD
  refine ⟨fun s hs r v hv => ?_, fun s hs => hphased.predicts.exists_halted hs, ?_,
    uncancelled_le_card D⟩
  · rw [((hphased.predicts.follows hs).done_of_halted hv).2, (runs_randomAccess hsmall).result_eq,
      totalErrors_finalTable]
  · rintro rfl
    exact uncancelled_empty

def oneLost : Finset (Fin threeRanks.numRanks × Label) := {(⟨1, by decide⟩, (false, 1))}

theorem randomAccess_counts_threeRanks : AreUpdates threeRanks oneLost ∧
    ∃ t : AccessState threeBuffers oneLost ℤ,
      AccessReachable threeBuffers oneLost (fun _ _ => 0) (randomAccess threeBuffers) t ∧
        ∀ r, (t.proc r).code = .pure 1 := by
  have hD : AreUpdates threeRanks oneLost := by
    unfold AreUpdates
    decide
  obtain ⟨hcount, hends, -⟩ :=
    randomAccess_counts_uncancelled smallTables_threeRanks threeBuffers (fun _ _ => 0) hD
  obtain ⟨t, ht, -, hhalt⟩ := hends _ .refl
  refine ⟨hD, t, ht, fun r => ?_⟩
  obtain ⟨v, hv⟩ := hhalt r
  have hone : uncancelled threeRanks oneLost = 1 :=
    uncancelled_singleton (hD _ (Finset.mem_singleton_self _))
  rw [hv, hcount t ht r v hv, hone]
  rfl

end CrayTests.RandomAccess
