import CrayTests.RandomAccessEvents

/-!
# Distributed RandomAccess refines the sequential benchmark

Whatever the interleaving of the ranks' updates, the local tables laid end to end after the first
call of `update_table` are the table of the sequential loop: the ranks draw the sequential stream
piece by piece, every update goes to the word the sequential loop updates, and exclusive or does not
care about the order.
-/

namespace CrayTests.RandomAccess
open CInteger RankProgram XorSum XorStore

/-- `ran = (ran << 1) ^ …; T[ran & (table_size - 1)] ^= ran`. -/
def sequentialStep (l : Layout) (st : List Word × Word) : List Word × Word :=
  let ran := nextRan st.2
  (st.1.modify (l.offset ran) (· ^^^ ran), ran)

def sequentialTable (l : Layout) : List Word :=
  ((sequentialStep l)^[4 * l.tableSize]
    ((List.range l.tableSize).map (BitVec.ofNat 64), 1)).1

/-- What a drawn number adds to the word at a global offset. -/
def addressed (l : Layout) (g : ℕ) (ran : Word) : Xored 64 :=
  if l.offset ran = g then xored ran else 0

variable {l : Layout}

theorem sequentialStep_iterate (T : List Word) (m : ℕ) :
    ((sequentialStep l)^[m] (T, 1)).2 = streamElement m ∧
      ((sequentialStep l)^[m] (T, 1)).1.length = T.length ∧
      ∀ g < T.length, xored (((sequentialStep l)^[m] (T, 1)).1.getD g 0) =
        xored (T.getD g 0) + ∑ i ∈ Finset.range m, addressed l g (streamElement (i + 1)) := by
  induction m with
  | zero => exact ⟨rfl, rfl, fun g _ => (add_zero _).symm⟩
  | succ m ih =>
    obtain ⟨hran, hlen, hT⟩ := ih
    rw [Function.iterate_succ_apply']
    generalize (sequentialStep l)^[m] (T, 1) = st at hran hlen hT
    have hnext : nextRan st.2 = streamElement (m + 1) := by rw [hran, nextRan_streamElement]
    refine ⟨hnext, ?_, fun g hg => ?_⟩
    · simp only [sequentialStep, List.length_modify]
      exact hlen
    · simp only [sequentialStep, hnext]
      rw [Finset.sum_range_succ, ← add_assoc, ← hT g hg, addressed,
        List.getD_eq_getElem?_getD, List.getD_eq_getElem?_getD, List.getElem?_modify]
      have hsome : st.1[g]? = some (st.1.get ⟨g, by omega⟩) := List.getElem?_eq_getElem _
      rw [hsome]
      by_cases hoff : l.offset (streamElement (m + 1)) = g
      · simp [hoff, xored_xor]
      · simp [hoff]

theorem length_sequentialTable : (sequentialTable l).length = l.tableSize := by
  have h := (sequentialStep_iterate (l := l) ((List.range l.tableSize).map (BitVec.ofNat 64))
    (4 * l.tableSize)).2.1
  rw [sequentialTable, h, List.length_map, List.length_range]

theorem getD_sequentialTable {g : ℕ} (hg : g < l.tableSize) :
    xored ((sequentialTable l).getD g 0) = xored (BitVec.ofNat 64 g) +
      ∑ m ∈ Finset.range (4 * l.tableSize), addressed l g (streamElement (m + 1)) := by
  have h := (sequentialStep_iterate (l := l) ((List.range l.tableSize).map (BitVec.ofNat 64))
    (4 * l.tableSize)).2.2 g (by simpa using hg)
  rw [sequentialTable, h]
  congr 2
  simp [hg]

variable {b : Buffers l} {D : Finset (Fin l.numRanks × Label)}

/-- What an update adds to a word: its value, when it is applied and addressed to the word. -/
theorem contribution_updateEvent (hsmall : l.SmallTables) (r : Fin l.numRanks) (second : Bool)
    (i e : ℕ) (ran : Word) {q : Fin l.numRanks} {j : ℕ} (hj : j < l.localTableSize q) :
    contribution (fabric b D) r q j (e, updateEvent b second i ran) =
      if (r, (second, i)) ∈ D then 0 else addressed l (l.globalStart q + j) ran := by
  have hhomed := Layout.homed hsmall (Layout.offset_lt ran)
  have hloc : b.locate (l.home (l.offset ran)).1
      (b.hpccTable (l.home (l.offset ran)).1 + 8 * (l.home (l.offset ran)).2) =
        some (l.home (l.offset ran)).2 := locate_hpccTable hhomed.index_lt
  have hiff := hhomed.home_eq_iff hj
  simp only [updateEvent, contribution, fabric, hloc, Option.some.injEq, hiff, addressed]
  by_cases hlost : (r, (second, i)) ∈ D <;> simp [hlost]

theorem sum_updateEvents (hsmall : l.SmallTables) (r : Fin l.numRanks) (second : Bool) (e : ℕ)
    {q : Fin l.numRanks} {j : ℕ} (hj : j < l.localTableSize q) :
    ((updateEvents b r second e).map (contribution (fabric b D) r q j)).sum =
      ∑ i ∈ Finset.range (l.procNumUpdates r), if (r, (second, i)) ∈ D then 0
        else addressed l (l.globalStart q + j) (drawn l r i) := by
  rw [updateEvents, sum_contribution_flatMap_range]
  exact Finset.sum_congr rfl (fun i _ => contribution_updateEvent hsmall r second i e _ hj)

/-- Together the ranks update a word as the sequential loop does. -/
theorem sum_drawn (g : ℕ) :
    ∑ r : Fin l.numRanks, ∑ i ∈ Finset.range (l.procNumUpdates r), addressed l g (drawn l r i) =
      ∑ m ∈ Finset.range (4 * l.tableSize), addressed l g (streamElement (m + 1)) := by
  have h := (l.tiles.mul 4).sum_eq (fun m => addressed l g (streamElement (m + 1))) l.numRanks
  rw [l.globalStart_numRanks, Finset.sum_range] at h
  exact h

variable {word : Fin l.numRanks → ℕ → Word} {r : Fin l.numRanks} {e : ℕ}

/-- Where events may stand: writes before the first collective call, updates in the two calls of
`update_table`, loads after them. -/
def Placed (word : Fin l.numRanks → ℕ → Word) (r : Fin l.numRanks) : AccessEvent l → Prop
  | (e, .sync c) => c = (predicted word).gathered e r
  | (e, .op (.write j _) _) => e = 0 ∧ j < l.localTableSize r
  | (e, .op (.read j) x) => e = 7 ∧ j < l.localTableSize r ∧ x = word r j
  | (e, .op (.xor _ _ _ _) _) => e = 1 ∨ e = 6
  | (_, .op .abort _) => False

theorem placed_initEvents {ev : AccessEvent l} (h : ev ∈ initEvents r 0) : Placed word r ev := by
  obtain ⟨i, hi, hev⟩ := List.mem_flatMap.mp h
  obtain rfl := List.mem_singleton.mp hev
  exact ⟨rfl, List.mem_range.mp hi⟩

theorem placed_updateEvents {second : Bool} (he : e = 1 ∨ e = 6) {ev : AccessEvent l}
    (h : ev ∈ updateEvents b r second e) : Placed word r ev := by
  obtain ⟨i, -, hev⟩ := List.mem_flatMap.mp h
  obtain rfl := List.mem_singleton.mp hev
  exact he

theorem placed_checkEvents {ev : AccessEvent l} (h : ev ∈ checkEvents word r 7) :
    Placed word r ev := by
  obtain ⟨i, hi, hev⟩ := List.mem_flatMap.mp h
  obtain rfl := List.mem_singleton.mp hev
  exact ⟨rfl, List.mem_range.mp hi, rfl⟩

theorem placed_barrierAt (h3 : e ≠ 3) (h8 : e ≠ 8) {ev : AccessEvent l}
    (h : ev ∈ barrierAt l e) : Placed word r ev := by
  obtain rfl := List.mem_singleton.mp h
  simp only [Placed, predicted]

theorem placed_firstUpdateEvents {ev : AccessEvent l} (h : ev ∈ firstUpdateEvents b r) :
    Placed word r ev := by
  simp only [firstUpdateEvents, List.mem_append] at h
  rcases h with h | h | h | h
  · exact placed_initEvents h
  · exact placed_barrierAt (by decide) (by decide) h
  · exact placed_updateEvents (Or.inl rfl) h
  · exact placed_barrierAt (by decide) (by decide) h

variable {α : Type} {code : Fin l.numRanks → Access l α}
  {evs : Fin l.numRanks → List (AccessEvent l)} {outcome : Fin l.numRanks → α}
  {mem : Words 64 l.numRanks} {last : ℕ}

theorem finalWord_of_runs (hruns : ∀ r, Runs (predicted word) r 0 (code r) (evs r) (outcome r) last)
    (q : Fin l.numRanks) (j : ℕ) : finalWord (fabric b D) mem (predicted word) code q j =
      xored (written j (mem q j) (evs q)) + received (fabric b D) evs q j := by
  simp only [finalWord, (hruns _).trace_eq]

/-- Programs with well placed events whose loads expect the final words are phased. -/
theorem phased_of_placed
    (hruns : ∀ r, Runs (predicted word) r 0 (code r) (evs r) (outcome r) last)
    (hplaced : ∀ r, ∀ ev ∈ evs r, Placed word r ev)
    (hword : ∀ (r : Fin l.numRanks) j, j < l.localTableSize r → xored (word r j) =
      xored (written j (mem r j) (evs r)) + received (fabric b D) evs r j) :
    Phased (fabric b D) mem (predicted word) code := by
  have placed {r : Fin l.numRanks} {ev : AccessEvent l}
      (h : ev ∈ trace (predicted word) r 0 (code r)) : Placed word r ev := by
    rw [(hruns r).trace_eq] at h
    exact hplaced r ev h
  refine ⟨fun r e c h => placed h, ?_, ?_, ?_, ?_, ?_, ?_, fun r e h => placed h, fun r q => ?_⟩
  · intro r q e e' j v tag p a v' hw hx
    obtain ⟨rfl, -⟩ := placed hw
    rcases placed hx with rfl | rfl <;> decide
  · intro r q e e' j x tag p a v hr hx
    obtain ⟨rfl, -⟩ := placed hr
    rcases placed hx with rfl | rfl <;> decide
  · intro r e e' j x j' v hr hw
    obtain ⟨rfl, -⟩ := placed hr
    obtain ⟨rfl, -⟩ := placed hw
    decide
  · intro r e j v hw
    exact (placed hw).2
  · intro r e j x hr
    exact (placed hr).2.1
  · intro r e j x hr
    obtain ⟨-, hj, rfl⟩ := placed hr
    rw [finalWord_of_runs hruns, hword r j hj]
  · rw [(hruns r).lastEpoch_eq, (hruns q).lastEpoch_eq]

theorem no_write_updateEvents (second : Bool) (e e' j : ℕ) (v : Word) :
    (e', writeEvent j v) ∉ updateEvents b r second e := by
  simp [updateEvents, updateEvent]

theorem written_firstUpdateEvents {j : ℕ} (hj : j < l.localTableSize r) (init : Word) :
    written j init (firstUpdateEvents b r) = ownOffset r j := by
  rw [firstUpdateEvents, written_append, initEvents, written_flatMap_range, if_pos hj]
  refine written_of_forall_ne (fun e j' v h => ?_)
  simp [barrierAt, no_write_updateEvents] at h

theorem sum_contribution_initEvents (q : Fin l.numRanks) (j : ℕ) :
    ((initEvents r e).map (contribution (fabric b D) r q j)).sum = 0 :=
  sum_contribution_eq_zero (fun _ _ _ _ _ h => by simp [initEvents] at h)

theorem sum_contribution_barrierAt (q : Fin l.numRanks) (j : ℕ) :
    ((barrierAt l e).map (contribution (fabric b D) r q j)).sum = 0 :=
  sum_contribution_eq_zero (fun _ _ _ _ _ h => by simp [barrierAt] at h)

theorem received_firstUpdateEvents (hsmall : l.SmallTables) {q : Fin l.numRanks} {j : ℕ}
    (hj : j < l.localTableSize q) :
    received (fabric b D) (firstUpdateEvents b) q j =
      ∑ r : Fin l.numRanks, ∑ i ∈ Finset.range (l.procNumUpdates r),
        if (r, (false, i)) ∈ D then 0 else addressed l (l.globalStart q + j) (drawn l r i) := by
  refine Finset.sum_congr rfl (fun r _ => ?_)
  simp only [firstUpdateEvents, List.map_append, List.sum_append, sum_contribution_initEvents,
    sum_contribution_barrierAt, zero_add, add_zero]
  exact sum_updateEvents hsmall r false 1 hj

/-- What the first call leaves in a word when no update is lost. -/
theorem received_firstUpdateEvents_eq (hsmall : l.SmallTables) {q : Fin l.numRanks} {j : ℕ}
    (hj : j < l.localTableSize q) :
    xored (ownOffset q j) + received (fabric b ∅) (firstUpdateEvents b) q j =
      xored ((sequentialTable l).getD (l.globalStart q + j) 0) := by
  have hg : l.globalStart q + j < l.tableSize := by
    have := l.globalStart_le q.isLt
    rw [Nat.succ_eq_add_one, l.tiles.succ] at this
    omega
  rw [getD_sequentialTable hg, received_firstUpdateEvents hsmall hj, ← sum_drawn, ownOffset,
    Nat.add_comm j]
  simp

theorem concatTables_eq {mem : Words 64 l.numRanks}
    (h : ∀ (r : Fin l.numRanks) j, j < l.localTableSize r →
      mem r j = (sequentialTable l).getD (l.globalStart r + j) 0) :
    concatTables l mem = sequentialTable l := by
  have hlocal (r : Fin l.numRanks) : (List.range (l.localTableSize r)).map (mem r) =
      (List.range (l.localTableSize r)).map
        (fun j => (sequentialTable l).getD (l.globalStart r + j) 0) :=
    List.map_congr_left (fun j hj => h r j (List.mem_range.mp hj))
  have htiles := l.tiles.flatMap_eq (fun g => (sequentialTable l).getD g 0) l.numRanks
  rw [l.globalStart_numRanks, ← List.map_coe_finRange_eq_range, List.flatMap_map] at htiles
  rw [concatTables, List.flatMap_congr (fun r _ => hlocal r)]
  refine htiles.trans ?_
  refine List.ext_getElem (by rw [List.length_map, List.length_range, length_sequentialTable]) ?_
  intro g h1 h2
  rw [List.getElem_map, List.getElem_range, List.getD_eq_getElem?_getD, List.getElem?_eq_getElem h2]
  rfl

def updateValues (done : List (AccessEvent l)) : List Word :=
  done.filterMap fun
    | (_, .op (.xor _ _ _ v) _) => some v
    | _ => none

theorem updateValues_firstUpdateEvents : updateValues (firstUpdateEvents b r) = l.phaseDraws r := by
  rw [l.phaseDraws_eq]
  simp only [updateValues, firstUpdateEvents, initEvents, barrierAt, updateEvents, updateEvent,
    List.filterMap_append, List.filterMap_flatMap]
  simp only [List.map_eq_flatMap]
  have hinit (indices : List ℕ) : indices.flatMap (fun _ => ([] : List Word)) = [] :=
    List.flatMap_eq_nil_iff.mpr (fun _ _ => rfl)
  simp [drawn, Layout.procNumUpdates, hinit]

theorem firstUpdate_phased (hsmall : l.SmallTables) (b : Buffers l) (mem : Words 64 l.numRanks) :
    Phased (fabric b ∅) mem
      (predicted (fun q j => (sequentialTable l).getD (l.globalStart q + j) 0)) (firstUpdate b) :=
  phased_of_placed (fun _ => runs_firstUpdate hsmall) (fun _ _ => placed_firstUpdateEvents)
    (fun q j hj => by
      rw [written_firstUpdateEvents hj, received_firstUpdateEvents_eq hsmall hj])

/-- In every run of the first call of `update_table` in which no update is lost, the local tables
end up as the sequential table, every rank draws its part of the stream, and together the ranks
draw each of the elements `1 .. 4 * table_size` once. -/
theorem firstUpdate_refines_sequential (hsmall : l.SmallTables) (b : Buffers l)
    (mem : Words 64 l.numRanks) :
    (∀ s : AccessState b ∅ Unit, AccessReachable b ∅ mem (firstUpdate b) s → Halted s →
      concatTables l s.mem = sequentialTable l ∧
        ∀ r, updateValues (s.proc r).done = l.phaseDraws r) ∧
    (∀ s : AccessState b ∅ Unit, AccessReachable b ∅ mem (firstUpdate b) s →
      ∃ t, AccessReachable b ∅ mem (firstUpdate b) t ∧ Relation.ReflTransGen Step s t ∧
        Halted t) ∧
    (List.range l.numRanks).flatMap l.phaseDraws =
      (List.range (4 * l.tableSize)).map (fun m => nextRan^[m + 1] 1) := by
  have hphased := firstUpdate_phased hsmall b mem
  refine ⟨fun s hs hhalt => ⟨concatTables_eq (fun q j hj => ?_), fun r => ?_⟩,
    fun s hs => hphased.predicts.exists_halted hs, ?_⟩
  · rw [← xored_inj, hphased.word_of_halted hs hhalt,
      finalWord_of_runs (fun _ => runs_firstUpdate hsmall), written_firstUpdateEvents hj,
      received_firstUpdateEvents_eq hsmall hj]
  · obtain ⟨a, ha⟩ := hhalt r
    rw [((hphased.predicts.follows hs).done_of_halted ha).1, (runs_firstUpdate hsmall).trace_eq,
      updateValues_firstUpdateEvents]
  · rw [l.flatMap_phaseDraws, nextRan_eq_step]
    rfl

def threeBuffers : Buffers threeRanks := ⟨fun r => 4096 * (r + 1), by decide⟩

theorem smallTables_threeRanks : threeRanks.SmallTables := by
  unfold Layout.SmallTables
  decide

theorem firstUpdate_refines_threeRanks : threeRanks.SmallTables ∧
    ∃ t : AccessState threeBuffers ∅ Unit,
      AccessReachable threeBuffers ∅ (fun _ _ => 0) (firstUpdate threeBuffers) t ∧ Halted t ∧
        concatTables threeRanks t.mem = sequentialTable threeRanks := by
  obtain ⟨hrefines, hends, -⟩ :=
    firstUpdate_refines_sequential smallTables_threeRanks threeBuffers (fun _ _ => 0)
  obtain ⟨t, ht, -, hhalt⟩ := hends _ .refl
  exact ⟨smallTables_threeRanks, t, ht, hhalt, (hrefines t ht hhalt).1⟩

end CrayTests.RandomAccess
