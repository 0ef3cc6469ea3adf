import CrayTests.RandomAccess

/-!
# The events of RandomAccess

Along `predicted`, which answers a load with `word`, a rank initialises its table, updates the words
its stream is addressed to, and finds `errorCount` words that differ from their initial value.
-/

namespace CrayTests.RandomAccess
open CInteger RankProgram XorSum XorStore

namespace Layout

variable (l : Layout)

/-- The rank that holds a global offset and the index there, as `update_table` finds them. -/
def home (globalOffset : ℕ) : Fin l.numRanks × ℕ :=
  if h : 0 ≤ (l.route globalOffset).1 ∧ (l.route globalOffset).1 < l.numRanks then
    (⟨(l.route globalOffset).1.toNat, by omega⟩, (l.route globalOffset).2.toNat)
  else (⟨0, l.ranks_pos⟩, 0)

/-- Local tables whose indices fit an `int`. -/
def SmallTables : Prop := ∀ rank < l.numRanks, l.localTableSize rank ≤ 2 ^ 31

variable {l}

theorem SmallTables.tableSize_lt (h : l.SmallTables) : l.tableSize < 2 ^ 63 := by
  have h0 := h 0 l.ranks_pos
  have hint := l.ranks_int
  have hrem := l.remainder_lt
  rw [← l.min_mul_add_remainder]
  unfold localTableSize at h0
  split_ifs at h0 with hpos
  · calc l.minLocalTableSize * l.numRanks + l.remainder
        ≤ (l.minLocalTableSize + 1) * l.numRanks := by rw [Nat.succ_mul]; omega
      _ ≤ 2 ^ 31 * 2 ^ 31 := Nat.mul_le_mul h0 hint.le
      _ < 2 ^ 63 := by norm_num
  · calc l.minLocalTableSize * l.numRanks + l.remainder
        = l.minLocalTableSize * l.numRanks := by omega
      _ ≤ 2 ^ 31 * 2 ^ 31 := Nat.mul_le_mul h0 hint.le
      _ < 2 ^ 63 := by norm_num

theorem offset_lt (ran : Word) : l.offset ran < l.tableSize := by
  have hpos := l.tableSize_pos
  calc l.offset ran ≤ (BitVec.ofNat 64 (l.tableSize - 1)).toNat := by
        rw [offset, BitVec.toNat_and]
        exact Nat.and_le_right
    _ ≤ l.tableSize - 1 := by
        rw [BitVec.toNat_ofNat]
        exact Nat.mod_le _ _
    _ < l.tableSize := by omega

structure Homed (l : Layout) (g : ℕ) : Prop where
  start_le : l.globalStart (l.home g).1 ≤ g
  lt_end : g < l.globalStart (l.home g).1 + l.localTableSize (l.home g).1
  index_eq : (l.home g).2 = g - l.globalStart (l.home g).1
  route_eq : l.route g = ((((l.home g).1 : ℕ) : ℤ), ((l.home g).2 : ℤ))

theorem homed (h : l.SmallTables) {g : ℕ} (hg : g < l.tableSize) : l.Homed g := by
  rw [← l.globalStart_numRanks] at hg
  obtain ⟨rank, hrank, hle, hlt⟩ := l.tiles.exists_tile hg
  have hroute := l.route_eq hrank h.tableSize_lt.le (h rank hrank) hle hlt
  have hhome : l.home g = (⟨rank, hrank⟩, g - l.globalStart rank) := by
    unfold home
    simp only [hroute]
    rw [dif_pos ⟨Int.natCast_nonneg _, by exact_mod_cast hrank⟩]
    simp
  exact ⟨by rw [hhome]; exact hle, by rw [hhome]; exact hlt, by rw [hhome],
    by rw [hroute, hhome]⟩

theorem Homed.index_lt {g : ℕ} (h : l.Homed g) : (l.home g).2 < l.localTableSize (l.home g).1 := by
  have := h.start_le
  have := h.lt_end
  rw [h.index_eq]
  omega

/-- The home of an offset is the only place it could be. -/
theorem Homed.home_eq_iff {g : ℕ} (h : l.Homed g) {q : Fin l.numRanks} {j : ℕ}
    (hj : j < l.localTableSize q) :
    (l.home g).1 = q ∧ (l.home g).2 = j ↔ g = l.globalStart q + j := by
  have hle := h.start_le
  have hlt := h.lt_end
  constructor
  · rintro ⟨rfl, rfl⟩
    rw [h.index_eq]
    omega
  · intro hg
    have hrank : ((l.home g).1 : ℕ) = q := l.tiles.tile_unique ⟨hle, hlt⟩ (by omega)
    refine ⟨Fin.ext hrank, ?_⟩
    rw [h.index_eq, hrank]
    omega

end Layout

variable {l : Layout} {b : Buffers l}

theorem locate_hpccTable {q : Fin l.numRanks} {j : ℕ} (hj : j < l.localTableSize q) :
    b.locate q (b.hpccTable q + 8 * j) = some j := by
  unfold Buffers.locate
  rw [if_pos (by omega)]
  congr 1
  omega

/-- The remote address has the offset of the local one, although both are computed modulo
`2 ^ 64`. -/
theorem remote_address {q r : Fin l.numRanks} {j : ℕ} (hj : j < l.localTableSize q) :
    uint64 (b.hpccTable q + uint64 ((uint64 (b.hpccTable r + 8 * (j : ℤ)) : ℤ) -
      b.hpccTable r)) = b.hpccTable q + 8 * j := by
  have hq := b.fits q
  have hbase : (0 : ℤ) ≤ b.hpccTable r := Int.natCast_nonneg _
  have hoff : uint64 ((uint64 (b.hpccTable r + 8 * (j : ℤ)) : ℤ) - b.hpccTable r) = 8 * j := by
    have : ((uint64 ((uint64 (b.hpccTable r + 8 * (j : ℤ)) : ℤ) - b.hpccTable r) : ℕ) : ℤ) =
        (8 * j : ℕ) := by
      rw [natCast_uint64, natCast_uint64]
      push_cast
      omega
    exact_mod_cast this
  rw [hoff, ← Nat.cast_add, uint64_natCast (by omega)]

abbrev AccessEvent (l : Layout) := Ev 64 l.numRanks ℕ Label Collective

def errorCount (word : Fin l.numRanks → ℕ → Word) (rank : Fin l.numRanks) : ℕ :=
  ((Finset.range (l.localTableSize rank)).filter (fun i => word rank i ≠ ownOffset rank i)).card

/-- Call 3 is the broadcast and call 8 gathers the error counts. -/
def predicted (word : Fin l.numRanks → ℕ → Word) :
    Oracle (store 64 l.numRanks ℕ Label Collective) l.numRanks where
  resp r
    | .write _ _ => ()
    | .read j => word r j
    | .xor _ _ _ _ => ()
    | .abort => ()
  gathered e r :=
    match e with
    | 3 => .bcast
    | 8 => .allgather (errorCount word r)
    | _ => .barrier

def updateEvent (b : Buffers l) (second : Bool) (i : ℕ) (ran : Word) :
    Event (store 64 l.numRanks ℕ Label Collective) :=
  let home := l.home (l.offset ran)
  xorEvent (second, i) home.1 (b.hpccTable home.1 + 8 * home.2) ran

def drawn (l : Layout) (rank i : ℕ) : Word := streamElement (4 * l.globalStart rank + i + 1)

def updateEvents (b : Buffers l) (rank : Fin l.numRanks) (second : Bool) (e : ℕ) :
    List (AccessEvent l) :=
  (List.range (l.procNumUpdates rank)).flatMap
    (fun i => [(e, updateEvent b second i (drawn l rank i))])

def initEvents (rank : Fin l.numRanks) (e : ℕ) : List (AccessEvent l) :=
  (List.range (l.localTableSize rank)).flatMap (fun i => [(e, writeEvent i (ownOffset rank i))])

def checkEvents (word : Fin l.numRanks → ℕ → Word) (rank : Fin l.numRanks) (e : ℕ) :
    List (AccessEvent l) :=
  (List.range (l.localTableSize rank)).flatMap (fun i => [(e, readEvent i (word rank i))])

def barrierAt (l : Layout) (e : ℕ) : List (AccessEvent l) := [(e, .sync .barrier)]

def firstUpdateEvents (b : Buffers l) (rank : Fin l.numRanks) : List (AccessEvent l) :=
  initEvents rank 0 ++ (barrierAt l 0 ++ (updateEvents b rank false 1 ++ barrierAt l 1))

variable {word : Fin l.numRanks → ℕ → Word} {r : Fin l.numRanks} {e : ℕ}

theorem runs_ctpmBarrier :
    Runs (predicted word) r e ctpmBarrier (barrierAt l e) () (e + 1) :=
  Runs.sync (I := store 64 l.numRanks ℕ Label Collective) .barrier (.pure ())

theorem lfAtomicXor_eq (label : Label) (addr : ℕ) (val : Word) (peer : Fin l.numRanks) :
    lfAtomicXor b r label addr val ((peer : ℕ) : ℤ) =
      .op (Op.xor label peer (uint64 (b.hpccTable peer + uint64 (addr - b.hpccTable r))) val)
        .pure := by
  unfold lfAtomicXor
  rw [dif_pos ⟨Int.natCast_nonneg _, by exact_mod_cast peer.isLt⟩]
  rfl

theorem runs_updateRound (hsmall : l.SmallTables) (second : Bool) (i m : ℕ) :
    Runs (predicted word) r e (updateRound b r second i (streamElement m))
      [(e, updateEvent b second i (streamElement (m + 1)))] (streamElement (m + 1)) e := by
  have hoff := Layout.offset_lt (l := l) (streamElement (m + 1))
  have hhomed := Layout.homed hsmall hoff
  have hroute := hhomed.route_eq
  have haddr := remote_address (b := b) (r := r) hhomed.index_lt
  unfold updateRound
  rw [nextRan_streamElement]
  dsimp only
  rw [hroute]
  dsimp only
  rw [lfAtomicXor_eq, haddr]
  exact Runs.op _ (.pure _)

theorem runs_updateTable (hsmall : l.SmallTables) (second : Bool) :
    Runs (predicted word) r e (updateTable b r second)
      (barrierAt l e ++ (updateEvents b r second (e + 1) ++ barrierAt l (e + 1))) () (e + 2) := by
  have hloop := Runs.loop (Ω := predicted word) (r := r) (e := e + 1) (updateRound b r second)
    (i := 0) (l.procNumUpdates r) (fun k => streamElement (4 * l.globalStart r + k))
    (fun i => [(e + 1, updateEvent b second i (drawn l r i))])
    (fun k _ => by
      rw [Nat.zero_add]
      exact runs_updateRound hsmall second k _)
  unfold updateTable
  rw [l.savedInitialRanVal_eq]
  exact Runs.bind runs_ctpmBarrier (Runs.bind hloop runs_ctpmBarrier)

theorem runs_initTable :
    Runs (predicted word) r e (initTable r) (initEvents r e) () e :=
  Runs.loop _ (l.localTableSize r) (fun _ => ()) _ (fun k _ => by
    rw [Nat.zero_add]
    exact Runs.op _ (.pure _))

theorem runs_firstUpdate (hsmall : l.SmallTables) :
    Runs (predicted word) r 0 (firstUpdate b r) (firstUpdateEvents b r) () 2 :=
  Runs.bind runs_initTable (runs_updateTable hsmall false)

end CrayTests.RandomAccess
