import CrayTests.Allgather

/-!
# Blocks in rank order

Along the oracle `expected` the first collective call of a rank gathers the ranks and the `j`-th
block-gathering call what the ranks passed to call `j`. The copies of one call are then a scatter
through the permutation itself, so every block ends up at its own place.
-/

namespace CrayTests.Allgather
open CInteger RankProgram Scatter
open Kvs (Byte mallocFits)

variable {n : ℕ} {σ : Equiv.Perm (Fin n)} {data : ℕ → ℕ → List Byte} {r : Fin n} {e : ℕ}

def expected (n : ℕ) (data : ℕ → ℕ → List Byte) : Oracle pmi n where
  resp _ _ := ()
  gathered
    | 0 => fun q => intBytes (q : ℕ)
    | e + 1 => fun q => data q e

theorem length_intBytes (x : ℤ) : (intBytes x).length = 4 := by simp [intBytes]

theorem readInts_intBytes_append {x : ℕ} (hx : x < 2 ^ 31) (bs : List Byte) :
    readInts (intBytes x ++ bs) = (x : ℤ) :: readInts bs := by
  have hbytes : intBytes (x : ℤ) = [BitVec.ofInt 8 (x / 256 ^ 0), BitVec.ofInt 8 (x / 256 ^ 1),
    BitVec.ofInt 8 (x / 256 ^ 2), BitVec.ofInt 8 (x / 256 ^ 3)] := rfl
  rw [hbytes]
  simp only [List.cons_append, List.nil_append, readInts, BitVec.toNat_ofInt]
  rw [show int32 _ = (x : ℤ) from int32_eq_iff.mpr ?_]
  norm_num
  omega

/-- The ranks in the order of the library, from their bytes. -/
theorem readInts_flatMap (hn : n < 2 ^ 31) (l : List (Fin n)) :
    readInts (l.flatMap fun i => intBytes ((σ i : ℕ) : ℤ)) = l.map fun i => ((σ i : ℕ) : ℤ) := by
  induction l with
  | nil => rfl
  | cons i l ih =>
    rw [List.flatMap_cons, readInts_intBytes_append ((σ i).isLt.trans hn), ih, List.map_cons]

def learned (σ : Equiv.Perm (Fin n)) : Static :=
  ⟨(List.finRange n).map fun i => ((σ i : ℕ) : ℤ), true, n⟩

theorem runs_pmiAllgather (e : ℕ) (block : List Byte) {size len : ℕ}
    (hlen : ∀ q, ((expected n data).gathered e q).length = len) (hsize : size = n * len) :
    Runs (expected n data) r e (pmiAllgather σ block size) [(e, .sync block)]
      ((List.finRange n).flatMap fun i => (expected n data).gathered e (σ i)) (e + 1) := by
  have hfits : ((List.finRange n).flatMap fun i =>
      (expected n data).gathered e (σ i)).length ≤ size := by
    rw [Tiling.length_flatMap_of_length_eq fun i _ => hlen (σ i), List.length_finRange, hsize]
  refine Runs.sync (I := pmi) block ?_
  dsimp only
  rw [if_pos hfits]
  exact .pure _

theorem runs_learnRanks_first (hn : n < 2 ^ 31) :
    Runs (expected n data) r 0 (learnRanks σ r {}) [(0, .sync (intBytes (r : ℕ)))] (learned σ) 1 := by
  have hsize : uint64 (n : ℕ) = n := uint64_natCast (by omega)
  have hfits : mallocFits (4 * uint64 (n : ℕ)) := by
    rw [hsize, mallocFits]
    omega
  unfold learnRanks
  dsimp only
  rw [if_neg Bool.false_ne_true, if_pos hfits]
  have hsize' : 4 * uint64 (n : ℕ) = n * 4 := by rw [hsize, Nat.mul_comm]
  refine Runs.congr (List.append_nil _)
    ((runs_pmiAllgather 0 (intBytes (r : ℕ)) (fun q => length_intBytes _) hsize').bind ?_)
  have hread := readInts_flatMap (σ := σ) hn (List.finRange n)
  rw [show ((List.finRange n).flatMap fun i => (expected n data).gathered 0 (σ i)) =
    (List.finRange n).flatMap fun i => intBytes ((σ i : ℕ) : ℤ) from rfl, hread]
  exact .pure _

theorem copyBlock_of_getElem? {ivecPtr : List ℤ} {i : ℕ} {rank : ℤ} (h : ivecPtr[i]? = some rank)
    (tmpBuf : List Byte) (len : ℤ) (out : Memory Byte) :
    copyBlock ivecPtr tmpBuf len out i =
      if 0 ≤ int32 (i * len) ∧ (int32 (i * len)).toNat + uint64 len ≤ tmpBuf.length then
        some (out.copy (int32 (len * rank))
          ((tmpBuf.drop (int32 (i * len)).toNat).take (uint64 len)))
      else none := by
  rw [copyBlock, h]
  rfl

section Call

variable {j len : ℕ} (hlen : ∀ q < n, (data q j).length = len)

/-- The blocks of call `j` as the library lays them down. -/
def laidDown (σ : Equiv.Perm (Fin n)) (data : ℕ → ℕ → List Byte) (j : ℕ) : List Byte :=
  (List.finRange n).flatMap fun i => data (σ i) j

def place (σ : Equiv.Perm (Fin n)) (len i : ℕ) : ℤ :=
  len * ((learned σ).ivecPtr[i]?.getD 0)

theorem getElem?_ivecPtr (i : Fin n) : (learned σ).ivecPtr[(i : ℕ)]? = some ((σ i : ℕ) : ℤ) := by
  simp [learned]

include hlen

theorem length_laidDown : (laidDown σ data j).length = n * len := by
  rw [laidDown, Tiling.length_flatMap_of_length_eq fun i _ => hlen (σ i) (σ i).isLt,
    List.length_finRange]

theorem places : Places σ len (fun q => data q j) (place σ len)
    (fun i => ((laidDown σ data j).drop (i * len)).take len) where
  pos_eq i := by rw [place, getElem?_ivecPtr, Option.getD_some]
  block_eq i := by
    have hi : (i : ℕ) < (List.finRange n).length := by rw [List.length_finRange]; exact i.isLt
    rw [laidDown, Tiling.take_drop_flatMap (fun i _ => hlen (σ i) (σ i).isLt) hi,
      List.getElem_finRange]
    rfl
  length_eq q := hlen q q.isLt

theorem copyBlock_eq (hfit : n * len < 2 ^ 31) {i : ℕ} (hi : i < n) (out : Memory Byte) :
    copyBlock (learned σ).ivecPtr (laidDown σ data j) len out i =
      some (out.copy (place σ len i) (((laidDown σ data j).drop (i * len)).take len)) := by
  have hroom : i * len + len ≤ n * len := by
    rw [← Nat.succ_mul]
    exact Nat.mul_le_mul_right len hi
  have hoffset : int32 (i * len) = ((i * len : ℕ) : ℤ) := by
    rw [← Nat.cast_mul]
    exact int32_natCast (by omega)
  have hrank := getElem?_ivecPtr (σ := σ) ⟨i, hi⟩
  have hplace : int32 (len * ((σ ⟨i, hi⟩ : ℕ) : ℤ)) = place σ len i := by
    have hlt := Nat.mul_le_mul_left len (Nat.le_of_lt (σ ⟨i, hi⟩).isLt)
    rw [Nat.mul_comm len n] at hlt
    rw [place, show (learned σ).ivecPtr[i]? = _ from hrank, Option.getD_some, ← Nat.cast_mul]
    exact int32_natCast (by omega)
  rw [copyBlock_of_getElem? hrank, hoffset, hplace, uint64_natCast (by omega), Int.toNat_natCast,
    length_laidDown hlen,
    if_pos ⟨Int.natCast_nonneg _, hroom⟩]

theorem foldlM_copyBlock (hfit : n * len < 2 ^ 31) (out : Memory Byte) :
    (List.range n).foldlM (copyBlock (learned σ).ivecPtr (laidDown σ data j) len) out =
      some (scatter out (place σ len)
        (fun i => ((laidDown σ data j).drop (i * len)).take len) n) :=
  OptionLoop.foldlM_range _ (scatter out (place σ len) _) n fun i hi => by
    rw [copyBlock_eq hlen hfit hi, scatter_succ]

omit hlen in
def scattered (σ : Equiv.Perm (Fin n)) (data : ℕ → ℕ → List Byte) (j len : ℕ) (before : ℤ → Byte) :
    Memory Byte :=
  scatter ⟨before, []⟩ (place σ len) (fun i => ((laidDown σ data j).drop (i * len)).take len) n

theorem scattered_inRankOrder (before : ℤ → Byte) :
    InRankOrder data n len j before (scattered σ data j len before) where
  block q hq k hk := by
    have := (places (σ := σ) hlen).cell_eq (m := ⟨before, []⟩) ⟨q, hq⟩ hk
    rw [scattered]
    exact_mod_cast this
  once := (places (σ := σ) hlen).written_perm (m := ⟨before, []⟩)
  outside x hx := (places (σ := σ) hlen).cell_outside hx

omit hlen

def callsBefore (j : ℕ) : ℕ := if j = 0 then 0 else j + 1

def known (σ : Equiv.Perm (Fin n)) (j : ℕ) : Static := if j = 0 then {} else learned σ

/-- Only the first call gathers the ranks. -/
def rankEvents (myRank j : ℕ) : List Ev :=
  if j = 0 then [(0, .sync (intBytes (myRank : ℕ)))] else []

variable (j) in
theorem runs_learnRanks (hn : n < 2 ^ 31) :
    Runs (expected n data) r (callsBefore j) (learnRanks σ r (known σ j)) (rankEvents r j)
      (learned σ) (j + 1) := by
  unfold known callsBefore rankEvents
  by_cases hj : j = 0
  · subst hj
    exact runs_learnRanks_first hn
  · rw [if_neg hj, if_neg hj, if_neg hj]
    exact .pure _

include hlen

theorem runs_ctpmAllgather (hn : n < 2 ^ 31) (hfit : n * len < 2 ^ 31) (before : ℤ → Byte) :
    Runs (expected n data) r (callsBefore j)
      (ctpmAllgather σ r (known σ j) (data r j) len ⟨before, []⟩)
      (rankEvents r j ++ [(j + 1, .sync (data r j))])
      (learned σ, scattered σ data j len before) (j + 2) := by
  have hlen31 : len < 2 ^ 31 := by
    have := Nat.le_mul_of_pos_left len (Nat.lt_of_le_of_lt (Nat.zero_le _) r.isLt)
    omega
  have hsize : uint64 (int32 ((learned σ).jobSize * len)) = n * len := by
    rw [show (learned σ).jobSize = (n : ℤ) from rfl, ← Nat.cast_mul, int32_natCast hfit,
      uint64_natCast (by omega)]
  have hmalloc : mallocFits (n * len) := by
    rw [mallocFits]
    omega
  unfold ctpmAllgather allgather
  rw [int32_natCast hlen31]
  refine Runs.bind (runs_learnRanks j hn) ?_
  dsimp only
  rw [hsize, if_pos hmalloc, uint64_natCast (by omega), List.take_of_length_le (hlen r r.isLt).le]
  refine Runs.congr (List.append_nil _)
    ((runs_pmiAllgather (j + 1) (data r j) (fun q => hlen q q.isLt) rfl).bind ?_)
  rw [show (learned σ).jobSize.toNat = n from Int.toNat_natCast n,
    show ((List.finRange n).flatMap fun i => (expected n data).gathered (j + 1) (σ i)) =
      laidDown σ data j from rfl, foldlM_copyBlock hlen hfit]
  exact .pure _

end Call

def callEvents (σ : Equiv.Perm (Fin n)) (data : ℕ → ℕ → List Byte) (targ : ℕ → ℕ → ℤ → Byte)
    (myRank j len : ℕ) : List Ev :=
  rankEvents myRank j ++ [(j + 1, .sync (data myRank j)),
    (j + 2, observeEvent j (scattered σ data j len (targ myRank j)))]

def eventsFrom (σ : Equiv.Perm (Fin n)) (data : ℕ → ℕ → List Byte) (targ : ℕ → ℕ → ℤ → Byte)
    (myRank : ℕ) : List ℕ → ℕ → List Ev
  | [], _ => []
  | len :: lens, j =>
    callEvents σ data targ myRank j len ++ eventsFrom σ data targ myRank lens (j + 1)

variable {targ : ℕ → ℕ → ℤ → Byte} {lens : List ℕ}

theorem runs_runCalls (hn : n < 2 ^ 31) {j : ℕ} (hfit : ∀ len ∈ lens, n * len < 2 ^ 31)
    (hdata : ∀ i < n, ∀ k len, lens[k]? = some len → (data i (j + k)).length = len) :
    Runs (expected n data) r (callsBefore j) (runCalls σ data targ r lens j (known σ j))
      (eventsFrom σ data targ r lens j) () (callsBefore (j + lens.length)) := by
  induction lens generalizing j with
  | nil => exact .pure ()
  | cons len lens ih =>
    have hcall := runs_ctpmAllgather (σ := σ) (r := r) (fun q hq => hdata q hq 0 len rfl) hn
      (hfit len List.mem_cons_self) (targ r j)
    have hshow : Runs (expected n data) r (j + 2)
        (observe j (scattered σ data j len (targ r j)))
        [(j + 2, observeEvent j (scattered σ data j len (targ r j)))] () (j + 2) :=
      .op _ (.pure ())
    have hrest := ih (j := j + 1) (fun l hl => hfit l (List.mem_cons_of_mem _ hl))
      fun i hi k l hl => by
        rw [Nat.add_right_comm, Nat.add_assoc]
        exact hdata i hi (k + 1) l hl
    rw [show callsBefore (j + 1) = j + 2 from rfl, show known σ (j + 1) = learned σ from rfl,
      show j + 1 + lens.length = j + (len :: lens).length by simp; omega] at hrest
    refine Runs.congr ?_ (hcall.bind (hshow.bind hrest))
    simp [eventsFrom, callEvents]

theorem runs_job (hn : n < 2 ^ 31) (hfit : ∀ len ∈ lens, n * len < 2 ^ 31) (p : Payload n lens)
    (r : Fin n) :
    Runs (expected n p.data) r 0 (job σ lens p r) (eventsFrom σ p.data p.targ r lens 0) ()
      (callsBefore lens.length) := by
  have hdata : ∀ i < n, ∀ k len, lens[k]? = some len → (p.data i (0 + k)).length = len := by
    intro i hi k len hk
    rw [Nat.zero_add]
    exact p.length_data i hi k len hk
  have h : Runs (expected n p.data) r (callsBefore 0)
      (runCalls σ p.data p.targ r lens 0 (known σ 0)) (eventsFrom σ p.data p.targ r lens 0) ()
      (callsBefore (0 + lens.length)) := runs_runCalls hn hfit hdata
  rwa [Nat.zero_add] at h

theorem mem_eventsFrom {myRank j : ℕ} {ev : Ev}
    (h : ev ∈ eventsFrom σ data targ myRank lens j) :
    ∃ k len, lens[k]? = some len ∧ ev ∈ callEvents σ data targ myRank (j + k) len := by
  induction lens generalizing j with
  | nil => cases h
  | cons len lens ih =>
    rcases List.mem_append.mp h with h | h
    · exact ⟨0, len, rfl, h⟩
    · obtain ⟨k, l, hk, hev⟩ := ih h
      rw [Nat.add_assoc, Nat.add_comm 1] at hev
      exact ⟨k + 1, l, hk, hev⟩

theorem sync_of_mem_callEvents {j len : ℕ} {c : List Byte}
    (h : (e, .sync c) ∈ callEvents σ data targ r j len) : c = (expected n data).gathered e r := by
  rcases List.mem_append.mp h with h | h
  · unfold rankEvents at h
    split_ifs at h
    · obtain ⟨rfl, hc⟩ := Prod.mk.inj (List.mem_singleton.mp h)
      exact Event.sync.inj hc
    · cases h
  · have h' : e = j + 1 ∧ c = data r j := by simpa using h
    obtain ⟨rfl, rfl⟩ := h'
    rfl

theorem observe_of_mem_callEvents {myRank j len call : ℕ} {out : Memory Byte}
    (h : (e, observeEvent call out) ∈ callEvents σ data targ myRank j len) :
    call = j ∧ out = scattered σ data j len (targ myRank j) := by
  rcases List.mem_append.mp h with h | h
  · unfold rankEvents at h
    split_ifs at h
    · cases (Prod.mk.inj (List.mem_singleton.mp h)).2
    · cases h
  · have h' : e = j + 2 ∧ call = j ∧ out = scattered σ data j len (targ myRank j) := by
      simpa using h
    exact h'.2

theorem abort_not_mem_callEvents {myRank j len : ℕ} {x : Unit} :
    (e, (.op Op.abort x : Event pmi)) ∉ callEvents σ data targ myRank j len := by
  intro h
  rcases List.mem_append.mp h with h | h
  · unfold rankEvents at h
    split_ifs at h
    · cases (Prod.mk.inj (List.mem_singleton.mp h)).2
    · cases h
  · simp at h

theorem returned_eventsFrom (myRank j : ℕ) :
    returned (eventsFrom σ data targ myRank lens j) = List.range' j lens.length := by
  induction lens generalizing j with
  | nil => rfl
  | cons len lens ih =>
    have hcall : returned (callEvents σ data targ myRank j len) = [j] := by
      by_cases hj : j = 0 <;> simp [returned, callEvents, rankEvents, hj]
    rw [eventsFrom, returned, List.filterMap_append, ← returned, ← returned, hcall, ih,
      List.length_cons, List.range'_succ, List.singleton_append]

theorem job_predicts (hn : n < 2 ^ 31) (hfit : ∀ len ∈ lens, n * len < 2 ^ 31)
    (p : Payload n lens) :
    Predicts (m := machine n) (expected n p.data) () (job σ lens p) where
  coherent r e c h := by
    rw [(runs_job hn hfit p r).trace_eq] at h
    obtain ⟨k, len, -, hev⟩ := mem_eventsFrom h
    exact sync_of_mem_callEvents hev
  resp _ _ _ _ _ _ _ _ _ _ := rfl
  answers s hs hf r o next hcode := by
    cases o with
    | observe j out => exact ⟨(), (), trivial⟩
    | abort =>
      have h := hf.head_mem_trace hcode
      rw [(runs_job hn hfit p r).trace_eq] at h
      obtain ⟨k, len, -, hev⟩ := mem_eventsFrom h
      exact absurd hev abort_not_mem_callEvents
  even r q := by
    rw [(runs_job hn hfit p r).lastEpoch_eq, (runs_job hn hfit p q).lastEpoch_eq]
  still _ _ h := h

/-- Whatever the order in which the library lays down the blocks, every call of every run leaves them
in rank order. -/
theorem ranks_in_order (σ : Equiv.Perm (Fin n)) (lens : List ℕ) (p : Payload n lens)
    (hn : n < 2 ^ 31) (hfit : ∀ len ∈ lens, n * len < 2 ^ 31) : RanksInOrder σ lens p := by
  have hp := job_predicts (σ := σ) hn hfit p
  have hruns := runs_job (σ := σ) hn hfit p
  refine ⟨?_, fun s hs => hp.exists_halted hs, ?_,
    ⟨_, fun run k h0 hrun => hp.run_length_le run k h0 hrun⟩⟩
  · intro s hs r e j out hdone
    have h := (hp.follows hs).mem_trace_of_done hdone
    rw [(hruns r).trace_eq] at h
    obtain ⟨k, len, hk, hev⟩ := mem_eventsFrom h
    obtain ⟨rfl, rfl⟩ := observe_of_mem_callEvents hev
    rw [Nat.zero_add]
    exact ⟨len, hk, scattered_inRankOrder (fun q hq => p.length_data q hq k len hk) _⟩
  · intro s hs hhalt r
    obtain ⟨a, ha⟩ := hhalt r
    rw [((hp.follows hs).done_of_halted ha).1, (hruns r).trace_eq, returned_eventsFrom]
    exact List.range_eq_range'.symm

def threeRanks : Payload 3 [2, 0, 1] where
  data i j := match j with
    | 0 => [BitVec.ofNat 8 i, 255]
    | 1 => []
    | _ => [BitVec.ofNat 8 (16 * i)]
  targ _ _ _ := 0
  length_data := by
    intro i _ j len h
    match j, h with
    | 0, h | 1, h | 2, h =>
      obtain rfl := Option.some.inj h
      rfl

/-- The order of the library is a rotation, which differs from its inverse. -/
theorem ranks_in_order_rotated :
    RanksInOrder (finRotate 3) [2, 0, 1] threeRanks :=
  ranks_in_order (finRotate 3) [2, 0, 1] threeRanks (by decide) (by decide)

end CrayTests.Allgather
