import CrayTests.BandwidthTest
import CrayTests.OptionLoop
import Mathlib.Data.Rat.Defs

/-!
# The message rate profile

The measurements of `main` in `rdm_mbw_mr.c` on rank 0, for each type of calls. With `-v` every result
of `calc_bw` is stored in `bandwidth_results`, which has a row for each message size and a column for
each window size, and the profile is printed from this table. The results are taken as exact
rationals. What is printed while measuring with `-v` is left out.
-/

namespace CrayTests.BandwidthTest
open OptionLoop

def maxMsgSize : ℕ := 2 ^ 22

def maxIov : ℕ := 8

def fieldWidth : ℕ := 20

def windowSizes : List ℕ := [8, 16, 32, 64, 128]

def windowSizesCount : ℕ := 5

def windowArray (i : ℕ) : ℕ := windowSizes.getD i 0

/-- What `calc_bw` returns for a message size, a window size and a number of buffers. -/
abbrev Results := ℕ → ℕ → ℕ → ℚ

/-- `bandwidth_results`, whose entries are not initialised. -/
abbrev BandwidthTable := ℕ → ℕ → Option ℚ

/-- The number of rows, counted by shifting `MAX_MSG_SIZE` to the right. -/
def logVal : ℕ → ℕ
  | 0 => 1
  | size + 1 => if (size + 1) / 2 = 0 then 1 else logVal ((size + 1) / 2) + 1

def storeResult (j i : ℕ) (bw : ℚ) (table : BandwidthTable) : Option BandwidthTable :=
  if j < logVal maxMsgSize ∧ i < windowSizesCount then
    some (Function.update table j (Function.update (table j) i (some bw)))
  else none

/-- `for (j = 0, curr_size = 1; curr_size <= MAX_MSG_SIZE; curr_size *= 2, j++)`. A size is never
0. -/
def forSizes {σ : Type} (body : ℕ → ℕ → σ → Option σ) (j currSize : ℕ) (st : σ) : Option σ :=
  if 0 < currSize ∧ currSize ≤ maxMsgSize then do
    let st ← body j currSize st
    forSizes body (j + 1) (currSize * 2) st
  else some st
termination_by maxMsgSize + 1 - currSize

def measureVaried (bw : Results) : Option BandwidthTable :=
  forSizes (fun j currSize table =>
    (List.range windowSizesCount).foldlM (fun table i =>
      (List.range maxIov).foldlM (fun table c =>
        storeResult j i (bw currSize (windowArray i) (c + 1)) table) table) table)
    0 1 fun _ _ => none

/-- A line of the output: the bytes of a message, what is printed as the number of its buffers, and
the results. -/
structure Row where
  bytes : ℕ
  iovCount : ℕ
  entries : List ℚ
deriving DecidableEq

def messageRate (bw : ℚ) (currSize iovCount : ℕ) : ℚ := 10 ^ 6 * bw / (currSize * iovCount)

def rateProfile (table : BandwidthTable) : Option (List Row) :=
  (List.range maxIov).foldlM (fun rows c =>
    forSizes (fun j currSize rows => do
      let entries ← (List.range windowSizesCount).mapM fun i => do
        let bw ← table j i
        pure (messageRate bw currSize (c + 1))
      pure (rows ++ [⟨currSize * (c + 1), c + 1, entries⟩])) 0 1 rows) []

/-- The rows printed with just one window size: a bandwidth and with `print_rate` a rate. Without it
`FIELD_WIDTH` is passed once too often, so that it is printed as the number of buffers, and `c + 1`
is taken as the width of the bandwidth. -/
def measureSingle (bw : Results) (windowSize : ℕ) (printRate : Bool) : Option (List Row) :=
  forSizes (fun _ currSize rows =>
    (List.range maxIov).foldlM (fun rows c =>
      let result := bw currSize windowSize (c + 1)
      let row : Row :=
        if printRate then
          ⟨currSize * (c + 1), c + 1, [result, messageRate result currSize (c + 1)]⟩
        else ⟨currSize * (c + 1), fieldWidth, [result]⟩
      some (rows ++ [row])) rows)
    0 1 []

structure Options where
  windowVaried : Bool
  printRate : Bool
  windowSize : ℕ

def runType (opts : Options) (bw : Results) : Option (List Row) :=
  if opts.windowVaried then do
    let table ← measureVaried bw
    if opts.printRate then rateProfile table else pure []
  else measureSingle bw opts.windowSize opts.printRate

def sendRecvTypes : List SendRecvType := [.sendRecv, .sendvRecvv, .sendRecvv, .sendvRecv]

def printedRows (opts : Options) (bw : SendRecvType → Results) : Option (List (List Row)) :=
  sendRecvTypes.mapM fun type => runType opts (bw type)

def numSizes : ℕ := 23

theorem logVal_maxMsgSize : logVal maxMsgSize = numSizes := by
  simp [maxMsgSize, numSizes, logVal]

theorem forSizes_eq {σ : Type} (body : ℕ → ℕ → σ → Option σ) (st : ℕ → σ)
    (hbody : ∀ k < numSizes, body k (2 ^ k) (st k) = some (st (k + 1))) :
    forSizes body 0 1 (st 0) = some (st numSizes) := by
  have hrest : ∀ m k, k + m = numSizes → forSizes body k (2 ^ k) (st k) = some (st numSizes) := by
    intro m
    induction m with
    | zero =>
      rintro k rfl
      rw [forSizes, if_neg]
      rintro ⟨-, hle⟩
      exact absurd hle (by decide)
    | succ m ih =>
      intro k hk
      have hsize : 0 < 2 ^ k ∧ 2 ^ k ≤ maxMsgSize :=
        ⟨by positivity, Nat.pow_le_pow_right (by norm_num) (by unfold numSizes at hk; omega)⟩
      rw [forSizes, if_pos hsize, hbody k (by omega), ← pow_succ]
      exact ih (k + 1) (by omega)
  exact hrest numSizes 0 (by omega)

/-- The table after the rows below `j`; the measurements of a cell overwrite each other. -/
def lastMeasured (bw : Results) (j : ℕ) : BandwidthTable := fun j' i' =>
  if j' < j ∧ i' < windowSizesCount then some (bw (2 ^ j') (windowArray i') maxIov) else none

theorem storeResult_eq {j i : ℕ} (hj : j < numSizes) (hi : i < windowSizesCount) (bw : ℚ)
    (table : BandwidthTable) :
    storeResult j i bw table =
      some (Function.update table j (Function.update (table j) i (some bw))) := by
  rw [storeResult, logVal_maxMsgSize, if_pos ⟨hj, hi⟩]

/-- The last measurement of a cell is the one with `IOV_CNT` buffers. -/
theorem measureCell_eq {j i : ℕ} (hj : j < numSizes) (hi : i < windowSizesCount) (bw : ℕ → ℚ)
    (table : BandwidthTable) :
    (List.range maxIov).foldlM (fun table c => storeResult j i (bw (c + 1)) table) table =
      some (Function.update table j (Function.update (table j) i (some (bw maxIov)))) := by
  let st : ℕ → BandwidthTable := fun c =>
    if c = 0 then table else Function.update table j (Function.update (table j) i (some (bw c)))
  refine foldlM_range _ st maxIov fun c _ => ?_
  rw [storeResult_eq hj hi]
  by_cases hc : c = 0
  · simp [st, hc]
  · simp [st, hc, Function.update_idem]

theorem measureVaried_eq (bw : Results) :
    measureVaried bw = some (lastMeasured bw numSizes) := by
  have hempty : (fun _ _ => none) = lastMeasured bw 0 := by
    funext j i
    simp [lastMeasured]
  rw [measureVaried, hempty]
  refine forSizes_eq _ (lastMeasured bw) fun j hj => ?_
  let st : ℕ → BandwidthTable := fun i j' i' =>
    if j' = j ∧ i' < i then some (bw (2 ^ j) (windowArray i') maxIov) else lastMeasured bw j j' i'
  have hfirst : st 0 = lastMeasured bw j := by
    funext j' i'
    simp [st]
  have hlast : st windowSizesCount = lastMeasured bw (j + 1) := by
    funext j' i'
    by_cases hj' : j' = j
    · subst hj'
      simp [st, lastMeasured]
    · have : j' < j + 1 ↔ j' < j := by omega
      simp [st, lastMeasured, hj', this]
  rw [← hfirst, ← hlast]
  refine foldlM_range _ st windowSizesCount fun i hi => ?_
  rw [measureCell_eq hj hi fun c => bw (2 ^ j) (windowArray i) c]
  congr 1
  funext j' i'
  by_cases hj' : j' = j
  · subst hj'
    rw [Function.update_self]
    by_cases hi' : i' = i
    · subst hi'
      simp [st]
    · have : i' < i + 1 ↔ i' < i := by omega
      simp [st, hi', this]
  · rw [Function.update_of_ne hj']
    simp [st, hj']

def profileBlock (bw : Results) (c : ℕ) : List Row :=
  (List.range numSizes).map fun k =>
    ⟨2 ^ k * (c + 1), c + 1,
      windowSizes.map fun w => messageRate (bw (2 ^ k) w (c + 1)) (2 ^ k) (c + 1)⟩

def profileRows (bw : Results) : List Row := (List.range maxIov).flatMap (profileBlock bw)

theorem rateProfile_eq (bw : Results) :
    rateProfile (lastMeasured bw numSizes) = some (profileRows fun size w _ => bw size w maxIov) := by
  rw [rateProfile, foldlM_range_append _ (profileBlock fun size w _ => bw size w maxIov),
    List.nil_append, profileRows]
  intro c _ rows
  let row : ℕ → Row := fun k => ⟨2 ^ k * (c + 1), c + 1,
    windowSizes.map fun w => messageRate (bw (2 ^ k) w maxIov) (2 ^ k) (c + 1)⟩
  have h := forSizes_eq
    (fun j currSize rows => do
      let entries ← (List.range windowSizesCount).mapM fun i => do
        let bw ← lastMeasured bw numSizes j i
        pure (messageRate bw currSize (c + 1))
      pure (rows ++ [(⟨currSize * (c + 1), c + 1, entries⟩ : Row)]))
    (fun k => rows ++ (List.range k).map row) fun k hk => by
      have hentries := mapM_range
        (fun i => do
          let bw ← lastMeasured bw numSizes k i
          pure (messageRate bw (2 ^ k) (c + 1)))
        (fun i => messageRate (bw (2 ^ k) (windowArray i) maxIov) (2 ^ k) (c + 1))
        windowSizesCount fun i hi => by simp [lastMeasured, hk, hi]
      rw [hentries, List.range_succ, List.map_append, List.map_singleton, ← List.append_assoc]
      rfl
  rwa [List.range_zero, List.map_nil, List.append_nil] at h

/-- Each entry of the profile is the rate of the bandwidth that was measured for its message size,
window and number of buffers. -/
def ReportsMeasured (opts : Options) (bw : SendRecvType → Results) : Prop :=
  printedRows opts bw = some (sendRecvTypes.map fun type => profileRows (bw type))

/-- The number of buffers makes no difference to any measurement. -/
def IovIndependent (bw : Results) : Prop :=
  ∀ k < numSizes, ∀ w ∈ windowSizes, ∀ c < maxIov,
    bw (2 ^ k) w (c + 1) = bw (2 ^ k) w maxIov

theorem messageRate_inj {x y : ℚ} {currSize iovCount : ℕ} (hsize : 0 < currSize)
    (hcount : 0 < iovCount) :
    messageRate x currSize iovCount = messageRate y currSize iovCount ↔ x = y := by
  have hne : (currSize * iovCount : ℚ) ≠ 0 := by positivity
  unfold messageRate
  rw [div_left_inj' hne]
  exact mul_right_inj' (by norm_num)

theorem flatMap_range_inj {α : Type*} {f g : ℕ → List α} {n : ℕ}
    (hlen : ∀ i, (f i).length = (g i).length) :
    (List.range n).flatMap f = (List.range n).flatMap g ↔ ∀ i < n, f i = g i := by
  constructor
  · induction n with
    | zero => exact fun _ i hi => absurd hi (Nat.not_lt_zero i)
    | succ n ih =>
      intro h i hi
      rw [List.range_succ, List.flatMap_append, List.flatMap_append, List.flatMap_singleton,
        List.flatMap_singleton] at h
      obtain ⟨hinit, hlast⟩ := List.append_inj' h (hlen n)
      rcases Nat.lt_succ_iff_lt_or_eq.mp hi with hlt | rfl
      · exact ih hinit i hlt
      · exact hlast
  · intro h
    exact List.flatMap_congr fun i hi => h i (List.mem_range.mp hi)

theorem profileRows_inj (bw bw' : Results) :
    profileRows bw = profileRows bw' ↔
      ∀ k < numSizes, ∀ w ∈ windowSizes, ∀ c < maxIov,
        bw (2 ^ k) w (c + 1) = bw' (2 ^ k) w (c + 1) := by
  unfold profileRows
  rw [flatMap_range_inj fun c => by simp [profileBlock]]
  unfold profileBlock
  simp only [List.map_inj_left, List.mem_range, Row.mk.injEq, true_and]
  constructor
  · intro h k hk w hw c hc
    exact (messageRate_inj (by positivity) (Nat.succ_pos c)).mp (h c hc k hk w hw)
  · intro h c hc k hk w hw
    rw [h k hk w hw c hc]

theorem printedRows_varied (windowSize : ℕ) (bw : SendRecvType → Results) :
    printedRows ⟨true, true, windowSize⟩ bw =
      some (sendRecvTypes.map fun type => profileRows fun size w _ => bw type size w maxIov) := by
  have htype (type : SendRecvType) : runType ⟨true, true, windowSize⟩ (bw type) =
      some (profileRows fun size w _ => bw type size w maxIov) := by
    rw [runType, if_pos rfl, measureVaried_eq, Option.bind_eq_bind, Option.bind_some, if_pos rfl,
      rateProfile_eq]
  rw [printedRows, funext htype]
  exact List.mapM_pure

/-- For all results of the measurements, the profile reports them exactly when they do not depend on
the number of buffers. -/
theorem reportsMeasured_iff (windowSize : ℕ) (bw : SendRecvType → Results) :
    ReportsMeasured ⟨true, true, windowSize⟩ bw ↔ ∀ type, IovIndependent (bw type) := by
  rw [ReportsMeasured, printedRows_varied, Option.some.injEq, List.map_inj_left]
  constructor
  · intro h type
    have htype : type ∈ sendRecvTypes := by cases type <;> decide
    exact fun k hk w hw c hc =>
      (((profileRows_inj _ _).mp (h type htype)) k hk w hw c hc).symm
  · intro h type _
    exact (profileRows_inj _ _).mpr fun k hk w hw c hc => (h type k hk w hw c hc).symm

/-- With just one window size each rate is computed from its own measurement. -/
theorem measureSingle_eq (bw : Results) (windowSize : ℕ) :
    measureSingle bw windowSize true =
      some ((List.range numSizes).flatMap fun k => (List.range maxIov).flatMap fun c =>
        [⟨2 ^ k * (c + 1), c + 1, [bw (2 ^ k) windowSize (c + 1),
          messageRate (bw (2 ^ k) windowSize (c + 1)) (2 ^ k) (c + 1)]⟩]) := by
  unfold measureSingle
  let block : ℕ → List Row := fun k => (List.range maxIov).flatMap fun c =>
    [⟨2 ^ k * (c + 1), c + 1, [bw (2 ^ k) windowSize (c + 1),
      messageRate (bw (2 ^ k) windowSize (c + 1)) (2 ^ k) (c + 1)]⟩]
  refine forSizes_eq _ (fun k => (List.range k).flatMap block) fun k _ => ?_
  rw [List.range_succ, List.flatMap_append, List.flatMap_singleton]
  exact foldlM_range_append _ _ maxIov (fun c _ rows => rfl) _

def growing (_ : SendRecvType) : Results := fun _ _ iovCount => iovCount

theorem not_reportsMeasured_growing : ¬ ReportsMeasured ⟨true, true, 64⟩ growing := by
  intro h
  rw [ReportsMeasured, printedRows_varied, Option.some.injEq, List.map_inj_left] at h
  have := (profileRows_inj _ _).mp (h .sendRecv (by decide)) 0 (by decide) 8 (by decide) 0
    (by decide)
  norm_num [growing, maxIov] at this

end CrayTests.BandwidthTest
