import CrayTests.CtpmRefinement

/-!
# Reductions and the exchange of registration data

The functions of `ct_utils.h` and of the tests that compute with what `ctpm_Allgather` delivers,
over the abstract operations, on arrays of `k`-byte integers in memory. What they compute in every
run of the code then follows from one abstract run.
-/

namespace CrayTests.Ctpm
open CInteger RankProgram
open Kvs (Byte)

variable {n : ℕ}

/-- The `k` bytes of an integer, least significant first. -/
def storedBytes (k : ℕ) (x : ℤ) : List Byte :=
  (List.range k).map fun i => BitVec.ofInt 8 (x / 256 ^ i)

def loadBytes (bs : List Byte) : ℕ := Nat.ofDigits 256 (bs.map BitVec.toNat)

/-- `array[i]` of an array of `k`-byte elements, unsigned. -/
def element (k : ℕ) (array : List Byte) (i : ℕ) : ℕ := loadBytes ((array.drop (i * k)).take k)

theorem length_storedBytes (k : ℕ) (x : ℤ) : (storedBytes k x).length = k := by simp [storedBytes]

theorem storedBytes_succ (k : ℕ) (x : ℤ) :
    storedBytes (k + 1) x = BitVec.ofInt 8 x :: storedBytes k (x / 256) := by
  have hdiv (i : ℕ) : x / 256 ^ (i + 1) = x / 256 / 256 ^ i := by
    rw [Int.ediv_ediv_of_nonneg (by norm_num), pow_succ']
  rw [storedBytes, List.range_succ_eq_map, List.map_cons, List.map_map, pow_zero, Int.ediv_one]
  simp only [Function.comp_def, Nat.succ_eq_add_one, hdiv, storedBytes]

/-- Loading what is stored wraps around. -/
theorem loadBytes_storedBytes (k : ℕ) (x : ℤ) : (loadBytes (storedBytes k x) : ℤ) = x % 256 ^ k := by
  induction k generalizing x with
  | zero => simp [storedBytes, loadBytes]
  | succ k ih =>
    have hbyte : ((BitVec.ofInt 8 x).toNat : ℤ) = x % 256 := by
      rw [BitVec.toNat_ofInt]
      omega
    have hsplit : x % 256 ^ (k + 1) = x % 256 + 256 * (x / 256 % 256 ^ k) := by
      rw [pow_succ', Int.emod_def, Int.emod_def, Int.emod_def (x / 256),
        Int.ediv_ediv_of_nonneg (by norm_num)]
      ring
    rw [storedBytes_succ, loadBytes, List.map_cons, Nat.ofDigits_cons, ← loadBytes, hsplit, ← ih]
    push_cast
    rw [hbyte]

theorem element_flatMap (k : ℕ) (src : Fin n → ℤ) (q : Fin n) :
    element k ((List.finRange n).flatMap fun q => storedBytes k (src q)) q =
      loadBytes (storedBytes k (src q)) := by
  have hq : (q : ℕ) < (List.finRange n).length := by rw [List.length_finRange]; exact q.isLt
  rw [element, Tiling.take_drop_flatMap (fun i _ => length_storedBytes k (src i)) hq,
    List.getElem_finRange]
  rfl

/-- The conversion to the signed type of `k` bytes. -/
def signed (k : ℕ) (x : ℤ) : ℤ := Int.bmod x (256 ^ k)

theorem signed_four : signed 4 = int32 := rfl

theorem signed_eight : signed 8 = int64 := rfl

theorem signed_add_signed (k : ℕ) (x y : ℤ) :
    signed k (signed k x + signed k y) = signed k (x + y) := by
  unfold signed
  simp

theorem signed_emod (k : ℕ) (x : ℤ) : signed k (x % 256 ^ k) = signed k x := by
  have h := Int.emod_bmod x (256 ^ k)
  rwa [Nat.cast_pow, Nat.cast_ofNat] at h

/-- With `+` and a signed type of `k` bytes, whose sums wrap around. -/
def ctAllreduceSum (k : ℕ) (src : ℤ) (totalRanks : ℕ) : Collective n ℤ := do
  let vals ← ctpmAllgather (storedBytes k src)
  let valAt := fun i => signed k (element k vals i)
  let ret := (List.range (totalRanks - 1)).foldl (fun ret i => signed k (ret + valAt (i + 1)))
    (valAt 0)
  ctpmBarrier
  pure ret

def ctAllreduceIntSum (src : ℤ) (totalRanks : ℕ) : Collective n ℤ := ctAllreduceSum 4 src totalRanks

def ctAllreduceInt64Sum (src : ℤ) (totalRanks : ℕ) : Collective n ℤ :=
  ctAllreduceSum 8 src totalRanks

def gatherRound (k : ℕ) (src : Fin n → ℤ) : Round n :=
  .allgather k (fun q => storedBytes k (src q)) fun q => length_storedBytes k (src q)

theorem foldl_signed (k : ℕ) (v : ℕ → ℤ) (m : ℕ) :
    (List.range m).foldl (fun ret i => signed k (ret + signed k (v (i + 1)))) (signed k (v 0)) =
      signed k (∑ i ∈ Finset.range (m + 1), v i) := by
  induction m with
  | zero => simp
  | succ m ih =>
    rw [List.range_succ, List.foldl_append, ih, List.foldl_cons, List.foldl_nil, signed_add_signed,
      Finset.sum_range_succ _ (m + 1)]

theorem runs_ctAllreduceSum {r : Fin n} (k : ℕ) (src : Fin n → ℤ) :
    Runs (oracle [gatherRound k src, .barrier]) r 0 (ctAllreduceSum k (src r) n)
      (callEvents Round.contribution r 0 [gatherRound k src, .barrier])
      (signed k (∑ q, src q)) 2 := by
  refine ⟨rfl, ?_, rfl⟩
  let vals := (List.finRange n).flatMap fun q => storedBytes k (src q)
  have hvals (q : Fin n) : (element k vals q : ℤ) = src q % 256 ^ k := by
    rw [element_flatMap, loadBytes_storedBytes]
  change (List.range (n - 1)).foldl (fun ret i => signed k (ret + signed k (element k vals (i + 1))))
    (signed k (element k vals 0)) = _
  rw [foldl_signed k fun i => (element k vals i : ℤ), Nat.sub_add_cancel r.pos, Finset.sum_range]
  simp only [hvals]
  rw [← signed_emod, ← Finset.sum_int_mod, signed_emod]

theorem allreduce_computes (mem : Fin n → Contents) {k : ℕ} (src : Fin n → ℤ) (hk : k < 2 ^ 30)
    (hn : n < 2 ^ 31) (hfit : n * k < 2 ^ 31) :
    Computes mem (fun r => ctAllreduceSum k (src r) n) fun _ => signed k (∑ q, src q) := by
  refine computes_of_runs hn (by norm_num) (fun round h => ?_) fun r => runs_ctAllreduceSum k src
  rcases List.mem_pair.mp h with rfl | rfl
  · exact ⟨hk, hfit⟩
  · trivial

/-- Every rank gets the sum of what the ranks pass. A sum outside `int` or `int64_t` is taken to wrap
around, as it does in the compiled code; C leaves it undefined. -/
theorem allreduce_sums (mem : Fin n → Contents) (src : Fin n → ℤ) (hn : n < 2 ^ 28) :
    Computes mem (fun r => ctAllreduceIntSum (src r) n) (fun _ => int32 (∑ q, src q)) ∧
      Computes mem (fun r => ctAllreduceInt64Sum (src r) n) fun _ => int64 (∑ q, src q) :=
  ⟨allreduce_computes mem src (by norm_num) (by omega) (by omega),
    allreduce_computes mem src (by norm_num) (by omega) (by omega)⟩

/-- The sum of three error counts of `2 ^ 30` leaves the range of `int`. -/
theorem allreduce_sums_three :
    let mem : Fin 3 → Contents := fun _ => ⟨fun _ _ => 0xff, fun _ _ => 0⟩
    Computes mem (fun _ => ctAllreduceIntSum (2 ^ 30) 3) (fun _ => -2 ^ 30) ∧
      Computes mem (fun _ => ctAllreduceInt64Sum (2 ^ 30) 3) fun _ => 3 * 2 ^ 30 :=
  allreduce_sums _ (fun _ => 2 ^ 30) (by norm_num)

structure PeerData where
  rTableAddr : ℕ := 0
  rTableKey : ℕ := 0
  rLockAddr : ℕ := 0
  rLockKey : ℕ := 0

/-- `for (i = 0; i < num_ranks; i++)` one member of `peers[i].data` becomes `array[i]`. -/
def storeMember (numRanks : ℕ) (set : PeerData → ℕ → PeerData) (array : List Byte)
    (peers : List PeerData) : List PeerData :=
  (List.range numRanks).foldl (fun peers i => peers.modify i fun data => set data (element 8 array i))
    peers

def exchangeRegistrationData (localTableKey localLockKey hpccTable hpccLock : ℕ)
    (peers : List PeerData) : Collective n (List PeerData) := do
  ctpmBarrier
  let keys ← ctpmAllgather (storedBytes 8 localTableKey)
  let peers := storeMember n (fun data key => { data with rTableKey := key }) keys peers
  ctpmBarrier
  let keys ← ctpmAllgather (storedBytes 8 localLockKey)
  let peers := storeMember n (fun data key => { data with rLockKey := key }) keys peers
  ctpmBarrier
  let addresses ← ctpmAllgather (storedBytes 8 hpccTable)
  ctpmBarrier
  let peers := storeMember n (fun data addr => { data with rTableAddr := addr }) addresses peers
  ctpmBarrier
  let addresses ← ctpmAllgather (storedBytes 8 hpccLock)
  let peers := storeMember n (fun data addr => { data with rLockAddr := addr }) addresses peers
  ctpmBarrier
  pure peers

theorem getElem?_storeMember (numRanks : ℕ) (set : PeerData → ℕ → PeerData) (array : List Byte)
    (peers : List PeerData) (i : ℕ) :
    (storeMember numRanks set array peers)[i]? = peers[i]?.map fun data =>
      if i < numRanks then set data (element 8 array i) else data := by
  induction numRanks with
  | zero => simp [storeMember]
  | succ m ih =>
    rw [storeMember, List.range_succ, List.foldl_append, List.foldl_cons, List.foldl_nil,
      ← storeMember, List.getElem?_modify, ih]
    cases peers[i]? with
    | none => rfl
    | some data =>
      rcases Nat.lt_trichotomy i m with h | rfl | h
      · simp [h, Nat.lt_succ_of_lt h, h.ne']
      · simp
      · simp [h.ne, Nat.not_lt.mpr h.le, Nat.not_lt.mpr h]

theorem element_eq (src : Fin n → ℕ) (hsrc : ∀ q, src q < 2 ^ 64) (q : Fin n) :
    element 8 ((List.finRange n).flatMap fun q => storedBytes 8 (src q)) q = src q := by
  have h := loadBytes_storedBytes 8 (src q)
  have hq := hsrc q
  rw [element_flatMap 8 (fun q => (src q : ℤ)) q]
  omega

/-- What the ranks register: a table and a lock array, each with its address and its key. -/
structure Registration (n : ℕ) where
  data : Fin n → PeerData
  bound : ∀ q, (data q).rTableAddr < 2 ^ 64 ∧ (data q).rTableKey < 2 ^ 64 ∧
    (data q).rLockAddr < 2 ^ 64 ∧ (data q).rLockKey < 2 ^ 64

namespace Registration

variable (reg : Registration n)

def rounds : List (Round n) :=
  [.barrier, gatherRound 8 fun q => (reg.data q).rTableKey, .barrier,
    gatherRound 8 fun q => (reg.data q).rLockKey, .barrier,
    gatherRound 8 fun q => (reg.data q).rTableAddr, .barrier, .barrier,
    gatherRound 8 fun q => (reg.data q).rLockAddr, .barrier]

def program (peers : Fin n → List PeerData) (r : Fin n) : Collective n (List PeerData) :=
  exchangeRegistrationData (reg.data r).rTableKey (reg.data r).rLockKey (reg.data r).rTableAddr
    (reg.data r).rLockAddr (peers r)

theorem runs_program (peers : Fin n → List PeerData) (hpeers : ∀ r, (peers r).length = n)
    (r : Fin n) :
    Runs (oracle reg.rounds) r 0 (reg.program peers r)
      (callEvents Round.contribution r 0 reg.rounds) (List.ofFn reg.data) 10 := by
  refine ⟨rfl, ?_, rfl⟩
  let array (f : PeerData → ℕ) := (List.finRange n).flatMap fun q => storedBytes 8 (f (reg.data q))
  have hresult : result (oracle reg.rounds) r 0 (reg.program peers r) =
      storeMember n (fun data addr => { data with rLockAddr := addr }) (array PeerData.rLockAddr)
        (storeMember n (fun data addr => { data with rTableAddr := addr }) (array PeerData.rTableAddr)
          (storeMember n (fun data key => { data with rLockKey := key }) (array PeerData.rLockKey)
            (storeMember n (fun data key => { data with rTableKey := key }) (array PeerData.rTableKey)
              (peers r)))) := rfl
  rw [hresult]
  refine List.ext_getElem? fun i => ?_
  simp only [getElem?_storeMember, Option.map_map]
  by_cases hi : i < n
  · have helement {f : PeerData → ℕ} (hf : ∀ q, f (reg.data q) < 2 ^ 64) :
        element 8 (array f) i = f (reg.data ⟨i, hi⟩) :=
      element_eq (fun q => f (reg.data q)) hf ⟨i, hi⟩
    rw [List.getElem?_eq_getElem ((hpeers r).symm ▸ hi),
      List.getElem?_eq_getElem (by rwa [List.length_ofFn])]
    simp only [Option.map_some, Function.comp_apply, if_pos hi, List.getElem_ofFn,
      helement fun q => (reg.bound q).1, helement fun q => (reg.bound q).2.1,
      helement fun q => (reg.bound q).2.2.1, helement fun q => (reg.bound q).2.2.2]
  · rw [List.getElem?_eq_none (by rw [hpeers r]; omega),
      List.getElem?_eq_none (by rw [List.length_ofFn]; omega)]
    rfl

/-- Every rank knows what every rank has registered. -/
theorem exchanges (mem : Fin n → Contents) (peers : Fin n → List PeerData)
    (hpeers : ∀ r, (peers r).length = n) (hn : n < 2 ^ 28) :
    Computes mem (reg.program peers) fun _ => List.ofFn reg.data := by
  have hgather {f : PeerData → ℕ} : (gatherRound 8 fun q => (f (reg.data q) : ℤ)).Fits :=
    ⟨by norm_num, by omega⟩
  have hrounds : reg.rounds.length + 1 < 2 ^ 31 := by
    change 10 + 1 < 2 ^ 31
    norm_num
  refine computes_of_runs (by omega) hrounds (fun round h => ?_)
    fun r => reg.runs_program peers hpeers r
  simp only [rounds, List.mem_cons, List.not_mem_nil, or_false] at h
  rcases h with rfl | rfl | rfl | rfl | rfl | rfl | rfl | rfl | rfl | rfl <;>
    first | trivial | exact hgather

def two : Registration 2 where
  data q := ⟨0x7f0000001000 + 0x1000 * q, 17 + q, 0x7f0000009000 + 0x1000 * q, 2 ^ 63 + q⟩
  bound q := by fin_cases q <;> decide

theorem exchanges_two :
    Computes (fun _ => ⟨fun _ _ => 0xff, fun _ _ => 0⟩) (two.program fun _ => [{}, {}]) fun _ =>
      [⟨0x7f0000001000, 17, 0x7f0000009000, 2 ^ 63⟩,
        ⟨0x7f0000002000, 18, 0x7f000000a000, 2 ^ 63 + 1⟩] :=
  two.exchanges _ (fun _ => [{}, {}]) (fun _ => rfl) (by norm_num)

end Registration

end CrayTests.Ctpm
