import CrayTests.Outbox
import CrayTests.PrintUtils
import CrayTests.StateContract

/-!
# The buffers of the print utilities

What the helpers of `ct_add_line` do when every `write` transfers all its bytes. A buffer and
the file it is written to are an `Outbox`: a flush moves the contents, and the csv loop adds
the csv form of the new bytes.
-/

namespace CrayTests.PrintUtils

open CInteger Outbox StateContract

variable {α β : Type}

@[simp] theorem deref_ok {p : Ptr} {u : Unit} {w w' : World} :
    deref p w = .ok u w' ↔ p = .live ∧ w = w' := by
  unfold deref
  split_ifs with h
  · simp [h]
  · simp [h]

theorem deref_live (w : World) : deref .live w = .ok () w := rfl

/-- Every `write` transfers all its bytes. -/
def Full (env : Env) : Prop := ∀ i n, env.writeRet i n = n

def World.wrote (w : World) (fd : ℤ) (bytes : List Byte) : World :=
  { w with writes := w.writes + 1, log := w.log ++ [(fd, bytes)] }

theorem bytesTo_wrote (fd fd' : ℤ) (w : World) (bytes : List Byte) :
    bytesTo fd (w.wrote fd' bytes) = bytesTo fd w ++ if fd' = fd then bytes else [] := by
  unfold bytesTo World.wrote
  by_cases h : fd' = fd <;> simp [h]

def World.reallocated (w : World) : World := { w with reallocs := w.reallocs + 1 }

@[simp] theorem bytesTo_reallocated (fd : ℤ) (w : World) :
    bytesTo fd w.reallocated = bytesTo fd w := rfl

theorem bytesTo_congr {w w' : World} (h : w'.log = w.log) (fd : ℤ) :
    bytesTo fd w' = bytesTo fd w := by
  unfold bytesTo
  rw [h]

@[simp] theorem length_contents (b : Buf) : b.contents.length = b.cnt := by
  simp [Buf.contents]

theorem contents_eq_nil_iff {b : Buf} : b.contents = [] ↔ b.cnt = 0 := by
  rw [← List.length_eq_zero_iff, length_contents]

variable {env : Env} {depth : ℕ} {w w' : World}

theorem writeBuf_live (hfull : Full env) (fd : ℤ) {b : Buf} (hp : b.ptr = .live) (w : World) :
    writeBuf env fd b w = .ok b.cnt (w.wrote fd b.contents) := by
  unfold writeBuf
  rw [hp, bind_of_ok (deref_live w)]
  simp [write, World.wrote, hfull _ _]

theorem chkWriteErr_count {fini : Info → Run Info} {n : ℕ} (hn : n < 2 ^ 31) (info : Info)
    (w : World) : chkWriteErr fini n info w = .ok () w := by
  have hne : ¬ int32 (n : ℤ) = -1 := by
    rw [int32_natCast hn]
    omega
  unfold chkWriteErr
  rw [if_neg hne]
  rfl

theorem writeOut_run (hfull : Full env) (fd : ℤ) {b : Buf} (hp : b.ptr = .live)
    (hn : b.cnt < 2 ^ 31) (fini : Info → Run Info) (info : Info) (w : World) :
    writeOut env fini fd b info w = .ok () (w.wrote fd b.contents) := by
  unfold writeOut
  rw [bind_of_ok (writeBuf_live hfull fd hp w)]
  exact chkWriteErr_count hn info _

theorem store_of_lt {data : ℕ → Byte} {pos i : ℕ} (bytes : List Byte) (h : i < pos) :
    store data pos bytes i = data i := by
  unfold store
  rw [if_pos h]

theorem store_add {data : ℕ → Byte} {bytes : List Byte} {j : ℕ} (pos : ℕ)
    (h : j < bytes.length) : store data pos bytes (pos + j) = bytes[j] := by
  simp [store, h]

def Buf.printed (b : Buf) (line : List Byte) : Buf :=
  { b with data := store b.data b.cnt (line.take (b.sz - b.cnt - 1) ++ [0]) }

theorem contents_congr {b b' : Buf} (hcnt : b'.cnt = b.cnt)
    (h : ∀ i < b.cnt, b'.data i = b.data i) : b'.contents = b.contents := by
  unfold Buf.contents
  rw [hcnt]
  apply List.map_congr_left
  intro i hi
  exact h i (List.mem_range.mp hi)

theorem contents_printed (b : Buf) (line : List Byte) :
    (b.printed line).contents = b.contents :=
  contents_congr rfl fun _ hi => store_of_lt _ hi

theorem printed_data_line {b : Buf} {line : List Byte} (h : b.cnt + line.length < b.sz)
    {i : ℕ} (hi : i < line.length) : (b.printed line).data (b.cnt + i) = (line)[i] := by
  change store _ _ _ _ = _
  rw [List.take_of_length_le (by omega), store_add _ (by simp; omega)]
  exact List.getElem_append_left hi

theorem printed_data_end {b : Buf} {line : List Byte} (h : b.cnt + line.length < b.sz) :
    (b.printed line).data (b.cnt + line.length) = 0 := by
  change store _ _ _ _ = _
  rw [List.take_of_length_le (by omega), store_add _ (by simp)]
  simp

/-- A line longer than the free space leaves its null in the last byte of the buffer. -/
theorem printed_data_last {b : Buf} {line : List Byte} (hcnt : b.cnt < b.sz)
    (h : b.sz - b.cnt ≤ line.length) : (b.printed line).data (b.sz - 1) = 0 := by
  have hlen : (line.take (b.sz - b.cnt - 1)).length = b.sz - b.cnt - 1 := by
    rw [List.length_take]
    omega
  have hpos : b.sz - 1 = b.cnt + (b.sz - b.cnt - 1) := by omega
  change store _ _ _ _ = _
  rw [hpos, store_add _ (by simp; omega)]
  simp [hlen]

theorem contents_add_line {b : Buf} {line : List Byte} (h : b.cnt + line.length < b.sz) :
    Buf.contents { b.printed line with cnt := b.cnt + line.length } = b.contents ++ line := by
  rw [← contents_printed b line]
  unfold Buf.contents
  rw [List.range_add, List.map_append, List.map_map]
  congr 1
  apply List.ext_getElem (by simp)
  intro i _ hi
  simpa using printed_data_line h hi

theorem vsnprintf_live {b : Buf} {line : List Byte} (hp : b.ptr = .live) (hcnt : b.cnt < b.sz)
    (hsz : b.sz < 2 ^ 64) (hlen : line.length < 2 ^ 31) (w : World) :
    vsnprintf b line w = .ok (b.printed line, (line.length : ℤ)) w := by
  have hsize : uint64 (b.sz - b.cnt) = b.sz - b.cnt := by
    rw [← Nat.cast_sub hcnt.le]
    exact uint64_natCast (by omega)
  unfold vsnprintf
  simp only [hsize]
  rw [if_neg (by omega), if_pos ⟨hp, by omega⟩, if_pos hlen]
  rfl

theorem live_of_vsnprintf {b : Buf} {line : List Byte} {r : Buf × ℤ} (hcnt : b.cnt < b.sz)
    (hsz : b.sz < 2 ^ 64) (h : vsnprintf b line w = .ok r w') : b.ptr = .live := by
  have hsize : uint64 (b.sz - b.cnt) = b.sz - b.cnt := by
    rw [← Nat.cast_sub hcnt.le]
    exact uint64_natCast (by omega)
  by_contra hp
  unfold vsnprintf at h
  simp only [hsize] at h
  rw [if_neg (by omega), if_neg (fun hc => hp hc.1)] at h
  exact throw_ok h

/-- The size may double, and the `i`-th `realloc` succeeds. -/
def Grows (env : Env) (b : Buf) (i : ℕ) : Prop := 2 * b.sz ≤ maxBufLen ∧ env.reallocOk i

instance (env : Env) (b : Buf) (i : ℕ) : Decidable (Grows env b i) :=
  inferInstanceAs (Decidable (_ ∧ _))

/-- A size that was doubled from 4 KB on can be doubled again, or is the largest one. -/
theorem two_mul_dvd_of_dvd {sz : ℕ} (hsz : sz ∣ maxBufLen) (hne : sz ≠ maxBufLen) :
    2 * sz ∣ maxBufLen := by
  have hmax : maxBufLen = 2 ^ 30 := rfl
  rw [hmax] at hsz hne ⊢
  obtain ⟨a, ha, rfl⟩ := (Nat.dvd_prime_pow Nat.prime_two).mp hsz
  have hlt : a < 30 := by
    by_contra hge
    exact hne (by rw [show a = 30 by omega])
  rw [← pow_succ']
  exact Nat.pow_dvd_pow 2 hlt

theorem Grows.dvd {b : Buf} {i : ℕ} (h : Grows env b i) (hpos : 0 < b.sz)
    (hsz : b.sz ∣ maxBufLen) : 2 * b.sz ∣ maxBufLen := by
  have hle := h.1
  exact two_mul_dvd_of_dvd hsz (by omega)

theorem realloc_ok {p : Ptr} {size : ℕ} (hp : p ≠ .freed)
    (h : size < 2 ^ 63 ∧ env.reallocOk w.reallocs) :
    realloc env p size w = .ok .live w.reallocated := by
  unfold realloc
  rw [if_neg hp, if_pos h]
  rfl

theorem realloc_failed {p : Ptr} {size : ℕ} (hp : p ≠ .freed)
    (h : ¬ (size < 2 ^ 63 ∧ env.reallocOk w.reallocs)) :
    realloc env p size w = .ok .null w.reallocated := by
  unfold realloc
  rw [if_neg hp, if_neg h]
  rfl

/-- The size doubles up to `MAX_BUF_LEN`, where an allocation succeeds. -/
theorem growBuf_run {b : Buf} (hp : b.ptr ≠ .freed) (hsz : b.sz ∣ maxBufLen)
    (env : Env) (w : World) :
    ∃ r, growBuf env b w = .ok r w.reallocated ∧
      (r.2 = -1 ∧ ¬ Grows env b w.reallocs ∨
        r = (.live, ((2 * b.sz : ℕ) : ℤ)) ∧ Grows env b w.reallocs) := by
  have hmax : maxBufLen = 2 ^ 30 := rfl
  have hle : b.sz ≤ maxBufLen := Nat.le_of_dvd (by omega) hsz
  unfold growBuf
  rw [int32_natCast (by omega)]
  by_cases htop : b.sz = maxBufLen
  · -- the doubled size leaves `int`, and as a `size_t` no allocation serves it
    have hwrap : int32 ((b.sz : ℤ) * 2) = -2 ^ 31 := by
      rw [htop, hmax]
      decide
    have hbig : ¬ (uint64 (-2 ^ 31) < 2 ^ 63 ∧ env.reallocOk w.reallocs) := by
      rintro ⟨h, -⟩
      revert h
      decide
    have hgrows : ¬ Grows env b w.reallocs := by
      rintro ⟨hle, -⟩
      omega
    simp only [hwrap]
    rw [if_neg (by omega)]
    refine ⟨(b.ptr, -1), ?_, .inl ⟨rfl, hgrows⟩⟩
    exact bind_of_ok (realloc_failed hp hbig)
  · have hdouble : int32 ((b.sz : ℤ) * 2) = ((2 * b.sz : ℕ) : ℤ) := by
      rw [show (b.sz : ℤ) * 2 = ((2 * b.sz : ℕ) : ℤ) by push_cast; ring]
      exact int32_natCast (by omega)
    have htwice : 2 * b.sz ≤ maxBufLen :=
      Nat.le_of_dvd (by omega) (two_mul_dvd_of_dvd hsz htop)
    simp only [hdouble]
    rw [if_neg (by omega)]
    by_cases hok : env.reallocOk w.reallocs
    · refine ⟨(.live, _), ?_, .inr ⟨rfl, htwice, hok⟩⟩
      have hsize : uint64 ((2 * b.sz : ℕ) : ℤ) < 2 ^ 63 := by
        rw [uint64_natCast (by omega)]
        omega
      exact bind_of_ok (realloc_ok hp ⟨hsize, hok⟩)
    · refine ⟨(b.ptr, -1), ?_, .inl ⟨rfl, fun h => hok h.2⟩⟩
      exact bind_of_ok (realloc_failed hp fun h => hok h.2)

end CrayTests.PrintUtils
