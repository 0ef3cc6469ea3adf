import CrayTests.DoublingBuffer
import CrayTests.PrintConversion

/-!
# Write errors

A call that meets a failing `write` ends exactly where no write of the `ct_fini_info` that follows
fails: a second failure releases the structure once more.
-/

namespace CrayTests.PrintUtils

open CInteger DoublingBuffer StateContract

/-- The call returns or the process is ended by `abort`. -/
def Ends {α : Type} : EStateM.Result Stop World α → Prop
  | .ok _ _ => True
  | .error e _ => e = .abort

/-- If the `i`-th `write`, of `n` bytes, fails, the writes of the `ct_fini_info` that follows do
not. -/
def Recovers (env : Env) (info : Info) (i n : ℕ) : Prop :=
  env.WriteFails i n → FiniWrites env info (i + 1)

/-- The writes of `ct_print_data`, of which the first is the `i`-th of all. -/
def PrintRecovers (env : Env) (info : Info) (i : ℕ) : Prop :=
  (info.tbuf.cnt ≠ 0 → Recovers env info i info.tbuf.cnt) ∧
    ((info.tbuf.cnt ≠ 0 → ¬ env.WriteFails i info.tbuf.cnt) → info.csvFd ≠ -1 →
      info.cbuf.cnt ≠ 0 →
        Recovers env info (i + if info.tbuf.cnt ≠ 0 then 1 else 0) info.cbuf.cnt)

def Env.reallocsFrom (env : Env) (r j : ℕ) : Bool := env.reallocOk (r + j)

/-- The csv loop takes `n` bytes of csv text before it looks at the last byte of the line. Whenever
`cbuf` is full by then and cannot grow, the call recovers from the `write` that flushes it. Writes
and allocations are counted from `i` and `r` on. -/
def FlushesRecover (env : Env) (info : Info) (n i r : ℕ) : Prop :=
  let sz := info.cbuf.sz
  let size := sizeAt maxBufLen (env.reallocsFrom r) sz
  let number k := i + emptied maxBufLen (env.reallocsFrom r) sz k
  ∀ k, roomUntil maxBufLen (env.reallocsFrom r) sz k ≤ info.cbuf.cnt + n →
    ¬ GrowsAt maxBufLen (env.reallocsFrom r) sz k →
    (∀ j < k, ¬ GrowsAt maxBufLen (env.reallocsFrom r) sz j →
      ¬ env.WriteFails (number j) (size j)) →
    Recovers env { info with cbuf := { info.cbuf with cnt := size k } } (number k) (size k)

variable {α : Type} {env : Env} {depth : ℕ} {info : Info} {b : Buf} {fd : ℤ} {w : World}

theorem Info.Whole.setCbuf (h : info.Whole) {c : Buf} (hc : c.ptr = .live) :
    Info.Whole { info with cbuf := c } :=
  ⟨h.self, h.testName, h.csvPath, h.csvHeader, h.tbuf_empty, fun hne => absurd hc hne⟩

theorem Info.Whole.setTbuf (h : info.Whole) (hb : b.ptr = .live) :
    Info.Whole { info with tbuf := b } :=
  ⟨h.self, h.testName, h.csvPath, h.csvHeader, fun hne => absurd hb hne, h.cbuf_empty⟩

/-- `ct_fini_info` ends exactly where its writes succeed. -/
theorem ends_ctFiniInfo (h : info.Whole) :
    Ends (ctFiniInfo env (depth + 2) info w) ↔ FiniWrites env info w.writes := by
  constructor
  · intro hends
    by_contra hwrites
    obtain ⟨w', hfini⟩ := ctFiniInfo_failed h hwrites depth
    rw [hfini] at hends
    exact Stop.noConfusion hends
  · intro hwrites
    obtain ⟨final, w', hfini⟩ := ctFiniInfo_returns h hwrites (depth + 1)
    rw [hfini]
    trivial

theorem fini_abort (env : Env) (h : info.Whole) (depth : ℕ) (w : World) :
    ∃ e m, (do
      let _ ← ctFiniInfo env (depth + 2) info
      throw .abort : Run α) w = .error e m ∧ (e = .abort ↔ FiniWrites env info w.writes) := by
  by_cases hwrites : FiniWrites env info w.writes
  · obtain ⟨final, m, hfini⟩ := ctFiniInfo_returns h hwrites (depth + 1)
    rw [bind_of_ok hfini]
    exact ⟨.abort, m, rfl, iff_of_true rfl hwrites⟩
  · obtain ⟨m, hfini⟩ := ctFiniInfo_failed h hwrites depth
    rw [bind_of_error hfini]
    exact ⟨.undefined, m, rfl, iff_of_false Stop.noConfusion hwrites⟩

/-- A `write` and what follows it. -/
theorem ends_writeOut (h : info.Whole) (hp : b.ptr = .live) (f : Unit → Run α) :
    Ends ((writeOut env (ctFiniInfo env (depth + 2)) fd b info >>= f) w) ↔
      Recovers env info w.writes b.cnt ∧
        (¬ env.WriteFails w.writes b.cnt → Ends (f () (w.tried env fd b))) := by
  by_cases hfail : env.WriteFails w.writes b.cnt
  · obtain ⟨e, m, hfini, hends⟩ := fini_abort (α := Unit) env h depth (w.tried env fd b)
    rw [bind_congr_of_eq (writeOut_of_fails hp hfail), bind_of_error hfini]
    constructor
    · intro he
      exact ⟨fun _ => hends.mp he, fun hne => absurd hfail hne⟩
    · intro hr
      exact hends.mpr (hr.1 hfail)
  · rw [bind_of_ok (writeOut_of_not_fails hp hfail)]
    exact ⟨fun hf => ⟨fun hfail' => absurd hfail' hfail, fun _ => hf⟩, fun hr => hr.2 hfail⟩

theorem live_of_cnt (hempty : b.ptr ≠ .live → b.cnt = 0) (hcnt : b.cnt ≠ 0) : b.ptr = .live := by
  by_contra hp
  exact hcnt (hempty hp)

theorem ends_printCsv (h : info.Whole) :
    Ends (printCsv env (depth + 2) info w) ↔
      (info.csvFd ≠ -1 → info.cbuf.cnt ≠ 0 → Recovers env info w.writes info.cbuf.cnt) := by
  unfold printCsv
  by_cases hc : info.csvFd ≠ -1 ∧ info.cbuf.cnt ≠ 0
  · rw [if_pos hc, ← bind_pure (writeOut env _ _ _ _)]
    refine (ends_writeOut h (live_of_cnt h.cbuf_empty hc.2) pure).trans ?_
    exact ⟨fun hr _ _ => hr.1, fun hr => ⟨hr hc.1 hc.2, fun _ => trivial⟩⟩
  · rw [if_neg hc]
    exact iff_of_true trivial fun hfd hcnt => absurd ⟨hfd, hcnt⟩ hc

/-- `ct_print_data` ends exactly where it recovers from its writes. -/
theorem ends_ctPrintData (h : info.Whole) :
    Ends (ctPrintData env (depth + 2) info w) ↔ PrintRecovers env info w.writes := by
  have hself : deref info.self w = .ok () w := by
    rw [h.self]
    rfl
  unfold ctPrintData printTable PrintRecovers
  rw [bind_of_ok hself]
  by_cases hcnt : info.tbuf.cnt ≠ 0
  · simp only [if_pos hcnt]
    rw [ends_writeOut h (live_of_cnt h.tbuf_empty hcnt), ends_printCsv h]
    exact ⟨fun hr => ⟨fun _ => hr.1, fun hok => hr.2 (hok hcnt)⟩,
      fun hr => ⟨hr.1 hcnt, fun hok => hr.2 fun _ => hok⟩⟩
  · simp only [if_neg hcnt]
    rw [pure_bind, ends_printCsv h]
    exact ⟨fun hr => ⟨fun hne => absurd hne hcnt, fun _ => hr⟩,
      fun hr => hr.2 fun hne => absurd hne hcnt⟩

theorem reallocsFrom_succ (env : Env) (r : ℕ) :
    (fun j => env.reallocsFrom r (j + 1)) = env.reallocsFrom (r + 1) := by
  funext j
  unfold Env.reallocsFrom
  rw [Nat.add_assoc, Nat.add_comm 1 j]

theorem flushesRecover_of_lt {n i r : ℕ} (h : info.cbuf.cnt + n < info.cbuf.sz) :
    FlushesRecover env info n i r := by
  intro k hk
  have := (le_roomUntil (env.reallocsFrom r) maxBufLen info.cbuf.sz k).trans hk
  omega

/-- Only counts and sizes matter. -/
theorem flushesRecover_congr {info' : Info} {n i r : ℕ} (htbuf : info'.tbuf.cnt = info.tbuf.cnt)
    (hsz : info'.cbuf.sz = info.cbuf.sz) (hcnt : info'.cbuf.cnt = info.cbuf.cnt) :
    FlushesRecover env info' n i r ↔ FlushesRecover env info n i r := by
  unfold FlushesRecover Recovers FiniWrites
  simp only [htbuf, hsz, hcnt]

/-- A full `cbuf` that grows goes on as one of twice the size. -/
theorem flushesRecover_grown {n i r : ℕ} (hpos : 0 < info.cbuf.sz)
    (hfull : info.cbuf.sz ≤ info.cbuf.cnt + n) (hgrows : Grows env info.cbuf r) :
    FlushesRecover env info n i r ↔ FlushesRecover env
      { info with cbuf := { info.cbuf with sz := 2 * info.cbuf.sz, cnt := info.cbuf.sz } }
      (info.cbuf.cnt + n - info.cbuf.sz) i (r + 1) := by
  obtain ⟨hsz, hok⟩ := hgrows
  have hok : env.reallocsFrom r 0 := hok
  have hfirst : GrowsAt maxBufLen (env.reallocsFrom r) info.cbuf.sz 0 :=
    (growsAt_zero _ (by omega)).mpr ⟨by omega, hok⟩
  unfold FlushesRecover
  simp only [← reallocsFrom_succ, Nat.add_sub_cancel' hfull, ← roomUntil_succ_of_grown hsz hok,
    ← sizeAt_succ_of_grown hok, ← growsAt_succ_of_grown hok, ← emptied_succ_of_grown hsz hpos hok]
  constructor
  · intro h k hroom hflush hbefore
    refine h (k + 1) hroom hflush fun j hj hne => ?_
    cases j with
    | zero => exact absurd hfirst hne
    | succ j => exact hbefore j (by omega) hne
  · intro h k hroom hflush hbefore
    cases k with
    | zero => exact absurd hfirst hflush
    | succ k => exact h k hroom hflush fun j hj => hbefore (j + 1) (by omega)

/-- A full `cbuf` that does not grow is flushed and goes on empty. -/
theorem flushesRecover_emptied {n i r : ℕ} (hsz : info.cbuf.sz ∣ maxBufLen)
    (hfull : info.cbuf.sz ≤ info.cbuf.cnt + n) (hgrows : ¬ Grows env info.cbuf r) :
    FlushesRecover env info n i r ↔
      Recovers env { info with cbuf := { info.cbuf with cnt := info.cbuf.sz } } i info.cbuf.sz ∧
        (¬ env.WriteFails i info.cbuf.sz → FlushesRecover env
          { info with cbuf := { info.cbuf with cnt := 0 } }
          (info.cbuf.cnt + n - info.cbuf.sz) (i + 1) (r + 1)) := by
  have hle : info.cbuf.sz ≤ maxBufLen := Nat.le_of_dvd (by decide) hsz
  have hne : ¬ (info.cbuf.sz < maxBufLen ∧ env.reallocsFrom r 0) := by
    rintro ⟨hlt, hok⟩
    exact hgrows ⟨Nat.le_of_dvd (by decide) (two_mul_dvd_of_dvd hsz hlt.ne), hok⟩
  have hfirst : ¬ GrowsAt maxBufLen (env.reallocsFrom r) info.cbuf.sz 0 :=
    fun h => hne ((growsAt_zero _ hle).mp h)
  have hsize := sizeAt_zero (env.reallocsFrom r) hle
  have hroom := roomUntil_succ_of_emptied hle hne
  have hnumber : i + emptied maxBufLen (env.reallocsFrom r) info.cbuf.sz 0 = i := rfl
  have hnext (k : ℕ) : i + emptied maxBufLen (env.reallocsFrom r) info.cbuf.sz (k + 1) =
      i + 1 + emptied maxBufLen (fun j => env.reallocsFrom r (j + 1)) info.cbuf.sz k := by
    rw [emptied_succ_of_emptied hle hne]
    omega
  unfold FlushesRecover
  simp only [← reallocsFrom_succ, ← sizeAt_succ_of_emptied hle hne,
    ← growsAt_succ_of_emptied hle hne, ← hnext, Nat.zero_add]
  constructor
  · intro h
    have hrecovers := h 0 hfull hfirst fun j hj => absurd hj (Nat.not_lt_zero j)
    rw [hsize, hnumber] at hrecovers
    refine ⟨hrecovers, fun hwrite k hk hflush hbefore => ?_⟩
    refine h (k + 1) (by rw [hroom]; omega) hflush fun j hj hj' => ?_
    cases j with
    | zero => rwa [hsize, hnumber]
    | succ j => exact hbefore j (by omega) hj'
  · rintro ⟨hrecovers, h⟩ k hk hflush hbefore
    cases k with
    | zero => rwa [hsize, hnumber]
    | succ k =>
      have hwrite := hbefore 0 (Nat.succ_pos k) hfirst
      rw [hsize, hnumber] at hwrite
      rw [hroom] at hk
      exact h hwrite k (by omega) hflush fun j hj => hbefore (j + 1) (by omega)

/-- How many bytes of csv text the loop takes from `t` on before it looks at the last byte. -/
def csvAhead (tbuf : Buf) (t : ℕ) : ℕ := (csvText tbuf (tbuf.cnt - t - 1) t).length

/-- A round that leaves text behind has filled `cbuf`; otherwise there was room up to the last
byte. -/
theorem Filled.ahead {t t' : ℕ} {c : Buf}
    (hf : Filled info.tbuf info.cbuf (info.tbuf.cnt - t) t c t') (ht : t < info.tbuf.cnt) :
    (t' = info.tbuf.cnt → info.cbuf.cnt + csvAhead info.tbuf t < info.cbuf.sz) ∧
      (t' ≠ info.tbuf.cnt → c.cnt = info.cbuf.sz ∧
        info.cbuf.cnt + csvAhead info.tbuf t = info.cbuf.sz + csvAhead info.tbuf t') := by
  have hle := hf.le_end
  have hmono := hf.le
  constructor
  · intro hend
    have hroom := hf.room (info.tbuf.cnt - 1) (by omega) (by omega)
    rwa [show info.tbuf.cnt - 1 - t = info.tbuf.cnt - t - 1 by omega] at hroom
  · intro hend
    have hfull := (hf.full (by omega)).trans hf.sz
    have htext := congrArg List.length hf.text
    rw [length_contents, List.length_append, length_contents] at htext
    refine ⟨hfull, ?_⟩
    unfold csvAhead
    rw [show info.tbuf.cnt - t - 1 = (t' - t) + (info.tbuf.cnt - t' - 1) by omega, csvText_add,
      List.length_append, show t + (t' - t) = t' by omega]
    omega

/-- The csv loop ends exactly where it recovers from every flush. -/
theorem ends_csvLoop (h : info.Whole) (hp : info.cbuf.ptr = .live) (hok : info.cbuf.Ok) {t : ℕ}
    (ht : t < info.tbuf.cnt) {fuel : ℕ} (hfuel : csvFuel t info ≤ fuel) :
    Ends (csvLoop env (depth + 2) fuel t info w) ↔
      FlushesRecover env info (csvAhead info.tbuf t) w.writes w.reallocs := by
  induction fuel generalizing t info w with
  | zero =>
    have := csvFuel_pos t info
    omega
  | succ fuel ih =>
    rw [csvLoop_succ, if_neg ht.ne]
    obtain ⟨c, t', hf, hc, hcok, ⟨hend, hr, hround⟩ | ⟨hend, hgrows, hr, hround⟩ |
        ⟨hend, hgrows, hr, hround⟩⟩ := csvRound_cases hp hok ht env (depth + 2) w
    · have hpos := csvFuel_pos t' { info with cbuf := c }
      have hlast := hr.fuel
      obtain ⟨fuel, rfl⟩ : ∃ m, fuel = m + 1 := ⟨fuel - 1, by omega⟩
      rw [bind_of_ok hround, csvLoop_succ, if_pos hend]
      exact iff_of_true trivial (flushesRecover_of_lt ((hf.ahead ht).1 hend))
    · have hlt : t' < info.tbuf.cnt := Nat.lt_of_le_of_ne hr.le_end hend
      have hnext := ih (w := w.reallocated) (h.setCbuf hr.ptr) hr.ptr hr.ok hlt
        (Nat.le_of_lt_succ (hr.fuel.trans_le hfuel))
      obtain ⟨hfull, hahead⟩ := (hf.ahead ht).2 hend
      have hcbuf : Grows env info.cbuf w.reallocs := by
        rw [Grows, hf.sz] at hgrows
        exact hgrows
      rw [bind_of_ok hround, hnext, flushesRecover_grown hok.sz_pos (by omega) hcbuf, hahead,
        Nat.add_sub_cancel_left]
      exact flushesRecover_congr rfl (congrArg (2 * ·) hf.sz) hfull
    · have hlt : t' < info.tbuf.cnt := Nat.lt_of_le_of_ne hr.le_end hend
      obtain ⟨hfull, hahead⟩ := (hf.ahead ht).2 hend
      have hcbuf : ¬ Grows env info.cbuf w.reallocs := by
        rw [Grows, hf.sz] at hgrows
        exact hgrows
      have hempty : (Info.cbuf { info with cbuf := { c with cnt := 0 } }).ptr = .live := hc
      have hnext := ih (w := w.reallocated.tried env info.csvFd c) (h.setCbuf hempty) hempty hr.ok
        hlt (Nat.le_of_lt_succ (hr.fuel.trans_le hfuel))
      have hrecovers : Recovers env { info with cbuf := c } w.writes c.cnt ↔
          Recovers env { info with cbuf := { info.cbuf with cnt := info.cbuf.sz } } w.writes
            info.cbuf.sz := by
        unfold Recovers FiniWrites
        simp only [hfull]
      have hwrite : env.WriteFails w.writes c.cnt ↔ env.WriteFails w.writes info.cbuf.sz := by
        rw [hfull]
      rw [bind_congr_of_eq hround, bind_assoc, ends_writeOut (h.setCbuf hc) hc,
        flushesRecover_emptied hok.sz_dvd (by omega) hcbuf, hahead, Nat.add_sub_cancel_left]
      refine and_congr hrecovers (imp_congr (not_congr hwrite) (hnext.trans ?_))
      exact flushesRecover_congr rfl hf.sz rfl

end CrayTests.PrintUtils
