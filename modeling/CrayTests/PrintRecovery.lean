import CrayTests.PrintErrors

/-!
# Recovering from write errors

Whatever the writes do, a call of the print utilities returns or aborts exactly where the writes
of `ct_fini_info` succeed whenever it is called. A line also has to be stored within `tbuf`, and
its csv form in a `cbuf` that is there.
-/

namespace CrayTests.PrintUtils

open CInteger StateContract

def CannotGrow (env : Env) (info : Info) (line : List Byte) (w : World) : Prop :=
  info.tbuf.cnt + line.length = info.tbuf.sz ∧ ¬ Grows env info.tbuf w.reallocs

instance (env : Env) (info : Info) (line : List Byte) (w : World) :
    Decidable (CannotGrow env info line w) := inferInstanceAs (Decidable (_ ∧ _))

/-- Then `tbuf` is flushed, or the call gives up. -/
def RoomRecovers (env : Env) (info : Info) (line : List Byte) (w : World) : Prop :=
  CannotGrow env info line w →
    (info.tbuf.cnt = 0 → FiniWrites env info w.writes) ∧
      (info.tbuf.cnt ≠ 0 → Recovers env info w.writes info.tbuf.cnt)

def HasRoom (env : Env) (info : Info) (line : List Byte) (w : World) : Prop :=
  CannotGrow env info line w → info.tbuf.cnt ≠ 0 ∧ ¬ env.WriteFails w.writes info.tbuf.cnt

def countWith (env : Env) (info : Info) (line : List Byte) (w : World) : ℕ :=
  (if CannotGrow env info line w then 0 else info.tbuf.cnt) + line.length

/-- The length of the csv form of a line up to its last byte. A line longer than the room in `tbuf`
is cut off there by a null, and followed by what lies behind `tbuf`. -/
def csvLength (tbuf : Buf) (line : List Byte) : ℕ :=
  let room := tbuf.sz - tbuf.cnt
  if line.length ≤ room then (csvLine line).length - 1
  else (csvLine (line.take (room - 1))).length + 1 +
    Nat.count (fun j => ¬ blank (tbuf.data (tbuf.sz + j))) (line.length - room - 1)

/-- A call of `ct_add_line` stores within `tbuf` and, where there is csv text, in a `cbuf` that is
there, and it recovers from a failing flush of either buffer. -/
structure AddRecovers (env : Env) (info : Info) (line : List Byte) (w : World) : Prop where
  tbuf_live : info.tbuf.ptr = .live
  tbuf_room : info.tbuf.cnt < info.tbuf.sz
  room : RoomRecovers env info line w
  csv : HasRoom env info line w → info.csvFd ≠ -1 → line ≠ [] →
    info.cbuf.ptr = .live ∧
      FlushesRecover env
        { info with tbuf := { info.tbuf with cnt := countWith env info line w } }
        (csvLength info.tbuf line)
        (w.writes + if CannotGrow env info line w then 1 else 0)
        (w.reallocs + if info.tbuf.cnt + line.length = info.tbuf.sz then 1 else 0)

structure Info.Between (info : Info) : Prop extends Info.Whole info where
  tbuf_not_freed : info.tbuf.ptr ≠ .freed
  tbuf_sz_pos : 0 < info.tbuf.sz
  tbuf_sz_dvd : info.tbuf.sz ∣ maxBufLen
  tbuf_cnt_ne : info.tbuf.cnt ≠ info.tbuf.sz
  tbuf_cnt_le : info.tbuf.cnt ≤ 2 * maxBufLen
  cbuf : info.cbuf.Ok
  csv_closed : info.csvFd = -1 → info.cbuf.cnt = 0

variable {env : Env} {depth : ℕ} {info info' : Info} {line : List Byte} {b : Buf} {w w' : World}

theorem Info.Between.tbuf_sz_le (h : info.Between) : info.tbuf.sz ≤ maxBufLen :=
  Nat.le_of_dvd (by decide) h.tbuf_sz_dvd

theorem Info.Between.tbuf_ok (h : info.Between) (hroom : info.tbuf.cnt < info.tbuf.sz) :
    info.tbuf.Ok :=
  ⟨h.tbuf_not_freed, hroom.le, h.tbuf_sz_pos, h.tbuf_sz_dvd⟩

theorem csvChar_null {i : ℕ} (h : b.data i = 0) : csvChar b i = [0] := by
  unfold csvChar
  rw [h]
  rfl

theorem length_csvChar_before_null {i : ℕ} (hsz : i + 1 < b.sz) (h : b.data (i + 1) = 0) :
    (csvChar b i).length = 1 := by
  unfold csvChar
  rw [h]
  split_ifs with hblank hcomma
  · rfl
  · exact absurd ⟨hsz, by decide⟩ hcomma
  · rfl

theorem csvText_succ_last (tbuf : Buf) (n t : ℕ) :
    csvText tbuf (n + 1) t = csvText tbuf n t ++ csvChar tbuf (t + n) := by
  rw [csvText_add]
  congr 1
  exact List.append_nil _

/-- Behind the buffer blanks are dropped, as no byte after them is looked at. -/
theorem length_csvText_behind (tbuf : Buf) (n : ℕ) :
    (csvText tbuf n tbuf.sz).length = Nat.count (fun j => ¬ blank (tbuf.data (tbuf.sz + j))) n := by
  induction n with
  | zero => rfl
  | succ n ih =>
    rw [csvText_succ_last, List.length_append, ih, Nat.count_succ]
    congr 1
    unfold csvChar
    rw [if_neg (show ¬ (tbuf.sz + n + 1 < tbuf.sz ∧ _) from fun h => by omega)]
    by_cases hblank : blank (tbuf.data (tbuf.sz + n))
    · rw [if_neg (not_not_intro hblank), if_pos (by simpa [blank] using hblank)]
      rfl
    · rw [if_pos hblank, if_neg (by simpa [blank] using hblank)]
      rfl

theorem printed_data_behind (hcnt : b.cnt < b.sz) (j : ℕ) :
    (b.printed line).data (b.sz + j) = b.data (b.sz + j) := by
  change store _ _ _ _ = _
  unfold store
  rw [if_neg (by omega), List.getElem?_eq_none]
  · rfl
  · simp only [List.length_append, List.length_take, List.length_singleton]
    omega

theorem printed_data_cut {i : ℕ}
    (hi : i < (line.take (b.sz - b.cnt - 1)).length) :
    (b.printed line).data (b.cnt + i) = (line.take (b.sz - b.cnt - 1))[i] := by
  change store _ _ _ _ = _
  rw [store_add _ (by rw [List.length_append]; omega)]
  exact List.getElem_append_left hi

def Info.counted (info : Info) (b : Buf) (line : List Byte) : Info :=
  { info with tbuf := { b.printed line with cnt := b.cnt + line.length } }

theorem csvAhead_fits (hfits : b.cnt + line.length < b.sz) (hline : line ≠ []) :
    csvAhead (info.counted b line).tbuf b.cnt = (csvLine line).length - 1 := by
  have hpos := List.length_pos_of_ne_nil hline
  have hend := printed_data_end hfits
  have htext : csvText (info.counted b line).tbuf line.length b.cnt = csvLine line :=
    csvText_eq_csvLine (fun i hi => printed_data_line hfits hi) hend hfits
  have hlast : (csvChar (info.counted b line).tbuf (b.cnt + (line.length - 1))).length = 1 := by
    apply length_csvChar_before_null
    · change b.cnt + (line.length - 1) + 1 < b.sz
      omega
    · rw [show b.cnt + (line.length - 1) + 1 = b.cnt + line.length by omega]
      exact hend
  have hlen := csvText_succ_last (info.counted b line).tbuf (line.length - 1) b.cnt
  rw [Nat.sub_add_cancel hpos, htext] at hlen
  unfold csvAhead
  rw [show (info.counted b line).tbuf.cnt - b.cnt - 1 = line.length - 1 from by
    change b.cnt + line.length - b.cnt - 1 = _
    omega, hlen, List.length_append, hlast, Nat.add_sub_cancel]

theorem csvAhead_cut (hcnt : b.cnt < b.sz) (hlong : b.sz - b.cnt < line.length) :
    csvAhead (info.counted b line).tbuf b.cnt =
      (csvLine (line.take (b.sz - b.cnt - 1))).length + 1 +
        Nat.count (fun j => ¬ blank (b.data (b.sz + j))) (line.length - (b.sz - b.cnt) - 1) := by
  have hlen : (line.take (b.sz - b.cnt - 1)).length = b.sz - b.cnt - 1 := by
    rw [List.length_take]
    omega
  have hnull : (info.counted b line).tbuf.data (b.sz - 1) = 0 := printed_data_last hcnt hlong.le
  have hstored : csvText (info.counted b line).tbuf (b.sz - b.cnt - 1) b.cnt =
      csvLine (line.take (b.sz - b.cnt - 1)) := by
    have htext : csvText (info.counted b line).tbuf (line.take (b.sz - b.cnt - 1)).length b.cnt =
        csvLine (line.take (b.sz - b.cnt - 1)) := by
      apply csvText_eq_csvLine
      · exact fun i hi => printed_data_cut hi
      · rw [hlen, show b.cnt + (b.sz - b.cnt - 1) = b.sz - 1 by omega]
        exact hnull
      · rw [hlen]
        change _ < b.sz
        omega
    rwa [hlen] at htext
  have hbehind := length_csvText_behind (info.counted b line).tbuf (line.length - (b.sz - b.cnt) - 1)
  unfold csvAhead
  rw [show (info.counted b line).tbuf.cnt - b.cnt - 1 =
      (b.sz - b.cnt - 1 + 1) + (line.length - (b.sz - b.cnt) - 1) from by
    change b.cnt + line.length - b.cnt - 1 = _
    omega, csvText_add, csvText_succ_last, hstored, List.length_append, List.length_append,
    show b.cnt + (b.sz - b.cnt - 1) = b.sz - 1 by omega, csvChar_null hnull,
    show b.cnt + (b.sz - b.cnt - 1 + 1) = (info.counted b line).tbuf.sz from by
      change _ = b.sz
      omega, hbehind]
  simp only [show (info.counted b line).tbuf.sz = b.sz from rfl]
  congr 2
  funext j
  rw [show (info.counted b line).tbuf.data (b.sz + j) = b.data (b.sz + j) from
    printed_data_behind hcnt j]

/-- What the csv loop takes before the last byte of a line that was stored in a roomy buffer. -/
theorem csvAhead_counted (hcnt : b.cnt < b.sz) (hne : b.cnt + line.length ≠ b.sz)
    (hline : line ≠ []) : csvAhead (info.counted b line).tbuf b.cnt = csvLength b line := by
  unfold csvLength
  by_cases hle : line.length ≤ b.sz - b.cnt
  · simp only [if_pos hle]
    exact csvAhead_fits (by omega) hline
  · simp only [if_neg hle]
    exact csvAhead_cut hcnt (by omega)

/-- A `cbuf` that is not there cannot take what the line has for it. -/
theorem csvText_counted_ne_nil (hcnt : b.cnt < b.sz) (hline : line ≠ []) :
    csvText (info.counted b line).tbuf line.length b.cnt ≠ [] := by
  intro hnil
  have hpos := List.length_pos_of_ne_nil hline
  rcases Nat.lt_or_ge (b.cnt + line.length) b.sz with hlt | hge
  · have hchar : csvChar (info.counted b line).tbuf (b.cnt + (line.length - 1)) = [] :=
      csvChar_eq_nil_of_mem hnil (Nat.le_add_right _ _) (by omega)
    have hlast : (csvChar (info.counted b line).tbuf (b.cnt + (line.length - 1))).length = 1 := by
      apply length_csvChar_before_null
      · change b.cnt + (line.length - 1) + 1 < b.sz
        omega
      · rw [show b.cnt + (line.length - 1) + 1 = b.cnt + line.length by omega]
        exact printed_data_end hlt
    simp [hchar] at hlast
  · have hchar : csvChar (info.counted b line).tbuf (b.sz - 1) = [] :=
      csvChar_eq_nil_of_mem hnil (by omega) (by omega)
    have hnull : (info.counted b line).tbuf.data (b.sz - 1) = 0 :=
      printed_data_last hcnt (by omega)
    simp [csvChar_null hnull] at hchar

theorem addText_counted (env : Env) (depth : ℕ) (info : Info) (b : Buf) (line : List Byte) :
    addText env depth line.length { info with tbuf := b.printed line } =
      if info.csvFd ≠ -1 then
        csvLoop env depth (line.length + 2) b.cnt (info.counted b line)
      else
        pure (info.counted b line) := rfl

theorem ends_addText (h : info.Whole) (hcbuf : info.cbuf.Ok) (hb : b.ptr = .live)
    (hroom : b.cnt < b.sz) (hne : b.cnt + line.length ≠ b.sz) :
    Ends (addText env (depth + 2) line.length { info with tbuf := b.printed line } w) ↔
      (info.csvFd ≠ -1 → line ≠ [] → info.cbuf.ptr = .live ∧
        FlushesRecover env (info.counted b line) (csvLength b line) w.writes w.reallocs) := by
  have hwhole : (info.counted b line).Whole := h.setTbuf hb
  rw [addText_counted]
  by_cases hfd : info.csvFd = -1
  · rw [if_neg (not_not_intro hfd)]
    exact iff_of_true trivial fun hne => absurd hfd hne
  rw [if_pos hfd]
  by_cases hline : line = []
  · subst hline
    refine iff_of_true ?_ fun _ hne => absurd rfl hne
    rw [csvLoop_succ, if_pos (show b.cnt = (info.counted b []).tbuf.cnt from rfl)]
    trivial
  have hpos := List.length_pos_of_ne_nil hline
  by_cases hc : info.cbuf.ptr = .live
  · have hfuel : csvFuel b.cnt (info.counted b line) ≤ line.length + 2 :=
      (csvFuel_le _ _).trans (by simp only [Info.counted]; omega)
    rw [ends_csvLoop hwhole hc hcbuf (show b.cnt < b.cnt + line.length by omega) hfuel,
      csvAhead_counted hroom hne hline]
    exact ⟨fun hr _ _ => ⟨hc, hr⟩, fun hr => (hr hfd hline).2⟩
  · have hcroom : info.cbuf.cnt < info.cbuf.sz := by
      rw [h.cbuf_empty hc]
      exact hcbuf.sz_pos
    have hcounted : (info.counted b line).cbuf.ptr ≠ .live := hc
    have hloop : csvLoop env (depth + 2) (line.length + 2) b.cnt (info.counted b line) w = _ :=
      csvLoop_not_live hcounted hcroom (Nat.le_add_right b.cnt line.length) line.length w
    rw [if_neg (by
      change csvText _ (b.cnt + line.length - b.cnt) b.cnt ≠ []
      rw [Nat.add_sub_cancel_left]
      exact csvText_counted_ne_nil hroom hline)] at hloop
    refine iff_of_false ?_ fun hr => hc (hr hfd hline).1
    intro hends
    rw [hloop] at hends
    exact Stop.noConfusion hends

/-- A buffer that a line was just printed to, with room for it. -/
structure Roomy (b : Buf) (line : List Byte) : Prop extends Buf.Ok b where
  ptr : b.ptr = .live
  room : b.cnt < b.sz
  not_exhausted : b.cnt + line.length ≠ b.sz

structure RoomMade (env : Env) (depth : ℕ) (info : Info) (line : List Byte) (w : World) (b : Buf)
    (m : World) : Prop extends Roomy b line where
  call : makeRoom env depth line 2 { info with tbuf := info.tbuf.printed line } line.length w =
    .ok ({ info with tbuf := b.printed line }, (line.length : ℤ)) m
  count : b.cnt + line.length = countWith env info line w
  length : csvLength b line = csvLength info.tbuf line
  writes : m.writes = w.writes + if CannotGrow env info line w then 1 else 0
  reallocs : m.reallocs =
    w.reallocs + if info.tbuf.cnt + line.length = info.tbuf.sz then 1 else 0

/-- The loop on an exhausted `tbuf` stops, by `abort` exactly where the call recovers. -/
def GivesUp (env : Env) (depth : ℕ) (info : Info) (line : List Byte) (w : World) : Prop :=
  ∃ e m, makeRoom env depth line 2 { info with tbuf := info.tbuf.printed line } line.length w =
    .error e m ∧ (e = .abort ↔ RoomRecovers env info line w)

theorem growOrFlush_printed (hok : info.tbuf.Ok) (env : Env) (depth : ℕ) (line : List Byte)
    (w : World) :
    growOrFlush env depth { info with tbuf := info.tbuf.printed line } w =
      (if Grows env info.tbuf w.reallocs then
        pure { info with
          tbuf := { info.tbuf.printed line with ptr := .live, sz := 2 * info.tbuf.sz } }
      else if info.tbuf.cnt = 0 then do
        let _ ← ctFiniInfo env depth { info with tbuf := info.tbuf.printed line }
        throw .abort
      else do
        writeOut env (ctFiniInfo env depth) stdoutFd (info.tbuf.printed line)
          { info with tbuf := info.tbuf.printed line }
        pure { info with tbuf := { info.tbuf.printed line with cnt := 0 } } : Run Info)
        w.reallocated := by
  have hprinted : (Info.tbuf { info with tbuf := info.tbuf.printed line }).Ok :=
    ⟨hok.not_freed, hok.cnt_le, hok.sz_pos, hok.sz_dvd⟩
  exact growOrFlush_eq hprinted env depth w

section Exhausted

variable (hok : info.tbuf.Ok) (hroom : info.tbuf.cnt < info.tbuf.sz)
  (hlen : line.length ≤ maxBufLen) (heq : info.tbuf.cnt + line.length = info.tbuf.sz)
include hok hroom hlen heq

theorem givesUp_of_growOrFlush {e : Stop} {m : World}
    (hends : e = .abort ↔ RoomRecovers env info line w)
    (hgrow : growOrFlush env depth { info with tbuf := info.tbuf.printed line } w = .error e m) :
    GivesUp env depth info line w := by
  have hexhausted := (exhausted_iff hroom hok.sz_le hlen).mpr heq
  refine ⟨e, m, ?_, hends⟩
  rw [makeRoom_again 1 { info with tbuf := info.tbuf.printed line } hexhausted]
  exact bind_of_error hgrow

theorem roomMade_grown (hgrows : Grows env info.tbuf w.reallocs)
    (hgrow : growOrFlush env depth { info with tbuf := info.tbuf.printed line } w =
      .ok { info with tbuf := { info.tbuf.printed line with ptr := .live, sz := 2 * info.tbuf.sz } }
        w.reallocated) :
    RoomMade env depth info line w
      { info.tbuf.printed line with ptr := .live, sz := 2 * info.tbuf.sz } w.reallocated := by
  have hno : ¬ CannotGrow env info line w := fun h => h.2 hgrows
  have hroomy : Roomy { info.tbuf.printed line with ptr := .live, sz := 2 * info.tbuf.sz } line := {
    not_freed := by simp
    cnt_le := by change info.tbuf.cnt ≤ 2 * _; omega
    sz_pos := by change 0 < 2 * _; omega
    sz_dvd := hgrows.dvd hok.sz_pos hok.sz_dvd
    ptr := rfl
    room := by change info.tbuf.cnt < 2 * _; omega
    not_exhausted := by change info.tbuf.cnt + line.length ≠ 2 * _; omega }
  exact {
    toRoomy := hroomy
    call := makeRoom_grown hroom hok.sz_le hlen heq hgrow hroomy.ptr hroomy.room hroomy.sz_le
      hroomy.not_exhausted
    count := by
      rw [countWith, if_neg hno]
      rfl
    length := by
      have hle : line.length ≤ 2 * info.tbuf.sz - info.tbuf.cnt := by omega
      have hle' : line.length ≤ info.tbuf.sz - info.tbuf.cnt := by omega
      exact (if_pos hle).trans (if_pos hle').symm
    writes := by rw [if_neg hno]; rfl
    reallocs := by rw [if_pos heq]; rfl }

theorem roomMade_flushed (hp : info.tbuf.ptr = .live) (hne : info.tbuf.cnt ≠ 0)
    (hgrows : ¬ Grows env info.tbuf w.reallocs)
    (hgrow : growOrFlush env depth { info with tbuf := info.tbuf.printed line } w =
      .ok { info with tbuf := { info.tbuf.printed line with cnt := 0 } }
        (w.reallocated.tried env stdoutFd (info.tbuf.printed line))) :
    RoomMade env depth info line w { info.tbuf.printed line with cnt := 0 }
      (w.reallocated.tried env stdoutFd (info.tbuf.printed line)) := by
  have hyes : CannotGrow env info line w := ⟨heq, hgrows⟩
  have hroomy : Roomy { info.tbuf.printed line with cnt := 0 } line := {
    not_freed := hok.not_freed
    cnt_le := Nat.zero_le _
    sz_pos := hok.sz_pos
    sz_dvd := hok.sz_dvd
    ptr := hp
    room := hok.sz_pos
    not_exhausted := by change 0 + line.length ≠ info.tbuf.sz; omega }
  exact {
    toRoomy := hroomy
    call := makeRoom_grown hroom hok.sz_le hlen heq hgrow hroomy.ptr hroomy.room hroomy.sz_le
      hroomy.not_exhausted
    count := by
      rw [countWith, if_pos hyes]
    length := by
      have hle : line.length ≤ info.tbuf.sz - 0 := by omega
      have hle' : line.length ≤ info.tbuf.sz - info.tbuf.cnt := by omega
      exact (if_pos hle).trans (if_pos hle').symm
    writes := by rw [if_pos hyes]; rfl
    reallocs := by rw [if_pos heq]; rfl }

end Exhausted

/-- The loop on an exhausted `tbuf` leaves room for the line, or ends the call where it recovers
and only there. -/
theorem makeRoom_cases (h : info.Between) (hp : info.tbuf.ptr = .live)
    (hroom : info.tbuf.cnt < info.tbuf.sz) (hlen : line.length ≤ maxBufLen) (env : Env)
    (depth : ℕ) (w : World) :
    (HasRoom env info line w ∧ RoomRecovers env info line w ∧
        ∃ b m, RoomMade env (depth + 2) info line w b m) ∨
      ¬ HasRoom env info line w ∧ GivesUp env (depth + 2) info line w := by
  have hok := h.tbuf_ok hroom
  by_cases heq : info.tbuf.cnt + line.length = info.tbuf.sz
  swap
  · have hno : ¬ CannotGrow env info line w := fun hc => heq hc.1
    refine .inl ⟨fun hc => absurd hc hno, fun hc => absurd hc hno, info.tbuf, w, ?_⟩
    exact {
      toRoomy := ⟨hok, hp, hroom, heq⟩
      call := makeRoom_roomy 1 { info with tbuf := info.tbuf.printed line } hroom hok.sz_le hlen
        heq w
      count := by rw [countWith, if_neg hno]
      length := rfl
      writes := by rw [if_neg hno]; rfl
      reallocs := by rw [if_neg heq]; rfl }
  have hwhole : Info.Whole { info with tbuf := info.tbuf.printed line } := h.setTbuf hp
  have hgrow := growOrFlush_printed hok env (depth + 2) line w
  by_cases hgrows : Grows env info.tbuf w.reallocs
  · have hno : ¬ CannotGrow env info line w := fun hc => hc.2 hgrows
    rw [if_pos hgrows] at hgrow
    exact .inl ⟨fun hc => absurd hc hno, fun hc => absurd hc hno, _, _,
      roomMade_grown hok hroom hlen heq hgrows hgrow⟩
  have hyes : CannotGrow env info line w := ⟨heq, hgrows⟩
  rw [if_neg hgrows] at hgrow
  by_cases hzero : info.tbuf.cnt = 0
  · obtain ⟨e, k, hfini, hends⟩ := fini_abort (α := Info) env hwhole depth w.reallocated
    rw [if_pos hzero] at hgrow
    refine .inr ⟨fun hr => (hr hyes).1 hzero,
      givesUp_of_growOrFlush hok hroom hlen heq (hends.trans ?_) (hgrow.trans hfini)⟩
    exact ⟨fun hw _ => ⟨fun _ => hw, fun hne => absurd hzero hne⟩, fun hr => (hr hyes).1 hzero⟩
  rw [if_neg hzero] at hgrow
  have hrecovers : RoomRecovers env info line w ↔ Recovers env info w.writes info.tbuf.cnt :=
    ⟨fun hr => (hr hyes).2 hzero, fun hr _ => ⟨fun hz => absurd hz hzero, fun _ => hr⟩⟩
  by_cases hfail : env.WriteFails w.writes info.tbuf.cnt
  · have hwrite : writeOut env (ctFiniInfo env (depth + 2)) stdoutFd (info.tbuf.printed line)
        { info with tbuf := info.tbuf.printed line } w.reallocated = _ :=
      writeOut_of_fails hp hfail
    obtain ⟨e, k, hfini, hends⟩ := fini_abort (α := Unit) env hwhole depth
      (w.reallocated.tried env stdoutFd (info.tbuf.printed line))
    refine .inr ⟨fun hr => (hr hyes).2 hfail,
      givesUp_of_growOrFlush hok hroom hlen heq (hends.trans ?_)
        (hgrow.trans (bind_of_error (hwrite.trans hfini)))⟩
    exact ⟨fun hw => hrecovers.mpr fun _ => hw, fun hr => hrecovers.mp hr hfail⟩
  · have hwrite : writeOut env (ctFiniInfo env (depth + 2)) stdoutFd (info.tbuf.printed line)
        { info with tbuf := info.tbuf.printed line } w.reallocated = _ :=
      writeOut_of_not_fails hp hfail
    exact .inl ⟨fun _ => ⟨hzero, hfail⟩, hrecovers.mpr fun hf => absurd hf hfail, _, _,
      roomMade_flushed hok hroom hlen heq hp hzero hgrows (hgrow.trans (bind_of_ok hwrite))⟩

/-- Once room was made, the call goes on to the text. -/
theorem RoomMade.ctAddLine_eq {m : World} (hm : RoomMade env depth info line w b m)
    (h : info.Between) (hp : info.tbuf.ptr = .live) (hroom : info.tbuf.cnt < info.tbuf.sz)
    (hlen : line.length ≤ maxBufLen) :
    ctAddLine env depth info line w =
      addText env depth line.length { info with tbuf := b.printed line } m :=
  ctAddLine_of_roomy h.self hp hroom h.tbuf_sz_le hlen (hm.cnt_le.trans hm.sz_le) hm.call

/-- A state that a line cannot be printed to. -/
theorem ctAddLine_undefined (h : info.Between)
    (hc : ¬ (info.tbuf.ptr = .live ∧ info.tbuf.cnt < info.tbuf.sz)) :
    ctAddLine env depth info line w = .error .undefined w := by
  have hmax : maxBufLen = 2 ^ 30 := rfl
  have hsz := h.tbuf_sz_le
  have hne := h.tbuf_cnt_ne
  have hpos := h.tbuf_sz_pos
  have hbad : ¬ (info.tbuf.ptr = .live ∧ info.tbuf.cnt +
      (min line.length (uint64 (info.tbuf.sz - info.tbuf.cnt) - 1) + 1) ≤ info.tbuf.sz) := by
    rintro ⟨hp, hle⟩
    exact hc ⟨hp, by omega⟩
  have hsize : uint64 (info.tbuf.sz - info.tbuf.cnt) ≠ 0 := by
    have hle := h.tbuf_cnt_le
    unfold uint64
    omega
  have hself : deref info.self w = .ok () w := by
    rw [h.self]
    rfl
  unfold ctAddLine
  rw [bind_of_ok hself]
  apply bind_of_error
  unfold vsnprintf
  simp only [if_neg hsize, if_neg hbad]
  rfl

/-- A call of `ct_add_line` ends exactly where it recovers from its writes. -/
theorem ends_ctAddLine (h : info.Between) (hlen : line.length ≤ maxBufLen) :
    Ends (ctAddLine env (depth + 2) info line w) ↔ AddRecovers env info line w := by
  by_cases hc : info.tbuf.ptr = .live ∧ info.tbuf.cnt < info.tbuf.sz
  swap
  · rw [ctAddLine_undefined h hc]
    exact iff_of_false Stop.noConfusion fun hr => hc ⟨hr.tbuf_live, hr.tbuf_room⟩
  obtain ⟨hp, hroom⟩ := hc
  rcases makeRoom_cases h hp hroom hlen env depth w with
    ⟨hhas, hrecovers, b, m, hm⟩ | ⟨hhas, e, m, hmake, hends⟩
  · have hflushes : FlushesRecover env (info.counted b line) (csvLength b line) m.writes
          m.reallocs ↔
        FlushesRecover env { info with tbuf := { info.tbuf with cnt := countWith env info line w } }
          (csvLength info.tbuf line)
          (w.writes + if CannotGrow env info line w then 1 else 0)
          (w.reallocs + if info.tbuf.cnt + line.length = info.tbuf.sz then 1 else 0) := by
      rw [hm.length, hm.writes, hm.reallocs]
      exact flushesRecover_congr hm.count rfl rfl
    rw [hm.ctAddLine_eq h hp hroom hlen,
      ends_addText h.toWhole h.cbuf hm.ptr hm.room hm.not_exhausted, hflushes]
    exact ⟨fun hcsv => ⟨hp, hroom, hrecovers, fun _ => hcsv⟩, fun hr => hr.csv hhas⟩
  · have hcall : ctAddLine env (depth + 2) info line w = .error e m := by
      rw [ctAddLine_eq h.self hp hroom h.tbuf_sz_le hlen]
      exact bind_of_error hmake
    rw [hcall]
    refine (show Ends (.error e m : EStateM.Result Stop World Info) ↔ e = .abort from .rfl).trans
      (hends.trans ⟨fun hr => ⟨hp, hroom, hr, fun hh => absurd hh hhas⟩, AddRecovers.room⟩)

theorem between_of_ctInitInfo {testName csvPath : Option (List Byte)}
    (h : ctInitInfo env depth testName csvPath w = .ok (some info) w') : info.Between := by
  obtain ⟨hok, hcnt, -⟩ := ctInitInfo_ok h
  have hpos := hok.tbuf.sz_pos
  exact
    { toWhole := ctInitInfo_whole h
      tbuf_not_freed := hok.tbuf.not_freed
      tbuf_sz_pos := hpos
      tbuf_sz_dvd := hok.tbuf.sz_dvd
      tbuf_cnt_ne := by omega
      tbuf_cnt_le := by omega
      cbuf := hok.cbuf
      csv_closed := hok.csv_closed }

/-- The structure after a line was stored in a roomy buffer. -/
theorem Info.Between.counted (h : info.Between) (hb : Roomy b line)
    (hlen : line.length ≤ maxBufLen) {c : Buf} (hc : c.Ok) (hempty : c.ptr ≠ .live → c.cnt = 0)
    (hclosed : info.csvFd = -1 → c.cnt = 0) :
    Info.Between { info.counted b line with cbuf := c } where
  self := h.self
  testName := h.testName
  csvPath := h.csvPath
  csvHeader := h.csvHeader
  tbuf_empty := fun hne => absurd hb.ptr hne
  cbuf_empty := hempty
  tbuf_not_freed := hb.not_freed
  tbuf_sz_pos := hb.sz_pos
  tbuf_sz_dvd := hb.sz_dvd
  tbuf_cnt_ne := hb.not_exhausted
  tbuf_cnt_le := by
    have := hb.cnt_le.trans hb.sz_le
    change b.cnt + line.length ≤ _
    omega
  cbuf := hc
  csv_closed := hclosed

theorem Info.Between.ctAddLine (h : info.Between) (hlen : line.length ≤ maxBufLen)
    (hcall : ctAddLine env (depth + 2) info line w = .ok info' w') : info'.Between := by
  by_cases hc : info.tbuf.ptr = .live ∧ info.tbuf.cnt < info.tbuf.sz
  swap
  · rw [ctAddLine_undefined h hc] at hcall
    simp at hcall
  obtain ⟨hp, hroom⟩ := hc
  rcases makeRoom_cases h hp hroom hlen env depth w with
    ⟨-, -, b, m, hm⟩ | ⟨-, e, m, hmake, -⟩
  · have hb := hm.toRoomy
    rw [hm.ctAddLine_eq h hp hroom hlen, addText_counted] at hcall
    by_cases hfd : info.csvFd = -1
    · rw [if_neg (not_not_intro hfd)] at hcall
      obtain ⟨rfl, -⟩ := pure_ok.mp hcall
      exact h.counted hb hlen h.cbuf h.cbuf_empty h.csv_closed
    rw [if_pos hfd] at hcall
    by_cases hlive : info.cbuf.ptr = .live
    · have hat := csvLoop_ok hcall hlive h.cbuf (Nat.le_add_right b.cnt line.length)
      rw [hat.rest]
      exact h.counted hb hlen hat.ok (fun hne => absurd hat.ptr hne) fun heq => absurd heq hfd
    · have hcroom : info.cbuf.cnt < info.cbuf.sz := by
        rw [h.cbuf_empty hlive]
        exact h.cbuf.sz_pos
      obtain ⟨-, rfl, -⟩ := csvLoop_not_live_ok hcall hlive hcroom
        (Nat.le_add_right b.cnt line.length)
      exact h.counted hb hlen h.cbuf h.cbuf_empty h.csv_closed
  · rw [ctAddLine_eq h.self hp hroom h.tbuf_sz_le hlen, bind_of_error hmake] at hcall
    simp at hcall

theorem Info.Between.runOps {ops : List Op} (h : info.Between)
    (hlen : ∀ op ∈ ops, op.line.length ≤ maxBufLen)
    (hrun : runOps env (depth + 2) info ops w = .ok info' w') : info'.Between := by
  induction ops using List.reverseRecOn generalizing info' w' with
  | nil =>
    obtain ⟨rfl, -⟩ := pure_ok.mp hrun
    exact h
  | append_singleton pre op ih =>
    obtain ⟨i, m, hpre, hcall⟩ := foldlM_snoc_ok.mp hrun
    have hi := ih (fun o ho => hlen o (by simp [ho])) hpre
    cases op with
    | addLine line => exact hi.ctAddLine (hlen (.addLine line) (by simp)) hcall
    | printData =>
      obtain ⟨_, _, -, hret⟩ := bind_ok.mp hcall
      obtain ⟨rfl, -⟩ := pure_ok.mp hret
      exact hi

def closedEnv : Env := { plainEnv with writeRet := fun i n => if i = 0 then n else -1 }

end CrayTests.PrintUtils
