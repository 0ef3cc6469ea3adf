import CrayTests.PrintCsv

/-!
# Adding a line

A line of at most the free space of `tbuf` is stored whole, after at most one growth or flush;
`tbuf` and its csv form then follow what the two outboxes held. A longer line passes the test
for an exhausted buffer, and the count leaves the buffer.
-/

namespace CrayTests.PrintUtils

open CInteger Outbox StateContract

structure Info.Ok (info : Info) : Prop where
  self : info.self = .live
  tbuf : info.tbuf.Ok
  tbuf_room : info.tbuf.cnt < info.tbuf.sz
  tbuf_empty : info.tbuf.ptr ≠ .live → info.tbuf.cnt = 0
  cbuf : info.cbuf.Ok
  cbuf_empty : info.cbuf.ptr ≠ .live → info.cbuf.cnt = 0
  csv_closed : info.csvFd = -1 → info.cbuf.cnt = 0
  csvFd_ne : info.csvFd ≠ stdoutFd

/-- What a call with `line` leaves behind: `line` follows in the table, its csv form in the
csv file. -/
structure Added (info : Info) (line : List Byte) (w : World) (info' : Info) (w' : World) :
    Prop where
  ok : info'.Ok
  csvFd : info'.csvFd = info.csvFd
  table : KeepStep (box stdoutFd w info.tbuf) (.add line) (box stdoutFd w' info'.tbuf)
  csv : info.csvFd ≠ -1 → Step (box info.csvFd w info.cbuf) (.add (csvLine line))
    (box info.csvFd w' info'.cbuf)

variable {env : Env} {depth : ℕ} {info info' : Info} {line : List Byte} {w w' : World}

theorem exhausted_iff {b : Buf} (hcnt : b.cnt < b.sz) (hsz : b.sz ≤ maxBufLen)
    (hlen : line.length ≤ maxBufLen) :
    uint64 (b.sz - b.cnt - (line.length : ℤ)) = 0 ↔ b.cnt + line.length = b.sz := by
  have hmax : maxBufLen = 2 ^ 30 := rfl
  unfold uint64
  omega

theorem makeRoom_roomy (fuel : ℕ) (info : Info) (hcnt : info.tbuf.cnt < info.tbuf.sz)
    (hsz : info.tbuf.sz ≤ maxBufLen) (hlen : line.length ≤ maxBufLen)
    (hne : info.tbuf.cnt + line.length ≠ info.tbuf.sz) (w : World) :
    makeRoom env depth line (fuel + 1) info line.length w = .ok (info, line.length) w := by
  rw [makeRoom, if_pos (fun h => hne ((exhausted_iff hcnt hsz hlen).mp h))]
  rfl

theorem makeRoom_again (fuel : ℕ) (info : Info) {tbw : ℤ}
    (h : uint64 (info.tbuf.sz - info.tbuf.cnt - tbw) = 0) :
    makeRoom env depth line (fuel + 1) info tbw = (do
      let info ← growOrFlush env depth info
      let printed ← vsnprintf info.tbuf line
      makeRoom env depth line fuel { info with tbuf := printed.1 } printed.2) := by
  rw [makeRoom, if_neg (not_not_intro h)]

/-- An exhausted `tbuf` is grown; one that cannot grow is flushed, or too small for the line. -/
theorem growOrFlush_eq (hok : info.tbuf.Ok) (env : Env) (depth : ℕ) (w : World) :
    growOrFlush env depth info w =
      (if Grows env info.tbuf w.reallocs then
        pure { info with tbuf := { info.tbuf with ptr := .live, sz := 2 * info.tbuf.sz } }
      else if info.tbuf.cnt = 0 then do
        let _ ← ctFiniInfo env depth info
        throw .abort
      else do
        writeOut env (ctFiniInfo env depth) stdoutFd info.tbuf info
        pure { info with tbuf := { info.tbuf with cnt := 0 } } : Run Info)
        w.reallocated := by
  have hmax : maxBufLen = 2 ^ 30 := rfl
  obtain ⟨r, hgrow, hr⟩ := growBuf_run hok.not_freed hok.sz_dvd env w
  unfold growOrFlush
  rw [bind_of_ok hgrow]
  rcases hr with ⟨hfail, hgrows⟩ | ⟨rfl, hgrows⟩
  · rw [if_pos hfail, if_neg hgrows]
  · have hsz := hgrows.1
    rw [if_neg (by omega), if_pos hgrows, uint64_natCast (by omega)]

/-- Where it returns, it made room and only moved text to the table. -/
theorem growOrFlush_ok (hfull : Full env) {b : Buf} (hp : b.ptr = .live) (hok : b.Ok)
    (h : growOrFlush env depth { info with tbuf := b } w = .ok info' w') :
    ∃ b', info' = { info with tbuf := b' } ∧ b'.ptr = .live ∧ b'.Ok ∧
      (b'.sz = 2 * b.sz ∧ b'.cnt = b.cnt ∨ b'.sz = b.sz ∧ b'.cnt = 0 ∧ b.cnt ≠ 0) ∧
      Step (box stdoutFd w b) (.add []) (box stdoutFd w' b') ∧
      ∀ fd, fd ≠ stdoutFd → bytesTo fd w' = bytesTo fd w := by
  have hmax : maxBufLen = 2 ^ 30 := rfl
  have hcnt := hok.cnt_le
  have hsz := hok.sz_le
  have hpos := hok.sz_pos
  have hprinted : (Info.tbuf { info with tbuf := b }).Ok := hok
  rw [growOrFlush_eq hprinted] at h
  by_cases hgrows : Grows env b w.reallocs
  · rw [if_pos hgrows] at h
    obtain ⟨rfl, rfl⟩ := pure_ok.mp h
    refine ⟨{ b with ptr := .live, sz := 2 * b.sz }, rfl, rfl, ?_, .inl ⟨rfl, rfl⟩, ?_, ?_⟩
    · exact ⟨by simp, by change b.cnt ≤ 2 * b.sz; omega, by change 0 < 2 * b.sz; omega,
        hgrows.dvd hpos hok.sz_dvd⟩
    · have := Step.append (box stdoutFd w b) []
      simpa [box, Buf.contents] using this
    · intro fd _
      rfl
  rw [if_neg hgrows] at h
  by_cases hzero : b.cnt = 0
  · rw [if_pos hzero] at h
    obtain ⟨_, _, _, hthrow⟩ := bind_ok.mp h
    exact absurd hthrow throw_ok
  · rw [if_neg hzero] at h
    have hwrite := writeOut_run hfull stdoutFd hp (by omega) (ctFiniInfo env depth)
      { info with tbuf := b } w.reallocated
    obtain ⟨_, k, hk, hret⟩ := bind_ok.mp h
    obtain rfl : w.reallocated.wrote stdoutFd b.contents = k := by
      simpa using hwrite.symm.trans hk
    obtain ⟨rfl, rfl⟩ := pure_ok.mp hret
    refine ⟨{ b with cnt := 0 }, rfl, hp, ?_, .inr ⟨rfl, rfl, hzero⟩, ?_, ?_⟩
    · exact ⟨hok.not_freed, Nat.zero_le _, hpos, hok.sz_dvd⟩
    · have := Step.flush (box stdoutFd w b)
      simpa [box, bytesTo_wrote, Buf.contents] using this
    · intro fd hfd
      rw [bytesTo_wrote, if_neg (Ne.symm hfd), bytesTo_reallocated, List.append_nil]

/-- After room was made the line is printed again, and the loop ends where it fits. -/
theorem makeRoom_grown {b : Buf} (hroom : info.tbuf.cnt < info.tbuf.sz)
    (hsz : info.tbuf.sz ≤ maxBufLen) (hlen : line.length ≤ maxBufLen)
    (heq : info.tbuf.cnt + line.length = info.tbuf.sz)
    (hgrow : growOrFlush env depth { info with tbuf := info.tbuf.printed line } w =
      .ok { info with tbuf := b } w')
    (hb : b.ptr = .live) (hbroom : b.cnt < b.sz) (hbsz : b.sz ≤ maxBufLen)
    (hne : b.cnt + line.length ≠ b.sz) :
    makeRoom env depth line 2 { info with tbuf := info.tbuf.printed line } line.length w =
      .ok ({ info with tbuf := b.printed line }, (line.length : ℤ)) w' := by
  have hmax : maxBufLen = 2 ^ 30 := rfl
  have hexhausted := (exhausted_iff hroom hsz hlen).mpr heq
  rw [makeRoom_again 1 { info with tbuf := info.tbuf.printed line } hexhausted,
    bind_of_ok hgrow, bind_of_ok (vsnprintf_live hb hbroom (by omega) (by omega) w')]
  exact makeRoom_roomy 0 { info with tbuf := b.printed line } hbroom hbsz hlen hne w'

/-- Once the exhausted `tbuf` was grown or flushed the line fits. -/
theorem makeRoom_exhausted (hfull : Full env) (hok : info.Ok)
    (hp : info.tbuf.ptr = .live) (hlen : line.length ≤ maxBufLen)
    (heq : info.tbuf.cnt + line.length = info.tbuf.sz)
    (hgrow : growOrFlush env depth { info with tbuf := info.tbuf.printed line } w =
      .ok info' w') :
    ∃ b, makeRoom env depth line 2 { info with tbuf := info.tbuf.printed line } line.length w =
        .ok ({ info with tbuf := b.printed line }, (line.length : ℤ)) w' ∧ b.Ok ∧
      b.ptr = .live ∧ 0 < b.cnt + line.length ∧ b.cnt + line.length < b.sz ∧
      Step (box stdoutFd w info.tbuf) (.add []) (box stdoutFd w' b) ∧
      ∀ fd, fd ≠ stdoutFd → bytesTo fd w' = bytesTo fd w := by
  have hroom := hok.tbuf_room
  have hprinted : (info.tbuf.printed line).Ok :=
    ⟨hok.tbuf.not_freed, hok.tbuf.cnt_le, hok.tbuf.sz_pos, hok.tbuf.sz_dvd⟩
  obtain ⟨b, rfl, hb, hbok, hshape, hstep, hframe⟩ :=
    growOrFlush_ok (b := info.tbuf.printed line) hfull hp hprinted hgrow
  have hfits : 0 < b.cnt + line.length ∧ b.cnt + line.length < b.sz := by
    change b.sz = 2 * info.tbuf.sz ∧ b.cnt = info.tbuf.cnt ∨
      b.sz = info.tbuf.sz ∧ b.cnt = 0 ∧ info.tbuf.cnt ≠ 0 at hshape
    omega
  refine ⟨b, ?_, hbok, hb, hfits.1, hfits.2, ?_, hframe⟩
  · exact makeRoom_grown hroom hok.tbuf.sz_le hlen heq hgrow hb (by omega) hbok.sz_le hfits.2.ne
  · rwa [box, contents_printed] at hstep

/-- Room is made for any line of at most the free space. -/
theorem makeRoom_fits {r : Info × ℤ} (hfull : Full env) (hok : info.Ok)
    (hp : info.tbuf.ptr = .live) (hlen : line.length ≤ maxBufLen)
    (hle : info.tbuf.cnt + line.length ≤ info.tbuf.sz)
    (h : makeRoom env depth line 2 { info with tbuf := info.tbuf.printed line } line.length w =
      .ok r w') :
    ∃ b, r = ({ info with tbuf := b.printed line }, (line.length : ℤ)) ∧ b.Ok ∧
      b.ptr = .live ∧ (b.cnt + line.length = 0 → info.tbuf.cnt = 0) ∧
      b.cnt + line.length < b.sz ∧
      Step (box stdoutFd w info.tbuf) (.add []) (box stdoutFd w' b) ∧
      ∀ fd, fd ≠ stdoutFd → bytesTo fd w' = bytesTo fd w := by
  rcases Nat.lt_or_eq_of_le hle with hlt | heq
  · rw [makeRoom_roomy 1 { info with tbuf := info.tbuf.printed line } hok.tbuf_room
      hok.tbuf.sz_le hlen hlt.ne] at h
    obtain ⟨rfl, rfl⟩ : _ = r ∧ w = w' := by simpa using h
    refine ⟨info.tbuf, rfl, hok.tbuf, hp, by omega, hlt, ?_, fun _ _ => rfl⟩
    simpa [box] using Step.append (box stdoutFd w info.tbuf) []
  · have hexhausted := (exhausted_iff hok.tbuf_room hok.tbuf.sz_le hlen).mpr heq
    obtain ⟨info', m, hgrow, -⟩ := bind_ok.mp
      ((congrFun (makeRoom_again 1 { info with tbuf := info.tbuf.printed line } hexhausted)
        w).symm.trans h)
    obtain ⟨b, hmake, hbok, hb, hpos, hlt, hstep⟩ :=
      makeRoom_exhausted hfull hok hp hlen heq hgrow
    obtain ⟨rfl, rfl⟩ : _ = r ∧ m = w' := by simpa using hmake.symm.trans h
    exact ⟨b, rfl, hbok, hb, by omega, hlt, hstep⟩

/-- What follows the loop that makes room: the count, and the csv loop. -/
def addText (env : Env) (depth : ℕ) (n : ℕ) (info : Info) : Run Info :=
  if info.csvFd ≠ -1 then
    csvLoop env depth (n + 2) info.tbuf.cnt
      { info with tbuf := { info.tbuf with cnt := info.tbuf.cnt + n } }
  else
    pure { info with tbuf := { info.tbuf with cnt := info.tbuf.cnt + n } }

/-- A call prints the line, makes room, and adds the text. -/
theorem ctAddLine_eq (hself : info.self = .live) (hp : info.tbuf.ptr = .live)
    (hroom : info.tbuf.cnt < info.tbuf.sz) (hsz : info.tbuf.sz ≤ maxBufLen)
    (hlen : line.length ≤ maxBufLen) (w : World) :
    ctAddLine env depth info line w =
      (do
        let roomy ← makeRoom env depth line 2 { info with tbuf := info.tbuf.printed line }
          line.length
        let info : Info := { roomy.1 with
          tbuf := { roomy.1.tbuf with cnt := uint64 (roomy.1.tbuf.cnt + roomy.2) } }
        if info.csvFd ≠ -1 then
          csvLoop env depth (info.tbuf.cnt - roomy.1.tbuf.cnt + 2) roomy.1.tbuf.cnt info
        else
          pure info : Run Info) w := by
  have hmax : maxBufLen = 2 ^ 30 := rfl
  unfold ctAddLine
  rw [hself, bind_of_ok (deref_live w),
    bind_of_ok (vsnprintf_live hp hroom (by omega) (by omega) w)]

theorem ctAddLine_of_roomy {r : Info} {m : World} (hself : info.self = .live)
    (hp : info.tbuf.ptr = .live) (hroom : info.tbuf.cnt < info.tbuf.sz)
    (hsz : info.tbuf.sz ≤ maxBufLen) (hlen : line.length ≤ maxBufLen)
    (hcnt : r.tbuf.cnt ≤ maxBufLen)
    (h : makeRoom env depth line 2 { info with tbuf := info.tbuf.printed line } line.length w =
      .ok (r, (line.length : ℤ)) m) :
    ctAddLine env depth info line w = addText env depth line.length r m := by
  have hmax : maxBufLen = 2 ^ 30 := rfl
  have hcast : uint64 (r.tbuf.cnt + (line.length : ℤ)) = r.tbuf.cnt + line.length := by
    rw [← Nat.cast_add]
    exact uint64_natCast (by omega)
  rw [ctAddLine_eq hself hp hroom hsz hlen, bind_of_ok h]
  simp only [hcast, Nat.add_sub_cancel_left]
  rfl

/-- The new text is counted, and its csv form follows in the csv file. -/
theorem addText_ok (hfull : Full env) (hok : info.Ok) {b : Buf} (hb : b.ptr = .live)
    (hbok : b.Ok) (hfits : b.cnt + line.length < b.sz)
    (h : addText env depth line.length { info with tbuf := b.printed line } w = .ok info' w') :
    info'.Ok ∧ info'.csvFd = info.csvFd ∧
      info'.tbuf = { b.printed line with cnt := b.cnt + line.length } ∧
      (info.csvFd ≠ -1 → Step (box info.csvFd w info.cbuf) (.add (csvLine line))
        (box info.csvFd w' info'.cbuf)) ∧
      bytesTo stdoutFd w' = bytesTo stdoutFd w := by
  have htbuf : Buf.Ok { b.printed line with cnt := b.cnt + line.length } :=
    ⟨hbok.not_freed, hfits.le, hbok.sz_pos, hbok.sz_dvd⟩
  have hcsv : csvText { b.printed line with cnt := b.cnt + line.length }
      (b.cnt + line.length - b.cnt) b.cnt = csvLine line := by
    rw [Nat.add_sub_cancel_left]
    exact csvText_eq_csvLine (fun i hi => printed_data_line hfits hi) (printed_data_end hfits)
      hfits
  have hnext {c : Buf} (hc : c.Ok) (hempty : c.ptr ≠ .live → c.cnt = 0)
      (hclosed : info.csvFd = -1 → c.cnt = 0) :
      Info.Ok { info with
        tbuf := { b.printed line with cnt := b.cnt + line.length }, cbuf := c } :=
    ⟨hok.self, htbuf, hfits, fun hne => absurd hb hne, hc, hempty, hclosed, hok.csvFd_ne⟩
  unfold addText at h
  by_cases hfd : info.csvFd = -1
  · rw [if_neg (not_not_intro hfd)] at h
    obtain ⟨rfl, rfl⟩ := pure_ok.mp h
    exact ⟨hnext hok.cbuf hok.cbuf_empty hok.csv_closed, rfl, rfl, fun hne => absurd hfd hne,
      rfl⟩
  rw [if_pos hfd] at h
  by_cases hc : info.cbuf.ptr = .live
  · obtain ⟨c, k, hrun, hcp, hcok, hstep, hframe⟩ := csvLoop_run hfull depth
      (line.length + 2) b.cnt
      { info with tbuf := { b.printed line with cnt := b.cnt + line.length } } w hc hok.cbuf
      (Nat.le_add_right _ _) ((csvFuel_le _ _).trans (by simp only; omega))
    obtain ⟨rfl, rfl⟩ : _ = info' ∧ k = w' := by simpa using hrun.symm.trans h
    refine ⟨hnext hcok (fun hne => absurd hcp hne) (fun heq => absurd heq hfd), rfl, rfl, ?_,
      hframe stdoutFd (Ne.symm hok.csvFd_ne)⟩
    intro _
    rwa [← hcsv]
  · have hzero := hok.cbuf_empty hc
    have hpos := hok.cbuf.sz_pos
    obtain ⟨htext, rfl, rfl⟩ := csvLoop_not_live_ok h hc
      (by change info.cbuf.cnt < info.cbuf.sz; omega) (Nat.le_add_right _ _)
    refine ⟨hnext hok.cbuf hok.cbuf_empty hok.csv_closed, rfl, rfl, ?_, rfl⟩
    intro _
    have hnone : csvLine line = [] := hcsv.symm.trans htext
    rw [hnone]
    simpa [box] using Step.append (box info.csvFd w' info.cbuf) []

theorem live_of_ctAddLine (hok : info.Ok)
    (h : ctAddLine env depth info line w = .ok info' w') : info.tbuf.ptr = .live := by
  have hmax : maxBufLen = 2 ^ 30 := rfl
  have hsz := hok.tbuf.sz_le
  unfold ctAddLine at h
  rw [hok.self, bind_of_ok (deref_live w)] at h
  obtain ⟨r, m, hprint, -⟩ := bind_ok.mp h
  exact live_of_vsnprintf hok.tbuf_room (by omega) hprint

/-- A line of at most the free space is added. -/
theorem ctAddLine_added (hfull : Full env) (hok : info.Ok) (hlen : line.length ≤ maxBufLen)
    (hle : line.length ≤ info.tbuf.sz - info.tbuf.cnt)
    (h : ctAddLine env depth info line w = .ok info' w') : Added info line w info' w' := by
  have hroom := hok.tbuf_room
  have hp := live_of_ctAddLine hok h
  obtain ⟨r, m, hmake, -⟩ := bind_ok.mp
    ((ctAddLine_eq hok.self hp hroom hok.tbuf.sz_le hlen w).symm.trans h)
  obtain ⟨b, rfl, hbok, hb, hzero, hfits, hstep, hframe⟩ :=
    makeRoom_fits hfull hok hp hlen (by omega) hmake
  have hb' : b.cnt ≤ maxBufLen := hbok.cnt_le.trans hbok.sz_le
  rw [ctAddLine_of_roomy hok.self hp hroom hok.tbuf.sz_le hlen hb' hmake] at h
  obtain ⟨hok', hfd, htbuf, hcsv, hout⟩ := addText_ok hfull hok hb hbok hfits h
  have hcontents : info'.tbuf.contents = b.contents ++ line := by
    rw [htbuf]
    exact contents_add_line hfits
  refine ⟨hok', hfd, ⟨?_, ?_⟩, ?_⟩
  · have hline := Step.append (box stdoutFd m b) line
    have hbox : box stdoutFd w' info'.tbuf = ⟨bytesTo stdoutFd m, b.contents ++ line⟩ := by
      rw [box, hout, hcontents]
    rw [hbox]
    exact hstep.add_trans hline
  · intro hnil
    have hnil' : b.contents ++ line = [] := hcontents.symm.trans hnil
    obtain ⟨hbnil, rfl⟩ := List.append_eq_nil_iff.mp hnil'
    have hbzero := contents_eq_nil_iff.mp hbnil
    exact ⟨contents_eq_nil_iff.mpr (hzero (by simp [hbzero])), rfl⟩
  · intro hne
    have := hcsv hne
    rwa [box, hframe _ hok.csvFd_ne] at this

/-- A longer line does not exhaust the buffer, so that no room is made for it. -/
theorem ctAddLine_long (hok : info.Ok) (hp : info.tbuf.ptr = .live)
    (hlen : line.length ≤ maxBufLen) (hlong : info.tbuf.sz - info.tbuf.cnt < line.length)
    (w : World) : ctAddLine env depth info line w =
      addText env depth line.length { info with tbuf := info.tbuf.printed line } w := by
  have hroom := hok.tbuf_room
  apply ctAddLine_of_roomy hok.self hp hroom hok.tbuf.sz_le hlen
  · exact hok.tbuf.cnt_le.trans hok.tbuf.sz_le
  · exact makeRoom_roomy 1 { info with tbuf := info.tbuf.printed line } hroom hok.tbuf.sz_le hlen
      (by change info.tbuf.cnt + line.length ≠ info.tbuf.sz; omega) w

/-- The count of a longer line leaves the buffer. -/
theorem ctAddLine_overflows (hfull : Full env) (depth : ℕ) (hok : info.Ok)
    (hp : info.tbuf.ptr = .live) (hc : info.csvFd ≠ -1 → info.cbuf.ptr = .live)
    (hlen : line.length ≤ maxBufLen) (hlong : info.tbuf.sz - info.tbuf.cnt < line.length)
    (w : World) :
    ∃ info' w', ctAddLine env depth info line w = .ok info' w' ∧
      info'.tbuf.sz < info'.tbuf.cnt := by
  have hroom := hok.tbuf_room
  have hover : info.tbuf.sz < info.tbuf.cnt + line.length := by omega
  rw [ctAddLine_long hok hp hlen hlong]
  unfold addText
  by_cases hfd : info.csvFd = -1
  · rw [if_neg (not_not_intro hfd)]
    exact ⟨_, w, rfl, hover⟩
  · rw [if_pos hfd]
    obtain ⟨c, k, hrun, -⟩ := csvLoop_run hfull depth (line.length + 2) info.tbuf.cnt
      { info with
        tbuf := { info.tbuf.printed line with cnt := info.tbuf.cnt + line.length } } w
      (hc hfd) hok.cbuf (Nat.le_add_right _ _) ((csvFuel_le _ _).trans (by simp only; omega))
    exact ⟨_, k, hrun, hover⟩

/-- The null of a longer line is stored in `cbuf`, which must then be there. -/
theorem cbuf_live_of_long (hok : info.Ok) (hlen : line.length ≤ maxBufLen)
    (hlong : info.tbuf.sz - info.tbuf.cnt < line.length) (hfd : info.csvFd ≠ -1)
    (h : ctAddLine env depth info line w = .ok info' w') : info.cbuf.ptr = .live := by
  by_contra hc
  have hroom := hok.tbuf_room
  have hzero := hok.cbuf_empty hc
  have hpos := hok.cbuf.sz_pos
  rw [ctAddLine_long hok (live_of_ctAddLine hok h) hlen hlong, addText, if_pos hfd] at h
  obtain ⟨htext, -⟩ := csvLoop_not_live_ok h hc
    (by change info.cbuf.cnt < info.cbuf.sz; omega) (Nat.le_add_right _ _)
  have hnull := csvChar_eq_nil_of_mem (i := info.tbuf.sz - 1) htext
    (by change info.tbuf.cnt ≤ _; omega)
    (by
      change _ < info.tbuf.cnt + (info.tbuf.cnt + line.length - info.tbuf.cnt)
      omega)
  have hdata := printed_data_last hroom hlong.le
  unfold csvChar at hnull
  rw [if_neg] at hnull
  · simp at hnull
  · rintro ⟨hspace, -⟩
    rw [show Buf.data _ (info.tbuf.sz - 1) = 0 from hdata] at hspace
    revert hspace
    decide

end CrayTests.PrintUtils
