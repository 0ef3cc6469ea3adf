import Mathlib.Data.List.TakeWhile
import CrayTests.PrintFini

/-!
# The csv conversion

`csvReference` converts the runs of white space of a text, whatever the buffers do. Lines that
end in a newline are converted by it: what the calls of `ct_add_line` write to the csv file and
what they leave in `cbuf` are the conversions of the lines, for every pattern of growths. A call
returns, or aborts where its line fills an empty `tbuf` that cannot grow.
-/

namespace CrayTests.PrintUtils

open CInteger Outbox StateContract

def blank (c : Byte) : Bool := isspace c && c ≠ newline

/-- What a run of white space before `rest` is replaced by. -/
def runText (rest : List Byte) : List Byte :=
  match rest with
  | [] => []
  | d :: _ => if d = newline then [] else [comma]

/-- Every maximal run of white space other than newlines becomes a comma, or nothing before a
newline. -/
def csvReference : List Byte → List Byte
  | [] => []
  | c :: rest =>
    if blank c then
      runText (rest.dropWhile blank) ++ csvReference (rest.dropWhile blank)
    else
      c :: csvReference rest
termination_by text => text.length
decreasing_by
  · exact Nat.lt_succ_of_le (List.dropWhile_suffix blank).length_le
  · exact Nat.lt_succ_self _

theorem csvReference_blank {c : Byte} (hc : blank c) (rest : List Byte) :
    csvReference (c :: rest) =
      runText (rest.dropWhile blank) ++ csvReference (rest.dropWhile blank) := by
  rw [csvReference, if_pos hc]

theorem csvReference_copied {c : Byte} (hc : ¬ blank c) (rest : List Byte) :
    csvReference (c :: rest) = c :: csvReference rest := by
  rw [csvReference, if_neg hc]

theorem isspace_iff (c : Byte) : isspace c ↔ blank c ∨ c = newline := by
  by_cases hc : c = newline
  · simp [hc, isspace, newline]
  · simp [blank, hc]

theorem csvLine_cons (c : Byte) (rest : List Byte) :
    csvLine (c :: rest) =
      (if blank c then if rest.head?.any isspace then [] else [comma] else [c]) ++
        csvLine rest := by
  rw [csvLine]
  congr 1
  simp [blank]

/-- The loop drops the white space of a run up to the last one. -/
theorem csvLine_run {c : Byte} (hc : blank c) {rest : List Byte}
    (hend : rest.dropWhile blank ≠ []) :
    csvLine (c :: rest) = runText (rest.dropWhile blank) ++ csvLine (rest.dropWhile blank) := by
  induction rest generalizing c with
  | nil => exact absurd rfl hend
  | cons d rest ih =>
    rw [csvLine_cons, if_pos hc]
    by_cases hd : blank d
    · have hspace : isspace d := (isspace_iff d).mpr (.inl hd)
      rw [List.dropWhile_cons_of_pos hd] at hend ⊢
      rw [← ih hd hend]
      simp [hspace]
    · rw [List.dropWhile_cons_of_neg hd]
      congr 1
      have hspace : isspace d ↔ d = newline := by
        rw [isspace_iff]
        simp [hd]
      by_cases hn : d = newline <;> simp [runText, hspace, hn, show isspace newline from rfl]

theorem not_blank_newline : ¬ blank newline := by decide

/-- On lines that end in a newline the loop is the reference conversion. -/
theorem csvLine_eq_csvReference {line : List Byte} (hline : ∀ c ∈ line.getLast?, c = newline) :
    csvLine line = csvReference line := by
  induction line using csvReference.induct with
  | case1 => rw [csvLine, csvReference]
  | case2 c rest hc ih =>
    have hend : rest.dropWhile blank ≠ [] := by
      intro hnil
      have hall := List.dropWhile_eq_nil_iff.mp hnil
      have hlast : blank ((c :: rest).getLast (by simp)) := by
        rcases List.mem_cons.mp (List.getLast_mem (l := c :: rest) (by simp)) with heq | hmem
        · rw [heq]
          exact hc
        · exact hall _ hmem
      rw [hline _ (List.getLast_mem_getLast? (by simp))] at hlast
      exact not_blank_newline hlast
    rw [csvLine_run hc hend, csvReference_blank hc, ih]
    intro d hd
    apply hline
    obtain ⟨pre, hpre⟩ := List.dropWhile_suffix blank (l := rest)
    rw [← hpre, ← List.cons_append, List.getLast?_append_of_ne_nil _ hend]
    exact hd
  | case3 c rest hc ih =>
    rw [csvLine_cons, if_neg hc, csvReference_copied hc, ih]
    · rfl
    · intro d hd
      exact hline d (List.mem_getLast?_cons hd)

structure Info.CsvOpen (info : Info) : Prop extends Info.Ok info, Info.Whole info where
  tbuf_live : info.tbuf.ptr = .live
  cbuf_live : info.cbuf.ptr = .live
  csv_open : info.csvFd ≠ -1

variable {env : Env} {info info' : Info} {line : List Byte} {lines : List (List Byte)}
  {w w' : World}

theorem not_writeFails (hfull : Full env) (i : ℕ) {b : Buf} (hok : b.Ok) :
    ¬ env.WriteFails i b.cnt := by
  have hmax : maxBufLen = 2 ^ 30 := rfl
  have hcnt := hok.cnt_le.trans hok.sz_le
  unfold Env.WriteFails
  rw [hfull, int32_natCast (by omega)]
  omega

theorem finiWrites_of_full (hfull : Full env) (h : info.Ok) (i : ℕ) : FiniWrites env info i :=
  ⟨fun _ => not_writeFails hfull i h.tbuf, fun _ => not_writeFails hfull _ h.cbuf⟩

/-- The buffers that a call may leave behind. -/
theorem Info.CsvOpen.update (h : info.CsvOpen) {b c : Buf} (hb : b.ptr = .live) (hbok : b.Ok)
    (hroom : b.cnt < b.sz) (hc : c.ptr = .live) (hcok : c.Ok) :
    Info.CsvOpen { info with tbuf := b, cbuf := c } where
  self := h.self
  tbuf := hbok
  tbuf_room := hroom
  tbuf_empty := fun hne => absurd hb hne
  cbuf := hcok
  cbuf_empty := fun hne => absurd hc hne
  csv_closed := fun hfd => absurd hfd h.csv_open
  csvFd_ne := h.csvFd_ne
  testName := h.testName
  csvPath := h.csvPath
  csvHeader := h.csvHeader
  tbuf_live := hb
  cbuf_live := hc
  csv_open := h.csv_open

/-- An exactly exhausted `tbuf` is grown or flushed. One that is empty and cannot grow ends the
process, after the csv text was written. -/
theorem growOrFlush_run (hfull : Full env) (depth : ℕ) (h : info.CsvOpen) (w : World) :
    (∃ info' w', growOrFlush env (depth + 1) info w = .ok info' w') ∨
      ∃ w', growOrFlush env (depth + 1) info w = .error .abort w' ∧ info.tbuf.cnt = 0 ∧
        bytesTo info.csvFd w' = (box info.csvFd w info.cbuf).text := by
  have hmax : maxBufLen = 2 ^ 30 := rfl
  have hcnt := h.tbuf.cnt_le
  have hsz := h.tbuf.sz_le
  rw [growOrFlush_eq h.tbuf]
  split_ifs with hgrows hzero
  · exact .inl ⟨_, _, rfl⟩
  · right
    obtain ⟨final, w', hfini⟩ := ctFiniInfo_returns (w := w.reallocated)
      h.toWhole (finiWrites_of_full hfull h.toOk w.writes) depth
    refine ⟨w', bind_of_ok hfini, hzero, ?_⟩
    rw [(ctFiniInfo_ok hfull h.toOk hfini).2]
    rfl
  · left
    have hwrite := writeOut_run hfull stdoutFd h.tbuf_live (by omega)
      (ctFiniInfo env (depth + 1)) info w.reallocated
    exact ⟨_, _, bind_of_ok hwrite⟩

/-- The new text is taken into `cbuf`. -/
theorem addText_run (hfull : Full env) (depth : ℕ) (h : info.CsvOpen) {b : Buf}
    (hb : b.ptr = .live) (hbok : b.Ok) (hfits : b.cnt + line.length < b.sz) (w : World) :
    ∃ info' w', addText env depth line.length { info with tbuf := b.printed line } w =
        .ok info' w' ∧ info'.CsvOpen := by
  unfold addText
  rw [if_pos h.csv_open]
  obtain ⟨c, w', hrun, hc, hcok, -⟩ := csvLoop_run hfull depth (line.length + 2) b.cnt
    { info with tbuf := { b.printed line with cnt := b.cnt + line.length } } w h.cbuf_live h.cbuf
    (Nat.le_add_right _ _) ((csvFuel_le _ _).trans (by simp only; omega))
  refine ⟨_, w', hrun, h.update hb ?_ hfits hc hcok⟩
  exact ⟨hbok.not_freed, hfits.le, hbok.sz_pos, hbok.sz_dvd⟩

/-- A call with a line of at most the free space returns, or ends the process. -/
theorem ctAddLine_run (hfull : Full env) (depth : ℕ) (h : info.CsvOpen)
    (hle : line.length ≤ info.tbuf.sz - info.tbuf.cnt) (w : World) :
    (∃ info' w', ctAddLine env (depth + 1) info line w = .ok info' w' ∧ info'.CsvOpen) ∨
      ∃ w', ctAddLine env (depth + 1) info line w = .error .abort w' ∧
        (info.tbuf.cnt = 0 ∧ line.length = info.tbuf.sz) ∧
        bytesTo info.csvFd w' = (box info.csvFd w info.cbuf).text := by
  have hmax : maxBufLen = 2 ^ 30 := rfl
  have hroom := h.tbuf_room
  have hsz := h.tbuf.sz_le
  have hlen : line.length ≤ maxBufLen := by omega
  have hprinted : Info.CsvOpen { info with tbuf := info.tbuf.printed line } :=
    h.update h.tbuf_live
      ⟨h.tbuf.not_freed, h.tbuf.cnt_le, h.tbuf.sz_pos, h.tbuf.sz_dvd⟩ hroom h.cbuf_live h.cbuf
  rcases Nat.lt_or_eq_of_le (show info.tbuf.cnt + line.length ≤ info.tbuf.sz by omega)
    with hlt | heq
  · left
    obtain ⟨info', w', hadd, hopen⟩ :=
      addText_run hfull (depth + 1) h h.tbuf_live h.tbuf hlt w
    refine ⟨info', w', ?_, hopen⟩
    rw [ctAddLine_of_roomy (r := { info with tbuf := info.tbuf.printed line }) h.self
      h.tbuf_live hroom hsz hlen (h.tbuf.cnt_le.trans hsz)
      (makeRoom_roomy 1 { info with tbuf := info.tbuf.printed line } hroom hsz hlen hlt.ne w)]
    exact hadd
  · have hexhausted := (exhausted_iff hroom hsz hlen).mpr heq
    rcases growOrFlush_run hfull depth hprinted w with
      ⟨info₁, m, hgrow⟩ | ⟨w', habort, hzero, hbytes⟩
    · left
      obtain ⟨b, hmake, hbok, hb, -, hfits, -⟩ :=
        makeRoom_exhausted hfull h.toOk h.tbuf_live hlen heq hgrow
      obtain ⟨info', w', hadd, hopen⟩ := addText_run hfull (depth + 1) h hb hbok hfits m
      refine ⟨info', w', ?_, hopen⟩
      rw [ctAddLine_of_roomy h.self h.tbuf_live hroom hsz hlen
        (hbok.cnt_le.trans hbok.sz_le) hmake]
      exact hadd
    · right
      have hzero : info.tbuf.cnt = 0 := hzero
      refine ⟨w', ?_, ⟨hzero, by omega⟩, hbytes⟩
      rw [ctAddLine_eq h.self h.tbuf_live hroom hsz hlen]
      apply bind_of_error
      rw [makeRoom_again 1 { info with tbuf := info.tbuf.printed line } hexhausted]
      exact bind_of_error habort

/-- What was written to the csv file since `w`, followed by `cbuf`, is the conversion of the
lines. -/
def Converted (info : Info) (w : World) (lines : List (List Byte)) (info' : Info) (w' : World) :
    Prop :=
  bytesTo info.csvFd w' ++ info'.cbuf.contents =
    bytesTo info.csvFd w ++ lines.flatMap csvReference

/-- The calls return, with the lines converted, or one of them ends the process as its line fills
the empty `tbuf`, with the lines before it converted. -/
def ConvertsLines (env : Env) (depth : ℕ) (info : Info) (w : World) (lines : List (List Byte)) :
    Prop :=
  (∃ info' w', addLines env depth info lines w = .ok info' w' ∧
    Converted info w lines info' w') ∨
  ∃ pre line info' m w', pre ++ [line] <+: lines ∧
    addLines env depth info pre w = .ok info' m ∧
    ctAddLine env depth info' line m = .error .abort w' ∧
    (info'.tbuf.cnt = 0 ∧ line.length = info'.tbuf.sz) ∧
    bytesTo info.csvFd w' = bytesTo info.csvFd w ++ pre.flatMap csvReference

/-- A call of `ct_add_line` enters its loop on `t` with these values. -/
def CsvStart (env : Env) (depth : ℕ) (info : Info) (line : List Byte) (w : World) (t : ℕ)
    (info' : Info) (w' : World) : Prop :=
  ∃ printed m roomy, vsnprintf info.tbuf line w = .ok printed m ∧
    makeRoom env depth line 2 { info with tbuf := printed.1 } printed.2 m = .ok roomy w' ∧
    t = roomy.1.tbuf.cnt ∧
    info' = { roomy.1 with
      tbuf := { roomy.1.tbuf with cnt := uint64 (roomy.1.tbuf.cnt + roomy.2) } }

/-- `cbuf_cnt <= cbuf_sz` between the calls, and within them whenever the loop on `t` is tested
and after its inner loop. -/
def CbufBounded (env : Env) (depth : ℕ) (info : Info) (w : World) (lines : List (List Byte)) :
    Prop :=
  ∀ pre, pre <+: lines → ∀ info' m, addLines env depth info pre w = .ok info' m →
    info'.cbuf.cnt ≤ info'.cbuf.sz ∧
    ∀ line, pre ++ [line] <+: lines → ∀ t₀ info₀ w₀,
      CsvStart env depth info' line m t₀ info₀ w₀ →
      ∀ t i k, CsvHead env depth t₀ info₀ w₀ t i k → i.cbuf.cnt ≤ i.cbuf.sz ∧
        ∀ c t' k', csvFill i.tbuf (i.tbuf.cnt - t) t i.cbuf k = .ok (c, t') k' → c.cnt ≤ c.sz

variable {depth : ℕ}

/-- A call that returns follows the lines before with the conversion of its line. -/
theorem ctAddLine_converted (hfull : Full env) (h : info.CsvOpen)
    (hle : line.length ≤ info.tbuf.sz - info.tbuf.cnt) (hline : line.getLast? = some newline)
    (hcall : ctAddLine env (depth + 1) info line w = .ok info' w') :
    info'.CsvOpen ∧ info'.csvFd = info.csvFd ∧
      (box info.csvFd w' info'.cbuf).text =
        (box info.csvFd w info.cbuf).text ++ csvReference line := by
  have hsz := h.tbuf.sz_le
  have hadded := ctAddLine_added hfull h.toOk (by omega) hle hcall
  refine ⟨?_, hadded.csvFd, ?_⟩
  · rcases ctAddLine_run hfull depth h hle w with ⟨i, m, hrun, hopen⟩ | ⟨m, hrun, -⟩
    · obtain ⟨rfl, -⟩ : i = info' ∧ m = w' := by simpa using hrun.symm.trans hcall
      exact hopen
    · exact absurd (hrun.symm.trans hcall) (by simp)
  · rw [(hadded.csv h.csv_open).2, csvLine_eq_csvReference]
    intro c hc
    rw [hline] at hc
    exact (Option.some.inj hc).symm

theorem addLines_converted (hfull : Full env) (h : info.CsvOpen)
    (hlines : ∀ line ∈ lines, line.getLast? = some newline)
    (hfit : LinesFit env (depth + 1) info w lines)
    (hrun : addLines env (depth + 1) info lines w = .ok info' w') :
    info'.CsvOpen ∧ info'.csvFd = info.csvFd ∧
      (box info.csvFd w' info'.cbuf).text =
        (box info.csvFd w info.cbuf).text ++ lines.flatMap csvReference := by
  induction lines using List.reverseRecOn generalizing info' w' with
  | nil =>
    obtain ⟨rfl, rfl⟩ := pure_ok.mp hrun
    exact ⟨h, rfl, by simp⟩
  | append_singleton pre line ih =>
    obtain ⟨i, m, hpre, hcall⟩ := foldlM_snoc_ok.mp hrun
    obtain ⟨hi, hfd, htext⟩ := ih (fun l hl => hlines l (by simp [hl]))
      (fun p l hp => hfit p l (hp.trans (List.prefix_append _ _))) hpre
    have hle := hfit pre line List.prefix_rfl i m hpre hi.tbuf_live fun _ => hi.cbuf_live
    obtain ⟨hopen, hfd', htext'⟩ :=
      ctAddLine_converted hfull hi hle (hlines line (by simp)) hcall
    refine ⟨hopen, hfd'.trans hfd, ?_⟩
    rw [hfd] at htext'
    rw [htext', htext]
    simp

/-- The calls return, or one of them ends the process. -/
theorem addLines_end (hfull : Full env) (h : info.CsvOpen)
    (hlines : ∀ line ∈ lines, line.getLast? = some newline)
    (hfit : LinesFit env (depth + 1) info w lines) :
    (∃ info' w', addLines env (depth + 1) info lines w = .ok info' w') ∨
    ∃ pre line info' m w', pre ++ [line] <+: lines ∧
      addLines env (depth + 1) info pre w = .ok info' m ∧
      ctAddLine env (depth + 1) info' line m = .error .abort w' ∧
      (info'.tbuf.cnt = 0 ∧ line.length = info'.tbuf.sz) ∧
      bytesTo info'.csvFd w' = (box info'.csvFd m info'.cbuf).text := by
  induction lines using List.reverseRecOn with
  | nil => exact .inl ⟨info, w, rfl⟩
  | append_singleton pre line ih =>
    have hlines' : ∀ l ∈ pre, l.getLast? = some newline := fun l hl => hlines l (by simp [hl])
    have hfit' : LinesFit env (depth + 1) info w pre :=
      fun p l hp => hfit p l (hp.trans (List.prefix_append _ _))
    rcases ih hlines' hfit' with ⟨i, m, hpre⟩ | ⟨p, l, i, m, w', hp, hrest⟩
    · have hi := (addLines_converted hfull h hlines' hfit' hpre).1
      have hle := hfit pre line List.prefix_rfl i m hpre hi.tbuf_live fun _ => hi.cbuf_live
      rcases ctAddLine_run hfull depth hi hle m with ⟨i', w', hcall, -⟩ | ⟨w', habort⟩
      · exact .inl ⟨i', w', foldlM_snoc_ok.mpr ⟨i, m, hpre, hcall⟩⟩
      · exact .inr ⟨pre, line, i, m, w', List.prefix_rfl, hpre, habort⟩
    · exact .inr ⟨p, l, i, m, w', hp.trans (List.prefix_append _ _), hrest⟩

/-- The loop on `t` starts where the line was stored, with `cbuf` as it was. -/
theorem CsvStart.start (hfull : Full env) (h : info.CsvOpen)
    (hle : line.length ≤ info.tbuf.sz - info.tbuf.cnt) {t : ℕ}
    (hstart : CsvStart env depth info line w t info' w') :
    info'.cbuf = info.cbuf ∧ t ≤ info'.tbuf.cnt := by
  have hmax : maxBufLen = 2 ^ 30 := rfl
  have hsz := h.tbuf.sz_le
  have hroom := h.tbuf_room
  obtain ⟨printed, m, roomy, hprint, hmake, rfl, rfl⟩ := hstart
  obtain ⟨rfl, rfl⟩ : _ = printed ∧ w = m := by
    simpa using (vsnprintf_live h.tbuf_live hroom (by omega) (by omega) w).symm.trans hprint
  obtain ⟨b, rfl, hbok, -, -, hfits, -⟩ :=
    makeRoom_fits hfull h.toOk h.tbuf_live (by omega) (by omega) hmake
  have hbsz := hbok.sz_le
  refine ⟨rfl, ?_⟩
  change b.cnt ≤ uint64 (b.cnt + (line.length : ℤ))
  rw [← Nat.cast_add, uint64_natCast (by omega)]
  exact Nat.le_add_right _ _

theorem cbufBounded (hfull : Full env) (h : info.CsvOpen)
    (hlines : ∀ line ∈ lines, line.getLast? = some newline)
    (hfit : LinesFit env (depth + 1) info w lines) :
    CbufBounded env (depth + 1) info w lines := by
  intro pre hpre info' m hrun
  have hopen := (addLines_converted hfull h (fun l hl => hlines l (hpre.subset hl))
    (fun p l hp => hfit p l (hp.trans hpre)) hrun).1
  refine ⟨hopen.cbuf.cnt_le, ?_⟩
  intro line hline t₀ info₀ w₀ hstart t i k hhead
  have hle := hfit pre line hline info' m hrun hopen.tbuf_live fun _ => hopen.cbuf_live
  obtain ⟨hcbuf, ht⟩ := hstart.start hfull hopen hle
  have hat := hhead.atHead (hcbuf ▸ hopen.cbuf_live) (hcbuf ▸ hopen.cbuf) ht
  refine ⟨hat.ok.cnt_le, ?_⟩
  intro c t' k' hfill
  obtain ⟨c₁, t₁, hfill₁, hf⟩ := csvFill_run hat.ptr hat.ok.cnt_le i.tbuf (i.tbuf.cnt - t) t k
  obtain ⟨⟨rfl, rfl⟩, -⟩ : (c₁ = c ∧ t₁ = t') ∧ k = k' := by
    simpa using hfill₁.symm.trans hfill
  exact hf.cnt_le

/-- From any `info` of `ct_init_info` with its buffers and an open csv file, a sequence of lines
that end in a newline and fit is converted whatever buffers grow. -/
theorem addLines_csvReference (env : Env) (hfull : Full env) (depth : ℕ)
    (testName csvPath : Option (List Byte)) (w₀ w : World) (info : Info)
    (hinit : ctInitInfo env (depth + 1) testName csvPath w₀ = .ok (some info) w)
    (htbuf : info.tbuf.ptr = .live) (hcbuf : info.cbuf.ptr = .live) (hopen : info.csvFd ≠ -1)
    (lines : List (List Byte)) (hlines : ∀ line ∈ lines, line.getLast? = some newline)
    (hfit : LinesFit env (depth + 1) info w lines) :
    ConvertsLines env (depth + 1) info w lines ∧
      CbufBounded env (depth + 1) info w lines := by
  obtain ⟨hok, -, hcnt⟩ := ctInitInfo_ok hinit
  have hwhole := ctInitInfo_whole hinit
  have h : info.CsvOpen :=
    { toOk := hok
      testName := hwhole.testName
      csvPath := hwhole.csvPath
      csvHeader := hwhole.csvHeader
      tbuf_live := htbuf
      cbuf_live := hcbuf
      csv_open := hopen }
  have hempty : info.cbuf.contents = [] := contents_eq_nil_iff.mpr hcnt
  refine ⟨?_, cbufBounded hfull h hlines hfit⟩
  rcases addLines_end hfull h hlines hfit with
    ⟨info', w', hrun⟩ | ⟨pre, line, info', m, w', hpre, hrun, hcall, hfills, hbytes⟩
  · left
    have htext := (addLines_converted hfull h hlines hfit hrun).2.2
    refine ⟨info', w', hrun, ?_⟩
    simpa [box, Box.text, hempty, Converted] using htext
  · right
    have hpre' : pre <+: lines := (List.prefix_append _ _).trans hpre
    obtain ⟨-, hfd, htext⟩ := addLines_converted hfull h (fun l hl => hlines l (hpre'.subset hl))
      (fun p l hp => hfit p l (hp.trans hpre')) hrun
    refine ⟨pre, line, info', m, w', hpre, hrun, hcall, hfills, ?_⟩
    rw [hfd] at hbytes
    rw [hbytes, htext]
    simp [box, Box.text, hempty]

/-- A line that fills a `tbuf` that grows leaves as much room as the buffer had. -/
theorem ctAddLine_grown (hfull : Full env) (hok : info.Ok) (hp : info.tbuf.ptr = .live)
    (heq : info.tbuf.cnt + line.length = info.tbuf.sz) (hgrows : Grows env info.tbuf w.reallocs)
    (h : ctAddLine env depth info line w = .ok info' w') :
    info'.tbuf.sz - info'.tbuf.cnt = info.tbuf.sz := by
  have hmax : maxBufLen = 2 ^ 30 := rfl
  have hroom := hok.tbuf_room
  have hsz := hok.tbuf.sz_le
  have htwice := hgrows.1
  have hprinted : (info.tbuf.printed line).Ok :=
    ⟨hok.tbuf.not_freed, hok.tbuf.cnt_le, hok.tbuf.sz_pos, hok.tbuf.sz_dvd⟩
  let b : Buf := { info.tbuf.printed line with ptr := .live, sz := 2 * info.tbuf.sz }
  have hgrow : growOrFlush env depth { info with tbuf := info.tbuf.printed line } w =
      .ok { info with tbuf := b } w.reallocated := by
    rw [growOrFlush_eq hprinted]
    exact congrFun (if_pos hgrows) w.reallocated
  have hbok : b.Ok := ⟨by simp [b], by change info.tbuf.cnt ≤ 2 * info.tbuf.sz; omega,
    by change 0 < 2 * info.tbuf.sz; omega, hgrows.dvd (by omega) hok.tbuf.sz_dvd⟩
  have hfits : b.cnt + line.length < b.sz := by
    change info.tbuf.cnt + line.length < 2 * info.tbuf.sz
    omega
  have hmake := makeRoom_grown hroom hsz (by omega) heq hgrow rfl (by omega)
    hbok.sz_le hfits.ne
  rw [ctAddLine_of_roomy (r := { info with tbuf := b.printed line }) hok.self hp hroom hsz
    (by omega) (hbok.cnt_le.trans hbok.sz_le) hmake] at h
  obtain ⟨-, -, htbuf, -⟩ := addText_ok hfull hok rfl hbok hfits h
  rw [htbuf]
  change 2 * info.tbuf.sz - (info.tbuf.cnt + line.length) = _
  omega

theorem linesFit_nil : LinesFit env depth info w [] := fun pre line h => by
  have := h.length_le
  simp at this

theorem linesFit_cons (hline : Fits info line)
    (hlines : ∀ info' w', ctAddLine env depth info line w = .ok info' w' →
      LinesFit env depth info' w' lines) : LinesFit env depth info w (line :: lines) := by
  intro pre l hpre info' w' hrun
  cases pre with
  | nil =>
    obtain ⟨rfl, -⟩ := pure_ok.mp hrun
    obtain ⟨rfl, -⟩ := List.cons_prefix_cons.mp hpre
    exact hline
  | cons first pre =>
    obtain ⟨rfl, hrest⟩ := List.cons_prefix_cons.mp hpre
    obtain ⟨i, m, hcall, hrun⟩ := bind_ok.mp hrun
    exact hlines i m hcall pre l hrest info' w' hrun

/-- The csv file is opened and every write succeeds, but memory can be had only once. -/
def scarceEnv : Env :=
  { plainEnv with openRet := .opened 5 (by decide), reallocOk := fun i => i == 0 }

/-- Fills an empty `tbuf`, with `4000` bytes of csv text. -/
def paddedLine : List Byte := List.replicate 3999 97 ++ List.replicate 96 32 ++ [newline]

/-- Fills `cbuf` with the comma for its blanks. -/
def wordsLine : List Byte := List.replicate 95 97 ++ [32, 32, 32, 98] ++ [newline]

/-- After the first line `tbuf` has grown; in the second one `cbuf` cannot grow and is flushed
between the blanks and the next word. -/
theorem addLines_csvReference_words :
    ConvertsLines scarceEnv 1 (freshInfo scarceEnv .live .live .live 5) plainWorld
        [paddedLine, wordsLine] ∧
      CbufBounded scarceEnv 1 (freshInfo scarceEnv .live .live .live 5) plainWorld
        [paddedLine, wordsLine] := by
  have hfull : Full scarceEnv := fun _ _ => rfl
  have hinit : ctInitInfo scarceEnv 1 (some [116]) (some [99]) blankWorld =
      .ok (some (freshInfo scarceEnv .live .live .live 5)) plainWorld := rfl
  have hpadded : paddedLine.length = initBufLen := by
    rw [paddedLine, List.length_append, List.length_append, List.length_replicate,
      List.length_replicate]
    rfl
  apply addLines_csvReference scarceEnv hfull 0 (some [116]) (some [99]) blankWorld
  · exact hinit
  · rfl
  · rfl
  · decide
  · intro line hline
    rcases List.mem_pair.mp hline with rfl | rfl
    · exact List.getLast?_concat
    · exact List.getLast?_concat
  · refine linesFit_cons (fun _ _ => hpadded.le) fun info' w' hcall => ?_
    refine linesFit_cons (fun _ _ => ?_) fun _ _ _ => linesFit_nil
    have hexact : (freshInfo scarceEnv .live .live .live 5).tbuf.cnt + paddedLine.length =
        initBufLen := by
      rw [hpadded]
      rfl
    have hroom : info'.tbuf.sz - info'.tbuf.cnt = initBufLen :=
      ctAddLine_grown hfull (ctInitInfo_ok hinit).1 rfl hexact (by decide) hcall
    rw [hroom]
    decide

example : csvReference [97, 32, 32, 98, newline] = [97, comma, 98, newline] := by
  rw [← csvLine_eq_csvReference (by decide)]
  decide

end CrayTests.PrintUtils
