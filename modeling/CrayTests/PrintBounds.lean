import CrayTests.PrintLines

/-!
# The table buffer over a sequence of added lines

`ct_add_line` keeps its count within the buffer and loses no text as long as each line is at
most the free space of `tbuf`. A longer line does not exhaust the buffer in the sense of the
test, which compares for equality: the call stores a part of it and counts all of it.
-/

namespace CrayTests.PrintUtils

open CInteger Outbox StateContract

def addLines (env : Env) (depth : ℕ) (info : Info) (lines : List (List Byte)) : Run Info :=
  lines.foldlM (ctAddLine env depth) info

/-- The count is within the buffer, and the text written since `w` and the contents of the
buffer are the lines. -/
def Intact (w : World) (lines : List (List Byte)) (info : Info) (w' : World) : Prop :=
  info.tbuf.cnt ≤ info.tbuf.sz ∧
    bytesTo stdoutFd w' ++ info.tbuf.contents = bytesTo stdoutFd w ++ lines.flatten

/-- The line is at most the free space. A call that lacks a buffer it stores to does not
return. -/
def Fits (info : Info) (line : List Byte) : Prop :=
  info.tbuf.ptr = .live → (info.csvFd ≠ -1 → info.cbuf.ptr = .live) →
    line.length ≤ info.tbuf.sz - info.tbuf.cnt

def StaysIntact (env : Env) (depth : ℕ) (info : Info) (w : World) (lines : List (List Byte)) :
    Prop :=
  ∀ pre, pre <+: lines → ∀ info' w', addLines env depth info pre w = .ok info' w' →
    Intact w pre info' w'

/-- Every line fits in the state before its call. -/
def LinesFit (env : Env) (depth : ℕ) (info : Info) (w : World) (lines : List (List Byte)) :
    Prop :=
  ∀ pre line, pre ++ [line] <+: lines → ∀ info' w',
    addLines env depth info pre w = .ok info' w' → Fits info' line

variable {env : Env} {depth : ℕ} {info info' : Info} {line : List Byte}
  {lines : List (List Byte)} {w w' : World}

theorem foldlM_snoc_ok {α : Type} {f : Info → α → Run Info} {xs : List α} {x : α} :
    (xs ++ [x]).foldlM f info w = .ok info' w' ↔
      ∃ i m, xs.foldlM f info w = .ok i m ∧ f i x m = .ok info' w' := by
  rw [List.foldlM_append, bind_ok]
  simp

theorem malloc_ok {p : Ptr} (h : malloc env w = .ok p w') : p ≠ .freed := by
  unfold malloc at h
  simp only [EStateM.Result.ok.injEq] at h
  rw [← h.1]
  split_ifs <;> decide

theorem openCsv_ok {csvPath : Option (List Byte)}
    (h : openCsv env csvPath info w = .ok info' w') (hpath : info.csvPath ≠ .freed)
    (hfd : info.csvFd ≠ stdoutFd) :
    ∃ c fd, c ≠ .freed ∧ fd ≠ stdoutFd ∧ info' = { info with csvPath := c, csvFd := fd } := by
  cases csvPath with
  | none =>
    obtain ⟨rfl, -⟩ := pure_ok.mp h
    exact ⟨info.csvPath, info.csvFd, hpath, hfd, rfl⟩
  | some path =>
    obtain ⟨c, m, hmalloc, h⟩ := bind_ok.mp h
    obtain ⟨rfl, -⟩ := pure_ok.mp h
    refine ⟨c, env.openRet.fd, malloc_ok hmalloc, ?_, rfl⟩
    cases env.openRet with
    | opened fd hfd => exact hfd
    | noEntry => decide
    | failed => decide

def freshInfo (env : Env) (csvPath tbuf cbuf : Ptr) (fd : ℤ) : Info where
  self := .live
  testName := .live
  csvPath := csvPath
  csvHeader := .null
  tbuf := { ptr := tbuf, data := env.tbufData, sz := initBufLen, cnt := 0 }
  cbuf := { ptr := cbuf, data := env.cbufData, sz := initBufLen, cnt := 0 }
  csvFd := fd

theorem ctInitInfo_fresh {testName csvPath : Option (List Byte)}
    (h : ctInitInfo env depth testName csvPath w = .ok (some info) w') :
    ∃ c p q fd, c ≠ .freed ∧ p ≠ .freed ∧ q ≠ .freed ∧ fd ≠ stdoutFd ∧
      info = freshInfo env c p q fd := by
  obtain ⟨self, m, -, h⟩ := bind_ok.mp h
  by_cases hself : self = .null
  · rw [if_pos hself] at h
    exact absurd h throw_ok
  rw [if_neg hself] at h
  cases testName with
  | none =>
    obtain ⟨_, _, -, hnone⟩ := bind_ok.mp h
    simp at hnone
  | some name =>
    obtain ⟨p, _, -, h⟩ := bind_ok.mp h
    obtain ⟨_, _, hname, h⟩ := bind_ok.mp h
    obtain ⟨rfl, rfl⟩ := deref_ok.mp hname
    obtain ⟨_, _, -, h⟩ := bind_ok.mp h
    obtain ⟨_, _, -, h⟩ := bind_ok.mp h
    obtain ⟨i, _, hopen, h⟩ := bind_ok.mp h
    obtain ⟨c, fd, hc, hfd, rfl⟩ := openCsv_ok hopen (show Ptr.null ≠ .freed by decide)
      (show (0 : ℤ) ≠ stdoutFd by decide)
    by_cases hfailed : csvPath.isSome ∧ env.openRet = .failed
    · rw [if_pos hfailed] at h
      obtain ⟨_, _, -, hnone⟩ := bind_ok.mp h
      simp at hnone
    · rw [if_neg hfailed] at h
      obtain ⟨j, _, halloc, h⟩ := bind_ok.mp h
      obtain ⟨hj, -⟩ := pure_ok.mp h
      obtain rfl := Option.some.inj hj
      obtain ⟨p, _, hp, halloc⟩ := bind_ok.mp halloc
      obtain ⟨q, _, hq, halloc⟩ := bind_ok.mp halloc
      obtain ⟨rfl, -⟩ := pure_ok.mp halloc
      exact ⟨c, p, q, fd, hc, malloc_ok hp, malloc_ok hq, hfd, rfl⟩

theorem ctInitInfo_ok {testName csvPath : Option (List Byte)}
    (h : ctInitInfo env depth testName csvPath w = .ok (some info) w') :
    info.Ok ∧ info.tbuf.cnt = 0 ∧ info.cbuf.cnt = 0 := by
  obtain ⟨c, p, q, fd, -, hp, hq, hfd, rfl⟩ := ctInitInfo_fresh h
  have hpos : 0 < initBufLen := by decide
  have hsize : initBufLen ∣ maxBufLen := by decide
  refine ⟨?_, rfl, rfl⟩
  exact
    { self := rfl
      tbuf := ⟨hp, Nat.zero_le _, hpos, hsize⟩
      tbuf_room := hpos
      tbuf_empty := fun _ => rfl
      cbuf := ⟨hq, Nat.zero_le _, hpos, hsize⟩
      cbuf_empty := fun _ => rfl
      csv_closed := fun _ => rfl
      csvFd_ne := hfd }

theorem Fits.le (hfits : Fits info line) (hok : info.Ok) (hlen : line.length < maxBufLen)
    (h : ctAddLine env depth info line w = .ok info' w') :
    line.length ≤ info.tbuf.sz - info.tbuf.cnt := by
  by_contra hlong
  apply hlong
  apply hfits (live_of_ctAddLine hok h)
  intro hfd
  exact cbuf_live_of_long hok hlen.le (by omega) hfd h

/-- A call that returns within the bounds was given a line that fits. -/
theorem fits_of_bounds (hfull : Full env) (hok : info.Ok) (hlen : line.length < maxBufLen)
    (h : ∀ info' w', ctAddLine env depth info line w = .ok info' w' →
      info'.tbuf.cnt ≤ info'.tbuf.sz) : Fits info line := by
  intro hp hc
  by_contra hlong
  obtain ⟨info', w', hrun, hover⟩ := ctAddLine_overflows hfull depth hok hp hc hlen.le (by omega) w
  have := h info' w' hrun
  omega

/-- Lines that fit are all in the table, in their order. -/
theorem addLines_text (hfull : Full env) (hok : info.Ok)
    (hlen : ∀ line ∈ lines, line.length < maxBufLen)
    (hfit : LinesFit env depth info w lines)
    (h : addLines env depth info lines w = .ok info' w') :
    info'.Ok ∧ (box stdoutFd w' info'.tbuf).text =
      (box stdoutFd w info.tbuf).text ++ lines.flatten := by
  induction lines using List.reverseRecOn generalizing info' w' with
  | nil =>
    obtain ⟨rfl, rfl⟩ := pure_ok.mp h
    exact ⟨hok, by simp⟩
  | append_singleton pre line ih =>
    obtain ⟨i, m, hpre, hcall⟩ := foldlM_snoc_ok.mp h
    obtain ⟨hi, htext⟩ := ih (fun l hl => hlen l (by simp [hl]))
      (fun p l hp => hfit p l (hp.trans (List.prefix_append _ _))) hpre
    have hline : line.length < maxBufLen := hlen line (by simp)
    have hle := (hfit pre line List.prefix_rfl i m hpre).le hi hline hcall
    have hadded := ctAddLine_added hfull hi hline.le hle hcall
    refine ⟨hadded.ok, ?_⟩
    rw [hadded.table.1.2, htext]
    simp

theorem linesFit_of_bounds (hfull : Full env) (hok : info.Ok)
    (hlen : ∀ line ∈ lines, line.length < maxBufLen)
    (h : ∀ pre, pre <+: lines → ∀ info' w', addLines env depth info pre w = .ok info' w' →
      info'.tbuf.cnt ≤ info'.tbuf.sz) : LinesFit env depth info w lines := by
  induction lines using List.reverseRecOn with
  | nil =>
    intro pre line hpre
    simp at hpre
  | append_singleton pre line ih =>
    have hpre := ih (fun l hl => hlen l (by simp [hl]))
      (fun p hp => h p (hp.trans (List.prefix_append _ _)))
    intro p l hpl i m hrun
    rcases List.prefix_concat_iff.mp hpl with heq | hlt
    · -- the last line: the calls before it left the buffers in order
      obtain ⟨rfl, hl⟩ := List.append_inj' heq rfl
      obtain rfl := List.singleton_inj.mp hl
      have hi := (addLines_text hfull hok (fun l hl => hlen l (by simp [hl])) hpre hrun).1
      apply fits_of_bounds hfull hi (hlen l (by simp))
      intro info' w' hcall
      exact h (p ++ [l]) List.prefix_rfl info' w' (foldlM_snoc_ok.mpr ⟨i, m, hrun, hcall⟩)
    · exact hpre p l hlt i m hrun

/-- From any `info` of `ct_init_info`, a sequence of calls keeps the bounds of `tbuf` and the
text of the lines exactly when every line fits the free space before its call. -/
theorem addLines_staysIntact_iff (env : Env) (hfull : Full env) (depth : ℕ)
    (testName csvPath : Option (List Byte)) (w₀ w : World) (info : Info)
    (hinit : ctInitInfo env depth testName csvPath w₀ = .ok (some info) w)
    (lines : List (List Byte)) (hlen : ∀ line ∈ lines, line.length < maxBufLen) :
    StaysIntact env depth info w lines ↔ LinesFit env depth info w lines := by
  obtain ⟨hok, hcnt, -⟩ := ctInitInfo_ok hinit
  have hempty : info.tbuf.contents = [] := contents_eq_nil_iff.mpr hcnt
  constructor
  · intro h
    apply linesFit_of_bounds hfull hok hlen
    intro pre hpre info' w' hrun
    exact (h pre hpre info' w' hrun).1
  · intro h pre hpre info' w' hrun
    obtain ⟨hok', htext⟩ := addLines_text hfull hok (fun l hl => hlen l (hpre.subset hl))
      (fun p l hp => h p l (hp.trans hpre)) hrun
    refine ⟨hok'.tbuf.cnt_le, ?_⟩
    simpa [box, Box.text, hempty] using htext

/-- Every call of the library succeeds, and the csv file does not exist. -/
def plainEnv : Env where
  writeRet _ n := n
  mallocOk _ := true
  reallocOk _ := true
  openRet := .noEntry
  tbufData _ := 0
  cbufData _ := 0

def blankWorld : World := ⟨0, 0, 0, [], []⟩

def plainInfo : Info where
  self := .live
  testName := .live
  csvPath := .live
  csvHeader := .null
  tbuf := { ptr := .live, data := plainEnv.tbufData, sz := initBufLen, cnt := 0 }
  cbuf := { ptr := .live, data := plainEnv.cbufData, sz := initBufLen, cnt := 0 }
  csvFd := -1

def plainWorld : World := ⟨1, 5, 0, [(stdoutFd, [116, newline])], []⟩

theorem ctInitInfo_plain :
    ctInitInfo plainEnv 2 (some [116]) (some [99]) blankWorld = .ok (some plainInfo) plainWorld :=
  rfl

theorem addLines_staysIntact_pair :
    StaysIntact plainEnv 2 plainInfo plainWorld [[97, newline], [98, newline]] ↔
      LinesFit plainEnv 2 plainInfo plainWorld [[97, newline], [98, newline]] := by
  apply addLines_staysIntact_iff plainEnv (fun _ _ => rfl) 2 (some [116]) (some [99]) blankWorld
    plainWorld plainInfo ctInitInfo_plain
  decide

def longLine : List Byte := List.replicate 4999 97 ++ [newline]

/-- A first line of 5000 bytes leaves the count beyond the buffer. -/
theorem not_staysIntact_longLine :
    Full plainEnv ∧ longLine.length < maxBufLen ∧
      ctInitInfo plainEnv 2 (some [116]) (some [99]) blankWorld =
        .ok (some plainInfo) plainWorld ∧
      ¬ StaysIntact plainEnv 2 plainInfo plainWorld [longLine] := by
  have hlen : longLine.length = 5000 := by
    rw [longLine, List.length_append, List.length_replicate]
    rfl
  refine ⟨fun _ _ => rfl, by rw [hlen]; decide, ctInitInfo_plain, ?_⟩
  intro h
  have hok : plainInfo.Ok := (ctInitInfo_ok ctInitInfo_plain).1
  obtain ⟨info', w', hrun, hover⟩ := ctAddLine_overflows
    (show Full plainEnv from fun _ _ => rfl) 2 hok rfl (fun _ => rfl) (by rw [hlen]; decide)
    (by rw [hlen]; decide) plainWorld
  have hcall : addLines plainEnv 2 plainInfo [longLine] plainWorld = .ok info' w' :=
    bind_ok.mpr ⟨info', w', hrun, rfl⟩
  have := (h _ List.prefix_rfl info' w' hcall).1
  omega

end CrayTests.PrintUtils
