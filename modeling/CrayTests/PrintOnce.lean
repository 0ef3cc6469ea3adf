import CrayTests.PrintBounds

/-!
# Runs of the print utilities

A run is `ct_init_info`, calls of `ct_add_line` and `ct_print_data`, and `ct_fini_info`.
`ct_print_data` writes the buffers and leaves their counts, so that what it wrote is written
again by the next flush: each line is output once exactly when nothing was added before any
call of `ct_print_data`.
-/

namespace CrayTests.PrintUtils

open CInteger Outbox StateContract

inductive Op
  | addLine (line : List Byte)
  | printData

def runOp (env : Env) (depth : ℕ) (info : Info) : Op → Run Info
  | .addLine line => ctAddLine env depth info line
  | .printData => do
    ctPrintData env depth info
    pure info

def runOps (env : Env) (depth : ℕ) (info : Info) (ops : List Op) : Run Info :=
  ops.foldlM (runOp env depth) info

def Op.line : Op → List Byte
  | .addLine line => line
  | .printData => []

def addedText (ops : List Op) : List Byte := ops.flatMap Op.line

def addedCsv (ops : List Op) : List Byte := ops.flatMap fun op => csvLine op.line

def Op.tableCall : Op → Call Byte
  | .addLine line => .add line
  | .printData => .send

def Op.csvCall : Op → Call Byte
  | .addLine line => .add (csvLine line)
  | .printData => .send

/-- Every line of the run is at most the free space of `tbuf` before its call. -/
def OpsFit (env : Env) (depth : ℕ) (info : Info) (w : World) (ops : List Op) : Prop :=
  ∀ pre line post, ops = pre ++ .addLine line :: post → ∀ info' w',
    runOps env depth info pre w = .ok info' w' →
    line.length ≤ info'.tbuf.sz - info'.tbuf.cnt

/-- The table and, where `csv_fd` is open, the csv file got each line once. -/
def OutputOnce (info : Info) (w : World) (ops : List Op) (w' : World) : Prop :=
  bytesTo stdoutFd w' = bytesTo stdoutFd w ++ addedText ops ∧
    (info.csvFd ≠ -1 → bytesTo info.csvFd w' = bytesTo info.csvFd w ++ addedCsv ops)

def PrintsNothing (ops : List Op) : Prop :=
  ∀ pre post, ops = pre ++ .printData :: post → addedText pre = []

variable {env : Env} {depth : ℕ} {info info' : Info} {ops : List Op} {w w' : World}

theorem added_tableCall (ops : List Op) : added (ops.map Op.tableCall) = addedText ops := by
  unfold added addedText
  rw [List.flatMap_map]
  apply List.flatMap_congr
  intro op _
  cases op <;> rfl

theorem added_csvCall (ops : List Op) : added (ops.map Op.csvCall) = addedCsv ops := by
  unfold added addedCsv
  rw [List.flatMap_map]
  apply List.flatMap_congr
  intro op _
  cases op <;> rfl

theorem addedCsv_eq_nil (h : addedText ops = []) : addedCsv ops = [] := by
  rw [addedText, List.flatMap_eq_nil_iff] at h
  rw [addedCsv, List.flatMap_eq_nil_iff]
  intro op hop
  rw [h op hop]
  rfl

/-- A `send` among the calls of a run stands for a `ct_print_data`. -/
theorem noResend_map {f : Op → Call Byte} (hf : ∀ op, f op = .send ↔ op = .printData) :
    NoResend (ops.map f) ↔
      ∀ pre post, ops = pre ++ .printData :: post → added (pre.map f) = [] := by
  constructor
  · rintro h pre post rfl
    apply h (pre.map f) (post.map f)
    rw [List.map_append, List.map_cons, (hf .printData).mpr rfl]
  · intro h pre post heq
    obtain ⟨p, q, rfl, rfl, hq⟩ := List.map_eq_append_iff.mp heq
    obtain ⟨op, q, rfl, hop, rfl⟩ := List.map_eq_cons_iff.mp hq
    obtain rfl := (hf op).mp hop
    exact h p q rfl

theorem noResend_tableCall : NoResend (ops.map Op.tableCall) ↔ PrintsNothing ops := by
  rw [noResend_map (fun op => by cases op <;> simp [Op.tableCall])]
  simp only [added_tableCall]
  rfl

theorem PrintsNothing.noResend_csvCall (h : PrintsNothing ops) :
    NoResend (ops.map Op.csvCall) := by
  rw [noResend_map (fun op => by cases op <;> simp [Op.csvCall])]
  intro pre post heq
  rw [added_csvCall]
  exact addedCsv_eq_nil (h pre post heq)

/-- The only bytes written between `w` and `w'` are `bytes`, to `fd`. -/
def Wrote (fd : ℤ) (bytes : List Byte) (w w' : World) : Prop :=
  ∀ g, bytesTo g w' = bytesTo g w ++ if fd = g then bytes else []

theorem wrote_nothing (fd : ℤ) {b : Buf} (h : b.cnt = 0) (w : World) :
    Wrote fd b.contents w w := by
  intro g
  rw [contents_eq_nil_iff.mpr h]
  simp

theorem writeOut_ok (hfull : Full env) {b : Buf} (hok : b.Ok)
    (hempty : b.ptr ≠ .live → b.cnt = 0) {fini : Info → Run Info} {fd : ℤ} {u : Unit}
    (hcnt : b.cnt ≠ 0) (h : writeOut env fini fd b info w = .ok u w') :
    Wrote fd b.contents w w' := by
  have hmax : maxBufLen = 2 ^ 30 := rfl
  have hle := hok.cnt_le
  have hsz := hok.sz_le
  have hp : b.ptr = .live := by
    by_contra hne
    exact hcnt (hempty hne)
  rw [writeOut_run hfull fd hp (by omega)] at h
  obtain rfl : w.wrote fd b.contents = w' := by simpa using h
  intro g
  exact bytesTo_wrote g fd w b.contents

theorem printTable_ok (hfull : Full env) (hok : info.Ok) {u : Unit}
    (h : printTable env depth info w = .ok u w') :
    Wrote stdoutFd info.tbuf.contents w w' := by
  unfold printTable at h
  by_cases hcnt : info.tbuf.cnt = 0
  · rw [if_neg (not_not_intro hcnt)] at h
    obtain ⟨-, rfl⟩ := pure_ok.mp h
    exact wrote_nothing _ hcnt w
  · rw [if_pos hcnt] at h
    exact writeOut_ok hfull hok.tbuf hok.tbuf_empty hcnt h

theorem printCsv_ok (hfull : Full env) (hok : info.Ok) {u : Unit}
    (h : printCsv env depth info w = .ok u w') : Wrote info.csvFd info.cbuf.contents w w' := by
  unfold printCsv at h
  by_cases hcnt : info.cbuf.cnt = 0
  · rw [if_neg (fun hc => hc.2 hcnt)] at h
    obtain ⟨-, rfl⟩ := pure_ok.mp h
    exact wrote_nothing _ hcnt w
  · have hfd : info.csvFd ≠ -1 := fun hfd => hcnt (hok.csv_closed hfd)
    rw [if_pos ⟨hfd, hcnt⟩] at h
    exact writeOut_ok hfull hok.cbuf hok.cbuf_empty hcnt h

/-- `ct_print_data` sends the contents of both buffers. -/
theorem ctPrintData_ok (hfull : Full env) (hok : info.Ok) {u : Unit}
    (h : ctPrintData env depth info w = .ok u w') :
    Step (box stdoutFd w info.tbuf) .send (box stdoutFd w' info.tbuf) ∧
      Step (box info.csvFd w info.cbuf) .send (box info.csvFd w' info.cbuf) := by
  obtain ⟨_, m, hself, h⟩ := bind_ok.mp h
  obtain ⟨-, rfl⟩ := deref_ok.mp hself
  obtain ⟨_, k, htable, hcsv⟩ := bind_ok.mp h
  have ht := printTable_ok hfull hok htable
  have hc := printCsv_ok hfull hok hcsv
  constructor
  · simp [Step, box, hc _, ht _, hok.csvFd_ne]
  · simp [Step, box, hc _, ht _, Ne.symm hok.csvFd_ne]

theorem free_ok {p q : Ptr} (h : free p w = .ok q w') : w' = w := by
  cases p with
  | null => exact (pure_ok.mp h).2.symm
  | live => exact (pure_ok.mp h).2.symm
  | freed => exact absurd h throw_ok

theorem finiTbuf_ok (hfull : Full env) {fini : Info → Run Info}
    (h : finiTbuf env fini info w = .ok info' w') (hok : info.tbuf.Ok)
    (hempty : info.tbuf.ptr ≠ .live → info.tbuf.cnt = 0) :
    Wrote stdoutFd info.tbuf.contents w w' ∧ info'.cbuf = info.cbuf ∧
      info'.csvFd = info.csvFd := by
  unfold finiTbuf at h
  by_cases hcnt : info.tbuf.cnt = 0
  · rw [if_neg (fun hc => hc.1 hcnt)] at h
    obtain ⟨rfl, rfl⟩ := pure_ok.mp h
    exact ⟨wrote_nothing _ hcnt w, rfl, rfl⟩
  · have hp : info.tbuf.ptr ≠ .null := by
      intro hnull
      apply hcnt
      apply hempty
      rw [hnull]
      decide
    rw [if_pos ⟨hcnt, hp⟩] at h
    obtain ⟨_, m, hwrite, h⟩ := bind_ok.mp h
    obtain ⟨_, k, hfree, h⟩ := bind_ok.mp h
    obtain ⟨rfl, rfl⟩ := pure_ok.mp h
    obtain rfl := free_ok hfree
    exact ⟨writeOut_ok hfull hok hempty hcnt hwrite, rfl, rfl⟩

theorem finiCbuf_ok (hfull : Full env) {fini : Info → Run Info}
    (h : finiCbuf env fini info w = .ok info' w') (hok : info.cbuf.Ok)
    (hempty : info.cbuf.ptr ≠ .live → info.cbuf.cnt = 0) :
    Wrote info.csvFd info.cbuf.contents w w' := by
  unfold finiCbuf at h
  by_cases hcnt : info.cbuf.cnt = 0
  · rw [if_neg (not_not_intro hcnt)] at h
    obtain ⟨-, rfl⟩ := pure_ok.mp h
    exact wrote_nothing _ hcnt w
  · rw [if_pos hcnt] at h
    obtain ⟨_, m, hwrite, h⟩ := bind_ok.mp h
    obtain ⟨_, k, hfree, h⟩ := bind_ok.mp h
    obtain ⟨-, rfl⟩ := pure_ok.mp h
    obtain rfl := free_ok hfree
    exact writeOut_ok hfull hok hempty hcnt hwrite

theorem closeCsv_ok {u : Unit} (h : closeCsv info w = .ok u w') : w'.log = w.log := by
  unfold closeCsv at h
  split_ifs at h
  · rw [← (EStateM.Result.ok.inj h).2]
  · rw [(pure_ok.mp h).2]

/-- `ct_fini_info` writes what the buffers still hold. -/
theorem ctFiniInfo_ok (hfull : Full env) (hok : info.Ok)
    (h : ctFiniInfo env depth info w = .ok info' w') :
    bytesTo stdoutFd w' = (box stdoutFd w info.tbuf).text ∧
      bytesTo info.csvFd w' = (box info.csvFd w info.cbuf).text := by
  cases depth with
  | zero => exact absurd h throw_ok
  | succ depth =>
    rw [ctFiniInfo] at h
    obtain ⟨_, m, hself, h₁⟩ := bind_ok.mp h
    obtain ⟨-, rfl⟩ := deref_ok.mp hself
    obtain ⟨_, m₁, hname, h₂⟩ := bind_ok.mp h₁
    obtain ⟨_, m₂, hpath, h₃⟩ := bind_ok.mp h₂
    obtain ⟨_, m₃, hheader, h₄⟩ := bind_ok.mp h₃
    obtain rfl : m₃ = w := by rw [free_ok hheader, free_ok hpath, free_ok hname]
    obtain ⟨i, k, htbuf, h₅⟩ := bind_ok.mp h₄
    obtain ⟨ht, hcbuf, hfd⟩ := finiTbuf_ok hfull htbuf hok.tbuf hok.tbuf_empty
    obtain ⟨j, n, hcsv, h₆⟩ := bind_ok.mp h₅
    have hc := finiCbuf_ok hfull hcsv (hcbuf ▸ hok.cbuf) (hcbuf ▸ hok.cbuf_empty)
    obtain ⟨_, l, hclose, h₇⟩ := bind_ok.mp h₆
    obtain ⟨_, l', hfree, h₈⟩ := bind_ok.mp h₇
    obtain ⟨-, rfl⟩ := pure_ok.mp h₈
    obtain rfl := free_ok hfree
    have hlog := bytesTo_congr (closeCsv_ok hclose)
    rw [hcbuf, hfd] at hc
    constructor
    · simp [Box.text, box, hlog, hc _, ht _, hok.csvFd_ne]
    · simp [Box.text, box, hlog, hc _, ht _, Ne.symm hok.csvFd_ne]

theorem OpsFit.of_snoc {op : Op} (h : OpsFit env depth info w (ops ++ [op])) :
    OpsFit env depth info w ops := by
  intro pre line post heq
  apply h pre line (post ++ [op])
  simp [heq]

/-- A run takes both outboxes through the calls it makes. -/
theorem runOps_steps (hfull : Full env) (hok : info.Ok)
    (hlen : ∀ op ∈ ops, op.line.length < maxBufLen) (hfit : OpsFit env depth info w ops)
    (h : runOps env depth info ops w = .ok info' w') :
    info'.Ok ∧ info'.csvFd = info.csvFd ∧
      Steps KeepStep (box stdoutFd w info.tbuf) (ops.map Op.tableCall)
        (box stdoutFd w' info'.tbuf) ∧
      (info.csvFd ≠ -1 → Steps Step (box info.csvFd w info.cbuf) (ops.map Op.csvCall)
        (box info.csvFd w' info'.cbuf)) := by
  induction ops using List.reverseRecOn generalizing info' w' with
  | nil =>
    obtain ⟨rfl, rfl⟩ := pure_ok.mp h
    exact ⟨hok, rfl, .nil, fun _ => .nil⟩
  | append_singleton pre op ih =>
    obtain ⟨i, m, hpre, hcall⟩ := foldlM_snoc_ok.mp h
    obtain ⟨hi, hfd, htable, hcsv⟩ := ih (fun o ho => hlen o (by simp [ho])) hfit.of_snoc hpre
    rw [List.map_append, List.map_append]
    cases op with
    | addLine line =>
      have hline : line.length < maxBufLen := hlen (.addLine line) (by simp)
      have hadded :=
        ctAddLine_added hfull hi hline.le (hfit pre line [] rfl i m hpre) hcall
      refine ⟨hadded.ok, hadded.csvFd.trans hfd, htable.snoc hadded.table, ?_⟩
      intro hne
      have hstep := hadded.csv (hfd.symm ▸ hne)
      rw [hfd] at hstep
      exact (hcsv hne).snoc hstep
    | printData =>
      obtain ⟨_, k, hprint, hret⟩ := bind_ok.mp hcall
      obtain ⟨rfl, rfl⟩ := pure_ok.mp hret
      obtain ⟨ht, hc⟩ := ctPrintData_ok hfull hi hprint
      rw [hfd] at hc
      refine ⟨hi, hfd, htable.snoc ⟨ht, fun hnil => ⟨?_, rfl⟩⟩, fun hne => (hcsv hne).snoc hc⟩
      exact hnil

/-- In a run whose lines fit, each line is output exactly once if and only if
`ct_print_data` is only called before any text was added. -/
theorem outputOnce_iff (env : Env) (hfull : Full env) (depth : ℕ)
    (testName csvPath : Option (List Byte)) (ops : List Op) (w₀ w m w' : World)
    (info info' final : Info)
    (hinit : ctInitInfo env depth testName csvPath w₀ = .ok (some info) w)
    (hrun : runOps env depth info ops w = .ok info' m)
    (hfini : ctFiniInfo env depth info' m = .ok final w')
    (hlen : ∀ op ∈ ops, op.line.length < maxBufLen) (hfit : OpsFit env depth info w ops) :
    OutputOnce info w ops w' ↔ PrintsNothing ops := by
  obtain ⟨hok, htcnt, hccnt⟩ := ctInitInfo_ok hinit
  have htnil : (box stdoutFd w info.tbuf).pending = [] := contents_eq_nil_iff.mpr htcnt
  have hcnil : (box info.csvFd w info.cbuf).pending = [] := contents_eq_nil_iff.mpr hccnt
  obtain ⟨hok', hfd, htable, hcsv⟩ := runOps_steps hfull hok hlen hfit hrun
  obtain ⟨htext, hctext⟩ := ctFiniInfo_ok hfull hok' hfini
  rw [hfd] at hctext
  have hiff := htable.text_eq_iff htnil
  rw [← htext, added_tableCall, noResend_tableCall] at hiff
  constructor
  · intro h
    exact hiff.mp h.1
  · intro h
    refine ⟨hiff.mpr h, fun hne => ?_⟩
    rw [hctext, (hcsv hne).text_eq hcnil h.noResend_csvCall, added_csvCall]
    rfl

/-- A printed line is written again by `ct_fini_info`. -/
theorem not_outputOnce_printed :
    ∃ info' m final w',
      Full plainEnv ∧
      ctInitInfo plainEnv 2 (some [116]) (some [99]) blankWorld =
        .ok (some plainInfo) plainWorld ∧
      runOps plainEnv 2 plainInfo [.addLine [97, newline], .printData] plainWorld =
        .ok info' m ∧
      ctFiniInfo plainEnv 2 info' m = .ok final w' ∧
      OpsFit plainEnv 2 plainInfo plainWorld [.addLine [97, newline], .printData] ∧
      ¬ OutputOnce plainInfo plainWorld [.addLine [97, newline], .printData] w' := by
  refine ⟨_, _, _, _, fun _ _ => rfl, ctInitInfo_plain, rfl, rfl, ?_, ?_⟩
  · intro pre line post heq info' w' hrun
    rcases pre with - | ⟨op, pre⟩
    · obtain ⟨hline, -⟩ := List.cons_eq_cons.mp heq
      obtain rfl := Op.addLine.inj hline
      obtain ⟨rfl, -⟩ := pure_ok.mp hrun
      decide
    · rcases pre with - | ⟨op', pre⟩ <;> simp at heq
  · intro h
    exact absurd h.1 (by decide)

theorem outputOnce_iff_pair :
    ∃ info' m final w',
      runOps plainEnv 2 plainInfo [.printData, .addLine [97, newline]] plainWorld =
        .ok info' m ∧
      ctFiniInfo plainEnv 2 info' m = .ok final w' ∧
      (OutputOnce plainInfo plainWorld [.printData, .addLine [97, newline]] w' ↔
        PrintsNothing [.printData, .addLine [97, newline]]) := by
  refine ⟨_, _, _, _, rfl, rfl, outputOnce_iff plainEnv (fun _ _ => rfl) 2 (some [116])
    (some [99]) _ blankWorld plainWorld _ _ plainInfo _ _ ctInitInfo_plain rfl rfl ?_ ?_⟩
  · intro op hop
    simp only [List.mem_cons, List.not_mem_nil, or_false] at hop
    rcases hop with rfl | rfl <;> decide
  · intro pre line post heq info' w' hrun
    rcases pre with - | ⟨op, - | ⟨op', pre⟩⟩
    · simp at heq
    · simp only [List.cons_append, List.nil_append, List.cons.injEq, Op.addLine.injEq] at heq
      obtain ⟨rfl, rfl, rfl⟩ := heq
      have hsame : EStateM.Result.ok plainInfo plainWorld = .ok info' w' := hrun
      obtain ⟨rfl, -⟩ := EStateM.Result.ok.inj hsame
      decide
    · simp at heq

end CrayTests.PrintUtils
