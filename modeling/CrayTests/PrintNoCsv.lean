import CrayTests.PrintOnce
import CrayTests.StateContract

/-!
# No csv output without a csv file

Everything the utilities do with descriptors is a `write` to stdout, or a `write` to or a `close` of
`csv_fd` where that is not -1. A missing file therefore leaves no trace, but without a path `csv_fd`
keeps the 0 of `calloc`: the lines are converted, written to descriptor 0, and that is closed.
-/

namespace CrayTests.PrintUtils

open CInteger StateContract

/-- The descriptors in use where `csv_fd` is `fd`. -/
structure Uses (fd : ℤ) (w w' : World) : Prop where
  written : ∃ out, w'.log = w.log ++ out ∧ ∀ e ∈ out, e.1 = stdoutFd ∨ e.1 = fd ∧ fd ≠ -1
  closed : ∃ fds, w'.closed = w.closed ++ fds ∧ ∀ d ∈ fds, d = fd ∧ fd ≠ -1

structure Holds (fd : ℤ) (info : Info) : Prop where
  csvFd : info.csvFd = fd
  empty : fd = -1 → info.cbuf.cnt = 0

variable {env : Env} {depth : ℕ} {info info' : Info} {b : Buf} {fd : ℤ} {w m w' : World}

theorem uses_of_eq (hlog : w'.log = w.log) (hclosed : w'.closed = w.closed) : Uses fd w w' :=
  ⟨⟨[], by simp [hlog]⟩, ⟨[], by simp [hclosed]⟩⟩

instance : IsPreorder World (Uses fd) where
  refl _ := uses_of_eq rfl rfl
  trans w m w' h h' := by
    obtain ⟨out, hlog, hout⟩ := h.written
    obtain ⟨out', hlog', hout'⟩ := h'.written
    obtain ⟨fds, hclosed, hfds⟩ := h.closed
    obtain ⟨fds', hclosed', hfds'⟩ := h'.closed
    constructor
    · refine ⟨out ++ out', by rw [hlog', hlog, List.append_assoc], fun e he => ?_⟩
      exact (List.mem_append.mp he).elim (hout e) (hout' e)
    · refine ⟨fds ++ fds', by rw [hclosed', hclosed, List.append_assoc], fun d hd => ?_⟩
      exact (List.mem_append.mp hd).elim (hfds d) (hfds' d)

theorem keeps_deref (p : Ptr) : Keeps (Uses fd) (deref p) fun _ => True :=
  .ite (fun _ => .pure trivial) fun _ => .throw _

theorem keeps_free (p : Ptr) : Keeps (Uses fd) (free p) fun _ => True := by
  cases p with
  | null => exact .pure trivial
  | live => exact .pure trivial
  | freed => exact .throw _

theorem keeps_malloc (env : Env) : Keeps (Uses fd) (malloc env) fun _ => True :=
  ⟨fun _ => uses_of_eq rfl rfl, fun _ _ _ _ => trivial⟩

theorem keeps_realloc (env : Env) (p : Ptr) (size : ℕ) :
    Keeps (Uses fd) (realloc env p size) fun _ => True := by
  refine ⟨fun w => ?_, fun _ _ _ _ => trivial⟩
  unfold realloc
  split_ifs <;> exact uses_of_eq rfl rfl

theorem keeps_write (env : Env) {d : ℤ} (bytes : List Byte)
    (hd : d = stdoutFd ∨ d = fd ∧ fd ≠ -1) :
    Keeps (Uses fd) (write env d bytes) fun _ => True := by
  refine ⟨fun w => ⟨⟨_, rfl, fun e he => ?_⟩, [], by simp [write, last]⟩, fun _ _ _ _ => trivial⟩
  rw [List.mem_singleton.mp he]
  exact hd

theorem keeps_close (hfd : fd ≠ -1) : Keeps (Uses fd) (close fd) fun _ => True := by
  refine ⟨fun w => ⟨⟨[], by simp [close, last]⟩, _, rfl, fun d hd => ?_⟩, fun _ _ _ _ => trivial⟩
  exact ⟨List.mem_singleton.mp hd, hfd⟩

theorem keeps_vsnprintf (b : Buf) (line : List Byte) :
    Keeps (Uses fd) (vsnprintf b line) fun _ => True :=
  .ite (fun _ => .pure trivial) fun _ => .ite (fun _ => .pure trivial) fun _ => .throw _

section Fini

variable {fini : Info → Run Info} (hfini : ∀ i, Holds fd i → Keeps (Uses fd) (fini i) (Holds fd))
include hfini

theorem keeps_chkWriteErr (ret : ℤ) (hinfo : Holds fd info) :
    Keeps (Uses fd) (chkWriteErr fini ret info) fun _ => True :=
  .ite (fun _ => (hfini info hinfo).bind fun _ _ => .throw _) fun _ => .pure trivial

theorem keeps_writeOut (env : Env) {d : ℤ} (b : Buf) (hinfo : Holds fd info)
    (hd : d = stdoutFd ∨ d = fd ∧ fd ≠ -1) :
    Keeps (Uses fd) (writeOut env fini d b info) fun _ => True := by
  have hwrite : Keeps (Uses fd) (writeBuf env d b) fun _ => True :=
    (keeps_deref b.ptr).bind fun _ _ => keeps_write env b.contents hd
  exact hwrite.bind fun ret _ => keeps_chkWriteErr hfini ret hinfo

theorem keeps_finiTbuf (env : Env) (hinfo : Holds fd info) :
    Keeps (Uses fd) (finiTbuf env fini info) (Holds fd) :=
  .ite
    (fun _ => (keeps_writeOut hfini env info.tbuf hinfo (.inl rfl)).bind fun _ _ =>
      (keeps_free _).bind fun _ _ => .pure ⟨hinfo.csvFd, hinfo.empty⟩)
    fun _ => .pure hinfo

theorem keeps_finiCbuf (env : Env) (hinfo : Holds fd info) :
    Keeps (Uses fd) (finiCbuf env fini info) (Holds fd) := by
  refine .ite (fun hcnt => ?_) fun _ => .pure hinfo
  -- a buffer that holds something has a file
  have hfd : info.csvFd = stdoutFd ∨ info.csvFd = fd ∧ fd ≠ -1 :=
    .inr ⟨hinfo.csvFd, fun h => hcnt (hinfo.empty h)⟩
  exact (keeps_writeOut hfini env info.cbuf hinfo hfd).bind fun _ _ =>
    (keeps_free _).bind fun _ _ => .pure ⟨hinfo.csvFd, fun h => absurd (hinfo.empty h) hcnt⟩

end Fini

theorem keeps_closeCsv (hinfo : Holds fd info) :
    Keeps (Uses fd) (closeCsv info) fun _ => True := by
  unfold closeCsv
  rw [hinfo.csvFd]
  exact .ite keeps_close fun _ => .pure trivial

theorem keeps_ctFiniInfo (fd : ℤ) (env : Env) (depth : ℕ) :
    ∀ info, Holds fd info → Keeps (Uses fd) (ctFiniInfo env depth info) (Holds fd) := by
  induction depth with
  | zero => exact fun _ _ => .throw _
  | succ depth ih =>
    intro info hinfo
    refine (keeps_deref _).bind fun _ _ => (keeps_free _).bind fun p _ =>
      (keeps_free _).bind fun q _ => (keeps_free _).bind fun r _ => ?_
    have hnames : Holds fd { info with testName := p, csvPath := q, csvHeader := r } :=
      ⟨hinfo.csvFd, hinfo.empty⟩
    refine (keeps_finiTbuf ih env hnames).bind fun i hi =>
      (keeps_finiCbuf ih env hi).bind fun j hj => ?_
    exact (keeps_closeCsv hj).bind fun _ _ => (keeps_free _).bind fun _ _ =>
      .pure ⟨hj.csvFd, hj.empty⟩

theorem keeps_growBuf (env : Env) (b : Buf) : Keeps (Uses fd) (growBuf env b) fun _ => True := by
  unfold growBuf
  refine .ite (fun _ => .pure trivial) fun _ => (keeps_realloc env _ _).bind fun tmp _ => ?_
  exact .ite (fun _ => .pure trivial) fun _ => .pure trivial

theorem keeps_growOrFlush (env : Env) (depth : ℕ) (hinfo : Holds fd info) :
    Keeps (Uses fd) (growOrFlush env depth info) (Holds fd) := by
  have hfini := keeps_ctFiniInfo fd env depth
  refine (keeps_growBuf env info.tbuf).bind fun grown _ => .ite (fun _ => ?_) fun _ => ?_
  · exact .ite (fun _ => (hfini info hinfo).bind fun _ _ => .throw _) fun _ =>
      (keeps_writeOut hfini env info.tbuf hinfo (.inl rfl)).bind fun _ _ =>
        .pure ⟨hinfo.csvFd, hinfo.empty⟩
  · exact .pure ⟨hinfo.csvFd, hinfo.empty⟩

theorem keeps_makeRoom (env : Env) (depth : ℕ) (line : List Byte) (fuel : ℕ) :
    ∀ info tbw, Holds fd info →
      Keeps (Uses fd) (makeRoom env depth line fuel info tbw) fun r => Holds fd r.1 := by
  induction fuel with
  | zero => exact fun _ _ _ => .throw _
  | succ fuel ih =>
    intro info tbw hinfo
    refine .ite (fun _ => .pure hinfo) fun _ => ?_
    exact (keeps_growOrFlush env depth hinfo).bind fun i hi =>
      (keeps_vsnprintf i.tbuf line).bind fun printed _ => ih _ _ ⟨hi.csvFd, hi.empty⟩

theorem keeps_putc (cbuf : Buf) (c : Byte) : Keeps (Uses fd) (putc cbuf c) fun _ => True :=
  (keeps_deref _).bind fun _ _ => .pure trivial

theorem keeps_csvFill (tbuf : Buf) (n t : ℕ) (cbuf : Buf) :
    Keeps (Uses fd) (csvFill tbuf n t cbuf) fun _ => True := by
  induction n generalizing t cbuf with
  | zero => exact .pure trivial
  | succ n ih =>
    refine .ite (fun _ => .ite (fun _ => .ite (fun _ => ?_) fun _ => ih _ _) fun _ => ?_)
      fun _ => .pure trivial
    · exact (keeps_putc cbuf comma).bind fun _ _ => ih _ _
    · exact (keeps_putc cbuf (tbuf.data t)).bind fun _ _ => ih _ _

theorem keeps_csvLoop (env : Env) (depth fuel : ℕ) (hfd : fd ≠ -1) :
    ∀ t info, Holds fd info → Keeps (Uses fd) (csvLoop env depth fuel t info) (Holds fd) := by
  induction fuel with
  | zero => exact fun _ _ _ => .throw _
  | succ fuel ih =>
    intro t info hinfo
    have hset (c : Buf) : Holds fd { info with cbuf := c } :=
      ⟨hinfo.csvFd, fun h => absurd h hfd⟩
    refine .ite (fun _ => .pure hinfo) fun _ => ?_
    refine (keeps_csvFill info.tbuf _ t info.cbuf).bind fun filled _ => ?_
    refine .ite (fun _ => ih _ _ (hset _)) fun _ => ?_
    refine (keeps_growBuf env _).bind fun grown _ => .ite (fun _ => ?_) fun _ => ih _ _ (hset _)
    exact (keeps_writeOut (keeps_ctFiniInfo fd env depth) env _ (hset _)
      (.inr ⟨hinfo.csvFd, hfd⟩)).bind fun _ _ => ih _ _ (hset _)

theorem keeps_ctAddLine (env : Env) (depth : ℕ) (line : List Byte) (hinfo : Holds fd info) :
    Keeps (Uses fd) (ctAddLine env depth info line) (Holds fd) := by
  refine (keeps_deref _).bind fun _ _ => (keeps_vsnprintf info.tbuf line).bind fun printed _ => ?_
  have hprinted : Holds fd { info with tbuf := printed.1 } := ⟨hinfo.csvFd, hinfo.empty⟩
  refine (keeps_makeRoom env depth line 2 _ _ hprinted).bind fun r hr => ?_
  refine .ite (fun hfd => ?_) fun _ => .pure ⟨hr.csvFd, hr.empty⟩
  exact keeps_csvLoop env depth _ (hr.csvFd ▸ hfd) _ _ ⟨hr.csvFd, hr.empty⟩

theorem keeps_ctPrintData (env : Env) (depth : ℕ) (hinfo : Holds fd info) :
    Keeps (Uses fd) (ctPrintData env depth info) fun _ => True := by
  have hfini := keeps_ctFiniInfo fd env depth
  refine (keeps_deref _).bind fun _ _ => ?_
  have htable : Keeps (Uses fd) (printTable env depth info) fun _ => True :=
    .ite (fun _ => keeps_writeOut hfini env info.tbuf hinfo (.inl rfl)) fun _ => .pure trivial
  refine htable.bind fun _ _ => .ite (fun hcsv => ?_) fun _ => .pure trivial
  exact keeps_writeOut hfini env info.cbuf hinfo (.inr ⟨hinfo.csvFd, hinfo.csvFd ▸ hcsv.1⟩)

theorem keeps_runOps (env : Env) (depth : ℕ) (ops : List Op) (hinfo : Holds fd info) :
    Keeps (Uses fd) (runOps env depth info ops) (Holds fd) := by
  refine .foldlM (fun i hi op => ?_) ops hinfo
  cases op with
  | addLine line => exact keeps_ctAddLine env depth line hi
  | printData => exact (keeps_ctPrintData env depth hi).bind fun _ _ => .pure hi

def initialFd (env : Env) : Option (List Byte) → ℤ
  | none => 0
  | some _ => env.openRet.fd

theorem chkWriteErr_ok {fini : Info → Run Info} {ret : ℤ} {u : Unit}
    (h : chkWriteErr fini ret info w = .ok u w') : w' = w := by
  unfold chkWriteErr at h
  split_ifs at h
  · obtain ⟨_, _, -, hthrow⟩ := bind_ok.mp h
    exact absurd hthrow throw_ok
  · exact (pure_ok.mp h).2.symm

theorem openCsv_uses (fd : ℤ) {csvPath : Option (List Byte)} (hfd : info.csvFd = 0)
    (h : openCsv env csvPath info w = .ok info' w') :
    info'.csvFd = initialFd env csvPath ∧ Uses fd w w' := by
  cases csvPath with
  | none =>
    obtain ⟨rfl, rfl⟩ := pure_ok.mp h
    exact ⟨hfd, refl_of (Uses fd) w⟩
  | some path =>
    obtain ⟨p, m, hmalloc, h⟩ := bind_ok.mp h
    obtain ⟨rfl, rfl⟩ := pure_ok.mp h
    exact ⟨rfl, (keeps_malloc env).ok hmalloc⟩

theorem allocBufs_uses (fd : ℤ) (h : allocBufs env info w = .ok info' w') :
    info'.csvFd = info.csvFd ∧ Uses fd w w' := by
  obtain ⟨p, m₁, htbuf, h₁⟩ := bind_ok.mp h
  obtain ⟨q, m₂, hcbuf, h₂⟩ := bind_ok.mp h₁
  obtain ⟨rfl, rfl⟩ := pure_ok.mp h₂
  exact ⟨rfl, trans_of (Uses fd) ((keeps_malloc env).ok htbuf) ((keeps_malloc env).ok hcbuf)⟩

/-- A structure is returned after one `write` to stdout, with nothing closed. -/
theorem ctInitInfo_uses {testName csvPath : Option (List Byte)} (fd : ℤ)
    (h : ctInitInfo env depth testName csvPath w = .ok (some info) w') :
    info.csvFd = initialFd env csvPath ∧ Uses fd w w' := by
  obtain ⟨self, m₁, hmalloc, h₁⟩ := bind_ok.mp h
  have hself : Uses fd w m₁ := (keeps_malloc env).ok hmalloc
  by_cases hnull : self = .null
  · rw [if_pos hnull] at h₁
    exact absurd h₁ throw_ok
  rw [if_neg hnull] at h₁
  cases testName with
  | none =>
    obtain ⟨_, _, -, hnone⟩ := bind_ok.mp h₁
    simp at hnone
  | some name =>
    obtain ⟨p, m₂, hmalloc, h₂⟩ := bind_ok.mp h₁
    have hname := trans_of (Uses fd) hself ((keeps_malloc env).ok hmalloc)
    obtain ⟨_, m₃, hderef, h₃⟩ := bind_ok.mp h₂
    obtain ⟨rfl, rfl⟩ := deref_ok.mp hderef
    obtain ⟨ret, m₄, hwrite, h₄⟩ := bind_ok.mp h₃
    have hwritten := trans_of (Uses fd) hname ((keeps_write env _ (.inl rfl)).ok hwrite)
    obtain ⟨_, m₅, hchk, h₅⟩ := bind_ok.mp h₄
    obtain rfl := chkWriteErr_ok hchk
    obtain ⟨i, m₆, hopen, h₆⟩ := bind_ok.mp h₅
    obtain ⟨hi, hopen⟩ := openCsv_uses fd rfl hopen
    by_cases hfailed : csvPath.isSome ∧ env.openRet = .failed
    · rw [if_pos hfailed] at h₆
      obtain ⟨_, _, -, hnone⟩ := bind_ok.mp h₆
      simp at hnone
    · rw [if_neg hfailed] at h₆
      obtain ⟨j, m₇, halloc, h₇⟩ := bind_ok.mp h₆
      obtain ⟨hj, rfl⟩ := pure_ok.mp h₇
      obtain rfl := Option.some.inj hj
      obtain ⟨hfd, hbufs⟩ := allocBufs_uses fd halloc
      exact ⟨hfd.trans hi, trans_of (Uses fd) hwritten (trans_of (Uses fd) hopen hbufs)⟩

/-- The rest of a run: the calls on the structure, and its release. -/
def useInfo (env : Env) (depth : ℕ) (ops : List Op) (info : Info) : Run Info := do
  let info ← runOps env depth info ops
  ctFiniInfo env depth info

def openedFds (env : Env) : Option (List Byte) → List ℤ
  | none => []
  | some _ => match env.openRet with
    | .opened fd _ => [(fd : ℤ)]
    | _ => []

/-- Between the states `w₀` before and `w` after `ct_init_info` and the end of the run, nothing is put
in the csv buffer, and no descriptor is written to but stdout nor closed but what was opened. -/
structure NoCsvOutput (env : Env) (depth : ℕ) (csvPath : Option (List Byte)) (ops : List Op)
    (w₀ : World) (info : Info) (w : World) : Prop where
  empty : ∀ pre, pre <+: ops → ∀ i m, runOps env depth info pre w = .ok i m → i.cbuf.cnt = 0
  stdout : ∃ out, (last (useInfo env depth ops info w)).log = w₀.log ++ out ∧
    ∀ e ∈ out, e.1 = stdoutFd
  closes : ∃ fds, (last (useInfo env depth ops info w)).closed = w₀.closed ++ fds ∧
    ∀ d ∈ fds, d ∈ openedFds env csvPath

theorem keeps_useInfo (env : Env) (depth : ℕ) (ops : List Op) (hinfo : Holds fd info) :
    Keeps (Uses fd) (useInfo env depth ops info) (Holds fd) :=
  (keeps_runOps env depth ops hinfo).bind fun i hi => keeps_ctFiniInfo fd env depth i hi

/-- A structure without a file leaves no trace. -/
theorem noCsvOutput_of_noEntry {testName csvPath : Option (List Byte)} (hpath : csvPath ≠ none)
    (hmissing : env.openRet = .noEntry) {w₀ : World}
    (hinit : ctInitInfo env depth testName csvPath w₀ = .ok (some info) w) (ops : List Op) :
    NoCsvOutput env depth csvPath ops w₀ info w := by
  obtain ⟨path, rfl⟩ := Option.ne_none_iff_exists'.mp hpath
  obtain ⟨hfd, hused⟩ := ctInitInfo_uses (-1) hinit
  have hinfo : Holds (-1) info := by
    refine ⟨hfd.trans ?_, fun _ => (ctInitInfo_ok hinit).2.2⟩
    rw [initialFd, hmissing]
    rfl
  have hrun := trans_of (Uses (-1)) hused ((keeps_useInfo env depth ops hinfo).rel w)
  obtain ⟨⟨out, hlog, hout⟩, fds, hclosed, hfds⟩ := hrun
  constructor
  · intro pre _ i m hpre
    exact ((keeps_runOps env depth pre hinfo).value w i m hpre).empty rfl
  · exact ⟨out, hlog, fun e he => (hout e he).resolve_right fun h => h.2 rfl⟩
  · exact ⟨fds, hclosed, fun d hd => absurd rfl (hfds d hd).2⟩

/-- Where it returns, `ct_fini_info` has closed a `csv_fd` other than -1. -/
theorem ctFiniInfo_closes (hfd : fd ≠ -1) (hinfo : Holds fd info)
    (h : ctFiniInfo env depth info w = .ok info' w') : w.closed.length < w'.closed.length := by
  cases depth with
  | zero => exact absurd h throw_ok
  | succ depth =>
    have hfini := keeps_ctFiniInfo fd env depth
    rw [ctFiniInfo] at h
    obtain ⟨_, m, hself, h₁⟩ := bind_ok.mp h
    obtain ⟨-, rfl⟩ := deref_ok.mp hself
    obtain ⟨p, m₁, hname, h₂⟩ := bind_ok.mp h₁
    obtain ⟨q, m₂, hpath, h₃⟩ := bind_ok.mp h₂
    obtain ⟨r, m₃, hheader, h₄⟩ := bind_ok.mp h₃
    obtain rfl : m₃ = w := by rw [free_ok hheader, free_ok hpath, free_ok hname]
    have hnames : Holds fd { info with testName := p, csvPath := q, csvHeader := r } :=
      ⟨hinfo.csvFd, hinfo.empty⟩
    obtain ⟨i, k, htbuf, h₅⟩ := bind_ok.mp h₄
    have hi := (keeps_finiTbuf hfini env hnames).value _ _ _ htbuf
    obtain ⟨-, fds, hk, -⟩ := (keeps_finiTbuf hfini env hnames).ok htbuf
    obtain ⟨j, l, hcbuf, h₆⟩ := bind_ok.mp h₅
    have hj := (keeps_finiCbuf hfini env hi).value _ _ _ hcbuf
    obtain ⟨-, fds', hl, -⟩ := (keeps_finiCbuf hfini env hi).ok hcbuf
    obtain ⟨_, l', hclose, h₇⟩ := bind_ok.mp h₆
    have hl' : l'.closed = l.closed ++ [fd] := by
      unfold closeCsv at hclose
      rw [hj.csvFd, if_pos hfd] at hclose
      rw [← (EStateM.Result.ok.inj hclose).2]
    obtain ⟨_, n, hfree, h₈⟩ := bind_ok.mp h₇
    obtain ⟨-, rfl⟩ := pure_ok.mp h₈
    obtain rfl := free_ok hfree
    rw [hl', hl, hk]
    simp only [List.length_append, List.length_singleton]
    omega

/-- Without a path, `ct_fini_info` closes the descriptor 0, which was never opened. -/
theorem not_noCsvOutput_of_none (testName : Option (List Byte)) {ops : List Op} {w₀ : World}
    {final : Info} (hinit : ctInitInfo env depth testName none w₀ = .ok (some info) w)
    (hrun : useInfo env depth ops info w = .ok final w') :
    ¬ NoCsvOutput env depth none ops w₀ info w := by
  intro h
  obtain ⟨hfd, -, fds₀, hclosed₀, -⟩ := ctInitInfo_uses 0 hinit
  have hinfo : Holds 0 info := ⟨hfd, fun h => absurd h (by decide)⟩
  obtain ⟨i, m, hops, hfini⟩ := bind_ok.mp hrun
  have hi := (keeps_runOps env depth ops hinfo).value w i m hops
  obtain ⟨-, fds₁, hclosed₁, -⟩ := (keeps_runOps env depth ops hinfo).ok hops
  have hlt := ctFiniInfo_closes (by decide) hi hfini
  obtain ⟨fds, hclosed, hfds⟩ := h.closes
  obtain rfl : fds = [] := List.eq_nil_iff_forall_not_mem.mpr fun d hd => List.not_mem_nil (hfds d hd)
  rw [hrun] at hclosed
  rw [show w'.closed = w₀.closed from hclosed.trans (List.append_nil _), hclosed₁, hclosed₀] at hlt
  simp only [List.length_append] at hlt
  omega

/-- Nothing is output in csv form in any run, complete or stopped, on a structure for a missing file;
a complete run leaves no trace exactly when a path was given. -/
theorem noCsvOutput_iff (env : Env) (depth : ℕ) (testName csvPath : Option (List Byte))
    (ops : List Op) (w₀ w : World) (info : Info)
    (hmissing : csvPath ≠ none → env.openRet = .noEntry)
    (hinit : ctInitInfo env depth testName csvPath w₀ = .ok (some info) w) :
    (csvPath ≠ none → NoCsvOutput env depth csvPath ops w₀ info w) ∧
      ∀ final w', useInfo env depth ops info w = .ok final w' →
        (NoCsvOutput env depth csvPath ops w₀ info w ↔ csvPath ≠ none) := by
  have hpath (h : csvPath ≠ none) : NoCsvOutput env depth csvPath ops w₀ info w :=
    noCsvOutput_of_noEntry h (hmissing h) hinit ops
  refine ⟨hpath, fun final w' hrun => ⟨?_, hpath⟩⟩
  rintro h rfl
  exact not_noCsvOutput_of_none _ hinit hrun h

theorem noCsvOutput_iff_missing :
    NoCsvOutput plainEnv 2 (some [99]) [.addLine [97, newline], .printData] blankWorld plainInfo
      plainWorld :=
  (noCsvOutput_iff plainEnv 2 (some [116]) (some [99]) [.addLine [97, newline], .printData]
    blankWorld plainWorld plainInfo (fun _ => rfl) ctInitInfo_plain).1 (by decide)

/-- Without a path one line is copied to the csv buffer, written to descriptor 0, and that is
closed. -/
theorem not_noCsvOutput_line :
    ∃ info w final w',
      ctInitInfo plainEnv 2 (some [116]) none blankWorld = .ok (some info) w ∧
      useInfo plainEnv 2 [.addLine [97, newline]] info w = .ok final w' ∧
      bytesTo 0 w' = [97, newline] ∧ w'.closed = [0] ∧
      ¬ NoCsvOutput plainEnv 2 none [.addLine [97, newline]] blankWorld info w := by
  refine ⟨_, _, _, _, rfl, rfl, by decide, rfl, ?_⟩
  exact not_noCsvOutput_of_none (some [116]) rfl rfl

end CrayTests.PrintUtils
