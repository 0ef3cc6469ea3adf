import CrayTests.PrintOnce

/-!
# Releasing the structure

`ct_fini_info` frees the names before it writes what the buffers hold, and a failing `write`
releases the same structure again. On a structure of which nothing was freed it returns where
all its writes succeed, and otherwise frees `test_name` twice.
-/

namespace CrayTests.PrintUtils

open CInteger StateContract

/-- The `i`-th `write`, of `n` bytes, returns -1. -/
def Env.WriteFails (env : Env) (i n : ℕ) : Prop := int32 (env.writeRet i n) = -1

/-- Nothing of the structure was freed, and only allocated buffers hold text. -/
structure Info.Whole (info : Info) : Prop where
  self : info.self = .live
  testName : info.testName = .live
  csvPath : info.csvPath ≠ .freed
  csvHeader : info.csvHeader ≠ .freed
  tbuf_empty : info.tbuf.ptr ≠ .live → info.tbuf.cnt = 0
  cbuf_empty : info.cbuf.ptr ≠ .live → info.cbuf.cnt = 0

/-- The writes of `ct_fini_info`, of which the first is the `i`-th of all, do not fail. -/
def FiniWrites (env : Env) (info : Info) (i : ℕ) : Prop :=
  (info.tbuf.cnt ≠ 0 → ¬ env.WriteFails i info.tbuf.cnt) ∧
    (info.cbuf.cnt ≠ 0 →
      ¬ env.WriteFails (i + if info.tbuf.cnt ≠ 0 then 1 else 0) info.cbuf.cnt)

def Ptr.release : Ptr → Ptr
  | .null => .null
  | _ => .freed

def Info.releaseNames (info : Info) : Info :=
  { info with
    testName := info.testName.release
    csvPath := info.csvPath.release
    csvHeader := info.csvHeader.release }

def releaseBuf (env : Env) (fini : Info → Run Info) (fd : ℤ) (b : Buf) (info : Info) :
    Run Ptr :=
  if b.cnt ≠ 0 then do
    writeOut env fini fd b info
    free b.ptr
  else
    pure b.ptr

def World.tried (env : Env) (fd : ℤ) (b : Buf) (w : World) : World :=
  { w with
    writes := w.writes + 1
    log := w.log ++ [(fd, b.contents.take (env.writeRet w.writes b.cnt).toNat)] }

variable {env : Env} {depth : ℕ} {info : Info} {b : Buf} {fd : ℤ}
  {fini : Info → Run Info} {w m : World}

theorem free_of_ne {p : Ptr} (hp : p ≠ .freed) (w : World) : free p w = .ok p.release w := by
  cases p with
  | null => rfl
  | live => rfl
  | freed => exact absurd rfl hp

theorem ctInitInfo_whole {testName csvPath : Option (List Byte)} {w' : World}
    (h : ctInitInfo env depth testName csvPath w = .ok (some info) w') : info.Whole := by
  obtain ⟨c, p, q, fd, hc, -, -, -, rfl⟩ := ctInitInfo_fresh h
  exact ⟨rfl, rfl, hc, by simp [freshInfo], fun _ => rfl, fun _ => rfl⟩

theorem writeBuf_tried (fd : ℤ) (hp : b.ptr = .live) (w : World) :
    writeBuf env fd b w = .ok (env.writeRet w.writes b.cnt) (w.tried env fd b) := by
  unfold writeBuf
  rw [hp, bind_of_ok (deref_live w)]
  simp [write, World.tried]

theorem writeOut_of_not_fails (hp : b.ptr = .live) (h : ¬ env.WriteFails w.writes b.cnt) :
    writeOut env fini fd b info w = .ok () (w.tried env fd b) := by
  unfold writeOut
  rw [bind_of_ok (writeBuf_tried fd hp w), chkWriteErr,
    if_neg (show ¬ int32 (env.writeRet w.writes b.cnt) = -1 from h)]
  rfl

theorem writeOut_of_fails (hp : b.ptr = .live) (h : env.WriteFails w.writes b.cnt) :
    writeOut env fini fd b info w =
      (do
        let _ ← fini info
        throw .abort : Run Unit) (w.tried env fd b) := by
  unfold writeOut
  rw [bind_of_ok (writeBuf_tried fd hp w), chkWriteErr,
    if_pos (show int32 (env.writeRet w.writes b.cnt) = -1 from h)]

theorem finiTbuf_eq (info : Info) (hempty : info.tbuf.ptr ≠ .live → info.tbuf.cnt = 0) :
    finiTbuf env fini info = (do
      let p ← releaseBuf env fini stdoutFd info.tbuf info
      pure { info with tbuf := { info.tbuf with ptr := p } }) := by
  have hguard : (info.tbuf.cnt ≠ 0 ∧ info.tbuf.ptr ≠ .null) ↔ info.tbuf.cnt ≠ 0 := by
    refine ⟨And.left, fun hcnt => ⟨hcnt, ?_⟩⟩
    intro hnull
    exact hcnt (hempty (by rw [hnull]; decide))
  unfold finiTbuf releaseBuf
  simp only [hguard]
  split_ifs <;> simp only [bind_assoc, pure_bind]

theorem finiCbuf_eq (env : Env) (fini : Info → Run Info) (info : Info) :
    finiCbuf env fini info = (do
      let p ← releaseBuf env fini info.csvFd info.cbuf info
      pure { info with cbuf := { info.cbuf with ptr := p } }) := by
  unfold finiCbuf releaseBuf
  split_ifs <;> simp only [bind_assoc, pure_bind]

theorem releaseBuf_ok (fini : Info → Run Info) (fd : ℤ) (info : Info)
    (hempty : b.ptr ≠ .live → b.cnt = 0) (h : b.cnt ≠ 0 → ¬ env.WriteFails w.writes b.cnt) :
    ∃ p m, releaseBuf env fini fd b info w = .ok p m ∧
      m.writes = w.writes + if b.cnt ≠ 0 then 1 else 0 := by
  unfold releaseBuf
  by_cases hcnt : b.cnt ≠ 0
  · have hp : b.ptr = .live := by
      by_contra hp
      exact hcnt (hempty hp)
    rw [if_pos hcnt, bind_of_ok (writeOut_of_not_fails hp (h hcnt)), hp, if_pos hcnt]
    exact ⟨.freed, _, rfl, rfl⟩
  · rw [if_neg hcnt, if_neg hcnt]
    exact ⟨b.ptr, w, rfl, rfl⟩

theorem releaseBuf_failed (hempty : b.ptr ≠ .live → b.cnt = 0) (hcnt : b.cnt ≠ 0)
    (hfail : env.WriteFails w.writes b.cnt)
    (hfini : ∀ m, fini info m = .error .undefined m) :
    releaseBuf env fini fd b info w = .error .undefined (w.tried env fd b) := by
  have hp : b.ptr = .live := by
    by_contra hp
    exact hcnt (hempty hp)
  unfold releaseBuf
  rw [if_pos hcnt]
  apply bind_of_error
  rw [writeOut_of_fails hp hfail]
  exact bind_of_error (hfini _)

/-- A second release frees `test_name` again. -/
theorem ctFiniInfo_twice (info : Info) (hself : info.self = .live)
    (hname : info.testName = .freed) (depth : ℕ) (w : World) :
    ctFiniInfo env (depth + 1) info w = .error .undefined w := by
  rw [ctFiniInfo, hself, bind_of_ok (deref_live w), hname]
  rfl

theorem ctFiniInfo_eq (h : info.Whole) (depth : ℕ) (w : World) :
    ctFiniInfo env (depth + 1) info w = (do
      let info ← finiTbuf env (ctFiniInfo env depth) info.releaseNames
      let info ← finiCbuf env (ctFiniInfo env depth) info
      closeCsv info
      let self ← free info.self
      pure { info with self := self } : Run Info) w := by
  have hname : info.testName ≠ .freed := by
    rw [h.testName]
    decide
  rw [ctFiniInfo, bind_of_ok (show deref info.self w = .ok () w by rw [h.self]; rfl),
    bind_of_ok (free_of_ne hname w), bind_of_ok (free_of_ne h.csvPath w),
    bind_of_ok (free_of_ne h.csvHeader w)]
  rfl

def Info.released (info : Info) (p : Ptr) : Info :=
  { info.releaseNames with tbuf := { info.tbuf with ptr := p } }

/-- The table buffer is released, and the csv buffer is next. -/
theorem finiTbuf_released (fini : Info → Run Info) (h : info.Whole) (hwrite : info.tbuf.cnt ≠ 0 →
    ¬ env.WriteFails w.writes info.tbuf.cnt) :
    ∃ p m, finiTbuf env fini info.releaseNames w =
        .ok (info.released p) m ∧
      m.writes = w.writes + if info.tbuf.cnt ≠ 0 then 1 else 0 := by
  obtain ⟨p, m, hrelease, hm⟩ :=
    releaseBuf_ok fini stdoutFd info.releaseNames h.tbuf_empty hwrite
  refine ⟨p, m, ?_, hm⟩
  rw [finiTbuf_eq info.releaseNames h.tbuf_empty]
  exact bind_of_ok hrelease

theorem closeCsv_returns (info : Info) (w : World) : ∃ m, closeCsv info w = .ok () m := by
  unfold closeCsv
  split_ifs
  · exact ⟨_, rfl⟩
  · exact ⟨w, rfl⟩

/-- Where its writes succeed, `ct_fini_info` returns. -/
theorem ctFiniInfo_returns (h : info.Whole) (hwrites : FiniWrites env info w.writes)
    (depth : ℕ) : ∃ final w', ctFiniInfo env (depth + 1) info w = .ok final w' := by
  obtain ⟨p, m, htbuf, hm⟩ := finiTbuf_released (ctFiniInfo env depth) h hwrites.1
  obtain ⟨q, k, hcbuf, -⟩ := releaseBuf_ok (ctFiniInfo env depth) info.csvFd
    (info.released p) (w := m) h.cbuf_empty (by rw [hm]; exact hwrites.2)
  have hcsv : finiCbuf env (ctFiniInfo env depth) (info.released p) m =
      .ok { info.released p with cbuf := { info.cbuf with ptr := q } } k := by
    rw [finiCbuf_eq]
    exact bind_of_ok hcbuf
  obtain ⟨l, hclose⟩ :=
    closeCsv_returns { info.released p with cbuf := { info.cbuf with ptr := q } } k
  have hself : free info.self l = .ok .freed l := by
    rw [h.self]
    rfl
  rw [ctFiniInfo_eq h]
  exact ⟨_, l, bind_ok.mpr ⟨_, m, htbuf, bind_ok.mpr ⟨_, k, hcsv, bind_ok.mpr ⟨(), l, hclose,
    bind_ok.mpr ⟨.freed, l, hself, rfl⟩⟩⟩⟩⟩

/-- Where one of them fails, `test_name` is freed twice. -/
theorem ctFiniInfo_failed (h : info.Whole) (hwrites : ¬ FiniWrites env info w.writes)
    (depth : ℕ) : ∃ w', ctFiniInfo env (depth + 2) info w = .error .undefined w' := by
  have hname : info.testName.release = .freed := by
    rw [h.testName]
    rfl
  rw [ctFiniInfo_eq h]
  by_cases htable : info.tbuf.cnt ≠ 0 → ¬ env.WriteFails w.writes info.tbuf.cnt
  · obtain ⟨p, m, htbuf, hm⟩ := finiTbuf_released (ctFiniInfo env (depth + 1)) h htable
    obtain ⟨hcnt, hfail⟩ : info.cbuf.cnt ≠ 0 ∧ env.WriteFails m.writes info.cbuf.cnt := by
      by_contra hc
      apply hwrites
      refine ⟨htable, fun hcnt hfail => hc ⟨hcnt, ?_⟩⟩
      rwa [hm]
    have hcsv : finiCbuf env (ctFiniInfo env (depth + 1)) (info.released p) m =
        .error .undefined (m.tried env info.csvFd info.cbuf) := by
      rw [finiCbuf_eq]
      apply bind_of_error
      exact releaseBuf_failed h.cbuf_empty hcnt hfail
        fun k => ctFiniInfo_twice (info.released p) h.self hname depth k
    exact ⟨_, (bind_of_ok htbuf).trans (bind_of_error hcsv)⟩
  · obtain ⟨hcnt, hfail⟩ : info.tbuf.cnt ≠ 0 ∧ env.WriteFails w.writes info.tbuf.cnt := by
      simpa using htable
    have htbuf : finiTbuf env (ctFiniInfo env (depth + 1)) info.releaseNames w =
        .error .undefined (w.tried env stdoutFd info.tbuf) := by
      rw [finiTbuf_eq info.releaseNames h.tbuf_empty]
      apply bind_of_error
      exact releaseBuf_failed h.tbuf_empty hcnt hfail
        fun k => ctFiniInfo_twice info.releaseNames h.self hname depth k
    exact ⟨_, bind_of_error htbuf⟩

end CrayTests.PrintUtils
