import CrayTests.PrintBuffers

/-!
# The csv loop of the print utilities

`csvText` is what the loop makes of a stretch of `tbuf`; on a line with its terminating null
it is `csvLine`, where white space before more white space is dropped, other white space
becomes a comma, and newlines stay.
-/

namespace CrayTests.PrintUtils

open CInteger Outbox StateContract

def csvLine : List Byte → List Byte
  | [] => []
  | c :: rest =>
    (if isspace c ∧ c ≠ newline then
      if rest.head?.any isspace then [] else [comma]
    else [c]) ++ csvLine rest

def csvChar (tbuf : Buf) (t : ℕ) : List Byte :=
  if isspace (tbuf.data t) ∧ tbuf.data t ≠ newline then
    if t + 1 < tbuf.sz ∧ ¬ isspace (tbuf.data (t + 1)) then [comma] else []
  else [tbuf.data t]

def csvText (tbuf : Buf) : ℕ → ℕ → List Byte
  | 0, _ => []
  | n + 1, t => csvChar tbuf t ++ csvText tbuf n (t + 1)

def Buf.push (b : Buf) (c : Byte) : Buf :=
  { b with data := store b.data b.cnt [c], cnt := b.cnt + 1 }

structure Buf.Ok (b : Buf) : Prop where
  not_freed : b.ptr ≠ .freed
  cnt_le : b.cnt ≤ b.sz
  sz_pos : 0 < b.sz
  sz_dvd : b.sz ∣ maxBufLen

theorem Buf.Ok.sz_le {b : Buf} (h : b.Ok) : b.sz ≤ maxBufLen :=
  Nat.le_of_dvd (by decide) h.sz_dvd

def box (fd : ℤ) (w : World) (b : Buf) : Box Byte := ⟨bytesTo fd w, b.contents⟩

variable {env : Env} {depth : ℕ} {tbuf cbuf : Buf} {w w' : World}

theorem csvText_add (tbuf : Buf) (m n t : ℕ) :
    csvText tbuf (m + n) t = csvText tbuf m t ++ csvText tbuf n (t + m) := by
  induction m generalizing t with
  | zero => simp [csvText]
  | succ m ih =>
    rw [Nat.succ_add, csvText, csvText, ih, List.append_assoc]
    congr 3
    omega

theorem csvChar_eq_nil_of_mem {n t i : ℕ} (h : csvText tbuf n t = []) (hi : t ≤ i)
    (hin : i < t + n) : csvChar tbuf i = [] := by
  induction n generalizing t with
  | zero => omega
  | succ n ih =>
    obtain ⟨hhead, htail⟩ := List.append_eq_nil_iff.mp h
    rcases Nat.eq_or_lt_of_le hi with rfl | hlt
    · exact hhead
    · exact ih htail hlt (by omega)

/-- Between a line and the null after it, the loop sees the csv form of the line. -/
theorem csvText_eq_csvLine {line : List Byte} {t : ℕ}
    (hline : ∀ i (hi : i < line.length), tbuf.data (t + i) = (line)[i])
    (hend : tbuf.data (t + line.length) = 0) (hsz : t + line.length < tbuf.sz) :
    csvText tbuf line.length t = csvLine line := by
  induction line generalizing t with
  | nil => rfl
  | cons c rest ih =>
    simp only [List.length_cons] at hend hsz
    have htail : csvText tbuf rest.length (t + 1) = csvLine rest := by
      apply ih
      · intro i hi
        have := hline (i + 1) (by simpa using hi)
        rwa [show t + (i + 1) = t + 1 + i by omega] at this
      · rwa [show t + (rest.length + 1) = t + 1 + rest.length by omega] at hend
      · omega
    have hc : tbuf.data t = c := hline 0 (by simp)
    have hnext : isspace (tbuf.data (t + 1)) = rest.head?.any isspace := by
      cases rest with
      | nil => rw [show tbuf.data (t + 1) = 0 from hend]; rfl
      | cons d rest => rw [show tbuf.data (t + 1) = d from hline 1 (by simp)]; rfl
    have hroom : t + 1 < tbuf.sz := by omega
    simp only [csvText, List.length_cons, csvLine, htail, csvChar, hc, hnext, hroom, true_and]
    congr 1
    split_ifs <;> simp_all

theorem contents_push (b : Buf) (c : Byte) : (b.push c).contents = b.contents ++ [c] := by
  unfold Buf.contents Buf.push
  rw [List.range_succ, List.map_append]
  congr 1
  · apply List.map_congr_left
    intro i hi
    exact store_of_lt _ (List.mem_range.mp hi)
  · have : store b.data b.cnt [c] (b.cnt + 0) = c := store_add b.cnt (by simp)
    simpa using this

theorem foldl_push (xs : List Byte) (b : Buf) :
    (xs.foldl Buf.push b).contents = b.contents ++ xs ∧ (xs.foldl Buf.push b).ptr = b.ptr ∧
      (xs.foldl Buf.push b).sz = b.sz := by
  induction xs generalizing b with
  | nil => simp
  | cons x xs ih =>
    obtain ⟨hc, hp, hs⟩ := ih (b.push x)
    refine ⟨?_, hp, hs⟩
    rw [List.foldl_cons, hc, contents_push]
    simp

theorem length_csvChar_le (tbuf : Buf) (t : ℕ) : (csvChar tbuf t).length ≤ 1 := by
  unfold csvChar
  split_ifs <;> simp

theorem csvFill_room (n t : ℕ) (hp : cbuf.ptr = .live) (hroom : cbuf.cnt < cbuf.sz)
    (w : World) : csvFill tbuf (n + 1) t cbuf w =
      csvFill tbuf n (t + 1) ((csvChar tbuf t).foldl Buf.push cbuf) w := by
  have hput (c : Byte) : putc cbuf c w = .ok (cbuf.push c) w := by
    unfold putc
    rw [hp, bind_of_ok (deref_live w)]
    unfold Buf.push
    rw [hp]
    rfl
  rw [csvFill, if_pos hroom, csvChar]
  split_ifs
  · exact bind_of_ok (hput _)
  · rfl
  · exact bind_of_ok (hput _)

/-- The inner loop stops at the end of the line or with `cbuf` full. -/
structure Filled (tbuf cbuf : Buf) (n t : ℕ) (c : Buf) (t' : ℕ) : Prop where
  ptr : c.ptr = cbuf.ptr
  sz : c.sz = cbuf.sz
  cnt_le : c.cnt ≤ c.sz
  le : t ≤ t'
  le_end : t' ≤ t + n
  full : t' < t + n → c.cnt = c.sz
  progress : 0 < n → cbuf.cnt < cbuf.sz → t < t'
  room : ∀ u, t ≤ u → u < t' → cbuf.cnt + (csvText tbuf (u - t) t).length < cbuf.sz
  text : c.contents = cbuf.contents ++ csvText tbuf (t' - t) t

theorem csvFill_run (hp : cbuf.ptr = .live) (hcnt : cbuf.cnt ≤ cbuf.sz) (tbuf : Buf) (n t : ℕ)
    (w : World) :
    ∃ c t', csvFill tbuf n t cbuf w = .ok (c, t') w ∧ Filled tbuf cbuf n t c t' := by
  induction n generalizing t cbuf with
  | zero =>
    refine ⟨cbuf, t, rfl, rfl, rfl, hcnt, le_rfl, le_rfl, ?_, ?_, ?_, ?_⟩
    · intro h
      omega
    · intro h
      omega
    · intro u hu hlt
      omega
    · simp [csvText]
  | succ n ih =>
    by_cases hroom : cbuf.cnt < cbuf.sz
    · obtain ⟨htext, hptr, hsz⟩ := foldl_push (csvChar tbuf t) cbuf
      have hlen := congrArg List.length htext
      rw [length_contents, List.length_append, length_contents] at hlen
      have hone := length_csvChar_le tbuf t
      obtain ⟨c, t', hrun, hf⟩ := ih (hptr.trans hp) (by omega) (t + 1)
      have hle := hf.le
      have hend := hf.le_end
      refine ⟨c, t', (csvFill_room n t hp hroom w).trans hrun, hf.ptr.trans hptr,
        hf.sz.trans hsz, hf.cnt_le, by omega, by omega, ?_, ?_, ?_, ?_⟩
      · intro h
        exact hf.full (by omega)
      · intro _ _
        omega
      · intro u hu hlt
        rcases Nat.eq_or_lt_of_le hu with rfl | hu
        · simpa [csvText] using hroom
        · have hnext := hf.room u hu hlt
          rw [show u - t = 1 + (u - (t + 1)) by omega, csvText_add, List.length_append]
          simp only [csvText, List.append_nil]
          omega
      · rw [hf.text, htext, show t' - t = 1 + (t' - (t + 1)) by omega, csvText_add]
        simp [csvText]
    · refine ⟨cbuf, t, ?_, rfl, rfl, hcnt, le_rfl, by omega, ?_, ?_, ?_, ?_⟩
      · rw [csvFill, if_neg hroom]
        rfl
      · intro _
        omega
      · intro _ h
        omega
      · intro u hu hlt
        omega
      · simp [csvText]

/-- Without a `cbuf` the inner loop has to find nothing to store. -/
theorem csvFill_not_live (tbuf : Buf) (hp : cbuf.ptr ≠ .live) (hroom : cbuf.cnt < cbuf.sz)
    (n t : ℕ) (w : World) : csvFill tbuf n t cbuf w =
      if csvText tbuf n t = [] then .ok (cbuf, t + n) w else .error .undefined w := by
  have hput (c : Byte) : putc cbuf c w = .error .undefined w := by
    unfold putc
    apply bind_of_error
    unfold deref
    rw [if_neg hp]
    rfl
  induction n generalizing t with
  | zero => rfl
  | succ n ih =>
    have hskip : csvFill tbuf n (t + 1) cbuf w =
        if csvText tbuf n (t + 1) = [] then .ok (cbuf, t + (n + 1)) w
        else .error .undefined w := by
      rw [ih, show t + 1 + n = t + (n + 1) by omega]
    rw [csvFill, if_pos hroom, csvText, csvChar]
    by_cases hblank : isspace (tbuf.data t) ∧ tbuf.data t ≠ newline
    · rw [if_pos hblank, if_pos hblank]
      by_cases hcomma : t + 1 < tbuf.sz ∧ ¬ isspace (tbuf.data (t + 1))
      · rw [if_pos hcomma, if_pos hcomma, if_neg (by simp)]
        exact bind_of_error (hput _)
      · rw [if_neg hcomma, if_neg hcomma]
        exact hskip
    · rw [if_neg hblank, if_neg hblank, if_neg (by simp)]
      exact bind_of_error (hput _)

def csvMakeRoom (env : Env) (depth t : ℕ) (info : Info) : Run (ℕ × Info) := do
  let grown ← growBuf env info.cbuf
  if grown.2 = -1 then do
    writeOut env (ctFiniInfo env depth) info.csvFd info.cbuf info
    pure (t, { info with cbuf := { info.cbuf with cnt := 0 } })
  else
    pure (t, { info with cbuf := { info.cbuf with ptr := grown.1, sz := uint64 grown.2 } })

def csvRound (env : Env) (depth t : ℕ) (info : Info) : Run (ℕ × Info) := do
  let filled ← csvFill info.tbuf (info.tbuf.cnt - t) t info.cbuf
  if filled.2 = info.tbuf.cnt then
    pure (filled.2, { info with cbuf := filled.1 })
  else
    csvMakeRoom env depth filled.2 { info with cbuf := filled.1 }

theorem csvLoop_succ (env : Env) (depth fuel t : ℕ) (info : Info) :
    csvLoop env depth (fuel + 1) t info =
      if t = info.tbuf.cnt then pure info
      else csvRound env depth t info >>= fun r => csvLoop env depth fuel r.1 r.2 := by
  rw [csvLoop]
  congr 1
  unfold csvRound csvMakeRoom
  simp only [bind_assoc]
  congr 1
  funext filled
  split_ifs
  · rfl
  · simp only [bind_assoc]
    congr 1
    funext grown
    split_ifs
    · simp only [bind_assoc, pure_bind]
    · rfl

theorem csvMakeRoom_eq {t : ℕ} {info : Info} (hok : info.cbuf.Ok) (env : Env) (depth : ℕ)
    (w : World) :
    csvMakeRoom env depth t info w =
      (if Grows env info.cbuf w.reallocs then
        pure (t, { info with cbuf := { info.cbuf with ptr := .live, sz := 2 * info.cbuf.sz } })
      else do
        writeOut env (ctFiniInfo env depth) info.csvFd info.cbuf info
        pure (t, { info with cbuf := { info.cbuf with cnt := 0 } }) : Run (ℕ × Info))
        w.reallocated := by
  have hmax : maxBufLen = 2 ^ 30 := rfl
  obtain ⟨r, hgrow, hr⟩ := growBuf_run hok.not_freed hok.sz_dvd env w
  unfold csvMakeRoom
  rw [bind_of_ok hgrow]
  rcases hr with ⟨hfail, hgrows⟩ | ⟨rfl, hgrows⟩
  · rw [if_pos hfail, if_neg hgrows]
  · have hsz := hgrows.1
    rw [if_neg (by omega), if_pos hgrows, uint64_natCast (by omega)]

/-- The rounds that a loop from `t` can still need, and one more for its end. -/
def csvFuel (t : ℕ) (info : Info) : ℕ :=
  if t = info.tbuf.cnt then 1
  else info.tbuf.cnt - t + if info.cbuf.cnt < info.cbuf.sz then 1 else 2

theorem csvFuel_le (t : ℕ) (info : Info) : csvFuel t info ≤ info.tbuf.cnt - t + 2 := by
  unfold csvFuel
  split_ifs <;> omega

theorem csvFuel_pos (t : ℕ) (info : Info) : 0 < csvFuel t info := by
  unfold csvFuel
  split_ifs <;> omega

/-- A round takes text into `cbuf`, up to its end or until `cbuf` is full. -/
theorem csvRound_eq {t : ℕ} {info : Info} {c : Buf} {t' : ℕ}
    (hfill : csvFill info.tbuf (info.tbuf.cnt - t) t info.cbuf w = .ok (c, t') w) :
    csvRound env depth t info w =
      if t' = info.tbuf.cnt then .ok (t', { info with cbuf := c }) w
      else csvMakeRoom env depth t' { info with cbuf := c } w := by
  unfold csvRound
  rw [bind_of_ok hfill]
  split_ifs <;> rfl

/-- After a round the loop needs fewer. -/
theorem Filled.csvFuel_lt {t t' : ℕ} {info info' : Info} {c : Buf}
    (hf : Filled info.tbuf info.cbuf (info.tbuf.cnt - t) t c t')
    (ht : t < info.tbuf.cnt) (htbuf : info'.tbuf = info.tbuf)
    (hroom : t' ≠ info.tbuf.cnt → info'.cbuf.cnt < info'.cbuf.sz) :
    csvFuel t' info' < csvFuel t info := by
  have hle := hf.le_end
  have hprogress := hf.progress (by omega)
  have hmono := hf.le
  unfold csvFuel
  rw [htbuf, if_neg ht.ne]
  by_cases hend : t' = info.tbuf.cnt
  · rw [if_pos hend]
    split_ifs <;> omega
  · rw [if_neg hend, if_pos (hroom hend)]
    split_ifs with hroomy
    · have := hprogress hroomy
      omega
    · omega

structure Rounded (t : ℕ) (info : Info) (t' : ℕ) (info' : Info) : Prop where
  rest : info' = { info with cbuf := info'.cbuf }
  ptr : info'.cbuf.ptr = .live
  ok : info'.cbuf.Ok
  le_end : t' ≤ info'.tbuf.cnt
  fuel : csvFuel t' info' < csvFuel t info

theorem Filled.ok {n t t' : ℕ} {c : Buf} (hf : Filled tbuf cbuf n t c t') (hp : cbuf.ptr = .live)
    (hok : cbuf.Ok) : c.ptr = .live ∧ c.Ok := by
  have hc : c.ptr = .live := hf.ptr.trans hp
  exact ⟨hc, by rw [hc]; decide, hf.cnt_le, hf.sz ▸ hok.sz_pos, hf.sz ▸ hok.sz_dvd⟩

/-- A round ends with all of the text taken, or with `cbuf` full: grown, or to be flushed. -/
theorem csvRound_cases {t : ℕ} {info : Info} (hp : info.cbuf.ptr = .live) (hok : info.cbuf.Ok)
    (ht : t < info.tbuf.cnt) (env : Env) (depth : ℕ) (w : World) :
    ∃ c t', Filled info.tbuf info.cbuf (info.tbuf.cnt - t) t c t' ∧ c.ptr = .live ∧ c.Ok ∧
      (t' = info.tbuf.cnt ∧ Rounded t info t' { info with cbuf := c } ∧
          csvRound env depth t info w = .ok (t', { info with cbuf := c }) w ∨
        t' ≠ info.tbuf.cnt ∧ Grows env c w.reallocs ∧
          Rounded t info t' { info with cbuf := { c with ptr := .live, sz := 2 * c.sz } } ∧
          csvRound env depth t info w =
            .ok (t', { info with cbuf := { c with ptr := .live, sz := 2 * c.sz } })
              w.reallocated ∨
        t' ≠ info.tbuf.cnt ∧ ¬ Grows env c w.reallocs ∧
          Rounded t info t' { info with cbuf := { c with cnt := 0 } } ∧
          csvRound env depth t info w =
            (do
              writeOut env (ctFiniInfo env depth) info.csvFd c { info with cbuf := c }
              pure (t', { info with cbuf := { c with cnt := 0 } }) : Run (ℕ × Info))
              w.reallocated) := by
  obtain ⟨c, t', hfill, hf⟩ := csvFill_run hp hok.cnt_le info.tbuf (info.tbuf.cnt - t) t w
  obtain ⟨hc, hcok⟩ := hf.ok hp hok
  have hle : t' ≤ info.tbuf.cnt := by
    have := hf.le_end
    omega
  refine ⟨c, t', hf, hc, hcok, ?_⟩
  rw [csvRound_eq hfill]
  by_cases hend : t' = info.tbuf.cnt
  · rw [if_pos hend]
    refine .inl ⟨hend, ⟨rfl, hc, hcok, hle, ?_⟩, rfl⟩
    exact hf.csvFuel_lt ht rfl fun hne => absurd hend hne
  rw [if_neg hend]
  have hfull : c.cnt = c.sz := hf.full (by omega)
  have hpos := hcok.sz_pos
  have hfilled : (Info.cbuf { info with cbuf := c }).Ok := hcok
  refine .inr ?_
  rw [csvMakeRoom_eq hfilled]
  by_cases hgrows : Grows env c w.reallocs
  · rw [if_pos hgrows]
    refine .inl ⟨hend, hgrows, ⟨rfl, rfl, ?_, hle, ?_⟩, rfl⟩
    · exact ⟨by simp, by change c.cnt ≤ 2 * c.sz; omega, by change 0 < 2 * c.sz; omega,
        hgrows.dvd hpos hcok.sz_dvd⟩
    · exact hf.csvFuel_lt ht rfl fun _ => by change c.cnt < 2 * c.sz; omega
  · rw [if_neg hgrows]
    refine .inr ⟨hend, hgrows, ⟨rfl, hc, ?_, hle, ?_⟩, rfl⟩
    · exact ⟨hcok.not_freed, Nat.zero_le _, hpos, hcok.sz_dvd⟩
    · exact hf.csvFuel_lt ht rfl fun _ => hpos

theorem csvRound_ok {t t' : ℕ} {info info' : Info} (hp : info.cbuf.ptr = .live)
    (hok : info.cbuf.Ok) (ht : t < info.tbuf.cnt)
    (h : csvRound env depth t info w = .ok (t', info') w') : Rounded t info t' info' := by
  obtain ⟨c, k, -, -, -, ⟨-, hr, hround⟩ | ⟨-, -, hr, hround⟩ | ⟨-, -, hr, hround⟩⟩ :=
    csvRound_cases hp hok ht env depth w
  · obtain ⟨⟨rfl, rfl⟩, -⟩ : (k = t' ∧ _ = info') ∧ w = w' := by
      simpa using hround.symm.trans h
    exact hr
  · obtain ⟨⟨rfl, rfl⟩, -⟩ : (k = t' ∧ _ = info') ∧ _ = w' := by
      simpa using hround.symm.trans h
    exact hr
  · obtain ⟨_, _, -, hret⟩ := bind_ok.mp (hround.symm.trans h)
    obtain ⟨heq, -⟩ := pure_ok.mp hret
    obtain ⟨rfl, rfl⟩ := Prod.mk.inj heq
    exact hr

/-- The states at the head of a loop: the first one, and those after its first round. -/
inductive CsvHead (env : Env) (depth : ℕ) : ℕ → Info → World → ℕ → Info → World → Prop
  | start (t : ℕ) (info : Info) (w : World) : CsvHead env depth t info w t info w
  | round {t₀ t₁ t : ℕ} {info₀ info₁ info : Info} {w₀ w₁ w : World}
      (hmore : t₀ ≠ info₀.tbuf.cnt)
      (hround : csvRound env depth t₀ info₀ w₀ = .ok (t₁, info₁) w₁)
      (hrest : CsvHead env depth t₁ info₁ w₁ t info w) :
      CsvHead env depth t₀ info₀ w₀ t info w

structure AtHead (t : ℕ) (info₀ info : Info) : Prop where
  rest : info = { info₀ with cbuf := info.cbuf }
  ptr : info.cbuf.ptr = .live
  ok : info.cbuf.Ok
  le_end : t ≤ info.tbuf.cnt

theorem CsvHead.atHead {t₀ t : ℕ} {info₀ info : Info} {w₀ : World}
    (h : CsvHead env depth t₀ info₀ w₀ t info w) (hp : info₀.cbuf.ptr = .live)
    (hok : info₀.cbuf.Ok) (ht : t₀ ≤ info₀.tbuf.cnt) : AtHead t info₀ info := by
  induction h with
  | start => exact ⟨rfl, hp, hok, ht⟩
  | round hmore hround _ ih =>
    have hr := csvRound_ok hp hok (Nat.lt_of_le_of_ne ht hmore) hround
    have hat := ih hr.ptr hr.ok hr.le_end
    refine ⟨?_, hat.ptr, hat.ok, hat.le_end⟩
    rw [hat.rest, hr.rest]

/-- A loop that returns was at its head with all of the text taken. -/
theorem csvLoop_ok {fuel t : ℕ} {info info' : Info}
    (h : csvLoop env depth fuel t info w = .ok info' w') (hp : info.cbuf.ptr = .live)
    (hok : info.cbuf.Ok) (ht : t ≤ info.tbuf.cnt) : AtHead info.tbuf.cnt info info' := by
  induction fuel generalizing t info w with
  | zero => exact absurd h throw_ok
  | succ fuel ih =>
    rw [csvLoop_succ] at h
    by_cases hend : t = info.tbuf.cnt
    · rw [if_pos hend] at h
      obtain ⟨rfl, rfl⟩ := pure_ok.mp h
      exact ⟨rfl, hp, hok, le_rfl⟩
    · rw [if_neg hend] at h
      obtain ⟨⟨t₁, info₁⟩, m, hround, hrest⟩ := bind_ok.mp h
      have hr := csvRound_ok hp hok (Nat.lt_of_le_of_ne ht hend) hround
      have hat := ih hrest hr.ptr hr.ok hr.le_end
      have htbuf : info₁.tbuf = info.tbuf := by rw [hr.rest]
      refine ⟨?_, hat.ptr, hat.ok, htbuf ▸ hat.le_end⟩
      rw [hat.rest, hr.rest]

/-- Where every `write` transfers all its bytes, a round appends what it took. -/
theorem csvRound_run (hfull : Full env) (depth : ℕ) {t : ℕ} {info : Info} (hp : info.cbuf.ptr = .live)
    (hok : info.cbuf.Ok) (ht : t < info.tbuf.cnt) (w : World) :
    ∃ t' info' m, csvRound env depth t info w = .ok (t', info') m ∧ Rounded t info t' info' ∧
      t ≤ t' ∧
      Step (box info.csvFd w info.cbuf) (.add (csvText info.tbuf (t' - t) t))
        (box info.csvFd m info'.cbuf) ∧
      ∀ fd, fd ≠ info.csvFd → bytesTo fd m = bytesTo fd w := by
  have hmax : maxBufLen = 2 ^ 30 := rfl
  obtain ⟨c, t', hf, hc, hcok, hround⟩ := csvRound_cases hp hok ht env depth w
  have hfirst : Step (box info.csvFd w info.cbuf) (.add (csvText info.tbuf (t' - t) t))
      (box info.csvFd w c) := by
    have := Step.append (box info.csvFd w info.cbuf) (csvText info.tbuf (t' - t) t)
    rwa [box, box, hf.text]
  rcases hround with ⟨-, hr, hround⟩ | ⟨-, -, hr, hround⟩ | ⟨-, -, hr, hround⟩
  · exact ⟨t', _, w, hround, hr, hf.le, hfirst, fun _ _ => rfl⟩
  · exact ⟨t', _, _, hround, hr, hf.le, hfirst, fun _ _ => rfl⟩
  · have hcnt := hcok.cnt_le.trans hcok.sz_le
    rw [bind_of_ok (writeOut_run hfull info.csvFd hc (by omega) _ _ _)] at hround
    refine ⟨t', _, _, hround, hr, hf.le, ?_, ?_⟩
    · have hflush := Step.flush (box info.csvFd w c)
      have hbox : box info.csvFd (w.reallocated.wrote info.csvFd c.contents) { c with cnt := 0 } =
          ⟨bytesTo info.csvFd w ++ c.contents, []⟩ := by
        simp [box, bytesTo_wrote, Buf.contents]
      rw [hbox]
      simpa [box] using hfirst.add_trans hflush
    · intro fd hne
      rw [bytesTo_wrote, if_neg (Ne.symm hne), bytesTo_reallocated, List.append_nil]

/-- The csv loop takes all of the new text, and only writes to `csv_fd`. -/
theorem csvLoop_run (hfull : Full env) (depth fuel t : ℕ) (info : Info) (w : World)
    (hp : info.cbuf.ptr = .live) (hok : info.cbuf.Ok) (ht : t ≤ info.tbuf.cnt)
    (hfuel : csvFuel t info ≤ fuel) :
    ∃ c w', csvLoop env depth fuel t info w = .ok { info with cbuf := c } w' ∧
      c.ptr = .live ∧ c.Ok ∧
      Step (box info.csvFd w info.cbuf) (.add (csvText info.tbuf (info.tbuf.cnt - t) t))
        (box info.csvFd w' c) ∧
      ∀ fd, fd ≠ info.csvFd → bytesTo fd w' = bytesTo fd w := by
  induction fuel generalizing t info w with
  | zero =>
    have := csvFuel_pos t info
    omega
  | succ fuel ih =>
    rw [csvLoop_succ]
    by_cases hend : t = info.tbuf.cnt
    · rw [if_pos hend, hend]
      refine ⟨info.cbuf, w, rfl, hp, hok, ?_, fun _ _ => rfl⟩
      simpa [csvText, box] using Step.append (box info.csvFd w info.cbuf) []
    rw [if_neg hend]
    obtain ⟨t', info', m, hround, hr, hle, hfirst, hframe⟩ :=
      csvRound_run hfull depth hp hok (Nat.lt_of_le_of_ne ht hend) w
    have htbuf : info'.tbuf = info.tbuf := by rw [hr.rest]
    have hfd : info'.csvFd = info.csvFd := by rw [hr.rest]
    obtain ⟨c, w', hrun, hc, hcok, hrest, hframe'⟩ := ih t' info' m hr.ptr hr.ok hr.le_end
      (by have := hr.fuel; omega)
    rw [htbuf, hfd] at hrest
    rw [hfd] at hframe'
    refine ⟨c, w', ?_, hc, hcok, ?_, fun fd hne => (hframe' fd hne).trans (hframe fd hne)⟩
    · rw [bind_of_ok hround, hrun, hr.rest]
    · have hend' := hr.le_end
      rw [htbuf] at hend'
      rw [show info.tbuf.cnt - t = (t' - t) + (info.tbuf.cnt - t') by omega, csvText_add,
        show t + (t' - t) = t' by omega]
      exact hfirst.add_trans hrest

/-- Without a `cbuf` the loop only returns where it has nothing to store. -/
theorem csvLoop_not_live {t : ℕ} {info : Info} (hp : info.cbuf.ptr ≠ .live)
    (hroom : info.cbuf.cnt < info.cbuf.sz) (ht : t ≤ info.tbuf.cnt) (fuel : ℕ) (w : World) :
    csvLoop env depth (fuel + 2) t info w =
      if csvText info.tbuf (info.tbuf.cnt - t) t = [] then .ok info w
      else .error .undefined w := by
  rw [csvLoop_succ]
  by_cases hend : t = info.tbuf.cnt
  · rw [if_pos hend, if_pos (by rw [hend, Nat.sub_self]; rfl)]
    rfl
  have hfill := csvFill_not_live info.tbuf hp hroom (info.tbuf.cnt - t) t w
  rw [if_neg hend]
  split_ifs at hfill ⊢
  · rw [show t + (info.tbuf.cnt - t) = info.tbuf.cnt by omega] at hfill
    rw [bind_of_ok (t := w) (a := (info.tbuf.cnt, info)) (by rw [csvRound_eq hfill, if_pos rfl]),
      csvLoop_succ, if_pos rfl]
    rfl
  · apply bind_of_error
    exact bind_of_error hfill

theorem csvLoop_not_live_ok {fuel t : ℕ} {info info' : Info}
    (h : csvLoop env depth (fuel + 2) t info w = .ok info' w') (hp : info.cbuf.ptr ≠ .live)
    (hroom : info.cbuf.cnt < info.cbuf.sz) (ht : t ≤ info.tbuf.cnt) :
    csvText info.tbuf (info.tbuf.cnt - t) t = [] ∧ info' = info ∧ w' = w := by
  rw [csvLoop_not_live hp hroom ht] at h
  split_ifs at h with htext
  obtain ⟨rfl, rfl⟩ : info = info' ∧ w = w' := by simpa using h
  exact ⟨htext, rfl, rfl⟩

end CrayTests.PrintUtils
