import CrayTests.CInteger

/-!
# The print utilities

`Info` is the `info` structure of `ct_print_utils.c`, with each buffer's pointer, size and
count in a `Buf`. The calls of the C library are answered by an environment: the result of
each `write`, and which allocations succeed. A line is given by the bytes that its format
expands to.

A run stops at `abort`, and at undefined behaviour: storing outside a buffer or through a null
pointer, or using memory that was freed. Bytes read from outside a buffer are arbitrary.
-/

namespace CrayTests.PrintUtils

open CInteger

abbrev Byte := BitVec 8

def initBufLen : ℕ := 4096

def maxBufLen : ℕ := 4096 * 4096 * 64

def stdoutFd : ℤ := 1

inductive Ptr
  | null
  | live
  | freed
deriving DecidableEq

structure Buf where
  ptr : Ptr
  data : ℕ → Byte
  sz : ℕ
  cnt : ℕ

structure Info where
  self : Ptr
  testName : Ptr
  csvPath : Ptr
  csvHeader : Ptr
  tbuf : Buf
  cbuf : Buf
  csvFd : ℤ

inductive OpenResult
  | opened (fd : ℕ) (h : (fd : ℤ) ≠ stdoutFd)
  | noEntry
  | failed
deriving DecidableEq

def OpenResult.fd : OpenResult → ℤ
  | .opened fd _ => fd
  | .noEntry => -1
  | .failed => -1

/-- The answers of the C library: `writeRet i n` is the result of the `i`-th `write`, of `n`
bytes. -/
structure Env where
  writeRet : ℕ → ℕ → ℤ
  mallocOk : ℕ → Bool
  reallocOk : ℕ → Bool
  openRet : OpenResult
  tbufData : ℕ → Byte
  cbufData : ℕ → Byte

inductive Stop
  | abort
  | undefined
  | timeout
deriving DecidableEq

structure World where
  writes : ℕ
  mallocs : ℕ
  reallocs : ℕ
  log : List (ℤ × List Byte)
  /-- The descriptors passed to `close`, in order. -/
  closed : List ℤ

abbrev Run := EStateM Stop World

def bytesTo (fd : ℤ) (w : World) : List Byte :=
  (w.log.filter fun e => e.1 = fd).flatMap Prod.snd

def Buf.contents (b : Buf) : List Byte := (List.range b.cnt).map b.data

def store (data : ℕ → Byte) (pos : ℕ) (bytes : List Byte) (i : ℕ) : Byte :=
  if i < pos then data i else (bytes[i - pos]?).getD (data i)

def deref (p : Ptr) : Run Unit := if p = .live then pure () else throw .undefined

def free : Ptr → Run Ptr
  | .null => pure .null
  | .live => pure .freed
  | .freed => throw .undefined

def malloc (env : Env) : Run Ptr := fun w =>
  .ok (if env.mallocOk w.mallocs then .live else .null) { w with mallocs := w.mallocs + 1 }

/-- Sizes that do not fit in `ptrdiff_t` are refused. -/
def realloc (env : Env) (p : Ptr) (size : ℕ) : Run Ptr := fun w =>
  if p = .freed then .error .undefined w
  else .ok (if size < 2 ^ 63 ∧ env.reallocOk w.reallocs then .live else .null)
    { w with reallocs := w.reallocs + 1 }

def write (env : Env) (fd : ℤ) (bytes : List Byte) : Run ℤ := fun w =>
  .ok (env.writeRet w.writes bytes.length)
    { w with
      writes := w.writes + 1
      log := w.log ++ [(fd, bytes.take (env.writeRet w.writes bytes.length).toNat)] }

def close (fd : ℤ) : Run Unit := fun w => .ok () { w with closed := w.closed ++ [fd] }

def writeBuf (env : Env) (fd : ℤ) (b : Buf) : Run ℤ := do
  deref b.ptr
  write env fd b.contents

/-- `vsnprintf (buf + buf_cnt, buf_sz - buf_cnt, …)`: the difference is a `size_t`, the
result is the length of the line, whatever part of it was stored. -/
def vsnprintf (b : Buf) (line : List Byte) : Run (Buf × ℤ) := do
  let size := uint64 (b.sz - b.cnt)
  let ret : ℤ := if line.length < 2 ^ 31 then line.length else -1
  if size = 0 then
    pure (b, ret)
  else if b.ptr = .live ∧ b.cnt + (min line.length (size - 1) + 1) ≤ b.sz then
    pure ({ b with data := store b.data b.cnt (line.take (size - 1) ++ [0]) }, ret)
  else
    throw .undefined

def isspace (b : Byte) : Bool := b = 32 ∨ (9 ≤ b.toNat ∧ b.toNat ≤ 13)

def newline : Byte := 10

def comma : Byte := 44

/-- `__chk_write_err`, with `ct_fini_info` as a parameter as each calls the other. -/
def chkWriteErr (fini : Info → Run Info) (ret : ℤ) (info : Info) : Run Unit :=
  if int32 ret = -1 then do
    let _ ← fini info
    throw .abort
  else
    pure ()

def writeOut (env : Env) (fini : Info → Run Info) (fd : ℤ) (b : Buf) (info : Info) :
    Run Unit := do
  let ret ← writeBuf env fd b
  chkWriteErr fini ret info

def finiTbuf (env : Env) (fini : Info → Run Info) (info : Info) : Run Info :=
  if info.tbuf.cnt ≠ 0 ∧ info.tbuf.ptr ≠ .null then do
    writeOut env fini stdoutFd info.tbuf info
    let p ← free info.tbuf.ptr
    pure { info with tbuf := { info.tbuf with ptr := p } }
  else
    pure info

def finiCbuf (env : Env) (fini : Info → Run Info) (info : Info) : Run Info :=
  if info.cbuf.cnt ≠ 0 then do
    writeOut env fini info.csvFd info.cbuf info
    let p ← free info.cbuf.ptr
    pure { info with cbuf := { info.cbuf with ptr := p } }
  else
    pure info

/-- A failing `close` is only reported. -/
def closeCsv (info : Info) : Run Unit :=
  if info.csvFd ≠ -1 then close info.csvFd else pure ()

/-- The calls of `ct_fini_info` that may be nested through `__chk_write_err` are bounded by
the first argument. -/
def ctFiniInfo (env : Env) : ℕ → Info → Run Info
  | 0, _ => throw .timeout
  | depth + 1, info => do
    deref info.self
    let testName ← free info.testName
    let csvPath ← free info.csvPath
    let csvHeader ← free info.csvHeader
    let info ← finiTbuf env (ctFiniInfo env depth)
      { info with testName := testName, csvPath := csvPath, csvHeader := csvHeader }
    let info ← finiCbuf env (ctFiniInfo env depth) info
    closeCsv info
    let self ← free info.self
    pure { info with self := self }

/-- `__grow_buf (&buf, (int) buf_sz)`: the result is the new size or -1, which the caller
stores. -/
def growBuf (env : Env) (b : Buf) : Run (Ptr × ℤ) := do
  let newSz := int32 (int32 b.sz * 2)
  if newSz > maxBufLen then
    pure (b.ptr, -1)
  else
    let tmp ← realloc env b.ptr (uint64 newSz)
    if tmp = .null then
      pure (b.ptr, -1)
    else
      pure (tmp, newSz)

def blankInfo (env : Env) : Info where
  self := .live
  testName := .null
  csvPath := .null
  csvHeader := .null
  tbuf := { ptr := .null, data := env.tbufData, sz := 0, cnt := 0 }
  cbuf := { ptr := .null, data := env.cbufData, sz := 0, cnt := 0 }
  csvFd := 0

/-- The bytes of `test_name` that `ct_init_info` writes: a name that holds a newline is
written with its terminating null. -/
def nameBytes (testName : List Byte) : List Byte :=
  if newline ∈ testName then testName ++ [0] else testName ++ [newline]

/-- `csv_fd` is the file that `csv_path` names, or -1; without a path it stays 0. -/
def openCsv (env : Env) (csvPath : Option (List Byte)) (info : Info) : Run Info :=
  match csvPath with
  | none => pure info
  | some _ => do
    let p ← malloc env
    pure { info with csvPath := p, csvFd := env.openRet.fd }

def allocBufs (env : Env) (info : Info) : Run Info := do
  let tbuf ← malloc env
  let cbuf ← malloc env
  pure
    { info with
      tbuf := { info.tbuf with ptr := tbuf, sz := initBufLen }
      cbuf := { info.cbuf with ptr := cbuf, sz := initBufLen } }

def ctInitInfo (env : Env) (depth : ℕ) (testName csvPath : Option (List Byte)) :
    Run (Option Info) := do
  let self ← malloc env
  if self = .null then
    throw .abort
  else
    match testName with
    | none => do
      let _ ← ctFiniInfo env depth (blankInfo env)
      pure none
    | some testName => do
      let p ← malloc env
      -- the copy and the `write` go through the pointer
      deref p
      let ret ← write env stdoutFd (nameBytes testName)
      chkWriteErr (ctFiniInfo env depth) ret { blankInfo env with testName := p }
      let info ← openCsv env csvPath { blankInfo env with testName := p }
      if csvPath.isSome ∧ env.openRet = .failed then do
        let _ ← ctFiniInfo env depth info
        pure none
      else do
        let info ← allocBufs env info
        pure (some info)

/-- The body of the loop on an exhausted `tbuf`, up to printing the line again. -/
def growOrFlush (env : Env) (depth : ℕ) (info : Info) : Run Info := do
  let grown ← growBuf env info.tbuf
  if grown.2 = -1 then
    if info.tbuf.cnt = 0 then do
      let _ ← ctFiniInfo env depth info
      throw .abort
    else do
      writeOut env (ctFiniInfo env depth) stdoutFd info.tbuf info
      pure { info with tbuf := { info.tbuf with cnt := 0 } }
  else
    pure { info with tbuf := { info.tbuf with ptr := grown.1, sz := uint64 grown.2 } }

def makeRoom (env : Env) (depth : ℕ) (line : List Byte) : ℕ → Info → ℤ → Run (Info × ℤ)
  | 0, _, _ => throw .timeout
  | fuel + 1, info, tbw =>
    if uint64 (info.tbuf.sz - info.tbuf.cnt - tbw) ≠ 0 then
      pure (info, tbw)
    else do
      let info ← growOrFlush env depth info
      let printed ← vsnprintf info.tbuf line
      makeRoom env depth line fuel { info with tbuf := printed.1 } printed.2

/-- `cbuf[cbw++] = c`; the count runs in `cbw`'s place. -/
def putc (cbuf : Buf) (c : Byte) : Run Buf := do
  deref cbuf.ptr
  pure { cbuf with data := store cbuf.data cbuf.cnt [c], cnt := cbuf.cnt + 1 }

/-- The inner loop over `tbuf[t]`, of at most `n` steps. -/
def csvFill (tbuf : Buf) : ℕ → ℕ → Buf → Run (Buf × ℕ)
  | 0, t, cbuf => pure (cbuf, t)
  | n + 1, t, cbuf =>
    if cbuf.cnt < cbuf.sz then
      if isspace (tbuf.data t) ∧ tbuf.data t ≠ newline then
        if t + 1 < tbuf.sz ∧ ¬ isspace (tbuf.data (t + 1)) then do
          let cbuf ← putc cbuf comma
          csvFill tbuf n (t + 1) cbuf
        else
          csvFill tbuf n (t + 1) cbuf
      else do
        let cbuf ← putc cbuf (tbuf.data t)
        csvFill tbuf n (t + 1) cbuf
    else
      pure (cbuf, t)

def csvLoop (env : Env) (depth : ℕ) : ℕ → ℕ → Info → Run Info
  | 0, _, _ => throw .timeout
  | fuel + 1, t, info =>
    if t = info.tbuf.cnt then
      pure info
    else do
      let filled ← csvFill info.tbuf (info.tbuf.cnt - t) t info.cbuf
      let info := { info with cbuf := filled.1 }
      if filled.2 = info.tbuf.cnt then
        csvLoop env depth fuel filled.2 info
      else do
        let grown ← growBuf env info.cbuf
        if grown.2 = -1 then do
          writeOut env (ctFiniInfo env depth) info.csvFd info.cbuf info
          csvLoop env depth fuel filled.2 { info with cbuf := { info.cbuf with cnt := 0 } }
        else
          csvLoop env depth fuel filled.2
            { info with cbuf := { info.cbuf with ptr := grown.1, sz := uint64 grown.2 } }

/-- The first loop runs its body at most once, the second less often than there are bytes
left, and once more with `cbuf` full. -/
def ctAddLine (env : Env) (depth : ℕ) (info : Info) (line : List Byte) : Run Info := do
  deref info.self
  let printed ← vsnprintf info.tbuf line
  let roomy ← makeRoom env depth line 2 { info with tbuf := printed.1 } printed.2
  let t := roomy.1.tbuf.cnt
  let info : Info :=
    { roomy.1 with tbuf := { roomy.1.tbuf with cnt := uint64 (roomy.1.tbuf.cnt + roomy.2) } }
  if info.csvFd ≠ -1 then
    csvLoop env depth (info.tbuf.cnt - t + 2) t info
  else
    pure info

def printTable (env : Env) (depth : ℕ) (info : Info) : Run Unit :=
  if info.tbuf.cnt ≠ 0 then
    writeOut env (ctFiniInfo env depth) stdoutFd info.tbuf info
  else
    pure ()

def printCsv (env : Env) (depth : ℕ) (info : Info) : Run Unit :=
  if info.csvFd ≠ -1 ∧ info.cbuf.cnt ≠ 0 then
    writeOut env (ctFiniInfo env depth) info.csvFd info.cbuf info
  else
    pure ()

def ctPrintData (env : Env) (depth : ℕ) (info : Info) : Run Unit := do
  deref info.self
  printTable env depth info
  printCsv env depth info

end CrayTests.PrintUtils
