import CrayTests.CInteger

/-!
# The string codec of the key-value space

`PMI_KVS_Put` stores NUL-terminated strings, so `encode` writes every byte as two characters of
`'a'..'p'`, low nibble first, and `decode` reads them back. Both walk their buffers with `int`
indices. `none` is a failed assertion or an access outside a buffer.
-/

namespace CrayTests.Kvs
open CInteger

abbrev Byte := BitVec 8

def encodeLen (len : ℕ) : ℕ := 2 * len + 1

def charA : BitVec 32 := 97

/-- `(b & 0xF) + 'a'`, computed in `int` and narrowed to `char`. -/
def lowChar (b : Byte) : Byte := ((b.signExtend 32 &&& 0xF) + charA).truncate 8

/-- `((b >> 4) & 0xF) + 'a'`, with the arithmetic shift of a signed `char`. -/
def highChar (b : Byte) : Byte := (((b.signExtend 32).sshiftRight 4 &&& 0xF) + charA).truncate 8

/-- `((high - 'a') << 4) | (low - 'a')`, narrowed to `char`. -/
def joinChars (low high : Byte) : Byte :=
  (((high.signExtend 32 - charA) <<< 4) ||| (low.signExtend 32 - charA)).truncate 8

def storeAt (buf : List Byte) (index : ℤ) (b : Byte) : Option (List Byte) :=
  if 0 ≤ index ∧ index < buf.length then some (buf.set index.toNat b) else none

def encodeLoop : ℕ → List Byte → List Byte → Option (List Byte)
  | _, [], ebuf => some ebuf
  | i, b :: bs, ebuf => do
    let ebuf ← storeAt ebuf (int32 (2 * i)) (lowChar b)
    let ebuf ← storeAt ebuf (int32 (int32 (2 * i) + 1)) (highChar b)
    encodeLoop (i + 1) bs ebuf

def encode (buf : List Byte) : Option (List Byte) :=
  encodeLoop 0 buf (List.replicate (encodeLen buf.length) 0)

def strlen (s : List Byte) : ℕ := (s.takeWhile (· ≠ 0)).length

def cString (s : List Byte) : List Byte := s.takeWhile (· ≠ 0)

/-- `malloc` cannot serve requests beyond `PTRDIFF_MAX`. -/
def mallocFits (size : ℕ) : Prop := size < 2 ^ 63

instance (size : ℕ) : Decidable (mallocFits size) := inferInstanceAs (Decidable (_ < _))

/-- The decoded bytes and `*outlen`, which is the length of the string. -/
def decode (ebuf : List Byte) : Option (List Byte × ℕ) :=
  let len := int32 (strlen ebuf)
  if mallocFits (uint64 (len.tdiv 2)) then
    some ((List.range (len.tdiv 2).toNat).map
      (fun i => joinChars (ebuf.getD (2 * i) 0) (ebuf.getD (2 * i + 1) 0)), uint64 len)
  else none

def memcpy (buffer data : List Byte) (count : ℕ) : Option (List Byte) :=
  if count ≤ data.length ∧ count ≤ buffer.length then some (data.take count ++ buffer.drop count)
  else none

/-- What `gni_pmi_receive` does with the value of the key: `PMI_KVS_Get` copies it into a buffer of
`ENCODE_LEN(len)` bytes or fails, and the decoded bytes go to `buffer`. -/
def receiveValue (value buffer : List Byte) (len : ℕ) : Option (List Byte) := do
  if value.length + 1 ≤ encodeLen len then
    let keyval := value ++ List.replicate (encodeLen len - value.length) 0
    let (data, outlen) ← decode keyval
    memcpy buffer data (if outlen < len then outlen else len)
  else none

theorem joinChars_lowChar_highChar (b : Byte) : joinChars (lowChar b) (highChar b) = b := by
  revert b
  decide +kernel

theorem lowChar_ne_zero (b : Byte) : lowChar b ≠ 0 := by
  revert b
  decide +kernel

theorem highChar_ne_zero (b : Byte) : highChar b ≠ 0 := by
  revert b
  decide +kernel

def encodeChars (bs : List Byte) : List Byte := bs.flatMap (fun b => [lowChar b, highChar b])

@[simp] theorem encodeChars_nil : encodeChars [] = [] := rfl

@[simp] theorem encodeChars_cons (b : Byte) (bs : List Byte) :
    encodeChars (b :: bs) = lowChar b :: highChar b :: encodeChars bs := rfl

@[simp] theorem length_encodeChars (bs : List Byte) : (encodeChars bs).length = 2 * bs.length := by
  induction bs with
  | nil => rfl
  | cons b bs ih => simp only [encodeChars_cons, List.length_cons, ih]; omega

theorem ne_zero_of_mem_encodeChars {bs : List Byte} {c : Byte} (h : c ∈ encodeChars bs) :
    c ≠ 0 := by
  induction bs with
  | nil => cases h
  | cons b bs ih =>
    simp only [encodeChars_cons, List.mem_cons] at h
    rcases h with rfl | rfl | h
    · exact lowChar_ne_zero b
    · exact highChar_ne_zero b
    · exact ih h

theorem storeAt_append (pre post : List Byte) (b c : Byte) {index : ℤ}
    (h : index = pre.length) : storeAt (pre ++ b :: post) index c = some (pre ++ c :: post) := by
  subst h
  simp [storeAt]

/-- The loop fills the zeroed rest of the buffer as long as `2 * i` stays an `int`. -/
theorem encodeLoop_eq (bs : List Byte) (i : ℕ) (pre : List Byte) (hpre : pre.length = 2 * i)
    (hlen : i + bs.length ≤ 2 ^ 30) :
    encodeLoop i bs (pre ++ List.replicate (encodeLen bs.length) 0) =
      some (pre ++ encodeChars bs ++ [0]) := by
  induction bs generalizing i pre with
  | nil => simp [encodeLoop, encodeLen]
  | cons b bs ih =>
    rw [List.length_cons] at hlen
    have hi : int32 (2 * i) = pre.length := by
      rw [int32_eq_self (by omega) (by omega), hpre]
      push_cast
      ring
    have hi' : int32 (int32 (2 * i) + 1) = (pre ++ [lowChar b]).length := by
      rw [hi, int32_eq_self (by omega) (by omega)]
      simp
    have hsplit : List.replicate (encodeLen (b :: bs).length) (0 : Byte) =
        0 :: 0 :: List.replicate (encodeLen bs.length) 0 := by
      rw [← List.replicate_succ, ← List.replicate_succ]
      congr 1
    have hih := ih (i + 1) (pre ++ [lowChar b] ++ [highChar b])
      (by simp only [List.length_append, List.length_singleton]; omega) (by omega)
    rw [encodeLoop, hsplit, storeAt_append pre _ 0 (lowChar b) hi, Option.bind_eq_bind,
      Option.bind_some, List.append_cons, storeAt_append _ _ 0 (highChar b) hi',
      Option.bind_some, List.append_cons, hih]
    simp

theorem encode_eq {bs : List Byte} (h : bs.length ≤ 2 ^ 30) :
    encode bs = some (encodeChars bs ++ [0]) := by
  simpa [encode] using encodeLoop_eq bs 0 [] rfl (by omega)

theorem cString_encodeChars (bs : List Byte) (rest : List Byte) :
    cString (encodeChars bs ++ 0 :: rest) = encodeChars bs := by
  unfold cString
  rw [List.takeWhile_append_of_pos (fun c hc => by simpa using ne_zero_of_mem_encodeChars hc)]
  simp

theorem getD_encodeChars (bs : List Byte) (rest : List Byte) (i : ℕ) (h : i < bs.length) :
    joinChars ((encodeChars bs ++ rest).getD (2 * i) 0)
      ((encodeChars bs ++ rest).getD (2 * i + 1) 0) = bs[i] := by
  induction bs generalizing i with
  | nil => simp at h
  | cons b bs ih =>
    cases i with
    | zero => simpa using joinChars_lowChar_highChar b
    | succ i =>
      have := ih i (by simpa using h)
      simpa [Nat.mul_succ] using this

theorem decode_encodeChars {bs : List Byte} (h : bs.length < 2 ^ 30) (rest : List Byte) :
    decode (encodeChars bs ++ 0 :: rest) = some (bs, 2 * bs.length) := by
  have hlen : strlen (encodeChars bs ++ 0 :: rest) = 2 * bs.length := by
    rw [strlen, ← cString, cString_encodeChars, length_encodeChars]
  have hint : int32 ((2 * bs.length : ℕ) : ℤ) = (2 * bs.length : ℕ) := int32_natCast (by omega)
  have hdiv : ((2 * bs.length : ℕ) : ℤ).tdiv 2 = (bs.length : ℕ) := by
    rw [Int.tdiv_eq_ediv_of_nonneg (by omega)]
    omega
  have hfits : mallocFits (uint64 (bs.length : ℕ)) := by
    rw [uint64_natCast (by omega)]
    unfold mallocFits
    omega
  have hout : uint64 ((2 * bs.length : ℕ) : ℤ) = 2 * bs.length := uint64_natCast (by omega)
  have hdata : (List.range bs.length).map (fun i =>
      joinChars ((encodeChars bs ++ 0 :: rest).getD (2 * i) 0)
        ((encodeChars bs ++ 0 :: rest).getD (2 * i + 1) 0)) = bs := by
    apply List.ext_getElem (by simp)
    intro i h1 h2
    rw [List.getElem_map, List.getElem_range]
    exact getD_encodeChars bs _ i h2
  unfold decode
  rw [hlen, hint]
  dsimp only
  rw [hdiv, Int.toNat_natCast, hdata, hout, if_pos hfits]

/-- Receiving as many bytes as were sent overwrites the whole buffer with them. -/
theorem receiveValue_encodeChars {bs buffer : List Byte} (h : bs.length < 2 ^ 30)
    (hbuf : buffer.length = bs.length) :
    receiveValue (encodeChars bs) buffer bs.length = some bs := by
  have hval : (encodeChars bs).length + 1 ≤ encodeLen bs.length := by simp [encodeLen]
  have hpad : List.replicate (encodeLen bs.length - (encodeChars bs).length) (0 : Byte) =
      0 :: [] := by
    simp [encodeLen]
  have hmin : (if 2 * bs.length < bs.length then 2 * bs.length else bs.length) = bs.length := by
    split_ifs <;> omega
  simp only [receiveValue, if_pos hval, hpad, decode_encodeChars h, Option.bind_eq_bind,
    Option.bind_some, hmin, memcpy, hbuf, le_refl, and_self, if_true]
  simp [← hbuf]

/-- Once `2 * i` leaves `int` the store is outside the buffer. -/
theorem encodeLoop_eq_none (bs : List Byte) (i : ℕ) (ebuf : List Byte) (hi : i ≤ 2 ^ 30)
    (hlen : 2 ^ 30 < i + bs.length) : encodeLoop i bs ebuf = none := by
  induction bs generalizing i ebuf with
  | nil => simp at hlen; omega
  | cons b bs ih =>
    rw [List.length_cons] at hlen
    by_cases hlt : i < 2 ^ 30
    · rw [encodeLoop]
      cases storeAt ebuf (int32 (2 * i)) (lowChar b) with
      | none => rfl
      | some ebuf₁ =>
        rw [Option.bind_eq_bind, Option.bind_some]
        cases storeAt ebuf₁ (int32 (int32 (2 * i) + 1)) (highChar b) with
        | none => rfl
        | some ebuf₂ => exact ih (i + 1) ebuf₂ (by omega) (by omega)
    · have hwrap : int32 (2 * i) = -2 ^ 31 := by
        obtain rfl : i = 2 ^ 30 := by omega
        rw [int32_eq_iff]
        norm_num
      rw [encodeLoop, hwrap, storeAt, if_neg (by norm_num)]
      rfl

theorem encode_eq_none {bs : List Byte} (h : 2 ^ 30 < bs.length) : encode bs = none :=
  encodeLoop_eq_none bs 0 _ (by norm_num) (by omega)

end CrayTests.Kvs
