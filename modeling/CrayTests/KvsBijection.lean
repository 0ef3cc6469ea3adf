import CrayTests.KvsCodec

/-!
# The codec is a bijection

`encode` and `decode` are inverse to each other between byte strings and strings of twice their
length over `'a'..'p'`. `decode` keeps the length of its string in an `int`, so it takes back the
strings of less than `2 ^ 31` characters, which are those of less than `2 ^ 30` bytes.
-/

namespace CrayTests.Kvs
open CInteger

def IsHex (s : List Byte) : Prop := ∀ c ∈ s, 97 ≤ c.toNat ∧ c.toNat ≤ 112

/-- `buf` holds the NUL-terminated string `s` and nothing else. -/
def HoldsString (buf s : List Byte) : Prop := buf = s ++ [0] ∧ 0 ∉ s

/-- `ebuf` holds the string of `bs`: it has the right length and alphabet, takes up `ENCODE_LEN`
bytes, and `decode` produces the bytes from it. -/
structure EncodedBy (bs ebuf s : List Byte) : Prop where
  holds : HoldsString ebuf s
  length : s.length = 2 * bs.length
  hex : IsHex s
  fits : ebuf.length = encodeLen bs.length
  decoded : ∃ outlen, decode ebuf = some (bs, outlen)

def Encodes (bs : List Byte) : Prop :=
  ∃ ebuf s, encode bs = some ebuf ∧ EncodedBy bs ebuf s

/-- Of the bytes that `decode` produces from the string there are half as many as characters, and
encoding them gives the string back. -/
def Reencodes (s : List Byte) : Prop :=
  ∀ buf, HoldsString buf s → ∃ bs outlen, decode buf = some (bs, outlen) ∧
    bs.length = s.length / 2 ∧ ∃ ebuf, encode bs = some ebuf ∧ HoldsString ebuf s

theorem toNat_lowChar (b : Byte) : 97 ≤ (lowChar b).toNat ∧ (lowChar b).toNat ≤ 112 := by
  revert b
  decide +kernel

theorem toNat_highChar (b : Byte) : 97 ≤ (highChar b).toNat ∧ (highChar b).toNat ≤ 112 := by
  revert b
  decide +kernel

theorem chars_joinChars_ofNat (i j : Fin 16) :
    lowChar (joinChars (BitVec.ofNat 8 (97 + i)) (BitVec.ofNat 8 (97 + j))) =
        BitVec.ofNat 8 (97 + i) ∧
      highChar (joinChars (BitVec.ofNat 8 (97 + i)) (BitVec.ofNat 8 (97 + j))) =
        BitVec.ofNat 8 (97 + j) := by
  revert i j
  decide +kernel

theorem exists_nibble {c : Byte} (h : 97 ≤ c.toNat ∧ c.toNat ≤ 112) :
    ∃ i : Fin 16, c = BitVec.ofNat 8 (97 + i) := by
  refine ⟨⟨c.toNat - 97, by omega⟩, ?_⟩
  apply BitVec.eq_of_toNat_eq
  rw [BitVec.toNat_ofNat]
  have := c.isLt
  dsimp only
  omega

/-- Two characters are those of the byte they are joined to. -/
theorem chars_joinChars {low high : Byte} (hlow : 97 ≤ low.toNat ∧ low.toNat ≤ 112)
    (hhigh : 97 ≤ high.toNat ∧ high.toNat ≤ 112) :
    lowChar (joinChars low high) = low ∧ highChar (joinChars low high) = high := by
  obtain ⟨i, rfl⟩ := exists_nibble hlow
  obtain ⟨j, rfl⟩ := exists_nibble hhigh
  exact chars_joinChars_ofNat i j

theorem isHex_encodeChars (bs : List Byte) : IsHex (encodeChars bs) := by
  induction bs with
  | nil => exact fun c hc => by cases hc
  | cons b bs ih =>
    intro c hc
    simp only [encodeChars_cons, List.mem_cons] at hc
    rcases hc with rfl | rfl | hc
    · exact toNat_lowChar b
    · exact toNat_highChar b
    · exact ih c hc

/-- Every string of even length over the alphabet is the encoding of half as many bytes. -/
theorem exists_encodeChars : ∀ {s : List Byte}, IsHex s → Even s.length →
    ∃ bs, encodeChars bs = s
  | [], _, _ => ⟨[], rfl⟩
  | [c], _, heven => by simp at heven
  | low :: high :: s, hs, heven => by
    have hrest : Even s.length := by
      simpa [Nat.even_add_one] using heven
    obtain ⟨bs, rfl⟩ := exists_encodeChars
      (fun c hc => hs c (List.mem_cons_of_mem _ (List.mem_cons_of_mem _ hc))) hrest
    obtain ⟨hlow, hhigh⟩ := chars_joinChars (hs low (by simp)) (hs high (by simp))
    exact ⟨joinChars low high :: bs, by rw [encodeChars_cons, hlow, hhigh]⟩

theorem holdsString_encodeChars (bs : List Byte) :
    HoldsString (encodeChars bs ++ [0]) (encodeChars bs) :=
  ⟨rfl, fun h => ne_zero_of_mem_encodeChars h rfl⟩

theorem encodes_of_length_lt {bs : List Byte} (h : bs.length < 2 ^ 30) : Encodes bs :=
  ⟨encodeChars bs ++ [0], encodeChars bs, encode_eq h.le,
    { holds := holdsString_encodeChars bs
      length := length_encodeChars bs
      hex := isHex_encodeChars bs
      fits := by rw [List.length_append, length_encodeChars, encodeLen, List.length_singleton]
      decoded := ⟨2 * bs.length, decode_encodeChars h []⟩ }⟩

/-- `decode` cannot produce `2 ^ 30` bytes or more. -/
theorem length_of_decode {buf bs : List Byte} {outlen : ℕ}
    (h : decode buf = some (bs, outlen)) : bs.length < 2 ^ 30 := by
  have hlen := (int32_range (strlen buf)).2
  have hhalf : ((int32 (strlen buf)).tdiv 2).toNat < 2 ^ 30 := by
    rcases Int.le_total 0 (int32 (strlen buf)) with hpos | hneg
    · rw [Int.tdiv_eq_ediv_of_nonneg hpos]
      omega
    · have hflip := Int.tdiv_nonneg (Int.neg_nonneg.mpr hneg) (show (0 : ℤ) ≤ 2 by decide)
      rw [Int.neg_tdiv] at hflip
      omega
  unfold decode at h
  dsimp only at h
  split_ifs at h
  obtain ⟨rfl, -⟩ := Prod.mk.inj (Option.some.inj h)
  rw [List.length_map, List.length_range]
  exact hhalf

theorem reencodes_iff {s : List Byte} (hs : IsHex s) (heven : Even s.length) :
    Reencodes s ↔ s.length < 2 ^ 31 := by
  obtain ⟨bs, rfl⟩ := exists_encodeChars hs heven
  rw [length_encodeChars]
  constructor
  · intro h
    obtain ⟨bs', outlen, hdecode, hlen, -⟩ := h _ (holdsString_encodeChars bs)
    have := length_of_decode hdecode
    rw [length_encodeChars] at hlen
    omega
  · rintro hlen buf ⟨rfl, -⟩
    have hshort : bs.length < 2 ^ 30 := by omega
    exact ⟨bs, _, decode_encodeChars hshort [], by rw [length_encodeChars]; omega, _,
      encode_eq hshort.le, holdsString_encodeChars bs⟩

/-- Decoding undoes encoding for every byte string of less than `2 ^ 30` bytes, and encoding undoes
decoding exactly for the strings whose length is an `int`. -/
theorem codec_bijective :
    (∀ bs : List Byte, bs.length < 2 ^ 30 → Encodes bs) ∧
      ∀ s : List Byte, IsHex s → Even s.length → (Reencodes s ↔ s.length < 2 ^ 31) :=
  ⟨fun _ => encodes_of_length_lt, fun _ => reencodes_iff⟩

theorem codec_bijective_twoBytes :
    Encodes [0, 255] ∧ (Reencodes [112, 97] ↔ [(112 : Byte), 97].length < 2 ^ 31) := by
  refine ⟨codec_bijective.1 [0, 255] (by decide), codec_bijective.2 [112, 97] ?_ (by decide)⟩
  unfold IsHex
  decide

/-- A string of `2 ^ 31` characters is not taken back. -/
theorem not_reencodes_long :
    IsHex (List.replicate (2 ^ 31) 97) ∧ Even (List.replicate (2 ^ 31) (97 : Byte)).length ∧
      ¬ Reencodes (List.replicate (2 ^ 31) 97) := by
  have hlen : (List.replicate (2 ^ 31) (97 : Byte)).length = 2 ^ 31 := List.length_replicate
  have hhex : IsHex (List.replicate (2 ^ 31) 97) := by
    intro c hc
    obtain ⟨-, rfl⟩ := List.mem_replicate.mp hc
    decide
  have heven : Even (List.replicate (2 ^ 31) (97 : Byte)).length := by
    rw [hlen]
    exact ⟨2 ^ 30, by norm_num⟩
  refine ⟨hhex, heven, ?_⟩
  rw [reencodes_iff hhex heven, hlen]
  exact Nat.lt_irrefl _

end CrayTests.Kvs
