import CrayTests.KvsCodec

/-!
# Receiving a payload shorter than requested

`gni_pmi_receive` copies at most as many bytes as `decode` reports. `decode` reports the length of
the string, which is twice the number of decoded bytes.
-/

namespace CrayTests.Kvs
open CInteger

variable {bs buffer value : List Byte}

/-- The string that `gni_pmi_send` puts under the key. -/
def storedValue (bs : List Byte) : Option (List Byte) := (encode bs).map cString

/-- The buffer of `gni_pmi_receive` after a successful `PMI_KVS_Get`. -/
def keyval (value : List Byte) (len : ℕ) : List Byte :=
  value ++ List.replicate (encodeLen len - value.length) 0

/-- `decode` reports the decoded bytes, and exactly these are received. -/
structure ExactReceive (bs buffer value : List Byte) : Prop where
  decoded : decode (keyval value buffer.length) = some (bs, bs.length)
  received : receiveValue value buffer buffer.length = some (bs ++ buffer.drop bs.length)

theorem storedValue_eq (h : storedValue bs = some value) :
    bs.length ≤ 2 ^ 30 ∧ value = encodeChars bs := by
  have hlen : bs.length ≤ 2 ^ 30 := by
    by_contra hlong
    rw [storedValue, encode_eq_none (by omega)] at h
    cases h
  rw [storedValue, encode_eq hlen, Option.map_some, cString_encodeChars] at h
  exact ⟨hlen, (Option.some.inj h).symm⟩

theorem keyval_encodeChars {len : ℕ} (hle : bs.length ≤ len) :
    ∃ rest, keyval (encodeChars bs) len = encodeChars bs ++ 0 :: rest := by
  obtain ⟨k, hk⟩ : ∃ k, encodeLen len - (encodeChars bs).length = k + 1 :=
    ⟨2 * (len - bs.length), by rw [length_encodeChars, encodeLen]; omega⟩
  exact ⟨List.replicate k 0, by rw [keyval, hk, List.replicate_succ]⟩

/-- A string of `2 ^ 31` characters has a negative `int` length. -/
theorem decode_eq_none (h : bs.length = 2 ^ 30) (rest : List Byte) :
    decode (encodeChars bs ++ 0 :: rest) = none := by
  have hlen : strlen (encodeChars bs ++ 0 :: rest) = 2 ^ 31 := by
    rw [strlen, ← cString, cString_encodeChars, length_encodeChars, h]
    norm_num
  have hint : int32 ((2 ^ 31 : ℕ) : ℤ) = -2 ^ 31 := by
    rw [int32_eq_iff]
    norm_num
  unfold decode
  rw [hlen, hint]
  exact if_neg (by decide)

theorem decode_keyval {len : ℕ} (h : bs.length < 2 ^ 30) (hle : bs.length ≤ len) :
    decode (keyval (encodeChars bs) len) = some (bs, 2 * bs.length) := by
  obtain ⟨rest, hrest⟩ := keyval_encodeChars hle
  rw [hrest, decode_encodeChars h]

theorem receiveValue_eq_none {len : ℕ} (h : bs.length = 2 ^ 30) (hle : bs.length ≤ len) :
    receiveValue (encodeChars bs) buffer len = none := by
  obtain ⟨rest, hrest⟩ := keyval_encodeChars hle
  unfold receiveValue
  split_ifs
  · change (decode (keyval (encodeChars bs) len)).bind _ = _
    rw [hrest, decode_eq_none h]
    rfl
  · rfl

theorem receiveValue_eq (h : bs.length < 2 ^ 30) (hle : bs.length ≤ buffer.length) :
    receiveValue (encodeChars bs) buffer buffer.length =
      memcpy buffer bs (if 2 * bs.length < buffer.length then 2 * bs.length else buffer.length) := by
  have hfits : (encodeChars bs).length + 1 ≤ encodeLen buffer.length := by
    rw [length_encodeChars, encodeLen]
    omega
  rw [receiveValue, if_pos hfits]
  change (decode (keyval (encodeChars bs) buffer.length)).bind _ = _
  rw [decode_keyval h hle]
  rfl

/-- Receiving is exact for an empty payload and for one of the requested length. -/
theorem received_iff (hstored : storedValue bs = some value) (hle : bs.length ≤ buffer.length) :
    receiveValue value buffer buffer.length = some (bs ++ buffer.drop bs.length) ↔
      bs = [] ∨ bs.length = buffer.length ∧ bs.length < 2 ^ 30 := by
  obtain ⟨hlen, rfl⟩ := storedValue_eq hstored
  by_cases hlong : bs.length = 2 ^ 30
  · have hne : bs ≠ [] := by
      rintro rfl
      simp at hlong
    rw [receiveValue_eq_none hlong hle]
    simp [hne, hlong]
  · have hshort : bs.length < 2 ^ 30 := by omega
    rw [receiveValue_eq hshort hle]
    unfold memcpy
    constructor
    · intro h
      by_contra hnot
      obtain ⟨hne, hlt⟩ := not_or.mp hnot
      have hpos : 0 < bs.length := List.length_pos_iff.mpr hne
      rw [if_neg] at h
      · cases h
      · split_ifs <;> omega
    · rintro (rfl | ⟨heq, -⟩)
      · have hmin : (if 2 * ([] : List Byte).length < buffer.length then
            2 * ([] : List Byte).length else buffer.length) = 0 := by
          simp only [List.length_nil]
          split_ifs <;> omega
        rw [hmin]
        simp
      · rw [heq]
        have hmin : (if 2 * buffer.length < buffer.length then 2 * buffer.length
            else buffer.length) = buffer.length := by
          split_ifs <;> omega
        rw [hmin, if_pos ⟨le_rfl, le_rfl⟩, ← heq, List.take_length]

/-- Decoding and receiving are both exact for the empty payload only. -/
theorem exactReceive_iff (hstored : storedValue bs = some value)
    (hle : bs.length ≤ buffer.length) : ExactReceive bs buffer value ↔ bs = [] := by
  constructor
  · intro h
    obtain ⟨hlen, rfl⟩ := storedValue_eq hstored
    have hdecoded := h.decoded
    by_cases hlong : bs.length = 2 ^ 30
    · obtain ⟨rest, hrest⟩ := keyval_encodeChars hle
      rw [hrest, decode_eq_none hlong] at hdecoded
      cases hdecoded
    · rw [decode_keyval (by omega) hle] at hdecoded
      obtain ⟨-, hout⟩ := Prod.mk.inj (Option.some.inj hdecoded)
      exact List.length_eq_zero_iff.mp (by omega)
  · intro hnil
    refine ⟨?_, (received_iff hstored hle).mpr (.inl hnil)⟩
    subst hnil
    obtain ⟨-, rfl⟩ := storedValue_eq hstored
    exact decode_keyval (by norm_num) hle

theorem exactReceive_iff_twoBytes : ExactReceive [] [7, 7] [] ∧
    ¬ ExactReceive [5] [7, 7] (encodeChars [5]) :=
  ⟨(exactReceive_iff (by decide) (by decide)).mpr rfl,
    (exactReceive_iff (by decide) (by decide)).not.mpr (by decide)⟩

/-- One byte is received where two are requested: both bytes of the buffer would be copied from one
decoded byte. -/
theorem not_exactReceive_oneByte : storedValue [5] = some (encodeChars [5]) ∧
    decode (keyval (encodeChars [5]) 2) = some ([5], 2) ∧
    receiveValue (encodeChars [5]) [7, 7] 2 = none ∧
    ¬ ExactReceive [5] [7, 7] (encodeChars [5]) := by
  refine ⟨by decide, by decide, by decide, fun h => ?_⟩
  have hreceived := h.received
  revert hreceived
  decide

end CrayTests.Kvs
