import LuaData.Number.Text
import LuaData.Text.Utf8

/-!
# Texts and their bytes

What is written is read back: the bytes of a text (`Utf8.decodeLossy_encode`) and the digits of a
number (`decimalDigits_injective`). So neither two texts nor two numbers are written alike.
-/

namespace LuaData

namespace Utf8

/-- A continuation byte contributes six bits. -/
theorem continuation_digit {count bits d : Nat} {low high : UInt8} (hd : d < 64)
    (hlow : low.toNat ≤ d + 128) (hhigh : d + 128 ≤ high.toNat) (rest : Bytes) :
    continuation (count + 1) low high bits (UInt8.ofNat (d + 128) :: rest) =
      continuation count 0x80 0xBF (bits * 64 + d) rest := by
  have hbyte : (UInt8.ofNat (d + 128)).toNat = d + 128 :=
    UInt8.toNat_ofNat_of_lt (show d + 128 < 256 by omega)
  rw [continuation, if_pos]
  · rw [hbyte, Nat.add_sub_cancel]
  · rw [UInt8.le_iff_toNat_le, UInt8.le_iff_toNat_le, hbyte]
    exact ⟨hlow, hhigh⟩

/-- The last continuation bytes contribute six bits each. -/
theorem continuation_tail {count bits d : Nat} (hd : d < 64) (rest : Bytes) :
    continuation (count + 1) 0x80 0xBF bits (UInt8.ofNat (d + 128) :: rest) =
      continuation count 0x80 0xBF (bits * 64 + d) rest := by
  refine continuation_digit hd ?_ ?_ rest
  · show 128 ≤ d + 128
    omega
  · show d + 128 ≤ 191
    omega

/-- The meaning of a first byte, by its number. -/
theorem lead?_ofNat {n : Nat} (hn : n < 256) :
    lead? (UInt8.ofNat n) =
      if n ≤ 0x7F then some ⟨0, 0x80, 0xBF, n⟩
      else if 0xC2 ≤ n ∧ n ≤ 0xDF then some ⟨1, 0x80, 0xBF, n - 0xC0⟩
      else if n = 0xE0 then some ⟨2, 0xA0, 0xBF, 0⟩
      else if n = 0xED then some ⟨2, 0x80, 0x9F, 0xD⟩
      else if 0xE1 ≤ n ∧ n ≤ 0xEF then some ⟨2, 0x80, 0xBF, n - 0xE0⟩
      else if n = 0xF0 then some ⟨3, 0x90, 0xBF, 0⟩
      else if 0xF1 ≤ n ∧ n ≤ 0xF3 then some ⟨3, 0x80, 0xBF, n - 0xF0⟩
      else if n = 0xF4 then some ⟨3, 0x80, 0x8F, 4⟩
      else none := by
  have hbyte : (UInt8.ofNat n).toNat = n := UInt8.toNat_ofNat_of_lt hn
  simp only [lead?, UInt8.le_iff_toNat_le, ← UInt8.toNat_inj, hbyte, UInt8.reduceToNat]

/-- The character that a first byte and its continuation make. -/
theorem next_of_lead? {b : UInt8} {l : Lead} {bytes rest : Bytes} {c : Char}
    (hlead : lead? b = some l)
    (hcode : continuation l.following l.low l.high l.bits bytes = (some c.toNat, rest)) :
    next b bytes = (some c, rest) := by
  unfold next
  rw [hlead]
  show ((continuation l.following l.low l.high l.bits bytes).1.map Char.ofNat,
    (continuation l.following l.low l.high l.bits bytes).2) = (some c, rest)
  rw [hcode, Option.map_some, Char.ofNat_toNat]

/-- The bytes of a character are a first byte and its continuation, which make the character. -/
theorem next_encodeChar (c : Char) (rest : Bytes) :
    ∃ b bytes, String.utf8EncodeChar c = b :: bytes ∧ next b (bytes ++ rest) = (some c, rest) := by
  have hvalid : c.toNat < 0xD800 ∨ 0xDFFF < c.toNat ∧ c.toNat < 0x110000 := c.valid
  unfold String.utf8EncodeChar
  simp only [show c.val.toNat = c.toNat from rfl]
  -- The cases are the numbers of bytes; where the first byte narrows the range of the second one,
  -- it is a case of its own.
  generalize hv : c.toNat = v at hvalid
  split
  · have hlead : lead? (UInt8.ofNat v) = some ⟨0, 0x80, 0xBF, v⟩ := by
      rw [lead?_ofNat (by omega), if_pos (by omega)]
    refine ⟨_, _, rfl, next_of_lead? hlead ?_⟩
    rw [hv]
    rfl
  split
  · have hlead : lead? (UInt8.ofNat (v / 64 % 32 + 192)) =
        some ⟨1, 0x80, 0xBF, v / 64 % 32 + 192 - 0xC0⟩ := by
      rw [lead?_ofNat (by omega), if_neg (by omega), if_pos (by omega)]
    refine ⟨_, _, rfl, next_of_lead? hlead ?_⟩
    show continuation 1 _ _ _ (_ :: rest) = _
    rw [continuation_tail (by omega), hv]
    show (some ((v / 64 % 32 + 192 - 0xC0) * 64 + v % 64), rest) = (some v, rest)
    congr 2
    omega
  split
  · obtain ⟨l, hlead, hfollowing, hlow, hhigh, hbits⟩ : ∃ l : Lead,
        lead? (UInt8.ofNat (v / 4096 % 16 + 224)) = some l ∧ l.following = 2 ∧
          l.low.toNat ≤ v / 64 % 64 + 128 ∧ v / 64 % 64 + 128 ≤ l.high.toNat ∧
          l.bits = v / 4096 := by
      rw [lead?_ofNat (by omega), if_neg (by omega), if_neg (by omega)]
      split
      · refine ⟨_, rfl, rfl, ?_, ?_, ?_⟩ <;> simp <;> omega
      split
      · refine ⟨_, rfl, rfl, ?_, ?_, ?_⟩ <;> simp <;> omega
      rw [if_pos (by omega)]
      refine ⟨_, rfl, rfl, ?_, ?_, ?_⟩ <;> simp <;> omega
    refine ⟨_, _, rfl, next_of_lead? hlead ?_⟩
    rw [hfollowing, hbits, hv]
    show continuation 2 _ _ _ (_ :: _ :: rest) = _
    rw [continuation_digit (by omega) hlow hhigh, continuation_tail (by omega)]
    show (some _, rest) = (some v, rest)
    congr 2
    omega
  · obtain ⟨l, hlead, hfollowing, hlow, hhigh, hbits⟩ : ∃ l : Lead,
        lead? (UInt8.ofNat (v / 262144 % 8 + 240)) = some l ∧ l.following = 3 ∧
          l.low.toNat ≤ v / 4096 % 64 + 128 ∧ v / 4096 % 64 + 128 ≤ l.high.toNat ∧
          l.bits = v / 262144 := by
      rw [lead?_ofNat (by omega), if_neg (by omega), if_neg (by omega), if_neg (by omega),
        if_neg (by omega), if_neg (by omega)]
      split
      · refine ⟨_, rfl, rfl, ?_, ?_, ?_⟩ <;> simp <;> omega
      split
      · refine ⟨_, rfl, rfl, ?_, ?_, ?_⟩ <;> simp <;> omega
      rw [if_pos (by omega)]
      refine ⟨_, rfl, rfl, ?_, ?_, ?_⟩ <;> simp <;> omega
    refine ⟨_, _, rfl, next_of_lead? hlead ?_⟩
    rw [hfollowing, hbits, hv]
    show continuation 3 _ _ _ (_ :: _ :: _ :: rest) = _
    rw [continuation_digit (by omega) hlow hhigh, continuation_tail (by omega),
      continuation_tail (by omega)]
    show (some _, rest) = (some v, rest)
    congr 2
    omega

/-- An encoded text is read back. -/
theorem decodeLossy_encode (text : List Char) : decodeLossy (encode text) = text := by
  induction text with
  | nil => rw [encode, List.flatMap_nil, decodeLossy]
  | cons c text ih =>
    obtain ⟨b, bytes, hbytes, hnext⟩ := next_encodeChar c (encode text)
    have hcons : encode (c :: text) = b :: (bytes ++ encode text) := by
      show String.utf8EncodeChar c ++ encode text = _
      rw [hbytes]
      rfl
    rw [hcons, decodeLossy, hnext, ih]
    rfl

/-- Different texts have different bytes. -/
theorem encode_injective {text other : List Char} (h : encode text = encode other) :
    text = other := by
  rw [← decodeLossy_encode text, h, decodeLossy_encode]

end Utf8

/-- Different naturals have different digits. -/
theorem decimalDigits_injective {m n : Nat} (h : decimalDigits m = decimalDigits n) : m = n := by
  have hread : ∀ k, Nat.ofDigitChars 10 (decimalDigits k) 0 = k :=
    fun k ↦ Nat.ofDigitChars_ten_toDigits
  rw [← hread m, h, hread]

/-- A positive integer is written with the digits of a natural. -/
theorem Integer.text_ofNat {n : Nat} (h : n < 2 ^ 63) :
    Integer.text (Int64.ofNat n) = decimalDigits n := by
  have hint : (Int64.ofNat n).toInt = n := Int64.toInt_ofNat_of_lt h
  rw [Integer.text, if_neg]
  · rw [hint, Int.natAbs_natCast]
  · rw [Int64.lt_iff_toInt_lt, hint]
    show ¬ (n : Int) < 0
    omega

end LuaData
