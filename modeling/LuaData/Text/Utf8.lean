import LuaData.Bytes

/-!
# UTF-8

Strings are bytes; where they are shown as text they are read as UTF-8. `decode?` reads valid text
only. `decodeLossy` reads any bytes: each longest prefix of a character that goes no further, and
each byte that starts no character, becomes one replacement character.
-/

namespace LuaData.Utf8

/-- The bytes of a text. -/
def encode (text : List Char) : Bytes :=
  text.flatMap String.utf8EncodeChar

/-- The bytes of a string. -/
def ofString (s : String) : Bytes :=
  encode s.toList

/-- What a first byte announces: the number of bytes that follow, the range of the next one, and
the bits that it contributes. -/
structure Lead where
  following : Nat
  low : UInt8
  high : UInt8
  bits : Nat

/-- The meaning of a byte as the first of a character. The narrower ranges exclude encodings that
are too long, surrogates, and numbers beyond the last character. -/
def lead? (b : UInt8) : Option Lead :=
  if b ≤ 0x7F then some ⟨0, 0x80, 0xBF, b.toNat⟩
  else if 0xC2 ≤ b ∧ b ≤ 0xDF then some ⟨1, 0x80, 0xBF, b.toNat - 0xC0⟩
  else if b = 0xE0 then some ⟨2, 0xA0, 0xBF, 0⟩
  else if b = 0xED then some ⟨2, 0x80, 0x9F, 0xD⟩
  else if 0xE1 ≤ b ∧ b ≤ 0xEF then some ⟨2, 0x80, 0xBF, b.toNat - 0xE0⟩
  else if b = 0xF0 then some ⟨3, 0x90, 0xBF, 0⟩
  else if 0xF1 ≤ b ∧ b ≤ 0xF3 then some ⟨3, 0x80, 0xBF, b.toNat - 0xF0⟩
  else if b = 0xF4 then some ⟨3, 0x80, 0x8F, 4⟩
  else none

/-- Read `count` continuation bytes, the first of them in the range given. The answer is the number
that they complete, or `none` if one is missing, and the bytes after those that fit. -/
def continuation : (count : Nat) → (low high : UInt8) → (bits : Nat) → Bytes → Option Nat × Bytes
  | 0, _, _, bits, rest => (some bits, rest)
  | _ + 1, _, _, _, [] => (none, [])
  | count + 1, low, high, bits, b :: rest =>
    if low ≤ b ∧ b ≤ high then
      continuation count 0x80 0xBF (bits * 64 + (b.toNat - 0x80)) rest
    else (none, b :: rest)

/-- The bytes that remain are among those given. -/
theorem length_continuation_le (count : Nat) (low high : UInt8) (bits : Nat) (bytes : Bytes) :
    (continuation count low high bits bytes).2.length ≤ bytes.length := by
  induction count generalizing low high bits bytes with
  | zero => simp [continuation]
  | succ count ih =>
    cases bytes with
    | nil => simp [continuation]
    | cons b rest =>
      simp only [continuation]
      split
      · exact Nat.le_trans (ih ..) (by simp)
      · simp

/-- The character at the front, or `none` where the bytes at the front are no character, and the
bytes after it. -/
def next (b : UInt8) (rest : Bytes) : Option Char × Bytes :=
  match lead? b with
  | none => (none, rest)
  | some l =>
    let (code, rest) := continuation l.following l.low l.high l.bits rest
    (code.map Char.ofNat, rest)

/-- Reading a character consumes at least its first byte. -/
theorem length_next_le (b : UInt8) (rest : Bytes) : (next b rest).2.length ≤ rest.length := by
  unfold next
  split
  · simp
  · exact length_continuation_le ..

/-- The text of bytes that are valid UTF-8. -/
def decode? : Bytes → Option (List Char)
  | [] => some []
  | b :: rest =>
    match (next b rest).1 with
    | none => none
    | some c => (decode? (next b rest).2).map (c :: ·)
termination_by bytes => bytes.length
decreasing_by
  have := length_next_le b rest
  simp only [List.length_cons]
  omega

/-- The character that stands for bytes that are not text. -/
def replacement : Char := Char.ofNat 0xFFFD

/-- The text of any bytes. -/
def decodeLossy : Bytes → List Char
  | [] => []
  | b :: rest => (next b rest).1.getD replacement :: decodeLossy (next b rest).2
termination_by bytes => bytes.length
decreasing_by
  have := length_next_le b rest
  simp only [List.length_cons]
  omega

end LuaData.Utf8
