import Mathlib.Data.List.Induction
import Mathlib.Data.List.TakeWhile
import Mathlib.Data.Nat.Digits.Defs
import Mathlib.Data.Set.List
import LuaData.Number.Numeral
import LuaData.Text.Utf8

/-!
# The numerals that are read

`Form` is the grammar of numerals as syntax: every form can be written out (`Form.bytes`), and the
bytes that `Numeral.read?` accepts are the ones that some form is written as. Digits stand in a
table with their values, and a magnitude stands for the number that `Nat.ofDigits` makes of them.
Read `numerals_are_read` first: which bytes are numerals, which of them are integers, and which
integers they are.
-/

namespace LuaData.Numeral

/-! ## The grammar -/

/-- The blanks around a numeral. -/
inductive Blank where
  | space
  | tab
  | lineFeed
  | carriageReturn
  | verticalTab
  | formFeed

/-- A blank as a byte. -/
def Blank.byte : Blank → UInt8
  | space => 32
  | tab => 9
  | lineFeed => 10
  | carriageReturn => 13
  | verticalTab => 11
  | formFeed => 12

/-- A sign. -/
inductive Sign where
  | plus
  | minus

/-- A sign as a byte. -/
def Sign.byte : Sign → UInt8
  | plus => 43
  | minus => 45

/-- An optional sign, written out. -/
def signBytes (sign : Option Sign) : Bytes := (sign.map Sign.byte).toList

/-- A number with an optional sign. -/
def signed (sign : Option Sign) (n : Nat) : Int :=
  match sign with
  | some .minus => -n
  | _ => n

/-- The digits and their values. -/
def digitTable : List (UInt8 × Nat) :=
  (Utf8.ofString "0123456789abcdef").zip (List.range 16) ++
    (Utf8.ofString "ABCDEF").zip [10, 11, 12, 13, 14, 15]

/-- A digit of a base. -/
structure Digit (base : Nat) where
  byte : UInt8
  value : Nat
  mem : (byte, value) ∈ digitTable
  lt : value < base

/-- The number that digits stand for, the most significant one first. -/
def number {base : Nat} (digits : List (Digit base)) : Nat :=
  Nat.ofDigits base (digits.map Digit.value).reverse

/-- A letter of either case. -/
def letter (small : Char) (capital : Bool) : UInt8 :=
  (if capital then small.toUpper else small).toNat.toUInt8

/-- An exponent: a letter, an optional sign and decimal digits. -/
structure Exponent where
  capital : Bool
  sign : Option Sign
  digits : List (Digit 10)
  ne_nil : digits ≠ []

/-- An exponent, written out after its mark. -/
def Exponent.bytes (mark : Char) (e : Exponent) : Bytes :=
  letter mark e.capital :: (signBytes e.sign ++ e.digits.map Digit.byte)

/-- Digits with an optional point among them and at least one of them, and an optional exponent. -/
structure Magnitude (base : Nat) where
  whole : List (Digit base)
  fraction : Option (List (Digit base))
  exponent : Option Exponent
  ne_nil : whole ≠ [] ∨ fraction.getD [] ≠ []

/-- The point and the digits after it. -/
def fractionBytes {base : Nat} : Option (List (Digit base)) → Bytes
  | none => []
  | some digits => 46 :: digits.map Digit.byte

/-- An optional exponent, written out. -/
def exponentBytes (mark : Char) : Option Exponent → Bytes
  | none => []
  | some e => e.bytes mark

/-- A magnitude, written out with the mark of its exponent. -/
def Magnitude.bytes {base : Nat} (mark : Char) (m : Magnitude base) : Bytes :=
  m.whole.map Digit.byte ++ (fractionBytes m.fraction ++ exponentBytes mark m.exponent)

/-- There is neither a point nor an exponent. -/
def Magnitude.Whole {base : Nat} (m : Magnitude base) : Prop :=
  m.fraction = none ∧ m.exponent = none

/-- A decimal magnitude, or a hexadecimal one after its mark. -/
inductive Body where
  | decimal (m : Magnitude 10)
  | hexadecimal (capital : Bool) (m : Magnitude 16)

/-- A body, written out. -/
def Body.bytes : Body → Bytes
  | decimal m => m.bytes 'e'
  | hexadecimal capital m => 48 :: letter 'x' capital :: m.bytes 'p'

/-- A numeral: a body with an optional sign between blanks. -/
structure Form where
  before : List Blank
  sign : Option Sign
  body : Body
  after : List Blank

namespace Form

/-- A numeral, written out. -/
def bytes (f : Form) : Bytes :=
  f.before.map Blank.byte ++ (signBytes f.sign ++ f.body.bytes) ++ f.after.map Blank.byte

/-- The numeral has neither a point nor an exponent, and is hexadecimal or fits in 64 bits with a
sign. -/
def IsInteger (f : Form) : Prop :=
  match f.body with
  | .decimal m =>
    m.Whole ∧ -2 ^ 63 ≤ signed f.sign (number m.whole) ∧
      signed f.sign (number m.whole) ≤ 2 ^ 63 - 1
  | .hexadecimal _ m => m.Whole

/-- The integer of a numeral: that of a hexadecimal one is taken modulo `2 ^ 64`, with a sign. -/
def integer (f : Form) : Int :=
  match f.body with
  | .decimal m => signed f.sign (number m.whole)
  | .hexadecimal _ m => (signed f.sign (number m.whole)).bmod (2 ^ 64)

end Form

/-! ## Digits -/

/-- The bytes with a value are those of the hexadecimal digits. -/
theorem isHexDigit_iff (c : UInt8) : isHexDigit c = true ↔ ∃ d : Digit 16, d.byte = c := by
  have htable : ∀ n < 256, isHexDigit (UInt8.ofNat n) = true →
      ∃ e ∈ digitTable, e.1 = UInt8.ofNat n ∧ e.2 < 16 := by decide +kernel
  have hdigits : ∀ e ∈ digitTable, isHexDigit e.1 = true := by decide +kernel
  constructor
  · intro hc
    obtain ⟨e, he, hbyte, hlt⟩ := htable c.toNat c.toNat_lt (by rwa [UInt8.ofNat_toNat])
    exact ⟨⟨e.1, e.2, he, hlt⟩, hbyte.trans UInt8.ofNat_toNat⟩
  · rintro ⟨d, rfl⟩
    exact hdigits _ d.mem

/-- The bytes with a value below ten are those of the decimal digits. -/
theorem isDigit_iff (c : UInt8) : isDigit c = true ↔ ∃ d : Digit 10, d.byte = c := by
  have htable : ∀ n < 256, isDigit (UInt8.ofNat n) = true →
      ∃ e ∈ digitTable, e.1 = UInt8.ofNat n ∧ e.2 < 10 := by decide +kernel
  have hdigits : ∀ e ∈ digitTable, e.2 < 10 → isDigit e.1 = true := by decide +kernel
  constructor
  · intro hc
    obtain ⟨e, he, hbyte, hlt⟩ := htable c.toNat c.toNat_lt (by rwa [UInt8.ofNat_toNat])
    exact ⟨⟨e.1, e.2, he, hlt⟩, hbyte.trans UInt8.ofNat_toNat⟩
  · rintro ⟨d, rfl⟩
    exact hdigits _ d.mem d.lt

/-- The value of a digit is that of the table. -/
theorem digitValue_byte {base : Nat} (d : Digit base) : digitValue d.byte = d.value := by
  have htable : ∀ e ∈ digitTable, digitValue e.1 = e.2 := by decide +kernel
  exact htable _ d.mem

/-- The number of digits in their bytes is the number they stand for. -/
theorem natOfDigits_bytes {base : Nat} (digits : List (Digit base)) :
    natOfDigits base (digits.map Digit.byte) = number digits := by
  unfold natOfDigits number
  induction digits using List.reverseRecOn with
  | nil => rfl
  | append_singleton digits d ih =>
    rw [List.map_append, List.foldl_append, ih, List.map_append, List.reverse_append]
    show Nat.ofDigits base _ * base + digitValue d.byte = Nat.ofDigits base (d.value :: _)
    rw [Nat.ofDigits_cons, digitValue_byte, Nat.mul_comm, Nat.add_comm]
    rfl

/-! ## Signs -/

/-- The sign at the front is taken off. The answer is whether it is a minus, and the rest. -/
def unsigned (bytes : Bytes) : Bool × Bytes :=
  match bytes with
  | 45 :: rest => (true, rest)
  | 43 :: rest => (false, rest)
  | rest => (false, rest)

/-- The sign is a minus. -/
def isMinus : Option Sign → Bool
  | some .minus => true
  | _ => false

/-- What has no sign at its front is left. -/
theorem unsigned_of_head {bytes : Bytes}
    (h : bytes.head? ≠ some 45 ∧ bytes.head? ≠ some 43) : unsigned bytes = (false, bytes) := by
  unfold unsigned
  split
  · exact absurd rfl h.1
  · exact absurd rfl h.2
  · rfl

/-- A sign that is written at the front is taken off. -/
theorem unsigned_append (sign : Option Sign) {bytes : Bytes}
    (h : bytes.head? ≠ some 45 ∧ bytes.head? ≠ some 43) :
    unsigned (signBytes sign ++ bytes) = (isMinus sign, bytes) := by
  match sign with
  | none => exact unsigned_of_head h
  | some .plus => rfl
  | some .minus => rfl

/-- What is taken off is a sign. -/
theorem exists_sign (bytes : Bytes) :
    ∃ sign, bytes = signBytes sign ++ (unsigned bytes).2 ∧ isMinus sign = (unsigned bytes).1 := by
  unfold unsigned
  split
  · exact ⟨some .minus, rfl, rfl⟩
  · exact ⟨some .plus, rfl, rfl⟩
  · exact ⟨none, rfl, rfl⟩

/-! ## Magnitudes -/

/-- The digits of a base, the point and the mark of the exponent are told apart. -/
structure Alphabet (base : Nat) (digit : UInt8 → Bool) (mark : Char) : Prop where
  digit_iff : ∀ c, digit c = true ↔ ∃ d : Digit base, d.byte = c
  point : digit 46 = false
  marked : ∀ capital, digit (letter mark capital) = false
  mark_ne : ∀ capital, letter mark capital ≠ 46
  capital : letter mark true = letter mark false - 32

/-- Decimal digits and the mark `e`. -/
theorem alphabet_decimal : Alphabet 10 isDigit 'e' where
  digit_iff := isDigit_iff
  point := rfl
  marked := by decide
  mark_ne := by decide
  capital := rfl

/-- Hexadecimal digits and the mark `p`. -/
theorem alphabet_hexadecimal : Alphabet 16 isHexDigit 'p' where
  digit_iff := isHexDigit_iff
  point := rfl
  marked := by decide
  mark_ne := by decide
  capital := rfl

section

variable {base limit : Nat} {digit : UInt8 → Bool} {mark : Char} {bytes : Bytes}

/-- Digits that are followed by something else are taken off. -/
theorem Alphabet.takeDigits_append (ha : Alphabet base digit mark) (digits : List (Digit base))
    (hbytes : ∀ c, bytes.head? = some c → digit c = false) :
    takeDigits digit (digits.map Digit.byte ++ bytes) = (digits.map Digit.byte, bytes) := by
  have hdigits : ∀ c ∈ digits.map Digit.byte, digit c = true := by
    intro c hc
    obtain ⟨d, -, rfl⟩ := List.mem_map.mp hc
    exact (ha.digit_iff _).mpr ⟨d, rfl⟩
  have hstop : bytes.takeWhile digit = [] ∧ bytes.dropWhile digit = bytes := by
    cases bytes with
    | nil => exact ⟨rfl, rfl⟩
    | cons c rest =>
      have hc := hbytes c rfl
      exact ⟨List.takeWhile_cons_of_neg (by simp [hc]), List.dropWhile_cons_of_neg (by simp [hc])⟩
  rw [takeDigits, List.takeWhile_append_of_pos hdigits, List.dropWhile_append_of_pos hdigits,
    hstop.1, hstop.2, List.append_nil]

/-- Bytes that are digits are digits of the table. -/
theorem Alphabet.exists_digits (ha : Alphabet base digit mark)
    (h : ∀ c ∈ bytes, digit c = true) :
    ∃ digits : List (Digit base), digits.map Digit.byte = bytes := by
  have hrange : bytes ∈ Set.range (List.map (@Digit.byte base)) := by
    rw [Set.range_list_map]
    exact fun c hc ↦ (ha.digit_iff c).mp (h c hc)
  exact hrange

/-- What is taken off are digits of the table. -/
theorem Alphabet.exists_takeDigits (ha : Alphabet base digit mark) (bytes : Bytes) :
    ∃ digits : List (Digit base), digits.map Digit.byte = (takeDigits digit bytes).1 ∧
      bytes = digits.map Digit.byte ++ (takeDigits digit bytes).2 := by
  have htaken : ∀ c ∈ bytes.takeWhile digit, digit c = true := fun c hc ↦ List.mem_takeWhile_imp hc
  obtain ⟨digits, hdigits⟩ := ha.exists_digits htaken
  exact ⟨digits, hdigits, by rw [hdigits]; exact List.takeWhile_append_dropWhile.symm⟩

/-- An exponent has digits after its sign and nothing else. -/
theorem exponent?_isSome_iff (limit : Nat) (bytes : Bytes) :
    (exponent? limit bytes).isSome = true ↔
      (unsigned bytes).2 ≠ [] ∧ ∀ c ∈ (unsigned bytes).2, isDigit c = true := by
  have hexponent : exponent? limit bytes =
      if (unsigned bytes).2.isEmpty || !(unsigned bytes).2.all isDigit then none
      else some (if (unsigned bytes).1 then -(exponentSize limit (unsigned bytes).2 : Int)
        else exponentSize limit (unsigned bytes).2) := rfl
  rw [hexponent, ← List.all_eq_true, ← List.isEmpty_eq_false_iff]
  cases (unsigned bytes).2.isEmpty <;> cases (unsigned bytes).2.all isDigit <;> simp

/-- A digit is no sign. -/
theorem Digit.byte_ne_sign (d : Digit base) : d.byte ≠ 45 ∧ d.byte ≠ 43 := by
  have htable : ∀ e ∈ digitTable, e.1 ≠ 45 ∧ e.1 ≠ 43 := by decide +kernel
  exact htable _ d.mem

/-- Digits have no sign at their front. -/
theorem head?_digits (digits : List (Digit base)) :
    (digits.map Digit.byte).head? ≠ some 45 ∧ (digits.map Digit.byte).head? ≠ some 43 := by
  cases digits with
  | nil => exact ⟨nofun, nofun⟩
  | cons d digits =>
    exact ⟨fun h ↦ d.byte_ne_sign.1 (Option.some.inj h),
      fun h ↦ d.byte_ne_sign.2 (Option.some.inj h)⟩

/-- An exponent that is written out is read. -/
theorem exponent?_bytes (limit : Nat) (e : Exponent) :
    (exponent? limit (signBytes e.sign ++ e.digits.map Digit.byte)).isSome = true := by
  rw [exponent?_isSome_iff, unsigned_append e.sign (head?_digits e.digits)]
  refine ⟨fun h ↦ e.ne_nil (List.map_eq_nil_iff.mp h), fun c hc ↦ ?_⟩
  obtain ⟨d, -, rfl⟩ := List.mem_map.mp hc
  exact (isDigit_iff _).mpr ⟨d, rfl⟩

/-- An exponent that is read is one that can be written out. -/
theorem exists_exponent (mark : Char) (capital : Bool) (h : (exponent? limit bytes).isSome = true) :
    ∃ e : Exponent, e.bytes mark = letter mark capital :: bytes := by
  obtain ⟨hne, hdigits⟩ := (exponent?_isSome_iff limit bytes).mp h
  obtain ⟨sign, hbytes, -⟩ := exists_sign bytes
  obtain ⟨digits, hmap⟩ := alphabet_decimal.exists_digits hdigits
  refine ⟨⟨capital, sign, digits, ?_⟩, ?_⟩
  · rintro rfl
    exact hne hmap.symm
  · rw [Exponent.bytes, hmap, ← hbytes]

/-- The point and the digits after it are taken off. -/
def takeFraction (digit : UInt8 → Bool) (bytes : Bytes) : Option Bytes × Bytes :=
  match bytes with
  | 46 :: rest => (some (takeDigits digit rest).1, (takeDigits digit rest).2)
  | rest => (none, rest)

/-- What is left has to be an exponent. -/
def readExponent (mark : UInt8) (limit : Nat) (bytes : Bytes) : Option (Option Int) :=
  match bytes with
  | [] => some none
  | c :: rest => if c == mark || c == mark - 32 then (exponent? limit rest).map some else none

/-- A magnitude, part by part. -/
theorem split_eq (digit : UInt8 → Bool) (mark : UInt8) (limit : Nat) (bytes : Bytes) :
    split digit mark limit bytes =
      let whole := takeDigits digit bytes
      let fraction := takeFraction digit whole.2
      if whole.1.isEmpty && (fraction.1.getD []).isEmpty then none
      else (readExponent mark limit fraction.2).map fun e ↦ ⟨whole.1, fraction.1, e⟩ := by
  have hsplit : split digit mark limit bytes =
      if (takeDigits digit bytes).1.isEmpty &&
          ((takeFraction digit (takeDigits digit bytes).2).1.getD []).isEmpty then none
      else
        match (takeFraction digit (takeDigits digit bytes).2).2 with
        | [] => some ⟨(takeDigits digit bytes).1,
            (takeFraction digit (takeDigits digit bytes).2).1, none⟩
        | c :: rest =>
          if c == mark || c == mark - 32 then
            (exponent? limit rest).map fun e ↦ ⟨(takeDigits digit bytes).1,
              (takeFraction digit (takeDigits digit bytes).2).1, some e⟩
          else none := rfl
  rw [hsplit]
  dsimp only
  generalize takeFraction digit (takeDigits digit bytes).2 = taken
  obtain ⟨fraction, rest⟩ := taken
  dsimp only
  split
  · rfl
  · cases rest with
    | nil => rfl
    | cons c rest =>
      simp only [readExponent]
      split
      · rw [Option.map_map]
        rfl
      · rfl

/-- An exponent that is written out is taken off as one. -/
theorem Alphabet.readExponent_bytes (ha : Alphabet base digit mark) (limit : Nat)
    (exponent : Option Exponent) :
    ∃ e, readExponent (letter mark false) limit (exponentBytes mark exponent) = some e ∧
      (e = none ↔ exponent = none) := by
  cases exponent with
  | none => exact ⟨none, rfl, iff_of_true rfl rfl⟩
  | some e =>
    obtain ⟨i, hi⟩ := Option.isSome_iff_exists.mp (exponent?_bytes limit e)
    have hmark : (letter mark e.capital == letter mark false ||
        letter mark e.capital == letter mark false - 32) = true := by
      cases e.capital with
      | false => simp
      | true => simp [ha.capital]
    refine ⟨some i, ?_, iff_of_false nofun nofun⟩
    show (if _ then _ else _) = _
    rw [if_pos hmark, hi]
    rfl

/-- What is taken off as an exponent can be written out. -/
theorem Alphabet.exists_exponentBytes (ha : Alphabet base digit mark)
    (h : (readExponent (letter mark false) limit bytes).isSome = true) :
    ∃ exponent, exponentBytes mark exponent = bytes := by
  cases bytes with
  | nil => exact ⟨none, rfl⟩
  | cons c rest =>
    simp only [readExponent] at h
    split at h
    · rename_i hc
      rw [Option.isSome_map] at h
      rw [← ha.capital] at hc
      simp only [Bool.or_eq_true, beq_iff_eq] at hc
      obtain rfl | rfl := hc
      · obtain ⟨e, he⟩ := exists_exponent mark false h
        exact ⟨some e, he⟩
      · obtain ⟨e, he⟩ := exists_exponent mark true h
        exact ⟨some e, he⟩
    · cases h

/-- What begins an exponent is neither a digit nor a point. -/
theorem Alphabet.head?_exponentBytes (ha : Alphabet base digit mark) (exponent : Option Exponent)
    {c : UInt8} (h : (exponentBytes mark exponent).head? = some c) : digit c = false ∧ c ≠ 46 := by
  cases exponent with
  | none => cases h
  | some e =>
    obtain rfl : letter mark e.capital = c := Option.some.inj h
    exact ⟨ha.marked _, ha.mark_ne _⟩

/-- A point and digits that are written out are taken off. -/
theorem Alphabet.takeFraction_bytes (ha : Alphabet base digit mark)
    (fraction : Option (List (Digit base))) (exponent : Option Exponent) :
    takeFraction digit (fractionBytes fraction ++ exponentBytes mark exponent) =
      (fraction.map (List.map Digit.byte), exponentBytes mark exponent) := by
  cases fraction with
  | none =>
    show takeFraction digit (exponentBytes mark exponent) = _
    unfold takeFraction
    split
    · rename_i rest hbytes
      exact absurd rfl (ha.head?_exponentBytes exponent (congrArg List.head? hbytes)).2
    · rfl
  | some digits =>
    show (some (takeDigits digit (digits.map Digit.byte ++ exponentBytes mark exponent)).1,
      (takeDigits digit (digits.map Digit.byte ++ exponentBytes mark exponent)).2) = _
    rw [ha.takeDigits_append digits fun c hc ↦ (ha.head?_exponentBytes exponent hc).1]
    rfl

/-- What is taken off after the whole digits can be written out. -/
theorem Alphabet.exists_fraction (ha : Alphabet base digit mark) (bytes : Bytes) :
    ∃ fraction : Option (List (Digit base)),
      fraction.map (List.map Digit.byte) = (takeFraction digit bytes).1 ∧
      bytes = fractionBytes fraction ++ (takeFraction digit bytes).2 := by
  unfold takeFraction
  split
  · rename_i rest
    obtain ⟨digits, hdigits, hrest⟩ := ha.exists_takeDigits rest
    exact ⟨some digits, congrArg some hdigits, congrArg (46 :: ·) hrest⟩
  · exact ⟨none, rfl, rfl⟩

/-- A magnitude that is written out is split into its parts. -/
theorem Alphabet.split_bytes (ha : Alphabet base digit mark) (limit : Nat) (m : Magnitude base) :
    ∃ e, split digit (letter mark false) limit (m.bytes mark) =
        some ⟨m.whole.map Digit.byte, m.fraction.map (List.map Digit.byte), e⟩ ∧
      (e = none ↔ m.exponent = none) := by
  obtain ⟨e, he, hnone⟩ := ha.readExponent_bytes limit m.exponent
  have hwhole : takeDigits digit (m.bytes mark) =
      (m.whole.map Digit.byte, fractionBytes m.fraction ++ exponentBytes mark m.exponent) := by
    refine ha.takeDigits_append m.whole fun c hc ↦ ?_
    cases hfraction : m.fraction with
    | none =>
      rw [hfraction] at hc
      exact (ha.head?_exponentBytes m.exponent hc).1
    | some digits =>
      rw [hfraction] at hc
      exact Option.some.inj hc ▸ ha.point
  refine ⟨e, ?_, hnone⟩
  rw [split_eq]
  dsimp only
  rw [hwhole]
  dsimp only
  rw [ha.takeFraction_bytes, he, if_neg]
  · rfl
  · intro hempty
    simp only [Bool.and_eq_true, List.isEmpty_iff, List.map_eq_nil_iff] at hempty
    refine m.ne_nil.elim (fun h ↦ h hempty.1) fun h ↦ h ?_
    cases hfraction : m.fraction with
    | none => rfl
    | some digits =>
      rw [hfraction] at hempty
      exact List.map_eq_nil_iff.mp hempty.2

/-- What is split into parts is a magnitude that can be written out. -/
theorem Alphabet.exists_magnitude (ha : Alphabet base digit mark)
    (h : (split digit (letter mark false) limit bytes).isSome = true) :
    ∃ m : Magnitude base, m.bytes mark = bytes := by
  obtain ⟨whole, hwhole, hbytes⟩ := ha.exists_takeDigits bytes
  obtain ⟨fraction, hfraction, hrest⟩ := ha.exists_fraction (takeDigits digit bytes).2
  rw [split_eq] at h
  dsimp only at h
  split at h
  · cases h
  · rename_i hne
    rw [Option.isSome_map] at h
    obtain ⟨exponent, hexponent⟩ := ha.exists_exponentBytes h
    refine ⟨⟨whole, fraction, exponent, ?_⟩, ?_⟩
    · by_contra hnone
      obtain ⟨hempty, hdigits⟩ := not_or.mp hnone
      obtain rfl : whole = [] := not_not.mp hempty
      refine hne ?_
      rw [← hwhole, ← hfraction]
      cases fraction with
      | none => rfl
      | some digits =>
        obtain rfl : digits = [] := not_not.mp hdigits
        rfl
    · show whole.map Digit.byte ++ (fractionBytes fraction ++ exponentBytes mark exponent) = bytes
      rw [hexponent, ← hrest, ← hbytes]

end

/-! ## Numbers -/

/-- The integer of 64 bits that digits with a sign give. -/
theorem toInt_signed (sign : Option Sign) (n : Nat) :
    (if isMinus sign = true then -Int64.ofNat n else Int64.ofNat n).toInt =
      (signed sign n).bmod (2 ^ 64) := by
  match sign with
  | some .minus =>
    show (-Int64.ofNat n).toInt = (-(n : Int)).bmod (2 ^ 64)
    rw [Int64.toInt_neg, Int64.toInt_ofNat']
    exact Int.bmod_neg_bmod
  | some .plus => exact Int64.toInt_ofNat' ..
  | none => exact Int64.toInt_ofNat' ..

/-- The number is the given integer if it is to be one, and a double otherwise. -/
def Gives (whole : Prop) (value : Int) (x : Number) : Prop :=
  (whole → ∃ i, x = .int i ∧ i.toInt = value) ∧ (¬ whole → ∃ d, x = .float d)

/-- Parts without a fraction and an exponent are those of a whole magnitude. -/
theorem isNone_iff_whole {base : Nat} {m : Magnitude base} {e : Option Int}
    (he : e = none ↔ m.exponent = none) :
    ((m.fraction.map (List.map Digit.byte)).isNone && e.isNone) = true ↔ m.Whole := by
  rw [Bool.and_eq_true, Option.isNone_map, Option.isNone_iff_eq_none, Option.isNone_iff_eq_none, he]
  rfl

/-- A hexadecimal magnitude that is written out is read. -/
theorem hexadecimal_bytes (sign : Option Sign) (m : Magnitude 16) :
    ∃ x, hexadecimal (isMinus sign) (m.bytes 'p') = some x ∧
      Gives m.Whole ((signed sign (number m.whole)).bmod (2 ^ 64)) x := by
  obtain ⟨e, he, hnone⟩ := alphabet_hexadecimal.split_bytes (2 ^ 63 - 1) m
  have hsplit : split isHexDigit 112 (2 ^ 63 - 1) (m.bytes 'p') = _ := he
  have hwhole := isNone_iff_whole hnone
  rw [hexadecimal, hsplit, Option.map_some]
  refine ⟨_, rfl, fun h ↦ ?_, fun h ↦ ?_⟩
  · rw [if_pos (hwhole.mpr h), natOfDigits_bytes]
    exact ⟨_, rfl, toInt_signed sign _⟩
  · rw [if_neg (mt hwhole.mp h)]
    exact ⟨_, rfl⟩

/-- Whether a decimal integer fits in 64 bits with a sign. -/
theorem le_limit_iff (sign : Option Sign) (n : Nat) :
    n ≤ (if isMinus sign = true then 2 ^ 63 else 2 ^ 63 - 1) ↔
      -2 ^ 63 ≤ signed sign n ∧ signed sign n ≤ 2 ^ 63 - 1 := by
  match sign with
  | some .minus =>
    show n ≤ 2 ^ 63 ↔ -2 ^ 63 ≤ -(n : Int) ∧ -(n : Int) ≤ 2 ^ 63 - 1
    omega
  | some .plus =>
    show n ≤ 2 ^ 63 - 1 ↔ -2 ^ 63 ≤ (n : Int) ∧ (n : Int) ≤ 2 ^ 63 - 1
    omega
  | none =>
    show n ≤ 2 ^ 63 - 1 ↔ -2 ^ 63 ≤ (n : Int) ∧ (n : Int) ≤ 2 ^ 63 - 1
    omega

/-- A decimal magnitude that is written out is read. -/
theorem decimal_bytes (sign : Option Sign) (m : Magnitude 10) :
    ∃ x, decimal (isMinus sign) (m.bytes 'e') = some x ∧
      Gives (m.Whole ∧ -2 ^ 63 ≤ signed sign (number m.whole) ∧
        signed sign (number m.whole) ≤ 2 ^ 63 - 1) (signed sign (number m.whole)) x := by
  obtain ⟨e, he, hnone⟩ := alphabet_decimal.split_bytes (2 ^ 16) m
  have hsplit : split isDigit 101 (2 ^ 16) (m.bytes 'e') = _ := he
  have hinteger : ((m.fraction.map (List.map Digit.byte)).isNone && e.isNone &&
      decide (number m.whole ≤ if isMinus sign = true then 2 ^ 63 else 2 ^ 63 - 1)) = true ↔
      m.Whole ∧ -2 ^ 63 ≤ signed sign (number m.whole) ∧
        signed sign (number m.whole) ≤ 2 ^ 63 - 1 := by
    rw [Bool.and_eq_true, isNone_iff_whole hnone, decide_eq_true_iff, le_limit_iff]
  rw [decimal, hsplit, Option.map_some]
  dsimp only
  rw [natOfDigits_bytes]
  refine ⟨_, rfl, fun h ↦ ?_, fun h ↦ ?_⟩
  · rw [if_pos (hinteger.mpr h)]
    refine ⟨_, rfl, (toInt_signed sign _).trans ?_⟩
    exact Int.bmod_eq_of_le_mul_two (by omega) (by omega)
  · rw [if_neg (mt hinteger.mp h)]
    exact ⟨_, rfl⟩

/-- A hexadecimal magnitude that is read can be written out. -/
theorem exists_hexadecimal {negative : Bool} {bytes : Bytes}
    (h : (hexadecimal negative bytes).isSome = true) :
    ∃ m : Magnitude 16, m.bytes 'p' = bytes := by
  rw [hexadecimal, Option.isSome_map] at h
  exact alphabet_hexadecimal.exists_magnitude h

/-- A decimal magnitude that is read can be written out. -/
theorem exists_decimal {negative : Bool} {bytes : Bytes}
    (h : (decimal negative bytes).isSome = true) : ∃ m : Magnitude 10, m.bytes 'e' = bytes := by
  rw [decimal, Option.isSome_map] at h
  exact alphabet_decimal.exists_magnitude h

/-! ## Blanks -/

/-- The blanks. -/
theorem isBlank_iff (c : UInt8) : isBlank c = true ↔ ∃ b : Blank, b.byte = c := by
  constructor
  · intro h
    simp only [isBlank, Bool.or_eq_true, beq_iff_eq] at h
    obtain ((((rfl | rfl) | rfl) | rfl) | rfl) | rfl := h
    · exact ⟨.space, rfl⟩
    · exact ⟨.tab, rfl⟩
    · exact ⟨.lineFeed, rfl⟩
    · exact ⟨.carriageReturn, rfl⟩
    · exact ⟨.verticalTab, rfl⟩
    · exact ⟨.formFeed, rfl⟩
  · rintro ⟨b, rfl⟩
    cases b <;> rfl

/-- Blanks at the front are dropped. -/
theorem dropWhile_blanks {blanks bytes : Bytes} (hblanks : ∀ c ∈ blanks, isBlank c = true)
    (hhead : ∀ c, bytes.head? = some c → isBlank c = false) :
    (blanks ++ bytes).dropWhile isBlank = bytes := by
  rw [List.dropWhile_append_of_pos hblanks]
  cases bytes with
  | nil => rfl
  | cons c rest => exact List.dropWhile_cons_of_neg (by simp [hhead c rfl])

/-- The blanks around bytes without blanks are trimmed off. -/
theorem trim_append {before core after : Bytes} (hbefore : ∀ c ∈ before, isBlank c = true)
    (hafter : ∀ c ∈ after, isBlank c = true) (hne : core ≠ [])
    (hcore : ∀ c ∈ core, isBlank c = false) : trim (before ++ core ++ after) = core := by
  have hhead : ∀ {l : Bytes} (rest : Bytes), l ≠ [] → (∀ c ∈ l, isBlank c = false) →
      ∀ c, (l ++ rest).head? = some c → isBlank c = false := by
    intro l rest hl hblank c hc
    cases l with
    | nil => exact absurd rfl hl
    | cons a l => exact Option.some.inj hc ▸ hblank a List.mem_cons_self
  unfold trim
  rw [List.append_assoc, dropWhile_blanks hbefore (hhead after hne hcore), List.reverse_append,
    dropWhile_blanks (fun c hc ↦ hafter c (List.mem_reverse.mp hc)), List.reverse_reverse]
  intro c hc
  exact hcore c (List.mem_reverse.mp (List.mem_of_head? hc))

/-- What is trimmed off are blanks. -/
theorem exists_trim (bytes : Bytes) :
    ∃ before after : List Blank,
      bytes = before.map Blank.byte ++ trim bytes ++ after.map Blank.byte := by
  have hblanks : ∀ {l : Bytes}, (∀ c ∈ l, isBlank c = true) →
      ∃ blanks : List Blank, blanks.map Blank.byte = l := by
    intro l hl
    have hrange : l ∈ Set.range (List.map Blank.byte) := by
      rw [Set.range_list_map]
      exact fun c hc ↦ (isBlank_iff c).mp (hl c hc)
    exact hrange
  have htaken : ∀ l : Bytes, ∀ c ∈ l.takeWhile isBlank, isBlank c = true :=
    fun l c hc ↦ List.mem_takeWhile_imp hc
  obtain ⟨before, hbefore⟩ := hblanks (htaken bytes)
  obtain ⟨after, hafter⟩ :=
    hblanks fun c hc ↦ htaken (bytes.dropWhile isBlank).reverse c (List.mem_reverse.mp hc)
  refine ⟨before, after, ?_⟩
  rw [hbefore, hafter, trim, List.append_assoc, ← List.reverse_append,
    List.takeWhile_append_dropWhile, List.reverse_reverse, List.takeWhile_append_dropWhile]

/-! ## Numerals -/

/-- What holds of the digits, the point, the mark and the signs holds of every byte of a
magnitude. -/
theorem Magnitude.forall_bytes {base : Nat} {mark : Char} {P : UInt8 → Prop}
    (hdigit : ∀ e ∈ digitTable, e.2 < max base 10 → P e.1) (hpoint : P 46)
    (hmark : ∀ capital, P (letter mark capital)) (hsign : ∀ sign : Sign, P sign.byte)
    (m : Magnitude base) : ∀ c ∈ m.bytes mark, P c := by
  have hdigits : ∀ digits : List (Digit base), ∀ c ∈ digits.map Digit.byte, P c := by
    intro digits c hc
    obtain ⟨d, -, rfl⟩ := List.mem_map.mp hc
    exact hdigit _ d.mem (d.lt.trans_le (Nat.le_max_left _ _))
  intro c hc
  rcases List.mem_append.mp hc with hwhole | hrest
  · exact hdigits _ c hwhole
  rcases List.mem_append.mp hrest with hfraction | hexponent
  · cases hm : m.fraction with
    | none =>
      rw [hm] at hfraction
      cases hfraction
    | some digits =>
      rw [hm] at hfraction
      rcases List.mem_cons.mp hfraction with rfl | hmem
      · exact hpoint
      · exact hdigits _ c hmem
  · cases hm : m.exponent with
    | none =>
      rw [hm] at hexponent
      cases hexponent
    | some e =>
      rw [hm] at hexponent
      rcases List.mem_cons.mp hexponent with rfl | hmem
      · exact hmark _
      rcases List.mem_append.mp hmem with hbyte | hbyte
      · obtain ⟨sign, -, rfl⟩ := Option.mem_map.mp (Option.mem_toList.mp hbyte)
        exact hsign sign
      · obtain ⟨d, -, rfl⟩ := List.mem_map.mp hbyte
        exact hdigit _ d.mem (d.lt.trans_le (Nat.le_max_right _ _))

/-- A magnitude begins with a digit or a point. -/
theorem Magnitude.head?_bytes {base : Nat} (mark : Char) (m : Magnitude base) :
    (∃ d : Digit base, (m.bytes mark).head? = some d.byte) ∨ (m.bytes mark).head? = some 46 := by
  cases hwhole : m.whole with
  | cons d digits =>
    refine .inl ⟨d, ?_⟩
    rw [bytes, hwhole]
    rfl
  | nil =>
    refine .inr ?_
    cases hfraction : m.fraction with
    | none =>
      have hne := m.ne_nil
      rw [hwhole, hfraction] at hne
      exact absurd rfl (hne.resolve_left fun h ↦ h rfl)
    | some digits =>
      rw [bytes, hwhole, hfraction]
      rfl

/-- No byte of a body is a blank. -/
theorem Body.not_isBlank (body : Body) : ∀ c ∈ body.bytes, isBlank c = false := by
  have hdigit : ∀ e ∈ digitTable, isBlank e.1 = false := by decide +kernel
  have hsign : ∀ sign : Sign, isBlank sign.byte = false := by
    intro sign
    cases sign <;> rfl
  have hmark : ∀ capital, isBlank (letter 'e' capital) = false ∧
      isBlank (letter 'p' capital) = false ∧ isBlank (letter 'x' capital) = false := by decide
  cases body with
  | decimal m =>
    exact m.forall_bytes (P := (isBlank · = false)) (fun e he _ ↦ hdigit e he) rfl
      (fun capital ↦ (hmark capital).1) hsign
  | hexadecimal capital m =>
    intro c hc
    rcases List.mem_cons.mp hc with rfl | hc
    · rfl
    rcases List.mem_cons.mp hc with rfl | hc
    · exact (hmark capital).2.2
    exact m.forall_bytes (P := (isBlank · = false)) (fun e he _ ↦ hdigit e he) rfl
      (fun capital ↦ (hmark capital).2.1) hsign c hc

/-- A body has no sign at its front, and is not empty. -/
theorem Body.head?_bytes (body : Body) :
    body.bytes ≠ [] ∧ body.bytes.head? ≠ some 45 ∧ body.bytes.head? ≠ some 43 := by
  have hhead : ∀ {bytes : Bytes} {c : UInt8}, bytes.head? = some c → c ≠ 45 → c ≠ 43 →
      bytes ≠ [] ∧ bytes.head? ≠ some 45 ∧ bytes.head? ≠ some 43 := by
    intro bytes c hc hminus hplus
    rw [hc]
    refine ⟨?_, fun h ↦ hminus (Option.some.inj h), fun h ↦ hplus (Option.some.inj h)⟩
    rintro rfl
    cases hc
  cases body with
  | decimal m =>
    rcases m.head?_bytes 'e' with ⟨d, hd⟩ | hpoint
    · exact hhead hd d.byte_ne_sign.1 d.byte_ne_sign.2
    · exact hhead hpoint (by decide) (by decide)
  | hexadecimal capital m => exact hhead (c := 48) rfl (by decide) (by decide)

/-- The number of a body, by the mark at its front. -/
def readBody (negative : Bool) (body : Bytes) : Option Number :=
  match body with
  | 48 :: 120 :: rest => hexadecimal negative rest
  | 48 :: 88 :: rest => hexadecimal negative rest
  | _ => decimal negative body

/-- A numeral is read without its blanks and its sign. -/
theorem read?_eq (bytes : Bytes) :
    read? bytes = readBody (unsigned (trim bytes)).1 (unsigned (trim bytes)).2 := rfl

/-- A body that is written out is read. -/
theorem readBody_bytes (f : Form) :
    ∃ x, readBody (isMinus f.sign) f.body.bytes = some x ∧ Gives f.IsInteger f.integer x := by
  unfold Form.IsInteger Form.integer
  cases f.body with
  | decimal m =>
    have hdigit : ∀ e ∈ digitTable, e.2 < 10 → e.1 ≠ 120 ∧ e.1 ≠ 88 := by decide +kernel
    have hbytes : ∀ c ∈ m.bytes 'e', c ≠ 120 ∧ c ≠ 88 := by
      refine m.forall_bytes hdigit (by decide) (by decide) fun sign ↦ ?_
      cases sign <;> decide
    have hread : readBody (isMinus f.sign) (m.bytes 'e') =
        decimal (isMinus f.sign) (m.bytes 'e') := by
      unfold readBody
      split
      · rename_i hm
        exact absurd rfl (hbytes 120 (by rw [hm]; simp)).1
      · rename_i hm
        exact absurd rfl (hbytes 88 (by rw [hm]; simp)).2
      · rfl
    show ∃ x, readBody (isMinus f.sign) (m.bytes 'e') = some x ∧ _
    rw [hread]
    exact decimal_bytes f.sign m
  | hexadecimal capital m =>
    have hread : readBody (isMinus f.sign) (48 :: letter 'x' capital :: m.bytes 'p') =
        hexadecimal (isMinus f.sign) (m.bytes 'p') := by
      cases capital <;> rfl
    show ∃ x, readBody (isMinus f.sign) (48 :: letter 'x' capital :: m.bytes 'p') = some x ∧ _
    rw [hread]
    exact hexadecimal_bytes f.sign m

/-- A body that is read can be written out. -/
theorem exists_body {negative : Bool} {bytes : Bytes}
    (h : (readBody negative bytes).isSome = true) : ∃ body : Body, body.bytes = bytes := by
  unfold readBody at h
  split at h
  · obtain ⟨m, hm⟩ := exists_hexadecimal h
    exact ⟨.hexadecimal false m, congrArg (48 :: 120 :: ·) hm⟩
  · obtain ⟨m, hm⟩ := exists_hexadecimal h
    exact ⟨.hexadecimal true m, congrArg (48 :: 88 :: ·) hm⟩
  · obtain ⟨m, hm⟩ := exists_decimal h
    exact ⟨.decimal m, hm⟩

/-- A numeral that is written out is read. -/
theorem read?_bytes (f : Form) : ∃ x, read? f.bytes = some x ∧ Gives f.IsInteger f.integer x := by
  obtain ⟨hne, hhead⟩ := f.body.head?_bytes
  have hblanks : ∀ blanks : List Blank, ∀ c ∈ blanks.map Blank.byte, isBlank c = true := by
    intro blanks c hc
    obtain ⟨b, -, rfl⟩ := List.mem_map.mp hc
    exact (isBlank_iff _).mpr ⟨b, rfl⟩
  have htrim : trim f.bytes = signBytes f.sign ++ f.body.bytes := by
    refine trim_append (hblanks _) (hblanks _) (List.append_ne_nil_of_right_ne_nil _ hne) ?_
    intro c hc
    rcases List.mem_append.mp hc with hsign | hbody
    · obtain ⟨sign, -, rfl⟩ := Option.mem_map.mp (Option.mem_toList.mp hsign)
      cases sign <;> rfl
    · exact f.body.not_isBlank c hbody
  rw [read?_eq, htrim, unsigned_append f.sign hhead]
  exact readBody_bytes f

/-- A numeral that is read can be written out. -/
theorem exists_form {bytes : Bytes} (h : (read? bytes).isSome = true) :
    ∃ f : Form, f.bytes = bytes := by
  obtain ⟨before, after, hbytes⟩ := exists_trim bytes
  obtain ⟨sign, hsign, -⟩ := exists_sign (trim bytes)
  rw [read?_eq] at h
  obtain ⟨body, hbody⟩ := exists_body h
  refine ⟨⟨before, sign, body, after⟩, ?_⟩
  show before.map Blank.byte ++ (signBytes sign ++ body.bytes) ++ after.map Blank.byte = bytes
  rw [hbody, ← hsign, ← hbytes]

/-- The bytes that are read as numbers are the numerals. A numeral is read as an integer if it has
neither a point nor an exponent and is hexadecimal or fits in 64 bits with a sign; that integer is
its value, modulo `2 ^ 64` for a hexadecimal one. All other numerals are read as doubles. -/
theorem numerals_are_read :
    (∀ bytes, (read? bytes).isSome = true ↔ ∃ f : Form, f.bytes = bytes) ∧
    ∀ f : Form,
      (f.IsInteger ∧ ∃ i, read? f.bytes = some (.int i) ∧ i.toInt = f.integer) ∨
      (¬ f.IsInteger ∧ ∃ d, read? f.bytes = some (.float d)) := by
  refine ⟨fun bytes ↦ ⟨exists_form, ?_⟩, fun f ↦ ?_⟩
  · rintro ⟨f, rfl⟩
    obtain ⟨x, hx, -⟩ := read?_bytes f
    exact Option.isSome_of_eq_some hx
  · obtain ⟨x, hx, hinteger, hdouble⟩ := read?_bytes f
    by_cases h : f.IsInteger
    · obtain ⟨i, rfl, hi⟩ := hinteger h
      exact .inl ⟨h, i, hx, hi⟩
    · obtain ⟨d, rfl⟩ := hdouble h
      exact .inr ⟨h, d, hx⟩

end LuaData.Numeral
