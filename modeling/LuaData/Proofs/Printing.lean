import LuaData.Number.Text
import LuaData.Proofs.Doubles
import LuaData.Proofs.Numerals

/-!
# Numbers that are read back

The text of a number is a numeral of its kind. An integer is written with its digits, and the text
of a finite double has a point or an exponent wherever its digits end, so that it is never that of
an integer. `text_is_numeral` says which numbers are read back from the texts of numbers; infinities
and NaNs have texts that are no numerals.
-/

namespace LuaData.Numeral

variable {text whole fraction digits : List Char}

/-! ## Digits -/

/-- A decimal digit as a character. -/
theorem exists_digit {c : Char} (h : c.isDigit = true) :
    ∃ d : Digit 10, String.utf8EncodeChar c = [d.byte] ∧ d.value = c.toNat - '0'.toNat := by
  have htable : ∀ k < 10, ∃ e ∈ digitTable, e.2 < 10 ∧
      String.utf8EncodeChar (Char.ofNat (48 + k)) = [e.1] ∧ e.2 = k := by decide +kernel
  obtain ⟨hlow, hhigh⟩ : 48 ≤ c.toNat ∧ c.toNat ≤ 57 := by
    rw [Char.isDigit, Bool.and_eq_true, decide_eq_true_iff, decide_eq_true_iff] at h
    exact h
  obtain ⟨e, he, hlt, hbyte, hvalue⟩ := htable (c.toNat - 48) (by omega)
  rw [show 48 + (c.toNat - 48) = c.toNat by omega, Char.ofNat_toNat] at hbyte
  exact ⟨⟨e.1, e.2, he, hlt⟩, hbyte, hvalue⟩

/-- The text consists of decimal digits. -/
def AreDigits (text : List Char) : Prop :=
  ∀ c ∈ text, c.isDigit = true

/-- Decimal digits as characters. -/
theorem AreDigits.exists_digits (h : AreDigits text) :
    ∃ ds : List (Digit 10), ds.map Digit.byte = Utf8.encode text ∧
      ds.map Digit.value = text.map (fun c ↦ c.toNat - '0'.toNat) ∧ (ds = [] → text = []) := by
  induction text with
  | nil => exact ⟨[], rfl, rfl, fun _ ↦ rfl⟩
  | cons c text ih =>
    obtain ⟨d, hbyte, hvalue⟩ := exists_digit (h c List.mem_cons_self)
    obtain ⟨ds, hbytes, hvalues, -⟩ := ih fun c hc ↦ h c (List.mem_cons_of_mem _ hc)
    refine ⟨d :: ds, ?_, ?_, nofun⟩
    · show d.byte :: ds.map Digit.byte = String.utf8EncodeChar c ++ Utf8.encode text
      rw [hbytes, hbyte]
      rfl
    · rw [List.map_cons, List.map_cons, hvalue, hvalues]

/-- The number that digits stand for, from the left. -/
theorem number_eq_foldl {base : Nat} (digits : List (Digit base)) :
    number digits = (digits.map Digit.value).foldl (fun n v ↦ base * n + v) 0 := by
  rw [← natOfDigits_bytes, natOfDigits, List.foldl_map, List.foldl_map]
  simp only [digitValue_byte, Nat.mul_comm]

/-- The digits of a natural. -/
theorem areDigits_decimalDigits (n : Nat) : AreDigits (decimalDigits n) :=
  fun _ hc ↦ Nat.isDigit_of_mem_toDigits (by decide) (by decide) hc

/-- The digits of a natural stand for it. -/
theorem exists_digits_decimalDigits (n : Nat) :
    ∃ ds : List (Digit 10), ds.map Digit.byte = Utf8.encode (decimalDigits n) ∧ ds ≠ [] ∧
      number ds = n := by
  obtain ⟨ds, hbytes, hvalues, hempty⟩ := (areDigits_decimalDigits n).exists_digits
  refine ⟨ds, hbytes, mt hempty Nat.toDigits_ne_nil, ?_⟩
  rw [number_eq_foldl, hvalues, List.foldl_map]
  exact Nat.ofDigitChars_ten_toDigits

/-- Digits in a row are digits. -/
theorem AreDigits.append (h : AreDigits whole) (h' : AreDigits fraction) :
    AreDigits (whole ++ fraction) :=
  fun c hc ↦ (List.mem_append.mp hc).elim (h c) (h' c)

/-- A part of some digits. -/
theorem AreDigits.sublist (h : AreDigits whole) (hsub : fraction.Sublist whole) :
    AreDigits fraction :=
  fun c hc ↦ h c (hsub.mem hc)

/-- Zeros are digits. -/
theorem areDigits_replicate (n : Nat) : AreDigits (List.replicate n '0') :=
  fun _ hc ↦ List.eq_of_mem_replicate hc ▸ rfl

/-! ## The texts of decimals -/

/-- The text of a decimal magnitude with a point or an exponent. -/
def IsFractional (text : List Char) : Prop :=
  ∃ m : Magnitude 10, m.bytes 'e' = Utf8.encode text ∧ ¬ m.Whole

/-- The bytes of one text after another. -/
theorem encode_append (text rest : List Char) :
    Utf8.encode (text ++ rest) = Utf8.encode text ++ Utf8.encode rest :=
  List.flatMap_append

/-- The point and the digits after it, as text. -/
def fractionText : Option (List Char) → List Char
  | none => []
  | some digits => '.' :: digits

/-- An exponent as text: whether it has a minus, and its digits. -/
def exponentText : Option (Bool × List Char) → List Char
  | none => []
  | some (negative, digits) => 'e' :: (if negative then '-' else '+') :: digits

/-- A point with digits that is written out. -/
theorem exists_fractionBytes (fraction : Option (List Char))
    (h : ∀ digits, fraction = some digits → AreDigits digits) :
    ∃ f : Option (List (Digit 10)), fractionBytes f = Utf8.encode (fractionText fraction) ∧
      (f = none → fraction = none) := by
  cases fraction with
  | none => exact ⟨none, rfl, fun _ ↦ rfl⟩
  | some digits =>
    obtain ⟨ds, hds, -, -⟩ := (h digits rfl).exists_digits
    exact ⟨some ds, congrArg (46 :: ·) hds, nofun⟩

/-- An exponent that is written out. -/
theorem exists_exponentBytes (exponent : Option (Bool × List Char))
    (h : ∀ negative digits, exponent = some (negative, digits) → AreDigits digits ∧ digits ≠ []) :
    ∃ e : Option Exponent, exponentBytes 'e' e = Utf8.encode (exponentText exponent) ∧
      (e = none → exponent = none) := by
  cases exponent with
  | none => exact ⟨none, rfl, fun _ ↦ rfl⟩
  | some e =>
    obtain ⟨negative, digits⟩ := e
    obtain ⟨hdigits, hne⟩ := h negative digits rfl
    obtain ⟨ds, hds, -, hempty⟩ := hdigits.exists_digits
    have hne' := mt hempty hne
    cases negative with
    | false => exact ⟨some ⟨false, some .plus, ds, hne'⟩, congrArg (101 :: 43 :: ·) hds, nofun⟩
    | true => exact ⟨some ⟨false, some .minus, ds, hne'⟩, congrArg (101 :: 45 :: ·) hds, nofun⟩

/-- Digits, a point and an exponent, one of the last two at least, are the text of a magnitude that
is no integer. -/
theorem isFractional_parts (fraction : Option (List Char)) (exponent : Option (Bool × List Char))
    (hwhole : AreDigits whole) (hne : whole ≠ [])
    (hfraction : ∀ digits, fraction = some digits → AreDigits digits)
    (hexponent : ∀ negative digits, exponent = some (negative, digits) →
      AreDigits digits ∧ digits ≠ [])
    (hpart : fraction ≠ none ∨ exponent ≠ none) :
    IsFractional (whole ++ (fractionText fraction ++ exponentText exponent)) := by
  obtain ⟨ds, hds, -, hempty⟩ := hwhole.exists_digits
  obtain ⟨f, hf, hfnone⟩ := exists_fractionBytes fraction hfraction
  obtain ⟨e, he, henone⟩ := exists_exponentBytes exponent hexponent
  refine ⟨⟨ds, f, e, .inl (mt hempty hne)⟩, ?_, fun h ↦ ?_⟩
  · rw [Magnitude.bytes, hds, hf, he, encode_append, encode_append]
  · exact hpart.elim (fun h' ↦ h' (hfnone h.1)) fun h' ↦ h' (henone h.2)

/-- A fraction without its zeros at the end is what is left of it or another text in its place. -/
theorem withFraction_cases (h : AreDigits fraction) (whole empty : List Char) :
    Decimal.withFraction whole fraction empty = whole ++ empty ∨
      ∃ kept, AreDigits kept ∧
        Decimal.withFraction whole fraction empty = whole ++ '.' :: kept := by
  have hkept : AreDigits (Decimal.trimZeros fraction) := by
    intro c hc
    have hmem := (List.dropWhile_sublist _).mem (List.mem_reverse.mp hc)
    exact h c (List.mem_reverse.mp hmem)
  unfold Decimal.withFraction
  split
  · exact .inl rfl
  · exact .inr ⟨_, hkept, rfl⟩

/-- Positional text has a point. -/
theorem isFractional_withFraction (hwhole : AreDigits whole) (hne : whole ≠ [])
    (hfraction : AreDigits fraction) :
    IsFractional (Decimal.withFraction whole fraction ['.', '0']) := by
  obtain ⟨digits, hdigits, htext⟩ : ∃ digits, AreDigits digits ∧
      Decimal.withFraction whole fraction ['.', '0'] = whole ++ '.' :: digits := by
    rcases withFraction_cases hfraction whole ['.', '0'] with hempty | hkept
    · exact ⟨['0'], areDigits_replicate 1, hempty⟩
    · exact hkept
  have hparts := isFractional_parts (some digits) none hwhole hne
    (fun _ h ↦ Option.some.inj h ▸ hdigits) nofun (.inl nofun)
  rw [htext]
  rwa [exponentText, List.append_nil] at hparts

/-- Scientific text has an exponent. -/
theorem isFractional_scientific (hwhole : AreDigits whole) (hne : whole ≠ [])
    (hfraction : AreDigits fraction) (hdigits : AreDigits digits) (hne' : digits ≠ [])
    (negative : Bool) :
    IsFractional (Decimal.withFraction whole fraction [] ++
      'e' :: (if negative then '-' else '+') :: digits) := by
  obtain ⟨rest, hrest, htext⟩ : ∃ rest : Option (List Char),
      (∀ ds, rest = some ds → AreDigits ds) ∧
        Decimal.withFraction whole fraction [] = whole ++ fractionText rest := by
    rcases withFraction_cases hfraction whole [] with hempty | ⟨kept, hkept, htext⟩
    · exact ⟨none, nofun, hempty⟩
    · exact ⟨some kept, fun _ h ↦ Option.some.inj h ▸ hkept, htext⟩
  rw [htext, List.append_assoc]
  refine isFractional_parts rest (some (negative, digits)) hwhole hne hrest ?_ (.inr nofun)
  rintro _ _ ⟨⟩
  exact ⟨hdigits, hne'⟩

/-- The text of a decimal is that of a magnitude with a point or an exponent. -/
theorem isFractional_layout (format : Decimal.Layout) {d : Decimal} (hdigits : AreDigits d.digits)
    (hne : d.digits ≠ []) : IsFractional (d.layout format) := by
  have hfirst : ∀ count, d.digits.take (count + 1) ≠ [] := fun count h ↦
    hne ((List.take_eq_nil_iff.mp h).resolve_left (Nat.succ_ne_zero count))
  unfold Decimal.layout
  split
  · split
    · exact isFractional_withFraction
        ((hdigits.sublist (List.take_sublist _ _)).append (areDigits_replicate _))
        (List.append_ne_nil_of_left_ne_nil (hfirst _) _) (hdigits.sublist (List.drop_sublist _ _))
    · exact isFractional_withFraction (areDigits_replicate 1) nofun
        ((areDigits_replicate _).append hdigits)
  · have hexponent : AreDigits
        (Decimal.padLeft format.exponentWidth (decimalDigits d.exponent.natAbs)) :=
      (areDigits_replicate _).append (areDigits_decimalDigits _)
    have htext := isFractional_scientific (hdigits.sublist (List.take_sublist 1 _)) (hfirst 0)
      (hdigits.sublist (List.drop_sublist 1 _)) hexponent
      (List.append_ne_nil_of_right_ne_nil _ Nat.toDigits_ne_nil) (decide (d.exponent < 0))
    simpa only [decide_eq_true_eq] using htext

/-- A ratio that is rounded to a number of digits has digits. -/
theorem areDigits_rounded (count num den : Nat) :
    AreDigits (Decimal.rounded (count + 1) num den).digits ∧
      (Decimal.rounded (count + 1) num den).digits ≠ [] := by
  refine ⟨(areDigits_decimalDigits _).sublist (List.take_sublist _ _), fun h ↦ ?_⟩
  exact (List.take_eq_nil_iff.mp h).elim (Nat.succ_ne_zero count) Nat.toDigits_ne_nil

/-! ## The texts of numbers -/

/-- The text of a finite double is a magnitude with a point or an exponent after its sign. -/
theorem exists_fractional {x : Double} (h : x.isFinite = true) :
    ∃ text, x.text = x.signed text ∧ IsFractional text := by
  obtain ⟨hnan, hinfinite⟩ := Double.isFinite_iff.mp h
  refine ⟨_, rfl, ?_⟩
  rw [hnan, hinfinite, if_neg Bool.false_ne_true, if_neg Bool.false_ne_true]
  split
  · exact isFractional_withFraction (areDigits_replicate 1) nofun (areDigits_replicate 0)
  · obtain ⟨hdigits, hne⟩ := areDigits_rounded 13 x.units Double.unitsPerOne
    exact isFractional_layout _ hdigits hne

/-- The sign of a text. -/
def minusIf (negative : Bool) : Option Sign :=
  if negative then some .minus else none

/-- A text after its sign, as bytes. -/
theorem encode_signed (negative : Bool) (text : List Char) :
    Utf8.encode (if negative then '-' :: text else text) =
      signBytes (minusIf negative) ++ Utf8.encode text := by
  cases negative <;> rfl

/-- The sign and the digits of an integer stand for it. -/
theorem signed_natAbs (i : Int64) :
    signed (minusIf (decide (i < 0))) i.toInt.natAbs = i.toInt := by
  have hsign : i < 0 ↔ i.toInt < 0 := Int64.lt_iff_toInt_lt
  by_cases hneg : i < 0
  · have hneg' := hsign.mp hneg
    rw [decide_eq_true hneg]
    show -(i.toInt.natAbs : Int) = i.toInt
    omega
  · have hneg' := mt hsign.mpr hneg
    rw [decide_eq_false hneg]
    show (i.toInt.natAbs : Int) = i.toInt
    omega

/-- A fractional text does not begin with a sign. -/
theorem IsFractional.head?_ne (h : IsFractional text) : text.head? ≠ some '-' := by
  obtain ⟨m, hm, -⟩ := h
  intro hhead
  obtain ⟨rest, rfl⟩ := List.head?_eq_some_iff.mp hhead
  exact (Body.decimal m).head?_bytes.2.1 (congrArg List.head? hm)

/-- The text of an integer is read back as the integer, between any blanks. -/
theorem read?_integerText (i : Int64) (before after : List Blank) :
    read? (before.map Blank.byte ++ Utf8.encode (Integer.text i) ++ after.map Blank.byte) =
      some (.int i) := by
  obtain ⟨ds, hds, hne, hnumber⟩ := exists_digits_decimalDigits i.toInt.natAbs
  let f : Form := ⟨before, minusIf (decide (i < 0)), .decimal ⟨ds, none, none, .inl hne⟩, after⟩
  have hbytes : f.bytes =
      before.map Blank.byte ++ Utf8.encode (Integer.text i) ++ after.map Blank.byte := by
    have htext : Integer.text i = if decide (i < 0) then '-' :: decimalDigits i.toInt.natAbs
        else decimalDigits i.toInt.natAbs := by simp only [Integer.text, decide_eq_true_eq]
    rw [htext, encode_signed, ← hds]
    show _ ++ (_ ++ (ds.map Digit.byte ++ ([] ++ []))) ++ _ = _
    rw [List.append_nil, List.append_nil]
  have hvalue : signed f.sign (number ds) = i.toInt := hnumber ▸ signed_natAbs i
  obtain ⟨x, hx, hinteger, -⟩ := read?_bytes f
  have hfits : f.IsInteger := by
    refine ⟨⟨rfl, rfl⟩, ?_, ?_⟩
    · rw [hvalue]
      exact i.le_toInt
    · rw [hvalue]
      exact Int.le_sub_one_of_lt i.toInt_lt
  obtain ⟨j, rfl, hj⟩ := hinteger hfits
  rw [← hbytes, hx, Int64.toInt_inj.mp (hj.trans hvalue)]

/-- The text of a finite double is read back as a double, between any blanks. -/
theorem read?_doubleText {x : Double} (h : x.isFinite = true) (before after : List Blank) :
    ∃ d, read? (before.map Blank.byte ++ Utf8.encode x.text ++ after.map Blank.byte) =
      some (.float d) := by
  obtain ⟨text, htext, m, hm, hwhole⟩ := exists_fractional h
  let f : Form := ⟨before, minusIf x.negative, .decimal m, after⟩
  have hbytes : f.bytes =
      before.map Blank.byte ++ Utf8.encode x.text ++ after.map Blank.byte := by
    rw [htext, Double.signed, encode_signed, ← hm]
    rfl
  obtain ⟨y, hy, -, hdouble⟩ := read?_bytes f
  obtain ⟨d, rfl⟩ := hdouble fun hinteger ↦ hwhole hinteger.1
  exact ⟨d, hbytes ▸ hy⟩

/-- The text of a finite double has a minus if its sign bit is set. -/
theorem head?_doubleText {x : Double} (h : x.isFinite = true) :
    x.text.head? = some '-' ↔ x.negative = true := by
  obtain ⟨text, htext, hfractional⟩ := exists_fractional h
  rw [htext, Double.signed]
  cases x.negative with
  | false => exact iff_of_false hfractional.head?_ne Bool.false_ne_true
  | true => exact iff_of_true rfl rfl

/-- The text of an infinity or a NaN is no numeral. -/
theorem read?_specialText {x : Double} (h : x.isFinite = false) :
    read? (Utf8.encode x.text) = none := by
  have hnone : ∀ negative : Bool, read? (Utf8.encode
        (if negative then '-' :: ['n', 'a', 'n'] else ['n', 'a', 'n'])) = none ∧
      read? (Utf8.encode
        (if negative then '-' :: ['i', 'n', 'f'] else ['i', 'n', 'f'])) = none := by
    decide +kernel
  unfold Double.text Double.signed
  cases hnan : x.isNaN with
  | true => exact (hnone x.negative).1
  | false =>
    cases hinfinite : x.isInfinite with
    | true => exact (hnone x.negative).2
    | false =>
      rw [Double.isFinite_iff.mpr ⟨hnan, hinfinite⟩] at h
      cases h

/-- The texts of integers and finite doubles are numerals of their kind, with the sign of the
number, and those of infinities and NaNs are none. -/
theorem text_is_numeral :
    (∀ (i : Int64) (before after : List Blank),
      read? (before.map Blank.byte ++ Utf8.encode (Integer.text i) ++ after.map Blank.byte) =
        some (.int i)) ∧
    (∀ x : Double, x.isFinite = true →
      (∀ before after : List Blank, ∃ d,
        read? (before.map Blank.byte ++ Utf8.encode x.text ++ after.map Blank.byte) =
          some (.float d)) ∧
      (x.text.head? = some '-' ↔ x.negative = true)) ∧
    ∀ x : Double, x.isFinite = false → read? (Utf8.encode x.text) = none :=
  ⟨read?_integerText, fun _ h ↦ ⟨read?_doubleText h, head?_doubleText h⟩,
    fun _ h ↦ read?_specialText h⟩

/-- The text of the negative zero is that of a negative double, and the text of infinity is no
numeral. -/
theorem text_is_numeral_of_negative_zero :
    (∃ d, read? (Utf8.encode (Double.mk 0x8000000000000000).text) = some (.float d)) ∧
      (Double.mk 0x8000000000000000).text.head? = some '-' ∧
      read? (Utf8.encode (Double.mk 0x7ff0000000000000).text) = none := by
  obtain ⟨-, hfinite, hspecial⟩ := text_is_numeral
  obtain ⟨hread, hsign⟩ := hfinite ⟨0x8000000000000000⟩ (by decide +kernel)
  obtain ⟨d, hd⟩ := hread [] []
  rw [List.map_nil, List.nil_append, List.append_nil] at hd
  exact ⟨⟨d, hd⟩, hsign.mpr (by decide +kernel), hspecial _ (by decide +kernel)⟩

end LuaData.Numeral
