import Mathlib.Data.Rat.Floor
import Mathlib.Tactic.NormNum
import LuaData.Number.Basic
import LuaData.Proofs.Keys

/-!
# Doubles and integers

A double is a whole number of units, so the integers of a double are quotients: `toInt64?` gives
the exact integer, the floor or the ceiling where that is a 64-bit integer
(`integer?_eq_some_iff`, `floor_eq_some_iff`, `ceiling_eq_some_iff`). In the other direction every
integer up to `2 ^ 53` is a double (`Integer.scaled_toDouble`).
-/

namespace LuaData

namespace Double

variable {x y : Double} {i : Int64} {n : Int}

/-! ## The kinds of doubles -/

/-- There are units in one. -/
theorem unitsPerOne_pos : (0 : Int) < unitsPerOne := by
  rw [unitsPerOne]
  positivity

/-- The exponent has eleven bits. -/
theorem exponentField_lt (x : Double) : x.exponentField < 2 ^ 11 :=
  Nat.mod_lt _ (by decide)

/-- A double is finite unless it is infinite or a NaN. -/
theorem isFinite_iff : x.isFinite = true ↔ x.isNaN = false ∧ x.isInfinite = false := by
  unfold isFinite isNaN isInfinite
  by_cases h : x.exponentField = 2047 <;> by_cases h' : x.fractionField = 0 <;> simp [h, h']

/-- An infinity is the power of two beyond the finite doubles. -/
theorem units_of_isInfinite (h : x.isInfinite = true) : x.units = 2 ^ 2098 := by
  simp only [isInfinite, Bool.and_eq_true, beq_iff_eq] at h
  rw [units, h.1, h.2, if_neg (by decide), Nat.add_zero, ← Nat.pow_add]

/-- Finite doubles are below the infinities. -/
theorem units_lt_of_isFinite (h : x.isFinite = true) : x.units < 2 ^ 2098 := by
  have hinfinite : (infinity false).isInfinite = true := by decide
  rw [← units_of_isInfinite hinfinite]
  refine units_lt_of_exponentField_lt ?_
  have hexponent : (infinity false).exponentField = 2047 := by decide
  have hlt := x.exponentField_lt
  simp only [isFinite, bne_iff_ne] at h
  omega

/-- The size of a double is its number of units. -/
theorem natAbs_scaled (x : Double) : x.scaled.natAbs = x.units := by
  unfold scaled
  split <;> simp

/-! ## The integers of a double -/

/-- The word of an integer has its value. -/
theorem int64?_eq_some_iff : int64? n = some i ↔ i.toInt = n := by
  unfold int64?
  have hlow := i.le_toInt
  have hhigh := i.toInt_lt
  split
  · rename_i hn
    rw [Option.some.injEq]
    constructor
    · rintro rfl
      exact Int64.toInt_ofInt_of_le hn.1 hn.2
    · rintro rfl
      exact Int64.ofInt_toInt i
  · rename_i hn
    refine ⟨nofun, fun h ↦ absurd ?_ hn⟩
    subst h
    exact ⟨hlow, hhigh⟩

/-- An integer without a word is out of range. -/
theorem int64?_eq_none_iff : int64? n = none ↔ n < -(2 ^ 63) ∨ 2 ^ 63 ≤ n := by
  unfold int64?
  split <;> simp <;> omega

/-- An integral double is a multiple of one. -/
theorem isIntegral_iff :
    x.isIntegral = true ↔ x.isFinite = true ∧ (unitsPerOne : Int) ∣ x.scaled := by
  rw [isIntegral, Bool.and_eq_true, beq_iff_eq, ← Nat.dvd_iff_mod_eq_zero, ← natAbs_scaled,
    Int.natCast_dvd]

/-- The integer of a double has its value. -/
theorem integer?_eq_some_iff :
    x.integer? = some i ↔ x.isFinite = true ∧ x.scaled = i.toInt * unitsPerOne := by
  have hpos := unitsPerOne_pos
  unfold integer? toInt64?
  by_cases hfinite : x.isFinite = true
  · simp only [hfinite, Bool.not_true, Bool.false_eq_true, if_false, true_and]
    by_cases hintegral : x.isIntegral = true
    · rw [if_pos hintegral, int64?_eq_some_iff, floorInt]
      have hdvd := (isIntegral_iff.mp hintegral).2
      constructor
      · intro h
        rw [h, Int.ediv_mul_cancel hdvd]
      · intro h
        rw [h, Int.mul_ediv_cancel _ hpos.ne']
    · rw [if_neg hintegral]
      refine iff_of_false (Option.some_ne_none i).symm fun h ↦ hintegral ?_
      exact isIntegral_iff.mpr ⟨hfinite, h ▸ Int.dvd_mul_left _ _⟩
  · rw [if_pos (by simpa using hfinite)]
    exact iff_of_false (Option.some_ne_none i).symm fun h ↦ hfinite h.1

/-- The floor of a finite double, if it has a word. -/
theorem floor_eq_some_iff :
    x.toInt64? .floor = some i ↔ x.isFinite = true ∧ x.floorInt = i.toInt := by
  unfold toInt64?
  by_cases hfinite : x.isFinite = true
  · simp only [hfinite, Bool.not_true, Bool.false_eq_true, if_false, true_and]
    rw [int64?_eq_some_iff, eq_comm]
  · simp [hfinite]

/-- The ceiling of a finite double, if it has a word. -/
theorem ceiling_eq_some_iff :
    x.toInt64? .ceiling = some i ↔ x.isFinite = true ∧ x.ceilingInt = i.toInt := by
  unfold toInt64?
  by_cases hfinite : x.isFinite = true
  · simp only [hfinite, Bool.not_true, Bool.false_eq_true, if_false, true_and]
    rw [int64?_eq_some_iff, eq_comm]
  · simp [hfinite]

/-- An integer is at most the floor if it is at most the double. -/
theorem le_floorInt_iff : n ≤ x.floorInt ↔ n * unitsPerOne ≤ x.scaled :=
  Int.le_ediv_iff_mul_le unitsPerOne_pos

/-- The ceiling is at most an integer if the double is. -/
theorem ceilingInt_le_iff : x.ceilingInt ≤ n ↔ x.scaled ≤ n * unitsPerOne := by
  have h := Int.le_ediv_iff_mul_le (a := -n) (b := -x.scaled) unitsPerOne_pos
  rw [Int.neg_mul] at h
  unfold ceilingInt
  omega

/-- All 64-bit integers are on one side of the double. -/
def Beyond (x : Double) : Prop :=
  (∀ i : Int64, i.toInt * unitsPerOne < x.scaled) ∨ ∀ i : Int64, x.scaled < i.toInt * unitsPerOne

/-- The sign of a double beyond the integers tells on which side they are. -/
theorem Beyond.sign (h : x.Beyond) (i : Int64) :
    (0 < x.scaled ∧ i.toInt * unitsPerOne < x.scaled) ∨
      (x.scaled < 0 ∧ x.scaled < i.toInt * unitsPerOne) := by
  have hzero : (0 : Int64).toInt * unitsPerOne = 0 := Int.zero_mul _
  rcases h with h | h
  · exact .inl ⟨hzero ▸ h 0, h i⟩
  · exact .inr ⟨hzero ▸ h 0, h i⟩

/-- The integers are below the infinities. -/
theorem natAbs_integer_lt (i : Int64) : (i.toInt * unitsPerOne).natAbs < 2 ^ 2098 := by
  have hlow := i.le_toInt
  have hhigh := i.toInt_lt
  have hi : i.toInt.natAbs ≤ 2 ^ 63 := by omega
  have hpow : 2 ^ 63 * unitsPerOne < 2 ^ 2098 := by
    rw [unitsPerOne, ← Nat.pow_add]
    exact Nat.pow_lt_pow_right (by decide) (by decide)
  rw [Int.natAbs_mul, Int.natAbs_natCast]
  exact (Nat.mul_le_mul_right _ hi).trans_lt hpow

/-- An infinity is beyond the integers. -/
theorem beyond_of_isInfinite (h : x.isInfinite = true) : x.Beyond := by
  unfold Beyond scaled
  rw [units_of_isInfinite h]
  cases x.negative with
  | false =>
    refine .inl fun i ↦ ?_
    have := natAbs_integer_lt i
    simp only [Bool.false_eq_true, if_false]
    omega
  | true =>
    refine .inr fun i ↦ ?_
    have := natAbs_integer_lt i
    simp only [if_true]
    omega

/-- A double that is no NaN and whose floor or ceiling has no word is beyond the integers. -/
theorem beyond_of_toInt64?_none {mode : IntegerMode} (hnan : x.isNaN = false)
    (h : x.toInt64? mode = none) (hmode : mode ≠ .exact) : x.Beyond := by
  have hpos := unitsPerOne_pos
  by_cases hfinite : x.isFinite = true
  · unfold toInt64? at h
    simp only [hfinite, Bool.not_true, Bool.false_eq_true, if_false] at h
    cases mode with
    | exact => exact absurd rfl hmode
    | floor =>
      rcases int64?_eq_none_iff.mp h with hlow | hhigh
      · refine .inr fun i ↦ ?_
        have := i.le_toInt
        by_contra hle
        have := le_floorInt_iff.mpr (not_lt.mp hle)
        omega
      · refine .inl fun i ↦ ?_
        have hi : i.toInt < 2 ^ 63 := i.toInt_lt
        exact (Int.mul_lt_mul_of_pos_right hi hpos).trans_le (le_floorInt_iff.mp hhigh)
    | ceiling =>
      rcases int64?_eq_none_iff.mp h with hlow | hhigh
      · refine .inr fun i ↦ ?_
        have hi : x.ceilingInt < i.toInt := hlow.trans_le i.le_toInt
        exact (ceilingInt_le_iff.mp (le_refl _)).trans_lt (Int.mul_lt_mul_of_pos_right hi hpos)
      · refine .inl fun i ↦ ?_
        have := i.toInt_lt
        by_contra hle
        have := ceilingInt_le_iff.mpr (not_lt.mp hle)
        omega
  · refine beyond_of_isInfinite ?_
    by_contra hinfinite
    exact hfinite (isFinite_iff.mpr ⟨hnan, by simpa using hinfinite⟩)

/-! ## Doubles from their fields -/

section ofFields

variable {negative' : Bool} {magnitude : Nat}

/-- The bits of a double that is given by its fields. -/
theorem toNat_ofFields (hm : magnitude < 2 ^ 63) :
    (ofFields negative' magnitude).bits.toNat = (if negative' then 2 ^ 63 else 0) + magnitude := by
  rw [ofFields, UInt64.toNat_ofNat']
  refine Nat.mod_eq_of_lt ?_
  split <;> omega

theorem negative_ofFields (hm : magnitude < 2 ^ 63) :
    (ofFields negative' magnitude).negative = negative' := by
  rw [negative, toNat_ofFields hm]
  cases negative' <;> simp
  omega

theorem exponentField_ofFields (hm : magnitude < 2 ^ 63) :
    (ofFields negative' magnitude).exponentField = magnitude / 2 ^ 52 := by
  rw [exponentField, toNat_ofFields hm]
  split <;> omega

theorem fractionField_ofFields (hm : magnitude < 2 ^ 63) :
    (ofFields negative' magnitude).fractionField = magnitude % 2 ^ 52 := by
  rw [fractionField, toNat_ofFields hm]
  split <;> omega

/-- A significand on a grid is the double with its number of units. -/
theorem units_ofFields {q e : Nat} (hq : q ≤ 2 ^ 53) (hnormal : 2 ^ 52 ≤ q ∨ e = 0)
    (he : e ≤ 2000) : (ofFields negative' (e * 2 ^ 52 + q)).units = q * 2 ^ e := by
  have hm : e * 2 ^ 52 + q < 2 ^ 63 := by omega
  rw [units, exponentField_ofFields hm, fractionField_ofFields hm]
  rcases Nat.lt_or_ge q (2 ^ 52) with hsmall | hlarge
  · obtain rfl : e = 0 := by omega
    rw [if_pos (by omega), Nat.zero_mul, Nat.zero_add, Nat.mod_eq_of_lt hsmall, Nat.pow_zero,
      Nat.mul_one]
  · rw [if_neg (by omega)]
    rcases Nat.lt_or_ge q (2 ^ 53) with hlt | hge
    · have hdiv : (e * 2 ^ 52 + q) / 2 ^ 52 - 1 = e := by omega
      have hmod : 2 ^ 52 + (e * 2 ^ 52 + q) % 2 ^ 52 = q := by omega
      rw [hdiv, hmod]
    · obtain rfl : q = 2 ^ 53 := by omega
      have hdiv : (e * 2 ^ 52 + 2 ^ 53) / 2 ^ 52 - 1 = e + 1 := by omega
      have hmod : 2 ^ 52 + (e * 2 ^ 52 + 2 ^ 53) % 2 ^ 52 = 2 ^ 52 := by omega
      rw [hdiv, hmod, Nat.pow_succ]
      ring

end ofFields

/-! ## The double of an integer -/

/-- The binary logarithm of a ratio with denominator one. -/
theorem floorLog2_one {n : Nat} (hn : n ≠ 0) : floorLog2 n 1 = n.log2 := by
  have hle := Nat.log2_self_le hn
  have hone : Nat.log2 1 = 0 := by decide
  simp [floorLog2, hone, hle]

/-- Rounding moves a quotient up by at most one. -/
theorem divNearest_cases (num den : Nat) :
    divNearest num den = num / den ∨ divNearest num den = num / den + 1 := by
  unfold divNearest
  dsimp only
  split
  · exact .inl rfl
  · exact .inr rfl

/-- The significand of an integer on the grid of its binary logarithm. -/
def integerSignificand (n : Nat) : Nat :=
  divNearest (n * 2 ^ (52 - n.log2)) (2 ^ (n.log2 - 52))

/-- The significand of an integer has 53 bits, or is the next power of two. -/
theorem integerSignificand_bounds {n : Nat} (hn : n ≠ 0) :
    2 ^ 52 ≤ integerSignificand n ∧ integerSignificand n ≤ 2 ^ 53 := by
  have hlow := Nat.log2_self_le hn
  have hhigh := Nat.lt_log2_self (n := n)
  have hquotient : 2 ^ 52 ≤ n * 2 ^ (52 - n.log2) / 2 ^ (n.log2 - 52) ∧
      n * 2 ^ (52 - n.log2) / 2 ^ (n.log2 - 52) < 2 ^ 53 := by
    rw [Nat.le_div_iff_mul_le (Nat.two_pow_pos _), Nat.div_lt_iff_lt_mul (Nat.two_pow_pos _),
      ← Nat.pow_add, ← Nat.pow_add]
    have hscale := Nat.two_pow_pos (52 - n.log2)
    constructor
    · calc 2 ^ (52 + (n.log2 - 52)) = 2 ^ n.log2 * 2 ^ (52 - n.log2) := by
            rw [← Nat.pow_add]
            congr 1
            omega
        _ ≤ n * 2 ^ (52 - n.log2) := Nat.mul_le_mul_right _ hlow
    · calc n * 2 ^ (52 - n.log2) < 2 ^ (n.log2 + 1) * 2 ^ (52 - n.log2) :=
            Nat.mul_lt_mul_of_pos_right hhigh hscale
        _ = 2 ^ (53 + (n.log2 - 52)) := by
            rw [← Nat.pow_add]
            congr 1
            omega
  unfold integerSignificand
  rcases divNearest_cases (n * 2 ^ (52 - n.log2)) (2 ^ (n.log2 - 52)) with h | h <;> omega

/-- The double nearest to a natural of 64 bits is given by its significand. -/
theorem ofRatio_one {n : Nat} (hn : n ≠ 0) (hlt : n < 2 ^ 64) (sign : Bool) :
    ofRatio sign n 1 = ofFields sign ((n.log2 + 1022) * 2 ^ 52 + integerSignificand n) := by
  have hlog : n.log2 < 64 := (Nat.log2_lt hn).mpr hlt
  have hscale : max (floorLog2 n 1 - ((53 - 1 : Nat) : Int)) (-1074) = (n.log2 : Int) - 52 := by
    rw [floorLog2_one hn]
    omega
  have hsignificand :
      BinaryFormat.double.significand n 1 = (integerSignificand n, (n.log2 : Int) - 52) := by
    simp only [BinaryFormat.significand, BinaryFormat.double, hscale, integerSignificand,
      Nat.one_mul]
    rw [show (-((n.log2 : Int) - 52)).toNat = 52 - n.log2 by omega,
      show ((n.log2 : Int) - 52).toNat = n.log2 - 52 by omega]
  have hbounds := integerSignificand_bounds hn
  have hexponent : ((n.log2 : Int) - 52 + 1074).toNat = n.log2 + 1022 := by omega
  rw [ofRatio, if_neg hn, hsignificand]
  simp only [hexponent]
  exact if_pos (by omega)

/-- The double nearest to an integer of 64 bits is finite. -/
theorem isFinite_ofInt (h : n.natAbs < 2 ^ 64) : (ofInt n).isFinite = true := by
  unfold ofInt
  by_cases hn : n.natAbs = 0
  · rw [ofRatio, if_pos hn]
    cases decide (n < 0) <;> decide
  · have hlog : n.natAbs.log2 < 64 := (Nat.log2_lt hn).mpr h
    have hbounds := integerSignificand_bounds hn
    rw [ofRatio_one hn h, isFinite, exponentField_ofFields (by omega), bne_iff_ne]
    omega

/-- An integer up to `2 ^ 53` has a significand without rounding. -/
theorem integerSignificand_exact {n : Nat} (hn : n ≠ 0) (hle : n ≤ 2 ^ 53) :
    integerSignificand n * 2 ^ (n.log2 + 1022) = n * unitsPerOne := by
  rcases Nat.lt_or_eq_of_le hle with hlt | rfl
  · have hlog : n.log2 ≤ 52 := Nat.le_of_lt_succ ((Nat.log2_lt hn).mpr hlt)
    have hone : integerSignificand n = n * 2 ^ (52 - n.log2) := by
      rw [integerSignificand, Nat.sub_eq_zero_of_le hlog, Nat.pow_zero]
      simp [divNearest, Nat.mod_one]
    have hexponent : 52 - n.log2 + (n.log2 + 1022) = 1074 := by omega
    rw [hone, Nat.mul_assoc, ← Nat.pow_add, hexponent, unitsPerOne]
  · have hsignificand : integerSignificand (2 ^ 53) = 2 ^ 52 := by
      rw [integerSignificand, Nat.log2_two_pow]
      decide
    rw [hsignificand, Nat.log2_two_pow, unitsPerOne, ← Nat.pow_add, ← Nat.pow_add]

/-- An integer up to `2 ^ 53` is a double. -/
theorem scaled_ofInt (h : n.natAbs ≤ 2 ^ 53) : (ofInt n).scaled = n * unitsPerOne := by
  unfold ofInt
  by_cases hn : n.natAbs = 0
  · obtain rfl := Int.natAbs_eq_zero.mp hn
    rw [Int.zero_mul]
    decide
  · have hlt : n.natAbs < 2 ^ 64 := by omega
    have hlog : n.natAbs.log2 < 64 := (Nat.log2_lt hn).mpr hlt
    have hbounds := integerSignificand_bounds hn
    rw [ofRatio_one hn hlt, scaled, negative_ofFields (by omega),
      units_ofFields hbounds.2 (.inl hbounds.1) (by omega), integerSignificand_exact hn h,
      Nat.cast_mul]
    by_cases hneg : n < 0
    · rw [if_pos (by simpa using hneg), ← Int.neg_mul, Int.ofNat_natAbs_of_nonpos hneg.le,
        Int.neg_neg]
    · rw [if_neg (by simpa using hneg), Int.natAbs_of_nonneg (not_lt.mp hneg)]

end Double

namespace Integer

/-- An integer that fits is the double that it is converted to. -/
theorem scaled_toDouble {i : Int64} (h : fitsDouble i = true) :
    (toDouble i).isFinite = true ∧ (toDouble i).scaled = i.toInt * Double.unitsPerOne := by
  have hle : i.toInt.natAbs ≤ 2 ^ 53 := by simpa [fitsDouble] using h
  exact ⟨Double.isFinite_ofInt (by omega), Double.scaled_ofInt hle⟩

end Integer

end LuaData
