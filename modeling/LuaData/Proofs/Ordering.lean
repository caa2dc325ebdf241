import Mathlib.Algebra.Order.Ring.Rat
import Mathlib.Data.Rat.Floor
import Mathlib.Order.WithBot
import Mathlib.Tactic.FieldSimp
import LuaData.Proofs.Doubles
import LuaData.Value.Basic

/-!
# The order of numbers

An integer has its value, and a double that is not a NaN has the rational that its fields spell out
or an infinity (`Number.value?`). The comparisons of the two kinds round neither operand:
`Number.order_is_exact` says that they are the comparisons of the values, with what follows for the
order and for its relation to equality, and that a double is made an integer by its exact value, its
floor or its ceiling.
-/

namespace LuaData

/-- The rationals with an infinity at each end. -/
abbrev ExtendedRat := WithBot (WithTop ℚ)

/-- A rational. -/
def ExtendedRat.ofRat (q : ℚ) : ExtendedRat := ((q : WithTop ℚ) : WithBot (WithTop ℚ))

namespace Double

variable {x y : Double}

/-- The magnitude of a finite double: the fraction, with a leading bit unless the exponent field is
zero, times a power of two. -/
def magnitude (x : Double) : ℚ :=
  if x.exponentField = 0 then x.fractionField * 2 ^ (-1074 : ℤ)
  else (2 ^ 52 + x.fractionField) * 2 ^ ((x.exponentField : ℤ) - 1075)

/-- The value of a finite double. -/
def toRat (x : Double) : ℚ :=
  if x.negative then -x.magnitude else x.magnitude

/-- The value of a double that is not a NaN. -/
def value? (x : Double) : Option ExtendedRat :=
  if x.isNaN then none
  else if x.isInfinite then some (if x.negative then ⊥ else ⊤)
  else some (.ofRat x.toRat)

/-- The magnitude is the number of units. -/
theorem magnitude_mul_unitsPerOne (x : Double) : x.magnitude * unitsPerOne = x.units := by
  have hone : (unitsPerOne : ℚ) = 2 ^ (1074 : ℤ) := by
    rw [unitsPerOne, Nat.cast_pow, Nat.cast_ofNat, ← zpow_natCast]
    rfl
  unfold magnitude units
  split
  · rw [mul_assoc, hone, ← zpow_add₀ two_ne_zero, Int.add_left_neg, zpow_zero, mul_one]
  · rename_i hexponent
    have hpow : ((x.exponentField : ℤ) - 1075) + 1074 = ((x.exponentField - 1 : ℕ) : ℤ) := by omega
    rw [mul_assoc, hone, ← zpow_add₀ two_ne_zero, hpow, zpow_natCast]
    push_cast
    rfl

/-- The value is the number of units. -/
theorem toRat_mul_unitsPerOne (x : Double) : x.toRat * unitsPerOne = x.scaled := by
  unfold toRat scaled
  split
  · rw [neg_mul, magnitude_mul_unitsPerOne]
    push_cast
    rfl
  · rw [magnitude_mul_unitsPerOne]
    rfl

/-- A finite double is the rational with its number of units. -/
theorem value?_of_isFinite (h : x.isFinite = true) : x.value? = some (.ofRat x.toRat) := by
  obtain ⟨hnan, hinfinite⟩ := isFinite_iff.mp h
  simp [value?, hnan, hinfinite]

/-- Only finite doubles are rationals. -/
theorem value?_eq_ofRat_iff {q : ℚ} :
    x.value? = some (.ofRat q) ↔ x.isFinite = true ∧ x.toRat = q := by
  by_cases hfinite : x.isFinite = true
  · rw [value?_of_isFinite hfinite]
    simp [ExtendedRat.ofRat, hfinite]
  · refine ⟨fun h ↦ ?_, fun h ↦ absurd h.1 hfinite⟩
    unfold value? at h
    split at h
    · cases h
    · rename_i hnan
      have hinfinite : x.isInfinite = true := by
        by_contra hinfinite
        exact hfinite (isFinite_iff.mpr ⟨by simpa using hnan, by simpa using hinfinite⟩)
      rw [if_pos hinfinite] at h
      cases hneg : x.negative <;> simp [hneg, ExtendedRat.ofRat] at h

/-- A double has the value of an integer if it has its units. -/
theorem toRat_eq_intCast_iff {n : ℤ} : x.toRat = n ↔ x.scaled = n * unitsPerOne := by
  have hone : (unitsPerOne : ℚ) ≠ 0 := by exact_mod_cast unitsPerOne_pos.ne'
  rw [← @Int.cast_inj ℚ, ← toRat_mul_unitsPerOne, Int.cast_mul, Int.cast_natCast,
    mul_left_inj' hone]

/-- The floor of a double is that of its value. -/
theorem floor_toRat (x : Double) : ⌊x.toRat⌋ = x.floorInt := by
  have hone : (0 : ℚ) < unitsPerOne := by exact_mod_cast unitsPerOne_pos
  refine le_antisymm ?_ ?_
  · rw [le_floorInt_iff, ← @Int.cast_le ℚ, Int.cast_mul, ← toRat_mul_unitsPerOne]
    exact mul_le_mul_of_nonneg_right (Int.floor_le _) hone.le
  · rw [Int.le_floor, ← mul_le_mul_iff_of_pos_right hone, toRat_mul_unitsPerOne]
    exact_mod_cast le_floorInt_iff.mp (le_refl x.floorInt)

/-- The ceiling of a double is that of its value. -/
theorem ceil_toRat (x : Double) : ⌈x.toRat⌉ = x.ceilingInt := by
  have hone : (0 : ℚ) < unitsPerOne := by exact_mod_cast unitsPerOne_pos
  refine le_antisymm ?_ ?_
  · rw [Int.ceil_le, ← mul_le_mul_iff_of_pos_right hone, toRat_mul_unitsPerOne]
    exact_mod_cast ceilingInt_le_iff.mp (le_refl x.ceilingInt)
  · rw [ceilingInt_le_iff, ← @Int.cast_le ℚ, Int.cast_mul, ← toRat_mul_unitsPerOne]
    exact mul_le_mul_of_nonneg_right (Int.le_ceil _) hone.le

end Double

namespace Number

variable {a b c : Number} {p q : ExtendedRat}

/-- The number is a NaN. -/
def isNaN : Number → Bool
  | .int _ => false
  | .float x => x.isNaN

/-- The value of a number that is not a NaN. -/
def value? : Number → Option ExtendedRat
  | .int i => some (.ofRat i.toInt)
  | .float x => x.value?

/-- The value in units of the doubles. -/
def scaled : Number → Int
  | .int i => i.toInt * Double.unitsPerOne
  | .float x => x.scaled

/-! ## The values -/

/-- A number without a value is a NaN. -/
theorem value?_eq_none_iff : a.value? = none ↔ a.isNaN = true := by
  cases a with
  | int i => simp [value?, isNaN]
  | float x =>
    simp only [value?, isNaN, Double.value?]
    split
    · simp_all
    · split <;> simp_all

/-- The values and the numbers of units: an infinity is the power of two beyond all others. -/
theorem value?_cases (h : a.value? = some p) :
    (p = ⊥ ∧ a.scaled = -((2 ^ 2098 : Nat) : Int)) ∨ (p = ⊤ ∧ a.scaled = (2 ^ 2098 : Nat)) ∨
      ∃ q : ℚ, p = .ofRat q ∧ a.scaled = q * Double.unitsPerOne ∧ a.scaled.natAbs < 2 ^ 2098 := by
  cases a with
  | int i =>
    cases h
    refine .inr (.inr ⟨i.toInt, rfl, ?_, Double.natAbs_integer_lt i⟩)
    simp only [scaled, Int.cast_mul, Int.cast_natCast]
  | float x =>
    have hvalue : x.value? = some p := h
    by_cases hfinite : x.isFinite = true
    · rw [Double.value?_of_isFinite hfinite] at hvalue
      obtain rfl := Option.some.inj hvalue
      refine .inr (.inr ⟨x.toRat, rfl, x.toRat_mul_unitsPerOne.symm, ?_⟩)
      show x.scaled.natAbs < _
      rw [Double.natAbs_scaled]
      exact Double.units_lt_of_isFinite hfinite
    · have hnan : x.isNaN = false := by
        by_contra hnan
        simp [Double.value?, hnan] at hvalue
      have hinfinite : x.isInfinite = true := by
        by_contra hinfinite
        exact hfinite (Double.isFinite_iff.mpr ⟨hnan, by simpa using hinfinite⟩)
      simp only [Double.value?, hnan, hinfinite, Bool.false_eq_true, if_false, if_true,
        Option.some.injEq] at hvalue
      subst hvalue
      simp only [scaled, Double.scaled, Double.units_of_isInfinite hinfinite]
      cases x.negative with
      | true => exact .inl ⟨rfl, rfl⟩
      | false => exact .inr (.inl ⟨rfl, rfl⟩)

/-- The order of the values is the order of the units. -/
theorem value_lt_iff (ha : a.value? = some p) (hb : b.value? = some q) :
    p < q ↔ a.scaled < b.scaled := by
  have hone : (0 : ℚ) < Double.unitsPerOne := by exact_mod_cast Double.unitsPerOne_pos
  rcases value?_cases ha with ⟨rfl, hp⟩ | ⟨rfl, hp⟩ | ⟨r, rfl, hp, hpr⟩ <;>
    rcases value?_cases hb with ⟨rfl, hq⟩ | ⟨rfl, hq⟩ | ⟨s, rfl, hq, hqs⟩
  · exact iff_of_false (lt_irrefl _) (by rw [hp, hq]; exact lt_irrefl _)
  · rw [hp, hq]
    refine iff_of_true (WithBot.bot_lt_coe _) ?_
    have := Nat.two_pow_pos 2098
    omega
  · refine iff_of_true (WithBot.bot_lt_coe _) ?_
    omega
  · refine iff_of_false not_lt_bot ?_
    have := Nat.two_pow_pos 2098
    omega
  · exact iff_of_false (lt_irrefl _) (by rw [hp, hq]; exact lt_irrefl _)
  · refine iff_of_false not_top_lt ?_
    omega
  · refine iff_of_false not_lt_bot ?_
    omega
  · refine iff_of_true ?_ (by omega)
    exact WithBot.coe_lt_coe.mpr (WithTop.coe_lt_top r)
  · rw [ExtendedRat.ofRat, ExtendedRat.ofRat, WithBot.coe_lt_coe, WithTop.coe_lt_coe,
      ← @Int.cast_lt ℚ, hp, hq, mul_lt_mul_iff_of_pos_right hone]

/-- The order or equality of the values is that of the units. -/
theorem value_le_iff (ha : a.value? = some p) (hb : b.value? = some q) :
    p ≤ q ↔ a.scaled ≤ b.scaled := by
  rw [← not_lt, value_lt_iff hb ha, not_lt]

/-- The equality of the values is that of the units. -/
theorem value_eq_iff (ha : a.value? = some p) (hb : b.value? = some q) :
    p = q ↔ a.scaled = b.scaled := by
  rw [le_antisymm_iff, value_le_iff ha hb, value_le_iff hb ha, ← le_antisymm_iff]

/-! ## The comparisons -/

/-- An integer that fits is compared as a double. -/
theorem isNaN_toDouble {i : Int64} (h : Integer.fitsDouble i = true) :
    (Integer.toDouble i).isNaN = false :=
  (Double.isFinite_iff.mp (Integer.scaled_toDouble h).1).1

/-- A double is above zero. -/
theorem zero_lt_iff (y : Double) :
    (Double.zero false).lt y = true ↔ y.isNaN = false ∧ 0 < y.scaled := by
  have hzero : (Double.zero false).isNaN = false ∧ (Double.zero false).scaled = 0 := by decide
  simp [Double.lt, hzero]

/-- A double is below zero. -/
theorem lt_zero_iff (x : Double) :
    x.lt (Double.zero false) = true ↔ x.isNaN = false ∧ x.scaled < 0 := by
  have hzero : (Double.zero false).isNaN = false ∧ (Double.zero false).scaled = 0 := by decide
  simp [Double.lt, hzero]

/-- An integer is below a double if it is below its ceiling. -/
theorem ltDouble_iff (i : Int64) (y : Double) :
    Integer.ltDouble i y = true ↔ y.isNaN = false ∧ i.toInt * Double.unitsPerOne < y.scaled := by
  unfold Integer.ltDouble
  split
  · rename_i hfits
    simp only [Double.lt, isNaN_toDouble hfits, (Integer.scaled_toDouble hfits).2, Bool.not_false,
      Bool.true_and, Bool.and_eq_true, Bool.not_eq_true', decide_eq_true_eq]
  · cases hceiling : y.toInt64? .ceiling with
    | some n =>
      obtain ⟨hfinite, hn⟩ := Double.ceiling_eq_some_iff.mp hceiling
      rw [decide_eq_true_iff, Int64.lt_iff_toInt_lt, ← hn, ← not_le, Double.ceilingInt_le_iff,
        not_le]
      simp only [(Double.isFinite_iff.mp hfinite).1, true_and]
    | none =>
      rw [zero_lt_iff]
      refine and_congr_right fun hnan ↦ ?_
      have hsign := (Double.beyond_of_toInt64?_none hnan hceiling nofun).sign i
      omega

/-- An integer is at most a double if it is at most its floor. -/
theorem leDouble_iff (i : Int64) (y : Double) :
    Integer.leDouble i y = true ↔ y.isNaN = false ∧ i.toInt * Double.unitsPerOne ≤ y.scaled := by
  unfold Integer.leDouble
  split
  · rename_i hfits
    simp only [Double.le, isNaN_toDouble hfits, (Integer.scaled_toDouble hfits).2, Bool.not_false,
      Bool.true_and, Bool.and_eq_true, Bool.not_eq_true', decide_eq_true_eq]
  · cases hfloor : y.toInt64? .floor with
    | some n =>
      obtain ⟨hfinite, hn⟩ := Double.floor_eq_some_iff.mp hfloor
      rw [decide_eq_true_iff, Int64.le_iff_toInt_le, ← hn, Double.le_floorInt_iff]
      simp only [(Double.isFinite_iff.mp hfinite).1, true_and]
    | none =>
      rw [zero_lt_iff]
      refine and_congr_right fun hnan ↦ ?_
      have hsign := (Double.beyond_of_toInt64?_none hnan hfloor nofun).sign i
      omega

/-- A double is below an integer if its floor is. -/
theorem ltInteger_iff (x : Double) (i : Int64) :
    x.ltInteger i = true ↔ x.isNaN = false ∧ x.scaled < i.toInt * Double.unitsPerOne := by
  unfold Double.ltInteger
  split
  · rename_i hfits
    simp only [Double.lt, isNaN_toDouble hfits, (Integer.scaled_toDouble hfits).2, Bool.not_false,
      Bool.and_true, Bool.and_eq_true, Bool.not_eq_true', decide_eq_true_eq]
  · cases hfloor : x.toInt64? .floor with
    | some n =>
      obtain ⟨hfinite, hn⟩ := Double.floor_eq_some_iff.mp hfloor
      rw [decide_eq_true_iff, Int64.lt_iff_toInt_lt, ← hn, ← not_le, Double.le_floorInt_iff, not_le]
      simp only [(Double.isFinite_iff.mp hfinite).1, true_and]
    | none =>
      rw [lt_zero_iff]
      refine and_congr_right fun hnan ↦ ?_
      have hsign := (Double.beyond_of_toInt64?_none hnan hfloor nofun).sign i
      omega

/-- A double is at most an integer if its ceiling is. -/
theorem leInteger_iff (x : Double) (i : Int64) :
    x.leInteger i = true ↔ x.isNaN = false ∧ x.scaled ≤ i.toInt * Double.unitsPerOne := by
  unfold Double.leInteger
  split
  · rename_i hfits
    simp only [Double.le, isNaN_toDouble hfits, (Integer.scaled_toDouble hfits).2, Bool.not_false,
      Bool.and_true, Bool.and_eq_true, Bool.not_eq_true', decide_eq_true_eq]
  · cases hceiling : x.toInt64? .ceiling with
    | some n =>
      obtain ⟨hfinite, hn⟩ := Double.ceiling_eq_some_iff.mp hceiling
      rw [decide_eq_true_iff, Int64.le_iff_toInt_le, ← hn, Double.ceilingInt_le_iff]
      simp only [(Double.isFinite_iff.mp hfinite).1, true_and]
    | none =>
      rw [lt_zero_iff]
      refine and_congr_right fun hnan ↦ ?_
      have hsign := (Double.beyond_of_toInt64?_none hnan hceiling nofun).sign i
      omega

/-- Numbers are ordered by their units. -/
theorem lt_iff_scaled :
    a.lt b = true ↔ a.isNaN = false ∧ b.isNaN = false ∧ a.scaled < b.scaled := by
  have hpos := Double.unitsPerOne_pos
  cases a with
  | int i =>
    cases b with
    | int j =>
      simp only [Number.lt, isNaN, scaled, Int64.lt_iff_toInt_lt, Int.mul_lt_mul_right hpos,
        decide_eq_true_eq, true_and]
    | float y => simp only [Number.lt, isNaN, scaled, ltDouble_iff, true_and]
  | float x =>
    cases b with
    | int j => simp only [Number.lt, isNaN, scaled, ltInteger_iff, true_and]
    | float y => simp [Number.lt, isNaN, scaled, Double.lt, and_assoc]

/-- Numbers are ordered or equal as their units are. -/
theorem le_iff_scaled :
    a.le b = true ↔ a.isNaN = false ∧ b.isNaN = false ∧ a.scaled ≤ b.scaled := by
  have hpos := Double.unitsPerOne_pos
  cases a with
  | int i =>
    cases b with
    | int j =>
      simp only [Number.le, isNaN, scaled, Int64.le_iff_toInt_le, Int.mul_le_mul_right hpos,
        decide_eq_true_eq, true_and]
    | float y => simp only [Number.le, isNaN, scaled, leDouble_iff, true_and]
  | float x =>
    cases b with
    | int j => simp only [Number.le, isNaN, scaled, leInteger_iff, true_and]
    | float y => simp [Number.le, isNaN, scaled, Double.le, and_assoc]

/-- A double equals an integer if it has its units. -/
theorem eqInteger_iff (x : Double) (i : Int64) :
    x.eqInteger i = true ↔ x.isNaN = false ∧ x.scaled = i.toInt * Double.unitsPerOne := by
  rw [Double.eqInteger, beq_iff_eq, Double.integer?_eq_some_iff]
  constructor
  · rintro ⟨hfinite, hscaled⟩
    exact ⟨(Double.isFinite_iff.mp hfinite).1, hscaled⟩
  · rintro ⟨hnan, hscaled⟩
    refine ⟨Double.isFinite_iff.mpr ⟨hnan, ?_⟩, hscaled⟩
    by_contra hinfinite
    have hunits := Double.units_of_isInfinite (by simpa using hinfinite)
    rw [← Double.natAbs_scaled, hscaled] at hunits
    exact (Double.natAbs_integer_lt i).ne hunits

/-- Numbers are equal if their units are. -/
theorem eq_iff_scaled :
    a.eq b = true ↔ a.isNaN = false ∧ b.isNaN = false ∧ a.scaled = b.scaled := by
  have hpos := Double.unitsPerOne_pos
  cases a with
  | int i =>
    cases b with
    | int j =>
      simp only [Number.eq, isNaN, scaled, beq_iff_eq, true_and]
      rw [Int.mul_eq_mul_right_iff hpos.ne', Int64.toInt_inj]
    | float y =>
      simp only [Number.eq, isNaN, scaled, eqInteger_iff, true_and]
      rw [eq_comm (a := y.scaled)]
  | float x =>
    cases b with
    | int j => simp only [Number.eq, isNaN, scaled, eqInteger_iff, true_and]
    | float y => simp [Number.eq, isNaN, scaled, Double.eq, and_assoc]

/-- A relation of the units is one of the values. -/
theorem exists_values_iff {r : Int → Int → Prop} {r' : ExtendedRat → ExtendedRat → Prop}
    (h : ∀ {p q}, a.value? = some p → b.value? = some q → (r' p q ↔ r a.scaled b.scaled)) :
    (a.isNaN = false ∧ b.isNaN = false ∧ r a.scaled b.scaled) ↔
      ∃ p q, a.value? = some p ∧ b.value? = some q ∧ r' p q := by
  constructor
  · rintro ⟨ha, hb, hr⟩
    cases hp : a.value? with
    | none => simp [value?_eq_none_iff.mp hp] at ha
    | some p =>
      cases hq : b.value? with
      | none => simp [value?_eq_none_iff.mp hq] at hb
      | some q => exact ⟨p, q, rfl, rfl, (h hp hq).mpr hr⟩
  · rintro ⟨p, q, hp, hq, hr⟩
    refine ⟨?_, ?_, (h hp hq).mp hr⟩
    · by_contra hnan
      simp [value?_eq_none_iff.mpr (by simpa using hnan)] at hp
    · by_contra hnan
      simp [value?_eq_none_iff.mpr (by simpa using hnan)] at hq

/-- What the comparisons of numbers and the conversions of doubles to integers come to. -/
structure ExactOrder : Prop where
  /-- The order is that of the values, and a NaN, which has none, is in no order. -/
  lt_iff : ∀ a b : Number, a.lt b = true ↔ ∃ p q, a.value? = some p ∧ b.value? = some q ∧ p < q
  le_iff : ∀ a b : Number, a.le b = true ↔ ∃ p q, a.value? = some p ∧ b.value? = some q ∧ p ≤ q
  eq_iff : ∀ a b : Number, (Value.num a).rawEq (.num b) = true ↔
    ∃ p, a.value? = some p ∧ b.value? = some p
  nan : ∀ a b : Number, a.isNaN = true ∨ b.isNaN = true → a.lt b = false ∧ a.le b = false
  /-- The order is a strict weak order. -/
  irrefl : ∀ a : Number, a.lt a = false
  trans : ∀ a b c : Number, a.lt b = true → b.lt c = true → a.lt c = true
  incomparable_trans : ∀ a b c : Number, a.isNaN = false → b.isNaN = false → c.isNaN = false →
    a.lt b = false → b.lt a = false → b.lt c = false → c.lt b = false →
    a.lt c = false ∧ c.lt a = false
  /-- Of two numbers one is below the other or they are equal, and only one of the three holds. -/
  trichotomy : ∀ a b : Number, a.isNaN = false → b.isNaN = false →
    (a.lt b, (Value.num a).rawEq (.num b), b.lt a) ∈
      [(true, false, false), (false, true, false), (false, false, true)]
  le_iff_lt_or_eq : ∀ a b : Number,
    a.le b = true ↔ a.lt b = true ∨ (Value.num a).rawEq (.num b) = true
  /-- An integer of a double is its exact value, its floor or its ceiling. There is none where that
  is no 64-bit integer. -/
  exact : ∀ (x : Double) (i : Int64),
    x.toInt64? .exact = some i ↔ x.value? = some (.ofRat i.toInt)
  floor : ∀ (x : Double) (i : Int64),
    x.toInt64? .floor = some i ↔ ∃ q : ℚ, x.value? = some (.ofRat q) ∧ ⌊q⌋ = i.toInt
  ceiling : ∀ (x : Double) (i : Int64),
    x.toInt64? .ceiling = some i ↔ ∃ q : ℚ, x.value? = some (.ofRat q) ∧ ⌈q⌉ = i.toInt

/-- Numbers are ordered by their exact values. -/
theorem order_is_exact : ExactOrder where
  lt_iff a b := lt_iff_scaled.trans (exists_values_iff value_lt_iff)
  le_iff a b := le_iff_scaled.trans (exists_values_iff value_le_iff)
  eq_iff a b := by
    refine (eq_iff_scaled.trans (exists_values_iff value_eq_iff)).trans ?_
    constructor
    · rintro ⟨p, q, hp, hq, rfl⟩
      exact ⟨p, hp, hq⟩
    · rintro ⟨p, hp, hq⟩
      exact ⟨p, p, hp, hq, rfl⟩
  nan a b h := by
    constructor
    · rw [← Bool.not_eq_true, lt_iff_scaled]
      rintro ⟨ha, hb, -⟩
      simp [ha, hb] at h
    · rw [← Bool.not_eq_true, le_iff_scaled]
      rintro ⟨ha, hb, -⟩
      simp [ha, hb] at h
  irrefl a := by
    rw [← Bool.not_eq_true, lt_iff_scaled]
    exact fun h ↦ lt_irrefl _ h.2.2
  trans a b c hab hbc := by
    rw [lt_iff_scaled] at hab hbc ⊢
    exact ⟨hab.1, hbc.2.1, hab.2.2.trans hbc.2.2⟩
  incomparable_trans a b c ha hb hc := by
    simp only [← Bool.not_eq_true, lt_iff_scaled, ha, hb, hc, true_and]
    omega
  trichotomy a b ha hb := by
    have hlt : a.lt b = decide (a.scaled < b.scaled) := by
      rw [Bool.eq_iff_iff, lt_iff_scaled, decide_eq_true_iff]
      simp [ha, hb]
    have hgt : b.lt a = decide (b.scaled < a.scaled) := by
      rw [Bool.eq_iff_iff, lt_iff_scaled, decide_eq_true_iff]
      simp [ha, hb]
    have heq : (Value.num a).rawEq (.num b) = decide (a.scaled = b.scaled) := by
      rw [Bool.eq_iff_iff, decide_eq_true_iff]
      exact eq_iff_scaled.trans (by simp [ha, hb])
    rw [hlt, hgt, heq]
    rcases Int.lt_trichotomy a.scaled b.scaled with h | h | h
    · simp [h, h.ne, h.le]
    · simp [h]
    · simp [h, h.ne', h.le]
  le_iff_lt_or_eq a b := by
    have heq : (Value.num a).rawEq (.num b) = true ↔ _ := eq_iff_scaled
    rw [heq, le_iff_scaled, lt_iff_scaled, le_iff_lt_or_eq]
    tauto
  exact x i := by
    rw [Double.value?_eq_ofRat_iff, Double.toRat_eq_intCast_iff]
    exact Double.integer?_eq_some_iff
  floor x i := by
    simp only [Double.floor_eq_some_iff, Double.value?_eq_ofRat_iff, and_assoc, exists_and_left,
      exists_eq_left', Double.floor_toRat]
  ceiling x i := by
    simp only [Double.ceiling_eq_some_iff, Double.value?_eq_ofRat_iff, and_assoc, exists_and_left,
      exists_eq_left', Double.ceil_toRat]

end Number

end LuaData
