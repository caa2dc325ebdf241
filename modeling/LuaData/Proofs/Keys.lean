import Mathlib.Tactic.Linarith
import Mathlib.Tactic.Ring
import LuaData.Table.Handle

/-!
# Keys

Two values address the same entry of a table when they are equal without metamethods. Stored keys,
those that `Value.key?` gives back, are compared by `Value.content`, which forgets the cell of a
string: `rawEq_iff_content_eq` says that the two agree. `rawEq_hashWith` says that equal values have
equal hashes, whatever the hash of byte strings and of cells is, so that a key is always looked for
in the bucket that it was put into.
-/

namespace LuaData

namespace Double

/-- A word is its sign, its exponent and its fraction. -/
theorem bits_eq_fields (x : Double) :
    x.bits.toNat =
      (if x.negative then 2 ^ 63 else 0) + x.exponentField * 2 ^ 52 + x.fractionField := by
  have hlt := x.bits.toNat_lt
  simp only [negative, exponentField, fractionField, decide_eq_true_eq]
  split <;> omega

/-- Doubles with the same sign, exponent and fraction are the same. -/
theorem ext_fields {x y : Double} (hsign : x.negative = y.negative)
    (hexponent : x.exponentField = y.exponentField)
    (hfraction : x.fractionField = y.fractionField) : x = y := by
  have hbits : x.bits.toNat = y.bits.toNat := by
    rw [x.bits_eq_fields, y.bits_eq_fields, hsign, hexponent, hfraction]
  cases x
  cases y
  exact congrArg Double.mk (UInt64.toNat_inj.mp hbits)

/-- The fraction has 52 bits. -/
theorem fractionField_lt (x : Double) : x.fractionField < 2 ^ 52 :=
  Nat.mod_lt _ (by decide)

/-- A larger exponent means more units. -/
theorem units_lt_of_exponentField_lt {x y : Double} (h : x.exponentField < y.exponentField) :
    x.units < y.units := by
  have hx := x.fractionField_lt
  have hy : y.exponentField ≠ 0 := by omega
  simp only [units, hy, if_false]
  have hone : 1 ≤ 2 ^ (y.exponentField - 1) := Nat.one_le_two_pow
  split
  · nlinarith
  · rename_i hpos
    have hpow : 2 ^ (y.exponentField - 1) =
        2 ^ (x.exponentField - 1) * 2 * 2 ^ (y.exponentField - 1 - x.exponentField) := by
      rw [← Nat.pow_succ, ← Nat.pow_add]
      congr 1
      omega
    have hrest : 1 ≤ 2 ^ (y.exponentField - 1 - x.exponentField) := Nat.one_le_two_pow
    calc (2 ^ 52 + x.fractionField) * 2 ^ (x.exponentField - 1)
        < 2 ^ 53 * 2 ^ (x.exponentField - 1) :=
          Nat.mul_lt_mul_of_pos_right (by omega) (Nat.two_pow_pos _)
      _ = 2 ^ 52 * (2 ^ (x.exponentField - 1) * 2 * 1) := by ring
      _ ≤ 2 ^ 52 * 2 ^ (y.exponentField - 1) := by
          rw [hpow]
          exact Nat.mul_le_mul_left _ (Nat.mul_le_mul_left _ hrest)
      _ ≤ (2 ^ 52 + y.fractionField) * 2 ^ (y.exponentField - 1) :=
          Nat.mul_le_mul_right _ (Nat.le_add_right _ _)

/-- The magnitude determines the exponent and the fraction. -/
theorem fields_eq_of_units_eq {x y : Double} (h : x.units = y.units) :
    x.exponentField = y.exponentField ∧ x.fractionField = y.fractionField := by
  have hexponent : x.exponentField = y.exponentField := by
    rcases Nat.lt_trichotomy x.exponentField y.exponentField with hlt | heq | hgt
    · exact absurd h (units_lt_of_exponentField_lt hlt).ne
    · exact heq
    · exact absurd h (units_lt_of_exponentField_lt hgt).ne'
  refine ⟨hexponent, ?_⟩
  simp only [units, hexponent] at h
  split at h
  · exact h
  · have := Nat.eq_of_mul_eq_mul_right (Nat.two_pow_pos _) h
    omega

/-- Numerically equal doubles have the same magnitude, and the same sign unless they are zeros. -/
theorem eq_iff {x y : Double} :
    x.eq y = true ↔
      x.isNaN = false ∧ y.isNaN = false ∧ x.units = y.units ∧
        (x.negative = y.negative ∨ x.units = 0) := by
  simp only [eq, Bool.and_eq_true, Bool.not_eq_true', and_assoc, decide_eq_true_iff]
  refine and_congr_right fun _ ↦ and_congr_right fun _ ↦ ?_
  unfold scaled
  cases x.negative <;> cases y.negative <;> simp <;> omega

/-- A zero has an integer. -/
theorem integer?_of_units_eq_zero {x : Double} (h : x.units = 0) : x.integer? = some 0 := by
  have hzero : x.units = (zero false).units := h.trans (by decide)
  obtain ⟨hexponent, -⟩ := fields_eq_of_units_eq hzero
  have hfinite : x.isFinite = true := by
    rw [isFinite, hexponent.trans (by decide : (zero false).exponentField = 0)]
    rfl
  have hintegral : x.isIntegral = true := by
    rw [isIntegral, hfinite, h, Nat.zero_mod]
    rfl
  have hfloor : x.floorInt = 0 := by
    have hscaled : x.scaled = 0 := by simp [scaled, h]
    rw [floorInt, hscaled, Int.zero_ediv]
  show x.toInt64? .exact = some 0
  unfold toInt64?
  simp only [hfinite, hintegral, hfloor, Bool.not_true, Bool.false_eq_true, if_false, if_true]
  decide

/-- Numerically equal doubles are the same word or both have the integer zero. -/
theorem eq_or_integer?_of_eq {x y : Double} (h : x.eq y = true) :
    x = y ∨ x.integer? = some 0 ∧ y.integer? = some 0 := by
  obtain ⟨-, -, hunits, hsign | hzero⟩ := eq_iff.mp h
  · obtain ⟨hexponent, hfraction⟩ := fields_eq_of_units_eq hunits
    exact .inl (ext_fields hsign hexponent hfraction)
  · exact .inr ⟨integer?_of_units_eq_zero hzero, integer?_of_units_eq_zero (hunits ▸ hzero)⟩

end Double

namespace Value

/-- A value without the cell that its bytes are in. -/
def content : Value → Value
  | .str s => .str ⟨s.bytes, 0⟩
  | v => v

/-- The key is in the form in which tables store it. -/
def Stored (key : Value) : Prop :=
  key.key? = some key

/-- Stored keys are decidable. -/
instance (key : Value) : Decidable key.Stored :=
  inferInstanceAs (Decidable (_ = _))

/-- The stored form of a value is a stored key. -/
theorem stored_of_key? {v key : Value} (h : v.key? = some key) : key.Stored := by
  unfold key? at h
  split at h
  · cases h
  · split at h
    · cases h
    · split at h
      · cases h
        rfl
      · rename_i hnan _ hint
        cases h
        simp [Stored, key?, hnan, hint]
  · rename_i hfloat
    cases h
    unfold Stored key?
    split <;> simp_all

/-- A stored float is not a NaN and has no integer. -/
theorem Stored.float {x : Double} (h : Stored (.float x)) :
    x.isNaN = false ∧ x.integer? = none := by
  simp only [Stored, key?] at h
  split at h
  · cases h
  · rename_i hnan
    split at h
    · cases h
    · rename_i hint
      exact ⟨by simpa using hnan, hint⟩

/-- Nil is no key. -/
theorem Stored.ne_nil {key : Value} (h : key.Stored) : key ≠ .nil := by
  rintro rfl
  cases h

/-- Integers are stored as they are. -/
theorem stored_int (i : Int64) : Stored (.int i) := rfl

/-- The content of an integer is that integer. -/
theorem content_eq_int {v : Value} {i : Int64} (h : v.content = .int i) : v = .int i := by
  cases v <;> simp_all [content]

/-- What has the content of a string is a string of the same bytes. -/
theorem content_eq_str {v : Value} {str : Str} (h : v.content = .str str) :
    ∃ q : Str, v = .str q ∧ q.bytes = str.bytes := by
  cases v with
  | str q =>
    refine ⟨q, rfl, ?_⟩
    rw [← Value.str.inj h]
  | _ => cases h

/-- Equality of stored keys is equality of their contents. -/
theorem rawEq_iff_content_eq {a b : Value} (ha : a.Stored) (hb : b.Stored) :
    a.rawEq b = true ↔ a.content = b.content := by
  cases a with
  | num m =>
    cases b with
    | num n =>
      cases m with
      | int i =>
        cases n with
        | int j => simp [rawEq, content, Number.eq]
        | float y => simp [rawEq, content, Number.eq, Double.eqInteger, hb.float.2]
      | float x =>
        cases n with
        | int j => simp [rawEq, content, Number.eq, Double.eqInteger, ha.float.2]
        | float y =>
          simp only [rawEq, content, Number.eq, num.injEq, Number.float.injEq]
          constructor
          · intro heq
            rcases Double.eq_or_integer?_of_eq heq with rfl | ⟨hint, -⟩
            · rfl
            · rw [ha.float.2] at hint
              cases hint
          · rintro rfl
            exact Double.eq_iff.mpr ⟨ha.float.1, ha.float.1, rfl, .inl rfl⟩
    | _ => simp [rawEq, content]
  | nil => exact absurd rfl ha.ne_nil
  | _ => cases b <;> simp [rawEq, content]

/-- A hash that gives equal values equal hashes. -/
def RespectsEq (hash : Value → UInt64) : Prop :=
  ∀ a b : Value, a.rawEq b = true → hash a = hash b

/-- Equal values have equal hashes. -/
theorem rawEq_hashWith (bytesHash : Bytes → UInt64) (cellHash : Ref → UInt64) :
    RespectsEq (hashWith bytesHash cellHash) := by
  intro a b h
  cases a with
  | num m =>
    cases b with
    | num n =>
      cases m with
      | int i =>
        cases n with
        | int j => simp_all [rawEq, Number.eq]
        | float y => simp_all [rawEq, Number.eq, Double.eqInteger, hashWith]
      | float x =>
        cases n with
        | int j => simp_all [rawEq, Number.eq, Double.eqInteger, hashWith]
        | float y =>
          rcases Double.eq_or_integer?_of_eq h with rfl | ⟨hx, hy⟩
          · rfl
          · simp [hashWith, hx, hy]
    | _ => simp [rawEq] at h
  | _ => cases b <;> simp_all [rawEq, hashWith]

/-- Whatever the hashes from outside are, equal values have equal hashes. -/
theorem rawEq_hash [Hashing] : RespectsEq hash :=
  rawEq_hashWith _ _

/-- Stored keys of the same content have the same hash. -/
theorem RespectsEq.of_content_eq {hash : Value → UInt64} (hhash : RespectsEq hash) {a b : Value}
    (ha : a.Stored) (hb : b.Stored) (h : a.content = b.content) : hash a = hash b :=
  hhash a b ((rawEq_iff_content_eq ha hb).mpr h)

end Value

end LuaData
