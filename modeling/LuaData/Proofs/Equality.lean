import LuaData.Proofs.Contents
import LuaData.Proofs.Ordering

/-!
# Equality of values

Two values are equal without metamethods when tables store them under the same key, nil apart, which
is no key and equals itself. `Value.equality_laws` puts together what follows: equality is symmetric
and transitive, only NaN differs from itself, the stored form of a value is equal to it and is its
own stored form, two values are equal exactly if their stored forms have the same content, and equal
values have equal hashes.
-/

namespace LuaData

/-- Numbers with the same units are equal to the same numbers. -/
theorem Number.eq_congr {a b : Number} (hnan : a.isNaN = b.isNaN) (hscaled : a.scaled = b.scaled)
    (c : Number) : a.eq c = b.eq c := by
  rw [Bool.eq_iff_iff, eq_iff_scaled, eq_iff_scaled, hnan, hscaled]

/-- Equality of numbers goes both ways. -/
theorem Number.eq_symm {a b : Number} (h : a.eq b = true) : b.eq a = true := by
  obtain ⟨ha, hb, hscaled⟩ := eq_iff_scaled.mp h
  exact eq_iff_scaled.mpr ⟨hb, ha, hscaled.symm⟩

/-- A double with an integer is no NaN. -/
theorem Double.isNaN_of_integer? {x : Double} {i : Int64} (h : x.integer? = some i) :
    x.isNaN = false :=
  (isFinite_iff.mp (integer?_eq_some_iff.mp h).1).1

namespace Value

variable {a b c k l : Value}

/-- Equality goes both ways. -/
theorem rawEq_symm (h : a.rawEq b = true) : b.rawEq a = true := by
  cases a with
  | num m =>
    cases b with
    | num n => exact Number.eq_symm h
    | _ => simp [rawEq] at h
  | _ => cases b <;> simp_all [rawEq]

/-- A float that has an integer is equal to the same values as that integer. -/
theorem rawEq_float {x : Double} {i : Int64} (h : x.integer? = some i) (b : Value) :
    (Value.float x).rawEq b = (Value.int i).rawEq b := by
  cases b with
  | num n =>
    obtain ⟨-, hscaled⟩ := Double.integer?_eq_some_iff.mp h
    exact Number.eq_congr (a := .float x) (b := .int i) (Double.isNaN_of_integer? h) hscaled n
  | _ => rfl

/-- A value is equal to the same values as its stored form. -/
theorem rawEq_of_key? (h : a.key? = some k) (b : Value) : a.rawEq b = k.rawEq b := by
  unfold key? at h
  split at h
  · cases h
  · split at h
    · cases h
    · split at h
      · rename_i hint
        cases h
        exact rawEq_float hint b
      · cases h
        rfl
  · cases h
    rfl

/-- Two keys are equal if their stored forms have the same content. -/
theorem rawEq_iff_of_key? (ha : a.key? = some k) (hb : b.key? = some l) :
    a.rawEq b = true ↔ k.content = l.content := by
  rw [← rawEq_iff_content_eq (stored_of_key? ha) (stored_of_key? hb), rawEq_of_key? ha]
  constructor
  · intro h
    have hsymm := rawEq_symm h
    rw [rawEq_of_key? hb] at hsymm
    exact rawEq_symm hsymm
  · intro h
    have hsymm := rawEq_symm h
    rw [← rawEq_of_key? hb] at hsymm
    exact rawEq_symm hsymm

/-- A NaN is equal to nothing. -/
theorem rawEq_nan {x : Double} (h : x.isNaN = true) (b : Value) :
    (Value.float x).rawEq b = false := by
  cases b with
  | num n =>
    rw [← Bool.not_eq_true]
    intro heq
    have hnan : x.isNaN = false := (Number.eq_iff_scaled.mp heq).1
    rw [h] at hnan
    cases hnan
  | _ => rfl

/-- Only nil is equal to nil. -/
theorem eq_nil_of_rawEq (h : Value.nil.rawEq b = true) : b = .nil := by
  cases b <;> simp_all [rawEq]

/-- A value that is no key is equal to itself if it is nil, and to nothing else. -/
theorem eq_nil_of_key?_none (ha : a.key? = none) (h : a.rawEq b = true) : a = .nil ∧ b = .nil := by
  rcases (key?_eq_none_iff a).mp ha with rfl | ⟨x, rfl, hnan⟩
  · exact ⟨rfl, eq_nil_of_rawEq h⟩
  · rw [rawEq_nan hnan] at h
    cases h

/-- Equal values are nil, or keys with stored forms of the same content. -/
theorem rawEq_cases (h : a.rawEq b = true) :
    (a = .nil ∧ b = .nil) ∨ ∃ k l, a.key? = some k ∧ b.key? = some l ∧ k.content = l.content := by
  cases ha : a.key? with
  | none => exact .inl (eq_nil_of_key?_none ha h)
  | some k =>
    cases hb : b.key? with
    | none => exact .inl (eq_nil_of_key?_none hb (rawEq_symm h)).symm
    | some l => exact .inr ⟨k, l, rfl, rfl, (rawEq_iff_of_key? ha hb).mp h⟩

/-- Equality goes on. -/
theorem rawEq_trans (hab : a.rawEq b = true) (hbc : b.rawEq c = true) : a.rawEq c = true := by
  rcases rawEq_cases hab with ⟨rfl, rfl⟩ | ⟨k, l, ha, hb, hkl⟩
  · exact hbc
  · rcases rawEq_cases hbc with ⟨rfl, rfl⟩ | ⟨l', o, hb', hc, hlo⟩
    · exact hab
    · obtain rfl := Option.some.inj (hb.symm.trans hb')
      exact (rawEq_iff_of_key? ha hc).mpr (hkl.trans hlo)

/-- Only NaN differs from itself. -/
theorem rawEq_self_iff : a.rawEq a = true ↔ ¬ ∃ x : Double, a = .float x ∧ x.isNaN = true := by
  constructor
  · rintro h ⟨x, rfl, hnan⟩
    rw [rawEq_nan hnan] at h
    cases h
  · intro h
    cases ha : a.key? with
    | none =>
      rcases (key?_eq_none_iff a).mp ha with rfl | hnan
      · rfl
      · exact absurd hnan h
    | some k => exact (rawEq_iff_of_key? ha ha).mpr rfl

/-- How equality, the stored form and the hash of values fit together. -/
structure EqualityLaws (hash : Value → UInt64) : Prop where
  symm : ∀ a b : Value, a.rawEq b = true → b.rawEq a = true
  trans : ∀ a b c : Value, a.rawEq b = true → b.rawEq c = true → a.rawEq c = true
  refl_iff : ∀ a : Value, a.rawEq a = true ↔ ¬ ∃ x : Double, a = .float x ∧ x.isNaN = true
  /-- Nil and NaN are no keys, and no others. -/
  key_none_iff : ∀ a : Value, a.key? = none ↔ a = .nil ∨ ∃ x : Double, a = .float x ∧ x.isNaN = true
  key_rawEq : ∀ a k : Value, a.key? = some k → k.rawEq a = true
  key_idem : ∀ a k : Value, a.key? = some k → k.key? = some k
  /-- Keys are equal if they are stored alike: as the same boolean, integer, bits of a double or
  object, or as strings with the same bytes. -/
  eq_iff : ∀ a b k l : Value, a.key? = some k → b.key? = some l →
    (a.rawEq b = true ↔ k.content = l.content)
  hash_eq : ∀ a b : Value, a.rawEq b = true → hash a = hash b

/-- Equality, stored forms and hashes agree, whatever the hash of byte strings and of cells is. -/
theorem equality_laws (bytesHash : Bytes → UInt64) (cellHash : Ref → UInt64) :
    EqualityLaws (hashWith bytesHash cellHash) where
  symm _ _ := rawEq_symm
  trans _ _ _ := rawEq_trans
  refl_iff _ := rawEq_self_iff
  key_none_iff := key?_eq_none_iff
  key_rawEq a k h := by
    have hstored := stored_of_key? h
    exact (rawEq_iff_of_key? hstored h).mpr rfl
  key_idem _ _ := stored_of_key?
  eq_iff _ _ _ _ := rawEq_iff_of_key?
  hash_eq := rawEq_hashWith bytesHash cellHash

end Value

end LuaData
