import Mathlib.Data.Int.ModEq
import Mathlib.Tactic.NormNum.IsCoprime
import LuaData.Number.Basic

/-!
# Integers of a width

An integer is wrapped to the signed range of a width. Sums, differences, products and negations do
not depend on whether their operands were wrapped before. Remainders, which are those of the
integers (`Integer.toInt_floorMod`), do: `Width.exists_floorMod_ne`.
-/

namespace LuaData

variable {i j : Int64}

namespace Integer

/-- Two integers differ in their sign if that of their exclusive or is set. -/
theorem xor_lt_zero_iff (i j : Int64) : i ^^^ j < 0 ↔ ¬ (i.toInt < 0 ↔ j.toInt < 0) := by
  have hsign : ∀ k : Int64, k.toInt < 0 ↔ k.toBitVec.msb = true := fun k ↦ by
    rw [BitVec.msb_eq_toInt, decide_eq_true_iff]
    rfl
  rw [Int64.lt_iff_toInt_lt, Int64.toInt_zero, hsign, hsign, hsign, Int64.toBitVec_xor,
    BitVec.msb_xor]
  cases i.toBitVec.msb <;> cases j.toBitVec.msb <;> decide

/-- Integers of different signs are added without overflow. -/
theorem toInt_add_of_signs (h : ¬ (i.toInt < 0 ↔ j.toInt < 0)) :
    (i + j).toInt = i.toInt + j.toInt := by
  have hi := i.le_toInt
  have hi' := i.toInt_lt
  have hj := j.le_toInt
  have hj' := j.toInt_lt
  rw [Int64.toInt_add]
  exact Int.bmod_eq_of_le_mul_two (by omega) (by omega)

/-- The remainder of the division that rounds down is the truncated one, moved by one divisor when
the signs differ. -/
theorem fmod_eq_ite_tmod (a : Int) {b : Int} (hb : b ≠ 0) :
    a.fmod b = if a.tmod b ≠ 0 ∧ ¬ (a.tmod b < 0 ↔ b < 0) then a.tmod b + b else a.tmod b := by
  have hlow := Int.emod_nonneg a hb
  have hhigh := Int.emod_lt a hb
  have hdvd : b ∣ a ↔ a % b = 0 := Int.dvd_iff_emod_eq_zero
  rw [Int.fmod_eq_emod, Int.tmod_eq_emod]
  generalize a % b = e at *
  by_cases hzero : e = 0
  · have hdvd' := hdvd.mpr hzero
    simp [hzero, hdvd']
  · -- The remainder has the sign of the divisor already if that is the sign of the dividend.
    have hne : ¬ b ∣ a := fun h ↦ hzero (hdvd.mp h)
    simp only [hne, or_false]
    by_cases ha : 0 ≤ a <;> by_cases hb' : 0 ≤ b <;> simp only [ha, hb', if_true, if_false] <;>
      split <;> omega

/-- The remainder is that of the division that rounds down. -/
theorem toInt_floorMod (i : Int64) (hj : j ≠ 0) :
    (floorMod i j).toInt = i.toInt.fmod j.toInt := by
  have hzero : j.toInt ≠ 0 := fun h ↦ hj (Int64.toInt_inj.mp h)
  have htrunc : (i % j).toInt = i.toInt.tmod j.toInt := Int64.toInt_mod i j
  have hmoved : (i % j ≠ 0 ∧ i % j ^^^ j < 0) ↔
      i.toInt.tmod j.toInt ≠ 0 ∧ ¬ (i.toInt.tmod j.toInt < 0 ↔ j.toInt < 0) := by
    rw [xor_lt_zero_iff, htrunc, ← htrunc, ne_eq, ne_eq, ← Int64.toInt_inj, Int64.toInt_zero]
  rw [fmod_eq_ite_tmod _ hzero]
  unfold floorMod
  by_cases h : i % j ≠ 0 ∧ i % j ^^^ j < 0
  · rw [if_pos (hmoved.mp h), if_pos h, toInt_add_of_signs, htrunc]
    exact (xor_lt_zero_iff _ _).mp h.2
  · rw [if_neg fun h' ↦ h (hmoved.mpr h'), if_neg h, htrunc]

end Integer

namespace Width

/-- Integers of a width are wrapped once. -/
theorem wrap_wrap (width : Width) (i : Int64) : width.wrap (width.wrap i) = width.wrap i := by
  cases width with
  | bits32 =>
    show i.toInt32.toInt64.toInt32.toInt64 = i.toInt32.toInt64
    rw [Int32.toInt32_toInt64]
  | bits64 => rfl

/-- A sum may be wrapped at its end only. -/
theorem wrap_add_wrap (width : Width) (i j : Int64) :
    width.wrap (width.wrap i + width.wrap j) = width.wrap (i + j) := by
  cases width with
  | bits32 => simp only [wrap, Int64.toInt32_add, Int32.toInt32_toInt64]
  | bits64 => rfl

/-- A difference may be wrapped at its end only. -/
theorem wrap_sub_wrap (width : Width) (i j : Int64) :
    width.wrap (width.wrap i - width.wrap j) = width.wrap (i - j) := by
  cases width with
  | bits32 => simp only [wrap, Int64.toInt32_sub, Int32.toInt32_toInt64]
  | bits64 => rfl

/-- A product may be wrapped at its end only. -/
theorem wrap_mul_wrap (width : Width) (i j : Int64) :
    width.wrap (width.wrap i * width.wrap j) = width.wrap (i * j) := by
  cases width with
  | bits32 => simp only [wrap, Int64.toInt32_mul, Int32.toInt32_toInt64]
  | bits64 => rfl

/-- A negation may be wrapped at its end only. -/
theorem wrap_neg_wrap (width : Width) (i : Int64) :
    width.wrap (-width.wrap i) = width.wrap (-i) := by
  cases width with
  | bits32 => simp only [wrap, Int64.toInt32_neg, Int32.toInt32_toInt64]
  | bits64 => rfl

/-- Wrapping to 32 bits takes the signed remainder. -/
theorem toInt_wrap_bits32 (i : Int64) : (bits32.wrap i).toInt = i.toInt.bmod (2 ^ 32) := by
  rw [wrap, Int32.toInt_toInt64, Int64.toInt_toInt32]

/-- Integers in the signed range of 32 bits are not changed. -/
theorem toInt_wrap_of_lt (width : Width) (hlow : -(2 ^ 31) ≤ i.toInt) (hhigh : i.toInt < 2 ^ 31) :
    (width.wrap i).toInt = i.toInt := by
  cases width with
  | bits32 =>
    rw [toInt_wrap_bits32]
    exact Int.bmod_eq_of_le_mul_two (by omega) (by omega)
  | bits64 => rfl

/-- No integer up to `2 ^ 64` but zero is a multiple of `2 ^ 32` and of two primes whose product is
that large. -/
theorem not_dvd_of_natAbs_lt {d : Int} (hne : d ≠ 0) (hdvd : 2 ^ 32 ∣ d) (hlt : d.natAbs < 2 ^ 64) :
    ¬ 3 ∣ d ∨ ¬ 2147483647 ∣ d := by
  by_contra h
  rw [not_or, not_not, not_not] at h
  have hprimes : IsCoprime (3 : Int) 2147483647 := by norm_num
  have hodd : IsCoprime (3 * 2147483647 : Int) (2 ^ 32) := by norm_num
  have hproduct : 3 * 2147483647 * 2 ^ 32 ∣ d := hodd.mul_dvd (hprimes.mul_dvd h.1 h.2) hdvd
  exact hne (Int.eq_zero_of_dvd_of_natAbs_lt_natAbs hproduct (hlt.trans (by decide)))

/-- An integer that is changed by wrapping has another remainder by some divisor of the width. -/
theorem exists_floorMod_ne {width : Width} (h : width.wrap i ≠ i) :
    ∃ j : Int64, j ≠ 0 ∧ width.wrap j = j ∧
      width.wrap (Integer.floorMod (width.wrap i) j) ≠ width.wrap (Integer.floorMod i j) := by
  cases width with
  | bits64 => exact absurd rfl h
  | bits32 =>
    have hwrap := toInt_wrap_bits32 i
    have hdvd : (2 ^ 32 : Int) ∣ i.toInt - (bits32.wrap i).toInt := by
      rw [hwrap]
      exact Int.dvd_self_sub_bmod
    have hne : i.toInt - (bits32.wrap i).toInt ≠ 0 := fun heq ↦
      h (Int64.toInt_inj.mp (by omega))
    have hlt : (i.toInt - (bits32.wrap i).toInt).natAbs < 2 ^ 64 := by
      have := i.le_toInt
      have := i.toInt_lt
      have := @Int.le_bmod i.toInt (2 ^ 32) (by decide)
      have := @Int.bmod_lt i.toInt (2 ^ 32) (by decide)
      omega
    -- Remainders by a positive divisor of the width stay as they are, and they differ unless the
    -- divisor divides the difference.
    have hdivisor : ∀ j : Int64, 0 < j.toInt → j.toInt < 2 ^ 31 →
        ¬ j.toInt ∣ i.toInt - (bits32.wrap i).toInt →
        ∃ j : Int64, j ≠ 0 ∧ bits32.wrap j = j ∧
          bits32.wrap (Integer.floorMod (bits32.wrap i) j) ≠
            bits32.wrap (Integer.floorMod i j) := by
      intro j hpos hsmall hndvd
      have hj : j ≠ 0 := fun heq ↦ by
        rw [heq, Int64.toInt_zero] at hpos
        exact absurd hpos (Int.lt_irrefl 0)
      have hrem : ∀ k : Int64, (bits32.wrap (Integer.floorMod k j)).toInt = k.toInt % j.toInt := by
        intro k
        have hfloor : (Integer.floorMod k j).toInt = k.toInt % j.toInt := by
          rw [Integer.toInt_floorMod k hj, Int.fmod_eq_emod_of_nonneg _ hpos.le]
        have hlow := Int.emod_nonneg k.toInt hpos.ne'
        have hhigh := Int.emod_lt_of_pos k.toInt hpos
        rw [toInt_wrap_of_lt _ (by omega) (by omega), hfloor]
      refine ⟨j, hj, Int64.toInt_inj.mp (toInt_wrap_of_lt _ (by omega) hsmall), fun heq ↦ ?_⟩
      have hmod := congrArg Int64.toInt heq
      rw [hrem, hrem] at hmod
      exact hndvd (Int.ModEq.dvd hmod)
    rcases not_dvd_of_natAbs_lt hne hdvd hlt with hthree | hlarge
    · exact hdivisor 3 (by decide) (by decide) hthree
    · exact hdivisor 2147483647 (by decide) (by decide) hlarge

end Width

end LuaData
