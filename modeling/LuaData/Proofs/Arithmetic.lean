import Mathlib.Data.Rat.Floor
import LuaData.Proofs.Coercion
import LuaData.Proofs.Doubles

/-!
# Integer arithmetic

An operator on integers gives the integer of the configured width that is congruent to the exact
result: `Operator.Exact` is that result, with quotients rounded down as rational numbers, and
`Width.Represents` the representative. Floored quotients and remainders are made of truncated ones
by a correction, which is a sum or a difference of words; `Integer.floorMod?` and
`Integer.floorDiv?` have no answer where it does not fit, and they always have one. Read
`arithmetic_is_exact` first.
-/

namespace LuaData

variable {width : Width} {op : Operator} {i j r r' : Int64} {z : Int}

/-! ## Exact results and their representatives -/

/-- The number of bits of a width. -/
def Width.bits : Width → Nat
  | .bits32 => 32
  | .bits64 => 64

/-- The number is in the signed range of the width. -/
def Width.InRange (width : Width) (z : Int) : Prop :=
  -2 ^ (width.bits - 1) ≤ z ∧ z < 2 ^ (width.bits - 1)

/-- The integer stands for the number under a width: it is the one in the signed range that is
congruent to it. -/
def Width.Represents (width : Width) (r : Int64) (z : Int) : Prop :=
  width.InRange r.toInt ∧ r.toInt ≡ z [ZMOD 2 ^ width.bits]

/-- The exact result of an operator on integers, for those that give integers. The quotient is that
of the rational numbers, rounded down. -/
inductive Operator.Exact : Operator → Int → Int → Int → Prop
  | add (x y : Int) : Exact .add x y (x + y)
  | sub (x y : Int) : Exact .sub x y (x - y)
  | mul (x y : Int) : Exact .mul x y (x * y)
  | neg (x y : Int) : Exact .neg x y (-x)
  | mod (x : Int) {y : Int} (hy : y ≠ 0) : Exact .mod x y (x - y * ⌊(x / y : ℚ)⌋)
  | idiv (x : Int) {y : Int} (hy : y ≠ 0) : Exact .idiv x y ⌊(x / y : ℚ)⌋

namespace Width

/-- A number has one representative. -/
theorem Represents.unique (h : width.Represents r z) (h' : width.Represents r' z) : r = r' := by
  obtain ⟨⟨hlow, hhigh⟩, hmod⟩ := h
  obtain ⟨⟨hlow', hhigh'⟩, hmod'⟩ := h'
  have hcongr : r.toInt % 2 ^ width.bits = r'.toInt % 2 ^ width.bits := hmod.trans hmod'.symm
  refine Int64.toInt_inj.mp ?_
  cases width <;> simp only [bits] at hlow hhigh hlow' hhigh' hcongr <;> omega

/-- An integer that is congruent to a number is wrapped to the representative of the number. -/
theorem represents_wrap (h : i.toInt ≡ z [ZMOD 2 ^ 64]) : width.Represents (width.wrap i) z := by
  cases width with
  | bits32 =>
    have hmod : i.toInt.bmod (2 ^ 32) ≡ i.toInt [ZMOD 2 ^ 32] := Int.bmod_emod
    have hlow := @Int.le_bmod i.toInt (2 ^ 32) (by decide)
    have hhigh := @Int.bmod_lt i.toInt (2 ^ 32) (by decide)
    rw [Represents, toInt_wrap_bits32]
    refine ⟨⟨?_, ?_⟩, hmod.trans (h.of_dvd (by decide))⟩
    · show -2 ^ 31 ≤ _
      omega
    · show _ < 2 ^ 31
      omega
  | bits64 => exact ⟨⟨i.le_toInt, i.toInt_lt⟩, h⟩

end Width

/-! ## Quotients and remainders -/

/-- The quotient rounded down, as a quotient of rational numbers. -/
theorem floor_div_eq_fdiv (x y : Int) : ⌊(x / y : ℚ)⌋ = x.fdiv y := by
  have hnonneg : ∀ (x : Int) (n : Nat), ⌊(x / (n : Int) : ℚ)⌋ = x.fdiv n := by
    intro x n
    rw [Int.fdiv_eq_ediv_of_nonneg x (Int.natCast_nonneg n), Int.cast_natCast]
    exact Rat.floor_intCast_div_natCast x n
  rcases Int.eq_nat_or_neg y with ⟨n, rfl | rfl⟩
  · exact hnonneg x n
  · -- Both signs can be turned around.
    rw [← Int.neg_fdiv_neg, Int.neg_neg, ← hnonneg, Int.cast_neg, Int.cast_neg, neg_div, div_neg]

namespace Integer

/-- The remainder, with its correction in checked words. There is none for the divisor zero. -/
def floorMod? (a b : Int64) : Option Int64 :=
  if b = 0 then none
  else
    let m := a % b
    if m ≠ 0 ∧ m ^^^ b < 0 then Double.int64? (m.toInt + b.toInt) else some m

/-- The quotient, with its correction in checked words. There is none for the divisor zero. -/
def floorDiv? (a b : Int64) : Option Int64 :=
  if b = 0 then none
  else
    let q := a / b
    if a % b ≠ 0 ∧ a ^^^ b < 0 then Double.int64? (q.toInt - 1) else some q

/-- The correction of a remainder does not overflow. -/
theorem floorMod?_eq (i : Int64) (hj : j ≠ 0) : floorMod? i j = some (floorMod i j) := by
  unfold floorMod? floorMod
  rw [if_neg hj]
  dsimp only
  split
  · rename_i h
    exact Double.int64?_eq_some_iff.mpr (toInt_add_of_signs ((xor_lt_zero_iff _ _).mp h.2))
  · rfl

/-- A quotient with a remainder is far from the ends of the range. -/
theorem natAbs_tdiv_le {a b : Int} (h : a.tmod b ≠ 0) : 2 * (a.tdiv b).natAbs ≤ a.natAbs := by
  by_cases hb : b.natAbs ≤ 1
  · -- Zero divides into nothing, and one leaves no remainder.
    rcases Nat.le_one_iff_eq_zero_or_eq_one.mp hb with hzero | hone
    · rw [Int.natAbs_eq_zero.mp hzero, Int.tdiv_zero]
      exact Nat.zero_le _
    · exact absurd (Int.tmod_eq_zero_of_dvd (Int.natAbs_dvd.mp (by simp [hone]))) h
  · have hdiv : (a.tdiv b).natAbs = a.natAbs / b.natAbs := Int.natAbs_tdiv a b
    calc 2 * (a.tdiv b).natAbs = a.natAbs / b.natAbs * 2 := by rw [hdiv, Nat.mul_comm]
      _ ≤ a.natAbs / b.natAbs * b.natAbs := Nat.mul_le_mul_left _ (by omega)
      _ ≤ a.natAbs := Nat.div_mul_le_self _ _

/-- The correction of a quotient does not overflow. -/
theorem floorDiv?_eq (i : Int64) (hj : j ≠ 0) : floorDiv? i j = some (floorDiv i j) := by
  unfold floorDiv? floorDiv
  rw [if_neg hj]
  dsimp only
  split
  · rename_i h
    have hrem : i.toInt.tmod j.toInt ≠ 0 := by
      rw [← Int64.toInt_mod]
      exact fun hzero ↦ h.1 (Int64.toInt_inj.mp hzero)
    have hsmall := natAbs_tdiv_le hrem
    have hlow := i.le_toInt
    have hhigh := i.toInt_lt
    have hquotient : (i / j).toInt = i.toInt.tdiv j.toInt := by
      rw [Int64.toInt_div]
      exact Int.bmod_eq_of_le_mul_two (by omega) (by omega)
    refine Double.int64?_eq_some_iff.mpr ?_
    rw [Int64.toInt_sub, hquotient, Int64.toInt_one]
    exact Int.bmod_eq_of_le_mul_two (by omega) (by omega)
  · rfl

/-- The quotient rounded down is the truncated one, less one when the signs differ and there is a
remainder. -/
theorem fdiv_eq_ite_tdiv (a : Int) {b : Int} (hb : b ≠ 0) :
    a.fdiv b = if a.tmod b ≠ 0 ∧ ¬ (a < 0 ↔ b < 0) then a.tdiv b - 1 else a.tdiv b := by
  have hdvd : b ∣ a ↔ a.tmod b = 0 := Int.dvd_iff_tmod_eq_zero
  rw [Int.fdiv_eq_tdiv]
  by_cases hzero : a.tmod b = 0
  · simp [hzero, hdvd.mpr hzero]
  · have hne : ¬ b ∣ a := fun h ↦ hzero (hdvd.mp h)
    rw [if_neg hne]
    rcases lt_or_gt_of_ne hb with hneg | hpos
    · by_cases ha : 0 ≤ a <;>
        simp [hzero, ha, hneg, hneg.not_ge, Int.sign_eq_neg_one_of_neg hneg]
    · by_cases ha : 0 ≤ a <;>
        simp [hzero, ha, hpos.le, hpos.not_gt, Int.sign_eq_one_of_pos hpos]

/-- The quotient is the one that is rounded down, up to the words. Only the least integer divided by
minus one is out of their range. -/
theorem toInt_floorDiv (i : Int64) (hj : j ≠ 0) :
    (floorDiv i j).toInt = (i.toInt.fdiv j.toInt).bmod (2 ^ 64) := by
  have hzero : j.toInt ≠ 0 := fun h ↦ hj (Int64.toInt_inj.mp h)
  have hmoved : (i % j ≠ 0 ∧ i ^^^ j < 0) ↔
      i.toInt.tmod j.toInt ≠ 0 ∧ ¬ (i.toInt < 0 ↔ j.toInt < 0) := by
    rw [xor_lt_zero_iff, ← Int64.toInt_mod, ne_eq, ne_eq, ← Int64.toInt_inj, Int64.toInt_zero]
  rw [fdiv_eq_ite_tdiv _ hzero]
  unfold floorDiv
  by_cases h : i % j ≠ 0 ∧ i ^^^ j < 0
  · rw [if_pos (hmoved.mp h), if_pos h, Int64.toInt_sub, Int64.toInt_div, Int64.toInt_one,
      Int.bmod_sub_bmod]
  · rw [if_neg fun h' ↦ h (hmoved.mpr h'), if_neg h, Int64.toInt_div]

/-- A remainder lies between zero and the divisor. -/
theorem fmod_between (x : Int) {y : Int} (hy : y ≠ 0) :
    0 ≤ x.fmod y ∧ x.fmod y < y ∨ y < x.fmod y ∧ x.fmod y ≤ 0 := by
  have hlow := Int.emod_nonneg x hy
  have hhigh := Int.emod_lt x hy
  have hdvd : y ∣ x ↔ x % y = 0 := Int.dvd_iff_emod_eq_zero
  rw [Int.fmod_eq_emod]
  by_cases hpos : 0 ≤ y
  · rw [if_pos (.inl hpos)]
    omega
  · by_cases hzero : y ∣ x
    · rw [if_pos (.inr hzero), hdvd.mp hzero]
      omega
    · have hne := mt hdvd.mpr hzero
      rw [if_neg (not_or.mpr ⟨hpos, hzero⟩)]
      omega

end Integer

/-! ## Operators -/

/-- Integers in the range of a width are not changed. -/
theorem Width.InRange.toInt_wrap (h : width.InRange i.toInt) :
    (width.wrap i).toInt = i.toInt := by
  cases width with
  | bits32 => exact toInt_wrap_of_lt .bits32 h.1 h.2
  | bits64 => rfl

/-- A word is congruent to the number that it was made of. -/
theorem modEq_bmod (z : Int) : z.bmod (2 ^ 64) ≡ z [ZMOD 2 ^ 64] :=
  Int.bmod_emod

/-- An operator on integers gives the representative of its exact result. -/
theorem Operator.Exact.applyInt_eq (width : Width) (h : op.Exact i.toInt j.toInt z) :
    ∃ r, Number.applyInt width op i j = .int r ∧ width.Represents r z := by
  cases h with
  | add => exact ⟨_, rfl, Width.represents_wrap (Int64.toInt_add i j ▸ modEq_bmod _)⟩
  | sub => exact ⟨_, rfl, Width.represents_wrap (Int64.toInt_sub i j ▸ modEq_bmod _)⟩
  | mul => exact ⟨_, rfl, Width.represents_wrap (Int64.toInt_mul i j ▸ modEq_bmod _)⟩
  | neg => exact ⟨_, rfl, Width.represents_wrap (Int64.toInt_neg i ▸ modEq_bmod _)⟩
  | mod _ hy =>
    have hj : j ≠ 0 := fun hzero ↦ hy (hzero ▸ rfl)
    refine ⟨_, if_neg hj, Width.represents_wrap ?_⟩
    rw [Integer.toInt_floorMod i hj, Int.fmod_def, floor_div_eq_fdiv]
  | idiv _ hy =>
    have hj : j ≠ 0 := fun hzero ↦ hy (hzero ▸ rfl)
    refine ⟨_, if_neg hj, Width.represents_wrap ?_⟩
    rw [Integer.toInt_floorDiv i hj, floor_div_eq_fdiv]
    exact modEq_bmod _

/-- The remainder of integers of a width is that of the integers. -/
theorem applyInt_mod (i : Int64) (hrange : width.InRange j.toInt) (hj : j ≠ 0) :
    ∃ m, Number.applyInt width .mod i j = .int m ∧ m.toInt = i.toInt.fmod j.toInt := by
  have hbetween := Integer.fmod_between i.toInt fun h ↦ hj (Int64.toInt_inj.mp h)
  refine ⟨_, if_neg hj, ?_⟩
  rw [← Integer.toInt_floorMod i hj] at hbetween ⊢
  refine Width.InRange.toInt_wrap ?_
  obtain ⟨hlow, hhigh⟩ := hrange
  constructor <;> omega

/-- What the arithmetic on integers of a width does. -/
structure ExactArithmetic (width : Width) : Prop where
  /-- An operator gives the one integer of the width that represents its exact result. -/
  represents : ∀ op (x y : Int64) z, Operator.Exact op x.toInt y.toInt z →
    ∃ r, Value.arith? width op (.int x) (.int y) = some (.int r) ∧ width.Represents r z ∧
      ∀ r', width.Represents r' z → r' = r
  /-- Quotients and remainders are made without overflow. -/
  checked : ∀ x y : Int64, y ≠ 0 → Integer.floorMod? x y = some (Integer.floorMod x y) ∧
    Integer.floorDiv? x y = some (Integer.floorDiv x y)
  /-- A remainder lies between zero and the divisor, and with the quotient it makes up the
  dividend. -/
  remainder : ∀ x y : Int64, width.InRange y.toInt → y ≠ 0 →
    ∃ q m, Value.arith? width .idiv (.int x) (.int y) = some (.int q) ∧
      Value.arith? width .mod (.int x) (.int y) = some (.int m) ∧
      (0 ≤ m.toInt ∧ m.toInt < y.toInt ∨ y.toInt < m.toInt ∧ m.toInt ≤ 0) ∧
      q.toInt * y.toInt + m.toInt ≡ x.toInt [ZMOD 2 ^ width.bits]
  /-- Sums, differences, products and negations do not tell integers from the wrapped ones. -/
  wrapped : ∀ op x y, op.isModular = true → Value.arith? width op (.int x) (.int y) =
    Value.arith? width op (.int (width.wrap x)) (.int (width.wrap y))
  /-- A quotient or a remainder by zero is a double. -/
  byZero : ∀ op x, op = .mod ∨ op = .idiv →
    ∃ d, Value.arith? width op (.int x) (.int 0) = some (.float d)

/-- Arithmetic on integers is exact modulo the width. -/
theorem arithmetic_is_exact (width : Width) : ExactArithmetic width where
  represents op x y z h := by
    obtain ⟨r, hr, hrepresents⟩ := h.applyInt_eq width
    exact ⟨r, congrArg (some ∘ Value.num) hr, hrepresents, fun r' h' ↦ h'.unique hrepresents⟩
  checked x y hy := ⟨Integer.floorMod?_eq x hy, Integer.floorDiv?_eq x hy⟩
  remainder x y hrange hy := by
    have hzero : y.toInt ≠ 0 := fun h ↦ hy (Int64.toInt_inj.mp h)
    obtain ⟨m, hm, hfmod⟩ := applyInt_mod x hrange hy
    obtain ⟨q, hq, -, hquotient⟩ := (Operator.Exact.idiv x.toInt hzero).applyInt_eq width
    refine ⟨q, m, congrArg (some ∘ Value.num) hq, congrArg (some ∘ Value.num) hm, ?_, ?_⟩
    · rw [hfmod]
      exact Integer.fmod_between x.toInt hzero
    · rw [floor_div_eq_fdiv] at hquotient
      have hmake : x.toInt.fdiv y.toInt * y.toInt + m.toInt = x.toInt := by
        rw [hfmod, Int.fmod_def]
        ring
      calc q.toInt * y.toInt + m.toInt
          ≡ x.toInt.fdiv y.toInt * y.toInt + m.toInt [ZMOD 2 ^ width.bits] :=
            (hquotient.mul_right _).add_right _
        _ = x.toInt := hmake
  wrapped op x y h := congrArg (some ∘ Value.num) (Number.applyInt_wrap width h x y).symm
  byZero op x h := by
    rcases h with rfl | rfl <;> exact ⟨_, rfl⟩

/-- The least integer divided by minus one is out of the range by one, and the integer that stands
for the quotient is the least integer again. -/
theorem arithmetic_is_exact_of_least_integer :
    Value.arith? .bits64 .idiv (.int Int64.minValue) (.int (-1)) =
      some (.int Int64.minValue) := by
  obtain ⟨r, hr, -, hunique⟩ := (arithmetic_is_exact .bits64).represents .idiv Int64.minValue (-1)
    _ (.idiv _ (by decide))
  have hleast : Width.bits64.Represents Int64.minValue
      ⌊(Int64.minValue.toInt / (-1 : Int64).toInt : ℚ)⌋ := by
    rw [floor_div_eq_fdiv]
    exact ⟨⟨by decide, by decide⟩, by decide⟩
  rw [hr, hunique _ hleast]

example : Value.arith? .bits32 .idiv (.int (-2147483648)) (.int (-1)) =
    some (.int (-2147483648)) := by decide +kernel

end LuaData
