/-!
# Rounding an exact ratio to a binary significand

Every floating result of this library is an exact ratio of two naturals that is rounded once, to
the nearest value of a binary format, a tie going to the even significand. `divNearest` rounds a
quotient to a whole number and `significand` chooses the grid of the format on which the ratio is
rounded.
-/

namespace LuaData

/-- Powers with natural exponents. They come before the powers of a monoid, so that a power means
the same in every module, whether or not it sees those. -/
@[default_instance 20000]
instance (priority := high) powNat {α : Type} [NatPow α] : Pow α Nat := instPowNat

/-- The quotient `num / den` rounded to the nearest natural, a half going to the even one. -/
def divNearest (num den : Nat) : Nat :=
  let quotient := num / den
  let twice := 2 * (num % den)
  if twice < den ∨ (twice = den ∧ quotient % 2 = 0) then quotient else quotient + 1

/-- The greatest `e` with `2 ^ e ≤ num / den`, for positive `num` and `den`. The two binary
logarithms determine it up to one. -/
def floorLog2 (num den : Nat) : Int :=
  let estimate : Int := (num.log2 : Int) - (den.log2 : Int)
  if den * 2 ^ estimate.toNat ≤ num * 2 ^ (-estimate).toNat then estimate else estimate - 1

/-- The binary grid of a floating format: the number of bits of a significand and the exponent
of the smallest positive value. -/
structure BinaryFormat where
  precision : Nat
  minExponent : Int

/-- Double precision: 53 bits, down to `2 ^ (-1074)`. -/
def BinaryFormat.double : BinaryFormat := ⟨53, -1074⟩

/-- Single precision: 24 bits, down to `2 ^ (-149)`. -/
def BinaryFormat.single : BinaryFormat := ⟨24, -149⟩

/-- The value of the format nearest to the positive ratio `num / den`, as a pair `(q, s)` that
stands for `q * 2 ^ s`. The significand `q` is at most `2 ^ precision`, and below
`2 ^ (precision - 1)` only on the finest grid. -/
def BinaryFormat.significand (format : BinaryFormat) (num den : Nat) : Nat × Int :=
  let scale := max (floorLog2 num den - (format.precision - 1 : Nat)) format.minExponent
  (divNearest (num * 2 ^ (-scale).toNat) (den * 2 ^ scale.toNat), scale)

end LuaData
