/-!
Binary numbers of 53 significant bits. `nearest` rounds a quotient of natural numbers to the closest
of them, a tie going to the even mantissa; beyond the largest there is no nearest one.
-/

namespace Litmus.Number

/-- The number `mantissa · 2 ^ exponent`. -/
structure Binary where
  mantissa : Nat
  exponent : Int
  deriving DecidableEq, Repr

namespace Binary

/-- The least mantissa of full width. -/
def fullMantissa : Nat := 1 <<< 52

/-- The exponent of the finest grid. -/
def minExponent : Int := -1074

/-- The exponent of the coarsest grid. -/
def maxExponent : Int := 971

/-- The quotient rounded to the nearest natural number, a half going to the even one. -/
def roundDiv (num den : Nat) : Nat :=
  let q := num / den
  let twice := 2 * (num % den)
  if twice < den then q else if den < twice then q + 1 else q + q % 2

/-- The exponent of the greatest power of two that is at most `num / den`. -/
def floorLog2 (num den : Nat) : Int :=
  let e : Int := (num.log2 : Int) - (den.log2 : Int)
  if den <<< e.toNat ≤ num <<< (-e).toNat then e else e - 1

/-- A mantissa that rounding carried past full width moves to the next grid. -/
def carry (b : Binary) : Binary :=
  if b.mantissa < 2 * fullMantissa then b else ⟨b.mantissa / 2, b.exponent + 1⟩

/-- The binary number closest to `num / den`; none when that is too large to have one. -/
def nearest (num den : Nat) : Option Binary :=
  if num = 0 then some ⟨0, minExponent⟩
  else
    let e := max (floorLog2 num den - 52) minExponent
    let b := carry ⟨roundDiv (num <<< (-e).toNat) (den <<< e.toNat), e⟩
    if b.exponent ≤ maxExponent then some b else none

/-- The whole part. -/
def floor (b : Binary) : Nat :=
  b.mantissa <<< b.exponent.toNat >>> (-b.exponent).toNat

end Binary

end Litmus.Number
