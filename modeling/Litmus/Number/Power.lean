import Litmus.Number.Binary

/-!
Powers of two with binary numbers as exponents. The whole number closest to the exponent is a shift. What
is left of it, times the natural logarithm of two, is at most 0.35 either way, and its exponential comes
from few terms of a series. All that is reckoned in arithmetic that rounds each result to the closest
binary number, so the last bit of a power depends on the order of the operations.
-/

namespace Litmus.Number

namespace Binary

/-- The fraction that a binary number is. -/
def value (b : Binary) : Rat := mkRat (b.mantissa <<< b.exponent.toNat : Nat) (1 <<< (-b.exponent).toNat)

/-- The number with only the upper 21 bits of its mantissa, so that products with it lose less. -/
def leading (b : Binary) : Binary := { b with mantissa := b.mantissa >>> 32 <<< 32 }

end Binary

/-- A signed binary number; arithmetic on it rounds. -/
structure Rounded where
  value : Rat
  deriving DecidableEq, Repr

namespace Rounded

/-- The binary number closest to a fraction, changed as `f` says, with the sign of the fraction. -/
def through (f : Binary → Binary) (q : Rat) : Rounded :=
  match Binary.nearest q.num.natAbs q.den with
  | none => ⟨q⟩
  | some b => ⟨if q.num < 0 then -(f b).value else (f b).value⟩

/-- The binary number closest to a fraction. -/
def ofRat (q : Rat) : Rounded := through id q

instance (n : Nat) : OfNat Rounded n := ⟨ofRat (mkRat n 1)⟩

instance : OfScientific Rounded where
  ofScientific digits isSmall e :=
    if isSmall then ofRat (mkRat digits (Nat.pow 10 e)) else ofRat (mkRat (digits * Nat.pow 10 e : Nat) 1)

instance : Add Rounded := ⟨fun x y => ofRat (x.value + y.value)⟩

instance : Sub Rounded := ⟨fun x y => ofRat (x.value - y.value)⟩

instance : Mul Rounded := ⟨fun x y => ofRat (x.value * y.value)⟩

instance : Div Rounded := ⟨fun x y => ofRat (x.value / y.value)⟩

/-- The leading bits. -/
def leading (x : Rounded) : Rounded := through Binary.leading x.value

/-- The natural logarithm of two. -/
def lnTwo : Rounded := 0.693147180559945286227

/-- The leading bits of the natural logarithm of two. -/
def lnTwoLeading : Rounded := 0.693147182464599609375

/-- What the leading bits of the natural logarithm of two leave. -/
def lnTwoRest : Rounded := 0 - 1.90465429995776804525e-09

/-- The series of `z * coth (z / 2) - 2` in the square of `z`: a sixth of it, less a 360th of its square,
and so on. -/
def cothSeries (square : Rounded) : Rounded :=
  let terms := 6.61375632143793436117e-05 + square * (square * 4.13813679705723846039e-08 - 1.65339022054652515390e-06)
  square * (0.166666666666666019037 + square * (square * terms - 2.77777777770155933842e-03))

/-- The exponential of a small `z`: it is `1 + z + z * c / (2 - c)` where `c` is `z` less the series. -/
def exponential (z : Rounded) : Rounded :=
  let c := z - cothSeries (z * z)
  1 - (z * c / (c - 2) - z)

/-- Two to the power `x` less the whole number `n` close to it. -/
def powerOfRest (x : Rounded) (n : Nat) : Rounded :=
  let head := x.leading - ofRat (mkRat n 1)
  let tail := x - x.leading
  let lead := (tail + head).leading
  let most := lead * lnTwoLeading
  let few := (tail - (lead - head)) * lnTwo + lead * lnTwoRest
  exponential (most + few)

end Rounded

namespace Binary

/-- The whole number closest to a binary number, a half going up. -/
def round (b : Binary) : Nat := (b.value + mkRat 1 2).floor.toNat

/-- Two to the power `b`, as the series gives it; none when that is too large. -/
def power (b : Binary) : Option Binary :=
  if b.floor ≤ maxExponent + 52 then
    let q := (Rounded.powerOfRest ⟨b.value⟩ b.round).value
    nearest (q.num.natAbs <<< b.round) q.den
  else none

end Binary

end Litmus.Number
