import Litmus.Number.Binary

/-!
Shortest decimals. Each binary number owns the interval of reals that round to it, with its ends
exactly when the mantissa is even. `Binary.shortest` gives the decimal of fewest digits in that
interval, the nearest of them to the number: it tries the grids of one, two, … seventeen digits, and
on each the two neighbours of the number.
-/

namespace Litmus.Number

/-- The number `digits · 10 ^ exponent`. -/
structure Decimal where
  digits : Nat
  exponent : Int
  deriving DecidableEq, Repr

namespace Binary

/-- The lower end of the interval, in quarters of a unit of the mantissa; below a power of two the
grid is finer. -/
def lowEnd (b : Binary) : Nat :=
  if b.mantissa = fullMantissa ∧ minExponent < b.exponent then 4 * b.mantissa - 1 else 4 * b.mantissa - 2

/-- The upper end of the interval, in quarters of a unit of the mantissa. -/
def highEnd (b : Binary) : Nat := 4 * b.mantissa + 2

/-- How many decimal places the point lies to the right of the first digit's left side. -/
def point (b : Binary) : Int :=
  let e := b.exponent
  let shifted := (b.mantissa * Nat.pow 10 330) <<< e.toNat >>> (-e).toNat
  (Nat.toDigits 10 shifted).length - 330

/-- `quarters` quarter units over a step of `10 ^ e`, as a quotient. -/
def overStep (b : Binary) (e : Int) (quarters : Nat) : Nat × Nat :=
  let q := b.exponent - 2
  ((quarters * Nat.pow 10 (-e).toNat) <<< q.toNat, Nat.pow 10 e.toNat <<< (-q).toNat)

/-- Whether `t` steps of `10 ^ e` lie in the interval. -/
def owns (b : Binary) (e : Int) (t : Nat) : Bool :=
  let (low, den) := b.overStep e b.lowEnd
  let (high, _) := b.overStep e b.highEnd
  if b.mantissa % 2 = 0 then low ≤ t * den && t * den ≤ high else low < t * den && t * den < high

/-- The point of the grid of step `10 ^ e` that stands for the number, if one does. -/
def onGrid? (b : Binary) (e : Int) : Option Nat :=
  let (num, den) := b.overStep e (4 * b.mantissa)
  let below := num / den
  let above := below + 1
  let twice := 2 * (num % den)
  let first := if twice < den ∨ (twice = den ∧ below % 2 = 0) then [below, above] else [above, below]
  first.find? (b.owns e)

/-- The shortest decimal that rounds to the number. -/
def shortest (b : Binary) : Decimal :=
  let point := b.point
  let tries := (List.range 17).map fun (n : Nat) => point - 1 - (n : Int)
  (tries.findSome? fun e => (b.onGrid? e).map fun t => ⟨t, e⟩).getD ⟨0, 0⟩

end Binary

end Litmus.Number
