import Litmus.Number.Shortest

/-!
Numbers as inputs give them and messages show them: whole, a decimal fraction, or infinite. They are
ordered as numbers. A number is written with the fewest digits that read back as the same binary number;
one too large for all binary numbers is as good as infinite.
-/

namespace Litmus

/-- A number: whole, or `digits · 10 ^ (-places)` in lowest terms, or beyond all others on either side. -/
inductive Number where
  | whole (n : Int)
  | fraction (digits : Int) (places : Nat)
  | infinite (negative : Bool)
  deriving DecidableEq, Repr, Inhabited

namespace Number

instance (n : Nat) : OfNat Number n := ⟨.whole n⟩

instance : Coe Int Number := ⟨.whole⟩

/-- The number beyond all others. -/
abbrev infinity : Number := .infinite false

/-- The number `digits · 10 ^ (-places)`, brought to lowest terms. -/
def ofDecimal (digits : Int) : Nat → Number
  | 0 => .whole digits
  | places + 1 => if digits % 10 = 0 then ofDecimal (digits / 10) places else .fraction digits (places + 1)

/-! ### Order -/

/-- The digits of a number without the point; of an infinite one, its sign. -/
def digits : Number → Int
  | .whole n => n
  | .fraction digits _ => digits
  | .infinite negative => if negative then -1 else 1

/-- How many digits of a number come after the point. -/
def places : Number → Nat
  | .whole _ | .infinite _ => 0
  | .fraction _ places => places

/-- On which side of all finite numbers a number lies. -/
def side : Number → Int
  | .whole _ | .fraction _ _ => 0
  | .infinite negative => if negative then -1 else 1

/-- Whether `m` is less than `n`. -/
def isBelow (m n : Number) : Bool :=
  if m.side = n.side then m.digits * (Nat.pow 10 n.places : Nat) < n.digits * (Nat.pow 10 m.places : Nat)
  else m.side < n.side

instance : LT Number := ⟨fun m n => m.isBelow n = true⟩

instance : DecidableLT Number := fun m n => inferInstanceAs (Decidable (m.isBelow n = true))

instance : Max Number := ⟨fun m n => if m < n then n else m⟩

instance : Min Number := ⟨fun m n => if n < m then n else m⟩

@[simp] theorem whole_lt_whole {m n : Int} : whole m < whole n ↔ m < n := by
  change isBelow _ _ = true ↔ _
  simp [isBelow, side, digits, places]

@[simp] theorem not_infinity_lt (n : Number) : ¬ infinity < n := by
  change ¬ isBelow _ _ = true
  cases n with
  | whole _ | fraction _ _ => simp [isBelow, side]
  | infinite negative => cases negative <;> simp [isBelow, side, digits, places]

@[simp] theorem min_whole (m n : Int) : min (whole m) (whole n) = whole (min m n) := by
  change (if whole n < whole m then whole n else whole m) = _
  by_cases h : n < m
  · rw [if_pos (whole_lt_whole.mpr h), Int.min_eq_right (Int.le_of_lt h)]
  · rw [if_neg (mt whole_lt_whole.mp h), Int.min_eq_left (Int.not_lt.mp h)]

@[simp] theorem max_whole (m n : Int) : max (whole m) (whole n) = whole (max m n) := by
  change (if whole m < whole n then whole n else whole m) = _
  by_cases h : m < n
  · rw [if_pos (whole_lt_whole.mpr h), Int.max_eq_right (Int.le_of_lt h)]
  · rw [if_neg (mt whole_lt_whole.mp h), Int.max_eq_left (Int.not_lt.mp h)]

/-! ### Rounding -/

/-- The binary number closest to a number without its sign; none when that is too large. -/
def nearest (n : Number) : Option Binary :=
  match n with
  | .infinite _ => none
  | n => Binary.nearest n.digits.natAbs (Nat.pow 10 n.places)

/-- A binary number with a sign. Two to the power `-k` has `k` places, with the digits of five to the
power `k`. -/
def ofBinary (negative : Bool) (b : Binary) : Number :=
  let places := (-b.exponent).toNat
  let digits : Int := ((b.mantissa <<< b.exponent.toNat) * Nat.pow 5 places : Nat)
  ofDecimal (if negative then -digits else digits) places

/-- Whether a number is whole and no larger than the mantissas of binary numbers. -/
def isExact : Number → Bool
  | .whole n => n.natAbs < 2 * Binary.fullMantissa
  | _ => false

/-- The binary number closest to a number, or the infinite number on its side. -/
def rounded (n : Number) : Number :=
  if n.isExact then n
  else
    let negative := decide (n.digits < 0)
    match n.nearest with
    | some b => ofBinary negative b
    | none => .infinite negative

@[simp] theorem rounded_of_isExact {n : Number} (h : n.isExact = true) : n.rounded = n := if_pos h

/-! ### Text -/

/-- Digits `0.d₁d₂… · 10 ^ point` in full: with a point while `-6 < point ≤ 21`, else with an
exponent. -/
def layOut (ds : List Char) (point : Int) : List Char :=
  let count : Int := ds.length
  if count ≤ point ∧ point ≤ 21 then ds ++ List.replicate (point - count).toNat '0'
  else if 0 < point ∧ point ≤ 21 then ds.take point.toNat ++ '.' :: ds.drop point.toNat
  else if -6 < point ∧ point ≤ 0 then '0' :: '.' :: List.replicate (-point).toNat '0' ++ ds
  else
    let e := point - 1
    let mark := if e < 0 then ['e', '-'] else ['e', '+']
    let tail := if ds.length ≤ 1 then [] else '.' :: ds.drop 1
    ds.take 1 ++ tail ++ mark ++ Nat.toDigits 10 e.natAbs

/-- The text of a decimal, without the zeros that end its digits. -/
def Decimal.text (d : Decimal) : List Char :=
  let all := Nat.toDigits 10 d.digits
  layOut (all.reverse.dropWhile (· == '0')).reverse (all.length + d.exponent)

/-- The text of a binary number, or of one too large to have any. -/
def binaryText : Option Binary → String
  | none => "Infinity"
  | some b => if b.mantissa = 0 then "0" else String.ofList b.shortest.text

/-- The text of a number. -/
def text (n : Number) : String :=
  match n.isExact, n with
  | true, .whole m => toString m
  | _, n => (if n.digits < 0 then "-" else "") ++ binaryText n.nearest

end Number

end Litmus
