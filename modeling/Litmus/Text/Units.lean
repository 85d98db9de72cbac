/-!
The order of texts by UTF-16 code units. A character beyond the basic plane is a pair of surrogate
units, so it comes before the last characters of that plane.
-/

namespace Litmus.Text

/-- The UTF-16 code units of a character. -/
def charUnits (c : Char) : List Nat :=
  let n := c.toNat
  if n < 0x10000 then [n] else [0xD800 + (n - 0x10000) / 0x400, 0xDC00 + (n - 0x10000) % 0x400]

/-- The UTF-16 code units of a text. -/
def units (s : String) : List Nat := s.toList.flatMap charUnits

/-- Whether `a` comes before `b`, or is `b`. -/
def unitsLe (a b : String) : Bool := (compare (units a) (units b)).isLE

/-- Texts in ascending order. -/
def sort (texts : List String) : List String := texts.mergeSort unitsLe

/-- Pairs in ascending order of their names. -/
def sortByName {α : Type} (pairs : List (String × α)) : List (String × α) :=
  pairs.mergeSort fun a b => unitsLe a.1 b.1

end Litmus.Text
