/-! Blank characters, and texts without the blanks around them. -/

namespace Litmus.Text

/-- The characters that count as blank: the Unicode spaces, the line ends and the byte-order mark. -/
def isBlank (c : Char) : Bool :=
  let n := c.toNat
  (0x09 ≤ n && n ≤ 0x0D) || (0x2000 ≤ n && n ≤ 0x200A)
    || [0x20, 0xA0, 0x1680, 0x2028, 0x2029, 0x202F, 0x205F, 0x3000, 0xFEFF].contains n

/-- The characters between the first and the last that are not blank. -/
def trim (s : List Char) : List Char :=
  ((s.dropWhile isBlank).reverse.dropWhile isBlank).reverse

/-- The number that a text of ASCII digits stands for, blanks around it apart. -/
def natural? (s : String) : Option Nat :=
  let ds := trim s.toList
  if ds.isEmpty || !ds.all Char.isDigit then none
  else some (ds.foldl (fun n c => 10 * n + (c.toNat - 48)) 0)

end Litmus.Text
