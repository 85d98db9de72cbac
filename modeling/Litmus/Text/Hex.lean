/-! Hexadecimal texts of whole numbers: lower-case digits, a minus sign in front. -/

namespace Litmus.Text

/-- The hexadecimal digits of a whole number, after its sign. -/
def hex (n : Int) : String :=
  (if n < 0 then "-" else "") ++ String.ofList (Nat.toDigits 16 n.natAbs)

/-- How addresses and values are shown: the sign stands inside, as in `0x-3`. -/
def hexWord (n : Int) : String := "0x" ++ hex n

end Litmus.Text
