import Litmus.Number
import Litmus.Text.Hex
import Litmus.Value.Record

/-!
Untyped values, as failures carry them and digests are taken of them, and their canonical text: JSON
without spaces, in which a big integer is a record of its hexadecimal digits and an infinite number is null.
-/

namespace Litmus

/-- An untyped value. Big integers are apart from numbers. So are counts and times, which the machine itself comes to one
by one: they are whole, and never so many that they would have to be rounded. -/
inductive Value where
  | null
  | bool (b : Bool)
  | number (n : Number)
  | count (n : Int)
  | big (n : Int)
  | text (s : String)
  | list (items : List Value)
  | record (fields : List (String × Value))
  deriving Inhabited

namespace Value

/-- A character inside quotes: what would end the text, and control characters, are escaped. -/
def escape (c : Char) : String :=
  match c with
  | '"' => "\\\""
  | '\\' => "\\\\"
  | '\x08' => "\\b"
  | '\x0c' => "\\f"
  | '\n' => "\\n"
  | '\x0d' => "\\r"
  | '\t' => "\\t"
  | c =>
    if c.toNat < 0x20 then
      let ds := Nat.toDigits 16 c.toNat
      "\\u" ++ String.ofList (List.replicate (4 - ds.length) '0' ++ ds)
    else c.toString

/-- A text in quotes. -/
def quote (s : String) : String := "\"" ++ String.join (s.toList.map escape) ++ "\""

mutual

/-- The canonical text of a value. -/
def canonical : Value → String
  | .null => "null"
  | .bool b => if b then "true" else "false"
  | .number n =>
    match n.rounded with
    | .infinite _ => "null"
    | n => n.text
  | .count n => toString n
  | .big n => "\x7b\"__bigint__\":" ++ quote (Text.hex n) ++ "\x7d"
  | .text s => quote s
  | .list items => "[" ++ ",".intercalate (canonicalItems items) ++ "]"
  | .record fields => "\x7b" ++ ",".intercalate (canonicalFields fields) ++ "\x7d"

/-- The canonical texts of the items of a list. -/
def canonicalItems : List Value → List String
  | [] => []
  | v :: r => canonical v :: canonicalItems r

/-- The entries of a record, each as its name, a colon and its value. -/
def canonicalFields : List (String × Value) → List String
  | [] => []
  | (name, v) :: r => (quote name ++ ":" ++ canonical v) :: canonicalFields r

end

end Value

end Litmus
