/-!
Templates: a text with places `{name}`, which `fill` fills one at a time. In what fills a place a
dollar sign starts a pattern: `$$` is a dollar sign, `$&` the place itself, and a dollar sign with a
backquote or a quote the text before or after the place.
-/

namespace Litmus.Text

/-- The text before and after the first occurrence of `place`. -/
def splitAt? (place : List Char) : List Char → Option (List Char × List Char)
  | [] => if place.isEmpty then some ([], []) else none
  | c :: r =>
    if place.isPrefixOf (c :: r) then some ([], (c :: r).drop place.length)
    else (splitAt? place r).map fun (before, after) => (c :: before, after)

/-- A filling with its patterns carried out. -/
def expand (before place after : List Char) : List Char → List Char
  | '$' :: '$' :: r => '$' :: expand before place after r
  | '$' :: '&' :: r => place ++ expand before place after r
  | '$' :: '\x60' :: r => before ++ expand before place after r
  | '$' :: '\'' :: r => after ++ expand before place after r
  | c :: r => c :: expand before place after r
  | [] => []

/-- The template with the first place of this name filled, or as it was when it has none. -/
def fillPlace (template : List Char) (name filling : String) : List Char :=
  let place := '\x7b' :: name.toList ++ ['\x7d']
  match splitAt? place template with
  | none => template
  | some (before, after) => before ++ expand before place after filling.toList ++ after

/-- The template with each of the named places filled in turn. -/
def fill (template : String) (fillings : List (String × String)) : String :=
  String.ofList (fillings.foldl (fun t (name, filling) => fillPlace t name filling) template.toList)

end Litmus.Text
