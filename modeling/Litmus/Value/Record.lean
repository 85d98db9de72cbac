import Litmus.Text.Units

/-!
Records: named entries in an order of their own. A name occurs once and keeps the place where it
was first given. In a finished record the names that are array indices come first, by number.
-/

namespace Litmus

/-- Named entries, in order. -/
abbrev Record (α : Type) := List (String × α)

namespace Record

variable {α β : Type}

/-- The number that a name spells, if it is an array index. -/
def index? (name : String) : Option Nat :=
  match name.toNat? with
  | some n => if toString n = name ∧ n < 0xFFFFFFFF then some n else none
  | none => none

/-- The entries with another: in place of the one of the same key, else at the end. -/
def put {κ : Type} [DecidableEq κ] : List (κ × α) → κ × α → List (κ × α)
  | [], e => [e]
  | (key, a) :: r, e => if key = e.1 then e :: r else (key, a) :: put r e

/-- The order of names: indices before all other names, by number. -/
def nameLe (a b : String) : Bool :=
  match index? a, index? b with
  | some m, some n => m ≤ n
  | some _, none => true
  | none, some _ => false
  | none, none => true

/-- Entries with their names in a record's order. -/
def arrange (r : Record α) : Record α := r.mergeSort fun a b => nameLe a.1 b.1

/-- The record made by giving these entries one after the other. -/
def ofList (entries : List (String × α)) : Record α := arrange (entries.foldl put [])

/-- The record with the entries of another laid over it. -/
def overlay (lower upper : Record α) : Record α := arrange (upper.foldl put lower)

/-- The entry of this name. -/
def get? (r : Record α) (name : String) : Option α := List.lookup name r

/-- The record with every entry changed. -/
def map (f : α → β) (r : Record α) : Record β := List.map (fun (name, a) => (name, f a)) r

end Record

end Litmus
