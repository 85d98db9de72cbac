import Litmus.Paging.Walk

/-!
Tags: which addresses of which address space a finished walk serves. A `Context` is a tag whose level
is still any number; it is checked where the level is used.
-/

namespace Litmus.Paging

/-- A region of addresses at a level, in one address space or in all. -/
structure Tag where
  level : Level
  region : Int
  asid : Option Int
  deriving DecidableEq, Repr

/-- The tag of the region of `va` at a level. -/
def Tag.of (level : Level) (va : Int) (asid : Option Int) : Tag := ⟨level, Paging.region level va, asid⟩

/-- A region of addresses at a level that has not been checked. -/
structure Context where
  level : Number
  region : Int
  asid : Option Int
  deriving DecidableEq, Repr

namespace Context

/-- The tag that a context names. -/
def tag (c : Context) : Except Fault Tag := do return ⟨← Level.check c.level, c.region, c.asid⟩

/-- The context of the region of `va` at a level. -/
def of (level : Number) (va : Int) (asid : Option Int) : Except Fault Context := do
  return ⟨level, Paging.region (← Level.check level) va, asid⟩

end Context

/-- A tag as a context. -/
def Tag.context (t : Tag) : Context := ⟨t.level.number, t.region, t.asid⟩

/-- The tag that a finished walk of `va` fills, which a faulting walk does not. -/
def Walk.leaf? (w : Walk) (va asid : Int) : Option Tag :=
  match w.landing with
  | .mapped _ level global => some (Tag.of level va (if global then none else some asid))
  | .fault _ => none

/-- The tag whose maintenance ends the walk: the one it fills, else that of the fault. -/
def Walk.guard (w : Walk) (va asid : Int) : Tag :=
  (w.leaf? va asid).getD (Tag.of w.landing.level va (some asid))

/-! ### Levels given as numbers -/

/-- `tableIndex` at a level given as a number. -/
def tableIndexAt (level : Number) (va : Int) : Except Fault Int := do
  return tableIndex (← Level.check level) va

/-- `descriptorAddress` at a level given as a number, which is checked after the table. -/
def descriptorAddressAt (level : Number) (table va : Int) : Except Fault Int := do
  let table ← checkAddress table
  descriptorAddress (← Level.check level) table va

/-- `decode` at a level given as a number. An invalid descriptor faults at any level: nothing then. -/
def decodeAt (level : Number) (va descriptor : Int) : Except Fault (Option Decoded) :=
  if isValid descriptor then do return some (decode (← Level.check level) va descriptor) else .ok none

end Litmus.Paging
