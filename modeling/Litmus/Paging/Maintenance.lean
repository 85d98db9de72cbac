import Litmus.Paging.Tag

/-!
Maintenance of cached table walks: what an instruction asks for, what memory records of it, and
which tags it hits. Only maintenance broadcast at the EL1&0 regime is part of the machine.
-/

namespace Litmus.Paging

/-- The regime of page tables that maintenance is for. -/
inductive Regime where
  | el10
  | el2
  | el3
  deriving DecidableEq, Repr

/-- The text of a regime. -/
def Regime.text : Regime → String
  | .el10 => "EL10"
  | .el2 => "EL2"
  | .el3 => "EL3"

/-- How far an operation reaches. -/
inductive Shareability where
  | nsh
  | ish
  | osh
  deriving DecidableEq, Repr

/-- The text of a shareability. -/
def Shareability.text : Shareability → String
  | .nsh => "NSH"
  | .ish => "ISH"
  | .osh => "OSH"

/-- What maintenance selects by. -/
inductive Scope where
  | all
  | asid
  | va
  | vaAllAsid
  deriving DecidableEq, Repr

/-- The text of a scope. -/
def Scope.text : Scope → String
  | .all => "All"
  | .asid => "Asid"
  | .va => "Va"
  | .vaAllAsid => "VaAllAsid"

/-- Maintenance as an instruction asks for it. -/
structure Request where
  regime : Regime := .el10
  shareability : Shareability := .ish
  scope : Scope
  asid : Option Int := none
  va : Option Int := none
  lastLevel : Option Bool := none
  deriving DecidableEq, Repr

/-- Maintenance as memory records it: of everything, of an address space, or of an address in one
address space or in all. -/
inductive Maintenance where
  | all
  | asid (asid : Int)
  | va (asid va : Int) (lastLevel : Bool)
  | vaAllAsid (va : Int) (lastLevel : Bool)
  deriving DecidableEq, Repr

namespace Request

/-- A field that the scope of the request needs. -/
def need (r : Request) (field : String) (value : Option Int) : Except Fault Int :=
  match value with
  | some n => .ok n
  | none => .error (.maintenanceField r.scope.text field)

/-- The maintenance that a request asks for. -/
def maintenance (r : Request) : Except Fault Maintenance := do
  if r.regime ≠ .el10 ∨ r.shareability = .nsh then
    throw (.maintenanceReach r.regime.text r.shareability.text)
  let lastLevel := r.lastLevel.getD false
  match r.scope with
  | .all => return .all
  | .asid => return .asid (← r.need "asid" r.asid)
  | .va => return .va (← r.need "asid" r.asid) (← r.need "va" r.va) lastLevel
  | .vaAllAsid => return .vaAllAsid (← r.need "va" r.va) lastLevel

end Request

namespace Maintenance

/-- Whether maintenance selects an address space; what belongs to all of them has none. Maintenance
of one address space as a whole leaves that alone, maintenance of an address does not. -/
def selects : Maintenance → Option Int → Bool
  | .all, _ => true
  | .asid a, space => space == some a
  | .va a _ _, space => space == none || space == some a
  | .vaAllAsid _ _, _ => true

/-- The address that maintenance is of, if it is of one. -/
def address? : Maintenance → Option Int
  | .va _ v _ | .vaAllAsid v _ => some v
  | .all | .asid _ => none

/-- Whether maintenance drops what is cached under a tag. -/
def hits (m : Maintenance) (t : Tag) : Bool :=
  m.selects t.asid && m.address?.all fun v => region t.level v == t.region

/-- Whether maintenance affects a context. Its level is checked when addresses are compared. -/
def affects (m : Maintenance) (c : Context) : Except Fault Bool :=
  match m.address? with
  | none => .ok (m.selects c.asid)
  | some _ => do return m.hits (← c.tag)

end Maintenance

end Litmus.Paging
