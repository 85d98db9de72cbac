import Litmus.Paging.Maintenance

/-! Events of memory: writes of cells, and maintenance of cached table walks. -/

namespace Litmus

open Paging (Maintenance)

/-- What a thread did to memory. -/
inductive Event where
  | write (tid : Int) (loc value : Int)
  | maintain (tid : Int) (m : Maintenance)
  deriving DecidableEq, Repr

namespace Event

/-- Whether an event writes a cell. -/
def writes (e : Event) (loc : Int) : Bool :=
  match e with
  | .write _ l _ => l == loc
  | .maintain _ _ => false

/-- The thread of an event. -/
def tid : Event → Int
  | .write tid _ _ => tid
  | .maintain tid _ => tid

/-- The cell that an event writes. -/
def location? : Event → Option Int
  | .write _ loc _ => some loc
  | .maintain _ _ => none

end Event

/-- An address that a cell can have: a multiple of eight. -/
def checkLocation (pa : Int) : Except Fault Int := if pa % 8 = 0 then .ok pa else .error (.misaligned pa)

end Litmus
