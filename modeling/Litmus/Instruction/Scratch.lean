import Litmus.Thread

/-!
What a thread keeps while one instruction runs: the views of what the instruction has read, the walks
it has in flight, and the last time at which all walks it took are still good.
-/

namespace Litmus

open Paging (Step Context)

/-- A walk in flight: when it was taken, the descriptors that are still to be read, until when it
holds, and what it leaves in the cache. -/
structure Flight where
  time : View
  remaining : List Step
  bound : Number
  descriptors : List Int
  context : Option Context
  deriving DecidableEq, Repr

/-- The state of one instruction. -/
structure Scratch where
  regView : View := 0
  strict : View := 0
  readViews : List View := []
  bound : Number := .infinity
  flights : Table Flight := ∅
  deriving DecidableEq

namespace Scratch

/-- The state before the first effect. -/
def start : Scratch := {}

/-- A register with this view was read. -/
def addRegRead (s : Scratch) (view : View) : Scratch := { s with regView := View.join s.regView view }

/-- All further effects come after this view. -/
def addStrict (s : Scratch) (view : View) : Scratch := { s with strict := View.join s.strict view }

/-- Memory was read with this view, and all further effects come after it. -/
def addRead (s : Scratch) (view : View) : Scratch :=
  { s.addStrict view with readViews := s.readViews ++ [view] }

/-- The view of the read with this number, counted from zero. -/
def readView (s : Scratch) (index : Number) : Except Fault View :=
  match index with
  | .whole n =>
    match if 0 ≤ n then s.readViews[n.toNat]? else none with
    | some view => .ok view
    | none => .error (.readIndex index)
  | .fraction _ _ | .infinite _ => .error (.readIndex index)

/-- A walk of a page takes off. -/
def startWalk (s : Scratch) (page : Int) (w : Flight) : Scratch :=
  { s.addStrict w.time with flights := s.flights.insert page w, bound := View.meet s.bound w.bound }

/-- The walk of a page, or a fault about the address that asked for it. -/
def flight (s : Scratch) (page va : Int) : Except Fault Flight :=
  match s.flights[page]? with
  | some w => .ok w
  | none => .error (.noWalk va)

/-- Read the next descriptor of the walk of a page, which must lie at `pa`. The walk is given as it was
before. -/
def nextStep (s : Scratch) (page va pa : Int) : Except Fault (Scratch × Step × Flight) := do
  let w ← s.flight page va
  match w.remaining with
  | [] => throw (.offWalk pa)
  | step :: remaining =>
    if step.pa ≠ pa then throw (.offWalk pa)
    return ({ s with flights := s.flights.insert page { w with remaining } }, step, w)

/-- The walk of a page lands; all its descriptors must have been read. -/
def endWalk (s : Scratch) (page va : Int) : Except Fault (Scratch × Flight) := do
  let w ← s.flight page va
  if !w.remaining.isEmpty then throw (.unreadDescriptors va w.remaining.length)
  return ({ s with flights := s.flights.erase page }, w)

end Scratch

end Litmus
