import Litmus.View

/-! The views that a thread keeps of what it has done. They only rise. -/

namespace Litmus

/-- What a thread keeps a view of. -/
inductive Counter where
  | reads
  | writes
  | storeBarrier
  | barrier
  | syncBarrier
  | speculation
  | contextSync
  | maintenance
  | systemWrites
  | acquires
  | releases
  deriving DecidableEq, Repr

/-- All counters. -/
def Counter.all : List Counter :=
  [.reads, .writes, .storeBarrier, .barrier, .syncBarrier, .speculation, .contextSync, .maintenance,
   .systemWrites, .acquires, .releases]

/-- A view for each counter: of reads and writes, of the three barriers, of operands that speculation
depends on, of the last context synchronization, of maintenance, of writes of system registers, and of
acquire reads and release writes. -/
structure Views where
  reads : View := 0
  writes : View := 0
  storeBarrier : View := 0
  barrier : View := 0
  syncBarrier : View := 0
  speculation : View := 0
  contextSync : View := 0
  maintenance : View := 0
  systemWrites : View := 0
  acquires : View := 0
  releases : View := 0
  deriving DecidableEq, Repr, Inhabited

namespace Views

/-- The view of a counter. -/
def get (v : Views) : Counter → View
  | .reads => v.reads
  | .writes => v.writes
  | .storeBarrier => v.storeBarrier
  | .barrier => v.barrier
  | .syncBarrier => v.syncBarrier
  | .speculation => v.speculation
  | .contextSync => v.contextSync
  | .maintenance => v.maintenance
  | .systemWrites => v.systemWrites
  | .acquires => v.acquires
  | .releases => v.releases

/-- The views with another one for a counter. -/
def set (v : Views) (c : Counter) (view : View) : Views :=
  match c with
  | .reads => { v with reads := view }
  | .writes => { v with writes := view }
  | .storeBarrier => { v with storeBarrier := view }
  | .barrier => { v with barrier := view }
  | .syncBarrier => { v with syncBarrier := view }
  | .speculation => { v with speculation := view }
  | .contextSync => { v with contextSync := view }
  | .maintenance => { v with maintenance := view }
  | .systemWrites => { v with systemWrites := view }
  | .acquires => { v with acquires := view }
  | .releases => { v with releases := view }

/-- Raise a counter to a view, if that is later. -/
def raise (v : Views) (c : Counter) (view : View) : Views := v.set c (View.join (v.get c) view)

theorem get_set (v : Views) (c d : Counter) (view : View) :
    (v.set c view).get d = if d = c then view else v.get d := by
  cases c <;> cases d <;> rfl

end Views

end Litmus
