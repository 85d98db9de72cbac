import Litmus.Instruction.Frame

/-! Barriers, context synchronization, and maintenance of cached table walks. -/

namespace Litmus.Frame

open Paging (Request Cache Shareability)

/-- The cache without what these events maintain. -/
def maintained (cache : Cache) (events : List Event) : Cache :=
  events.foldl (fun c e => match e with
    | .maintain _ m => c.invalidate m
    | .write _ _ _ => c) cache

/-- Synchronize the context: raise its view, and drop from the cache what the maintenance that it has
now passed invalidates. -/
def synchronize (f : Frame) : Frame :=
  let synced := f.thread.contextSync
  let passed := ((f.memory.cut synced.views.contextSync).after f.thread.views.contextSync).shown
  { f with thread := synced.withCache (maintained synced.cache passed) }

/-- The counter that a barrier of memory accesses raises, and to which view. -/
def dmbEffect (v : Views) : BarrierKind → Counter × View
  | .sy => (.barrier, View.joinAll [v.reads, v.writes, v.contextSync, v.syncBarrier])
  | .ld => (.barrier, View.joinAll [v.reads, v.contextSync, v.syncBarrier])
  | .st => (.storeBarrier, View.joinAll [v.writes, v.contextSync, v.syncBarrier])

/-- The counter that a barrier of accesses and maintenance raises, and to which view. -/
def dsbEffect (v : Views) : BarrierKind → Counter × View
  | .sy => (.syncBarrier, View.joinAll [v.reads, v.writes, v.maintenance, v.contextSync])
  | .ld => (.syncBarrier, View.join v.reads v.contextSync)
  | .st => (.syncBarrier, View.joinAll [v.writes, v.maintenance, v.contextSync])

/-- A barrier. One that reaches no other observer is not part of the machine. -/
def barrier (f : Frame) (b : Barrier) : Except Fault Frame :=
  let raised (domain : Shareability) (e : Counter × View) : Except Fault Frame :=
    if domain = .nsh then .error (.localBarrier b.text)
    else .ok { f with thread := f.thread.raise e.1 e.2 }
  match b with
  | .isb => .ok f.synchronize
  | .dmb kind domain => raised domain (dmbEffect f.thread.views kind)
  | .dsb kind domain => raised domain (dsbEffect f.thread.views kind)

/-- What must come before maintenance, given the view of its operands. -/
def maintainPre (f : Frame) (operands : View) : View :=
  View.joinAll [f.thread.views.contextSync, f.thread.views.syncBarrier, f.scratch.strict, operands]

/-- Issue maintenance. -/
def maintain (f : Frame) (req : Request) (deps : Deps) : Outcome Frame := do
  let m ← req.maintenance
  let operands ← f.depsView deps
  let (memory, t, promised) ← f.place (.maintain f.thread.tid m)
  if t ≤ f.maintainPre operands then .discard .maintenanceOrder (some s!"TLBI at {t}")
  else
    let thread := if promised then f.thread.removePromise t else f.thread
    .done {
      scratch := f.scratch.addStrict t
      thread := (thread.raise .maintenance t).recordIssued t
      memory }

end Litmus.Frame
