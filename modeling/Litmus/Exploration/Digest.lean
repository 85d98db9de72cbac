import Litmus.Exploration.State
import Litmus.Value.Sha256

/-!
Digests of states, and of what is left of runs. Each is taken of a value that has all in which the states of one program may
differ: fields always in the same order, tables by their keys in ascending order, and caches as the texts of their lines.
-/

namespace Litmus

open Paging (Maintenance Scope)

/-- The name of a counter. -/
def Counter.text : Counter → String
  | .reads => "vrd"
  | .writes => "vwr"
  | .storeBarrier => "vdmbst"
  | .barrier => "vdmb"
  | .syncBarrier => "vdsb"
  | .speculation => "vspec"
  | .contextSync => "vcse"
  | .maintenance => "vtlbi"
  | .systemWrites => "vmsr"
  | .acquires => "vacq"
  | .releases => "vrel"

/-- Views as a value. -/
def Views.toValue (v : Views) : Value := .record (Counter.all.map fun c => (c.text, .count (v.get c)))

/-- Maintenance as a value. -/
def Paging.Maintenance.toValue : Maintenance → Value
  | .all => .record [("scope", .text Scope.all.text)]
  | .asid a => .record [("scope", .text Scope.asid.text), ("asid", .big a)]
  | .va a v lastLevel =>
    .record [("scope", .text Scope.va.text), ("asid", .big a), ("va", .big v), ("lastLevel", .bool lastLevel)]
  | .vaAllAsid v lastLevel =>
    .record [("scope", .text Scope.vaAllAsid.text), ("va", .big v), ("lastLevel", .bool lastLevel)]

/-- An event as a value. -/
def Event.toValue : Event → Value
  | .write tid loc value =>
    .record [("tag", .text "Write"), ("tid", .count tid), ("loc", .big loc), ("value", .big value)]
  | .maintain tid m => .record [("tag", .text "Tlbi"), ("tid", .count tid), ("tlbi", m.toValue)]

/-- Entries as a value: a list of pairs. -/
def Value.entries {κ α : Type} (key : κ → Value) (held : α → Value) (l : List (κ × α)) : Value :=
  .list (l.map fun (k, a) => .list [key k, held a])

/-- Registers as a value, by their names. -/
def Registers.toValue {α : Type} (held : α → Value) (r : Registers α) : Value :=
  .entries .text held (Text.sortByName r.toList)

/-- What an application register holds, as a value. -/
def Reg.toValue (r : Reg) : Value := .record [("value", .big r.value), ("view", .count r.view)]

/-- A write of a system register as a value. -/
def SystemWrite.toValue (w : SystemWrite) : Value :=
  .record [("reg", .text w.reg), ("value", .big w.held.value), ("view", .count w.held.view)]

/-- An own write to forward from, as a value. -/
def Forward.toValue (f : Forward) : Value :=
  .record [("time", .count f.time), ("view", .count f.view), ("exclusive", .bool f.exclusive)]

/-- A monitor as a value, or null. -/
def Monitor.toValue : Option Monitor → Value
  | some m => .record [("loc", .big m.loc), ("time", .count m.time), ("view", .count m.view)]
  | none => .null

/-- A slot as a value. -/
def Slot.toValue (s : Slot) : Value :=
  .record
    [("pc", .count s.pc),
     ("promised", .list (s.promised.map fun (n : Nat) => .count n)),
     ("promises", .list (s.thread.promises.map .count)),
     ("regs", s.thread.regs.toValue Reg.toValue),
     ("sregs", .list (s.thread.history.map SystemWrite.toValue)),
     ("sregCursor", .count s.thread.syncPoint),
     ("coh", .entries .big .count s.thread.coherence.toList),
     ("views", s.thread.views.toValue),
     ("fwdb", .entries .big Forward.toValue s.thread.forwards.toList),
     ("xclb", Monitor.toValue s.thread.monitor),
     ("tlbiCursors", .entries .count (fun (n : Nat) => .count n) s.thread.issued.toList),
     ("tlb", .list (s.thread.cache.describe.map .text))]

/-- A state as a value. -/
def State.toValue (s : State) : Value :=
  .record [("events", .list (s.memory.shown.map Event.toValue)), ("threads", .list (s.threads.map Slot.toValue))]

/-- The digest of a state. -/
def State.digest (s : State) : String := s.toValue.digest

/-- What is left of a run, as a value. -/
def Final.toValue (f : Final) : Value :=
  .record
    [("memory", .entries .big (fun b => .count b.toNat) f.memory.toList),
     ("regs", .list (f.regs.map (Registers.toValue .big)))]

/-- The digest of what is left of a run. -/
def Final.digest (f : Final) : String := f.toValue.digest

end Litmus
