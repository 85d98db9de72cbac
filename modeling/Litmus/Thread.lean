import Litmus.Fault
import Litmus.Thread.Register
import Litmus.Thread.Views
import Litmus.Paging.Cache

/-!
Threads: what each has promised, what its registers hold and since when, the views it keeps, and the
table walks it has cached.
-/

namespace Litmus

open Paging (Cache)

/-- Something for some times or addresses. -/
abbrev Table (α : Type) := Std.ExtTreeMap Int α

/-- The value of a register, and the view it depends on. -/
structure Reg where
  value : Int
  view : View
  deriving DecidableEq, Repr, Inhabited

/-- A write of a system register. -/
structure SystemWrite where
  reg : String
  held : Reg
  deriving DecidableEq, Repr

/-- A thread's own last write of a cell, from which it may forward. -/
structure Forward where
  time : View
  view : View
  exclusive : Bool
  deriving DecidableEq, Repr

/-- An exclusive load that no exclusive store has answered: its cell, and the write it read. -/
structure Monitor where
  loc : Int
  time : View
  view : View
  deriving DecidableEq, Repr

/-- The state of a thread. System registers have a history, the oldest write first, of which the part
before `syncPoint` was there at the last context synchronization. Maintenance is recorded with the
`syncPoint` in force when it was issued. -/
structure Thread where
  tid : Int
  promises : List View := []
  views : Views := {}
  regs : Registers Reg := ∅
  history : List SystemWrite := []
  syncPoint : Nat := 0
  coherence : Table View := ∅
  forwards : Table Forward := ∅
  monitor : Option Monitor := none
  issued : Table Nat := ∅
  cache : Cache := .empty
  initial : Registers Int
  deriving DecidableEq

namespace Thread

/-- A thread that has not done anything. -/
def start (tid : Int) (initial : Registers Int) : Thread := { tid, initial }

/-! ### Views, promises and cells -/

/-- Raise a counter to a view, if that is later. -/
def raise (t : Thread) (c : Counter) (view : View) : Thread := { t with views := t.views.raise c view }

/-- The view up to which a thread has seen a cell. -/
def coherenceOf (t : Thread) (loc : Int) : View := t.coherence.getD loc 0

/-- Raise the view up to which a cell has been seen. -/
def see (t : Thread) (loc : Int) (view : View) : Thread :=
  { t with coherence := t.coherence.insert loc (View.join (t.coherenceOf loc) view) }

/-- Remember an own write to forward from. -/
def forward (t : Thread) (loc : Int) (f : Forward) : Thread := { t with forwards := t.forwards.insert loc f }

/-- Set or clear the monitor of exclusive loads. -/
def monitored (t : Thread) (m : Option Monitor) : Thread := { t with monitor := m }

/-- Add a promise. -/
def pushPromise (t : Thread) (time : View) : Thread := { t with promises := t.promises ++ [time] }

/-- Take a promise away. -/
def removePromise (t : Thread) (time : View) : Thread :=
  { t with promises := t.promises.filter fun p => p != time }

/-- Replace the cached walks. -/
def withCache (t : Thread) (cache : Cache) : Thread := { t with cache }

/-- Whether every promise has been fulfilled. -/
def hasNoPromises (t : Thread) : Bool := t.promises.isEmpty

/-! ### Registers -/

/-- What a register holds before any write. -/
def initialReg (t : Thread) (reg : String) : Except Fault Reg :=
  match t.initial[reg]? with
  | some value => .ok ⟨value, 0⟩
  | none => .error (.unknownRegister reg)

/-- What an application register holds. -/
def readReg (t : Thread) (reg : String) : Except Fault Reg :=
  match t.regs[reg]? with
  | some r => .ok r
  | none => t.initialReg reg

/-- Write an application register. -/
def writeReg (t : Thread) (reg : String) (r : Reg) : Thread := { t with regs := t.regs.insert reg r }

/-- What some writes gave a register, the oldest first. -/
def heldBy (reg : String) (writes : List SystemWrite) : List Reg :=
  (writes.filter fun w => w.reg = reg).map (·.held)

/-- The last write of a system register before a position of its history, else its initial value. -/
def readSystemAt (t : Thread) (reg : String) (position : Int) : Except Fault Reg :=
  match (heldBy reg (t.history.take position.toNat)).getLast? with
  | some r => .ok r
  | none => t.initialReg reg

/-- What a system register may hold from a position of its history on: its value there, and each later
write. -/
def readSystemFrom (t : Thread) (reg : String) (position : Int) : Except Fault (List Reg) := do
  return (← t.readSystemAt reg position) :: heldBy reg (t.history.drop position.toNat)

/-- The newest value of a system register, as the thread itself reads it. -/
def readSystem (t : Thread) (reg : String) : Except Fault Reg := t.readSystemAt reg t.history.length

/-- Write a system register. -/
def writeSystem (t : Thread) (reg : String) (r : Reg) : Thread :=
  ({ t with history := t.history ++ [⟨reg, r⟩] } : Thread).raise .systemWrites r.view

/-- What a register of either kind holds for the thread itself. -/
def holds (t : Thread) (reg : String) : Except Fault Reg :=
  if Register.isSystem reg then t.readSystem reg else t.readReg reg

/-- Write a register of either kind. -/
def hold (t : Thread) (reg : String) (r : Reg) : Thread :=
  if Register.isSystem reg then t.writeSystem reg r else t.writeReg reg r

/-- The values of all registers, as they are after every write. -/
def plainRegs (t : Thread) : Registers Int :=
  let own := t.regs.toList.foldl (fun m (reg, r) => m.insert reg r.value) t.initial
  t.history.foldl (fun m w => m.insert w.reg w.held.value) own

/-! ### Context synchronization and maintenance -/

/-- Make the writes of system registers so far visible, and raise the view of synchronization. -/
def contextSync (t : Thread) : Thread :=
  let v := t.views
  let view := View.join v.speculation (View.join v.syncBarrier v.systemWrites)
  { t.raise .contextSync view with syncPoint := t.history.length }

/-- Remember maintenance issued at a time. -/
def recordIssued (t : Thread) (time : View) : Thread := { t with issued := t.issued.insert time t.syncPoint }

end Thread

end Litmus
