import Litmus.Fault.Code
import Litmus.Text.Template
import Litmus.Value

/-!
Faults: a code with the parameters that fill its template. A fault is raised by whatever meets input
that the machine cannot represent; its diagnostic is what gets reported of it.
-/

namespace Litmus

/-- A parameter of a message. -/
inductive Param where
  | text (s : String)
  | number (n : Number)
  | big (n : Int)
  deriving DecidableEq, Repr

namespace Param

/-- How a parameter is shown in a message. -/
def shown : Param → String
  | .text s => s
  | .number n => n.text
  | .big n => Text.hexWord n

/-- A parameter as a value. -/
def value : Param → Value
  | .text s => .text s
  | .number n => .number n
  | .big n => .big n

end Param

/-- A report with a code: its message filled, and the parameters it was filled from, if any were given. -/
structure Diagnostic where
  code : Code
  message : String
  data : Option (Record Param)
  deriving DecidableEq, Repr

namespace Diagnostic

/-- The diagnostic of a code. -/
def make (code : Code) (params : Option (Record Param)) : Diagnostic where
  code
  message := Text.fill code.template (Record.map Param.shown (params.getD []))
  data := params

end Diagnostic

/-- Something that the machine cannot represent. -/
structure Fault where
  code : Code
  params : Record Param := []
  deriving DecidableEq, Repr

namespace Fault

/-- What is reported of a fault. -/
def diagnostic (f : Fault) : Diagnostic := Diagnostic.make f.code (some f.params)

/-- The message of a fault. -/
def message (f : Fault) : String := f.diagnostic.message

/-! ### The faults of the machine -/

def localBarrier (barrier : String) : Fault := ⟨.localBarrier, [("barrier", .text barrier)]⟩

def maintenanceReach (regime shareability : String) : Fault :=
  ⟨.maintenanceReach, [("regime", .text regime), ("shareability", .text shareability)]⟩

def accessSize (size : Number) (kind : String) : Fault :=
  ⟨.accessSize, [("size", .number size), ("kind", .text kind)]⟩

def indirectRegister (reg : String) : Fault := ⟨.indirectRegister, [("reg", .text reg)]⟩

def misaligned (pa : Int) : Fault := ⟨.misaligned, [("pa", .big pa)]⟩

def unknownRegister (reg : String) : Fault := ⟨.unknownRegister, [("reg", .text reg)]⟩

def outsideScheme (pa : Int) : Fault := ⟨.outsideScheme, [("pa", .big pa)]⟩

def readIndex (index : Number) : Fault := ⟨.readIndex, [("index", .number index)]⟩

def walkWithoutAddress (pa : Int) : Fault := ⟨.walkWithoutAddress, [("pa", .big pa)]⟩

def noWalk (va : Int) : Fault := ⟨.noWalk, [("va", .big va)]⟩

def offWalk (pa : Int) : Fault := ⟨.offWalk, [("pa", .big pa)]⟩

def unreadDescriptors (va : Int) (count : Nat) : Fault :=
  ⟨.unreadDescriptors, [("va", .big va), ("count", .number (.whole count))]⟩

def pickOutside (pick : Int) : Fault := ⟨.pickOutside, [("pick", .big pick)]⟩

def level (level : Number) : Fault := ⟨.level, [("level", .number level)]⟩

def truncatedPromise : Fault := ⟨.truncatedPromise, []⟩

def maintenanceField (scope field : String) : Fault :=
  ⟨.maintenanceField, [("scope", .text scope), ("field", .text field)]⟩

end Fault

/-- The class of an error that is no fault: one of no class of its own, or a number out of the range of what is done
with it. -/
inductive ErrorClass where
  | error
  | rangeError
  deriving DecidableEq, Repr

/-- The name of a class of errors. -/
def ErrorClass.text : ErrorClass → String
  | .error => "Error"
  | .rangeError => "RangeError"

/-- What can be thrown: a fault, or an error of another class with its message. -/
inductive Trouble where
  | fault (f : Fault)
  | other (kind : ErrorClass) (message : String)
  deriving DecidableEq, Repr

/-- The message of what was thrown. -/
def Trouble.message : Trouble → String
  | .fault f => f.message
  | .other _ m => m

end Litmus
