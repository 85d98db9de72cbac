import Litmus.Exploration.Options
import Litmus.Number.Power
import Litmus.Text.Blank
import Litmus.Value

/-!
Settings of explorations: the defaults, and settings read from an environment or from plain data, laid
over one another and checked. What cannot be read is as if it were not there.
-/

namespace Litmus

/-- How to explore, and whether to log what happens. -/
structure Settings where
  exploration : Options := {}
  trace : Bool := false
  deriving DecidableEq, Repr, Inhabited

namespace Settings

/-! ### Reading -/

/-- A count that a number stands for: a whole number. -/
def countOfNumber (n : Number) : Option Number :=
  match n.rounded with
  | .whole m => some (.whole m)
  | _ => none

/-- A count that a text stands for: ASCII digits, rounded as numbers are. -/
def countOfText (s : String) : Option Number := (Text.natural? s).map fun n => (Number.whole n).rounded

/-- A count. -/
def count? : Value → Option Number
  | .number n => countOfNumber n
  | .text s => countOfText s
  | _ => none

/-- An order of exploration. -/
def order? : Value → Option Order
  | .text s => Order.ofText? s
  | _ => none

/-- A flag that a text stands for. -/
def flagOfText : String → Option Bool
  | "true" | "1" => some true
  | "false" | "0" => some false
  | _ => none

/-- A flag. -/
def flag? : Value → Option Bool
  | .bool b => some b
  | .text s => flagOfText s
  | _ => none

/-! ### Laying over -/

/-- Some settings, to be laid over others. -/
structure Overrides where
  order : Option Order := none
  maxJobs : Option Number := none
  maxSteps : Option Number := none
  maxChooseBits : Option Number := none
  trace : Option Bool := none
  deriving Inhabited

/-- The settings with others laid over them. -/
def overlay (s : Settings) (v : Overrides) : Settings where
  exploration := {
    order := v.order.getD s.exploration.order
    maxJobs := v.maxJobs.getD s.exploration.maxJobs
    maxSteps := v.maxSteps.getD s.exploration.maxSteps
    maxChooseBits := v.maxChooseBits.getD s.exploration.maxChooseBits }
  trace := v.trace.getD s.trace

/-- The default settings with these laid over them, one after the other. -/
def merge (vs : List Overrides) : Settings := vs.foldl overlay {}

/-! ### Environments and plain data -/

/-- The stem of the names of environment variables. -/
def defaultStem : String := "PROMISING"

/-- Settings from the variables of an environment whose names begin with `stem`. -/
def ofEnvironment (stem : String) (env : Record String) : Settings :=
  let read (name : String) : Option Value := (env.get? s!"{stem}_{name}").map Value.text
  merge [{
    order := (read "FRONTIER").bind order?
    maxJobs := (read "MAX_JOBS").bind count?
    maxSteps := (read "MAX_STEPS").bind count?
    maxChooseBits := (read "MAX_CHOOSE_BITS").bind count?
    trace := (read "TRACE").bind flag? }]

/-- The entries of a value, if it has any. -/
def entries : Option Value → Record Value
  | some (.record fields) => fields
  | _ => []

/-- The first of the named entries that is there and not null. -/
def first? (r : Record Value) (names : List String) : Option Value :=
  names.findSome? fun name =>
    match r.get? name with
    | some .null | none => none
    | some v => some v

/-- Settings from plain data, in which the budgets may be spelled in either of two ways. -/
def ofData (data : Record Value) : Settings :=
  let exploration := entries (data.get? "exploration")
  let trace := entries (data.get? "trace")
  merge [{
    order := (exploration.get? "frontier").bind order?
    maxJobs := (first? exploration ["maxJobs", "max_jobs"]).bind count?
    maxSteps := (first? exploration ["maxSteps", "max_steps"]).bind count?
    maxChooseBits := (first? exploration ["maxChooseBits", "max_choose_bits"]).bind count?
    trace := (trace.get? "enabled").bind flag? }]

/-! ### Checking -/

/-- What is wrong with settings, and what is doubtful about them. -/
structure Validation where
  errors : List String
  warnings : List String
  deriving DecidableEq, Repr

/-- Whether nothing is wrong. -/
def Validation.isValid (v : Validation) : Bool := v.errors.isEmpty

/-- The text of the number of values of this width in bits, which is not negative. -/
def valuesText (bits : Number) : String := Number.binaryText (bits.nearest.bind Number.Binary.power)

/-- Check settings. -/
def validate (s : Settings) : Validation where
  errors :=
    (if s.exploration.maxJobs < 1 then ["maxJobs must be at least 1"] else [])
      ++ (if s.exploration.maxSteps < 1 then ["maxSteps must be at least 1"] else [])
  warnings :=
    let bits := s.exploration.maxChooseBits
    if 16 < bits then [s!"maxChooseBits {bits.text} enumerates {valuesText bits} values per Choose"] else []

end Settings

end Litmus
