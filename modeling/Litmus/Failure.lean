import Litmus.Fault

/-!
Failures: why the machine cannot go on, told once by what failed and again by whatever passed the
failure on. Wrapping keeps the earlier tellings as causes, and `Failure.diagnostics` reports each
diagnostic along the chain once.
-/

namespace Litmus

/-- One telling of a failure. The diagnostics are of any type that can tell two of them apart. -/
structure Telling (δ : Type) where
  reason : Reason
  message : String
  diagnostics : List δ := []
  context : Option (Record Value) := none
  recoverable : Bool := false

/-- A failure as it is told now, and the tellings it wraps, innermost last. -/
structure Failure (δ : Type) where
  told : Telling δ
  causes : List (Telling δ) := []

namespace Failure

variable {δ : Type}

/-- All tellings of a failure, the latest first. -/
def chain (f : Failure δ) : List (Telling δ) := f.told :: f.causes

/-- The failure told again with another message and more context. -/
def wrap (f : Failure δ) (message : String) (context : Record Value) : Failure δ where
  told := { f.told with message, context := some (Record.overlay (f.told.context.getD []) context) }
  causes := f.chain

/-- Whether a failure has this reason. -/
def hasReason (f : Failure δ) (r : Reason) : Bool := f.told.reason == r

/-- A list without what occurs in it again later. -/
def firsts [DecidableEq δ] (ds : List δ) : List δ :=
  ds.foldl (fun seen d => if d ∈ seen then seen else seen ++ [d]) []

/-- The diagnostics along the chain of causes, each once, where it first occurs. -/
def diagnostics [DecidableEq δ] (f : Failure δ) : List δ := firsts (f.chain.flatMap Telling.diagnostics)

end Failure

/-- The failure that a fault causes. -/
def Fault.failure (f : Fault) : Failure Diagnostic where
  told := {
    reason := f.code.reason
    message := f.message
    diagnostics := [f.diagnostic]
    context := some (Record.map Param.value f.params) }

end Litmus
