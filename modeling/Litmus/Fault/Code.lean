/-!
What can be wrong with what the machine is given, and the one thing it warns of. Every code has an
identifier, a severity, a category, from which the reason of a failure follows, and a template.
-/

namespace Litmus

/-- Whether the machine can go on. -/
inductive Severity where
  | error
  | warning
  deriving DecidableEq, Repr

/-- The text of a severity. -/
def Severity.text : Severity → String
  | .error => "error"
  | .warning => "warning"

/-- Why a failure failed. -/
inductive Reason where
  | unsupported
  | malformed
  | invariantViolated
  deriving DecidableEq, Repr

namespace Reason

/-- The text of a reason. -/
def text : Reason → String
  | .unsupported => "unsupported"
  | .malformed => "malformed"
  | .invariantViolated => "invariant-violated"

/-- All reasons. -/
def all : List Reason := [.unsupported, .malformed, .invariantViolated]

end Reason

/-- What kind of trouble a code stands for. -/
inductive Category where
  | unsupported
  | structural
  | exploration
  deriving DecidableEq, Repr

namespace Category

/-- The text of a category. -/
def text : Category → String
  | .unsupported => "Unsupported"
  | .structural => "Structure"
  | .exploration => "Exploration"

/-- The reason of the failures in a category. -/
def reason : Category → Reason
  | .unsupported => .unsupported
  | .structural => .malformed
  | .exploration => .invariantViolated

end Category

/-- The causes of faults, and the warning. -/
inductive Code where
  | effect
  | atomicUpdate
  | localBarrier
  | maintenanceReach
  | accessSize
  | indirectRegister
  | misaligned
  | unknownRegister
  | outsideScheme
  | readIndex
  | walkWithoutAddress
  | noWalk
  | offWalk
  | unreadDescriptors
  | pickOutside
  | level
  | truncatedPromise
  | maintenanceField
  | pendingPromises
  deriving DecidableEq, Repr

namespace Code

/-- All codes, in the order of their identifiers. -/
def all : List Code :=
  [.effect, .atomicUpdate, .localBarrier, .maintenanceReach, .accessSize, .indirectRegister, .misaligned,
   .unknownRegister, .outsideScheme, .readIndex, .walkWithoutAddress, .noWalk, .offWalk, .unreadDescriptors,
   .pickOutside, .level, .truncatedPromise, .maintenanceField, .pendingPromises]

/-- The identifier of a code. -/
def id : Code → String
  | .effect => "E0100"
  | .atomicUpdate => "E0101"
  | .localBarrier => "E0102"
  | .maintenanceReach => "E0103"
  | .accessSize => "E0104"
  | .indirectRegister => "E0105"
  | .misaligned => "E0201"
  | .unknownRegister => "E0202"
  | .outsideScheme => "E0203"
  | .readIndex => "E0204"
  | .walkWithoutAddress => "E0205"
  | .noWalk => "E0206"
  | .offWalk => "E0207"
  | .unreadDescriptors => "E0208"
  | .pickOutside => "E0209"
  | .level => "E0210"
  | .truncatedPromise => "E0211"
  | .maintenanceField => "E0212"
  | .pendingPromises => "W0001"

/-- The severity of a code. -/
def severity : Code → Severity
  | .pendingPromises => .warning
  | _ => .error

/-- The category of a code. -/
def category : Code → Category
  | .effect | .atomicUpdate | .localBarrier | .maintenanceReach | .accessSize | .indirectRegister => .unsupported
  | .pendingPromises => .exploration
  | _ => .structural

/-- The reason of the failures that a code causes. -/
def reason (c : Code) : Reason := c.category.reason

/-- The message of a code, with places for what the fault is about. -/
def template : Code → String
  | .effect => "Unsupported effect: {effect}"
  | .atomicUpdate => "Atomic read-modify-write unsupported"
  | .localBarrier => "Non-shareable barrier unsupported: {barrier}"
  | .maintenanceReach => "TLB maintenance unsupported: {regime} {shareability}"
  | .accessSize => "Access size {size} unsupported for {kind} access"
  | .indirectRegister => "Indirect register access unsupported: {reg}"
  | .misaligned => "Misaligned address: {pa}"
  | .unknownRegister => "Unknown register: {reg}"
  | .outsideScheme => "Physical address outside translation scheme: {pa}"
  | .readIndex => "Memory read index out of range: {index}"
  | .walkWithoutAddress => "Translation read without virtual address at {pa}"
  | .noWalk => "No translation in progress for {va}"
  | .offWalk => "Translation read at {pa} does not follow the walk"
  | .unreadDescriptors => "Translation for {va} ended with {count} unread descriptors"
  | .pickOutside => "Choice {pick} outside its space"
  | .level => "Invalid translation level: {level}"
  | .truncatedPromise => "Promise on a truncated memory view"
  | .maintenanceField => "TLB maintenance by {scope} requires {field}"
  | .pendingPromises => "Thread {tid} finished with {count} pending promises"

end Code

end Litmus
