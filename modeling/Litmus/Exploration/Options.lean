import Litmus.Exploration.Frontier
import Litmus.Number

/-! Options of an exploration: its order, and what it may cost. -/

namespace Litmus

/-- The order of an exploration, and its budgets: of states, of instructions run, and of the width of a
choice of bits. An infinite budget sets no limit. -/
structure Options where
  order : Order := .dfs
  maxJobs : Number := 100000
  maxSteps : Number := 1000000
  maxChooseBits : Number := 2
  deriving DecidableEq, Repr, Inhabited

/-- The budgets of an exploration. -/
inductive Budget where
  | jobs
  | steps
  | chooseBits
  deriving DecidableEq, Repr

namespace Budget

/-- The text of a budget. -/
def text : Budget → String
  | .jobs => "maxJobs"
  | .steps => "maxSteps"
  | .chooseBits => "maxChooseBits"

/-- The limit that options put on a budget. -/
def limit (o : Options) : Budget → Number
  | .jobs => o.maxJobs
  | .steps => o.maxSteps
  | .chooseBits => o.maxChooseBits

end Budget

end Litmus
