import Litmus.Exploration.Search

/-! Exploration of a program: every final state, with counts and a log, or why it stopped early. -/

namespace Litmus

/-- What an exploration found. -/
structure Explored where
  finals : List Final
  stats : Stats

/-- An exploration that is over: its log, the oldest line first, and its result. -/
structure Exploration where
  log : List LogLine
  result : Except Stop Explored

namespace Stats

/-- Counts as they are logged. -/
def record (s : Stats) : Record Value :=
  [("jobs", s.jobs), ("steps", s.steps), ("discards", s.discards), ("duplicates", s.duplicates), ("stuck", s.stuck)].map
    fun (name, n) => (name, .number (.whole n))

end Stats

/-- Explore a program. -/
def explore (p : Program) (o : Options) : Exploration :=
  let name := p.name.toList.map fun n => ("name", Value.text n)
  let begun := ({ frontier := .empty o.order } : Search).note "explore: start"
    (name ++ [("threads", .number (.whole p.threads.length)), ("frontier", .text o.order.text)])
  match (do (← begun.meet o p.start).run p o : Except Halted Search) with
  | .error h => ⟨h.log.reverse, .error h.stop⟩
  | .ok s =>
    let closed := s.note "explore: done" (("finals", .number (.whole s.finals.toList.length)) :: s.stats.record)
    ⟨closed.log.reverse, .ok ⟨s.finals.toList, s.stats⟩⟩

end Litmus
