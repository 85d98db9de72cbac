import Litmus.Instruction.Frame

/-!
Table walks. When a walk starts, all its descriptors are chosen at once: those of memory at some time
since the last context synchronization, or those of a cached walk. Each choice carries a bound, the
last time before maintenance ends it; no access of the instruction may get past that.
-/

namespace Litmus

open Paging

/-- A walk that may be taken. -/
structure Candidate where
  time : View
  base : Int
  asid : Int
  walk : Walk
  bound : Number
  leaf : Option Tag
  deriving DecidableEq

namespace Candidate

/-- The last time at which a walk taken at `time` is good under its tag. -/
def validUntil (memory : Memory) (time : View) (tag : Tag) : Number :=
  let ends := (memory.after time).entries.find? fun (_, e) =>
    match e with
    | .maintain _ m => m.hits tag
    | .write _ _ _ => false
  match ends with
  | some (t, _) => .whole (t - 1)
  | none => .infinity

/-- The candidate of a walk of `va` taken at `time`. -/
def of (memory : Memory) (va : Int) (time : View) (base asid : Int) (walk : Walk) : Candidate where
  time
  base
  asid
  walk
  bound := validUntil memory time (walk.guard va asid)
  leaf := walk.leaf? va asid

/-- What tells candidates apart: the address space, the bound, and what is read where. -/
def key (c : Candidate) : Int × Number × List (Int × Int) :=
  (c.asid, c.bound, c.walk.steps.map fun s => (s.pa, s.descriptor))

/-- The first candidate of each key. -/
def distinct (cs : List Candidate) : List Candidate :=
  cs.foldl (fun kept c => if kept.any fun k => k.key = c.key then kept else kept ++ [c]) []

/-- The walk in flight of a candidate. -/
def flight (c : Candidate) : Flight where
  time := c.time
  remaining := c.walk.steps
  bound := c.bound
  descriptors := c.walk.descriptors
  context := c.leaf.map Tag.context

end Candidate

namespace Frame

/-- The tags under which walks of `va` may be cached, level by level, those of the address space first. -/
def cachedTags (va asid : Int) : List Tag :=
  Level.mapping.flatMap fun level => [Tag.of level va (some asid), Tag.of level va none]

/-- The cached walks of `va`, replayed at the last context synchronization. -/
def cachedCandidates (f : Frame) (va base asid : Int) : Except Fault (List Candidate) := do
  let found ← (cachedTags va asid).mapM fun tag =>
    (f.thread.cache.find tag).mapM fun descriptors => do
      let w ← replay va base descriptors
      return if w.leaf? va asid = some tag then
          some (Candidate.of f.memory va f.thread.views.contextSync base asid w)
        else none
  return found.flatten.filterMap id

/-- The times since the last context synchronization. -/
def walkTimes (f : Frame) : List View :=
  let first := f.thread.views.contextSync
  (List.range (f.memory.length - first + 1).toNat).map fun (i : Nat) => first + i

/-- The walks of `va` in memory, at each time since the last context synchronization. A descriptor lies
at a multiple of eight, so it is a cell. -/
def freshCandidates (f : Frame) (va base asid : Int) : Except Fault (List Candidate) :=
  f.walkTimes.mapM fun t => do
    let w ← walk va base fun _ pa => ((f.memory.cut t).latest pa).value
    return Candidate.of f.memory va t base asid w

/-- All walks of `va` that may be taken, for each value that the table register may hold. -/
def walkCandidates (f : Frame) (va : Int) : Except Fault (List Candidate) := do
  let held ← f.thread.readSystemFrom Register.tables f.thread.syncPoint
  let found ← held.mapM fun r => do
    let base := Register.tableBase r.value
    let asid := Register.addressSpace r.value
    return (← f.cachedCandidates va base asid) ++ (← f.freshCandidates va base asid)
  return Candidate.distinct found.flatten

/-- Start the walk of an address. -/
def startWalk (f : Frame) (va : Int) : Outcome (Frame × WalkStart) := do
  let candidates ← f.walkCandidates va
  Outcome.among candidates fun c =>
    .done ({ f with scratch := f.scratch.startWalk (pageOf va) c.flight }, ⟨c.base, c.asid⟩)

/-- End the walk of an address. A mapping that no maintenance is going to end is cached. -/
def endWalk (f : Frame) (va : Int) : Except Fault Frame := do
  let (scratch, w) ← f.scratch.endWalk (pageOf va) va
  match w.context with
  | none => return { f with scratch }
  | some context =>
    if w.bound = .infinity then
      return { f with scratch, thread := f.thread.withCache (← f.thread.cache.add context w.descriptors) }
    else return { f with scratch }

end Frame

end Litmus
