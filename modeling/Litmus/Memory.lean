import Litmus.Memory.Event
import Litmus.Memory.Image
import Litmus.View

/-!
Memory: an initial image and the events since, the first at time 1. A memory shows a window of its
events, those with `lo < t ≤ hi`, under their own times: `cut` and `after` narrow the window, and
only a memory that shows everything takes new events.
-/

namespace Litmus

/-- Events after an initial image, and the window of them that is shown. -/
structure Memory where
  events : List Event
  initial : Image
  lo : Nat
  hi : Nat
  lo_le_hi : lo ≤ hi
  hi_le_length : hi ≤ events.length
  deriving DecidableEq

namespace Memory

/-- What a read returns: a value, and the time of the write it comes from. -/
structure Read where
  value : Int
  time : View
  deriving DecidableEq, Repr

/-- The memory without events. -/
def ofImage (initial : Image) : Memory := ⟨[], initial, 0, 0, Nat.le_refl 0, Nat.le_refl 0⟩

instance : Inhabited Memory := ⟨ofImage ∅⟩

/-- The last time that is shown. -/
def length (m : Memory) : View := m.hi

/-- The event shown at a time. -/
def at? (m : Memory) (t : View) : Option Event :=
  if m.lo < t ∧ t ≤ m.hi then m.events[t.toNat - 1]? else none

/-- The events shown with their times, the oldest first. -/
def entries (m : Memory) : List (View × Event) :=
  (((m.events.take m.hi).drop m.lo).zipIdx (m.lo + 1)).map fun (e, t) => ((t : Int), e)

/-- The events shown, the oldest first. -/
def shown (m : Memory) : List Event := m.entries.map (·.2)

/-- The memory up to a time. -/
def cut (m : Memory) (v : View) : Memory :=
  have := m.lo_le_hi
  have := m.hi_le_length
  { m with hi := max m.lo (min m.hi v.toNat), lo_le_hi := by omega, hi_le_length := by omega }

/-- The memory past a time. -/
def after (m : Memory) (v : View) : Memory :=
  have := m.lo_le_hi
  { m with lo := min m.hi (max m.lo v.toNat), lo_le_hi := by omega }

/-- The writes of a cell that are shown, the oldest first. -/
def writesOf (m : Memory) (loc : Int) : List Read :=
  m.entries.filterMap fun (t, e) =>
    match e with
    | .write _ l value => if l = loc then some ⟨value, t⟩ else none
    | .maintain _ _ => none

/-- The newest write of a cell, or its initial value at time zero. -/
def latest (m : Memory) (loc : Int) : Read :=
  (m.writesOf loc).getLast?.getD ⟨m.initial.readCell loc, 0⟩

/-- The initial value of a cell. -/
def readInitial (m : Memory) (loc : Int) : Except Fault Int := do return m.initial.readCell (← checkLocation loc)

/-- The newest write of a cell. -/
def readLast (m : Memory) (loc : Int) : Except Fault Read := do return m.latest (← checkLocation loc)

/-- The newest write of a cell up to a time. -/
def readAt (m : Memory) (loc : Int) (v : View) : Except Fault Read := (m.cut v).readLast loc

/-- What a read of a cell from a view may return: each write past it, and last the newest write before. -/
def candidates (m : Memory) (loc : Int) (v : View) : List Read :=
  (m.after v).writesOf loc ++ [(m.cut v).latest loc]

/-- What a read of a cell from a view may return. -/
def read (m : Memory) (loc : Int) (v : View) : Except Fault (List Read) := do
  return m.candidates (← checkLocation loc) v

/-- The memory with an event at its end, and the time of that event. -/
def promise (m : Memory) (e : Event) : Except Fault (Memory × View) :=
  if m.lo = 0 ∧ m.hi = m.events.length then
    .ok (⟨m.events ++ [e], m.initial, 0, m.events.length + 1, Nat.zero_le _, by simp⟩, m.events.length + 1)
  else .error .truncatedPromise

/-- The oldest of the promises that holds exactly this event. A newer one would leave the older without
a write to fulfil it. -/
def fulfil? (m : Memory) (e : Event) (promises : List View) : Option View :=
  (promises.filter fun t => m.at? t = some e).min?

/-- Whether an exclusive pair of a thread that read at time `v` is still alone with the cell: the read
was of a write to it, and no other thread has written it since. -/
def exclusive (m : Memory) (loc tid : Int) (v : View) : Bool :=
  (v == 0 || (m.at? v).any (·.writes loc)) && (m.after v).shown.all fun e => !(e.writes loc && e.tid != tid)

/-- The image with every written cell at its last write. -/
def snapshot (m : Memory) : Except Fault Image :=
  (m.shown.filterMap Event.location?).foldlM
    (fun image loc => do return image.writeCell loc (← m.readLast loc).value) m.initial

end Memory

end Litmus
