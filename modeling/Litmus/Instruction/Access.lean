import Litmus.Instruction.Frame

/-!
Reads and writes of memory. Each has a pre-view, the join of what must come before it. A read may
return any write that is not older than the last one before its pre-view and its thread's view of the
cell; a write must get a time beyond both.
-/

namespace Litmus.Frame

open Paging (pageOf)

/-! ### Reads -/

/-- What must come before an explicit read, given the view of its address. -/
def readPre (f : Frame) (req : ReadRequest) (addr : View) : View :=
  let v := f.thread.views
  View.joinAll
    [addr, v.barrier, v.syncBarrier, v.contextSync, v.acquires,
     if req.kind = .acquire then v.releases else 0, f.scratch.strict]

/-- The view that a read adds to its pre-view: the time of the write it reads, or for a forwarded write
the view that the write itself depended on. A strong read does not forward from an exclusive write. -/
def readContribution (f : Frame) (req : ReadRequest) (loc : Int) (r : Memory.Read) : View :=
  match f.thread.forwards[loc]? with
  | none => r.time
  | some fwd =>
    if fwd.time ≠ r.time then r.time
    else if fwd.exclusive ∧ (req.kind ≠ .plain ∨ req.exclusive) then fwd.time
    else fwd.view

/-- The thread after an explicit read of a cell that ended with this view. -/
def threadAfterRead (t : Thread) (req : ReadRequest) (loc : Int) (addr post : View) (time : View) : Thread :=
  let t := (t.see loc time).raise .reads post
  let t := if req.kind ≠ .plain then t.raise .acquires post else t
  let t := t.raise .speculation addr
  if req.exclusive then t.monitored (some ⟨loc, time, post⟩) else t

/-- An explicit read that returns `r`. -/
def readFrom (f : Frame) (req : ReadRequest) (loc : Int) (addr : View) (r : Memory.Read) :
    Outcome (Frame × Int) :=
  let post := View.join (f.readPre req addr) (f.readContribution req loc r)
  if f.scratch.bound < .whole post then
    .discard .invalidatedWalk (some s!"read of {Text.hexWord loc}")
  else
    .done ({ f with
      scratch := f.scratch.addRead post
      thread := threadAfterRead f.thread req loc addr post r.time }, r.value)

/-- What an explicit read may return. A thread never reads a promise of its own. -/
def readCandidates (f : Frame) (req : ReadRequest) (loc : Int) (addr : View) : List Memory.Read :=
  (f.memory.candidates loc (View.join (f.readPre req addr) (f.thread.coherenceOf loc))).filter
    fun r => !f.thread.promises.contains r.time

/-- A plain or acquire read. -/
def readExplicit (f : Frame) (req : ReadRequest) : Outcome (Frame × Int) := do
  let loc ← checkLocation req.pa
  let addr ← f.depsView req.deps
  Outcome.among (f.readCandidates req loc addr) (f.readFrom req loc addr)

/-- A read of the walk in flight for its virtual address. -/
def readDescriptor (f : Frame) (req : ReadRequest) : Except Fault (Frame × Int) := do
  let some va := req.va | throw (.walkWithoutAddress req.pa)
  let (scratch, step, w) ← f.scratch.nextStep (pageOf va) va req.pa
  return ({ f with scratch := scratch.addRead w.time }, step.descriptor)

/-- A fetch of four bytes: half of a cell as it was at the last context synchronization. -/
def fetch (f : Frame) (req : ReadRequest) : Except Fault Int := do
  if req.size ≠ 4 then throw (.accessSize req.size req.kind.text)
  if req.pa % 4 ≠ 0 then throw (.misaligned req.pa)
  let cell := (← f.memory.readAt (req.pa / 8 * 8) f.thread.views.contextSync).value
  return if req.pa / 4 % 2 = 1 then cell / 0x100000000 else cell % 0x100000000

/-- A read of any kind. -/
def read (f : Frame) (req : ReadRequest) : Outcome (Frame × Int) :=
  if req.kind = .fetch then do return (f, ← f.fetch req)
  else if req.size ≠ 8 then .fault (.accessSize req.size req.kind.text)
  else if req.kind = .walk then f.readDescriptor req
  else f.readExplicit req

/-! ### Writes -/

/-- What must come before a write, given the views of its address and its data. -/
def writePre (f : Frame) (req : WriteRequest) (addr data : View) : View :=
  let v := f.thread.views
  View.joinAll
    [addr, data, v.speculation, v.storeBarrier, v.barrier, v.syncBarrier, v.contextSync, v.acquires,
     if req.kind = .release then View.join v.reads v.writes else 0, f.scratch.strict]

/-- Why an exclusive write at time `t` cannot succeed, if it cannot. -/
def exclusiveTrouble (f : Frame) (memory : Memory) (loc : Int) (t : View) : Option (Pruning × Option String) :=
  match f.thread.monitor with
  | none => some (.exclusiveWithoutLoad, none)
  | some m =>
    if m.loc ≠ loc then
      some (.exclusiveWithoutLoad, some s!"no load-exclusive of {Text.hexWord loc}")
    else if !(memory.cut t).exclusive loc f.thread.tid m.time then some (.exclusiveLost, none)
    else none

/-- Why a write of a cell at time `t` with this pre-view cannot succeed, if it cannot. -/
def writeTrouble (f : Frame) (req : WriteRequest) (memory : Memory) (loc : Int) (pre t : View) :
    Option (Pruning × Option String) :=
  if t ≤ View.join pre (f.thread.coherenceOf loc) then
    some (.writeOrder, some s!"write of {Text.hexWord loc} at {t}")
  else if f.scratch.bound < .whole t then
    some (.invalidatedWalk, some s!"write of {Text.hexWord loc}")
  else if req.exclusive then f.exclusiveTrouble memory loc t
  else none

/-- The thread after a write of a cell at time `t`, whose address and data have this view. -/
def threadAfterWrite (thread : Thread) (req : WriteRequest) (loc : Int) (operands t : View)
    (promised : Bool) : Thread :=
  let thread := if req.exclusive then thread.monitored none else thread
  let thread := if promised then thread.removePromise t else thread
  let thread := (thread.see loc t).raise .writes t
  let thread := if req.kind = .release then thread.raise .releases t else thread
  thread.forward loc ⟨t, operands, req.exclusive⟩

/-- A write that does write. -/
def store (f : Frame) (req : WriteRequest) (loc : Int) : Outcome (Frame × Bool) := do
  let addr ← f.depsView req.addrDeps
  let data ← f.depsView req.dataDeps
  let (memory, t, promised) ← f.place (.write f.thread.tid loc req.value)
  match f.writeTrouble req memory loc (f.writePre req addr data) t with
  | some (why, detail) => .discard why detail
  | none =>
    .done ({
      scratch := f.scratch.addStrict t
      thread := threadAfterWrite f.thread req loc (View.join addr data) t promised
      memory }, true)

/-- A write. An exclusive one may always fail, and then only clears the monitor. -/
def write (f : Frame) (req : WriteRequest) : Outcome (Frame × Bool) := do
  if req.size ≠ 8 then .fault (.accessSize req.size req.kind.text)
  else
    let loc ← checkLocation req.pa
    if req.exclusive then
      Outcome.among [true, false] fun stores =>
        if stores then f.store req loc else .done ({ f with thread := f.thread.monitored none }, false)
    else f.store req loc

end Litmus.Frame
