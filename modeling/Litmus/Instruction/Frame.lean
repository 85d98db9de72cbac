import Litmus.Instruction.Effect
import Litmus.Instruction.Scratch
import Litmus.Memory
import Litmus.Outcome

/-! What an effect works on: the state of the instruction, its thread, and memory. -/

namespace Litmus

/-- What an effect works on. -/
structure Frame where
  scratch : Scratch := .start
  thread : Thread
  memory : Memory
  deriving DecidableEq

instance : MonadLift (Except Fault) Outcome := ⟨Outcome.ofExcept⟩

namespace Frame

/-- The view that dependencies amount to. -/
def depsView (f : Frame) : Deps → Except Fault View
  | .implicit => .ok (View.join f.scratch.regView (View.joinAll f.scratch.readViews))
  | .explicit regs reads => do
    let readViews ← reads.mapM f.scratch.readView
    let regs ← regs.mapM f.thread.holds
    return View.joinAll (readViews ++ regs.map (·.view))

/-- Read a register. -/
def readReg (f : Frame) (reg : String) : Except Fault (Frame × Int) := do
  let held ← f.thread.holds reg
  return ({ f with scratch := f.scratch.addRegRead held.view }, held.value)

/-- Write a register. -/
def writeReg (f : Frame) (reg : String) (value : Int) (deps : Deps) : Except Fault Frame := do
  return { f with thread := f.thread.hold reg ⟨value, ← f.depsView deps⟩ }

/-- Announce a branch: what follows is speculative until its operands are known. -/
def announceBranch (f : Frame) (deps : Deps) : Except Fault Frame := do
  return { f with thread := f.thread.raise .speculation (← f.depsView deps) }

/-- Where an event goes: to the oldest promise of the thread that holds it, or else to the end of memory.
The memory after that, the time of the event, and whether it was promised. -/
def place (f : Frame) (e : Event) : Except Fault (Memory × View × Bool) :=
  match f.memory.fulfil? e f.thread.promises with
  | some t => .ok (f.memory, t, true)
  | none => do
    let (memory, t) ← f.memory.promise e
    return (memory, t, false)

/-- Promise a write ahead of program order; a write of the thread has to fulfil it later. -/
def promiseWrite (f : Frame) (loc value : Int) : Except Fault (Frame × View) := do
  let (memory, t) ← f.memory.promise (.write f.thread.tid (← checkLocation loc) value)
  return ({ f with memory, thread := f.thread.pushPromise t }, t)

end Frame

end Litmus
