import Litmus.Instruction.Access
import Litmus.Instruction.Shape
import Litmus.Instruction.Synchronize
import Litmus.Instruction.Walk

/-!
Running instructions. `Effect.run` is the rule of each effect, `Instr.step` runs one effect, and
`Instr.run` all of them. What an effect throws, or the instruction on getting its answer, ends the path
as a failure.
-/

namespace Litmus

/-- An effect that is answered by nothing more than the frame after it. -/
def answered (o : Outcome Frame) : Outcome (Frame × Unit) := o.map fun f => (f, ())

/-- The rule of an effect. -/
def Effect.run (e : Effect) (f : Frame) : Outcome (Frame × e.Answer) :=
  match e with
  | .readReg reg => f.readReg reg
  | .writeReg reg value deps => answered (f.writeReg reg value deps)
  | .readIndirect base _ => .failWith (.indirectRegister base)
  | .read req => f.read req
  | .write req => f.write req
  | .update _ _ _ => .failWith ⟨.atomicUpdate, []⟩
  | .barrier b => answered (f.barrier b)
  | .maintain req deps => answered (f.maintain req deps)
  | .announceBranch _ deps => answered (f.announceBranch deps)
  | .startWalk va => f.startWalk va
  | .endWalk va => answered (f.endWalk va)
  | .returnFromException | .halt => .done (f.synchronize, ())
  | .choose bits => .anyBits bits fun value => .done (f, value)
  | .discard => .prune .instruction

namespace Instr

/-- Go on with an instruction, unless it throws. -/
def settle (i : Instr) (f : Frame) : Outcome (Frame × Instr) :=
  match i with
  | .thrown t => .thrown t
  | i => .done (f, i)

/-- Run the effect that an instruction asks for. The frame after it, and the rest of the instruction. -/
def stepEffect (e : Effect) (next : e.Answer → Instr) (f : Frame) : Outcome (Frame × Instr) :=
  ((e.run f).bind fun (f, answer) => (next answer).settle f).guarded

/-- Run the next effect of an instruction, if it is not over. -/
def step? (i : Instr) (f : Frame) : Option (Outcome (Frame × Instr)) :=
  match i with
  | .done => none
  | .thrown t => some (Outcome.thrown t).guarded
  | .ask e next => some (stepEffect e next f)

/-- Run all effects of an instruction. -/
def run : Instr → Frame → Outcome Frame
  | .done, f => .done f
  | .thrown t, _ => (Outcome.thrown t).guarded
  | .ask e next, f => (e.run f).guarded.bind fun (f, answer) => (next answer).run f

/-- Run an instruction on a thread and memory. -/
def runOn (i : Instr) (thread : Thread) (memory : Memory) : Outcome Frame := i.run { thread, memory }

end Instr

end Litmus
