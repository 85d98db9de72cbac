import Litmus.Fault
import Litmus.Paging.Maintenance

/-!
Instructions as trees of effects. `Effect` is what an instruction can ask of the machine, and
`Effect.Answer` what it gets back; an `Instr` asks for one effect and goes on with the answer.
-/

namespace Litmus

open Paging (Shareability Request)

/-- What an effect depends on: the named registers and the earlier reads of the instruction with these
numbers, or everything that the instruction has read. -/
inductive Deps where
  | explicit (regs : List String) (reads : List Number)
  | implicit
  deriving DecidableEq, Repr

/-- No dependencies. -/
def Deps.none : Deps := .explicit [] []

/-- The kinds of reads: three explicit ones, of a page table, and of an instruction. -/
inductive ReadKind where
  | plain
  | acquire
  | acquirePC
  | walk
  | fetch
  deriving DecidableEq, Repr

/-- The text of a kind of read. -/
def ReadKind.text : ReadKind → String
  | .plain => "plain"
  | .acquire => "acquire"
  | .acquirePC => "acquirePC"
  | .walk => "ttw"
  | .fetch => "ifetch"

/-- The kinds of writes. -/
inductive WriteKind where
  | plain
  | release
  deriving DecidableEq, Repr

/-- The text of a kind of write. -/
def WriteKind.text : WriteKind → String
  | .plain => "plain"
  | .release => "release"

/-- Which accesses a barrier orders. -/
inductive BarrierKind where
  | sy
  | ld
  | st
  deriving DecidableEq, Repr

/-- The text of a kind of barrier. -/
def BarrierKind.text : BarrierKind → String
  | .sy => "SY"
  | .ld => "LD"
  | .st => "ST"

/-- Barriers: of memory, of memory and maintenance, and of instructions. -/
inductive Barrier where
  | dmb (kind : BarrierKind) (domain : Shareability)
  | dsb (kind : BarrierKind) (domain : Shareability)
  | isb
  deriving DecidableEq, Repr

/-- The text of a barrier. -/
def Barrier.text : Barrier → String
  | .dmb kind domain => s!"DMB {kind.text} {domain.text}"
  | .dsb kind domain => s!"DSB {kind.text} {domain.text}"
  | .isb => "ISB"

/-- A read of memory. The virtual address is that of the walk which a read of a table belongs to. -/
structure ReadRequest where
  pa : Int
  size : Number := 8
  kind : ReadKind := .plain
  exclusive : Bool := false
  deps : Deps := .none
  va : Option Int := none
  deriving DecidableEq, Repr

/-- A write of memory. -/
structure WriteRequest where
  pa : Int
  value : Int
  size : Number := 8
  kind : WriteKind := .plain
  exclusive : Bool := false
  addrDeps : Deps := .none
  dataDeps : Deps := .none
  deriving DecidableEq, Repr

/-- The root table that was chosen for a walk, and the address space it belongs to. -/
structure WalkStart where
  base : Int
  asid : Int
  deriving DecidableEq, Repr

/-- What an instruction can ask of the machine. -/
inductive Effect where
  | readReg (reg : String)
  | writeReg (reg : String) (value : Int) (deps : Deps)
  | readIndirect (base : String) (index : Number)
  | read (req : ReadRequest)
  | write (req : WriteRequest)
  | update (pa : Int) (size : Number) (operation : String)
  | barrier (b : Barrier)
  | maintain (req : Request) (deps : Deps)
  | announceBranch (target : Int) (deps : Deps)
  | startWalk (va : Int)
  | endWalk (va : Int)
  | returnFromException
  | halt
  | choose (bits : Number)
  | discard
  deriving DecidableEq, Repr

/-- What the machine answers: nothing after `discard`, and whether it wrote after a write. -/
abbrev Effect.Answer : Effect → Type
  | .readReg _ | .readIndirect _ _ | .read _ | .update _ _ _ | .choose _ => Int
  | .write _ => Bool
  | .startWalk _ => WalkStart
  | .discard => Empty
  | _ => Unit

/-- An instruction: it is over, or asks for an effect and goes on with the answer. Where going on makes
no sense it throws. -/
inductive Instr where
  | done
  | thrown (t : Trouble)
  | ask (e : Effect) (next : e.Answer → Instr)

instance : Inhabited Instr := ⟨.done⟩

end Litmus
