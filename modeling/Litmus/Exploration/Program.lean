import Litmus.Instruction

/-! Litmus programs: initial memory, and for each thread its code, its registers and the writes that it
may promise. -/

namespace Litmus

/-- One thread of a program. -/
structure ThreadProgram where
  code : List Instr
  regs : Registers Int := ∅
  promisable : List (Int × Int) := []
  deriving Inhabited

/-- A program. Of cells given twice the last value counts. -/
structure Program where
  name : Option String := none
  cells : List (Int × Int) := []
  threads : List ThreadProgram
  deriving Inhabited

/-- The memory that a program starts with. -/
def Program.image (p : Program) : Image := Image.ofCells (p.cells.foldl Record.put [])

end Litmus
