import Litmus.Exploration.State

/-!
A sequentially consistent machine. Threads take turns at whole instructions, in program order, over one
flat memory; nothing is promised, and each load reads what its cell holds at that moment. Instructions are
told by their shapes, of which a machine does each at once.
-/

namespace Litmus

/-- Instructions of the simple shapes: moves, loads, stores, branches and barriers. -/
inductive Op where
  | movImm (dst : String) (value : Int)
  | load (dst addr : String) (kind : ReadKind)
  | store (src addr : String) (kind : WriteKind)
  | branchOn (reg : String) (target : Int)
  | dmb (kind : BarrierKind)
  | dsb (kind : BarrierKind)
  | isb
  deriving DecidableEq

namespace Op

/-- The instruction of a shape. -/
def instr : Op → Instr
  | movImm dst value => Shape.movImm dst value
  | load dst addr kind => Shape.load dst addr kind false
  | store src addr kind => Shape.store src addr kind
  | branchOn reg target => Shape.branchOn reg target
  | dmb kind => Shape.dmb kind
  | dsb kind => Shape.dsb kind
  | isb => Shape.isb

/-- Whether the instruction stores. -/
def isStore : Op → Bool
  | store _ _ _ => true
  | _ => false

/-- Whether the instruction loads or stores. -/
def isAccess : Op → Bool
  | load _ _ _ | store _ _ _ => true
  | _ => false

/-- Whether the instruction is a barrier of all accesses. -/
def isFullFence : Op → Bool
  | dmb .sy | dsb .sy => true
  | _ => false

/-- Whether between a place in the code and every access before it there is a full fence. -/
def Clear (code : List Op) (pc : Nat) : Prop :=
  ∀ i < pc, code[i]?.any isAccess = true → ∃ k < pc, i < k ∧ code[k]?.any isFullFence = true

/-- Whether there is a full fence between any two accesses of the code. -/
def Fenced (code : List Op) : Prop := ∀ pc < code.length, code[pc]?.any isAccess = true → Clear code pc

instance (code : List Op) (pc : Nat) : Decidable (Clear code pc) :=
  inferInstanceAs (Decidable (∀ i < pc, _ → ∃ k < pc, _))

instance (code : List Op) : Decidable (Fenced code) :=
  inferInstanceAs (Decidable (∀ pc < code.length, _ → Clear code pc))

/-- What an instruction does at once, given what cells hold: the registers after it, and the cell that it
writes, if any. Nothing if a register that it reads has no value, or an address is not that of a cell. -/
def exec (read : Int → Int) (regs : Registers Int) : Op → Option (Registers Int × Option (Int × Int))
  | movImm dst value => some (regs.insert dst value, none)
  | load dst addr _ =>
    regs[addr]?.bind fun pa => if pa % 8 = 0 then some (regs.insert dst (read pa), none) else none
  | store src addr _ =>
    regs[addr]?.bind fun pa => regs[src]?.bind fun value =>
      if pa % 8 = 0 then some (regs, some (pa, value)) else none
  | branchOn reg _ => regs[reg]?.map fun _ => (regs, none)
  | dmb _ | dsb _ | isb => some (regs, none)

end Op

/-! ### The machine -/

/-- A thread of the machine: its next instruction, and its registers. -/
structure FlatThread where
  pc : Nat
  regs : Registers Int

/-- A state of the machine: its threads, and the cells that were written. -/
structure FlatState where
  threads : List FlatThread
  cells : Table Int

namespace FlatState

/-- What a cell holds: the last value written, or the initial one. -/
def read (image : Image) (cells : Table Int) (loc : Int) : Int := cells.getD loc (image.readCell loc)

/-- The cells after a write, if there is one. -/
def write (cells : Table Int) : Option (Int × Int) → Table Int
  | none => cells
  | some (loc, value) => cells.insert loc value

/-- The state in which a program starts. -/
def start (p : Program) : FlatState := ⟨p.threads.map fun t => ⟨0, t.regs⟩, ∅⟩

/-- A step: the next instruction of some thread, as a whole. -/
inductive Step (image : Image) (code : List (List Op)) (s : FlatState) : FlatState → Prop
  | exec {tid : Nat} {ops : List Op} {t : FlatThread} {op : Op} {regs : Registers Int} {w : Option (Int × Int)} :
      code[tid]? = some ops → s.threads[tid]? = some t → ops[t.pc]? = some op →
      op.exec (read image s.cells) t.regs = some (regs, w) →
      Step image code s ⟨s.threads.set tid ⟨t.pc + 1, regs⟩, write s.cells w⟩

/-- Whether every thread is past its last instruction. -/
def Finished (code : List (List Op)) (s : FlatState) : Prop :=
  ∀ (tid : Nat) (ops : List Op) (t : FlatThread), code[tid]? = some ops → s.threads[tid]? = some t → ops.length ≤ t.pc

/-- What is left of a run that ended in the state. -/
def final (image : Image) (s : FlatState) : Final where
  memory := s.cells.toList.foldl (fun m (loc, value) => m.writeCell loc value) image
  regs := s.threads.map (·.regs)

end FlatState

end Litmus
