import Litmus.Instruction.Effect
import Litmus.Paging.Walk

/-! Shapes of instructions: moves, loads and stores, exclusive stores, loads through the page
tables, branches and barriers. -/

namespace Litmus.Shape

open Paging

/-- Ask for an effect and be over. -/
def only (e : Effect) : Instr := .ask e fun _ => .done

/-- Prune the path. -/
def discard : Instr := only .discard

/-- The rest of a walk, at a table with so many levels below its own. -/
def resolveFrom (va : Int) (next : Landing → Instr) : Nat → Int → Instr
  | 0, table =>
    match descriptorAddress Level.last table va with
    | .error f => .thrown (.fault f)
    | .ok pa =>
      .ask (.read { pa, kind := .walk, va := some va }) fun descriptor =>
        .ask (.endWalk va) fun _ => next (landing Level.last va descriptor)
  | below + 1, table =>
    let level := Level.above (below + 1)
    match descriptorAddress level table va with
    | .error f => .thrown (.fault f)
    | .ok pa =>
      .ask (.read { pa, kind := .walk, va := some va }) fun descriptor =>
        match nextTable? level descriptor with
        | some table => resolveFrom va next below table
        | none => .ask (.endWalk va) fun _ => next (landing level va descriptor)

/-- Resolve a virtual address: start a walk, read one descriptor per level, end the walk, and go on with
where it landed. -/
def resolve (va : Int) (next : Landing → Instr) : Instr :=
  .ask (.startWalk va) fun started => resolveFrom va next 3 started.base

/-- Put a value into a register. -/
def movImm (dst : String) (value : Int) : Instr := only (.writeReg dst value .none)

/-- Load from the physical address in a register. -/
def load (dst addr : String) (kind : ReadKind) (exclusive : Bool) : Instr :=
  .ask (.readReg addr) fun pa =>
    .ask (.read { pa, kind, exclusive, deps := .explicit [addr] [] }) fun value =>
      only (.writeReg dst value (.explicit [] [0]))

/-- Store to the physical address in a register. -/
def store (src addr : String) (kind : WriteKind) : Instr :=
  .ask (.readReg addr) fun pa =>
    .ask (.readReg src) fun value =>
      only (.write { pa, value, kind, addrDeps := .explicit [addr] [], dataDeps := .explicit [src] [] })

/-- Store exclusively; the status is 0 if that wrote, and 1 if not. -/
def storeExclusive (status src addr : String) (kind : WriteKind) : Instr :=
  .ask (.readReg addr) fun pa =>
    .ask (.readReg src) fun value =>
      .ask (.write { pa, value, kind, exclusive := true, addrDeps := .explicit [addr] [],
                     dataDeps := .explicit [src] [] }) fun wrote =>
        only (.writeReg status (if wrote then 0 else 1) .none)

/-- Load from the virtual address in a register; a fault prunes the path. -/
def loadVirtual (dst addr : String) : Instr :=
  .ask (.readReg addr) fun va =>
    resolve va fun
      | .fault _ => discard
      | .mapped pa level _ =>
        .ask (.read { pa, deps := .explicit [addr] [] }) fun value =>
          only (.writeReg dst value (.explicit [] [.whole (level.val + 1)]))

/-- Branch on a register. Only the announcement is part of the machine. -/
def branchOn (reg : String) (target : Int) : Instr :=
  .ask (.readReg reg) fun _ => only (.announceBranch target (.explicit [reg] []))

/-- A barrier of memory accesses. -/
def dmb (kind : BarrierKind) : Instr := only (.barrier (.dmb kind .ish))

/-- A barrier of memory accesses and maintenance. -/
def dsb (kind : BarrierKind) : Instr := only (.barrier (.dsb kind .ish))

/-- A barrier of instructions. -/
def isb : Instr := only (.barrier .isb)

end Litmus.Shape
