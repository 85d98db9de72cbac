import Litmus.Paging.Level

/-!
Table walks. A descriptor either names the next table or ends the walk, in a mapping or a fault;
`walk` follows the tables from the first level down, and ends at the last at the latest. `replay`
does the same over descriptors read before.
-/

namespace Litmus.Paging

/-- How a walk ends: in a mapping, which is global or belongs to one address space, or in a fault. -/
inductive Landing where
  | mapped (pa : Int) (level : Level) (global : Bool)
  | fault (level : Level)
  deriving DecidableEq, Repr

/-- The level at which a walk ended. -/
def Landing.level : Landing → Level
  | .mapped _ level _ => level
  | .fault level => level

/-- What a descriptor says. -/
inductive Decoded where
  | table (table : Int)
  | landed (landing : Landing)
  deriving DecidableEq, Repr

/-- Bit 0: the descriptor says anything at all. -/
def isValid (descriptor : Int) : Bool := descriptor % 2 == 1

/-- Bit 1: the descriptor names a table, or at the last level a page. -/
def isTable (descriptor : Int) : Bool := descriptor / 2 % 2 == 1

/-- Bit 11 clear: the mapping belongs to all address spaces. -/
def isGlobal (descriptor : Int) : Bool := descriptor / 0x800 % 2 == 0

/-- The table that a descriptor names, above the last level. -/
def nextTable? (level : Level) (descriptor : Int) : Option Int :=
  if level ≠ Level.last ∧ isValid descriptor ∧ isTable descriptor then some (frameOf descriptor) else none

/-- How a walk of `va` ends at a descriptor that names no further table. A mapping needs bit 1 at the
last level and bit 1 clear above it, and there is none at the first. -/
def landing (level : Level) (va descriptor : Int) : Landing :=
  if !isValid descriptor ∨ level = Level.first ∨ (level = Level.last ∧ !isTable descriptor) then .fault level
  else
    let span := level.span
    .mapped (frameOf descriptor / span * span + va % span) level (isGlobal descriptor)

/-- What a descriptor says in a walk of `va`. -/
def decode (level : Level) (va descriptor : Int) : Decoded :=
  match nextTable? level descriptor with
  | some table => .table table
  | none => .landed (landing level va descriptor)

/-- One descriptor read by a walk. -/
structure Step where
  level : Number
  pa : Int
  descriptor : Int
  deriving DecidableEq, Repr

/-- The descriptors that a walk read, and how it ended. -/
structure Walk where
  steps : List Step
  landing : Landing
  deriving DecidableEq, Repr

/-- The descriptors of a walk, from the first level down. -/
def Walk.descriptors (w : Walk) : List Int := w.steps.map (·.descriptor)

/-- The rest of a walk of `va`, at a table with so many levels below its own. -/
def walkFrom (va : Int) (read : Level → Int → Int) : Nat → Int → Except Fault Walk
  | 0, table => do
    let pa ← descriptorAddress Level.last table va
    let descriptor := read Level.last pa
    return ⟨[⟨Level.last.number, pa, descriptor⟩], landing Level.last va descriptor⟩
  | below + 1, table => do
    let level := Level.above (below + 1)
    let pa ← descriptorAddress level table va
    let descriptor := read level pa
    let step : Step := ⟨level.number, pa, descriptor⟩
    match nextTable? level descriptor with
    | none => return ⟨[step], landing level va descriptor⟩
    | some next =>
      let rest ← walkFrom va read below next
      return ⟨step :: rest.steps, rest.landing⟩

/-- The walk of `va` from the table at `base`, reading descriptors by `read`. -/
def walk (va base : Int) (read : Level → Int → Int) : Except Fault Walk := walkFrom va read 3 base

/-- The walk of `va` over descriptors read before; past their end an invalid one is read. -/
def replay (va base : Int) (descriptors : List Int) : Except Fault Walk :=
  walk va base fun level _ => descriptors.getD level.val 0

end Litmus.Paging
