import Std.Data.ExtTreeMap

/-!
Registers by name. Writes of system registers are kept as a history, because other parts of the
machine may still see an older value; all other registers just hold their last value.
-/

namespace Litmus

/-- What each register holds. -/
abbrev Registers (α : Type) := Std.ExtTreeMap String α

namespace Register

/-- The system registers. -/
def system : List String :=
  ["TTBR0_EL1", "TTBR1_EL1", "TCR_EL1", "MAIR_EL1", "SCTLR_EL1", "CONTEXTIDR_EL1", "VBAR_EL1", "ELR_EL1",
   "SPSR_EL1", "ESR_EL1", "FAR_EL1"]

/-- Whether a register is a system register. -/
def isSystem (reg : String) : Bool := system.contains reg

/-- The register of the page tables: their base, and the address space from bit 48 on. -/
def tables : String := "TTBR0_EL1"

/-- The base of the tables in a value of that register. -/
def tableBase (value : Int) : Int := value % 0x1000000000000 / 2 * 2

/-- The address space in a value of that register. -/
def addressSpace (value : Int) : Int := value / 0x1000000000000 % 0x10000

end Register

end Litmus
