import Litmus.Fault

/-!
Levels of the page tables, and the arithmetic of pages: 48-bit addresses, pages of 4 KiB,
tables of 512 entries at four levels. An entry of a table spans 512 times less at each level down.
-/

namespace Litmus.Paging

/-- A level of the tables; the last holds pages. -/
abbrev Level := Fin 4

namespace Level

/-- The level of the root table. -/
abbrev first : Level := 0

/-- The level of pages. -/
abbrev last : Level := 3

/-- The levels that can map anything: all but the first. -/
abbrev mapping : List Level := [1, 2, 3]

theorem toNat_lt {n : Int} (h : 0 ≤ n ∧ n < 4) : n.toNat < 4 := by omega

/-- The level that a number names. -/
def check : Number → Except Fault Level
  | .whole n => if h : 0 ≤ n ∧ n < 4 then .ok ⟨n.toNat, toNat_lt h⟩ else .error (.level (.whole n))
  | n@(.fraction _ _) | n@(.infinite _) => .error (.level n)

/-- The level with this many levels below it. -/
def above (below : Nat) : Level := ⟨3 - below, by omega⟩

/-- How many bytes one entry of a table at this level spans. -/
def span : Level → Int
  | 0 => 0x8000000000
  | 1 => 0x40000000
  | 2 => 0x200000
  | 3 => 0x1000

/-- A level as a number. -/
def number (level : Level) : Number := .whole level.val

end Level

/-- The first address beyond the paging scheme. -/
def addressLimit : Int := 0x1000000000000

/-- How many bytes a page has. -/
def pageSize : Int := 0x1000

/-- The number of the region of `va` that one entry at this level spans. -/
def region (level : Level) (va : Int) : Int := va % addressLimit / level.span

/-- The number of the page of `va`. -/
def pageOf (va : Int) : Int := region Level.last va

/-- Which entry of its table at this level `va` selects. -/
def tableIndex (level : Level) (va : Int) : Int := region level va % 512

/-- The page frame that a descriptor names. -/
def frameOf (descriptor : Int) : Int := descriptor % addressLimit / pageSize * pageSize

/-- An address of the scheme, or a fault. -/
def checkAddress (pa : Int) : Except Fault Int :=
  if 0 ≤ pa ∧ pa < addressLimit then .ok pa else .error (.outsideScheme pa)

/-- Where the descriptor for `va` lies in the table at `table`. -/
def descriptorAddress (level : Level) (table va : Int) : Except Fault Int := do
  let table ← checkAddress table
  checkAddress (frameOf table + tableIndex level va * 8)

end Litmus.Paging
