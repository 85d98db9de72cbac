import Std.Data.ExtTreeMap

/-!
Byte images: what is at each address. A cell is eight bytes, the lowest first, and holds a value
modulo 2 ^ 64; a byte that an image does not have reads as zero.
-/

namespace Litmus

/-- Bytes by address. -/
abbrev Image := Std.ExtTreeMap Int UInt8

namespace Image

/-- The `n` lowest bytes of a value, the lowest first. -/
def bytesOf : Nat → Int → List UInt8
  | 0, _ => []
  | n + 1, value => UInt8.ofNat (value % 256).toNat :: bytesOf n (value / 256)

/-- The number that bytes make up, the lowest first. -/
def valueOf (bytes : List UInt8) : Int := bytes.foldr (fun b value => value * 256 + (b.toNat : Int)) 0

/-- The byte at an address. -/
def byte (m : Image) (a : Int) : UInt8 := m.getD a 0

/-- The `n` bytes from an address on. -/
def bytes (m : Image) (a : Int) (n : Nat) : List UInt8 := (List.range n).map fun (i : Nat) => m.byte (a + i)

/-- The image with these bytes from an address on. -/
def writeBytes (m : Image) (a : Int) : List UInt8 → Image
  | [] => m
  | b :: r => writeBytes (m.insert a b) (a + 1) r

/-- The value of a cell. -/
def readCell (m : Image) (loc : Int) : Int := valueOf (m.bytes loc 8)

/-- The image with a cell written. -/
def writeCell (m : Image) (loc value : Int) : Image := m.writeBytes loc (bytesOf 8 value)

/-- The image of cells written one after the other. -/
def ofCells (cells : List (Int × Int)) : Image := cells.foldl (fun m (loc, value) => m.writeCell loc value) ∅

/-- Put a byte in front of the runs after it: into the first, if that begins right behind it. -/
def extendRuns (a : Int) (b : UInt8) : List (Int × List UInt8) → List (Int × List UInt8)
  | (start, bytes) :: r => if start = a + 1 then (a, b :: bytes) :: r else (a, [b]) :: (start, bytes) :: r
  | [] => [(a, [b])]

/-- The longest runs of bytes at consecutive addresses, in ascending order. -/
def runs (m : Image) : List (Int × List UInt8) := m.toList.foldr (fun (a, b) r => extendRuns a b r) []

end Image

end Litmus
