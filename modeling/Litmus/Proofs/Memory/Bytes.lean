import Litmus.Proofs.Memory.Snapshot
import Mathlib.Data.List.Induction
import Mathlib.Tactic.Ring

/-!
Bytes and numbers. Bytes make up a number below a power of 256, and the lowest bytes of a value, of any size and sign,
make up the value modulo that power. Main facts: a cell that is written reads as its value modulo 2 ^ 64, and each half
of a cell is the number that its four bytes make up.
-/

namespace Litmus.Image

theorem valueOf_cons (b : UInt8) (bytes : List UInt8) : valueOf (b :: bytes) = valueOf bytes * 256 + (b.toNat : Int) := rfl

theorem valueOf_nonneg : ∀ bytes : List UInt8, 0 ≤ valueOf bytes
  | [] => Int.le_refl 0
  | b :: bytes => by
    have := valueOf_nonneg bytes
    rw [valueOf_cons]
    lia

theorem valueOf_lt : ∀ bytes : List UInt8, valueOf bytes < 256 ^ bytes.length
  | [] => Int.one_pos
  | b :: bytes => by
    have hrest := valueOf_lt bytes
    have hb : b.toNat < 256 := b.toNat_lt
    rw [valueOf_cons, List.length_cons, pow_succ]
    lia

theorem valueOf_append : ∀ bytes bytes' : List UInt8,
    valueOf (bytes ++ bytes') = valueOf bytes + 256 ^ bytes.length * valueOf bytes'
  | [], bytes' => by simp [valueOf]
  | b :: bytes, bytes' => by
    rw [List.cons_append, valueOf_cons, valueOf_cons, valueOf_append bytes, List.length_cons, pow_succ]
    ring

/-- The lowest bytes of a value make up the value modulo a power of 256. -/
theorem valueOf_bytesOf : ∀ (n : Nat) (value : Int), valueOf (bytesOf n value) = value % 256 ^ n
  | 0, value => by simp [bytesOf, valueOf]
  | n + 1, value => by
    have hbyte : ((UInt8.ofNat (value % 256).toNat).toNat : Int) = value % 256 := by
      rw [UInt8.toNat_ofNat']
      lia
    have hsplit : value % 256 ^ (n + 1) = value / 256 % 256 ^ n * 256 + value % 256 := by
      rw [pow_succ', Int.emod_def, Int.emod_def, Int.emod_def, ← Int.ediv_ediv_of_nonneg (by decide)]
      ring
    rw [bytesOf, valueOf_cons, valueOf_bytesOf n, hbyte, hsplit]

theorem length_bytes (m : Image) (a : Int) (n : Nat) : (m.bytes a n).length = n := by simp [bytes]

theorem bytes_add (m : Image) (a : Int) (n k : Nat) : m.bytes a (n + k) = m.bytes a n ++ m.bytes (a + n) k := by
  simp [bytes, List.range_add, Int.add_assoc]

/-- Bytes that are there one by one are there in a row. -/
theorem bytes_eq {m : Image} {a : Int} {bs : List UInt8} (h : ∀ i : Nat, i < bs.length → m[a + i]? = bs[i]?) :
    m.bytes a bs.length = bs := by
  refine List.ext_getElem (m.length_bytes a _) fun i _ hi => ?_
  simp only [bytes, List.getElem_map, List.getElem_range]
  rw [byte, Std.ExtTreeMap.getD_eq_getD_getElem?, h i hi,
    List.getElem?_eq_getElem hi, Option.getD_some]

theorem bytes_congr {m n : Image} {a : Int} {k : Nat} (h : ∀ i : Nat, i < k → m[a + i]? = n[a + i]?) :
    m.bytes a k = n.bytes a k := by
  refine List.map_congr_left fun i hi => ?_
  rw [byte, byte, Std.ExtTreeMap.getD_eq_getD_getElem?, Std.ExtTreeMap.getD_eq_getD_getElem?, h i (List.mem_range.mp hi)]

theorem cellOf_eq_iff {a loc : Int} (h : loc % 8 = 0) : cellOf a = loc ↔ loc ≤ a ∧ a < loc + 8 := by
  rw [cellOf]
  lia

theorem readCell_empty (loc : Int) : (∅ : Image).readCell loc = 0 := by
  have hbytes : (∅ : Image).bytes loc 8 = List.replicate 8 0 := by simp [bytes, byte, List.range, List.range.loop]
  rw [readCell, hbytes]
  rfl

/-- A cell that is written reads as its value modulo 2 ^ 64, and another reads as before. -/
theorem readCell_writeCell (m : Image) {loc loc' : Int} (value : Int) (h : loc % 8 = 0) (h' : loc' % 8 = 0) :
    (m.writeCell loc value).readCell loc' = if loc' = loc then value % 2 ^ 64 else m.readCell loc' := by
  have hlength := length_bytesOf 8 value
  split
  · next e =>
    subst e
    have hbytes : (m.writeCell loc' value).bytes loc' 8 = bytesOf 8 value := by
      rw [← hlength]
      refine bytes_eq fun i hi => ?_
      rw [getElem?_writeCell m value _ h, if_pos ((cellOf_eq_iff h).mpr (by lia))]
      congr 1
      lia
    rw [readCell, hbytes, valueOf_bytesOf]
    rfl
  · next hne =>
    refine congrArg valueOf (bytes_congr fun i hi => ?_)
    rw [getElem?_writeCell m value _ h, if_neg]
    rw [(cellOf_eq_iff h').mpr (by lia)]
    exact hne

theorem readCell_writeCells {value : Int → Int} {loc : Int} (h : loc % 8 = 0) : ∀ (locs : List Int) (m : Image),
    (∀ l ∈ locs, l % 8 = 0) →
    (m.writeCells value locs).readCell loc = if loc ∈ locs then value loc % 2 ^ 64 else m.readCell loc
  | [], m, _ => rfl
  | l :: locs, m, ha => by
    obtain ⟨hl, hlocs⟩ := List.forall_mem_cons.mp ha
    have hstep : m.writeCells value (l :: locs) = (m.writeCell l (value l)).writeCells value locs := rfl
    rw [hstep, readCell_writeCells h locs _ hlocs, readCell_writeCell m _ hl h]
    grind

theorem readCell_bounds (m : Image) (loc : Int) : 0 ≤ m.readCell loc ∧ m.readCell loc < 2 ^ 64 := by
  have hlt := valueOf_lt (m.bytes loc 8)
  rw [length_bytes] at hlt
  exact ⟨valueOf_nonneg _, hlt⟩

/-- The bytes of each half of a cell make up that half of its value. -/
theorem halves (m : Image) (loc : Int) : valueOf (m.bytes loc 4) = m.readCell loc % 2 ^ 32 ∧
    valueOf (m.bytes (loc + 4) 4) = m.readCell loc / 2 ^ 32 := by
  have hcell : m.readCell loc = valueOf (m.bytes loc 4) + 256 ^ 4 * valueOf (m.bytes (loc + 4) 4) := by
    rw [readCell, show 8 = 4 + 4 from rfl, bytes_add, valueOf_append, length_bytes]
    rfl
  have hlow := valueOf_lt (m.bytes loc 4)
  have hnonneg := valueOf_nonneg (m.bytes loc 4)
  rw [length_bytes] at hlow
  lia

/-- Of an image of cells, each cell reads as the value that is listed for it last, modulo 2 ^ 64, or as zero. -/
theorem readCell_ofCells {cells : List (Int × Int)} {loc : Int} (h : loc % 8 = 0) (ha : ∀ x ∈ cells, x.1 % 8 = 0) :
    (ofCells cells).readCell loc = (((cells.filter fun x => x.1 = loc).getLast?.map Prod.snd).getD 0) % 2 ^ 64 := by
  induction cells using List.reverseRecOn with
  | nil => exact readCell_empty loc
  | append_singleton cells x ih =>
    obtain ⟨hcells, hx⟩ := List.forall_mem_append.mp ha
    rw [List.forall_mem_singleton] at hx
    obtain ⟨l, value⟩ := x
    have hstep : (ofCells (cells ++ [(l, value)])) = (ofCells cells).writeCell l value := by
      rw [ofCells, List.foldl_concat]
      rfl
    rw [hstep, readCell_writeCell _ _ hx h, List.filter_append, List.filter_singleton]
    by_cases hl : loc = l
    · simp [hl]
    · rw [if_neg hl, ih hcells]
      simp [Ne.symm hl]

end Litmus.Image
