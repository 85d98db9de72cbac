import Litmus.Proofs.Memory.Window

/-!
Snapshots. Cells are aligned, so a byte belongs to one cell alone, and writing cells one after the other
gives each byte what the last write of its cell says. Main fact: where what is written to a cell depends on
the cell alone, neither the order of the writes nor their number matters; of a memory it is the latest.
-/

namespace Litmus

namespace Image

/-- The address of the cell that a byte belongs to. -/
def cellOf (a : Int) : Int := a / 8 * 8

theorem length_bytesOf : ∀ (n : Nat) (value : Int), (bytesOf n value).length = n
  | 0, _ => rfl
  | n + 1, value => congrArg (· + 1) (length_bytesOf n (value / 256))

theorem getElem?_writeBytes (x : Int) : ∀ (bytes : List UInt8) (m : Image) (a : Int),
    (m.writeBytes a bytes)[x]? = if a ≤ x then bytes[(x - a).toNat]?.or m[x]? else m[x]?
  | [], m, a => by simp [writeBytes]
  | b :: bytes, m, a => by
    rw [writeBytes, getElem?_writeBytes x bytes, Std.ExtTreeMap.getElem?_insert]
    simp only [Std.compare_eq_iff_eq]
    rcases Int.lt_trichotomy a x with h | rfl | h
    · have hi : (x - a).toNat = (x - (a + 1)).toNat + 1 := by omega
      rw [if_pos (by omega), if_neg (by omega), if_pos (by omega), hi, List.getElem?_cons_succ]
    · have hi : (a - a).toNat = 0 := by omega
      rw [if_neg (by omega), if_pos rfl, if_pos (by omega), hi]
      rfl
    · rw [if_neg (by omega), if_neg (by omega), if_neg (by omega)]

/-- A write of a cell is seen in the bytes of the cell alone. -/
theorem getElem?_writeCell (m : Image) {loc : Int} (value : Int) (x : Int) (ha : loc % 8 = 0) :
    (m.writeCell loc value)[x]? = if cellOf x = loc then (bytesOf 8 value)[(x - loc).toNat]? else m[x]? := by
  have hlen := length_bytesOf 8 value
  rw [writeCell, getElem?_writeBytes, cellOf]
  by_cases hx : x / 8 * 8 = loc
  · have hlt : (x - loc).toNat < (bytesOf 8 value).length := by omega
    rw [if_pos (by omega), if_pos hx, List.getElem?_eq_getElem hlt]
    rfl
  · rw [if_neg hx]
    split
    · rw [List.getElem?_eq_none (by omega), Option.none_or]
    · rfl

/-- The image with some cells written, each to what belongs there. -/
def writeCells (m : Image) (value : Int → Int) (locs : List Int) : Image :=
  locs.foldl (fun m loc => m.writeCell loc (value loc)) m

theorem getElem?_writeCells (value : Int → Int) (x : Int) : ∀ (locs : List Int) (m : Image), (∀ loc ∈ locs, loc % 8 = 0) →
    (m.writeCells value locs)[x]? =
      if cellOf x ∈ locs then (bytesOf 8 (value (cellOf x)))[(x - cellOf x).toNat]? else m[x]?
  | [], m, _ => rfl
  | loc :: locs, m, ha => by
    obtain ⟨hloc, hlocs⟩ := List.forall_mem_cons.mp ha
    have ih := getElem?_writeCells value x locs (m.writeCell loc (value loc)) hlocs
    rw [writeCells] at ih ⊢
    rw [List.foldl_cons, ih, getElem?_writeCell m _ x hloc]
    by_cases hx : cellOf x = loc
    · simp [hx]
    · simp [hx]

/-- Cells written with their values are written to what belongs there. -/
theorem foldl_writeCell_eq (value : Int → Int) : ∀ (cells : List (Int × Int)) (m : Image),
    (∀ x ∈ cells, x.2 = value x.1) →
    cells.foldl (fun m (loc, v) => m.writeCell loc v) m = m.writeCells value (cells.map Prod.fst)
  | [], _, _ => rfl
  | (loc, v) :: cells, m, h => by
    obtain ⟨hv, hcells⟩ := List.forall_mem_cons.mp h
    dsimp only at hv
    rw [List.foldl_cons, foldl_writeCell_eq value cells _ hcells, hv]
    rfl

/-- It does not matter in which order cells are written to what belongs there, nor how often. -/
theorem writeCells_congr {m : Image} {value value' : Int → Int} {locs locs' : List Int} (ha : ∀ loc ∈ locs, loc % 8 = 0)
    (hmem : ∀ loc, loc ∈ locs ↔ loc ∈ locs') (hv : ∀ loc ∈ locs, value loc = value' loc) :
    m.writeCells value locs = m.writeCells value' locs' := by
  refine Std.ExtTreeMap.ext_getElem? ?_
  intro x
  rw [getElem?_writeCells value x locs m ha, getElem?_writeCells value' x locs' m fun loc h => ha loc ((hmem loc).mpr h)]
  by_cases hx : cellOf x ∈ locs
  · rw [if_pos hx, if_pos ((hmem _).mp hx), hv _ hx]
  · rw [if_neg hx, if_neg fun h => hx ((hmem _).mpr h)]

end Image

namespace Memory

/-- The cells that events shown write. -/
def locations (m : Memory) : List Int := m.shown.filterMap Event.location?

theorem mem_locations {m : Memory} {loc : Int} : loc ∈ m.locations ↔ ∃ t tid value, m.at? t = some (.write tid loc value) := by
  simp only [locations, List.mem_filterMap, mem_shown]
  constructor
  · rintro ⟨e, ⟨t, ht⟩, he⟩
    cases e with
    | write tid l value =>
      cases he
      exact ⟨t, tid, value, ht⟩
    | maintain => cases he
  · rintro ⟨t, tid, value, ht⟩
    exact ⟨_, ⟨t, ht⟩, rfl⟩

theorem mem_locations_cut_succ {m : Memory} {v : View} {tid l value : Int}
    (h : m.at? (v + 1) = some (.write tid l value)) (loc : Int) :
    loc ∈ (m.cut (v + 1)).locations ↔ loc = l ∨ loc ∈ (m.cut v).locations := by
  simp only [mem_locations, at?_cut_eq_some_iff]
  constructor
  · rintro ⟨t, tid', value', hle, ht⟩
    by_cases e : t = v + 1
    · subst e
      rw [h] at ht
      cases ht
      exact .inl rfl
    · exact .inr ⟨t, tid', value', by lia, ht⟩
  · rintro (rfl | ⟨t, tid', value', hle, ht⟩)
    · exact ⟨v + 1, tid, value, Int.le_refl _, h⟩
    · exact ⟨t, tid', value', by lia, ht⟩

/-- A snapshot has every written cell at its latest write, and every written cell is aligned. -/
theorem snapshot_eq_ok {m : Memory} {image : Image} (h : m.snapshot = .ok image) :
    (∀ loc ∈ m.locations, loc % 8 = 0) ∧ image = m.initial.writeCells (fun loc => (m.latest loc).value) m.locations := by
  suffices hfold : ∀ (locs : List Int) (start : Image),
      locs.foldlM (fun image loc => do return image.writeCell loc (← m.readLast loc).value) start = .ok image →
      (∀ loc ∈ locs, loc % 8 = 0) ∧ image = start.writeCells (fun loc => (m.latest loc).value) locs from hfold _ _ h
  intro locs
  induction locs with
  | nil =>
    intro start h
    cases h
    exact ⟨nofun, rfl⟩
  | cons loc locs ih =>
    intro start h
    simp only [List.foldlM_cons, readLast, bind_eq_ok, checkLocation_eq_ok, pure_eq_ok] at h
    obtain ⟨_, ⟨_, ⟨_, ⟨ha, rfl⟩, rfl⟩, rfl⟩, h⟩ := h
    obtain ⟨haligned, rfl⟩ := ih _ h
    exact ⟨List.forall_mem_cons.mpr ⟨ha, haligned⟩, rfl⟩

/-- Whether every write that is shown is of a cell. -/
def Aligned (m : Memory) : Prop := ∀ t tid loc value, m.at? t = some (.write tid loc value) → loc % 8 = 0

theorem Aligned.exists_snapshot {m : Memory} (h : m.Aligned) : ∃ image, m.snapshot = .ok image := by
  suffices hfold : ∀ (locs : List Int) (start : Image), (∀ loc ∈ locs, loc % 8 = 0) → ∃ image,
      locs.foldlM (fun image loc => do return image.writeCell loc (← m.readLast loc).value) start = .ok image by
    refine hfold m.locations m.initial ?_
    intro loc hloc
    obtain ⟨t, tid, value, ht⟩ := mem_locations.mp hloc
    exact h t tid loc value ht
  intro locs
  induction locs with
  | nil => exact fun start _ => ⟨start, rfl⟩
  | cons loc locs ih =>
    intro start h
    obtain ⟨hloc, hlocs⟩ := List.forall_mem_cons.mp h
    obtain ⟨image, himage⟩ := ih (start.writeCell loc (m.latest loc).value) hlocs
    refine ⟨image, ?_⟩
    rw [List.foldlM_cons, bind_eq_ok]
    refine ⟨_, ?_, himage⟩
    simp only [readLast, bind_eq_ok, pure_eq_ok]
    exact ⟨_, ⟨loc, checkLocation_eq_ok.mpr ⟨hloc, rfl⟩, rfl⟩, rfl⟩

/-! ### One write more -/

/-- A memory goes on from another by one write of a thread. -/
def Takes (m : Memory) (tid loc value : Int) (n : Memory) : Prop :=
  n.initial = m.initial ∧ ∀ t, n.at? t = if t = m.length + 1 then some (.write tid loc value) else m.at? t

variable {m n : Memory} {tid l value : Int}

theorem Takes.at?_eq_some (h : m.Takes tid l value n) {t : View} {e : Event} (he : m.at? t = some e) :
    n.at? t = some e := by
  have := le_length_of_at? he
  rw [h.2, if_neg (by lia), he]

/-- After a write the latest write of its cell is the write itself, and that of another cell is what it was. -/
theorem Takes.latest_eq (h : m.Takes tid l value n) (loc : Int) :
    n.latest loc = if loc = l then ⟨value, m.length + 1⟩ else m.latest loc := by
  obtain ⟨hr, hnewest⟩ := latest_eq_iff.mp (rfl : m.latest loc = _)
  rw [latest_eq_iff]
  split
  · next e =>
    subst e
    refine ⟨.inl ⟨tid, (h.2 _).trans (if_pos rfl)⟩, ?_⟩
    intro t i v ht
    rw [h.2] at ht
    split at ht
    · next e => exact Int.le_of_eq e
    · have := le_length_of_at? ht
      dsimp only
      lia
  · next hl =>
    rw [h.1]
    refine ⟨hr.imp_left fun ⟨i, hi⟩ => ⟨i, h.at?_eq_some hi⟩, ?_⟩
    intro t i v ht
    rw [h.2] at ht
    split at ht
    · cases ht
      exact absurd rfl hl
    · exact hnewest t i v ht

theorem Takes.mem_locations (h : m.Takes tid l value n) (loc : Int) : loc ∈ n.locations ↔ loc = l ∨ loc ∈ m.locations := by
  rw [Memory.mem_locations, Memory.mem_locations]
  constructor
  · rintro ⟨t, i, v, ht⟩
    rw [h.2] at ht
    split at ht
    · cases ht
      exact .inl rfl
    · exact .inr ⟨t, i, v, ht⟩
  · rintro (rfl | ⟨t, i, v, ht⟩)
    · exact ⟨_, tid, value, (h.2 _).trans (if_pos rfl)⟩
    · exact ⟨t, i, v, h.at?_eq_some ht⟩

end Memory

end Litmus
