import Litmus.Proofs.Memory.Bytes
import Litmus.Proofs.Memory.Narrowed

/-!
Snapshots, and what goes on from them. Writes of cells overlay the initial image, each cell with its newest write.
Main facts: a snapshot reads as memory does, modulo 2 ^ 64, and has the bytes of the initial image and of the written
cells; and a memory that starts from a snapshot has that snapshot, and the same ones as the memory it was taken of after
whatever is promised of both.
-/

namespace Litmus

/-- The image with what an event writes. -/
def Event.putTo (e : Event) (image : Image) : Image :=
  match e with
  | .write _ loc value => image.writeCell loc value
  | .maintain _ _ => image

/-- Whether an event writes no cell but an aligned one. -/
def Event.Aligned (e : Event) : Prop := ∀ loc, e.location? = some loc → loc % 8 = 0

namespace Memory

variable {m n : Memory} {image : Image} {e : Event} {loc a : Int} {t : View}

/-- Whether a byte belongs to a cell that is written. -/
def Written (m : Memory) (a : Int) : Prop :=
  ∃ t tid loc value, m.at? t = some (.write tid loc value) ∧ loc ≤ a ∧ a < loc + 8

theorem Aligned.written_iff (h : m.Aligned) : m.Written a ↔ Image.cellOf a ∈ m.locations := by
  rw [mem_locations]
  constructor
  · rintro ⟨t, tid, loc, value, ht, ha⟩
    exact ⟨t, tid, value, by rwa [(Image.cellOf_eq_iff (h t tid loc value ht)).mpr ha]⟩
  · rintro ⟨t, tid, value, ht⟩
    exact ⟨t, tid, _, value, ht, (Image.cellOf_eq_iff (h t tid _ value ht)).mp rfl⟩

/-! ### Snapshots -/

/-- The bytes of a snapshot: those of the newest writes, and of the initial image where nothing is written. -/
theorem getElem?_snapshot (h : m.snapshot = .ok image) (a : Int) : image[a]? =
    if Image.cellOf a ∈ m.locations then
      (Image.bytesOf 8 (m.latest (Image.cellOf a)).value)[(a - Image.cellOf a).toNat]?
    else m.initial[a]? := by
  obtain ⟨haligned, rfl⟩ := snapshot_eq_ok h
  exact Image.getElem?_writeCells _ a m.locations m.initial haligned

theorem mem_snapshot (h : m.snapshot = .ok image) : a ∈ image ↔ a ∈ m.initial ∨ Image.cellOf a ∈ m.locations := by
  rw [Std.ExtTreeMap.mem_iff_isSome_getElem?, Std.ExtTreeMap.mem_iff_isSome_getElem?, getElem?_snapshot h]
  split
  · next hmem =>
    have hlt : (a - Image.cellOf a).toNat < (Image.bytesOf 8 (m.latest (Image.cellOf a)).value).length := by
      rw [Image.length_bytesOf, Image.cellOf]
      lia
    simp [hmem, List.getElem?_eq_getElem hlt]
  · next hmem => simp [hmem]

theorem latest_of_not_mem_locations (h : loc ∉ m.locations) : m.latest loc = ⟨m.initial.readCell loc, 0⟩ := by
  refine latest_eq_iff.mpr ⟨.inr rfl, ?_⟩
  intro t tid value ht
  exact absurd (mem_locations.mpr ⟨t, tid, value, ht⟩) h

/-- A snapshot reads as memory does, modulo 2 ^ 64. -/
theorem readCell_snapshot (h : m.snapshot = .ok image) (hloc : loc % 8 = 0) :
    image.readCell loc = (m.latest loc).value % 2 ^ 64 := by
  obtain ⟨haligned, rfl⟩ := snapshot_eq_ok h
  rw [Image.readCell_writeCells hloc m.locations m.initial haligned]
  split
  · rfl
  · next hmem =>
    obtain ⟨hnonneg, hlt⟩ := m.initial.readCell_bounds loc
    rw [latest_of_not_mem_locations hmem, Int.emod_eq_of_lt hnonneg hlt]

theorem snapshot_ofImage (image : Image) : (ofImage image).snapshot = .ok image := rfl

theorem aligned_of_snapshot (h : m.snapshot = .ok image) : m.Aligned :=
  fun t tid loc value ht => (snapshot_eq_ok h).1 loc (mem_locations.mpr ⟨t, tid, value, ht⟩)

/-! ### New events -/

theorem Aligned.promise (h : m.Aligned) (hm : m.Whole) (he : e.Aligned) (hn : m.promise e = .ok (n, t)) : n.Aligned := by
  obtain ⟨n', hn', -, -, -, hat⟩ := promise_spec hm e
  cases hn'.symm.trans hn
  intro u tid loc value hu
  rw [hat] at hu
  split at hu
  · cases hu
    exact he loc rfl
  · exact h u tid loc value hu

/-- A new event puts to the snapshot what it writes. -/
theorem snapshot_promise (hm : m.Whole) (he : e.Aligned) (hs : m.snapshot = .ok image) (hn : m.promise e = .ok (n, t)) :
    n.snapshot = .ok (e.putTo image) := by
  obtain ⟨n', hn', -, hinitial, -, hat⟩ := promise_spec hm e
  cases hn'.symm.trans hn
  obtain ⟨final, hfinal⟩ := ((aligned_of_snapshot hs).promise hm he hn).exists_snapshot
  rw [hfinal]
  refine congrArg Except.ok (Std.ExtTreeMap.ext_getElem? fun {a} => ?_)
  cases e with
  | write tid loc value =>
    have htakes : m.Takes tid loc value n := ⟨hinitial, hat⟩
    rw [Event.putTo, Image.getElem?_writeCell image value a (he loc rfl), getElem?_snapshot hs, getElem?_snapshot hfinal,
      hinitial, htakes.latest_eq]
    simp only [htakes.mem_locations]
    by_cases ha : Image.cellOf a = loc
    · simp [ha]
    · simp [ha]
  | maintain tid x =>
    have hsame (u : View) (tid' l v : Int) :
        n.at? u = some (.write tid' l v) ↔ m.at? u = some (.write tid' l v) := by
      rw [hat]
      split
      · next hu =>
        subst hu
        refine ⟨nofun, fun hu => ?_⟩
        have := le_length_of_at? hu
        lia
      · rfl
    have hlatest (l : Int) : n.latest l = m.latest l := by
      rw [latest_eq_iff]
      simp only [hsame, hinitial]
      exact latest_eq_iff.mp rfl
    have hlocations (l : Int) : l ∈ n.locations ↔ l ∈ m.locations := by simp only [mem_locations, hsame]
    rw [Event.putTo, getElem?_snapshot hs, getElem?_snapshot hfinal, hinitial, hlatest]
    simp only [hlocations]

/-- Promising one event after the other puts what they write to the snapshot, one after the other. -/
theorem snapshot_changed {es : List Event} (hm : m.Whole) (hs : m.snapshot = .ok image) (hes : ∀ e ∈ es, e.Aligned) :
    ∃ n, m.changed (es.map .promise) = .ok n ∧ n.snapshot = .ok (es.foldl (fun image e => e.putTo image) image) := by
  induction es generalizing m image with
  | nil => exact ⟨m, rfl, hs⟩
  | cons e es ih =>
    obtain ⟨he, hes⟩ := List.forall_mem_cons.mp hes
    obtain ⟨m', hm', hwhole, -⟩ := promise_spec hm e
    obtain ⟨n, hn, hfinal⟩ := ih hwhole (snapshot_promise hm he hs hm') hes
    refine ⟨n, ?_, hfinal⟩
    rw [List.map_cons, changed, List.foldlM_cons, bind_eq_ok]
    exact ⟨m', by rw [change, hm']; rfl, hn⟩

/-- The snapshot of a memory, whole or not, whose writes are of cells: each cell reads as memory does, modulo 2 ^ 64; a
byte is there that the initial image has or that belongs to a written cell, and outside of those it is that of the initial
image. A memory that starts from it has it for its snapshot, and whatever is promised of that memory and of the whole one
that the snapshot was taken of, their snapshots are the same. An image of cells reads as what is listed last of a cell. -/
theorem snapshot_exact :
    (∀ m : Memory, m.Aligned → ∃ image, m.snapshot = .ok image ∧
      (∀ loc, loc % 8 = 0 → ∃ r, m.readLast loc = .ok r ∧ image.readCell loc = r.value % 2 ^ 64) ∧
      (∀ a, a ∈ image ↔ a ∈ m.initial ∨ m.Written a) ∧
      (∀ a, ¬m.Written a → image[a]? = m.initial[a]?) ∧
      (ofImage image).snapshot = .ok image ∧
      (m.Whole → ∀ es : List Event, (∀ e ∈ es, e.Aligned) → ∃ n n' final,
        m.changed (es.map .promise) = .ok n ∧ (ofImage image).changed (es.map .promise) = .ok n' ∧
        n.snapshot = .ok final ∧ n'.snapshot = .ok final)) ∧
    ∀ (cells : List (Int × Int)) (loc : Int), (∀ x ∈ cells, x.1 % 8 = 0) → loc % 8 = 0 →
      (Image.ofCells cells).readCell loc =
        (((cells.filter fun x => x.1 = loc).getLast?.map Prod.snd).getD 0) % 2 ^ 64 := by
  refine ⟨?_, fun cells loc ha h => Image.readCell_ofCells h ha⟩
  intro m haligned
  obtain ⟨image, hs⟩ := haligned.exists_snapshot
  refine ⟨image, hs, ?_, ?_, ?_, snapshot_ofImage image, ?_⟩
  · exact fun loc h => ⟨_, m.readLast_of_aligned h, readCell_snapshot hs h⟩
  · exact fun a => by rw [mem_snapshot hs, haligned.written_iff]
  · intro a ha
    rw [getElem?_snapshot hs, if_neg (mt haligned.written_iff.mpr ha)]
  · intro hm es hes
    obtain ⟨n, hn, hfinal⟩ := snapshot_changed hm hs hes
    obtain ⟨n', hn', hfinal'⟩ := snapshot_changed (whole_ofImage image) (snapshot_ofImage image) hes
    exact ⟨n, n', _, hn, hn', hfinal, hfinal'⟩

/-- Two cells written with values that no eight bytes hold, after a single byte. -/
def wideWrites : Memory where
  events := [.write 0 8 (-1), .maintain 0 .all, .write 1 16 0x10000000000000005, .write 1 8 (-2)]
  initial := (∅ : Image).insert 33 7
  lo := 0
  hi := 4
  lo_le_hi := by decide
  hi_le_length := by decide

theorem snapshot_exact_wideWrites : wideWrites.Aligned ∧ wideWrites.Whole ∧ ∃ image, wideWrites.snapshot = .ok image ∧
    image.readCell 8 = 2 ^ 64 - 2 ∧ image.readCell 16 = 5 ∧ 33 ∈ image ∧
    (∃ n n' final, wideWrites.changed [.promise (.write 0 32 9)] = .ok n ∧
      (ofImage image).changed [.promise (.write 0 32 9)] = .ok n' ∧ n.snapshot = .ok final ∧ n'.snapshot = .ok final) ∧
    (Image.ofCells [(8, -1), (16, 3), (8, 0x10000000000000007)]).readCell 8 = 7 := by
  have haligned : wideWrites.Aligned := aligned_of_snapshot rfl
  obtain ⟨hmemory, hcells⟩ := snapshot_exact
  obtain ⟨image, hs, hread, hmem, -, -, hgrown⟩ := hmemory wideWrites haligned
  obtain ⟨r, hr, hr'⟩ := hread 8 rfl
  obtain ⟨q, hq, hq'⟩ := hread 16 rfl
  obtain rfl : r = ⟨-2, 4⟩ := Except.ok.inj (hr.symm.trans rfl)
  obtain rfl : q = ⟨0x10000000000000005, 3⟩ := Except.ok.inj (hq.symm.trans rfl)
  refine ⟨haligned, ⟨rfl, rfl⟩, image, hs, hr', hq', (hmem 33).mpr (.inl (by decide)), ?_, hcells _ 8 (by decide) rfl⟩
  exact hgrown ⟨rfl, rfl⟩ [.write 0 32 9] (by simp [Event.Aligned, Event.location?])

end Memory

end Litmus
