import Litmus.Proofs.Exploration.Complete
import Litmus.Proofs.Exploration.Stopping
import Litmus.Proofs.Memory.Rebased

/-!
Fetches of instructions. A fetch delivers half of the cell that its four bytes are in, as the cell was at the last context
synchronization of the thread. Main facts: modulo 2 ^ 32 that is the number which the four bytes make up in the image of
memory at that synchronization; it is the number itself for a low half, and for a high half just if the integer that was
stored fits into the cell, since stored integers are not reduced: behind a store of minus one a fetch delivers minus one.
-/

namespace Litmus

/-! ### Where a thread is, memory holds writes of cells alone -/

theorem Instr.Comes.aligned {i j : Instr} {f g : Frame} (c : i.Comes f j g) (hm : f.memory.Whole)
    (hf : f.memory.Aligned) : g.memory.Aligned := by
  induction c with
  | here => exact hf
  | on hs _ ih => exact ih ((hs.grows hm).whole hm) (hs.aligned hm hf)

theorem State.At.aligned {p : Program} {s : State} {tid : Nat} {f : Frame} (hs : p.Reaches s) (hf : s.At p tid f) :
    f.memory.Aligned := by
  obtain ⟨ds, r⟩ := Program.reaches_iff.mp hs
  cases hf with
  | rest => exact r.aligned
  | amid _ _ _ hc => exact hc.aligned r.fits.whole r.aligned

theorem Memory.Aligned.cut {m : Memory} (h : m.Aligned) (v : View) : (m.cut v).Aligned :=
  fun t tid loc value ht => h t tid loc value (at?_cut_eq_some_iff.mp ht).2

/-! ### What a fetch delivers -/

/-- The memory that a thread fetches from: as it was at the last context synchronization. -/
def Frame.codeMemory (f : Frame) : Memory := f.memory.cut f.thread.views.contextSync

/-- Half of an integer: its lowest 32 bits, or all that is above them. -/
def half (high : Bool) (value : Int) : Int := if high then value / 2 ^ 32 else value % 2 ^ 32

theorem half_emod (high : Bool) (value : Int) : half high value % 2 ^ 32 = half high (value % 2 ^ 64) := by
  cases high with
  | false =>
    simp only [half]
    lia
  | true =>
    simp only [half]
    lia

/-- Half of an integer is half of what eight bytes hold of it, for the high half just if they hold all of it. -/
theorem half_eq_iff (high : Bool) (value : Int) :
    half high value = half high (value % 2 ^ 64) ↔ high = false ∨ 0 ≤ value ∧ value < 2 ^ 64 := by
  cases high with
  | false =>
    simp only [half]
    lia
  | true =>
    simp only [half]
    lia

/-- The bytes of half of a cell make up that half of its value. -/
theorem Image.valueOf_bytes_half (image : Image) {pa : Int} (ha : pa % 4 = 0) :
    Image.valueOf (image.bytes pa 4) = half (decide (pa % 8 = 4)) (image.readCell (pa / 8 * 8)) := by
  obtain ⟨hlow, hhigh⟩ := image.halves (pa / 8 * 8)
  by_cases h : pa % 8 = 4
  · rw [show pa / 8 * 8 + 4 = pa by lia] at hhigh
    simpa [h, half] using hhigh
  · rw [show pa / 8 * 8 = pa by lia] at hlow ⊢
    simpa [h, half] using hlow

/-- A fetch of four aligned bytes delivers half of the integer that was stored to their cell last. -/
theorem Frame.fetch_eq (f : Frame) {req : ReadRequest} (hsize : req.size = 4) (ha : req.pa % 4 = 0) :
    f.fetch req = .ok (half (decide (req.pa % 8 = 4)) (f.codeMemory.latest (req.pa / 8 * 8)).value) := by
  have hread : f.memory.readAt (req.pa / 8 * 8) f.thread.views.contextSync = .ok (f.codeMemory.latest (req.pa / 8 * 8)) :=
    Memory.readLast_of_aligned _ (by lia)
  have hhigh : req.pa / 4 % 2 = 1 ↔ req.pa % 8 = 4 := by lia
  simp [fetch, hsize, ha, hread, hhigh, half, bind, Except.bind, pure, Except.pure]

/-- Wherever a thread is, a fetch of four aligned bytes delivers a value that is, modulo 2 ^ 32, the number which the bytes
make up in the image of memory at the last context synchronization. It is that number itself if the bytes are the lower
half of their cell, or what was stored to the cell last is in the range of eight bytes, and not if neither is so. -/
theorem State.At.fetch_exact {p : Program} {s : State} {tid : Nat} {f : Frame} (hs : p.Reaches s) (hf : s.At p tid f)
    (req : ReadRequest) (hkind : req.kind = .fetch) (hsize : req.size = 4) (ha : req.pa % 4 = 0) :
    ∃ (image : Image) (value : Int), f.codeMemory.snapshot = .ok image ∧ (Effect.read req).run f = .done (f, value) ∧
      0 ≤ Image.valueOf (image.bytes req.pa 4) ∧ Image.valueOf (image.bytes req.pa 4) < 2 ^ 32 ∧
      value % 2 ^ 32 = Image.valueOf (image.bytes req.pa 4) ∧
      (value = Image.valueOf (image.bytes req.pa 4) ↔ req.pa % 8 = 0 ∨
        0 ≤ (f.codeMemory.latest (req.pa / 8 * 8)).value ∧ (f.codeMemory.latest (req.pa / 8 * 8)).value < 2 ^ 64) := by
  obtain ⟨image, himage⟩ := ((hf.aligned hs).cut _).exists_snapshot
  have hbytes := image.valueOf_bytes_half ha
  rw [Memory.readCell_snapshot himage (by lia)] at hbytes
  have hlt := Image.valueOf_lt (image.bytes req.pa 4)
  rw [Image.length_bytes] at hlt
  let stored := (f.codeMemory.latest (req.pa / 8 * 8)).value
  refine ⟨image, half (decide (req.pa % 8 = 4)) stored, himage, ?_, Image.valueOf_nonneg _, hlt, ?_, ?_⟩
  · rw [Effect.run, Frame.read, if_pos hkind, f.fetch_eq hsize ha]
    rfl
  · rw [hbytes]
    exact half_emod _ _
  · rw [hbytes]
    refine (half_eq_iff _ _).trans (or_congr_left ?_)
    rw [decide_eq_false_iff_not]
    lia

/-- A thread stores minus one to a cell, synchronizes, and fetches from the upper half of the cell. -/
def storeThenFetch : Program where
  threads := [
    { code := [Shape.store "X1" "X0" .plain, Shape.dsb .sy, Shape.isb,
        .ask (.read { pa := 0x104, size := 4, kind := .fetch }) fun value => Shape.only (.writeReg "X2" value .none)]
      regs := .ofList [("X0", (0x100 : Int)), ("X1", -1)] }]

theorem exists_stored_storeThenFetch : ∃ s slot, storeThenFetch.Reaches s ∧ s.threads[0]? = some slot ∧ slot.pc = 3 ∧
    (Frame.codeMemory { thread := slot.thread, memory := s.memory }).latest 0x100 = ⟨-1, 1⟩ := by
  have path : (storeThenFetch.start.follow storeThenFetch {} [0, 0, 0]).any (fun s => s.threads[0]?.any fun slot =>
      decide (slot.pc = 3) &&
        decide ((Frame.codeMemory { thread := slot.thread, memory := s.memory }).latest 0x100 = ⟨-1, 1⟩)) = true := by
    decide +kernel
  obtain ⟨s, hs, path⟩ := Program.exists_reaches [0, 0, 0] path
  simp only [Option.any_eq_true, Bool.and_eq_true, decide_eq_true_eq] at path
  obtain ⟨slot, hslot, hpc, hlatest⟩ := path
  exact ⟨s, slot, hs, hslot, hpc, hlatest⟩

theorem fetch_exact_storeThenFetch : ∃ s f image, storeThenFetch.Reaches s ∧ s.At storeThenFetch 0 f ∧
    f.codeMemory.snapshot = .ok image ∧
    (∃ low, (Effect.read { pa := 0x100, size := 4, kind := .fetch }).run f = .done (f, low) ∧
      low = Image.valueOf (image.bytes 0x100 4)) ∧
    ∃ high, (Effect.read { pa := 0x104, size := 4, kind := .fetch }).run f = .done (f, high) ∧
      high % 2 ^ 32 = Image.valueOf (image.bytes 0x104 4) ∧ high ≠ Image.valueOf (image.bytes 0x104 4) := by
  obtain ⟨s, slot, hs, hslot, -, hlatest⟩ := exists_stored_storeThenFetch
  have hf : s.At storeThenFetch 0 { thread := slot.thread, memory := s.memory } := .rest hslot
  obtain ⟨image, low, himage, hlow, -, -, -, hexact⟩ :=
    State.At.fetch_exact hs hf { pa := 0x100, size := 4, kind := .fetch } rfl rfl rfl
  obtain ⟨image', high, himage', hhigh, -, -, hmod, hexact'⟩ :=
    State.At.fetch_exact hs hf { pa := 0x104, size := 4, kind := .fetch } rfl rfl rfl
  cases himage.symm.trans himage'
  refine ⟨s, _, image, hs, hf, himage, ⟨low, hlow, hexact.mpr (.inl rfl)⟩, high, hhigh, hmod, ?_⟩
  intro h
  have hfits := hexact'.mp h
  rw [show (0x104 : Int) / 8 * 8 = 0x100 from rfl, hlatest] at hfits
  lia

/-- A thread comes to a fetch that delivers minus one, and not the number that the four bytes make up. -/
theorem exists_fetch_of_negative : ∃ s slot image, storeThenFetch.Reaches s ∧ s.threads[0]? = some slot ∧ slot.pc = 3 ∧
    (Frame.codeMemory { thread := slot.thread, memory := s.memory }).snapshot = .ok image ∧
    (Effect.read { pa := 0x104, size := 4, kind := .fetch }).run { thread := slot.thread, memory := s.memory } =
      .done ({ thread := slot.thread, memory := s.memory }, -1) ∧
    Image.valueOf (image.bytes 0x104 4) = 2 ^ 32 - 1 := by
  obtain ⟨s, slot, hs, hslot, hpc, hlatest⟩ := exists_stored_storeThenFetch
  have hf : s.At storeThenFetch 0 { thread := slot.thread, memory := s.memory } := .rest hslot
  obtain ⟨image, himage⟩ := ((hf.aligned hs).cut slot.thread.views.contextSync).exists_snapshot
  refine ⟨s, slot, image, hs, hslot, hpc, himage, ?_, ?_⟩
  · rw [Effect.run, Frame.read, if_pos rfl, Frame.fetch_eq _ rfl rfl, show (0x104 : Int) / 8 * 8 = 0x100 from rfl, hlatest]
    rfl
  · rw [image.valueOf_bytes_half rfl, show (0x104 : Int) / 8 * 8 = 0x100 from rfl, Memory.readCell_snapshot himage rfl]
    rw [Frame.codeMemory] at hlatest
    rw [hlatest]
    rfl

end Litmus
