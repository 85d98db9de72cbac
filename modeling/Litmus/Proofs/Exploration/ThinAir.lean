import Litmus.Proofs.Exploration.Complete
import Litmus.Proofs.Thread.Justified

/-!
No values out of thin air. Threads may promise to write any value at all, and others may read it before it
is justified. Main fact: once all promises are fulfilled, every value written and every value in a register is
one that the program gives. The proof is by induction on the time of a write: its value was justified from an
earlier view, so it is given, or it was written before.
-/

namespace Litmus

/-- The values that a program gives: in its cells, its registers and its moves, and as statuses of exclusive
stores. -/
inductive Program.Gives (p : Program) : Int → Prop
  | cell {loc : Int} : loc % 8 = 0 → Gives p (p.image.readCell loc)
  | register {t : ThreadProgram} {reg : String} {value : Int} :
      t ∈ p.threads → t.regs[reg]? = some value → Gives p value
  | immediate {t : ThreadProgram} {dst : String} {value : Int} :
      t ∈ p.threads → Shape.movImm dst value ∈ t.code → Gives p value
  | zero : Gives p 0
  | one : Gives p 1

/-- In every run what threads hold is justified by what the program gives. -/
theorem slotInvariant_justified {p : Program} (hp : ∀ t ∈ p.threads, ∀ i ∈ t.code, i.IsShape) :
    SlotInvariant p fun _ _ slot m => slot.thread.Justified p.Gives m where
  start ht := .start fun h => .register (List.mem_of_getElem? ht) h
  run {ds s tid t slot i as f} r ht hs hi h hr := by
    have ht := List.mem_of_getElem? ht
    have hi := List.mem_of_getElem? hi
    refine (hp t ht i hi).justified r.fits.whole ?_ ?_ .zero .one h hr
    · intro loc hloc
      rw [r.fits.image_eq]
      exact .cell hloc
    · rintro dst value rfl
      exact .immediate ht hi
  promise r hs h hp := h.promise r.fits.whole hp
  grow _ _ h hext hown := h.grow hext hown

/-- When no thread has a promise left, every value that was written is given. -/
theorem Program.Run.gives_of_write {p : Program} {ds : List Deed} {s : State}
    (hp : ∀ t ∈ p.threads, ∀ i ∈ t.code, i.IsShape) (r : p.Run ds s) (hfulfilled : s.Fulfilled) :
    ∀ (n : Nat) {time i loc x : Int}, time ≤ n → s.memory.at? time = some (.write i loc x) → p.Gives x := by
  intro n
  induction n with
  | zero =>
    intro time i loc x hle he
    exact absurd hle (Int.not_le.mpr (Memory.pos_of_at? he))
  | succ n ih =>
    intro time i loc x hle he
    obtain ⟨tid, slot, hslot, hi⟩ := r.fits.owned _ _ he
    have h := (slotInvariant_justified hp).holds r hslot
    have hown : i = slot.thread.tid := hi.trans (r.fits.tid_eq tid slot hslot).symm
    subst hown
    have hnone := hfulfilled slot (List.mem_of_getElem? hslot)
    rcases h.own he with hpromised | ⟨view, hlt, hj⟩
    · rw [hnone] at hpromised
      cases hpromised
    · rcases hj with hgiven | ⟨time', hle', i', loc', he'⟩
      · exact hgiven
      · exact ih (by lia) he'

/-- No value comes out of thin air, whatever threads may promise. In every state that moves of a program of the
shapes reach, and in which no thread has a promise left, the values of all writes and of all registers are
given by the program. -/
theorem Program.gives_of_reaches {p : Program} {s : State} (hp : ∀ t ∈ p.threads, ∀ i ∈ t.code, i.IsShape)
    (hs : p.Reaches s) (hfulfilled : s.Fulfilled) :
    (∀ time i loc x : Int, s.memory.at? time = some (.write i loc x) → p.Gives x) ∧
    ∀ slot ∈ s.threads, ∀ (reg : String) (x : Int), slot.thread.plainRegs[reg]? = some x → p.Gives x := by
  obtain ⟨ds, r⟩ := Program.reaches_iff.mp hs
  have writes {time i loc x : Int} (he : s.memory.at? time = some (.write i loc x)) : p.Gives x :=
    r.gives_of_write hp hfulfilled time.toNat (Int.self_le_toNat time) he
  refine ⟨fun time i loc x => writes, ?_⟩
  intro slot hslot reg x hx
  obtain ⟨tid, hslot⟩ := List.mem_iff_getElem?.mp hslot
  obtain ⟨view, hgiven | ⟨time, -, i, loc, he⟩⟩ := ((slotInvariant_justified hp).holds r hslot).plainRegs hx
  · exact hgiven
  · exact writes he

/-- Two threads copy a cell to the cell of the other, each of which may promise to store a value that is
nowhere else. -/
def copiesInCircle : Program where
  threads := [
    { code := [Shape.load "X1" "X2" .plain false, Shape.store "X1" "X3" .plain]
      regs := .ofList [("X2", (0 : Int)), ("X3", 8)], promisable := [(8, 42)] },
    { code := [Shape.load "X1" "X2" .plain false, Shape.store "X1" "X3" .plain]
      regs := .ofList [("X2", (8 : Int)), ("X3", 0)], promisable := [(0, 42)] }]

theorem gives_of_reaches_copiesInCircle :
    (∃ s, copiesInCircle.Reaches s ∧ s.memory.at? 1 = some (.write 0 8 42) ∧ s.memory.at? 2 = some (.write 1 0 42)) ∧
    ∃ s, copiesInCircle.Reaches s ∧ s.Finished copiesInCircle ∧ s.Fulfilled ∧
      (∀ time i loc, s.memory.at? time ≠ some (.write i loc 42)) ∧
      ∀ slot ∈ s.threads, ∀ reg : String, slot.thread.plainRegs[reg]? ≠ some 42 := by
  have shapes : ∀ t ∈ copiesInCircle.threads, ∀ i ∈ t.code, i.IsShape := by
    intro t ht i hi
    rcases List.mem_pair.mp ht with rfl | rfl <;> rcases List.mem_pair.mp hi with rfl | rfl
    · exact .load _ _ _ _
    · exact .store _ _ _
    · exact .load _ _ _ _
    · exact .store _ _ _
  have nowhere {x : Int} (h : copiesInCircle.Gives x) : x ≠ 42 := by
    cases h with
    | @cell loc =>
      -- there are no cells, so all bytes are zero
      have hbytes : copiesInCircle.image.bytes loc 8 = List.replicate 8 0 := by
        simp [Program.image, copiesInCircle, Image.ofCells, Image.bytes, Image.byte, List.replicate, List.range,
          List.range.loop]
      rw [Image.readCell, hbytes]
      decide
    | @register t reg x ht hx =>
      have hregs : copiesInCircle.threads.all (fun t => t.regs.toList.all fun e => e.2 != 42) = true := by
        decide +kernel
      have hx := Std.ExtTreeMap.mem_toList_iff_getElem?_eq_some.mpr hx
      simpa using List.all_eq_true.mp (List.all_eq_true.mp hregs t ht) (reg, x) hx
    | immediate ht hi =>
      rcases List.mem_pair.mp ht with rfl | rfl <;> rcases List.mem_pair.mp hi with hi | hi <;> cases hi
    | zero | one => decide
  constructor
  · have path : (copiesInCircle.start.follow copiesInCircle {} [1, 1, 1]).any (fun s =>
        decide (s.memory.at? 1 = some (.write 0 8 42)) && decide (s.memory.at? 2 = some (.write 1 0 42))) = true := by
      decide +kernel
    obtain ⟨s, hs, hP⟩ := Program.exists_reaches _ path
    simp only [Bool.and_eq_true, decide_eq_true_eq] at hP
    exact ⟨s, hs, hP⟩
  · have path : (copiesInCircle.start.follow copiesInCircle {} [0, 0, 0, 0]).any (fun s =>
        !s.isRunning copiesInCircle && s.pending.isEmpty) = true := by decide +kernel
    obtain ⟨s, hs, hP⟩ := Program.exists_reaches _ path
    rw [Bool.and_eq_true, Bool.not_eq_true', ← Bool.not_eq_true, State.isRunning_iff, not_not,
      State.pending_isEmpty_iff] at hP
    obtain ⟨hfinished, hfulfilled⟩ := hP
    obtain ⟨hwrites, hregs⟩ := Program.gives_of_reaches shapes hs hfulfilled
    exact ⟨s, hs, hfinished, hfulfilled, fun time i loc he => nowhere (hwrites time i loc 42 he) rfl,
      fun slot hslot reg hx => nowhere (hregs slot hslot reg 42 hx) rfl⟩

end Litmus
