import Litmus.Exploration.Program
import Litmus.Exploration.Total

/-!
States of a program between instructions. `rank` counts the moves that are left; each instruction run
and each promise made lowers it.
-/

namespace Litmus

/-- A thread, its next instruction, and which of its promisable writes it has promised. -/
structure Slot where
  pc : Nat
  promised : List Nat
  thread : Thread
  deriving DecidableEq

/-- A state: every thread, and memory. -/
structure State where
  threads : List Slot
  memory : Memory
  deriving DecidableEq

/-- What is left of a run: memory, and the registers of each thread. -/
structure Final where
  memory : Image
  regs : List (Registers Int)

/-- Images are compared as what they hold, whatever order their bytes were written in. -/
instance : DecidableEq Final := fun f g =>
  decidable_of_iff (f.memory = g.memory ∧ f.regs = g.regs) (by cases f; cases g; simp)

/-- The state in which a program starts. -/
def Program.start (p : Program) : State where
  threads := p.threads.zipIdx.map fun (t, tid) => { pc := 0, promised := [], thread := .start tid t.regs }
  memory := .ofImage p.image

/-- The promisable writes that a thread has not promised, with their places in the list. -/
def ThreadProgram.unpromised (t : ThreadProgram) (promised : List Nat) : List ((Int × Int) × Nat) :=
  t.promisable.zipIdx.filter fun (_, index) => !promised.contains index

/-- How many moves of a thread are left. -/
def Slot.rank (t : ThreadProgram) (s : Slot) : Nat := (t.code.length - s.pc) + (t.unpromised s.promised).length

namespace State

/-- The state with another thread and memory. -/
def withSlot (s : State) (tid : Nat) (slot : Slot) (memory : Memory) : State :=
  ⟨s.threads.set tid slot, memory⟩

/-- Whether any thread has instructions left. -/
def isRunning (p : Program) (s : State) : Bool :=
  (p.threads.zip s.threads).any fun (t, slot) => slot.pc < t.code.length

/-- The threads with promises left. -/
def pending (s : State) : List Slot := s.threads.filter fun slot => !slot.thread.hasNoPromises

/-- What is left of a run that ended in this state. -/
def final (s : State) : Except Fault Final := do
  return ⟨← s.memory.snapshot, s.threads.map fun slot => slot.thread.plainRegs⟩

/-- How many moves are left. -/
def rank (p : Program) (s : State) : Nat := total (fun (t, slot) => slot.rank t) (p.threads.zip s.threads)

/-- The state with every cache in order: what of it matters for further moves. -/
def settled (s : State) : State :=
  { s with threads := s.threads.map fun slot =>
      { slot with thread := slot.thread.withCache slot.thread.cache.inOrder } }

/-- What a state is filed under: how far its threads are, what was written to their registers, and what
happened to memory. -/
def key (s : State) : List Int :=
  (s.threads.flatMap fun slot =>
      (slot.pc : Int) :: slot.thread.regs.toList.map (·.2.value) ++ slot.thread.history.map (·.held.value))
    ++ s.memory.events.flatMap fun
      | .write tid loc value => [tid, loc, value]
      | .maintain tid _ => [tid]

end State

/-- What the rest of a run is filed under: what its registers and its memory hold. -/
def Final.key (f : Final) : List Int :=
  (f.regs.flatMap fun m => m.toList.map (·.2)) ++ f.memory.toList.map fun (_, b) => (b.toNat : Int)

/-! ### Moves lower the rank -/

theorem ThreadProgram.length_unpromised_lt {t : ThreadProgram} {promised : List Nat} {w : (Int × Int) × Nat}
    (h : w ∈ t.unpromised promised) : (t.unpromised (promised ++ [w.2])).length < (t.unpromised promised).length := by
  have hw := List.mem_filter.mp h
  have e : t.unpromised (promised ++ [w.2]) = (t.unpromised promised).filter fun x => !(x.2 == w.2) := by
    rw [ThreadProgram.unpromised, ThreadProgram.unpromised, List.filter_filter]
    congr 1
    funext x
    by_cases hx : x.2 = w.2 <;> simp [hx]
  rw [e]
  refine Nat.lt_of_le_of_ne (List.length_filter_le _ _) fun he => ?_
  have := List.length_filter_eq_length_iff.mp he w h
  simp at this

theorem Slot.rank_next {t : ThreadProgram} {s : Slot} (h : s.pc < t.code.length) (thread : Thread) :
    Slot.rank t { s with pc := s.pc + 1, thread } < Slot.rank t s := by
  simp only [Slot.rank]; omega

theorem Slot.rank_promise {t : ThreadProgram} {s : Slot} {w : (Int × Int) × Nat} (h : w ∈ t.unpromised s.promised)
    (thread : Thread) : Slot.rank t { s with promised := s.promised ++ [w.2], thread } < Slot.rank t s := by
  have := ThreadProgram.length_unpromised_lt h
  simp only [Slot.rank]; omega

theorem State.rank_withSlot {p : Program} {s : State} {tid : Nat} {t : ThreadProgram} {old new : Slot}
    {memory : Memory} (ht : p.threads[tid]? = some t) (hs : s.threads[tid]? = some old)
    (h : Slot.rank t new < Slot.rank t old) : (s.withSlot tid new memory).rank p < s.rank p := by
  simp only [State.rank, State.withSlot]
  generalize p.threads = ts at ht
  generalize s.threads = ss at hs
  induction ts generalizing ss tid with
  | nil => simp at ht
  | cons a ts ih =>
    cases ss with
    | nil => simp at hs
    | cons b ss =>
      cases tid with
      | zero =>
        simp only [List.getElem?_cons_zero, Option.some.injEq] at ht hs
        subst ht hs
        simp only [List.set_cons_zero, List.zip_cons_cons, total]
        omega
      | succ n =>
        simp only [List.getElem?_cons_succ] at ht hs
        have := ih ht ss hs
        simp only [List.set_cons_succ, List.zip_cons_cons, total]
        omega

end Litmus
