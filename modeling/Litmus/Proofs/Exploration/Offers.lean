import Litmus.Proofs.Exploration.Complete
import Litmus.Proofs.Thread.Below
import Mathlib.Data.List.Nodup
import Mathlib.Data.List.Perm.Subperm

/-!
More writes to promise only add finals. A program may be given more promisable writes, in any order, as long as it keeps
each as often as it has it. Main fact: whatever an exploration of the program finds, one of the program with more to
promise finds. The two run side by side, in the same threads and the same memory; what the one has still to promise,
counted with repetition, the other has as well, and a promise takes one such write from both.
-/

namespace Litmus

/-! ### Writes that are left -/

/-- The writes that a thread can still promise, as often as it can. -/
def ThreadProgram.offers (t : ThreadProgram) (promised : List Nat) : List (Int × Int) :=
  (t.unpromised promised).map Prod.fst

namespace ThreadProgram

variable {t : ThreadProgram} {promised : List Nat}

theorem offers_nil : t.offers [] = t.promisable := by simp [offers, unpromised]

/-- The writes that are left differ in their places. -/
theorem nodup_unpromised : ((t.unpromised promised).map Prod.snd).Nodup := by
  have hplaces : (t.promisable.zipIdx.map Prod.snd).Nodup := by
    rw [List.zipIdx_map_snd]
    exact List.nodup_range'
  exact hplaces.sublist (List.filter_sublist.map _)

/-- A promise takes one write away, whatever its place. -/
theorem offers_promised {w : (Int × Int) × Nat} (h : w ∈ t.unpromised promised) :
    (t.offers promised).Perm (w.1 :: t.offers (promised ++ [w.2])) := by
  have hnodup : ((t.unpromised promised).map Prod.snd).Nodup := nodup_unpromised
  have hleft : t.unpromised (promised ++ [w.2]) = (t.unpromised promised).erase w := by
    have hfilter : t.unpromised (promised ++ [w.2]) = (t.unpromised promised).filter (·.2 != w.2) := by
      simp only [unpromised, List.filter_filter]
      refine List.filter_congr fun x _ => ?_
      by_cases hx : x.2 = w.2 <;> simp [hx]
    rw [hfilter, (List.Nodup.of_map Prod.snd hnodup).erase_eq_filter]
    refine List.filter_congr fun x hx => ?_
    rw [bne, bne, Bool.not_inj_iff, Bool.eq_iff_iff, beq_iff_eq, beq_iff_eq]
    exact ⟨fun he => List.inj_on_of_nodup_map hnodup hx h he, congrArg Prod.snd⟩
  rw [offers, offers, hleft]
  exact (List.perm_cons_erase h).map Prod.fst

end ThreadProgram

/-! ### Programs with more to promise -/

/-- Whether a thread is another one that may promise each write as often at least. -/
structure ThreadProgram.Offers (t' t : ThreadProgram) : Prop where
  code_eq : t'.code = t.code
  regs_eq : t'.regs = t.regs
  promisable : t.promisable.Subperm t'.promisable

/-- Whether a program is another one whose threads may promise as much at least. -/
structure Program.Offers (p' p : Program) : Prop where
  cells_eq : p'.cells = p.cells
  threads : List.Forall₂ ThreadProgram.Offers p'.threads p.threads

/-- Whether a slot of a thread is another one with as much left to promise at least. -/
structure Slot.Offers (p' p : Program) (tid : Nat) (b a : Slot) : Prop where
  pc_eq : b.pc = a.pc
  thread_eq : b.thread = a.thread
  offers : ∀ t' t, p'.threads[tid]? = some t' → p.threads[tid]? = some t → (t.offers a.promised).Subperm (t'.offers b.promised)

/-- Whether a state is another one whose threads have as much left to promise at least. -/
structure State.Offers (p' p : Program) (s' s : State) : Prop where
  memory_eq : s'.memory = s.memory
  slots : ∀ tid : Nat, Option.Rel (Slot.Offers p' p tid) s'.threads[tid]? s.threads[tid]?

namespace State.Offers

variable {p p' : Program} {s s' u : State}

theorem start (hp : p'.Offers p) : p'.start.Offers p' p p.start where
  memory_eq := by
    have : p'.image = p.image := by rw [Program.image, Program.image, hp.cells_eq]
    exact congrArg Memory.ofImage this
  slots tid := by
    rw [Program.threads_start, Program.threads_start]
    have hthread := rel_getElem? hp.threads tid
    cases ht : p.threads[tid]? with
    | none =>
      rw [eq_none_of_rel hthread ht]
      exact .none
    | some t =>
      obtain ⟨t', ht', h⟩ := exists_of_rel hthread ht
      rw [ht']
      refine .some ⟨rfl, congrArg (Thread.start tid) h.regs_eq, ?_⟩
      intro u' u hu' hu
      cases ht'.symm.trans hu'
      cases ht.symm.trans hu
      rw [ThreadProgram.offers_nil, ThreadProgram.offers_nil]
      exact h.promisable

theorem withSlot (h : s'.Offers p' p s) {tid : Nat} {a b a' b' : Slot} (hb : s'.threads[tid]? = some b)
    (ha : s.threads[tid]? = some a) (hnew : b'.Offers p' p tid a') (m : Memory) :
    (s'.withSlot tid b' m).Offers p' p (s.withSlot tid a' m) where
  memory_eq := rfl
  slots i := by
    rw [getElem?_withSlot hb, getElem?_withSlot ha]
    split
    · next e => exact .some (e ▸ hnew)
    · exact h.slots i

/-- A move of the one is a move of the other. -/
theorem move (hp : p'.Offers p) (h : s'.Offers p' p s) (hmove : s.Move p u) :
    ∃ u', s'.Move p' u' ∧ u'.Offers p' p u := by
  cases hmove with
  | run ht ha hi hf =>
    obtain ⟨t', ht', hthread⟩ := exists_of_rel (rel_getElem? hp.threads _) ht
    obtain ⟨b, hb, hslot⟩ := exists_of_rel (h.slots _) ha
    rw [← hthread.code_eq, ← hslot.pc_eq] at hi
    rw [← hslot.thread_eq, ← h.memory_eq] at hf
    refine ⟨_, .run ht' hb hi hf, h.withSlot hb ha ?_ _⟩
    exact ⟨congrArg (· + 1) hslot.pc_eq, rfl, hslot.offers⟩
  | promise ht ha hpc hw hf =>
    obtain ⟨t', ht', hthread⟩ := exists_of_rel (rel_getElem? hp.threads _) ht
    obtain ⟨b, hb, hslot⟩ := exists_of_rel (h.slots _) ha
    -- the same write is left in the other list, maybe at another place
    have hoffers := hslot.offers _ _ ht' ht
    obtain ⟨w', hw', he⟩ := List.mem_map.mp (hoffers.subset (List.mem_map.mpr ⟨_, hw, rfl⟩))
    rw [← hthread.code_eq, ← hslot.pc_eq] at hpc
    rw [← hslot.thread_eq, ← h.memory_eq, ← he] at hf
    refine ⟨_, .promise ht' hb hpc hw' hf, h.withSlot hb ha ?_ _⟩
    refine ⟨hslot.pc_eq, rfl, ?_⟩
    intro u' u hu' hu
    cases ht'.symm.trans hu'
    cases ht.symm.trans hu
    rw [(ThreadProgram.offers_promised hw).subperm_right, (ThreadProgram.offers_promised hw').subperm_left, he] at hoffers
    exact (List.subperm_cons _).mp hoffers

theorem finished (hp : p'.Offers p) (h : s'.Offers p' p s) (hend : s.Finished p) : s'.Finished p' := by
  intro tid t' b ht' hb
  obtain ⟨t, ht, hthread⟩ := exists_of_rel_left (rel_getElem? hp.threads tid) ht'
  obtain ⟨a, ha, hslot⟩ := exists_of_rel_left (h.slots tid) hb
  rw [hthread.code_eq, hslot.pc_eq]
  exact hend tid t a ht ha

/-- The threads of both are the same. -/
theorem map_thread_eq (h : s'.Offers p' p s) : s'.threads.map Slot.thread = s.threads.map Slot.thread := by
  refine List.ext_getElem? fun tid => ?_
  have thread {a b : Option Slot} (h : Option.Rel (Slot.Offers p' p tid) b a) : b.map Slot.thread = a.map Slot.thread := by
    cases h with
    | none => rfl
    | some hslot => exact congrArg some hslot.thread_eq
  rw [List.getElem?_map, List.getElem?_map]
  exact thread (h.slots tid)

theorem fulfilled (h : s'.Offers p' p s) (hend : s.Fulfilled) : s'.Fulfilled := by
  have hiff (s : State) : s.Fulfilled ↔ ∀ thread ∈ s.threads.map Slot.thread, thread.promises = [] := by simp [Fulfilled]
  rw [hiff, h.map_thread_eq, ← hiff]
  exact hend

theorem final_eq (h : s'.Offers p' p s) : s'.final = s.final := by
  have hregs (s : State) : s.threads.map (fun slot => slot.thread.plainRegs) =
      (s.threads.map Slot.thread).map Thread.plainRegs := by rw [List.map_map]; rfl
  rw [final, final, h.memory_eq, hregs, hregs, h.map_thread_eq]

end State.Offers

/-- Whatever state a program reaches, it reaches one alike with more left to promise, if it is given more to promise. -/
theorem Program.Offers.exists_reaches {p p' : Program} {s : State} (hp : p'.Offers p) (hs : p.Reaches s) :
    ∃ s', p'.Reaches s' ∧ s'.Offers p' p s := by
  induction hs with
  | refl => exact ⟨_, .refl, .start hp⟩
  | tail _ hmove ih =>
    obtain ⟨s', hs', h⟩ := ih
    obtain ⟨u', hmove', h'⟩ := h.move hp hmove
    exact ⟨u', hs'.tail hmove', h'⟩

theorem Program.Offers.mem_finals {p p' : Program} {o o' : Options} {r r' : Explored} (hp : p'.Offers p)
    (h : (explore p o).result = .ok r) (h' : (explore p' o').result = .ok r') {f : Final} (hf : f ∈ r.finals) :
    f ∈ r'.finals := by
  obtain ⟨s, hs, hend, hful, hfinal⟩ := exists_reaches_of_mem_finals h hf
  obtain ⟨s', hs', hoffers⟩ := hp.exists_reaches hs
  obtain ⟨g, hg, hfinal'⟩ := exists_final_of_reaches h' hs' (hoffers.finished hp hend) (hoffers.fulfilled hful)
  rw [hoffers.final_eq, hfinal] at hfinal'
  cases hfinal'
  exact hg

/-- A program that is given the same writes to promise in another order is given no fewer. -/
theorem Program.Offers.symm {p p' : Program} (hp : p'.Offers p)
    (hperm : List.Forall₂ (fun t' t => t'.promisable.Perm t.promisable) p'.threads p.threads) : p.Offers p' where
  cells_eq := hp.cells_eq.symm
  threads := by
    have hthreads := hp.threads
    generalize p'.threads = ts' at hthreads hperm
    generalize p.threads = ts at hthreads hperm
    induction hthreads with
    | nil => exact .nil
    | cons ht _ ih =>
      cases hperm with
      | cons hperm hrest => exact .cons ⟨ht.code_eq.symm, ht.regs_eq.symm, hperm.subperm⟩ (ih hrest)

/-- Promisable writes are monotone and free of order. Whatever an exploration finds of a program, one finds that is given
more to promise; and with the same writes in another order it finds nothing else. -/
theorem finals_of_offers {p p' : Program} {o o' : Options} {r r' : Explored} (hp : p'.Offers p)
    (h : (explore p o).result = .ok r) (h' : (explore p' o').result = .ok r') :
    (∀ f ∈ r.finals, f ∈ r'.finals) ∧
      (List.Forall₂ (fun t' t => t'.promisable.Perm t.promisable) p'.threads p.threads → r'.finals.Perm r.finals) := by
  refine ⟨fun f hf => hp.mem_finals h h' hf, fun hperm => ?_⟩
  obtain ⟨s, done, hinv, -, hr⟩ := invariant_of_explore h
  obtain ⟨s', done', hinv', -, hr'⟩ := invariant_of_explore h'
  have hdistinct : r.finals.Nodup := hr ▸ hinv.distinct
  have hdistinct' : r'.finals.Nodup := hr' ▸ hinv'.distinct
  refine (List.perm_ext_iff_of_nodup hdistinct' hdistinct).mpr fun f => ?_
  exact ⟨(hp.symm hperm).mem_finals h' h, hp.mem_finals h h'⟩

/-- Two threads load a cell each and store to the cell of the other. The first may promise some writes. -/
def bufferedLoads (promisable : List (Int × Int)) : Program where
  threads := [
    { code := [Shape.load "X3" "X4" .plain false, Shape.store "X1" "X2" .plain],
      regs := .ofList [("X1", (1 : Int)), ("X2", 0), ("X4", 8)], promisable },
    { code := [Shape.load "X3" "X4" .plain false, Shape.store "X1" "X2" .plain],
      regs := .ofList [("X1", (1 : Int)), ("X2", 8), ("X4", 0)] }]

/-- A thread stores to a cell, and may promise some writes, and another thread loads the cell. -/
def promisedStore (promisable : List (Int × Int)) : Program where
  threads := [
    { code := [Shape.store "X1" "X2" .plain], regs := .ofList [("X1", (1 : Int)), ("X2", 0)], promisable },
    { code := [Shape.load "X1" "X2" .plain false], regs := .ofList [("X1", (7 : Int)), ("X2", 0)] }]

theorem finals_of_offers_bufferedLoads : (∃ r r', (explore (bufferedLoads []) {}).result = .ok r ∧
    (explore (bufferedLoads [(0, 1)]) {}).result = .ok r' ∧ r.finals.length = 3 ∧ r'.finals.length = 4 ∧
    ∀ f ∈ r.finals, f ∈ r'.finals) ∧
    ∃ r r', (explore (promisedStore [(0, 1), (0, 2)]) {}).result = .ok r ∧
      (explore (promisedStore [(0, 2), (0, 1)]) {}).result = .ok r' ∧ r.finals.length = 2 ∧ r'.finals.Perm r.finals := by
  constructor
  · obtain ⟨r, hr, three⟩ := exists_result_of_length (p := bufferedLoads []) (o := {}) (n := 3) (by decide +kernel)
    obtain ⟨r', hr', four⟩ := exists_result_of_length (p := bufferedLoads [(0, 1)]) (o := {}) (n := 4) (by decide +kernel)
    have hp : (bufferedLoads [(0, 1)]).Offers (bufferedLoads []) :=
      ⟨rfl, .cons ⟨rfl, rfl, List.nil_subperm⟩ (.cons ⟨rfl, rfl, .refl _⟩ .nil)⟩
    exact ⟨r, r', hr, hr', three, four, (finals_of_offers hp hr hr').1⟩
  · obtain ⟨r, hr, two⟩ := exists_result_of_length (p := promisedStore [(0, 1), (0, 2)]) (o := {}) (n := 2)
      (by decide +kernel)
    obtain ⟨r', hr', -⟩ := exists_result_of_length (p := promisedStore [(0, 2), (0, 1)]) (o := {}) (n := 2)
      (by decide +kernel)
    have hswap : [((0 : Int), (2 : Int)), (0, 1)].Perm [(0, 1), (0, 2)] := .swap ..
    have hp : (promisedStore [(0, 2), (0, 1)]).Offers (promisedStore [(0, 1), (0, 2)]) :=
      ⟨rfl, .cons ⟨rfl, rfl, hswap.symm.subperm⟩ (.cons ⟨rfl, rfl, .refl _⟩ .nil)⟩
    exact ⟨r, r', hr, hr', two, (finals_of_offers hp hr hr').2 (.cons hswap (.cons (.refl _) .nil))⟩

end Litmus
