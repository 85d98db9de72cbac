import Litmus.Proofs.Exploration.Move
import Litmus.Proofs.Instruction.CacheOrder

/-!
States that differ in the order of their caches alone. They make the same moves, to states that again
differ in nothing else, and leave the same behind. Main fact: the order of caches is lost when a state is
settled, so a search that meets a settled state twice has nothing to gain from the second.
-/

namespace Litmus

/-- The slots are the same but for the order of the cache. -/
def Slot.Alike (a b : Slot) : Prop :=
  ∃ c : Paging.Cache, c.Alike b.thread.cache ∧ a = { b with thread := b.thread.withCache c }

theorem Slot.Alike.symm {a b : Slot} : a.Alike b → b.Alike a := by
  rintro ⟨c, hc, rfl⟩
  exact ⟨b.thread.cache, hc.symm, rfl⟩

theorem Slot.Alike.trans {a b c : Slot} : a.Alike b → b.Alike c → a.Alike c := by
  rintro ⟨d, hd, rfl⟩ ⟨e, he, rfl⟩
  exact ⟨d, fun l => (hd l).trans (he l), rfl⟩

namespace State

/-- The states are the same but for the order of the caches. -/
structure Alike (s t : State) : Prop where
  memory_eq : s.memory = t.memory
  length_eq : s.threads.length = t.threads.length
  slots : ∀ {tid : Nat} {a b : Slot}, s.threads[tid]? = some a → t.threads[tid]? = some b → a.Alike b

namespace Alike

theorem symm {s t : State} (h : s.Alike t) : t.Alike s :=
  ⟨h.memory_eq.symm, h.length_eq.symm, fun ha hb => (h.slots hb ha).symm⟩

/-- A slot of one state has its counterpart in the other. -/
theorem exists_slot {s t : State} (h : s.Alike t) {tid : Nat} {b : Slot} (hb : t.threads[tid]? = some b) :
    ∃ a, s.threads[tid]? = some a ∧ a.Alike b := by
  have hlt : tid < s.threads.length := h.length_eq ▸ (List.getElem?_eq_some_iff.mp hb).1
  exact ⟨_, List.getElem?_eq_getElem hlt, h.slots (List.getElem?_eq_getElem hlt) hb⟩

theorem trans {s t u : State} (h : s.Alike t) (h' : t.Alike u) : s.Alike u := by
  refine ⟨h.memory_eq.trans h'.memory_eq, h.length_eq.trans h'.length_eq, fun ha hc => ?_⟩
  obtain ⟨b, hb, hbc⟩ := h'.exists_slot hc
  exact (h.slots ha hb).trans hbc

theorem withSlot {s t : State} (h : s.Alike t) {tid : Nat} {a b : Slot} {m : Memory} (hs : tid < t.threads.length)
    (hab : a.Alike b) : (s.withSlot tid a m).Alike (t.withSlot tid b m) := by
  refine ⟨rfl, by simp [State.withSlot, h.length_eq], ?_⟩
  intro i x y hx hy
  have hs' : tid < s.threads.length := h.length_eq ▸ hs
  rw [getElem?_withSlot (List.getElem?_eq_getElem hs')] at hx
  rw [getElem?_withSlot (List.getElem?_eq_getElem hs)] at hy
  split at hx
  · next e =>
    rw [if_pos e] at hy
    cases hx
    cases hy
    exact hab
  · next e =>
    rw [if_neg e] at hy
    exact h.slots hx hy

end Alike

theorem alike_of_settled_eq {s t : State} (h : s.settled = t.settled) : s.Alike t := by
  have hthreads := congrArg State.threads h
  have hmemory : s.settled.memory = t.settled.memory := congrArg State.memory h
  refine ⟨hmemory, by simpa [settled] using congrArg List.length hthreads, ?_⟩
  intro tid a b ha hb
  have hslot := congrArg (·[tid]?) hthreads
  simp only [settled, List.getElem?_map, ha, hb, Option.map_some, Option.some.injEq] at hslot
  obtain ⟨pc, promised, thread⟩ := a
  obtain ⟨pc', promised', thread'⟩ := b
  simp only [Slot.mk.injEq] at hslot
  obtain ⟨rfl, rfl, hthread⟩ := hslot
  have hcache : thread.cache.inOrder = thread'.cache.inOrder := congrArg Thread.cache hthread
  -- what is left of a thread when its cache is put in order determines all but the cache
  refine ⟨thread.cache, Paging.Cache.alike_of_inOrder_eq hcache, ?_⟩
  have := congrArg (Thread.withCache · thread.cache) hthread
  exact congrArg (Slot.mk pc promised) this

/-! ### Moves -/

/-- A state makes every move that a state alike makes, to a state alike. -/
theorem Alike.move {p : Program} {s t t' : State} (h : s.Alike t) (hm : t.Move p t') :
    ∃ s', s.Move p s' ∧ s'.Alike t' := by
  have hmem := h.memory_eq
  cases hm with
  | @run tid thread slot i f ht hs hi hy =>
    obtain ⟨_, ha, c, hc, rfl⟩ := h.exists_slot hs
    obtain ⟨as, hr⟩ := Instr.yields_run.mp hy
    obtain ⟨d, hd, hr⟩ := hr.recached hc
    refine ⟨_, .run ht ha hi (f := f.recached d) ?_, h.withSlot (List.getElem?_eq_some_iff.mp hs).1 ⟨d, hd, rfl⟩⟩
    rw [hmem]
    exact Instr.yields_run.mpr ⟨as, hr⟩
  | @promise tid thread slot w f time ht hs hpc hw hf =>
    obtain ⟨_, ha, c, hc, rfl⟩ := h.exists_slot hs
    -- a promise reads and leaves the cache as it is
    simp only [Frame.promiseWrite, bind_eq_ok, pure_eq_ok, Prod.mk.injEq, Prod.exists] at hf
    obtain ⟨loc, hloc, m, time', hp, rfl, rfl⟩ := hf
    have hf : Frame.promiseWrite { thread := slot.thread.withCache c, memory := s.memory } w.1.1 w.1.2 =
        .ok (⟨.start, (slot.thread.withCache c).pushPromise time, m⟩, time) := by
      simp only [Frame.promiseWrite, bind_eq_ok, pure_eq_ok, Prod.mk.injEq, Prod.exists]
      exact ⟨loc, hloc, m, time, hmem ▸ hp, rfl, rfl⟩
    exact ⟨_, .promise ht ha hpc hw hf, h.withSlot (List.getElem?_eq_some_iff.mp hs).1 ⟨c, hc, rfl⟩⟩

/-! ### Ends -/

theorem Alike.finished {p : Program} {s t : State} (h : s.Alike t) (hs : s.Finished p) : t.Finished p := by
  intro tid thread b ht hb
  obtain ⟨_, ha, c, hc, rfl⟩ := h.exists_slot hb
  exact hs tid thread (Slot.mk b.pc b.promised (b.thread.withCache c)) ht ha

theorem Alike.fulfilled {s t : State} (h : s.Alike t) (hs : s.Fulfilled) : t.Fulfilled := by
  intro b hb
  obtain ⟨tid, hb⟩ := List.mem_iff_getElem?.mp hb
  obtain ⟨_, ha, c, hc, rfl⟩ := h.exists_slot hb
  exact hs (Slot.mk b.pc b.promised (b.thread.withCache c)) (List.mem_of_getElem? ha)

theorem Alike.final_eq {s t : State} (h : s.Alike t) : s.final = t.final := by
  have hregs : s.threads.map (fun slot => slot.thread.plainRegs) = t.threads.map fun slot => slot.thread.plainRegs := by
    refine List.ext_getElem (by simp [h.length_eq]) ?_
    intro tid h₁ h₂
    rw [List.length_map] at h₁ h₂
    obtain ⟨c, hc, he⟩ := h.slots (List.getElem?_eq_getElem h₁) (List.getElem?_eq_getElem h₂)
    rw [List.getElem_map, List.getElem_map, he]
    rfl
  simp only [final]
  rw [hregs, h.memory_eq]

end State

/-! ### What tells states apart -/

/-- What of a slot may differ between two states that one program reaches. -/
structure Description where
  pc : Nat
  promised : List Nat
  promises : List View
  views : Views
  regs : Registers Reg
  history : List SystemWrite
  syncPoint : Nat
  coherence : Table View
  forwards : Table Forward
  monitor : Option Monitor
  issued : Table Nat
  cache : Paging.Cache

/-- The description of a slot, with this cache for its own. -/
def Slot.describeWith (slot : Slot) (cache : Paging.Cache) : Description where
  pc := slot.pc
  promised := slot.promised
  promises := slot.thread.promises
  views := slot.thread.views
  regs := slot.thread.regs
  history := slot.thread.history
  syncPoint := slot.thread.syncPoint
  coherence := slot.thread.coherence
  forwards := slot.thread.forwards
  monitor := slot.thread.monitor
  issued := slot.thread.issued
  cache

/-- The description of a slot, with its cache in order. -/
def Slot.describe (slot : Slot) : Description := slot.describeWith slot.thread.cache.inOrder

theorem Slot.eq_of_describe {a b : Slot} (h : a.describe = b.describe) (ht : a.thread.tid = b.thread.tid)
    (hi : a.thread.initial = b.thread.initial) :
    ({ a with thread := a.thread.withCache a.thread.cache.inOrder } : Slot) =
      { b with thread := b.thread.withCache b.thread.cache.inOrder } := by
  simp only [describe, describeWith, Description.mk.injEq] at h
  simp only [Slot.mk.injEq, Thread.withCache, Thread.mk.injEq]
  simp only [h, ht, hi, and_self]

/-- States that a program reaches are the same once settled if their events are and the descriptions of
their slots: all else stays as it was at the start. -/
theorem State.settled_eq_iff {p : Program} {s t : State} (hs : p.Reaches s) (ht : p.Reaches t) :
    s.settled = t.settled ↔
      s.memory.events = t.memory.events ∧ s.threads.map Slot.describe = t.threads.map Slot.describe := by
  obtain ⟨ds, rs⟩ := Program.reaches_iff.mp hs
  obtain ⟨es, rt⟩ := Program.reaches_iff.mp ht
  have fs := rs.fits
  have ft := rt.fits
  constructor
  · intro h
    have hevents : s.settled.memory.events = t.settled.memory.events := congrArg (·.memory.events) h
    have hthreads : s.settled.threads.map (fun slot => slot.describeWith slot.thread.cache) =
        t.settled.threads.map fun slot => slot.describeWith slot.thread.cache := by rw [h]
    simp only [State.settled, List.map_map] at hthreads
    exact ⟨hevents, hthreads⟩
  · rintro ⟨hevents, hthreads⟩
    have hmemory : s.memory = t.memory := fs.whole.eq_of ft.whole (fs.image_eq.trans ft.image_eq.symm) hevents
    have hlength : s.threads.length = t.threads.length := by simpa using congrArg List.length hthreads
    rw [State.settled]
    rw [hmemory]
    refine congrArg (State.mk · t.memory) (List.ext_getElem (by simp [hlength]) ?_)
    intro tid h₁ h₂
    rw [List.length_map] at h₁ h₂
    have ha := List.getElem?_eq_getElem h₁
    have hb := List.getElem?_eq_getElem h₂
    have hp := List.getElem?_eq_getElem (l := p.threads) (fs.length_eq ▸ h₁)
    have hdescribe := congrArg (·[tid]?) hthreads
    simp only [List.getElem?_map, ha, hb, Option.map_some, Option.some.injEq] at hdescribe
    rw [List.getElem_map, List.getElem_map]
    refine Slot.eq_of_describe hdescribe ?_ ?_
    · rw [fs.tid_eq tid _ ha, ft.tid_eq tid _ hb]
    · rw [fs.initial_eq tid _ _ hp ha, ft.initial_eq tid _ _ hp hb]

end Litmus
