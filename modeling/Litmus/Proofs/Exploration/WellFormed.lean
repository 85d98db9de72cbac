import Litmus.Proofs.Thread.Recall

/-!
Well-formed states. All views of a thread lie within memory, which shows all of its events; the view of a
cell is of a write to it; and what the thread remembers of events is so. Main fact: every state that is
reached is well-formed, and every thread in the middle of an instruction too, so what goes to the end of
memory never comes too early.
-/

namespace Litmus

/-- What a thread keeps goes together with memory. -/
structure Thread.WellFormed (m : Memory) (t : Thread) : Prop extends t.Bounded m, t.Recalls m where
  seen : ∀ loc, t.coherenceOf loc = 0 ∨ ∃ i v, m.at? (t.coherenceOf loc) = some (.write i loc v)
  monitor : ∀ {w : Monitor}, t.monitor = some w → m.Spans w.time

/-- A frame whose memory shows everything, and whose thread and instruction go together with it. -/
structure Frame.WellFormed (f : Frame) : Prop where
  whole : f.memory.Whole
  thread : f.thread.WellFormed f.memory
  scratch : f.scratch.Bounded f.memory

/-- A state whose memory shows everything, and whose threads go together with it and have no promise in
common. -/
structure State.WellFormed (s : State) : Prop where
  whole : s.memory.Whole
  threads : ∀ slot ∈ s.threads, slot.thread.WellFormed s.memory
  disjoint : s.threads.Pairwise fun a b => a.thread.promises.Disjoint b.thread.promises

/-- Every frame that a thread is at is well-formed. -/
theorem State.At.wellFormed {p : Program} {s : State} {tid : Nat} {f : Frame} (hs : p.Reaches s) (hf : s.At p tid f) :
    f.WellFormed := by
  obtain ⟨hwhole, as, ⟨hc, hb⟩, hrecalls⟩ := frameInvariant_recalls.holdsAt hs hf
  refine ⟨hwhole, ⟨hb.thread, hrecalls, hc.seen, ?_⟩, hb.scratch⟩
  intro w hw
  rcases (hrecalls.monitored hw).1 with h0 | ⟨i, v, hv⟩
  · rw [h0]
    exact .zero _
  · exact .of_at? hv

/-- The states that are reached are well-formed. -/
theorem Program.Reaches.wellFormed {p : Program} {s : State} (hs : p.Reaches s) : s.WellFormed := by
  obtain ⟨ds, r⟩ := Program.reaches_iff.mp hs
  have thread {tid : Nat} {slot : Slot} (h : s.threads[tid]? = some slot) : slot.thread.WellFormed s.memory :=
    (State.At.wellFormed hs (.rest h)).thread
  refine ⟨r.fits.whole, ?_, ?_⟩
  · intro slot hslot
    obtain ⟨tid, h⟩ := List.mem_iff_getElem?.mp hslot
    exact thread h
  · rw [List.pairwise_iff_getElem]
    intro i j hi hj hlt t ht ht'
    -- the event of a promise tells whose it is
    have hi := List.getElem?_eq_getElem hi
    have hj := List.getElem?_eq_getElem hj
    obtain ⟨loc, v, hv⟩ := (thread hi).promised t ht
    obtain ⟨loc', v', hv'⟩ := (thread hj).promised t ht'
    rw [hv, r.fits.tid_eq i _ hi, r.fits.tid_eq j _ hj] at hv'
    simp only [Option.some.injEq, Event.write.injEq] at hv'
    omega

/-! ### What goes to the end of memory -/

namespace Frame

variable {f : Frame}

theorem le_of_writeOrder {req : WriteRequest} {m : Memory} {loc : Int} {pre t : View} {detail : Option String}
    (h : f.writeTrouble req m loc pre t = some (.writeOrder, detail)) :
    t ≤ View.join pre (f.thread.coherenceOf loc) := by
  rw [writeTrouble] at h
  split at h
  · assumption
  · split at h
    · cases h
    · split at h
      · rw [exclusiveTrouble] at h
        split at h
        · cases h
        · split at h
          · cases h
          · split at h <;> cases h
      · cases h

/-- A store is pruned for what troubles its write. -/
theorem prunes_store {req : WriteRequest} {why : Pruning} (h : (f.store req req.pa).Prunes why) :
    ∃ addr data memory t promised detail, f.depsView req.addrDeps = .ok addr ∧ f.depsView req.dataDeps = .ok data ∧
      f.place (.write f.thread.tid req.pa req.value) = .ok (memory, t, promised) ∧
      f.writeTrouble req memory req.pa (f.writePre req addr data) t = some (why, detail) := by
  simp only [store, Outcome.prunes_bind', Outcome.not_prunes_lift, Outcome.yields_lift, false_or, Prod.exists] at h
  obtain ⟨addr, ha, data, hd, memory, t, promised, hp, h⟩ := h
  split at h
  · next why' detail ht =>
    cases h
    exact ⟨addr, data, memory, t, promised, detail, ha, hd, hp, ht⟩
  · cases h

/-- A write that can be pruned for its order stores. -/
theorem prunes_store_of_write {req : WriteRequest} (h : (f.write req).Prunes .writeOrder) :
    (f.store req req.pa).Prunes .writeOrder := by
  rw [write] at h
  split at h
  · cases h
  · simp only [Outcome.prunes_bind', Outcome.not_prunes_lift, Outcome.yields_lift, false_or, checkLocation_eq_ok] at h
    obtain ⟨loc, ⟨-, rfl⟩, h⟩ := h
    split at h
    · rcases Outcome.prunes_among h with h | ⟨stores, -, h⟩
      · cases h
      · split at h
        · exact h
        · cases h
    · exact h

theorem promised_of_fulfil?_eq_none {e : Event} {memory : Memory} {t : View} {promised : Bool}
    (hnone : f.memory.fulfil? e f.thread.promises = none) (h : f.place e = .ok (memory, t, promised)) :
    promised = false := by
  rw [place, hnone] at h
  simp only [bind_eq_ok, pure_eq_ok, Prod.mk.injEq, Prod.exists] at h
  obtain ⟨_, _, -, -, -, hpromised⟩ := h
  exact hpromised

namespace WellFormed

theorem bounded (h : f.WellFormed) : f.Bounded := ⟨h.thread.toBounded, h.scratch⟩

/-- A write that no promise holds comes after all that it must. -/
theorem not_prunes_write (h : f.WellFormed) {req : WriteRequest}
    (hnone : f.memory.fulfil? (.write f.thread.tid req.pa req.value) f.thread.promises = none) :
    ¬(f.write req).Prunes .writeOrder := by
  intro hw
  obtain ⟨addr, data, memory, t, promised, detail, ha, hd, hp, ht⟩ := prunes_store (prunes_store_of_write hw)
  have hfresh := ((placed h.whole hp).fresh (promised_of_fulfil?_eq_none hnone hp)).1
  have hpre := (h.bounded.writePre req (h.bounded.depsView ha) (h.bounded.depsView hd)).2
  have hlast : View.join (f.writePre req addr data) (f.thread.coherenceOf req.pa) ≤ f.memory.length :=
    View.join_le.mpr ⟨hpre, (h.thread.coherence req.pa).2⟩
  have := le_of_writeOrder ht
  lia

/-- No promise holds maintenance. -/
theorem fulfil?_maintain_eq_none (h : f.WellFormed) (x : Paging.Maintenance) :
    f.memory.fulfil? (.maintain f.thread.tid x) f.thread.promises = none := by
  rw [Memory.fulfil?, List.min?_eq_none_iff, List.filter_eq_nil_iff]
  intro p hp
  obtain ⟨loc, v, hv⟩ := h.thread.promised p hp
  simp [hv]

/-- Maintenance comes after all that it must. -/
theorem not_prunes_maintain (h : f.WellFormed) {req : Paging.Request} {deps : Deps} :
    ¬(f.maintain req deps).Prunes .maintenanceOrder := by
  intro hm
  simp only [maintain, Outcome.prunes_bind', Outcome.not_prunes_lift, Outcome.yields_lift, false_or, Prod.exists] at hm
  obtain ⟨x, -, operands, hd, memory, t, promised, hp, hm⟩ := hm
  have hfresh := ((placed h.whole hp).fresh (promised_of_fulfil?_eq_none (h.fulfil?_maintain_eq_none x) hp)).1
  have hpre := (h.bounded.maintainPre (h.bounded.depsView hd)).2
  split at hm
  · lia
  · cases hm

end WellFormed

end Frame

/-- Every state that moves reach is well-formed, and so is every frame that a thread is at, between its
instructions or amid one. A write that goes to the end of memory is never pruned for its order, and neither is
maintenance, which always goes there. -/
theorem Program.wellFormed_of_reaches {p : Program} {s : State} (hs : p.Reaches s) : s.WellFormed ∧
    ∀ {tid : Nat} {f : Frame}, s.At p tid f → f.WellFormed ∧
      (∀ (req : WriteRequest) (maxBits : Number) (detail : Option String),
        f.memory.fulfil? (.write f.thread.tid req.pa req.value) f.thread.promises = none →
          .discard .writeOrder detail ∉ ((Effect.write req).run f).leaves maxBits) ∧
      ∀ (req : Paging.Request) (deps : Deps) (maxBits : Number) (detail : Option String),
        (∀ x, f.memory.fulfil? (.maintain f.thread.tid x) f.thread.promises = none) ∧
          .discard .maintenanceOrder detail ∉ ((Effect.maintain req deps).run f).leaves maxBits := by
  refine ⟨hs.wellFormed, ?_⟩
  intro tid f hf
  have h := State.At.wellFormed hs hf
  refine ⟨h, ?_, ?_⟩
  · intro req maxBits detail hnone hl
    exact h.not_prunes_write hnone (Outcome.prunes_of_mem_leaves hl)
  · intro req deps maxBits detail
    refine ⟨h.fulfil?_maintain_eq_none, ?_⟩
    intro hl
    exact h.not_prunes_maintain (Outcome.prunes_map (Outcome.prunes_of_mem_leaves hl))

theorem wellFormed_of_reaches_storeThenLoad : ∃ s slot, storeThenLoad.Reaches s ∧ s.threads[0]? = some slot ∧
    slot.thread.promises = [1] ∧ s.WellFormed ∧ slot.thread.WellFormed s.memory ∧
    s.memory.fulfil? (.write slot.thread.tid 8 5) slot.thread.promises = none ∧
    (∀ maxBits detail, .discard .writeOrder detail ∉
      ((Effect.write { pa := 8, value := 5 }).run { thread := slot.thread, memory := s.memory }).leaves maxBits) ∧
    ∀ req deps maxBits detail, .discard .maintenanceOrder detail ∉
      ((Effect.maintain req deps).run { thread := slot.thread, memory := s.memory }).leaves maxBits := by
  have path : (storeThenLoad.start.follow storeThenLoad {} [1]).any (fun s => s.threads[0]?.any fun slot =>
      decide (slot.thread.promises = [1]) &&
        decide (s.memory.fulfil? (.write slot.thread.tid 8 5) slot.thread.promises = none)) = true := by decide +kernel
  obtain ⟨s, hs, hP⟩ := Program.exists_reaches _ path
  simp only [Option.any_eq_true, Bool.and_eq_true, decide_eq_true_eq] at hP
  obtain ⟨slot, hslot, hpromises, hnone⟩ := hP
  obtain ⟨hstate, hframes⟩ := Program.wellFormed_of_reaches hs
  obtain ⟨hframe, hwrite, hmaintain⟩ := hframes (.rest hslot)
  exact ⟨s, slot, hs, hslot, hpromises, hstate, hframe.thread, hnone,
    fun maxBits detail => hwrite _ maxBits detail hnone,
    fun req deps maxBits detail => (hmaintain req deps maxBits detail).2⟩

end Litmus
