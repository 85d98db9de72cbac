import Litmus.Proofs.Thread.Recall

/-!
Moves that may do more. A read may also return a promise of its own thread, a write may fulfil any promise
that holds it or go to the end of memory although one does, and threads that are finished may promise. Main
fact: none of this adds a final. Whatever the moves themselves do not allow dooms a promise: the thread has
seen its cell up to it, and as that view never falls no write will ever fulfil it; or the thread has no
instruction left to do so.
-/

namespace Litmus

/-- Where a write may go when any of the promises that hold it may be fulfilled, or none. -/
inductive Frame.MayPlace (f : Frame) (e : Event) : Memory → View → Bool → Prop
  | fulfil {t : View} : t ∈ f.thread.promises → f.memory.at? t = some e → MayPlace f e f.memory t true
  | append {memory : Memory} {t : View} : f.memory.promise e = .ok (memory, t) → MayPlace f e memory t false

/-- What effects may do: what their rules allow, a read of any write that is a candidate, and a write that
goes wherever it may. -/
inductive Effect.Relaxed : (e : Effect) → Frame → e.Answer → Frame → Prop
  | rule {e : Effect} {f g : Frame} {v : e.Answer} {a : Action} : e.Step f v g a → Relaxed e f v g
  | read {req : ReadRequest} {f : Frame} {addr : View} {r : Memory.Read} :
      req.kind.isExplicit → req.size = 8 → req.pa % 8 = 0 → f.depsView req.deps = .ok addr →
      r ∈ f.memory.candidates req.pa (View.join (f.readPre req addr) (f.thread.coherenceOf req.pa)) →
      ¬f.scratch.bound < .whole (f.readPost req addr r) → Relaxed (.read req) f r.value (f.afterRead req addr r)
  | write {req : WriteRequest} {f : Frame} {addr data t : View} {memory : Memory} {promised : Bool} :
      req.size = 8 → req.pa % 8 = 0 → f.depsView req.addrDeps = .ok addr → f.depsView req.dataDeps = .ok data →
      f.MayPlace (.write f.thread.tid req.pa req.value) memory t promised →
      f.writeTrouble req memory req.pa (f.writePre req addr data) t = none →
      Relaxed (.write req) f true (f.afterWrite req (View.join addr data) t memory promised)

/-- How an instruction runs from one frame to another when effects do what they may. -/
inductive Instr.RelaxedRuns : Instr → Frame → Frame → Prop
  | done {f : Frame} : RelaxedRuns .done f f
  | ask {e : Effect} {next : e.Answer → Instr} {f g h : Frame} {answer : e.Answer} :
      e.Relaxed f answer g → RelaxedRuns (next answer) g h → RelaxedRuns (.ask e next) f h

/-- One move when effects do what they may, and threads may also promise when they are finished. -/
inductive State.RelaxedMove (p : Program) (s : State) : State → Prop
  | run {tid : Nat} {t : ThreadProgram} {slot : Slot} {i : Instr} {f : Frame} :
      p.threads[tid]? = some t → s.threads[tid]? = some slot → t.code[slot.pc]? = some i →
      i.RelaxedRuns { thread := slot.thread, memory := s.memory } f →
      RelaxedMove p s (s.withSlot tid { slot with pc := slot.pc + 1, thread := f.thread } f.memory)
  | promise {tid : Nat} {t : ThreadProgram} {slot : Slot} {w : (Int × Int) × Nat} {f : Frame} {time : View} :
      p.threads[tid]? = some t → s.threads[tid]? = some slot → w ∈ t.unpromised slot.promised →
      Frame.promiseWrite { thread := slot.thread, memory := s.memory } w.1.1 w.1.2 = .ok (f, time) →
      RelaxedMove p s (s.withSlot tid { slot with promised := slot.promised ++ [w.2], thread := f.thread } f.memory)

/-- Relaxed moves lead from the start of the program to the state. -/
def Program.RelaxedReaches (p : Program) : State → Prop := Relation.ReflTransGen (State.RelaxedMove p) p.start

/-! ### Moves are relaxed moves -/

theorem Instr.Runs.relaxed {i : Instr} {as : List Action} {f g : Frame} (r : i.Runs f as g) : i.RelaxedRuns f g := by
  induction r with
  | done => exact .done
  | ask hs _ ih => exact .ask (.rule hs) ih

theorem State.Move.relaxed {p : Program} {s s' : State} (h : s.Move p s') : s.RelaxedMove p s' := by
  obtain ⟨d, hd⟩ := State.move_iff.mp h
  cases hd with
  | run ht hs hi hr => exact .run ht hs hi hr.relaxed
  | promise ht hs _ hw hf => exact .promise ht hs hw hf

/-! ### Memory grows -/

theorem Frame.MayPlace.grown {f : Frame} {e : Event} {memory : Memory} {t : View} {promised : Bool}
    (h : f.MayPlace e memory t promised) (hm : f.memory.Whole) : memory.Whole ∧ f.memory.Extends memory := by
  cases h with
  | fulfil => exact ⟨hm, .refl _⟩
  | append hp =>
    obtain ⟨n, hn, hwhole, hinit, hlen, hat⟩ := Memory.promise_spec hm e
    rw [hn] at hp
    cases hp
    exact ⟨hwhole, hinit, by lia, fun p hp => by rw [hat, if_neg (by lia)]⟩

theorem Effect.Relaxed.grown {e : Effect} {f g : Frame} {v : e.Answer} (h : e.Relaxed f v g) (hm : f.memory.Whole) :
    g.memory.Whole ∧ f.memory.Extends g.memory := by
  cases h with
  | rule hs => exact ⟨(hs.grows hm).whole hm, (hs.grows hm).grown⟩
  | read => exact ⟨hm, .refl _⟩
  | write _ _ _ _ hp => exact hp.grown hm

theorem Instr.RelaxedRuns.grown {i : Instr} {f g : Frame} (r : i.RelaxedRuns f g) (hm : f.memory.Whole) :
    g.memory.Whole ∧ f.memory.Extends g.memory := by
  induction r with
  | done => exact ⟨hm, .refl _⟩
  | ask hs _ ih =>
    obtain ⟨hwhole, hext⟩ := hs.grown hm
    exact ⟨(ih hwhole).1, hext.trans (ih hwhole).2⟩

/-! ### Promises that no write can fulfil -/

/-- Whether a thread has a promise and has seen the cell of it up to it. -/
def Thread.Doomed (t : Thread) (m : Memory) : Prop :=
  ∃ p ∈ t.promises, ∃ i loc v, m.at? p = some (.write i loc v) ∧ p ≤ t.coherenceOf loc

namespace Thread.Doomed

variable {f g : Frame}

/-- A promise is doomed as long as it is one: memory keeps its write, and the views of cells only rise. -/
theorem keep {t u : Thread} {m n : Memory} (h : t.Doomed m) (hm : m.Extends n)
    (hc : ∀ loc, t.coherenceOf loc ≤ u.coherenceOf loc)
    (hp : ∀ p ∈ t.promises, p ∈ u.promises ∨ ∀ i loc v, m.at? p = some (.write i loc v) → t.coherenceOf loc < p) :
    u.Doomed n := by
  obtain ⟨p, hpt, i, loc, v, hv, hle⟩ := h
  refine ⟨p, ?_, i, loc, v, hm.at?_eq_some hv, Int.le_trans hle (hc loc)⟩
  rcases hp p hpt with hpu | hlt
  · exact hpu
  · exact absurd hle (Int.not_le.mpr (hlt i loc v hv))

theorem mono {t : Thread} {m n : Memory} (h : t.Doomed m) (hm : m.Extends n) : t.Doomed n :=
  h.keep hm (fun _ => Int.le_refl _) fun _ => .inl

theorem afterRead {req : ReadRequest} {addr : View} {r : Memory.Read} (h : f.thread.Doomed f.memory) :
    (f.afterRead req addr r).thread.Doomed f.memory := by
  rw [Frame.thread_afterRead]
  exact h.keep (.refl _) (Recalls.coherenceOf_le rfl (View.le_join_left _ _)) fun _ => .inl

/-- No write fulfils a doomed promise: it would not be past the view of its cell. -/
theorem afterWrite {req : WriteRequest} {operands pre t : View} {memory : Memory} {promised : Bool}
    (h : f.thread.Doomed f.memory) (hm : f.memory.Extends memory)
    (hp : promised = true → f.memory.at? t = some (.write f.thread.tid req.pa req.value))
    (ht : f.writeTrouble req memory req.pa pre t = none) :
    (f.afterWrite req operands t memory promised).thread.Doomed memory := by
  rw [Frame.thread_afterWrite]
  refine h.keep hm (Recalls.coherenceOf_le rfl (View.le_join_left _ _)) ?_
  intro p hpt
  refine (mem_fulfilled hpt).imp_right ?_
  rintro ⟨hpromised, rfl⟩ i loc v hv
  rw [hp hpromised] at hv
  cases hv
  exact (Frame.lt_of_writeTrouble ht).2

/-- Maintenance fulfils no promise of a write. -/
theorem afterMaintain {m : Paging.Maintenance} {t : View} {memory : Memory} {promised : Bool}
    (h : f.thread.Doomed f.memory) (hplaced : f.Placed (.maintain f.thread.tid m) memory t promised) :
    (f.afterMaintain t memory promised).thread.Doomed memory := by
  rw [Frame.thread_afterMaintain]
  refine h.keep hplaced.grown (fun _ => Int.le_refl _) ?_
  intro p hpt
  refine (mem_fulfilled hpt).imp_right ?_
  rintro ⟨hpromised, rfl⟩ i loc v hv
  rw [← (hplaced.kept hpromised).1, hplaced.at?_eq] at hv
  cases hv

theorem step {e : Effect} {v : e.Answer} (hm : f.memory.Whole) (h : f.thread.Doomed f.memory) (hs : e.Relaxed f v g) :
    g.thread.Doomed g.memory := by
  cases hs with
  | read => exact h.afterRead
  | write _ _ _ _ hp ht =>
    refine h.afterWrite (hp.grown hm).2 ?_ ht
    intro e
    cases hp with
    | fulfil _ he => exact he
    | append => cases e
  | rule hs =>
    cases hs with
    | writeReg =>
      dsimp only
      rw [Thread.hold_eq]
      exact h
    | read => exact h.afterRead
    | write _ _ _ _ hp ht =>
      have hplaced := Frame.placed hm hp
      refine h.afterWrite hplaced.grown ?_ ht
      intro e
      rw [← (hplaced.kept e).1]
      exact hplaced.at?_eq
    | maintain _ _ hp => exact h.afterMaintain (Frame.placed hm hp)
    | _ => exact h

theorem runs {i : Instr} (hm : f.memory.Whole) (h : f.thread.Doomed f.memory) (r : i.RelaxedRuns f g) :
    g.thread.Doomed g.memory := by
  induction r with
  | done => exact h
  | ask hs _ ih => exact ih (hs.grown hm).1 (h.step hm hs)

end Thread.Doomed

/-! ### What the moves do not allow dooms a promise -/

/-- A read of an own promise dooms it. -/
theorem Frame.doomed_afterRead {f : Frame} {req : ReadRequest} {addr view : View} {r : Memory.Read}
    (hr : r ∈ f.memory.candidates req.pa view) (hp : r.time ∈ f.thread.promises)
    (hpos : 0 < r.time) : (f.afterRead req addr r).thread.Doomed f.memory := by
  rw [Frame.thread_afterRead]
  refine ⟨r.time, hp, ?_⟩
  rcases Memory.write_of_mem_candidates hr with ⟨i, hi⟩ | h0
  · refine ⟨i, req.pa, r.value, hi, ?_⟩
    rw [Thread.coherenceOf_insert rfl, if_pos rfl]
    exact View.le_join_right _ _
  · exact absurd (congrArg Memory.Read.time h0) (Int.ne_of_gt hpos)

/-- A write that leaves an older promise of the same write dooms that. -/
theorem Frame.doomed_afterWrite {f : Frame} {req : WriteRequest} {operands t p : View} {memory : Memory}
    {promised : Bool} (hp : p ∈ f.thread.promises) (hv : f.memory.at? p = some (.write f.thread.tid req.pa req.value))
    (hm : f.memory.Extends memory) (hlt : p < t) :
    (f.afterWrite req operands t memory promised).thread.Doomed memory := by
  rw [Frame.thread_afterWrite]
  refine ⟨p, ?_, _, _, _, hm.at?_eq_some hv, ?_⟩
  · refine (Thread.mem_fulfilled hp).resolve_right ?_
    rintro ⟨-, rfl⟩
    exact Int.lt_irrefl p hlt
  · rw [Thread.coherenceOf_insert rfl, if_pos rfl]
    exact Int.le_trans (Int.le_of_lt hlt) (View.le_join_right _ _)

/-- A write that may be placed somewhere is placed there, or leaves an older promise that holds it. -/
theorem Frame.MayPlace.place_or_older {f : Frame} {e : Event} {memory : Memory} {t : View} {promised : Bool}
    (hm : f.memory.Whole) (h : f.MayPlace e memory t promised) :
    f.place e = .ok (memory, t, promised) ∨ ∃ p ∈ f.thread.promises, f.memory.at? p = some e ∧ p < t := by
  rw [place]
  cases hold : f.memory.fulfil? e f.thread.promises with
  | none =>
    cases h with
    | @fulfil t ht he =>
      rw [Memory.fulfil?, List.min?_eq_none_iff, List.filter_eq_nil_iff] at hold
      exact absurd (by simpa using he) (hold t ht)
    | append hp => exact .inl (by simp [hp])
  | some p =>
    obtain ⟨hp, holdest⟩ := List.min?_eq_some_iff.mp hold
    obtain ⟨hp, he⟩ := List.mem_filter.mp hp
    have he : f.memory.at? p = some e := by simpa using he
    cases h with
    | @fulfil t ht he' =>
      rcases Int.lt_or_eq_of_le (holdest t (List.mem_filter.mpr ⟨ht, by simpa using he'⟩)) with hlt | rfl
      · exact .inr ⟨p, hp, he, hlt⟩
      · exact .inl rfl
    | append hn =>
      obtain ⟨n, hn', -⟩ := Memory.promise_spec hm e
      rw [hn'] at hn
      cases hn
      have := Memory.le_length_of_at? he
      exact .inr ⟨p, hp, he, by lia⟩

/-- What an effect may do is what one of its rules allows, or it dooms a promise. -/
theorem Effect.Relaxed.step_or_doomed {e : Effect} {f g : Frame} {v : e.Answer} (hm : f.memory.Whole)
    (hrecalls : f.thread.Recalls f.memory) (h : e.Relaxed f v g) :
    (∃ a, e.Step f v g a) ∨ g.thread.Doomed g.memory := by
  cases h with
  | rule hs => exact .inl ⟨_, hs⟩
  | @read req f addr r hk hsize ha hd hr hb =>
    by_cases hp : r.time ∈ f.thread.promises
    · obtain ⟨loc, v, hv⟩ := hrecalls.promised _ hp
      exact .inr (Frame.doomed_afterRead hr hp (Memory.pos_of_at? hv))
    · exact .inl ⟨_, .read hk hsize ha hd (List.mem_filter.mpr ⟨hr, by simpa using hp⟩) hb⟩
  | write hsize ha hd hd' hp ht =>
    rcases hp.place_or_older hm with hplace | ⟨p, hold, hv, hlt⟩
    · exact .inl ⟨_, .write hsize ha hd hd' hplace ht⟩
    · exact .inr (Frame.doomed_afterWrite hold hv (hp.grown hm).2 hlt)

/-- What an instruction may do is what it does, or it dooms a promise. -/
theorem Instr.RelaxedRuns.runs_or_doomed {i : Instr} {as : List Action} {f g : Frame} (r : i.RelaxedRuns f g)
    (hm : f.memory.Whole) (h : (Coherent as f ∧ f.Bounded) ∧ f.thread.Recalls f.memory) :
    (∃ bs, i.Runs f bs g) ∨ g.thread.Doomed g.memory := by
  induction r generalizing as with
  | done => exact .inl ⟨[], .done⟩
  | ask hs r ih =>
    have hwhole := (hs.grown hm).1
    rcases hs.step_or_doomed hm h.2 with ⟨a, hs⟩ | hdoomed
    · refine (ih hwhole (frameInvariant_recalls.step hm h hs)).imp_left ?_
      rintro ⟨bs, hr⟩
      exact ⟨a :: bs, .ask hs hr⟩
    · exact .inr (hdoomed.runs hwhole r)

/-! ### States that the moves do not reach -/

/-- Whether a thread has a promise that it will not fulfil any more: a doomed one, or one at the end of its
code. -/
def Slot.Doomed (t : ThreadProgram) (slot : Slot) (m : Memory) : Prop :=
  slot.thread.Doomed m ∨ (t.code.length ≤ slot.pc ∧ slot.thread.promises ≠ [])

/-- Whether any thread of a state has a promise that it will not fulfil any more. -/
def State.Doomed (p : Program) (s : State) : Prop :=
  ∃ (tid : Nat) (t : ThreadProgram) (slot : Slot), p.threads[tid]? = some t ∧ s.threads[tid]? = some slot ∧
    slot.Doomed t s.memory

theorem State.Doomed.not_fulfilled {p : Program} {s : State} (h : s.Doomed p) : ¬s.Fulfilled := by
  obtain ⟨tid, t, slot, -, hs, h⟩ := h
  intro hf
  have hnone := hf slot (List.mem_of_getElem? hs)
  rcases h with ⟨p, hp, -⟩ | ⟨-, hne⟩
  · rw [hnone] at hp
    cases hp
  · exact hne hnone

theorem State.RelaxedMove.grown {p : Program} {s s' : State} (h : s.RelaxedMove p s') (hm : s.memory.Whole) :
    s'.memory.Whole ∧ s.memory.Extends s'.memory := by
  cases h with
  | run _ _ _ r => exact r.grown hm
  | promise _ _ _ hf =>
    obtain ⟨-, -, hwhole, -, hext, -⟩ := Frame.promiseWrite_spec hm hf
    exact ⟨hwhole, hext⟩

/-- A state stays doomed if the thread that moves stays so. -/
theorem State.Doomed.withSlot {p : Program} {s : State} {i : Nat} {old new : Slot} {m : Memory} (h : s.Doomed p)
    (hold : s.threads[i]? = some old) (hm : s.memory.Extends m)
    (hmoved : ∀ t, p.threads[i]? = some t → old.Doomed t s.memory → new.Doomed t m) :
    (s.withSlot i new m).Doomed p := by
  obtain ⟨tid, t, slot, ht, hslot, hd⟩ := h
  by_cases e : tid = i
  · subst e
    rw [hold] at hslot
    cases hslot
    refine ⟨tid, t, new, ht, ?_, hmoved t ht hd⟩
    rw [getElem?_withSlot hold, if_pos rfl]
  · refine ⟨tid, t, slot, ht, ?_, hd.imp_left fun hd => hd.mono hm⟩
    rw [getElem?_withSlot hold, if_neg e]
    exact hslot

theorem State.RelaxedMove.doomed {p : Program} {s s' : State} (h : s.RelaxedMove p s') (hm : s.memory.Whole)
    (hs : s.Doomed p) : s'.Doomed p := by
  have hext := (h.grown hm).2
  cases h with
  | run ht hslot hi r =>
    refine hs.withSlot hslot hext ?_
    intro t ht' hd
    rw [ht] at ht'
    cases ht'
    rcases hd with hd | ⟨hend, -⟩
    · exact .inl (hd.runs hm r)
    · exact absurd (List.getElem?_eq_some_iff.mp hi).1 (Nat.not_lt.mpr hend)
  | promise ht hslot _ hf =>
    obtain ⟨-, hg, -⟩ := Frame.promiseWrite_spec hm hf
    refine hs.withSlot hslot hext ?_
    intro t _ hd
    rw [hg]
    rcases hd with hd | ⟨hend, -⟩
    · exact .inl (hd.keep hext (fun _ => Int.le_refl _) fun p hp => .inl (List.mem_append_left _ hp))
    · exact .inr ⟨hend, by simp [Thread.pushPromise]⟩

/-- A relaxed move of a state that the moves reach is a move, or dooms a promise. -/
theorem State.RelaxedMove.move_or_doomed {p : Program} {s s' : State} (h : s.RelaxedMove p s') (hs : p.Reaches s) :
    s.Move p s' ∨ s'.Doomed p := by
  obtain ⟨ds, hrun⟩ := Program.reaches_iff.mp hs
  have hm := hrun.fits.whole
  cases h with
  | run ht hslot hi r =>
    rcases r.runs_or_doomed hm ((frameInvariant_recalls.slot p).holds hrun hslot) with ⟨as, hr⟩ | hd
    · exact .inl (.run ht hslot hi (Instr.yields_run.mpr ⟨as, hr⟩))
    · exact .inr ⟨_, _, _, ht, (getElem?_withSlot hslot).trans (if_pos rfl), .inl hd⟩
  | @promise tid t slot w f time ht hslot hw hf =>
    obtain ⟨-, hg, -⟩ := Frame.promiseWrite_spec hm hf
    by_cases hpc : slot.pc < t.code.length
    · exact .inl (.promise ht hslot hpc hw hf)
    · have hne : f.thread.promises ≠ [] := by
        rw [hg]
        simp [Thread.pushPromise]
      exact .inr ⟨_, _, _, ht, (getElem?_withSlot hslot).trans (if_pos rfl), .inr ⟨Nat.le_of_not_lt hpc, hne⟩⟩

/-- A state that relaxed moves reach is one that the moves reach, or it is doomed. -/
theorem Program.RelaxedReaches.reaches_or_doomed {p : Program} {s : State} (h : p.RelaxedReaches s) :
    s.memory.Whole ∧ (p.Reaches s ∨ s.Doomed p) := by
  induction h with
  | refl => exact ⟨p.fits_start.whole, .inl .refl⟩
  | tail _ hmove ih =>
    obtain ⟨hm, hs⟩ := ih
    refine ⟨(hmove.grown hm).1, ?_⟩
    rcases hs with hs | hs
    · exact (hmove.move_or_doomed hs).imp_left hs.tail
    · exact .inr (hmove.doomed hm hs)

/-- The rules that leave some moves out lose no final. What is left of the states that relaxed moves reach, and
in which all threads are finished and have no promise left, is what is left of those that the moves reach. -/
theorem Program.relaxed_finals (p : Program) (f : Final) :
    (∃ s, p.RelaxedReaches s ∧ s.Finished p ∧ s.Fulfilled ∧ s.final = .ok f) ↔
      ∃ s, p.Reaches s ∧ s.Finished p ∧ s.Fulfilled ∧ s.final = .ok f := by
  constructor
  · rintro ⟨s, hs, hfinished, hfulfilled, hf⟩
    have hreached := hs.reaches_or_doomed.2.resolve_right fun hd => hd.not_fulfilled hfulfilled
    exact ⟨s, hreached, hfinished, hfulfilled, hf⟩
  · rintro ⟨s, hs, hend⟩
    exact ⟨s, Relation.ReflTransGen.mono (fun _ _ => State.Move.relaxed) _ _ hs, hend⟩

end Litmus
