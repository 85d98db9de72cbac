import Litmus.Exploration.State
import Litmus.Proofs.Instruction.Growth
import Mathlib.Logic.Relation

/-!
Moves of a program, and what they reach. A move runs one whole instruction of a thread, on any picks, or
promises one of its writes; no budget, frontier or repetition is part of it. A run is a sequence of moves
with what each did. Main fact: what holds of a thread at the start, and is kept by its own moves and by
events of others, holds of it in every run.
-/

namespace Litmus

/-- What a move did: a thread ran its instruction at `pc`, or promised a write. -/
inductive Deed where
  | ran (tid pc : Nat) (as : List Action)
  | promised (tid : Nat) (time : View)

namespace State

/-- One move of a thread with instructions left: its next instruction ran to its end, or it promised one of
its promisable writes that it had not promised. -/
inductive Move (p : Program) (s : State) : State → Prop
  | run {tid : Nat} {t : ThreadProgram} {slot : Slot} {i : Instr} {f : Frame} :
      p.threads[tid]? = some t → s.threads[tid]? = some slot → t.code[slot.pc]? = some i →
      (i.runOn slot.thread s.memory).Yields f →
      Move p s (s.withSlot tid { slot with pc := slot.pc + 1, thread := f.thread } f.memory)
  | promise {tid : Nat} {t : ThreadProgram} {slot : Slot} {w : (Int × Int) × Nat} {f : Frame} {time : View} :
      p.threads[tid]? = some t → s.threads[tid]? = some slot → slot.pc < t.code.length →
      w ∈ t.unpromised slot.promised →
      Frame.promiseWrite { thread := slot.thread, memory := s.memory } w.1.1 w.1.2 = .ok (f, time) →
      Move p s (s.withSlot tid { slot with promised := slot.promised ++ [w.2], thread := f.thread } f.memory)

/-- A move with what it did. -/
inductive Does (p : Program) (s : State) : Deed → State → Prop
  | run {tid : Nat} {t : ThreadProgram} {slot : Slot} {i : Instr} {as : List Action} {f : Frame} :
      p.threads[tid]? = some t → s.threads[tid]? = some slot → t.code[slot.pc]? = some i →
      i.Runs { thread := slot.thread, memory := s.memory } as f →
      Does p s (.ran tid slot.pc as) (s.withSlot tid { slot with pc := slot.pc + 1, thread := f.thread } f.memory)
  | promise {tid : Nat} {t : ThreadProgram} {slot : Slot} {w : (Int × Int) × Nat} {f : Frame} {time : View} :
      p.threads[tid]? = some t → s.threads[tid]? = some slot → slot.pc < t.code.length →
      w ∈ t.unpromised slot.promised →
      Frame.promiseWrite { thread := slot.thread, memory := s.memory } w.1.1 w.1.2 = .ok (f, time) →
      Does p s (.promised tid time)
        (s.withSlot tid { slot with promised := slot.promised ++ [w.2], thread := f.thread } f.memory)

theorem move_iff {p : Program} {s s' : State} : Move p s s' ↔ ∃ d, Does p s d s' := by
  constructor
  · rintro (⟨ht, hs, hi, hy⟩ | ⟨ht, hs, hpc, hw, hf⟩)
    · obtain ⟨as, hr⟩ := Instr.yields_run.mp hy
      exact ⟨_, .run ht hs hi hr⟩
    · exact ⟨_, .promise ht hs hpc hw hf⟩
  · rintro ⟨d, ⟨ht, hs, hi, hr⟩ | ⟨ht, hs, hpc, hw, hf⟩⟩
    · exact .run ht hs hi (Instr.yields_run.mpr ⟨_, hr⟩)
    · exact .promise ht hs hpc hw hf

/-- The frames that a thread is at in a state: the one between its instructions, and those that it comes to
while it runs the next. -/
inductive At (p : Program) (s : State) (tid : Nat) : Frame → Prop
  | rest {slot : Slot} : s.threads[tid]? = some slot → At p s tid { thread := slot.thread, memory := s.memory }
  | amid {t : ThreadProgram} {slot : Slot} {i j : Instr} {f : Frame} :
      p.threads[tid]? = some t → s.threads[tid]? = some slot → t.code[slot.pc]? = some i →
      i.Comes { thread := slot.thread, memory := s.memory } j f → At p s tid f

/-- Whether every thread is past its last instruction. -/
def Finished (p : Program) (s : State) : Prop :=
  ∀ (tid : Nat) (t : ThreadProgram) (slot : Slot), p.threads[tid]? = some t → s.threads[tid]? = some slot →
    t.code.length ≤ slot.pc

/-- Whether no thread has a promise left. -/
def Fulfilled (s : State) : Prop := ∀ slot ∈ s.threads, slot.thread.promises = []

end State

namespace Program

/-- Moves lead from the start of the program to the state. -/
def Reaches (p : Program) : State → Prop := Relation.ReflTransGen (State.Move p) p.start

/-- Moves that did these things, in order, lead from the start of the program to the state. -/
inductive Run (p : Program) : List Deed → State → Prop
  | start : Run p [] p.start
  | move {ds : List Deed} {s s' : State} {d : Deed} : Run p ds s → s.Does p d s' → Run p (ds ++ [d]) s'

theorem reaches_iff {p : Program} {s : State} : p.Reaches s ↔ ∃ ds, p.Run ds s := by
  constructor
  · intro h
    induction h with
    | refl => exact ⟨[], .start⟩
    | tail _ hm ih =>
      obtain ⟨ds, hr⟩ := ih
      obtain ⟨d, hd⟩ := State.move_iff.mp hm
      exact ⟨ds ++ [d], hr.move hd⟩
  · rintro ⟨ds, hr⟩
    induction hr with
    | start => exact .refl
    | move _ hd ih => exact ih.tail (State.move_iff.mpr ⟨_, hd⟩)

end Program

/-- The actions of a thread, in its program order. -/
def actionsOf (tid : Nat) (ds : List Deed) : List Action :=
  ds.flatMap fun
    | .ran i _ as => if i = tid then as else []
    | .promised _ _ => []

theorem actionsOf_append (tid : Nat) (ds es : List Deed) :
    actionsOf tid (ds ++ es) = actionsOf tid ds ++ actionsOf tid es := List.flatMap_append

theorem actionsOf_ran (tid i pc : Nat) (as : List Action) :
    actionsOf tid [.ran i pc as] = if i = tid then as else [] := by simp [actionsOf]

theorem actionsOf_promised (tid i : Nat) (time : View) : actionsOf tid [.promised i time] = [] := rfl

/-- The frames that a thread is at in a state that these moves led to, with what it has done up to there. -/
inductive State.AtBy (p : Program) (ds : List Deed) (s : State) (tid : Nat) : List Action → Frame → Prop
  | rest {slot : Slot} : s.threads[tid]? = some slot →
      AtBy p ds s tid (actionsOf tid ds) { thread := slot.thread, memory := s.memory }
  | amid {t : ThreadProgram} {slot : Slot} {i j : Instr} {as : List Action} {f : Frame} :
      p.threads[tid]? = some t → s.threads[tid]? = some slot → t.code[slot.pc]? = some i →
      i.ComesBy { thread := slot.thread, memory := s.memory } as j f → AtBy p ds s tid (actionsOf tid ds ++ as) f

theorem State.at_iff {p : Program} {s : State} {tid : Nat} {f : Frame} (ds : List Deed) :
    s.At p tid f ↔ ∃ as, s.AtBy p ds tid as f := by
  constructor
  · rintro (hslot | ⟨ht, hslot, hi, hc⟩)
    · exact ⟨_, .rest hslot⟩
    · obtain ⟨as, hc⟩ := Instr.comes_iff.mp hc
      exact ⟨_, .amid ht hslot hi hc⟩
  · rintro ⟨_, hslot | ⟨ht, hslot, hi, hc⟩⟩
    · exact .rest hslot
    · exact .amid ht hslot hi (Instr.comes_iff.mpr ⟨_, hc⟩)

/-! ### States along runs -/

namespace State

theorem getElem?_withSlot {s : State} {tid i : Nat} {old slot : Slot} {m : Memory} (h : s.threads[tid]? = some old) :
    (s.withSlot tid slot m).threads[i]? = if i = tid then some slot else s.threads[i]? := by
  have := (List.getElem?_eq_some_iff.mp h).1
  rw [withSlot, List.getElem?_set]
  by_cases e : i = tid
  · rw [if_pos e, if_pos e.symm, if_pos (by omega)]
  · rw [if_neg e, if_neg (Ne.symm e)]

end State

theorem Program.threads_start (p : Program) (tid : Nat) : p.start.threads[tid]? =
    p.threads[tid]?.map fun t => { pc := 0, promised := [], thread := .start tid t.regs } := by
  simp [Program.start, Function.comp_def]

/-! ### Invariants -/

/-- What a state keeps of the program that it is a state of. -/
structure State.Fits (p : Program) (s : State) : Prop where
  whole : s.memory.Whole
  image_eq : s.memory.initial = p.image
  length_eq : s.threads.length = p.threads.length
  tid_eq : ∀ (tid : Nat) slot, s.threads[tid]? = some slot → slot.thread.tid = tid
  initial_eq : ∀ (tid : Nat) t slot, p.threads[tid]? = some t → s.threads[tid]? = some slot →
    slot.thread.initial = t.regs
  owned : ∀ time e, s.memory.at? time = some e → ∃ (tid : Nat) (slot : Slot), s.threads[tid]? = some slot ∧ e.tid = tid

theorem Program.fits_start (p : Program) : p.start.Fits p where
  whole := Memory.whole_ofImage _
  image_eq := rfl
  length_eq := by simp [Program.start]
  tid_eq tid slot h := by
    rw [threads_start, Option.map_eq_some_iff] at h
    obtain ⟨t, -, rfl⟩ := h
    rfl
  initial_eq tid t slot ht h := by
    rw [threads_start, ht] at h
    cases h
    rfl
  owned time e h := by
    have hpos := Memory.pos_of_at? h
    have hle : time ≤ 0 := Memory.le_length_of_at? h
    lia

theorem State.Fits.withSlot {p : Program} {s : State} (h : s.Fits p) {tid : Nat} {slot slot' : Slot} {f : Frame}
    (hs : s.threads[tid]? = some slot) (hf : slot'.thread = f.thread)
    (hg : Frame.Grows { thread := slot.thread, memory := s.memory } f) : (s.withSlot tid slot' f.memory).Fits p where
  whole := hg.whole h.whole
  image_eq := hg.grown.initial.trans h.image_eq
  length_eq := by simp [State.withSlot, h.length_eq]
  tid_eq i x hx := by
    rw [getElem?_withSlot hs] at hx
    split at hx
    · next e =>
      cases hx
      rw [hf, hg.tid_eq, e]
      exact h.tid_eq tid slot hs
    · exact h.tid_eq i x hx
  initial_eq i t x ht hx := by
    rw [getElem?_withSlot hs] at hx
    split at hx
    · next e =>
      cases hx
      rw [hf, hg.initial_eq]
      exact h.initial_eq tid t slot (e ▸ ht) hs
    · exact h.initial_eq i t x ht hx
  owned time e he := by
    have slots {i : Nat} {x : Slot} (hx : s.threads[i]? = some x) :
        ∃ y, (s.withSlot tid slot' f.memory).threads[i]? = some y := by
      rw [getElem?_withSlot hs]
      split
      · exact ⟨_, rfl⟩
      · exact ⟨x, hx⟩
    rcases hg.own time e he with he | he
    · obtain ⟨i, x, hx, hi⟩ := h.owned time e he
      obtain ⟨y, hy⟩ := slots hx
      exact ⟨i, y, hy, hi⟩
    · obtain ⟨y, hy⟩ := slots hs
      exact ⟨tid, y, hy, he.trans (h.tid_eq tid slot hs)⟩

theorem Program.Run.fits {p : Program} {ds : List Deed} {s : State} (r : p.Run ds s) : s.Fits p := by
  induction r with
  | start => exact p.fits_start
  | move _ hd ih =>
    cases hd with
    | run _ hs _ hr => exact ih.withSlot hs rfl (hr.grows ih.whole)
    | promise _ hs _ _ hf => exact ih.withSlot hs rfl (Frame.promiseWrite_grows ih.whole hf)

/-- What holds of a slot at its start, of the actions its thread has done, itself and memory, and is kept by
its instructions, its promises, and events of other threads. In a run, what is known of runs may be used. -/
structure SlotInvariant (p : Program) (Q : Nat → List Action → Slot → Memory → Prop) : Prop where
  start : ∀ {tid : Nat} {t : ThreadProgram}, p.threads[tid]? = some t →
    Q tid [] { pc := 0, promised := [], thread := .start tid t.regs } (.ofImage p.image)
  run : ∀ {ds : List Deed} {s : State} {tid : Nat} {t : ThreadProgram} {slot : Slot} {i : Instr} {as : List Action}
    {f : Frame}, p.Run ds s → p.threads[tid]? = some t → s.threads[tid]? = some slot → t.code[slot.pc]? = some i →
    Q tid (actionsOf tid ds) slot s.memory → i.Runs { thread := slot.thread, memory := s.memory } as f →
    Q tid (actionsOf tid ds ++ as) { slot with pc := slot.pc + 1, thread := f.thread } f.memory
  promise : ∀ {ds : List Deed} {s : State} {tid : Nat} {slot : Slot} {promised : List Nat} {loc value : Int}
    {f : Frame} {time : View}, p.Run ds s → s.threads[tid]? = some slot → Q tid (actionsOf tid ds) slot s.memory →
    Frame.promiseWrite { thread := slot.thread, memory := s.memory } loc value = .ok (f, time) →
    Q tid (actionsOf tid ds) { slot with promised, thread := f.thread } f.memory
  grow : ∀ {ds : List Deed} {s : State} {tid : Nat} {slot : Slot} {n : Memory}, p.Run ds s →
    s.threads[tid]? = some slot → Q tid (actionsOf tid ds) slot s.memory → s.memory.Extends n →
    (∀ time e, n.at? time = some e → s.memory.at? time = some e ∨ e.tid ≠ slot.thread.tid) →
    Q tid (actionsOf tid ds) slot n

theorem SlotInvariant.holds {p : Program} {Q : Nat → List Action → Slot → Memory → Prop} (h : SlotInvariant p Q)
    {ds : List Deed} {s : State} (r : p.Run ds s) {tid : Nat} {slot : Slot} (hs : s.threads[tid]? = some slot) :
    Q tid (actionsOf tid ds) slot s.memory := by
  induction r generalizing tid slot with
  | start =>
    rw [Program.threads_start, Option.map_eq_some_iff] at hs
    obtain ⟨t, ht, rfl⟩ := hs
    exact h.start ht
  | @move ds s s' d r hd ih =>
    have hm := r.fits.whole
    have htid := r.fits.tid_eq
    -- a thread that did not move sees only the events that the other one added
    have other {i : Nat} {f : Frame} {before : Slot} (hb : s.threads[i]? = some before) (hne : tid ≠ i)
        (hg : Frame.Grows { thread := before.thread, memory := s.memory } f) (hs : s.threads[tid]? = some slot) :
        Q tid (actionsOf tid ds) slot f.memory := by
      refine h.grow r hs (ih hs) hg.grown fun time e he => (hg.own time e he).imp_right ?_
      intro ht
      rw [ht, htid i before hb, htid tid slot hs]
      intro e
      exact hne (by omega)
    cases hd with
    | @run i t before instr as f ht hb hi hr =>
      rw [State.getElem?_withSlot hb] at hs
      rw [actionsOf_append, actionsOf_ran]
      split at hs
      · next e =>
        cases hs
        subst e
        rw [if_pos rfl]
        exact h.run r ht hb hi (ih hb) hr
      · next e =>
        rw [if_neg (Ne.symm e), List.append_nil]
        exact other hb e (hr.grows hm) hs
    | @promise i t before w f time ht hb hpc hw hf =>
      rw [State.getElem?_withSlot hb] at hs
      rw [actionsOf_append, actionsOf_promised, List.append_nil]
      split at hs
      · next e =>
        cases hs
        subst e
        exact h.promise r hb (ih hb) hf
      · next e => exact other hb e (Frame.promiseWrite_grows hm hf) hs

/-- An invariant of threads that every rule of an effect keeps. -/
structure FrameInvariant (Q : List Action → Frame → Prop) : Prop where
  start : ∀ (tid : Int) (regs : Registers Int) (image : Image),
    Q [] { thread := .start tid regs, memory := .ofImage image }
  step : ∀ {e : Effect} {as : List Action} {a : Action} {f g : Frame} {v : e.Answer}, f.memory.Whole → Q as f →
    e.Step f v g a → Q (as ++ [a]) g
  next : ∀ {as : List Action} {f : Frame}, Q as f → Q as { f with scratch := .start }
  promise : ∀ {as : List Action} {thread : Thread} {m : Memory} {loc value : Int} {g : Frame} {time : View},
    m.Whole → Q as { thread, memory := m } → Frame.promiseWrite { thread, memory := m } loc value = .ok (g, time) →
    Q as { thread := g.thread, memory := g.memory }
  grow : ∀ {as : List Action} {thread : Thread} {m n : Memory}, Q as { thread, memory := m } → m.Extends n →
    Q as { thread, memory := n }

theorem FrameInvariant.and {Q R : List Action → Frame → Prop} (hq : FrameInvariant Q) (hr : FrameInvariant R) :
    FrameInvariant fun as f => Q as f ∧ R as f where
  start tid regs image := ⟨hq.start tid regs image, hr.start tid regs image⟩
  step hm h hs := ⟨hq.step hm h.1 hs, hr.step hm h.2 hs⟩
  next h := ⟨hq.next h.1, hr.next h.2⟩
  promise hm h hp := ⟨hq.promise hm h.1 hp, hr.promise hm h.2 hp⟩
  grow h hext := ⟨hq.grow h.1 hext, hr.grow h.2 hext⟩

/-- What every rule of an effect keeps, an instruction keeps. -/
theorem Instr.Runs.keeps {Q : List Action → Frame → Prop} {i : Instr} {as bs : List Action} {f g : Frame}
    (r : i.Runs f bs g) (step : ∀ {e : Effect} {as : List Action} {a : Action} {f g : Frame} {v : e.Answer},
      f.memory.Whole → Q as f → e.Step f v g a → Q (as ++ [a]) g) (hm : f.memory.Whole) (hf : Q as f) : Q (as ++ bs) g := by
  induction r generalizing as with
  | done => simpa using hf
  | ask hs _ ih =>
    rw [← List.singleton_append, ← List.append_assoc]
    exact ih ((hs.grows hm).whole hm) (step hm hf hs)

theorem FrameInvariant.runs {Q : List Action → Frame → Prop} (h : FrameInvariant Q) {i : Instr}
    {as bs : List Action} {f g : Frame} (hm : f.memory.Whole) (hf : Q as f) (r : i.Runs f bs g) : Q (as ++ bs) g :=
  r.keeps h.step hm hf

theorem FrameInvariant.slot {Q : List Action → Frame → Prop} (h : FrameInvariant Q) (p : Program) :
    SlotInvariant p fun _ as slot memory => Q as { thread := slot.thread, memory } where
  start _ := h.start _ _ _
  run r _ _ _ hq hr := h.next (h.runs r.fits.whole hq hr)
  promise r _ hq hp := h.promise r.fits.whole hq hp
  grow _ _ hq hext _ := h.grow hq hext

theorem FrameInvariant.comesBy {Q : List Action → Frame → Prop} (h : FrameInvariant Q) {i j : Instr}
    {as bs : List Action} {f g : Frame} (hm : f.memory.Whole) (hf : Q as f) (hc : i.ComesBy f bs j g) :
    g.memory.Whole ∧ Q (as ++ bs) g := by
  induction hc generalizing as with
  | here => exact ⟨hm, by simpa using hf⟩
  | on hs _ ih =>
    obtain ⟨hwhole, hbs⟩ := ih ((hs.grows hm).whole hm) (h.step hm hf hs)
    exact ⟨hwhole, by simpa using hbs⟩

/-- An invariant of threads holds wherever a thread is, of what it has done up to there. -/
theorem FrameInvariant.holdsAtBy {Q : List Action → Frame → Prop} (h : FrameInvariant Q) {p : Program}
    {ds : List Deed} {s : State} (r : p.Run ds s) {tid : Nat} {as : List Action} {f : Frame} (hf : s.AtBy p ds tid as f) :
    f.memory.Whole ∧ Q as f := by
  cases hf with
  | rest hslot => exact ⟨r.fits.whole, (h.slot p).holds r hslot⟩
  | amid _ hslot _ hc => exact h.comesBy r.fits.whole ((h.slot p).holds r hslot) hc

/-- An invariant of threads holds wherever a thread is, also in the middle of an instruction. -/
theorem FrameInvariant.holdsAt {Q : List Action → Frame → Prop} (h : FrameInvariant Q) {p : Program} {s : State}
    {tid : Nat} {f : Frame} (hs : p.Reaches s) (hf : s.At p tid f) : f.memory.Whole ∧ ∃ as, Q as f := by
  obtain ⟨ds, r⟩ := Program.reaches_iff.mp hs
  obtain ⟨as, hf⟩ := (State.at_iff ds).mp hf
  obtain ⟨hwhole, hq⟩ := h.holdsAtBy r hf
  exact ⟨hwhole, as, hq⟩

/-- A thread that has done something is a thread of the program. -/
theorem Program.Run.exists_slot {p : Program} {ds : List Deed} {s : State} (r : p.Run ds s) {tid : Nat}
    (h : actionsOf tid ds ≠ []) : ∃ slot, s.threads[tid]? = some slot := by
  have hlt : tid < p.threads.length := by
    induction r with
    | start => exact absurd rfl h
    | move r hd ih =>
      rw [actionsOf_append] at h
      cases hd with
      | @run i _ _ _ _ _ ht =>
        rw [actionsOf_ran] at h
        split at h
        · next e => exact e ▸ (List.getElem?_eq_some_iff.mp ht).1
        · exact ih (by simpa using h)
      | promise => exact ih (by simpa [actionsOf_promised] using h)
  exact ⟨_, List.getElem?_eq_getElem (r.fits.length_eq ▸ hlt)⟩

/-- What an instruction of a run did is what its effects did, one after the other. -/
theorem Program.Run.exists_runs {p : Program} {ds : List Deed} {s : State} (r : p.Run ds s) {tid pc : Nat}
    {as : List Action} (h : .ran tid pc as ∈ ds) : ∃ (i : Instr) (f g : Frame), i.Runs f as g := by
  induction r with
  | start => cases h
  | move _ hd ih =>
    rcases List.mem_append.mp h with h | h
    · exact ih h
    · rw [List.mem_singleton] at h
      subst h
      cases hd with
      | run _ _ _ hr => exact ⟨_, _, _, hr⟩

/-- A list with one more element is taken apart at that element, or where it was before. -/
theorem split_concat {α : Type} {as before rest : List α} {a b : α} (h : as ++ [a] = before ++ b :: rest) :
    before = as ∧ b = a ∧ rest = [] ∨ ∃ since, as = before ++ b :: since ∧ rest = since ++ [a] := by
  rcases List.eq_nil_or_concat rest with rfl | ⟨since, c, rfl⟩
  · obtain ⟨rfl, hlast⟩ := List.append_inj' h rfl
    cases hlast
    exact .inl ⟨rfl, rfl, rfl⟩
  · rw [List.concat_eq_append, ← List.cons_append, ← List.append_assoc] at h
    obtain ⟨hbefore, hlast⟩ := List.append_inj' h rfl
    cases hlast
    exact .inr ⟨since, hbefore, List.concat_eq_append⟩

/-- Whether an action, after some others, was a step from a frame of which `Q` held, to one whose memory goes on
to this. -/
def Action.Stepped (Q : List Action → Frame → Prop) (before : List Action) (a : Action) (m : Memory) : Prop :=
  ∃ (e : Effect) (f : Frame) (v : e.Answer) (g : Frame), f.memory.Whole ∧ Q before f ∧ e.Step f v g a ∧
    g.memory.Extends m

theorem Action.Stepped.mono {Q : List Action → Frame → Prop} {before : List Action} {a : Action} {m n : Memory}
    (h : a.Stepped Q before m) (hn : m.Extends n) : a.Stepped Q before n := by
  obtain ⟨e, f, v, g, hm, hq, hs, hext⟩ := h
  exact ⟨e, f, v, g, hm, hq, hs, hext.trans hn⟩

/-- An invariant of threads held before each action that was done. -/
theorem FrameInvariant.stepped {Q : List Action → Frame → Prop} (h : FrameInvariant Q) :
    FrameInvariant fun as f => Q as f ∧ ∀ before a rest, as = before ++ a :: rest → a.Stepped Q before f.memory := by
  refine ⟨?_, ?_, fun hq => ⟨h.next hq.1, hq.2⟩, ?_, ?_⟩
  · intro tid regs image
    exact ⟨h.start tid regs image, fun _ _ _ hnil => by simp at hnil⟩
  · intro e as a f g v hm hq hs
    refine ⟨h.step hm hq.1 hs, ?_⟩
    intro before b rest hsplit
    rcases split_concat hsplit with ⟨rfl, rfl, rfl⟩ | ⟨since, hbefore, -⟩
    · exact ⟨e, f, v, g, hm, hq.1, hs, .refl _⟩
    · exact (hq.2 _ _ _ hbefore).mono (hs.grows hm).grown
  · intro as thread m loc value g time hm hq hp
    obtain ⟨-, -, -, -, hext, -⟩ := Frame.promiseWrite_spec hm hp
    exact ⟨h.promise hm hq.1 hp, fun before a rest hsplit => (hq.2 before a rest hsplit).mono hext⟩
  · intro as thread m n hq hext
    exact ⟨h.grow hq.1 hext, fun before a rest hsplit => (hq.2 before a rest hsplit).mono hext⟩

/-- Every action of a thread in a run was a step, from a frame of which an invariant of threads held. -/
theorem FrameInvariant.exists_step {Q : List Action → Frame → Prop} (h : FrameInvariant Q) {p : Program}
    {ds : List Deed} {s : State} (r : p.Run ds s) {tid : Nat} {before rest : List Action} {a : Action}
    (hsplit : actionsOf tid ds = before ++ a :: rest) : a.Stepped Q before s.memory := by
  have hdone : actionsOf tid ds ≠ [] := by simp [hsplit]
  obtain ⟨slot, hslot⟩ := r.exists_slot hdone
  exact ((h.stepped.slot p).holds r hslot).2 before a rest hsplit

end Litmus
