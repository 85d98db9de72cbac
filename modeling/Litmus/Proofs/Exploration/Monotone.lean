import Litmus.Proofs.Memory.Later
import Litmus.Proofs.Exploration.Invalidation
import Litmus.Proofs.Exploration.WalkTimes
import Litmus.Proofs.Exploration.WellFormed
import Litmus.Proofs.Paging.Cache

/-!
State only grows. Memory and the history of system registers get longer at their ends, views rise, and what a thread
remembers of its maintenance stays as it is. Main facts: so it is along every instruction, whatever it asks for, and
every promise, from each state that is reached; only promises get fewer, as they are fulfilled, and cached walks, which
go at context synchronizations alone, and there exactly those that maintenance behind the new view affects.
-/

namespace Litmus

open Paging (Maintenance Line)

/-! ### Maintenance that was issued -/

namespace Thread

variable {m n : Memory} {t u : Thread}

/-- Whether what a thread remembers to have issued is maintenance of its own. -/
def Issues (m : Memory) (t : Thread) : Prop :=
  ∀ (time : View) (position : Nat), t.issued[time]? = some position → ∃ x, m.at? time = some (.maintain t.tid x)

theorem Issues.mono (h : t.Issues m) (hext : m.Extends n) (hi : u.issued = t.issued) (ht : u.tid = t.tid) : u.Issues n := by
  intro time position hp
  obtain ⟨x, hx⟩ := h time position (hi ▸ hp)
  exact ⟨x, ht ▸ hext.at?_eq_some hx⟩

end Thread

/-- A thread remembers to have issued what it did before, and the maintenance that an effect places. -/
theorem Effect.Step.issued_cases {e : Effect} {f g : Frame} {v : e.Answer} {a : Action} (hs : e.Step f v g a)
    (hm : f.memory.Whole) : g.thread.issued = f.thread.issued ∨ ∃ x t promised,
      f.Placed (.maintain f.thread.tid x) g.memory t promised ∧ g.thread.issued = f.thread.issued.insert t f.thread.syncPoint := by
  cases hs with
  | writeReg => exact .inl (by rw [Thread.hold_eq])
  | read => exact .inl (by rw [Frame.thread_afterRead])
  | write => exact .inl (by rw [Frame.thread_afterWrite])
  | maintain _ _ hp => exact .inr ⟨_, _, _, Frame.placed hm hp, by rw [Frame.thread_afterMaintain]⟩
  | _ => exact .inl rfl

theorem Effect.Step.issues {e : Effect} {f g : Frame} {v : e.Answer} {a : Action} (hs : e.Step f v g a)
    (hm : f.memory.Whole) (h : f.thread.Issues f.memory) : g.thread.Issues g.memory := by
  have hgrows := hs.grows hm
  rcases hs.issued_cases hm with hissued | ⟨x, t, _, hplaced, hissued⟩
  · exact h.mono hgrows.grown hissued hgrows.tid_eq
  · intro time position hi
    rw [hissued, Std.ExtTreeMap.getElem?_insert] at hi
    rw [hgrows.tid_eq]
    split at hi
    · next e => exact ⟨x, Std.compare_eq_iff_eq.mp e ▸ hplaced.at?_eq⟩
    · obtain ⟨y, hy⟩ := h time position hi
      exact ⟨y, hgrows.grown.at?_eq_some hy⟩

/-- In every run what a thread remembers to have issued is maintenance of its own. -/
theorem frameInvariant_issues : FrameInvariant fun _ f => f.thread.Issues f.memory where
  start tid regs image time position h := by cases (Std.ExtTreeMap.getElem?_empty.symm.trans h)
  step hm h hs := hs.issues hm h
  next h := h
  promise hm h hp := by
    obtain ⟨-, hg, -, -, hext, -⟩ := Frame.promiseWrite_spec hm hp
    rw [hg]
    exact h.mono hext rfl rfl
  grow h hext := h.mono hext rfl rfl

/-! ### What effects keep -/

/-- A frame goes on from another: nothing that this had is lost, and all its views only rise. -/
structure Frame.Continues (f g : Frame) : Prop where
  events : f.memory.events <+: g.memory.events
  image_eq : g.memory.initial = f.memory.initial
  views : ∀ c, f.thread.views.get c ≤ g.thread.views.get c
  coherence : ∀ loc, f.thread.coherenceOf loc ≤ g.thread.coherenceOf loc
  history : f.thread.history <+: g.thread.history
  syncPoint : f.thread.syncPoint ≤ g.thread.syncPoint
  issued : ∀ (time : View) (position : Nat), f.thread.issued[time]? = some position → g.thread.issued[time]? = some position
  tid_eq : g.thread.tid = f.thread.tid
  initial_eq : g.thread.initial = f.thread.initial

namespace Frame.Continues

theorem refl (f : Frame) : f.Continues f :=
  ⟨List.prefix_refl _, rfl, fun _ => Int.le_refl _, fun _ => Int.le_refl _, List.prefix_refl _, Nat.le_refl _,
    fun _ _ h => h, rfl, rfl⟩

theorem trans {f g h : Frame} (hg : f.Continues g) (hh : g.Continues h) : f.Continues h where
  events := hg.events.trans hh.events
  image_eq := hh.image_eq.trans hg.image_eq
  views c := Int.le_trans (hg.views c) (hh.views c)
  coherence loc := Int.le_trans (hg.coherence loc) (hh.coherence loc)
  history := hg.history.trans hh.history
  syncPoint := Nat.le_trans hg.syncPoint hh.syncPoint
  issued time position hp := hh.issued time position (hg.issued time position hp)
  tid_eq := hh.tid_eq.trans hg.tid_eq
  initial_eq := hh.initial_eq.trans hg.initial_eq

end Frame.Continues

/-- A whole memory that goes on from another has its events first. -/
theorem Memory.Extends.events_prefix {m n : Memory} (h : m.Extends n) (hm : m.Whole) (hn : n.Whole) :
    m.events <+: n.events := by
  refine List.prefix_iff_getElem?.mpr fun i hi => ?_
  have he : m.at? (i + 1) = some m.events[i] := (hm.at?_succ i).trans (List.getElem?_eq_getElem hi)
  rw [← hn.at?_succ]
  exact h.at?_eq_some he

namespace Effect.Step

variable {e : Effect} {f g : Frame} {v : e.Answer} {a : Action}

/-- Views of cells only rise. -/
theorem coherenceOf_le (hs : e.Step f v g a) (loc : Int) : f.thread.coherenceOf loc ≤ g.thread.coherenceOf loc := by
  cases hs with
  | writeReg =>
    rw [Thread.hold_eq]
    exact Int.le_refl _
  | read =>
    rw [Frame.thread_afterRead]
    exact Thread.Recalls.coherenceOf_le rfl (View.le_join_left _ _) loc
  | write =>
    rw [Frame.thread_afterWrite]
    exact Thread.Recalls.coherenceOf_le rfl (View.le_join_left _ _) loc
  | maintain =>
    rw [Frame.thread_afterMaintain]
    exact Int.le_refl _
  | _ => exact Int.le_refl _

/-- Synchronizations of the context are in the order of the history. -/
theorem syncPoint_le (hs : e.Step f v g a) (h : f.thread.syncPoint ≤ f.thread.history.length) :
    f.thread.syncPoint ≤ g.thread.syncPoint := by
  cases hs with
  | writeReg => exact Nat.le_of_eq (by rw [Thread.hold_eq])
  | read => exact Nat.le_of_eq (by rw [Frame.thread_afterRead])
  | write => exact Nat.le_of_eq (by rw [Frame.thread_afterWrite])
  | maintain => exact Nat.le_of_eq (by rw [Frame.thread_afterMaintain])
  | isb | returnFromException | halt => exact h
  | _ => exact Nat.le_refl _

/-- Effects fulfil promises and make none. -/
theorem promises_sublist (hs : e.Step f v g a) : g.thread.promises.Sublist f.thread.promises := by
  have fulfilled (promised : Bool) (t : View) :
      (if promised then f.thread.promises.filter fun p => p != t else f.thread.promises).Sublist f.thread.promises := by
    split
    · exact List.filter_sublist
    · exact .refl _
  cases hs with
  | writeReg => rw [Thread.hold_eq]
  | read => rw [Frame.thread_afterRead]
  | write =>
    rw [Frame.thread_afterWrite]
    exact fulfilled _ _
  | maintain =>
    rw [Frame.thread_afterMaintain]
    exact fulfilled _ _
  | _ => exact .refl _

/-- New maintenance comes later than all that was issued before, so it takes the place of none. -/
theorem issued_kept (hs : e.Step f v g a) (hm : f.memory.Whole) (hr : f.thread.Recalls f.memory)
    (hi : f.thread.Issues f.memory) {time : View} {position : Nat} (h : f.thread.issued[time]? = some position) :
    g.thread.issued[time]? = some position := by
  rcases hs.issued_cases hm with hissued | ⟨x, t, promised, hplaced, hissued⟩
  · rw [hissued]
    exact h
  · -- what is promised are writes
    have hfresh : promised = false := by
      rw [← Bool.not_eq_true]
      intro hpromised
      obtain ⟨hmemory, ht⟩ := hplaced.kept hpromised
      obtain ⟨loc, value, hw⟩ := hr.promised t ht
      cases (hmemory ▸ hplaced.at?_eq).symm.trans hw
    have hne : t ≠ time := by
      rintro rfl
      obtain ⟨_, hx⟩ := hi t position h
      have hle := Memory.le_length_of_at? hx
      have := (hplaced.fresh hfresh).1
      lia
    rw [hissued, Std.ExtTreeMap.getElem?_insert, if_neg fun e => hne (Std.compare_eq_iff_eq.mp e)]
    exact h

/-- A frame goes on in every effect. -/
theorem continues (hs : e.Step f v g a) (hm : f.memory.Whole) (hr : f.thread.Recalls f.memory)
    (hi : f.thread.Issues f.memory) : f.Continues g where
  events := (hs.grows hm).grown.events_prefix hm ((hs.grows hm).whole hm)
  image_eq := (hs.grows hm).grown.initial
  views := hs.views_le
  coherence := hs.coherenceOf_le
  history := by
    obtain ⟨ws, hws, -⟩ := hs.history_eq
    exact ⟨ws, hws.symm⟩
  syncPoint := hs.syncPoint_le hr.synced
  issued _ _ h := hs.issued_kept hm hr hi h
  tid_eq := (hs.grows hm).tid_eq
  initial_eq := (hs.grows hm).initial_eq

end Effect.Step

/-! ### Instructions and promises -/

/-- What a thread remembers, of its events and of its maintenance, memory has. -/
theorem frameInvariant_recalls_issues : FrameInvariant fun as f =>
    ((Coherent as f ∧ f.Bounded) ∧ f.thread.Recalls f.memory) ∧ f.thread.Issues f.memory :=
  frameInvariant_recalls.and frameInvariant_issues

/-- A frame goes on in every instruction, and promises are fulfilled in it and not made. -/
theorem Instr.Runs.continues {i : Instr} {f g : Frame} {before as : List Action} (r : i.Runs f as g) (hm : f.memory.Whole)
    (h : ((Coherent before f ∧ f.Bounded) ∧ f.thread.Recalls f.memory) ∧ f.thread.Issues f.memory) :
    f.Continues g ∧ g.thread.promises.Sublist f.thread.promises := by
  induction r generalizing before with
  | done => exact ⟨.refl _, .refl _⟩
  | ask hs _ ih =>
    obtain ⟨hcontinues, hpromises⟩ := ih ((hs.grows hm).whole hm) (frameInvariant_recalls_issues.step hm h hs)
    exact ⟨(hs.continues hm h.1.2 h.2).trans hcontinues, hpromises.trans hs.promises_sublist⟩

/-- A frame goes on in every promise, which comes after all others. -/
theorem Frame.continues_promiseWrite {f g : Frame} {loc value : Int} {time : View} (hm : f.memory.Whole)
    (h : f.promiseWrite loc value = .ok (g, time)) :
    f.Continues g ∧ g.thread.promises = f.thread.promises ++ [time] := by
  obtain ⟨-, hg, hwhole, -, hext, -⟩ := promiseWrite_spec hm h
  have hevents := hext.events_prefix hm hwhole
  rw [hg]
  exact ⟨{ Continues.refl f with events := hevents, image_eq := hext.initial }, rfl⟩

/-! ### Cached walks -/

/-- The effects that synchronize the context. -/
def Effect.Synchronizes (e : Effect) : Prop := e = .barrier .isb ∨ e = .returnFromException ∨ e = .halt

namespace Frame

variable {f : Frame} {l : Line}

/-- Whether maintenance between the views of two synchronizations affects what a line is cached under. -/
def Passes (f g : Frame) (l : Line) : Prop :=
  ∃ (t : View) (i : Int) (m : Maintenance), f.thread.views.contextSync < t ∧ t ≤ g.thread.views.contextSync ∧
    f.memory.at? t = some (.maintain i m) ∧ m.affects l.tag.context = .ok true

/-- Synchronization takes away what it passes maintenance of, and no more. -/
theorem mem_synchronize : l ∈ f.synchronize.thread.cache.lines ↔ l ∈ f.thread.cache.lines ∧ ¬f.Passes f.synchronize l := by
  refine (mem_maintained _ _).trans (and_congr_right fun _ => ?_)
  simp only [Memory.mem_shown, Memory.at?_after_eq_some_iff, Memory.at?_cut_eq_some_iff, Passes,
    Maintenance.affects_context, Except.ok.injEq]
  constructor
  · rintro h ⟨t, i, m, hlt, hle, hm, hits⟩
    rw [h i m ⟨t, hlt, hle, hm⟩] at hits
    cases hits
  · rintro h i m ⟨t, hlt, hle, hm⟩
    exact Bool.not_eq_true _ ▸ fun hits => h ⟨t, i, m, hlt, hle, hm, hits⟩

end Frame

/-- A cached walk goes in no effect but a synchronization of the context, and in that exactly when it passes maintenance
of the walk. -/
theorem Effect.Step.not_mem_cache_iff {e : Effect} {f g : Frame} {v : e.Answer} {a : Action} (hs : e.Step f v g a)
    {l : Line} (hl : l ∈ f.thread.cache.lines) : l ∉ g.thread.cache.lines ↔ e.Synchronizes ∧ f.Passes g l := by
  have kept (he : ¬e.Synchronizes) (hg : l ∈ g.thread.cache.lines) : l ∉ g.thread.cache.lines ↔ e.Synchronizes ∧ f.Passes g l :=
    iff_of_false (fun h => h hg) fun h => he h.1
  have gone (he : e.Synchronizes) (hg : g = f.synchronize) : l ∉ g.thread.cache.lines ↔ e.Synchronizes ∧ f.Passes g l := by
    rw [hg, Frame.mem_synchronize, not_and_not_right]
    exact ⟨fun h => ⟨he, h hl⟩, fun h _ => h.2⟩
  cases hs with
  | isb => exact gone (.inl rfl) rfl
  | returnFromException => exact gone (.inr (.inl rfl)) rfl
  | halt => exact gone (.inr (.inr rfl)) rfl
  | writeReg => exact kept (by simp [Synchronizes]) (by rw [Thread.hold_eq]; exact hl)
  | read => exact kept (by simp [Synchronizes]) (by rw [Frame.thread_afterRead]; exact hl)
  | write => exact kept (by simp [Synchronizes]) (by rw [Frame.thread_afterWrite]; exact hl)
  | maintain => exact kept (by simp [Synchronizes]) (by rw [Frame.thread_afterMaintain]; exact hl)
  | cacheWalk _ _ _ _ hadd =>
    simp only [Paging.Cache.add, bind_eq_ok, pure_eq_ok] at hadd
    obtain ⟨_, -, rfl⟩ := hadd
    exact kept (by simp [Synchronizes]) (Paging.Cache.mem_insert.mpr (.inl hl))
  | _ => exact kept (by simp [Synchronizes]) hl

/-- State only grows, from each state that is reached: along every instruction, whatever it asks for and whichever way
its choices go, and with every promise. An instruction leaves fewer promises, and a promise adds itself to them. Cached
walks go at synchronizations of the context alone, each exactly when maintenance behind the new view and not behind the
old one affects it. -/
theorem Program.Reaches.only_grows {p : Program} {s : State} (hs : p.Reaches s) {tid : Nat} {slot : Slot}
    (hslot : s.threads[tid]? = some slot) :
    (∀ (i : Instr) (f : Frame), (i.runOn slot.thread s.memory).Yields f →
      Frame.Continues { thread := slot.thread, memory := s.memory } f ∧
        f.thread.promises.Sublist slot.thread.promises) ∧
    (∀ loc value f time, Frame.promiseWrite { thread := slot.thread, memory := s.memory } loc value = .ok (f, time) →
      Frame.Continues { thread := slot.thread, memory := s.memory } f ∧
        f.thread.promises = slot.thread.promises ++ [time]) ∧
    ∀ (e : Effect) (f g : Frame) (v : e.Answer), (e.run f).Yields (g, v) → ∀ l ∈ f.thread.cache.lines,
      l ∉ g.thread.cache.lines ↔ e.Synchronizes ∧ f.Passes g l := by
  obtain ⟨ds, r⟩ := Program.reaches_iff.mp hs
  have hkept := (frameInvariant_recalls_issues.slot p).holds r hslot
  have hm := r.fits.whole
  refine ⟨?_, ?_, ?_⟩
  · intro i f hf
    obtain ⟨as, hr⟩ := Instr.yields_run.mp hf
    exact hr.continues hm hkept
  · intro loc value f time hf
    exact Frame.continues_promiseWrite hm hf
  · intro e f g v hv l hl
    obtain ⟨a, hstep⟩ := Effect.yields_run.mp hv
    exact hstep.not_mem_cache_iff hl

theorem only_grows_loadThenMaintain : ∃ s slot l f time, loadThenMaintain.Reaches s ∧ s.threads[0]? = some slot ∧
    l ∈ slot.thread.cache.lines ∧
    Frame.promiseWrite { thread := slot.thread, memory := s.memory } 8 5 = .ok (f, time) ∧
    Frame.Continues { thread := slot.thread, memory := s.memory } f ∧
    f.thread.promises = slot.thread.promises ++ [time] ∧
    (∀ g, (Shape.isb.runOn slot.thread s.memory).Yields g →
      Frame.Continues { thread := slot.thread, memory := s.memory } g ∧
        g.thread.promises.Sublist slot.thread.promises) ∧
    l ∉ (Frame.synchronize { thread := slot.thread, memory := s.memory }).thread.cache.lines ∧
    Frame.Passes { thread := slot.thread, memory := s.memory }
      (Frame.synchronize { thread := slot.thread, memory := s.memory }) l := by
  have path : (loadThenMaintain.start.follow loadThenMaintain {} [0, 0, 0]).any (fun s => s.threads[0]?.any fun slot =>
      (Frame.promiseWrite { thread := slot.thread, memory := s.memory } 8 5).toOption.isSome &&
        slot.thread.cache.lines.any fun l =>
          l ∉ (Frame.synchronize { thread := slot.thread, memory := s.memory }).thread.cache.lines) = true := by
    decide +kernel
  obtain ⟨s, hs, hP⟩ := Program.exists_reaches _ path
  simp only [Option.any_eq_true, Bool.and_eq_true, decide_eq_true_eq, List.any_eq_true] at hP
  obtain ⟨slot, hslot, hpromise, l, hl, hgone⟩ := hP
  have hf : ∃ f time, Frame.promiseWrite { thread := slot.thread, memory := s.memory } 8 5 = .ok (f, time) := by
    cases h : Frame.promiseWrite { thread := slot.thread, memory := s.memory } 8 5 with
    | error e => rw [h] at hpromise; cases hpromise
    | ok r => exact ⟨r.1, r.2, rfl⟩
  obtain ⟨f, time, hf⟩ := hf
  obtain ⟨hrun, hpromised, hcached⟩ := Program.Reaches.only_grows hs hslot
  obtain ⟨hcontinues, hpromises⟩ := hpromised 8 5 f time hf
  have hsync := (hcached (.barrier .isb) _ _ () (Effect.yields_run.mpr ⟨_, .isb⟩) l hl).mp hgone
  exact ⟨s, slot, l, f, time, hs, hslot, hl, hf, hcontinues, hpromises, hrun Shape.isb, hgone, hsync.2⟩

end Litmus
