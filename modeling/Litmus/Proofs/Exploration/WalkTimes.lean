import Litmus.Proofs.Exploration.Complete
import Litmus.Proofs.Instruction.Dataflow
import Litmus.Proofs.Thread.Origin

/-!
When the walks that may be taken read memory. A walk that is taken from memory reads it at the time that it is
recorded with; one that is taken from the cache is recorded with the time of the last synchronization, though what
it replays may have been read later. Main facts: what is cached goes back to a walk from memory that the thread took
before; so, as long as the table stays the same, each walk that may be taken is that of memory at its own time or at
the recorded time of an earlier one; and there is a walk whose own time is before all that it could have read.
-/

namespace Litmus

open Paging

/-! ### What system registers have held -/

/-- An effect adds to the history of system registers only what it writes. -/
theorem Effect.Step.history_eq {e : Effect} {f g : Frame} {v : e.Answer} {a : Action} (hs : e.Step f v g a) :
    ∃ ws, g.thread.history = f.thread.history ++ ws ∧ ∀ w ∈ ws, ∃ value deps, e = .writeReg w.reg value deps := by
  have same (h : g.thread.history = f.thread.history) : ∃ ws, g.thread.history = f.thread.history ++ ws ∧
      ∀ w ∈ ws, ∃ value deps, e = .writeReg w.reg value deps := ⟨[], by rw [h, List.append_nil], nofun⟩
  cases hs with
  | @writeReg reg value deps =>
    rw [Thread.hold_eq]
    dsimp only
    split
    · refine ⟨_, rfl, ?_⟩
      intro w hw
      rw [List.mem_singleton.mp hw]
      exact ⟨value, deps, rfl⟩
    · exact ⟨[], by rw [List.append_nil], nofun⟩
  | read => exact same (by rw [Frame.thread_afterRead])
  | write => exact same (by rw [Frame.thread_afterWrite])
  | maintain => exact same (by rw [Frame.thread_afterMaintain])
  | _ => exact same rfl

/-- Whether a thread has not written a system register. -/
def Thread.Unwritten (t : Thread) (reg : String) : Prop := ∀ w ∈ t.history, w.reg ≠ reg

/-- Whether no thread of a program ever writes a system register. -/
def Program.NeverWrites (p : Program) (reg : String) : Prop :=
  ∀ (s : State) (tid : Nat) (f : Frame), p.Reaches s → s.At p tid f → f.thread.Unwritten reg

/-- What a thread has not written holds what it did at first. -/
theorem Thread.HasHeld.of_unwritten {t : Thread} {reg : String} {value : Int} (h : t.HasHeld reg value)
    (hw : t.Unwritten reg) : t.initial[reg]? = some value :=
  h.resolve_right fun ⟨w, hmem, hreg, _⟩ => hw w hmem hreg

/-- An instruction that may not write a register leaves it unwritten. -/
theorem Instr.Comes.unwritten {i j : Instr} {f g : Frame} {reg : String} (hc : i.Comes f j g) (hi : ¬i.MayWrite reg)
    (h : f.thread.Unwritten reg) : g.thread.Unwritten reg := by
  induction hc with
  | here => exact h
  | on hs _ ih =>
    refine ih (fun h => hi (.later _ h)) ?_
    obtain ⟨ws, hhistory, hws⟩ := hs.history_eq
    intro w hw
    rw [hhistory] at hw
    rcases List.mem_append.mp hw with hw | hw
    · exact h w hw
    · rintro rfl
      obtain ⟨value, deps, rfl⟩ := hws w hw
      exact hi .here

/-- A program none of whose instructions may write a register never writes it. -/
theorem Program.neverWrites_of_code {p : Program} {reg : String} (hp : ∀ t ∈ p.threads, ∀ i ∈ t.code, ¬i.MayWrite reg) :
    p.NeverWrites reg := by
  have hinvariant : SlotInvariant p fun _ _ slot _ => slot.thread.Unwritten reg := by
    refine ⟨fun _ => nofun, ?_, ?_, fun _ _ h _ _ => h⟩
    · intro ds s tid t slot i as f r ht hs hi h hr
      exact hr.comes.unwritten (hp _ (List.mem_of_getElem? ht) _ (List.mem_of_getElem? hi)) h
    · intro ds s tid slot promised loc value f time r hs h hf
      obtain ⟨-, hg, -⟩ := Frame.promiseWrite_spec r.fits.whole hf
      rw [hg]
      exact h
  intro s tid f hs hf
  obtain ⟨ds, r⟩ := Program.reaches_iff.mp hs
  cases hf with
  | rest hslot => exact hinvariant.holds r hslot
  | amid ht hslot hi hc =>
    exact hc.unwritten (hp _ (List.mem_of_getElem? ht) _ (List.mem_of_getElem? hi)) (hinvariant.holds r hslot)

/-! ### What is cached was read from memory -/

namespace Thread

/-- A candidate that is the walk of memory at the time that it has, from a table that the thread has had. -/
structure Current (m : Memory) (t : Thread) (va : Int) (c : Candidate) : Prop where
  inside : c.time ≤ m.length
  held : ∃ value, t.HasHeld Register.tables value ∧ c.base = Register.tableBase value
  walked : walk va c.base (m.tableAt c.time) = .ok c.walk
  leaf_eq : c.leaf = c.walk.leaf? va c.asid

/-- Whether one of the actions took a walk of memory that read these descriptors and filled the tag. -/
def HasWalked (m : Memory) (t : Thread) (as : List Action) (tag : Tag) (descriptors : List Int) : Prop :=
  ∃ va c, .walk va c ∈ as ∧ t.Current m va c ∧ c.leaf = some tag ∧ c.walk.descriptors = descriptors

variable {m n : Memory} {t u : Thread}

theorem Current.mono {va : Int} {c : Candidate} (h : t.Current m va c) (hext : m.Extends n) (hi : u.initial = t.initial)
    (hh : ∀ w ∈ t.history, w ∈ u.history) : u.Current n va c where
  inside := Int.le_trans h.inside hext.length_le
  held := by
    obtain ⟨value, hheld, hbase⟩ := h.held
    exact ⟨value, hheld.mono hi hh, hbase⟩
  walked := by
    rw [hext.tableAt_eq h.inside]
    exact h.walked
  leaf_eq := h.leaf_eq

theorem HasWalked.mono {as bs : List Action} {tag : Tag} {ds : List Int} (h : t.HasWalked m as tag ds)
    (hext : m.Extends n) (hi : u.initial = t.initial) (hh : ∀ w ∈ t.history, w ∈ u.history) (has : as ⊆ bs) :
    u.HasWalked n bs tag ds := by
  obtain ⟨va, c, ha, hc, htag, hds⟩ := h
  exact ⟨va, c, has ha, hc.mono hext hi hh, htag, hds⟩

end Thread

/-- Whether all that is cached, or will be when a walk in flight ends, was read from memory by some walk. -/
structure Frame.Traced (as : List Action) (f : Frame) : Prop where
  lines : ∀ l ∈ f.thread.cache.lines, f.thread.HasWalked f.memory as l.tag l.descriptors
  flights : ∀ {page : Int} {w : Flight} {context : Context}, f.scratch.flights[page]? = some w → w.context = some context →
    ∃ tag, context = tag.context ∧ f.thread.HasWalked f.memory as tag w.descriptors

namespace Frame

variable {f : Frame} {as : List Action} {va : Int} {cs : List Candidate} {c : Candidate}

/-- Between instructions no walk is in flight. -/
theorem Traced.rest {thread : Thread} {m : Memory}
    (h : ∀ l ∈ thread.cache.lines, thread.HasWalked m as l.tag l.descriptors) : Traced as { thread, memory := m } where
  lines := h
  flights hw := by cases (Std.ExtTreeMap.getElem?_empty.symm.trans hw)

/-- A candidate that replays a line of the cache at the last synchronization, from a table that the thread has had. -/
structure Replays (f : Frame) (va : Int) (c : Candidate) (l : Line) : Prop where
  mem : l ∈ f.thread.cache.lines
  time_eq : c.time = f.thread.views.contextSync
  held : ∃ value, f.thread.HasHeld Register.tables value ∧ c.base = Register.tableBase value
  replayed : replay va c.base l.descriptors = .ok c.walk
  descriptors_eq : c.walk.descriptors = l.descriptors
  walk_leaf : c.walk.leaf? va c.asid = some l.tag
  leaf_eq : c.leaf = some l.tag

/-- A candidate is the walk of memory at its time, or it replays what is cached. -/
theorem Traced.current_or_replays (h : f.Traced as) (hcs : f.walkCandidates va = .ok cs) (hc : c ∈ cs) :
    f.thread.Current f.memory va c ∨ ∃ l, f.Replays va c l := by
  obtain ⟨held, hheld, r, hr, ⟨l, hl, -, w, hw, hleaf, rfl⟩ | ⟨time, htime, w, hw, rfl⟩⟩ := mem_walkCandidates hcs hc
  · obtain ⟨va', c', -, hcurrent, -, hds⟩ := h.lines l hl
    have hwds : w.descriptors = l.descriptors := (replay_descriptors hcurrent.walked hds hw).trans hds
    exact .inr ⟨l, hl, rfl, ⟨_, Thread.hasHeld_of_mem_readSystemFrom hheld hr, rfl⟩, hw, hwds, hleaf, hleaf⟩
  · have hvalue := Thread.hasHeld_of_mem_readSystemFrom hheld hr
    exact .inl ⟨(mem_walkTimes.mp htime).2, ⟨_, hvalue, rfl⟩, hw, rfl⟩

/-- What a walk that is taken will leave in the cache was read from memory by some walk. -/
theorem Traced.hasWalked (h : f.Traced as) (hcs : f.walkCandidates va = .ok cs) (hc : c ∈ cs) {tag : Tag}
    (hleaf : c.leaf = some tag) : f.thread.HasWalked f.memory (as ++ [.walk va c]) tag c.walk.descriptors := by
  rcases h.current_or_replays hcs hc with hcurrent | ⟨l, hl⟩
  · exact ⟨va, c, List.mem_append_right _ (List.mem_singleton_self _), hcurrent, hleaf, rfl⟩
  · have htag := hleaf.symm.trans hl.leaf_eq
    cases htag
    rw [hl.descriptors_eq]
    exact (h.lines l hl.mem).mono (.refl _) rfl (fun _ hw => hw) (List.subset_append_left _ _)

/-- Every effect keeps it so that what is cached was read from memory. -/
theorem Traced.step {e : Effect} {g : Frame} {v : e.Answer} {a : Action} (h : f.Traced as) (hm : f.memory.Whole)
    (hs : e.Step f v g a) : g.Traced (as ++ [a]) := by
  have later {tag : Tag} {ds : List Int} (hw : f.thread.HasWalked f.memory as tag ds) :
      g.thread.HasWalked g.memory (as ++ [a]) tag ds := by
    obtain ⟨ws, hhistory, -⟩ := hs.history_eq
    refine hw.mono (hs.grows hm).grown (hs.grows hm).initial_eq ?_ (List.subset_append_left _ _)
    intro w hw
    rw [hhistory]
    exact List.mem_append_left _ hw
  have flight {page : Int} {w : Flight} {context : Context} (hw : f.scratch.flights[page]? = some w)
      (hc : w.context = some context) :
      ∃ tag, context = tag.context ∧ g.thread.HasWalked g.memory (as ++ [a]) tag w.descriptors := by
    obtain ⟨tag, htag, hwalked⟩ := h.flights hw hc
    exact ⟨tag, htag, later hwalked⟩
  have same (hcache : g.thread.cache = f.thread.cache) (hflights : g.scratch.flights = f.scratch.flights) :
      g.Traced (as ++ [a]) :=
    ⟨fun l hl => later (h.lines l (hcache ▸ hl)), fun hw hc => flight (hflights ▸ hw) hc⟩
  have synchronized (hcache : g.thread.cache = f.synchronize.thread.cache)
      (hflights : g.scratch.flights = f.scratch.flights) : g.Traced (as ++ [a]) := by
    refine ⟨?_, fun hw hc => flight (hflights ▸ hw) hc⟩
    intro l hl
    rw [hcache] at hl
    exact later (h.lines l ((mem_maintained _ _).mp hl).1)
  cases hs with
  | writeReg => exact same (by rw [Thread.hold_eq]) rfl
  | read => exact same (by rw [thread_afterRead]) rfl
  | write => exact same (by rw [thread_afterWrite]) rfl
  | maintain => exact same (by rw [thread_afterMaintain]) rfl
  | isb | returnFromException | halt => exact synchronized rfl rfl
  | descriptor _ _ _ hw =>
    refine ⟨fun l hl => later (h.lines l hl), ?_⟩
    intro page w' context hw' hc
    rw [Scratch.addRead, Scratch.addStrict, Scratch.advance, Std.ExtTreeMap.getElem?_insert] at hw'
    split at hw'
    · -- what the walk will leave in the cache does not change as its descriptors are read
      cases hw'
      obtain ⟨tag, htag, hwalked⟩ := flight hw hc
      exact ⟨tag, htag, hwalked⟩
    · exact flight hw' hc
  | startWalk hcs hmem =>
    refine ⟨fun l hl => later (h.lines l hl), ?_⟩
    intro page w' context hw' hc
    rw [Scratch.startWalk, Std.ExtTreeMap.getElem?_insert] at hw'
    split at hw'
    · cases hw'
      rw [Candidate.flight, Option.map_eq_some_iff] at hc
      obtain ⟨tag, hleaf, rfl⟩ := hc
      exact ⟨tag, rfl, h.hasWalked hcs hmem hleaf⟩
    · exact flight hw' hc
  | endWalk =>
    refine ⟨fun l hl => later (h.lines l hl), ?_⟩
    intro page w' context hw' hc
    rw [Scratch.landed, Std.ExtTreeMap.getElem?_erase] at hw'
    split at hw'
    · cases hw'
    · exact flight hw' hc
  | cacheWalk hw _ hcontext _ hadd =>
    constructor
    · intro l hl
      obtain ⟨tag, rfl, hwalked⟩ := flight hw hcontext
      rw [Cache.add, Tag.tag_context] at hadd
      cases hadd
      rcases Cache.mem_insert.mp hl with hl | rfl
      · exact later (h.lines l hl)
      · exact hwalked
    · intro page w' context hw' hc
      rw [Scratch.landed, Std.ExtTreeMap.getElem?_erase] at hw'
      split at hw'
      · cases hw'
      · exact flight hw' hc
  | _ => exact same rfl rfl

end Frame

/-- In every run what is cached was read from memory by some walk. -/
theorem frameInvariant_traced : FrameInvariant fun as f => f.Traced as where
  start tid regs image := .rest nofun
  step hm h hs := h.step hm hs
  next h := .rest h.lines
  promise hm h hp := by
    obtain ⟨-, hg, -, -, hext, -, -⟩ := Frame.promiseWrite_spec hm hp
    rw [hg]
    exact .rest fun l hl => (h.lines l hl).mono hext rfl (fun _ hw => hw) (List.Subset.refl _)
  grow h hext := .rest fun l hl => (h.lines l hl).mono hext rfl (fun _ hw => hw) (List.Subset.refl _)

/-! ### The times of walks -/

/-- As long as the table stays the same, each walk that may be taken is that of memory at its own time, or it is from
the cache, and that of memory at the time of an earlier walk of the thread which read the same. -/
theorem Frame.Traced.exists_since {f : Frame} {as : List Action} (h : f.Traced as)
    (hwritten : f.thread.Unwritten Register.tables) {va : Int} {cs : List Candidate} {c : Candidate}
    (hcs : f.walkCandidates va = .ok cs) (hc : c ∈ cs) :
    ∃ since, since ≤ f.memory.length ∧ walk va c.base (f.memory.tableAt since) = .ok c.walk ∧
      (since = c.time ∨ c.time = f.thread.views.contextSync ∧ ∃ va' c', .walk va' c' ∈ as ∧ c'.time = since ∧
        c'.base = c.base ∧ c'.walk.descriptors = c.walk.descriptors) := by
  rcases h.current_or_replays hcs hc with hcurrent | ⟨l, hl⟩
  · exact ⟨c.time, hcurrent.inside, hcurrent.walked, .inl rfl⟩
  · obtain ⟨va', c', hmem, hcurrent, htag, hds⟩ := h.lines l hl.mem
    have hdescriptors : c'.walk.descriptors = c.walk.descriptors := hds.trans hl.descriptors_eq.symm
    have hbase : c'.base = c.base := by
      obtain ⟨value, hvalue, hbase⟩ := hl.held
      obtain ⟨value', hvalue', hbase'⟩ := hcurrent.held
      have hvalues := (hvalue'.of_unwritten hwritten).symm.trans (hvalue.of_unwritten hwritten)
      rw [hbase, hbase', Option.some.inj hvalues]
    -- both addresses lie in the region of the tag, so they select the same entries
    have hregion := Walk.region_eq_of_leaf? hl.walk_leaf (hcurrent.leaf_eq.symm.trans htag)
    obtain ⟨w, hw, hdw⟩ := walkFrom_of_region_eq hcurrent.walked hregion
    have hreplayed := hl.replayed
    rw [replay, walk] at hreplayed
    rw [hbase] at hw
    have hwalk : w = c.walk := walkFrom_unique hw hreplayed (hdw.trans hdescriptors)
    exact ⟨c'.time, hcurrent.inside, hwalk ▸ hw, .inr ⟨hl.time_eq, va', c', hmem, rfl, hbase, hdescriptors⟩⟩

/-- In a program that never writes the table register, each walk that a thread may take is that of memory at the time
that it is recorded with, or it is from the cache and recorded with the time of the last synchronization, and it is that
of memory at the recorded time of an earlier walk of the thread, which read the same. -/
theorem State.AtBy.candidate_read_at {p : Program} (hp : p.NeverWrites Register.tables) {ds : List Deed} {s : State}
    (r : p.Run ds s) {tid : Nat} {as : List Action} {f : Frame} (hf : s.AtBy p ds tid as f) {va : Int}
    {cs : List Candidate} {c : Candidate} (hcs : f.walkCandidates va = .ok cs) (hc : c ∈ cs) :
    ∃ since, since ≤ f.memory.length ∧ walk va c.base (f.memory.tableAt since) = .ok c.walk ∧
      (since = c.time ∨ c.time = f.thread.views.contextSync ∧ ∃ va' c', .walk va' c' ∈ as ∧ c'.time = since ∧
        c'.base = c.base ∧ c'.walk.descriptors = c.walk.descriptors) := by
  obtain ⟨-, htraced⟩ := frameInvariant_traced.holdsAtBy r hf
  have hs : p.Reaches s := Program.reaches_iff.mpr ⟨ds, r⟩
  exact htraced.exists_since (hp s tid f hs ((State.at_iff ds).mpr ⟨as, hf⟩)) hcs hc

/-- Tables that map the first page, two loads from it, and a thread that maps it elsewhere. -/
def remappedPage : Program where
  cells := [(0x1000, 0x2003), (0x2000, 0x3003), (0x3000, 0x4003), (0x4000, 0x5403)]
  threads := [
    { code := [Shape.loadVirtual "X3" "X0", Shape.loadVirtual "X4" "X0"]
      regs := .ofList [("X0", (0 : Int)), ("TTBR0_EL1", 0x1000)] },
    { code := [Shape.only (.write { pa := 0x4000, value := 0x6403 })] }]

theorem neverWrites_remappedPage : remappedPage.NeverWrites Register.tables := by
  refine Program.neverWrites_of_code ?_
  intro t ht i hi
  rcases List.mem_cons.mp ht with rfl | ht
  · rcases List.mem_cons.mp hi with rfl | hi
    · exact Instr.not_mayWrite_loadVirtual (by decide) _
    · rw [List.mem_singleton.mp hi]
      exact Instr.not_mayWrite_loadVirtual (by decide) _
  · rw [List.mem_singleton.mp ht] at hi
    rw [List.mem_singleton.mp hi]
    exact Instr.not_mayWrite_only (by simp)

/-- A run in which the page is mapped elsewhere and then loaded from, after which that walk may be taken again at time
zero. -/
theorem exists_run_remappedPage : ∃ ds s slot cs c, remappedPage.Run ds s ∧ s.threads[0]? = some slot ∧
    Frame.walkCandidates { thread := slot.thread, memory := s.memory } 0 = .ok cs ∧ c ∈ cs ∧ c.time = 0 ∧
    ∀ since ≤ 0, ∀ w, walk 0 c.base (s.memory.tableAt since) = .ok w → w.steps ≠ c.walk.steps := by
  have path : remappedPage.start.runsTo 1 0 (Shape.only (.write { pa := 0x4000, value := 0x6403 })) (fun s =>
      s.runsTo 0 0 (Shape.loadVirtual "X3" "X0") fun s => s.threads[0]?.any fun slot =>
        (Frame.walkCandidates { thread := slot.thread, memory := s.memory } 0).toOption.any fun cs => cs.any fun c =>
          decide (c.time = 0) &&
            (walk 0 c.base (s.memory.tableAt 0)).toOption.all fun w => decide (w.steps ≠ c.walk.steps)) = true := by
    decide +kernel
  obtain ⟨_, as, _, s, -, r, -, path⟩ := Program.Run.start.exists_next path rfl rfl
  obtain ⟨_, bs, _, s, -, r, -, path⟩ := r.exists_next path rfl rfl
  simp only [Option.any_eq_true, List.any_eq_true, Bool.and_eq_true, decide_eq_true_eq] at path
  obtain ⟨slot, hslot, cs, hcs, c, hc, htime, hsteps⟩ := path
  refine ⟨_, s, slot, cs, c, r, hslot, toOption_eq_some.mp hcs, hc, htime, ?_⟩
  intro since hsince w hw
  rw [s.memory.tableAt_of_nonpos hsince] at hw
  rw [toOption_eq_some.mpr hw, Option.all_some, decide_eq_true_eq] at hsteps
  exact hsteps

theorem candidate_read_at_remappedPage : ∃ ds s slot cs c, remappedPage.NeverWrites Register.tables ∧
    remappedPage.Run ds s ∧ s.threads[0]? = some slot ∧
    Frame.walkCandidates { thread := slot.thread, memory := s.memory } 0 = .ok cs ∧ c ∈ cs ∧ c.time = 0 ∧
    ∃ va' c', 0 < c'.time ∧ walk 0 c.base (s.memory.tableAt c'.time) = .ok c.walk ∧ .walk va' c' ∈ actionsOf 0 ds ∧
      c'.base = c.base ∧ c'.walk.descriptors = c.walk.descriptors := by
  obtain ⟨ds, s, slot, cs, c, r, hslot, hcs, hc, htime, hsteps⟩ := exists_run_remappedPage
  obtain ⟨since, -, hwalk, hsince⟩ := State.AtBy.candidate_read_at neverWrites_remappedPage r (.rest hslot) hcs hc
  have hpos : 0 < since := Int.not_le.mp fun hle => hsteps since hle _ hwalk rfl
  rcases hsince with hsince | ⟨-, va', c', hmem, rfl, hbase, hds⟩
  · rw [hsince, htime] at hpos
    cases hpos
  · exact ⟨ds, s, slot, cs, c, neverWrites_remappedPage, r, hslot, hcs, hc, htime, va', c', hpos, hwalk, hmem, hbase, hds⟩

/-- In that program, which walks tables in one piece and never writes the table register, a walk may be taken whose steps
are not those of memory at the time that it is recorded with, nor at any time before. -/
theorem exists_candidate_ahead : (∀ t ∈ remappedPage.threads, ∀ i ∈ t.code, i.Resolving) ∧
    remappedPage.NeverWrites Register.tables ∧ ∃ s slot cs c, remappedPage.Reaches s ∧ s.threads[0]? = some slot ∧
    Frame.walkCandidates { thread := slot.thread, memory := s.memory } 0 = .ok cs ∧ c ∈ cs ∧
    ∀ since ≤ c.time, ∀ w, walk 0 c.base (s.memory.tableAt since) = .ok w → w.steps ≠ c.walk.steps := by
  refine ⟨?_, neverWrites_remappedPage, ?_⟩
  · intro t ht i hi
    rcases List.mem_cons.mp ht with rfl | ht
    · rcases List.mem_cons.mp hi with rfl | hi
      · exact Instr.resolving_loadVirtual _ _
      · rw [List.mem_singleton.mp hi]
        exact Instr.resolving_loadVirtual _ _
    · rw [List.mem_singleton.mp ht] at hi
      rw [List.mem_singleton.mp hi]
      exact .only nofun nofun
  · obtain ⟨ds, s, slot, cs, c, r, hslot, hcs, hc, htime, hsteps⟩ := exists_run_remappedPage
    exact ⟨s, slot, cs, c, Program.reaches_iff.mpr ⟨ds, r⟩, hslot, hcs, hc, htime ▸ hsteps⟩

end Litmus
