import Litmus.Proofs.Exploration.Invalidation
import Litmus.Proofs.Exploration.Sources
import Litmus.Proofs.Instruction.Underway

/-!
What is in a cache. Lines are cached when walks end, of whatever pages and in whatever order, and each is found again
by the tag that its walk filled. Main facts: in every state that is reached each line is a whole walk, which is replayed
as a mapping at the level of its tag for all addresses that the tag serves and from any table; so none of what is found
for an address is left out when it is replayed.
-/

namespace Litmus

open Paging

/-- What a line is that a walk may have left: a whole walk under the tag that it fills. -/
structure Paging.Line.Complete (l : Line) : Prop where
  level_mem : l.tag.level ∈ Level.mapping
  length_eq : l.descriptors.length = l.tag.level.val + 1
  /-- From every table of the scheme it is replayed for each address that its tag serves, as a mapping at its level. -/
  replayed : ∀ va base, region l.tag.level va = l.tag.region → Inside base →
    ∃ w pa, replay va base l.descriptors = .ok w ∧ w.landing = .mapped pa l.tag.level l.tag.asid.isNone

namespace Frame

variable {f : Frame} {va base asid : Int} {as : List Action}

/-- The replays of all that is cached for an address. -/
def replayedCandidates (f : Frame) (va base asid : Int) : Except Fault (List Candidate) :=
  ((cachedTags va asid).flatMap f.thread.cache.find).mapM fun ds => do
    return Candidate.of f.memory va f.thread.views.contextSync base asid (← replay va base ds)

/-- What is cached goes back to walks, so it is whole. -/
theorem Traced.complete (h : f.Traced as) {l : Line} (hl : l ∈ f.thread.cache.lines) : l.Complete := by
  obtain ⟨va, c, -, hcurrent, hleaf, hds⟩ := h.lines l hl
  rw [hcurrent.leaf_eq] at hleaf
  obtain ⟨hlevel, hlength⟩ := Walk.complete_of_leaf? hcurrent.walked hleaf
  refine ⟨hlevel, hds ▸ hlength, ?_⟩
  intro va base hregion hbase
  rw [← hds]
  exact Walk.exists_replay hcurrent.walked hleaf hregion hbase

/-- What is cached goes back to walks, so none of it is left out when it is replayed. -/
theorem Traced.cachedCandidates_eq (h : f.Traced as) : f.cachedCandidates va base asid = f.replayedCandidates va base asid := by
  have kept {tag : Tag} (ht : tag ∈ cachedTags va asid) {ds : List Int} (hds : ds ∈ f.thread.cache.find tag) :
      (do
        let w ← replay va base ds
        return if w.leaf? va asid = some tag then
            some (Candidate.of f.memory va f.thread.views.contextSync base asid w)
          else none : Except Fault (Option Candidate)) =
        some <$> do return Candidate.of f.memory va f.thread.views.contextSync base asid (← replay va base ds) := by
    obtain ⟨level, -, space, hspace, rfl⟩ := mem_cachedTags.mp ht
    cases hw : replay va base ds with
    | error e => rfl
    | ok w =>
      have hleaf := h.leaf_of_replay hspace hds hw
      simp [hleaf, bind, Except.bind, pure, Except.pure, Functor.map, Except.map]
  rw [cachedCandidates, replayedCandidates, ← flatten_mapM,
    mapM_map_of_forall fun tag ht => mapM_map_of_forall fun ds hds => kept ht hds]
  cases (cachedTags va asid).mapM fun tag => (f.thread.cache.find tag).mapM fun ds => do
      return Candidate.of f.memory va f.thread.views.contextSync base asid (← replay va base ds) with
  | error e => rfl
  | ok found =>
    have unwrapped : (found.map (List.map some)).flatten.filterMap id = found.flatten := by
      rw [← List.map_flatten, List.filterMap_map, Function.id_comp, List.filterMap_some]
    exact congrArg Except.ok unwrapped

end Frame

/-- In every state that is reached, wherever a thread is, each line of its cache is whole: its level is one that can map,
it has a descriptor for each level down to there, and from every table of the scheme these are replayed, for each address
that the tag serves, as a mapping at that level, for all address spaces exactly when the tag is for all. So none of what
is cached for an address is left out. And whatever walks an instruction has started, read and left, each that it ends was
offered when the walk of the page was last started, and all of its steps have been read since, in the order of the levels
and where they lie; it is cached, with all of its descriptors, when it fills a tag and no maintenance is going to end it. -/
theorem State.At.cache_complete {p : Program} {s : State} {tid : Nat} {f : Frame} (hs : p.Reaches s)
    (hf : s.At p tid f) :
    (∀ l ∈ f.thread.cache.lines, l.Complete) ∧
    (∀ va base asid, f.cachedCandidates va base asid = f.replayedCandidates va base asid) ∧
    ∀ (i : Instr) (thread : Thread) (memory : Memory) (xs : List Exchange) (va : Int) (next : Unit → Instr) (g h : Frame),
      i.Exchanges { thread, memory } xs (.ask (.endWalk va) next) g → ((Effect.endWalk va).run g).Yields (h, ()) →
      ∃ c : Candidate, c.ReadBy (pageOf va) c.walk.steps xs ∧
        (∃ va' read, pageOf va' = pageOf va ∧ walk va' c.base read = .ok c.walk) ∧
        (∀ (k : Nat) (step : Paging.Step), c.walk.steps[k]? = some step → step.level = .whole k) ∧
        (∀ tag, c.leaf = some tag → c.bound = .infinity →
          h.thread = g.thread.withCache (g.thread.cache.insert ⟨tag, c.walk.descriptors⟩)) ∧
        (c.leaf = none ∨ c.bound ≠ .infinity → h.thread = g.thread) := by
  obtain ⟨-, as, htraced⟩ := frameInvariant_traced.holdsAt hs hf
  refine ⟨fun l hl => htraced.complete hl, fun va base asid => htraced.cachedCandidates_eq, ?_⟩
  intro i thread memory xs va next g h hc hv
  obtain ⟨a, hstep⟩ := Effect.yields_run.mp hv
  obtain ⟨c, hread, hcached, hkept⟩ := hc.endWalk hstep
  obtain ⟨va', read, hpage, hbase, hw⟩ := hread.walked
  refine ⟨c, hread, ⟨va', read, hpage, hw⟩, ?_, hcached, hkept⟩
  intro k step hk
  obtain ⟨level, hlevel, hreads⟩ := (descends_walkFrom hbase (Nat.le_refl 3) hw).reads k step hk
  rw [hreads.level_eq, Level.number, hlevel]
  exact congrArg (fun n : Nat => Number.whole n) (Nat.zero_add k)

theorem cache_complete_loadThenMaintain : ∃ s slot l w pa, loadThenMaintain.Reaches s ∧ s.threads[0]? = some slot ∧
    l ∈ slot.thread.cache.lines ∧ l.tag = ⟨3, 0, none⟩ ∧ l.descriptors.length = 4 ∧
    replay 0xff8 0x7000 l.descriptors = .ok w ∧ w.landing = .mapped pa 3 true ∧
    Frame.cachedCandidates { thread := slot.thread, memory := s.memory } 0xff8 0x7000 5 =
      Frame.replayedCandidates { thread := slot.thread, memory := s.memory } 0xff8 0x7000 5 := by
  have path : (loadThenMaintain.start.follow loadThenMaintain {} [0]).any (fun s => s.threads[0]?.any fun slot =>
      slot.thread.cache.lines.any fun l => l.tag = ⟨3, 0, none⟩) = true := by
    decide +kernel
  obtain ⟨s, hs, hP⟩ := Program.exists_reaches _ path
  simp only [Option.any_eq_true, decide_eq_true_eq, List.any_eq_true] at hP
  obtain ⟨slot, hslot, l, hl, htag⟩ := hP
  obtain ⟨hlines, hcandidates, -⟩ := State.At.cache_complete hs (.rest hslot)
  obtain ⟨-, hlength, hreplayed⟩ := hlines l hl
  rw [htag] at hlength hreplayed
  obtain ⟨w, pa, hw, hlanding⟩ := hreplayed 0xff8 0x7000 (by decide) (by decide)
  exact ⟨s, slot, l, w, pa, hs, hslot, hl, htag, hlength, hw, hlanding, hcandidates 0xff8 0x7000 5⟩

end Litmus
