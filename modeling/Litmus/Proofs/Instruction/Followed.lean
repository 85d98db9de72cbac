import Litmus.Proofs.Instruction.LaterWalks
import Litmus.Proofs.Instruction.Resolving
import Litmus.Proofs.Thread.Origin

/-!
Walks that are followed. The machine chooses a walk as a whole, and an instruction that resolves an address decodes
the descriptors one by one; they agree on where the next descriptor is and on where the walk lands. Main facts:
resolving an address is choosing a walk and going on where it lands, after one read for each level down to there and
the end of the walk, none of which fails or chooses; and so a load through the tables makes its register depend on
the read of the data.
-/

namespace Litmus

open Paging

/-- An instruction asks for these effects, each answered at once, and so comes to what is left of it. -/
inductive Instr.Performs : Instr → Frame → List Effect → Instr → Frame → Prop
  | here {i : Instr} {f : Frame} : Performs i f [] i f
  | on {e : Effect} {next : e.Answer → Instr} {f g h : Frame} {v : e.Answer} {es : List Effect} {j : Instr} :
      e.run f = .done (g, v) → Performs (next v) g es j h → Performs (.ask e next) f (e :: es) j h

namespace Instr.Performs

variable {i j k : Instr} {f g h : Frame} {es : List Effect}

theorem run_eq (hp : i.Performs f es j g) : i.run f = j.run g := by
  induction hp with
  | here => rfl
  | on he _ ih =>
    rw [run, he]
    exact ih

/-- Whatever the instruction comes to lies before the end of those effects, or it is come to from there. -/
theorem comesBy (hp : i.Performs f es j g) {as : List Action} (hc : i.ComesBy f as k h) :
    (∃ e ∈ es, ∃ next, k = .ask e next) ∨ ∃ before after, as = before ++ after ∧ j.ComesBy g after k h := by
  induction hp generalizing as with
  | here => exact .inr ⟨[], as, rfl, hc⟩
  | on he _ ih =>
    cases hc with
    | here => exact .inl ⟨_, List.mem_cons_self, _, rfl⟩
    | on hs hc =>
      have hv := hs.yields
      rw [he, Outcome.yields_done] at hv
      cases hv
      rcases ih hc with ⟨e, hmem, hk⟩ | ⟨before, after, rfl, hj⟩
      · exact .inl ⟨e, List.mem_cons_of_mem _ hmem, hk⟩
      · exact .inr ⟨_ :: before, after, rfl, hj⟩

end Instr.Performs

/-- The newest read is the one whose number is that of the reads before it. -/
theorem Scratch.readView_addRead {s : Scratch} {v : View} {n : Nat} (h : s.readViews.length = n) :
    (s.addRead v).readView (.whole n) = .ok v := by
  subst h
  simp [readView, addRead]

/-! ### Frames of a walk -/

namespace Frame

/-- The frame in which a walk has been taken, and some of its descriptors have been read. -/
def inWalk (f : Frame) (va : Int) (c : Candidate) (count : Nat) : Frame :=
  { f with scratch := { f.scratch with
      strict := View.join f.scratch.strict c.time
      readViews := f.scratch.readViews ++ List.replicate count c.time
      bound := View.meet f.scratch.bound c.bound
      flights := f.scratch.flights.insert (pageOf va) { c.flight with remaining := c.walk.steps.drop count } } }

/-- The thread after a walk: with the walk in its cache, if that has a tag and no maintenance of it is to come. -/
def threadAfterWalk (t : Thread) (c : Candidate) : Thread :=
  match c.leaf with
  | none => t
  | some tag => if c.bound = .infinity then t.withCache (t.cache.insert ⟨tag, c.walk.descriptors⟩) else t

/-- The frame after a walk from its start to its end. -/
def walked (f : Frame) (va : Int) (c : Candidate) : Frame where
  scratch := { f.scratch with
    strict := View.join f.scratch.strict c.time
    readViews := f.scratch.readViews ++ List.replicate (c.walk.landing.level.val + 1) c.time
    bound := View.meet f.scratch.bound c.bound
    flights := f.scratch.flights.erase (pageOf va) }
  thread := threadAfterWalk f.thread c
  memory := f.memory

variable {f : Frame} {va : Int} {c : Candidate} {count : Nat}

theorem inWalk_zero : f.inWalk va c 0 = { f with scratch := f.scratch.startWalk (pageOf va) c.flight } := by
  rw [inWalk, List.replicate_zero, List.append_nil]
  rfl

theorem flights_inWalk : (f.inWalk va c count).scratch.flights[pageOf va]? =
    some { c.flight with remaining := c.walk.steps.drop count } := Std.ExtTreeMap.getElem?_insert_self

theorem insert_insert_self (t : Table Flight) (page : Int) (w w' : Flight) :
    (t.insert page w).insert page w' = t.insert page w' := by
  refine Std.ExtTreeMap.ext_getElem? fun k => ?_
  simp only [Std.ExtTreeMap.getElem?_insert]
  split <;> rfl

theorem erase_insert_self (t : Table Flight) (page : Int) (w : Flight) : (t.insert page w).erase page = t.erase page := by
  refine Std.ExtTreeMap.ext_getElem? fun k => ?_
  simp only [Std.ExtTreeMap.getElem?_erase, Std.ExtTreeMap.getElem?_insert]
  split <;> rfl

theorem join_join_self (a b : View) : View.join (View.join a b) b = View.join a b := by
  rw [View.join, View.join, Int.max_assoc, Int.max_self]

/-- The read of a descriptor where the walk goes on. -/
theorem run_descriptor {s : Step} {rest : List Step} (h : c.walk.steps.drop count = s :: rest) :
    (Effect.read { pa := s.pa, kind := .walk, va := some va }).run (f.inWalk va c count) =
      .done (f.inWalk va c (count + 1), s.descriptor) := by
  have hrest : c.walk.steps.drop (count + 1) = rest := by rw [← List.tail_drop, h, List.tail_cons]
  have hread : (f.inWalk va c count).readDescriptor { pa := s.pa, kind := .walk, va := some va } =
      .ok (f.inWalk va c (count + 1), s.descriptor) := by
    refine readDescriptor_eq_ok.mpr ⟨va, _, s, rest, rfl, flights_inWalk, h, rfl, rfl, ?_⟩
    simp only [inWalk, Scratch.advance, Scratch.addRead, Scratch.addStrict, Candidate.flight, join_join_self,
      List.append_assoc, List.replicate_succ', insert_insert_self, hrest]
  rw [Effect.run, read, if_neg (show ReadKind.walk ≠ .fetch by decide), if_neg (Decidable.not_not.mpr rfl), if_pos rfl, hread]
  rfl

theorem threadAfterWalk_eq {t : Thread} (h : c.leaf = none ∨ c.bound ≠ .infinity) : threadAfterWalk t c = t := by
  rw [threadAfterWalk]
  split
  · rfl
  · next hleaf => exact if_neg (h.resolve_left (by rw [hleaf]; exact nofun))

theorem threadAfterWalk_eq_withCache {t : Thread} {tag : Tag} (hleaf : c.leaf = some tag) (hbound : c.bound = .infinity) :
    threadAfterWalk t c = t.withCache (t.cache.insert ⟨tag, c.walk.descriptors⟩) := by
  rw [threadAfterWalk, hleaf]
  exact if_pos hbound

/-- The end of a walk whose descriptors have all been read. -/
theorem run_endWalk (h : c.walk.steps.drop count = []) (hcount : count = c.walk.landing.level.val + 1) :
    (Effect.endWalk va).run (f.inWalk va c count) = .done (f.walked va c, ()) := by
  have hscratch : (f.inWalk va c count).scratch.landed (pageOf va) = (f.walked va c).scratch := by
    simp only [inWalk, walked, Scratch.landed, erase_insert_self, hcount]
  have hend : (f.inWalk va c count).endWalk va = .ok (f.walked va c) := by
    refine endWalk_eq_ok.mpr ⟨_, flights_inWalk, h, ?_⟩
    rw [hscratch]
    by_cases hcached : c.leaf = none ∨ c.bound ≠ .infinity
    · refine .inl ⟨hcached.imp_left fun hleaf => by rw [Candidate.flight, hleaf, Option.map_none], ?_⟩
      rw [walked, threadAfterWalk_eq hcached]
      rfl
    · obtain ⟨hleaf, hbound⟩ := not_or.mp hcached
      obtain ⟨tag, hleaf⟩ := Option.ne_none_iff_exists'.mp hleaf
      have hbound := Decidable.not_not.mp hbound
      refine .inr ⟨tag.context, f.thread.cache.insert ⟨tag, c.walk.descriptors⟩, ?_, hbound, ?_, ?_⟩
      · exact congrArg (Option.map Tag.context) hleaf
      · rw [Cache.add, Tag.tag_context]
        rfl
      · rw [walked, threadAfterWalk_eq_withCache hleaf hbound]
        rfl
  rw [Effect.run, hend]
  rfl

/-- Each candidate is a walk from a table of the scheme. -/
theorem exists_walk_of_mem {cs : List Candidate} (hcs : f.walkCandidates va = .ok cs) (hc : c ∈ cs) :
    Inside c.base ∧ ∃ read, walk va c.base read = .ok c.walk := by
  obtain ⟨_, -, r, -, ⟨_, -, -, w, hw, -, rfl⟩ | ⟨_, -, w, hw, rfl⟩⟩ := mem_walkCandidates hcs hc
  · exact ⟨inside_tableBase r.value, _, hw⟩
  · exact ⟨inside_tableBase r.value, _, hw⟩

theorem run_startWalk {cs : List Candidate} (hcs : f.walkCandidates va = .ok cs) : (Effect.startWalk va).run f =
    .among cs fun c => .done (f.inWalk va c 0, ⟨c.base, c.asid⟩) := by
  simp only [Effect.run, startWalk, hcs, inWalk_zero]
  rfl

end Frame

/-! ### Following a walk -/

namespace Shape

variable {f : Frame} {va : Int} {c : Candidate} {next : Landing → Instr}

/-- What is asked for at one step of a walk. -/
def descriptorRead (va : Int) (s : Step) : Effect := .read { pa := s.pa, kind := .walk, va := some va }

/-- The rest of a walk that was taken is read and ended, and leads to where that walk lands. -/
theorem resolveFrom_performs {read : Level → Int → Int} : ∀ {n : Nat} {table : Int} {count : Nat} {w : Walk},
    walkFrom va read n table = .ok w → c.walk.steps.drop count = w.steps → c.walk.landing = w.landing →
    count + w.steps.length = c.walk.landing.level.val + 1 →
    (resolveFrom va next n table).Performs (f.inWalk va c count) (w.steps.map (descriptorRead va) ++ [.endWalk va])
      (next w.landing) (f.walked va c)
  | 0, table, count, w, hw, hdrop, _, hcount => by
    obtain ⟨pa, hpa, rfl⟩ := walkFrom_zero_eq_ok.mp hw
    have hend : c.walk.steps.drop (count + 1) = [] := by rw [← List.tail_drop, hdrop, List.tail_cons]
    rw [resolveFrom, hpa]
    exact .on (Frame.run_descriptor hdrop) (.on (Frame.run_endWalk hend hcount) .here)
  | n + 1, table, count, w, hw, hdrop, hlanding, hcount => by
    obtain ⟨pa, hpa, ⟨hn, rfl⟩ | ⟨table', rest, hn, hrest, rfl⟩⟩ := walkFrom_succ_eq_ok.mp hw
    · have hend : c.walk.steps.drop (count + 1) = [] := by rw [← List.tail_drop, hdrop, List.tail_cons]
      simp only [resolveFrom, hpa]
      refine .on (Frame.run_descriptor hdrop) ?_
      simp only [hn]
      exact .on (Frame.run_endWalk hend hcount) .here
    · have hdrop' : c.walk.steps.drop (count + 1) = rest.steps := by rw [← List.tail_drop, hdrop, List.tail_cons]
      rw [List.length_cons, ← Nat.add_assoc, Nat.add_right_comm] at hcount
      simp only [resolveFrom, hpa]
      refine .on (Frame.run_descriptor hdrop) ?_
      simp only [hn]
      exact resolveFrom_performs hrest hdrop' hlanding hcount

/-- A walk that was taken is read and ended, and leads to where it lands. -/
theorem resolveFrom_performs_of_mem {cs : List Candidate} (hcs : f.walkCandidates va = .ok cs) (hc : c ∈ cs) :
    (resolveFrom va next 3 c.base).Performs (f.inWalk va c 0) (c.walk.steps.map (descriptorRead va) ++ [.endWalk va])
      (next c.walk.landing) (f.walked va c) := by
  obtain ⟨hbase, read, hw⟩ := f.exists_walk_of_mem hcs hc
  exact resolveFrom_performs hw rfl rfl (descends_walkFrom hbase (Nat.le_refl 3) hw).length_eq

/-- Resolving an address is choosing a walk and going on where it lands. -/
theorem run_resolve {cs : List Candidate} (hcs : f.walkCandidates va = .ok cs) :
    (resolve va next).run f = .among cs fun c => (next c.walk.landing).run (f.walked va c) := by
  rw [resolve, Instr.run, f.run_startWalk hcs, Outcome.guarded_among, Outcome.bind_among]
  refine Outcome.among_congr fun c hc => ?_
  exact (resolveFrom_performs_of_mem hcs hc).run_eq

/-- Whatever resolving an address comes to belongs to a walk, or it is come to from where a walk landed. -/
theorem resolve_comesBy {j : Instr} {g : Frame} {as : List Action} (h : (resolve va next).ComesBy f as j g) :
    (∃ e next, j = .ask e next ∧ (e = .startWalk va ∨ e = .endWalk va ∨ ∃ s, e = descriptorRead va s)) ∨
    ∃ cs c before after, f.walkCandidates va = .ok cs ∧ c ∈ cs ∧ as = .walk va c :: (before ++ after) ∧
      (next c.walk.landing).ComesBy (f.walked va c) after j g := by
  rw [resolve] at h
  cases h with
  | here => exact .inl ⟨_, _, rfl, .inl rfl⟩
  | on hs h =>
    cases hs with
    | @startWalk _ _ cs c hcs hc =>
      rw [← Frame.inWalk_zero] at h
      rcases (resolveFrom_performs_of_mem hcs hc).comesBy h with ⟨e, he, rest, hj⟩ | ⟨before, after, rfl, hrest⟩
      · rcases List.mem_append.mp he with he | he
        · obtain ⟨s, -, he⟩ := List.mem_map.mp he
          exact .inl ⟨e, rest, hj, .inr (.inr ⟨s, he.symm⟩)⟩
        · exact .inl ⟨e, rest, hj, .inr (.inl (List.mem_singleton.mp he))⟩
      · exact .inr ⟨cs, c, before, after, hcs, hc, rfl, hrest⟩

/-- A load through the tables that has come to write its register has just read the data, which the register is made
to depend on. -/
theorem loadVirtual_comesBy {dst addr reg : String} {value : Int} {deps : Deps} {thread : Thread} {memory : Memory}
    {as : List Action} {g : Frame}
    (h : (loadVirtual dst addr).ComesBy { thread, memory } as (only (.writeReg reg value deps)) g) :
    ∃ before va c pa level global r pre post, as = before ++ [.read { pa, deps := .explicit [addr] [] } r pre post] ∧
      .walk va c ∈ before ∧ c.walk.landing = .mapped pa level global ∧ reg = dst ∧ value = r.value ∧
      deps = .explicit [] [.whole (level.val + 1)] ∧ g.scratch.readView (.whole (level.val + 1)) = .ok post := by
  rw [loadVirtual] at h
  cases h with
  | on hs h =>
    cases hs with
    | readReg =>
      rcases resolve_comesBy h with ⟨e, next, hj, he⟩ | ⟨cs, c, before, after, -, -, rfl, hrest⟩
      · cases hj
        rcases he with he | he | ⟨s, he⟩ <;> cases he
      · cases hl : c.walk.landing with
        | fault level =>
          simp only [hl] at hrest
          cases hrest with
          | on hs => cases hs
        | mapped pa level global =>
          simp only [hl] at hrest
          cases hrest with
          | on hs hrest =>
            cases hs with
            | fetch hk => cases hk
            | descriptor hk => cases hk
            | @read _ _ _ r =>
              cases hrest with
              | here =>
                refine ⟨.other :: .walk _ c :: before, _, c, pa, level, global, r, _, _, rfl,
                  List.mem_cons_of_mem _ List.mem_cons_self, hl, rfl, rfl, rfl, ?_⟩
                refine Scratch.readView_addRead ?_
                simp [Frame.walked, Scratch.addRegRead, Scratch.start, hl, Landing.level]
              | on hs hrest => cases hrest

/-- Resolving an address follows the walk that was chosen: it reads one descriptor for each level down to where that
walk lands, ends the walk and goes on from there, and nothing on the way fails or chooses. It has then added as many
reads at the time of the walk, has no walk of the page in flight, and keeps to the bound of the walk. So a load through
the tables makes its register depend on the read of the data. -/
theorem resolve_follows (next : Landing → Instr) {f : Frame} {va : Int} {cs : List Candidate}
    (hcs : f.walkCandidates va = .ok cs) :
    (resolve va next).run f = .among cs (fun c => (next c.walk.landing).run (f.walked va c)) ∧
    (∀ c ∈ cs,
      (resolveFrom va next 3 c.base).Performs { f with scratch := f.scratch.startWalk (pageOf va) c.flight }
        (c.walk.steps.map (descriptorRead va) ++ [.endWalk va]) (next c.walk.landing) (f.walked va c) ∧
      c.walk.steps.length = c.walk.landing.level.val + 1 ∧
      (f.walked va c).scratch.readViews = f.scratch.readViews ++ List.replicate (c.walk.landing.level.val + 1) c.time ∧
      (f.walked va c).scratch.flights[pageOf va]? = none ∧
      (f.walked va c).scratch.bound = View.meet f.scratch.bound c.bound) ∧
    ∀ dst addr reg value deps thread memory as g,
      (loadVirtual dst addr).ComesBy { thread, memory } as (only (.writeReg reg value deps)) g →
      ∃ before va c pa level global r pre post,
        as = before ++ [.read { pa, deps := .explicit [addr] [] } r pre post] ∧ .walk va c ∈ before ∧
        c.walk.landing = .mapped pa level global ∧ reg = dst ∧ value = r.value ∧
        deps = .explicit [] [.whole (level.val + 1)] ∧ g.scratch.readView (.whole (level.val + 1)) = .ok post := by
  refine ⟨run_resolve hcs, ?_, fun _ _ _ _ _ _ _ _ _ h => loadVirtual_comesBy h⟩
  intro c hc
  have hperforms : (resolveFrom va next 3 c.base).Performs (f.inWalk va c 0) _ _ _ := resolveFrom_performs_of_mem hcs hc
  rw [Frame.inWalk_zero] at hperforms
  obtain ⟨hbase, read, hw⟩ := f.exists_walk_of_mem hcs hc
  have hlength := (descends_walkFrom hbase (Nat.le_refl 3) hw).length_eq
  exact ⟨hperforms, (Nat.zero_add _).symm.trans hlength, rfl, Std.ExtTreeMap.getElem?_erase_self, rfl⟩

/-- A thread before a load, and memory with tables that map the first page. -/
def mappedPage : Frame where
  thread := .start 0 (.ofList [("X0", (0x10 : Int)), ("TTBR0_EL1", 0x1000)])
  memory := .ofImage (.ofCells [(0x1000, 0x2003), (0x2000, 0x3003), (0x3000, 0x4003), (0x4000, 0x5403)])

theorem resolve_follows_mappedPage : ∃ cs c, mappedPage.walkCandidates 0x10 = .ok cs ∧ c ∈ cs ∧
    c.walk.landing = .mapped 0x5010 3 true ∧
    (resolve 0x10 fun _ => .done).run mappedPage = .among cs (fun c => .done (mappedPage.walked 0x10 c)) ∧
    (mappedPage.walked 0x10 c).scratch.readViews = [0, 0, 0, 0] := by
  have found : ((mappedPage.walkCandidates 0x10).toOption.any fun cs => cs.any fun c =>
      decide (c.walk.landing = .mapped 0x5010 3 true) && decide (c.time = 0)) = true := by
    decide +kernel
  simp only [Option.any_eq_true, List.any_eq_true, Bool.and_eq_true, decide_eq_true_eq] at found
  obtain ⟨cs, hcs, c, hc, hlanding, htime⟩ := found
  obtain ⟨hrun, hperforms, -⟩ := resolve_follows (fun _ => .done) (toOption_eq_some.mp hcs)
  obtain ⟨-, -, hreads, -, -⟩ := hperforms c hc
  refine ⟨cs, c, toOption_eq_some.mp hcs, hc, hlanding, hrun, ?_⟩
  rw [hreads, hlanding, htime]
  rfl

end Shape

end Litmus
