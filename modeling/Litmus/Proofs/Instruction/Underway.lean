import Litmus.Proofs.Instruction.Followed

/-!
Walks that are underway. An instruction may start, read and end walks of several pages in any order, leave walks where
they are or start them again, and a walk in flight only says what is left of it. Main facts: a walk in flight is that
of a candidate which the machine offered when the walk of the page was last started, and what is not left of it has
been read since, in order and each descriptor where it lies; so a walk that ends was read as a whole, and what it leaves
in the cache are all the descriptors of its candidate.
-/

namespace Litmus

open Paging (pageOf Tag)

/-- One effect of an instruction: the frame that it met, what was asked for, and the answer. -/
structure Exchange where
  frame : Frame
  effect : Effect
  answer : effect.Answer

/-- What is left of an instruction, and the frame, once it has come some way by these exchanges. -/
inductive Instr.Exchanges : Instr → Frame → List Exchange → Instr → Frame → Prop
  | here {i : Instr} {f : Frame} : Exchanges i f [] i f
  | on {e : Effect} {next : e.Answer → Instr} {f g h : Frame} {v : e.Answer} {a : Action} {xs : List Exchange} {i : Instr} :
      e.Step f v g a → Exchanges (next v) g xs i h → Exchanges (.ask e next) f (⟨f, e, v⟩ :: xs) i h

namespace Exchange

/-- The address and the value of a descriptor that was read in the walk of a page. -/
def descriptor? (page : Int) : Exchange → Option (Int × Int)
  | ⟨_, .read req, value⟩ => if req.kind = .walk ∧ req.va.map pageOf = some page then some (req.pa, value) else none
  | _ => none

/-- Whether the walk of a page was started or ended. -/
def Turns (page : Int) (x : Exchange) : Prop :=
  match x.effect with
  | .startWalk va | .endWalk va => pageOf va = page
  | _ => False

/-- A walk of a page was started, and of the candidates that were offered this one was taken. -/
inductive Starts (page : Int) (c : Candidate) : Exchange → Prop
  | intro {f : Frame} {va : Int} {cs : List Candidate} :
      pageOf va = page → f.walkCandidates va = .ok cs → c ∈ cs → Starts page c ⟨f, .startWalk va, ⟨c.base, c.asid⟩⟩

end Exchange

/-- Of a page the walk that was started last is that of a candidate; it has not ended, and these of its steps have been
read since. -/
def Candidate.ReadBy (c : Candidate) (page : Int) (steps : List Paging.Step) (xs : List Exchange) : Prop :=
  ∃ before start since, xs = before ++ start :: since ∧ start.Starts page c ∧ (∀ x ∈ since, ¬x.Turns page) ∧
    since.filterMap (Exchange.descriptor? page) = steps.map fun s => (s.pa, s.descriptor)

namespace Candidate.ReadBy

variable {c : Candidate} {page : Int} {steps : List Paging.Step} {xs : List Exchange} {x : Exchange}

/-- A walk that has just been started is still to be read. -/
theorem start (h : x.Starts page c) : c.ReadBy page [] (xs ++ [x]) := ⟨xs, x, [], rfl, h, List.forall_mem_nil _, rfl⟩

/-- An exchange adds to the steps that have been read what it reads. -/
theorem concat {more : List Paging.Step} (h : c.ReadBy page steps xs) (hx : ¬x.Turns page)
    (hmore : (x.descriptor? page).toList = more.map fun s => (s.pa, s.descriptor)) :
    c.ReadBy page (steps ++ more) (xs ++ [x]) := by
  obtain ⟨before, start, since, rfl, hstart, hsince, hread⟩ := h
  refine ⟨before, start, since ++ [x], by rw [List.append_assoc, List.cons_append], hstart, ?_, ?_⟩
  · intro y hy
    rcases List.mem_append.mp hy with hy | hy
    · exact hsince y hy
    · rw [List.mem_singleton.mp hy]
      exact hx
  · rw [List.filterMap_append, hread, List.map_append, ← hmore]
    cases hd : x.descriptor? page <;> simp [hd]

/-- An exchange that has to do with other pages leaves the steps that have been read. -/
theorem other (h : c.ReadBy page steps xs) (hx : ¬x.Turns page) (hnone : x.descriptor? page = none) :
    c.ReadBy page steps (xs ++ [x]) := by
  have hmore : c.ReadBy page (steps ++ []) (xs ++ [x]) := h.concat hx (by rw [hnone]; rfl)
  rwa [List.append_nil] at hmore

/-- A candidate that was taken is a walk of its page. -/
theorem walked (h : c.ReadBy page steps xs) :
    ∃ va read, pageOf va = page ∧ Paging.Inside c.base ∧ Paging.walk va c.base read = .ok c.walk := by
  obtain ⟨_, _, _, -, hstart, -⟩ := h
  cases hstart with
  | @intro f va _ hpage hcs hc =>
    obtain ⟨hbase, read, hw⟩ := f.exists_walk_of_mem hcs hc
    exact ⟨va, read, hpage, hbase, hw⟩

end Candidate.ReadBy

/-- A walk in flight is a candidate of which these steps are no longer left. -/
structure Flight.Of (w : Flight) (c : Candidate) (steps : List Paging.Step) : Prop where
  steps_eq : c.walk.steps = steps ++ w.remaining
  bound_eq : w.bound = c.bound
  descriptors_eq : w.descriptors = c.walk.descriptors
  context_eq : w.context = c.leaf.map Tag.context

/-- Whether of each walk in flight all that is not left has been read since it was started. -/
def Frame.Underway (xs : List Exchange) (f : Frame) : Prop :=
  ∀ (page : Int) (w : Flight), f.scratch.flights[page]? = some w → ∃ c steps, w.Of c steps ∧ c.ReadBy page steps xs

namespace Frame.Underway

variable {xs : List Exchange} {f g : Frame}

/-- Every effect keeps it so that what is not left of a walk has been read. -/
theorem step {e : Effect} {v : e.Answer} {a : Action} (h : f.Underway xs) (hs : e.Step f v g a) :
    g.Underway (xs ++ [⟨f, e, v⟩]) := by
  -- an effect that has nothing to do with the walk of a page
  have apart {page : Int} {w : Flight} (hw : f.scratch.flights[page]? = some w) (hturns : ¬Exchange.Turns page ⟨f, e, v⟩)
      (hnone : Exchange.descriptor? page ⟨f, e, v⟩ = none) :
      ∃ c steps, w.Of c steps ∧ c.ReadBy page steps (xs ++ [⟨f, e, v⟩]) := by
    obtain ⟨c, steps, hof, hread⟩ := h page w hw
    exact ⟨c, steps, hof, hread.other hturns hnone⟩
  -- an effect that has nothing to do with walks
  have same (hflights : g.scratch.flights = f.scratch.flights) (hturns : ∀ page, ¬Exchange.Turns page ⟨f, e, v⟩)
      (hnone : ∀ page, Exchange.descriptor? page ⟨f, e, v⟩ = none) : g.Underway (xs ++ [⟨f, e, v⟩]) :=
    fun page w hw => apart (hflights ▸ hw) (hturns page) (hnone page)
  cases hs with
  | @descriptor req _ va w step remaining hk _ hva hw hr hpa =>
    intro page w' hw'
    rw [Scratch.addRead, Scratch.addStrict, Scratch.advance, Std.ExtTreeMap.getElem?_insert] at hw'
    split at hw'
    · next e =>
      obtain rfl := Std.compare_eq_iff_eq.mp e
      cases hw'
      obtain ⟨c, steps, hof, hread⟩ := h _ w hw
      refine ⟨c, steps ++ [step], ⟨?_, hof.bound_eq, hof.descriptors_eq, hof.context_eq⟩, hread.concat id ?_⟩
      · rw [hof.steps_eq, hr, List.append_assoc, List.singleton_append]
      · rw [Exchange.descriptor?, if_pos ⟨hk, by rw [hva]; rfl⟩, ← hpa]
        rfl
    · next hne =>
      refine apart hw' id (if_neg ?_)
      rw [hva]
      rintro ⟨-, hp⟩
      exact hne (Std.compare_eq_iff_eq.mpr (Option.some.inj hp))
  | @startWalk va _ cs c hcs hc =>
    intro page w' hw'
    rw [Scratch.startWalk, Std.ExtTreeMap.getElem?_insert] at hw'
    split at hw'
    · next e =>
      cases hw'
      exact ⟨c, [], ⟨rfl, rfl, rfl, rfl⟩, .start (.intro (Std.compare_eq_iff_eq.mp e) hcs hc)⟩
    · next hne => exact apart hw' (fun e => hne (Std.compare_eq_iff_eq.mpr e)) rfl
  | @endWalk va | @cacheWalk va =>
    intro page w' hw'
    rw [Scratch.landed, Std.ExtTreeMap.getElem?_erase] at hw'
    split at hw'
    · cases hw'
    · next hne => exact apart hw' (fun e => hne (Std.compare_eq_iff_eq.mpr e)) rfl
  | fetch hk => exact same rfl (fun _ => id) fun _ => if_neg fun h => by cases hk.symm.trans h.1
  | read hk =>
    refine same rfl (fun _ => id) fun _ => if_neg ?_
    rintro ⟨hwalk, -⟩
    rw [hwalk] at hk
    cases hk
  | _ => exact same rfl (fun _ => id) fun _ => rfl

/-- However far an instruction comes, what is not left of a walk has been read. -/
theorem exchanges {i j : Instr} {ys : List Exchange} (hc : i.Exchanges f ys j g) (h : f.Underway xs) :
    g.Underway (xs ++ ys) := by
  induction hc generalizing xs with
  | here => rwa [List.append_nil]
  | on hs _ ih =>
    rw [List.append_cons]
    exact ih (h.step hs)

end Frame.Underway

/-- A walk that an instruction ends was offered when it was last started, and all of its steps have been read since, in
order and where they lie. It is cached when it filled a tag and no maintenance is going to end it, and then all of its
descriptors are. -/
theorem Instr.Exchanges.endWalk {i : Instr} {thread : Thread} {memory : Memory} {xs : List Exchange} {va : Int}
    {next : Unit → Instr} {g h : Frame} {a : Action} (hc : i.Exchanges { thread, memory } xs (.ask (.endWalk va) next) g)
    (hs : (Effect.endWalk va).Step g () h a) :
    ∃ c : Candidate, c.ReadBy (pageOf va) c.walk.steps xs ∧
      (∀ tag, c.leaf = some tag → c.bound = .infinity →
        h.thread = g.thread.withCache (g.thread.cache.insert ⟨tag, c.walk.descriptors⟩)) ∧
      (c.leaf = none ∨ c.bound ≠ .infinity → h.thread = g.thread) := by
  have hstart : Frame.Underway [] { thread, memory } := fun page w hw => by
    cases (Std.ExtTreeMap.getElem?_empty.symm.trans hw)
  have hunderway := Frame.Underway.exchanges hc hstart
  have ended {w : Flight} (hw : g.scratch.flights[pageOf va]? = some w) (hnil : w.remaining = []) :
      ∃ c, w.Of c c.walk.steps ∧ c.ReadBy (pageOf va) c.walk.steps xs := by
    obtain ⟨c, steps, hof, hread⟩ := hunderway _ w hw
    have hsteps := hof.steps_eq
    rw [hnil, List.append_nil] at hsteps
    subst hsteps
    exact ⟨c, hof, hread⟩
  cases hs with
  | endWalk hw hnil hout =>
    obtain ⟨c, hof, hread⟩ := ended hw hnil
    refine ⟨c, hread, ?_, fun _ => rfl⟩
    intro tag hleaf hbound
    rw [hof.context_eq, hof.bound_eq, hleaf, hbound] at hout
    rcases hout with hout | hout
    · cases hout
    · exact absurd rfl hout
  | cacheWalk hw hnil hcontext hbound hadd =>
    obtain ⟨c, hof, hread⟩ := ended hw hnil
    rw [hof.context_eq] at hcontext
    obtain ⟨tag, hleaf, rfl⟩ := Option.map_eq_some_iff.mp hcontext
    rw [hof.bound_eq] at hbound
    rw [Paging.Cache.add, Tag.tag_context, hof.descriptors_eq] at hadd
    cases hadd
    refine ⟨c, hread, ?_, ?_⟩
    · intro tag' hleaf' _
      rw [Option.some.inj (hleaf'.symm.trans hleaf)]
    · rintro (hout | hout)
      · cases hout.symm.trans hleaf
      · exact absurd hbound hout

end Litmus
