import Litmus.Proofs.Exploration.Complete
import Litmus.Proofs.Instruction.PreView
import Litmus.Proofs.Number.Order
import Litmus.Proofs.Thread.Origin

/-!
Deadlines of walks. A walk is good until maintenance hits it, and an instruction keeps the earliest bound of
all walks it has started. Main facts: the bound only falls, and every access is checked against it; so no
access of an instruction that issues no maintenance is past maintenance of a walk that it was made with.
-/

namespace Litmus

open Paging

/-! ### The bound of a walk -/

/-- The bound of a walk is before any maintenance of its tag. -/
theorem Candidate.validUntil_lt {m : Memory} {start time : View} {tag : Tag} {i : Int} {x : Maintenance}
    (hlt : start < time) (hx : m.at? time = some (.maintain i x)) (hits : x.hits tag = true) :
    validUntil m start tag < .whole time := by
  have hmem : (time, .maintain i x) ∈ (m.after start).entries :=
    Memory.mem_entries.mpr (Memory.at?_after_eq_some_iff.mpr ⟨hlt, hx⟩)
  rw [validUntil]
  split
  · next t e hfind =>
    -- the first event that ends the walk is this one or an earlier one
    have hfirst : t ≤ time := by
      obtain ⟨-, before, rest, hsplit, hnone⟩ := List.find?_eq_some_iff_append.mp hfind
      have hsorted := (m.after start).pairwise_entries
      rw [hsplit] at hmem hsorted
      rcases List.mem_append.mp hmem with hmem | hmem
      · have := hnone _ hmem
        simp [hits] at this
      · rcases List.mem_cons.mp hmem with he | hmem
        · cases he
          exact Int.le_refl _
        · exact Int.le_of_lt ((List.pairwise_cons.mp (List.pairwise_append.mp hsorted).2.1).1 _ hmem)
    exact Number.whole_lt_whole.mpr (by lia)
  · next hnone =>
    have := List.find?_eq_none.mp hnone _ hmem
    simp [hits] at this

/-- The bound of a walk that may be taken is that of its own time and tag. -/
theorem Frame.bound_eq_of_mem {f : Frame} {va : Int} {cs : List Candidate} {c : Candidate}
    (hcs : f.walkCandidates va = .ok cs) (hc : c ∈ cs) :
    c.bound = Candidate.validUntil f.memory c.time (c.walk.guard va c.asid) := by
  obtain ⟨held, -, r, -, hcached | hfresh⟩ := Frame.mem_walkCandidates hcs hc
  · obtain ⟨_, -, -, w, -, -, rfl⟩ := hcached
    rfl
  · obtain ⟨_, -, w, -, rfl⟩ := hfresh
    rfl

/-! ### Accesses are checked against all bounds -/

section

variable {e : Effect} {f g : Frame} {v : e.Answer} {a : Action}

/-- The bound of an instruction only falls. -/
theorem Effect.Step.not_bound_lt (hs : e.Step f v g a) {n : Number} (h : ¬g.scratch.bound < n) :
    ¬f.scratch.bound < n := by
  cases hs with
  | startWalk => exact (Number.not_meet_lt h).1
  | _ => exact h

/-- An access is not past the bound. -/
theorem Effect.Step.not_bound_lt_view (hs : e.Step f v g a) {view : View} (ha : a.view? = some view) :
    ¬f.scratch.bound < .whole view := by
  cases hs with
  | read _ _ _ _ _ hbound =>
    cases ha
    exact hbound
  | write _ _ _ _ _ htrouble =>
    cases ha
    rw [Frame.writeTrouble] at htrouble
    split at htrouble
    · cases htrouble
    · split at htrouble
      · cases htrouble
      · assumption
  | _ => cases ha

/-- An effect that issues no maintenance adds none. -/
theorem Effect.Step.maintain_at? (hs : e.Step f v g a) (hm : f.memory.Whole) (ha : ∀ x pre t, a ≠ .maintain x pre t)
    {time : View} {i : Int} {x : Maintenance} (hx : g.memory.at? time = some (.maintain i x)) :
    f.memory.at? time = some (.maintain i x) := by
  cases hs with
  | write _ _ _ _ hplace =>
    rcases (Frame.placed hm hplace).at?_cases time _ hx with hx | ⟨-, -, he⟩
    · exact hx
    · cases he
  | maintain => exact absurd rfl (ha _ _ _)
  | _ => exact hx

end

namespace Instr.Runs

variable {i : Instr} {f h : Frame} {as : List Action}

/-- No access of an instruction is past the bound that it began with. -/
theorem not_bound_lt (r : i.Runs f as h) {a : Action} (ha : a ∈ as) {view : View} (hview : a.view? = some view) :
    ¬f.scratch.bound < .whole view := by
  induction r with
  | done => cases ha
  | ask hs _ ih =>
    rcases List.mem_cons.mp ha with rfl | ha
    · exact hs.not_bound_lt_view hview
    · exact hs.not_bound_lt (ih ha)

/-- An instruction that issues no maintenance adds none. -/
theorem maintain_at? (r : i.Runs f as h) (hm : f.memory.Whole) (hnone : ∀ x pre t, .maintain x pre t ∉ as)
    {time : View} {owner : Int} {x : Maintenance} (hx : h.memory.at? time = some (.maintain owner x)) :
    f.memory.at? time = some (.maintain owner x) := by
  induction r with
  | done => exact hx
  | ask hs _ ih =>
    refine hs.maintain_at? hm (fun y pre t ha => hnone y pre t (ha ▸ List.mem_cons_self ..)) ?_
    exact ih ((hs.grows hm).whole hm) (fun y pre t hmem => hnone y pre t (List.mem_cons_of_mem _ hmem)) hx

/-- In an instruction that issues no maintenance, no access after the start of a walk is past maintenance of it. -/
theorem hits_of_walk (r : i.Runs f as h) (hm : f.memory.Whole) (hnone : ∀ x pre t, .maintain x pre t ∉ as) {va : Int}
    {c : Candidate} {before since rest : List Action} {a : Action}
    (hsplit : as = before ++ .walk va c :: (since ++ a :: rest)) {view time : View} (hview : a.view? = some view)
    {owner : Int} {x : Maintenance} (hx : h.memory.at? time = some (.maintain owner x)) (hlt : c.time < time)
    (hle : time ≤ view) : x.hits (c.walk.guard va c.asid) = false := by
  induction r generalizing before with
  | done => simp at hsplit
  | ask hs r ih =>
    have hm' := (hs.grows hm).whole hm
    have hnone' := fun y pre t hmem => hnone y pre t (List.mem_cons_of_mem _ hmem)
    cases before with
    | cons b before =>
      obtain ⟨-, hsplit⟩ := List.cons.inj hsplit
      exact ih hm' hnone' hsplit hx
    | nil =>
      obtain ⟨rfl, rfl⟩ := List.cons.inj hsplit
      have hthere := r.maintain_at? hm' hnone' hx
      have hbound := r.not_bound_lt (List.mem_append_right _ List.mem_cons_self) hview
      cases hs with
      | startWalk hcs hc =>
        -- the access came within the bound of this walk, which is before any maintenance of it
        have hbound : ¬c.bound < .whole view := (Number.not_meet_lt hbound).2
        rw [Frame.bound_eq_of_mem hcs hc] at hbound
        rw [Bool.eq_false_iff]
        intro hits
        have hpast := Candidate.validUntil_lt hlt hthere hits
        refine Number.not_lt_trans hbound (fun hview => ?_) hpast
        exact absurd hle (Int.not_le.mpr (Number.whole_lt_whole.mp hview))

end Instr.Runs

/-- In every state that moves reach, and whatever the thread, an instruction that issues no maintenance accesses nothing
past maintenance of a walk that it started before: no event of memory after the time of the walk, and up to the view of
the access, maintains the tag that the walk is good under. -/
theorem Program.Reaches.access_within_walks {p : Program} {s : State} (hs : p.Reaches s) {thread : Thread} {i : Instr}
    {as : List Action} {h : Frame} (r : i.Runs { thread, memory := s.memory } as h) (hnone : ∀ x pre t, .maintain x pre t ∉ as) {va : Int}
    {c : Candidate} {before since rest : List Action} {a : Action}
    (hsplit : as = before ++ .walk va c :: (since ++ a :: rest)) {view : View} (hview : a.view? = some view) :
    ∀ time owner x, c.time < time → time ≤ view → h.memory.at? time = some (.maintain owner x) →
      x.hits (c.walk.guard va c.asid) = false := by
  obtain ⟨ds, hr⟩ := Program.reaches_iff.mp hs
  intro time owner x hlt hle hx
  exact r.hits_of_walk hr.fits.whole hnone hsplit hview hx hlt hle

/-- Whether a leaf is a result of some kind. -/
def Leaf.isDoneWith {α : Type} (P : α → Bool) : Leaf α → Bool
  | .done a => P a
  | _ => false

/-- Start the walk of the first page, and read from it while the walk is in flight. -/
def readDuringWalk : Instr := .ask (.startWalk 0) fun _ => Shape.only (.read { pa := 0x5000 })

theorem Instr.Runs.of_readDuringWalk {f h : Frame} {as : List Action} (r : readDuringWalk.Runs f as h) :
    ∃ cs c req w pre post, f.walkCandidates 0 = .ok cs ∧ c ∈ cs ∧ as = [.walk 0 c, .read req w pre post] ∧
      h.memory = f.memory ∧ h.scratch.strict = View.join (View.join f.scratch.strict c.time) post := by
  cases r with | ask hw r =>
  cases r with | ask ha r =>
  cases r
  cases hw with | startWalk hcs hc =>
  cases ha with
  | fetch hk | descriptor hk => cases hk
  | read => exact ⟨_, _, _, _, _, _, hcs, hc, rfl, rfl, rfl⟩

/-- Tables that map the first page, a read of it, and a thread that maintains another address space and writes
to the page. -/
def maintainedElsewhere : Program where
  cells := [(0x1000, 0x2003), (0x2000, 0x3003), (0x3000, 0x4003), (0x4000, 0x5403)]
  threads := [
    { code := [readDuringWalk], regs := .ofList [("TTBR0_EL1", (0x1000 : Int))] },
    { code := [Shape.only (.maintain { scope := .asid, asid := some 7 } .none),
        Shape.only (.write { pa := 0x5000, value := 1 })] }]

theorem access_within_walks_maintainedElsewhere : ∃ s slot as h c req w pre post, maintainedElsewhere.Reaches s ∧
    s.threads[0]? = some slot ∧ readDuringWalk.Runs { thread := slot.thread, memory := s.memory } as h ∧
    as = [.walk 0 c, .read req w pre post] ∧ c.time < 1 ∧ 1 ≤ post ∧
    h.memory.at? 1 = some (.maintain 1 (.asid 7)) ∧ Maintenance.hits (.asid 7) (c.walk.guard 0 c.asid) = false := by
  have path : (maintainedElsewhere.start.follow maintainedElsewhere {} [1, 1]).any (fun s => s.threads[0]?.any fun slot =>
      decide (s.memory.at? 1 = some (.maintain 1 (.asid 7))) &&
        ((Frame.walkCandidates { thread := slot.thread, memory := s.memory } 0).toOption.any fun cs =>
          cs.all fun c => decide (c.time < 1)) &&
        ((readDuringWalk.runOn slot.thread s.memory).leaves 8).any (Leaf.isDoneWith fun h =>
          decide (1 ≤ h.scratch.strict))) = true := by decide +kernel
  obtain ⟨s, hs, hP⟩ := Program.exists_reaches _ path
  simp only [Option.any_eq_true, Bool.and_eq_true, decide_eq_true_eq, List.any_eq_true, List.all_eq_true] at hP
  obtain ⟨slot, hslot, ⟨hx, cs, hcs, htimes⟩, leaf, hl, hP⟩ := hP
  cases leaf with
  | done h =>
    obtain ⟨as, r⟩ := Instr.yields_run.mp (Outcome.yields_of_mem_leaves hl)
    obtain ⟨cs', c, req, w, pre, post, hcs', hc, rfl, hmemory, hstrict⟩ := r.of_readDuringWalk
    have hlt : c.time < 1 := by
      rw [hcs'] at hcs
      cases hcs
      exact htimes c hc
    -- all that the instruction came after is the walk, at time zero, and the read
    have hpost : 1 ≤ post := by
      have hP : 1 ≤ h.scratch.strict := of_decide_eq_true hP
      rw [hstrict] at hP
      have : View.join (0 : View) c.time ≤ 0 := View.join_le.mpr ⟨Int.le_refl 0, Int.lt_add_one_iff.mp hlt⟩
      by_contra hpost
      have := View.join_le.mpr ⟨this, Int.lt_add_one_iff.mp (Int.not_le.mp hpost)⟩
      exact absurd (Int.le_trans hP this) (by decide)
    have hx : h.memory.at? 1 = some (.maintain 1 (.asid 7)) := by rw [hmemory]; exact hx
    refine ⟨s, slot, _, h, c, req, w, pre, post, hs, hslot, r, rfl, hlt, hpost, hx, ?_⟩
    have hsplit : [Action.walk 0 c, .read req w pre post] = [] ++ .walk 0 c :: ([] ++ .read req w pre post :: []) := rfl
    exact hs.access_within_walks r (by simp) hsplit rfl 1 1 (.asid 7) hlt hpost hx
  | _ => cases hP

end Litmus
