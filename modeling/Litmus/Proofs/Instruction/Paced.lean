import Litmus.Proofs.Instruction.Action
import Litmus.Proofs.Outcome.PickFree
import Litmus.Proofs.Outcome.Routes

/-!
Instructions run one effect at a time. `Instr.Paces` runs the next effect of an instruction, takes picks until that has a
result, and goes on with the frame and the rest of the instruction that it left. Main fact: this leads any picks to what
running the instruction as a whole leads them to. What an explorer has of an instruction is what its routes lead to, and
it meets the failure for a pick outside the values only where the instruction throws that itself.
-/

namespace Litmus

variable {m : Number}

namespace Instr

/-! ### Effects one after the other -/

/-- What is seen in the end of an instruction that is run one effect at a time, from a frame and with picks: it is over,
or its next effect has a result and it goes on, or its next effect halts it. -/
inductive Paces : Instr → Frame → List Int → Face Frame → Prop
  | ended {i : Instr} {f : Frame} {picks : List Int} : i.step? f = none → Paces i f picks (.done f)
  | go {i j : Instr} {f g : Frame} {o : Outcome (Frame × Instr)} {picks rest : List Int} {face : Face Frame} :
      i.step? f = some o → o.spend picks = (.done (g, j), rest) → Paces j g rest face → Paces i f picks face
  | halt {i : Instr} {f : Frame} {o : Outcome (Frame × Instr)} {picks : List Int} {face : Face Frame} :
      i.step? f = some o → (o.resumed picks).halted? = some face → Paces i f picks face

/-- Running an instruction is running its next effect, and then the rest of it. -/
theorem run_of_step? {i : Instr} {f : Frame} {o : Outcome (Frame × Instr)} (h : i.step? f = some o) :
    i.run f = o.bind fun x => x.2.run x.1 := by
  cases i with
  | done => cases h
  | thrown t =>
    cases h
    cases t <;> rfl
  | ask e next =>
    cases h
    rw [run, stepEffect, Outcome.guarded_bind, Outcome.bind_assoc]
    refine congrArg _ (funext ?_)
    rintro ⟨g, answer⟩
    dsimp only
    -- what throws settles to what it is run to
    cases next answer with
    | thrown t => cases t <;> rfl
    | done => rfl
    | ask _ _ => rfl

theorem step?_eq_none {i : Instr} {f : Frame} (h : i.step? f = none) : i = .done := by
  cases i with
  | done => rfl
  | _ => cases h

/-- What an effect leaves of an instruction is the rest behind some answer. -/
theorem rest_of_stepEffect {e : Effect} {next : e.Answer → Instr} {f g : Frame} {j : Instr} {picks : List Int}
    (h : (stepEffect e next f).resumed picks = .done (g, j)) : ∃ answer, j = next answer := by
  rw [stepEffect, Outcome.guarded_bind] at h
  obtain ⟨⟨f', answer⟩, rest, h⟩ := Outcome.resumed_bind_eq_done h
  refine ⟨answer, ?_⟩
  dsimp only at h
  generalize next answer = i at h
  cases i with
  | thrown t => cases t <;> cases rest <;> cases h
  | done =>
    cases rest <;> cases h
    all_goals rfl
  | ask =>
    cases rest <;> cases h
    all_goals rfl

theorem Paces.face_eq {i : Instr} {f : Frame} {picks : List Int} {face : Face Frame} (h : i.Paces f picks face) :
    ((i.run f).resumed picks).face = face := by
  induction h with
  | @ended i f picks h =>
    rw [step?_eq_none h]
    cases picks <;> rfl
  | go h hs _ ih =>
    rw [run_of_step? h, Outcome.resumed_bind, hs]
    exact ih
  | halt h hf =>
    rw [run_of_step? h]
    exact Outcome.face_resumed_bind hf

/-- An instruction can be run one effect at a time with any picks. -/
theorem paces (i : Instr) : ∀ (f : Frame) (picks : List Int), i.Paces f picks ((i.run f).resumed picks).face := by
  induction i with
  | done =>
    intro f picks
    cases picks <;> exact .ended rfl
  | thrown t =>
    intro f picks
    refine .halt rfl ?_
    cases t <;> cases picks <;> rfl
  | ask e next ih =>
    intro f picks
    rw [run_of_step? rfl]
    cases hhalt : (((stepEffect e next f).resumed picks).halted? : Option (Face Frame)) with
    | some face =>
      rw [Outcome.face_resumed_bind hhalt]
      exact .halt rfl hhalt
    | none =>
      obtain ⟨⟨g, j⟩, hdone⟩ := Outcome.halted?_eq_none hhalt
      obtain ⟨answer, rfl⟩ := rest_of_stepEffect hdone
      rw [← Outcome.spend_fst] at hdone
      rw [Outcome.resumed_bind, hdone]
      exact .go rfl (Prod.ext hdone rfl) (ih answer g _)

/-! ### Failures for picks -/

/-- A failure for a pick among the leaves of an instruction is one that the instruction comes to throw itself. -/
theorem exists_thrown_of_isOfPick : ∀ {i : Instr} {f : Frame} {l : Leaf Frame}, l ∈ (i.run f).leaves m → l.IsOfPick →
    ∃ e g, e.code = .pickOutside ∧ l = .fail e.failure ∧ i.Comes f (.thrown (.fault e)) g
  | .done, f, l, hl, hpick => by
    cases List.mem_singleton.mp hl
    exact hpick.elim
  | .thrown (.fault e), f, l, hl, hpick => by
    cases List.mem_singleton.mp hl
    exact ⟨e, f, Fault.isOfPick_failure.mp hpick, rfl, .here⟩
  | .thrown (.other _ _), f, l, hl, hpick => by
    cases List.mem_singleton.mp hl
    exact hpick.elim
  | .ask e next, f, l, hl, hpick => by
    obtain ⟨⟨g, answer⟩, hdone, hl⟩ := (e.run_pickFree f).guarded.exists_result hl hpick
    obtain ⟨fault, h, hcode, hfail, hcomes⟩ := exists_thrown_of_isOfPick hl hpick
    obtain ⟨a, hstep⟩ := Effect.yields_run.mp (Outcome.yields_guarded.mp (Outcome.yields_of_mem_leaves hdone))
    exact ⟨fault, h, hcode, hfail, .on hstep hcomes⟩

/-- Any picks lead an instruction to what they lead it to when it is run one effect at a time, from a fresh scratch state.
An explorer visits what its routes lead to, in lexicographic order, each route once; only a route to a choice without any
values leads to nothing. None of what it visits is the failure of a choice at a pick that is not among its values: such a
failure is there only when the instruction comes to throw it itself. -/
theorem run_paced (i : Instr) (thread : Thread) (memory : Memory) (m : Number) :
    (∀ picks face, ((i.runOn thread memory).resumed picks).face = face ↔ i.Paces { thread, memory } picks face) ∧
    (∃ routes : List (List Int), routes.Pairwise (· < ·) ∧
      (∀ picks, picks ∈ routes ↔ (i.runOn thread memory).Route m picks) ∧
      (i.runOn thread memory).leaves m =
        routes.filterMap fun picks => ((i.runOn thread memory).resumed picks).leaf? m) ∧
    (∀ picks, (i.runOn thread memory).Route m picks → ((i.runOn thread memory).resumed picks).leaf? m = none →
      ∃ space resume, (i.runOn thread memory).resumed picks = .choice space resume ∧ space.picks = .ok []) ∧
    (∀ {σ ε : Type} (visit : σ → Leaf Frame → Except ε σ) (s : σ),
      (i.runOn thread memory).foldLeaves m visit s = ((i.runOn thread memory).leaves m).foldlM visit s) ∧
    ∀ f, .fail f ∈ (i.runOn thread memory).leaves m → f.IsOfPick →
      ∃ e g, e.code = .pickOutside ∧ f = e.failure ∧ i.Comes { thread, memory } (.thrown (.fault e)) g := by
  refine ⟨fun picks face => ⟨?_, Paces.face_eq⟩, ?_, fun picks h hnone => h.leaf?_eq_none hnone,
    fun visit s => Outcome.foldLeaves_eq _ s, ?_⟩
  · rintro rfl
    exact i.paces _ picks
  · exact ⟨_, Outcome.pairwise_routes _, fun _ => Outcome.mem_routes, Outcome.leaves_eq_routes _⟩
  · intro f hf hpick
    obtain ⟨e, g, hcode, hfail, hcomes⟩ := exists_thrown_of_isOfPick hf hpick
    exact ⟨e, g, hcode, Leaf.fail.inj hfail, hcomes⟩

/-- Choose a bit, and throw the fault of a pick if it is set, and else choose another. -/
def throwOrChoose : Instr :=
  .ask (.choose 1) fun bit =>
    if bit = 1 then .thrown (.fault (.pickOutside 7)) else .ask (.choose 1) fun _ => .done

theorem run_paced_throwOrChoose : ∃ thread memory,
    throwOrChoose.Paces { thread, memory } [0, 1, 5] (.done { thread, memory }) ∧
    throwOrChoose.Paces { thread, memory } [0] (.choice (.bits 1)) ∧
    throwOrChoose.Paces { thread, memory } [0, 2] (.fail (Fault.pickOutside 2).failure) ∧
    (throwOrChoose.runOn thread memory).Route 8 [0, 1] ∧
    ∃ e g, e.code = .pickOutside ∧ (Fault.pickOutside 7).failure = e.failure ∧
      throwOrChoose.Comes { thread, memory } (.thrown (.fault e)) g := by
  obtain ⟨hpaces, -, -, -, hpick⟩ := throwOrChoose.run_paced (.start 0 ∅) (.ofImage ∅) 8
  have hleaves : (throwOrChoose.runOn (.start 0 ∅) (.ofImage ∅)).leaves 8 =
      [.done { thread := .start 0 ∅, memory := .ofImage ∅ }, .done { thread := .start 0 ∅, memory := .ofImage ∅ },
        .fail (Fault.pickOutside 7).failure] := rfl
  refine ⟨_, _, (hpaces [0, 1, 5] _).mp rfl, (hpaces [0] _).mp rfl, (hpaces [0, 2] _).mp rfl, ?_, ?_⟩
  · exact Outcome.mem_routes.mp (by decide)
  · refine hpick _ ?_ (Fault.isOfPick_failure.mpr rfl)
    rw [hleaves]
    simp

end Instr

end Litmus
