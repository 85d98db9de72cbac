import Litmus.Proofs.Outcome.Thrown

/-!
How what is thrown is told. `Instr.unguarded` runs an instruction with nothing caught, so that its outcomes show what is
thrown and where. Main facts: running an instruction leads any picks to the same as that, except that where a fault is
thrown the path fails with all that the fault says; and a choice fails at each pick outside its values, and throws
only where it cannot tell how many values there are.
-/

namespace Litmus

variable {α β γ : Type}

/-! ### Picks -/

namespace Space

/-- Whether a pick is not among the values of a space that can tell how many it has, or is negative. -/
def Excludes (s : Space) (pick : Int) : Prop := pick < 0 ∨ ∃ n, s.size = .ok n ∧ n ≤ pick

/-- Whether a pick is tried against a space that cannot tell how many values it has. -/
def Untold (s : Space) (pick : Int) (t : Trouble) : Prop := 0 ≤ pick ∧ s.size = .error t

end Space

namespace Outcome

theorem guarded_bind {k : α → Outcome β} : ∀ {o : Outcome α}, (o.bind k).guarded = o.guarded.bind fun a => (k a).guarded
  | .done _ | .fail _ | .discard _ _ | .thrown (.fault _) | .thrown (.other _ _) => rfl
  | .choice _ _ => congrArg _ (funext fun _ => guarded_bind)

theorem resumed_append (picks' : List Int) : ∀ (o : Outcome α) (picks : List Int),
    o.resumed (picks ++ picks') = (o.resumed picks).resumed picks'
  | .choice _ _, [] => rfl
  | .choice _ resume, pick :: picks => resumed_append picks' (resume pick) picks
  | .done _, picks | .fail _, picks | .discard _ _, picks | .thrown _, picks => by
    cases picks <;> cases picks' <;> rfl

theorem resumed_guarded : ∀ (o : Outcome α) (picks : List Int), o.guarded.resumed picks = (o.resumed picks).guarded
  | .choice _ _, [] => rfl
  | .choice _ resume, pick :: picks => resumed_guarded (resume pick) picks
  | .done _, picks | .fail _, picks | .discard _ _, picks | .thrown (.fault _), picks | .thrown (.other _ _), picks => by
    cases picks <;> rfl

/-- What is still thrown once faults are caught was thrown before, and is no fault. -/
theorem guarded_eq_thrown {t : Trouble} : ∀ {o : Outcome α}, o.guarded = .thrown t →
    o = .thrown t ∧ ∃ kind message, t = .other kind message
  | .thrown (.other kind message), h => by
    cases h
    exact ⟨rfl, kind, message, rfl⟩

theorem guarded_eq_choice {space : Space} {resume : Int → Outcome α} : ∀ {o : Outcome α}, o.guarded = .choice space resume →
    ∃ resume', o = .choice space resume'
  | .choice _ resume', h => by
    cases h
    exact ⟨resume', rfl⟩
  | .thrown (.fault _), h => by cases h

/-- How an outcome is told when what it threw is caught: a fault with its reason, message, diagnostic and context, and all
else as it is. -/
inductive Told : Outcome α → Outcome α → Prop
  | done {a : α} : Told (.done a) (.done a)
  | fail {f : Failure Diagnostic} : Told (.fail f) (.fail f)
  | discard {why : Pruning} {detail : Option String} : Told (.discard why detail) (.discard why detail)
  | choice {space : Space} {resume resume' : Int → Outcome α} : Told (.choice space resume) (.choice space resume')
  | fault {e : Fault} {f : Failure Diagnostic} : f.told.reason = e.code.reason → f.told.message = e.message →
      f.told.diagnostics = [e.diagnostic] → f.told.context = some (Record.map Param.value e.params) → f.causes = [] →
      Told (.thrown (.fault e)) (.fail f)
  | other {kind : ErrorClass} {message : String} : Told (.thrown (.other kind message)) (.thrown (.other kind message))

theorem told_guarded : ∀ o : Outcome α, o.Told o.guarded
  | .done _ => .done
  | .fail _ => .fail
  | .discard _ _ => .discard
  | .choice _ _ => .choice
  | .thrown (.fault _) => .fault rfl rfl rfl rfl rfl
  | .thrown (.other _ _) => .other

/-! ### Orderly outcomes -/

/-- Whether an outcome throws nothing but faults, and each choice in it fails at the picks that its space excludes and
throws where its space cannot tell how many values it has. -/
def Orderly : Outcome α → Prop
  | .done _ | .fail _ | .discard _ _ | .thrown (.fault _) => True
  | .thrown (.other _ _) => False
  | .choice space resume => (∀ pick, space.Excludes pick → resume pick = .failWith (.pickOutside pick)) ∧
      ∀ pick, (∃ t, space.Untold pick t ∧ resume pick = .thrown t) ∨ (resume pick).Orderly

namespace Orderly

theorem bind {k : α → Outcome β} (hk : ∀ a, (k a).Orderly) : ∀ {o : Outcome α}, o.Orderly → (o.bind k).Orderly
  | .done a, _ => hk a
  | .fail _, _ | .discard _ _, _ | .thrown (.fault _), _ => trivial
  | .choice space resume, h => by
    refine ⟨fun pick hpick => congrArg (Outcome.bind · k) (h.1 pick hpick), fun pick => ?_⟩
    rcases h.2 pick with ⟨t, ht, hthrown⟩ | hresume
    · exact .inl ⟨t, ht, congrArg (Outcome.bind · k) hthrown⟩
    · exact .inr (hresume.bind hk)

theorem among {k : γ → Outcome α} (hk : ∀ c, (k c).Orderly) : ∀ {options : List γ}, (Outcome.among options k).Orderly
  | [] => trivial
  | [c] => hk c
  | c :: d :: rest => by
    constructor
    · intro pick hpick
      have hnone : (if 0 ≤ pick then (c :: d :: rest)[pick.toNat]? else none) = none := by
        rcases hpick with hneg | ⟨n, hsize, hle⟩
        · exact if_neg (Int.not_le.mpr hneg)
        · cases hsize
          rw [if_pos (by lia), List.getElem?_eq_none_iff]
          lia
      dsimp only
      rw [hnone]
    · intro pick
      refine .inr ?_
      dsimp only
      split
      · exact hk _
      · trivial

theorem anyBits (width : Number) : (Outcome.anyBits width (.done : Int → _)).Orderly := by
  constructor
  · rintro pick (hneg | ⟨n, hsize, hle⟩)
    · exact if_pos hneg
    · dsimp only
      rw [if_neg (by lia), hsize]
      exact if_neg (Int.not_lt.mpr hle)
  · intro pick
    dsimp only
    split
    · exact .inr trivial
    · next hnonneg =>
      cases hsize : (Space.bits width).size with
      | error t => exact .inl ⟨t, ⟨Int.not_lt.mp hnonneg, hsize⟩, rfl⟩
      | ok size =>
        refine .inr ?_
        dsimp only
        split <;> trivial

end Orderly

theorem orderly_kept : Kept Orderly :=
  ⟨fun _ => trivial, fun _ => trivial, fun _ _ => trivial, fun _ => trivial, fun ho hk => .bind hk ho, fun hk => .among hk⟩

/-- After picks an orderly outcome is orderly, or one of the picks was tried against a space that cannot tell how many
values it has. -/
theorem Orderly.resumed : ∀ {o : Outcome α} (picks : List Int), o.Orderly → (o.resumed picks).Orderly ∨
    ∃ before pick after space resume t, picks = before ++ pick :: after ∧ o.resumed before = .choice space resume ∧
      space.Untold pick t ∧ o.resumed picks = .thrown t
  | .choice _ _, [], h => .inl h
  | .choice space resume, pick :: picks, h => by
    rcases h.2 pick with ⟨t, ht, hthrown⟩ | hresume
    · refine .inr ⟨[], pick, picks, space, resume, t, rfl, rfl, ht, ?_⟩
      rw [Outcome.resumed, hthrown]
      rfl
    · rcases Orderly.resumed picks hresume with h | ⟨before, pick', after, space', resume', t, rfl, hb, ht, hthrown⟩
      · exact .inl h
      · exact .inr ⟨pick :: before, pick', after, space', resume', t, rfl, hb, ht, hthrown⟩
  | .done _, _, h | .fail _, _, h | .discard _ _, _, h | .thrown _, _, h => .inl h

end Outcome

/-! ### Instructions -/

namespace Instr

/-- Run all effects of an instruction, with nothing caught. -/
def unguarded : Instr → Frame → Outcome Frame
  | .done, f => .done f
  | .thrown t, _ => .thrown t
  | .ask e next, f => (e.run f).bind fun (f, answer) => (next answer).unguarded f

/-- Whether an instruction throws nothing but faults. -/
inductive ThrowsFaults : Instr → Prop
  | done : ThrowsFaults .done
  | thrown {e : Fault} : ThrowsFaults (.thrown (.fault e))
  | ask {e : Effect} {next : e.Answer → Instr} : (∀ v, ThrowsFaults (next v)) → ThrowsFaults (.ask e next)

/-- An instruction is run as with nothing caught, and what is thrown is told. -/
theorem run_eq_guarded : ∀ (i : Instr) (f : Frame), i.run f = (i.unguarded f).guarded
  | .done, _ | .thrown _, _ => rfl
  | .ask e next, f => by
    rw [run, unguarded, Outcome.guarded_bind]
    exact congrArg _ (funext fun (g, v) => run_eq_guarded (next v) g)

/-- An instruction that throws nothing but faults is orderly all the way. -/
theorem ThrowsFaults.orderly {i : Instr} (h : i.ThrowsFaults) (f : Frame) : (i.unguarded f).Orderly := by
  induction h generalizing f with
  | done | thrown => trivial
  | @ask e _ _ ih =>
    have hrun : (e.run f).Orderly := Effect.run_kept Outcome.orderly_kept f fun bits _ => .anyBits bits
    exact hrun.bind fun (g, v) => ih v g

/-- After any picks an instruction that throws nothing but faults is at the same as with nothing caught, with what was
thrown told. Only a pick that is tried against a choice which cannot tell how many values it has, as its width is not whole
or too large, still throws, and then that a number is out of range; and each choice that is offered fails at the picks that
are not among its values. -/
theorem ThrowsFaults.told {i : Instr} (hi : i.ThrowsFaults) (thread : Thread) (memory : Memory) (picks : List Int) :
    ((i.unguarded { thread, memory }).resumed picks).Told ((i.runOn thread memory).resumed picks) ∧
    (∀ t, (i.runOn thread memory).resumed picks = .thrown t → (∃ message, t = .other .rangeError message) ∧
      ∃ before pick after width resume, picks = before ++ pick :: after ∧
        (i.runOn thread memory).resumed before = .choice (.bits width) resume ∧ 0 ≤ pick ∧
        (Space.bits width).size = .error t ∧ ∀ w, width = .whole w → Space.uncountedBits ≤ w) ∧
    ∀ space resume pick, (i.runOn thread memory).resumed picks = .choice space resume → space.Excludes pick →
      (i.runOn thread memory).resumed (picks ++ [pick]) = .fail (Fault.pickOutside pick).failure := by
  rw [runOn, run_eq_guarded]
  generalize hunguarded : i.unguarded { thread, memory } = o
  have horderly : o.Orderly := hunguarded ▸ hi.orderly _
  simp only [Outcome.resumed_guarded]
  refine ⟨Outcome.told_guarded _, ?_, ?_⟩
  · intro t ht
    rcases horderly.resumed picks with h | ⟨before, pick, after, space, resume, u, rfl, hbefore, huntold, hthrown⟩
    · obtain ⟨hthrown, kind, message, rfl⟩ := Outcome.guarded_eq_thrown ht
      rw [hthrown] at h
      exact h.elim
    · rw [hthrown] at ht
      cases (Outcome.guarded_eq_thrown ht).1
      obtain ⟨width, message, rfl, hwidth, hother⟩ := Space.size_eq_error huntold.2
      exact ⟨⟨message, hother⟩, before, pick, after, width, _, rfl, congrArg Outcome.guarded hbefore, huntold.1,
        huntold.2, hwidth⟩
  · intro space resume pick hchoice hexcluded
    obtain ⟨resume', hchoice⟩ := Outcome.guarded_eq_choice hchoice
    rcases horderly.resumed picks with h | ⟨_, _, _, _, _, _, -, -, -, hthrown⟩
    · rw [hchoice] at h
      rw [Outcome.resumed_append, hchoice, Outcome.resumed, h.1 pick hexcluded]
      rfl
    · cases hchoice.symm.trans hthrown

/-- Choose a bit, and throw if it is set. -/
def throwIfSet : Instr := .ask (.choose 1) fun bit => if bit = 1 then .thrown (.fault (.outsideScheme (-1))) else .done

theorem throwsFaults_throwIfSet : throwIfSet.ThrowsFaults := by
  refine .ask fun bit => ?_
  split
  · exact .thrown
  · exact .done

theorem told_throwIfSet : throwIfSet.ThrowsFaults ∧
    (∃ f, (throwIfSet.runOn (.start 0 ∅) (.ofImage ∅)).resumed [1] = .fail f ∧
      f.told.reason = .malformed ∧ f.told.context = some [("pa", .big (-1))]) ∧
    (throwIfSet.runOn (.start 0 ∅) (.ofImage ∅)).resumed [0] = .done { thread := .start 0 ∅, memory := .ofImage ∅ } ∧
    (throwIfSet.runOn (.start 0 ∅) (.ofImage ∅)).resumed [2] = .fail (Fault.pickOutside 2).failure := by
  have told (picks : List Int) := throwsFaults_throwIfSet.told (.start 0 ∅) (.ofImage ∅) picks
  refine ⟨throwsFaults_throwIfSet, ?_, ?_, ?_⟩
  · have hset := (told [1]).1
    generalize (throwIfSet.runOn (.start 0 ∅) (.ofImage ∅)).resumed [1] = o at hset ⊢
    rw [show (throwIfSet.unguarded { thread := .start 0 ∅, memory := .ofImage ∅ }).resumed [1] =
      .thrown (.fault (.outsideScheme (-1))) from rfl] at hset
    cases hset with
    | fault hreason _ _ hcontext => exact ⟨_, rfl, hreason, hcontext⟩
  · have hclear := (told [0]).1
    generalize (throwIfSet.runOn (.start 0 ∅) (.ofImage ∅)).resumed [0] = o at hclear ⊢
    rw [show (throwIfSet.unguarded { thread := .start 0 ∅, memory := .ofImage ∅ }).resumed [0] =
      .done { thread := .start 0 ∅, memory := .ofImage ∅ } from rfl] at hclear
    cases hclear
    rfl
  · exact (told []).2.2 (.bits 1) _ 2 rfl (.inr ⟨2, rfl, Int.le_refl 2⟩)

/-- An instruction that throws nothing at all, and yet throws at a pick of the smallest value of its choice. -/
theorem exists_throws_untold : (ask (.choose 0x100000000) fun _ => .done).ThrowsFaults ∧
    ((ask (.choose 0x100000000) fun _ => .done).runOn (.start 0 ∅) (.ofImage ∅)).resumed [0] =
      .thrown (.other .rangeError "Maximum BigInt size exceeded") := ⟨.ask fun _ => .done, rfl⟩

end Instr

end Litmus
