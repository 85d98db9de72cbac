import Litmus.Proofs.Outcome.Thrown

/-!
Failures for picks. A choice fails with a code of its own at a pick that is not among its values. Main fact: no effect
leads an explorer to that failure, since the explorer tries only values; so where it is met, it comes from elsewhere.
-/

namespace Litmus

variable {α β γ : Type} {m : Number}

/-- Whether a failure is reported with the code of a pick that is not among the values. -/
def Failure.IsOfPick (f : Failure Diagnostic) : Prop := ∃ d ∈ f.told.diagnostics, d.code = .pickOutside

theorem Fault.isOfPick_failure {f : Fault} : f.failure.IsOfPick ↔ f.code = .pickOutside := by
  simp [Failure.IsOfPick, failure, diagnostic, Diagnostic.make]

/-- Whether a leaf is a failure for a pick, or such a fault that is not told yet. -/
def Leaf.IsOfPick : Leaf α → Prop
  | .fail f => f.IsOfPick
  | .thrown (.fault f) => f.code = .pickOutside
  | .done _ | .discard _ _ | .thrown (.other _ _) | .tooWide _ => False

theorem Leaf.isOfPick_guarded : ∀ {l : Leaf α}, l.guarded.IsOfPick ↔ l.IsOfPick
  | .thrown (.fault _) => Fault.isOfPick_failure
  | .done _ | .fail _ | .discard _ _ | .thrown (.other _ _) | .tooWide _ => .rfl

namespace Outcome

/-- Whether an explorer meets no failure for a pick. -/
def PickFree (m : Number) (o : Outcome α) : Prop := ∀ l ∈ o.leaves m, ¬l.IsOfPick

namespace PickFree

theorem of_leaf {o : Outcome α} {l : Leaf α} (ho : o.leaves m = [l]) (h : ¬l.IsOfPick) : o.PickFree m := by
  rw [PickFree, ho, List.forall_mem_singleton]
  exact h

theorem done {a : α} : (Outcome.done a).PickFree m := of_leaf rfl id

theorem discard {why : Pruning} {detail : Option String} : (Outcome.discard why detail : Outcome α).PickFree m :=
  of_leaf rfl id

theorem failWith {f : Fault} (h : f.code ≠ .pickOutside) : (Outcome.failWith f : Outcome α).PickFree m :=
  of_leaf rfl (mt Fault.isOfPick_failure.mp h)

theorem fault {f : Fault} (h : f.code ≠ .pickOutside) : (Outcome.fault f : Outcome α).PickFree m := of_leaf rfl h

/-- A failure for a pick is met behind an outcome without any in the work that goes on from one of its results. -/
theorem exists_result {o : Outcome α} {k : α → Outcome β} (h : o.PickFree m) {l : Leaf β} (hl : l ∈ (o.bind k).leaves m)
    (hpick : l.IsOfPick) : ∃ a, .done a ∈ o.leaves m ∧ l ∈ (k a).leaves m := by
  rw [leaves_bind, List.mem_flatMap] at hl
  obtain ⟨l', hl', hl⟩ := hl
  cases l' with
  | done a => exact ⟨a, hl', hl⟩
  | fail f =>
    cases List.mem_singleton.mp hl
    exact absurd hpick (h _ hl')
  | thrown t =>
    cases List.mem_singleton.mp hl
    cases t with
    | fault f => exact absurd hpick (h _ hl')
    | other => exact hpick.elim
  | discard | tooWide =>
    cases List.mem_singleton.mp hl
    exact hpick.elim

theorem bind {o : Outcome α} {k : α → Outcome β} (h : o.PickFree m) (hk : ∀ a, (k a).PickFree m) :
    (o.bind k).PickFree m := by
  intro l hl hpick
  obtain ⟨a, -, hl⟩ := h.exists_result hl hpick
  exact hk a l hl hpick

theorem guarded {o : Outcome α} (h : o.PickFree m) : o.guarded.PickFree m := by
  intro l hl
  rw [leaves_guarded, List.mem_map] at hl
  obtain ⟨l', hl', rfl⟩ := hl
  exact mt Leaf.isOfPick_guarded.mp (h l' hl')

theorem among {options : List γ} {k : γ → Outcome α} (hk : ∀ c, (k c).PickFree m) : (Outcome.among options k).PickFree m := by
  by_cases hne : options = []
  · subst hne
    exact discard
  · intro l hl
    rw [leaves_among hne, List.mem_flatMap] at hl
    obtain ⟨c, -, hl⟩ := hl
    exact hk c l hl

theorem anyBits {width : Number} {k : Int → Outcome α} (hk : ∀ value, (k value).PickFree m) :
    (Outcome.anyBits width k).PickFree m := by
  intro l hl
  rw [Outcome.anyBits, leaves] at hl
  split at hl
  · cases List.mem_singleton.mp hl
    exact id
  · split at hl
    · next picks hpicks =>
      obtain ⟨pick, hpick, hl⟩ := List.mem_flatMap.mp hl
      obtain ⟨n, hn, hnonneg, hlt⟩ := (Space.mem_picks hpicks).mp hpick
      rw [if_neg (Int.not_lt.mpr hnonneg), hn] at hl
      dsimp only at hl
      rw [if_pos hlt] at hl
      exact hk pick l hl
    · next t ht =>
      cases List.mem_singleton.mp hl
      cases t with
      | fault f => exact absurd ht Space.picks_ne_fault
      | other => exact id

end PickFree

theorem pickFree_kept : KeptInside fun o => o.PickFree m :=
  ⟨fun _ => .done, fun _ _ => .discard, .failWith, .fault, .bind, .among⟩

end Outcome

/-- No effect fails for a pick that an explorer tries. -/
theorem Effect.run_pickFree (e : Effect) (f : Frame) : (e.run f).PickFree m :=
  Effect.run_keptInside Outcome.pickFree_kept f fun _ _ => .anyBits fun _ => .done

end Litmus
