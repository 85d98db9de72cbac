import Litmus.Proofs.Outcome.Yields
import Mathlib.Data.Multiset.Bind
import Mathlib.Data.Multiset.ZeroCons

/-!
Outcomes that differ in the order of their options. The leaves of an outcome that is put together are put together
from those of its parts. Main facts: outcomes whose leaves are the same up to their order and a relation of results
stay so when work is grafted onto them, when what they throw is told as failures, and under a choice between options
that come in another order.
-/

namespace Litmus

variable {α β γ : Type}

/-! ### Leaves -/

namespace Leaf

/-- The leaves after a leaf, when work goes on from results. -/
def graft (k : α → List (Leaf β)) : Leaf α → List (Leaf β)
  | .done a => k a
  | .fail f => [.fail f]
  | .discard why detail => [.discard why detail]
  | .thrown t => [.thrown t]
  | .tooWide space => [.tooWide space]

/-- A leaf with a thrown fault told as a failure. -/
def guarded : Leaf α → Leaf α
  | .thrown (.fault f) => .fail f.failure
  | l => l

/-- Whether a leaf ends the search. -/
def Stops : Leaf α → Prop
  | .done _ | .discard _ _ => False
  | .fail _ | .thrown _ | .tooWide _ => True

theorem Stops.guarded : ∀ {l : Leaf α}, l.Stops → l.guarded.Stops
  | .fail _, h | .thrown (.fault _), h | .thrown (.other _ _), h | .tooWide _, h => h

/-- Leaves that mean the same for a search: related results, paths pruned for one reason, or an end of the search. -/
inductive Alike (R : α → β → Prop) : Leaf α → Leaf β → Prop
  | done {a : α} {b : β} : R a b → Alike R (.done a) (.done b)
  | discard {why : Pruning} {detail detail' : Option String} : Alike R (.discard why detail) (.discard why detail')
  | stop {l : Leaf α} {k : Leaf β} : l.Stops → k.Stops → Alike R l k

theorem Alike.guarded {R : α → β → Prop} {l : Leaf α} {k : Leaf β} : Alike R l k → Alike R l.guarded k.guarded
  | .done h => .done h
  | .discard => .discard
  | .stop h h' => .stop h.guarded h'.guarded

end Leaf

/-! ### Spaces -/

namespace Space

variable {space : Space} {t : Trouble}

/-- The values of a space cannot be told only where it has a width that is not whole or too large, and what is thrown then
is that a number is out of range. -/
theorem size_eq_error (h : space.size = .error t) : ∃ width message, space = .bits width ∧
    (∀ w, width = .whole w → uncountedBits ≤ w) ∧ t = .other .rangeError message := by
  cases space with
  | options count => cases h
  | bits width =>
    cases width with
    | whole w =>
      rw [size] at h
      split at h
      · cases h
      · split at h
        · cases h
        · next hcount =>
          cases h
          refine ⟨_, _, rfl, ?_, rfl⟩
          rintro _ ⟨⟩
          exact Int.not_lt.mp hcount
    | fraction | infinite =>
      cases h
      exact ⟨_, _, rfl, nofun, rfl⟩

theorem size_of_picks_eq_error (h : space.picks = .error t) : space.size = .error t := by
  rw [picks] at h
  cases hsize : space.size with
  | ok n =>
    rw [hsize] at h
    cases h
  | error u =>
    rw [hsize] at h
    cases h
    rfl

/-- What is thrown where the values of a space are asked for is no fault. -/
theorem picks_ne_fault {f : Fault} : space.picks ≠ .error (.fault f) := by
  intro h
  obtain ⟨_, _, -, -, hother⟩ := size_eq_error (size_of_picks_eq_error h)
  cases hother

end Space

namespace Outcome

variable {m : Number}

theorem map_eq_bind {f : α → β} : ∀ {o : Outcome α}, o.map f = o.bind fun a => .done (f a)
  | .done _ | .fail _ | .discard _ _ | .thrown _ => rfl
  | .choice _ _ => congrArg _ (funext fun _ => map_eq_bind)

theorem anyBits_eq_bind {width : Number} {k : Int → Outcome α} : anyBits width k = (anyBits width .done).bind k := by
  rw [anyBits, anyBits, bind]
  refine congrArg _ (funext fun pick => ?_)
  split
  · rfl
  · split
    · split <;> rfl
    · rfl

/-- Going on from an outcome grafts the further leaves onto its own. -/
theorem leaves_bind {k : α → Outcome β} : ∀ {o : Outcome α},
    (o.bind k).leaves m = (o.leaves m).flatMap (Leaf.graft fun a => (k a).leaves m)
  | .done _ => by simp [bind, leaves, Leaf.graft]
  | .fail _ | .discard _ _ | .thrown _ => by simp [bind, leaves, Leaf.graft]
  | .choice space resume => by
    rw [bind, leaves, leaves]
    split
    · simp [Leaf.graft]
    · split
      · rw [List.flatMap_assoc]
        exact congrArg (List.flatMap · _) (funext fun _ => leaves_bind)
      · simp [Leaf.graft]

theorem leaves_guarded : ∀ {o : Outcome α}, o.guarded.leaves m = (o.leaves m).map Leaf.guarded
  | .done _ | .fail _ | .discard _ _ | .thrown (.fault _) | .thrown (.other _ _) => by
    simp [guarded, leaves, Leaf.guarded]
  | .choice space resume => by
    rw [guarded, leaves, leaves]
    split
    · simp [Leaf.guarded]
    · split
      · rw [List.map_flatMap]
        exact congrArg (List.flatMap · _) (funext fun _ => leaves_guarded)
      · next t ht =>
        cases t with
        | fault f => exact absurd ht Space.picks_ne_fault
        | other => simp [Leaf.guarded]

/-- Going through a list by its places. -/
theorem flatMap_range (l : List γ) (f : Nat → List β) (g : γ → List β) (h : ∀ i c, l[i]? = some c → f i = g c) :
    (List.range l.length).flatMap f = l.flatMap g := by
  induction l generalizing f with
  | nil => rfl
  | cons c l ih =>
    rw [List.length_cons, List.range_succ_eq_map, List.flatMap_cons, List.flatMap_cons, List.flatMap_map, h 0 c rfl]
    rw [ih (fun i => f (i + 1)) fun i d hd => h (i + 1) d hd]

/-- The leaves of a choice are those of going on from each option. -/
theorem leaves_among {options : List γ} {k : γ → Outcome α} (h : options ≠ []) :
    (among options k).leaves m = options.flatMap fun c => (k c).leaves m := by
  unfold among
  split
  · exact absurd rfl h
  · simp
  · rw [leaves]
    simp only [Space.isTooWide, Bool.false_eq_true, if_false, Space.picks, Space.size, Except.map, List.flatMap_map]
    refine flatMap_range _ _ _ ?_
    intro i c hc
    simp [hc]

/-! ### Shuffled outcomes -/

/-- An outcome without choices that is not pruned. -/
inductive Single : Outcome α → Prop
  | done {a : α} : Single (.done a)
  | fail {f : Failure Diagnostic} : Single (.fail f)
  | thrown {t : Trouble} : Single (.thrown t)

theorem Single.lift {x : Except Fault α} : (liftM x : Outcome α).Single := by
  cases x with
  | ok => exact .done
  | error => exact .thrown

theorem Single.bind_lift {x : Except Fault α} {k : α → Outcome β} (h : ∀ a, (k a).Single) :
    ((liftM x : Outcome α) >>= k).Single := by
  cases x with
  | ok a => exact h a
  | error => exact .thrown

theorem Single.map {o : Outcome α} {f : α → β} (h : o.Single) : (o.map f).Single := by
  cases h with
  | done => exact .done
  | fail => exact .fail
  | thrown => exact .thrown

/-- The leaves of the outcomes are the same, up to their order and a relation of results. -/
def Shuffled (m : Number) (R : α → β → Prop) (o : Outcome α) (o' : Outcome β) : Prop :=
  Multiset.Rel (Leaf.Alike R) (o.leaves m) (o'.leaves m)

namespace Shuffled

variable {R : α → β → Prop} {o : Outcome α} {o' : Outcome β}

theorem of_leaf {l : Leaf α} {k : Leaf β} (ho : o.leaves m = [l]) (ho' : o'.leaves m = [k]) (h : Leaf.Alike R l k) :
    o.Shuffled m R o' := by
  rw [Shuffled, ho, ho']
  exact .cons h .zero

theorem done {a : α} {b : β} (h : R a b) : (Outcome.done a).Shuffled m R (.done b) := of_leaf rfl rfl (.done h)

theorem discard {why : Pruning} {detail detail' : Option String} :
    (Outcome.discard why detail).Shuffled m R (.discard why detail') := of_leaf rfl rfl .discard

/-- Outcomes without choices whose results are related. -/
theorem of_single (ho : o.Single) (ho' : o'.Single) (h : ∀ a, o.Yields a → ∃ b, o'.Yields b ∧ R a b)
    (h' : ∀ b, o'.Yields b → ∃ a, o.Yields a) : o.Shuffled m R o' := by
  cases ho with
  | @done a =>
    obtain ⟨b, hb, hR⟩ := h a .done
    cases ho' with
    | done => exact done (yields_done.mp hb ▸ hR)
    | _ => cases hb
  | _ =>
    cases ho' with
    | @done b =>
      obtain ⟨_, ha⟩ := h' b .done
      cases ha
    | _ => exact of_leaf rfl rfl (.stop trivial trivial)

/-- Work that may fault, and goes alike when it does not. -/
theorem lift {x : Except Fault α} {y : Except Fault β} (h : ∀ a, x = .ok a → ∃ b, y = .ok b ∧ R a b)
    (h' : ∀ b, y = .ok b → ∃ a, x = .ok a) : (liftM x : Outcome α).Shuffled m R (liftM y) := by
  refine of_single .lift .lift ?_ ?_
  · simpa only [yields_lift] using h
  · simpa only [yields_lift] using h'

theorem refl (R : α → α → Prop) (hR : ∀ a, R a a) (o : Outcome α) : o.Shuffled m R o := by
  refine Multiset.rel_refl_of_refl_on fun l _ => ?_
  cases l with
  | done a => exact .done (hR a)
  | discard => exact .discard
  | _ => exact .stop trivial trivial

/-- Work grafted onto shuffled outcomes that goes alike from related results. -/
theorem bind {δ ε : Type} {S : δ → ε → Prop} {k : α → Outcome δ} {k' : β → Outcome ε} (h : o.Shuffled m R o')
    (hk : ∀ a b, R a b → (k a).Shuffled m S (k' b)) : (o.bind k).Shuffled m S (o'.bind k') := by
  rw [Shuffled, leaves_bind, leaves_bind, ← Multiset.coe_bind, ← Multiset.coe_bind]
  refine Multiset.rel_bind (r := Leaf.Alike R) ?_ h
  rintro l l' (hR | - | ⟨hs, hs'⟩)
  · exact hk _ _ hR
  · exact .cons .discard .zero
  · cases l <;> cases l' <;> first | exact hs.elim | exact hs'.elim | exact .cons (.stop trivial trivial) .zero

/-- Work that goes alike from every result of one outcome. -/
theorem bind_same {δ : Type} {k : γ → Outcome α} {k' : γ → Outcome δ} {S : α → δ → Prop} (o : Outcome γ)
    (hk : ∀ c, (k c).Shuffled m S (k' c)) : (o.bind k).Shuffled m S (o.bind k') := by
  refine (refl Eq (fun _ => rfl) o).bind ?_
  rintro c _ rfl
  exact hk c

theorem map {δ ε : Type} {S : δ → ε → Prop} {f : α → δ} {g : β → ε} (h : o.Shuffled m R o')
    (hf : ∀ a b, R a b → S (f a) (g b)) : (o.map f).Shuffled m S (o'.map g) := by
  rw [map_eq_bind, map_eq_bind]
  exact h.bind fun a b hR => done (hf a b hR)

theorem guarded (h : o.Shuffled m R o') : o.guarded.Shuffled m R o'.guarded := by
  rw [Shuffled, leaves_guarded, leaves_guarded, ← Multiset.map_coe, ← Multiset.map_coe, Multiset.rel_map]
  exact h.mono fun _ _ _ _ hl => hl.guarded

/-- A choice between the same options in another order. -/
theorem among {options options' : List γ} {k : γ → Outcome α} {k' : γ → Outcome β} (hp : options.Perm options')
    (hk : ∀ c, (k c).Shuffled m R (k' c)) : (Outcome.among options k).Shuffled m R (Outcome.among options' k') := by
  by_cases hne : options = []
  · subst hne
    obtain rfl := hp.nil_eq
    exact discard
  · have hne' : options' ≠ [] := fun h => hne (h ▸ hp).eq_nil
    rw [Shuffled, leaves_among hne, leaves_among hne', ← Multiset.coe_bind, ← Multiset.coe_bind,
      Multiset.coe_eq_coe.mpr hp]
    refine Multiset.rel_bind (r := Eq) ?_ (Multiset.rel_eq_refl)
    rintro c _ rfl
    exact hk c

/-- A value of the same width. -/
theorem anyBits {width : Number} {k : Int → Outcome α} {k' : Int → Outcome β} (hk : ∀ v, (k v).Shuffled m R (k' v)) :
    (Outcome.anyBits width k).Shuffled m R (Outcome.anyBits width k') := by
  rw [anyBits_eq_bind, anyBits_eq_bind (k := k')]
  exact bind_same _ hk

end Shuffled

end Outcome

end Litmus
